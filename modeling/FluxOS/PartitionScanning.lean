import FluxOS.PartialWalks
import FluxOS.Partitions

/-! On which disks the scan of the boot records comes to an end: the loop follows the links that it
finds and keeps no account of where it has been. -/
namespace FluxOS.DiskPart
open Words UserMemoryOps BlockDevice PartialWalks

/-- The record that the loop reads next. -/
def follow (disk : Disk) (record : Word) : Option Word :=
  if signature (bootRecord disk record) ≠ brSignature then none
  else if (link disk record).length ≠ 0#32 then some (record + (link disk record).firstSectorLBA)
  else none

/-- Every record that the loop reads from this one on is signed. -/
def AllSigned (disk : Disk) (record : Word) : Prop :=
  ∀ n here, place (follow disk) record n = some here → signature (bootRecord disk here) = brSignature

/-- The sector at which the chain of an entry begins. -/
def chainStart (disk : Disk) (i : Nat) : Word := (primary disk i).firstSectorLBA

/-- The scan gets as far as an entry of the master boot record: no record before it ends the scan. -/
def Reached (disk : Disk) (i : Nat) : Prop :=
  signature (bootRecord disk 0#32) = brSignature ∧ ∀ k < i, Extended disk k → AllSigned disk (chainStart disk k)

/-- The scan returns, with the partitions that it has registered. -/
def Terminates (disk : Disk) (namingScheme : List Byte) (before : DiskPart) : Prop :=
  ∃ fuel ok after, createMSDOSPartitionsDevices disk namingScheme fuel before = some (ok, after)

section Chains

variable {disk : Disk} {namingScheme : List Byte} {state : DiskPart} {record : Word} {j fuel : Nat}

theorem follow_unsigned (unsigned : signature (bootRecord disk record) ≠ brSignature) : follow disk record = none :=
  if_pos unsigned

theorem follow_linked (signed : signature (bootRecord disk record) = brSignature)
    (linked : (link disk record).length ≠ 0#32) :
    follow disk record = some (record + (link disk record).firstSectorLBA) := by
  rw [follow, if_neg (not_not.mpr signed), if_pos linked]

theorem follow_last (signed : signature (bootRecord disk record) = brSignature)
    (ends : (link disk record).length = 0#32) : follow disk record = none := by
  rw [follow, if_neg (not_not.mpr signed), if_neg (not_not.mpr ends)]

/-- What the loop does with a record before it goes on. -/
def registerLogical (disk : Disk) (namingScheme : List Byte) (state : DiskPart) (j : Nat) (record : Word) : DiskPart :=
  if (logical disk record).length ≠ 0#32 then
    registerPartition namingScheme state j record (logical disk record).length
  else state

theorem readLogical_unsigned (unsigned : signature (bootRecord disk record) ≠ brSignature) :
    readLogical disk namingScheme state j record (fuel + 1) = some (false, j, state) := by
  rw [readLogical]
  exact if_pos unsigned

theorem readLogical_linked (signed : signature (bootRecord disk record) = brSignature)
    (linked : (link disk record).length ≠ 0#32) : readLogical disk namingScheme state j record (fuel + 1) =
      readLogical disk namingScheme (registerLogical disk namingScheme state j record) (j + 1)
        (record + (link disk record).firstSectorLBA) fuel := by
  rw [readLogical, if_neg (not_not.mpr signed)]
  exact if_pos linked

theorem readLogical_last (signed : signature (bootRecord disk record) = brSignature)
    (ends : (link disk record).length = 0#32) : readLogical disk namingScheme state j record (fuel + 1) =
      some (true, j, registerLogical disk namingScheme state j record) := by
  rw [readLogical, if_neg (not_not.mpr signed)]
  exact if_neg (not_not.mpr ends)

/-- The fuel lasts if the walk ends within it. -/
theorem readLogical_eq_none_iff :
    readLogical disk namingScheme state j record fuel = none ↔ place (follow disk) record fuel ≠ none := by
  induction fuel generalizing state j record with
  | zero => exact ⟨fun _ => Option.some_ne_none _, fun _ => rfl⟩
  | succ fuel ih =>
    rw [place_succ]
    by_cases signed : signature (bootRecord disk record) = brSignature
    · by_cases linked : (link disk record).length = 0#32
      · rw [readLogical_last signed linked, follow_last signed linked]
        simp
      · rw [readLogical_linked signed linked, follow_linked signed linked, ih]
        rfl
    · rw [readLogical_unsigned signed, follow_unsigned signed]
      simp

theorem readLogical_mono {more : Nat} (le : fuel ≤ more) {result : Bool × Nat × DiskPart}
    (run : readLogical disk namingScheme state j record fuel = some result) :
    readLogical disk namingScheme state j record more = some result := by
  induction fuel generalizing state j record more with
  | zero => cases run
  | succ fuel ih =>
    obtain ⟨more, rfl⟩ := Nat.exists_eq_add_of_le' (Nat.le_trans (Nat.succ_le_succ (Nat.zero_le fuel)) le)
    by_cases signed : signature (bootRecord disk record) = brSignature
    · by_cases linked : (link disk record).length = 0#32
      · rw [readLogical_last signed linked] at run ⊢
        exact run
      · rw [readLogical_linked signed linked] at run ⊢
        exact ih (by omega) run
    · rw [readLogical_unsigned signed] at run ⊢
      exact run

theorem allSigned_iff : AllSigned disk record ↔ signature (bootRecord disk record) = brSignature ∧
    ∀ later, follow disk record = some later → AllSigned disk later := by
  constructor
  · intro all
    refine ⟨all 0 record rfl, fun later next n here reached => all (n + 1) here ?_⟩
    rw [place_succ, next]
    exact reached
  · rintro ⟨signed, rest⟩ n here reached
    cases n with
    | zero =>
      cases reached
      exact signed
    | succ n =>
      rw [place_succ] at reached
      obtain ⟨later, next, reached⟩ := Option.bind_eq_some_iff.mp reached
      exact rest later next n here reached

/-- The scan goes on behind a chain if all of its records are signed. -/
theorem readLogical_ok {ok : Bool} {last : Nat} {after : DiskPart}
    (run : readLogical disk namingScheme state j record fuel = some (ok, last, after)) :
    ok = true ↔ AllSigned disk record := by
  induction fuel generalizing state j record with
  | zero => cases run
  | succ fuel ih =>
    rw [allSigned_iff]
    by_cases signed : signature (bootRecord disk record) = brSignature
    · by_cases linked : (link disk record).length = 0#32
      · rw [readLogical_last signed linked] at run
        cases run
        rw [follow_last signed linked]
        simp [signed]
      · rw [readLogical_linked signed linked] at run
        rw [ih run, follow_linked signed linked]
        simp [signed]
    · rw [readLogical_unsigned signed] at run
      cases run
      simp [signed]

end Chains

/-! ## The entries of the master boot record -/

section Entries

variable {disk : Disk} {namingScheme : List Byte} {state : DiskPart} {j : Nat}

/-- The scan of some entries ends: no chain that it follows comes back. -/
def EndsOver (disk : Disk) : List Nat → Prop
  | [] => True
  | i :: later => (Extended disk i → ¬ComesBack (follow disk) (chainStart disk i)) ∧
      ((Extended disk i → AllSigned disk (chainStart disk i)) → EndsOver disk later)

theorem readPrimary_mono {fuel more : Nat} (le : fuel ≤ more) {entries : List Nat} {result : Bool × DiskPart}
    (run : readPrimary disk namingScheme fuel state j entries = some result) :
    readPrimary disk namingScheme more state j entries = some result := by
  induction entries generalizing state j with
  | nil => exact run
  | cons i later ih =>
    rw [readPrimary] at run ⊢
    by_cases extended : (primary disk i).type = extendedPartitionType
    · rw [if_pos extended] at run ⊢
      cases chain : readLogical disk namingScheme (registerPrimary disk namingScheme state i) j
          (primary disk i).firstSectorLBA fuel with
      | none =>
        rw [chain] at run
        cases run
      | some found =>
        rw [readLogical_mono le chain]
        rw [chain] at run
        obtain ⟨ok, last, after⟩ := found
        cases ok with
        | false => exact run
        | true => exact ih run
    · rw [if_neg extended] at run ⊢
      exact ih run

/-- A chain is read to its end with enough fuel, unless it comes back. -/
theorem readLogical_ends_iff (record : Word) : (∃ fuel result, readLogical disk namingScheme state j record fuel = some result) ↔
    ¬ComesBack (follow disk) record := by
  have : Finite Word := Finite.of_injective BitVec.toFin fun _ _ => BitVec.eq_of_toFin_eq
  rw [← ends_iff]
  refine exists_congr fun fuel => ?_
  rw [← Option.isSome_iff_exists, Option.isSome_iff_ne_none, ne_eq, readLogical_eq_none_iff, not_not]

theorem readPrimary_ends_iff (entries : List Nat) (state : DiskPart) (j : Nat) :
    (∃ fuel result, readPrimary disk namingScheme fuel state j entries = some result) ↔ EndsOver disk entries := by
  induction entries generalizing state j with
  | nil => exact ⟨fun _ => trivial, fun _ => ⟨0, _, rfl⟩⟩
  | cons i later ih =>
    by_cases extended : Extended disk i
    · constructor
      · rintro ⟨fuel, result, run⟩
        rw [readPrimary, if_pos extended] at run
        cases chain : readLogical disk namingScheme (registerPrimary disk namingScheme state i) j
            (primary disk i).firstSectorLBA fuel with
        | none =>
          rw [chain] at run
          cases run
        | some found =>
          rw [chain] at run
          refine ⟨fun _ => (readLogical_ends_iff _).mp ⟨fuel, found, chain⟩, fun signed => ?_⟩
          obtain ⟨ok, last, after⟩ := found
          obtain rfl := (readLogical_ok chain).mpr (signed extended)
          exact (ih after last).mp ⟨fuel, result, run⟩
      · rintro ⟨ends, rest⟩
        obtain ⟨fuel, ⟨ok, last, after⟩, chain⟩ := (@readLogical_ends_iff disk namingScheme
          (registerPrimary disk namingScheme state i) j (chainStart disk i)).mpr (ends extended)
        cases ok with
        | false =>
          refine ⟨fuel, (false, after), ?_⟩
          rw [readPrimary, if_pos extended]
          exact chain ▸ rfl
        | true =>
          have signed := (readLogical_ok chain).mp rfl
          obtain ⟨more, result, run⟩ := (ih after last).mpr (rest fun _ => signed)
          refine ⟨max fuel more, result, ?_⟩
          rw [readPrimary, if_pos extended]
          have longer := readLogical_mono (Nat.le_max_left fuel more) chain
          rw [chainStart] at longer
          rw [longer]
          exact readPrimary_mono (Nat.le_max_right fuel more) run
    · have next : (∃ fuel result, readPrimary disk namingScheme fuel state j (i :: later) = some result) ↔
          ∃ fuel result, readPrimary disk namingScheme fuel (registerPrimary disk namingScheme state i) j later =
            some result := by
        simp only [readPrimary, if_neg extended]
      rw [next, ih]
      exact ⟨fun ends => ⟨fun some => absurd some extended, fun _ => ends⟩,
        fun ends => ends.2 fun some => absurd some extended⟩

theorem endsOver_iff (first count : Nat) : EndsOver disk (List.range' first count) ↔
    ∀ i, first ≤ i → i < first + count →
      (∀ k, first ≤ k → k < i → Extended disk k → AllSigned disk (chainStart disk k)) →
        Extended disk i → ¬ComesBack (follow disk) (chainStart disk i) := by
  induction count generalizing first with
  | zero => exact ⟨fun _ i low high => by omega, fun _ => trivial⟩
  | succ count ih =>
    rw [List.range'_succ, EndsOver, ih]
    constructor
    · rintro ⟨here, rest⟩ i low high signed
      obtain rfl | above := Nat.eq_or_lt_of_le low
      · exact here
      · exact rest (signed first (Nat.le_refl first) above) i above (by omega) fun k later before =>
          signed k (by omega) before
    · intro all
      refine ⟨all first (Nat.le_refl first) (by omega) fun k low high => by omega, fun signed i low high later => ?_⟩
      refine all i (by omega) (by omega) fun k from_first before => ?_
      obtain rfl | above := Nat.eq_or_lt_of_le from_first
      · exact signed
      · exact later k above before

end Entries

section Main

variable (disk : Disk) (namingScheme : List Byte) (before : DiskPart)

theorem terminates_unsigned (unsigned : signature (bootRecord disk 0#32) ≠ brSignature) :
    Terminates disk namingScheme before := ⟨0, false, before, if_pos unsigned⟩

theorem terminates_signed (signed : signature (bootRecord disk 0#32) = brSignature) :
    Terminates disk namingScheme before ↔ EndsOver disk (List.range 4) := by
  rw [← @readPrimary_ends_iff disk namingScheme (List.range 4) before 5]
  simp only [Terminates, createMSDOSPartitionsDevices, if_neg (not_not.mpr signed), Prod.exists]

/-- **Termination of the scan**, on any disk: it returns if and only if no chain of extended boot records that it comes
to leads back to a record of itself. -/
theorem scan_terminates_iff : Terminates disk namingScheme before ↔
    ∀ i < 4, Reached disk i → Extended disk i → ¬ComesBack (follow disk) (chainStart disk i) := by
  by_cases signed : signature (bootRecord disk 0#32) = brSignature
  · rw [terminates_signed disk namingScheme before signed, List.range_eq_range', endsOver_iff]
    constructor
    · intro all i inside reached
      exact all i (Nat.zero_le i) (by omega) fun k _ earlier => reached.2 k earlier
    · intro all i _ inside earlier
      exact all i (by omega) ⟨signed, fun k before => earlier k (Nat.zero_le k) before⟩
  · exact iff_of_true (terminates_unsigned disk namingScheme before signed) fun i _ reached =>
      absurd reached.1 signed

end Main

/-- An extended boot record at sector 2048 whose link leads to itself. -/
def loopDisk : Disk := sampleDisk [(2048 * 512 + 474, 1#8)]

theorem loop_never_left : signature (bootRecord loopDisk 0#32) = brSignature ∧ Extended loopDisk 1 ∧
    AllSigned loopDisk (chainStart loopDisk 1) ∧ ¬Terminates loopDisk [112#8, 35#8] ⟨[], 0#32⟩ := by
  have signed : signature (bootRecord loopDisk 0#32) = brSignature := by decide
  have extended : Extended loopDisk 1 := by decide
  have start : chainStart loopDisk 1 = 2048#32 := by decide
  have itself : follow loopDisk 2048#32 = some 2048#32 := by decide
  have always (n : Nat) : place (follow loopDisk) 2048#32 n = some 2048#32 := by
    induction n with
    | zero => rfl
    | succ n ih => rw [place, ih, Option.bind_some, itself]
  refine ⟨signed, extended, ?_, ?_⟩
  · rw [start]
    intro n here reached
    cases (always n).symm.trans reached
    decide
  · rw [terminates_signed _ _ _ signed, List.range_eq_range', endsOver_iff]
    intro ends
    refine ends 1 (by decide) (by decide) (fun k low high simple => ?_) extended ?_
    · obtain rfl : k = 0 := by omega
      exact absurd simple (by decide)
    · rw [start]
      exact ⟨0, 1, 2048#32, by decide, always 0, always 1⟩

end FluxOS.DiskPart
