import FluxOS.DirectoryEntries
import FluxOS.UserMemoryOps
import Mathlib.Data.Set.Finite.Lemmas

/-! `memmove` and `memrchr` of `cstring.cpp`. The indices are unsigned, and both run down to index 0. -/
namespace FluxOS.Cstring
open Words UserMemoryOps BlockDevice Ext2

section Moves

variable (dest src : Word)

/-- `for (i = n - 1; i >= 0; i--)`: so many rounds from an index down. -/
def moveDown : Nat → Word → Memory → Option Memory
  | 0, _, _ => none
  | rounds + 1, i, mem =>
    if 0#32 ≤ i then moveDown rounds (i - 1#32) (Function.update mem (dest + i) (mem (src + i))) else some mem

/-- `for (i = 0; i < n; i++)`. -/
def moveUp (n : Word) : Nat → Word → Memory → Option Memory
  | 0, _, _ => none
  | rounds + 1, i, mem =>
    if i < n then moveUp n rounds (i + 1#32) (Function.update mem (dest + i) (mem (src + i))) else some mem

/-- `memmove`: what it returns, and the memory. -/
def memmove (rounds : Nat) (n : Word) (mem : Memory) : Option (Word × Memory) :=
  (if src < dest then moveDown dest src rounds (n - 1#32) mem
    else if dest < src then moveUp dest src n rounds 0#32 mem
    else some mem).map fun mem => (dest, mem)

end Moves

/-- The loop of `memrchr`. There is no result where a byte outside of the region is read. -/
def searchDown (mem : Memory) (s : Word) (c : Byte) (n : Word) : Nat → Word → Option (Option Word)
  | 0, _ => none
  | rounds + 1, i =>
    if 0#32 ≤ i then
      if i < n then if mem (s + i) = c then some (some (s + i)) else searchDown mem s c n rounds (i - 1#32)
      else none
    else some none

/-- `memrchr`, where `c` is made an `unsigned char`. -/
def memrchr (mem : Memory) (s c n : Word) (rounds : Nat) : Option (Option Word) :=
  searchDown mem s (c.setWidth 8) n rounds (n - 1#32)

/-- A region of `n` bytes that lies in the address space. -/
def Region (s n : Word) : Prop := s.toNat + n.toNat ≤ 2 ^ 32

/-- The bytes have been moved, and no others have changed. -/
structure Moved (dest src n : Word) (mem mem' : Memory) : Prop where
  copied : ∀ i < n, mem' (dest + i) = mem (src + i)
  others : ∀ address, (∀ i < n, address ≠ dest + i) → mem' address = mem address

/-- The last of the bytes, or none. -/
def LastOf (mem : Memory) (s n : Word) (c : Byte) : Option Word → Prop
  | some found => ∃ i < n, found = s + i ∧ mem (s + i) = c ∧ ∀ j < n, i < j → mem (s + j) ≠ c
  | none => ∀ i < n, mem (s + i) ≠ c

section Rounds

variable {mem : Memory} {dest src n s : Word}

theorem zero_le (i : Word) : 0#32 ≤ i := Nat.zero_le i.toNat

/-- Every index is at least 0. -/
theorem moveDown_endless (rounds : Nat) (i : Word) (mem : Memory) : moveDown dest src rounds i mem = none := by
  induction rounds generalizing i mem with
  | zero => rfl
  | succ rounds ih => rw [moveDown, if_pos (zero_le i), ih]

theorem toNat_add_inside (region : Region s n) {i : Word} (inside : i < n) : (s + i).toNat = s.toNat + i.toNat := by
  rw [BitVec.toNat_add]
  apply Nat.mod_eq_of_lt
  rw [BitVec.lt_def] at inside
  rw [Region] at region
  omega

theorem toNat_next {i : Word} (inside : i < n) : (i + 1#32).toNat = i.toNat + 1 := by
  rw [BitVec.lt_def] at inside
  exact toNat_add_one (by omega)

theorem lt_next_iff {i j : Word} (inside : i < n) : j < i + 1#32 ↔ j < i ∨ j = i := by
  rw [BitVec.lt_def, BitVec.lt_def, toNat_next inside, ← BitVec.toNat_inj]
  omega

/-- What a round adds to a move upwards: the byte that it reads has not been moved over. -/
theorem Moved.next {before : Memory} (region : Region dest n) (region' : Region src n) (below : dest < src) {i : Word}
    (inside : i < n) (moved : Moved dest src i before mem) :
    Moved dest src (i + 1#32) before (Function.update mem (dest + i) (mem (src + i))) where
  copied j earlier := by
    rcases (lt_next_iff inside).mp earlier with earlier | rfl
    · have apart : dest + j ≠ dest + i := by
        intro same
        rw [BitVec.add_right_inj] at same
        exact absurd (same ▸ earlier) (BitVec.lt_irrefl i)
      rw [Function.update_of_ne apart, moved.copied j earlier]
    · rw [Function.update_self]
      apply moved.others
      intro k earlier same
      have places := congrArg BitVec.toNat same
      rw [toNat_add_inside region' inside, toNat_add_inside region (BitVec.lt_trans earlier inside)] at places
      rw [BitVec.lt_def] at earlier below
      omega
  others address outside := by
    rw [Function.update_of_ne (outside i ((lt_next_iff inside).mpr (.inr rfl)))]
    exact moved.others address fun j earlier => outside j ((lt_next_iff inside).mpr (.inl earlier))

theorem moveUp_moved (region : Region dest n) (region' : Region src n) (below : dest < src) {before : Memory} (left : Nat)
    {i : Word} (rest : i.toNat + left = n.toNat) (moved : Moved dest src i before mem) :
    ∃ mem', moveUp dest src n (left + 1) i mem = some mem' ∧ Moved dest src n before mem' := by
  induction left generalizing i mem with
  | zero =>
    obtain rfl : i = n := BitVec.eq_of_toNat_eq rest
    exact ⟨mem, by rw [moveUp, if_neg (BitVec.lt_irrefl i)], moved⟩
  | succ left ih =>
    have inside : i < n := by
      rw [BitVec.lt_def]
      omega
    rw [moveUp, if_pos inside]
    apply ih
    · rw [toNat_next inside]
      omega
    · exact moved.next region region' below inside

/-- Down to the last place where the byte is, the search goes on. -/
theorem searchDown_found {c : Byte} {found : Word} (here : mem (s + found) = c) (steps : Nat) {i : Word} (inside : i < n)
    (rest : i.toNat = found.toNat + steps) (none : ∀ j < n, found < j → mem (s + j) ≠ c) :
    searchDown mem s c n (steps + 1) i = some (some (s + found)) := by
  induction steps generalizing i with
  | zero =>
    obtain rfl : i = found := BitVec.eq_of_toNat_eq rest
    rw [searchDown, if_pos (zero_le i), if_pos inside, if_pos here]
  | succ steps ih =>
    have later : found < i := by
      rw [BitVec.lt_def]
      omega
    have previous : (i - 1#32).toNat = found.toNat + steps := by
      rw [toNat_sub_one (by omega)]
      omega
    rw [searchDown, if_pos (zero_le i), if_pos inside, if_neg (none i inside later)]
    apply ih
    · rw [BitVec.lt_def] at inside ⊢
      omega
    · exact previous

/-- Where the byte is nowhere, the search leaves the region: below index 0 comes the highest one. -/
theorem searchDown_not_found {c : Byte} (nowhere : ∀ j < n, mem (s + j) ≠ c) (rounds : Nat) (i : Word) :
    searchDown mem s c n rounds i = none := by
  induction rounds generalizing i with
  | zero => rfl
  | succ rounds ih =>
    rw [searchDown, if_pos (zero_le i)]
    split
    · next inside => rw [if_neg (nowhere i inside), ih]
    · rfl

/-- One of the indices has to be the last. -/
theorem last_of_some {c : Byte} (somewhere : ∃ i < n, mem (s + i) = c) :
    ∃ i < n, mem (s + i) = c ∧ ∀ j < n, i < j → mem (s + j) ≠ c := by
  have : Finite Word := Finite.of_injective BitVec.toFin fun _ _ => BitVec.eq_of_toFin_eq
  obtain ⟨last, ⟨inside, here⟩, most⟩ :=
    Set.exists_max_image {i : Word | i < n ∧ mem (s + i) = c} BitVec.toNat (Set.toFinite _) somewhere
  refine ⟨last, inside, here, fun j inside' later same => ?_⟩
  have bound := most j ⟨inside', same⟩
  rw [BitVec.lt_def] at later
  omega

end Rounds

/-- `memmove` ends and moves the region. -/
def MovesRightly (mem : Memory) (dest src n : Word) : Prop :=
  ∃ rounds mem', memmove dest src rounds n mem = some (dest, mem') ∧ Moved dest src n mem mem'

/-- `memrchr` ends, has read inside of the region only, and returns the last of the bytes. -/
def FindsLast (mem : Memory) (s c n : Word) : Prop :=
  ∃ rounds answer, memrchr mem s c n rounds = some answer ∧ LastOf mem s n (c.setWidth 8) answer

theorem movesRightly_iff {mem : Memory} {dest src n : Word} (region : Region dest n) (region' : Region src n) :
    MovesRightly mem dest src n ↔ dest ≤ src := by
  constructor
  · rintro ⟨rounds, mem', ends, -⟩
    by_contra above
    rw [memmove, if_pos (BitVec.not_le.mp above), moveDown_endless] at ends
    cases ends
  · intro notAbove
    rcases eq_or_ne dest src with rfl | apart
    · refine ⟨0, mem, ?_, fun _ _ => rfl, fun _ _ => rfl⟩
      rw [memmove, if_neg (BitVec.lt_irrefl dest), if_neg (BitVec.lt_irrefl dest), Option.map_some]
    · have below := BitVec.lt_of_le_ne notAbove apart
      have nothing : Moved dest src 0#32 mem mem := ⟨fun i none => absurd none BitVec.not_lt_zero, fun _ _ => rfl⟩
      obtain ⟨mem', ends, moved⟩ := moveUp_moved region region' below n.toNat (by simp) nothing
      refine ⟨n.toNat + 1, mem', ?_, moved⟩
      rw [memmove, if_neg (BitVec.not_lt.mpr notAbove), if_pos below, ends, Option.map_some]

theorem findsLast_iff (mem : Memory) (s c n : Word) :
    FindsLast mem s c n ↔ ∃ i < n, mem (s + i) = c.setWidth 8 := by
  constructor
  · rintro ⟨rounds, answer, ends, -⟩
    by_contra nowhere
    rw [memrchr, searchDown_not_found fun j inside same => nowhere ⟨j, inside, same⟩] at ends
    cases ends
  · intro somewhere
    obtain ⟨last, inside, here, none⟩ := last_of_some somewhere
    have order := inside
    have small := n.isLt
    rw [BitVec.lt_def] at order
    have start : (n - 1#32).toNat = n.toNat - 1 := toNat_sub_one (by omega)
    have found := searchDown_found here (n.toNat - 1 - last.toNat) (n := n) (i := n - 1#32)
      (by rw [BitVec.lt_def]; omega) (by omega) none
    exact ⟨_, some (s + last), found, last, inside, rfl, here, none⟩

/-- `memmove` ends just if it has not to move upwards, for not even the index 0 ends its way down; `memrchr`, which
counts in the same way, ends inside of the region just if the byte is there. -/
theorem moves_and_searches_iff (mem : Memory) {dest src n : Word} (region : Region dest n) (region' : Region src n)
    (s c count : Word) : (MovesRightly mem dest src n ↔ dest ≤ src) ∧
      (FindsLast mem s c count ↔ ∃ i < count, mem (s + i) = c.setWidth 8) :=
  ⟨movesRightly_iff region region', findsLast_iff mem s c count⟩

/-- Two bytes that are moved one down, and a search that finds the second of two slashes. -/
theorem moves_down : MovesRightly (fun _ => 0x2f#8) 0x1000#32 0x1001#32 2#32 ∧
    FindsLast (fun _ => 0x2f#8) 0x1000#32 0x2f#32 2#32 := by
  have region : Region 0x1000#32 2#32 := by unfold Region; decide
  have region' : Region 0x1001#32 2#32 := by unfold Region; decide
  have facts := moves_and_searches_iff (fun _ => 0x2f#8) region region' 0x1000#32 0x2f#32 2#32
  exact ⟨facts.1.mpr (by decide), facts.2.mpr ⟨1#32, by decide, by decide⟩⟩

/-- To move two bytes one up takes for ever, as to search for a slash that is not there. -/
theorem moves_up_for_ever : Region 0x1001#32 2#32 ∧ Region 0x1000#32 2#32 ∧
    ¬ MovesRightly (fun _ => 0#8) 0x1001#32 0x1000#32 2#32 ∧ ¬ FindsLast (fun _ => 0#8) 0x1000#32 0x2f#32 2#32 := by
  have region : Region 0x1001#32 2#32 := by unfold Region; decide
  have region' : Region 0x1000#32 2#32 := by unfold Region; decide
  refine ⟨region, region', ?_, ?_⟩
  · rw [movesRightly_iff region region']
    decide
  · rw [findsLast_iff]
    rintro ⟨i, -, same⟩
    exact absurd same (by decide)

end FluxOS.Cstring
