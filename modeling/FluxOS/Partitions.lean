import Mathlib.Data.List.Nodup
import FluxOS.BlockDevice

/-! `DiskPart`: the partitions that a master boot record and its extended boot records describe,
and the devices registered for them. -/
namespace FluxOS
open Words UserMemoryOps BlockDevice

/-- A registered partition, with the name and the minor number of its device. -/
structure Partition where
  name : List Byte
  minor : Word
  firstSector : Word
  length : Word
deriving DecidableEq

/-- How a partition is known: by its name, its first sector and its length. -/
def Partition.place (partition : Partition) : List Byte × Word × Word :=
  (partition.name, partition.firstSector, partition.length)

theorem Partition.place_eq {partition : Partition} {name : List Byte} {firstSector length : Word}
    (place : partition.place = (name, firstSector, length)) :
    partition.name = name ∧ partition.firstSector = firstSector :=
  ⟨congrArg Prod.fst place, congrArg (·.2.1) place⟩

/-- `Partitions` in the order of their registration, and `nextId`. -/
structure DiskPart where
  partitions : List Partition
  nextId : Word

structure PartitionDescriptor where
  type : Byte
  firstSectorLBA : Word
  length : Word
deriving DecidableEq

namespace DiskPart

def extendedPartitionType : Byte := 5#8

def brSignature : BitVec 16 := 0xaa55#16

/-- `ReadBlock` of one sector: nothing of what the buffer held stays in the record. -/
def bootRecord (disk : Disk) (lba : Word) : Block := readBlock disk lba 1#32 fun _ => 0#8

def signature (record : Block) : BitVec 16 := le16 record 510

/-- An entry of `PrimaryPartitions`, and of `LogicalPartitions`. -/
def descriptor (record : Block) (i : Nat) : PartitionDescriptor :=
  ⟨record (446 + 16 * i + 4), le32 record (446 + 16 * i + 8), le32 record (446 + 16 * i + 12)⟩

/-- The scheme with the number for every `#`, up to the end of the string. A number takes
one character. -/
def partitionName (namingScheme : List Byte) (partitionNum : Nat) : List Byte :=
  (namingScheme.map fun c => if c = 35#8 then BitVec.ofNat 8 (partitionNum + 48) else c).takeWhile (· ≠ 0#8)

def registerPartition (namingScheme : List Byte) (state : DiskPart) (partitionNum : Nat)
    (partitionStart partitionLength : Word) : DiskPart where
  partitions := state.partitions ++
    [⟨partitionName namingScheme partitionNum, state.nextId, partitionStart, partitionLength⟩]
  nextId := state.nextId + 1#32

section Discovery

variable (disk : Disk) (namingScheme : List Byte)

/-- The loop over the extended boot records: whether all of them were signed, and where the
numbers have come to. -/
def readLogical (state : DiskPart) (j : Nat) (lbaOffset : Word) : Nat → Option (Bool × Nat × DiskPart)
  | 0 => none
  | fuel + 1 =>
    let ebr := bootRecord disk lbaOffset
    if signature ebr ≠ brSignature then some (false, j, state)
    else
      let state :=
        if (descriptor ebr 0).length ≠ 0#32 then
          registerPartition namingScheme state j lbaOffset (descriptor ebr 0).length
        else state
      if (descriptor ebr 1).length ≠ 0#32 then
        readLogical state (j + 1) (lbaOffset + (descriptor ebr 1).firstSectorLBA) fuel
      else some (true, j, state)

def primary (i : Nat) : PartitionDescriptor := descriptor (bootRecord disk 0#32) i

/-- The entry itself, if it is not empty. -/
def registerPrimary (state : DiskPart) (i : Nat) : DiskPart :=
  if (primary disk i).length ≠ 0#32 then
    registerPartition namingScheme state (i + 1) (primary disk i).firstSectorLBA (primary disk i).length
  else state

/-- The loop over the entries of the master boot record. -/
def readPrimary (fuel : Nat) (state : DiskPart) (j : Nat) : List Nat → Option (Bool × DiskPart)
  | [] => some (true, state)
  | i :: later =>
    let state := registerPrimary disk namingScheme state i
    if (primary disk i).type = extendedPartitionType then
      match readLogical disk namingScheme state j (primary disk i).firstSectorLBA fuel with
      | none => none
      | some (false, _, state) => some (false, state)
      | some (true, j, state) => readPrimary fuel state j later
    else readPrimary fuel state j later

/-- `CreateMSDOSPartitionsDevices`: nothing where the fuel does not last. -/
def createMSDOSPartitionsDevices (fuel : Nat) (state : DiskPart) : Option (Bool × DiskPart) :=
  if signature (bootRecord disk 0#32) ≠ brSignature then some (false, state)
  else readPrimary disk namingScheme fuel state 5 (List.range 4)

end Discovery

/-! ## What the format describes -/

section Format

variable (disk : Disk)

/-- The logical partition of an extended boot record. -/
def logical (record : Word) : PartitionDescriptor := descriptor (bootRecord disk record) 0

/-- Its link to the next one. -/
def link (record : Word) : PartitionDescriptor := descriptor (bootRecord disk record) 1

/-- A chain of extended boot records from one of them on. Every link is relative to the
start of the extended partition, and no record comes again. -/
inductive Chain (extended : Word) : Word → List Word → Prop
  | last {record : Word} (signed : signature (bootRecord disk record) = brSignature)
      (ends : (link disk record).length = 0#32) : Chain extended record [record]
  | next {record : Word} {later : List Word} (signed : signature (bootRecord disk record) = brSignature)
      (linked : (link disk record).length ≠ 0#32) (fresh : record ∉ later)
      (rest : Chain extended (extended + (link disk record).firstSectorLBA) later) :
      Chain extended record (record :: later)

abbrev Extended (i : Nat) : Prop := (primary disk i).type = extendedPartitionType

/-- The records of the chain that starts at each entry. The first record of a chain cannot
be unlinked, so it alone may describe no partition. -/
structure WellFormed (chains : Nat → List Word) : Prop where
  signed : signature (bootRecord disk 0#32) = brSignature
  chain {i : Nat} (inside : i < 4) (extended : Extended disk i) :
    Chain disk (primary disk i).firstSectorLBA (primary disk i).firstSectorLBA (chains i)
  absent {i : Nat} (inside : i < 4) (simple : ¬ Extended disk i) : chains i = []
  described {i : Nat} {record : Word} (inside : i < 4) (later : record ∈ (chains i).tail) :
    (logical disk record).length ≠ 0#32
  apart {i k : Nat} {record other : Word} (inside : i < 4) (inside' : k < 4) (within : record ∈ chains i)
    (within' : other ∈ chains k) (used : (logical disk record).length ≠ 0#32) :
    record + (logical disk record).firstSectorLBA ≠ other

/-- The numbers, first sectors and lengths of the entries that are not empty. -/
def primaryPartitions : List (Nat × Word × Word) :=
  ((List.range 4).filter fun i => (primary disk i).length ≠ 0#32).map fun i =>
    (i + 1, (primary disk i).firstSectorLBA, (primary disk i).length)

/-- The logical partitions in the order of the chain, with the numbers from 5 on. -/
def logicalPartitions (chains : Nat → List Word) : List (Nat × Word × Word) :=
  ((((List.range 4).flatMap chains).filter fun record => (logical disk record).length ≠ 0#32).zipIdx 5).map
    fun (record, number) => (number, record + (logical disk record).firstSectorLBA, (logical disk record).length)

end Format

/-- The discovery ends, and what it registers is what the format describes, each partition under
a name of its own. -/
def Discovered (disk : Disk) (namingScheme : List Byte) (chains : Nat → List Word) (before : DiskPart) : Prop :=
  ∃ fuel ok after found, createMSDOSPartitionsDevices disk namingScheme fuel before = some (ok, after) ∧
    after.partitions = before.partitions ++ found ∧
    List.Perm (found.map Partition.place) ((primaryPartitions disk ++ logicalPartitions disk chains).map
      fun (number, place) => (partitionName namingScheme number, place)) ∧
    (found.map (·.name)).Nodup

/-! ## Names -/

/-- A name tells the number modulo 256. -/
theorem partitionName_inj {namingScheme : List Byte} {m n : Nat} (marked : 35#8 ∈ namingScheme)
    (ended : 0#8 ∉ namingScheme) (same : partitionName namingScheme m = partitionName namingScheme n) :
    m % 256 = n % 256 := by
  have digit {m n : Nat} (same : BitVec.ofNat 8 (m + 48) = BitVec.ofNat 8 (n + 48)) : m % 256 = n % 256 := by
    have values := congrArg BitVec.toNat same
    simp only [BitVec.toNat_ofNat] at values
    omega
  induction namingScheme with
  | nil => cases marked
  | cons c rest ih =>
    rw [List.mem_cons, not_or] at ended
    by_cases mark : c = 35#8
    · subst mark
      simp only [partitionName, List.map_cons, if_true, List.takeWhile_cons, decide_eq_true_eq] at same
      by_cases first : BitVec.ofNat 8 (m + 48) = 0#8
      · by_cases second : BitVec.ofNat 8 (n + 48) = 0#8
        · exact digit (first.trans second.symm)
        · rw [if_neg (not_not.mpr first), if_pos second] at same
          cases same
      · by_cases second : BitVec.ofNat 8 (n + 48) = 0#8
        · rw [if_pos first, if_neg (not_not.mpr second)] at same
          cases same
        · rw [if_pos first, if_pos second] at same
          exact digit (List.cons.inj same).1
    · have stays : c ≠ 0#8 := Ne.symm ended.1
      simp only [partitionName, List.map_cons, if_neg mark, List.takeWhile_cons, decide_eq_true stays, if_true] at same
      exact ih ((List.mem_cons.mp marked).resolve_left (Ne.symm mark)) ended.2 (List.cons.inj same).2

/-! ## What the walk over the extended boot records registers -/

section Walk

variable {disk : Disk} {namingScheme : List Byte} {state after : DiskPart}

/-- One state is another with more partitions behind, and one of these is as required. -/
def Adds (state after : DiskPart) (required : Partition → Prop) : Prop :=
  ∃ added, after.partitions = state.partitions ++ added ∧ ∃ partition ∈ added, required partition

def Grows (state after : DiskPart) : Prop := ∃ added, after.partitions = state.partitions ++ added

theorem Grows.refl (state : DiskPart) : Grows state state := ⟨[], by simp⟩

theorem Grows.trans {middle : DiskPart} (first : Grows state middle) (second : Grows middle after) :
    Grows state after := by
  obtain ⟨added, first⟩ := first
  obtain ⟨more, second⟩ := second
  exact ⟨added ++ more, by rw [second, first, List.append_assoc]⟩

theorem Adds.grows {middle : DiskPart} {required : Partition → Prop} (adds : Adds state middle required)
    (grows : Grows middle after) : Adds state after required := by
  obtain ⟨added, first, partition, among, holds⟩ := adds
  obtain ⟨more, second⟩ := grows
  exact ⟨added ++ more, by rw [second, first, List.append_assoc], partition, List.mem_append_left _ among, holds⟩

theorem Grows.adds {middle : DiskPart} {required : Partition → Prop} (grows : Grows state middle)
    (adds : Adds middle after required) : Adds state after required := by
  obtain ⟨added, first⟩ := grows
  obtain ⟨more, second, partition, among, holds⟩ := adds
  exact ⟨added ++ more, by rw [second, first, List.append_assoc], partition, List.mem_append_right _ among, holds⟩

theorem registerPartition_adds (number : Nat) (start length : Word) :
    Adds state (registerPartition namingScheme state number start length)
      fun partition => partition.place = (partitionName namingScheme number, start, length) :=
  ⟨_, rfl, _, List.mem_singleton_self _, rfl⟩

theorem registerPartition_grows (number : Nat) (start length : Word) :
    Grows state (registerPartition namingScheme state number start length) := ⟨_, rfl⟩

theorem registerPrimary_grows (i : Nat) : Grows state (registerPrimary disk namingScheme state i) := by
  rw [registerPrimary]
  split
  · exact registerPartition_grows ..
  · exact .refl state

theorem readLogical_grows {fuel j last : Nat} {record : Word} {ok : Bool}
    (run : readLogical disk namingScheme state j record fuel = some (ok, last, after)) : Grows state after := by
  induction fuel generalizing state j record with
  | zero => cases run
  | succ fuel ih =>
    rw [readLogical] at run
    by_cases unsigned : signature (bootRecord disk record) ≠ brSignature
    · rw [if_pos unsigned] at run
      cases run
      exact .refl _
    · rw [if_neg unsigned] at run
      dsimp only at run
      have first : Grows state (if (descriptor (bootRecord disk record) 0).length ≠ 0#32 then
          registerPartition namingScheme state j record (descriptor (bootRecord disk record) 0).length
        else state) := by
        split
        · exact registerPartition_grows ..
        · exact .refl state
      by_cases linked : (descriptor (bootRecord disk record) 1).length ≠ 0#32
      · rw [if_pos linked] at run
        exact first.trans (ih run)
      · rw [if_neg linked] at run
        cases run
        exact first

/-- The logical partition of a record gets the sector of the record itself. -/
theorem readLogical_adds {fuel j last : Nat} {record : Word} {ok : Bool}
    (signed : signature (bootRecord disk record) = brSignature) (used : (logical disk record).length ≠ 0#32)
    (run : readLogical disk namingScheme state j record fuel = some (ok, last, after)) :
    Adds state after fun partition =>
      partition.place = (partitionName namingScheme j, record, (logical disk record).length) := by
  cases fuel with
  | zero => cases run
  | succ fuel =>
    have used' : (descriptor (bootRecord disk record) 0).length ≠ 0#32 := used
    rw [readLogical, if_neg (not_not.mpr signed)] at run
    simp only [if_pos used'] at run
    by_cases linked : (descriptor (bootRecord disk record) 1).length ≠ 0#32
    · rw [if_pos linked] at run
      exact (registerPartition_adds ..).grows (readLogical_grows run)
    · rw [if_neg linked] at run
      cases run
      exact registerPartition_adds ..

/-- A record that describes no partition and has no link changes nothing. -/
theorem readLogical_bare {record : Word} (signed : signature (bootRecord disk record) = brSignature)
    (unused : (logical disk record).length = 0#32) (ends : (link disk record).length = 0#32) (fuel j : Nat) :
    readLogical disk namingScheme state j record (fuel + 1) = some (true, j, state) := by
  have unused' : (descriptor (bootRecord disk record) 0).length = 0#32 := unused
  have ends' : (descriptor (bootRecord disk record) 1).length = 0#32 := ends
  rw [readLogical, if_neg (not_not.mpr signed)]
  simp only [unused', ends', ne_eq, not_true_eq_false, if_false]

end Walk

/-! ## Discovery -/

section Main

variable {disk : Disk} {namingScheme : List Byte} {state after : DiskPart} {chains : Nat → List Word}

/-- No extended boot record describes a partition. -/
def NoLogical (disk : Disk) (chains : Nat → List Word) : Prop :=
  ∀ i < 4, ∀ record ∈ chains i, (logical disk record).length = 0#32

theorem Chain.signed_head {extended record : Word} {records : List Word} (chain : Chain disk extended record records) :
    record ∈ records ∧ signature (bootRecord disk record) = brSignature := by
  cases chain with
  | last signed ends => exact ⟨List.mem_singleton_self _, signed⟩
  | next signed linked fresh rest => exact ⟨List.mem_cons_self, signed⟩

/-- The first partition of a chain has the first record or the second one: both bases of the
links are the same there. -/
theorem Chain.adds {extended : Word} {records : List Word} {fuel j last : Nat} {ok : Bool}
    (chain : Chain disk extended extended records)
    (described : ∀ record ∈ records.tail, (logical disk record).length ≠ 0#32)
    (used : ∃ record ∈ records, (logical disk record).length ≠ 0#32)
    (run : readLogical disk namingScheme state j extended fuel = some (ok, last, after)) :
    Adds state after fun partition => partition.firstSector ∈ records ∧
      (partition.name = partitionName namingScheme j ∨ partition.name = partitionName namingScheme (j + 1)) := by
  by_cases first : (logical disk extended).length = 0#32
  · cases chain with
    | last signed ends =>
      obtain ⟨record, only, used⟩ := used
      rw [List.mem_singleton.mp only] at used
      exact absurd first used
    | @next _ later signed linked fresh rest =>
      cases fuel with
      | zero => cases run
      | succ fuel =>
        have first' : (descriptor (bootRecord disk extended) 0).length = 0#32 := first
        have linked' : (descriptor (bootRecord disk extended) 1).length ≠ 0#32 := linked
        rw [readLogical, if_neg (not_not.mpr signed)] at run
        simp only [first', ne_eq, not_true_eq_false, if_false, linked', not_false_eq_true, if_true] at run
        have head := rest.signed_head
        obtain ⟨added, grown, partition, among, place⟩ := readLogical_adds head.2 (described _ head.1) run
        have known := Partition.place_eq place
        exact ⟨added, grown, partition, among, known.2 ▸ List.mem_cons_of_mem _ head.1, .inr known.1⟩
  · have head := chain.signed_head
    obtain ⟨added, grown, partition, among, place⟩ := readLogical_adds head.2 first run
    have known := Partition.place_eq place
    exact ⟨added, grown, partition, among, known.2 ▸ head.1, .inl known.1⟩

/-- A chain without partitions is one record without a link. -/
theorem Chain.bare {extended : Word} {records : List Word} (chain : Chain disk extended extended records)
    (described : ∀ record ∈ records.tail, (logical disk record).length ≠ 0#32)
    (unused : ∀ record ∈ records, (logical disk record).length = 0#32) (fuel j : Nat) :
    readLogical disk namingScheme state j extended (fuel + 1) = some (true, j, state) := by
  cases chain with
  | last signed ends => exact readLogical_bare signed (unused _ (List.mem_singleton_self _)) ends fuel j
  | next signed linked fresh rest =>
    have head := rest.signed_head.1
    exact absurd (unused _ (List.mem_cons_of_mem _ head)) (described _ head)

theorem readPrimary_grows {fuel j : Nat} {entries : List Nat} {ok : Bool}
    (run : readPrimary disk namingScheme fuel state j entries = some (ok, after)) : Grows state after := by
  induction entries generalizing state j with
  | nil =>
    cases run
    exact .refl _
  | cons i later ih =>
    have entry : Grows state (registerPrimary disk namingScheme state i) := registerPrimary_grows i
    rw [readPrimary] at run
    split at run
    · split at run
      · cases run
      · rename_i walk
        cases run
        exact entry.trans (readLogical_grows walk)
      · rename_i walk
        exact (entry.trans (readLogical_grows walk)).trans (ih run)
    · exact entry.trans (ih run)

/-- The first partition of the first chain that has one is registered under the number 5 or 6, at
a boot record. -/
theorem readPrimary_adds (formed : WellFormed disk chains) {fuel : Nat} {entries : List Nat} {ok : Bool}
    (inside : ∀ i ∈ entries, i < 4)
    (used : ∃ i ∈ entries, ∃ record ∈ chains i, (logical disk record).length ≠ 0#32)
    (run : readPrimary disk namingScheme fuel state 5 entries = some (ok, after)) :
    Adds state after fun partition => (∃ i < 4, partition.firstSector ∈ chains i) ∧
      (partition.name = partitionName namingScheme 5 ∨ partition.name = partitionName namingScheme 6) := by
  induction entries generalizing state with
  | nil => obtain ⟨i, among, _⟩ := used; cases among
  | cons i later ih =>
    have entry : Grows state (registerPrimary disk namingScheme state i) := registerPrimary_grows i
    have inside' : i < 4 := inside i List.mem_cons_self
    have further := fun (bare : ∀ record ∈ chains i, (logical disk record).length = 0#32) =>
      @ih (registerPrimary disk namingScheme state i)
        (fun k among => inside k (List.mem_cons_of_mem _ among)) (by
          obtain ⟨k, among, record, within, used⟩ := used
          rcases List.mem_cons.mp among with rfl | among
          · exact absurd (bare record within) used
          · exact ⟨k, among, record, within, used⟩)
    rw [readPrimary] at run
    by_cases extended : Extended disk i
    · have chain := formed.chain inside' extended
      rw [if_pos extended] at run
      by_cases bare : ∀ record ∈ chains i, (logical disk record).length = 0#32
      · cases fuel with
        | zero => cases run
        | succ fuel =>
          rw [chain.bare (fun _ => formed.described inside') bare fuel 5] at run
          exact entry.adds (further bare run)
      · have some_used : ∃ record ∈ chains i, (logical disk record).length ≠ 0#32 := by
          simpa only [not_forall, exists_prop] using bare
        have found {j last : Nat} {ok : Bool} {state' : DiskPart}
            (walk : readLogical disk namingScheme (registerPrimary disk namingScheme state i) 5
              (primary disk i).firstSectorLBA fuel = some (ok, last, state')) :
            Adds state state' fun partition => (∃ i < 4, partition.firstSector ∈ chains i) ∧
              (partition.name = partitionName namingScheme 5 ∨ partition.name = partitionName namingScheme 6) := by
          obtain ⟨added, grown, partition, among, within, name⟩ :=
            chain.adds (fun _ => formed.described inside') some_used walk
          exact entry.adds ⟨added, grown, partition, among, ⟨i, inside', within⟩, name⟩
        split at run
        · cases run
        · rename_i walk
          cases run
          exact found (j := 5) walk
        · rename_i walk
          exact (found (j := 5) walk).grows (readPrimary_grows run)
    · rw [if_neg extended] at run
      refine entry.adds (further (fun record within => ?_) run)
      rw [formed.absent inside' extended] at within
      cases within

/-- Where no chain has a partition, the entries that are not empty are registered in their order. -/
theorem readPrimary_bare (formed : WellFormed disk chains) (bare : NoLogical disk chains) (fuel : Nat) :
    ∀ (entries : List Nat) (state : DiskPart), (∀ i ∈ entries, i < 4) →
      ∃ after found, readPrimary disk namingScheme (fuel + 1) state 5 entries = some (true, after) ∧
        after.partitions = state.partitions ++ found ∧
        found.map Partition.place = (entries.filter fun i => (primary disk i).length ≠ 0#32).map fun i =>
          (partitionName namingScheme (i + 1), (primary disk i).firstSectorLBA, (primary disk i).length)
  | [], state, _ => ⟨state, [], rfl, by simp, rfl⟩
  | i :: later, state, inside => by
    have inside' : i < 4 := inside i List.mem_cons_self
    obtain ⟨after, found, run, grown, places⟩ := readPrimary_bare formed bare fuel later
      (registerPrimary disk namingScheme state i) fun k among => inside k (List.mem_cons_of_mem _ among)
    have step : readPrimary disk namingScheme (fuel + 1) state 5 (i :: later) =
        readPrimary disk namingScheme (fuel + 1) (registerPrimary disk namingScheme state i) 5 later := by
      rw [readPrimary]
      by_cases extended : Extended disk i
      · rw [if_pos extended, (formed.chain inside' extended).bare (fun _ => formed.described inside')
          (bare i inside') fuel 5]
      · rw [if_neg extended]
    rw [step, run, List.filter_cons]
    by_cases used : (primary disk i).length ≠ 0#32
    · rw [registerPrimary, if_pos used] at grown
      refine ⟨after, ⟨partitionName namingScheme (i + 1), state.nextId, (primary disk i).firstSectorLBA,
        (primary disk i).length⟩ :: found, rfl, ?_, ?_⟩
      · rw [grown, registerPartition, List.append_assoc, List.singleton_append]
      · rw [if_pos (decide_eq_true used), List.map_cons, List.map_cons, places]
        rfl
    · rw [registerPrimary, if_neg used] at grown
      exact ⟨after, found, rfl, grown, by rw [if_neg (by simpa using used), places]⟩

theorem partitionName_ne {m n : Nat} (marked : 35#8 ∈ namingScheme) (ended : 0#8 ∉ namingScheme) (small : m < 256)
    (small' : n < 256) (other : m ≠ n) : partitionName namingScheme m ≠ partitionName namingScheme n := by
  intro same
  have number := partitionName_inj marked ended same
  rw [Nat.mod_eq_of_lt small, Nat.mod_eq_of_lt small'] at number
  exact other number

/-- What the format describes lies at no boot record under the numbers 5 and 6. -/
theorem WellFormed.not_described (formed : WellFormed disk chains) (marked : 35#8 ∈ namingScheme)
    (ended : 0#8 ∉ namingScheme) {i number : Nat} {firstSector length : Word} (inside : i < 4)
    (within : firstSector ∈ chains i) (named : number = 5 ∨ number = 6) :
    (partitionName namingScheme number, firstSector, length) ∉
      (primaryPartitions disk ++ logicalPartitions disk chains).map
        fun (number, place) => (partitionName namingScheme number, place) := by
  intro among
  rw [List.map_append, List.mem_append] at among
  rcases among with among | among
  · rw [primaryPartitions, List.map_map] at among
    obtain ⟨k, entry, same⟩ := List.mem_map.mp among
    have small := List.mem_range.mp (List.mem_filter.mp entry).1
    exact partitionName_ne marked ended (by omega) (by omega) (by omega) (congrArg Prod.fst same)
  · rw [logicalPartitions, List.map_map] at among
    obtain ⟨⟨record, position⟩, entry, same⟩ := List.mem_map.mp among
    obtain ⟨place, _, value⟩ := List.mem_zipIdx entry
    have kept : record ∈ ((List.range 4).flatMap chains).filter
        fun record => (logical disk record).length ≠ 0#32 := value ▸ List.getElem_mem _
    obtain ⟨listed, used⟩ := List.mem_filter.mp kept
    obtain ⟨k, small, listed⟩ := List.mem_flatMap.mp listed
    exact formed.apart (List.mem_range.mp small) inside listed within (of_decide_eq_true used)
      (congrArg (·.2.1) same)

theorem logicalPartitions_bare (bare : NoLogical disk chains) : logicalPartitions disk chains = [] := by
  have empty : ((List.range 4).flatMap chains).filter (fun record => (logical disk record).length ≠ 0#32) = [] := by
    rw [List.filter_eq_nil_iff]
    intro record listed
    obtain ⟨i, small, listed⟩ := List.mem_flatMap.mp listed
    simpa using bare i (List.mem_range.mp small) record listed
  rw [logicalPartitions, empty]
  rfl

theorem Discovered.noLogical (formed : WellFormed disk chains) (marked : 35#8 ∈ namingScheme)
    (ended : 0#8 ∉ namingScheme) {before : DiskPart} (discovered : Discovered disk namingScheme chains before) :
    NoLogical disk chains := by
  obtain ⟨fuel, ok, after, found, run, grown, same, _⟩ := discovered
  rw [createMSDOSPartitionsDevices, if_neg (not_not.mpr formed.signed)] at run
  by_contra used
  have used : ∃ i ∈ List.range 4, ∃ record ∈ chains i, (logical disk record).length ≠ 0#32 := by
    simpa only [NoLogical, not_forall, exists_prop, List.mem_range] using used
  obtain ⟨added, grown', partition, among, ⟨i, inside, within⟩, name⟩ :=
    readPrimary_adds formed (fun i among => List.mem_range.mp among) used run
  rw [grown, List.append_cancel_left_eq] at grown'
  subst grown'
  have described := same.mem_iff.mp (List.mem_map_of_mem among)
  have number : ∃ number, (number = 5 ∨ number = 6) ∧ partition.name = partitionName namingScheme number := by
    rcases name with name | name
    · exact ⟨5, .inl rfl, name⟩
    · exact ⟨6, .inr rfl, name⟩
  obtain ⟨number, named, name⟩ := number
  rw [Partition.place, name] at described
  exact formed.not_described marked ended inside within named described

theorem NoLogical.discovered (formed : WellFormed disk chains) (marked : 35#8 ∈ namingScheme)
    (ended : 0#8 ∉ namingScheme) (before : DiskPart) (bare : NoLogical disk chains) :
    Discovered disk namingScheme chains before := by
  obtain ⟨after, found, run, grown, places⟩ := @readPrimary_bare disk namingScheme chains formed bare 0
    (List.range 4) before fun i among => List.mem_range.mp among
  refine ⟨1, true, after, found, ?_, grown, ?_, ?_⟩
  · rw [createMSDOSPartitionsDevices, if_neg (not_not.mpr formed.signed), run]
  · rw [places, logicalPartitions_bare bare, List.append_nil, primaryPartitions, List.map_map]
    exact .refl _
  · have names : found.map (·.name) = (found.map Partition.place).map Prod.fst := by
      rw [List.map_map]
      rfl
    rw [names, places, List.map_map]
    refine List.Nodup.map_on (fun i entry k entry' same => ?_) (List.nodup_range.filter _)
    have small := List.mem_range.mp (List.mem_filter.mp entry).1
    have small' := List.mem_range.mp (List.mem_filter.mp entry').1
    by_contra other
    exact partitionName_ne marked ended (by omega) (by omega) (by omega) same

/-- The partitions of a disk are discovered as the format describes them if and only if there is
no logical one. -/
theorem discovered_iff (formed : WellFormed disk chains) (marked : 35#8 ∈ namingScheme) (ended : 0#8 ∉ namingScheme)
    (before : DiskPart) : Discovered disk namingScheme chains before ↔ NoLogical disk chains :=
  ⟨Discovered.noLogical formed marked ended, NoLogical.discovered formed marked ended before⟩

end Main

/-! ## A disk with one logical partition, and without it -/

/-- A primary partition, and an extended one from sector 2048 on with one record. -/
def sampleDisk (logical : List (Nat × Byte)) : Disk := fun address =>
  (([(450, 0x83#8), (454, 63#8), (458, 100#8), (466, 5#8), (471, 8#8), (475, 16#8), (510, 0x55#8), (511, 0xaa#8),
    (2048 * 512 + 510, 0x55#8), (2048 * 512 + 511, 0xaa#8)] ++ logical).lookup address).getD 0#8

def sampleChains (i : Nat) : List Word := if i = 1 then [2048#32] else []

/-- Two hundred sectors, 63 behind the record. -/
def sampleLogical : List (Nat × Byte) := [(2048 * 512 + 454, 63#8), (2048 * 512 + 458, 200#8)]

theorem sampleChains_mem {i : Nat} {record : Word} (within : record ∈ sampleChains i) :
    i = 1 ∧ record = 2048#32 := by
  rw [sampleChains] at within
  split at within
  · exact ⟨‹i = 1›, List.mem_singleton.mp within⟩
  · cases within

theorem sampleDisk_wellFormed {bytes : List (Nat × Byte)}
    (signed : signature (bootRecord (sampleDisk bytes) 0#32) = brSignature)
    (extended : ∀ i < 4, Extended (sampleDisk bytes) i ↔ i = 1)
    (start : (primary (sampleDisk bytes) 1).firstSectorLBA = 2048#32)
    (signed' : signature (bootRecord (sampleDisk bytes) 2048#32) = brSignature)
    (ends : (link (sampleDisk bytes) 2048#32).length = 0#32)
    (apart : (logical (sampleDisk bytes) 2048#32).length ≠ 0#32 →
      2048#32 + (logical (sampleDisk bytes) 2048#32).firstSectorLBA ≠ 2048#32) :
    WellFormed (sampleDisk bytes) sampleChains where
  signed := signed
  chain := by
    intro i inside entry
    have only := (extended i inside).mp entry
    subst only
    rw [start]
    exact .last signed' ends
  absent := by
    intro i inside simple
    exact if_neg fun only => simple ((extended i inside).mpr only)
  described := by
    intro i record inside later
    rw [sampleChains] at later
    split at later <;> cases later
  apart := by
    intro i k record other inside inside' within within' used
    obtain ⟨rfl, rfl⟩ := sampleChains_mem within
    obtain ⟨rfl, rfl⟩ := sampleChains_mem within'
    exact apart used

/-- Without a logical partition the disk is discovered. -/
theorem discovered_sampleDisk : WellFormed (sampleDisk []) sampleChains ∧
    Discovered (sampleDisk []) [112#8, 35#8] sampleChains ⟨[], 0#32⟩ := by
  have formed : WellFormed (sampleDisk []) sampleChains :=
    sampleDisk_wellFormed (by decide) (by decide) (by decide) (by decide) (by decide) (by decide)
  refine ⟨formed, (discovered_iff formed (by decide) (by decide) _).mpr ?_⟩
  intro i inside record within
  obtain ⟨rfl, rfl⟩ := sampleChains_mem within
  decide

/-- The logical partition is registered at its boot record, 63 sectors before its first sector. -/
theorem not_discovered : WellFormed (sampleDisk sampleLogical) sampleChains ∧
    ¬ Discovered (sampleDisk sampleLogical) [112#8, 35#8] sampleChains ⟨[], 0#32⟩ := by
  have formed : WellFormed (sampleDisk sampleLogical) sampleChains :=
    sampleDisk_wellFormed (by decide) (by decide) (by decide) (by decide) (by decide) (by decide)
  refine ⟨formed, fun discovered => ?_⟩
  have bare := discovered.noLogical formed (by decide) (by decide) 1 (by decide) 2048#32 (List.mem_singleton_self _)
  exact absurd bare (by decide)

example : (createMSDOSPartitionsDevices (sampleDisk sampleLogical) [112#8, 35#8] 1 ⟨[], 0#32⟩).map
      (·.2.partitions.map Partition.place) =
    some [([112#8, 49#8], 63#32, 100#32), ([112#8, 50#8], 2048#32, 4096#32), ([112#8, 53#8], 2048#32, 200#32)] := by
  decide

end DiskPart
end FluxOS
