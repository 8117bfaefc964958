import FluxOS.Partitions

/-! `DiskPart`: the devices registered for the entries of a GUID partition table, and the partitions that the
table describes. -/
namespace FluxOS.DiskPart
open Words UserMemoryOps

/-- The 64-bit word at an offset. -/
def le64 (block : Block) (offset : Nat) : BitVec 64 :=
  BlockDevice.le32 block (offset + 4) ++ BlockDevice.le32 block offset

/-- The fields of the header that are looked at. -/
structure GPTHeader where
  signature : List Byte
  partitionsLBA : BitVec 64
  partitionsNumber : Word
  partitionEntrySize : Word

structure GPTEntry where
  partitionType : List Byte
  firstLBA : BitVec 64
  lastLBA : BitVec 64

/-- `"EFI PART"`. -/
def gptSignature : List Byte := [69#8, 70#8, 73#8, 32#8, 80#8, 65#8, 82#8, 84#8]

def gptHeader (disk : Disk) : GPTHeader where
  signature := (List.range 8).map (bootRecord disk 1#32)
  partitionsLBA := le64 (bootRecord disk 1#32) 72
  partitionsNumber := BlockDevice.le32 (bootRecord disk 1#32) 80
  partitionEntrySize := BlockDevice.le32 (bootRecord disk 1#32) 84

def gptEntry (block : Block) (offset : Nat) : GPTEntry where
  partitionType := (List.range 16).map fun i => block (offset + i)
  firstLBA := le64 block (offset + 32)
  lastLBA := le64 block (offset + 40)

/-- A call of `RegisterPartition`. -/
structure Registration where
  partitionNum : Nat
  partitionStart : Word
  partitionLength : Word

section Discovery

variable (disk : Disk) (namingScheme : List Byte)

/-- `entries[i]` of the sector that was read. A block number is an `int`. -/
def entryRead (lbaOffset i : Nat) : GPTEntry :=
  gptEntry (bootRecord disk (((gptHeader disk).partitionsLBA + BitVec.ofNat 64 lbaOffset).setWidth 32)) (128 * i)

/-- One round of the inner loop. -/
def registerEntry (lbaOffset i : Nat) : Option Registration :=
  let entry := entryRead disk lbaOffset i
  if entry.firstLBA ≠ 0#64 then
    some ⟨lbaOffset * 4 + i + 1, entry.firstLBA.setWidth 32, (entry.lastLBA - entry.firstLBA).setWidth 32⟩
  else none

/-- The calls of `RegisterPartition` in their order. -/
def gptRegistrations : List Registration :=
  (List.range ((gptHeader disk).partitionsNumber.toNat / 4)).flatMap fun lbaOffset =>
    (List.range 4).filterMap (registerEntry disk lbaOffset)

def createGPTPartitionsDevices (state : DiskPart) : Bool × DiskPart :=
  if (gptHeader disk).signature ≠ gptSignature ∨ (gptHeader disk).partitionEntrySize ≠ 128#32 then (false, state)
  else (true, (gptRegistrations disk).foldl
    (fun state call => registerPartition namingScheme state call.partitionNum call.partitionStart call.partitionLength)
    state)

end Discovery

/-! ## What the table describes -/

section Format

variable (disk : Disk)

/-- The entry with this index, at the place that the header gives for the table. -/
def tableEntry (index : Nat) : GPTEntry :=
  gptEntry (fun i => disk (BlockDevice.sectorSize * (gptHeader disk).partitionsLBA.toNat + i)) (128 * index)

/-- An entry is in use if it has a type. -/
def GPTEntry.Used (entry : GPTEntry) : Prop := entry.partitionType ≠ List.replicate 16 0#8

instance (entry : GPTEntry) : Decidable entry.Used := inferInstanceAs (Decidable (_ ≠ _))

/-- The table lies in the sectors that a block device has, which have numbers of 32 bits. -/
structure ValidGPT : Prop where
  signed : (gptHeader disk).signature = gptSignature
  entrySize : (gptHeader disk).partitionEntrySize = 128#32
  onDisk : (gptHeader disk).partitionsLBA.toNat + ((gptHeader disk).partitionsNumber.toNat + 3) / 4 ≤ 2 ^ 32

/-- The number, first sector and length of every used entry. The last sector is part of a partition. -/
def gptPartitions : List (Nat × Int × Int) :=
  ((List.range (gptHeader disk).partitionsNumber.toNat).filter fun index => (tableEntry disk index).Used).map
    fun index => (index + 1, (tableEntry disk index).firstLBA.toNat,
      (tableEntry disk index).lastLBA.toNat - (tableEntry disk index).firstLBA.toNat + 1)

/-- The table has nothing to discover: no entry is in use, and none of those in sectors with four entries has a
first sector. -/
structure Vacant : Prop where
  unused : ∀ index < (gptHeader disk).partitionsNumber.toNat, ¬(tableEntry disk index).Used
  cleared : ∀ index < 4 * ((gptHeader disk).partitionsNumber.toNat / 4), (tableEntry disk index).firstLBA = 0#64

end Format

def Registration.described (call : Registration) : Nat × Int × Int :=
  (call.partitionNum, call.partitionStart.toNat, call.partitionLength.toNat)

/-- How a call's partition is known once it is registered. -/
def Registration.place (namingScheme : List Byte) (call : Registration) : List Byte × Word × Word :=
  (partitionName namingScheme call.partitionNum, call.partitionStart, call.partitionLength)

/-- What is registered is what the table describes, each partition under a name of its own. -/
def GPTDiscovered (disk : Disk) (namingScheme : List Byte) (before : DiskPart) : Prop :=
  ∃ after found, createGPTPartitionsDevices disk namingScheme before = (true, after) ∧
    after.partitions = before.partitions ++ found ∧
    found.map Partition.place = (gptRegistrations disk).map (·.place namingScheme) ∧
    List.Perm ((gptRegistrations disk).map Registration.described) (gptPartitions disk) ∧ (found.map (·.name)).Nodup

/-! ## What is registered -/

section Registrations

variable {disk : Disk} {namingScheme : List Byte}

theorem foldl_registerPartition (calls : List Registration) (state : DiskPart) :
    ∃ found, (calls.foldl (fun state call => registerPartition namingScheme state call.partitionNum
        call.partitionStart call.partitionLength) state).partitions = state.partitions ++ found ∧
      found.map Partition.place = calls.map (·.place namingScheme) := by
  induction calls generalizing state with
  | nil => exact ⟨[], (List.append_nil _).symm, rfl⟩
  | cons call later ih =>
    obtain ⟨found, grown, places⟩ := ih
      (registerPartition namingScheme state call.partitionNum call.partitionStart call.partitionLength)
    refine ⟨⟨partitionName namingScheme call.partitionNum, state.nextId, call.partitionStart,
      call.partitionLength⟩ :: found, ?_, ?_⟩
    · rw [List.foldl_cons, grown, registerPartition, List.append_assoc, List.singleton_append]
    · rw [List.map_cons, List.map_cons, places]
      rfl

/-- Every call adds its partition. -/
theorem ValidGPT.registers (valid : ValidGPT disk) (namingScheme : List Byte) (before : DiskPart) :
    ∃ after found, createGPTPartitionsDevices disk namingScheme before = (true, after) ∧
      after.partitions = before.partitions ++ found ∧
      found.map Partition.place = (gptRegistrations disk).map (·.place namingScheme) := by
  have accepted : ¬((gptHeader disk).signature ≠ gptSignature ∨ (gptHeader disk).partitionEntrySize ≠ 128#32) := by
    rintro (unsigned | unsized)
    · exact unsigned valid.signed
    · exact unsized valid.entrySize
  obtain ⟨found, grown, places⟩ := foldl_registerPartition (gptRegistrations disk) before
  exact ⟨_, found, if_neg accepted, grown, places⟩

theorem le64_shift (block : Block) (start offset : Nat) :
    le64 block (start + offset) = le64 (fun i => block (start + i)) offset := by
  simp only [le64, BlockDevice.le32, BlockDevice.le16, Nat.add_assoc]

theorem le64_congr {block : Block} (other : Block) {offset : Nat}
    (same : ∀ i < 8, block (offset + i) = other (offset + i)) : le64 block offset = le64 other offset := by
  have high := BlockDevice.le32_congr other fun i (small : i < 4) =>
    (congrArg block (Nat.add_assoc offset 4 i)).trans
      ((same (4 + i) (by omega)).trans (congrArg other (Nat.add_assoc offset 4 i).symm))
  have low := BlockDevice.le32_congr other fun i (small : i < 4) => same i (by omega)
  rw [le64, le64, high, low]

/-- An entry is told by its bytes. -/
theorem gptEntry_congr {block other : Block} {offset offset' : Nat}
    (same : ∀ i < 128, block (offset + i) = other (offset' + i)) : gptEntry block offset = gptEntry other offset' := by
  have word {position : Nat} (within : position + 8 ≤ 128) :
      le64 block (offset + position) = le64 other (offset' + position) := by
    rw [le64_shift block, le64_shift other]
    exact le64_congr _ fun i small => same (position + i) (by omega)
  have type : (List.range 16).map (fun i => block (offset + i)) = (List.range 16).map fun i => other (offset' + i) :=
    List.map_congr_left fun i among => same i (by have := List.mem_range.mp among; omega)
  rw [gptEntry, gptEntry, type, word (by omega), word (by omega)]

/-- The sectors that are read are those of the table. -/
theorem ValidGPT.entryRead (valid : ValidGPT disk) {lbaOffset i : Nat}
    (listed : lbaOffset < (gptHeader disk).partitionsNumber.toNat / 4) (inside : i < 4) :
    entryRead disk lbaOffset i = tableEntry disk (lbaOffset * 4 + i) := by
  have onDisk := valid.onDisk
  have sector : (((gptHeader disk).partitionsLBA + BitVec.ofNat 64 lbaOffset).setWidth 32).toNat =
      (gptHeader disk).partitionsLBA.toNat + lbaOffset := by
    rw [BitVec.toNat_setWidth, BitVec.toNat_add, BitVec.toNat_ofNat]
    omega
  refine gptEntry_congr fun k within => ?_
  have whole : 128 * i + k < BlockDevice.sectorSize * (1#32).toNat := by
    change 128 * i + k < 512
    omega
  rw [bootRecord, BlockDevice.readBlock, if_pos whole, sector]
  congr 1
  rw [BlockDevice.sectorSize]
  omega

/-- The call for an entry of the table. -/
def registration (disk : Disk) (index : Nat) : Registration where
  partitionNum := index + 1
  partitionStart := (tableEntry disk index).firstLBA.setWidth 32
  partitionLength := ((tableEntry disk index).lastLBA - (tableEntry disk index).firstLBA).setWidth 32

/-- The calls are for the entries that have a first sector, up to the last index that is divisible by four. -/
theorem ValidGPT.mem_registrations (valid : ValidGPT disk) {call : Registration} : call ∈ gptRegistrations disk ↔
    ∃ index < 4 * ((gptHeader disk).partitionsNumber.toNat / 4), (tableEntry disk index).firstLBA ≠ 0#64 ∧
      call = registration disk index := by
  simp only [gptRegistrations, List.mem_flatMap, List.mem_filterMap, List.mem_range]
  constructor
  · rintro ⟨lbaOffset, listed, i, inside, called⟩
    rw [registerEntry, valid.entryRead listed inside] at called
    by_cases present : (tableEntry disk (lbaOffset * 4 + i)).firstLBA ≠ 0#64
    · rw [if_pos present] at called
      exact ⟨lbaOffset * 4 + i, by omega, present, (Option.some.inj called).symm⟩
    · rw [if_neg present] at called
      cases called
  · rintro ⟨index, listed, present, rfl⟩
    have split : index / 4 * 4 + index % 4 = index := by omega
    have within : index / 4 < (gptHeader disk).partitionsNumber.toNat / 4 := by omega
    have inside : index % 4 < 4 := Nat.mod_lt index (by decide)
    refine ⟨index / 4, within, index % 4, inside, ?_⟩
    rw [registerEntry, valid.entryRead within inside, split]
    exact if_pos present

/-- The registered length lacks the last sector. -/
theorem registration_length (index : Nat) : ((registration disk index).partitionLength.toNat : Int) ≠
    (tableEntry disk index).lastLBA.toNat - (tableEntry disk index).firstLBA.toNat + 1 := by
  rw [registration, BitVec.toNat_setWidth, BitVec.toNat_sub]
  omega

theorem registration_not_described {index : Nat} :
    (registration disk index).described ∉ gptPartitions disk := by
  intro among
  obtain ⟨other, _, same⟩ := List.mem_map.mp among
  have number : other = index := Nat.succ.inj (congrArg Prod.fst same)
  subst number
  exact registration_length other (congrArg (·.2.2) same).symm

theorem GPTDiscovered.vacant (valid : ValidGPT disk) {before : DiskPart}
    (discovered : GPTDiscovered disk namingScheme before) : Vacant disk := by
  obtain ⟨after, found, _, _, _, same, _⟩ := discovered
  have none_called (call : Registration) : call ∉ gptRegistrations disk := by
    intro among
    obtain ⟨index, _, _, rfl⟩ := valid.mem_registrations.mp among
    exact registration_not_described (same.mem_iff.mp (List.mem_map_of_mem among))
  rw [List.eq_nil_iff_forall_not_mem.mpr none_called] at same
  have nothing : gptPartitions disk = [] := List.nil_perm.mp same
  constructor
  · intro index listed used
    have kept : index ∈ (List.range (gptHeader disk).partitionsNumber.toNat).filter
        fun index => (tableEntry disk index).Used :=
      List.mem_filter.mpr ⟨List.mem_range.mpr listed, decide_eq_true used⟩
    rw [List.map_eq_nil_iff.mp nothing] at kept
    cases kept
  · intro index listed
    by_contra present
    exact none_called _ (valid.mem_registrations.mpr ⟨index, listed, present, rfl⟩)

theorem Vacant.discovered (valid : ValidGPT disk) (vacant : Vacant disk) (before : DiskPart) :
    GPTDiscovered disk namingScheme before := by
  have none_called : gptRegistrations disk = [] := by
    refine List.eq_nil_iff_forall_not_mem.mpr fun call among => ?_
    obtain ⟨index, listed, present, _⟩ := valid.mem_registrations.mp among
    exact present (vacant.cleared index listed)
  have nothing : gptPartitions disk = [] := by
    rw [gptPartitions, List.map_eq_nil_iff, List.filter_eq_nil_iff]
    exact fun index among => by simpa using vacant.unused index (List.mem_range.mp among)
  obtain ⟨after, found, run, grown, places⟩ := valid.registers namingScheme before
  have places' : found.map Partition.place = [] := by rw [places, none_called, List.map_nil]
  refine ⟨after, found, run, grown, places, ?_, ?_⟩
  · rw [none_called, nothing]
    exact .refl _
  · rw [List.map_eq_nil_iff.mp places']
    exact List.nodup_nil

/-- A table is discovered as it is if and only if it has nothing to discover. -/
theorem gptDiscovered_iff (valid : ValidGPT disk) (namingScheme : List Byte) (before : DiskPart) :
    GPTDiscovered disk namingScheme before ↔ Vacant disk :=
  ⟨GPTDiscovered.vacant valid, fun vacant => vacant.discovered valid before⟩

end Registrations

/-! ## A table of five entries -/

/-- A header for five entries in the sectors from the third one on, and the entries. -/
def sampleTable (entries : List (Nat × Byte)) : Disk := fun address =>
  (([(512, 69#8), (513, 70#8), (514, 73#8), (515, 32#8), (516, 80#8), (517, 65#8), (518, 82#8), (519, 84#8),
    (584, 2#8), (592, 5#8), (596, 128#8)] ++ entries).lookup address).getD 0#8

/-- Entry 0 is in use, from sector 34 to sector 133. -/
def sampleEntry : List (Nat × Byte) := [(1024, 0xaf#8), (1056, 34#8), (1064, 133#8)]

/-- Without an entry in use the table is discovered. -/
theorem gptDiscovered_empty : ValidGPT (sampleTable []) ∧
    GPTDiscovered (sampleTable []) [112#8, 35#8] ⟨[], 0#32⟩ := by
  have valid : ValidGPT (sampleTable []) := ⟨by decide, by decide, by decide⟩
  exact ⟨valid, (gptDiscovered_iff valid _ _).mpr ⟨by decide, by decide⟩⟩

/-- The hundred sectors of entry 0 are registered as 99. -/
theorem last_sector_lost : ValidGPT (sampleTable sampleEntry) ∧
    gptPartitions (sampleTable sampleEntry) = [(1, 34, 100)] ∧
    (gptRegistrations (sampleTable sampleEntry)).map Registration.described = [(1, 34, 99)] ∧
    ¬GPTDiscovered (sampleTable sampleEntry) [112#8, 35#8] ⟨[], 0#32⟩ := by
  have valid : ValidGPT (sampleTable sampleEntry) := ⟨by decide, by decide, by decide⟩
  refine ⟨valid, by decide, by decide, fun discovered => ?_⟩
  exact absurd (by decide) ((discovered.vacant valid).unused 0 (by decide))

end FluxOS.DiskPart
