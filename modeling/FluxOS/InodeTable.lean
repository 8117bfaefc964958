import Mathlib.Tactic.IntervalCases
import FluxOS.Ext2

/-! Where an ext2 file system has its inodes, and where the code looks for them: its
group descriptors are in the sector 4, its inodes 128 bytes long. -/
namespace FluxOS.Ext2
open Words UserMemoryOps BlockDevice

section Layout

variable (disk : Disk) (sblock : Ext2SuperBlock)

/-- `1024 << s_log_block_size`. -/
def fsBlockSize : Nat := 1024 * 2 ^ sblock.sLogBlockSize.toNat

/-- The group descriptors begin with the block behind that of the superblock. -/
def firstDescriptor : Nat := (1024 / fsBlockSize sblock + 1) * fsBlockSize sblock

def inodesPerGroup : Nat := sblock.sInodesPerGroup.toNat

def inodeSize : Nat := sblock.sInodeSize.toNat

def groupOf (id : Word) : Nat := (id.toNat - 1) / inodesPerGroup sblock

def indexOf (id : Word) : Nat := (id.toNat - 1) % inodesPerGroup sblock

def tableStart (group : Nat) : Nat :=
  (le32 disk (firstDescriptor sblock + (groupDescBytes * group + bgInodeTable))).toNat * fsBlockSize sblock

def tableSize : Nat := inodesPerGroup sblock * inodeSize sblock

def inodeAddress (id : Word) : Nat := tableStart disk sblock (groupOf sblock id) + indexOf sblock id * inodeSize sblock

/-- The inode at its place in the table of its group. -/
def inodeOnDisk (id : Word) : Ext2Inode := fun i => disk (inodeAddress disk sblock id + i)

/-- A device with that superblock and so many block groups: the tables lie behind the descriptors,
apart from each other, in sectors that can be addressed. -/
structure WellFormed (groups : Nat) : Prop where
  superBlock : readSuperBlock (fun i => disk (1024 + i)) = sblock
  behind : ∀ group < groups, firstDescriptor sblock + groupDescBytes * groups ≤ tableStart disk sblock group
  apart : ∀ group < groups, ∀ other < groups, group ≠ other →
    tableStart disk sblock group + tableSize sblock ≤ tableStart disk sblock other ∨
      tableStart disk sblock other + tableSize sblock ≤ tableStart disk sblock group
  onDevice : ∀ group < groups, tableStart disk sblock group + tableSize sblock ≤ sectorSize * 2 ^ 32

/-- A superblock that `Mount` takes, with inodes of at least 128 bytes. -/
structure Geometry : Prop where
  magic : sblock.sMagic = ext2Magic
  inodes : 0 < inodesPerGroup sblock
  size : 128 ≤ inodeSize sblock

variable (heap : DirtyHeap) (request : Nat)

/-- `readInode` gives the inode of that number. -/
def ReadsRight (id : Word) : Prop :=
  readInode disk heap (privdataOf sblock) request id = some (some (inodeOnDisk disk sblock id))

/-- After `writeINode` of one inode, reading any inode gives that one or what it was before. -/
def WritesRight (id other : Word) : Prop :=
  ∀ inode, ∃ disk', writeINode disk heap (privdataOf sblock) request id inode = some disk' ∧
    readInode disk' heap (privdataOf sblock) (request + 2) other =
      some (some (if other = id then inode else inodeOnDisk disk sblock other))

end Layout

/-- The bytes of a table that are read: whole sectors, of a size computed modulo `2 ^ 32`. -/
def bytesRead (sblock : Ext2SuperBlock) : Nat := sectorSize * (tableSize sblock % 2 ^ 32 / 512)

/-- The code finds the inode: blocks of 1024 or 2048 bytes have their descriptors in the sector 4, which
holds 16 of them; it takes inodes to be 128 bytes long; and it reads the inode with the table. -/
def Found (sblock : Ext2SuperBlock) (id : Word) : Prop :=
  sblock.sLogBlockSize.toNat ≤ 1 ∧ groupOf sblock id < 16 ∧ (inodeSize sblock = 128 ∨ indexOf sblock id = 0) ∧
    inodeBytes * indexOf sblock id + inodeBytes ≤ bytesRead sblock

instance (sblock : Ext2SuperBlock) (id : Word) : Decidable (Found sblock id) := inferInstanceAs (Decidable (_ ∧ _))

/-- Both inodes can be read, and writing the one changes it and not the other, whatever the device
and the memory hold. -/
def TableExact (sblock : Ext2SuperBlock) (groups : Nat) (id other : Word) : Prop :=
  ∀ disk heap request, WellFormed disk sblock groups → (∀ n, heap.grants n = true) →
    ReadsRight disk sblock heap request id ∧ ReadsRight disk sblock heap request other ∧
      WritesRight disk sblock heap request id other

section Numbers

variable {disk : Disk} {sblock : Ext2SuperBlock} {groups : Nat} {id : Word}

theorem toNat_inodeGroup (positive : id ≠ 0#32) : (inodeGroup (privdataOf sblock) id).toNat = groupOf sblock id := by
  have some := toNat_pos positive
  have bound := id.isLt
  simp only [inodeGroup, privdataOf, BitVec.toNat_udiv, groupOf, inodesPerGroup]
  congr 1
  rw [BitVec.toNat_sub]
  simp
  omega

theorem toNat_inodeIndex (positive : id ≠ 0#32) : (inodeIndex (privdataOf sblock) id).toNat = indexOf sblock id := by
  have some := toNat_pos positive
  have bound := id.isLt
  simp only [inodeIndex, privdataOf, BitVec.toNat_umod, indexOf, inodesPerGroup]
  congr 1
  rw [BitVec.toNat_sub]
  simp
  omega

/-- The sectors that are read. -/
theorem toNat_tableSectors (sblock : Ext2SuperBlock) :
    sectorSize * (tableBytes (privdataOf sblock) / 512#32).toNat = bytesRead sblock := by
  have size : (sblock.sInodeSize.setWidth 32).toNat = sblock.sInodeSize.toNat := by
    have bound := sblock.sInodeSize.isLt
    simp
    omega
  simp only [BitVec.toNat_udiv, tableBytes, privdataOf, BitVec.toNat_mul, size, bytesRead, tableSize]
  rfl

/-- The byte of the table that is read is within the sectors, or whatever the memory held. -/
theorem inodeTable_apply (disk : Disk) (heap : DirtyHeap) (request : Nat) (sector : Word) (i : Nat) :
    inodeTable disk heap (privdataOf sblock) request sector i =
      if i < bytesRead sblock then disk (sectorSize * sector.toNat + i)
      else heap.holds request i := by
  simp only [inodeTable, readBlock, toNat_tableSectors]

theorem readInode_granted (heap : DirtyHeap) (granted : ∀ n, heap.grants n = true) (request : Nat) (positive : id ≠ 0#32) :
    readInode disk heap (privdataOf sblock) request id = some (some fun i : Fin 128 =>
      inodeTable disk heap (privdataOf sblock) (request + 1)
        (tableSector disk heap (privdataOf sblock) request (inodeGroup (privdataOf sblock) id))
        (inodeBytes * indexOf sblock id + i)) := by
  simp [readInode, granted, toNat_inodeIndex positive]

/-- What the sector 4 holds, and what lies in memory behind it. -/
theorem tableSector_eq (disk : Disk) (heap : DirtyHeap) (request : Nat) (positive : id ≠ 0#32) :
    tableSector disk heap (privdataOf sblock) request (inodeGroup (privdataOf sblock) id) =
      le32 (readBlock disk 4#32 1#32 (heap.holds request)) (groupDescBytes * groupOf sblock id + bgInodeTable) *
        (privdataOf sblock).diskBlocksPerFSBlock := by
  simp only [tableSector, toNat_inodeGroup positive]

/-- Where the code has the inode in the table it reads. -/
def codeOffset (sblock : Ext2SuperBlock) (id : Word) : Nat := inodeBytes * (inodeIndex (privdataOf sblock) id).toNat

/-- Where it has the inode on the device, with its requests for memory from that number on. -/
def codeAddress (disk : Disk) (heap : DirtyHeap) (sblock : Ext2SuperBlock) (request : Nat) (id : Word) : Nat :=
  sectorSize * (tableSector disk heap (privdataOf sblock) request (inodeGroup (privdataOf sblock) id)).toNat +
    codeOffset sblock id

theorem codeOffset_eq (positive : id ≠ 0#32) : codeOffset sblock id = inodeBytes * indexOf sblock id := by
  rw [codeOffset, toNat_inodeIndex positive]

/-- `readInode` takes what is there, if the table is read so far. -/
theorem readInode_at (heap : DirtyHeap) (granted : ∀ n, heap.grants n = true) (request : Nat)
    (within : codeOffset sblock id + inodeBytes ≤ bytesRead sblock) :
    readInode disk heap (privdataOf sblock) request id =
      some (some fun i : Fin 128 => disk (codeAddress disk heap sblock request id + i)) := by
  simp only [readInode, granted, and_self, if_true, Option.some.injEq]
  funext i
  have bound := i.isLt
  change inodeTable _ _ _ _ _ (codeOffset sblock id + i) = _
  rw [inodeTable_apply, if_pos (by unfold inodeBytes at within; omega), codeAddress, Nat.add_assoc]

/-- The descriptors of the first 16 groups are read from the sector 4. -/
theorem descriptor_in_sector (disk : Disk) (memory : Block) {group : Nat} (few : group < 16) :
    le32 (readBlock disk 4#32 1#32 memory) (groupDescBytes * group + bgInodeTable) =
      le32 disk (2048 + (groupDescBytes * group + bgInodeTable)) := by
  refine (le32_congr (fun i => disk (2048 + i)) fun i bound => ?_).trans ?_
  · unfold readBlock groupDescBytes bgInodeTable sectorSize
    exact if_pos (by simp; omega)
  · simp only [le32, le16, Nat.add_assoc]

/-- With small blocks, the descriptors do begin in the sector 4. -/
theorem firstDescriptor_small (small : sblock.sLogBlockSize.toNat ≤ 1) : firstDescriptor sblock = 2048 := by
  unfold firstDescriptor fsBlockSize
  interval_cases sblock.sLogBlockSize.toNat <;> rfl

theorem diskBlocksPerFSBlock_small (small : sblock.sLogBlockSize.toNat ≤ 1) :
    sectorSize * (privdataOf sblock).diskBlocksPerFSBlock.toNat = fsBlockSize sblock ∧
      (privdataOf sblock).diskBlocksPerFSBlock.toNat ≤ 4 := by
  have log : sblock.sLogBlockSize = 0#32 ∨ sblock.sLogBlockSize = 1#32 := by
    rcases Nat.le_one_iff_eq_zero_or_eq_one.mp small with zero | one
    · exact .inl (BitVec.eq_of_toNat_eq zero)
    · exact .inr (BitVec.eq_of_toNat_eq one)
  rcases log with log | log <;> simp [privdataOf, fsBlockSize, log, sectorSize]

theorem firstDescriptor_ge (sblock : Ext2SuperBlock) : 2048 ≤ firstDescriptor sblock := by
  by_cases small : sblock.sLogBlockSize.toNat ≤ 1
  · exact (firstDescriptor_small small).ge
  · have power : 2 ^ 2 ≤ 2 ^ sblock.sLogBlockSize.toNat := Nat.pow_le_pow_right (by decide) (by omega)
    have large : fsBlockSize sblock ≤ firstDescriptor sblock := Nat.le_mul_of_pos_left _ (Nat.succ_pos _)
    unfold fsBlockSize at large
    omega

/-- Blocks of 4096 bytes and more have the descriptors behind the sector 4. -/
theorem firstDescriptor_large (large : 2 ≤ sblock.sLogBlockSize.toNat) : 4096 ≤ firstDescriptor sblock := by
  have power : 2 ^ 2 ≤ 2 ^ sblock.sLogBlockSize.toNat := Nat.pow_le_pow_right (by decide) large
  have far : fsBlockSize sblock ≤ firstDescriptor sblock := Nat.le_mul_of_pos_left _ (Nat.succ_pos _)
  unfold fsBlockSize at far
  omega

theorem indexOf_lt (geometry : Geometry sblock) (id : Word) : indexOf sblock id < inodesPerGroup sblock :=
  Nat.mod_lt _ geometry.inodes

/-- An inode lies within its table. -/
theorem inodeAddress_le (geometry : Geometry sblock) (disk : Disk) (id : Word) :
    inodeAddress disk sblock id + 128 ≤ tableStart disk sblock (groupOf sblock id) + tableSize sblock := by
  have index : indexOf sblock id + 1 ≤ inodesPerGroup sblock := indexOf_lt geometry id
  have product : (indexOf sblock id + 1) * inodeSize sblock ≤ tableSize sblock := Nat.mul_le_mul_right _ index
  have size := geometry.size
  unfold inodeAddress
  rw [Nat.add_mul] at product
  omega

end Numbers

section Finding

variable {disk : Disk} {sblock : Ext2SuperBlock} {groups : Nat} {id other : Word} {heap : DirtyHeap}

/-- The table that is looked into is that of the group, if its descriptor is in the sector 4. -/
theorem sector_of_small (heap : DirtyHeap) (wellFormed : WellFormed disk sblock groups) (geometry : Geometry sblock)
    (positive : id ≠ 0#32) (present : groupOf sblock id < groups) (small : sblock.sLogBlockSize.toNat ≤ 1)
    (few : groupOf sblock id < 16) (request : Nat) :
    sectorSize * (tableSector disk heap (privdataOf sblock) request (inodeGroup (privdataOf sblock) id)).toNat =
      tableStart disk sblock (groupOf sblock id) := by
  obtain ⟨blocks, _⟩ := diskBlocksPerFSBlock_small small
  have onDevice := wellFormed.onDevice _ present
  have start : tableStart disk sblock (groupOf sblock id) = sectorSize *
      ((le32 disk (2048 + (groupDescBytes * groupOf sblock id + bgInodeTable))).toNat *
        (privdataOf sblock).diskBlocksPerFSBlock.toNat) := by
    rw [tableStart, firstDescriptor_small small, ← blocks]
    exact Nat.mul_left_comm _ _ _
  have positiveSize : 0 < tableSize sblock := Nat.mul_pos geometry.inodes (by have size := geometry.size; omega)
  rw [tableSector_eq disk heap request positive, descriptor_in_sector disk _ few, BitVec.toNat_mul, start,
    Nat.mod_eq_of_lt]
  rw [start] at onDevice
  unfold sectorSize at onDevice
  omega

/-- The place of an inode that is found. -/
theorem inodeAddress_of_found (found : Found sblock id) :
    inodeAddress disk sblock id = tableStart disk sblock (groupOf sblock id) + inodeBytes * indexOf sblock id := by
  obtain ⟨_, _, stride | first, _⟩ := found
  · rw [inodeAddress, stride, inodeBytes, Nat.mul_comm]
  · simp [inodeAddress, first]

/-- There the code has it. -/
theorem codeAddress_of_found (wellFormed : WellFormed disk sblock groups) (geometry : Geometry sblock)
    (positive : id ≠ 0#32) (present : groupOf sblock id < groups) (found : Found sblock id) (request : Nat) :
    codeAddress disk heap sblock request id = inodeAddress disk sblock id := by
  rw [codeAddress, sector_of_small heap wellFormed geometry positive present found.1 found.2.1 request,
    codeOffset_eq positive, inodeAddress_of_found found]

theorem readsRight_of_found (wellFormed : WellFormed disk sblock groups) (geometry : Geometry sblock)
    (granted : ∀ n, heap.grants n = true) (positive : id ≠ 0#32) (present : groupOf sblock id < groups)
    (found : Found sblock id) (request : Nat) : ReadsRight disk sblock heap request id := by
  rw [ReadsRight, readInode_at heap granted request (by rw [codeOffset_eq positive]; exact found.2.2.2),
    codeAddress_of_found wellFormed geometry positive present found request]
  rfl

end Finding

section Changing

variable {disk disk' : Disk} {sblock : Ext2SuperBlock} {groups : Nat} {id other : Word} {heap : DirtyHeap}

/-- The descriptors say where the tables are. -/
theorem tableStart_congr (same : ∀ address, firstDescriptor sblock ≤ address →
      address < firstDescriptor sblock + groupDescBytes * groups → disk' address = disk address)
    {group : Nat} (present : group < groups) : tableStart disk' sblock group = tableStart disk sblock group := by
  unfold tableStart
  rw [le32_congr disk fun i bound => same _ (by omega) (by unfold groupDescBytes bgInodeTable; omega)]

/-- A device that differs elsewhere than in the superblock and the descriptors is as well formed. -/
theorem WellFormed.congr (wellFormed : WellFormed disk sblock groups)
    (superBlock : ∀ address, 1024 ≤ address → address < 2048 → disk' address = disk address)
    (same : ∀ address, firstDescriptor sblock ≤ address →
      address < firstDescriptor sblock + groupDescBytes * groups → disk' address = disk address) :
    WellFormed disk' sblock groups where
  superBlock := by
    have kept (i : Nat) (below : i < 1024) : disk' (1024 + i) = disk (1024 + i) :=
      superBlock _ (by omega) (by omega)
    rw [← wellFormed.superBlock]
    simp (disch := omega) only [readSuperBlock, le32, le16, kept]
  behind group present := by
    rw [tableStart_congr same present]
    exact wellFormed.behind group present
  apart group present other presentOther different := by
    rw [tableStart_congr same present, tableStart_congr same presentOther]
    exact wellFormed.apart group present other presentOther different
  onDevice group present := by
    rw [tableStart_congr same present]
    exact wellFormed.onDevice group present

/-- The device with an inode at an address. -/
def withInode (disk : Disk) (address : Nat) (inode : Ext2Inode) : Disk := fun a =>
  if address ≤ a ∧ a < address + inodeBytes then inode.bytes (a - address) else disk a

/-- Inodes lie behind the superblock and the descriptors. -/
theorem inodeAddress_behind (wellFormed : WellFormed disk sblock groups) (present : groupOf sblock id < groups) :
    firstDescriptor sblock + groupDescBytes * groups + inodeSize sblock * indexOf sblock id ≤
      inodeAddress disk sblock id := by
  have behind := wellFormed.behind _ present
  unfold inodeAddress
  rw [Nat.mul_comm (inodeSize sblock)]
  omega

theorem wellFormed_withInode (wellFormed : WellFormed disk sblock groups) (present : groupOf sblock id < groups)
    (inode : Ext2Inode) : WellFormed (withInode disk (inodeAddress disk sblock id) inode) sblock groups ∧
      ∀ group < groups, tableStart (withInode disk (inodeAddress disk sblock id) inode) sblock group =
        tableStart disk sblock group := by
  have behind := inodeAddress_behind wellFormed present
  have first := firstDescriptor_ge sblock
  have same (address : Nat) (before : address < firstDescriptor sblock + groupDescBytes * groups) :
      withInode disk (inodeAddress disk sblock id) inode address = disk address :=
    if_neg (by omega)
  exact ⟨wellFormed.congr (fun address _ below => same address (by omega)) (fun address _ below => same address below),
    fun group isGroup => tableStart_congr (fun address _ below => same address below) isGroup⟩

/-- Two inodes share no byte. -/
theorem inodes_apart (wellFormed : WellFormed disk sblock groups) (geometry : Geometry sblock)
    (positive : id ≠ 0#32) (positiveOther : other ≠ 0#32) (present : groupOf sblock id < groups)
    (presentOther : groupOf sblock other < groups) (different : other ≠ id) :
    inodeAddress disk sblock other + 128 ≤ inodeAddress disk sblock id ∨
      inodeAddress disk sblock id + 128 ≤ inodeAddress disk sblock other := by
  have size := geometry.size
  by_cases same : groupOf sblock other = groupOf sblock id
  · have indices : indexOf sblock other ≠ indexOf sblock id := by
      intro equal
      have first := Nat.div_add_mod (other.toNat - 1) (inodesPerGroup sblock)
      have second := Nat.div_add_mod (id.toNat - 1) (inodesPerGroup sblock)
      unfold groupOf at same
      unfold indexOf at equal
      rw [same, equal] at first
      have some := toNat_pos positive
      have someOther := toNat_pos positiveOther
      exact different (BitVec.eq_of_toNat_eq (by omega))
    unfold inodeAddress
    rw [same]
    rcases Nat.lt_or_gt_of_ne indices with before | behind
    · have product : (indexOf sblock other + 1) * inodeSize sblock ≤ indexOf sblock id * inodeSize sblock :=
        Nat.mul_le_mul_right _ before
      rw [Nat.add_mul] at product
      omega
    · have product : (indexOf sblock id + 1) * inodeSize sblock ≤ indexOf sblock other * inodeSize sblock :=
        Nat.mul_le_mul_right _ behind
      rw [Nat.add_mul] at product
      omega
  · have first := inodeAddress_le geometry disk id
    have second := inodeAddress_le geometry disk other
    have start : tableStart disk sblock (groupOf sblock id) ≤ inodeAddress disk sblock id := Nat.le_add_right _ _
    have startOther : tableStart disk sblock (groupOf sblock other) ≤ inodeAddress disk sblock other :=
      Nat.le_add_right _ _
    have tables := wellFormed.apart _ presentOther _ present same
    omega

/-- `writeINode` changes the bytes where the code has the inode, if the table is written so far, and no others. -/
theorem writeINode_at (granted : ∀ n, heap.grants n = true) (request : Nat) (inode : Ext2Inode) :
    writeINode disk heap (privdataOf sblock) request id inode =
      some (if codeOffset sblock id + inodeBytes ≤ bytesRead sblock then
        withInode disk (codeAddress disk heap sblock request id) inode else disk) := by
  -- the table ends with a sector, and a sector with an inode
  have whole : codeOffset sblock id + inodeBytes ≤ bytesRead sblock ∨ bytesRead sblock ≤ codeOffset sblock id := by
    unfold codeOffset bytesRead inodeBytes sectorSize
    omega
  have position : inodeBytes * (inodeIndex (privdataOf sblock) id).toNat = codeOffset sblock id := rfl
  simp only [writeINode, granted, if_true, Option.some.injEq]
  funext address
  simp only [writeBlock, toNat_tableSectors, position, codeAddress]
  generalize tableSector disk heap (privdataOf sblock) request (inodeGroup (privdataOf sblock) id) = sector
  by_cases within : codeOffset sblock id + inodeBytes ≤ bytesRead sblock
  · rw [if_pos within]
    by_cases inside : sectorSize * sector.toNat + codeOffset sblock id ≤ address ∧
        address < sectorSize * sector.toNat + codeOffset sblock id + inodeBytes
    · rw [withInode, if_pos inside, if_pos (by omega), if_pos (by omega)]
      congr 1
      omega
    · rw [withInode, if_neg inside]
      split
      · rw [if_neg (by omega), inodeTable_apply, if_pos (by omega)]
        congr 1
        omega
      · rfl
  · rw [if_neg within]
    split
    · rw [if_neg (by omega), inodeTable_apply, if_pos (by omega)]
      congr 1
      omega
    · rfl

/-- Writing the table back changes the inode and nothing else. -/
theorem writeINode_of_found (wellFormed : WellFormed disk sblock groups) (geometry : Geometry sblock)
    (granted : ∀ n, heap.grants n = true) (positive : id ≠ 0#32) (present : groupOf sblock id < groups)
    (found : Found sblock id) (request : Nat) (inode : Ext2Inode) :
    writeINode disk heap (privdataOf sblock) request id inode =
      some (withInode disk (inodeAddress disk sblock id) inode) := by
  rw [writeINode_at granted request inode, if_pos (by rw [codeOffset_eq positive]; exact found.2.2.2),
    codeAddress_of_found wellFormed geometry positive present found request]

theorem inodeOnDisk_withInode (disk : Disk) (address : Nat) (inode : Ext2Inode) (i : Fin 128) :
    withInode disk address inode (address + i) = inode i := by
  have bound := i.isLt
  rw [withInode, if_pos ⟨by omega, by unfold inodeBytes; omega⟩, Nat.add_sub_cancel_left, Ext2Inode.bytes, dif_pos bound]

theorem writesRight_of_found (wellFormed : WellFormed disk sblock groups) (geometry : Geometry sblock)
    (granted : ∀ n, heap.grants n = true) (positive : id ≠ 0#32) (positiveOther : other ≠ 0#32)
    (present : groupOf sblock id < groups) (presentOther : groupOf sblock other < groups) (found : Found sblock id)
    (foundOther : Found sblock other) (request : Nat) : WritesRight disk sblock heap request id other := by
  intro inode
  obtain ⟨still, tables⟩ := wellFormed_withInode wellFormed present inode
  refine ⟨_, writeINode_of_found wellFormed geometry granted positive present found request inode, ?_⟩
  rw [readsRight_of_found still geometry granted positiveOther presentOther foundOther (request + 2),
    Option.some.injEq, Option.some.injEq]
  funext i
  have bound := i.isLt
  have place : inodeAddress (withInode disk (inodeAddress disk sblock id) inode) sblock other =
      inodeAddress disk sblock other := by
    rw [inodeAddress, tables _ presentOther]
    rfl
  rw [inodeOnDisk, place]
  by_cases same : other = id
  · rw [if_pos same, same, inodeOnDisk_withInode]
  · have apart := inodes_apart wellFormed geometry positive positiveOther present presentOther same
    rw [if_neg same, withInode, if_neg (by unfold inodeBytes; omega), inodeOnDisk]

end Changing

section Missing

variable {disk : Disk} {sblock : Ext2SuperBlock} {groups : Nat} {id : Word}

/-- Memory that holds the same byte everywhere. -/
def uniformHeap (byte : Byte) : DirtyHeap := ⟨fun _ => true, fun _ _ => byte⟩

theorem grants_uniformHeap (byte : Byte) (request : Nat) : (uniformHeap byte).grants request = true := rfl

/-- If the first byte comes from elsewhere than the inode, there is a device on which it is another one. -/
theorem misread (wellFormed : WellFormed disk sblock groups) (present : groupOf sblock id < groups) (heap : DirtyHeap)
    (elsewhere : Nat) (different : elsewhere ≠ inodeAddress disk sblock id)
    (read : ∀ changed : Disk, (∀ address, address ≠ inodeAddress disk sblock id → changed address = disk address) →
      ∃ inode, readInode changed heap (privdataOf sblock) 0 id = some (some inode) ∧ inode 0 = changed elsewhere) :
    ∃ changed, WellFormed changed sblock groups ∧ ¬ReadsRight changed sblock heap 0 id := by
  have behind := inodeAddress_behind wellFormed present
  have first := firstDescriptor_ge sblock
  let changed := Function.update disk (inodeAddress disk sblock id) (disk elsewhere + 1#8)
  have same (address : Nat) (other : address ≠ inodeAddress disk sblock id) : changed address = disk address :=
    Function.update_of_ne other _ _
  have still : WellFormed changed sblock groups :=
    wellFormed.congr (fun address _ _ => same address (by omega)) fun address _ _ => same address (by omega)
  have place : inodeAddress changed sblock id = inodeAddress disk sblock id := by
    rw [inodeAddress, tableStart_congr (fun address _ _ => same address (by omega)) present]
    rfl
  refine ⟨changed, still, fun right => ?_⟩
  obtain ⟨inode, got, byte⟩ := read changed same
  rw [ReadsRight, got, Option.some.injEq, Option.some.injEq] at right
  rw [right, inodeOnDisk, place, same elsewhere different] at byte
  have own : changed (inodeAddress disk sblock id + (0 : Fin 128)) = disk elsewhere + 1#8 :=
    Function.update_self _ _ _
  rw [own] at byte
  have bound := (disk elsewhere).isLt
  have numbers := congrArg BitVec.toNat byte
  rw [BitVec.toNat_add] at numbers
  simp at numbers
  omega

/-- What the first byte is when the descriptor that is looked at is all zeros. -/
theorem readInode_at_zero (heap : DirtyHeap) (granted : ∀ n, heap.grants n = true) (positive : id ≠ 0#32)
    (zero : le32 (readBlock disk 4#32 1#32 (heap.holds 0)) (groupDescBytes * groupOf sblock id + bgInodeTable) = 0#32)
    (within : inodeBytes * indexOf sblock id + inodeBytes ≤ bytesRead sblock) :
    ∃ inode, readInode disk heap (privdataOf sblock) 0 id = some (some inode) ∧
      inode 0 = disk (inodeBytes * indexOf sblock id) := by
  refine ⟨_, readInode_granted heap granted 0 positive, ?_⟩
  have inside : inodeBytes * indexOf sblock id + (0 : Fin 128) < bytesRead sblock := by
    unfold inodeBytes at within ⊢
    simp
    omega
  rw [tableSector_eq disk heap 0 positive, zero, inodeTable_apply, if_pos inside]
  simp

/-- An inode is found by the code if it is read rightly from every device with its geometry, and there is one. -/
theorem found_of_readsRight (geometry : Geometry sblock) (positive : id ≠ 0#32) (present : groupOf sblock id < groups)
    (wellFormed : WellFormed disk sblock groups) (right : ∀ disk heap request, WellFormed disk sblock groups →
      (∀ n, heap.grants n = true) → ReadsRight disk sblock heap request id) : Found sblock id := by
  have first := firstDescriptor_ge sblock
  have within : inodeBytes * indexOf sblock id + inodeBytes ≤ bytesRead sblock := by
    -- behind the sectors that are read, memory holds another byte than the inode's last
    by_contra outside
    have reads := right disk (uniformHeap (inodeOnDisk disk sblock id 127 + 1#8)) 0 wellFormed fun _ => rfl
    rw [ReadsRight, readInode_granted _ (fun _ => rfl) 0 positive, Option.some.injEq, Option.some.injEq] at reads
    have last := congrFun reads 127
    rw [inodeTable_apply, if_neg (by unfold inodeBytes at outside ⊢; simp; omega)] at last
    have bound := (inodeOnDisk disk sblock id 127).isLt
    have numbers := congrArg BitVec.toNat last
    simp only [uniformHeap, BitVec.toNat_add] at numbers
    simp at numbers
    omega
  have behind := inodeAddress_behind wellFormed present
  have size := geometry.size
  have stride : inodeBytes * indexOf sblock id ≤ inodeSize sblock * indexOf sblock id := Nat.mul_le_mul_right _ size
  have few : groupOf sblock id < 16 := by
    -- the descriptor is taken from the memory behind the sector, which holds zeros
    by_contra many
    obtain ⟨changed, still, wrong⟩ := misread wellFormed present (uniformHeap 0#8) (inodeBytes * indexOf sblock id)
      (by omega) fun changed _ => readInode_at_zero _ (fun _ => rfl) positive (le32_zero fun i bound => by
        unfold readBlock groupDescBytes bgInodeTable sectorSize
        rw [if_neg (by simp; omega)]
        rfl) within
    exact wrong (right changed _ 0 still fun _ => rfl)
  have small : sblock.sLogBlockSize.toNat ≤ 1 := by
    -- the sector 4 is in the block of the superblock, and may hold zeros
    by_contra large
    have far := firstDescriptor_large (Nat.not_le.mp large)
    let cleared : Disk := fun address => if 2048 ≤ address ∧ address < 4096 then 0#8 else disk address
    have kept : WellFormed cleared sblock groups :=
      wellFormed.congr (fun address _ _ => if_neg (by omega)) fun address _ _ => if_neg (by omega)
    have place := inodeAddress_behind kept present
    obtain ⟨changed, still, wrong⟩ := misread kept present (uniformHeap 0#8) (inodeBytes * indexOf sblock id)
      (by omega) fun changed same => readInode_at_zero _ (fun _ => rfl) positive (by
        rw [descriptor_in_sector changed _ few]
        refine le32_zero fun i bound => ?_
        unfold groupDescBytes bgInodeTable
        rw [same _ (by omega)]
        exact if_pos (by omega)) within
    exact wrong (right changed _ 0 still fun _ => rfl)
  refine ⟨small, few, ?_, within⟩
  -- inodes of another length are further apart
  by_contra both
  obtain ⟨longer, later⟩ := not_or.mp both
  have further : inodeBytes * indexOf sblock id < inodeSize sblock * indexOf sblock id :=
    Nat.mul_lt_mul_of_pos_right (by unfold inodeBytes; omega) (Nat.pos_of_ne_zero later)
  have start : tableStart disk sblock (groupOf sblock id) + inodeBytes * indexOf sblock id ≠ inodeAddress disk sblock id := by
    rw [inodeAddress, Nat.mul_comm (indexOf sblock id)]
    omega
  obtain ⟨changed, still, wrong⟩ := misread wellFormed present (uniformHeap 0#8) _ start fun changed same => by
    have alike (address : Nat) (below : address < firstDescriptor sblock + groupDescBytes * groups) :
        changed address = disk address := same address (by omega)
    have still : WellFormed changed sblock groups :=
      wellFormed.congr (fun address _ below => alike address (by omega)) fun address _ below => alike address below
    have sector := sector_of_small (uniformHeap 0#8) still geometry positive present small few 0
    rw [tableStart_congr (fun address _ below => alike address below) present] at sector
    refine ⟨_, readInode_granted _ (fun _ => rfl) 0 positive, ?_⟩
    rw [inodeTable_apply, if_pos (by unfold inodeBytes at within ⊢; simp; omega), sector]
    rfl
  exact wrong (right changed _ 0 still fun _ => rfl)

end Missing

/-- On this device the code looks for the inode where it is, and reads and writes it there. -/
def Placed (disk : Disk) (sblock : Ext2SuperBlock) (id : Word) : Prop :=
  groupOf sblock id < 16 ∧
    sectorSize * (le32 disk (2048 + (groupDescBytes * groupOf sblock id + bgInodeTable)) *
      (privdataOf sblock).diskBlocksPerFSBlock).toNat + inodeBytes * indexOf sblock id = inodeAddress disk sblock id ∧
    inodeBytes * indexOf sblock id + inodeBytes ≤ bytesRead sblock

instance (disk : Disk) (sblock : Ext2SuperBlock) (id : Word) : Decidable (Placed disk sblock id) :=
  inferInstanceAs (Decidable (_ ∧ _))

section Placing

variable {disk disk' : Disk} {sblock : Ext2SuperBlock} {groups : Nat} {id : Word} {heap : DirtyHeap}

/-- Where the code has an inode is computed from the sector 4. -/
theorem codeAddress_congr (same : ∀ address, 2048 ≤ address → address < 2560 → disk' address = disk address)
    (request : Nat) : codeAddress disk' heap sblock request id = codeAddress disk heap sblock request id := by
  have read : readBlock disk' 4#32 1#32 (heap.holds request) = readBlock disk 4#32 1#32 (heap.holds request) := by
    funext i
    rw [readBlock, readBlock]
    split
    · rename_i inside
      change i < 512 at inside
      exact same _ (Nat.le_add_right _ _) (by change 2048 + i < 2560; omega)
    · rfl
  rw [codeAddress, codeAddress, tableSector, tableSector, read]

theorem codeAddress_few (positive : id ≠ 0#32) (few : groupOf sblock id < 16) (request : Nat) :
    codeAddress disk heap sblock request id =
      sectorSize * (le32 disk (2048 + (groupDescBytes * groupOf sblock id + bgInodeTable)) *
        (privdataOf sblock).diskBlocksPerFSBlock).toNat + inodeBytes * indexOf sblock id := by
  rw [codeAddress, tableSector_eq disk heap request positive, descriptor_in_sector disk _ few, codeOffset_eq positive]

/-- The descriptors of further groups are taken from the memory behind the sector. -/
theorem codeAddress_many (positive : id ≠ 0#32) (many : 16 ≤ groupOf sblock id) (request : Nat) :
    codeAddress disk (uniformHeap 0#8) sblock request id = inodeBytes * indexOf sblock id := by
  have zero : le32 (readBlock disk 4#32 1#32 ((uniformHeap 0#8).holds request))
      (groupDescBytes * groupOf sblock id + bgInodeTable) = 0#32 :=
    le32_zero fun i bound => by
      unfold readBlock groupDescBytes bgInodeTable sectorSize
      rw [if_neg (by simp; omega)]
      rfl
  rw [codeAddress, tableSector_eq disk _ request positive, zero, codeOffset_eq positive]
  simp

theorem Placed.codeAddress (placed : Placed disk sblock id) (positive : id ≠ 0#32) (request : Nat) :
    codeAddress disk heap sblock request id = inodeAddress disk sblock id :=
  (codeAddress_few positive placed.1 request).trans placed.2.1

/-- No garbage leads to the place of an inode. -/
theorem placed_of_codeAddress (wellFormed : WellFormed disk sblock groups) (geometry : Geometry sblock)
    (positive : id ≠ 0#32) (present : groupOf sblock id < groups)
    (within : codeOffset sblock id + inodeBytes ≤ bytesRead sblock) {request : Nat}
    (place : codeAddress disk (uniformHeap 0#8) sblock request id = inodeAddress disk sblock id) :
    Placed disk sblock id := by
  rw [codeOffset_eq positive] at within
  by_cases few : groupOf sblock id < 16
  · exact ⟨few, (codeAddress_few positive few request).symm.trans place, within⟩
  · have behind := inodeAddress_behind wellFormed present
    have first := firstDescriptor_ge sblock
    have stride : inodeBytes * indexOf sblock id ≤ inodeSize sblock * indexOf sblock id :=
      Nat.mul_le_mul_right _ geometry.size
    rw [codeAddress_many positive (Nat.not_lt.mp few)] at place
    omega

/-- What is found on every device of a geometry is found on this one. -/
theorem placed_of_found (wellFormed : WellFormed disk sblock groups) (geometry : Geometry sblock)
    (positive : id ≠ 0#32) (present : groupOf sblock id < groups) (found : Found sblock id) : Placed disk sblock id :=
  placed_of_codeAddress wellFormed geometry positive present (by rw [codeOffset_eq positive]; exact found.2.2.2)
    (codeAddress_of_found wellFormed geometry positive present found 0)

end Placing

/-- On the devices of a geometry, two inodes can be read, and the one written without the other, exactly if
the code finds them both. -/
theorem inode_table_exact_iff (sblock : Ext2SuperBlock) (groups : Nat) (id other : Word) (geometry : Geometry sblock)
    (positive : id ≠ 0#32) (positiveOther : other ≠ 0#32) (present : groupOf sblock id < groups)
    (presentOther : groupOf sblock other < groups) (device : ∃ disk, WellFormed disk sblock groups) :
    TableExact sblock groups id other ↔ Found sblock id ∧ Found sblock other := by
  constructor
  · intro exact
    obtain ⟨disk, wellFormed⟩ := device
    exact ⟨found_of_readsRight geometry positive present wellFormed fun disk heap request still granted =>
        (exact disk heap request still granted).1,
      found_of_readsRight geometry positiveOther presentOther wellFormed fun disk heap request still granted =>
        (exact disk heap request still granted).2.1⟩
  · rintro ⟨found, foundOther⟩ disk heap request wellFormed granted
    exact ⟨readsRight_of_found wellFormed geometry granted positive present found request,
      readsRight_of_found wellFormed geometry granted positiveOther presentOther foundOther request,
      writesRight_of_found wellFormed geometry granted positive positiveOther present presentOther found foundOther
        request⟩

/-- A device of one group with 8 inodes of `size` bytes, the table in its block 5. -/
def smallDisk (size : BitVec 16) : Disk := fun address =>
  if address = 1064 then 8#8
  else if address = 1080 then 0x53#8
  else if address = 1081 then 0xEF#8
  else if address = 1112 then size.setWidth 8
  else if address = 1113 then (size >>> 8).setWidth 8
  else if address = 2056 then 5#8
  else if address = 5376 then 7#8
  else 0#8

def smallSuperBlock (size : BitVec 16) : Ext2SuperBlock := ⟨0#32, 8#32, ext2Magic, size⟩

theorem small_disk_exact : TableExact (smallSuperBlock 128#16) 1 2#32 3#32 := by
  have wellFormed : WellFormed (smallDisk 128#16) (smallSuperBlock 128#16) 1 := by
    refine ⟨by decide, fun group below => ?_, fun group below other belowOther different => ?_, fun group below => ?_⟩
    · rw [Nat.lt_one_iff.mp below]
      decide
    · omega
    · rw [Nat.lt_one_iff.mp below]
      decide
  exact (inode_table_exact_iff _ 1 2#32 3#32 ⟨rfl, by decide, by decide⟩ (by decide) (by decide) (by decide)
    (by decide) ⟨_, wellFormed⟩).mpr ⟨by decide, by decide⟩

/-- With inodes of 256 bytes, the inode 2 is taken from the middle of the inode 1. -/
theorem wide_inodes_misread :
    WellFormed (smallDisk 256#16) (smallSuperBlock 256#16) 1 ∧
      ¬ReadsRight (smallDisk 256#16) (smallSuperBlock 256#16) (uniformHeap 0#8) 0 2#32 := by
  refine ⟨⟨by decide, fun group below => ?_, fun group below other belowOther different => ?_,
    fun group below => ?_⟩, ?_⟩
  · rw [Nat.lt_one_iff.mp below]
    decide
  · omega
  · rw [Nat.lt_one_iff.mp below]
    decide
  · intro right
    have first := congrFun (Option.some.inj (Option.some.inj right)) 0
    revert first
    decide

end FluxOS.Ext2
