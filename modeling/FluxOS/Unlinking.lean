import FluxOS.DirectoryUpdates
import FluxOS.InodeTable

/-! `Unlink`: what is left of a directory when a record is added to the one before it, and when this removes the name
that was to be removed. -/
namespace FluxOS.Ext2
open Words UserMemoryOps BlockDevice NetUtils

/-! ## A record that grows -/

section Growing

variable {blockSize bytes offset : Nat} {block : Block}

theorem growRecord_apply {i : Nat} (other : i ≠ offset + 4 ∧ i ≠ offset + 5) :
    growRecord block offset bytes i = block i := by
  rw [growRecord, store16_other other.1 other.2]

/-- The length is one of 16 bits. -/
theorem recLen_growRecord : recLen (growRecord block offset bytes) offset = (recLen block offset + bytes) % 2 ^ 16 := by
  rw [recLen, growRecord, le16_store16, BitVec.toNat_add, BitVec.toNat_ofNat, ← recLen]
  exact Nat.add_mod_mod _ _ _

theorem recLen_grown (fits : recLen block offset + bytes < 2 ^ 16) :
    recLen (growRecord block offset bytes) offset = recLen block offset + bytes := by
  rw [recLen_growRecord, Nat.mod_eq_of_lt fits]

theorem growRecord_sameEntry {other : Nat}
    (apart : other + 8 + nameLen block other ≤ offset + 4 ∨ offset + 6 ≤ other ∨ other = offset) :
    SameEntry block (growRecord block offset bytes) other where
  inode := le32_congr _ fun i bound => growRecord_apply (by omega)
  length := by rw [nameLen, nameLen, growRecord_apply (by omega)]
  type := by rw [fileType, fileType, growRecord_apply (by omega)]
  bytes i bound := growRecord_apply (by omega)

theorem growRecord_congr {buffer : Block} (same : ∀ i < blockSize, buffer i = block i) (inside : offset + 8 ≤ blockSize) :
    ∀ i < blockSize, growRecord buffer offset bytes i = growRecord block offset bytes i := by
  have length : le16 buffer (offset + 4) = le16 block (offset + 4) := by
    rw [le16, le16, same _ (by omega), same _ (by omega)]
  intro i bound
  simp only [growRecord, store16, store8, Function.update_apply, length, same i bound]

theorem recLen_growRecord_other {other : Nat} (apart : other + 6 ≤ offset + 4 ∨ offset + 6 ≤ other) :
    recLen (growRecord block offset bytes) other = recLen block other := by
  rw [recLen, recLen, le16, le16, growRecord_apply (by omega), growRecord_apply (by omega)]

end Growing

/-! ## A record that is added to the one before it -/

section Removal

variable {blockSize prev offset : Nat} {block : Block} {before behind : List Nat}

/-- The record lies behind the one before it, and what follows behind both. -/
theorem Tiled.neighbours {start : Nat} (tiled : Tiled blockSize block start (prev :: offset :: behind)) :
    start = prev ∧ prev + recLen block prev = offset ∧ recLen block prev % 4 = 0 ∧ recLen block offset % 4 = 0 ∧
      Tiled blockSize block (offset + recLen block offset) behind := by
  cases tiled with
  | cons inside long aligned rest =>
    cases rest with
    | cons inside' long' aligned' rest' => exact ⟨rfl, rfl, aligned, aligned', rest'⟩

variable (tiled : Tiled blockSize block 0 (before ++ prev :: offset :: behind))

include tiled

/-- All that is left has what it had, but for the length of the record before. -/
theorem grown_same {record : Nat} (among : record ∈ before ++ prev :: behind) :
    SameEntry block (growRecord block prev (recLen block offset)) record ∧
      (record ≠ prev → recLen (growRecord block prev (recLen block offset)) record = recLen block record) := by
  obtain ⟨from_prev, _, inside⟩ := tiled.split
  obtain ⟨_, next, _, _, rest⟩ := from_prev.neighbours
  have bounds (other : Nat) (among : other ∈ before ++ prev :: offset :: behind) :
      nameLen block other + 8 ≤ recLen block other := (tiled.bounds other among).2
  have prev_long := bounds prev (List.mem_append_right _ List.mem_cons_self)
  rcases List.mem_append.mp among with earlier | later
  · have ends := (inside record earlier).2
    have long := bounds record (List.mem_append_left _ earlier)
    exact ⟨growRecord_sameEntry (.inl (by omega)), fun _ => recLen_growRecord_other (.inl (by omega))⟩
  · rcases List.mem_cons.mp later with rfl | later
    · exact ⟨growRecord_sameEntry (.inr (.inr rfl)), fun other => absurd rfl other⟩
    · have start := rest.start_le record later
      exact ⟨growRecord_sameEntry (.inr (.inl (by omega))), fun _ => recLen_growRecord_other (.inr (by omega))⟩

section Fits

variable (fits : recLen block prev + recLen block offset < 2 ^ 16)

include fits

/-- Without the record, the others fill the block. -/
theorem grown_tiled :
    Tiled blockSize (growRecord block prev (recLen block offset)) 0 (before ++ prev :: behind) := by
  obtain ⟨not_before, not_behind⟩ := tiled.not_mem
  have same {record : Nat} (among : record ∈ before ++ prev :: behind) := grown_same tiled among
  have length := recLen_grown fits
  obtain ⟨from_prev, _, _⟩ := tiled.split
  obtain ⟨_, next, aligned, aligned', rest⟩ := from_prev.neighbours
  have bounds := tiled.bounds prev (List.mem_append_right _ List.mem_cons_self)
  refine tiled.replace (fun record earlier => ?_) (fun record earlier => ?_) (.cons ?_ ?_ ?_ ?_)
  · exact (same (List.mem_append_left _ earlier)).2 fun equal => not_before (equal ▸ earlier)
  · exact (same (List.mem_append_left _ earlier)).1.length
  · omega
  · rw [length, (same (List.mem_append_right _ List.mem_cons_self)).1.length]
    omega
  · omega
  · rw [length, ← Nat.add_assoc, next]
    refine rest.congr_fields (fun record later => ?_) (fun record later => ?_)
    · exact (same (List.mem_append_right _ (List.mem_cons_of_mem _ later))).2 fun equal =>
        not_behind (List.mem_cons_of_mem _ (equal ▸ later))
    · exact (same (List.mem_append_right _ (List.mem_cons_of_mem _ later))).1.length

/-- The record before is refused no more than it was. -/
theorem grown_sound (sound : ¬ Corrupted blockSize block prev) :
    ¬ Corrupted blockSize (growRecord block prev (recLen block offset)) prev := by
  have among : prev ∈ before ++ prev :: behind := List.mem_append_right _ List.mem_cons_self
  have inside := ((grown_tiled tiled fits).bounds prev among).1
  have same := (grown_same tiled among).1
  have length := recLen_grown fits
  simp only [Corrupted, not_or, not_lt, same.length, same.type] at sound ⊢
  obtain ⟨aligned, long, _, named, type⟩ := sound
  exact ⟨aligned, by omega, inside, named, type⟩

/-- A name that does not lead to the record leads where it did. -/
theorem grown_scan {name : Block} (sound : ¬ Corrupted blockSize block prev)
    (other : ¬ Decides blockSize name block offset) :
    scanInodes blockSize name (growRecord block prev (recLen block offset)) (before ++ prev :: behind) =
      scanInodes blockSize name block (before ++ prev :: offset :: behind) := by
  have without := scanInodes_without other (before ++ [prev]) behind
  rw [List.append_assoc, List.append_assoc, List.singleton_append, List.singleton_append] at without
  rw [without]
  refine scanInodes_congr (fun record among => ?_) (fun record among => ?_) (fun record among => ?_)
  · by_cases equal : record = prev
    · rw [equal]
      exact iff_of_false (grown_sound tiled fits sound) sound
    · have same := grown_same tiled among
      exact same.1.corrupted_iff (same.2 equal)
  · exact (grown_same tiled among).1.matches_iff
  · exact (grown_same tiled among).1.inode

end Fits

end Removal

/-- When the search for the name of the record goes through what is left, the record was not the first, its length was
added to that of the one before it, and no record behind it decides. -/
theorem removable_of_goesOn {blockSize offset : Nat} {name block : Block} {before behind records : List Nat}
    (positive : 0 < blockSize) (small : blockSize ≤ 2 ^ 16) (tiled : Tiled blockSize block 0 (before ++ offset :: behind))
    (found : Matches name block offset)
    (tiled' : Tiled blockSize (growRecord block (before.getLastD 0) (recLen block offset)) 0 records)
    (goesOn : ∀ record ∈ records,
      ¬ Decides blockSize name (growRecord block (before.getLastD 0) (recLen block offset)) record) :
    before ≠ [] ∧ (∀ other ∈ behind, ¬ Decides blockSize name block other) ∧
      recLen block (before.getLastD 0) + recLen block offset < 2 ^ 16 := by
  cases before using List.reverseRecOn with
  | nil =>
    -- the first record has its own length added, and is found again
    rw [List.getLastD_nil] at tiled' goesOn
    have first : offset = 0 := by
      cases tiled
      rfl
    subst first
    have same : SameEntry block (growRecord block 0 (recLen block 0)) 0 := growRecord_sameEntry (.inr (.inr rfl))
    cases tiled' with
    | nil => exact absurd positive (Nat.lt_irrefl _)
    | cons => exact absurd (.inr (same.matches_iff.mpr found)) (goesOn 0 List.mem_cons_self)
  | append_singleton before prev =>
    rw [List.getLastD_concat] at tiled' goesOn ⊢
    rw [List.append_assoc, List.singleton_append] at tiled
    have fits : recLen block prev + recLen block offset < 2 ^ 16 := by
      by_contra overflows
      obtain ⟨from_prev, _, _⟩ := tiled.split
      obtain ⟨_, next, _, _, rest⟩ := from_prev.neighbours
      have inside := (tiled.bounds offset (List.mem_append_right _ (List.mem_cons_of_mem _ List.mem_cons_self))).1
      have zero : prev = 0 := by omega
      subst zero
      have length := @recLen_growRecord (recLen block offset) 0 block
      rw [show recLen block 0 + recLen block offset = 2 ^ 16 by omega, Nat.mod_self] at length
      cases tiled' with
      | nil => exact absurd positive (Nat.lt_irrefl _)
      | cons before long => omega
    refine ⟨by simp, ?_, fits⟩
    intro other later decides
    obtain ⟨_, not_behind⟩ := tiled.not_mem
    have among : other ∈ before ++ prev :: behind := List.mem_append_right _ (List.mem_cons_of_mem _ later)
    obtain ⟨same, length⟩ := grown_same tiled among
    rw [(grown_tiled tiled fits).unique tiled'] at goesOn
    exact goesOn other among ((same.decides_iff (length fun equal => not_behind (List.mem_cons_of_mem _ (equal ▸ later)))).mpr decides)

/-! ## What `Unlink` does -/

section Unlink

variable (sblock : Ext2SuperBlock) (disk : Disk) (heap : DirtyHeap) (privdata : Ext2Privdata) (inode : Ext2Inode)
variable (request next blocks : Nat) (records : Nat → List Nat) (name : Block) (text : List Byte)

/-- The name is that of a directory. -/
def NamesDirectory : Prop :=
  ∃ k < blocks, ∃ offset ∈ records k, Live (dirBlock disk privdata inode k) offset ∧
    entryName (dirBlock disk privdata inode k) offset = text ∧ fileType (dirBlock disk privdata inode k) offset = ext2FtDir

instance : Decidable (NamesDirectory disk privdata inode blocks records text) :=
  inferInstanceAs (Decidable (∃ k < blocks, ∃ offset ∈ records k, _))

/-- The inode of that number: that of its node if there is one, or else the one at its place on the device. -/
def inodeOf (state : Ext2State) (place : Nat) (id : Word) : Ext2Inode :=
  ((state.nodes id).bind Ext2Node.privdata).getD fun i => state.disk (place + i)

/-- The inode has one link less. -/
def LinkLowered (state state' : Ext2State) (id : Word) : Prop :=
  (inodeOf state' (inodeAddress state.disk sblock id) id).iLinksCount.toNat + 1 =
    (inodeOf state (inodeAddress state.disk sblock id) id).iLinksCount.toNat

/-- The name is gone and nothing else, and the inode it was of has one link less. -/
structure Removed (state state' : Ext2State) : Prop where
  lowered : ∃ k < blocks, ∃ offset ∈ records k, Live (dirBlock state.disk privdata inode k) offset ∧
    entryName (dirBlock state.disk privdata inode k) offset = text ∧
      LinkLowered sblock state state' (entryInode (dirBlock state.disk privdata inode k) offset)
  gone : Resolves state'.disk heap privdata inode request name (.error (-enoent))
  kept : ∀ other otherText, CString other otherText → otherText ≠ text → ∀ result,
    Resolves state.disk heap privdata inode request other result →
      Resolves state'.disk heap privdata inode request other result
  formed : ∃ records', WellFormedDirectory state'.disk privdata inode blocks records'

/-- `Unlink` refuses directories and removes what else has the name. -/
def UnlinksRight (state : Ext2State) : Prop :=
  ∃ fuel res state', unlink heap privdata fuel inode name request next state = some (res, state') ∧
    (res = -eisdir ∧ state'.disk = state.disk ↔ NamesDirectory state.disk privdata inode blocks records text) ∧
    (res = 0 → Removed sblock heap privdata inode request blocks records name text state state')

/-- The record can be removed: it is in use and not the first one of the only block, no further one decides the search,
the length of the one before it can grow by its own, and the inode has a link; if no node has it, it is found. -/
structure Removable (state : Ext2State) (before : List Nat) (offset : Nat) (behind : List Nat) : Prop where
  live : Live (dirBlock state.disk privdata inode 0) offset
  notFirst : before ≠ []
  single : blocks = 1
  last : ∀ other ∈ behind, ¬ Decides privdata.blockSize.toNat name (dirBlock state.disk privdata inode 0) other
  fits : recLen (dirBlock state.disk privdata inode 0) (before.getLastD 0) +
    recLen (dirBlock state.disk privdata inode 0) offset < 2 ^ 16
  linked : let id := entryInode (dirBlock state.disk privdata inode 0) offset
    (inodeOf state (inodeAddress state.disk sblock id) id).iLinksCount ≠ 0#16
  placed : let id := entryInode (dirBlock state.disk privdata inode 0) offset
    state.nodes id = none → Placed state.disk sblock id

/-- The search refuses a record or finds none, and the name is not that of a directory; or the type of the record before
the one found is that of the record, and it can be removed if it is not a directory. -/
def UnlinkFits (state : Ext2State) : Prop :=
  (¬ (∃ before offset behind, Hit state.disk privdata inode name (records 0) before offset behind) ∧
    ¬ NamesDirectory state.disk privdata inode blocks records text) ∨
  ∃ before offset behind, Hit state.disk privdata inode name (records 0) before offset behind ∧
    (fileType (dirBlock state.disk privdata inode 0) (before.getLastD 0) = ext2FtDir ↔
      NamesDirectory state.disk privdata inode blocks records text) ∧
    (fileType (dirBlock state.disk privdata inode 0) (before.getLastD 0) ≠ ext2FtDir →
      Removable sblock privdata inode blocks name state before offset behind)

/-- Where the first block of the directory begins. -/
def firstBlockStart : Nat := fsBlockSize sblock * (inode.iBlock 0).toNat

/-- The file system the directory is on, with blocks of at most 64 KiB: its first block lies behind the descriptors and
apart from the tables, its names are of inodes there are, and the nodes in memory are in use and have an inode. -/
structure OnFileSystem (groups : Nat) (state : Ext2State) : Prop where
  wellFormed : WellFormed state.disk sblock groups
  geometry : Geometry sblock
  sizes : sblock.sLogBlockSize.toNat ≤ 6
  whole : 128 ∣ inodeSize sblock
  behind : firstDescriptor sblock + groupDescBytes * groups ≤ firstBlockStart sblock inode
  apart : ∀ group < groups, tableStart state.disk sblock group + tableSize sblock ≤ firstBlockStart sblock inode ∨
    firstBlockStart sblock inode + fsBlockSize sblock ≤ tableStart state.disk sblock group
  present : ∀ k < blocks, ∀ offset ∈ records k, Live (dirBlock state.disk (privdataOf sblock) inode k) offset →
    groupOf sblock (entryInode (dirBlock state.disk (privdataOf sblock) inode k) offset) < groups
  held : ∀ id node, state.nodes id = some node → node.refCount ≠ 0#32 ∧ node.privdata ≠ none

/-- The device when a record has been added to the one before it. -/
def removedDisk (prev offset : Nat) : Disk :=
  let block := dirBlock disk privdata inode 0
  writeFirstBlock privdata inode disk (growRecord block prev (recLen block offset))

variable {sblock disk heap privdata inode request next blocks records name text}

theorem iLinksCount_unlinked (old : Ext2Inode) : old.unlinked.iLinksCount = old.iLinksCount - 1#16 := by
  have low : old.unlinked.bytes 26 = store16 old.bytes 26 (old.iLinksCount - 1#16) 26 := rfl
  have high : old.unlinked.bytes 27 = store16 old.bytes 26 (old.iLinksCount - 1#16) 27 := rfl
  rw [Ext2Inode.iLinksCount, le16, low, high]
  exact le16_store16 _

theorem links_lowered {old : Ext2Inode} (linked : old.iLinksCount ≠ 0#16) :
    old.unlinked.iLinksCount.toNat + 1 = old.iLinksCount.toNat := by
  have positive : old.iLinksCount.toNat ≠ 0 := fun zero => linked (BitVec.eq_of_toNat_eq zero)
  have bound := old.iLinksCount.isLt
  rw [iLinksCount_unlinked, BitVec.toNat_sub]
  simp
  omega

section Node

variable {state : Ext2State} {id : Word}

/-- A node that is in use stays in memory, with one link less. -/
theorem unlinkInode_held {refCount : Word} {old : Ext2Inode} {dirty : Bool}
    (held : state.nodes id = some ⟨refCount, some old, dirty⟩) (used : refCount ≠ 0#32) :
    ∃ state', unlinkInode heap privdata state request id = some (0, state') ∧ state'.disk = state.disk ∧
      state'.nodes id = some ⟨refCount, some old.unlinked, true⟩ := by
  have count : refCount + 1#32 - 1#32 = refCount := BitVec.add_sub_cancel refCount 1#32
  refine ⟨setNode (setNode state id (some ⟨refCount + 1#32, some old, dirty⟩)) id
    (some ⟨refCount, some old.unlinked, true⟩), ?_, rfl, Function.update_self _ _ _⟩
  simp only [unlinkInode, iNodeNumberToVNode, held, Option.getD_some, Option.bind_some, putVnode, count, if_neg used,
    Option.map_some]

variable (request) in
/-- An inode without a node is read, and written when the node is closed at once. -/
theorem unlinkInode_absent (granted : ∀ n, heap.grants n = true) (absent : state.nodes id = none) :
    ∃ read, readInode state.disk heap (privdataOf sblock) request id = some (some read) ∧
      unlinkInode heap (privdataOf sblock) state request id =
        some (0, ⟨if codeOffset sblock id + inodeBytes ≤ bytesRead sblock then
          withInode state.disk (codeAddress state.disk heap sblock (request + 3) id) read.unlinked else state.disk,
          state.nodes⟩) := by
  obtain ⟨read, reads⟩ : ∃ read, readInode state.disk heap (privdataOf sblock) request id = some (some read) := by
    simp [readInode, granted]
  have write := @writeINode_at state.disk sblock id heap granted (request + 3) read.unlinked
  have nodes : Function.update state.nodes id none = state.nodes := by
    rw [← absent, Function.update_eq_self]
  refine ⟨read, reads, ?_⟩
  simp only [unlinkInode, iNodeNumberToVNode, absent, Option.getD_none, reads, Option.map_some, Option.bind_some, putVnode,
    BitVec.add_sub_cancel, if_true, closeVNode, setNode, write, Function.update_idem, nodes]

/-- Where memory is granted, it returns 0. -/
theorem unlinkInode_zero (granted : ∀ n, heap.grants n = true) {res : Int} {state' : Ext2State}
    (run : unlinkInode heap privdata state request id = some (res, state')) : res = 0 := by
  obtain ⟨⟨result, _⟩, got, rest⟩ := Option.bind_eq_some_iff.mp run
  cases result with
  | ok node =>
    obtain ⟨_, _, same⟩ := Option.map_eq_some_iff.mp rest
    cases same
    rfl
  | error error =>
    -- without an error of the memory there is none
    rw [iNodeNumberToVNode] at got
    split at got
    · cases got
    · simp [readInode, granted] at got

end Node

theorem fsBlockSize_eq (sizes : sblock.sLogBlockSize.toNat ≤ 6) :
    (privdataOf sblock).blockSize.toNat = fsBlockSize sblock := by
  have all : ∀ log < 7, (1024#32 <<< BitVec.ofNat 32 log).toNat = 1024 * 2 ^ log := by decide
  have size := all sblock.sLogBlockSize.toNat (by omega)
  rw [BitVec.ofNat_toNat, BitVec.setWidth_eq] at size
  exact size

section Lowering

variable {groups : Nat} {state state' : Ext2State} {disk' : Disk} {id : Word}

/-- The sector 4 lies before the directory. -/
theorem OnFileSystem.sector_apart (onSystem : OnFileSystem sblock inode blocks records groups state)
    (present : groupOf sblock id < groups) : 2560 ≤ firstBlockStart sblock inode := by
  have behind := onSystem.behind
  have first := firstDescriptor_ge sblock
  have start : firstBlockStart sblock inode = 1024 * (2 ^ sblock.sLogBlockSize.toNat * (inode.iBlock 0).toNat) := by
    rw [firstBlockStart, fsBlockSize, Nat.mul_assoc]
  unfold groupDescBytes at behind
  omega

/-- An inode shares no byte with the directory. -/
theorem OnFileSystem.inode_apart (onSystem : OnFileSystem sblock inode blocks records groups state)
    (present : groupOf sblock id < groups) :
    inodeAddress state.disk sblock id + 128 ≤ firstBlockStart sblock inode ∨
      firstBlockStart sblock inode + fsBlockSize sblock ≤ inodeAddress state.disk sblock id := by
  have ends := inodeAddress_le onSystem.geometry state.disk id
  have start : tableStart state.disk sblock (groupOf sblock id) ≤ inodeAddress state.disk sblock id := Nat.le_add_right _ _
  have apart := onSystem.apart _ present
  omega

/-- Inodes, and what the code takes for inodes, begin at multiples of 128. -/
theorem OnFileSystem.codeAddress_eq_or_apart (onSystem : OnFileSystem sblock inode blocks records groups state)
    (other : Word) :
    codeAddress disk heap sblock request other = inodeAddress state.disk sblock id ∨
      codeAddress disk heap sblock request other + 128 ≤ inodeAddress state.disk sblock id ∨
        inodeAddress state.disk sblock id + 128 ≤ codeAddress disk heap sblock request other := by
  have table : 128 ∣ tableStart state.disk sblock (groupOf sblock id) :=
    Dvd.dvd.mul_left (Dvd.dvd.mul_right (by decide) _) _
  have stride : 128 ∣ indexOf sblock id * inodeSize sblock := Dvd.dvd.mul_left onSystem.whole _
  have place : 128 ∣ inodeAddress state.disk sblock id := Nat.dvd_add table stride
  have sector : 128 ∣ sectorSize * (tableSector disk heap (privdataOf sblock) request
      (inodeGroup (privdataOf sblock) other)).toNat := Dvd.dvd.mul_right (by decide) _
  have code : 128 ∣ codeAddress disk heap sblock request other := Nat.dvd_add sector (Nat.dvd_mul_right _ _)
  omega

/-- An inode written to its place changes nothing of the directory. -/
theorem OnFileSystem.directory_withInode (onSystem : OnFileSystem sblock inode blocks records groups state)
    (present : groupOf sblock id < groups) (changed : Ext2Inode) {address : Nat}
    (inside : firstBlockStart sblock inode ≤ address ∧ address < firstBlockStart sblock inode + fsBlockSize sblock) :
    withInode disk' (inodeAddress state.disk sblock id) changed address = disk' address := by
  have apart := onSystem.inode_apart present
  exact if_neg (by unfold inodeBytes; omega)

variable (onSystem : OnFileSystem sblock inode blocks records groups state) (present : groupOf sblock id < groups)
  (unchanged : ∀ address, ¬ (firstBlockStart sblock inode ≤ address ∧
    address < firstBlockStart sblock inode + fsBlockSize sblock) → disk' address = state.disk address)

include onSystem present unchanged

/-- The inode is on the device as it was. -/
theorem OnFileSystem.inode_unchanged (i : Fin 128) :
    disk' (inodeAddress state.disk sblock id + i) = state.disk (inodeAddress state.disk sblock id + i) := by
  have bound := i.isLt
  have apart := onSystem.inode_apart present
  exact unchanged _ (by omega)

theorem OnFileSystem.codeAddress_unchanged (other : Word) :
    codeAddress disk' heap sblock request other = codeAddress state.disk heap sblock request other := by
  have sector := onSystem.sector_apart present
  exact codeAddress_congr (fun address _ below => unchanged address (by omega)) request

/-- An inode that is placed has one link less, and nothing else of the directory is written. -/
theorem OnFileSystem.lowered_of_placed (granted : ∀ n, heap.grants n = true) (positive : id ≠ 0#32)
    (placed : state.nodes id = none → Placed state.disk sblock id)
    (linked : (inodeOf state (inodeAddress state.disk sblock id) id).iLinksCount ≠ 0#16) :
    ∃ state', unlinkInode heap (privdataOf sblock) { state with disk := disk' } request id = some (0, state') ∧
      LinkLowered sblock state state' id ∧
      ∀ address, firstBlockStart sblock inode ≤ address ∧
        address < firstBlockStart sblock inode + fsBlockSize sblock → state'.disk address = disk' address := by
  unfold LinkLowered
  cases there : state.nodes id with
  | some node =>
    obtain ⟨used, has⟩ := onSystem.held id node there
    obtain ⟨refCount, _ | old, dirty⟩ := node
    · exact absurd rfl has
    rw [inodeOf, there] at linked ⊢
    obtain ⟨state', run, same, stays⟩ := @unlinkInode_held heap (privdataOf sblock) request
      { state with disk := disk' } id refCount old dirty there used
    refine ⟨state', run, ?_, fun address _ => congrFun same address⟩
    rw [inodeOf, stays]
    exact links_lowered linked
  | none =>
    have place := placed there
    have within : codeOffset sblock id + inodeBytes ≤ bytesRead sblock := by
      rw [codeOffset_eq positive]
      exact place.2.2
    obtain ⟨read, reads, run⟩ := @unlinkInode_absent sblock heap request { state with disk := disk' } id granted there
    have at_place (request : Nat) : codeAddress disk' heap sblock request id = inodeAddress state.disk sblock id :=
      (onSystem.codeAddress_unchanged present unchanged id).trans (place.codeAddress positive request)
    rw [readInode_at heap granted request within, Option.some.injEq, Option.some.injEq] at reads
    have old : (fun i : Fin 128 => state.disk (inodeAddress state.disk sblock id + i)) = read := by
      rw [← reads]
      funext i
      rw [at_place]
      exact (onSystem.inode_unchanged present unchanged i).symm
    rw [if_pos within, at_place] at run
    rw [inodeOf, there, Option.bind_none, Option.getD_none, old] at linked ⊢
    refine ⟨_, run, ?_, fun address => onSystem.directory_withInode present _⟩
    have new : (fun i : Fin 128 => withInode disk' (inodeAddress state.disk sblock id) read.unlinked
        (inodeAddress state.disk sblock id + i)) = read.unlinked := funext (inodeOnDisk_withInode _ _ _)
    rw [inodeOf, there, Option.bind_none, Option.getD_none, new]
    exact links_lowered linked

/-- When an inode has one link less, nothing of the directory was written; if no node has it, it was written at its
place. -/
theorem OnFileSystem.written_of_lowered (granted : ∀ n, heap.grants n = true) {other : Word} {res : Int}
    (run : unlinkInode heap (privdataOf sblock) { state with disk := disk' } request other = some (res, state'))
    (lowered : LinkLowered sblock state state' id) :
    (∀ address, firstBlockStart sblock inode ≤ address ∧
        address < firstBlockStart sblock inode + fsBlockSize sblock → state'.disk address = disk' address) ∧
      (state.nodes other = none → codeOffset sblock other + inodeBytes ≤ bytesRead sblock ∧
        codeAddress disk' heap sblock (request + 3) other = inodeAddress state.disk sblock id) := by
  cases there : state.nodes other with
  | some node =>
    obtain ⟨used, has⟩ := onSystem.held other node there
    obtain ⟨refCount, _ | old, dirty⟩ := node
    · exact absurd rfl has
    obtain ⟨ended, ran, same, _⟩ := @unlinkInode_held heap (privdataOf sblock) request
      { state with disk := disk' } other refCount old dirty there used
    rw [ran] at run
    cases run
    exact ⟨fun address _ => congrFun same address, fun absent => absurd absent (Option.some_ne_none _)⟩
  | none =>
    obtain ⟨read, _, ran⟩ := @unlinkInode_absent sblock heap request { state with disk := disk' } other granted there
    rw [ran] at run
    cases run
    -- if nothing were written to the inode, it would have the links it had
    have changed : ∃ i : Fin 128, (if codeOffset sblock other + inodeBytes ≤ bytesRead sblock then
        withInode disk' (codeAddress disk' heap sblock (request + 3) other) read.unlinked else disk')
          (inodeAddress state.disk sblock id + i) ≠ disk' (inodeAddress state.disk sblock id + i) := by
      by_contra same
      simp only [not_exists, not_not] at same
      simp only [LinkLowered, inodeOf, same, onSystem.inode_unchanged present unchanged] at lowered
      exact absurd lowered (Nat.succ_ne_self _)
    obtain ⟨i, different⟩ := changed
    have bound := i.isLt
    by_cases within : codeOffset sblock other + inodeBytes ≤ bytesRead sblock
    · rw [if_pos within, withInode] at different
      have place : codeAddress disk' heap sblock (request + 3) other = inodeAddress state.disk sblock id := by
        refine (onSystem.codeAddress_eq_or_apart other).resolve_right fun apart => different (if_neg ?_)
        unfold inodeBytes
        omega
      refine ⟨fun address inside => ?_, fun _ => ⟨within, place⟩⟩
      simp only [if_pos within]
      rw [place]
      exact onSystem.directory_withInode present _ inside
    · rw [if_neg within] at different
      exact absurd rfl different

end Lowering

section Outcome

variable {fuel : Nat} {search : DirectorySearch} {state : Ext2State} {before behind : List Nat} {offset : Nat}

/-- A search that fails ends `Unlink`. -/
theorem unlink_of_error (run : findDirectoryEntry state.disk heap privdata fuel inode name request = some search) {res : Int}
    (failed : search.result = .error res) :
    unlink heap privdata fuel inode name request next state = some (res, state) := by
  rw [unlink, run, Option.bind_some, failed]

/-- The record before the one found, or that itself, is in the block. -/
theorem Hit.prev_inside (geometry : BlockGeometry privdata) {found : List Nat}
    (firstBlock : FirstBlock disk privdata inode found) (hit : Hit disk privdata inode name found before offset behind) :
    before.getLastD 0 + 8 ≤ privdata.blockSize.toNat := by
  have low := geometry.low
  cases before using List.reverseRecOn with
  | nil =>
    rw [List.getLastD_nil]
    omega
  | append_singleton before prev =>
    rw [List.getLastD_concat]
    have bounds := firstBlock.tiled.bounds prev (by
      rw [hit.split]
      exact List.mem_append_left _ (List.mem_append_right _ (List.mem_singleton_self _)))
    omega

variable (next) in
/-- What `Unlink` does with the record that is found. -/
theorem unlink_of_hit (geometry : BlockGeometry privdata) (granted : ∀ n, heap.grants n = true)
    {found : List Nat} (firstBlock : FirstBlock state.disk privdata inode found)
    (run : findDirectoryEntry state.disk heap privdata fuel inode name request = some search)
    (hit : Hit state.disk privdata inode name found before offset behind) :
    unlink heap privdata fuel inode name request next state =
      if fileType (dirBlock state.disk privdata inode 0) (before.getLastD 0) = ext2FtDir then
        some (-(eisdir : Int), state)
      else unlinkInode heap privdata { state with disk := removedDisk state.disk privdata inode (before.getLastD 0) offset }
        (next + 1) (entryInode (dirBlock state.disk privdata inode 0) offset) := by
  have inside := hit.prev_inside geometry firstBlock
  obtain ⟨buffer, read, same⟩ := firstBlock.buffered geometry fuel (granted next)
  have result := (firstBlock.search name geometry (granted request)).2 fuel search run
  have type : fileType buffer (before.getLastD 0) = fileType (dirBlock state.disk privdata inode 0) (before.getLastD 0) := by
    rw [fileType, fileType, same _ (by omega)]
  rw [unlink, run, Option.bind_some, result, hit.search]
  dsimp only [hitEntry]
  rw [read, Option.bind_some]
  dsimp only
  rw [type, Nat.add_sub_cancel_left, firstBlock.written_congr geometry (growRecord_congr same inside)]
  rfl

end Outcome

section Directory

variable {state state' : Ext2State} {before behind : List Nat} {prev offset : Nat}

/-- The first block when a record has been added to the one before it. -/
theorem dirBlock_removed (geometry : BlockGeometry privdata) {found : List Nat}
    (firstBlock : FirstBlock disk privdata inode found) : ∀ i < privdata.blockSize.toNat,
      dirBlock (removedDisk disk privdata inode prev offset) privdata inode 0 i =
        growRecord (dirBlock disk privdata inode 0) prev (recLen (dirBlock disk privdata inode 0) offset) i :=
  firstBlock.dirBlock_written geometry

/-- When the name is gone and the directory well formed, the record in use that had the name was the one found, and it
could be removed. -/
theorem removed_hit (geometry : BlockGeometry privdata)
    (directory : WellFormedDirectory state.disk privdata inode blocks records) (string : CString name text)
    (granted : ∀ n, heap.grants n = true) (hit : Hit state.disk privdata inode name (records 0) before offset behind)
    (written : ∀ i < privdata.blockSize.toNat, dirBlock state'.disk privdata inode 0 i =
      dirBlock (removedDisk state.disk privdata inode (before.getLastD 0) offset) privdata inode 0 i)
    (gone : Resolves state'.disk heap privdata inode request name (.error (-enoent))) {records' : Nat → List Nat}
    (formed : WellFormedDirectory state'.disk privdata inode blocks records') {k live_offset : Nat} (within : k < blocks)
    (among : live_offset ∈ records k) (live : Live (dirBlock state.disk privdata inode k) live_offset)
    (named : entryName (dirBlock state.disk privdata inode k) live_offset = text) :
    k = 0 ∧ live_offset = offset ∧ before ≠ [] ∧ blocks = 1 ∧
      (∀ other ∈ behind, ¬ Decides privdata.blockSize.toNat name (dirBlock state.disk privdata inode 0) other) ∧
      recLen (dirBlock state.disk privdata inode 0) (before.getLastD 0) +
        recLen (dirBlock state.disk privdata inode 0) offset < 2 ^ 16 := by
  have firstBlock := directory.firstBlock
  have high := geometry.high
  have low := geometry.low
  have grown (i : Nat) (inside : i < privdata.blockSize.toNat) : growRecord (dirBlock state.disk privdata inode 0)
      (before.getLastD 0) (recLen (dirBlock state.disk privdata inode 0) offset) i =
        dirBlock state'.disk privdata inode 0 i :=
    ((written i inside).trans (dirBlock_removed geometry firstBlock i inside)).symm
  -- what the search says when the name is gone
  have firstBlock' := formed.firstBlock
  obtain ⟨small, goesOn⟩ := resolved_enoent_iff.mp
    ((firstBlock'.resolves_iff geometry (granted request)).mp gone).symm
  have single := (directory.single_iff geometry).mp small
  have tiled' := firstBlock'.tiled.congr grown
  have goesOn' (record : Nat) (member : record ∈ records' 0) : ¬ Decides privdata.blockSize.toNat name
      (growRecord (dirBlock state.disk privdata inode 0) (before.getLastD 0)
        (recLen (dirBlock state.disk privdata inode 0) offset)) record := by
    have bounds := firstBlock'.tiled.bounds record member
    have same := @decides_congr _ name _ _ grown record
      (show record + 8 + nameLen _ record ≤ privdata.blockSize.toNat by omega)
    exact same.not.mpr (goesOn record member)
  have tiled := firstBlock.tiled
  rw [hit.split] at tiled
  obtain ⟨notFirst, last, fits⟩ := removable_of_goesOn (by omega) high tiled hit.found tiled' goesOn'
  -- the record in use that has the name is the one found
  have first : k = 0 := by omega
  subst first
  have decided := (directory.decides_live string within among live).mpr named
  refine ⟨rfl, ?_, notFirst, single, last, fits⟩
  rw [hit.split] at among
  rcases List.mem_append.mp among with earlier | later
  · exact absurd decided (hit.goesOn live_offset earlier)
  · rcases List.mem_cons.mp later with equal | later
    · exact equal
    · exact absurd decided (last live_offset later)

end Directory

section Left

variable {before behind : List Nat} {prev offset : Nat} (geometry : BlockGeometry privdata)
  (firstBlock : FirstBlock disk privdata inode (before ++ prev :: offset :: behind))
  (fits : recLen (dirBlock disk privdata inode 0) prev + recLen (dirBlock disk privdata inode 0) offset < 2 ^ 16)

include geometry firstBlock fits

/-- The records that are left in the first block. -/
theorem firstBlock_removed :
    FirstBlock (removedDisk disk privdata inode prev offset) privdata inode (before ++ prev :: behind) :=
  firstBlock.after geometry (grown_tiled firstBlock.tiled fits)

/-- What they have. -/
theorem removed_same {record : Nat} (among : record ∈ before ++ prev :: behind) :
    SameEntry (dirBlock disk privdata inode 0) (dirBlock (removedDisk disk privdata inode prev offset) privdata inode 0)
      record := by
  have bounds := (grown_tiled firstBlock.tiled fits).bounds record among
  exact (grown_same firstBlock.tiled among).1.trans
    (sameEntry_of_block (dirBlock_removed geometry firstBlock) (by omega))

/-- None of them is shorter. -/
theorem removed_length {record : Nat} (among : record ∈ before ++ prev :: behind) :
    recLen (dirBlock disk privdata inode 0) record ≤
      recLen (dirBlock (removedDisk disk privdata inode prev offset) privdata inode 0) record := by
  have bounds := (grown_tiled firstBlock.tiled fits).bounds record among
  rw [recLen_congr (dirBlock_removed geometry firstBlock) (by omega)]
  by_cases equal : record = prev
  · rw [equal, recLen_grown fits]
    exact Nat.le_add_right _ _
  · rw [(grown_same firstBlock.tiled among).2 equal]

/-- A name that does not lead to the removed record leads where it did. -/
theorem resolved_removed
    (sound : ¬ Corrupted privdata.blockSize.toNat (dirBlock disk privdata inode 0) prev)
    (other : ¬ Decides privdata.blockSize.toNat name (dirBlock disk privdata inode 0) offset) :
    resolved (removedDisk disk privdata inode prev offset) privdata inode name (before ++ prev :: behind) =
      resolved disk privdata inode name (before ++ prev :: offset :: behind) := by
  rw [resolved, resolved, scanInodes_buffer (dirBlock_removed geometry firstBlock) (grown_tiled firstBlock.tiled fits),
    grown_scan firstBlock.tiled fits sound other]

/-- A name that leads to no other record leads nowhere, where there is no other block. -/
theorem resolved_removed_name (small : inode.iSize.toNat ≤ privdata.blockSize.toNat)
    (goesOn : ∀ record ∈ before ++ prev :: behind,
      ¬ Decides privdata.blockSize.toNat name (dirBlock disk privdata inode 0) record) :
    resolved (removedDisk disk privdata inode prev offset) privdata inode name (before ++ prev :: behind) =
      .error (-enoent) := by
  refine resolved_enoent_iff.mpr ⟨small, ?_⟩
  rw [← scanInodes_eq_none_iff, scanInodes_buffer (dirBlock_removed geometry firstBlock)
    (grown_tiled firstBlock.tiled fits), scanInodes_eq_none_iff]
  intro record among
  have same := grown_same firstBlock.tiled among
  have before_goesOn := goesOn record among
  rw [Decides, not_or] at before_goesOn ⊢
  refine ⟨?_, same.1.matches_iff.not.mpr before_goesOn.2⟩
  by_cases equal : record = prev
  · rw [equal] at before_goesOn ⊢
    exact grown_sound firstBlock.tiled fits before_goesOn.1
  · exact (same.1.corrupted_iff (same.2 equal)).not.mpr before_goesOn.1

end Left

/-- A directory of one block is well formed with some of its records, as long as they were and longer. -/
theorem WellFormedDirectory.of_entries {disk' : Disk} {left : List Nat}
    (directory : WellFormedDirectory disk privdata inode 1 records) (firstBlock' : FirstBlock disk' privdata inode left)
    (among : ∀ record ∈ left, record ∈ records 0)
    (same : ∀ record ∈ left, SameEntry (dirBlock disk privdata inode 0) (dirBlock disk' privdata inode 0) record)
    (length : ∀ record ∈ left, recLen (dirBlock disk privdata inode 0) record ≤
      recLen (dirBlock disk' privdata inode 0) record) :
    WellFormedDirectory disk' privdata inode 1 fun _ => left := by
  refine ⟨directory.directory, directory.size, directory.positive, directory.stored, ?_, ?_, ?_, ?_⟩
  · intro k inside
    cases Nat.lt_one_iff.mp inside
    exact firstBlock'.addressable
  · intro k inside
    cases Nat.lt_one_iff.mp inside
    exact firstBlock'.tiled
  · intro k inside record member live
    cases Nat.lt_one_iff.mp inside
    have formed := directory.live 0 inside record (among record member) ((same record member).live_iff.mp live)
    exact (same record member).wellFormed formed (length record member) (firstBlock'.tiled.bounds record member).1
  · intro k inside record member k' inside' record' member' live live' equal
    cases Nat.lt_one_iff.mp inside
    cases Nat.lt_one_iff.mp inside'
    rw [(same record member).entryName, (same record' member').entryName] at equal
    exact directory.unique 0 inside record (among record member) 0 inside' record' (among record' member')
      ((same record member).live_iff.mp live) ((same record' member').live_iff.mp live') equal

/-- Where the bytes of the only block are as they were, so are its records. -/
theorem WellFormedDirectory.congr {disk' : Disk} (directory : WellFormedDirectory disk privdata inode 1 records)
    (same : ∀ i < privdata.blockSize.toNat, dirBlock disk' privdata inode 0 i = dirBlock disk privdata inode 0 i) :
    WellFormedDirectory disk' privdata inode 1 fun _ => records 0 := by
  have bounds (record : Nat) (member : record ∈ records 0) := directory.firstBlock.tiled.bounds record member
  refine directory.of_entries (directory.firstBlock.congr same) (fun _ member => member) (fun record member => ?_)
    fun record member => ?_
  · have inside := bounds record member
    exact sameEntry_of_block same (by omega)
  · have inside := bounds record member
    rw [recLen_congr same (by omega)]

/-- A well-formed directory of one block is well formed without the record. -/
theorem wellFormed_removed {before behind : List Nat} {prev offset : Nat} (geometry : BlockGeometry privdata)
    (directory : WellFormedDirectory disk privdata inode 1 records) (split : records 0 = before ++ prev :: offset :: behind)
    (fits : recLen (dirBlock disk privdata inode 0) prev + recLen (dirBlock disk privdata inode 0) offset < 2 ^ 16) :
    WellFormedDirectory (removedDisk disk privdata inode prev offset) privdata inode 1
      fun _ => before ++ prev :: behind := by
  have firstBlock := directory.firstBlock
  rw [split] at firstBlock
  refine directory.of_entries (firstBlock_removed geometry firstBlock fits) (fun record member => ?_)
    (fun record member => removed_same geometry firstBlock fits member)
    fun record member => removed_length geometry firstBlock fits member
  rw [split]
  simp only [List.mem_append, List.mem_cons] at member ⊢
  tauto

section Directories

variable {state state' : Ext2State} {before behind : List Nat} {offset : Nat}

/-- Without a record that can be removed, its name is gone and nothing else, whatever is written elsewhere. -/
theorem names_removed (geometry : BlockGeometry privdata)
    (directory : WellFormedDirectory state.disk privdata inode blocks records) (string : CString name text)
    (granted : ∀ n, heap.grants n = true)
    (hit : Hit state.disk privdata inode name (records 0) before offset behind)
    (removable : Removable sblock privdata inode blocks name state before offset behind)
    (written : ∀ i < privdata.blockSize.toNat, dirBlock state'.disk privdata inode 0 i =
      dirBlock (removedDisk state.disk privdata inode (before.getLastD 0) offset) privdata inode 0 i)
    (lowered : LinkLowered sblock state state' (entryInode (dirBlock state.disk privdata inode 0) offset)) :
    Removed sblock heap privdata inode request blocks records name text state state' := by
  have firstBlock := directory.firstBlock
  have fits := removable.fits
  have goesOn := hit.goesOn
  have split := hit.split
  have named := (directory.decides_live string directory.positive hit.mem removable.live).mp (.inr hit.found)
  have single := removable.single
  subst single
  cases before using List.reverseRecOn with
  | nil => exact absurd rfl removable.notFirst
  | append_singleton before prev =>
    rw [List.getLastD_concat] at fits written
    rw [List.append_assoc, List.singleton_append] at split
    rw [split] at firstBlock
    have firstBlock' := firstBlock_removed geometry firstBlock fits
    have formed := (wellFormed_removed geometry directory split fits).congr written
    have prev_goesOn := goesOn prev (List.mem_append_right _ (List.mem_singleton_self _))
    have resolves (other : Block) (result : Except Int Word) :
        Resolves state'.disk heap privdata inode request other result ↔
          result = resolved (removedDisk state.disk privdata inode prev offset) privdata inode other
            (before ++ prev :: behind) := by
      rw [(firstBlock'.congr written).resolves_iff geometry (granted request), firstBlock'.resolved_congr written]
    refine ⟨⟨0, directory.positive, offset, hit.mem, removable.live, named, lowered⟩, ?_, ?_, _, formed⟩
    · refine (resolves name _).mpr (Eq.symm ?_)
      refine resolved_removed_name geometry firstBlock fits ((directory.single_iff geometry).mpr rfl) ?_
      intro record among
      rcases List.mem_append.mp among with earlier | later
      · exact goesOn record (List.mem_append_left _ earlier)
      · rcases List.mem_cons.mp later with equal | later
        · rw [equal]
          exact prev_goesOn
        · exact removable.last record later
    · intro other otherText string' different result leads
      rw [firstBlock.resolves_iff geometry (granted request)] at leads
      rw [resolves, leads]
      refine (resolved_removed geometry firstBlock fits (fun corrupted => prev_goesOn (.inl corrupted)) ?_).symm
      intro decides
      have equal := (directory.decides_live string' directory.positive hit.mem removable.live).mp decides
      exact different (equal.symm.trans named)

end Directories

section Places

variable {state state' : Ext2State} {groups : Nat} {before behind : List Nat} {offset : Nat}

/-- The device with the record removed is otherwise as it was. -/
theorem removed_unchanged (sizes : sblock.sLogBlockSize.toNat ≤ 6)
    {found : List Nat} (firstBlock : FirstBlock disk (privdataOf sblock) inode found) (prev offset address : Nat)
    (outside : ¬ (firstBlockStart sblock inode ≤ address ∧
      address < firstBlockStart sblock inode + fsBlockSize sblock)) :
    removedDisk disk (privdataOf sblock) inode prev offset address = disk address := by
  rw [removedDisk, firstBlock.written (blockGeometry sizes), fsBlockSize_eq sizes]
  exact if_neg outside

/-- What is in the place of the first block is the first block. -/
theorem dirBlock_of_written (sizes : sblock.sLogBlockSize.toNat ≤ 6) {disk' : Disk}
    (written : ∀ address, firstBlockStart sblock inode ≤ address ∧
      address < firstBlockStart sblock inode + fsBlockSize sblock → disk' address = disk address) :
    ∀ i < (privdataOf sblock).blockSize.toNat,
      dirBlock disk' (privdataOf sblock) inode 0 i = dirBlock disk (privdataOf sblock) inode 0 i := by
  intro i inside
  change disk' ((privdataOf sblock).blockSize.toNat * (inode.iBlock 0).toNat + i) = disk (_ + i)
  rw [fsBlockSize_eq sizes] at inside ⊢
  exact written _ ⟨Nat.le_add_right _ _, Nat.add_lt_add_left inside _⟩

/-- A record that is removed in every case could be removed. -/
theorem removable_of_removed (onSystem : OnFileSystem sblock inode blocks records groups state)
    (directory : WellFormedDirectory state.disk (privdataOf sblock) inode blocks records) (string : CString name text)
    (hit : Hit state.disk (privdataOf sblock) inode name (records 0) before offset behind) {res : Int}
    (run : unlinkInode (uniformHeap 0#8) (privdataOf sblock)
      { state with disk := removedDisk state.disk (privdataOf sblock) inode (before.getLastD 0) offset } next
      (entryInode (dirBlock state.disk (privdataOf sblock) inode 0) offset) = some (res, state'))
    (removed : Removed sblock (uniformHeap 0#8) (privdataOf sblock) inode request blocks records name text state state') :
    Removable sblock (privdataOf sblock) inode blocks name state before offset behind := by
  obtain ⟨⟨k, within, live_offset, among, live, named, lowered⟩, gone, _, records', formed⟩ := removed
  have present := onSystem.present k within live_offset among live
  have unchanged := removed_unchanged onSystem.sizes directory.firstBlock (before.getLastD 0) offset
  obtain ⟨written, place⟩ := onSystem.written_of_lowered present unchanged (fun _ => rfl) run lowered
  obtain ⟨first, same, notFirst, single, last, fits⟩ := removed_hit (blockGeometry onSystem.sizes) directory string
    (fun _ => rfl) hit (dirBlock_of_written onSystem.sizes written) gone formed within among live named
  subst first same
  refine ⟨live, notFirst, single, last, fits, fun zero => ?_, fun absent => ?_⟩
  · rw [LinkLowered, zero] at lowered
    exact absurd lowered (Nat.succ_ne_zero _)
  · obtain ⟨within, address⟩ := place absent
    exact placed_of_codeAddress onSystem.wellFormed onSystem.geometry live present within
      ((onSystem.codeAddress_unchanged present unchanged _).symm.trans address)

/-- A record that can be removed is. -/
theorem removed_of_removable (onSystem : OnFileSystem sblock inode blocks records groups state)
    (directory : WellFormedDirectory state.disk (privdataOf sblock) inode blocks records) (string : CString name text)
    (granted : ∀ n, heap.grants n = true)
    (hit : Hit state.disk (privdataOf sblock) inode name (records 0) before offset behind)
    (removable : Removable sblock (privdataOf sblock) inode blocks name state before offset behind) :
    ∃ state', unlinkInode heap (privdataOf sblock)
        { state with disk := removedDisk state.disk (privdataOf sblock) inode (before.getLastD 0) offset } next
        (entryInode (dirBlock state.disk (privdataOf sblock) inode 0) offset) = some (0, state') ∧
      Removed sblock heap (privdataOf sblock) inode request blocks records name text state state' := by
  have present := onSystem.present 0 directory.positive offset hit.mem removable.live
  have unchanged := removed_unchanged onSystem.sizes directory.firstBlock (before.getLastD 0) offset
  obtain ⟨state', run, lowered, written⟩ := onSystem.lowered_of_placed present unchanged granted removable.live
    removable.placed removable.linked
  exact ⟨state', run, names_removed (blockGeometry onSystem.sizes) directory string granted hit removable
    (dirBlock_of_written onSystem.sizes written) lowered⟩

end Places

/-- **Unlink** is right, whatever the memory holds, exactly if it refuses what it should refuse by the type of the record
before, the record can be added to that, and the inode is found. -/
theorem unlink_iff {groups : Nat} (state : Ext2State) (onSystem : OnFileSystem sblock inode blocks records groups state)
    (directory : WellFormedDirectory state.disk (privdataOf sblock) inode blocks records) (string : CString name text) :
    (∀ heap : DirtyHeap, (∀ n, heap.grants n = true) →
      UnlinksRight sblock heap (privdataOf sblock) inode request next blocks records name text state) ↔
      UnlinkFits sblock (privdataOf sblock) inode blocks records name text state := by
  have geometry := blockGeometry onSystem.sizes
  have firstBlock := directory.firstBlock
  constructor
  · intro right
    obtain ⟨fuel, res, state', ran, refuses, removes⟩ := right (uniformHeap 0#8) fun _ => rfl
    obtain ⟨search, run, rest⟩ := Option.bind_eq_some_iff.mp ran
    rcases search_cases state.disk (privdataOf sblock) inode name (records 0) with
      ⟨before, offset, behind, hit⟩ | ⟨no_hit, failed⟩
    · refine .inr ⟨before, offset, behind, hit, ?_⟩
      rw [unlink_of_hit _ geometry (fun _ => rfl) firstBlock run hit] at ran
      by_cases type : fileType (dirBlock state.disk (privdataOf sblock) inode 0) (before.getLastD 0) = ext2FtDir
      · rw [if_pos type] at ran
        cases ran
        exact ⟨iff_of_true type (refuses.mp ⟨rfl, rfl⟩), fun other => absurd type other⟩
      · rw [if_neg type] at ran
        have zero : res = 0 := unlinkInode_zero (fun _ => rfl) ran
        refine ⟨iff_of_false type fun names => ?_, fun _ => ?_⟩
        · exact absurd ((refuses.mpr names).1.symm.trans zero) (by decide)
        · exact removable_of_removed onSystem directory string hit ran (removes zero)
    · refine .inl ⟨no_hit, fun names => ?_⟩
      have refused := (refuses.mpr names).1
      have found := (firstBlock.search name geometry rfl).2 fuel search run
      rcases failed with failed | failed <;>
      · rw [unlink_of_error run (found.trans failed)] at ran
        cases ran
        exact absurd refused (by decide)
  · intro fits heap granted
    obtain ⟨⟨fuel, search, run⟩, found⟩ := firstBlock.search name geometry (granted request)
    rcases fits with ⟨no_hit, notDirectory⟩ | ⟨before, offset, behind, hit, types, removable⟩
    · obtain ⟨_, failed⟩ :=
        (search_cases state.disk (privdataOf sblock) inode name (records 0)).resolve_left no_hit
      rcases failed with failed | failed <;>
      · refine ⟨fuel, _, state, unlink_of_error run ((found fuel search run).trans failed), ?_, ?_⟩
        · exact iff_of_false (fun both => absurd both.1 (by decide)) notDirectory
        · exact fun zero => absurd zero (by decide)
    · have outcome := unlink_of_hit next geometry granted firstBlock run hit
      by_cases type : fileType (dirBlock state.disk (privdataOf sblock) inode 0) (before.getLastD 0) = ext2FtDir
      · rw [if_pos type] at outcome
        refine ⟨fuel, _, state, outcome, iff_of_true ⟨rfl, rfl⟩ (types.mp type), ?_⟩
        exact fun zero => absurd zero (by decide)
      · rw [if_neg type] at outcome
        obtain ⟨ended, result, removed⟩ :=
          removed_of_removable onSystem directory string granted hit (removable type)
        refine ⟨fuel, 0, ended, outcome.trans result, ?_, fun _ => removed⟩
        exact iff_of_false (fun both => absurd both.1 (by decide)) (types.not.mp type)

end Unlink

section Sample

/-- The directory with two files in a file system of two groups, whose tables are the blocks 5 and 6; the files are the
inodes 11 and 12. -/
def filesDisk : Disk := fun address =>
  if address < 10240 then
    (([(1064, 8#8), (1080, 0x53#8), (1081, 0xEF#8), (1112, 128#8), (2056, 5#8), (2088, 6#8), (6426, 1#8), (6554, 1#8)] :
      List (Nat × Byte)).lookup address).getD 0#8
  else filesDirectory address

/-- Only the directory has a node. -/
def filesState : Ext2State :=
  ⟨filesDisk, fun id => if id = 2#32 then some ⟨1#32, some (sampleInode 1), false⟩ else none⟩

theorem files_directory : WellFormedDirectory filesDisk samplePrivdata (sampleInode 1) 1 fun _ => filesRecords 0 := by
  have start : samplePrivdata.blockSize.toNat * ((sampleInode 1).iBlock 0).toNat = 10240 := by decide
  refine files_wellFormed.congr fun i _ => ?_
  change filesDisk (samplePrivdata.blockSize.toNat * ((sampleInode 1).iBlock 0).toNat + i) = filesDirectory (_ + i)
  rw [start]
  exact if_neg (by omega)

theorem files_onFileSystem : OnFileSystem sampleSuperBlock (sampleInode 1) 1 filesRecords 2 filesState where
  wellFormed := ⟨by decide, by decide, by decide, by decide⟩
  geometry := ⟨rfl, by decide, by decide⟩
  sizes := by decide
  whole := by decide
  behind := by decide
  apart := by decide
  present := by decide
  held id node there := by
    change (if id = 2#32 then some (⟨1#32, some (sampleInode 1), false⟩ : Ext2Node) else none) = some node at there
    split at there
    · cases there
      exact ⟨by decide, by simp⟩
    · cases there

/-- `b` follows `a`, and is removed. -/
theorem second_file_unlinked : UnlinksRight sampleSuperBlock sampleHeap samplePrivdata (sampleInode 1) 0 1 1 filesRecords
    (letter 98#8) [98#8] filesState := by
  refine (unlink_iff filesState files_onFileSystem files_directory (letter_string (by decide))).mpr
    (.inr ⟨[0, 12, 24], 36, [], ?_, ?_, fun _ => ?_⟩) sampleHeap fun _ => rfl
  · exact ⟨rfl, by decide, by decide, by decide⟩
  · exact iff_of_false (by decide) (by decide)
  · refine ⟨by decide, by decide, rfl, List.forall_mem_nil _, by decide, by decide, fun _ => ?_⟩
    exact placed_of_found files_onFileSystem.wellFormed files_onFileSystem.geometry (by decide) (by decide) (by decide)

/-- `a` follows `..`, and is taken for a directory. -/
theorem first_file_kept : OnFileSystem sampleSuperBlock (sampleInode 1) 1 filesRecords 2 filesState ∧
    WellFormedDirectory filesState.disk samplePrivdata (sampleInode 1) 1 filesRecords ∧
    ¬ UnlinksRight sampleSuperBlock sampleHeap samplePrivdata (sampleInode 1) 0 1 1 filesRecords (letter 97#8) [97#8]
      filesState := by
  have geometry : BlockGeometry samplePrivdata := blockGeometry (by decide)
  have hit : Hit filesState.disk samplePrivdata (sampleInode 1) (letter 97#8) (filesRecords 0) [0, 12] 24 [36] :=
    ⟨rfl, by decide, by decide, by decide⟩
  refine ⟨files_onFileSystem, files_directory, ?_⟩
  rintro ⟨fuel, res, state', ran, refuses, _⟩
  obtain ⟨search, run, _⟩ := Option.bind_eq_some_iff.mp ran
  rw [unlink_of_hit _ geometry (fun _ => rfl) files_directory.firstBlock run hit, if_pos (by decide)] at ran
  cases ran
  exact absurd (refuses.mp ⟨rfl, rfl⟩) (by decide)

end Sample
end FluxOS.Ext2
