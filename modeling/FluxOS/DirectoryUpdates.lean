import FluxOS.DirectoryNames
import FluxOS.Ext2Update

/-! What the updates of a directory have in common: the record they find, the block they write, and what the names of
the directory lead to before and after. -/
namespace FluxOS.Ext2
open Words UserMemoryOps BlockDevice NetUtils

/-! ## The inodes that names lead to -/

/-- What is found in a block under a name, without the places. -/
def scanInodes (blockSize : Nat) (name block : Block) : List Nat → Option (Except Int Word)
  | [] => none
  | offset :: later =>
    if Corrupted blockSize block offset then some (.error (-eio))
    else if Matches name block offset then some (.ok (entryInode block offset))
    else scanInodes blockSize name block later

section Names

variable {blockSize : Nat} {name block buffer : Block}

theorem scanInodes_eq (prev : Nat) (records : List Nat) :
    scanInodes blockSize name block records =
      (scanRecords blockSize name block prev records).map (Except.map FoundEntry.inodeNumber) := by
  induction records generalizing prev with
  | nil => rfl
  | cons first records ih =>
    rw [scanInodes, scanRecords, ih first]
    split
    · rfl
    · split <;> rfl

/-- A name leads to the same inode where the records are as they were for the search. -/
theorem scanInodes_congr {records : List Nat}
    (corrupted : ∀ record ∈ records, Corrupted blockSize buffer record ↔ Corrupted blockSize block record)
    (found : ∀ record ∈ records, Matches name buffer record ↔ Matches name block record)
    (inode : ∀ record ∈ records, entryInode buffer record = entryInode block record) :
    scanInodes blockSize name buffer records = scanInodes blockSize name block records := by
  induction records with
  | nil => rfl
  | cons first records ih =>
    rw [List.forall_mem_cons] at corrupted found inode
    simp only [scanInodes, corrupted.1, found.1, inode.1, ih corrupted.2 found.2 inode.2]

/-- A search looks at the records alone. -/
theorem scanInodes_buffer (same : ∀ i < blockSize, buffer i = block i) {offset : Nat} {records : List Nat}
    (tiled : Tiled blockSize block offset records) :
    scanInodes blockSize name buffer records = scanInodes blockSize name block records := by
  rw [scanInodes_eq 0, scanInodes_eq 0, scanRecords_congr same tiled]

theorem scanInodes_append (before later : List Nat) :
    scanInodes blockSize name block (before ++ later) =
      (scanInodes blockSize name block before).or (scanInodes blockSize name block later) := by
  induction before with
  | nil => rfl
  | cons first before ih =>
    rw [List.cons_append, scanInodes, scanInodes, ih]
    split
    · rfl
    · split <;> rfl

/-- A record that does not decide can be left out. -/
theorem scanInodes_without {record : Nat} (goesOn : ¬ Decides blockSize name block record) (before behind : List Nat) :
    scanInodes blockSize name block (before ++ record :: behind) = scanInodes blockSize name block (before ++ behind) := by
  obtain ⟨sound, other⟩ := not_or.mp goesOn
  induction before with
  | nil => rw [List.nil_append, List.nil_append, scanInodes, if_neg sound, if_neg other]
  | cons first before ih => rw [List.cons_append, List.cons_append, scanInodes, scanInodes, ih]

theorem scanInodes_eq_none_iff {records : List Nat} :
    scanInodes blockSize name block records = none ↔ ∀ record ∈ records, ¬ Decides blockSize name block record := by
  rw [scanInodes_eq 0, Option.map_eq_none_iff, scanRecords_eq_none_iff]

theorem scanInodes_append_of_goesOn {before : List Nat}
    (goesOn : ∀ other ∈ before, ¬ Decides blockSize name block other) (later : List Nat) :
    scanInodes blockSize name block (before ++ later) = scanInodes blockSize name block later := by
  rw [scanInodes_append, scanInodes_eq_none_iff.mpr goesOn, Option.none_or]

/-- An inode that is found is that of a record with the name. -/
theorem mem_of_scanInodes {records : List Nat} {id : Word}
    (scan : scanInodes blockSize name block records = some (.ok id)) :
    ∃ record ∈ records, Matches name block record ∧ entryInode block record = id := by
  induction records with
  | nil => cases scan
  | cons first records ih =>
    rw [scanInodes] at scan
    by_cases corrupted : Corrupted blockSize block first
    · rw [if_pos corrupted] at scan
      cases scan
    rw [if_neg corrupted] at scan
    by_cases found : Matches name block first
    · rw [if_pos found] at scan
      cases scan
      exact ⟨first, List.mem_cons_self, found, rfl⟩
    · rw [if_neg found] at scan
      obtain ⟨record, among, found⟩ := ih scan
      exact ⟨record, List.mem_cons_of_mem _ among, found⟩

theorem scanInodes_ne_enoent {records : List Nat} {result : Except Int Word}
    (scan : scanInodes blockSize name block records = some result) : result ≠ .error (-enoent) := by
  induction records with
  | nil => cases scan
  | cons first records ih =>
    rw [scanInodes] at scan
    split at scan
    · cases scan
      decide
    · split at scan
      · cases scan
        exact fun same => by cases same
      · exact ih scan

end Names

section Lookups

variable (disk : Disk) (heap : DirtyHeap) (privdata : Ext2Privdata) (inode : Ext2Inode) (request : Nat)

/-- A lookup of the name ends, with the number of the inode or the error. -/
def Resolves (name : Block) (result : Except Int Word) : Prop :=
  ∃ fuel search, findDirectoryEntry disk heap privdata fuel inode name request = some search ∧
    search.result.map FoundEntry.inodeNumber = result

/-- What a lookup gives where these are the records of the first block. -/
def resolved (name : Block) (records : List Nat) : Except Int Word :=
  (scanInodes privdata.blockSize.toNat name (dirBlock disk privdata inode 0) records).getD
    (.error (if inode.iSize.toNat ≤ privdata.blockSize.toNat then -enoent else -eio))

variable {disk heap privdata inode request} {name : Block} {records : List Nat}

theorem searchRecords_inode : (searchRecords disk privdata inode name records).map FoundEntry.inodeNumber =
    resolved disk privdata inode name records := by
  rw [searchRecords, resolved, scanInodes_eq 0]
  cases scanRecords privdata.blockSize.toNat name (dirBlock disk privdata inode 0) 0 records <;> rfl

/-- A lookup gives one result. -/
theorem FirstBlock.resolves_iff (geometry : BlockGeometry privdata) (firstBlock : FirstBlock disk privdata inode records)
    (granted : heap.grants request = true) {result : Except Int Word} :
    Resolves disk heap privdata inode request name result ↔ result = resolved disk privdata inode name records := by
  obtain ⟨⟨fuel, search, run⟩, all⟩ := firstBlock.search name geometry granted
  rw [← searchRecords_inode]
  constructor
  · rintro ⟨fuel, search, run, rfl⟩
    rw [all fuel search run]
  · rintro rfl
    exact ⟨fuel, search, run, by rw [all fuel search run]⟩

theorem resolved_ok_iff {id : Word} : resolved disk privdata inode name records = .ok id ↔
    scanInodes privdata.blockSize.toNat name (dirBlock disk privdata inode 0) records = some (.ok id) := by
  rw [resolved]
  cases scanInodes privdata.blockSize.toNat name (dirBlock disk privdata inode 0) records with
  | none =>
    rw [Option.getD_none]
    split <;> simp
  | some result => simp

/-- `ENOENT` is for a directory of one block of which no record decides. -/
theorem resolved_enoent_iff : resolved disk privdata inode name records = .error (-enoent) ↔
    inode.iSize.toNat ≤ privdata.blockSize.toNat ∧
      ∀ record ∈ records, ¬ Decides privdata.blockSize.toNat name (dirBlock disk privdata inode 0) record := by
  rw [resolved, ← scanInodes_eq_none_iff]
  cases scan : scanInodes privdata.blockSize.toNat name (dirBlock disk privdata inode 0) records with
  | none =>
    rw [Option.getD_none]
    split
    · rename_i single
      exact ⟨fun _ => ⟨single, rfl⟩, fun _ => rfl⟩
    · rename_i several
      refine ⟨fun same => ?_, fun both => absurd both.1 several⟩
      exact absurd (Except.error.inj same) (by decide)
  | some result =>
    refine ⟨fun same => ?_, fun both => absurd both.2 (Option.some_ne_none _)⟩
    exact absurd same (scanInodes_ne_enoent scan)

end Lookups

/-! ## The record that is found -/

section Hits

variable (disk : Disk) (privdata : Ext2Privdata) (inode : Ext2Inode) (name : Block)

/-- The first record at which a search returns has the name, and is not refused. -/
structure Hit (records before : List Nat) (offset : Nat) (behind : List Nat) : Prop where
  split : records = before ++ offset :: behind
  goesOn : ∀ other ∈ before, ¬ Decides privdata.blockSize.toNat name (dirBlock disk privdata inode 0) other
  sound : ¬ Corrupted privdata.blockSize.toNat (dirBlock disk privdata inode 0) offset
  found : Matches name (dirBlock disk privdata inode 0) offset

/-- What is stored about it. -/
def hitEntry (before : List Nat) (offset : Nat) : FoundEntry :=
  ⟨entryInode (dirBlock disk privdata inode 0) offset, offset, before.getLastD 0,
    offset + recLen (dirBlock disk privdata inode 0) offset, offset⟩

variable {disk privdata inode name} {records before behind : List Nat} {offset : Nat}

theorem Hit.search (hit : Hit disk privdata inode name records before offset behind) :
    searchRecords disk privdata inode name records = .ok (hitEntry disk privdata inode before offset) := by
  rw [searchRecords, hit.split, scanRecords_append hit.goesOn, scanRecords, if_neg hit.sound, if_pos hit.found]
  rfl

theorem Hit.mem (hit : Hit disk privdata inode name records before offset behind) : offset ∈ records := by
  rw [hit.split]
  exact List.mem_append_right _ List.mem_cons_self

/-- A search that finds no such record gives an error. -/
theorem search_cases (disk : Disk) (privdata : Ext2Privdata) (inode : Ext2Inode) (name : Block) (records : List Nat) :
    (∃ before offset behind, Hit disk privdata inode name records before offset behind) ∨
      (¬ ∃ before offset behind, Hit disk privdata inode name records before offset behind) ∧
        (searchRecords disk privdata inode name records = .error (-eio) ∨
          searchRecords disk privdata inode name records = .error (-enoent)) := by
  by_cases some_hit : ∃ before offset behind, Hit disk privdata inode name records before offset behind
  · exact .inl some_hit
  refine .inr ⟨some_hit, ?_⟩
  rcases exists_first_decides name (dirBlock disk privdata inode 0) records with
    ⟨before, offset, behind, split, decides, goesOn⟩ | goesOn
  · by_cases corrupted : Corrupted privdata.blockSize.toNat (dirBlock disk privdata inode 0) offset
    · left
      rw [searchRecords, split, scanRecords_append goesOn, scanRecords, if_pos corrupted]
      rfl
    · exact absurd ⟨before, offset, behind, split, goesOn, corrupted, decides.resolve_left corrupted⟩ some_hit
  · rw [searchRecords, scanRecords_eq_none_iff.mpr goesOn, Option.getD_none]
    split
    · exact .inr rfl
    · exact .inl rfl

end Hits

/-! ## The block that is written -/

section Writes

variable {disk : Disk} {heap : DirtyHeap} {privdata : Ext2Privdata} {inode : Ext2Inode} {records : List Nat}
variable {block buffer : Block}

/-- The buffer holds the first block. -/
theorem FirstBlock.buffered (geometry : BlockGeometry privdata) (firstBlock : FirstBlock disk privdata inode records)
    (fuel : Nat) {next : Nat} (granted : heap.grants next = true) :
    ∃ buffer, firstBlockBuffer heap privdata fuel inode next disk = some (buffer, next + 1) ∧
      ∀ i < privdata.blockSize.toNat, buffer i = dirBlock disk privdata inode 0 i := by
  obtain ⟨read, first, _, request, same⟩ := firstBlock.readFirst geometry heap next
  refine ⟨bufferOf read, ?_, same⟩
  rw [Ext2.readFirst, readData_first geometry, ← readData_first geometry fuel] at first
  rw [firstBlockBuffer, if_pos granted, first, Option.map_some, request]
  rfl

/-- Where the first block lies. -/
theorem FirstBlock.address (geometry : BlockGeometry privdata) (firstBlock : FirstBlock disk privdata inode records) :
    sectorSize * (inode.iBlock 0 <<< privdata.diskBlockLog).toNat = privdata.blockSize.toNat * (inode.iBlock 0).toNat := by
  rw [BitVec.shiftLeft_eq', BitVec.toNat_shiftLeft, Nat.shiftLeft_eq, Nat.mod_eq_of_lt firstBlock.addressable,
    ← geometry.log]
  ring

/-- What is written is the first block, and nothing else. -/
theorem FirstBlock.written (geometry : BlockGeometry privdata) (firstBlock : FirstBlock disk privdata inode records)
    (block : Block) (address : Nat) : writeFirstBlock privdata inode disk block address =
      if privdata.blockSize.toNat * (inode.iBlock 0).toNat ≤ address ∧
          address < privdata.blockSize.toNat * (inode.iBlock 0).toNat + privdata.blockSize.toNat
      then block (address - privdata.blockSize.toNat * (inode.iBlock 0).toNat) else disk address := by
  rw [writeFirstBlock, writeBlock, firstBlock.address geometry, geometry.sectors]

theorem FirstBlock.written_congr (geometry : BlockGeometry privdata) (firstBlock : FirstBlock disk privdata inode records)
    (same : ∀ i < privdata.blockSize.toNat, buffer i = block i) :
    writeFirstBlock privdata inode disk buffer = writeFirstBlock privdata inode disk block := by
  funext address
  rw [firstBlock.written geometry, firstBlock.written geometry]
  split
  · exact same _ (by omega)
  · rfl

/-- The first block afterwards. -/
theorem FirstBlock.dirBlock_written (geometry : BlockGeometry privdata)
    (firstBlock : FirstBlock disk privdata inode records) :
    ∀ i < privdata.blockSize.toNat, dirBlock (writeFirstBlock privdata inode disk block) privdata inode 0 i = block i := by
  intro i inside
  change writeFirstBlock privdata inode disk block (privdata.blockSize.toNat * (inode.iBlock 0).toNat + i) = block i
  rw [firstBlock.written geometry, if_pos (by omega), Nat.add_sub_cancel_left]

/-- It is the first block of the directory again, with the records it has now. -/
theorem FirstBlock.after (geometry : BlockGeometry privdata) (firstBlock : FirstBlock disk privdata inode records)
    {records' : List Nat} (tiled : Tiled privdata.blockSize.toNat block 0 records') :
    FirstBlock (writeFirstBlock privdata inode disk block) privdata inode records' where
  directory := firstBlock.directory
  large := firstBlock.large
  stored := firstBlock.stored
  addressable := firstBlock.addressable
  tiled := tiled.congr (firstBlock.dirBlock_written geometry)

/-- The first block is read off its bytes. -/
theorem FirstBlock.congr {disk' : Disk} (firstBlock : FirstBlock disk privdata inode records)
    (same : ∀ i < privdata.blockSize.toNat, dirBlock disk' privdata inode 0 i = dirBlock disk privdata inode 0 i) :
    FirstBlock disk' privdata inode records where
  directory := firstBlock.directory
  large := firstBlock.large
  stored := firstBlock.stored
  addressable := firstBlock.addressable
  tiled := firstBlock.tiled.congr same

theorem FirstBlock.resolved_congr {disk' : Disk} (firstBlock : FirstBlock disk privdata inode records)
    (same : ∀ i < privdata.blockSize.toNat, dirBlock disk' privdata inode 0 i = dirBlock disk privdata inode 0 i)
    {name : Block} : resolved disk' privdata inode name records = resolved disk privdata inode name records := by
  rw [resolved, resolved, scanInodes_buffer same firstBlock.tiled]

end Writes

/-! ## Records -/

section Tiles

variable {blockSize : Nat} {block buffer : Block}

/-- The offsets of the records are read off the block. -/
theorem Tiled.unique {offset : Nat} {records records' : List Nat} (tiled : Tiled blockSize block offset records)
    (tiled' : Tiled blockSize block offset records') : records' = records := by
  induction tiled generalizing records' with
  | nil =>
    cases tiled' with
    | nil => rfl
    | cons before => exact absurd before (Nat.lt_irrefl _)
  | @cons offset later before long aligned rest ih =>
    cases tiled' with
    | nil => exact absurd before (Nat.lt_irrefl _)
    | cons _ _ _ rest' => rw [ih rest']

theorem Tiled.start_le {start : Nat} {records : List Nat} (tiled : Tiled blockSize block start records) :
    ∀ record ∈ records, start ≤ record := by
  induction tiled with
  | nil => exact List.forall_mem_nil _
  | @cons start later inside long aligned rest ih =>
    refine List.forall_mem_cons.mpr ⟨le_rfl, fun record among => ?_⟩
    have behind := ih record among
    omega

/-- The records from one of them on, and where those before it lie. -/
theorem Tiled.split {start offset : Nat} {before behind : List Nat}
    (tiled : Tiled blockSize block start (before ++ offset :: behind)) :
    Tiled blockSize block offset (offset :: behind) ∧ start ≤ offset ∧
      ∀ record ∈ before, start ≤ record ∧ record + recLen block record ≤ offset := by
  induction before generalizing start with
  | nil =>
    cases tiled with
    | cons before long aligned rest => exact ⟨.cons before long aligned rest, le_rfl, List.forall_mem_nil _⟩
  | cons first before ih =>
    cases tiled with
    | cons start_lt long aligned rest =>
      obtain ⟨from_offset, after, inside⟩ := ih rest
      refine ⟨from_offset, by omega, List.forall_mem_cons.mpr ⟨⟨le_rfl, after⟩, fun record among => ?_⟩⟩
      obtain ⟨behind_first, ends⟩ := inside record among
      exact ⟨by omega, ends⟩

/-- No two records begin at one place. -/
theorem Tiled.not_mem {start offset : Nat} {before behind : List Nat}
    (tiled : Tiled blockSize block start (before ++ offset :: behind)) : offset ∉ before ∧ offset ∉ behind := by
  have long := (tiled.bounds offset (List.mem_append_right _ List.mem_cons_self)).2
  obtain ⟨from_offset, _, inside⟩ := tiled.split
  constructor
  · intro earlier
    have ends := (inside offset earlier).2
    omega
  · intro later
    cases from_offset with
    | cons _ _ _ rest =>
      have starts := rest.start_le offset later
      omega

/-- The records before one of them stay, with any records from it on. -/
theorem Tiled.replace {start offset : Nat} {before behind behind' : List Nat}
    (tiled : Tiled blockSize block start (before ++ offset :: behind))
    (length : ∀ record ∈ before, recLen buffer record = recLen block record)
    (name : ∀ record ∈ before, nameLen buffer record = nameLen block record)
    (tiled' : Tiled blockSize buffer offset behind') : Tiled blockSize buffer start (before ++ behind') := by
  induction before generalizing start with
  | nil =>
    cases tiled
    exact tiled'
  | cons first before ih =>
    rw [List.forall_mem_cons] at length name
    cases tiled with
    | cons start_lt long aligned rest =>
      refine .cons start_lt ?_ ?_ ?_
      · rw [length.1, name.1]
        exact long
      · rw [length.1]
        exact aligned
      · rw [length.1]
        exact ih rest length.2 name.2

/-- Records stay where the fields of their headers do. -/
theorem Tiled.congr_fields {offset : Nat} {records : List Nat} (tiled : Tiled blockSize block offset records)
    (length : ∀ record ∈ records, recLen buffer record = recLen block record)
    (name : ∀ record ∈ records, nameLen buffer record = nameLen block record) :
    Tiled blockSize buffer offset records := by
  induction tiled with
  | nil => exact .nil
  | @cons offset later before long aligned rest ih =>
    rw [List.forall_mem_cons] at length name
    refine .cons before ?_ ?_ ?_
    · rw [length.1, name.1]
      exact long
    · rw [length.1]
      exact aligned
    · rw [length.1]
      exact ih length.2 name.2

end Tiles

/-- A record has all that it had but its length. -/
structure SameEntry (block buffer : Block) (offset : Nat) : Prop where
  inode : entryInode buffer offset = entryInode block offset
  length : nameLen buffer offset = nameLen block offset
  type : fileType buffer offset = fileType block offset
  bytes : ∀ i < nameLen block offset, nameBytes buffer offset i = nameBytes block offset i

theorem sameEntry_of_block {blockSize offset : Nat} {block buffer : Block} (same : ∀ i < blockSize, buffer i = block i)
    (inside : offset + 8 + nameLen block offset ≤ blockSize) : SameEntry block buffer offset where
  inode := le32_congr _ fun i bound => same _ (by omega)
  length := nameLen_congr same (by omega)
  type := by rw [fileType, fileType, same _ (by omega)]
  bytes i bound := same _ (by omega)

section Entries

variable {blockSize : Nat} {name block buffer : Block} {offset : Nat} (same : SameEntry block buffer offset)

include same

theorem SameEntry.trans {later : Block} (same' : SameEntry buffer later offset) : SameEntry block later offset where
  inode := same'.inode.trans same.inode
  length := same'.length.trans same.length
  type := same'.type.trans same.type
  bytes i bound := (same'.bytes i (same.length ▸ bound)).trans (same.bytes i bound)

theorem SameEntry.matches_iff : Matches name buffer offset ↔ Matches name block offset := by
  rw [Matches, Matches, same.length, strncmp_congr same.bytes]

theorem SameEntry.live_iff : Live buffer offset ↔ Live block offset := by
  rw [Live, Live, same.inode]

theorem SameEntry.entryName : entryName buffer offset = entryName block offset := by
  rw [Ext2.entryName, Ext2.entryName, same.length]
  exact List.map_congr_left fun i among => same.bytes i (List.mem_range.mp among)

theorem SameEntry.corrupted_iff (length : recLen buffer offset = recLen block offset) :
    Corrupted blockSize buffer offset ↔ Corrupted blockSize block offset := by
  rw [Corrupted, Corrupted, length, same.length, same.type]

theorem SameEntry.decides_iff (length : recLen buffer offset = recLen block offset) :
    Decides blockSize name buffer offset ↔ Decides blockSize name block offset := by
  rw [Decides, Decides, same.corrupted_iff length, same.matches_iff]

/-- A longer record is as well formed, if it is inside. -/
theorem SameEntry.wellFormed (formed : WellFormedEntry blockSize block offset)
    (long : recLen block offset ≤ recLen buffer offset) (inside : offset + recLen buffer offset ≤ blockSize) :
    WellFormedEntry blockSize buffer offset where
  aligned := formed.aligned
  long := by
    have before := formed.long
    rw [same.length]
    omega
  inside := inside
  named := by
    rw [same.length]
    exact formed.named
  type := by
    rw [same.type]
    exact formed.type
  text := by
    rw [same.entryName]
    exact formed.text

end Entries

/-! ## A directory with two files -/

section Sample

/-- `.`, `..`, `a` and `b` in the block 10. -/
def filesDirectory : Disk := fun address =>
  (([(10240, 2#8), (10244, 12#8), (10246, 1#8), (10247, 2#8), (10248, 46#8),
    (10252, 2#8), (10256, 12#8), (10258, 2#8), (10259, 2#8), (10260, 46#8), (10261, 46#8),
    (10264, 11#8), (10268, 12#8), (10270, 1#8), (10271, 1#8), (10272, 97#8),
    (10276, 12#8), (10280, 0xdc#8), (10281, 3#8), (10282, 1#8), (10283, 1#8), (10284, 98#8)] :
      List (Nat × Byte)).lookup address).getD 0#8

def filesRecords (_ : Nat) : List Nat := [0, 12, 24, 36]

abbrev filesBlock : Block := dirBlock filesDirectory samplePrivdata (sampleInode 1) 0

theorem files_wellFormed :
    WellFormedDirectory filesDirectory samplePrivdata (sampleInode 1) 1 filesRecords := by
  obtain ⟨directory, size, positive, stored, _⟩ := sample_fields 1 (by decide)
  have entries : ∀ offset ∈ filesRecords 0, offset % 4 = 0 ∧
      nameLen filesBlock offset + 8 ≤ recLen filesBlock offset ∧ offset + recLen filesBlock offset ≤ 1024 ∧
      nameLen filesBlock offset ≠ 0 ∧ fileType filesBlock offset ≤ ext2FtSymlink ∧ 0#8 ∉ entryName filesBlock offset := by
    decide
  have names : ∀ offset ∈ filesRecords 0, ∀ offset' ∈ filesRecords 0,
      entryName filesBlock offset = entryName filesBlock offset' → offset = offset' := by
    decide
  refine ⟨directory, size, positive, stored, by decide, ?_, ?_, ?_⟩
  · intro k inside
    cases Nat.lt_one_iff.mp inside
    exact .cons (by decide) (by decide) (by decide) (.cons (by decide) (by decide) (by decide)
      (.cons (by decide) (by decide) (by decide) (.cons (by decide) (by decide) (by decide) .nil)))
  · intro k inside offset among _
    cases Nat.lt_one_iff.mp inside
    obtain ⟨aligned, long, inside, named, type, text⟩ := entries offset among
    exact ⟨aligned, long, inside, named, type, text⟩
  · intro k inside offset among k' inside' offset' among' _ _ same
    cases Nat.lt_one_iff.mp inside
    cases Nat.lt_one_iff.mp inside'
    exact ⟨rfl, names offset among offset' among' same⟩

end Sample

end FluxOS.Ext2
