import FluxOS.DirectoryLookup

/-! The records of an ext2 directory, and what a search returns that goes through those of the first block. -/
namespace FluxOS.Ext2
open Words UserMemoryOps BlockDevice

/-! ## Names -/

section Names

variable {name other block : Block} {text : List Byte}

/-- `strncmp` against bytes that do not end a string. -/
theorem strncmp_iff {n : Nat} (bytes : ∀ i < n, other i ≠ 0#8) :
    strncmp name other n = true ↔ ∀ i < n, name i = other i := by
  induction n generalizing name other with
  | zero => exact ⟨fun _ i inside => absurd inside (Nat.not_lt_zero i), fun _ => rfl⟩
  | succ n ih =>
    have rest := @ih (fun i => name (i + 1)) (fun i => other (i + 1)) fun i inside => bytes (i + 1) (by omega)
    rw [strncmp]
    by_cases first : name 0 = other 0
    · have goesOn : name 0 ≠ 0#8 := first ▸ bytes 0 (by omega)
      rw [if_neg (not_not.mpr first), if_neg goesOn, rest]
      constructor
      · intro same i inside
        cases i with
        | zero => exact first
        | succ i => exact same i (by omega)
      · exact fun same i inside => same (i + 1) (by omega)
    · rw [if_pos first]
      exact ⟨fun no => absurd no (by decide), fun same => absurd (same 0 (by omega)) first⟩

/-- Only the bytes of the name of the record are compared. -/
theorem strncmp_congr {bytes : Block} {n : Nat} (same : ∀ i < n, other i = bytes i) :
    strncmp name other n = strncmp name bytes n := by
  induction n generalizing name other bytes with
  | zero => rfl
  | succ n ih =>
    rw [strncmp, strncmp, same 0 (by omega), ih fun i inside => same (i + 1) (by omega)]

theorem entryName_length (block : Block) (offset : Nat) : (entryName block offset).length = nameLen block offset := by
  rw [entryName, List.length_map, List.length_range]

theorem entryName_getElem {offset i : Nat} (inside : i < (entryName block offset).length) :
    (entryName block offset)[i] = nameBytes block offset i := by
  simp only [entryName, List.getElem_map, List.getElem_range]

/-- A record without zeros in its name matches exactly that name. -/
theorem matches_iff (string : CString name text) {offset : Nat} (clean : 0#8 ∉ entryName block offset) :
    Matches name block offset ↔ entryName block offset = text := by
  have length := entryName_length block offset
  have bytes : ∀ i < nameLen block offset, nameBytes block offset i ≠ 0#8 := by
    intro i inside zero
    exact clean (List.mem_map.mpr ⟨i, List.mem_range.mpr inside, zero⟩)
  rw [Matches, strncmp_iff bytes]
  constructor
  · rintro ⟨same, ends⟩
    have long : nameLen block offset ≤ text.length := by
      by_contra short
      have zero := string.ends
      rw [same _ (by omega)] at zero
      exact bytes _ (by omega) zero
    have short : text.length ≤ nameLen block offset := by
      by_contra longer
      have byte := string.bytes (nameLen block offset) (by omega)
      rw [ends] at byte
      exact string.text (byte ▸ List.getElem_mem _)
    refine List.ext_getElem (by omega) fun i inside inside' => ?_
    rw [entryName_getElem, ← same i (by omega), string.bytes i inside']
  · intro same
    have size : nameLen block offset = text.length := by rw [← length, same]
    refine ⟨fun i inside => ?_, by rw [size]; exact string.ends⟩
    rw [string.bytes i (by omega), ← entryName_getElem (by omega)]
    simp only [same]

end Names

/-! ## Directories -/

section Layout

variable (disk : Disk) (privdata : Ext2Privdata) (inode : Ext2Inode)

/-- An entry of a block of block numbers. -/
def tableEntry (number : Word) (k : Nat) : Word :=
  le32 (fun i => disk (privdata.blockSize.toNat * number.toNat + i)) (4 * k)

/-- The number of a block of a file. -/
def blockNumber (k : Nat) : Word :=
  let entries := privdata.blockSize.toNat / 4
  if k < 12 then inode.iBlock k
  else if k < 12 + entries then tableEntry disk privdata (inode.iBlock 12) (k - 12)
  else if k < 12 + entries + entries * entries then
    let k := k - 12 - entries
    tableEntry disk privdata (tableEntry disk privdata (inode.iBlock 13) (k / entries)) (k % entries)
  else
    let k := k - 12 - entries - entries * entries
    let double := tableEntry disk privdata (inode.iBlock 14) (k / (entries * entries))
    tableEntry disk privdata (tableEntry disk privdata double (k % (entries * entries) / entries)) (k % entries)

def dirBlock (k : Nat) : Block := fun i =>
  disk (privdata.blockSize.toNat * (blockNumber disk privdata inode k).toNat + i)

/-- A record that is in use. -/
def Live (block : Block) (offset : Nat) : Prop := entryInode block offset ≠ 0#32

instance (block : Block) (offset : Nat) : Decidable (Live block offset) := inferInstanceAs (Decidable (_ ≠ _))

/-- A directory of so many blocks, with the offsets of the records in each of them. -/
structure WellFormedDirectory (blocks : Nat) (records : Nat → List Nat) : Prop where
  directory : VFS.sIsdir (inode.iMode.setWidth 32) = true
  size : inode.iSize.toNat = blocks * privdata.blockSize.toNat
  positive : 0 < blocks
  stored : inode.iBlocks ≠ 0#32
  addressable : ∀ k < blocks, (blockNumber disk privdata inode k).toNat * 2 ^ privdata.diskBlockLog.toNat < 2 ^ 32
  tiled : ∀ k < blocks, Tiled privdata.blockSize.toNat (dirBlock disk privdata inode k) 0 (records k)
  live : ∀ k < blocks, ∀ offset ∈ records k, Live (dirBlock disk privdata inode k) offset →
    WellFormedEntry privdata.blockSize.toNat (dirBlock disk privdata inode k) offset
  unique : ∀ k < blocks, ∀ offset ∈ records k, ∀ k' < blocks, ∀ offset' ∈ records k',
    Live (dirBlock disk privdata inode k) offset → Live (dirBlock disk privdata inode k') offset' →
      entryName (dirBlock disk privdata inode k) offset = entryName (dirBlock disk privdata inode k') offset' →
        k = k' ∧ offset = offset'

/-- The inode of the live record with the name, and `ENOENT` where there is none. -/
def Finds (blocks : Nat) (records : Nat → List Nat) (text : List Byte) (result : Except Int FoundEntry) : Prop :=
  (∀ k < blocks, ∀ offset ∈ records k, Live (dirBlock disk privdata inode k) offset →
    entryName (dirBlock disk privdata inode k) offset = text →
      ∃ found, result = .ok found ∧ found.inodeNumber = entryInode (dirBlock disk privdata inode k) offset) ∧
  ((∀ k < blocks, ∀ offset ∈ records k, Live (dirBlock disk privdata inode k) offset →
    entryName (dirBlock disk privdata inode k) offset ≠ text) → result = .error (-enoent))

/-- There is memory for a block, and of the records of the first block that are refused or match, the first is in use; or
there is no such record, and no further block. -/
def FirstBlockKnows (heap : DirtyHeap) (request : Nat) (name : Block) (blocks : Nat) (records : Nat → List Nat) : Prop :=
  heap.grants request = true ∧
    ((∃ before offset behind, records 0 = before ++ offset :: behind ∧ Live (dirBlock disk privdata inode 0) offset ∧
        Decides privdata.blockSize.toNat name (dirBlock disk privdata inode 0) offset ∧
        ∀ other ∈ before, ¬ Decides privdata.blockSize.toNat name (dirBlock disk privdata inode 0) other) ∨
      blocks = 1 ∧ ∀ offset ∈ records 0, ¬ Decides privdata.blockSize.toNat name (dirBlock disk privdata inode 0) offset)

end Layout

/-! ## The records of a block -/

section Records

variable {blockSize : Nat} {availBytes : Word} {name block buffer : Block}

theorem WellFormedEntry.sound {offset : Nat} (formed : WellFormedEntry blockSize block offset) :
    ¬ Corrupted blockSize block offset := by
  simp only [Corrupted, not_or, not_lt, ne_eq, not_not]
  exact ⟨formed.aligned, formed.long, formed.inside, formed.named, formed.type⟩

theorem Tiled.bounds {offset : Nat} {records : List Nat} (tiled : Tiled blockSize block offset records) :
    ∀ record ∈ records, record + recLen block record ≤ blockSize ∧ nameLen block record + 8 ≤ recLen block record := by
  induction tiled with
  | nil => exact List.forall_mem_nil _
  | @cons offset later before long aligned rest ih =>
    intro record among
    rcases List.mem_cons.mp among with rfl | among
    · refine ⟨?_, long⟩
      cases rest with
      | nil => exact le_rfl
      | cons before => exact Nat.le_of_lt before
    · exact ih record among

theorem Tiled.ends {offset : Nat} (tiled : Tiled blockSize block offset []) : offset = blockSize := by
  cases tiled
  rfl

theorem Tiled.passes {offset record : Nat} {before behind : List Nat}
    (tiled : Tiled blockSize block offset (before ++ record :: behind)) (whole : availBytes.toNat = blockSize)
    (goesOn : ∀ other ∈ before, ¬ Decides blockSize name block other) :
    Passes blockSize availBytes name block offset record := by
  induction before generalizing offset with
  | nil =>
    cases tiled
    exact .here _
  | cons first before ih =>
    cases tiled with
    | cons start long aligned rest =>
      refine .step (goesOn _ List.mem_cons_self) ?_ (ih rest fun other among => goesOn other (List.mem_cons_of_mem _ among))
      rw [whole]
      cases before with
      | nil => cases rest; assumption
      | cons => cases rest; assumption

/-- Records that do not decide lead to the last of them. -/
theorem Tiled.last {offset : Nat} {records : List Nat} (tiled : Tiled blockSize block offset records)
    (some_record : records ≠ []) :
    ∃ before record, records = before ++ [record] ∧ record + recLen block record = blockSize := by
  induction tiled with
  | nil => exact absurd rfl some_record
  | @cons offset later before long aligned rest ih =>
    cases rest with
    | nil => exact ⟨[], offset, rfl, rfl⟩
    | cons =>
      obtain ⟨before, record, split, ends⟩ := ih (List.cons_ne_nil _ _)
      exact ⟨offset :: before, record, by rw [split]; rfl, ends⟩

/-- The first record that decides. -/
theorem exists_first_decides (name block : Block) (records : List Nat) :
    (∃ before record behind, records = before ++ record :: behind ∧ Decides blockSize name block record ∧
      ∀ other ∈ before, ¬ Decides blockSize name block other) ∨
    ∀ record ∈ records, ¬ Decides blockSize name block record := by
  induction records with
  | nil => exact .inr (List.forall_mem_nil _)
  | cons first records ih =>
    by_cases decides : Decides blockSize name block first
    · exact .inl ⟨[], first, records, rfl, decides, List.forall_mem_nil _⟩
    · rcases ih with ⟨before, record, behind, rfl, found, goesOn⟩ | goesOn
      · exact .inl ⟨first :: before, record, behind, rfl, found, List.forall_mem_cons.mpr ⟨decides, goesOn⟩⟩
      · exact .inr (List.forall_mem_cons.mpr ⟨decides, goesOn⟩)

section Congruence

variable (same : ∀ i < blockSize, buffer i = block i) {offset : Nat}

include same

theorem recLen_congr (inside : offset + 8 ≤ blockSize) : recLen buffer offset = recLen block offset := by
  rw [recLen, recLen, le16, le16, same _ (by omega), same _ (by omega)]

theorem nameLen_congr (inside : offset + 8 ≤ blockSize) : nameLen buffer offset = nameLen block offset := by
  rw [nameLen, nameLen, same _ (by omega)]

theorem corrupted_congr (inside : offset + 8 ≤ blockSize) :
    Corrupted blockSize buffer offset ↔ Corrupted blockSize block offset := by
  rw [Corrupted, Corrupted, recLen_congr same inside, nameLen_congr same inside, fileType, fileType, same _ (by omega)]

theorem matches_congr (inside : offset + 8 + nameLen block offset ≤ blockSize) :
    Matches name buffer offset ↔ Matches name block offset := by
  have names : strncmp name (nameBytes buffer offset) (nameLen block offset) =
      strncmp name (nameBytes block offset) (nameLen block offset) :=
    strncmp_congr fun i bound => same (offset + 8 + i) (by omega)
  rw [Matches, Matches, nameLen_congr same (by omega), names]

theorem decides_congr (inside : offset + 8 + nameLen block offset ≤ blockSize) :
    Decides blockSize name buffer offset ↔ Decides blockSize name block offset := by
  rw [Decides, Decides, corrupted_congr same (by omega), matches_congr same inside]

theorem Tiled.congr {records : List Nat} (tiled : Tiled blockSize block offset records) :
    Tiled blockSize buffer offset records := by
  induction tiled with
  | nil => exact .nil
  | @cons offset later before long aligned rest ih =>
    have bounds := (Tiled.cons before long aligned rest).bounds offset List.mem_cons_self
    have length := recLen_congr same (show offset + 8 ≤ blockSize by omega)
    have name := nameLen_congr same (show offset + 8 ≤ blockSize by omega)
    exact .cons before (by omega) (by omega) (length ▸ ih)

end Congruence

end Records

/-! ## What a search returns -/

/-- The search of a block from one of its records on: what is returned, nothing where no record decides. -/
def scanRecords (blockSize : Nat) (name block : Block) : Nat → List Nat → Option (Except Int FoundEntry)
  | _, [] => none
  | prev, offset :: later =>
    if Corrupted blockSize block offset then some (.error (-eio))
    else if Matches name block offset then
      some (.ok ⟨entryInode block offset, offset, prev, offset + recLen block offset, offset⟩)
    else scanRecords blockSize name block offset later

section Scanned

variable {blockSize : Nat} {availBytes : Word} {name block buffer : Block}

variable (name) in
/-- The scan of a block is that of its records. -/
theorem scanBlock_records {offset : Nat} {records : List Nat} (tiled : Tiled blockSize block offset records)
    (whole : availBytes.toNat = blockSize) (some_record : records ≠ []) (prev : Nat) (reads : List (Nat × Nat)) :
    ∃ steps last more, ∀ fuel, scanBlock blockSize availBytes name block (fuel + steps) (.at offset prev) reads =
      some (match scanRecords blockSize name block prev records with
        | some result => .returned result
        | none => .passed (.at blockSize last), more) := by
  induction tiled generalizing prev reads with
  | nil => exact absurd rfl some_record
  | @cons offset later before long aligned rest ih =>
    by_cases corrupted : Corrupted blockSize block offset
    · refine ⟨1, 0, reads ++ refusedReads offset, fun fuel => ?_⟩
      have refused : Corrupted blockSize block (EntryCursor.at offset prev).dirEntry := corrupted
      rw [scanBlock_corrupted refused, scanRecords, if_pos corrupted]
      rfl
    by_cases found : Matches name block offset
    · refine ⟨1, 0, reads ++ [(offset + 4, 4), (offset + 8, nameLen block offset)] ++ [(offset, 4)], fun fuel => ?_⟩
      rw [scanBlock_found corrupted found, scanRecords, if_neg corrupted, if_pos found]
    have goesOn : ¬ Decides blockSize name block offset := not_or.mpr ⟨corrupted, found⟩
    rw [scanRecords, if_neg corrupted, if_neg found]
    cases later with
    | nil =>
      have ends := rest.ends
      refine ⟨1, offset, reads ++ [(offset + 4, 4), (offset + 8, nameLen block offset)], fun fuel => ?_⟩
      rw [scanBlock_passed goesOn (by omega), ends, scanRecords]
    | cons next later =>
      have inside : offset + recLen block offset < blockSize := by
        cases rest
        assumption
      obtain ⟨steps, last, more, run⟩ :=
        ih (List.cons_ne_nil _ _) offset (reads ++ [(offset + 4, 4), (offset + 8, nameLen block offset)])
      refine ⟨steps + 1, last, more, fun fuel => ?_⟩
      rw [← run fuel, ← Nat.add_assoc, scanBlock]
      change (if Corrupted blockSize block offset then _ else if Matches name block offset then _ else
        if offset + recLen block offset < availBytes.toNat then _ else _) = _
      rw [if_neg corrupted, if_neg found, if_pos (by omega)]
      rfl

/-- Records at which the search does not return are passed. -/
theorem scanRecords_append {before later : List Nat}
    (goesOn : ∀ other ∈ before, ¬ Decides blockSize name block other) (prev : Nat) :
    scanRecords blockSize name block prev (before ++ later) =
      scanRecords blockSize name block (before.getLastD prev) later := by
  induction before generalizing prev with
  | nil => rfl
  | cons first before ih =>
    obtain ⟨sound, other⟩ := not_or.mp (goesOn first List.mem_cons_self)
    rw [List.cons_append, scanRecords, if_neg sound, if_neg other,
      ih fun record among => goesOn record (List.mem_cons_of_mem _ among), List.getLastD_cons]

theorem scanRecords_eq_none_iff {prev : Nat} {records : List Nat} :
    scanRecords blockSize name block prev records = none ↔ ∀ record ∈ records, ¬ Decides blockSize name block record := by
  induction records generalizing prev with
  | nil => exact ⟨fun _ => List.forall_mem_nil _, fun _ => rfl⟩
  | cons first records ih =>
    rw [scanRecords, List.forall_mem_cons, ← @ih first]
    by_cases corrupted : Corrupted blockSize block first
    · rw [if_pos corrupted]
      exact iff_of_false (Option.some_ne_none _) fun goesOn => goesOn.1 (.inl corrupted)
    rw [if_neg corrupted]
    by_cases found : Matches name block first
    · rw [if_pos found]
      exact iff_of_false (Option.some_ne_none _) fun goesOn => goesOn.1 (.inr found)
    · rw [if_neg found]
      exact ⟨fun none => ⟨not_or.mpr ⟨corrupted, found⟩, none⟩, fun goesOn => goesOn.2⟩

/-- A search looks at the records alone. -/
theorem scanRecords_congr (same : ∀ i < blockSize, buffer i = block i) {offset : Nat} {records : List Nat}
    (tiled : Tiled blockSize block offset records) (prev : Nat) :
    scanRecords blockSize name buffer prev records = scanRecords blockSize name block prev records := by
  induction tiled generalizing prev with
  | nil => rfl
  | @cons offset later before long aligned rest ih =>
    have inside := ((Tiled.cons before long aligned rest).bounds offset List.mem_cons_self).1
    have inode : entryInode buffer offset = entryInode block offset := le32_congr _ fun i bound => same _ (by omega)
    have length := recLen_congr same (show offset + 8 ≤ blockSize by omega)
    have corrupted := corrupted_congr same (show offset + 8 ≤ blockSize by omega)
    have matched : Matches name buffer offset ↔ Matches name block offset :=
      matches_congr same (by omega)
    simp only [scanRecords, corrupted, matched, inode, length, ih]

end Scanned

section First

variable {disk : Disk} {heap : DirtyHeap} {privdata : Ext2Privdata} {inode : Ext2Inode} {name : Block} {request : Nat}
variable {records : List Nat}

variable (disk privdata inode) in
/-- The first block of a directory, with the offsets of its records. -/
structure FirstBlock (records : List Nat) : Prop where
  directory : VFS.sIsdir (inode.iMode.setWidth 32) = true
  large : privdata.blockSize.toNat ≤ inode.iSize.toNat
  stored : inode.iBlocks ≠ 0#32
  addressable : (inode.iBlock 0).toNat * 2 ^ privdata.diskBlockLog.toNat < 2 ^ 32
  tiled : Tiled privdata.blockSize.toNat (dirBlock disk privdata inode 0) 0 records

variable (disk privdata inode) in
/-- What a search returns: that of the first block, or that the directory ends with it, or that what comes behind it is
refused. -/
def searchRecords (name : Block) (records : List Nat) : Except Int FoundEntry :=
  (scanRecords privdata.blockSize.toNat name (dirBlock disk privdata inode 0) 0 records).getD
    (.error (if inode.iSize.toNat ≤ privdata.blockSize.toNat then -enoent else -eio))

/-- The first block is read as it is. -/
theorem FirstBlock.readFirst (geometry : BlockGeometry privdata)
    (firstBlock : FirstBlock disk privdata inode records) (heap : DirtyHeap) (request : Nat) :
    ∃ read, readFirst disk heap privdata inode request = some read ∧ read.result = privdata.blockSize ∧
      read.request = request + 1 ∧
        ∀ i < privdata.blockSize.toNat, bufferOf read i = dirBlock disk privdata inode 0 i := by
  have low := geometry.low
  have high := geometry.high
  have sectors := geometry.sectors
  have large := firstBlock.large
  have whole : firstCount privdata inode = privdata.blockSize := if_neg (Nat.not_lt.mpr large)
  have some_size : inode.iSize ≠ 0#32 := by
    intro empty
    rw [empty] at large
    exact absurd large (by simp only [BitVec.toNat_ofNat, Nat.zero_mod]; omega)
  refine ⟨⟨privdata.blockSize, readFSBlockTo disk privdata (inode.iBlock 0)
    (fun address => heap.holds request address.toNat) 0#32, request + 1⟩, ?_, rfl, rfl, ?_⟩
  · rw [Ext2.readFirst, readData_first geometry, if_neg some_size, if_neg firstBlock.stored, whole,
      readBlocksData_whole geometry]
  · intro i inside
    have place : (inode.iBlock 0 <<< privdata.diskBlockLog).toNat =
        (inode.iBlock 0).toNat * 2 ^ privdata.diskBlockLog.toNat := by
      rw [BitVec.shiftLeft_eq', BitVec.toNat_shiftLeft, Nat.shiftLeft_eq, Nat.mod_eq_of_lt firstBlock.addressable]
    have copied := copyIn_at (fun address => heap.holds request address.toNat) 0#32
      (readFSBlock disk privdata (inode.iBlock 0) fun _ => 0#8)
      (show i < sectorSize * privdata.diskBlocksPerFSBlock.toNat by omega) (by omega)
    rw [BitVec.zero_add] at copied
    refine copied.trans ?_
    rw [readFSBlock, readBlock, if_pos (by omega), place, dirBlock, ← geometry.log]
    congr 2
    rw [Nat.mul_comm (inode.iBlock 0).toNat, ← Nat.mul_assoc]
    rfl

variable (disk heap) in
/-- A read that ends in the direct blocks needs no fuel. -/
theorem readData_direct (stored : inode.iBlocks ≠ 0#32) {pos : BitVec 64} {count : Word}
    (ends : pos.toNat + count.toNat < privdata.directBlocksAreaSize.toNat) (fuel request : Nat) (mem : Memory)
    (buffer : Word) : ∃ read, readData disk heap privdata fuel inode request pos mem buffer count = some read := by
  have top := privdata.directBlocksAreaSize.isLt
  have area := toNat_setWidth_word privdata.directBlocksAreaSize
  rw [readData]
  dsimp only
  split
  · exact ⟨_, rfl⟩
  rename_i before
  rw [if_neg fun both => stored both.2, readDirectArea]
  dsimp only
  generalize reads : (if inode.iSize.setWidth 64 < count.setWidth 64 + pos then (inode.iSize.setWidth 64 - pos).setWidth 32
    else count) = length
  have least : length.toNat ≤ count.toNat := by
    have size := inode.iSize.isLt
    have bound := count.isLt
    rw [← reads]
    split
    · rename_i less
      simp only [BitVec.lt_def, BitVec.toNat_add, BitVec.toNat_setWidth, BitVec.le_def, not_le] at less before
      rw [BitVec.toNat_setWidth, BitVec.toNat_sub, BitVec.toNat_setWidth]
      omega
    · exact le_rfl
  have bound := length.isLt
  have starts : pos < privdata.directBlocksAreaSize.setWidth 64 := by
    rw [BitVec.lt_def, area]
    omega
  have stops : pos + length.setWidth 64 < privdata.directBlocksAreaSize.setWidth 64 := by
    rw [BitVec.lt_def, area, BitVec.toNat_add, BitVec.toNat_setWidth]
    omega
  rw [if_pos starts, if_pos stops]
  exact ⟨_, rfl⟩

variable (heap name request) in
/-- The first round of a search reads the block, and scans its records. -/
theorem FirstBlock.firstRound (geometry : BlockGeometry privdata) (firstBlock : FirstBlock disk privdata inode records) :
    ∃ read steps last more, Ext2.readFirst disk heap privdata inode request = some read ∧
      ∀ fuel, scanBlock privdata.blockSize.toNat read.result name (bufferOf read) (fuel + steps) (.at 0 0) [] =
        some (match scanRecords privdata.blockSize.toNat name (dirBlock disk privdata inode 0) 0 records with
          | some result => .returned result
          | none => .passed (.at privdata.blockSize.toNat last), more) := by
  have low := geometry.low
  obtain ⟨read, first, whole, _, same⟩ := firstBlock.readFirst geometry heap request
  have some_record : records ≠ [] := by
    rintro rfl
    have ends := firstBlock.tiled.ends
    omega
  obtain ⟨steps, last, more, run⟩ :=
    scanBlock_records name (firstBlock.tiled.congr same) (congrArg BitVec.toNat whole) some_record 0 []
  rw [scanRecords_congr same firstBlock.tiled] at run
  exact ⟨read, steps, last, more, first, run⟩

variable (heap name) in
/-- A second block is read behind the buffer, where its first record is refused. -/
theorem FirstBlock.afterFirst_ends (geometry : BlockGeometry privdata)
    (firstBlock : FirstBlock disk privdata inode records) (fuel rounds : Nat) (read : ReadResult) (last : Nat)
    (reads : List (Nat × Nat)) :
    ∃ search, afterFirst disk heap privdata inode name (fuel + 1) (rounds + 1) read
      (.passed (.at privdata.blockSize.toNat last), reads) = some search := by
  rw [afterFirst]
  split
  · have pos : ((BitVec.ofNat 32 1 * privdata.diskBlocksPerFSBlock).setWidth 64).toNat + privdata.blockSize.toNat <
        privdata.directBlocksAreaSize.toNat := by
      have low := geometry.low
      have sectors := geometry.sectors
      unfold sectorSize at sectors
      rw [geometry.direct, BitVec.toNat_setWidth, BitVec.toNat_mul, BitVec.toNat_ofNat]
      omega
    obtain ⟨read', second⟩ := readData_direct disk heap firstBlock.stored pos (fuel + 1) read.request read.mem 0#32
    have refused : Corrupted privdata.blockSize.toNat (fun i => read'.mem (BitVec.ofNat 32 i))
        (EntryCursor.mk privdata.blockSize.toNat 0 last privdata.blockSize.toNat).dirEntry :=
      corrupted_behind (Nat.le_refl _)
    rw [searchBlocks]
    simp only [EntryCursor.at]
    rw [second, Option.bind_some, scanBlock_corrupted refused]
    exact ⟨_, rfl⟩
  · exact ⟨_, rfl⟩

variable (name) in
theorem FirstBlock.search_ends (geometry : BlockGeometry privdata) (firstBlock : FirstBlock disk privdata inode records)
    (granted : heap.grants request = true) :
    ∃ fuel search, findDirectoryEntry disk heap privdata fuel inode name request = some search := by
  obtain ⟨read, steps, last, more, first, run⟩ := firstBlock.firstRound heap name request geometry
  refine ⟨steps + 1 + 1, ?_⟩
  have scanned := run (1 + 1)
  rw [Nat.add_comm _ steps, ← Nat.add_assoc] at scanned
  rw [findDirectoryEntry_first geometry firstBlock.directory granted, first, Option.bind_some, scanned, Option.bind_some]
  split
  · exact ⟨_, rfl⟩
  · exact firstBlock.afterFirst_ends heap name geometry (steps + 1) steps read last more

theorem FirstBlock.search_result (geometry : BlockGeometry privdata)
    (firstBlock : FirstBlock disk privdata inode records) (granted : heap.grants request = true) {fuel : Nat}
    {search : DirectorySearch} (found : findDirectoryEntry disk heap privdata fuel inode name request = some search) :
    search.result = searchRecords disk privdata inode name records := by
  obtain ⟨read, steps, last, more, first, run⟩ := firstBlock.firstRound heap name request geometry
  have further : BitVec.ofNat 32 (EntryCursor.at privdata.blockSize.toNat last).scannedBlockBytes < inode.iSize ↔
      privdata.blockSize.toNat < inode.iSize.toNat := further_iff geometry (Nat.le_refl privdata.blockSize.toNat)
  cases fuel with
  | zero =>
    rw [findDirectoryEntry, if_neg (by rw [firstBlock.directory]; decide), if_neg (by rw [granted]; decide)] at found
    cases found
  | succ fuel =>
    rw [findDirectoryEntry_first geometry firstBlock.directory granted, first, Option.bind_some] at found
    obtain ⟨ended, scan, after⟩ := Option.bind_eq_some_iff.mp found
    have ends := scanBlock_mono scan steps
    rw [run (fuel + 1)] at ends
    cases ends
    rw [searchRecords]
    cases result : scanRecords privdata.blockSize.toNat name (dirBlock disk privdata inode 0) 0 records with
    | some result' =>
      rw [result] at after
      cases after
      rfl
    | none =>
      rw [result] at after
      by_cases single : inode.iSize.toNat ≤ privdata.blockSize.toNat
      · rw [afterFirst, if_neg (further.not.mpr (Nat.not_lt.mpr single))] at after
        cases after
        rw [if_pos single]
        rfl
      · rw [if_neg single]
        exact (afterFirst_behind rfl geometry.aligned (further.mpr (Nat.lt_of_not_le single)) after).1

variable (name) in
/-- What a search of a directory returns, and that it does. -/
theorem FirstBlock.search (geometry : BlockGeometry privdata) (firstBlock : FirstBlock disk privdata inode records)
    (granted : heap.grants request = true) :
    (∃ fuel search, findDirectoryEntry disk heap privdata fuel inode name request = some search) ∧
      ∀ fuel search, findDirectoryEntry disk heap privdata fuel inode name request = some search →
        search.result = searchRecords disk privdata inode name records :=
  ⟨firstBlock.search_ends name geometry granted, fun _ _ => firstBlock.search_result geometry granted⟩

end First
end FluxOS.Ext2
