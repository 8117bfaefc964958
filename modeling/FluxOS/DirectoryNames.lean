import FluxOS.DirectoryRecords

/-! What a well-formed ext2 directory has under a name, and when `findDirectoryEntry` finds it. -/
namespace FluxOS.Ext2
open Words UserMemoryOps BlockDevice

/-! ## Well-formed directories -/

section Directory

variable {disk : Disk} {heap : DirtyHeap} {privdata : Ext2Privdata} {inode : Ext2Inode} {name : Block} {request : Nat}
variable {blocks : Nat} {records : Nat → List Nat} {text : List Byte}

/-- The first block of a well-formed directory. -/
theorem WellFormedDirectory.firstBlock (directory : WellFormedDirectory disk privdata inode blocks records) :
    FirstBlock disk privdata inode (records 0) where
  directory := directory.directory
  large := by
    rw [directory.size]
    exact Nat.le_mul_of_pos_left _ directory.positive
  stored := directory.stored
  addressable := directory.addressable 0 directory.positive
  tiled := directory.tiled 0 directory.positive

theorem WellFormedDirectory.single_iff (geometry : BlockGeometry privdata)
    (directory : WellFormedDirectory disk privdata inode blocks records) :
    inode.iSize.toNat ≤ privdata.blockSize.toNat ↔ blocks = 1 := by
  have low := geometry.low
  have positive := directory.positive
  rw [directory.size]
  constructor
  · intro small
    by_contra several
    have more : 2 * privdata.blockSize.toNat ≤ blocks * privdata.blockSize.toNat :=
      Nat.mul_le_mul_right _ (show 2 ≤ blocks by omega)
    omega
  · rintro rfl
    omega

/-- A live record decides exactly the searches for its name. -/
theorem WellFormedDirectory.decides_live
    (directory : WellFormedDirectory disk privdata inode blocks records) (string : CString name text) {k offset : Nat}
    (inside : k < blocks) (among : offset ∈ records k) (live : Live (dirBlock disk privdata inode k) offset) :
    Decides privdata.blockSize.toNat name (dirBlock disk privdata inode k) offset ↔
      entryName (dirBlock disk privdata inode k) offset = text := by
  have formed := directory.live k inside offset among live
  rw [Decides, or_iff_right formed.sound, matches_iff string formed.text]

/-- What the search returns where a record of the first block decides. -/
theorem WellFormedDirectory.search_decided (geometry : BlockGeometry privdata)
    (directory : WellFormedDirectory disk privdata inode blocks records) (granted : heap.grants request = true) {fuel : Nat}
    {search : DirectorySearch} (run : findDirectoryEntry disk heap privdata fuel inode name request = some search)
    {before behind : List Nat} {offset : Nat} (split : records 0 = before ++ offset :: behind)
    (found : Decides privdata.blockSize.toNat name (dirBlock disk privdata inode 0) offset)
    (goesOn : ∀ other ∈ before, ¬ Decides privdata.blockSize.toNat name (dirBlock disk privdata inode 0) other) :
    (Corrupted privdata.blockSize.toNat (dirBlock disk privdata inode 0) offset ∧ search.result = .error (-eio)) ∨
      ¬ Corrupted privdata.blockSize.toNat (dirBlock disk privdata inode 0) offset ∧ ∃ found, search.result = .ok found ∧
        found.inodeNumber = entryInode (dirBlock disk privdata inode 0) offset := by
  rw [(directory.firstBlock.search name geometry granted).2 fuel search run, searchRecords, split, scanRecords_append goesOn,
    scanRecords]
  by_cases corrupted : Corrupted privdata.blockSize.toNat (dirBlock disk privdata inode 0) offset
  · rw [if_pos corrupted]
    exact .inl ⟨corrupted, rfl⟩
  · rw [if_neg corrupted, if_pos (found.resolve_left corrupted)]
    exact .inr ⟨corrupted, _, rfl, rfl⟩

/-- What it returns where none does: the end of the directory, or the end of the buffer. -/
theorem WellFormedDirectory.search_passed (geometry : BlockGeometry privdata)
    (directory : WellFormedDirectory disk privdata inode blocks records) (granted : heap.grants request = true) {fuel : Nat}
    {search : DirectorySearch} (run : findDirectoryEntry disk heap privdata fuel inode name request = some search)
    (goesOn : ∀ offset ∈ records 0, ¬ Decides privdata.blockSize.toNat name (dirBlock disk privdata inode 0) offset) :
    search.result = if blocks = 1 then .error (-enoent) else .error (-eio) := by
  rw [(directory.firstBlock.search name geometry granted).2 fuel search run, searchRecords, scanRecords_eq_none_iff.mpr goesOn,
    Option.getD_none]
  by_cases single : blocks = 1
  · rw [if_pos single, if_pos ((directory.single_iff geometry).mpr single)]
  · rw [if_neg single, if_neg ((directory.single_iff geometry).not.mpr single)]

/-- Whatever the directory has, a right result is an entry in use or `ENOENT`. -/
theorem Finds.cases {result : Except Int FoundEntry} (finds : Finds disk privdata inode blocks records text result) :
    result = .error (-enoent) ∨ ∃ found k offset, Live (dirBlock disk privdata inode k) offset ∧ result = .ok found ∧
      found.inodeNumber = entryInode (dirBlock disk privdata inode k) offset := by
  obtain ⟨right, absent⟩ := finds
  by_cases present : ∃ k < blocks, ∃ offset ∈ records k, Live (dirBlock disk privdata inode k) offset ∧
      entryName (dirBlock disk privdata inode k) offset = text
  · obtain ⟨k, inside, offset, among, live, named⟩ := present
    obtain ⟨found, result, number⟩ := right k inside offset among live named
    exact .inr ⟨found, k, offset, live, result, number⟩
  · exact .inl (absent fun k inside offset among live named => present ⟨k, inside, offset, among, live, named⟩)

/-- It is no other error. -/
theorem Finds.ne_error {result : Except Int FoundEntry} (finds : Finds disk privdata inode blocks records text result)
    {code : Int} (other : code ≠ -enoent) : result ≠ .error code := by
  rintro rfl
  rcases finds.cases with missing | ⟨_, _, _, _, found, _⟩
  · exact other (Except.error.inj missing)
  · cases found

/-- A search that is right shows that the first block knows. -/
theorem FirstBlockKnows.of_finds (geometry : BlockGeometry privdata)
    (directory : WellFormedDirectory disk privdata inode blocks records) {fuel : Nat} {search : DirectorySearch}
    (run : findDirectoryEntry disk heap privdata fuel inode name request = some search)
    (finds : Finds disk privdata inode blocks records text search.result) :
    FirstBlockKnows disk privdata inode heap request name blocks records := by
  have granted : heap.grants request = true := by
    by_contra refused
    rw [findDirectoryEntry, if_neg (by rw [directory.directory]; decide), if_pos (Bool.not_eq_true _ ▸ refused)] at run
    cases run
    exact finds.ne_error (by decide) rfl
  refine ⟨granted, ?_⟩
  rcases exists_first_decides name (dirBlock disk privdata inode 0) (records 0) with
    ⟨before, offset, behind, split, found, goesOn⟩ | goesOn
  · refine .inl ⟨before, offset, behind, split, ?_, found, goesOn⟩
    rcases directory.search_decided geometry granted run split found goesOn with ⟨_, refused⟩ | ⟨_, entry, taken, number⟩
    · exact absurd refused (finds.ne_error (by decide))
    · rcases finds.cases with missing | ⟨entry', k, offset', live, other, number'⟩
      · rw [taken] at missing
        cases missing
      · rw [taken] at other
        cases other
        rw [Live, ← number, number']
        exact live
  · refine .inr ⟨?_, goesOn⟩
    by_contra several
    have failed := directory.search_passed geometry granted run goesOn
    rw [if_neg several] at failed
    exact absurd failed (finds.ne_error (by decide))

/-- Where the first block knows, a search is right. -/
theorem FirstBlockKnows.finds (geometry : BlockGeometry privdata)
    (directory : WellFormedDirectory disk privdata inode blocks records) (string : CString name text) {fuel : Nat}
    {search : DirectorySearch} (knows : FirstBlockKnows disk privdata inode heap request name blocks records)
    (run : findDirectoryEntry disk heap privdata fuel inode name request = some search) :
    Finds disk privdata inode blocks records text search.result := by
  have inside := directory.positive
  obtain ⟨granted, knows⟩ := knows
  rcases knows with ⟨before, offset, behind, split, live, found, goesOn⟩ | ⟨single, goesOn⟩
  · have among : offset ∈ records 0 := by
      rw [split]
      exact List.mem_append_right _ List.mem_cons_self
    have named := (directory.decides_live string inside among live).mp found
    have formed := directory.live 0 inside offset among live
    rcases directory.search_decided geometry granted run split found goesOn with ⟨corrupted, _⟩ | ⟨_, entry, taken, number⟩
    · exact absurd corrupted formed.sound
    · constructor
      · intro k inside' offset' among' live' named'
        obtain ⟨rfl, rfl⟩ := directory.unique 0 inside offset among k inside' offset' among' live live'
          (named.trans named'.symm)
        exact ⟨entry, taken, number⟩
      · intro absent
        exact absurd named (absent 0 inside offset among live)
  · have missing := directory.search_passed geometry granted run goesOn
    rw [if_pos single] at missing
    constructor
    · intro k inside' offset among live named
      have first : k = 0 := by omega
      subst first
      exact absurd ((directory.decides_live string (by omega) among live).mpr named) (goesOn offset among)
    · exact fun _ => missing

/-- The search is right if and only if the first block knows. -/
theorem WellFormedDirectory.finds_iff (geometry : BlockGeometry privdata)
    (directory : WellFormedDirectory disk privdata inode blocks records) (string : CString name text) :
    (∃ fuel search, findDirectoryEntry disk heap privdata fuel inode name request = some search ∧
      Finds disk privdata inode blocks records text search.result) ↔
      FirstBlockKnows disk privdata inode heap request name blocks records := by
  constructor
  · rintro ⟨fuel, search, run, finds⟩
    exact .of_finds geometry directory run finds
  · intro knows
    obtain ⟨fuel, search, run⟩ := (directory.firstBlock.search name geometry knows.1).1
    exact ⟨fuel, search, run, knows.finds geometry directory string run⟩

end Directory

/-- A well-formed directory is searched right if and only if its first block knows; and whatever a directory
contains, the search keeps to its buffer and its records if and only if it ends in the first block. -/
theorem directory_search_iff {sblock : Ext2SuperBlock} (sizes : sblock.sLogBlockSize.toNat ≤ 6) (disk : Disk)
    (heap : DirtyHeap) (inode : Ext2Inode) (name : Block) (request : Nat) :
    (∀ blocks records text, WellFormedDirectory disk (privdataOf sblock) inode blocks records → CString name text →
      ((∃ fuel search, findDirectoryEntry disk heap (privdataOf sblock) fuel inode name request = some search ∧
          Finds disk (privdataOf sblock) inode blocks records text search.result) ↔
        FirstBlockKnows disk (privdataOf sblock) inode heap request name blocks records)) ∧
    ((∃ fuel search, findDirectoryEntry disk heap (privdataOf sblock) fuel inode name request = some search ∧
        Contained (privdataOf sblock) inode search) ↔
      FirstBlockEnds disk heap (privdataOf sblock) inode name request) := by
  have geometry := blockGeometry sizes
  refine ⟨fun blocks records text directory string => directory.finds_iff geometry string, ?_,
    FirstBlockEnds.contained geometry⟩
  rintro ⟨fuel, search, run, contained⟩
  exact firstBlockEnds_of_contained geometry run contained

/-! ## A directory of one block, and of two -/

section Sample

/-- `.`, `..` and `a` in the block 10, and `b` in the block 11. -/
def sampleDirectory : Disk := fun address =>
  (([(10240, 2#8), (10244, 12#8), (10246, 1#8), (10247, 2#8), (10248, 46#8),
    (10252, 2#8), (10256, 12#8), (10258, 2#8), (10259, 2#8), (10260, 46#8), (10261, 46#8),
    (10264, 11#8), (10268, 0xe8#8), (10269, 3#8), (10270, 1#8), (10271, 1#8), (10272, 97#8),
    (11264, 12#8), (11269, 4#8), (11270, 1#8), (11271, 1#8), (11272, 98#8)] : List (Nat × Byte)).lookup address).getD 0#8

def sampleInode (blocks : Nat) : Ext2Inode := fun i =>
  (([(0, 0xed#8), (1, 0x41#8), (5, BitVec.ofNat 8 (4 * blocks)), (28, BitVec.ofNat 8 (2 * blocks)), (40, 10#8),
    (44, 11#8)] : List (Nat × Byte)).lookup i.val).getD 0#8

def sampleSuperBlock : Ext2SuperBlock := ⟨0#32, 8#32, ext2Magic, 128#16⟩

def sampleRecords (k : Nat) : List Nat := if k = 0 then [0, 12, 24] else [0]

/-- The name of one letter. -/
def letter (c : Byte) : Block := fun i => if i = 0 then c else 0#8

def sampleHeap : DirtyHeap := ⟨fun _ => true, fun _ _ => 0#8⟩

theorem letter_string {c : Byte} (some : c ≠ 0#8) : CString (letter c) [c] where
  bytes := by
    intro i inside
    have first : i = 0 := by simpa using inside
    subst first
    rfl
  ends := rfl
  text := by
    rw [List.mem_singleton]
    exact some.symm

abbrev samplePrivdata : Ext2Privdata := privdataOf sampleSuperBlock

abbrev sampleBlock (blocks k : Nat) : Block := dirBlock sampleDirectory samplePrivdata (sampleInode blocks) k

theorem sample_tiled : ∀ blocks ∈ [1, 2], ∀ k < blocks, Tiled 1024 (sampleBlock blocks k) 0 (sampleRecords k) := by
  intro blocks few k inside
  have first {blocks : Nat} (few : blocks = 1 ∨ blocks = 2) : Tiled 1024 (sampleBlock blocks 0) 0 [0, 12, 24] := by
    rcases few with rfl | rfl <;>
      exact .cons (by decide) (by decide) (by decide) (.cons (by decide) (by decide) (by decide)
        (.cons (by decide) (by decide) (by decide) .nil))
  have second : Tiled 1024 (sampleBlock 2 1) 0 [0] := .cons (by decide) (by decide) (by decide) .nil
  have which : k = 0 ∨ k = 1 ∧ blocks = 2 := by
    simp only [List.mem_cons, List.not_mem_nil, or_false] at few
    omega
  rcases which with rfl | ⟨rfl, rfl⟩
  · exact first (by simpa using few)
  · exact second

theorem sample_entries : ∀ blocks ∈ [1, 2], ∀ k < blocks, ∀ offset ∈ sampleRecords k, offset % 4 = 0 ∧
    nameLen (sampleBlock blocks k) offset + 8 ≤ recLen (sampleBlock blocks k) offset ∧
    offset + recLen (sampleBlock blocks k) offset ≤ 1024 ∧ nameLen (sampleBlock blocks k) offset ≠ 0 ∧
    fileType (sampleBlock blocks k) offset ≤ ext2FtSymlink ∧ 0#8 ∉ entryName (sampleBlock blocks k) offset := by
  decide

theorem sample_unique : ∀ blocks ∈ [1, 2], ∀ k < blocks, ∀ offset ∈ sampleRecords k, ∀ k' < blocks,
    ∀ offset' ∈ sampleRecords k', entryName (sampleBlock blocks k) offset = entryName (sampleBlock blocks k') offset' →
      k = k' ∧ offset = offset' := by
  decide

theorem sample_fields : ∀ blocks ∈ [1, 2], VFS.sIsdir ((sampleInode blocks).iMode.setWidth 32) = true ∧
    (sampleInode blocks).iSize.toNat = blocks * samplePrivdata.blockSize.toNat ∧ 0 < blocks ∧
    (sampleInode blocks).iBlocks ≠ 0#32 ∧ ∀ k < blocks,
      (blockNumber sampleDirectory samplePrivdata (sampleInode blocks) k).toNat *
        2 ^ samplePrivdata.diskBlockLog.toNat < 2 ^ 32 := by
  decide

theorem sample_wellFormed {blocks : Nat} (few : blocks ∈ [1, 2]) :
    WellFormedDirectory sampleDirectory samplePrivdata (sampleInode blocks) blocks sampleRecords := by
  obtain ⟨directory, size, positive, stored, addressable⟩ := sample_fields blocks few
  refine ⟨directory, size, positive, stored, addressable, sample_tiled blocks few, ?_, ?_⟩
  · intro k inside offset among _
    obtain ⟨aligned, long, inside, named, type, text⟩ := sample_entries blocks few k inside offset among
    exact ⟨aligned, long, inside, named, type, text⟩
  · intro k inside offset among k' inside' offset' among' _ _ same
    exact sample_unique blocks few k inside offset among k' inside' offset' among' same

/-- In the directory of one block `a` is found. -/
theorem letter_found : WellFormedDirectory sampleDirectory samplePrivdata (sampleInode 1) 1 sampleRecords ∧
    ∃ fuel search, findDirectoryEntry sampleDirectory sampleHeap samplePrivdata fuel (sampleInode 1) (letter 97#8) 0 =
      some search ∧ Finds sampleDirectory samplePrivdata (sampleInode 1) 1 sampleRecords [97#8] search.result := by
  have directory := sample_wellFormed (show 1 ∈ [1, 2] by decide)
  have exact_iff := @directory_search_iff sampleSuperBlock (by decide) sampleDirectory sampleHeap
    (sampleInode 1) (letter 97#8) 0
  refine ⟨directory, (exact_iff.1 1 sampleRecords [97#8] directory (letter_string (by decide))).mpr ⟨rfl, .inl ?_⟩⟩
  exact ⟨[0, 12], 24, [], rfl, by decide, by decide, by decide⟩

/-- In the directory of two blocks `b` is in the second one, and not found. -/
theorem letter_missed : WellFormedDirectory sampleDirectory samplePrivdata (sampleInode 2) 2 sampleRecords ∧
    ¬ ∃ fuel search, findDirectoryEntry sampleDirectory sampleHeap samplePrivdata fuel (sampleInode 2) (letter 98#8) 0 =
      some search ∧ Finds sampleDirectory samplePrivdata (sampleInode 2) 2 sampleRecords [98#8] search.result := by
  have directory := sample_wellFormed (show 2 ∈ [1, 2] by decide)
  refine ⟨directory, fun found => ?_⟩
  have geometry : BlockGeometry samplePrivdata := blockGeometry (by decide)
  obtain ⟨_, knows⟩ := (directory.finds_iff geometry (letter_string (by decide))).mp found
  have none : ∀ offset ∈ sampleRecords 0, ¬ Decides 1024 (letter 98#8) (sampleBlock 2 0) offset := by decide
  rcases knows with ⟨before, offset, behind, split, _, decides, _⟩ | ⟨single, _⟩
  · refine none offset ?_ decides
    rw [split]
    exact List.mem_append_right _ List.mem_cons_self
  · exact absurd single (by decide)

end Sample
end FluxOS.Ext2
