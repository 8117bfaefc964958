import FluxOS.DirectoryEntries

/-! Which searches `findDirectoryEntry` gets right: those that the first block of the
directory decides. -/
namespace FluxOS.Ext2
open Words UserMemoryOps BlockDevice

/-! ## Going through one block -/

section Scan

variable {blockSize : Nat} {availBytes : Word} {name block : Block}

/-- A record at which the search returns. -/
def Decides (blockSize : Nat) (name block : Block) (offset : Nat) : Prop :=
  Corrupted blockSize block offset ∨ Matches name block offset

instance (blockSize : Nat) (name block : Block) (offset : Nat) : Decidable (Decides blockSize name block offset) :=
  inferInstanceAs (Decidable (_ ∨ _))

/-- The search comes from one record to another. -/
inductive Passes (blockSize : Nat) (availBytes : Word) (name block : Block) : Nat → Nat → Prop
  | here (offset : Nat) : Passes blockSize availBytes name block offset offset
  | step {offset last : Nat} (goesOn : ¬ Decides blockSize name block offset)
      (more : offset + recLen block offset < availBytes.toNat)
      (rest : Passes blockSize availBytes name block (offset + recLen block offset) last) :
      Passes blockSize availBytes name block offset last

/-- The bytes of a record that is not refused. -/
theorem sound_bounds {offset : Nat} (sound : ¬ Corrupted blockSize block offset) :
    offset % 4 = 0 ∧ nameLen block offset + 8 ≤ recLen block offset ∧ 0 < nameLen block offset ∧
      offset + recLen block offset ≤ blockSize := by
  simp only [Corrupted, not_or, not_lt, ne_eq, not_not] at sound
  obtain ⟨aligned, long, inside, named, _⟩ := sound
  exact ⟨aligned, long, Nat.pos_of_ne_zero named, inside⟩

/-- Every block is decided by one of its records, or gone through. -/
theorem exists_last (offset : Nat) : ∃ last, Passes blockSize availBytes name block offset last ∧
    (Decides blockSize name block last ∨ availBytes.toNat ≤ last + recLen block last) := by
  obtain ⟨left, measure⟩ : ∃ left, blockSize - offset = left := ⟨_, rfl⟩
  induction left using Nat.strongRecOn generalizing offset with
  | _ left ih =>
    by_cases decided : Decides blockSize name block offset
    · exact ⟨offset, .here offset, .inl decided⟩
    by_cases more : offset + recLen block offset < availBytes.toNat
    · obtain ⟨_, long, _, inside⟩ := sound_bounds fun corrupted => decided (.inl corrupted)
      obtain ⟨last, passes, ends⟩ := ih _ (by omega) (offset + recLen block offset) rfl
      exact ⟨last, .step decided more passes, ends⟩
    · exact ⟨offset, .here offset, .inr (Nat.le_of_not_lt more)⟩

/-- All reads are inside the block. -/
def InBlock (blockSize : Nat) (reads : List (Nat × Nat)) : Prop := ∀ read ∈ reads, read.1 + read.2 ≤ blockSize

theorem inBlock_append {reads more : List (Nat × Nat)} :
    InBlock blockSize (reads ++ more) ↔ InBlock blockSize reads ∧ InBlock blockSize more := by
  simp only [InBlock, List.mem_append, or_imp, forall_and]

/-- What is read of a record that is not refused. -/
theorem inBlock_record {offset : Nat} (sound : ¬ Corrupted blockSize block offset) :
    InBlock blockSize [(offset + 4, 4), (offset + 8, nameLen block offset)] := by
  obtain ⟨_, long, _, inside⟩ := sound_bounds sound
  intro read among
  rcases List.mem_cons.mp among with rfl | among
  · change offset + 4 + 4 ≤ blockSize
    omega
  · cases List.mem_singleton.mp among
    change offset + 8 + nameLen block offset ≤ blockSize
    omega

/-- The cursor in the first block: offsets in the block are those in the directory. -/
def EntryCursor.at (offset prev : Nat) : EntryCursor := ⟨offset, offset, prev, offset⟩

/-- With more fuel the scan ends as before. -/
theorem scanBlock_mono {fuel : Nat} {cursor : EntryCursor} {reads : List (Nat × Nat)}
    {ended : BlockScan × List (Nat × Nat)}
    (run : scanBlock blockSize availBytes name block fuel cursor reads = some ended) (more : Nat) :
    scanBlock blockSize availBytes name block (fuel + more) cursor reads = some ended := by
  induction fuel generalizing cursor reads with
  | zero => cases run
  | succ fuel ih =>
    rw [Nat.add_right_comm, scanBlock]
    rw [scanBlock] at run
    by_cases corrupted : Corrupted blockSize block cursor.dirEntry
    · rw [if_pos corrupted] at run ⊢
      exact run
    rw [if_neg corrupted] at run ⊢
    by_cases found : Matches name block cursor.dirEntry
    · simp only [if_pos found] at run ⊢
      exact run
    simp only [if_neg found] at run ⊢
    split
    · rename_i goesOn
      rw [if_pos goesOn] at run
      exact ih run
    · rename_i stops
      rw [if_neg stops] at run
      exact run

/-- The scan goes to where the records lead, and reads only the block on the way. -/
theorem scanBlock_passes {offset last : Nat} (passes : Passes blockSize availBytes name block offset last) (prev : Nat)
    (reads : List (Nat × Nat)) : ∃ steps prev' more, InBlock blockSize more ∧ ∀ fuel,
      scanBlock blockSize availBytes name block (fuel + steps) (.at offset prev) reads =
        scanBlock blockSize availBytes name block fuel (.at last prev') (reads ++ more) := by
  induction passes generalizing prev reads with
  | here offset => exact ⟨0, prev, [], nofun, fun fuel => by rw [List.append_nil, Nat.add_zero]⟩
  | @step offset last goesOn more rest ih =>
    rw [Decides, not_or] at goesOn
    obtain ⟨steps, prev', further, inside, run⟩ :=
      ih offset (reads ++ [(offset + 4, 4), (offset + 8, nameLen block offset)])
    refine ⟨steps + 1, prev', _ ++ further, inBlock_append.mpr ⟨inBlock_record goesOn.1, inside⟩, fun fuel => ?_⟩
    rw [← List.append_assoc, ← run fuel, ← Nat.add_assoc, scanBlock]
    change (if Corrupted blockSize block offset then _ else _) = _
    rw [if_neg goesOn.1]
    change (if Matches name block offset then _ else if offset + recLen block offset < availBytes.toNat then _ else _) = _
    rw [if_neg goesOn.2, if_pos more]
    rfl

/-- What is read of a refused record: nothing, or its header. -/
def refusedReads (offset : Nat) : List (Nat × Nat) := if offset % 4 ≠ 0 then [] else [(offset + 4, 4)]

theorem scanBlock_corrupted {cursor : EntryCursor} (corrupted : Corrupted blockSize block cursor.dirEntry)
    (fuel : Nat) (reads : List (Nat × Nat)) : scanBlock blockSize availBytes name block (fuel + 1) cursor reads =
      some (.returned (.error (-eio)), reads ++ refusedReads cursor.dirEntry) := by
  rw [scanBlock, if_pos corrupted, refusedReads]
  split
  · rw [List.append_nil]
  · rfl

theorem scanBlock_found {offset : Nat} (sound : ¬ Corrupted blockSize block offset) (found : Matches name block offset)
    (fuel prev : Nat) (reads : List (Nat × Nat)) :
    scanBlock blockSize availBytes name block (fuel + 1) (.at offset prev) reads =
      some (.returned (.ok ⟨entryInode block offset, offset, prev, offset + recLen block offset, offset⟩),
        reads ++ [(offset + 4, 4), (offset + 8, nameLen block offset)] ++ [(offset, 4)]) := by
  rw [scanBlock]
  change (if Corrupted blockSize block offset then _ else if Matches name block offset then _ else _) = _
  rw [if_neg sound, if_pos found]
  rfl

theorem scanBlock_passed {offset : Nat} (goesOn : ¬ Decides blockSize name block offset)
    (stops : availBytes.toNat ≤ offset + recLen block offset) (fuel prev : Nat) (reads : List (Nat × Nat)) :
    scanBlock blockSize availBytes name block (fuel + 1) (.at offset prev) reads =
      some (.passed (.at (offset + recLen block offset) offset),
        reads ++ [(offset + 4, 4), (offset + 8, nameLen block offset)]) := by
  rw [Decides, not_or] at goesOn
  rw [scanBlock]
  change (if Corrupted blockSize block offset then _ else if Matches name block offset then _ else
    if offset + recLen block offset < availBytes.toNat then _ else _) = _
  rw [if_neg goesOn.1, if_neg goesOn.2, if_neg (by omega)]
  rfl

/-- Behind the block every record is refused, whatever is there. -/
theorem corrupted_behind {offset : Nat} (behind : blockSize ≤ offset) : Corrupted blockSize block offset := by
  by_cases empty : recLen block offset = 0
  · exact .inr (.inl (by omega))
  · exact .inr (.inr (.inl (by omega)))

end Scan

/-! ## The first block -/

section First

/-- What the block sizes of the format, 1 to 64 KiB, make of `ext2_privdata`. -/
structure BlockGeometry (privdata : Ext2Privdata) : Prop where
  low : 1024 ≤ privdata.blockSize.toNat
  high : privdata.blockSize.toNat ≤ 65536
  aligned : privdata.blockSize.toNat % 4 = 0
  entries : 2 ≤ privdata.indirectBlockEntries.toNat
  direct : privdata.directBlocksAreaSize.toNat = 12 * privdata.blockSize.toNat
  sectors : sectorSize * privdata.diskBlocksPerFSBlock.toNat = privdata.blockSize.toNat
  log : sectorSize * 2 ^ privdata.diskBlockLog.toNat = privdata.blockSize.toNat

theorem block_sizes : ∀ log < 7, let blockSize := 1024#32 <<< BitVec.ofNat 32 log
    1024 ≤ blockSize.toNat ∧ blockSize.toNat ≤ 65536 ∧ blockSize.toNat % 4 = 0 ∧ 2 ≤ (blockSize / 4#32).toNat ∧
      (blockSize * ext2NdirBlocks).toNat = 12 * blockSize.toNat ∧
      sectorSize * (blockSize / 512#32).toNat = blockSize.toNat ∧
      sectorSize * 2 ^ (BitVec.ofNat 32 log + 1#32).toNat = blockSize.toNat := by
  decide

theorem blockGeometry {sblock : Ext2SuperBlock} (small : sblock.sLogBlockSize.toNat ≤ 6) :
    BlockGeometry (privdataOf sblock) := by
  obtain ⟨low, high, aligned, entries, direct, sectors, log⟩ := block_sizes sblock.sLogBlockSize.toNat (by omega)
  rw [BitVec.ofNat_toNat, BitVec.setWidth_eq] at low high aligned entries direct sectors log
  exact ⟨low, high, aligned, entries, direct, sectors, log⟩

variable {disk : Disk} {heap : DirtyHeap} {privdata : Ext2Privdata} {inode : Ext2Inode}

/-- How much of the first block there is. -/
def firstCount (privdata : Ext2Privdata) (inode : Ext2Inode) : Word :=
  if inode.iSize.toNat < privdata.blockSize.toNat then inode.iSize else privdata.blockSize

theorem toNat_firstCount : (firstCount privdata inode).toNat = min inode.iSize.toNat privdata.blockSize.toNat := by
  rw [firstCount]
  split <;> omega

/-- The first block as a whole. -/
theorem readBlocksData_whole (geometry : BlockGeometry privdata) (numbers : Nat → Word) (request : Nat) (mem : Memory)
    (buffer : Word) : readBlocksData disk heap privdata request numbers 0#32 mem buffer privdata.blockSize =
      ⟨privdata.blockSize, readFSBlockTo disk privdata (numbers 0) mem buffer, request⟩ := by
  have low := geometry.low
  have entries := geometry.entries
  have some_size : (0#32 : Word) ≠ privdata.blockSize := by
    intro zero
    rw [← zero] at low
    exact absurd low (by decide)
  have one : privdata.blockSize / privdata.blockSize = 1#32 := by
    apply BitVec.eq_of_toNat_eq
    rw [BitVec.toNat_udiv, Nat.div_self (by omega)]
    rfl
  have rest : privdata.blockSize % privdata.blockSize = 0#32 := by
    apply BitVec.eq_of_toNat_eq
    rw [BitVec.toNat_umod, Nat.mod_self]
    rfl
  have inside : ¬ privdata.indirectBlockEntries ≤ 1#32 := by
    rw [BitVec.le_def]
    change ¬ privdata.indirectBlockEntries.toNat ≤ 1
    omega
  rw [readBlocksData]
  simp only [BitVec.zero_udiv, BitVec.zero_umod, ne_eq, not_true_eq_false, BitVec.lt_irrefl, and_false, or_self, false_and,
    if_false]
  rw [readFurtherBlocks, if_neg some_size]
  simp only [BitVec.sub_zero, one, BitVec.add_zero, if_neg inside, rest, ne_eq, not_true_eq_false, and_false, if_false]
  change (⟨0#32 + privdata.blockSize * 1#32, readFSBlockTo disk privdata (numbers 0) mem buffer, request⟩ : ReadResult) = _
  rw [BitVec.mul_one, BitVec.zero_add]

/-- A part of the first block is copied out of a buffer of its own. -/
theorem readBlocksData_part (geometry : BlockGeometry privdata) (numbers : Nat → Word) {count : Word}
    (short : count.toNat < privdata.blockSize.toNat) (request : Nat) (mem : Memory) (buffer : Word) :
    (readBlocksData disk heap privdata request numbers 0#32 mem buffer count).result =
      if heap.grants request then count else noMemory := by
  have entries := geometry.entries
  have short' : count < privdata.blockSize := by rwa [BitVec.lt_def]
  have inside : 0#32 < privdata.indirectBlockEntries := by
    rw [BitVec.lt_def]
    change 0 < privdata.indirectBlockEntries.toNat
    omega
  rw [readBlocksData]
  simp only [BitVec.zero_udiv, BitVec.zero_umod, ne_eq, not_true_eq_false, false_or, short', inside, and_self, if_true,
    BitVec.sub_zero]
  split
  · rw [readFurtherBlocks, if_pos rfl]
  · rfl

/-- The read of the first block needs no fuel. -/
theorem readData_first (geometry : BlockGeometry privdata) (fuel request : Nat) (mem : Memory) (buffer : Word) :
    readData disk heap privdata fuel inode request 0#64 mem buffer privdata.blockSize =
      if inode.iSize = 0#32 then some ⟨0#32, mem, request⟩
      else if inode.iBlocks = 0#32 then
        if 40 + (firstCount privdata inode).toNat ≤ inodeBytes then
          some ⟨firstCount privdata inode,
            copyIn mem buffer (fun i => inode.bytes (40 + i)) (firstCount privdata inode).toNat, request⟩
        else none
      else some (readBlocksData disk heap privdata request inode.iBlock 0#32 mem buffer (firstCount privdata inode)) := by
  have bound := inode.iSize.isLt
  have bound' := privdata.blockSize.isLt
  have size := toNat_setWidth_word inode.iSize
  have block := toNat_setWidth_word privdata.blockSize
  have least : (firstCount privdata inode).toNat ≤ privdata.blockSize.toNat := by
    rw [toNat_firstCount]
    omega
  have count : (if inode.iSize.setWidth 64 < privdata.blockSize.setWidth 64 + 0#64
      then (inode.iSize.setWidth 64 - 0#64).setWidth 32 else privdata.blockSize) = firstCount privdata inode := by
    simp only [BitVec.add_zero, BitVec.sub_zero, firstCount, BitVec.lt_def, size, block]
    split
    · simp
    · rfl
  have area : (privdata.directBlocksAreaSize.setWidth 64).toNat = 12 * privdata.blockSize.toNat := by
    rw [toNat_setWidth_word, geometry.direct]
  have low := geometry.low
  have ends : (firstCount privdata inode).setWidth 64 + 0#64 < privdata.directBlocksAreaSize.setWidth 64 := by
    have top := (firstCount privdata inode).isLt
    rw [BitVec.add_zero, BitVec.lt_def, area, BitVec.toNat_setWidth, Nat.mod_eq_of_lt (by omega)]
    omega
  have starts : 0#64 < privdata.directBlocksAreaSize.setWidth 64 := by
    rw [BitVec.lt_def, area]
    change 0 < _
    omega
  rw [readData]
  dsimp only
  rw [count]
  by_cases empty : inode.iSize = 0#32
  · rw [if_pos empty, if_pos (by rw [empty]; decide)]
  · have positive : 0 < inode.iSize.toNat := by
      apply Nat.pos_of_ne_zero
      intro zero
      exact empty (BitVec.eq_of_toNat_eq zero)
    rw [if_neg empty, if_neg (by rw [BitVec.le_def, size]; exact Nat.not_le.mpr positive)]
    by_cases inline : inode.iBlocks = 0#32
    · rw [if_pos inline, if_pos ⟨by rw [BitVec.lt_def]; exact positive, inline⟩]
      rfl
    · rw [if_neg inline, if_neg fun both => inline both.2, readDirectArea]
      dsimp only
      rw [if_pos starts, if_pos ends, BitVec.add_comm 0#64, if_pos ends]
      rfl

/-- As much as there is, or the error of a missing buffer. -/
theorem readData_first_result (geometry : BlockGeometry privdata) {fuel request : Nat} {mem : Memory} {buffer : Word}
    {read : ReadResult}
    (run : readData disk heap privdata fuel inode request 0#64 mem buffer privdata.blockSize = some read) :
    read.result.toNat = min inode.iSize.toNat privdata.blockSize.toNat ∨ read.result = noMemory := by
  rw [readData_first geometry] at run
  by_cases empty : inode.iSize = 0#32
  · rw [if_pos empty] at run
    cases run
    left
    rw [empty]
    exact (Nat.zero_min _).symm
  rw [if_neg empty] at run
  by_cases inline : inode.iBlocks = 0#32
  · rw [if_pos inline] at run
    split at run
    · cases run
      exact .inl toNat_firstCount
    · cases run
  rw [if_neg inline] at run
  cases run
  rw [← toNat_firstCount]
  by_cases short : (firstCount privdata inode).toNat < privdata.blockSize.toNat
  · rw [readBlocksData_part geometry _ short]
    split
    · exact .inl rfl
    · exact .inr rfl
  · have whole : firstCount privdata inode = privdata.blockSize := by
      apply BitVec.eq_of_toNat_eq
      rw [toNat_firstCount] at short ⊢
      omega
    rw [whole, readBlocksData_whole geometry]
    exact .inl rfl

end First

/-! ## Whatever a directory contains -/

section Search

variable (disk : Disk) (heap : DirtyHeap) (privdata : Ext2Privdata) (inode : Ext2Inode) (name : Block) (request : Nat)

/-- The read of the first block, into the buffer that has just been granted. -/
def readFirst : Option ReadResult :=
  readData disk heap privdata 0 inode (request + 1) 0#64 (fun address => heap.holds request address.toNat) 0#32
    privdata.blockSize

/-- The block buffer behind a read. -/
def bufferOf (read : ReadResult) : Block := fun i => read.mem (BitVec.ofNat 32 i)

/-- A search reads the block buffer alone, and takes no record for the one with the name that is none of the
directory. -/
def Contained (search : DirectorySearch) : Prop :=
  InBlock privdata.blockSize.toNat search.reads ∧
    ∀ found, search.result = .ok found → WellFormedEntry inode.iSize.toNat search.block found.dirEntry

/-- Of the records of the first block, one that is refused has its header in the block, or one that matches is
a record of the directory, or the last ends the directory. -/
def FirstBlockEnds : Prop :=
  VFS.sIsdir (inode.iMode.setWidth 32) = true → heap.grants request = true →
    ∃ read, readFirst disk heap privdata inode request = some read ∧
      ∃ last, Passes privdata.blockSize.toNat read.result name (bufferOf read) 0 last ∧
        (Corrupted privdata.blockSize.toNat (bufferOf read) last ∧
            (last % 4 ≠ 0 ∨ last + 8 ≤ privdata.blockSize.toNat) ∨
          ¬ Corrupted privdata.blockSize.toNat (bufferOf read) last ∧ Matches name (bufferOf read) last ∧
            WellFormedEntry inode.iSize.toNat (bufferOf read) last ∨
          ¬ Decides privdata.blockSize.toNat name (bufferOf read) last ∧
            read.result.toNat ≤ last + recLen (bufferOf read) last ∧
            inode.iSize.toNat ≤ last + recLen (bufferOf read) last)

/-- The end of the outer loop's first round. -/
def afterFirst (fuel rounds : Nat) (read : ReadResult) : BlockScan × List (Nat × Nat) → Option DirectorySearch
  | (.returned result, reads) => some ⟨result, bufferOf read, reads⟩
  | (.passed cursor, reads) =>
    if BitVec.ofNat 32 cursor.scannedBlockBytes < inode.iSize then
      searchBlocks disk heap privdata fuel inode name rounds 1 read.request read.mem cursor reads
    else some ⟨.error (-enoent), bufferOf read, reads⟩

variable {disk heap privdata inode name request}

/-- The first round: the read, the scan, and what the scan leads to. -/
theorem findDirectoryEntry_first (geometry : BlockGeometry privdata)
    (directory : VFS.sIsdir (inode.iMode.setWidth 32) = true) (granted : heap.grants request = true) (fuel : Nat) :
    findDirectoryEntry disk heap privdata (fuel + 1) inode name request =
      (readFirst disk heap privdata inode request).bind fun read =>
        (scanBlock privdata.blockSize.toNat read.result name (bufferOf read) (fuel + 1) (.at 0 0) []).bind
          (afterFirst disk heap privdata inode name (fuel + 1) fuel read) := by
  have start : (BitVec.ofNat 32 0 * privdata.diskBlocksPerFSBlock).setWidth 64 = 0#64 := by simp
  have zero : BitVec.ofNat 32 0 * privdata.blockSize = 0#32 := by simp
  have read : readData disk heap privdata (fuel + 1) inode (request + 1) 0#64
      (fun address => heap.holds request address.toNat) 0#32 privdata.blockSize =
        readFirst disk heap privdata inode request := by
    rw [readFirst, readData_first geometry, readData_first geometry]
  rw [findDirectoryEntry, if_neg (by rw [directory]; decide), if_neg (by rw [granted]; decide), searchBlocks]
  dsimp only
  rw [start, read]
  congr 1
  funext read
  congr 1
  funext ended
  obtain ⟨scan, reads⟩ := ended
  cases scan with
  | returned result => rfl
  | passed cursor =>
    change (if BitVec.ofNat 32 0 * privdata.blockSize + _ < _ then _ else _) = _
    rw [zero, BitVec.zero_add]
    rfl

theorem scanBlock_ended {blockSize : Nat} {availBytes : Word} {block : Block} {fuel last : Nat}
    {ended : BlockScan × List (Nat × Nat)}
    (run : scanBlock blockSize availBytes name block fuel (.at 0 0) [] = some ended)
    (passes : Passes blockSize availBytes name block 0 last) :
    ∃ fuel prev reads, InBlock blockSize reads ∧
      scanBlock blockSize availBytes name block (fuel + 1) (.at last prev) reads = some ended := by
  obtain ⟨steps, prev, more, inside, runs⟩ := scanBlock_passes passes 0 []
  have further := scanBlock_mono run steps
  rw [runs, List.nil_append] at further
  cases fuel with
  | zero => cases run
  | succ fuel => exact ⟨fuel, prev, more, inside, further⟩

theorem scanBlock_starts {blockSize : Nat} {availBytes : Word} {block : Block} {last : Nat}
    (passes : Passes blockSize availBytes name block 0 last) :
    ∃ fuel prev reads, InBlock blockSize reads ∧ scanBlock blockSize availBytes name block (fuel + 1) (.at 0 0) [] =
      scanBlock blockSize availBytes name block 1 (.at last prev) reads := by
  obtain ⟨steps, prev, more, inside, runs⟩ := scanBlock_passes passes 0 []
  exact ⟨steps, prev, more, inside, by rw [Nat.add_comm, runs, List.nil_append]⟩

/-- A second block is begun behind the buffer: nothing is found there. -/
theorem afterFirst_behind {fuel rounds : Nat} {read : ReadResult} {cursor : EntryCursor} {reads : List (Nat × Nat)}
    {search : DirectorySearch} (behind : cursor.dirEntry = privdata.blockSize.toNat)
    (aligned : privdata.blockSize.toNat % 4 = 0)
    (further : BitVec.ofNat 32 cursor.scannedBlockBytes < inode.iSize)
    (run : afterFirst disk heap privdata inode name fuel rounds read (.passed cursor, reads) = some search) :
    search.result = .error (-eio) ∧ (privdata.blockSize.toNat + 4, 4) ∈ search.reads := by
  rw [afterFirst, if_pos further] at run
  cases rounds with
  | zero => cases run
  | succ rounds =>
    rw [searchBlocks] at run
    obtain ⟨read', _, run⟩ := Option.bind_eq_some_iff.mp run
    obtain ⟨ended, scan, run⟩ := Option.bind_eq_some_iff.mp run
    cases fuel with
    | zero => cases scan
    | succ fuel =>
      rw [scanBlock_corrupted (corrupted_behind (by rw [behind]))] at scan
      cases scan
      cases run
      refine ⟨rfl, List.mem_append_right _ ?_⟩
      rw [refusedReads, behind, if_neg (by omega)]
      exact List.mem_singleton_self _

/-- Where the first round goes through the whole block, the cursor is behind the block or the directory ends. -/
theorem passed_end (geometry : BlockGeometry privdata) {read : ReadResult}
    (first : readFirst disk heap privdata inode request = some read) {last : Nat}
    (goesOn : ¬ Decides privdata.blockSize.toNat name (bufferOf read) last)
    (stops : read.result.toNat ≤ last + recLen (bufferOf read) last) :
    last + recLen (bufferOf read) last ≤ privdata.blockSize.toNat ∧
      (inode.iSize.toNat ≤ last + recLen (bufferOf read) last ∨
        last + recLen (bufferOf read) last = privdata.blockSize.toNat) := by
  have high := geometry.high
  have inside := (sound_bounds fun corrupted => goesOn (.inl corrupted)).2.2.2
  refine ⟨inside, ?_⟩
  rcases readData_first_result geometry first with available | failed
  · omega
  · have huge : read.result.toNat = 2 ^ 32 - enomem := by
      rw [failed]
      decide
    unfold enomem at huge
    omega

theorem further_iff (geometry : BlockGeometry privdata) {offset : Nat} (inside : offset ≤ privdata.blockSize.toNat) :
    BitVec.ofNat 32 offset < inode.iSize ↔ offset < inode.iSize.toNat := by
  have high := geometry.high
  rw [BitVec.lt_def, BitVec.toNat_ofNat, Nat.mod_eq_of_lt (by omega)]

theorem FirstBlockEnds.contained (geometry : BlockGeometry privdata)
    (ends : FirstBlockEnds disk heap privdata inode name request) :
    ∃ fuel search, findDirectoryEntry disk heap privdata fuel inode name request = some search ∧
      Contained privdata inode search := by
  by_cases directory : VFS.sIsdir (inode.iMode.setWidth 32) = true
  swap
  · refine ⟨0, ⟨.error (-enotdir), fun _ => 0#8, []⟩, ?_, List.forall_mem_nil _, ?_⟩
    · rw [findDirectoryEntry, if_pos (Bool.not_eq_true _ ▸ directory)]
    · intro found result
      cases result
  by_cases granted : heap.grants request = true
  swap
  · refine ⟨0, ⟨.error (-enomem), fun _ => 0#8, []⟩, ?_, List.forall_mem_nil _, ?_⟩
    · rw [findDirectoryEntry, if_neg (by rw [directory]; decide), if_pos (Bool.not_eq_true _ ▸ granted)]
    · intro found result
      cases result
  obtain ⟨read, first, last, passes, ends⟩ := ends directory granted
  obtain ⟨fuel, prev, reads, inside, starts⟩ := scanBlock_starts passes
  refine ⟨fuel + 1, ?_⟩
  rw [findDirectoryEntry_first geometry directory granted, first, Option.bind_some, starts]
  rcases ends with ⟨corrupted, header⟩ | ⟨sound, found, formed⟩ | ⟨goesOn, stops, all⟩
  · rw [scanBlock_corrupted corrupted]
    refine ⟨_, rfl, inBlock_append.mpr ⟨inside, ?_⟩, ?_⟩
    · change InBlock _ (refusedReads last)
      rw [refusedReads]
      split
      · nofun
      · intro read among
        cases List.mem_singleton.mp among
        change last + 4 + 4 ≤ _
        omega
    · intro found result
      cases result
  · rw [scanBlock_found sound found]
    refine ⟨_, rfl, inBlock_append.mpr ⟨inBlock_append.mpr ⟨inside, inBlock_record sound⟩, ?_⟩, ?_⟩
    · obtain ⟨_, long, _, inside⟩ := sound_bounds sound
      intro read among
      cases List.mem_singleton.mp among
      change last + 4 ≤ _
      omega
    · intro found result
      cases result
      exact formed
  · have inside' := (passed_end geometry first goesOn stops).1
    rw [scanBlock_passed goesOn stops, Option.bind_some, afterFirst, if_neg]
    · refine ⟨_, rfl, inBlock_append.mpr ⟨inside, inBlock_record fun corrupted => goesOn (.inl corrupted)⟩, ?_⟩
      intro found result
      cases result
    · change ¬ BitVec.ofNat 32 (last + recLen (bufferOf read) last) < inode.iSize
      rw [further_iff geometry inside']
      exact Nat.not_lt.mpr all

theorem firstBlockEnds_of_contained (geometry : BlockGeometry privdata) {fuel : Nat} {search : DirectorySearch}
    (run : findDirectoryEntry disk heap privdata fuel inode name request = some search)
    (contained : Contained privdata inode search) : FirstBlockEnds disk heap privdata inode name request := by
  intro directory granted
  cases fuel with
  | zero =>
    rw [findDirectoryEntry, if_neg (by rw [directory]; decide), if_neg (by rw [granted]; decide)] at run
    cases run
  | succ fuel =>
    rw [findDirectoryEntry_first geometry directory granted] at run
    obtain ⟨read, first, run⟩ := Option.bind_eq_some_iff.mp run
    obtain ⟨ended, scan, run⟩ := Option.bind_eq_some_iff.mp run
    obtain ⟨last, passes, ends⟩ := exists_last 0
    obtain ⟨fuel', prev, reads, _, scan⟩ := scanBlock_ended scan passes
    refine ⟨read, first, last, passes, ?_⟩
    by_cases corrupted : Corrupted privdata.blockSize.toNat (bufferOf read) last
    · refine .inl ⟨corrupted, ?_⟩
      have refused : Corrupted privdata.blockSize.toNat (bufferOf read) (EntryCursor.at last prev).dirEntry := corrupted
      rw [scanBlock_corrupted refused] at scan
      cases scan
      cases run
      by_cases misaligned : last % 4 ≠ 0
      · exact .inl misaligned
      · have header := contained.1 (last + 4, 4) (List.mem_append_right _ (by
          change _ ∈ refusedReads last
          rw [refusedReads, if_neg misaligned]
          exact List.mem_singleton_self _))
        exact .inr (by omega)
    by_cases found : Matches name (bufferOf read) last
    · refine .inr (.inl ⟨corrupted, found, ?_⟩)
      rw [scanBlock_found corrupted found] at scan
      cases scan
      cases run
      exact contained.2 _ rfl
    have goesOn : ¬ Decides privdata.blockSize.toNat name (bufferOf read) last := not_or.mpr ⟨corrupted, found⟩
    have stops := ends.resolve_left goesOn
    obtain ⟨inside, all⟩ := passed_end geometry first goesOn stops
    refine .inr (.inr ⟨goesOn, stops, ?_⟩)
    rcases all with all | behind
    · exact all
    by_contra further
    rw [scanBlock_passed goesOn stops] at scan
    cases scan
    have outside := (afterFirst_behind behind geometry.aligned
      ((further_iff geometry inside).mpr (Nat.lt_of_not_le further)) run).2
    have limit := contained.1 _ outside
    omega

end Search
end FluxOS.Ext2
