import FluxOS.Ext2Read

/-! What `ReadBlocksData` and the loop over indirect blocks copy, on a device with
blocks of 1024 bytes: the bytes an array of block numbers leads to. -/
namespace FluxOS.Ext2
open Words UserMemoryOps BlockDevice

/-- What the entries of a block lead to: the direct blocks, and the blocks that an indirect and a double
indirect block lead to. -/
def directArea : Nat := 12288
def indirectArea : Nat := 262144
def doubleArea : Nat := 67108864

section Geometry

variable {sblock : Ext2SuperBlock}

theorem blockSize_small (small : sblock.sLogBlockSize = 0#32) : (privdataOf sblock).blockSize = 1024#32 := by
  simp [privdataOf, small]

theorem diskBlockLog_small (small : sblock.sLogBlockSize = 0#32) : (privdataOf sblock).diskBlockLog = 1#32 := by
  simp [privdataOf, small]

theorem indirectBlockEntries_small (small : sblock.sLogBlockSize = 0#32) :
    (privdataOf sblock).indirectBlockEntries = 256#32 := by
  simp [privdataOf, small]

theorem directIndirectBlocksAreaSize_small (small : sblock.sLogBlockSize = 0#32) :
    (privdataOf sblock).directIndirectBlocksAreaSize = 274432#32 := by
  simp [privdataOf, small, ext2NdirBlocks]

theorem doubleIndirectBlocksAreaSize_small (small : sblock.sLogBlockSize = 0#32) :
    (privdataOf sblock).doubleIndirectBlocksAreaSize = 67108864#32 := by
  simp [privdataOf, small]

theorem dirIndirDIndirBlocksAreaSize_small (small : sblock.sLogBlockSize = 0#32) :
    (privdataOf sblock).dirIndirDIndirBlocksAreaSize = 67383296#32 := by
  simp [privdataOf, small, ext2NdirBlocks]

theorem blocksPerFSBlock_small (small : sblock.sLogBlockSize = 0#32) :
    (privdataOf sblock).diskBlocksPerFSBlock = 2#32 := by
  simp [privdataOf, small]

end Geometry

section Bytes

variable (disk : Disk)

/-- A byte of the block with that number, where the code looks for it. -/
def blockByte (number : Word) : Block := fun i => disk (sectorSize * (number <<< 1).toNat + i)

/-- The bytes an array of block numbers leads to. -/
def arrayByte (numbers : Nat → Word) (pos : Nat) : Byte := blockByte disk (numbers (pos / 1024)) (pos % 1024)

/-- The bytes an array of numbers of indirect blocks leads to. -/
def indirectByte (numbers : Nat → Word) (pos : Nat) : Byte :=
  arrayByte disk (blockNumbers (blockByte disk (numbers (pos / indirectArea)))) (pos % indirectArea)

/-- The bytes an array of numbers of double indirect blocks leads to. -/
def doubleByte (numbers : Nat → Word) (pos : Nat) : Byte :=
  indirectByte disk (blockNumbers (blockByte disk (numbers (pos / doubleArea)))) (pos % doubleArea)

end Bytes

section Blocks

variable {disk : Disk} {heap : DirtyHeap} {sblock : Ext2SuperBlock}

theorem readFSBlock_apply (small : sblock.sLogBlockSize = 0#32) (number : Word) (memory : Block) {i : Nat}
    (inside : i < 1024) : readFSBlock disk (privdataOf sblock) number memory i = blockByte disk number i := by
  unfold readFSBlock readBlock
  rw [diskBlockLog_small small, blocksPerFSBlock_small small]
  exact if_pos inside

/-- The numbers in a block that has been read. -/
theorem blockNumbers_readFSBlock (small : sblock.sLogBlockSize = 0#32) (number : Word) (memory : Block) {k : Nat}
    (inside : k < 256) : blockNumbers (readFSBlock disk (privdataOf sblock) number memory) k =
      blockNumbers (blockByte disk number) k :=
  le32_congr _ fun i bound => readFSBlock_apply small number memory (by omega)

theorem arrayByte_congr {numbers others : Nat → Word} (same : ∀ k < 256, numbers k = others k) {pos : Nat}
    (inside : pos < indirectArea) : arrayByte disk numbers pos = arrayByte disk others pos := by
  unfold indirectArea at inside
  unfold arrayByte
  rw [same (pos / 1024) (by omega)]

theorem indirectByte_congr {numbers others : Nat → Word} (same : ∀ k < 256, numbers k = others k) {pos : Nat}
    (inside : pos < doubleArea) : indirectByte disk numbers pos = indirectByte disk others pos := by
  unfold doubleArea at inside
  unfold indirectByte
  rw [same (pos / indirectArea) (by unfold indirectArea; omega)]

theorem doubleByte_congr {numbers others : Nat → Word} (same : ∀ k < 256, numbers k = others k) {pos : Nat}
    (inside : pos < 2 ^ 32) : doubleByte disk numbers pos = doubleByte disk others pos := by
  unfold doubleByte
  rw [same (pos / doubleArea) (by unfold doubleArea; omega)]

/-- Whole blocks, the one behind the other. -/
theorem readWholeBlocks_eq (small : sblock.sLogBlockSize = 0#32) (numbers : Nat → Word) (mem : Memory) (buffer : Word)
    (i count : Nat) : readWholeBlocks disk (privdataOf sblock) numbers mem buffer i count =
      copyIn mem buffer (fun j => arrayByte disk numbers (1024 * i + j)) (1024 * count) := by
  induction count generalizing mem buffer i with
  | zero => rfl
  | succ count ih =>
    have one : readFSBlockTo disk (privdataOf sblock) (numbers i) mem buffer =
        copyIn mem buffer (fun j => arrayByte disk numbers (1024 * i + j)) 1024 := by
      have size : sectorSize * (privdataOf sblock).diskBlocksPerFSBlock.toNat = 1024 := by
        rw [blocksPerFSBlock_small small]
        rfl
      rw [readFSBlockTo, size]
      apply copyIn_congr
      intro j bound
      rw [readFSBlock_apply small (numbers i) _ bound, arrayByte, show (1024 * i + j) / 1024 = i by omega,
        show (1024 * i + j) % 1024 = j by omega]
    rw [readWholeBlocks, one, blockSize_small small, ih, copyIn_append, show 1024 + 1024 * count = 1024 * (count + 1) by omega]
    apply copyIn_congr
    intro j bound
    by_cases first : j < 1024
    · rw [if_pos first]
    · rw [if_neg first, show 1024 * (i + 1) + (j - 1024) = 1024 * i + j by omega]

/-- A part of one block. -/
theorem copyIn_part (disk : Disk) (small : sblock.sLogBlockSize = 0#32) (numbers : Nat → Word) (mem : Memory) (buffer : Word)
    (memory : Block) (startBlock offset count : Nat) (inside : offset + count ≤ 1024) :
    copyIn mem buffer
        (fun i => readFSBlock disk (privdataOf sblock) (numbers startBlock) memory (offset + i)) count =
      copyIn mem buffer (fun j => arrayByte disk numbers (1024 * startBlock + offset + j)) count := by
  apply copyIn_congr
  intro j bound
  rw [readFSBlock_apply small _ _ (by omega), arrayByte, show (1024 * startBlock + offset + j) / 1024 = startBlock by omega,
    show (1024 * startBlock + offset + j) % 1024 = offset + j by omega]

/-- Behind the first block: as much as is asked for and is there. -/
theorem readFurtherBlocks_eq (disk : Disk) (small : sblock.sLogBlockSize = 0#32) (granted : ∀ n, heap.grants n = true) (request : Nat)
    (numbers : Nat → Word) (mem : Memory) (startBuf read bufsize startBlock : Word) (within : read.toNat ≤ bufsize.toNat)
    (start : startBlock.toNat ≤ 256) : ∃ request', readFurtherBlocks disk heap (privdataOf sblock) request numbers startBlock mem
        startBuf read bufsize =
      let count := min (bufsize.toNat - read.toNat) (1024 * (256 - startBlock.toNat))
      ⟨read + BitVec.ofNat 32 count,
        copyIn mem (startBuf + read) (fun j => arrayByte disk numbers (1024 * startBlock.toNat + j)) count, request'⟩ := by
  by_cases all : read = bufsize
  · refine ⟨request, ?_⟩
    simp [readFurtherBlocks, all, copyIn]
  obtain ⟨rest, restEq⟩ : ∃ rest, bufsize - read = rest := ⟨_, rfl⟩
  have restNat : rest.toNat = bufsize.toNat - read.toNat := by
    rw [← restEq, BitVec.toNat_sub_of_le within]
  obtain ⟨last, lastEq⟩ : ∃ last, rest / 1024#32 + startBlock = last := ⟨_, rfl⟩
  have lastNat : last.toNat = rest.toNat / 1024 + startBlock.toNat := by
    have bound := rest.isLt
    rw [← lastEq, BitVec.toNat_add, BitVec.toNat_udiv]
    simp
    omega
  simp only [readFurtherBlocks, if_neg all, blockSize_small small, indirectBlockEntries_small small, restEq, lastEq,
    ← restNat, readWholeBlocks_eq small, granted, if_true]
  by_cases beyond : 256#32 ≤ last
  · -- up to the last of the blocks
    have beyondNat : 256 ≤ last.toNat := beyond
    have whole : min rest.toNat (1024 * (256 - startBlock.toNat)) = 1024 * (256 - startBlock.toNat) := by omega
    rw [if_pos beyond, if_neg (fun both => absurd both.1 (by simp)), whole]
    refine ⟨request, ?_⟩
    simp [BitVec.ofNat_mul]
  · have beforeNat : last.toNat < 256 := Nat.not_le.mp beyond
    have whole : min rest.toNat (1024 * (256 - startBlock.toNat)) = rest.toNat := by omega
    have count : last.toNat - startBlock.toNat = rest.toNat / 1024 := by omega
    have part : (rest % 1024#32).toNat = rest.toNat % 1024 := by simp
    rw [if_neg beyond, count, whole]
    by_cases rounded : rest % 1024#32 = 0#32
    · have roundedNat : rest.toNat % 1024 = 0 := by
        rw [← part, rounded]
        rfl
      rw [if_neg (fun both => both.2 rounded)]
      refine ⟨request, ?_⟩
      rw [show 1024 * (rest.toNat / 1024) = rest.toNat by omega, ReadResult.mk.injEq]
      refine ⟨?_, rfl, rfl⟩
      rw [← BitVec.ofNat_mul, show 1024 * (rest.toNat / 1024) = rest.toNat by omega]
    · rw [if_pos ⟨BitVec.not_le.mp beyond, rounded⟩]
      refine ⟨request + 1, ?_⟩
      have tail := copyIn_part disk small numbers (copyIn mem (startBuf + read)
          (fun j => arrayByte disk numbers (1024 * startBlock.toNat + j)) (1024 * (rest.toNat / 1024)))
        (startBuf + read + BitVec.ofNat 32 (1024 * (rest.toNat / 1024))) (heap.holds request)
        last.toNat 0 (rest.toNat % 1024) (by omega)
      simp only [Nat.zero_add, Nat.add_zero] at tail
      have place : startBuf + (read + 1024#32 * BitVec.ofNat 32 (rest.toNat / 1024)) =
          startBuf + read + BitVec.ofNat 32 (1024 * (rest.toNat / 1024)) := by
        rw [BitVec.ofNat_mul, BitVec.add_assoc]
      rw [part, place, tail, copyIn_append, show 1024 * (rest.toNat / 1024) + rest.toNat % 1024 = rest.toNat by omega,
        ReadResult.mk.injEq]
      refine ⟨?_, ?_, rfl⟩
      · apply BitVec.eq_of_toNat_eq
        simp
        omega
      · apply copyIn_congr
        intro j bound
        by_cases first : j < 1024 * (rest.toNat / 1024)
        · rw [if_pos first]
        · rw [if_neg first, show 1024 * last.toNat + (j - 1024 * (rest.toNat / 1024)) = 1024 * startBlock.toNat + j by omega]

/-- `ReadBlocksData`: as much as is asked for and the array leads to. -/
theorem readBlocksData_eq (disk : Disk) (small : sblock.sLogBlockSize = 0#32) (granted : ∀ n, heap.grants n = true) (request : Nat)
    (numbers : Nat → Word) (pos : Word) (mem : Memory) (buffer bufsize : Word) (inside : pos.toNat < indirectArea) :
    ∃ request', readBlocksData disk heap (privdataOf sblock) request numbers pos mem buffer bufsize =
      let count := min bufsize.toNat (indirectArea - pos.toNat)
      ⟨BitVec.ofNat 32 count, copyIn mem buffer (fun j => arrayByte disk numbers (pos.toNat + j)) count, request'⟩ := by
  unfold indirectArea at inside ⊢
  obtain ⟨start, startEq⟩ : ∃ start, pos / 1024#32 = start := ⟨_, rfl⟩
  obtain ⟨offset, offsetEq⟩ : ∃ offset, pos % 1024#32 = offset := ⟨_, rfl⟩
  have startNat : start.toNat = pos.toNat / 1024 := by simp [← startEq]
  have offsetNat : offset.toNat = pos.toNat % 1024 := by simp [← offsetEq]
  have before : start < 256#32 := by
    rw [BitVec.lt_def, startNat]
    simp
    omega
  simp only [readBlocksData, blockSize_small small, indirectBlockEntries_small small, granted, if_true, startEq, offsetEq]
  by_cases part : offset ≠ 0#32 ∨ offset = 0#32 ∧ bufsize < 1024#32
  · rw [if_pos ⟨part, before⟩]
    obtain ⟨length, lengthEq⟩ :
        ∃ length, (if bufsize < 1024#32 - offset then bufsize else 1024#32 - offset) = length := ⟨_, rfl⟩
    have room : (1024#32 - offset).toNat = 1024 - offset.toNat := by
      rw [BitVec.toNat_sub_of_le (by rw [BitVec.le_def]; simp; omega)]
      rfl
    have lengthNat : length.toNat = min bufsize.toNat (1024 - offset.toNat) := by
      rw [← lengthEq, ← room]
      split
      · rename_i less
        have lessNat : bufsize.toNat < (1024#32 - offset).toNat := less
        omega
      · rename_i more
        have moreNat : (1024#32 - offset).toNat ≤ bufsize.toNat := Nat.not_lt.mp more
        omega
    have next : (start + 1#32).toNat = pos.toNat / 1024 + 1 := by
      rw [BitVec.toNat_add, startNat]
      simp
      omega
    obtain ⟨request', further⟩ := readFurtherBlocks_eq disk small granted (request + 1) numbers
      (copyIn mem buffer (fun i => readFSBlock disk (privdataOf sblock) (numbers start.toNat) (heap.holds request)
        (offset.toNat + i)) length.toNat) buffer length bufsize (start + 1#32) (by omega) (by omega)
    refine ⟨request', ?_⟩
    have behind : buffer + length = buffer + BitVec.ofNat 32 length.toNat := by simp
    rw [lengthEq, further, copyIn_part disk small numbers mem buffer _ _ _ _ (by omega), behind, next]
    dsimp only
    rw [copyIn_append, show length.toNat + min (bufsize.toNat - length.toNat) (1024 * (256 - (pos.toNat / 1024 + 1))) =
      min bufsize.toNat (262144 - pos.toNat) by omega, ReadResult.mk.injEq]
    refine ⟨?_, ?_, rfl⟩
    · apply BitVec.eq_of_toNat_eq
      rw [BitVec.toNat_add, BitVec.toNat_ofNat, BitVec.toNat_ofNat]
      omega
    · apply copyIn_congr
      intro j bound
      by_cases first : j < length.toNat
      · rw [if_pos first, show 1024 * start.toNat + offset.toNat + j = pos.toNat + j by omega]
      · rw [if_neg first, show 1024 * (pos.toNat / 1024 + 1) + (j - length.toNat) = pos.toNat + j by omega]
  · rw [if_neg fun both => part both.1]
    have zero : offset = 0#32 := by
      by_contra other
      exact part (.inl other)
    have zeroNat : offset.toNat = 0 := by rw [zero]; rfl
    obtain ⟨request', further⟩ := readFurtherBlocks_eq disk small granted request numbers mem buffer 0#32 bufsize
      start (by simp) (by omega)
    refine ⟨request', ?_⟩
    rw [further]
    simp only [BitVec.toNat_ofNat, Nat.zero_mod, Nat.sub_zero, BitVec.zero_add, BitVec.add_zero]
    rw [show 1024 * (256 - start.toNat) = 262144 - pos.toNat by omega, show 1024 * start.toNat = pos.toNat by omega]

end Blocks
section Loop

variable {disk : Disk} {heap : DirtyHeap} {sblock : Ext2SuperBlock}

theorem readIndirectLoop_stop (reader : BlockReader) (area : Word) (numbers : Nat → Word) (startBuf : Word)
    (fuel i request : Nat) (mem : Memory) (buffer : Word) {initPos pos bufsize : Word} (done : ¬pos < initPos + bufsize) :
    readIndirectLoop disk heap (privdataOf sblock) reader area numbers startBuf initPos (fuel + 1) i request pos mem buffer
      bufsize = some ⟨buffer - startBuf, mem, request⟩ := by
  rw [readIndirectLoop, if_neg done]

/-- The reader of indirect blocks, as the loop calls it. -/
def blocksReader (disk : Disk) (heap : DirtyHeap) (sblock : Ext2SuperBlock) : BlockReader :=
  fun request indirectBlocks pos mem buffer bufsize =>
    some (readBlocksData disk heap (privdataOf sblock) request indirectBlocks pos mem buffer bufsize)

theorem indirectAreaSize_small (small : sblock.sLogBlockSize = 0#32) :
    (privdataOf sblock).indirectBlocksAreaSize = 262144#32 := by
  simp [privdataOf, small]

theorem readDouble_eq (small : sblock.sLogBlockSize = 0#32) (fuel request : Nat) (numbers : Nat → Word) (pos : Word)
    (mem : Memory) (buffer bufsize : Word) :
    readDoubleIndirectBlocksData disk heap (privdataOf sblock) fuel request numbers pos mem buffer bufsize =
      readIndirectLoop disk heap (privdataOf sblock) (blocksReader disk heap sblock) 262144#32 numbers buffer pos fuel
        (pos.toNat / indirectArea) request pos mem buffer bufsize := by
  have index : (pos / ((privdataOf sblock).indirectBlockEntries * (privdataOf sblock).blockSize)).toNat =
      pos.toNat / indirectArea := by
    rw [indirectBlockEntries_small small, blockSize_small small]
    simp [indirectArea]
  rw [readDoubleIndirectBlocksData, indirectAreaSize_small small, index]
  rfl

/-- One pass of the loop over a double indirect block: `done` bytes are there before. -/
theorem readDouble_step (disk : Disk) (small : sblock.sLogBlockSize = 0#32) (granted : ∀ n, heap.grants n = true)
    (numbers : Nat → Word) (startBuf initPos : Word) (fuel i request : Nat) (pos : Word) (mem : Memory)
    (source : Nat → Byte) (done : Nat) (bufsize : Word) (more : pos < initPos + bufsize) :
    ∃ request', readIndirectLoop disk heap (privdataOf sblock) (blocksReader disk heap sblock) 262144#32 numbers startBuf
        initPos (fuel + 1) i request pos (copyIn mem startBuf source done) (startBuf + BitVec.ofNat 32 done) bufsize =
      let count := min bufsize.toNat (indirectArea - pos.toNat % indirectArea)
      let found := fun j => arrayByte disk (blockNumbers (blockByte disk (numbers i))) (pos.toNat % indirectArea + j)
      readIndirectLoop disk heap (privdataOf sblock) (blocksReader disk heap sblock) 262144#32 numbers startBuf initPos fuel
        (i + 1) request' (pos + BitVec.ofNat 32 (done + count))
        (copyIn mem startBuf (fun j => if j < done then source j else found (j - done)) (done + count))
        (startBuf + BitVec.ofNat 32 (done + count)) (bufsize - BitVec.ofNat 32 (done + count)) := by
  have offset : (pos % 262144#32).toNat = pos.toNat % indirectArea := by simp [indirectArea]
  obtain ⟨request', read⟩ := readBlocksData_eq disk small granted (request + 1)
    (blockNumbers (readFSBlock disk (privdataOf sblock) (numbers i) (heap.holds request))) (pos % 262144#32)
    (copyIn mem startBuf source done) (startBuf + BitVec.ofNat 32 done) bufsize
    (by rw [offset]; exact Nat.mod_lt _ (by decide))
  refine ⟨request', ?_⟩
  obtain ⟨count, countEq⟩ : ∃ count, min bufsize.toNat (indirectArea - pos.toNat % indirectArea) = count := ⟨_, rfl⟩
  have bytes : copyIn (copyIn mem startBuf source done) (startBuf + BitVec.ofNat 32 done)
      (fun j => arrayByte disk (blockNumbers (readFSBlock disk (privdataOf sblock) (numbers i) (heap.holds request)))
        (pos.toNat % indirectArea + j)) count =
      copyIn (copyIn mem startBuf source done) (startBuf + BitVec.ofNat 32 done)
        (fun j => arrayByte disk (blockNumbers (blockByte disk (numbers i))) (pos.toNat % indirectArea + j)) count := by
    apply copyIn_congr
    intro j bound
    exact arrayByte_congr (fun k inside => blockNumbers_readFSBlock small _ _ inside) (by omega)
  have advance : startBuf + BitVec.ofNat 32 (done + count) - startBuf = BitVec.ofNat 32 (done + count) := by
    rw [BitVec.add_comm, BitVec.add_sub_cancel]
  have place : startBuf + BitVec.ofNat 32 done + BitVec.ofNat 32 count = startBuf + BitVec.ofNat 32 (done + count) := by
    rw [BitVec.add_assoc, ← BitVec.ofNat_add]
  rw [offset, countEq] at read
  rw [readIndirectLoop, if_pos more, if_pos (granted request), countEq]
  simp only [blocksReader, read, Option.bind_some, advance, place, bytes, copyIn_append]

/-- The double indirect blocks are read as far as asked: within one indirect block, or from a place that
is not below what the first block gives into the second, which gives more than the first. -/
def DoubleReads (init n : Nat) : Prop :=
  let first := indirectArea - init % indirectArea
  n ≤ first ∨ first < n - first ∧ n - first ≤ indirectArea ∧ first ≤ init

instance (init n : Nat) : Decidable (DoubleReads init n) := inferInstanceAs (Decidable (_ ∨ _))

/-- From the beginning of the area only one indirect block is read. -/
theorem DoubleReads.le_indirectArea {n : Nat} (reads : DoubleReads 0 n) : n ≤ indirectArea := by
  rcases reads with one | ⟨_, _, none⟩
  · rwa [Nat.zero_mod, Nat.sub_zero] at one
  · exact absurd none (by decide)

/-- The bytes that the first pass copies. -/
theorem indirectByte_first (disk : Disk) (numbers : Nat → Word) {pos j : Nat}
    (inside : pos % indirectArea + j < indirectArea) : indirectByte disk numbers (pos + j) =
      arrayByte disk (blockNumbers (blockByte disk (numbers (pos / indirectArea)))) (pos % indirectArea + j) := by
  unfold indirectByte
  unfold indirectArea at inside ⊢
  rw [show (pos + j) / 262144 = pos / 262144 by omega, show (pos + j) % 262144 = pos % 262144 + j by omega]

/-- The bytes that the second pass copies. -/
theorem indirectByte_second (disk : Disk) (numbers : Nat → Word) {pos first j : Nat}
    (rest : pos % indirectArea + first = indirectArea) (later : first ≤ j) (inside : j < first + indirectArea) :
    indirectByte disk numbers (pos + j) =
      arrayByte disk (blockNumbers (blockByte disk (numbers (pos / indirectArea + 1)))) (j - first) := by
  unfold indirectByte
  unfold indirectArea at rest inside ⊢
  rw [show (pos + j) / 262144 = pos / 262144 + 1 by omega, show (pos + j) % 262144 = j - first by omega]

theorem readDouble_right (disk : Disk) (small : sblock.sLogBlockSize = 0#32) (granted : ∀ n, heap.grants n = true) (fuel request : Nat)
    (numbers : Nat → Word) (pos : Word) (mem : Memory) (buffer bufsize : Word)
    (within : pos.toNat + bufsize.toNat ≤ doubleArea) (reads : DoubleReads pos.toNat bufsize.toNat) :
    ∃ request', readDoubleIndirectBlocksData disk heap (privdataOf sblock) (fuel + 3) request numbers pos mem buffer bufsize =
      some ⟨bufsize, copyIn mem buffer (fun j => indirectByte disk numbers (pos.toNat + j)) bufsize.toNat, request'⟩ := by
  unfold doubleArea at within
  rw [readDouble_eq small]
  have sum : (pos + bufsize).toNat = pos.toNat + bufsize.toNat := by
    rw [BitVec.toNat_add]
    omega
  by_cases nothing : bufsize = 0#32
  · refine ⟨request, ?_⟩
    rw [readIndirectLoop_stop _ _ _ _ _ _ _ _ _ (by simp [nothing])]
    simp [nothing, copyIn]
  have positive : 0 < bufsize.toNat := toNat_pos nothing
  obtain ⟨first, firstEq⟩ : ∃ first, indirectArea - pos.toNat % indirectArea = first := ⟨_, rfl⟩
  have whole : pos.toNat % indirectArea + first = indirectArea := by
    have below : pos.toNat % indirectArea < indirectArea := Nat.mod_lt _ (by decide)
    omega
  obtain ⟨request₁, step⟩ := readDouble_step disk small granted numbers buffer pos (fuel + 2) (pos.toNat / indirectArea)
    request pos mem (fun _ => 0#8) 0 bufsize (by rw [BitVec.lt_def, sum]; omega)
  simp only [copyIn, BitVec.add_zero, Nat.zero_add, Nat.not_lt_zero, if_false, Nat.sub_zero, firstEq] at step
  unfold DoubleReads at reads
  rw [step]
  simp only [firstEq] at reads
  rcases reads with one | ⟨less, fits, behind⟩
  · -- all of it is within the first indirect block
    have all : bufsize - BitVec.ofNat 32 bufsize.toNat = 0#32 := by simp
    refine ⟨request₁, ?_⟩
    rw [min_eq_left one, all, readIndirectLoop_stop _ _ _ _ _ _ _ _ _ (by rw [BitVec.lt_def]; simp; omega)]
    have advance : buffer + BitVec.ofNat 32 bufsize.toNat - buffer = bufsize := by
      rw [BitVec.add_comm, BitVec.add_sub_cancel]
      simp
    have bytes : copyIn mem buffer (fun j => arrayByte disk (blockNumbers (blockByte disk (numbers (pos.toNat / indirectArea))))
        (pos.toNat % indirectArea + j)) bufsize.toNat =
        copyIn mem buffer (fun j => indirectByte disk numbers (pos.toNat + j)) bufsize.toNat := by
      apply copyIn_congr
      intro j bound
      exact (indirectByte_first disk numbers (by omega)).symm
    rw [advance, bytes]
  · -- the rest is in the second, and makes the loop stop
    have rest : (bufsize - BitVec.ofNat 32 first).toNat = bufsize.toNat - first := by
      rw [BitVec.toNat_sub_of_le (by rw [BitVec.le_def, BitVec.toNat_ofNat]; omega), BitVec.toNat_ofNat]
      omega
    have place : (pos + BitVec.ofNat 32 first).toNat = pos.toNat + first := by
      rw [BitVec.toNat_add, BitVec.toNat_ofNat]
      omega
    have aligned : (pos.toNat + first) % indirectArea = 0 := by
      unfold indirectArea at whole ⊢
      omega
    obtain ⟨request₂, again⟩ := readDouble_step disk small granted numbers buffer pos (fuel + 1)
      (pos.toNat / indirectArea + 1) request₁ (pos + BitVec.ofNat 32 first) mem
      (fun j => arrayByte disk (blockNumbers (blockByte disk (numbers (pos.toNat / indirectArea))))
        (pos.toNat % indirectArea + j)) first (bufsize - BitVec.ofNat 32 first)
      (by rw [BitVec.lt_def, place, BitVec.toNat_add, rest]; omega)
    simp only [rest, place, aligned, Nat.sub_zero, min_eq_left fits, show first + (bufsize.toNat - first) = bufsize.toNat by omega]
      at again
    have bytes : copyIn mem buffer (fun j => if j < first then
          arrayByte disk (blockNumbers (blockByte disk (numbers (pos.toNat / indirectArea)))) (pos.toNat % indirectArea + j)
        else arrayByte disk (blockNumbers (blockByte disk (numbers (pos.toNat / indirectArea + 1)))) (0 + (j - first)))
          bufsize.toNat =
        copyIn mem buffer (fun j => indirectByte disk numbers (pos.toNat + j)) bufsize.toNat := by
      apply copyIn_congr
      intro j bound
      by_cases before : j < first
      · rw [if_pos before, indirectByte_first disk numbers (by omega)]
      · rw [if_neg before, indirectByte_second disk numbers whole (by omega) (by omega), Nat.zero_add]
    have advance : buffer + BitVec.ofNat 32 bufsize.toNat - buffer = bufsize := by
      rw [BitVec.add_comm, BitVec.add_sub_cancel]
      simp
    have stop : ¬pos + BitVec.ofNat 32 first + BitVec.ofNat 32 bufsize.toNat <
        pos + (bufsize - BitVec.ofNat 32 first - BitVec.ofNat 32 bufsize.toNat) := by
      rw [BitVec.lt_def, BitVec.toNat_add, place, BitVec.toNat_add pos, BitVec.toNat_sub _ (BitVec.ofNat 32 bufsize.toNat),
        rest, BitVec.toNat_ofNat]
      omega
    refine ⟨request₂, ?_⟩
    rw [show min bufsize.toNat first = first by omega, again, bytes, readIndirectLoop_stop _ _ _ _ _ _ _ _ _ stop, advance]

/-- The bytes under one double indirect block. -/
theorem doubleByte_first (disk : Disk) (numbers : Nat → Word) {pos j : Nat} (inside : pos % doubleArea + j < doubleArea) :
    doubleByte disk numbers (pos + j) =
      indirectByte disk (blockNumbers (blockByte disk (numbers (pos / doubleArea)))) (pos % doubleArea + j) := by
  unfold doubleByte
  unfold doubleArea at inside ⊢
  rw [show (pos + j) / 67108864 = pos / 67108864 by omega, show (pos + j) % 67108864 = pos % 67108864 + j by omega]

/-- The double indirect block that a position lies under. -/
theorem toNat_doubleIndex (small : sblock.sLogBlockSize = 0#32) (pos : Word) :
    (pos / ((privdataOf sblock).indirectBlockEntries * (privdataOf sblock).indirectBlockEntries *
      (privdataOf sblock).blockSize)).toNat = pos.toNat / doubleArea := by
  rw [indirectBlockEntries_small small, blockSize_small small]
  simp [doubleArea]

/-- The triple indirect blocks are read as far as the double indirect blocks are, within one of them. -/
theorem readTriple_right (disk : Disk) (small : sblock.sLogBlockSize = 0#32) (granted : ∀ n, heap.grants n = true) (fuel request : Nat)
    (numbers : Nat → Word) (pos : Word) (mem : Memory) (buffer bufsize : Word)
    (within : pos.toNat + bufsize.toNat < 2 ^ 32) (inside : pos.toNat % doubleArea + bufsize.toNat ≤ doubleArea)
    (reads : DoubleReads (pos.toNat % doubleArea) bufsize.toNat) :
    ∃ request', readTripleIndirectBlocksData disk heap (privdataOf sblock) (fuel + 3) request numbers pos mem buffer bufsize =
      some ⟨bufsize, copyIn mem buffer (fun j => doubleByte disk numbers (pos.toNat + j)) bufsize.toNat, request'⟩ := by
  rw [readTripleIndirectBlocksData, doubleIndirectBlocksAreaSize_small small, toNat_doubleIndex small]
  by_cases nothing : bufsize = 0#32
  · refine ⟨request, ?_⟩
    rw [readIndirectLoop_stop _ _ _ _ _ _ _ _ _ (by simp [nothing])]
    simp [nothing, copyIn]
  have positive : 0 < bufsize.toNat := toNat_pos nothing
  have more : pos < pos + bufsize := by
    rw [BitVec.lt_def, BitVec.toNat_add]
    omega
  have offset : (pos % 67108864#32).toNat = pos.toNat % doubleArea := by simp [doubleArea]
  obtain ⟨request', read⟩ := readDouble_right disk small granted fuel (request + 1)
    (blockNumbers (readFSBlock disk (privdataOf sblock) (numbers (pos.toNat / doubleArea)) (heap.holds request)))
    (pos % 67108864#32) mem buffer bufsize (by rw [offset]; exact inside) (by rw [offset]; exact reads)
  have bytes : copyIn mem buffer (fun j => indirectByte disk (blockNumbers (readFSBlock disk (privdataOf sblock)
        (numbers (pos.toNat / doubleArea)) (heap.holds request))) (pos.toNat % doubleArea + j)) bufsize.toNat =
      copyIn mem buffer (fun j => doubleByte disk numbers (pos.toNat + j)) bufsize.toNat := by
    apply copyIn_congr
    intro j bound
    rw [doubleByte_first disk numbers (by omega)]
    exact indirectByte_congr (fun k below => blockNumbers_readFSBlock small _ _ below) (by omega)
  have advance : buffer + bufsize - buffer = bufsize := by rw [BitVec.add_comm, BitVec.add_sub_cancel]
  have stop : ¬pos + bufsize < pos + (bufsize - bufsize) := by
    rw [BitVec.lt_def, BitVec.sub_self, BitVec.add_zero, BitVec.toNat_add]
    omega
  refine ⟨request', ?_⟩
  rw [readIndirectLoop, if_pos more, if_pos (granted request)]
  simp only [read, Option.bind_some, offset, bytes, advance]
  rw [readIndirectLoop_stop _ _ _ _ _ _ _ _ _ stop, advance]

end Loop
end FluxOS.Ext2
