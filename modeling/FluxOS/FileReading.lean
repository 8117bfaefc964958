import FluxOS.BlockReading

/-! Reading a file of an ext2 device with blocks of 1024 bytes: which bytes it has, and which
reads `ReadData` gets right. -/
namespace FluxOS.Ext2
open Words UserMemoryOps BlockDevice

/-- Where the indirect and the double indirect blocks of a file end. -/
def endOfIndirect : Nat := 274432
def endOfDouble : Nat := 67383296

section File

variable (disk : Disk) (inode : Ext2Inode)

/-- The number in a block of block numbers; behind a hole there are holes. -/
def entryOf (number : Word) (k : Nat) : Word :=
  if number = 0#32 then 0#32 else le32 (fun i => disk (1024 * number.toNat + i)) (4 * k)

/-- The numbers of the blocks that lead to the block `n` of a file, which is the last of them. -/
def blockPath (n : Nat) : List Word :=
  if n < 12 then [inode.iBlock n]
  else if n < 268 then [inode.iBlock 12, entryOf disk (inode.iBlock 12) (n - 12)]
  else if n < 65804 then
    let indirect := entryOf disk (inode.iBlock 13) ((n - 268) / 256)
    [inode.iBlock 13, indirect, entryOf disk indirect ((n - 268) % 256)]
  else
    let double := entryOf disk (inode.iBlock 14) ((n - 65804) / 65536)
    let indirect := entryOf disk double ((n - 65804) % 65536 / 256)
    [inode.iBlock 14, double, indirect, entryOf disk indirect ((n - 65804) % 256)]

/-- The byte of a file at a position; holes are zeros. -/
def fileByte (pos : Nat) : Byte :=
  let number := (blockPath disk inode (pos / 1024)).getLastD 0#32
  if number = 0#32 then 0#8 else disk (1024 * number.toNat + pos % 1024)

/-- A block of a file is no hole, and a device of 2^32 sectors has all blocks that lead to it. -/
def Present (n : Nat) : Prop := ∀ number ∈ blockPath disk inode n, number ≠ 0#32 ∧ number.toNat < 2 ^ 31

instance (n : Nat) : Decidable (Present disk inode n) := inferInstanceAs (Decidable (∀ _ ∈ _, _))

/-- So many bytes are read from a position. -/
def readable (size pos bufsize : Nat) : Nat := min bufsize (size - pos)

/-- The read gives the bytes of the file, as many as there are, and changes nothing else. -/
def ReadsFile (heap : DirtyHeap) (sblock : Ext2SuperBlock) (pos : BitVec 64) (bufsize : Word) : Prop :=
  ∀ request mem buffer, ∃ fuel request', readData disk heap (privdataOf sblock) fuel inode request pos mem buffer bufsize =
    let count := readable inode.iSize.toNat pos.toNat bufsize.toNat
    some ⟨BitVec.ofNat 32 count, copyIn mem buffer (fun j => fileByte disk inode (pos.toNat + j)) count, request'⟩

end File

/-- Reads of `n` bytes that end with the first indirect block under the double indirect one; that stay in the
double indirect blocks, or go on into the first indirect block under the triple indirect one; or that stay under
one entry of the triple indirect block. -/
def Exact (pos n : Nat) : Prop :=
  if pos < endOfIndirect then pos + n ≤ endOfIndirect + indirectArea
  else if pos < endOfDouble then
    if pos + n < endOfDouble then DoubleReads (pos - endOfIndirect) n
    else DoubleReads (pos - endOfIndirect) (endOfDouble - pos) ∧ pos + n ≤ endOfDouble + indirectArea
  else DoubleReads ((pos - endOfDouble) % doubleArea) n ∧ (pos - endOfDouble) % doubleArea + n ≤ doubleArea

instance (pos n : Nat) : Decidable (Exact pos n) := by
  unfold Exact
  infer_instance

section Bytes

variable {disk : Disk} {inode : Ext2Inode}

theorem blockByte_of_addressable (disk : Disk) {number : Word} (addressable : number.toNat < 2 ^ 31) (i : Nat) :
    blockByte disk number i = disk (1024 * number.toNat + i) := by
  unfold blockByte sectorSize
  rw [BitVec.toNat_shiftLeft, Nat.shiftLeft_eq]
  congr 1
  omega

/-- Where there is no hole, the entries are those that the code reads. -/
theorem entryOf_present (disk : Disk) {number : Word} (present : number ≠ 0#32 ∧ number.toNat < 2 ^ 31) (k : Nat) :
    entryOf disk number k = blockNumbers (blockByte disk number) k := by
  rw [entryOf, if_neg present.1]
  exact le32_congr _ fun i _ => (blockByte_of_addressable disk present.2 _).symm

theorem fileByte_of_present {pos : Nat} (before : List Word) {number : Word}
    (path : blockPath disk inode (pos / 1024) = before ++ [number]) (present : number ≠ 0#32 ∧ number.toNat < 2 ^ 31) :
    fileByte disk inode pos = blockByte disk number (pos % 1024) := by
  have last : (blockPath disk inode (pos / 1024)).getLastD 0#32 = number := by rw [path, List.getLastD_concat]
  rw [fileByte, last, if_neg present.1, blockByte_of_addressable disk present.2]

theorem fileByte_direct {pos : Nat} (present : Present disk inode (pos / 1024)) (inside : pos < directArea) :
    fileByte disk inode pos = arrayByte disk inode.iBlock pos := by
  unfold directArea at inside
  have path : blockPath disk inode (pos / 1024) = [inode.iBlock (pos / 1024)] := if_pos (by omega)
  rw [Present, path] at present
  rw [fileByte_of_present [] path (present _ (by simp)), arrayByte]

theorem fileByte_indirect {pos : Nat} (present : Present disk inode (pos / 1024)) (start : directArea ≤ pos)
    (inside : pos < endOfIndirect) : fileByte disk inode pos =
      arrayByte disk (blockNumbers (blockByte disk (inode.iBlock 12))) (pos - directArea) := by
  unfold endOfIndirect at inside
  unfold directArea at start ⊢
  have path : blockPath disk inode (pos / 1024) =
      [inode.iBlock 12, entryOf disk (inode.iBlock 12) (pos / 1024 - 12)] := by
    rw [blockPath, if_neg (by omega), if_pos (by omega)]
  rw [Present, path] at present
  rw [fileByte_of_present [inode.iBlock 12] path (present _ (by simp)),
    entryOf_present disk (present (inode.iBlock 12) (by simp)), arrayByte,
    show (pos - 12288) / 1024 = pos / 1024 - 12 by omega, show (pos - 12288) % 1024 = pos % 1024 by omega]

theorem fileByte_double {pos : Nat} (present : Present disk inode (pos / 1024)) (start : endOfIndirect ≤ pos)
    (inside : pos < endOfDouble) : fileByte disk inode pos =
      indirectByte disk (blockNumbers (blockByte disk (inode.iBlock 13))) (pos - endOfIndirect) := by
  unfold endOfDouble at inside
  unfold endOfIndirect at start ⊢
  have path : blockPath disk inode (pos / 1024) = [inode.iBlock 13, entryOf disk (inode.iBlock 13) ((pos / 1024 - 268) / 256),
      entryOf disk (entryOf disk (inode.iBlock 13) ((pos / 1024 - 268) / 256)) ((pos / 1024 - 268) % 256)] := by
    rw [blockPath, if_neg (by omega), if_neg (by omega), if_pos (by omega)]
  rw [Present, path] at present
  rw [fileByte_of_present [_, _] path (present _ (by simp)),
    entryOf_present disk (present (entryOf disk (inode.iBlock 13) ((pos / 1024 - 268) / 256)) (by simp)),
    entryOf_present disk (present (inode.iBlock 13) (by simp)), indirectByte, arrayByte]
  unfold indirectArea
  rw [show (pos - 274432) / 262144 = (pos / 1024 - 268) / 256 by omega,
    show (pos - 274432) % 262144 / 1024 = (pos / 1024 - 268) % 256 by omega,
    show (pos - 274432) % 262144 % 1024 = pos % 1024 by omega]

theorem fileByte_triple {pos : Nat} (present : Present disk inode (pos / 1024)) (start : endOfDouble ≤ pos) :
    fileByte disk inode pos =
      doubleByte disk (blockNumbers (blockByte disk (inode.iBlock 14))) (pos - endOfDouble) := by
  unfold endOfDouble at start ⊢
  obtain ⟨double, doubleEq⟩ :
      ∃ double, entryOf disk (inode.iBlock 14) ((pos / 1024 - 65804) / 65536) = double := ⟨_, rfl⟩
  obtain ⟨indirect, indirectEq⟩ :
      ∃ indirect, entryOf disk double ((pos / 1024 - 65804) % 65536 / 256) = indirect := ⟨_, rfl⟩
  have path : blockPath disk inode (pos / 1024) =
      [inode.iBlock 14, double, indirect, entryOf disk indirect ((pos / 1024 - 65804) % 256)] := by
    rw [blockPath, if_neg (by omega), if_neg (by omega), if_neg (by omega)]
    simp only [doubleEq, indirectEq]
  rw [Present, path] at present
  rw [fileByte_of_present [_, _, _] path (present _ (by simp)), entryOf_present disk (present indirect (by simp)),
    ← indirectEq, entryOf_present disk (present double (by simp)), ← doubleEq,
    entryOf_present disk (present (inode.iBlock 14) (by simp)), doubleByte, indirectByte, arrayByte]
  unfold indirectArea doubleArea
  rw [show (pos - 67383296) / 67108864 = (pos / 1024 - 65804) / 65536 by omega,
    show (pos - 67383296) % 67108864 / 262144 = (pos / 1024 - 65804) % 65536 / 256 by omega,
    show (pos - 67383296) % 67108864 % 262144 / 1024 = (pos / 1024 - 65804) % 256 by omega,
    show (pos - 67383296) % 67108864 % 262144 % 1024 = pos % 1024 by omega]

end Bytes
section Areas

variable {disk : Disk} {heap : DirtyHeap} {sblock : Ext2SuperBlock} {inode : Ext2Inode} {pos : BitVec 64} {bufsize : Word}

/-- All blocks of a read are there. -/
def PresentIn (disk : Disk) (inode : Ext2Inode) (pos count : Nat) : Prop :=
  ∀ n, pos / 1024 ≤ n → 1024 * n < pos + count → Present disk inode n

theorem PresentIn.at {pos count : Nat} (present : PresentIn disk inode pos count) {p : Nat} (low : pos ≤ p)
    (high : p < pos + count) : Present disk inode (p / 1024) :=
  present _ (Nat.div_le_div_right low) (by omega)

theorem toNat_areaPos {done : Nat} {area : Word} (small : pos.toNat + done < 2 ^ 32)
    (start : area.toNat ≤ pos.toNat + done) :
    (areaPos pos (BitVec.ofNat 32 done) area).toNat = pos.toNat + done - area.toNat := by
  have bound := area.isLt
  rw [areaPos, BitVec.toNat_setWidth, BitVec.toNat_sub, BitVec.toNat_add, BitVec.toNat_signExtend, BitVec.toNat_setWidth,
    BitVec.toNat_setWidth, BitVec.toNat_ofNat]
  split <;> omega

/-- What is left to be read. -/
theorem toNat_rest {done : Nat} (le : done ≤ bufsize.toNat) :
    (bufsize - BitVec.ofNat 32 done).toNat = bufsize.toNat - done := by
  have bound := bufsize.isLt
  rw [BitVec.toNat_sub_of_le (by rw [BitVec.le_def, BitVec.toNat_ofNat]; omega), BitVec.toNat_ofNat]
  omega

theorem add_rest (done : Nat) : BitVec.ofNat 32 done + (bufsize - BitVec.ofNat 32 done) = bufsize := by
  rw [BitVec.add_comm, BitVec.sub_add_cancel]

/-- What is read behind the double indirect blocks. -/
theorem readTripleArea_right (small : sblock.sLogBlockSize = 0#32) (granted : ∀ n, heap.grants n = true) (fuel request : Nat)
    (mem : Memory) (buffer : Word) (done : Nat) (within : pos.toNat + bufsize.toNat < 2 ^ 32) (le : done ≤ bufsize.toNat)
    (present : PresentIn disk inode pos.toNat bufsize.toNat) (start : endOfDouble ≤ pos.toNat + done)
    (inside : (pos.toNat + done - endOfDouble) % doubleArea + (bufsize.toNat - done) ≤ doubleArea)
    (reads : DoubleReads ((pos.toNat + done - endOfDouble) % doubleArea) (bufsize.toNat - done)) :
    ∃ request', readTripleArea disk heap (privdataOf sblock) (fuel + 3) inode pos buffer bufsize
        ⟨BitVec.ofNat 32 done, copyIn mem buffer (fun j => fileByte disk inode (pos.toNat + j)) done, request⟩ =
      some ⟨bufsize, copyIn mem buffer (fun j => fileByte disk inode (pos.toNat + j)) bufsize.toNat, request'⟩ := by
  have area := dirIndirDIndirBlocksAreaSize_small small
  have place : (areaPos pos (BitVec.ofNat 32 done) 67383296#32).toNat = pos.toNat + done - endOfDouble :=
    toNat_areaPos (by omega) start
  have rest := toNat_rest le
  obtain ⟨request', read⟩ := readTriple_right disk small granted fuel (request + 1)
    (blockNumbers (readFSBlock disk (privdataOf sblock) (inode.iBlock ext2TindBlock) (heap.holds request)))
    (areaPos pos (BitVec.ofNat 32 done) 67383296#32)
    (copyIn mem buffer (fun j => fileByte disk inode (pos.toNat + j)) done) (buffer + BitVec.ofNat 32 done)
    (bufsize - BitVec.ofNat 32 done) (by rw [place, rest]; omega) (by rw [place, rest]; exact inside)
    (by rw [place, rest]; exact reads)
  rw [place, rest, copyIn_continue] at read
  · refine ⟨request', ?_⟩
    rw [readTripleArea, if_pos (granted request), area]
    dsimp only
    rw [read, Option.map_some, Nat.add_sub_cancel' le]
    dsimp only
    rw [add_rest]
  · intro i bound
    rw [← Nat.add_assoc, fileByte_triple (present.at (by omega) (by omega)) (by omega),
      doubleByte_congr (fun k below => blockNumbers_readFSBlock small _ _ below) (by omega)]
    unfold endOfDouble at start ⊢
    rw [show pos.toNat + done - 67383296 + i = pos.toNat + done + i - 67383296 by omega]
    rfl

/-- The part of a read that lies in the double indirect blocks. -/
theorem readDouble_part (small : sblock.sLogBlockSize = 0#32) (granted : ∀ n, heap.grants n = true) (fuel request : Nat)
    (memory : Block) (mem : Memory) (buffer count : Word) (done : Nat) (present : PresentIn disk inode pos.toNat bufsize.toNat)
    (start : endOfIndirect ≤ pos.toNat + done) (inside : pos.toNat + done + count.toNat ≤ endOfDouble)
    (le : done + count.toNat ≤ bufsize.toNat) (reads : DoubleReads (pos.toNat + done - endOfIndirect) count.toNat) :
    ∃ request', readDoubleIndirectBlocksData disk heap (privdataOf sblock) (fuel + 3) request
        (blockNumbers (readFSBlock disk (privdataOf sblock) (inode.iBlock ext2DindBlock) memory))
        (areaPos pos (BitVec.ofNat 32 done) (privdataOf sblock).directIndirectBlocksAreaSize)
        (copyIn mem buffer (fun j => fileByte disk inode (pos.toNat + j)) done) (buffer + BitVec.ofNat 32 done) count =
      some ⟨count, copyIn mem buffer (fun j => fileByte disk inode (pos.toNat + j)) (done + count.toNat), request'⟩ := by
  have area := directIndirectBlocksAreaSize_small small
  unfold endOfDouble at inside
  have place : (areaPos pos (BitVec.ofNat 32 done) 274432#32).toNat = pos.toNat + done - endOfIndirect :=
    toNat_areaPos (by omega) start
  obtain ⟨request', read⟩ := readDouble_right disk small granted fuel request
    (blockNumbers (readFSBlock disk (privdataOf sblock) (inode.iBlock ext2DindBlock) memory))
    (areaPos pos (BitVec.ofNat 32 done) 274432#32)
    (copyIn mem buffer (fun j => fileByte disk inode (pos.toNat + j)) done) (buffer + BitVec.ofNat 32 done) count
    (by rw [place]; unfold endOfIndirect at start ⊢; unfold doubleArea; omega) (by rw [place]; exact reads)
  rw [place, copyIn_continue] at read
  · refine ⟨request', ?_⟩
    rw [area, read]
  · intro i bound
    rw [← Nat.add_assoc, fileByte_double (present.at (by omega) (by omega)) (by omega) (by unfold endOfDouble; omega),
      indirectByte_congr (fun k below => blockNumbers_readFSBlock small _ _ below)
        (by unfold endOfIndirect at start ⊢; unfold doubleArea; omega)]
    unfold endOfIndirect at start ⊢
    rw [show pos.toNat + done - 274432 + i = pos.toNat + done + i - 274432 by omega]
    rfl

theorem toNat_end (within : pos.toNat + bufsize.toNat < 2 ^ 32) :
    (pos + bufsize.setWidth 64).toNat = pos.toNat + bufsize.toNat := by
  rw [BitVec.toNat_add, BitVec.toNat_setWidth]
  omega

theorem endOfDouble_small (small : sblock.sLogBlockSize = 0#32) :
    (privdataOf sblock).dirIndirDIndirBlocksAreaSize.setWidth 64 = BitVec.ofNat 64 endOfDouble := by
  simp [privdataOf, small, ext2NdirBlocks, endOfDouble]

/-- A read that ends in the double indirect blocks. -/
theorem readDoubleArea_within (small : sblock.sLogBlockSize = 0#32) (granted : ∀ n, heap.grants n = true)
    (fuel request : Nat) (mem : Memory) (buffer : Word) (done : Nat) (le : done ≤ bufsize.toNat)
    (present : PresentIn disk inode pos.toNat bufsize.toNat) (start : endOfIndirect ≤ pos.toNat + done)
    (inside : pos.toNat + bufsize.toNat < endOfDouble)
    (reads : DoubleReads (pos.toNat + done - endOfIndirect) (bufsize.toNat - done)) :
    ∃ request', readDoubleArea disk heap (privdataOf sblock) (fuel + 3) inode pos buffer bufsize
        ⟨BitVec.ofNat 32 done, copyIn mem buffer (fun j => fileByte disk inode (pos.toNat + j)) done, request⟩ =
      some ⟨bufsize, copyIn mem buffer (fun j => fileByte disk inode (pos.toNat + j)) bufsize.toNat, request'⟩ := by
  have last : pos.toNat + bufsize.toNat < 67383296 := inside
  have ends : pos + bufsize.setWidth 64 < BitVec.ofNat 64 endOfDouble := by
    rw [BitVec.lt_def, toNat_end (by omega)]
    exact last
  have begins : pos < BitVec.ofNat 64 endOfDouble := by
    rw [BitVec.lt_def]
    exact Nat.lt_of_le_of_lt (Nat.le_add_right _ _) last
  have rest := toNat_rest le
  obtain ⟨request', read⟩ := readDouble_part small granted fuel (request + 1) (heap.holds request) mem buffer
    (bufsize - BitVec.ofNat 32 done) done present start (by rw [rest]; omega) (by rw [rest]; omega) (by rw [rest]; exact reads)
  refine ⟨request', ?_⟩
  rw [readDoubleArea, endOfDouble_small small, BitVec.add_comm (bufsize.setWidth 64)]
  dsimp only
  rw [if_pos begins, if_pos (granted request), if_pos ends, read, rest, Nat.add_sub_cancel' le, Option.bind_some, if_pos ends]
  dsimp only
  rw [add_rest]

/-- A read that begins in the double indirect blocks and ends behind them. -/
theorem readDoubleArea_beyond (small : sblock.sLogBlockSize = 0#32) (granted : ∀ n, heap.grants n = true)
    (fuel request : Nat) (mem : Memory) (buffer : Word) (within : pos.toNat + bufsize.toNat < 2 ^ 32)
    (present : PresentIn disk inode pos.toNat bufsize.toNat) (start : endOfIndirect ≤ pos.toNat)
    (before : pos.toNat < endOfDouble) (beyond : endOfDouble ≤ pos.toNat + bufsize.toNat)
    (reads : DoubleReads (pos.toNat - endOfIndirect) (endOfDouble - pos.toNat))
    (fits : pos.toNat + bufsize.toNat ≤ endOfDouble + indirectArea) :
    ∃ request', readDoubleArea disk heap (privdataOf sblock) (fuel + 3) inode pos buffer bufsize ⟨0#32, mem, request⟩ =
      some ⟨bufsize, copyIn mem buffer (fun j => fileByte disk inode (pos.toNat + j)) bufsize.toNat, request'⟩ := by
  have begins : pos < BitVec.ofNat 64 endOfDouble := by
    rw [BitVec.lt_def]
    exact before
  have ends : ¬pos + bufsize.setWidth 64 < BitVec.ofNat 64 endOfDouble := by
    rw [BitVec.lt_def, toNat_end within]
    exact Nat.not_lt.mpr beyond
  obtain ⟨part, partEq⟩ : ∃ part, endOfDouble - pos.toNat = part := ⟨_, rfl⟩
  have count : (BitVec.ofNat 64 endOfDouble - pos).setWidth 32 = BitVec.ofNat 32 part := by
    apply BitVec.eq_of_toNat_eq
    rw [← partEq]
    unfold endOfDouble at before ⊢
    rw [BitVec.toNat_setWidth, BitVec.toNat_sub_of_le (by rw [BitVec.le_def, BitVec.toNat_ofNat]; omega), BitVec.toNat_ofNat,
      BitVec.toNat_ofNat, Nat.mod_eq_of_lt (by omega)]
  have countNat : (BitVec.ofNat 32 part).toNat = part := by
    unfold endOfDouble at partEq
    rw [BitVec.toNat_ofNat]
    omega
  have whole : pos.toNat + part = endOfDouble := by omega
  have zero : (pos.toNat + part - endOfDouble) % doubleArea = 0 := by rw [whole, Nat.sub_self, Nat.zero_mod]
  obtain ⟨request₁, read⟩ := readDouble_part small granted fuel (request + 1) (heap.holds request) mem buffer
    (BitVec.ofNat 32 part) 0 present start (by rw [countNat]; omega) (by rw [countNat]; omega)
    (by rw [countNat, ← partEq]; exact reads)
  obtain ⟨request₂, further⟩ := readTripleArea_right small granted fuel request₁ mem buffer part within
    (by omega) present whole.ge
    (by rw [zero]; unfold indirectArea at fits; unfold doubleArea; omega)
    (by rw [zero]; exact .inl (by rw [Nat.zero_mod]; omega))
  refine ⟨request₂, ?_⟩
  rw [countNat, Nat.zero_add] at read
  rw [readDoubleArea, endOfDouble_small small, BitVec.add_comm (bufsize.setWidth 64)]
  dsimp only
  simp only [copyIn, BitVec.add_zero] at read
  rw [if_pos begins, if_pos (granted request), if_neg ends, count, BitVec.add_zero, read, Option.bind_some, if_neg ends,
    BitVec.zero_add]
  exact further

/-- A read behind the first block, wherever the code gets it right. -/
theorem readDoubleArea_right (small : sblock.sLogBlockSize = 0#32) (granted : ∀ n, heap.grants n = true)
    (fuel request : Nat) (mem : Memory) (buffer : Word) (within : pos.toNat + bufsize.toNat < 2 ^ 32)
    (present : PresentIn disk inode pos.toNat bufsize.toNat) (start : endOfIndirect ≤ pos.toNat)
    (admitted : Exact pos.toNat bufsize.toNat) :
    ∃ request', readDoubleArea disk heap (privdataOf sblock) (fuel + 3) inode pos buffer bufsize ⟨0#32, mem, request⟩ =
      some ⟨bufsize, copyIn mem buffer (fun j => fileByte disk inode (pos.toNat + j)) bufsize.toNat, request'⟩ := by
  rw [Exact, if_neg (Nat.not_lt.mpr start)] at admitted
  by_cases before : pos.toNat < endOfDouble
  · rw [if_pos before] at admitted
    by_cases inside : pos.toNat + bufsize.toNat < endOfDouble
    · rw [if_pos inside] at admitted
      exact readDoubleArea_within small granted fuel request mem buffer 0 (Nat.zero_le _) present start inside admitted
    · rw [if_neg inside] at admitted
      exact readDoubleArea_beyond small granted fuel request mem buffer within present start before (Nat.not_lt.mp inside)
        admitted.1 admitted.2
  · rw [if_neg before] at admitted
    have behind : ¬pos < BitVec.ofNat 64 endOfDouble := by
      rw [BitVec.lt_def]
      exact before
    obtain ⟨request', read⟩ := readTripleArea_right small granted fuel request mem buffer 0 within (Nat.zero_le _) present
      (Nat.not_lt.mp before) admitted.2 admitted.1
    refine ⟨request', ?_⟩
    rw [readDoubleArea, endOfDouble_small small]
    dsimp only
    rw [if_neg behind]
    exact read

/-- A read that begins, or goes on, in the indirect blocks: it ends there, or goes on behind them. -/
theorem readIndirectArea_reaches (small : sblock.sLogBlockSize = 0#32) (granted : ∀ n, heap.grants n = true)
    (fuel request : Nat) (mem : Memory) (buffer : Word) (done : Nat) (within : pos.toNat + bufsize.toNat < 2 ^ 32)
    (le : done ≤ bufsize.toNat) (present : PresentIn disk inode pos.toNat bufsize.toNat)
    (start : directArea ≤ pos.toNat + done) (before : pos.toNat + done < endOfIndirect) :
    ∃ request', readIndirectArea disk heap (privdataOf sblock) fuel inode pos buffer bufsize
        ⟨BitVec.ofNat 32 done, copyIn mem buffer (fun j => fileByte disk inode (pos.toNat + j)) done, request⟩ =
      if pos.toNat + bufsize.toNat < endOfIndirect then
        some ⟨bufsize, copyIn mem buffer (fun j => fileByte disk inode (pos.toNat + j)) bufsize.toNat, request'⟩
      else readDoubleArea disk heap (privdataOf sblock) fuel inode pos buffer bufsize
        ⟨BitVec.ofNat 32 (endOfIndirect - pos.toNat),
          copyIn mem buffer (fun j => fileByte disk inode (pos.toNat + j)) (endOfIndirect - pos.toNat), request'⟩ := by
  have area := directIndirectBlocksAreaSize_small small
  have direct : (privdataOf sblock).directBlocksAreaSize = 12288#32 := by simp [privdataOf, small, ext2NdirBlocks]
  have place : (areaPos pos (BitVec.ofNat 32 done) 12288#32).toNat = pos.toNat + done - directArea :=
    toNat_areaPos (by unfold endOfIndirect at before; omega) start
  have rest := toNat_rest le
  have begins : pos < (274432#32).setWidth 64 := by
    rw [BitVec.lt_def]
    exact Nat.lt_of_le_of_lt (Nat.le_add_right _ done) before
  obtain ⟨count, countEq⟩ : ∃ count, (if bufsize - BitVec.ofNat 32 done < 274432#32 then bufsize - BitVec.ofNat 32 done
      else (privdataOf sblock).indirectBlocksAreaSize) = count := ⟨_, rfl⟩
  obtain ⟨part, partEq⟩ : ∃ part, min (bufsize.toNat - done) (endOfIndirect - (pos.toNat + done)) = part := ⟨_, rfl⟩
  have counts : min count.toNat (indirectArea - (pos.toNat + done - directArea)) = part := by
    unfold directArea at start ⊢
    unfold endOfIndirect at partEq
    unfold indirectArea
    rw [← countEq, ← partEq]
    split
    · rw [rest]
      omega
    · rename_i large
      have largeNat : 274432 ≤ bufsize.toNat - done := rest ▸ Nat.not_lt.mp large
      rw [indirectAreaSize_small small]
      simp
      omega
  obtain ⟨request', read⟩ := readBlocksData_eq disk small granted (request + 1)
    (blockNumbers (readFSBlock disk (privdataOf sblock) (inode.iBlock ext2IndBlock) (heap.holds request)))
    (areaPos pos (BitVec.ofNat 32 done) 12288#32)
    (copyIn mem buffer (fun j => fileByte disk inode (pos.toNat + j)) done) (buffer + BitVec.ofNat 32 done) count
    (by rw [place]; unfold endOfIndirect at before; unfold directArea at start ⊢; unfold indirectArea; omega)
  rw [place, counts] at read
  dsimp only at read
  rw [copyIn_continue] at read
  · have sum : BitVec.ofNat 32 done + BitVec.ofNat 32 part = BitVec.ofNat 32 (done + part) := (BitVec.ofNat_add _ _).symm
    refine ⟨request', ?_⟩
    rw [readIndirectArea, area, direct]
    dsimp only
    rw [if_pos begins, if_pos (granted request), countEq, read]
    dsimp only
    rw [sum]
    by_cases ends : pos + bufsize.setWidth 64 < (274432#32).setWidth 64
    · have endsNat : pos.toNat + bufsize.toNat < endOfIndirect := by
        rw [BitVec.lt_def, toNat_end within] at ends
        exact ends
      rw [if_pos ends, if_pos endsNat, show done + part = bufsize.toNat by omega]
      simp
    · have endsNat : ¬pos.toNat + bufsize.toNat < endOfIndirect := by
        rw [BitVec.lt_def, toNat_end within] at ends
        exact ends
      rw [if_neg ends, if_neg endsNat, show done + part = endOfIndirect - pos.toNat by omega]
  · intro i bound
    rw [← Nat.add_assoc, fileByte_indirect (present.at (by omega) (by omega)) (by omega) (by omega)]
    unfold directArea endOfIndirect at *
    rw [show pos.toNat + done - 12288 + i = pos.toNat + done + i - 12288 by omega]
    exact arrayByte_congr (fun k below => blockNumbers_readFSBlock small _ _ below) (by unfold indirectArea; omega)

theorem toNat_directEnd (small : sblock.sLogBlockSize = 0#32) :
    (privdataOf sblock).directBlocksAreaSize.setWidth 64 = BitVec.ofNat 64 directArea := by
  simp [privdataOf, small, ext2NdirBlocks, directArea]

/-- A read that begins in the direct blocks: it ends there, or goes on behind them. -/
theorem readDirectArea_reaches (small : sblock.sLogBlockSize = 0#32) (granted : ∀ n, heap.grants n = true)
    (fuel request : Nat) (mem : Memory) (buffer : Word) (within : pos.toNat + bufsize.toNat < 2 ^ 32)
    (present : PresentIn disk inode pos.toNat bufsize.toNat) (before : pos.toNat < directArea) :
    ∃ request', readDirectArea disk heap (privdataOf sblock) fuel inode request pos mem buffer bufsize =
      if pos.toNat + bufsize.toNat < directArea then
        some ⟨bufsize, copyIn mem buffer (fun j => fileByte disk inode (pos.toNat + j)) bufsize.toNat, request'⟩
      else readIndirectArea disk heap (privdataOf sblock) fuel inode pos buffer bufsize
        ⟨BitVec.ofNat 32 (directArea - pos.toNat),
          copyIn mem buffer (fun j => fileByte disk inode (pos.toNat + j)) (directArea - pos.toNat), request'⟩ := by
  have first : pos < BitVec.ofNat 64 directArea := before
  obtain ⟨count, countEq⟩ : ∃ count, (if pos + bufsize.setWidth 64 < BitVec.ofNat 64 directArea then bufsize
      else (BitVec.ofNat 64 directArea - pos).setWidth 32) = count := ⟨_, rfl⟩
  have countNat : count.toNat = min bufsize.toNat (directArea - pos.toNat) := by
    rw [← countEq]
    unfold directArea at before ⊢
    split
    · rename_i ends
      rw [BitVec.lt_def, toNat_end within] at ends
      have endsNat : pos.toNat + bufsize.toNat < 12288 := ends
      omega
    · rename_i ends
      rw [BitVec.lt_def, toNat_end within] at ends
      have endsNat : 12288 ≤ pos.toNat + bufsize.toNat := Nat.not_lt.mp ends
      rw [BitVec.toNat_setWidth, BitVec.toNat_sub_of_le (by rw [BitVec.le_def, BitVec.toNat_ofNat]; omega),
        BitVec.toNat_ofNat]
      omega
  have place : (pos.setWidth 32).toNat = pos.toNat := by
    rw [BitVec.toNat_setWidth]
    omega
  obtain ⟨request', read⟩ := readBlocksData_eq disk small granted request inode.iBlock (pos.setWidth 32) mem buffer count
    (by rw [place]; unfold directArea at before; unfold indirectArea; omega)
  have counts : min count.toNat (indirectArea - pos.toNat) = count.toNat := by
    unfold directArea at countNat before
    unfold indirectArea
    omega
  rw [place, counts] at read
  have bytes : copyIn mem buffer (fun j => arrayByte disk inode.iBlock (pos.toNat + j)) count.toNat =
      copyIn mem buffer (fun j => fileByte disk inode (pos.toNat + j)) count.toNat := by
    apply copyIn_congr
    intro j bound
    exact (fileByte_direct (present.at (by omega) (by omega)) (by omega)).symm
  refine ⟨request', ?_⟩
  rw [readDirectArea, toNat_directEnd small, BitVec.add_comm (bufsize.setWidth 64)]
  dsimp only
  rw [if_pos first, countEq, read]
  dsimp only
  rw [bytes, countNat]
  by_cases ends : pos + bufsize.setWidth 64 < BitVec.ofNat 64 directArea
  · have endsNat : pos.toNat + bufsize.toNat < directArea := by
      rw [BitVec.lt_def, toNat_end within] at ends
      exact ends
    rw [if_pos ends, if_pos endsNat, min_eq_left (by omega)]
    simp
  · have endsNat : ¬pos.toNat + bufsize.toNat < directArea := by
      rw [BitVec.lt_def, toNat_end within] at ends
      exact ends
    rw [if_neg ends, if_neg endsNat, min_eq_right (by omega)]

/-- The parts of a read in the direct and the indirect blocks are right: it ends there, or goes on behind them. -/
theorem readDirectArea_eq (small : sblock.sLogBlockSize = 0#32) (granted : ∀ n, heap.grants n = true)
    (fuel request : Nat) (mem : Memory) (buffer : Word) (within : pos.toNat + bufsize.toNat < 2 ^ 32)
    (present : PresentIn disk inode pos.toNat bufsize.toNat) :
    ∃ request', readDirectArea disk heap (privdataOf sblock) fuel inode request pos mem buffer bufsize =
      if pos.toNat + bufsize.toNat < endOfIndirect then
        some ⟨bufsize, copyIn mem buffer (fun j => fileByte disk inode (pos.toNat + j)) bufsize.toNat, request'⟩
      else readDoubleArea disk heap (privdataOf sblock) fuel inode pos buffer bufsize
        ⟨BitVec.ofNat 32 (endOfIndirect - pos.toNat),
          copyIn mem buffer (fun j => fileByte disk inode (pos.toNat + j)) (endOfIndirect - pos.toNat), request'⟩ := by
  have order : directArea < endOfIndirect := by decide
  by_cases first : pos.toNat < directArea
  · obtain ⟨request₁, read⟩ := readDirectArea_reaches small granted fuel request mem buffer within present first
    by_cases ends : pos.toNat + bufsize.toNat < directArea
    · rw [if_pos ends] at read
      refine ⟨request₁, ?_⟩
      rw [if_pos (by omega), read]
    · rw [if_neg ends] at read
      rw [read]
      exact readIndirectArea_reaches small granted fuel request₁ mem buffer (directArea - pos.toNat) within (by omega)
        present (by omega) (by omega)
  · have later : ¬pos < BitVec.ofNat 64 directArea := first
    rw [readDirectArea, toNat_directEnd small]
    dsimp only
    rw [if_neg later]
    by_cases before : pos.toNat < endOfIndirect
    · exact readIndirectArea_reaches small granted fuel request mem buffer 0 within (Nat.zero_le _) present
        (Nat.not_lt.mp first) before
    · have area := directIndirectBlocksAreaSize_small small
      have behind : ¬pos < (274432#32).setWidth 64 := before
      refine ⟨request, ?_⟩
      rw [if_neg (by omega), Nat.sub_eq_zero_of_le (Nat.not_lt.mp before), readIndirectArea, area]
      dsimp only
      rw [if_neg behind]
      rfl

/-- A read, wherever the code gets it right. -/
theorem readDirectArea_right (small : sblock.sLogBlockSize = 0#32) (granted : ∀ n, heap.grants n = true)
    (fuel request : Nat) (mem : Memory) (buffer : Word) (within : pos.toNat + bufsize.toNat < 2 ^ 32)
    (present : PresentIn disk inode pos.toNat bufsize.toNat) (admitted : Exact pos.toNat bufsize.toNat) :
    ∃ request', readDirectArea disk heap (privdataOf sblock) (fuel + 3) inode request pos mem buffer bufsize =
      some ⟨bufsize, copyIn mem buffer (fun j => fileByte disk inode (pos.toNat + j)) bufsize.toNat, request'⟩ := by
  obtain ⟨request₁, read⟩ := readDirectArea_eq small granted (fuel + 3) request mem buffer within present
  rw [read]
  by_cases ends : pos.toNat + bufsize.toNat < endOfIndirect
  · rw [if_pos ends]
    exact ⟨request₁, rfl⟩
  · rw [if_neg ends]
    by_cases before : pos.toNat < endOfIndirect
    · rw [Exact, if_pos before] at admitted
      apply readDoubleArea_within small granted fuel request₁ mem buffer (endOfIndirect - pos.toNat) (by omega) present
        (by omega)
      · unfold endOfIndirect indirectArea at *
        unfold endOfDouble
        omega
      · rw [Nat.add_sub_cancel' before.le, Nat.sub_self]
        exact .inl (by rw [Nat.zero_mod]; omega)
    · rw [Nat.sub_eq_zero_of_le (Nat.not_lt.mp before)]
      exact readDoubleArea_right small granted fuel request₁ mem buffer within present (Nat.not_lt.mp before) admitted

end Areas

section Whole

variable {disk : Disk} {heap : DirtyHeap} {sblock : Ext2SuperBlock} {inode : Ext2Inode} {pos : BitVec 64} {bufsize : Word}

/-- Before the end of a file, as much is read as there is. -/
theorem readData_eq (blocks : inode.iBlocks ≠ 0#32) (within : pos.toNat + bufsize.toNat < 2 ^ 32)
    (before : pos.toNat < inode.iSize.toNat) (fuel request : Nat) (mem : Memory) (buffer : Word) :
    readData disk heap (privdataOf sblock) fuel inode request pos mem buffer bufsize =
      readDirectArea disk heap (privdataOf sblock) fuel inode request pos mem buffer
        (BitVec.ofNat 32 (readable inode.iSize.toNat pos.toNat bufsize.toNat)) := by
  have bound := inode.iSize.isLt
  have size := toNat_setWidth_word inode.iSize
  have count : (if inode.iSize.setWidth 64 < bufsize.setWidth 64 + pos then (inode.iSize.setWidth 64 - pos).setWidth 32
      else bufsize) = BitVec.ofNat 32 (readable inode.iSize.toNat pos.toNat bufsize.toNat) := by
    apply BitVec.eq_of_toNat_eq
    rw [readable, BitVec.add_comm, BitVec.toNat_ofNat]
    split
    · rename_i beyond
      rw [BitVec.lt_def, toNat_end within, size] at beyond
      rw [BitVec.toNat_setWidth, BitVec.toNat_sub_of_le (by rw [BitVec.le_def]; omega), size]
      omega
    · rename_i beyond
      rw [BitVec.lt_def, toNat_end within, size] at beyond
      omega
  rw [readData]
  dsimp only
  rw [if_neg (by rw [BitVec.le_def, size]; omega), if_neg fun both => blocks both.2, count]

theorem toNat_readable (pos : BitVec 64) (bufsize : Word) (size : Nat) : (BitVec.ofNat 32 (readable size pos.toNat bufsize.toNat)).toNat =
    readable size pos.toNat bufsize.toNat := by
  have least : readable size pos.toNat bufsize.toNat ≤ bufsize.toNat := Nat.min_le_left _ _
  rw [BitVec.toNat_ofNat]
  omega

/-- Reads that the condition admits, of blocks that are there, are right. -/
theorem readsFile_of_exact (small : sblock.sLogBlockSize = 0#32) (granted : ∀ n, heap.grants n = true)
    (blocks : inode.iBlocks ≠ 0#32) (within : pos.toNat + bufsize.toNat < 2 ^ 32)
    (present : PresentIn disk inode pos.toNat (readable inode.iSize.toNat pos.toNat bufsize.toNat))
    (admitted : Exact pos.toNat (readable inode.iSize.toNat pos.toNat bufsize.toNat)) :
    ReadsFile disk inode heap sblock pos bufsize := by
  intro request mem buffer
  by_cases before : pos.toNat < inode.iSize.toNat
  · have least : readable inode.iSize.toNat pos.toNat bufsize.toNat ≤ bufsize.toNat := Nat.min_le_left _ _
    have count := toNat_readable pos bufsize inode.iSize.toNat
    rw [← count] at present admitted
    obtain ⟨request', read⟩ := readDirectArea_right small granted 0 request mem buffer (by omega) present admitted
    refine ⟨3, request', ?_⟩
    rw [readData_eq blocks within before, read, count]
  · have none : readable inode.iSize.toNat pos.toNat bufsize.toNat = 0 := by
      unfold readable
      omega
    have behind : inode.iSize.setWidth 64 ≤ pos := by
      rw [BitVec.le_def, BitVec.toNat_setWidth]
      omega
    refine ⟨0, request, ?_⟩
    rw [readData, none]
    dsimp only
    rw [if_pos behind]
    rfl

end Whole
end FluxOS.Ext2
