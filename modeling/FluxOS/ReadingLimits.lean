import FluxOS.InodeTable
import FluxOS.IndirectTotals

/-! The reads that `ReadData` gets right, and no others: a device on which every byte says under which
entry of the triple indirect block it lies shows what goes wrong. -/
namespace FluxOS.Ext2
open Words UserMemoryOps BlockDevice

section Device

/-- A block that holds these numbers. -/
def bytesOf (numbers : Nat → Word) : Block := fun i => (numbers (i / 4)).extractLsb' (8 * (i % 4)) 8

theorem le32_bytesOf (numbers : Nat → Word) (k : Nat) : le32 (bytesOf numbers) (4 * k) = numbers k := by
  have byte (i : Nat) (below : i < 4) : bytesOf numbers (4 * k + i) = (numbers k).extractLsb' (8 * i) 8 := by
    rw [bytesOf, show (4 * k + i) / 4 = k by omega, show (4 * k + i) % 4 = i by omega]
  have first := byte 0 (by decide)
  have second := byte 1 (by decide)
  have third := byte 2 (by decide)
  have fourth := byte 3 (by decide)
  rw [Nat.add_zero] at first
  rw [le32, le16, le16, Nat.add_assoc, fourth, third, second, first]
  ext i bound
  simp
  grind

/-- What the bytes under an entry of the triple indirect block are. -/
def labelOf (k : Nat) : Byte := if k < 64 then BitVec.ofNat 8 (k + 1) else 0#8

/-- The block 1 is the triple indirect block; the entry `k` of it is the block `1000 + k`, under which are the
blocks `2000 + k` and `3000 + k` and no others. -/
def labelledDisk : Disk := fun address =>
  let block := address / 1024
  if block = 1 then bytesOf (fun k => BitVec.ofNat 32 (1000 + k)) (address % 1024)
  else if 1000 ≤ block ∧ block < 1256 ∨ 2000 ≤ block ∧ block < 2256 then
    bytesOf (fun _ => BitVec.ofNat 32 (block + 1000)) (address % 1024)
  else if 3000 ≤ block then labelOf (block - 3000)
  else 0#8

/-- A file on that device. -/
def labelledInode (size : Word) : Ext2Inode := fun i =>
  bytesOf (fun k => if k = 1 then size else if k < 22 then 3000#32 else if k = 22 then 2000#32 else if k = 23 then 1000#32
    else 1#32) i

theorem le32_labelledInode (size : Word) {k : Nat} (inside : k < 32) : le32 (labelledInode size).bytes (4 * k) =
    if k = 1 then size else if k < 22 then 3000#32 else if k = 22 then 2000#32 else if k = 23 then 1000#32 else 1#32 := by
  rw [le32_congr (bytesOf fun k => if k = 1 then size else if k < 22 then 3000#32 else if k = 22 then 2000#32
    else if k = 23 then 1000#32 else 1#32), le32_bytesOf]
  intro i bound
  rw [Ext2Inode.bytes, dif_pos (by omega)]
  rfl

theorem iSize_labelledInode (size : Word) : (labelledInode size).iSize = size :=
  le32_labelledInode size (k := 1) (by decide)

theorem iBlocks_labelledInode (size : Word) : (labelledInode size).iBlocks = 3000#32 :=
  le32_labelledInode size (k := 7) (by decide)

theorem iBlock_labelledInode (size : Word) {i : Nat} (inside : i < 15) : (labelledInode size).iBlock i =
    if i < 12 then 3000#32 else if i = 12 then 2000#32 else if i = 13 then 1000#32 else 1#32 := by
  rw [Ext2Inode.iBlock, show 40 + 4 * i = 4 * (10 + i) by omega, le32_labelledInode size (by omega)]
  grind

theorem labelledDisk_table {block k : Nat} (table : 1000 ≤ block ∧ block < 1256 ∨ 2000 ≤ block ∧ block < 2256)
    (inside : k < 256) : le32 (fun i => labelledDisk (1024 * block + i)) (4 * k) = BitVec.ofNat 32 (block + 1000) := by
  refine (le32_congr (bytesOf fun _ => BitVec.ofNat 32 (block + 1000)) fun i bound => ?_).trans (le32_bytesOf _ k)
  unfold labelledDisk
  dsimp only
  rw [show (1024 * block + (4 * k + i)) / 1024 = block by omega, if_neg (by omega), if_pos table,
    show (1024 * block + (4 * k + i)) % 1024 = 4 * k + i by omega]

theorem labelledDisk_triple {k : Nat} (inside : k < 256) :
    le32 (fun i => labelledDisk (1024 * 1 + i)) (4 * k) = BitVec.ofNat 32 (1000 + k) := by
  refine (le32_congr (bytesOf fun k => BitVec.ofNat 32 (1000 + k)) fun i bound => ?_).trans (le32_bytesOf _ k)
  unfold labelledDisk
  dsimp only
  rw [show (1024 * 1 + (4 * k + i)) / 1024 = 1 by omega, if_pos rfl, show (1024 * 1 + (4 * k + i)) % 1024 = 4 * k + i by omega]

theorem labelledDisk_data (k : Nat) {i : Nat} (inside : i < 1024) :
    labelledDisk (1024 * (3000 + k) + i) = labelOf k := by
  unfold labelledDisk
  dsimp only
  rw [show (1024 * (3000 + k) + i) / 1024 = 3000 + k by omega, if_neg (by omega), if_neg (by omega), if_pos (by omega),
    Nat.add_sub_cancel_left]

theorem blockByte_ofNat (disk : Disk) {block : Nat} (small : block < 2 ^ 31) :
    blockByte disk (BitVec.ofNat 32 block) = fun i => disk (1024 * block + i) := by
  have same : (BitVec.ofNat 32 block).toNat = block := by
    rw [BitVec.toNat_ofNat]
    omega
  funext i
  rw [blockByte_of_addressable disk (by rw [same]; exact small), same]

/-- What the numbers in a block lead to that are behind it: 2 is in all bytes there. -/
def outsideNumber : Word := BitVec.ofNat 32 0x02020202

/-- There is nothing on the device beyond its blocks, nor in the block 0. -/
theorem blockByte_nothing {block i : Nat} (nothing : block = 0 ∨ 3064 ≤ block) (small : block < 2 ^ 31)
    (inside : i < 1024) : blockByte labelledDisk (BitVec.ofNat 32 block) i = 0#8 := by
  rw [blockByte_ofNat _ small]
  unfold labelledDisk
  dsimp only
  rw [show (1024 * block + i) / 1024 = block by omega, if_neg (by omega), if_neg (by omega)]
  split
  · exact if_neg (by omega)
  · rfl

theorem blockNumbers_nothing {block k : Nat} (nothing : block = 0 ∨ 3064 ≤ block) (small : block < 2 ^ 31)
    (inside : k < 256) : blockNumbers (blockByte labelledDisk (BitVec.ofNat 32 block)) k = 0#32 :=
  le32_zero fun _ bound => blockByte_nothing nothing small (by omega)

theorem blockNumbers_table {block k : Nat} (table : 1000 ≤ block ∧ block < 1256 ∨ 2000 ≤ block ∧ block < 2256)
    (inside : k < 256) :
    blockNumbers (blockByte labelledDisk (BitVec.ofNat 32 block)) k = BitVec.ofNat 32 (block + 1000) := by
  rw [blockByte_ofNat _ (by omega)]
  exact labelledDisk_table table inside

/-- The bytes that an array of numbers of indirect blocks leads to are all the same, and zeros behind the array. -/
structure Labelled (numbers : Nat → Word) (label : Byte) : Prop where
  valid : ∀ i < 256, ∀ offset < indirectArea,
    arrayByte labelledDisk (blockNumbers (blockByte labelledDisk (numbers i))) offset = label
  invalid : ∀ i, 256 ≤ i → ∀ offset < indirectArea,
    arrayByte labelledDisk (blockNumbers (blockByte labelledDisk (numbers i))) offset = 0#8

/-- The bytes under an indirect block. -/
theorem arrayByte_table {k offset : Nat} (entry : k < 256) (inside : offset < indirectArea) :
    arrayByte labelledDisk (blockNumbers (blockByte labelledDisk (BitVec.ofNat 32 (2000 + k)))) offset = labelOf k := by
  unfold indirectArea at inside
  rw [arrayByte, blockNumbers_table (.inr ⟨by omega, by omega⟩) (by omega), show 2000 + k + 1000 = 3000 + k by omega,
    blockByte_ofNat _ (by omega)]
  exact labelledDisk_data k (Nat.mod_lt _ (by decide))

theorem arrayByte_nothing {block offset : Nat} (nothing : block = 0 ∨ 3064 ≤ block) (small : block < 2 ^ 31)
    (inside : offset < indirectArea) :
    arrayByte labelledDisk (blockNumbers (blockByte labelledDisk (BitVec.ofNat 32 block))) offset = 0#8 := by
  unfold indirectArea at inside
  rw [arrayByte, blockNumbers_nothing nothing small (by omega)]
  exact blockByte_nothing (.inl rfl) (by decide) (Nat.mod_lt _ (by decide))

variable {sblock : Ext2SuperBlock}

/-- Behind a block that has been read, memory holds other bytes. -/
theorem blockNumbers_outside (small : sblock.sLogBlockSize = 0#32) (number : Word) {k : Nat} (outside : 256 ≤ k) :
    blockNumbers (readFSBlock labelledDisk (privdataOf sblock) number fun _ => 2#8) k = outsideNumber := by
  have bytes : (2#8 ++ 2#8) ++ (2#8 ++ 2#8) = outsideNumber := by decide
  have twos : le32 (fun _ => 2#8) (4 * k) = outsideNumber := bytes
  refine (le32_congr (fun _ => 2#8) fun i bound => ?_).trans twos
  unfold readFSBlock readBlock
  rw [blocksPerFSBlock_small small]
  exact if_neg (show ¬4 * k + i < 1024 by omega)

/-- An entry of the triple indirect block. -/
theorem labelled_entry (small : sblock.sLogBlockSize = 0#32) {k : Nat} (entry : k < 256) :
    Labelled (blockNumbers (readFSBlock labelledDisk (privdataOf sblock) (BitVec.ofNat 32 (1000 + k)) fun _ => 2#8))
      (labelOf k) where
  valid i inside offset below := by
    rw [blockNumbers_readFSBlock small _ _ inside, blockNumbers_table (.inl ⟨by omega, by omega⟩) inside,
      show 1000 + k + 1000 = 2000 + k by omega, arrayByte_table entry below]
  invalid i outside offset below := by
    rw [blockNumbers_outside small _ outside]
    exact arrayByte_nothing (.inr (by decide)) (by decide) below

/-- What is taken for an entry behind the triple indirect block. -/
theorem labelled_outside (small : sblock.sLogBlockSize = 0#32) :
    Labelled (blockNumbers (readFSBlock labelledDisk (privdataOf sblock) outsideNumber fun _ => 2#8)) 0#8 where
  valid i inside offset below := by
    rw [blockNumbers_readFSBlock small _ _ inside, outsideNumber, blockNumbers_nothing (.inr (by decide)) (by decide) inside]
    exact arrayByte_nothing (.inl rfl) (by decide) below
  invalid i outside offset below := by
    rw [blockNumbers_outside small _ outside]
    exact arrayByte_nothing (.inr (by decide)) (by decide) below

end Device
section Traces

variable {heap : DirtyHeap} {sblock : Ext2SuperBlock} {numbers : Nat → Word} {label : Byte}

/-- The bytes that lie under a double indirect block, as the loop copies them from a number of bytes on: the same
everywhere, and zeros from the limit on. -/
def LabelledFrom (label : Byte) (source : Nat → Byte) (copied limit total : Nat) : Prop :=
  ∀ j, copied ≤ j → j < total → (source j = label ∨ source j = 0#8) ∧ (limit ≤ j → source j = 0#8)

/-- What the loop over a double indirect block does. -/
theorem readDouble_trace (small : sblock.sLogBlockSize = 0#32) (granted : ∀ n, heap.grants n = true)
    (labelled : Labelled numbers label) (mem : Memory) (startBuf initPos n : Word) (limit : Nat) (fuel i request moved : Nat)
    (source : Nat → Byte) (copied : Nat) (result : ReadResult)
    (room : i < 256 → copied + (indirectArea - (initPos.toNat + moved) % 2 ^ 32 % indirectArea) +
      (255 - i) * indirectArea ≤ limit)
    (run : readIndirectLoop labelledDisk heap (privdataOf sblock) (blocksReader labelledDisk heap sblock) 262144#32 numbers
      startBuf initPos fuel i request (initPos + BitVec.ofNat 32 moved) (copyIn mem startBuf source copied)
      (startBuf + BitVec.ofNat 32 copied) (n - BitVec.ofNat 32 moved) = some result) :
    ∃ total source' request', DoubleTotal initPos.toNat n.toNat moved copied total ∧
      result = ⟨BitVec.ofNat 32 total, copyIn mem startBuf source' total, request'⟩ ∧
      (∀ j < copied, source' j = source j) ∧ LabelledFrom label source' copied limit total := by
  induction fuel generalizing i request moved source copied with
  | zero => cases run
  | succ fuel ih =>
    have place : (initPos + BitVec.ofNat 32 moved).toNat = (initPos.toNat + moved) % 2 ^ 32 := by
      rw [BitVec.toNat_add, BitVec.toNat_ofNat, Nat.add_mod_mod]
    have rest : (n - BitVec.ofNat 32 moved).toNat = leftOver n.toNat moved := by
      rw [BitVec.toNat_sub, BitVec.toNat_ofNat, leftOver, Nat.add_comm]
    have test : initPos + BitVec.ofNat 32 moved < initPos + (n - BitVec.ofNat 32 moved) ↔ GoesOn initPos.toNat n.toNat moved := by
      rw [BitVec.lt_def, place, BitVec.toNat_add, rest, GoesOn]
    by_cases more : initPos + BitVec.ofNat 32 moved < initPos + (n - BitVec.ofNat 32 moved)
    · obtain ⟨request', step⟩ := readDouble_step labelledDisk small granted numbers startBuf initPos fuel i request
        (initPos + BitVec.ofNat 32 moved) mem source copied (n - BitVec.ofNat 32 moved) more
      have counted : min (n - BitVec.ofNat 32 moved).toNat
          (indirectArea - (initPos + BitVec.ofNat 32 moved).toNat % indirectArea) = passCount initPos.toNat n.toNat moved := by
        rw [place, rest, passCount]
      have most : passCount initPos.toNat n.toNat moved ≤ indirectArea - (initPos.toNat + moved) % 2 ^ 32 % indirectArea :=
        Nat.min_le_right _ _
      have next : initPos + BitVec.ofNat 32 moved + BitVec.ofNat 32 (copied + passCount initPos.toNat n.toNat moved) =
          initPos + BitVec.ofNat 32 (moved + (copied + passCount initPos.toNat n.toNat moved)) := by
        rw [BitVec.add_assoc, ← BitVec.ofNat_add]
      have left : n - BitVec.ofNat 32 moved - BitVec.ofNat 32 (copied + passCount initPos.toNat n.toNat moved) =
          n - BitVec.ofNat 32 (moved + (copied + passCount initPos.toNat n.toNat moved)) := by
        rw [BitVec.sub_sub, ← BitVec.ofNat_add]
      rw [step, counted] at run
      dsimp only at run
      rw [next, left] at run
      generalize countEq : passCount initPos.toNat n.toNat moved = count at run most
      have offset : (initPos.toNat + moved) % 2 ^ 32 % indirectArea < indirectArea := Nat.mod_lt _ (by decide)
      have room' : i + 1 < 256 → copied + count + (indirectArea - (initPos.toNat + (moved + (copied + count))) % 2 ^ 32 %
          indirectArea) + (255 - (i + 1)) * indirectArea ≤ limit := by
        intro inside
        have before := room (by omega)
        rw [show 255 - i = 255 - (i + 1) + 1 by omega, Nat.add_mul] at before
        omega
      obtain ⟨total, source', request₂, totals, same, kept, bytes⟩ := ih _ _ _ _ _ room' run
      rw [← countEq] at totals
      refine ⟨total, source', request₂, .pass (test.mp more) totals, same, fun j below => ?_, fun j later below => ?_⟩
      · rw [kept j (by omega), if_pos below]
      · by_cases this : j < copied + count
        · rw [kept j this, if_neg (by omega), place]
          have within : (initPos.toNat + moved) % 2 ^ 32 % indirectArea + (j - copied) < indirectArea := by omega
          by_cases inside : i < 256
          · rw [labelled.valid i inside _ within]
            refine ⟨.inl rfl, fun beyond => ?_⟩
            have before := room inside
            omega
          · rw [labelled.invalid i (by omega) _ within]
            exact ⟨.inr rfl, fun _ => rfl⟩
        · exact bytes j (by omega) below
    · rw [readIndirectLoop_stop _ _ _ _ _ _ _ _ _ more, Option.some.injEq] at run
      refine ⟨copied, source, request, .stop (fun goesOn => more (test.mpr goesOn)), ?_, fun _ _ => rfl,
        fun j from' below => absurd below (Nat.not_lt.mpr from')⟩
      rw [← run, BitVec.add_comm, BitVec.add_sub_cancel]

/-- What `ReadDoubleIndirectBlocksData` does. -/
theorem readDouble_labelled (small : sblock.sLogBlockSize = 0#32) (granted : ∀ n, heap.grants n = true)
    (labelled : Labelled numbers label) (fuel request : Nat) (pos : Word) (mem : Memory) (buffer bufsize : Word)
    (result : ReadResult) (run : readDoubleIndirectBlocksData labelledDisk heap (privdataOf sblock) fuel request numbers pos mem
      buffer bufsize = some result) :
    ∃ total source request', DoubleTotal pos.toNat bufsize.toNat 0 0 total ∧
      result = ⟨BitVec.ofNat 32 total, copyIn mem buffer source total, request'⟩ ∧
      LabelledFrom label source 0 (doubleArea - pos.toNat) total := by
  have room : pos.toNat / indirectArea < 256 → 0 + (indirectArea - (pos.toNat + 0) % 2 ^ 32 % indirectArea) +
      (255 - pos.toNat / indirectArea) * indirectArea ≤ doubleArea - pos.toNat := by
    intro inside
    rw [Nat.add_zero, Nat.mod_eq_of_lt pos.isLt]
    unfold indirectArea at inside ⊢
    unfold doubleArea
    omega
  rw [readDouble_eq small] at run
  have zero : pos + BitVec.ofNat 32 0 = pos := BitVec.add_zero _
  have all : bufsize - BitVec.ofNat 32 0 = bufsize := BitVec.sub_zero _
  have start : buffer + BitVec.ofNat 32 0 = buffer := BitVec.add_zero _
  have nothing : copyIn mem buffer (fun _ => 0#8) 0 = mem := rfl
  obtain ⟨total, source, request', totals, same, _, bytes⟩ := readDouble_trace small granted labelled mem buffer pos bufsize
    (doubleArea - pos.toNat) fuel (pos.toNat / indirectArea) request 0 (fun _ => 0#8) 0 result room
    (by rw [zero, all, start, nothing]; exact run)
  exact ⟨total, source, request', totals, same, bytes⟩

/-- The entries of the triple indirect block, as they are read. -/
def tripleNumbers (sblock : Ext2SuperBlock) : Nat → Word :=
  blockNumbers (readFSBlock labelledDisk (privdataOf sblock) 1#32 fun _ => 2#8)

theorem labelled_triple (small : sblock.sLogBlockSize = 0#32) (k : Nat) :
    Labelled (blockNumbers (readFSBlock labelledDisk (privdataOf sblock) (tripleNumbers sblock k) fun _ => 2#8)) (labelOf k) := by
  by_cases inside : k < 256
  · have entry : tripleNumbers sblock k = BitVec.ofNat 32 (1000 + k) := by
      rw [tripleNumbers, blockNumbers_readFSBlock small _ _ inside, show 1#32 = BitVec.ofNat 32 1 from rfl,
        blockByte_ofNat _ (by decide)]
      exact labelledDisk_triple inside
    rw [entry]
    exact labelled_entry small inside
  · have nothing : labelOf k = 0#8 := if_neg (by omega)
    have entry : tripleNumbers sblock k = outsideNumber := blockNumbers_outside small _ (by omega)
    rw [entry, nothing]
    exact labelled_outside small

/-- The loop over the triple indirect block. -/
def tripleLoop (sblock : Ext2SuperBlock) (inner : Nat) (startBuf initPos : Word) :
    Nat → Nat → Nat → Word → Memory → Word → Word → Option ReadResult :=
  readIndirectLoop labelledDisk (uniformHeap 2#8) (privdataOf sblock)
    (readDoubleIndirectBlocksData labelledDisk (uniformHeap 2#8) (privdataOf sblock) inner) 67108864#32 (tripleNumbers sblock)
    startBuf initPos

/-- One pass of it. -/
theorem readTriple_pass (small : sblock.sLogBlockSize = 0#32) (inner : Nat) (startBuf initPos : Word) (fuel i request : Nat)
    (pos : Word) (mem : Memory) (source : Nat → Byte) (copied : Nat) (bufsize : Word) (result : ReadResult)
    (more : pos < initPos + bufsize)
    (run : tripleLoop sblock inner startBuf initPos (fuel + 1) i request pos (copyIn mem startBuf source copied)
      (startBuf + BitVec.ofNat 32 copied) bufsize = some result) :
    ∃ count found request', DoubleTotal (pos.toNat % doubleArea) bufsize.toNat 0 0 count ∧
      LabelledFrom (labelOf i) found 0 (doubleArea - pos.toNat % doubleArea) count ∧
      tripleLoop sblock inner startBuf initPos fuel (i + 1) request' (pos + BitVec.ofNat 32 (copied + count))
        (copyIn mem startBuf (fun j => if j < copied then source j else found (j - copied)) (copied + count))
        (startBuf + BitVec.ofNat 32 (copied + count)) (bufsize - BitVec.ofNat 32 (copied + count)) = some result := by
  have offset : (pos % 67108864#32).toNat = pos.toNat % doubleArea := by simp [doubleArea]
  rw [tripleLoop, readIndirectLoop, if_pos more, if_pos (grants_uniformHeap 2#8 request)] at run
  obtain ⟨read, first, rest⟩ := Option.bind_eq_some_iff.mp run
  obtain ⟨count, found, request', totals, same, bytes⟩ := readDouble_labelled small (fun _ => rfl) (labelled_triple small i)
    inner (request + 1) (pos % 67108864#32) (copyIn mem startBuf source copied) (startBuf + BitVec.ofNat 32 copied) bufsize
    read first
  rw [offset] at totals bytes
  refine ⟨count, found, request', totals, bytes, ?_⟩
  have advance : startBuf + BitVec.ofNat 32 copied + BitVec.ofNat 32 count - startBuf = BitVec.ofNat 32 (copied + count) := by
    rw [BitVec.add_assoc, ← BitVec.ofNat_add, BitVec.add_comm, BitVec.add_sub_cancel]
  have place : startBuf + BitVec.ofNat 32 copied + BitVec.ofNat 32 count = startBuf + BitVec.ofNat 32 (copied + count) := by
    rw [BitVec.add_assoc, ← BitVec.ofNat_add]
  rw [same] at rest
  dsimp only at rest
  rw [advance, place, copyIn_append] at rest
  exact rest

/-- Whatever the loop over the triple indirect block goes on to copy, comes from under its further entries. -/
theorem readTriple_further (small : sblock.sLogBlockSize = 0#32) (inner : Nat) (startBuf initPos : Word) (mem : Memory)
    (fuel i request : Nat) (pos : Word) (source : Nat → Byte) (copied : Nat) (bufsize : Word) (result : ReadResult)
    (run : tripleLoop sblock inner startBuf initPos fuel i request pos (copyIn mem startBuf source copied)
      (startBuf + BitVec.ofNat 32 copied) bufsize = some result) :
    ∃ total source' request', copied ≤ total ∧ result = ⟨BitVec.ofNat 32 total, copyIn mem startBuf source' total, request'⟩ ∧
      (∀ j < copied, source' j = source j) ∧ (∀ j, copied ≤ j → j < total → source' j = 0#8 ∨ ∃ k, source' j = labelOf k) ∧
      (copied < total → source' copied = 0#8 ∨ ∃ k, i ≤ k ∧ source' copied = labelOf k) := by
  induction fuel generalizing i request pos source copied bufsize with
  | zero => cases run
  | succ fuel ih =>
    by_cases more : pos < initPos + bufsize
    · obtain ⟨count, found, request₁, _, bytes, rest⟩ := readTriple_pass small inner startBuf initPos fuel i request pos mem
        source copied bufsize result more run
      obtain ⟨total, source', request', least, same, kept, labels, first⟩ := ih _ _ _ _ _ _ rest
      refine ⟨total, source', request', by omega, same, fun j below => ?_, fun j later below => ?_, fun below => ?_⟩
      · rw [kept j (by omega), if_pos below]
      · by_cases this : j < copied + count
        · rw [kept j this, if_neg (by omega)]
          rcases (bytes (j - copied) (Nat.zero_le _) (by omega)).1 with label | zero
          · exact .inr ⟨i, label⟩
          · exact .inl zero
        · exact labels j (by omega) below
      · by_cases none : count = 0
        · subst none
          rcases first below with zero | ⟨k, further, label⟩
          · exact .inl zero
          · exact .inr ⟨k, by omega, label⟩
        · rw [kept copied (by omega), if_neg (Nat.lt_irrefl _), Nat.sub_self]
          rcases (bytes 0 (Nat.le_refl _) (by omega)).1 with label | zero
          · exact .inr ⟨i, Nat.le_refl _, label⟩
          · exact .inl zero
    · have stopped : tripleLoop sblock inner startBuf initPos (fuel + 1) i request pos (copyIn mem startBuf source copied)
          (startBuf + BitVec.ofNat 32 copied) bufsize =
            some ⟨startBuf + BitVec.ofNat 32 copied - startBuf, copyIn mem startBuf source copied, request⟩ :=
        readIndirectLoop_stop _ _ _ _ _ _ _ _ _ more
      rw [stopped, Option.some.injEq] at run
      refine ⟨copied, source, request, Nat.le_refl _, ?_, fun _ _ => rfl, fun j later below => absurd below (Nat.not_lt.mpr later),
        fun below => absurd below (Nat.lt_irrefl _)⟩
      rw [← run, BitVec.add_comm, BitVec.add_sub_cancel]

/-- An entry of the triple indirect block is told by the bytes under it. -/
theorem labelOf_eq {k other : Nat} (entry : k < 64) (same : labelOf other = labelOf k) : other = k := by
  unfold labelOf at same
  rw [if_pos entry] at same
  have numbers := congrArg BitVec.toNat same
  split at numbers <;> simp at numbers <;> omega

theorem labelOf_ne_zero {k : Nat} (entry : k < 64) : labelOf k ≠ 0#8 := by
  unfold labelOf
  rw [if_pos entry]
  intro zero
  have numbers := congrArg BitVec.toNat zero
  simp at numbers
  omega

/-- The bytes under one entry end where the area of the entry ends. -/
theorem inside_of_labelled {source : Nat → Byte} {pos n : Nat} (small : pos + n < 2 ^ 32) {count : Nat} (le : count ≤ n)
    (bytes : LabelledFrom label source 0 (doubleArea - pos % doubleArea) count)
    (right : ∀ j < count, source j = labelOf ((pos + j) / doubleArea)) : pos % doubleArea + count ≤ doubleArea := by
  by_contra beyond
  have below : pos % doubleArea < doubleArea := Nat.mod_lt _ (by decide)
  have least : doubleArea - pos % doubleArea < count := by omega
  have zero := (bytes _ (Nat.zero_le _) least).2 (Nat.le_refl _)
  rw [right _ least] at zero
  exact labelOf_ne_zero (by unfold doubleArea at *; omega) zero

/-- Behind a part that has been copied from under one entry, the bytes from under the next would be the right
ones only where its area begins, and then they are too few. -/
theorem no_further_pass {pos n first second : Nat} {found found₂ source : Nat → Byte} (within : pos + n + doubleArea ≤ 2 ^ 32)
    (fewer : 2 * first < n) (totals : DoubleTotal (pos % doubleArea) n 0 0 first)
    (bytes : LabelledFrom (labelOf (pos / doubleArea)) found 0 (doubleArea - pos % doubleArea) first)
    (totals₂ : DoubleTotal ((pos + first) % doubleArea) (n - first) 0 0 second)
    (bytes₂ : LabelledFrom (labelOf (pos / doubleArea + 1)) found₂ 0 (doubleArea - (pos + first) % doubleArea) second)
    (le : first + second ≤ n) (kept : ∀ j < first, source j = found j)
    (kept₂ : ∀ j, first ≤ j → j < first + second → source j = found₂ (j - first))
    (next : first + second < n →
      source (first + second) = 0#8 ∨ ∃ k, pos / doubleArea + 2 ≤ k ∧ source (first + second) = labelOf k)
    (right : ∀ j < n, source j = labelOf ((pos + j) / doubleArea)) : False := by
  have entry (j : Nat) (below : j < n) : (pos + j) / doubleArea < 64 := by
    unfold doubleArea at *
    omega
  have below : pos % doubleArea < doubleArea := Nat.mod_lt _ (by decide)
  have below₂ : (pos + first) % doubleArea < doubleArea := Nat.mod_lt _ (by decide)
  have least₂ : (pos + first) % doubleArea ≤ pos + first := Nat.mod_le _ _
  have some : 0 < second := totals₂.pos (by omega) (by omega)
  -- the first byte of the second part tells that the area of the next entry begins there
  have reached : (pos + first) / doubleArea = pos / doubleArea + 1 := by
    have byte := right first (by omega)
    rw [kept₂ first (Nat.le_refl _) (by omega), Nat.sub_self] at byte
    rcases (bytes₂ 0 (Nat.le_refl _) some).1 with label | zero
    · rw [label] at byte
      exact (labelOf_eq (entry first (by omega)) byte).symm
    · exact absurd (byte.symm.trans zero) (labelOf_ne_zero (entry first (by omega)))
  have inside := inside_of_labelled (show pos + n < 2 ^ 32 by unfold doubleArea at within; omega) (by omega) bytes
    fun j less => (kept j less).symm.trans (right j (by omega))
  have parts := Nat.div_add_mod pos doubleArea
  have parts₂ := Nat.div_add_mod (pos + first) doubleArea
  rw [reached, Nat.mul_add] at parts₂
  have whole : pos % doubleArea + first = doubleArea := by omega
  have start : (pos + first) % doubleArea = 0 := by omega
  rw [start] at totals₂
  have small₂ := totals₂.lt_doubleArea (by omega) (Nat.le_refl _) (by decide) (.inl (Nat.zero_le _))
  by_cases ends : first + second < n
  · -- the byte behind the second part is from under a later entry, too early
    have still : (pos + (first + second)) / doubleArea = pos / doubleArea + 1 := by
      rw [← Nat.add_assoc, Nat.div_eq_iff (by decide)]
      rw [Nat.mul_comm] at parts₂
      rw [Nat.add_mul] at *
      omega
    have byte := right (first + second) ends
    rcases next ends with zero | ⟨k, later, label⟩
    · exact labelOf_ne_zero (entry _ ends) (byte.symm.trans zero)
    · have same := labelOf_eq (entry _ ends) (label.symm.trans byte)
      omega
  · -- the second part is the rest, so it is short, and the first part was not the end of a pass
    have rest : second = n - first := by omega
    rw [rest] at totals₂
    have reads := totals₂.reads (by unfold doubleArea indirectArea at *; omega)
    have short : n - first ≤ indirectArea := reads.le_indirectArea
    have run := totals.first (by omega) (by omega)
    have remains : min n (indirectArea - pos % doubleArea % indirectArea) = first := by
      unfold doubleArea indirectArea at *
      omega
    rw [remains] at run
    have more := (run.next _ ((goesOn_of_le (by omega) (by omega)).mpr fewer) rfl).le
    have positive : 0 < passCount (pos % doubleArea) n first := by
      rw [passCount_of_le (by omega) (by omega)]
      have bound : (pos % doubleArea + first) % indirectArea < indirectArea := Nat.mod_lt _ (by decide)
      omega
    omega

/-- What a read leaves that begins under one entry: bytes of the entries or zeros, and if they are as many as it
should be and the right ones, one pass has copied them. -/
def OnePassReads (pos : Word) (mem : Memory) (buffer bufsize : Word) (result : ReadResult) : Prop :=
  ∃ total source request', result = ⟨BitVec.ofNat 32 total, copyIn mem buffer source total, request'⟩ ∧
    (∀ j < total, source j = 0#8 ∨ ∃ k, source j = labelOf k) ∧
    (total = bufsize.toNat → (∀ j < bufsize.toNat, source j = labelOf ((pos.toNat + j) / doubleArea)) →
      DoubleReads (pos.toNat % doubleArea) bufsize.toNat ∧ pos.toNat % doubleArea + bufsize.toNat ≤ doubleArea)

theorem labelled_or_zero {source : Nat → Byte} {limit count i : Nat}
    (bytes : LabelledFrom (labelOf i) source 0 limit count) {j : Nat} (below : j < count) :
    source j = 0#8 ∨ ∃ k, source j = labelOf k :=
  ((bytes j (Nat.zero_le _) below).1.imp_left fun label => ⟨i, label⟩).symm

section FirstPass

variable {inner fuel request first : Nat} {pos : Word} {mem : Memory} {buffer bufsize : Word} {result : ReadResult}
  {found : Nat → Byte}

/-- A further pass behind the first one, which reads from under the next entry. -/
theorem readTriple_furtherPass (small : sblock.sLogBlockSize = 0#32)
    (within : pos.toNat + bufsize.toNat + doubleArea ≤ 2 ^ 32)
    (totals : DoubleTotal (pos.toNat % doubleArea) bufsize.toNat 0 0 first)
    (bytes : LabelledFrom (labelOf (pos.toNat / doubleArea)) found 0 (doubleArea - pos.toNat % doubleArea) first)
    (fewer : first < bufsize.toNat)
    (more : pos + BitVec.ofNat 32 first < pos + (bufsize - BitVec.ofNat 32 first))
    (run : tripleLoop sblock inner buffer pos fuel (pos.toNat / doubleArea + 1) request (pos + BitVec.ofNat 32 first)
      (copyIn mem buffer found first) (buffer + BitVec.ofNat 32 first) (bufsize - BitVec.ofNat 32 first) =
        some result) : OnePassReads pos mem buffer bufsize result := by
  cases fuel with
  | zero => cases run
  | succ fuel =>
    obtain ⟨second, found₂, request₂, totals₂, bytes₂, run₂⟩ := readTriple_pass small inner buffer pos fuel _
      request _ mem found first _ result more run
    obtain ⟨total, source, request', le, same, kept, labels, next⟩ :=
      readTriple_further small _ _ _ mem _ _ _ _ _ _ _ _ run₂
    have rest : (bufsize - BitVec.ofNat 32 first).toNat = bufsize.toNat - first := toNat_rest fewer.le
    have place : (pos + BitVec.ofNat 32 first).toNat = pos.toNat + first := by
      rw [BitVec.toNat_add, BitVec.toNat_ofNat]
      unfold doubleArea at within
      omega
    have half : 2 * first < bufsize.toNat := by
      rw [BitVec.lt_def, place, BitVec.toNat_add, rest] at more
      unfold doubleArea at within
      omega
    rw [place, rest] at totals₂
    rw [place] at bytes₂
    refine ⟨total, source, request', same, fun j below => ?_, fun all right => ?_⟩
    · by_cases inFirst : j < first
      · rw [kept j (by omega), if_pos inFirst]
        exact labelled_or_zero bytes inFirst
      · by_cases inSecond : j < first + second
        · rw [kept j inSecond, if_neg inFirst]
          exact labelled_or_zero bytes₂ (by omega)
        · exact labels j (by omega) below
    · exfalso
      apply no_further_pass within half totals bytes totals₂ bytes₂ (by omega) (fun j inFirst => ?_)
        (fun j later inSecond => ?_) (fun ends => next (by omega)) right
      · rw [kept j (by omega), if_pos inFirst]
      · rw [kept j inSecond, if_neg (by omega)]

/-- The loop that stops behind the first pass has copied as much as that has. -/
theorem first_of_stops {total request' : Nat} {source : Nat → Byte} (fewer : first < bufsize.toNat)
    (stops : ¬pos + BitVec.ofNat 32 first < pos + (bufsize - BitVec.ofNat 32 first)) (all : total = bufsize.toNat)
    (run : tripleLoop sblock inner buffer pos fuel (pos.toNat / doubleArea + 1) request (pos + BitVec.ofNat 32 first)
      (copyIn mem buffer found first) (buffer + BitVec.ofNat 32 first) (bufsize - BitVec.ofNat 32 first) =
        some ⟨BitVec.ofNat 32 total, copyIn mem buffer source total, request'⟩) : False := by
  cases fuel with
  | zero => cases run
  | succ fuel =>
    have stopped : tripleLoop sblock inner buffer pos (fuel + 1) (pos.toNat / doubleArea + 1) request
        (pos + BitVec.ofNat 32 first) (copyIn mem buffer found first) (buffer + BitVec.ofNat 32 first)
        (bufsize - BitVec.ofNat 32 first) =
          some ⟨buffer + BitVec.ofNat 32 first - buffer, copyIn mem buffer found first, request⟩ :=
      readIndirectLoop_stop _ _ _ _ _ _ _ _ _ stops
    rw [stopped, Option.some.injEq, ReadResult.mk.injEq, BitVec.add_comm, BitVec.add_sub_cancel] at run
    have numbers := congrArg BitVec.toNat run.1
    have bound := bufsize.isLt
    rw [BitVec.toNat_ofNat, BitVec.toNat_ofNat] at numbers
    omega

/-- No further pass behind the first one: what is copied completely was copied by that. -/
theorem readTriple_lastPass (small : sblock.sLogBlockSize = 0#32)
    (within : pos.toNat + bufsize.toNat + doubleArea ≤ 2 ^ 32)
    (totals : DoubleTotal (pos.toNat % doubleArea) bufsize.toNat 0 0 first)
    (bytes : LabelledFrom (labelOf (pos.toNat / doubleArea)) found 0 (doubleArea - pos.toNat % doubleArea) first)
    (stops : first < bufsize.toNat → ¬pos + BitVec.ofNat 32 first < pos + (bufsize - BitVec.ofNat 32 first))
    (run : tripleLoop sblock inner buffer pos fuel (pos.toNat / doubleArea + 1) request (pos + BitVec.ofNat 32 first)
      (copyIn mem buffer found first) (buffer + BitVec.ofNat 32 first) (bufsize - BitVec.ofNat 32 first) =
        some result) : OnePassReads pos mem buffer bufsize result := by
  obtain ⟨total, source, request', le, same, kept, labels, next⟩ :=
    readTriple_further small _ _ _ mem _ _ _ _ _ _ _ _ run
  refine ⟨total, source, request', same, fun j below => ?_, fun all right => ?_⟩
  · by_cases inFirst : j < first
    · rw [kept j inFirst]
      exact labelled_or_zero bytes inFirst
    · exact labels j (by omega) below
  · have whole : first = bufsize.toNat := by
      by_contra other
      have fewer : first < bufsize.toNat := by omega
      rw [same] at run
      exact first_of_stops fewer (stops fewer) all run
    rw [whole] at totals bytes kept
    have least : pos.toNat % doubleArea ≤ pos.toNat := Nat.mod_le _ _
    have room : 2 * indirectArea < doubleArea := by decide
    exact ⟨totals.reads (by omega), inside_of_labelled (by unfold doubleArea at within; omega) (Nat.le_refl _) bytes
      fun j below => (kept j below).symm.trans (right j below)⟩

end FirstPass

/-- If what is copied after all is as much as it should be and the right bytes, the first pass has copied it. -/
theorem readTriple_reads (small : sblock.sLogBlockSize = 0#32) (fuel request : Nat) (pos : Word) (mem : Memory)
    (buffer bufsize : Word) (result : ReadResult) (within : pos.toNat + bufsize.toNat + doubleArea ≤ 2 ^ 32)
    (positive : 0 < bufsize.toNat)
    (run : readTripleIndirectBlocksData labelledDisk (uniformHeap 2#8) (privdataOf sblock) fuel request (tripleNumbers sblock) pos
      mem buffer bufsize = some result) : OnePassReads pos mem buffer bufsize result := by
  have sum : (pos + bufsize).toNat = pos.toNat + bufsize.toNat := by
    rw [BitVec.toNat_add]
    unfold doubleArea at within
    omega
  rw [readTripleIndirectBlocksData, doubleIndirectBlocksAreaSize_small small, toNat_doubleIndex small pos] at run
  cases fuel with
  | zero => cases run
  | succ fuel =>
    obtain ⟨first, found, request₁, totals, bytes, rest⟩ := readTriple_pass small (fuel + 1) buffer pos fuel
      (pos.toNat / doubleArea) request pos mem (fun _ => 0#8) 0 bufsize result
      (by rw [BitVec.lt_def, sum]; omega) (by rw [show copyIn mem buffer (fun _ => 0#8) 0 = mem from rfl,
        show buffer + BitVec.ofNat 32 0 = buffer from BitVec.add_zero _]; exact run)
    have own : (fun j => if j < 0 then 0#8 else found (j - 0)) = found := rfl
    rw [Nat.zero_add, own] at rest
    by_cases short : first < bufsize.toNat ∧ pos + BitVec.ofNat 32 first < pos + (bufsize - BitVec.ofNat 32 first)
    · exact readTriple_furtherPass small within totals bytes short.1 short.2 rest
    · exact readTriple_lastPass small within totals bytes (fun fewer more => short ⟨fewer, more⟩) rest

end Traces
section LabelledFile

theorem entryOf_table {block k : Nat} (table : 1000 ≤ block ∧ block < 1256 ∨ 2000 ≤ block ∧ block < 2256)
    (inside : k < 256) : entryOf labelledDisk (BitVec.ofNat 32 block) k = BitVec.ofNat 32 (block + 1000) := by
  have number : (BitVec.ofNat 32 block).toNat = block := by
    rw [BitVec.toNat_ofNat]
    omega
  have some : BitVec.ofNat 32 block ≠ 0#32 := by
    intro zero
    rw [zero] at number
    simp at number
    omega
  rw [entryOf, if_neg some, number, labelledDisk_table table inside]

theorem entryOf_triple {k : Nat} (inside : k < 256) : entryOf labelledDisk 1#32 k = BitVec.ofNat 32 (1000 + k) := by
  rw [entryOf, if_neg (by decide)]
  exact labelledDisk_triple inside

theorem present_ofNat {block : Nat} (some : 0 < block) (small : block < 2 ^ 31) :
    BitVec.ofNat 32 block ≠ 0#32 ∧ (BitVec.ofNat 32 block).toNat < 2 ^ 31 := by
  have number : (BitVec.ofNat 32 block).toNat = block := by
    rw [BitVec.toNat_ofNat]
    omega
  refine ⟨fun zero => ?_, by omega⟩
  rw [zero] at number
  simp at number
  omega

theorem iBlock_indirect (size : Word) : (labelledInode size).iBlock 12 = BitVec.ofNat 32 2000 :=
  iBlock_labelledInode size (by decide)

theorem iBlock_double (size : Word) : (labelledInode size).iBlock 13 = BitVec.ofNat 32 1000 :=
  iBlock_labelledInode size (by decide)

theorem iBlock_triple (size : Word) : (labelledInode size).iBlock 14 = 1#32 :=
  iBlock_labelledInode size (by decide)

/-- All blocks of the file are there. -/
theorem present_labelled (size : Word) {n : Nat} (inside : n < 2 ^ 22) : Present labelledDisk (labelledInode size) n := by
  have present {block : Nat} (range : 1 ≤ block ∧ block < 4000) :
      BitVec.ofNat 32 block ≠ 0#32 ∧ (BitVec.ofNat 32 block).toNat < 2 ^ 31 := present_ofNat range.1 (by omega)
  intro number member
  unfold blockPath at member
  rw [iBlock_indirect, iBlock_double, iBlock_triple] at member
  split at member
  · rename_i direct
    rw [iBlock_labelledInode size (by omega), if_pos direct] at member
    rw [List.mem_singleton.mp member]
    exact present (by decide)
  split at member
  · rw [entryOf_table (.inr (by decide)) (by omega)] at member
    rcases List.mem_pair.mp member with rfl | rfl <;> exact present (by decide)
  split at member
  · dsimp only at member
    rw [entryOf_table (.inl (by decide)) (by omega), entryOf_table (.inr (by decide)) (by omega)] at member
    simp only [List.mem_cons, List.not_mem_nil, or_false] at member
    rcases member with rfl | rfl | rfl <;> exact present (by decide)
  · dsimp only at member
    rw [entryOf_triple (by omega), entryOf_table (.inl ⟨by omega, by omega⟩) (by omega),
      entryOf_table (.inr ⟨by omega, by omega⟩) (by omega)] at member
    simp only [List.mem_cons, List.not_mem_nil, or_false] at member
    rcases member with rfl | rfl | rfl | rfl <;> exact present (by omega)

/-- The bytes under an entry of the triple indirect block. -/
theorem indirectByte_entry {k q : Nat} (entry : k < 256) (inside : q < doubleArea) :
    indirectByte labelledDisk (blockNumbers (blockByte labelledDisk (BitVec.ofNat 32 (1000 + k)))) q = labelOf k := by
  have index : q / indirectArea < 256 := by
    unfold doubleArea at inside
    unfold indirectArea
    omega
  rw [indirectByte, blockNumbers_table (.inl ⟨by omega, by omega⟩) index, show 1000 + k + 1000 = 2000 + k by omega]
  exact arrayByte_table entry (Nat.mod_lt _ (by decide))

/-- The bytes of the file. -/
theorem fileByte_labelled (size : Word) {p : Nat} (inside : p < 2 ^ 32) :
    fileByte labelledDisk (labelledInode size) p = labelOf ((p - endOfDouble) / doubleArea) := by
  have present := present_labelled size (n := p / 1024) (by omega)
  have first (before : p < endOfDouble) : (p - endOfDouble) / doubleArea = 0 := by
    rw [Nat.sub_eq_zero_of_le before.le, Nat.zero_div]
  by_cases direct : p < directArea
  · rw [fileByte_direct present direct, arrayByte, iBlock_labelledInode size (by unfold directArea at direct; omega),
      if_pos (by unfold directArea at direct; omega), first (Nat.lt_trans direct (by decide)),
      show 3000#32 = BitVec.ofNat 32 (3000 + 0) from rfl, blockByte_ofNat _ (by decide)]
    exact labelledDisk_data 0 (Nat.mod_lt _ (by decide))
  by_cases indirect : p < endOfIndirect
  · rw [fileByte_indirect present (Nat.not_lt.mp direct) indirect, iBlock_indirect, first (Nat.lt_trans indirect (by decide))]
    exact arrayByte_table (k := 0) (by decide) (by unfold endOfIndirect at indirect; unfold directArea indirectArea at *; omega)
  by_cases double : p < endOfDouble
  · rw [fileByte_double present (Nat.not_lt.mp indirect) double, iBlock_double, first double]
    exact indirectByte_entry (k := 0) (by decide) (by unfold endOfDouble at double; unfold endOfIndirect doubleArea at *; omega)
  · have index : (p - endOfDouble) / doubleArea < 256 := by
      unfold doubleArea
      omega
    rw [fileByte_triple present (Nat.not_lt.mp double), iBlock_triple, doubleByte,
      show 1#32 = BitVec.ofNat 32 1 from rfl, blockByte_ofNat _ (by decide),
      show blockNumbers (fun i => labelledDisk (1024 * 1 + i)) ((p - endOfDouble) / doubleArea) =
        BitVec.ofNat 32 (1000 + (p - endOfDouble) / doubleArea) from labelledDisk_triple index]
    exact indirectByte_entry index (Nat.mod_lt _ (by decide))

end LabelledFile
section Comparison

/-- Wherever a copy has written, there is one of its bytes. -/
theorem copyIn_covered (mem : Memory) (dest : Word) (src : Nat → Byte) {n i : Nat} (inside : i < n) :
    ∃ j < n, copyIn mem dest src n (dest + BitVec.ofNat 32 i) = src j := by
  induction n with
  | zero => omega
  | succ n ih =>
    by_cases last : dest + BitVec.ofNat 32 i = dest + BitVec.ofNat 32 n
    · exact ⟨n, Nat.lt_succ_self n, by rw [copyIn, last, Function.update_self]⟩
    · have before : i < n := by
        by_contra large
        exact last (by rw [show i = n by omega])
      obtain ⟨j, below, same⟩ := ih before
      exact ⟨j, by omega, by rw [copyIn, Function.update_of_ne last, same]⟩

/-- Memory that holds none of the bytes of the device. -/
def unwritten : Memory := fun _ => 100#8

/-- Two copies over such memory that leave the same are the same. -/
theorem same_copies {dest : Word} {src other : Nat → Byte} {n m : Nat} (small : n < 2 ^ 32)
    (different : ∀ j < m, other j ≠ 100#8) (counts : BitVec.ofNat 32 m = BitVec.ofNat 32 n)
    (same : copyIn unwritten dest other m = copyIn unwritten dest src n) : m = n ∧ ∀ j < n, other j = src j := by
  have counted : m = n := by
    by_contra unequal
    have numbers := congrArg BitVec.toNat counts
    rw [BitVec.toNat_ofNat, BitVec.toNat_ofNat] at numbers
    have large : n < m := by omega
    obtain ⟨j, below, written⟩ := copyIn_covered unwritten dest other large
    have outside : copyIn unwritten dest src n (dest + BitVec.ofNat 32 n) = 100#8 := by
      refine copyIn_other unwritten src fun i inside equal => ?_
      have numbers := congrArg BitVec.toNat (BitVec.add_right_inj dest |>.mp equal)
      rw [BitVec.toNat_ofNat, BitVec.toNat_ofNat] at numbers
      omega
    rw [same, outside] at written
    exact different j below written.symm
  subst counted
  refine ⟨rfl, fun j inside => ?_⟩
  rw [← copyIn_at unwritten dest other inside small.le, same, copyIn_at unwritten dest src inside small.le]

theorem labelOf_ne (k : Nat) : labelOf k ≠ 100#8 := by
  unfold labelOf
  split
  · intro same
    have numbers := congrArg BitVec.toNat same
    simp at numbers
    omega
  · decide

end Comparison

section Beginning

variable {sblock : Ext2SuperBlock}

/-- What the loop over the triple indirect block does at all: it stops at once, or copies labelled bytes. -/
theorem tripleLoop_of_run (small : sblock.sLogBlockSize = 0#32) (fuel request : Nat) (pos : Word) (mem : Memory)
    (buffer bufsize : Word) (found : ReadResult)
    (run : readTripleIndirectBlocksData labelledDisk (uniformHeap 2#8) (privdataOf sblock) fuel request (tripleNumbers sblock) pos
      mem buffer bufsize = some found) :
    (¬pos < pos + bufsize → found = ⟨0#32, mem, found.request⟩) ∧
      ∃ (total : Nat) (bytes : Nat → Byte) (request' : Nat),
        found = ⟨BitVec.ofNat 32 total, copyIn mem buffer bytes total, request'⟩ ∧
          ∀ j < total, bytes j = 0#8 ∨ ∃ k, bytes j = labelOf k := by
  have area := doubleIndirectBlocksAreaSize_small small
  rw [readTripleIndirectBlocksData, area] at run
  cases fuel with
  | zero => cases run
  | succ fuel =>
    constructor
    · intro stops
      rw [readIndirectLoop_stop _ _ _ _ _ _ _ _ _ stops, Option.some.injEq] at run
      rw [← run, BitVec.sub_self]
    · obtain ⟨total, bytes, request', _, same, _, labels, _⟩ := readTriple_further small (fuel + 1) buffer pos mem (fuel + 1) _
        request pos (fun _ => 0#8) 0 bufsize found (by rw [show copyIn mem buffer (fun _ => 0#8) 0 = mem from rfl,
          show buffer + BitVec.ofNat 32 0 = buffer from BitVec.add_zero _]; exact run)
      exact ⟨total, bytes, request', same, fun j => labels j (Nat.zero_le j)⟩

end Beginning

section Necessity

variable {sblock : Ext2SuperBlock} {size : Word} {pos : BitVec 64} {bufsize : Word}

/-- The part of a read in the double indirect blocks, behind `done` bytes that are there. -/
theorem readDouble_part_labelled (small : sblock.sLogBlockSize = 0#32) (fuel request : Nat) (source : Nat → Byte)
    (count : Word) (done : Nat) (within : pos.toNat + done < 2 ^ 32) (start : endOfIndirect ≤ pos.toNat + done)
    (found : ReadResult) (run : readDoubleIndirectBlocksData labelledDisk (uniformHeap 2#8) (privdataOf sblock) fuel request
      (blockNumbers (readFSBlock labelledDisk (privdataOf sblock) ((labelledInode size).iBlock ext2DindBlock) fun _ => 2#8))
      (areaPos pos (BitVec.ofNat 32 done) (privdataOf sblock).directIndirectBlocksAreaSize)
      (copyIn unwritten 0#32 source done) (0#32 + BitVec.ofNat 32 done) count = some found) :
    ∃ total bytes request', DoubleTotal (pos.toNat + done - endOfIndirect) count.toNat 0 0 total ∧
      LabelledFrom (labelOf 0) bytes 0 (doubleArea - (pos.toNat + done - endOfIndirect)) total ∧
      found = ⟨BitVec.ofNat 32 total,
        copyIn unwritten 0#32 (fun j => if j < done then source j else bytes (j - done)) (done + total), request'⟩ := by
  have area := directIndirectBlocksAreaSize_small small
  have place : (areaPos pos (BitVec.ofNat 32 done) 274432#32).toNat = pos.toNat + done - endOfIndirect :=
    toNat_areaPos within start
  have entry : (labelledInode size).iBlock ext2DindBlock = BitVec.ofNat 32 (1000 + 0) := iBlock_double size
  rw [area, entry] at run
  obtain ⟨total, bytes, request', totals, same, labels⟩ := readDouble_labelled small (fun _ => rfl)
    (labelled_entry small (by decide)) fuel request _ _ _ count found run
  rw [place] at totals labels
  rw [copyIn_append] at same
  exact ⟨total, bytes, request', totals, labels, same⟩

/-- What is copied behind the double indirect blocks, after `done` bytes: nothing if these end before, and the
right bytes only if one pass copies them. -/
theorem readTripleArea_labelled (small : sblock.sLogBlockSize = 0#32) (fuel request : Nat) (source : Nat → Byte)
    (count : Word) (done : Nat) (within : pos.toNat + count.toNat < 2 ^ 32) (result : ReadResult)
    (run : readTripleArea labelledDisk (uniformHeap 2#8) (privdataOf sblock) fuel (labelledInode size) pos 0#32 count
      ⟨BitVec.ofNat 32 done, copyIn unwritten 0#32 source done, request⟩ = some result) :
    ∃ (total : Nat) (bytes : Nat → Byte) (request' : Nat), result = ⟨BitVec.ofNat 32 (done + total),
        copyIn unwritten 0#32 (fun j => if j < done then source j else bytes (j - done)) (done + total), request'⟩ ∧
      (∀ j < total, bytes j = 0#8 ∨ ∃ k, bytes j = labelOf k) ∧
      (pos.toNat + done < endOfDouble → endOfDouble ≤ pos.toNat + count.toNat → total = 0) ∧
      (endOfDouble ≤ pos.toNat + done → done < count.toNat → total = count.toNat - done →
        (∀ j < count.toNat - done, bytes j = labelOf ((pos.toNat + done - endOfDouble + j) / doubleArea)) →
        DoubleReads ((pos.toNat + done - endOfDouble) % doubleArea) (count.toNat - done) ∧
          (pos.toNat + done - endOfDouble) % doubleArea + (count.toNat - done) ≤ doubleArea) := by
  have area := dirIndirDIndirBlocksAreaSize_small small
  have entry : (labelledInode size).iBlock ext2TindBlock = 1#32 := iBlock_triple size
  rw [readTripleArea, if_pos (grants_uniformHeap 2#8 request), area, entry] at run
  obtain ⟨found, read, same⟩ := Option.map_eq_some_iff.mp run
  have sums (total : Nat) : BitVec.ofNat 32 done + BitVec.ofNat 32 total = BitVec.ofNat 32 (done + total) :=
    (BitVec.ofNat_add _ _).symm
  by_cases behind : endOfDouble ≤ pos.toNat + done ∧ done < count.toNat
  · obtain ⟨beyond, more⟩ := behind
    have place : (areaPos pos (BitVec.ofNat 32 done) 67383296#32).toNat = pos.toNat + done - endOfDouble :=
      toNat_areaPos (by omega) beyond
    have rest := toNat_rest more.le
    obtain ⟨total, bytes, request', equal, labels, right⟩ := readTriple_reads small fuel (request + 1) _ _ _ _ found
      (by rw [place, rest]; unfold endOfDouble at beyond ⊢; unfold doubleArea; omega) (by rw [rest]; omega) read
    rw [equal, sums, copyIn_append] at same
    rw [place, rest] at right
    exact ⟨total, bytes, request', same.symm, labels, fun before => absurd before (Nat.not_lt.mpr beyond),
      fun _ _ all good => right all good⟩
  · obtain ⟨stays, begins⟩ := tripleLoop_of_run small fuel (request + 1) _ _ _ _ found read
    by_cases before : pos.toNat + done < endOfDouble ∧ endOfDouble ≤ pos.toNat + count.toNat
    · -- the position is taken to be a huge one
      obtain ⟨less, more⟩ := before
      have rest := toNat_rest (show done ≤ count.toNat by omega)
      have place : (areaPos pos (BitVec.ofNat 32 done) 67383296#32).toNat = 2 ^ 32 + pos.toNat + done - endOfDouble := by
        unfold endOfDouble at less ⊢
        rw [areaPos, BitVec.toNat_setWidth, BitVec.toNat_sub, BitVec.toNat_add, BitVec.toNat_signExtend,
          BitVec.toNat_setWidth, BitVec.toNat_setWidth, BitVec.toNat_ofNat, BitVec.toNat_ofNat]
        split <;> omega
      have stops : ¬areaPos pos (BitVec.ofNat 32 done) 67383296#32 <
          areaPos pos (BitVec.ofNat 32 done) 67383296#32 + (count - BitVec.ofNat 32 done) := by
        unfold endOfDouble at less more place
        rw [BitVec.lt_def, BitVec.toNat_add, place, rest]
        omega
      have nothing := stays stops
      refine ⟨0, fun _ => 0#8, found.request, ?_, fun j below => absurd below (Nat.not_lt_zero j), fun _ _ => rfl,
        fun beyond => absurd less (Nat.not_lt.mpr beyond)⟩
      rw [← same, nothing, Nat.add_zero]
      dsimp only
      rw [BitVec.add_zero, show copyIn unwritten 0#32 (fun j => if j < done then source j else 0#8) done =
        copyIn unwritten 0#32 source done from copyIn_congr unwritten 0#32 fun j below => if_pos below]
    · obtain ⟨total, bytes, request', equal, labels⟩ := begins
      rw [equal, sums, copyIn_append] at same
      exact ⟨total, bytes, request', same.symm, labels, fun less more => absurd ⟨less, more⟩ before,
        fun beyond more => absurd ⟨beyond, more⟩ behind⟩

/-- The bytes of the file from the position of the read on. -/
def labelledFrom (size : Word) (pos : BitVec 64) : Nat → Byte := fun j =>
  fileByte labelledDisk (labelledInode size) (pos.toNat + j)

theorem labelledFrom_eq {j : Nat} (small : pos.toNat + j < 2 ^ 32) :
    labelledFrom size pos j = labelOf ((pos.toNat + j - endOfDouble) / doubleArea) :=
  fileByte_labelled size small

/-- A right read that begins behind the double indirect blocks. -/
theorem exact_behind (small : sblock.sLogBlockSize = 0#32) (fuel request request' : Nat) (count : Word)
    (within : pos.toNat + count.toNat < 2 ^ 32) (start : endOfDouble ≤ pos.toNat)
    (run : readTripleArea labelledDisk (uniformHeap 2#8) (privdataOf sblock) fuel (labelledInode size) pos 0#32 count
      ⟨0#32, unwritten, request⟩ = some ⟨count, copyIn unwritten 0#32 (labelledFrom size pos) count.toNat, request'⟩) :
    Exact pos.toNat count.toNat := by
  rw [Exact, if_neg (Nat.not_lt.mpr ((by decide : endOfIndirect ≤ endOfDouble).trans start)), if_neg (Nat.not_lt.mpr start)]
  by_cases nothing : count.toNat = 0
  · rw [nothing]
    refine ⟨.inl (Nat.zero_le _), ?_⟩
    rw [Nat.add_zero]
    exact (Nat.mod_lt _ (show 0 < doubleArea by decide)).le
  obtain ⟨total, bytes, _, same, labels, _, right⟩ := readTripleArea_labelled small fuel request (labelledFrom size pos) count 0
    within _ run
  have own : (fun j => if j < 0 then labelledFrom size pos j else bytes (j - 0)) = bytes := rfl
  rw [own, Nat.zero_add, ReadResult.mk.injEq] at same
  obtain ⟨counted, equal⟩ := same_copies count.isLt (fun j below => by
    rcases labels j below with zero | ⟨k, label⟩
    · rw [zero]
      decide
    · rw [label]
      exact labelOf_ne k) (same.1.symm.trans (by simp)) same.2.1.symm
  exact right start (Nat.pos_of_ne_zero nothing) counted fun j below => by
    rw [equal j below, labelledFrom_eq (by omega), show pos.toNat + 0 - endOfDouble + j = pos.toNat + j - endOfDouble by omega]

/-- All bytes of a read are such as lie on the device. -/
theorem labelled_ne {source bytes : Nat → Byte} {done total : Nat} (first : ∀ j < done, source j ≠ 100#8)
    (labels : ∀ j < total, bytes j = 0#8 ∨ ∃ k, bytes j = labelOf k) :
    ∀ j < done + total, (if j < done then source j else bytes (j - done)) ≠ 100#8 := by
  intro j below
  by_cases before : j < done
  · rw [if_pos before]
    exact first j before
  · rw [if_neg before]
    rcases labels (j - done) (by omega) with zero | ⟨k, label⟩
    · rw [zero]
      decide
    · rw [label]
      exact labelOf_ne k

theorem labels_of_from {bytes : Nat → Byte} {label : Nat} {limit total : Nat}
    (labels : LabelledFrom (labelOf label) bytes 0 limit total) : ∀ j < total, bytes j = 0#8 ∨ ∃ k, bytes j = labelOf k :=
  fun j below => ((labels j (Nat.zero_le j) below).1.imp_left fun same => ⟨label, same⟩).symm

theorem labelledFrom_ne {done : Nat} (small : pos.toNat + done ≤ 2 ^ 32) : ∀ j < done, labelledFrom size pos j ≠ 100#8 :=
  fun j below => by
    rw [labelledFrom_eq (by omega)]
    exact labelOf_ne _

/-- The areas lie behind each other and end early enough for a word. -/
theorem area_bounds : doubleArea + endOfDouble ≤ 2 ^ 32 ∧ endOfIndirect < endOfDouble ∧
    endOfDouble = endOfIndirect + doubleArea ∧ 2 * indirectArea + endOfDouble < 2 ^ 32 := by
  decide

section DoubleArea

variable (small : sblock.sLogBlockSize = 0#32) (fuel request request' : Nat) (count : Word) (done : Nat)
  (within : pos.toNat + count.toNat < 2 ^ 32) (le : done ≤ count.toNat) (doneEq : done = endOfIndirect - pos.toNat)
  (before : pos.toNat < endOfDouble)
  (run : readDoubleArea labelledDisk (uniformHeap 2#8) (privdataOf sblock) fuel (labelledInode size) pos 0#32 count
    ⟨BitVec.ofNat 32 done, copyIn unwritten 0#32 (labelledFrom size pos) done, request⟩ =
      some ⟨count, copyIn unwritten 0#32 (labelledFrom size pos) count.toNat, request'⟩)

include small within le doneEq before run

/-- A right read that ends in the double indirect blocks, after `done` bytes. -/
theorem exact_of_readDoubleArea_inside (inside : pos.toNat + count.toNat < endOfDouble) : Exact pos.toNat count.toNat := by
  have start : endOfIndirect ≤ pos.toNat + done := by omega
  have begins : pos < BitVec.ofNat 64 endOfDouble := before
  obtain ⟨few, order, areas, rooms⟩ := area_bounds
  have ends : pos + count.setWidth 64 < BitVec.ofNat 64 endOfDouble := by
    rw [BitVec.lt_def, toNat_end within]
    exact inside
  rw [readDoubleArea, endOfDouble_small small, BitVec.add_comm (count.setWidth 64)] at run
  dsimp only at run
  rw [if_pos begins, if_pos (grants_uniformHeap 2#8 request), if_pos ends] at run
  obtain ⟨found, read, rest⟩ := Option.bind_eq_some_iff.mp run
  obtain ⟨total, bytes, _, totals, labels, equal⟩ := readDouble_part_labelled small fuel (request + 1) _ _ done
    (by omega) start found read
  rw [toNat_rest le] at totals
  rw [if_pos ends, equal, Option.some.injEq, ReadResult.mk.injEq] at rest
  dsimp only at rest
  obtain ⟨counted, _⟩ := same_copies count.isLt (labelled_ne (labelledFrom_ne (by omega)) (labels_of_from labels))
    ((BitVec.ofNat_add _ _).trans (rest.1.trans (by simp))) rest.2.1
  rw [show total = count.toNat - done by omega] at totals
  have reads := totals.reads (by omega)
  rw [Exact]
  by_cases first : pos.toNat < endOfIndirect
  · rw [if_pos first]
    rw [show pos.toNat + done - endOfIndirect = 0 by omega] at reads
    have short := reads.le_indirectArea
    omega
  · rw [if_neg first, if_pos before, if_pos inside]
    rwa [show done = 0 by omega, Nat.add_zero, Nat.sub_zero] at reads

/-- A right read that goes beyond them. -/
theorem exact_of_readDoubleArea_beyond (beyond : endOfDouble ≤ pos.toNat + count.toNat) : Exact pos.toNat count.toNat := by
  have start : endOfIndirect ≤ pos.toNat + done := by omega
  have begins : pos < BitVec.ofNat 64 endOfDouble := before
  obtain ⟨few, order, areas, rooms⟩ := area_bounds
  have ends : ¬pos + count.setWidth 64 < BitVec.ofNat 64 endOfDouble := by
    rw [BitVec.lt_def, toNat_end within]
    exact Nat.not_lt.mpr beyond
  obtain ⟨part, partEq⟩ : ∃ part, endOfDouble - pos.toNat = part := ⟨_, rfl⟩
  have rest : ((BitVec.ofNat 64 endOfDouble - pos).setWidth 32).toNat = part := by
    rw [← partEq]
    unfold endOfDouble at before ⊢
    rw [BitVec.toNat_setWidth, BitVec.toNat_sub_of_le (by rw [BitVec.le_def, BitVec.toNat_ofNat]; omega), BitVec.toNat_ofNat]
    omega
  rw [readDoubleArea, endOfDouble_small small, BitVec.add_comm (count.setWidth 64)] at run
  dsimp only at run
  rw [if_pos begins, if_pos (grants_uniformHeap 2#8 request), if_neg ends] at run
  obtain ⟨found, read, further⟩ := Option.bind_eq_some_iff.mp run
  obtain ⟨total, bytes, _, totals, labels, equal⟩ := readDouble_part_labelled small fuel (request + 1) _ _ done
    (by omega) start found read
  rw [rest] at totals
  rw [if_neg ends, equal] at further
  dsimp only at further
  rw [show BitVec.ofNat 32 done + BitVec.ofNat 32 total = BitVec.ofNat 32 (done + total) from (BitVec.ofNat_add _ _).symm]
    at further
  obtain ⟨more, bytes₃, _, same, labels₃, none, right⟩ := readTripleArea_labelled small fuel _ _ count (done + total) within _
    further
  rw [ReadResult.mk.injEq] at same
  obtain ⟨counted, equal⟩ := same_copies count.isLt
    (labelled_ne (labelled_ne (labelledFrom_ne (by omega)) (labels_of_from labels)) labels₃)
    (same.1.symm.trans (by simp)) same.2.1.symm
  have reached : endOfDouble ≤ pos.toNat + (done + total) := by
    by_contra short
    have nothing := none (by omega) beyond
    omega
  by_cases first : pos.toNat < endOfIndirect
  · -- from the beginning of the double indirect blocks, their end is out of reach
    rw [show pos.toNat + done - endOfIndirect = 0 by omega] at totals
    have short := totals.lt_doubleArea (by omega) (Nat.le_refl _) (by decide) (.inl (Nat.zero_le _))
    omega
  · have zero : done = 0 := by omega
    subst zero
    have exactly : total = part := by
      by_contra other
      have byte := equal part (by omega)
      rw [if_pos (by omega), if_neg (Nat.not_lt_zero _), Nat.sub_zero, labelledFrom_eq (by omega),
        (labels part (Nat.zero_le _) (by omega)).2 (by omega), show pos.toNat + part - endOfDouble = 0 by omega,
        Nat.zero_div] at byte
      exact labelOf_ne_zero (by decide) byte.symm
    rw [exactly, Nat.add_zero] at totals
    rw [Exact, if_neg first, if_pos before, if_neg (Nat.not_lt.mpr beyond), partEq]
    refine ⟨totals.reads (by omega), ?_⟩
    by_cases all : count.toNat = part
    · omega
    · have reads := (right reached (by omega) (by omega) fun j below => by
        have byte := equal (0 + total + j) (by omega)
        rw [if_neg (by omega), Nat.add_sub_cancel_left, labelledFrom_eq (by omega)] at byte
        rw [byte, show pos.toNat + (0 + total + j) - endOfDouble = pos.toNat + (0 + total) - endOfDouble + j by omega]).1
      rw [show pos.toNat + (0 + total) - endOfDouble = 0 by omega, Nat.zero_mod] at reads
      have short := reads.le_indirectArea
      omega

/-- A right read that goes on in the double indirect blocks, after `done` bytes. -/
theorem exact_of_readDoubleArea : Exact pos.toNat count.toNat := by
  by_cases inside : pos.toNat + count.toNat < endOfDouble
  · exact exact_of_readDoubleArea_inside small fuel request request' count done within le doneEq before run inside
  · exact exact_of_readDoubleArea_beyond small fuel request request' count done within le doneEq before run
      (Nat.not_lt.mp inside)

end DoubleArea

/-- A read of the labelled file that is right is one that the condition admits. -/
theorem exact_of_readsFile (small : sblock.sLogBlockSize = 0#32) (within : pos.toNat + bufsize.toNat < 2 ^ 32)
    (right : ReadsFile labelledDisk (labelledInode size) (uniformHeap 2#8) sblock pos bufsize) :
    Exact pos.toNat (readable size.toNat pos.toNat bufsize.toNat) := by
  have least : readable size.toNat pos.toNat bufsize.toNat ≤ bufsize.toNat := Nat.min_le_left _ _
  obtain ⟨fuel, request', run⟩ := right 0 unwritten 0#32
  dsimp only at run
  rw [iSize_labelledInode] at run
  by_cases before : pos.toNat < size.toNat
  · have order : endOfIndirect ≤ endOfDouble := by decide
    have count := toNat_readable pos bufsize size.toNat
    have same : (labelledInode size).iSize.toNat = size.toNat := by rw [iSize_labelledInode]
    rw [readData_eq (by rw [iBlocks_labelledInode]; decide) within (by rw [same]; exact before), same] at run
    obtain ⟨word, wordEq⟩ : ∃ word, BitVec.ofNat 32 (readable size.toNat pos.toNat bufsize.toNat) = word := ⟨_, rfl⟩
    rw [wordEq] at count run
    rw [← count] at least run ⊢
    have present : PresentIn labelledDisk (labelledInode size) pos.toNat word.toNat :=
      fun k _ below => present_labelled size (by omega)
    obtain ⟨request₁, read⟩ := readDirectArea_eq small (fun _ => rfl : ∀ n, (uniformHeap 2#8).grants n = true) fuel 0
      unwritten 0#32 (by omega) present
    rw [read] at run
    by_cases ends : pos.toNat + word.toNat < endOfIndirect
    · rw [Exact, if_pos (by omega)]
      omega
    · rw [if_neg ends] at run
      by_cases double : pos.toNat < endOfDouble
      · exact exact_of_readDoubleArea small fuel request₁ request' word _ (by omega) (by omega) rfl double run
      · have behind : ¬pos < BitVec.ofNat 64 endOfDouble := double
        rw [Nat.sub_eq_zero_of_le (order.trans (Nat.not_lt.mp double)), readDoubleArea, endOfDouble_small small] at run
        dsimp only at run
        rw [if_neg behind] at run
        exact exact_behind small fuel request₁ request' word (by omega) (Nat.not_lt.mp double) run
  · have nothing : readable size.toNat pos.toNat bufsize.toNat = 0 := by
      unfold readable
      omega
    rw [nothing, Exact]
    have ahead : indirectArea = indirectArea := rfl
    split
    · omega
    split
    · rw [if_pos (by omega)]
      exact .inl (Nat.zero_le _)
    · refine ⟨.inl (Nat.zero_le _), ?_⟩
      rw [Nat.add_zero]
      exact (Nat.mod_lt _ (show 0 < doubleArea by decide)).le

end Necessity
/-- Such a read is right in every file of that size, wherever the blocks of the read lie on its device. -/
def ReadsEvery (sblock : Ext2SuperBlock) (size : Word) (pos : BitVec 64) (bufsize : Word) : Prop :=
  ∀ disk inode heap, (∀ n, heap.grants n = true) → inode.iSize = size → inode.iBlocks ≠ 0#32 →
    PresentIn disk inode pos.toNat (readable size.toNat pos.toNat bufsize.toNat) →
      ReadsFile disk inode heap sblock pos bufsize

/-- The code reads every file rightly exactly in the reads that the condition admits. -/
theorem read_exact_iff (sblock : Ext2SuperBlock) (small : sblock.sLogBlockSize = 0#32) (size : Word) (pos : BitVec 64)
    (bufsize : Word) (within : pos.toNat + bufsize.toNat < 2 ^ 32) :
    ReadsEvery sblock size pos bufsize ↔ Exact pos.toNat (readable size.toNat pos.toNat bufsize.toNat) := by
  constructor
  · intro right
    have least : readable size.toNat pos.toNat bufsize.toNat ≤ bufsize.toNat := Nat.min_le_left _ _
    apply exact_of_readsFile small within
    apply right _ _ _ (fun _ => rfl) (iSize_labelledInode size)
    · rw [iBlocks_labelledInode]
      decide
    · exact fun k _ below => present_labelled size (by omega)
  · intro admitted disk inode heap granted same blocks present
    rw [← same] at present admitted
    exact readsFile_of_exact small granted blocks within present admitted

theorem first_blocks_right : ReadsEvery (smallSuperBlock 128#16) 4096#32 1000#64 2048#32 :=
  (read_exact_iff _ rfl 4096#32 1000#64 2048#32 (by decide)).mpr (by decide)

/-- Across the end of the first indirect block under the double indirect one, two blocks are not read. -/
theorem second_block_missed : PresentIn labelledDisk (labelledInode 1000000#32) 535552 2048 ∧
    ¬ReadsFile labelledDisk (labelledInode 1000000#32) (uniformHeap 2#8) (smallSuperBlock 128#16) 535552#64 2048#32 := by
  refine ⟨fun k _ below => present_labelled _ (by omega), fun right => ?_⟩
  have admitted := exact_of_readsFile rfl (by decide) right
  revert admitted
  decide

end FluxOS.Ext2
