import FluxOS.Ext2

/-! `Ext2::ReadData`: reading a file through its direct, indirect, double and triple
indirect blocks. -/
namespace FluxOS
open Words UserMemoryOps BlockDevice

/-- What a read returns, and what it leaves: the memory, and the number of the next request to the heap. -/
structure ReadResult where
  result : Word
  mem : Memory
  request : Nat

namespace Ext2

/-- The entries of an array of block numbers. -/
def blockNumbers (block : Block) (i : Nat) : Word := le32 block (4 * i)

/-- `-ENOMEM`. -/
def noMemory : Word := BitVec.ofInt 32 (-enomem)

section Reading

variable (disk : Disk) (heap : DirtyHeap) (privdata : Ext2Privdata)

/-- `ReadBlock` of a block of the file system. -/
def readFSBlock (number : Word) (blockbuffer : Block) : Block :=
  readBlock disk (number <<< privdata.diskBlockLog) privdata.diskBlocksPerFSBlock blockbuffer

/-- `ReadBlock` to where the file is read to. -/
def readFSBlockTo (number : Word) (mem : Memory) (buffer : Word) : Memory :=
  copyIn mem buffer (readFSBlock disk privdata number fun _ => 0#8) (sectorSize * privdata.diskBlocksPerFSBlock.toNat)

/-- The loop that reads whole blocks. -/
def readWholeBlocks (indirectBlocks : Nat → Word) (mem : Memory) (buffer : Word) (i : Nat) : Nat → Memory
  | 0 => mem
  | count + 1 => readWholeBlocks indirectBlocks (readFSBlockTo disk privdata (indirectBlocks i) mem buffer)
      (buffer + privdata.blockSize) (i + 1) count

/-- `ReadBlocksData` behind the first block, of which `read` bytes have been taken. -/
def readFurtherBlocks (request : Nat) (indirectBlocks : Nat → Word) (startBlock : Word) (mem : Memory)
    (startBuf read bufsize : Word) : ReadResult :=
  if read = bufsize then ⟨bufsize, mem, request⟩
  else
    let bufsize := bufsize - read
    let endBlock := bufsize / privdata.blockSize + startBlock
    let endBlock := if privdata.indirectBlockEntries ≤ endBlock then privdata.indirectBlockEntries else endBlock
    let count := endBlock.toNat - startBlock.toNat
    let mem := readWholeBlocks disk privdata indirectBlocks mem (startBuf + read) startBlock.toNat count
    let read := read + privdata.blockSize * BitVec.ofNat 32 count
    if endBlock < privdata.indirectBlockEntries ∧ bufsize % privdata.blockSize ≠ 0#32 then
      if heap.grants request then
        let lastBlock := readFSBlock disk privdata (indirectBlocks endBlock.toNat) (heap.holds request)
        ⟨read + bufsize % privdata.blockSize,
          copyIn mem (startBuf + read) lastBlock (bufsize % privdata.blockSize).toNat, request + 1⟩
      else ⟨noMemory, mem, request + 1⟩
    else ⟨read, mem, request⟩

/-- `ReadBlocksData`. -/
def readBlocksData (request : Nat) (indirectBlocks : Nat → Word) (pos : Word) (mem : Memory)
    (buffer bufsize : Word) : ReadResult :=
  let startBlock := pos / privdata.blockSize
  let offset := pos % privdata.blockSize
  if (offset ≠ 0#32 ∨ offset = 0#32 ∧ bufsize < privdata.blockSize) ∧ startBlock < privdata.indirectBlockEntries then
    if heap.grants request then
      let firstBlock := readFSBlock disk privdata (indirectBlocks startBlock.toNat) (heap.holds request)
      let length := if bufsize < privdata.blockSize - offset then bufsize else privdata.blockSize - offset
      let mem := copyIn mem buffer (fun i => firstBlock (offset.toNat + i)) length.toNat
      readFurtherBlocks disk heap privdata (request + 1) indirectBlocks (startBlock + 1#32) mem buffer length bufsize
    else ⟨noMemory, mem, request + 1⟩
  else readFurtherBlocks disk heap privdata request indirectBlocks startBlock mem buffer 0#32 bufsize

/-- A reader of the blocks an array of block numbers leads to: request, array, position, memory, where to
and how much. -/
abbrev BlockReader := Nat → (Nat → Word) → Word → Memory → Word → Word → Option ReadResult

/-- The loop over the entries of a double or triple indirect block, each of which leads to `area` bytes. There is
no result when the fuel does not suffice. -/
def readIndirectLoop (reader : BlockReader) (area : Word) (blocks : Nat → Word) (startBuf initPos : Word) :
    Nat → Nat → Nat → Word → Memory → Word → Word → Option ReadResult
  | 0, _, _, _, _, _, _ => none
  | fuel + 1, i, request, pos, mem, buffer, bufsize =>
    if pos < initPos + bufsize then
      if heap.grants request then
        let indirectBlocks := readFSBlock disk privdata (blocks i) (heap.holds request)
        (reader (request + 1) (blockNumbers indirectBlocks) (pos % area) mem buffer bufsize).bind fun found =>
          let buffer := buffer + found.result
          readIndirectLoop reader area blocks startBuf initPos fuel (i + 1) found.request (pos + (buffer - startBuf))
            found.mem buffer (bufsize - (buffer - startBuf))
      else some ⟨noMemory, mem, request + 1⟩
    else some ⟨buffer - startBuf, mem, request⟩

/-- `ReadDoubleIndirectBlocksData`. -/
def readDoubleIndirectBlocksData (fuel : Nat) : BlockReader := fun request doubleIndirectBlock pos mem buffer bufsize =>
  readIndirectLoop disk heap privdata
    (fun request indirectBlocks pos mem buffer bufsize =>
      some (readBlocksData disk heap privdata request indirectBlocks pos mem buffer bufsize))
    privdata.indirectBlocksAreaSize doubleIndirectBlock buffer pos fuel
    (pos / (privdata.indirectBlockEntries * privdata.blockSize)).toNat request pos mem buffer bufsize

/-- `ReadTripleIndirectBlocksData`. -/
def readTripleIndirectBlocksData (fuel : Nat) : BlockReader := fun request tripleIndirectBlock pos mem buffer bufsize =>
  readIndirectLoop disk heap privdata (readDoubleIndirectBlocksData disk heap privdata fuel)
    privdata.doubleIndirectBlocksAreaSize tripleIndirectBlock buffer pos fuel
    (pos / (privdata.indirectBlockEntries * privdata.indirectBlockEntries * privdata.blockSize)).toNat
    request pos mem buffer bufsize

/-- `pos + result - area`, as it is passed to a reader. -/
def areaPos (pos : BitVec 64) (result area : Word) : Word :=
  (pos + result.signExtend 64 - area.setWidth 64).setWidth 32

/-- The triple indirect blocks, which come last. -/
def readTripleArea (fuel : Nat) (inode : Ext2Inode) (pos : BitVec 64) (buffer bufsize : Word) (read : ReadResult) :
    Option ReadResult :=
  if heap.grants read.request then
    let tripleIndirectBlock := readFSBlock disk privdata (inode.iBlock ext2TindBlock) (heap.holds read.request)
    (readTripleIndirectBlocksData disk heap privdata fuel (read.request + 1) (blockNumbers tripleIndirectBlock)
      (areaPos pos read.result privdata.dirIndirDIndirBlocksAreaSize) read.mem (buffer + read.result)
      (bufsize - read.result)).map fun found => ⟨read.result + found.result, found.mem, found.request⟩
  else some ⟨noMemory, read.mem, read.request + 1⟩

/-- The double indirect blocks, and what comes behind them. -/
def readDoubleArea (fuel : Nat) (inode : Ext2Inode) (pos : BitVec 64) (buffer bufsize : Word) (read : ReadResult) :
    Option ReadResult :=
  let endOfArea := privdata.dirIndirDIndirBlocksAreaSize.setWidth 64
  if pos < endOfArea then
    if heap.grants read.request then
      let doubleIndirectBlock := readFSBlock disk privdata (inode.iBlock ext2DindBlock) (heap.holds read.request)
      let count := if bufsize.setWidth 64 + pos < endOfArea then bufsize - read.result
        else (endOfArea - pos).setWidth 32
      (readDoubleIndirectBlocksData disk heap privdata fuel (read.request + 1) (blockNumbers doubleIndirectBlock)
        (areaPos pos read.result privdata.directIndirectBlocksAreaSize) read.mem (buffer + read.result) count).bind
        fun found =>
          let read : ReadResult := ⟨read.result + found.result, found.mem, found.request⟩
          if pos + bufsize.setWidth 64 < endOfArea then some read
          else readTripleArea disk heap privdata fuel inode pos buffer bufsize read
    else some ⟨noMemory, read.mem, read.request + 1⟩
  else readTripleArea disk heap privdata fuel inode pos buffer bufsize read

/-- The indirect blocks, and what comes behind them. -/
def readIndirectArea (fuel : Nat) (inode : Ext2Inode) (pos : BitVec 64) (buffer bufsize : Word) (read : ReadResult) :
    Option ReadResult :=
  let endOfArea := privdata.directIndirectBlocksAreaSize.setWidth 64
  if pos < endOfArea then
    if heap.grants read.request then
      let indirectBlocks := readFSBlock disk privdata (inode.iBlock ext2IndBlock) (heap.holds read.request)
      let count := if bufsize - read.result < privdata.directIndirectBlocksAreaSize then bufsize - read.result
        else privdata.indirectBlocksAreaSize
      let found := readBlocksData disk heap privdata (read.request + 1) (blockNumbers indirectBlocks)
        (areaPos pos read.result privdata.directBlocksAreaSize) read.mem (buffer + read.result) count
      let read : ReadResult := ⟨read.result + found.result, found.mem, found.request⟩
      if pos + bufsize.setWidth 64 < endOfArea then some read
      else readDoubleArea disk heap privdata fuel inode pos buffer bufsize read
    else some ⟨noMemory, read.mem, read.request + 1⟩
  else readDoubleArea disk heap privdata fuel inode pos buffer bufsize read

/-- The direct blocks, and what comes behind them. -/
def readDirectArea (fuel : Nat) (inode : Ext2Inode) (request : Nat) (pos : BitVec 64) (mem : Memory)
    (buffer bufsize : Word) : Option ReadResult :=
  let endOfArea := privdata.directBlocksAreaSize.setWidth 64
  if pos < endOfArea then
    let count := if bufsize.setWidth 64 + pos < endOfArea then bufsize else (endOfArea - pos).setWidth 32
    let read := readBlocksData disk heap privdata request inode.iBlock (pos.setWidth 32) mem buffer count
    if pos + bufsize.setWidth 64 < endOfArea then some read
    else readIndirectArea disk heap privdata fuel inode pos buffer bufsize read
  else readIndirectArea disk heap privdata fuel inode pos buffer bufsize ⟨0#32, mem, request⟩

/-- `ReadData`. There is no result where bytes behind the inode are read, or the fuel does not suffice. -/
def readData (fuel : Nat) (inode : Ext2Inode) (request : Nat) (pos : BitVec 64) (mem : Memory) (buffer bufsize : Word) :
    Option ReadResult :=
  let size := inode.iSize.setWidth 64
  if size ≤ pos then some ⟨0#32, mem, request⟩
  else
    let bufsize := if size < bufsize.setWidth 64 + pos then (size - pos).setWidth 32 else bufsize
    if 0#32 < inode.iSize ∧ inode.iBlocks = 0#32 then
      if 40 + pos.toNat + bufsize.toNat ≤ inodeBytes then
        some ⟨bufsize, copyIn mem buffer (fun i => inode.bytes (40 + pos.toNat + i)) bufsize.toNat, request⟩
      else none
    else readDirectArea disk heap privdata fuel inode request pos mem buffer bufsize

end Reading
end Ext2
end FluxOS
