import FluxOS.BlockDevice
import FluxOS.VFS

/-! `Ext2`: mounting, and the inodes in the tables of the block groups. -/
namespace FluxOS
open Words UserMemoryOps BlockDevice

/-- The kernel heap, by the number of the request: which requests are granted, and what the granted
block, and the memory behind it, holds before. -/
structure DirtyHeap where
  grants : Nat → Bool
  holds : Nat → Block

/-- The fields of `ext2_super_block` that are looked at. -/
structure Ext2SuperBlock where
  sLogBlockSize : Word
  sInodesPerGroup : Word
  sMagic : BitVec 16
  sInodeSize : BitVec 16
  deriving DecidableEq, Repr

/-- An `ext2_inode`, as the 128 bytes it is. -/
abbrev Ext2Inode := Fin 128 → Byte

namespace Ext2Inode

/-- The memory that begins with the inode; nobody reads behind it. -/
def bytes (inode : Ext2Inode) : Block := fun i => if bound : i < 128 then inode ⟨i, bound⟩ else 0#8

def iMode (inode : Ext2Inode) : BitVec 16 := le16 inode.bytes 0

def iSize (inode : Ext2Inode) : Word := le32 inode.bytes 4

def iBlocks (inode : Ext2Inode) : Word := le32 inode.bytes 28

/-- The entries of `i_block`. -/
def iBlock (inode : Ext2Inode) (i : Nat) : Word := le32 inode.bytes (40 + 4 * i)

end Ext2Inode

/-- `ext2_privdata`. -/
structure Ext2Privdata where
  sblock : Ext2SuperBlock
  blockSize : Word
  diskBlockLog : Word
  indirectBlockEntries : Word
  diskBlocksPerFSBlock : Word
  directBlocksAreaSize : Word
  indirectBlocksAreaSize : Word
  doubleIndirectBlocksAreaSize : Word
  directIndirectBlocksAreaSize : Word
  dirIndirDIndirBlocksAreaSize : Word

namespace Ext2

def ext2Magic : BitVec 16 := 0xEF53#16
def ext2NdirBlocks : Word := 12#32
def ext2IndBlock : Nat := 12
def ext2DindBlock : Nat := 13
def ext2TindBlock : Nat := 14

/-- `sizeof(ext2_inode)`. -/
def inodeBytes : Nat := 128

/-- `sizeof(ext2_group_desc)`, and where `bg_inode_table` is in it. -/
def groupDescBytes : Nat := 32
def bgInodeTable : Nat := 8

def readSuperBlock (block : Block) : Ext2SuperBlock where
  sLogBlockSize := le32 block 24
  sInodesPerGroup := le32 block 40
  sMagic := le16 block 56
  sInodeSize := le16 block 88

/-- What `Mount` computes from the superblock. -/
def privdataOf (sblock : Ext2SuperBlock) : Ext2Privdata :=
  let blockSize := 1024#32 <<< sblock.sLogBlockSize
  let indirectBlockEntries := blockSize / 4#32
  let directBlocksAreaSize := blockSize * ext2NdirBlocks
  let indirectBlocksAreaSize := blockSize * indirectBlockEntries
  let directIndirectBlocksAreaSize := directBlocksAreaSize + indirectBlocksAreaSize
  { sblock := sblock
    blockSize := blockSize
    diskBlockLog := sblock.sLogBlockSize + 1#32
    indirectBlockEntries := indirectBlockEntries
    diskBlocksPerFSBlock := blockSize / 512#32
    directBlocksAreaSize := directBlocksAreaSize
    indirectBlocksAreaSize := indirectBlocksAreaSize
    doubleIndirectBlocksAreaSize := indirectBlocksAreaSize * indirectBlockEntries
    directIndirectBlocksAreaSize := directIndirectBlocksAreaSize
    dirIndirDIndirBlocksAreaSize :=
      directIndirectBlocksAreaSize + blockSize * indirectBlockEntries * indirectBlockEntries }

section Inodes

variable (disk : Disk) (heap : DirtyHeap) (privdata : Ext2Privdata)

/-- `inodeIndex` and `inodeGroup`. -/
def inodeIndex (id : Word) : Word := (id - 1#32) % privdata.sblock.sInodesPerGroup

def inodeGroup (id : Word) : Word := (id - 1#32) / privdata.sblock.sInodesPerGroup

/-- `s_inodes_per_group * s_inode_size`. -/
def tableBytes : Word := privdata.sblock.sInodesPerGroup * privdata.sblock.sInodeSize.setWidth 32

/-- The first sector of the inode table of a group: its descriptor is read from the sector 4. -/
def tableSector (request : Nat) (group : Word) : Word :=
  let groupTmpBlkBuff := readBlock disk 4#32 1#32 (heap.holds request)
  le32 groupTmpBlkBuff (groupDescBytes * group.toNat + bgInodeTable) * privdata.diskBlocksPerFSBlock

/-- The memory into which the inode table of that sector is read. -/
def inodeTable (request : Nat) (sector : Word) : Block :=
  readBlock disk sector (tableBytes privdata / 512#32) (heap.holds request)

/-- `readInode`: a null pointer without memory for the descriptors; no result where memory for
the table or the inode is missing and a null pointer is used. -/
def readInode (request : Nat) (id : Word) : Option (Option Ext2Inode) :=
  if heap.grants request then
    if heap.grants (request + 1) ∧ heap.grants (request + 2) then
      let sector := tableSector disk heap privdata request (inodeGroup privdata id)
      let table := inodeTable disk heap privdata (request + 1) sector
      some (some fun i => table (inodeBytes * (inodeIndex privdata id).toNat + i))
    else none
  else some none

/-- `writeINode` of the inode a node has: the device afterwards. Without memory for the descriptors
nothing is written. -/
def writeINode (request : Nat) (id : Word) (inode : Ext2Inode) : Option Disk :=
  if heap.grants request then
    if heap.grants (request + 1) then
      let sector := tableSector disk heap privdata request (inodeGroup privdata id)
      let table := inodeTable disk heap privdata (request + 1) sector
      let position := inodeBytes * (inodeIndex privdata id).toNat
      let table := fun i => if position ≤ i ∧ i < position + inodeBytes then inode.bytes (i - position) else table i
      some (writeBlock disk sector (tableBytes privdata / 512#32) table)
    else none
  else some disk

end Inodes

/-- `Mount`, up to the node of the root: what it keeps of the superblock, and the root's inode; the
error otherwise. There is no result where `readInode` has none. -/
def mount (disk : Disk) (heap : DirtyHeap) (request : Nat) : Option (Except Int (Ext2Privdata × Ext2Inode)) :=
  if heap.grants request then
    let sblock := readSuperBlock (readBlock disk 2#32 1#32 (heap.holds request))
    if sblock.sMagic ≠ ext2Magic then some (.error (-einval))
    else if heap.grants (request + 1) ∧ heap.grants (request + 2) then
      let privdata := privdataOf sblock
      (readInode disk heap privdata (request + 3) 2#32).map fun rootInode =>
        match rootInode with
        | some rootInode => .ok (privdata, rootInode)
        | none => .error (-enomem)
    else some (.error (-enomem))
  else some (.error (-enomem))

end Ext2
end FluxOS
