import FluxOS.DirectoryEntries
import FluxOS.NetUtils
import FluxOS.TmpFS
import FluxOS.UserStrings

/-! `Ext2::Unlink` and `Ext2::Rename`: a record of a directory is removed or given another name, in the first block
of the directory. -/
namespace FluxOS
open Words UserMemoryOps BlockDevice NetUtils

def erofs : Nat := 30

namespace Ext2Inode

def iLinksCount (inode : Ext2Inode) : BitVec 16 := le16 inode.bytes 26

/-- `inode->i_links_count--`. -/
def unlinked (inode : Ext2Inode) : Ext2Inode := fun i => store16 inode.bytes 26 (inode.iLinksCount - 1#16) i

end Ext2Inode

/-- A `VNode` of an ext2 file system, as it is used here: `privdata` is its inode. -/
structure Ext2Node where
  refCount : Word
  privdata : Option Ext2Inode
  dirty : Bool

/-- The device, and the nodes there are, by the numbers of their inodes. -/
structure Ext2State where
  disk : Disk
  nodes : Word → Option Ext2Node

namespace Ext2

/-- `EXT2_FT_DIR`. -/
def ext2FtDir : Nat := 2

def setNode (state : Ext2State) (id : Word) (node : Option Ext2Node) : Ext2State :=
  { state with nodes := Function.update state.nodes id node }

/-- `dirEntry->rec_len += ...` of the record at an offset. -/
def growRecord (block : Block) (offset bytes : Nat) : Block :=
  store16 block (offset + 4) (le16 block (offset + 4) + BitVec.ofNat 16 bytes)

/-- `memcpy(dirEntry->name, newName, newNameLen); dirEntry->name_len = newNameLen`. -/
def renameRecord (block : Block) (offset : Nat) (newName : Block) (newNameLen : Nat) : Block :=
  store8 (fun i => if offset + 8 ≤ i ∧ i < offset + 8 + newNameLen then newName (i - (offset + 8)) else block i)
    (offset + 6) (BitVec.ofNat 8 newNameLen)

section Updates

variable (heap : DirtyHeap) (privdata : Ext2Privdata)

/-- `CloseVNode`: the inode of a node that was changed is written to the device. -/
def closeVNode (state : Ext2State) (request : Nat) (id : Word) (node : Ext2Node) : Option Ext2State :=
  match node.privdata with
  | some inode =>
    if node.dirty then
      (writeINode state.disk heap privdata request id inode).map fun disk => { state with disk := disk }
    else some state
  | none => some state

/-- `PutVnode`: a node that nobody uses any more is closed. -/
def putVnode (state : Ext2State) (request : Nat) (id : Word) (node : Ext2Node) : Option Ext2State :=
  let node := { node with refCount := node.refCount - 1#32 }
  if node.refCount = 0#32 then
    (closeVNode heap privdata state request id node).map fun state => setNode state id none
  else some (setNode state id (some node))

/-- `iNodeNumberToVNode`: the node with its inode, or the error. -/
def iNodeNumberToVNode (state : Ext2State) (request : Nat) (id : Word) :
    Option (Except Int (Ext2Node × Ext2Inode) × Ext2State) :=
  let node := (state.nodes id).getD ⟨0#32, none, false⟩
  let node := { node with refCount := node.refCount + 1#32 }
  match node.privdata with
  | some inode => some (.ok (node, inode), setNode state id (some node))
  | none => (readInode state.disk heap privdata request id).map fun
    | none => (.error (-enomem), setNode state id (some node))
    | some inode =>
      let node := { node with privdata := some inode }
      (.ok (node, inode), setNode state id (some node))

/-- The end of `Unlink`, when the record has been removed. Reading an inode makes three requests for memory. -/
def unlinkInode (state : Ext2State) (request : Nat) (id : Word) : Option (Int × Ext2State) :=
  (iNodeNumberToVNode heap privdata state request id).bind fun
  | (.error res, state) => some (res, state)
  | (.ok (node, inode), state) =>
    (putVnode heap privdata state (request + 3) id { node with privdata := some inode.unlinked, dirty := true }).map
      fun state => (0, state)

variable (fuel : Nat) (inode : Ext2Inode) (name : Block) (request next : Nat)

/-- The block buffer with the first block of the directory, and the next request for memory. There is no result where
there is no memory for it: the null pointer is read into. -/
def firstBlockBuffer (disk : Disk) : Option (Block × Nat) :=
  if heap.grants next then
    (readData disk heap privdata fuel inode (next + 1) 0#64 (fun address => heap.holds next address.toNat) 0#32
      privdata.blockSize).map fun read => (fun i => read.mem (BitVec.ofNat 32 i), read.request)
  else none

/-- The device with the buffer in the first block of the directory. -/
def writeFirstBlock (disk : Disk) (block : Block) : Disk :=
  writeBlock disk (inode.iBlock 0 <<< privdata.diskBlockLog) privdata.diskBlocksPerFSBlock block

/-- `Unlink` in the directory with the inode; `request` and `next` are the numbers of the requests for memory of the
search, and behind it. -/
def unlink (state : Ext2State) : Option (Int × Ext2State) :=
  (findDirectoryEntry state.disk heap privdata fuel inode name request).bind fun search =>
    match search.result with
    | .error res => some (res, state)
    | .ok found =>
      (firstBlockBuffer heap privdata fuel inode next state.disk).bind fun (block, request) =>
        let dirEntry := found.prevRecordOffset
        if fileType block dirEntry = ext2FtDir then some (-eisdir, state)
        else
          let block := growRecord block dirEntry (found.nextRecordOffset - found.recordOffset)
          let disk := writeFirstBlock privdata inode state.disk block
          unlinkInode heap privdata { state with disk := disk } request found.inodeNumber

/-- `Rename` from the directory with the inode, to itself or to another. There is no result where `newName` is too long
for its length to be an `int`, or for the memory. -/
def rename (newName : Block) (sameDirectory : Bool) (disk : Disk) : Option (Int × Disk) :=
  (findDirectoryEntry disk heap privdata fuel inode name request).bind fun search =>
    match search.result with
    | .error res => some (res, disk)
    | .ok found =>
      (firstBlockBuffer heap privdata fuel inode next disk).bind fun (block, _) =>
        (strlen (fun address => newName address.toNat) 0#32).bind fun length =>
          if 2 ^ 31 ≤ length + 8 then none
          else if length + 8 ≤ recLen block found.recordOffset ∧ sameDirectory = true then
            some (0, writeFirstBlock privdata inode disk (renameRecord block found.recordOffset newName length))
          else some (-erofs, disk)

end Updates
end Ext2
end FluxOS
