import FluxOS.Buffers
import FluxOS.QHash
import FluxOS.UserMemoryOps
import FluxOS.VFS

/-! `TmpFS`: inodes in a list, a hash table of names in each of them, and the
contents of a file in one block that is replaced by a larger one. -/
namespace FluxOS
open Words UserMemoryOps

def eisdir : Nat := 21
def enospc : Nat := 28

/-- A `TmpInode`, as far as names and contents go. `fileData`: the block it points to, if any. -/
structure TmpInode where
  mode : BitVec 16
  size : Word
  fileData : Option (List Byte)
  directory : QHash (List Char) Nat

/-- `Inodes` of `TmpFSPrivData`; there is no inode 0. -/
abbrev TmpInodes := List (Option TmpInode)

/-- The heap as `posix_memalign` shows it: which sizes it grants, what a granted block holds,
and whether the unset variable for the block happens to be null. -/
structure PageHeap where
  grants : Nat → Bool
  holds : Nat → Byte
  unsetIsNull : Bool

namespace TmpFS
open VFS Buffers ListWithHoles

/-- `qHash(QString)`: the sum of the characters, which are signed. -/
def qHash (str : List Char) : Word :=
  (str.map fun char => (BitVec.ofNat 8 char.toNat).signExtend 32).foldl (· + ·) 0#32

def isDirectory (inode : TmpInode) : Bool := sIsdir (inode.mode.setWidth 32)

/-- The memory behind `FileData`; there is none behind a null pointer. -/
def contents (inode : TmpInode) : List Byte := inode.fileData.getD []

section Contents

/-- `read`: the result and what the buffer gets. There is no result when it reads outside
`FileData`, as for the calls below. -/
def read (inode : TmpInode) (pos : BitVec 64) (bufsize : Word) : Option (Int × List Byte) :=
  if isDirectory inode then some (-eisdir, [])
  else
    let size := inode.size.setWidth 64
    let bufsize := if size < bufsize.setWidth 64 + pos then (size - pos).setWidth 32 else bufsize
    (slice (contents inode) (pos.setWidth 32).toNat bufsize.toNat).map fun bytes => (bufsize.toInt, bytes)

/-- `truncate`. The old contents are copied with their own size. What `posix_memalign` returns is
not looked at, only whether the variable is null. -/
def truncate (heap : PageHeap) (inode : TmpInode) (length : BitVec 64) : Option (Int × TmpInode) :=
  let size := inode.size.setWidth 64
  let request := (length.setWidth 32).toNat
  if heap.grants request then do
    let tmpPtr := (List.range request).map heap.holds
    let old ← slice (contents inode) 0 inode.size.toNat
    let tmpPtr ← patch tmpPtr 0 old
    let newArea := List.replicate ((length - size).setWidth 32).toNat 0#8
    let tmpPtr ← (if size < length then patch tmpPtr inode.size.toNat newArea else some tmpPtr)
    some (0, { inode with fileData := some tmpPtr, size := length.setWidth 32 })
  else if heap.unsetIsNull then some (-enospc, inode)
  else none

/-- `write`, for a buffer of less than `2 ^ 32` bytes. -/
def write (heap : PageHeap) (inode : TmpInode) (pos : BitVec 64) (buffer : List Byte) : Option (Int × TmpInode) :=
  if isDirectory inode then some (-eisdir, inode)
  else do
    let bufsize := BitVec.ofNat 32 buffer.length
    let stop := bufsize.setWidth 64 + pos
    let (ret, inode) ← (if inode.size.setWidth 64 < stop then truncate heap inode stop else some (0, inode))
    if ret < 0 then some (ret, inode)
    else
      let written ← patch (contents inode) (pos.setWidth 32).toNat buffer
      some (bufsize.toInt, { inode with fileData := inode.fileData.map fun _ => written })

end Contents

section Names

def dot : List Char := ['.']

/-- `QHash<QString, int>()`. -/
def newDirectory : QHash (List Char) Nat := QHash.init QHash.defaultCapacity

def inode (inodes : TmpInodes) (id : Nat) : Option TmpInode := entry inodes id

/-- `inode` of an id is changed through its pointer. -/
def setInode (inodes : TmpInodes) (id : Nat) (change : TmpInode → TmpInode) : TmpInodes :=
  inodes.modify id (Option.map change)

def insertName (name : List Char) (id : Nat) (inode : TmpInode) : TmpInode :=
  { inode with directory := inode.directory.insert qHash name id }

def removeName (name : List Char) (inode : TmpInode) : TmpInode :=
  { inode with directory := inode.directory.remove qHash name }

/-- `Directory.value`: 0 for a name that is not there. -/
def value (inode : TmpInode) (name : List Char) : Nat := (inode.directory.value qHash name).getD 0

/-- `Mount`: the inodes; the root is inode 1. -/
def mount : TmpInodes :=
  let directory := (newDirectory.insert qHash dot 1).insert qHash dotDot 1
  [none, some ⟨sIfdir.setWidth 16, 0#32, none, directory⟩]

/-- `lookup`: the id of the node and its type; nothing when a null inode is used. -/
def lookup (inodes : TmpInodes) (node : Nat) (name : List Char) : Option (Except Int (Nat × Word)) := do
  let directory ← inode inodes node
  if isDirectory directory then
    let inodeIndex := value directory name
    if inodeIndex = 0 then some (.error (-enoent))
    else
      let found ← inode inodes inodeIndex
      some (.ok (inodeIndex, found.mode.setWidth 32))
  else some (.error (-enotdir))

/-- The `creat` that the calls share: the inodes, and the id of the new one, whose `FileData` its
caller sets. -/
def creatInode (inodes : TmpInodes) (directory : Nat) (name : List Char) (mode : Word) : TmpInodes × Nat :=
  let inodes := inodes ++ [some ⟨mode.setWidth 16, 0#32, none, newDirectory⟩]
  let id := inodes.length - 1
  (setInode inodes directory (insertName name id), id)

/-- `creat` of a file; `block` is what `malloc(4)` gives. -/
def creat (inodes : TmpInodes) (directory : Nat) (name : List Char) (mode : Word) (block : Option (List Byte)) :
    TmpInodes × Int :=
  let (inodes, tmpInode) := creatInode inodes directory name (mode ||| sIfreg)
  (setInode inodes tmpInode fun inode => { inode with fileData := block }, 0)

def mkdir (inodes : TmpInodes) (directory : Nat) (newName : List Char) (mode : Word) : TmpInodes × Int :=
  let (inodes, tmpInode) := creatInode inodes directory newName mode
  let names := (newDirectory.insert qHash dot tmpInode).insert qHash dotDot directory
  (setInode inodes tmpInode fun inode => { inode with mode := sIfdir.setWidth 16, directory := names }, 0)

def mknod (inodes : TmpInodes) (directory : Nat) (newName : List Char) (mode : Word) : TmpInodes × Int :=
  ((creatInode inodes directory newName mode).1, 0)

/-- The bytes of a string, with the one that ends it. -/
def stringBytes (string : List Char) : List Byte := (string.map fun char => BitVec.ofNat 8 char.toNat) ++ [0#8]

def symlink (inodes : TmpInodes) (directory : Nat) (oldName newName : List Char) : TmpInodes × Int :=
  let (inodes, tmpInode) := creatInode inodes directory newName 0#32
  let target := stringBytes oldName
  (setInode inodes tmpInode fun inode =>
    { inode with fileData := some target, size := BitVec.ofNat 32 target.length, mode := sIflnk.setWidth 16 }, 0)

def link (inodes : TmpInodes) (directory oldNode : Nat) (newName : List Char) : TmpInodes × Int :=
  (setInode inodes directory (insertName newName oldNode), 0)

def rename (inodes : TmpInodes) (oldDirectory : Nat) (oldName : List Char) (newDirectory : Nat) (newName : List Char) :
    TmpInodes × Int :=
  let inodeId := ((inode inodes oldDirectory).map fun oldInode => value oldInode oldName).getD 0
  let inodes := setInode inodes oldDirectory (removeName oldName)
  (setInode inodes newDirectory (insertName newName inodeId), 0)

/-- Whether `Directory.remove` finds the name. -/
def hasName (inode : TmpInode) (name : List Char) : Bool := (inode.directory.value qHash name).isSome

def unlink (inodes : TmpInodes) (directory : Nat) (name : List Char) : TmpInodes × Int :=
  if ((inode inodes directory).map fun inode => hasName inode name).getD false then
    (setInode inodes directory (removeName name), 0)
  else (inodes, -enoent)

def rmdir (inodes : TmpInodes) (directory : Nat) (name : List Char) : TmpInodes × Int := unlink inodes directory name

/-- What `name` gives. -/
inductive NameAnswer where
  | named (name : List Char)
  | unset
  | refused (error : Int)
  deriving DecidableEq, Repr

/-- `name`: the first name in the table with the id of the node. When there is none, `*name` stays unset. -/
def name (inodes : TmpInodes) (directory node : Nat) : Option NameAnswer := do
  let inode ← inode inodes directory
  if isDirectory inode then
    match inode.directory.nodes.find? (·.2 = node) with
    | some (name, _) => some (.named name)
    | none => some .unset
  else some (.refused (-enotdir))

end Names

end TmpFS
end FluxOS
