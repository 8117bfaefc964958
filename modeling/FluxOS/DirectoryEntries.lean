import FluxOS.Ext2Read

/-! `Ext2::findDirectoryEntry`: the records of a directory are gone through, block by block. -/
namespace FluxOS
open Words UserMemoryOps BlockDevice

def eio : Nat := 5

/-- What is stored about a record that has been found, and where in the block buffer it is. -/
structure FoundEntry where
  inodeNumber : Word
  recordOffset : Nat
  prevRecordOffset : Nat
  nextRecordOffset : Nat
  dirEntry : Nat

/-- What a search returns, the block buffer at its end, and from where and how much of it has been read. -/
structure DirectorySearch where
  result : Except Int FoundEntry
  block : Block
  reads : List (Nat × Nat)

namespace Ext2

/-! ## The fields of an `ext2_dir_entry_2` at an offset -/

def entryInode (block : Block) (offset : Nat) : Word := le32 block offset

def recLen (block : Block) (offset : Nat) : Nat := (le16 block (offset + 4)).toNat

def nameLen (block : Block) (offset : Nat) : Nat := (block (offset + 6)).toNat

def fileType (block : Block) (offset : Nat) : Nat := (block (offset + 7)).toNat

def nameBytes (block : Block) (offset : Nat) : Block := fun i => block (offset + 8 + i)

/-- `EXT2_FT_SYMLINK`. -/
def ext2FtSymlink : Nat := 7

/-- `strncmp`: whether it returns 0. -/
def strncmp (str1 str2 : Block) : Nat → Bool
  | 0 => true
  | n + 1 =>
    if str1 0 ≠ str2 0 then false
    else if str1 0 = 0#8 then true
    else strncmp (fun i => str1 (i + 1)) (fun i => str2 (i + 1)) n

/-- The record is refused as corrupted. -/
def Corrupted (blockSize : Nat) (block : Block) (offset : Nat) : Prop :=
  offset % 4 ≠ 0 ∨ recLen block offset < nameLen block offset + 8 ∨ blockSize < offset + recLen block offset ∨
    nameLen block offset = 0 ∨ ext2FtSymlink < fileType block offset

instance (blockSize : Nat) (block : Block) (offset : Nat) : Decidable (Corrupted blockSize block offset) :=
  inferInstanceAs (Decidable (_ ∨ _))

/-- The record is taken for the one with the name. -/
def Matches (name block : Block) (offset : Nat) : Prop :=
  strncmp name (nameBytes block offset) (nameLen block offset) = true ∧ name (nameLen block offset) = 0#8

instance (name block : Block) (offset : Nat) : Decidable (Matches name block offset) :=
  inferInstanceAs (Decidable (_ ∧ _))

/-- `dirEntry` by its distance from the block, and the counters. -/
structure EntryCursor where
  dirEntry : Nat
  scannedBlockBytes : Nat
  prevRecordOff : Nat
  currRecordOff : Nat

def EntryCursor.first : EntryCursor := ⟨0, 0, 0, 0⟩

/-- The cursor behind its record. -/
def EntryCursor.next (cursor : EntryCursor) (block : Block) : EntryCursor where
  dirEntry := cursor.dirEntry + recLen block cursor.dirEntry
  scannedBlockBytes := cursor.scannedBlockBytes + recLen block cursor.dirEntry
  prevRecordOff := cursor.currRecordOff
  currRecordOff := cursor.currRecordOff + recLen block cursor.dirEntry

/-- The search returns inside a block, or the cursor is behind it. -/
inductive BlockScan where
  | returned (result : Except Int FoundEntry)
  | passed (cursor : EntryCursor)

/-- The inner loop. Of a record that is not aligned nothing is read. -/
def scanBlock (blockSize : Nat) (availBytes : Word) (name block : Block) :
    Nat → EntryCursor → List (Nat × Nat) → Option (BlockScan × List (Nat × Nat))
  | 0, _, _ => none
  | fuel + 1, cursor, reads =>
    let offset := cursor.dirEntry
    if Corrupted blockSize block offset then
      some (.returned (.error (-eio)), if offset % 4 ≠ 0 then reads else reads ++ [(offset + 4, 4)])
    else
      let reads := reads ++ [(offset + 4, 4), (offset + 8, nameLen block offset)]
      if Matches name block offset then
        some (.returned (.ok ⟨entryInode block offset, cursor.currRecordOff, cursor.prevRecordOff,
          cursor.currRecordOff + recLen block offset, offset⟩), reads ++ [(offset, 4)])
      else
        let cursor := cursor.next block
        if cursor.scannedBlockBytes < availBytes.toNat then scanBlock blockSize availBytes name block fuel cursor reads
        else some (.passed cursor, reads)

section Search

variable (disk : Disk) (heap : DirtyHeap) (privdata : Ext2Privdata) (fuel : Nat) (inode : Ext2Inode) (name : Block)

/-- The outer loop: the cursor goes on where it is, only the count of the bytes begins again. -/
def searchBlocks : Nat → Nat → Nat → Memory → EntryCursor → List (Nat × Nat) → Option DirectorySearch
  | 0, _, _, _, _, _ => none
  | rounds + 1, blockIndex, request, mem, cursor, reads =>
    let pos := BitVec.ofNat 32 blockIndex * privdata.diskBlocksPerFSBlock
    (readData disk heap privdata fuel inode request (pos.setWidth 64) mem 0#32 privdata.blockSize).bind fun read =>
      let block : Block := fun i => read.mem (BitVec.ofNat 32 i)
      (scanBlock privdata.blockSize.toNat read.result name block fuel { cursor with scannedBlockBytes := 0 } reads).bind
        fun
        | (.returned result, reads) => some ⟨result, block, reads⟩
        | (.passed cursor, reads) =>
          if BitVec.ofNat 32 blockIndex * privdata.blockSize + BitVec.ofNat 32 cursor.scannedBlockBytes < inode.iSize then
            searchBlocks rounds (blockIndex + 1) read.request read.mem cursor reads
          else some ⟨.error (-enoent), block, reads⟩

/-- `findDirectoryEntry`, with the block buffer at the address 0. There is no result where `ReadData` has none, or
the fuel does not last. -/
def findDirectoryEntry (request : Nat) : Option DirectorySearch :=
  if VFS.sIsdir (inode.iMode.setWidth 32) = false then some ⟨.error (-enotdir), fun _ => 0#8, []⟩
  else if heap.grants request = false then some ⟨.error (-enomem), fun _ => 0#8, []⟩
  else searchBlocks disk heap privdata fuel inode name fuel 0 (request + 1)
    (fun address => heap.holds request address.toNat) .first []

end Search

/-! ## Directories -/

/-- The name of a record. -/
def entryName (block : Block) (offset : Nat) : List Byte :=
  (List.range (nameLen block offset)).map (nameBytes block offset)

/-- A record as the format has it, in a block of which so many bytes belong to the directory. -/
structure WellFormedEntry (size : Nat) (block : Block) (offset : Nat) : Prop where
  aligned : offset % 4 = 0
  long : nameLen block offset + 8 ≤ recLen block offset
  inside : offset + recLen block offset ≤ size
  named : nameLen block offset ≠ 0
  type : fileType block offset ≤ ext2FtSymlink
  text : 0#8 ∉ entryName block offset

/-- Records at these offsets fill a block up to its end, from the first of them on. -/
inductive Tiled (blockSize : Nat) (block : Block) : Nat → List Nat → Prop
  | nil : Tiled blockSize block blockSize []
  | cons {offset : Nat} {later : List Nat} (before : offset < blockSize)
      (long : nameLen block offset + 8 ≤ recLen block offset) (aligned : recLen block offset % 4 = 0)
      (rest : Tiled blockSize block (offset + recLen block offset) later) : Tiled blockSize block offset (offset :: later)

/-- A memory that begins with a string. -/
structure CString (name : Block) (text : List Byte) : Prop where
  bytes : ∀ i (inside : i < text.length), name i = text[i]
  ends : name text.length = 0#8
  text : 0#8 ∉ text

theorem string_getD {name : List Byte} (proper : 0#8 ∉ name) : CString (fun i => name.getD i 0#8) name :=
  ⟨fun i inside => by simp [inside], by simp, proper⟩

end Ext2
end FluxOS
