import FluxOS.PhysicalMM

/-! The ia32 page tables, as `PagingManager` reads and writes them. Directory
and table entries are the words the processor sees. The kernel reaches the table
of directory entry `di` through the recursive entry 1023, so entry 1023 leads
back to the directory itself. -/
namespace FluxOS
open Words

/-- The page tables with one directory loaded: the page bitmap, the contents of
the physical pages in use as tables, and the directory. -/
structure Paging where
  physicalMM : PhysicalMM
  tables : Nat → Nat → Word
  pageDir : Nat → Word

def userspaceLowAddr : Word := 0x08000000#32
def userspaceHiAddr : Word := 0xFFFFEFFF#32
def userspaceLen : Word := 0xF8000000#32 - 4096#32 * 1024#32

theorem toNat_userspaceLowAddr : userspaceLowAddr.toNat = 0x08000000 := rfl

theorem toNat_userspaceHiAddr : userspaceHiAddr.toNat = 0xFFFFEFFF := rfl

namespace PagingManager

def present : Word := 1#32
def write : Word := 2#32
def user : Word := 4#32
def kernelStdPage : Word := present ||| write

/-- `addr >> 22`. -/
def addrToPageDirIndex (addr : Word) : Nat := addr.toNat / 2 ^ 22

/-- `(addr >> 12) & 0x3FF`. -/
def addrToPageTableIndex (addr : Word) : Nat := addr.toNat / 2 ^ 12 % 2 ^ 10

def pageTableEntry (address flags : Word) : Word := address ||| flags

def pageDirectoryEntry (address flags : Word) : Word := address ||| flags

def pageTableEntryPhysicalAddress (entry : Word) : Word := entry &&& 0xFFFFF000#32

/-- What the kernel sees at `(0x3FF << 22) | (di << 12)`. -/
def pageTable (p : Paging) (di : Nat) : Nat → Word :=
  if di = 1023 then p.pageDir else p.tables (page (p.pageDir di))

/-- Writes a whole table through the same window. -/
def setPageTable (p : Paging) (di : Nat) (table : Nat → Word) : Paging :=
  if di = 1023 then { p with pageDir := table }
  else { p with tables := Function.update p.tables (page (p.pageDir di)) table }

def setEntry (p : Paging) (di ti : Nat) (entry : Word) : Paging :=
  setPageTable p di (Function.update (pageTable p di) ti entry)

def setDirEntry (p : Paging) (di : Nat) (entry : Word) : Paging :=
  { p with pageDir := Function.update p.pageDir di entry }

def allocPage (p : Paging) : Paging × Word :=
  ({ p with physicalMM := p.physicalMM.allocPage.1 }, p.physicalMM.allocPage.2)

/-- The first half of `mapPage`: an empty table where there is none. -/
def ensureTable (p : Paging) (di : Nat) : Paging :=
  if has (p.pageDir di) present then p
  else
    let (p, table) := allocPage p
    setPageTable (setDirEntry p di (pageDirectoryEntry table (kernelStdPage ||| user))) di fun _ => 0#32

def mapPage (p : Paging) (physicalAddress virtualAddress flags : Word) : Paging :=
  let di := addrToPageDirIndex virtualAddress
  setEntry (ensureTable p di) di (addrToPageTableIndex virtualAddress)
    (pageTableEntry physicalAddress (present ||| user ||| flags))

def newPage (p : Paging) (addr flags : Word) : Paging :=
  let (p, physicalAddress) := allocPage p
  mapPage p physicalAddress addr (present ||| user ||| flags)

/-- What `changeRegionFlags` makes of one entry. -/
def changeFlags (setBits resetBits conditionMask entry : Word) : Word :=
  if has entry conditionMask then entry &&& ~~~resetBits ||| setBits else entry

/-- One round of the outer loop of `changeRegionFlags`. -/
def changeTableFlags (virtAddr len setBits resetBits conditionMask : Word) (updatePageDirectory : Bool)
    (p : Paging) (i : Nat) : Paging :=
  let tmpDirEntry := p.pageDir i
  let p := if updatePageDirectory then setDirEntry p i (changeFlags setBits resetBits conditionMask tmpDirEntry)
    else p
  if has tmpDirEntry present then
    let startIndex := if i = addrToPageDirIndex virtAddr then addrToPageTableIndex virtAddr else 0
    let endIndex := if i = addrToPageDirIndex (virtAddr + len) then addrToPageTableIndex (virtAddr + len - 1)
      else 1024
    setPageTable p i fun j =>
      if startIndex ≤ j ∧ j < endIndex then changeFlags setBits resetBits conditionMask (pageTable p i j)
      else pageTable p i j
  else p

/-- `changeRegionFlags`. The last directory entry of the region is left out. -/
def changeRegionFlags (p : Paging) (virtAddr len setBits resetBits conditionMask : Word)
    (updatePageDirectory : Bool) : Paging :=
  let first := addrToPageDirIndex virtAddr
  (List.range' first (addrToPageDirIndex (virtAddr + len - 1) - first)).foldl
    (changeTableFlags virtAddr len setBits resetBits conditionMask updatePageDirectory) p

/-- `clonePageDir`, with `newPD` the physical address of the new directory. -/
def clonePageDir (p : Paging) (newPD : Word) : Nat → Word :=
  Function.update p.pageDir 1023 (pageDirectoryEntry newPD kernelStdPage)

/-- The page that `allocTemporaryWriteablePage` allocates, by its physical
address. Its mapping in the kernel heap is gone again when the copy is done. -/
def allocTemporaryWriteablePage (p : Paging) : Paging × Word :=
  let (p, physicalAddress) := allocPage p
  (p, pageTableEntryPhysicalAddress physicalAddress)

/-- The part of `makeWriteablePageCopy` that copies a read-only page table. -/
def copyTable (p : Paging) (di : Nat) : Paging :=
  if has (p.pageDir di) write then p
  else
    let table := pageTable p di
    let (p, newPageDir) := allocTemporaryWriteablePage p
    setPageTable (setDirEntry p di (pageDirectoryEntry newPageDir (kernelStdPage ||| user ||| write))) di table

/-- The part of `makeWriteablePageCopy` that copies a read-only page. -/
def copyPage (p : Paging) (di ti : Nat) : Paging :=
  if has (pageTable p di ti) write then p
  else
    let (p, newWrPage) := allocTemporaryWriteablePage p
    setEntry p di ti (pageTableEntry newWrPage (kernelStdPage ||| user ||| write))

def makeWriteablePageCopy (p : Paging) (sourceAddress : Word) : Paging :=
  let di := addrToPageDirIndex sourceAddress
  let ti := addrToPageTableIndex sourceAddress
  let p := copyPage (copyTable p di) di ti
  let p := setDirEntry p di (p.pageDir di ||| user)
  setEntry p di ti (pageTable p di ti ||| user)

/-- What keeps `removePages` from returning: the page table at hand is missing
and reading it faults, a page is freed that is free already and the kernel
panics, or the address wraps around and the loop never ends. -/
inductive RemovalFailure where
  | missingTable
  | doubleFree
  | endless
  deriving DecidableEq, Repr

/-- One round of the loop of `removePages`. -/
def removePage (p : Paging) (address : Word) : Except RemovalFailure Paging :=
  let di := addrToPageDirIndex address
  let ti := addrToPageTableIndex address
  if has (p.pageDir di) present then
    let physicalAddress := pageTableEntryPhysicalAddress (pageTable p di ti)
    let p := setEntry p di ti 0#32
    if physicalAddress = 0#32 then .ok p
    else
      match p.physicalMM.freePage physicalAddress with
      | some physicalMM => .ok { p with physicalMM := physicalMM }
      | none => .error .doubleFree
  else .error .missingTable

/-- The loop of `removePages`. After `2 ^ 20` rounds the address is where it began. -/
def removePagesFrom : Nat → Paging → Word → Word → Except RemovalFailure Paging
  | 0, _, _, _ => .error .endless
  | rounds + 1, p, address, endAddress =>
    if address < endAddress then
      match removePage p address with
      | .ok p => removePagesFrom rounds p (address + 4096#32) endAddress
      | .error failure => .error failure
    else .ok p

def removePages (p : Paging) (addr len : Word) : Except RemovalFailure Paging :=
  removePagesFrom (2 ^ 20 + 1) p addr (addr + len)

end PagingManager

end FluxOS
