import FluxOS.AddressSpace

/-! Page faults on pages that are not there yet, with what is in the pages: each
missing page gets its contents from the descriptor that its address is found in,
when it is first touched. A node that nothing references any more has been freed. -/
namespace FluxOS
open Words

abbrev PageContents := Nat → BitVec 8

/-- What the kernel asks of the file systems: the node at a path, the bytes of a
file, and the page that `mmap` gives for an offset, where it gives one. -/
structure FileSystem where
  lookup : List (BitVec 8) → Option VNode
  content : VNode → List (BitVec 8)
  mmap : VNode → Word → Option PageContents

/-- The pages of an address space that are present, by page number. -/
abbrev Pages := Nat → Option PageContents

inductive MemoryOperation where
  | readOperation
  | writeOperation
  | executeOperation
  deriving DecidableEq, Repr

def Permissions.allow (permissions : Permissions) : MemoryOperation → Bool
  | .readOperation => permissions.readPermission
  | .writeOperation => permissions.writePermission
  | .executeOperation => permissions.executePermission

namespace FileSystem

/-- `read` into a page: the bytes from `position` on, as far as the file goes, to
the `length` bytes at `pageOffset`. -/
def read (fs : FileSystem) (node : VNode) (position : Word) (contents : PageContents) (pageOffset length : Nat) :
    PageContents := fun i =>
  if pageOffset ≤ i ∧ i < pageOffset + length ∧ position.toNat + (i - pageOffset) < (fs.content node).length then
    (fs.content node).getD (position.toNat + (i - pageOffset)) 0#8
  else contents i

end FileSystem

/-- How often each node is referenced. -/
abbrev NodeReferences := VNode → Nat

namespace MemoryDescriptor

/-- The node that a descriptor points to. -/
def node (d : MemoryDescriptor) : Option VNode :=
  match d.kind with
  | .anonymousMemory => none
  | .memoryMappedFile node _ => some node
  | .delayedLoadFile node _ _ _ => some node

/-- It does not point to a node that has been freed. -/
def NodeAlive (d : MemoryDescriptor) (references : NodeReferences) : Prop :=
  ∀ node ∈ d.node, references node ≠ 0

instance (d : MemoryDescriptor) (references : NodeReferences) : Decidable (d.NodeAlive references) :=
  inferInstanceAs (Decidable (∀ node ∈ d.node, _))

end MemoryDescriptor

namespace MemoryContext

/-- A page filled with zeros, as `newPage` leaves it. -/
def zeroPage : PageContents := fun _ => 0#8

/-- The page that the fault at an address of the descriptor brings in. -/
def pageFor (fs : FileSystem) (d : MemoryDescriptor) (faultAddress : Word) : PageContents :=
  match d.kind with
  | .anonymousMemory => zeroPage
  | .memoryMappedFile node offset =>
    let virtualPageAddress := faultAddress &&& 0xFFFFF000#32
    let offset := (virtualPageAddress - d.baseAddress) + offset
    match fs.mmap node offset with
    | some contents => contents
    | none => fs.read node offset zeroPage 0 4096
  | .delayedLoadFile node fileOffset pageOffset fileLen =>
    fs.read node fileOffset zeroPage pageOffset.toNat fileLen.toNat

/-- `handlePageFault` for a page that is missing. There is no result when it ends
in a segmentation fault, or calls the operations of a node that has been freed. -/
def handlePageFault (fs : FileSystem) (references : NodeReferences) (ctx : MemoryContext) (pages : Pages)
    (faultAddress : Word) (op : MemoryOperation) : Option Pages :=
  match ctx.findMemoryDescriptor faultAddress with
  | none => none
  | some mDesc =>
    if mDesc.permissions.allow op ∧ mDesc.NodeAlive references then
      some (Function.update pages (page faultAddress) (some (pageFor fs mDesc faultAddress)))
    else none

/-- One access: it faults when its page is not there. -/
def access (fs : FileSystem) (references : NodeReferences) (ctx : MemoryContext) (pages : Pages)
    (a : MemoryOperation × Word) : Option Pages :=
  if (pages (page a.2)).isSome then some pages else ctx.handlePageFault fs references pages a.2 a.1

end MemoryContext

end FluxOS
