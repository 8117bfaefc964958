import FluxOS.BuddyAllocator
import FluxOS.PagingManager

/-! A process's memory descriptors and the allocator of its address space, as
`MemoryContext` handles them. A descriptor is known by its value: where the
source holds a pointer, it is to the first descriptor of the list with that value. -/
namespace FluxOS
open Words

/-- A vnode, by its identity. -/
abbrev VNode := Nat

structure Permissions where
  readPermission : Bool
  writePermission : Bool
  executePermission : Bool
  deriving DecidableEq, Repr

/-- The kind of a descriptor, with what its class adds. -/
inductive DescriptorKind where
  | anonymousMemory
  | memoryMappedFile (node : VNode) (offset : Word)
  | delayedLoadFile (node : VNode) (fileOffset pageOffset fileLen : Word)
  deriving DecidableEq, Repr

structure MemoryDescriptor where
  baseAddress : Word
  length : Word
  permissions : Permissions
  kind : DescriptorKind
  deriving DecidableEq, Repr

inductive MemoryAllocationHints where
  | noHints
  | fixedHint
  deriving DecidableEq, Repr

structure MemoryContext where
  descriptors : List MemoryDescriptor
  vmemAlloc : BuddyAllocator

def roundToPageMultiples (l : Word) : Word :=
  (l &&& 0xFFFFF000#32) + if l &&& 0xFFF#32 ≠ 0#32 then 0x1000#32 else 0#32

/-- An errno as a system call returns it. -/
def errorCode (errno : Nat) : Word := -BitVec.ofNat 32 errno

def enoent : Nat := 2
def enomem : Nat := 12

namespace MemoryDescriptor

/-- The first address past the descriptor, in 32 bits. -/
def endAddress (d : MemoryDescriptor) : Word := d.baseAddress + roundToPageMultiples d.length

/-- The test of `findMemoryDescriptor`. -/
def contains (d : MemoryDescriptor) (address : Word) : Bool :=
  decide (d.baseAddress ≤ address) && decide (address < d.endAddress)

def isMappedFile (d : MemoryDescriptor) : Bool :=
  match d.kind with
  | .memoryMappedFile _ _ => true
  | _ => false

end MemoryDescriptor

namespace MemoryContext
open MemoryDescriptor PagingManager

def userVirtualMemSize : Word := userspaceHiAddr - userspaceLowAddr

/-- The constructor. -/
def new : MemoryContext where
  descriptors := []
  vmemAlloc := BuddyAllocator.init (userVirtualMemSize >>> 12).toInt

/-- `allocVirtualMemory(size)`: a page range of the allocator's choice. The
allocator's -1 becomes an address like any other page index. -/
def allocVirtualMemory (ctx : MemoryContext) (size : Word) : Option (MemoryContext × Word) :=
  (ctx.vmemAlloc.allocateBlocks (size >>> 12).toInt).map fun (vmemAlloc, pageIndex) =>
    ({ ctx with vmemAlloc := vmemAlloc }, (BitVec.ofInt 32 pageIndex <<< 12) + userspaceLowAddr)

/-- `allocVirtualMemory(address, size)`. The allocator's answer is dropped. -/
def allocVirtualMemoryAt (fuel : Nat) (ctx : MemoryContext) (address size : Word) : Option MemoryContext :=
  let relativeAddress := address - userspaceLowAddr
  (ctx.vmemAlloc.allocateBlocksAt fuel (relativeAddress >>> 12).toInt (size >>> 12).toInt).map
    fun (vmemAlloc, _) => { ctx with vmemAlloc := vmemAlloc }

/-- `freeVirtualMemory`. The block number it passes on is a byte address. -/
def freeVirtualMemory (ctx : MemoryContext) (address size : Word) : Option MemoryContext :=
  let relativeAddress := address - userspaceLowAddr
  (ctx.vmemAlloc.freeBlocks relativeAddress.toInt (size >>> 12).toInt).map
    fun vmemAlloc => { ctx with vmemAlloc := vmemAlloc }

def findMemoryDescriptor (ctx : MemoryContext) (address : Word) : Option MemoryDescriptor :=
  ctx.descriptors.find? fun d => d.contains address

/-- The test of `findMemoryDescriptorsByRange`: only the end of the descriptor
is looked at. -/
def endsInRange (low hi : Word) (d : MemoryDescriptor) : Bool :=
  decide (low < d.endAddress) && decide (d.endAddress ≤ hi)

def findMemoryDescriptorsByRange (ctx : MemoryContext) (low hi : Word) : List MemoryDescriptor :=
  ctx.descriptors.filter (endsInRange low hi)

def countDescriptorsByRange (ctx : MemoryContext) (low hi : Word) : Nat :=
  ctx.descriptors.countP fun d => decide (low ≤ d.endAddress) && decide (d.endAddress ≤ hi)

def insertMemoryDescriptor (ctx : MemoryContext) (descriptor : MemoryDescriptor) : MemoryContext :=
  { ctx with descriptors := ctx.descriptors ++ [descriptor] }

/-- `findEmptyMemoryExtent`. The address is NULL where it refuses. -/
def findEmptyMemoryExtent (fuel : Nat) (ctx : MemoryContext) (baseAddress length : Word)
    (hints : MemoryAllocationHints) : Option (MemoryContext × Word) :=
  if baseAddress ≠ 0#32 then
    let descriptors := ctx.findMemoryDescriptorsByRange baseAddress (baseAddress + length)
    if ¬ descriptors.isEmpty ∧ hints = .fixedHint then some (ctx, 0#32)
    else if descriptors.isEmpty then
      (ctx.allocVirtualMemoryAt fuel baseAddress (roundToPageMultiples length)).map fun ctx => (ctx, baseAddress)
    else some (ctx, baseAddress)
  else ctx.allocVirtualMemory (roundToPageMultiples length)

/-- `allocateAnonymousMemory(void **, ...)`: the context, the address the caller
finds in its variable afterwards, and the result. -/
def allocateAnonymousMemoryAnywhere (fuel : Nat) (ctx : MemoryContext) (baseAddress length : Word)
    (permissions : Permissions) (hints : MemoryAllocationHints) : Option (MemoryContext × Word × Word) :=
  (ctx.findEmptyMemoryExtent fuel baseAddress length hints).map fun (ctx, foundBaseAddr) =>
    if foundBaseAddr = 0#32 then (ctx, baseAddress, errorCode enomem)
    else (ctx.insertMemoryDescriptor ⟨foundBaseAddr, length, permissions, .anonymousMemory⟩, foundBaseAddr, 0#32)

/-- `mapFileSegmentToMemory`: the context and the address, or -ENOMEM. -/
def mapFileSegmentToMemory (fuel : Nat) (ctx : MemoryContext) (node : VNode)
    (virtualAddress length fileOffset : Word) (permissions : Permissions) : Option (MemoryContext × Word) :=
  (ctx.findEmptyMemoryExtent fuel virtualAddress length .fixedHint).map fun (ctx, foundBaseAddr) =>
    if foundBaseAddr = 0#32 then (ctx, errorCode enomem)
    else (ctx.insertMemoryDescriptor ⟨foundBaseAddr, length, permissions, .memoryMappedFile node fileOffset⟩,
      foundBaseAddr)

/-- `resizeExtent`. Its result is the increment again. -/
def resizeExtent (fuel : Nat) (ctx : MemoryContext) (p : Paging) (desc : MemoryDescriptor) (increment : Word) :
    Option (MemoryContext × Paging) :=
  let endOfDescriptor := roundToPageMultiples (desc.baseAddress + desc.length)
  let resized (ctx : MemoryContext) : MemoryContext := { ctx with
    descriptors := ctx.descriptors.replace desc { desc with length := desc.length + increment } }
  if (0#32).slt increment then
    (ctx.allocVirtualMemoryAt fuel endOfDescriptor (roundToPageMultiples increment)).map
      fun ctx => (resized ctx, p)
  else if increment.slt 0#32 then
    let delta := -increment &&& ~~~0xFFF#32
    match ctx.freeVirtualMemory (endOfDescriptor - delta) delta,
        (removePages p (endOfDescriptor - delta) delta).toOption with
    | some ctx, some p => some (resized ctx, p)
    | _, _ => none
  else some (resized ctx, p)

/-- `releaseDescriptor`. The pages of a mapped file stay mapped. -/
def releaseDescriptor (ctx : MemoryContext) (p : Paging) (descriptor : MemoryDescriptor) :
    Option (MemoryContext × Paging) :=
  let ctx := { ctx with descriptors := ctx.descriptors.erase descriptor }
  if descriptor.isMappedFile then some (ctx, p)
  else (removePages p descriptor.baseAddress (roundToPageMultiples descriptor.length)).toOption.map
    fun p => (ctx, p)

/-- The destructor, which releases the descriptors from the last to the first. -/
def destroy (ctx : MemoryContext) (p : Paging) : Option (MemoryContext × Paging) :=
  ctx.descriptors.reverse.foldlM (fun (ctx, p) d => ctx.releaseDescriptor p d) (ctx, p)

end MemoryContext

end FluxOS
