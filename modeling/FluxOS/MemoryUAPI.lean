import FluxOS.DescriptorRelease
import FluxOS.Task

/-! The memory calls of a process: `mmap`, `munmap` and `brk`. Each gives the
process afterwards and the word it returns. There is no result where the call
does not return. -/
namespace FluxOS.MemoryUAPI
open Words PagingManager MemoryContext

def protRead : Word := 1#32
def protWrite : Word := 2#32
def protExec : Word := 4#32

def mapShared : Word := 1#32
def mapPrivate : Word := 2#32
def mapFixed : Word := 0x10#32
def mapAnonymous : Word := 0x20#32

def protFlagsToPermissions (prot : Word) : Permissions :=
  ⟨has prot protRead, has prot protWrite, has prot protExec⟩

/-- The process with another memory context. -/
def setContext (process : ProcessControlBlock) (ctx : MemoryContext) : ProcessControlBlock :=
  { process with memoryContext := ctx }

/-- `mmap`. For anonymous memory the error is dropped, and the address asked for
is returned as if it had been mapped. -/
def mmap (fuel : Nat) (process : ProcessControlBlock) (addr length prot flags : Word) (fd : Int) (offset : Word) :
    Option (ProcessControlBlock × Word) :=
  let sharing := flags &&& (mapPrivate ||| mapShared)
  if sharing = mapPrivate ||| mapShared ∨ sharing = 0#32 then some (process, errorCode einval)
  else if length = 0#32 then some (process, errorCode einval)
  else
    let hints := if has flags mapFixed then MemoryAllocationHints.fixedHint else .noHints
    let permissions := protFlagsToPermissions prot
    if has flags mapAnonymous then
      (process.memoryContext.allocateAnonymousMemoryAnywhere fuel addr length permissions hints).map
        fun (ctx, newAddr, _) => (setContext process ctx, newAddr)
    else
      match FSUAPI.descriptor process.openFiles fd with
      | none => some (process, errorCode ebadf)
      | some fdesc =>
        (process.memoryContext.mapFileSegmentToMemory fuel fdesc.node addr length offset permissions).map
          fun (ctx, address) => (setContext process ctx, address)

/-- `munmap`. -/
def munmap (process : ProcessControlBlock) (p : Paging) (addr length : Word) :
    Option (ProcessControlBlock × Paging × Word) :=
  let descriptors := process.memoryContext.findMemoryDescriptorsByRange addr (addr + length)
  (process.memoryContext.releaseAll p descriptors).map fun (ctx, p) => (setContext process ctx, p, 0#32)

/-- `brk`. -/
def brk (fuel : Nat) (process : ProcessControlBlock) (p : Paging) (ptr : Word) :
    Option (ProcessControlBlock × Paging × Word) :=
  if ptr = 0#32 then some (process, p, process.dataSegmentEnd)
  else
    match process.memoryContext.findMemoryDescriptor process.dataSegmentStart with
    | none => some (process, p, 0#32)
    | some dataSegmentDescriptor =>
      if process.dataSegmentEnd < ptr ∧ process.memoryContext.countDescriptorsByRange process.dataSegmentEnd ptr ≠ 0 then
        some (process, p, process.dataSegmentEnd)
      else if ptr < process.dataSegmentEnd ∧ ptr < process.dataSegmentStart then
        some (process, p, process.dataSegmentEnd)
      else if ptr = process.dataSegmentEnd then some (process, p, process.dataSegmentEnd)
      else
        let increment := ptr - process.dataSegmentEnd
        (process.memoryContext.resizeExtent fuel p dataSegmentDescriptor increment).map fun (ctx, p) =>
          ({ setContext process ctx with dataSegmentEnd := process.dataSegmentEnd + increment }, p,
            process.dataSegmentEnd + increment)

end FluxOS.MemoryUAPI
