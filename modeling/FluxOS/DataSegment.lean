import FluxOS.DisjointMappings
import FluxOS.FreshPlacement

/-! The data segment of a process: `execve` makes it, `brk` moves its end. The break, the
length of the descriptor and the blocks of the allocator should say the same. -/
namespace FluxOS
open Words PagingManager BuddyAllocator

namespace UserProcessImage
open MemoryContext MemoryUAPI

/-- The part of `execve` that makes the data segment: an error, or the process. -/
def allocateDataSegment (fuel : Nat) (process : ProcessControlBlock) : Option (Except Word ProcessControlBlock) :=
  (process.memoryContext.allocateAnonymousMemoryAnywhere fuel process.dataSegmentStart (4096#32 * 128#32) ⟨true, true, false⟩
    .fixedHint).map fun (ctx, dataSegmentStart, error) =>
      if error.slt 0#32 then .error (errorCode enomem)
      else .ok { setContext process ctx with
        dataSegmentStart := dataSegmentStart
        dataSegmentEnd := dataSegmentStart + 4096#32 }

end UserProcessImage

namespace DataSegment
open MemoryContext MemoryUAPI

/-- The allocator of a process's address space. -/
abbrev allocator (process : ProcessControlBlock) : BuddyAllocator := process.memoryContext.vmemAlloc

/-- The blocks that are reserved for the data segment after a call: it had them or the call
took them, and the call has not given them back. -/
def heldAfter (before after : BuddyAllocator) (held : Int → Prop) (block : Int) : Prop :=
  (held block ∨ before.Free block) ∧ ¬after.Free block

/-- The descriptor of the data segment contains it and meets no other descriptor, and the
blocks reserved for the data segment are those of the descriptor's range. -/
def Kept (s : ProcessControlBlock) (held : Int → Prop) : Prop :=
  ∃ d, s.memoryContext.findMemoryDescriptor s.dataSegmentStart = some d ∧
    (∀ address : Nat, s.dataSegmentStart.toNat ≤ address → address < s.dataSegmentEnd.toNat → d.Covers address) ∧
    (∀ e ∈ s.memoryContext.descriptors.erase d, ∀ address, ¬(e.Covers address ∧ d.Covers address)) ∧
    ∀ block, held block ↔ ∃ address, d.Covers address ∧ InBlock block address

/-- The call returns so, whatever the page tables are like. -/
def Does (s : ProcessControlBlock) (ptr : Word) (s' : ProcessControlBlock) (result : Word) : Prop :=
  ∀ p, ∃ fuel p', brk fuel s p ptr = some (s', p', result)

/-- The break is where it was asked to be, or where it was. -/
def Returned (s : ProcessControlBlock) (ptr : Word) (s' : ProcessControlBlock) (result : Word) : Prop :=
  (s'.dataSegmentEnd = ptr ∧ result = ptr) ∨ (s'.dataSegmentEnd = s.dataSegmentEnd ∧ result = s.dataSegmentEnd)

def AllRight (s : ProcessControlBlock) (held : Int → Prop) : List Word → Prop
  | [] => Kept s held
  | ptr :: rest => Kept s held ∧ ∃ s' result, Does s ptr s' result ∧ Returned s ptr s' result ∧
      AllRight s' (heldAfter (allocator s) (allocator s') held) rest

/-- Where the data segment can grow by so much: its range meets no other mapping, and the
blocks that it asks for are the ones that it gets more, all of them free and in a place where
the allocator finds them; or it gets none more, and the one that it asks for is taken. -/
def Grows (ctx : MemoryContext) (d : MemoryDescriptor) (increment : Word) : Prop :=
  let first := blockOf (roundToPageMultiples (d.baseAddress + d.length))
  let pages := pageCount increment.toNat
  (∀ e ∈ ctx.descriptors.erase d, ∀ address, ¬(e.Covers address ∧ InRounded d.baseAddress (d.length + increment) address)) ∧
    if pageCount (d.length + increment).toNat = pageCount d.length.toNat then ¬ctx.vmemAlloc.Free first
    else pageCount (d.length + increment).toNat = pageCount d.length.toNat + pages ∧
      (∀ x, first ≤ x → x < first + pages → ctx.vmemAlloc.Free x) ∧ PlacementReady ctx.vmemAlloc first pages

/-- What a call needs that is not refused: growing has its place, and shrinking gives up no page. -/
def Meets (s : ProcessControlBlock) (ptr : Word) : Prop :=
  ptr ≠ 0#32 → ∀ d, s.memoryContext.findMemoryDescriptor s.dataSegmentStart = some d →
    (s.dataSegmentEnd < ptr → s.memoryContext.countDescriptorsByRange s.dataSegmentEnd ptr = 0 →
      Grows s.memoryContext d (ptr - s.dataSegmentEnd)) ∧
    (ptr < s.dataSegmentEnd → s.dataSegmentStart ≤ ptr →
      pageCount (d.length + (ptr - s.dataSegmentEnd)).toNat = pageCount d.length.toNat)

def MeetsAll (s : ProcessControlBlock) : List Word → Prop
  | [] => True
  | ptr :: rest => Meets s ptr ∧ ∀ s' result, Does s ptr s' result → MeetsAll s' rest

/-- What the data segment needs when it is made: the mappings made before are in order, and
there is room for it, or it was somewhere before and can be there again. -/
def Fits (process : ProcessControlBlock) : Prop :=
  let ctx := process.memoryContext
  let start := process.dataSegmentStart
  Laid ctx ∧ if start = 0#32 then ctx.HasRoom 128
    else start.toNat % 4096 = 0 ∧ 0x08000000 ≤ start.toNat ∧
      (∀ d ∈ ctx.descriptors, ∀ address, ¬(d.Covers address ∧ InRounded start (4096#32 * 128#32) address)) ∧
      (∀ x, blockOf start ≤ x → x < blockOf start + 128 → ctx.vmemAlloc.Free x) ∧
      PlacementReady ctx.vmemAlloc (blockOf start) 128

end DataSegment
end FluxOS
