import FluxOS.ElfLoader
import FluxOS.FreshPlacement

/-! What the loader maps for one segment in a new address space: the descriptors it
makes, and when all their placements return. -/
namespace FluxOS
open Words

namespace MemoryContext
open BuddyAllocator

section
variable {ctx : MemoryContext} {base length : Word} (nonzero : base ≠ 0#32)
  (vacant : ∀ d ∈ ctx.descriptors, endsInRange base (base + length) d = false)
include nonzero vacant

end

end MemoryContext

namespace ElfLoader
open MemoryContext MemoryDescriptor

/-! ## The descriptors of a segment -/

def mappedPart (node : VNode) (h : ElfProgramHeader) (length : Word) : MemoryDescriptor :=
  ⟨h.virtualAddr, length, segmentPermissions h.flags, .memoryMappedFile node h.offset⟩

def delayedPart (node : VNode) (h : ElfProgramHeader) : MemoryDescriptor :=
  ⟨h.virtualAddr + wholePages h.segmentFileSize, h.segmentMemSize, segmentPermissions h.flags,
    .delayedLoadFile node (h.offset + wholePages h.segmentFileSize) 0#32 (h.segmentFileSize % 4096#32)⟩

def anonymousPart (h : ElfProgramHeader) : MemoryDescriptor :=
  ⟨h.virtualAddr, h.segmentMemSize, segmentPermissions h.flags, .anonymousMemory⟩

/-- The descriptors that serve the segment, in the order in which they are made. -/
def parts (node : VNode) (h : ElfProgramHeader) : List MemoryDescriptor :=
  if h.segmentFileSize = 0#32 then [anonymousPart h]
  else if h.segmentFileSize = h.segmentMemSize then [mappedPart node h h.segmentFileSize]
  else if 4096#32 < h.segmentFileSize then
    [mappedPart node h (wholePages h.segmentFileSize), delayedPart node h]
  else [delayedPart node h]

/-- The context has the descriptors of the segment first, and others only if they are
anonymous and begin past the first delayed page. -/
def Made (ctx : MemoryContext) (node : VNode) (h : ElfProgramHeader) : Prop :=
  ∃ rest, ctx.descriptors = parts node h ++ rest ∧
    ∀ d ∈ rest, (delayedPart node h).baseAddress < d.baseAddress ∧ d.kind = .anonymousMemory

/-- The segment lies in user space and its contents in the file, both from the
beginning of a page on. -/
structure InRange (content : List (BitVec 8)) (h : ElfProgramHeader) : Prop where
  aligned : h.virtualAddr.toNat % 4096 = 0
  low : 0x08000000 ≤ h.virtualAddr.toNat
  high : h.virtualAddr.toNat + h.segmentMemSize.toNat ≤ 0xFFFFF000
  offsetAligned : h.offset.toNat % 4096 = 0
  inFile : h.offset.toNat + h.segmentFileSize.toNat ≤ content.length
  small : h.offset.toNat + h.segmentFileSize.toNat ≤ 2 ^ 32
  sizes : h.segmentFileSize.toNat ≤ h.segmentMemSize.toNat
  nonempty : 1 ≤ h.segmentMemSize.toNat

section
variable {content : List (BitVec 8)} {node : VNode} {h : ElfProgramHeader}

theorem InRange.nonzero (inRange : InRange content h) : h.virtualAddr ≠ 0#32 := by
  have low := inRange.low
  rintro zero
  rw [zero, BitVec.toNat_zero] at low
  omega

/-- The placements that loading the segment makes all return. -/
def Fitting (h : ElfProgramHeader) : Prop :=
  if h.segmentFileSize = 0#32 ∨ h.segmentFileSize = h.segmentMemSize then
    Fits (firstBlock h.virtualAddr) (pageCount h.segmentMemSize.toNat)
  else if 4096#32 < h.segmentFileSize then
    Fits (firstBlock h.virtualAddr) (h.segmentFileSize.toNat / 4096) ∧
      FitsBehind (firstBlock h.virtualAddr + h.segmentFileSize.toNat / 4096) (pageCount h.segmentMemSize.toNat)
  else Fits (firstBlock h.virtualAddr + h.segmentFileSize.toNat / 4096) (pageCount h.segmentMemSize.toNat)

instance (h : ElfProgramHeader) : Decidable (Fitting h) := by
  unfold Fitting
  infer_instance

end

end ElfLoader

end FluxOS
