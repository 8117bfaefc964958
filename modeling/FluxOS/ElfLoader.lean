import FluxOS.DemandPaging

/-! `ElfLoader`: the headers of an executable, the mappings that its segments are
given, and the references to its node. The fields of the headers that the loader's
mappings do not depend on are left out. -/
namespace FluxOS
open Words

/-- The fields of the ELF header that loading looks at. -/
structure Elf where
  ident : List (BitVec 8)
  machine : BitVec 16
  phoff : Word
  phentsize : BitVec 16
  phnum : BitVec 16
  deriving DecidableEq, Repr

structure ElfProgramHeader where
  type : Word
  offset : Word
  virtualAddr : Word
  segmentFileSize : Word
  segmentMemSize : Word
  flags : Word
  deriving DecidableEq, Repr

namespace ElfLoader
open MemoryContext

def pfX : Word := 1#32
def pfW : Word := 2#32
def pfR : Word := 4#32

def em386 : BitVec 16 := 3#16

def isValid (elfHeader : Elf) : Bool :=
  elfHeader.ident.take 4 = [0x7F#8, 0x45#8, 0x4C#8, 0x46#8] && elfHeader.machine = em386

def segmentPermissions (flags : Word) : Permissions := ⟨has flags pfR, has flags pfW, has flags pfX⟩

/-- `segmentFileSize & ~0xFFF`. -/
def wholePages (fileSize : Word) : Word := fileSize &&& 0xFFFFF000#32

/-- The memory context that is loaded into, and the references to nodes that its
mappings do not hold. -/
structure Loading where
  ctx : MemoryContext
  held : NodeReferences

namespace Loading

variable (s : Loading) (node : VNode)

/-- `mapFileSegmentToMemory` takes a reference for every descriptor that it makes,
`allocateDelayedLoadedFile` takes none. -/
def references : NodeReferences := fun node =>
  s.held node + s.ctx.descriptors.countP fun d => d.isMappedFile && d.node = some node

/-- The reference that `RelativePathToVnode` leaves. -/
def referenceVnode : Loading := { s with held := Function.update s.held node (s.held node + 1) }

/-- `PutVnode`. The node is freed with its last reference. -/
def putVnode : Loading := { s with held := Function.update s.held node (s.held node - 1) }

end Loading

end ElfLoader

end FluxOS
