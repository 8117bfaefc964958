import FluxOS.SegmentLoading

/-! What the pages of a loaded segment are filled with when they are first touched. -/
namespace FluxOS
open Words

namespace FileSystem

end FileSystem

namespace ElfLoader
open MemoryContext MemoryDescriptor

section
variable {content : List (BitVec 8)} {node : VNode} {h : ElfProgramHeader} {held references : NodeReferences}

/-! ## What the pages are filled with -/

end

/-- A file system with one file, that maps no pages itself. -/
def oneFile (bytes : List (BitVec 8)) : FileSystem := ⟨fun _ => some 0, fun _ => bytes, fun _ _ => none⟩

end ElfLoader

end FluxOS
