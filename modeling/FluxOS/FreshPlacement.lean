import FluxOS.Reservation

/-! Placements in the address space of a new process. Its allocator manages the
first 2^19 pages of user space, in one chunk. A placement across the end of them, or
right at the end while the last page is free, never returns. -/
namespace FluxOS.MemoryContext
open Words BuddyAllocator DyadicChunks

def managedPages : Nat := 2 ^ 19

/-- A placement that returns while the block before it, if managed, is free. -/
def Fits (first pages : Nat) : Prop := managedPages < first ∨ first + pages ≤ managedPages

/-- A placement that returns behind a range that is taken. -/
def FitsBehind (first pages : Nat) : Prop := managedPages ≤ first ∨ first + pages ≤ managedPages

instance (first pages : Nat) : Decidable (Fits first pages) := inferInstanceAs (Decidable (_ ∨ _))

instance (first pages : Nat) : Decidable (FitsBehind first pages) := inferInstanceAs (Decidable (_ ∨ _))

/-- The free blocks are the managed ones outside the range. -/
structure FreeOutside (s : BuddyAllocator) (first stop : Nat) : Prop where
  wf : s.WellFormed
  free : ∀ x, s.Free x ↔ (0 ≤ x ∧ x < managedPages) ∧ ¬ (first ≤ x ∧ x < stop)

/-- The page index of a user space address. -/
theorem blockOf_eq {address : Word} (low : 0x08000000 ≤ address.toNat) :
    blockOf address = ((address.toNat - 0x08000000) / 4096 : Nat) := by
  have bound := address.isLt
  have start := toNat_userspaceLowAddr
  have relative : (address - userspaceLowAddr).toNat = address.toNat - 0x08000000 := by
    rw [BitVec.toNat_sub, start]
    omega
  rw [blockOf, BitVec.toInt_eq_toNat_of_lt] <;>
    rw [BitVec.toNat_ushiftRight, Nat.shiftRight_eq_div_pow, relative]
  omega

/-- Right behind a range that is taken, a placement returns when it stays inside the
managed pages or begins past them. -/
theorem FreeOutside.allocateBlocksAt_returns_iff {s : BuddyAllocator} {first stop pages : Nat}
    (outside : FreeOutside s first stop) (taken : first < stop) (positive : 1 ≤ pages) :
    (∃ fuel result, s.allocateBlocksAt fuel stop pages = some result) ↔ FitsBehind stop pages := by
  have behind : ¬ s.Free (stop - 1) := by
    rw [outside.free]
    omega
  rw [allocateBlocksAt_returns_behind_iff outside.wf (by omega) behind, FitsBehind]
  simp only [outside.free]
  constructor
  · intro whole
    by_cases beyond : managedPages ≤ stop
    · exact Or.inl beyond
    · have last := whole (by omega) (stop + pages - 1) (by omega) (by omega)
      omega
  · intro fits here x low high
    omega

def pageCount (bytes : Nat) : Nat := (bytes + 4095) / 4096

/-- The page index in user space. -/
def firstBlock (address : Word) : Nat := (address.toNat - 0x08000000) / 4096

/-- A new descriptor, once its range is placed. -/
def place (fuel : Nat) (ctx : MemoryContext) (d : MemoryDescriptor) : Option MemoryContext :=
  (ctx.allocVirtualMemoryAt fuel d.baseAddress (roundToPageMultiples d.length)).map fun ctx =>
    ctx.insertMemoryDescriptor d

/-- The descriptor begins in user space, and its rounded length is a word. -/
structure Reservable (d : MemoryDescriptor) : Prop where
  low : 0x08000000 ≤ d.baseAddress.toNat
  nonempty : 1 ≤ d.length.toNat
  rounds : d.length.toNat ≤ 0xFFFFF000

theorem Reservable.one_le_pageCount {d : MemoryDescriptor} (reservable : Reservable d) : 1 ≤ pageCount d.length.toNat := by
  have nonempty := reservable.nonempty
  rw [pageCount]
  omega

theorem toNat_rounded {length : Word} (rounds : length.toNat ≤ 0xFFFFF000) :
    (roundToPageMultiples length).toNat = pageCount length.toNat * 4096 := by
  rw [toNat_roundToPageMultiples, pageCount]
  omega

end FluxOS.MemoryContext
