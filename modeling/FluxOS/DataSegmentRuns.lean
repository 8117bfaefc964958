import FluxOS.DataSegment

/-! The data segment over any run of `brk` calls. The descriptor stays 127 pages longer than
the break asks for, so that the two move together; the blocks move with them only where no
increment is rounded to another number of pages than the descriptor gets. -/
namespace FluxOS.DataSegment
open Words PagingManager BuddyAllocator DyadicChunks MemoryContext MemoryUAPI MemoryDescriptor

/-- A data segment in order, with the bounds that keep its numbers below 2^32. -/
structure Segment (s : ProcessControlBlock) (d : MemoryDescriptor) (held : Int → Prop) : Prop where
  laid : Laid s.memoryContext
  member : d ∈ s.memoryContext.descriptors
  base : d.baseAddress = s.dataSegmentStart
  aligned : s.dataSegmentStart.toNat % 4096 = 0
  low : 0x08000000 ≤ s.dataSegmentStart.toNat
  ordered : s.dataSegmentStart.toNat ≤ s.dataSegmentEnd.toNat
  length : d.length.toNat = s.dataSegmentEnd.toNat - s.dataSegmentStart.toNat + 0x7F000
  top : s.dataSegmentStart.toNat + pageCount d.length.toNat * 4096 ≤ 0x88000000
  held : ∀ block, held block ↔ (firstBlock s.dataSegmentStart : Int) ≤ block ∧
    block < firstBlock s.dataSegmentStart + pageCount d.length.toNat

section Ranges

/-- The blocks of a range of pages. -/
theorem exists_inBlock_iff {start n : Nat} (aligned : start % 4096 = 0) (low : 0x08000000 ≤ start) (block : Int) :
    (∃ address, (start ≤ address ∧ address < start + n * 4096) ∧ InBlock block address) ↔
      ((start - 0x08000000) / 4096 : Nat) ≤ block ∧ block < ((start - 0x08000000) / 4096 : Nat) + n := by
  simp only [InBlock]
  constructor
  · rintro ⟨address, inside, here⟩
    omega
  · rintro ⟨least, most⟩
    obtain ⟨k, rfl⟩ := Int.eq_ofNat_of_zero_le (show 0 ≤ block by omega)
    exact ⟨(0x8000 + k) * 4096, ⟨by omega, by omega⟩, by omega⟩

variable {s : ProcessControlBlock} {d : MemoryDescriptor} {held : Int → Prop}

namespace Segment

theorem rounds (segment : Segment s d held) : d.length.toNat ≤ 0xFFFFF000 := by
  have low := segment.low
  have top := segment.top
  rw [pageCount] at top
  omega

theorem covers_iff (segment : Segment s d held) (address : Nat) : d.Covers address ↔
    s.dataSegmentStart.toNat ≤ address ∧ address < s.dataSegmentStart.toNat + pageCount d.length.toNat * 4096 := by
  rw [Covers, InRounded, segment.base, toNat_rounded segment.rounds]

theorem toNat_endAddress (segment : Segment s d held) :
    d.endAddress.toNat = s.dataSegmentStart.toNat + pageCount d.length.toNat * 4096 := by
  have top := segment.top
  rw [endAddress, BitVec.toNat_add, segment.base, toNat_rounded segment.rounds]
  omega

theorem pages_pos (segment : Segment s d held) : 127 ≤ pageCount d.length.toNat := by
  have length := segment.length
  rw [pageCount]
  omega

theorem covers_start (segment : Segment s d held) : d.Covers s.dataSegmentStart.toNat := by
  have pages := segment.pages_pos
  rw [segment.covers_iff]
  omega

/-- No other descriptor meets it. -/
theorem alone (segment : Segment s d held) {e : MemoryDescriptor} (member : e ∈ s.memoryContext.descriptors.erase d)
    (address : Nat) : ¬(e.Covers address ∧ d.Covers address) := by
  have disjoint := segment.laid.disjoint
  have perm := List.perm_cons_erase segment.member
  have apart := List.pairwise_cons.mp (perm.pairwise disjoint fun separate address both => separate address both.symm)
  exact fun both => apart.1 e member address both.symm

/-- It is the descriptor that `brk` finds. -/
theorem find (segment : Segment s d held) : s.memoryContext.findMemoryDescriptor s.dataSegmentStart = some d := by
  have contained : d.contains s.dataSegmentStart := by
    have pages := segment.pages_pos
    rw [contains_iff, segment.toNat_endAddress, segment.base]
    omega
  cases found : s.memoryContext.findMemoryDescriptor s.dataSegmentStart with
  | none =>
    have absent := List.find?_eq_none.mp found d segment.member
    exact absurd contained absent
  | some e =>
    have also : e.contains s.dataSegmentStart := List.find?_some (p := fun d : MemoryDescriptor => d.contains s.dataSegmentStart) found
    have member : e ∈ s.memoryContext.descriptors := List.mem_of_find?_eq_some found
    rw [segment.laid.disjoint.eq_of_covers member segment.member (.of_contains also) segment.covers_start]

theorem kept (segment : Segment s d held) : Kept s held := by
  refine ⟨d, segment.find, fun address least most => ?_, fun e member => segment.alone member, fun block => ?_⟩
  · have length := segment.length
    have ordered := segment.ordered
    rw [segment.covers_iff, pageCount]
    omega
  · rw [segment.held, firstBlock, ← exists_inBlock_iff segment.aligned segment.low]
    simp only [segment.covers_iff]

/-- What is held is not free. -/
theorem not_free (segment : Segment s d held) {block : Int} (holds : held block) :
    ¬s.memoryContext.vmemAlloc.Free block := by
  rw [segment.held, firstBlock, ← exists_inBlock_iff segment.aligned segment.low] at holds
  obtain ⟨address, inside, inBlock⟩ := holds
  exact segment.laid.unclaimed d segment.member address block ((segment.covers_iff address).mpr inside) inBlock

end Segment

end Ranges

section Resizing

/-- A descriptor in place of another one, wherever it stands. -/
theorem replace_perm {descriptors : List MemoryDescriptor} {d : MemoryDescriptor} (d' : MemoryDescriptor)
    (member : d ∈ descriptors) : (descriptors.replace d d').Perm (d' :: descriptors.erase d) := by
  induction descriptors with
  | nil => cases member
  | cons e rest ih =>
    by_cases same : e = d
    · subst same
      simp
    · have later : d ∈ rest := (List.mem_cons.mp member).resolve_left (Ne.symm same)
      have other : (d == e) = false := by simpa using Ne.symm same
      rw [List.replace_cons, other, List.erase_cons_tail (by simpa using same)]
      exact ((ih later).cons e).trans (List.Perm.swap d' e _)

/-- The process after the data segment has been resized. -/
def resized (s : ProcessControlBlock) (d : MemoryDescriptor) (increment : Word) (vmemAlloc : BuddyAllocator) :
    ProcessControlBlock :=
  { s with
    memoryContext :=
      ⟨s.memoryContext.descriptors.replace d { d with length := d.length + increment }, vmemAlloc⟩
    dataSegmentEnd := s.dataSegmentEnd + increment }

variable {s : ProcessControlBlock} {d : MemoryDescriptor} {held : Int → Prop} {increment : Word}

/-- The numbers after a break that is not too far away. -/
structure Near (s : ProcessControlBlock) (d : MemoryDescriptor) (increment : Word) : Prop where
  ordered : s.dataSegmentStart.toNat ≤ (s.dataSegmentEnd + increment).toNat
  length : (d.length + increment).toNat = (s.dataSegmentEnd + increment).toNat - s.dataSegmentStart.toNat + 0x7F000
  fits : s.dataSegmentStart.toNat + pageCount (d.length + increment).toNat * 4096 < 2 ^ 32

theorem Segment.inRounded_iff (segment : Segment s d held) (near : Near s d increment) (address : Nat) :
    InRounded d.baseAddress (d.length + increment) address ↔ s.dataSegmentStart.toNat ≤ address ∧
      address < s.dataSegmentStart.toNat + pageCount (d.length + increment).toNat * 4096 := by
  have fits := near.fits
  have low := segment.low
  rw [InRounded, segment.base, toNat_rounded (by rw [pageCount] at fits; omega)]

/-- The resized descriptor is the one that is found. -/
theorem Segment.find_resized (segment : Segment s d held) (near : Near s d increment) (vmemAlloc : BuddyAllocator) :
    (resized s d increment vmemAlloc).memoryContext.findMemoryDescriptor s.dataSegmentStart =
      some { d with length := d.length + increment } := by
  obtain ⟨d', same⟩ : ∃ d' : MemoryDescriptor, { d with length := d.length + increment } = d' := ⟨_, rfl⟩
  have perm := replace_perm d' segment.member
  have contained : d'.contains s.dataSegmentStart := by
    have fits := near.fits
    have length := near.length
    have pages : 127 ≤ pageCount (d.length + increment).toNat := by
      rw [pageCount]
      omega
    have base : d'.baseAddress = s.dataSegmentStart := by rw [← same, ← segment.base]
    have length' : d'.length = d.length + increment := by rw [← same]
    have rounded : (roundToPageMultiples d'.length).toNat = pageCount (d.length + increment).toNat * 4096 := by
      rw [length']
      apply toNat_rounded
      rw [pageCount] at fits
      have low := segment.low
      omega
    rw [contains_iff, endAddress, BitVec.toNat_add, base, rounded]
    omega
  rw [resized, same]
  dsimp only
  cases found : findMemoryDescriptor ⟨s.memoryContext.descriptors.replace d d', vmemAlloc⟩ s.dataSegmentStart with
  | none =>
    have absent := List.find?_eq_none.mp found d' (perm.mem_iff.mpr List.mem_cons_self)
    exact absurd contained absent
  | some e =>
    have also : e.contains s.dataSegmentStart :=
      List.find?_some (p := fun d : MemoryDescriptor => d.contains s.dataSegmentStart) found
    obtain rfl | other := List.mem_cons.mp (perm.mem_iff.mp (List.mem_of_find?_eq_some found))
    · rfl
    · exact absurd ⟨.of_contains also, segment.covers_start⟩ (segment.alone other s.dataSegmentStart.toNat)

theorem Segment.kept_resized_iff (segment : Segment s d held) (near : Near s d increment) (vmemAlloc : BuddyAllocator)
    (held' : Int → Prop) : Kept (resized s d increment vmemAlloc) held' ↔
      (∀ e ∈ s.memoryContext.descriptors.erase d, ∀ address,
        ¬(e.Covers address ∧ InRounded d.baseAddress (d.length + increment) address)) ∧
      ∀ block, held' block ↔ (firstBlock s.dataSegmentStart : Int) ≤ block ∧
        block < firstBlock s.dataSegmentStart + pageCount (d.length + increment).toNat := by
  have found := segment.find_resized near vmemAlloc
  have inside := segment.inRounded_iff near
  have perm := replace_perm { d with length := d.length + increment } segment.member
  have others : ∀ e, e ∈ (resized s d increment vmemAlloc).memoryContext.descriptors.erase
      { d with length := d.length + increment } ↔ e ∈ s.memoryContext.descriptors.erase d := by
    intro e
    have erased := perm.erase { d with length := d.length + increment }
    rw [List.erase_cons_head] at erased
    exact erased.mem_iff
  have blocks (block : Int) : (∃ address, InRounded d.baseAddress (d.length + increment) address ∧ InBlock block address) ↔
      (firstBlock s.dataSegmentStart : Int) ≤ block ∧
        block < firstBlock s.dataSegmentStart + pageCount (d.length + increment).toNat := by
    rw [firstBlock, ← exists_inBlock_iff segment.aligned segment.low]
    simp only [inside]
  constructor
  · rintro ⟨d', found', -, alone, exactly⟩
    cases found.symm.trans found'
    exact ⟨fun e member => alone e ((others e).mpr member), fun block => (exactly block).trans (blocks block)⟩
  · rintro ⟨alone, exactly⟩
    refine ⟨_, found, fun address least most => ?_, fun e member => alone e ((others e).mp member), fun block => ?_⟩
    · have length := near.length
      have ordered := near.ordered
      refine (inside address).mpr ⟨least, ?_⟩
      have most' : address < (s.dataSegmentEnd + increment).toNat := most
      rw [pageCount]
      omega
    · exact (exactly block).trans (blocks block).symm

/-- The data segment is in order again, where the blocks held are those of the new range. -/
theorem Segment.resize (segment : Segment s d held) (near : Near s d increment) {vmemAlloc : BuddyAllocator}
    (wellFormed : vmemAlloc.WellFormed) (orders : vmemAlloc.orders = 20)
    (fewer : ∀ block, vmemAlloc.Free block → (allocator s).Free block)
    (alone : ∀ e ∈ s.memoryContext.descriptors.erase d, ∀ address,
      ¬(e.Covers address ∧ InRounded d.baseAddress (d.length + increment) address))
    (exactly : ∀ block, heldAfter (allocator s) vmemAlloc held block ↔ (firstBlock s.dataSegmentStart : Int) ≤ block ∧
      block < firstBlock s.dataSegmentStart + pageCount (d.length + increment).toNat)
    (top : s.dataSegmentStart.toNat + pageCount (d.length + increment).toNat * 4096 ≤ 0x88000000) :
    Segment (resized s d increment vmemAlloc) { d with length := d.length + increment }
      (heldAfter (allocator s) vmemAlloc held) := by
  have reserved : Reserved s.memoryContext { s.memoryContext with vmemAlloc := vmemAlloc } d.baseAddress
      (d.length + increment) := by
    refine ⟨rfl, wellFormed, orders, fewer, fun address block inside inBlock => ?_⟩
    have range := (exists_inBlock_iff (n := pageCount (d.length + increment).toNat) segment.aligned segment.low block).mp
      ⟨address, (segment.inRounded_iff near address).mp inside, inBlock⟩
    exact ((exactly block).mpr range).2
  have apart (e : MemoryDescriptor) (member : e ∈ s.memoryContext.descriptors) (other : e ≠ d) (address : Nat) :
      ¬(e.Covers address ∧ Covers { d with length := d.length + increment } address) :=
    alone e ((List.mem_erase_of_ne other).mpr member) address
  have laid := reserved.replace segment.laid segment.member segment.covers_start apart
  have member := (replace_perm { d with length := d.length + increment } segment.member).mem_iff.mpr List.mem_cons_self
  exact ⟨laid, member, segment.base, segment.aligned, segment.low, near.ordered, near.length, top, exactly⟩

end Resizing

section Calls

variable {s : ProcessControlBlock} {d : MemoryDescriptor} {held : Int → Prop} {ptr : Word}

/-- Where `brk` leaves the break alone. -/
def Refused (s : ProcessControlBlock) (ptr : Word) : Prop :=
  ptr = 0#32 ∨ (s.dataSegmentEnd < ptr ∧ s.memoryContext.countDescriptorsByRange s.dataSegmentEnd ptr ≠ 0) ∨
    (ptr < s.dataSegmentEnd ∧ ptr < s.dataSegmentStart) ∨ ptr = s.dataSegmentEnd

theorem Segment.brk_refused (segment : Segment s d held) (refused : Refused s ptr) (fuel : Nat) (p : Paging) :
    brk fuel s p ptr = some (s, p, s.dataSegmentEnd) := by
  unfold brk
  rw [segment.find]
  dsimp only
  by_cases null : ptr = 0#32
  · rw [if_pos null]
  · rw [if_neg null]
    split_ifs with growing shrinking same
    · rfl
    · rfl
    · rfl
    · exact absurd refused (by simp only [Refused, null, growing, shrinking, same, or_self, not_false_eq_true])

/-- The range of another number of bytes. -/
theorem Segment.brk_resizes (segment : Segment s d held) (asked : ¬Refused s ptr) (fuel : Nat) (p : Paging) :
    brk fuel s p ptr = (s.memoryContext.resizeExtent fuel p d (ptr - s.dataSegmentEnd)).map fun (ctx, p) =>
      ({ setContext s ctx with dataSegmentEnd := s.dataSegmentEnd + (ptr - s.dataSegmentEnd) }, p,
        s.dataSegmentEnd + (ptr - s.dataSegmentEnd)) := by
  obtain ⟨null, growing, shrinking, same⟩ : ptr ≠ 0#32 ∧
      ¬(s.dataSegmentEnd < ptr ∧ s.memoryContext.countDescriptorsByRange s.dataSegmentEnd ptr ≠ 0) ∧
      ¬(ptr < s.dataSegmentEnd ∧ ptr < s.dataSegmentStart) ∧ ptr ≠ s.dataSegmentEnd := by
    simpa only [Refused, not_or] using asked
  unfold brk
  rw [if_neg null, segment.find]
  dsimp only
  rw [if_neg growing, if_neg shrinking, if_neg same]

theorem end_add_increment (s : ProcessControlBlock) (ptr : Word) :
    s.dataSegmentEnd + (ptr - s.dataSegmentEnd) = ptr := by
  rw [BitVec.add_comm, BitVec.sub_add_cancel]

/-- The length that goes with a break among the pages of the segment. -/
theorem Segment.toNat_length {ptr : Word} (segment : Segment s d held) (least : s.dataSegmentStart.toNat ≤ ptr.toNat)
    (inside : ptr.toNat < s.dataSegmentStart.toNat + pageCount d.length.toNat * 4096) :
    (d.length + (ptr - s.dataSegmentEnd)).toNat = ptr.toNat - s.dataSegmentStart.toNat + 0x7F000 := by
  have length := segment.length
  have ordered := segment.ordered
  have bound := s.dataSegmentEnd.isLt
  have top := segment.top
  rw [BitVec.toNat_add, BitVec.toNat_sub, length]
  omega

/-- Such a break is not too far away. -/
theorem Segment.near {ptr : Word} (segment : Segment s d held) (least : s.dataSegmentStart.toNat ≤ ptr.toNat)
    (inside : ptr.toNat < s.dataSegmentStart.toNat + pageCount d.length.toNat * 4096) :
    Near s d (ptr - s.dataSegmentEnd) := by
  have top := segment.top
  have length := segment.toNat_length least inside
  refine ⟨?_, ?_, ?_⟩
  · rw [end_add_increment]
    exact least
  · rw [end_add_increment, length]
  · rw [length, pageCount]
    omega

/-- A call that takes and gives back nothing keeps what is held. -/
theorem Segment.heldAfter_same (segment : Segment s d held) : heldAfter (allocator s) (allocator s) held = held := by
  funext block
  apply propext
  constructor
  · rintro ⟨holds | free, kept⟩
    · exact holds
    · exact absurd free kept
  · exact fun holds => ⟨.inl holds, segment.not_free holds⟩

end Calls

section GivingBack

variable {s s' : BuddyAllocator} {block : Int}

theorem free_of_freeAlignedBlock {pos order : Int} (ran : s.freeAlignedBlock pos order = some s') (below : block < pos)
    (free : s'.Free block) : s.Free block := by
  unfold freeAlignedBlock at ran
  split at ran
  · rename_i bound
    cases ran
    obtain ⟨c, member, holds⟩ := free
    obtain rfl | old := List.mem_cons.mp ((freeChunks_prependNewNode s (by omega) pos).mem_iff.mp member)
    · exact absurd holds.1 (Int.not_le.mpr below)
    · exact ⟨c, old, holds⟩
  · cases ran

theorem free_of_freeLowBits {limit pos pos' : Int} (bits : Nat) (ran : freeLowBits limit bits s pos = some (s', pos')) :
    pos ≤ pos' ∧ ∀ block, block < pos → s'.Free block → s.Free block := by
  induction bits generalizing s pos with
  | zero =>
    cases ran
    exact ⟨le_rfl, fun _ _ free => free⟩
  | succ bits ih =>
    have power : (0 : Int) < 2 ^ (31 - bits) := by positivity
    rw [freeLowBits] at ran
    split at ran
    · cases taken : s.freeAlignedBlock pos (2 ^ (31 - bits)) with
      | none =>
        rw [taken] at ran
        cases ran
      | some middle =>
        rw [taken] at ran
        obtain ⟨later, kept⟩ := ih ran
        exact ⟨by omega, fun block below free => free_of_freeAlignedBlock taken below (kept block (by omega) free)⟩
    · exact ih ran

theorem free_of_freeHighBits {remaining pos : Int} (bits : Nat) (ran : freeHighBits remaining bits s pos = some s')
    (below : block < pos) (free : s'.Free block) : s.Free block := by
  induction bits generalizing s pos with
  | zero =>
    cases ran
    exact free
  | succ bits ih =>
    have power : (0 : Int) < 2 ^ (bits % 32) := by positivity
    rw [freeHighBits] at ran
    split at ran
    · cases taken : s.freeAlignedBlock pos (2 ^ (bits % 32)) with
      | none =>
        rw [taken] at ran
        cases ran
      | some middle =>
        rw [taken] at ran
        exact free_of_freeAlignedBlock taken below (ih ran (by omega))
    · exact ih ran below

/-- Blocks before the first one that is given back stay as they are. -/
theorem free_of_freeBlocks {first n : Int} (ran : s.freeBlocks first n = some s') (below : block < first)
    (free : s'.Free block) : s.Free block := by
  unfold freeBlocks at ran
  cases low : freeLowBits (first + n) 32 s first with
  | none =>
    rw [low] at ran
    cases ran
  | some result =>
    rw [low] at ran
    obtain ⟨later, kept⟩ := free_of_freeLowBits 32 low
    exact kept block below (free_of_freeHighBits 33 ran (by omega) free)

end GivingBack

section Growing

variable {s : ProcessControlBlock} {d : MemoryDescriptor} {held : Int → Prop} {ptr : Word}

/-- The break moves up, to an address of the range that the descriptor has already. -/
structure Up (s : ProcessControlBlock) (d : MemoryDescriptor) (ptr : Word) : Prop where
  above : s.dataSegmentEnd.toNat < ptr.toNat
  inside : ptr.toNat < s.dataSegmentStart.toNat + pageCount d.length.toNat * 4096

theorem Segment.up (segment : Segment s d held) (above : s.dataSegmentEnd < ptr)
    (none : s.memoryContext.countDescriptorsByRange s.dataSegmentEnd ptr = 0) : Up s d ptr := by
  refine ⟨BitVec.lt_def.mp above, ?_⟩
  have unmet := List.countP_eq_zero.mp none d segment.member
  have length := segment.length
  have ordered := segment.ordered
  simp only [Bool.and_eq_true, decide_eq_true_eq, not_and, BitVec.le_def, segment.toNat_endAddress] at unmet
  rw [pageCount] at unmet ⊢
  omega

theorem Up.toNat_increment (up : Up s d ptr) : (ptr - s.dataSegmentEnd).toNat = ptr.toNat - s.dataSegmentEnd.toNat := by
  have above := up.above
  have bound := ptr.isLt
  rw [BitVec.toNat_sub]
  omega

/-- The address behind the range, as `resizeExtent` computes it. -/
theorem Segment.toNat_roundedEnd (segment : Segment s d held) : (roundToPageMultiples (d.baseAddress + d.length)).toNat =
    s.dataSegmentStart.toNat + pageCount d.length.toNat * 4096 := by
  have top := segment.top
  have aligned := segment.aligned
  have sum : (d.baseAddress + d.length).toNat = s.dataSegmentStart.toNat + d.length.toNat := by
    rw [BitVec.toNat_add, segment.base]
    rw [pageCount] at top
    omega
  rw [toNat_rounded (by rw [sum]; rw [pageCount] at top; omega), sum, pageCount, pageCount]
  omega

theorem Segment.blockOf_end (segment : Segment s d held) : blockOf (roundToPageMultiples (d.baseAddress + d.length)) =
    (firstBlock s.dataSegmentStart : Int) + pageCount d.length.toNat := by
  have low := segment.low
  have aligned := segment.aligned
  have rounded := segment.toNat_roundedEnd
  rw [blockOf_eq (by omega), rounded, firstBlock]
  omega

variable (segment : Segment s d held) (up : Up s d ptr)
include segment up

theorem Up.least : s.dataSegmentStart.toNat ≤ ptr.toNat :=
  segment.ordered.trans up.above.le

theorem Up.pagesOf_increment : pagesOf (roundToPageMultiples (ptr - s.dataSegmentEnd)) =
    pageCount (ptr - s.dataSegmentEnd).toNat := by
  have inside := up.inside
  have low := segment.low
  have ordered := segment.ordered
  have top := segment.top
  rw [pagesOf_eq, toNat_rounded (by rw [up.toNat_increment]; omega)]
  omega

/-- What `brk` does there: it asks for the pages behind the range, and goes on whatever it gets. -/
theorem Up.brk_eq (asked : ¬Refused s ptr) (fuel : Nat) (p : Paging) : brk fuel s p ptr =
    ((allocator s).allocateBlocksAt fuel (firstBlock s.dataSegmentStart + pageCount d.length.toNat)
      (pageCount (ptr - s.dataSegmentEnd).toNat)).map fun (vmemAlloc, _) =>
        (resized s d (ptr - s.dataSegmentEnd) vmemAlloc, p, s.dataSegmentEnd + (ptr - s.dataSegmentEnd)) := by
  have positive : (0#32).slt (ptr - s.dataSegmentEnd) := by
    have value := up.toNat_increment
    have above := up.above
    have inside := up.inside
    have low := segment.low
    have ordered := segment.ordered
    have top := segment.top
    simp only [BitVec.slt, BitVec.toInt_eq_toNat_cond, decide_eq_true_eq, BitVec.toNat_ofNat]
    omega
  rw [segment.brk_resizes asked, resizeExtent]
  dsimp only
  rw [if_pos positive, allocVirtualMemoryAt, ← segment.blockOf_end, ← up.pagesOf_increment segment]
  simp only [Option.map_map]
  rfl

end Growing

section Shrinking

variable {s : ProcessControlBlock} {d : MemoryDescriptor} {held : Int → Prop} {ptr : Word}

/-- The break moves down, and not below the start. -/
structure Down (s : ProcessControlBlock) (ptr : Word) : Prop where
  below : ptr.toNat < s.dataSegmentEnd.toNat
  least : s.dataSegmentStart.toNat ≤ ptr.toNat

theorem Down.toNat_increment (down : Down s ptr) :
    (ptr - s.dataSegmentEnd).toNat = 2 ^ 32 - (s.dataSegmentEnd.toNat - ptr.toNat) := by
  have below := down.below
  have bound := s.dataSegmentEnd.isLt
  rw [BitVec.toNat_sub]
  omega

theorem Down.toNat_neg_increment (down : Down s ptr) :
    (-(ptr - s.dataSegmentEnd)).toNat = s.dataSegmentEnd.toNat - ptr.toNat := by
  have below := down.below
  have bound := s.dataSegmentEnd.isLt
  rw [BitVec.toNat_neg, down.toNat_increment]
  omega

/-- What `resizeExtent` takes off the end of the range: so many bytes, from this address on. -/
def cut (s : ProcessControlBlock) (ptr : Word) : Word := -(ptr - s.dataSegmentEnd) &&& ~~~0xFFF#32

def cutFrom (s : ProcessControlBlock) (d : MemoryDescriptor) (ptr : Word) : Word :=
  roundToPageMultiples (d.baseAddress + d.length) - cut s ptr

/-- What is cut off is a whole number of pages. -/
theorem Down.toNat_cut (down : Down s ptr) :
    (cut s ptr).toNat = (s.dataSegmentEnd.toNat - ptr.toNat) / 4096 * 4096 := by
  rw [cut, show ~~~0xFFF#32 = 0xFFFFF000#32 from rfl, toNat_and_page, down.toNat_neg_increment]

variable (segment : Segment s d held) (down : Down s ptr)
include segment down

theorem Down.inside : ptr.toNat < s.dataSegmentStart.toNat + pageCount d.length.toNat * 4096 := by
  have below := down.below
  have length := segment.length
  rw [pageCount]
  omega

/-- What `brk` does there. -/
theorem Down.brk_eq (asked : ¬Refused s ptr) (fuel : Nat) (p : Paging) : brk fuel s p ptr =
    (s.memoryContext.freeVirtualMemory (cutFrom s d ptr) (cut s ptr)).bind fun ctx =>
      (removePages p (cutFrom s d ptr) (cut s ptr)).toOption.map fun p =>
        (resized s d (ptr - s.dataSegmentEnd) ctx.vmemAlloc, p, s.dataSegmentEnd + (ptr - s.dataSegmentEnd)) := by
  have value := down.toNat_increment
  have below := down.below
  have least := down.least
  have top := segment.top
  have length := segment.length
  have low := segment.low
  have range : s.dataSegmentEnd.toNat - ptr.toNat < 2 ^ 31 := by
    rw [pageCount] at top
    omega
  have notUp : ¬(0#32).slt (ptr - s.dataSegmentEnd) := by
    simp only [BitVec.slt, BitVec.toInt_eq_toNat_cond, decide_eq_true_eq, BitVec.toNat_ofNat]
    omega
  have isDown : (ptr - s.dataSegmentEnd).slt 0#32 := by
    simp only [BitVec.slt, BitVec.toInt_eq_toNat_cond, decide_eq_true_eq, BitVec.toNat_ofNat]
    omega
  rw [segment.brk_resizes asked, resizeExtent, cutFrom, cut]
  dsimp only
  rw [if_neg notUp, if_pos isDown, freeVirtualMemory]
  cases s.memoryContext.vmemAlloc.freeBlocks
      (roundToPageMultiples (d.baseAddress + d.length) - (-(ptr - s.dataSegmentEnd) &&& ~~~0xFFF#32) - userspaceLowAddr).toInt
      ((-(ptr - s.dataSegmentEnd) &&& ~~~0xFFF#32) >>> 12).toInt with
  | none => rfl
  | some vmemAlloc =>
    cases (removePages p (roundToPageMultiples (d.baseAddress + d.length) - (-(ptr - s.dataSegmentEnd) &&& ~~~0xFFF#32))
      (-(ptr - s.dataSegmentEnd) &&& ~~~0xFFF#32)).toOption <;> rfl

theorem Down.toNat_cutFrom : (cutFrom s d ptr).toNat =
    s.dataSegmentStart.toNat + pageCount d.length.toNat * 4096 -
      (s.dataSegmentEnd.toNat - ptr.toNat) / 4096 * 4096 := by
  have top := segment.top
  have length := segment.length
  have least := down.least
  have below := down.below
  rw [cutFrom, BitVec.toNat_sub, segment.toNat_roundedEnd, down.toNat_cut]
  rw [pageCount] at top ⊢
  omega

/-- Where less than a page is given up, nothing is given back. -/
theorem Down.brk_small (asked : ¬Refused s ptr)
    (small : s.dataSegmentEnd.toNat - ptr.toNat < 4096) (fuel : Nat) (p : Paging) : brk fuel s p ptr =
      some (resized s d (ptr - s.dataSegmentEnd) (allocator s), p, ptr) := by
  have nothing : cut s ptr = 0#32 := by
    apply BitVec.eq_of_toNat_eq
    rw [down.toNat_cut, BitVec.toNat_ofNat]
    omega
  have kept : removePages p (cutFrom s d ptr) 0#32 = .ok p := by
    rw [removePages, removePagesFrom, BitVec.add_zero, if_neg (BitVec.lt_irrefl _)]
  rw [down.brk_eq segment asked, nothing, freeVirtualMemory_zero, kept, end_add_increment]
  rfl

end Shrinking

section Steps

variable {s : ProcessControlBlock} {d : MemoryDescriptor} {held : Int → Prop} {ptr : Word}

/-- Either a call meets its condition and keeps the data segment in order, or it does not and breaks it. -/
def Settled (s : ProcessControlBlock) (held : Int → Prop) (ptr : Word) : Prop :=
  (Meets s ptr ∧ ∃ s' d' result, Does s ptr s' result ∧ Returned s ptr s' result ∧
    Segment s' d' (heldAfter (allocator s) (allocator s') held)) ∨
  (¬Meets s ptr ∧ ∀ s' result, Does s ptr s' result → ¬Kept s' (heldAfter (allocator s) (allocator s') held))

/-- What is behind the range is asked for, and the range itself is not free. -/
theorem Segment.not_free_last (segment : Segment s d held) :
    ¬(allocator s).Free ((firstBlock s.dataSegmentStart : Int) + pageCount d.length.toNat - 1) := by
  apply segment.not_free
  have pages := segment.pages_pos
  rw [segment.held]
  omega

/-- The data segment grows where it can. -/
theorem Segment.grow (segment : Segment s d held) (up : Up s d ptr) (asked : ¬Refused s ptr)
    (grows : Grows s.memoryContext d (ptr - s.dataSegmentEnd)) :
    ∃ s' d', Does s ptr s' ptr ∧ s'.dataSegmentEnd = ptr ∧ Segment s' d' (heldAfter (allocator s) (allocator s') held) := by
  have near := segment.near (up.least segment) up.inside
  have inside := up.inside
  have moved := end_add_increment s ptr
  have call := up.brk_eq segment asked
  obtain ⟨alone, room⟩ := grows
  rw [segment.blockOf_end] at room
  by_cases same : pageCount (d.length + (ptr - s.dataSegmentEnd)).toNat = pageCount d.length.toNat
  · rw [if_pos same] at room
    have missing : (allocator s).locate (firstBlock s.dataSegmentStart + pageCount d.length.toNat) = none :=
      locate_none_iff.mpr ⟨room, segment.not_free_last⟩
    refine ⟨resized s d (ptr - s.dataSegmentEnd) (allocator s), _, fun p => ⟨0, p, ?_⟩, moved,
      segment.resize near segment.laid.wellFormed segment.laid.orders (fun _ free => free) alone (fun block => ?_) ?_⟩
    · rw [call, allocateBlocksAt, missing, moved]
      rfl
    · rw [segment.heldAfter_same, segment.held, same]
    · rw [same]
      exact segment.top
  · rw [if_neg same] at room
    obtain ⟨more, free, ready⟩ := room
    have positive : 1 ≤ pageCount (ptr - s.dataSegmentEnd).toNat := by
      have above := up.above
      rw [up.toNat_increment, pageCount]
      omega
    obtain ⟨fuel, vmemAlloc, placed, exactly, wellFormed⟩ :=
      (placement_exact_iff segment.laid.wellFormed (by exact_mod_cast positive) free).mpr ready
    have outcome := allocateBlocksAt_outcome segment.laid.wellFormed (by exact_mod_cast positive) placed
    refine ⟨resized s d (ptr - s.dataSegmentEnd) vmemAlloc, _, fun p => ⟨fuel, p, ?_⟩, moved,
      segment.resize near wellFormed (outcome.orders.trans segment.laid.orders) outcome.fewer alone (fun block => ?_) ?_⟩
    · rw [call, placed, moved]
      rfl
    · have range := segment.held block
      rw [heldAfter, exactly block, more, Nat.cast_add, range]
      constructor
      · rintro ⟨holds | isFree, taken⟩
        · omega
        · by_contra outside
          exact taken ⟨isFree, fun request => outside (by omega)⟩
      · rintro ⟨least, most⟩
        by_cases before : block < firstBlock s.dataSegmentStart + pageCount d.length.toNat
        · exact ⟨.inl ⟨least, before⟩, fun both => segment.not_free (range.mpr ⟨least, before⟩) both.1⟩
        · exact ⟨.inr (free block (by omega) (by omega)), fun both => both.2 ⟨by omega, by omega⟩⟩
    · have last := segment.laid.wellFormed.free_inside (free (firstBlock s.dataSegmentStart + pageCount d.length.toNat +
        pageCount (ptr - s.dataSegmentEnd).toNat - 1) (by omega) (by omega))
      have low := segment.low
      have aligned := segment.aligned
      rw [segment.laid.orders, firstBlock] at last
      rw [more]
      omega

/-- No more pages are needed than those of the two parts. -/
theorem Up.pages_le (segment : Segment s d held) (up : Up s d ptr) :
    pageCount (d.length + (ptr - s.dataSegmentEnd)).toNat ≤
      pageCount d.length.toNat + pageCount (ptr - s.dataSegmentEnd).toNat := by
  have above := up.above
  have length := segment.length
  have ordered := segment.ordered
  rw [segment.toNat_length (up.least segment) up.inside, up.toNat_increment, length, pageCount, pageCount, pageCount]
  omega

/-- Where it is in order after growing, it could grow. -/
theorem Segment.grows_of_kept (segment : Segment s d held) (up : Up s d ptr) (asked : ¬Refused s ptr)
    {s' : ProcessControlBlock} {result : Word} (does : Does s ptr s' result)
    (kept : Kept s' (heldAfter (allocator s) (allocator s') held)) : Grows s.memoryContext d (ptr - s.dataSegmentEnd) := by
  have near := segment.near (up.least segment) up.inside
  have wf := segment.laid.wellFormed
  have positive : (1 : Int) ≤ pageCount (ptr - s.dataSegmentEnd).toNat := by
    have above := up.above
    rw [up.toNat_increment, pageCount]
    omega
  obtain ⟨fuel, p', ran⟩ := does ⟨⟨fun _ => 0#32⟩, fun _ _ => 0#32, fun _ => 0#32⟩
  rw [up.brk_eq segment asked] at ran
  obtain ⟨⟨vmemAlloc, block⟩, placed, outcome⟩ := Option.map_eq_some_iff.mp ran
  cases outcome
  obtain ⟨alone, exactly⟩ := (segment.kept_resized_iff near vmemAlloc (heldAfter (allocator s) vmemAlloc held)).mp kept
  have atMost := up.pages_le segment
  refine ⟨alone, ?_⟩
  rw [segment.blockOf_end]
  obtain ⟨-, same, notFree, -⟩ | ⟨same, fc, skipped, located, carved⟩ := allocateBlocksAt_cases wf positive placed
  · -- nothing is taken, so that the range has no page more
    have unchanged : heldAfter (allocator s) vmemAlloc held = held := by
      rw [same]
      exact segment.heldAfter_same
    have samePages : pageCount (d.length + (ptr - s.dataSegmentEnd)).toNat = pageCount d.length.toNat := by
      have old := exactly (firstBlock s.dataSegmentStart + pageCount d.length.toNat)
      have new := exactly (firstBlock s.dataSegmentStart + pageCount (d.length + (ptr - s.dataSegmentEnd)).toNat)
      rw [unchanged, segment.held] at old new
      omega
    rw [if_pos samePages]
    exact notFree
  · have outcome := allocateBlocksAt_outcome wf positive placed
    have here := carved.free _ le_rfl (by omega)
    have taken (x : Int) (least : firstBlock s.dataSegmentStart + pageCount d.length.toNat ≤ x)
        (most : x < firstBlock s.dataSegmentStart + pageCount d.length.toNat + pageCount (ptr - s.dataSegmentEnd).toNat) :
        heldAfter (allocator s) vmemAlloc held x :=
      ⟨.inr (carved.free x least most), outcome.taken here x least most⟩
    have last := (exactly _).mp (taken (firstBlock s.dataSegmentStart + pageCount d.length.toNat +
      pageCount (ptr - s.dataSegmentEnd).toNat - 1) (by omega) (by omega))
    have more : pageCount (d.length + (ptr - s.dataSegmentEnd)).toNat =
        pageCount d.length.toNat + pageCount (ptr - s.dataSegmentEnd).toNat := by omega
    rw [if_neg (by omega)]
    refine ⟨more, carved.free, (placement_exact_iff wf positive carved.free).mp ⟨fuel, vmemAlloc, ?_, fun x => ?_, outcome.wf⟩⟩
    · rw [placed, same]
    · refine ⟨fun free => ⟨outcome.fewer x free, fun request => outcome.taken here x request.1 request.2 free⟩, ?_⟩
      rintro ⟨free, outside⟩
      by_contra gone
      have range := (exactly x).mp ⟨.inr free, gone⟩
      exact segment.not_free ((segment.held x).mpr ⟨range.1, by omega⟩) free

/-- The data segment shrinks where no page goes. -/
theorem Segment.shrink (segment : Segment s d held) (down : Down s ptr) (asked : ¬Refused s ptr)
    (same : pageCount (d.length + (ptr - s.dataSegmentEnd)).toNat = pageCount d.length.toNat) :
    ∃ s' d', Does s ptr s' ptr ∧ s'.dataSegmentEnd = ptr ∧ Segment s' d' (heldAfter (allocator s) (allocator s') held) := by
  have near := segment.near down.least (down.inside segment)
  have small : s.dataSegmentEnd.toNat - ptr.toNat < 4096 := by
    have pages := same
    have length := segment.length
    have below := down.below
    have least := down.least
    rw [segment.toNat_length down.least (down.inside segment), length, pageCount, pageCount] at pages
    omega
  refine ⟨_, _, fun p => ⟨0, p, down.brk_small segment asked small 0 p⟩, end_add_increment s ptr,
    segment.resize near segment.laid.wellFormed segment.laid.orders (fun _ free => free) (fun e member address both => ?_)
      (fun block => ?_) (same ▸ segment.top)⟩
  · have inside := (segment.inRounded_iff near address).mp both.2
    rw [same, ← segment.covers_iff] at inside
    exact segment.alone member address ⟨both.1, inside⟩
  · rw [segment.heldAfter_same, segment.held, same]

/-- Where it is in order after shrinking, no page went. -/
theorem Segment.pages_of_kept (segment : Segment s d held) (down : Down s ptr) (asked : ¬Refused s ptr)
    {s' : ProcessControlBlock} {result : Word} (does : Does s ptr s' result)
    (kept : Kept s' (heldAfter (allocator s) (allocator s') held)) :
    pageCount (d.length + (ptr - s.dataSegmentEnd)).toNat = pageCount d.length.toNat := by
  have near := segment.near down.least (down.inside segment)
  obtain ⟨fuel, p', ran⟩ := does ⟨⟨fun _ => 0#32⟩, fun _ _ => 0#32, fun _ => 0#32⟩
  by_cases small : s.dataSegmentEnd.toNat - ptr.toNat < 4096
  · rw [down.brk_small segment asked small] at ran
    cases ran
    obtain ⟨-, exactly⟩ := (segment.kept_resized_iff near _ _).mp kept
    have old := exactly (firstBlock s.dataSegmentStart + pageCount d.length.toNat)
    have new := exactly (firstBlock s.dataSegmentStart + pageCount (d.length + (ptr - s.dataSegmentEnd)).toNat)
    have unchanged : heldAfter (allocator s) (allocator (resized s d (ptr - s.dataSegmentEnd) (allocator s))) held = held :=
      segment.heldAfter_same
    rw [unchanged, segment.held] at old new
    omega
  · -- the byte address of the first block to give back is taken for its number, so that the block stays reserved
    exfalso
    rw [down.brk_eq segment asked] at ran
    obtain ⟨ctx, freed, rest⟩ := Option.bind_eq_some_iff.mp ran
    obtain ⟨p'', -, outcome⟩ := Option.map_eq_some_iff.mp rest
    cases outcome
    obtain ⟨vmemAlloc, gave, rfl⟩ := Option.map_eq_some_iff.mp freed
    obtain ⟨-, exactly⟩ := (segment.kept_resized_iff near _ _).mp kept
    have below := down.below
    have least := down.least
    have low := segment.low
    have top := segment.top
    have length := segment.length
    have start := down.toNat_cutFrom segment
    have position : (cutFrom s d ptr - userspaceLowAddr).toInt = ((cutFrom s d ptr).toNat : Int) - 0x08000000 := by
      have bottom := toNat_userspaceLowAddr
      have value : (cutFrom s d ptr - userspaceLowAddr).toNat = (cutFrom s d ptr).toNat - 0x08000000 := by
        rw [BitVec.toNat_sub, bottom, start]
        rw [pageCount] at top ⊢
        omega
      rw [BitVec.toInt_eq_toNat_of_lt (by rw [value, start]; omega), value, start]
      rw [pageCount] at top ⊢
      omega
    obtain ⟨gone, cutPages⟩ : ∃ gone, (s.dataSegmentEnd.toNat - ptr.toNat) / 4096 = gone := ⟨_, rfl⟩
    obtain ⟨pages, allPages⟩ : ∃ pages, pageCount d.length.toNat = pages := ⟨_, rfl⟩
    have enough : gone + 127 ≤ pages := by
      rw [← cutPages, ← allPages, pageCount]
      omega
    have fewer : pageCount (d.length + (ptr - s.dataSegmentEnd)).toNat + gone ≤ pages := by
      rw [segment.toNat_length down.least (down.inside segment), ← cutPages, ← allPages, length, pageCount, pageCount]
      omega
    rw [cutPages, allPages] at start
    have first : (firstBlock s.dataSegmentStart : Int) = (s.dataSegmentStart.toNat - 0x08000000) / 4096 := by
      rw [firstBlock]
      omega
    have holds : held (firstBlock s.dataSegmentStart + pages - gone) := by
      rw [segment.held, allPages]
      omega
    have kept' : heldAfter (allocator s) vmemAlloc held (firstBlock s.dataSegmentStart + pages - gone) := by
      refine ⟨.inl holds, fun free => segment.not_free holds ?_⟩
      refine free_of_freeBlocks gave ?_ free
      rw [position, start, first]
      omega
    have range := (exactly _).mp kept'
    omega

/-- The three things that a call can be. -/
theorem Segment.cases (segment : Segment s d held) (ptr : Word) :
    Refused s ptr ∨ (¬Refused s ptr ∧ Up s d ptr) ∨ (¬Refused s ptr ∧ Down s ptr) := by
  by_cases refused : Refused s ptr
  · exact .inl refused
  · right
    have possible := refused
    simp only [Refused, not_or, not_and, not_not, BitVec.lt_def, not_lt] at possible
    obtain ⟨-, growing, shrinking, moved⟩ := possible
    rcases lt_trichotomy s.dataSegmentEnd.toNat ptr.toNat with above | same | below
    · exact .inl ⟨refused, segment.up (BitVec.lt_def.mpr above) (growing above)⟩
    · exact absurd (BitVec.eq_of_toNat_eq same.symm) moved
    · exact .inr ⟨refused, below, shrinking below⟩

/-- A call has one outcome. -/
theorem Segment.does_unique (segment : Segment s d held) {s₁ s₂ : ProcessControlBlock} {result₁ result₂ : Word}
    (one : Does s ptr s₁ result₁) (two : Does s ptr s₂ result₂) : s₁ = s₂ := by
  obtain ⟨fuel₁, p₁, ran₁⟩ := one ⟨⟨fun _ => 0#32⟩, fun _ _ => 0#32, fun _ => 0#32⟩
  obtain ⟨fuel₂, p₂, ran₂⟩ := two ⟨⟨fun _ => 0#32⟩, fun _ _ => 0#32, fun _ => 0#32⟩
  rcases segment.cases ptr with refused | ⟨asked, up⟩ | ⟨asked, down⟩
  · rw [segment.brk_refused refused] at ran₁ ran₂
    cases ran₁
    cases ran₂
    rfl
  · rw [up.brk_eq segment asked] at ran₁ ran₂
    obtain ⟨⟨vmemAlloc₁, block₁⟩, placed₁, outcome₁⟩ := Option.map_eq_some_iff.mp ran₁
    obtain ⟨⟨vmemAlloc₂, block₂⟩, placed₂, outcome₂⟩ := Option.map_eq_some_iff.mp ran₂
    have early := allocateBlocksAt_mono (Nat.le_max_left fuel₁ fuel₂) placed₁
    have late := allocateBlocksAt_mono (Nat.le_max_right fuel₁ fuel₂) placed₂
    cases early.symm.trans late
    cases outcome₁
    cases outcome₂
    rfl
  · rw [down.brk_eq segment asked] at ran₁ ran₂
    cases ran₁.symm.trans ran₂
    rfl

theorem Refused.meets (refused : Refused s ptr) : Meets s ptr := by
  intro asked d' found
  rcases refused with null | ⟨above, met⟩ | ⟨below, low⟩ | same
  · exact absurd null asked
  · refine ⟨fun _ unmet => absurd unmet met, fun below => ?_⟩
    exact absurd below (BitVec.lt_asymm above)
  · refine ⟨fun above => absurd above (BitVec.lt_asymm below), fun _ least => ?_⟩
    exact absurd low (BitVec.not_lt.mpr least)
  · rw [same]
    exact ⟨fun above => absurd above (BitVec.lt_irrefl _), fun below => absurd below (BitVec.lt_irrefl _)⟩

theorem Segment.meets_up (segment : Segment s d held) (up : Up s d ptr) (asked : ¬Refused s ptr) :
    Meets s ptr ↔ Grows s.memoryContext d (ptr - s.dataSegmentEnd) := by
  have above : s.dataSegmentEnd < ptr := BitVec.lt_def.mpr up.above
  simp only [Refused, not_or, not_and, not_not] at asked
  constructor
  · exact fun meets => (meets asked.1 d segment.find).1 above (asked.2.1 above)
  · intro grows _ d' found
    cases segment.find.symm.trans found
    exact ⟨fun _ _ => grows, fun below => absurd below (BitVec.lt_asymm above)⟩

theorem Segment.meets_down (segment : Segment s d held) (down : Down s ptr) (asked : ¬Refused s ptr) : Meets s ptr ↔
    pageCount (d.length + (ptr - s.dataSegmentEnd)).toNat = pageCount d.length.toNat := by
  have below : ptr < s.dataSegmentEnd := BitVec.lt_def.mpr down.below
  simp only [Refused, not_or, not_and, not_not] at asked
  constructor
  · exact fun meets => (meets asked.1 d segment.find).2 below (BitVec.le_def.mpr down.least)
  · intro same _ d' found
    cases segment.find.symm.trans found
    exact ⟨fun above => absurd above (BitVec.lt_asymm below), fun _ _ => same⟩

theorem Segment.settled (segment : Segment s d held) (ptr : Word) : Settled s held ptr := by
  rcases segment.cases ptr with refused | ⟨asked, up⟩ | ⟨asked, down⟩
  · refine .inl ⟨refused.meets, s, d, s.dataSegmentEnd,
      fun p => ⟨0, p, segment.brk_refused refused 0 p⟩, .inr ⟨rfl, rfl⟩, ?_⟩
    rw [segment.heldAfter_same]
    exact segment
  · by_cases meets : Meets s ptr
    · obtain ⟨s', d', does, moved, after⟩ := segment.grow up asked ((segment.meets_up up asked).mp meets)
      exact .inl ⟨meets, s', d', ptr, does, .inl ⟨moved, rfl⟩, after⟩
    · exact .inr ⟨meets, fun s' result does kept =>
        meets ((segment.meets_up up asked).mpr (segment.grows_of_kept up asked does kept))⟩
  · by_cases meets : Meets s ptr
    · obtain ⟨s', d', does, moved, after⟩ := segment.shrink down asked ((segment.meets_down down asked).mp meets)
      exact .inl ⟨meets, s', d', ptr, does, .inl ⟨moved, rfl⟩, after⟩
    · exact .inr ⟨meets, fun s' result does kept =>
        meets ((segment.meets_down down asked).mpr (segment.pages_of_kept down asked does kept))⟩

end Steps

section Runs

variable {s : ProcessControlBlock} {d : MemoryDescriptor} {held : Int → Prop}

theorem AllRight.kept {ptrs : List Word} (right : AllRight s held ptrs) : Kept s held := by
  cases ptrs with
  | nil => exact right
  | cons ptr rest => exact right.1

/-- From a data segment in order, every call of a run leaves it in order just when every call
meets its condition. -/
theorem Segment.allRight_iff (segment : Segment s d held) (ptrs : List Word) : AllRight s held ptrs ↔ MeetsAll s ptrs := by
  induction ptrs generalizing s d held with
  | nil => exact ⟨fun _ => trivial, fun _ => segment.kept⟩
  | cons ptr rest ih =>
    obtain ⟨meets, s', d', result, does, returned, after⟩ | ⟨fails, broken⟩ := segment.settled ptr
    · constructor
      · rintro ⟨-, s₁, result₁, does₁, -, right⟩
        refine ⟨meets, fun s₂ result₂ does₂ => ?_⟩
        cases segment.does_unique does does₁
        cases segment.does_unique does does₂
        exact (ih after).mp right
      · rintro ⟨-, later⟩
        exact ⟨segment.kept, s', result, does, returned, (ih after).mpr (later s' result does)⟩
    · constructor
      · rintro ⟨-, s', result, does, -, right⟩
        exact absurd right.kept (broken s' result does)
      · exact fun both => absurd both.1 fails

end Runs

section Execve

variable {fuel : Nat} {before s : ProcessControlBlock}

/-- What `execve` makes of a place for 128 pages. -/
def made (before : ProcessControlBlock) (ctx : MemoryContext) (start : Word) : ProcessControlBlock :=
  { setContext before (ctx.insertMemoryDescriptor ⟨start, 4096#32 * 128#32, ⟨true, true, false⟩, .anonymousMemory⟩) with
    dataSegmentStart := start
    dataSegmentEnd := start + 4096#32 }

theorem segment_made {ctx : MemoryContext} {start : Word} (laid : Laid before.memoryContext)
    (reserved : Reserved before.memoryContext ctx start (4096#32 * 128#32))
    (vacant : ∀ e ∈ before.memoryContext.descriptors, ∀ address,
      ¬(e.Covers address ∧ InRounded start (4096#32 * 128#32) address))
    (aligned : start.toNat % 4096 = 0) (low : 0x08000000 ≤ start.toNat) (top : start.toNat + 128 * 4096 ≤ 0x88000000)
    (free : ∀ block : Int, firstBlock start ≤ block → block < firstBlock start + 128 → (allocator before).Free block)
    (others : ∀ block : Int, (allocator before).Free block → ¬ctx.vmemAlloc.Free block →
      firstBlock start ≤ block ∧ block < firstBlock start + 128) :
    Segment (made before ctx start) ⟨start, 4096#32 * 128#32, ⟨true, true, false⟩, .anonymousMemory⟩
      (heldAfter (allocator before) (allocator (made before ctx start)) fun _ => False) := by
  have ending : (start + 4096#32).toNat = start.toNat + 4096 := by
    rw [BitVec.toNat_add, BitVec.toNat_ofNat]
    omega
  have bytes : (4096#32 * 128#32 : Word).toNat = 128 * 4096 := rfl
  have pages : pageCount (4096#32 * 128#32 : Word).toNat = 128 := by rw [bytes, pageCount]
  refine ⟨reserved.insert (d := ⟨start, 4096#32 * 128#32, ⟨true, true, false⟩, .anonymousMemory⟩) laid vacant,
    List.mem_append_right _ (List.mem_singleton_self _), rfl, aligned, low, ?_, ?_, ?_, fun block => ?_⟩
  · change start.toNat ≤ (start + 4096#32).toNat
    omega
  · change (4096#32 * 128#32 : Word).toNat = (start + 4096#32).toNat - start.toNat + 0x7F000
    omega
  · change start.toNat + pageCount (4096#32 * 128#32 : Word).toNat * 4096 ≤ 0x88000000
    rw [pages]
    exact top
  · change heldAfter _ ctx.vmemAlloc _ _ ↔
      (firstBlock start : Int) ≤ block ∧ block < firstBlock start + (pageCount (4096#32 * 128#32 : Word).toNat : Nat)
    rw [pages]
    constructor
    · rintro ⟨(nothing | wasFree), taken⟩
      · cases nothing
      · exact others block wasFree taken
    · rintro ⟨least, most⟩
      refine ⟨.inr (free block least most), ?_⟩
      obtain ⟨address, inside, inBlock⟩ := (exists_inBlock_iff (n := 128) aligned low block).mpr ⟨least, most⟩
      exact reserved.taken address block inside inBlock

/-- The state that `execve` leaves, where there is a place. -/
theorem Fits.segment (fits : Fits before) (left : UserProcessImage.allocateDataSegment fuel before = some (.ok s)) :
    ∃ d, Segment s d (heldAfter (allocator before) (allocator s) fun _ => False) := by
  obtain ⟨laid, room⟩ := fits
  have bytes : (4096#32 * 128#32 : Word).toNat = 128 * 4096 := rfl
  have rounded : roundToPageMultiples (4096#32 * 128#32) = 4096#32 * 128#32 := rfl
  have pages : pagesOf (4096#32 * 128#32) = 128 := rfl
  obtain ⟨⟨ctx, base, error⟩, placed, outcome⟩ := Option.map_eq_some_iff.mp left
  obtain ⟨⟨ctx₁, found⟩, extent, tried⟩ := Option.map_eq_some_iff.mp placed
  dsimp only at tried outcome
  by_cases refused : found = 0#32
  · -- the process goes on without an image, which is not the state that is left
    rw [if_pos refused] at tried
    cases tried
    cases outcome
  · rw [if_neg refused] at tried
    cases tried
    cases outcome
    refine ⟨⟨base, 4096#32 * 128#32, ⟨true, true, false⟩, .anonymousMemory⟩, ?_⟩
    by_cases null : before.dataSegmentStart = 0#32
    · rw [if_pos null] at room
      rw [findEmptyMemoryExtent, if_neg (not_not.mpr null), rounded] at extent
      obtain ⟨reserved, vacant⟩ := laid.allocVirtualMemory (show 0 < (4096#32 * 128#32 : Word).toNat by omega)
        (by omega) room extent
      obtain ⟨first, granted⟩ := laid.granted (show 1 ≤ pagesOf (4096#32 * 128#32) by omega) room extent
      have address := granted.base
      have low := granted.low
      have high := granted.high
      have atFirst : (firstBlock base : Int) = first := by
        rw [firstBlock]
        omega
      rw [pages] at high
      refine segment_made laid reserved vacant (by omega) (by omega) (by omega) (fun block least most => ?_)
        (fun block wasFree taken => ?_)
      · exact (granted.taken laid (by omega) (by omega)).1
      · have whole := granted.count block
        have counted : 0 < before.memoryContext.vmemAlloc.freeCount block := free_iff_freeCount.mp wasFree
        rw [free_iff_freeCount] at taken
        have inside : 0 < span first (first + pagesOf (4096#32 * 128#32)) block := by omega
        rw [span_pos_iff, pages] at inside
        omega
    · rw [if_neg null] at room
      obtain ⟨aligned, low, vacant, free, ready⟩ := room
      rw [findEmptyMemoryExtent, if_pos null, rounded] at extent
      dsimp only at extent
      by_cases none : (before.memoryContext.findMemoryDescriptorsByRange before.dataSegmentStart
          (before.dataSegmentStart + 4096#32 * 128#32)).isEmpty = true
      · rw [if_neg fun both => both.1 none, if_pos none] at extent
        obtain ⟨ctx₂, ran, same⟩ := Option.map_eq_some_iff.mp extent
        cases same
        obtain ⟨⟨vmemAlloc, block⟩, called, same⟩ := Option.map_eq_some_iff.mp ran
        cases same
        obtain ⟨fuel', vmemAlloc', placed', exactly, wellFormed⟩ :=
          (placement_exact_iff laid.wellFormed (by omega) free).mpr ready
        have early := allocateBlocksAt_mono (Nat.le_max_left fuel fuel') called
        have late := allocateBlocksAt_mono (Nat.le_max_right fuel fuel') placed'
        cases early.symm.trans late
        have outcome := allocateBlocksAt_outcome laid.wellFormed (by omega) placed'
        have first := blockOf_eq low
        have last := laid.wellFormed.free_inside (free (blockOf before.dataSegmentStart + 127) (by omega) (by omega))
        rw [laid.orders] at last
        have atFirst : (firstBlock before.dataSegmentStart : Int) = blockOf before.dataSegmentStart := first.symm
        have reserved : Reserved before.memoryContext { before.memoryContext with vmemAlloc := vmemAlloc }
            before.dataSegmentStart (4096#32 * 128#32) := by
          refine ⟨rfl, wellFormed, outcome.orders.trans laid.orders, outcome.fewer, ?_⟩
          intro address block inside inBlock isFree
          have range := (exists_inBlock_iff (n := 128) aligned low block).mp ⟨address, inside, inBlock⟩
          rw [firstBlock] at atFirst
          exact ((exactly block).mp isFree).2 ⟨by omega, by omega⟩
        refine segment_made laid reserved vacant aligned low (by omega)
          (fun block least most => free block (by omega) (by omega)) (fun block wasFree taken => ?_)
        by_contra outside
        exact taken ((exactly block).mpr ⟨wasFree, by omega⟩)
      · rw [if_pos ⟨none, rfl⟩] at extent
        cases extent
        exact absurd rfl refused

/-- **The data segment over runs of `brk`**: from the state that `execve` leaves, every call
moves the break or leaves it, and break, descriptor and reserved blocks agree after each,
just when every call meets its condition. -/
theorem brk_runs_iff (fits : Fits before) (left : UserProcessImage.allocateDataSegment fuel before = some (.ok s))
    (ptrs : List Word) :
    AllRight s (heldAfter (allocator before) (allocator s) fun _ => False) ptrs ↔ MeetsAll s ptrs := by
  obtain ⟨d, segment⟩ := fits.segment left
  exact segment.allRight_iff ptrs

theorem fits_default : Fits default :=
  ⟨laid_new, ⟨19, 0⟩, by decide, by decide⟩

/-- What `execve` leaves in a fresh process, with the break at 0x08001000. -/
def fresh : ProcessControlBlock :=
  made default { MemoryContext.new with vmemAlloc := (allocator default).takeFirst ⟨19, 0⟩ 128 } 0x08000000#32

theorem allocateDataSegment_default : UserProcessImage.allocateDataSegment 0 default = some (.ok fresh) := rfl

/-- Half of the first page is given up, and stays in the range. -/
theorem half_page_kept : AllRight fresh (heldAfter (allocator default) (allocator fresh) fun _ => False) [0x08000800#32] := by
  refine (brk_runs_iff fits_default allocateDataSegment_default [0x08000800#32]).mpr ⟨fun _ d found => ?_, fun _ _ _ => trivial⟩
  cases found
  exact ⟨fun above => absurd above (by decide), fun _ _ => by decide⟩

/-- The break moves down by a page: the page stays reserved. It moves down by half a page and
up again: a page behind the range is reserved. -/
theorem half_page_leaks :
    ¬AllRight fresh (heldAfter (allocator default) (allocator fresh) fun _ => False) [0x08000000#32] ∧
      ¬AllRight fresh (heldAfter (allocator default) (allocator fresh) fun _ => False) [0x08000800#32, 0x08001000#32] := by
  obtain ⟨d, segment⟩ := fits_default.segment allocateDataSegment_default
  rw [segment.allRight_iff, segment.allRight_iff]
  refine ⟨fun meetsAll => ?_, fun meetsAll => ?_⟩
  · have same := (meetsAll.1 (by decide) _ rfl).2 (by decide) (by decide)
    revert same
    decide
  · obtain ⟨meets, -⟩ := meetsAll.2 _ _ fun p => ⟨0, p, rfl⟩
    have room := ((meets (by decide) _ rfl).1 (by decide) (by decide)).2
    rw [if_pos (by decide)] at room
    refine room ?_
    rw [free_iff_freeCount]
    decide +kernel

end Execve

end FluxOS.DataSegment
