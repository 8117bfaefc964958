import FluxOS.MemoryUAPI
import FluxOS.Reservation
import Mathlib.Algebra.Order.BigOperators.Group.List

/-! `mmap` at an address of the allocator's choice, and `munmap` of what it mapped, once
and again and again: nothing tells the allocator that the pages are free. -/
namespace FluxOS
open Words PagingManager DyadicChunks

namespace BuddyAllocator

/-- How many blocks are free, a block that is in two free chunks counted twice. -/
def freePages (s : BuddyAllocator) : Int := (s.freeChunks.map fun c => (2 : Int) ^ c.order).sum

theorem freePages_nonneg (s : BuddyAllocator) : 0 ≤ s.freePages := by
  apply List.sum_nonneg
  intro size member
  obtain ⟨c, -, rfl⟩ := List.mem_map.mp member
  positivity

theorem sum_downward (j : Nat) (length stop : Int) :
    ((downward j length stop).map fun c => (2 : Int) ^ c.order).sum = length % 2 ^ j := by
  induction j generalizing length stop with
  | zero => rw [pow_zero, Int.emod_one]; rfl
  | succ j ih =>
    rw [emod_two_pow_succ]
    simp only [downward]
    split
    · rw [List.map_cons, List.sum_cons, ih, sub_two_pow_emod]
      ring
    · rw [ih, add_zero]

/-- The blocks that are taken are gone from the free ones. -/
theorem freePages_takeFirst {s : BuddyAllocator} {n : Int} (positive : 1 ≤ n) {c : Chunk} (member : c ∈ s.freeChunks)
    (large : n ≤ 2 ^ c.order) : (s.takeFirst c n).freePages + n = s.freePages := by
  have bound := (mem_freeChunks.mp member).1
  have rest : (2 ^ c.order - n) % 2 ^ c.order = 2 ^ c.order - n := Int.emod_eq_of_lt (by omega) (by omega)
  have removed := ((freeChunks_removeNode member).map fun c => (2 : Int) ^ c.order).sum_eq
  have given := ((freeChunks_releaseTail (s := s.removeNode c.order c.start) bound.le (c.start + n)
    (2 ^ c.order - n)).map fun c => (2 : Int) ^ c.order).sum_eq
  rw [List.map_cons, List.sum_cons] at removed
  rw [List.map_append, List.sum_append, sum_downward, rest] at given
  rw [freePages, freePages, takeFirst, given, removed]
  ring

/-- No blocks at all: the search would start below the first list. -/
theorem allocateBlocks_zero (s : BuddyAllocator) : s.allocateBlocks 0 = none := by
  have none (maxLog : Nat) : log2i 0 maxLog = -1 := by
    induction maxLog with
    | zero => rfl
    | succ i ih =>
      rw [log2i, ih]
      simp [bit]
  rw [allocateBlocks, startIndex, none]
  rfl

end BuddyAllocator

namespace MemoryUAPI
open MemoryContext BuddyAllocator

/-- What `mmap` accepts for anonymous memory anywhere. -/
structure AnonymousRequest where
  length : Word
  prot : Word
  flags : Word
  fd : Int
  offset : Word
  nonempty : length ≠ 0#32
  anonymous : has flags mapAnonymous = true
  sharing : ¬(flags &&& (mapPrivate ||| mapShared) = mapPrivate ||| mapShared ∨ flags &&& (mapPrivate ||| mapShared) = 0#32)

namespace AnonymousRequest

/-- The pages that the allocator is asked for. -/
def pages (request : AnonymousRequest) : Int := pagesOf (roundToPageMultiples request.length)

end AnonymousRequest

/-- `mmap` of NULL, and `munmap` of the range that it returned. -/
def mapAndUnmap (fuel : Nat) (process : ProcessControlBlock) (p : Paging) (request : AnonymousRequest) :
    Option (ProcessControlBlock × Paging) := do
  let (mapped, addr) ← mmap fuel process 0#32 request.length request.prot request.flags request.fd request.offset
  let (after, p, _) ← munmap mapped p addr request.length
  return (after, p)

/-- The allocator of a process's address space. -/
abbrev allocator (process : ProcessControlBlock) : BuddyAllocator := process.memoryContext.vmemAlloc

section Pair

variable {process after : ProcessControlBlock} {p p' : Paging} {fuel : Nat} {request : AnonymousRequest}

/-- Only `mmap` asks the allocator for anything. -/
theorem allocator_mapAndUnmap (done : mapAndUnmap fuel process p request = some (after, p')) :
    ∃ first, (allocator process).allocateBlocks request.pages = some (allocator after, first) := by
  simp only [mapAndUnmap, Option.bind_eq_bind, Option.bind_eq_some_iff] at done
  obtain ⟨⟨mapped, addr⟩, mapping, ⟨unmapped, p₁, result⟩, unmapping, same⟩ := done
  cases same
  have kept : allocator unmapped = allocator mapped := by
    rw [munmap, releaseAll_eq, Option.map_map] at unmapping
    obtain ⟨_, -, outcome⟩ := Option.map_eq_some_iff.mp unmapping
    cases outcome
    rfl
  rw [mmap, if_neg request.sharing, if_neg request.nonempty, if_pos request.anonymous] at mapping
  obtain ⟨⟨ctx, newAddr, error⟩, placed, outcome⟩ := Option.map_eq_some_iff.mp mapping
  cases outcome
  obtain ⟨⟨ctx₁, found⟩, extent, outcome⟩ := Option.map_eq_some_iff.mp placed
  have same : ctx.vmemAlloc = ctx₁.vmemAlloc := by
    dsimp only at outcome
    split at outcome <;> cases outcome <;> rfl
  obtain ⟨⟨vmemAlloc, first⟩, taken, granted⟩ := Option.map_eq_some_iff.mp extent
  have kept' : vmemAlloc = ctx₁.vmemAlloc := congrArg (fun result => result.1.vmemAlloc) granted
  have final : allocator unmapped = vmemAlloc := kept.trans (same.trans kept'.symm)
  exact ⟨first, by rw [final]; exact taken⟩

theorem AnonymousRequest.pages_bounds (request : AnonymousRequest) : 0 ≤ request.pages ∧ request.pages < 2 ^ 20 := by
  have bound : (roundToPageMultiples request.length).toNat < 2 ^ 32 := BitVec.isLt _
  have count : request.pages = ((roundToPageMultiples request.length).toNat / 4096 : Nat) := pagesOf_eq _
  omega

/-- Where the allocator has room the pages are taken for good, and else nothing happens to it. -/
theorem mapAndUnmap_cases (orders : (allocator process).orders = 20)
    (done : mapAndUnmap fuel process p request = some (after, p')) :
    (¬process.memoryContext.HasRoom request.pages ∧ allocator after = allocator process) ∨
      (process.memoryContext.HasRoom request.pages ∧ 1 ≤ request.pages ∧ ∃ c ∈ (allocator process).freeChunks,
        request.pages ≤ 2 ^ c.order ∧ allocator after = (allocator process).takeFirst c request.pages) := by
  obtain ⟨first, called⟩ := allocator_mapAndUnmap done
  obtain ⟨least, most⟩ := request.pages_bounds
  have some : 1 ≤ request.pages := by
    by_contra none
    have zero : request.pages = 0 := by omega
    rw [zero, allocateBlocks_zero] at called
    cases called
  have width : (allocator process).orders < 32 := by omega
  have small : request.pages < 2 ^ ((allocator process).orders + 1) := by
    rw [orders]
    omega
  obtain ⟨refused, none⟩ | ⟨c, member, fits, granted⟩ := allocateBlocks_cases width some small
  · have same := (Prod.mk.inj (Option.some.inj (called.symm.trans refused))).1
    refine .inl ⟨?_, same⟩
    rintro ⟨c, member, fits⟩
    exact absurd fits (Nat.not_le.mpr (none c member))
  · have same := (Prod.mk.inj (Option.some.inj (called.symm.trans granted))).1
    exact .inr ⟨⟨c, member, fits⟩, some, c, member, le_two_pow_clog some fits, same⟩

/-- Each block stands in the free chunks as often as before. -/
def SameFree (s s' : BuddyAllocator) : Prop := ∀ block, s'.freeCount block = s.freeCount block

theorem sameFree_iff (orders : (allocator process).orders = 20)
    (done : mapAndUnmap fuel process p request = some (after, p')) :
    SameFree (allocator process) (allocator after) ↔ ¬process.memoryContext.HasRoom request.pages := by
  obtain ⟨none, same⟩ | ⟨room, some, c, member, large, taken⟩ := mapAndUnmap_cases orders done
  · exact iff_of_true (fun block => by rw [same]) none
  · refine iff_of_false (fun same => ?_) (not_not_intro room)
    have count := freeCount_takeFirst some member large c.start
    have here : 0 < span c.start (c.start + request.pages) c.start := span_pos_iff.mpr ⟨le_rfl, by omega⟩
    have kept := same c.start
    rw [taken] at kept
    omega

/-- No block stands there twice: then it is a question of which blocks are free. -/
theorem sameFree_iff_free (wellFormed : (allocator process).WellFormed) (orders : (allocator process).orders = 20)
    (done : mapAndUnmap fuel process p request = some (after, p')) :
    SameFree (allocator process) (allocator after) ↔ ∀ block, (allocator after).Free block ↔ (allocator process).Free block := by
  refine ⟨fun same block => by rw [free_iff_freeCount, free_iff_freeCount, same block], fun free block => ?_⟩
  have fewer : (allocator after).freeCount block ≤ (allocator process).freeCount block := by
    obtain ⟨-, same⟩ | ⟨-, some, c, member, large, taken⟩ := mapAndUnmap_cases orders done
    · rw [same]
    · have count := freeCount_takeFirst some member large block
      rw [taken]
      omega
  have once := wellFormed.once block
  have both := free block
  rw [free_iff_freeCount, free_iff_freeCount] at both
  omega

end Pair

/-- So many pairs of calls one after the other, whatever happens to the pages between them.
Each `mmap` finds room. -/
inductive Cycles (first : ProcessControlBlock) : Nat → ProcessControlBlock → Prop
  | start : Cycles first 0 first
  | pair {k fuel : Nat} {process after : ProcessControlBlock} {p p' : Paging} {request : AnonymousRequest}
      (run : Cycles first k process) (room : process.memoryContext.HasRoom request.pages)
      (done : mapAndUnmap fuel process p request = some (after, p')) : Cycles first (k + 1) after

/-- Each pair costs a page at least. -/
theorem Cycles.spent {first last : ProcessControlBlock} {k : Nat} (run : Cycles first k last)
    (orders : (allocator first).orders = 20) :
    (allocator last).orders = 20 ∧ k + (allocator last).freePages ≤ (allocator first).freePages := by
  induction run with
  | start => exact ⟨orders, by simp⟩
  | pair _ room done ih =>
    obtain ⟨before, spent⟩ := ih
    obtain ⟨none, -⟩ | ⟨-, some, c, member, large, taken⟩ := mapAndUnmap_cases before done
    · exact absurd room none
    · have fewer := freePages_takeFirst some member large
      rw [taken]
      refine ⟨by simpa using before, ?_⟩
      push_cast
      omega

/-- `munmap` of what `mmap` returned gives the same free blocks back only where `mmap` took
none, because there was no room; and a process can do no more such pairs of calls than it
has free pages. -/
theorem given_back_iff {process after : ProcessControlBlock} {p p' : Paging} {fuel : Nat} {request : AnonymousRequest}
    (orders : (allocator process).orders = 20) (done : mapAndUnmap fuel process p request = some (after, p')) :
    (SameFree (allocator process) (allocator after) ↔ ¬process.memoryContext.HasRoom request.pages) ∧
      ((allocator process).WellFormed → ((∀ block, (allocator after).Free block ↔ (allocator process).Free block) ↔
        ¬process.memoryContext.HasRoom request.pages)) ∧
      ∀ k last, Cycles process k last → k ≤ (allocator process).freePages := by
  refine ⟨sameFree_iff orders done, fun wellFormed => ?_, fun k last run => ?_⟩
  · rw [← sameFree_iff_free wellFormed orders done]
    exact sameFree_iff orders done
  · have spent := (run.spent orders).2
    have nonneg := (allocator last).freePages_nonneg
    omega

/-- One page of anonymous memory. -/
def onePage : AnonymousRequest where
  length := 0x1000#32
  prot := 3#32
  flags := 0x22#32
  fd := -1
  offset := 0#32
  nonempty := by decide
  anonymous := by decide
  sharing := by decide

/-- Page tables without pages. -/
def noPages : Paging := ⟨⟨fun _ => 0#32⟩, fun _ _ => 0#32, fun _ => PagingManager.present⟩

/-- A fresh process maps one page and unmaps it: the allocator has one free page less. -/
theorem page_lost : ∃ after p', mapAndUnmap 0 default noPages onePage = some (after, p') ∧
    (allocator (default : ProcessControlBlock)).Free 0 ∧ ¬(allocator after).Free 0 := by
  refine ⟨_, _, rfl, ?_, ?_⟩
  · rw [free_iff_freeCount]
    decide +kernel
  · rw [free_iff_freeCount]
    decide +kernel

theorem one_page_not_given_back : ∃ after p', mapAndUnmap 0 default noPages onePage = some (after, p') ∧
    ¬SameFree (allocator default) (allocator after) := by
  obtain ⟨after, p', done⟩ : ∃ after p', mapAndUnmap 0 default noPages onePage = some (after, p') := ⟨_, _, rfl⟩
  have whole : (⟨19, 0⟩ : DyadicChunks.Chunk) ∈ MemoryContext.new.vmemAlloc.freeChunks := by decide
  have room : (default : ProcessControlBlock).memoryContext.HasRoom onePage.pages := ⟨⟨19, 0⟩, whole, by decide⟩
  exact ⟨after, p', done, fun same => (given_back_iff (by decide) done).1.mp same room⟩

end MemoryUAPI
end FluxOS
