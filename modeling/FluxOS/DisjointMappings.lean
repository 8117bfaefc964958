import FluxOS.MemoryUAPI
import FluxOS.Reservation

/-! The mappings of one process over any run of `mmap`, `munmap` and `brk`. The
scan for mappings that overlap looks at where they end only, a mere hint is
followed into mappings that are there, and the allocator is not always told what
is mapped, so that it hands the same pages out again later. Runs whose calls meet
none of this keep the mappings disjoint. -/
namespace FluxOS
open Words PagingManager BuddyAllocator

namespace MemoryContext
open MemoryDescriptor

/-- A new mapping can be placed: the allocator has room for it; or, at a given
address, `FixedHint` is refused because a mapping ends there, or the range meets no
mapping and the allocator takes the free blocks under it. It is not asked to where
a mapping ends in the range. -/
def Placeable (ctx : MemoryContext) (addr length : Word) (hints : MemoryAllocationHints) : Prop :=
  if addr = 0#32 then length.toNat ≤ 0xFFFFF000 ∧ ctx.HasRoom (pagesOf (roundToPageMultiples length))
  else
    let ending := ctx.findMemoryDescriptorsByRange addr (addr + length)
    (ending ≠ [] ∧ hints = .fixedHint) ∨
      length.toNat ≤ 0xFFFFF000 ∧
        (∀ d ∈ ctx.descriptors, ∀ address, ¬(d.Covers address ∧ InRounded addr length address)) ∧
          if ending = [] then ctx.PlacementTakes addr (roundToPageMultiples length) addr length
          else ∀ address block, InRounded addr length address → InBlock block address → ¬ ctx.vmemAlloc.Free block

/-- What looking for an extent comes to where one can be placed. -/
inductive ExtentFound (ctx : MemoryContext) (length : Word) : MemoryContext × Word → Prop where
  | refused : ExtentFound ctx length (ctx, 0#32)
  | found (ctx' : MemoryContext) (base : Word) (reserved : Reserved ctx ctx' base length)
      (vacant : ∀ d ∈ ctx.descriptors, ∀ address, ¬(d.Covers address ∧ InRounded base length address)) :
      ExtentFound ctx length (ctx', base)

private theorem one_le_pagesOf {length : Word} (nonempty : 0 < length.toNat) (rounds : length.toNat ≤ 0xFFFFF000) :
    1 ≤ pagesOf (roundToPageMultiples length) := by
  have size := toNat_roundToPageMultiples length
  have pages := pagesOf_eq (roundToPageMultiples length)
  omega

theorem Laid.findEmptyMemoryExtent {ctx : MemoryContext} (laid : Laid ctx) {fuel : Nat} {addr length : Word}
    {hints : MemoryAllocationHints} {result : MemoryContext × Word} (nonempty : 0 < length.toNat)
    (placeable : ctx.Placeable addr length hints)
    (ran : ctx.findEmptyMemoryExtent fuel addr length hints = some result) : ExtentFound ctx length result := by
  rw [Placeable] at placeable
  by_cases anywhere : addr = 0#32
  · rw [if_pos anywhere] at placeable
    obtain ⟨rounds, room⟩ := placeable
    rw [MemoryContext.findEmptyMemoryExtent, if_neg (not_not.mpr anywhere)] at ran
    obtain ⟨ctx', base⟩ := result
    obtain ⟨reserved, vacant⟩ := laid.allocVirtualMemory nonempty rounds room ran
    exact .found ctx' base reserved vacant
  · rw [if_neg anywhere] at placeable
    rw [MemoryContext.findEmptyMemoryExtent, if_pos anywhere] at ran
    cases ending : ctx.findMemoryDescriptorsByRange addr (addr + length) with
    | nil =>
      simp only [ending, List.isEmpty_nil, not_true_eq_false, false_and, if_false, if_true] at ran
      simp only [ending, ne_eq, not_true_eq_false, false_and, false_or, if_true] at placeable
      obtain ⟨ctx', placed, rfl⟩ := Option.map_eq_some_iff.mp ran
      obtain ⟨rounds, vacant, takes⟩ := placeable
      exact .found ctx' addr (laid.allocVirtualMemoryAt (one_le_pagesOf nonempty rounds) takes placed) vacant
    | cons d rest =>
      simp only [ending, List.isEmpty_cons, Bool.false_eq_true, not_false_eq_true, true_and, if_false] at ran
      simp only [ending, ne_eq, List.cons_ne_nil, not_false_eq_true, true_and, if_false] at placeable
      by_cases fixed : hints = .fixedHint
      · rw [if_pos fixed, Option.some.injEq] at ran
        subst ran
        exact .refused
      · rw [if_neg fixed, Option.some.injEq] at ran
        subst ran
        obtain ⟨-, vacant, unmanaged⟩ := placeable.resolve_left fixed
        exact .found ctx addr ⟨rfl, laid.wellFormed, laid.orders, fun block free => free, unmanaged⟩ vacant

/-- The descriptor that goes into an extent that was found, at NULL none. -/
theorem ExtentFound.insert {ctx ctx' : MemoryContext} {length base : Word}
    (found : ExtentFound ctx length (ctx', base)) (laid : Laid ctx) (permissions : Permissions)
    (kind : DescriptorKind) :
    Laid ctx' ∧ (base ≠ 0#32 → Laid (ctx'.insertMemoryDescriptor ⟨base, length, permissions, kind⟩)) := by
  cases found with
  | refused => exact ⟨laid, fun nonzero => absurd rfl nonzero⟩
  | found _ _ reserved vacant =>
    refine ⟨?_, fun _ => Reserved.insert laid reserved vacant⟩
    exact laid.mono (reserved.descriptors ▸ List.Sublist.refl _) reserved.wellFormed reserved.orders reserved.fewer

/-- So it is with either answer to a request. -/
theorem ExtentFound.answer {Answer : Type} {ctx ctx' after : MemoryContext} {length base : Word} {refusal grant answer : Answer}
    (found : ExtentFound ctx length (after, base)) (laid : Laid ctx) {permissions : Permissions} {kind : DescriptorKind}
    (outcome : (if base = 0#32 then (after, refusal)
      else (after.insertMemoryDescriptor ⟨base, length, permissions, kind⟩, grant)) = (ctx', answer)) : Laid ctx' := by
  obtain ⟨unused, used⟩ := found.insert laid permissions kind
  by_cases refused : base = 0#32
  · rw [if_pos refused, Prod.mk.injEq] at outcome
    exact outcome.1 ▸ unused
  · rw [if_neg refused, Prod.mk.injEq] at outcome
    exact outcome.1 ▸ used refused

theorem Laid.allocateAnonymousMemoryAnywhere {ctx ctx' : MemoryContext} (laid : Laid ctx) {fuel : Nat}
    {addr length found error : Word} {permissions : Permissions} {hints : MemoryAllocationHints}
    (nonempty : 0 < length.toNat) (placeable : ctx.Placeable addr length hints)
    (did : ctx.allocateAnonymousMemoryAnywhere fuel addr length permissions hints = some (ctx', found, error)) :
    Laid ctx' := by
  obtain ⟨⟨after, base⟩, ran, outcome⟩ := Option.map_eq_some_iff.mp did
  exact (laid.findEmptyMemoryExtent nonempty placeable ran).answer laid outcome

theorem Laid.mapFileSegmentToMemory {ctx ctx' : MemoryContext} (laid : Laid ctx) {fuel : Nat} {node : VNode}
    {addr length fileOffset address : Word} {permissions : Permissions} (nonempty : 0 < length.toNat)
    (placeable : ctx.Placeable addr length .fixedHint)
    (did : ctx.mapFileSegmentToMemory fuel node addr length fileOffset permissions = some (ctx', address)) :
    Laid ctx' := by
  obtain ⟨⟨after, base⟩, ran, outcome⟩ := Option.map_eq_some_iff.mp did
  exact (laid.findEmptyMemoryExtent nonempty placeable ran).answer laid outcome

private theorem freeBlocks_zero (s : BuddyAllocator) (block : Int) : s.freeBlocks block 0 = some s := by
  have low : ∀ bits, freeLowBits (block + 0) bits s block = some (s, block) := by
    intro bits
    induction bits with
    | zero => rfl
    | succ bits ih =>
      have power : (0 : Int) < 2 ^ (31 - bits) := by positivity
      rw [freeLowBits, if_neg fun both => by omega]
      exact ih
  have high : ∀ bits, freeHighBits 0 bits s block = some s := by
    intro bits
    induction bits with
    | zero => rfl
    | succ bits ih =>
      rw [freeHighBits, if_neg (by simp [DyadicChunks.bit])]
      exact ih
  rw [freeBlocks, low]
  simpa using high 33

theorem freeVirtualMemory_zero (ctx : MemoryContext) (address : Word) :
    ctx.freeVirtualMemory address 0#32 = some ctx := by
  rw [freeVirtualMemory, show ((0#32 : Word) >>> 12).toInt = 0 from rfl, freeBlocks_zero, Option.map_some]

/-- What is cut off by less than a page stays in its old range. -/
private theorem inRounded_shrunk {base length increment : Word} (small : (-increment).toNat < 4096)
    (rounds : length.toNat ≤ 0xFFFFF000) {address : Nat} (inside : InRounded base (length + increment) address) :
    InRounded base length address := by
  have before := toNat_roundToPageMultiples length
  have after := toNat_roundToPageMultiples (length + increment)
  rw [BitVec.toNat_neg] at small
  rw [BitVec.toNat_add] at after
  have bound := increment.isLt
  simp only [InRounded] at inside ⊢
  omega

/-- A descriptor that loses less than a page keeps its pages, so nothing else changes. -/
private theorem Laid.shrink {ctx : MemoryContext} (laid : Laid ctx) {d : MemoryDescriptor} {increment address : Word}
    (member : d ∈ ctx.descriptors) (contained : d.contains address) (small : (-increment).toNat < 4096) :
    Laid { ctx with descriptors := ctx.descriptors.replace d { d with length := d.length + increment } } := by
  have covered := Covers.of_contains contained
  have rounds : d.length.toNat ≤ 0xFFFFF000 := by
    have lower := toNat_roundToPageMultiples d.length
    have low := covered.1
    have high := covered.2
    have bound := d.length.isLt
    omega
  have reserved : Reserved ctx ctx d.baseAddress (d.length + increment) :=
    ⟨rfl, laid.wellFormed, laid.orders, fun block free => free, fun address block inside inBlock =>
      laid.unclaimed d member address block (inRounded_shrunk small rounds inside) inBlock⟩
  refine reserved.replace laid member covered fun e eMember different address both => ?_
  exact different (laid.disjoint.eq_of_covers eMember member both.1 (inRounded_shrunk small rounds both.2))

/-- The extent of the descriptor that an address is found in is resized: it grows
into a range that can be had, or shrinks by less than a page. -/
theorem Laid.resizeExtent {ctx ctx' : MemoryContext} (laid : Laid ctx) {fuel : Nat} {p p' : Paging}
    {d : MemoryDescriptor} {increment address : Word} (member : d ∈ ctx.descriptors) (contained : d.contains address)
    (grows : (0#32).slt increment →
      (∀ e ∈ ctx.descriptors, e ≠ d → ∀ address,
        ¬(e.Covers address ∧ InRounded d.baseAddress (d.length + increment) address)) ∧
      ctx.PlacementTakes (roundToPageMultiples (d.baseAddress + d.length)) (roundToPageMultiples increment)
        d.baseAddress (d.length + increment))
    (shrinks : ¬(0#32).slt increment → (-increment).toNat < 4096)
    (did : ctx.resizeExtent fuel p d increment = some (ctx', p')) : Laid ctx' := by
  simp only [MemoryContext.resizeExtent] at did
  by_cases up : (0#32).slt increment
  · rw [if_pos up] at did
    obtain ⟨vacant, takes⟩ := grows up
    obtain ⟨after, placed, outcome⟩ := Option.map_eq_some_iff.mp did
    rw [Prod.mk.injEq] at outcome
    have positive : 1 ≤ pagesOf (roundToPageMultiples increment) := by
      have sign : 0 < increment.toInt := by simpa [BitVec.slt] using up
      rw [BitVec.toInt_eq_toNat_cond] at sign
      have bound := increment.isLt
      exact one_le_pagesOf (by omega) (by omega)
    rw [← outcome.1]
    exact (laid.allocVirtualMemoryAt positive takes placed).replace laid member (Covers.of_contains contained) vacant
  · rw [if_neg up] at did
    have small := shrinks up
    have resized := laid.shrink member contained small
    by_cases down : increment.slt 0#32
    · -- less than a page is never given back
      have whole : -increment &&& ~~~0xFFF#32 = 0#32 := by
        refine BitVec.eq_of_toNat_eq ?_
        rw [show ~~~0xFFF#32 = 0xFFFFF000#32 from rfl, toNat_and_page, BitVec.toNat_ofNat]
        omega
      rw [if_pos down, whole, freeVirtualMemory_zero] at did
      cases removed : (removePages p (roundToPageMultiples (d.baseAddress + d.length) - 0#32) 0#32).toOption with
      | none =>
        rw [removed] at did
        cases did
      | some after =>
        rw [removed, Option.some.injEq, Prod.mk.injEq] at did
        exact did.1 ▸ resized
    · rw [if_neg down, Option.some.injEq, Prod.mk.injEq] at did
      exact did.1 ▸ resized

end MemoryContext

/-- A memory call with its arguments. -/
inductive MemoryCall where
  | mmap (addr length prot flags : Word) (fd : Int) (offset : Word)
  | munmap (addr length : Word)
  | brk (ptr : Word)

namespace MemoryCall
open MemoryContext MemoryUAPI

/-- The call returns with the process so. The page tables are as the page faults
before it left them. -/
def Does (s : ProcessControlBlock) : MemoryCall → ProcessControlBlock → Prop
  | mmap addr length prot flags fd offset, s' => ∃ fuel r,
    MemoryUAPI.mmap fuel s addr length prot flags fd offset = some (s', r)
  | munmap addr length, s' => ∃ p p' r, MemoryUAPI.munmap s p addr length = some (s', p', r)
  | brk ptr, s' => ∃ fuel p p' r, MemoryUAPI.brk fuel s p ptr = some (s', p', r)

/-- `mmap` gets past its checks: one of the two kinds of sharing, a length, and
anonymous memory or an open file. -/
def Accepted (s : ProcessControlBlock) (length flags : Word) (fd : Int) : Prop :=
  flags &&& (mapPrivate ||| mapShared) ≠ mapPrivate ||| mapShared ∧ flags &&& (mapPrivate ||| mapShared) ≠ 0#32 ∧
    length ≠ 0#32 ∧ (has flags mapAnonymous ∨ FSUAPI.descriptor s.openFiles fd ≠ none)

/-- The hint an accepted `mmap` searches with: files are always mapped with `FixedHint`. -/
def hintsOf (flags : Word) : MemoryAllocationHints :=
  if has flags mapAnonymous ∧ ¬ has flags mapFixed then .noHints else .fixedHint

/-- The condition on a call. A new mapping can be placed. The break is asked for
(NULL), or its change is refused (for a mapping that ends in the new range, or below
the start of the segment), or it grows into a range that meets no other mapping and
whose free blocks the allocator takes, or it shrinks by less than a page. -/
def KeepsApart (s : ProcessControlBlock) : MemoryCall → Prop
  | mmap addr length _ flags fd _ => Accepted s length flags fd →
    s.memoryContext.Placeable addr length (hintsOf flags)
  | munmap _ _ => True
  | brk ptr => ptr ≠ 0#32 → ∀ d, s.memoryContext.findMemoryDescriptor s.dataSegmentStart = some d →
    let increment := ptr - s.dataSegmentEnd
    (s.dataSegmentEnd < ptr ∧ s.memoryContext.countDescriptorsByRange s.dataSegmentEnd ptr ≠ 0) ∨
      (ptr < s.dataSegmentEnd ∧ ptr < s.dataSegmentStart) ∨
      if (0#32).slt increment then
        (∀ e ∈ s.memoryContext.descriptors, e ≠ d → ∀ address,
          ¬(e.Covers address ∧ InRounded d.baseAddress (d.length + increment) address)) ∧
        s.memoryContext.PlacementTakes (roundToPageMultiples (d.baseAddress + d.length))
          (roundToPageMultiples increment) d.baseAddress (d.length + increment)
      else (-increment).toNat < 4096

/-- A run of memory calls that meet the condition. Between them, what is not the
memory context of the process may change. -/
inductive Run (condition : ProcessControlBlock → MemoryCall → Prop) (first : ProcessControlBlock) :
    ProcessControlBlock → Prop where
  | start : Run condition first first
  | called {s s' : ProcessControlBlock} (run : Run condition first s) (call : MemoryCall) (meets : condition s call)
      (did : Does s call s') : Run condition first s'
  | between {s s' : ProcessControlBlock} (run : Run condition first s) (same : s'.memoryContext = s.memoryContext) :
      Run condition first s'

/-! ## What one call preserves -/

private theorem laid_mmap {s s' : ProcessControlBlock} (laid : Laid s.memoryContext) {fuel : Nat}
    {addr length prot flags offset r : Word} {fd : Int}
    (meets : Accepted s length flags fd → s.memoryContext.Placeable addr length (hintsOf flags))
    (did : MemoryUAPI.mmap fuel s addr length prot flags fd offset = some (s', r)) : Laid s'.memoryContext := by
  simp only [MemoryUAPI.mmap] at did
  by_cases sharing : flags &&& (mapPrivate ||| mapShared) = mapPrivate ||| mapShared ∨
      flags &&& (mapPrivate ||| mapShared) = 0#32
  · rw [if_pos sharing, Option.some.injEq, Prod.mk.injEq] at did
    exact did.1 ▸ laid
  rw [if_neg sharing] at did
  by_cases empty : length = 0#32
  · rw [if_pos empty, Option.some.injEq, Prod.mk.injEq] at did
    exact did.1 ▸ laid
  rw [if_neg empty] at did
  have nonempty : 0 < length.toNat := toNat_pos empty
  obtain ⟨notBoth, notNone⟩ := not_or.mp sharing
  by_cases anonymous : has flags mapAnonymous
  · rw [if_pos anonymous] at did
    have placeable := meets ⟨notBoth, notNone, empty, .inl anonymous⟩
    have hints : hintsOf flags = if has flags mapFixed then .fixedHint else .noHints := by
      by_cases fixed : has flags mapFixed <;> simp [hintsOf, anonymous, fixed]
    rw [← hints] at did
    obtain ⟨⟨ctx, newAddr, error⟩, allocated, same⟩ := Option.map_eq_some_iff.mp did
    rw [Prod.mk.injEq] at same
    exact same.1 ▸ laid.allocateAnonymousMemoryAnywhere nonempty placeable allocated
  · rw [if_neg anonymous] at did
    cases opened : FSUAPI.descriptor s.openFiles fd with
    | none =>
      rw [opened, Option.some.injEq, Prod.mk.injEq] at did
      exact did.1 ▸ laid
    | some fdesc =>
      rw [opened] at did
      have placeable := meets ⟨notBoth, notNone, empty, .inr (by rw [opened]; exact Option.some_ne_none _)⟩
      have hints : hintsOf flags = .fixedHint := by simp [hintsOf, anonymous]
      rw [hints] at placeable
      obtain ⟨⟨ctx, address⟩, mapped, same⟩ := Option.map_eq_some_iff.mp did
      rw [Prod.mk.injEq] at same
      exact same.1 ▸ laid.mapFileSegmentToMemory nonempty placeable mapped

private theorem laid_munmap {s s' : ProcessControlBlock} (laid : Laid s.memoryContext) {p p' : Paging}
    {addr length r : Word} (did : MemoryUAPI.munmap s p addr length = some (s', p', r)) : Laid s'.memoryContext := by
  rw [MemoryUAPI.munmap, releaseAll_eq] at did
  obtain ⟨⟨ctx, after⟩, released, same⟩ := Option.map_eq_some_iff.mp did
  obtain ⟨last, -, outcome⟩ := Option.map_eq_some_iff.mp released
  rw [Prod.mk.injEq] at same outcome
  rw [← same.1, ← outcome.1]
  exact laid.mono (List.diff_sublist _ _) laid.wellFormed laid.orders fun block free => free

private theorem laid_brk {s s' : ProcessControlBlock} (laid : Laid s.memoryContext) {fuel : Nat} {p p' : Paging}
    {ptr r : Word} (meets : KeepsApart s (.brk ptr)) (did : MemoryUAPI.brk fuel s p ptr = some (s', p', r)) :
    Laid s'.memoryContext := by
  rw [MemoryUAPI.brk] at did
  by_cases null : ptr = 0#32
  · rw [if_pos null, Option.some.injEq, Prod.mk.injEq] at did
    exact did.1 ▸ laid
  rw [if_neg null] at did
  cases found : s.memoryContext.findMemoryDescriptor s.dataSegmentStart with
  | none =>
    rw [found, Option.some.injEq, Prod.mk.injEq] at did
    exact did.1 ▸ laid
  | some d =>
    simp only [found] at did
    have condition := meets null d found
    by_cases overlaps : s.dataSegmentEnd < ptr ∧ s.memoryContext.countDescriptorsByRange s.dataSegmentEnd ptr ≠ 0
    · rw [if_pos overlaps, Option.some.injEq, Prod.mk.injEq] at did
      exact did.1 ▸ laid
    rw [if_neg overlaps] at did
    by_cases negative : ptr < s.dataSegmentEnd ∧ ptr < s.dataSegmentStart
    · rw [if_pos negative, Option.some.injEq, Prod.mk.injEq] at did
      exact did.1 ▸ laid
    rw [if_neg negative] at did
    by_cases unchanged : ptr = s.dataSegmentEnd
    · rw [if_pos unchanged, Option.some.injEq, Prod.mk.injEq] at did
      exact did.1 ▸ laid
    rw [if_neg unchanged] at did
    obtain ⟨⟨ctx, after⟩, resized, same⟩ := Option.map_eq_some_iff.mp did
    rw [Prod.mk.injEq] at same
    rw [← same.1]
    have member := List.mem_of_find?_eq_some found
    have contained : d.contains s.dataSegmentStart := List.find?_some (p := fun e : MemoryDescriptor => e.contains _) found
    have resizes := (condition.resolve_left overlaps).resolve_left negative
    refine laid.resizeExtent member contained (fun grows => ?_) (fun shrinks => ?_) resized
    · rwa [if_pos grows] at resizes
    · rwa [if_neg shrinks] at resizes

/-- Every call that meets the condition keeps the address space laid out. -/
theorem Does.laid {s s' : ProcessControlBlock} {call : MemoryCall} (did : Does s call s')
    (laid : Laid s.memoryContext) (meets : KeepsApart s call) : Laid s'.memoryContext := by
  cases call with
  | mmap addr length prot flags fd offset =>
    obtain ⟨fuel, r, did⟩ := did
    exact laid_mmap laid meets did
  | munmap addr length =>
    obtain ⟨p, p', r, did⟩ := did
    exact laid_munmap laid did
  | brk ptr =>
    obtain ⟨fuel, p, p', r, did⟩ := did
    exact laid_brk laid meets did

theorem Run.laid {first s : ProcessControlBlock} (run : Run KeepsApart first s) (laid : Laid first.memoryContext) :
    Laid s.memoryContext := by
  induction run with
  | start => exact laid
  | called run call meets did ih => exact did.laid ih meets
  | between run same ih => exact same ▸ ih

/-- Over any run whose calls meet the condition, the ranges of the descriptors are
pairwise disjoint, and no address is found in two. -/
theorem mappings_stay_disjoint {first s : ProcessControlBlock} (laid : Laid first.memoryContext)
    (run : Run KeepsApart first s) :
    s.memoryContext.RangesDisjoint ∧
      ∀ address, s.memoryContext.descriptors.countP (fun d => d.contains address) ≤ 1 :=
  ⟨(run.laid laid).disjoint, (run.laid laid).disjoint.countP_le_one⟩

/-- A fresh process maps two pages wherever there is room. -/
def twoPages : MemoryCall := .mmap 0#32 0x2000#32 3#32 0x22#32 (-1) 0#32

private theorem twoPages_does : ∃ s, Does default twoPages s ∧
    s.memoryContext.descriptors = [⟨0x08000000#32, 0x2000#32, ⟨true, true, false⟩, .anonymousMemory⟩] :=
  ⟨_, ⟨0, _, rfl⟩, by decide +kernel⟩

theorem mappings_stay_disjoint_twoPages : ∃ s, Run KeepsApart default s ∧ s.memoryContext.descriptors ≠ [] ∧
    s.memoryContext.RangesDisjoint := by
  obtain ⟨s, did, descriptors⟩ := twoPages_does
  have whole : (⟨19, 0⟩ : DyadicChunks.Chunk) ∈ MemoryContext.new.vmemAlloc.freeChunks := by decide
  have meets : KeepsApart default twoPages := fun _ => ⟨by decide, ⟨19, 0⟩, whole, by decide⟩
  have run := Run.start.called twoPages meets did
  exact ⟨s, run, by simp [descriptors], (mappings_stay_disjoint laid_new run).1⟩

/-- The first of two mapped pages is mapped once more with `MAP_FIXED`: the scan
finds no mapping that ends in the page, and the allocator's refusal is dropped. -/
theorem fixed_mapping_overlaps : ∃ s s', Does default twoPages s ∧
    Does s (.mmap 0x08000000#32 0x1000#32 1#32 0x32#32 (-1) 0#32) s' ∧
    s'.memoryContext.descriptors.countP (fun d => d.contains 0x08000000#32) = 2 :=
  ⟨_, _, ⟨0, _, rfl⟩, ⟨0, _, rfl⟩, by decide +kernel⟩

end MemoryCall

end FluxOS
