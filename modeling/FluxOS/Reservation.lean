import Mathlib.Data.List.Pairwise
import FluxOS.AddressSpace
import FluxOS.BuddyFirstFit
import FluxOS.BuddyPlacement

/-! The allocator and the descriptors of one address space, side by side. The
free blocks stand for pages that no descriptor covers; placing a mapping keeps
it so when the allocator takes every free block under the mapping. -/
namespace FluxOS.MemoryContext
open Words BuddyAllocator DyadicChunks

/-- The address lies in the page that the allocator's block stands for. -/
def InBlock (block : Int) (address : Nat) : Prop := (address / 4096 : Nat) = 0x8000 + block

/-- The ranges of the descriptors are pairwise disjoint. -/
def RangesDisjoint (ctx : MemoryContext) : Prop :=
  ctx.descriptors.Pairwise fun d d' => ∀ address, ¬(d.Covers address ∧ d'.Covers address)

/-- The descriptors are disjoint, the allocator is in order, and it has no free
block under a descriptor. -/
structure Laid (ctx : MemoryContext) : Prop where
  disjoint : ctx.RangesDisjoint
  wellFormed : ctx.vmemAlloc.WellFormed
  orders : ctx.vmemAlloc.orders = 20
  unclaimed : ∀ d ∈ ctx.descriptors, ∀ address block, d.Covers address → InBlock block address →
    ¬ ctx.vmemAlloc.Free block

/-- The page index that the allocator is given for an address. -/
def blockOf (address : Word) : Int := ((address - userspaceLowAddr) >>> 12).toInt

/-- The number of pages that the allocator is asked for. -/
def pagesOf (size : Word) : Int := (size >>> 12).toInt

theorem pagesOf_eq (size : Word) : pagesOf size = (size.toNat / 4096 : Nat) := by
  have bound := size.isLt
  rw [pagesOf, BitVec.toInt_eq_toNat_of_lt] <;> rw [BitVec.toNat_ushiftRight, Nat.shiftRight_eq_div_pow]
  omega

/-- What a reservation leaves: the descriptors as they were, and no free block in
the range. -/
structure Reserved (ctx ctx' : MemoryContext) (base length : Word) : Prop where
  descriptors : ctx'.descriptors = ctx.descriptors
  wellFormed : ctx'.vmemAlloc.WellFormed
  orders : ctx'.vmemAlloc.orders = 20
  fewer : ∀ block, ctx'.vmemAlloc.Free block → ctx.vmemAlloc.Free block
  taken : ∀ address block, InRounded base length address → InBlock block address → ¬ ctx'.vmemAlloc.Free block

theorem laid_new : Laid MemoryContext.new := by
  have orders : MemoryContext.new.vmemAlloc.orders = 20 := by decide
  have fresh : MemoryContext.new.vmemAlloc.WellFormed :=
    (partitioned_init (show 1 ≤ (init (userVirtualMemSize >>> 12).toInt).orders by decide)).wellFormed
  exact ⟨.nil, fresh, orders, nofun⟩

private theorem countP_le_one_of_apart {α : Type} {test : α → Bool} {list : List α}
    (apart : list.Pairwise fun x y => ¬(test x ∧ test y)) : list.countP test ≤ 1 := by
  induction list with
  | nil => exact Nat.zero_le 1
  | cons x rest ih =>
    obtain ⟨xApart, restApart⟩ := List.pairwise_cons.mp apart
    by_cases holds : test x
    · have others : rest.countP test = 0 := List.countP_eq_zero.mpr fun y member both => xApart y member ⟨holds, both⟩
      rw [List.countP_cons_of_pos holds, others]
    · rw [List.countP_cons_of_neg holds]
      exact ih restApart

/-- An address is contained in one descriptor at most. -/
theorem RangesDisjoint.countP_le_one {ctx : MemoryContext} (disjoint : ctx.RangesDisjoint) (address : Word) :
    ctx.descriptors.countP (fun d => d.contains address) ≤ 1 :=
  countP_le_one_of_apart (disjoint.imp fun separate both =>
    separate address.toNat ⟨.of_contains both.1, .of_contains both.2⟩)

/-- Descriptors that cover one address are the same. -/
theorem RangesDisjoint.eq_of_covers {ctx : MemoryContext} (disjoint : ctx.RangesDisjoint) {d e : MemoryDescriptor}
    (dMember : d ∈ ctx.descriptors) (eMember : e ∈ ctx.descriptors) {address : Nat} (dCovers : d.Covers address)
    (eCovers : e.Covers address) : d = e := by
  by_contra different
  have symmetric : Std.Symm fun d d' : MemoryDescriptor => ∀ address, ¬(d.Covers address ∧ d'.Covers address) :=
    ⟨fun d d' separate address both => separate address both.symm⟩
  exact List.Pairwise.forall disjoint dMember eMember different address ⟨dCovers, eCovers⟩

/-- Descriptors can go, and blocks be taken, without harm. -/
theorem Laid.mono {ctx ctx' : MemoryContext} (laid : Laid ctx)
    (descriptors : ctx'.descriptors.Sublist ctx.descriptors) (wellFormed : ctx'.vmemAlloc.WellFormed)
    (orders : ctx'.vmemAlloc.orders = 20) (fewer : ∀ block, ctx'.vmemAlloc.Free block → ctx.vmemAlloc.Free block) :
    Laid ctx' :=
  ⟨laid.disjoint.sublist descriptors, wellFormed, orders, fun d member address block covers inBlock free =>
    laid.unclaimed d (descriptors.mem member) address block covers inBlock (fewer block free)⟩

/-- A new descriptor over a reserved range that no other descriptor meets. -/
theorem Reserved.insert {ctx ctx' : MemoryContext} (laid : Laid ctx) {d : MemoryDescriptor}
    (reserved : Reserved ctx ctx' d.baseAddress d.length)
    (vacant : ∀ e ∈ ctx.descriptors, ∀ address, ¬(e.Covers address ∧ d.Covers address)) :
    Laid (ctx'.insertMemoryDescriptor d) := by
  refine ⟨?_, reserved.wellFormed, reserved.orders, fun e member address block covers inBlock => ?_⟩
  · rw [RangesDisjoint, insertMemoryDescriptor, reserved.descriptors]
    refine List.pairwise_append.mpr ⟨laid.disjoint, List.pairwise_singleton _ _, fun e member other isNew => ?_⟩
    rw [List.mem_singleton.mp isNew]
    exact vacant e member
  · rcases List.mem_append.mp member with old | isNew
    · rw [reserved.descriptors] at old
      exact fun free => laid.unclaimed e old address block covers inBlock (reserved.fewer block free)
    · rw [List.mem_singleton.mp isNew] at covers
      exact reserved.taken address block covers inBlock

/-- A descriptor that covers something is replaced by one over a reserved range
that meets no other descriptor. -/
theorem Reserved.replace {ctx ctx' : MemoryContext} (laid : Laid ctx) {d d' : MemoryDescriptor}
    (reserved : Reserved ctx ctx' d'.baseAddress d'.length) (member : d ∈ ctx.descriptors) {address : Nat}
    (covered : d.Covers address)
    (vacant : ∀ e ∈ ctx.descriptors, e ≠ d → ∀ address, ¬(e.Covers address ∧ d'.Covers address)) :
    Laid { ctx' with descriptors := ctx'.descriptors.replace d d' } := by
  obtain ⟨before, after, whole, fresh⟩ := List.eq_append_cons_of_mem member
  have disjoint := laid.disjoint
  rw [RangesDisjoint, whole] at disjoint
  obtain ⟨beforeApart, restApart, cross⟩ := List.pairwise_append.mp disjoint
  obtain ⟨dApart, afterApart⟩ := List.pairwise_cons.mp restApart
  have replaced : ctx'.descriptors.replace d d' = before ++ d' :: after := by
    rw [reserved.descriptors, whole, List.replace_append_right fresh, List.replace_cons_self]
  have otherBefore : ∀ e ∈ before, e ∈ ctx.descriptors ∧ e ≠ d := by
    intro e early
    refine ⟨whole ▸ List.mem_append_left _ early, fun same => fresh (same ▸ early)⟩
  have otherAfter : ∀ e ∈ after, e ∈ ctx.descriptors ∧ e ≠ d := by
    intro e late
    refine ⟨whole ▸ List.mem_append_right _ (List.mem_cons_of_mem _ late), fun same => ?_⟩
    subst same
    exact dApart e late address ⟨covered, covered⟩
  refine ⟨?_, reserved.wellFormed, reserved.orders, fun e eMember address block covers inBlock => ?_⟩
  · rw [RangesDisjoint, replaced]
    refine List.pairwise_append.mpr ⟨beforeApart, List.pairwise_cons.mpr ⟨fun e late address both => ?_, afterApart⟩,
      fun e early other isLater => ?_⟩
    · exact vacant e (otherAfter e late).1 (otherAfter e late).2 address both.symm
    · rcases List.mem_cons.mp isLater with rfl | late
      · exact vacant e (otherBefore e early).1 (otherBefore e early).2
      · exact cross e early other (List.mem_cons_of_mem _ late)
  · rw [replaced] at eMember
    have old : e ∈ ctx.descriptors → ¬ ctx'.vmemAlloc.Free block :=
      fun inOld free => laid.unclaimed e inOld address block covers inBlock (reserved.fewer block free)
    rcases List.mem_append.mp eMember with early | later
    · exact old (otherBefore e early).1
    · rcases List.mem_cons.mp later with rfl | late
      · exact reserved.taken address block covers inBlock
      · exact old (otherAfter e late).1

/-! ## A range of the allocator's choice -/

/-- The address of the block that the allocator hands out. -/
private theorem toNat_grantedAddress {first : Int} (low : 0 ≤ first) (high : first < 2 ^ 19) :
    ((BitVec.ofInt 32 first <<< 12) + userspaceLowAddr).toNat = (0x8000 + first.toNat) * 4096 := by
  obtain ⟨n, rfl⟩ := Int.eq_ofNat_of_zero_le low
  have start := toNat_userspaceLowAddr
  rw [BitVec.toNat_add, start, BitVec.toNat_shiftLeft, BitVec.ofInt_natCast, BitVec.toNat_ofNat, Nat.shiftLeft_eq,
    Int.toNat_natCast]
  omega

/-- Some free chunk holds that many pages. -/
def HasRoom (ctx : MemoryContext) (pages : Int) : Prop :=
  ∃ c ∈ ctx.vmemAlloc.freeChunks, Nat.clog 2 pages.toNat ≤ c.order

/-- The pages handed out are blocks that the allocator manages, and they are taken off the free ones. -/
structure Granted (ctx ctx' : MemoryContext) (pages first : Int) (base : Word) : Prop where
  descriptors : ctx'.descriptors = ctx.descriptors
  wellFormed : ctx'.vmemAlloc.WellFormed
  orders : ctx'.vmemAlloc.orders = 20
  base : base.toNat = (0x8000 + first.toNat) * 4096
  low : 0 ≤ first
  high : first + pages ≤ 2 ^ 19
  count : ∀ x, ctx'.vmemAlloc.freeCount x + span first (first + pages) x = ctx.vmemAlloc.freeCount x

/-- With room, the first free chunk that is large enough gives them. -/
theorem Laid.granted {ctx ctx' : MemoryContext} (laid : Laid ctx) {size base : Word} (positive : 1 ≤ pagesOf size)
    (room : ctx.HasRoom (pagesOf size)) (ran : ctx.allocVirtualMemory size = some (ctx', base)) :
    ∃ first, Granted ctx ctx' (pagesOf size) first base := by
  have bound := size.isLt
  have pages := pagesOf_eq size
  obtain ⟨⟨after, first⟩, granted, same⟩ := Option.map_eq_some_iff.mp ran
  simp only [Prod.mk.injEq] at same
  obtain ⟨rfl, rfl⟩ := same
  obtain ⟨result, called, outcome⟩ := allocateBlocks_first_fit laid.wellFormed (by rw [laid.orders]; decide)
    positive (by rw [laid.orders]; omega)
  rw [show ctx.vmemAlloc.allocateBlocks (pagesOf size) = some (after, first) from granted, Option.some.injEq] at called
  subst called
  cases outcome with
  | refused small =>
    obtain ⟨c, member, fits⟩ := room
    exact absurd fits (Nat.not_le.mpr (small c member))
  | granted c member fits _ orders wf count =>
    have managed := laid.wellFormed.inside c member
    have last : ctx.vmemAlloc.Free (c.start + pagesOf size - 1) := by
      have taken : 0 < span c.start (c.start + pagesOf size) (c.start + pagesOf size - 1) :=
        span_pos_iff.mpr ⟨by omega, by omega⟩
      have whole := count (c.start + pagesOf size - 1)
      rw [free_iff_freeCount]
      omega
    have inside := laid.wellFormed.free_inside last
    rw [laid.orders] at managed inside
    have nonempty := c.start_lt_stop
    exact ⟨c.start, rfl, wf, orders.trans laid.orders, toNat_grantedAddress managed.1 (by omega), managed.1, by omega, count⟩

theorem Granted.fewer {ctx ctx' : MemoryContext} {pages first block : Int} {base : Word}
    (granted : Granted ctx ctx' pages first base) (free : ctx'.vmemAlloc.Free block) : ctx.vmemAlloc.Free block := by
  have whole := granted.count block
  rw [free_iff_freeCount] at free ⊢
  omega

/-- They were free, and are no longer. -/
theorem Granted.taken {ctx ctx' : MemoryContext} (laid : Laid ctx) {pages first block : Int} {base : Word}
    (granted : Granted ctx ctx' pages first base) (low : first ≤ block) (high : block < first + pages) :
    ctx.vmemAlloc.Free block ∧ ¬ctx'.vmemAlloc.Free block := by
  have whole := granted.count block
  have taken : 0 < span first (first + pages) block := span_pos_iff.mpr ⟨low, high⟩
  have once := laid.wellFormed.once block
  rw [free_iff_freeCount, free_iff_freeCount]
  omega

/-- With room, the range handed out was free, and is taken. -/
theorem Laid.allocVirtualMemory {ctx ctx' : MemoryContext} (laid : Laid ctx) {length base : Word}
    (nonempty : 0 < length.toNat) (rounds : length.toNat ≤ 0xFFFFF000)
    (room : ctx.HasRoom (pagesOf (roundToPageMultiples length)))
    (ran : ctx.allocVirtualMemory (roundToPageMultiples length) = some (ctx', base)) :
    Reserved ctx ctx' base length ∧
      ∀ d ∈ ctx.descriptors, ∀ address, ¬(d.Covers address ∧ InRounded base length address) := by
  have size := toNat_roundToPageMultiples length
  have pages := pagesOf_eq (roundToPageMultiples length)
  obtain ⟨first, granted⟩ := laid.granted (by omega) room ran
  have baseValue := granted.base
  have low := granted.low
  have moved : ∀ address block, InRounded base length address → InBlock block address →
      ctx.vmemAlloc.Free block ∧ ¬ ctx'.vmemAlloc.Free block := by
    intro address block inside inBlock
    simp only [InRounded, InBlock] at inside inBlock
    exact granted.taken laid (by omega) (by omega)
  refine ⟨⟨granted.descriptors, granted.wellFormed, granted.orders, fun block => granted.fewer,
    fun address block inside inBlock => (moved address block inside inBlock).2⟩, fun d member address both => ?_⟩
  obtain ⟨block, inBlock⟩ : ∃ block, InBlock block address :=
    ⟨(address / 4096 : Nat) - 0x8000, by rw [InBlock]; omega⟩
  exact laid.unclaimed d member address block both.1 inBlock (moved address block both.2 inBlock).1

/-! ## A range at a given address -/

/-- The placement of `size` bytes at `reserved` takes every free block in the
range: if there is one at all, the first block is free and the others follow it. -/
def PlacementTakes (ctx : MemoryContext) (reserved size base length : Word) : Prop :=
  ∀ address block, InRounded base length address → InBlock block address → ctx.vmemAlloc.Free block →
    ctx.vmemAlloc.Free (blockOf reserved) ∧ blockOf reserved ≤ block ∧ block < blockOf reserved + pagesOf size

theorem Laid.allocVirtualMemoryAt {ctx ctx' : MemoryContext} (laid : Laid ctx) {fuel : Nat}
    {reserved size base length : Word} (positive : 1 ≤ pagesOf size)
    (takes : ctx.PlacementTakes reserved size base length)
    (ran : ctx.allocVirtualMemoryAt fuel reserved size = some ctx') : Reserved ctx ctx' base length := by
  obtain ⟨⟨after, result⟩, placed, rfl⟩ := Option.map_eq_some_iff.mp ran
  have outcome := allocateBlocksAt_outcome laid.wellFormed positive placed
  refine ⟨rfl, outcome.wf, outcome.orders.trans laid.orders, outcome.fewer, fun address block inside inBlock free => ?_⟩
  obtain ⟨first, low, high⟩ := takes address block inside inBlock (outcome.fewer block free)
  exact outcome.taken first block low high free

end FluxOS.MemoryContext
