import Mathlib.Data.Nat.Log
import FluxOS.BuddyFreeChunks

/-! First-fit allocation, `allocateBlocks(int)`, over whole runs. Every call
either takes its blocks out of one free chunk that is large enough or refuses
and changes nothing, so the ranges handed out and the free chunks always
partition the managed blocks. -/
namespace FluxOS.BuddyAllocator
open DyadicChunks

/-! ## The order the search starts at -/

private theorem div_pow_of_between {n : Int} {k : Nat} (low : 2 ^ k ≤ n) (high : n < 2 ^ (k + 1)) :
    n / 2 ^ k = 1 := by
  have positive : (0 : Int) < 2 ^ k := by positivity
  rw [pow_succ] at high
  have least : 1 ≤ n / 2 ^ k := (Int.le_ediv_iff_mul_le positive).mpr (by omega)
  have most : n / 2 ^ k < 2 := (Int.ediv_lt_iff_lt_mul positive).mpr (by omega)
  omega

/-- The scan from `maxLog` down finds the highest set bit. -/
theorem log2i_spec {n : Int} {maxLog : Nat} (positive : 1 ≤ n) (small : n < 2 ^ (maxLog + 1))
    (width : maxLog < 32) : ∃ k : Nat, log2i n maxLog = k ∧ k ≤ maxLog ∧ 2 ^ k ≤ n ∧ n < 2 ^ (k + 1) := by
  induction maxLog with
  | zero =>
    have single : n = 1 := by
      rw [zero_add, pow_one] at small
      omega
    subst single
    exact ⟨0, rfl, le_rfl, by decide, by decide⟩
  | succ maxLog ih =>
    simp only [log2i, Nat.mod_eq_of_lt width]
    by_cases below : n < 2 ^ (maxLog + 1)
    · have clear : bit n (maxLog + 1) = false := by
        simp [bit, Int.ediv_eq_zero_of_lt (show 0 ≤ n by omega) below]
      obtain ⟨k, value, bound, low, high⟩ := ih below (by omega)
      rw [clear]
      exact ⟨k, value, by omega, low, high⟩
    · have set : bit n (maxLog + 1) = true := by
        simp [bit, div_pow_of_between (not_lt.mp below) small]
      rw [set]
      exact ⟨maxLog + 1, rfl, le_rfl, not_lt.mp below, small⟩

private theorem clog_of_between {n : Int} {k : Nat} (low : 2 ^ k ≤ n) (high : n < 2 ^ (k + 1)) :
    (Nat.clog 2 n.toNat : Int) = k + if n - 2 ^ k ≠ 0 then 1 else 0 := by
  have nonneg : 0 ≤ n := le_trans (by positivity) low
  obtain ⟨m, rfl⟩ := Int.eq_ofNat_of_zero_le nonneg
  have lowNat : 2 ^ k ≤ m := by exact_mod_cast low
  have highNat : m < 2 ^ (k + 1) := by exact_mod_cast high
  rw [Int.toNat_natCast]
  by_cases power : m = 2 ^ k
  · subst power
    rw [Nat.clog_pow 2 k (by decide), if_neg (by simp)]
    simp
  · have above : k < Nat.clog 2 m := (Nat.lt_clog_iff_pow_lt (by decide)).mpr (by omega)
    have atMost : Nat.clog 2 m ≤ k + 1 := (Nat.clog_le_iff_le_pow (by decide)).mpr highNat.le
    have different : (m : Int) - 2 ^ k ≠ 0 := fun same => power (by exact_mod_cast sub_eq_zero.mp same)
    rw [if_pos different]
    omega

/-- The search starts at the least order whose chunks hold `n` blocks. -/
theorem startIndex_eq_clog {s : BuddyAllocator} (width : s.orders < 32) {n : Int} (positive : 1 ≤ n)
    (small : n < 2 ^ (s.orders + 1)) : s.startIndex n = Nat.clog 2 n.toNat := by
  obtain ⟨k, value, bound, low, high⟩ := log2i_spec positive small width
  have set : bit n k = true := by simp [bit, div_pow_of_between low high]
  have within : ((k : Int) % 32).toNat = k := by omega
  rw [startIndex, value, within, clearBit, if_pos set, clog_of_between low high]

theorem le_two_pow_clog {n : Int} (positive : 1 ≤ n) {order : Nat} (fits : Nat.clog 2 n.toNat ≤ order) :
    n ≤ 2 ^ order := by
  have bound : n.toNat ≤ 2 ^ order := (Nat.clog_le_iff_le_pow (by decide)).mp fits
  have cast : ((2 ^ order : Nat) : Int) = 2 ^ order := by push_cast; rfl
  omega

/-! ## One call -/

/-- What a first-fit call can do. -/
inductive FirstFit (s : BuddyAllocator) (n : Int) : BuddyAllocator × Int → Prop where
  | refused (small : ∀ c ∈ s.freeChunks, c.order < Nat.clog 2 n.toNat) : FirstFit s n (s, -1)
  | granted (c : Chunk) (member : c ∈ s.freeChunks) (fits : Nat.clog 2 n.toNat ≤ c.order) (s' : BuddyAllocator)
      (orders : s'.orders = s.orders) (wf : s'.WellFormed)
      (count : ∀ x, s'.freeCount x + span c.start (c.start + n) x = s.freeCount x) : FirstFit s n (s', c.start)

/-- The allocator without the first `n` blocks of a chunk. -/
def takeFirst (s : BuddyAllocator) (c : Chunk) (n : Int) : BuddyAllocator :=
  releaseTail c.order (s.removeNode c.order c.start) (c.start + n) (2 ^ c.order - n)

@[simp] theorem orders_takeFirst (s : BuddyAllocator) (c : Chunk) (n : Int) : (s.takeFirst c n).orders = s.orders := by
  simp [takeFirst]

/-- Taking the first `n` blocks of a chunk and giving the others back. -/
theorem freeCount_takeFirst {s : BuddyAllocator} {n : Int} (positive : 1 ≤ n) {c : Chunk} (member : c ∈ s.freeChunks)
    (large : n ≤ 2 ^ c.order) (x : Int) :
    (s.takeFirst c n).freeCount x + span c.start (c.start + n) x = s.freeCount x := by
  have bound := (mem_freeChunks.mp member).1
  have stop : c.start + n + (2 ^ c.order - n) = c.stop := by rw [Chunk.stop]; ring
  have rest : (2 ^ c.order - n) % 2 ^ c.order = 2 ^ c.order - n := Int.emod_eq_of_lt (by omega) (by omega)
  have given := freeCount_releaseTail (s := s.removeNode c.order c.start) bound.le (c.start + n)
    (2 ^ c.order - n) x
  rw [stop, rest, ← stop, add_sub_cancel_right, stop] at given
  have removed := freeCount_removeNode member x
  have joined := span_add (show c.start ≤ c.start + n by omega) (show c.start + n ≤ c.stop by omega) x
  rw [takeFirst]
  omega

private theorem granted_of_member {s : BuddyAllocator} (wf : s.WellFormed) {n : Int} (positive : 1 ≤ n)
    {c : Chunk} (member : c ∈ s.freeChunks) (fits : Nat.clog 2 n.toNat ≤ c.order) :
    FirstFit s n (s.takeFirst c n, c.start) := by
  have bound := (mem_freeChunks.mp member).1
  have stop : c.start + n + (2 ^ c.order - n) = c.stop := by rw [Chunk.stop]; ring
  have count := freeCount_takeFirst positive member (le_two_pow_clog positive fits)
  refine .granted c member fits _ (by simp) (wf.of_fewer (by simp) (fun x => ?_) fun d held => ?_) count
  · have whole := count x
    omega
  · have parts := freeChunks_releaseTail (s := s.removeNode c.order c.start) bound.le (c.start + n)
      (2 ^ c.order - n)
    rcases List.mem_append.mp (parts.mem_iff.mp held) with cut | kept
    · rw [stop] at cut
      exact aligned_of_mem_downward (dvd_add (wf.aligned c member) dvd_rfl) cut
    · exact wf.aligned d (mem_of_mem_removeNode member kept)

/-- The chunk that a search for `n` blocks comes to: the head of the first list that has
one, from the least order that is large enough up. -/
structure ComesTo (s : BuddyAllocator) (n : Int) (c : Chunk) : Prop where
  bound : c.order < s.orders
  fits : Nat.clog 2 n.toNat ≤ c.order
  head : ∃ others, s.lists c.order = c.start :: others
  below : ∀ i, Nat.clog 2 n.toNat ≤ i → i < c.order → s.lists i = []

theorem ComesTo.member {s : BuddyAllocator} {n : Int} {c : Chunk} (first : ComesTo s n c) : c ∈ s.freeChunks := by
  obtain ⟨others, listed⟩ := first.head
  exact mem_freeChunks.mpr ⟨first.bound, by simp [listed]⟩

/-- There is only one such chunk. -/
theorem ComesTo.unique {s : BuddyAllocator} {n : Int} {c d : Chunk} (first : ComesTo s n c) (other : ComesTo s n d) :
    c = d := by
  obtain ⟨cOthers, cListed⟩ := first.head
  obtain ⟨dOthers, dListed⟩ := other.head
  have same : c.order = d.order := by
    rcases lt_trichotomy c.order d.order with lower | same | higher
    · rw [other.below _ first.fits lower] at cListed
      cases cListed
    · exact same
    · rw [first.below _ other.fits higher] at dListed
      cases dListed
  rw [same, dListed, List.cons.injEq] at cListed
  cases c
  cases d
  simp_all

/-- A call refuses where no chunk is large enough, and else takes its blocks from the
one that the search comes to. -/
theorem allocateBlocks_comesTo {s : BuddyAllocator} (width : s.orders < 32) {n : Int} (positive : 1 ≤ n)
    (small : n < 2 ^ (s.orders + 1)) :
    (s.allocateBlocks n = some (s, -1) ∧ ∀ c ∈ s.freeChunks, c.order < Nat.clog 2 n.toNat) ∨
      ∃ c, ComesTo s n c ∧ s.allocateBlocks n = some (s.takeFirst c n, c.start) := by
  have start := startIndex_eq_clog width positive small
  have found : s.allocateBlocks n = some (s.allocateBlocksFrom n (s.orders - Nat.clog 2 n.toNat)
      (Nat.clog 2 n.toNat)) := by
    simp only [allocateBlocks, start, Int.toNat_natCast]
    rw [if_neg (by omega)]
  rw [found]
  -- the lists from the start up to `i` are empty; the search goes on at `i`
  suffices search : ∀ lists i, Nat.clog 2 n.toNat ≤ i → s.orders ≤ i + lists →
      (∀ j, Nat.clog 2 n.toNat ≤ j → j < i → s.lists j = []) → i + lists ≤ max s.orders i →
        (s.allocateBlocksFrom n lists i = (s, -1) ∧ ∀ c ∈ s.freeChunks, c.order < Nat.clog 2 n.toNat) ∨
          ∃ c, ComesTo s n c ∧ s.allocateBlocksFrom n lists i = (s.takeFirst c n, c.start) by
    simpa only [Option.some.injEq] using search _ _ le_rfl (by omega) (fun j low high => by omega) (by omega)
  intro lists
  induction lists with
  | zero =>
    intro i _ covered empty _
    refine .inl ⟨rfl, fun c member => ?_⟩
    obtain ⟨bound, held⟩ := mem_freeChunks.mp member
    by_contra large
    rw [empty c.order (Nat.le_of_not_lt large) (by omega)] at held
    cases held
  | succ lists ih =>
    intro i fits covered empty within
    have bound : i < s.orders := by omega
    simp only [allocateBlocksFrom]
    cases listed : s.lists i with
    | nil =>
      refine ih (i + 1) (by omega) (by omega) (fun j low high => ?_) (by omega)
      rcases Nat.lt_succ_iff_lt_or_eq.mp high with lower | rfl
      · exact empty j low lower
      · exact listed
    | cons found others => exact .inr ⟨⟨i, found⟩, ⟨bound, fits, ⟨others, listed⟩, empty⟩, rfl⟩

theorem allocateBlocks_cases {s : BuddyAllocator} (width : s.orders < 32) {n : Int} (positive : 1 ≤ n)
    (small : n < 2 ^ (s.orders + 1)) :
    (s.allocateBlocks n = some (s, -1) ∧ ∀ c ∈ s.freeChunks, c.order < Nat.clog 2 n.toNat) ∨
      ∃ c ∈ s.freeChunks, Nat.clog 2 n.toNat ≤ c.order ∧ s.allocateBlocks n = some (s.takeFirst c n, c.start) := by
  obtain refused | ⟨c, first, result⟩ := allocateBlocks_comesTo width positive small
  · exact .inl refused
  · exact .inr ⟨c, first.member, first.fits, result⟩

theorem allocateBlocks_first_fit {s : BuddyAllocator} (wf : s.WellFormed) (width : s.orders < 32) {n : Int}
    (positive : 1 ≤ n) (small : n < 2 ^ (s.orders + 1)) :
    ∃ result, s.allocateBlocks n = some result ∧ FirstFit s n result := by
  obtain ⟨result, refused⟩ | ⟨c, member, fits, result⟩ := allocateBlocks_cases width positive small
  · exact ⟨_, result, .refused refused⟩
  · exact ⟨_, result, granted_of_member wf positive member fits⟩

/-! ## Runs -/

/-- A range handed out: `size` blocks from `first`. -/
structure Grant where
  first : Int
  size : Int
  deriving DecidableEq, Repr

namespace Grant

def Holds (g : Grant) (block : Int) : Prop := g.first ≤ block ∧ block < g.first + g.size

/-- The two ranges share no block. -/
def Apart (g h : Grant) : Prop := ∀ block, ¬ (g.Holds block ∧ h.Holds block)

end Grant

/-- A run of `allocateBlocks(n)` calls that begins in `first`, with the ranges
handed out so far, latest first. -/
inductive FirstFitRun (first : BuddyAllocator) : BuddyAllocator → List Grant → Prop where
  | start : FirstFitRun first first []
  | granted {s s' : BuddyAllocator} {grants : List Grant} {n r : Int} (run : FirstFitRun first s grants)
      (positive : 1 ≤ n) (small : n < 2 ^ (s.orders + 1)) (call : s.allocateBlocks n = some (s', r))
      (found : r ≠ -1) : FirstFitRun first s' (⟨r, n⟩ :: grants)
  | refused {s s' : BuddyAllocator} {grants : List Grant} {n : Int} (run : FirstFitRun first s grants)
      (positive : 1 ≤ n) (small : n < 2 ^ (s.orders + 1)) (call : s.allocateBlocks n = some (s', -1)) :
      FirstFitRun first s' grants

/-- The grants and the free chunks partition the managed blocks, and every
free chunk is aligned to its size and listed once. -/
structure Partitioned (s : BuddyAllocator) (grants : List Grant) : Prop where
  grantsApart : grants.Pairwise Grant.Apart
  freeApart : s.freeChunks.Pairwise Chunk.Apart
  separate : ∀ g ∈ grants, ∀ block, g.Holds block → ¬ s.Free block
  whole : ∀ block, (0 ≤ block ∧ block < 2 ^ (s.orders - 1)) ↔ s.Free block ∨ ∃ g ∈ grants, g.Holds block
  aligned : ∀ c ∈ s.freeChunks, c.Aligned
  once : s.freeChunks.Nodup

theorem Partitioned.wellFormed {s : BuddyAllocator} {grants : List Grant} (parts : Partitioned s grants) :
    s.WellFormed := by
  refine ⟨parts.freeApart, parts.aligned, fun c member => ?_⟩
  have nonempty := c.start_lt_stop
  have first := (parts.whole c.start).mpr (Or.inl ⟨c, member, c.holds_start⟩)
  have last := (parts.whole (c.stop - 1)).mpr (Or.inl ⟨c, member, by omega, by omega⟩)
  omega

/-- Disjoint chunks are different, since none is empty. -/
theorem WellFormed.nodup {s : BuddyAllocator} (wf : s.WellFormed) : s.freeChunks.Nodup :=
  wf.apart.imp fun {c d} apart same => by
    subst same
    have nonempty := c.start_lt_stop
    simp only [Chunk.Apart] at apart
    omega

theorem freeChunks_withOrders (last : Nat) : (withOrders (last + 1)).freeChunks = [⟨last, 0⟩] := by
  have empty : ∀ i ∈ List.range last,
      (Function.update (fun _ => ([] : List Int)) last [0] i).map (Chunk.mk i) = [] := by
    intro i member
    rw [Function.update_of_ne (List.mem_range.mp member).ne]
    rfl
  simp only [freeChunks, withOrders, Nat.add_sub_cancel, List.range_succ, List.flatMap_append,
    List.flatMap_eq_nil_iff.mpr empty, List.flatMap_singleton, Function.update_self]
  rfl

theorem partitioned_init {blocks : Int} (nonempty : 1 ≤ (init blocks).orders) : Partitioned (init blocks) [] := by
  obtain ⟨last, orders⟩ : ∃ last, (init blocks).orders = last + 1 := ⟨_, (Nat.sub_add_cancel nonempty).symm⟩
  have whole : init blocks = withOrders (last + 1) := by rw [← orders]; rfl
  rw [whole]
  have chunks := freeChunks_withOrders last
  refine ⟨List.Pairwise.nil, ?_, by simp, fun block => ?_, ?_, ?_⟩
  · rw [chunks]
    exact List.pairwise_singleton _ _
  · simp only [Free, chunks]
    simp [Chunk.Holds, withOrders]
  · rw [chunks]
    simp [Chunk.Aligned]
  · rw [chunks]
    exact List.nodup_cons.mpr ⟨List.not_mem_nil, List.nodup_nil⟩

/-- A granted call moves its range from the free chunks to the grants. -/
theorem Partitioned.grant {s s' : BuddyAllocator} {grants : List Grant} (parts : Partitioned s grants)
    {r n : Int} (orders : s'.orders = s.orders) (wf : s'.WellFormed)
    (count : ∀ x, s'.freeCount x + span r (r + n) x = s.freeCount x) : Partitioned s' (⟨r, n⟩ :: grants) := by
  have before := parts.wellFormed
  have moved : ∀ x, s.Free x ↔ s'.Free x ∨ (⟨r, n⟩ : Grant).Holds x := by
    intro x
    have whole := count x
    rw [free_iff_freeCount, free_iff_freeCount, Grant.Holds, ← span_pos_iff]
    dsimp only
    omega
  refine ⟨List.pairwise_cons.mpr ⟨fun g member block both => ?_, parts.grantsApart⟩, wf.apart, ?_,
    fun block => ?_, wf.aligned, wf.nodup⟩
  · exact parts.separate g member block both.2 ((moved block).mpr (Or.inr both.1))
  · intro g member block holds free
    rcases List.mem_cons.mp member with rfl | earlier
    · have whole := count block
      have bounded := before.once block
      have taken : 0 < span r (r + n) block := span_pos_iff.mpr holds
      have counted := free_iff_freeCount.mp free
      omega
    · exact parts.separate g earlier block holds ((moved block).mpr (Or.inl free))
  · rw [orders, parts.whole, moved, or_assoc]
    simp

/-- The call returns; it returns -1 exactly when no free chunk is large enough,
and then it has changed nothing. -/
def RefusesExactly (s : BuddyAllocator) (n : Int) : Prop :=
  ∃ s' r, s.allocateBlocks n = some (s', r) ∧
    (r = -1 ↔ ¬ ∃ c ∈ s.freeChunks, Nat.clog 2 n.toNat ≤ c.order) ∧ (r = -1 → s' = s)

theorem Partitioned.refusesExactly {s : BuddyAllocator} {grants : List Grant} (parts : Partitioned s grants)
    (width : s.orders < 32) {n : Int} (positive : 1 ≤ n) (small : n < 2 ^ (s.orders + 1)) :
    s.RefusesExactly n := by
  obtain ⟨⟨s', r⟩, called, outcome⟩ := allocateBlocks_first_fit parts.wellFormed width positive small
  refine ⟨s', r, called, ?_⟩
  cases outcome with
  | refused none =>
    refine ⟨⟨fun _ => ?_, fun _ => rfl⟩, fun _ => rfl⟩
    rintro ⟨c, member, fits⟩
    exact absurd fits (Nat.not_le.mpr (none c member))
  | granted c member fits =>
    have bounds := parts.wellFormed.inside c member
    refine ⟨⟨fun impossible => by omega, fun missing => absurd ⟨c, member, fits⟩ missing⟩,
      fun impossible => by omega⟩

/-- Every state of a run partitions the managed blocks. -/
theorem FirstFitRun.partitioned {first s : BuddyAllocator} {grants : List Grant}
    (fresh : Partitioned first []) (width : first.orders < 32) (run : FirstFitRun first s grants) :
    Partitioned s grants ∧ s.orders = first.orders := by
  induction run with
  | start => exact ⟨fresh, rfl⟩
  | granted run positive small call found ih =>
    obtain ⟨parts, orders⟩ := ih
    obtain ⟨result, called, outcome⟩ := allocateBlocks_first_fit parts.wellFormed (by omega) positive small
    rw [call, Option.some.injEq] at called
    subst called
    cases outcome with
    | refused => exact absurd rfl found
    | granted c member fits s' same after count => exact ⟨parts.grant same after count, same.trans orders⟩
  | refused run positive small call ih =>
    obtain ⟨parts, orders⟩ := ih
    obtain ⟨after, r, called, -, same⟩ := parts.refusesExactly (by omega) positive small
    rw [call, Option.some.injEq, Prod.mk.injEq] at called
    obtain ⟨rfl, rfl⟩ := called
    rw [same rfl]
    exact ⟨parts, orders⟩

/-- **First fit partitions.** From the state `init` leaves, every run of calls
keeps the ranges handed out and the free chunks a partition of the managed
blocks, and the next call refuses exactly when no free chunk is large enough. -/
theorem first_fit_partitions {blocks : Int} (low : 1 ≤ (init blocks).orders)
    (high : (init blocks).orders ≤ 29) {s : BuddyAllocator} {grants : List Grant}
    (run : FirstFitRun (init blocks) s grants) :
    Partitioned s grants ∧ s.orders = (init blocks).orders ∧
      ∀ n, 1 ≤ n → n < 2 ^ (s.orders + 1) → s.RefusesExactly n := by
  obtain ⟨parts, orders⟩ := run.partitioned (partitioned_init low) (by omega)
  exact ⟨parts, orders, fun n positive small => parts.refusesExactly (by omega) positive small⟩

theorem first_fit_partitions_two_calls :
    ∃ s, FirstFitRun (init 4) s [⟨2, 2⟩, ⟨0, 1⟩] ∧ Partitioned s [⟨2, 2⟩, ⟨0, 1⟩] ∧ s.RefusesExactly 2 := by
  have fresh : FirstFitRun (init 4) (init 4) [] := .start
  have run := fresh.granted (n := 1) (by decide) (by decide) rfl (by decide)
  have again := run.granted (n := 2) (by decide) (by decide) rfl (by decide)
  obtain ⟨parts, -, refuses⟩ := first_fit_partitions (by decide) (by decide) again
  exact ⟨_, again, parts, refuses 2 (by decide) (by decide)⟩

end FluxOS.BuddyAllocator
