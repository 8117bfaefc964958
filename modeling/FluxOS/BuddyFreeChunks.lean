import FluxOS.BuddyAllocator

/-! The free lists as one bag of chunks, and what each allocator operation does
to that bag. Everything later is read off these equations: no proof outside
this module opens a list. -/
namespace FluxOS.BuddyAllocator
open DyadicChunks

/-- The chunks the lists of the array stand for. -/
def freeChunks (s : BuddyAllocator) : List Chunk :=
  (List.range s.orders).flatMap fun i => (s.lists i).map (Chunk.mk i)

/-- The block belongs to a free chunk. -/
def Free (s : BuddyAllocator) (block : Int) : Prop := ∃ c ∈ s.freeChunks, c.Holds block

/-- The number of free chunks that hold the block. -/
def freeCount (s : BuddyAllocator) (block : Int) : Nat := cover s.freeChunks block

/-- The chunks are pairwise disjoint, aligned to their order and inside the
managed blocks. -/
structure WellFormed (s : BuddyAllocator) : Prop where
  apart : s.freeChunks.Pairwise Chunk.Apart
  aligned : ∀ c ∈ s.freeChunks, c.Aligned
  inside : ∀ c ∈ s.freeChunks, 0 ≤ c.start ∧ c.stop ≤ 2 ^ (s.orders - 1)

theorem mem_freeChunks {s : BuddyAllocator} {c : Chunk} :
    c ∈ s.freeChunks ↔ c.order < s.orders ∧ c.start ∈ s.lists c.order := by
  simp only [freeChunks, List.mem_flatMap, List.mem_range, List.mem_map]
  constructor
  · rintro ⟨i, bound, start, member, rfl⟩
    exact ⟨bound, member⟩
  · rintro ⟨bound, member⟩
    exact ⟨c.order, bound, c.start, member, rfl⟩

theorem free_iff_freeCount {s : BuddyAllocator} {block : Int} : s.Free block ↔ 0 < s.freeCount block :=
  cover_pos_iff.symm

theorem WellFormed.once {s : BuddyAllocator} (wf : s.WellFormed) (block : Int) : s.freeCount block ≤ 1 :=
  (pairwise_apart_iff _).mp wf.apart block

theorem WellFormed.free_inside {s : BuddyAllocator} (wf : s.WellFormed) {block : Int}
    (free : s.Free block) : 0 ≤ block ∧ block < 2 ^ (s.orders - 1) := by
  obtain ⟨c, member, holds⟩ := free
  have bounds := wf.inside c member
  simp only [Chunk.Holds] at holds
  omega

/-- A state that covers no more than a well-formed one, in aligned chunks, is
well formed. -/
theorem WellFormed.of_fewer {s s' : BuddyAllocator} (wf : s.WellFormed) (orders : s'.orders = s.orders)
    (fewer : ∀ block, s'.freeCount block ≤ s.freeCount block)
    (aligned : ∀ c ∈ s'.freeChunks, c.Aligned) : s'.WellFormed := by
  have inside : ∀ c ∈ s'.freeChunks, ∀ block, c.Holds block → 0 ≤ block ∧ block < 2 ^ (s.orders - 1) := by
    intro c member block holds
    have counted : 0 < s'.freeCount block := cover_pos_iff.mpr ⟨c, member, holds⟩
    exact wf.free_inside (free_iff_freeCount.mpr (counted.trans_le (fewer block)))
  refine ⟨(pairwise_apart_iff _).mpr fun block => (fewer block).trans (wf.once block), aligned,
    fun c member => ?_⟩
  have nonempty := c.start_lt_stop
  have first := inside c member c.start c.holds_start
  have last := inside c member (c.stop - 1) ⟨by omega, by omega⟩
  rw [orders]
  omega

/-! ## Replacing one list -/

private theorem flatMap_update_perm (lists : Nat → List Int) {orders index : Nat} (bound : index < orders)
    (entries : List Int) :
    ((List.range orders).flatMap fun i => (Function.update lists index entries i).map (Chunk.mk i)).Perm
      (entries.map (Chunk.mk index) ++
        ((List.range orders).erase index).flatMap fun i => (lists i).map (Chunk.mk i)) := by
  have member : index ∈ List.range orders := List.mem_range.mpr bound
  refine ((List.perm_cons_erase member).flatMap_right _).trans ?_
  rw [List.flatMap_cons, Function.update_self]
  refine List.Perm.append_left _ (List.Perm.of_eq (List.flatMap_congr fun i inErased => ?_))
  have different : i ≠ index := fun same =>
    List.nodup_range.not_mem_erase (same ▸ inErased)
  rw [Function.update_of_ne different]

private theorem freeChunks_perm_list (s : BuddyAllocator) {index : Nat} (bound : index < s.orders) :
    s.freeChunks.Perm ((s.lists index).map (Chunk.mk index) ++
      ((List.range s.orders).erase index).flatMap fun i => (s.lists i).map (Chunk.mk i)) := by
  simpa only [freeChunks, Function.update_eq_self] using
    flatMap_update_perm s.lists bound (s.lists index)

@[simp] theorem orders_prependNewNode (s : BuddyAllocator) (index : Nat) (block : Int) :
    (s.prependNewNode index block).orders = s.orders := rfl

@[simp] theorem orders_removeNode (s : BuddyAllocator) (index : Nat) (block : Int) :
    (s.removeNode index block).orders = s.orders := rfl

theorem freeChunks_prependNewNode (s : BuddyAllocator) {index : Nat} (bound : index < s.orders)
    (block : Int) : (s.prependNewNode index block).freeChunks.Perm (⟨index, block⟩ :: s.freeChunks) :=
  (flatMap_update_perm s.lists bound (block :: s.lists index)).trans
    (List.Perm.cons _ (freeChunks_perm_list s bound).symm)

theorem freeChunks_removeNode {s : BuddyAllocator} {c : Chunk} (member : c ∈ s.freeChunks) :
    s.freeChunks.Perm (c :: (s.removeNode c.order c.start).freeChunks) := by
  obtain ⟨bound, listed⟩ := mem_freeChunks.mp member
  refine (freeChunks_perm_list s bound).trans ?_
  refine List.Perm.trans ?_ (List.Perm.cons _ (flatMap_update_perm s.lists bound _).symm)
  exact List.Perm.append_right _ ((List.perm_cons_erase listed).map (Chunk.mk c.order))

/-- Removing a free chunk uncovers exactly its blocks. -/
theorem freeCount_removeNode {s : BuddyAllocator} {c : Chunk} (member : c ∈ s.freeChunks) (block : Int) :
    (s.removeNode c.order c.start).freeCount block + span c.start c.stop block = s.freeCount block := by
  rw [freeCount, freeCount, cover_perm (freeChunks_removeNode member), cover_cons]

theorem mem_of_mem_removeNode {s : BuddyAllocator} {c d : Chunk} (member : c ∈ s.freeChunks)
    (kept : d ∈ (s.removeNode c.order c.start).freeChunks) : d ∈ s.freeChunks :=
  (freeChunks_removeNode member).mem_iff.mpr (List.mem_cons_of_mem _ kept)

/-! ## Giving blocks back -/

@[simp] theorem orders_releaseTail (j : Nat) (s : BuddyAllocator) (base remaining : Int) :
    (releaseTail j s base remaining).orders = s.orders := by
  induction j generalizing s remaining with
  | zero => rfl
  | succ j ih =>
    simp only [releaseTail]
    split <;> simp [ih]

/-- The tail loop adds the downward cut of the remainder. -/
theorem freeChunks_releaseTail {j : Nat} {s : BuddyAllocator} (bound : j ≤ s.orders) (base remaining : Int) :
    (releaseTail j s base remaining).freeChunks.Perm
      (downward j remaining (base + remaining) ++ s.freeChunks) := by
  induction j generalizing s remaining with
  | zero => exact List.Perm.refl _
  | succ j ih =>
    simp only [releaseTail, downward]
    split
    · rename_i set
      have cleared : clearBit remaining j = remaining - 2 ^ j := if_pos set
      have rest := ih (s := s.prependNewNode j (base + remaining - 2 ^ j))
        (by simp only [orders_prependNewNode]; omega) (remaining - 2 ^ j)
      rw [cleared, show base + remaining - 2 ^ j = base + (remaining - 2 ^ j) by ring] at *
      refine rest.trans ?_
      refine (List.Perm.append_left _ (freeChunks_prependNewNode s (by omega) _)).trans ?_
      exact List.perm_middle
    · exact ih (by omega) remaining

theorem releaseTail_zero (j : Nat) (s : BuddyAllocator) (base : Int) : releaseTail j s base 0 = s := by
  induction j with
  | zero => rfl
  | succ j ih => simpa [releaseTail, bit] using ih

@[simp] theorem orders_releaseHead (j : Nat) (s : BuddyAllocator) (remaining start : Int) :
    (releaseHead j s remaining start).1.orders = s.orders := by
  induction j generalizing s start with
  | zero => rfl
  | succ j ih =>
    simp only [releaseHead]
    split <;> simp [ih]

/-- The head loop adds the upward cut of the blocks before the request. -/
theorem freeChunks_releaseHead {j : Nat} {s : BuddyAllocator} (bound : j ≤ s.orders) (remaining start : Int) :
    (releaseHead j s remaining start).1.freeChunks.Perm (upward j remaining start ++ s.freeChunks) := by
  induction j generalizing s start with
  | zero => exact List.Perm.refl _
  | succ j ih =>
    simp only [releaseHead, upward]
    split
    · have rest := ih (s := s.prependNewNode j start)
        (by simp only [orders_prependNewNode]; omega) (start + 2 ^ j)
      refine rest.trans ?_
      refine (List.Perm.append_left _ (freeChunks_prependNewNode s (by omega) _)).trans ?_
      exact List.perm_middle
    · exact ih (by omega) start

/-- The head loop leaves its position behind the blocks it gave back. -/
theorem releaseHead_position (j : Nat) (s : BuddyAllocator) (remaining start : Int) :
    (releaseHead j s remaining start).2 = start + remaining % 2 ^ j := by
  induction j generalizing s start with
  | zero => simp [releaseHead]
  | succ j ih =>
    rw [emod_two_pow_succ]
    simp only [releaseHead]
    split
    · rw [ih]
      ring
    · rw [ih, add_zero]

theorem freeCount_releaseTail {j : Nat} {s : BuddyAllocator} (bound : j ≤ s.orders)
    (base remaining block : Int) :
    (releaseTail j s base remaining).freeCount block =
      span (base + remaining - remaining % 2 ^ j) (base + remaining) block + s.freeCount block := by
  rw [freeCount, cover_perm (freeChunks_releaseTail bound base remaining), cover_append, cover_downward]
  rfl

theorem freeCount_releaseHead {j : Nat} {s : BuddyAllocator} (bound : j ≤ s.orders)
    (remaining start block : Int) :
    (releaseHead j s remaining start).1.freeCount block =
      span start (start + remaining % 2 ^ j) block + s.freeCount block := by
  rw [freeCount, cover_perm (freeChunks_releaseHead bound remaining start), cover_append, cover_upward]
  rfl

/-! ## Taking the chunk at a position -/

/-- What a search for the free chunk that begins at `start` can do. -/
inductive AlignedTake (s : BuddyAllocator) (start : Int) : BuddyAllocator × Int → Prop where
  | missed (absent : ∀ c ∈ s.freeChunks, c.start ≠ start) : AlignedTake s start (s, 0)
  | taken (c : Chunk) (member : c ∈ s.freeChunks) (begins : c.start = start) :
      AlignedTake s start (s.removeNode c.order c.start, 2 ^ c.order)

theorem allocateAlignedBlocks_take (s : BuddyAllocator) (start : Int) :
    AlignedTake s start (s.allocateAlignedBlocks start) := by
  suffices search : ∀ i ≤ s.orders,
      (∀ c ∈ s.freeChunks, i ≤ c.order → c.start ≠ start) →
        AlignedTake s start (s.allocateAlignedBlocksFrom start i) from
    search s.orders le_rfl fun c member high =>
      absurd (mem_freeChunks.mp member).1 (Nat.not_lt.mpr high)
  intro i bound above
  induction i with
  | zero => exact .missed fun c member => above c member (Nat.zero_le _)
  | succ i ih =>
    simp only [allocateAlignedBlocksFrom]
    split
    · rename_i listed
      exact .taken ⟨i, start⟩ (mem_freeChunks.mpr ⟨bound, listed⟩) rfl
    · rename_i unlisted
      refine ih (by omega) fun c member high => ?_
      rcases Nat.eq_or_lt_of_le high with same | higher
      · intro begins
        exact unlisted (by
          have listed := (mem_freeChunks.mp member).2
          rwa [begins, ← same] at listed)
      · exact above c member higher

end FluxOS.BuddyAllocator
