import FluxOS.BuddyFreeChunks

/-! Giving a range back, `freeBlocks`. Both scans cut the range at the right
places, but they pass the size of each chunk where `freeAlignedBlock` takes its
order. Every chunk is then entered as a larger one than it is, and the last of
them sticks out behind the range. -/
namespace FluxOS.BuddyAllocator
open DyadicChunks

/-- The release adds chunks that make up exactly the range: pairwise disjoint,
aligned, each in the list of its order. -/
def ReleasesExactly (s : BuddyAllocator) (first size : Int) : Prop :=
  ∃ s' added, s.freeBlocks first size = some s' ∧ s'.freeChunks.Perm (added ++ s.freeChunks) ∧
    added.Pairwise Chunk.Apart ∧ (∀ c ∈ added, c.Aligned ∧ c.order < s.orders) ∧
    ∀ block, (∃ c ∈ added, c.Holds block) ↔ first ≤ block ∧ block < first + size

/-! ## What one chunk adds -/

/-- The chunk for bit `i` is entered in list `2 ^ i`, not in list `i`. -/
theorem freeCount_freeAlignedBlock {s s' : BuddyAllocator} {pos : Int} {i : Nat}
    (ran : s.freeAlignedBlock pos (2 ^ i) = some s') (block : Int) :
    s'.freeCount block = s.freeCount block + span pos (pos + 2 ^ 2 ^ i) block := by
  unfold freeAlignedBlock at ran
  have list : ((2 : Int) ^ i).toNat = 2 ^ i := by exact_mod_cast Int.toNat_natCast (2 ^ i)
  split at ran
  · rename_i bounds
    rw [list, Option.some.injEq] at ran
    subst ran
    have inside : 2 ^ i < s.orders := by exact_mod_cast bounds.2
    rw [freeCount, cover_perm (freeChunks_prependNewNode s inside pos), cover_cons]
    rfl
  · cases ran

/-- The entered chunk holds the block behind the one that was meant. -/
theorem freeCount_freeAlignedBlock_stop {s s' : BuddyAllocator} {pos : Int} {i : Nat}
    (ran : s.freeAlignedBlock pos (2 ^ i) = some s') :
    s.freeCount (pos + 2 ^ i) < s'.freeCount (pos + 2 ^ i) := by
  have positive : (0 : Int) < 2 ^ i := by positivity
  have larger : (2 : Int) ^ i < 2 ^ 2 ^ i := pow_lt_pow_right₀ (by decide) Nat.lt_two_pow_self
  have entered := freeCount_freeAlignedBlock ran (pos + 2 ^ i)
  have held : 0 < span pos (pos + 2 ^ 2 ^ i) (pos + 2 ^ i) := span_pos_iff.mpr ⟨by omega, by omega⟩
  omega

/-! ## The two scans -/

/-- The first scan stays inside the range, and where it ends at the limit of the
range the block there has become free. -/
theorem freeCount_freeLowBits {limit : Int} (bits : Nat) {s s' : BuddyAllocator} {pos pos' : Int}
    (ran : freeLowBits limit bits s pos = some (s', pos')) (within : pos ≤ limit) :
    pos ≤ pos' ∧ pos' ≤ limit ∧ (∀ block, s.freeCount block ≤ s'.freeCount block) ∧
      (pos < limit → pos' = limit → s.freeCount limit < s'.freeCount limit) := by
  induction bits generalizing s pos with
  | zero =>
    cases ran
    exact ⟨le_rfl, within, fun block => le_rfl, fun before ends => absurd ends before.ne⟩
  | succ bits ih =>
    rw [freeLowBits] at ran
    split at ran
    · rename_i taken
      cases entered : s.freeAlignedBlock pos (2 ^ (31 - bits)) with
      | none => simp [entered] at ran
      | some middle =>
        simp only [entered] at ran
        have positive : (0 : Int) < 2 ^ (31 - bits) := by positivity
        obtain ⟨later, inside, grows, ends⟩ := ih ran taken.2
        have entering := freeCount_freeAlignedBlock entered
        refine ⟨by omega, inside, fun block => ?_, fun _ atLimit => ?_⟩
        · have first := entering block
          have rest := grows block
          omega
        · rcases taken.2.lt_or_eq with before | exact
          · have first := entering limit
            have rest := ends before atLimit
            omega
          · have first := freeCount_freeAlignedBlock_stop entered
            rw [exact] at first
            exact first.trans_le (grows limit)
    · exact ih ran within

/-- The second scan frees the blocks it is given and one behind them at least. -/
theorem freeCount_freeHighBits {remaining : Int} (bits : Nat) (low : bits ≤ 32) {s s' : BuddyAllocator}
    {pos : Int} (ran : freeHighBits remaining bits s pos = some s') :
    (∀ block, s.freeCount block ≤ s'.freeCount block) ∧
      (0 < remaining % 2 ^ bits →
        s.freeCount (pos + remaining % 2 ^ bits) < s'.freeCount (pos + remaining % 2 ^ bits)) := by
  induction bits generalizing s pos with
  | zero =>
    cases ran
    exact ⟨fun block => le_rfl, fun more => by simp at more⟩
  | succ i ih =>
    rw [freeHighBits, Nat.mod_eq_of_lt low] at ran
    rw [emod_two_pow_succ]
    split at ran
    · rename_i set
      rw [if_pos set]
      cases entered : s.freeAlignedBlock pos (2 ^ i) with
      | none => simp [entered] at ran
      | some middle =>
        simp only [entered] at ran
        obtain ⟨grows, behind⟩ := ih (by omega) ran
        have entering := freeCount_freeAlignedBlock entered
        have positive : (0 : Int) < 2 ^ i := by positivity
        refine ⟨fun block => ?_, fun _ => ?_⟩
        · have first := entering block
          have rest := grows block
          omega
        · rw [add_comm (remaining % 2 ^ i), ← add_assoc]
          rcases (Int.emod_nonneg remaining positive.ne').lt_or_eq with more | none
          · have first := entering (pos + 2 ^ i + remaining % 2 ^ i)
            have rest := behind more
            omega
          · rw [← none, add_zero]
            exact (freeCount_freeAlignedBlock_stop entered).trans_le (grows _)
    · rename_i clear
      rw [if_neg clear, add_zero]
      exact ih (by omega) ran

/-- The shift by 32 looks at bit 0 once more, which only moves the position on. -/
theorem freeCount_freeHighBits_all {remaining : Int} {s s' : BuddyAllocator} {pos : Int}
    (ran : freeHighBits remaining 33 s pos = some s') (small : remaining < 2 ^ 32) (positive : 0 < remaining) :
    ∃ block, pos + remaining ≤ block ∧ s.freeCount block < s'.freeCount block := by
  have whole : remaining % 2 ^ 32 = remaining := Int.emod_eq_of_lt positive.le small
  rw [freeHighBits, Nat.mod_self] at ran
  split at ran
  · cases entered : s.freeAlignedBlock pos (2 ^ 0) with
    | none =>
      rw [entered] at ran
      cases ran
    | some middle =>
      rw [entered] at ran
      obtain ⟨-, behind⟩ := freeCount_freeHighBits 32 le_rfl ran
      rw [whole] at behind
      have first := freeCount_freeAlignedBlock entered (pos + 2 ^ 0 + remaining)
      have rest := behind positive
      exact ⟨pos + 2 ^ 0 + remaining, by omega, by omega⟩
  · obtain ⟨-, behind⟩ := freeCount_freeHighBits 32 le_rfl ran
    rw [whole] at behind
    exact ⟨pos + remaining, le_rfl, behind positive⟩

/-- Nothing is left for the second scan when the first one reached the limit. -/
theorem freeHighBits_zero (bits : Nat) (s : BuddyAllocator) (pos : Int) :
    freeHighBits 0 bits s pos = some s := by
  induction bits with
  | zero => rfl
  | succ i ih => simpa [freeHighBits, bit] using ih

/-! ## Release as a whole -/

/-- A release that completes has freed a block behind the range. -/
theorem freeBlocks_overruns {s s' : BuddyAllocator} {first size : Int} (positive : 1 ≤ size)
    (fits : size < 2 ^ 32) (ran : s.freeBlocks first size = some s') :
    ∃ block, first + size ≤ block ∧ s.freeCount block < s'.freeCount block := by
  unfold freeBlocks at ran
  cases low : freeLowBits (first + size) 32 s first with
  | none => simp [low] at ran
  | some middle =>
    obtain ⟨middle, pos⟩ := middle
    simp only [low] at ran
    obtain ⟨later, inside, grows, ends⟩ := freeCount_freeLowBits 32 low (by omega)
    rcases inside.lt_or_eq with before | exact
    · obtain ⟨block, behind, more⟩ := freeCount_freeHighBits_all ran (by omega) (by omega)
      have already := grows block
      exact ⟨block, by omega, by omega⟩
    · rw [exact, sub_self, freeHighBits_zero, Option.some.injEq] at ran
      subst ran
      exact ⟨first + size, le_rfl, ends (by omega) exact⟩

/-- A release that is exact leaves the blocks behind the range as they were. -/
theorem ReleasesExactly.behind {s : BuddyAllocator} {first size : Int} (exact : ReleasesExactly s first size) :
    ∃ s', s.freeBlocks first size = some s' ∧
      ∀ block, first + size ≤ block → s'.freeCount block = s.freeCount block := by
  obtain ⟨s', added, ran, entered, -, -, union⟩ := exact
  refine ⟨s', ran, fun block beyond => ?_⟩
  have none : cover added block = 0 := cover_eq_zero_iff.mpr fun c member holds => by
    have within := (union block).mp ⟨c, member, holds⟩
    omega
  rw [freeCount, cover_perm entered, cover_append, none, zero_add]
  rfl

/-- **No release is exact**: of no range whatever, in no state of the allocator. -/
theorem release_never_exact (s : BuddyAllocator) (first : Int) {size : Int} (positive : 1 ≤ size)
    (fits : size < 2 ^ 32) : ¬ ReleasesExactly s first size := by
  intro exact
  obtain ⟨s', ran, same⟩ := exact.behind
  obtain ⟨block, beyond, more⟩ := freeBlocks_overruns positive fits ran
  exact absurd (same block beyond) more.ne'

/-- No release of one block is exact. -/
theorem one_block_not_exact : ¬ ReleasesExactly (withOrders 4) 3 1 :=
  release_never_exact (withOrders 4) 3 (by decide) (by decide)

/-- The block that a first call takes out of eight comes back as two chunks of two
blocks each, `[0, 2)` and `[1, 3)`, while blocks 1 and 2 are free. -/
theorem first_block_released_twice :
    ∃ taken released, (withOrders 4).allocateBlocks 1 = some (taken, 0) ∧ taken.WellFormed ∧ ¬ taken.Free 0 ∧
      taken.freeBlocks 0 1 = some released ∧ released.lists 1 = [1, 0, 2] ∧ ¬ ReleasesExactly taken 0 1 := by
  refine ⟨_, _, rfl, by constructor <;> decide, ?_, rfl, by decide, fun exact => ?_⟩
  · rintro ⟨c, member, holds⟩
    exact absurd holds (by revert c; decide)
  · obtain ⟨s', ran, same⟩ := exact.behind
    obtain rfl := Option.some.inj ran
    exact absurd (same 1 (by decide)) (by decide)

end FluxOS.BuddyAllocator
