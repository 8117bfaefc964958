import Mathlib.Algebra.Order.Ring.Int
import Mathlib.Algebra.Ring.Divisibility.Basic
import Mathlib.Data.List.Perm.Basic
import Mathlib.Tactic.Ring
import Mathlib.Tactic.Linarith

/-! Power-of-two chunks of consecutive blocks, and how a range of blocks is cut
into them. A bag of chunks is described by how many of its chunks hold each
block: the count is additive, blind to the order of the bag, and at most one
everywhere exactly when the chunks are pairwise disjoint. -/
namespace FluxOS.DyadicChunks

/-- The `2 ^ order` consecutive blocks that begin at `start`. -/
structure Chunk where
  order : Nat
  start : Int
  deriving DecidableEq, Repr

namespace Chunk

/-- The first block past the chunk. -/
def stop (c : Chunk) : Int := c.start + 2 ^ c.order

/-- The block lies in the chunk. -/
def Holds (c : Chunk) (block : Int) : Prop := c.start ≤ block ∧ block < c.stop

instance (c : Chunk) (block : Int) : Decidable (c.Holds block) :=
  inferInstanceAs (Decidable (_ ∧ _))

/-- The chunk starts at a multiple of its own size. -/
def Aligned (c : Chunk) : Prop := (2 : Int) ^ c.order ∣ c.start

/-- The two chunks share no block. -/
def Apart (c d : Chunk) : Prop := c.stop ≤ d.start ∨ d.stop ≤ c.start

instance (c : Chunk) : Decidable c.Aligned := inferInstanceAs (Decidable (_ ∣ _))

instance (c d : Chunk) : Decidable (c.Apart d) := inferInstanceAs (Decidable (_ ∨ _))

@[simp] theorem stop_mk (order : Nat) (start : Int) : (mk order start).stop = start + 2 ^ order := rfl

theorem start_lt_stop (c : Chunk) : c.start < c.stop := by
  have positive : (0 : Int) < 2 ^ c.order := by positivity
  simp only [stop]
  omega

theorem holds_start (c : Chunk) : c.Holds c.start := ⟨le_rfl, c.start_lt_stop⟩

/-- Chunks are never empty, so sharing no block is the same as lying apart. -/
theorem apart_iff (c d : Chunk) : c.Apart d ↔ ∀ block, ¬ (c.Holds block ∧ d.Holds block) := by
  have cPositive := c.start_lt_stop
  have dPositive := d.start_lt_stop
  constructor
  · intro apart block shared
    simp only [Apart, Holds] at apart shared
    omega
  · intro separate
    have left := separate c.start
    have right := separate d.start
    simp only [Apart, Holds] at left right ⊢
    omega

end Chunk

/-- Whether the block lies in `[low, high)`, as a count. -/
def span (low high block : Int) : Nat := if low ≤ block ∧ block < high then 1 else 0

theorem span_pos_iff {low high block : Int} : 0 < span low high block ↔ low ≤ block ∧ block < high := by
  unfold span
  split <;> simp_all

theorem span_le_one (low high block : Int) : span low high block ≤ 1 := by
  unfold span
  split <;> decide

theorem span_empty {low high : Int} (empty : high ≤ low) (block : Int) : span low high block = 0 := by
  unfold span
  rw [if_neg (by omega)]

/-- Adjacent ranges add up. -/
theorem span_add {low middle high : Int} (lower : low ≤ middle) (upper : middle ≤ high) (block : Int) :
    span low middle block + span middle high block = span low high block := by
  unfold span
  split_ifs <;> omega

/-- How many chunks of the bag hold the block. -/
def cover (chunks : List Chunk) (block : Int) : Nat :=
  chunks.countP fun c => decide (c.Holds block)

@[simp] theorem cover_nil (block : Int) : cover [] block = 0 := rfl

theorem cover_cons (c : Chunk) (chunks : List Chunk) (block : Int) :
    cover (c :: chunks) block = cover chunks block + span c.start c.stop block := by
  simp only [cover, List.countP_cons, decide_eq_true_eq]
  rfl

theorem cover_append (first second : List Chunk) (block : Int) :
    cover (first ++ second) block = cover first block + cover second block := by
  simp [cover]

theorem cover_perm {first second : List Chunk} (same : first.Perm second) (block : Int) :
    cover first block = cover second block := same.countP_eq _

theorem cover_pos_iff {chunks : List Chunk} {block : Int} :
    0 < cover chunks block ↔ ∃ c ∈ chunks, c.Holds block := by
  simp [cover, List.countP_pos_iff]

theorem cover_eq_zero_iff {chunks : List Chunk} {block : Int} :
    cover chunks block = 0 ↔ ∀ c ∈ chunks, ¬ c.Holds block := by
  simp [cover, List.countP_eq_zero]

/-- Pairwise disjointness, read off the count. -/
theorem pairwise_apart_iff (chunks : List Chunk) :
    chunks.Pairwise Chunk.Apart ↔ ∀ block, cover chunks block ≤ 1 := by
  induction chunks with
  | nil => simp
  | cons c rest ih =>
    rw [List.pairwise_cons, ih]
    constructor
    · rintro ⟨headApart, restOnce⟩ block
      have single := span_le_one c.start c.stop block
      rw [cover_cons]
      by_cases held : c.Holds block
      · have none : cover rest block = 0 :=
          cover_eq_zero_iff.mpr fun d member both =>
            (Chunk.apart_iff c d).mp (headApart d member) block ⟨held, both⟩
        omega
      · have outside : span c.start c.stop block = 0 := if_neg held
        rw [outside]
        exact restOnce block
    · intro once
      refine ⟨fun d member => (Chunk.apart_iff c d).mpr fun block shared => ?_, fun block => ?_⟩
      · have twice := once block
        have counted : 0 < cover rest block := cover_pos_iff.mpr ⟨d, member, shared.2⟩
        have head : 0 < span c.start c.stop block := span_pos_iff.mpr shared.1
        rw [cover_cons] at twice
        omega
      · have bounded := once block
        rw [cover_cons] at bounded
        omega

/-- In a bag that covers no block twice, a block names its chunk. -/
theorem holder_unique {chunks : List Chunk} {block : Int} (once : cover chunks block ≤ 1)
    {c d : Chunk} (cMember : c ∈ chunks) (dMember : d ∈ chunks)
    (cHolds : c.Holds block) (dHolds : d.Holds block) : c = d := by
  induction chunks with
  | nil => cases cMember
  | cons head rest ih =>
    rw [cover_cons] at once
    rcases List.mem_cons.mp cMember with rfl | cRest
    · rcases List.mem_cons.mp dMember with rfl | dRest
      · rfl
      · have counted : 0 < cover rest block := cover_pos_iff.mpr ⟨d, dRest, dHolds⟩
        have head : 0 < span c.start c.stop block := span_pos_iff.mpr cHolds
        omega
    · rcases List.mem_cons.mp dMember with rfl | dRest
      · have counted : 0 < cover rest block := cover_pos_iff.mpr ⟨c, cRest, cHolds⟩
        have head : 0 < span d.start d.stop block := span_pos_iff.mpr dHolds
        omega
      · exact ih (by omega) cRest dRest

/-! ## Binary digits of a length -/

/-- Bit `j` of a length. -/
def bit (n : Int) (j : Nat) : Bool := n / 2 ^ j % 2 == 1

/-- The low `j + 1` bits are the low `j` bits and bit `j` on top of them. -/
theorem emod_two_pow_succ (n : Int) (j : Nat) :
    n % 2 ^ (j + 1) = n % 2 ^ j + if bit n j then 2 ^ j else 0 := by
  have positive : (0 : Int) < 2 ^ j := by positivity
  have split := Int.emod_add_mul_ediv n (2 ^ j)
  have low := Int.emod_nonneg n positive.ne'
  have high := Int.emod_lt_of_pos n positive
  have halves := Int.emod_add_mul_ediv (n / 2 ^ j) 2
  have value : n = (n % 2 ^ j + 2 ^ j * (n / 2 ^ j % 2)) + 2 ^ (j + 1) * (n / 2 ^ j / 2) := by
    rw [pow_succ]
    calc n = n % 2 ^ j + 2 ^ j * (n / 2 ^ j) := split.symm
      _ = n % 2 ^ j + 2 ^ j * (n / 2 ^ j % 2 + 2 * (n / 2 ^ j / 2)) := by rw [halves]
      _ = _ := by ring
  have digit : n / 2 ^ j % 2 = 0 ∨ n / 2 ^ j % 2 = 1 := by omega
  rw [value, Int.add_mul_emod_self_left, ← value]
  rcases digit with zero | one
  · simp only [bit, zero, mul_zero, add_zero, beq_iff_eq, zero_ne_one, ↓reduceIte]
    exact Int.emod_eq_of_lt low (by rw [pow_succ]; omega)
  · simp only [bit, one, mul_one, beq_self_eq_true, ↓reduceIte]
    exact Int.emod_eq_of_lt (by omega) (by rw [pow_succ]; omega)

/-- Taking bit `j` away leaves the bits below it. -/
theorem sub_two_pow_emod (n : Int) (j : Nat) : (n - 2 ^ j) % 2 ^ j = n % 2 ^ j :=
  Int.sub_emod_right n (2 ^ j)

theorem emod_two_pow_le {n : Int} (nonneg : 0 ≤ n) (j : Nat) : n % 2 ^ j ≤ n := by
  have positive : (0 : Int) < 2 ^ j := by positivity
  have split := Int.emod_add_mul_ediv n (2 ^ j)
  have quotient := mul_nonneg positive.le (Int.ediv_nonneg nonneg positive.le)
  omega

/-! ## Cutting a range -/

/-- The low `j` bits of `length` as chunks, largest first, laid upwards from
`start`. -/
def upward : Nat → Int → Int → List Chunk
  | 0, _, _ => []
  | j + 1, length, start =>
    if bit length j then ⟨j, start⟩ :: upward j length (start + 2 ^ j)
    else upward j length start

/-- The low `j` bits of `length` as chunks, largest first, laid downwards from
`stop`. -/
def downward : Nat → Int → Int → List Chunk
  | 0, _, _ => []
  | j + 1, length, stop =>
    if bit length j then ⟨j, stop - 2 ^ j⟩ :: downward j (length - 2 ^ j) (stop - 2 ^ j)
    else downward j length stop

/-- The upward cut tiles exactly the low part of the length. -/
theorem cover_upward (j : Nat) (length start block : Int) :
    cover (upward j length start) block = span start (start + length % 2 ^ j) block := by
  induction j generalizing start with
  | zero => rw [span_empty (by rw [pow_zero, Int.emod_one, add_zero])]; rfl
  | succ j ih =>
    have positive : (0 : Int) < 2 ^ j := by positivity
    have low := Int.emod_nonneg length positive.ne'
    rw [emod_two_pow_succ]
    simp only [upward]
    split
    · rw [cover_cons, ih, Chunk.stop_mk, add_comm]
      dsimp only
      rw [span_add (by omega) (by omega)]
      congr 1
      ring
    · rw [ih, add_zero]

/-- The downward cut tiles the end of the range: all of it when the length has
no bit at `j` or above. -/
theorem cover_downward (j : Nat) (length stop block : Int) :
    cover (downward j length stop) block = span (stop - length % 2 ^ j) stop block := by
  induction j generalizing length stop with
  | zero => rw [span_empty (by rw [pow_zero, Int.emod_one, sub_zero])]; rfl
  | succ j ih =>
    have positive : (0 : Int) < 2 ^ j := by positivity
    have low := Int.emod_nonneg length positive.ne'
    rw [emod_two_pow_succ]
    simp only [downward]
    split
    · rw [cover_cons, ih, sub_two_pow_emod, Chunk.stop_mk, sub_add_cancel,
        span_add (by omega) (by omega)]
      congr 1
      ring
    · rw [ih, add_zero]

private theorem two_pow_dvd_of_succ {j : Nat} {n : Int} (divides : (2 : Int) ^ (j + 1) ∣ n) :
    (2 : Int) ^ j ∣ n := (pow_dvd_pow 2 (Nat.le_succ j)).trans divides

/-- Largest first from an aligned start, every chunk is aligned. -/
theorem aligned_of_mem_upward {j : Nat} {length start : Int} (divides : (2 : Int) ^ j ∣ start)
    {c : Chunk} (member : c ∈ upward j length start) : c.Aligned := by
  induction j generalizing start with
  | zero => cases member
  | succ j ih =>
    have lower := two_pow_dvd_of_succ divides
    simp only [upward] at member
    split at member
    · rcases List.mem_cons.mp member with rfl | deeper
      · exact lower
      · exact ih (dvd_add lower dvd_rfl) deeper
    · exact ih lower member

/-- Largest first below an aligned end, every chunk is aligned. -/
theorem aligned_of_mem_downward {j : Nat} {length stop : Int} (divides : (2 : Int) ^ j ∣ stop)
    {c : Chunk} (member : c ∈ downward j length stop) : c.Aligned := by
  induction j generalizing length stop with
  | zero => cases member
  | succ j ih =>
    have lower := two_pow_dvd_of_succ divides
    simp only [downward] at member
    split at member
    · rcases List.mem_cons.mp member with rfl | deeper
      · exact dvd_sub lower dvd_rfl
      · exact ih (dvd_sub lower dvd_rfl) deeper
    · exact ih lower member

/-- Bits past the length cut nothing. -/
theorem downward_of_lt {k j : Nat} {length stop : Int} (nonneg : 0 ≤ length) (small : length < 2 ^ k)
    (above : k ≤ j) : downward j length stop = downward k length stop := by
  induction j, above using Nat.le_induction with
  | base => rfl
  | succ j above ih =>
    have high : length / 2 ^ j = 0 :=
      Int.ediv_eq_zero_of_lt nonneg (small.trans_le (pow_le_pow_right₀ (by omega) above))
    have clear : bit length j = false := by simp [bit, high]
    simp only [downward, clear]
    exact ih

/-- A remainder smaller than an aligned end's alignment is cut into aligned
chunks, however many bits are looked at. -/
theorem aligned_of_mem_downward_of_lt {k j : Nat} {length stop : Int} (nonneg : 0 ≤ length)
    (small : length < 2 ^ k) (divides : (2 : Int) ^ k ∣ stop) {c : Chunk}
    (member : c ∈ downward j length stop) : c.Aligned := by
  rcases le_total k j with above | below
  · rw [downward_of_lt nonneg small above] at member
    exact aligned_of_mem_downward divides member
  · exact aligned_of_mem_downward ((pow_dvd_pow 2 below).trans divides) member

end FluxOS.DyadicChunks
