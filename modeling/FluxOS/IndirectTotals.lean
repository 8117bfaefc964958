import FluxOS.FileReading

/-! How much the loop over a double indirect block copies. Each pass takes away all that has been
copied so far, and moves on by as much: `moved` counts what it has moved on by. -/
namespace FluxOS.Ext2

/-- What the loop takes to be left of `n` bytes. -/
def leftOver (n moved : Nat) : Nat := (n + (2 ^ 32 - moved % 2 ^ 32)) % 2 ^ 32

/-- The loop goes on. -/
def GoesOn (init n moved : Nat) : Prop := (init + moved) % 2 ^ 32 < (init + leftOver n moved) % 2 ^ 32

/-- What one pass copies. -/
def passCount (init n moved : Nat) : Nat :=
  min (leftOver n moved) (indirectArea - (init + moved) % 2 ^ 32 % indirectArea)

/-- The loop, having moved on by so much and copied so much, ends with so much copied. -/
inductive DoubleTotal (init n : Nat) : Nat → Nat → Nat → Prop
  | stop {moved copied : Nat} : ¬GoesOn init n moved → DoubleTotal init n moved copied copied
  | pass {moved copied total : Nat} : GoesOn init n moved →
      DoubleTotal init n (moved + (copied + passCount init n moved)) (copied + passCount init n moved) total →
      DoubleTotal init n moved copied total

section Passes

variable {init n moved copied total : Nat}

theorem leftOver_of_le (le : moved ≤ n) (small : n < 2 ^ 32) : leftOver n moved = n - moved := by
  rw [leftOver, Nat.mod_eq_of_lt (Nat.lt_of_le_of_lt le small)]
  omega

theorem leftOver_of_lt (gt : n < moved) (small : moved < 2 ^ 32) : leftOver n moved = 2 ^ 32 + n - moved := by
  rw [leftOver, Nat.mod_eq_of_lt small]
  omega

/-- As long as it has not moved on by more than there was to copy, the loop goes on until half of that. -/
theorem goesOn_of_le (le : moved ≤ n) (small : init + n < 2 ^ 32) : GoesOn init n moved ↔ 2 * moved < n := by
  rw [GoesOn, leftOver_of_le le (by omega), Nat.mod_eq_of_lt (by omega), Nat.mod_eq_of_lt (by omega)]
  omega

/-- Afterwards what is left is a huge number, unless the sum with the position wraps around once more. -/
theorem goesOn_of_lt (gt : n < moved) (small : init + moved < 2 ^ 32) :
    GoesOn init n moved ↔ init + n < moved ∧ 2 * moved < 2 ^ 32 + n := by
  rw [GoesOn, leftOver_of_lt gt (by omega), Nat.mod_eq_of_lt small]
  by_cases wraps : init + n < moved
  · rw [Nat.mod_eq_of_lt (by omega)]
    omega
  · rw [show init + (2 ^ 32 + n - moved) = init + n - moved + 2 ^ 32 by omega, Nat.add_mod_right, Nat.mod_eq_of_lt (by omega)]
    omega

theorem passCount_of_le (le : moved ≤ n) (small : init + n < 2 ^ 32) :
    passCount init n moved = min (n - moved) (indirectArea - (init + moved) % indirectArea) := by
  rw [passCount, leftOver_of_le le (by omega), Nat.mod_eq_of_lt (show init + moved < 2 ^ 32 by omega)]

/-- A huge number of bytes left means that all of the indirect block is copied. -/
theorem passCount_of_lt (gt : n < moved) (small : init + moved + indirectArea < 2 ^ 32) :
    passCount init n moved = indirectArea - (init + moved) % indirectArea := by
  rw [passCount, leftOver_of_lt gt (by omega), Nat.mod_eq_of_lt (show init + moved < 2 ^ 32 by omega)]
  exact min_eq_right (by omega)

theorem passCount_le (init n moved : Nat) : passCount init n moved ≤ indirectArea :=
  (Nat.min_le_right _ _).trans (Nat.sub_le _ _)

end Passes

section Totals

variable {init n moved copied total : Nat}

theorem DoubleTotal.le (run : DoubleTotal init n moved copied total) : copied ≤ total := by
  induction run with
  | stop => exact Nat.le_refl _
  | pass _ _ ih => omega

/-- One more pass, of so many bytes. -/
theorem DoubleTotal.next (count : Nat) (run : DoubleTotal init n moved copied total) (goesOn : GoesOn init n moved)
    (counted : passCount init n moved = count) :
    DoubleTotal init n (moved + (copied + count)) (copied + count) total := by
  cases run with
  | stop ends => exact absurd goesOn ends
  | pass _ rest => rwa [counted] at rest

/-- The first pass. -/
theorem DoubleTotal.first (run : DoubleTotal init n 0 0 total) (some : 0 < n) (small : init + n < 2 ^ 32) :
    DoubleTotal init n (min n (indirectArea - init % indirectArea)) (min n (indirectArea - init % indirectArea)) total := by
  have count := passCount_of_le (Nat.zero_le n) small
  rw [Nat.sub_zero, Nat.add_zero] at count
  have next := run.next _ ((goesOn_of_le (Nat.zero_le n) small).mpr (by omega)) count
  rwa [Nat.zero_add, Nat.zero_add] at next

theorem DoubleTotal.pos (run : DoubleTotal init n 0 0 total) (some : 0 < n) (small : init + n < 2 ^ 32) : 0 < total := by
  have least := (run.first some small).le
  have below : init % indirectArea < indirectArea := Nat.mod_lt _ (by decide)
  omega

/-- As long as the loop has not moved on by more than it is to copy, it copies less; and when it has, it stops. -/
theorem DoubleTotal.short (run : DoubleTotal init n moved copied total) (small : init + n + indirectArea < 2 ^ 32)
    (behind : copied + (indirectArea - init % indirectArea) ≤ moved) (ahead : moved ≤ n) : total < n := by
  have below : init % indirectArea < indirectArea := Nat.mod_lt _ (by decide)
  have least : init % indirectArea ≤ init := Nat.mod_le _ _
  induction run with
  | stop => omega
  | @pass moved copied total goesOn rest ih =>
    have half := (goesOn_of_le ahead (by omega)).mp goesOn
    have most := passCount_le init n moved
    have left : passCount init n moved ≤ n - moved := by
      rw [passCount_of_le ahead (by omega)]
      exact Nat.min_le_left _ _
    generalize passCount init n moved = count at rest ih most left
    by_cases still : moved + (copied + count) ≤ n
    · exact ih (by omega) still
    · cases rest with
      | stop => omega
      | pass again _ =>
        have wraps := ((goesOn_of_lt (by omega) (by omega)).mp again).1
        omega

/-- One more pass after the loop has moved on by more than there was to copy: it copies the rest of an indirect block. -/
theorem DoubleTotal.next_of_lt (rest : Nat) (run : DoubleTotal init n moved copied total) (gt : init + n < moved)
    (small : init + moved + indirectArea < 2 ^ 31) (whole : (init + moved) % indirectArea + rest = indirectArea) :
    DoubleTotal init n (moved + (copied + rest)) (copied + rest) total := by
  refine run.next rest ((goesOn_of_lt (by omega) (by omega)).mpr ⟨gt, by omega⟩) ?_
  rw [passCount_of_lt (by omega) (by omega)]
  omega

/-- Once the loop has moved on by more than there was to copy, it copies too much. -/
theorem DoubleTotal.overruns (run : DoubleTotal init n (3 * indirectArea - 2 * init) (2 * indirectArea - init) total)
    (low : 2 * init < indirectArea) (less : 2 * indirectArea - init < n) (more : n + 3 * init < 3 * indirectArea) :
    total ≠ n := by
  unfold indirectArea at *
  by_cases zero : init = 0
  · have run₃ := run.next_of_lt 262144 (by omega) (by unfold indirectArea; omega) (by unfold indirectArea; omega)
    have least := run₃.le
    omega
  · have run₃ := run.next_of_lt init (by omega) (by unfold indirectArea; omega) (by unfold indirectArea; omega)
    have run₄ := run₃.next_of_lt init (by omega) (by unfold indirectArea; omega) (by unfold indirectArea; omega)
    have run₅ := run₄.next_of_lt 262144 (by omega) (by unfold indirectArea; omega) (by unfold indirectArea; omega)
    have least := run₅.le
    omega

/-- What comes after two passes, the second over a whole indirect block, is less or more than what there was. -/
theorem DoubleTotal.after_two {first : Nat} (run : DoubleTotal init n (2 * first + indirectArea) (first + indirectArea) total)
    (small : init + n + indirectArea < 2 ^ 32) (rest : init % indirectArea + first = indirectArea)
    (large : first + indirectArea < n) : total ≠ n := by
  have least : init % indirectArea ≤ init := Nat.mod_le _ _
  by_cases ahead : 2 * first + indirectArea ≤ n
  · exact (run.short small (by omega) ahead).ne
  · by_cases wraps : init + n < 2 * first + indirectArea
    · -- then the loop began in the first indirect block
      have start : init % indirectArea = init := Nat.mod_eq_of_lt (by omega)
      have same : first = indirectArea - init := by omega
      rw [same, show 2 * (indirectArea - init) + indirectArea = 3 * indirectArea - 2 * init by omega,
        show indirectArea - init + indirectArea = 2 * indirectArea - init by omega] at run
      exact run.overruns (by omega) (by omega) (by omega)
    · cases run with
      | stop => omega
      | pass again _ =>
        have beyond := ((goesOn_of_lt (by omega) (by omega)).mp again).1
        omega

/-- All is copied, and no more, only if one pass is enough, or two of which the second is the longer one. -/
theorem DoubleTotal.reads (run : DoubleTotal init n 0 0 n) (small : init + n + 2 * indirectArea < 2 ^ 32) :
    DoubleReads init n := by
  obtain ⟨first, firstEq⟩ : ∃ first, indirectArea - init % indirectArea = first := ⟨_, rfl⟩
  have below : init % indirectArea < indirectArea := Nat.mod_lt _ (by decide)
  have rest : init % indirectArea + first = indirectArea := by omega
  have aligned : (init + first) % indirectArea = 0 := by
    have parts := Nat.div_add_mod init indirectArea
    rw [show init + first = indirectArea * (init / indirectArea + 1) by rw [Nat.mul_add]; omega, Nat.mul_mod_right]
  unfold DoubleReads
  rw [firstEq]
  by_contra wrong
  obtain ⟨large, notTwo⟩ := not_or.mp wrong
  have run₁ := run.first (by omega) (by omega)
  rw [firstEq, min_eq_right (by omega)] at run₁
  by_cases stops : n ≤ 2 * first
  · cases run₁ with
    | stop => omega
    | pass again _ =>
      have half := (goesOn_of_le (by omega) (by omega)).mp again
      omega
  have twice : GoesOn init n first := (goesOn_of_le (by omega) (by omega)).mpr (by omega)
  have count₂ : passCount init n first = min (n - first) indirectArea := by
    rw [passCount_of_le (by omega) (by omega), aligned, Nat.sub_zero]
  by_cases fits : n - first ≤ indirectArea
  · -- the second pass reads the rest, and the loop goes on
    have run₂ := run₁.next (n - first) twice (count₂.trans (min_eq_left fits))
    rw [show first + (n - first) = n by omega] at run₂
    have start : init < first := by omega
    have again : GoesOn init n (first + n) := (goesOn_of_lt (by omega) (by omega)).mpr ⟨by omega, by omega⟩
    have positive : 0 < passCount init n (first + n) := by
      rw [passCount_of_lt (by omega) (by omega)]
      exact Nat.sub_pos_of_lt (Nat.mod_lt _ (by decide))
    have more := (run₂.next _ again rfl).le
    omega
  · have run₂ := run₁.next indirectArea twice (count₂.trans (min_eq_right (by omega)))
    rw [show first + (first + indirectArea) = 2 * first + indirectArea by omega] at run₂
    exact run₂.after_two (by omega) rest (by omega) rfl

/-- Each pass copies at most `indirectArea` bytes, and so the loop moves on ever faster. -/
theorem square_pass {count : Nat} (square : copied * copied ≤ 2 * indirectArea * moved) (most : count ≤ indirectArea) :
    (copied + count) * (copied + count) ≤ 2 * indirectArea * (moved + (copied + count)) := by
  have mixed : count * copied ≤ indirectArea * copied := Nat.mul_le_mul_right _ most
  have own : count * count ≤ indirectArea * count := Nat.mul_le_mul_right _ most
  nlinarith only [square, mixed, own]

theorem lt_doubleArea_of_square (square : copied * copied ≤ 2 * indirectArea * moved) (inside : moved < 2 ^ 32) :
    copied < doubleArea := by
  by_contra large
  have larger := Nat.mul_le_mul (Nat.not_lt.mp large) (Nat.not_lt.mp large)
  unfold doubleArea at larger
  unfold indirectArea at square
  omega

/-- From the beginning of a double indirect block, the loop never gets to its end. -/
theorem DoubleTotal.lt_doubleArea (run : DoubleTotal 0 n moved copied total) (small : n + doubleArea ≤ 2 ^ 32)
    (square : copied * copied ≤ 2 * indirectArea * moved) (inside : moved < 2 ^ 32) (few : moved ≤ n ∨ n < 2 ^ 28) :
    total < doubleArea := by
  induction run with
  | stop => exact lt_doubleArea_of_square square inside
  | @pass moved copied total goesOn rest ih =>
    have copiedBelow := lt_doubleArea_of_square square inside
    have most := passCount_le 0 n moved
    generalize passCount 0 n moved = count at rest ih most
    have half : moved ≤ n ∧ 2 * moved < n ∨ 2 * moved < 2 ^ 32 + n ∧ n < 2 ^ 28 := by
      unfold doubleArea at small
      by_cases le : moved ≤ n
      · exact .inl ⟨le, (goesOn_of_le le (by omega)).mp goesOn⟩
      · exact .inr ⟨((goesOn_of_lt (by omega) (by omega)).mp goesOn).2, by omega⟩
    have next := square_pass square most
    unfold doubleArea at copiedBelow small
    unfold indirectArea at most
    refine ih next ?_ ?_ <;> omega

end Totals
end FluxOS.Ext2
