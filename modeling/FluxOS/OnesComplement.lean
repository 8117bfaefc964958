import Mathlib.Algebra.BigOperators.Group.List.Basic
import Mathlib.Data.Nat.ModEq

/-! Sums of digits with end-around carry, in any base: a carry out of the digit
is added back at its bottom. A sum so made is the plain total modulo `base - 1`,
and zero only when the total is. -/
namespace FluxOS.OnesComplement

variable {base : Nat}

def addAround (base a b : Nat) : Nat := if a + b < base then a + b else a + b - base + 1

def sumAround (base : Nat) (digits : List Nat) : Nat := digits.foldl (addAround base) 0

/-- One fold of a total: its lowest digit and everything carried out of it. -/
def fold (base total : Nat) : Nat := total % base + total / base

theorem addAround_modEq {a b : Nat} (large : 1 < base) : addAround base a b ≡ a + b [MOD base - 1] := by
  unfold addAround
  split
  · exact Nat.ModEq.refl _
  · rename_i carries
    have whole : a + b - base + 1 + (base - 1) = a + b := by omega
    exact (Nat.add_mod_right _ _).symm.trans (congrArg (· % (base - 1)) whole)

theorem addAround_eq_zero {a b : Nat} (large : 1 < base) : addAround base a b = 0 ↔ a + b = 0 := by
  unfold addAround
  split <;> omega

theorem addAround_lt {a b : Nat} (left : a < base) (right : b < base) : addAround base a b < base := by
  unfold addAround
  split <;> omega

theorem fold_modEq (large : 1 < base) (total : Nat) : fold base total ≡ total [MOD base - 1] := by
  have one : base ≡ 1 [MOD base - 1] := by
    have whole : 1 + (base - 1) = base := by omega
    exact (congrArg (· % (base - 1)) whole.symm).trans (Nat.add_mod_right _ _)
  have carried := (one.mul_right (total / base)).add_left (total % base)
  rw [one_mul, Nat.mod_add_div] at carried
  exact carried.symm

theorem fold_eq_zero (base : Nat) {total : Nat} : fold base total = 0 ↔ total = 0 := by
  constructor
  · intro zero
    obtain ⟨low, high⟩ := Nat.add_eq_zero_iff.mp zero
    have whole := Nat.mod_add_div total base
    rw [low, high, Nat.mul_zero] at whole
    exact whole.symm
  · rintro rfl
    simp [fold]

/-- A digit is known from its class modulo `base - 1` and from being zero or not. -/
theorem eq_of_modEq {a b : Nat} (left : a < base) (right : b < base) (zero : a = 0 ↔ b = 0)
    (same : a ≡ b [MOD base - 1]) : a = b := by
  obtain none | some := Nat.eq_zero_or_pos a
  · rw [none, zero.mp none]
  · have positive : 0 < b := Nat.pos_of_ne_zero fun none => absurd (zero.mpr none) (Nat.ne_of_gt some)
    have shifted : a - 1 ≡ b - 1 [MOD base - 1] := by
      apply Nat.ModEq.add_right_cancel' 1
      rw [Nat.sub_add_cancel some, Nat.sub_add_cancel positive]
      exact same
    rw [Nat.ModEq, Nat.mod_eq_of_lt (by omega), Nat.mod_eq_of_lt (by omega)] at shifted
    omega

section Digits

variable {digits : List Nat}

private theorem foldl_addAround (large : 1 < base) (small : ∀ d ∈ digits, d < base) {start : Nat} (lt : start < base) :
    digits.foldl (addAround base) start < base ∧
      (digits.foldl (addAround base) start = 0 ↔ start + digits.sum = 0) ∧
      digits.foldl (addAround base) start ≡ start + digits.sum [MOD base - 1] := by
  induction digits generalizing start with
  | nil => exact ⟨lt, by simp, by simp [Nat.ModEq]⟩
  | cons d rest ih =>
    have step := ih (fun e mem => small e (.tail _ mem)) (addAround_lt lt (small d (.head _)))
    have zero := addAround_eq_zero (a := start) (b := d) large
    simp only [List.foldl_cons, List.sum_cons]
    refine ⟨step.1, ?_, ?_⟩
    · rw [step.2.1]
      omega
    · rw [← Nat.add_assoc]
      exact step.2.2.trans ((addAround_modEq large).add_right _)

theorem sumAround_lt (large : 1 < base) (small : ∀ d ∈ digits, d < base) : sumAround base digits < base :=
  (foldl_addAround large small (Nat.zero_lt_of_lt large)).1

theorem sumAround_eq_zero (large : 1 < base) (small : ∀ d ∈ digits, d < base) :
    sumAround base digits = 0 ↔ digits.sum = 0 := by
  have zero := (foldl_addAround large small (Nat.zero_lt_of_lt large)).2.1
  rwa [Nat.zero_add] at zero

theorem sumAround_modEq (large : 1 < base) (small : ∀ d ∈ digits, d < base) :
    sumAround base digits ≡ digits.sum [MOD base - 1] := by
  have same := (foldl_addAround large small (Nat.zero_lt_of_lt large)).2.2
  rwa [Nat.zero_add] at same

/-- A fold that leaves one digit is the sum. -/
theorem sumAround_of_fold_lt (large : 1 < base) (small : ∀ d ∈ digits, d < base) (once : fold base digits.sum < base) :
    sumAround base digits = fold base digits.sum := by
  refine eq_of_modEq (sumAround_lt large small) once ?_ ?_
  · rw [sumAround_eq_zero large small, fold_eq_zero base]
  · exact (sumAround_modEq large small).trans (fold_modEq large _).symm

/-- A fold that carries once more is one less, after the carry is dropped, than the sum. -/
theorem sumAround_of_fold_ge (large : 1 < base) (small : ∀ d ∈ digits, d < base) (carries : base ≤ fold base digits.sum)
    (twoDigits : digits.sum / base < base) : sumAround base digits = fold base digits.sum - base + 1 := by
  have low : digits.sum % base < base := Nat.mod_lt _ (by omega)
  have short : fold base digits.sum - base + 1 < base := by
    rw [fold] at carries ⊢
    omega
  have one : fold base digits.sum = fold base digits.sum - base + 1 + (base - 1) := by omega
  have same : fold base digits.sum - base + 1 ≡ digits.sum [MOD base - 1] := by
    refine Nat.ModEq.trans ?_ (fold_modEq large _)
    exact (Nat.add_mod_right _ _).symm.trans (congrArg (· % (base - 1)) one.symm)
  refine eq_of_modEq (sumAround_lt large small) short ?_ ((sumAround_modEq large small).trans same.symm)
  rw [sumAround_eq_zero large small, ← fold_eq_zero base]
  omega

/-- The digits and one more add up to all ones exactly when they add up to a multiple of `base - 1`. -/
theorem sumAround_eq_ones (large : 1 < base) (small : ∀ d ∈ digits, d < base) (some : digits.sum ≠ 0) :
    sumAround base digits = base - 1 ↔ digits.sum % (base - 1) = 0 := by
  have same := sumAround_modEq large small
  have positive := (sumAround_eq_zero large small).not.mpr some
  have bound := sumAround_lt large small
  rw [Nat.ModEq] at same
  rw [← same]
  constructor
  · intro ones
    rw [ones, Nat.mod_self]
  · intro multiple
    have reaches := Nat.le_of_dvd (Nat.pos_of_ne_zero positive) (Nat.dvd_of_mod_eq_zero multiple)
    omega

end Digits

end FluxOS.OnesComplement
