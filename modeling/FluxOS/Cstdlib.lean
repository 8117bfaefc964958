import FluxOS.Words
import Mathlib.Data.Nat.Digits.Defs
import Mathlib.Tactic.Ring

/-! `atoi` and `itoaz` of `cstdlib.cpp`. -/
namespace FluxOS
open Words

/-- `uintpow`. -/
def uintpow (n m : Word) : Word := BitVec.ofNat 32 (n.toNat ^ m.toNat)

/-- The digits of `atoi`; `i` is the power of the next one. What is no digit divides. -/
def atoiDigits (base : Word) : List Char → Word → Word → Word
  | [], _, retn => retn
  | digit :: s, i, retn =>
    let retn :=
      if '0' ≤ digit ∧ digit ≤ '9' then retn + uintpow base i * BitVec.ofNat 32 (digit.toNat - '0'.toNat)
      else if 'A' ≤ digit ∧ digit ≤ 'F' then retn + uintpow base i * BitVec.ofNat 32 (digit.toNat - 55)
      else retn.sdiv base
    atoiDigits base s (i - 1#32) retn

/-- What `atoi` does behind the sign. A leading zero is skipped, and may stand for another base. -/
def atoiUnsigned (s : List Char) (i : Word) : Word :=
  match s with
  | '0' :: 'x' :: s => atoiDigits 16#32 s (i - 2#32) 0#32
  | '0' :: digit :: s =>
    atoiDigits (if '0' < digit ∧ digit ≤ '9' then 8#32 else 10#32) (digit :: s) (i - 1#32) 0#32
  | ['0'] => 0#32
  | s => atoiDigits 10#32 s i 0#32

def atoi (s : List Char) : Word :=
  let i := BitVec.ofNat 32 s.length - 1#32
  match s with
  | '-' :: s => - atoiUnsigned s i
  | s => atoiUnsigned s i

/-- A digit as `itoaz` writes it. -/
def digitChar (digit : Nat) : Char := Char.ofNat (if digit < 10 then '0'.toNat + digit else 'A'.toNat + digit - 10)

/-- `itoaz`: what it writes, without the zero that ends it. -/
def itoaz (n : Int) (b : Nat) : List Char :=
  let digits := if n = 0 then [0] else Nat.digits b n.natAbs
  let s := digits.map digitChar ++ (if n < 0 then ['-'] else [])
  s.reverse

/-! ## Decimal numbers -/

section Decimal

theorem digitChar_spec : ∀ digit < 10, '0' ≤ digitChar digit ∧ digitChar digit ≤ '9' ∧
    (digitChar digit).toNat - '0'.toNat = digit ∧ (digitChar digit = '0' → digit = 0) ∧ digitChar digit ≠ '-' ∧
    digitChar digit ≠ '/' ∧ digitChar digit ≠ '.' := by
  decide

/-- A character between '0' and '9' is a digit. -/
theorem digitChar_toNat {digit : Char} (low : '0' ≤ digit) (high : digit ≤ '9') :
    digit.toNat - '0'.toNat < 10 ∧ digitChar (digit.toNat - '0'.toNat) = digit := by
  have above : 48 ≤ digit.toNat := low
  have below : digit.toNat ≤ 57 := high
  have small : digit.toNat - '0'.toNat < 10 := by
    show digit.toNat - 48 < 10
    omega
  refine ⟨small, ?_⟩
  rw [digitChar, if_pos small, show '0'.toNat + (digit.toNat - '0'.toNat) = digit.toNat from Nat.add_sub_of_le above]
  exact Char.ofNat_toNat digit

/-- Digits up to 9, from the highest one on, whatever the base, where the count is of so many characters more. -/
theorem atoiDigits_shifted (base : Word) (more : Nat) {digits : List Nat} (decimal : ∀ digit ∈ digits, digit < 10)
    (short : digits.length + more < 2 ^ 32) (retn : Word) :
    atoiDigits base (digits.map digitChar) (BitVec.ofNat 32 (digits.length + more) - 1#32) retn =
      retn + BitVec.ofNat 32 (base.toNat ^ more * Nat.ofDigits base.toNat digits.reverse) := by
  induction digits generalizing retn with
  | nil => exact (BitVec.add_zero retn).symm
  | cons digit rest ih =>
    obtain ⟨low, high, value, _⟩ := digitChar_spec digit (decimal digit List.mem_cons_self)
    have shorter : rest.length + more < 2 ^ 32 := by
      rw [List.length_cons] at short
      omega
    have next : BitVec.ofNat 32 ((digit :: rest).length + more) - 1#32 = BitVec.ofNat 32 (rest.length + more) := by
      rw [List.length_cons, Nat.add_right_comm, BitVec.ofNat_add, BitVec.add_sub_cancel]
    have power : uintpow base (BitVec.ofNat 32 (rest.length + more)) =
        BitVec.ofNat 32 (base.toNat ^ (rest.length + more)) := by
      have exponent : (BitVec.ofNat 32 (rest.length + more)).toNat = rest.length + more := Nat.mod_eq_of_lt shorter
      rw [uintpow, exponent]
    have value' : base.toNat ^ (rest.length + more) * digit + base.toNat ^ more * Nat.ofDigits base.toNat rest.reverse =
        base.toNat ^ more * Nat.ofDigits base.toNat (digit :: rest).reverse := by
      rw [List.reverse_cons, Nat.ofDigits_append, Nat.ofDigits_singleton, List.length_reverse]
      ring
    rw [List.map_cons, atoiDigits, next, if_pos ⟨low, high⟩, value, power, ← BitVec.ofNat_mul,
      ih (fun digit among => decimal digit (List.mem_cons_of_mem _ among)) shorter, BitVec.add_assoc, ← BitVec.ofNat_add,
      value']

theorem atoiDigits_base (base : Word) {digits : List Nat} (decimal : ∀ digit ∈ digits, digit < 10)
    (short : digits.length < 2 ^ 32) (retn : Word) :
    atoiDigits base (digits.map digitChar) (BitVec.ofNat 32 digits.length - 1#32) retn =
      retn + BitVec.ofNat 32 (Nat.ofDigits base.toNat digits.reverse) := by
  have read := atoiDigits_shifted base 0 decimal short retn
  rwa [Nat.add_zero, Nat.pow_zero, Nat.one_mul] at read

/-- The decimal digits of a positive number. -/
theorem itoaz_positive {n : Nat} (positive : 0 < n) : itoaz n 10 = (Nat.digits 10 n).reverse.map digitChar := by
  have not_zero : (n : Int) ≠ 0 := by omega
  have not_negative : ¬ (n : Int) < 0 := by omega
  simp only [itoaz, if_neg not_zero, if_neg not_negative, Int.natAbs_natCast, List.append_nil, List.map_reverse]

theorem digits_decimal {n : Nat} : ∀ digit ∈ (Nat.digits 10 n).reverse, digit < 10 := by
  intro digit among
  exact Nat.digits_lt_base (by decide) (List.mem_reverse.mp among)

/-- The highest digit is not 0, and there are no more digits than the number says. -/
theorem digits_lead {n : Nat} (positive : 0 < n) :
    ∃ digit rest, (Nat.digits 10 n).reverse = digit :: rest ∧ digit ≠ 0 ∧ (digit :: rest).length ≤ n := by
  induction n using Nat.strongRecOn with
  | ind n ih =>
    by_cases one : n < 10
    · rw [Nat.digits_of_lt 10 n positive.ne' one]
      exact ⟨n, [], rfl, positive.ne', positive⟩
    · obtain ⟨digit, rest, split, nonzero, short⟩ := ih (n / 10) (by omega) (by omega)
      rw [Nat.digits_def' (by decide) positive, List.reverse_cons, split]
      refine ⟨digit, rest ++ [n % 10], rfl, nonzero, ?_⟩
      rw [← List.cons_append, List.length_append, List.length_singleton]
      omega

theorem atoiUnsigned_of_lead {first : Char} (not_zero : first ≠ '0') (rest : List Char) (i : Word) :
    atoiUnsigned (first :: rest) i = atoiDigits 10#32 (first :: rest) i 0#32 := by
  unfold atoiUnsigned
  split
  · rename_i zero
    exact absurd (List.cons.inj zero).1 not_zero
  · rename_i zero
    exact absurd (List.cons.inj zero).1 not_zero
  · rename_i zero
    exact absurd (List.cons.inj zero).1 not_zero
  · rfl

theorem atoi_of_no_minus {first : Char} (not_minus : first ≠ '-') (rest : List Char) :
    atoi (first :: rest) = atoiUnsigned (first :: rest) (BitVec.ofNat 32 (first :: rest).length - 1#32) := by
  unfold atoi
  split
  · rename_i minus
    exact absurd (List.cons.inj minus).1 not_minus
  · rfl

theorem atoi_of_lead {first : Char} (not_minus : first ≠ '-') (not_zero : first ≠ '0') (rest : List Char) :
    atoi (first :: rest) = atoiDigits 10#32 (first :: rest) (BitVec.ofNat 32 (first :: rest).length - 1#32) 0#32 := by
  rw [atoi_of_no_minus not_minus, atoiUnsigned_of_lead not_zero]

/-- The characters of a positive number, with a count of so many more. -/
theorem atoiUnsigned_decimal {n : Nat} (positive : 0 < n) {more : Nat} (short : n + more < 2 ^ 32) :
    ∃ first rest, (Nat.digits 10 n).reverse.map digitChar = first :: rest ∧ first ≠ '-' ∧
      atoiUnsigned (first :: rest) (BitVec.ofNat 32 ((first :: rest).length + more) - 1#32) =
        BitVec.ofNat 32 (10 ^ more * n) := by
  obtain ⟨digit, rest, split, nonzero, shorter⟩ := digits_lead positive
  have decimal : ∀ digit ∈ (Nat.digits 10 n).reverse, digit < 10 := digits_decimal
  have value : Nat.ofDigits 10 (Nat.digits 10 n).reverse.reverse = n := by
    rw [List.reverse_reverse, Nat.ofDigits_digits]
  rw [split] at decimal value ⊢
  obtain ⟨_, _, _, zero, not_minus, _⟩ := digitChar_spec digit (decimal digit List.mem_cons_self)
  have read := atoiDigits_shifted 10#32 more decimal (by omega) 0#32
  rw [show (10#32).toNat = 10 from rfl, value, BitVec.zero_add] at read
  refine ⟨digitChar digit, rest.map digitChar, rfl, not_minus, ?_⟩
  rw [atoiUnsigned_of_lead fun same => nonzero (zero same), ← read, List.length_cons, List.length_map, List.map_cons,
    List.length_cons]

/-- A positive number is read as it has been written. -/
theorem atoi_itoaz {n : Nat} (positive : 0 < n) (small : n < 2 ^ 32) : atoi (itoaz n 10) = BitVec.ofNat 32 n := by
  obtain ⟨first, rest, text, not_minus, read⟩ := @atoiUnsigned_decimal n positive 0 small
  rw [Nat.add_zero, Nat.pow_zero, Nat.one_mul] at read
  rw [itoaz_positive positive, text, atoi_of_no_minus not_minus, read]

theorem itoaz_negative {n : Nat} (positive : 0 < n) :
    itoaz (-n) 10 = '-' :: (Nat.digits 10 n).reverse.map digitChar := by
  have not_zero : -(n : Int) ≠ 0 := by omega
  have negative : -(n : Int) < 0 := by omega
  simp only [itoaz, if_neg not_zero, if_pos negative, Int.natAbs_neg, Int.natAbs_natCast, List.map_reverse,
    List.reverse_append, List.reverse_singleton, List.singleton_append]

/-- The count of the characters includes the minus, so every power is one too high. -/
theorem atoi_itoaz_negative {n : Nat} (positive : 0 < n) (small : n < 2 ^ 32 - 1) :
    atoi (itoaz (-n) 10) = - BitVec.ofNat 32 (10 * n) := by
  obtain ⟨first, rest, text, -, read⟩ := @atoiUnsigned_decimal n positive 1 (by omega)
  rw [Nat.pow_one] at read
  rw [itoaz_negative positive, text, atoi, ← read, List.length_cons]

end Decimal
end FluxOS
