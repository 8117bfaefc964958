import FluxOS.AddressText
import FluxOS.Cstdlib
import FluxOS.DirectoryEntries
import Mathlib.Data.Nat.Digits.Lemmas

/-! `itoaz` and `uitoaz` of the kernel on numbers of 64 bits, with the loops in which they write the digits and turn
them round. -/
namespace FluxOS.NumberText
open Words UserMemoryOps BlockDevice Ext2 AddressText

/-- A digit, which is an `int`, as a `char`. -/
def digitText (digit : Word) : Byte :=
  (if digit.slt 10#32 then 48#32 + digit else 65#32 + digit - 10#32).setWidth 8

/-- The loop that writes the digits, the lowest one first, with the remainder and the quotient by the base. -/
def writeDigits (rem div : BitVec 64 → BitVec 64) : Nat → BitVec 64 → Nat → Block → Option (Nat × Block)
  | 0, _, _, _ => none
  | rounds + 1, num, i, s =>
    let s := store s i (digitText ((rem num).setWidth 32))
    if div num ≠ 0#64 then writeDigits rem div rounds (div num) (i + 1) s else some (i + 1, s)

/-- The loop that turns what is between two indices round, the upper one first. -/
def swapBetween : Nat → Nat → Block → Block
  | 0, _, s => s
  | k + 1, j, s => if j < k + 1 then swapBetween k (j + 1) (store (store s (k + 1) (s j)) j (s (k + 1))) else s

def minus : Byte := 45#8

/-- `itoaz`: the length and the memory. In base 2 and up there are not more than 64 digits. -/
def itoaz (n : BitVec 64) (s : Block) (b : Word) : Option (Nat × Block) :=
  let num := if (0#64).slt n then n else -n
  (writeDigits (·.srem (b.setWidth 64)) (·.sdiv (b.setWidth 64)) 64 num 0 s).map fun (i, s) =>
    let (i, s) := if n.slt 0#64 then (i + 1, store s i minus) else (i, s)
    (i, store (swapBetween (i - 1) 0 s) i 0#8)

def uitoaz (n : BitVec 64) (s : Block) (b : Word) : Option (Nat × Block) :=
  (writeDigits (· % b.setWidth 64) (· / b.setWidth 64) 64 n 0 s).map fun (i, s) =>
    (i, store (swapBetween (i - 1) 0 s) i 0#8)

/-- The canonical text of a number. -/
def intText (n : Int) (b : Nat) : List Byte :=
  if n < 0 then minus :: uitoazDigits n.natAbs b else uitoazDigits n.natAbs b

/-- `itoaz` writes the text of the number and returns its length. -/
def WritesInt (n : BitVec 64) (b : Word) : Prop :=
  ∀ s, ∃ s', itoaz n s b = some ((intText n.toInt b.toNat).length, s') ∧ CString s' (intText n.toInt b.toNat)

/-- `uitoaz` does the same. -/
def WritesUnsigned (n : BitVec 64) (b : Word) : Prop :=
  ∀ s, ∃ s', uitoaz n s b = some ((intText n.toNat b.toNat).length, s') ∧ CString s' (intText n.toNat b.toNat)

/-- The characters of a text. -/
def chars (text : List Byte) : List Char := text.map fun c => Char.ofNat c.toNat

/-! ## The loops -/

section Loops

variable {s : Block}

theorem storeAll_apply (s : Block) (i : Nat) (bytes : List Byte) (k : Nat) :
    storeAll s i bytes k = if i ≤ k then bytes[k - i]?.getD (s k) else s k := by
  induction bytes generalizing s i with
  | nil => simp [storeAll]
  | cons c rest ih =>
    rw [storeAll, ih, AddressText.store]
    rcases Nat.lt_trichotomy k i with before | rfl | behind
    · rw [if_neg (by omega), if_neg (by omega), if_neg (by omega)]
    · rw [if_neg (by omega), if_pos rfl, if_pos (Nat.le_refl k), Nat.sub_self, List.getElem?_cons_zero, Option.getD_some]
    · rw [if_pos (by omega), if_neg (by omega), if_pos (by omega), show k - i = k - (i + 1) + 1 by omega,
        List.getElem?_cons_succ]

theorem storeAll_concat (s : Block) (bytes : List Byte) (c : Byte) :
    store (storeAll s 0 bytes) bytes.length c = storeAll s 0 (bytes ++ [c]) := by
  funext k
  simp only [AddressText.store, storeAll_apply, Nat.zero_le, if_true, Nat.sub_zero]
  rcases Nat.lt_trichotomy k bytes.length with before | rfl | behind
  · rw [if_neg (by omega), List.getElem?_append_left before]
  · simp
  · rw [if_neg (by omega), List.getElem?_eq_none (by omega), List.getElem?_eq_none (by simp; omega)]

theorem swapBetween_apply (k j : Nat) (s : Block) (i : Nat) :
    swapBetween k j s i = if j ≤ i ∧ i ≤ k then s (j + k - i) else s i := by
  induction k generalizing j s with
  | zero =>
    rw [swapBetween]
    split
    · congr 1
      omega
    · rfl
  | succ k ih =>
    rw [swapBetween]
    by_cases apart : j < k + 1
    · rw [if_pos apart, ih]
      simp only [AddressText.store]
      by_cases inside : j + 1 ≤ i ∧ i ≤ k
      · rw [if_pos inside, if_neg (by omega), if_neg (by omega), if_pos (by omega)]
        congr 1
        omega
      · rw [if_neg inside]
        by_cases first : i = j
        · rw [if_pos first, if_pos (by omega)]
          congr 1
          omega
        · rw [if_neg first]
          by_cases last : i = k + 1
          · rw [if_pos last, if_pos (by omega)]
            congr 1
            omega
          · rw [if_neg last, if_neg (by omega)]
    · rw [if_neg apart]
      split
      · congr 1
        omega
      · rfl

/-- All that has been stored is turned round. -/
theorem swapBetween_storeAll (s : Block) (bytes : List Byte) :
    swapBetween (bytes.length - 1) 0 (storeAll s 0 bytes) = storeAll s 0 bytes.reverse := by
  funext i
  simp only [swapBetween_apply, storeAll_apply, Nat.zero_le, if_true, Nat.sub_zero, Nat.zero_add, true_and]
  by_cases inside : i < bytes.length
  · rw [if_pos (by omega), List.getElem?_reverse inside]
    rw [List.getElem?_eq_getElem (by omega), Option.getD_some, Option.getD_some]
  · have none : bytes.reverse[i]? = none := List.getElem?_eq_none (by rw [List.length_reverse]; omega)
    rw [none]
    split
    · have empty : bytes.length = 0 := by omega
      rw [List.getElem?_eq_none (by omega), show bytes.length - 1 - i = i by omega]
    · rw [List.getElem?_eq_none (by omega)]

end Loops

/-! ## The digits -/

/-- The digits of a number, the lowest one first. -/
def lowDigits (n b : Nat) : List Nat := if n = 0 then [0] else Nat.digits b n

theorem lowDigits_step (n : Nat) {b : Nat} (base : 2 ≤ b) :
    lowDigits n b = n % b :: if n / b = 0 then [] else lowDigits (n / b) b := by
  by_cases zero : n = 0
  · subst zero
    simp [lowDigits]
  · rw [lowDigits, if_neg zero, Nat.digits_def' base (Nat.pos_of_ne_zero zero)]
    split
    · next last => rw [last, Nat.digits_zero]
    · next more => rw [lowDigits, if_neg more]

/-- What the operations of the loop do on the numbers that stand for 0, 1, ...: their digits are written as these
bytes. -/
structure Divides (rem div : BitVec 64 → BitVec 64) (b : Nat) (number : Nat → BitVec 64) (byte : Nat → Byte)
    (most : Nat) : Prop where
  digit : ∀ m ≤ most, digitText ((rem (number m)).setWidth 32) = byte (m % b)
  quotient : ∀ m ≤ most, div (number m) = number (m / b)
  zero : ∀ m ≤ most, number m = 0#64 ↔ m = 0

section Digits

variable {rem div : BitVec 64 → BitVec 64} {b : Nat} {number : Nat → BitVec 64} {byte : Nat → Byte} {most : Nat}

theorem Divides.writes (divides : Divides rem div b number byte most) (base : 2 ≤ b) (s : Block) {rounds m : Nat}
    (bound : m ≤ most) (some : 0 < rounds) (enough : m < 2 ^ rounds) (written : List Byte) :
    writeDigits rem div rounds (number m) written.length (storeAll s 0 written) =
      .some (written.length + (lowDigits m b).length, storeAll s 0 (written ++ (lowDigits m b).map byte)) := by
  induction rounds generalizing m written with
  | zero => exact absurd some (Nat.lt_irrefl 0)
  | succ rounds ih =>
    have below : m / b ≤ most := Nat.le_trans (Nat.div_le_self m b) bound
    have zero := divides.zero (m / b) below
    rw [writeDigits, divides.digit m bound, storeAll_concat, lowDigits_step m base, divides.quotient m bound]
    by_cases last : m / b = 0
    · rw [if_neg (not_not.mpr (zero.mpr last)), if_pos last]
      rfl
    · have half : m / b ≤ m / 2 := Nat.div_le_div_left base (by decide)
      have more : 0 < rounds := by
        apply Nat.pos_of_ne_zero
        rintro rfl
        exact last (Nat.div_eq_of_lt (by omega))
      have next := ih below more (by rw [Nat.pow_succ] at enough; omega) (written ++ [byte (m % b)])
      rw [List.length_append, List.length_singleton] at next
      rw [if_pos fun ends => last (zero.mp ends), if_neg last, next, List.map_cons, List.length_cons, List.append_assoc,
        List.singleton_append, Nat.add_assoc, Nat.add_comm 1]

/-- What is behind the loop turns all of it round, and ends it. -/
theorem finish_storeAll (s : Block) (bytes : List Byte) :
    store (swapBetween (bytes.length - 1) 0 (storeAll s 0 bytes)) bytes.length 0#8 =
      storeAll s 0 (bytes.reverse ++ [0#8]) := by
  rw [swapBetween_storeAll, ← storeAll_concat, List.length_reverse]

theorem digitText_ofNat : ∀ digit < 16, digitText (BitVec.ofNat 32 digit) = digitByte digit := by
  decide

theorem digit_small {m b : Nat} (base : 2 ≤ b) (base' : b ≤ 16) : m % b < 16 :=
  Nat.lt_of_lt_of_le (Nat.mod_lt m (by omega)) base'

theorem umod_ofNat {m : Nat} (small : m < 2 ^ 64) (b : Word) :
    BitVec.ofNat 64 m % b.setWidth 64 = BitVec.ofNat 64 (m % b.toNat) := by
  have less : m % b.toNat ≤ m := Nat.mod_le m b.toNat
  apply BitVec.eq_of_toNat_eq
  rw [BitVec.toNat_umod, toNat_setWidth_word, BitVec.toNat_ofNat, BitVec.toNat_ofNat, Nat.mod_eq_of_lt small,
    Nat.mod_eq_of_lt (Nat.lt_of_le_of_lt less small)]

theorem udiv_ofNat {m : Nat} (small : m < 2 ^ 64) (b : Word) :
    BitVec.ofNat 64 m / b.setWidth 64 = BitVec.ofNat 64 (m / b.toNat) := by
  have less : m / b.toNat ≤ m := Nat.div_le_self m b.toNat
  apply BitVec.eq_of_toNat_eq
  rw [BitVec.toNat_udiv, toNat_setWidth_word, BitVec.toNat_ofNat, BitVec.toNat_ofNat, Nat.mod_eq_of_lt small,
    Nat.mod_eq_of_lt (Nat.lt_of_le_of_lt less small)]

theorem ofNat_eq_zero {m : Nat} (small : m < 2 ^ 64) : BitVec.ofNat 64 m = 0#64 ↔ m = 0 := by
  rw [← BitVec.toNat_inj, BitVec.toNat_ofNat, Nat.mod_eq_of_lt small]
  rfl

theorem msb_base (b : Word) : (b.setWidth 64).msb = false := by
  have small := b.isLt
  rw [BitVec.msb_eq_decide, toNat_setWidth_word, decide_eq_false_iff_not]
  omega

theorem msb_ofNat {m : Nat} (small : m < 2 ^ 63) : (BitVec.ofNat 64 m).msb = false := by
  rw [BitVec.msb_eq_decide, BitVec.toNat_ofNat, decide_eq_false_iff_not]
  omega

theorem msb_neg_ofNat {m : Nat} (positive : 0 < m) (small : m ≤ 2 ^ 63) : (-BitVec.ofNat 64 m).msb = true := by
  rw [BitVec.msb_eq_decide, BitVec.toNat_neg, BitVec.toNat_ofNat, decide_eq_true_eq]
  omega

/-- The digits of a negative number are negative as well. -/
theorem divides_negative (b : Word) : Divides (·.srem (b.setWidth 64)) (·.sdiv (b.setWidth 64)) b.toNat
    (fun m => -BitVec.ofNat 64 m) (fun digit => digitText (-BitVec.ofNat 32 digit)) (2 ^ 63) where
  digit m bound := by
    rcases Nat.eq_zero_or_pos m with rfl | positive
    · simp
    · simp only [BitVec.srem_eq, msb_base, msb_neg_ofNat positive bound, BitVec.neg_neg,
        umod_ofNat (show m < 2 ^ 64 by omega)]
      rw [BitVec.setWidth_neg_of_le (by decide), BitVec.setWidth_ofNat_of_le (by decide)]
  quotient m bound := by
    rcases Nat.eq_zero_or_pos m with rfl | positive
    · simp
    · simp only [BitVec.sdiv_eq, msb_base, msb_neg_ofNat positive bound, BitVec.neg_neg]
      exact congrArg _ (udiv_ofNat (by omega) b)
  zero m bound := by
    rw [BitVec.neg_eq_zero_iff, ofNat_eq_zero (by omega)]

section Bases

variable {b : Word} (base : 2 ≤ b.toNat) (base' : b.toNat ≤ 16)

include base base'

/-- Unsigned numbers. -/
theorem divides_unsigned :
    Divides (· % b.setWidth 64) (· / b.setWidth 64) b.toNat (BitVec.ofNat 64) digitByte (2 ^ 64 - 1) where
  digit m bound := by
    rw [umod_ofNat (by omega), BitVec.setWidth_ofNat_of_le (by decide), digitText_ofNat _ (digit_small base base')]
  quotient m bound := udiv_ofNat (by omega) b
  zero m bound := ofNat_eq_zero (by omega)

/-- Numbers with a sign that are not negative. -/
theorem divides_positive :
    Divides (·.srem (b.setWidth 64)) (·.sdiv (b.setWidth 64)) b.toNat (BitVec.ofNat 64) digitByte (2 ^ 63 - 1) where
  digit m bound := by
    simp only [BitVec.srem_eq, msb_base, msb_ofNat (show m < 2 ^ 63 by omega)]
    exact (divides_unsigned base base').digit m (by omega)
  quotient m bound := by
    simp only [BitVec.sdiv_eq, msb_base, msb_ofNat (show m < 2 ^ 63 by omega)]
    exact (divides_unsigned base base').quotient m (by omega)
  zero m bound := ofNat_eq_zero (by omega)

end Bases

end Digits

/-! ## The texts -/

section Texts

variable {n : BitVec 64} {b : Word}

/-- The number that is divided is the absolute value, which of the lowest one is the number itself. -/
theorem absolute_eq (n : BitVec 64) : (if (0#64).slt n then n else -n) = BitVec.ofNat 64 n.toInt.natAbs := by
  rw [← BitVec.ofInt_natCast 64 n.toInt.natAbs]
  by_cases positive : (0#64).slt n
  · rw [if_pos positive]
    rw [BitVec.slt_iff_toInt_lt, BitVec.toInt_zero] at positive
    rw [Int.natAbs_of_nonneg (Int.le_of_lt positive), BitVec.ofInt_toInt]
  · rw [if_neg positive]
    rw [BitVec.slt_iff_toInt_lt, BitVec.toInt_zero] at positive
    rw [Int.ofNat_natAbs_of_nonpos (by omega), BitVec.ofInt_neg, BitVec.ofInt_toInt]

/-- What is in the memory before it is turned round: the digits, and the sign. -/
def signedDigits (byte : Nat → Byte) (n : BitVec 64) (b : Word) : List Byte :=
  (lowDigits n.toInt.natAbs b.toNat).map byte ++ if n.slt 0#64 then [minus] else []

/-- What `itoaz` writes, whatever the division does. -/
theorem itoaz_of_divides {number : Nat → BitVec 64} {byte : Nat → Byte} {most : Nat}
    (divides : Divides (·.srem (b.setWidth 64)) (·.sdiv (b.setWidth 64)) b.toNat number byte most) (base : 2 ≤ b.toNat)
    (same : BitVec.ofNat 64 n.toInt.natAbs = number n.toInt.natAbs) (bound : n.toInt.natAbs ≤ most) (s : Block) :
    itoaz n s b = some ((signedDigits byte n b).length, storeAll s 0 ((signedDigits byte n b).reverse ++ [0#8])) := by
  have small : n.toInt.natAbs < 2 ^ 64 := by
    have low := BitVec.le_toInt n
    have high := @BitVec.toInt_lt 64 n
    omega
  have writes := divides.writes base s bound (by decide) small []
  rw [List.nil_append, List.length_nil, Nat.zero_add, ← List.length_map byte] at writes
  change writeDigits _ _ 64 _ 0 s = _ at writes
  rw [itoaz, absolute_eq, same, signedDigits]
  simp only [writes, Option.map_some]
  by_cases negative : n.slt 0#64
  · simp only [if_pos negative, storeAll_concat, ← finish_storeAll, List.length_append, List.length_singleton]
  · simp only [if_neg negative, List.append_nil, finish_storeAll]

theorem slt_zero_iff : n.slt 0#64 ↔ n.toInt < 0 := by
  rw [BitVec.slt_iff_toInt_lt, BitVec.toInt_zero]

theorem intText_eq (n : BitVec 64) (b : Word) : intText n.toInt b.toNat = (signedDigits digitByte n b).reverse := by
  rw [intText, signedDigits, List.reverse_append]
  by_cases negative : n.toInt < 0
  · rw [if_pos negative, if_pos (slt_zero_iff.mpr negative)]
    rfl
  · rw [if_neg negative, if_neg (negative ∘ slt_zero_iff.mp)]
    rfl

theorem digitByte_ne_zero : ∀ digit < 16, digitByte digit ≠ 0#8 := by
  decide

/-- Every character of a number is something. -/
theorem intText_proper {b : Nat} (base : 2 ≤ b) (base' : b ≤ 16) (n : Int) : 0#8 ∉ intText n b := by
  have digits : 0#8 ∉ uitoazDigits n.natAbs b := by
    rw [uitoazDigits, List.mem_reverse, List.mem_map]
    rintro ⟨digit, among, zero⟩
    have small : digit < 16 := by
      split at among
      · rw [List.mem_singleton] at among
        omega
      · have less := Nat.digits_lt_base base among
        omega
    exact digitByte_ne_zero digit small zero
  rw [intText]
  split
  · rw [List.mem_cons, not_or]
    exact ⟨by decide, digits⟩
  · exact digits

theorem storeAll_string {text : List Byte} (proper : 0#8 ∉ text) (s : Block) :
    CString (storeAll s 0 (text ++ [0#8])) text where
  bytes i inside := by
    rw [storeAll_apply, if_pos (Nat.zero_le i), Nat.sub_zero, List.getElem?_append_left inside,
      List.getElem?_eq_getElem inside, Option.getD_some]
  ends := by
    rw [storeAll_apply, if_pos (Nat.zero_le _), Nat.sub_zero, List.getElem?_append_right (Nat.le_refl _), Nat.sub_self]
    rfl
  text := proper

/-- Up to the lowest number, `itoaz` writes the text. -/
theorem itoaz_writes (base : 2 ≤ b.toNat) (base' : b.toNat ≤ 16) (notLowest : n ≠ BitVec.intMin 64) (s : Block) :
    itoaz n s b =
      some ((intText n.toInt b.toNat).length, storeAll s 0 (intText n.toInt b.toNat ++ [0#8])) := by
  have bound : n.toInt.natAbs ≤ 2 ^ 63 - 1 := by
    have low := BitVec.le_toInt n
    have high := @BitVec.toInt_lt 64 n
    have apart : n.toInt ≠ -2 ^ 63 := fun same => notLowest (BitVec.eq_of_toInt_eq same)
    omega
  rw [itoaz_of_divides (divides_positive base base') base rfl bound, intText_eq, List.length_reverse]

theorem uitoaz_writes (base : 2 ≤ b.toNat) (base' : b.toNat ≤ 16) (n : BitVec 64) (s : Block) :
    uitoaz n s b = some (AddressText.uitoaz n.toNat b.toNat s 0) := by
  have small := n.isLt
  have bound : n.toNat ≤ 2 ^ 64 - 1 := by omega
  have writes := (divides_unsigned base base').writes base s bound (by decide) small []
  rw [List.nil_append, List.length_nil, Nat.zero_add, BitVec.ofNat_toNat, BitVec.setWidth_eq,
    ← List.length_map digitByte] at writes
  change writeDigits _ _ 64 _ 0 s = _ at writes
  simp only [uitoaz, writes, Option.map_some, finish_storeAll]
  rw [AddressText.uitoaz, uitoazDigits, List.length_reverse]
  rfl

theorem writesInt_of_ne (base : 2 ≤ b.toNat) (base' : b.toNat ≤ 16) (notLowest : n ≠ BitVec.intMin 64) :
    WritesInt n b :=
  fun s => ⟨_, itoaz_writes base base' notLowest s, storeAll_string (intText_proper base base' _) s⟩

theorem writesUnsigned (base : 2 ≤ b.toNat) (base' : b.toNat ≤ 16) (n : BitVec 64) : WritesUnsigned n b := by
  have text : intText n.toNat b.toNat = uitoazDigits n.toNat b.toNat := if_neg (by omega)
  intro s
  refine ⟨_, ?_, storeAll_string (intText_proper base base' _) s⟩
  rw [uitoaz_writes base base', AddressText.uitoaz, text]

/-- The highest digit is not 0. -/
theorem lowDigits_lead {m b : Nat} (positive : m ≠ 0) (base : 2 ≤ b) :
    ∃ digit rest, (lowDigits m b).reverse = digit :: rest ∧ digit ≠ 0 ∧ digit < b := by
  have some : Nat.digits b m ≠ [] := Nat.digits_ne_nil_iff_ne_zero.mpr positive
  refine ⟨(Nat.digits b m).getLast some, (Nat.digits b m).dropLast.reverse, ?_, Nat.getLast_digit_ne_zero b positive,
    Nat.digits_lt_base base (List.getLast_mem some)⟩
  rw [lowDigits, if_neg positive]
  nth_rewrite 1 [← List.dropLast_append_getLast some]
  rw [List.reverse_append, List.reverse_singleton, List.singleton_append]

theorem digitText_negative : ∀ digit < 16, digit ≠ 0 → digitText (-BitVec.ofNat 32 digit) ≠ digitByte digit := by
  decide

/-- The lowest number has no absolute value, and so its digits are no digits. -/
theorem lowest_not_written (base : 2 ≤ b.toNat) (base' : b.toNat ≤ 16) : ¬ WritesInt (BitVec.intMin 64) b := by
  intro right
  obtain ⟨s', written, string⟩ := right fun _ => 0#8
  rw [itoaz_of_divides (divides_negative b) base (by decide) (by decide)] at written
  obtain ⟨-, rfl⟩ := Prod.mk.inj (Option.some.inj written)
  obtain ⟨digit, rest, lead, nonzero, less⟩ := @lowDigits_lead (BitVec.intMin 64).toInt.natAbs b.toNat (by decide) base
  have text (byte : Nat → Byte) :
      (signedDigits byte (BitVec.intMin 64) b).reverse = minus :: byte digit :: rest.map byte := by
    rw [signedDigits, if_pos (by decide), List.reverse_append, ← List.map_reverse, lead]
    rfl
  rw [intText_eq, text, text] at string
  have second := string.bytes 1 (Nat.succ_lt_succ (Nat.succ_pos _))
  rw [storeAll_apply, if_pos (Nat.zero_le 1)] at second
  exact digitText_negative digit (Nat.lt_of_lt_of_le less base') nonzero second

theorem writesInt_iff (base : 2 ≤ b.toNat) (base' : b.toNat ≤ 16) : WritesInt n b ↔ n ≠ BitVec.intMin 64 := by
  constructor
  · rintro right rfl
    exact lowest_not_written base base' right
  · exact writesInt_of_ne base base'

end Texts

/-! ## Reading -/

theorem char_digitByte : ∀ digit < 16, Char.ofNat (digitByte digit).toNat = digitChar digit := by
  decide

/-- The characters are those that the directory of the processes has for its names. -/
theorem chars_intText {b : Nat} (base : 2 ≤ b) (base' : b ≤ 16) (n : Int) : chars (intText n b) = FluxOS.itoaz n b := by
  have digits (m : Nat) : chars (uitoazDigits m b) = ((if m = 0 then [0] else Nat.digits b m).map digitChar).reverse := by
    rw [chars, uitoazDigits, List.map_reverse, List.map_map]
    congr 1
    apply List.map_congr_left
    intro digit among
    apply char_digitByte
    split at among
    · rw [List.mem_singleton] at among
      omega
    · have less := Nat.digits_lt_base base among
      omega
  have zero : n.natAbs = 0 ↔ n = 0 := Int.natAbs_eq_zero
  rw [FluxOS.itoaz, intText]
  simp only [← zero, List.reverse_append, ← digits]
  split
  · rfl
  · rfl

/-- Nine times a number is not 0 in 32 bits, as 9 is odd. -/
theorem tenfold_ne {m : Nat} (positive : 0 < m) (small : m < 2 ^ 32) : BitVec.ofNat 32 (10 * m) ≠ BitVec.ofNat 32 m := by
  have more : m ≤ 10 * m := by omega
  have nine : 10 * m - m = 9 * m := by omega
  intro same
  rw [← BitVec.toNat_inj, BitVec.toNat_ofNat, BitVec.toNat_ofNat] at same
  have ninefold : 2 ^ 32 ∣ 10 * m - m := (Nat.modEq_iff_dvd' more).mp same.symm
  rw [nine] at ninefold
  have divides : 2 ^ 32 ∣ m := Nat.Coprime.dvd_of_dvd_mul_left (by decide) ninefold
  exact absurd (Nat.le_of_dvd positive divides) (Nat.not_le.mpr small)

/-- A number of 32 bits is read as it is written just if it has no sign. -/
theorem atoi_chars_iff (n : Word) : atoi (chars (intText n.toInt 10)) = n ↔ 0 ≤ n.toInt := by
  rw [chars_intText (by decide) (by decide)]
  rcases Int.lt_trichotomy n.toInt 0 with negative | zero | positive
  · have low := BitVec.le_toInt n
    have absolute : n.toInt = -(n.toInt.natAbs : Int) := by omega
    have self : n = -BitVec.ofNat 32 n.toInt.natAbs := by
      rw [← BitVec.ofInt_natCast, ← BitVec.ofInt_neg, ← absolute, BitVec.ofInt_toInt]
    refine iff_of_false (fun same => ?_) (by omega)
    rw [absolute, atoi_itoaz_negative (by omega) (by omega)] at same
    exact tenfold_ne (by omega) (by omega) (BitVec.neg_inj.mp (same.trans self))
  · have self : n = 0#32 := by rw [← BitVec.ofInt_toInt (x := n), zero]; rfl
    rw [self]
    exact iff_of_true rfl (Int.le_refl 0)
  · have same : n.toInt = n.toNat := by
      have value := BitVec.toInt_eq_toNat_cond n
      have small := n.isLt
      split at value
      · exact value
      · omega
    rw [same, atoi_itoaz (by omega) n.isLt, BitVec.ofNat_toNat, BitVec.setWidth_eq]
    exact iff_of_true rfl (by omega)

/-- `itoaz` writes every number but the lowest one, `uitoaz` every number, and `atoi` reads those that have no sign. -/
theorem number_text_iff {b : Word} (base : 2 ≤ b.toNat) (base' : b.toNat ≤ 16) (n m : BitVec 64) (k : Word) :
    (WritesInt n b ↔ n ≠ BitVec.intMin 64) ∧ WritesUnsigned m b ∧
      (atoi (chars (intText k.toInt 10)) = k ↔ 0 ≤ k.toInt) :=
  ⟨writesInt_iff base base', writesUnsigned base base' m, atoi_chars_iff k⟩

/-- A number with a sign is written, but only one without is read. -/
theorem seven_written : WritesInt (-7#64) 10#32 ∧ WritesUnsigned 7#64 10#32 ∧
    atoi (chars (intText (7#32).toInt 10)) = 7#32 := by
  obtain ⟨written, unsigned, read⟩ := number_text_iff (b := 10#32) (by decide) (by decide) (-7#64) 7#64 7#32
  exact ⟨written.mpr (by decide), unsigned, read.mpr (by decide)⟩

/-- The lowest number is not written, and -1 is read as -10. -/
theorem lowest_and_negative : ¬ WritesInt (BitVec.intMin 64) 10#32 ∧ atoi (chars (intText (-1#32).toInt 10)) ≠ -1#32 := by
  rw [writesInt_iff (by decide) (by decide)]
  exact ⟨not_not.mpr rfl, fun read => absurd ((atoi_chars_iff _).mp read) (by decide)⟩

end FluxOS.NumberText
