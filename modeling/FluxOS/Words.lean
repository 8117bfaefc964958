import Mathlib.Algebra.Group.Nat.Defs
import Mathlib.Logic.Function.Basic

/-! Machine words of 32 bits and the page arithmetic done on them: masks, flag
bits and the page a word addresses, read as operations on numbers. -/
namespace FluxOS.Words

abbrev Word := BitVec 32

/-- The number of the 4096-byte page that holds the address. -/
def page (w : Word) : Nat := w.toNat / 4096

theorem page_lt (w : Word) : page w < 2 ^ 20 := by
  have bound := w.isLt
  simp only [page]
  omega

/-- The address of a page. -/
def pageAddress (n : Nat) : Word := BitVec.ofNat 32 (n * 4096)

theorem toNat_pageAddress {n : Nat} (bound : n < 2 ^ 20) : (pageAddress n).toNat = n * 4096 := by
  simp only [pageAddress, BitVec.toNat_ofNat]
  omega

theorem page_pageAddress {n : Nat} (bound : n < 2 ^ 20) : page (pageAddress n) = n := by
  rw [page, toNat_pageAddress bound]
  omega

/-! ## Counting -/

theorem toNat_pos {w : Word} (some : w ≠ 0#32) : 0 < w.toNat :=
  Nat.pos_of_ne_zero fun zero => some (BitVec.eq_of_toNat_eq zero)

theorem toNat_add_one {w : Word} (room : w.toNat + 1 < 2 ^ 32) : (w + 1#32).toNat = w.toNat + 1 := by
  rw [BitVec.toNat_add]
  exact Nat.mod_eq_of_lt room

theorem toNat_sub_one {w : Word} (positive : 0 < w.toNat) : (w - 1#32).toNat = w.toNat - 1 := by
  have bound := w.isLt
  rw [BitVec.toNat_sub, BitVec.toNat_ofNat]
  omega

theorem toNat_setWidth_word (w : Word) : (w.setWidth 64).toNat = w.toNat := by
  have bound := w.isLt
  rw [BitVec.toNat_setWidth]
  omega

/-! ## Masks -/

/-- A mask that keeps the page bits keeps the page. -/
theorem page_and {mask : Word} (keeps : mask.toNat / 4096 = 0xFFFFF) (w : Word) : page (w &&& mask) = page w := by
  have bound := page_lt w
  simp only [page] at bound ⊢
  rw [BitVec.toNat_and, Nat.and_div_two_pow (n := 12), keeps]
  exact (Nat.and_two_pow_sub_one_eq_mod _ 20).trans (Nat.mod_eq_of_lt bound)

/-- Flags below the page bits leave the page alone. -/
theorem page_or {flags : Word} (low : flags.toNat < 4096) (w : Word) : page (w ||| flags) = page w := by
  simp only [page]
  rw [BitVec.toNat_or, Nat.or_div_two_pow (n := 12), Nat.div_eq_of_lt low, Nat.or_zero]

/-- `w & 0xFFF`. -/
theorem toNat_and_offset (w : Word) : (w &&& 0xFFF#32).toNat = w.toNat % 4096 := by
  rw [BitVec.toNat_and]
  exact Nat.and_two_pow_sub_one_eq_mod w.toNat 12

/-- `w & 0xFFFFF000`. -/
theorem toNat_and_page (w : Word) : (w &&& 0xFFFFF000#32).toNat = w.toNat / 4096 * 4096 := by
  have kept : page (w &&& 0xFFFFF000#32) = page w := page_and (by decide) w
  have cleared : (w &&& 0xFFFFF000#32).toNat % 4096 = 0 := by
    rw [← toNat_and_offset, BitVec.and_assoc, show 0xFFFFF000#32 &&& 0xFFF#32 = 0#32 by decide]
    simp
  simp only [page] at kept
  omega

/-! ## Flag bits -/

/-- `w & flag`, as a truth value. -/
def has (w flag : Word) : Bool := decide (w &&& flag ≠ 0#32)

@[simp] theorem has_zero (flag : Word) : has 0#32 flag = false := by simp [has]

@[simp] theorem has_or (w v flag : Word) : has (w ||| v) flag = (has w flag || has v flag) := by
  have zero : (w ||| v) &&& flag = 0#32 ↔ w &&& flag = 0#32 ∧ v &&& flag = 0#32 := by
    rw [BitVec.and_comm, BitVec.and_or_distrib_left, BitVec.or_eq_zero_iff, BitVec.and_comm flag,
      BitVec.and_comm flag]
  rw [Bool.eq_iff_iff]
  simp only [has, ne_eq, Bool.or_eq_true, decide_eq_true_eq, zero, not_and_or]

/-- Masking bits other than the flag's keeps the flag. -/
theorem has_and_of_sub {mask flag : Word} (sub : mask &&& flag = flag) (w : Word) :
    has (w &&& mask) flag = has w flag := by
  rw [has, BitVec.and_assoc, sub, has]

end FluxOS.Words
