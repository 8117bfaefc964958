import FluxOS.BlockDevice
import FluxOS.OnesComplement

/-! `netutils`: the byte order of the network, and the checksum as `checksum` computes it
with a 32-bit sum that is folded once. -/
namespace FluxOS
open Words UserMemoryOps BlockDevice OnesComplement

abbrev Half := BitVec 16

namespace NetUtils

/-- `BSWAP16`. -/
def bswap16 (value : Half) : Half := value <<< 8 ||| value >>> 8

def htons (hostshort : Half) : Half := bswap16 hostshort

def ntohs (netshort : Half) : Half := bswap16 netshort

/-- The loop over the whole words at `data`. -/
def addHalves (data : Block) (count : Nat) (sum : Word) : Word :=
  (List.range count).foldl (fun sum i => sum + (ntohs (le16 data (2 * i))).setWidth 32) sum

/-- The last byte of an odd size: a whole word is read, and its second byte cleared. -/
def addOddByte (data : Block) (size : Nat) (sum : Word) : Word :=
  if size % 2 = 0 then sum else sum + (ntohs (le16 data (2 * (size / 2)) &&& 0x00FF#16)).setWidth 32

/-- `htons(~((sum & 0xFFFF) + (sum >> 16)))`. -/
def folded (sum : Word) : Half := htons ((~~~((sum &&& 0xFFFF#32) + sum >>> 16)).setWidth 16)

def checksum (data : Block) (size : Nat) : Half :=
  folded (addOddByte data size (addHalves data (size / 2) 0#32))

/-- The form with two buffers. -/
def checksumWithHeader (fakeHeader : Block) (fakeSize : Nat) (data : Block) (size : Nat) : Half :=
  folded (addOddByte data size (addHalves data (size / 2) (addHalves fakeHeader (fakeSize / 2) 0#32)))

/-! ## Stores -/

def store8 (block : Block) (offset : Nat) (value : Byte) : Block := Function.update block offset value

def store16 (block : Block) (offset : Nat) (value : Half) : Block :=
  store8 (store8 block offset (value.setWidth 8)) (offset + 1) ((value >>> 8).setWidth 8)

def store32 (block : Block) (offset : Nat) (value : Word) : Block :=
  store16 (store16 block offset (value.setWidth 16)) (offset + 2) ((value >>> 16).setWidth 16)

theorem le16_store16 {block : Block} {offset : Nat} (value : Half) :
    le16 (store16 block offset value) offset = value := by
  have low : store16 block offset value offset = value.setWidth 8 := by
    rw [store16, store8, Function.update_of_ne (by omega), store8, Function.update_self]
  have high : store16 block offset value (offset + 1) = (value >>> 8).setWidth 8 := by
    rw [store16, store8, Function.update_self]
  rw [le16, low, high]
  apply BitVec.eq_of_getLsbD_eq
  intro i inside
  rw [BitVec.getLsbD_append]
  by_cases low : i < 8
  · simp [low]
  · simp [low, show i - 8 < 8 by omega, show 8 + (i - 8) = i by omega]

theorem store16_other {block : Block} {offset i : Nat} (low : i ≠ offset) (high : i ≠ offset + 1) (value : Half) :
    store16 block offset value i = block i := by
  rw [store16, store8, Function.update_of_ne high, store8, Function.update_of_ne low]

theorem le32_store32 {block : Block} {offset : Nat} (value : Word) :
    le32 (store32 block offset value) offset = value := by
  have first : store32 block offset value offset = store16 block offset (value.setWidth 16) offset :=
    store16_other (by omega) (by omega) _
  have second : store32 block offset value (offset + 1) = store16 block offset (value.setWidth 16) (offset + 1) :=
    store16_other (by omega) (by omega) _
  have low : le16 (store32 block offset value) offset = value.setWidth 16 := by
    rw [le16, first, second]
    exact le16_store16 _
  have high : le16 (store32 block offset value) (offset + 2) = (value >>> 16).setWidth 16 := le16_store16 _
  rw [le32, low, high]
  apply BitVec.eq_of_getLsbD_eq
  intro i inside
  rw [BitVec.getLsbD_append]
  by_cases low : i < 16
  · simp [low]
  · simp [low, show i - 16 < 16 by omega, show 16 + (i - 16) = i by omega]

/-! ## The words of a byte string -/

/-- Adjacent bytes make a word, the first one its high half; an odd last byte is padded with zero. -/
def digits (data : Block) (size : Nat) : List Nat :=
  (List.range ((size + 1) / 2)).map fun i =>
    256 * (data (2 * i)).toNat + if 2 * i + 1 < size then (data (2 * i + 1)).toNat else 0

/-- RFC 1071: the complement of the words' sum with end-around carry. -/
def internetChecksum (data : Block) (size : Nat) : Nat := 0xFFFF - sumAround 0x10000 (digits data size)

/-- No carry is left when the words' total has been folded once. -/
def FoldsOnce (data : Block) (size : Nat) : Prop := fold 0x10000 (digits data size).sum < 0x10000

instance (data : Block) (size : Nat) : Decidable (FoldsOnce data size) := inferInstanceAs (Decidable (_ < _))

theorem toNat_bswap16 (value : Half) : (bswap16 value).toNat = value.toNat % 256 * 256 + value.toNat / 256 := by
  have bound := value.isLt
  have high : (value <<< 8).toNat = (value.toNat % 256) <<< 8 := by
    rw [BitVec.toNat_shiftLeft, Nat.shiftLeft_eq, Nat.shiftLeft_eq]
    omega
  have low : (value >>> 8).toNat = value.toNat / 256 := by
    rw [BitVec.toNat_ushiftRight, Nat.shiftRight_eq_div_pow]
  rw [bswap16, BitVec.toNat_or, high, low, ← Nat.shiftLeft_add_eq_or_of_lt (by omega), Nat.shiftLeft_eq]

@[simp] theorem ntohs_htons (value : Half) : ntohs (htons value) = value := by
  have bound := value.isLt
  apply BitVec.eq_of_toNat_eq
  rw [ntohs, htons, toNat_bswap16, toNat_bswap16]
  omega

theorem toNat_le16 (data : Block) (offset : Nat) :
    (le16 data offset).toNat = 256 * (data (offset + 1)).toNat + (data offset).toNat := by
  rw [le16, BitVec.toNat_append, ← Nat.shiftLeft_add_eq_or_of_lt (data offset).isLt, Nat.shiftLeft_eq, Nat.mul_comm]

/-- The first byte is the high half. -/
theorem toNat_ntohs_le16 (data : Block) (offset : Nat) :
    (ntohs (le16 data offset)).toNat = 256 * (data offset).toNat + (data (offset + 1)).toNat := by
  have first := (data offset).isLt
  have second := (data (offset + 1)).isLt
  rw [ntohs, toNat_bswap16, toNat_le16]
  omega

theorem toNat_ntohs_firstByte (data : Block) (offset : Nat) :
    (ntohs (le16 data offset &&& 0x00FF#16)).toNat = 256 * (data offset).toNat := by
  have first := (data offset).isLt
  have kept : (le16 data offset &&& 0x00FF#16).toNat = (data offset).toNat := by
    rw [BitVec.toNat_and, toNat_le16]
    refine (Nat.and_two_pow_sub_one_eq_mod _ 8).trans ?_
    omega
  rw [ntohs, toNat_bswap16, kept]
  omega

/-! ## The sum that is computed -/

private theorem sum_range_le (f : Nat → Nat) (small : ∀ i, f i < 0x10000) (count : Nat) :
    ((List.range count).map f).sum ≤ count * 0xFFFF := by
  induction count with
  | zero => simp
  | succ count ih =>
    have last := small count
    rw [List.range_succ, List.map_append, List.sum_append]
    simp only [List.map_cons, List.map_nil, List.sum_cons, List.sum_nil]
    omega

theorem digits_even (data : Block) {size : Nat} (even : size % 2 = 0) :
    digits data size = (List.range (size / 2)).map fun i => (ntohs (le16 data (2 * i))).toNat := by
  have half : (size + 1) / 2 = size / 2 := by omega
  rw [digits, half]
  refine List.map_congr_left fun i mem => ?_
  have inside := List.mem_range.mp mem
  rw [toNat_ntohs_le16, if_pos (by omega)]

theorem digits_odd (data : Block) {size : Nat} (odd : size % 2 = 1) :
    digits data size = digits data (size - 1) ++ [256 * (data (size - 1)).toNat] := by
  have half : (size + 1) / 2 = (size - 1 + 1) / 2 + 1 := by omega
  have last : 2 * ((size - 1 + 1) / 2) = size - 1 := by omega
  rw [digits, half, List.range_succ, List.map_append]
  simp only [List.map_cons, List.map_nil, last]
  rw [if_neg (by omega), Nat.add_zero, digits]
  refine congrArg (· ++ _) (List.map_congr_left fun i mem => ?_)
  have inside := List.mem_range.mp mem
  rw [if_pos (by omega), if_pos (by omega)]

theorem digits_small (data : Block) (size : Nat) : ∀ d ∈ digits data size, d < 0x10000 := by
  intro d mem
  obtain ⟨i, -, rfl⟩ := List.mem_map.mp mem
  have first := (data (2 * i)).isLt
  have second := (data (2 * i + 1)).isLt
  split <;> omega

theorem sum_digits_le (data : Block) (size : Nat) : (digits data size).sum ≤ (size + 1) / 2 * 0xFFFF := by
  refine sum_range_le _ (fun i => ?_) _
  have first := (data (2 * i)).isLt
  have second := (data (2 * i + 1)).isLt
  split <;> omega

theorem toNat_addHalves (data : Block) (count : Nat) (sum : Word)
    (fits : sum.toNat + ((List.range count).map fun i => (ntohs (le16 data (2 * i))).toNat).sum < 2 ^ 32) :
    (addHalves data count sum).toNat =
      sum.toNat + ((List.range count).map fun i => (ntohs (le16 data (2 * i))).toNat).sum := by
  induction count with
  | zero => simp [addHalves]
  | succ count ih =>
    rw [List.range_succ, List.map_append, List.sum_append] at fits ⊢
    simp only [List.map_cons, List.map_nil, List.sum_cons, List.sum_nil, Nat.add_zero] at fits ⊢
    have before := ih (by omega)
    have bound := (ntohs (le16 data (2 * count))).isLt
    rw [addHalves, List.range_succ, List.foldl_append, List.foldl_cons, List.foldl_nil, ← addHalves, BitVec.toNat_add,
      before, BitVec.toNat_setWidth, Nat.mod_eq_of_lt (Nat.lt_of_lt_of_le bound (by decide)), Nat.mod_eq_of_lt (by omega)]
    omega

/-- What one buffer adds to the sum. -/
theorem toNat_addBuffer (data : Block) (size : Nat) (sum : Word) (fits : sum.toNat + (digits data size).sum < 2 ^ 32) :
    (addOddByte data size (addHalves data (size / 2) sum)).toNat = sum.toNat + (digits data size).sum := by
  obtain even | odd := Nat.mod_two_eq_zero_or_one size
  · rw [digits_even data even] at fits ⊢
    rw [addOddByte, if_pos even]
    exact toNat_addHalves data (size / 2) sum fits
  · have last : 2 * (size / 2) = size - 1 := by omega
    have half : (size - 1) / 2 = size / 2 := by omega
    have bound := (data (size - 1)).isLt
    rw [digits_odd data odd, List.sum_append, List.sum_singleton, digits_even data (by omega), half] at fits ⊢
    have before := toNat_addHalves data (size / 2) sum (by omega)
    rw [addOddByte, if_neg (by omega), last, BitVec.toNat_add, before, BitVec.toNat_setWidth, toNat_ntohs_firstByte,
      Nat.mod_eq_of_lt (a := 256 * _) (by omega), Nat.mod_eq_of_lt (by omega)]
    omega

/-- What is written for a sum: its one fold, without the carry, complemented. -/
theorem toNat_folded (sum : Word) : (ntohs (folded sum)).toNat = 0xFFFF - fold 0x10000 sum.toNat % 0x10000 := by
  have bound := sum.isLt
  have low : (sum &&& 0xFFFF#32).toNat = sum.toNat % 0x10000 := by
    rw [BitVec.toNat_and]
    exact Nat.and_two_pow_sub_one_eq_mod _ 16
  have high : (sum >>> 16).toNat = sum.toNat / 0x10000 := by
    rw [BitVec.toNat_ushiftRight, Nat.shiftRight_eq_div_pow]
  rw [folded, ntohs_htons, BitVec.toNat_setWidth, BitVec.toNat_not, BitVec.toNat_add, low, high, fold]
  omega

end NetUtils
end FluxOS
