import FluxOS.IP

/-! When the checksum that is computed is the Internet checksum, and the header that
`IP::buildIPHeader` makes with it. -/
namespace FluxOS
open Words UserMemoryOps BlockDevice OnesComplement

namespace NetUtils

/-- The first buffer, and the second one right behind it. -/
def joined (first : Block) (firstSize : Nat) (data : Block) : Block :=
  fun i => if i < firstSize then first i else data (i - firstSize)

section Buffers

variable {data first : Block} {size firstSize : Nat}

theorem digits_joined (even : firstSize % 2 = 0) :
    digits (joined first firstSize data) (firstSize + size) = digits first firstSize ++ digits data size := by
  have halves : (firstSize + size + 1) / 2 = (firstSize + 1) / 2 + (size + 1) / 2 := by omega
  have twice : 2 * ((firstSize + 1) / 2) = firstSize := by omega
  rw [digits, halves, List.range_add, List.map_append, List.map_map, digits, digits]
  congr 1
  · refine List.map_congr_left fun i mem => ?_
    have inside := List.mem_range.mp mem
    simp only [joined]
    rw [if_pos (by omega), if_pos (by omega), if_pos (by omega), if_pos (by omega)]
  · refine List.map_congr_left fun i _ => ?_
    have place : 2 * ((firstSize + 1) / 2 + i) = firstSize + 2 * i := by omega
    have behind (k : Nat) : joined first firstSize data (firstSize + k) = data k := by
      rw [joined, if_neg (by omega), Nat.add_sub_cancel_left]
    simp only [Function.comp_apply, place, Nat.add_assoc, Nat.add_lt_add_iff_left, behind]

theorem toNat_checksum (short : (digits data size).sum < 2 ^ 32) :
    (ntohs (checksum data size)).toNat = 0xFFFF - fold 0x10000 (digits data size).sum % 0x10000 := by
  have sum := toNat_addBuffer data size 0#32
  rw [BitVec.toNat_zero, Nat.zero_add] at sum
  rw [checksum, toNat_folded, sum short]

/-- One fold is enough exactly when it leaves no carry; else the checksum is one too large. -/
theorem checksum_eq_iff (short : (digits data size).sum < 2 ^ 32) :
    (ntohs (checksum data size)).toNat = internetChecksum data size ↔ FoldsOnce data size := by
  have small := digits_small data size
  have two : (digits data size).sum / 0x10000 < 0x10000 := by omega
  rw [toNat_checksum short, internetChecksum, FoldsOnce]
  obtain once | carries := Nat.lt_or_ge (fold 0x10000 (digits data size).sum) 0x10000
  · rw [sumAround_of_fold_lt (by decide) small once, Nat.mod_eq_of_lt once]
    exact iff_of_true rfl once
  · have limit : fold 0x10000 (digits data size).sum < 2 * 0x10000 - 1 := by
      rw [fold]
      omega
    rw [sumAround_of_fold_ge (by decide) small carries two]
    refine iff_of_false ?_ (Nat.not_lt.mpr carries)
    omega

theorem checksumWithHeader_eq (even : firstSize % 2 = 0)
    (short : (digits first firstSize).sum + (digits data size).sum < 2 ^ 32) :
    checksumWithHeader first firstSize data size = checksum (joined first firstSize data) (firstSize + size) := by
  have none : addOddByte first firstSize (addHalves first (firstSize / 2) 0#32) = addHalves first (firstSize / 2) 0#32 :=
    if_pos even
  have firstSum := toNat_addBuffer first firstSize 0#32
  have sum := toNat_addBuffer data size (addHalves first (firstSize / 2) 0#32)
  have whole := toNat_addBuffer (joined first firstSize data) (firstSize + size) 0#32
  rw [none, BitVec.toNat_zero, Nat.zero_add] at firstSum
  rw [firstSum (by omega)] at sum
  rw [digits_joined even, List.sum_append, BitVec.toNat_zero, Nat.zero_add] at whole
  refine congrArg folded (BitVec.eq_of_toNat_eq ?_)
  rw [sum short, whole short]

end Buffers

/-! ## A checksum stored in what it sums -/

private theorem sum_range_add_ite (f : Nat → Nat) (k value count : Nat) :
    ((List.range count).map fun i => f i + if i = k then value else 0).sum =
      ((List.range count).map f).sum + if k < count then value else 0 := by
  induction count with
  | zero => simp
  | succ count ih =>
    rw [List.range_succ, List.map_append, List.map_append, List.sum_append, List.sum_append, ih]
    simp only [List.map_cons, List.map_nil, List.sum_cons, List.sum_nil]
    obtain below | same | above := Nat.lt_trichotomy k count
    · rw [if_pos below, if_neg (by omega), if_pos (by omega)]
      omega
    · rw [if_neg (by omega), if_pos same.symm, if_pos (by omega)]
      omega
    · rw [if_neg (by omega), if_neg (by omega), if_neg (by omega)]
      omega

/-- A word stored over two zero bytes adds its value in network byte order. -/
theorem sum_digits_store16 {data : Block} {size k : Nat} (inside : 2 * k + 1 < size) (first : data (2 * k) = 0#8)
    (second : data (2 * k + 1) = 0#8) (value : Half) :
    (digits (store16 data (2 * k) value) size).sum = (digits data size).sum + (ntohs value).toNat := by
  have bound := value.isLt
  have low : (store16 data (2 * k) value) (2 * k) = value.setWidth 8 := by
    rw [store16, store8, Function.update_of_ne (by omega), store8, Function.update_self]
  have high : (store16 data (2 * k) value) (2 * k + 1) = (value >>> 8).setWidth 8 := by
    rw [store16, store8, Function.update_self]
  have others (j : Nat) (notLow : j ≠ 2 * k) (notHigh : j ≠ 2 * k + 1) : (store16 data (2 * k) value) j = data j := by
    rw [store16, store8, Function.update_of_ne notHigh, store8, Function.update_of_ne notLow]
  have adds : digits (store16 data (2 * k) value) size = (List.range ((size + 1) / 2)).map fun i =>
      (256 * (data (2 * i)).toNat + if 2 * i + 1 < size then (data (2 * i + 1)).toNat else 0) +
        if i = k then (ntohs value).toNat else 0 := by
    rw [digits]
    refine List.map_congr_left fun i _ => ?_
    by_cases same : i = k
    · subst same
      rw [if_pos inside, if_pos inside, if_pos rfl, low, high, first, second, ntohs, toNat_bswap16,
        BitVec.toNat_setWidth, BitVec.toNat_setWidth, BitVec.toNat_ushiftRight, Nat.shiftRight_eq_div_pow, BitVec.toNat_zero]
      omega
    · rw [others _ (by omega) (by omega), others _ (by omega) (by omega), if_neg same]
      exact (Nat.add_zero _).symm
  rw [adds, sum_range_add_ite, if_pos (by omega), digits]

end NetUtils

namespace IP
open NetUtils

section Header

variable (buffer : Block) (sourceIP destinationIP : Word) (protocol : Byte) (dataLen : Half)

theorem newIPHeader_check (i : Nat) (low : 10 ≤ i) (high : i < 12) :
    newIPHeader buffer sourceIP destinationIP protocol dataLen i = 0#8 := by
  obtain rfl | rfl : i = 10 ∨ i = 11 := by omega
  all_goals simp [newIPHeader, store32, store16, store8]

/-- A version and a header length are never all zero. -/
theorem newIPHeader_sum_ne_zero : (digits (newIPHeader buffer sourceIP destinationIP protocol dataLen) 20).sum ≠ 0 := by
  have first : newIPHeader buffer sourceIP destinationIP protocol dataLen 0 = 0x45#8 := by
    simp [newIPHeader, store32, store16, store8]
  intro zero
  have word := List.sum_eq_zero_iff_forall_eq_nat.mp zero _ (List.mem_map_of_mem (List.mem_range.mpr (by decide : 0 < 10)))
  rw [Nat.mul_zero, first] at word
  exact absurd word (by simp)

/-- A total and the complement of its fold. -/
private theorem complement_balances {total : Nat} (bound : total < 2 ^ 32) :
    (total + (0xFFFF - fold 0x10000 total % 0x10000)) % (0x10000 - 1) = 0 ↔ fold 0x10000 total < 0x10000 := by
  have split := Nat.div_add_mod total 0x10000
  rw [fold]
  obtain once | carries := Nat.lt_or_ge (total % 0x10000 + total / 0x10000) 0x10000
  · rw [Nat.mod_eq_of_lt once]
    refine iff_of_true ?_ once
    omega
  · rw [Nat.mod_eq_sub_mod carries, Nat.mod_eq_of_lt (a := _ - _) (by omega)]
    refine iff_of_false ?_ (Nat.not_lt.mpr carries)
    omega

/-- The header with its own checksum sums to all ones exactly when the one fold of the rest
leaves no carry. -/
theorem buildIPHeader_iff :
    sumAround 0x10000 (digits (buildIPHeader buffer sourceIP destinationIP protocol dataLen) 20) = 0xFFFF ↔
      FoldsOnce (newIPHeader buffer sourceIP destinationIP protocol dataLen) 20 := by
  have some := newIPHeader_sum_ne_zero buffer sourceIP destinationIP protocol dataLen
  have check := newIPHeader_check buffer sourceIP destinationIP protocol dataLen
  set header := newIPHeader buffer sourceIP destinationIP protocol dataLen with made
  have bound := sum_digits_le header 20
  have total := sum_digits_store16 (by decide : 2 * 5 + 1 < 20) (check 10 (by decide) (by decide))
    (check 11 (by decide) (by decide)) (checksum header sizeofIPHeader)
  have value : (ntohs (checksum header 20)).toNat = 0xFFFF - fold 0x10000 (digits header 20).sum % 0x10000 :=
    toNat_checksum (by omega)
  rw [buildIPHeader, ← made, sumAround_eq_ones (by decide) (digits_small _ _)]
  · rw [total, sizeofIPHeader, value, FoldsOnce]
    exact complement_balances (by omega)
  · rw [total]
    omega

end Header

theorem sum_digits_lt (data : Block) {size : Nat} (short : size ≤ 65535) : (digits data size).sum < 2 ^ 31 := by
  have bound := sum_digits_le data size
  omega

/-- The fake header and the payload are summed as one. -/
theorem upperLayerChecksum_eq (saddr daddr : Word) (protocol : Byte) (header : Block) {size : Nat} (short : size ≤ 65535) :
    upperLayerChecksum saddr daddr protocol header size =
      checksum (joined (fakeHeader saddr daddr protocol (BitVec.ofNat 16 size)) 12 header) (12 + size) := by
  have first := sum_digits_lt (fakeHeader saddr daddr protocol (BitVec.ofNat 16 size)) (by decide : 12 ≤ 65535)
  have second := sum_digits_lt header short
  exact checksumWithHeader_eq rfl (by rw [sizeofIPFakeHeader]; omega)

section Checksums

variable {size firstSize : Nat} (data first buffer : Block) (sourceIP destinationIP : Word) (protocol : Byte) (dataLen : Half)

/-- **The checksums**: the two forms always agree, and each is the Internet checksum exactly when
one fold of the words' total leaves no carry. -/
theorem checksums_iff (short : size ≤ 65535) (firstShort : firstSize ≤ 65535) (even : firstSize % 2 = 0) :
    ((ntohs (checksum data size)).toNat = internetChecksum data size ↔ FoldsOnce data size) ∧
    checksumWithHeader first firstSize data size = checksum (joined first firstSize data) (firstSize + size) ∧
    ((ntohs (checksumWithHeader first firstSize data size)).toNat =
        internetChecksum (joined first firstSize data) (firstSize + size) ↔
      FoldsOnce (joined first firstSize data) (firstSize + size)) ∧
    (sumAround 0x10000 (digits (buildIPHeader buffer sourceIP destinationIP protocol dataLen) 20) = 0xFFFF ↔
      FoldsOnce (newIPHeader buffer sourceIP destinationIP protocol dataLen) 20) := by
  have firstBound := sum_digits_lt first firstShort
  have bound := sum_digits_lt data short
  have agree : checksumWithHeader first firstSize data size = checksum (joined first firstSize data) (firstSize + size) :=
    checksumWithHeader_eq even (by omega)
  have wholeBound : (digits (joined first firstSize data) (firstSize + size)).sum < 2 ^ 32 := by
    rw [digits_joined even, List.sum_append]
    omega
  refine ⟨checksum_eq_iff (by omega), agree, ?_, buildIPHeader_iff buffer sourceIP destinationIP protocol dataLen⟩
  rw [agree]
  exact checksum_eq_iff wholeBound

end Checksums

/-- Four bytes before three, and the header of a packet of 60 bytes from 10.0.2.15 to 10.0.2.2. -/
theorem short_buffers_fold_once :
    let first : Block := fun i => [0x12#8, 0x34#8, 0x56#8, 0x78#8].getD i 0#8
    let data : Block := fun i => [0x9A#8, 0xBC#8, 0xDE#8].getD i 0#8
    (ntohs (checksum data 3)).toNat = internetChecksum data 3 ∧
    (ntohs (checksumWithHeader first 4 data 3)).toNat = internetChecksum (joined first 4 data) 7 ∧
    sumAround 0x10000 (digits (buildIPHeader first 0x0F02000A#32 0x0202000A#32 17#8 60#16) 20) = 0xFFFF := by
  intro first data
  have right := checksums_iff data first first 0x0F02000A#32 0x0202000A#32 17#8 60#16
    (by decide : 3 ≤ 65535) (by decide : 4 ≤ 65535) rfl
  exact ⟨right.1.mpr (by decide), right.2.2.1.mpr (by decide), right.2.2.2.mpr (by decide)⟩

/-- Six bytes whose words add up to `0x1FFFF`, and the header of a packet of 60 bytes from 10.0.2.15
to 192.168.109.251: the fold carries, and the checksum is one too large. -/
theorem fold_carries :
    (ntohs (checksum (fun i => [0xFF#8, 0xFF#8, 0xFF#8, 0xFF#8, 0x00#8, 0x01#8].getD i 0#8) 6)).toNat = 0xFFFF ∧
    internetChecksum (fun i => [0xFF#8, 0xFF#8, 0xFF#8, 0xFF#8, 0x00#8, 0x01#8].getD i 0#8) 6 = 0xFFFE ∧
    sumAround 0x10000 (digits (buildIPHeader (fun _ => 0#8) 0x0F02000A#32 0xFB6DA8C0#32 17#8 60#16) 20) = 1 := by
  decide

end IP
end FluxOS
