import FluxOS.IP

/-! A received frame, and reads that have no result when they leave it. -/
namespace FluxOS
open Words UserMemoryOps BlockDevice NetUtils

/-- `size` bytes that were received, and the memory they lie in; a size is an `int`. -/
structure Frame where
  bytes : Block
  size : Nat
  fits : size < 2 ^ 31

namespace Frame

/-- Nothing at all, or a range of the frame. -/
def Inside (frame : Frame) (offset count : Nat) : Prop := count = 0 ∨ offset + count ≤ frame.size

instance (frame : Frame) (offset count : Nat) : Decidable (frame.Inside offset count) :=
  inferInstanceAs (Decidable (_ ∨ _))

/-- The `count` bytes from `offset` on, wherever they lie. -/
def range (frame : Frame) (offset count : Nat) : List Byte := (List.range count).map fun i => frame.bytes (offset + i)

def read (frame : Frame) (offset count : Nat) : Option (List Byte) :=
  if frame.Inside offset count then some (frame.range offset count) else none

def read8 (frame : Frame) (offset : Nat) : Option Byte :=
  if frame.Inside offset 1 then some (frame.bytes offset) else none

def read16 (frame : Frame) (offset : Nat) : Option Half :=
  if frame.Inside offset 2 then some (le16 frame.bytes offset) else none

def read32 (frame : Frame) (offset : Nat) : Option Word :=
  if frame.Inside offset 4 then some (le32 frame.bytes offset) else none

section Reads

variable {frame : Frame} {offset count : Nat}

theorem inside_of_le (inside : offset + count ≤ frame.size) : frame.Inside offset count := Or.inr inside

theorem inside_iff (some : count ≠ 0) : frame.Inside offset count ↔ offset + count ≤ frame.size := by
  simp [Inside, some]

theorem read_of_inside (inside : frame.Inside offset count) : frame.read offset count = some (frame.range offset count) :=
  if_pos inside

theorem read8_of_le (inside : offset + 1 ≤ frame.size) : frame.read8 offset = some (frame.bytes offset) :=
  if_pos (inside_of_le inside)

theorem read16_of_le (inside : offset + 2 ≤ frame.size) : frame.read16 offset = some (le16 frame.bytes offset) :=
  if_pos (inside_of_le inside)

theorem read32_of_le (inside : offset + 4 ≤ frame.size) : frame.read32 offset = some (le32 frame.bytes offset) :=
  if_pos (inside_of_le inside)

theorem read8_of_lt (outside : frame.size < offset + 1) : frame.read8 offset = none :=
  if_neg fun inside => Nat.not_le.mpr outside ((inside_iff Nat.one_ne_zero).mp inside)

theorem read16_of_lt (outside : frame.size < offset + 2) : frame.read16 offset = none :=
  if_neg fun inside => Nat.not_le.mpr outside ((inside_iff (by decide)).mp inside)

end Reads

section Ranges

variable (frame : Frame) (offset count n : Nat)

@[simp] theorem length_range : (frame.range offset count).length = count := by
  simp [range]

theorem getElem?_range {i : Nat} (bound : i < count) : (frame.range offset count)[i]? = some (frame.bytes (offset + i)) := by
  simp [range, bound]

theorem take_range : (frame.range offset count).take n = frame.range offset (min n count) := by
  rw [range, ← List.map_take, List.take_range, range]

theorem drop_range : (frame.range offset count).drop n = frame.range (offset + n) (count - n) := by
  apply List.ext_getElem?
  intro i
  rw [List.getElem?_drop]
  by_cases bound : n + i < count
  · rw [getElem?_range _ _ _ bound, getElem?_range _ _ _ (by omega), Nat.add_assoc]
  · rw [List.getElem?_eq_none (by rw [length_range]; omega), List.getElem?_eq_none (by rw [length_range]; omega)]

end Ranges

end Frame
end FluxOS
