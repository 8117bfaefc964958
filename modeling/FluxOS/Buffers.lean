import Mathlib.Data.List.Basic

/-! Blocks of memory that may be read and written only inside: an access that
leaves its block has no result. -/
namespace FluxOS.Buffers

variable {α : Type*}

/-- Every access within a block: nothing at all, or a range that the block has. -/
def Inside (buffer : List α) (offset count : Nat) : Prop := count = 0 ∨ offset + count ≤ buffer.length

instance (buffer : List α) (offset count : Nat) : Decidable (Inside buffer offset count) :=
  inferInstanceAs (Decidable (_ ∨ _))

/-- The `count` entries from `offset` on. -/
def slice (buffer : List α) (offset count : Nat) : Option (List α) :=
  if Inside buffer offset count then some ((buffer.drop offset).take count) else none

/-- The block after `entries` have been written to it at `offset`. -/
def patch (buffer : List α) (offset : Nat) (entries : List α) : Option (List α) :=
  if Inside buffer offset entries.length then
    some (buffer.take offset ++ entries ++ buffer.drop (offset + entries.length))
  else none

section Reading

variable {buffer entries : List α} {offset count : Nat}

theorem slice_of_inside (inside : offset + count ≤ buffer.length) :
    slice buffer offset count = some ((buffer.drop offset).take count) := by
  simp [slice, Inside, inside]

@[simp] theorem slice_zero (buffer : List α) (offset : Nat) : slice buffer offset 0 = some [] := by
  simp [slice, Inside]

theorem inside_of_slice {found : List α} (read : slice buffer offset count = some found) :
    Inside buffer offset count := by
  by_contra outside
  simp [slice, outside] at read

theorem length_of_slice {found : List α} (read : slice buffer offset count = some found) : found.length = count := by
  unfold slice at read
  split at read
  · rename_i inside
    cases read
    obtain rfl | bound := inside
    · simp
    · simp
      omega
  · cases read

end Reading

section Writing

variable {buffer entries patched : List α} {offset : Nat}

theorem patch_of_inside (buffer : List α) (offset : Nat) (entries : List α)
    (inside : offset + entries.length ≤ buffer.length) :
    ∃ patched, patch buffer offset entries = some patched := by
  simp [patch, Inside, inside]

/-- Writing nothing changes nothing. -/
@[simp] theorem patch_nil (buffer : List α) (offset : Nat) : patch buffer offset [] = some buffer := by
  simp [patch, Inside]

theorem inside_of_patch (written : patch buffer offset entries = some patched) :
    Inside buffer offset entries.length := by
  by_contra outside
  simp [patch, outside] at written

theorem length_of_patch (written : patch buffer offset entries = some patched) : patched.length = buffer.length := by
  unfold patch at written
  split at written
  · rename_i inside
    cases written
    obtain nothing | bound := inside
    · simp [List.eq_nil_of_length_eq_zero nothing]
    · simp
      omega
  · cases written

theorem patch_eq_none (some : entries ≠ []) (outside : buffer.length < offset + entries.length) :
    patch buffer offset entries = none := by
  simp [patch, Inside, some, outside]

/-- What was before the place that was written to, and what was written. -/
theorem prefix_of_patch (written : patch buffer offset entries = some patched) :
    buffer.take offset ++ entries <+: patched := by
  unfold patch at written
  split at written
  · cases written
    exact List.prefix_append _ _
  · cases written

/-- The entries are where they were written, and all others are as before. -/
theorem getElem?_of_patch (written : patch buffer offset entries = some patched) (i : Nat) :
    patched[i]? = if offset ≤ i ∧ i < offset + entries.length then entries[i - offset]? else buffer[i]? := by
  unfold patch at written
  split at written
  · rename_i inside
    cases written
    obtain nothing | bound := inside
    · have outside : ¬ (offset ≤ i ∧ i < offset + entries.length) := by omega
      rw [if_neg outside, List.eq_nil_of_length_eq_zero nothing]
      simp
    · by_cases before : i < offset
      · have first : i < (buffer.take offset).length := by
          simp
          omega
        rw [if_neg (by omega), List.append_assoc, List.getElem?_append_left first, List.getElem?_take, if_pos before]
      · have front : (buffer.take offset).length = offset := by
          simp
          omega
        by_cases within : i < offset + entries.length
        · rw [if_pos ⟨by omega, within⟩, List.append_assoc, List.getElem?_append_right (by omega), front,
            List.getElem?_append_left (by omega)]
        · rw [if_neg (by omega), List.getElem?_append_right (by simp; omega), List.getElem?_drop]
          congr 1
          simp
          omega
  · cases written

end Writing
end FluxOS.Buffers
