import FluxOS.QList
import Mathlib.Data.List.Basic

/-! What a `QList` is for: a finite sequence. A list whose calls find their blocks holds
the sequence that the calls make. -/
namespace FluxOS.QList
open Words Buffers

variable {T : Type} {heap : ArrayHeap T} {l : QList T} {sequence : List T}

/-- A list with these elements. Its block has as many entries as the capacity says, or was deleted and has none. -/
structure Holds (l : QList T) (sequence : List T) : Prop where
  small : l.mCapacity.toNat < 2 ^ 31
  size : l.mSize.toNat = sequence.length
  fits : sequence.length ≤ l.mCapacity.toNat
  block : l.block.length = l.mCapacity.toNat
  elements : sequence <+: l.block

theorem toInt_of_small {w : Word} (small : w.toNat < 2 ^ 31) : w.toInt = w.toNat :=
  BitVec.toInt_eq_toNat_of_lt (by omega)

theorem toNat_of_nonneg {w : Word} (nonneg : 0 ≤ w.toInt) : w.toNat < 2 ^ 31 ∧ w.toInt = w.toNat := by
  have bound := w.isLt
  rw [BitVec.toInt_eq_toNat_cond] at nonneg ⊢
  split at nonneg
  · rename_i half
    exact ⟨by omega, if_pos half⟩
  · omega

namespace Holds

theorem contents_eq (holds : Holds l sequence) : contents l = sequence := by
  rw [contents, holds.size]
  exact (List.prefix_iff_eq_take.mp holds.elements).symm

theorem size_small (holds : Holds l sequence) : l.mSize.toNat < 2 ^ 31 := by
  have fits := holds.fits
  have size := holds.size
  have small := holds.small
  omega

theorem bounds (holds : Holds l sequence) : 0 ≤ l.mSize.toInt ∧ l.mSize.toInt ≤ l.mCapacity.toInt := by
  have fits := holds.fits
  rw [toInt_of_small holds.size_small, toInt_of_small holds.small, holds.size]
  omega

/-- The block stands for the elements and what is behind them. -/
theorem of_block {size capacity : Word} {block : List T} (small : capacity.toNat < 2 ^ 31)
    (length : block.length = capacity.toNat) (count : size.toNat = sequence.length) (elements : sequence <+: block) :
    Holds ⟨size, capacity, some block⟩ sequence :=
  ⟨small, count, length ▸ elements.length_le, length, elements⟩

/-- The same block with other elements in it. -/
theorem with_block (holds : Holds l sequence) {size : Word} {block sequence' : List T}
    (length : block.length = l.block.length) (count : size.toNat = sequence'.length) (elements : sequence' <+: block) :
    Holds { l with mSize := size, mArray := l.mArray.map fun _ => block } sequence' := by
  have whole := length.trans holds.block
  cases deleted : l.mArray with
  | none =>
    have none : block = [] := by
      apply List.eq_nil_of_length_eq_zero
      rw [length, QList.block, deleted]
      rfl
    subst none
    exact ⟨holds.small, count, whole ▸ elements.length_le, whole, elements⟩
  | some array => exact of_block holds.small whole count elements

end Holds

theorem holds_empty (heap : ArrayHeap T) : Holds (empty heap) [] := by
  refine Holds.of_block ?_ ?_ rfl List.nil_prefix
  · decide
  · simp [newArray]

theorem holds_ofSize [Inhabited T] {size : Word} (nonneg : 0 ≤ size.toInt) :
    Holds (ofSize size : QList T) (List.replicate size.toNat default) :=
  Holds.of_block (toNat_of_nonneg nonneg).1 List.length_replicate List.length_replicate.symm (List.prefix_refl _)

section Reserve

variable {newCapacity : Word}

theorem reserve_negative (negative : newCapacity.toInt < 0) : reserve heap l newCapacity = none := if_pos negative

theorem reserve_refused (nonneg : 0 ≤ newCapacity.toInt) (refused : heap.grants newCapacity = false) :
    reserve heap l newCapacity = some (false, l) := by
  rw [reserve, if_neg (Int.not_lt.mpr nonneg), if_pos refused]

/-- The elements that still have room are kept. -/
theorem Holds.reserve (holds : Holds l sequence) (nonneg : 0 ≤ newCapacity.toInt) (granted : heap.grants newCapacity = true)
    (present : l.mArray ≠ none) : ∃ l', reserve heap l newCapacity = some (true, l') ∧
      Holds l' (sequence.take newCapacity.toNat) ∧ l'.mCapacity = newCapacity ∧ l'.mArray ≠ none := by
  obtain ⟨small, capacity⟩ := toNat_of_nonneg nonneg
  obtain ⟨array, whole⟩ := Option.ne_none_iff_exists'.mp present
  obtain ⟨newSize, newSizeEq⟩ : ∃ n, (if l.mSize.toInt < newCapacity.toInt then l.mSize else newCapacity) = n := ⟨_, rfl⟩
  have count : newSize.toNat = (sequence.take newCapacity.toNat).length := by
    rw [← newSizeEq, List.length_take, ← holds.size, toInt_of_small holds.size_small, capacity]
    split <;> omega
  have kept : slice l.block 0 newSize.toNat = some (sequence.take newCapacity.toNat) := by
    have short : newSize.toNat ≤ sequence.length := by
      rw [count, List.length_take]
      exact Nat.min_le_right _ _
    rw [slice_of_inside (by rw [holds.block]; have fits := holds.fits; omega), List.drop_zero]
    obtain ⟨rest, split⟩ := holds.elements
    rw [← split, List.take_append_of_le_length short, count, List.length_take, Option.some.injEq, List.take_eq_take_iff]
    omega
  obtain ⟨tmpArray, written⟩ := patch_of_inside (newArray heap newCapacity) 0 (sequence.take newCapacity.toNat) (by
    simp only [newArray, List.length_map, List.length_range, List.length_take]
    omega)
  refine ⟨⟨newSize, newCapacity, some tmpArray⟩, ?_, ?_, rfl, Option.some_ne_none _⟩
  · simp [QList.reserve, Int.not_lt.mpr nonneg, granted, newSizeEq, kept, written, deleteArray, whole]
  · refine Holds.of_block small ?_ count ?_
    · rw [length_of_patch written]
      simp [newArray]
    · exact prefix_of_patch written

/-- The block that has been deleted is deleted again. -/
theorem reserve_deleted (granted : heap.grants newCapacity = true) (deleted : l.mArray = none) :
    reserve heap l newCapacity = none := by
  unfold reserve
  split
  · rfl
  · rw [if_neg (by simp [granted])]
    simp [deleteArray, deleted]

end Reserve

section Calls

/-- A value is put behind the last element where there is room for it. -/
theorem Holds.write (holds : Holds l sequence) (room : sequence.length < l.mCapacity.toNat) (value : T) :
    ∃ array, write l l.mSize value = some ⟨l.mSize, l.mCapacity, some array⟩ ∧
      Holds ⟨l.mSize + 1#32, l.mCapacity, some array⟩ (sequence ++ [value]) := by
  have inside : l.mSize.toNat < l.block.length := by
    rw [holds.size, holds.block]
    exact room
  refine ⟨l.block.set l.mSize.toNat value, if_pos inside, Holds.of_block holds.small ?_ ?_ ?_⟩
  · rw [List.length_set, holds.block]
  · have small := holds.small
    rw [BitVec.toNat_add, holds.size, List.length_append, List.length_singleton]
    apply Nat.mod_eq_of_lt
    simp only [BitVec.toNat_ofNat]
    omega
  · obtain ⟨rest, split⟩ := holds.elements
    rw [← split, holds.size, List.set_append_right _ _ (Nat.le_refl _), Nat.sub_self]
    cases rest with
    | nil =>
      rw [← split, holds.size] at inside
      simp at inside
    | cons first more =>
      exact ⟨more, by simp⟩

/-- A value takes the place of an element. -/
theorem Holds.set (holds : Holds l sequence) {i : Word} (inside : i.toNat < sequence.length) (value : T) :
    ∃ l', QList.write l i value = some l' ∧ Holds l' (sequence.set i.toNat value) ∧ l'.mCapacity = l.mCapacity := by
  have within : i.toNat < l.block.length := by
    have length := holds.elements.length_le
    omega
  refine ⟨_, if_pos within, Holds.of_block holds.small ?_ ?_ ?_, rfl⟩
  · rw [List.length_set, holds.block]
  · rw [List.length_set, holds.size]
  · obtain ⟨rest, split⟩ := holds.elements
    rw [← split, List.set_append_left _ _ inside]
    exact List.prefix_append _ _

/-- What the loop of `remove` leaves at the front of the block. -/
theorem moveDown_eq (count n i : Nat) (block : List T) (inside : i + n + count ≤ block.length) :
    ∃ block', moveDown count i n block = some block' ∧ block'.length = block.length ∧
      block'.take (i + n) = block.take i ++ (block.drop (i + count)).take n := by
  induction n generalizing i block with
  | zero => exact ⟨block, rfl, rfl, by simp⟩
  | succ n ih =>
    have source : i + count < block.length := by omega
    have target : i < block.length := by omega
    obtain ⟨block', moved, length, front⟩ := ih (i + 1) (block.set i block[i + count]) (by
      rw [List.length_set]
      omega)
    refine ⟨block', ?_, by rw [length, List.length_set], ?_⟩
    · rw [moveDown, List.getElem?_eq_getElem source]
      exact moved
    · have first : (block.set i block[i + count]).take (i + 1) = block.take i ++ [block[i + count]] := by
        rw [List.take_add_one, List.take_set_of_le (Nat.le_refl i), List.getElem?_set_self target]
        rfl
      have rest : (block.set i block[i + count]).drop (i + 1 + count) = block.drop (i + count + 1) := by
        rw [List.drop_set_of_lt (by omega), Nat.add_right_comm]
      rw [show i + (n + 1) = i + 1 + n by omega, front, first, rest, List.append_assoc,
        List.drop_eq_getElem_cons source, List.take_succ_cons]
      rfl

/-- The elements that are removed are closed up. -/
theorem Holds.remove (holds : Holds l sequence) {i count : Word} (index : 0 ≤ i.toInt) (nonneg : 0 ≤ count.toInt)
    (inside : i.toInt + count.toInt ≤ sequence.length) : ∃ l', remove l i count = some l' ∧
      Holds l' (sequence.take i.toNat ++ sequence.drop (i.toNat + count.toNat)) := by
  have fits := holds.fits
  have length := holds.block
  rw [(toNat_of_nonneg index).2, (toNat_of_nonneg nonneg).2] at inside
  have steps : (l.mSize.toInt - count.toInt - i.toInt).toNat = sequence.length - count.toNat - i.toNat := by
    rw [toInt_of_small holds.size_small, (toNat_of_nonneg index).2, (toNat_of_nonneg nonneg).2, holds.size]
    omega
  obtain ⟨block, moved, same, front⟩ := moveDown_eq count.toNat (sequence.length - count.toNat - i.toNat) i.toNat l.block
    (show i.toNat + (sequence.length - count.toNat - i.toNat) + count.toNat ≤ l.block.length by omega)
  refine ⟨_, by rw [QList.remove, steps, moved]; rfl, holds.with_block same ?_ ?_⟩
  · have less : count.toNat ≤ l.mSize.toNat := by
      rw [holds.size]
      omega
    rw [BitVec.toNat_sub_of_le less, holds.size, List.length_append, List.length_take, List.length_drop]
    omega
  · have kept : sequence.take i.toNat ++ sequence.drop (i.toNat + count.toNat) =
        block.take (i.toNat + (sequence.length - count.toNat - i.toNat)) := by
      obtain ⟨rest, split⟩ := holds.elements
      have behind : (sequence.drop (i.toNat + count.toNat)).length = sequence.length - count.toNat - i.toNat := by
        rw [List.length_drop]
        omega
      rw [front, ← split, List.take_append_of_le_length (by omega), List.drop_append_of_le_length (by omega), ← behind,
        List.take_append_of_le_length (Nat.le_refl _), List.take_length]
    rw [kept]
    exact List.take_prefix _ _

variable [Inhabited T]

/-- The elements that are new are `T()`. -/
theorem Holds.fill (holds : Holds l sequence) {size : Word} (nonneg : 0 ≤ size.toInt) (room : size.toNat ≤ l.mCapacity.toNat) :
    ∃ block, patch l.block l.mSize.toNat (List.replicate (size.toInt - l.mSize.toInt).toNat default) = some block ∧
      Holds { l with mSize := size, mArray := l.mArray.map fun _ => block }
        (sequence.take size.toNat ++ List.replicate (size.toNat - sequence.length) default) := by
  have count : (size.toInt - l.mSize.toInt).toNat = size.toNat - sequence.length := by
    rw [(toNat_of_nonneg nonneg).2, toInt_of_small holds.size_small, holds.size]
    omega
  have fits := holds.fits
  have length := holds.block
  obtain ⟨block, written⟩ := patch_of_inside l.block l.mSize.toNat
    (List.replicate (size.toNat - sequence.length) default) (by
      rw [List.length_replicate, length, holds.size]
      omega)
  rw [count]
  refine ⟨block, written, holds.with_block (length_of_patch written) ?_ ?_⟩
  · rw [List.length_append, List.length_take, List.length_replicate]
    omega
  · have before := prefix_of_patch written
    rw [holds.size, ← List.prefix_iff_eq_take.mp holds.elements] at before
    by_cases shorter : size.toNat ≤ sequence.length
    · rw [Nat.sub_eq_zero_of_le shorter, List.replicate_zero, List.append_nil] at before ⊢
      exact (List.take_prefix _ _).trans before
    · rw [List.take_of_length_le (by omega)]
      exact before

end Calls

section Growth

variable {heap : ArrayHeap T} {l : QList T} {sequence : List T}

theorem toNat_double (limit : l.mCapacity.toNat < 2 ^ 30) : (l.mCapacity * 2#32).toNat = l.mCapacity.toNat * 2 := by
  rw [BitVec.toNat_mul]
  apply Nat.mod_eq_of_lt
  simp only [BitVec.toNat_ofNat]
  omega

theorem double_nonneg (limit : l.mCapacity.toNat < 2 ^ 30) : 0 ≤ (l.mCapacity * 2#32).toInt := by
  have double := toNat_double limit
  rw [toInt_of_small (by omega)]
  exact Int.natCast_nonneg _

theorem Holds.length_of_full (holds : Holds l sequence) (full : l.mSize = l.mCapacity) :
    sequence.length = l.mCapacity.toNat := by rw [← holds.size, full]

theorem Holds.room_of_not_full (holds : Holds l sequence) (notFull : l.mSize ≠ l.mCapacity) :
    sequence.length < l.mCapacity.toNat :=
  Nat.lt_of_le_of_ne holds.fits fun same => notFull (BitVec.eq_of_toNat_eq (holds.size.trans same))

/-- A full list gets an array of twice its capacity. -/
theorem Holds.grow_granted (holds : Holds l sequence) (full : l.mSize = l.mCapacity) (positive : 0 < l.mCapacity.toNat)
    (limit : l.mCapacity.toNat < 2 ^ 30) (granted : heap.grants (l.mCapacity * 2#32) = true) :
    ∃ l', grow heap l = some (true, l') ∧ Holds l' sequence ∧ l'.mCapacity.toNat = l.mCapacity.toNat * 2 := by
  have length := holds.length_of_full full
  have double := toNat_double limit
  have present : l.mArray ≠ none := by
    intro deleted
    have block := holds.block
    rw [QList.block, deleted, Option.getD_none, List.length_nil] at block
    omega
  obtain ⟨l', result, after, capacity, -⟩ := holds.reserve (double_nonneg limit) granted present
  rw [List.take_of_length_le (by omega)] at after
  exact ⟨l', (if_pos full).trans result, after, by rw [capacity, double]⟩

theorem append_refused {value : T} (full : l.mSize = l.mCapacity) (limit : l.mCapacity.toNat < 2 ^ 30)
    (refused : heap.grants (l.mCapacity * 2#32) = false) : append heap l value = some (-1, l) := by
  simp [append, grow, full, reserve_refused (double_nonneg limit) refused]

/-- Twice the capacity is a negative number. -/
theorem Holds.append_limit {value : T} (holds : Holds l sequence) (full : l.mSize = l.mCapacity)
    (limit : 2 ^ 30 ≤ l.mCapacity.toNat) : append heap l value = none := by
  have small := holds.small
  have double : (l.mCapacity * 2#32).toNat = l.mCapacity.toNat * 2 := by
    rw [BitVec.toNat_mul]
    apply Nat.mod_eq_of_lt
    simp only [BitVec.toNat_ofNat]
    omega
  have negative : (l.mCapacity * 2#32).toInt < 0 := by
    rw [BitVec.toInt_eq_toNat_cond, if_neg (by omega)]
    omega
  simp [append, grow, full, reserve_negative negative]

/-- Behind `reserve`, where there is room. -/
theorem Holds.append_room (holds : Holds l sequence) (room : sequence.length < l.mCapacity.toNat) (value : T)
    {before : QList T} (grown : grow heap before = some (true, l)) :
    ∃ l', append heap before value = some ((sequence.length : Int), l') ∧ Holds l' (sequence ++ [value]) ∧
      l'.mCapacity = l.mCapacity := by
  obtain ⟨array, written, after⟩ := holds.write room value
  have index : l.mSize.toInt = sequence.length := by rw [toInt_of_small holds.size_small, holds.size]
  refine ⟨_, ?_, after, rfl⟩
  simp [append, grown, written, index]

end Growth

/-! ## Runs -/

/-- Where a call finds its block. `clear` leaves none that could be deleted; a list of capacity zero does not grow, and
one of `2 ^ 30` not to twice that. -/
def Meets (heap : ArrayHeap T) (l : QList T) : Call T → Prop
  | .append _ => l.mSize = l.mCapacity → (l.mCapacity = 0#32 → heap.grants 0#32 = false) ∧ l.mCapacity.toNat < 2 ^ 30
  | .reserve newCapacity => heap.grants newCapacity = true → l.mArray ≠ none
  | .squeeze => heap.grants l.mSize = true → l.mArray ≠ none
  | .resize size => if heap.grants size = true then l.mArray ≠ none else size.toNat ≤ l.mCapacity.toNat
  | .clear => l.mArray ≠ none
  | .remove _ _ | .takeAt _ => True

section Runs

variable [Inhabited T] (heap : ArrayHeap T)

/-- The list as it should be: its elements are the sequence, and its size is within its capacity. -/
def Right (l : QList T) (sequence : List T) : Prop :=
  contents l = sequence ∧ 0 ≤ l.mSize.toInt ∧ l.mSize.toInt ≤ l.mCapacity.toInt

/-- Every call asks for what may be asked for, as long as the calls before it make the sequence they should. -/
def AllAllowed (l : QList T) (sequence : List T) : List (Call T) → Prop
  | [] => True
  | call :: rest => Allowed sequence call ∧
      ∀ ok l', perform heap l call = some (ok, l') → AllAllowed l' (apply sequence call ok) rest

/-- Every access of every call is inside the block, and the list is right all the time. -/
def AllRight (l : QList T) (sequence : List T) : List (Call T) → Prop
  | [] => Right l sequence
  | call :: rest => Right l sequence ∧
      ∃ ok l', perform heap l call = some (ok, l') ∧ AllRight l' (apply sequence call ok) rest

/-- Every call finds its block in the list that the calls before it leave. -/
def MeetsAll (l : QList T) : List (Call T) → Prop
  | [] => True
  | call :: rest => Meets heap l call ∧ ∀ ok l', perform heap l call = some (ok, l') → MeetsAll l' rest

end Runs

section Steps

variable [Inhabited T]

/-- Either a call meets its condition and does to the list what it should, or it does not and goes wrong. -/
def Settled (heap : ArrayHeap T) (l : QList T) (sequence : List T) (call : Call T) : Prop :=
  (Meets heap l call ∧ ∃ ok l', perform heap l call = some (ok, l') ∧ Holds l' (apply sequence call ok)) ∨
    (¬Meets heap l call ∧ perform heap l call = none)

theorem Holds.append_here (holds : Holds l sequence) (room : sequence.length < l.mCapacity.toNat) (value : T)
    {before : QList T} (grown : grow heap before = some (true, l)) :
    ∃ l', perform heap before (.append value) = some (true, l') ∧ Holds l' (sequence ++ [value]) := by
  obtain ⟨l', result, after, -⟩ := holds.append_room room value grown
  have index : (sequence.length : Int) ≠ -1 := by omega
  exact ⟨l', by simp [perform, result, index], after⟩

theorem Holds.settled_append (holds : Holds l sequence) (value : T) : Settled heap l sequence (.append value) := by
  have fits := holds.fits
  by_cases full : l.mSize = l.mCapacity
  · by_cases limit : l.mCapacity.toNat < 2 ^ 30
    · by_cases granted : heap.grants (l.mCapacity * 2#32) = true
      · by_cases zero : l.mCapacity = 0#32
        · -- the new block has no entry either
          refine .inr ⟨fun meets => ?_, ?_⟩
          · have refused := (meets full).1 zero
            rw [zero] at granted
            exact absurd (granted.symm.trans refused) (by simp)
          · by_cases present : l.mArray = none
            · simp [perform, append, grow, full, reserve_deleted granted present]
            · obtain ⟨l', result, after, capacity, -⟩ := holds.reserve (double_nonneg limit) granted present
              have outside (i : Word) : QList.write l' i value = none := by
                unfold QList.write
                apply if_neg
                rw [after.block, capacity, zero]
                simp
              simp [perform, append, grow, full, result, outside]
        · have positive : 0 < l.mCapacity.toNat := toNat_pos zero
          obtain ⟨l', grown, after, capacity⟩ := holds.grow_granted full positive limit granted
          have length := holds.length_of_full full
          obtain ⟨final, appended, done⟩ := after.append_here (by omega) value grown
          exact .inl ⟨fun _ => ⟨fun none => absurd none zero, limit⟩, true, final, appended, done⟩
      · have refused : heap.grants (l.mCapacity * 2#32) = false := by simpa using granted
        refine .inl ⟨fun _ => ⟨fun zero => ?_, limit⟩, false, l, ?_, holds⟩
        · rwa [zero] at refused
        · simp [perform, append_refused full limit refused]
    · refine .inr ⟨fun meets => limit (meets full).2, ?_⟩
      simp [perform, holds.append_limit full (by omega)]
  · have room := holds.room_of_not_full full
    obtain ⟨final, appended, done⟩ := holds.append_here room value (show grow heap l = some (true, l) from if_neg full)
    exact .inl ⟨fun some => absurd some full, true, final, appended, done⟩

/-- What a list holds behind a call of `append` that found its block, or was refused one. -/
theorem Holds.after_append {heap : ArrayHeap T} {l l' : QList T} {value : T} {index : Int} (holds : Holds l sequence)
    (appended : QList.append heap l value = some (index, l')) :
    Holds l' (if index = -1 then sequence else sequence ++ [value]) := by
  have settled : Settled heap l sequence (.append value) := holds.settled_append value
  obtain ⟨-, ok, l₁, result, after⟩ | ⟨-, wrong⟩ := settled
  · simp only [perform, appended, Option.map_some, Option.some.injEq, Prod.mk.injEq] at result
    obtain ⟨rfl, rfl⟩ := result
    by_cases refused : index = -1 <;> simpa [refused, apply] using after
  · simp [perform, appended] at wrong

theorem Holds.settled_reserve (holds : Holds l sequence) {newCapacity : Word} (nonneg : 0 ≤ newCapacity.toInt) :
    Settled heap l sequence (.reserve newCapacity) := by
  by_cases granted : heap.grants newCapacity = true
  · by_cases present : l.mArray = none
    · exact .inr ⟨fun meets => meets granted present, reserve_deleted granted present⟩
    · obtain ⟨l', result, after, -⟩ := holds.reserve nonneg granted present
      exact .inl ⟨fun _ => present, true, l', result, after⟩
  · have refused : heap.grants newCapacity = false := by simpa using granted
    exact .inl ⟨fun some => absurd some granted, false, l, reserve_refused nonneg refused, holds⟩

/-- `squeeze` keeps all elements. -/
theorem Holds.settled_squeeze (holds : Holds l sequence) : Settled heap l sequence .squeeze := by
  obtain ⟨meets, ok, l', result, after⟩ | ⟨unmet, wrong⟩ := holds.settled_reserve holds.bounds.1
  · refine .inl ⟨meets, ok, l', result, ?_⟩
    cases ok with
    | false => exact after
    | true =>
      have all : sequence.take l.mSize.toNat = sequence := List.take_of_length_le (Nat.le_of_eq holds.size.symm)
      simpa only [apply, all] using after
  · exact .inr ⟨unmet, wrong⟩

theorem Holds.settled_resize (holds : Holds l sequence) {size : Word} (nonneg : 0 ≤ size.toInt) :
    Settled heap l sequence (.resize size) := by
  by_cases granted : heap.grants size = true
  · by_cases present : l.mArray = none
    · refine .inr ⟨by simp [Meets, granted, present], ?_⟩
      simp [perform, resize, reserve_deleted granted present]
    · obtain ⟨l', result, after, capacity, -⟩ := holds.reserve nonneg granted present
      obtain ⟨block, filled, final⟩ := after.fill nonneg (Nat.le_of_eq (by rw [capacity]))
      have count : size.toNat - (sequence.take size.toNat).length = size.toNat - sequence.length := by
        rw [List.length_take]
        omega
      rw [List.take_take, Nat.min_self, count] at final
      refine .inl ⟨by simpa [Meets, granted] using present, true, _, ?_, final⟩
      simp [perform, resize, result, filled]
  · have refused : heap.grants size = false := by simpa using granted
    by_cases room : size.toNat ≤ l.mCapacity.toNat
    · obtain ⟨block, filled, final⟩ := holds.fill nonneg room
      refine .inl ⟨by simpa [Meets, refused] using room, true, _, ?_, final⟩
      simp [perform, resize, reserve_refused nonneg refused, filled]
    · have count : (size.toInt - l.mSize.toInt).toNat = size.toNat - sequence.length := by
        rw [(toNat_of_nonneg nonneg).2, toInt_of_small holds.size_small, holds.size]
        omega
      have fits := holds.fits
      have outside : patch l.block l.mSize.toNat (List.replicate (size.toInt - l.mSize.toInt).toNat (default : T)) = none := by
        rw [count]
        apply patch_eq_none
        · simp only [ne_eq, List.replicate_eq_nil_iff]
          omega
        · rw [List.length_replicate, holds.block, holds.size]
          omega
      refine .inr ⟨by simpa [Meets, refused] using room, ?_⟩
      simp [perform, resize, reserve_refused nonneg refused, outside]

theorem settled_clear : Settled heap l sequence .clear := by
  cases present : l.mArray with
  | none => exact .inr ⟨by simp [Meets, present], by simp [perform, clear, deleteArray, present]⟩
  | some array =>
    refine .inl ⟨by simp [Meets, present], true, ⟨0#32, 0#32, none⟩, by simp [perform, clear, deleteArray, present], ?_⟩
    exact ⟨by simp, rfl, Nat.le_refl 0, rfl, List.nil_prefix⟩

theorem Holds.settled_remove (holds : Holds l sequence) {i count : Word} (allowed : Allowed sequence (.remove i count)) :
    Settled heap l sequence (.remove i count) := by
  obtain ⟨l', result, after⟩ := holds.remove allowed.1 allowed.2.1 allowed.2.2
  exact .inl ⟨trivial, true, l', by simp [perform, result], after⟩

theorem Holds.settled_takeAt (holds : Holds l sequence) {i : Word} (allowed : Allowed sequence (.takeAt i)) :
    Settled heap l sequence (.takeAt i) := by
  obtain ⟨l', result, after⟩ := holds.remove allowed.1 (show 0 ≤ (1#32).toInt by decide) allowed.2
  have inside : i.toNat < l.block.length := by
    have last := allowed.2
    have fits := holds.fits
    rw [(toNat_of_nonneg allowed.1).2] at last
    rw [holds.block]
    omega
  refine .inl ⟨trivial, true, l', ?_, after⟩
  simp [perform, takeAt, result, List.getElem?_eq_getElem inside]

theorem Holds.settled (holds : Holds l sequence) (call : Call T) (allowed : Allowed sequence call) :
    Settled heap l sequence call := by
  cases call with
  | append value => exact holds.settled_append value
  | reserve newCapacity => exact holds.settled_reserve allowed
  | squeeze => exact holds.settled_squeeze
  | resize size => exact holds.settled_resize allowed
  | clear => exact settled_clear
  | remove i count => exact holds.settled_remove allowed
  | takeAt i => exact holds.settled_takeAt allowed

/-- A list is right all through a run exactly if every call finds its block. -/
theorem Holds.allRight_iff (calls : List (Call T)) {l : QList T} {sequence : List T} (holds : Holds l sequence)
    (allowed : AllAllowed heap l sequence calls) : AllRight heap l sequence calls ↔ MeetsAll heap l calls := by
  have right : Right l sequence := ⟨holds.contents_eq, holds.bounds⟩
  induction calls generalizing l sequence with
  | nil => exact ⟨fun _ => trivial, fun _ => right⟩
  | cons call rest ih =>
    obtain ⟨meets, ok, l', result, after⟩ | ⟨unmet, wrong⟩ := holds.settled call allowed.1
    · have later := ih after (allowed.2 ok l' result) ⟨after.contents_eq, after.bounds⟩
      constructor
      · rintro ⟨-, ok₁, l₁, result₁, safe⟩
        cases result.symm.trans result₁
        refine ⟨meets, fun ok₂ l₂ result₂ => ?_⟩
        cases result.symm.trans result₂
        exact later.mp safe
      · rintro ⟨-, meetsRest⟩
        exact ⟨right, ok, l', result, later.mpr (meetsRest ok l' result)⟩
    · constructor
      · rintro ⟨-, ok, l', result, -⟩
        exact absurd (wrong.symm.trans result) (by simp)
      · rintro ⟨meets, -⟩
        exact absurd meets unmet

/-- The lists that can be made, with what should be in them. -/
inductive New (heap : ArrayHeap T) : QList T → List T → Prop
  | empty : New heap (empty heap) []
  | ofSize {size : Word} (nonneg : 0 ≤ size.toInt) : New heap (ofSize size) (List.replicate size.toNat default)

/-- A new list is a finite sequence, and every access to it inside its block, all through a run of calls exactly if
each of the calls finds its block. -/
theorem sequence_iff_blocks_found (new : New heap l sequence) (calls : List (Call T))
    (allowed : AllAllowed heap l sequence calls) : AllRight heap l sequence calls ↔ MeetsAll heap l calls := by
  cases new with
  | empty => exact (holds_empty heap).allRight_iff calls allowed
  | ofSize nonneg => exact (holds_ofSize nonneg).allRight_iff calls allowed

end Steps

section Instances

/-- A heap that grants every block. -/
def generousHeap : ArrayHeap Nat := ⟨fun _ => true, fun _ => 0⟩

/-- A value is appended and taken out again. -/
theorem appended_and_taken : AllRight generousHeap (empty generousHeap) [] [.append 5, .takeAt 0#32] := by
  have first : perform generousHeap (empty generousHeap) (.append 5) = some (true, ⟨1#32, 2#32, some [5, 0]⟩) := rfl
  refine (sequence_iff_blocks_found .empty _ ?_).mpr ?_
  · refine ⟨trivial, fun ok l' result => ?_⟩
    cases first.symm.trans result
    exact ⟨by simp [Allowed, apply], fun _ _ _ => trivial⟩
  · refine ⟨by simp [Meets, empty, init], fun ok l' result => ?_⟩
    cases first.symm.trans result
    exact ⟨trivial, fun _ _ _ => trivial⟩

/-- A list is resized to nothing, and then there is no room for the value that is appended. -/
theorem append_to_nothing : AllAllowed generousHeap (empty generousHeap) [] [.resize 0#32, .append 5] ∧
    ¬AllRight generousHeap (empty generousHeap) [] [.resize 0#32, .append 5] := by
  have first : perform generousHeap (empty generousHeap) (.resize 0#32) = some (true, ⟨0#32, 0#32, some []⟩) := rfl
  have second : perform generousHeap ⟨0#32, 0#32, some []⟩ (.append 5) = none := rfl
  constructor
  · exact ⟨by simp [Allowed], fun _ _ _ => ⟨trivial, fun _ _ _ => trivial⟩⟩
  · rintro ⟨-, ok, l', result, -, ok', l'', again, -⟩
    cases first.symm.trans result
    exact absurd (second.symm.trans again) (by simp)

end Instances

end FluxOS.QList
