import FluxOS.ListWithHoles
import FluxOS.QListSequence
import Mathlib.Logic.Function.Basic

/-! `ListWithHoles` over the array of a `QList`: each access inside the array, or no result. -/
namespace FluxOS
open Words QList

/-- The array that is kept in `m_list`; a hole is a null pointer. -/
abbrev HoledArray (α : Type) := QList (Option α)

namespace HoledArray

variable {α : Type}

section Operations

/-- `at`. -/
def entry (list : HoledArray α) (i : Word) : Option (Option α) := list.block[i.toNat]?

/-- The loop of `add` over the `n` entries from `i` on, up to the first hole. -/
def firstHole (list : HoledArray α) (i : Nat) : Nat → Option (Option Nat)
  | 0 => some none
  | n + 1 => do
    let here ← list.block[i]?
    if here.isNone then return some i else firstHole list (i + 1) n

/-- `add`: the index that the value got, or -1. -/
def add (heap : ArrayHeap (Option α)) (list : HoledArray α) (value : α) : Option (Int × HoledArray α) := do
  match ← firstHole list 0 list.mSize.toInt.toNat with
  | some i =>
    let list ← write list (BitVec.ofNat 32 i) (some value)
    return (i, list)
  | none => append heap list (some value)

def remove (list : HoledArray α) (i : Word) : Option (HoledArray α) := write list i none

end Operations

section Places

/-- How many values can be added before the array has to grow. -/
def places (list : HoledArray α) : Nat :=
  (contents list).countP Option.isNone + (list.mCapacity.toNat - list.mSize.toNat)

variable {list : HoledArray α} {entries : List (Option α)} {heap : ArrayHeap (Option α)}

theorem places_eq (holds : Holds list entries) :
    places list = entries.countP Option.isNone + (list.mCapacity.toNat - entries.length) := by
  rw [places, holds.contents_eq, holds.size]

theorem firstHole_eq (holds : Holds list entries) {i n : Nat} (rest : i + n = entries.length) :
    firstHole list i n = some (((entries.drop i).findIdx? Option.isNone).map (· + i)) := by
  induction n generalizing i with
  | zero =>
    rw [List.drop_of_length_le (by omega)]
    rfl
  | succ n ih =>
    have inside : i < entries.length := by omega
    have here : list.block[i]? = some entries[i] := by
      obtain ⟨more, split⟩ := holds.elements
      rw [← split, List.getElem?_append_left inside, List.getElem?_eq_getElem inside]
    rw [firstHole, here, List.drop_eq_getElem_cons inside, List.findIdx?_cons]
    by_cases hole : entries[i].isNone
    · simp only [Option.bind_eq_bind, Option.bind_some, hole, if_true]
      simp
    · simp only [Option.bind_eq_bind, Option.bind_some, hole, Bool.false_eq_true, if_false, ih (show i + 1 + n = entries.length by omega)]
      rw [Option.map_map]
      congr 2
      funext j
      simp only [Function.comp_apply]
      omega

/-- Where there is a place, `add` does what it does to the list of entries. -/
theorem add_of_place (heap : ArrayHeap (Option α)) (holds : Holds list entries) (place : 0 < places list) (value : α) :
    ∃ list', add heap list value = some (((ListWithHoles.add entries value).2 : Int), list') ∧
      Holds list' (ListWithHoles.add entries value).1 ∧ list'.mCapacity = list.mCapacity ∧
      places list' = places list - 1 := by
  have size : list.mSize.toInt.toNat = entries.length := by
    rw [toInt_of_small holds.size_small, holds.size, Int.toNat_natCast]
  have scan := firstHole_eq holds (Nat.zero_add entries.length)
  have small := holds.size_small
  have length := holds.size
  rw [places_eq holds] at place ⊢
  simp only [add, size, scan, ListWithHoles.add, Option.bind_eq_bind, Option.bind_some, List.drop_zero, Nat.add_zero]
  cases found : entries.findIdx? Option.isNone with
  | some i =>
    obtain ⟨inside, hole, -⟩ := List.findIdx?_eq_some_iff_getElem.mp found
    have index : (BitVec.ofNat 32 i).toNat = i := by
      rw [BitVec.toNat_ofNat]
      apply Nat.mod_eq_of_lt
      omega
    obtain ⟨list', written, after, capacity⟩ := holds.set (i := BitVec.ofNat 32 i) (by rw [index]; exact inside) (some value)
    rw [index] at after
    refine ⟨list', by simp [written], after, capacity, ?_⟩
    have count := List.countP_set (p := Option.isNone) (l := entries) (a := some value) inside
    have some : 0 < entries.countP Option.isNone := List.countP_pos_iff.mpr ⟨_, List.getElem_mem inside, hole⟩
    rw [places_eq after, capacity, List.length_set, count]
    simp [hole]
    omega
  | none =>
    have full : entries.countP Option.isNone = 0 := by
      rw [List.countP_eq_zero]
      intro x member
      exact Bool.eq_false_iff.mp (List.findIdx?_eq_none_iff.mp found x member)
    have room : entries.length < list.mCapacity.toNat := by omega
    have spare : list.mSize ≠ list.mCapacity := by
      intro same
      have none := holds.length_of_full same
      omega
    have grown : grow heap list = Option.some (true, list) := if_neg spare
    obtain ⟨list', appended, after, capacity⟩ := holds.append_room room (some value) grown
    refine ⟨list', by simp [appended], after, capacity, ?_⟩
    rw [places_eq after, capacity]
    simp [full]
    omega

/-- Without a place, `add` appends to a full array. -/
theorem add_of_full (holds : Holds list entries) (full : places list = 0) (value : α) :
    add heap list value = append heap list (some value) ∧ list.mSize = list.mCapacity ∧
      ListWithHoles.add entries value = (entries ++ [some value], entries.length) := by
  rw [places_eq holds] at full
  have noHole : entries.findIdx? Option.isNone = none := by
    rw [List.findIdx?_eq_none_iff]
    intro x member
    exact Bool.eq_false_iff.mpr (List.countP_eq_zero.mp (by omega) x member)
  have size : list.mSize.toInt.toNat = entries.length := by
    rw [toInt_of_small holds.size_small, holds.size, Int.toNat_natCast]
  refine ⟨?_, ?_, ?_⟩
  · rw [add, size, firstHole_eq holds (Nat.zero_add _), List.drop_zero, noHole]
    rfl
  · by_contra spare
    have room := holds.room_of_not_full spare
    omega
  · rw [ListWithHoles.add, noHole]

/-- A full array is replaced by one of twice its capacity. -/
theorem add_granted (holds : Holds list entries) (full : places list = 0) (positive : 0 < list.mCapacity.toNat)
    (limit : list.mCapacity.toNat < 2 ^ 30) (granted : heap.grants (list.mCapacity * 2#32) = true) (value : α) :
    ∃ list', add heap list value = some (((ListWithHoles.add entries value).2 : Int), list') ∧
      Holds list' (ListWithHoles.add entries value).1 ∧ list'.mCapacity.toNat = list.mCapacity.toNat * 2 ∧
      places list' = list.mCapacity.toNat - 1 := by
  obtain ⟨appends, whole, added⟩ := add_of_full holds full value
  have length := holds.length_of_full whole
  obtain ⟨grown, result, kept, capacity⟩ := holds.grow_granted whole positive limit granted
  obtain ⟨list', appended, after, same⟩ := kept.append_room (by omega) (some value) result
  rw [added]
  refine ⟨list', appends.trans appended, after, by rw [same, capacity], ?_⟩
  rw [places_eq holds] at full
  have none : entries.countP Option.isNone = 0 := by omega
  rw [places_eq after, same, capacity]
  simp [none]
  omega

theorem add_refused (holds : Holds list entries) (full : places list = 0) (limit : list.mCapacity.toNat < 2 ^ 30)
    (refused : heap.grants (list.mCapacity * 2#32) = false) (value : α) : add heap list value = some (-1, list) := by
  obtain ⟨appends, whole, -⟩ := add_of_full holds full value
  exact appends.trans (append_refused whole limit refused)

theorem add_limit (holds : Holds list entries) (full : places list = 0) (limit : 2 ^ 30 ≤ list.mCapacity.toNat) (value : α) :
    add heap list value = none := by
  obtain ⟨appends, whole, -⟩ := add_of_full holds full value
  exact appends.trans (holds.append_limit whole limit)

end Places

section Meaning

/-- Where `add` puts a value: into the lowest place where nothing is, and nowhere else. -/
theorem add_lowest (entries : List (Option α)) (value : α) :
    ListWithHoles.entry entries (ListWithHoles.add entries value).2 = none ∧
      (∀ j < (ListWithHoles.add entries value).2, (ListWithHoles.entry entries j).isSome) ∧
      ListWithHoles.entry (ListWithHoles.add entries value).1 =
        Function.update (ListWithHoles.entry entries) (ListWithHoles.add entries value).2 (some value) := by
  unfold ListWithHoles.add
  cases found : entries.findIdx? Option.isNone with
  | some i =>
    obtain ⟨inside, hole, before⟩ := List.findIdx?_eq_some_iff_getElem.mp found
    refine ⟨?_, fun j below => ?_, funext fun j => ?_⟩
    · simpa [ListWithHoles.entry, inside] using hole
    · have present := before j below
      rw [Bool.not_eq_true, Option.isNone_eq_false_iff] at present
      simpa [ListWithHoles.entry, Nat.lt_trans below inside] using present
    · by_cases same : j = i
      · subst same
        simp [ListWithHoles.entry, inside]
      · simp [ListWithHoles.entry, same, Ne.symm same]
  | none =>
    refine ⟨?_, fun j below => ?_, funext fun j => ?_⟩
    · simp [ListWithHoles.entry]
    · have present := List.findIdx?_eq_none_iff.mp found entries[j] (List.getElem_mem below)
      rw [Option.isNone_eq_false_iff] at present
      simpa [ListWithHoles.entry, below] using present
    · obtain below | rfl | above := Nat.lt_trichotomy j entries.length
      · simp [ListWithHoles.entry, List.getElem?_append_left below, Nat.ne_of_lt below]
      · simp [ListWithHoles.entry]
      · have beyond : (entries ++ [some value]).length ≤ j := by
          rw [List.length_append, List.length_singleton]
          exact above
        rw [Function.update_of_ne (Nat.ne_of_gt above), ListWithHoles.entry_eq_none_of_le beyond,
          ListWithHoles.entry_eq_none_of_le (Nat.le_of_lt above)]

theorem entry_set {entries : List (Option α)} {i : Nat} (inside : i < entries.length) (value : Option α) :
    ListWithHoles.entry (entries.set i value) = Function.update (ListWithHoles.entry entries) i value := by
  funext j
  by_cases same : j = i
  · subst same
    simp [ListWithHoles.entry, inside]
  · simp [ListWithHoles.entry, same, Ne.symm same]

end Meaning

end HoledArray
end FluxOS
