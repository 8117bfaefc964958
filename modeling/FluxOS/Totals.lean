import Mathlib.Algebra.BigOperators.Group.Finset.Basic
import Mathlib.Algebra.BigOperators.Group.List.Basic
import Mathlib.Tactic.Abel
import FluxOS.ListWithHoles

/-! What the entries of a table weigh together, and what one operation on the table
adds to that: the new entry's weight less the old one's. -/
namespace FluxOS

variable {α : Type} {β M : Type*} [AddCommGroup M]

/-- One entry of a table is written. -/
theorem sum_range_update (weight : β → M) (table : Nat → β) {n i : Nat} (inside : i < n) (value : β) :
    ∑ j ∈ Finset.range n, weight (Function.update table i value j) =
      ∑ j ∈ Finset.range n, weight (table j) - weight (table i) + weight value := by
  have member : i ∈ Finset.range n := Finset.mem_range.mpr inside
  have written := Finset.add_sum_erase _ (fun j => weight (Function.update table i value j)) member
  have unwritten := Finset.add_sum_erase _ (fun j => weight (table j)) member
  have rest : ∑ j ∈ (Finset.range n).erase i, weight (Function.update table i value j) =
      ∑ j ∈ (Finset.range n).erase i, weight (table j) := by
    refine Finset.sum_congr rfl fun j other => ?_
    rw [Function.update_of_ne (Finset.ne_of_mem_erase other)]
  simp only [Function.update_self] at written
  rw [← written, ← unwritten, rest, add_sub_cancel_left, add_comm]

/-- Other entries do not count. -/
theorem sum_range_update_of_le (weight : β → M) (table : Nat → β) {n i : Nat} (outside : n ≤ i) (value : β) :
    ∑ j ∈ Finset.range n, weight (Function.update table i value j) = ∑ j ∈ Finset.range n, weight (table j) := by
  refine Finset.sum_congr rfl fun j member => ?_
  have below : j < i := Nat.lt_of_lt_of_le (Finset.mem_range.mp member) outside
  rw [Function.update_of_ne below.ne]

namespace ListWithHoles

/-- A hole weighs nothing. -/
def total (weight : α → M) (list : List (Option α)) : M := (list.map fun x => x.elim 0 weight).sum

variable (weight : α → M)

@[simp] theorem total_nil : total weight [] = 0 := rfl

theorem total_cons (x : Option α) (rest : List (Option α)) :
    total weight (x :: rest) = x.elim 0 weight + total weight rest := rfl

theorem total_append (front back : List (Option α)) :
    total weight (front ++ back) = total weight front + total weight back := by
  unfold total
  rw [List.map_append, List.sum_append]

theorem total_set {list : List (Option α)} {i : Nat} (inside : i < list.length) (x : Option α) :
    total weight (list.set i x) = total weight list - (entry list i).elim 0 weight + x.elim 0 weight := by
  have before : entry list i = list[i] := by
    rw [entry, List.getElem?_eq_getElem inside, Option.join_some]
  have bound : i < (list.map fun x => x.elim 0 weight).length := by
    rw [List.length_map]
    exact inside
  unfold total
  rw [List.map_set, List.sum_set', dif_pos bound, List.getElem_map, before]
  abel

theorem total_remove (list : List (Option α)) (i : Nat) :
    total weight (remove list i) = total weight list - (entry list i).elim 0 weight := by
  by_cases inside : i < list.length
  · rw [remove, total_set weight inside]
    exact add_zero _
  · have beyond : list.length ≤ i := Nat.le_of_not_lt inside
    rw [remove, List.set_eq_of_length_le beyond, entry_eq_none_of_le beyond]
    exact (sub_zero _).symm

theorem total_add (list : List (Option α)) (value : α) :
    total weight (add list value).1 = total weight list + weight value := by
  unfold add
  cases found : list.findIdx? Option.isNone with
  | none =>
    simp only
    rw [total_append, total_cons, total_nil, add_zero]
    rfl
  | some i =>
    obtain ⟨inside, hole, _⟩ := List.findIdx?_eq_some_iff_getElem.mp found
    have empty : entry list i = none := by
      rw [entry, List.getElem?_eq_getElem inside, Option.join_some]
      exact Option.isNone_iff_eq_none.mp hole
    simp only
    rw [total_set weight inside, empty]
    exact congrArg (· + weight value) (sub_zero _)

theorem total_refill (list : List (Option α)) : total weight (refill list) = total weight list := by
  induction list with
  | nil => rfl
  | cons x rest ih =>
    cases x with
    | none =>
      rw [refill_cons_none, ih, total_cons]
      exact (zero_add _).symm
    | some value => rw [refill_cons_some, total_cons, total_cons, ih]

theorem total_eq_zero {list : List (Option α)} (holes : ∀ i, entry list i = none) : total weight list = 0 := by
  induction list with
  | nil => rfl
  | cons x rest ih =>
    have head := holes 0
    rw [entry_cons_zero] at head
    rw [total_cons, head, ih fun i => by simpa using holes (i + 1)]
    exact zero_add 0

end ListWithHoles

end FluxOS
