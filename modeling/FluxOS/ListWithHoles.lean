import Mathlib.Data.List.Basic

/-! Lists in which an entry can be given up and used again, as `ListWithHoles`
keeps them: a hole is `none`, and `add` fills the lowest hole. -/
namespace FluxOS.ListWithHoles

variable {α : Type}

/-- `add`: the list, and the index the value got. -/
def add (list : List (Option α)) (value : α) : List (Option α) × Nat :=
  match list.findIdx? Option.isNone with
  | some i => (list.set i (some value), i)
  | none => (list ++ [some value], list.length)

def remove (list : List (Option α)) (i : Nat) : List (Option α) := list.set i none

/-- `at`, with nothing past the end. -/
def entry (list : List (Option α)) (i : Nat) : Option α := (list[i]?).join

/-- A list without holes grows at its end. -/
theorem add_of_full {list : List (Option α)} (full : ∀ i < list.length, (entry list i).isSome) (value : α) :
    add list value = (list ++ [some value], list.length) := by
  have noHole : list.findIdx? Option.isNone = none := by
    rw [List.findIdx?_eq_none_iff]
    intro x member
    obtain ⟨i, bound, rfl⟩ := List.mem_iff_getElem.mp member
    have present := full i bound
    simp only [entry, List.getElem?_eq_getElem bound, Option.join_some] at present
    rw [Option.isNone_eq_false_iff]
    exact present
  rw [add, noHole]

theorem entry_add (list : List (Option α)) (value : α) : entry (add list value).1 (add list value).2 = some value := by
  unfold add entry
  cases found : list.findIdx? Option.isNone with
  | none => simp
  | some i =>
    obtain ⟨inside, _⟩ := List.findIdx?_eq_some_iff_getElem.mp found
    simp [List.getElem?_set_self inside]

/-- Where a value goes does not depend on what it is. -/
theorem add_map {β : Type} (f : α → β) (list : List (Option α)) (value : α) :
    add (list.map (Option.map f)) (f value) = ((add list value).1.map (Option.map f), (add list value).2) := by
  unfold add
  rw [List.findIdx?_map, show Option.isNone ∘ Option.map f = Option.isNone from funext fun _ => Option.isNone_map]
  cases list.findIdx? Option.isNone with
  | none => simp
  | some i => simp [List.map_set]

@[simp] theorem length_remove (list : List (Option α)) (i : Nat) : (remove list i).length = list.length :=
  List.length_set

theorem entry_eq_none_of_le {list : List (Option α)} {i : Nat} (beyond : list.length ≤ i) : entry list i = none := by
  simp [entry, List.getElem?_eq_none beyond]

theorem entry_remove (list : List (Option α)) (i j : Nat) :
    entry (remove list i) j = if j = i then none else entry list j := by
  by_cases same : j = i
  · subst same
    rw [if_pos rfl]
    by_cases bound : j < list.length
    · simp [entry, remove, List.getElem?_set_self bound]
    · have short : (remove list j).length ≤ j := by
        rw [length_remove]
        exact Nat.le_of_not_lt bound
      exact entry_eq_none_of_le short
  · rw [if_neg same]
    simp [entry, remove, List.getElem?_set_ne (Ne.symm same)]

/-- Every entry below an entry is an entry: the holes are all at the end. -/
def Packed (list : List (Option α)) : Prop :=
  ∀ i j, i < j → (entry list j).isSome → (entry list i).isSome

/-- The entries added one after the other to an empty list. -/
def refill (list : List (Option α)) : List (Option α) := (list.filterMap id).map some

theorem foldl_add_full (values : List α) :
    values.foldl (fun list value => (add list value).1) ([] : List (Option α)) = values.map some := by
  suffices grown : ∀ (values before : List α),
      values.foldl (fun list value => (add list value).1) (before.map some) = (before ++ values).map some by
    simpa using grown values []
  intro values
  induction values with
  | nil => simp
  | cons value rest ih =>
    intro before
    have full : ∀ i < (before.map some).length, (entry (before.map some) i).isSome := by
      intro i bound
      rw [List.length_map] at bound
      simp [entry, bound]
    rw [List.foldl_cons, add_of_full full, ← List.map_singleton (f := some), ← List.map_append, ih]
    simp

@[simp] theorem entry_nil (i : Nat) : entry ([] : List (Option α)) i = none := rfl

@[simp] theorem entry_cons_zero (x : Option α) (rest : List (Option α)) : entry (x :: rest) 0 = x := by
  simp [entry]

@[simp] theorem entry_cons_succ (x : Option α) (rest : List (Option α)) (i : Nat) :
    entry (x :: rest) (i + 1) = entry rest i := by
  simp [entry]

theorem refill_cons_some (value : α) (rest : List (Option α)) :
    refill (some value :: rest) = some value :: refill rest := rfl

theorem refill_cons_none (rest : List (Option α)) : refill (none :: rest) = refill rest := rfl

theorem packed_refill (list : List (Option α)) : Packed (refill list) := by
  intro i j below present
  have bound : j < (refill list).length := by
    by_contra beyond
    rw [entry_eq_none_of_le (Nat.le_of_not_lt beyond)] at present
    cases present
  have lower : i < (list.filterMap id).length := by
    rw [refill, List.length_map] at bound
    omega
  rw [refill, entry, List.getElem?_map, List.getElem?_eq_getElem lower]
  rfl

theorem entry_of_none_head {rest : List (Option α)} (packed : Packed (none :: rest)) (i : Nat) :
    entry rest i = none := by
  cases found : entry rest i with
  | none => rfl
  | some value =>
    have head := packed 0 (i + 1) (Nat.succ_pos i) (by simp [found])
    simp at head

theorem refill_eq_nil {list : List (Option α)} (empty : ∀ i, entry list i = none) : refill list = [] := by
  induction list with
  | nil => rfl
  | cons x rest ih =>
    have head := empty 0
    rw [entry_cons_zero] at head
    subst head
    rw [refill_cons_none]
    exact ih fun i => by simpa using empty (i + 1)

theorem Packed.tail {x : Option α} {rest : List (Option α)} (packed : Packed (x :: rest)) : Packed rest := by
  intro i j below present
  simpa using packed (i + 1) (j + 1) (Nat.succ_lt_succ below) (by simpa using present)

/-- Adding the entries anew gives the same list, entry for entry, exactly when
no hole lies below an entry. -/
theorem refill_eq_iff (list : List (Option α)) :
    (∀ i, entry (refill list) i = entry list i) ↔ Packed list := by
  constructor
  · intro same i j below present
    rw [← same] at present ⊢
    exact packed_refill list i j below present
  · intro packed
    induction list with
    | nil => exact fun i => rfl
    | cons x rest ih =>
      intro i
      cases x with
      | none =>
        have empty := entry_of_none_head packed
        rw [refill_cons_none, refill_eq_nil empty]
        cases i with
        | zero => simp
        | succ i => simp [empty]
      | some value =>
        rw [refill_cons_some]
        cases i with
        | zero => simp
        | succ i => simpa using ih packed.tail i

end FluxOS.ListWithHoles
