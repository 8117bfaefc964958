import Mathlib.Data.List.TakeWhile

/-! Texts that separators divide into names. A run of separators, wherever it
stands, divides as one does and adds no name. -/
namespace FluxOS.SeparatedNames

variable {α : Type*} [DecidableEq α] {separator : α}

/-- The nonempty pieces between the separators. -/
def names (separator : α) (text : List α) : List (List α) := (text.splitOn separator).filter (· ≠ [])

def skipSeparators (separator : α) (text : List α) : List α := text.dropWhile (· = separator)

/-- The text up to the first separator, and from there on. -/
def beforeSeparator (separator : α) (text : List α) : List α := text.takeWhile (· ≠ separator)

def fromSeparator (separator : α) (text : List α) : List α := text.dropWhile (· ≠ separator)

section Scanning

variable {head : α} (text : List α)

@[simp] theorem skipSeparators_self : skipSeparators separator (separator :: text) = skipSeparators separator text :=
  List.dropWhile_cons_of_pos (decide_eq_true rfl)

theorem skipSeparators_of_ne (plain : head ≠ separator) : skipSeparators separator (head :: text) = head :: text :=
  List.dropWhile_cons_of_neg (by simpa using plain)

@[simp] theorem beforeSeparator_nil : beforeSeparator separator [] = [] := rfl

@[simp] theorem beforeSeparator_self : beforeSeparator separator (separator :: text) = [] :=
  List.takeWhile_cons_of_neg (by simp)

theorem beforeSeparator_of_ne (plain : head ≠ separator) :
    beforeSeparator separator (head :: text) = head :: beforeSeparator separator text :=
  List.takeWhile_cons_of_pos (by simpa using plain)

@[simp] theorem fromSeparator_self : fromSeparator separator (separator :: text) = separator :: text :=
  List.dropWhile_cons_of_neg (by simp)

theorem fromSeparator_of_ne (plain : head ≠ separator) :
    fromSeparator separator (head :: text) = fromSeparator separator text :=
  List.dropWhile_cons_of_pos (by simpa using plain)

end Scanning

@[simp] theorem names_nil : names separator [] = [] := rfl

theorem names_append_separator (separator : α) (text rest : List α) :
    names separator (text ++ separator :: rest) = names separator text ++ names separator rest := by
  unfold names
  rw [List.splitOn_append_cons_self, List.filter_append]

theorem names_separator (text : List α) : names separator (separator :: text) = names separator text :=
  names_append_separator separator [] text

theorem names_of_not_mem {text : List α} (plain : separator ∉ text) :
    names separator text = if text = [] then [] else [text] := by
  unfold names
  rw [List.splitOn_eq_singleton plain]
  cases text with
  | nil => rfl
  | cons head tail => rfl

theorem names_skipSeparators (separator : α) (text : List α) :
    names separator (skipSeparators separator text) = names separator text := by
  induction text with
  | nil => rfl
  | cons head tail ih =>
    by_cases separates : head = separator
    · rw [separates, skipSeparators_self, ih, names_separator]
    · rw [skipSeparators_of_ne tail separates]

/-- What is left after a run of separators does not begin with one. -/
theorem head_skipSeparators {text rest : List α} {head : α} (left : skipSeparators separator text = head :: rest) :
    head ≠ separator := by
  have stopped := List.head?_dropWhile_not (fun entry => decide (entry = separator)) text
  rw [show text.dropWhile (fun entry => decide (entry = separator)) = head :: rest from left] at stopped
  simpa using stopped

theorem separator_not_mem_beforeSeparator (text : List α) : separator ∉ beforeSeparator separator text := by
  intro member
  have plain := List.mem_takeWhile_imp member
  simp at plain

/-- From the first separator on there is either nothing or a separator first. -/
theorem fromSeparator_cases (separator : α) (text : List α) :
    fromSeparator separator text = [] ∨ ∃ rest, fromSeparator separator text = separator :: rest := by
  cases left : fromSeparator separator text with
  | nil => exact .inl rfl
  | cons head rest =>
    have stopped := List.head?_dropWhile_not (fun entry => decide (entry ≠ separator)) text
    rw [show text.dropWhile (fun entry => decide (entry ≠ separator)) = head :: rest from left] at stopped
    have same : head = separator := by simpa using stopped
    exact .inr ⟨rest, by rw [same]⟩

theorem beforeSeparator_append_fromSeparator (separator : α) (text : List α) :
    beforeSeparator separator text ++ fromSeparator separator text = text :=
  List.takeWhile_append_dropWhile

/-- One name is read off a text that does not begin with a separator. -/
theorem names_cons {head : α} (plain : head ≠ separator) (text : List α) :
    names separator (head :: text) =
      (head :: beforeSeparator separator text) :: names separator (fromSeparator separator text) := by
  have first : separator ∉ head :: beforeSeparator separator text := by
    rw [List.mem_cons, not_or]
    exact ⟨Ne.symm plain, separator_not_mem_beforeSeparator text⟩
  have whole := beforeSeparator_append_fromSeparator separator text
  obtain ended | ⟨rest, more⟩ := fromSeparator_cases separator text
  · rw [ended, List.append_nil] at whole
    rw [ended, names_nil, whole]
    rw [whole] at first
    exact names_of_not_mem first
  · rw [more] at whole
    have split := names_append_separator separator (head :: beforeSeparator separator text) rest
    rw [List.cons_append, whole, names_of_not_mem first, if_neg (List.cons_ne_nil _ _)] at split
    rw [more, names_separator, split]
    rfl

theorem names_eq_nil_iff {text : List α} : names separator text = [] ↔ skipSeparators separator text = [] := by
  rw [← names_skipSeparators]
  cases left : skipSeparators separator text with
  | nil => simp
  | cons head rest => simp [names_cons (head_skipSeparators left)]

theorem length_skipSeparators_le (separator : α) (text : List α) :
    (skipSeparators separator text).length ≤ text.length :=
  (List.dropWhile_suffix _).length_le

theorem length_fromSeparator_le (separator : α) (text : List α) :
    (fromSeparator separator text).length ≤ text.length :=
  (List.dropWhile_suffix _).length_le

end FluxOS.SeparatedNames
