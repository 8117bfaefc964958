import Mathlib.Data.List.Nodup
import Mathlib.Data.List.Perm.Subperm

/-! Cells at addresses, each of which may be freed, and chains of cells that lead from one to the next. A read of a
freed cell has no result. -/
namespace FluxOS.LinkedCells

variable {α : Type*}

/-- The cells by their addresses. -/
abbrev Cells (α : Type*) := List (Option α)

def read (cells : Cells α) (p : Nat) : Option α := cells[p]?.join

def write (cells : Cells α) (p : Nat) (cell : α) : Cells α := cells.set p (some cell)

def free (cells : Cells α) (p : Nat) : Cells α := cells.set p none

section Access

variable {cells : Cells α} {p q : Nat} {cell old : α}

theorem lt_length_of_read (held : read cells p = some cell) : p < cells.length := by
  by_contra outside
  rw [read, List.getElem?_eq_none (Nat.not_lt.mp outside)] at held
  cases held

theorem read_write_self (held : read cells p = some old) (cell : α) : read (write cells p cell) p = some cell := by
  simp [read, write, List.getElem?_set_self (lt_length_of_read held)]

theorem read_write_of_ne (other : q ≠ p) (cell : α) : read (write cells p cell) q = read cells q := by
  rw [read, write, List.getElem?_set_ne (Ne.symm other), read]

theorem read_free_self (cells : Cells α) (p : Nat) : read (free cells p) p = none := by
  rw [read, free]
  by_cases bound : p < cells.length
  · rw [List.getElem?_set_self bound]
    rfl
  · rw [List.getElem?_eq_none (by simpa using bound)]
    rfl

theorem read_free_of_ne (other : q ≠ p) : read (free cells p) q = read cells q := by
  rw [read, free, List.getElem?_set_ne (Ne.symm other), read]

end Access

section Chains

variable (next : α → Option Nat)

/-- The addresses of the cells that a pointer leads to, one after the other. -/
def Chain (cells : Cells α) : Option Nat → List Nat → Prop
  | head, [] => head = none
  | head, p :: rest => head = some p ∧ ∃ cell, read cells p = some cell ∧ Chain cells (next cell) rest

variable {next} {cells cells' : Cells α} {head : Option Nat} {ps before after : List Nat} {p q : Nat} {cell : α}

theorem Chain.head_eq (chain : Chain next cells head ps) : head = ps.head? := by
  cases ps with
  | nil => exact chain
  | cons p rest => exact chain.1

theorem Chain.read_of_mem (chain : Chain next cells head ps) (member : p ∈ ps) : ∃ cell, read cells p = some cell := by
  induction ps generalizing head with
  | nil => cases member
  | cons first rest ih =>
    obtain ⟨-, cell, held, later⟩ := chain
    obtain rfl | member := List.mem_cons.mp member
    · exact ⟨cell, held⟩
    · exact ih later member

/-- What does not change where the cells lead leaves their chain. -/
theorem Chain.frame (chain : Chain next cells head ps)
    (same : ∀ p ∈ ps, (read cells' p).map next = (read cells p).map next) : Chain next cells' head ps := by
  induction ps generalizing head with
  | nil => exact chain
  | cons first rest ih =>
    obtain ⟨leads, cell, held, later⟩ := chain
    have kept := same first List.mem_cons_self
    rw [held, Option.map_some, Option.map_eq_some_iff] at kept
    obtain ⟨cell', held', onward⟩ := kept
    refine ⟨leads, cell', held', ?_⟩
    rw [onward]
    exact ih later fun p member => same p (List.mem_cons_of_mem _ member)

/-- A chain from one of its cells on. -/
theorem Chain.split (chain : Chain next cells head (before ++ p :: after)) :
    ∃ cell, read cells p = some cell ∧ Chain next cells (next cell) after := by
  induction before generalizing head with
  | nil => exact chain.2
  | cons first rest ih =>
    obtain ⟨-, cell, -, later⟩ := chain
    exact ih later

theorem Chain.next_eq (chain : Chain next cells head (before ++ p :: after)) (held : read cells p = some cell) :
    next cell = after.head? := by
  obtain ⟨found, same, later⟩ := chain.split
  cases held.symm.trans same
  exact later.head_eq

/-- A cell is taken out when the one before it leads to the one behind it. -/
theorem Chain.unlink (chain : Chain next cells head (before ++ q :: p :: after)) (held : read cells p = some cell)
    (changed : (read cells' q).map next = some (next cell))
    (same : ∀ r ∈ before ++ after, (read cells' r).map next = (read cells r).map next) :
    Chain next cells' head (before ++ q :: after) := by
  induction before generalizing head with
  | nil =>
    obtain ⟨leads, -, -, -, found, same', later⟩ := chain
    cases held.symm.trans same'
    rw [Option.map_eq_some_iff] at changed
    obtain ⟨cell', held', onward⟩ := changed
    refine ⟨leads, cell', held', ?_⟩
    rw [onward]
    exact later.frame same
  | cons first rest ih =>
    obtain ⟨leads, old, heldFirst, later⟩ := chain
    have kept := same first List.mem_cons_self
    rw [heldFirst, Option.map_some, Option.map_eq_some_iff] at kept
    obtain ⟨cell', held', onward⟩ := kept
    refine ⟨leads, cell', held', ?_⟩
    rw [onward]
    exact ih later fun r member => same r (List.mem_cons_of_mem _ member)

/-- There are no more cells in a chain than there are addresses. -/
theorem Chain.length_le (chain : Chain next cells head ps) (nodup : ps.Nodup) : ps.length ≤ cells.length := by
  have inside : ps ⊆ List.range cells.length := by
    intro p member
    obtain ⟨cell, held⟩ := chain.read_of_mem member
    exact List.mem_range.mpr (lt_length_of_read held)
  simpa using (List.subperm_of_subset nodup inside).length_le

end Chains
end FluxOS.LinkedCells
