import Mathlib.Data.Fintype.Pigeonhole
import Mathlib.Data.Option.Basic

/-! Walks along a partial function. Among finitely many places a walk ends exactly if it never
comes back to a place. -/
namespace FluxOS.PartialWalks

variable {α : Type*} (next : α → Option α) (start : α)

/-- The place that `n` steps lead to, if the walk goes on so far. -/
def place : Nat → Option α
  | 0 => some start
  | n + 1 => (place n).bind next

def Ends : Prop := ∃ n, place next start n = none

def ComesBack : Prop := ∃ m n again, m < n ∧ place next start m = some again ∧ place next start n = some again

variable {next start}

theorem place_succ (n : Nat) : place next start (n + 1) = (next start).bind fun second => place next second n := by
  induction n with
  | zero => cases h : next start <;> simp [place, h]
  | succ n ih =>
    rw [place, ih, Option.bind_assoc]
    rfl

theorem place_none_of_le {m n : Nat} (le : m ≤ n) (ended : place next start m = none) : place next start n = none := by
  induction n, le using Nat.le_induction with
  | base => exact ended
  | succ n _ ih => rw [place, ih, Option.bind_none]

/-- What follows a place does not depend on how it was reached. -/
theorem place_shift {m n : Nat} (same : place next start m = place next start n) (k : Nat) :
    place next start (m + k) = place next start (n + k) := by
  induction k with
  | zero => exact same
  | succ k ih => rw [← Nat.add_assoc, ← Nat.add_assoc, place, place, ih]

/-- A walk that has come back never ends. -/
theorem ComesBack.not_ends (back : ComesBack next start) : ¬Ends next start := by
  obtain ⟨m, n, again, less, first, second⟩ := back
  have goesOn : ∀ k, place next start k ≠ none := by
    intro k
    induction k using Nat.strongRecOn with
    | ind k ih =>
      by_cases early : k ≤ n
      · intro ended
        have gone := place_none_of_le early ended
        rw [second] at gone
        cases gone
      · have shifted := place_shift (first.trans second.symm) (k - n)
        rw [show n + (k - n) = k by omega] at shifted
        rw [← shifted]
        exact ih (m + (k - n)) (by omega)
  rintro ⟨k, ended⟩
  exact goesOn k ended

theorem ends_iff [Finite α] : Ends next start ↔ ¬ComesBack next start := by
  refine ⟨fun ends back => back.not_ends ends, fun never => ?_⟩
  by_contra endless
  have found (n : Nat) : ∃ here, place next start n = some here :=
    Option.ne_none_iff_exists'.mp fun ended => endless ⟨n, ended⟩
  choose here reached using found
  obtain ⟨m, n, other, same⟩ := Finite.exists_ne_map_eq_of_infinite here
  rcases Nat.lt_or_gt_of_ne other with less | less
  · exact never ⟨m, n, here m, less, reached m, same ▸ reached n⟩
  · exact never ⟨n, m, here n, less, reached n, same.symm ▸ reached m⟩

end FluxOS.PartialWalks
