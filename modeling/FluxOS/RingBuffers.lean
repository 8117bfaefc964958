import FluxOS.Buffers
import Mathlib.Data.List.Rotate

/-! A block used as a ring: the entries that stand in it from one position on,
round its end, and what reading and writing one stretch of it does to them. -/
namespace FluxOS.Buffers

variable {α : Type*} {ring patched queue entries : List α} {start n : Nat}

/-- A position in the ring has gone round its end once at most. -/
theorem go_round {start size i : Nat} (begins : start < size) (bound : i ≤ size) :
    (start + i < size ∧ (start + i) % size = start + i) ∨
      (size ≤ start + i ∧ (start + i) % size + size = start + i) := by
  by_cases straight : start + i < size
  · exact .inl ⟨straight, Nat.mod_eq_of_lt straight⟩
  · have once : (start + i) % size = start + i - size := by
      rw [Nat.mod_eq_sub_mod (by omega), Nat.mod_eq_of_lt (by omega)]
    refine .inr ⟨by omega, ?_⟩
    omega

/-- `queue` stands in the block from `start` on, going on at the front behind the end. -/
structure Window (ring : List α) (start : Nat) (queue : List α) : Prop where
  fits : queue.length ≤ ring.length
  entry : ∀ i < queue.length, ring[(start + i) % ring.length]? = queue[i]?

namespace Window

theorem nil (ring : List α) (start : Nat) : Window ring start [] where
  fits := Nat.zero_le _
  entry i bound := absurd bound (Nat.not_lt_zero i)

/-- A window is the block turned round to its start, as far as the queue goes. -/
theorem take_rotate (window : Window ring start queue) : (ring.rotate start).take queue.length = queue := by
  have fits := window.fits
  apply List.ext_getElem?
  intro i
  by_cases within : i < queue.length
  · rw [List.getElem?_take, if_pos within, List.getElem?_rotate (by omega), Nat.add_comm, window.entry i within]
  · rw [List.getElem?_eq_none (by simp; omega), List.getElem?_eq_none (by omega)]

/-- The first entries, where they do not go round the end. -/
theorem slice_eq (window : Window ring start queue) (straight : start + n ≤ ring.length) (held : n ≤ queue.length) :
    slice ring start n = some (queue.take n) := by
  rw [slice_of_inside straight, Option.some.injEq]
  apply List.ext_getElem?
  intro i
  by_cases within : i < n
  · have entry := window.entry i (by omega)
    rw [Nat.mod_eq_of_lt (by omega)] at entry
    rw [List.getElem?_take, if_pos within, List.getElem?_drop, List.getElem?_take, if_pos within, entry]
  · rw [List.getElem?_take, if_neg within, List.getElem?_take, if_neg within]

/-- The window that is left when the first entries have been taken out. -/
theorem drop (window : Window ring start queue) (n : Nat) :
    Window ring ((start + n) % ring.length) (queue.drop n) where
  fits := by
    have fits := window.fits
    simp
    omega
  entry i bound := by
    have within : n + i < queue.length := by
      rw [List.length_drop] at bound
      omega
    rw [Nat.mod_add_mod, List.getElem?_drop, ← window.entry (n + i) within, Nat.add_assoc]

/-- Entries written behind the last one, where they do not go round the end. -/
theorem append (window : Window ring start queue) (begins : start < ring.length)
    (written : patch ring ((start + queue.length) % ring.length) entries = some patched)
    (straight : (start + queue.length) % ring.length + entries.length ≤ ring.length)
    (room : queue.length + entries.length ≤ ring.length) : Window patched start (queue ++ entries) := by
  have size : patched.length = ring.length := length_of_patch written
  have fits := window.fits
  refine ⟨by simpa [size] using room, ?_⟩
  intro i bound
  rw [List.length_append] at bound
  have last := go_round begins fits
  have here := go_round begins (show i ≤ ring.length by omega)
  rw [size, getElem?_of_patch written]
  by_cases old : i < queue.length
  · rw [List.getElem?_append_left old, ← window.entry i old]
    apply if_neg
    -- what has been written stands behind the queue and does not reach round to its start
    omega
  · rw [List.getElem?_append_right (by omega), if_pos (by omega)]
    congr 1
    omega

end Window
end FluxOS.Buffers
