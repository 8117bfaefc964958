import Mathlib.Algebra.BigOperators.Intervals
import Mathlib.Algebra.Order.BigOperators.Group.Finset
import Mathlib.Data.List.Pairwise
import FluxOS.Totals

/-! Counting the pointers that lead to an object, and doubly linked chains of
objects. A count changes only where a pointer is written. -/
namespace FluxOS.LinkedPointers

variable {α : Type*}

section Counting

variable [DecidableEq α]

/-- What one pointer adds to the count of an object. -/
def points (pointer : Option α) (target : α) : Int := if pointer = some target then 1 else 0

@[simp] theorem points_none (target : α) : points none target = 0 := rfl

@[simp] theorem points_self (target : α) : points (some target) target = 1 := if_pos rfl

theorem points_of_ne {a target : α} (other : a ≠ target) : points (some a) target = 0 :=
  if_neg fun same => other (Option.some.inj same)

theorem points_nonneg (pointer : Option α) (target : α) : 0 ≤ points pointer target := by
  unfold points
  split <;> decide

theorem points_eq_one_iff {pointer : Option α} {target : α} : points pointer target = 1 ↔ pointer = some target := by
  unfold points
  split <;> simp_all

/-- How many of the first `n` pointers lead to an object. -/
def pointersTo (n : Nat) (pointer : Nat → Option α) (target : α) : Int :=
  ∑ i ∈ Finset.range n, points (pointer i) target

theorem pointersTo_nonneg (n : Nat) (pointer : Nat → Option α) (target : α) : 0 ≤ pointersTo n pointer target :=
  Finset.sum_nonneg fun i _ => points_nonneg (pointer i) target

theorem points_le_pointersTo {n i : Nat} (inside : i < n) (pointer : Nat → Option α) (target : α) :
    points (pointer i) target ≤ pointersTo n pointer target :=
  Finset.single_le_sum (fun j _ => points_nonneg (pointer j) target) (Finset.mem_range.mpr inside)

theorem pointersTo_succ (n : Nat) (pointer : Nat → Option α) (target : α) :
    pointersTo (n + 1) pointer target = pointersTo n pointer target + points (pointer n) target :=
  Finset.sum_range_succ _ n

theorem pointersTo_none (n : Nat) (target : α) : pointersTo n (fun _ => none) target = 0 :=
  Finset.sum_const_zero

/-- Writing one pointer moves one unit of count. -/
theorem pointersTo_update {n i : Nat} (inside : i < n) (pointer : Nat → Option α) (value : Option α) (target : α) :
    pointersTo n (Function.update pointer i value) target =
      pointersTo n pointer target - points (pointer i) target + points value target :=
  sum_range_update (fun p => points p target) pointer inside value

/-- A new place with a pointer of its own. -/
theorem pointersTo_grow (n : Nat) (pointer : Nat → Option α) (value : Option α) (target : α) :
    pointersTo (n + 1) (Function.update pointer n value) target = pointersTo n pointer target + points value target := by
  have same : pointersTo n (Function.update pointer n value) target = pointersTo n pointer target :=
    sum_range_update_of_le (fun p => points p target) pointer le_rfl value
  rw [pointersTo_succ, same, Function.update_self]

end Counting

/-- `next` and `prev` lead through the objects in order, between what stands
before them and what stands after. -/
def Chained (next prev : α → Option α) : Option α → List α → Option α → Prop
  | _, [], _ => True
  | before, a :: rest, after =>
    prev a = before ∧ next a = rest.head?.or after ∧ Chained next prev (some a) rest after

variable {next prev : α → Option α} {before after : Option α}

theorem chained_congr {next' prev' : α → Option α} {chain : List α}
    (linked : Chained next prev before chain after) (sameNext : ∀ a ∈ chain, next' a = next a)
    (samePrev : ∀ a ∈ chain, prev' a = prev a) : Chained next' prev' before chain after := by
  induction chain generalizing before with
  | nil => exact trivial
  | cons a rest ih =>
    obtain ⟨back, forth, tail⟩ := linked
    refine ⟨(samePrev a List.mem_cons_self).trans back, (sameNext a List.mem_cons_self).trans forth, ?_⟩
    exact ih tail (fun b member => sameNext b (List.mem_cons_of_mem a member))
      (fun b member => samePrev b (List.mem_cons_of_mem a member))

theorem chained_append {front back : List α} :
    Chained next prev before (front ++ back) after ↔
      Chained next prev before front (back.head?.or after) ∧
        Chained next prev (front.getLast?.or before) back after := by
  induction front generalizing before with
  | nil => simp [Chained]
  | cons a rest ih =>
    cases rest with
    | nil => simp [Chained, and_assoc]
    | cons b tail =>
      have last : (a :: b :: tail).getLast?.or before = (b :: tail).getLast?.or (some a) := by
        simp [List.getLast?_cons]
      rw [List.cons_append, Chained, ih, last]
      exact ⟨fun ⟨back, forth, body, rest⟩ => ⟨⟨back, forth, body⟩, rest⟩,
        fun ⟨⟨back, forth, body⟩, rest⟩ => ⟨back, forth, body, rest⟩⟩

/-- Only the first object's `prev` depends on what stands before. -/
theorem chained_redirect_prev [DecidableEq α] {a : α} {rest : List α} (fresh : a ∉ rest)
    (linked : Chained next prev before (a :: rest) after) (pointer : Option α) :
    Chained next (Function.update prev a pointer) pointer (a :: rest) after := by
  obtain ⟨_, forth, tail⟩ := linked
  refine ⟨Function.update_self a pointer prev, forth, chained_congr tail (fun _ _ => rfl) fun b member => ?_⟩
  exact Function.update_of_ne (ne_of_mem_of_not_mem member fresh) pointer prev

/-- Only the last object's `next` depends on what stands after. -/
theorem chained_redirect_next [DecidableEq α] {a : α} {front : List α} (fresh : a ∉ front)
    (linked : Chained next prev before (front ++ [a]) after) (pointer : Option α) :
    Chained (Function.update next a pointer) prev before (front ++ [a]) pointer := by
  rw [chained_append] at linked ⊢
  obtain ⟨body, back, _, _⟩ := linked
  refine ⟨chained_congr body (fun b member => ?_) (fun _ _ => rfl), back, Function.update_self a pointer next, trivial⟩
  exact Function.update_of_ne (ne_of_mem_of_not_mem member fresh) pointer next

/-- What an object outside the chain points to does not matter. -/
theorem chained_outside [DecidableEq α] {a : α} {chain : List α} (outside : a ∉ chain)
    (linked : Chained next prev before chain after) (forth back : Option α) :
    Chained (Function.update next a forth) (Function.update prev a back) before chain after :=
  chained_congr linked (fun _ member => Function.update_of_ne (ne_of_mem_of_not_mem member outside) forth next)
    fun _ member => Function.update_of_ne (ne_of_mem_of_not_mem member outside) back prev

/-- A new object behind the last one. -/
theorem chained_snoc [DecidableEq α] {new last : α} {front : List α} (fresh : new ∉ front ++ [last])
    (unique : last ∉ front) (linked : Chained next prev before (front ++ [last]) after) :
    Chained (Function.update (Function.update next new after) last (some new)) (Function.update prev new (some last))
      before (front ++ [last] ++ [new]) after := by
  have apart : new ≠ last := fun same => fresh (by simp [same])
  rw [chained_append]
  refine ⟨chained_redirect_next unique (chained_outside fresh linked after (some last)) (some new), ?_, ?_, trivial⟩
  · rw [Function.update_self]
    simp
  · rw [Function.update_of_ne apart, Function.update_self]
    simp

/-- A new object between two neighbours. -/
theorem chained_insert [DecidableEq α] {front rest : List α} {m new p : α} (fresh : new ∉ front ++ m :: p :: rest)
    (unique : (front ++ m :: p :: rest).Nodup) (linked : Chained next prev before (front ++ m :: p :: rest) after) :
    Chained (Function.update (Function.update next new (some p)) m (some new))
      (Function.update (Function.update prev new (some m)) p (some new)) before (front ++ m :: new :: p :: rest) after := by
  have split : front ++ m :: p :: rest = (front ++ [m]) ++ p :: rest := by simp
  have joined : front ++ m :: new :: p :: rest = (front ++ [m]) ++ new :: p :: rest := by simp
  obtain ⟨early, late, disjoint⟩ := List.nodup_append'.mp (split ▸ unique)
  have mFresh : m ∉ front := fun member => (List.nodup_append'.mp early).2.2 member (by simp)
  have pFresh : p ∉ rest := (List.nodup_cons.mp late).1
  have newEarly : new ∉ front ++ [m] := fun member => fresh (split ▸ List.mem_append_left _ member)
  have newLate : new ∉ p :: rest := fun member => fresh (split ▸ List.mem_append_right _ member)
  have pOutside : p ∉ front ++ [m] := fun member => disjoint member List.mem_cons_self
  have mOutside : m ∉ p :: rest := fun member => disjoint (by simp) member
  have mApart : new ≠ m := fun same => newEarly (by simp [same])
  have pApart : new ≠ p := fun same => newLate (by simp [same])
  rw [split, chained_append] at linked
  rw [joined, chained_append]
  obtain ⟨body, tail⟩ := linked
  refine ⟨?_, ?_, ?_, ?_⟩
  · refine chained_congr (chained_redirect_next mFresh (chained_outside newEarly body (some p) (some m)) (some new))
      (fun _ _ => rfl) fun a member => ?_
    exact Function.update_of_ne (ne_of_mem_of_not_mem member pOutside) _ _
  · rw [Function.update_of_ne pApart, Function.update_self]
    simp
  · rw [Function.update_of_ne mApart, Function.update_self]
    rfl
  · refine chained_congr (chained_redirect_prev pFresh (chained_outside newLate tail (some p) (some m)) (some new))
      (fun a member => ?_) fun _ _ => rfl
    exact Function.update_of_ne (ne_of_mem_of_not_mem member mOutside) _ _

/-- The last object leaves. -/
theorem chained_dropLast [DecidableEq α] {front : List α} {m p : α} (unique : m ∉ front)
    (linked : Chained next prev before (front ++ [m, p]) after) (pointer : Option α) :
    Chained (Function.update next m pointer) prev before (front ++ [m]) pointer := by
  have split : front ++ [m, p] = (front ++ [m]) ++ [p] := by simp
  rw [split, chained_append] at linked
  exact chained_redirect_next unique linked.1 pointer

/-- A new object in front of the first one. -/
theorem chained_push [DecidableEq α] {new first : α} {rest : List α} (fresh : new ∉ first :: rest)
    (unique : first ∉ rest) (linked : Chained next prev before (first :: rest) after) :
    Chained (Function.update next new (some first)) (Function.update (Function.update prev new none) first (some new))
      none (new :: first :: rest) after := by
  have apart : new ≠ first := fun same => fresh (same ▸ List.mem_cons_self)
  refine ⟨?_, Function.update_self new _ next, ?_⟩
  · rw [Function.update_of_ne apart, Function.update_self]
  · refine chained_congr (chained_redirect_prev unique linked (some new)) (fun a member => ?_) fun a member => ?_
    · exact Function.update_of_ne (ne_of_mem_of_not_mem member fresh) _ next
    · by_cases same : a = first
      · rw [same, Function.update_self, Function.update_self]
      · rw [Function.update_of_ne same, Function.update_of_ne same,
          Function.update_of_ne (ne_of_mem_of_not_mem member fresh)]

/-- Closing the gap that an inner object leaves. -/
theorem chained_unlink [DecidableEq α] {front rest : List α} {m p n : α} (unique : (front ++ m :: p :: n :: rest).Nodup)
    (linked : Chained next prev before (front ++ m :: p :: n :: rest) after) :
    Chained (Function.update next m (some n)) (Function.update prev n (some m)) before (front ++ m :: n :: rest)
      after := by
  have split : front ++ m :: p :: n :: rest = (front ++ [m]) ++ p :: n :: rest := by simp
  have joined : front ++ m :: n :: rest = (front ++ [m]) ++ n :: rest := by simp
  obtain ⟨early, late, disjoint⟩ := List.nodup_append'.mp (split ▸ unique)
  obtain ⟨_, _, notEarly⟩ := List.nodup_append'.mp early
  have lastIn : m ∈ front ++ [m] := by simp
  have nextOutside : n ∉ front ++ [m] := fun member => disjoint member (by simp)
  have mFresh : m ∉ front := fun member => notEarly member (by simp)
  have nFresh : n ∉ rest := (List.nodup_cons.mp (List.nodup_cons.mp late).2).1
  rw [split, chained_append] at linked
  rw [joined, chained_append]
  obtain ⟨body, _, _, tail⟩ := linked
  constructor
  · refine chained_congr (chained_redirect_next mFresh body (some n)) (fun _ _ => rfl) fun a member => ?_
    exact Function.update_of_ne (ne_of_mem_of_not_mem member nextOutside) _ prev
  · have before_eq : (front ++ [m]).getLast?.or before = some m := by simp
    rw [before_eq]
    refine chained_congr (chained_redirect_prev nFresh tail (some m)) (fun a member => ?_) fun _ _ => rfl
    refine Function.update_of_ne (fun same => disjoint lastIn ?_) _ next
    exact List.mem_cons_of_mem p (same ▸ member)

theorem next_of_falling [LinearOrder α] {chain : List α} {p q : α} (linked : Chained next prev before chain none)
    (falling : chain.Pairwise (· > ·)) (here : p ∈ chain) (link : next p = some q) : q ∈ chain ∧ q < p := by
  induction chain generalizing before with
  | nil => exact absurd here List.not_mem_nil
  | cons a rest ih =>
    obtain ⟨_, forth, tail⟩ := linked
    obtain ⟨above, below⟩ := List.pairwise_cons.mp falling
    rcases List.mem_cons.mp here with rfl | deeper
    · cases rest with
      | nil => cases forth.symm.trans link
      | cons b tail =>
        have same : b = q := Option.some.inj (forth.symm.trans link)
        rw [← same]
        exact ⟨by simp, above b List.mem_cons_self⟩
    · obtain ⟨member, less⟩ := ih tail below deeper
      exact ⟨List.mem_cons_of_mem a member, less⟩

/-- The first object of a chain in falling order is followed by the greatest
of the rest. -/
theorem le_next_of_falling [LinearOrder α] {chain : List α} {p x : α}
    (linked : Chained next prev before chain none) (falling : chain.Pairwise (· > ·))
    (here : p ∈ chain) (there : x ∈ chain) (older : x < p) : ∃ n, next p = some n ∧ n ∈ chain ∧ x ≤ n := by
  induction chain generalizing before with
  | nil => exact absurd here List.not_mem_nil
  | cons a rest ih =>
    obtain ⟨_, forth, tail⟩ := linked
    obtain ⟨above, below⟩ := List.pairwise_cons.mp falling
    rcases List.mem_cons.mp here with rfl | deeper
    · have inRest : x ∈ rest := (List.mem_cons.mp there).resolve_left older.ne
      cases rest with
      | nil => exact absurd inRest List.not_mem_nil
      | cons b tail =>
        refine ⟨b, forth, by simp, ?_⟩
        rcases List.mem_cons.mp inRest with same | further
        · exact same.le
        · exact ((List.pairwise_cons.mp below).1 x further).le
    · have inRest : x ∈ rest := by
        refine (List.mem_cons.mp there).resolve_left fun same => ?_
        exact absurd (same ▸ older) (above p deeper).not_gt
      obtain ⟨n, found, member, least⟩ := ih tail below deeper inRest
      exact ⟨n, found, List.mem_cons_of_mem a member, least⟩

end FluxOS.LinkedPointers
