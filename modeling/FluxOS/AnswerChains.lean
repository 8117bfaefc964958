import Mathlib.Algebra.BigOperators.Group.Multiset.Basic
import Mathlib.Data.Multiset.AddSub

/-! Messages that are delivered in any order, none of them lost, where a message that is delivered
may be answered by one more: when a run must come to an end. -/
namespace FluxOS.AnswerChains

variable {α : Type*}

/-- The answers sent so far, and the messages that are on their way. -/
inductive Run (answer : α → Option α) (injected : Multiset α) : List α → Multiset α → Prop where
  | start : Run answer injected [] injected
  | deliver {sent : List α} {message : α} {others : Multiset α} (run : Run answer injected sent (message ::ₘ others)) :
      Run answer injected ((answer message).toList ++ sent) ((answer message).toList + others)

/-- There are only so many answers, however the messages are delivered. -/
def Bounded (answer : α → Option α) (injected : Multiset α) : Prop :=
  ∃ bound, ∀ sent onTheWay, Run answer injected sent onTheWay → sent.length ≤ bound

variable {answer : α → Option α} {injected : Multiset α}

theorem Run.deliver_mem {sent : List α} {onTheWay : Multiset α} (run : Run answer injected sent onTheWay) {message : α}
    (mem : message ∈ onTheWay) :
    ∃ others, Run answer injected ((answer message).toList ++ sent) ((answer message).toList + others) := by
  obtain ⟨others, rfl⟩ := Multiset.exists_cons_of_mem mem
  exact ⟨others, run.deliver⟩

/-- What all injected messages have and all answers inherit, all messages have. -/
theorem Run.forall_mem {good : α → Prop} (first : ∀ message ∈ injected, good message)
    (next : ∀ message reply, good message → answer message = some reply → good reply) {sent : List α}
    {onTheWay : Multiset α} (run : Run answer injected sent onTheWay) : ∀ message ∈ onTheWay, good message := by
  induction run with
  | start => exact first
  | @deliver sent message others run ih =>
    intro reply mem
    obtain answered | waiting := Multiset.mem_add.mp mem
    · have same := Option.mem_toList.mp (Multiset.mem_coe.mp answered)
      exact next message reply (ih message (Multiset.mem_cons_self _ _)) same
    · exact ih reply (Multiset.mem_cons_of_mem waiting)

/-- Every answer has a smaller rank than the message it answers. -/
theorem bounded_of_rank (good : α → Prop) (rank : α → Nat) (first : ∀ message ∈ injected, good message)
    (next : ∀ message reply, good message → answer message = some reply → good reply ∧ rank reply < rank message) :
    Bounded answer injected := by
  refine ⟨(injected.map rank).sum, fun sent onTheWay run => ?_⟩
  suffices left : sent.length + (onTheWay.map rank).sum ≤ (injected.map rank).sum by omega
  induction run with
  | start => simp
  | @deliver sent message others run ih =>
    have known := run.forall_mem first (fun message reply holds same => (next message reply holds same).1)
    rw [Multiset.map_cons, Multiset.sum_cons] at ih
    cases same : answer message with
    | none =>
      simp only [Option.toList_none, List.nil_append, Multiset.coe_nil, zero_add]
      omega
    | some reply =>
      have smaller := (next message reply (known message (Multiset.mem_cons_self _ _)) same).2
      simp only [Option.toList_some, List.cons_append, List.nil_append, List.length_cons, Multiset.coe_singleton,
        Multiset.singleton_add, Multiset.map_cons, Multiset.sum_cons]
      omega

/-- A message whose answers are all answered in turn is answered for ever. -/
theorem not_bounded_of_closed (endless : α → Prop)
    (next : ∀ message, endless message → ∃ reply, answer message = some reply ∧ endless reply) {message : α}
    (mem : message ∈ injected) (first : endless message) : ¬Bounded answer injected := by
  have longer : ∀ n, ∃ sent onTheWay, Run answer injected sent onTheWay ∧ sent.length = n ∧
      ∃ message ∈ onTheWay, endless message := by
    intro n
    induction n with
    | zero => exact ⟨[], injected, .start, rfl, message, mem, first⟩
    | succ n ih =>
      obtain ⟨sent, onTheWay, run, length, message, mem, holds⟩ := ih
      obtain ⟨reply, same, inherits⟩ := next message holds
      obtain ⟨others, later⟩ := run.deliver_mem mem
      rw [same] at later
      exact ⟨_, _, later, congrArg (· + 1) length, reply, Multiset.mem_add.mpr (.inl (by simp)), inherits⟩
  rintro ⟨bound, limit⟩
  obtain ⟨sent, onTheWay, run, length, -⟩ := longer (bound + 1)
  have above := limit sent onTheWay run
  omega

end FluxOS.AnswerChains
