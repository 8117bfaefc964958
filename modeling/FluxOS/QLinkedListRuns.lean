import FluxOS.QLinkedListSequence

/-! Any run of calls on a `QLinkedList`: its nodes hold the sequence that the calls make, in
both directions, and no call follows a pointer to a node that has been freed. -/
namespace FluxOS.QLinkedList
open LinkedPointers

variable {A T : Type}

section Traversal

variable {heap : NodeHeap A T} {before after : Option A}

/-- The first of the bodies belongs to the first node. -/
theorem bodies_cons {a : A} {rest : List A} {sequence : List T} (bodies : (a :: rest).map (bodyOf heap) = sequence.map some) :
    ∃ here values, sequence = here.body :: values ∧ heap a = some here ∧ nextOf heap a = here.next ∧
      prevOf heap a = here.prev ∧ rest.map (bodyOf heap) = values.map some := by
  cases sequence with
  | nil => cases bodies
  | cons value values =>
    rw [List.map_cons, List.map_cons, List.cons.injEq] at bodies
    obtain ⟨here, live, next, prev, same⟩ := live_of_body bodies.1
    exact ⟨here, values, by rw [same], live, next, prev, bodies.2⟩

theorem forward_eq (chain : List A) {sequence : List T} (bodies : chain.map (bodyOf heap) = sequence.map some)
    (linked : Chained (nextOf heap) (prevOf heap) before chain none) :
    forward heap sequence.length chain.head? = some sequence := by
  induction chain generalizing before sequence with
  | nil =>
    have none : sequence = [] := by simpa using bodies.symm
    rw [none]
    rfl
  | cons a rest ih =>
    obtain ⟨here, values, rfl, live, next, -, more⟩ := bodies_cons bodies
    obtain ⟨-, forth, tail⟩ := linked
    have follow : here.next = rest.head? := by rw [← next, forth, Option.or_none]
    simp [forward, live, follow, ih more tail]

theorem backward_eq (chain : List A) {sequence : List T} (bodies : chain.map (bodyOf heap) = sequence.map some)
    (linked : Chained (nextOf heap) (prevOf heap) before chain after) (nonempty : chain ≠ []) :
    backward heap (sequence.length - 1) chain.getLast? = some sequence.reverse := by
  induction chain using List.reverseRecOn generalizing after sequence with
  | nil => exact absurd rfl nonempty
  | append_singleton front p ih =>
    obtain rfl | ⟨values, value, rfl⟩ := sequence.eq_nil_or_concat'
    · simp at bodies
    · rw [List.map_append, List.map_append] at bodies
      obtain ⟨frontBodies, lastBody⟩ := List.append_inj' bodies rfl
      obtain ⟨here, live, -, prev, same⟩ := live_of_body (List.cons.inj lastBody).1
      obtain ⟨body, last⟩ := chained_append.mp linked
      have follow : here.prev = front.getLast?.or before := by
        rw [← prev]
        exact last.1
      have length : front.length = values.length := by simpa using congrArg List.length frontBodies
      cases values with
      | nil => simp [backward, deref, live, same]
      | cons first more =>
        have some : front ≠ [] := List.ne_nil_of_length_pos (by rw [length]; exact Nat.succ_pos _)
        have inner := ih frontBodies body some
        have prevSome : here.prev = front.getLast? := by
          rw [follow, List.getLast?_eq_some_getLast some]
          rfl
        have count : (first :: more ++ [value]).length - 1 = ((first :: more).length - 1) + 1 := by simp
        rw [count, List.getLast?_concat, backward]
        simp only [deref, Option.bind_some, live, prevSome, inner, Option.bind_eq_bind, same]
        rw [List.reverse_append]
        rfl

variable [DecidableEq A]

/-- `removeAllNodes` frees each node once. -/
theorem removeAllNodes_eq (chain : List A) {sequence : List T} (bodies : chain.map (bodyOf heap) = sequence.map some)
    (linked : Chained (nextOf heap) (prevOf heap) before chain none) (unique : chain.Nodup) :
    ∃ heap', removeAllNodes sequence.length heap chain.head? = some heap' := by
  induction chain generalizing before sequence heap with
  | nil =>
    have none : sequence = [] := by simpa using bodies.symm
    exact ⟨heap, by rw [none]; rfl⟩
  | cons a rest ih =>
    obtain ⟨here, values, rfl, live, next, -, more⟩ := bodies_cons bodies
    obtain ⟨-, forth, tail⟩ := linked
    obtain ⟨outside, uniqueRest⟩ := List.nodup_cons.mp unique
    have follow : here.next = rest.head? := by rw [← next, forth, Option.or_none]
    obtain ⟨heap₁, deleted, next₁, prev₁, body₁⟩ := delete_spec live
    have restBodies : rest.map (bodyOf heap₁) = values.map some := by rw [body₁, map_update_outside outside, more]
    have restLinked : Chained (nextOf heap₁) (prevOf heap₁) (some a) rest none := by
      rw [next₁, prev₁]
      exact chained_outside outside tail none none
    obtain ⟨heap', all⟩ := ih restBodies restLinked uniqueRest
    exact ⟨heap', by simp [removeAllNodes, live, deleted, follow, all]⟩

end Traversal

section Runs

/-- A list that holds a sequence, whatever nodes it is made of. -/
def Holds (l : QLinkedList A T) (sequence : List T) : Prop := ∃ chain before, Linked l chain sequence before

/-- The calls that make a node. -/
def Call.Allocates : Call T → Prop
  | .append _ | .prepend _ | .insert _ _ => True
  | .remove _ | .takeFirst | .takeLast | .clear => False

theorem holds_empty (heap : NodeHeap A T) : Holds (empty heap) [] :=
  ⟨[], none, List.nodup_nil, rfl, trivial, rfl, fun some => absurd rfl some, rfl⟩

/-- The first element is in the node that `mHead` leads to. -/
theorem Linked.firstNode {l : QLinkedList A T} {chain : List A} {sequence : List T} {before : Option A}
    (linked : Linked l chain sequence before) (nonempty : sequence ≠ []) :
    ∃ a here, l.mHead = some a ∧ l.heap a = some here ∧ sequence.head? = some here.body := by
  have bodies := linked.bodies
  have head := linked.head
  cases chain with
  | nil => exact absurd (List.map_eq_nil_iff.mp bodies.symm) nonempty
  | cons a rest =>
    obtain ⟨here, values, rfl, live, -⟩ := bodies_cons bodies
    exact ⟨a, here, head, live, rfl⟩

/-- The last element is in the node that `mTail` leads to. -/
theorem Linked.lastNode {l : QLinkedList A T} {chain : List A} {sequence : List T} {before : Option A}
    (linked : Linked l chain sequence before) (nonempty : sequence ≠ []) :
    ∃ a here, l.mTail = some a ∧ l.heap a = some here ∧ sequence.getLast? = some here.body := by
  obtain ⟨values, value, rfl⟩ := sequence.eq_nil_or_concat'.resolve_left nonempty
  have bodies := linked.bodies
  have tail := linked.tail
  obtain rfl | ⟨front, a, rfl⟩ := chain.eq_nil_or_concat'
  · simp at bodies
  · rw [List.map_append, List.map_append] at bodies
    obtain ⟨-, lastBody⟩ := List.append_inj' bodies rfl
    obtain ⟨here, live, -, -, same⟩ := live_of_body (List.cons.inj lastBody).1
    exact ⟨a, here, by simpa using tail (by simp), live, by simp [same]⟩

variable [DecidableEq A]

/-- Every call that may be made has its result, and does to the list what it should do to the sequence. -/
theorem Holds.perform {l : QLinkedList A T} {sequence : List T} (holds : Holds l sequence) (call : Call T)
    (allowed : Allowed sequence call) {a : A} (free : call.Allocates → l.heap a = none) :
    ∃ l', perform l a call = some ((apply sequence call).1, l') ∧ Holds l' (apply sequence call).2 := by
  obtain ⟨chain, before, linked⟩ := holds
  cases call with
  | append value =>
    obtain ⟨l', before', result, after⟩ := linked.append (free trivial) value
    exact ⟨l', by simp [QLinkedList.perform, result, apply], _, before', after⟩
  | prepend value =>
    obtain ⟨l', before', result, after⟩ := linked.prepend (free trivial) value
    exact ⟨l', by simp [QLinkedList.perform, result, apply], _, before', after⟩
  | insert i value =>
    obtain ⟨chain', l', before', result, after⟩ := linked.insert (free trivial) value allowed.1 allowed.2
    exact ⟨l', by simp [QLinkedList.perform, result, apply], chain', before', after⟩
  | remove i =>
    obtain ⟨chain', l', before', result, after⟩ := linked.remove allowed.1 allowed.2
    exact ⟨l', by simp [QLinkedList.perform, result, apply], chain', before', after⟩
  | takeFirst =>
    obtain ⟨head, here, first, live, value⟩ := linked.firstNode allowed
    obtain ⟨chain', l', before', result, after⟩ := linked.removeFirst allowed
    refine ⟨l', ?_, chain', before', by simpa [apply] using after⟩
    simp [QLinkedList.perform, takeFirst, deref, first, live, result, apply, value]
  | takeLast =>
    have nonempty : 0 < sequence.length := List.length_pos_iff.mpr allowed
    obtain ⟨tail, here, last, live, value⟩ := linked.lastNode allowed
    obtain ⟨chain', l', before', result, after⟩ := linked.remove (i := sequence.length - 1) (by omega) (by omega)
    have size : l.mSize = sequence.length := by rw [linked.size, linked.length_eq]
    have index : ((sequence.length : Int) - 1).toNat = sequence.length - 1 := by omega
    rw [index, List.eraseIdx_length_sub_one] at after
    refine ⟨l', ?_, chain', before', after⟩
    simp [QLinkedList.perform, takeLast, deref, last, live, size, result, apply, value]
  | clear =>
    obtain ⟨heap', all⟩ := removeAllNodes_eq chain linked.bodies linked.linked linked.unique
    have rounds : l.mSize.toNat = sequence.length := by
      rw [linked.size, linked.length_eq]
      rfl
    refine ⟨empty heap', ?_, holds_empty heap'⟩
    simp [QLinkedList.perform, clear, rounds, linked.head, all, apply, empty]

/-- The lists that calls make from an empty list, with the sequences they should be. A new
node may be put where another one has been freed. -/
inductive Run : QLinkedList A T → List T → Prop
  | empty (heap : NodeHeap A T) : Run (empty heap) []
  | call {l l' : QLinkedList A T} {sequence : List T} {returned : Option T} (run : Run l sequence) (call : Call T) (a : A)
      (allowed : Allowed sequence call) (free : call.Allocates → l.heap a = none)
      (performed : perform l a call = some (returned, l')) : Run l' (apply sequence call).2

theorem Run.holds {l : QLinkedList A T} {sequence : List T} (run : Run l sequence) : Holds l sequence := by
  induction run with
  | empty heap => exact holds_empty heap
  | call _ call a allowed free performed ih =>
    obtain ⟨l', result, holds⟩ := ih.perform call allowed free
    cases performed.symm.trans result
    exact holds

/-- After every run of calls, the nodes from the head on hold the sequence, the nodes from the
tail back hold its reverse, and the size is its length; and each further call has a result,
the one it has on the sequence, so that it follows no pointer to a node that is not there. -/
theorem refines_sequence {l : QLinkedList A T} {sequence : List T} (run : Run l sequence) :
    forward l.heap sequence.length l.mHead = some sequence ∧ l.mSize = sequence.length ∧
    (sequence ≠ [] → backward l.heap (sequence.length - 1) l.mTail = some sequence.reverse) ∧
    ∀ (call : Call T) (a : A), Allowed sequence call → (call.Allocates → l.heap a = none) →
      ∃ l', perform l a call = some ((apply sequence call).1, l') := by
  obtain ⟨chain, before, linked⟩ := run.holds
  refine ⟨?_, ?_, fun nonempty => ?_, fun call a allowed free => ?_⟩
  · rw [linked.head]
    exact forward_eq chain linked.bodies linked.linked
  · rw [linked.size, linked.length_eq]
  · have some : chain ≠ [] := by
      intro none
      have length := linked.length_eq
      rw [none] at length
      exact nonempty (List.eq_nil_of_length_eq_zero length.symm)
    rw [linked.tail some]
    exact backward_eq chain linked.bodies linked.linked some
  · obtain ⟨l', result, -⟩ := Holds.perform ⟨chain, before, linked⟩ call allowed free
    exact ⟨l', result⟩

end Runs

/-- One node, freed, and its address used again while `mTail` still leads there. -/
def reused : QLinkedList Nat Nat :=
  ⟨Function.update (Function.update (Function.update (fun _ => none) 0 (some ⟨none, none, 5⟩)) 0 none) 0
    (some ⟨none, some 0, 6⟩), some 0, some 0, 1⟩

theorem run_reused : Run reused [6] := by
  have first := Run.call (Run.empty (A := Nat) (T := Nat) fun _ => none) (.append 5) 0 trivial (fun _ => rfl) rfl
  have second := Run.call first (.remove 0) 0 ⟨by decide, by decide⟩ False.elim rfl
  exact Run.call second (.append 6) 0 trivial (fun _ => rfl) rfl

theorem reused_is_one_element : forward reused.heap 1 reused.mHead = some [6] ∧ reused.mSize = 1 :=
  have right := refines_sequence run_reused
  ⟨right.1, right.2.1⟩

end FluxOS.QLinkedList
