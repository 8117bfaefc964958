import FluxOS.QLinkedList

/-! What a `QLinkedList` is for: a finite sequence, kept as a chain of nodes. The `prev` of
the first node may lead anywhere; no call follows it. -/
namespace FluxOS.QLinkedList
open LinkedPointers

variable {A T : Type}

section Views

/-- The links and bodies of the nodes, one function each. -/
def nextOf (heap : NodeHeap A T) (a : A) : Option A := (heap a).bind LinkedNode.next
def prevOf (heap : NodeHeap A T) (a : A) : Option A := (heap a).bind LinkedNode.prev
def bodyOf (heap : NodeHeap A T) (a : A) : Option T := (heap a).map LinkedNode.body

variable [DecidableEq A] (heap : NodeHeap A T) (a : A)

theorem nextOf_update (node : Option (LinkedNode A T)) :
    nextOf (Function.update heap a node) = Function.update (nextOf heap) a (node.bind LinkedNode.next) := by
  funext b
  by_cases same : b = a
  · subst same
    simp [nextOf]
  · simp [nextOf, same]

theorem prevOf_update (node : Option (LinkedNode A T)) :
    prevOf (Function.update heap a node) = Function.update (prevOf heap) a (node.bind LinkedNode.prev) := by
  funext b
  by_cases same : b = a
  · subst same
    simp [prevOf]
  · simp [prevOf, same]

theorem bodyOf_update (node : Option (LinkedNode A T)) :
    bodyOf (Function.update heap a node) = Function.update (bodyOf heap) a (node.map LinkedNode.body) := by
  funext b
  by_cases same : b = a
  · subst same
    simp [bodyOf]
  · simp [bodyOf, same]

variable {heap a}

/-- Writing one link of a node leaves its other link and its body. -/
theorem setNext_spec {here : LinkedNode A T} (live : heap a = some here) (value : Option A) :
    ∃ heap', setNext heap (some a) value = some heap' ∧ nextOf heap' = Function.update (nextOf heap) a value ∧
      prevOf heap' = prevOf heap ∧ bodyOf heap' = bodyOf heap := by
  refine ⟨_, by rw [setNext, Option.bind_eq_bind, Option.bind_some, live]; rfl, nextOf_update heap a _, ?_, ?_⟩
  · rw [prevOf_update]
    apply Function.update_eq_self_iff.mpr
    simp [prevOf, live]
  · rw [bodyOf_update]
    apply Function.update_eq_self_iff.mpr
    simp [bodyOf, live]

theorem setPrev_spec {here : LinkedNode A T} (live : heap a = some here) (value : Option A) :
    ∃ heap', setPrev heap (some a) value = some heap' ∧ nextOf heap' = nextOf heap ∧
      prevOf heap' = Function.update (prevOf heap) a value ∧ bodyOf heap' = bodyOf heap := by
  refine ⟨_, by rw [setPrev, Option.bind_eq_bind, Option.bind_some, live]; rfl, ?_, prevOf_update heap a _, ?_⟩
  · rw [nextOf_update]
    apply Function.update_eq_self_iff.mpr
    simp [nextOf, live]
  · rw [bodyOf_update]
    apply Function.update_eq_self_iff.mpr
    simp [bodyOf, live]

/-- The two writes that make two nodes neighbours; all nodes but the first are as they were between them. -/
theorem join_spec {m n : A} {hereM hereN : LinkedNode A T} (liveM : heap m = some hereM) (liveN : heap n = some hereN)
    (forth back : Option A) :
    ∃ heap₁ heap₂, setNext heap (some m) forth = some heap₁ ∧ setPrev heap₁ (some n) back = some heap₂ ∧
      (∀ b, b ≠ m → heap₁ b = heap b) ∧ nextOf heap₂ = Function.update (nextOf heap) m forth ∧
      prevOf heap₂ = Function.update (prevOf heap) n back ∧ bodyOf heap₂ = bodyOf heap := by
  obtain ⟨heap₁, written₁, next₁, prev₁, body₁⟩ := setNext_spec liveM forth
  have others : ∀ b, b ≠ m → heap₁ b = heap b := by
    intro b other
    have written : some heap₁ = setNext heap (some m) forth := written₁.symm
    rw [setNext, Option.bind_eq_bind, Option.bind_some, liveM] at written
    cases written
    exact Function.update_of_ne other _ _
  have present : ∃ here, heap₁ n = some here := by
    have same : bodyOf heap₁ n = some hereN.body := by
      rw [body₁, bodyOf, liveN]
      rfl
    obtain ⟨here, found, -⟩ := Option.map_eq_some_iff.mp same
    exact ⟨here, found⟩
  obtain ⟨here, found⟩ := present
  obtain ⟨heap₂, written₂, next₂, prev₂, body₂⟩ := setPrev_spec found back
  exact ⟨heap₁, heap₂, written₁, written₂, others, next₂.trans next₁, prev₂.trans (by rw [prev₁]), body₂.trans body₁⟩

theorem delete_spec {here : LinkedNode A T} (live : heap a = some here) :
    ∃ heap', delete heap (some a) = some heap' ∧ nextOf heap' = Function.update (nextOf heap) a none ∧
      prevOf heap' = Function.update (prevOf heap) a none ∧ bodyOf heap' = Function.update (bodyOf heap) a none :=
  ⟨_, by rw [delete, live]; rfl, nextOf_update heap a none, prevOf_update heap a none, bodyOf_update heap a none⟩

end Views

/-- A list whose nodes are those of the chain, in order, with the elements of the sequence in them. -/
structure Linked (l : QLinkedList A T) (chain : List A) (sequence : List T) (before : Option A) : Prop where
  unique : chain.Nodup
  bodies : chain.map (bodyOf l.heap) = sequence.map some
  linked : Chained (nextOf l.heap) (prevOf l.heap) before chain none
  head : l.mHead = chain.head?
  tail : chain ≠ [] → l.mTail = chain.getLast?
  size : l.mSize = chain.length

theorem live_of_body {heap : NodeHeap A T} {a : A} {value : T} (body : bodyOf heap a = some value) :
    ∃ here, heap a = some here ∧ nextOf heap a = here.next ∧ prevOf heap a = here.prev ∧ here.body = value := by
  obtain ⟨here, live, same⟩ := Option.map_eq_some_iff.mp body
  exact ⟨here, live, by simp [nextOf, live], by simp [prevOf, live], same⟩

namespace Linked

variable {l : QLinkedList A T} {chain : List A} {sequence : List T} {before : Option A}

theorem length_eq (linked : Linked l chain sequence before) : chain.length = sequence.length := by
  simpa using congrArg List.length linked.bodies

theorem live (linked : Linked l chain sequence before) {a : A} (member : a ∈ chain) :
    ∃ here, l.heap a = some here ∧ nextOf l.heap a = here.next ∧ prevOf l.heap a = here.prev := by
  have body : bodyOf l.heap a ∈ sequence.map some := linked.bodies ▸ List.mem_map.mpr ⟨a, member, rfl⟩
  obtain ⟨value, -, same⟩ := List.mem_map.mp body
  obtain ⟨here, found, next, prev, -⟩ := live_of_body same.symm
  exact ⟨here, found, next, prev⟩

theorem fresh (linked : Linked l chain sequence before) {a : A} (free : l.heap a = none) : a ∉ chain := by
  intro member
  obtain ⟨here, live, -⟩ := linked.live member
  cases free.symm.trans live

theorem size_eq_zero_iff (linked : Linked l chain sequence before) : l.mSize = 0 ↔ chain = [] := by
  rw [linked.size]
  simp

end Linked

section Ends

variable [DecidableEq A] {l : QLinkedList A T} {chain : List A} {sequence : List T} {before : Option A} {a : A}

/-- A function changed at an object that is not in the chain. -/
theorem map_update_outside {β : Type} {chain : List A} (outside : a ∉ chain) (f : A → β) (value : β) :
    chain.map (Function.update f a value) = chain.map f := by
  apply List.map_congr_left
  intro b member
  exact Function.update_of_ne (ne_of_mem_of_not_mem member outside) value f

/-- The bodies with one more among them. -/
theorem bodies_insert {f : A → Option T} (front : List A) (first : List T) {back : List A} {last : List T} (value : T)
    (frontBodies : front.map f = first.map some) (backBodies : back.map f = last.map some) (fresh : a ∉ front ++ back) :
    (front ++ a :: back).map (Function.update f a (some value)) = (first ++ value :: last).map some := by
  have early : a ∉ front := fun member => fresh (List.mem_append_left _ member)
  have late : a ∉ back := fun member => fresh (List.mem_append_right _ member)
  rw [List.map_append, List.map_cons, map_update_outside early, map_update_outside late, frontBodies, backBodies,
    Function.update_self, List.map_append, List.map_cons]

theorem Linked.append (linked : Linked l chain sequence before) (free : l.heap a = none) (value : T) :
    ∃ l' before', QLinkedList.append l a value = some l' ∧ Linked l' (chain ++ [a]) (sequence ++ [value]) before' := by
  have fresh := linked.fresh free
  obtain rfl | ⟨front, t, rfl⟩ := chain.eq_nil_or_concat'
  · have zero : l.mSize = 0 := linked.size_eq_zero_iff.mpr rfl
    have none : sequence = [] := List.eq_nil_of_length_eq_zero linked.length_eq.symm
    refine ⟨_, l.mTail, by rw [QLinkedList.append, if_neg (by simpa using zero)]; rfl, ?_⟩
    refine ⟨List.nodup_singleton a, ?_, ⟨?_, ?_, trivial⟩, rfl, fun _ => rfl, by simp [zero]⟩
    · simp [none, bodyOf_update]
    · rw [prevOf_update, Function.update_self]
      rfl
    · rw [nextOf_update, Function.update_self]
      rfl
  · have some : l.mSize ≠ 0 := fun zero => List.append_ne_nil_of_right_ne_nil front (List.cons_ne_nil t [])
      (linked.size_eq_zero_iff.mp zero)
    have last : l.mTail = .some t := by simpa using linked.tail (by simp)
    have apart : t ≠ a := fun same => fresh (by simp [same])
    obtain ⟨here, live, -, -⟩ := linked.live (a := t) (by simp)
    have liveThen : Function.update l.heap a (.some ⟨.none, l.mTail, value⟩) t = .some here := by
      rw [Function.update_of_ne apart]
      exact live
    obtain ⟨heap, written, next, prev, body⟩ := setNext_spec liveThen (.some a)
    rw [nextOf_update] at next
    rw [prevOf_update] at prev
    rw [bodyOf_update] at body
    rw [← last] at written
    refine ⟨⟨heap, l.mHead, .some a, l.mSize + 1⟩, before, ?_, ?_⟩
    · rw [QLinkedList.append, if_pos some, Option.bind_eq_bind, written]
      rfl
    · refine ⟨?_, ?_, ?_, ?_, fun _ => by simp, ?_⟩
      · exact List.nodup_append'.mpr ⟨linked.unique, List.nodup_singleton a, by simpa using fresh⟩
      · rw [body]
        exact bodies_insert _ _ value linked.bodies rfl (by simpa using fresh)
      · have unique : t ∉ front := fun member => (List.nodup_append'.mp linked.unique).2.2 member (by simp)
        have chained := chained_snoc fresh unique linked.linked
        rw [next, prev]
        rwa [← last] at chained
      · rw [linked.head]
        simp
      · simp [linked.size]
        omega

theorem Linked.prepend (linked : Linked l chain sequence before) (free : l.heap a = none) (value : T) :
    ∃ l' before', QLinkedList.prepend l a value = some l' ∧ Linked l' (a :: chain) (value :: sequence) before' := by
  have fresh := linked.fresh free
  cases chain with
  | nil =>
    have zero : l.mSize = 0 := linked.size_eq_zero_iff.mpr rfl
    have none : sequence = [] := List.eq_nil_of_length_eq_zero linked.length_eq.symm
    refine ⟨_, .none, by rw [QLinkedList.prepend, if_neg (by simpa using zero)]; rfl, ?_⟩
    refine ⟨List.nodup_singleton a, ?_, ⟨?_, ?_, trivial⟩, rfl, fun _ => rfl, by simp [zero]⟩
    · simp [none, bodyOf_update]
    · rw [prevOf_update, Function.update_self]
      rfl
    · rw [nextOf_update, Function.update_self, linked.head]
      rfl
  | cons h rest =>
    have some : l.mSize ≠ 0 := fun zero => List.cons_ne_nil h rest (linked.size_eq_zero_iff.mp zero)
    have first : l.mHead = .some h := linked.head
    have apart : h ≠ a := fun same => fresh (same ▸ List.mem_cons_self)
    obtain ⟨here, live, -, -⟩ := linked.live (a := h) List.mem_cons_self
    have liveThen : Function.update l.heap a (.some ⟨l.mHead, .none, value⟩) h = .some here := by
      rw [Function.update_of_ne apart]
      exact live
    obtain ⟨heap, written, next, prev, body⟩ := setPrev_spec liveThen (.some a)
    rw [nextOf_update] at next
    rw [prevOf_update] at prev
    rw [bodyOf_update] at body
    rw [← first] at written
    refine ⟨⟨heap, .some a, l.mTail, l.mSize + 1⟩, .none, ?_, ?_⟩
    · rw [QLinkedList.prepend, if_pos some, Option.bind_eq_bind, written]
      rfl
    · refine ⟨List.nodup_cons.mpr ⟨fresh, linked.unique⟩, ?_, ?_, rfl, fun _ => ?_, by rw [linked.size]; rfl⟩
      · rw [body]
        exact bodies_insert [] [] value rfl linked.bodies fresh
      · have chained := chained_push fresh (List.nodup_cons.mp linked.unique).1 linked.linked
        rw [next, prev]
        rwa [← first] at chained
      · rw [linked.tail (List.cons_ne_nil h rest)]
        rfl

end Ends

section Middle

variable {heap : NodeHeap A T} {chain : List A} {before : Option A}

/-- The loop of `node` stops at the node with that index. -/
theorem walk_eq (live : ∀ a ∈ chain, ∃ here, heap a = some here ∧ nextOf heap a = here.next) {prev : A → Option A}
    (linked : Chained (nextOf heap) prev before chain none) {i : Nat} {a : A} (at_index : chain[i]? = some a) :
    node heap i chain.head? = some (some a) := by
  induction i generalizing chain before with
  | zero =>
    cases chain with
    | nil => cases at_index
    | cons first rest =>
      cases at_index
      rfl
  | succ i ih =>
    cases chain with
    | nil => cases at_index
    | cons first rest =>
      obtain ⟨here, found, next⟩ := live first List.mem_cons_self
      obtain ⟨-, forth, tail⟩ := linked
      have follow : here.next = rest.head? := by
        rw [← next, forth, Option.or_none]
      have later := ih (fun b member => live b (List.mem_cons_of_mem _ member)) tail
        (show rest[i]? = some a by simpa using at_index)
      simp [node, deref, found, follow, later]

/-- The node with an index, and the nodes on both sides of it. -/
theorem exists_split {β : Type} {chain : List β} {i : Nat} (inside : i < chain.length) :
    ∃ front p rest, chain = front ++ p :: rest ∧ front.length = i ∧ chain[i]? = some p := by
  refine ⟨chain.take i, chain[i], chain.drop (i + 1), ?_, List.length_take_of_le inside.le, List.getElem?_eq_getElem inside⟩
  rw [List.getElem_cons_drop, List.take_append_drop]

variable {l : QLinkedList A T} {sequence : List T}

theorem Linked.node_eq (linked : Linked l chain sequence before) {i : Nat} {a : A} (at_index : chain[i]? = some a) :
    node l.heap i l.mHead = some (some a) := by
  rw [linked.head]
  refine walk_eq (fun b member => ?_) linked.linked at_index
  obtain ⟨here, live, next, -⟩ := linked.live member
  exact ⟨here, live, next⟩

/-- The node with an index, and the one before it. -/
theorem exists_neighbours {β : Type} {chain : List β} {i : Nat} (positive : 0 < i) (inside : i < chain.length) :
    ∃ front m p rest, chain = front ++ m :: p :: rest ∧ front.length + 1 = i ∧ chain[i]? = some p := by
  obtain ⟨early, p, rest, split, index, at_index⟩ := exists_split inside
  obtain rfl | ⟨front, m, rfl⟩ := early.eq_nil_or_concat'
  · rw [List.length_nil] at index
    omega
  · refine ⟨front, m, p, rest, ?_, ?_, at_index⟩
    · rw [split, List.append_assoc, List.singleton_append]
    · rw [← index, List.length_append, List.length_singleton]

/-- Two nodes that follow one another. -/
theorem Linked.neighbours {front rest : List A} {m p : A} (linked : Linked l (front ++ m :: p :: rest) sequence before) :
    ∃ hereM hereP, l.heap m = some hereM ∧ l.heap p = some hereP ∧ hereP.prev = some m := by
  obtain ⟨hereM, liveM, -, -⟩ := linked.live (a := m) (by simp)
  obtain ⟨hereP, liveP, -, prevP⟩ := linked.live (a := p) (by simp)
  refine ⟨hereM, hereP, liveM, liveP, ?_⟩
  rw [← prevP]
  exact ((chained_append.mp linked.linked).2.2.2).1

variable [DecidableEq A] {a : A}

/-- The list with a node between two others. -/
theorem Linked.between {front rest : List A} {m p : A} (linked : Linked l (front ++ m :: p :: rest) sequence before)
    (free : l.heap a = none) (value : T) {i : Nat} (index : front.length + 1 = i) {heap : NodeHeap A T}
    (next : nextOf heap = Function.update (Function.update (nextOf l.heap) a (some p)) m (some a))
    (prev : prevOf heap = Function.update (Function.update (prevOf l.heap) a (some m)) p (some a))
    (body : bodyOf heap = Function.update (bodyOf l.heap) a (some value)) :
    Linked ⟨heap, l.mHead, l.mTail, l.mSize + 1⟩ (front ++ m :: a :: p :: rest)
      (sequence.take i ++ value :: sequence.drop i) before := by
  have fresh := linked.fresh free
  have fresh' : a ∉ (front ++ [m]) ++ p :: rest := by simpa using fresh
  have whole : front ++ m :: a :: p :: rest = (front ++ [m]) ++ a :: p :: rest := by simp
  have length := linked.length_eq
  have bodies : (front ++ [m]).map (bodyOf l.heap) ++ (p :: rest).map (bodyOf l.heap) =
      (sequence.take i).map some ++ (sequence.drop i).map some := by
    rw [← List.map_append, ← List.map_append, List.take_append_drop, ← linked.bodies, List.append_assoc,
      List.singleton_append]
  obtain ⟨frontBodies, backBodies⟩ := List.append_inj bodies (by
    simp only [List.length_map, List.length_take, List.length_append, List.length_cons, List.length_nil] at length ⊢
    omega)
  refine ⟨?_, ?_, ?_, ?_, fun _ => ?_, ?_⟩
  · rw [whole]
    apply List.nodup_middle.mpr
    exact List.nodup_cons.mpr ⟨fresh', by simpa using linked.unique⟩
  · rw [whole, body]
    exact bodies_insert _ _ value frontBodies backBodies fresh'
  · rw [next, prev]
    exact chained_insert fresh linked.unique linked.linked
  · rw [linked.head]
    cases front <;> rfl
  · rw [linked.tail (by simp)]
    simp [List.getLast?_append]
  · simp [linked.size]
    omega

theorem Linked.insertMiddle (linked : Linked l chain sequence before) (free : l.heap a = none) (value : T) {i : Int}
    (notFirst : 0 < i) (notLast : i < sequence.length) : ∃ chain' l', QLinkedList.insert l a i value = some l' ∧
      Linked l' chain' (sequence.take i.toNat ++ value :: sequence.drop i.toNat) before := by
  have fresh := linked.fresh free
  have length := linked.length_eq
  obtain ⟨front, m, p, rest, rfl, index, at_index⟩ :=
    exists_neighbours (show 0 < i.toNat by omega) (show i.toNat < chain.length by omega)
  obtain ⟨hereM, hereP, liveM, liveP, back⟩ := linked.neighbours
  obtain ⟨new, newEq⟩ : ∃ new, Function.update l.heap a (some ⟨some p, some m, value⟩) = new := ⟨_, rfl⟩
  have newP : new p = some hereP := by
    rw [← newEq, Function.update_of_ne (ne_of_mem_of_not_mem (by simp) fresh), liveP]
  have newM : new m = some hereM := by
    rw [← newEq, Function.update_of_ne (ne_of_mem_of_not_mem (by simp) fresh), liveM]
  obtain ⟨heap₁, heap₂, written₁, written₂, -, next, prev, body⟩ := join_spec newM newP (some a) (some a)
  refine ⟨front ++ m :: a :: p :: rest, ⟨heap₂, l.mHead, l.mTail, l.mSize + 1⟩, ?_, ?_⟩
  · rw [QLinkedList.insert, if_neg notFirst.ne', if_neg (by rw [linked.size, length]; omega)]
    simp only [linked.node_eq at_index, Option.bind_eq_bind, Option.bind_some, deref, liveP, newEq, newP, back, written₁,
      written₂]
    rfl
  · refine linked.between free value index ?_ ?_ ?_
    · rw [next, ← newEq, nextOf_update]
      rfl
    · rw [prev, ← newEq, prevOf_update]
      rfl
    · rw [body, ← newEq, bodyOf_update]
      rfl

theorem Linked.insert (linked : Linked l chain sequence before) (free : l.heap a = none) (value : T) {i : Int}
    (least : 0 ≤ i) (most : i ≤ sequence.length) : ∃ chain' l' before', QLinkedList.insert l a i value = some l' ∧
      Linked l' chain' (sequence.take i.toNat ++ value :: sequence.drop i.toNat) before' := by
  by_cases first : i = 0
  · obtain ⟨l', before', result, after⟩ := linked.prepend free value
    refine ⟨_, l', before', ?_, by simpa [first] using after⟩
    rw [QLinkedList.insert, if_pos first, result]
  by_cases last : i = l.mSize
  · obtain ⟨l', before', result, after⟩ := linked.append free value
    have all : i.toNat = sequence.length := by
      rw [last, linked.size, linked.length_eq]
      rfl
    refine ⟨_, l', before', ?_, by simpa [all] using after⟩
    rw [QLinkedList.insert, if_neg first, if_pos last, result]
  · have size := linked.size
    have length := linked.length_eq
    obtain ⟨chain', l', result, after⟩ := linked.insertMiddle free value (i := i) (by omega) (by omega)
    exact ⟨chain', l', before, result, after⟩

end Middle

section Removing

variable {l : QLinkedList A T} {chain : List A} {sequence : List T} {before : Option A}

/-- The bodies with one of them left out. -/
theorem bodies_erase {f : A → Option T} {front rest : List A} {p : A} {i : Nat} (index : front.length = i)
    (bodies : (front ++ p :: rest).map f = sequence.map some) :
    (front ++ rest).map f = (sequence.eraseIdx i).map some := by
  have erased : front ++ rest = (front ++ p :: rest).eraseIdx i := by
    rw [← index, List.eraseIdx_append_of_length_le (Nat.le_refl _), Nat.sub_self, List.eraseIdx_cons_zero]
  rw [erased, ← List.eraseIdx_map, bodies, List.eraseIdx_map]

variable [DecidableEq A]

/-- The end of a removal: the links lead past the node `p`, which is then deleted. -/
theorem Linked.delete_unlinked (front : List A) {rest : List A} {p : A}
    (linked : Linked l (front ++ p :: rest) sequence before) (heap : NodeHeap A T) (body : bodyOf heap = bodyOf l.heap)
    (before' : Option A) (unlinked : Chained (nextOf heap) (prevOf heap) before' (front ++ rest) none) :
    ∃ heap', delete heap (some p) = some heap' ∧ (front ++ rest).Nodup ∧
      (front ++ rest).map (bodyOf heap') = (sequence.eraseIdx front.length).map some ∧
      Chained (nextOf heap') (prevOf heap') before' (front ++ rest) none := by
  have outside : p ∉ front ++ rest := (List.nodup_middle.mp linked.unique |> List.nodup_cons.mp).1
  have present : ∃ here, heap p = some here := by
    obtain ⟨here, live, -⟩ := linked.live (a := p) (by simp)
    have same : bodyOf heap p = some here.body := by
      rw [body, bodyOf, live]
      rfl
    obtain ⟨other, found, -⟩ := live_of_body same
    exact ⟨other, found⟩
  obtain ⟨here, live⟩ := present
  obtain ⟨heap', deleted, next', prev', body'⟩ := delete_spec live
  refine ⟨heap', deleted, (List.nodup_middle.mp linked.unique |> List.nodup_cons.mp).2, ?_, ?_⟩
  · rw [body', map_update_outside outside, body]
    exact bodies_erase rfl linked.bodies
  · rw [next', prev']
    exact chained_outside outside unlinked none none

theorem Linked.removeFirst (linked : Linked l chain sequence before) (nonempty : sequence ≠ []) :
    ∃ chain' l' before', remove l 0 = some l' ∧ Linked l' chain' (sequence.eraseIdx 0) before' := by
  cases chain with
  | nil => exact absurd (List.eq_nil_of_length_eq_zero linked.length_eq.symm) nonempty
  | cons p rest =>
    obtain ⟨here, live, next, -⟩ := linked.live (a := p) List.mem_cons_self
    obtain ⟨-, forth, tail⟩ := linked.linked
    have follow : here.next = rest.head? := by rw [← next, forth, Option.or_none]
    have first : l.mHead = some p := linked.head
    cases rest with
    | nil =>
      obtain ⟨heap', deleted, unique, bodies, chained⟩ :=
        linked.delete_unlinked [] l.heap rfl none trivial
      refine ⟨[], ⟨heap', none, l.mTail, l.mSize - 1⟩, none, ?_, ⟨unique, bodies, chained, rfl, fun some => absurd rfl some, ?_⟩⟩
      · have after : here.next = none := follow
        simp [remove, first, deref, live, after, deleted]
      · simp [linked.size]
    | cons n more =>
      obtain ⟨hereN, liveN, -, -⟩ := linked.live (a := n) (by simp)
      obtain ⟨heap, written, nextEq, prevEq, bodyEq⟩ := setPrev_spec liveN none
      have fresh : n ∉ more := (List.nodup_cons.mp (List.nodup_cons.mp linked.unique).2).1
      obtain ⟨heap', deleted, unique, bodies, chained⟩ :=
        linked.delete_unlinked [] heap bodyEq none (by
          rw [nextEq, prevEq]
          exact chained_redirect_prev fresh tail none)
      refine ⟨n :: more, ⟨heap', some n, l.mTail, l.mSize - 1⟩, none, ?_, ⟨unique, bodies, chained, rfl, fun _ => ?_, ?_⟩⟩
      · have after : here.next = some n := follow
        simp [remove, first, deref, live, after, written, deleted]
      · rw [linked.tail (List.cons_ne_nil _ _)]
        rfl
      · simp [linked.size]

theorem Linked.removeLast (linked : Linked l chain sequence before) (several : 1 < sequence.length) :
    ∃ chain' l' before', remove l (sequence.length - 1) = some l' ∧
      Linked l' chain' (sequence.eraseIdx (sequence.length - 1)) before' := by
  have length := linked.length_eq
  obtain rfl | ⟨early, p, rfl⟩ := chain.eq_nil_or_concat'
  · simp at length
    omega
  obtain rfl | ⟨front, m, rfl⟩ := early.eq_nil_or_concat'
  · simp at length
    omega
  have whole : front ++ [m] ++ [p] = front ++ [m, p] := by simp
  rw [whole] at linked length
  obtain ⟨here, live, -, prev⟩ := linked.live (a := p) (by simp)
  obtain ⟨hereM, liveM, -, -⟩ := linked.live (a := m) (by simp)
  have back : here.prev = some m := by
    rw [← prev]
    exact (chained_append.mp linked.linked).2.2.2.1
  have last : l.mTail = some p := by
    rw [linked.tail (by simp), ← whole]
    simp
  obtain ⟨heap, written, nextEq, prevEq, bodyEq⟩ := setNext_spec liveM none
  have unique : m ∉ front := fun member => (List.nodup_append'.mp linked.unique).2.2 member (by simp)
  have split : Linked l ((front ++ [m]) ++ p :: []) sequence before := by simpa using linked
  obtain ⟨heap', deleted, unique', bodies, chained⟩ :=
    split.delete_unlinked _ heap bodyEq before (by
      rw [nextEq, prevEq, List.append_nil]
      exact chained_dropLast unique linked.linked none)
  have count : (front ++ [m]).length = sequence.length - 1 := by
    rw [← length]
    simp
  rw [List.append_nil] at unique' bodies chained
  refine ⟨front ++ [m], ⟨heap', l.mHead, some m, l.mSize - 1⟩, before, ?_,
    ⟨unique', by rw [← count]; exact bodies, chained, ?_, fun _ => by simp, ?_⟩⟩
  · have later : ((sequence.length : Int) - 1) ≠ 0 := by omega
    have final : (sequence.length : Int) - 1 = l.mSize - 1 := by rw [linked.size, length]
    rw [remove, if_neg later, if_pos final]
    simp only [last, deref, Option.bind_some, live, back, written, deleted, Option.bind_eq_bind]
    rfl
  · rw [linked.head]
    cases front <;> rfl
  · rw [linked.size]
    simp
    omega

theorem Linked.removeMiddle (linked : Linked l chain sequence before) {i : Int} (some : 0 < i)
    (inside : i < sequence.length - 1) : ∃ chain' l' before', remove l i = .some l' ∧
      Linked l' chain' (sequence.eraseIdx i.toNat) before' := by
  have length := linked.length_eq
  obtain ⟨front, m, p, late, rfl, index, at_index⟩ :=
    exists_neighbours (show 0 < i.toNat by omega) (show i.toNat < chain.length by omega)
  cases late with
  | nil =>
    simp at length
    omega
  | cons n rest =>
    have split : Linked l ((front ++ [m]) ++ p :: n :: rest) sequence before := by simpa using linked
    obtain ⟨hereM, here, liveM, live, back⟩ := linked.neighbours
    obtain ⟨here', hereN, live', liveN, -⟩ := split.neighbours
    have forth : here.next = .some n := by
      have next : nextOf l.heap p = here.next := by simp [nextOf, live]
      rw [← next]
      exact (chained_append.mp split.linked).2.2.1
    -- the node itself is not written to before it is deleted
    have apart : p ≠ m := by
      intro same
      have unique := (List.nodup_append'.mp linked.unique).2.1
      rw [← same] at unique
      exact (List.nodup_cons.mp unique).1 List.mem_cons_self
    obtain ⟨heap₁, heap₂, written₁, written₂, others, next₂, prev₂, body₂⟩ := join_spec liveM liveN (.some n) (.some m)
    have joined : front ++ m :: n :: rest = (front ++ [m]) ++ n :: rest := by simp
    obtain ⟨heap', deleted, unique', bodies, chained⟩ :=
      split.delete_unlinked _ heap₂ body₂ before (by
        rw [next₂, prev₂, ← joined]
        exact chained_unlink linked.unique linked.linked)
    have count : (front ++ [m]).length = i.toNat := by simpa using index
    rw [count] at bodies
    refine ⟨_, ⟨heap', l.mHead, l.mTail, l.mSize - 1⟩, before, ?_, ⟨unique', bodies, chained, ?_, fun _ => ?_, ?_⟩⟩
    · have notFirst : i ≠ 0 := by omega
      have notLast : i ≠ l.mSize - 1 := by
        rw [linked.size, length]
        omega
      rw [remove, if_neg notFirst, if_neg notLast]
      simp only [linked.node_eq at_index, deref, Option.bind_some, live, back, forth, written₁, others p apart, written₂,
        deleted, Option.bind_eq_bind]
      rfl
    · rw [linked.head]
      cases front <;> rfl
    · rw [linked.tail (by simp)]
      simp [List.getLast?_append]
    · rw [linked.size]
      simp
      omega

/-- Any node can be removed. -/
theorem Linked.remove (linked : Linked l chain sequence before) {i : Int} (least : 0 ≤ i) (most : i < sequence.length) :
    ∃ chain' l' before', QLinkedList.remove l i = some l' ∧ Linked l' chain' (sequence.eraseIdx i.toNat) before' := by
  by_cases first : i = 0
  · subst first
    exact linked.removeFirst (List.ne_nil_of_length_pos (by omega))
  · by_cases last : i = sequence.length - 1
    · have index : i.toNat = sequence.length - 1 := by omega
      rw [index, last]
      exact linked.removeLast (by omega)
    · exact linked.removeMiddle (by omega) (by omega)

end Removing
end FluxOS.QLinkedList
