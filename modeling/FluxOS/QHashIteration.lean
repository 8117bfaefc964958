import FluxOS.QHashNodes

/-! One iterator on a table from which entries are removed meanwhile: which removals leave it on nodes that are there,
and let it come to every entry that stays. -/
namespace FluxOS.QHashNodes
open Words LinkedCells QHash

variable {Key T : Type}

/-- Before anything has happened. -/
def resting (mCapacity : Word) (mArray : List (Option Nat)) (cells : Cells (Node Key T)) : State Key T :=
  ⟨mCapacity, mArray, cells, 0, none, [], [], []⟩

/-- A `QHash` in memory. An iterator that was dropped before its end may have left a node busy. -/
structure Table (Key T : Type) where
  mCapacity : Word
  mArray : List (Option Nat)
  cells : Cells (Node Key T)
  chains : List (List Nat)
  linked : Linked (resting mCapacity mArray cells) chains

def Table.start (t : Table Key T) : State Key T := constBegin (resting t.mCapacity t.mArray t.cells)

/-- At the end of the iteration, every entry that was not removed has been visited once, and every node that was has
been freed once. -/
def Right (t : Table Key T) (s : State Key T) : Prop :=
  (∀ p ∈ t.chains.flatten, p ∉ s.removed → s.visited.count p = 1) ∧ ∀ p ∈ s.removed, s.freed.count p = 1

section Conditions

variable [DecidableEq Key] (qHash : Key → HashValue)

/-- When a removal leaves the iterator alone: the key has a chain, and its node, if there is one, is neither the one the
iterator stands on nor marked as busy. -/
def Meets (s : State Key T) : Event Key → Prop
  | .advance | .look => True
  | .remove key => ∃ found, node qHash s key = some found ∧ ∀ p, found = some p →
      s.currentNode ≠ some p ∧ ∀ held, read s.cells p = some held → held.busy = false

def MeetsAll (s : State Key T) : List (Event Key) → Prop
  | [] => True
  | event :: rest => Meets qHash s event ∧ ∀ s', step qHash s event = some s' → MeetsAll s' rest

end Conditions

/-- Where the iterator stands: it has come to all nodes before, and to those alone, of the ones that are still there. -/
def Standing (s : State Key T) (chains : List (List Nat)) : Prop :=
  match s.currentNode with
  | none => s.visited.filter (· ∈ chains.flatten) = chains.flatten
  | some p => ∃ before after, chains[s.currentHashArrayIndex]? = some (before ++ p :: after) ∧
      s.visited.filter (· ∈ chains.flatten) = (chains.take s.currentHashArrayIndex).flatten ++ before ++ [p]

/-- What holds as long as every removal has met its condition. -/
structure Undisturbed (t : Table Key T) (s : State Key T) (chains : List (List Nat)) : Prop where
  linked : Linked s chains
  standing : Standing s chains
  freed : s.freed = s.removed
  nodup : s.removed.Nodup
  gone : ∀ p ∈ s.removed, p ∉ chains.flatten
  all : ∀ p ∈ t.chains.flatten, p ∈ chains.flatten ∨ p ∈ s.removed

section Start

variable {s : State Key T} {chains : List (List Nat)}

theorem standing_constBegin (linked : Linked s chains) (fresh : s.visited = []) : Standing (constBegin s) chains := by
  unfold constBegin
  rw [mArray_eq linked]
  obtain ⟨none, empty⟩ | ⟨front, p, rest, back, rfl, empty, some⟩ := firstChain_spec 0 chains
  · simp only [none, Standing, fresh, empty, List.filter_nil]
  · simp only [some, Standing, fresh]
    refine ⟨[], rest, ?_, ?_⟩
    · simp
    · simp [empty]

theorem undisturbed_start (t : Table Key T) : Undisturbed t t.start t.chains := by
  have standing := standing_constBegin t.linked rfl
  unfold Table.start constBegin at standing ⊢
  split at standing
  · exact ⟨t.linked.frame rfl rfl (fun _ _ => rfl) fun _ _ => rfl, standing, rfl, List.nodup_nil, nofun, fun _ => .inl⟩
  · exact ⟨t.linked.frame rfl rfl (fun _ _ => rfl) fun _ _ => rfl, standing, rfl, List.nodup_nil, nofun, fun _ => .inl⟩

end Start

section Steps

variable {t : Table Key T} {s s' : State Key T} {chains : List (List Nat)}

theorem flatten_at {i : Nat} {ps : List Nat} (here : chains[i]? = some ps) :
    (chains.take (i + 1)).flatten = (chains.take i).flatten ++ ps ∧
      chains.flatten = (chains.take i).flatten ++ ps ++ (chains.drop (i + 1)).flatten := by
  have upTo : (chains.take (i + 1)).flatten = (chains.take i).flatten ++ ps := by
    rw [List.take_add_one, here, Option.toList_some, List.flatten_append, List.flatten_singleton]
  refine ⟨upTo, ?_⟩
  rw [← upTo, ← List.flatten_append, List.take_append_drop]

/-- The iterator comes to a node of the table. -/
theorem filter_concat {visited seen : List Nat} {p : Nat} (member : p ∈ chains.flatten)
    (so : visited.filter (· ∈ chains.flatten) = seen) :
    (visited ++ [p]).filter (· ∈ chains.flatten) = seen ++ [p] := by
  rw [List.filter_append, so]
  simp only [List.filter_cons, member, decide_true, if_true, List.filter_nil]

/-- The iterator stands where it has arrived. -/
theorem Linked.exists_arrive (linked : Linked s chains) {i p : Nat} {before after : List Nat}
    (here : chains[i]? = some (before ++ p :: after))
    (seen : s.visited.filter (· ∈ chains.flatten) = (chains.take i).flatten ++ before) :
    ∃ s', QHashNodes.arrive s i p = some s' ∧ Standing s' chains := by
  have member := mem_flatten_of_getElem? here (List.mem_append_right before (@List.mem_cons_self _ p after))
  obtain ⟨held, found, -⟩ := linked.exists_read member
  refine ⟨_, arrive_eq i found, before, after, here, ?_⟩
  exact filter_concat member seen

theorem Undisturbed.advance (undisturbed : Undisturbed t s chains) :
    ∃ s', QHashNodes.advance s = some s' ∧ Undisturbed t s' chains := by
  have linked := undisturbed.linked
  have standing := undisturbed.standing
  have step : ∃ s', QHashNodes.advance s = some s' ∧ Standing s' chains := by
    cases current : s.currentNode with
    | none => exact ⟨s, by simp [QHashNodes.advance, current], standing⟩
    | some c =>
      simp only [Standing, current] at standing
      obtain ⟨before, after, here, seen⟩ := standing
      have member := mem_flatten_of_getElem? here (List.mem_append_right before (@List.mem_cons_self _ c after))
      obtain ⟨held, found, notPending⟩ := linked.exists_read member
      have left := linked.unmarked found
      obtain ⟨head, atHead⟩ : ∃ head, s.mArray[s.currentHashArrayIndex]? = some head := by
        rw [mArray_eq linked, List.getElem?_map, here]
        exact ⟨_, rfl⟩
      have leads := (linked.chain _ head _ atHead here).next_eq found
      rw [advance_eq current found]
      cases after with
      | cons next rest =>
        -- the next one of the same chain
        have here' : chains[s.currentHashArrayIndex]? = some ((before ++ [c]) ++ next :: rest) := by
          rw [here, List.append_assoc, List.singleton_append]
        simp only [leads, List.head?_cons, notPending, Bool.false_eq_true, if_false]
        exact left.exists_arrive here' (by rw [← List.append_assoc]; exact seen)
      | nil =>
        obtain ⟨upTo, whole⟩ := flatten_at here
        simp only [leads, List.head?_nil, mArray_eq linked, ← List.map_drop]
        obtain ⟨none, empty⟩ | ⟨front, p, rest, back, behind, empty, further⟩ :=
          firstChain_spec (s.currentHashArrayIndex + 1) (chains.drop (s.currentHashArrayIndex + 1))
        · -- there is no further node
          rw [none]
          refine ⟨_, rfl, ?_⟩
          rw [empty, List.append_nil, ← List.append_assoc] at whole
          exact seen.trans whole.symm
        · -- the first one of a later chain
          rw [further]
          have here' : chains[s.currentHashArrayIndex + 1 + front.length]? = some ([] ++ p :: rest) := by
            rw [← List.getElem?_drop, behind, List.getElem?_append_right (Nat.le_refl _), Nat.sub_self]
            rfl
          have passed : (chains.take (s.currentHashArrayIndex + 1 + front.length)).flatten ++ [] =
              (chains.take s.currentHashArrayIndex).flatten ++ before ++ [c] := by
            rw [List.take_add, behind, List.take_left, List.flatten_append, empty, upTo, List.append_nil, List.append_nil,
              List.append_assoc]
          exact left.exists_arrive here' (seen.trans passed.symm)
  obtain ⟨s', done, standing'⟩ := step
  obtain ⟨linked', removed, freed⟩ := linked.advance done
  refine ⟨s', done, linked', standing', ?_, ?_, ?_, ?_⟩
  · rw [freed, removed, undisturbed.freed]
  · rw [removed]
    exact undisturbed.nodup
  · rw [removed]
    exact undisturbed.gone
  · rw [removed]
    exact undisturbed.all

theorem filter_visited_without (visited : List Nat) (p : Nat) (chains : List (List Nat)) :
    visited.filter (· ∈ (without p chains).flatten) = (visited.filter (· ∈ chains.flatten)).filter (· ≠ p) := by
  rw [List.filter_filter]
  apply List.filter_congr
  intro q _
  rw [flatten_without, Bool.and_comm]
  simp only [List.mem_filter, Bool.decide_and, Bool.decide_eq_true]

/-- Where a node goes that the iterator does not stand on, it stands as before. -/
theorem Standing.without {p : Nat} (standing : Standing s chains) (elsewhere : s.currentNode ≠ some p)
    (iterator : s'.currentNode = s.currentNode ∧ s'.currentHashArrayIndex = s.currentHashArrayIndex)
    (visited : s'.visited = s.visited) : Standing s' (without p chains) := by
  unfold Standing at standing ⊢
  rw [iterator.1, iterator.2, visited]
  cases current : s.currentNode with
  | none =>
    simp only [current] at standing ⊢
    rw [filter_visited_without, standing, flatten_without]
  | some c =>
    simp only [current] at standing ⊢
    obtain ⟨before, after, here, seen⟩ := standing
    have other : c ≠ p := fun same => elsewhere (by rw [current, same])
    refine ⟨before.filter (· ≠ p), after.filter (· ≠ p), ?_, ?_⟩
    · rw [QHashNodes.without, List.getElem?_map, here, Option.map_some, List.filter_append]
      simp [other]
    · have taken : (QHashNodes.without p chains).take s.currentHashArrayIndex =
          QHashNodes.without p (chains.take s.currentHashArrayIndex) := List.map_take.symm
      rw [filter_visited_without, seen, List.filter_append, List.filter_append, taken, flatten_without]
      simp [other]

variable [DecidableEq Key] {qHash : Key → HashValue}

theorem slot_of_node {key : Key} {found : Option Nat} (looked : node qHash s key = some found) :
    ∃ i, slot (qHash key) s.mCapacity = some i := by
  obtain ⟨i, index, -⟩ := Option.bind_eq_some_iff.mp looked
  exact ⟨i, index⟩

theorem Undisturbed.remove {key : Key} (undisturbed : Undisturbed t s chains) (meets : Meets qHash s (.remove key)) :
    ∃ s' chains', QHashNodes.remove qHash s key = some s' ∧ Undisturbed t s' chains' := by
  obtain ⟨found, looked, apart⟩ := meets
  obtain ⟨i, index⟩ := slot_of_node looked
  obtain ⟨-, same⟩ | ⟨p, busy, s', isNode, done, removed⟩ := remove_spec undisturbed.linked index
  · exact ⟨s, chains, same, undisturbed⟩
  cases looked.symm.trans isNode
  obtain ⟨elsewhere, idle⟩ := apart p rfl
  obtain ⟨held, foundHeld, both⟩ := Option.map_eq_some_iff.mp removed.bits
  have notBusy : busy = false := (Prod.mk.inj both).2.symm.trans (idle held foundHeld)
  have freed := removed.freed
  rw [notBusy, if_neg Bool.false_ne_true, undisturbed.freed, ← removed.removed] at freed
  have fresh : p ∉ s.removed := fun before => undisturbed.gone p before removed.member
  refine ⟨s', without p chains, done, removed.linked,
    undisturbed.standing.without elsewhere removed.iterator removed.visited, freed, ?_, ?_, ?_⟩
  · rw [removed.removed, List.nodup_append]
    refine ⟨undisturbed.nodup, List.nodup_singleton p, ?_⟩
    rintro q member r isP rfl
    exact fresh (List.mem_singleton.mp isP ▸ member)
  · intro q member inside
    rw [flatten_without] at inside
    obtain ⟨before, other⟩ := List.mem_filter.mp inside
    rw [removed.removed, List.mem_append, List.mem_singleton] at member
    obtain member | rfl := member
    · exact undisturbed.gone q member before
    · exact of_decide_eq_true other rfl
  · intro q initial
    rw [removed.removed, flatten_without, List.mem_append, List.mem_singleton, List.mem_filter]
    by_cases same : q = p
    · exact .inr (.inr same)
    · exact (undisturbed.all q initial).imp (fun member => ⟨member, decide_eq_true same⟩) .inl

theorem Undisturbed.step {event : Event Key} (undisturbed : Undisturbed t s chains) (meets : Meets qHash s event) :
    ∃ s' chains', QHashNodes.step qHash s event = some s' ∧ Undisturbed t s' chains' := by
  cases event with
  | advance =>
    obtain ⟨s', done, after⟩ := undisturbed.advance
    exact ⟨s', chains, done, after⟩
  | look =>
    refine ⟨s, chains, ?_, undisturbed⟩
    have standing := undisturbed.standing
    cases current : s.currentNode with
    | none => simp [QHashNodes.step, look, current]
    | some c =>
      simp only [Standing, current] at standing
      obtain ⟨before, after, here, -⟩ := standing
      have member := mem_flatten_of_getElem? here (List.mem_append_right before (@List.mem_cons_self _ c after))
      obtain ⟨held, found, -⟩ := undisturbed.linked.exists_read member
      simp [QHashNodes.step, look, current, found]
  | remove key => exact undisturbed.remove meets

end Steps

section Runs

variable [DecidableEq Key] {qHash : Key → HashValue} {t : Table Key T} {s s' : State Key T} {chains : List (List Nat)}

theorem Undisturbed.run (events : List (Event Key)) {s : State Key T} {chains : List (List Nat)}
    (undisturbed : Undisturbed t s chains) (meets : MeetsAll qHash s events) :
    ∃ s' chains', QHashNodes.run qHash s events = some s' ∧ Undisturbed t s' chains' := by
  induction events generalizing s chains with
  | nil => exact ⟨s, chains, rfl, undisturbed⟩
  | cons event rest ih =>
    obtain ⟨s₁, chains₁, done, after⟩ := undisturbed.step meets.1
    obtain ⟨s', chains', ran, final⟩ := ih after (meets.2 s₁ done)
    refine ⟨s', chains', ?_, final⟩
    rw [QHashNodes.run, done]
    exact ran

omit [DecidableEq Key] in
theorem Undisturbed.right (undisturbed : Undisturbed t s chains) (ended : s.currentNode = none) : Right t s := by
  have standing := undisturbed.standing
  simp only [Standing, ended] at standing
  constructor
  · intro p initial stays
    have member := (undisturbed.all p initial).resolve_right stays
    have once := List.count_eq_one_of_mem undisturbed.linked.nodup member
    rw [← standing, List.count_filter (by simpa using member)] at once
    exact once
  · intro p member
    rw [undisturbed.freed]
    exact List.count_eq_one_of_mem undisturbed.nodup member

theorem Linked.remove_cases {key : Key} (linked : Linked s chains) (done : QHashNodes.remove qHash s key = some s') :
    (node qHash s key = some none ∧ s' = s) ∨
      ∃ p busy, node qHash s key = some (some p) ∧ Removed s s' chains p busy := by
  cases index : slot (qHash key) s.mCapacity with
  | none =>
    rw [remove_eq_none index] at done
    cases done
  | some i =>
    obtain ⟨absent, same⟩ | ⟨p, busy, s₁, isNode, same, removed⟩ := remove_spec linked index
    · cases same.symm.trans done
      exact .inl ⟨absent, rfl⟩
    · cases same.symm.trans done
      exact .inr ⟨p, busy, isNode, removed⟩

/-- In a run that comes to its end, a node that was removed and not freed is not freed any more. -/
theorem never_freed (events : List (Event Key)) {s : State Key T} {chains : List (List Nat)} (linked : Linked s chains)
    {p : Nat} (outside : p ∉ chains.flatten) (left : p ∉ s.freed) (lost : p ∈ s.removed)
    (ran : QHashNodes.run qHash s events = some s') : p ∉ s'.freed ∧ p ∈ s'.removed := by
  induction events generalizing s chains with
  | nil =>
    cases ran
    exact ⟨left, lost⟩
  | cons event rest ih =>
    obtain ⟨s₁, done, later⟩ := Option.bind_eq_some_iff.mp ran
    cases event with
    | advance =>
      obtain ⟨after, removed, freed⟩ := linked.advance done
      exact ih after outside (freed ▸ left) (removed ▸ lost) later
    | look =>
      have same : s₁ = s := by
        simp only [QHashNodes.step, look] at done
        split at done
        · exact (Option.some.inj done).symm
        · obtain ⟨_, _, same⟩ := Option.map_eq_some_iff.mp done
          exact same.symm
      exact ih linked outside left lost (same ▸ later)
    | remove key =>
      obtain ⟨-, rfl⟩ | ⟨q, busy, -, removed⟩ := linked.remove_cases done
      · exact ih linked outside left lost later
      · have other : p ≠ q := fun same => outside (same ▸ removed.member)
        refine ih removed.linked ?_ ?_ ?_ later
        · rw [flatten_without]
          exact fun member => outside (List.mem_filter.mp member).1
        · rw [removed.freed]
          split
          · exact left
          · simpa [other] using left
        · rw [removed.removed]
          exact List.mem_append_left _ lost

/-- An iterator on a freed node comes nowhere any more. -/
theorem stuck_on_freed (events : List (Event Key)) {s : State Key T} {chains : List (List Nat)} (linked : Linked s chains)
    {p : Nat} (current : s.currentNode = some p) (freed : read s.cells p = none)
    (ran : QHashNodes.run qHash s events = some s') : s'.currentNode = some p := by
  induction events generalizing s chains with
  | nil =>
    cases ran
    exact current
  | cons event rest ih =>
    obtain ⟨s₁, done, later⟩ := Option.bind_eq_some_iff.mp ran
    cases event with
    | advance => simp [QHashNodes.step, QHashNodes.advance, current, freed] at done
    | look => simp [QHashNodes.step, look, current, freed] at done
    | remove key =>
      obtain ⟨-, rfl⟩ | ⟨q, busy, -, removed⟩ := linked.remove_cases done
      · exact ih linked current freed later
      · have other : p ≠ q := by
          rintro rfl
          obtain ⟨held, found, -⟩ := linked.exists_read removed.member
          cases freed.symm.trans found
        have still := removed.others p other
        rw [bits, bits, freed, Option.map_none, Option.map_eq_none_iff] at still
        exact ih removed.linked (removed.iterator.1.trans current) still later

/-- A run to the end that is right has left the iterator alone. -/
theorem Undisturbed.meets_of_right {key : Key} {events : List (Event Key)} (undisturbed : Undisturbed t s chains)
    {s₁ : State Key T} (done : QHashNodes.remove qHash s key = some s₁) (ran : QHashNodes.run qHash s₁ events = some s')
    (ended : s'.currentNode = none) (right : Right t s') : Meets qHash s (.remove key) := by
  obtain ⟨absent, rfl⟩ | ⟨p, busy, isNode, removed⟩ := undisturbed.linked.remove_cases done
  · exact ⟨none, absent, nofun⟩
  have outside := not_mem_without p chains
  have lost : p ∈ s₁.removed := by
    rw [removed.removed]
    exact List.mem_append_right _ (List.mem_singleton_self p)
  have notBusy : busy = false := by
    by_contra marked
    rw [Bool.not_eq_false] at marked
    have left : p ∉ s₁.freed := by
      rw [removed.freed, if_pos marked, undisturbed.freed]
      exact fun before => undisturbed.gone p before removed.member
    obtain ⟨never, still⟩ := never_freed events removed.linked outside left lost ran
    exact never (List.count_pos_iff.mp (by rw [right.2 p still]; exact Nat.one_pos))
  refine ⟨some p, isNode, fun q same => ?_⟩
  cases same
  constructor
  · intro current
    have stays := stuck_on_freed events removed.linked (removed.iterator.1.trans current) (removed.gone notBusy) ran
    cases ended.symm.trans stays
  · intro held found
    have both := removed.bits
    rw [bits_of_read found, notBusy] at both
    exact (Prod.mk.inj (Option.some.inj both)).2

omit t chains in
theorem meetsAll_cons {event : Event Key} {events : List (Event Key)} (meets : Meets qHash s event)
    (done : QHashNodes.step qHash s event = some s') (later : MeetsAll qHash s' events) :
    MeetsAll qHash s (event :: events) := by
  refine ⟨meets, fun s₁ same => ?_⟩
  cases done.symm.trans same
  exact later

theorem Undisturbed.meetsAll_of_right (events : List (Event Key)) {s : State Key T} {chains : List (List Nat)}
    (undisturbed : Undisturbed t s chains) (ran : QHashNodes.run qHash s events = some s')
    (ended : s'.currentNode = none) (right : Right t s') : MeetsAll qHash s events := by
  induction events generalizing s chains with
  | nil => trivial
  | cons event rest ih =>
    obtain ⟨s₁, done, later⟩ := Option.bind_eq_some_iff.mp ran
    have meets : Meets qHash s event := by
      cases event with
      | advance => trivial
      | look => trivial
      | remove key => exact undisturbed.meets_of_right done later ended right
    obtain ⟨s₂, chains₂, same, after⟩ := undisturbed.step meets
    cases done.symm.trans same
    exact meetsAll_cons meets done (ih after later)

end Runs

/-- An iteration to the end accesses no freed node, visits every entry that stays once, and has every removed node freed
once, exactly where no removal was of the entry that the iterator stood on or of one that was marked as busy. -/
theorem iteration_right_iff [DecidableEq Key] (qHash : Key → HashValue) (t : Table Key T) (events : List (Event Key))
    (ends : ∀ s, run qHash t.start events = some s → s.currentNode = none) :
    (∃ s, run qHash t.start events = some s ∧ Right t s) ↔ MeetsAll qHash t.start events := by
  have start := undisturbed_start t
  constructor
  · rintro ⟨s, ran, right⟩
    exact start.meetsAll_of_right events ran (ends s ran) right
  · intro meets
    obtain ⟨s, chains, ran, undisturbed⟩ := start.run events meets
    exact ⟨s, ran, undisturbed.right (ends s ran)⟩

/-- Three entries in two chains: those of 0 and 2, and that of 1. -/
def threeEntries : Table Word Nat where
  mCapacity := 2#32
  mArray := [some 0, some 2]
  cells := [some ⟨some 1, false, false, 0#32, 10⟩, some ⟨none, false, false, 2#32, 12⟩,
    some ⟨none, false, false, 1#32, 11⟩]
  chains := [[0, 1], [2]]
  linked := by
    refine ⟨rfl, rfl, ?_, by decide, ?_⟩
    · intro i head ps atHead atChain
      match i with
      | 0 =>
        cases atHead
        cases atChain
        exact ⟨rfl, _, rfl, rfl, _, rfl, rfl⟩
      | 1 =>
        cases atHead
        cases atChain
        exact ⟨rfl, _, rfl, rfl⟩
      | i + 2 => cases atHead
    · intro p member held found
      have one : p = 0 ∨ p = 1 ∨ p = 2 := by simpa using member
      obtain rfl | rfl | rfl := one <;> cases found <;> rfl

/-- The entry behind that of the iterator is removed, and the other two are visited. -/
theorem next_entry_removed : ∃ s, run HashValue.uint threeEntries.start
    [.look, .remove 2#32, .advance, .look, .advance] = some s ∧ Right threeEntries s := by
  refine (iteration_right_iff _ _ _ fun s ran => ?_).mpr ?_
  · cases ran
    rfl
  · refine meetsAll_cons trivial rfl (meetsAll_cons ⟨_, rfl, fun p same => ?_⟩ rfl
      (meetsAll_cons trivial rfl (meetsAll_cons trivial rfl (meetsAll_cons trivial rfl trivial))))
    cases same
    refine ⟨by decide, fun held found => ?_⟩
    cases found
    rfl

/-- The first entry is removed while the iterator stands on it: it is freed, and then read. Where the last one of a chain
is, it is never freed. -/
theorem current_entry_removed :
    run HashValue.uint threeEntries.start [.remove 0#32, .look, .advance, .advance] = none ∧
    ∃ s, run HashValue.uint threeEntries.start [.advance, .remove 2#32, .advance, .advance] = some s ∧
      s.currentNode = none ∧ s.removed = [1] ∧ s.freed = [] ∧ ¬ Right threeEntries s := by
  refine ⟨rfl, _, rfl, rfl, rfl, rfl, ?_⟩
  rintro ⟨-, freed⟩
  exact absurd (freed 1 List.mem_cons_self) (by decide)

end FluxOS.QHashNodes
