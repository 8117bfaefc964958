import FluxOS.LinkedCells
import FluxOS.QHashCalls

/-! The nodes of a `QHash` in memory, with the two bits that `remove` and a `const_iterator` share, and the
operations on them. An access to a node that has been freed has no result. -/
namespace FluxOS.QHashNodes
open Words LinkedCells QHash

structure Node (Key T : Type) where
  next : Option Nat
  pendingRemoval : Bool
  busy : Bool
  key : Key
  body : T

/-- A table, an iterator on it, and what has happened: the nodes the iterator has come to, those that were removed, and
those that were freed. -/
structure State (Key T : Type) where
  mCapacity : Word
  mArray : List (Option Nat)
  cells : Cells (Node Key T)
  currentHashArrayIndex : Nat
  currentNode : Option Nat
  visited : List Nat
  removed : List Nat
  freed : List Nat

variable {Key T : Type}

/-- `delete`, of a node that has not been freed. -/
def delete (s : State Key T) (p : Nat) : Option (State Key T) := do
  let _ ← read s.cells p
  return { s with cells := free s.cells p, freed := s.freed ++ [p] }

section Table

variable [DecidableEq Key] (qHash : Key → HashValue)

/-- The walk along a chain that `node` and `removeFromTable` share: the node before the one found, that one, and what
it holds. -/
def walk (key : Key) (cells : Cells (Node Key T)) :
    Nat → Option Nat → Option Nat → Option (Option (Option Nat × Nat × Node Key T))
  | _, _, none => some none
  | 0, _, some _ => none
  | fuel + 1, prevNode, some tmpNode => do
    let held ← read cells tmpNode
    if held.key = key then return some (prevNode, tmpNode, held)
    else walk key cells fuel (some tmpNode) held.next

def node (s : State Key T) (key : Key) : Option (Option Nat) := do
  let i ← slot (qHash key) s.mCapacity
  let head ← s.mArray[i]?
  let found ← walk key s.cells s.cells.length none head
  return found.map fun (_, tmpNode, _) => tmpNode

def removeFromTable (s : State Key T) (key : Key) : Option (Option Nat × State Key T) := do
  let i ← slot (qHash key) s.mCapacity
  let head ← s.mArray[i]?
  match ← walk key s.cells s.cells.length none head with
  | none => return (none, s)
  | some (none, tmpNode, held) => return (some tmpNode, { s with mArray := s.mArray.set i held.next })
  | some (some prevNode, tmpNode, held) =>
    let prev ← read s.cells prevNode
    return (some tmpNode, { s with cells := write s.cells prevNode { prev with next := held.next } })

/-- `remove`: a node that is busy is left to the iterator. -/
def remove (s : State Key T) (key : Key) : Option (State Key T) := do
  match ← removeFromTable qHash s key with
  | (none, s) => return s
  | (some p, s) =>
    let held ← read s.cells p
    let s := { s with removed := s.removed ++ [p] }
    if held.busy then return { s with cells := write s.cells p { held with pendingRemoval := true } }
    else delete s p

end Table

section Iterator

/-- The first chain with a node, of those from index `i` on. -/
def firstChain (i : Nat) : List (Option Nat) → Option (Nat × Nat)
  | [] => none
  | some p :: _ => some (i, p)
  | none :: rest => firstChain (i + 1) rest

/-- `constBegin` does not mark the first node. -/
def constBegin (s : State Key T) : State Key T :=
  match firstChain 0 s.mArray with
  | some (i, p) => { s with currentHashArrayIndex := i, currentNode := some p, visited := s.visited ++ [p] }
  | none => { s with currentNode := none }

/-- `operator++` comes to a node, and marks it. -/
def arrive (s : State Key T) (i p : Nat) : Option (State Key T) := do
  let held ← read s.cells p
  return { s with
    cells := write s.cells p { held with busy := true }
    currentHashArrayIndex := i
    currentNode := some p
    visited := s.visited ++ [p] }

/-- `operator++`. At the end the loop over the table makes no further step. -/
def advance (s : State Key T) : Option (State Key T) :=
  match s.currentNode with
  | none => some s
  | some currentNode => do
    let held ← read s.cells currentNode
    let s := { s with cells := write s.cells currentNode { held with busy := false } }
    match held.next with
    | some _ =>
      let s ← if held.pendingRemoval then delete s currentNode else some s
      let again ← read s.cells currentNode
      arrive s s.currentHashArrayIndex (← again.next)
    | none =>
      match firstChain (s.currentHashArrayIndex + 1) (s.mArray.drop (s.currentHashArrayIndex + 1)) with
      | some (i, p) => arrive s i p
      | none => return { s with currentHashArrayIndex := s.mArray.length - 1, currentNode := none }

/-- `key()` and `value()` read the node. -/
def look (s : State Key T) : Option (State Key T) :=
  match s.currentNode with
  | none => some s
  | some currentNode => (read s.cells currentNode).map fun _ => s

end Iterator

/-- What happens between `constBegin` and `constEnd`. -/
inductive Event (Key : Type) where
  | advance
  | look
  | remove (key : Key)

section Runs

variable [DecidableEq Key] (qHash : Key → HashValue)

def step (s : State Key T) : Event Key → Option (State Key T)
  | .advance => advance s
  | .look => look s
  | .remove key => remove qHash s key

def run (s : State Key T) : List (Event Key) → Option (State Key T)
  | [] => some s
  | event :: rest => do run (← step qHash s event) rest

end Runs

/-! ## Chains -/

/-- Each chain of the array leads through its own nodes, none of which is to be removed. -/
structure Linked (s : State Key T) (chains : List (List Nat)) : Prop where
  room : s.mArray.length = s.mCapacity.toNat
  length : s.mArray.length = chains.length
  chain : ∀ (i : Nat) (head : Option Nat) (ps : List Nat), s.mArray[i]? = some head → chains[i]? = some ps →
    Chain Node.next s.cells head ps
  nodup : chains.flatten.Nodup
  kept : ∀ p ∈ chains.flatten, ∀ held, read s.cells p = some held → held.pendingRemoval = false

theorem slot_lt {hash : HashValue} {capacity : Word} {i : Nat} (index : slot hash capacity = some i) :
    i < capacity.toNat := by
  rw [slot_eq] at index
  split at index
  · rename_i fits
    cases index
    rw [BitVec.toNat_umod]
    apply Nat.mod_lt
    exact toNat_pos_of_toInt (by cases hash <;> exact fits.1)
  · cases index

section Walking

variable [DecidableEq Key] {key : Key} {cells : Cells (Node Key T)}

/-- The walk finds the first node of its key, and the one before it. -/
theorem walk_spec {ps : List Nat} {head : Option Nat} (chain : Chain Node.next cells head ps) {fuel : Nat}
    (enough : ps.length ≤ fuel) (prevNode : Option Nat) :
    (walk key cells fuel prevNode head = some none ∧ ∀ p ∈ ps, ∀ held, read cells p = some held → held.key ≠ key) ∨
      ∃ before p after held, ps = before ++ p :: after ∧ read cells p = some held ∧
        walk key cells fuel prevNode head = some (some (before.getLast?.or prevNode, p, held)) ∧ held.key = key ∧
        ∀ q ∈ before, ∀ held, read cells q = some held → held.key ≠ key := by
  induction ps generalizing head fuel prevNode with
  | nil =>
    cases chain
    exact .inl ⟨by cases fuel <;> rfl, nofun⟩
  | cons first rest ih =>
    obtain ⟨rfl, held, found, later⟩ := chain
    cases fuel with
    | zero => cases enough
    | succ fuel =>
      by_cases isKey : held.key = key
      · exact .inr ⟨[], first, rest, held, rfl, found, by simp [walk, found, isKey], isKey, nofun⟩
      · have onward : walk key cells (fuel + 1) prevNode (some first) = walk key cells fuel (some first) held.next := by
          simp [walk, found, isKey]
        have other (held' : Node Key T) (found' : read cells first = some held') : held'.key ≠ key := by
          cases found.symm.trans found'
          exact isKey
        rw [onward]
        obtain ⟨absent, others⟩ | ⟨before, p, after, held', rfl, found', result, same, others⟩ :=
          ih later (Nat.le_of_succ_le_succ enough) (some first)
        · exact .inl ⟨absent, List.forall_mem_cons.mpr ⟨other, others⟩⟩
        · refine .inr ⟨first :: before, p, after, held', rfl, found', ?_, same, List.forall_mem_cons.mpr ⟨other, others⟩⟩
          rw [result]
          cases before <;> simp [List.getLast?_cons]

end Walking

section Removing

variable {s : State Key T} {chains : List (List Nat)}

/-- A node is in one chain only. -/
theorem index_unique (nodup : chains.flatten.Nodup) {i j : Nat} {ps qs : List Nat} (first : chains[i]? = some ps)
    (second : chains[j]? = some qs) {p : Nat} (inFirst : p ∈ ps) (inSecond : p ∈ qs) : i = j := by
  obtain ⟨boundFirst, rfl⟩ := List.getElem?_eq_some_iff.mp first
  obtain ⟨boundSecond, rfl⟩ := List.getElem?_eq_some_iff.mp second
  have disjoint := List.pairwise_iff_getElem.mp (List.nodup_flatten.mp nodup).2
  obtain below | same | above := Nat.lt_trichotomy i j
  · exact absurd inSecond (disjoint i j boundFirst boundSecond below inFirst)
  · exact same
  · exact absurd inFirst (disjoint j i boundSecond boundFirst above inSecond)

/-- The chains without one node. -/
def without (p : Nat) (chains : List (List Nat)) : List (List Nat) := chains.map (·.filter (· ≠ p))

theorem flatten_without (p : Nat) (chains : List (List Nat)) :
    (without p chains).flatten = chains.flatten.filter (· ≠ p) := by
  rw [without, List.filter_flatten]

theorem mem_flatten_of_getElem? {i : Nat} {ps : List Nat} (found : chains[i]? = some ps) {p : Nat} (member : p ∈ ps) :
    p ∈ chains.flatten :=
  List.mem_flatten.mpr ⟨ps, List.mem_of_getElem? found, member⟩

theorem filter_ne_of_nodup {before after : List Nat} {p : Nat} (nodup : (before ++ p :: after).Nodup) :
    (before ++ p :: after).filter (· ≠ p) = before ++ after := by
  obtain ⟨-, nodupAfter, disjoint⟩ := List.nodup_append.mp nodup
  have inBefore : ∀ q ∈ before, decide (q ≠ p) = true := by
    intro q member
    exact decide_eq_true (disjoint q member p List.mem_cons_self)
  have inAfter : ∀ q ∈ after, decide (q ≠ p) = true := by
    rintro q member
    apply decide_eq_true
    rintro rfl
    exact (List.nodup_cons.mp nodupAfter).1 member
  rw [List.filter_append, List.filter_cons_of_neg (by simp), List.filter_eq_self.mpr inBefore,
    List.filter_eq_self.mpr inAfter]

theorem filter_ne_of_not_mem {ps : List Nat} {p : Nat} (absent : p ∉ ps) : ps.filter (· ≠ p) = ps := by
  apply List.filter_eq_self.mpr
  intro q member
  apply decide_eq_true
  rintro rfl
  exact absent member

/-- The two bits of a node. -/
def bits (cells : Cells (Node Key T)) (p : Nat) : Option (Bool × Bool) :=
  (read cells p).map fun held => (held.pendingRemoval, held.busy)

theorem bits_of_read {cells : Cells (Node Key T)} {p : Nat} {held : Node Key T} (found : read cells p = some held) :
    bits cells p = some (held.pendingRemoval, held.busy) := by
  rw [bits, found, Option.map_some]

/-- A write to a node changes no bits but its own. -/
theorem bits_write {cells : Cells (Node Key T)} {p : Nat} {held : Node Key T} (found : read cells p = some held)
    (changed : Node Key T) (q : Nat) : bits (write cells p changed) q =
      if q = p then some (changed.pendingRemoval, changed.busy) else bits cells q := by
  by_cases same : q = p
  · rw [if_pos same, same]
    exact bits_of_read (read_write_self found changed)
  · rw [if_neg same, bits, bits, read_write_of_ne same]

/-- What a node holds for the table. -/
def entry (cells : Cells (Node Key T)) (p : Nat) : Option (Key × T) :=
  (read cells p).map fun held => (held.key, held.body)

/-- A change to where a node leads leaves the bits and the entries. -/
theorem bits_write_next {cells : Cells (Node Key T)} {q : Nat} {prev : Node Key T} (found : read cells q = some prev)
    (next : Option Nat) (r : Nat) : bits (write cells q { prev with next }) r = bits cells r := by
  rw [bits_write found]
  split
  · rename_i same
    rw [same, bits_of_read found]
  · rfl

theorem entry_write_next {cells : Cells (Node Key T)} {q : Nat} {prev : Node Key T} (found : read cells q = some prev)
    (next : Option Nat) (r : Nat) : entry (write cells q { prev with next }) r = entry cells r := by
  by_cases same : r = q
  · rw [same, entry, entry, read_write_self found, found, Option.map_some, Option.map_some]
  · rw [entry, entry, read_write_of_ne same]

/-- What unlinking leaves: the capacity, the bits and the entries of the nodes, the iterator, and what has happened. -/
structure Unlinked (s s' : State Key T) : Prop where
  capacity : s'.mCapacity = s.mCapacity
  bits : ∀ q, bits s'.cells q = bits s.cells q
  entries : ∀ q, entry s'.cells q = entry s.cells q
  iterator : s'.currentNode = s.currentNode ∧ s'.currentHashArrayIndex = s.currentHashArrayIndex
  log : s'.visited = s.visited ∧ s'.removed = s.removed ∧ s'.freed = s.freed

theorem Linked.kept_bits (linked : Linked s chains) {p : Nat} (member : p ∈ chains.flatten) {pending busy : Bool}
    (found : bits s.cells p = some (pending, busy)) : pending = false := by
  obtain ⟨held, same, both⟩ := Option.map_eq_some_iff.mp found
  cases both
  exact linked.kept p member held same

/-- One chain loses a node, and the others stay. -/
theorem Linked.unlink {s' : State Key T} (linked : Linked s chains) (bits : ∀ q, bits s'.cells q = bits s.cells q)
    (room : s'.mArray.length = s.mArray.length) (capacity : s'.mCapacity = s.mCapacity) {i p : Nat}
    {before after : List Nat} (here : chains[i]? = some (before ++ p :: after))
    (chain : ∀ head, s'.mArray[i]? = some head → Chain Node.next s'.cells head (before ++ after))
    (heads : ∀ j, j ≠ i → s'.mArray[j]? = s.mArray[j]?)
    (others : ∀ q, q ∉ before ++ p :: after → (read s'.cells q).map Node.next = (read s.cells q).map Node.next) :
    Linked s' (without p chains) := by
  have inChain : p ∈ before ++ p :: after := List.mem_append_right _ List.mem_cons_self
  refine ⟨?_, ?_, ?_, ?_, ?_⟩
  · rw [room, capacity, linked.room]
  · rw [room, linked.length, without, List.length_map]
  · intro j head ps atHead atChain
    rw [without, List.getElem?_map, Option.map_eq_some_iff] at atChain
    obtain ⟨qs, found, rfl⟩ := atChain
    by_cases same : j = i
    · subst same
      cases here.symm.trans found
      rw [filter_ne_of_nodup ((List.nodup_flatten.mp linked.nodup).1 _ (List.mem_of_getElem? found))]
      exact chain head atHead
    · rw [heads j same] at atHead
      rw [filter_ne_of_not_mem fun inside => same (index_unique linked.nodup found here inside inChain)]
      refine (linked.chain j head qs atHead found).frame fun q member => others q fun inside => ?_
      exact same (index_unique linked.nodup found here member inside)
  · rw [flatten_without]
    exact linked.nodup.filter _
  · intro q member held found
    rw [flatten_without] at member
    have before := bits q
    rw [bits_of_read found] at before
    exact linked.kept_bits (List.mem_filter.mp member).1 before.symm

/-- The array leads past the first node of a chain. -/
theorem Linked.unlinkFirst (linked : Linked s chains) {i p : Nat} {after : List Nat} {held : Node Key T}
    (atChain : chains[i]? = some (p :: after)) (found : read s.cells p = some held) :
    Linked { s with mArray := s.mArray.set i held.next } (without p chains) := by
  have bound : i < s.mArray.length := by
    rw [linked.length]
    exact (List.getElem?_eq_some_iff.mp atChain).1
  have grouped : chains[i]? = some ([] ++ p :: after) := atChain
  refine linked.unlink ?_ ?_ ?_ grouped ?_ ?_ ?_
  · exact fun _ => rfl
  · exact List.length_set
  · rfl
  · intro head same
    rw [List.getElem?_set_self bound, Option.some.injEq] at same
    obtain ⟨-, cell, same', later⟩ := linked.chain i _ _ (List.getElem?_eq_getElem bound) atChain
    cases found.symm.trans same'
    exact same ▸ later
  · intro j other
    exact List.getElem?_set_ne (Ne.symm other)
  · exact fun _ _ => rfl

/-- The node before it leads past a node. -/
theorem Linked.unlinkBehind (linked : Linked s chains) {front after : List Nat} {i q p : Nat} {prev held : Node Key T}
    (atChain : chains[i]? = some (front ++ q :: p :: after)) (foundPrev : read s.cells q = some prev)
    (found : read s.cells p = some held) :
    Linked { s with cells := write s.cells q { prev with next := held.next } } (without p chains) := by
  have nodup := (List.nodup_flatten.mp linked.nodup).1 _ (List.mem_of_getElem? atChain)
  obtain ⟨-, nodupRest, disjoint⟩ := List.nodup_append.mp nodup
  have regroup (rest : List Nat) : front ++ q :: rest = (front ++ [q]) ++ rest := by simp
  have grouped : chains[i]? = some ((front ++ [q]) ++ p :: after) := by rw [← regroup, atChain]
  refine linked.unlink ?_ ?_ ?_ grouped ?_ ?_ ?_
  · exact bits_write_next foundPrev _
  · rfl
  · rfl
  · intro head atHead
    rw [← regroup]
    refine (linked.chain i head _ atHead atChain).unlink found ?_ fun r inside => ?_
    · rw [read_write_self foundPrev, Option.map_some]
    rw [read_write_of_ne]
    rintro rfl
    obtain inFront | inAfter := List.mem_append.mp inside
    · exact disjoint r inFront r List.mem_cons_self rfl
    · exact (List.nodup_cons.mp nodupRest).1 (List.mem_cons_of_mem p inAfter)
  · exact fun _ _ => rfl
  · intro r outside
    rw [read_write_of_ne]
    rintro rfl
    exact outside (List.mem_append_left _ (List.mem_append_right _ List.mem_cons_self))

/-- What `remove` does with the node that it finds. -/
structure Removed (s s' : State Key T) (chains : List (List Nat)) (p : Nat) (busy : Bool) : Prop where
  member : p ∈ chains.flatten
  bits : bits s.cells p = some (false, busy)
  linked : Linked s' (without p chains)
  iterator : s'.currentNode = s.currentNode ∧ s'.currentHashArrayIndex = s.currentHashArrayIndex
  visited : s'.visited = s.visited
  removed : s'.removed = s.removed ++ [p]
  freed : s'.freed = if busy then s.freed else s.freed ++ [p]
  gone : busy = false → read s'.cells p = none
  others : ∀ q, q ≠ p → QHashNodes.bits s'.cells q = QHashNodes.bits s.cells q

/-- A change that leaves the links of the table. -/
theorem Linked.frame {s' : State Key T} (linked : Linked s chains) (capacity : s'.mCapacity = s.mCapacity)
    (array : s'.mArray = s.mArray)
    (leads : ∀ p ∈ chains.flatten, (read s'.cells p).map Node.next = (read s.cells p).map Node.next)
    (kept : ∀ p ∈ chains.flatten,
      (read s'.cells p).map Node.pendingRemoval = (read s.cells p).map Node.pendingRemoval) : Linked s' chains := by
  refine ⟨?_, ?_, ?_, linked.nodup, ?_⟩
  · rw [array, capacity, linked.room]
  · rw [array, linked.length]
  · intro i head ps atHead atChain
    rw [array] at atHead
    exact (linked.chain i head ps atHead atChain).frame fun p member => leads p (mem_flatten_of_getElem? atChain member)
  · intro p member held found
    have before := kept p member
    rw [found, Option.map_some] at before
    obtain ⟨held', found', same⟩ := Option.map_eq_some_iff.mp before.symm
    rw [← same]
    exact linked.kept p member held' found'

/-- A write to, or the release of, a node that is not in the table. -/
theorem Linked.outside {s' : State Key T} (linked : Linked s chains) (capacity : s'.mCapacity = s.mCapacity)
    (array : s'.mArray = s.mArray) {p : Nat} (absent : p ∉ chains.flatten)
    (same : ∀ q, q ≠ p → read s'.cells q = read s.cells q) : Linked s' chains := by
  have kept (q : Nat) (member : q ∈ chains.flatten) : read s'.cells q = read s.cells q :=
    same q fun isP => absent (isP ▸ member)
  exact linked.frame capacity array (fun q member => by rw [kept q member]) fun q member => by rw [kept q member]

theorem Linked.exists_read (linked : Linked s chains) {p : Nat} (member : p ∈ chains.flatten) :
    ∃ held, read s.cells p = some held ∧ held.pendingRemoval = false := by
  obtain ⟨ps, inside, inChain⟩ := List.mem_flatten.mp member
  obtain ⟨i, bound, rfl⟩ := List.mem_iff_getElem.mp inside
  have inArray : i < s.mArray.length := linked.length ▸ bound
  obtain ⟨held, found⟩ := (linked.chain i _ _ (List.getElem?_eq_getElem inArray)
    (List.getElem?_eq_getElem bound)).read_of_mem inChain
  exact ⟨held, found, linked.kept p member held found⟩

theorem not_mem_without (p : Nat) (chains : List (List Nat)) : p ∉ (without p chains).flatten := by
  rw [flatten_without]
  intro member
  exact of_decide_eq_true (List.mem_filter.mp member).2 rfl

section Unlinking

variable [DecidableEq Key] {qHash : Key → HashValue} {key : Key} {i : Nat}

/-- What a look for a key finds: nothing, or the first node of the key in its chain. -/
def IsFirst (cells : Cells (Node Key T)) (ps : List Nat) (key : Key) : Option Nat → Prop
  | none => ∀ q ∈ ps, ∀ held, read cells q = some held → held.key ≠ key
  | some p => ∃ before after held, ps = before ++ p :: after ∧ read cells p = some held ∧ held.key = key ∧
      ∀ q ∈ before, ∀ held, read cells q = some held → held.key ≠ key

/-- A key that is not in the table leaves it alone; otherwise the node that `node` finds is unlinked. -/
theorem removeFromTable_spec (linked : Linked s chains) (index : slot (qHash key) s.mCapacity = some i) :
    ∃ ps, chains[i]? = some ps ∧
      ((node qHash s key = some none ∧ removeFromTable qHash s key = some (none, s) ∧ IsFirst s.cells ps key none) ∨
        ∃ p s', node qHash s key = some (some p) ∧ removeFromTable qHash s key = some (some p, s') ∧
          p ∈ ps ∧ Linked s' (without p chains) ∧ Unlinked s s' ∧ IsFirst s.cells ps key (some p)) := by
  have bound : i < s.mArray.length := by
    rw [linked.room]
    exact slot_lt index
  obtain ⟨head, atHead⟩ : ∃ head, s.mArray[i]? = some head := ⟨_, List.getElem?_eq_getElem bound⟩
  obtain ⟨ps, atChain⟩ : ∃ ps, chains[i]? = some ps := ⟨_, List.getElem?_eq_getElem (linked.length ▸ bound)⟩
  have chain := linked.chain i head ps atHead atChain
  have nodup := (List.nodup_flatten.mp linked.nodup).1 ps (List.mem_of_getElem? atChain)
  refine ⟨ps, atChain, ?_⟩
  obtain ⟨absent, others⟩ | ⟨before, p, after, held, rfl, found, result, isKey, others⟩ :=
    @walk_spec _ _ _ key _ _ _ chain _ (chain.length_le nodup) none
  · exact .inl ⟨by simp [node, index, atHead, absent], by simp [removeFromTable, index, atHead, absent], others⟩
  right
  have member := List.mem_append_right before (@List.mem_cons_self _ p after)
  have first : IsFirst s.cells (before ++ p :: after) key (some p) := ⟨before, after, held, rfl, found, isKey, others⟩
  obtain rfl | ⟨front, q, rfl⟩ := List.eq_nil_or_concat' before
  · -- the first node of its chain
    refine ⟨p, { s with mArray := s.mArray.set i held.next }, ?_, ?_, member, linked.unlinkFirst atChain found,
      ⟨rfl, fun _ => rfl, fun _ => rfl, ⟨rfl, rfl⟩, rfl, rfl, rfl⟩, first⟩
    · simp [node, index, atHead, result]
    · simp [removeFromTable, index, atHead, result]
  · -- the node before it leads past it
    have atChain' : chains[i]? = some (front ++ q :: p :: after) := by simpa using atChain
    obtain ⟨prev, foundPrev, -⟩ := (linked.chain i head _ atHead atChain').split
    refine ⟨p, { s with cells := write s.cells q { prev with next := held.next } }, ?_, ?_, member,
      linked.unlinkBehind atChain' foundPrev found,
      ⟨rfl, bits_write_next foundPrev _, entry_write_next foundPrev _, ⟨rfl, rfl⟩, rfl, rfl, rfl⟩, first⟩
    · simp [node, index, atHead, result]
    · simp [removeFromTable, index, atHead, result, foundPrev]

/-- The table that the nodes in memory make up. -/
structure Holds (s : State Key T) (chains : List (List Nat)) (h : QHash Key T) : Prop where
  capacity : h.mCapacity = s.mCapacity
  array : h.mArray = chains.map (·.filterMap (entry s.cells))

omit [DecidableEq Key] in
theorem Holds.chain_eq {h : QHash Key T} (holds : Holds s chains h) {ps : List Nat} (here : chains[i]? = some ps) :
    h.chain i = ps.filterMap (entry s.cells) := by
  rw [QHash.chain, List.getD_eq_getElem?_getD, holds.array, List.getElem?_map, here]
  rfl

/-- The entries up to the first node of a key are those of other keys. -/
theorem key_ne_of_others {cells : Cells (Node Key T)} {ps : List Nat}
    (others : ∀ q ∈ ps, ∀ held, read cells q = some held → held.key ≠ key) :
    ∀ node ∈ ps.filterMap (entry cells), ¬ decide (node.1 = key) = true := by
  intro node member
  obtain ⟨q, inside, found⟩ := List.mem_filterMap.mp member
  obtain ⟨held, same, rfl⟩ := Option.map_eq_some_iff.mp found
  simpa using others q inside held same

/-- In the entries of a chain, the first node of a key is the one that is found and erased. -/
theorem IsFirst.entries {cells : Cells (Node Key T)} {ps : List Nat} {found : Option Nat} (nodup : ps.Nodup)
    (first : IsFirst cells ps key found) :
    ((ps.filterMap (entry cells)).find? (·.1 = key)).map Prod.snd =
        found.bind (fun p => (entry cells p).map Prod.snd) ∧
      (ps.filterMap (entry cells)).eraseP (·.1 = key) = (ps.filter (some · ≠ found)).filterMap (entry cells) := by
  cases found with
  | none =>
    have absent := key_ne_of_others first
    rw [List.find?_eq_none.mpr absent, List.eraseP_of_forall_not absent]
    simp
  | some p =>
    obtain ⟨before, after, held, rfl, found, isKey, others⟩ := first
    have absent := key_ne_of_others others
    have entryP : entry cells p = some (held.key, held.body) := by rw [entry, found, Option.map_some]
    have rest : (before ++ p :: after).filter (some · ≠ some p) = before ++ after := by
      simpa only [ne_eq, Option.some.injEq] using filter_ne_of_nodup nodup
    rw [rest, List.filterMap_append, List.filterMap_append, List.filterMap_cons_some entryP]
    constructor
    · rw [List.find?_append, List.find?_eq_none.mpr absent, Option.none_or]
      simp [isKey, entryP]
    · rw [List.eraseP_append_right _ absent]
      simp [isKey]

/-- Erasing an entry from its chain is taking its node from the chains. -/
theorem Holds.erase {h : QHash Key T} (linked : Linked s chains) (holds : Holds s chains h) {ps : List Nat}
    (here : chains[i]? = some ps) {found : Option Nat} (first : IsFirst s.cells ps key found) :
    h.mArray.modify i (·.eraseP (·.1 = key)) =
      (chains.map (·.filter (some · ≠ found))).map (·.filterMap (entry s.cells)) := by
  rw [holds.array]
  apply List.ext_getElem?
  intro j
  rw [List.getElem?_modify, List.getElem?_map, List.getElem?_map, List.getElem?_map]
  by_cases same : i = j
  · subst same
    have nodup := (List.nodup_flatten.mp linked.nodup).1 ps (List.mem_of_getElem? here)
    simpa [here] using (first.entries nodup).2
  · cases there : chains[j]? with
    | none => rfl
    | some qs =>
      have kept : qs.filter (some · ≠ found) = qs := by
        cases found with
        | none => simp
        | some p =>
          obtain ⟨before, after, held, rfl, -⟩ := first
          have inChain := List.mem_append_right before (@List.mem_cons_self _ p after)
          simpa only [ne_eq, Option.some.injEq] using
            filter_ne_of_not_mem fun inside => same (index_unique linked.nodup here there inChain inside)
      simp only [Option.map_some, Option.map_eq_map, if_neg same, kept]

/-- Unlinking a node in memory is the removal of its entry from the table. -/
theorem removeFromTable_holds {h : QHash Key T} (linked : Linked s chains) (holds : Holds s chains h)
    (index : slot (qHash key) s.mCapacity = some i) {s' : State Key T} {found : Option Nat}
    (done : removeFromTable qHash s key = some (found, s')) :
    ∃ chains' h', Linked s' chains' ∧ Holds s' chains' h' ∧ QHash.removeFromTable qHash h key =
      some (found.bind (fun p => (entry s.cells p).map Prod.snd), h') := by
  obtain ⟨ps, atChain, cases⟩ := removeFromTable_spec linked index
  have nodup := (List.nodup_flatten.mp linked.nodup).1 ps (List.mem_of_getElem? atChain)
  have removal (first : IsFirst s.cells ps key found) : QHash.removeFromTable qHash h key =
      some (found.bind (fun p => (entry s.cells p).map Prod.snd),
        { h with mArray := h.mArray.modify i (·.eraseP (·.1 = key)) }) := by
    simp [QHash.removeFromTable, holds.capacity, index, holds.chain_eq atChain, ← (first.entries nodup).1]
  obtain ⟨-, same, first⟩ | ⟨p, s₁, -, same, inChain, after, keeps, first⟩ := cases
  · cases same.symm.trans done
    refine ⟨chains, { h with mArray := h.mArray.modify i (·.eraseP (·.1 = key)) }, linked, ⟨holds.capacity, ?_⟩,
      removal first⟩
    simpa using holds.erase linked atChain first
  · cases same.symm.trans done
    refine ⟨without p chains, { h with mArray := h.mArray.modify i (·.eraseP (·.1 = key)) }, after,
      ⟨holds.capacity.trans keeps.capacity.symm, ?_⟩, removal first⟩
    simp only [holds.erase linked atChain first, funext keeps.entries, without, ne_eq, Option.some.injEq]

theorem remove_spec (linked : Linked s chains) (index : slot (qHash key) s.mCapacity = some i) :
    (node qHash s key = some none ∧ remove qHash s key = some s) ∨
      ∃ p busy s', node qHash s key = some (some p) ∧ remove qHash s key = some s' ∧ Removed s s' chains p busy := by
  obtain ⟨ps, atChain, ⟨absent, same, -⟩ | ⟨p, s₁, found, unlinked, inChain, after, keeps, -⟩⟩ :=
    removeFromTable_spec linked index
  · exact .inl ⟨absent, by simp [remove, same]⟩
  right
  have member := mem_flatten_of_getElem? atChain inChain
  obtain ⟨old, foundOld, notPending⟩ := linked.exists_read member
  have bitsOld := bits_of_read foundOld
  obtain ⟨held, foundHeld, same⟩ := Option.map_eq_some_iff.mp ((keeps.bits p).trans bitsOld)
  obtain ⟨pending, busy⟩ := Prod.mk.inj same
  rw [notPending, ← busy] at bitsOld
  have outside := not_mem_without p chains
  cases marked : held.busy with
  | true =>
    refine ⟨p, true, { s₁ with
      removed := s₁.removed ++ [p], cells := write s₁.cells p { held with pendingRemoval := true } }, found, ?_, ?_⟩
    · simp [remove, unlinked, foundHeld, marked]
    · refine ⟨member, marked ▸ bitsOld, ?_, keeps.iterator, keeps.log.1, ?_, keeps.log.2.2, nofun, ?_⟩
      · exact after.outside rfl rfl outside fun q other => read_write_of_ne other _
      · simp only [keeps.log.2.1]
      · intro q other
        rw [bits_write foundHeld, if_neg other, keeps.bits]
  | false =>
    refine ⟨p, false, { s₁ with
      removed := s₁.removed ++ [p], cells := free s₁.cells p, freed := s₁.freed ++ [p] }, found, ?_, ?_⟩
    · simp [remove, unlinked, foundHeld, marked, delete]
    · refine ⟨member, marked ▸ bitsOld, ?_, keeps.iterator, keeps.log.1, ?_, ?_, fun _ => read_free_self _ _, ?_⟩
      · exact after.outside rfl rfl outside fun q other => read_free_of_ne other
      · simp only [keeps.log.2.1]
      · simp [keeps.log.2.2]
      · intro q other
        rw [bits, read_free_of_ne other]
        exact keeps.bits q

theorem remove_eq_none (outside : slot (qHash key) s.mCapacity = none) : remove qHash s key = none := by
  simp [remove, removeFromTable, outside]

end Unlinking
end Removing

section Iterating

variable {s s' : State Key T} {chains : List (List Nat)} {c i : Nat}

theorem mArray_eq (linked : Linked s chains) : s.mArray = chains.map List.head? := by
  apply List.ext_getElem (by rw [List.length_map, linked.length])
  intro i bound _
  have inside : i < chains.length := linked.length ▸ bound
  rw [List.getElem_map]
  exact (linked.chain i _ _ (List.getElem?_eq_getElem bound) (List.getElem?_eq_getElem inside)).head_eq

/-- The next node after the end of a chain is the first of those behind it. -/
theorem firstChain_spec (i : Nat) (chains : List (List Nat)) :
    (firstChain i (chains.map List.head?) = none ∧ chains.flatten = []) ∨
      ∃ front p rest back, chains = front ++ (p :: rest) :: back ∧ front.flatten = [] ∧
        firstChain i (chains.map List.head?) = some (i + front.length, p) := by
  induction chains generalizing i with
  | nil => exact .inl ⟨rfl, rfl⟩
  | cons first later ih =>
    cases first with
    | cons p rest => exact .inr ⟨[], p, rest, later, rfl, rfl, rfl⟩
    | nil =>
      obtain ⟨none, empty⟩ | ⟨front, p, rest, back, rfl, empty, some⟩ := ih (i + 1)
      · exact .inl ⟨none, empty⟩
      · refine .inr ⟨[] :: front, p, rest, back, rfl, empty, ?_⟩
        rw [List.length_cons, Nat.add_comm front.length, ← Nat.add_assoc]
        exact some

theorem arrive_eq (i : Nat) {p : Nat} {held : Node Key T} (found : read s.cells p = some held) :
    arrive s i p = some { s with
      cells := write s.cells p { held with busy := true }, currentHashArrayIndex := i, currentNode := some p,
      visited := s.visited ++ [p] } := by
  simp [arrive, found]

theorem arrive_some {p : Nat} (done : arrive s i p = some s') : ∃ held, read s.cells p = some held ∧
    s' = { s with
      cells := write s.cells p { held with busy := true }, currentHashArrayIndex := i, currentNode := some p,
      visited := s.visited ++ [p] } := by
  obtain ⟨held, found, result⟩ := Option.bind_eq_some_iff.mp done
  cases result
  exact ⟨held, found, rfl⟩

/-- A mark leaves the links. -/
theorem Linked.mark (linked : Linked s chains) (capacity : s'.mCapacity = s.mCapacity) (array : s'.mArray = s.mArray)
    {p : Nat} {held : Node Key T} (found : read s.cells p = some held) {busy : Bool}
    (cells : s'.cells = write s.cells p { held with busy := busy }) : Linked s' chains := by
  refine linked.frame capacity array (fun q _ => ?_) fun q _ => ?_
  · by_cases same : q = p
    · rw [cells, same, read_write_self found, found, Option.map_some, Option.map_some]
    · rw [cells, read_write_of_ne same]
  · by_cases same : q = p
    · rw [cells, same, read_write_self found, found, Option.map_some, Option.map_some]
    · rw [cells, read_write_of_ne same]

theorem Linked.arrive {p : Nat} (linked : Linked s chains) (done : QHashNodes.arrive s i p = some s') :
    Linked s' chains := by
  obtain ⟨held, found, rfl⟩ := arrive_some done
  exact linked.mark rfl rfl found rfl

/-- The node that `operator++` leaves is no longer busy. -/
def unmarked (s : State Key T) (c : Nat) (held : Node Key T) : State Key T :=
  { s with cells := write s.cells c { held with busy := false } }

theorem Linked.unmarked (linked : Linked s chains) {held : Node Key T} (found : read s.cells c = some held) :
    Linked (unmarked s c held) chains :=
  linked.mark rfl rfl found rfl

/-- Where `operator++` may go on to. -/
theorem advance_eq {held : Node Key T} (current : s.currentNode = some c) (found : read s.cells c = some held) :
    advance s =
      match held.next with
      | some next => if held.pendingRemoval then none else arrive (unmarked s c held) s.currentHashArrayIndex next
      | none =>
        match firstChain (s.currentHashArrayIndex + 1) (s.mArray.drop (s.currentHashArrayIndex + 1)) with
        | some (i, p) => arrive (unmarked s c held) i p
        | none => some { unmarked s c held with currentHashArrayIndex := s.mArray.length - 1, currentNode := none } := by
  unfold unmarked
  have again := read_write_self found { held with busy := false }
  cases leads : held.next with
  | none =>
    simp only [advance, current, found, Option.bind_eq_bind, Option.bind_some, leads]
    rfl
  | some next =>
    rw [leads] at again
    cases pending : held.pendingRemoval with
    | true =>
      -- the node is freed, and then asked where it leads
      rw [pending] at again
      simp [advance, current, found, leads, pending, delete, again, read_free_self]
    | false =>
      rw [pending] at again
      simp [advance, current, found, leads, pending, again]

/-- A step to the next node that has a result has freed nothing. -/
theorem Linked.advance (linked : Linked s chains) (done : QHashNodes.advance s = some s') :
    Linked s' chains ∧ s'.removed = s.removed ∧ s'.freed = s.freed := by
  cases current : s.currentNode with
  | none =>
    simp only [QHashNodes.advance, current, Option.some.injEq] at done
    subst done
    exact ⟨linked, rfl, rfl⟩
  | some c =>
    cases found : read s.cells c with
    | none => simp [QHashNodes.advance, current, found] at done
    | some held =>
      have left := linked.unmarked found
      rw [advance_eq current found] at done
      split at done
      · split at done
        · cases done
        · obtain ⟨_, _, rfl⟩ := arrive_some done
          exact ⟨left.arrive done, rfl, rfl⟩
      · split at done
        · obtain ⟨_, _, rfl⟩ := arrive_some done
          exact ⟨left.arrive done, rfl, rfl⟩
        · cases done
          exact ⟨left.frame rfl rfl (fun _ _ => rfl) fun _ _ => rfl, rfl, rfl⟩

end Iterating
end FluxOS.QHashNodes
