import Mathlib.Data.List.GetD
import Mathlib.Data.List.Nodup
import FluxOS.Words

/-! `QHash`: an array of chains of nodes. `rehash` moves every node to the end of
its new chain; `remove` does not lower `m_size`, which decides when the array doubles. -/
namespace FluxOS
open Words

structure QHash (Key T : Type) where
  mSize : Word
  mCapacity : Word
  mArray : List (List (Key × T))

namespace QHash

variable {Key T : Type}

def defaultCapacity : Word := 2#32

def init (capacity : Word) : QHash Key T := ⟨0#32, capacity, List.replicate capacity.toNat []⟩

/-- The chain that begins at an index of the array. -/
def chain (h : QHash Key T) (i : Nat) : List (Key × T) := h.mArray.getD i []

/-- All nodes, chain after chain. -/
def nodes (h : QHash Key T) : List (Key × T) := h.mArray.flatten

/-- The chain with the body of the first node of that key replaced. -/
def setBody [DecidableEq Key] (key : Key) (value : T) : List (Key × T) → List (Key × T)
  | [] => []
  | node :: rest => if node.1 = key then (node.1, value) :: rest else node :: setBody key value rest

section Operations

variable (qHash : Key → Word)

def toArrayIndex (key : Key) (capacity : Word) : Nat := (qHash key % capacity).toNat

def rehash (h : QHash Key T) (array : List (List (Key × T))) (capacity : Word) : List (List (Key × T)) :=
  h.nodes.foldl (fun array node => array.modify (toArrayIndex qHash node.1 capacity) (· ++ [node])) array

def reserve (h : QHash Key T) (newCapacity : Word) : QHash Key T :=
  ⟨h.mSize, newCapacity, rehash qHash h (List.replicate newCapacity.toNat []) newCapacity⟩

/-- Every node is in the chain its key hashes to, once. -/
structure Placed (h : QHash Key T) : Prop where
  array : h.mArray.length = h.mCapacity.toNat
  positive : 0 < h.mCapacity.toNat
  placed : ∀ i, ∀ node ∈ h.chain i, toArrayIndex qHash node.1 h.mCapacity = i
  unique : ∀ i, ((h.chain i).map Prod.fst).Nodup

variable [DecidableEq Key]

/-- `value`, where no node gives a null pointer. -/
def value (h : QHash Key T) (key : Key) : Option T :=
  ((h.chain (toArrayIndex qHash key h.mCapacity)).find? (·.1 = key)).map Prod.snd

def insert (h : QHash Key T) (key : Key) (value : T) : QHash Key T :=
  let h := if h.mSize = h.mCapacity then reserve qHash h (h.mCapacity * 2#32) else h
  let i := toArrayIndex qHash key h.mCapacity
  if key ∈ (h.chain i).map Prod.fst then { h with mArray := h.mArray.modify i (setBody key value) }
  else { h with mArray := h.mArray.modify i (· ++ [(key, value)]), mSize := h.mSize + 1#32 }

def remove (h : QHash Key T) (key : Key) : QHash Key T :=
  { h with mArray := h.mArray.modify (toArrayIndex qHash key h.mCapacity) (·.eraseP (·.1 = key)) }

end Operations

theorem mem_nodes {h : QHash Key T} {node : Key × T} : node ∈ h.nodes ↔ ∃ i, node ∈ h.chain i := by
  unfold nodes chain
  rw [List.mem_flatten]
  constructor
  · rintro ⟨chain, member, inside⟩
    obtain ⟨i, bound, rfl⟩ := List.mem_iff_getElem.mp member
    exact ⟨i, by rwa [List.getD_eq_getElem _ _ bound]⟩
  · rintro ⟨i, inside⟩
    by_cases bound : i < h.mArray.length
    · rw [List.getD_eq_getElem _ _ bound] at inside
      exact ⟨_, List.getElem_mem bound, inside⟩
    · rw [List.getD_eq_default _ _ (Nat.le_of_not_lt bound)] at inside
      cases inside

/-- A key has a chain in any array that is not empty. -/
theorem toArrayIndex_lt {Key : Type} (qHash : Key → Word) (key : Key) {capacity : Word} (positive : 0 < capacity.toNat) :
    toArrayIndex qHash key capacity < capacity.toNat := by
  unfold toArrayIndex
  rw [BitVec.toNat_umod]
  exact Nat.mod_lt _ positive

section Placing

variable {qHash : Key → Word} {h : QHash Key T} {key : Key}

theorem Placed.mem_nodes_iff (placed : Placed qHash h) {node : Key × T} :
    node ∈ h.nodes ↔ node ∈ h.chain (toArrayIndex qHash node.1 h.mCapacity) := by
  rw [mem_nodes]
  constructor
  · rintro ⟨i, inside⟩
    rwa [placed.placed i node inside]
  · exact fun inside => ⟨_, inside⟩

/-- Distinct keys over the whole table. -/
theorem Placed.nodup_keys (placed : Placed qHash h) : (h.nodes.map Prod.fst).Nodup := by
  unfold nodes
  rw [List.map_flatten, List.nodup_flatten]
  constructor
  · intro keys member
    obtain ⟨chain, inside, rfl⟩ := List.mem_map.mp member
    obtain ⟨i, bound, rfl⟩ := List.mem_iff_getElem.mp inside
    have unique := placed.unique i
    rwa [chain, List.getD_eq_getElem _ _ bound] at unique
  · rw [List.pairwise_map, List.pairwise_iff_getElem]
    intro i j first second below key left right
    obtain ⟨node, inLeft, rfl⟩ := List.mem_map.mp left
    obtain ⟨other, inRight, same⟩ := List.mem_map.mp right
    have here := placed.placed i node (by rwa [chain, List.getD_eq_getElem _ _ first])
    have there := placed.placed j other (by rwa [chain, List.getD_eq_getElem _ _ second])
    rw [same, here] at there
    omega

/-- The array read chain by chain. -/
theorem Placed.map_chain (placed : Placed qHash h) : (List.range h.mCapacity.toNat).map h.chain = h.mArray := by
  rw [← placed.array]
  apply List.ext_getElem (by simp)
  intro i _ bound
  simp [chain, bound]

/-- Changing one chain. -/
theorem chain_modify (h : QHash Key T) {i : Nat} (bound : i < h.mArray.length)
    (change : List (Key × T) → List (Key × T)) (size : Word) (j : Nat) :
    chain ⟨size, h.mCapacity, h.mArray.modify i change⟩ j = if j = i then change (h.chain i) else h.chain j := by
  unfold chain
  simp only [List.getD_eq_getElem?_getD, List.getElem?_modify]
  by_cases same : j = i
  · subst same
    simp [List.getElem?_eq_getElem bound]
  · simp [same, Ne.symm same]

/-- A changed chain may hold its key's nodes anew, as long as it holds each key once. -/
theorem Placed.modify (placed : Placed qHash h) (key : Key) {change : List (Key × T) → List (Key × T)} (size : Word)
    (inside : ∀ node ∈ change (h.chain (toArrayIndex qHash key h.mCapacity)),
      node.1 = key ∨ node ∈ h.chain (toArrayIndex qHash key h.mCapacity))
    (unique : ((change (h.chain (toArrayIndex qHash key h.mCapacity))).map Prod.fst).Nodup) :
    Placed qHash ⟨size, h.mCapacity, h.mArray.modify (toArrayIndex qHash key h.mCapacity) change⟩ := by
  have bound : toArrayIndex qHash key h.mCapacity < h.mArray.length := by
    rw [placed.array]
    exact toArrayIndex_lt qHash key placed.positive
  refine ⟨?_, placed.positive, fun i node member => ?_, fun i => ?_⟩
  · rw [List.length_modify]
    exact placed.array
  · rw [chain_modify h bound] at member
    split at member
    · rename_i same
      rw [same]
      obtain isKey | before := inside node member
      · rw [isKey]
      · exact placed.placed _ node before
    · exact placed.placed i node member
  · rw [chain_modify h bound]
    split
    · exact unique
    · exact placed.unique i

/-- The nodes after one chain was changed. -/
theorem Placed.mem_modify (placed : Placed qHash h) (key : Key) (change : List (Key × T) → List (Key × T)) (size : Word)
    (kept : Placed qHash ⟨size, h.mCapacity, h.mArray.modify (toArrayIndex qHash key h.mCapacity) change⟩)
    (node : Key × T) :
    node ∈ nodes ⟨size, h.mCapacity, h.mArray.modify (toArrayIndex qHash key h.mCapacity) change⟩ ↔
      if toArrayIndex qHash node.1 h.mCapacity = toArrayIndex qHash key h.mCapacity
      then node ∈ change (h.chain (toArrayIndex qHash key h.mCapacity)) else node ∈ h.nodes := by
  have bound : toArrayIndex qHash key h.mCapacity < h.mArray.length := by
    rw [placed.array]
    exact toArrayIndex_lt qHash key placed.positive
  rw [kept.mem_nodes_iff, chain_modify h bound]
  split
  · rfl
  · rw [placed.mem_nodes_iff]

/-- Nodes that are put one after the other at the ends of their chains. -/
theorem foldl_place (index : Key → Nat) (nodes : List (Key × T)) (array : List (List (Key × T)))
    (bound : ∀ key, index key < array.length) :
    (nodes.foldl (fun array node => array.modify (index node.1) (· ++ [node])) array).length = array.length ∧
      ∀ j, (nodes.foldl (fun array node => array.modify (index node.1) (· ++ [node])) array).getD j [] =
        array.getD j [] ++ nodes.filter (index ·.1 = j) := by
  induction nodes generalizing array with
  | nil => simp
  | cons node rest ih =>
    obtain ⟨length, chains⟩ := ih (array.modify (index node.1) (· ++ [node])) (by simpa using bound)
    refine ⟨by simpa using length, fun j => ?_⟩
    rw [List.foldl_cons, chains]
    simp only [List.getD_eq_getElem?_getD, List.getElem?_modify]
    by_cases here : index node.1 = j
    · subst here
      rw [List.filter_cons_of_pos (by simp)]
      simp [List.getElem?_eq_getElem (bound node.1)]
    · rw [List.filter_cons_of_neg (by simpa using here)]
      simp [here]

theorem chain_reserve (h : QHash Key T) {newCapacity : Word} (positive : 0 < newCapacity.toNat) (j : Nat) :
    (h.reserve qHash newCapacity).chain j = h.nodes.filter (toArrayIndex qHash ·.1 newCapacity = j) := by
  have placed := foldl_place (fun key => toArrayIndex qHash key newCapacity) h.nodes
    (List.replicate newCapacity.toNat []) (fun key => by
      rw [List.length_replicate]
      exact toArrayIndex_lt qHash key positive)
  have empty : (List.replicate newCapacity.toNat ([] : List (Key × T))).getD j [] = [] := by
    rw [List.getD_eq_getElem?_getD, List.getElem?_replicate]
    split <;> rfl
  exact (placed.2 j).trans (by rw [empty, List.nil_append])

/-- An array that is made anew has each node in its chain, whatever the old one was like. -/
theorem placed_reserve {h : QHash Key T} (unique : (h.nodes.map Prod.fst).Nodup) {newCapacity : Word}
    (positive : 0 < newCapacity.toNat) : Placed qHash (h.reserve qHash newCapacity) ∧
      ∀ node, node ∈ (h.reserve qHash newCapacity).nodes ↔ node ∈ h.nodes := by
  have kept : Placed qHash (h.reserve qHash newCapacity) := by
    refine ⟨?_, positive, fun i node member => ?_, fun i => ?_⟩
    · have length := (foldl_place (fun key => toArrayIndex qHash key newCapacity) h.nodes
        (List.replicate newCapacity.toNat []) (fun key => by
          rw [List.length_replicate]
          exact toArrayIndex_lt qHash key positive)).1
      rwa [List.length_replicate] at length
    · rw [chain_reserve h positive] at member
      exact of_decide_eq_true (List.mem_filter.mp member).2
    · rw [chain_reserve h positive]
      exact (List.filter_sublist.map Prod.fst).nodup unique
  refine ⟨kept, fun node => ?_⟩
  rw [kept.mem_nodes_iff, chain_reserve h positive]
  simp [QHash.reserve]

/-- Doubling or shrinking the array moves the nodes and loses none. -/
theorem Placed.reserve (placed : Placed qHash h) {newCapacity : Word} (positive : 0 < newCapacity.toNat) :
    Placed qHash (h.reserve qHash newCapacity) ∧ ∀ node, node ∈ (h.reserve qHash newCapacity).nodes ↔ node ∈ h.nodes :=
  placed_reserve placed.nodup_keys positive

theorem placed_init {capacity : Word} (positive : 0 < capacity.toNat) :
    Placed qHash (init capacity : QHash Key T) ∧ (init capacity : QHash Key T).nodes = [] := by
  have empty (i : Nat) : (init capacity : QHash Key T).chain i = [] := by
    simp only [init, chain, List.getD_eq_getElem?_getD, List.getElem?_replicate]
    split <;> rfl
  refine ⟨⟨List.length_replicate, positive, fun i node member => ?_, fun i => ?_⟩, ?_⟩
  · rw [empty] at member
    cases member
  · rw [empty]
    exact List.nodup_nil
  · rw [List.eq_nil_iff_forall_not_mem]
    intro node member
    obtain ⟨i, inside⟩ := mem_nodes.mp member
    rw [empty] at inside
    cases inside

variable [DecidableEq Key]

/-- Among distinct keys, finding a key finds its node. -/
theorem find_eq_some_iff {nodes : List (Key × T)} (unique : (nodes.map Prod.fst).Nodup) {value : T} :
    (nodes.find? (·.1 = key)).map Prod.snd = some value ↔ (key, value) ∈ nodes := by
  induction nodes with
  | nil => simp
  | cons node rest ih =>
    rw [List.map_cons, List.nodup_cons] at unique
    by_cases same : node.1 = key
    · rw [List.find?_cons_of_pos (by simpa using same), Option.map_some, Option.some.injEq, List.mem_cons]
      constructor
      · rintro rfl
        exact .inl (by rw [← same])
      · rintro (first | later)
        · rw [← first]
        · exact absurd (List.mem_map.mpr ⟨_, later, same.symm⟩) unique.1
    · rw [List.find?_cons_of_neg (by simpa using same), ih unique.2, List.mem_cons]
      refine ⟨.inr, fun either => either.resolve_left ?_⟩
      rintro rfl
      exact same rfl

theorem Placed.value_eq_some_iff (placed : Placed qHash h) {value : T} :
    h.value qHash key = some value ↔ (key, value) ∈ h.nodes := by
  rw [placed.mem_nodes_iff]
  exact find_eq_some_iff (placed.unique _)

/-- The only node of a key is the one that is unlinked. -/
theorem mem_eraseP_iff {nodes : List (Key × T)} (unique : (nodes.map Prod.fst).Nodup) {node : Key × T} :
    node ∈ nodes.eraseP (·.1 = key) ↔ node.1 ≠ key ∧ node ∈ nodes := by
  induction nodes with
  | nil => simp
  | cons first rest ih =>
    rw [List.map_cons, List.nodup_cons] at unique
    by_cases same : first.1 = key
    · rw [List.eraseP_cons_of_pos (by simpa using same), List.mem_cons]
      constructor
      · intro member
        refine ⟨fun isKey => unique.1 (List.mem_map.mpr ⟨node, member, isKey.trans same.symm⟩), .inr member⟩
      · rintro ⟨other, rfl | member⟩
        · exact absurd same other
        · exact member
    · rw [List.eraseP_cons_of_neg (by simpa using same), List.mem_cons, List.mem_cons, ih unique.2]
      constructor
      · rintro (rfl | ⟨other, member⟩)
        · exact ⟨same, .inl rfl⟩
        · exact ⟨other, .inr member⟩
      · rintro ⟨other, rfl | member⟩
        · exact .inl rfl
        · exact .inr ⟨other, member⟩

theorem Placed.remove (placed : Placed qHash h) (key : Key) :
    Placed qHash (h.remove qHash key) ∧ ∀ node, node ∈ (h.remove qHash key).nodes ↔ node.1 ≠ key ∧ node ∈ h.nodes := by
  have kept : Placed qHash (h.remove qHash key) := by
    refine placed.modify key h.mSize (fun node member => ?_) ?_
    · exact .inr (List.mem_of_mem_eraseP member)
    · exact (List.eraseP_sublist.map Prod.fst).nodup (placed.unique _)
  refine ⟨kept, fun node => ?_⟩
  rw [show node ∈ (h.remove qHash key).nodes ↔ _ from placed.mem_modify key _ h.mSize kept node]
  split
  · rename_i same
    rw [mem_eraseP_iff (placed.unique _), placed.mem_nodes_iff, same]
  · rename_i other
    exact ⟨fun member => ⟨fun same => other (by rw [same]), member⟩, And.right⟩

/-- A table with the same nodes has the same values. -/
theorem Placed.value_of_same {other : Key → Word} {h' : QHash Key T} (placed : Placed qHash h) (kept : Placed other h')
    (same : ∀ node, node ∈ h'.nodes ↔ node ∈ h.nodes) (key : Key) : h'.value other key = h.value qHash key := by
  apply Option.ext
  intro found
  rw [kept.value_eq_some_iff, same, placed.value_eq_some_iff]

theorem map_fst_setBody (key : Key) (value : T) (nodes : List (Key × T)) :
    (setBody key value nodes).map Prod.fst = nodes.map Prod.fst := by
  induction nodes with
  | nil => rfl
  | cons first rest ih =>
    unfold setBody
    split
    · rfl
    · rw [List.map_cons, List.map_cons, ih]

theorem mem_setBody {value : T} {node : Key × T} {nodes : List (Key × T)} (member : node ∈ setBody key value nodes) :
    node.1 = key ∨ node ∈ nodes := by
  induction nodes with
  | nil => cases member
  | cons first rest ih =>
    unfold setBody at member
    split at member
    · rename_i same
      obtain rfl | later := List.mem_cons.mp member
      · exact .inl same
      · exact .inr (List.mem_cons_of_mem _ later)
    · obtain rfl | later := List.mem_cons.mp member
      · exact .inr List.mem_cons_self
      · exact (ih later).imp_right (List.mem_cons_of_mem _)

theorem mem_setBody_iff {nodes : List (Key × T)} (unique : (nodes.map Prod.fst).Nodup)
    (present : key ∈ nodes.map Prod.fst) {value : T} {node : Key × T} :
    node ∈ setBody key value nodes ↔ node = (key, value) ∨ node.1 ≠ key ∧ node ∈ nodes := by
  induction nodes with
  | nil => cases present
  | cons first rest ih =>
    rw [List.map_cons, List.nodup_cons] at unique
    unfold setBody
    by_cases same : first.1 = key
    · rw [if_pos same, same, List.mem_cons, List.mem_cons]
      constructor
      · rintro (isNew | member)
        · exact .inl isNew
        · exact .inr ⟨fun isKey => unique.1 (List.mem_map.mpr ⟨node, member, isKey.trans same.symm⟩), .inr member⟩
      · rintro (isNew | ⟨other, rfl | member⟩)
        · exact .inl isNew
        · exact absurd same other
        · exact .inr member
    · have later : key ∈ rest.map Prod.fst :=
        (List.mem_cons.mp present).resolve_left (Ne.symm same)
      rw [if_neg same, List.mem_cons, List.mem_cons, ih unique.2 later]
      constructor
      · rintro (rfl | isNew | ⟨other, member⟩)
        · exact .inr ⟨same, .inl rfl⟩
        · exact .inl isNew
        · exact .inr ⟨other, .inr member⟩
      · rintro (isNew | ⟨other, rfl | member⟩)
        · exact .inr (.inl isNew)
        · exact .inl rfl
        · exact .inr (.inr ⟨other, member⟩)

/-- `insert` once there is room. -/
theorem Placed.insert_here (placed : Placed qHash h) (key : Key) (value : T) (size : Word) :
    let i := toArrayIndex qHash key h.mCapacity
    let change := if key ∈ (h.chain i).map Prod.fst then setBody key value else (· ++ [(key, value)])
    Placed qHash ⟨size, h.mCapacity, h.mArray.modify i change⟩ ∧
      ∀ node, node ∈ nodes ⟨size, h.mCapacity, h.mArray.modify i change⟩ ↔
        node = (key, value) ∨ node.1 ≠ key ∧ node ∈ h.nodes := by
  intro i change
  have unique := placed.unique i
  have inside (node : Key × T) : node ∈ change (h.chain i) ↔ node = (key, value) ∨ node.1 ≠ key ∧ node ∈ h.chain i := by
    by_cases present : key ∈ (h.chain i).map Prod.fst
    · rw [show change = setBody key value from if_pos present]
      exact mem_setBody_iff unique present
    · rw [show change = (· ++ [(key, value)]) from if_neg present, List.mem_append, List.mem_singleton]
      constructor
      · rintro (member | isNew)
        · exact .inr ⟨fun isKey => present (List.mem_map.mpr ⟨node, member, isKey⟩), member⟩
        · exact .inl isNew
      · rintro (isNew | ⟨_, member⟩)
        · exact .inr isNew
        · exact .inl member
  have kept : Placed qHash ⟨size, h.mCapacity, h.mArray.modify i change⟩ := by
    refine placed.modify key size (fun node member => ?_) ?_
    · obtain rfl | ⟨_, before⟩ := (inside node).mp member
      · exact .inl rfl
      · exact .inr before
    · by_cases present : key ∈ (h.chain i).map Prod.fst
      · rw [show change = setBody key value from if_pos present, map_fst_setBody]
        exact unique
      · rw [show change = (· ++ [(key, value)]) from if_neg present, List.map_append, List.nodup_append]
        refine ⟨unique, List.nodup_singleton key, ?_⟩
        rintro first member second isKey rfl
        rw [List.map_singleton, List.mem_singleton] at isKey
        rw [show first = key from isKey] at member
        exact present member
  refine ⟨kept, fun node => ?_⟩
  rw [placed.mem_modify key change size kept]
  split
  · rename_i same
    rw [inside, placed.mem_nodes_iff, same]
  · rename_i other
    constructor
    · exact fun member => .inr ⟨fun isKey => other (by rw [isKey]), member⟩
    · rintro (rfl | ⟨_, member⟩)
      · exact absurd rfl other
      · exact member

/-- An insertion, once a full table has grown. -/
theorem Placed.insert_after {g : QHash Key T} (placed : Placed qHash g)
    (room : (if h.mSize = h.mCapacity then h.reserve qHash (h.mCapacity * 2#32) else h) = g) (key : Key) (value : T) :
    Placed qHash (h.insert qHash key value) ∧
      (∀ node, node ∈ (h.insert qHash key value).nodes ↔ node = (key, value) ∨ node.1 ≠ key ∧ node ∈ g.nodes) ∧
      (h.insert qHash key value).mSize.toNat ≤ g.mSize.toNat + 1 := by
  unfold QHash.insert
  rw [room]
  simp only
  split
  · rename_i present
    obtain ⟨kept, members⟩ := placed.insert_here key value g.mSize
    rw [if_pos present] at kept members
    exact ⟨kept, members, Nat.le_succ _⟩
  · rename_i absent
    obtain ⟨kept, members⟩ := placed.insert_here key value (g.mSize + 1#32)
    rw [if_neg absent] at kept members
    refine ⟨kept, members, ?_⟩
    rw [BitVec.toNat_add]
    exact Nat.mod_le _ _

/-- An insertion, where doubling leaves the table a capacity. -/
theorem Placed.insert_of_room (placed : Placed qHash h)
    (room : h.mSize = h.mCapacity → 0 < (h.mCapacity * 2#32).toNat) (key : Key) (value : T) :
    Placed qHash (h.insert qHash key value) ∧
      (∀ node, node ∈ (h.insert qHash key value).nodes ↔ node = (key, value) ∨ node.1 ≠ key ∧ node ∈ h.nodes) ∧
      (h.insert qHash key value).mSize.toNat ≤ h.mSize.toNat + 1 := by
  by_cases full : h.mSize = h.mCapacity
  · obtain ⟨grown, same⟩ := placed.reserve (room full)
    obtain ⟨kept, members, size⟩ := grown.insert_after (if_pos full) key value
    simp only [same] at members
    exact ⟨kept, members, size⟩
  · exact placed.insert_after (if_neg full) key value

/-- While fewer than `2 ^ 29` nodes were ever inserted, doubling the capacity does not overflow. -/
theorem Placed.insert (placed : Placed qHash h) (room : h.mSize.toNat < 2 ^ 29) (key : Key) (value : T) :
    Placed qHash (h.insert qHash key value) ∧
      (∀ node, node ∈ (h.insert qHash key value).nodes ↔ node = (key, value) ∨ node.1 ≠ key ∧ node ∈ h.nodes) ∧
      (h.insert qHash key value).mSize.toNat ≤ h.mSize.toNat + 1 := by
  apply placed.insert_of_room
  intro full
  have double : (h.mCapacity * 2#32).toNat = 2 * h.mCapacity.toNat := by
    rw [BitVec.toNat_mul, ← full]
    simp
    omega
  have before := placed.positive
  omega

/-- A table with the nodes of another one, and the key set, has its values. -/
theorem Placed.value_of_set {h' : QHash Key T} (placed : Placed qHash h) (kept : Placed qHash h') {value : T}
    (members : ∀ node, node ∈ h'.nodes ↔ node = (key, value) ∨ node.1 ≠ key ∧ node ∈ h.nodes) (other : Key) :
    h'.value qHash other = if other = key then some value else h.value qHash other := by
  apply Option.ext
  intro found
  rw [kept.value_eq_some_iff, members, Prod.mk.injEq]
  by_cases same : other = key
  · simp [same, eq_comm]
  · simp [same, placed.value_eq_some_iff]

/-- The table is the old one with the key set. -/
theorem Placed.value_insert (placed : Placed qHash h) (room : h.mSize.toNat < 2 ^ 29) (key : Key) (value : T) (other : Key) :
    (h.insert qHash key value).value qHash other = if other = key then some value else h.value qHash other := by
  obtain ⟨kept, members, _⟩ := placed.insert room key value
  exact placed.value_of_set kept members other

theorem Placed.value_remove (placed : Placed qHash h) (key other : Key) :
    (h.remove qHash key).value qHash other = if other = key then none else h.value qHash other := by
  obtain ⟨kept, members⟩ := placed.remove key
  apply Option.ext
  intro found
  rw [kept.value_eq_some_iff, members]
  by_cases same : other = key
  · simp [same]
  · simp [same, placed.value_eq_some_iff]

end Placing
end QHash
end FluxOS
