import FluxOS.QHashCopies

/-! `m_size` against the number of entries, over any use of any number of tables: which calls keep
the two together, and which drive them apart. -/
namespace FluxOS.QHash
open Words

variable {Key T : Type} {qHash : Key → HashValue} {h h' : QHash Key T} {key : Key}

def keys (h : QHash Key T) : List Key := h.nodes.map Prod.fst

/-- What `size()` and `isEmpty()` should say. -/
def Counted (h : QHash Key T) : Prop :=
  h.mSize.toInt = h.nodes.length ∧ (h.isEmpty = true ↔ ∀ key, key ∉ h.keys)

section Lengths

theorem nodes_replicate (size capacity : Word) (n : Nat) :
    (⟨size, capacity, List.replicate n []⟩ : QHash Key T).nodes = [] := by
  simp [nodes]

theorem length_flatten_modify {α : Type} (chains : List (List α)) {i : Nat} (bound : i < chains.length)
    (change : List α → List α) : (chains.modify i change).flatten.length + (chains.getD i []).length =
      chains.flatten.length + (change (chains.getD i [])).length := by
  induction chains generalizing i with
  | nil => cases bound
  | cons first rest ih =>
    cases i with
    | zero =>
      simp only [List.modify_zero_cons, List.flatten_cons, List.length_append, List.getD_cons_zero]
      omega
    | succ i =>
      have later := ih (Nat.lt_of_succ_lt_succ bound)
      simp only [List.modify_succ_cons, List.flatten_cons, List.length_append, List.getD_cons_succ]
      omega

theorem Placed.length_modify {hash : Key → Word} (placed : Placed hash h) (key : Key)
    (change : List (Key × T) → List (Key × T)) (size : Word) :
    (nodes ⟨size, h.mCapacity, h.mArray.modify (toArrayIndex hash key h.mCapacity) change⟩).length +
      (h.chain (toArrayIndex hash key h.mCapacity)).length =
    h.nodes.length + (change (h.chain (toArrayIndex hash key h.mCapacity))).length := by
  apply length_flatten_modify
  rw [placed.array]
  exact toArrayIndex_lt hash key placed.positive

/-- A key is in the table when it is in its own chain. -/
theorem Placed.mem_keys_iff {hash : Key → Word} (placed : Placed hash h) :
    key ∈ h.keys ↔ key ∈ (h.chain (toArrayIndex hash key h.mCapacity)).map Prod.fst := by
  constructor
  · intro member
    obtain ⟨node, inside, rfl⟩ := List.mem_map.mp member
    exact List.mem_map.mpr ⟨node, placed.mem_nodes_iff.mp inside, rfl⟩
  · intro member
    obtain ⟨node, inside, rfl⟩ := List.mem_map.mp member
    exact List.mem_map.mpr ⟨node, placed.mem_nodes_iff.mpr inside, rfl⟩

theorem length_setBody [DecidableEq Key] (key : Key) (value : T) (nodes : List (Key × T)) :
    (setBody key value nodes).length = nodes.length := by
  simpa using congrArg List.length (map_fst_setBody key value nodes)

/-- The size goes up with the number of nodes. -/
theorem Placed.insert_counts [DecidableEq Key] {hash : Key → Word} {g : QHash Key T} (placed : Placed hash g)
    (room : (if h.mSize = h.mCapacity then h.reserve hash (h.mCapacity * 2#32) else h) = g) (key : Key) (value : T) :
    (h.insert hash key value).mSize = (if key ∈ g.keys then g.mSize else g.mSize + 1#32) ∧
    (h.insert hash key value).nodes.length = if key ∈ g.keys then g.nodes.length else g.nodes.length + 1 := by
  unfold QHash.insert
  rw [room]
  simp only
  by_cases present : key ∈ g.keys
  · rw [if_pos (placed.mem_keys_iff.mp present), if_pos present, if_pos present]
    have lengths := placed.length_modify key (setBody key value) g.mSize
    rw [length_setBody] at lengths
    exact ⟨rfl, Nat.add_right_cancel lengths⟩
  · rw [if_neg (mt placed.mem_keys_iff.mpr present), if_neg present, if_neg present]
    have lengths := placed.length_modify key (· ++ [(key, value)]) (g.mSize + 1#32)
    rw [List.length_append, List.length_singleton] at lengths
    exact ⟨rfl, by omega⟩

namespace Sound

/-- `reserve` keeps every node, whatever the new capacity. -/
theorem reserve_perm (sound : Sound qHash h) {newCapacity : Word}
    (fits : ∀ node ∈ h.nodes, Fits (qHash node.1) newCapacity) :
    (h.reserve (words qHash) newCapacity).nodes.Perm h.nodes := by
  by_cases positive : 0 < newCapacity.toInt
  · obtain ⟨placed, same⟩ := placed_reserve (h := h) sound.unique (toNat_pos_of_toInt positive)
    exact (List.perm_ext_iff_of_nodup placed.nodup_keys.of_map sound.unique.of_map).mpr same
  · have none := nodes_eq_nil fits positive
    rw [reserve_of_nil none, none]
    simp [nodes]

theorem grown (sound : Sound qHash h) (grows : Grows qHash h) :
    Sound qHash (grown (words qHash) h) ∧ (QHash.grown (words qHash) h).nodes.Perm h.nodes ∧
      (QHash.grown (words qHash) h).mSize = h.mSize := by
  unfold QHash.grown
  split
  · rename_i full
    exact ⟨sound.reserve (grows full), sound.reserve_perm (grows full), rfl⟩
  · exact ⟨sound, .rfl, rfl⟩

variable [DecidableEq Key]

theorem insert_counts (sound : Sound qHash h) {value : T} (result : insertCall qHash h key value = some h') :
    h'.mSize = (if key ∈ h.keys then h.mSize else h.mSize + 1#32) ∧
    h'.nodes.length = if key ∈ h.keys then h.nodes.length else h.nodes.length + 1 := by
  obtain ⟨grows, fits, rfl⟩ := insertCall_eq_some_iff.mp result
  obtain ⟨after, same, size⟩ := sound.grown grows
  have present : key ∈ (QHash.grown (words qHash) h).keys ↔ key ∈ h.keys := (same.map Prod.fst).mem_iff
  simpa only [present, same.length_eq, size] using (after.placed fits.1).insert_counts rfl key value

theorem remove_counts (sound : Sound qHash h) {removed : Option T × QHash Key T}
    (result : removeFromTable qHash h key = some removed) : removed.2.mSize = h.mSize ∧
      removed.2.nodes.length = if key ∈ h.keys then h.nodes.length - 1 else h.nodes.length := by
  by_cases fits : Fits (qHash key) h.mCapacity
  · rw [removeFromTable_of_fits h fits, Option.some.injEq] at result
    subst result
    have placed := sound.placed fits.1
    have lengths := placed.length_modify key (·.eraseP (·.1 = key)) h.mSize
    refine ⟨rfl, ?_⟩
    simp only [QHash.remove]
    by_cases present : key ∈ h.keys
    · rw [if_pos present]
      obtain ⟨node, inside, isKey⟩ := List.mem_map.mp (placed.mem_keys_iff.mp present)
      rw [List.length_eraseP_of_mem inside (by simpa using isKey)] at lengths
      have some := List.length_pos_of_mem inside
      omega
    · rw [if_neg present]
      have absent : ∀ node ∈ h.chain (toArrayIndex (words qHash) key h.mCapacity), ¬ decide (node.1 = key) = true := by
        intro node inside isKey
        exact present (placed.mem_keys_iff.mpr (List.mem_map.mpr ⟨node, inside, of_decide_eq_true isKey⟩))
      rw [List.eraseP_of_forall_not absent] at lengths
      exact Nat.add_right_cancel lengths
  · rw [removeFromTable, slot_eq_none fits] at result
    cases result

end Sound
end Lengths

section Counting

variable [DecidableEq Key]

/-- The size that a call leaves. -/
def sizeAfter (h : QHash Key T) : Call Key T → Word
  | .insert key _ | .index key | .assign key _ => if key ∈ h.keys then h.mSize else h.mSize + 1#32
  | .take _ | .remove _ | .reserve _ | .squeeze => h.mSize
  | .clear newCapacity => if h.mCapacity = newCapacity then h.mSize else 0#32

/-- The entries that a call leaves. -/
def entriesAfter (h : QHash Key T) : Call Key T → Nat
  | .insert key _ | .index key | .assign key _ => if key ∈ h.keys then h.nodes.length else h.nodes.length + 1
  | .take key | .remove key => if key ∈ h.keys then h.nodes.length - 1 else h.nodes.length
  | .reserve _ | .squeeze => h.nodes.length
  | .clear _ => 0

variable [Inhabited T]

theorem Sound.index_counts (sound : Sound qHash h) (result : indexCall qHash h key = some h') :
    h'.mSize = sizeAfter h (.index key) ∧ h'.nodes.length = entriesAfter h (.index key) := by
  obtain ⟨found, look, result⟩ := Option.bind_eq_some_iff.mp result
  by_cases fits : Fits (qHash key) h.mCapacity
  · have placed := sound.placed fits.1
    rw [node_of_fits h fits, Option.some.injEq] at look
    cases found with
    | some value =>
      have present : key ∈ h.keys := List.mem_map.mpr ⟨_, placed.value_eq_some_iff.mp look, rfl⟩
      cases result
      exact ⟨(if_pos present).symm, (if_pos present).symm⟩
    | none =>
      obtain ⟨h₁, inserted, result⟩ := Option.bind_eq_some_iff.mp result
      obtain ⟨again, -, result⟩ := Option.bind_eq_some_iff.mp result
      cases again with
      | some value =>
        cases result
        exact sound.insert_counts inserted
      | none => cases result
  · rw [node, slot_eq_none fits] at look
    cases look

/-- What a call does to the size, and what it does to the entries. -/
theorem Sound.perform_counts (sound : Sound qHash h) (call : Call Key T) (result : QHash.perform qHash h call = some h') :
    h'.mSize = sizeAfter h call ∧ h'.nodes.length = entriesAfter h call := by
  cases call with
  | insert key value => exact sound.insert_counts result
  | index key => exact sound.index_counts result
  | assign key value =>
    obtain ⟨h₁, found, result⟩ := Option.bind_eq_some_iff.mp result
    obtain ⟨size, entries⟩ := sound.index_counts found
    by_cases fits : Fits (qHash key) h₁.mCapacity
    · have lengths := ((sound.index found).placed fits.1).length_modify key (QHash.setBody key value) h₁.mSize
      rw [length_setBody] at lengths
      rw [slot_of_fits fits, Option.bind_eq_bind, Option.bind_some] at result
      cases result
      exact ⟨size, (Nat.add_right_cancel lengths).trans entries⟩
    · rw [slot_eq_none fits] at result
      cases result
  | take key =>
    simp only [QHash.perform, takeCall, Option.map_map, Option.map_eq_some_iff] at result
    obtain ⟨removed, result, rfl⟩ := result
    exact sound.remove_counts result
  | remove key =>
    simp only [QHash.perform, removeCall, Option.map_map, Option.map_eq_some_iff] at result
    obtain ⟨removed, result, rfl⟩ := result
    exact sound.remove_counts result
  | reserve newCapacity =>
    obtain ⟨fits, rfl⟩ := reserveCall_eq_some_iff.mp result
    exact ⟨rfl, (sound.reserve_perm fits).length_eq⟩
  | squeeze =>
    obtain ⟨fits, rfl⟩ := reserveCall_eq_some_iff.mp result
    exact ⟨rfl, (sound.reserve_perm fits).length_eq⟩
  | clear newCapacity =>
    cases result
    unfold clearCall
    by_cases same : h.mCapacity = newCapacity
    · rw [if_neg (not_not.mpr same)]
      exact ⟨(if_pos same).symm, congrArg List.length (nodes_replicate h.mSize h.mCapacity _)⟩
    · rw [if_pos same]
      exact ⟨(if_neg same).symm, congrArg List.length (nodes_replicate 0#32 newCapacity _)⟩

omit [DecidableEq Key] [Inhabited T] in
theorem counted_iff (h : QHash Key T) : Counted h ↔ h.mSize.toNat = h.nodes.length ∧ h.nodes.length < 2 ^ 31 := by
  have bound := BitVec.two_mul_toInt_lt (x := h.mSize)
  constructor
  · rintro ⟨size, -⟩
    have nonneg : h.mSize.toInt = h.mSize.toNat := toInt_of_nonneg (by omega)
    omega
  · rintro ⟨size, small⟩
    have nonneg : h.mSize.toInt = h.mSize.toNat := BitVec.toInt_eq_toNat_of_lt (by omega)
    refine ⟨by omega, ?_⟩
    have empty : h.isEmpty = true ↔ h.nodes = [] := by
      rw [isEmpty, decide_eq_true_iff, ← List.length_eq_zero_iff, ← size]
      exact BitVec.toNat_inj.symm
    rw [empty, ← List.eq_nil_iff_forall_not_mem, keys, List.map_eq_nil_iff]

/-- When a call keeps the size and the entries together, if they were. -/
def Keeps (h : QHash Key T) : Call Key T → Prop
  | .insert key _ | .index key | .assign key _ => key ∈ h.keys ∨ h.nodes.length + 1 < 2 ^ 31
  | .take key | .remove key => key ∉ h.keys
  | .reserve _ | .squeeze => True
  | .clear newCapacity => h.mCapacity ≠ newCapacity ∨ h.nodes = []

omit [Inhabited T] in
theorem keeps_iff (size : h.mSize.toNat = h.nodes.length) (small : h.nodes.length < 2 ^ 31) (call : Call Key T) :
    (sizeAfter h call).toNat = entriesAfter h call ∧ entriesAfter h call < 2 ^ 31 ↔ Keeps h call := by
  have stored (key : Key) : (sizeAfter h (.index key)).toNat = entriesAfter h (.index key) ∧
      entriesAfter h (.index key) < 2 ^ 31 ↔ key ∈ h.keys ∨ h.nodes.length + 1 < 2 ^ 31 := by
    unfold sizeAfter entriesAfter
    by_cases present : key ∈ h.keys
    · simpa [present, size] using small
    · have next : (h.mSize + 1#32).toNat = h.nodes.length + 1 := by
        rw [toNat_add_one (by omega), size]
      simp [present, next]
  have removed (key : Key) : (sizeAfter h (.remove key)).toNat = entriesAfter h (.remove key) ∧
      entriesAfter h (.remove key) < 2 ^ 31 ↔ key ∉ h.keys := by
    unfold sizeAfter entriesAfter
    by_cases present : key ∈ h.keys
    · have some : 0 < h.nodes.length := by
        rw [← List.length_map Prod.fst]
        exact List.length_pos_of_mem present
      simp only [present, if_true, not_true_eq_false, iff_false]
      omega
    · simpa [present, size] using small
  cases call with
  | insert key value => exact stored key
  | index key => exact stored key
  | assign key value => exact stored key
  | take key => exact removed key
  | remove key => exact removed key
  | reserve newCapacity => exact iff_of_true ⟨size, small⟩ trivial
  | squeeze => exact iff_of_true ⟨size, small⟩ trivial
  | clear newCapacity =>
    unfold sizeAfter entriesAfter Keeps
    by_cases same : h.mCapacity = newCapacity
    · simp [same, size]
    · simp [same]

theorem counted_perform_iff (sound : Sound qHash h) (counted : Counted h) {call : Call Key T}
    (result : perform qHash h call = some h') : Counted h' ↔ Keeps h call := by
  obtain ⟨size, entries⟩ := sound.perform_counts call result
  obtain ⟨together, small⟩ := (counted_iff h).mp counted
  rw [counted_iff, size, entries]
  exact keeps_iff together small call

omit [DecidableEq Key] [Inhabited T] in
theorem counted_init (capacity : Word) : Counted (init capacity : QHash Key T) := by
  have none : (init capacity : QHash Key T).nodes = [] := nodes_replicate 0#32 capacity _
  rw [counted_iff, none]
  exact ⟨rfl, Nat.two_pow_pos 31⟩

omit [DecidableEq Key] [Inhabited T] in
/-- A copy has the entries and not the size. -/
theorem counted_copyOf_iff (sound : Sound qHash h) (counted : Counted h) : Counted (copyOf h) ↔ h.nodes = [] := by
  obtain ⟨together, -⟩ := (counted_iff h).mp counted
  constructor
  · intro kept
    by_contra some
    obtain ⟨node, member⟩ := List.exists_mem_of_ne_nil _ some
    have full : h.isEmpty = false := by
      rw [isEmpty, decide_eq_false_iff_not]
      intro zero
      rw [zero] at together
      exact some (List.length_eq_zero_iff.mp together.symm)
    have copied : copyOf h = ⟨0#32, h.mCapacity, h.mArray⟩ := by
      rw [copyOf, if_neg (by simp [full]), (sound.placed (sound.fits node member).1).map_chain, init]
    rw [copied, counted_iff] at kept
    exact some (List.length_eq_zero_iff.mp kept.1.symm)
  · intro none
    have empty : h.isEmpty = true := by
      rw [isEmpty, decide_eq_true_iff]
      apply BitVec.eq_of_toNat_eq
      rw [together, none]
      rfl
    rw [copyOf, if_pos empty]
    exact counted_init h.mCapacity

end Counting

section Objects

/-- What is done with the tables there are: a new one, a call on one, a copy, or an assignment. -/
inductive ObjectCall (Key T : Type) where
  | make (capacity : Word)
  | change (i : Nat) (call : Call Key T)
  | copy (i : Nat)
  | assign (i j : Nat)

variable [DecidableEq Key] [Inhabited T] (qHash : Key → HashValue)

/-- An assignment of a table to itself finds the new array that `init` has given it. -/
def performObject (objects : List (QHash Key T)) : ObjectCall Key T → Option (List (QHash Key T))
  | .make capacity => some (objects ++ [init capacity])
  | .change i call => do
    let h ← objects[i]?
    let h' ← perform qHash h call
    return objects.set i h'
  | .copy i => do
    let q ← objects[i]?
    return objects ++ [copyOf q]
  | .assign i j => do
    let _ ← objects[i]?
    let q ← objects[j]?
    return objects.set i (if i = j then init q.mCapacity else copyOf q)

/-- In every state that these steps lead to, as far as they come to their end, every table is counted. -/
def AlwaysCounted (objects : List (QHash Key T)) : List (ObjectCall Key T) → Prop
  | [] => ∀ h ∈ objects, Counted h
  | step :: rest => (∀ h ∈ objects, Counted h) ∧
      ∀ after, performObject qHash objects step = some after → AlwaysCounted after rest

/-- When a step keeps every table counted. -/
def KeepsObjects (objects : List (QHash Key T)) : ObjectCall Key T → Prop
  | .make _ => True
  | .change i call => ∀ h, objects[i]? = some h → Keeps h call
  | .copy i => ∀ q, objects[i]? = some q → q.nodes = []
  | .assign i j => i ≠ j → ∀ q, objects[j]? = some q → q.nodes = []

def KeepsAll (objects : List (QHash Key T)) : List (ObjectCall Key T) → Prop
  | [] => True
  | step :: rest => ∀ after, performObject qHash objects step = some after →
      KeepsObjects objects step ∧ KeepsAll after rest

variable {qHash} {objects after : List (QHash Key T)}

omit [DecidableEq Key] [Inhabited T] in
theorem forall_mem_concat {p : QHash Key T → Prop} (all : ∀ h ∈ objects, p h) {h : QHash Key T} :
    (∀ g ∈ objects ++ [h], p g) ↔ p h := by
  simp only [List.forall_mem_append, List.forall_mem_singleton]
  exact and_iff_right all

omit [DecidableEq Key] [Inhabited T] in
theorem forall_mem_set {p : QHash Key T → Prop} (all : ∀ h ∈ objects, p h) {i : Nat} (bound : i < objects.length)
    {h : QHash Key T} : (∀ g ∈ objects.set i h, p g) ↔ p h := by
  constructor
  · exact fun changed => changed h (List.mem_set bound h)
  · intro changed g member
    obtain before | rfl := List.mem_or_eq_of_mem_set member
    · exact all g before
    · exact changed

/-- The one table that a step makes or changes. -/
inductive Made (qHash : Key → HashValue) (objects : List (QHash Key T)) : ObjectCall Key T → QHash Key T → Prop
  | make (capacity : Word) : Made qHash objects (.make capacity) (init capacity)
  | change {i : Nat} {call : Call Key T} {h h' : QHash Key T} (found : objects[i]? = some h)
      (result : perform qHash h call = some h') : Made qHash objects (.change i call) h'
  | copy {i : Nat} {q : QHash Key T} (found : objects[i]? = some q) : Made qHash objects (.copy i) (copyOf q)
  | assign {i j : Nat} {q : QHash Key T} (found : objects[j]? = some q) :
      Made qHash objects (.assign i j) (if i = j then init q.mCapacity else copyOf q)

/-- All other tables stay. -/
theorem made_of_performObject {step : ObjectCall Key T} (done : performObject qHash objects step = some after) :
    ∃ h, Made qHash objects step h ∧
      ∀ p : QHash Key T → Prop, (∀ g ∈ objects, p g) → ((∀ g ∈ after, p g) ↔ p h) := by
  cases step with
  | make capacity =>
    cases done
    exact ⟨_, .make capacity, fun p all => forall_mem_concat all⟩
  | change i call =>
    obtain ⟨h, found, done⟩ := Option.bind_eq_some_iff.mp done
    obtain ⟨h', result, done⟩ := Option.bind_eq_some_iff.mp done
    cases done
    exact ⟨h', .change found result, fun p all => forall_mem_set all (List.getElem?_eq_some_iff.mp found).1⟩
  | copy i =>
    obtain ⟨q, found, done⟩ := Option.bind_eq_some_iff.mp done
    cases done
    exact ⟨_, .copy found, fun p all => forall_mem_concat all⟩
  | assign i j =>
    obtain ⟨h, target, done⟩ := Option.bind_eq_some_iff.mp done
    obtain ⟨q, found, done⟩ := Option.bind_eq_some_iff.mp done
    cases done
    exact ⟨_, .assign found, fun p all => forall_mem_set all (List.getElem?_eq_some_iff.mp target).1⟩

theorem Made.sound {step : ObjectCall Key T} {h : QHash Key T} (made : Made qHash objects step h)
    (sound : ∀ g ∈ objects, Sound qHash g) : Sound qHash h := by
  cases made with
  | make capacity => exact .replicate 0#32 capacity
  | change found result => exact (sound _ (List.mem_of_getElem? found)).perform _ result
  | copy found => exact (sound _ (List.mem_of_getElem? found)).copyOf
  | assign found =>
    split
    · exact .replicate 0#32 _
    · exact (sound _ (List.mem_of_getElem? found)).copyOf

theorem Made.counted_iff {step : ObjectCall Key T} {h : QHash Key T} (made : Made qHash objects step h)
    (sound : ∀ g ∈ objects, Sound qHash g) (counted : ∀ g ∈ objects, Counted g) :
    Counted h ↔ KeepsObjects objects step := by
  cases made with
  | make capacity => exact iff_of_true (counted_init capacity) trivial
  | change found result =>
    have member := List.mem_of_getElem? found
    rw [counted_perform_iff (sound _ member) (counted _ member) result]
    simp [KeepsObjects, found]
  | copy found =>
    have member := List.mem_of_getElem? found
    rw [counted_copyOf_iff (sound _ member) (counted _ member)]
    simp [KeepsObjects, found]
  | @assign i j q found =>
    have member := List.mem_of_getElem? found
    by_cases same : i = j
    · rw [if_pos same]
      exact iff_of_true (counted_init q.mCapacity) fun different => absurd same different
    · rw [if_neg same, counted_copyOf_iff (sound _ member) (counted _ member)]
      simp [KeepsObjects, found, same]

theorem alwaysCounted_iff (steps : List (ObjectCall Key T)) {objects : List (QHash Key T)}
    (sound : ∀ g ∈ objects, Sound qHash g) (counted : ∀ g ∈ objects, Counted g) :
    AlwaysCounted qHash objects steps ↔ KeepsAll qHash objects steps := by
  induction steps generalizing objects with
  | nil => exact iff_of_true counted trivial
  | cons step rest ih =>
    simp only [AlwaysCounted, KeepsAll]
    rw [and_iff_right counted]
    refine forall_congr' fun after => forall_congr' fun done => ?_
    obtain ⟨h, made, others⟩ := made_of_performObject done
    have stillSound : ∀ g ∈ after, Sound qHash g := (others _ sound).mpr (made.sound sound)
    rw [← made.counted_iff sound counted, ← others _ counted]
    constructor
    · intro always
      have now : ∀ g ∈ after, Counted g := by
        cases rest with
        | nil => exact always
        | cons next later => exact always.1
      exact ⟨now, (ih stillSound now).mp always⟩
    · rintro ⟨now, keeps⟩
      exact (ih stillSound now).mpr keeps

end Objects

/-- The sizes are right in every state of a run of steps, on any number of tables, exactly where every step meets its
condition: nothing that is there is removed or taken, no table with entries is copied or cleared to the capacity that it
has, and no table grows to `2 ^ 31` entries. -/
theorem sizes_right_iff [DecidableEq Key] [Inhabited T] (qHash : Key → HashValue) (steps : List (ObjectCall Key T)) :
    AlwaysCounted qHash [] steps ↔ KeepsAll qHash [] steps :=
  alwaysCounted_iff steps nofun nofun

def portHash (port : BitVec 16) : HashValue := .int (port.setWidth 32)

/-- One port is stored and removed. The table has no entry, and says that it has one. -/
theorem removed_port_counted :
    performAll portHash (init defaultCapacity) [.insert 7#16 1, .remove 7#16] =
      some (⟨1#32, 2#32, [[], []]⟩ : QHash (BitVec 16) Nat) ∧
    (⟨1#32, 2#32, [[], []]⟩ : QHash (BitVec 16) Nat).nodes = [] ∧
    ¬ AlwaysCounted portHash ([] : List (QHash (BitVec 16) Nat))
      [.make defaultCapacity, .change 0 (.insert 7#16 1), .change 0 (.remove 7#16)] := by
  refine ⟨rfl, rfl, ?_⟩
  rintro ⟨-, made⟩
  obtain ⟨-, inserted⟩ := made _ rfl
  obtain ⟨-, removed⟩ := inserted _ rfl
  have counted := removed [⟨1#32, 2#32, [[], []]⟩] rfl _ List.mem_cons_self
  exact absurd counted.1 (by decide)

end FluxOS.QHash
