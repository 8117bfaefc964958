import FluxOS.QHashCalls

/-! What a `QHash` is for: a map from keys to values. Every call whose indices are
right does to the table what it should do to the map. -/
namespace FluxOS.QHash
open Words

variable {Key T : Type}

section Store

variable [DecidableEq Key] [Inhabited T]

/-- A call on the map. `operator[]` gives an absent key `T()`. -/
def store (map : Key → Option T) : Call Key T → Key → Option T
  | .insert key value | .assign key value => Function.update map key (some value)
  | .index key => Function.update map key (some ((map key).getD default))
  | .take key | .remove key => Function.update map key none
  | .reserve _ | .squeeze => map
  | .clear _ => fun _ => none

def storeAll (map : Key → Option T) (calls : List (Call Key T)) : Key → Option T := calls.foldl store map

end Store

variable {qHash : Key → HashValue} {h h' : QHash Key T} {key : Key} {map : Key → Option T}

/-- The table holds the map, each node in the chain of its key. -/
structure Refines [DecidableEq Key] (qHash : Key → HashValue) (h : QHash Key T) (map : Key → Option T) : Prop where
  placed : Placed (words qHash) h
  capacity : 0 < h.mCapacity.toInt
  value : ∀ key, h.value (words qHash) key = map key

variable [DecidableEq Key]

theorem refines_init {capacity : Word} (positive : 0 < capacity.toInt) :
    Refines qHash (init capacity : QHash Key T) (fun _ => none) := by
  have start : Placed (words qHash) (init capacity : QHash Key T) ∧ (init capacity : QHash Key T).nodes = [] :=
    placed_init (toNat_pos_of_toInt positive)
  obtain ⟨placed, empty⟩ := start
  refine ⟨placed, positive, fun key => ?_⟩
  apply Option.eq_none_iff_forall_ne_some.mpr
  intro found some
  rw [placed.value_eq_some_iff, empty] at some
  cases some

namespace Refines

theorem reserve (refines : Refines qHash h map) {newCapacity : Word} (positive : 0 < newCapacity.toInt) :
    Refines qHash (h.reserve (words qHash) newCapacity) map := by
  obtain ⟨placed, same⟩ := refines.placed.reserve (toNat_pos_of_toInt positive)
  refine ⟨placed, positive, fun key => ?_⟩
  rw [refines.placed.value_of_same placed same, refines.value]

theorem mCapacity_insert (h : QHash Key T) (key : Key) (value : T) :
    (h.insert (words qHash) key value).mCapacity = (grown (words qHash) h).mCapacity := by
  unfold QHash.insert grown
  simp only
  split <;> split <;> rfl

theorem insert (refines : Refines qHash h map) (key : Key) (value : T)
    (positive : 0 < (grown (words qHash) h).mCapacity.toInt) :
    Refines qHash (h.insert (words qHash) key value) (Function.update map key (some value)) := by
  have room (full : h.mSize = h.mCapacity) : 0 < (h.mCapacity * 2#32).toNat := by
    rw [grown, if_pos full] at positive
    exact toNat_pos_of_toInt positive
  obtain ⟨placed, members, -⟩ := refines.placed.insert_of_room room key value
  refine ⟨placed, ?_, fun other => ?_⟩
  · rw [mCapacity_insert]
    exact positive
  · rw [refines.placed.value_of_set placed members, Function.update_apply, refines.value]

theorem remove (refines : Refines qHash h map) (key : Key) :
    Refines qHash (h.remove (words qHash) key) (Function.update map key none) := by
  refine ⟨(refines.placed.remove key).1, refines.capacity, fun other => ?_⟩
  rw [refines.placed.value_remove, Function.update_apply, refines.value]

theorem clear (refines : Refines qHash h map) {newCapacity : Word} (positive : 0 < newCapacity.toInt) :
    Refines qHash (clearCall h newCapacity) (fun _ => none) := by
  unfold clearCall
  split
  · exact refines_init positive
  · -- the array is as new, and only `m_size` may be another
    have empty : Refines qHash (init h.mCapacity : QHash Key T) (fun _ => none) := refines_init refines.capacity
    refine ⟨⟨empty.placed.array, empty.placed.positive, empty.placed.placed, empty.placed.unique⟩, refines.capacity, ?_⟩
    exact empty.value

/-- The chains of a copy are those of the table, unless its size is zero. -/
theorem mArray_copyOf (refines : Refines qHash h map) (some : h.mSize ≠ 0#32) :
    copyOf h = ⟨0#32, h.mCapacity, h.mArray⟩ := by
  rw [copyOf, if_neg (by simpa [isEmpty] using some), refines.placed.map_chain, init]

theorem copyOf (refines : Refines qHash h map) :
    Refines qHash (copyOf h) (if h.mSize = 0#32 then fun _ => none else map) := by
  by_cases none : h.mSize = 0#32
  · rw [if_pos none, QHash.copyOf, if_pos (by simpa [isEmpty] using none)]
    exact refines_init refines.capacity
  · rw [if_neg none, refines.mArray_copyOf none]
    have placed := refines.placed
    exact ⟨⟨placed.array, placed.positive, placed.placed, placed.unique⟩, refines.capacity, refines.value⟩

/-- A store through the reference to the value of a key that is there. -/
theorem setBody (refines : Refines qHash h map) (key : Key) (value : T) (present : map key ≠ none) :
    Refines qHash { h with mArray := h.mArray.modify (toArrayIndex (words qHash) key h.mCapacity) (QHash.setBody key value) }
      (Function.update map key (some value)) := by
  have inChain : key ∈ (h.chain (toArrayIndex (words qHash) key h.mCapacity)).map Prod.fst := by
    obtain ⟨found, some⟩ := Option.ne_none_iff_exists'.mp present
    rw [← refines.value, refines.placed.value_eq_some_iff, refines.placed.mem_nodes_iff] at some
    exact List.mem_map.mpr ⟨_, some, rfl⟩
  obtain ⟨placed, members⟩ := refines.placed.insert_here key value h.mSize
  rw [if_pos inChain] at placed members
  refine ⟨placed, refines.capacity, fun other => ?_⟩
  rw [refines.placed.value_of_set placed members, Function.update_apply, refines.value]

variable [Inhabited T]

theorem indexCall (refines : Refines qHash h map) (result : QHash.indexCall qHash h key = some h') :
    Refines qHash h' (store map (.index key)) := by
  unfold QHash.indexCall at result
  obtain ⟨found, look, result⟩ := Option.bind_eq_some_iff.mp result
  by_cases fits : Fits (qHash key) h.mCapacity
  · rw [node_of_fits h fits, Option.some.injEq, refines.value] at look
    subst look
    cases present : map key with
    | some value =>
      rw [present] at result
      cases result
      have same : Function.update map key (some value) = map := by rw [← present, Function.update_eq_self]
      simpa [store, present, same] using refines
    | none =>
      simp only [present] at result
      obtain ⟨h₁, inserted, result⟩ := Option.bind_eq_some_iff.mp result
      obtain ⟨grows, fits₁, rfl⟩ := insertCall_eq_some_iff.mp inserted
      have after := refines.insert key default fits₁.1
      have again : Fits (qHash key) (h.insert (words qHash) key default).mCapacity := by
        rw [mCapacity_insert]
        exact fits₁
      rw [node_of_fits _ again, after.value] at result
      simp only [Function.update_self, Option.bind_eq_bind, Option.bind_some] at result
      cases result
      simpa [store, present] using after
  · rw [node, slot_eq_none fits] at look
    cases look

/-- A call whose indices are right does what it should, where the table is left a capacity. -/
theorem perform (refines : Refines qHash h map) (call : Call Key T) (result : QHash.perform qHash h call = some h')
    (positive : 0 < h'.mCapacity.toInt) : Refines qHash h' (store map call) := by
  have removal {key : Key} {removed : Option T × QHash Key T} (result : removeFromTable qHash h key = some removed) :
      Refines qHash removed.2 (Function.update map key none) := by
    by_cases fits : Fits (qHash key) h.mCapacity
    · rw [removeFromTable_of_fits h fits, Option.some.injEq] at result
      subst result
      exact refines.remove key
    · rw [removeFromTable, slot_eq_none fits] at result
      cases result
  cases call with
  | insert key value =>
    obtain ⟨-, fits, rfl⟩ := insertCall_eq_some_iff.mp result
    exact refines.insert key value fits.1
  | index key => exact refines.indexCall result
  | assign key value =>
    obtain ⟨h₁, index, result⟩ := Option.bind_eq_some_iff.mp result
    have after := refines.indexCall index
    by_cases fits : Fits (qHash key) h₁.mCapacity
    · rw [slot_of_fits fits, Option.bind_eq_bind, Option.bind_some] at result
      cases result
      simpa [store] using after.setBody key value (by simp [store])
    · rw [slot_eq_none fits] at result
      cases result
  | take key =>
    simp only [QHash.perform, takeCall, Option.map_map, Option.map_eq_some_iff] at result
    obtain ⟨removed, result, rfl⟩ := result
    exact removal result
  | remove key =>
    simp only [QHash.perform, removeCall, Option.map_map, Option.map_eq_some_iff] at result
    obtain ⟨removed, result, rfl⟩ := result
    exact removal result
  | reserve newCapacity =>
    obtain ⟨-, rfl⟩ := reserveCall_eq_some_iff.mp result
    exact refines.reserve positive
  | squeeze =>
    obtain ⟨-, rfl⟩ := reserveCall_eq_some_iff.mp result
    exact refines.reserve positive
  | clear newCapacity =>
    cases result
    apply refines.clear
    unfold clearCall at positive
    split at positive
    · exact positive
    · rename_i same
      rwa [not_not.mp same] at positive

end Refines

/-! ## Runs -/

/-- A hash that the remainder leaves in range: an `int` that is not negative, or a `uint`. -/
def HashValue.Nonneg : HashValue → Prop
  | .int bits => 0 ≤ bits.toInt
  | .uint _ => True

theorem fits_of_nonneg {hash : HashValue} {capacity : Word} (nonneg : hash.Nonneg) (positive : 0 < capacity.toInt) :
    Fits hash capacity := by
  cases hash with
  | int bits => exact ⟨positive, .inl nonneg⟩
  | uint bits => exact ⟨positive, trivial⟩

/-- The calls that store and remove single keys, and `reserve` of some capacity. -/
def Call.Plain : Call Key T → Prop
  | .insert _ _ | .index _ | .assign _ _ | .take _ | .remove _ => True
  | .reserve newCapacity => 0 < newCapacity.toInt
  | .squeeze | .clear _ => False

/-- A call on one key whose hash is not negative, or `reserve` of some capacity. -/
def Call.Usable (qHash : Key → HashValue) : Call Key T → Prop
  | .insert key _ | .index key | .assign key _ | .take key | .remove key => (qHash key).Nonneg
  | .reserve newCapacity => 0 < newCapacity.toInt
  | .squeeze | .clear _ => False

/-- The keys of a map have hashes that are not negative. -/
def Usable (qHash : Key → HashValue) (map : Key → Option T) : Prop := ∀ key, map key ≠ none → (qHash key).Nonneg

theorem usable_update (usable : Usable qHash map) (nonneg : (qHash key).Nonneg) (value : Option T) :
    Usable qHash (Function.update map key value) := by
  intro other present
  by_cases same : other = key
  · rwa [same]
  · rw [Function.update_of_ne same] at present
    exact usable other present

theorem usable_store [Inhabited T] (usable : Usable qHash map) {call : Call Key T} (named : call.Usable qHash) :
    Usable qHash (store map call) := by
  cases call with
  | insert key value => exact usable_update usable named _
  | index key => exact usable_update usable named _
  | assign key value => exact usable_update usable named _
  | take key => exact usable_update usable named _
  | remove key => exact usable_update usable named _
  | reserve newCapacity => exact usable
  | squeeze => exact named.elim
  | clear newCapacity => exact named.elim

namespace Refines

theorem usable_node (refines : Refines qHash h map) (usable : Usable qHash map) {node : Key × T} (member : node ∈ h.nodes) :
    (qHash node.1).Nonneg := by
  apply usable
  rw [← refines.value, refines.placed.value_eq_some_iff.mpr (show (node.1, node.2) ∈ h.nodes from member)]
  exact Option.some_ne_none _

/-- While the size is small, doubling the capacity does not overflow. -/
theorem grown_positive (refines : Refines qHash h map) (room : h.mSize.toNat < 2 ^ 29) :
    0 < (grown (words qHash) h).mCapacity.toInt := by
  have positive := refines.placed.positive
  unfold grown
  split
  · rename_i full
    have double : (h.mCapacity * 2#32).toNat = h.mCapacity.toNat * 2 := by
      rw [BitVec.toNat_mul, ← full]
      apply Nat.mod_eq_of_lt
      simp only [BitVec.toNat_ofNat]
      omega
    rw [full] at room
    have small : (h.mCapacity * 2#32).toInt = h.mCapacity.toNat * 2 := by
      rw [BitVec.toInt_eq_toNat_of_lt (by omega), double]
      rfl
    simp only [QHash.reserve]
    omega
  · exact refines.capacity

theorem insertCall_eq (refines : Refines qHash h map) (usable : Usable qHash map) (room : h.mSize.toNat < 2 ^ 29)
    (nonneg : (qHash key).Nonneg) (value : T) :
    insertCall qHash h key value = some (h.insert (words qHash) key value) := by
  have positive := refines.grown_positive room
  refine insertCall_eq_some_iff.mpr ⟨fun full node member => ?_, fits_of_nonneg nonneg positive, rfl⟩
  apply fits_of_nonneg (refines.usable_node usable member)
  rwa [grown, if_pos full] at positive

theorem mSize_insert (refines : Refines qHash h map) (room : h.mSize.toNat < 2 ^ 29) (key : Key) (value : T) :
    (h.insert (words qHash) key value).mSize.toNat ≤ h.mSize.toNat + 1 :=
  (refines.placed.insert room key value).2.2

/-- `reserve` moves the nodes and neither loses nor copies one. -/
theorem nodes_reserve_perm (refines : Refines qHash h map) {newCapacity : Word} (positive : 0 < newCapacity.toInt) :
    (h.reserve (words qHash) newCapacity).nodes.Perm h.nodes := by
  obtain ⟨placed, same⟩ := refines.placed.reserve (toNat_pos_of_toInt positive)
  apply (List.perm_ext_iff_of_nodup placed.nodup_keys.of_map refines.placed.nodup_keys.of_map).mpr
  exact same

/-- Inserting a key that is there leaves the nodes their keys. -/
theorem keys_insert_perm (refines : Refines qHash h map) (room : h.mSize.toNat < 2 ^ 29) (key : Key) (value : T)
    (present : map key ≠ none) :
    ((h.insert (words qHash) key value).nodes.map Prod.fst).Perm (h.nodes.map Prod.fst) := by
  obtain ⟨placed, members, -⟩ := refines.placed.insert room key value
  have there : key ∈ h.nodes.map Prod.fst := by
    obtain ⟨found, some⟩ := Option.ne_none_iff_exists'.mp present
    rw [← refines.value, refines.placed.value_eq_some_iff] at some
    exact List.mem_map.mpr ⟨_, some, rfl⟩
  apply (List.perm_ext_iff_of_nodup placed.nodup_keys refines.placed.nodup_keys).mpr
  intro other
  simp only [List.mem_map, members]
  constructor
  · rintro ⟨node, rfl | ⟨-, member⟩, rfl⟩
    · exact List.mem_map.mp there
    · exact ⟨node, member, rfl⟩
  · rintro ⟨node, member, rfl⟩
    by_cases same : node.1 = key
    · exact ⟨(key, value), .inl rfl, same.symm⟩
    · exact ⟨node, .inr ⟨same, member⟩, rfl⟩

variable [Inhabited T]

theorem indexCall_defined (refines : Refines qHash h map) (usable : Usable qHash map) (room : h.mSize.toNat < 2 ^ 29)
    (nonneg : (qHash key).Nonneg) : ∃ h', QHash.indexCall qHash h key = some h' ∧
      0 < h'.mCapacity.toInt ∧ h'.mSize.toNat ≤ h.mSize.toNat + 1 := by
  unfold QHash.indexCall
  rw [node_of_fits h (fits_of_nonneg nonneg refines.capacity), refines.value]
  cases map key with
  | some value => exact ⟨h, rfl, refines.capacity, Nat.le_succ _⟩
  | none =>
    have after := refines.insert key default (refines.grown_positive room)
    refine ⟨h.insert (words qHash) key default, ?_, after.capacity, refines.mSize_insert room key default⟩
    simp only [Option.bind_eq_bind, Option.bind_some, refines.insertCall_eq usable room nonneg,
      node_of_fits _ (fits_of_nonneg nonneg after.capacity), after.value, Function.update_self]
    rfl

/-- Where no hash is negative, every such call has its result. -/
theorem usable_call (refines : Refines qHash h map) (usable : Usable qHash map) (room : h.mSize.toNat < 2 ^ 29)
    (call : Call Key T) (named : call.Usable qHash) :
    ∃ h', QHash.perform qHash h call = some h' ∧ 0 < h'.mCapacity.toInt ∧ h'.mSize.toNat ≤ h.mSize.toNat + 1 := by
  cases call with
  | insert key value =>
    refine ⟨_, refines.insertCall_eq usable room named value, ?_, refines.mSize_insert room key value⟩
    exact (refines.insert key value (refines.grown_positive room)).capacity
  | index key => exact refines.indexCall_defined usable room named
  | assign key value =>
    obtain ⟨h₁, index, positive, size⟩ := refines.indexCall_defined usable room named
    refine ⟨{ h₁ with mArray := h₁.mArray.modify (toArrayIndex (words qHash) key h₁.mCapacity) (QHash.setBody key value) },
      ?_, positive, size⟩
    simp only [QHash.perform, assignCall, index, Option.bind_eq_bind, Option.bind_some,
      slot_of_fits (fits_of_nonneg named positive)]
    rfl
  | take key =>
    refine ⟨h.remove (words qHash) key, ?_, refines.capacity, Nat.le_succ _⟩
    simp [QHash.perform, takeCall, removeFromTable_of_fits h (fits_of_nonneg named refines.capacity)]
  | remove key =>
    refine ⟨h.remove (words qHash) key, ?_, refines.capacity, Nat.le_succ _⟩
    simp [QHash.perform, removeCall, removeFromTable_of_fits h (fits_of_nonneg named refines.capacity)]
  | reserve newCapacity =>
    refine ⟨_, reserveCall_eq_some_iff.mpr ⟨fun node member => ?_, rfl⟩, named, Nat.le_succ _⟩
    exact fits_of_nonneg (refines.usable_node usable member) named
  | squeeze => exact named.elim
  | clear newCapacity => exact named.elim

theorem usable_calls {h : QHash Key T} {map : Key → Option T} (refines : Refines qHash h map) (usable : Usable qHash map)
    (calls : List (Call Key T)) (few : h.mSize.toNat + calls.length < 2 ^ 29) (named : ∀ call ∈ calls, call.Usable qHash) :
    ∃ h', performAll qHash h calls = some h' ∧ Refines qHash h' (storeAll map calls) ∧
      Usable qHash (storeAll map calls) ∧ h'.mSize.toNat < 2 ^ 29 := by
  induction calls generalizing h map with
  | nil => exact ⟨h, rfl, refines, usable, by simpa using few⟩
  | cons call rest ih =>
    rw [List.length_cons] at few
    have first := named call List.mem_cons_self
    obtain ⟨h₁, result, positive, size⟩ := refines.usable_call usable (by omega) call first
    have after := refines.perform call result positive
    obtain ⟨h', results, final⟩ := ih after (usable_store usable first) (by omega)
      (fun call later => named call (List.mem_cons_of_mem _ later))
    refine ⟨h', ?_, final⟩
    rw [performAll, result]
    exact results

theorem valueCall_eq (refines : Refines qHash h map) (nonneg : (qHash key).Nonneg) :
    valueCall qHash h key = some ((map key).getD default) := by
  rw [valueCall, node_of_fits h (fits_of_nonneg nonneg refines.capacity), refines.value]
  rfl

end Refines

section Map

variable [Inhabited T]

/-- A `QHash` is a finite map: over any run from an empty one, it gives the last value stored for each key. Its
nodes stay where the code looks for them, one for each key, and rehashing keeps them all. -/
theorem refines_finite_map (qHash : Key → HashValue) (nonneg : ∀ key, (qHash key).Nonneg) (calls : List (Call Key T))
    (few : calls.length < 2 ^ 29) (plain : ∀ call ∈ calls, call.Plain) :
    ∃ h : QHash Key T, performAll qHash (init defaultCapacity) calls = some h ∧
      (∀ key, valueCall qHash h key = some ((storeAll (fun _ => none) calls key).getD default)) ∧
      (∀ i, ∀ node ∈ h.chain i, slot (qHash node.1) h.mCapacity = some i) ∧ (h.nodes.map Prod.fst).Nodup ∧
      (∀ key value, storeAll (fun _ => none) calls key ≠ none → ∃ h', insertCall qHash h key value = some h' ∧
        valueCall qHash h' key = some value ∧ (h'.nodes.map Prod.fst).Perm (h.nodes.map Prod.fst)) ∧
      ∀ newCapacity : Word, 0 < newCapacity.toInt →
        ∃ h', reserveCall qHash h newCapacity = some h' ∧ h'.nodes.Perm h.nodes := by
  have start : Refines qHash (init defaultCapacity : QHash Key T) (fun _ => none) := refines_init (by decide)
  have named (call) (member : call ∈ calls) : call.Usable qHash := by
    have isPlain := plain call member
    cases call <;> first | exact nonneg _ | exact isPlain
  obtain ⟨h, result, refines, usable, room⟩ :=
    start.usable_calls (fun key _ => nonneg key) calls (by simpa [init] using few) named
  refine ⟨h, result, fun key => refines.valueCall_eq (nonneg key), ?_, refines.placed.nodup_keys, ?_, ?_⟩
  · intro i node member
    rw [slot_of_fits (fits_of_nonneg (nonneg node.1) refines.capacity), refines.placed.placed i node member]
  · intro key value present
    refine ⟨_, refines.insertCall_eq usable room (nonneg key) value, ?_, refines.keys_insert_perm room key value present⟩
    rw [(refines.insert key value (refines.grown_positive room)).valueCall_eq (nonneg key), Function.update_self]
    rfl
  · intro newCapacity positive
    refine ⟨_, reserveCall_eq_some_iff.mpr ⟨fun node _ => ?_, rfl⟩, refines.nodes_reserve_perm positive⟩
    exact fits_of_nonneg (nonneg node.1) positive

/-- Three ports, stored, removed and stored again in an array that doubles. -/
theorem stored_ports : ∃ h : QHash (BitVec 16) Nat,
    performAll (fun port => .int (port.setWidth 32)) (init defaultCapacity)
      [.insert 7#16 1, .insert 9#16 2, .remove 7#16, .insert 80#16 3, .assign 9#16 5] = some h ∧
    valueCall (fun port => .int (port.setWidth 32)) h 9#16 = some 5 := by
  have nonneg (port : BitVec 16) : HashValue.Nonneg (.int (port.setWidth 32)) := by
    have bound := port.isLt
    simp only [HashValue.Nonneg]
    rw [BitVec.toInt_eq_toNat_of_lt] <;> simp only [BitVec.toNat_setWidth] <;> omega
  obtain ⟨h, result, values, -⟩ := refines_finite_map (fun port : BitVec 16 => .int (port.setWidth 32)) nonneg
    [.insert 7#16 1, .insert 9#16 2, .remove 7#16, .insert 80#16 3, .assign 9#16 5] (by decide)
    (by simp [Call.Plain])
  exact ⟨h, result, values 9#16⟩

end Map
end FluxOS.QHash
