import FluxOS.QHashMap

/-! Copies of a `QHash`: what a copy has of the table it was made from. Its chains are
those of the table, its size is always that of an empty one. -/
namespace FluxOS.QHash
open Words

variable {Key T : Type} {qHash : Key → HashValue} {h h' : QHash Key T} {key : Key} {map : Key → Option T}

/-- A table after any calls: each node in its chain as far as there are chains, and in a chain at all. -/
structure Sound (qHash : Key → HashValue) (h : QHash Key T) : Prop where
  placed : 0 < h.mCapacity.toInt → Placed (words qHash) h
  fits : ∀ node ∈ h.nodes, Fits (qHash node.1) h.mCapacity

/-- No node fits into a table without chains. -/
theorem nodes_eq_nil {capacity : Word} (fits : ∀ node ∈ h.nodes, Fits (qHash node.1) capacity)
    (none : ¬0 < capacity.toInt) : h.nodes = [] := by
  apply List.eq_nil_iff_forall_not_mem.mpr
  intro node member
  exact none (fits node member).1

/-- `reserve` without a node. -/
theorem reserve_of_nil (none : h.nodes = []) (newCapacity : Word) :
    h.reserve (words qHash) newCapacity = ⟨h.mSize, newCapacity, List.replicate newCapacity.toNat []⟩ := by
  simp [QHash.reserve, rehash, none]

namespace Sound

theorem unique (sound : Sound qHash h) : (h.nodes.map Prod.fst).Nodup := by
  by_cases positive : 0 < h.mCapacity.toInt
  · exact (sound.placed positive).nodup_keys
  · simp [nodes_eq_nil sound.fits positive]

/-- A table without nodes. -/
theorem replicate (size capacity : Word) : Sound qHash (⟨size, capacity, List.replicate capacity.toNat []⟩ : QHash Key T) := by
  refine ⟨fun positive => ?_, fun node member => ?_⟩
  · obtain ⟨placed, -⟩ : Placed (words qHash) (init capacity : QHash Key T) ∧ _ := placed_init (toNat_pos_of_toInt positive)
    exact ⟨placed.array, placed.positive, placed.placed, placed.unique⟩
  · simp [nodes] at member

theorem reserve (sound : Sound qHash h) {newCapacity : Word} (fits : ∀ node ∈ h.nodes, Fits (qHash node.1) newCapacity) :
    Sound qHash (h.reserve (words qHash) newCapacity) := by
  by_cases positive : 0 < newCapacity.toInt
  · obtain ⟨placed, same⟩ := placed_reserve (h := h) sound.unique (toNat_pos_of_toInt positive)
    exact ⟨fun _ => placed, fun node member => fits node ((same node).mp member)⟩
  · rw [reserve_of_nil (nodes_eq_nil fits positive)]
    exact replicate h.mSize newCapacity

theorem copyOf (sound : Sound qHash h) : Sound qHash (copyOf h) := by
  unfold QHash.copyOf
  split
  · exact replicate 0#32 h.mCapacity
  · refine ⟨fun positive => ?_, fun node member => ?_⟩
    · have placed := sound.placed positive
      rw [placed.map_chain]
      exact ⟨placed.array, placed.positive, placed.placed, placed.unique⟩
    · obtain ⟨found, inside, member⟩ := List.mem_flatten.mp member
      obtain ⟨i, -, rfl⟩ := List.mem_map.mp inside
      exact sound.fits node (mem_nodes.mpr ⟨i, member⟩)

/-- A change to the chain of one key. -/
theorem modify (sound : Sound qHash h) (fits : Fits (qHash key) h.mCapacity) {change : List (Key × T) → List (Key × T)}
    (inside : ∀ {node chain}, node ∈ change chain → node.1 = key ∨ node ∈ chain)
    (unique : ∀ {chain}, (chain.map Prod.fst).Nodup → ((change chain).map Prod.fst).Nodup) :
    Sound qHash { h with mArray := h.mArray.modify (toArrayIndex (words qHash) key h.mCapacity) change } := by
  have before := sound.placed fits.1
  have kept := before.modify key h.mSize (fun node => inside) (unique (before.unique _))
  refine ⟨fun _ => kept, fun node member => ?_⟩
  have changed := (before.mem_modify key change h.mSize kept node).mp member
  split at changed
  · obtain rfl | old := inside changed
    · exact fits
    · exact sound.fits node (mem_nodes.mpr ⟨_, old⟩)
  · exact sound.fits node changed

variable [DecidableEq Key]

theorem insert (sound : Sound qHash h) {value : T} (result : insertCall qHash h key value = some h') : Sound qHash h' := by
  obtain ⟨grows, fits, rfl⟩ := insertCall_eq_some_iff.mp result
  have after : Sound qHash (grown (words qHash) h) := by
    unfold grown
    split
    · rename_i full
      exact sound.reserve (grows full)
    · exact sound
  obtain ⟨placed, members, -⟩ := (after.placed fits.1).insert_after rfl key value
  have capacity : (h.insert (words qHash) key value).mCapacity = (grown (words qHash) h).mCapacity :=
    Refines.mCapacity_insert h key value
  refine ⟨fun _ => placed, fun node member => ?_⟩
  rw [capacity]
  obtain rfl | ⟨-, before⟩ := (members node).mp member
  · exact fits
  · exact after.fits node before

theorem remove (sound : Sound qHash h) {removed : Option T × QHash Key T} (result : removeFromTable qHash h key = some removed) :
    Sound qHash removed.2 := by
  by_cases fits : Fits (qHash key) h.mCapacity
  · rw [removeFromTable_of_fits h fits, Option.some.injEq] at result
    subst result
    apply sound.modify fits
    · exact fun member => .inr (List.mem_of_mem_eraseP member)
    · exact fun unique => (List.eraseP_sublist.map Prod.fst).nodup unique
  · rw [removeFromTable, slot_eq_none fits] at result
    cases result

variable [Inhabited T]

theorem index (sound : Sound qHash h) (result : indexCall qHash h key = some h') : Sound qHash h' := by
  obtain ⟨found, -, result⟩ := Option.bind_eq_some_iff.mp result
  cases found with
  | some value =>
    cases result
    exact sound
  | none =>
    obtain ⟨h₁, inserted, result⟩ := Option.bind_eq_some_iff.mp result
    obtain ⟨again, -, result⟩ := Option.bind_eq_some_iff.mp result
    cases again with
    | some value =>
      cases result
      exact sound.insert inserted
    | none => cases result

theorem perform (sound : Sound qHash h) (call : Call Key T) (result : perform qHash h call = some h') : Sound qHash h' := by
  cases call with
  | insert key value => exact sound.insert result
  | index key => exact sound.index result
  | assign key value =>
    obtain ⟨h₁, found, result⟩ := Option.bind_eq_some_iff.mp result
    by_cases fits : Fits (qHash key) h₁.mCapacity
    · rw [slot_of_fits fits, Option.bind_eq_bind, Option.bind_some] at result
      cases result
      apply (sound.index found).modify fits
      · exact mem_setBody
      · intro chain unique
        rwa [map_fst_setBody]
    · rw [slot_eq_none fits] at result
      cases result
  | take key =>
    simp only [QHash.perform, takeCall, Option.map_map, Option.map_eq_some_iff] at result
    obtain ⟨removed, result, rfl⟩ := result
    exact sound.remove result
  | remove key =>
    simp only [QHash.perform, removeCall, Option.map_map, Option.map_eq_some_iff] at result
    obtain ⟨removed, result, rfl⟩ := result
    exact sound.remove result
  | reserve newCapacity =>
    obtain ⟨fits, rfl⟩ := reserveCall_eq_some_iff.mp result
    exact sound.reserve fits
  | squeeze =>
    obtain ⟨fits, rfl⟩ := reserveCall_eq_some_iff.mp result
    exact sound.reserve fits
  | clear newCapacity =>
    cases result
    unfold clearCall
    split
    · exact replicate 0#32 newCapacity
    · exact replicate h.mSize h.mCapacity

end Sound

theorem isEmpty_copyOf (h : QHash Key T) : (copyOf h).isEmpty = true := by
  unfold copyOf
  split <;> simp [isEmpty, init]

theorem mCapacity_copyOf (h : QHash Key T) : (copyOf h).mCapacity = h.mCapacity := by
  unfold copyOf
  split <;> rfl

section Copies

variable [DecidableEq Key] [Inhabited T]

/-- The tables there are: new ones, those that calls leave, and copies. -/
inductive Reached (qHash : Key → HashValue) : QHash Key T → Prop
  | init (capacity : Word) : Reached qHash (init capacity)
  | perform {table after : QHash Key T} (reached : Reached qHash table) (call : Call Key T)
      (result : perform qHash table call = some after) : Reached qHash after
  | copyOf {table : QHash Key T} (reached : Reached qHash table) : Reached qHash (copyOf table)

theorem Reached.sound (reached : Reached qHash h) : Sound qHash h := by
  induction reached with
  | init capacity => exact .replicate 0#32 capacity
  | perform _ call result ih => exact ih.perform call result
  | copyOf _ ih => exact ih.copyOf

/-- Insertion or removal of one key whose hash is not negative. -/
def Call.Single (qHash : Key → HashValue) : Call Key T → Prop
  | .insert key _ | .index key | .assign key _ | .take key | .remove key => (qHash key).Nonneg
  | .reserve _ | .squeeze | .clear _ => False

/-- A table goes on as a map: after any insertions and removals it gives what the map gives. -/
def StaysMap (qHash : Key → HashValue) (h : QHash Key T) (map : Key → Option T) : Prop :=
  ∀ calls : List (Call Key T), (∀ call ∈ calls, call.Single qHash) → calls.length < 2 ^ 29 →
    ∃ h', performAll qHash h calls = some h' ∧
      ∀ key, (qHash key).Nonneg → valueCall qHash h' key = some ((storeAll map calls key).getD default)

/-- What a copy should be: it has the values of the table, is empty when that is, and goes on as a map. -/
def Faithful (qHash : Key → HashValue) (h : QHash Key T) : Prop :=
  (∀ key, valueCall qHash (copyOf h) key = valueCall qHash h key) ∧ (copyOf h).isEmpty = h.isEmpty ∧
    StaysMap qHash (copyOf h) (h.value (words qHash))

/-- Maps that give the same values go on doing so. -/
theorem storeAll_getD_congr (calls : List (Call Key T)) {map other : Key → Option T}
    (same : ∀ key, (map key).getD default = (other key).getD default) (key : Key) :
    (storeAll map calls key).getD default = (storeAll other calls key).getD default := by
  induction calls generalizing map other with
  | nil => exact same key
  | cons call rest ih =>
    apply ih
    intro key
    cases call with
    | index changed =>
      by_cases here : key = changed
      · simp [store, here, same]
      · simp [store, here, same]
    | insert changed value | assign changed value =>
      by_cases here : key = changed <;> simp [store, here, same]
    | take changed | remove changed =>
      by_cases here : key = changed <;> simp [store, here, same]
    | reserve newCapacity => exact same key
    | squeeze => exact same key
    | clear newCapacity => rfl

theorem Refines.staysMap (refines : Refines qHash h map) (usable : Usable qHash map) (none : h.mSize = 0#32) :
    StaysMap qHash h map := by
  intro calls single few
  have named (call) (member : call ∈ calls) : call.Usable qHash := by
    have isSingle := single call member
    cases call <;> first | exact isSingle | exact isSingle.elim
  obtain ⟨h', result, after, -⟩ := refines.usable_calls usable calls (by simpa [none] using few) named
  exact ⟨h', result, fun key nonneg => after.valueCall_eq nonneg⟩

theorem valueCall_of_fits (h : QHash Key T) (fits : Fits (qHash key) h.mCapacity) :
    valueCall qHash h key = some ((h.value (words qHash) key).getD default) := by
  rw [valueCall, node_of_fits h fits]
  rfl

theorem valueCall_eq_none (h : QHash Key T) (unfit : ¬Fits (qHash key) h.mCapacity) : valueCall qHash h key = none := by
  rw [valueCall, node, slot_eq_none unfit]
  rfl

/-- A new table gives `T()`. -/
theorem Refines.valueCall_init {capacity : Word} (start : Refines qHash (init capacity : QHash Key T) (fun _ => none))
    (fits : Fits (qHash key) capacity) : valueCall qHash (init capacity : QHash Key T) key = some default := by
  have found : valueCall qHash (init capacity : QHash Key T) key = _ := valueCall_of_fits (init capacity) fits
  rw [found, start.value]
  rfl

/-- A copy is faithful exactly where there is nothing to copy: the size of the table is zero, and it gives `T()` for
every key. -/
theorem faithful_iff (reached : Reached qHash h) (usable : ∃ key, (qHash key).Nonneg) :
    Faithful qHash h ↔ 0 < h.mCapacity.toInt ∧ h.mSize = 0#32 ∧ ∀ node ∈ h.nodes, node.2 = default := by
  have sound := reached.sound
  constructor
  · rintro ⟨values, empty, stays⟩
    have none : h.mSize = 0#32 := by
      rw [isEmpty_copyOf] at empty
      simpa [isEmpty] using empty.symm
    have copy : copyOf h = init h.mCapacity := by
      rw [copyOf, if_pos (by simpa [isEmpty] using none)]
    have positive : 0 < h.mCapacity.toInt := by
      obtain ⟨key, nonneg⟩ := usable
      obtain ⟨h', result, found⟩ := stays [] (by simp) (by simp)
      cases result
      by_contra negative
      have gone := found key nonneg
      rw [valueCall_eq_none _ (by rw [mCapacity_copyOf]; exact fun fits => negative fits.1)] at gone
      cases gone
    refine ⟨positive, none, fun node member => ?_⟩
    have fits := sound.fits node member
    have stored : h.value (words qHash) node.1 = some node.2 :=
      (sound.placed positive).value_eq_some_iff.mpr member
    have same := values node.1
    have start : Refines qHash (init h.mCapacity : QHash Key T) (fun _ => .none) := refines_init positive
    rw [copy, start.valueCall_init fits, valueCall_of_fits h fits, stored] at same
    simpa using same.symm
  · rintro ⟨positive, none, stored⟩
    have copy : copyOf h = init h.mCapacity := by
      rw [copyOf, if_pos (by simpa [isEmpty] using none)]
    have start : Refines qHash (init h.mCapacity : QHash Key T) (fun _ => .none) := refines_init positive
    have defaults (key : Key) : (h.value (words qHash) key).getD default = default := by
      cases found : h.value (words qHash) key with
      | none => rfl
      | some value => exact stored _ ((sound.placed positive).value_eq_some_iff.mp found)
    refine ⟨fun key => ?_, ?_, ?_⟩
    · rw [copy]
      by_cases fits : Fits (qHash key) h.mCapacity
      · rw [start.valueCall_init fits, valueCall_of_fits h fits, defaults]
      · rw [valueCall_eq_none h fits]
        exact valueCall_eq_none (init h.mCapacity) fits
    · rw [isEmpty_copyOf]
      simp [isEmpty, none]
    · rw [copy]
      intro calls single few
      obtain ⟨h', result, found⟩ := start.staysMap (fun key present => absurd rfl present) rfl calls single few
      have same (key : Key) : (Option.none : Option T).getD default = (h.value (words qHash) key).getD default :=
        (defaults key).symm
      refine ⟨h', result, fun key nonneg => ?_⟩
      rw [found key nonneg, storeAll_getD_congr calls same]

/-- A table of ports into which nothing was put is copied faithfully. -/
theorem new_table_copied :
    Faithful (fun port : BitVec 16 => .int (port.setWidth 32)) (init 2#32 : QHash (BitVec 16) Nat) := by
  have usable : ∃ port : BitVec 16, HashValue.Nonneg (.int (port.setWidth 32)) :=
    ⟨0#16, show 0 ≤ ((0#16).setWidth 32).toInt by decide⟩
  refine (faithful_iff (.init 2#32) usable).mpr ⟨by decide, rfl, fun node member => ?_⟩
  simp [nodes, init] at member

/-- One port is stored. The copy says that it is empty, and the copy of the copy is. -/
theorem copy_of_copy_empty : ∃ h : QHash (BitVec 16) Nat,
    performAll (fun port => .int (port.setWidth 32)) (init defaultCapacity) [.insert 7#16 1] = some h ∧
    h.isEmpty = false ∧ (copyOf h).isEmpty = true ∧
    valueCall (fun port => .int (port.setWidth 32)) h 7#16 = some 1 ∧
    valueCall (fun port => .int (port.setWidth 32)) (copyOf (copyOf h)) 7#16 = some 0 :=
  ⟨⟨1#32, 2#32, [[], [(7#16, 1)]]⟩, rfl, rfl, rfl, rfl, rfl⟩

end Copies
end FluxOS.QHash
