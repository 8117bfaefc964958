import FluxOS.QHashMap
import FluxOS.TmpFS
import FluxOS.VNodeManager

/-! Which chain of a `QHash` a key goes to, over any use of a table: for the keys that
the kernel has, and for the capacities that its calls give a table. -/
namespace FluxOS.QHash
open Words UserMemoryOps

variable {Key T : Type}

/-- What can be done with a table: a call that changes it, a look for a key, or taking a copy of it. -/
inductive Use (Key T : Type) where
  | change (call : Call Key T)
  | value (key : Key)
  | copy

section Uses

variable [DecidableEq Key] [Inhabited T] (qHash : Key → HashValue)

def use (h : QHash Key T) : Use Key T → Option (QHash Key T)
  | .change call => perform qHash h call
  | .value key => (node qHash h key).map fun _ => h
  | .copy => some (copyOf h)

/-- All through these uses every index is one of the array, and the table has a capacity. -/
def Safe (h : QHash Key T) : List (Use Key T) → Prop
  | [] => 0 < h.mCapacity.toInt
  | u :: rest => 0 < h.mCapacity.toInt ∧ ∃ h', use qHash h u = some h' ∧ Safe h' rest

/-- A key can be inserted: doubling, where it is due, leaves every node and the key a chain. -/
def Insertable (h : QHash Key T) (key : Key) : Prop :=
  Grows qHash h ∧ Fits (qHash key) (if h.mSize = h.mCapacity then h.mCapacity * 2#32 else h.mCapacity)

/-- The capacities that a call asks for are positive, and the hashes of the keys it is about fit them. -/
def Meets (h : QHash Key T) : Use Key T → Prop
  | .change (.insert key _) => Insertable qHash h key
  | .change (.index key) | .change (.assign key _) =>
    Fits (qHash key) h.mCapacity ∧ (h.value (words qHash) key = none → Insertable qHash h key)
  | .change (.take key) | .change (.remove key) | .value key => Fits (qHash key) h.mCapacity
  | .change (.reserve newCapacity) => 0 < newCapacity.toInt ∧ ∀ node ∈ h.nodes, Fits (qHash node.1) newCapacity
  | .change .squeeze => 0 < h.mSize.toInt ∧ ∀ node ∈ h.nodes, Fits (qHash node.1) h.mSize
  | .change (.clear newCapacity) => 0 < newCapacity.toInt
  | .copy => True

/-- Each use meets its condition in the table that the ones before it leave. -/
def MeetsAll (h : QHash Key T) : List (Use Key T) → Prop
  | [] => True
  | u :: rest => Meets qHash h u ∧ ∀ h', use qHash h u = some h' → MeetsAll h' rest

end Uses

/-! ## The keys of the kernel -/

/-- The key types of the kernel's tables: an IPv4 address as it stands in a packet, a PID, a port, the identities
of nodes and of devices, a name and an IPv6 address. -/
inductive KernelKey where
  | ipAddress (addr : Word)
  | pid (pid : Word)
  | port (port : BitVec 16)
  | vnodeId (id : VNodeId)
  | devId (major minor : Word)
  | name (str : List Char)
  | ip6Address (addr : BitVec 128)
  deriving DecidableEq

/-- The sixteen bytes of an IPv6 address. -/
def addrbytes (addr : BitVec 128) : List Byte := (List.range 16).map fun i => addr.extractLsb' (8 * i) 8

/-- The sum of the bytes, as an `int`. -/
def sumBytes (sum : Word) : List Byte → Word
  | [] => sum
  | byte :: rest => sumBytes (sum + byte.setWidth 32) rest

/-- The overload of `qHash` for each of them. A port is promoted to an `int`. -/
def kernelHash : KernelKey → HashValue
  | .ipAddress addr => .int addr
  | .pid pid => .int pid
  | .port port => .int (port.setWidth 32)
  | .vnodeId id => .uint (VNodeManager.qHash id)
  | .devId major minor => .uint (minor + major)
  | .name str => .uint (TmpFS.qHash str)
  | .ip6Address addr => .int (sumBytes 0#32 (addrbytes addr))

/-- IPv4 addresses and PIDs are the keys whose hash can be negative. -/
def KeyFits : KernelKey → Word → Prop
  | .ipAddress bits, capacity | .pid bits, capacity => 0 ≤ bits.toInt ∨ capacity.toInt ∣ bits.toInt
  | _, _ => True

theorem sumBytes_le (bytes : List Byte) (sum : Word) (room : sum.toNat + 255 * bytes.length < 2 ^ 32) :
    (sumBytes sum bytes).toNat ≤ sum.toNat + 255 * bytes.length := by
  induction bytes generalizing sum with
  | nil => simp [sumBytes]
  | cons byte rest ih =>
    have small := byte.isLt
    rw [List.length_cons] at room ⊢
    have next : (sum + byte.setWidth 32).toNat = sum.toNat + byte.toNat := by
      rw [BitVec.toNat_add, BitVec.toNat_setWidth_of_le (by decide)]
      apply Nat.mod_eq_of_lt
      omega
    have later := ih (sum + byte.setWidth 32) (by omega)
    rw [sumBytes]
    omega

theorem fits_kernelHash (key : KernelKey) {capacity : Word} (positive : 0 < capacity.toInt) :
    Fits (kernelHash key) capacity ↔ KeyFits key capacity := by
  have nonneg {w : Word} (small : w.toNat < 2 ^ 31) : 0 ≤ w.toInt := by
    rw [BitVec.toInt_eq_toNat_of_lt (by omega)]
    exact Int.natCast_nonneg _
  cases key with
  | ipAddress addr => simp [Fits, kernelHash, KeyFits, positive]
  | pid pid => simp [Fits, kernelHash, KeyFits, positive]
  | port port =>
    have bound := port.isLt
    have hash : 0 ≤ (port.setWidth 32).toInt := nonneg (by rw [BitVec.toNat_setWidth_of_le (by decide)]; omega)
    exact ⟨fun _ => trivial, fun _ => ⟨positive, .inl hash⟩⟩
  | vnodeId id => simp [Fits, kernelHash, KeyFits, positive]
  | devId major minor => simp [Fits, kernelHash, KeyFits, positive]
  | name str => simp [Fits, kernelHash, KeyFits, positive]
  | ip6Address addr =>
    have bound := sumBytes_le (addrbytes addr) 0#32 (by simp [addrbytes])
    have hash : 0 ≤ (sumBytes 0#32 (addrbytes addr)).toInt := nonneg (by simp [addrbytes] at bound ⊢; omega)
    exact ⟨fun _ => trivial, fun _ => ⟨positive, .inl hash⟩⟩

/-! ## Uses whose indices are right -/

section Safety

variable [DecidableEq Key] {qHash : Key → HashValue} {h h' : QHash Key T} {map : Key → Option T} {key : Key}

theorem insertCall_eq_some_iff_insertable {value : T} : insertCall qHash h key value = some h' ↔
    Insertable qHash h key ∧ h' = h.insert (words qHash) key value := by
  rw [insertCall_eq_some_iff, mCapacity_grown, Insertable, and_assoc]

/-- What is left after an insertion has the capacity that the key was placed by. -/
theorem Insertable.fits (insertable : Insertable qHash h key) (value : T) :
    Fits (qHash key) (h.insert (words qHash) key value).mCapacity := by
  rw [Refines.mCapacity_insert, mCapacity_grown]
  exact insertable.2

theorem Refines.insertable (refines : Refines qHash h map) (insertable : Insertable qHash h key) (value : T) :
    Refines qHash (h.insert (words qHash) key value) (Function.update map key (some value)) := by
  apply refines.insert
  rw [mCapacity_grown]
  exact insertable.2.1

/-- What `take` and `remove` do to the table. -/
theorem Refines.removal_iff (refines : Refines qHash h map) :
    (∃ h', (removeFromTable qHash h key).map Prod.snd = some h' ∧ 0 < h'.mCapacity.toInt) ↔
      Fits (qHash key) h.mCapacity := by
  by_cases fits : Fits (qHash key) h.mCapacity
  · rw [removeFromTable_of_fits h fits]
    exact ⟨fun _ => fits, fun _ => ⟨h.remove (words qHash) key, rfl, refines.capacity⟩⟩
  · simp [removeFromTable, slot_eq_none fits, fits]

omit [DecidableEq Key] in
/-- What `reserve` and `squeeze` do. -/
theorem reserveCall_iff {newCapacity : Word} :
    (∃ h', reserveCall qHash h newCapacity = some h' ∧ 0 < h'.mCapacity.toInt) ↔
      0 < newCapacity.toInt ∧ ∀ node ∈ h.nodes, Fits (qHash node.1) newCapacity := by
  constructor
  · rintro ⟨h', result, positive⟩
    obtain ⟨fits, rfl⟩ := reserveCall_eq_some_iff.mp result
    exact ⟨positive, fits⟩
  · rintro ⟨positive, fits⟩
    exact ⟨_, reserveCall_eq_some_iff.mpr ⟨fits, rfl⟩, positive⟩

variable [Inhabited T]

theorem Refines.indexCall_eq_some_iff (refines : Refines qHash h map) : QHash.indexCall qHash h key = some h' ↔
    Fits (qHash key) h.mCapacity ∧ if h.value (words qHash) key = none
      then Insertable qHash h key ∧ h' = h.insert (words qHash) key default else h' = h := by
  unfold QHash.indexCall
  by_cases fits : Fits (qHash key) h.mCapacity
  · rw [node_of_fits h fits, Option.bind_eq_bind, Option.bind_some]
    cases present : h.value (words qHash) key with
    | some value => simp [fits, eq_comm]
    | none =>
      simp only [fits, true_and, if_true]
      constructor
      · intro result
        obtain ⟨h₁, inserted, result⟩ := Option.bind_eq_some_iff.mp result
        obtain ⟨insertable, rfl⟩ := insertCall_eq_some_iff_insertable.mp inserted
        have after := refines.insertable insertable default
        rw [node_of_fits _ (insertable.fits default), after.value, Function.update_self, Option.bind_some] at result
        cases result
        exact ⟨insertable, rfl⟩
      · rintro ⟨insertable, rfl⟩
        have after := refines.insertable insertable default
        rw [insertCall_eq_some_iff_insertable.mpr ⟨insertable, rfl⟩, Option.bind_eq_bind, Option.bind_some,
          node_of_fits _ (insertable.fits default), after.value, Function.update_self]
        rfl
  · rw [node, slot_eq_none fits]
    simp [fits]

/-- A table that `indexCall` leaves has the capacity that the key is placed by. -/
theorem Refines.fits_of_indexCall (refines : Refines qHash h map) (result : QHash.indexCall qHash h key = some h') :
    Fits (qHash key) h'.mCapacity := by
  obtain ⟨fits, rest⟩ := refines.indexCall_eq_some_iff.mp result
  split at rest
  · obtain ⟨insertable, rfl⟩ := rest
    exact insertable.fits default
  · rwa [rest]

theorem Refines.indexCall_iff (refines : Refines qHash h map) :
    (∃ h', QHash.indexCall qHash h key = some h') ↔ Meets qHash h (.change (.index key)) := by
  simp only [refines.indexCall_eq_some_iff, Meets]
  by_cases absent : h.value (words qHash) key = none <;> simp [absent]

/-- Every index of a use is right, and it leaves a capacity, exactly when it meets its condition. -/
theorem Refines.use_iff (refines : Refines qHash h map) (u : Use Key T) :
    (∃ h', use qHash h u = some h' ∧ 0 < h'.mCapacity.toInt) ↔ Meets qHash h u := by
  cases u with
  | change call =>
    cases call with
    | insert key value =>
      constructor
      · rintro ⟨h', result, -⟩
        exact (insertCall_eq_some_iff_insertable.mp result).1
      · intro insertable
        exact ⟨_, insertCall_eq_some_iff_insertable.mpr ⟨insertable, rfl⟩, (insertable.fits value).1⟩
    | index key =>
      rw [← refines.indexCall_iff]
      constructor
      · rintro ⟨h', result, -⟩
        exact ⟨h', result⟩
      · rintro ⟨h', result⟩
        exact ⟨h', result, (refines.fits_of_indexCall result).1⟩
    | assign key value =>
      change _ ↔ Meets qHash h (.change (.index key))
      rw [← refines.indexCall_iff]
      constructor
      · rintro ⟨h', result, -⟩
        obtain ⟨h₁, found, -⟩ := Option.bind_eq_some_iff.mp result
        exact ⟨h₁, found⟩
      · rintro ⟨h₁, found⟩
        have fits := refines.fits_of_indexCall found
        refine ⟨{ h₁ with mArray := h₁.mArray.modify (toArrayIndex (words qHash) key h₁.mCapacity) (QHash.setBody key value) },
          ?_, fits.1⟩
        simp only [QHash.use, QHash.perform, assignCall, found, Option.bind_eq_bind, Option.bind_some, slot_of_fits fits]
        rfl
    | take key =>
      have same : QHash.use qHash h (.change (.take key)) = (removeFromTable qHash h key).map Prod.snd := Option.map_map ..
      rw [same]
      exact refines.removal_iff
    | remove key =>
      have same : QHash.use qHash h (.change (.remove key)) = (removeFromTable qHash h key).map Prod.snd :=
        Option.map_map ..
      rw [same]
      exact refines.removal_iff
    | reserve newCapacity => exact reserveCall_iff
    | squeeze => exact reserveCall_iff
    | clear newCapacity =>
      have after : (clearCall h newCapacity).mCapacity = newCapacity := by
        unfold clearCall
        split
        · rfl
        · rename_i same
          exact not_not.mp same
      simp [QHash.use, QHash.perform, after, Meets]
  | value key =>
    by_cases fits : Fits (qHash key) h.mCapacity
    · simp [QHash.use, node_of_fits h fits, Meets, fits, refines.capacity]
    · simp [QHash.use, node, slot_eq_none fits, Meets, fits]
  | copy =>
    have after := refines.copyOf.capacity
    simp [QHash.use, Meets, after]

/-- A use that leaves a capacity leaves a table that holds a map. -/
theorem Refines.use (refines : Refines qHash h map) (u : Use Key T) (result : QHash.use qHash h u = some h')
    (positive : 0 < h'.mCapacity.toInt) : ∃ map', Refines qHash h' map' := by
  cases u with
  | change call => exact ⟨_, refines.perform call result positive⟩
  | value key =>
    simp only [QHash.use, Option.map_eq_some_iff] at result
    obtain ⟨_, _, rfl⟩ := result
    exact ⟨map, refines⟩
  | copy =>
    cases result
    exact ⟨_, refines.copyOf⟩

theorem Refines.safe_iff (uses : List (Use Key T)) {h : QHash Key T} {map : Key → Option T} (refines : Refines qHash h map) :
    Safe qHash h uses ↔ MeetsAll qHash h uses := by
  induction uses generalizing h map with
  | nil => simp [Safe, MeetsAll, refines.capacity]
  | cons u rest ih =>
    simp only [Safe, MeetsAll, refines.capacity, true_and]
    constructor
    · rintro ⟨h', result, safe⟩
      have positive : 0 < h'.mCapacity.toInt := by
        cases rest with
        | nil => exact safe
        | cons next later => exact safe.1
      obtain ⟨map', after⟩ := refines.use u result positive
      refine ⟨(refines.use_iff u).mp ⟨h', result, positive⟩, fun h₁ same => ?_⟩
      cases result.symm.trans same
      exact (ih after).mp safe
    · rintro ⟨meets, later⟩
      obtain ⟨h', result, positive⟩ := (refines.use_iff u).mpr meets
      obtain ⟨map', after⟩ := refines.use u result positive
      exact ⟨h', result, (ih after).mpr (later h' result)⟩

end Safety

/-- The indices are right in any use of a table of the kernel exactly where the capacities asked for are positive
and no address or PID with its top bit set is used that the capacity does not divide. -/
theorem indices_right_iff [Inhabited T] :
    (∀ (capacity : Word) (uses : List (Use KernelKey T)), Safe kernelHash (init capacity) uses ↔
      0 < capacity.toInt ∧ MeetsAll kernelHash (init capacity) uses) ∧
    ∀ (key : KernelKey) (capacity : Word),
      (∃ i, remainder (kernelHash key) capacity = some i ∧ 0 ≤ i.toInt ∧ i.toInt < capacity.toInt) ↔
        0 < capacity.toInt ∧ KeyFits key capacity := by
  constructor
  · intro capacity uses
    by_cases positive : 0 < capacity.toInt
    · have start : Refines kernelHash (init capacity : QHash KernelKey T) (fun _ => none) := refines_init positive
      simp only [start.safe_iff, positive, true_and]
    · cases uses with
      | nil => simp [Safe, MeetsAll, init]
      | cons u rest => simp [Safe, init, positive]
  · intro key capacity
    have index : (∃ i, remainder (kernelHash key) capacity = some i ∧ 0 ≤ i.toInt ∧ i.toInt < capacity.toInt) ↔
        slot (kernelHash key) capacity ≠ none := by
      unfold slot
      cases remainder (kernelHash key) capacity with
      | none => simp
      | some i =>
        simp only [Option.some.injEq, exists_eq_left']
        by_cases index : IsIndex i capacity
        · simp only [if_pos index, ne_eq, reduceCtorEq, not_false_eq_true, iff_true]
          exact index
        · simp only [if_neg index, ne_eq, not_true_eq_false, iff_false]
          exact index
    rw [index, slot_eq]
    by_cases positive : 0 < capacity.toInt
    · simp [fits_kernelHash key positive, positive]
    · simp [Fits, positive]

/-- An ARP packet whose sender says it has the address 169.254.0.200: the new table of addresses is written one entry
before its array. -/
theorem sender_before_array :
    remainder (kernelHash (.ipAddress 0xC800FEA9#32)) defaultCapacity = some (-1#32) ∧
    ¬Safe kernelHash (init defaultCapacity : QHash KernelKey (BitVec 48))
      [.change (.insert (.ipAddress 0xC800FEA9#32) 0x525400123456#48)] := by
  refine ⟨by decide, ?_⟩
  rintro ⟨-, h', result, -⟩
  have outside : insertCall kernelHash (init defaultCapacity : QHash KernelKey (BitVec 48)) (.ipAddress 0xC800FEA9#32)
      0x525400123456#48 = none := by decide
  exact absurd (outside.symm.trans result) (by simp)

end FluxOS.QHash
