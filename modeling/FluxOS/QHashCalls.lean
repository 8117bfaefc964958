import FluxOS.QHash

/-! The calls on a `QHash` as the code makes them: the chain of a key is the remainder
of an `int` or of a `uint`, and there is no result where the remainder is by zero or
the index outside the array. Where every index is right these are the operations of the
table. -/
namespace FluxOS.QHash
open Words

/-- What `qHash` returns for a key: an `int`, or a `uint` where its overload says so. -/
inductive HashValue where
  | int (bits : Word)
  | uint (bits : Word)
  deriving DecidableEq

/-- `qHash(key) % capacity`, returned as an `int`. Between two `int`s it has the sign of the hash. -/
def remainder (hash : HashValue) (capacity : Word) : Option Word :=
  if capacity = 0#32 then none
  else match hash with
    | .int bits => some (bits.srem capacity)
    | .uint bits => some (bits % capacity)

/-- An index of an array of that capacity. -/
def IsIndex (i capacity : Word) : Prop := 0 ≤ i.toInt ∧ i.toInt < capacity.toInt

instance (i capacity : Word) : Decidable (IsIndex i capacity) := inferInstanceAs (Decidable (_ ∧ _))

/-- The chain that the code goes to. -/
def slot (hash : HashValue) (capacity : Word) : Option Nat :=
  match remainder hash capacity with
  | some i => if IsIndex i capacity then some i.toNat else none
  | none => none

variable {Key T : Type}

/-- The calls that change a table. `assign` is `h[key] = value`, a store through the reference that
`operator[]` returns. -/
inductive Call (Key T : Type) where
  | insert (key : Key) (value : T)
  | index (key : Key)
  | assign (key : Key) (value : T)
  | take (key : Key)
  | remove (key : Key)
  | reserve (newCapacity : Word)
  | squeeze
  | clear (newCapacity : Word)

def isEmpty (h : QHash Key T) : Bool := h.mSize = 0#32

/-- `initFromHash`, for a copy and for an assignment: the chains are copied and `m_size` is that of a new table. -/
def copyOf (q : QHash Key T) : QHash Key T :=
  if q.isEmpty then init q.mCapacity
  else { (init q.mCapacity : QHash Key T) with mArray := (List.range q.mCapacity.toNat).map q.chain }

section Calls

variable (qHash : Key → HashValue)

/-- The walk of `rehash`: each node goes to the end of its new chain. -/
def rehashNodes (capacity : Word) : List (Key × T) → List (List (Key × T)) → Option (List (List (Key × T)))
  | [], array => some array
  | node :: rest, array => do
    let i ← slot (qHash node.1) capacity
    rehashNodes capacity rest (array.modify i (· ++ [node]))

def reserveCall (h : QHash Key T) (newCapacity : Word) : Option (QHash Key T) := do
  let array ← rehashNodes qHash newCapacity h.nodes (List.replicate newCapacity.toNat [])
  return ⟨h.mSize, newCapacity, array⟩

/-- `clear` drops the nodes. It makes a new array, and resets `m_size`, only for another capacity. -/
def clearCall (h : QHash Key T) (newCapacity : Word) : QHash Key T :=
  if h.mCapacity ≠ newCapacity then init newCapacity
  else { h with mArray := List.replicate h.mCapacity.toNat [] }

/-- The table with the array that an insertion finds, after `reserve` where it is full. -/
def grow (h : QHash Key T) : Option (QHash Key T) :=
  if h.mSize = h.mCapacity then reserveCall qHash h (h.mCapacity * 2#32) else some h

variable [DecidableEq Key]

def insertCall (h : QHash Key T) (key : Key) (value : T) : Option (QHash Key T) := do
  let h ← grow qHash h
  let i ← slot (qHash key) h.mCapacity
  return if key ∈ (h.chain i).map Prod.fst then { h with mArray := h.mArray.modify i (setBody key value) }
    else { h with mArray := h.mArray.modify i (· ++ [(key, value)]), mSize := h.mSize + 1#32 }

/-- `removeFromTable`: the body of the node that is unlinked, if any, and the table. -/
def removeFromTable (h : QHash Key T) (key : Key) : Option (Option T × QHash Key T) := do
  let i ← slot (qHash key) h.mCapacity
  return (((h.chain i).find? (·.1 = key)).map Prod.snd, { h with mArray := h.mArray.modify i (·.eraseP (·.1 = key)) })

def removeCall (h : QHash Key T) (key : Key) : Option (Bool × QHash Key T) :=
  (removeFromTable qHash h key).map fun (body, h) => (body.isSome, h)

/-- `node`, with the body of the node it finds. -/
def node (h : QHash Key T) (key : Key) : Option (Option T) := do
  let i ← slot (qHash key) h.mCapacity
  return ((h.chain i).find? (·.1 = key)).map Prod.snd

variable [Inhabited T]

def takeCall (h : QHash Key T) (key : Key) : Option (T × QHash Key T) :=
  (removeFromTable qHash h key).map fun (body, h) => (body.getD default, h)

def valueCall (h : QHash Key T) (key : Key) : Option T := (node qHash h key).map (·.getD default)

/-- `operator[]`: a key that is not there is inserted with `T()`, and then looked up again. -/
def indexCall (h : QHash Key T) (key : Key) : Option (QHash Key T) := do
  match ← node qHash h key with
  | some _ => return h
  | none =>
    let h ← insertCall qHash h key default
    -- were it still not there, the code would call itself without end
    match ← node qHash h key with
    | some _ => return h
    | none => none

def assignCall (h : QHash Key T) (key : Key) (value : T) : Option (QHash Key T) := do
  let h ← indexCall qHash h key
  let i ← slot (qHash key) h.mCapacity
  return { h with mArray := h.mArray.modify i (setBody key value) }

def perform (h : QHash Key T) : Call Key T → Option (QHash Key T)
  | .insert key value => insertCall qHash h key value
  | .index key => indexCall qHash h key
  | .assign key value => assignCall qHash h key value
  | .take key => (takeCall qHash h key).map Prod.snd
  | .remove key => (removeCall qHash h key).map Prod.snd
  | .reserve newCapacity => reserveCall qHash h newCapacity
  | .squeeze => reserveCall qHash h h.mSize
  | .clear newCapacity => some (clearCall h newCapacity)

def performAll (h : QHash Key T) : List (Call Key T) → Option (QHash Key T)
  | [] => some h
  | call :: rest => do
    let h ← perform qHash h call
    performAll h rest

end Calls

/-! ## The index of a key -/

/-- The capacity is one for an array, and the remainder of the hash by it is not negative. -/
def Fits (hash : HashValue) (capacity : Word) : Prop :=
  0 < capacity.toInt ∧ match hash with
    | .int bits => 0 ≤ bits.toInt ∨ capacity.toInt ∣ bits.toInt
    | .uint _ => True

instance (hash : HashValue) (capacity : Word) : Decidable (Fits hash capacity) :=
  match hash with
  | .int _ => inferInstanceAs (Decidable (_ ∧ (_ ∨ _)))
  | .uint _ => inferInstanceAs (Decidable (_ ∧ True))

/-- An index that is right is the remainder of this word. -/
def HashValue.word : HashValue → Word
  | .int bits => if 0 ≤ bits.toInt then bits else 0#32
  | .uint bits => bits

theorem toNat_pos_of_toInt {w : Word} (positive : 0 < w.toInt) : 0 < w.toNat := by
  apply Nat.pos_of_ne_zero
  intro zero
  have isZero : w = 0#32 := BitVec.eq_of_toNat_eq zero
  simp [isZero] at positive

theorem toInt_of_nonneg {w : Word} (nonneg : 0 ≤ w.toInt) : w.toInt = w.toNat := by
  rw [BitVec.toInt_eq_toNat_cond] at nonneg ⊢
  have bound := w.isLt
  split at nonneg
  · rename_i small
    rw [if_pos small]
  · omega

/-- The remainder by a capacity, where it is not negative. -/
theorem isIndex_of_nonneg {i capacity : Word} (positive : 0 < capacity.toInt) (below : i.toNat < capacity.toNat) :
    IsIndex i capacity := by
  have size := toInt_of_nonneg (Int.le_of_lt positive)
  have small : i.toInt = i.toNat := by
    apply BitVec.toInt_eq_toNat_of_lt
    have half := BitVec.two_mul_toInt_lt (x := capacity)
    omega
  constructor <;> omega

/-- The code finds an index of the array exactly for the hashes that fit. -/
theorem slot_eq (hash : HashValue) (capacity : Word) :
    slot hash capacity = if Fits hash capacity then some (hash.word % capacity).toNat else none := by
  by_cases zero : capacity = 0#32
  · simp [slot, remainder, zero, Fits]
  by_cases positive : 0 < capacity.toInt
  · have size := toInt_of_nonneg (Int.le_of_lt positive)
    have below (w : Word) : (w % capacity).toNat < capacity.toNat := by
      rw [BitVec.toNat_umod]
      exact Nat.mod_lt _ (toNat_pos_of_toInt positive)
    cases hash with
    | uint bits =>
      have index := isIndex_of_nonneg positive (below bits)
      simp [slot, remainder, zero, index, Fits, positive, HashValue.word]
    | int bits =>
      by_cases nonneg : 0 ≤ bits.toInt
      · have same : bits.srem capacity = bits % capacity := by
          apply BitVec.eq_of_toInt_eq
          have index := isIndex_of_nonneg positive (below bits)
          rw [toInt_of_nonneg index.1, BitVec.toInt_srem, toInt_of_nonneg nonneg, size, BitVec.toNat_umod]
          exact (Int.ofNat_tmod _ _).symm
        have index := isIndex_of_nonneg positive (below bits)
        simp [slot, remainder, zero, same, index, Fits, positive, nonneg, HashValue.word]
      · by_cases divides : capacity.toInt ∣ bits.toInt
        · have same : bits.srem capacity = 0#32 := by
            apply BitVec.eq_of_toInt_eq
            rw [BitVec.toInt_srem]
            exact Int.tmod_eq_zero_of_dvd divides
          have index : IsIndex 0#32 capacity := ⟨Int.le_refl _, positive⟩
          simp [slot, remainder, zero, same, index, Fits, positive, nonneg, divides, HashValue.word]
        · have outside : ¬IsIndex (bits.srem capacity) capacity := by
            rintro ⟨least, -⟩
            rw [BitVec.toInt_srem] at least
            have negated := Int.tmod_nonneg capacity.toInt (show 0 ≤ -bits.toInt by omega)
            rw [Int.neg_tmod] at negated
            apply divides
            apply Int.dvd_of_tmod_eq_zero
            omega
          simp [slot, remainder, zero, outside, Fits, nonneg, divides]
  · have outside (i : Word) : ¬IsIndex i capacity := fun index => positive (Int.lt_of_le_of_lt index.1 index.2)
    cases hash <;> simp [slot, remainder, zero, outside, Fits, positive]

/-- What the table hashes keys with. -/
def words (qHash : Key → HashValue) (key : Key) : Word := (qHash key).word

theorem slot_of_fits {qHash : Key → HashValue} {key : Key} {capacity : Word} (fits : Fits (qHash key) capacity) :
    slot (qHash key) capacity = some (toArrayIndex (words qHash) key capacity) := by
  rw [slot_eq, if_pos fits]
  rfl

theorem slot_eq_none {hash : HashValue} {capacity : Word} (unfit : ¬Fits hash capacity) : slot hash capacity = none := by
  rw [slot_eq, if_neg unfit]

/-! ## The calls are the operations of the table -/

section Results

variable {qHash : Key → HashValue} {h h' : QHash Key T} {key : Key}

theorem rehashNodes_eq_some_iff {capacity : Word} {nodes : List (Key × T)} {array array' : List (List (Key × T))} :
    rehashNodes qHash capacity nodes array = some array' ↔ (∀ node ∈ nodes, Fits (qHash node.1) capacity) ∧
      array' = nodes.foldl (fun array node => array.modify (toArrayIndex (words qHash) node.1 capacity) (· ++ [node])) array := by
  induction nodes generalizing array with
  | nil => simp [rehashNodes, eq_comm]
  | cons node rest ih =>
    by_cases fits : Fits (qHash node.1) capacity
    · simp [rehashNodes, slot_of_fits fits, ih, fits]
    · simp [rehashNodes, slot_eq_none fits, fits]

theorem reserveCall_eq_some_iff {newCapacity : Word} : reserveCall qHash h newCapacity = some h' ↔
    (∀ node ∈ h.nodes, Fits (qHash node.1) newCapacity) ∧ h' = h.reserve (words qHash) newCapacity := by
  unfold reserveCall
  constructor
  · intro result
    obtain ⟨array, walk, rfl⟩ : ∃ array, _ ∧ _ := by simpa [Option.bind_eq_some_iff] using result
    obtain ⟨fits, rfl⟩ := rehashNodes_eq_some_iff.mp walk
    exact ⟨fits, rfl⟩
  · rintro ⟨fits, rfl⟩
    rw [rehashNodes_eq_some_iff.mpr ⟨fits, rfl⟩]
    rfl

/-- A table that is full doubles. -/
def grown (qHash : Key → Word) (h : QHash Key T) : QHash Key T :=
  if h.mSize = h.mCapacity then h.reserve qHash (h.mCapacity * 2#32) else h

theorem mCapacity_grown (hash : Key → Word) (h : QHash Key T) :
    (grown hash h).mCapacity = if h.mSize = h.mCapacity then h.mCapacity * 2#32 else h.mCapacity := by
  unfold grown
  split <;> rfl

/-- Where doubling rehashes, every node finds its place. -/
def Grows (qHash : Key → HashValue) (h : QHash Key T) : Prop :=
  h.mSize = h.mCapacity → ∀ node ∈ h.nodes, Fits (qHash node.1) (h.mCapacity * 2#32)

theorem grow_eq_some_iff : grow qHash h = some h' ↔ Grows qHash h ∧ h' = grown (words qHash) h := by
  unfold grow grown Grows
  by_cases full : h.mSize = h.mCapacity
  · simp [full, reserveCall_eq_some_iff]
  · simp [full, eq_comm]

variable [DecidableEq Key]

theorem insertCall_eq_some_iff {value : T} : insertCall qHash h key value = some h' ↔
    Grows qHash h ∧ Fits (qHash key) (grown (words qHash) h).mCapacity ∧ h' = h.insert (words qHash) key value := by
  unfold insertCall
  constructor
  · intro result
    obtain ⟨h₁, room, result⟩ := Option.bind_eq_some_iff.mp result
    obtain ⟨grows, rfl⟩ := grow_eq_some_iff.mp room
    obtain ⟨i, index, result⟩ := Option.bind_eq_some_iff.mp result
    by_cases fits : Fits (qHash key) (grown (words qHash) h).mCapacity
    · rw [slot_of_fits fits] at index
      cases index
      cases result
      exact ⟨grows, fits, rfl⟩
    · rw [slot_eq_none fits] at index
      cases index
  · rintro ⟨grows, fits, rfl⟩
    rw [grow_eq_some_iff.mpr ⟨grows, rfl⟩, Option.bind_eq_bind, Option.bind_some, slot_of_fits fits]
    rfl

theorem removeFromTable_of_fits (h : QHash Key T) (fits : Fits (qHash key) h.mCapacity) :
    removeFromTable qHash h key = some (h.value (words qHash) key, h.remove (words qHash) key) := by
  rw [removeFromTable, slot_of_fits fits]
  rfl

theorem node_of_fits (h : QHash Key T) (fits : Fits (qHash key) h.mCapacity) :
    node qHash h key = some (h.value (words qHash) key) := by
  rw [node, slot_of_fits fits]
  rfl

end Results
end FluxOS.QHash
