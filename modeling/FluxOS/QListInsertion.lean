import FluxOS.QListSequence

/-! `QList::insert` and `QList::removeAll`: where they do to the sequence what they should, and stay inside the
array. -/
namespace FluxOS.QList
open Words

variable {T : Type}

section Operations

/-- `m_array[j]`, for any `int`. -/
def entry (block : List T) (j : Int) : Option T := if j < 0 then none else block[j.toNat]?

/-- `m_array[j] = value`. -/
def store (block : List T) (j : Int) (value : T) : Option (List T) :=
  if 0 ≤ j ∧ j.toNat < block.length then some (block.set j.toNat value) else none

/-- The first loop of `insert`, from the last index down: `n` entries, the lowest at `i`, come from `count` below. -/
def moveUp (count i : Int) : Nat → List T → Option (List T)
  | 0, block => some block
  | n + 1, block => do
    let value ← entry block (i + n - count)
    let block ← store block (i + n) value
    moveUp count i n block

/-- The second loop of `insert`. -/
def fill (value : T) : Nat → Int → List T → Option (List T)
  | 0, _, block => some block
  | n + 1, j, block => do
    let block ← store block j value
    fill value n (j + 1) block

/-- `insert`, once there is room. -/
def place (l : QList T) (i count : Word) (value : T) : Option (QList T) := do
  let block ← moveUp count.toInt i.toInt ((l.mSize + count - 1#32).toInt - i.toInt + 1).toNat l.block
  let block ← fill value ((i + count).toInt - i.toInt).toNat i.toInt block
  return { l with mSize := l.mSize + count, mArray := l.mArray.map fun _ => block }

/-- The first step of `insert`. -/
def makeRoom (heap : ArrayHeap T) (l : QList T) (count : Word) : Option (Bool × QList T) :=
  if l.mCapacity.toInt < (l.mSize + count).toInt then reserve heap l (l.mCapacity * 2#32 + count) else some (true, l)

def insert (heap : ArrayHeap T) (l : QList T) (i count : Word) (value : T) : Option (Bool × QList T) := do
  let (ok, l) ← makeRoom heap l count
  if ok = false then return (false, l)
  let l ← place l i count value
  return (true, l)

variable [DecidableEq T]

/-- The first loop of `removeAll`, with `n` elements left: the index at which it ends. -/
def firstIndex (value : T) (block : List T) (i : Nat) : Nat → Option Nat
  | 0 => some i
  | n + 1 => do
    let here ← block[i]?
    if here = value then return i else firstIndex value block (i + 1) n

/-- The inner loop of `removeAll`, on the block from `m_array[i]` on: how many values it skips. -/
def skip (value : T) : List T → Option Nat
  | [] => none
  | here :: behind => if here = value then (skip value behind).map (· + 1) else some 0

/-- The second loop of `removeAll`, for at most `n` rounds. A round takes at least one element, so
that as many rounds as there are elements are enough. -/
def compact (value : T) (mSize : Nat) : Nat → List T → Nat → Nat → Nat → Option (Nat × List T)
  | 0, block, _, _, rcounter => some (rcounter, block)
  | n + 1, block, destIndex, i, rcounter =>
    if i < mSize then do
      let skipped ← skip value (block.drop i)
      let moved ← block[i + skipped]?
      let block ← store block destIndex moved
      compact value mSize n block (destIndex + 1) (i + skipped + 1) (rcounter + skipped)
    else some (rcounter, block)

def removeAll (l : QList T) (value : T) : Option (Nat × QList T) := do
  let i ← firstIndex value l.block 0 l.mSize.toInt.toNat
  let destIndex := if i < l.mSize.toInt.toNat then i else 0
  let (rcounter, block) ← compact value l.mSize.toInt.toNat l.mSize.toInt.toNat l.block destIndex i 0
  return (rcounter, { l with mSize := l.mSize - BitVec.ofNat 32 rcounter, mArray := l.mArray.map fun _ => block })

end Operations

/-- The values are in the sequence and every access was inside the array, or the list is as it was because there is
no memory for a larger array. -/
def Inserted (heap : ArrayHeap T) (l : QList T) (sequence : List T) (i count : Word) (value : T) : Prop :=
  ∃ ok l', insert heap l i count value = some (ok, l') ∧
    if ok = true then
      Holds l' (sequence.take i.toNat ++ List.replicate count.toNat value ++ sequence.drop i.toNat)
    else l' = l ∧ heap.grants (l.mCapacity * 2#32 + count) = false

/-- The entry that is moved to the index itself is one of the array: it comes from `count` below. A larger array has
a capacity that is an `int`. -/
def FindsRoom (heap : ArrayHeap T) (l : QList T) (i count : Word) : Prop :=
  if l.mSize.toNat + count.toNat ≤ l.mCapacity.toNat then count.toNat ≤ i.toNat
  else l.mSize.toNat + count.toNat < 2 ^ 31 ∧ 0 ≤ (l.mCapacity * 2#32 + count).toInt ∧
    (heap.grants (l.mCapacity * 2#32 + count) = true →
      count.toNat ≤ i.toNat ∧ 2 * l.mCapacity.toNat + count.toNat < 2 ^ 31)

/-- The other elements are left, the number of the removed ones is returned, and every access was inside the array. -/
def RemovedAll [DecidableEq T] (l : QList T) (sequence : List T) (value : T) : Prop :=
  ∃ l', removeAll l value = some (sequence.count value, l') ∧ Holds l' (sequence.filter (· ≠ value))

/-- Behind a value at the end of the list the array has an entry that is something else. -/
def FindsEnd (l : QList T) (sequence : List T) (value : T) : Prop :=
  sequence.getLast? = some value → ∃ behind, l.block[l.mSize.toNat]? = some behind ∧ behind ≠ value

/-! ## Insertion -/

section Insertion

variable {heap : ArrayHeap T} {l : QList T} {sequence : List T} {block : List T}

theorem entry_natCast (block : List T) (j : Nat) : entry block j = block[j]? := by
  rw [entry, if_neg (by omega), Int.toNat_natCast]

/-- An element is found at its index in the sequence. -/
theorem Holds.entry (holds : Holds l sequence) {i : Nat} (inside : i < sequence.length) :
    QList.entry l.block i = some sequence[i] := by
  obtain ⟨rest, split⟩ := holds.elements
  rw [entry_natCast, ← split, List.getElem?_append_left inside, List.getElem?_eq_getElem inside]

theorem store_inside {j : Nat} (inside : j < block.length) (value : T) :
    store block j value = some (block.set j value) := by
  rw [store, if_pos ⟨by omega, by simpa using inside⟩, Int.toNat_natCast]

theorem store_outside {j : Nat} (outside : block.length ≤ j) (value : T) : store block j value = none := by
  rw [store, if_neg (by rintro ⟨_, inside⟩; rw [Int.toNat_natCast] at inside; omega)]

/-- The last round reads below the array. -/
theorem moveUp_low {count i : Nat} (low : i < count) (n : Nat) (block : List T) :
    moveUp (count : Int) i (n + 1) block = none := by
  induction n generalizing block with
  | zero =>
    have negative : (i : Int) + (0 : Nat) - count < 0 := by omega
    rw [moveUp, entry, if_pos negative]
    rfl
  | succ n ih =>
    rw [moveUp]
    cases entry block (i + (n + 1 : Nat) - count) with
    | none => rfl
    | some value => simp [ih]

/-- The first round writes behind the array. -/
theorem moveUp_high (block : List T) {count i n : Nat} (outside : block.length ≤ i + n) :
    moveUp (count : Int) i (n + 1) block = none := by
  rw [moveUp]
  cases entry block (i + n - count) with
  | none => rfl
  | some value =>
    have written : store block ((i : Int) + n) value = none := store_outside outside value
    simp [written]

/-- What the first loop leaves in the block. -/
theorem moveUp_eq {count i : Nat} (above : count ≤ i) (n : Nat) (block : List T) (inside : i + n ≤ block.length) :
    moveUp (count : Int) i n block =
      some (block.take i ++ (block.drop (i - count)).take n ++ block.drop (i + n)) := by
  induction n generalizing block with
  | zero => simp [moveUp]
  | succ n ih =>
    have target : i + n < block.length := by omega
    have source : i - count + n < block.length := by omega
    have value : entry block ((i : Int) + n - count) = some block[i - count + n] := by
      rw [show (i : Int) + n - count = (i - count + n : Nat) by omega, entry_natCast, List.getElem?_eq_getElem source]
    have written : store block ((i : Int) + n) block[i - count + n] = some (block.set (i + n) block[i - count + n]) :=
      store_inside target _
    have kept : ((block.set (i + n) block[i - count + n]).drop (i - count)).take n =
        (block.drop (i - count)).take n := by
      rw [List.drop_set, if_neg (by omega), List.take_set_of_le (by omega)]
    have rest : (block.set (i + n) block[i - count + n]).drop (i + n) =
        block[i - count + n] :: block.drop (i + n + 1) := by
      rw [List.drop_set, if_neg (by omega), Nat.sub_self, List.drop_eq_getElem_cons target, List.set_cons_zero]
    have longer : (block.drop (i - count)).take (n + 1) = (block.drop (i - count)).take n ++ [block[i - count + n]] := by
      rw [List.take_add_one, List.getElem?_drop, List.getElem?_eq_getElem source]
      rfl
    simp only [moveUp, value, written, Option.bind_eq_bind, Option.bind_some]
    rw [ih _ (by rw [List.length_set]; omega), List.take_set_of_le (by omega), kept, rest, longer]
    simp only [List.append_assoc, List.singleton_append, Nat.add_assoc]

theorem fill_outside (block : List T) {j n : Nat} (outside : block.length ≤ j) (value : T) : fill value (n + 1) j block = none := by
  rw [fill, store_outside outside]
  rfl

theorem fill_eq (value : T) (n j : Nat) (block : List T) (inside : j + n ≤ block.length) :
    fill value n j block = some (block.take j ++ List.replicate n value ++ block.drop (j + n)) := by
  induction n generalizing j block with
  | zero => simp [fill]
  | succ n ih =>
    have target : j < block.length := by omega
    have next : ((j : Int) + 1) = (j + 1 : Nat) := rfl
    have first : (block.set j value).take (j + 1) = block.take j ++ [value] := by
      rw [List.take_add_one, List.take_set_of_le (Nat.le_refl j), List.getElem?_set_self target]
      rfl
    rw [fill, store_inside target, next]
    simp only [Option.bind_eq_bind, Option.bind_some]
    rw [ih _ _ (by rw [List.length_set]; omega), first, List.drop_set_of_lt (by omega), List.replicate_succ,
      Nat.add_right_comm j 1 n]
    simp only [List.append_assoc, List.cons_append, List.nil_append, Nat.add_assoc]

section Placing

variable {i count : Word}

/-- How many rounds the loops make. -/
theorem Holds.rounds (holds : Holds l sequence) (index : 0 ≤ i.toInt) (positive : 1 ≤ count.toInt)
    (bound : sequence.length + count.toNat < 2 ^ 31) (within : i.toNat + count.toNat < 2 ^ 31) :
    ((l.mSize + count - 1#32).toInt - i.toInt + 1).toNat = sequence.length + count.toNat - i.toNat ∧
      ((i + count).toInt - i.toInt).toNat = count.toNat := by
  have size := holds.size
  obtain ⟨_, i_int⟩ := toNat_of_nonneg index
  obtain ⟨_, count_int⟩ := toNat_of_nonneg (Int.le_trans (by decide) positive)
  have last : (l.mSize + count - 1#32).toNat = sequence.length + count.toNat - 1 := by
    rw [BitVec.toNat_sub, BitVec.toNat_add, BitVec.toNat_ofNat, size]
    omega
  have stop : (i + count).toNat = i.toNat + count.toNat := by
    rw [BitVec.toNat_add]
    omega
  rw [toInt_of_small (w := l.mSize + count - 1#32) (by omega), toInt_of_small (w := i + count) (by omega), last, stop]
  omega

/-- Either loop leaves an array that is too small. -/
theorem Holds.place_high (holds : Holds l sequence) (index : 0 ≤ i.toInt) (positive : 1 ≤ count.toInt)
    (bound : sequence.length + count.toNat < 2 ^ 31) (within : i.toNat + count.toNat < 2 ^ 31)
    (full : l.mCapacity.toNat < sequence.length + count.toNat) (value : T) : place l i count value = none := by
  obtain ⟨rounds, fills⟩ := holds.rounds index positive bound within
  have length := holds.block
  obtain ⟨_, i_int⟩ := toNat_of_nonneg index
  obtain ⟨_, count_int⟩ := toNat_of_nonneg (Int.le_trans (by decide) positive)
  rw [place, rounds, fills, i_int, count_int]
  cases more : sequence.length + count.toNat - i.toNat with
  | zero =>
    obtain ⟨n, some⟩ : ∃ n, count.toNat = n + 1 := ⟨count.toNat - 1, by omega⟩
    simp [moveUp, some, fill_outside l.block (j := i.toNat) (by omega)]
  | succ n => simp [moveUp_high l.block (i := i.toNat) (n := n) (by omega)]

theorem Holds.place_low (holds : Holds l sequence) (index : 0 ≤ i.toInt) (positive : 1 ≤ count.toInt)
    (bound : sequence.length + count.toNat < 2 ^ 31) (inside : i.toNat ≤ sequence.length)
    (low : i.toNat < count.toNat) (value : T) : place l i count value = none := by
  obtain ⟨rounds, -⟩ := holds.rounds index positive bound (by omega)
  obtain ⟨_, i_int⟩ := toNat_of_nonneg index
  obtain ⟨_, count_int⟩ := toNat_of_nonneg (Int.le_trans (by decide) positive)
  obtain ⟨n, some⟩ : ∃ n, sequence.length + count.toNat - i.toNat = n + 1 := ⟨_, (Nat.succ_pred (by omega)).symm⟩
  rw [place, rounds, i_int, count_int, some, moveUp_low low]
  rfl

theorem Holds.place (holds : Holds l sequence) (index : 0 ≤ i.toInt) (positive : 1 ≤ count.toInt)
    (room : sequence.length + count.toNat ≤ l.mCapacity.toNat) (inside : i.toNat ≤ sequence.length)
    (above : count.toNat ≤ i.toNat) (value : T) : ∃ l', place l i count value = some l' ∧
      Holds l' (sequence.take i.toNat ++ List.replicate count.toNat value ++ sequence.drop i.toNat) := by
  have small := holds.small
  have length := holds.block
  obtain ⟨rounds, fills⟩ := holds.rounds index positive (by omega) (by omega)
  obtain ⟨_, i_int⟩ := toNat_of_nonneg index
  obtain ⟨_, count_int⟩ := toNat_of_nonneg (Int.le_trans (by decide) positive)
  obtain ⟨n, n_eq⟩ : ∃ n, sequence.length + count.toNat - i.toNat = n := ⟨_, rfl⟩
  rw [n_eq] at rounds
  obtain ⟨middle, middle_eq⟩ : ∃ middle, l.block.take i.toNat ++ (l.block.drop (i.toNat - count.toNat)).take n ++
    l.block.drop (i.toNat + n) = middle := ⟨_, rfl⟩
  have moved : moveUp (count.toNat : Int) i.toNat n l.block = some middle :=
    middle_eq ▸ moveUp_eq above n l.block (by omega)
  have same : middle.length = l.block.length := by
    rw [← middle_eq]
    simp only [List.length_append, List.length_take, List.length_drop]
    omega
  have filled := fill_eq value count.toNat i.toNat middle (by omega)
  obtain ⟨rest, split⟩ := holds.elements
  have first : (l.block.take i.toNat).length = i.toNat := by
    rw [List.length_take]
    omega
  have front : middle.take i.toNat = sequence.take i.toNat := by
    rw [← middle_eq, List.append_assoc, List.take_append_of_le_length (Nat.le_of_eq first.symm), List.take_take,
      Nat.min_self, ← split, List.take_append_of_le_length inside]
  have back : middle.drop (i.toNat + count.toNat) = sequence.drop i.toNat ++ l.block.drop (i.toNat + n) := by
    have kept : (l.block.drop (i.toNat - count.toNat + count.toNat)).take (n - count.toNat) =
        sequence.drop i.toNat := by
      have behind : (sequence.drop i.toNat).length = n - count.toNat := by
        rw [List.length_drop]
        omega
      rw [Nat.sub_add_cancel above, ← split, List.drop_append_of_le_length inside, ← behind,
        List.take_append_of_le_length (Nat.le_refl _), List.take_length]
    have enough : count.toNat ≤ ((l.block.drop (i.toNat - count.toNat)).take n).length := by
      rw [List.length_take, List.length_drop]
      omega
    rw [← middle_eq, List.append_assoc, ← List.drop_drop, List.drop_left' first,
      List.drop_append_of_le_length enough, List.drop_take, List.drop_drop, kept]
  have placed : QList.place l i count value = some ⟨l.mSize + count, l.mCapacity, l.mArray.map fun _ =>
      middle.take i.toNat ++ List.replicate count.toNat value ++ middle.drop (i.toNat + count.toNat)⟩ := by
    rw [QList.place, rounds, fills, i_int, count_int, moved]
    simp only [Option.bind_eq_bind, Option.bind_some]
    rw [filled]
    rfl
  refine ⟨_, placed, holds.with_block ?_ ?_ ?_⟩
  · simp only [List.length_append, List.length_take, List.length_drop, List.length_replicate]
    omega
  · rw [BitVec.toNat_add, holds.size]
    simp only [List.length_append, List.length_take, List.length_drop, List.length_replicate]
    omega
  · rw [front, back, ← List.append_assoc]
    exact List.prefix_append _ _

theorem insert_granted {l' : QList T} (room : makeRoom heap l count = some (true, l')) (value : T) :
    insert heap l i count value = (QList.place l' i count value).map fun l => (true, l) := by
  cases placed : QList.place l' i count value <;> simp [insert, room, placed]

theorem insert_refused {l' : QList T} (room : makeRoom heap l count = some (false, l')) (value : T) :
    insert heap l i count value = some (false, l') := by
  rw [insert, room]
  rfl

theorem insert_outside (room : makeRoom heap l count = none) (value : T) :
    insert heap l i count value = none := by
  rw [insert, room]
  rfl

theorem not_inserted_of_none {value : T} (outside : insert heap l i count value = none) :
    ¬Inserted heap l sequence i count value := by
  rintro ⟨ok, l', result, -⟩
  rw [outside] at result
  cases result

/-- Where there is room the loops decide. -/
theorem Holds.inserted_iff_here {before : QList T} (holds : Holds l sequence) (index : 0 ≤ i.toInt)
    (positive : 1 ≤ count.toInt) (inside : i.toNat ≤ sequence.length)
    (bound : sequence.length + count.toNat < 2 ^ 31) (room : makeRoom heap before count = some (true, l)) (value : T) :
    Inserted heap before sequence i count value ↔
      sequence.length + count.toNat ≤ l.mCapacity.toNat ∧ count.toNat ≤ i.toNat := by
  have run := @insert_granted T heap before i count l room value
  constructor
  · intro inserted
    by_contra unfit
    refine not_inserted_of_none ?_ inserted
    rw [run, Option.map_eq_none_iff]
    by_cases full : l.mCapacity.toNat < sequence.length + count.toNat
    · exact holds.place_high index positive bound (by omega) full value
    · exact holds.place_low index positive bound inside (by omega) value
  · rintro ⟨fits, above⟩
    obtain ⟨l', placed, after⟩ := holds.place index positive fits inside above value
    exact ⟨true, l', by rw [run, placed]; rfl, after⟩

/-- With a larger array there is room, unless its capacity came out as a smaller one. -/
theorem Holds.inserted_iff_larger (holds : Holds l sequence) (index : 0 ≤ i.toInt) (positive : 1 ≤ count.toInt)
    (inside : i.toNat ≤ sequence.length) (bound : sequence.length + count.toNat < 2 ^ 31)
    (room : makeRoom heap l count = QList.reserve heap l (l.mCapacity * 2#32 + count)) (value : T) :
    Inserted heap l sequence i count value ↔ 0 ≤ (l.mCapacity * 2#32 + count).toInt ∧
      (heap.grants (l.mCapacity * 2#32 + count) = true →
        count.toNat ≤ i.toNat ∧ 2 * l.mCapacity.toNat + count.toNat < 2 ^ 31) := by
  have small := holds.small
  have fits := holds.fits
  obtain ⟨_, count_int⟩ := toNat_of_nonneg (Int.le_trans (by decide) positive)
  have capacity : (l.mCapacity * 2#32 + count).toNat = (2 * l.mCapacity.toNat + count.toNat) % 2 ^ 32 := by
    rw [BitVec.toNat_add, BitVec.toNat_mul, BitVec.toNat_ofNat]
    omega
  by_cases nonneg : 0 ≤ (l.mCapacity * 2#32 + count).toInt
  · have limit := (toNat_of_nonneg nonneg).1
    cases granted : heap.grants (l.mCapacity * 2#32 + count) with
    | false =>
      have refused := @insert_refused T heap l i count l (room.trans (reserve_refused nonneg granted)) value
      exact ⟨fun _ => ⟨nonneg, by simp⟩, fun _ => ⟨false, l, refused, rfl, granted⟩⟩
    | true =>
      by_cases present : l.mArray = none
      · -- a deleted array had no entries
        have block := holds.block
        rw [QList.block, present, Option.getD_none, List.length_nil] at block
        refine iff_of_false (not_inserted_of_none (insert_outside ?_ value)) fun finds => ?_
        · exact room.trans (reserve_deleted granted present)
        · have above := (finds.2 rfl).1
          omega
      · obtain ⟨l', result, after, larger, -⟩ := holds.reserve nonneg granted present
        by_cases unwrapped : 2 * l.mCapacity.toNat + count.toNat < 2 ^ 31
        · rw [List.take_of_length_le (by omega)] at after
          rw [after.inserted_iff_here index positive inside bound (room.trans result) value, larger]
          exact ⟨fun finds => ⟨nonneg, fun _ => ⟨finds.2, unwrapped⟩⟩, fun finds => ⟨by omega, (finds.2 rfl).1⟩⟩
        · have shorter : (sequence.take (l.mCapacity * 2#32 + count).toNat).length ≤ sequence.length :=
            List.length_take_le' _ _
          have full : l'.mCapacity.toNat <
              (sequence.take (l.mCapacity * 2#32 + count).toNat).length + count.toNat := by
            rw [larger, List.length_take]
            omega
          refine iff_of_false (not_inserted_of_none ?_) fun finds => unwrapped (finds.2 rfl).2
          rw [insert_granted (room.trans result), after.place_high index positive (by omega) (by omega) full value]
          rfl
  · refine iff_of_false (not_inserted_of_none (insert_outside ?_ value)) fun finds => nonneg finds.1
    exact room.trans (reserve_negative (by omega))

theorem Holds.inserted_iff (holds : Holds l sequence) (index : 0 ≤ i.toInt) (inside : i.toInt ≤ l.mSize.toInt)
    (positive : 1 ≤ count.toInt) (value : T) : Inserted heap l sequence i count value ↔ FindsRoom heap l i count := by
  have size := holds.size
  have small := holds.small
  have fits := holds.fits
  obtain ⟨_, i_int⟩ := toNat_of_nonneg index
  obtain ⟨_, count_int⟩ := toNat_of_nonneg (Int.le_trans (by decide) positive)
  rw [toInt_of_small holds.size_small] at inside
  have sum : (l.mSize + count).toNat = sequence.length + count.toNat := by
    rw [BitVec.toNat_add, size]
    omega
  rw [FindsRoom, size]
  by_cases bound : sequence.length + count.toNat < 2 ^ 31
  · have asks : l.mCapacity.toInt < (l.mSize + count).toInt ↔ l.mCapacity.toNat < sequence.length + count.toNat := by
      rw [toInt_of_small small, toInt_of_small (w := l.mSize + count) (by omega), sum]
      omega
    by_cases full : l.mCapacity.toNat < sequence.length + count.toNat
    · rw [if_neg (by omega)]
      have room : makeRoom heap l count = QList.reserve heap l (l.mCapacity * 2#32 + count) := if_pos (asks.mpr full)
      rw [holds.inserted_iff_larger index positive (by omega) bound room value]
      exact ⟨fun finds => ⟨bound, finds⟩, fun finds => finds.2⟩
    · have room : makeRoom heap l count = some (true, l) := if_neg (full ∘ asks.mp)
      rw [if_pos (by omega), holds.inserted_iff_here index positive (by omega) bound room value]
      omega
  · -- the size is no `int`
    rw [if_neg (by omega)]
    refine iff_of_false ?_ fun finds => bound finds.1
    have negative : (l.mSize + count).toInt < 0 := by
      rw [BitVec.toInt_eq_toNat_cond, if_neg (by omega)]
      omega
    have room : makeRoom heap l count = some (true, l) := by
      refine if_neg ?_
      rw [toInt_of_small small]
      omega
    rintro ⟨ok, l', result, after⟩
    rw [insert_granted room] at result
    obtain ⟨_, _, same⟩ := Option.map_eq_some_iff.mp result
    cases same
    have length := after.fits
    have bound' := after.small
    simp only [List.length_append, List.length_take, List.length_drop, List.length_replicate] at length
    omega

end Placing

end Insertion

/-! ## Removal -/

section Removal

variable [DecidableEq T] {l : QList T} {sequence : List T} {value : T}

theorem skip_values (value : T) (k : Nat) (rest : List T) :
    skip value (List.replicate k value ++ rest) = (skip value rest).map (· + k) := by
  induction k with
  | zero => cases skipped : skip value rest <;> simp [skipped]
  | succ k ih =>
    rw [List.replicate_succ, List.cons_append, skip, if_pos rfl, ih, Option.map_map]
    congr 1

/-- The values at the front of a list, and what is behind them. -/
theorem values_first (value : T) (list : List T) : ∃ k rest, list = List.replicate k value ++ rest ∧
    (rest = [] ∨ ∃ other later, rest = other :: later ∧ other ≠ value) := by
  induction list with
  | nil => exact ⟨0, [], rfl, .inl rfl⟩
  | cons here behind ih =>
    by_cases same : here = value
    · obtain ⟨k, rest, rfl, ends⟩ := ih
      exact ⟨k + 1, rest, by rw [List.replicate_succ, same, List.cons_append], ends⟩
    · exact ⟨0, here :: behind, rfl, .inr ⟨here, behind, rfl, same⟩⟩

/-- The values that a round skips stop within the array, at an entry that is something else. -/
theorem skip_stops {block : List T} {skipped : Nat} (skips : skip value block = some skipped) :
    ∃ here, block[skipped]? = some here ∧ here ≠ value := by
  induction block generalizing skipped with
  | nil => cases skips
  | cons here behind ih =>
    rw [skip] at skips
    by_cases same : here = value
    · rw [if_pos same] at skips
      obtain ⟨fewer, skips', rfl⟩ := Option.map_eq_some_iff.mp skips
      exact ih skips'
    · rw [if_neg same] at skips
      cases skips
      exact ⟨here, rfl, same⟩

/-- Behind elements that end in the value there is an entry that is something else. -/
def EndSeen (value : T) (tail slack : List T) : Prop :=
  tail.getLast? = some value → ∃ behind, slack.head? = some behind ∧ behind ≠ value

omit [DecidableEq T] in
/-- A round takes an element that stays, with the values before it. -/
theorem endSeen_round {other : T} (differs : other ≠ value) (k : Nat) (later slack : List T) :
    EndSeen value (List.replicate k value ++ other :: later) slack ↔ EndSeen value later slack := by
  cases later with
  | nil =>
    refine iff_of_true (fun last => ?_) fun last => ?_
    · rw [List.getLast?_append_of_ne_nil _ (List.cons_ne_nil _ _)] at last
      exact absurd (Option.some.inj last) differs
    · cases last
  | cons next more =>
    rw [EndSeen, EndSeen, List.getLast?_append_of_ne_nil _ (List.cons_ne_nil _ _), List.getLast?_cons_cons]

theorem compact_done {mSize i : Nat} (ended : ¬i < mSize) (n : Nat) (block : List T) (destIndex rcounter : Nat) :
    compact value mSize n block destIndex i rcounter = some (rcounter, block) := by
  cases n with
  | zero => rfl
  | succ n => exact if_neg ended

/-- One round of the second loop. -/
theorem compact_round {mSize i skipped : Nat} {moved : T} {block : List T} {destIndex : Nat} (inside : i < mSize)
    (skips : skip value (block.drop i) = some skipped) (found : block[i + skipped]? = some moved)
    (behind : destIndex ≤ i) (n rcounter : Nat) : compact value mSize (n + 1) block destIndex i rcounter =
      compact value mSize n (block.set destIndex moved) (destIndex + 1) (i + skipped + 1) (rcounter + skipped) := by
  have within : i + skipped < block.length := (List.getElem?_eq_some_iff.mp found).1
  rw [compact, if_pos inside, skips]
  simp only [Option.bind_eq_bind, Option.bind_some]
  rw [found]
  simp only [Option.bind_some]
  rw [store_inside (by omega)]
  rfl

/-- From index `i` on, with the elements of the `tail` left, either the second loop ends well, or it counts an entry that
is no element, or it leaves the array. -/
def CompactSettled (value : T) (mSize n : Nat) (tail slack block : List T) (destIndex i rcounter : Nat) : Prop :=
  (EndSeen value tail slack ∧ ∃ block', compact value mSize n block destIndex i rcounter =
      some (rcounter + tail.count value, block') ∧ block'.length = block.length ∧
    block'.take (destIndex + (tail.filter (· ≠ value)).length) = block.take destIndex ++ tail.filter (· ≠ value)) ∨
  (¬EndSeen value tail slack ∧ ∀ count block', compact value mSize n block destIndex i rcounter = some (count, block') →
    count ≠ rcounter + tail.count value)

section Compaction

variable {mSize i destIndex k : Nat} {slack block : List T}

theorem compactSettled_nil (ended : ¬i < mSize) (n rcounter : Nat) :
    CompactSettled value mSize n [] slack block destIndex i rcounter :=
  .inl ⟨nofun, block, compact_done ended .., rfl, by simp⟩

/-- The values at the end of the list. -/
theorem compactSettled_values (size : mSize = i + (k + 1)) (behind : destIndex ≤ i)
    (rest : block.drop i = List.replicate (k + 1) value ++ slack) (n rcounter : Nat) :
    CompactSettled value mSize (n + 1) (List.replicate (k + 1) value) slack block destIndex i rcounter := by
  have inside : i < mSize := by omega
  have last : (List.replicate (k + 1) value).getLast? = some value := by
    rw [List.getLast?_replicate, if_neg (Nat.succ_ne_zero k)]
  have skips := skip_values value (k + 1) slack
  rw [← rest] at skips
  have values : (List.replicate (k + 1) value).filter (· ≠ value) = [] := by simp
  rw [CompactSettled, List.count_replicate_self, values]
  by_cases seen : EndSeen value (List.replicate (k + 1) value) slack
  · obtain ⟨here, first, differs⟩ := seen last
    obtain ⟨more, rfl⟩ : ∃ more, slack = here :: more := List.head?_eq_some_iff.mp first
    rw [skip, if_neg differs, Option.map_some, Nat.zero_add] at skips
    have found : block[i + (k + 1)]? = some here := by
      rw [← List.getElem?_drop, rest, List.getElem?_append_right (by simp), List.length_replicate, Nat.sub_self]
      rfl
    refine .inl ⟨seen, block.set destIndex here, ?_, List.length_set, ?_⟩
    · rw [compact_round inside skips found behind, compact_done (by omega)]
    · rw [List.append_nil, List.length_nil, Nat.add_zero, List.take_set_of_le (Nat.le_refl _)]
  · refine .inr ⟨seen, fun count block' run => ?_⟩
    cases further : skip value slack with
    | none =>
      rw [compact, if_pos inside, skips, further] at run
      cases run
    | some s =>
      -- the entry behind the elements is the value, too
      have positive : 0 < s := by
        refine Nat.pos_of_ne_zero fun none => seen fun _ => ?_
        obtain ⟨here, found, differs⟩ := skip_stops further
        rw [none] at found
        exact ⟨here, by rw [List.head?_eq_getElem?, found], differs⟩
      rw [further, Option.map_some] at skips
      obtain ⟨here, found, _⟩ := skip_stops skips
      rw [List.getElem?_drop] at found
      rw [compact_round inside skips found behind, compact_done (by omega)] at run
      cases run
      omega

/-- A round that takes an element with the values before it. -/
theorem compactSettled_round {other : T} {later : List T} {n rcounter : Nat} (differs : other ≠ value)
    (inside : i < mSize) (behind : destIndex ≤ i) (rest : block.drop i = List.replicate k value ++ other :: later ++ slack)
    (settled : CompactSettled value mSize n later slack (block.set destIndex other) (destIndex + 1) (i + k + 1)
      (rcounter + k)) :
    CompactSettled value mSize (n + 1) (List.replicate k value ++ other :: later) slack block destIndex i rcounter := by
  have skips := skip_values value k (other :: later ++ slack)
  rw [← List.append_assoc, ← rest, List.cons_append, skip, if_neg differs, Option.map_some, Nat.zero_add] at skips
  have found : block[i + k]? = some other := by
    rw [← List.getElem?_drop, rest, List.append_assoc, List.getElem?_append_right (by simp), List.length_replicate,
      Nat.sub_self]
    rfl
  have counted : (List.replicate k value ++ other :: later).count value = k + later.count value := by
    rw [List.count_append, List.count_replicate_self, List.count_cons_of_ne differs]
  have kept : (List.replicate k value ++ other :: later).filter (· ≠ value) = other :: later.filter (· ≠ value) := by
    simp [List.filter_append, differs]
  have within : destIndex < block.length := by
    have reached := (List.getElem?_eq_some_iff.mp found).1
    omega
  rw [CompactSettled, endSeen_round differs, compact_round inside skips found behind, counted, kept]
  rcases settled with ⟨seen, block', run, length, front⟩ | ⟨unseen, wrong⟩
  · refine .inl ⟨seen, block', by rw [run, Nat.add_assoc], by rw [length, List.length_set], ?_⟩
    have first : (block.set destIndex other).take (destIndex + 1) = block.take destIndex ++ [other] := by
      rw [List.take_add_one, List.take_set_of_le (Nat.le_refl _), List.getElem?_set_self within]
      rfl
    rw [List.length_cons, Nat.add_comm _ 1, ← Nat.add_assoc, front, first, List.append_assoc]
    rfl
  · exact .inr ⟨unseen, fun count block' run => by rw [← Nat.add_assoc]; exact wrong count block' run⟩

end Compaction

theorem compact_settled (value : T) (mSize : Nat) (slack : List T) (n : Nat) :
    ∀ (tail block : List T) (destIndex i rcounter : Nat), tail.length ≤ n → mSize = i + tail.length → destIndex ≤ i →
      block.drop i = tail ++ slack → CompactSettled value mSize n tail slack block destIndex i rcounter := by
  induction n with
  | zero =>
    intro tail block destIndex i rcounter enough size behind rest
    cases List.eq_nil_of_length_eq_zero (Nat.le_zero.mp enough)
    exact compactSettled_nil (by simp [size]) ..
  | succ n ih =>
    intro tail block destIndex i rcounter enough size behind rest
    obtain ⟨k, others, rfl, empty | ⟨other, later, split, differs⟩⟩ := values_first value tail
    · subst empty
      rw [List.append_nil] at size rest ⊢
      rw [List.length_replicate] at size
      cases k with
      | zero => exact compactSettled_nil (by omega) ..
      | succ k => exact compactSettled_values size behind rest n rcounter
    · subst split
      rw [List.length_append, List.length_replicate, List.length_cons] at enough size
      have remaining : (block.set destIndex other).drop (i + k + 1) = later ++ slack := by
        rw [List.drop_set_of_lt (by omega), Nat.add_assoc, ← List.drop_drop, rest, List.append_assoc,
          ← List.drop_drop, List.drop_left' List.length_replicate]
        rfl
      exact compactSettled_round differs (by omega) behind rest
        (ih later _ _ _ _ (by omega) (by omega) (by omega) remaining)

/-- The first loop stops at the first value, or behind the last element. -/
theorem firstIndex_found (value : T) (slack : List T) (block : List T) : ∀ (tail : List T) (i : Nat),
    block.drop i = tail ++ slack → ∃ before rest, tail = before ++ rest ∧ value ∉ before ∧
      (rest = [] ∨ ∃ later, rest = value :: later) ∧
      firstIndex value block i tail.length = some (i + before.length)
  | [], i, _ => ⟨[], [], rfl, List.not_mem_nil, .inl rfl, rfl⟩
  | here :: behind, i, split => by
    have found : block[i]? = some here := by
      rw [← Nat.add_zero i, ← List.getElem?_drop, split]
      rfl
    by_cases same : here = value
    · refine ⟨[], here :: behind, rfl, List.not_mem_nil, .inr ⟨behind, by rw [same]⟩, ?_⟩
      simp [firstIndex, found, same]
    · have next : block.drop (i + 1) = behind ++ slack := by
        rw [← List.drop_drop, split]
        rfl
      obtain ⟨before, rest, rfl, absent, stops, first⟩ := firstIndex_found value slack block behind (i + 1) next
      refine ⟨here :: before, rest, rfl, ?_, stops, ?_⟩
      · rw [List.mem_cons, not_or]
        exact ⟨Ne.symm same, absent⟩
      · simp only [firstIndex, List.length_cons, found, Option.bind_eq_bind, Option.bind_some, if_neg same]
        rw [first, Nat.add_assoc, Nat.add_comm 1]

/-- The list is right again if its block has the elements that stay at the front. -/
theorem Holds.removed (holds : Holds l sequence) (block : List T) (length : block.length = l.block.length)
    (front : block.take (sequence.filter (· ≠ value)).length = sequence.filter (· ≠ value)) :
    Holds { l with
      mSize := l.mSize - BitVec.ofNat 32 (sequence.count value), mArray := l.mArray.map fun _ => block }
        (sequence.filter (· ≠ value)) := by
  refine holds.with_block length ?_ ?_
  · have total : sequence.length = sequence.count value + (sequence.filter (· ≠ value)).length := by
      rw [List.length_eq_countP_add_countP (· == value), ← List.countP_eq_length_filter, List.count]
      congr 2
      funext here
      simp
    have bound := holds.size_small
    rw [BitVec.toNat_sub, BitVec.toNat_ofNat, holds.size]
    have size := holds.size
    omega
  · rw [← front]
    exact List.take_prefix _ _

theorem filter_absent {before : List T} (absent : value ∉ before) : before.filter (· ≠ value) = before :=
  List.filter_eq_self.mpr fun _ among => decide_eq_true fun same => absent (same ▸ among)

/-- Without the value the second loop is not entered. -/
theorem Holds.removedAll_absent (holds : Holds l sequence) (absent : value ∉ sequence)
    (first : firstIndex value l.block 0 sequence.length = some sequence.length) : RemovedAll l sequence value := by
  obtain ⟨slack, split⟩ := holds.elements
  have size : l.mSize.toInt.toNat = sequence.length := by
    rw [toInt_of_small holds.size_small, Int.toNat_natCast, holds.size]
  refine ⟨_, ?_, holds.removed l.block rfl ?_⟩
  · rw [removeAll, size, first]
    simp [compact_done, List.count_eq_zero_of_not_mem absent]
  · rw [filter_absent absent, ← split, List.take_left']
    rfl

/-- From the first value on, the second loop decides. -/
theorem Holds.removedAll_present {before later slack : List T} (holds : Holds l sequence)
    (parts : sequence = before ++ value :: later) (absent : value ∉ before) (split : sequence ++ slack = l.block)
    (first : firstIndex value l.block 0 sequence.length = some before.length) :
    RemovedAll l sequence value ↔ EndSeen value sequence slack := by
  have size : l.mSize.toInt.toNat = sequence.length := by
    rw [toInt_of_small holds.size_small, Int.toNat_natCast, holds.size]
  have last : sequence.getLast? = (value :: later).getLast? := by
    rw [parts, List.getLast?_append_of_ne_nil _ (List.cons_ne_nil _ _)]
  have kept : sequence.filter (· ≠ value) = before ++ (value :: later).filter (· ≠ value) := by
    rw [parts, List.filter_append, filter_absent absent]
  have counted : sequence.count value = (value :: later).count value := by
    rw [parts, List.count_append, List.count_eq_zero_of_not_mem absent, Nat.zero_add]
  have length : sequence.length = before.length + (value :: later).length := by rw [parts, List.length_append]
  have remaining : l.block.drop before.length = value :: later ++ slack := by
    rw [← split, parts, List.append_assoc, List.drop_left]
  have within : before.length < sequence.length := by
    rw [length, List.length_cons]
    omega
  have run (result : Option (Nat × List T)) (compacted : compact value sequence.length sequence.length l.block
      before.length before.length 0 = result) : removeAll l value = result.map fun (rcounter, block) =>
        (rcounter, ⟨l.mSize - BitVec.ofNat 32 rcounter, l.mCapacity, l.mArray.map fun _ => block⟩) := by
    rw [removeAll, size, first]
    simp only [Option.bind_eq_bind, Option.bind_some]
    rw [if_pos within, compacted]
    cases result <;> rfl
  rw [EndSeen, last, ← EndSeen]
  rcases compact_settled value sequence.length slack sequence.length (value :: later) l.block before.length
    before.length 0 (by omega) length (Nat.le_refl _) remaining with ⟨seen, block, result, same, front⟩ | ⟨unseen, wrong⟩
  · rw [Nat.zero_add, ← counted] at result
    refine iff_of_true ⟨_, run _ result, holds.removed block same ?_⟩ seen
    rw [kept, List.length_append, front, ← split, parts, List.append_assoc, List.take_left]
  · refine iff_of_false ?_ unseen
    rintro ⟨l', removed, -⟩
    rw [run _ rfl] at removed
    obtain ⟨⟨count, block⟩, result, same⟩ := Option.map_eq_some_iff.mp removed
    cases same
    exact wrong _ _ result (by rw [Nat.zero_add, counted])

theorem Holds.removedAll_iff (holds : Holds l sequence) (value : T) :
    RemovedAll l sequence value ↔ FindsEnd l sequence value := by
  obtain ⟨slack, split⟩ := holds.elements
  obtain ⟨before, rest, parts, absent, stops, first⟩ := firstIndex_found value slack l.block sequence 0 split.symm
  rw [Nat.zero_add] at first
  have ends : l.block[l.mSize.toNat]? = slack.head? := by
    rw [← split, holds.size, List.getElem?_append_right (Nat.le_refl _), Nat.sub_self, List.head?_eq_getElem?]
  have seen : FindsEnd l sequence value ↔ EndSeen value sequence slack := by rw [FindsEnd, EndSeen, ends]
  rw [seen]
  rcases stops with rfl | ⟨later, rfl⟩
  · rw [List.append_nil] at parts
    subst parts
    exact iff_of_true (holds.removedAll_absent absent first) fun last => absurd (List.mem_of_getLast? last) absent
  · exact holds.removedAll_present parts absent split first

/-- Values are inserted as they should if and only if they find room `count` entries above the first one; the values are
removed as they should if and only if the array goes on with something else behind them. -/
theorem insert_removeAll_iff {heap : ArrayHeap T} (holds : Holds l sequence) :
    (∀ (i count : Word) (value : T), 0 ≤ i.toInt → i.toInt ≤ l.mSize.toInt → 1 ≤ count.toInt →
      (Inserted heap l sequence i count value ↔ FindsRoom heap l i count)) ∧
    ∀ value, RemovedAll l sequence value ↔ FindsEnd l sequence value :=
  ⟨fun _ _ value index inside positive => holds.inserted_iff index inside positive value, holds.removedAll_iff⟩

end Removal

section Instances

/-- A list of one element, and a full one. -/
def oneElement : QList Nat := ⟨1#32, 2#32, some [5, 0]⟩

def twoElements : QList Nat := ⟨2#32, 2#32, some [5, 5]⟩

theorem holds_oneElement : Holds oneElement [5] := Holds.of_block (by decide) rfl rfl ⟨[0], rfl⟩

theorem holds_twoElements : Holds twoElements [5, 5] := Holds.of_block (by decide) rfl rfl ⟨[], rfl⟩

/-- A value is inserted behind the element, and the element is removed. -/
theorem inserted_and_removed : Inserted generousHeap oneElement [5] 1#32 1#32 7 ∧ RemovedAll oneElement [5] 5 := by
  have both := @insert_removeAll_iff Nat _ oneElement [5] generousHeap holds_oneElement
  refine ⟨(both.1 1#32 1#32 7 (by decide) (by decide) (by decide)).mpr ?_, (both.2 5).mpr fun _ => ⟨0, rfl, by decide⟩⟩
  exact Nat.le_refl 1

/-- The first value of an empty list is read below its array; the array ends with the values that are removed. -/
theorem prepend_reads_below : Holds (empty generousHeap) [] ∧
    ¬Inserted generousHeap (empty generousHeap) [] 0#32 1#32 7 ∧
    Holds twoElements [5, 5] ∧ ¬RemovedAll twoElements [5, 5] 5 := by
  refine ⟨holds_empty _, not_inserted_of_none rfl, holds_twoElements, fun removed => ?_⟩
  obtain ⟨behind, found, -⟩ := (holds_twoElements.removedAll_iff 5).mp removed rfl
  cases found

end Instances

end FluxOS.QList
