import FluxOS.PipeRuns

/-! The `memcpy`s of `Pipe::Read` and `Pipe::write` by themselves, and when all of them stay in the ring. -/
namespace FluxOS.Pipe
open Words UserMemoryOps Buffers

/-- A `memcpy` from or to the ring: the position it starts at, and the `int` it is given as its length. -/
structure Copy where
  start : Word
  length : Word

/-- A length that is not negative and does not go beyond the end of the ring. -/
def Copy.InRing (copy : Copy) : Prop := 0 ≤ copy.length.toInt ∧ copy.length.toInt ≤ 8192 - copy.start.toNat

/-- The length of one stretch, up to the limit or up to what is asked for. -/
def stretch (size position limit : Word) : Word :=
  if limit < size + position then limit - position else size

def lastCopy (position stop size : Word) : List Copy :=
  if position < stop then [⟨position, stretch size position stop⟩] else []

/-- The copies of one call, where the position of its own side is `start` and that of the other side is `stop`. -/
def copies (start stop size : Word) : List Copy :=
  if stop ≤ start then
    let length := stretch size start pipeSize
    ⟨start, length⟩ :: lastCopy ((start + length) % pipeSize) stop (size - length)
  else lastCopy start stop size

def readCopies (pd : PipeDesc) (size : Word) : List Copy :=
  if pd.count = 0#32 then [] else copies pd.rpos pd.wpos size

def writeCopies (pd : PipeDesc) (size : Word) : List Copy :=
  if pd.count = pipeSize then [] else copies pd.wpos pd.rpos size

/-- `readBytes` and `wBytes` at the end of the call. -/
def moved : List Copy → Word
  | [] => 0#32
  | copy :: rest => copy.length + moved rest

/-- The position of the call's own side afterwards. -/
def endPosition (start : Word) (copies : List Copy) : Word :=
  copies.foldl (fun position copy => (position + copy.length) % pipeSize) start

section Calls

variable {t t' : Transfer} {limit : Word} {pd pd' : PipeDesc} {buf buf' : List Byte} {size bytes : Word}

/-- Every copy is inside the ring, as a range of bytes that may be empty. -/
def Within (ring : List Byte) (copies : List Copy) : Prop :=
  ∀ copy ∈ copies, Inside ring copy.start.toNat copy.length.toNat

theorem readStretch_some (done : readStretch t limit = some t') :
    Inside t.pd.buf t.pd.rpos.toNat (stretch t.size t.pd.rpos limit).toNat ∧
    t'.pd = { t.pd with rpos := (t.pd.rpos + stretch t.size t.pd.rpos limit) % pipeSize } ∧
    t'.size = t.size - stretch t.size t.pd.rpos limit ∧ t'.bytes = t.bytes + stretch t.size t.pd.rpos limit := by
  simp only [readStretch, Option.bind_eq_bind, Option.bind_eq_some_iff, Option.pure_def, Option.some.injEq] at done
  obtain ⟨found, sliced, -, -, rfl⟩ := done
  exact ⟨inside_of_slice sliced, rfl, rfl, rfl⟩

theorem writeStretch_some (done : writeStretch t limit = some t') :
    Inside t.pd.buf t.pd.wpos.toNat (stretch t.size t.pd.wpos limit).toNat ∧
    t'.pd.rpos = t.pd.rpos ∧ t'.pd.count = t.pd.count ∧ t'.pd.buf.length = t.pd.buf.length ∧
    t'.pd.wpos = (t.pd.wpos + stretch t.size t.pd.wpos limit) % pipeSize ∧
    t'.size = t.size - stretch t.size t.pd.wpos limit ∧ t'.bytes = t.bytes + stretch t.size t.pd.wpos limit := by
  simp only [writeStretch, Option.bind_eq_bind, Option.bind_eq_some_iff, Option.pure_def, Option.some.injEq] at done
  obtain ⟨given, sliced, ring, written, rfl⟩ := done
  have inside := inside_of_patch written
  rw [length_of_slice sliced] at inside
  exact ⟨inside, rfl, rfl, length_of_patch written, rfl, rfl, rfl⟩

/-- The second stretch, where there is one. -/
theorem lastRead_some (done : (if t.pd.rpos < t.pd.wpos then readStretch t t.pd.wpos else some t) = some t') :
    Within t.pd.buf (lastCopy t.pd.rpos t.pd.wpos t.size) ∧
    t'.pd = { t.pd with rpos := endPosition t.pd.rpos (lastCopy t.pd.rpos t.pd.wpos t.size) } ∧
    t'.bytes = t.bytes + moved (lastCopy t.pd.rpos t.pd.wpos t.size) := by
  unfold lastCopy
  by_cases further : t.pd.rpos < t.pd.wpos
  · rw [if_pos further] at done ⊢
    obtain ⟨inside, pd, -, bytes⟩ := readStretch_some done
    refine ⟨by simpa [Within] using inside, by simpa [endPosition] using pd, by simpa [moved] using bytes⟩
  · rw [if_neg further] at done ⊢
    cases done
    simp [Within, endPosition, moved]

theorem lastWrite_some (done : (if t.pd.wpos < t.pd.rpos then writeStretch t t.pd.rpos else some t) = some t') :
    Within t.pd.buf (lastCopy t.pd.wpos t.pd.rpos t.size) ∧
    t'.pd.rpos = t.pd.rpos ∧ t'.pd.count = t.pd.count ∧ t'.pd.buf.length = t.pd.buf.length ∧
    t'.pd.wpos = endPosition t.pd.wpos (lastCopy t.pd.wpos t.pd.rpos t.size) ∧
    t'.bytes = t.bytes + moved (lastCopy t.pd.wpos t.pd.rpos t.size) := by
  unfold lastCopy
  by_cases further : t.pd.wpos < t.pd.rpos
  · rw [if_pos further] at done ⊢
    obtain ⟨inside, rpos, count, room, wpos, -, bytes⟩ := writeStretch_some done
    refine ⟨by simpa [Within] using inside, rpos, count, room, by simpa [endPosition] using wpos,
      by simpa [moved] using bytes⟩
  · rw [if_neg further] at done ⊢
    cases done
    simp [Within, endPosition, moved]

theorem Within.cons {ring : List Byte} {copy : Copy} {rest : List Copy}
    (first : Inside ring copy.start.toNat copy.length.toNat) (more : Within ring rest) : Within ring (copy :: rest) :=
  List.forall_mem_cons.mpr ⟨first, more⟩

theorem moved_cons (copy : Copy) (rest : List Copy) : moved (copy :: rest) = copy.length + moved rest := rfl

theorem endPosition_cons (start : Word) (copy : Copy) (rest : List Copy) :
    endPosition start (copy :: rest) = endPosition ((start + copy.length) % pipeSize) rest := rfl

theorem bind_ite {α β : Type*} (c : Prop) [Decidable c] (x y : Option α) (f : α → Option β) :
    (if c then x.bind f else y.bind f) = (if c then x else y).bind f :=
  (apply_ite (Option.bind · f) c x y).symm

/-- A read that comes to its end has made these copies, all of them inside the ring. -/
theorem read_some (done : read pd buf size = some (bytes, buf', pd')) :
    Within pd.buf (readCopies pd size) ∧ bytes = moved (readCopies pd size) ∧
    pd' = ⟨endPosition pd.rpos (readCopies pd size), pd.wpos, pd.count - bytes, pd.buf⟩ := by
  unfold read at done
  unfold readCopies
  by_cases empty : pd.count = 0#32
  · rw [if_pos empty] at done ⊢
    cases done
    simp [Within, moved, endPosition]
  rw [if_neg empty] at done ⊢
  simp only [Option.bind_eq_bind, Option.pure_def, bind_ite, Option.bind_eq_some_iff, Option.some.injEq,
    Prod.mk.injEq] at done
  obtain ⟨t, first, t', last, rfl, rfl, rfl⟩ := done
  obtain ⟨inside, same, amount⟩ := lastRead_some last
  unfold copies
  by_cases order : pd.wpos ≤ pd.rpos
  · rw [if_pos order] at first ⊢
    obtain ⟨inside₁, same₁, size₁, amount₁⟩ := readStretch_some first
    simp only [same₁, size₁, amount₁] at inside same amount inside₁
    simp only [moved_cons, endPosition_cons, same, amount, BitVec.zero_add]
    exact ⟨.cons inside₁ inside, trivial, trivial⟩
  · rw [if_neg order] at first ⊢
    cases first
    simp only [same, amount, BitVec.zero_add]
    exact ⟨inside, trivial, trivial⟩

theorem write_some (done : write pd buf size = some (bytes, pd')) :
    Within pd.buf (writeCopies pd size) ∧ bytes = moved (writeCopies pd size) ∧ pd'.rpos = pd.rpos ∧
    pd'.wpos = endPosition pd.wpos (writeCopies pd size) ∧ pd'.count = pd.count + bytes ∧
    pd'.buf.length = pd.buf.length := by
  unfold write at done
  unfold writeCopies
  by_cases full : pd.count = pipeSize
  · rw [if_pos full] at done ⊢
    cases done
    simp [Within, moved, endPosition]
  rw [if_neg full] at done ⊢
  simp only [Option.bind_eq_bind, Option.pure_def, bind_ite, Option.bind_eq_some_iff, Option.some.injEq,
    Prod.mk.injEq] at done
  obtain ⟨t, first, t', last, rfl, rfl⟩ := done
  obtain ⟨inside, rpos, count, room, wpos, amount⟩ := lastWrite_some last
  unfold copies
  by_cases order : pd.rpos ≤ pd.wpos
  · rw [if_pos order] at first ⊢
    obtain ⟨inside₁, rpos₁, count₁, room₁, wpos₁, size₁, amount₁⟩ := writeStretch_some first
    simp only [rpos₁, wpos₁, size₁, amount₁, count₁, room₁, BitVec.zero_add] at inside rpos count room wpos amount inside₁
    simp only [moved_cons, endPosition_cons, amount, rpos, count, room, wpos]
    refine ⟨.cons inside₁ ?_, trivial, trivial, trivial, trivial, trivial⟩
    simpa only [Within, Inside, room₁] using inside
  · rw [if_neg order] at first ⊢
    cases first
    simp only [amount, rpos, count, room, wpos, BitVec.zero_add]
    exact ⟨inside, trivial, trivial, trivial, trivial, trivial⟩

end Calls

section Amounts

variable {start stop size position limit : Word}

/-- The bytes that go to or come from the caller. -/
def transferred : List Copy → Nat
  | [] => 0
  | copy :: rest => copy.length.toNat + transferred rest

theorem transferred_cons (copy : Copy) (rest : List Copy) :
    transferred (copy :: rest) = copy.length.toNat + transferred rest := rfl

theorem inRing_of_le {copy : Copy} (fits : copy.start.toNat + copy.length.toNat ≤ 8192) : copy.InRing := by
  have signed : copy.length.toInt = copy.length.toNat := BitVec.toInt_eq_toNat_of_lt (by omega)
  constructor <;> omega

/-- A sum that wraps is below every limit: the whole size is taken, and that is a negative `int`. -/
theorem stretch_wrapped (wraps : 2 ^ 32 ≤ size.toNat + position.toNat) (before : position ≤ limit) :
    stretch size position limit = size := by
  have sizeLt := size.isLt
  have positionLt := position.isLt
  have beforeNat : position.toNat ≤ limit.toNat := before
  apply if_neg
  rw [BitVec.lt_def, BitVec.toNat_add]
  omega

theorem not_inRing_wrapped (wraps : 2 ^ 32 ≤ size.toNat + position.toNat) (inside : position.toNat < 8192) :
    ¬ (Copy.mk position size).InRing := by
  rintro ⟨positive, -⟩
  have sizeLt := size.isLt
  have signed : size.toInt = size.toNat - (2 ^ 32 : Nat) := by
    rw [BitVec.toInt_eq_toNat_cond, if_neg (by omega)]
  simp only [signed] at positive
  omega

/-- The first copy of a call takes the whole size where the sum wraps. -/
theorem copies_wrapped (wraps : 2 ^ 32 ≤ size.toNat + start.toNat) (inside : start.toNat < 8192) :
    Copy.mk start size ∈ copies start stop size := by
  unfold copies
  by_cases order : stop ≤ start
  · rw [if_pos order, stretch_wrapped wraps (show start.toNat ≤ 8192 from inside.le)]
    exact List.mem_cons_self
  · have before : start < stop := BitVec.not_le.mp order
    rw [if_neg order, lastCopy, if_pos before, stretch_wrapped wraps (BitVec.le_of_lt before)]
    exact List.mem_singleton_self _

theorem lastCopy_spec (fits : size.toNat + position.toNat < 2 ^ 32) (inside : position.toNat < 8192)
    (bound : stop.toNat < 8192) {n : Nat} (amount : n = min size.toNat (stop.toNat - position.toNat)) :
    (∀ copy ∈ lastCopy position stop size, copy.InRing) ∧ transferred (lastCopy position stop size) = n ∧
    (endPosition position (lastCopy position stop size)).toNat = (position.toNat + n) % 8192 := by
  unfold lastCopy
  by_cases before : position < stop
  · have beforeNat : position.toNat < stop.toNat := before
    have length : (stretch size position stop).toNat = n := by
      rw [amount]
      exact stretch_toNat fits beforeNat.le
    rw [if_pos before]
    refine ⟨List.forall_mem_singleton.mpr (inRing_of_le (by simp only; omega)), by simpa [transferred] using length, ?_⟩
    show ((position + stretch size position stop) % pipeSize).toNat = _
    rw [moved_toNat inside (by omega), length]
  · have beyond : stop.toNat ≤ position.toNat := Nat.not_lt.mp before
    have nothing : n = 0 := by omega
    rw [if_neg before, nothing, Nat.add_zero, Nat.mod_eq_of_lt inside]
    exact ⟨by simp, rfl, rfl⟩

/-- `available` bytes lie between the two positions; as many are transferred as are asked for and are there. -/
theorem copies_spec (fits : size.toNat + start.toNat < 2 ^ 32) (inside : start.toNat < 8192) {available : Nat}
    (some : 0 < available) (most : available ≤ 8192) (stops : stop.toNat = (start.toNat + available) % 8192) {n : Nat}
    (amount : n = min size.toNat available) :
    (∀ copy ∈ copies start stop size, copy.InRing) ∧ transferred (copies start stop size) = n ∧
    (endPosition start (copies start stop size)).toNat = (start.toNat + n) % 8192 := by
  have bound : stop.toNat < 8192 := by omega
  unfold copies
  by_cases order : stop ≤ start
  · have orderNat : stop.toNat ≤ start.toNat := order
    have round : start.toNat + available = stop.toNat + 8192 := by omega
    obtain ⟨length, lengthEq⟩ : ∃ length, stretch size start pipeSize = length := ⟨_, rfl⟩
    have first : length.toNat = min size.toNat (8192 - start.toNat) := by
      rw [← lengthEq]
      exact stretch_toNat fits inside.le
    obtain ⟨next, nextEq⟩ : ∃ next, (start + length) % pipeSize = next := ⟨_, rfl⟩
    have nextNat : next.toNat = (start.toNat + length.toNat) % 8192 := by
      rw [← nextEq]
      exact moved_toNat inside (by omega)
    have left : (size - length).toNat = size.toNat - length.toNat := by
      rw [BitVec.toNat_sub_of_le]
      exact first.trans_le (min_le_left _ _)
    obtain ⟨more, second⟩ : ∃ more, more = min (size - length).toNat (stop.toNat - next.toNat) := ⟨_, rfl⟩
    obtain ⟨rest, restAmount, finish⟩ := lastCopy_spec (by omega) (by omega) bound second
    have total : length.toNat + more = n := by
      by_cases further : next.toNat < stop.toNat
      · have whole := whole_of_further inside orderNat first (nextNat ▸ further)
        have front : next.toNat = 0 := by
          rw [nextNat, whole, Nat.add_sub_cancel' inside.le]
        rw [amount]
        apply total_of_further round inside first whole
        omega
      · rw [amount, ← total_of_not_further round inside first (nextNat ▸ Nat.not_lt.mp further)]
        omega
    rw [if_pos order]
    simp only [lengthEq, nextEq]
    refine ⟨List.forall_mem_cons.mpr ⟨inRing_of_le (by simp only; omega), rest⟩, ?_, ?_⟩
    · rw [transferred_cons, restAmount, total]
    · rw [endPosition_cons, nextEq, finish, nextNat, Nat.mod_add_mod, Nat.add_assoc, total]
  · have orderNat : start.toNat < stop.toNat := Nat.not_le.mp order
    rw [if_neg order]
    exact lastCopy_spec fits inside bound (by omega)

theorem moved_toNat_eq {list : List Copy} (few : transferred list < 2 ^ 32) : (moved list).toNat = transferred list := by
  induction list with
  | nil => rfl
  | cons copy rest ih =>
    rw [transferred_cons] at few
    rw [moved_cons, transferred_cons, BitVec.toNat_add, ih (by omega)]
    exact Nat.mod_eq_of_lt few

end Amounts

/-- The pipes that calls lead to, with any size and any block of the caller, as long as every call has come to its
end. -/
inductive Reached : PipeDesc → Prop
  | newPipe {buf} (room : buf.length = 8192) : Reached (newPipe buf)
  | read {pd buf size bytes buf' pd'} (reached : Reached pd) (done : read pd buf size = some (bytes, buf', pd')) :
      Reached pd'
  | write {pd buf size bytes pd'} (reached : Reached pd) (done : write pd buf size = some (bytes, pd')) : Reached pd'

/-- The two positions are `count` bytes apart. -/
structure Placed (pd : PipeDesc) : Prop where
  room : pd.buf.length = 8192
  rpos : pd.rpos.toNat < 8192
  count : pd.count.toNat ≤ 8192
  wpos : pd.wpos.toNat = (pd.rpos.toNat + pd.count.toNat) % 8192

section Reachable

variable {pd pd' : PipeDesc} {buf buf' : List Byte} {size bytes : Word} {n : Nat}

theorem Placed.wpos_lt (placed : Placed pd) : pd.wpos.toNat < 8192 := by
  rw [placed.wpos]
  exact Nat.mod_lt _ (by decide)

theorem Placed.readCopies_spec (placed : Placed pd) (held : pd.count ≠ 0#32) (fits : size.toNat + pd.rpos.toNat < 2 ^ 32)
    (amount : n = min size.toNat pd.count.toNat) :
    (∀ copy ∈ readCopies pd size, copy.InRing) ∧ transferred (readCopies pd size) = n ∧
    (endPosition pd.rpos (readCopies pd size)).toNat = (pd.rpos.toNat + n) % 8192 := by
  have some : 0 < pd.count.toNat := by
    apply Nat.pos_of_ne_zero
    intro zero
    exact held (BitVec.eq_of_toNat_eq zero)
  rw [readCopies, if_neg held]
  exact copies_spec fits placed.rpos some placed.count placed.wpos amount

theorem Placed.writeCopies_spec (placed : Placed pd) (free : pd.count ≠ pipeSize)
    (fits : size.toNat + pd.wpos.toNat < 2 ^ 32) (amount : n = min size.toNat (8192 - pd.count.toNat)) :
    (∀ copy ∈ writeCopies pd size, copy.InRing) ∧ transferred (writeCopies pd size) = n ∧
    (endPosition pd.wpos (writeCopies pd size)).toNat = (pd.wpos.toNat + n) % 8192 := by
  have some : pd.count.toNat ≠ 8192 := fun all => free (BitVec.eq_of_toNat_eq all)
  have rpos := placed.rpos
  have wpos := placed.wpos
  have count := placed.count
  rw [writeCopies, if_neg free]
  exact copies_spec fits placed.wpos_lt (by omega) (by omega) (by omega) amount

/-- Where all copies are inside the ring, the first sum of the call has not wrapped. -/
theorem fits_of_within {ring : List Byte} {start stop : Word} (room : ring.length = 8192) (inside : start.toNat < 8192)
    (within : Within ring (copies start stop size)) : size.toNat + start.toNat < 2 ^ 32 := by
  by_contra wraps
  have range := within _ (copies_wrapped (Nat.not_lt.mp wraps) inside)
  simp only [Inside, room] at range
  omega

theorem Placed.read (placed : Placed pd) (done : read pd buf size = some (bytes, buf', pd')) : Placed pd' := by
  by_cases empty : pd.count = 0#32
  · rw [Pipe.read, if_pos empty] at done
    cases done
    exact placed
  obtain ⟨within, rfl, rfl⟩ := read_some done
  have fits : size.toNat + pd.rpos.toNat < 2 ^ 32 := by
    rw [readCopies, if_neg empty] at within
    exact fits_of_within placed.room placed.rpos within
  obtain ⟨n, amount⟩ : ∃ n, n = min size.toNat pd.count.toNat := ⟨_, rfl⟩
  obtain ⟨-, total, finish⟩ := placed.readCopies_spec empty fits amount
  have count := placed.count
  have movedNat : (moved (readCopies pd size)).toNat = n := by
    rw [moved_toNat_eq (by omega), total]
  have left : (pd.count - moved (readCopies pd size)).toNat = pd.count.toNat - n := by
    rw [BitVec.toNat_sub_of_le (show (moved (readCopies pd size)).toNat ≤ pd.count.toNat by omega), movedNat]
  have wpos := placed.wpos
  refine ⟨placed.room, ?_, ?_, ?_⟩
  · simp only [finish]
    exact Nat.mod_lt _ (by decide)
  · simp only [left]
    omega
  · simp only [left, finish]
    omega

theorem Placed.write (placed : Placed pd) (done : write pd buf size = some (bytes, pd')) : Placed pd' := by
  by_cases full : pd.count = pipeSize
  · rw [Pipe.write, if_pos full] at done
    cases done
    exact placed
  obtain ⟨within, rfl, rpos, wpos, count, room⟩ := write_some done
  have fits : size.toNat + pd.wpos.toNat < 2 ^ 32 := by
    rw [writeCopies, if_neg full] at within
    exact fits_of_within placed.room placed.wpos_lt within
  obtain ⟨n, amount⟩ : ∃ n, n = min size.toNat (8192 - pd.count.toNat) := ⟨_, rfl⟩
  obtain ⟨-, total, finish⟩ := placed.writeCopies_spec full fits amount
  have held := placed.count
  have before := placed.wpos
  have more : pd'.count.toNat = pd.count.toNat + n := by
    rw [count, BitVec.toNat_add, moved_toNat_eq (by omega), total]
    exact Nat.mod_eq_of_lt (by omega)
  refine ⟨room.trans placed.room, ?_, by omega, ?_⟩
  · rw [rpos]
    exact placed.rpos
  · rw [wpos, finish, rpos, more]
    omega

theorem Reached.placed (reached : Reached pd) : Placed pd := by
  induction reached with
  | newPipe room => exact ⟨room, by simp [Pipe.newPipe], by simp [Pipe.newPipe], by simp [Pipe.newPipe]⟩
  | read _ done ih => exact ih.read done
  | write _ done ih => exact ih.write done

end Reachable

/-- What a call is to keep to: its copies, the bytes of the caller, and the count afterwards. -/
def Stays (copies : List Copy) (size count : Word) : Prop :=
  (∀ copy ∈ copies, copy.InRing) ∧ transferred copies ≤ size.toNat ∧ count.toNat ≤ 8192

def ReadStays (pd : PipeDesc) (size : Word) : Prop :=
  Stays (readCopies pd size) size (pd.count - moved (readCopies pd size))

def WriteStays (pd : PipeDesc) (size : Word) : Prop :=
  Stays (writeCopies pd size) size (pd.count + moved (writeCopies pd size))

section Stays

variable {pd : PipeDesc}

theorem readStays_iff (placed : Placed pd) (size : Word) :
    ReadStays pd size ↔ pd.count = 0#32 ∨ size.toNat + pd.rpos.toNat < 2 ^ 32 := by
  unfold ReadStays Stays
  have count := placed.count
  by_cases empty : pd.count = 0#32
  · simp [readCopies, empty, transferred, moved]
  constructor
  · rintro ⟨stay, -⟩
    right
    by_contra wraps
    rw [readCopies, if_neg empty] at stay
    exact not_inRing_wrapped (Nat.not_lt.mp wraps) placed.rpos (stay _ (copies_wrapped (Nat.not_lt.mp wraps) placed.rpos))
  · rintro (none | fits)
    · exact absurd none empty
    obtain ⟨stay, total, -⟩ := placed.readCopies_spec empty fits rfl
    have amount : (moved (readCopies pd size)).toNat = min size.toNat pd.count.toNat := by
      rw [moved_toNat_eq (by omega), total]
    refine ⟨stay, by omega, ?_⟩
    rw [BitVec.toNat_sub_of_le (show (moved (readCopies pd size)).toNat ≤ pd.count.toNat by omega)]
    omega

theorem writeStays_iff (placed : Placed pd) (size : Word) :
    WriteStays pd size ↔ pd.count = pipeSize ∨ size.toNat + pd.wpos.toNat < 2 ^ 32 := by
  unfold WriteStays Stays
  have count := placed.count
  have inside := placed.wpos_lt
  by_cases full : pd.count = pipeSize
  · simp [writeCopies, full, transferred, moved, pipeSize_toNat]
  constructor
  · rintro ⟨stay, -⟩
    right
    by_contra wraps
    rw [writeCopies, if_neg full] at stay
    exact not_inRing_wrapped (Nat.not_lt.mp wraps) inside (stay _ (copies_wrapped (Nat.not_lt.mp wraps) inside))
  · rintro (all | fits)
    · exact absurd all full
    obtain ⟨stay, total, -⟩ := placed.writeCopies_spec full fits rfl
    refine ⟨stay, by omega, ?_⟩
    rw [BitVec.toNat_add, moved_toNat_eq (by omega), total]
    omega

/-- In every pipe that calls lead to, and for every size: the copies stay in the ring where the size can be added to
the position, or where there is nothing to copy. -/
theorem copies_stay_iff (reached : Reached pd) (size : Word) :
    (ReadStays pd size ↔ pd.count = 0#32 ∨ size.toNat + pd.rpos.toNat < 2 ^ 32) ∧
    (WriteStays pd size ↔ pd.count = pipeSize ∨ size.toNat + pd.wpos.toNat < 2 ^ 32) :=
  ⟨readStays_iff reached.placed size, writeStays_iff reached.placed size⟩

end Stays

/-- Five bytes for a new pipe. -/
theorem five_bytes_stay : WriteStays (newPipe (List.replicate 8192 0#8)) 5#32 :=
  (copies_stay_iff (.newPipe List.length_replicate) 5#32).2.mpr (.inr (by decide))

/-- Three bytes are in the pipe, and then the largest size is given: it is copied as it is, to the fourth place. -/
theorem largest_size_leaves : ∃ buf pd, Reached pd ∧
    write (newPipe (List.replicate 8192 0#8)) buf 3#32 = some (3#32, pd) ∧
    Copy.mk 3#32 0xFFFFFFFF#32 ∈ writeCopies pd 0xFFFFFFFF#32 ∧ ¬ WriteStays pd 0xFFFFFFFF#32 := by
  have fresh : Reached (newPipe (List.replicate 8192 0#8)) := .newPipe List.length_replicate
  obtain ⟨bytes, pd, done, -, -⟩ := write_spec (holds_newPipe List.length_replicate) [1#8, 2#8, 3#8] 3#32
    (by decide) (by decide)
  obtain ⟨-, amount, rpos, wpos, count, -⟩ := write_some done
  have three : bytes = 3#32 := amount
  have wposEq : pd.wpos = 3#32 := wpos
  have countEq : pd.count = 3#32 := by
    rw [count, three]
    rfl
  have rposEq : pd.rpos = 0#32 := rpos
  have copied : Copy.mk 3#32 0xFFFFFFFF#32 ∈ writeCopies pd 0xFFFFFFFF#32 := by
    rw [writeCopies, countEq, wposEq, rposEq]
    exact List.mem_cons_self
  refine ⟨_, pd, .write fresh done, three ▸ done, copied, ?_⟩
  rintro ⟨stay, -⟩
  exact absurd (stay _ copied).1 (by decide)

end FluxOS.Pipe
