import FluxOS.UserMemoryOps

/-! `Vt::Read` and `Vt::notifyKeyPress`: key presses go into a ring of 256 characters, a read takes
them out one by one and edits what it has copied; and in which runs the reads return what was
typed. -/
namespace FluxOS.Vt
open Words UserMemoryOps

def backspace : Byte := 0x08#8
def newline : Byte := 0x0A#8

/-- The ring with its two counters, and the read that is under way: its `count` and the characters
that its buffer holds. -/
structure Input where
  keysBuffer : Byte → Byte
  kbPos : Word
  readPos : Word
  reading : Option (Nat × List Byte)

namespace Input

/-- The part of `notifyKeyPress` that keeps the key; the other part echoes it. -/
def notifyKeyPress (s : Input) (code : Byte) : Input :=
  { s with keysBuffer := Function.update s.keysBuffer (s.kbPos.setWidth 8) code, kbPos := s.kbPos + 1#32 }

/-- A call of `Read`. -/
def call (s : Input) (count : Nat) : Input := { s with reading := some (count, []) }

/-- One character's turn in the loops of `Read`, with the buffer if it returns; none while
`readPos < kbPos` does not hold. -/
def readNext (s : Input) : Option (Input × Option (List Byte)) :=
  match s.reading with
  | none => none
  | some (count, buffer) =>
    if s.readPos < s.kbPos then
      let tmp := s.keysBuffer (s.readPos.setWidth 8)
      let s := { s with readPos := s.readPos + 1#32 }
      if tmp = backspace then some ({ s with reading := some (count, buffer.dropLast) }, none)
      else if buffer.length = count then some ({ s with reading := none }, some buffer)
      else if tmp = newline then some ({ s with reading := none }, some (buffer ++ [tmp]))
      else some ({ s with reading := some (count, buffer ++ [tmp]) }, none)
    else none

/-- The number of characters in the ring. -/
def unread (s : Input) : Nat := (s.kbPos - s.readPos).toNat

/-- The read under way has a full buffer, and a character that is no backspace comes next. -/
def Overfull (s : Input) : Prop :=
  ∃ count buffer, s.reading = some (count, buffer) ∧ buffer.length = count ∧
    s.keysBuffer (s.readPos.setWidth 8) ≠ backspace

end Input

/-- What can be seen from outside. -/
inductive Event where
  | typed (code : Byte)
  | returned (count : Nat) (buffer : List Byte)
  deriving DecidableEq, Repr

/-- The runs, the last event first, in which no character is taken from the ring when the buffer is
full, but a backspace. -/
inductive Run (first : Input) : List Event → Input → Prop where
  | first : Run first [] first
  | typed {earlier : List Event} {s : Input} (run : Run first earlier s) (room : s.unread < 256) (code : Byte) :
      Run first (.typed code :: earlier) (s.notifyKeyPress code)
  | called {earlier : List Event} {s : Input} (run : Run first earlier s) (idle : s.reading = none) {count : Nat}
      (positive : 1 ≤ count) : Run first earlier (s.call count)
  | reads {earlier : List Event} {s next : Input} (run : Run first earlier s) (met : ¬s.Overfull)
      (does : s.readNext = some (next, none)) : Run first earlier next
  | returns {earlier : List Event} {s next : Input} {count : Nat} {held buffer : List Byte} (run : Run first earlier s)
      (met : ¬s.Overfull) (under : s.reading = some (count, held)) (does : s.readNext = some (next, some buffer)) :
      Run first (.returned count buffer :: earlier) next

/-! ## What is expected -/

/-- A key after the characters that are not returned yet: a backspace takes the latest of them. -/
def press (pending : List Byte) (code : Byte) : List Byte :=
  if code = backspace then pending.dropLast else pending ++ [code]

/-- The same with lines: what a newline ended is not taken back. -/
def pressLine (pending : List Byte) (code : Byte) : List Byte :=
  if code = backspace then if pending.getLast? = some newline then pending else pending.dropLast
  else pending ++ [code]

/-- The edited characters that no read has returned. -/
def pending (edit : List Byte → Byte → List Byte) : List Event → List Byte
  | [] => []
  | .typed code :: earlier => edit (pending edit earlier) code
  | .returned _ buffer :: earlier => (pending edit earlier).drop buffer.length

/-- Every buffer is what comes next of the edited characters, is no longer than was asked for, and
ends with the first newline in it. -/
def Expected (edit : List Byte → Byte → List Byte) : List Event → Prop
  | [] => True
  | .typed _ :: earlier => Expected edit earlier
  | .returned count buffer :: earlier =>
    buffer <+: pending edit earlier ∧ buffer.length ≤ count ∧ newline ∉ buffer.dropLast ∧ Expected edit earlier

/-- No backspace is typed when a newline is the latest character that is not returned. -/
def Uncrossed : List Event → Prop
  | [] => True
  | .typed code :: earlier => (code = backspace → (pending press earlier).getLast? ≠ some newline) ∧ Uncrossed earlier
  | .returned _ _ :: earlier => Uncrossed earlier

theorem pending_pressLine {events : List Event} (uncrossed : Uncrossed events) :
    pending pressLine events = pending press events := by
  induction events with
  | nil => rfl
  | cons event earlier ih =>
    cases event with
    | typed code =>
      obtain ⟨stays, uncrossed⟩ := uncrossed
      rw [pending, pending, ih uncrossed, press, pressLine]
      by_cases back : code = backspace
      · rw [if_pos back, if_pos back, if_neg (stays back)]
      · rw [if_neg back, if_neg back]
    | returned count buffer => rw [pending, pending, ih uncrossed]

theorem Expected.of_uncrossed {events : List Event} (uncrossed : Uncrossed events) (expected : Expected pressLine events) :
    Expected press events := by
  induction events with
  | nil => trivial
  | cons event earlier ih =>
    cases event with
    | typed code => exact ih uncrossed.2 expected
    | returned count buffer =>
      obtain ⟨next, short, line, expected⟩ := expected
      have same : pending pressLine earlier = pending press earlier := pending_pressLine uncrossed
      rw [same] at next
      exact ⟨next, short, line, ih uncrossed expected⟩

/-- What a newline ended stays in front. -/
theorem foldl_pressLine_line (line keys rest : List Byte) :
    keys.foldl pressLine (line ++ [newline] ++ rest) = line ++ [newline] ++ keys.foldl pressLine rest := by
  induction keys generalizing rest with
  | nil => rfl
  | cons code keys ih =>
    have step : pressLine (line ++ [newline] ++ rest) code = line ++ [newline] ++ pressLine rest code := by
      by_cases back : code = backspace
      · rw [pressLine, pressLine, if_pos back, if_pos back]
        obtain rfl | ⟨before, last, rfl⟩ := List.eq_nil_or_concat rest
        · simp
        · rw [List.concat_eq_append, ← List.append_assoc, List.getLast?_concat, List.getLast?_concat, List.dropLast_concat, List.dropLast_concat]
          split
          · rw [List.append_assoc]
          · rfl
      · rw [pressLine, pressLine, if_neg back, if_neg back, List.append_assoc]
    rw [List.foldl_cons, List.foldl_cons, step, ih]

/-- A buffer without a newline is edited to its end. -/
theorem pressLine_backspace {buffer : List Byte} (open_ : newline ∉ buffer) : pressLine buffer backspace = buffer.dropLast := by
  rw [pressLine, if_pos rfl, if_neg fun last => open_ (List.mem_of_getLast? last)]

theorem pressLine_other {code : Byte} (other : code ≠ backspace) (buffer : List Byte) :
    pressLine buffer code = buffer ++ [code] := if_neg other

/-! ## The ring -/

/-- `waiting` is what stands in the ring between the two counters. -/
structure Holds (s : Input) (waiting : List Byte) : Prop where
  count : s.kbPos = s.readPos + BitVec.ofNat 32 waiting.length
  fits : waiting.length ≤ 256
  entry : ∀ i < waiting.length, waiting[i]? = some (s.keysBuffer ((s.readPos + BitVec.ofNat 32 i).setWidth 8))

theorem Holds.unread {s : Input} {waiting : List Byte} (holds : Holds s waiting) : s.unread = waiting.length := by
  have fits := holds.fits
  rw [Input.unread, holds.count, BitVec.add_comm, BitVec.add_sub_cancel, BitVec.toNat_ofNat]
  omega

/-- Different characters in the ring lie in different places. -/
theorem ring_ne {start : Word} {i n : Nat} (before : i < n) (fits : n < 256) :
    (start + BitVec.ofNat 32 i).setWidth 8 ≠ (start + BitVec.ofNat 32 n : Word).setWidth 8 := by
  intro same
  have value := congrArg BitVec.toNat same
  rw [BitVec.toNat_setWidth, BitVec.toNat_setWidth, BitVec.toNat_add, BitVec.toNat_add, BitVec.toNat_ofNat,
    BitVec.toNat_ofNat] at value
  omega

theorem Holds.notifyKeyPress {s : Input} {waiting : List Byte} (holds : Holds s waiting) (room : s.unread < 256)
    (code : Byte) : Holds (s.notifyKeyPress code) (waiting ++ [code]) := by
  rw [holds.unread] at room
  refine ⟨?_, by rw [List.length_append, List.length_singleton]; omega, fun i bound => ?_⟩
  · rw [Input.notifyKeyPress, List.length_append, List.length_singleton, BitVec.ofNat_add, ← BitVec.add_assoc, ← holds.count]
  · rw [List.length_append, List.length_singleton] at bound
    simp only [Input.notifyKeyPress]
    rw [holds.count]
    obtain before | last := Nat.lt_succ_iff_lt_or_eq.mp bound
    · rw [Function.update_of_ne (ring_ne before room), List.getElem?_append_left before]
      exact holds.entry i before
    · subst last
      rw [Function.update_self, List.getElem?_concat_length]

theorem Holds.next {s : Input} {code : Byte} {waiting : List Byte} (holds : Holds s (code :: waiting)) :
    s.keysBuffer (s.readPos.setWidth 8) = code ∧
      ∀ reading, Holds { s with readPos := s.readPos + 1#32, reading := reading } waiting := by
  have first := holds.entry 0 (Nat.zero_lt_succ _)
  rw [List.getElem?_cons_zero, BitVec.add_zero, Option.some.injEq] at first
  have shift (i : Nat) : s.readPos + BitVec.ofNat 32 (i + 1) = s.readPos + 1#32 + BitVec.ofNat 32 i := by
    rw [BitVec.ofNat_add, BitVec.add_comm (BitVec.ofNat 32 i), ← BitVec.add_assoc]
  refine ⟨first.symm, fun reading => ⟨?_, Nat.le_of_succ_le holds.fits, fun i bound => ?_⟩⟩
  · rw [← shift]
    exact holds.count
  · have entry := holds.entry (i + 1) (Nat.succ_lt_succ bound)
    rwa [List.getElem?_cons_succ, shift] at entry

/-- Nothing waits when the counters are equal. -/
theorem Holds.nil_not_lt {s : Input} (holds : Holds s []) : ¬s.readPos < s.kbPos := by
  have same := holds.count
  rw [List.length_nil, BitVec.add_zero] at same
  rw [same]
  exact BitVec.lt_irrefl _

/-! ## Runs -/

/-- The characters that the read under way has copied. -/
def copied (s : Input) : List Byte := (s.reading.map Prod.snd).getD []

/-- The characters that are not returned are what is copied, edited by what waits in the ring. -/
structure Consistent (events : List Event) (s : Input) (waiting : List Byte) : Prop where
  holds : Holds s waiting
  pending : pending pressLine events = waiting.foldl pressLine (copied s)
  open_ : newline ∉ copied s
  short : ∀ count buffer, s.reading = some (count, buffer) → buffer.length ≤ count

/-- What one turn of `Read` does with the character that comes next, when the buffer has room for it. -/
theorem readNext_cases {s next : Input} {returned : Option (List Byte)} {count : Nat} {held : List Byte}
    (under : s.reading = some (count, held)) (open_ : newline ∉ held) (short : held.length ≤ count) (met : ¬s.Overfull)
    (does : s.readNext = some (next, returned)) :
    s.readPos < s.kbPos ∧ ∃ code, code = s.keysBuffer (s.readPos.setWidth 8) ∧
      ((returned = none ∧ next = { s with readPos := s.readPos + 1#32, reading := some (count, pressLine held code) } ∧
          newline ∉ pressLine held code ∧ (pressLine held code).length ≤ count) ∨
        (code = newline ∧ returned = some (held ++ [newline]) ∧ (held ++ [newline]).length ≤ count ∧
          next = { s with readPos := s.readPos + 1#32, reading := none })) := by
  rw [Input.readNext, under] at does
  simp only at does
  split at does
  · rename_i waits
    refine ⟨waits, _, rfl, ?_⟩
    split at does
    · rename_i back
      cases does
      rw [back, pressLine_backspace open_, List.length_dropLast]
      exact .inl ⟨rfl, rfl, fun mem => open_ (List.dropLast_subset held mem), by omega⟩
    rename_i other
    split at does
    · rename_i full
      exact absurd ⟨count, held, under, full, other⟩ met
    rename_i room
    have length : (held ++ [s.keysBuffer (s.readPos.setWidth 8)]).length ≤ count := by
      rw [List.length_append, List.length_singleton]
      omega
    split at does
    · rename_i ends
      cases does
      rw [ends] at length ⊢
      exact .inr ⟨rfl, rfl, length, rfl⟩
    · rename_i stays
      cases does
      rw [pressLine_other other]
      refine .inl ⟨rfl, rfl, ?_, length⟩
      rw [List.mem_append, List.mem_singleton]
      rintro (earlier | same)
      · exact open_ earlier
      · exact stays same.symm
  · cases does

theorem Holds.readNext {s next : Input} {returned : Option (List Byte)} {count : Nat} {held waiting : List Byte}
    (holds : Holds s waiting) (under : s.reading = some (count, held)) (open_ : newline ∉ held) (short : held.length ≤ count)
    (met : ¬s.Overfull) (does : s.readNext = some (next, returned)) :
    ∃ code later, waiting = code :: later ∧ Holds next later ∧
      ((returned = none ∧ next = { s with readPos := s.readPos + 1#32, reading := some (count, pressLine held code) } ∧
          newline ∉ pressLine held code ∧ (pressLine held code).length ≤ count) ∨
        (code = newline ∧ returned = some (held ++ [newline]) ∧ (held ++ [newline]).length ≤ count ∧
          next = { s with readPos := s.readPos + 1#32, reading := none })) := by
  obtain ⟨waits, code, same, turn⟩ := readNext_cases under open_ short met does
  cases waiting with
  | nil => exact absurd waits holds.nil_not_lt
  | cons head later =>
    obtain ⟨found, rest⟩ := holds.next
    rw [found] at same
    subst same
    refine ⟨code, later, rfl, ?_, turn⟩
    obtain ⟨-, rfl, -⟩ | ⟨-, -, -, rfl⟩ := turn
    · exact rest _
    · exact rest _

variable {first s : Input} {events : List Event}

/-- The invariant of a run: what waits in the ring, and what is copied, are the characters that are
not returned; and every buffer so far was as expected. -/
theorem Run.consistent (start : first.kbPos = first.readPos) (idle : first.reading = none) (run : Run first events s) :
    (∃ waiting, Consistent events s waiting) ∧ Expected pressLine events := by
  induction run with
  | first =>
    refine ⟨⟨[], ⟨?_, by simp, fun i bound => absurd bound (Nat.not_lt_zero i)⟩, ?_, ?_, ?_⟩, trivial⟩
    · rw [start, List.length_nil, BitVec.add_zero]
    · rw [copied, idle]
      rfl
    · rw [copied, idle]
      exact List.not_mem_nil
    · rw [idle]
      exact fun _ _ same => nomatch same
  | @typed earlier s run room code ih =>
    obtain ⟨⟨waiting, holds, same, open_, short⟩, expected⟩ := ih
    refine ⟨⟨waiting ++ [code], holds.notifyKeyPress room code, ?_, open_, short⟩, expected⟩
    rw [List.foldl_append, List.foldl_cons, List.foldl_nil, pending, same]
    rfl
  | @called earlier s run none count positive ih =>
    obtain ⟨⟨waiting, holds, same, -, -⟩, expected⟩ := ih
    rw [copied, none] at same
    refine ⟨⟨waiting, ⟨holds.count, holds.fits, holds.entry⟩, same, List.not_mem_nil, ?_⟩, expected⟩
    rintro count buffer same
    cases same
    exact Nat.zero_le _
  | @reads earlier s next run met does ih =>
    obtain ⟨⟨waiting, holds, same, open_, short⟩, expected⟩ := ih
    cases under : s.reading with
    | none =>
      rw [Input.readNext, under] at does
      cases does
    | some read =>
      obtain ⟨count, held⟩ := read
      rw [copied, under] at same open_
      obtain ⟨code, later, rfl, holds, ⟨-, rfl, open_, short⟩ | ⟨-, returned, -⟩⟩ :=
        holds.readNext under open_ (short count held under) met does
      · refine ⟨⟨later, holds, same, open_, ?_⟩, expected⟩
        rintro count buffer same
        cases same
        exact short
      · cases returned
  | @returns earlier s next count held buffer run met under does ih =>
    obtain ⟨⟨waiting, holds, same, open_, short⟩, expected⟩ := ih
    rw [copied, under] at same open_
    obtain ⟨code, later, rfl, holds, ⟨none, -⟩ | ⟨rfl, returned, length, rfl⟩⟩ :=
      holds.readNext under open_ (short count held under) met does
    · cases none
    cases returned
    have split : pending pressLine earlier = held ++ [newline] ++ later.foldl pressLine [] := by
      rw [← foldl_pressLine_line, List.append_nil, same, List.foldl_cons]
      exact congrArg (later.foldl pressLine) (pressLine_other (by decide) held)
    refine ⟨⟨later, holds, ?_, List.not_mem_nil, fun _ _ same => nomatch same⟩, ?_, length, ?_, expected⟩
    · rw [pending, split, List.drop_left]
      rfl
    · rw [split]
      exact List.prefix_append _ _
    · rw [List.dropLast_concat]
      exact open_

/-- **Line input**: in every run that meets the condition the reads return, line by line, what was typed
and not erased; and no newline is erased unless a backspace was typed right behind one that no
read had returned. -/
theorem lines_returned (start : first.kbPos = first.readPos) (idle : first.reading = none) (run : Run first events s) :
    Expected pressLine events ∧ (Uncrossed events → Expected press events) := by
  have expected := (run.consistent start idle).2
  exact ⟨expected, fun uncrossed => expected.of_uncrossed uncrossed⟩

/-- An empty ring. -/
def fresh : Input := ⟨fun _ => 0#8, 0#32, 0#32, none⟩

/-- A letter and the end of its line, for a read of two characters. -/
theorem letter_returned : Expected press [.returned 2 [0x61#8, newline], .typed newline, .typed 0x61#8] := by
  have room {s : Input} {count : Nat} {held : List Byte} (under : s.reading = some (count, held)) (short : held.length ≠ count) :
      ¬s.Overfull := by
    rintro ⟨_, _, same, full, -⟩
    cases under.symm.trans same
    exact short full
  have typed : Run fresh [.typed newline, .typed 0x61#8] _ :=
    .typed (.typed (.called .first rfl (by decide : 1 ≤ 2)) (by decide) 0x61#8) (by decide) newline
  have letter : Run fresh [.typed newline, .typed 0x61#8] _ :=
    .reads typed (room (rfl : _ = some (2, [])) (by decide)) rfl
  have returned := Run.returns letter (room (rfl : _ = some (2, [0x61#8])) (by decide)) rfl rfl
  exact (lines_returned rfl rfl returned).2 ⟨fun same => absurd same (by decide), fun same => absurd same (by decide), trivial⟩

/-- Two letters and the end of their line, for a read of one character and another one: the second
letter ends the first read and is in neither buffer. -/
theorem letter_dropped :
    ((((((fresh.notifyKeyPress 0x61#8).notifyKeyPress 0x62#8).notifyKeyPress newline).call 1).readNext.bind
      fun (s, _) => s.readNext).map Prod.snd = some (some [0x61#8])) ∧
    ((((((fresh.notifyKeyPress 0x61#8).notifyKeyPress 0x62#8).notifyKeyPress newline).call 1).readNext.bind
      fun (s, _) => s.readNext).bind fun (s, _) => (s.call 1).readNext).map Prod.snd = some (some [newline]) ∧
    ¬Expected press [.returned 1 [newline], .returned 1 [0x61#8], .typed newline, .typed 0x62#8, .typed 0x61#8] ∧
    ¬Expected pressLine [.returned 1 [newline], .returned 1 [0x61#8], .typed newline, .typed 0x62#8, .typed 0x61#8] := by
  refine ⟨rfl, rfl, fun expected => absurd expected.1 (by decide), fun expected => absurd expected.1 (by decide)⟩

end FluxOS.Vt
