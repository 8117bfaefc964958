import FluxOS.DataStore
import FluxOS.PartialWalks

/-! `bsonKeyLookup` on the bytes of a mapped file: where the search reads no others, and comes to an
end. -/
namespace FluxOS.DataStore
open Words UserMemoryOps BlockDevice Ext2 PartialWalks

section Operations

variable (file : List Byte)

/-- A byte at an offset from the begin of the file. There is none outside. -/
def byteAt (offset : Word) : Option Byte := file[offset.toNat]?

/-- `readUInt32` inside the file. -/
def readIn (offset : Word) : Option Word := do
  let b0 ← byteAt file offset
  let b1 ← byteAt file (offset + 1#32)
  let b2 ← byteAt file (offset + 2#32)
  let b3 ← byteAt file (offset + 3#32)
  return joinSigned b0 b1 b2 b3

/-- `bsonCheckValidity`. -/
def bsonCheckValidity : Option Bool :=
  (readIn file 0#32).bind fun docLen =>
    if file.length < 4 + 1 + 2 + 1 then some false
    else if file.length < docLen.toNat then some false
    else (byteAt file 4#32).map fun type => decide (type = typeString)

/-- `strlen`, up to the last byte that there is. -/
def strlenIn : List Byte → Option Nat
  | [] => none
  | c :: later => if c = 0#8 then some 0 else (strlenIn later).map (· + 1)

/-- `strncmp` with a string in the file: whether it returns 0. -/
def strncmpIn (key : Block) : List Byte → Nat → Option Bool
  | _, 0 => some true
  | [], _ + 1 => none
  | c :: later, n + 1 =>
    if key 0 ≠ c then some false
    else if key 0 = 0#8 then some true
    else strncmpIn (fun i => key (i + 1)) later n

/-- What a round of the loop comes to: the answer, with the offset of the value, or the next offset. -/
inductive Round where
  | ends (answer : Option (Byte × Word))
  | goesOn (offset : Word)

variable (key : Block) (docLen : Word)

def round (offset : Word) : Option Round :=
  if offset + 1#32 < docLen then
    (byteAt file offset).bind fun elementType =>
      (strlenIn (file.drop (offset + 1#32).toNat)).bind fun keyLen =>
        (strncmpIn key (file.drop (offset + 1#32).toNat) (docLen - offset).toNat).bind fun alike =>
          let value := offset + (1#32 + BitVec.ofNat 32 keyLen + 1#32)
          if alike then some (.ends (some (elementType, value)))
          else if elementType = typeString then
            (readIn file value).map fun stringLen => .goesOn (value + (stringLen + 4#32))
          else some (.goesOn value)
  else some (.ends none)

def lookupLoop : Nat → Word → Option (Option (Byte × Word))
  | 0, _ => none
  | rounds + 1, offset =>
    (round file key docLen offset).bind fun
      | .ends answer => some answer
      | .goesOn next => lookupLoop rounds next

/-- `bsonKeyLookup`. -/
def lookupIn (rounds : Nat) : Option (Option (Byte × Word)) :=
  (readIn file 0#32).bind fun docLen => lookupLoop file key docLen rounds 4#32

/-- The search comes to an end and reads the file only. -/
def Safe : Prop := ∃ rounds answer, lookupIn file key rounds = some answer

/-! ## The condition -/

/-- Where the search goes on from an offset, if it does. -/
def next (offset : Word) : Option Word :=
  match round file key docLen offset with
  | some (.goesOn next) => some next
  | _ => none

/-- The element at an offset is in the file: its type, the zero behind its key, and, if it is a string and not the one
searched for, the four bytes of its length. -/
def ElementInside (offset : Word) : Prop :=
  offset + 1#32 < docLen → offset ≠ 0xFFFFFFFF#32 ∧ ∃ keyLen, strlenIn (file.drop (offset.toNat + 1)) = some keyLen ∧
    (file[offset.toNat]? = some typeString →
      strncmpIn key (file.drop (offset.toNat + 1)) (docLen - offset).toNat ≠ some true →
      offset.toNat + keyLen + 6 ≤ file.length)

end Operations

variable {file : List Byte} {key : Block} {docLen : Word}

theorem strlenIn_lt {s : List Byte} {keyLen : Nat} (found : strlenIn s = some keyLen) : keyLen < s.length := by
  induction s generalizing keyLen with
  | nil => cases found
  | cons c later ih =>
    rw [strlenIn] at found
    split at found
    · cases found
      exact Nat.succ_pos _
    · obtain ⟨k, further, rfl⟩ := Option.map_eq_some_iff.mp found
      exact Nat.succ_lt_succ (ih further)

/-- A comparison with a string that has an end reads no further. -/
theorem strncmpIn_of_strlenIn {s : List Byte} {keyLen : Nat} (found : strlenIn s = some keyLen) (key : Block) (n : Nat) :
    ∃ alike, strncmpIn key s n = some alike := by
  induction s generalizing keyLen key n with
  | nil => cases found
  | cons c later ih =>
    cases n with
    | zero => exact ⟨true, rfl⟩
    | succ n =>
      rw [strncmpIn]
      split
      · exact ⟨false, rfl⟩
      · rename_i same
        split
        · exact ⟨true, rfl⟩
        · rename_i more
          rw [strlenIn, if_neg (by rwa [not_not.mp same] at more)] at found
          obtain ⟨k, further, -⟩ := Option.map_eq_some_iff.mp found
          exact ih further _ n

theorem byteAt_isSome_iff (offset : Word) : (byteAt file offset).isSome ↔ offset.toNat < file.length := by
  simp [byteAt]

/-- Four bytes can be read just if the last one is in the file. -/
theorem readIn_isSome_iff (small : file.length < 2 ^ 32) (offset : Word) :
    (readIn file offset).isSome ↔ offset.toNat + 4 ≤ file.length := by
  have all : (readIn file offset).isSome ↔ (byteAt file offset).isSome ∧ (byteAt file (offset + 1#32)).isSome ∧
      (byteAt file (offset + 2#32)).isSome ∧ (byteAt file (offset + 3#32)).isSome := by
    rw [readIn]
    cases byteAt file offset <;> cases byteAt file (offset + 1#32) <;> cases byteAt file (offset + 2#32) <;>
      cases byteAt file (offset + 3#32) <;> simp
  have bound := offset.isLt
  rw [all]
  simp only [byteAt_isSome_iff, BitVec.toNat_add, BitVec.toNat_ofNat]
  omega

theorem toNat_succ {offset : Word} (last : offset ≠ 0xFFFFFFFF#32) : (offset + 1#32).toNat = offset.toNat + 1 := by
  have bound := offset.isLt
  have less : offset.toNat ≠ 2 ^ 32 - 1 := fun same => last (BitVec.eq_of_toNat_eq same)
  exact toNat_add_one (by omega)

theorem round_isSome_iff (small : file.length < 2 ^ 32) (size : docLen.toNat ≤ file.length) (offset : Word) :
    (round file key docLen offset).isSome ↔ ElementInside file key docLen offset := by
  rw [round, ElementInside]
  by_cases guard : offset + 1#32 < docLen
  · rw [if_pos guard, imp_iff_right guard]
    by_cases last : offset = 0xFFFFFFFF#32
    · -- the guard is passed at the end of the numbers too
      have outside : byteAt file offset = none := by
        rw [byteAt, last, List.getElem?_eq_none_iff, show (0xFFFFFFFF#32).toNat = 2 ^ 32 - 1 from rfl]
        omega
      rw [outside, Option.bind_none]
      simp [last]
    · have step := toNat_succ last
      have inside : offset.toNat + 1 < file.length := by
        rw [BitVec.lt_def, step] at guard
        omega
      have type : byteAt file offset = some file[offset.toNat] := List.getElem?_eq_getElem _
      rw [type, Option.bind_some, step, List.getElem?_eq_getElem (by omega), and_iff_right last]
      cases length : strlenIn (file.drop (offset.toNat + 1)) with
      | none => simp
      | some keyLen =>
        have shorter := strlenIn_lt length
        rw [List.length_drop] at shorter
        obtain ⟨alike, compared⟩ := strncmpIn_of_strlenIn length key (docLen - offset).toNat
        have value : (offset + (1#32 + BitVec.ofNat 32 keyLen + 1#32)).toNat = offset.toNat + keyLen + 2 := by
          simp only [BitVec.toNat_add, BitVec.toNat_ofNat]
          omega
        rw [Option.bind_some, compared, Option.bind_some]
        cases alike with
        | true => simp
        | false =>
          by_cases string : file[offset.toNat] = typeString
          · have read := readIn_isSome_iff small (offset + (1#32 + BitVec.ofNat 32 keyLen + 1#32))
            rw [value] at read
            simpa [string] using read
          · simp [string]
  · simp [guard]

/-! ## The way of the search -/

theorem lookupLoop_ends (rounds : Nat) {offset : Word} {answer : Option (Byte × Word)}
    (found : lookupLoop file key docLen rounds offset = some answer) :
    Ends (next file key docLen) offset ∧
      ∀ n here, place (next file key docLen) offset n = some here → (round file key docLen here).isSome := by
  induction rounds generalizing offset with
  | zero => cases found
  | succ rounds ih =>
    rw [lookupLoop] at found
    obtain ⟨here, step, found⟩ := Option.bind_eq_some_iff.mp found
    have first : (round file key docLen offset).isSome := by rw [step]; rfl
    cases here with
    | ends answer' =>
      have stops : next file key docLen offset = none := by rw [next, step]
      refine ⟨⟨1, by rw [place_succ, stops, Option.bind_none]⟩, fun n here reached => ?_⟩
      cases n with
      | zero =>
        cases reached
        exact first
      | succ n =>
        rw [place_succ, stops, Option.bind_none] at reached
        cases reached
    | goesOn further =>
      have goes : next file key docLen offset = some further := by rw [next, step]
      obtain ⟨⟨n, ended⟩, inside⟩ := ih found
      refine ⟨⟨n + 1, by rw [place_succ, goes, Option.bind_some, ended]⟩, fun n here reached => ?_⟩
      cases n with
      | zero =>
        cases reached
        exact first
      | succ n =>
        rw [place_succ, goes, Option.bind_some] at reached
        exact inside n here reached

theorem lookupLoop_of_ends (n : Nat) {offset : Word} (ended : place (next file key docLen) offset n = none)
    (inside : ∀ n here, place (next file key docLen) offset n = some here → (round file key docLen here).isSome) :
    ∃ rounds answer, lookupLoop file key docLen rounds offset = some answer := by
  induction n generalizing offset with
  | zero => cases ended
  | succ n ih =>
    obtain ⟨here, step⟩ := Option.isSome_iff_exists.mp (inside 0 offset rfl)
    cases here with
    | ends answer => exact ⟨1, answer, by rw [lookupLoop, step, Option.bind_some]⟩
    | goesOn further =>
      have goes : next file key docLen offset = some further := by rw [next, step]
      rw [place_succ, goes, Option.bind_some] at ended
      obtain ⟨rounds, answer, found⟩ := ih ended fun n here reached => inside (n + 1) here (by
        rw [place_succ, goes, Option.bind_some, reached])
      exact ⟨rounds + 1, answer, by rw [lookupLoop, step, Option.bind_some]; exact found⟩

theorem docLen_le_of_valid (valid : bsonCheckValidity file = some true) (length : readIn file 0#32 = some docLen) :
    docLen.toNat ≤ file.length := by
  rw [bsonCheckValidity, length, Option.bind_some] at valid
  split at valid
  · cases valid
  · split at valid
    · cases valid
    · omega

/-- The search in a file that was found valid is safe exactly if every element it comes to is in the file, and it comes to
none of them twice. -/
theorem search_safe_iff (small : file.length < 2 ^ 32) (valid : bsonCheckValidity file = some true)
    (length : readIn file 0#32 = some docLen) (key : Block) :
    Safe file key ↔ (∀ n offset, place (next file key docLen) 4#32 n = some offset → ElementInside file key docLen offset) ∧
      ¬ComesBack (next file key docLen) 4#32 := by
  have size := docLen_le_of_valid valid length
  have : Finite Word := Finite.of_injective BitVec.toFin fun _ _ => BitVec.eq_of_toFin_eq
  rw [← ends_iff]
  simp only [Safe, lookupIn, length, Option.bind_some, ← round_isSome_iff small size]
  constructor
  · rintro ⟨rounds, answer, found⟩
    obtain ⟨ended, inside⟩ := lookupLoop_ends rounds found
    exact ⟨inside, ended⟩
  · rintro ⟨inside, n, ended⟩
    exact lookupLoop_of_ends n ended inside

/-- A key of one letter. -/
def letterKey (c : Byte) : Block := fun i => if i = 0 then c else 0#8

/-- A document with the elements `a: "b"` and `b: "c"`. -/
def smallDocument : List Byte :=
  [23#8, 0#8, 0#8, 0#8, 2#8, 97#8, 0#8, 2#8, 0#8, 0#8, 0#8, 98#8, 0#8, 2#8, 98#8, 0#8, 2#8, 0#8, 0#8, 0#8, 99#8, 0#8, 0#8]

/-- The first element is skipped, and the second is the one. -/
theorem small_document_is_safe : Safe smallDocument (letterKey 98#8) := by
  have skipped : next smallDocument (letterKey 98#8) 23#32 4#32 = some 13#32 := rfl
  have found : next smallDocument (letterKey 98#8) 23#32 13#32 = none := rfl
  have ended (n : Nat) : place (next smallDocument (letterKey 98#8) 23#32) 4#32 (n + 2) = none := by
    rw [place_succ, skipped, Option.bind_some, place_succ, found, Option.bind_none]
  refine (search_safe_iff (by decide) rfl (show readIn smallDocument 0#32 = some 23#32 from rfl) _).mpr
    ⟨fun n offset reached => ?_, fun back => back.not_ends ⟨2, ended 0⟩⟩
  rcases n with _ | _ | n
  · cases reached
    exact fun _ => ⟨by decide, 1, rfl, fun _ _ => by decide⟩
  · cases skipped.symm.trans reached
    exact fun _ => ⟨by decide, 1, rfl, fun _ unlike => absurd rfl unlike⟩
  · rw [ended] at reached
    cases reached

/-- A valid file whose key has no end. -/
theorem endless_key_is_not_safe : bsonCheckValidity [8#8, 0#8, 0#8, 0#8, 2#8, 98#8, 98#8, 98#8] = some true ∧
    ¬Safe [8#8, 0#8, 0#8, 0#8, 2#8, 98#8, 98#8, 98#8] (letterKey 97#8) := by
  refine ⟨rfl, ?_⟩
  rintro ⟨rounds, answer, found⟩
  cases rounds with
  | zero => cases found
  | succ rounds => cases found

/-! ## The search in memory -/

section Memory

variable {mem : Memory} {document : Word}

theorem strlenIn_split {s : List Byte} {keyLen : Nat} (found : strlenIn s = some keyLen) :
    ∃ chars rest, s = chars ++ 0#8 :: rest ∧ (∀ c ∈ chars, c ≠ 0#8) ∧ chars.length = keyLen := by
  induction s generalizing keyLen with
  | nil => cases found
  | cons c later ih =>
    rw [strlenIn] at found
    split at found
    · rename_i zero
      cases found
      exact ⟨[], later, by rw [zero]; rfl, by simp, rfl⟩
    · rename_i proper
      obtain ⟨k, further, rfl⟩ := Option.map_eq_some_iff.mp found
      obtain ⟨chars, rest, rfl, others, length⟩ := ih further
      exact ⟨c :: chars, rest, rfl, by simpa using ⟨proper, others⟩, by rw [List.length_cons, length]⟩

theorem strncmpIn_eq {s : List Byte} {n : Nat} {alike : Bool} {other : Block} {key : Block}
    (same : ∀ i (inside : i < s.length), other i = s[i]) (found : strncmpIn key s n = some alike) :
    strncmp key other n = alike := by
  induction s generalizing n key other with
  | nil =>
    cases n with
    | zero => exact Option.some.inj found
    | succ n => cases found
  | cons c later ih =>
    cases n with
    | zero => exact Option.some.inj found
    | succ n =>
      have first : other 0 = c := same 0 (Nat.succ_pos _)
      rw [strncmpIn] at found
      rw [strncmp, first]
      split at found
      · rename_i differs
        rw [if_pos differs]
        exact Option.some.inj found
      · rename_i agrees
        rw [if_neg agrees]
        split at found
        · rename_i ends
          rw [if_pos ends]
          exact Option.some.inj found
        · rename_i more
          rw [if_neg more]
          exact ih (fun i inside => same (i + 1) (by simpa using inside)) found

theorem mem_of_byteAt (reads : Reads mem document file) {offset : Word} {b : Byte} (found : byteAt file offset = some b) :
    mem (document + offset) = b := by
  obtain ⟨inside, value⟩ := List.getElem?_eq_some_iff.mp found
  have here := reads offset.toNat inside
  rwa [BitVec.ofNat_toNat, BitVec.setWidth_eq, value] at here

theorem readUInt32_of_readIn (reads : Reads mem document file) {offset word : Word} (found : readIn file offset = some word) :
    readUInt32 mem (document + offset) = word := by
  obtain ⟨b0, first, found⟩ := Option.bind_eq_some_iff.mp found
  obtain ⟨b1, second, found⟩ := Option.bind_eq_some_iff.mp found
  obtain ⟨b2, third, found⟩ := Option.bind_eq_some_iff.mp found
  obtain ⟨b3, fourth, found⟩ := Option.bind_eq_some_iff.mp found
  cases found
  rw [readUInt32, BitVec.add_assoc, BitVec.add_assoc, BitVec.add_assoc, mem_of_byteAt reads first, mem_of_byteAt reads second,
    mem_of_byteAt reads third, mem_of_byteAt reads fourth]
  rfl

theorem reads_drop (reads : Reads mem document file) (offset : Word) :
    Reads mem (document + offset) (file.drop offset.toNat) := by
  intro i inside
  rw [List.length_drop] at inside
  have here := reads (offset.toNat + i) (by omega)
  rw [BitVec.ofNat_add, BitVec.ofNat_toNat, BitVec.setWidth_eq, ← BitVec.add_assoc] at here
  rw [here, List.getElem_drop]

/-- A round in the file is a round in a memory that has it. -/
theorem lookupFrom_of_round (reads : Reads mem document file) (small : file.length < 2 ^ 32)
    (length : readIn file 0#32 = some docLen) (rounds : Nat) {offset : Word} {here : Round}
    (step : round file key docLen offset = some here) :
    lookupFrom mem key document (rounds + 1) offset =
      match here with
      | .ends answer => some (answer.map fun (type, value) => (type, document + value))
      | .goesOn next => lookupFrom mem key document rounds next := by
  have size := readUInt32_of_readIn reads length
  rw [BitVec.add_zero] at size
  rw [lookupFrom]
  simp only [size]
  rw [round] at step
  split at step
  · rename_i inside
    rw [if_pos inside]
    obtain ⟨elementType, type, step⟩ := Option.bind_eq_some_iff.mp step
    obtain ⟨keyLen, key_length, step⟩ := Option.bind_eq_some_iff.mp step
    obtain ⟨alike, compared, step⟩ := Option.bind_eq_some_iff.mp step
    have stands := reads_drop reads (offset + 1#32)
    rw [← BitVec.add_assoc] at stands
    have measured : strlen mem (document + offset + 1#32) = some keyLen := by
      obtain ⟨chars, rest, split, proper, count⟩ := strlenIn_split key_length
      have shorter := strlenIn_lt key_length
      rw [List.length_drop] at shorter
      rw [split, List.append_cons, reads_append] at stands
      rw [← count]
      exact strlenFrom_eq stands.1 proper (by omega)
    have same : strncmp key (bytesAt mem (document + offset + 1#32)) (docLen - offset).toNat = alike :=
      strncmpIn_eq stands compared
    have kind := mem_of_byteAt reads type
    rw [measured]
    dsimp only
    cases alike with
    | true =>
      cases step
      rw [if_pos same, kind]
      simp only [Option.map_some, BitVec.add_assoc]
    | false =>
      rw [if_neg (by rw [same]; decide), nextOffset, kind]
      rw [if_neg (by decide)] at step
      split at step
      · rename_i string
        obtain ⟨stringLen, read, rfl⟩ := Option.map_eq_some_iff.mp step
        rw [if_pos string, readUInt32_of_readIn reads read]
      · rename_i other
        cases step
        rw [if_neg other]
  · rename_i outside
    cases step
    rw [if_neg outside]
    rfl

/-- What is found in the file is found in the memory. -/
theorem lookupFrom_of_lookupLoop (reads : Reads mem document file) (small : file.length < 2 ^ 32)
    (length : readIn file 0#32 = some docLen) (rounds : Nat) {offset : Word} {answer : Option (Byte × Word)}
    (found : lookupLoop file key docLen rounds offset = some answer) :
    lookupFrom mem key document rounds offset = some (answer.map fun (type, value) => (type, document + value)) := by
  induction rounds generalizing offset with
  | zero => cases found
  | succ rounds ih =>
    obtain ⟨here, step, found⟩ := Option.bind_eq_some_iff.mp found
    rw [lookupFrom_of_round reads small length rounds step]
    cases here with
    | ends answer =>
      cases found
      rfl
    | goesOn next => exact ih found

/-- The same for the whole search. -/
theorem bsonKeyLookup_of_lookupIn (reads : Reads mem document file) (small : file.length < 2 ^ 32) {rounds : Nat}
    {answer : Option (Byte × Word)} (found : lookupIn file key rounds = some answer) :
    bsonKeyLookup rounds mem key document = some (answer.map fun (type, value) => (type, document + value)) := by
  obtain ⟨docLen, length, found⟩ := Option.bind_eq_some_iff.mp found
  exact lookupFrom_of_lookupLoop reads small length rounds found

end Memory

end FluxOS.DataStore
