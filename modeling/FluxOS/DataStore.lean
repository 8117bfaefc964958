import FluxOS.DirectoryEntries
import FluxOS.UserStrings

/-! The data store: finding a key in a BSON document, and reading the value there.
Lengths are put together from signed bytes, and the value of an integer is not
skipped, so the search can leave the elements and go on somewhere else. -/
namespace FluxOS.DataStore
open Words UserMemoryOps BlockDevice Ext2

def typeString : Byte := 0x02#8
def typeInt32 : Byte := 0x10#8

/-- `readUInt32`, where a `char` is signed. -/
def readUInt32 (mem : Memory) (u : Word) : Word :=
  (mem u).signExtend 32 ||| (mem (u + 1#32)).signExtend 32 <<< 8 ||| (mem (u + 2#32)).signExtend 32 <<< 16 |||
    (mem (u + 3#32)).signExtend 32 <<< 24

/-- The bytes of the string at an address, as `strncmp` reads them. -/
def bytesAt (mem : Memory) (s : Word) : Block := fun i => mem (s + BitVec.ofNat 32 i)

/-- Where the search goes on behind the element at `offset`, whose key has `keyLen` bytes. -/
def nextOffset (mem : Memory) (document offset : Word) (keyLen : Nat) : Word :=
  let value := offset + (1#32 + BitVec.ofNat 32 keyLen + 1#32)
  if mem (document + offset) = typeString then value + (readUInt32 mem (document + value) + 4#32) else value

/-- The loop of `bsonKeyLookup`. There is no result while the rounds do not suffice, or
when a string has no end. -/
def lookupFrom (mem : Memory) (key : Block) (document : Word) : Nat → Word → Option (Option (Byte × Word))
  | 0, _ => none
  | rounds + 1, offset =>
    let docLen := readUInt32 mem document
    if offset + 1#32 < docLen then
      match strlen mem (document + offset + 1#32) with
      | none => none
      | some keyLen =>
        if strncmp key (bytesAt mem (document + offset + 1#32)) (docLen - offset).toNat then
          some (some (mem (document + offset), document + offset + 1#32 + BitVec.ofNat 32 keyLen + 1#32))
        else lookupFrom mem key document rounds (nextOffset mem document offset keyLen)
    else some none

/-- `bsonKeyLookup`: the type and the address of the value. -/
def bsonKeyLookup (rounds : Nat) (mem : Memory) (key : Block) (document : Word) : Option (Option (Byte × Word)) :=
  lookupFrom mem key document rounds 4#32

def bsonValueToString (valuePtr : Word) : Word := valuePtr + 4#32

def bsonValueToInt32 (mem : Memory) (valuePtr : Word) : Word := readUInt32 mem valuePtr

/-- `StoredObject::value` for strings. -/
def valueString (rounds : Nat) (mem : Memory) (key : Block) (document defaultString : Word) : Option Word :=
  (bsonKeyLookup rounds mem key document).map fun
    | some (type, valuePtr) =>
      if valuePtr ≠ 0#32 ∧ type = typeString then bsonValueToString valuePtr else defaultString
    | none => defaultString

/-- `StoredObject::value` for integers. -/
def valueInt (rounds : Nat) (mem : Memory) (key : Block) (document defaultValue : Word) : Option Word :=
  (bsonKeyLookup rounds mem key document).map fun
    | some (type, valuePtr) =>
      if valuePtr ≠ 0#32 ∧ type = typeInt32 then bsonValueToInt32 mem valuePtr else defaultValue
    | none => defaultValue

/-! ## Documents -/

/-- An element of a document, with its key. -/
inductive Element where
  | string (key text : List Byte)
  | int32 (key : List Byte) (value : Word)
  deriving DecidableEq, Repr

namespace Element

def key : Element → List Byte
  | string key _ => key
  | int32 key _ => key

def type : Element → Byte
  | string _ _ => typeString
  | int32 _ _ => typeInt32

/-- A string is stored with its length, which counts the zero that ends it. -/
def value : Element → List Byte
  | string _ text => wordBytes (BitVec.ofNat 32 (text.length + 1)) ++ (text ++ [0#8])
  | int32 _ value => wordBytes value

def encode (e : Element) : List Byte := [e.type] ++ ((e.key ++ [0#8]) ++ e.value)

theorem length_encode (e : Element) : e.encode.length = 1 + (e.key.length + 1) + e.value.length := by
  simp only [encode, List.length_append, List.length_singleton]
  omega

end Element

def encodeAll (elements : List Element) : List Byte := elements.flatMap Element.encode

def documentSize (elements : List Element) : Nat := (encodeAll elements).length + 5

/-- The bytes of a document. -/
def documentBytes (elements : List Element) : List Byte :=
  wordBytes (BitVec.ofNat 32 (documentSize elements)) ++ (encodeAll elements ++ [0#8])

/-- A well-formed document lies in memory. -/
structure Stored (mem : Memory) (document : Word) (elements : List Element) : Prop where
  reads : Reads mem document (documentBytes elements)
  fits : document.toNat + documentSize elements ≤ 2 ^ 32
  size : documentSize elements < 2 ^ 31
  strings : ∀ e ∈ elements, 0#8 ∉ e.key
  distinct : (elements.map Element.key).Nodup

/-- Where an element stands, by the elements before it. -/
def offsetBehind (before : List Element) : Nat := 4 + (encodeAll before).length

/-- The address of the value of `e`. -/
def valueAddress (document : Word) (before : List Element) (e : Element) : Word :=
  document + BitVec.ofNat 32 (offsetBehind before + 1 + e.key.length + 1)

/-- What `StoredObject::value` gives for the element is what is stored. -/
def ReadsBack (rounds : Nat) (mem : Memory) (key : Block) (document : Word) : Element → Prop
  | .string _ text => ∃ s, Reads mem s (text ++ [0#8]) ∧
      ∀ default, valueString rounds mem key document default = some s
  | .int32 _ value => ∀ default, valueInt rounds mem key document default = some value

/-- The search gives the type of the element with the key and the address of its
value, and null where there is none; the value read there is the one stored. -/
structure LooksUpRightly (mem : Memory) (document : Word) (elements : List Element) (key : Block) (name : List Byte) :
    Prop where
  found : ∀ before e after, elements = before ++ e :: after → e.key = name →
    ∃ rounds, bsonKeyLookup rounds mem key document = some (some (e.type, valueAddress document before e)) ∧
      ReadsBack rounds mem key document e
  absent : (∀ e ∈ elements, e.key ≠ name) → ∃ rounds, bsonKeyLookup rounds mem key document = some none

/-! ## The way of the search -/

/-- The key is taken for the one at `offset`. -/
def MatchesAt (mem : Memory) (key : Block) (document offset : Word) : Prop :=
  strncmp key (bytesAt mem (document + offset + 1#32)) (readUInt32 mem document - offset).toNat = true

/-- The search comes to `offset` without having found the key: it begins at 4, and
goes on behind the key of what it takes for an element, and behind as many bytes as
the signed bytes there say, if its type is that of a string. -/
inductive Scans (mem : Memory) (key : Block) (document : Word) : Word → Prop where
  | start : Scans mem key document 4#32
  | next {offset : Word} {keyLen : Nat} (earlier : Scans mem key document offset)
      (inside : offset + 1#32 < readUInt32 mem document) (unlike : ¬ MatchesAt mem key document offset)
      (length : strlen mem (document + offset + 1#32) = some keyLen) :
      Scans mem key document (nextOffset mem document offset keyLen)

/-- The number is the same whether its bytes are signed or not. -/
def SignsAgree (word : Word) : Prop :=
  let b0 : Byte := word.extractLsb' 0 8
  let b1 : Byte := word.extractLsb' 8 8
  let b2 : Byte := word.extractLsb' 16 8
  let b3 : Byte := word.extractLsb' 24 8
  (b0.msb → b1 = 255#8 ∧ b2 = 255#8 ∧ b3 = 255#8) ∧ (b1.msb → b2 = 255#8 ∧ b3 = 255#8) ∧ (b2.msb → b3 = 255#8)

instance (word : Word) : Decidable (SignsAgree word) := inferInstanceAs (Decidable (_ ∧ _))

/-- The search comes to the element with the key, whose number reads the same from
signed bytes, and to the end where there is no such element. -/
structure FindsItsWay (mem : Memory) (document : Word) (elements : List Element) (key : Block) (name : List Byte) :
    Prop where
  found : ∀ before e after, elements = before ++ e :: after → e.key = name →
    Scans mem key document (BitVec.ofNat 32 (offsetBehind before)) ∧
      ∀ number value, e = .int32 number value → SignsAgree value
  absent : (∀ e ∈ elements, e.key ≠ name) →
    ∃ offset, Scans mem key document offset ∧ ¬ offset + 1#32 < readUInt32 mem document

/-! ## Signed bytes -/

/-- A number from four bytes, each with its sign. -/
def joinSigned (b0 b1 b2 b3 : Byte) : Word :=
  b0.signExtend 32 ||| b1.signExtend 32 <<< 8 ||| b2.signExtend 32 <<< 16 ||| b3.signExtend 32 <<< 24

theorem getLsbD_joinSigned (b0 b1 b2 b3 : Byte) {i : Nat} (bound : i < 32) :
    (joinSigned b0 b1 b2 b3).getLsbD i =
      if i < 8 then b0.getLsbD i
      else if i < 16 then b0.msb || b1.getLsbD (i - 8)
      else if i < 24 then b0.msb || b1.msb || b2.getLsbD (i - 16)
      else b0.msb || b1.msb || b2.msb || b3.getLsbD (i - 24) := by
  simp only [joinSigned, BitVec.getLsbD_or, BitVec.getLsbD_shiftLeft, BitVec.getLsbD_signExtend]
  grind

theorem getLsbD_join (b0 b1 b2 b3 : Byte) (i : Nat) :
    (b3 ++ b2 ++ b1 ++ b0 : Word).getLsbD i =
      if i < 8 then b0.getLsbD i
      else if i < 16 then b1.getLsbD (i - 8)
      else if i < 24 then b2.getLsbD (i - 16)
      else b3.getLsbD (i - 24) := by
  simp only [BitVec.getLsbD_append]
  grind

/-- Signs only add bits. -/
theorem joinSigned_eq_or (b0 b1 b2 b3 : Byte) :
    joinSigned b0 b1 b2 b3 = (b3 ++ b2 ++ b1 ++ b0 : Word) ||| joinSigned b0 b1 b2 b3 := by
  apply BitVec.eq_of_getLsbD_eq
  intro i bound
  rw [BitVec.getLsbD_or, getLsbD_join, getLsbD_joinSigned b0 b1 b2 b3 bound]
  grind

theorem eq_ones {b : Byte} (ones : ∀ k < 8, b.getLsbD k = true) : b = 255#8 := by
  apply BitVec.eq_of_getLsbD_eq
  intro k bound
  rw [ones k bound]
  have all : ∀ k < 8, true = (255#8).getLsbD k := by decide
  exact all k bound

theorem joinSigned_eq_iff (b0 b1 b2 b3 : Byte) :
    joinSigned b0 b1 b2 b3 = (b3 ++ b2 ++ b1 ++ b0 : Word) ↔
      (b0.msb → b1 = 255#8 ∧ b2 = 255#8 ∧ b3 = 255#8) ∧ (b1.msb → b2 = 255#8 ∧ b3 = 255#8) ∧
        (b2.msb → b3 = 255#8) := by
  constructor
  · intro same
    have bit : ∀ i < 32, (joinSigned b0 b1 b2 b3).getLsbD i = (b3 ++ b2 ++ b1 ++ b0 : Word).getLsbD i :=
      fun i _ => by rw [same]
    have second : ∀ k < 8, b0.msb = true → b1.getLsbD k = true := by
      intro k bound sign
      have at_k := bit (8 + k) (by omega)
      rw [getLsbD_join, getLsbD_joinSigned b0 b1 b2 b3 (by omega)] at at_k
      grind
    have third : ∀ k < 8, (b0.msb = true ∨ b1.msb = true) → b2.getLsbD k = true := by
      intro k bound sign
      have at_k := bit (16 + k) (by omega)
      rw [getLsbD_join, getLsbD_joinSigned b0 b1 b2 b3 (by omega)] at at_k
      grind
    have fourth : ∀ k < 8, (b0.msb = true ∨ b1.msb = true ∨ b2.msb = true) → b3.getLsbD k = true := by
      intro k bound sign
      have at_k := bit (24 + k) (by omega)
      rw [getLsbD_join, getLsbD_joinSigned b0 b1 b2 b3 (by omega)] at at_k
      grind
    refine ⟨fun sign => ⟨?_, ?_, ?_⟩, fun sign => ⟨?_, ?_⟩, fun sign => ?_⟩
    · exact eq_ones fun k bound => second k bound sign
    · exact eq_ones fun k bound => third k bound (.inl sign)
    · exact eq_ones fun k bound => fourth k bound (.inl sign)
    · exact eq_ones fun k bound => third k bound (.inr sign)
    · exact eq_ones fun k bound => fourth k bound (.inr (.inl sign))
    · exact eq_ones fun k bound => fourth k bound (.inr (.inr sign))
  · rintro ⟨first, second, third⟩
    have ones : ∀ k < 8, (255#8).getLsbD k = true := by decide
    apply BitVec.eq_of_getLsbD_eq
    intro i bound
    rw [getLsbD_join, getLsbD_joinSigned b0 b1 b2 b3 bound]
    cases sign0 : b0.msb
    · cases sign1 : b1.msb
      · cases sign2 : b2.msb
        · simp
        · rw [third sign2]
          grind
      · obtain ⟨same2, same3⟩ := second sign1
        rw [same2, same3]
        grind
    · obtain ⟨same1, same2, same3⟩ := first sign0
      rw [same1, same2, same3]
      grind

theorem readUInt32_le (mem : Memory) (u : Word) : (word32 mem u).toNat ≤ (readUInt32 mem u).toNat := by
  have more : readUInt32 mem u = word32 mem u ||| readUInt32 mem u := joinSigned_eq_or ..
  rw [more, BitVec.toNat_or]
  exact Nat.left_le_or

/-- A stored number is read rightly just if its bytes agree in their signs. -/
theorem readUInt32_eq_iff {mem : Memory} {u word : Word} (reads : Reads mem u (wordBytes word)) :
    readUInt32 mem u = word ↔ SignsAgree word := by
  have value := word32_of_reads reads
  obtain ⟨first, second, third, fourth⟩ := bytes_of_reads reads
  have signed := joinSigned_eq_iff (mem u) (mem (u + 1#32)) (mem (u + 2#32)) (mem (u + 3#32))
  rw [SignsAgree, ← first, ← second, ← third, ← fourth, ← signed]
  nth_rewrite 1 [← value]
  exact Iff.rfl

/-! ## Comparing keys -/

theorem string_head {key : Block} {c : Byte} {rest : List Byte} (string : CString key (c :: rest)) :
    key 0 = c ∧ c ≠ 0#8 :=
  ⟨string.bytes 0 (Nat.succ_pos _), fun zero => string.text (zero ▸ List.mem_cons_self)⟩

theorem string_tail {key : Block} {c : Byte} {rest : List Byte} (string : CString key (c :: rest)) :
    CString (fun i => key (i + 1)) rest :=
  ⟨fun i inside => string.bytes (i + 1) (by simpa using inside), string.ends,
    fun member => string.text (List.mem_cons_of_mem _ member)⟩

/-- A comparison that reaches the end of one of the strings tells whether they are the
same. -/
theorem strncmp_eq_iff {n : Nat} : ∀ {key other : Block} {name text : List Byte}, CString key name →
    CString other text → name.length < n ∨ text.length < n → (strncmp key other n = true ↔ name = text) := by
  induction n with
  | zero => exact fun _ _ enough => absurd enough (by omega)
  | succ n ih =>
    intro key other name text first second enough
    rw [strncmp]
    cases name with
    | nil =>
      have ends : key 0 = 0#8 := first.ends
      cases text with
      | nil =>
        have ends' : other 0 = 0#8 := second.ends
        simp [ends, ends']
      | cons d more =>
        have apart : key 0 ≠ other 0 := by
          rw [ends, (string_head second).1]
          exact Ne.symm (string_head second).2
        simp [apart]
    | cons c rest =>
      obtain ⟨start, proper⟩ := string_head first
      cases text with
      | nil =>
        have apart : key 0 ≠ other 0 := by
          rw [start, show other 0 = 0#8 from second.ends]
          exact proper
        simp [apart]
      | cons d more =>
        have goesOn : key 0 ≠ 0#8 := by rwa [start]
        by_cases same : c = d
        · have heads : key 0 = other 0 := by rw [start, (string_head second).1, same]
          rw [if_neg (not_not.mpr heads), if_neg goesOn,
            ih (string_tail first) (string_tail second) (by simpa using enough), same, List.cons_inj_right]
        · have heads : key 0 ≠ other 0 := by
            rw [start, (string_head second).1]
            exact same
          rw [if_pos heads, List.cons.injEq]
          simp [same]

/-- The string that `strlen` measures. -/
theorem string_of_strlen {mem : Memory} {s : Word} {len : Nat} (found : strlen mem s = some len) :
    CString (bytesAt mem s) ((List.range len).map (bytesAt mem s)) := by
  obtain ⟨proper, ends, -⟩ := strlen_spec found
  refine ⟨fun i inside => ?_, ?_, fun member => ?_⟩
  · rw [List.getElem_map, List.getElem_range]
  · rw [List.length_map, List.length_range]
    exact ends
  · obtain ⟨i, inside, zero⟩ := List.mem_map.mp member
    exact proper i (List.mem_range.mp inside) zero

/-! ## The loop -/

section
variable {mem : Memory} {key : Block} {document : Word}

/-- What the loop does at an offset that the search comes to is what the search does. -/
theorem Scans.lookup {offset : Word} (scans : Scans mem key document offset) :
    ∃ before, ∀ rounds, bsonKeyLookup (before + rounds) mem key document =
      lookupFrom mem key document rounds offset := by
  induction scans with
  | start => exact ⟨0, fun rounds => by rw [Nat.zero_add, bsonKeyLookup]⟩
  | @next offset keyLen earlier inside unlike length ih =>
    obtain ⟨before, same⟩ := ih
    refine ⟨before + 1, fun rounds => ?_⟩
    rw [Nat.add_assoc, Nat.add_comm 1, same, lookupFrom]
    simp only [if_pos inside, length]
    exact if_neg unlike

/-- Where the search stands when it has its answer. -/
inductive Stops (mem : Memory) (key : Block) (document offset : Word) : Option (Byte × Word) → Prop where
  | atEnd (outside : ¬ offset + 1#32 < readUInt32 mem document) : Stops mem key document offset none
  | atKey {keyLen : Nat} (inside : offset + 1#32 < readUInt32 mem document)
      (alike : MatchesAt mem key document offset)
      (length : strlen mem (document + offset + 1#32) = some keyLen) :
      Stops mem key document offset
        (some (mem (document + offset), document + offset + 1#32 + BitVec.ofNat 32 keyLen + 1#32))

theorem Scans.lookupFrom_stops {rounds : Nat} : ∀ {offset : Word} {answer : Option (Byte × Word)},
    Scans mem key document offset → lookupFrom mem key document rounds offset = some answer →
    ∃ last, Scans mem key document last ∧ Stops mem key document last answer := by
  induction rounds with
  | zero => exact fun _ none => by cases none
  | succ rounds ih =>
    intro offset answer scans found
    rw [lookupFrom] at found
    by_cases inside : offset + 1#32 < readUInt32 mem document
    · simp only [if_pos inside] at found
      cases length : strlen mem (document + offset + 1#32) with
      | none =>
        rw [length] at found
        cases found
      | some keyLen =>
        rw [length] at found
        by_cases alike : MatchesAt mem key document offset
        · have answered := (if_pos alike).symm.trans found
          cases answered
          exact ⟨offset, scans, .atKey inside alike length⟩
        · exact ih (scans.next inside alike length) ((if_neg alike).symm.trans found)
    · simp only [if_neg inside] at found
      cases found
      exact ⟨offset, scans, .atEnd inside⟩

theorem lookup_stops {rounds : Nat} {answer : Option (Byte × Word)}
    (found : bsonKeyLookup rounds mem key document = some answer) :
    ∃ last, Scans mem key document last ∧ Stops mem key document last answer :=
  Scans.lookupFrom_stops .start found

/-- A search that stops has its answer. -/
theorem Stops.lookup {offset : Word} {answer : Option (Byte × Word)} (scans : Scans mem key document offset)
    (stops : Stops mem key document offset answer) :
    ∃ rounds, bsonKeyLookup rounds mem key document = some answer := by
  obtain ⟨before, same⟩ := scans.lookup
  refine ⟨before + 1, ?_⟩
  rw [same, lookupFrom]
  cases stops with
  | atEnd outside => simp only [if_neg outside]
  | atKey inside alike length =>
    simp only [if_pos inside, length]
    exact if_pos alike

theorem lookupFrom_more {answer : Option (Byte × Word)} (more : Nat) {rounds : Nat} : ∀ {offset : Word},
    lookupFrom mem key document rounds offset = some answer →
    lookupFrom mem key document (rounds + more) offset = some answer := by
  induction rounds with
  | zero => exact fun none => by cases none
  | succ rounds ih =>
    intro offset found
    rw [Nat.add_right_comm, lookupFrom]
    rw [lookupFrom] at found
    by_cases inside : offset + 1#32 < readUInt32 mem document
    · simp only [if_pos inside] at found ⊢
      cases length : strlen mem (document + offset + 1#32) with
      | none =>
        rw [length] at found
        cases found
      | some keyLen =>
        rw [length] at found
        by_cases alike : MatchesAt mem key document offset
        · exact (if_pos alike).trans ((if_pos alike).symm.trans found)
        · exact (if_neg alike).trans (ih ((if_neg alike).symm.trans found))
    · simp only [if_neg inside] at found ⊢
      exact found

/-- The answer does not depend on how many rounds are allowed. -/
theorem lookup_unique {rounds others : Nat} {answer another : Option (Byte × Word)}
    (found : bsonKeyLookup rounds mem key document = some answer)
    (foundToo : bsonKeyLookup others mem key document = some another) : answer = another := by
  have one := lookupFrom_more others found
  have two := lookupFrom_more rounds foundToo
  rw [Nat.add_comm] at two
  exact Option.some.inj (one.symm.trans two)

end

/-! ## The elements in memory -/

section
variable {mem : Memory} {document : Word} {elements before after : List Element} {e : Element}

theorem encodeAll_append (first second : List Element) :
    encodeAll (first ++ second) = encodeAll first ++ encodeAll second := List.flatMap_append

theorem encodeAll_cons (e : Element) (rest : List Element) : encodeAll (e :: rest) = e.encode ++ encodeAll rest :=
  List.flatMap_cons ..

/-- Behind one more element. -/
theorem offsetBehind_concat (before : List Element) (e : Element) :
    offsetBehind (before ++ [e]) = offsetBehind before + (1 + (e.key.length + 1) + e.value.length) := by
  rw [offsetBehind, offsetBehind, encodeAll_append, encodeAll_cons, List.length_append, List.length_append,
    Element.length_encode, show encodeAll [] = [] from rfl, List.length_nil]
  omega

/-- The number of bytes that the loop takes the document to have: not less than it has. -/
theorem Stored.docLen (stored : Stored mem document elements) :
    documentSize elements ≤ (readUInt32 mem document).toNat := by
  have size := stored.size
  have reads : Reads mem document (wordBytes (BitVec.ofNat 32 (documentSize elements))) :=
    (reads_append.mp stored.reads).1
  have more := readUInt32_le mem document
  rw [word32_of_reads reads, BitVec.toNat_ofNat] at more
  omega

theorem Stored.element (stored : Stored mem document elements) (split : elements = before ++ e :: after) :
    Reads mem (document + BitVec.ofNat 32 (offsetBehind before)) e.encode := by
  have bytes : documentBytes elements = (wordBytes (BitVec.ofNat 32 (documentSize elements)) ++ encodeAll before) ++
      (e.encode ++ (encodeAll after ++ [0#8])) := by
    rw [documentBytes]
    nth_rewrite 2 [split]
    rw [encodeAll_append, encodeAll_cons]
    simp only [List.append_assoc]
  have reads := stored.reads
  rw [bytes] at reads
  have behind := (reads_append.mp (reads_append.mp reads).2).1
  rwa [List.length_append, length_wordBytes] at behind

/-- The element ends before the document does, and the loop counts no less than
the document has. -/
theorem Stored.bounds (stored : Stored mem document elements) (split : elements = before ++ e :: after) :
    offsetBehind before + (1 + (e.key.length + 1) + e.value.length) < documentSize elements ∧
      documentSize elements < 2 ^ 31 ∧ documentSize elements ≤ (readUInt32 mem document).toNat := by
  refine ⟨?_, stored.size, stored.docLen⟩
  rw [documentSize, offsetBehind, split, encodeAll_append, encodeAll_cons, List.length_append, List.length_append,
    Element.length_encode]
  omega

/-- The parts of an element. -/
theorem Stored.parts (stored : Stored mem document elements) (split : elements = before ++ e :: after) :
    mem (document + BitVec.ofNat 32 (offsetBehind before)) = e.type ∧
      Reads mem (document + BitVec.ofNat 32 (offsetBehind before) + 1#32) (e.key ++ [0#8]) ∧
      Reads mem (valueAddress document before e) e.value := by
  have reads := reads_append.mp (stored.element split)
  have rest := reads_append.mp reads.2
  refine ⟨?_, rest.1, ?_⟩
  · have first := reads.1 0 (by simp)
    rwa [BitVec.add_zero] at first
  · have place : document + BitVec.ofNat 32 (offsetBehind before) + BitVec.ofNat 32 [e.type].length +
        BitVec.ofNat 32 (e.key ++ [0#8]).length = valueAddress document before e := by
      rw [valueAddress, List.length_singleton, List.length_append, List.length_singleton]
      simp only [BitVec.ofNat_add, BitVec.add_assoc]
    exact place ▸ rest.2

theorem Stored.proper (stored : Stored mem document elements) (split : elements = before ++ e :: after) :
    ∀ c ∈ e.key, c ≠ 0#8 := by
  intro c member zero
  exact stored.strings e (split ▸ by simp) (zero ▸ member)

theorem Stored.strlen (stored : Stored mem document elements) (split : elements = before ++ e :: after) :
    strlen mem (document + BitVec.ofNat 32 (offsetBehind before) + 1#32) = some e.key.length := by
  obtain ⟨inside, size, -⟩ := stored.bounds split
  exact strlenFrom_eq (stored.parts split).2.1 (stored.proper split) (by omega)

/-- Some byte before an element that is not the first is zero. -/
theorem Stored.zero_before (stored : Stored mem document elements) (split : elements = before ++ e :: after)
    (some : before ≠ []) : ∃ z, z < offsetBehind before ∧ mem (document + BitVec.ofNat 32 z) = 0#8 := by
  obtain ⟨earlier, last, same⟩ : ∃ earlier last, before = earlier ++ [last] :=
    ⟨_, _, (List.dropLast_append_getLast some).symm⟩
  have splits : elements = earlier ++ last :: (e :: after) := by
    rw [split, same, List.append_assoc]
    rfl
  have keyEnd := (stored.parts splits).2.1 last.key.length (by simp)
  rw [List.getElem_concat_length rfl] at keyEnd
  refine ⟨offsetBehind earlier + 1 + last.key.length, ?_, ?_⟩
  · rw [same, offsetBehind_concat]
    omega
  · rw [← keyEnd]
    simp only [BitVec.ofNat_add, BitVec.add_assoc]

variable {key : Block} {name : List Byte}

theorem Stored.string (stored : Stored mem document elements) (split : elements = before ++ e :: after) :
    CString (bytesAt mem (document + BitVec.ofNat 32 (offsetBehind before) + 1#32)) e.key := by
  obtain ⟨-, keyBytes, -⟩ := stored.parts split
  refine ⟨fun i inside => ?_, ?_, stored.strings e (split ▸ by simp)⟩
  · rw [bytesAt, keyBytes i (by rw [List.length_append]; omega), List.getElem_append_left inside]
  · rw [bytesAt, keyBytes e.key.length (by simp), List.getElem_concat_length rfl]

/-- The bytes of the document from an offset on, as the loop counts them. -/
theorem Stored.room (stored : Stored mem document elements) {offset : Word}
    (low : offset.toNat ≤ documentSize elements) :
    (readUInt32 mem document - offset).toNat = (readUInt32 mem document).toNat - offset.toNat := by
  have docLen := stored.docLen
  have upper := (readUInt32 mem document).isLt
  rw [BitVec.toNat_sub]
  omega

theorem Stored.matchesAt_iff (stored : Stored mem document elements) (split : elements = before ++ e :: after)
    (string : CString key name) :
    MatchesAt mem key document (BitVec.ofNat 32 (offsetBehind before)) ↔ name = e.key := by
  obtain ⟨inside, size, docLen⟩ := stored.bounds split
  have place : (BitVec.ofNat 32 (offsetBehind before)).toNat = offsetBehind before := by
    rw [BitVec.toNat_ofNat]
    omega
  refine strncmp_eq_iff string (stored.string split) (.inr ?_)
  rw [stored.room (by omega), place]
  omega

theorem Stored.goesOn (stored : Stored mem document elements) (split : elements = before ++ e :: after) :
    BitVec.ofNat 32 (offsetBehind before) + 1#32 < readUInt32 mem document := by
  obtain ⟨inside, size, docLen⟩ := stored.bounds split
  rw [BitVec.lt_def, BitVec.toNat_add, BitVec.toNat_ofNat, BitVec.toNat_ofNat]
  omega

/-- The search stops at the element that it comes to. -/
theorem Stored.stops (stored : Stored mem document elements) (split : elements = before ++ e :: after)
    (string : CString key name) (same : e.key = name) :
    Stops mem key document (BitVec.ofNat 32 (offsetBehind before)) (some (e.type, valueAddress document before e)) := by
  have alike := (stored.matchesAt_iff split string).mpr same.symm
  have stops := Stops.atKey (stored.goesOn split) alike (stored.strlen split)
  have place : document + BitVec.ofNat 32 (offsetBehind before) + 1#32 + BitVec.ofNat 32 e.key.length + 1#32 =
      valueAddress document before e := by
    rw [valueAddress]
    simp only [BitVec.ofNat_add, BitVec.add_assoc]
  rwa [(stored.parts split).1, place] at stops

/-- A string that ends at `stop` begins behind every zero before it. -/
theorem begins_behind {last : Word} {len stop z : Nat} (short : len < 2 ^ 32) (small : stop < 2 ^ 31)
    (proper : ∀ i < len, mem (document + last + 1#32 + BitVec.ofNat 32 i) ≠ 0#8)
    (ends : (last.toNat + len) % 2 ^ 32 = stop) (early : z ≤ stop)
    (zero : mem (document + BitVec.ofNat 32 z) = 0#8) : last.toNat = stop - len ∧ len ≤ stop - z := by
  have bound := last.isLt
  suffices near : len ≤ stop - z from ⟨by omega, near⟩
  by_contra far
  refine proper (len - (stop + 1 - z)) (by omega) ?_
  have numbers : last + 1#32 + BitVec.ofNat 32 (len - (stop + 1 - z)) = BitVec.ofNat 32 z := by
    apply BitVec.eq_of_toNat_eq
    simp only [BitVec.toNat_add, BitVec.toNat_ofNat]
    omega
  rw [BitVec.add_assoc, BitVec.add_assoc, ← BitVec.add_assoc last, numbers, zero]

/-- A search that gives the address of an element's value has come to the element. -/
theorem Stored.came (stored : Stored mem document elements) (split : elements = before ++ e :: after)
    (string : CString key name) (same : e.key = name) {last : Word} (scans : Scans mem key document last)
    {type : Byte} (stops : Stops mem key document last (some (type, valueAddress document before e))) :
    Scans mem key document (BitVec.ofNat 32 (offsetBehind before)) := by
  by_cases first : before = []
  · rw [first]
    exact .start
  obtain ⟨z, early, zero⟩ := stored.zero_before split first
  obtain ⟨bound, size, docLen⟩ := stored.bounds split
  rw [same] at bound
  generalize answer : some (type, valueAddress document before e) = found at stops
  cases stops with
  | atEnd => cases answer
  | @atKey keyLen inside alike length =>
  obtain ⟨proper, -, short⟩ := strlen_spec length
  -- both keys end in front of the value
  have pointers := congrArg Prod.snd (Option.some.inj answer)
  have sum : last + BitVec.ofNat 32 keyLen = BitVec.ofNat 32 (offsetBehind before + name.length) := by
    simp only [valueAddress, same] at pointers
    bv_omega
  have ends : (last.toNat + keyLen) % 2 ^ 32 = offsetBehind before + name.length := by
    have numbers := congrArg BitVec.toNat sum
    rw [BitVec.toNat_add, BitVec.toNat_ofNat, BitVec.toNat_ofNat] at numbers
    omega
  obtain ⟨place, near⟩ := begins_behind short (by omega) proper ends (by omega) zero
  -- so the comparison reaches the end of one of them, and they are the same
  have lengths : name.length = keyLen := by
    have room : (readUInt32 mem document - last).toNat = (readUInt32 mem document).toNat - last.toNat :=
      stored.room (by omega)
    have equal := (strncmp_eq_iff string (string_of_strlen length)
      (by rw [room, List.length_map, List.length_range]; omega)).mp alike
    rw [equal, List.length_map, List.length_range]
  have here : last = BitVec.ofNat 32 (offsetBehind before) := by
    apply BitVec.eq_of_toNat_eq
    rw [BitVec.toNat_ofNat]
    omega
  exact here ▸ scans

/-- With the right address, the value is the stored one just if its bytes agree in
their signs. -/
theorem Stored.readsBack_iff (stored : Stored mem document elements) (split : elements = before ++ e :: after)
    {rounds : Nat}
    (found : bsonKeyLookup rounds mem key document = some (some (e.type, valueAddress document before e))) :
    ReadsBack rounds mem key document e ↔ ∀ number value, e = .int32 number value → SignsAgree value := by
  have fits := stored.fits
  obtain ⟨bound, -, -⟩ := stored.bounds split
  obtain ⟨-, -, valueBytes⟩ := stored.parts split
  have real : valueAddress document before e ≠ 0#32 := by
    intro zero
    have number := congrArg BitVec.toNat zero
    rw [valueAddress, BitVec.toNat_add, BitVec.toNat_ofNat, BitVec.toNat_ofNat] at number
    omega
  cases e with
  | string number text =>
    constructor
    · intro _ _ _ other
      cases other
    · intro _
      refine ⟨_, (reads_append.mp valueBytes).2, fun default => ?_⟩
      rw [valueString, found]
      exact congrArg some (if_pos ⟨real, rfl⟩)
  | int32 number value =>
    have read : ∀ default, valueInt rounds mem key document default =
        some (readUInt32 mem (valueAddress document before (.int32 number value))) := by
      intro default
      rw [valueInt, found]
      exact congrArg some (if_pos ⟨real, rfl⟩)
    have signs := readUInt32_eq_iff valueBytes
    constructor
    · intro back _ _ same
      cases same
      exact signs.mp (Option.some.inj ((read 0#32).symm.trans (back 0#32)))
    · intro agree default
      rw [read default, signs.mpr (agree number value rfl)]

theorem LooksUpRightly.findsItsWay (rightly : LooksUpRightly mem document elements key name)
    (stored : Stored mem document elements) (string : CString key name) :
    FindsItsWay mem document elements key name := by
  refine ⟨fun before e after split same => ?_, fun missing => ?_⟩
  · obtain ⟨rounds, found, back⟩ := rightly.found before e after split same
    obtain ⟨last, scans, stops⟩ := lookup_stops found
    exact ⟨stored.came split string same scans stops, (stored.readsBack_iff split found).mp back⟩
  · obtain ⟨rounds, found⟩ := rightly.absent missing
    obtain ⟨last, scans, stops⟩ := lookup_stops found
    cases stops with
    | atEnd outside => exact ⟨last, scans, outside⟩

theorem FindsItsWay.looksUpRightly (way : FindsItsWay mem document elements key name)
    (stored : Stored mem document elements) (string : CString key name) :
    LooksUpRightly mem document elements key name := by
  refine ⟨fun before e after split same => ?_, fun missing => ?_⟩
  · obtain ⟨scans, agree⟩ := way.found before e after split same
    obtain ⟨rounds, found⟩ := (stored.stops split string same).lookup scans
    exact ⟨rounds, found, (stored.readsBack_iff split found).mpr agree⟩
  · obtain ⟨last, scans, outside⟩ := way.absent missing
    exact (Stops.atEnd outside).lookup scans

/-- **The data store is searched rightly** exactly when the search, which takes
lengths from signed bytes and does not skip integers, finds its way. -/
theorem looks_up_rightly_iff (stored : Stored mem document elements) (string : CString key name) :
    LooksUpRightly mem document elements key name ↔ FindsItsWay mem document elements key name :=
  ⟨fun rightly => rightly.findsItsWay stored string, fun way => way.looksUpRightly stored string⟩

/-! ## Documents of strings -/

/-- The element is a string whose length is read rightly. -/
def Skippable (e : Element) : Prop :=
  ∃ number text, e = .string number text ∧ SignsAgree (BitVec.ofNat 32 (text.length + 1))

/-- Behind such an element, the search is at the next one. -/
theorem Stored.nextOffset (stored : Stored mem document elements) (split : elements = before ++ e :: after)
    (skippable : Skippable e) :
    nextOffset mem document (BitVec.ofNat 32 (offsetBehind before)) e.key.length =
      BitVec.ofNat 32 (offsetBehind (before ++ [e])) := by
  obtain ⟨number, text, shape, agree⟩ := skippable
  obtain ⟨type, -, valueBytes⟩ := stored.parts split
  have value : document + (BitVec.ofNat 32 (offsetBehind before) +
      (1#32 + BitVec.ofNat 32 e.key.length + 1#32)) = valueAddress document before e := by
    rw [valueAddress]
    simp only [BitVec.ofNat_add, BitVec.add_assoc]
  have isString : e.type = typeString := by rw [shape]; rfl
  have lengthBytes : Reads mem (valueAddress document before e) (wordBytes (BitVec.ofNat 32 (text.length + 1))) := by
    rw [shape] at valueBytes ⊢
    exact (reads_append.mp valueBytes).1
  have length := (readUInt32_eq_iff lengthBytes).mpr agree
  have size : e.value.length = 4 + (text.length + 1) := by
    rw [shape]
    simp only [Element.value, List.length_append, length_wordBytes, List.length_singleton]
  simp only [DataStore.nextOffset, type, if_pos isString, value, length]
  rw [offsetBehind_concat, size]
  apply BitVec.eq_of_toNat_eq
  simp only [BitVec.toNat_add, BitVec.toNat_ofNat]
  omega

/-- The search comes to what lies behind such elements, if none has the key. -/
theorem Stored.scans_strings (stored : Stored mem document elements) (string : CString key name) :
    ∀ (before rest : List Element), elements = before ++ rest →
    (∀ e ∈ before, e.key ≠ name ∧ Skippable e) →
    Scans mem key document (BitVec.ofNat 32 (offsetBehind before)) := by
  intro before
  induction before using List.reverseRecOn with
  | nil => exact fun _ _ _ => .start
  | append_singleton before e ih =>
    intro rest split skipped
    have splits : elements = before ++ e :: rest := by
      rw [split, List.append_assoc]
      rfl
    have earlier := ih (e :: rest) splits fun other member => skipped other (List.mem_append_left _ member)
    obtain ⟨unlike, skippable⟩ := skipped e (by simp)
    have differs : ¬ MatchesAt mem key document (BitVec.ofNat 32 (offsetBehind before)) :=
      fun alike => unlike ((stored.matchesAt_iff splits string).mp alike).symm
    have next := earlier.next (stored.goesOn splits) differs (stored.strlen splits)
    rwa [stored.nextOffset splits skippable] at next

/-- **A document of strings** whose size and lengths are read rightly is searched
rightly for every key. -/
theorem strings_looked_up (stored : Stored mem document elements) (string : CString key name)
    (size : SignsAgree (BitVec.ofNat 32 (documentSize elements))) (strings : ∀ e ∈ elements, Skippable e) :
    LooksUpRightly mem document elements key name := by
  refine FindsItsWay.looksUpRightly ⟨fun before e after split same => ⟨?_, fun number value shape => ?_⟩,
    fun missing => ?_⟩ stored string
  · refine stored.scans_strings string before (e :: after) split fun other member => ⟨fun equal => ?_, ?_⟩
    · have distinct := stored.distinct
      rw [split, List.map_append, List.map_cons, List.nodup_append] at distinct
      exact distinct.2.2 other.key (List.mem_map_of_mem member) e.key (by simp) (equal.trans same.symm)
    · exact strings other (split ▸ List.mem_append_left _ member)
  · obtain ⟨_, _, isString, -⟩ := strings e (split ▸ by simp)
    rw [isString] at shape
    cases shape
  · have scans := stored.scans_strings string elements [] (List.append_nil _).symm
      fun e member => ⟨missing e member, strings e member⟩
    refine ⟨_, scans, ?_⟩
    have bytes : Reads mem document (wordBytes (BitVec.ofNat 32 (documentSize elements))) :=
      (reads_append.mp stored.reads).1
    have small := stored.size
    rw [(readUInt32_eq_iff bytes).mpr size, BitVec.lt_def, BitVec.toNat_add, BitVec.toNat_ofNat, BitVec.toNat_ofNat,
      BitVec.toNat_ofNat]
    simp only [documentSize, offsetBehind] at small ⊢
    omega

end

/-! ## A document in memory -/

/-- A memory that holds bytes from an address on. -/
def memoryOf (document : Word) (bytes : List Byte) : Memory := fun a => bytes.getD (a - document).toNat 0#8

theorem reads_memoryOf (document : Word) {bytes : List Byte} (short : bytes.length ≤ 2 ^ 32) :
    Reads (memoryOf document bytes) document bytes := by
  intro i inside
  have place : (document + BitVec.ofNat 32 i - document).toNat = i := by
    rw [BitVec.add_comm, BitVec.add_sub_cancel, BitVec.toNat_ofNat]
    omega
  rw [memoryOf, place, List.getD_eq_getElem?_getD, List.getElem?_eq_getElem inside, Option.getD_some]

/-- `b` is the number 256, behind `a`, a letter. -/
def settings : List Element := [.string [0x61#8] [0x78#8], .int32 [0x62#8] 256#32]

theorem settings_stored : Stored (memoryOf 0x08000000#32 (documentBytes settings)) 0x08000000#32 settings :=
  ⟨reads_memoryOf _ (by decide), by decide, by decide, by decide, by decide⟩

/-- The letter is skipped, and the number is found. -/
theorem number_behind_letter_found :
    LooksUpRightly (memoryOf 0x08000000#32 (documentBytes settings)) 0x08000000#32 settings
      (fun i => [0x62#8].getD i 0#8) [0x62#8] := by
  have string : CString (fun i => [0x62#8].getD i 0#8) [0x62#8] := string_getD (by decide)
  refine (looks_up_rightly_iff settings_stored string).mpr
    ⟨fun before e after split same => ?_, fun missing => absurd rfl (missing (.int32 [0x62#8] 256#32) (by decide))⟩
  cases before with
  | nil =>
    obtain ⟨first, -⟩ := List.cons.inj split
    rw [← first] at same
    exact absurd same (by decide)
  | cons other rest =>
    obtain ⟨first, others⟩ := List.cons.inj split
    obtain ⟨none, last⟩ | ⟨-, nothing⟩ := List.singleton_eq_append_iff.mp others
    · obtain ⟨rfl, -⟩ := List.cons.inj last
      rw [none, ← first]
      refine ⟨settings_stored.scans_strings string [.string [0x61#8] [0x78#8]] [.int32 [0x62#8] 256#32] rfl ?_, ?_⟩
      · intro other member
        rw [List.mem_singleton.mp member]
        exact ⟨by decide, _, _, rfl, by decide⟩
      · intro number value shape
        cases shape
        decide
    · cases nothing

/-- `b` is a letter, behind `a`, the number 256. -/
def numberFirst : List Element := [.int32 [0x61#8] 256#32, .string [0x62#8] [0x78#8]]

theorem numberFirst_stored :
    Stored (memoryOf 0x08000000#32 (documentBytes numberFirst)) 0x08000000#32 numberFirst :=
  ⟨reads_memoryOf _ (by decide), by decide, by decide, by decide, by decide⟩

/-- The letter is not found: its type byte is taken for a part of a key. -/
theorem letter_behind_number_lost :
    Stored (memoryOf 0x08000000#32 (documentBytes numberFirst)) 0x08000000#32 numberFirst ∧
      CString (fun i => [0x62#8].getD i 0#8) [0x62#8] ∧
        ¬ LooksUpRightly (memoryOf 0x08000000#32 (documentBytes numberFirst)) 0x08000000#32 numberFirst
          (fun i => [0x62#8].getD i 0#8) [0x62#8] := by
  refine ⟨numberFirst_stored, string_getD (by decide), fun rightly => ?_⟩
  obtain ⟨rounds, found, -⟩ := rightly.found [.int32 [0x61#8] 256#32] (.string [0x62#8] [0x78#8]) [] rfl rfl
  have lost : bsonKeyLookup 5 (memoryOf 0x08000000#32 (documentBytes numberFirst)) (fun i => [0x62#8].getD i 0#8)
      0x08000000#32 = some none := by decide
  cases lookup_unique lost found

end FluxOS.DataStore
