import FluxOS.NumberText
import FluxOS.Renaming

/-! The numbers of the user's `printf`: `itoaz` and `uitoaz` of the library, with the arrays that they write to, and
`vfprintf`, which calls them. -/
namespace FluxOS.LibcNumbers
open Words UserMemoryOps BlockDevice Ext2 AddressText NumberText

def maxDigit : Nat := 9

/-- `array[i] = c` in an array of so many bytes. -/
def storeIn (size : Nat) (array : Block) (i : Nat) (c : Byte) : Option Block :=
  if i < size then some (store array i c) else none

/-- What is stored for the digit `r`, which is an `int`: nothing if it is negative. -/
def storeDigit (p : Block) (i : Nat) (r : Word) : Option Block :=
  if (0#32).sle r ∧ r.sle 9#32 then storeIn maxDigit p i ((48#32 + r).setWidth 8)
  else if (9#32).slt r then storeIn maxDigit p i ((65#32 + r - 10#32).setWidth 8)
  else some p

/-- The loop over the digits. The base is unsigned, and so are the remainder and the quotient. -/
def digitLoop (b : Word) : Nat → Nat → Word → Block → Option (Nat × Block)
  | 0, _, _, _ => none
  | rounds + 1, i, l, p =>
    (storeDigit p i (l % b)).bind fun p =>
      if (l / b).sle 0#32 then some (i + 1, p) else digitLoop b rounds (i + 1) (l / b) p

/-- The loop that copies `k` digits from the scratch array to the buffer of `vfprintf`. -/
def copyDigits (p : Block) : Nat → Nat → Block → Option (Nat × Block)
  | 0, j, s => some (j, s)
  | k + 1, j, s => (storeIn (maxDigit + 1) s j (p k)).bind (copyDigits p k (j + 1))

/-- What `itoaz` and `uitoaz` do with the number without its sign. In base 2 and up there are not more than 32
digits. -/
def writeNumber (sign : Bool) (l : Word) (s : Block) (b : Word) : Option Block :=
  (digitLoop b 32 0 l fun _ => 0#8).bind fun (i, p) =>
    (if sign then (storeIn (maxDigit + 1) s 0 minus).map (1, ·) else some (0, s)).bind fun (index, s) =>
      (copyDigits p i index s).bind fun (j, s) => storeIn (maxDigit + 1) s j 0#8

/-- `itoaz`: the buffer. There is none where something is stored outside of an array. -/
def itoaz (n : Word) (s : Block) (b : Word) : Option Block :=
  if n.slt 0#32 then writeNumber true (-n) s b else writeNumber false n s b

/-- `uitoaz`, of which no number is below 0. -/
def uitoaz (n : Word) (s : Block) (b : Word) : Option Block := writeNumber false n s b

/-- `itoaz` stays in its buffers and writes the text of the number. -/
def WritesInt (n b : Word) : Prop := ∀ s, ∃ s', itoaz n s b = some s' ∧ CString s' (intText n.toInt b.toNat)

def WritesUnsigned (n b : Word) : Prop := ∀ s, ∃ s', uitoaz n s b = some s' ∧ CString s' (intText n.toNat b.toNat)

/-! ## `vfprintf` -/

def percent : Byte := 37#8

/-- What `va_arg` finds: a word, or a pointer to a string. -/
inductive Argument
  | word (n : Word)
  | string (text : List Byte)

/-- What is written of the buffer: `strlen(num)` bytes. -/
def written (num : Block) : Option (List Byte) :=
  (strlen (fun address => num address.toNat) 0#32).map fun len => (List.range len).map num

/-- The number that a conversion writes to the buffer, where it is one of a number. -/
def convert (conversion : Byte) (n : Word) (num : Block) : Option Block :=
  if conversion = 117#8 then uitoaz n num 10#32
  else if conversion = 120#8 then uitoaz n num 16#32
  else itoaz n num 10#32

/-- `%d`, `%i`, `%u` and `%x`. -/
def IsNumber (conversion : Byte) : Prop :=
  conversion = 100#8 ∨ conversion = 105#8 ∨ conversion = 117#8 ∨ conversion = 120#8

instance (conversion : Byte) : Decidable (IsNumber conversion) := inferInstanceAs (Decidable (_ ∨ _))

/-- `vfprintf`: all that it writes to the stream. There is no result where it stores outside of an array, reads behind
the end of the format, or takes an argument of another type. -/
def vfprintf : List Byte → List Argument → Block → Option (List Byte)
  | [], _, _ => some []
  | [c], _, _ => if c = percent then none else some [c]
  | c :: conversion :: s, args, num =>
    if c ≠ percent then (vfprintf (conversion :: s) args num).map (c :: ·)
    else if conversion = 115#8 then
      match args with
      | .string text :: args => (vfprintf s args num).map (text ++ ·)
      | _ => none
    else if conversion = 99#8 then
      match args with
      | .word p :: args => (vfprintf s args num).map (p.setWidth 8 :: ·)
      | _ => none
    else if IsNumber conversion then
      match args with
      | .word n :: args =>
        (convert conversion n num).bind fun num =>
          (written num).bind fun text => (vfprintf s args num).map (text ++ ·)
      | _ => none
    else vfprintf s args num

/-! ## The loops -/

section Loops

variable {b : Word}

theorem storeIn_concat (size : Nat) (s : Block) (bytes : List Byte) (c : Byte) :
    storeIn size (storeAll s 0 bytes) bytes.length c =
      if bytes.length < size then some (storeAll s 0 (bytes ++ [c])) else none := by
  rw [storeIn, storeAll_concat]

theorem low_digit : ∀ digit < 10, ((0#32).sle (BitVec.ofNat 32 digit) ∧ (BitVec.ofNat 32 digit).sle 9#32) ∧
    (48#32 + BitVec.ofNat 32 digit).setWidth 8 = digitByte digit := by
  decide

theorem high_digit : ∀ digit < 16, 10 ≤ digit → (BitVec.ofNat 32 digit).sle 9#32 = false ∧
    (9#32).slt (BitVec.ofNat 32 digit) ∧ (65#32 + BitVec.ofNat 32 digit - 10#32).setWidth 8 = digitByte digit := by
  decide

theorem storeDigit_eq (p : Block) (i : Nat) {digit : Nat} (small : digit < 16) :
    storeDigit p i (BitVec.ofNat 32 digit) = storeIn maxDigit p i (digitByte digit) := by
  rw [storeDigit]
  by_cases low : digit < 10
  · obtain ⟨between, byte⟩ := low_digit digit low
    rw [if_pos between, byte]
  · obtain ⟨above, greater, byte⟩ := high_digit digit small (Nat.not_lt.mp low)
    rw [if_neg fun between => Bool.false_ne_true (above ▸ between.2), if_pos greater, byte]

theorem umod_eq (l b : Word) : l % b = BitVec.ofNat 32 (l.toNat % b.toNat) := by
  rw [← BitVec.toNat_umod, BitVec.ofNat_toNat, BitVec.setWidth_eq]

/-- A quotient, as an `int`, is not negative, so the loop ends where it is 0. -/
theorem quotient_ends (l : Word) (base : 2 ≤ b.toNat) : (l / b).sle 0#32 ↔ l.toNat / b.toNat = 0 := by
  have half : l.toNat / b.toNat ≤ l.toNat / 2 := Nat.div_le_div_left base (by decide)
  have small := l.isLt
  have value := BitVec.toInt_eq_toNat_cond (l / b)
  rw [BitVec.toNat_udiv, if_pos (by omega)] at value
  rw [BitVec.sle_iff_toInt_le, BitVec.toInt_zero, value]
  exact Int.natCast_nonpos_iff

/-- The digits are written, if there is room for all of them. -/
theorem digitLoop_writes (base : 2 ≤ b.toNat) (base' : b.toNat ≤ 16) (p : Block) {rounds : Nat} {l : Word}
    (some : 0 < rounds) (enough : l.toNat < 2 ^ rounds) (written : List Byte) :
    digitLoop b rounds written.length l (storeAll p 0 written) =
      if written.length + (lowDigits l.toNat b.toNat).length ≤ maxDigit then
        .some (written.length + (lowDigits l.toNat b.toNat).length,
          storeAll p 0 (written ++ (lowDigits l.toNat b.toNat).map digitByte))
      else none := by
  induction rounds generalizing l written with
  | zero => exact absurd some (Nat.lt_irrefl 0)
  | succ rounds ih =>
    rw [digitLoop, umod_eq, storeDigit_eq _ _ (digit_small base base'), storeIn_concat, lowDigits_step _ base,
      List.length_cons]
    by_cases room : written.length < maxDigit
    · rw [if_pos room, Option.bind_some]
      by_cases last : l.toNat / b.toNat = 0
      · rw [if_pos ((quotient_ends l base).mpr last), if_pos last, List.length_nil, if_pos (by omega)]
        rfl
      · have half : l.toNat / b.toNat ≤ l.toNat / 2 := Nat.div_le_div_left base (by decide)
        have more : 0 < rounds := by
          apply Nat.pos_of_ne_zero
          rintro rfl
          exact last (Nat.div_eq_of_lt (by omega))
        have next := @ih (l / b) more (by rw [BitVec.toNat_udiv, Nat.pow_succ] at *; omega)
          (written ++ [digitByte (l.toNat % b.toNat)])
        rw [List.length_append, List.length_singleton, BitVec.toNat_udiv, List.append_assoc, List.singleton_append,
          Nat.add_assoc, Nat.add_comm 1] at next
        rw [if_neg fun ends => last ((quotient_ends l base).mp ends), if_neg last, next, List.map_cons]
    · rw [if_neg room, Option.bind_none, if_neg (by omega)]

/-- The digits are copied behind what is there, the highest one first. -/
theorem copyDigits_copies {p : Block} {digits : List Byte} (stored : ∀ k (inside : k < digits.length), p k = digits[k])
    (s : Block) {k : Nat} (within : k ≤ digits.length) {front : List Byte} (room : front.length ≤ maxDigit + 1) :
    copyDigits p k front.length (storeAll s 0 front) =
      if front.length + k ≤ maxDigit + 1 then
        some (front.length + k, storeAll s 0 (front ++ (digits.take k).reverse))
      else none := by
  induction k generalizing front with
  | zero =>
    rw [copyDigits, Nat.add_zero, if_pos room, List.take_zero, List.reverse_nil, List.append_nil]
  | succ k ih =>
    rw [copyDigits, storeIn_concat]
    by_cases more : front.length < maxDigit + 1
    · have next := @ih (by omega) (front ++ [p k]) (by rw [List.length_append, List.length_singleton]; omega)
      have last : (digits.take (k + 1)).reverse = p k :: (digits.take k).reverse := by
        rw [List.take_succ_eq_append_getElem (by omega), List.reverse_append, stored k (by omega)]
        rfl
      rw [List.length_append, List.length_singleton, List.append_assoc, List.singleton_append, Nat.add_assoc,
        Nat.add_comm 1] at next
      rw [if_pos more, Option.bind_some, next, last]
    · rw [if_neg more, Option.bind_none, if_neg (by omega)]

end Loops

/-! ## The numbers -/

section Numbers

variable {n b : Word}

/-- The text of a number without its sign, with or without a minus. -/
def signedText (sign : Bool) (l b : Nat) : List Byte := (if sign then [minus] else []) ++ uitoazDigits l b

/-- A number is written just if its text, with the sign, has not more characters than the scratch array. -/
theorem writeNumber_eq (base : 2 ≤ b.toNat) (base' : b.toNat ≤ 16) (sign : Bool) (l : Word) (s : Block) :
    writeNumber sign l s b =
      if (signedText sign l.toNat b.toNat).length ≤ maxDigit then
        some (storeAll s 0 (signedText sign l.toNat b.toNat ++ [0#8]))
      else none := by
  let digits := (lowDigits l.toNat b.toNat).map digitByte
  let front := if sign then [minus] else []
  have loop := digitLoop_writes base base' (fun _ => 0#8) (by decide) l.isLt []
  rw [List.length_nil, List.nil_append, Nat.zero_add, ← List.length_map digitByte] at loop
  change digitLoop b 32 0 l (fun _ => 0#8) =
    if digits.length ≤ maxDigit then some (digits.length, storeAll _ 0 digits) else none at loop
  have start : (if sign then (storeIn (maxDigit + 1) s 0 minus).map (1, ·) else some (0, s)) =
      some (front.length, storeAll s 0 front) := by
    cases sign <;> rfl
  have short : front.length ≤ 1 := by
    cases sign
    · exact Nat.zero_le 1
    · exact Nat.le_refl 1
  have stored (k : Nat) (inside : k < digits.length) : storeAll (fun _ => 0#8) 0 digits k = digits[k] := by
    rw [storeAll_apply, if_pos (Nat.zero_le k), Nat.sub_zero, List.getElem?_eq_getElem inside, Option.getD_some]
  have copied := copyDigits_copies stored s (Nat.le_refl digits.length)
    (show front.length ≤ maxDigit + 1 by omega)
  have text : front ++ (digits.take digits.length).reverse = signedText sign l.toNat b.toNat := by
    rw [List.take_length]
    rfl
  have length : front.length + digits.length = (signedText sign l.toNat b.toNat).length := by
    rw [← text, List.take_length, List.length_append, List.length_reverse]
  rw [text, length] at copied
  rw [writeNumber, loop]
  by_cases enough : digits.length ≤ maxDigit
  · rw [if_pos enough]
    rw [if_pos (by omega)] at copied
    simp only [Option.bind_some, start, copied, storeIn_concat, Nat.lt_succ_iff]
  · rw [if_neg enough, Option.bind_none, if_neg (by omega)]

theorem length_lowDigits {m b k : Nat} (base : 2 ≤ b) (positive : 0 < k) : (lowDigits m b).length ≤ k ↔ m < b ^ k := by
  rw [lowDigits]
  split
  · next zero =>
    subst zero
    exact iff_of_true positive (Nat.pow_pos (by omega))
  · exact Nat.digits_length_le_iff base m

theorem itoaz_eq (base : 2 ≤ b.toNat) (base' : b.toNat ≤ 16) (n : Word) (s : Block) : itoaz n s b =
    if (intText n.toInt b.toNat).length ≤ maxDigit then some (storeAll s 0 (intText n.toInt b.toNat ++ [0#8])) else none := by
  have value := BitVec.toInt_eq_toNat_cond n
  have small := n.isLt
  have below : n.slt 0#32 ↔ n.toInt < 0 := by rw [BitVec.slt_iff_toInt_lt, BitVec.toInt_zero]
  rw [itoaz, intText]
  by_cases negative : n.toInt < 0
  · have absolute : n.toInt.natAbs = (-n).toNat := by
      rw [BitVec.toNat_neg]
      omega
    rw [if_pos (below.mpr negative), if_pos negative, writeNumber_eq base base', absolute]
    rfl
  · have absolute : n.toInt.natAbs = n.toNat := by omega
    rw [if_neg (negative ∘ below.mp), if_neg negative, writeNumber_eq base base', absolute]
    rfl

theorem uitoaz_eq (base : 2 ≤ b.toNat) (base' : b.toNat ≤ 16) (n : Word) (s : Block) : uitoaz n s b =
    if (intText n.toNat b.toNat).length ≤ maxDigit then some (storeAll s 0 (intText n.toNat b.toNat ++ [0#8])) else none := by
  have text : intText n.toNat b.toNat = signedText false n.toNat b.toNat := if_neg (by omega)
  rw [uitoaz, writeNumber_eq base base', text]

/-- A text of at most nine characters: the sign is one of them. -/
theorem length_intText {b : Nat} (base : 2 ≤ b) (n : Int) :
    (intText n b).length ≤ maxDigit ↔ -(b ^ 8 : Nat) < n ∧ n < (b ^ 9 : Nat) := by
  have digits : (uitoazDigits n.natAbs b).length = (lowDigits n.natAbs b).length := by
    rw [uitoazDigits, List.length_reverse, List.length_map, lowDigits]
  have positive : 0 < b ^ 8 := Nat.pow_pos (by omega)
  rw [intText]
  split
  · rw [List.length_cons, digits, maxDigit, Nat.add_le_add_iff_right (n := 1), length_lowDigits base (by decide)]
    omega
  · rw [digits, maxDigit, length_lowDigits base (by decide)]
    omega

/-- What is written where there is room for a text is that text, and there is nothing else to go wrong. -/
theorem writes_iff {write : Block → Option Block} {text : List Byte} (proper : 0#8 ∉ text)
    (eq : ∀ s, write s = if text.length ≤ maxDigit then some (storeAll s 0 (text ++ [0#8])) else none) :
    (∀ s, ∃ s', write s = some s' ∧ CString s' text) ↔ text.length ≤ maxDigit := by
  constructor
  · intro right
    obtain ⟨s', written, -⟩ := right fun _ => 0#8
    by_contra long
    rw [eq, if_neg long] at written
    cases written
  · intro short s
    exact ⟨storeAll s 0 (text ++ [0#8]), by rw [eq, if_pos short], storeAll_string proper s⟩

theorem writesInt_iff (base : 2 ≤ b.toNat) (base' : b.toNat ≤ 16) :
    WritesInt n b ↔ (intText n.toInt b.toNat).length ≤ maxDigit :=
  writes_iff (intText_proper base base' _) (itoaz_eq base base' n)

theorem writesUnsigned_iff (base : 2 ≤ b.toNat) (base' : b.toNat ≤ 16) :
    WritesUnsigned n b ↔ (intText n.toNat b.toNat).length ≤ maxDigit :=
  writes_iff (intText_proper base base' _) (uitoaz_eq base base' n)

end Numbers

/-- Hexadecimal numbers always fit. Decimal ones have to be below 10^9, with nine digits, and with a sign above -10^8. -/
theorem numbers_fit_iff (n : Word) : (WritesInt n 10#32 ↔ -10 ^ 8 < n.toInt ∧ n.toInt < 10 ^ 9) ∧ WritesInt n 16#32 ∧
    (WritesUnsigned n 10#32 ↔ n.toNat < 10 ^ 9) ∧ WritesUnsigned n 16#32 := by
  have low := BitVec.le_toInt n
  have high := @BitVec.toInt_lt 32 n
  have small := n.isLt
  rw [writesInt_iff (by decide) (by decide), writesInt_iff (by decide) (by decide),
    writesUnsigned_iff (by decide) (by decide), writesUnsigned_iff (by decide) (by decide),
    length_intText (by decide), length_intText (by decide), length_intText (by decide), length_intText (by decide)]
  simp only [show (10#32).toNat = 10 from rfl, show (16#32).toNat = 16 from rfl]
  refine ⟨?_, ?_, ?_, ?_⟩ <;> omega

/-- The first decimal number that has ten digits, or nine of them and a sign. -/
theorem large_numbers_overflow : ¬ WritesInt 1000000000#32 10#32 ∧ ¬ WritesInt (-100000000#32) 10#32 ∧
    ¬ WritesUnsigned 1000000000#32 10#32 := by
  rw [writesInt_iff (by decide) (by decide), writesInt_iff (by decide) (by decide),
    writesUnsigned_iff (by decide) (by decide), length_intText (by decide), length_intText (by decide),
    length_intText (by decide)]
  decide

/-! ## Formats -/

/-- A piece of a format, with the argument that belongs to it. -/
inductive Piece
  | plain (c : Byte) (proper : c ≠ percent)
  | string (text : List Byte)
  | character (p : Word)
  | number (conversion : Byte) (isNumber : IsNumber conversion) (n : Word)

def Piece.format : Piece → List Byte
  | plain c _ => [c]
  | string _ => [percent, 115#8]
  | character _ => [percent, 99#8]
  | number conversion _ _ => [percent, conversion]

def Piece.argument : Piece → List Argument
  | plain _ _ => []
  | string text => [.string text]
  | character p => [.word p]
  | number _ _ n => [.word n]

/-- The canonical text of a number, in the base of its conversion, and with a sign or without. -/
def numberText (conversion : Byte) (n : Word) : List Byte :=
  if conversion = 117#8 then intText n.toNat 10
  else if conversion = 120#8 then intText n.toNat 16
  else intText n.toInt 10

def Piece.text : Piece → List Byte
  | plain c _ => [c]
  | string text => text
  | character p => [p.setWidth 8]
  | number conversion _ n => numberText conversion n

/-- The piece is no number, or one that there is room for. -/
def Piece.Fits : Piece → Prop
  | number conversion _ n => (numberText conversion n).length ≤ maxDigit
  | _ => True

theorem convert_eq (conversion : Byte) (n : Word) (num : Block) : convert conversion n num =
    if (numberText conversion n).length ≤ maxDigit then some (storeAll num 0 (numberText conversion n ++ [0#8]))
    else none := by
  rw [convert, numberText]
  split
  · exact uitoaz_eq (by decide) (by decide) n num
  · split
    · exact uitoaz_eq (by decide) (by decide) n num
    · exact itoaz_eq (by decide) (by decide) n num

theorem numberText_proper (conversion : Byte) (n : Word) : 0#8 ∉ numberText conversion n := by
  rw [numberText]
  split
  · exact intText_proper (by decide) (by decide) _
  · split
    · exact intText_proper (by decide) (by decide) _
    · exact intText_proper (by decide) (by decide) _

theorem written_eq {num : Block} {text : List Byte} (string : CString num text) (short : text.length < 2 ^ 32) :
    written num = some text := by
  rw [written, string.strlen_iff.mpr ⟨rfl, short⟩, Option.map_some]
  congr 1
  apply List.ext_getElem
  · simp
  · intro i _ inside
    rw [List.getElem_map, List.getElem_range, string.bytes i inside]

section Runs

variable (s : List Byte) (args : List Argument) (num : Block)

theorem vfprintf_plain {c : Byte} (proper : c ≠ percent) :
    vfprintf (c :: s) args num = (vfprintf s args num).map (c :: ·) := by
  cases s with
  | nil => exact if_neg proper
  | cons next s => exact if_pos proper

theorem vfprintf_number {conversion : Byte} (isNumber : IsNumber conversion) (n : Word) :
    vfprintf (percent :: conversion :: s) (.word n :: args) num =
      (convert conversion n num).bind fun num =>
        (written num).bind fun text => (vfprintf s args num).map (text ++ ·) := by
  have noString : conversion ≠ 115#8 := by
    rintro rfl
    exact absurd isNumber (by decide)
  have noCharacter : conversion ≠ 99#8 := by
    rintro rfl
    exact absurd isNumber (by decide)
  rw [vfprintf, if_neg (not_not.mpr rfl), if_neg noString, if_neg noCharacter, if_pos isNumber]

/-- A piece that fits is written, and the rest of the format goes on behind it, with another buffer. -/
theorem vfprintf_piece {piece : Piece} (fits : piece.Fits) :
    ∃ num', vfprintf (piece.format ++ s) (piece.argument ++ args) num = (vfprintf s args num').map (piece.text ++ ·) := by
  cases piece with
  | plain c proper => exact ⟨num, vfprintf_plain s args num proper⟩
  | string text => exact ⟨num, rfl⟩
  | character p => exact ⟨num, rfl⟩
  | number conversion isNumber n =>
    have room : (numberText conversion n).length ≤ maxDigit := fits
    have string := storeAll_string (numberText_proper conversion n) num
    have short : (numberText conversion n).length < 2 ^ 32 := Nat.lt_of_le_of_lt room (by decide)
    refine ⟨storeAll num 0 (numberText conversion n ++ [0#8]), ?_⟩
    have run := vfprintf_number s args num isNumber n
    rw [convert_eq, if_pos room, Option.bind_some, written_eq string short, Option.bind_some] at run
    exact run

theorem vfprintf_overflow {piece : Piece} (long : ¬ piece.Fits) :
    vfprintf (piece.format ++ s) (piece.argument ++ args) num = none := by
  cases piece with
  | plain c proper => exact absurd trivial long
  | string text => exact absurd trivial long
  | character p => exact absurd trivial long
  | number conversion isNumber n =>
    have full : ¬ (numberText conversion n).length ≤ maxDigit := long
    have run := vfprintf_number s args num isNumber n
    rw [convert_eq, if_neg full, Option.bind_none] at run
    exact run

end Runs

/-- A whole format is written in its canonical text, just if there is room for every number in it. -/
theorem vfprintf_iff (pieces : List Piece) (num : Block) (output : List Byte) :
    vfprintf (pieces.flatMap Piece.format) (pieces.flatMap Piece.argument) num = some output ↔
      (∀ piece ∈ pieces, piece.Fits) ∧ output = pieces.flatMap Piece.text := by
  induction pieces generalizing num output with
  | nil => simp [vfprintf, eq_comm]
  | cons piece rest ih =>
    rw [List.flatMap_cons, List.flatMap_cons, List.flatMap_cons, List.forall_mem_cons]
    by_cases fits : piece.Fits
    · obtain ⟨num', next⟩ := vfprintf_piece (rest.flatMap Piece.format) (rest.flatMap Piece.argument) num fits
      rw [next, Option.map_eq_some_iff]
      constructor
      · rintro ⟨more, run, rfl⟩
        obtain ⟨all, rfl⟩ := (ih num' more).mp run
        exact ⟨⟨fits, all⟩, rfl⟩
      · rintro ⟨⟨-, all⟩, rfl⟩
        exact ⟨_, (ih num' _).mpr ⟨all, rfl⟩, rfl⟩
    · rw [vfprintf_overflow _ _ num fits]
      exact iff_of_false nofun fun right => fits right.1.1

end FluxOS.LibcNumbers
