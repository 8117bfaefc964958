import Mathlib.Data.Nat.Digits.Defs
import FluxOS.BlockDevice

/-! The text of an IPv4 address: `IP::ipv4toString`, with the numbers of `uitoaz`, and the `inet_pton` that reads it. -/
namespace FluxOS.AddressText
open Words UserMemoryOps

/-! ## Writing -/

/-- `address.addrbytes[i]`: the first byte in memory is the lowest one. -/
def addrByte (addr : Word) (i : Nat) : Byte := addr.extractLsb' (8 * i) 8

def addrBytes (addr : Word) : List Byte := (List.range 4).map (addrByte addr)

def digitByte (digit : Nat) : Byte := BitVec.ofNat 8 (if digit < 10 then 48 + digit else 65 + digit - 10)

/-- `'.'`. -/
def dot : Byte := 46#8

/-- The digits that `uitoaz` writes, from the highest one on. -/
def uitoazDigits (n b : Nat) : List Byte := ((if n = 0 then [0] else Nat.digits b n).map digitByte).reverse

/-- `str[i] = c`. -/
def store (str : Block) (i : Nat) (c : Byte) : Block := fun k => if k = i then c else str k

/-- Bytes one behind the other, from `&str[i]` on. -/
def storeAll (str : Block) (i : Nat) : List Byte → Block
  | [] => str
  | c :: rest => storeAll (store str i c) (i + 1) rest

/-- `uitoaz(n, &str[i], b)`: how many digits there are, and the memory with these and the zero behind them. -/
def uitoaz (n b : Nat) (str : Block) (i : Nat) : Nat × Block :=
  ((uitoazDigits n b).length, storeAll str i (uitoazDigits n b ++ [0#8]))

def ipv4toString (addr : Word) (str : Block) : Block :=
  let (l, str) := uitoaz (addrByte addr 0).toNat 10 str 0
  let str := store str l dot
  let (written, str) := uitoaz (addrByte addr 1).toNat 10 str (l + 1)
  let l := l + written
  let str := store str l dot
  let (written, str) := uitoaz (addrByte addr 2).toNat 10 str (l + 1)
  let l := l + written
  let str := store str l dot
  (uitoaz (addrByte addr 3).toNat 10 str (l + 1)).2

/-! ## Reading -/

/-- `(c >= '0') && (c <= '9')`. -/
def IsDigit (c : Byte) : Prop := 48 ≤ c.toInt ∧ c.toInt ≤ 57

instance (c : Byte) : Decidable (IsDigit c) := inferInstanceAs (Decidable (_ ∧ _))

/-- The loop of `inet_pton` over a string, which is given without the zero that ends it; there is no result where
it returns 0. -/
def readNumbers : List Byte → Nat → Word → (Nat → Byte) → Option (Nat → Byte)
  | [], _, _, ipv4 => some ipv4
  | c :: src, i, temp, ipv4 =>
    if i < 4 then
      if IsDigit c then readNumbers src i (temp * 10#32 + (c.signExtend 32 - 48#32)) ipv4
      else if c = dot then readNumbers src (i + 1) 0#32 (store ipv4 i (temp.setWidth 8))
      else none
    else some ipv4

/-- `inet_pton`: the bytes that it stores where it returns 1. What is in its array before is not initialized. -/
def inetPton (ipv4 : Nat → Byte) (src : List Byte) : Option (List Byte) :=
  (readNumbers src 0 0#32 ipv4).map fun ipv4 => (List.range 4).map ipv4

/-! ## What the texts should be -/

def decimal (n : Byte) : List Byte := uitoazDigits n.toNat 10

/-- The canonical dotted-decimal form. -/
def canonical (addr : Word) : List Byte :=
  decimal (addrByte addr 0) ++ dot :: decimal (addrByte addr 1) ++ dot :: decimal (addrByte addr 2) ++
    dot :: decimal (addrByte addr 3)

/-- The memory has this string. -/
def Begins (str : Block) (text : List Byte) : Prop := ∀ i (inside : i < text.length), str i = text[i]

/-- The number that digits stand for. -/
def value (digits : List Byte) : Nat := digits.foldl (fun value c => value * 10 + (c.toNat - 48)) 0

/-- A decimal number of 0..255. -/
def IsNumber (text : List Byte) : Prop := text ≠ [] ∧ (∀ c ∈ text, IsDigit c) ∧ value text ≤ 255

/-- Four decimal numbers separated by single dots. -/
def IsAddress (src : List Byte) : Prop :=
  ∃ first second third fourth, src = first ++ dot :: second ++ dot :: third ++ dot :: fourth ∧
    IsNumber first ∧ IsNumber second ∧ IsNumber third ∧ IsNumber fourth

/-- Before the fourth dot there is something that is neither a digit nor a dot. -/
def Foreign (src : List Byte) : Prop :=
  ∃ before c after, src = before ++ c :: after ∧ ¬IsDigit c ∧ c ≠ dot ∧ before.count dot < 4

section Written

variable {str : Block} {text : List Byte}

theorem Begins.of_append {more : List Byte} (begins : Begins str (text ++ more)) : Begins str text := by
  intro i inside
  rw [begins i (by rw [List.length_append]; omega), List.getElem_append_left inside]

theorem Begins.store (begins : Begins str text) (c : Byte) : Begins (store str text.length c) (text ++ [c]) := by
  intro i inside
  rw [AddressText.store]
  split
  · subst i
    rw [List.getElem_append_right (Nat.le_refl _)]
    simp
  · have before : i < text.length := by
      rw [List.length_append, List.length_singleton] at inside
      omega
    rw [List.getElem_append_left before, begins i before]

theorem Begins.storeAll (begins : Begins str text) (more : List Byte) :
    Begins (storeAll str text.length more) (text ++ more) := by
  induction more generalizing str text with
  | nil => rwa [List.append_nil]
  | cons c rest ih =>
    have next := ih (begins.store c)
    rwa [List.length_append, List.length_singleton, List.append_assoc] at next

theorem decimal_ne_nil (n : Byte) : decimal n ≠ [] := by
  rw [decimal, uitoazDigits, Ne, List.reverse_eq_nil_iff, List.map_eq_nil_iff]
  split
  · exact List.cons_ne_nil _ _
  · exact Nat.digits_ne_nil_iff_ne_zero.mpr ‹_›

theorem length_decimal_pos (n : Byte) : 0 < (decimal n).length := List.length_pos_iff.mpr (decimal_ne_nil n)

/-- The number behind a dot, with the dot that takes the place of its last digit. -/
theorem Begins.number (begins : Begins str (text ++ [dot])) (n : Byte) :
    Begins (AddressText.store (AddressText.storeAll str (text.length + 1) (decimal n ++ [0#8]))
      (text.length + (decimal n).length) dot) (text ++ dot :: (decimal n).dropLast ++ [dot]) := by
  have split := List.dropLast_concat_getLast (decimal_ne_nil n)
  have whole := begins.storeAll (decimal n ++ [0#8])
  rw [List.length_append, List.length_singleton] at whole
  have shorter : Begins (AddressText.storeAll str (text.length + 1) (decimal n ++ [0#8]))
      (text ++ dot :: (decimal n).dropLast) := by
    have same : text ++ [dot] ++ (decimal n ++ [0#8]) =
        text ++ dot :: (decimal n).dropLast ++ ([(decimal n).getLast (decimal_ne_nil n)] ++ [0#8]) := by
      conv => lhs; rw [← split]
      simp
    rw [same] at whole
    exact whole.of_append
  have position : text.length + (decimal n).length = (text ++ dot :: (decimal n).dropLast).length := by
    have positive := length_decimal_pos n
    rw [List.length_append, List.length_cons, List.length_dropLast]
    omega
  rw [position]
  exact shorter.store dot

/-- The dot behind a number takes the place of its last digit, except behind the first one. -/
theorem ipv4toString_begins (addr : Word) (str : Block) : Begins (ipv4toString addr str)
    (decimal (addrByte addr 0) ++ dot :: (decimal (addrByte addr 1)).dropLast ++
      dot :: (decimal (addrByte addr 2)).dropLast ++ dot :: decimal (addrByte addr 3) ++ [0#8]) := by
  have nothing : Begins str [] := fun i inside => absurd inside (Nat.not_lt_zero i)
  have digits := nothing.storeAll (decimal (addrByte addr 0) ++ [0#8])
  rw [List.nil_append] at digits
  have length (text : List Byte) (n : Byte) : (text ++ dot :: (decimal n).dropLast).length =
      text.length + (decimal n).length := by
    have positive := length_decimal_pos n
    rw [List.length_append, List.length_cons, List.length_dropLast]
    omega
  have snoc (text : List Byte) : (text ++ [dot]).length = text.length + 1 := List.length_append
  have second := (digits.of_append.store dot).number (addrByte addr 1)
  have third := second.number (addrByte addr 2)
  have fourth := third.storeAll (decimal (addrByte addr 3) ++ [0#8])
  rw [length, snoc, length, length] at fourth
  simpa [decimal, ipv4toString, uitoaz] using fourth

/-- 127.0.0.1. -/
def localhost : Word := 0x0100007f#32

/-- `"127...1"` is written. -/
example : (List.range 8).map (ipv4toString localhost fun _ => 0#8) =
    [49#8, 50#8, 55#8, dot, dot, dot, 49#8, 0#8] := by
  decide

theorem digitByte_spec : ∀ digit < 10, IsDigit (digitByte digit) ∧
    (digitByte digit).signExtend 32 - 48#32 = BitVec.ofNat 32 digit := by
  decide

theorem decimal_digits {n : Byte} : ∀ c ∈ decimal n, IsDigit c := by
  intro c among
  rw [decimal, uitoazDigits, List.mem_reverse] at among
  obtain ⟨digit, listed, rfl⟩ := List.mem_map.mp among
  refine (digitByte_spec digit ?_).1
  split at listed
  · rw [List.mem_singleton.mp listed]
    decide
  · exact Nat.digits_lt_base (by decide) listed

theorem canonical_ne_zero {addr : Word} : ∀ c ∈ canonical addr, c ≠ 0#8 := by
  intro c among zero
  have digit {n : Byte} : c ∉ decimal n := fun among => by
    have digit := decimal_digits c among
    rw [zero] at digit
    exact absurd digit (by decide)
  have separator : c ≠ dot := by
    rw [zero]
    decide
  simp only [canonical, List.mem_append, List.mem_cons, digit, separator, or_self] at among

/-- Two digits are missing from the text. -/
theorem ipv4toString_not_canonical (addr : Word) (str : Block) :
    ¬Begins (ipv4toString addr str) (canonical addr ++ [0#8]) := by
  intro begins
  have written := ipv4toString_begins addr str
  obtain ⟨text, text_eq⟩ : ∃ text, decimal (addrByte addr 0) ++ dot :: (decimal (addrByte addr 1)).dropLast ++
    dot :: (decimal (addrByte addr 2)).dropLast ++ dot :: decimal (addrByte addr 3) = text := ⟨_, rfl⟩
  have shorter : text.length < (canonical addr).length := by
    have second := length_decimal_pos (addrByte addr 1)
    have third := length_decimal_pos (addrByte addr 2)
    rw [← text_eq, canonical]
    simp only [List.length_append, List.length_cons, List.length_dropLast]
    omega
  rw [text_eq] at written
  have zero := written text.length (by rw [List.length_append, List.length_singleton]; omega)
  have same := begins text.length (by rw [List.length_append]; omega)
  rw [List.getElem_append_right (Nat.le_refl _), List.getElem_singleton] at zero
  rw [List.getElem_append_left shorter, zero] at same
  exact canonical_ne_zero _ (List.getElem_mem shorter) same.symm

end Written

/-! ## What is read -/

section Read

variable {ipv4 : Nat → Byte} {src : List Byte} {i : Nat}

theorem readNumbers_digits (inside : i < 4) (digits : List Nat) (decimal : ∀ digit ∈ digits, digit < 10)
    (rest : List Byte) (temp : Word) : readNumbers (digits.map digitByte ++ rest) i temp ipv4 =
      readNumbers rest i (digits.foldl (fun temp digit => temp * 10#32 + BitVec.ofNat 32 digit) temp) ipv4 := by
  induction digits generalizing temp with
  | nil => rfl
  | cons digit later ih =>
    obtain ⟨isDigit, value⟩ := digitByte_spec digit (decimal digit List.mem_cons_self)
    rw [List.map_cons, List.cons_append, readNumbers, if_pos inside, if_pos isDigit, value,
      ih fun digit among => decimal digit (List.mem_cons_of_mem _ among)]
    rfl

theorem foldr_digits (digits : List Nat) : digits.foldr (fun digit temp => temp * 10#32 + BitVec.ofNat 32 digit) 0#32 =
    BitVec.ofNat 32 (Nat.ofDigits 10 digits) := by
  induction digits with
  | nil => rfl
  | cons digit later ih =>
    rw [List.foldr_cons, ih, Nat.ofDigits_cons, BitVec.ofNat_add, BitVec.ofNat_mul, BitVec.add_comm,
      BitVec.mul_comm]

/-- A number comes out as it was written. -/
theorem readNumbers_decimal (inside : i < 4) (n : Byte) (rest : List Byte) :
    readNumbers (decimal n ++ rest) i 0#32 ipv4 = readNumbers rest i (n.setWidth 32) ipv4 := by
  have small (digit : Nat) (among : digit ∈ (if n.toNat = 0 then [0] else Nat.digits 10 n.toNat).reverse) :
      digit < 10 := by
    rw [List.mem_reverse] at among
    split at among
    · rw [List.mem_singleton.mp among]
      decide
    · exact Nat.digits_lt_base (by decide) among
  have number : Nat.ofDigits 10 (if n.toNat = 0 then [0] else Nat.digits 10 n.toNat) = n.toNat := by
    split
    · rename_i zero
      rw [zero]
      rfl
    · exact Nat.ofDigits_digits 10 n.toNat
  have written : decimal n = (if n.toNat = 0 then [0] else Nat.digits 10 n.toNat).reverse.map digitByte := by
    rw [decimal, uitoazDigits, List.map_reverse]
  rw [written, readNumbers_digits inside _ small, List.foldl_reverse, foldr_digits, number, BitVec.ofNat_toNat]

theorem readNumbers_dot (inside : i < 4) (rest : List Byte) (temp : Word) :
    readNumbers (dot :: rest) i temp ipv4 = readNumbers rest (i + 1) 0#32 (store ipv4 i (temp.setWidth 8)) := by
  rw [readNumbers, if_pos inside, if_neg (by decide), if_pos rfl]

/-- Only a dot stores the number before it, and behind the last number there is none. -/
theorem inetPton_canonical (addr : Word) (ipv4 : Nat → Byte) : inetPton ipv4 (canonical addr) =
    some [addrByte addr 0, addrByte addr 1, addrByte addr 2, ipv4 3] := by
  have truncated (n : Byte) : (n.setWidth 32).setWidth 8 = n := by
    rw [BitVec.setWidth_setWidth_of_le _ (by decide), BitVec.setWidth_eq]
  have last (ipv4 : Nat → Byte) : readNumbers (decimal (addrByte addr 3)) 3 0#32 ipv4 = some ipv4 := by
    rw [← List.append_nil (decimal _), readNumbers_decimal (by decide)]
    rfl
  simp only [inetPton, canonical, List.append_assoc, List.cons_append]
  rw [readNumbers_decimal (by decide), readNumbers_dot (by decide), readNumbers_decimal (by decide),
    readNumbers_dot (by decide), readNumbers_decimal (by decide), readNumbers_dot (by decide), truncated, truncated,
    truncated, last]
  rfl

/-- What is neither a digit nor a dot is found as long as a number is still missing. -/
theorem readNumbers_eq_none (src : List Byte) (temp : Word) : readNumbers src i temp ipv4 = none ↔
    ∃ before c after, src = before ++ c :: after ∧ ¬IsDigit c ∧ c ≠ dot ∧ i + before.count dot < 4 := by
  induction src generalizing i temp ipv4 with
  | nil => simp [readNumbers]
  | cons c rest ih =>
    rw [readNumbers]
    by_cases inside : i < 4
    · rw [if_pos inside]
      by_cases digit : IsDigit c
      · have other : c ≠ dot := by
          rintro rfl
          exact absurd digit (by decide)
        rw [if_pos digit, ih]
        constructor
        · rintro ⟨before, found, after, rfl, foreign⟩
          exact ⟨c :: before, found, after, rfl, by rwa [List.count_cons_of_ne other]⟩
        · rintro ⟨_ | ⟨first, before⟩, found, after, split, foreign, separate, early⟩
          · exact absurd ((List.cons.inj split).1 ▸ digit) foreign
          · obtain ⟨rfl, rfl⟩ := List.cons.inj split
            rw [List.count_cons_of_ne other] at early
            exact ⟨before, found, after, rfl, foreign, separate, early⟩
      · rw [if_neg digit]
        by_cases separator : c = dot
        · subst separator
          rw [if_pos rfl, ih]
          constructor
          · rintro ⟨before, found, after, rfl, foreign, separate, early⟩
            exact ⟨dot :: before, found, after, rfl, foreign, separate, by rw [List.count_cons_self]; omega⟩
          · rintro ⟨_ | ⟨first, before⟩, found, after, split, foreign, separate, early⟩
            · exact absurd (List.cons.inj split).1.symm separate
            · obtain ⟨rfl, rfl⟩ := List.cons.inj split
              rw [List.count_cons_self] at early
              exact ⟨before, found, after, rfl, foreign, separate, by omega⟩
        · rw [if_neg separator]
          exact iff_of_true rfl ⟨[], c, rest, rfl, digit, separator, inside⟩
    · rw [if_neg inside]
      refine iff_of_false (by simp) ?_
      rintro ⟨before, found, after, split, foreign, separate, early⟩
      omega

theorem inetPton_eq_none : inetPton ipv4 src = none ↔ Foreign src := by
  rw [inetPton, Option.map_eq_none_iff, readNumbers_eq_none, Foreign]
  simp only [Nat.zero_add]

/-- The text of an address is never its canonical form. The canonical form is read as its address if and only if the
array of `inet_pton` has the last byte already. What is no address is refused if and only if something else than a
digit or a dot comes before the fourth dot. -/
theorem address_text_iff (addr : Word) (str : Block) (ipv4 : Nat → Byte) :
    ¬Begins (ipv4toString addr str) (canonical addr ++ [0#8]) ∧
    (inetPton ipv4 (canonical addr) = some (addrBytes addr) ↔ ipv4 3 = addrByte addr 3) ∧
    ∀ src, (¬IsAddress src → inetPton ipv4 src = none) ↔ IsAddress src ∨ Foreign src := by
  refine ⟨ipv4toString_not_canonical addr str, ?_, fun src => ?_⟩
  · rw [inetPton_canonical, addrBytes]
    simp [List.range_succ]
  · rw [inetPton_eq_none, or_iff_not_imp_left]

end Read

/-- The text of 127.0.0.1 lacks two digits, its canonical form is read as 127.0.0.0, and the empty string is read
as 0.0.0.0. -/
theorem localhost_not_read : ¬Begins (ipv4toString localhost fun _ => 0#8) (canonical localhost ++ [0#8]) ∧
    inetPton (fun _ => 0#8) (canonical localhost) ≠ some (addrBytes localhost) ∧
    ¬IsAddress [] ∧ inetPton (fun _ => 0#8) [] ≠ none := by
  refine ⟨ipv4toString_not_canonical _ _, ?_, ?_, nofun⟩
  · rw [inetPton_canonical]
    decide
  · rintro ⟨first, second, third, fourth, split, -⟩
    simp at split

end FluxOS.AddressText
