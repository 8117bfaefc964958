import FluxOS.Renaming

/-! The string copies of `cstring.cpp` that are bounded: `strlcpy`, `rawstrcpy` and `strncat`. The first two count up to
a size less one. -/
namespace FluxOS.Cstring
open Words UserMemoryOps BlockDevice Ext2

/-- `dst[i] = c`, where there is room for so many bytes. -/
def store (room : Word) (dst : Block) (i : Word) (c : Byte) : Option Block :=
  if i < room then some (Function.update dst i.toNat c) else none

/-- Where a loop has ended: at the end of the string, where the function returns, or at its bound. -/
structure CopyLoop where
  returned : Bool
  i : Word
  dst : Block

/-- The loop of `strlcpy` and `rawstrcpy`. -/
def copyLoop (room : Word) (src : Block) (n : Word) : Nat → Word → Block → Option CopyLoop
  | 0, _, _ => none
  | rounds + 1, i, dst =>
    if i < n - 1#32 then
      (store room dst i (src i.toNat)).bind fun dst =>
        if src i.toNat = 0#8 then some ⟨true, i, dst⟩ else copyLoop room src n rounds (i + 1#32) dst
    else some ⟨false, i, dst⟩

/-- `strlcpy`: what it returns, and the destination. There is no result where something is stored behind `size`
bytes. -/
def strlcpy (rounds : Nat) (dst src : Block) (size : Word) : Option (Word × Block) :=
  (copyLoop size src size rounds 0#32 dst).bind fun loop =>
    if loop.returned then some (loop.i, loop.dst)
    else
      (store size loop.dst loop.i 0#8).bind fun dst =>
        (strlen (fun address => src address.toNat) loop.i).map fun more => (loop.i + BitVec.ofNat 32 more, dst)

/-- `rawstrcpy`, with no result where something is stored behind `destSize` bytes. -/
def rawstrcpy (rounds : Nat) (dest src : Block) (destSize srcSize : Word) : Option Block :=
  let n := if srcSize < destSize then srcSize else destSize
  (copyLoop destSize src n rounds 0#32 dest).bind fun loop =>
    if loop.returned then some loop.dst else store destSize loop.dst loop.i 0#8

/-- The loop of `strncat`, which stores every character at the same place. -/
def appendLoop (src : Block) (n : Word) (destI : Nat) : Nat → Word → Block → Option Block
  | 0, _, _ => none
  | rounds + 1, i, dest =>
    if i < n then
      if src i.toNat = 0#8 then some dest
      else appendLoop src n destI rounds (i + 1#32) (Function.update dest destI (src i.toNat))
    else some dest

def strncat (rounds : Nat) (dest src : Block) (n : Word) : Option Block :=
  (strlen (fun address => dest address.toNat) 0#32).bind fun destI =>
    (appendLoop src n destI rounds 0#32 dest).map fun dest => Function.update dest destI 0#8

/-- What so many bytes hold of a string: it ends in them, or is cut off behind them. -/
structure RawString (src : Block) (most : Nat) (text : List Byte) : Prop where
  bytes : ∀ i (inside : i < text.length), src i = text[i]
  short : text.length ≤ most
  ends : text.length < most → src text.length = 0#8
  text : 0#8 ∉ text

/-- `strlcpy` stores nothing behind its `size` bytes, and the longest prefix of the string that fits, if anything does. -/
def CopiesPrefix (dst src : Block) (text : List Byte) (size : Word) : Prop :=
  ∃ rounds result dst', strlcpy rounds dst src size = some (result, dst') ∧
    (1#32 ≤ size → CString dst' (text.take (size.toNat - 1)))

/-- `rawstrcpy` does the same with what the source holds, which need not end. Its size counts a place for the end. -/
def CopiesRawPrefix (dest src : Block) (text : List Byte) (destSize : Word) (srcSize : Word) : Prop :=
  ∃ rounds dest', rawstrcpy rounds dest src destSize srcSize = some dest' ∧
    (1#32 ≤ destSize → CString dest' (text.take (destSize.toNat - 1)))

/-- `strncat` appends the first `n` characters. -/
def Concatenates (dest src : Block) (old text : List Byte) (n : Word) : Prop :=
  ∃ rounds dest', strncat rounds dest src n = some dest' ∧ CString dest' (old ++ text.take n.toNat)

/-! ## Copies -/

section Copies

variable {src dst dest old : Block} {text before : List Byte} {room n : Word}

theorem RawString.nonzero {most : Nat} (raw : RawString src most text) {i : Nat} (inside : i < text.length) :
    src i ≠ 0#8 := by
  rw [raw.bytes i inside]
  exact fun zero => raw.text (zero ▸ List.getElem_mem inside)

theorem rawString_of_string (string : CString src text) {most : Nat} (short : text.length ≤ most) :
    RawString src most text :=
  ⟨string.bytes, short, fun _ => string.ends, string.text⟩

theorem RawString.take {most : Nat} (raw : RawString src most text) (fewer : Nat) :
    RawString src (min fewer most) (text.take fewer) where
  bytes i inside := by
    rw [List.getElem_take]
    apply raw.bytes
  short := by
    have short := raw.short
    rw [List.length_take]
    omega
  ends less := by
    rw [List.length_take] at less ⊢
    rw [Nat.min_eq_right (by omega)]
    exact raw.ends (by omega)
  text member := raw.text (List.mem_of_mem_take member)

/-- The destination where so many bytes have been copied. -/
def copied (src dst : Block) (i : Nat) : Block := fun j => if j < i then src j else dst j

theorem copied_succ (src dst : Block) (i : Nat) : Function.update (copied src dst i) i (src i) = copied src dst (i + 1) := by
  funext j
  by_cases last : j = i
  · rw [last, Function.update_self, copied, if_pos (Nat.lt_succ_self i)]
  · rw [Function.update_of_ne last, copied, copied]
    simp only [show j < i + 1 ↔ j < i by omega]

theorem copied_string (dst : Block) {most : Nat} (raw : RawString src most text) :
    CString (Function.update (copied src dst text.length) text.length 0#8) text where
  bytes i inside := by rw [Function.update_of_ne (by omega), copied, if_pos inside, raw.bytes i inside]
  ends := Function.update_self ..
  text := raw.text

theorem toNat_pred (positive : n ≠ 0#32) : (n - 1#32).toNat = n.toNat - 1 :=
  toNat_sub_one (toNat_pos positive)

/-- The loop copies the string. It returns with the end of the string copied as well, unless it has come to its
bound. -/
theorem copyLoop_copies (dst : Block) (positive : n ≠ 0#32) (fits : n ≤ room) (raw : RawString src (n.toNat - 1) text) (left : Nat)
    {i : Word} {rounds : Nat} (rest : i.toNat + left = text.length) (enough : left < rounds) :
    copyLoop room src n rounds i (copied src dst i.toNat) =
      some (if text.length + 1 < n.toNat then ⟨true, BitVec.ofNat 32 text.length, copied src dst (text.length + 1)⟩
        else ⟨false, BitVec.ofNat 32 text.length, copied src dst text.length⟩) := by
  have bound := toNat_pred positive
  have short := raw.short
  rw [BitVec.le_def] at fits
  induction left generalizing i rounds with
  | zero =>
    obtain ⟨rounds, rfl⟩ := Nat.exists_eq_add_of_lt enough
    have place : i = BitVec.ofNat 32 text.length := by
      rw [← rest, Nat.add_zero, BitVec.ofNat_toNat, BitVec.setWidth_eq]
    rw [Nat.add_zero] at rest
    rw [copyLoop]
    by_cases more : text.length + 1 < n.toNat
    · have inside : i < n - 1#32 := by
        rw [BitVec.lt_def]
        omega
      have stored : i < room := by
        rw [BitVec.lt_def]
        omega
      have ends : src i.toNat = 0#8 := by
        rw [rest]
        exact raw.ends (by omega)
      rw [if_pos inside, store, if_pos stored, Option.bind_some, if_pos ends, if_pos more, copied_succ, rest, place]
    · have behind : ¬ i < n - 1#32 := by
        rw [BitVec.lt_def]
        omega
      rw [if_neg behind, if_neg more, rest, place]
  | succ left ih =>
    obtain ⟨rounds, rfl⟩ := Nat.exists_eq_add_of_lt enough
    have inside : i < n - 1#32 := by
      rw [BitVec.lt_def]
      omega
    have stored : i < room := by
      rw [BitVec.lt_def]
      omega
    have next : (i + 1#32).toNat = i.toNat + 1 := toNat_add_one (by omega)
    rw [copyLoop, if_pos inside, store, if_pos stored, Option.bind_some, if_neg (raw.nonzero (by omega)), copied_succ,
      ← next]
    exact ih (by omega) (by omega)

/-- A bound of 0 is none, and where there is no room already the first byte is stored outside. -/
theorem copyLoop_no_room (rounds : Nat) : copyLoop 0#32 src 0#32 rounds 0#32 dst = none := by
  cases rounds with
  | zero => rfl
  | succ rounds => rw [copyLoop, if_pos (by decide), store, if_neg (by decide), Option.bind_none]

theorem copied_ends {most : Nat} (raw : RawString src most text) (less : text.length < most) :
    copied src dst (text.length + 1) = Function.update (copied src dst text.length) text.length 0#8 := by
  rw [← copied_succ, raw.ends less]

/-- With the end that is stored behind the loop, the destination is the string. -/
theorem copyLoop_finishes (dst : Block) (positive : n ≠ 0#32) (fits : n ≤ room)
    (raw : RawString src (n.toNat - 1) text) :
    ∃ rounds loop dst', copyLoop room src n rounds 0#32 dst = some loop ∧ loop.i = BitVec.ofNat 32 text.length ∧
      (if loop.returned then some loop.dst else store room loop.dst loop.i 0#8) = some dst' ∧ CString dst' text := by
  have loop := copyLoop_copies (i := 0#32) dst positive fits raw text.length (Nat.zero_add _) (Nat.lt_succ_self _)
  have start : copied src dst (0#32).toNat = dst := funext fun j => if_neg (Nat.not_lt_zero j)
  have short := raw.short
  have small := n.isLt
  rw [start] at loop
  by_cases more : text.length + 1 < n.toNat
  · rw [if_pos more] at loop
    exact ⟨_, _, _, loop, rfl, by rw [if_pos rfl, copied_ends raw (by omega)], copied_string dst raw⟩
  · rw [if_neg more] at loop
    refine ⟨_, _, _, loop, rfl, ?_, copied_string dst raw⟩
    have place : (BitVec.ofNat 32 text.length).toNat = text.length := by
      rw [BitVec.toNat_ofNat]
      omega
    have positive' := toNat_pos positive
    have stored : BitVec.ofNat 32 text.length < room := by
      rw [BitVec.le_def] at fits
      rw [BitVec.lt_def, place]
      omega
    rw [if_neg Bool.false_ne_true, store, if_pos stored, place]

/-- What has been copied stays. -/
theorem copyLoop_keeps {rounds : Nat} {i : Word} {loop : CopyLoop} (ends : copyLoop room src n rounds i dst = some loop) :
    i.toNat ≤ loop.i.toNat ∧ ∀ j < i.toNat, loop.dst j = dst j := by
  induction rounds generalizing i dst with
  | zero => cases ends
  | succ rounds ih =>
    rw [copyLoop] at ends
    split at ends
    · next inside =>
      obtain ⟨dst', stored, ends⟩ := Option.bind_eq_some_iff.mp ends
      rw [store] at stored
      split at stored
      · obtain rfl := Option.some.inj stored
        split at ends
        · obtain rfl := Option.some.inj ends
          exact ⟨le_rfl, fun j early => Function.update_of_ne (by omega) ..⟩
        · have small := (n - 1#32).isLt
          rw [BitVec.lt_def] at inside
          have next : (i + 1#32).toNat = i.toNat + 1 := toNat_add_one (by omega)
          obtain ⟨behind, kept⟩ := ih ends
          rw [next] at behind kept
          refine ⟨by omega, fun j early => ?_⟩
          rw [kept j (by omega), Function.update_of_ne (by omega)]
      · cases stored
    · obtain rfl := Option.some.inj ends
      exact ⟨le_rfl, fun _ _ => rfl⟩

theorem copiesPrefix_iff (string : CString src text) (short : text.length < 2 ^ 32) {size : Word} :
    CopiesPrefix dst src text size ↔ size ≠ 0#32 := by
  constructor
  · rintro ⟨rounds, result, dst', ends, -⟩ rfl
    rw [strlcpy, copyLoop_no_room, Option.bind_none] at ends
    cases ends
  · intro positive
    have nonzero := toNat_pos positive
    have whole := rawString_of_string string (Nat.le_add_right text.length (size.toNat - 1))
    have raw := whole.take (size.toNat - 1)
    rw [Nat.min_eq_left (by omega)] at raw
    obtain ⟨rounds, loop, dst', runs, place, ended, copy⟩ := copyLoop_finishes dst positive (BitVec.le_refl size) raw
    rw [CopiesPrefix]
    cases returned : loop.returned with
    | true =>
      rw [returned, if_pos rfl] at ended
      obtain rfl := Option.some.inj ended
      refine ⟨rounds, loop.i, loop.dst, ?_, fun _ => copy⟩
      rw [strlcpy, runs, Option.bind_some, if_pos returned]
    | false =>
      rw [returned, if_neg Bool.false_ne_true] at ended
      have ends : src (loop.i + BitVec.ofNat 32 (text.length - (text.take (size.toNat - 1)).length)).toNat = 0#8 := by
        rw [place, ← BitVec.ofNat_add, Nat.add_sub_cancel' (List.length_take_le' ..), BitVec.toNat_ofNat,
          Nat.mod_eq_of_lt short]
        exact string.ends
      obtain ⟨more, -, counted⟩ := @strlen_of_zero (fun address => src address.toNat) _ _ ends (by omega)
      refine ⟨rounds, loop.i + BitVec.ofNat 32 more, dst', ?_, fun _ => copy⟩
      rw [strlcpy, runs, Option.bind_some, returned, if_neg Bool.false_ne_true, ended, Option.bind_some, counted,
        Option.map_some]

/-- A source of no bytes bounds nothing: a first character is copied, if there is one, and stays. -/
theorem rawstrcpy_first {destSize : Word} {rounds : Nat} {dest' : Block} (positive : destSize ≠ 0#32)
    (proper : src 0 ≠ 0#8) (copies : rawstrcpy rounds dest src destSize 0#32 = some dest') : dest' 0 = src 0 := by
  have room : 0#32 < destSize := BitVec.lt_of_le_ne (Nat.zero_le _) positive.symm
  obtain ⟨loop, runs, ends⟩ := Option.bind_eq_some_iff.mp copies
  rw [if_pos room] at runs
  cases rounds with
  | zero => cases runs
  | succ rounds =>
    rw [copyLoop, if_pos (by decide), store, if_pos room, Option.bind_some, BitVec.toNat_zero,
      if_neg proper] at runs
    obtain ⟨behind, kept⟩ := copyLoop_keeps runs
    have first := kept 0 (by decide)
    rw [Function.update_self] at first
    split at ends
    · rw [← Option.some.inj ends, first]
    · rw [store] at ends
      split at ends
      · have apart : 0 ≠ loop.i.toNat := by
          rw [BitVec.zero_add, show (1#32).toNat = 1 from rfl] at behind
          omega
        rw [← Option.some.inj ends, Function.update_of_ne apart, first]
      · cases ends

/-- What both sizes have room for is copied. -/
theorem rawstrcpy_copies {destSize srcSize : Word} (room : destSize ≠ 0#32) (some : srcSize ≠ 0#32)
    (raw : RawString src (srcSize.toNat - 1) text) : CopiesRawPrefix dest src text destSize srcSize := by
  have least : (if srcSize < destSize then srcSize else destSize).toNat = min srcSize.toNat destSize.toNat := by
    simp only [BitVec.lt_def]
    split <;> omega
  have positive : (if srcSize < destSize then srcSize else destSize) ≠ 0#32 := by
    split <;> assumption
  have fits : (if srcSize < destSize then srcSize else destSize) ≤ destSize := by
    rw [BitVec.le_def]
    omega
  have shorter := raw.take (destSize.toNat - 1)
  rw [show min (destSize.toNat - 1) (srcSize.toNat - 1) =
    (if srcSize < destSize then srcSize else destSize).toNat - 1 by omega] at shorter
  obtain ⟨rounds, loop, dest', runs, -, ended, copy⟩ := copyLoop_finishes dest positive fits shorter
  refine ⟨rounds, dest', ?_, fun _ => copy⟩
  rw [rawstrcpy, runs, Option.bind_some, ended]

theorem rawstrcpy_no_room (rounds : Nat) (dest src : Block) (srcSize : Word) :
    rawstrcpy rounds dest src 0#32 srcSize = none := by
  have bound : (if srcSize < 0#32 then srcSize else 0#32) = 0#32 := if_neg (Nat.not_lt_zero _)
  rw [rawstrcpy, bound, copyLoop_no_room, Option.bind_none]

theorem copiesRawPrefix_iff {destSize srcSize : Word} (raw : RawString src (srcSize.toNat - 1) text) :
    CopiesRawPrefix dest src text destSize srcSize ↔ destSize ≠ 0#32 ∧ (srcSize ≠ 0#32 ∨ src 0 = 0#8) := by
  have empty (none : srcSize = 0#32) : text = [] := by
    subst none
    exact List.eq_nil_of_length_eq_zero (Nat.le_zero.mp raw.short)
  constructor
  · rintro ⟨rounds, dest', ends, copy⟩
    have room : destSize ≠ 0#32 := by
      rintro rfl
      rw [rawstrcpy_no_room] at ends
      cases ends
    refine ⟨room, ?_⟩
    by_contra unbounded
    obtain ⟨none, proper⟩ := not_or.mp unbounded
    rw [not_not] at none
    have string := copy (BitVec.le_def.mpr (toNat_pos room))
    rw [empty none, List.take_nil] at string
    rw [none] at ends
    have first := rawstrcpy_first room proper ends
    exact proper (first ▸ string.ends)
  · rintro ⟨room, bounded⟩
    by_cases none : srcSize = 0#32
    · have zero := bounded.resolve_left (not_not.mpr none)
      have positive : 0#32 < destSize := BitVec.lt_of_le_ne (Nat.zero_le _) room.symm
      refine ⟨1, Function.update dest 0 0#8, ?_, fun _ => ?_⟩
      · simp [rawstrcpy, none, copyLoop, store, positive, zero]
      · rw [empty none, List.take_nil]
        exact ⟨fun i inside => absurd inside (Nat.not_lt_zero i), Function.update_self .., List.not_mem_nil⟩
    · exact rawstrcpy_copies room none raw

end Copies

/-! ## Appending -/

section Appending

variable {src dest : Block} {text old : List Byte} {n : Word}

/-- All that the loop changes is the one byte. -/
theorem appendLoop_same {destI rounds : Nat} {i : Word} {dest' : Block}
    (ends : appendLoop src n destI rounds i dest = some dest') (c : Byte) :
    Function.update dest' destI c = Function.update dest destI c := by
  induction rounds generalizing i dest with
  | zero => cases ends
  | succ rounds ih =>
    rw [appendLoop] at ends
    split at ends
    · split at ends
      · rw [Option.some.inj ends]
      · rw [ih ends, Function.update_idem]
    · rw [Option.some.inj ends]

theorem appendLoop_ends (src : Block) (destI left : Nat) {i : Word} (rest : i.toNat + left = n.toNat) (dest : Block) :
    ∃ dest', appendLoop src n destI (left + 1) i dest = some dest' := by
  induction left generalizing i dest with
  | zero =>
    have behind : ¬ i < n := by
      rw [BitVec.lt_def]
      omega
    exact ⟨dest, by rw [appendLoop, if_neg behind]⟩
  | succ left ih =>
    have small := n.isLt
    have inside : i < n := by
      rw [BitVec.lt_def]
      omega
    rw [appendLoop, if_pos inside]
    split
    · exact ⟨dest, rfl⟩
    · apply ih
      rw [toNat_add_one (by omega)]
      omega

/-- Whatever it is to append, `strncat` leaves the destination as it is. -/
theorem strncat_same (string : CString dest old) (short : old.length < 2 ^ 32) (src : Block) (n : Word) :
    (∃ rounds, strncat rounds dest src n = some dest) ∧
      ∀ rounds dest', strncat rounds dest src n = some dest' → dest' = dest := by
  have measured := string.strlen_iff.mpr ⟨rfl, short⟩
  have same {dest' : Block} {rounds : Nat} (ends : appendLoop src n old.length rounds 0#32 dest = some dest') :
      Function.update dest' old.length 0#8 = dest := by
    rw [appendLoop_same ends, ← string.ends, Function.update_eq_self]
  constructor
  · obtain ⟨dest', ends⟩ := appendLoop_ends src old.length n.toNat (n := n) (i := 0#32) (by simp) dest
    refine ⟨n.toNat + 1, ?_⟩
    rw [strncat, measured, Option.bind_some, ends, Option.map_some, same ends]
  · intro rounds dest' ends
    rw [strncat, measured, Option.bind_some] at ends
    obtain ⟨appended, appends, rfl⟩ := Option.map_eq_some_iff.mp ends
    exact same appends

theorem concatenates_iff (string : CString dest old) (short : old.length < 2 ^ 32) :
    Concatenates dest src old text n ↔ n = 0#32 ∨ text = [] := by
  obtain ⟨⟨rounds, ends⟩, same⟩ := strncat_same string short src n
  have nothing : text.take n.toNat = [] ↔ n = 0#32 ∨ text = [] := by
    rw [List.take_eq_nil_iff, ← BitVec.toNat_inj]
    simp
  rw [← nothing]
  constructor
  · rintro ⟨rounds, dest', ends, longer⟩
    rw [same rounds dest' ends] at longer
    by_contra more
    have inside : old.length < (old ++ text.take n.toNat).length := by
      have positive := List.length_pos_iff.mpr more
      rw [List.length_append]
      omega
    exact longer.nonzero inside string.ends
  · intro none
    rw [Concatenates, none, List.append_nil]
    exact ⟨rounds, dest, ends, string⟩

end Appending

/-- `strlcpy` needs a size that is not 0, and so does `rawstrcpy`, which also takes a source of size 0 for one without
a bound. `strncat` appends nothing. -/
theorem bounded_copies_iff {dst src raw old : Block} {text rawText oldText : List Byte} (size : Word)
    {destSize srcSize : Word} (n : Word) (string : CString src text) (short : text.length < 2 ^ 32)
    (rawString : RawString raw (srcSize.toNat - 1) rawText) (oldString : CString old oldText)
    (oldShort : oldText.length < 2 ^ 32) :
    (CopiesPrefix dst src text size ↔ size ≠ 0#32) ∧
      (CopiesRawPrefix dst raw rawText destSize srcSize ↔ destSize ≠ 0#32 ∧ (srcSize ≠ 0#32 ∨ raw 0 = 0#8)) ∧
      (Concatenates old src oldText text n ↔ n = 0#32 ∨ text = []) :=
  ⟨copiesPrefix_iff string short, copiesRawPrefix_iff rawString, concatenates_iff oldString oldShort⟩

theorem empty_string : CString (fun _ => 0#8) [] :=
  ⟨fun i inside => absurd inside (Nat.not_lt_zero i), rfl, List.not_mem_nil⟩

/-- Two letters where there is room for one. -/
theorem letters_copied : CopiesPrefix (fun _ => 1#8) (fun i => [0x61#8, 0x62#8].getD i 0#8) [0x61#8, 0x62#8] 2#32 ∧
    CopiesRawPrefix (fun _ => 1#8) (fun i => [0x61#8, 0x62#8].getD i 0#8) [0x61#8, 0x62#8] 2#32 3#32 ∧
    ¬ Concatenates (fun _ => 0#8) (fun i => [0x61#8, 0x62#8].getD i 0#8) [] [0x61#8, 0x62#8] 1#32 := by
  have string : CString (fun i => [0x61#8, 0x62#8].getD i 0#8) [0x61#8, 0x62#8] := string_getD (by decide)
  have raw : RawString (fun i => [0x61#8, 0x62#8].getD i 0#8) ((3#32).toNat - 1) [0x61#8, 0x62#8] :=
    rawString_of_string string (Nat.le_refl 2)
  obtain ⟨copies, copiesRaw, concatenates⟩ :=
    bounded_copies_iff 2#32 1#32 string (by decide) raw empty_string (by decide)
  exact ⟨copies.mpr (by decide), copiesRaw.mpr (by decide), fun right => absurd (concatenates.mp right) (by decide)⟩

/-- With a size of 0 something is stored, a source of size 0 is copied, and one letter that is appended to none is
lost. -/
theorem letter_misplaced : CString (fun i => [0x61#8].getD i 0#8) [0x61#8] ∧
    RawString (fun i => [0x61#8].getD i 0#8) ((0#32).toNat - 1) [] ∧ CString (fun _ => 0#8) [] ∧
    ¬ CopiesPrefix (fun _ => 1#8) (fun i => [0x61#8].getD i 0#8) [0x61#8] 0#32 ∧
    ¬ CopiesRawPrefix (fun _ => 1#8) (fun i => [0x61#8].getD i 0#8) [] 2#32 0#32 ∧
    ¬ Concatenates (fun _ => 0#8) (fun i => [0x61#8].getD i 0#8) [] [0x61#8] 1#32 := by
  have string : CString (fun i => [0x61#8].getD i 0#8) [0x61#8] := string_getD (by decide)
  have raw : RawString (fun i => [0x61#8].getD i 0#8) ((0#32).toNat - 1) [] :=
    ⟨fun i inside => absurd inside (Nat.not_lt_zero i), le_rfl, fun less => absurd less (Nat.lt_irrefl 0),
      List.not_mem_nil⟩
  refine ⟨string, raw, empty_string, ?_, ?_, ?_⟩
  · rw [copiesPrefix_iff string (by decide)]
    decide
  · rw [copiesRawPrefix_iff raw]
    decide
  · rw [concatenates_iff empty_string (by decide)]
    decide

end FluxOS.Cstring
