import FluxOS.UserStrings

/-! The kernel's copy of a string of a process, `UserString`. The window that is
checked for the length is `maxBufLen` bytes, the one for the short copy always 64
bytes, and the length itself is measured without a bound. -/
namespace FluxOS.UserMemoryOps
open Words

/-- Whether `malloc` has so many bytes. -/
abbrev Grants := Nat → Bool

/-- `strndup`: the new block, or NULL. -/
def strndup (heap : Grants) (mem : Memory) (s n : Word) : Option (Option (List Byte)) :=
  (strlen mem s).map fun slen =>
    let minLen := if n.toNat > slen then slen else n.toNat
    if heap (minLen + 1) then some (copyOut mem s minLen ++ [0#8]) else none

/-- `strndupUser`: the result and what is in `*newString`. -/
def strndupUser (heap : Grants) (mem : Memory) (s maxsize : Word) : Option (Word × Option (List Byte)) :=
  if canReadUserMemory s maxsize then (strndup heap mem s maxsize).map fun newString => (0#32, newString)
  else some (fault, none)

/-- `m_buf` with what it points to, `m_len` and the bytes of `m_smallBuf`. -/
structure UserString where
  mBuf : Option (List Byte)
  mLen : Word
  mSmallBuf : List Byte

namespace UserString

/-- The constructor. `smallBuf` is where the object has its `m_smallBuf`; until it is
copied to, it holds what is in memory there. -/
def construct (heap : Grants) (mem : Memory) (smallBuf user maxBufLen : Word) : Option UserString :=
  (strnlenUser mem user maxBufLen).bind fun mLen =>
    if mLen.slt 0#32 then some ⟨none, mLen, copyOut mem smallBuf 64⟩
    else if mLen.slt 64#32 then
      let (ret, mem) := strncpyFromUser mem smallBuf user 64#32
      some ⟨none, if ret.slt 0#32 then ret else mLen, copyOut mem smallBuf 64⟩
    else
      let dupSize := if mLen.slt maxBufLen then mLen else maxBufLen
      (strndupUser heap mem user dupSize).map fun (ret, mBuf) =>
        ⟨mBuf, if ret.slt 0#32 then ret else mLen, copyOut mem smallBuf 64⟩

def isValid (s : UserString) : Bool := !s.mLen.slt 0#32

def len (s : UserString) : Int := s.mLen.toInt

def data (s : UserString) : List Byte := s.mBuf.getD s.mSmallBuf

end UserString

/-- The string a buffer holds, if it ends in the buffer. -/
def contents (buffer : List Byte) : Option (List Byte) :=
  if 0#8 ∈ buffer then some (buffer.takeWhile (· ≠ 0#8)) else none

/-- A string shorter than `maxBufLen` is copied, any other one is refused, and a copy is
never said to be longer or shorter than it is. -/
structure CopiesRightly (chars : List Byte) (maxBufLen : Word) (s : UserString) : Prop where
  copied : chars.length < maxBufLen.toNat → s.isValid ∧ contents s.data = some chars ∧ s.len = chars.length
  refused : maxBufLen.toNat ≤ chars.length → s.isValid = false
  measured : s.isValid → ∃ str, contents s.data = some str ∧ s.len = str.length

/-- The 32-bit sum that `canReadUserMemory` compares stays in user space. -/
def WindowFits (user : Word) (size : Nat) : Prop := (user.toNat + size) % 2 ^ 32 ≤ userspaceHiAddr.toNat

instance (user : Word) (size : Nat) : Decidable (WindowFits user size) := inferInstanceAs (Decidable (_ ≤ _))

/-- The strings that are copied or refused as they should be. A short one needs its
windows in user space, a long one gets through unless the copy of 64 bytes fails. -/
def ConstructedRightly (heap : Grants) (user : Word) (length : Nat) (maxBufLen : Word) : Prop :=
  if length < maxBufLen.toNat then
    WindowFits user maxBufLen.toNat ∧ (length < 64 → WindowFits user 64) ∧ (64 ≤ length → heap (length + 1))
  else 2 ^ 31 ≤ length ∨ length < 64 ∧ ¬ WindowFits user 64

section Copies
variable {mem : Memory} {user : Word} {chars : List Byte}

theorem copyOut_add (mem : Memory) (src : Word) (size more : Nat) :
    copyOut mem src (size + more) = copyOut mem src size ++ copyOut mem (src + BitVec.ofNat 32 size) more := by
  simp only [copyOut, List.range_add, List.map_append, List.map_map, List.append_cancel_left_eq]
  refine List.map_congr_left fun i _ => ?_
  rw [Function.comp_apply, BitVec.ofNat_add, BitVec.add_assoc]

/-- A zero ends the string, whatever follows it. -/
theorem takeWhile_string (proper : ∀ c ∈ chars, c ≠ 0#8) (rest : List Byte) :
    (chars ++ 0#8 :: rest).takeWhile (· ≠ 0#8) = chars := by
  rw [List.takeWhile_append_of_pos (by simpa using proper)]
  simp

theorem contents_string (proper : ∀ c ∈ chars, c ≠ 0#8) (rest : List Byte) :
    contents (chars ++ 0#8 :: rest) = some chars := by
  rw [contents, if_pos (by simp), takeWhile_string proper]

/-- The string in a buffer is shorter than the buffer. -/
theorem length_lt_of_contents {buffer str : List Byte} (held : contents buffer = some str) :
    str.length < buffer.length := by
  unfold contents at held
  split at held
  · rename_i ends
    cases held
    refine Nat.lt_of_le_of_ne (List.takeWhile_sublist _).length_le fun whole => ?_
    have same := (List.takeWhile_sublist _).eq_of_length whole
    have all := @List.all_takeWhile Byte (fun c => decide (c ≠ 0#8)) buffer
    rw [same] at all
    exact absurd (List.all_eq_true.mp all 0#8 ends) (by decide)
  · cases held

/-- `strncpy` of more bytes than the string has. -/
theorem contents_strncpyBytes (string : IsString mem user chars) {n : Nat} (short : chars.length < n) :
    contents (strncpyBytes mem user n) = some chars := by
  obtain ⟨more, rfl⟩ := Nat.exists_eq_add_of_lt short
  have taken : (copyOut mem user (chars.length + more + 1)).takeWhile (· ≠ 0#8) = chars := by
    rw [Nat.add_right_comm, copyOut_add, string.copyOut, List.append_assoc]
    exact takeWhile_string string.proper _
  rw [strncpyBytes, taken, show chars.length + more + 1 - chars.length = more + 1 by omega, List.replicate_succ]
  exact contents_string string.proper _

theorem canReadUserMemory_iff (low : userspaceLowAddr.toNat ≤ user.toNat) (size : Word) :
    canReadUserMemory user size = true ↔ WindowFits user size.toNat := by
  have checked := canWriteUserMemory_iff user size
  exact checked.trans (and_iff_right low)

theorem length_copyOut (mem : Memory) (src : Word) (size : Nat) : (copyOut mem src size).length = size := by
  simp [copyOut]

theorem length_strncpyBytes (mem : Memory) (src : Word) (n : Nat) : (strncpyBytes mem src n).length = n := by
  rw [strncpyBytes, List.length_append, List.length_replicate]
  have within := (List.takeWhile_sublist (· ≠ 0#8) (l := copyOut mem src n)).length_le
  exact Nat.add_sub_cancel' (Nat.le_trans within (Nat.le_of_eq (length_copyOut mem src n)))

end Copies

/-! ## The constructor -/

section Constructor
variable {heap : Grants} {mem : Memory} {smallBuf user maxBufLen : Word} {chars : List Byte}

open UserString

/-- An error is what the object keeps. -/
theorem not_isValid_fault (mBuf : Option (List Byte)) (bytes : List Byte) :
    (⟨mBuf, fault, bytes⟩ : UserString).isValid = false := by
  rw [isValid, fault_negative]
  rfl

/-- A window that is not in user space. -/
theorem construct_unreadable (heap : Grants) (smallBuf : Word) (low : userspaceLowAddr.toNat ≤ user.toNat)
    (string : IsString mem user chars) (outside : ¬ WindowFits user maxBufLen.toNat) :
    ∃ s, construct heap mem smallBuf user maxBufLen = some s ∧ s.isValid = false := by
  have unread : ¬ canReadUserMemory user maxBufLen = true := fun reads =>
    outside ((canReadUserMemory_iff low maxBufLen).mp reads)
  refine ⟨_, ?_, not_isValid_fault none (copyOut mem smallBuf 64)⟩
  rw [construct, strnlenUser_eq string, if_neg unread, Option.bind_some, fault_negative]
  rfl

/-- A string whose length is negative as an `int`. -/
theorem construct_huge (heap : Grants) (smallBuf : Word) (low : userspaceLowAddr.toNat ≤ user.toNat)
    (string : IsString mem user chars) (inside : WindowFits user maxBufLen.toNat) (huge : 2 ^ 31 ≤ chars.length) :
    ∃ s, construct heap mem smallBuf user maxBufLen = some s ∧ s.isValid = false := by
  have reads := (canReadUserMemory_iff low maxBufLen).mpr inside
  have negative : (BitVec.ofNat 32 chars.length).slt 0#32 = true := by
    have fits := string.fits
    rw [slt_zero_ofNat (by omega)]
    exact decide_eq_true huge
  refine ⟨⟨none, BitVec.ofNat 32 chars.length, copyOut mem smallBuf 64⟩, ?_, by rw [isValid, negative]; rfl⟩
  rw [construct, strnlenUser_eq string, if_pos reads, Option.bind_some, negative]
  rfl

theorem slt_ofNat {n : Nat} (small : n < 2 ^ 31) {bound : Word} (nonneg : bound.toNat < 2 ^ 31) :
    (BitVec.ofNat 32 n).slt bound = decide (n < bound.toNat) := by
  rw [BitVec.slt, BitVec.toInt_eq_toNat_of_lt (by rw [BitVec.toNat_ofNat]; omega),
    BitVec.toInt_eq_toNat_of_lt (by omega), BitVec.toNat_ofNat, Nat.mod_eq_of_lt (by omega)]
  simp

theorem toInt_ofNat {n : Nat} (small : n < 2 ^ 31) : (BitVec.ofNat 32 n).toInt = n := by
  rw [BitVec.toInt_eq_toNat_of_lt (by rw [BitVec.toNat_ofNat]; omega), BitVec.toNat_ofNat, Nat.mod_eq_of_lt (by omega)]

/-- A string that the small buffer holds. -/
theorem construct_short (heap : Grants) (smallBuf : Word) (low : userspaceLowAddr.toNat ≤ user.toNat)
    (string : IsString mem user chars) (inside : WindowFits user maxBufLen.toNat) (short : chars.length < 64) :
    ∃ s, construct heap mem smallBuf user maxBufLen = some s ∧
      (¬ WindowFits user 64 → s.isValid = false) ∧
      (WindowFits user 64 → s.isValid = true ∧ contents s.data = some chars ∧ s.len = chars.length) := by
  have reads := (canReadUserMemory_iff low maxBufLen).mpr inside
  have notNegative : (BitVec.ofNat 32 chars.length).slt 0#32 = false := by
    rw [slt_ofNat (by omega) (by decide)]
    simp
  have below : (BitVec.ofNat 32 chars.length).slt 64#32 = true := by
    rw [slt_ofNat (by omega) (by decide)]
    exact decide_eq_true short
  have started : construct heap mem smallBuf user maxBufLen =
      some ⟨none, if (strncpyFromUser mem smallBuf user 64#32).1.slt 0#32
        then (strncpyFromUser mem smallBuf user 64#32).1 else BitVec.ofNat 32 chars.length, copyOut (strncpyFromUser mem smallBuf user 64#32).2 smallBuf 64⟩ := by
    rw [construct, strnlenUser_eq string, if_pos reads, Option.bind_some, notNegative, below]
    rfl
  refine ⟨_, started, fun outside => ?_, fun fits => ?_⟩
  · have unread : ¬ canReadUserMemory user 64#32 = true := fun reads =>
      outside ((canReadUserMemory_iff low 64#32).mp reads)
    rw [strncpyFromUser, if_neg unread]
    exact not_isValid_fault none _
  · have readable := (canReadUserMemory_iff low 64#32).mpr fits
    rw [strncpyFromUser, if_pos readable]
    have copied : copyOut (storeBytes mem smallBuf (strncpyBytes mem user 64)) smallBuf 64 =
        strncpyBytes mem user 64 := by
      have length := length_strncpyBytes mem user 64
      have stored : Reads (storeBytes mem smallBuf (strncpyBytes mem user 64)) smallBuf (strncpyBytes mem user 64) :=
        reads_storeBytes (by omega)
      have read := copyOut_of_reads stored
      rwa [length] at read
    refine ⟨by rw [isValid]; simpa using notNegative, ?_, toInt_ofNat (by omega)⟩
    rw [data]
    exact (congrArg contents copied).trans (contents_strncpyBytes string short)

/-- A string for the heap: what the object says is its length, whatever was copied. -/
theorem construct_long (heap : Grants) (smallBuf : Word) (low : userspaceLowAddr.toNat ≤ user.toNat)
    (string : IsString mem user chars) (high : user.toNat + chars.length ≤ userspaceHiAddr.toNat)
    (nonneg : maxBufLen.toNat < 2 ^ 31)
    (inside : WindowFits user maxBufLen.toNat) (long : 64 ≤ chars.length) (small : chars.length < 2 ^ 31) :
    ∃ s, construct heap mem smallBuf user maxBufLen = some s ∧ s.isValid = true ∧ s.len = chars.length ∧
      (chars.length < maxBufLen.toNat →
        s.data = if heap (chars.length + 1) then chars ++ [0#8] else copyOut mem smallBuf 64) := by
  have reads := (canReadUserMemory_iff low maxBufLen).mpr inside
  have notNegative : (BitVec.ofNat 32 chars.length).slt 0#32 = false := by
    rw [slt_ofNat small (by decide)]
    simp
  have notBelow : (BitVec.ofNat 32 chars.length).slt 64#32 = false := by
    rw [slt_ofNat small (by decide)]
    exact decide_eq_false (Nat.not_lt.mpr long)
  obtain ⟨dupSize, dupIs⟩ : ∃ dupSize,
      (if (BitVec.ofNat 32 chars.length).slt maxBufLen then BitVec.ofNat 32 chars.length else maxBufLen) = dupSize :=
    ⟨_, rfl⟩
  have dupAtMost : dupSize.toNat = min chars.length maxBufLen.toNat := by
    rw [← dupIs, slt_ofNat small nonneg]
    by_cases below : chars.length < maxBufLen.toNat
    · rw [decide_eq_true below, if_pos rfl, BitVec.toNat_ofNat]
      omega
    · rw [decide_eq_false below, if_neg (by decide)]
      omega
  have top := toNat_userspaceHiAddr
  have dupReads : canReadUserMemory user dupSize = true := by
    rw [canReadUserMemory_iff low, WindowFits]
    omega
  have started : construct heap mem smallBuf user maxBufLen = some
      ⟨if heap (dupSize.toNat + 1) then some (copyOut mem user dupSize.toNat ++ [0#8]) else none,
        BitVec.ofNat 32 chars.length, copyOut mem smallBuf 64⟩ := by
    rw [construct, strnlenUser_eq string, if_pos reads, Option.bind_some, notNegative, notBelow, if_neg (by decide),
      if_neg (by decide)]
    simp only [dupIs, strndupUser, if_pos dupReads, strndup, string.strlen, Option.map_some,
      if_neg (show ¬ dupSize.toNat > chars.length by omega)]
    rfl
  refine ⟨_, started, by rw [isValid]; simpa using notNegative, toInt_ofNat small, fun below => ?_⟩
  have whole : dupSize.toNat = chars.length := by omega
  have copied : copyOut mem user chars.length = chars := by
    have bytes := (reads_append.mp string.reads).1
    exact copyOut_of_reads bytes
  rw [data, whole, copied]
  by_cases granted : heap (chars.length + 1) = true
  · rw [if_pos granted, if_pos granted]
    rfl
  · rw [if_neg granted, if_neg granted]
    rfl

/-- An object that is not valid is right for strings that are too long only. -/
theorem copiesRightly_invalid {s : UserString} (invalid : s.isValid = false) :
    CopiesRightly chars maxBufLen s ↔ maxBufLen.toNat ≤ chars.length := by
  constructor
  · intro right
    by_contra short
    have copied := (right.copied (Nat.lt_of_not_le short)).1
    rw [invalid] at copied
    cases copied
  · intro long
    refine ⟨fun short => absurd long (Nat.not_le.mpr short), fun _ => invalid, fun valid => ?_⟩
    rw [invalid] at valid
    cases valid

/-- A valid object is right for strings that are short enough only, and holds them. -/
theorem copiesRightly_valid {s : UserString} (valid : s.isValid = true) (len : s.len = chars.length) :
    CopiesRightly chars maxBufLen s ↔ chars.length < maxBufLen.toNat ∧ contents s.data = some chars := by
  constructor
  · intro right
    have short : chars.length < maxBufLen.toNat := by
      by_contra long
      have refused := right.refused (Nat.le_of_not_lt long)
      rw [valid] at refused
      cases refused
    exact ⟨short, (right.copied short).2.1⟩
  · rintro ⟨short, held⟩
    exact ⟨fun _ => ⟨valid, held, len⟩, fun long => absurd short (Nat.not_lt.mpr long), fun _ => ⟨chars, held, len⟩⟩

/-- The one object that is constructed. -/
theorem exists_construct_iff {s : UserString} (started : construct heap mem smallBuf user maxBufLen = some s) :
    (∃ s, construct heap mem smallBuf user maxBufLen = some s ∧ CopiesRightly chars maxBufLen s) ↔
      CopiesRightly chars maxBufLen s := by
  simp only [started, Option.some.injEq, exists_eq_left']

theorem short_copied_iff (heap : Grants) (smallBuf : Word) (low : userspaceLowAddr.toNat ≤ user.toNat)
    (string : IsString mem user chars) (inside : WindowFits user maxBufLen.toNat) (short : chars.length < 64) :
    (∃ s, construct heap mem smallBuf user maxBufLen = some s ∧ CopiesRightly chars maxBufLen s) ↔
      if chars.length < maxBufLen.toNat then WindowFits user 64 else ¬ WindowFits user 64 := by
  obtain ⟨s, started, refused, copied⟩ := construct_short heap smallBuf low string inside short
  rw [exists_construct_iff started]
  by_cases fits : WindowFits user 64
  · obtain ⟨valid, held, len⟩ := copied fits
    rw [copiesRightly_valid valid len]
    split
    · rename_i below
      exact ⟨fun _ => fits, fun _ => ⟨below, held⟩⟩
    · rename_i above
      exact ⟨fun both => absurd both.1 above, fun outside => absurd fits outside⟩
  · rw [copiesRightly_invalid (refused fits)]
    split
    · rename_i below
      exact ⟨fun above => by omega, fun window => absurd window fits⟩
    · rename_i above
      exact ⟨fun _ => fits, fun _ => Nat.le_of_not_lt above⟩

theorem long_copied_iff (heap : Grants) (smallBuf : Word) (low : userspaceLowAddr.toNat ≤ user.toNat)
    (string : IsString mem user chars) (high : user.toNat + chars.length ≤ userspaceHiAddr.toNat)
    (nonneg : maxBufLen.toNat < 2 ^ 31) (inside : WindowFits user maxBufLen.toNat) (long : 64 ≤ chars.length)
    (small : chars.length < 2 ^ 31) :
    (∃ s, construct heap mem smallBuf user maxBufLen = some s ∧ CopiesRightly chars maxBufLen s) ↔
      chars.length < maxBufLen.toNat ∧ heap (chars.length + 1) = true := by
  obtain ⟨s, started, valid, len, held⟩ := construct_long heap smallBuf low string high nonneg inside long small
  rw [exists_construct_iff started, copiesRightly_valid valid len]
  refine and_congr_right fun below => ?_
  rw [held below]
  by_cases granted : heap (chars.length + 1) = true
  · rw [if_pos granted]
    exact ⟨fun _ => granted, fun _ => contents_string string.proper []⟩
  · -- what is left in the buffer is shorter than the string
    rw [if_neg granted]
    refine ⟨fun garbage => ?_, fun some => absurd some granted⟩
    have bound := length_lt_of_contents garbage
    rw [length_copyOut] at bound
    omega

/-- **`UserString` is right** about exactly these strings. -/
theorem copies_rightly_iff (heap : Grants) (smallBuf : Word) (low : userspaceLowAddr.toNat ≤ user.toNat)
    (string : IsString mem user chars) (high : user.toNat + chars.length ≤ userspaceHiAddr.toNat)
    (nonneg : maxBufLen.toNat < 2 ^ 31) :
    (∃ s, construct heap mem smallBuf user maxBufLen = some s ∧ CopiesRightly chars maxBufLen s) ↔
      ConstructedRightly heap user chars.length maxBufLen := by
  have top := toNat_userspaceHiAddr
  rw [ConstructedRightly]
  by_cases inside : WindowFits user maxBufLen.toNat
  · rcases Nat.lt_or_ge chars.length (2 ^ 31) with small | huge
    · rcases Nat.lt_or_ge chars.length 64 with short | long
      · rw [short_copied_iff heap smallBuf low string inside short]
        split
        · exact ⟨fun fits => ⟨inside, fun _ => fits, fun long => by omega⟩, fun all => all.2.1 short⟩
        · exact ⟨fun outside => .inr ⟨short, outside⟩, fun either => either.elim (fun huge => by omega) And.right⟩
      · rw [long_copied_iff heap smallBuf low string high nonneg inside long small]
        split
        · rename_i below
          exact ⟨fun both => ⟨inside, fun short => by omega, fun _ => both.2⟩, fun all => ⟨below, all.2.2 long⟩⟩
        · rename_i above
          exact ⟨fun both => absurd both.1 above,
            fun either => either.elim (fun huge => by omega) fun both => by omega⟩
    · obtain ⟨s, started, invalid⟩ := construct_huge heap smallBuf low string inside huge
      rw [exists_construct_iff started, copiesRightly_invalid invalid, if_neg (by omega)]
      exact ⟨fun _ => .inl huge, fun _ => by omega⟩
  · obtain ⟨s, started, invalid⟩ := construct_unreadable heap smallBuf low string inside
    rw [exists_construct_iff started, copiesRightly_invalid invalid]
    -- the window reaches further than the string
    have below : chars.length < maxBufLen.toNat := by
      by_contra above
      refine inside ?_
      rw [WindowFits]
      omega
    rw [if_pos below]
    exact ⟨fun above => by omega, fun all => absurd all.1 inside⟩

end Constructor

/-- A string of one letter, far from the end of user space. -/
def letterAt (place : Word) : Memory := Function.update (fun _ => 0#8) place 0x61#8

theorem isString_letter (place : Word) (fits : place.toNat + 1 < 2 ^ 32) :
    IsString (letterAt place) place [0x61#8] := by
  refine ⟨fun i inside => ?_, by simp, by simpa using fits⟩
  rw [List.length_append, List.length_singleton, List.length_singleton] at inside
  obtain rfl | rfl : i = 0 ∨ i = 1 := by omega
  · simp [letterAt]
  · rw [letterAt, Function.update_of_ne]
    · rfl
    · intro same
      have value := congrArg BitVec.toNat same
      rw [BitVec.toNat_add, BitVec.toNat_ofNat] at value
      omega

theorem letter_copied :
    ∃ s, UserString.construct (fun _ => true) (letterAt 0x08000000#32) 0x1000#32 0x08000000#32 16#32 = some s ∧
      CopiesRightly [0x61#8] 16#32 s :=
  (copies_rightly_iff (fun _ => true) 0x1000#32 (by decide) (isString_letter 0x08000000#32 (by decide)) (by decide)
    (by decide)).mpr ((if_pos (by decide)).mpr ⟨by decide, fun _ => by decide, fun long => absurd long (by decide)⟩)

/-- A letter 32 bytes below the end of user space is not copied, and a letter that does
not fit into one byte is. -/
theorem letter_refused_and_copied :
    (∃ s, UserString.construct (fun _ => true) (letterAt 0xFFFFEFE0#32) 0x1000#32 0xFFFFEFE0#32 16#32 = some s ∧
        s.isValid = false ∧ ¬ CopiesRightly [0x61#8] 16#32 s) ∧
      ∃ s, UserString.construct (fun _ => true) (letterAt 0x08000000#32) 0x1000#32 0x08000000#32 1#32 = some s ∧
        s.isValid = true ∧ s.len = 1 ∧ ¬ CopiesRightly [0x61#8] 1#32 s := by
  constructor
  · have inside : WindowFits 0xFFFFEFE0#32 (16#32).toNat := by decide
    obtain ⟨s, started, refused, -⟩ := construct_short (fun _ => true) 0x1000#32 (by decide)
      (isString_letter 0xFFFFEFE0#32 (by decide)) inside (by decide)
    have invalid := refused (by decide)
    refine ⟨s, started, invalid, ?_⟩
    rw [copiesRightly_invalid invalid]
    decide
  · have inside : WindowFits 0x08000000#32 (1#32).toNat := by decide
    obtain ⟨s, started, -, copied⟩ := construct_short (fun _ => true) 0x1000#32 (by decide)
      (isString_letter 0x08000000#32 (by decide)) inside (by decide)
    obtain ⟨valid, -, len⟩ := copied (by decide)
    refine ⟨s, started, valid, len, ?_⟩
    rw [copiesRightly_valid valid len]
    exact fun both => absurd both.1 (by decide)

end FluxOS.UserMemoryOps
