import FluxOS.AddressSpace
import FluxOS.ArgumentCopying

/-! The tables of strings on the new stack, and what the new process finds there. -/
namespace FluxOS.UserProcessImage
open Words UserMemoryOps

section Tables

/-- The entries of a table for strings that are stored one after the other from here on. -/
def tableBytes : Word → List StringAt → List Byte
  | _, [] => []
  | dest, s :: rest => wordBytes dest ++ tableBytes (dest + BitVec.ofNat 32 (s.chars.length + 1)) rest

/-- The same strings as the table has them. -/
def newVector : Word → Word → List StringAt → List StringAt
  | _, _, [] => []
  | table, dest, s :: rest =>
    ⟨table, dest, s.chars⟩ :: newVector (table + 4#32) (dest + BitVec.ofNat 32 (s.chars.length + 1)) rest

theorem map_chars_newVector (table dest : Word) (strings : List StringAt) :
    (newVector table dest strings).map StringAt.chars = strings.map StringAt.chars := by
  induction strings generalizing table dest with
  | nil => rfl
  | cons s rest ih => rw [newVector, List.map_cons, List.map_cons, ih]

theorem length_tableBytes (dest : Word) (strings : List StringAt) : (tableBytes dest strings).length = 4 * strings.length := by
  induction strings generalizing dest with
  | nil => rfl
  | cons s rest ih =>
    rw [tableBytes, List.length_append, ih, length_wordBytes, List.length_cons]
    omega

variable {mem : Memory} {table dest src : Word} {strings : List StringAt}
variable {image : NewImage} {stackSize : Word} {lowest highest : Nat}

/-- Every access to this range is to the stack or to another mapping. -/
def NewImage.Takes (image : NewImage) (stackSize : Word) (lowest highest : Nat) : Prop :=
  ∀ (a : Word) (n : Nat), lowest ≤ a.toNat → a.toNat + n ≤ highest → image.Writable stackSize a n

/-- A table and its strings are a vector. -/
theorem isVector_newVector (entries : Reads mem table (tableBytes dest strings ++ wordBytes 0#32))
    (bytes : Reads mem dest (contents strings)) (proper : ∀ s ∈ strings, ∀ c ∈ s.chars, c ≠ 0#8)
    (low : 0 < dest.toNat) (high : dest.toNat + (contents strings).length < 2 ^ 32)
    (fits : table.toNat + 4 * (strings.length + 1) ≤ 2 ^ 32) : IsVector mem table (newVector table dest strings) := by
  induction strings generalizing table dest with
  | nil => exact ⟨fits, word32_of_reads entries⟩
  | cons s rest ih =>
    rw [tableBytes, List.append_assoc, reads_append, length_wordBytes] at entries
    rw [contents_cons, reads_append, List.length_append, List.length_singleton] at bytes
    have total := length_contents_cons s rest
    have next : (dest + BitVec.ofNat 32 (s.chars.length + 1)).toNat = dest.toNat + (s.chars.length + 1) :=
      toNat_offset (by omega)
    rw [List.length_cons] at fits
    have entry : (table + 4#32).toNat = table.toNat + 4 := toNat_offset (i := 4) (by omega)
    refine ⟨⟨rfl, by omega⟩, ⟨word32_of_reads entries.1, fun null => ?_⟩, ⟨bytes.1, proper s List.mem_cons_self, ?_⟩, ?_⟩
    · have zero : dest.toNat = 0 := congrArg BitVec.toNat null
      omega
    · change dest.toNat + s.chars.length < 2 ^ 32
      omega
    · exact ih entries.2 bytes.2 (fun t member => proper t (List.mem_cons_of_mem _ member)) (by omega) (by omega) (by omega)

/-- The loop that builds a table, and what it leaves alone. -/
theorem buildStringsFrom_spec (takes : image.Takes stackSize lowest highest)
    (bytes : Reads mem src (contents strings)) (proper : ∀ s ∈ strings, ∀ c ∈ s.chars, c ≠ 0#8)
    (srcKernel : src.toNat + (contents strings).length ≤ userspaceLowAddr.toNat)
    (tableUser : userspaceLowAddr.toNat ≤ table.toNat) (order : table.toNat + 4 * strings.length ≤ dest.toNat)
    (fits : dest.toNat + (contents strings).length < 2 ^ 32) (tableLow : lowest ≤ table.toNat)
    (destHigh : dest.toNat + (contents strings).length ≤ highest) :
    ∃ mem', buildStringsFrom image stackSize strings.length mem table dest src = some mem' ∧
      Reads mem' table (tableBytes dest strings) ∧ Reads mem' dest (contents strings) ∧
      ∀ a : Word, (a.toNat < table.toNat ∨ table.toNat + 4 * strings.length ≤ a.toNat) →
        (a.toNat < dest.toNat ∨ dest.toNat + (contents strings).length ≤ a.toNat) → mem' a = mem a := by
  induction strings generalizing mem table dest src with
  | nil => exact ⟨mem, rfl, nofun, nofun, fun _ _ _ => rfl⟩
  | cons s rest ih =>
    have total := length_contents_cons s rest
    have whole : contents (s :: rest) = (s.chars ++ [0#8]) ++ contents rest := rfl
    have length : (s.chars ++ [0#8]).length = s.chars.length + 1 := by simp
    rw [List.length_cons] at order ⊢
    have low : userspaceLowAddr.toNat < 2 ^ 32 := userspaceLowAddr.isLt
    have srcNext : (src + BitVec.ofNat 32 (s.chars.length + 1)).toNat = src.toNat + (s.chars.length + 1) :=
      toNat_offset (by omega)
    have destNext : (dest + BitVec.ofNat 32 (s.chars.length + 1)).toNat = dest.toNat + (s.chars.length + 1) :=
      toNat_offset (by omega)
    have tableNext : (table + 4#32).toNat = table.toNat + 4 := toNat_offset (i := 4) (by omega)
    -- the strings of the block are below everything that is written
    have stored : Reads (storeWord mem table dest) src (contents (s :: rest)) :=
      bytes.storeBytes (by omega) (by rw [length_wordBytes]; omega) (by omega)
    have split := stored
    rw [whole, reads_append, length] at split
    have string : IsString (storeWord mem table dest) src s.chars :=
      ⟨split.1, proper s List.mem_cons_self, by omega⟩
    have left : Reads (storeBytes (storeWord mem table dest) dest (s.chars ++ [0#8]))
        (src + BitVec.ofNat 32 (s.chars.length + 1)) (contents rest) :=
      split.2.storeBytes (by omega) (by omega) (by omega)
    have inOrder : (table + 4#32).toNat + 4 * rest.length ≤ (dest + BitVec.ofNat 32 (s.chars.length + 1)).toNat := by omega
    obtain ⟨mem', built, entries, copied, kept⟩ := ih left (fun t member => proper t (List.mem_cons_of_mem _ member))
      (by omega) (by omega) inOrder (by omega) (by omega) (by omega)
    have entryTaken : image.Writable stackSize table 4 := takes table 4 tableLow (by omega)
    have stringTaken : image.Writable stackSize dest (s.chars.length + 1) := takes dest _ (by omega) (by omega)
    refine ⟨mem', ?_, ?_, ?_, fun a outTable outBlock => ?_⟩
    · simp only [buildStringsFrom, guard, Option.bind_eq_bind, Option.pure_def, if_pos entryTaken, Option.bind_some,
        string.strlen, if_pos stringTaken, string.strcpy]
      exact built
    · rw [tableBytes, reads_append, length_wordBytes]
      have entry : Reads (storeBytes (storeWord mem table dest) dest (s.chars ++ [0#8])) table (wordBytes dest) :=
        reads_storeWord.storeBytes (by rw [length_wordBytes]; omega) (by omega) (by rw [length_wordBytes]; omega)
      refine ⟨entry.congr (by rw [length_wordBytes]; omega) fun a first last => kept a (.inl ?_) (.inl ?_), entries⟩
      · rw [length_wordBytes] at last
        omega
      · rw [length_wordBytes] at last
        omega
    · rw [whole, reads_append, length]
      have here : Reads (storeBytes (storeWord mem table dest) dest (s.chars ++ [0#8])) dest (s.chars ++ [0#8]) :=
        reads_storeBytes (by omega)
      exact ⟨here.congr (by omega) fun a first last => kept a (.inr (by omega)) (.inl (by omega)), copied⟩
    · rw [kept a (by omega) (by omega), storeBytes_other (by omega) (by omega), storeWord,
        storeBytes_other (by rw [length_wordBytes]; omega) (by rw [length_wordBytes]; omega)]

/-- The bytes of a finished table. -/
def finished (dest : Word) (strings : List StringAt) : List Byte := tableBytes dest strings ++ wordBytes 0#32

theorem length_finished (dest : Word) (strings : List StringAt) : (finished dest strings).length = 4 * (strings.length + 1) := by
  rw [finished, List.length_append, length_tableBytes, length_wordBytes]
  omega

theorem buildStringsPtrVector_spec {argsCount : Word} (takes : image.Takes stackSize lowest highest)
    (count : argsCount.toNat = strings.length) (small : strings.length < 2 ^ 29)
    (bytes : Reads mem src (contents strings)) (proper : ∀ s ∈ strings, ∀ c ∈ s.chars, c ≠ 0#8)
    (srcKernel : src.toNat + (contents strings).length ≤ userspaceLowAddr.toNat)
    (tableUser : userspaceLowAddr.toNat ≤ table.toNat) (order : table.toNat + 4 * (strings.length + 1) ≤ dest.toNat)
    (fits : dest.toNat + (contents strings).length < 2 ^ 32) (tableLow : lowest ≤ table.toNat)
    (destHigh : dest.toNat + (contents strings).length ≤ highest) :
    ∃ mem', buildStringsPtrVector image stackSize mem table dest src argsCount = some mem' ∧
      Reads mem' table (finished dest strings) ∧ Reads mem' dest (contents strings) ∧
      ∀ a : Word, (a.toNat < table.toNat ∨ table.toNat + 4 * (strings.length + 1) ≤ a.toNat) →
        (a.toNat < dest.toNat ∨ dest.toNat + (contents strings).length ≤ a.toNat) → mem' a = mem a := by
  obtain ⟨mem', built, entries, copied, kept⟩ :=
    buildStringsFrom_spec takes bytes proper srcKernel tableUser (by omega) fits tableLow destHigh
  have rounds : argsCount.toInt.toNat = strings.length := by
    rw [BitVec.toInt_eq_toNat_of_lt (by omega), count, Int.toNat_natCast]
  have last : table + 4#32 * argsCount = table + BitVec.ofNat 32 (tableBytes dest strings).length := by
    apply BitVec.eq_of_toNat_eq
    rw [length_tableBytes, BitVec.toNat_add, BitVec.toNat_add, BitVec.toNat_mul, count, BitVec.toNat_ofNat, BitVec.toNat_ofNat]
  have length := length_tableBytes dest strings
  have lastAt : (table + BitVec.ofNat 32 (tableBytes dest strings).length).toNat = table.toNat + 4 * strings.length := by
    rw [toNat_offset (by omega), length]
  have lastTaken : image.Writable stackSize (table + 4#32 * argsCount) 4 :=
    takes _ 4 (by rw [last]; omega) (by rw [last]; omega)
  refine ⟨storeWord mem' (table + 4#32 * argsCount) 0#32, ?_, ?_, ?_, fun a outTable outBlock => ?_⟩
  · simp only [buildStringsPtrVector, guard, rounds, built, Option.bind_eq_bind, Option.pure_def, Option.bind_some,
      if_pos lastTaken]
  · rw [finished, reads_append, last]
    exact ⟨entries.storeBytes (by omega) (by rw [length_wordBytes]; omega) (by omega), reads_storeWord⟩
  · rw [last]
    exact copied.storeBytes (by omega) (by rw [length_wordBytes]; omega) (by rw [length_wordBytes]; omega)
  · rw [last, storeWord, storeBytes_other (by rw [length_wordBytes]; omega) (by rw [length_wordBytes]; omega),
      kept a (by omega) outBlock]

end Tables

section Layout

theorem toNat_padToWord {x : Word} (bound : x.toNat < 2 ^ 32 - 4) : (padToWord x).toNat = x.toNat / 4 * 4 + 4 := by
  have kept : (x &&& 0xFFFFFFFC#32).toNat / 4 = x.toNat / 4 := by
    rw [BitVec.toNat_and, Nat.and_div_two_pow (n := 2)]
    exact (Nat.and_two_pow_sub_one_eq_mod _ 30).trans (Nat.mod_eq_of_lt (by omega))
  have cleared : (x &&& 0xFFFFFFFC#32).toNat % 4 = 0 := by
    have mask := Nat.and_two_pow_sub_one_eq_mod (x &&& 0xFFFFFFFC#32).toNat 2
    have none : (x &&& 0xFFFFFFFC#32) &&& 3#32 = 0#32 := by
      rw [BitVec.and_assoc, show 0xFFFFFFFC#32 &&& 3#32 = 0#32 from rfl, BitVec.and_zero]
    have zero := congrArg BitVec.toNat none
    rw [BitVec.toNat_and] at zero
    exact mask.symm.trans zero
  rw [padToWord, BitVec.toNat_add, BitVec.toNat_ofNat]
  omega

theorem toNat_sdiv_four {x : Word} (bound : x.toNat < 2 ^ 31) : (x.sdiv 4#32).toNat = x.toNat / 4 := by
  have sign : x.msb = false := BitVec.msb_eq_false_iff_two_mul_lt.mpr (by omega)
  rw [BitVec.sdiv_eq, sign]
  rfl

theorem toNat_position (sp : Word) {pos : Word} (fits : sp.toNat + 4 * pos.toNat < 2 ^ 32) :
    (sp + 4#32 * pos).toNat = sp.toNat + 4 * pos.toNat := by
  rw [BitVec.toNat_add, BitVec.toNat_mul, BitVec.toNat_ofNat]
  omega

/-- The parts of the stack one after the other. The last one ends up to seven bytes behind the end. -/
structure Placed (layout : StackLayout) (stack size argc argsSize envc envSize auxSize : Nat) : Prop where
  low : stack ≤ layout.sp.toNat
  argsList : layout.argsList.toNat = layout.sp.toNat + 4
  envList : layout.envList.toNat = layout.argsList.toNat + 4 * (argc + 1)
  auxList : layout.auxList.toNat = layout.envList.toNat + 4 * (envc + 1)
  argsBlock : layout.argsBlock.toNat = layout.auxList.toNat + 112
  envBlock : layout.envBlock.toNat = layout.argsBlock.toNat + 4 * (argsSize / 4 + 1)
  auxBlock : layout.auxBlock.toNat = layout.envBlock.toNat + 4 * (envSize / 4 + 1)
  ends : layout.auxBlock.toNat + 4 * (auxSize / 4) = stack + size + 4
  high : stack + size + 4104 < 2 ^ 32

/-- The stack has room for all of it. -/
theorem room_on_stack (image : NewImage) {argc argsSize envc envSize auxSize : Word} (argcSmall : argc.toNat ≤ 16)
    (envcSmall : envc.toNat ≤ 16) (argsSmall : argsSize.toNat ≤ userspaceLowAddr.toNat)
    (envSmall : envSize.toNat ≤ userspaceLowAddr.toNat) (auxSmall : auxSize.toNat ≤ 1025) :
    ∃ sp, image.stack + padToWord (initUserStackSize + argsSize + envSize + auxSize) -
        (4#32 + 4#32 * (argc + 1#32) + 4#32 * (envc + 1#32) + 4#32 * 2#32 * auxTableSize + padToWord argsSize +
          padToWord envSize + padToWord auxSize) = sp ∧
      image.stack.toNat ≤ sp.toNat ∧
      sp.toNat + 4 * (argc.toNat + envc.toNat + 32 + argsSize.toNat / 4 + envSize.toNat / 4 + auxSize.toNat / 4) =
        image.stack.toNat + (padToWord (initUserStackSize + argsSize + envSize + auxSize)).toNat ∧
      image.stack.toNat + (padToWord (initUserStackSize + argsSize + envSize + auxSize)).toNat + 4104 < 2 ^ 32 := by
  have low := image.stackLow
  have high := image.stackHigh
  have bottom := toNat_userspaceLowAddr
  rw [bottom] at low argsSmall envSmall
  have total : (initUserStackSize + argsSize + envSize + auxSize).toNat =
      8192 + argsSize.toNat + envSize.toNat + auxSize.toNat := by
    rw [BitVec.toNat_add, BitVec.toNat_add, BitVec.toNat_add, show initUserStackSize.toNat = 8192 from rfl]
    omega
  have stackSize := toNat_padToWord (x := initUserStackSize + argsSize + envSize + auxSize) (by omega)
  rw [total] at stackSize
  have argsPad := toNat_padToWord (x := argsSize) (by omega)
  have envPad := toNat_padToWord (x := envSize) (by omega)
  have auxPad := toNat_padToWord (x := auxSize) (by omega)
  have aux : auxTableSize.toNat = 13 := rfl
  obtain ⟨size, sizeIs⟩ : ∃ size, padToWord (initUserStackSize + argsSize + envSize + auxSize) = size := ⟨_, rfl⟩
  rw [sizeIs] at stackSize ⊢
  obtain ⟨vars, varsIs⟩ : ∃ vars, 4#32 + 4#32 * (argc + 1#32) + 4#32 * (envc + 1#32) + 4#32 * 2#32 * auxTableSize +
      padToWord argsSize + padToWord envSize + padToWord auxSize = vars := ⟨_, rfl⟩
  have varsValue : vars.toNat = 4 + 4 * (argc.toNat + 1) + 4 * (envc.toNat + 1) + 104 +
      (argsSize.toNat / 4 * 4 + 4) + (envSize.toNat / 4 * 4 + 4) + (auxSize.toNat / 4 * 4 + 4) := by
    rw [← varsIs]
    simp only [BitVec.toNat_add, BitVec.toNat_mul, BitVec.toNat_ofNat, argsPad, envPad, auxPad, aux]
    omega
  have spValue : (image.stack + size - vars).toNat = image.stack.toNat + size.toNat - vars.toNat := by
    rw [BitVec.toNat_sub, BitVec.toNat_add]
    omega
  rw [varsIs]
  exact ⟨_, rfl, by omega, by omega, by omega⟩

theorem placed_stackLayout (image : NewImage) (argc argsSize envc envSize auxSize : Word) (argcSmall : argc.toNat ≤ 16)
    (envcSmall : envc.toNat ≤ 16) (argsSmall : argsSize.toNat ≤ userspaceLowAddr.toNat)
    (envSmall : envSize.toNat ≤ userspaceLowAddr.toNat) (auxSmall : auxSize.toNat ≤ 1025) :
    Placed (stackLayout image.stack (padToWord (initUserStackSize + argsSize + envSize + auxSize)) argc argsSize envc envSize
      auxTableSize auxSize) image.stack.toNat (padToWord (initUserStackSize + argsSize + envSize + auxSize)).toNat
      argc.toNat argsSize.toNat envc.toNat envSize.toNat auxSize.toNat := by
  obtain ⟨sp, spIs, low, ends, high⟩ := room_on_stack image argcSmall envcSmall argsSmall envSmall auxSmall
  have bottom := toNat_userspaceLowAddr
  rw [stackLayout, spIs]
  have argsWords := toNat_sdiv_four (x := argsSize) (by omega)
  have envWords := toNat_sdiv_four (x := envSize) (by omega)
  obtain ⟨argsQuarter, argsIs⟩ : ∃ quarter, argsSize.toNat / 4 = quarter := ⟨_, rfl⟩
  obtain ⟨envQuarter, envIs⟩ : ∃ quarter, envSize.toNat / 4 = quarter := ⟨_, rfl⟩
  obtain ⟨stackEnd, stackEndIs⟩ : ∃ stackEnd, image.stack.toNat +
    (padToWord (initUserStackSize + argsSize + envSize + auxSize)).toNat = stackEnd := ⟨_, rfl⟩
  rw [argsIs, envIs, stackEndIs] at ends
  rw [stackEndIs] at high
  rw [argsIs] at argsWords
  rw [envIs] at envWords
  have envPos : (1#32 + (argc + 1#32)).toNat = argc.toNat + 2 := by
    simp only [BitVec.toNat_add, BitVec.toNat_ofNat]
    omega
  have auxPos : (1#32 + (argc + 1#32) + (envc + 1#32)).toNat = argc.toNat + envc.toNat + 3 := by
    rw [BitVec.toNat_add, envPos, BitVec.toNat_add, BitVec.toNat_ofNat]
    omega
  have argsPos : (1#32 + (argc + 1#32) + (envc + 1#32) + (auxTableSize + 1#32) * 2#32).toNat =
      argc.toNat + envc.toNat + 31 := by
    rw [BitVec.toNat_add, auxPos, show ((auxTableSize + 1#32) * 2#32).toNat = 28 from rfl]
    omega
  have envBlockPos : (1#32 + (argc + 1#32) + (envc + 1#32) + (auxTableSize + 1#32) * 2#32 +
      (argsSize.sdiv 4#32 + 1#32)).toNat = argc.toNat + envc.toNat + 32 + argsQuarter := by
    rw [BitVec.toNat_add, argsPos, BitVec.toNat_add, argsWords, BitVec.toNat_ofNat]
    omega
  have auxBlockPos : (1#32 + (argc + 1#32) + (envc + 1#32) + (auxTableSize + 1#32) * 2#32 +
      (argsSize.sdiv 4#32 + 1#32) + (envSize.sdiv 4#32 + 1#32)).toNat =
        argc.toNat + envc.toNat + 33 + argsQuarter + envQuarter := by
    rw [BitVec.toNat_add, envBlockPos, BitVec.toNat_add, envWords, BitVec.toNat_ofNat]
    omega
  clear argcSmall envcSmall argsSmall envSmall auxSmall argsWords envWords bottom
  have argsList := toNat_position sp (show sp.toNat + 4 * (1#32 : Word).toNat < 2 ^ 32 by rw [BitVec.toNat_ofNat]; omega)
  have envList := toNat_position sp (by rw [envPos]; omega)
  have auxList := toNat_position sp (by rw [auxPos]; omega)
  have argsBlock := toNat_position sp (by rw [argsPos]; omega)
  have envBlock := toNat_position sp (by rw [envBlockPos]; omega)
  have auxBlock := toNat_position sp (by rw [auxBlockPos]; omega)
  rw [BitVec.toNat_ofNat] at argsList
  rw [envPos] at envList
  rw [auxPos] at auxList
  rw [argsPos] at argsBlock
  rw [envBlockPos] at envBlock
  rw [auxBlockPos] at auxBlock
  refine ⟨low, argsList, ?_, ?_, ?_, ?_, ?_, ?_, ?_⟩
  · rw [envList, argsList]
    omega
  · rw [auxList, envList]
    omega
  · rw [argsBlock, auxList]
    omega
  · rw [envBlock, argsBlock, argsIs]
    omega
  · rw [auxBlock, envBlock, envIs]
    omega
  · rw [auxBlock, stackEndIs]
    omega
  · rw [stackEndIs]
    omega

end Layout

section Building

variable {image : NewImage} {stackSize : Word}

/-- The end of the last page of the stack. -/
def NewImage.stackEnd (image : NewImage) (stackSize : Word) : Nat :=
  image.stack.toNat + (roundToPageMultiples stackSize).toNat

/-- The byte behind the stack's descriptor, as a word. -/
theorem toNat_endAddress (fits : image.stackEnd stackSize < 2 ^ 32) :
    (image.stackDescriptor stackSize).endAddress.toNat = image.stackEnd stackSize := by
  have sum : (image.stackDescriptor stackSize).endAddress = image.stack + roundToPageMultiples stackSize := rfl
  rw [sum, BitVec.toNat_add, NewImage.stackEnd]
  exact Nat.mod_eq_of_lt fits

/-- The stack takes every write up to the end of its last page. -/
theorem takes_stack (fits : image.stackEnd stackSize < 2 ^ 32) :
    image.Takes stackSize image.stack.toNat (image.stackEnd stackSize) := by
  intro a n low high i inside
  have place : (a + BitVec.ofNat 32 i).toNat = a.toNat + i := toNat_offset (by omega)
  refine .inl (((image.stackDescriptor stackSize).contains_iff _).mpr ?_)
  rw [toNat_endAddress fits, place]
  exact ⟨low.trans (Nat.le_add_right _ _), by omega⟩

/-- A copy that finds its mappings changes nothing beside its bytes. -/
theorem copyToImage_spec (mem : Memory) {dest size : Word} (src : List Byte) (fits : dest.toNat + size.toNat ≤ 2 ^ 32)
    (writable : image.Writable stackSize dest size.toNat) : ∃ mem', copyToImage image stackSize mem dest src size = some mem' ∧
      ∀ a : Word, (a.toNat < dest.toNat ∨ dest.toNat + size.toNat ≤ a.toNat) → mem' a = mem a := by
  refine ⟨(memcpyToUser mem dest (fun i => src.getD i 0#8) size).2, ?_, fun a outside => ?_⟩
  · simp only [copyToImage, guard, Option.bind_eq_bind, Option.pure_def, if_pos (Or.inr writable), Option.bind_some]
  · rw [memcpyToUser]
    split
    · apply copyIn_other
      rintro i inside rfl
      have place : (dest + BitVec.ofNat 32 i).toNat = dest.toNat + i := toNat_offset (by omega)
      omega
    · rfl

theorem toNat_auxBlockSize (fileName : FileName) : fileName.auxBlockSize.toNat = fileName.chars.length + 1 := by
  have short := fileName.short
  rw [FileName.auxBlockSize, BitVec.toNat_ofNat]
  omega

/-- The bytes that the auxiliary vector takes are behind the strings. -/
theorem buildAuxVector_spec (mem : Memory) {fileName : FileName} {auxTable auxBlock : Word}
    (tableFits : auxTable.toNat + 104 ≤ 2 ^ 32) (blockFits : auxBlock.toNat + fileName.auxBlockSize.toNat ≤ 2 ^ 32)
    (tableTaken : image.Writable stackSize auxTable 104)
    (blockTaken : image.Writable stackSize auxBlock fileName.auxBlockSize.toNat) :
    ∃ mem', buildAuxVector image stackSize mem fileName auxTable auxBlock = some mem' ∧
      ∀ a : Word, (a.toNat < auxTable.toNat ∨ auxTable.toNat + 104 ≤ a.toNat) →
        (a.toNat < auxBlock.toNat ∨ auxBlock.toNat + fileName.auxBlockSize.toNat ≤ a.toNat) → mem' a = mem a := by
  obtain ⟨mem₁, blockCopied, blockKept⟩ :=
    copyToImage_spec mem fileName.chars blockFits blockTaken
  obtain ⟨mem₂, tableCopied, tableKept⟩ :=
    @copyToImage_spec _ _ mem₁ _ (8#32 * auxTableSize) image.auxVec tableFits tableTaken
  refine ⟨mem₂, ?_, fun a outTable outBlock => (tableKept a outTable).trans (blockKept a outBlock)⟩
  rw [buildAuxVector, blockCopied]
  exact tableCopied

/-- The block of the auxiliary vector ends on the last page of the stack. -/
def AuxInside (argsBlockSize envBlockSize auxBlockSize : Word) : Prop :=
  let stackSize := padToWord (initUserStackSize + argsBlockSize + envBlockSize + auxBlockSize)
  stackSize.toNat + 4 + auxBlockSize.toNat % 4 ≤ (roundToPageMultiples stackSize).toNat

instance (argsBlockSize envBlockSize auxBlockSize : Word) : Decidable (AuxInside argsBlockSize envBlockSize auxBlockSize) :=
  inferInstanceAs (Decidable (_ ≤ _))

variable {mem : Memory} {args env : List StringAt}

/-- What the new process finds: how many arguments, and the two tables. -/
structure Started (mem : Memory) (sp : Word) (args env : List StringAt) : Prop where
  argc : (word32 mem sp).toNat = args.length
  argv : ∃ vector, IsVector mem (sp + 4#32) vector ∧ vector.map StringAt.chars = args.map StringAt.chars
  envp : ∃ vector, IsVector mem (sp + 4#32 + BitVec.ofNat 32 (4 * (args.length + 1))) vector ∧
    vector.map StringAt.chars = env.map StringAt.chars

theorem changeAddressSpace_kernel {image : NewImage} {a : Word} (kernel : a.toNat < userspaceLowAddr.toNat) :
    changeAddressSpace mem image a = mem a := if_pos (BitVec.lt_def.mpr kernel)

/-- The two tables, one after the other: what is behind them may still change. -/
theorem Placed.build {layout : StackLayout} {stack size argsSize envSize auxSize highest : Nat}
    {argc tmpArgsBlock envc tmpEnvBlock : Word} (takes : image.Takes stackSize stack highest)
    (placed : Placed layout stack size args.length argsSize env.length envSize auxSize)
    (user : userspaceLowAddr.toNat ≤ stack) (behind : layout.auxBlock.toNat ≤ highest) (argcIs : argc.toNat = args.length)
    (envcIs : envc.toNat = env.length) (argcSmall : args.length ≤ 16) (envcSmall : env.length ≤ 16)
    (argsBytes : Reads mem tmpArgsBlock (contents args)) (envBytes : Reads mem tmpEnvBlock (contents env))
    (argsProper : ∀ s ∈ args, ∀ c ∈ s.chars, c ≠ 0#8) (envProper : ∀ s ∈ env, ∀ c ∈ s.chars, c ≠ 0#8)
    (argsFit : (contents args).length ≤ argsSize) (envFit : (contents env).length ≤ envSize)
    (argsKernel : tmpArgsBlock.toNat + argsSize ≤ userspaceLowAddr.toNat)
    (envKernel : tmpEnvBlock.toNat + envSize ≤ userspaceLowAddr.toNat) :
    ∃ mem₃ mem₄, buildStringsPtrVector image stackSize (storeWord mem layout.sp argc) layout.argsList layout.argsBlock
          tmpArgsBlock argc = some mem₃ ∧
        buildStringsPtrVector image stackSize mem₃ layout.envList layout.envBlock tmpEnvBlock envc = some mem₄ ∧
      ∀ mem₅ : Memory, (∀ a : Word, (a.toNat < layout.auxList.toNat ∨
        layout.argsBlock.toNat ≤ a.toNat ∧ a.toNat < layout.auxBlock.toNat) → mem₅ a = mem₄ a) →
          Started mem₅ layout.sp args env := by
  obtain ⟨low, atArgs, atEnv, atAux, atArgsBlock, atEnvBlock, atAuxBlock, ends, high⟩ := placed
  have auxHigh : layout.auxBlock.toNat < 2 ^ 32 := by omega
  have bottom := toNat_userspaceLowAddr
  have argsRoom : layout.argsBlock.toNat + argsSize < layout.envBlock.toNat := by omega
  have envRoom : layout.envBlock.toNat + envSize < layout.auxBlock.toNat := by omega
  clear atEnvBlock atAuxBlock ends high
  have argsLength := length_finished layout.argsBlock args
  have envLength := length_finished layout.envBlock env
  -- the blocks are below the stack
  have argsKept : Reads (storeWord mem layout.sp argc) tmpArgsBlock (contents args) :=
    argsBytes.storeBytes (by omega) (by rw [length_wordBytes]; omega) (by omega)
  have envKept : Reads (storeWord mem layout.sp argc) tmpEnvBlock (contents env) :=
    envBytes.storeBytes (by omega) (by rw [length_wordBytes]; omega) (by omega)
  obtain ⟨mem₃, argsBuilt, argsEntries, argsStored, kept₃⟩ := buildStringsPtrVector_spec takes argcIs (by omega) argsKept argsProper
    (by omega) (show userspaceLowAddr.toNat ≤ layout.argsList.toNat by omega)
    (show layout.argsList.toNat + 4 * (args.length + 1) ≤ layout.argsBlock.toNat by omega) (by omega) (by omega) (by omega)
  have envKept₃ : Reads mem₃ tmpEnvBlock (contents env) :=
    envKept.congr (by omega) fun a _ high => kept₃ a (.inl (by omega)) (.inl (by omega))
  obtain ⟨mem₄, envBuilt, envEntries, envStored, kept₄⟩ := buildStringsPtrVector_spec takes envcIs (by omega) envKept₃ envProper
    (by omega) (show userspaceLowAddr.toNat ≤ layout.envList.toNat by omega)
    (show layout.envList.toNat + 4 * (env.length + 1) ≤ layout.envBlock.toNat by omega) (by omega) (by omega) (by omega)
  refine ⟨mem₃, mem₄, argsBuilt, envBuilt, fun mem₅ kept₅ => ⟨?_, ?_, ?_⟩⟩
  · have here : Reads mem₅ layout.sp (wordBytes argc) :=
      reads_storeWord.congr (by rw [length_wordBytes]; omega) fun a _ last => by
        rw [length_wordBytes] at last
        rw [kept₅ a (.inl (by omega)), kept₄ a (.inl (by omega)) (.inl (by omega)),
          kept₃ a (.inl (by omega)) (.inl (by omega))]
    rw [word32_of_reads here, argcIs]
  · have place : layout.argsList = layout.sp + 4#32 := by
      apply BitVec.eq_of_toNat_eq
      rw [atArgs, toNat_offset (i := 4) (by omega)]
    refine ⟨newVector layout.argsList layout.argsBlock args, ?_, map_chars_newVector _ _ _⟩
    rw [← place]
    refine isVector_newVector (argsEntries.congr (by omega) fun a first last => ?_) (argsStored.congr (by omega)
      fun a first last => ?_) argsProper (by omega) (by omega) (by omega)
    · rw [kept₅ a (.inl (by omega)), kept₄ a (.inl (by omega)) (.inl (by omega))]
    · rw [kept₅ a (.inr ⟨by omega, by omega⟩), kept₄ a (.inr (by omega)) (.inl (by omega))]
  · have place : layout.envList = layout.sp + 4#32 + BitVec.ofNat 32 (4 * (args.length + 1)) := by
      apply BitVec.eq_of_toNat_eq
      have second : (layout.sp + 4#32).toNat = layout.sp.toNat + 4 := toNat_offset (i := 4) (by omega)
      rw [atEnv, atArgs, toNat_offset (by omega), second]
    refine ⟨newVector layout.envList layout.envBlock env, ?_, map_chars_newVector _ _ _⟩
    rw [← place]
    refine isVector_newVector (envEntries.congr (by omega) fun a first last => ?_) (envStored.congr (by omega)
      fun a first last => ?_) envProper (by omega) (by omega) (by omega)
    · exact kept₅ a (.inl (by omega))
    · exact kept₅ a (.inr ⟨by omega, by omega⟩)

/-- What was found before the new image, `execve` leaves as it was when it refuses. -/
def Unchanged (mem mem' : Memory) (process process' : ProcessImage) : Prop :=
  process' = process ∧ ∀ a : Word, userspaceLowAddr.toNat ≤ a.toNat → mem' a = mem a

theorem restoreAddressSpace_user {mem previous : Memory} {a : Word} (user : userspaceLowAddr.toNat ≤ a.toNat) :
    restoreAddressSpace mem previous a = previous a :=
  if_neg (BitVec.lt_def.not.mpr (Nat.not_lt.mpr user))

/-- The sizes that reach `buildImage` keep the parts of the stack in order, and its last page ends below 2^32. -/
theorem placed_image (image : NewImage) (fileName : FileName) {argc argsBlockSize envc envBlockSize : Word}
    (argcSmall : argc.toNat ≤ 16) (envcSmall : envc.toNat ≤ 16) (argsSmall : argsBlockSize.toNat ≤ userspaceLowAddr.toNat)
    (envSmall : envBlockSize.toNat ≤ userspaceLowAddr.toNat) :
    ∃ stackSize, padToWord (initUserStackSize + argsBlockSize + envBlockSize + fileName.auxBlockSize) = stackSize ∧
      Placed (stackLayout image.stack stackSize argc argsBlockSize envc envBlockSize auxTableSize fileName.auxBlockSize)
        image.stack.toNat stackSize.toNat argc.toNat argsBlockSize.toNat envc.toNat envBlockSize.toNat
        fileName.auxBlockSize.toNat ∧ image.stackEnd stackSize < 2 ^ 32 := by
  have auxSize := toNat_auxBlockSize fileName
  have short := fileName.short
  have placed := placed_stackLayout image argc argsBlockSize envc envBlockSize fileName.auxBlockSize argcSmall envcSmall
    argsSmall envSmall (by omega)
  refine ⟨_, rfl, placed, ?_⟩
  have high := placed.high
  rw [NewImage.stackEnd, toNat_roundToPageMultiples]
  omega

/-- From blocks of strings `execve` makes the tables of these strings, unless a later step fails. -/
theorem buildImage_spec {fileName : FileName} {process : ProcessImage}
    {argc argsBlockSize tmpArgsBlock envc envBlockSize tmpEnvBlock : Word} (inside : AuxInside argsBlockSize envBlockSize fileName.auxBlockSize)
    (argcIs : argc.toNat = args.length) (envcIs : envc.toNat = env.length) (argcSmall : args.length ≤ 16)
    (envcSmall : env.length ≤ 16) (argsBytes : Reads mem tmpArgsBlock (contents args))
    (envBytes : Reads mem tmpEnvBlock (contents env)) (argsProper : ∀ s ∈ args, ∀ c ∈ s.chars, c ≠ 0#8)
    (envProper : ∀ s ∈ env, ∀ c ∈ s.chars, c ≠ 0#8) (argsFit : (contents args).length ≤ argsBlockSize.toNat)
    (envFit : (contents env).length ≤ envBlockSize.toNat)
    (argsKernel : tmpArgsBlock.toNat + argsBlockSize.toNat ≤ userspaceLowAddr.toNat)
    (envKernel : tmpEnvBlock.toNat + envBlockSize.toNat ≤ userspaceLowAddr.toNat) :
    ∃ executed, buildImage mem process fileName image argc argsBlockSize tmpArgsBlock envc envBlockSize tmpEnvBlock =
        some executed ∧
      ((∃ ret mem' process', executed = .refused ret mem' process' ∧ ret.slt 0#32 ∧ Unchanged mem mem' process process' ∧
          (image.granted = false ∨ image.loaded.slt 0#32 ∨ image.dataSegment.slt 0#32)) ∨
        ∃ mem' sp process', executed = .started mem' sp process' ∧ Started mem' sp args env) := by
  have enomemNegative : (errorCode enomem).slt 0#32 := by decide
  rw [buildImage]
  by_cases granted : image.granted = false
  · rw [if_pos (by rw [granted]; rfl)]
    exact ⟨_, rfl, .inl ⟨_, _, _, rfl, enomemNegative, ⟨rfl, fun _ _ => rfl⟩, .inl granted⟩⟩
  rw [if_neg (by rw [Bool.not_eq_false] at granted; rw [granted]; decide)]
  dsimp only [Option.pure_def, Option.bind_eq_bind, Option.bind_some]
  by_cases failed : image.loaded.slt 0#32
  · rw [if_pos failed]
    exact ⟨_, rfl, .inl ⟨_, _, _, rfl, failed, ⟨rfl, fun a user => restoreAddressSpace_user user⟩, .inr (.inl failed)⟩⟩
  rw [if_neg failed]
  obtain ⟨stackSize, sizeIs, placed, ends⟩ := @placed_image image fileName argc argsBlockSize envc envBlockSize
    (by omega) (by omega) (by omega) (by omega)
  rw [AuxInside, sizeIs] at inside
  rw [sizeIs]
  obtain ⟨layout, layoutIs⟩ : ∃ layout, stackLayout image.stack stackSize argc argsBlockSize envc envBlockSize auxTableSize
    fileName.auxBlockSize = layout := ⟨_, rfl⟩
  rw [layoutIs] at placed ⊢
  rw [argcIs, envcIs] at placed
  have bytesOf {block : Word} {strings : List StringAt} (bytes : Reads mem block (contents strings))
      (kernel : block.toNat + (contents strings).length ≤ userspaceLowAddr.toNat) :
      Reads (changeAddressSpace mem image) block (contents strings) :=
    bytes.congr (by have bound := userspaceLowAddr.isLt; omega) fun a _ high => changeAddressSpace_kernel (by omega)
  have takes := takes_stack ends
  have user := image.stackLow
  have low := placed.low
  have atArgs := placed.argsList
  have atEnv := placed.envList
  have atAux := placed.auxList
  have atArgsBlock := placed.argsBlock
  have atEnvBlock := placed.envBlock
  have atAuxBlock := placed.auxBlock
  have last := placed.ends
  have block : layout.auxBlock.toNat + fileName.auxBlockSize.toNat ≤ image.stackEnd stackSize := by
    rw [NewImage.stackEnd]
    omega
  obtain ⟨mem₃, mem₄, argsBuilt, envBuilt, started⟩ := placed.build takes user (by omega) argcIs envcIs argcSmall envcSmall
    (bytesOf argsBytes (by omega)) (bytesOf envBytes (by omega)) argsProper envProper argsFit envFit argsKernel envKernel
  have spTaken : image.Writable stackSize layout.sp 4 := takes _ 4 low (by omega)
  have tableTaken : image.Writable stackSize layout.auxList 104 := takes _ 104 (by omega) (by omega)
  have blockTaken : image.Writable stackSize layout.auxBlock fileName.auxBlockSize.toNat := takes _ _ (by omega) block
  obtain ⟨mem₅, auxBuilt, kept⟩ :=
    buildAuxVector_spec mem₄ (by omega) (by omega) tableTaken blockTaken
  simp only [guard, if_pos spTaken, Option.pure_def, Option.bind_some, argsBuilt, envBuilt, auxBuilt]
  by_cases late : image.dataSegment.slt 0#32
  · rw [if_pos late]
    exact ⟨_, rfl, .inl ⟨_, _, _, rfl, enomemNegative, ⟨rfl, fun a user => restoreAddressSpace_user user⟩, .inr (.inr late)⟩⟩
  · rw [if_neg late]
    exact ⟨_, rfl, .inr ⟨_, _, _, rfl, started _ fun a place => kept a (by omega) (by omega)⟩⟩

end Building

end FluxOS.UserProcessImage
