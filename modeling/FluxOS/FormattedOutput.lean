import FluxOS.LibcNumbers

/-! `vsprintf` and `sprintf` of the library: they store what `vfprintf` writes to a stream. -/
namespace FluxOS.LibcNumbers
open Words UserMemoryOps BlockDevice Ext2 AddressText NumberText

/-- `strcpy` to a place in the memory. -/
def strcpyTo (tmpStr : Block) (i : Nat) (text : List Byte) : Block := storeAll tmpStr i (text ++ [0#8])

/-- `vsprintf`, with the memory from the first place on, and the place that `tmpStr` has come to: that place in the
end, and the memory. What it returns is always the length of the empty string. There is no result where `vfprintf`
would have none. -/
def vsprintf : List Byte → List Argument → Block → Block → Nat → Option (Nat × Block)
  | [], _, _, str, i => some (i, store str i 0#8)
  | [c], _, _, str, i => if c = percent then none else some (i + 1, store (store str i c) (i + 1) 0#8)
  | c :: conversion :: s, args, num, str, i =>
    if c ≠ percent then vsprintf (conversion :: s) args num (store str i c) (i + 1)
    else if conversion = 115#8 then
      match args with
      | .string text :: args => vsprintf s args num (strcpyTo str i text) (i + text.length)
      | _ => none
    else if conversion = 99#8 then
      match args with
      | .word p :: args => vsprintf s args num (store str i (p.setWidth 8)) (i + 1)
      | _ => none
    else if IsNumber conversion then
      match args with
      | .word n :: args =>
        (convert conversion n num).bind fun num =>
          (written num).bind fun text => vsprintf s args num (strcpyTo str i text) (i + text.length)
      | _ => none
    else vsprintf s args num str i

/-- `sprintf`: the length that it returns, and the memory. -/
def sprintf (s : List Byte) (args : List Argument) (num tmpStr : Block) : Option (Nat × Block) :=
  (vsprintf s args num tmpStr 0).bind fun (_, tmpStr) =>
    (strlen (fun address => tmpStr address.toNat) 0#32).map (·, tmpStr)

/-! ## Both write the same -/

/-- What is stored last is what stays: the 0 behind a text is overwritten. -/
theorem storeAll_strcpyTo (str : Block) (i : Nat) (text : List Byte) {rest : List Byte} (some_rest : rest ≠ []) :
    storeAll (strcpyTo str i text) (i + text.length) rest = storeAll str i (text ++ rest) := by
  have positive := List.length_pos_iff.mpr some_rest
  funext k
  rw [strcpyTo]
  simp only [storeAll_apply]
  by_cases behind : i + text.length ≤ k
  · have place : k - i = text.length + (k - (i + text.length)) := by omega
    rw [if_pos behind, if_pos (by omega), if_pos (by omega), place, List.getElem?_append_right (Nat.le_add_right _ _),
      List.getElem?_append_right (Nat.le_add_right _ _), Nat.add_sub_cancel_left]
    by_cases inside : k - (i + text.length) < rest.length
    · rw [List.getElem?_eq_getElem inside, Option.getD_some, Option.getD_some]
    · have past : ([0#8] : List Byte).length ≤ k - (i + text.length) := by
        rw [List.length_singleton]
        omega
      rw [List.getElem?_eq_none (Nat.le_of_not_lt inside), List.getElem?_eq_none past, Option.getD_none, Option.getD_none]
  · rw [if_neg behind]
    by_cases before : i ≤ k
    · have inside : k - i < text.length := by omega
      rw [if_pos before, if_pos before, List.getElem?_append_left inside, List.getElem?_append_left inside]
    · rw [if_neg before, if_neg before]

/-- What a piece of text leaves of the rest. -/
theorem map_behind (str : Block) (i : Nat) (text : List Byte) (output : Option (List Byte)) :
    (output.map fun out => (i + text.length + out.length, storeAll (strcpyTo str i text) (i + text.length) (out ++ [0#8]))) =
      (output.map (text ++ ·)).map fun out => (i + out.length, storeAll str i (out ++ [0#8])) := by
  rw [Option.map_map]
  refine congrArg (Option.map · output) (funext fun out => ?_)
  have stored := storeAll_strcpyTo str i text (List.append_ne_nil_of_right_ne_nil out (List.cons_ne_nil 0#8 []))
  simp only [Function.comp_apply, stored, List.length_append, List.append_assoc, Nat.add_assoc]

theorem map_character (str : Block) (i : Nat) (c : Byte) (output : Option (List Byte)) :
    (output.map fun out => (i + 1 + out.length, storeAll (store str i c) (i + 1) (out ++ [0#8]))) =
      (output.map (c :: ·)).map fun out => (i + out.length, storeAll str i (out ++ [0#8])) := by
  rw [Option.map_map]
  refine congrArg (Option.map · output) (funext fun out => ?_)
  simp only [Function.comp_apply, List.length_cons, List.cons_append, storeAll, Nat.add_assoc, Nat.add_comm 1]

/-- **`vsprintf`** has a result for the formats and arguments that `vfprintf` has one for, and stores just what that
writes, with a 0 behind it. -/
theorem vsprintf_eq (s : List Byte) (args : List Argument) (num str : Block) (i : Nat) :
    vsprintf s args num str i = (vfprintf s args num).map fun out => (i + out.length, storeAll str i (out ++ [0#8])) := by
  -- the format is read one character or, behind a `%`, two at a time
  induction s using List.twoStepInduction generalizing args num str i with
  | nil => rfl
  | singleton c =>
    by_cases isPercent : c = percent
    · rw [vsprintf, vfprintf, if_pos isPercent, if_pos isPercent, Option.map_none]
    · rw [vsprintf, vfprintf, if_neg isPercent, if_neg isPercent]
      rfl
  | cons_cons c conversion s ih ihNext =>
    by_cases plain : c ≠ percent
    · have writes : vfprintf (c :: conversion :: s) args num = (vfprintf (conversion :: s) args num).map (c :: ·) :=
        if_pos plain
      rw [writes, ← map_character, ← ihNext conversion args num (store str i c) (i + 1)]
      exact if_pos plain
    obtain rfl : c = percent := not_not.mp plain
    by_cases isString : conversion = 115#8
    · subst isString
      rcases args with _ | ⟨_ | text, args⟩
      · rfl
      · rfl
      · exact (ih args num _ _).trans (map_behind str i text _)
    by_cases isCharacter : conversion = 99#8
    · subst isCharacter
      rcases args with _ | ⟨p | _, args⟩
      · rfl
      · exact (ih args num _ _).trans (map_character str i _ _)
      · rfl
    by_cases isNumber : IsNumber conversion
    · rcases args with _ | ⟨n | text, args⟩
      · have stores : vsprintf (percent :: conversion :: s) [] num str i = none := by
          simp only [vsprintf, ne_eq, not_true_eq_false, if_false, isString, isCharacter, isNumber, if_true]
        have writes : vfprintf (percent :: conversion :: s) [] num = none := by
          simp only [vfprintf, ne_eq, not_true_eq_false, if_false, isString, isCharacter, isNumber, if_true]
        rw [stores, writes, Option.map_none]
      · have stores : vsprintf (percent :: conversion :: s) (.word n :: args) num str i =
            (convert conversion n num).bind fun num => (written num).bind fun text =>
              vsprintf s args num (strcpyTo str i text) (i + text.length) := by
          simp only [vsprintf, ne_eq, not_true_eq_false, if_false, isString, isCharacter, isNumber, if_true]
        rw [stores, vfprintf_number s args num isNumber n, Option.map_bind]
        refine congrArg _ (funext fun num => ?_)
        rw [Function.comp_apply, Option.map_bind]
        refine congrArg _ (funext fun text => ?_)
        rw [Function.comp_apply, ← map_behind]
        exact ih args num _ _
      · have stores : vsprintf (percent :: conversion :: s) (.string text :: args) num str i = none := by
          simp only [vsprintf, ne_eq, not_true_eq_false, if_false, isString, isCharacter, isNumber, if_true]
        have writes : vfprintf (percent :: conversion :: s) (.string text :: args) num = none := by
          simp only [vfprintf, ne_eq, not_true_eq_false, if_false, isString, isCharacter, isNumber, if_true]
        rw [stores, writes, Option.map_none]
    · have stores : vsprintf (percent :: conversion :: s) args num str i = vsprintf s args num str i := by
        simp only [vsprintf, ne_eq, not_true_eq_false, if_false, isString, isCharacter, isNumber]
      have writes : vfprintf (percent :: conversion :: s) args num = vfprintf s args num := by
        simp only [vfprintf, ne_eq, not_true_eq_false, if_false, isString, isCharacter, isNumber]
      rw [stores, writes]
      exact ih args num str i

/-- `sprintf` returns the length of what `vfprintf` writes, up to a character that is 0. -/
theorem sprintf_eq {s : List Byte} {args : List Argument} {num : Block} {out : List Byte}
    (writes : vfprintf s args num = some out) (short : out.length < 2 ^ 32) (proper : 0#8 ∉ out) (tmpStr : Block) :
    ∃ tmpStr', sprintf s args num tmpStr = some (out.length, tmpStr') ∧ CString tmpStr' out ∧
      ∀ k, out.length < k → tmpStr' k = tmpStr k := by
  have string := storeAll_string proper tmpStr
  refine ⟨storeAll tmpStr 0 (out ++ [0#8]), ?_, string, fun k behind => ?_⟩
  · rw [sprintf, vsprintf_eq, writes, Option.map_some, Option.bind_some]
    dsimp only
    rw [string.strlen_iff.mpr ⟨rfl, short⟩]
    rfl
  · rw [storeAll_apply, if_pos (Nat.zero_le k), List.getElem?_eq_none ?_, Option.getD_none]
    rw [List.length_append, List.length_singleton]
    exact Nat.succ_le_of_lt behind

end FluxOS.LibcNumbers
