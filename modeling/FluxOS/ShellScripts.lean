import FluxOS.FluxSH

/-! What a script says: its lines and their words, read a character at a time, and what is called for each
line. The shell does just that as long as every line has room and every program starts; behind a program that
does not start the rest of the script is handled twice. -/
namespace FluxOS.FluxSH
open Scanner

/-! ## What a script says -/

/-- The end of a word, if there is one, in a line. -/
def endWord (word : Text) (line : List Text) : List Text := if word = [] then line else line ++ [word]

/-- The lines of a script, as lists of words. A blank behind a backslash is part of a word; any other character
that no word has ends it. -/
def linesFrom : Text → List Text → Text → List (List Text)
  | word, line, '\\' :: ' ' :: script => linesFrom (word ++ [' ']) line script
  | word, line, c :: script =>
    if c ∈ wordChars then linesFrom (word ++ [c]) line script
    else if c = '\n' then endWord word line :: linesFrom [] [] script
    else linesFrom [] (endWord word line) script
  | word, line, [] => [endWord word line]

def lines (script : Text) : List (List Text) := linesFrom [] [] script

/-- Words with what lies in memory behind the copy of each; the first copy is the one with that number. -/
def copiedWords (dirt : Nat → Text) : Nat → List Text → List Text
  | _, [] => []
  | number, word :: words => (word ++ dirt number) :: copiedWords dirt (number + 1) words

/-- The length of the word that a text begins with, as it is written. -/
def wordLength : Text → Nat
  | '\\' :: ' ' :: rest => wordLength rest + 2
  | c :: rest => if c ∈ wordChars then wordLength rest + 1 else 0
  | [] => 0

theorem not_wordChar : '\\' ∉ wordChars ∧ ' ' ∉ wordChars ∧ '\t' ∉ wordChars ∧ '\n' ∉ wordChars := by decide

theorem wordLength_cons {c : Char} (word : c ∈ wordChars) (rest : Text) :
    wordLength (c :: rest) = wordLength rest + 1 := by
  have notEscape : c ≠ '\\' := fun same => not_wordChar.1 (same ▸ word)
  rw [wordLength.eq_2 c rest fun _ same => absurd same notEscape, if_pos word]

theorem wordLength_zero {c : Char} (other : c ∉ wordChars) {rest : Text}
    (notEscape : c ≠ '\\' ∨ rest.head? ≠ some ' ') :
    wordLength (c :: rest) = 0 := by
  rw [wordLength.eq_2 c rest ?_, if_neg other]
  rintro rest' rfl rfl
  rcases notEscape with escape | blank
  · exact escape rfl
  · exact blank rfl

theorem wordLength_blank {c : Char} (blank : c ∈ blankChars) (rest : Text) : wordLength (c :: rest) = 0 := by
  refine wordLength_zero (fun word => ?_) (.inl ?_)
  · rcases List.mem_cons.mp blank with rfl | tab
    · exact not_wordChar.2.1 word
    · exact not_wordChar.2.2.1 (List.mem_singleton.mp tab ▸ word)
  · rintro rfl
    exact absurd blank (by decide)

/-- A character that is of no word ends the one before it. -/
theorem linesFrom_other {c : Char} {script : Text} (noWord : wordLength (c :: script) = 0) (word : Text)
    (line : List Text) : linesFrom word line (c :: script) =
      if c = '\n' then endWord word line :: linesFrom [] [] script else linesFrom [] (endWord word line) script := by
  have notEscaped (rest : Text) (escape : c = '\\') (blank : script = ' ' :: rest) : False := by
    subst escape blank
    exact absurd noWord (Nat.succ_ne_zero _)
  have notWord : c ∉ wordChars := fun isWord => Nat.succ_ne_zero _ ((wordLength_cons isWord script).symm.trans noWord)
  rw [linesFrom.eq_2 word line c script notEscaped, if_neg notWord]

theorem endWord_nil (line : List Text) : endWord [] line = line := if_pos rfl

theorem words_args_ofWords (token : Text) (words : List Text) : (Args.ofWords token words).words = token :: words := by
  induction words generalizing token with
  | nil => rfl
  | cons next words ih => exact congrArg (token :: ·) (ih next)

theorem words_command_ofWords (words : List Text) : ((Command.ofWords words).map Command.words).getD [] = words := by
  match words with
  | [] => rfl
  | [_] => rfl
  | token :: next :: words => exact congrArg (token :: ·) (words_args_ofWords next words)

/-- The words of a line have one derivation. -/
theorem ofWords_words_args (args : Args) :
    ∃ token words, args.words = token :: words ∧ Args.ofWords token words = args := by
  induction args with
  | more token args ih =>
    obtain ⟨next, words, same, rfl⟩ := ih
    exact ⟨token, next :: words, congrArg (token :: ·) same, rfl⟩
  | last token => exact ⟨token, [], rfl, rfl⟩

theorem ofWords_words (command : Command) : Command.ofWords command.words = some command := by
  cases command with
  | withArgs token args =>
    obtain ⟨next, words, same, whole⟩ := ofWords_words_args args
    rw [Command.words, same, Command.ofWords, whole]
  | bare token => rfl

theorem ofWords_words_line (line : Commandline) : Commandline.ofWords line.words = line := by
  cases line with
  | commands command => rw [Commandline.words, Commandline.ofWords, ofWords_words]
  | newline => rfl

theorem parse_line (words : List Text) (line : Commandline) (tokens : List Token) :
    parse words (line.yield ++ tokens) =
      (Commandline.ofWords (words ++ line.words) :: (parse [] tokens).1, (parse [] tokens).2) := by
  rw [Commandline.yield, List.append_assoc]
  induction line.words generalizing words with
  | nil =>
    rw [List.append_nil]
    rfl
  | cons word later ih =>
    rw [List.map_cons, List.cons_append, parse, ih, List.append_assoc]
    rfl

/-- The grammar is not ambiguous: a derivation of the tokens is what the parser finds. -/
theorem parse_source (source : Source) : parse [] source.yield = (source.lines, none) := by
  rw [Source.yield]
  induction source.lines with
  | nil => rfl
  | cons line lines ih => rw [List.flatMap_cons, parse_line, ih, List.nil_append, ofWords_words_line]

section Copies

variable (dirt : Nat → Text)

end Copies

/-! ## Scripts as they are written -/

/-- A word that the scanner can read: letters and blanks, and at least one of them. -/
abbrev Word := { word : Text // word ≠ [] ∧ ∀ c ∈ word, c ∈ wordChars ∨ c = ' ' }

/-- A backslash in front of each blank. -/
def writtenWord (word : Text) : Text := word.flatMap fun c => if c = ' ' then ['\\', ' '] else [c]

def writtenLine (line : List Word) : Text := (line.flatMap fun word => writtenWord word.val ++ [' ']) ++ ['\n']

def written (script : List (List Word)) : Text := script.flatMap writtenLine

theorem linesFrom_writtenWord (before : Text) (line : List Text) {word : Text}
    (readable : ∀ c ∈ word, c ∈ wordChars ∨ c = ' ') (rest : Text) :
    linesFrom before line (writtenWord word ++ rest) = linesFrom (before ++ word) line rest := by
  induction word generalizing before with
  | nil => rw [List.append_nil]; rfl
  | cons c word ih =>
    obtain ⟨here, later⟩ := List.forall_mem_cons.mp readable
    have joined : before ++ c :: word = before ++ [c] ++ word := List.append_cons before c word
    rw [joined, ← ih _ later, writtenWord, List.flatMap_cons]
    by_cases blank : c = ' '
    · rw [if_pos blank, blank]
      rfl
    · have isWord := here.resolve_right blank
      have notEscape : c ≠ '\\' := fun same => not_wordChar.1 (same ▸ isWord)
      rw [if_neg blank, List.singleton_append, List.cons_append,
        linesFrom.eq_2 before line c _ fun _ same => absurd same notEscape, if_pos isWord]
      rfl

theorem linesFrom_writtenLine (before : List Text) (line : List Word) (rest : Text) :
    linesFrom [] before (writtenLine line ++ rest) = (before ++ line.map Subtype.val) :: linesFrom [] [] rest := by
  induction line generalizing before with
  | nil =>
    have noWord : wordLength ('\n' :: rest) = 0 := wordLength_zero not_wordChar.2.2.2 (.inl (by decide))
    refine (linesFrom_other noWord [] before).trans ?_
    rw [if_pos rfl, endWord_nil, List.map_nil, List.append_nil]
  | cons word line ih =>
    have ended : endWord word.val before = before ++ [word.val] := if_neg word.property.1
    have blank := linesFrom_other (wordLength_blank (List.mem_cons_self : ' ' ∈ blankChars)
      (writtenLine line ++ rest)) word.val before
    have split : writtenLine (word :: line) ++ rest = writtenWord word.val ++ ' ' :: (writtenLine line ++ rest) := by
      simp only [writtenLine, List.flatMap_cons, List.append_assoc, List.cons_append, List.nil_append]
    rw [split, linesFrom_writtenWord _ _ word.property.2, List.nil_append, blank, if_neg (by decide), ended, ih,
      List.map_cons, List.append_assoc]
    rfl

/-- A script that is written line by line says just these lines. -/
theorem lines_written (script : List (List Word)) :
    lines (written script) = script.map (fun line => line.map Subtype.val) ++ [[]] := by
  induction script with
  | nil => rfl
  | cons line script ih =>
    rw [lines, written, List.flatMap_cons, linesFrom_writtenLine, List.map_cons, List.nil_append, List.cons_append]
    exact congrArg _ ih

end FluxOS.FluxSH
