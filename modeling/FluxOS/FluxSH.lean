import FluxOS.Scanner
import Mathlib.Tactic.Common

/-! The shell: its scanner, the grammar with the actions of its rules, and the handler of a command. The
script lies in the buffer of the scanner as a whole before the first command is handled, and standard output
is no terminal, so that no prompt is made. -/
namespace FluxOS.FluxSH
open Scanner

abbrev Text := List Char

inductive Token where
  | cmdToken (text : Text)
  | newline

/-! ## The scanner -/

/-- The letters, `_`, `.`, `/` and the hyphen. -/
def wordChars : List Char :=
  (List.range' 97 26).map Char.ofNat ++ (List.range' 65 26).map Char.ofNat ++ ['_', '.', '/', '-']

def blankChars : List Char := [' ', '\t']

/-- `CMDTOK`, `SPACE` and `NL`. -/
def cmdTok : RegularExpression Char := (oneOf wordChars + .char '\\' * oneOf [' ']).star
def space : RegularExpression Char := oneOrMore (oneOf blankChars)
def nl : RegularExpression Char := oneOf ['\n']

/-- The rules, with `yytext` for what is returned. -/
def spaceRule : Rule Char Token := ⟨space, fun _ => none⟩
def nlRule : Rule Char Token := ⟨nl, fun _ => some .newline⟩
def cmdTokRule : Rule Char Token := ⟨cmdTok, fun yytext => some (.cmdToken yytext)⟩

def rules : List (Rule Char Token) := [spaceRule, nlRule, cmdTokRule]

/-- `strdupNoEscapes`, with what the block that `malloc` gives holds behind the characters that are written, up
to the next 0. No 0 is written. -/
def strdupNoEscapes (dirt : Text) : Text → Text
  | [] => dirt
  | c :: str => if c ≠ '\\' then c :: strdupNoEscapes dirt str else strdupNoEscapes dirt str

/-- The tokens with the copies of their texts, the first of which is the one with this number. -/
def copied (dirt : Nat → Text) : Nat → List Token → List Token
  | _, [] => []
  | number, .cmdToken yytext :: tokens =>
    .cmdToken (strdupNoEscapes (dirt number) yytext) :: copied dirt (number + 1) tokens
  | number, .newline :: tokens => .newline :: copied dirt number tokens

/-! ## The grammar -/

inductive Args where
  | more (token : Text) (args : Args)
  | last (token : Text)

inductive Command where
  | withArgs (token : Text) (args : Args)
  | bare (token : Text)

inductive Commandline where
  | commands (command : Command)
  | newline

inductive Source where
  | last (line : Commandline)
  | more (line : Commandline) (source : Source)

def Args.words : Args → List Text
  | more token args => token :: args.words
  | last token => [token]

def Command.words : Command → List Text
  | withArgs token args => token :: args.words
  | bare token => [token]

def Commandline.words : Commandline → List Text
  | commands command => command.words
  | newline => []

/-- The tokens of a line. -/
def Commandline.yield (line : Commandline) : List Token := line.words.map Token.cmdToken ++ [.newline]

def Source.lines : Source → List Commandline
  | last line => [line]
  | more line source => line :: source.lines

def Source.yield (source : Source) : List Token := source.lines.flatMap Commandline.yield

def Args.ofWords : Text → List Text → Args
  | token, [] => last token
  | token, next :: words => more token (ofWords next words)

def Command.ofWords : List Text → Option Command
  | [] => none
  | [token] => some (bare token)
  | token :: next :: words => some (withArgs token (Args.ofWords next words))

def Commandline.ofWords (words : List Text) : Commandline :=
  match Command.ofWords words with
  | some command => commands command
  | none => newline

/-- The parser, with the words of the line so far: the lines, and the command of a last line that no newline
ends. It is reduced by default, before the parser sees that the newline is missing. -/
def parse : List Text → List Token → List Commandline × Option Command
  | words, [] => ([], Command.ofWords words)
  | words, .cmdToken text :: tokens => parse (words ++ [text]) tokens
  | words, .newline :: tokens =>
    let (lines, last) := parse [] tokens
    (Commandline.ofWords words :: lines, last)

/-- The commands, in the order of their actions. -/
def commands (parsed : List Commandline × Option Command) : List Command :=
  parsed.1.filterMap (fun line => Command.ofWords line.words) ++ parsed.2.toList

/-! ## The actions -/

/-- The entries of `args`, and `argsIndex`. -/
structure ArgsState where
  args : Nat → Option Text
  argsIndex : Int

/-- What `main` leaves, which is what each command leaves of the index and the last entry. -/
def ArgsState.initial : ArgsState := ⟨fun _ => none, 254⟩

namespace ArgsState

/-- A write to an entry; there are 256. -/
def store (state : ArgsState) (index : Int) (entry : Option Text) : Option ArgsState :=
  if 0 ≤ index ∧ index < 256 then
    some { state with args := fun i => if (i : Int) = index then entry else state.args i }
  else none

/-- The action of both rules of `args`. -/
def push (state : ArgsState) (token : Text) : Option ArgsState :=
  (state.store state.argsIndex (some token)).map fun state => { state with argsIndex := state.argsIndex - 1 }

/-- The entries from one on, up to the first null pointer. Behind the last entry there is nothing to read. -/
def argvFrom (state : ArgsState) : Nat → Nat → Option (List Text)
  | 0, _ => none
  | left + 1, index =>
    match state.args index with
    | none => some []
    | some token => (argvFrom state left (index + 1)).map (token :: ·)

/-- `args + argsIndex`, as a vector. -/
def argv (state : ArgsState) : Option (List Text) :=
  state.argvFrom (256 - state.argsIndex.toNat) state.argsIndex.toNat

end ArgsState

/-- The actions of the rules of `args`: those of the words behind a word come first. -/
def Args.act : Args → ArgsState → Option ArgsState
  | more token args, state => (args.act state).bind fun state => state.push token
  | last token, state => state.push token

/-- The action of a rule of `command`, up to the call of `commandHandler`: the state that its vector lies in. -/
def Command.act (command : Command) (state : ArgsState) : Option ArgsState := do
  let (token, state) ← match command with
    | withArgs token args => (args.act state).map (token, ·)
    | bare token => some (token, state)
  let state ← state.store state.argsIndex (some token)
  state.store (state.argsIndex - 1) none

/-! ## The handler -/

/-- The system under the shell: the working directory after `chdir`, whether `access` finds an executable file,
and what a program that `execve` starts leaves when it has exited. -/
structure System (W D : Type) where
  chdir : W → D → Option Text → D
  access : W → Text → Bool
  execve : W → D → Text → List Text → Option W

inductive Call where
  | chdir (path : Option Text)
  | execve (path : Text) (argv : List Text)
  | cannotExecute (command : Text)

def cd : Text := ['c', 'd']

/-- `path`. -/
def path : List Text :=
  [['/', 'b', 'i', 'n'], ['/', 's', 'b', 'i', 'n'], ['/', 'u', 's', 'r', '/', 'b', 'i', 'n'],
    ['/', 'u', 's', 'r', '/', 's', 'b', 'i', 'n']]

def pathToExecutable (directory command : Text) : Text := directory ++ ['/'] ++ command

variable {W D : Type} (sys : System W D)

/-- The loop over `path`: the executable file that is found, if `strcat` has room for each that is tried. -/
def search (w : W) (command : Text) : List Text → Option (Option Text)
  | [] => some none
  | directory :: directories =>
    let file := pathToExecutable directory command
    if file.length + 1 ≤ 256 then if sys.access w file then some (some file) else search w command directories
    else none

/-- The shell, from a command on: the calls, and what they leave. A child that starts no program returns from the
handler: it goes on with the commands that are left, as its parent does when it has exited. -/
def run : List Command → W → D → ArgsState → Option (List Call × W)
  | [], w, _, _ => some ([], w)
  | command :: rest, w, d, state => do
    let state ← command.act state
    let argv ← state.argv
    let after : ArgsState := { state with argsIndex := 254 }
    let name ← argv.head?
    if name = cd then
      let (calls, w) ← run rest w (sys.chdir w d argv[1]?) after
      return (.chdir argv[1]? :: calls, w)
    else
      let found ← search sys w name path
      match found.bind fun file => (sys.execve w d file argv).map (file, ·) with
      | some (file, w) =>
        let (calls, w) ← run rest w d after
        return (.execve file argv :: calls, w)
      | none =>
        let (inChild, w) ← run rest w d after
        let (calls, w) ← run rest w d after
        return (.cannotExecute name :: inChild ++ calls, w)

/-- The shell with a script. -/
def main (dirt : Nat → Text) (script : Text) (w : W) (d : D) : Option (List Call × W) :=
  run sys (commands (parse [] (copied dirt 0 (scan rules script)))) w d ArgsState.initial

end FluxOS.FluxSH
