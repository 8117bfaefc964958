import FluxOS.ShellScripts

/-! What the shell calls for a script: each command once and in order, as long as every line has room, there is nothing
behind the copies of its words, and every program but the last starts. Behind one that does not start both the child and
its parent handle the rest. -/
namespace FluxOS.FluxSH

variable {W D : Type} (sys : System W D)

/-! ## What a script means -/

/-- The first directory of `path` in which the command is executable. -/
def located (w : W) (command : Text) : Option Text :=
  (path.map fun directory => pathToExecutable directory command).find? (sys.access w)

/-- The program that a line starts, and what it leaves. -/
def started (w : W) (d : D) (command : Text) (argv : List Text) : Option (Text × W) :=
  (located sys w command).bind fun file => (sys.execve w d file argv).map (file, ·)

/-- Each line that is not blank is called for once. -/
def meaning : List (List Text) → W → D → List Call × W
  | [], w, _ => ([], w)
  | [] :: lines, w, d => meaning lines w d
  | (name :: args) :: lines, w, d =>
    if name = cd then
      let (calls, w) := meaning lines w (sys.chdir w d args.head?)
      (.chdir args.head? :: calls, w)
    else match started sys w d name (name :: args) with
      | some (file, w) =>
        let (calls, w) := meaning lines w d
        (.execve file (name :: args) :: calls, w)
      | none =>
        let (calls, w) := meaning lines w d
        (.cannotExecute name :: calls, w)

/-- The names that are tried for a command, up to the first that is found. -/
def tried (w : W) (command : Text) : List Text → List Text
  | [] => []
  | directory :: directories =>
    let file := pathToExecutable directory command
    file :: if sys.access w file then [] else tried w command directories

/-- The buffer has room for the names that are tried, with the 0 behind them. -/
def RoomForNames (w : W) (command : Text) : Prop := ∀ file ∈ tried sys w command path, file.length < 256

/-- Every line has room in `args`, every name that is tried has room, nothing lies behind the copies of the words that a
call shows, and what does not start, as it is copied, is followed by blank lines only. The first word is copied with that
number. -/
def Proper (dirt : Nat → Text) : Nat → List (List Text) → W → D → Prop
  | _, [], _, _ => True
  | number, [] :: lines, w, d => Proper dirt number lines w d
  | number, (name :: args) :: lines, w, d =>
    args.length + 1 ≤ 254 ∧ dirt number = [] ∧
      if name = cd then
        (args ≠ [] → dirt (number + 1) = []) ∧
          Proper dirt (number + (args.length + 1)) lines w (sys.chdir w d args.head?)
      else RoomForNames sys w name ∧ match started sys w d name (name :: args) with
        | some (_, w) =>
          (∀ k < args.length, dirt (number + 1 + k) = []) ∧ Proper dirt (number + (args.length + 1)) lines w d
        | none =>
          started sys w d name (name :: copiedWords dirt (number + 1) args) = none ∧ ∀ line ∈ lines, line = []

/-! ## The vector of a command -/

/-- The last words of a line, as the actions have put them behind `argsIndex`. -/
structure Vector (state : ArgsState) (words : List Text) : Prop where
  index : state.argsIndex = 254 - words.length
  entries : ∀ i ≤ words.length, state.args (255 - words.length + i) = words[i]?

theorem ArgsState.store_none {state : ArgsState} {index : Int} (negative : index < 0) (entry : Option Text) :
    state.store index entry = none :=
  if_neg fun inside => Int.not_le_of_gt negative inside.1

theorem ArgsState.store_some (state : ArgsState) {index : Int} (inside : 0 ≤ index ∧ index < 256) (entry : Option Text) :
    state.store index entry =
      some { state with args := fun i => if (i : Int) = index then entry else state.args i } :=
  if_pos inside

/-- An entry in front of a vector. -/
theorem Vector.stored {state : ArgsState} {words : List Text} (vector : Vector state words) (room : words.length ≤ 254)
    (token : Text) (i : Nat) (le : i ≤ words.length + 1) :
    (if ((255 - (words.length + 1) + i : Nat) : Int) = state.argsIndex then some token
      else state.args (255 - (words.length + 1) + i)) = (token :: words)[i]? := by
  have index := vector.index
  cases i with
  | zero => exact if_pos (by omega)
  | succ i =>
    have place : 255 - (words.length + 1) + (i + 1) = 255 - words.length + i := by omega
    rw [if_neg (by omega), place, vector.entries i (by omega), List.getElem?_cons_succ]

theorem Vector.push {state : ArgsState} {words : List Text} (vector : Vector state words) (room : words.length ≤ 254)
    (token : Text) : ∃ after, state.push token = some after ∧ Vector after (token :: words) := by
  have index := vector.index
  have done : state.push token = some
      { args := fun i => if (i : Int) = state.argsIndex then some token else state.args i,
        argsIndex := state.argsIndex - 1 } := by
    rw [ArgsState.push, state.store_some (by omega)]
    rfl
  refine ⟨_, done, ?_, fun i le => vector.stored room token i le⟩
  rw [List.length_cons]
  dsimp only
  omega

/-- The actions of `args` put its words into entries 254 and below, as far as there are any. -/
theorem Args.act_vector (args : Args) {state : ArgsState} (vector : Vector state []) :
    (args.words.length ≤ 255 → ∃ after, args.act state = some after ∧ Vector after args.words) ∧
      (255 < args.words.length → args.act state = none) := by
  induction args with
  | last token =>
    exact ⟨fun _ => vector.push (Nat.zero_le _) token,
      fun many => absurd (show 255 < 1 from many) (by decide)⟩
  | more token args ih =>
    rw [Args.words, List.length_cons, Args.act]
    constructor
    · intro room
      obtain ⟨middle, done, placed⟩ := ih.1 (by omega)
      rw [done]
      exact placed.push (by omega) token
    · intro many
      by_cases full : 255 < args.words.length
      · rw [ih.2 full]
        rfl
      · obtain ⟨middle, done, placed⟩ := ih.1 (by omega)
        have index := placed.index
        rw [done, Option.bind_some, ArgsState.push, ArgsState.store_none (by omega)]
        rfl

/-- A vector that ends with a null pointer is read as its words. -/
theorem ArgsState.argvFrom_eq {state : ArgsState} {words : List Text} {left first : Nat}
    (entries : ∀ i ≤ words.length, state.args (first + i) = words[i]?) (enough : words.length < left) :
    state.argvFrom left first = some words := by
  induction words generalizing left first with
  | nil =>
    obtain ⟨left, rfl⟩ := Nat.exists_eq_add_one.mpr enough
    rw [argvFrom, show state.args first = none from entries 0 (Nat.le_refl _)]
  | cons word words ih =>
    obtain ⟨left, rfl⟩ := Nat.exists_eq_add_one.mpr (Nat.zero_lt_of_lt enough)
    rw [List.length_cons] at enough
    have later : state.argvFrom left (first + 1) = some words := by
      refine ih (fun i le => ?_) (by omega)
      rw [Nat.add_assoc, Nat.add_comm 1 i, entries (i + 1) (Nat.succ_le_succ le), List.getElem?_cons_succ]
    rw [argvFrom, show state.args first = some word from entries 0 (Nat.zero_le _)]
    exact congrArg (Option.map (word :: ·)) later

theorem ArgsState.argv_eq {state : ArgsState} {words : List Text} (short : words.length ≤ 255)
    (index : state.argsIndex = 255 - words.length)
    (entries : ∀ i ≤ words.length, state.args (255 - words.length + i) = words[i]?) : state.argv = some words := by
  have first : state.argsIndex.toNat = 255 - words.length := by omega
  rw [argv, first]
  exact argvFrom_eq entries (by omega)

/-- The words of a command behind the first. -/
theorem Command.words_tail (command : Command) {state : ArgsState} (vector : Vector state []) :
    ∃ token words, command.words = token :: words ∧
      (words.length ≤ 255 → ∃ after, Vector after words ∧
        command.act state = (after.store after.argsIndex (some token)).bind fun state =>
          state.store (state.argsIndex - 1) none) ∧
      (255 < words.length → command.act state = none) := by
  cases command with
  | bare token => exact ⟨token, [], rfl, fun _ => ⟨state, vector, rfl⟩, fun many => absurd many (by simp)⟩
  | withArgs token args =>
    refine ⟨token, args.words, rfl, fun room => ?_, fun many => ?_⟩
    · obtain ⟨after, done, placed⟩ := (args.act_vector vector).1 room
      refine ⟨after, placed, ?_⟩
      rw [Command.act, done]
      rfl
    · rw [Command.act, (args.act_vector vector).2 many]
      rfl

/-- A command of at most 254 words leaves them as its vector, and the entry behind it null; one of more words is
written in front of `args`. -/
theorem Command.act_spec (command : Command) {state : ArgsState} (vector : Vector state []) :
    (command.words.length ≤ 254 → ∃ after, command.act state = some after ∧ after.argv = some command.words ∧
      Vector { after with argsIndex := 254 } []) ∧
    (254 < command.words.length → command.act state = none) := by
  obtain ⟨token, words, same, act, tooMany⟩ := command.words_tail vector
  rw [same, List.length_cons]
  by_cases short : words.length ≤ 255
  swap
  · exact ⟨fun room => absurd room (by omega), fun _ => tooMany (Nat.lt_of_not_le short)⟩
  obtain ⟨placed, vector', done⟩ := act short
  have index := vector'.index
  rw [done]
  constructor
  · intro room
    have first := placed.store_some (show 0 ≤ placed.argsIndex ∧ placed.argsIndex < 256 by omega) (some token)
    refine ⟨_, by rw [first, Option.bind_some]; exact ArgsState.store_some _ (by dsimp only; omega) none, ?_, rfl, ?_⟩
    · refine ArgsState.argv_eq (by rw [List.length_cons]; omega) (by rw [List.length_cons]; dsimp only; omega) ?_
      intro i le
      rw [List.length_cons] at le ⊢
      exact (if_neg (by dsimp only; omega)).trans (vector'.stored (by omega) token i le)
    · intro i le
      cases Nat.le_zero.mp le
      have last := vector'.entries words.length (Nat.le_refl _)
      have place : 255 - words.length + words.length = 255 := by omega
      rw [place, List.getElem?_eq_none (Nat.le_refl _)] at last
      refine (if_neg ?_).trans ((if_neg ?_).trans last)
      · dsimp only [List.length_nil]
        omega
      · dsimp only [List.length_nil]
        omega
  · intro many
    by_cases here : words.length = 255
    · rw [ArgsState.store_none (by omega)]
      rfl
    · rw [placed.store_some (by omega), Option.bind_some]
      exact ArgsState.store_none (by dsimp only; omega) none

/-! ## The names that are tried -/

/-- The loop over `path` finds the first executable file, if the names that are tried have room. -/
theorem search_some (w : W) (command : Text) {directories : List Text}
    (room : ∀ file ∈ tried sys w command directories, file.length < 256) : search sys w command directories =
      some ((directories.map fun directory => pathToExecutable directory command).find? (sys.access w)) := by
  induction directories with
  | nil => rfl
  | cons directory directories ih =>
    rw [tried] at room
    obtain ⟨here, later⟩ := List.forall_mem_cons.mp room
    rw [search, if_pos (Nat.succ_le_of_lt here), List.map_cons, List.find?_cons]
    cases found : sys.access w (pathToExecutable directory command) with
    | true => rfl
    | false =>
      rw [found] at later
      exact ih later

theorem ofWords_cons (name : Text) (args : List Text) :
    ∃ command, Command.ofWords (name :: args) = some command ∧ command.words = name :: args := by
  have same := words_command_ofWords (name :: args)
  cases command : Command.ofWords (name :: args) with
  | none =>
    rw [command] at same
    exact absurd same (List.cons_ne_nil _ _).symm
  | some command' =>
    rw [command] at same
    exact ⟨command', rfl, same⟩

/-- The shell behind the actions of a command. -/
theorem run_cons {command : Command} {state after : ArgsState} {name : Text} {args : List Text}
    (acted : command.act state = some after) (vector : after.argv = some (name :: args)) (rest : List Command) (w : W)
    (d : D) : run sys (command :: rest) w d state =
      if name = cd then
        (run sys rest w (sys.chdir w d args.head?) { after with argsIndex := 254 }).map fun done =>
          (.chdir args.head? :: done.1, done.2)
      else (search sys w name path).bind fun found =>
        match found.bind fun file => (sys.execve w d file (name :: args)).map (file, ·) with
        | some (file, w) => (run sys rest w d { after with argsIndex := 254 }).map fun done =>
            (.execve file (name :: args) :: done.1, done.2)
        | none => (run sys rest w d { after with argsIndex := 254 }).bind fun child =>
            (run sys rest child.2 d { after with argsIndex := 254 }).map fun done =>
              (.cannotExecute name :: child.1 ++ done.1, done.2) := by
  have second : (name :: args)[1]? = args.head? := List.head?_eq_getElem?.symm
  rw [run, acted, Option.bind_eq_bind, Option.bind_some, vector, Option.bind_eq_bind, Option.bind_some, second]
  simp only [Option.map_eq_bind]
  rfl

/-- A call that may be made for a command. -/
def Call.IsOf (name : Text) : Call → Prop
  | .chdir _ => name = cd
  | .execve _ argv => name ≠ cd ∧ argv.head? = some name
  | .cannotExecute command => name ≠ cd ∧ command = name

theorem Call.IsOf.unique {name other : Text} {call : Call} (isOf : call.IsOf name) (isOf' : call.IsOf other) :
    other = name := by
  cases call with
  | chdir path => exact Eq.trans isOf' (Eq.symm isOf)
  | execve path argv => exact Option.some.inj (isOf'.2.symm.trans isOf.2)
  | cannotExecute command => exact isOf'.2.symm.trans isOf.2

section Copies

variable (dirt : Nat → Text)

end Copies

/-- A line for a program, with room for its words and for its name behind each directory. -/
def ProgramLine (line : List Text) : Prop :=
  ∃ name args, line = name :: args ∧ name ≠ cd ∧ args.length + 1 ≤ 254 ∧ name.length ≤ 245

theorem tried_subset (w : W) (command : Text) (directories : List Text) :
    ∀ file ∈ tried sys w command directories, ∃ directory ∈ directories, file = pathToExecutable directory command := by
  induction directories with
  | nil => exact List.forall_mem_nil _
  | cons directory directories ih =>
    refine List.forall_mem_cons.mpr ⟨⟨directory, List.mem_cons_self, rfl⟩, fun file mem => ?_⟩
    split at mem
    · cases mem
    · obtain ⟨further, listed, same⟩ := ih file mem
      exact ⟨further, List.mem_cons_of_mem _ listed, same⟩

theorem roomForNames_of_short {name : Text} (short : name.length ≤ 245) (w : W) : RoomForNames sys w name := by
  intro file mem
  obtain ⟨directory, listed, rfl⟩ := tried_subset sys w name path file mem
  have directories : ∀ directory ∈ path, directory.length ≤ 9 := by decide
  have limit := directories directory listed
  rw [pathToExecutable, List.length_append, List.length_append, List.length_singleton]
  omega

/-- Where no program is found the shells double with every line: all of them go on. -/
theorem run_missing (missing : ∀ w file, sys.access w file = false) {lines : List (List Text)}
    (programs : ∀ line ∈ lines, ProgramLine line) (w : W) (d : D) {state : ArgsState} (vector : Vector state []) :
    ∃ calls, run sys (lines.filterMap Command.ofWords) w d state = some (calls, w) ∧
      calls.length + 1 = 2 ^ lines.length := by
  induction lines generalizing state with
  | nil => exact ⟨[], rfl, rfl⟩
  | cons line lines ih =>
    obtain ⟨⟨name, args, rfl, notCd, room, short⟩, later⟩ := List.forall_mem_cons.mp programs
    obtain ⟨command, isCommand, words⟩ := ofWords_cons name args
    have act := command.act_spec vector
    rw [words, List.length_cons] at act
    obtain ⟨after, acted, argv, ready⟩ := act.1 room
    obtain ⟨calls, ran, count⟩ := ih later ready
    have nowhere : (path.map fun directory => pathToExecutable directory name).find? (sys.access w) = none :=
      List.find?_eq_none.mpr fun file _ found => Bool.false_ne_true ((missing w file).symm.trans found)
    refine ⟨.cannotExecute name :: calls ++ calls, ?_, ?_⟩
    · rw [List.filterMap_cons_some isCommand, run_cons sys acted argv, if_neg notCd,
        search_some sys w name (roomForNames_of_short sys short w), nowhere, Option.bind_some]
      dsimp only [Option.bind_none]
      rw [ran, Option.bind_some, ran]
      rfl
    · rw [List.cons_append, List.length_cons, List.length_append, List.length_cons, Nat.pow_succ]
      omega

end FluxOS.FluxSH
