import FluxOS.UserMemoryOps

/-! `getopt`, which keeps its place in an argument between its calls, and the syntax
that its argument lists have: options with or without a value, several of them in one
argument, the end of the options, and the operands behind it. -/
namespace FluxOS.Getopt
open UserMemoryOps

def dash : Byte := 45#8
def colon : Byte := 58#8
def question : Byte := 63#8

/-- `optind`, and the static `o`: the rest of an argument with more options in it. -/
structure State where
  optind : Nat
  o : Option (List Byte)
  deriving DecidableEq

/-- What is written to `stderr`, with the name of the program and the character. -/
inductive Message where
  | illegal (program : List Byte) (c : Byte)
  | missing (program : List Byte) (c : Byte)
  deriving DecidableEq

/-- What a call returns, leaves in `optarg` and `optopt`, and prints. -/
structure Returned where
  retval : Int
  optarg : Option (List Byte)
  optopt : Byte
  printed : Option Message
  deriving DecidableEq

/-- The strings without their ends. -/
structure Arguments where
  argv : List (List Byte)
  optstring : List Byte
  opterr : Bool

def strchr (s : List Byte) (c : Byte) : Option (List Byte) :=
  match s.dropWhile (· ≠ c) with
  | [] => none
  | suffix => some suffix

/-- What a call does with the argument at `optind`. -/
inductive Entry where
  | done
  | terminator
  | options (o : List Byte)

def entry (a : Arguments) (optind : Nat) : Entry :=
  match a.argv[optind]? with
  | some (c :: p) => if c ≠ dash ∨ p = [] then .done else if p = [dash] then .terminator else .options p
  | _ => .done

/-- The code at `BAD`. -/
def bad (a : Arguments) (retval c : Byte) (message : List Byte → Byte → Message) : Returned :=
  if a.optstring.head? = some colon then ⟨retval.toNat, none, c, none⟩
  else ⟨question.toNat, none, c, if a.opterr then some (message (a.argv.headD []) c) else none⟩

/-- `if (!*++o)`, with `o` the rest behind the option. -/
def next (optind : Nat) (rest : List Byte) : State := if rest = [] then ⟨optind + 1, none⟩ else ⟨optind, some rest⟩

/-- The part of a call from the option character on. -/
def readOption (a : Arguments) (optind : Nat) (c : Byte) (rest : List Byte) : State × Returned :=
  match (if c = colon then none else strchr a.optstring c) with
  | none => (next optind rest, bad a question c .illegal)
  | some s =>
    if s[1]? = some colon then
      if rest ≠ [] then (⟨optind + 1, none⟩, ⟨c.toNat, some rest, 0#8, none⟩)
      else
        match a.argv[optind + 1]? with
        | some optarg => (next (optind + 1) rest, ⟨c.toNat, some optarg, 0#8, none⟩)
        | none => (next optind rest, bad a colon c .missing)
    else (next optind rest, ⟨c.toNat, none, 0#8, none⟩)

def getopt (a : Arguments) (s : State) : State × Returned :=
  match s.o with
  | some (c :: rest) => readOption a s.optind c rest
  | _ =>
    match entry a s.optind with
    | .options (c :: rest) => readOption a s.optind c rest
    | .terminator => (⟨s.optind + 1, none⟩, ⟨-1, none, 0#8, none⟩)
    | _ => (s, ⟨-1, none, 0#8, none⟩)

/-- Calls of `getopt` until one returns -1. -/
def readAll (a : Arguments) : Nat → State → Option (List Returned × State)
  | 0, _ => none
  | calls + 1, s =>
    match getopt a s with
    | (s, returned) =>
      if returned.retval = -1 then some ([], s)
      else (readAll a calls s).map fun (later, last) => (returned :: later, last)

/-! ## The syntax of arguments -/

/-- Whether the character is an option, and then whether it takes a value. -/
def takesValue (optstring : List Byte) (c : Byte) : Option Bool :=
  if c = colon then none else (strchr optstring c).map fun s => s[1]? = some colon

inductive Item where
  | option (c : Byte) (value : Option (List Byte))
  | illegal (c : Byte)
  | missing (c : Byte)
  deriving DecidableEq

/-- A colon before the options asks for no messages, and for a colon where a value is missing. -/
def Arguments.silent (a : Arguments) : Bool := a.optstring.head? = some colon

/-- The message that is due. -/
def Arguments.complaint (a : Arguments) (message : Message) : Option Message :=
  if a.opterr ∧ ¬a.silent then some message else none

/-- What `getopt` is to return for it. -/
def Item.returned (a : Arguments) : Item → Returned
  | .option c value => ⟨c.toNat, value, 0#8, none⟩
  | .illegal c => ⟨question.toNat, none, c, a.complaint (.illegal (a.argv.headD []) c)⟩
  | .missing c => ⟨(if a.silent then colon else question).toNat, none, c, a.complaint (.missing (a.argv.headD []) c)⟩

/-- The characters behind a dash spell the options, with the arguments that follow
and with those that are left of them. -/
inductive Cluster (optstring : List Byte) : List Byte → List (List Byte) → List Item → List (List Byte) → Prop where
  | flag {c args} (kind : takesValue optstring c = some false) : Cluster optstring [c] args [.option c none] args
  | illegal {c args} (kind : takesValue optstring c = none) : Cluster optstring [c] args [.illegal c] args
  | flagMore {c cs args items left} (kind : takesValue optstring c = some false) (nonempty : cs ≠ [])
      (more : Cluster optstring cs args items left) : Cluster optstring (c :: cs) args (.option c none :: items) left
  | illegalMore {c cs args items left} (kind : takesValue optstring c = none) (nonempty : cs ≠ [])
      (more : Cluster optstring cs args items left) : Cluster optstring (c :: cs) args (.illegal c :: items) left
  | joined {c value args} (kind : takesValue optstring c = some true) (nonempty : value ≠ []) :
      Cluster optstring (c :: value) args [.option c (some value)] args
  | separate {c value args} (kind : takesValue optstring c = some true) :
      Cluster optstring [c] (value :: args) [.option c (some value)] args
  | missing {c} (kind : takesValue optstring c = some true) : Cluster optstring [c] [] [.missing c] []

/-- An argument that ends the options. -/
def IsOperand (arg : List Byte) : Prop := arg.head? ≠ some dash ∨ arg = [dash]

/-- The arguments spell the options, with the operands behind them. -/
inductive Spelled (optstring : List Byte) : List (List Byte) → List Item → List (List Byte) → Prop where
  | finished : Spelled optstring [] [] []
  | operand {arg args} (kind : IsOperand arg) : Spelled optstring (arg :: args) [] (arg :: args)
  | terminator {args} : Spelled optstring ([dash, dash] :: args) [] args
  | options {cs args items left later operands} (nonempty : cs ≠ []) (other : cs ≠ [dash])
      (cluster : Cluster optstring cs args items left) (rest : Spelled optstring left later operands) :
      Spelled optstring ((dash :: cs) :: args) (items ++ later) operands

/-! ## One call -/

variable {a : Arguments} {optind : Nat}

/-- The call that enters an argument goes on with its options. -/
theorem getopt_enter {c : Byte} {rest : List Byte} (here : a.argv[optind]? = some (dash :: c :: rest))
    (other : c :: rest ≠ [dash]) : getopt a ⟨optind, none⟩ = getopt a ⟨optind, some (c :: rest)⟩ := by
  have enters : entry a optind = .options (c :: rest) := by
    simp only [entry, here]
    rw [if_neg (by simp), if_neg other]
  simp only [getopt, enters]

/-- The call that finds no option. -/
theorem getopt_operand {arg : List Byte} (here : a.argv[optind]? = some arg) (kind : IsOperand arg) :
    getopt a ⟨optind, none⟩ = (⟨optind, none⟩, ⟨-1, none, 0#8, none⟩) := by
  have ends : entry a optind = .done := by
    simp only [entry, here]
    cases arg with
    | nil => rfl
    | cons c p =>
      obtain first | alone := kind
      · exact if_pos (.inl fun same => first (by rw [same]; rfl))
      · exact if_pos (.inr (List.cons.inj alone).2)
  simp only [getopt, ends]

theorem getopt_finished (behind : a.argv[optind]? = none) :
    getopt a ⟨optind, none⟩ = (⟨optind, none⟩, ⟨-1, none, 0#8, none⟩) := by
  simp only [getopt, entry, behind]

theorem getopt_terminator (here : a.argv[optind]? = some [dash, dash]) :
    getopt a ⟨optind, none⟩ = (⟨optind + 1, none⟩, ⟨-1, none, 0#8, none⟩) := by
  have ends : entry a optind = .terminator := by
    simp only [entry, here]
    rfl
  simp only [getopt, ends]

theorem strchr_of_takesValue {c : Byte} {takes : Bool} (kind : takesValue a.optstring c = some takes) :
    ∃ s, (if c = colon then none else strchr a.optstring c) = some s ∧ (s[1]? = some colon ↔ takes) := by
  unfold takesValue at kind
  split at kind
  · cases kind
  · rename_i plain
    obtain ⟨s, found, same⟩ := Option.map_eq_some_iff.mp kind
    exact ⟨s, by rw [if_neg plain, found], by rw [← same]; simp⟩

/-- The code at `BAD` returns what is due for an option that is not known, and for one without its value. -/
theorem bad_eq (a : Arguments) (c : Byte) :
    bad a question c .illegal = Item.returned a (.illegal c) ∧ bad a colon c .missing = Item.returned a (.missing c) := by
  by_cases colonFirst : a.optstring.head? = some colon
  · simp [bad, Item.returned, Arguments.complaint, Arguments.silent, colonFirst]
  · simp [bad, Item.returned, Arguments.complaint, Arguments.silent, colonFirst]

theorem getopt_flag {c : Byte} {rest : List Byte} (kind : takesValue a.optstring c = some false) :
    getopt a ⟨optind, some (c :: rest)⟩ = (next optind rest, Item.returned a (.option c none)) := by
  obtain ⟨s, found, plain⟩ := strchr_of_takesValue kind
  simp only [getopt, readOption, found]
  rw [if_neg (by simp [plain])]
  rfl

theorem getopt_illegal {c : Byte} {rest : List Byte} (kind : takesValue a.optstring c = none) :
    getopt a ⟨optind, some (c :: rest)⟩ = (next optind rest, Item.returned a (.illegal c)) := by
  have absent : (if c = colon then none else strchr a.optstring c) = none := by
    unfold takesValue at kind
    split at kind
    · rename_i isColon
      exact if_pos isColon
    · rename_i plain
      rw [if_neg plain]
      exact Option.map_eq_none_iff.mp kind
  simp only [getopt, readOption, absent, (bad_eq a c).1]

theorem getopt_joined {c : Byte} {rest : List Byte} (kind : takesValue a.optstring c = some true)
    (nonempty : rest ≠ []) : getopt a ⟨optind, some (c :: rest)⟩ =
      (⟨optind + 1, none⟩, Item.returned a (.option c (some rest))) := by
  obtain ⟨s, found, takes⟩ := strchr_of_takesValue kind
  simp only [getopt, readOption, found]
  rw [if_pos (takes.mpr rfl), if_pos nonempty]
  rfl

theorem getopt_separate {c : Byte} {value : List Byte} (kind : takesValue a.optstring c = some true)
    (behind : a.argv[optind + 1]? = some value) : getopt a ⟨optind, some [c]⟩ =
      (⟨optind + 2, none⟩, Item.returned a (.option c (some value))) := by
  obtain ⟨s, found, takes⟩ := strchr_of_takesValue kind
  simp only [getopt, readOption, found, behind]
  rw [if_pos (takes.mpr rfl), if_neg (by simp)]
  rfl

theorem getopt_missing {c : Byte} (kind : takesValue a.optstring c = some true) (behind : a.argv[optind + 1]? = none) :
    getopt a ⟨optind, some [c]⟩ = (⟨optind + 1, none⟩, Item.returned a (.missing c)) := by
  obtain ⟨s, found, takes⟩ := strchr_of_takesValue kind
  simp only [getopt, readOption, found, behind, (bad_eq a c).2]
  rw [if_pos (takes.mpr rfl), if_neg (by simp)]
  rfl

/-! ## All calls -/

theorem retval_returned (a : Arguments) (item : Item) : (item.returned a).retval ≠ -1 := by
  have natural : ∃ n : Nat, (item.returned a).retval = n := by
    cases item with
    | option c value => exact ⟨_, rfl⟩
    | illegal c => exact ⟨_, rfl⟩
    | missing c => exact ⟨_, rfl⟩
  obtain ⟨n, same⟩ := natural
  omega

/-- Results put before the results of the later calls. -/
def before (items : List Returned) : List Returned × State → List Returned × State := fun (later, last) =>
  (items ++ later, last)

theorem before_before (first second : List Returned) (results : Option (List Returned × State)) :
    (results.map (before second)).map (before first) = results.map (before (first ++ second)) := by
  rw [Option.map_map]
  congr 1
  funext pair
  simp [before]

theorem readAll_item {s s' : State} {item : Item} (call : getopt a s = (s', item.returned a)) (calls : Nat) :
    readAll a (calls + 1) s = (readAll a calls s').map (before [item.returned a]) := by
  simp only [readAll, call, if_neg (retval_returned a item)]
  rfl

theorem readAll_last {s s' : State} (call : getopt a s = (s', ⟨-1, none, 0#8, none⟩)) (calls : Nat) :
    readAll a (calls + 1) s = some ([], s') := by
  simp only [readAll, call, ↓reduceIte]

/-- The arguments from `optind` on. -/
structure At (a : Arguments) (optind : Nat) (args : List (List Byte)) : Prop where
  within : optind ≤ a.argv.length
  drop : a.argv.drop optind = args

theorem At.head {arg : List Byte} {args : List (List Byte)} (here : At a optind (arg :: args)) :
    a.argv[optind]? = some arg := by
  rw [← List.head?_drop, here.drop]
  rfl

theorem At.tail {arg : List Byte} {args : List (List Byte)} (here : At a optind (arg :: args)) :
    At a (optind + 1) args := by
  have length := congrArg List.length here.drop
  rw [List.length_drop, List.length_cons] at length
  refine ⟨by omega, ?_⟩
  rw [← List.tail_drop, here.drop]
  rfl

theorem At.finished (here : At a optind []) : a.argv[optind]? = none := by
  rw [← List.head?_drop, here.drop]
  rfl

/-- The calls that read one argument, and the value in the next. -/
theorem readAll_cluster {cs : List Byte} {args left : List (List Byte)} {items : List Item}
    (cluster : Cluster a.optstring cs args items left) (here : At a (optind + 1) args) :
    ∃ optind', At a optind' left ∧ ∀ calls, readAll a (items.length + calls) ⟨optind, some cs⟩ =
      (readAll a calls ⟨optind', none⟩).map (before (items.map (Item.returned a))) := by
  induction cluster with
  | flag kind =>
    refine ⟨optind + 1, here, fun calls => ?_⟩
    rw [List.length_singleton, Nat.add_comm, readAll_item (getopt_flag kind)]
    rfl
  | illegal kind =>
    refine ⟨optind + 1, here, fun calls => ?_⟩
    rw [List.length_singleton, Nat.add_comm, readAll_item (getopt_illegal kind)]
    rfl
  | flagMore kind nonempty more ih =>
    obtain ⟨optind', there, ran⟩ := ih here
    refine ⟨optind', there, fun calls => ?_⟩
    rw [List.length_cons, Nat.add_right_comm, readAll_item (getopt_flag kind), next, if_neg nonempty, ran calls,
      before_before]
    rfl
  | illegalMore kind nonempty more ih =>
    obtain ⟨optind', there, ran⟩ := ih here
    refine ⟨optind', there, fun calls => ?_⟩
    rw [List.length_cons, Nat.add_right_comm, readAll_item (getopt_illegal kind), next, if_neg nonempty, ran calls,
      before_before]
    rfl
  | joined kind nonempty =>
    refine ⟨optind + 1, here, fun calls => ?_⟩
    rw [List.length_singleton, Nat.add_comm, readAll_item (getopt_joined kind nonempty)]
    rfl
  | separate kind =>
    refine ⟨optind + 2, here.tail, fun calls => ?_⟩
    rw [List.length_singleton, Nat.add_comm, readAll_item (getopt_separate kind here.head)]
    rfl
  | missing kind =>
    refine ⟨optind + 1, here, fun calls => ?_⟩
    rw [List.length_singleton, Nat.add_comm, readAll_item (getopt_missing kind here.finished)]
    rfl

theorem readAll_spelled {args operands : List (List Byte)} {items : List Item}
    (spelled : Spelled a.optstring args items operands) (here : At a optind args) :
    ∃ optind', At a optind' operands ∧ ∀ calls, items.length < calls →
      readAll a calls ⟨optind, none⟩ = some (items.map (Item.returned a), ⟨optind', none⟩) := by
  induction spelled generalizing optind with
  | finished =>
    refine ⟨optind, here, fun calls enough => ?_⟩
    obtain ⟨calls, rfl⟩ := Nat.exists_eq_add_one_of_ne_zero (by omega : calls ≠ 0)
    exact readAll_last (getopt_finished here.finished) calls
  | operand kind =>
    refine ⟨optind, here, fun calls enough => ?_⟩
    obtain ⟨calls, rfl⟩ := Nat.exists_eq_add_one_of_ne_zero (by omega : calls ≠ 0)
    exact readAll_last (getopt_operand here.head kind) calls
  | terminator =>
    refine ⟨optind + 1, here.tail, fun calls enough => ?_⟩
    obtain ⟨calls, rfl⟩ := Nat.exists_eq_add_one_of_ne_zero (by omega : calls ≠ 0)
    exact readAll_last (getopt_terminator here.head) calls
  | @options cs args items left later operands nonempty other cluster rest ih =>
    obtain ⟨optind', there, ran⟩ := readAll_cluster cluster here.tail
    obtain ⟨last, final, finished⟩ := ih there
    refine ⟨last, final, fun calls enough => ?_⟩
    rw [List.length_append] at enough
    obtain ⟨c, rest, rfl⟩ := List.exists_cons_of_ne_nil nonempty
    obtain ⟨more, rfl⟩ := Nat.exists_eq_add_of_le (by omega : items.length ≤ calls)
    have entered : readAll a (items.length + more) ⟨optind, none⟩ =
        readAll a (items.length + more) ⟨optind, some (c :: rest)⟩ := by
      obtain ⟨calls, same⟩ := Nat.exists_eq_add_one_of_ne_zero (by omega : items.length + more ≠ 0)
      simp only [same, readAll, getopt_enter here.head other]
    rw [entered, ran, finished more (by omega), List.map_append]
    rfl

/-! ## Every list of arguments -/

theorem exists_cluster (optstring : List Byte) (args : List (List Byte)) {cs : List Byte} (nonempty : cs ≠ []) :
    ∃ items left, Cluster optstring cs args items left ∧ left.length ≤ args.length := by
  induction cs with
  | nil => exact absurd rfl nonempty
  | cons c cs ih =>
    cases kind : takesValue optstring c with
    | none =>
      by_cases last : cs = []
      · subst last
        exact ⟨_, _, .illegal kind, Nat.le_refl _⟩
      · obtain ⟨items, left, more, shorter⟩ := ih last
        exact ⟨_, _, .illegalMore kind last more, shorter⟩
    | some takes =>
      cases takes with
      | false =>
        by_cases last : cs = []
        · subst last
          exact ⟨_, _, .flag kind, Nat.le_refl _⟩
        · obtain ⟨items, left, more, shorter⟩ := ih last
          exact ⟨_, _, .flagMore kind last more, shorter⟩
      | true =>
        by_cases last : cs = []
        · subst last
          cases args with
          | nil => exact ⟨_, _, .missing kind, Nat.le_refl _⟩
          | cons value args => exact ⟨_, _, .separate kind, Nat.le_succ _⟩
        · exact ⟨_, _, .joined kind last, Nat.le_refl _⟩

theorem exists_spelled (optstring : List Byte) (args : List (List Byte)) :
    ∃ items operands, Spelled optstring args items operands := by
  induction size : args.length using Nat.strongRecOn generalizing args with
  | ind n ih =>
    cases args with
    | nil => exact ⟨_, _, .finished⟩
    | cons arg args =>
      by_cases kind : IsOperand arg
      · exact ⟨_, _, .operand kind⟩
      · obtain ⟨isDash, more⟩ := not_or.mp kind
        obtain ⟨cs, rfl⟩ : ∃ cs, arg = dash :: cs := by
          cases arg with
          | nil => exact absurd (by simp) isDash
          | cons c cs => exact ⟨cs, by simpa using isDash⟩
        by_cases ends : cs = [dash]
        · subst ends
          exact ⟨_, _, .terminator⟩
        · have nonempty : cs ≠ [] := fun none => more (by rw [none])
          obtain ⟨items, left, cluster, shorter⟩ := exists_cluster optstring args nonempty
          obtain ⟨later, operands, rest⟩ := ih left.length (by rw [← size, List.length_cons]; omega) left rfl
          exact ⟨_, _, .options nonempty ends cluster rest⟩

/-- **The calls of `getopt` read the arguments**: every list of arguments spells options
and operands, and calls until -1 return those options in their order, and leave `optind`
at the operands. -/
theorem getopt_reads (program : List Byte) (args : List (List Byte)) (optstring : List Byte) (opterr : Bool) :
    let a : Arguments := ⟨program :: args, optstring, opterr⟩
    (∃ items operands, Spelled optstring args items operands) ∧
      ∀ items operands, Spelled optstring args items operands → ∃ optind,
        readAll a (items.length + 1) ⟨1, none⟩ = some (items.map (Item.returned a), ⟨optind, none⟩) ∧
          (program :: args).drop optind = operands := by
  intro a
  refine ⟨exists_spelled optstring args, fun items operands spelled => ?_⟩
  obtain ⟨optind, there, ran⟩ := readAll_spelled spelled (show At a 1 args from ⟨by simp [a], rfl⟩)
  exact ⟨optind, ran _ (Nat.lt_succ_self _), there.drop⟩

/-! ## Written arguments -/

/-- An option in arguments of its own. -/
def writtenOption : Byte × Option (List Byte) → List (List Byte)
  | (c, none) => [[dash, c]]
  | (c, some value) => [[dash, c], value]

def written (options : List (Byte × Option (List Byte))) (operands : List (List Byte)) : List (List Byte) :=
  options.flatMap writtenOption ++ [dash, dash] :: operands

/-- Options that the program knows are read back as they were written, and so are any
operands behind them. -/
theorem written_spelled {optstring : List Byte} {options : List (Byte × Option (List Byte))}
    (known : ∀ option ∈ options, option.1 ≠ dash ∧ takesValue optstring option.1 = some option.2.isSome)
    (operands : List (List Byte)) :
    Spelled optstring (written options operands) (options.map fun option => .option option.1 option.2) operands := by
  induction options with
  | nil => exact .terminator
  | cons option options ih =>
    obtain ⟨c, value⟩ := option
    obtain ⟨plain, kind⟩ := known (c, value) List.mem_cons_self
    have later := ih fun option member => known option (List.mem_cons_of_mem _ member)
    have other : [c] ≠ [dash] := fun same => plain (List.cons.inj same).1
    cases value with
    | none =>
      show Spelled optstring _ ([.option c none] ++ _) operands
      exact .options (by simp) other (.flag kind) later
    | some value =>
      show Spelled optstring _ ([.option c (some value)] ++ _) operands
      exact .options (by simp) other (.separate kind) later

/-- `-a -o out -- file` for the options `ao:`. -/
example : readAll ⟨[[112#8], [dash, 97#8], [dash, 111#8], [120#8], [dash, dash], [121#8]], [97#8, 111#8, colon], true⟩ 3
    ⟨1, none⟩ = some ([⟨97, none, 0#8, none⟩, ⟨111, some [120#8], 0#8, none⟩], ⟨5, none⟩) := by decide

end FluxOS.Getopt
