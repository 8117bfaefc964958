import FluxOS.VtConsole

/-! `Vt::putc` on any console device: the state of an escape sequence, and where its parameters are kept. -/
namespace FluxOS
open Words UserMemoryOps

/-- `ConsoleDevice`: the functions of a driver, on the state that it keeps. -/
structure ConsoleDevice (σ : Type) where
  clear : σ → σ
  print : Byte → σ → σ
  setBackColor : Video.Color → σ → σ
  setTextColor : Video.Color → σ → σ
  height : σ → Int
  width : σ → Int
  gotoXY : Int → Int → σ → σ
  x : σ → Int
  setX : Int → σ → σ
  y : σ → Int
  setY : Int → σ → σ

namespace Vt

def maxParams : Nat := 32

/-- The console with what `putc` keeps from one character to the next. -/
structure Terminal (σ : Type) where
  console : σ
  state : EscapeState
  params : Nat → Word
  nParam : Nat
  SavedX : Word
  SavedY : Word

section Device

variable {σ : Type} (dev : ConsoleDevice σ)

/-- `cX = console->x()` and the like: an `int` in an unsigned variable. -/
def unsignedX (s : σ) : Word := BitVec.ofInt 32 (dev.x s)

def unsignedY (s : σ) : Word := BitVec.ofInt 32 (dev.y s)

def unsignedWidth (s : σ) : Word := BitVec.ofInt 32 (dev.width s)

def unsignedHeight (s : σ) : Word := BitVec.ofInt 32 (dev.height s)

/-- `for (int i = 0; i < tmp; i++) console->print(' ');` -/
def printSpaces : Nat → σ → σ
  | 0, s => s
  | n + 1, s => printSpaces n (dev.print (ascii ' ') s)

/-- The `switch` of `J`. -/
def eraseDisplayOn (s : σ) (mode : Word) : σ :=
  let cX := unsignedX dev s
  let cY := unsignedY dev s
  let width := unsignedWidth dev s
  if mode = 0#32 then
    let tmp := ((unsignedHeight dev s - cY) * width + width - cX).toInt
    dev.gotoXY cX.toInt cY.toInt (printSpaces dev tmp.toNat s)
  else if mode = 1#32 then
    let s := dev.gotoXY 1 1 s
    let tmp := ((cY - 1#32) * unsignedWidth dev s + cX).toInt
    dev.gotoXY cX.toInt cY.toInt (printSpaces dev tmp.toNat s)
  else if mode = 2#32 then dev.clear s
  else s

/-- The `switch` of `K`. -/
def eraseLineOn (s : σ) (mode : Word) : σ :=
  let cX := unsignedX dev s
  if mode = 0#32 then dev.setX cX.toInt (printSpaces dev ((unsignedWidth dev s - cX).toInt + 1).toNat s)
  else if mode = 1#32 then dev.setX cX.toInt (printSpaces dev cX.toNat (dev.setX 1 s))
  else if mode = 2#32 then
    let s := dev.setX 1 s
    dev.setX cX.toInt (printSpaces dev (dev.width s).toNat s)
  else s

/-- The `switch` over one parameter of `m`. -/
def setAttributeOn (s : σ) (param : Word) : σ :=
  match textColors.lookup param with
  | some color => dev.setTextColor color s
  | none =>
    match backColors.lookup param with
    | some color => dev.setBackColor color s
    | none => s

end Device

namespace Terminal

variable {σ : Type} (t : Terminal σ)

/-- `params[i]`, of the 32 that there are. -/
def param (i : Nat) : Option Word := if i < maxParams then some (t.params i) else none

/-- `params[i] = value`. -/
def setParam (i : Nat) (value : Word) : Option (Terminal σ) :=
  if i < maxParams then some { t with params := Function.update t.params i value } else none

/-- `if (params[i] == 0) params[i] = 1;` -/
def orOne (i : Nat) : Option (Terminal σ) := do
  if (← t.param i) = 0#32 then t.setParam i 1#32 else some t

/-- The end of a sequence. -/
def done (console : σ) : Terminal σ := { t with console := console, state := .normal }

variable (dev : ConsoleDevice σ)

def cursorUp : Option (Terminal σ) := do
  let t ← t.orOne 0
  let p ← t.param 0
  let cY := unsignedY dev t.console
  return t.done (if p < cY then dev.setY (cY - p).toInt t.console else t.console)

def cursorDown : Option (Terminal σ) := do
  let t ← t.orOne 0
  let p ← t.param 0
  return t.done (dev.setY (unsignedY dev t.console + p).toInt t.console)

def cursorForward : Option (Terminal σ) := do
  let t ← t.orOne 0
  let p ← t.param 0
  return t.done (dev.setX (unsignedX dev t.console + p).toInt t.console)

def cursorBackward : Option (Terminal σ) := do
  let t ← t.orOne 0
  let p ← t.param 0
  let cX := unsignedX dev t.console
  return t.done (if p < cX then dev.setX (cX - p).toInt t.console else t.console)

/-- The loop of `m`. -/
def attributes : Option (Terminal σ) := do
  let params ← (List.range (t.nParam + 1)).mapM t.param
  return t.done (params.foldl (setAttributeOn dev) t.console)

def home : Option (Terminal σ) := do
  let t ← t.orOne 0
  let t ← t.orOne 1
  let first ← t.param 0
  let second ← t.param 1
  return t.done (dev.gotoXY second.toInt first.toInt t.console)

/-- The loop that cleans the parameters. -/
def clean : Option (Terminal σ) :=
  (List.range (t.nParam + 1)).foldlM (fun (t : Terminal σ) i => t.setParam i 0#32) t

def digit (c : Byte) : Option (Terminal σ) := do
  let p ← t.param t.nParam
  t.setParam t.nParam (p * 10#32 + (c - ascii '0').setWidth 32)

def semicolon : Option (Terminal σ) :=
  if t.nParam < maxParams then ({ t with nParam := t.nParam + 1 } : Terminal σ).setParam (t.nParam + 1) 0#32
  else some (t.done t.console)

/-- A character of a sequence behind `ESC [`. -/
def sequence (c : Byte) : Option (Terminal σ) :=
  if ascii '0' ≤ c ∧ c ≤ ascii '9' then t.digit c
  else if c = ascii ';' then t.semicolon
  else if c = ascii 'A' then t.cursorUp dev
  else if c = ascii 'B' then t.cursorDown dev
  else if c = ascii 'C' then t.cursorForward dev
  else if c = ascii 'D' then t.cursorBackward dev
  -- the sequence goes on behind these two and behind a question mark
  else if c = ascii 'E' ∨ c = ascii 'F' then t.orOne 0
  else if c = ascii 'u' then some (t.done (dev.gotoXY t.SavedX.toInt t.SavedY.toInt t.console))
  else if c = ascii 's' then
    some { t.done t.console with SavedX := unsignedX dev t.console, SavedY := unsignedY dev t.console }
  else if c = ascii 'm' then t.attributes dev
  else if c = ascii 'H' then t.home dev
  else if c = ascii 'J' then (t.param 0).map fun mode => t.done (eraseDisplayOn dev t.console mode)
  else if c = ascii 'K' then (t.param 0).map fun mode => t.done (eraseLineOn dev t.console mode)
  else if c = ascii '?' then some t
  else some (t.done t.console)

/-- `putc`. -/
def putc (c : Byte) : Option (Terminal σ) :=
  match t.state with
  | .normal =>
    if c = 0x1B#8 then some { t with state := .escape }
    else some { t with console := dev.print c t.console }
  | .escape =>
    if c = ascii '[' then ({ t with state := .csi } : Terminal σ).clean.map fun t => { t with nParam := 0 }
    else some { t with state := .normal }
  | .csi => t.sequence dev c

/-- The globals as they are before anything was written. -/
def start (console : σ) : Terminal σ := ⟨console, .normal, fun _ => 0#32, 0, 0#32, 0#32⟩

/-- The number of the parameter is within the array now and behind every character, and so is every access. -/
def ParamsInside (t : Terminal σ) : List Byte → Prop
  | [] => t.nParam ≤ maxParams - 1
  | c :: later => t.nParam ≤ maxParams - 1 ∧ ∃ next, t.putc dev c = some next ∧ ParamsInside next later

/-- A semicolon has a parameter left that it can begin. -/
def FindsParam (t : Terminal σ) (c : Byte) : Prop := t.state = .csi → c = ascii ';' → t.nParam + 1 < maxParams

/-- Every semicolon of the stream has. -/
def FindsParams (t : Terminal σ) : List Byte → Prop
  | [] => True
  | c :: later => t.FindsParam c ∧ ∀ next, t.putc dev c = some next → FindsParams next later

/-! ## Parameters -/

section Parameters

variable {dev} {t : Terminal σ} {c : Byte}

/-- A parameter, or 1 for one that is missing. -/
def oneOr (p : Word) : Word := if p = 0#32 then 1#32 else p

/-- The result is there, and its number of the parameter within the array. -/
def Bounded (result : Option (Terminal σ)) : Prop := ∃ next, result = some next ∧ next.nParam < maxParams

theorem param_inside {i : Nat} (inside : i < maxParams) : t.param i = some (t.params i) := if_pos inside

theorem bounded_setParam (few : t.nParam < maxParams) {i : Nat} (inside : i < maxParams) (value : Word) :
    Bounded (t.setParam i value) := ⟨_, if_pos inside, few⟩

/-- What `orOne` makes of a parameter inside the array. -/
theorem orOne_inside {i : Nat} (inside : i < maxParams) : t.orOne i =
    some { t with params := Function.update t.params i (oneOr (t.params i)) } := by
  simp only [orOne, oneOr, param_inside inside, Option.bind_eq_bind, Option.bind_some]
  split
  · exact if_pos inside
  · rw [Function.update_eq_self]

theorem mapM_param {places : List Nat} (inside : ∀ i ∈ places, i < maxParams) :
    places.mapM t.param = some (places.map t.params) := by
  induction places with
  | nil => rfl
  | cons i places ih =>
    simp only [List.mapM_cons, param_inside (inside i (.head _)), ih fun j mem => inside j (.tail _ mem),
      Option.bind_eq_bind, Option.bind_some, List.map_cons]
    rfl

/-- Only the parameters are cleaned. -/
theorem clean_eq (few : t.nParam < maxParams) : ∃ params, t.clean = some { t with params := params } := by
  have loop (places : List Nat) (inside : ∀ i ∈ places, i < maxParams) (params : Nat → Word) :
      ∃ params', places.foldlM (fun (t : Terminal σ) i => t.setParam i 0#32) { t with params := params } =
        some { t with params := params' } := by
    induction places generalizing params with
    | nil => exact ⟨params, rfl⟩
    | cons i places ih =>
      obtain ⟨params', cleaned⟩ := ih (fun j mem => inside j (.tail _ mem)) (Function.update params i 0#32)
      exact ⟨params', by rw [List.foldlM_cons, setParam, if_pos (inside i (.head _))]; exact cleaned⟩
  exact loop _ (fun i mem => Nat.lt_of_lt_of_le (List.mem_range.mp mem) few) t.params

theorem bounded_semicolon_iff (few : t.nParam < maxParams) : Bounded t.semicolon ↔ t.nParam + 1 < maxParams := by
  rw [semicolon, if_pos few, setParam]
  by_cases inside : t.nParam + 1 < maxParams
  · rw [if_pos inside]
    exact iff_of_true ⟨_, rfl, inside⟩ inside
  · rw [if_neg inside]
    exact iff_of_false (fun ⟨_, same, _⟩ => nomatch same) inside

/-! What the commands do that begin with `if (params[0] == 0) params[0] = 1;`. -/

/-- The parameters behind such a command. -/
def withFirst (t : Terminal σ) : Terminal σ :=
  { t with params := Function.update t.params 0 (oneOr (t.params 0)) }

theorem orOne_first : t.orOne 0 = some t.withFirst := orOne_inside (show 0 < maxParams by decide)

theorem withFirst_param : t.withFirst.param 0 = some (oneOr (t.params 0)) := by
  rw [param_inside (show 0 < maxParams by decide)]
  change some (Function.update t.params 0 (oneOr (t.params 0)) 0) = _
  rw [Function.update_self]

theorem cursorUp_eq : t.cursorUp dev = some (t.withFirst.done (if oneOr (t.params 0) < unsignedY dev t.console then
    dev.setY (unsignedY dev t.console - oneOr (t.params 0)).toInt t.console else t.console)) := by
  simp only [cursorUp, orOne_first, withFirst_param, Option.bind_eq_bind, Option.bind_some]
  rfl

theorem cursorDown_eq : t.cursorDown dev =
    some (t.withFirst.done (dev.setY (unsignedY dev t.console + oneOr (t.params 0)).toInt t.console)) := by
  simp only [cursorDown, orOne_first, withFirst_param, Option.bind_eq_bind, Option.bind_some]
  rfl

theorem cursorForward_eq : t.cursorForward dev =
    some (t.withFirst.done (dev.setX (unsignedX dev t.console + oneOr (t.params 0)).toInt t.console)) := by
  simp only [cursorForward, orOne_first, withFirst_param, Option.bind_eq_bind, Option.bind_some]
  rfl

theorem cursorBackward_eq : t.cursorBackward dev = some (t.withFirst.done
    (if oneOr (t.params 0) < unsignedX dev t.console then
      dev.setX (unsignedX dev t.console - oneOr (t.params 0)).toInt t.console else t.console)) := by
  simp only [cursorBackward, orOne_first, withFirst_param, Option.bind_eq_bind, Option.bind_some]
  rfl

theorem home_eq : t.home dev = some (({ t.withFirst with
    params := Function.update t.withFirst.params 1 (oneOr (t.params 1)) } : Terminal σ).done
      (dev.gotoXY (oneOr (t.params 1)).toInt (oneOr (t.params 0)).toInt t.console)) := by
  have one : 1 < maxParams := by decide
  have zero : 0 < maxParams := by decide
  simp only [home, orOne_first, orOne_inside one, param_inside zero, param_inside one, Option.bind_eq_bind,
    Option.bind_some, withFirst]
  simp [done]

theorem attributes_eq (few : t.nParam < maxParams) : t.attributes dev =
    some (t.done (((List.range (t.nParam + 1)).map t.params).foldl (setAttributeOn dev) t.console)) := by
  rw [attributes, mapM_param fun i mem => Nat.lt_of_lt_of_le (List.mem_range.mp mem) few]
  rfl

theorem bounded_sequence (few : t.nParam < maxParams) (room : c = ascii ';' → t.nParam + 1 < maxParams) :
    Bounded (t.sequence dev c) := by
  have zero : 0 < maxParams := by decide
  have stays (console : σ) : Bounded (some (t.done console)) := ⟨_, rfl, few⟩
  rw [sequence]
  refine iteInduction (fun _ => ?_) fun _ => ?_
  · rw [digit, param_inside few]
    exact bounded_setParam few few _
  refine iteInduction (fun separator => (bounded_semicolon_iff few).mpr (room separator)) fun _ => ?_
  refine iteInduction (fun _ => ⟨_, cursorUp_eq, few⟩) fun _ => ?_
  refine iteInduction (fun _ => ⟨_, cursorDown_eq, few⟩) fun _ => ?_
  refine iteInduction (fun _ => ⟨_, cursorForward_eq, few⟩) fun _ => ?_
  refine iteInduction (fun _ => ⟨_, cursorBackward_eq, few⟩) fun _ => ?_
  refine iteInduction (fun _ => ⟨_, orOne_first, few⟩) fun _ => ?_
  refine iteInduction (fun _ => stays _) fun _ => ?_
  refine iteInduction (fun _ => ⟨_, rfl, few⟩) fun _ => ?_
  refine iteInduction (fun _ => ⟨_, attributes_eq few, few⟩) fun _ => ?_
  refine iteInduction (fun _ => ⟨_, home_eq, few⟩) fun _ => ?_
  refine iteInduction (fun _ => by rw [param_inside zero]; exact stays _) fun _ => ?_
  refine iteInduction (fun _ => by rw [param_inside zero]; exact stays _) fun _ => ?_
  exact iteInduction (fun _ => ⟨t, rfl, few⟩) fun _ => stays _

/-- A character is taken within the array if and only if it is no semicolon that is one too many. -/
theorem bounded_putc_iff (few : t.nParam < maxParams) : Bounded (t.putc dev c) ↔ t.FindsParam c := by
  rw [putc, FindsParam]
  cases state : t.state with
  | normal =>
    refine iff_of_true ?_ nofun
    exact iteInduction (fun _ => ⟨_, rfl, few⟩) fun _ => ⟨_, rfl, few⟩
  | escape =>
    refine iff_of_true (iteInduction (fun _ => ?_) fun _ => ⟨_, rfl, few⟩) nofun
    obtain ⟨params, cleaned⟩ := clean_eq (t := { t with state := .csi }) few
    exact ⟨{ t with state := .csi, params := params, nParam := 0 }, by rw [cleaned]; rfl, (by decide : 0 < maxParams)⟩
  | csi =>
    refine ⟨fun bounded _ separator => ?_, fun room => bounded_sequence few (room rfl)⟩
    subst separator
    rw [← bounded_semicolon_iff few]
    exact bounded

theorem paramsInside_iff_of_bounded (few : t.nParam < maxParams) (bytes : List Byte) :
    ParamsInside dev t bytes ↔ FindsParams dev t bytes := by
  induction bytes generalizing t with
  | nil => exact iff_of_true (Nat.le_sub_one_of_lt few) trivial
  | cons c later ih =>
    rw [ParamsInside, FindsParams, ← @bounded_putc_iff σ dev t c few]
    constructor
    · rintro ⟨-, next, same, inside⟩
      have few' : next.nParam < maxParams := by
        cases later with
        | nil => exact Nat.lt_of_le_pred (by decide) inside
        | cons _ _ => exact Nat.lt_of_le_pred (by decide) inside.1
      refine ⟨⟨next, same, few'⟩, fun other result => ?_⟩
      cases same.symm.trans result
      exact (ih few').mp inside
    · rintro ⟨⟨next, same, few'⟩, finds⟩
      exact ⟨Nat.le_sub_one_of_lt few, next, same, (ih few').mpr (finds next same)⟩

end Parameters

/-- Whatever is written, the parameters stay in their array if and only if no semicolon comes behind 31 others in a
sequence. -/
theorem paramsInside_iff (console : σ) (bytes : List Byte) :
    ParamsInside dev (start console) bytes ↔ FindsParams dev (start console) bytes :=
  paramsInside_iff_of_bounded (show 0 < maxParams by decide) bytes

/-- The console after a stream of bytes. -/
def write (t : Terminal σ) (bytes : List Byte) : Option (Terminal σ) := bytes.foldlM (fun t c => t.putc dev c) t

theorem ParamsInside.write {dev : ConsoleDevice σ} {t : Terminal σ} {bytes : List Byte}
    (inside : ParamsInside dev t bytes) : ∃ final, t.write dev bytes = some final := by
  induction bytes generalizing t with
  | nil => exact ⟨t, rfl⟩
  | cons c later ih =>
    obtain ⟨-, next, same, rest⟩ := inside
    obtain ⟨final, written⟩ := ih rest
    exact ⟨final, by rw [Terminal.write, List.foldlM_cons, same]; exact written⟩

/-- A device that shows nothing. -/
def nullDevice : ConsoleDevice Unit :=
  ⟨id, fun _ => id, fun _ => id, fun _ => id, fun _ => 25, fun _ => 80, fun _ _ => id, fun _ => 1, fun _ => id,
    fun _ => 1, fun _ => id⟩

/-- The semicolon behind 31 others begins a parameter behind the array. -/
theorem semicolons_leave_params :
    ¬ParamsInside nullDevice (start ()) (0x1B#8 :: ascii '[' :: List.replicate 32 (ascii ';')) := by
  intro inside
  obtain ⟨final, written⟩ := inside.write
  have outside : ((start ()).write nullDevice (0x1B#8 :: ascii '[' :: List.replicate 32 (ascii ';'))).isNone := by
    decide
  rw [written] at outside
  cases outside

end Terminal

/-! ## The text console as a device -/

/-- `consoleDevice` of `Video`; what would leave its memory changes nothing. -/
def videoDevice : ConsoleDevice Video where
  clear v := v.clear.getD v
  print c v := (v.print c).getD v
  setBackColor color v := v.setBackColor color
  setTextColor color v := v.setTextColor color
  height _ := Video.screenHeight
  width _ := Video.screenWidth
  gotoXY x y v := v.gotoXY x y
  x := Video.Cx
  setX x v := v.setX x
  y := Video.Cy
  setY y v := v.setY y

def Console.terminal (s : Console) : Terminal Video := ⟨s.video, s.state, s.params, s.nParam, s.SavedX, s.SavedY⟩

section TextConsole

variable {v erased : Video} {s next : Console} {c : Byte}

theorem printSpaces_video {n : Nat} (printed : Video.printChars (ascii ' ') n v = some erased) :
    printSpaces videoDevice n v = erased := by
  induction n generalizing v with
  | zero => exact Option.some.inj printed
  | succ n ih =>
    obtain ⟨w, first, later⟩ := Option.bind_eq_some_iff.mp printed
    have same : videoDevice.print (ascii ' ') v = w := congrArg (·.getD v) first
    rw [printSpaces, same]
    exact ih later

theorem clear_video (cleared : v.clear = some erased) : videoDevice.clear v = erased := by
  simp only [videoDevice, cleared, Option.getD_some]

theorem eraseDisplay_video {mode : Word} (run : eraseDisplay v mode = some erased) :
    eraseDisplayOn videoDevice v mode = erased := by
  rw [eraseDisplay] at run
  rw [eraseDisplayOn]
  by_cases below : mode = 0#32
  · rw [if_pos below] at run ⊢
    obtain ⟨w, printed, rfl⟩ := Option.map_eq_some_iff.mp run
    rw [← printSpaces_video printed]
    rfl
  rw [if_neg below] at run ⊢
  by_cases above : mode = 1#32
  · rw [if_pos above] at run ⊢
    obtain ⟨w, printed, rfl⟩ := Option.map_eq_some_iff.mp run
    rw [← printSpaces_video printed]
    rfl
  rw [if_neg above] at run ⊢
  by_cases all : mode = 2#32
  · rw [if_pos all] at run ⊢
    exact clear_video run
  · rw [if_neg all] at run ⊢
    exact Option.some.inj run

theorem eraseLine_video {mode : Word} (run : eraseLine v mode = some erased) :
    eraseLineOn videoDevice v mode = erased := by
  rw [eraseLine] at run
  rw [eraseLineOn]
  by_cases right : mode = 0#32
  · rw [if_pos right] at run ⊢
    obtain ⟨w, printed, rfl⟩ := Option.map_eq_some_iff.mp run
    rw [← printSpaces_video printed]
    rfl
  rw [if_neg right] at run ⊢
  by_cases left : mode = 1#32
  · rw [if_pos left] at run ⊢
    obtain ⟨w, printed, rfl⟩ := Option.map_eq_some_iff.mp run
    rw [← printSpaces_video printed]
    rfl
  rw [if_neg left] at run ⊢
  by_cases all : mode = 2#32
  · rw [if_pos all] at run ⊢
    obtain ⟨w, printed, rfl⟩ := Option.map_eq_some_iff.mp run
    have same : printSpaces videoDevice (80 : Int).toNat (videoDevice.setX 1 v) = w := printSpaces_video printed
    exact congrArg (videoDevice.setX (unsignedX videoDevice v).toInt) same
  · rw [if_neg all] at run ⊢
    exact Option.some.inj run

theorem setParam_video {i : Nat} {value : Word} (stored : s.setParam i value = some next) :
    s.terminal.setParam i value = some next.terminal := by
  by_cases inside : i < 32
  · rw [Console.setParam, if_pos inside] at stored
    cases stored
    exact if_pos inside
  · rw [Console.setParam, if_neg inside] at stored
    cases stored

/-- `orOne` of the text console as one store. -/
theorem orOne_eq (s : Console) (i : Nat) :
    s.orOne i = { s with params := Function.update s.params i (Terminal.oneOr (s.params i)) } := by
  unfold Console.orOne Terminal.oneOr
  by_cases missing : s.params i = 0#32
  · simp only [if_pos missing]
  · simp only [if_neg missing, Function.update_eq_self]

theorem bind_done_video {result : Option Video} (run : result.bind s.done = some next) :
    ∃ video, result = some video ∧ next.terminal = s.terminal.done video := by
  obtain ⟨video, same, ended⟩ := Option.bind_eq_some_iff.mp run
  exact ⟨video, same, by cases ended; rfl⟩

theorem semicolon_video (few : s.nParam < maxParams)
    (run : (if s.nParam < 32 then ({ s with nParam := s.nParam + 1 }).setParam (s.nParam + 1) 0#32
      else s.done s.video) = some next) : s.terminal.semicolon = some next.terminal := by
  rw [if_pos (show s.nParam < 32 from few)] at run
  rw [Terminal.semicolon, if_pos (show s.terminal.nParam < maxParams from few)]
  exact setParam_video run

/-- The commands that begin with `if (params[0] == 0) params[0] = 1;`. -/
theorem cursorUp_video (run : (s.orOne 0).cursorUp = some next) : s.terminal.cursorUp videoDevice = some next.terminal := by
  rw [orOne_eq, Console.cursorUp, Console.done] at run
  cases run
  rw [Terminal.cursorUp_eq]
  simp only [Function.update_self]
  rfl

theorem cursorDown_video (run : (s.orOne 0).cursorDown = some next) :
    s.terminal.cursorDown videoDevice = some next.terminal := by
  rw [orOne_eq, Console.cursorDown, Console.done] at run
  cases run
  rw [Terminal.cursorDown_eq]
  simp only [Function.update_self]
  rfl

theorem cursorForward_video (run : (s.orOne 0).cursorForward = some next) :
    s.terminal.cursorForward videoDevice = some next.terminal := by
  rw [orOne_eq, Console.cursorForward, Console.done] at run
  cases run
  rw [Terminal.cursorForward_eq]
  simp only [Function.update_self]
  rfl

theorem cursorBackward_video (run : (s.orOne 0).cursorBackward = some next) :
    s.terminal.cursorBackward videoDevice = some next.terminal := by
  rw [orOne_eq, Console.cursorBackward, Console.done] at run
  cases run
  rw [Terminal.cursorBackward_eq]
  simp only [Function.update_self]
  rfl

theorem home_video (run : ((s.orOne 0).orOne 1).home = some next) :
    s.terminal.home videoDevice = some next.terminal := by
  rw [orOne_eq, orOne_eq, Console.home, Console.done] at run
  cases run
  rw [Terminal.home_eq]
  simp only [Function.update_self]
  rfl

theorem ite_video {p : Prop} [Decidable p] {yes no : Option Console} {yes' no' : Option (Terminal Video)}
    (run : (if p then yes else no) = some next) (holds : yes = some next → yes' = some next.terminal)
    (fails : no = some next → no' = some next.terminal) : (if p then yes' else no') = some next.terminal := by
  by_cases case : p
  · rw [if_pos case] at run ⊢
    exact holds run
  · rw [if_neg case] at run ⊢
    exact fails run

/-- A character of a sequence does to the text console what it does to the device. -/
theorem sequence_video (few : s.nParam < maxParams) (run : s.sequence c = some next) :
    s.terminal.sequence videoDevice c = some next.terminal := by
  have few' : s.terminal.nParam < maxParams := few
  have zero : 0 < maxParams := by decide
  have ended {t : Console} {video : Video} (same : t.done video = some next) :
      some (t.terminal.done video) = some next.terminal := by cases same; rfl
  rw [Console.sequence] at run
  rw [Terminal.sequence]
  refine ite_video run (fun run => ?_) fun run => ?_
  · rw [Terminal.digit, Terminal.param_inside few']
    exact setParam_video run
  refine ite_video run (semicolon_video few) fun run => ?_
  refine ite_video run cursorUp_video fun run => ?_
  refine ite_video run cursorDown_video fun run => ?_
  refine ite_video run cursorForward_video fun run => ?_
  refine ite_video run cursorBackward_video fun run => ?_
  refine ite_video run (fun run => ?_) fun run => ?_
  · rw [orOne_eq] at run
    cases run
    exact Terminal.orOne_first
  refine ite_video run ended fun run => ?_
  refine ite_video run (fun run => by cases run; rfl) fun run => ?_
  refine ite_video run (fun run => ?_) fun run => ?_
  · rw [Terminal.attributes_eq few']
    exact ended run
  refine ite_video run home_video fun run => ?_
  refine ite_video run (fun run => ?_) fun run => ?_
  · obtain ⟨video, erased, same⟩ := bind_done_video run
    rw [Terminal.param_inside zero, same, ← eraseDisplay_video erased]
    rfl
  refine ite_video run (fun run => ?_) fun run => ?_
  · obtain ⟨video, erased, same⟩ := bind_done_video run
    rw [Terminal.param_inside zero, same, ← eraseLine_video erased]
    rfl
  exact ite_video run (fun run => by cases run; rfl) ended

theorem clean_video {places : List Nat}
    (run : places.foldlM (fun (s : Console) i => s.setParam i 0#32) s = some next) :
    places.foldlM (fun (t : Terminal Video) i => t.setParam i 0#32) s.terminal = some next.terminal := by
  induction places generalizing s with
  | nil => cases run; rfl
  | cons i places ih =>
    rw [List.foldlM_cons] at run ⊢
    obtain ⟨stored, same, later⟩ := Option.bind_eq_some_iff.mp run
    rw [setParam_video same]
    exact ih later

theorem putc_video (few : s.nParam < maxParams) (run : s.putc c = some next) :
    s.terminal.putc videoDevice c = some next.terminal := by
  obtain ⟨video, state, params, nParam, savedX, savedY⟩ := s
  cases state with
  | normal =>
    refine ite_video run (fun run => by cases run; rfl) fun run => ?_
    obtain ⟨printed, same, rfl⟩ := Option.map_eq_some_iff.mp run
    have shown : videoDevice.print c video = printed := congrArg (·.getD video) same
    rw [← shown]
    rfl
  | escape =>
    refine ite_video run (fun run => ?_) fun run => by cases run; rfl
    obtain ⟨cleaned, same, rfl⟩ := Option.map_eq_some_iff.mp run
    exact congrArg (Option.map _) (clean_video same)
  | csi => exact sequence_video few run

/-- What the text console does with a stream, the device does, and stays within the parameters. -/
theorem write_video {bytes : List Byte} (good : s.Good) (separated : s.FewParameters bytes) :
    ∃ final, s.write bytes = some final ∧ s.terminal.write videoDevice bytes = some final.terminal := by
  induction bytes generalizing s with
  | nil => exact ⟨s, rfl, rfl⟩
  | cons c later ih =>
    obtain ⟨semicolon, separated⟩ := separated
    obtain ⟨next, taken, good'⟩ := good.putc semicolon
    obtain ⟨final, written, shown⟩ := ih good' (separated next taken)
    have few : s.nParam < maxParams := Nat.lt_of_succ_lt good.few
    refine ⟨final, ?_, ?_⟩
    · rw [Console.write, List.foldlM_cons, taken]
      exact written
    · rw [Terminal.write, List.foldlM_cons, putc_video few taken]
      exact shown

end TextConsole

end Vt
end FluxOS
