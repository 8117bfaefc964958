import FluxOS.Video

/-! `Vt::putc` on the text console: plain characters, escape sequences with their parameters, and
the erasing that prints spaces. -/
namespace FluxOS.Vt
open Words UserMemoryOps

/-- `State`. -/
inductive EscapeState where
  | normal | escape | csi
  deriving DecidableEq, Repr

structure Console where
  video : Video
  state : EscapeState
  params : Nat → Word
  nParam : Nat
  SavedX : Word
  SavedY : Word

def ascii (c : Char) : Byte := BitVec.ofNat 8 c.toNat

/-- `console->x()` and `console->y()` as the unsigned numbers they are kept in. -/
def cX (v : Video) : Word := BitVec.ofInt 32 v.Cx

def cY (v : Video) : Word := BitVec.ofInt 32 v.Cy

/-! ## Erasing -/

/-- `(height - cY) * width + width - cX`, an `int` again. -/
def belowCount (v : Video) : Int := ((25#32 - cY v) * 80#32 + 80#32 - cX v).toInt

/-- `(cY - 1) * width + cX`. -/
def aboveCount (v : Video) : Int := ((cY v - 1#32) * 80#32 + cX v).toInt

/-- `width - cX`. -/
def rightCount (v : Video) : Int := (80#32 - cX v).toInt

/-- `for (int i = 0; i < tmp; i++) console->print(' ');` -/
def spaces (tmp : Int) (v : Video) : Option Video := Video.printChars (ascii ' ') tmp.toNat v

def eraseDisplay (v : Video) (mode : Word) : Option Video :=
  if mode = 0#32 then (spaces (belowCount v) v).map fun erased => erased.gotoXY (cX v).toInt (cY v).toInt
  else if mode = 1#32 then
    (spaces (aboveCount v) (v.gotoXY 1 1)).map fun erased => erased.gotoXY (cX v).toInt (cY v).toInt
  else if mode = 2#32 then v.clear
  else some v

/-- The first loop goes on for `i <= tmp`, the second one counts an unsigned number. -/
def eraseLine (v : Video) (mode : Word) : Option Video :=
  if mode = 0#32 then (spaces (rightCount v + 1) v).map fun erased => erased.setX (cX v).toInt
  else if mode = 1#32 then (spaces (cX v).toNat (v.setX 1)).map fun erased => erased.setX (cX v).toInt
  else if mode = 2#32 then (spaces 80 (v.setX 1)).map fun erased => erased.setX (cX v).toInt
  else some v

/-- The parameters that set the color of the text, the last one to `DEFAULT_FORE_COLOR`. -/
def textColors : List (Word × Video.Color) :=
  [(30#32, .black), (31#32, .red), (32#32, .green), (33#32, .brown), (34#32, .blue), (35#32, .magenta), (36#32, .cyan),
    (37#32, .white), (39#32, .white)]

/-- Those that set the color behind it, the last one to `DEFAULT_BACK_COLOR`. -/
def backColors : List (Word × Video.Color) :=
  [(40#32, .black), (41#32, .red), (42#32, .green), (43#32, .brown), (44#32, .blue), (45#32, .magenta), (46#32, .cyan),
    (47#32, .white), (49#32, .black)]

/-- The `switch` over one parameter of `m`. -/
def setAttribute (v : Video) (param : Word) : Video :=
  match textColors.lookup param with
  | some color => v.setTextColor color
  | none =>
    match backColors.lookup param with
    | some color => v.setBackColor color
    | none => v

namespace Console

/-- `params[i] = value`, inside the 32 that there are. -/
def setParam (s : Console) (i : Nat) (value : Word) : Option Console :=
  if i < 32 then some { s with params := Function.update s.params i value } else none

/-- `if (params[i] == 0) params[i] = 1;` -/
def orOne (s : Console) (i : Nat) : Console :=
  if s.params i = 0#32 then { s with params := Function.update s.params i 1#32 } else s

/-- The end of a sequence. -/
def done (s : Console) (video : Video) : Option Console := some { s with video := video, state := .normal }

/-- The commands that begin with `if (params[0] == 0) params[0] = 1;`. -/
def cursorUp (s : Console) : Option Console :=
  s.done (if s.params 0 < cY s.video then s.video.setY (cY s.video - s.params 0).toInt else s.video)

def cursorDown (s : Console) : Option Console := s.done (s.video.setY (cY s.video + s.params 0).toInt)

def cursorForward (s : Console) : Option Console := s.done (s.video.setX (cX s.video + s.params 0).toInt)

def cursorBackward (s : Console) : Option Console :=
  s.done (if s.params 0 < cX s.video then s.video.setX (cX s.video - s.params 0).toInt else s.video)

def home (s : Console) : Option Console := s.done (s.video.gotoXY (s.params 1).toInt (s.params 0).toInt)

def attributes (s : Console) : Option Console :=
  s.done (((List.range (s.nParam + 1)).map s.params).foldl setAttribute s.video)

/-- A character of a sequence behind `ESC [`. -/
def sequence (s : Console) (c : Byte) : Option Console :=
  if ascii '0' ≤ c ∧ c ≤ ascii '9' then
    s.setParam s.nParam (s.params s.nParam * 10#32 + (c - ascii '0').setWidth 32)
  else if c = ascii ';' then
    if s.nParam < 32 then ({ s with nParam := s.nParam + 1 }).setParam (s.nParam + 1) 0#32 else s.done s.video
  else if c = ascii 'A' then (s.orOne 0).cursorUp
  else if c = ascii 'B' then (s.orOne 0).cursorDown
  else if c = ascii 'C' then (s.orOne 0).cursorForward
  else if c = ascii 'D' then (s.orOne 0).cursorBackward
  -- the sequence goes on behind these two and behind a question mark
  else if c = ascii 'E' ∨ c = ascii 'F' then some (s.orOne 0)
  else if c = ascii 'u' then s.done (s.video.gotoXY s.SavedX.toInt s.SavedY.toInt)
  else if c = ascii 's' then ({ s with SavedX := cX s.video, SavedY := cY s.video }).done s.video
  else if c = ascii 'm' then s.attributes
  else if c = ascii 'H' then ((s.orOne 0).orOne 1).home
  else if c = ascii 'J' then (eraseDisplay s.video (s.params 0)).bind s.done
  else if c = ascii 'K' then (eraseLine s.video (s.params 0)).bind s.done
  else if c = ascii '?' then some s
  else s.done s.video

/-- `putc`. -/
def putc (s : Console) (c : Byte) : Option Console :=
  match s.state with
  | .normal =>
    if c = 0x1B#8 then some { s with state := .escape }
    else (s.video.print c).map fun video => { s with video := video }
  | .escape =>
    if c = ascii '[' then
      ((List.range (s.nParam + 1)).foldlM (fun (s : Console) i => s.setParam i 0#32) { s with state := .csi }).map
        fun s => { s with nParam := 0 }
    else some { s with state := .normal }
  | .csi => s.sequence c

/-- The console right after `Video::init`. -/
def start (video : Video) : Console := ⟨video, .normal, fun _ => 0#32, 0, 0#32, 0#32⟩

/-- The console after a stream of bytes. -/
def write (s : Console) (bytes : List Byte) : Option Console := bytes.foldlM putc s

/-- No sequence gets as many as 32 parameters: after a semicolon there are `nParam + 2`. -/
def FewParameters : Console → List Byte → Prop
  | _, [] => True
  | s, c :: later =>
    (s.state = .csi → c = ascii ';' → s.nParam + 2 < 32) ∧ ∀ next, s.putc c = some next → FewParameters next later

/-! ## What every character keeps -/

structure Good (s : Console) : Prop where
  on : Video.OnScreen s.video
  few : s.nParam + 1 < 32

def Settled (result : Option Console) : Prop := ∃ s, result = some s ∧ Good s

variable {s : Console} {c : Byte}

theorem Good.settled (good : Good s) : Settled (some s) := ⟨s, rfl, good⟩

theorem Good.setParam (good : Good s) {i : Nat} (inside : i < 32) (value : Word) : Settled (s.setParam i value) :=
  ⟨_, if_pos inside, good.on, good.few⟩

theorem Good.orOne (good : Good s) (i : Nat) : Good (s.orOne i) := by
  unfold Console.orOne
  split
  · exact ⟨good.on, good.few⟩
  · exact good

theorem Good.done (good : Good s) {video : Video} (on : Video.OnScreen video) : Settled (s.done video) :=
  ⟨_, rfl, on, good.few⟩

theorem Good.bind_done (good : Good s) {result : Option Video} (kept : Video.Kept result) : Settled (result.bind s.done) := by
  obtain ⟨video, rfl, on⟩ := kept
  exact good.done on

end Console

section Erasing

variable {v : Video} (on : Video.OnScreen v)

include on

theorem spaces_kept (tmp : Int) : Video.Kept (spaces tmp v) := on.printChars _ _

theorem eraseDisplay_kept (mode : Word) : Video.Kept (eraseDisplay v mode) := by
  unfold eraseDisplay
  split
  · exact (spaces_kept on _).map fun erased on => on.gotoXY _ _
  split
  · exact (spaces_kept (on.gotoXY 1 1) _).map fun erased on => on.gotoXY _ _
  split
  · exact on.clear
  · exact on.kept

theorem eraseLine_kept (mode : Word) : Video.Kept (eraseLine v mode) := by
  unfold eraseLine
  split
  · exact (spaces_kept on _).map fun erased on => on.gotoXY _ _
  split
  · exact (spaces_kept (on.gotoXY 1 _) _).map fun erased on => on.gotoXY _ _
  split
  · exact (spaces_kept (on.gotoXY 1 _) _).map fun erased on => on.gotoXY _ _
  · exact on.kept

theorem setAttribute_onScreen (param : Word) : Video.OnScreen (setAttribute v param) := by
  obtain ⟨left, right, top, bottom⟩ := on
  unfold setAttribute
  split
  · exact ⟨left, right, top, bottom⟩
  split
  · exact ⟨left, right, top, bottom⟩
  · exact ⟨left, right, top, bottom⟩

theorem attributes_onScreen (params : List Word) : Video.OnScreen (params.foldl setAttribute v) := by
  induction params generalizing v with
  | nil => exact on
  | cons param params ih => exact ih (setAttribute_onScreen on param)

end Erasing

/-- The bounds up to which the loops of `putc` count. -/
structure LoopsEnd (v : Video) : Prop where
  below : 0 ≤ belowCount v ∧ belowCount v < 2000
  above : 0 < aboveCount v ∧ aboveCount v ≤ 2000
  right : 0 ≤ rightCount v ∧ rightCount v < 80
  left : 0 < (cX v).toNat ∧ (cX v).toNat ≤ 80

theorem loopsEnd {v : Video} (on : Video.OnScreen v) : LoopsEnd v := by
  obtain ⟨left, right, top, bottom⟩ := on
  rw [Video.screenWidth] at right
  rw [Video.screenHeight] at bottom
  obtain ⟨x, hx⟩ := Int.eq_ofNat_of_zero_le (by omega : 0 ≤ v.Cx)
  obtain ⟨y, hy⟩ := Int.eq_ofNat_of_zero_le (by omega : 0 ≤ v.Cy)
  have column : (cX v).toNat = x := by
    rw [cX, hx, BitVec.toNat_ofInt]
    omega
  have line : (cY v).toNat = y := by
    rw [cY, hy, BitVec.toNat_ofInt]
    omega
  have lines : (25#32 - cY v).toNat = 25 - y := by
    rw [BitVec.toNat_sub, line, BitVec.toNat_ofNat]
    omega
  have before : (cY v - 1#32).toNat = y - 1 := by
    rw [toNat_sub_one (by omega), line]
  have below : ((25#32 - cY v) * 80#32 + 80#32 - cX v).toNat = (25 - y) * 80 + (80 - x) := by
    rw [BitVec.toNat_sub, BitVec.toNat_add, BitVec.toNat_mul, lines, column, BitVec.toNat_ofNat]
    omega
  have above : ((cY v - 1#32) * 80#32 + cX v).toNat = (y - 1) * 80 + x := by
    rw [BitVec.toNat_add, BitVec.toNat_mul, before, column, BitVec.toNat_ofNat]
    omega
  have rest : (80#32 - cX v).toNat = 80 - x := by
    rw [BitVec.toNat_sub, column, BitVec.toNat_ofNat]
    omega
  refine ⟨?_, ?_, ?_, by omega⟩
  · rw [belowCount, BitVec.toInt_eq_toNat_of_lt (by omega), below]
    omega
  · rw [aboveCount, BitVec.toInt_eq_toNat_of_lt (by omega), above]
    omega
  · rw [rightCount, BitVec.toInt_eq_toNat_of_lt (by omega), rest]
    omega

namespace Console

variable {s : Console} {c : Byte}

/-- A command that moves the cursor where the screen reaches so far. -/
theorem Good.done_ite (good : Good s) {reaches : Prop} [Decidable reaches] {moved : Video} (on : Video.OnScreen moved) :
    Settled (s.done (if reaches then moved else s.video)) := by
  refine good.done ?_
  split
  · exact on
  · exact good.on

theorem Good.sequence (good : Good s) (few : c = ascii ';' → s.nParam + 2 < 32) : Settled (s.sequence c) := by
  have on := good.on
  have inside := good.few
  have one := good.orOne 0
  rw [Console.sequence]
  refine iteInduction (fun _ => good.setParam (by omega) _) fun _ => ?_
  refine iteInduction (fun semicolon => ?_) fun _ => ?_
  · have next : Good { s with nParam := s.nParam + 1 } := ⟨on, few semicolon⟩
    rw [if_pos (by omega)]
    exact next.setParam (by omega) _
  refine iteInduction (fun _ => one.done_ite (one.on.gotoXY _ _)) fun _ => ?_
  refine iteInduction (fun _ => one.done (one.on.gotoXY _ _)) fun _ => ?_
  refine iteInduction (fun _ => one.done (one.on.gotoXY _ _)) fun _ => ?_
  refine iteInduction (fun _ => one.done_ite (one.on.gotoXY _ _)) fun _ => ?_
  refine iteInduction (fun _ => one.settled) fun _ => ?_
  refine iteInduction (fun _ => good.done (on.gotoXY _ _)) fun _ => ?_
  refine iteInduction (fun _ => ⟨_, rfl, on, inside⟩) fun _ => ?_
  refine iteInduction (fun _ => good.done (attributes_onScreen on _)) fun _ => ?_
  refine iteInduction (fun _ => (one.orOne 1).done ((one.orOne 1).on.gotoXY _ _)) fun _ => ?_
  refine iteInduction (fun _ => good.bind_done (eraseDisplay_kept on _)) fun _ => ?_
  refine iteInduction (fun _ => good.bind_done (eraseLine_kept on _)) fun _ => ?_
  exact iteInduction (fun _ => good.settled) fun _ => good.done on

/-- The loop that cleans the parameters. -/
theorem Good.clean (good : Good s) {places : List Nat} (inside : ∀ i ∈ places, i < 32) :
    Settled (places.foldlM (fun (s : Console) i => s.setParam i 0#32) s) := by
  induction places generalizing s with
  | nil => exact good.settled
  | cons i places ih =>
    obtain ⟨next, same, good⟩ := good.setParam (inside i (.head _)) 0#32
    rw [List.foldlM_cons, same]
    exact ih good fun j mem => inside j (.tail _ mem)

theorem Good.putc (good : Good s) (few : s.state = .csi → c = ascii ';' → s.nParam + 2 < 32) : Settled (s.putc c) := by
  obtain ⟨video, state, params, nParam, savedX, savedY⟩ := s
  have on := good.on
  have inside := good.few
  cases state with
  | normal =>
    simp only [Console.putc]
    split
    · exact ⟨_, rfl, on, inside⟩
    · obtain ⟨video, same, on⟩ := on.print c
      rw [same]
      exact ⟨_, rfl, on, inside⟩
  | escape =>
    simp only [Console.putc]
    split
    · have csi : Good ⟨video, .csi, params, nParam, savedX, savedY⟩ := ⟨on, inside⟩
      obtain ⟨cleaned, same, good⟩ := csi.clean fun i mem => Nat.lt_trans (List.mem_range.mp mem) inside
      rw [same]
      exact ⟨_, rfl, good.on, (by decide : 0 + 1 < 32)⟩
    · exact ⟨_, rfl, on, inside⟩
  | csi => exact good.sequence (few rfl)

theorem Good.write (good : Good s) {bytes : List Byte} (few : FewParameters s bytes) : Settled (s.write bytes) := by
  induction bytes generalizing s with
  | nil => exact good.settled
  | cons c later ih =>
    obtain ⟨separated, few⟩ := few
    obtain ⟨next, same, good⟩ := good.putc separated
    rw [Console.write, List.foldlM_cons, same]
    exact ih good (few next same)

/-- **The text console**: whatever is written after `Video::init`, every store lies in the 2000 cells, the
cursor stays on the screen, and the loops count to the bounds of `LoopsEnd` or over the parameters. -/
theorem write_in_bounds (before : Video) :
    ∃ video, before.init = some video ∧ ∀ bytes, FewParameters (start video) bytes →
      ∃ s, (start video).write bytes = some s ∧ Video.OnScreen s.video ∧ LoopsEnd s.video ∧ s.nParam + 1 < 32 := by
  obtain ⟨video, same, on⟩ := Video.init_kept before
  refine ⟨video, same, fun bytes few => ?_⟩
  have good : Good (start video) := ⟨on, (by decide : 0 + 1 < 32)⟩
  obtain ⟨s, written, good⟩ := good.write few
  exact ⟨s, written, good.on, loopsEnd good.on, good.few⟩

theorem FewParameters.cons {next : Console} {later : List Byte} (same : s.putc c = some next)
    (separated : s.state = .csi → c = ascii ';' → s.nParam + 2 < 32) (few : FewParameters next later) :
    FewParameters s (c :: later) := by
  refine ⟨separated, fun next' same' => ?_⟩
  cases same.symm.trans same'
  exact few

/-- A letter in the third column of the second row, behind the sequence that leads there. -/
theorem placed_letter_in_bounds :
    ∃ video s, (start video).write ([0x1B#8] ++ ['[', '2', ';', '3', 'H', 'a'].map ascii) = some s ∧
      Video.OnScreen s.video := by
  obtain ⟨video, -, written⟩ := write_in_bounds ⟨fun _ => 0#16, 0#8, 0, 0, false⟩
  have few : FewParameters (start video) ([0x1B#8] ++ ['[', '2', ';', '3', 'H', 'a'].map ascii) := by
    refine .cons rfl nofun <| .cons rfl nofun <| .cons rfl (fun _ same => absurd same (by decide)) <|
      .cons rfl (fun _ _ => (by decide : 0 + 2 < 32)) <| .cons rfl (fun _ same => absurd same (by decide)) <|
        .cons rfl (fun _ same => absurd same (by decide)) ⟨nofun, fun _ _ => trivial⟩
  obtain ⟨s, same, on, -⟩ := written _ few
  exact ⟨video, s, same, on⟩

end Console

end FluxOS.Vt
