import Mathlib.Algebra.Group.Int.Defs
import FluxOS.ConsoleDevice

/-! `FBConsole`: the console on a framebuffer, with every access to its memory of characters and every drawing. -/
namespace FluxOS
open Words UserMemoryOps

/-- `FBDevice`, with room for a character of 8 by 16 pixels. Its sizes are of type `int`, and so is the size of
the memory for its characters. -/
structure FBDevice where
  width : Int
  height : Int
  oneColumn : 8 ≤ width
  oneLine : 16 ≤ height
  intWidth : width < 2 ^ 31
  intHeight : height < 2 ^ 31
  intMemory : height / 16 * (width / 8) * 2 < 2 ^ 31

namespace FBConsole

/-- What is done to the memory of characters, by an index from the pointer on, and to the framebuffer. -/
inductive Effect where
  | access (i : Int)
  | drawChar (vchar : BitVec 16) (vcharx vchary : Int)
  | drawCursor (vchar : BitVec 16) (vcharx vchary : Int)
deriving DecidableEq

end FBConsole

/-- The fields of the class, with the effects so far, the latest one first. -/
structure FBConsole where
  device : FBDevice
  charMem : Int → BitVec 16
  CColor : Byte
  Cy : Int
  Cx : Int
  effects : List FBConsole.Effect

namespace FBConsole

def screenWidth (v : FBConsole) : Int := v.device.width / 8

def screenHeight (v : FBConsole) : Int := v.device.height / 16

def screenSize (v : FBConsole) : Int := v.screenHeight * v.screenWidth

section Operations

variable (v : FBConsole)

def perform (effect : Effect) : FBConsole := { v with effects := effect :: v.effects }

/-- `charMem[i] = value`. -/
def store (i : Int) (value : BitVec 16) : FBConsole :=
  { v with charMem := Function.update v.charMem i value, effects := .access i :: v.effects }

/-- `DrawChar(charMem[i], x, y)`. -/
def drawCell (i x y : Int) : FBConsole := (v.perform (.access i)).perform (.drawChar (v.charMem i) x y)

/-- A character in the color at hand. A `char` is signed. -/
def cell (c : Byte) : BitVec 16 := c.signExtend 16 ||| v.CColor.setWidth 16 <<< 8

def gotoXY (x y : Int) : FBConsole :=
  if x ≤ v.screenWidth ∧ y ≤ v.screenHeight then
    let drawn := v.drawCell ((v.Cx - 1) + (v.Cy - 1) * v.screenWidth) v.Cx v.Cy
    { drawn with Cx := x, Cy := y }.perform (.drawCursor (v.CColor.setWidth 16 <<< 8) x y)
  else v

def setX (x : Int) : FBConsole := v.gotoXY x v.Cy

def setY (y : Int) : FBConsole := v.gotoXY v.Cx y

/-- The loop of `clear`. -/
def blankAll : FBConsole := (List.range v.screenSize.toNat).foldl (fun v (i : Nat) => v.store i (v.cell 0x20#8)) v

def clear : FBConsole := v.blankAll.gotoXY 1 1

/-- `charMem[i] = charMem[i + screen_width]`. -/
def copyUp (i : Nat) : FBConsole :=
  (v.perform (.access (i + v.screenWidth))).store i (v.charMem (i + v.screenWidth))

/-- The loop of `scroll` that moves the lines up. -/
def moveUp : FBConsole := (List.range (v.screenSize - v.screenWidth).toNat).foldl copyUp v

/-- The loop that blanks the last line. -/
def blankLast : FBConsole :=
  (List.range' (v.screenSize - v.screenWidth).toNat v.screenWidth.toNat).foldl
    (fun v (i : Nat) => v.store i (v.cell 0x20#8)) v

/-- A cell is drawn if it is in the first line or is not as the one above it. -/
def redrawCell (redrawY redrawX : Nat) : FBConsole :=
  let i : Int := redrawX - 1 + (redrawY - 1) * v.screenWidth
  if redrawY < 2 then v.drawCell i redrawX redrawY
  else
    let above : Int := redrawX - 1 + (redrawY - 2) * v.screenWidth
    let read := (v.perform (.access i)).perform (.access above)
    if v.charMem i ≠ v.charMem above then read.drawCell i redrawX redrawY else read

/-- The loops that draw. -/
def redraw : FBConsole :=
  (List.range' 1 v.screenHeight.toNat).foldl
    (fun v redrawY => (List.range' 1 v.screenWidth.toNat).foldl (fun v redrawX => v.redrawCell redrawY redrawX) v) v

def scroll : FBConsole :=
  let v := v.moveUp.blankLast.redraw
  v.gotoXY 1 v.screenHeight

def newLine : FBConsole :=
  if v.Cy < v.screenHeight then v.gotoXY 1 (v.Cy + 1)
  else if v.Cy = v.screenHeight then v.scroll
  else v

/-- The line that a character behind the last column begins. -/
def wrap : FBConsole := if v.Cx + 1 > v.screenWidth then v.newLine else v

/-- `print` for a character that is no newline and no tab. -/
def printChar (c : Byte) : FBConsole :=
  let v := v.wrap
  let charIndex := (v.Cx - 1) + (v.Cy - 1) * v.screenWidth
  let v := (v.store charIndex (v.cell c)).drawCell charIndex v.Cx v.Cy
  v.gotoXY (v.Cx + 1) v.Cy

/-- A tab is five spaces. -/
def print (c : Byte) : FBConsole :=
  if c = 0x0A#8 then v.newLine
  else if c = 0x09#8 then (List.range 5).foldl (fun v _ => v.printChar 0x20#8) v
  else v.printChar c

/-- The colors by their numbers. -/
def setBackColor (bkColor : Byte) : FBConsole :=
  { v with CColor := v.CColor &&& 0x8F#8 ||| (bkColor &&& 0x7#8) <<< 4 }

def setTextColor (txtColor : Byte) : FBConsole := { v with CColor := v.CColor &&& 0x70#8 ||| txtColor &&& 0xF#8 }

end Operations

/-- `init`, in the memory that `malloc` returns, with the text in `BrightWhite` on `Black`. -/
def init (device : FBDevice) (charMem : Int → BitVec 16) : FBConsole :=
  ((((⟨device, charMem, 0#8, 0, 0, []⟩ : FBConsole).setTextColor 15#8).setBackColor 0#8).gotoXY 1 1).clear

def consoleDevice : ConsoleDevice FBConsole where
  clear := clear
  print c v := v.print c
  setBackColor color v := v.setBackColor color.code
  setTextColor color v := v.setTextColor color.code
  height := screenHeight
  width := screenWidth
  gotoXY x y v := v.gotoXY x y
  x := Cx
  setX x v := v.setX x
  y := Cy
  setY y v := v.setY y

/-! ## What should be -/

/-- An access is inside the allocation, and a character is drawn on the screen. -/
def Effect.Inside (device : FBDevice) : Effect → Prop
  | .access i => 0 ≤ i ∧ i < device.height / 16 * (device.width / 8)
  | .drawChar _ x y => (1 ≤ x ∧ x ≤ device.width / 8) ∧ 1 ≤ y ∧ y ≤ device.height / 16
  | .drawCursor _ _ _ => True

/-- The place is on the screen, or `gotoXY` does not go there. -/
def Admits (v : FBConsole) (place : Int × Int) : Prop :=
  1 ≤ place.1 ∧ 1 ≤ place.2 ∨ v.screenWidth < place.1 ∨ v.screenHeight < place.2

/-- The cursor is on the screen, and since there were no more effects than `before` all of them have been inside. -/
structure Kept (device : FBDevice) (before : List Effect) (v : FBConsole) : Prop where
  same : v.device = device
  left : 1 ≤ v.Cx
  right : v.Cx ≤ device.width / 8
  top : 1 ≤ v.Cy
  bottom : v.Cy ≤ device.height / 16
  inside : ∃ more, v.effects = more ++ before ∧ ∀ effect ∈ more, effect.Inside device

namespace Kept

variable {device : FBDevice} {before : List Effect} {v : FBConsole}

theorem width_eq (kept : Kept device before v) : v.screenWidth = device.width / 8 := by rw [screenWidth, kept.same]

theorem height_eq (kept : Kept device before v) : v.screenHeight = device.height / 16 := by
  rw [screenHeight, kept.same]

theorem size_eq (kept : Kept device before v) : v.screenSize = device.height / 16 * (device.width / 8) := by
  rw [screenSize, kept.width_eq, kept.height_eq]

theorem perform (kept : Kept device before v) (effect : Effect) (inside : effect.Inside device) :
    Kept device before (v.perform effect) := by
  obtain ⟨same, left, right, top, bottom, more, effects, all⟩ := kept
  refine ⟨same, left, right, top, bottom, effect :: more, ?_, ?_⟩
  · rw [FBConsole.perform, effects, List.cons_append]
  · rintro other (_ | among)
    · exact inside
    · exact all other ‹_›

theorem store (kept : Kept device before v) {i : Int} (low : 0 ≤ i) (high : i < device.height / 16 * (device.width / 8))
    (value : BitVec 16) : Kept device before (v.store i value) :=
  ⟨kept.same, kept.left, kept.right, kept.top, kept.bottom, (kept.perform (.access i) ⟨low, high⟩).inside⟩

/-- The index of a place on the screen. -/
theorem place_inside {w h x y : Int} (left : 1 ≤ x) (right : x ≤ w) (top : 1 ≤ y) (bottom : y ≤ h) :
    0 ≤ x - 1 + (y - 1) * w ∧ x - 1 + (y - 1) * w < h * w := by
  have lines : 0 ≤ (y - 1) * w := Int.mul_nonneg (by omega) (by omega)
  have below : (y - 1) * w ≤ (h - 1) * w := Int.mul_le_mul_of_nonneg_right (by omega) (by omega)
  rw [Int.sub_mul h] at below
  omega

theorem drawCell (kept : Kept device before v) {x y : Int} (left : 1 ≤ x) (right : x ≤ device.width / 8) (top : 1 ≤ y)
    (bottom : y ≤ device.height / 16) : Kept device before (v.drawCell (x - 1 + (y - 1) * v.screenWidth) x y) := by
  rw [kept.width_eq]
  exact (kept.perform (.access _) (place_inside left right top bottom)).perform _ ⟨⟨left, right⟩, top, bottom⟩

/-- The cursor is moved to a place on the screen, or not at all. -/
theorem gotoXY (kept : Kept device before v) {x y : Int} (admits : Admits v (x, y)) : Kept device before (v.gotoXY x y) := by
  rw [FBConsole.gotoXY]
  split
  · rename_i fits
    obtain ⟨left, top⟩ : 1 ≤ x ∧ 1 ≤ y := by
      rcases admits with inside | right | bottom
      · exact inside
      · exact absurd fits.1 (Int.not_le.mpr right)
      · exact absurd fits.2 (Int.not_le.mpr bottom)
    rw [kept.width_eq, kept.height_eq] at fits
    have drawn := kept.drawCell kept.left kept.right kept.top kept.bottom
    have moved : Kept device before
        { v.drawCell (v.Cx - 1 + (v.Cy - 1) * v.screenWidth) v.Cx v.Cy with Cx := x, Cy := y } :=
      ⟨drawn.same, left, fits.1, top, fits.2, drawn.inside⟩
    exact moved.perform _ trivial
  · exact kept

theorem setBackColor (kept : Kept device before v) (color : Byte) : Kept device before (v.setBackColor color) :=
  ⟨kept.same, kept.left, kept.right, kept.top, kept.bottom, kept.inside⟩

theorem setTextColor (kept : Kept device before v) (color : Byte) : Kept device before (v.setTextColor color) :=
  ⟨kept.same, kept.left, kept.right, kept.top, kept.bottom, kept.inside⟩

/-- A loop whose rounds keep it. -/
theorem foldl {α : Type} {list : List α} {round : FBConsole → α → FBConsole} (kept : Kept device before v)
    (step : ∀ v, ∀ i ∈ list, Kept device before v → Kept device before (round v i)) :
    Kept device before (list.foldl round v) := by
  induction list generalizing v with
  | nil => exact kept
  | cons i later ih => exact ih (step v i List.mem_cons_self kept) fun v j among => step v j (.tail _ among)

/-- A loop that blanks cells. -/
theorem blank (kept : Kept device before v) {cells : List Nat}
    (inside : ∀ i ∈ cells, (i : Int) < device.height / 16 * (device.width / 8)) :
    Kept device before (cells.foldl (fun v (i : Nat) => v.store i (v.cell 0x20#8)) v) :=
  kept.foldl fun _ i among kept => kept.store (Int.natCast_nonneg i) (inside i among) _

/-- The screen has a column and a line. -/
theorem screen_positive (device : FBDevice) : 1 ≤ device.width / 8 ∧ 1 ≤ device.height / 16 := by
  have column := device.oneColumn
  have line := device.oneLine
  omega

theorem clear (kept : Kept device before v) : Kept device before v.clear := by
  have blanked : Kept device before v.blankAll := kept.blank fun i among => by
    have below := List.mem_range.mp among
    rw [kept.size_eq] at below
    omega
  exact blanked.gotoXY (.inl ⟨Int.le_refl 1, Int.le_refl 1⟩)

/-- All lines but one. -/
theorem lines_eq (kept : Kept device before v) : v.screenSize - v.screenWidth =
    (device.height / 16 - 1) * (device.width / 8) := by
  rw [kept.size_eq, kept.width_eq, Int.sub_mul, Int.one_mul]

theorem moveUp (kept : Kept device before v) : Kept device before v.moveUp := by
  refine kept.foldl fun v' i among kept' => ?_
  have below := List.mem_range.mp among
  rw [kept.size_eq, kept.width_eq] at below
  obtain ⟨column, line⟩ := screen_positive device
  rw [copyUp, kept'.width_eq]
  refine (kept'.perform (.access _) ⟨by omega, by omega⟩).store (Int.natCast_nonneg i) (by omega) _

theorem blankLast (kept : Kept device before v) : Kept device before v.blankLast := by
  refine kept.blank fun i among => ?_
  obtain ⟨_, below⟩ := List.mem_range'_1.mp among
  obtain ⟨column, line⟩ := screen_positive device
  have lines : 0 ≤ v.screenSize - v.screenWidth := by
    rw [kept.lines_eq]
    exact Int.mul_nonneg (by omega) (by omega)
  rw [kept.size_eq, kept.width_eq] at lines below
  omega

theorem redrawCell (kept : Kept device before v) {redrawX redrawY : Nat} (left : 1 ≤ redrawX)
    (right : (redrawX : Int) ≤ device.width / 8) (top : 1 ≤ redrawY) (bottom : (redrawY : Int) ≤ device.height / 16) :
    Kept device before (v.redrawCell redrawY redrawX) := by
  have left' : (1 : Int) ≤ redrawX := by omega
  have top' : (1 : Int) ≤ redrawY := by omega
  rw [FBConsole.redrawCell]
  split
  · exact kept.drawCell left' right top' bottom
  · -- the line above is on the screen, too
    have here := place_inside left' right top' bottom
    have above := place_inside left' right (show (1 : Int) ≤ redrawY - 1 by omega)
      (show (redrawY : Int) - 1 ≤ device.height / 16 by omega)
    have read : Kept device before ((v.perform (.access (redrawX - 1 + (redrawY - 1) * v.screenWidth))).perform
        (.access (redrawX - 1 + (redrawY - 2) * v.screenWidth))) := by
      rw [kept.width_eq]
      refine (kept.perform (.access _) here).perform (.access _) ?_
      rwa [Int.sub_sub] at above
    dsimp only
    split
    · exact read.drawCell left' right top' bottom
    · exact read

theorem redraw (kept : Kept device before v) : Kept device before v.redraw := by
  refine kept.foldl fun v₁ redrawY line kept₁ => kept₁.foldl fun v₂ redrawX column kept₂ => ?_
  obtain ⟨top, bottom⟩ := List.mem_range'_1.mp line
  obtain ⟨left, right⟩ := List.mem_range'_1.mp column
  rw [kept.height_eq] at bottom
  rw [kept₁.width_eq] at right
  exact kept₂.redrawCell left (by omega) top (by omega)

theorem scroll (kept : Kept device before v) : Kept device before v.scroll := by
  have drawn := kept.moveUp.blankLast.redraw
  refine drawn.gotoXY (.inl ⟨Int.le_refl 1, ?_⟩)
  rw [drawn.height_eq]
  exact (screen_positive device).2

theorem newLine (kept : Kept device before v) : Kept device before v.newLine := by
  have top := kept.top
  rw [FBConsole.newLine]
  split
  · exact kept.gotoXY (.inl ⟨Int.le_refl 1, show 1 ≤ v.Cy + 1 by omega⟩)
  split
  · exact kept.scroll
  · exact kept

theorem wrap (kept : Kept device before v) : Kept device before v.wrap := by
  rw [FBConsole.wrap]
  split
  · exact kept.newLine
  · exact kept

theorem printChar (kept : Kept device before v) (c : Byte) : Kept device before (v.printChar c) := by
  have wrapped := kept.wrap
  obtain ⟨low, high⟩ := place_inside wrapped.left wrapped.right wrapped.top wrapped.bottom
  rw [← wrapped.width_eq] at low high
  have stored := wrapped.store low (wrapped.width_eq ▸ high) (v.wrap.cell c)
  have drawn := stored.drawCell stored.left stored.right stored.top stored.bottom
  exact drawn.gotoXY (.inl ⟨Int.le_add_one drawn.left, drawn.top⟩)

theorem print (kept : Kept device before v) (c : Byte) : Kept device before (v.print c) := by
  rw [FBConsole.print]
  split
  · exact kept.newLine
  split
  · exact kept.foldl fun _ _ _ kept => kept.printChar _
  · exact kept.printChar c

end Kept
/-! ## The console behind `putc` -/

open Vt

/-- The place to which a command has the cursor moved, if the stream itself gives it. -/
def asked (t : Terminal FBConsole) (c : Byte) : Option (Int × Int) :=
  if c = ascii 'B' then
    some (t.console.Cx, (unsignedY consoleDevice t.console + Terminal.oneOr (t.params 0)).toInt)
  else if c = ascii 'C' then
    some ((unsignedX consoleDevice t.console + Terminal.oneOr (t.params 0)).toInt, t.console.Cy)
  else if c = ascii 'u' then some (t.SavedX.toInt, t.SavedY.toInt)
  else if c = ascii 'H' then some ((Terminal.oneOr (t.params 1)).toInt, (Terminal.oneOr (t.params 0)).toInt)
  else none

/-- The parameter that a semicolon begins is there, and the place that a command asks for is on the screen or refused. -/
structure Meets (t : Terminal FBConsole) (c : Byte) : Prop where
  few : t.FindsParam c
  placed : t.state = .csi → ∀ place ∈ asked t c, Admits t.console place

/-- So it is with every character of the stream. -/
def MeetsAll (t : Terminal FBConsole) : List Byte → Prop
  | [] => True
  | c :: later => Meets t c ∧ ∀ next, t.putc consoleDevice c = some next → MeetsAll next later

section Commands

variable {device : FBDevice} {before : List Effect} {v : FBConsole}

/-- The cursor is where the unsigned numbers say. -/
theorem Kept.unsigned (kept : Kept device before v) :
    ((unsignedX consoleDevice v).toNat : Int) = v.Cx ∧ (unsignedX consoleDevice v).toInt = v.Cx ∧
    ((unsignedY consoleDevice v).toNat : Int) = v.Cy ∧ (unsignedY consoleDevice v).toInt = v.Cy := by
  obtain ⟨-, left, right, top, bottom, -⟩ := kept
  have wide := device.intWidth
  have high := device.intHeight
  have number {n : Int} (positive : 1 ≤ n) (small : n < 2 ^ 31) :
      ((BitVec.ofInt 32 n).toNat : Int) = n ∧ (BitVec.ofInt 32 n).toInt = n := by
    have value : ((BitVec.ofInt 32 n).toNat : Int) = n := by
      rw [BitVec.toNat_ofInt]
      omega
    exact ⟨value, by rw [BitVec.toInt_eq_toNat_of_lt (by omega), value]⟩
  obtain ⟨x, x_int⟩ := number left (by omega)
  obtain ⟨y, y_int⟩ := number top (by omega)
  exact ⟨x, x_int, y, y_int⟩

theorem Kept.printSpaces (kept : Kept device before v) (n : Nat) :
    Kept device before (printSpaces consoleDevice n v) := by
  induction n generalizing v with
  | zero => exact kept
  | succ n ih => exact ih (kept.print (ascii ' '))

theorem Kept.gotoXY_back {v' : FBConsole} (kept : Kept device before v) (kept' : Kept device before v') :
    Kept device before (v'.gotoXY (unsignedX consoleDevice v).toInt (unsignedY consoleDevice v).toInt) := by
  obtain ⟨-, x, -, y⟩ := kept.unsigned
  rw [x, y]
  exact kept'.gotoXY (.inl ⟨kept.left, kept.top⟩)

theorem Kept.setX_back {v' : FBConsole} (kept : Kept device before v) (kept' : Kept device before v') :
    Kept device before (v'.setX (unsignedX consoleDevice v).toInt) := by
  rw [kept.unsigned.2.1]
  exact kept'.gotoXY (.inl ⟨kept.left, kept'.top⟩)

theorem Kept.eraseDisplay (kept : Kept device before v) (mode : Word) :
    Kept device before (eraseDisplayOn consoleDevice v mode) := by
  have home : Kept device before (v.gotoXY 1 1) := kept.gotoXY (.inl ⟨Int.le_refl 1, Int.le_refl 1⟩)
  rw [eraseDisplayOn]
  split
  · exact kept.gotoXY_back (kept.printSpaces _)
  split
  · exact kept.gotoXY_back (home.printSpaces _)
  split
  · exact kept.clear
  · exact kept

theorem Kept.eraseLine (kept : Kept device before v) (mode : Word) :
    Kept device before (eraseLineOn consoleDevice v mode) := by
  have first : Kept device before (v.setX 1) := kept.gotoXY (.inl ⟨Int.le_refl 1, kept.top⟩)
  rw [eraseLineOn]
  split
  · exact kept.setX_back (kept.printSpaces _)
  split
  · exact kept.setX_back (first.printSpaces _)
  split
  · exact kept.setX_back (first.printSpaces _)
  · exact kept

theorem Kept.setAttribute (kept : Kept device before v) (param : Word) :
    Kept device before (setAttributeOn consoleDevice v param) := by
  rw [setAttributeOn]
  split
  · exact kept.setTextColor _
  split
  · exact kept.setBackColor _
  · exact kept

/-- The cursor is moved by less than its line. -/
theorem Kept.up (kept : Kept device before v) {p : Word} (less : p < unsignedY consoleDevice v) :
    Kept device before (v.setY (unsignedY consoleDevice v - p).toInt) := by
  obtain ⟨-, -, y, -⟩ := kept.unsigned
  have bottom := kept.bottom
  have high := device.intHeight
  rw [BitVec.lt_def] at less
  have line : ((unsignedY consoleDevice v - p).toNat : Int) = v.Cy - p.toNat := by
    rw [BitVec.toNat_sub_of_le (BitVec.le_def.mpr (Nat.le_of_lt less))]
    omega
  refine kept.gotoXY (.inl ⟨kept.left, ?_⟩)
  rw [BitVec.toInt_eq_toNat_of_lt (by omega), line]
  omega

theorem Kept.backward (kept : Kept device before v) {p : Word} (less : p < unsignedX consoleDevice v) :
    Kept device before (v.setX (unsignedX consoleDevice v - p).toInt) := by
  obtain ⟨x, -, -, -⟩ := kept.unsigned
  have right := kept.right
  have wide := device.intWidth
  rw [BitVec.lt_def] at less
  have column : ((unsignedX consoleDevice v - p).toNat : Int) = v.Cx - p.toNat := by
    rw [BitVec.toNat_sub_of_le (BitVec.le_def.mpr (Nat.le_of_lt less))]
    omega
  refine kept.gotoXY (.inl ⟨?_, kept.top⟩)
  rw [BitVec.toInt_eq_toNat_of_lt (by omega), column]
  omega

/-- A console that is kept, with the parameter within the array. -/
structure Good (device : FBDevice) (before : List Effect) (t : Terminal FBConsole) : Prop where
  kept : Kept device before t.console
  few : t.nParam < maxParams

/-- The result is there and good. -/
def Settled (device : FBDevice) (before : List Effect) (result : Option (Terminal FBConsole)) : Prop :=
  ∃ next, result = some next ∧ Good device before next

variable {t : Terminal FBConsole} {c : Byte}

theorem Good.settled (good : Good device before t) : Settled device before (some t) := ⟨t, rfl, good⟩

/-- The end of a sequence leaves a good console. -/
theorem Good.done (good : Good device before t) {v : FBConsole} (kept : Kept device before v) :
    Settled device before (some (t.done v)) := ⟨_, rfl, kept, good.few⟩

theorem Good.setParam (good : Good device before t) {i : Nat} (inside : i < maxParams) (value : Word) :
    Settled device before (t.setParam i value) := ⟨_, if_pos inside, good.kept, good.few⟩

theorem Good.withFirst (good : Good device before t) : Good device before t.withFirst := ⟨good.kept, good.few⟩

theorem Good.sequence (good : Good device before t) (csi : t.state = .csi) (meets : Meets t c) :
    Settled device before (t.sequence consoleDevice c) := by
  have kept := good.kept
  have few := good.few
  have zero : 0 < maxParams := by decide
  have first := good.withFirst
  have placed := meets.placed csi
  rw [Terminal.sequence]
  refine iteInduction (fun _ => ?_) fun _ => ?_
  · rw [Terminal.digit, Terminal.param_inside few]
    exact good.setParam few _
  refine iteInduction (fun separator => ?_) fun _ => ?_
  · have room := meets.few csi separator
    have next : Good device before { t with nParam := t.nParam + 1 } := ⟨kept, room⟩
    rw [Terminal.semicolon, if_pos few]
    exact next.setParam room _
  refine iteInduction (fun _ => ?_) fun _ => ?_
  · rw [Terminal.cursorUp_eq]
    refine first.done ?_
    split
    · exact kept.up ‹_›
    · exact kept
  refine iteInduction (fun down => ?_) fun _ => ?_
  · rw [Terminal.cursorDown_eq]
    subst down
    exact first.done (kept.gotoXY (placed _ rfl))
  refine iteInduction (fun forward => ?_) fun _ => ?_
  · rw [Terminal.cursorForward_eq]
    subst forward
    exact first.done (kept.gotoXY (placed _ rfl))
  refine iteInduction (fun _ => ?_) fun _ => ?_
  · rw [Terminal.cursorBackward_eq]
    refine first.done ?_
    split
    · exact kept.backward ‹_›
    · exact kept
  refine iteInduction (fun _ => ?_) fun _ => ?_
  · rw [Terminal.orOne_first]
    exact first.settled
  refine iteInduction (fun restore => ?_) fun _ => ?_
  · subst restore
    exact good.done (kept.gotoXY (placed _ rfl))
  refine iteInduction (fun _ => ⟨_, rfl, kept, few⟩) fun _ => ?_
  refine iteInduction (fun _ => ?_) fun _ => ?_
  · rw [Terminal.attributes_eq few]
    exact good.done (kept.foldl fun _ _ _ kept => kept.setAttribute _)
  refine iteInduction (fun home => ?_) fun _ => ?_
  · rw [Terminal.home_eq]
    subst home
    exact ⟨_, rfl, kept.gotoXY (placed _ rfl), few⟩
  refine iteInduction (fun _ => ?_) fun _ => ?_
  · rw [Terminal.param_inside zero]
    exact good.done (kept.eraseDisplay _)
  refine iteInduction (fun _ => ?_) fun _ => ?_
  · rw [Terminal.param_inside zero]
    exact good.done (kept.eraseLine _)
  exact iteInduction (fun _ => good.settled) fun _ => good.done kept

theorem Good.putc (good : Good device before t) (meets : Meets t c) : Settled device before (t.putc consoleDevice c) := by
  have kept := good.kept
  have few := good.few
  rw [Terminal.putc]
  cases state : t.state with
  | normal =>
    exact iteInduction (fun _ => ⟨_, rfl, kept, few⟩) fun _ => ⟨_, rfl, kept.print c, few⟩
  | escape =>
    refine iteInduction (fun _ => ?_) fun _ => ⟨_, rfl, kept, few⟩
    obtain ⟨params, cleaned⟩ := Terminal.clean_eq (t := { t with state := .csi }) few
    exact ⟨{ t with state := .csi, params := params, nParam := 0 }, by rw [cleaned]; rfl, kept,
      (by decide : 0 < maxParams)⟩
  | csi => exact good.sequence state meets

theorem Good.write (good : Good device before t) {bytes : List Byte} (meets : MeetsAll t bytes) :
    Settled device before (t.write consoleDevice bytes) := by
  induction bytes generalizing t with
  | nil => exact good.settled
  | cons c later ih =>
    obtain ⟨next, same, good⟩ := good.putc meets.1
    rw [Terminal.write, List.foldlM_cons, same]
    exact ih good (meets.2 next same)

end Commands

section Main

variable (device : FBDevice) (charMem : Int → BitVec 16)

/-- The first steps of `init`, up to the cursor at its first place. -/
def homed : FBConsole :=
  (((⟨device, charMem, 0#8, 0, 0, []⟩ : FBConsole).setTextColor 15#8).setBackColor 0#8).gotoXY 1 1

theorem homed_kept : Kept device (homed device charMem).effects (homed device charMem) ∧
    .access (-1 + -1 * (device.width / 8)) ∈ (homed device charMem).effects := by
  obtain ⟨column, line⟩ := Kept.screen_positive device
  rw [homed, gotoXY, if_pos ⟨column, line⟩]
  refine ⟨⟨rfl, Int.le_refl 1, column, Int.le_refl 1, line, [], rfl, nofun⟩, ?_⟩
  exact .tail _ (.tail _ (.head _))

/-- `init` reads in front of the characters, at the place where the cursor is before it has been moved; in the end the
cursor is on the screen. -/
theorem init_kept : Kept device (init device charMem).effects (init device charMem) ∧
    .access (-1 + -1 * (device.width / 8)) ∈ (init device charMem).effects := by
  obtain ⟨kept, read⟩ := homed_kept device charMem
  have cleared : Kept device (homed device charMem).effects (init device charMem) := kept.clear
  obtain ⟨more, effects, -⟩ := cleared.inside
  refine ⟨⟨cleared.same, cleared.left, cleared.right, cleared.top, cleared.bottom, [], rfl, nofun⟩, ?_⟩
  rw [effects]
  exact List.mem_append_right more read

/-- `init` has an effect that is not inside. Behind it everything is inside in every run that asks for places on the
screen, or for such as are refused, and for no more parameters than there are. -/
theorem effects_inside :
    (∃ effect ∈ (init device charMem).effects, ¬effect.Inside device) ∧
    ∀ t : Terminal FBConsole, t.console = init device charMem → t.nParam < maxParams →
      ∀ bytes, MeetsAll t bytes → ∃ final more, t.write consoleDevice bytes = some final ∧
        final.console.effects = more ++ (init device charMem).effects ∧ ∀ effect ∈ more, effect.Inside device := by
  obtain ⟨kept, read⟩ := init_kept device charMem
  constructor
  · refine ⟨_, read, fun inside => ?_⟩
    have column := (Kept.screen_positive device).1
    have low := inside.1
    omega
  · intro t console few bytes meets
    have good : Good device (init device charMem).effects t := ⟨console ▸ kept, few⟩
    obtain ⟨final, written, after⟩ := good.write meets
    obtain ⟨more, effects, all⟩ := after.kept.inside
    exact ⟨final, more, written, effects, all⟩

end Main

/-- A framebuffer of one character. -/
def oneCharacter : FBDevice := ⟨8, 16, by decide, by decide, by decide, by decide, by decide⟩

/-- The console of one character after `init`, with nothing in its memory before. -/
def initialized : Terminal FBConsole := Terminal.start (init oneCharacter fun _ => 0#16)

theorem MeetsAll.cons {t next : Terminal FBConsole} {c : Byte} {later : List Byte}
    (same : t.putc consoleDevice c = some next) (meets : Meets t c) (all : MeetsAll next later) : MeetsAll t (c :: later) := by
  refine ⟨meets, fun next' same' => ?_⟩
  cases same.symm.trans same'
  exact all

theorem Meets.of_asked {t : Terminal FBConsole} {c : Byte} (few : t.FindsParam c) (nothing : asked t c = none) :
    Meets t c := by
  refine ⟨few, fun _ place asks => ?_⟩
  rw [nothing] at asks
  cases asks

/-- A sequence leads to the only place of the screen, and a letter is written there. -/
theorem placed_letter_inside : ∃ final more,
    initialized.write consoleDevice ([0x1B#8] ++ ['[', '1', ';', '1', 'H', 'a'].map ascii) = some final ∧
      final.console.effects = more ++ initialized.console.effects ∧ ∀ effect ∈ more, effect.Inside oneCharacter := by
  have meets : MeetsAll initialized ([0x1B#8] ++ ['[', '1', ';', '1', 'H', 'a'].map ascii) := by
    refine .cons rfl ⟨nofun, nofun⟩ <| .cons rfl ⟨nofun, nofun⟩ <|
      .cons rfl (.of_asked (fun _ same => absurd same (by decide)) rfl) <|
        .cons rfl (.of_asked (fun _ _ => (by decide : 0 + 1 < maxParams)) rfl) <|
          .cons rfl (.of_asked (fun _ same => absurd same (by decide)) rfl) <|
            .cons rfl ⟨fun _ same => absurd same (by decide), fun _ place asks => ?_⟩
              ⟨⟨nofun, nofun⟩, fun _ _ => trivial⟩
    obtain rfl := Option.some.inj asks
    exact .inl ⟨by decide, by decide⟩
  exact (effects_inside oneCharacter fun _ => 0#16).2 initialized rfl (by decide) _ meets

/-- The saved cursor that was never saved is off the screen, and a letter is written in front of the characters. -/
theorem letter_in_front : ¬∃ final more,
    initialized.write consoleDevice [0x1B#8, ascii '[', ascii 'u', ascii 'a'] = some final ∧
      final.console.effects = more ++ initialized.console.effects ∧ ∀ effect ∈ more, effect.Inside oneCharacter := by
  rintro ⟨final, more, written, effects, inside⟩
  have run : (initialized.write consoleDevice [0x1B#8, ascii '[', ascii 'u', ascii 'a']).map (·.console.effects) =
      some ([.drawCursor 0xF00#16 1 0, .drawChar 0xF61#16 0 0, .access (-2), .drawChar 0xF61#16 0 0, .access (-2),
        .access (-2), .drawCursor 0xF00#16 0 0, .drawChar 0xF20#16 1 1, .access 0] ++
          initialized.console.effects) := by
    decide
  rw [written, Option.map_some, effects, Option.some.injEq, List.append_cancel_right_eq] at run
  rw [run] at inside
  exact absurd (inside (.access (-2)) (by decide)).1 (by decide)

end FBConsole
end FluxOS
