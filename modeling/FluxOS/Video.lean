import FluxOS.UserMemoryOps

/-! The text console: `Video` with its cursor and its memory of 2000 cells, a store outside which
has no result. -/
namespace FluxOS
open Words UserMemoryOps

/-- `gotonewline` is the flag that `print` keeps from one call to the next. -/
structure Video where
  videomem : Nat → BitVec 16
  CColor : Byte
  Cy : Int
  Cx : Int
  gotonewline : Bool

namespace Video

def screenWidth : Int := 80
def screenHeight : Int := 25
def screenSize : Int := screenHeight * screenWidth

/-- `videomem[i] = value`. -/
def store (v : Video) (i : Int) (value : BitVec 16) : Option Video :=
  if 0 ≤ i ∧ i < screenSize then some { v with videomem := Function.update v.videomem i.toNat value } else none

/-- A character in the color at hand. -/
def cell (v : Video) (c : Byte) : BitVec 16 := c.setWidth 16 ||| v.CColor.setWidth 16 <<< 8

def gotoXY (v : Video) (x y : Int) : Video :=
  if (x ≤ screenWidth ∧ y ≤ screenHeight) ∧ x > 0 ∧ y > 0 then { v with Cx := x, Cy := y } else v

def setX (v : Video) (x : Int) : Video := v.gotoXY x v.Cy

def setY (v : Video) (y : Int) : Video := v.gotoXY v.Cx y

def clear (v : Video) : Option Video :=
  (List.range screenSize.toNat).foldlM (fun v (i : Nat) => v.store i (v.cell 0x20#8)) v

/-- The loop that moves the lines up by one. -/
def moveUp (v : Video) : Option Video :=
  (List.range (screenSize - screenWidth).toNat).foldlM (fun v (i : Nat) => v.store i (v.videomem (i + 80))) v

/-- The loop that blanks the last line. -/
def blankLast (v : Video) : Option Video :=
  (List.range' (screenSize - screenWidth).toNat 80).foldlM (fun v (i : Nat) => v.store i (v.cell 0x20#8)) v

def scroll (v : Video) : Option Video := v.moveUp.bind blankLast

/-- `NewLine`. -/
def newLine (v : Video) : Option Video :=
  if v.Cy < screenHeight then some (v.gotoXY 1 (v.Cy + 1))
  else if v.Cy = screenHeight then v.scroll.map fun v => v.gotoXY 1 screenHeight
  else some v

/-- The line feed that a character in the last column has put off. -/
def wrap (v : Video) : Option Video :=
  if v.gotonewline = true ∧ v.Cx = screenWidth then v.newLine.map fun v => { v with gotonewline := false }
  else some { v with gotonewline := false }

/-- The branch for a cursor behind the last cell. -/
def leaveEnd (v : Video) : Option Video :=
  if v.Cx - 1 + (v.Cy - 1) * screenWidth = screenSize then v.scroll.map fun v => v.gotoXY 1 screenHeight else some v

/-- `print` for a character that is no newline and no tab. -/
def printChar (v : Video) (c : Byte) : Option Video := do
  let v ← v.wrap
  let v ← v.leaveEnd
  let v ← v.store ((v.Cx - 1) + (v.Cy - 1) * screenWidth) (v.cell c)
  pure (if v.Cx = screenWidth then { v with gotonewline := true } else v.gotoXY (v.Cx + 1) v.Cy)

/-- `print`, some number of times. -/
def printChars (c : Byte) : Nat → Video → Option Video
  | 0, v => some v
  | n + 1, v => (v.printChar c).bind (printChars c n)

def print (v : Video) (c : Byte) : Option Video :=
  if c = 0x0A#8 then v.newLine.map fun v => { v with gotonewline := false }
  else if c = 0x09#8 then printChars 0x20#8 5 v
  else v.printChar c

/-- `Color`, as far as the console uses it. -/
inductive Color where
  | black | blue | green | cyan | red | magenta | brown | white
  deriving DecidableEq, Repr

def Color.code : Color → Byte
  | .black => 0#8
  | .blue => 1#8
  | .green => 2#8
  | .cyan => 3#8
  | .red => 4#8
  | .magenta => 5#8
  | .brown => 6#8
  | .white => 7#8

def setBackColor (v : Video) (bkColor : Color) : Video :=
  { v with CColor := v.CColor &&& 0x8F#8 ||| (bkColor.code &&& 0x7#8) <<< 4 }

def setTextColor (v : Video) (txtColor : Color) : Video :=
  { v with CColor := v.CColor &&& 0x70#8 ||| txtColor.code &&& 0xF#8 }

def init (v : Video) : Option Video := (((v.setTextColor .white).setBackColor .black).gotoXY 1 1).clear

/-! ## The cursor stays on the screen -/

structure OnScreen (v : Video) : Prop where
  left : 1 ≤ v.Cx
  right : v.Cx ≤ screenWidth
  top : 1 ≤ v.Cy
  bottom : v.Cy ≤ screenHeight

/-- The result is there, and its cursor on the screen. -/
def Kept (result : Option Video) : Prop := ∃ v, result = some v ∧ OnScreen v

theorem Kept.bind {result : Option Video} {f : Video → Option Video} (kept : Kept result)
    (next : ∀ v, OnScreen v → Kept (f v)) : Kept (result.bind f) := by
  obtain ⟨v, rfl, on⟩ := kept
  exact next v on

theorem Kept.map {result : Option Video} {f : Video → Video} (kept : Kept result) (next : ∀ v, OnScreen v → OnScreen (f v)) :
    Kept (result.map f) := by
  obtain ⟨v, rfl, on⟩ := kept
  exact ⟨f v, rfl, next v on⟩

theorem toNat_screenSize : screenSize.toNat = 2000 := rfl

theorem toNat_lines : (screenSize - screenWidth).toNat = 1920 := rfl

namespace OnScreen

variable {v : Video}

theorem kept (on : OnScreen v) : Kept (some v) := ⟨v, rfl, on⟩

theorem setFlag (on : OnScreen v) (flag : Bool) : OnScreen { v with gotonewline := flag } := ⟨on.1, on.2, on.3, on.4⟩

theorem gotoXY (on : OnScreen v) (x y : Int) : OnScreen (v.gotoXY x y) := by
  unfold Video.gotoXY
  split
  · rename_i fits
    exact ⟨fits.2.1, fits.1.1, fits.2.2, fits.1.2⟩
  · exact on

theorem store (on : OnScreen v) {i : Int} (low : 0 ≤ i) (high : i < screenSize) (value : BitVec 16) :
    Kept (v.store i value) :=
  ⟨_, if_pos ⟨low, high⟩, on.1, on.2, on.3, on.4⟩

/-- A loop that stores to cells of the screen. -/
theorem foldlM_store (on : OnScreen v) {cells : List Nat} (inside : ∀ i ∈ cells, i < 2000) (value : Video → Nat → BitVec 16) :
    Kept (cells.foldlM (fun v (i : Nat) => v.store i (value v i)) v) := by
  induction cells generalizing v with
  | nil => exact on.kept
  | cons i cells ih =>
    have first := inside i (.head _)
    have high : (i : Int) < screenSize := by
      rw [screenSize, screenHeight, screenWidth]
      omega
    rw [List.foldlM_cons]
    exact (on.store (Int.natCast_nonneg i) high _).bind fun v on => ih on fun j mem => inside j (.tail _ mem)

theorem clear (on : OnScreen v) : Kept v.clear := by
  refine on.foldlM_store (fun i mem => ?_) fun v _ => v.cell 0x20#8
  have below := List.mem_range.mp mem
  rwa [toNat_screenSize] at below

theorem moveUp (on : OnScreen v) : Kept v.moveUp := by
  refine on.foldlM_store (fun i mem => ?_) fun v i => v.videomem (i + 80)
  have below := List.mem_range.mp mem
  rw [toNat_lines] at below
  omega

theorem blankLast (on : OnScreen v) : Kept v.blankLast := by
  refine on.foldlM_store (fun i mem => ?_) fun v _ => v.cell 0x20#8
  have below := (List.mem_range'_1.mp mem).2
  rwa [toNat_lines] at below

theorem scroll (on : OnScreen v) : Kept v.scroll := on.moveUp.bind fun _ on => on.blankLast

theorem newLine (on : OnScreen v) : Kept v.newLine := by
  unfold Video.newLine
  split
  · exact (on.gotoXY _ _).kept
  split
  · exact on.scroll.map fun v on => on.gotoXY _ _
  · exact on.kept

/-- The cell under the cursor. -/
theorem cursor_inside (on : OnScreen v) :
    0 ≤ (v.Cx - 1) + (v.Cy - 1) * screenWidth ∧ (v.Cx - 1) + (v.Cy - 1) * screenWidth < screenSize := by
  obtain ⟨left, right, top, bottom⟩ := on
  rw [screenSize]
  rw [screenWidth] at right ⊢
  rw [screenHeight] at bottom ⊢
  omega

theorem wrap (on : OnScreen v) : Kept v.wrap := by
  unfold Video.wrap
  split
  · exact on.newLine.map fun v on => on.setFlag false
  · exact (on.setFlag false).kept

/-- A cursor on the screen is never behind its last cell. -/
theorem leaveEnd (on : OnScreen v) : v.leaveEnd = some v := by
  obtain ⟨-, high⟩ := on.cursor_inside
  exact if_neg (Int.ne_of_lt high)

theorem printChar (on : OnScreen v) (c : Byte) : Kept (v.printChar c) := by
  unfold Video.printChar
  refine on.wrap.bind fun v on => ?_
  obtain ⟨low, high⟩ := on.cursor_inside
  rw [on.leaveEnd]
  refine (on.store low high _).bind fun v on => OnScreen.kept ?_
  split
  · exact on.setFlag true
  · exact on.gotoXY _ _

theorem printChars (on : OnScreen v) (c : Byte) (n : Nat) : Kept (Video.printChars c n v) := by
  induction n generalizing v with
  | zero => exact on.kept
  | succ n ih => exact (on.printChar c).bind fun v on => ih on

theorem print (on : OnScreen v) (c : Byte) : Kept (v.print c) := by
  unfold Video.print
  split
  · exact on.newLine.map fun v on => on.setFlag false
  split
  · exact on.printChars _ 5
  · exact on.printChar c

end OnScreen

/-- After `init` the cursor is on the screen, wherever it was. -/
theorem init_kept (v : Video) : Kept v.init := by
  have home : OnScreen (((v.setTextColor .white).setBackColor .black).gotoXY 1 1) := by
    rw [gotoXY, if_pos ⟨⟨by decide, by decide⟩, by decide, by decide⟩]
    exact ⟨Int.le_refl 1, (by decide : (1 : Int) ≤ 80), Int.le_refl 1, (by decide : (1 : Int) ≤ 25)⟩
  exact home.clear

end Video
end FluxOS
