import Mathlib.Data.List.Basic
import Mathlib.Data.Int.Init

/-!
# `fonts.c`: the console

The pixels that are drawn are kept as the arguments of `putPixel`, without their colours.  A window has a
width and a height; positions are `int32_t`, and may be negative.

* `Fonts`            the static variables;
* `putGlyph`         a character that is drawn;
* `putChar`          any character: a tab is as many spaces as the fuel allows;
* `newLine`, `clear`, `clearPreviousCharacter`, `setFontSize`, `increaseFontSize`, `decreaseFontSize`.
-/

set_option linter.unusedVariables false

namespace Tp2So

structure Window where
  width : Nat
  height : Nat

/-- `DEFAULT_GLYPH_SIZE_X`, `DEFAULT_GLYPH_SIZE_Y` -/
def glyphSize : Nat := 8

/-- `TAB_SIZE` -/
def tabSize : Nat := 4

structure Fonts where
  fontSize : Nat
  xBufferPosition : Int
  yBufferPosition : Int
  maxGlyphSizeYOnLine : Nat
  dirtyLine : Bool
  pixels : List (Int × Int)

namespace Fonts

/-- the static variables before anything is drawn -/
def start : Fonts := ⟨1, 0, 0, glyphSize, false, []⟩

/-- `glyphSizeX * fontSize`, and `glyphSizeY * fontSize` -/
def side (s : Fonts) : Nat := glyphSize * s.fontSize

/-- `renderFromBitmap`: columns from left to right, each from the top -/
def render (s : Fonts) : Fonts where
  fontSize := s.fontSize
  xBufferPosition := s.xBufferPosition
  yBufferPosition := s.yBufferPosition
  maxGlyphSizeYOnLine := s.maxGlyphSizeYOnLine
  dirtyLine := s.dirtyLine
  pixels := s.pixels ++ (List.range s.side).flatMap fun x : Nat => (List.range s.side).map fun y : Nat =>
    (s.xBufferPosition + (x : Int), s.yBufferPosition + (y : Int))

/-- `scrollVideoMemoryUp` moves what is on the screen, without `putPixel` -/
def scrollBufferPositionIfNeeded (w : Window) (s : Fonts) : Fonts :=
  { s with yBufferPosition :=
      if s.yBufferPosition + (s.side : Int) > w.height then s.yBufferPosition - s.side
      else s.yBufferPosition }

def newLine (w : Window) (s : Fonts) : Fonts :=
  scrollBufferPositionIfNeeded w
    { s with
      dirtyLine := false
      yBufferPosition := s.yBufferPosition + s.maxGlyphSizeYOnLine
      xBufferPosition := 0
      maxGlyphSizeYOnLine := s.fontSize * glyphSize }

/-- the `default` of `putChar` -/
def putGlyph (w : Window) (s : Fonts) : Fonts :=
  let s : Fonts := { s with dirtyLine := true }
  let s : Fonts := if s.xBufferPosition + (s.side : Int) > w.width then newLine w s else s
  { s.render with xBufferPosition := s.xBufferPosition + s.side }

def retractPosition (w : Window) (s : Fonts) : Fonts :=
  if s.xBufferPosition = 0 then
    let s : Fonts := { s with yBufferPosition := s.yBufferPosition - s.side }
    if s.yBufferPosition < 0 then { s with yBufferPosition := 0 }
    else { s with xBufferPosition := ((w.width - w.width % s.side : Nat) : Int) - s.side }
  else { s with xBufferPosition := s.xBufferPosition - s.side }

/-- `putChar(' '); retractPosition()` -/
def hideCursor (w : Window) (s : Fonts) : Fonts := retractPosition w (putGlyph w s)

/-- `putChar('|'); retractPosition()` -/
def showCursor (w : Window) (s : Fonts) : Fonts := retractPosition w (putGlyph w s)

/-- `while (xBufferPosition > 0) retractPosition()`; no turn leaves the position as it is -/
def retractLoop (w : Window) : Nat → Fonts → Fonts
  | 0, s => s
  | n + 1, s => if s.xBufferPosition > 0 then retractLoop w n (retractPosition w s) else s

/-- `do putChar(' ') while (xBufferPosition % (TAB_SIZE * glyphSizeX * fontSize) != 0)` -/
def tabLoop (w : Window) : Nat → Fonts → Fonts
  | 0, s => s
  | n + 1, s =>
    let s := putGlyph w s
    if Int.tmod s.xBufferPosition (tabSize * s.side : Nat) ≠ 0 then tabLoop w n s else s

def putChar (w : Window) (fuel : Nat) (ascii : UInt8) (s : Fonts) : Fonts :=
  if ascii = 10 then newLine w (hideCursor w { s with dirtyLine := true })
  else if ascii = 13 then
    let s := hideCursor w { s with dirtyLine := true }
    retractLoop w s.xBufferPosition.toNat s
  else if ascii = 9 then tabLoop w fuel { s with dirtyLine := true }
  else putGlyph w s

/-- `fillVideoMemory` draws without `putPixel` -/
def clear (s : Fonts) : Fonts := { s with xBufferPosition := 0, yBufferPosition := 0 }

def clearPreviousCharacter (w : Window) (s : Fonts) : Fonts :=
  showCursor w (retractPosition w (hideCursor w s))

/-- the size, and the tallest glyph of the line -/
def resize (s : Fonts) (size : Nat) : Fonts where
  fontSize := size
  xBufferPosition := s.xBufferPosition
  yBufferPosition := s.yBufferPosition
  maxGlyphSizeYOnLine :=
    if s.dirtyLine then max s.maxGlyphSizeYOnLine (glyphSize * size) else glyphSize * size
  dirtyLine := s.dirtyLine
  pixels := s.pixels

def increaseFontSize (w : Window) (s : Fonts) : Fonts :=
  scrollBufferPositionIfNeeded w (s.resize (if s.fontSize > 9 then s.fontSize else s.fontSize + 1))

def decreaseFontSize (s : Fonts) : Fonts :=
  s.resize (if s.fontSize ≤ 1 then s.fontSize else s.fontSize - 1)

/-- the size that `setFontSize` sets -/
def clampSize (size : Int8) : Nat := if size < 1 then 1 else if size > 10 then 10 else size.toInt.toNat

def setFontSize (size : Int8) (s : Fonts) : Fonts := s.resize (clampSize size)

end Fonts

end Tp2So
