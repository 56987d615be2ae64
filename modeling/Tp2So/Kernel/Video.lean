import Mathlib.Logic.Function.Basic

/-!
# `video.c`: the video memory

A byte of the framebuffer is known by its offset.  The product of two `uint16_t` is an `int`, and undefined
where it does not fit (`none`).

* `copyPixel`, `fillPixel`    the three colour bytes of a pixel;
* `scrollVideoMemoryUp`       the rows are moved up, and the last ones filled.
-/

set_option linter.unusedVariables false

namespace Tp2So

namespace Video

/-- the fields of `vbe_mode_info_structure` that are read; the record does not lie in the framebuffer -/
structure VbeModeInfo where
  width : UInt16
  height : UInt16
  pitch : UInt16
  bpp : UInt8

/-- `bpp >> 3` -/
def VbeModeInfo.bytes (v : VbeModeInfo) : Nat := (v.bpp >>> 3).toNat

/-- `a * b`, as an `int` -/
def intMul (a b : Nat) : Option Nat := if a * b < 2147483648 then some (a * b) else none

/-- the bytes `b`, `g`, `r` of a colour -/
def blue (color : UInt32) : UInt8 := (color &&& 0xFF).toUInt8
def green (color : UInt32) : UInt8 := (color >>> 8 &&& 0xFF).toUInt8
def red (color : UInt32) : UInt8 := (color >>> 16 &&& 0xFF).toUInt8

def copyPixel (offset newOffset : Nat) (framebuffer : Nat → UInt8) : Nat → UInt8 :=
  let framebuffer := Function.update framebuffer offset (framebuffer newOffset)
  let framebuffer := Function.update framebuffer (offset + 1) (framebuffer (newOffset + 1))
  Function.update framebuffer (offset + 2) (framebuffer (newOffset + 2))

def fillPixel (fillColor : UInt32) (offset : Nat) (framebuffer : Nat → UInt8) : Nat → UInt8 :=
  let framebuffer := Function.update framebuffer offset (blue fillColor)
  let framebuffer := Function.update framebuffer (offset + 1) (green fillColor)
  Function.update framebuffer (offset + 2) (red fillColor)

/-- the loop over `x`; `x * (bpp >> 3)` always fits into an `int` -/
def copyRow (v : VbeModeInfo) (yoffset ynoffset : Nat) (framebuffer : Nat → UInt8) : Nat → UInt8 :=
  (List.range v.width.toNat).foldl
    (fun framebuffer x => copyPixel (x * v.bytes + yoffset) (x * v.bytes + ynoffset) framebuffer) framebuffer

def fillRow (v : VbeModeInfo) (fillColor : UInt32) (yoffset : Nat) (framebuffer : Nat → UInt8) : Nat → UInt8 :=
  (List.range v.width.toNat).foldl
    (fun framebuffer x => fillPixel fillColor (x * v.bytes + yoffset) framebuffer) framebuffer

/-- `height - scroll` is an `int` in the first loop, and cut to 16 bits where the second begins -/
def scrollVideoMemoryUp (v : VbeModeInfo) (scroll : UInt16) (fillColor : UInt32) (framebuffer : Nat → UInt8) :
    Option (Nat → UInt8) :=
  let copied := (List.range (v.height.toNat - scroll.toNat)).foldlM
    (fun framebuffer y =>
      (intMul y v.pitch.toNat).bind fun yoffset =>
      (intMul (y + scroll.toNat) v.pitch.toNat).bind fun ynoffset =>
      some (copyRow v yoffset ynoffset framebuffer)) framebuffer
  let first := (v.height - scroll).toNat
  copied.bind fun framebuffer =>
    (List.range' first (v.height.toNat - first)).foldlM
      (fun framebuffer y =>
        (intMul y v.pitch.toNat).bind fun yoffset => some (fillRow v fillColor yoffset framebuffer)) framebuffer

end Video

end Tp2So
