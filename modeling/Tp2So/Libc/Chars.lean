import Mathlib.Data.List.Basic

/-!
# Characters and strings of the library

A pointer into a string is what can still be read from it: the bytes from there on, the NUL included.
With nothing left, a read is one behind the NUL.

* `CString`   a string without its NUL;
* `Fault`     how a call may fail to return.
-/

set_option linter.unusedVariables false

namespace Tp2So

namespace Libc

def ch (c : Char) : UInt8 := c.toUInt8

/-- `'\e'` -/
def esc : UInt8 := 27

/-- a `char` in arithmetic: it is signed -/
def charInt (c : UInt8) : Int32 := c.toInt8.toInt32

/-- `c >= '0' && c <= '9'` -/
def isDigit (c : UInt8) : Bool := charInt (ch '0') ≤ charInt c && charInt c ≤ charInt (ch '9')

structure CString where
  bytes : List UInt8
  noNul : 0 ∉ bytes
  deriving DecidableEq

/-- what a pointer to the string reads -/
def CString.chars (s : CString) : List UInt8 := s.bytes ++ [0]

/-- `strlen`, of what a pointer reads -/
def strlen : List UInt8 → Nat
  | [] => 0
  | c :: l => if c = 0 then 0 else strlen l + 1

/-- out of fuel, a read behind the NUL, or a `va_arg` that finds no argument of its type -/
inductive Fault where
  | running
  | overread
  | noArgument
  deriving DecidableEq

end Libc

end Tp2So
