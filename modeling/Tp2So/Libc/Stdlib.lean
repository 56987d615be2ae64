import Tp2So.Kernel.Modules
import Tp2So.Lib.Reverse
import Tp2So.Libc.Chars

/-!
# `stdlib.c`: numbers and their texts, and `memcpy`

`int` arithmetic wraps, as `Int32` does; `/` and `%` round towards zero.
-/

set_option linter.unusedVariables false

namespace Tp2So

namespace Libc

/-- `while (str[i] >= '0' && str[i] <= '9') result = result * 10 + (str[i] - '0')` -/
def atoiLoop : List UInt8 → Int32 → Int32
  | [], result => result
  | c :: str, result =>
    if isDigit c then atoiLoop str (result * 10 + (charInt c - charInt (ch '0'))) else result

/-- the blanks in front of the number -/
def skipBlanks : List UInt8 → List UInt8
  | [] => []
  | c :: str => if c = ch ' ' ∨ c = ch '\t' ∨ c = ch '\n' then skipBlanks str else c :: str

/-- `str` is given up to its NUL, which ends the loops -/
def atoi (str : List UInt8) : Int32 :=
  match skipBlanks str with
  | [] => 1 * 0
  | c :: str' =>
    if c = ch '-' then -1 * atoiLoop str' 0
    else if c = ch '+' then 1 * atoiLoop str' 0
    else 1 * atoiLoop (c :: str') 0

/-- `while (value != 0)`: the digits, from the lowest on; an `int` has at most 32 in base 2 -/
def itoaLoop (base : Int32) : Nat → Int32 → List UInt8
  | 0, _ => []
  | n + 1, value =>
    if value ≠ 0 then
      (if value % base < 10 then (value % base + charInt (ch '0')).toInt8.toUInt8
        else (value % base - 10 + charInt (ch 'a')).toInt8.toUInt8) :: itoaLoop base n (value / base)
    else []

/-- `null` says that `str` is NULL; the result is what stands at `str` before the NUL, or NULL -/
def itoa (value : Int32) (null : Bool) (base : Int32) : Option (List UInt8) :=
  if null = true ∨ base < 2 ∨ 36 < base then none
  else if value = 0 then some [ch '0']
  else
    let negative := value < 0 ∧ base = 10
    let digits := itoaLoop base 32 (if negative then -value else value)
    let text := if negative then digits ++ [ch '-'] else digits
    some (swapLoop text.length 0 (text.length - 1) text)

/-- the userland's `memcpy`, on the memory and the loops of the kernel's -/
def memcpy (destination source length : Nat) (b : Bus) : Bus :=
  if destination % 4 = 0 ∧ source % 4 = 0 ∧ length % 4 = 0 then
    copyWords destination source (length / 4) 0 b
  else copyBytes destination source length 0 b

end Libc

end Tp2So
