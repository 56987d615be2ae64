import Tp2So.Libc.Chars

/-!
# `string.c`

`strtok` works on the array its string lies in and keeps a position in it between the calls; a function
gives `none` where it accesses the array outside.  The others take a string as the bytes in front of
its NUL.

* `strcmp`, `strcasecmp`     the comparisons;
* `strcpyWrites`, `strncpyWrites`   how many bytes the copies write;
* `strtok`                   one call;
* `stringAt`                 the string that a pointer into the array points to.
-/

set_option linter.unusedVariables false

namespace Tp2So

namespace Libc

/-! ## comparisons -/

/-- `str1[i] - str2[i]`, where one of the two is at its end -/
def lastDifference (s t : List UInt8) : Int32 := charInt (s.headD 0) - charInt (t.headD 0)

def strcmp : List UInt8 → List UInt8 → Int32
  | a :: s, b :: t => if a ≠ b then charInt a - charInt b else strcmp s t
  | s, t => lastDifference s t

/-- the macro of `ctype.h` -/
def toupper (a : UInt8) : Int32 :=
  if charInt (ch 'a') ≤ charInt a ∧ charInt a ≤ charInt (ch 'z') then
    charInt a - (charInt (ch 'a') - charInt (ch 'A'))
  else charInt a

def strcasecmp : List UInt8 → List UInt8 → Int32
  | a :: s, b :: t => if toupper a ≠ toupper b then charInt a - charInt b else strcasecmp s t
  | s, t => lastDifference s t

/-! ## copies -/

/-- `strcpy` writes the bytes and the NUL -/
def strcpyWrites (src : List UInt8) : Nat := src.length + 1

/-- `strncpy` writes at most `n` bytes, and a NUL behind them -/
def strncpyWrites (src : List UInt8) (n : Nat) : Nat := min n (src.takeWhile (· ≠ 0)).length + 1

/-! ## `strtok` -/

/-- the array the string lies in, `static char *last` as an index, and where `strtok` wrote -/
structure Strtok where
  text : List UInt8
  last : Nat
  writes : List Nat
  deriving DecidableEq, Repr

/-- `while (*last != 0)`; the array is left behind after as many turns as it has bytes -/
def strtokLoop (s2 : List UInt8) : Nat → Strtok → Option Strtok
  | 0, _ => none
  | n + 1, t =>
    match t.text[t.last]? with
    | none => none
    | some c =>
      if c = 0 then some t
      else if c ∈ s2 then some ⟨t.text.set t.last 0, t.last + 1, t.writes ++ [t.last]⟩
      else strtokLoop s2 n { t with last := t.last + 1 }

def strtok (s1 : Option Nat) (s2 : List UInt8) (t : Strtok) : Option (Option Nat × Strtok) :=
  match s1 with
  | some s1 => (strtokLoop s2 (t.text.length + 1) { t with last := s1 }).bind fun t => some (some s1, t)
  | none =>
    match t.text[t.last]? with
    | none => none
    | some c =>
      if c = 0 then some (none, t)
      else (strtokLoop s2 (t.text.length + 1) t).bind fun t' => some (some t.last, t')

/-- the bytes from `p` up to the next NUL -/
def stringAt (t : Strtok) (p : Nat) : List UInt8 := (t.text.drop p).takeWhile (· ≠ 0)

end Libc

end Tp2So
