import Tp2So.Libc.Chars

/-!
# `ansiColors.c`: escape sequences

* `setANSIProp`   one parameter of a sequence;
* `parseANSI`     a whole sequence, from its ESC; the pointer comes back behind the `m`, or unmoved.
-/

set_option linter.unusedVariables false

namespace Tp2So

namespace Libc

/-- `sys_write`, `sys_fonts_text_color`, `sys_fonts_background_color` -/
inductive SysCall where
  | write (fd : Int32) (bytes : List UInt8)
  | textColor (color : Nat)
  | backgroundColor (color : Nat)
  deriving DecidableEq

def setANSIProp (prop : UInt8) : List SysCall :=
  let background := (40 ≤ prop ∧ prop ≤ 47) ∨ (100 ≤ prop ∧ prop ≤ 107)
  let set : Nat → List SysCall := fun color =>
    if background then [.backgroundColor color] else [.textColor color]
  let prop := if background then prop - 10 else prop
  if prop = 0 then [.textColor 0x00FFFFFF, .backgroundColor 0x00000000]
  else if prop = 30 then set 0x00000000
  else if prop = 31 then set 0x00DE382B
  else if prop = 32 then set 0x0039B54A
  else if prop = 33 then set 0x00FFC706
  else if prop = 34 then set 0x00006FB8
  else if prop = 35 then set 0x00762671
  else if prop = 36 then set 0x002CB5E9
  else if prop = 37 then set 0x00CCCCCC
  else if prop = 90 then set 0x00808080
  else if prop = 91 then set 0x00FF0000
  else if prop = 92 then set 0x0000FF00
  else if prop = 93 then set 0x00FFFF00
  else if prop = 94 then set 0x000000FF
  else if prop = 95 then set 0x00FF00FF
  else if prop = 96 then set 0x0000FFFF
  else if prop = 97 then set 0x00FFFFFF
  else []

/-- `do … while (string[(*i)++] != 'm')`, with nothing that stops it at the NUL -/
def parseLoop : List UInt8 → UInt8 → Except Fault (List SysCall × List UInt8)
  | [], _ => .error .overread
  | c :: rest, prop =>
    if c = ch 'm' then .ok (setANSIProp prop, rest)
    else if c = ch ';' then (parseLoop rest 0).map fun r => (setANSIProp prop ++ r.1, r.2)
    else parseLoop rest (prop * 10 + (c - ch '0'))

def parseANSI : List UInt8 → Except Fault (List SysCall × List UInt8)
  | c :: d :: e :: rest =>
    if d ≠ ch '[' ∨ e = 0 then .ok ([], c :: d :: e :: rest) else parseLoop (e :: rest) 0
  | [c, d] => if d ≠ ch '[' then .ok ([], [c, d]) else .error .overread
  | _ => .error .overread

end Libc

end Tp2So
