import Mathlib.Logic.Function.Basic

/-!
# Numbers as text in memory: `uintToBase` of `fonts.c` and `num_to_str` of `strings.c`

Addresses are absolute, and every store of a byte is kept.

* `uintToBase`, `printBase`   into the buffer at `buffer`;
* `numToStr`                  into the block at `ans` that `mm_alloc` has answered with.
-/

set_option linter.unusedVariables false

namespace Tp2So

/-- memory, and the addresses that were written, in order -/
structure Ram where
  mem : Nat → UInt8
  writes : List Nat

namespace Ram

def write (a : Nat) (c : UInt8) (r : Ram) : Ram := ⟨Function.update r.mem a c, r.writes ++ [a]⟩

/-! ## `fonts.c` -/

/-- `static char buffer[64]` -/
def printBufferSize : Nat := 64

/-- `(remainder < 10) ? remainder + '0' : remainder + 'A' - 10` -/
def digitChar (remainder : Nat) : UInt8 :=
  if remainder < 10 then UInt8.ofNat (remainder + 48) else UInt8.ofNat (remainder + 65 - 10)

/-- `do { ... } while (value /= base)`: the memory, `p` and `digits` -/
def digitLoop (base : Nat) : Nat → Nat → Nat → Nat → Ram → Ram × Nat × Nat
  | 0, _, p, digits, r => (r, p, digits)
  | n + 1, value, p, digits, r =>
    let r := r.write p (digitChar (value % base))
    if value / base = 0 then (r, p + 1, digits + 1)
    else digitLoop base n (value / base) (p + 1) (digits + 1) r

/-- `while (p1 < p2)`, of which there is no more than a turn for each byte -/
def reverseLoop : Nat → Nat → Nat → Ram → Ram
  | 0, _, _, r => r
  | n + 1, p1, p2, r =>
    if p1 < p2 then
      let tmp := r.mem p1
      let r := r.write p1 (r.mem p2)
      reverseLoop n (p1 + 1) (p2 - 1) (r.write p2 tmp)
    else r

/-- a 64-bit value has at most 64 digits -/
def uintToBase (value buffer base : Nat) (r : Ram) : Ram × Nat :=
  let l := digitLoop base 64 value buffer 0 r
  let r := l.1.write l.2.1 0
  (reverseLoop l.2.2 buffer (l.2.1 - 1) r, l.2.2)

/-! ## `strings.c` -/

/-- `while (aux > 0) { aux /= 10; len++; }` -/
def countLoop : Nat → Nat → Nat → Nat
  | 0, _, len => len
  | n + 1, aux, len => if aux > 0 then countLoop n (aux / 10) (len + 1) else len

/-- `while (num > 0) ans[len-i-2] = '0' + num % 10` -/
def fillLoop (ans len : Nat) : Nat → Nat → Nat → Ram → Ram
  | 0, _, _, r => r
  | n + 1, num, i, r =>
    if num > 0 then
      fillLoop ans len n (num / 10) (i + 1) (r.write (ans + len - i - 2) (UInt8.ofNat (48 + num % 10)))
    else r

/-- what is asked of `mm_alloc`; a 64-bit number has at most 20 digits -/
def numToStrLen (num : Nat) : Nat := if num = 0 then 2 else countLoop 20 num 0 + 1

def numToStr (num ans : Nat) (r : Ram) : Ram :=
  if num = 0 then (r.write ans 48).write (ans + 1) 0
  else
    let len := numToStrLen num
    (fillLoop ans len 20 num 0 r).write (ans + len - 1) 0

end Ram

end Tp2So
