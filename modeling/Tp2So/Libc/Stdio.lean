import Tp2So.Lib.Reverse
import Tp2So.Libc.AnsiColors

/-!
# `stdio.c`: `vfprintf` and `vsscanf`

What is written goes out by system calls, which `vfprintf` collects; the arguments are taken from the
front of a list, each by its type.  What `vsscanf` stores goes to the cells its arguments point to.

* `uintToBase`, `printBase`, `printLongBase`, `printUnsignedLongBase`   numbers;
* `vfprintf`    on fuel, since an escape sequence may leave the pointer where it is;
* `vsscanf`     which moves on with every step.
-/

set_option linter.unusedVariables false

namespace Tp2So

namespace Libc

/-! ## numbers -/

/-- `do … while (value /= base)`: the digits, from the lowest on; there are at most 64 in base 2 -/
def digitLoop (base : Nat) : Nat → Nat → List UInt8
  | 0, _ => []
  | n + 1, value =>
    (if value % base < 10 then UInt8.ofNat (value % base + 48) else UInt8.ofNat (value % base + 65 - 10))
      :: if value / base = 0 then [] else digitLoop base n (value / base)

/-- the text at `buffer`, with its NUL, and the number of digits -/
def uintToBase (value base : Nat) : List UInt8 × Nat :=
  let l := digitLoop base 64 value
  (swapLoop l.length 0 (l.length - 1) l ++ [0], l.length)

/-- `uintToBase(value, buffer, base); sys_write(fd, buffer, strlen(buffer))` -/
def writeNumber (fd : Int32) (value base : Nat) : SysCall :=
  .write fd ((uintToBase value base).1.take (strlen (uintToBase value base).1))

def printBase (fd num : Int32) (base : Nat) : List SysCall :=
  if num < 0 then [.write fd [ch '-'], writeNumber fd (-num).toInt64.toUInt64.toNat base]
  else [writeNumber fd num.toInt64.toUInt64.toNat base]

def printLongBase (fd : Int32) (num : Int64) (base : Nat) : List SysCall :=
  if num < 0 then
    [.write fd [ch '-'], writeNumber fd (if num = -9223372036854775807 - 1 then 9223372036854775808
      else (-num).toUInt64.toNat) base]
  else [writeNumber fd num.toUInt64.toNat base]

def printUnsignedLongBase (fd : Int32) (num : UInt64) (base : Nat) : List SysCall :=
  [writeNumber fd num.toNat base]

/-! ## `vfprintf` -/

inductive Arg where
  | int (n : Int32)
  | long (n : Int64)
  | ulong (n : UInt64)
  | str (s : CString)
  deriving DecidableEq

def Arg.int? : Arg → Option Int32
  | .int n => some n
  | _ => none

def Arg.long? : Arg → Option Int64
  | .long n => some n
  | _ => none

def Arg.ulong? : Arg → Option UInt64
  | .ulong n => some n
  | _ => none

def Arg.str? : Arg → Option CString
  | .str s => some s
  | _ => none

/-- `va_arg(args, type)`, where `type` reads an argument of its type -/
def vaArg {α : Type} (type : Arg → Option α) : List Arg → Except Fault (α × List Arg)
  | [] => .error .noArgument
  | a :: args => (type a).elim (.error .noArgument) fun v => .ok (v, args)

/-- behind a `%l`; another character is looked at again -/
def convertLong (fd : Int32) : List UInt8 → List Arg →
    Except Fault (List SysCall × List UInt8 × List Arg)
  | [], _ => .error .overread
  | c :: rest, args =>
    if c = ch 'd' then (vaArg Arg.long? args).map fun r => (printLongBase fd r.1 10, rest, r.2)
    else if c = ch 'u' then
      (vaArg Arg.ulong? args).map fun r => (printUnsignedLongBase fd r.1 10, rest, r.2)
    else if c = ch 'x' then
      (vaArg Arg.ulong? args).map fun r => (printUnsignedLongBase fd r.1 16, rest, r.2)
    else .ok ([.write fd [ch 'l']], c :: rest, args)

/-- behind a `%`: what is written, the rest of the format and of the arguments; `print` stands for the
call of `fprintf` -/
def convert (fd : Int32) (print : CString → Except Fault (List SysCall)) : List UInt8 → List Arg →
    Except Fault (List SysCall × List UInt8 × List Arg)
  | [], _ => .error .overread
  | c :: rest, args =>
    if c = ch 'x' then (vaArg Arg.int? args).map fun r => (printBase fd r.1 16, rest, r.2)
    else if c = ch 'd' then (vaArg Arg.int? args).map fun r => (printBase fd r.1 10, rest, r.2)
    else if c = ch 'o' then (vaArg Arg.int? args).map fun r => (printBase fd r.1 8, rest, r.2)
    else if c = ch 'b' then (vaArg Arg.int? args).map fun r => (printBase fd r.1 2, rest, r.2)
    else if c = ch 'l' then convertLong fd rest args
    else if c = ch 'c' then
      (vaArg Arg.int? args).map fun r => ([.write fd [r.1.toInt8.toUInt8]], rest, r.2)
    else if c = ch 's' then
      (vaArg Arg.str? args).bind fun r => (print r.1).map fun calls => (calls, rest, r.2)
    else if c = ch '%' then .ok ([.write fd [ch '%']], rest, args)
    else .ok ([], rest, args)

/-- the system calls, and the arguments that are left -/
def vfprintf (fd : Int32) : Nat → List UInt8 → List Arg → Except Fault (List SysCall × List Arg)
  | 0, _, _ => .error .running
  | _ + 1, [], _ => .error .overread
  | fuel + 1, c :: rest, args =>
    if c = 0 then .ok ([], args)
    else if c = esc then
      (parseANSI (c :: rest)).bind fun r =>
        (vfprintf fd fuel r.2 args).map fun q => (.write fd [] :: r.1 ++ q.1, q.2)
    else if c = ch '%' then
      (convert fd (fun s => (vfprintf fd fuel s.chars []).map Prod.fst) rest args).bind fun r =>
        (vfprintf fd fuel r.2.1 r.2.2).map fun q => (r.1 ++ q.1, q.2)
    else (vfprintf fd fuel rest args).map fun q => (.write fd [c] :: q.1, q.2)

/-- `FD_STDOUT` -/
def fdStdout : Int32 := 1

def printf (fuel : Nat) (format : CString) (args : List Arg) :
    Except Fault (List SysCall × List Arg) :=
  vfprintf fdStdout fuel format.chars args

/-! ## `vsscanf` -/

/-- what an argument of `vsscanf` points to -/
inductive Cell where
  | int (n : Int32)
  | char (c : UInt8)
  | str (m : Nat → UInt8)

/-- `while (buffer[buf_i] >= '0' && buffer[buf_i] <= '9')`: the number, whether a digit was read, and
where it stops -/
def scanDigits : List UInt8 → Int32 → Bool → Except Fault (Int32 × Bool × List UInt8)
  | [], _, _ => .error .overread
  | c :: buffer, num, read =>
    if isDigit c then scanDigits buffer (num * 10 + charInt c - charInt (ch '0')) true
    else .ok (num, read, c :: buffer)

/-- `while (buffer[buf_i] != ' ' && buffer[buf_i] != '\n' && buffer[buf_i] != 0)`: `str` moves on twice
for each character -/
def scanString : List UInt8 → Nat → (Nat → UInt8) → Except Fault ((Nat → UInt8) × List UInt8)
  | [], _, _ => .error .overread
  | c :: buffer, str, m =>
    if c ≠ ch ' ' ∧ c ≠ ch '\n' ∧ c ≠ 0 then scanString buffer (str + 2) (Function.update m str c)
    else .ok (Function.update m str 0, c :: buffer)

/-- what a conversion stores, the cells behind it, where the buffer stands, and what is counted -/
structure Scanned where
  stored : List Cell
  cells : List Cell
  buffer : List UInt8
  count : Nat

def storeInt (n : Int32) (cells : List Cell) (buffer : List UInt8) (count : Nat) :
    Except Fault Scanned :=
  match cells with
  | .int _ :: cells => .ok ⟨[.int n], cells, buffer, count⟩
  | _ => .error .noArgument

def storeChar (c : UInt8) (cells : List Cell) (buffer : List UInt8) : Except Fault Scanned :=
  match cells with
  | .char _ :: cells => .ok ⟨[.char c], cells, buffer, 1⟩
  | _ => .error .noArgument

def storeString (cells : List Cell) (buffer : List UInt8) : Except Fault Scanned :=
  match cells with
  | .str m :: cells => (scanString buffer 0 m).map fun r => ⟨[.str r.1], cells, r.2, 1⟩
  | _ => .error .noArgument

/-- `case 'd'` -/
def scanInt (cells : List Cell) : List UInt8 → Except Fault Scanned
  | [] => .error .overread
  | c :: buffer =>
    if c ≠ ch '-' ∧ isDigit c = false then .ok ⟨[], cells, c :: buffer, 0⟩
    else if c = ch '-' then
      (scanDigits buffer 0 false).bind fun r => storeInt (r.1 * -1) cells r.2.2 r.2.1.toNat
    else (scanDigits (c :: buffer) 0 false).bind fun r => storeInt (r.1 * 1) cells r.2.2 r.2.1.toNat

/-- the switch behind a `%` -/
def scanOne (d : UInt8) (buffer : List UInt8) (cells : List Cell) : Except Fault Scanned :=
  if d = ch 'd' then scanInt cells buffer
  else if d = ch 'c' then
    match buffer with
    | [] => .error .overread
    | c :: buffer => storeChar c cells buffer
  else if d = ch 's' then storeString cells buffer
  else .ok ⟨[], cells, buffer, 0⟩

/-- the cells afterwards, and `args_read` -/
def vsscanf (buffer : List UInt8) : List UInt8 → List Cell → Except Fault (List Cell × Nat)
  | [], _ => .error .overread
  | c :: format, cells =>
    if c = 0 then .ok (cells, 0)
    else if c = ch '%' then
      match format with
      | [] => .error .overread
      | d :: format =>
        (scanOne d buffer cells).bind fun r =>
          (vsscanf r.buffer format r.cells).map fun q => (r.stored ++ q.1, r.count + q.2)
    else vsscanf buffer format cells

end Libc

end Tp2So
