import Tp2So.Kernel.Pcb
import Tp2So.Libc.Chars

/-!
# `ps` of `process.c`, in bytes

The array `process_info` lies at an address; what `ps` stores is kept as a row of stores.  What it reads
are the control blocks and the strings of the kernel, which the array is no part of.

* `Info`           the offsets of the fields of `struct ProcessInfo`, and its size;
* `slotStores`     the second loop, at one slot;
* `ps`             both loops.
-/

set_option linter.unusedVariables false

namespace Tp2So

/-- the fields of `struct Process` that `ps` reads; `argv` is `none` where it is `NULL`, and its first
entry where that one is -/
structure PsRecord where
  pid : Int32
  ppid : Int32
  state : ProcessState
  rsp : UInt64
  stackBase : UInt64
  priority : Int32
  ground : Int32
  argc : Int32
  argv : Option (Option Libc.CString)

/-! ## `struct ProcessInfo` -/

namespace Info

abbrev pid : Nat := 0
abbrev ppid : Nat := 4
abbrev name : Nat := 8
abbrev state : Nat := 40
abbrev rsp : Nat := 48
abbrev stackBase : Nat := 56
abbrev priority : Nat := 64
abbrev ground : Nat := 68
abbrev size : Nat := 72

/-- `MAX_PROCESS_NAME` -/
abbrev maxProcessName : Nat := 32

end Info

/-- `MAX_PROCESSES` -/
def psSlots : Nat := 64

/-- the word of an `int`, and the `int` of a word -/
def intWord (x : Int32) : Nat := x.toUInt32.toNat
def readInt (m : Nat → UInt8) (a : Nat) : Int32 := (UInt32.ofNat (load32 m a)).toInt32

/-- `my_strcpy(dest, src)` -/
def myStrcpy (dest : Nat) (src : List UInt8) : List Store := chars dest (src.map UInt8.toNat)

/-- `argv[0]`, if there is one -/
def PsRecord.argv0 (p : PsRecord) : Option Libc.CString := if p.argc > 0 then p.argv.join else none

/-- `"unknown"` -/
def unknownName : List UInt8 := [117, 110, 107, 110, 111, 119, 110]

def PsRecord.name (p : PsRecord) : List UInt8 := (p.argv0.map Libc.CString.bytes).getD unknownName

/-- `p != NULL && p->state != TERMINATED` -/
def listed (table : Nat → Option PsRecord) (i : Nat) : Option PsRecord :=
  (table i).filter fun p => p.state ≠ .terminated

/-- the stores for the process `p` into the entry at `e`, in front of the copy of its name -/
def entryWords (p : PsRecord) (e : Nat) : List Store :=
  [.word (e + Info.pid) (intWord p.pid), .word (e + Info.ppid) (intWord p.ppid),
    .word (e + Info.state) p.state.code, .quad (e + Info.rsp) p.rsp.toNat,
    .quad (e + Info.stackBase) p.stackBase.toNat, .word (e + Info.priority) (intWord p.priority),
    .word (e + Info.ground) (intWord p.ground)]

def entryStores (p : PsRecord) (e : Nat) : List Store :=
  entryWords p e ++ myStrcpy (e + Info.name) p.name

def slotStores (table : Nat → Option PsRecord) (info i : Nat) : List Store :=
  match listed table i with
  | none => []
  | some p => entryStores p (info + Info.size * i)

def psStores (table : Nat → Option PsRecord) (info : Nat) : List Store :=
  (List.range psSlots).map (fun i => .word (info + Info.size * i + Info.pid) (intWord (-1)))
    ++ (List.range psSlots).flatMap (slotStores table info)

def ps (table : Nat → Option PsRecord) (process_info : Option Nat) (m : Nat → UInt8) :
    Int × (Nat → UInt8) :=
  match process_info with
  | none => (-1, m)
  | some info => (0, runStores m (psStores table info))

end Tp2So
