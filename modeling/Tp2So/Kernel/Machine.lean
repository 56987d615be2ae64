import Tp2So.Kernel.Process
import Tp2So.Lib.Stack

/-!
# `interrupts.asm`, `libasm.asm` and `libsys.asm`: the registers and the stack

A machine has fifteen general registers, the five registers that `iretq` restores, and a memory of
64-bit words, each named by the address of its first byte; everything that the code here pushes lies
at a multiple of eight.  Registers are copied and never computed with, but for `rsp`.

* `Machine.interrupt`, `Machine.iretq`   what the processor does by itself;
* `pushState`, `popState`                the macros;
* `irq00Handler`, `irq01Handler`, `irq80Handler`   the three handlers;
* `sysInt80`         the wrappers of the system calls;
* `stackInitMem`     what `stackInit` writes, and `processWrapper`, which every process starts with;
* `entryPoint`       the stubs of `entry_points.asm`.

A call of a C function is a `CReturn`: the registers and the memory that it leaves behind.  The stack
pointer is then where it was, and `rax` holds the result.  Left out: the ports, and the exception
handlers, which do not return.
-/

namespace Tp2So

inductive Reg where
  | rax | rbx | rcx | rdx | rbp | rdi | rsi
  | r8 | r9 | r10 | r11 | r12 | r13 | r14 | r15
  deriving DecidableEq, Repr

/-- everything that belongs to a program and is put away when it loses the CPU -/
@[ext] structure Context where
  gpr : Reg → Nat
  rsp : Nat
  rip : Nat
  rflags : Nat
  cs : Nat
  ss : Nat

structure Machine extends Context where
  mem : Nat → Nat

structure CReturn where
  gpr : Reg → Nat
  rflags : Nat
  mem : Nat → Nat

/-- the addresses that the linker chooses -/
structure Symbols where
  processWrapper : Nat
  processTerminator : Nat
  irq00Handler : Nat
  irq01Handler : Nat
  irq80Handler : Nat
  registerSnapshot : Nat
  registerSnapshotTaken : Nat
  /-- where `call entry_point()` and `call process_terminator()` of `_process_wrapper` return to -/
  afterEntry : Nat
  afterTerminator : Nat

namespace Machine

/-! ## instructions -/

def setReg (r : Reg) (v : Nat) (m : Machine) : Machine :=
  { m with gpr := Function.update m.gpr r v }

@[simp] theorem setReg_self (r : Reg) (v : Nat) (m : Machine) : (m.setReg r v).gpr r = v :=
  Function.update_self ..

theorem setReg_of_ne {r r' : Reg} (h : r' ≠ r) (v : Nat) (m : Machine) :
    (m.setReg r v).gpr r' = m.gpr r' := Function.update_of_ne h ..

def push (v : Nat) (m : Machine) : Machine :=
  { m with rsp := m.rsp - 8, mem := Function.update m.mem (m.rsp - 8) v }

def pushReg (m : Machine) (r : Reg) : Machine := m.push (m.gpr r)

def popReg (m : Machine) (r : Reg) : Machine :=
  { m.setReg r (m.mem m.rsp) with rsp := m.rsp + 8 }

def addRsp (n : Nat) (m : Machine) : Machine := { m with rsp := m.rsp + n }

/-- `call` through a register; `ret` is the address of the next instruction -/
def callReg (r : Reg) (ret : Nat) (m : Machine) : Machine :=
  { m.push ret with rip := m.gpr r }

def ret (m : Machine) : Machine := { m with rip := m.mem m.rsp, rsp := m.rsp + 8 }

def ccall (c : CReturn) (m : Machine) : Machine :=
  { m with gpr := c.gpr, rflags := c.rflags, mem := c.mem }

/-- `mov al, 20h` and `out 20h, al` -/
def endOfInterrupt (m : Machine) : Machine :=
  m.setReg .rax (m.gpr .rax / 256 * 256 + 0x20)

/-- the interrupt flag, bit 9, cleared -/
def clearIf (rflags : Nat) : Nat := if rflags / 512 % 2 = 1 then rflags - 512 else rflags

/-- an interrupt through a gate without a privilege change: `rsp` is aligned, and five words are
pushed -/
def interrupt (handler : Nat) (m : Machine) : Machine :=
  let old := m
  let m := { m with rsp := m.rsp / 16 * 16 }
  let m := ((((m.push old.ss).push old.rsp).push old.rflags).push old.cs).push old.rip
  { m with rip := handler, rflags := clearIf old.rflags }

def iretq (m : Machine) : Machine :=
  { m with
    rip := m.mem m.rsp
    cs := m.mem (m.rsp + 8)
    rflags := m.mem (m.rsp + 16)
    rsp := m.mem (m.rsp + 24)
    ss := m.mem (m.rsp + 32) }

end Machine

open Machine

/-! ## macros -/

/-- the order of `pushState` -/
def pushOrder : List Reg :=
  [.rax, .rbx, .rcx, .rdx, .rbp, .rdi, .rsi, .r8, .r9, .r10, .r11, .r12, .r13, .r14, .r15]

/-- the order of `popStateButRAX` -/
def popOrder : List Reg :=
  [.r15, .r14, .r13, .r12, .r11, .r10, .r9, .r8, .rsi, .rdi, .rbp, .rdx, .rcx, .rbx]

def pushState (m : Machine) : Machine := pushOrder.foldl pushReg m

def popStateButRAX (m : Machine) : Machine := popOrder.foldl popReg m

def popState (m : Machine) : Machine := (popStateButRAX m).popReg .rax

/-! ## handlers -/

/-- `_irq00Handler`: `dispatched` is what `irqDispatcher` leaves behind, `scheduled` what `schedule`
does -/
def irq00Handler (dispatched scheduled : CReturn) (m : Machine) : Machine :=
  let m := pushState m
  let m := (m.setReg .rdi 0).ccall dispatched
  let m := (m.setReg .rdi m.rsp).ccall scheduled
  let m := { m with rsp := m.gpr .rax }
  iretq (popState m.endOfInterrupt)

/-- `SYS_REGISTER_SNAPSHOT`: the fifteen registers, `rsp`, and two words of the stack -/
def takeSnapshot (sym : Symbols) (m : Machine) : Machine :=
  let snap := sym.registerSnapshot
  let m := { m with mem := writeAll 8 snap (pushOrder.map m.gpr ++ [m.rsp]) m.mem }
  let m := m.setReg .rax (m.mem (m.rsp + 8 * 16))
  let m := { m with mem := Function.update m.mem (snap + 8 * 0x10) (m.gpr .rax) }
  let m := m.setReg .rax (m.mem (m.rsp + 8 * 15))
  let m := { m with mem := Function.update m.mem (snap + 8 * 0x11) (m.gpr .rax) }
  { m with mem := Function.update m.mem sym.registerSnapshotTaken 1 }

/-- `REGISTER_SNAPSHOT_KEY_SCANCODE` -/
abbrev snapshotScancode : Nat := 0x58

def irq01Handler (sym : Symbols) (dispatched : CReturn) (m : Machine) : Machine :=
  let m := pushState (m.push m.rflags)
  let m := (m.setReg .rdi 1).ccall dispatched
  let m := if m.gpr .rax = snapshotScancode then takeSnapshot sym (pushState (popState m)) else m
  iretq ((popState m.endOfInterrupt).addRsp 8)

/-- `_irq80Handler` up to its call of `syscallDispatcher`, whose argument is in `rdi` -/
def irq80Enter (m : Machine) : Machine :=
  let m := pushState m
  let m := m.pushReg .rax
  m.setReg .rdi (m.rsp + 8)

/-- and from there on -/
def irq80Leave (m : Machine) : Machine :=
  let m := m.setReg .rbx (m.gpr .rax)
  let m := m.endOfInterrupt
  let m := m.setReg .rax (m.gpr .rbx)
  iretq ((popStateButRAX (m.addRsp 8)).addRsp 8)

def irq80Handler (dispatched : CReturn) (m : Machine) : Machine :=
  irq80Leave ((irq80Enter m).ccall dispatched)

/-- the macro of `libsys.asm` that every wrapper is; `next` is the address after its `int 0x80` -/
def sysInt80 (sym : Symbols) (number next : Nat) (dispatched : CReturn) (m : Machine) : Machine :=
  let m := m.pushReg .rbp
  let m := m.setReg .rbp m.rsp
  let m := m.setReg .rax number
  let m := irq80Handler dispatched (interrupt sym.irq80Handler { m with rip := next })
  let m := { m with rsp := m.gpr .rbp }
  ret (m.popReg .rbp)

/-- the members of `Registers`, in their order -/
def registersOrder : List Reg :=
  [.r15, .r14, .r13, .r12, .r11, .r10, .r9, .r8, .rsi, .rdi, .rbp, .rdx, .rcx, .rbx, .rax]

/-- the members of the `Registers` at an address, then its `rip` -/
def readRegisters (mem : Nat → Nat) (registers : Nat) : List Nat := cells 8 16 registers mem

/-! ## the first stack of a process -/

/-- the words that `stackInit` writes, from the top of the stack down -/
def initialFrame (sym : Symbols) (stackTop entry argc argv : Nat) : List Nat :=
  [0, stackTop, 0x202, 0x8, sym.processWrapper,
   0, 0, argc, entry, sym.processTerminator, 0, 0, argv, 0, 0, 0, 0, 0, 0, 0]

/-- the memory after `stackInit` -/
def stackInitMem (sym : Symbols) (stackTop entry argc argv : Nat) (mem : Nat → Nat) : Nat → Nat :=
  let top := stackTop / 16 * 16
  pushAll 8 (initialFrame sym top entry argc argv) top mem

/-- `_process_wrapper` up to its first call -/
def processWrapper (sym : Symbols) (m : Machine) : Machine :=
  let m := m.setReg .r12 (m.gpr .rdx)
  let m := m.setReg .r13 (m.gpr .rbp)
  m.callReg .r12 sym.afterEntry

/-- and after the process has returned -/
def wrapperResume (sym : Symbols) (m : Machine) : Machine := m.callReg .r13 sym.afterTerminator

/-- a stub of `entry_points.asm`: the call of the command, which is to return to `ret` -/
def entryPoint (command ret : Nat) (m : Machine) : Machine :=
  let m := m.setReg .rdi (m.gpr .rcx)
  let m := m.setReg .rsi (m.gpr .r8)
  { m.push ret with rip := command }

end Tp2So
