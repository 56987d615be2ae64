import Tp2So.Memory.Client
import Tp2So.Programs.TestSync

/-!
# `test_mm.c`

A process that takes blocks of random sizes, fills each with its number, looks whether it is still
there and gives the blocks back, again and again.  It runs beside others of its kind and beside other
programs, all of them on one heap, and another one may get the CPU after each byte.

* `Client.request`   a call for a block, with the pointer;
* `mmStep`           the next step of `_test_mm`;
* `execMm`           the steps of the system.

The number that `GetUniform` returns comes from the step; what is printed is left out.
-/

set_option linter.unusedVariables false

namespace Tp2So

section
variable {σ : Type}

/-- a call for a block returns its pointer -/
def Client.request (M : Manager σ) (fuel size : Nat) (t : Client σ) : Option (Nat × Client σ) :=
  (M.alloc fuel t.s size).map fun r =>
    (r.1, if r.1 = 0 then { t with s := r.2 } else t.given r.2 r.1 size)

/-- a byte of a live block -/
def Client.load (M : Manager σ) (t : Client σ) (a : Nat) : Option UInt8 :=
  if t.owns a then some (M.read t.s a) else none

end

/-! ## the processes -/

/-- where a process is: `off` before it is created and after it has returned, `failed` behind the
message of its error, and else in one of the loops -/
inductive MmPos where
  | off | requesting | setting | checking | freeing | failed
  deriving DecidableEq

def maxBlocks : Nat := 128

/-- `rqs` are the first `rq` of `mm_rqs`, each an address and a size; `i` is the loop's, and `j` counts the
bytes of a block that `memset` or `memcheck` is done with -/
structure MmProc where
  pos : MmPos
  maxMemory : BitVec 64
  rqs : List (Nat × Nat)
  total : BitVec 32
  i : Nat
  j : Nat

def MmProc.off : MmProc := ⟨.off, 0, [], 0, 0, 0⟩

namespace MmProc

/-- the loop `pos` is entered -/
def enter (p : MmProc) (pos : MmPos) : MmProc := { p with pos := pos, i := 0, j := 0 }

/-- one turn of the loop over the blocks -/
def next (p : MmProc) : MmProc := { p with i := p.i + 1, j := 0 }

/-- the next byte of a block -/
def advance (p : MmProc) : MmProc := { p with j := p.j + 1 }

/-- `rq` is a `uint8_t`, and the comparison of `total` one of 64 bits -/
def wants (p : MmProc) : Bool :=
  p.rqs.length < maxBlocks && p.total.setWidth 64 < p.maxMemory

/-- a new round -/
def again (p : MmProc) : MmProc :=
  { p with pos := .requesting, rqs := [], total := 0, i := 0, j := 0 }

def record (p : MmProc) (address : Nat) (size : BitVec 32) : MmProc :=
  if address = 0 then p
  else { p with rqs := p.rqs ++ [(address, size.toNat)], total := p.total + size }

/-- the blocks that the process has not given back -/
def held (p : MmProc) : List (Nat × Nat) :=
  match p.pos with
  | .freeing => p.rqs.drop p.i
  | _ => p.rqs

end MmProc

/-- `others` are the pointers of the other programs -/
structure MmSys (σ : Type) where
  heap : Client σ
  others : List Nat
  proc : Int → MmProc

section
variable {σ : Type}

def MmSys.start (s : σ) : MmSys σ := ⟨.start s, [], fun _ => .off⟩

def MmSys.set (t : MmSys σ) (pid : Int) (heap : Client σ) (p : MmProc) : MmSys σ :=
  { t with heap, proc := Function.update t.proc pid p }

/-- `_test_mm`, after its name; a number that is not positive is only refused when it is `0` -/
def testMm (arg : List Char) : MmProc :=
  if satoi arg = 0 then .off else { MmProc.off with pos := .requesting, maxMemory := satoi arg }

/-- `memset` goes down, from the last byte -/
def memsetStep (M : Manager σ) (heap : Client σ) (p : MmProc) (x : Nat × Nat) :
    Option (Client σ × MmProc) :=
  if p.j < x.2 then
    (execMem M (.store (x.1 + (x.2 - 1 - p.j)) (UInt8.ofNat p.i)) heap).map fun h => (h, p.advance)
  else some (heap, p.next)

/-- `memcheck` goes up -/
def memcheckStep (M : Manager σ) (heap : Client σ) (p : MmProc) (x : Nat × Nat) :
    Option (Client σ × MmProc) :=
  if p.j < x.2 then
    (heap.load M (x.1 + p.j)).map fun v =>
      if v ≠ UInt8.ofNat p.i then (heap, { p with pos := .failed }) else (heap, p.advance)
  else some (heap, p.next)

/-- the next step of a process; none when it has returned, when a call has run out of fuel, and when it
would touch what is not its own -/
def mmStep (M : Manager σ) (fuel : Nat) (uniform : BitVec 32) (heap : Client σ) (p : MmProc) :
    Option (Client σ × MmProc) :=
  match p.pos with
  | .off => none
  | .failed => none
  | .requesting =>
    if p.wants then
      (heap.request M fuel (uniform + 1).toNat).map fun r => (r.2, p.record r.1 (uniform + 1))
    else some (heap, p.enter .setting)
  | .setting =>
    match p.rqs[p.i]? with
    | none => some (heap, p.enter .checking)
    | some x => if x.1 ≠ 0 then memsetStep M heap p x else some (heap, p.next)
  | .checking =>
    match p.rqs[p.i]? with
    | none => some (heap, p.enter .freeing)
    | some x => if x.1 ≠ 0 then memcheckStep M heap p x else some (heap, p.next)
  | .freeing =>
    match p.rqs[p.i]? with
    | none => some (heap, p.again)
    | some x =>
      if x.1 ≠ 0 then (execMem M (.free fuel x.1) heap).map fun h => (h, p.next)
      else some (heap, p.next)

/-! ## the system -/

inductive MmOp where
  | start (pid : Int) (arg : List Char)
  | step (pid : Int) (fuel : Nat) (uniform : BitVec 32)
  | other (o : MemOp)

/-- the byte is one of the other programs' -/
def MmSys.foreign (t : MmSys σ) (a : Nat) : Bool :=
  t.heap.live.any fun x => decide (x.1 ∈ t.others ∧ x.1 ≤ a ∧ a < x.1 + x.2)

/-- the other programs keep to their own blocks -/
def execOther (M : Manager σ) : MemOp → MmSys σ → Option (MmSys σ)
  | .alloc fuel size, t => (t.heap.request M fuel size).map fun r =>
    { t with heap := r.2, others := if r.1 = 0 then t.others else r.1 :: t.others }
  | .free fuel ptr, t =>
    if ptr ∈ t.others then
      (execMem M (.free fuel ptr) t.heap).map fun h =>
        { t with heap := h, others := t.others.erase ptr }
    else none
  | .store a v, t =>
    if t.foreign a then (execMem M (.store a v) t.heap).map fun h => { t with heap := h } else none

/-- one step of the system -/
def execMm (M : Manager σ) : MmOp → MmSys σ → Option (MmSys σ)
  | .start pid arg, t =>
    if (t.proc pid).pos = .off then some (t.set pid t.heap (testMm arg)) else none
  | .step pid fuel uniform, t =>
    (mmStep M fuel uniform t.heap (t.proc pid)).map fun r => t.set pid r.1 r.2
  | .other o, t => execOther M o t

end

end Tp2So
