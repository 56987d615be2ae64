import Tp2So.Kernel.Sem
import Mathlib.Data.BitVec

/-!
# `test_sync.c`

Processes that add to one shared variable and take from it, each as often as it is told, with or
without a semaphore around it.  A process is at one of the places at which another one may get the
CPU: before each of its system calls, and between the reading and the writing of `slowInc`.

* `satoi`                the arguments as numbers, from `test_util.c`;
* `waitReg`, `postReg`   `semWait` and `semPost` as the registry sees them: the caller is queued, and a
                         post returns the pid that it wakes;
* `myProcessInc`         what `my_process_inc` makes of its arguments;
* `incStep`              the next step of a process;
* `testSyncArgs`         the arguments that `_test_sync` gives to its four processes.

What is printed is left out.
-/

namespace Tp2So

/-! ## `satoi` -/

/-- the loop over the digits -/
def satoiLoop (sign : BitVec 64) : List Char → BitVec 64 → BitVec 64
  | [], res => res * sign
  | c :: cs, res =>
    if c < '0' ∨ '9' < c then 0
    else satoiLoop sign cs (res * 10 + BitVec.ofNat 64 c.toNat - BitVec.ofNat 64 '0'.toNat)

def satoi : List Char → BitVec 64
  | '-' :: cs => satoiLoop (-1) cs 0
  | cs => satoiLoop 1 cs 0

/-! ## the semaphore, without the scheduler -/

def waitReg (r : SemReg) (a : Nat) (pid : Int) : WaitResult × SemReg :=
  if isSemaphoreValid r a then
    match r.heap a with
    | none => (.error, r)
    | some m =>
      if m.value = 0 then
        (.suspended, r.modify a fun m =>
          { m with blockedProcesses := enqueue m.blockedProcesses pid })
      else (.granted, r.modify a fun m => { m with value := m.value - 1 })
  else (.error, r)

def postReg (r : SemReg) (a : Nat) : Option Int × SemReg :=
  if isSemaphoreValid r a then
    match r.heap a with
    | none => (none, r)
    | some m =>
      match dequeue m.blockedProcesses with
      | some (pid, q) => (some pid, r.modify a fun m => { m with blockedProcesses := q })
      | none => (none, r.modify a fun m => { m with value := inc16 m.value })
  else (none, r)

/-! ## the processes -/

def semId : List Char := ['s', 'e', 'm']

/-- where a process is: `off` before it is created and after it has returned, `loop` at the head of
its loop, `asleep` in `my_sem_wait`, `storing` after `my_yield` -/
inductive IncPos where
  | off | opening | loop | asleep | loading | storing | posting
  deriving DecidableEq

structure IncProc where
  pos : IncPos
  sem : Nat
  n : Nat
  i : Nat
  inc : BitVec 64
  aux : BitVec 64
  useSem : Bool

namespace IncProc

def goto (p : IncProc) (pos : IncPos) : IncProc := { p with pos }

/-- the semaphore is open -/
def opened (p : IncProc) (a : Nat) : IncProc := { p with pos := .loop, sem := a }

/-- the two halves of `slowInc` -/
def loaded (p : IncProc) (global : BitVec 64) : IncProc := { p with pos := .storing, aux := global }
def added (p : IncProc) : IncProc := { p with pos := .posting, aux := p.aux + p.inc }

/-- the next turn of the loop -/
def turned (p : IncProc) : IncProc := { p with pos := .loop, i := p.i + 1 }

end IncProc

structure IncSys where
  sems : SemReg
  global : BitVec 64
  proc : Int → IncProc

namespace IncSys

def put (t : IncSys) (pid : Int) (p : IncProc) : IncSys :=
  { t with proc := Function.update t.proc pid p }

def setSems (t : IncSys) (r : SemReg) : IncSys := { t with sems := r }

end IncSys

/-- the arguments `n`, `inc` and `use_sem` -/
structure IncArgs where
  n : List Char
  inc : List Char
  useSem : List Char

/-- `my_process_inc` up to its first system call.  `n` is unsigned, `use_sem` has 8 bits. -/
def myProcessInc (args : IncArgs) : Option IncProc :=
  let n := satoi args.n
  let inc := satoi args.inc
  let useSem := (satoi args.useSem).truncate 8
  if n = 0 ∨ inc = 0 ∨ useSem.msb = true then none
  else
    some { pos := .opening, sem := 0, n := n.toNat, i := 0, inc, aux := 0, useSem := useSem != 0 }

/-- one step of process `pid`; `none` for a process that is not there or is asleep -/
def incStep (t : IncSys) (pid : Int) : Option IncSys :=
  let p := t.proc pid
  match p.pos with
  | .off => none
  | .opening =>
    if p.useSem then
      match semOpen t.sems semId 1 with
      | (none, r) => some ((t.setSems r).put pid (p.goto .off))
      | (some a, r) => some ((t.setSems r).put pid (p.opened a))
    else some (t.put pid (p.goto .loop))
  | .loop =>
    if p.i < p.n then
      if p.useSem then
        match waitReg t.sems p.sem pid with
        | (.suspended, r) => some ((t.setSems r).put pid (p.goto .asleep))
        | (_, r) => some ((t.setSems r).put pid (p.goto .loading))
      else some (t.put pid (p.goto .loading))
    else if p.useSem then some ((t.setSems (semClose t.sems p.sem).2).put pid (p.goto .off))
    else some (t.put pid (p.goto .off))
  | .asleep => none
  | .loading => some (t.put pid (p.loaded t.global))
  | .storing => some { t.put pid p.added with global := p.added.aux }
  | .posting =>
    if p.useSem then
      match postReg t.sems p.sem with
      | (none, r) => some ((t.setSems r).put pid p.turned)
      | (some q, r) =>
        -- `semWait` returns in the process that is woken
        some (((t.setSems r).put pid p.turned).put q ((t.proc q).goto .loading))
    else some (t.put pid p.turned)

inductive IncOp where
  | start (pid : Int) (args : IncArgs)
  | step (pid : Int)

/-- one step; a process starts where none is running -/
def execInc : IncOp → IncSys → Option IncSys
  | .start pid args, t =>
    if (t.proc pid).pos = .off then
      match myProcessInc args with
      | none => some t
      | some p => some (t.put pid p)
    else none
  | .step pid, t => incStep t pid

/-- `_test_sync` has set `global` -/
def IncSys.begin (r : SemReg) : IncSys where
  sems := r
  global := 0
  proc := fun _ => { pos := .off, sem := 0, n := 0, i := 0, inc := 0, aux := 0, useSem := false }

/-- the arguments of the decrementing and of the incrementing processes -/
def testSyncArgs (value useSem : List Char) : List IncArgs :=
  let argvDec := { n := value, inc := ['-', '1'], useSem }
  let argvInc := { n := value, inc := ['1'], useSem }
  [argvDec, argvInc, argvDec, argvInc]

end Tp2So
