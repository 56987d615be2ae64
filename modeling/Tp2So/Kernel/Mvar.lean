import Tp2So.Kernel.Sem

/-!
# `shared_mvar.c` and the MVar of `mvar.c`

One byte in the kernel and two named semaphores.  `mvarPut` and `mvarGet` are sequences of system
calls, each of which is one step; between any two of them the other processes may make theirs.
`mvarInit` is one step, though the source makes four system calls (`allocMemory`, the one that
clears the byte, and two `semOpen`): no step of another process comes between two of these.

* `takeToken`, `giveToken`   `semWait` and `semPost` as atomic counting semaphores: a wait is made
                             once there is a token to take;
* `mvarInit`                 opens the two semaphores and clears the byte;
* `MvarPos`                  the next system call of a process;
* `execMvar`                 one step.  `stored`, `got` and `returned` record the values that
                             `mvarPut` stores, that `mvarGet` reads, and that `mvarGet` returns.

The handles are in a variable that the processes share.  Its allocation succeeds.
-/

namespace Tp2So

/-! ## counting semaphores -/

/-- `semWait`; `none` while the caller has to wait -/
def takeToken (r : SemReg) (a : Nat) : Option (Int × SemReg) :=
  if isSemaphoreValid r a then
    match r.heap a with
    | none => some (-1, r)
    | some m =>
      if m.value = 0 then none
      else some (0, r.modify a fun m => { m with value := m.value - 1 })
  else some (-1, r)

/-- `semPost` -/
def giveToken (r : SemReg) (a : Nat) : Int × SemReg :=
  if isSemaphoreValid r a then
    match r.heap a with
    | none => (-1, r)
    | some _ => (0, r.modify a fun m => { m with value := inc16 m.value })
  else (-1, r)

/-! ## the MVar -/

def mvarSemEmptyName : List Char := ['m', 'v', 'a', 'r', '_', 'e', 'm', 'p', 't', 'y']
def mvarSemFullName : List Char := ['m', 'v', 'a', 'r', '_', 'f', 'u', 'l', 'l']

/-- the handles of the semaphores -/
structure MvarHandles where
  empty : Nat
  full : Nat
  deriving DecidableEq

/-- the system call a process makes next, with the values it has at hand -/
inductive MvarPos where
  | outside
  | putWait (value : UInt8)
  | putSet (value : UInt8)
  | putPost (value : UInt8)
  | getWait
  | getRead
  | getClear (value : UInt8)
  | getPost (value : UInt8)
  deriving DecidableEq

structure MvarSys where
  sems : SemReg
  sharedMvarValue : UInt8
  mvar : Option MvarHandles
  pos : Nat → MvarPos
  stored : List UInt8
  got : List UInt8
  returned : List UInt8

namespace MvarSys

def setMvarValue (t : MvarSys) (value : UInt8) : MvarSys := { t with sharedMvarValue := value }

def goto (t : MvarSys) (p : Nat) (x : MvarPos) : MvarSys :=
  { t with pos := Function.update t.pos p x }

/-- `mvarGet` returns `value` -/
def leaveGet (t : MvarSys) (p : Nat) (value : UInt8) : MvarSys :=
  { t.goto p .outside with returned := t.returned ++ [value] }

end MvarSys

def mvarInit (t : MvarSys) (readers writers : Int) : Int × MvarSys :=
  if readers ≤ 0 ∨ writers ≤ 0 then (-1, t)
  else
    let t := t.setMvarValue 0
    match semOpen t.sems mvarSemEmptyName 1 with
    | (none, r) => (-1, { t with sems := r, mvar := none })
    | (some e, r) =>
      match semOpen r mvarSemFullName 0 with
      | (none, r) => (-1, { t with sems := (semClose r e).2, mvar := none })
      | (some f, r) => (0, { t with sems := r, mvar := some { empty := e, full := f } })

inductive MvarOp where
  | put (p : Nat) (value : UInt8)
  | get (p : Nat)
  | step (p : Nat)
  | init (readers writers : Int)

/-- the next system call of process `p`, whose handles are `h` -/
def mvarStep (t : MvarSys) (h : MvarHandles) (p : Nat) : Option MvarSys :=
  match t.pos p with
  | .outside => none
  | .putWait v =>
    match takeToken t.sems h.empty with
    | none => none
    | some (code, r) =>
      let t := { t with sems := r }
      if code < 0 then some (t.goto p .outside) else some (t.goto p (.putSet v))
  | .putSet v =>
    some ({ t.setMvarValue v with stored := t.stored ++ [v] }.goto p (.putPost v))
  | .putPost _ => some ({ t with sems := (giveToken t.sems h.full).2 }.goto p .outside)
  | .getWait =>
    match takeToken t.sems h.full with
    | none => none
    | some (code, r) =>
      let t := { t with sems := r }
      if code < 0 then some (t.leaveGet p 0) else some (t.goto p .getRead)
  | .getRead =>
    some ({ t with got := t.got ++ [t.sharedMvarValue] }.goto p (.getClear t.sharedMvarValue))
  | .getClear v => some ((t.setMvarValue 0).goto p (.getPost v))
  | .getPost v =>
    let (code, r) := giveToken t.sems h.empty
    let t := { t with sems := r }
    if code < 0 then some (t.leaveGet p 0) else some (t.leaveGet p v)

/-- one step; a call is entered by a process that is in none -/
def execMvar : MvarOp → MvarSys → Option MvarSys
  | .put p v, t =>
    if t.pos p = .outside then
      match t.mvar with
      | none => some t
      | some _ => some (t.goto p (.putWait v))
    else none
  | .get p, t =>
    if t.pos p = .outside then
      match t.mvar with
      | none => some (t.leaveGet p 0)
      | some _ => some (t.goto p .getWait)
    else none
  | .step p, t => t.mvar.bind fun h => mvarStep t h p
  | .init readers writers, t => some (mvarInit t readers writers).2

/-- before the first `mvarInit` -/
def MvarSys.start (r : SemReg) (value : UInt8) : MvarSys where
  sems := r
  sharedMvarValue := value
  mvar := none
  pos := fun _ => .outside
  stored := []
  got := []
  returned := []

end Tp2So
