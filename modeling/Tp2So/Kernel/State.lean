import Tp2So.Queue.Adt
import Mathlib.Logic.Function.Basic

/-!
# The kernel's data: process control blocks, semaphores, pipes

Heap objects (`Process`, `sem`, `pipe`) are named by their pointer, a `Nat` that is never handed
out twice; a heap maps a pointer to `none` before the object exists and after it is freed.  Every
allocation succeeds.

* `Sched`     the globals of `process.c` and `scheduler.c`;
* `SemReg`    the semaphore registry of `sem.c`;
* `PipeStore` the globals of `pipe.c`;
* `Kernel`    the three together.

Left out: `rip`, `rbp` and the register frame that `stackInit` builds, which nothing here reads, and
the spinlocks, which are free between two atomic calls.
-/

namespace Tp2So

/-! ## constants -/

abbrev maxProcesses : Int := 64
abbrev maxChildren : Nat := 32
abbrev processStackSize : Nat := 1024 * 8
abbrev defaultQuantum : Int := 1
abbrev initPid : Int := 1
abbrev agingThreshold : Nat := 50
abbrev maxSemLength : Nat := 32
abbrev maxPipes : Int := 100
abbrev pipeBufferSize : Nat := 16 * 1024

/-- the targets of a file descriptor that are not pipes -/
abbrev stdin : Nat := 0
abbrev stdout : Nat := 1

/-- a priority, `MIN_PRIORITY = 0` to `MAX_PRIORITY = 3`: the index of a ready queue -/
abbrev Priority := Fin 4

/-- named, so that a literal of `Priority` is the same term in every module -/
instance four_neZero : @NeZero Nat Zero.ofOfNat0 4 := Nat.instNeZeroSucc

abbrev maxPriority : Priority := 3
abbrev defaultPriority : Priority := 0

/-! ## heap objects -/

inductive ProcessState where
  | ready | running | blocked | terminated
  deriving DecidableEq, Repr

/-- a process control block; `children` is the array `children[0 .. child_count)` -/
structure Process where
  pid : Int
  ppid : Int
  state : ProcessState
  argv : List (List Char)
  rsp : Nat
  stackBase : Nat
  priority : Priority
  originalPriority : Priority
  quantumRemaining : Int
  waitTicks : Nat
  ground : Bool
  readTarget : Nat
  writeTarget : Nat
  errTarget : Nat
  children : List Int

/-- a counting semaphore; `value` and `users` are 16-bit counters -/
structure Sem where
  name : List Char
  value : Nat
  users : Nat
  blockedProcesses : Queue Int

/-- a pipe; `attached`, `expReaders`, `expWriters` are 8-bit, `readers`, `writers` 16-bit counters -/
structure Pipe where
  id : Nat
  buffer : Nat → UInt8
  idxToRead : Nat
  idxToWrite : Nat
  waitingToRead : Bool
  waitingToWrite : Bool
  canRead : Nat
  canWrite : Nat
  attached : Nat
  readers : Nat
  writers : Nat
  expReaders : Nat
  expWriters : Nat

/-! ## globals -/

structure Sched where
  heap : Nat → Option Process
  next : Nat
  table : Int → Option Nat
  ready : Priority → Queue Nat
  running : Option Nat
  idle : Option Nat
  shell : Option Nat

structure SemReg where
  heap : Nat → Option Sem
  next : Nat
  registry : Queue Nat

structure PipeStore where
  heap : Nat → Option Pipe
  next : Nat
  storage : List (Option Nat)
  nextId : Int

structure Kernel where
  sched : Sched
  sems : SemReg
  pipes : PipeStore

/-! ## editing one object of a heap -/

section
variable {β : Type}

/-- the heap `h` with `f` applied to the object at `a` -/
def heapMod (h : Nat → Option β) (a : Nat) (f : β → β) : Nat → Option β :=
  Function.update h a ((h a).map f)

@[simp] theorem heapMod_self (h : Nat → Option β) (a : Nat) (f : β → β) :
    heapMod h a f a = (h a).map f := Function.update_self ..

theorem heapMod_of_ne (h : Nat → Option β) {a b : Nat} (f : β → β) (hb : b ≠ a) :
    heapMod h a f b = h b := Function.update_of_ne hb ..

theorem heapMod_some {h : Nat → Option β} {a b : Nat} {f : β → β} {q : β}
    (hq : heapMod h a f b = some q) :
    ∃ p, h b = some p ∧ q = if b = a then f p else p := by
  by_cases e : b = a
  · subst e
    rw [heapMod_self] at hq
    obtain ⟨p, hp, rfl⟩ := Option.map_eq_some_iff.mp hq
    exact ⟨p, hp, (if_pos rfl).symm⟩
  · rw [heapMod_of_ne h f e] at hq
    exact ⟨q, hq, (if_neg e).symm⟩

theorem heapMod_of_some {h : Nat → Option β} {b : Nat} {p : β} (a : Nat) (f : β → β)
    (hp : h b = some p) : heapMod h a f b = some (if b = a then f p else p) := by
  by_cases e : b = a
  · subst e
    rw [heapMod_self, hp, if_pos rfl]
    rfl
  · rw [heapMod_of_ne h f e, hp, if_neg e]

theorem heapMod_heapMod (h : Nat → Option β) (a : Nat) (f g : β → β) :
    heapMod (heapMod h a f) a g = heapMod h a fun x => g (f x) := by
  unfold heapMod
  rw [Function.update_idem, Function.update_self, Option.map_map]
  rfl

end

/-! ## editing the globals of the scheduler -/

namespace Process

def setState (st : ProcessState) (p : Process) : Process := { p with state := st }
def setRsp (rsp : Nat) (p : Process) : Process := { p with rsp := rsp }
def setQuantum (n : Int) (p : Process) : Process := { p with quantumRemaining := n }
def setWaitTicks (n : Nat) (p : Process) : Process := { p with waitTicks := n }
def setPriority (pr : Priority) (p : Process) : Process := { p with priority := pr }

/-- `f` leaves pid, state and priority alone -/
def Quiet (f : Process → Process) : Prop :=
  ∀ p, (f p).pid = p.pid ∧ (f p).state = p.state ∧ (f p).priority = p.priority

/-- and the saved stack pointer, the stack and the targets too -/
def Still (f : Process → Process) : Prop :=
  Quiet f ∧ ∀ p, ((f p).rsp = p.rsp ∧ (f p).stackBase = p.stackBase) ∧
    (f p).readTarget = p.readTarget ∧ (f p).writeTarget = p.writeTarget

/-- a stack pointer inside the stack of the process -/
def inStack (p : Process) (rsp : Nat) : Prop :=
  p.stackBase ≤ rsp ∧ rsp < p.stackBase + processStackSize

end Process

@[simp] theorem Process.setState_state (st : ProcessState) (p : Process) :
    (p.setState st).state = st := rfl
@[simp] theorem Process.setState_pid (st : ProcessState) (p : Process) :
    (p.setState st).pid = p.pid := rfl
@[simp] theorem Process.setState_priority (st : ProcessState) (p : Process) :
    (p.setState st).priority = p.priority := rfl

namespace Sched

def modify (s : Sched) (a : Nat) (f : Process → Process) : Sched :=
  { s with heap := heapMod s.heap a f }

def setHeap (s : Sched) (a : Nat) (p : Option Process) : Sched :=
  { s with heap := Function.update s.heap a p }

def setSlot (s : Sched) (pid : Int) (a : Option Nat) : Sched :=
  { s with table := Function.update s.table pid a }

def setQueue (s : Sched) (pr : Priority) (q : Queue Nat) : Sched :=
  { s with ready := Function.update s.ready pr q }

def setRunning (s : Sched) (a : Option Nat) : Sched := { s with running := a }

def setShell (s : Sched) (a : Option Nat) : Sched := { s with shell := a }

section
variable (s : Sched) (a : Nat) (f : Process → Process) (p : Option Process) (pid : Int)
  (x : Option Nat) (pr : Priority) (q : Queue Nat)

@[simp] theorem modify_heap : (s.modify a f).heap = heapMod s.heap a f := rfl
@[simp] theorem modify_next : (s.modify a f).next = s.next := rfl
@[simp] theorem modify_table : (s.modify a f).table = s.table := rfl
@[simp] theorem modify_ready : (s.modify a f).ready = s.ready := rfl
@[simp] theorem modify_running : (s.modify a f).running = s.running := rfl
@[simp] theorem modify_idle : (s.modify a f).idle = s.idle := rfl
@[simp] theorem modify_shell : (s.modify a f).shell = s.shell := rfl
@[simp] theorem setHeap_heap : (s.setHeap a p).heap = Function.update s.heap a p := rfl
@[simp] theorem setHeap_next : (s.setHeap a p).next = s.next := rfl
@[simp] theorem setHeap_table : (s.setHeap a p).table = s.table := rfl
@[simp] theorem setHeap_ready : (s.setHeap a p).ready = s.ready := rfl
@[simp] theorem setHeap_running : (s.setHeap a p).running = s.running := rfl
@[simp] theorem setHeap_idle : (s.setHeap a p).idle = s.idle := rfl
@[simp] theorem setSlot_heap : (s.setSlot pid x).heap = s.heap := rfl
@[simp] theorem setSlot_next : (s.setSlot pid x).next = s.next := rfl
@[simp] theorem setSlot_table : (s.setSlot pid x).table = Function.update s.table pid x := rfl
@[simp] theorem setSlot_ready : (s.setSlot pid x).ready = s.ready := rfl
@[simp] theorem setSlot_running : (s.setSlot pid x).running = s.running := rfl
@[simp] theorem setSlot_idle : (s.setSlot pid x).idle = s.idle := rfl
@[simp] theorem setSlot_shell : (s.setSlot pid x).shell = s.shell := rfl
@[simp] theorem setQueue_heap : (s.setQueue pr q).heap = s.heap := rfl
@[simp] theorem setQueue_next : (s.setQueue pr q).next = s.next := rfl
@[simp] theorem setQueue_table : (s.setQueue pr q).table = s.table := rfl
@[simp] theorem setQueue_running : (s.setQueue pr q).running = s.running := rfl
@[simp] theorem setQueue_idle : (s.setQueue pr q).idle = s.idle := rfl
@[simp] theorem setQueue_self : (s.setQueue pr q).ready pr = q := Function.update_self ..
@[simp] theorem setRunning_heap : (s.setRunning x).heap = s.heap := rfl
@[simp] theorem setRunning_next : (s.setRunning x).next = s.next := rfl
@[simp] theorem setRunning_table : (s.setRunning x).table = s.table := rfl
@[simp] theorem setRunning_ready : (s.setRunning x).ready = s.ready := rfl
@[simp] theorem setRunning_running : (s.setRunning x).running = x := rfl
@[simp] theorem setRunning_idle : (s.setRunning x).idle = s.idle := rfl
@[simp] theorem setShell_heap : (s.setShell x).heap = s.heap := rfl
@[simp] theorem setShell_next : (s.setShell x).next = s.next := rfl
@[simp] theorem setShell_table : (s.setShell x).table = s.table := rfl
@[simp] theorem setShell_ready : (s.setShell x).ready = s.ready := rfl
@[simp] theorem setShell_running : (s.setShell x).running = s.running := rfl
@[simp] theorem setShell_idle : (s.setShell x).idle = s.idle := rfl

theorem setQueue_of_ne {pr' : Priority} (h : pr' ≠ pr) :
    (s.setQueue pr q).ready pr' = s.ready pr' := Function.update_of_ne h ..

end

end Sched

def SemReg.modify (r : SemReg) (a : Nat) (f : Sem → Sem) : SemReg :=
  { r with heap := heapMod r.heap a f }

def PipeStore.modify (t : PipeStore) (a : Nat) (f : Pipe → Pipe) : PipeStore :=
  { t with heap := heapMod t.heap a f }

/-! ## the process table -/

/-- `get_process` -/
def getProcess (s : Sched) (pid : Int) : Option Nat :=
  if pid < 0 ∨ maxProcesses ≤ pid then none else s.table pid

theorem getProcess_eq_some {s : Sched} {pid : Int} {a : Nat} (h : getProcess s pid = some a) :
    0 ≤ pid ∧ pid < maxProcesses ∧ s.table pid = some a := by
  unfold getProcess at h
  by_cases hp : pid < 0 ∨ maxProcesses ≤ pid
  · rw [if_pos hp] at h
    exact absurd h (by simp)
  · rw [if_neg hp] at h
    exact ⟨by omega, by omega, h⟩

end Tp2So
