import Tp2So.Kernel.Process

/-!
# What the calls of a dying process give back to the heap

For each function of `sem.c`, `pipe.c`, `scheduler.c` and `process.c` that a death goes through, the
arguments of its calls of `mm_free`, in order.  What the function does to the kernel is the function
of the same name; here the list is read off the states it goes through.

* `Block`                      a block, by what lies in it;
* `semPostFrees`, `semCloseFrees`, `detachFrees`, `closePipeFrees`, ...   the calls a death makes;
* `windUpFrees`                the part that both ways to die share;
* `killProcessFrees`, `processTerminatorFrees`, `reapFrees`   the two ways, and the collection.
-/

set_option linter.unusedVariables false

namespace Tp2So

/-- a queue whose nodes lie in the heap -/
inductive QueueRef where
  | ready (pr : Priority)
  | registry
  | blocked (sem : Nat)
  deriving DecidableEq

/-- a block of the heap.  The blocks of a process go by their address; a node of a queue, and the data
it points to, by the queue and by what it holds -/
inductive Block where
  | at (address : Nat)
  | node (queue : QueueRef) (value : Int)
  | data (queue : QueueRef) (value : Int)
  | blockedQueue (sem : Nat)
  | sem (sem : Nat)
  | pipe (pipe : Nat)
  | buffer
  | pidStr (pid : Int)
  | semName (pid : Int)
  deriving DecidableEq

/-- where the blocks of a process lie: its control block, its array of arguments, the words in it -/
structure Places where
  pcb : Nat → Nat
  argv : Nat → Nat
  cells : Nat → List Nat

/-! ## `queue.c`, `sem.c` -/

/-- the end of `dequeue` and of `queueRemove` -/
def nodeFrees (queue : QueueRef) (value : Int) : List Block := [.data queue value, .node queue value]

/-- the buffer of `queueElementExists`, which `is_semaphore_valid` calls -/
def isSemaphoreValidFrees : List Block := [.buffer]

def removeFromSemaphoreFrees (r : SemReg) (a : Nat) (pid : Int) : List Block :=
  match r.heap a with
  | none => []
  | some m => if pid ∈ m.blockedProcesses.elems then nodeFrees (.blocked a) pid else []

/-- `queueFree` of the waiting processes stands between the node in the registry and the semaphore -/
def semCloseFrees (r : SemReg) (a : Nat) : List Block :=
  isSemaphoreValidFrees ++
    if isSemaphoreValid r a then
      match r.heap a with
      | none => []
      | some m =>
        if dec16 m.users ≠ 0 then []
        else nodeFrees .registry a ++ m.blockedProcesses.elems.flatMap (nodeFrees (.blocked a))
          ++ [.blockedQueue a, .sem a]
    else []

def semPostFrees (k : Kernel) (a : Nat) : List Block :=
  isSemaphoreValidFrees ++
    if isSemaphoreValid k.sems a then
      match k.sems.heap a with
      | none => []
      | some m =>
        match dequeue m.blockedProcesses with
        | some (pid, _) => nodeFrees (.blocked a) pid
        | none => []
    else []

def semPostsFrees (a : Nat) : Nat → Kernel → List Block
  | 0, _ => []
  | n + 1, k => semPostFrees k a ++ semPostsFrees a n (semPost k a).2

/-! ## `pipe.c` -/

/-- `semGetUsersCount` looks the semaphore up once more -/
def wakeAllFrees (k : Kernel) (a : Nat) : List Block :=
  isSemaphoreValidFrees ++ semPostsFrees a (semGetUsersCount k.sems a).toNat k

def deletePipeFrees (k : Kernel) (a : Nat) : List Block :=
  match k.pipes.heap a with
  | none => []
  | some p =>
    semCloseFrees k.sems p.canRead ++ semCloseFrees (semClose k.sems p.canRead).2 p.canWrite
      ++ [.pipe a]

/-- both `detach` functions; `wakeFrees` goes with `wake` -/
def detachFrees (k : Kernel) (id : Nat) (pid : Int) (dec : Pipe → Pipe)
    (wake : Kernel → Nat → Pipe → Kernel) (wakeFrees : Kernel → Nat → Pipe → List Block) :
    List Block :=
  match getValidPipe k.pipes id with
  | none => []
  | some a =>
    match k.pipes.heap a with
    | none => []
    | some p =>
      let r := removeFromSemaphore k.sems p.canRead pid
      let k' := { k with sems := removeFromSemaphore r p.canWrite pid }.modPipe a dec
      let q := dec p
      removeFromSemaphoreFrees k.sems p.canRead pid ++ removeFromSemaphoreFrees r p.canWrite pid
        ++ wakeFrees k' a q
        ++ if q.readers = 0 ∧ q.writers = 0 ∧ q.expReaders = 0 ∧ q.expWriters = 0 then
            deletePipeFrees (wake k' a q) a
          else []

def detachReaderFrees (k : Kernel) (id : Nat) (pid : Int) : List Block :=
  detachFrees k id pid dropReader
    (fun k a p =>
      if p.readers = 0 ∧ p.waitingToWrite then
        (wakeAll k p.canWrite).modPipe a fun p => { p with waitingToWrite := false }
      else k)
    fun k a p => if p.readers = 0 ∧ p.waitingToWrite then wakeAllFrees k p.canWrite else []

def detachWriterFrees (k : Kernel) (id : Nat) (pid : Int) : List Block :=
  detachFrees k id pid dropWriter
    (fun k a p =>
      if p.writers = 0 ∧ p.waitingToRead then
        (wakeAll k p.canRead).modPipe a fun p => { p with waitingToRead := false }
      else k)
    fun k a p => if p.writers = 0 ∧ p.waitingToRead then wakeAllFrees k p.canRead else []

def closePipeFrees (k : Kernel) (id : Nat) : List Block :=
  match getValidPipe k.pipes id with
  | none => []
  | some a =>
    match k.pipes.heap a with
    | none => []
    | some p =>
      let wakes := (id ≠ stdin ∧ id ≠ stdout) ∧ p.attached ≤ 1
      let k' := if wakes then wakeAll (wakeAll k p.canRead) p.canWrite else k
      (if wakes then wakeAllFrees k p.canRead ++ wakeAllFrees (wakeAll k p.canRead) p.canWrite
        else [])
        ++ if p.attached = 0 ∨ ((id = stdin ∨ id = stdout) ∧ p.attached = 1) then
            deletePipeFrees k' a
          else []

/-! ## `scheduler.c`, `process.c` -/

/-- the node that `queueRemove` finds in the queue of the current priority -/
def removeProcessFromSchedulerFrees (s : Sched) (a : Nat) : List Block :=
  if s.idle = some a then []
  else
    match s.heap a with
    | none => []
    | some p =>
      match (s.ready p.priority).elems.find? fun b => compareProcesses s b a with
      | none => []
      | some b => nodeFrees (.ready p.priority) b

/-- `mm_free(argv[i])`, `mm_free(argv)`, `mm_free(stackBase)`, the scheduler, `mm_free(p)` -/
def freeProcessResourcesFrees (w : Places) (s : Sched) (a : Nat) (fromScheduler : Bool) :
    List Block :=
  match s.heap a with
  | none => []
  | some p =>
    (if w.argv a ≠ 0 then (w.cells a).filter (· ≠ 0) ++ [w.argv a] else []).map Block.at
      ++ (if p.stackBase ≠ 0 then [Block.at p.stackBase] else [])
      ++ (if fromScheduler then removeProcessFromSchedulerFrees s a else [])
      ++ [Block.at (w.pcb a)]

def reapSlotFrees (w : Places) (s : Sched) (pid : Int) : List Block :=
  match getProcess s pid with
  | none => []
  | some a =>
    match s.heap a with
    | none => []
    | some p =>
      if p.state = .terminated then
        freeProcessResourcesFrees w (removeFromProcessTable s p.pid) a false
      else []

/-- the turns of `reap_terminated_processes` over these slots -/
def reapSlotsFrees (w : Places) : List Int → Sched → List Block
  | [], _ => []
  | pid :: pids, s => reapSlotFrees w s pid ++ reapSlotsFrees w pids (reapSlot s pid)

def reapFrees (w : Places) (s : Sched) : List Block := reapSlotsFrees w allPids s

def leaveReaderFrees (k : Kernel) (r : Nat) (pid : Int) : List Block :=
  if isPipe r then detachReaderFrees k r pid ++ closePipeFrees (detachReader k r pid) r else []

def leaveWriterFrees (k : Kernel) (r w : Nat) (pid : Int) : List Block :=
  if isPipe w then
    detachWriterFrees k w pid ++ if w ≠ r then closePipeFrees (detachWriter k w pid) w else []
  else []

def leavePipesFrees (k : Kernel) (p : Process) (pid : Int) : List Block :=
  leaveReaderFrees k p.readTarget pid
    ++ leaveWriterFrees (leaveReader k p.readTarget pid) p.readTarget p.writeTarget pid

/-- `build_wait_semaphore_name` frees the digits, its caller the name -/
def announceExitFrees (k : Kernel) (pid : Int) : List Block :=
  match buildWaitSemaphoreName pid with
  | none => []
  | some name =>
    [.pidStr pid]
      ++ (match semOpen k.sems name 0 with
          | (none, _) => []
          | (some a, r) =>
            semPostFrees { k with sems := r } a
              ++ semCloseFrees (semPost { k with sems := r } a).2.sems a)
      ++ [.semName pid]

def windUpFrees (k : Kernel) (p : Process) (pid : Int) : List Block :=
  let k' := leavePipes k p pid
  leavePipesFrees k p pid
    ++ announceExitFrees { k' with sched := reparentChildren k'.sched pid } pid

def killProcessFrees (w : Places) (k : Kernel) (pid : Int) : List Block :=
  if pid = 0 ∨ pid = 1 then []
  else
    match getProcess k.sched pid with
    | none => []
    | some a =>
      match k.sched.heap a with
      | none => []
      | some p =>
        let s := (windUp k p pid).sched.modify a (Process.setState .terminated)
        windUpFrees k p pid
          ++ freeProcessResourcesFrees w (forgetShell (removeFromProcessTable s pid) a) a true

def processTerminatorFrees (k : Kernel) : List Block :=
  match k.sched.running with
  | none => []
  | some a =>
    match k.sched.heap a with
    | none => []
    | some p =>
      windUpFrees k p p.pid ++ removeProcessFromSchedulerFrees
        ((windUp k p p.pid).sched.modify a (Process.setState .terminated)) a

end Tp2So
