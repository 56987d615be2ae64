import Tp2So.Kernel.Pipe

/-!
# `process.c`

Creation, priorities, death and collection of processes.  The exit of the process with pid `n` is
announced by a post on the semaphore named `wait_n`, which creation opens and nobody closes.

* `createProcess`, `setPriority`;
* `killProcess`, `processTerminator`   the two ways to die.  `processTerminator` is the composition
                                       of what it does before and after its `_cli`;
* `reapTerminatedProcesses`;
* `waitChild`, `waitChildResume`       `wait_child` up to and after its `semWait`;
* `initScheduler`                      the kernel after `init_scheduler`.
-/

namespace Tp2So

/-! ## names -/

/-- the loop of `num_to_str`, which writes the digits from the right -/
def fillDigits : Nat → Nat → List Char → List Char
  | 0, _, acc => acc
  | fuel + 1, num, acc =>
    if num = 0 then acc else fillDigits fuel (num / 10) (Char.ofNat ('0'.toNat + num % 10) :: acc)

def numToStr (num : Nat) : List Char := if num = 0 then ['0'] else fillDigits num num []

def buildWaitSemaphoreName (pid : Int) : Option (List Char) :=
  if pid < 0 ∨ maxProcesses ≤ pid then none
  else some (['w', 'a', 'i', 't', '_'] ++ numToStr pid.toNat)

/-! ## the process table -/

/-- a slot that is empty or holds a TERMINATED process -/
def slotFree (s : Sched) (pid : Int) : Bool :=
  match s.table pid with
  | none => true
  | some a =>
    match s.heap a with
    | none => false
    | some p => p.state == .terminated

/-- the pids `0 .. MAX_PROCESSES - 1`, in the order of the scans -/
def allPids : List Int := (List.range 64).map Int.ofNat

def assignPid (s : Sched) : Option Int := allPids.find? (slotFree s)

def removeFromProcessTable (s : Sched) (pid : Int) : Sched :=
  if 0 ≤ pid ∧ pid < maxProcesses then s.setSlot pid none else s

/-- `free_process_resources`: the control block is gone -/
def freeProcessResources (s : Sched) (a : Nat) (fromScheduler : Bool) : Sched :=
  let s := if fromScheduler then removeProcessFromScheduler s a else s
  s.setHeap a none

/-- one turn of `reap_terminated_processes` -/
def reapSlot (s : Sched) (pid : Int) : Sched :=
  match getProcess s pid with
  | none => s
  | some a =>
    match s.heap a with
    | none => s
    | some p =>
      if p.state = .terminated then freeProcessResources (removeFromProcessTable s p.pid) a false
      else s

def reapTerminatedProcesses (s : Sched) : Sched := allPids.foldl reapSlot s

/-- `set_priority` -/
def setPriority (s : Sched) (pid : Int) (newPriority : Int) : Int × Sched :=
  if h : 0 ≤ newPriority ∧ newPriority ≤ 3 then
    match getProcess s pid with
    | none => (-1, s)
    | some a =>
      let pr : Priority := ⟨newPriority.toNat, by omega⟩
      (0, s.modify a fun p =>
        { p with priority := pr, originalPriority := pr, quantumRemaining := defaultQuantum })
  else (-1, s)

/-! ## children -/

/-- one turn of the loop of `reparent_children` -/
def reparentChild (init : Nat) (s : Sched) (child : Int) : Sched :=
  match getProcess s child with
  | none => s
  | some c =>
    match s.heap c with
    | none => s
    | some p =>
      if p.state = .terminated then s
      else
        let s := s.modify c fun p => { p with ppid := 1 }
        s.modify init fun p =>
          if p.children.length < maxChildren then { p with children := p.children ++ [child] } else p

def reparentChildren (s : Sched) (dyingPid : Int) : Sched :=
  match getProcess s dyingPid with
  | none => s
  | some d =>
    match getProcess s initPid with
    | none => s
    | some init =>
      match s.heap d with
      | none => s
      | some p =>
        (p.children.foldl (reparentChild init) s).modify d fun p => { p with children := [] }

/-! ## creation -/

/-- the arguments of `create_process`, with what the allocator hands out: the address of the stack
and the `children` array that the recycled control block already holds, which is not cleared -/
structure CreateArgs where
  argc : Int
  argv : Option (List (List Char))
  priority : Int
  targets : Int × Int × Int
  hasForeground : Bool
  stackBase : Nat
  recycled : List Int

/-- `stackInit`: the stack pointer below the twenty words it pushes -/
def stackInit (stackTop : Nat) : Nat := stackTop / 16 * 16 - 160

def clampPriority (priority : Int) : Priority :=
  if h : 0 ≤ priority ∧ priority ≤ 3 then ⟨priority.toNat, by omega⟩ else defaultPriority

/-- a file descriptor target as an `uint8_t` -/
def toTarget (t : Int) : Nat := (t % 256).toNat

/-- the new control block -/
def newProcess (args : CreateArgs) (pid ppid : Int) (argv : List (List Char)) : Process :=
  { pid, ppid, state := .ready, argv := argv.take args.argc.toNat
    rsp := stackInit (args.stackBase + processStackSize), stackBase := args.stackBase
    priority := clampPriority args.priority, originalPriority := clampPriority args.priority
    quantumRemaining := defaultQuantum, waitTicks := 0, ground := args.hasForeground
    readTarget := toTarget args.targets.1, writeTarget := toTarget args.targets.2.1
    errTarget := toTarget args.targets.2.2, children := args.recycled }

/-- the parent notes the child before most of the checks are made; its pid comes first -/
def enterChild (s : Sched) (pid : Int) : Int × Sched :=
  if pid = 0 then (0, s)
  else
    match s.running with
    | none => (0, s)
    | some par =>
      match s.heap par with
      | none => (0, s)
      | some p =>
        (p.pid, s.modify par fun p =>
          if p.children.length < maxChildren then { p with children := p.children ++ [pid] } else p)

/-- a target that is a pipe -/
def isPipe (t : Nat) : Bool := t != stdin && t != stdout

/-- `create_process` once the control block `p` is filled in -/
def publishProcess (k : Kernel) (p : Process) : Option Nat × Kernel :=
  let a := k.sched.next
  let k := { k with sched := { (k.sched.setHeap a (some p)).setSlot p.pid (some a) with
    next := a + 1 } }
  let k := if p.pid = 0 then k else
    match buildWaitSemaphoreName p.pid with
    | none => k
    | some name => { k with sems := (semOpen k.sems name 0).2 }
  let k := if isPipe p.readTarget then (attachReader k p.readTarget).2 else k
  let k := if isPipe p.writeTarget then (attachWriter k p.writeTarget).2 else k
  let sched := if p.pid = 0 then k.sched else addToScheduler k.sched a
  (some a, { k with sched := reapTerminatedProcesses sched })

def createProcess (k : Kernel) (args : CreateArgs) : Option Nat × Kernel :=
  match assignPid k.sched with
  | none => (none, k)
  | some pid =>
    let (ppid, sched) := enterChild k.sched pid
    let k := { k with sched }
    match args.argv with
    | none => (none, k)
    | some argv =>
      if args.argc ≤ 0 then (none, k)
      else
        let p := newProcess args pid ppid argv
        if p.rsp < p.stackBase ∨ p.stackBase + processStackSize ≤ p.rsp then (none, k)
        else publishProcess k p

/-! ## death -/

/-- the read end of a dying process -/
def leaveReader (k : Kernel) (r : Nat) (pid : Int) : Kernel :=
  if isPipe r then (closePipe (detachReader k r pid) r).2 else k

/-- its write end `w`; a pipe that is also the read end `r` is not closed again -/
def leaveWriter (k : Kernel) (r w : Nat) (pid : Int) : Kernel :=
  if isPipe w then
    let k := detachWriter k w pid
    if w ≠ r then (closePipe k w).2 else k
  else k

def leavePipes (k : Kernel) (p : Process) (pid : Int) : Kernel :=
  leaveWriter (leaveReader k p.readTarget pid) p.readTarget p.writeTarget pid

def announceExit (k : Kernel) (pid : Int) : Kernel :=
  match buildWaitSemaphoreName pid with
  | none => k
  | some name =>
    match semOpen k.sems name 0 with
    | (none, r) => { k with sems := r }
    | (some a, r) =>
      let k := (semPost { k with sems := r } a).2
      { k with sems := (semClose k.sems a).2 }

/-- the part that `kill_process` and `process_terminator` share: leave the pipes, hand the children
over, announce the exit -/
def windUp (k : Kernel) (p : Process) (pid : Int) : Kernel :=
  let k := leavePipes k p pid
  announceExit { k with sched := reparentChildren k.sched pid } pid

def forgetShell (s : Sched) (a : Nat) : Sched :=
  if s.shell = some a then s.setShell none else s

/-- `kill_process`, up to the `yield_cpu` of a process that kills itself -/
def killProcess (k : Kernel) (pid : Int) : Int × Kernel :=
  if pid = 0 ∨ pid = 1 then (-1, k)
  else
    match getProcess k.sched pid with
    | none => (-1, k)
    | some a =>
      match k.sched.heap a with
      | none => (-1, k)
      | some p =>
        let k := windUp k p pid
        let s := k.sched.modify a (Process.setState .terminated)
        let s := forgetShell (removeFromProcessTable s pid) a
        (0, { k with sched := freeProcessResources s a true })

/-- `process_terminator` up to its `_cli` -/
def terminatorNotify (k : Kernel) (a : Nat) : Kernel :=
  match k.sched.heap a with
  | none => k
  | some p => windUp k p p.pid

/-- `process_terminator` from its `_cli` to its `yield_cpu` -/
def terminatorLeave (s : Sched) (a : Nat) : Sched :=
  let s := s.modify a (Process.setState .terminated)
  let s := removeProcessFromScheduler s a
  let s := if s.running = some a then s.setRunning none else s
  forgetShell s a

/-- `process_terminator`; with no current process it panics -/
def processTerminator (k : Kernel) : Option Kernel :=
  match k.sched.running with
  | none => none
  | some a =>
    let k := terminatorNotify k a
    some { k with sched := terminatorLeave k.sched a }

/-! ## waiting for a child -/

/-- `wait_child` after its `semWait` has returned `0` to the running process -/
def waitChildResume (k : Kernel) (childPid : Int) (sem : Nat) : Kernel :=
  let k := { k with sems := (semClose k.sems sem).2 }
  let s := reapTerminatedProcesses k.sched
  match s.running with
  | none => { k with sched := s }
  | some cur =>
    { k with sched := s.modify cur fun p => { p with children := p.children.erase childPid } }

/-- how far a `wait_child` gets before its caller stops running -/
inductive WaitChildResult where
  | error
  | returned
  | suspended (sem : Nat)
  deriving DecidableEq, Repr

/-- `wait_child` -/
def waitChild (k : Kernel) (childPid : Int) : WaitChildResult × Kernel :=
  match getProcess k.sched childPid, buildWaitSemaphoreName childPid with
  | some _, some name =>
    match semOpen k.sems name 0 with
    | (none, r) => (.error, { k with sems := r })
    | (some a, r) =>
      match semWait { k with sems := r } a with
      | (.error, k) =>
        (.error, { k with sems := (semClose k.sems a).2
                          sched := reapTerminatedProcesses k.sched })
      | (.granted, k) => (.returned, waitChildResume k childPid a)
      | (.suspended, k) => (.suspended a, k)
  | _, _ => (.error, k)

/-! ## boot -/

/-- the kernel when `init_scheduler` starts: no process, no semaphore, no pipe, `setNextId(2)` done -/
def emptyKernel : Kernel where
  sched := { heap := fun _ => none, next := 0, table := fun _ => none, ready := fun _ => createQueue
             running := none, idle := none, shell := none }
  sems := { heap := fun _ => none, next := 0, registry := createQueue }
  pipes := { heap := fun _ => none, next := 0, storage := [], nextId := 2 }

/-- the arguments of the idle process -/
def idleArgs (stackBase : Nat) (recycled : List Int) : CreateArgs where
  argc := 1
  argv := some [['i', 'd', 'l', 'e']]
  priority := 0
  targets := (0, 1, 1)
  hasForeground := false
  stackBase := stackBase
  recycled := recycled

/-- the kernel after `init_scheduler`, whose idle process has the given stack and recycled block -/
def initScheduler (stackBase : Nat) (recycled : List Int) : Kernel :=
  let (idle, k) := createProcess emptyKernel (idleArgs stackBase recycled)
  match idle with
  | none => k
  | some i =>
    { k with sched := { (k.sched.modify i (Process.setState .running)).setRunning (some i) with
        idle := some i } }

end Tp2So
