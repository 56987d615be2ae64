import Tp2So.Kernel.Process

/-!
# `syscallDispatcher.c` and `kernel.c`

The system calls that are more than the kernel function of the same name, what the keyboard handler
does on Ctrl+C, and the boot.

* `sysBlockProcess`, `sysUnblockProcess`     the administrative block, which is a toggle;
* `sysSetReadTarget`, `sysSetWriteTarget`    a running process moves one of its ends to another pipe;
* `killForegroundProcesses`                  Ctrl+C;
* `bootKernel`                               the kernel when `main` enables interrupts.
-/

namespace Tp2So

/-- `sys_block_process`: a BLOCKED process is unblocked -/
def sysBlockProcess (s : Sched) (pid : Int) : Int × Sched :=
  match getProcess s pid with
  | none => (-1, s)
  | some a =>
    match s.heap a with
    | none => (-1, s)
    | some p =>
      if s.idle = some a ∨ p.state = .terminated then (-1, s)
      else if p.state = .blocked then (0, (unblockProcess s a).2)
      else (0, (blockProcess s a).2)

def sysUnblockProcess (s : Sched) (pid : Int) : Int × Sched :=
  match getProcess s pid with
  | none => (-1, s)
  | some a => unblockProcess s a

/-- both `set_target` calls of the current process: it leaves the pipe `old p`, enters the pipe `id`
if that one can be attached to, and only then notes the new target -/
def setTarget (k : Kernel) (id : Nat) (old : Process → Nat)
    (detachEnd : Kernel → Nat → Int → Kernel) (attachEnd : Kernel → Nat → Int × Kernel)
    (note : Process → Process) : Int × Kernel :=
  match k.sched.running with
  | none => (-1, k)
  | some a =>
    match k.sched.heap a with
    | none => (-1, k)
    | some p =>
      let k := if isPipe (old p) then detachEnd k (old p) p.pid else k
      let r := if isPipe id then attachEnd k id else (0, k)
      if r.1 < 0 then (-1, r.2) else (0, { r.2 with sched := r.2.sched.modify a note })

def sysSetReadTarget (k : Kernel) (id : Nat) : Int × Kernel :=
  setTarget k id Process.readTarget detachReader attachReader fun p => { p with readTarget := id }

def sysSetWriteTarget (k : Kernel) (id : Nat) : Int × Kernel :=
  setTarget k id Process.writeTarget detachWriter attachWriter fun p => { p with writeTarget := id }

/-- `kill_foreground_processes` -/
def killForegroundProcesses (k : Kernel) : Int × Kernel :=
  match k.sched.running with
  | none => (-1, k)
  | some a =>
    match k.sched.heap a with
    | none => (-1, k)
    | some p =>
      if p.ground = true ∧ p.pid ≠ 0 ∧ p.pid ≠ 1 then killProcess k p.pid else (0, k)

/-- `yield_cpu`, up to the forced interrupt -/
def yieldCpu (s : Sched) : Sched :=
  match s.running with
  | none => s
  | some a =>
    s.modify a fun p => if p.state = .running then { p with quantumRemaining := 0 } else p

/-! ## boot -/

/-- `keyboard_sem_init` -/
def keyboardSemInit (r : SemReg) : SemReg :=
  let r := (semOpen r ['k', 'e', 'y', 'b', 'o', 'a', 'r', 'd', '_', 'm', 'u', 't', 'e', 'x'] 1).2
  (semOpen r ['b', 'u', 'f', 'f', 'e', 'r', '_', 's', 'e', 'm'] 0).2

/-- the arguments of `create_init` and `create_shell` -/
def bootArgs (name : List Char) (hasForeground : Bool) (stackBase : Nat) (recycled : List Int) :
    CreateArgs where
  argc := 1
  argv := some [name]
  priority := 0
  targets := (0, 1, 2)
  hasForeground := hasForeground
  stackBase := stackBase
  recycled := recycled

def createInit (k : Kernel) (stackBase : Nat) (recycled : List Int) : Option Nat × Kernel :=
  createProcess k (bootArgs ['i', 'n', 'i', 't'] false stackBase recycled)

def createShell (k : Kernel) (stackBase : Nat) (recycled : List Int) : Kernel :=
  let (shell, k) := createProcess k (bootArgs ['s', 'h', 'e', 'l', 'l'] true stackBase recycled)
  { k with sched := k.sched.setShell shell }

/-- `init_scheduler`, `keyboard_sem_init`, `create_init`: the stacks and the recycled blocks of the
idle and of the init process are what the allocator hands out -/
def bootKernel (idleStack : Nat) (idleRecycled : List Int) (initStack : Nat)
    (initRecycled : List Int) : Kernel :=
  let k := initScheduler idleStack idleRecycled
  (createInit { k with sems := keyboardSemInit k.sems } initStack initRecycled).2

end Tp2So
