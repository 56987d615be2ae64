import Tp2So.Lib.Cpu

/-!
# Spinlocks and the interrupt flag

`sem.c` protects the registry and every semaphore with a spinlock and never looks at the interrupt
flag; `scheduler.c` turns interrupts off and then on, whatever they were.  `SemPath` lists the ways
through these functions, as the locks and the flag see them.  A system call is any row of them and
starts with the flag off; so does the keyboard handler, on top of whatever it interrupts.
`process_terminator` runs in the context of its process, with the flag on.

* `LockOp`           the steps: an instruction, a return, a call, a timer or keyboard interrupt;
* `locksFree_run`    if no interrupt is taken while the interrupted context holds a lock, every lock
                     that is asked for with the flag off is free.
-/

set_option linter.unusedVariables false

namespace Tp2So

inductive SemLock where
  | registry
  | sem (s : Nat)
  deriving DecidableEq, Repr

/-- the ways through `sem.c`, `unblock_process`, `block_process` and the other critical sections -/
inductive SemPath where
  | semOpenFound (s : Nat)
  | semOpenNew
  | semClose (s : Nat)
  | semPostWakes (s : Nat)
  | semPostCounts (s : Nat)
  | semWaitTakes (s : Nat)
  | semWaitBlocks (s : Nat)
  | semWaitRefused (s : Nat)
  | semInvalid
  | removeFromSemaphore (s : Nat)
  | critical
  | yieldCpu

/-- `is_semaphore_valid` looks into the registry before the semaphore is locked -/
def SemPath.isSemaphoreValid : List (Instr SemLock) := [.lock .registry, .unlock .registry]

/-- `semPost` calls `unblock_process`, which ends with `_sti`, while it holds the lock; the caller of
a `semWait` that blocks gives the CPU away in `block_process` and once more afterwards -/
def SemPath.code : SemPath → List (Instr SemLock)
  | .semOpenFound s => [.lock .registry, .lock (.sem s), .unlock (.sem s), .unlock .registry]
  | .semOpenNew => [.lock .registry, .unlock .registry]
  | .semClose s => isSemaphoreValid ++
    [.lock .registry, .lock (.sem s), .unlock (.sem s), .unlock .registry]
  | .semPostWakes s => isSemaphoreValid ++ [.lock (.sem s), .cli, .sti, .unlock (.sem s)]
  | .semPostCounts s => isSemaphoreValid ++ [.lock (.sem s), .unlock (.sem s)]
  | .semWaitTakes s => isSemaphoreValid ++ [.lock (.sem s), .unlock (.sem s)]
  | .semWaitBlocks s => isSemaphoreValid ++
    [.lock (.sem s), .unlock (.sem s), .cli, .sti, .resched, .resched]
  | .semWaitRefused s => isSemaphoreValid ++ [.lock (.sem s), .unlock (.sem s), .resched]
  | .semInvalid => isSemaphoreValid
  | .removeFromSemaphore s => [.lock (.sem s), .unlock (.sem s)]
  | .critical => [.cli, .sti]
  | .yieldCpu => [.resched]

inductive LockOp where
  | step
  | resched (next : Nat)
  | ret
  | syscall (paths : List SemPath)
  | terminator (paths : List SemPath)
  | timer (next : Nat)
  | keyboard (paths : List SemPath)

def LockOp.toCpu : LockOp → CpuOp SemLock
  | .step => .step
  | .resched n => .resched n
  | .ret => .ret
  | .syscall ps => .enter (ps.flatMap SemPath.code) true
  | .terminator ps => .enter ((ps ++ [SemPath.critical, .yieldCpu]).flatMap SemPath.code) false
  | .timer n => .timer n
  | .keyboard ps => .irq (ps.flatMap SemPath.code)

def execLock (o : LockOp) (c : Cpu SemLock) : Option (Cpu SemLock) := execCpu o.toCpu c

/-- every context is a process in user mode -/
def Cpu.userMode : Cpu SemLock where
  ctxs := fun _ => ⟨[], true⟩
  cur := 0
  flag := true
  held := []

theorem SemPath.disciplined (p : SemPath) : Disciplined [] p.code := by
  cases p <;> simp [SemPath.code, SemPath.isSemaphoreValid, Disciplined]

theorem LockOp.disciplined (o : LockOp) : Disciplined [] o.toCpu.code := by
  cases o with
  | syscall ps => exact Disciplined.flatMap SemPath.disciplined ps
  | terminator ps => exact Disciplined.flatMap SemPath.disciplined _
  | keyboard ps => exact Disciplined.flatMap SemPath.disciplined ps
  | _ => rfl

/-- **Free locks.**  In every run in which no interrupt is taken while the interrupted context holds a
lock, a lock that is asked for with the flag off is free. -/
theorem locksFree_run {os : List LockOp} {c : Cpu SemLock}
    (h : Runs execLock (fun o c => o.toCpu.polite c) os Cpu.userMode c) : c.LocksFree := by
  have hstart : Cpu.userMode.Inv :=
    Cpu.inv_of_rest rfl fun n f hf => absurd hf List.not_mem_nil
  have hinv : c.Inv := Runs.inv (I := Cpu.Inv)
    (fun o c c' hc hp he => hc.step hp o.disciplined he) h hstart
  exact hinv.locksFree

/-- process `1` posts on the semaphore `0`, wakes a waiter and returns -/
def quietPost : List LockOp :=
  [.timer 1, .syscall [.semPostWakes 0], .step, .step, .step, .step, .step, .step, .ret, .timer 2,
    .syscall [.semWaitTakes 0], .step, .step]

theorem locksFree_run_quiet : ∃ c,
    Runs execLock (fun o c => o.toCpu.polite c) quietPost Cpu.userMode c ∧
    c.flag = false ∧ c.next = some (.lock (.sem 0)) ∧ c.LocksFree := by
  have hrun : (runIf execLock (fun o c => o.toCpu.polite c) quietPost Cpu.userMode).map
      (fun c => (c.flag, c.next)) = some (false, some (.lock (.sem 0))) := by decide +kernel
  obtain ⟨c, hc, hv⟩ := Option.map_eq_some_iff.mp hrun
  obtain ⟨hflag, hnext⟩ := Prod.mk.inj hv
  have h := runs_of_runIf hc
  exact ⟨c, h, hflag, hnext, locksFree_run h⟩

/-- the tick comes after the `_sti` of `unblock_process`, while process `1` holds the lock; process
`2` then asks for it in a system call, with the flag off, and spins -/
theorem locksFree_broken : ∃ c,
    run execLock [.timer 1, .syscall [.semPostWakes 0], .step, .step, .step, .step, .step, .timer 2,
      .syscall [.semWaitTakes 0], .step, .step] Cpu.userMode = some c ∧
    ¬ c.LocksFree ∧ execLock .step c = some c := by
  have hrun : (run execLock [.timer 1, .syscall [.semPostWakes 0], .step, .step, .step, .step, .step,
      .timer 2, .syscall [.semWaitTakes 0], .step, .step] Cpu.userMode).map
      (fun c => (c.flag, c.next, c.held)) = some (false, some (.lock (.sem 0)), [(.sem 0, 1)]) := by
    decide +kernel
  obtain ⟨c, hc, hv⟩ := Option.map_eq_some_iff.mp hrun
  simp only [Prod.mk.injEq] at hv
  obtain ⟨hflag, hnext, hheld⟩ := hv
  have htaken : SemLock.sem 0 ∈ c.locks := by
    unfold Cpu.locks
    rw [hheld]
    decide
  refine ⟨c, hc, fun hfree => hfree hflag _ hnext htaken, ?_⟩
  obtain ⟨f, hf, hcode⟩ := Option.bind_eq_some_iff.mp hnext
  unfold execLock LockOp.toCpu execCpu
  cases hfs : c.frames with
  | nil =>
    rw [hfs] at hf
    exact absurd hf (by simp)
  | cons g gs =>
    rw [hfs] at hf
    obtain rfl := Option.some.inj hf
    obtain ⟨code, flag⟩ := g
    cases code with
    | nil => exact absurd hcode (by simp)
    | cons i code =>
      obtain rfl := Option.some.inj hcode
      simp only [hfs, execInstr, if_pos htaken]

end Tp2So
