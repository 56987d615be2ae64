import Tp2So.Family.Rooted

/-!
# The two ways to die agree

`kill_process` frees the process at once; `process_terminator` leaves it TERMINATED in its slot, for
the next collection.  After a collection the two kernels are one, and the same blocks have been freed.

* `killedFrees_perm`    what `kill_process` frees at its end;
* `teardown_agree`      the kernels, and the calls of `mm_free`.
-/

set_option linter.unusedVariables false

namespace Tp2So

namespace Sched
variable {s : Sched} {a : Nat} {p : Process} {w : Places}

/-- what the last part of `kill_process` frees: the node in the ready queue, and the process -/
theorem killedFrees_perm (hs : s.Slots) (hp : s.heap a = some p) (ht : s.table p.pid = some a) :
    (freeProcessResourcesFrees w (forgetShell (removeFromProcessTable
      (s.modify a (Process.setState .terminated)) p.pid) a) a true).Perm
      (removeProcessFromSchedulerFrees (s.modify a (Process.setState .terminated)) a
        ++ ownFrees w a (p.setState .terminated)) := by
  obtain ⟨h0, h1, -⟩ := hs _ _ ht
  have hp' : (s.modify a (Process.setState .terminated)).heap a = some (p.setState .terminated) :=
    modify_heap_self _ hp
  rw [removeFromProcessTable_eq h0 h1, forgetShell_eq]
  unfold freeProcessResourcesFrees ownFrees
  rw [setShell_heap, setSlot_heap, hp']
  simp only [if_true]
  -- table and shell are not read
  have hsame : removeProcessFromSchedulerFrees (((s.modify a (Process.setState .terminated)).setSlot
      p.pid none).setShell (if (((s.modify a (Process.setState .terminated)).setSlot p.pid
        none).shell = some a) then none else
          ((s.modify a (Process.setState .terminated)).setSlot p.pid none).shell)) a
      = removeProcessFromSchedulerFrees (s.modify a (Process.setState .terminated)) a := rfl
  rw [hsame, ← List.append_assoc]
  exact List.perm_append_comm.append_right _

end Sched

/-! ## the agreement -/

/-- a kernel after `reap_terminated_processes` -/
def Kernel.reap (k : Kernel) : Kernel := { k with sched := reapTerminatedProcesses k.sched }

/-- **The two ways to die agree.**  Whatever pipes, semaphores, children and other TERMINATED processes
there are: after a collection the kernels are equal, and the same blocks have been freed, each as many
times. -/
theorem teardown_agree (w : Places) {k : Kernel} {a : Nat} {p : Process} (h : k.sched.Tabled)
    (hrun : k.sched.running = some a) (hp : k.sched.heap a = some p) (hpid : 2 ≤ p.pid) :
    ∃ k', processTerminator k = some k' ∧ (killProcess k p.pid).2.reap = k'.reap ∧
      (killProcessFrees w k p.pid ++ reapFrees w (killProcess k p.pid).2.sched).Perm
        (processTerminatorFrees k ++ reapFrees w k'.sched) := by
  have ht : k.sched.table p.pid = some a := by
    obtain ⟨q, hq, ht⟩ := h.running a hrun
    obtain rfl := Option.some.inj (hp.symm.trans hq)
    exact ht
  obtain ⟨h0, h1, -⟩ := h.slots _ _ ht
  have hg : getProcess k.sched p.pid = some a := (if_neg (by omega)).trans ht
  have hi : k.sched.idle ≠ some a := by
    intro hi
    obtain ⟨-, -, q', hq', hzero⟩ := h.slots _ _ (h.idle a hi)
    obtain rfl := Option.some.inj (hp.symm.trans hq')
    omega
  have hsame := Sched.same_windUp k p p.pid
  have hslots := h.slots.congr hsame.table hsame.pids
  obtain ⟨q, hq, hqp, hqt, hqi⟩ := Sched.windUp_keeps hp ht hi
  have hend := Sched.killed_erase hslots hq hqt hqi
  have hperm := Sched.killedFrees_perm (w := w) hslots hq hqt
  obtain ⟨hsched, hlog⟩ := Sched.reap_erase (w := w) (Sched.slots_terminatorLeave hslots hq hqi)
    (Sched.doomed_terminatorLeave hq hqt hqi)
  rw [hqp] at hend hperm
  rw [Process.setState_pid, hqp] at hsched hlog
  have hkill : killProcess k p.pid = (0, { windUp k p p.pid with
      sched := (terminatorLeave (windUp k p p.pid).sched a).erase a p.pid }) := by
    rw [Sched.killProcess_eq (by omega) hg hp, hend]
  have hkillFrees : (killProcessFrees w k p.pid).Perm (processTerminatorFrees k
      ++ Sched.ownFrees w a (q.setState .terminated)) := by
    unfold killProcessFrees processTerminatorFrees
    rw [if_neg (by omega)]
    simp only [hg, hp, hrun]
    rw [List.append_assoc]
    exact hperm.append_left _
  refine ⟨{ windUp k p p.pid with sched := terminatorLeave (windUp k p p.pid).sched a }, ?_, ?_, ?_⟩
  · exact Sched.processTerminator_eq hrun hp
  · rw [hkill]
    unfold Kernel.reap
    simp only [hsched]
  · rw [hkill]
    refine (hkillFrees.append_right _).trans ?_
    rw [List.append_assoc]
    exact hlog.symm.append_left _

/-- `init` runs and creates a process of the highest priority that writes to pipe `2` -/
def makesWriter : List ReadyOp :=
  [.create (plainArgs ['i'] 8192), .schedule 4 7,
    .create { plainArgs ['s'] 16384 with priority := 3, targets := (0, 2, 1) }]

/-- the tick chooses that process, and it has a child of its own -/
def writerForks : List ReadyOp := [.schedule 4 8200, .create (plainArgs ['c'] 24576)]

/-- every control block with an array of one argument, all in pages of their own -/
def paged : Places where
  pcb := fun a => 4096 * (3 * a + 1)
  argv := fun a => 4096 * (3 * a + 2)
  cells := fun a => [4096 * (3 * a + 3)]

/-- with a pipe end, a child, and `init` waiting for it, the writer may be killed or return -/
theorem teardown_agree_second : ∃ j k k',
    run execReady makesWriter (openPipe (initScheduler 0 []) fun _ => 0).2 = some j ∧
    run execReady writerForks (waitChild j 2).2 = some k ∧ k.sched.running = some 2 ∧
    (k.pipes.heap 0).map Pipe.writers = some 1 ∧ processTerminator k = some k' ∧
    (killProcess k 2).2.reap = k'.reap ∧
    (killProcessFrees paged k 2 ++ reapFrees paged (killProcess k 2).2.sched).Perm
      (processTerminatorFrees k ++ reapFrees paged k'.sched) := by
  have hrun : ((run execReady makesWriter (openPipe (initScheduler 0 []) fun _ => 0).2).bind fun j =>
      (run execReady writerForks (waitChild j 2).2).map fun k =>
        (k.sched.running, (k.sched.heap 2).map Process.pid, (k.pipes.heap 0).map Pipe.writers))
      = some (some 2, some 2, some 1) := by
    decide +kernel
  obtain ⟨j, hj, hrun⟩ := Option.bind_eq_some_iff.mp hrun
  obtain ⟨k, hk, hv⟩ := Option.map_eq_some_iff.mp hrun
  simp only [Prod.mk.injEq] at hv
  obtain ⟨hr, hp, hw⟩ := hv
  obtain ⟨p, hp, hpid⟩ := Option.map_eq_some_iff.mp hp
  -- opening the pipe leaves the processes alone, and waiting for a child keeps the table
  have hopen : (openPipe (initScheduler 0 []) fun _ => 0).2.sched.Rooted := by
    rw [Sched.openPipe_sched]
    exact rooted_boot 0 []
  have hwait := (rooted_run hopen hj).waitChild 2
  have htab := (rooted_run hwait hk).tabled
  obtain ⟨k', hk', hreap, hfrees⟩ := teardown_agree paged htab hr hp (by omega)
  rw [hpid] at hreap hfrees
  exact ⟨j, k, k', hj, hk, hr, hw, hk', hreap, hfrees⟩

end Tp2So
