import Tp2So.Ready.Moves

/-!
# What posting, detaching and dying do to the scheduler

Semaphores and pipes reach the process table through `unblockProcess` only.  `Wakes s t` says that
`t` comes from `s` by waking processes of the table, one after the other.

* `wakes_semPost`, `wakes_closePipe`, ..., `wakes_announceExit`   every post is a `Wakes`;
* `Wakes.ok`        waking keeps the ready-queue invariant;
* `Same s t`        no process has come, gone or changed its pid, which `Wakes` and
                    `reparentChildren` guarantee (`same_windUp`);
* `createProcess_cases`, `semWait_sched`, `killProcess_cases`   all that these calls do.
-/

set_option linter.unusedVariables false

namespace Tp2So

inductive Sched.Wakes : Sched → Sched → Prop where
  | refl (s : Sched) : Wakes s s
  | wake {s t : Sched} {pid : Int} {b : Nat} (hb : getProcess s pid = some b)
      (h : Wakes (unblockProcess s b).2 t) : Wakes s t

/-- the same processes, with the same pids, in the same slots -/
structure Sched.Same (s t : Sched) : Prop where
  table : t.table = s.table
  idle : t.idle = s.idle
  running : t.running = s.running
  pids : ∀ a, (t.heap a).map Process.pid = (s.heap a).map Process.pid

/-! ## calls on a pipe that is not there -/

section
variable {k : Kernel} {id : Nat}

theorem attachReader_absent (h : getValidPipe k.pipes id = none) : attachReader k id = (-1, k) := by
  unfold attachReader
  rw [h]

theorem attachWriter_absent (h : getValidPipe k.pipes id = none) : attachWriter k id = (-1, k) := by
  unfold attachWriter
  rw [h]

theorem closePipe_absent (h : getValidPipe k.pipes id = none) : closePipe k id = (-1, k) := by
  unfold closePipe
  rw [h]

theorem detach_absent (h : getValidPipe k.pipes id = none) (pid : Int) (dec : Pipe → Pipe)
    (wake : Kernel → Nat → Pipe → Kernel) : detach k id pid dec wake = k := by
  unfold detach
  rw [h]

end

namespace Sched
variable {s t u : Sched} {k : Kernel} {a : Nat} {p : Process} {pid : Int}

theorem Wakes.trans (h : Wakes s t) (h' : Wakes t u) : Wakes s u := by
  induction h with
  | refl s => exact h'
  | wake hb _ ih => exact .wake hb (ih h')

theorem Wakes.ok (h : Wakes s t) (hs : s.Ok) : t.Ok := by
  induction h with
  | refl s => exact hs
  | wake hb _ ih => exact ih (ok_unblockProcess hs (getProcess_eq_some hb).2.2)

/-! ## posting -/

theorem wakes_semPost (k : Kernel) (a : Nat) : Wakes k.sched (semPost k a).2.sched := by
  unfold semPost
  split
  · split
    · exact .refl _
    · split
      · simp only
        split
        · exact .refl _
        · rename_i b hb
          exact .wake hb (.refl _)
      · exact .refl _
  · exact .refl _

theorem wakes_semPosts (a n : Nat) (k : Kernel) : Wakes k.sched (semPosts a n k).sched := by
  induction n generalizing k with
  | zero => exact .refl _
  | succ n ih => exact (wakes_semPost k a).trans (ih _)

theorem wakes_wakeAll (k : Kernel) (a : Nat) : Wakes k.sched (wakeAll k a).sched :=
  wakes_semPosts ..

theorem deletePipe_sched (k : Kernel) (a : Nat) : (deletePipe k a).sched = k.sched := by
  unfold deletePipe
  split <;> rfl

theorem wakes_detach {id : Nat} {pid : Int} {dec : Pipe → Pipe}
    {wake : Kernel → Nat → Pipe → Kernel}
    (hw : ∀ k a p, Wakes k.sched (wake k a p).sched) (k : Kernel) :
    Wakes k.sched (detach k id pid dec wake).sched := by
  unfold detach
  split
  · exact .refl _
  · split
    · exact .refl _
    · rename_i a _ _ p _
      have hwake := fun sems => hw ({ k with sems }.modPipe a dec) a (dec p)
      simp only
      split
      · rw [deletePipe_sched]
        exact hwake _
      · exact hwake _

theorem wakes_detachReader (k : Kernel) (id : Nat) (pid : Int) :
    Wakes k.sched (detachReader k id pid).sched := by
  refine wakes_detach (fun k a p => ?_) k
  split
  · exact wakes_wakeAll k p.canWrite
  · exact .refl _

theorem wakes_detachWriter (k : Kernel) (id : Nat) (pid : Int) :
    Wakes k.sched (detachWriter k id pid).sched := by
  refine wakes_detach (fun k a p => ?_) k
  split
  · exact wakes_wakeAll k p.canRead
  · exact .refl _

theorem wakes_closePipe (k : Kernel) (id : Nat) : Wakes k.sched (closePipe k id).2.sched := by
  unfold closePipe
  split
  · exact .refl _
  · split
    · exact .refl _
    · rename_i p _
      have hwake : Wakes k.sched (if (id ≠ stdin ∧ id ≠ stdout) ∧ p.attached ≤ 1 then
          wakeAll (wakeAll k p.canRead) p.canWrite else k).sched := by
        split
        · exact (wakes_wakeAll k _).trans (wakes_wakeAll _ _)
        · exact .refl _
      simp only
      split
      · rw [deletePipe_sched]
        exact hwake
      · exact hwake

theorem wakes_leavePipes (k : Kernel) (p : Process) (pid : Int) :
    Wakes k.sched (leavePipes k p pid).sched := by
  have hr : Wakes k.sched (leaveReader k p.readTarget pid).sched := by
    unfold leaveReader
    split
    · exact (wakes_detachReader k _ _).trans (wakes_closePipe _ _)
    · exact .refl _
  refine hr.trans ?_
  unfold leavePipes leaveWriter
  split
  · simp only
    split
    · exact (wakes_detachWriter _ _ _).trans (wakes_closePipe _ _)
    · exact wakes_detachWriter _ _ _
  · exact .refl _

theorem wakes_announceExit (k : Kernel) (pid : Int) :
    Wakes k.sched (announceExit k pid).sched := by
  unfold announceExit
  split
  · exact .refl _
  · split
    · exact .refl _
    · rename_i a r _
      exact wakes_semPost { k with sems := r } a

/-! ## the same processes -/

theorem Same.refl (s : Sched) : Same s s := ⟨rfl, rfl, rfl, fun _ => rfl⟩

theorem Same.trans (h : Same s t) (h' : Same t u) : Same s u :=
  ⟨h'.table.trans h.table, h'.idle.trans h.idle, h'.running.trans h.running,
    fun a => (h'.pids a).trans (h.pids a)⟩

theorem Same.heap (h : Same s t) (hp : s.heap a = some p) :
    ∃ q, t.heap a = some q ∧ q.pid = p.pid := by
  have hq := h.pids a
  rw [hp] at hq
  exact Option.map_eq_some_iff.mp hq

theorem same_modify (s : Sched) (a : Nat) {f : Process → Process} (hf : ∀ p, (f p).pid = p.pid) :
    Same s (s.modify a f) :=
  ⟨rfl, rfl, rfl, modify_read (Option.map Process.pid) fun p _ => congrArg some (hf p)⟩

theorem same_setQueue (s : Sched) (pr : Priority) (q : Queue Nat) : Same s (s.setQueue pr q) :=
  ⟨rfl, rfl, rfl, fun _ => rfl⟩

theorem same_addToScheduler (s : Sched) (a : Nat) : Same s (addToScheduler s a) := by
  unfold addToScheduler
  split
  · exact .refl s
  · have hm := same_modify s a (f := Process.setState .ready) (fun _ => rfl)
    simp only
    split
    · exact hm
    · exact hm.trans (same_setQueue _ _ _)

theorem same_unblockProcess (s : Sched) (a : Nat) : Same s (unblockProcess s a).2 := by
  rcases unblockProcess_cases s a with hun | ⟨p, -, -, -, -, hun⟩
  · rw [hun]
    exact .refl s
  · rw [hun]
    exact (same_modify s a (f := Process.setState .ready) (fun _ => rfl)).trans (same_addToScheduler _ a)

theorem Wakes.same (h : Wakes s t) : Same s t := by
  induction h with
  | refl s => exact .refl s
  | wake hb _ ih => exact (same_unblockProcess _ _).trans ih

/-! ## handing the children over -/

theorem reparentChild_keeps {P : Sched → Prop}
    (hq : ∀ s a f, P s → Process.Still f → P (s.modify a f)) (init : Nat) (s : Sched)
    (child : Int) (h : P s) : P (reparentChild init s child) := by
  unfold reparentChild
  split
  · exact h
  · split
    · exact h
    · split
      · exact h
      · refine hq _ _ _ (hq _ _ _ h ⟨fun p => ⟨rfl, rfl, rfl⟩, fun p => ⟨⟨rfl, rfl⟩, rfl, rfl⟩⟩)
          ⟨fun p => ?_, fun p => ?_⟩
        · simp only
          split <;> exact ⟨rfl, rfl, rfl⟩
        · simp only
          split <;> exact ⟨⟨rfl, rfl⟩, rfl, rfl⟩

/-- `reparentChildren` is a row of edits of parents and children only -/
theorem reparentChildren_keeps {P : Sched → Prop}
    (hq : ∀ s a f, P s → Process.Still f → P (s.modify a f)) (dyingPid : Int) (h : P s) :
    P (reparentChildren s dyingPid) := by
  unfold reparentChildren
  split
  · exact h
  · split
    · exact h
    · split
      · exact h
      · rename_i init _ _ p _
        refine hq _ _ _ ?_ ⟨fun p => ⟨rfl, rfl, rfl⟩, fun p => ⟨⟨rfl, rfl⟩, rfl, rfl⟩⟩
        exact List.foldlRecOn p.children (reparentChild init) h
          fun s hs c _ => reparentChild_keeps hq init s c hs

theorem same_windUp (k : Kernel) (p : Process) (pid : Int) :
    Same k.sched (windUp k p pid).sched := by
  unfold windUp
  refine (wakes_leavePipes k p pid).same.trans (Same.trans ?_ (wakes_announceExit _ pid).same)
  exact reparentChildren_keeps (P := Same (leavePipes k p pid).sched)
    (fun s a f hs hf => hs.trans (same_modify s a fun p => (hf.1 p).1)) pid (.refl _)

theorem ok_windUp (h : k.sched.Ok) (p : Process) (pid : Int) : (windUp k p pid).sched.Ok := by
  unfold windUp
  refine (wakes_announceExit _ pid).ok ?_
  exact reparentChildren_keeps (P := Sched.Ok) (fun s a f hs hf => hs.quiet a hf.1) pid
    ((wakes_leavePipes k p pid).ok h)

/-! ## what the calls do -/

/-- all that `create_process` does -/
theorem createProcess_cases (k : Kernel) (args : CreateArgs) :
    createProcess k args = (none, k) ∨ ∃ pid, assignPid k.sched = some pid ∧
      (createProcess k args = (none, { k with sched := (enterChild k.sched pid).2 }) ∨
        ∃ argv, args.argv = some argv ∧ createProcess k args =
          publishProcess { k with sched := (enterChild k.sched pid).2 }
            (newProcess args pid (enterChild k.sched pid).1 argv)) := by
  unfold createProcess
  cases assignPid k.sched with
  | none => exact Or.inl rfl
  | some pid =>
    refine Or.inr ⟨pid, rfl, ?_⟩
    dsimp only
    cases args.argv with
    | none => exact Or.inl rfl
    | some argv =>
      dsimp only
      split
      · exact Or.inl rfl
      · split
        · exact Or.inl rfl
        · exact Or.inr ⟨argv, rfl, rfl⟩

theorem semWait_sched (k : Kernel) (c : Nat) :
    (semWait k c).2.sched = k.sched ∨ ∃ b p, k.sched.running = some b ∧ k.sched.heap b = some p ∧
      (semWait k c).2.sched = (blockProcess k.sched b).2 := by
  unfold semWait
  split
  · split
    · exact Or.inl rfl
    · split
      · split
        · exact Or.inl rfl
        · rename_i b hr
          split
          · exact Or.inl rfl
          · rename_i p hp
            exact Or.inr ⟨b, p, hr, hp, rfl⟩
      · exact Or.inl rfl
  · exact Or.inl rfl

/-! ## who dies -/

/-- a process other than the idle one is where it was after `windUp` -/
theorem windUp_keeps (hp : k.sched.heap a = some p) (ht : k.sched.table p.pid = some a)
    (hi : k.sched.idle ≠ some a) :
    ∃ q, (windUp k p p.pid).sched.heap a = some q ∧ q.pid = p.pid ∧
      (windUp k p p.pid).sched.table q.pid = some a ∧ (windUp k p p.pid).sched.idle ≠ some a := by
  have hsame := same_windUp k p p.pid
  obtain ⟨q, hq, hqp⟩ := hsame.heap hp
  refine ⟨q, hq, hqp, ?_, ?_⟩
  · rw [hsame.table, hqp]
    exact ht
  · rw [hsame.idle]
    exact hi

theorem killProcess_eq (hne : ¬ (pid = 0 ∨ pid = 1)) (hg : getProcess k.sched pid = some a)
    (hp : k.sched.heap a = some p) :
    killProcess k pid = (0, { windUp k p pid with
      sched := freeProcessResources (forgetShell (removeFromProcessTable
        ((windUp k p pid).sched.modify a (Process.setState .terminated)) pid) a) a true }) := by
  unfold killProcess
  rw [if_neg hne]
  simp only [hg, hp]

/-- all that `kill_process` does -/
theorem killProcess_cases (k : Kernel) (pid : Int) :
    killProcess k pid = (-1, k) ∨ ∃ a p, ¬ (pid = 0 ∨ pid = 1) ∧ getProcess k.sched pid = some a ∧
      k.sched.heap a = some p ∧
      killProcess k pid = (0, { windUp k p pid with
        sched := freeProcessResources (forgetShell (removeFromProcessTable
          ((windUp k p pid).sched.modify a (Process.setState .terminated)) pid) a) a true }) := by
  by_cases hne : pid = 0 ∨ pid = 1
  · exact Or.inl (if_pos hne)
  · cases hg : getProcess k.sched pid with
    | none =>
      refine Or.inl ?_
      unfold killProcess
      rw [if_neg hne, hg]
    | some a =>
      cases hp : k.sched.heap a with
      | none =>
        refine Or.inl ?_
        unfold killProcess
        rw [if_neg hne, hg]
        simp only [hp]
      | some p => exact Or.inr ⟨a, p, hne, rfl, hp, killProcess_eq hne hg hp⟩

theorem Ok.victim (h : s.Ok) (hne : ¬ (pid = 0 ∨ pid = 1)) (hg : getProcess s pid = some a)
    (hp : s.heap a = some p) : p.pid = pid ∧ s.table p.pid = some a ∧ s.idle ≠ some a := by
  obtain ⟨-, -, ht⟩ := getProcess_eq_some hg
  obtain rfl := h.tab_pid ht hp
  exact ⟨rfl, ht, h.ne_idle ht hp fun e => hne (Or.inl e)⟩

theorem processTerminator_eq (hr : k.sched.running = some a) (hp : k.sched.heap a = some p) :
    processTerminator k = some { windUp k p p.pid with
      sched := terminatorLeave (windUp k p p.pid).sched a } := by
  unfold processTerminator terminatorNotify
  simp only [hr, hp]

theorem processTerminator_none (hr : k.sched.running = none) : processTerminator k = none := by
  unfold processTerminator
  rw [hr]

end Sched

end Tp2So
