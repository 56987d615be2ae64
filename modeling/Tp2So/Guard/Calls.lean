import Tp2So.Guard.Edits

/-!
# The idle and the init process: the calls

Every call of a process keeps `Sched.Guard`, whatever its arguments: `block_process` and
`unblock_process` refuse both processes, a kill names neither, no slot of theirs is ever free, and
everything else edits them in fields the invariant does not read.

* `Wakes.guard`, `guard_semWait`, `guard_transfer`  semaphores and pipes;
* `guard_killProcess`, `guard_terminatorLeave`      deaths of the others;
* `guard_createProcess`, `guard_reap`               births and the collection of the dead.
-/

set_option linter.unusedVariables false

namespace Tp2So
namespace Sched

variable {i j base a b : Nat} {m : InitAt} {c : Prop} {s t : Sched} {p : Process} {pid : Int}
  {pr : Priority} {k : Kernel}

/-! ## entering and leaving a queue -/

theorem guard_addToScheduler (h : s.Guard i j base m c) (hj : a ≠ j) :
    (addToScheduler s a).Guard i j base m c := by
  unfold addToScheduler
  split
  · exact h
  · rename_i hi
    have hi' : a ≠ i := fun e => hi (by rw [e]; exact h.idle)
    have hmod := h.other (f := Process.setState .ready) hi' hj fun _ => rfl
    simp only
    split
    · exact hmod
    · exact hmod.append hi' hj _

theorem guard_removeFromAll (h : s.Guard i j base m c) (hj : a ≠ j) :
    (removeFromAllPriorityQueues s a).Guard i j base m c := by
  unfold removeFromAllPriorityQueues
  split
  · exact h
  · exact h.leave hj _

theorem guard_removeProcess (h : s.Guard i j base m c) (hj : a ≠ j) :
    (removeProcessFromScheduler s a).Guard i j base m c := by
  unfold removeProcessFromScheduler
  split
  · exact h
  · have hrem := guard_removeFromAll h hj
    simp only
    split
    · rename_i hr
      exact hrem.stop fun hj' => hj (Option.some.inj (hr.symm.trans hj'))
    · exact hrem

theorem guard_resetAging (h : s.Guard i j base m c) (a : Nat) : (resetAging s a).Guard i j base m c := by
  unfold resetAging
  split
  · exact h
  · exact h.still a (fun _ => ⟨rfl, rfl⟩) fun _ => ⟨rfl, rfl⟩

/-- a process that passes the tests of `block_process` and `unblock_process` is another one -/
theorem Guard.ne_of_tests (h : s.Guard i j base m c) (hp : s.heap a = some p) (hi : s.idle ≠ some a)
    (h1 : p.pid ≠ 1) : a ≠ i ∧ a ≠ j :=
  ⟨fun e => hi (by rw [e]; exact h.idle), fun e => h1 ((h.pids a p hp).2.mpr e)⟩

theorem guard_unblockProcess (h : s.Guard i j base m c) (a : Nat) :
    (unblockProcess s a).2.Guard i j base m c := by
  rcases unblockProcess_cases s a with hun | ⟨p, hp, hi, h1, -, hun⟩
  · rw [hun]
    exact h
  · obtain ⟨hai, haj⟩ := h.ne_of_tests hp hi h1
    rw [hun]
    exact guard_addToScheduler (h.other (f := Process.setState .ready) hai haj fun _ => rfl) haj

theorem guard_blockProcess (h : s.Guard i j base m c) (a : Nat) :
    (blockProcess s a).2.Guard i j base m c := by
  rcases blockProcess_cases s a with hbl | ⟨p, hp, hi, h1, -, -, hbl⟩
  · rw [hbl]
    exact h
  · obtain ⟨hai, haj⟩ := h.ne_of_tests hp hi h1
    have hrem := guard_removeFromAll h haj
    rw [hbl]
    exact (hrem.other (f := Process.setState .blocked) hai haj fun _ => rfl).still a
      (fun _ => ⟨rfl, rfl⟩) fun _ => ⟨rfl, rfl⟩

theorem guard_sysBlock (h : s.Guard i j base m c) (pid : Int) :
    (sysBlockProcess s pid).2.Guard i j base m c := by
  unfold sysBlockProcess
  split
  · exact h
  · split
    · exact h
    · split
      · exact h
      · split
        · exact guard_unblockProcess h _
        · exact guard_blockProcess h _

theorem guard_sysUnblock (h : s.Guard i j base m c) (pid : Int) :
    (sysUnblockProcess s pid).2.Guard i j base m c := by
  unfold sysUnblockProcess
  split
  · exact h
  · exact guard_unblockProcess h _

theorem guard_setPriority (h : s.Guard i j base m c) (pid pr : Int) :
    (setPriority s pid pr).2.Guard i j base m c := by
  unfold setPriority
  split
  · split
    · exact h
    · exact h.still _ (fun _ => ⟨rfl, rfl⟩) fun _ => ⟨rfl, rfl⟩
  · exact h

/-! ## semaphores and pipes -/

theorem Wakes.guard (hw : Wakes s t) (h : s.Guard i j base m c) : t.Guard i j base m c := by
  induction hw with
  | refl s => exact h
  | wake hb _ ih => exact ih (guard_unblockProcess h _)

theorem guard_semWait (h : k.sched.Guard i j base m c) (a : Nat) :
    (semWait k a).2.sched.Guard i j base m c := by
  rcases semWait_sched k a with hk | ⟨b, p, -, -, hk⟩
  · rw [hk]
    exact h
  · rw [hk]
    exact guard_blockProcess h _

theorem guard_readResume (h : k.sched.Guard i j base m c) (a n : Nat) :
    (readResume k a n).2.sched.Guard i j base m c := by
  unfold readResume
  split
  · exact h
  · rename_i p hp
    simp only
    split
    · have hw := wakes_semPost ((k.modPipe a fun _ => (readLoop n p).2).modPipe a
        fun p => { p with waitingToWrite := false }) (readLoop n p).2.canWrite
      split
      all_goals
        rename_i he
        rw [he] at hw
        exact hw.guard h
    · exact h

theorem guard_readPipe (h : k.sched.Guard i j base m c) (id n : Nat) :
    (readPipe k id n).2.sched.Guard i j base m c := by
  unfold readPipe
  split
  · exact h
  · rename_i a _
    split
    · exact h
    · rename_i p _
      split
      · split
        · exact h
        · have hw := guard_semWait (k := k.modPipe a fun p => { p with waitingToRead := true }) h
            p.canRead
          simp only
          split
          · rename_i he
            rw [he] at hw
            exact hw
          · rename_i he
            rw [he] at hw
            exact guard_readResume hw a n
          · rename_i he
            rw [he] at hw
            exact hw
      · exact guard_readResume h a n

theorem guard_writeFinish (h : k.sched.Guard i j base m c) (a n : Nat) :
    (writeFinish k a n).2.sched.Guard i j base m c := by
  unfold writeFinish
  split
  · exact h
  · rename_i p hp
    split
    · have hw := wakes_semPost (k.modPipe a fun p => { p with waitingToRead := false }) p.canRead
      simp only
      split
      all_goals
        rename_i he
        rw [he] at hw
        exact hw.guard h
    · exact h

theorem guard_writeLoop (a : Nat) (rest : List UInt8) :
    ∀ (n : Nat) {k : Kernel}, k.sched.Guard i j base m c →
      (writeLoop a rest n k).2.sched.Guard i j base m c := by
  induction rest with
  | nil => exact fun n k h => guard_writeFinish h a n
  | cons b rest ih =>
    intro n k h
    unfold writeLoop
    split
    · exact h
    · rename_i p hp
      split
      · have hw := guard_semWait (k := k.modPipe a fun p => { p with waitingToWrite := true }) h
          p.canWrite
        simp only
        split
        · rename_i he
          rw [he] at hw
          exact hw
        · rename_i he
          rw [he] at hw
          exact ih _ (k := Kernel.modPipe _ a (storeByte b)) hw
        · rename_i he
          rw [he] at hw
          exact hw
      · exact ih _ (k := k.modPipe a (storeByte b)) h

theorem guard_writeResume (h : k.sched.Guard i j base m c) (a : Nat) (rest : List UInt8) (n : Nat) :
    (writeResume k a rest n).2.sched.Guard i j base m c := by
  unfold writeResume
  split
  · exact guard_writeFinish h a n
  · exact guard_writeLoop a _ _ (k := k.modPipe a (storeByte _)) h

theorem guard_writePipe (h : k.sched.Guard i j base m c) (id : Nat) (data : List UInt8) :
    (writePipe k id data).2.sched.Guard i j base m c := by
  unfold writePipe
  split
  · exact h
  · exact guard_writeLoop _ _ 0 h

theorem guard_setTarget (h : k.sched.Guard i j base m c) {id : Nat} {old : Process → Nat}
    {detachEnd : Kernel → Nat → Int → Kernel} {attachEnd : Kernel → Nat → Int × Kernel}
    {note : Process → Process} (hd : ∀ k id pid, Wakes k.sched (detachEnd k id pid).sched)
    (ha : ∀ k id, (attachEnd k id).2.sched = k.sched)
    (hn : ∀ p, (note p).pid = p.pid ∧ (note p).state = p.state)
    (hs : ∀ p, (note p).rsp = p.rsp ∧ (note p).stackBase = p.stackBase) :
    (setTarget k id old detachEnd attachEnd note).2.sched.Guard i j base m c := by
  unfold setTarget
  split
  · exact h
  · rename_i a _
    split
    · exact h
    · rename_i p _
      have h1 : (if isPipe (old p) then detachEnd k (old p) p.pid else k).sched.Guard i j base m c := by
        split
        · exact (hd k _ _).guard h
        · exact h
      have hnote : ∀ (K : Kernel) (r : Int), K.sched.Guard i j base m c →
          (if r < 0 then (-1, K) else (0, { K with sched := K.sched.modify a note })
            : Int × Kernel).2.sched.Guard i j base m c := by
        intro K r hK
        split
        · exact hK
        · exact hK.still a hn hs
      simp only
      split
      · exact hnote _ _ (by rw [ha]; exact h1)
      · exact hnote _ _ h1

/-! ## the collection of the dead -/

theorem guard_reapSlot (h : s.Guard i j base m c) (pid : Int) : (reapSlot s pid).Guard i j base m c := by
  unfold reapSlot
  split
  · exact h
  · rename_i a _
    split
    · exact h
    · rename_i p hp
      split
      · rename_i hst
        have hi : a ≠ i := by
          rintro rfl
          obtain ⟨q, hq, hact⟩ := h.idleProc
          obtain rfl := Option.some.inj (hp.symm.trans hq)
          rw [hst] at hact
          exact hact.elim (by simp) (by simp)
        have hj : a ≠ j := by
          rintro rfl
          obtain ⟨q, hq, hqs, -⟩ := h.initProc
          obtain rfl := Option.some.inj (hp.symm.trans hq)
          rw [hst] at hqs
          cases m <;> exact absurd hqs (by simp [InitAt.state])
        have h0 : p.pid ≠ 0 := fun e => hi ((h.pids a p hp).1.mp e)
        have h1 : p.pid ≠ 1 := fun e => hj ((h.pids a p hp).2.mp e)
        have hvac : (removeFromProcessTable s p.pid).Guard i j base m c := by
          unfold removeFromProcessTable
          split
          · exact h.vacate h0 h1
          · exact h
        exact hvac.erase hi hj
      · exact h

theorem guard_reap (h : s.Guard i j base m c) : (reapTerminatedProcesses s).Guard i j base m c := by
  unfold reapTerminatedProcesses
  exact List.foldlRecOn allPids reapSlot h fun s hs pid _ => guard_reapSlot hs pid

theorem guard_waitChildResume (h : k.sched.Guard i j base m c) (pid : Int) (sem : Nat) :
    (waitChildResume k pid sem).sched.Guard i j base m c := by
  have hr := guard_reap h
  unfold waitChildResume
  simp only
  generalize reapTerminatedProcesses k.sched = u at hr ⊢
  split
  · exact hr
  · exact hr.still _ (fun _ => ⟨rfl, rfl⟩) fun _ => ⟨rfl, rfl⟩

theorem guard_waitChild (h : k.sched.Guard i j base m c) (pid : Int) :
    (waitChild k pid).2.sched.Guard i j base m c := by
  unfold waitChild
  split
  · split
    · exact h
    · rename_i a r _
      have hw := guard_semWait (k := { k with sems := r }) h a
      split
      · rename_i k' he
        rw [he] at hw
        have hr := guard_reap hw
        generalize reapTerminatedProcesses k'.sched = u at hr ⊢
        exact hr
      · rename_i he
        rw [he] at hw
        exact guard_waitChildResume hw pid a
      · rename_i he
        rw [he] at hw
        exact hw
  · exact h

/-! ## deaths of the others -/

theorem guard_windUp (h : k.sched.Guard i j base m c) (p : Process) (pid : Int) :
    (windUp k p pid).sched.Guard i j base m c := by
  unfold windUp
  refine (wakes_announceExit _ pid).guard ?_
  exact reparentChildren_keeps (P := Guard i j base m c)
    (fun s a f hs hf => hs.still a (fun p => ⟨(hf.1 p).1, (hf.1 p).2.1⟩) fun p => (hf.2 p).1) pid
    ((wakes_leavePipes k p pid).guard h)

theorem guard_forgetShell (h : s.Guard i j base m c) (a : Nat) : (forgetShell s a).Guard i j base m c := by
  unfold forgetShell
  split
  · exact h.setShell none
  · exact h

theorem guard_killProcess (h : k.sched.Guard i j base m c) (pid : Int) :
    (killProcess k pid).2.sched.Guard i j base m c := by
  rcases killProcess_cases k pid with hk | ⟨a, p, hn, hg, hp, hk⟩
  · rw [hk]
    exact h
  · have h0 : pid ≠ 0 := fun e => hn (Or.inl e)
    have h1 : pid ≠ 1 := fun e => hn (Or.inr e)
    obtain ⟨-, -, ht⟩ := getProcess_eq_some hg
    have hi : a ≠ i := fun e => h0 ((h.tab pid a ht).1 e)
    have hj : a ≠ j := fun e => h1 ((h.tab pid a ht).2 e)
    have hw := guard_windUp h p pid
    have hdead := hw.other (f := Process.setState .terminated) hi hj fun _ => rfl
    have hvac : (removeFromProcessTable ((windUp k p pid).sched.modify a
        (Process.setState .terminated)) pid).Guard i j base m c := by
      unfold removeFromProcessTable
      split
      · exact hdead.vacate h0 h1
      · exact hdead
    rw [hk]
    exact (guard_removeProcess (guard_forgetShell hvac a) hj).erase hi hj

theorem guard_killForeground (h : k.sched.Guard i j base m c) :
    (killForegroundProcesses k).2.sched.Guard i j base m c := by
  unfold killForegroundProcesses
  split
  · exact h
  · split
    · exact h
    · split
      · exact guard_killProcess h _
      · exact h

theorem guard_terminatorNotify (h : k.sched.Guard i j base m c) (a : Nat) :
    (terminatorNotify k a).sched.Guard i j base m c := by
  unfold terminatorNotify
  split
  · exact h
  · exact guard_windUp h _ _

theorem guard_terminatorLeave (h : s.Guard i j base m c) (hi : a ≠ i) (hj : a ≠ j) :
    (terminatorLeave s a).Guard i j base m c := by
  have hdead := h.other (f := Process.setState .terminated) hi hj fun _ => rfl
  have hrem := guard_removeProcess hdead hj
  unfold terminatorLeave
  simp only
  refine guard_forgetShell ?_ a
  split
  · rename_i hr
    exact hrem.stop fun hj' => hj (Option.some.inj (hr.symm.trans hj'))
  · exact hrem

/-! ## births -/

theorem Guard.assigned (h : s.Guard i j base m c) (hp : assignPid s = some pid) :
    pid ≠ 0 ∧ pid ≠ 1 := by
  obtain ⟨-, -, hf⟩ := assignPid_spec hp
  refine ⟨fun e => ?_, fun e => ?_⟩
  · obtain ⟨q, hq, hact⟩ := h.idleProc
    rw [e] at hf
    have hst := slotFree_terminated hf h.slots.1 hq
    rw [hst] at hact
    exact hact.elim (by simp) (by simp)
  · obtain ⟨q, hq, hqs, -⟩ := h.initProc
    rw [e] at hf
    have hst := slotFree_terminated hf h.slots.2 hq
    rw [hst] at hqs
    cases m <;> exact absurd hqs (by simp [InitAt.state])

theorem guard_createProcess (h : k.sched.Guard i j base m c) (args : CreateArgs) :
    (createProcess k args).2.sched.Guard i j base m c := by
  rcases createProcess_cases k args with hk | ⟨pid, hpid, hk⟩
  · rw [hk]
    exact h
  · obtain ⟨h0, h1⟩ := h.assigned hpid
    have henter : (enterChild k.sched pid).2.Guard i j base m c :=
      enterChild_keeps (P := Guard i j base m c)
        (fun s a f hs hf => hs.still a (fun p => ⟨(hf.1 p).1, (hf.1 p).2.1⟩) fun p => (hf.2 p).1) pid h
    rcases hk with hk | ⟨argv, -, hk⟩
    · rw [hk]
      exact henter
    · have hpub := henter.publish (p := newProcess args pid (enterChild k.sched pid).1 argv) h0 h1
      rw [hk, publishProcess_sched _ h0]
      exact guard_reap (guard_addToScheduler hpub (Nat.ne_of_gt henter.old.2))

end Sched

end Tp2So
