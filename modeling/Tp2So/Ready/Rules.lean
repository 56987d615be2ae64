import Tp2So.Guard.Runs

/-!
# What every call keeps

A property of the scheduler that is kept by waking, by the collection of the dead and by edits of
control blocks is kept by every call that neither creates nor kills a process; a call that blocks the
running process does nothing after that, so that a second property is enough for its end.

* `Process.Tame`     an edit of a control block that leaves the process where it is;
* `CallRule P Q`     the conditions on `P`, and on `Q` for the end of a call;
* `CallRule.readPipe`, `CallRule.writePipe`, `CallRule.setTarget`, `CallRule.waitChild`,
  `CallRule.windUp`, ...   the calls, one by one;
* `CallRule.call`    all of them, as operations of a run.
-/

set_option linter.unusedVariables false

namespace Tp2So

/-- an edit of a control block by a call: it moves no process and no stack -/
structure Process.Tame (f : Process → Process) : Prop where
  pid : ∀ p, (f p).pid = p.pid
  state : ∀ p, (f p).state = p.state
  rsp : ∀ p, (f p).rsp = p.rsp
  stack : ∀ p, (f p).stackBase = p.stackBase
  priority : ∀ p, (f p).priority = p.priority
  ticks : ∀ p, (f p).waitTicks = p.waitTicks
  quantum : ∀ p, (f p).quantumRemaining ≤ max p.quantumRemaining defaultQuantum

theorem Process.tame_of_eq {f : Process → Process}
    (h : ∀ p, ((f p).pid = p.pid ∧ (f p).state = p.state) ∧ ((f p).rsp = p.rsp ∧
      (f p).stackBase = p.stackBase) ∧ (f p).priority = p.priority ∧ (f p).waitTicks = p.waitTicks ∧
      (f p).quantumRemaining = p.quantumRemaining) : Process.Tame f :=
  ⟨fun p => (h p).1.1, fun p => (h p).1.2, fun p => (h p).2.1.1, fun p => (h p).2.1.2,
    fun p => (h p).2.2.1, fun p => (h p).2.2.2.1, fun p =>
      Int.le_trans (Int.le_of_eq (h p).2.2.2.2) (Int.le_max_left ..)⟩

/-- a process that runs, or that has a slot of the table -/
def Sched.known (s : Sched) (a : Nat) : Prop :=
  s.running = some a ∨ ∃ pid, getProcess s pid = some a

/-- `P` is kept as long as nobody blocks, and `Q` holds in any case -/
structure CallRule (P Q : Sched → Prop) : Prop where
  last : ∀ {s : Sched}, P s → Q s
  wake : ∀ {s : Sched} {pid : Int} {a : Nat}, getProcess s pid = some a → P s →
    P (unblockProcess s a).2
  block : ∀ {s : Sched} {a : Nat}, s.known a → P s → Q (blockProcess s a).2
  edit : ∀ {s : Sched} (a : Nat) {f : Process → Process}, P s → Process.Tame f → P (s.modify a f)
  reap : ∀ {s : Sched}, P s → P (reapTerminatedProcesses s)

/-- the operations that neither create nor kill a process, do not change a priority, and are not the
tick -/
def GuardOp.plain : GuardOp → Bool
  | .kill _ => false
  | .ctrlC => false
  | .terminatorLeave => false
  | .create _ => false
  | .createShell _ _ => false
  | .setPriority _ _ => false
  | .schedule _ _ => false
  | _ => true

namespace CallRule

variable {P Q : Sched → Prop} {s t : Sched} {k k' : Kernel} {a n : Nat} {pid : Int}

/-! ## the scheduler -/

theorem wakes (hP : CallRule P Q) (hw : Sched.Wakes s t) (h : P s) : P t := by
  induction hw with
  | refl s => exact h
  | wake hb _ ih => exact ih (hP.wake hb h)

theorem sysBlock (hP : CallRule P Q) (h : P s) (pid : Int) : Q (sysBlockProcess s pid).2 := by
  unfold sysBlockProcess
  split
  · exact hP.last h
  · rename_i a hg
    split
    · exact hP.last h
    · split
      · exact hP.last h
      · split
        · exact hP.last (hP.wake hg h)
        · exact hP.block (Or.inr ⟨pid, hg⟩) h

theorem sysUnblock (hP : CallRule P Q) (h : P s) (pid : Int) : P (sysUnblockProcess s pid).2 := by
  unfold sysUnblockProcess
  split
  · exact h
  · rename_i a hg
    exact hP.wake hg h

theorem yieldCpu (hP : CallRule P Q) (h : P s) : P (Tp2So.yieldCpu s) := by
  unfold Tp2So.yieldCpu
  split
  · exact h
  · have hzero : ∀ p : Process, (0 : Int) ≤ max p.quantumRemaining defaultQuantum := fun p =>
      Int.le_trans Int.one_nonneg (Int.le_max_right ..)
    refine hP.edit _ h ⟨fun p => ?_, fun p => ?_, fun p => ?_, fun p => ?_, fun p => ?_, fun p => ?_,
      fun p => ?_⟩
    iterate 6 (split <;> rfl)
    split
    · exact hzero p
    · exact Int.le_max_left ..

theorem enterChild (hP : CallRule P Q) (h : P s) (pid : Int) : P (Tp2So.enterChild s pid).2 := by
  unfold Tp2So.enterChild
  split
  · exact h
  · split
    · exact h
    · split
      · exact h
      · refine hP.edit _ h (Process.tame_of_eq fun p => ?_)
        split <;> exact ⟨⟨rfl, rfl⟩, ⟨rfl, rfl⟩, rfl, rfl, rfl⟩

theorem reparentChild (hP : CallRule P Q) (h : P s) (init : Nat) (child : Int) :
    P (Tp2So.reparentChild init s child) := by
  unfold Tp2So.reparentChild
  split
  · exact h
  · split
    · exact h
    · split
      · exact h
      · refine hP.edit _ (hP.edit _ h (Process.tame_of_eq fun p => ?_)) (Process.tame_of_eq fun p => ?_)
        · exact ⟨⟨rfl, rfl⟩, ⟨rfl, rfl⟩, rfl, rfl, rfl⟩
        · split <;> exact ⟨⟨rfl, rfl⟩, ⟨rfl, rfl⟩, rfl, rfl, rfl⟩

theorem reparentChildren (hP : CallRule P Q) (h : P s) (pid : Int) :
    P (Tp2So.reparentChildren s pid) := by
  unfold Tp2So.reparentChildren
  split
  · exact h
  · split
    · exact h
    · split
      · exact h
      · rename_i init _ _ p _
        refine hP.edit _ ?_ (Process.tame_of_eq fun p => ⟨⟨rfl, rfl⟩, ⟨rfl, rfl⟩, rfl, rfl, rfl⟩)
        exact List.foldlRecOn p.children (Tp2So.reparentChild init) h
          fun s hs c _ => hP.reparentChild hs init c

theorem windUp (hP : CallRule P Q) (h : P k.sched) (p : Process) (pid : Int) :
    P (Tp2So.windUp k p pid).sched := by
  unfold Tp2So.windUp
  refine hP.wakes (Sched.wakes_announceExit _ pid) ?_
  exact hP.reparentChildren (hP.wakes (Sched.wakes_leavePipes k p pid) h) pid

/-! ## semaphores and pipes -/

theorem semWait (hP : CallRule P Q) (h : P k.sched) (a : Nat) :
    Q (Tp2So.semWait k a).2.sched ∧
      ((Tp2So.semWait k a).1 ≠ .suspended → P (Tp2So.semWait k a).2.sched) := by
  unfold Tp2So.semWait
  split
  · split
    · exact ⟨hP.last h, fun _ => h⟩
    · split
      · split
        · exact ⟨hP.last h, fun _ => h⟩
        · rename_i b hr
          split
          · exact ⟨hP.last h, fun _ => h⟩
          · exact ⟨hP.block (Or.inl hr) h, fun hne => absurd rfl hne⟩
      · exact ⟨hP.last h, fun _ => h⟩
  · exact ⟨hP.last h, fun _ => h⟩

theorem readResume (hP : CallRule P Q) (h : P k.sched) (a n : Nat) :
    P (Tp2So.readResume k a n).2.sched := by
  unfold Tp2So.readResume
  split
  · exact h
  · rename_i p hp
    simp only
    split
    · have hw := Sched.wakes_semPost ((k.modPipe a fun _ => (readLoop n p).2).modPipe a
        fun p => { p with waitingToWrite := false }) (readLoop n p).2.canWrite
      split
      all_goals
        rename_i he
        rw [he] at hw
        exact hP.wakes hw h
    · exact h

theorem readPipe (hP : CallRule P Q) (h : P k.sched) (id n : Nat) :
    Q (Tp2So.readPipe k id n).2.sched := by
  unfold Tp2So.readPipe
  split
  · exact hP.last h
  · rename_i a _
    split
    · exact hP.last h
    · rename_i p _
      split
      · split
        · exact hP.last h
        · have hw := hP.semWait (k := k.modPipe a fun p => { p with waitingToRead := true }) h
            p.canRead
          simp only
          split
          · rename_i he
            rw [he] at hw
            exact hw.1
          · rename_i he
            rw [he] at hw
            exact hP.last (hP.readResume (hw.2 WaitResult.noConfusion) a n)
          · rename_i he
            rw [he] at hw
            exact hw.1
      · exact hP.last (hP.readResume h a n)

theorem writeFinish (hP : CallRule P Q) (h : P k.sched) (a n : Nat) :
    P (Tp2So.writeFinish k a n).2.sched := by
  unfold Tp2So.writeFinish
  split
  · exact h
  · rename_i p hp
    split
    · have hw := Sched.wakes_semPost (k.modPipe a fun p => { p with waitingToRead := false }) p.canRead
      simp only
      split
      all_goals
        rename_i he
        rw [he] at hw
        exact hP.wakes hw h
    · exact h

theorem writeLoop (hP : CallRule P Q) (a : Nat) (rest : List UInt8) :
    ∀ (n : Nat) {k : Kernel}, P k.sched → Q (Tp2So.writeLoop a rest n k).2.sched := by
  induction rest with
  | nil => exact fun n k h => hP.last (hP.writeFinish h a n)
  | cons b rest ih =>
    intro n k h
    unfold Tp2So.writeLoop
    split
    · exact hP.last h
    · rename_i p hp
      split
      · have hw := hP.semWait (k := k.modPipe a fun p => { p with waitingToWrite := true }) h
          p.canWrite
        simp only
        split
        · rename_i he
          rw [he] at hw
          exact hw.1
        · rename_i he
          rw [he] at hw
          exact ih _ (k := Kernel.modPipe _ a (storeByte b)) (hw.2 WaitResult.noConfusion)
        · rename_i he
          rw [he] at hw
          exact hw.1
      · exact ih _ (k := k.modPipe a (storeByte b)) h

theorem writeResume (hP : CallRule P Q) (h : P k.sched) (a : Nat) (rest : List UInt8) (n : Nat) :
    Q (Tp2So.writeResume k a rest n).2.sched := by
  unfold Tp2So.writeResume
  split
  · exact hP.last (hP.writeFinish h a n)
  · exact hP.writeLoop a _ _ (k := k.modPipe a (storeByte _)) h

theorem writePipe (hP : CallRule P Q) (h : P k.sched) (id : Nat) (data : List UInt8) :
    Q (Tp2So.writePipe k id data).2.sched := by
  unfold Tp2So.writePipe
  split
  · exact hP.last h
  · exact hP.writeLoop _ _ 0 h

theorem setTarget (hP : CallRule P Q) (h : P k.sched) {id : Nat} {old : Process → Nat}
    {detachEnd : Kernel → Nat → Int → Kernel} {attachEnd : Kernel → Nat → Int × Kernel}
    {note : Process → Process}
    (hd : ∀ k id pid, Sched.Wakes k.sched (detachEnd k id pid).sched)
    (ha : ∀ k id, (attachEnd k id).2.sched = k.sched) (hn : Process.Tame note) :
    P (Tp2So.setTarget k id old detachEnd attachEnd note).2.sched := by
  unfold Tp2So.setTarget
  split
  · exact h
  · rename_i a _
    split
    · exact h
    · rename_i p _
      have h1 : P (if isPipe (old p) then detachEnd k (old p) p.pid else k).sched := by
        split
        · exact hP.wakes (hd k _ _) h
        · exact h
      have hnote : ∀ (K : Kernel) (r : Int), P K.sched →
          P (if r < 0 then (-1, K) else (0, { K with sched := K.sched.modify a note })
            : Int × Kernel).2.sched := by
        intro K r hK
        split
        · exact hK
        · exact hP.edit a hK hn
      simp only
      split
      · exact hnote _ _ (by rw [ha]; exact h1)
      · exact hnote _ _ h1

/-! ## waiting for a child -/

theorem waitChildResume (hP : CallRule P Q) (h : P k.sched) (pid : Int) (sem : Nat) :
    P (Tp2So.waitChildResume k pid sem).sched := by
  have hr := hP.reap h
  unfold Tp2So.waitChildResume
  simp only
  generalize reapTerminatedProcesses k.sched = u at hr ⊢
  split
  · exact hr
  · exact hP.edit _ hr (Process.tame_of_eq fun _ => ⟨⟨rfl, rfl⟩, ⟨rfl, rfl⟩, rfl, rfl, rfl⟩)

theorem waitChild (hP : CallRule P Q) (h : P k.sched) (pid : Int) :
    Q (Tp2So.waitChild k pid).2.sched := by
  unfold Tp2So.waitChild
  split
  · split
    · exact hP.last h
    · rename_i a r _
      have hw := hP.semWait (k := { k with sems := r }) h a
      split
      · rename_i k' he
        rw [he] at hw
        have hr := hP.last (hP.reap (hw.2 WaitResult.noConfusion))
        generalize reapTerminatedProcesses k'.sched = u at hr ⊢
        exact hr
      · rename_i he
        rw [he] at hw
        exact hP.last (hP.waitChildResume (hw.2 WaitResult.noConfusion) pid a)
      · rename_i he
        rw [he] at hw
        exact hw.1
  · exact hP.last h

/-- **Every call** that neither creates nor kills, nor changes a priority. -/
theorem call (hP : CallRule P Q) (o : GuardOp) (ho : o.plain = true) (h : P k.sched)
    (he : execGuard o k = some k') : Q k'.sched := by
  cases o with
  | kill _ => exact absurd ho Bool.false_ne_true
  | ctrlC => exact absurd ho Bool.false_ne_true
  | terminatorLeave => exact absurd ho Bool.false_ne_true
  | create _ => exact absurd ho Bool.false_ne_true
  | createShell _ _ => exact absurd ho Bool.false_ne_true
  | setPriority _ _ => exact absurd ho Bool.false_ne_true
  | schedule _ _ => exact absurd ho Bool.false_ne_true
  | terminatorNotify =>
    obtain ⟨a, -, rfl⟩ := Option.map_eq_some_iff.mp he
    unfold terminatorNotify
    split
    · exact hP.last h
    · exact hP.last (hP.windUp h _ _)
  | block pid => exact Option.some.inj he ▸ hP.sysBlock h pid
  | unblock pid => exact Option.some.inj he ▸ hP.last (hP.sysUnblock h pid)
  | waitChild pid => exact Option.some.inj he ▸ hP.waitChild h pid
  | waitChildResume pid sem => exact Option.some.inj he ▸ hP.last (hP.waitChildResume h pid sem)
  | semOpen name v => exact Option.some.inj he ▸ hP.last h
  | semClose sem => exact Option.some.inj he ▸ hP.last h
  | semWait sem => exact Option.some.inj he ▸ (hP.semWait h sem).1
  | semPost sem => exact Option.some.inj he ▸ hP.last (hP.wakes (Sched.wakes_semPost k sem) h)
  | openPipe recycled =>
    obtain rfl := Option.some.inj he
    rw [Sched.openPipe_sched]
    exact hP.last h
  | closePipe id => exact Option.some.inj he ▸ hP.last (hP.wakes (Sched.wakes_closePipe k id) h)
  | readPipe id n => exact Option.some.inj he ▸ hP.readPipe h id n
  | readResume a n => exact Option.some.inj he ▸ hP.last (hP.readResume h a n)
  | writePipe id data => exact Option.some.inj he ▸ hP.writePipe h id data
  | writeResume a rest n => exact Option.some.inj he ▸ hP.writeResume h a rest n
  | setReadTarget id =>
    refine Option.some.inj he ▸ hP.last (hP.setTarget h Sched.wakes_detachReader
      Sched.attachReader_sched (Process.tame_of_eq fun _ => ?_))
    exact ⟨⟨rfl, rfl⟩, ⟨rfl, rfl⟩, rfl, rfl, rfl⟩
  | setWriteTarget id =>
    refine Option.some.inj he ▸ hP.last (hP.setTarget h Sched.wakes_detachWriter
      Sched.attachWriter_sched (Process.tame_of_eq fun _ => ?_))
    exact ⟨⟨rfl, rfl⟩, ⟨rfl, rfl⟩, rfl, rfl, rfl⟩
  | yield => exact Option.some.inj he ▸ hP.last (hP.yieldCpu h)

end CallRule

end Tp2So
