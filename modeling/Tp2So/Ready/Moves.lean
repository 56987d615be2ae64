import Tp2So.Ready.Inv

/-!
# The ready-queue invariant: blocking, unblocking, dying, being collected

Each function of `scheduler.c` and `process.c` that moves a process keeps `Sched.Ok`.  The source
often marks a process TERMINATED before it takes it out of its queue; the two edits commute
(`removeFromAll_modify`), which puts them in the order the invariant needs.
`unblockProcess_cases` and `blockProcess_cases` say all that these two do.
-/

set_option linter.unusedVariables false

namespace Tp2So
namespace Sched
variable {x : Option Nat} {s : Sched} {a : Nat} {p : Process}

/-! ## edits the invariant does not see -/

theorem But.shell (h : s.But x) (sh : Option Nat) : (s.setShell sh).But x :=
  ⟨h.tab, h.fresh, h.idle, h.running, h.queued, h.nodup, h.complete⟩

theorem But.stop (h : s.But x) : (s.setRunning none).But x :=
  ⟨h.tab, h.fresh, h.idle, fun _ hb => absurd hb (by simp), h.queued, h.nodup, h.complete⟩

theorem But.start (h : s.But x) (hp : s.heap a = some p) (ht : s.table p.pid = some a)
    (hst : p.state ≠ .terminated) : (s.setRunning (some a)).But x where
  tab := h.tab
  fresh := h.fresh
  idle := h.idle
  running b hb := by
    obtain rfl := Option.some.inj hb
    exact ⟨p, hp, ht, hst⟩
  queued := h.queued
  nodup := h.nodup
  complete := h.complete

theorem But.cursor (h : s.But x) (pr : Priority) {q : Queue Nat}
    (hq : q.elems = (s.ready pr).elems) : (s.setQueue pr q).But x := by
  have he : ∀ pr', ((s.setQueue pr q).ready pr').elems = (s.ready pr').elems := by
    intro pr'
    by_cases e : pr' = pr
    · subst e
      rw [setQueue_self, hq]
    · rw [setQueue_of_ne _ _ _ e]
  exact ⟨h.tab, h.fresh, h.idle, h.running, fun pr' b hb => h.queued pr' b (he pr' ▸ hb),
    fun pr' => (he pr').symm ▸ h.nodup pr',
    fun pid b r ht hr hst hi hx => (he r.priority).symm ▸ h.complete pid b r ht hr hst hi hx⟩

theorem quiet_setRsp (n : Nat) : Process.Quiet (Process.setRsp n) := fun _ => ⟨rfl, rfl, rfl⟩
theorem quiet_setQuantum (n : Int) : Process.Quiet (Process.setQuantum n) := fun _ => ⟨rfl, rfl, rfl⟩
theorem quiet_setWaitTicks (n : Nat) : Process.Quiet (Process.setWaitTicks n) :=
  fun _ => ⟨rfl, rfl, rfl⟩

theorem modify_heap_self (f : Process → Process) (hp : s.heap a = some p) :
    (s.modify a f).heap a = some (f p) := by
  rw [modify_heap, heapMod_self, hp]
  rfl

/-- an edit of `a` that `g` does not see -/
theorem modify_read {β : Type*} (g : Option Process → β) {f : Process → Process}
    (hf : ∀ p, s.heap a = some p → g (some (f p)) = g (some p)) (b : Nat) :
    g ((s.modify a f).heap b) = g (s.heap b) := by
  by_cases e : b = a
  · subst e
    rw [modify_heap, heapMod_self]
    cases hp : s.heap b with
    | none => rfl
    | some p => exact hf p hp
  · rw [modify_heap, heapMod_of_ne _ _ e]

theorem But.setState (h : s.But (some a)) (st : ProcessState) (hi : s.idle ≠ some a)
    (hr : st = .terminated → s.running ≠ some a) :
    (s.modify a (Process.setState st)).But (some a) :=
  h.mod _ (fun _ => rfl) (fun _ _ hf => hr hf) (fun _ hi' => absurd hi' hi)

/-! ## commuting edits -/

theorem compareProcesses_modify (f : Process → Process) (hpid : ∀ q, (f q).pid = q.pid) :
    compareProcesses (s.modify a f) = compareProcesses s := by
  have hmap : ∀ b, ((s.modify a f).heap b).map Process.pid = (s.heap b).map Process.pid :=
    modify_read (Option.map Process.pid) fun p _ => congrArg some (hpid p)
  -- only the pids are looked at
  have hcmp : ∀ (t : Sched) (b c : Nat), compareProcesses t b c =
      ((t.heap b).map Process.pid).any fun m => ((t.heap c).map Process.pid).any fun n => m == n := by
    intro t b c
    unfold compareProcesses
    cases t.heap b <;> cases t.heap c <;> rfl
  funext b c
  rw [hcmp, hcmp, hmap, hmap]

theorem removeFromAll_eq (hp : s.heap a = some p) :
    removeFromAllPriorityQueues s a
      = s.setQueue p.priority (queueRemove (compareProcesses s) (s.ready p.priority) a) := by
  unfold removeFromAllPriorityQueues
  rw [hp]

theorem removeFromAll_modify (hp : s.heap a = some p) (f : Process → Process)
    (hpid : ∀ q, (f q).pid = q.pid) (hprio : ∀ q, (f q).priority = q.priority) :
    removeFromAllPriorityQueues (s.modify a f) a = (removeFromAllPriorityQueues s a).modify a f := by
  rw [removeFromAll_eq hp, removeFromAll_eq (modify_heap_self f hp), compareProcesses_modify f hpid,
    hprio]
  rfl

section
variable (s : Sched) (a : Nat)

@[simp] theorem removeFromAll_idle : (removeFromAllPriorityQueues s a).idle = s.idle := by
  unfold removeFromAllPriorityQueues
  split <;> rfl

@[simp] theorem removeFromAll_running : (removeFromAllPriorityQueues s a).running = s.running := by
  unfold removeFromAllPriorityQueues
  split <;> rfl

@[simp] theorem removeFromAll_heap : (removeFromAllPriorityQueues s a).heap = s.heap := by
  unfold removeFromAllPriorityQueues
  split <;> rfl

@[simp] theorem removeFromAll_table : (removeFromAllPriorityQueues s a).table = s.table := by
  unfold removeFromAllPriorityQueues
  split <;> rfl

end

/-! ## what the calls do -/

theorem addToScheduler_eq (hi : s.idle ≠ some a) (hp : s.heap a = some p) :
    addToScheduler s a
      = (s.modify a (Process.setState .ready)).setQueue p.priority (enqueue (s.ready p.priority) a) := by
  unfold addToScheduler
  rw [if_neg hi]
  simp only [modify_heap_self _ hp]
  rfl

theorem resetAging_eq (hi : s.idle ≠ some a) :
    resetAging s a = s.modify a (Process.setWaitTicks 0) := if_neg hi

theorem unblockProcess_eq (hp : s.heap a = some p) (hi : s.idle ≠ some a) (h1 : p.pid ≠ 1)
    (hst : p.state = .blocked) :
    unblockProcess s a = (0, addToScheduler (s.modify a (Process.setState .ready)) a) := by
  have hc : ¬ (s.idle = some a ∨ p.pid = 1 ∨ p.state ≠ .blocked) := by
    rintro (hc | hc | hc)
    · exact hi hc
    · exact h1 hc
    · exact hc hst
  unfold unblockProcess
  rw [hp]
  exact if_neg hc

/-- all that `unblock_process` does -/
theorem unblockProcess_cases (s : Sched) (a : Nat) :
    unblockProcess s a = (-1, s) ∨ ∃ p, s.heap a = some p ∧ s.idle ≠ some a ∧ p.pid ≠ 1 ∧
      p.state = .blocked ∧
      unblockProcess s a = (0, addToScheduler (s.modify a (Process.setState .ready)) a) := by
  cases hp : s.heap a with
  | none =>
    refine Or.inl ?_
    unfold unblockProcess
    rw [hp]
  | some p =>
    by_cases hc : s.idle = some a ∨ p.pid = 1 ∨ p.state ≠ .blocked
    · refine Or.inl ?_
      unfold unblockProcess
      rw [hp]
      exact if_pos hc
    · push Not at hc
      obtain ⟨hi, h1, hst⟩ := hc
      exact Or.inr ⟨p, rfl, hi, h1, hst, unblockProcess_eq hp hi h1 hst⟩

theorem blockProcess_eq (hp : s.heap a = some p) (hi : s.idle ≠ some a) (h1 : p.pid ≠ 1)
    (hst : p.state ≠ .blocked) (hlive : p.state ≠ .terminated) :
    blockProcess s a = (0, ((removeFromAllPriorityQueues s a).modify a (Process.setState .blocked)).modify a
      (Process.setWaitTicks 0)) := by
  have hc : ¬ (s.idle = some a ∨ p.pid = 1 ∨ p.state = .blocked ∨ p.state = .terminated) := by
    rintro (hc | hc | hc | hc)
    · exact hi hc
    · exact h1 hc
    · exact hst hc
    · exact hlive hc
  have hidle : ((removeFromAllPriorityQueues s a).modify a (Process.setState .blocked)).idle ≠ some a := by
    show (removeFromAllPriorityQueues s a).idle ≠ some a
    rw [removeFromAll_idle]
    exact hi
  unfold blockProcess
  simp only [hp, if_neg hc]
  rw [resetAging_eq hidle]

/-- all that `block_process` does -/
theorem blockProcess_cases (s : Sched) (a : Nat) :
    blockProcess s a = (-1, s) ∨ ∃ p, s.heap a = some p ∧ s.idle ≠ some a ∧ p.pid ≠ 1 ∧
      p.state ≠ .blocked ∧ p.state ≠ .terminated ∧
      blockProcess s a = (0, ((removeFromAllPriorityQueues s a).modify a (Process.setState .blocked)).modify a
        (Process.setWaitTicks 0)) := by
  cases hp : s.heap a with
  | none =>
    refine Or.inl ?_
    unfold blockProcess
    rw [hp]
  | some p =>
    by_cases hc : s.idle = some a ∨ p.pid = 1 ∨ p.state = .blocked ∨ p.state = .terminated
    · refine Or.inl ?_
      unfold blockProcess
      rw [hp]
      exact if_pos hc
    · push Not at hc
      obtain ⟨hi, h1, hst, hlive⟩ := hc
      exact Or.inr ⟨p, rfl, hi, h1, hst, hlive, blockProcess_eq hp hi h1 hst hlive⟩

/-! ## entering a queue -/

theorem But.enter (h : s.But (some a)) (hp : s.heap a = some p) (ht : s.table p.pid = some a) :
    (addToScheduler s a).Ok := by
  by_cases hi : s.idle = some a
  · unfold addToScheduler
    rw [if_pos hi]
    exact h.close hp (Or.inr hi)
  · have hp' := modify_heap_self (Process.setState .ready) hp
    have hput := (h.setState .ready hi (by simp)).put hp' ht rfl hi
    rw [addToScheduler_eq hi hp]
    exact hput

theorem ok_unblockProcess (h : s.Ok) {pid : Int} (ht : s.table pid = some a) :
    (unblockProcess s a).2.Ok := by
  rcases unblockProcess_cases s a with hun | ⟨p, hp, hi, -, hst, hun⟩
  · rw [hun]
    exact h
  · obtain rfl := h.tab_pid ht hp
    have hb := h.setAside hp (Or.inl (by rw [hst]; simp))
    rw [hun]
    exact (hb.setState .ready hi (by simp)).enter (modify_heap_self _ hp) ht

/-! ## leaving the queues -/

theorem ok_blockProcess (h : s.Ok) {pid : Int} (ht : s.table pid = some a) :
    (blockProcess s a).2.Ok := by
  rcases blockProcess_cases s a with hbl | ⟨p, hp, hi, -, -, -, hbl⟩
  · rw [hbl]
    exact h
  · obtain rfl := h.tab_pid ht hp
    have hb := (h.take hp ht).setState .blocked (by simpa using hi) (by simp)
    have hok := hb.close (modify_heap_self _ (by simpa using hp)) (Or.inl (by simp))
    rw [hbl]
    exact hok.quiet a (quiet_setWaitTicks 0)

/-- the running process, unless it is `a` -/
def runningBut (s : Sched) (a : Nat) : Option Nat := if s.running = some a then none else s.running

theorem runningBut_ne : s.runningBut a ≠ some a := by
  unfold runningBut
  split
  · simp
  · assumption

/-- `remove_process_from_scheduler` of a process other than the idle one, as one edit -/
theorem removeProcessFromScheduler_eq (hi : s.idle ≠ some a) :
    removeProcessFromScheduler s a = (removeFromAllPriorityQueues s a).setRunning
      (s.runningBut a) := by
  unfold removeProcessFromScheduler
  rw [if_neg hi]
  simp only [removeFromAll_running]
  unfold runningBut
  by_cases hr : s.running = some a
  · rw [if_pos hr, if_pos hr]
  · rw [if_neg hr, if_neg hr, ← removeFromAll_running s a]
    rfl

theorem But.leave (h : s.Ok) (hp : s.heap a = some p) (ht : s.table p.pid = some a) :
    ((removeFromAllPriorityQueues s a).setRunning
      (s.runningBut a)).But (some a) := by
  unfold runningBut
  by_cases hr : s.running = some a
  · rw [if_pos hr]
    exact (h.take hp ht).stop
  · rw [if_neg hr, ← removeFromAll_running s a]
    exact h.take hp ht

theorem But.forgetShell (h : s.But x) : (Tp2So.forgetShell s a).But x := by
  unfold Tp2So.forgetShell
  split
  · exact h.shell none
  · exact h

theorem ok_terminatorLeave (h : s.Ok) (hp : s.heap a = some p) (ht : s.table p.pid = some a)
    (hi : s.idle ≠ some a) : (terminatorLeave s a).Ok := by
  have hb := (But.leave h hp ht).setState .terminated (by simpa using hi) (fun _ => runningBut_ne)
  have hok := hb.close (modify_heap_self _ (by simpa using hp)) (Or.inl (by simp))
  unfold terminatorLeave
  simp only [removeProcessFromScheduler_eq (s := s.modify a (Process.setState .terminated)) hi,
    removeFromAll_modify hp (Process.setState .terminated) (fun _ => rfl) (fun _ => rfl)]
  rw [setRunning_running, if_neg runningBut_ne]
  exact hok.forgetShell

/-! ## leaving the table -/

/-- a process that is out of the queues and not running can be freed with its slot -/
theorem But.erase (h : s.But (some a)) (hp : s.heap a = some p) (ht : s.table p.pid = some a)
    (hi : s.idle ≠ some a) (hr : s.running ≠ some a) :
    ((s.setSlot p.pid none).setHeap a none).Ok := by
  have htab : ∀ pid b, Function.update s.table p.pid none pid = some b →
      s.table pid = some b ∧ b ≠ a := by
    intro pid b hb
    by_cases e : pid = p.pid
    · rw [e, Function.update_self] at hb
      exact absurd hb (by simp)
    · rw [Function.update_of_ne e] at hb
      refine ⟨hb, fun he => e ?_⟩
      subst he
      exact (h.tab_pid hb hp).symm
  have hheap : ∀ b, b ≠ a → Function.update s.heap a none b = s.heap b :=
    fun b hb => Function.update_of_ne hb ..
  have hslot : ∀ q b, s.heap b = some q → b ≠ a → s.table q.pid = some b →
      Function.update s.table p.pid none q.pid = some b := by
    intro q b hq hb htb
    have e : q.pid ≠ p.pid := fun e => hb (h.same_pid hq hp htb ht e)
    rw [Function.update_of_ne e]
    exact htb
  refine ⟨fun pid b hb => ?_, fun b hb => ?_, ?_, fun b hb => ?_, fun pr b hb => ?_, h.nodup,
    fun pid b q hb hq hst hbi _ => ?_⟩
  · obtain ⟨hb', hne⟩ := htab pid b hb
    obtain ⟨h0, h1, q, hq, hqp⟩ := h.tab pid b hb'
    exact ⟨h0, h1, q, (hheap b hne).trans hq, hqp⟩
  · by_cases e : b = a
    · subst e
      exact Function.update_self ..
    · exact (hheap b e).trans (h.fresh b hb)
  · obtain ⟨i, q, hii, hit, hq, hst⟩ := h.idle
    have hne : i ≠ a := fun e => hi (by rw [← e]; exact hii)
    have h0 : q.pid = 0 := h.tab_pid hit hq
    exact ⟨i, q, hii, h0 ▸ hslot q i hq hne (h0.symm ▸ hit), (hheap i hne).trans hq, hst⟩
  · obtain ⟨q, hq, htb, hst⟩ := h.running b hb
    have hne : b ≠ a := fun e => hr (by rw [← e]; exact hb)
    exact ⟨q, (hheap b hne).trans hq, hslot q b hq hne htb, hst⟩
  · obtain ⟨hx, hbi, q, hq, hst, hpr, htb⟩ := h.queued pr b hb
    have hne : b ≠ a := fun e => hx (by rw [e])
    exact ⟨by simp, hbi, q, (hheap b hne).trans hq, hst, hpr, hslot q b hq hne htb⟩
  · obtain ⟨hb', hne⟩ := htab pid b hb
    have hq' : s.heap b = some q := (hheap b hne).symm.trans hq
    exact h.complete pid b q hb' hq' hst hbi fun e => hne (Option.some.inj e).symm

theorem removeFromProcessTable_eq {pid : Int} (h0 : 0 ≤ pid) (h1 : pid < maxProcesses) :
    removeFromProcessTable s pid = s.setSlot pid none := if_pos ⟨h0, h1⟩

theorem forgetShell_eq :
    forgetShell s a = s.setShell (if s.shell = some a then none else s.shell) := by
  unfold forgetShell
  split <;> rfl

/-- the end of `kill_process`, with the edits in another order -/
theorem killed_eq (hp : s.heap a = some p) (hi : s.idle ≠ some a) (h0 : 0 ≤ p.pid)
    (h1 : p.pid < maxProcesses) :
    freeProcessResources (forgetShell (removeFromProcessTable
      (s.modify a (Process.setState .terminated)) p.pid) a) a true
    = forgetShell ((((removeFromAllPriorityQueues s a).setRunning
        (s.runningBut a)).setSlot p.pid none).setHeap a none) a := by
  have hupd : Function.update (heapMod s.heap a (Process.setState .terminated)) a none
      = Function.update s.heap a none := Function.update_idem ..
  have hcmp := compareProcesses_modify (s := s) (a := a) (Process.setState .terminated)
    (fun _ => rfl)
  rw [removeFromProcessTable_eq h0 h1, forgetShell_eq, forgetShell_eq]
  generalize hX : ((s.modify a (Process.setState .terminated)).setSlot p.pid none).setShell _ = X
  have hXi : X.idle ≠ some a := by rw [← hX]; exact hi
  have hXp : X.heap a = some (p.setState .terminated) := by
    rw [← hX]; exact modify_heap_self _ hp
  have hXc : compareProcesses X = compareProcesses s := by rw [← hX]; exact hcmp
  show (removeProcessFromScheduler X a).setHeap a none = _
  rw [removeProcessFromScheduler_eq hXi, removeFromAll_eq hp, removeFromAll_eq hXp, hXc, ← hX]
  show Sched.mk (Function.update (heapMod s.heap a (Process.setState .terminated)) a none)
    _ _ _ _ _ _ = _
  rw [hupd]
  rfl

theorem ok_killed (h : s.Ok) (hp : s.heap a = some p) (ht : s.table p.pid = some a)
    (hi : s.idle ≠ some a) :
    (freeProcessResources (forgetShell (removeFromProcessTable
      (s.modify a (Process.setState .terminated)) p.pid) a) a true).Ok := by
  obtain ⟨h0, h1, -⟩ := h.tab _ _ ht
  rw [killed_eq hp hi h0 h1]
  exact ((But.leave h hp ht).erase (by simpa using hp) (by simpa using ht) (by simpa using hi)
    runningBut_ne).forgetShell

/-! ## collection -/

theorem Ok.idle_ne_terminated (h : s.Ok) (hp : s.heap a = some p) (hst : p.state = .terminated) :
    s.idle ≠ some a := by
  intro hi
  obtain ⟨i, q, hii, -, hq, hqs⟩ := h.idle
  obtain rfl := Option.some.inj (hi.symm.trans hii)
  obtain rfl := Option.some.inj (hp.symm.trans hq)
  rw [hst] at hqs
  exact hqs.elim (by simp) (by simp)

theorem Ok.running_ne_terminated (h : s.Ok) (hp : s.heap a = some p)
    (hst : p.state = .terminated) : s.running ≠ some a := by
  intro hr
  obtain ⟨q, hq, -, hqs⟩ := h.running a hr
  obtain rfl := Option.some.inj (hp.symm.trans hq)
  exact hqs hst

theorem ok_reapSlot (h : s.Ok) (pid : Int) : (reapSlot s pid).Ok := by
  unfold reapSlot
  cases hg : getProcess s pid with
  | none => exact h
  | some a =>
    obtain ⟨-, -, ht⟩ := getProcess_eq_some hg
    obtain ⟨h0, h1, p, hp, rfl⟩ := h.tab pid a ht
    simp only [hp]
    by_cases hst : p.state = .terminated
    · rw [if_pos hst]
      rw [removeFromProcessTable_eq h0 h1]
      exact (h.setAside hp (Or.inl (by rw [hst]; simp))).erase hp ht (h.idle_ne_terminated hp hst)
        (h.running_ne_terminated hp hst)
    · rw [if_neg hst]
      exact h

theorem ok_reapTerminatedProcesses (h : s.Ok) : (reapTerminatedProcesses s).Ok := by
  unfold reapTerminatedProcesses
  generalize allPids = l
  induction l generalizing s with
  | nil => exact h
  | cons pid l ih => exact ih (ok_reapSlot h pid)

end Sched

end Tp2So
