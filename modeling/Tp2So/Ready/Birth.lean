import Tp2So.Ready.Wakes

/-!
# The ready-queue invariant: creation and boot

A new process takes a slot that is empty or holds a TERMINATED process; slot `0` is never one of
them, since the idle process lives for ever.  `ok_createProcess` is the invariant after
`create_process`, `ok_initScheduler` the invariant after `init_scheduler`.
-/

set_option linter.unusedVariables false

namespace Tp2So
namespace Sched
variable {s : Sched} {k : Kernel} {a : Nat} {p : Process} {pid : Int}

/-! ## the slot -/

theorem mem_allPids : pid ∈ allPids ↔ 0 ≤ pid ∧ pid < maxProcesses := by
  unfold allPids maxProcesses
  rw [List.mem_map]
  constructor
  · rintro ⟨n, hn, rfl⟩
    have := List.mem_range.mp hn
    simp only [Int.ofNat_eq_natCast]
    omega
  · rintro ⟨h0, h1⟩
    exact ⟨pid.toNat, List.mem_range.mpr (by omega), by simp only [Int.ofNat_eq_natCast]; omega⟩

theorem assignPid_spec (h : assignPid s = some pid) :
    0 ≤ pid ∧ pid < maxProcesses ∧ slotFree s pid = true := by
  obtain ⟨h0, h1⟩ := mem_allPids.mp (List.mem_of_find?_eq_some h)
  exact ⟨h0, h1, List.find?_some h⟩

theorem slotFree_terminated (hf : slotFree s pid = true) (ht : s.table pid = some a)
    (hp : s.heap a = some p) : p.state = .terminated := by
  unfold slotFree at hf
  simp only [ht, hp] at hf
  exact beq_iff_eq.mp hf

theorem Ok.slot_pos (h : s.Ok) (hf : slotFree s pid = true) : pid ≠ 0 := by
  rintro rfl
  obtain ⟨i, p, hi, ht, hp, hst⟩ := h.idle
  exact h.idle_ne_terminated hp (slotFree_terminated hf ht hp) hi

/-- a new control block in a free slot, not yet in a queue -/
def publish (s : Sched) (p : Process) : Sched :=
  { (s.setHeap s.next (some p)).setSlot p.pid (some s.next) with next := s.next + 1 }

theorem Ok.publish (h : s.Ok) (h0 : 0 ≤ p.pid) (h1 : p.pid < maxProcesses)
    (hf : slotFree s p.pid = true) : (s.publish p).But (some s.next) := by
  have hheap : ∀ b q, s.heap b = some q → (s.publish p).heap b = some q := by
    intro b q hq
    have hne : b ≠ s.next := Nat.ne_of_lt (h.lt_next hq)
    exact (Function.update_of_ne hne ..).trans hq
  have hslot : ∀ b q, s.heap b = some q → q.state ≠ .terminated → s.table q.pid = some b →
      (s.publish p).table q.pid = some b := by
    intro b q hq hst ht
    have hne : q.pid ≠ p.pid := fun e => hst (slotFree_terminated hf (e ▸ ht) hq)
    exact (Function.update_of_ne hne ..).trans ht
  have htab : ∀ pid b, (s.publish p).table pid = some b →
      (pid = p.pid ∧ b = s.next) ∨ s.table pid = some b := by
    intro pid b hb
    by_cases e : pid = p.pid
    · subst e
      have hself : (s.publish p).table p.pid = some s.next := Function.update_self ..
      exact Or.inl ⟨rfl, (Option.some.inj (hself.symm.trans hb)).symm⟩
    · exact Or.inr ((Function.update_of_ne e ..).symm.trans hb)
  refine ⟨fun pid b hb => ?_, fun b hb => ?_, ?_, fun b hb => ?_, fun pr b hb => ?_, h.nodup,
    fun pid b q hb hq hst hi hx => ?_⟩
  · rcases htab pid b hb with ⟨rfl, rfl⟩ | hb
    · exact ⟨h0, h1, p, Function.update_self .., rfl⟩
    · obtain ⟨hp0, hp1, q, hq, hqp⟩ := h.tab pid b hb
      exact ⟨hp0, hp1, q, hheap b q hq, hqp⟩
  · have hb' : s.next + 1 ≤ b := hb
    have hne : b ≠ s.next := by omega
    exact (Function.update_of_ne hne ..).trans (h.fresh b (by omega))
  · obtain ⟨i, q, hi, ht, hq, hst⟩ := h.idle
    have hpid : q.pid = 0 := h.tab_pid ht hq
    have hnt : q.state ≠ .terminated := fun e => h.idle_ne_terminated hq e hi
    exact ⟨i, q, hi, hpid ▸ hslot i q hq hnt (hpid.symm ▸ ht), hheap i q hq, hst⟩
  · obtain ⟨q, hq, ht, hst⟩ := h.running b hb
    exact ⟨q, hheap b q hq, hslot b q hq hst ht, hst⟩
  · obtain ⟨-, hi, q, hq, hst, hpr, ht⟩ := h.queued pr b hb
    have hne : b ≠ s.next := Nat.ne_of_lt (h.lt_next hq)
    exact ⟨fun e => hne (Option.some.inj e).symm, hi, q, hheap b q hq, hst, hpr,
      hslot b q hq (by rw [hst]; simp) ht⟩
  · have hne : b ≠ s.next := fun e => hx (by rw [e])
    rcases htab pid b hb with ⟨-, e⟩ | hb
    · exact absurd e hne
    · exact h.complete pid b q hb ((Function.update_of_ne hne ..).symm.trans hq) hst hi (by simp)

/-! ## `create_process` -/

theorem enterChild_keeps {P : Sched → Prop}
    (hq : ∀ s a f, P s → Process.Still f → P (s.modify a f)) (pid : Int) (h : P s) :
    P (enterChild s pid).2 := by
  unfold enterChild
  split
  · exact h
  · split
    · exact h
    · split
      · exact h
      · refine hq _ _ _ h ⟨fun p => ?_, fun p => ?_⟩
        · simp only
          split <;> exact ⟨rfl, rfl, rfl⟩
        · simp only
          split <;> exact ⟨⟨rfl, rfl⟩, rfl, rfl⟩

theorem attachReader_sched (k : Kernel) (id : Nat) : (attachReader k id).2.sched = k.sched := by
  unfold attachReader
  split <;> rfl

theorem attachWriter_sched (k : Kernel) (id : Nat) : (attachWriter k id).2.sched = k.sched := by
  unfold attachWriter
  split <;> rfl

theorem openPipe_sched (k : Kernel) (recycled : Nat → UInt8) :
    (openPipe k recycled).2.sched = k.sched := by
  unfold openPipe
  split
  · rfl
  · simp only
    split
    · rfl
    · split <;> rfl

/-- what `publishProcess` does to the scheduler, for a process other than the idle one -/
theorem publishProcess_sched (k : Kernel) (hpid : p.pid ≠ 0) :
    (publishProcess k p).2.sched
      = reapTerminatedProcesses (addToScheduler (k.sched.publish p) k.sched.next) := by
  have hr : ∀ (c : Bool) (k : Kernel) (id : Nat),
      (if c then (attachReader k id).2 else k).sched = k.sched := by
    intro c k id
    cases c
    · rfl
    · exact attachReader_sched k id
  have hw : ∀ (c : Bool) (k : Kernel) (id : Nat),
      (if c then (attachWriter k id).2 else k).sched = k.sched := by
    intro c k id
    cases c
    · rfl
    · exact attachWriter_sched k id
  unfold publishProcess
  simp only [if_neg hpid]
  rw [hw, hr]
  cases buildWaitSemaphoreName p.pid <;> rfl

theorem slotFree_quiet {f : Process → Process} (hf : Process.Quiet f) :
    slotFree (s.modify a f) pid = slotFree s pid := by
  unfold slotFree
  rw [modify_table]
  cases ht : s.table pid with
  | none => rfl
  | some b =>
    by_cases e : b = a
    · subst e
      simp only [modify_heap, heapMod_self]
      cases s.heap b with
      | none => rfl
      | some q => exact congrArg (· == ProcessState.terminated) (hf q).2.1
    · simp only [modify_heap, heapMod_of_ne _ _ e]

theorem ok_publishProcess (h : k.sched.Ok) (hf : slotFree k.sched p.pid = true) (h0 : 0 ≤ p.pid)
    (h1 : p.pid < maxProcesses) : (publishProcess k p).2.sched.Ok := by
  rw [publishProcess_sched k (h.slot_pos hf)]
  have hself : (k.sched.publish p).heap k.sched.next = some p := Function.update_self ..
  have hslot : (k.sched.publish p).table p.pid = some k.sched.next := Function.update_self ..
  exact ok_reapTerminatedProcesses ((h.publish h0 h1 hf).enter hself hslot)

/-- **`create_process` keeps the invariant**, whether it succeeds or not. -/
theorem ok_createProcess (h : k.sched.Ok) (args : CreateArgs) :
    (createProcess k args).2.sched.Ok := by
  rcases createProcess_cases k args with hk | ⟨pid, hpid, hk⟩
  · rw [hk]
    exact h
  · obtain ⟨h0, h1, hf⟩ := assignPid_spec hpid
    have hkeep := enterChild_keeps (s := k.sched)
      (P := fun s => s.Ok ∧ slotFree s pid = true)
      (fun s a f hs hq => ⟨hs.1.quiet a hq.1, by rw [slotFree_quiet hq.1]; exact hs.2⟩) pid ⟨h, hf⟩
    rcases hk with hk | ⟨argv, -, hk⟩
    · rw [hk]
      exact hkeep.1
    · rw [hk]
      exact ok_publishProcess (k := { k with sched := _ }) hkeep.1 hkeep.2 h0 h1

/-! ## boot -/

theorem reapTerminatedProcesses_eq_self
    (h : ∀ pid a p, s.table pid = some a → s.heap a = some p → p.state ≠ .terminated) :
    reapTerminatedProcesses s = s := by
  have hstep : ∀ pid, reapSlot s pid = s := by
    intro pid
    unfold reapSlot
    split
    · rfl
    · split
      · rfl
      · rename_i hg _ _ hp
        exact if_neg (h _ _ _ (getProcess_eq_some hg).2.2 hp)
  unfold reapTerminatedProcesses
  generalize allPids = l
  induction l with
  | nil => rfl
  | cons pid l ih =>
    rw [List.foldl_cons, hstep]
    exact ih

/-- the block of the idle process -/
def idleProcess (stackBase : Nat) (recycled : List Int) : Process :=
  newProcess (idleArgs stackBase recycled) 0 0 [['i', 'd', 'l', 'e']]

/-- the globals of the scheduler after boot -/
def bootSched (stackBase : Nat) (recycled : List Int) : Sched where
  heap := Function.update (fun _ => none) 0
    (some ((idleProcess stackBase recycled).setState .running))
  next := 1
  table := Function.update (fun _ => none) 0 (some 0)
  ready := fun _ => createQueue
  running := some 0
  idle := some 0
  shell := none

theorem publishProcess_zero (hpid : p.pid = 0) (hr : isPipe p.readTarget = false)
    (hw : isPipe p.writeTarget = false) :
    publishProcess k p = (some k.sched.next, { k with
      sched := reapTerminatedProcesses (k.sched.publish p) }) := by
  unfold publishProcess
  rw [hr, hw]
  simp only [if_pos hpid, Bool.false_eq_true, if_false]
  rfl

/-- the table after the first `create_process`: slot `0` is the only one in use -/
theorem publish_empty_table {pid : Int} (hp : p.pid = 0)
    (ht : (emptyKernel.sched.publish p).table pid = some a) : pid = 0 ∧ a = 0 := by
  by_cases e : pid = 0
  · subst e
    have hself : (emptyKernel.sched.publish p).table 0 = some 0 := by
      rw [← hp]
      exact Function.update_self ..
    exact ⟨rfl, (Option.some.inj (hself.symm.trans ht)).symm⟩
  · have hnone : (emptyKernel.sched.publish p).table pid = none := by
      have hne : pid ≠ p.pid := by rw [hp]; exact e
      exact Function.update_of_ne hne ..
    exact absurd (hnone.symm.trans ht) (by simp)

theorem createProcess_empty (stackBase : Nat) (recycled : List Int) :
    createProcess emptyKernel (idleArgs stackBase recycled) = (some 0, { emptyKernel with
      sched := emptyKernel.sched.publish (idleProcess stackBase recycled) }) := by
  have hpid : assignPid emptyKernel.sched = some 0 := rfl
  have hargc : ¬ (idleArgs stackBase recycled).argc ≤ 0 := by
    show ¬ (1 : Int) ≤ 0
    decide
  have hrsp : ¬ (stackInit (stackBase + processStackSize) < stackBase ∨
      stackBase + processStackSize ≤ stackInit (stackBase + processStackSize)) := by
    unfold stackInit processStackSize
    omega
  have hreap : reapTerminatedProcesses (emptyKernel.sched.publish (idleProcess stackBase recycled))
      = emptyKernel.sched.publish (idleProcess stackBase recycled) := by
    refine reapTerminatedProcesses_eq_self fun pid a p ht hp hst => ?_
    obtain ⟨rfl, rfl⟩ := publish_empty_table (p := idleProcess stackBase recycled) rfl ht
    have hself : (emptyKernel.sched.publish (idleProcess stackBase recycled)).heap 0
        = some (idleProcess stackBase recycled) := rfl
    obtain rfl := Option.some.inj (hself.symm.trans hp)
    exact absurd hst (by simp [idleProcess, newProcess])
  have hpub : publishProcess emptyKernel (idleProcess stackBase recycled) = (some 0,
      { emptyKernel with sched := emptyKernel.sched.publish (idleProcess stackBase recycled) }) := by
    rw [publishProcess_zero rfl rfl rfl, hreap]
    rfl
  unfold createProcess
  simp only [hpid]
  rw [← hpub]
  exact (if_neg hargc).trans (if_neg hrsp)

theorem initScheduler_eq (stackBase : Nat) (recycled : List Int) :
    initScheduler stackBase recycled
      = { emptyKernel with sched := bootSched stackBase recycled } := by
  have hheap : Function.update (Function.update (fun _ => none) 0
      (some (idleProcess stackBase recycled))) 0
        (some ((idleProcess stackBase recycled).setState .running))
      = Function.update (fun _ => none) 0
        (some ((idleProcess stackBase recycled).setState .running)) := Function.update_idem ..
  unfold initScheduler
  rw [createProcess_empty]
  unfold bootSched
  rw [← hheap]
  rfl

theorem ok_bootSched (stackBase : Nat) (recycled : List Int) :
    (bootSched stackBase recycled).Ok := by
  have htab : ∀ pid a, (bootSched stackBase recycled).table pid = some a → pid = 0 ∧ a = 0 :=
    fun pid a => publish_empty_table (p := idleProcess stackBase recycled) rfl
  have hself : (bootSched stackBase recycled).heap 0
      = some ((idleProcess stackBase recycled).setState .running) := rfl
  refine ⟨fun pid a ht => ?_, fun a ha => ?_, ?_, fun a ha => ?_, fun pr a ha => ?_, fun pr => ?_,
    fun pid a p ht hp hst hi _ => ?_⟩
  · obtain ⟨rfl, rfl⟩ := htab pid a ht
    exact ⟨Int.le_refl 0, by decide, _, hself, rfl⟩
  · have hne : a ≠ 0 := Nat.ne_of_gt ha
    exact Function.update_of_ne (f := fun _ => none) hne ..
  · exact ⟨0, _, rfl, rfl, hself, Or.inr rfl⟩
  · obtain rfl := Option.some.inj ha
    exact ⟨_, hself, rfl, by simp⟩
  · exact absurd ha List.not_mem_nil
  · exact List.nodup_nil
  · obtain ⟨rfl, rfl⟩ := htab pid a ht
    exact absurd rfl hi

end Sched

end Tp2So
