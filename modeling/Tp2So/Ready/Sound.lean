import Tp2So.Ready.Rules

/-!
# The ready queues under every system call

The runs of `Ready.Runs` make the steps that touch the queues by name.  Here they are made of all the
calls of the kernel: semaphores, pipes and waiting reach the queues too, by blocking and waking.

* `Sched.Short`       no process has more than the default quantum, so that it is over at its first tick;
* `Sched.Sound`       the invariant of the ready queues, and `Short`;
* `GuardOp.settled`   a change of priority does not misplace a process, and the idle process, which
                      loops for ever, does not exit;
* `short_step`        every step keeps `Short`;
* `sound_step`        a settled step keeps both.
-/

set_option linter.unusedVariables false

namespace Tp2So

def Sched.Short (s : Sched) : Prop := ∀ a p, s.heap a = some p → p.quantumRemaining ≤ defaultQuantum

structure Sched.Sound (s : Sched) : Prop where
  ok : s.Ok
  short : s.Short

def GuardOp.settled : GuardOp → Kernel → Bool
  | .setPriority pid pr, k => (ReadyOp.setPriority pid pr).settled k
  | .terminatorNotify, k => k.sched.running != k.sched.idle
  | .terminatorLeave, k => k.sched.running != k.sched.idle
  | _, _ => true

namespace Sched
variable {s t u : Sched} {k k' : Kernel} {a b : Nat} {p q : Process} {pid pr : Int}
  {f : Process → Process}

/-! ## quanta -/

theorem Short.around (h : s.Short) (hh : t.heap = s.heap) : t.Short := fun a p hp =>
  h a p (by rw [← hh]; exact hp)

theorem Short.modify (h : s.Short) (a : Nat)
    (hf : ∀ p, p.quantumRemaining ≤ defaultQuantum → (f p).quantumRemaining ≤ defaultQuantum) :
    (s.modify a f).Short := by
  intro b q hq
  obtain ⟨p, hp, rfl⟩ := heapMod_some hq
  split
  · exact hf p (h b p hp)
  · exact h b p hp

/-- an edit that does not look at the quantum -/
theorem Short.keep (h : s.Short) (a : Nat) (hf : ∀ p, (f p).quantumRemaining = p.quantumRemaining) :
    (s.modify a f).Short := h.modify a fun p hp => Int.le_trans (Int.le_of_eq (hf p)) hp

theorem Short.erase (h : s.Short) (a : Nat) : (s.setHeap a none).Short := by
  intro b q hq
  have hq' : Function.update s.heap a none b = some q := hq
  by_cases e : b = a
  · rw [e, Function.update_self] at hq'
    exact absurd hq' (by simp)
  · rw [Function.update_of_ne e] at hq'
    exact h b q hq'

theorem Short.publish (h : s.Short) (hp : p.quantumRemaining ≤ defaultQuantum) :
    (s.publish p).Short := by
  intro b q hq
  have hq' : Function.update s.heap s.next (some p) b = some q := hq
  by_cases e : b = s.next
  · rw [e, Function.update_self] at hq'
    obtain rfl := Option.some.inj hq'
    exact hp
  · rw [Function.update_of_ne e] at hq'
    exact h b q hq'

theorem short_addToScheduler (h : s.Short) (a : Nat) : (addToScheduler s a).Short := by
  unfold addToScheduler
  split
  · exact h
  · have hm := h.keep a (f := Process.setState .ready) fun _ => rfl
    simp only
    split
    · exact hm
    · exact hm.around rfl

theorem short_unblockProcess (h : s.Short) (a : Nat) : (unblockProcess s a).2.Short := by
  rcases unblockProcess_cases s a with hun | ⟨p, -, -, -, -, hun⟩
  · rw [hun]
    exact h
  · rw [hun]
    exact short_addToScheduler (h.keep a (f := Process.setState .ready) fun _ => rfl) a

theorem short_blockProcess (h : s.Short) (a : Nat) : (blockProcess s a).2.Short := by
  rcases blockProcess_cases s a with hbl | ⟨p, -, -, -, -, -, hbl⟩
  · rw [hbl]
    exact h
  · rw [hbl]
    have hrem : (removeFromAllPriorityQueues s a).Short := h.around (removeFromAll_heap s a)
    exact (hrem.keep a (f := Process.setState .blocked) fun _ => rfl).keep a
      (f := Process.setWaitTicks 0) fun _ => rfl

theorem short_removeFromTable (h : s.Short) (pid : Int) : (removeFromProcessTable s pid).Short := by
  unfold removeFromProcessTable
  split
  · exact h.around rfl
  · exact h

theorem short_reap (h : s.Short) : (reapTerminatedProcesses s).Short := by
  unfold reapTerminatedProcesses
  refine List.foldlRecOn allPids reapSlot h fun t ht pid _ => ?_
  unfold reapSlot
  split
  · exact ht
  · split
    · exact ht
    · split
      · exact (short_removeFromTable ht _).erase _
      · exact ht

/-! ## calls -/

theorem Ok.known (h : s.Ok) (ha : s.known a) : ∃ pid, s.table pid = some a := by
  rcases ha with hr | ⟨pid, hg⟩
  · obtain ⟨p, -, ht, -⟩ := h.running a hr
    exact ⟨p.pid, ht⟩
  · exact ⟨pid, (getProcess_eq_some hg).2.2⟩

theorem callRule_short : CallRule Short Short where
  last h := h
  wake _ h := short_unblockProcess h _
  block _ h := short_blockProcess h _
  edit a _ h hf := h.modify a fun p hp =>
    Int.le_trans (hf.quantum p) (Int.max_le.mpr ⟨hp, Int.le_refl _⟩)
  reap h := short_reap h

theorem callRule_ok : CallRule Ok Ok where
  last h := h
  wake hg h := ok_unblockProcess h (getProcess_eq_some hg).2.2
  block ha h := by
    obtain ⟨pid, ht⟩ := h.known ha
    exact ok_blockProcess h ht
  edit a _ h hf := h.quiet a fun p => ⟨hf.pid p, hf.state p, hf.priority p⟩
  reap h := ok_reapTerminatedProcesses h

theorem callRule_sound : CallRule Sound Sound where
  last h := h
  wake hg h := ⟨callRule_ok.wake hg h.ok, callRule_short.wake hg h.short⟩
  block ha h := ⟨callRule_ok.block ha h.ok, callRule_short.block ha h.short⟩
  edit a _ h hf := ⟨callRule_ok.edit a h.ok hf, callRule_short.edit a h.short hf⟩
  reap h := ⟨callRule_ok.reap h.ok, callRule_short.reap h.short⟩

theorem short_setPriority (h : s.Short) (pid pr : Int) : (setPriority s pid pr).2.Short := by
  unfold setPriority
  split
  · split
    · exact h
    · exact h.modify _ fun _ _ => Int.le_refl _
  · exact h

theorem short_forgetShell (h : s.Short) (a : Nat) : (forgetShell s a).Short := by
  unfold forgetShell
  split
  · exact h.around rfl
  · exact h

theorem short_removeProcess (h : s.Short) (a : Nat) : (removeProcessFromScheduler s a).Short := by
  unfold removeProcessFromScheduler
  split
  · exact h
  · have hrem : (removeFromAllPriorityQueues s a).Short := h.around (removeFromAll_heap s a)
    simp only
    split
    · exact hrem.around rfl
    · exact hrem

theorem short_killProcess (h : k.sched.Short) (pid : Int) : (killProcess k pid).2.sched.Short := by
  rcases killProcess_cases k pid with hk | ⟨a, p, -, -, -, hk⟩
  · rw [hk]
    exact h
  · have hw := callRule_short.windUp h p pid
    rw [hk]
    have hdead : ((windUp k p pid).sched.modify a (Process.setState .terminated)).Short :=
      hw.keep a fun _ => rfl
    generalize (windUp k p pid).sched.modify a (Process.setState .terminated) = s₁ at hdead ⊢
    have htab := short_removeFromTable hdead pid
    exact (short_removeProcess (short_forgetShell htab a) a).erase a

theorem short_terminatorLeave (h : s.Short) (a : Nat) : (terminatorLeave s a).Short := by
  have hrem := short_removeProcess (h.keep a (f := Process.setState .terminated) fun _ => rfl) a
  unfold terminatorLeave
  simp only
  refine short_forgetShell ?_ a
  split
  · exact hrem.around rfl
  · exact hrem

theorem short_createProcess (h : k.sched.Short)
    (h0 : ∀ pid, assignPid k.sched = some pid → pid ≠ 0) (args : CreateArgs) :
    (createProcess k args).2.sched.Short := by
  rcases createProcess_cases k args with hk | ⟨pid, hpid, hk⟩
  · rw [hk]
    exact h
  · have henter := callRule_short.enterChild h pid
    rcases hk with hk | ⟨argv, -, hk⟩
    · rw [hk]
      exact henter
    · have hpid0 : pid ≠ 0 := h0 pid hpid
      rw [hk, publishProcess_sched _ hpid0]
      exact short_reap (short_addToScheduler (henter.publish (Int.le_refl _)) _)

/-! ## the tick -/

theorem short_applyAging {fuel : Nat} (h : s.Short) (hs : applyAging fuel s = some t) : t.Short := by
  have hrule : AgingRule Short := by
    refine ⟨fun h _ => h.around rfl, fun {s pr a p} h _ _ _ => ?_⟩
    have hticks : ∀ n, (s.modify a (Process.setWaitTicks n)).Short := fun n => h.keep a fun _ => rfl
    unfold ageProcess
    simp only
    split
    · have hpr := (hticks (p.waitTicks + 1)).keep a (f := Process.setPriority maxPriority) fun _ => rfl
      unfold boost
      generalize (s.modify a (Process.setWaitTicks (p.waitTicks + 1))).modify a
        (Process.setPriority maxPriority) = s₁ at hpr ⊢
      have hmove : ∀ q q', ((s₁.setQueue pr q).setQueue maxPriority q').Short :=
        fun _ _ => hpr.around rfl
      exact (hmove _ _).keep a fun _ => rfl
    · exact hticks _
  exact hrule.pass h hs

theorem preempt_short {rsp : Nat} (h : s.Short) {r : Sched ⊕ Sched} (hr : preempt rsp s = some r) :
    ∃ u, r = .inr u ∧ u.Short := by
  unfold preempt at hr
  cases hrun : s.running with
  | none =>
    simp only [hrun] at hr
    exact ⟨s, (Option.some.inj hr).symm, h⟩
  | some a =>
    cases hp : s.heap a with
    | none =>
      simp only [hrun, hp] at hr
      exact absurd hr (by simp)
    | some p =>
      have h1 := h.keep a (f := Process.setRsp rsp) fun _ => rfl
      simp only [hrun, hp] at hr
      split at hr
      · exact ⟨_, (Option.some.inj hr).symm, h1.around rfl⟩
      · exact ⟨_, (Option.some.inj hr).symm, h1.around rfl⟩
      · exact ⟨_, (Option.some.inj hr).symm, h1⟩
      · have hle := h a p hp
        have hover : ¬ 0 < p.quantumRemaining - 1 := by
          have hone : p.quantumRemaining ≤ 1 := hle
          omega
        rw [if_neg hover] at hr
        refine ⟨_, (Option.some.inj hr).symm, short_addToScheduler ?_ a⟩
        have h2 := h1.modify a (f := Process.setQuantum (p.quantumRemaining - 1)) fun _ _ => by
          show p.quantumRemaining - 1 ≤ 1
          have hone : p.quantumRemaining ≤ 1 := hle
          omega
        exact (h2.modify a (f := Process.setQuantum defaultQuantum) fun _ _ => Int.le_refl _).keep a
          fun _ => rfl

theorem short_runIdle {r : Nat × Sched} (h : s.Short) (hr : runIdle s = some r) : r.2.Short := by
  unfold runIdle at hr
  split at hr
  · exact absurd hr (by simp)
  · split at hr
    · exact absurd hr (by simp)
    · obtain rfl := Option.some.inj hr
      exact (h.keep _ (f := Process.setState .running) fun _ => rfl).around rfl

theorem short_dispatch {next : Option Nat} {r : Nat × Sched} (h : s.Short)
    (hr : dispatch next s = some r) : r.2.Short := by
  unfold dispatch at hr
  split at hr
  · exact short_runIdle h hr
  · rename_i a
    split at hr
    · exact absurd hr (by simp)
    · split at hr
      · exact short_runIdle h hr
      · have h1 := (h.keep a (f := Process.setState .running) fun _ => rfl).modify a
          (f := Process.setQuantum defaultQuantum) fun _ _ => Int.le_refl _
        have h2 : (resetAging (((s.modify a (Process.setState .running)).modify a
            (Process.setQuantum defaultQuantum)).setRunning (some a)) a).Short := by
          unfold resetAging
          split
          · exact h1.around rfl
          · exact (h1.around (t := setRunning _ (some a)) rfl).keep a fun _ => rfl
        simp only at hr
        split at hr
        · exact short_runIdle h2 hr
        · exact Option.some.inj hr ▸ h2

theorem short_schedule {fuel rsp : Nat} {r : Nat × Sched} (h : s.Short)
    (hs : schedule fuel rsp s = some r) : r.2.Short := by
  obtain ⟨s₁, ha, ⟨s₂, hp, -⟩ | ⟨s₂, next, s₃, hp, hsel, hd⟩⟩ := schedule_parts hs
  · obtain ⟨u, hu, -⟩ := preempt_short (short_applyAging h ha) hp
    cases hu
  · obtain ⟨u, hu, hshort⟩ := preempt_short (short_applyAging h ha) hp
    obtain rfl := Sum.inr.inj hu
    exact short_dispatch (selectNext_keeps (fun _ h => h.around rfl) _ hshort hsel) hd

/-! ## steps -/

/-- **No quantum is longer than the default one**, whatever the step. -/
theorem short_step {o : GuardOp} (h : k.sched.Short)
    (h0 : ∀ pid, assignPid k.sched = some pid → pid ≠ 0) (hk : execGuard o k = some k') :
    k'.sched.Short := by
  by_cases hplain : o.plain = true
  · exact callRule_short.call o hplain h hk
  · cases o with
    | kill pid => exact Option.some.inj hk ▸ short_killProcess h pid
    | ctrlC =>
      obtain rfl := Option.some.inj hk
      unfold killForegroundProcesses
      split
      · exact h
      · split
        · exact h
        · split
          · exact short_killProcess h _
          · exact h
    | terminatorLeave =>
      obtain ⟨a, -, rfl⟩ := Option.map_eq_some_iff.mp hk
      exact short_terminatorLeave h a
    | create args => exact Option.some.inj hk ▸ short_createProcess h h0 args
    | createShell b recycled =>
      have hs := short_createProcess h h0 (bootArgs ['s', 'h', 'e', 'l', 'l'] true b recycled)
      exact Option.some.inj hk ▸ hs.around rfl
    | setPriority pid pr => exact Option.some.inj hk ▸ short_setPriority h pid pr
    | schedule fuel rsp =>
      obtain ⟨r, hr, rfl⟩ := Option.map_eq_some_iff.mp hk
      exact short_schedule h hr
    | _ => exact absurd rfl hplain

/-- **The queues stay right**, if the step is settled. -/
theorem ok_call {o : GuardOp} (h : k.sched.Ok) (hc : o.settled k) (hk : execGuard o k = some k') :
    k'.sched.Ok := by
  by_cases hplain : o.plain = true
  · exact callRule_ok.call o hplain h hk
  · cases o with
    | kill pid => exact Option.some.inj hk ▸ ok_killProcess h pid
    | ctrlC =>
      obtain rfl := Option.some.inj hk
      unfold killForegroundProcesses
      split
      · exact h
      · split
        · exact h
        · split
          · exact ok_killProcess h _
          · exact h
    | terminatorLeave =>
      obtain ⟨a, hr, rfl⟩ := Option.map_eq_some_iff.mp hk
      have hne : k.sched.running ≠ k.sched.idle := bne_iff_ne.mp hc
      obtain ⟨p, hp, ht, -⟩ := h.running a hr
      exact ok_terminatorLeave h hp ht fun hi => hne (hr.trans hi.symm)
    | create args => exact Option.some.inj hk ▸ ok_createProcess h args
    | createShell b recycled =>
      have hs := ok_createProcess h (bootArgs ['s', 'h', 'e', 'l', 'l'] true b recycled)
      exact Option.some.inj hk ▸ hs.shell _
    | setPriority pid pr => exact Option.some.inj hk ▸ ok_setPriority h hc
    | schedule fuel rsp =>
      obtain ⟨r, hr, rfl⟩ := Option.map_eq_some_iff.mp hk
      exact ok_schedule h hr
    | _ => exact absurd rfl hplain

theorem Ok.assigned (h : s.Ok) : ∀ pid, assignPid s = some pid → pid ≠ 0 := fun _ hp =>
  h.slot_pos (assignPid_spec hp).2.2

/-- **One step**, of any kind. -/
theorem sound_step (o : GuardOp) (k k' : Kernel) (h : k.sched.Sound) (hc : o.settled k)
    (hk : execGuard o k = some k') : k'.sched.Sound :=
  ⟨ok_call h.ok hc hk, short_step h.short h.ok.assigned hk⟩

/-! ## boot -/

theorem short_bootSched (idleStack : Nat) (idleRecycled : List Int) :
    (bootSched idleStack idleRecycled).Short := by
  intro a p hp
  by_cases e : a = 0
  · rw [e] at hp
    have hself : (bootSched idleStack idleRecycled).heap 0
        = some ((idleProcess idleStack idleRecycled).setState .running) := rfl
    obtain rfl := Option.some.inj (hself.symm.trans hp)
    exact Int.le_refl _
  · have hnone : (bootSched idleStack idleRecycled).heap a = none :=
      Function.update_of_ne (f := fun _ => none) e ..
    exact absurd (hnone.symm.trans hp) (by simp)

/-- the kernel when `main` has created the init process -/
theorem sound_bootKernel (idleStack : Nat) (idleRecycled : List Int) (initStack : Nat)
    (initRecycled : List Int) :
    (bootKernel idleStack idleRecycled initStack initRecycled).sched.Sound := by
  obtain ⟨k, hk⟩ : ∃ k : Kernel, k = { initScheduler idleStack idleRecycled with
    sems := keyboardSemInit (initScheduler idleStack idleRecycled).sems } := ⟨_, rfl⟩
  have hsched : k.sched.Sound := by
    rw [hk]
    show (initScheduler idleStack idleRecycled).sched.Sound
    rw [initScheduler_eq]
    exact ⟨ok_bootSched idleStack idleRecycled, short_bootSched idleStack idleRecycled⟩
  have hboot : (createProcess k (bootArgs ['i', 'n', 'i', 't'] false initStack
      initRecycled)).2.sched.Sound :=
    ⟨ok_createProcess hsched.ok _, short_createProcess hsched.short hsched.ok.assigned _⟩
  rw [hk] at hboot
  exact hboot

end Sched

end Tp2So
