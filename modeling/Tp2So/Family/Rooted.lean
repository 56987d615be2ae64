import Tp2So.Family.Collect
import Tp2So.Family.Vitals
import Tp2So.Ready.Runs
import Tp2So.Ready.Wakes

/-!
# The process table in every run

Whatever the ready queues look like, and with every change of priority allowed: a slot holds the
control block with its pid, every live process is in its slot, and the running and the idle process
are live.

* `Sched.Rooted`        the invariant;
* `Sched.Tabled`        what a death needs of it;
* `Rooted.congr`        it depends on the census, the idle and the running process only;
* `Rooted.waitChild`    `wait_child` keeps it too;
* `rooted_step`, `rooted_run`   every step keeps it, so that it holds in every state of every run.
-/

set_option linter.unusedVariables false

namespace Tp2So

/-- an existing process that is not TERMINATED -/
def Sched.Living (s : Sched) (a : Nat) : Prop := ∃ p, s.heap a = some p ∧ p.state ≠ .terminated

structure Sched.Rooted (s : Sched) : Prop where
  slots : s.Slots
  fresh : ∀ a, s.next ≤ a → s.heap a = none
  listed : s.census.Listed
  running : ∀ a, s.running = some a → s.Living a
  idle : ∃ i, s.idle = some i ∧ s.table 0 = some i ∧ s.Living i

/-- the slots are right, the running process is in its slot, and the idle process is in slot `0` -/
structure Sched.Tabled (s : Sched) : Prop where
  slots : s.Slots
  running : ∀ a, s.running = some a → ∃ p, s.heap a = some p ∧ s.table p.pid = some a
  idle : ∀ a, s.idle = some a → s.table 0 = some a

namespace Sched
variable {s t : Sched} {k k' : Kernel} {a b : Nat} {p : Process} {pid : Int}

/-! ## what the invariant depends on -/

theorem living_iff : s.Living a ↔ ∃ pid, s.census.cell a = some (pid, false) := by
  constructor
  · rintro ⟨p, hp, hst⟩
    refine ⟨p.pid, (cell_eq hp).trans ?_⟩
    rw [beq_false_of_ne hst]
  · rintro ⟨pid, hc⟩
    obtain ⟨p, hp, hv⟩ := of_cell hc
    refine ⟨p, hp, fun hst => ?_⟩
    rw [hst] at hv
    exact absurd hv (by simp)

theorem living_congr (hc : t.census.cell a = s.census.cell a) : t.Living a ↔ s.Living a := by
  rw [living_iff, living_iff, hc]

theorem Rooted.slot (h : s.Rooted) (hp : s.heap a = some p) (hst : p.state ≠ .terminated) :
    s.table p.pid = some a := by
  apply h.listed
  rw [cell_eq hp, beq_false_of_ne hst]

theorem Rooted.tabled (h : s.Rooted) : s.Tabled where
  slots := h.slots
  running a ha := by
    obtain ⟨p, hp, hst⟩ := h.running a ha
    exact ⟨p, hp, h.slot hp hst⟩
  idle a ha := by
    obtain ⟨i, hi, ht, -⟩ := h.idle
    obtain rfl := Option.some.inj (ha.symm.trans hi)
    exact ht

theorem Rooted.congr (h : s.Rooted) (hc : t.census = s.census) (hi : t.idle = s.idle)
    (hr : ∀ a, t.running = some a → s.running = some a ∨ s.Living a) : t.Rooted := by
  have hcell : ∀ a, t.census.cell a = s.census.cell a := fun a => by rw [hc]
  have htab : t.table = s.table := congrArg Census.table hc
  have hnext : t.next = s.next := congrArg Census.next hc
  refine ⟨h.slots.congr htab fun a => ?_, fun a ha => ?_, ?_, fun a ha => ?_, ?_⟩
  · have hv := congrArg (Option.map Prod.fst) (hcell a)
    unfold census at hv
    simp only [Option.map_map] at hv
    exact hv
  · have hnone : s.census.cell a = none := by
      show (s.heap a).map _ = none
      rw [h.fresh a (hnext ▸ ha)]
      rfl
    exact Option.map_eq_none_iff.mp ((hcell a).trans hnone)
  · rw [hc]
    exact h.listed
  · rw [living_congr (hcell a)]
    exact (hr a ha).elim (h.running a) id
  · obtain ⟨i, hii, ht, hl⟩ := h.idle
    exact ⟨i, hi.trans hii, htab ▸ ht, (living_congr (hcell i)).mpr hl⟩

theorem Rooted.same (h : s.Rooted) (hc : t.census = s.census) (hs : Same s t) : t.Rooted :=
  h.congr hc hs.idle fun a ha => Or.inl (hs.running ▸ ha)

theorem Rooted.modify (h : s.Rooted) {f : Process → Process} (hf : ∀ p, (f p).vital = p.vital)
    (a : Nat) : (s.modify a f).Rooted :=
  h.congr (census_modify fun p _ => hf p) rfl fun _ => Or.inl

theorem Rooted.setQueue (h : s.Rooted) (pr : Priority) (q : Queue Nat) : (s.setQueue pr q).Rooted :=
  h.congr rfl rfl fun _ => Or.inl

theorem Rooted.stop (h : s.Rooted) : (s.setRunning none).Rooted :=
  h.congr rfl rfl fun _ ha => absurd ha (by simp)

theorem Rooted.setState (h : s.Rooted) (hl : s.Living a) (st : ProcessState)
    (hst : st ≠ .terminated) : (s.modify a (Process.setState st)).Rooted := by
  obtain ⟨p, hp, hlive⟩ := hl
  refine h.congr (census_setState st hst fun q hq => ?_) rfl fun _ => Or.inl
  obtain rfl := Option.some.inj (hp.symm.trans hq)
  exact hlive

/-! ## death -/

theorem Doomed.not_living (h : s.Doomed a p) : ¬ s.Living a := by
  rintro ⟨q, hq, hst⟩
  obtain rfl := Option.some.inj (h.heap.symm.trans hq)
  exact hst h.state

theorem Rooted.erase (h : s.Rooted) (hd : s.Doomed a p) : (s.erase a p.pid).Rooted := by
  have hstay : ∀ b, s.Living b → (s.erase a p.pid).Living b := by
    intro b hl
    have hne : b ≠ a := by
      rintro rfl
      exact hd.not_living hl
    obtain ⟨q, hq, hst⟩ := hl
    exact ⟨q, (Function.update_of_ne hne ..).trans hq, hst⟩
  refine ⟨h.slots.erase hd, fun b hb => ?_, ?_, fun b hb => hstay b (h.running b hb), ?_⟩
  · show Function.update s.heap a none b = none
    by_cases e : b = a
    · rw [e, Function.update_self]
    · rw [Function.update_of_ne e]
      exact h.fresh b hb
  · show ((s.setSlot p.pid none).setHeap a none).census.Listed
    rw [census_erase]
    exact h.listed.drop hd.slot
  · obtain ⟨i, hi, ht, hl⟩ := h.idle
    have hne : (0 : Int) ≠ p.pid := by
      intro e
      rw [e] at ht
      obtain rfl := Option.some.inj (ht.symm.trans hd.slot)
      exact hd.not_living hl
    exact ⟨i, hi, (Function.update_of_ne hne ..).trans ht, hstay i hl⟩

theorem Rooted.reap (h : s.Rooted) : (reapTerminatedProcesses s).Rooted :=
  List.foldlRecOn allPids reapSlot (motive := Rooted) h
    fun s hs i _ => hs.slots.reapSlot_keeps hs (fun b q hd => hs.erase hd) i

theorem Rooted.windUp (h : k.sched.Rooted) (p : Process) (pid : Int) :
    (windUp k p pid).sched.Rooted := h.same (census_windUp k p pid) (same_windUp k p pid)

theorem Rooted.leave (h : s.Rooted) (hp : s.heap a = some p) (hi : s.idle ≠ some a) :
    (terminatorLeave s a).Rooted := by
  have hcen := census_terminatorLeave hp hi
  have heq := terminatorLeave_eq hp hi
  have hstay : ∀ b, b ≠ a → s.Living b → (terminatorLeave s a).Living b := by
    intro b hne
    apply (living_congr ?_).mpr
    rw [hcen]
    exact Function.update_of_ne hne ..
  refine ⟨slots_terminatorLeave h.slots hp hi, fun b hb => ?_, ?_, fun b hb => ?_, ?_⟩
  · have hnext : (terminatorLeave s a).next = s.next := congrArg Census.next hcen
    have hnone := h.fresh b (hnext ▸ hb)
    have hne : b ≠ a := by
      rintro rfl
      exact absurd (hnone.symm.trans hp) (by simp)
    rw [heq, forgetShell_eq]
    show heapMod (removeFromAllPriorityQueues s a).heap a _ b = none
    rw [heapMod_of_ne _ _ hne, removeFromAll_heap]
    exact hnone
  · rw [hcen]
    exact h.listed.dies a
  · rw [heq, forgetShell_eq] at hb
    have hb' : s.runningBut a = some b := hb
    unfold runningBut at hb'
    by_cases hr : s.running = some a
    · rw [if_pos hr] at hb'
      exact absurd hb' (by simp)
    · rw [if_neg hr] at hb'
      refine hstay b ?_ (h.running b hb')
      rintro rfl
      exact hr hb'
  · obtain ⟨i, hii, ht, hl⟩ := h.idle
    have hne : i ≠ a := by
      rintro rfl
      exact hi hii
    have htab : (terminatorLeave s a).table = s.table := congrArg Census.table hcen
    refine ⟨i, ?_, htab ▸ ht, hstay i hne hl⟩
    rw [heq, forgetShell_eq]
    exact (removeFromAll_idle s a).trans hii

theorem Rooted.kill (h : k.sched.Rooted) (pid : Int) : (killProcess k pid).2.sched.Rooted := by
  rcases killProcess_cases k pid with hk | ⟨a, p, hne, hg, hp, hk⟩
  · rw [hk]
    exact h
  · obtain ⟨-, -, ht⟩ := getProcess_eq_some hg
    obtain ⟨-, -, p', hp', rfl⟩ := h.slots pid a ht
    obtain rfl := Option.some.inj (hp.symm.trans hp')
    have hi : k.sched.idle ≠ some a := by
      intro hi
      obtain ⟨-, -, p', hp', hzero⟩ := h.slots _ _ (h.tabled.idle a hi)
      obtain rfl := Option.some.inj (hp.symm.trans hp')
      exact hne (Or.inl hzero)
    have hw := h.windUp p p.pid
    obtain ⟨q, hq, hqp, hqt, hqi⟩ := windUp_keeps hp ht hi
    have hend := killed_erase hw.slots hq hqt hqi
    have herase := (hw.leave hq hqi).erase (doomed_terminatorLeave hq hqt hqi)
    rw [hqp] at hend
    rw [Process.setState_pid, hqp, ← hend] at herase
    rw [hk]
    exact herase

theorem Rooted.terminate (h : k.sched.Rooted) (hi : k.sched.running ≠ k.sched.idle)
    (hk : processTerminator k = some k') : k'.sched.Rooted := by
  cases hr : k.sched.running with
  | none =>
    rw [processTerminator_none hr] at hk
    exact absurd hk (by simp)
  | some a =>
    obtain ⟨p, hp, -⟩ := h.running a hr
    rw [processTerminator_eq hr hp] at hk
    obtain rfl := Option.some.inj hk
    have hsame := same_windUp k p p.pid
    obtain ⟨q, hq, -⟩ := hsame.heap hp
    apply (h.windUp p p.pid).leave hq
    rw [hsame.idle, ← hr]
    exact hi.symm

/-! ## birth -/

theorem Rooted.free (h : s.Rooted) (hf : slotFree s pid = true) : s.census.Free pid := by
  intro a ht
  obtain ⟨-, -, p, hp, rfl⟩ := h.slots pid a ht
  rw [cell_eq hp, slotFree_terminated hf ht hp]
  rfl

theorem Rooted.pid_ne_zero (h : s.Rooted) (hf : slotFree s pid = true) : pid ≠ 0 := by
  rintro rfl
  obtain ⟨i, -, ht, p, hp, hst⟩ := h.idle
  exact hst (slotFree_terminated hf ht hp)

theorem Rooted.publish (h : s.Rooted) (h0 : 0 ≤ p.pid) (h1 : p.pid < maxProcesses)
    (hf : slotFree s p.pid = true) (hst : p.state ≠ .terminated) : (s.publish p).Rooted := by
  have hold : ∀ b q, s.heap b = some q → (s.publish p).heap b = some q := by
    intro b q hq
    have hne : b ≠ s.next := by
      rintro rfl
      exact absurd ((h.fresh _ (Nat.le_refl _)).symm.trans hq) (by simp)
    exact (Function.update_of_ne hne ..).trans hq
  have hstay : ∀ b, s.Living b → (s.publish p).Living b := by
    rintro b ⟨q, hq, hlive⟩
    exact ⟨q, hold b q hq, hlive⟩
  refine ⟨fun i b hb => ?_, fun b hb => ?_, ?_, fun b hb => hstay b (h.running b hb), ?_⟩
  · by_cases e : i = p.pid
    · subst e
      have hself : (s.publish p).table p.pid = some s.next := Function.update_self ..
      obtain rfl := Option.some.inj (hself.symm.trans hb)
      exact ⟨h0, h1, p, Function.update_self .., rfl⟩
    · have hb' : s.table i = some b := (Function.update_of_ne e ..).symm.trans hb
      obtain ⟨hi0, hi1, q, hq, hqi⟩ := h.slots i b hb'
      exact ⟨hi0, hi1, q, hold b q hq, hqi⟩
  · have hb' : s.next + 1 ≤ b := hb
    exact (Function.update_of_ne (by omega) ..).trans (h.fresh b (by omega))
  · rw [census_publish hst]
    exact h.listed.born (h.free hf)
  · obtain ⟨i, hi, ht, hl⟩ := h.idle
    have hne : (0 : Int) ≠ p.pid := (h.pid_ne_zero hf).symm
    exact ⟨i, hi, (Function.update_of_ne hne ..).trans ht, hstay i hl⟩

theorem Rooted.publishProcess (h : k.sched.Rooted) (h0 : 0 ≤ p.pid) (h1 : p.pid < maxProcesses)
    (hf : slotFree k.sched p.pid = true) (hst : p.state ≠ .terminated) :
    (publishProcess k p).2.sched.Rooted := by
  rw [publishProcess_sched k (h.pid_ne_zero hf)]
  have hself : (k.sched.publish p).heap k.sched.next = some p := Function.update_self ..
  have hadd : (addToScheduler (k.sched.publish p) k.sched.next).census
      = (k.sched.publish p).census := by
    apply census_addToScheduler
    intro q hq
    obtain rfl := Option.some.inj (hself.symm.trans hq)
    exact hst
  exact ((h.publish h0 h1 hf hst).same hadd (same_addToScheduler _ _)).reap

theorem Rooted.create (h : k.sched.Rooted) (args : CreateArgs) :
    (createProcess k args).2.sched.Rooted := by
  rcases createProcess_cases k args with hk | ⟨pid, hpid, hk⟩
  · rw [hk]
    exact h
  · obtain ⟨h0, h1, hf⟩ := assignPid_spec hpid
    have hkeep := enterChild_keeps (s := k.sched)
      (P := fun s => s.Rooted ∧ slotFree s pid = true)
      (fun s a f hs hq => ⟨hs.1.congr (census_quiet hq.1) rfl fun _ => Or.inl,
        by rw [slotFree_quiet hq.1]; exact hs.2⟩) pid ⟨h, hf⟩
    rcases hk with hk | ⟨argv, -, hk⟩
    · rw [hk]
      exact hkeep.1
    · rw [hk]
      exact Rooted.publishProcess (k := { k with sched := _ }) hkeep.1 h0 h1 hkeep.2
        (by simp [newProcess])

/-! ## moves -/

theorem Rooted.setPriority (h : s.Rooted) (pid pr : Int) : (setPriority s pid pr).2.Rooted := by
  by_cases hcase : (0 ≤ pr ∧ pr ≤ 3) ∧ ∃ a, getProcess s pid = some a
  · obtain ⟨hr, a, hg⟩ := hcase
    rw [setPriority_eq hr (by omega) hg]
    exact h.modify (f := repriorize _) (fun _ => rfl) a
  · rw [setPriority_eq_self hcase]
    exact h

theorem Rooted.unblock (h : s.Rooted) (a : Nat) : (unblockProcess s a).2.Rooted :=
  h.same (census_unblockProcess s a) (same_unblockProcess s a)

theorem Rooted.block (h : s.Rooted) (a : Nat) : (blockProcess s a).2.Rooted := by
  have hcen := census_blockProcess s a
  rcases blockProcess_cases s a with hbl | ⟨p, -, -, -, -, -, hbl⟩
  · rw [hbl]
    exact h
  · refine h.congr hcen ?_ fun b hb => Or.inl ?_
    · rw [hbl]
      exact removeFromAll_idle s a
    · rw [← hb, hbl]
      exact (removeFromAll_running s a).symm

theorem Rooted.onProcess (h : k.sched.Rooted) {f : Sched → Nat → Int × Sched}
    (hf : ∀ s a, Rooted s → (f s a).2.Rooted) (pid : Int) : (onProcess k pid f).sched.Rooted := by
  unfold Tp2So.onProcess
  split
  · exact h
  · exact hf _ _ h

theorem Rooted.semWait (h : k.sched.Rooted) (c : Nat) : (semWait k c).2.sched.Rooted := by
  rcases semWait_sched k c with hs | ⟨b, p, -, -, hs⟩
  · rw [hs]
    exact h
  · rw [hs]
    exact h.block b

theorem Rooted.waitChildResume (h : k.sched.Rooted) (pid : Int) (sem : Nat) :
    (waitChildResume k pid sem).sched.Rooted := by
  have hs := h.reap
  unfold Tp2So.waitChildResume
  simp only
  generalize reapTerminatedProcesses k.sched = s at hs ⊢
  split
  · exact hs
  · rename_i cur _
    exact hs.modify (f := fun p => { p with children := p.children.erase pid }) (fun _ => rfl) cur

theorem Rooted.waitChild (h : k.sched.Rooted) (pid : Int) : (waitChild k pid).2.sched.Rooted := by
  unfold Tp2So.waitChild
  split
  · split
    · exact h
    · rename_i c r _
      -- opening the semaphore leaves the scheduler alone
      have hr : ({ k with sems := r } : Kernel).sched.Rooted := h
      have hs := hr.semWait c
      generalize Tp2So.semWait { k with sems := r } c = res at hs ⊢
      obtain ⟨result, k'⟩ := res
      replace hs : k'.sched.Rooted := hs
      cases result with
      | error =>
        simp only
        exact hs.reap
      | granted => exact hs.waitChildResume pid c
      | suspended => exact hs
  · exact h

/-! ## the tick -/

theorem Rooted.boost (h : s.Rooted) (pr : Priority) (a : Nat) : (boost s pr a).Rooted := by
  unfold Tp2So.boost
  exact (((h.modify (f := Process.setPriority maxPriority) (fun _ => rfl) a).setQueue pr _).setQueue
    maxPriority _).modify (f := Process.setWaitTicks 0) (fun _ => rfl) a

theorem Rooted.ageProcess (h : s.Rooted) (pr : Priority) (a : Nat) (p : Process) :
    (ageProcess s pr a p).Rooted := by
  have hage := h.modify (f := Process.setWaitTicks (p.waitTicks + 1)) (fun _ => rfl) a
  unfold Tp2So.ageProcess
  simp only
  split
  · exact hage.boost pr a
  · exact hage

theorem Rooted.applyAging (h : s.Rooted) {fuel : Nat} (hs : applyAging fuel s = some t) : t.Rooted := by
  have hrule : AgingRule Rooted :=
    ⟨fun h _ => h.setQueue _ _, fun h _ _ _ => h.ageProcess _ _ _⟩
  exact hrule.pass h hs

theorem Rooted.preempt (h : s.Rooted) {rsp : Nat} {r : Sched ⊕ Sched} (hs : preempt rsp s = some r) :
    r.elim Rooted Rooted := by
  unfold Tp2So.preempt at hs
  cases hr : s.running with
  | none =>
    simp only [hr] at hs
    exact Option.some.inj hs ▸ h
  | some a =>
    obtain ⟨p, hp, hlive⟩ := h.running a hr
    simp only [hr, hp] at hs
    have h1 := h.modify (f := Process.setRsp rsp) (fun _ => rfl) a
    cases hst : p.state with
    | terminated =>
      simp only [hst] at hs
      exact Option.some.inj hs ▸ h1.stop
    | blocked =>
      simp only [hst] at hs
      exact Option.some.inj hs ▸ h1.stop
    | ready =>
      simp only [hst] at hs
      exact Option.some.inj hs ▸ h1
    | running =>
      simp only [hst] at hs
      have h2 := h1.modify (f := Process.setQuantum (p.quantumRemaining - 1)) (fun _ => rfl) a
      split at hs
      · exact Option.some.inj hs ▸ h2
      · have h3 := h2.modify (f := Process.setQuantum defaultQuantum) (fun _ => rfl) a
        have h4 := h3.setState (h3.running a hr) .ready (by simp)
        obtain ⟨q, hq, hlive⟩ := h4.running a hr
        have hadd := census_addToScheduler (s := _) fun q' hq' => by
          obtain rfl := Option.some.inj (hq.symm.trans hq')
          exact hlive
        exact Option.some.inj hs ▸ h4.same hadd (same_addToScheduler _ _)

theorem Rooted.start (h : s.Rooted) (hl : s.Living a) :
    ((s.modify a (Process.setState .running)).setRunning (some a)).Rooted := by
  have hrun := h.setState hl .running (by simp)
  obtain ⟨p, hp, hst⟩ := hl
  refine hrun.congr rfl rfl fun b hb => Or.inr ?_
  obtain rfl := Option.some.inj hb
  exact ⟨_, modify_heap_self _ hp, by simp⟩

theorem Rooted.runIdle (h : s.Rooted) {r : Nat × Sched} (hs : runIdle s = some r) : r.2.Rooted := by
  obtain ⟨i, hi, -, hl⟩ := h.idle
  obtain ⟨p, hp, hst⟩ := hl
  unfold Tp2So.runIdle at hs
  simp only [hi, hp] at hs
  exact Option.some.inj hs ▸ h.start ⟨p, hp, hst⟩

theorem Rooted.dispatch (h : s.Rooted) {next : Option Nat} {r : Nat × Sched}
    (hs : dispatch next s = some r) : r.2.Rooted := by
  unfold Tp2So.dispatch at hs
  cases next with
  | none => exact h.runIdle hs
  | some a =>
    cases hp : s.heap a with
    | none =>
      simp only [hp] at hs
      exact absurd hs (by simp)
    | some p =>
      simp only [hp] at hs
      split at hs
      · exact h.runIdle hs
      · rename_i hst
        have hl : s.Living a := ⟨p, hp, by rw [not_not.mp hst]; simp⟩
        have hrun := (h.start hl).modify (f := Process.setQuantum defaultQuantum) (fun _ => rfl) a
        have hreset : (resetAging (((s.modify a (Process.setState .running)).setRunning
            (some a)).modify a (Process.setQuantum defaultQuantum)) a).Rooted := by
          unfold resetAging
          split
          · exact hrun
          · exact hrun.modify (f := Process.setWaitTicks 0) (fun _ => rfl) a
        split at hs
        · exact Rooted.runIdle hreset hs
        · exact Option.some.inj hs ▸ hreset

theorem Rooted.schedule (h : s.Rooted) {fuel rsp : Nat} {r : Nat × Sched}
    (hs : schedule fuel rsp s = some r) : r.2.Rooted := by
  obtain ⟨s₁, ha, hparts⟩ := schedule_parts hs
  have h₁ := h.applyAging ha
  rcases hparts with ⟨s₂, hp, rfl⟩ | ⟨s₂, next, s₃, hp, hsel, hd⟩
  · exact h₁.preempt hp
  · have h₂ : s₂.Rooted := h₁.preempt hp
    have h₃ : s₃.Rooted := selectNext_keeps (fun q hs => hs.setQueue _ q) _ h₂ hsel
    exact h₃.dispatch hd

end Sched

/-! ## runs -/

theorem rooted_step (o : ReadyOp) (k k' : Kernel) (h : k.sched.Rooted) (_ : True)
    (hk : execReady o k = some k') : k'.sched.Rooted := by
  cases o with
  | create args =>
    obtain rfl := Option.some.inj hk
    exact h.create args
  | kill pid =>
    obtain rfl := Option.some.inj hk
    exact h.kill pid
  | terminate =>
    by_cases hi : k.sched.running = k.sched.idle
    · exact absurd ((if_pos hi).symm.trans hk) (by simp)
    · exact h.terminate hi ((if_neg hi).symm.trans hk)
  | setPriority pid pr =>
    obtain rfl := Option.some.inj hk
    exact h.setPriority pid pr
  | block pid =>
    obtain rfl := Option.some.inj hk
    exact h.onProcess (fun _ a hs => hs.block a) pid
  | unblock pid =>
    obtain rfl := Option.some.inj hk
    exact h.onProcess (fun _ a hs => hs.unblock a) pid
  | schedule fuel rsp =>
    obtain ⟨r, hr, rfl⟩ := Option.map_eq_some_iff.mp hk
    exact h.schedule hr

theorem rooted_boot (stackBase : Nat) (recycled : List Int) :
    (initScheduler stackBase recycled).sched.Rooted := by
  have hlisted := listed_boot stackBase recycled
  rw [Sched.initScheduler_eq] at hlisted ⊢
  have hok := Sched.ok_bootSched stackBase recycled
  refine ⟨hok.tab, hok.fresh, hlisted, fun a ha => ?_, ?_⟩
  · obtain ⟨p, hp, -, hst⟩ := hok.running a ha
    exact ⟨p, hp, hst⟩
  · obtain ⟨i, p, hi, ht, hp, -⟩ := hok.idle
    exact ⟨i, hi, ht, p, hp, fun hst => hok.idle_ne_terminated hp hst hi⟩

/-- **The process table in every run**, from boot or from any state with a sound table -/
theorem rooted_run {os : List ReadyOp} {k k' : Kernel} (h : k.sched.Rooted)
    (hk : run execReady os k = some k') : k'.sched.Rooted :=
  Runs.inv (I := fun k => k.sched.Rooted) rooted_step (runs_true_iff.mpr hk) h

end Tp2So
