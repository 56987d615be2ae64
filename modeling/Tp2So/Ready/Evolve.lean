import Tp2So.Ready.Runs

/-!
# What the calls of the kernel leave alone in a control block

`Evolves S R F s s'` says of the processes in `S` that each of them is in `s'` what it was in `s`, up
to the relation `R`, or is gone, or is new and meets `F`.  `Tame R F` lists the edits that every call
makes; the calls that edit children ask for more, of the processes whose children they edit.

* `evolves_createProcess`, `evolves_killProcess`, `evolves_processTerminator`, `evolves_reap`,
  `evolves_blockProcess`, `evolves_unblockProcess`, `evolves_waitChild`, `evolves_waitChildResume`;
* `evolves_afterAging`   the tick without its pass of aging;
* `evolves_schedule`     the whole tick, where `R` allows that priorities change.
-/

set_option linter.unusedVariables false

namespace Tp2So

structure Evolves (S : Nat → Prop) (R : Process → Process → Prop) (F : Process → Prop)
    (s s' : Sched) : Prop where
  next : s.next ≤ s'.next
  kept : ∀ a q, S a → s'.heap a = some q → (∃ p, s.heap a = some p ∧ R p q) ∨ (s.next ≤ a ∧ F q)

/-- `R` is a preorder that the edits of the scheduler do not leave, and keeps `F` -/
structure Tame (R : Process → Process → Prop) (F : Process → Prop) : Prop where
  refl : ∀ p, R p p
  trans : ∀ p q r, R p q → R q r → R p r
  keeps : ∀ p q, R p q → F p → F q
  state : ∀ st p, R p (p.setState st)
  rsp : ∀ n p, R p (p.setRsp n)
  quantum : ∀ n p, R p (p.setQuantum n)
  ticks : ∀ n p, R p (p.setWaitTicks n)
  ppid : ∀ p, R p { p with ppid := 1 }

/-- `R` allows another child -/
def Grows (R : Process → Process → Prop) : Prop := ∀ p c, R p { p with children := p.children ++ [c] }

/-- `R` allows that the children are forgotten -/
def Clears (R : Process → Process → Prop) : Prop := ∀ p, R p { p with children := [] }

section
variable {S : Nat → Prop} {R : Process → Process → Prop} {F : Process → Prop}
  {s s' t u : Sched} {k : Kernel} {a : Nat} {p q : Process} {pr : Priority}

theorem Evolves.refl (hR : Tame R F) (s : Sched) : Evolves S R F s s :=
  ⟨Nat.le_refl _, fun a q _ hq => Or.inl ⟨q, hq, hR.refl q⟩⟩

theorem Evolves.trans (hR : Tame R F) (h : Evolves S R F s t) (h' : Evolves S R F t u) :
    Evolves S R F s u := by
  refine ⟨Nat.le_trans h.next h'.next, fun a r ha hr => ?_⟩
  rcases h'.kept a r ha hr with ⟨q, hq, e⟩ | ⟨hle, e⟩
  · rcases h.kept a q ha hq with ⟨p, hp, e'⟩ | ⟨hle, e'⟩
    · exact Or.inl ⟨p, hp, hR.trans p q r e' e⟩
    · exact Or.inr ⟨hle, hR.keeps q r e e'⟩
  · exact Or.inr ⟨Nat.le_trans h.next hle, e⟩

theorem evolves_of_heap (hR : Tame R F) (hn : s'.next = s.next) (hh : s'.heap = s.heap) :
    Evolves S R F s s' :=
  ⟨Nat.le_of_eq hn.symm, fun a q _ hq => Or.inl ⟨q, by rw [← hh]; exact hq, hR.refl q⟩⟩

theorem evolves_setRunning (hR : Tame R F) (s : Sched) (x : Option Nat) :
    Evolves S R F s (s.setRunning x) := evolves_of_heap hR rfl rfl

theorem evolves_setQueue (hR : Tame R F) (s : Sched) (pr : Priority) (x : Queue Nat) :
    Evolves S R F s (s.setQueue pr x) := evolves_of_heap hR rfl rfl

theorem evolves_modify (hR : Tame R F) (s : Sched) (a : Nat) {f : Process → Process}
    (hf : S a → ∀ p, R p (f p)) : Evolves S R F s (s.modify a f) := by
  refine ⟨Nat.le_refl _, fun b q hb hq => ?_⟩
  obtain ⟨p, hp, rfl⟩ := heapMod_some hq
  refine Or.inl ⟨p, hp, ?_⟩
  split
  · rename_i e
    exact hf (e ▸ hb) p
  · exact hR.refl p

theorem evolves_setHeap (hR : Tame R F) (s : Sched) (a : Nat) : Evolves S R F s (s.setHeap a none) := by
  refine ⟨Nat.le_refl _, fun b q _ hq => ?_⟩
  have hq' : Function.update s.heap a none b = some q := hq
  by_cases e : b = a
  · rw [e, Function.update_self] at hq'
    exact absurd hq' (by simp)
  · rw [Function.update_of_ne e] at hq'
    exact Or.inl ⟨q, hq', hR.refl q⟩

theorem evolves_publish (hR : Tame R F) (s : Sched) (hp : F p) : Evolves S R F s (s.publish p) := by
  refine ⟨Nat.le_succ _, fun b q _ hq => ?_⟩
  have hq' : Function.update s.heap s.next (some p) b = some q := hq
  by_cases e : b = s.next
  · rw [e, Function.update_self] at hq'
    obtain rfl := Option.some.inj hq'
    exact Or.inr ⟨Nat.le_of_eq e.symm, hp⟩
  · rw [Function.update_of_ne e] at hq'
    exact Or.inl ⟨q, hq', hR.refl q⟩

/-! ## the calls of the scheduler -/

theorem evolves_removeFromAll (hR : Tame R F) (s : Sched) (a : Nat) :
    Evolves S R F s (removeFromAllPriorityQueues s a) := by
  unfold removeFromAllPriorityQueues
  split
  · exact .refl hR s
  · exact evolves_setQueue hR s _ _

theorem evolves_addToScheduler (hR : Tame R F) (s : Sched) (a : Nat) :
    Evolves S R F s (addToScheduler s a) := by
  unfold addToScheduler
  split
  · exact .refl hR s
  · have hm : Evolves S R F s (s.modify a (Process.setState .ready)) :=
      evolves_modify hR s a fun _ => hR.state .ready
    simp only
    split
    · exact hm
    · exact hm.trans hR (evolves_setQueue hR _ _ _)

theorem evolves_removeProcess (hR : Tame R F) (s : Sched) (a : Nat) :
    Evolves S R F s (removeProcessFromScheduler s a) := by
  unfold removeProcessFromScheduler
  split
  · exact .refl hR s
  · simp only
    split
    · exact (evolves_removeFromAll hR s a).trans hR (evolves_setRunning hR _ none)
    · exact evolves_removeFromAll hR s a

theorem evolves_resetAging (hR : Tame R F) (s : Sched) (a : Nat) :
    Evolves S R F s (resetAging s a) := by
  unfold resetAging
  split
  · exact .refl hR s
  · exact evolves_modify hR s a fun _ => hR.ticks 0

theorem evolves_unblockProcess (hR : Tame R F) (s : Sched) (a : Nat) :
    Evolves S R F s (unblockProcess s a).2 := by
  rcases Sched.unblockProcess_cases s a with hun | ⟨p, -, -, -, -, hun⟩
  · rw [hun]
    exact .refl hR s
  · rw [hun]
    exact (evolves_modify hR s a fun _ => hR.state .ready).trans hR (evolves_addToScheduler hR _ a)

theorem evolves_blockProcess (hR : Tame R F) (s : Sched) (a : Nat) :
    Evolves S R F s (blockProcess s a).2 := by
  rcases Sched.blockProcess_cases s a with hbl | ⟨p, -, -, -, -, -, hbl⟩
  · rw [hbl]
    exact .refl hR s
  · rw [hbl]
    exact ((evolves_removeFromAll hR s a).trans hR
      (evolves_modify hR _ a fun _ => hR.state .blocked)).trans hR (evolves_modify hR _ a fun _ => hR.ticks 0)

theorem Sched.Wakes.evolves (hR : Tame R F) (h : Sched.Wakes s t) : Evolves S R F s t := by
  induction h with
  | refl s => exact .refl hR s
  | wake hb _ ih => exact (evolves_unblockProcess hR _ _).trans hR ih

/-! ## the tick -/

theorem evolves_preempt (hR : Tame R F) {rsp : Nat} {r : Sched ⊕ Sched}
    (hr : preempt rsp s = some r) : r.elim (Evolves S R F s) (Evolves S R F s) := by
  unfold preempt at hr
  cases hrun : s.running with
  | none =>
    simp only [hrun] at hr
    exact Option.some.inj hr ▸ Evolves.refl hR s
  | some a =>
    cases hp : s.heap a with
    | none =>
      simp only [hrun, hp] at hr
      exact absurd hr (by simp)
    | some p =>
      have h1 : Evolves S R F s (s.modify a (Process.setRsp rsp)) :=
        evolves_modify hR s a fun _ => hR.rsp rsp
      simp only [hrun, hp] at hr
      cases hst : p.state with
      | terminated =>
        simp only [hst] at hr
        exact Option.some.inj hr ▸ h1.trans hR (evolves_setRunning hR _ none)
      | blocked =>
        simp only [hst] at hr
        exact Option.some.inj hr ▸ h1.trans hR (evolves_setRunning hR _ none)
      | ready =>
        simp only [hst] at hr
        exact Option.some.inj hr ▸ h1
      | running =>
        simp only [hst] at hr
        have h2 := h1.trans hR (evolves_modify hR _ a fun _ => hR.quantum (p.quantumRemaining - 1))
        split at hr
        · exact Option.some.inj hr ▸ h2
        · have h3 := (h2.trans hR (evolves_modify hR _ a fun _ => hR.quantum defaultQuantum)).trans hR
            (evolves_modify hR _ a fun _ => hR.state .ready)
          exact Option.some.inj hr ▸ h3.trans hR (evolves_addToScheduler hR _ a)

theorem evolves_selectNext (hR : Tame R F) (prs : List Priority) {r : Option Nat × Sched}
    (h : selectNext prs s = some r) : Evolves S R F s r.2 :=
  Sched.selectNext_keeps (P := Evolves S R F s)
    (fun q hs => hs.trans hR (evolves_setQueue hR _ _ q)) prs (.refl hR s) h

theorem evolves_runIdle (hR : Tame R F) {r : Nat × Sched} (h : runIdle s = some r) :
    Evolves S R F s r.2 := by
  unfold runIdle at h
  split at h
  · exact absurd h (by simp)
  · split at h
    · exact absurd h (by simp)
    · exact Option.some.inj h ▸ (evolves_modify hR s _ fun _ => hR.state .running).trans hR
        (evolves_setRunning hR _ _)

theorem evolves_dispatch (hR : Tame R F) {next : Option Nat} {r : Nat × Sched}
    (h : dispatch next s = some r) : Evolves S R F s r.2 := by
  unfold dispatch at h
  split at h
  · exact evolves_runIdle hR h
  · rename_i a
    split at h
    · exact absurd h (by simp)
    · split at h
      · exact evolves_runIdle hR h
      · have h1 : Evolves S R F s _ := ((evolves_modify hR s a fun _ => hR.state .running).trans hR
          (evolves_modify hR _ a fun _ => hR.quantum defaultQuantum)).trans hR
          ((evolves_setRunning hR _ (some a)).trans hR (evolves_resetAging hR _ a))
        simp only at h
        split at h
        · exact h1.trans hR (evolves_runIdle hR h)
        · exact Option.some.inj h ▸ h1

/-- **The tick after its pass of aging.** -/
theorem evolves_afterAging (hR : Tame R F) {fuel rsp : Nat} {r : Nat × Sched} {s₁ : Sched}
    (h₁ : applyAging fuel s = some s₁) (h : schedule fuel rsp s = some r) :
    Evolves S R F s₁ r.2 := by
  obtain ⟨s₁', h₁', hparts⟩ := schedule_parts h
  obtain rfl := Option.some.inj (h₁.symm.trans h₁')
  rcases hparts with ⟨s₂, hp, rfl⟩ | ⟨s₂, next, s₃, hp, hsel, hd⟩
  · exact evolves_preempt (S := S) hR hp
  · have h₂ := evolves_preempt (S := S) hR hp
    exact (Evolves.trans hR h₂ (evolves_selectNext hR _ hsel)).trans hR (evolves_dispatch hR hd)

/-- `R` allows another priority -/
def Reranks (R : Process → Process → Prop) : Prop := ∀ pr p, R p (p.setPriority pr)

theorem evolves_ageProcess (hR : Tame R F) (hpr : Reranks R) (s : Sched) (pr : Priority) (a : Nat)
    (p : Process) : Evolves S R F s (ageProcess s pr a p) := by
  have hw : Evolves S R F s (s.modify a (Process.setWaitTicks (p.waitTicks + 1))) :=
    evolves_modify hR s a fun _ => hR.ticks (p.waitTicks + 1)
  unfold ageProcess
  simp only
  split
  · unfold boost
    exact (hw.trans hR (evolves_modify hR _ a fun _ => hpr maxPriority)).trans hR
      (((evolves_setQueue hR _ pr _).trans hR (evolves_setQueue hR _ maxPriority _)).trans hR
        (evolves_modify hR _ a fun _ => hR.ticks 0))
  · exact hw

/-- **The pass of aging.** -/
theorem evolves_applyAging (hR : Tame R F) (hpr : Reranks R) {fuel : Nat}
    (h : applyAging fuel s = some s') : Evolves S R F s s' := by
  have hrule : Sched.AgingRule (Evolves S R F s) :=
    ⟨fun hs _ => hs.trans hR (evolves_setQueue hR _ _ _),
      fun hs _ _ _ => hs.trans hR (evolves_ageProcess hR hpr _ _ _ _)⟩
  exact hrule.pass (.refl hR s) h

/-- **The tick.** -/
theorem evolves_schedule (hR : Tame R F) (hpr : Reranks R) {fuel rsp : Nat} {r : Nat × Sched}
    (h : schedule fuel rsp s = some r) : Evolves S R F s r.2 := by
  obtain ⟨s₁, h₁, -⟩ := schedule_parts h
  exact (evolves_applyAging hR hpr h₁).trans hR (evolves_afterAging hR h₁ h)

/-! ## birth and death -/

theorem evolves_reparentChild (hR : Tame R F) {init : Nat} (hg : S init → Grows R) (s : Sched)
    (child : Int) : Evolves S R F s (reparentChild init s child) := by
  unfold reparentChild
  split
  · exact .refl hR s
  · split
    · exact .refl hR s
    · split
      · exact .refl hR s
      · refine (evolves_modify hR s _ fun _ => hR.ppid).trans hR
          (evolves_modify hR _ _ fun hs p => ?_)
        split
        · exact hg hs p child
        · exact hR.refl p

theorem evolves_reparentChildren (hR : Tame R F) {pid : Int}
    (hg : ∀ init, getProcess s initPid = some init → S init → Grows R)
    (hc : ∀ d, getProcess s pid = some d → S d → Clears R) :
    Evolves S R F s (reparentChildren s pid) := by
  unfold reparentChildren
  split
  · exact .refl hR s
  · rename_i d hd
    split
    · exact .refl hR s
    · rename_i init hi
      split
      · exact .refl hR s
      · rename_i p _
        refine Evolves.trans hR ?_ (evolves_modify hR _ d fun hs p => hc d hd hs p)
        exact List.foldlRecOn p.children (reparentChild init) (.refl hR s)
          fun t ht c _ => ht.trans hR (evolves_reparentChild hR (hg init hi) t c)

theorem evolves_windUp (hR : Tame R F) (p : Process) {pid : Int}
    (hg : ∀ init, getProcess k.sched initPid = some init → S init → Grows R)
    (hc : ∀ d, getProcess k.sched pid = some d → S d → Clears R) :
    Evolves S R F k.sched (windUp k p pid).sched := by
  have hw := Sched.wakes_leavePipes k p pid
  have hget : ∀ q, getProcess (leavePipes k p pid).sched q = getProcess k.sched q := by
    intro q
    unfold getProcess
    rw [hw.same.table]
  unfold windUp
  refine (hw.evolves hR).trans hR (Evolves.trans hR ?_ ((Sched.wakes_announceExit _ pid).evolves hR))
  exact evolves_reparentChildren hR (fun i hi => hg i (by rw [← hget]; exact hi))
    (fun d hd => hc d (by rw [← hget]; exact hd))

theorem evolves_forgetShell (hR : Tame R F) (s : Sched) (a : Nat) :
    Evolves S R F s (forgetShell s a) := by
  unfold forgetShell
  split
  · exact evolves_of_heap hR rfl rfl
  · exact .refl hR s

theorem evolves_removeFromTable (hR : Tame R F) (s : Sched) (pid : Int) :
    Evolves S R F s (removeFromProcessTable s pid) := by
  unfold removeFromProcessTable
  split
  · exact evolves_of_heap hR rfl rfl
  · exact .refl hR s

theorem evolves_free (hR : Tame R F) (s : Sched) (a : Nat) (b : Bool) :
    Evolves S R F s (freeProcessResources s a b) := by
  unfold freeProcessResources
  cases b with
  | true => exact (evolves_removeProcess hR s a).trans hR (evolves_setHeap hR _ a)
  | false => exact evolves_setHeap hR s a

theorem evolves_killProcess (hR : Tame R F) {pid : Int}
    (hg : ∀ init, getProcess k.sched initPid = some init → S init → Grows R)
    (hc : ∀ d, getProcess k.sched pid = some d → S d → Clears R) :
    Evolves S R F k.sched (killProcess k pid).2.sched := by
  rcases Sched.killProcess_cases k pid with hk | ⟨a, p, -, -, -, hk⟩
  · rw [hk]
    exact .refl hR _
  · rw [hk]
    exact (evolves_windUp hR p hg hc).trans hR ((evolves_modify hR _ a
      fun _ => hR.state .terminated).trans hR ((evolves_removeFromTable hR _ pid).trans hR
      ((evolves_forgetShell hR _ a).trans hR (evolves_free hR _ a true))))

theorem evolves_processTerminator (hR : Tame R F) {k' : Kernel} (hok : k.sched.Ok)
    (hg : ∀ init, getProcess k.sched initPid = some init → S init → Grows R)
    (hc : ∀ d, k.sched.running = some d → S d → Clears R) (h : processTerminator k = some k') :
    Evolves S R F k.sched k'.sched := by
  unfold processTerminator at h
  cases hr : k.sched.running with
  | none =>
    rw [hr] at h
    exact absurd h (by simp)
  | some a =>
    rw [hr] at h
    obtain rfl := Option.some.inj h
    obtain ⟨p, hp, ht, -⟩ := hok.running a hr
    have hn : Evolves S R F k.sched (terminatorNotify k a).sched := by
      unfold terminatorNotify
      rw [hp]
      refine evolves_windUp hR p hg fun d hd => hc d ?_
      rw [hr, ← (getProcess_eq_some hd).2.2, ht]
    refine hn.trans hR ?_
    unfold terminatorLeave
    refine ((evolves_modify hR _ a fun _ => hR.state .terminated).trans hR
      (evolves_removeProcess hR _ a)).trans hR (Evolves.trans hR ?_ (evolves_forgetShell hR _ a))
    split
    · exact evolves_setRunning hR _ none
    · exact .refl hR _

theorem evolves_reap (hR : Tame R F) (s : Sched) : Evolves S R F s (reapTerminatedProcesses s) := by
  refine List.foldlRecOn allPids reapSlot (Evolves.refl hR s) fun t ht pid _ => ht.trans hR ?_
  unfold reapSlot
  split
  · exact .refl hR t
  · split
    · exact .refl hR t
    · split
      · exact (evolves_removeFromTable hR t _).trans hR (evolves_free hR _ _ false)
      · exact .refl hR t

theorem evolves_enterChild (hR : Tame R F) {pid : Int}
    (hg : ∀ par, s.running = some par → S par → Grows R) : Evolves S R F s (enterChild s pid).2 := by
  unfold enterChild
  split
  · exact .refl hR s
  · split
    · exact .refl hR s
    · rename_i par hr
      split
      · exact .refl hR s
      · refine evolves_modify hR s par fun hs p => ?_
        split
        · exact hg par hr hs p pid
        · exact hR.refl p

theorem evolves_createProcess (hR : Tame R F) (hok : k.sched.Ok)
    (hg : ∀ par, k.sched.running = some par → S par → Grows R)
    (hF : ∀ args pid ppid argv, F (newProcess args pid ppid argv)) (args : CreateArgs) :
    Evolves S R F k.sched (createProcess k args).2.sched := by
  rcases Sched.createProcess_cases k args with hk | ⟨pid, hpid, hk⟩
  · rw [hk]
    exact .refl hR _
  · have he : Evolves S R F k.sched (enterChild k.sched pid).2 := evolves_enterChild hR hg
    have hne : pid ≠ 0 := hok.slot_pos (Sched.assignPid_spec hpid).2.2
    rcases hk with hk | ⟨argv, -, hk⟩
    · rw [hk]
      exact he
    · rw [hk, Sched.publishProcess_sched _ (by exact hne)]
      exact he.trans hR ((evolves_publish hR _ (hF args pid _ _)).trans hR
        ((evolves_addToScheduler hR _ _).trans hR (evolves_reap hR _)))

/-! ## waiting for a child -/

theorem reap_running (s : Sched) : (reapTerminatedProcesses s).running = s.running := by
  refine List.foldlRecOn allPids reapSlot (motive := fun t => t.running = s.running) rfl
    fun t ht pid _ => ?_
  unfold reapSlot removeFromProcessTable freeProcessResources
  split
  · exact ht
  · split
    · exact ht
    · split
      · simp only [Bool.false_eq_true, if_false]
        split
        · exact ht
        · exact ht
      · exact ht

/-- the end of `wait_child`, of a caller whose children may be anything -/
theorem evolves_waitChildResume (hR : Tame R F) (hrun : ∀ cur, k.sched.running = some cur → ¬ S cur)
    (pid : Int) (c : Nat) : Evolves S R F k.sched (waitChildResume k pid c).sched := by
  have hreap : Evolves S R F k.sched (reapTerminatedProcesses k.sched) := evolves_reap hR k.sched
  have hr := reap_running k.sched
  unfold waitChildResume
  simp only
  generalize reapTerminatedProcesses k.sched = s at hreap hr ⊢
  split
  · exact hreap
  · rename_i cur hcur
    exact hreap.trans hR (evolves_modify hR s cur fun hs => absurd hs (hrun cur (hr.symm.trans hcur)))

theorem evolves_semWait (hR : Tame R F) (k : Kernel) (a : Nat) :
    Evolves S R F k.sched (semWait k a).2.sched ∧ (semWait k a).2.sched.running = k.sched.running := by
  have hblock : ∀ b, (blockProcess k.sched b).2.running = k.sched.running := by
    intro b
    rcases Sched.blockProcess_cases k.sched b with hbl | ⟨p, -, -, -, -, -, hbl⟩
    · rw [hbl]
    · rw [hbl]
      exact Sched.removeFromAll_running k.sched b
  rcases Sched.semWait_sched k a with hk | ⟨b, p, -, -, hk⟩
  · rw [hk]
    exact ⟨.refl hR _, rfl⟩
  · rw [hk]
    exact ⟨evolves_blockProcess hR _ _, hblock _⟩

theorem evolves_waitChild (hR : Tame R F) (hrun : ∀ cur, k.sched.running = some cur → ¬ S cur)
    (pid : Int) : Evolves S R F k.sched (waitChild k pid).2.sched := by
  unfold waitChild
  split
  · split
    · exact .refl hR _
    · rename_i a r _
      obtain ⟨he, hr⟩ := evolves_semWait (S := S) hR { k with sems := r } a
      split <;> rename_i k' hw <;> rw [hw] at he hr
      · have hreap := he.trans hR (evolves_reap hR k'.sched)
        generalize reapTerminatedProcesses k'.sched = s at hreap ⊢
        exact hreap
      · exact he.trans hR (evolves_waitChildResume hR (fun cur hcur => hrun cur (hr.symm.trans hcur)) pid a)
      · exact he
  · exact .refl hR _

end

end Tp2So
