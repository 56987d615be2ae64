import Tp2So.Ready.Evolve

/-!
# A boost is never undone

`reset_aging` clears `wait_ticks` and leaves the priority alone.  So a process that aging has moved to
the highest queue stays at the highest priority after it is dispatched.

* `BoostSys`, `execBoost`  runs without `set_priority`, which note the processes that aging has boosted
                           (`raised`) and those dispatched since their boost (`served`);
* `Ranked s s'`            the step from `s` to `s'` changes nobody's priority: every call of the
                           kernel but `set_priority` and aging (`Evolves`);
* `Lifts s s'`             it raises priorities to the highest one at most, which is what aging does;
* `boost_stays`            in every run, a process dispatched since its boost has the highest priority,
                           which is not its own.
-/

set_option linter.unusedVariables false

namespace Tp2So

/-! ## the run -/

structure BoostSys where
  kernel : Kernel
  raised : Nat → Bool
  served : Nat → Bool

def BoostSys.start (k : Kernel) : BoostSys := ⟨k, fun _ => false, fun _ => false⟩

/-- the pass of aging from `s` to `s'` has changed the priority of `a` -/
def boostedBy (s s' : Sched) (a : Nat) : Bool :=
  (s.heap a).map Process.priority != (s'.heap a).map Process.priority

/-- one tick: `raised` until the process gets the CPU, then `served` until it is boosted again -/
def BoostSys.tick (t : BoostSys) (fuel rsp : Nat) : Option BoostSys :=
  (applyAging fuel t.kernel.sched).bind fun s₁ =>
    (schedule fuel rsp t.kernel.sched).map fun r =>
      { kernel := { t.kernel with sched := r.2 }
        raised := fun a => (t.raised a || boostedBy t.kernel.sched s₁ a) && r.2.running != some a
        served := fun a => if boostedBy t.kernel.sched s₁ a then r.2.running == some a
          else t.served a || (t.raised a && r.2.running == some a) }

/-- a step of a run in which nobody calls `set_priority` -/
def execBoost (o : ReadyOp) (t : BoostSys) : Option BoostSys :=
  match o with
  | .setPriority _ _ => none
  | .schedule fuel rsp => t.tick fuel rsp
  | o => (execReady o t.kernel).map fun k => { t with kernel := k }

/-! ## nobody's priority changes -/

def Process.rank (p : Process) : Priority × Priority := (p.priority, p.originalPriority)

/-- a process has the priorities it had, or it is new and starts at its own -/
def Ranked (s s' : Sched) : Prop :=
  Evolves (fun _ => True) (fun p q => q.rank = p.rank) (fun q => q.priority = q.originalPriority) s s'

theorem tame_rank :
    Tame (fun p q => q.rank = p.rank) fun q => q.priority = q.originalPriority := by
  refine ⟨fun _ => rfl, fun _ _ _ h h' => h'.trans h, fun p q h hp => ?_, fun _ _ => rfl,
    fun _ _ => rfl, fun _ _ => rfl, fun _ _ => rfl, fun _ => rfl⟩
  obtain ⟨h1, h2⟩ := Prod.mk.inj h
  exact h1.trans (hp.trans h2.symm)

theorem grows_rank : Grows fun p q => q.rank = p.rank := fun _ _ => rfl

theorem clears_rank : Clears fun p q => q.rank = p.rank := fun _ => rfl

section
variable {s s' t u : Sched} {k : Kernel} {a : Nat} {p q : Process} {pr : Priority}

/-! ## aging raises priorities -/

/-- a process keeps its priority, or goes from a lower one to the highest -/
structure Lifts (s s' : Sched) : Prop where
  next : s'.next = s.next
  lifted : ∀ a q, s'.heap a = some q → ∃ p, s.heap a = some p ∧
    q.originalPriority = p.originalPriority ∧
    (q.priority = p.priority ∨ (q.priority = maxPriority ∧ p.priority ≠ maxPriority))

theorem Lifts.refl (s : Sched) : Lifts s s := ⟨rfl, fun a q hq => ⟨q, hq, rfl, Or.inl rfl⟩⟩

theorem Lifts.trans (h : Lifts s t) (h' : Lifts t u) : Lifts s u := by
  refine ⟨h'.next.trans h.next, fun a r hr => ?_⟩
  obtain ⟨q, hq, ho', hp'⟩ := h'.lifted a r hr
  obtain ⟨p, hp, ho, hpr⟩ := h.lifted a q hq
  refine ⟨p, hp, ho'.trans ho, ?_⟩
  rcases hp' with e' | ⟨e', hn'⟩
  · rw [e']
    exact hpr
  · rcases hpr with e | ⟨e, -⟩
    · exact Or.inr ⟨e', by rw [← e]; exact hn'⟩
    · exact absurd e hn'

theorem lifts_setQueue (s : Sched) (pr : Priority) (x : Queue Nat) : Lifts s (s.setQueue pr x) :=
  ⟨rfl, fun a q hq => ⟨q, hq, rfl, Or.inl rfl⟩⟩

theorem lifts_modify {f : Process → Process} (hf : ∀ p, s.heap a = some p →
    (f p).originalPriority = p.originalPriority ∧ ((f p).priority = p.priority ∨
      ((f p).priority = maxPriority ∧ p.priority ≠ maxPriority))) : Lifts s (s.modify a f) := by
  refine ⟨rfl, fun b q hq => ?_⟩
  obtain ⟨p, hp, rfl⟩ := heapMod_some hq
  refine ⟨p, hp, ?_⟩
  split
  · rename_i e
    subst e
    exact hf p hp
  · exact ⟨rfl, Or.inl rfl⟩

theorem lifts_ageProcess (hpr : pr ≠ maxPriority) (hq : s.heap a = some q) (he : q.priority = pr) :
    Lifts s (ageProcess s pr a p) := by
  have hw := lifts_modify (s := s) (a := a) (f := Process.setWaitTicks (p.waitTicks + 1))
    fun _ _ => ⟨rfl, Or.inl rfl⟩
  have hq' := Sched.modify_heap_self (Process.setWaitTicks (p.waitTicks + 1)) hq
  unfold ageProcess
  simp only
  split
  · refine hw.trans ?_
    unfold boost
    have hup := lifts_modify (s := s.modify a (Process.setWaitTicks (p.waitTicks + 1))) (a := a)
      (f := Process.setPriority maxPriority) fun x hx => by
        obtain rfl := Option.some.inj (hx.symm.trans hq')
        refine ⟨rfl, Or.inr ⟨rfl, ?_⟩⟩
        show q.priority ≠ maxPriority
        rw [he]
        exact hpr
    exact (hup.trans ((lifts_setQueue _ pr _).trans (lifts_setQueue _ maxPriority _))).trans
      (lifts_modify fun _ _ => ⟨rfl, Or.inl rfl⟩)
  · exact hw

theorem lifts_applyAging {fuel : Nat} (hok : s.Ok) (h : applyAging fuel s = some s') :
    Lifts s s' := by
  have hrule : Sched.AgingRule fun t => t.Ok ∧ Lifts s t := by
    refine ⟨fun ht hq => ⟨ht.1.cursor _ hq, ht.2.trans (lifts_setQueue _ _ _)⟩, fun ht hpr ha hp => ?_⟩
    obtain ⟨-, -, q, hq, -, hqp, -⟩ := ht.1.queued _ _ ha
    exact ⟨Sched.ok_ageProcess ht.1 ha, ht.2.trans (lifts_ageProcess hpr hq hqp)⟩
  exact (hrule.pass ⟨hok, .refl s⟩ h).2

/-! ## the boosted processes -/

/-- a process has its own priority or the highest -/
def Sched.Owned (s : Sched) : Prop :=
  ∀ a p, s.heap a = some p → p.priority = p.originalPriority ∨ p.priority = maxPriority

/-- a process has the highest priority, which is not its own -/
def Sched.High (s : Sched) (a : Nat) : Prop :=
  a < s.next ∧ ∀ p, s.heap a = some p → p.priority = maxPriority ∧ p.originalPriority ≠ maxPriority

theorem Ranked.owned (h : Ranked s s') (hs : s.Owned) : s'.Owned := by
  intro a q hq
  rcases h.kept a q trivial hq with ⟨p, hp, e⟩ | ⟨-, e⟩
  · obtain ⟨e1, e2⟩ := Prod.mk.inj e
    rw [e1, e2]
    exact hs a p hp
  · exact Or.inl e

theorem Ranked.high (h : Ranked s s') (ha : s.High a) : s'.High a := by
  refine ⟨Nat.lt_of_lt_of_le ha.1 h.next, fun q hq => ?_⟩
  rcases h.kept a q trivial hq with ⟨p, hp, e⟩ | ⟨hle, -⟩
  · obtain ⟨e1, e2⟩ := Prod.mk.inj e
    rw [e1, e2]
    exact ha.2 p hp
  · exact absurd ha.1 (by omega)

theorem Lifts.owned (h : Lifts s s') (hs : s.Owned) : s'.Owned := by
  intro a q hq
  obtain ⟨p, hp, ho, hpr⟩ := h.lifted a q hq
  rcases hpr with e | ⟨e, -⟩
  · rw [e, ho]
    exact hs a p hp
  · exact Or.inr e

theorem Lifts.high (h : Lifts s s') (ha : s.High a) : s'.High a := by
  refine ⟨by rw [h.next]; exact ha.1, fun q hq => ?_⟩
  obtain ⟨p, hp, ho, hpr⟩ := h.lifted a q hq
  obtain ⟨hmax, hown⟩ := ha.2 p hp
  rw [ho]
  rcases hpr with e | ⟨-, hn⟩
  · exact ⟨e.trans hmax, hown⟩
  · exact absurd hmax hn

/-- a process that aging boosts had its own priority before -/
theorem Lifts.boosted (h : Lifts s s') (hok : s.Ok) (hs : s.Owned)
    (hb : boostedBy s s' a = true) : s'.High a := by
  unfold boostedBy at hb
  have hne := bne_iff_ne.mp hb
  have hlive : ∃ p, s.heap a = some p := by
    cases hp : s.heap a with
    | some p => exact ⟨p, rfl⟩
    | none =>
      cases hq : s'.heap a with
      | none => exact absurd (by rw [hp, hq]) hne
      | some q =>
        obtain ⟨p, hp', -⟩ := h.lifted a q hq
        exact absurd (hp.symm.trans hp') (by simp)
  obtain ⟨p, hp⟩ := hlive
  refine ⟨by rw [h.next]; exact hok.lt_next hp, fun q hq => ?_⟩
  obtain ⟨p', hp', ho, hpr⟩ := h.lifted a q hq
  obtain rfl := Option.some.inj (hp.symm.trans hp')
  rcases hpr with e | ⟨e, hlow⟩
  · exact absurd (by rw [hp, hq]; exact congrArg some e.symm) hne
  · refine ⟨e, ?_⟩
    rw [ho]
    rcases hs a p hp with hown | hmax
    · rw [← hown]
      exact hlow
    · exact absurd hmax hlow

/-! ## the run -/

structure BoostSys.Inv (t : BoostSys) : Prop where
  ok : t.kernel.sched.Ok
  owned : t.kernel.sched.Owned
  high : ∀ a, t.raised a = true ∨ t.served a = true → t.kernel.sched.High a

theorem BoostSys.Inv.still {t : BoostSys} (h : t.Inv) {k : Kernel} (hok : k.sched.Ok)
    (hr : Ranked t.kernel.sched k.sched) : BoostSys.Inv { t with kernel := k } :=
  ⟨hok, hr.owned h.owned, fun a ha => hr.high (h.high a ha)⟩

theorem BoostSys.Inv.tick {t t' : BoostSys} {fuel rsp : Nat} (h : t.Inv)
    (ht : t.tick fuel rsp = some t') : t'.Inv := by
  unfold BoostSys.tick at ht
  obtain ⟨s₁, h₁, ht⟩ := Option.bind_eq_some_iff.mp ht
  obtain ⟨r, hr, rfl⟩ := Option.map_eq_some_iff.mp ht
  have hl := lifts_applyAging h.ok h₁
  have hk : Ranked s₁ r.2 := evolves_afterAging tame_rank h₁ hr
  have hold : ∀ a, t.raised a = true ∨ t.served a = true → r.2.High a := fun a ha =>
    hk.high (hl.high (h.high a ha))
  have hnew : ∀ a, boostedBy t.kernel.sched s₁ a = true → r.2.High a := fun a ha =>
    hk.high (hl.boosted h.ok h.owned ha)
  refine ⟨Sched.ok_schedule h.ok hr, hk.owned (hl.owned h.owned), fun a ha => ?_⟩
  by_cases hb : boostedBy t.kernel.sched s₁ a = true
  · exact hnew a hb
  · refine hold a ?_
    simp only [hb, Bool.or_false, Bool.and_eq_true, Bool.or_eq_true, if_false,
      Bool.false_eq_true] at ha
    rcases ha with ⟨hr, -⟩ | hs | ⟨hr, -⟩
    · exact Or.inl hr
    · exact Or.inr hs
    · exact Or.inl hr

theorem inv_execBoost (o : ReadyOp) (t t' : BoostSys) (h : t.Inv) (_ : True)
    (ht : execBoost o t = some t') : t'.Inv := by
  cases o with
  | setPriority pid pr => exact absurd ht (by simp [execBoost])
  | schedule fuel rsp => exact h.tick ht
  | create args =>
    obtain rfl := Option.some.inj ht
    exact h.still (Sched.ok_createProcess h.ok args) (evolves_createProcess tame_rank h.ok
      (fun _ _ _ => grows_rank) (fun _ _ _ _ => rfl) args)
  | kill pid =>
    obtain rfl := Option.some.inj ht
    exact h.still (Sched.ok_killProcess h.ok pid) (evolves_killProcess tame_rank
      (fun _ _ _ => grows_rank) fun _ _ _ => clears_rank)
  | terminate =>
    obtain ⟨k, hk, rfl⟩ := Option.map_eq_some_iff.mp ht
    have hok := Sched.ok_step .terminate _ _ h.ok rfl hk
    have hk' : (if t.kernel.sched.running = t.kernel.sched.idle then none
        else processTerminator t.kernel) = some k := hk
    split at hk'
    · exact absurd hk' (by simp)
    · exact h.still hok (evolves_processTerminator tame_rank h.ok (fun _ _ _ => grows_rank)
        (fun _ _ _ => clears_rank) hk')
  | block pid =>
    obtain rfl := Option.some.inj ht
    refine h.still (Sched.ok_step (.block pid) _ _ h.ok rfl rfl) ?_
    unfold onProcess
    split
    · exact .refl tame_rank _
    · exact evolves_blockProcess tame_rank _ _
  | unblock pid =>
    obtain rfl := Option.some.inj ht
    refine h.still (Sched.ok_step (.unblock pid) _ _ h.ok rfl rfl) ?_
    unfold onProcess
    split
    · exact .refl tame_rank _
    · exact evolves_unblockProcess tame_rank _ _

theorem inv_boosts (stackBase : Nat) (recycled : List Int) :
    (BoostSys.start (initScheduler stackBase recycled)).Inv := by
  have hs : (initScheduler stackBase recycled).sched = Sched.bootSched stackBase recycled := by
    rw [Sched.initScheduler_eq]
  refine ⟨?_, fun a p hp => ?_, fun a ha => ?_⟩
  · show (initScheduler stackBase recycled).sched.Ok
    rw [hs]
    exact Sched.ok_bootSched stackBase recycled
  · have hp' : (initScheduler stackBase recycled).sched.heap a = some p := hp
    rw [hs] at hp'
    have hp'' : Function.update (fun _ => none) 0
      (some ((Sched.idleProcess stackBase recycled).setState .running)) a = some p := hp'
    by_cases e : a = 0
    · rw [e, Function.update_self] at hp''
      obtain rfl := Option.some.inj hp''
      exact Or.inl rfl
    · rw [Function.update_of_ne e] at hp''
      exact absurd hp'' (by simp)
  · rcases ha with ha | ha
    · exact absurd ha Bool.false_ne_true
    · exact absurd ha Bool.false_ne_true

/-- **A boost is never undone.**  In every run without `set_priority`, a process that has been
dispatched since aging boosted it has the highest priority, which is not its own, and is queued
nowhere but in the highest queue. -/
theorem boost_stays {stackBase : Nat} {recycled : List Int} {os : List ReadyOp} {t : BoostSys}
    (h : run execBoost os (.start (initScheduler stackBase recycled)) = some t)
    (ha : t.served a = true) (hp : t.kernel.sched.heap a = some p) :
    p.priority = maxPriority ∧ p.originalPriority ≠ maxPriority ∧
      ∀ pr, a ∈ (t.kernel.sched.ready pr).elems → pr = maxPriority := by
  have hinv : t.Inv := Runs.inv (I := BoostSys.Inv) inv_execBoost (runs_true_iff.mpr h)
    (inv_boosts stackBase recycled)
  obtain ⟨hmax, hown⟩ := (hinv.high a (Or.inr ha)).2 p hp
  refine ⟨hmax, hown, fun pr hq => ?_⟩
  obtain ⟨-, -, q, hq, -, hpr, -⟩ := hinv.ok.queued pr a hq
  obtain rfl := Option.some.inj (hp.symm.trans hq)
  exact hpr.symm.trans hmax

/-- a process of priority `0` is created, one of priority `3` keeps the CPU for fifty ticks, and then
the first one is boosted, dispatched and preempted -/
def starved : List ReadyOp :=
  [.create { plainArgs ['a'] 8192 with priority := 0 },
    .create { plainArgs ['b'] 16384 with priority := 3 }, .schedule 4 7]
    ++ List.replicate 49 (.schedule 4 16400) ++ [.schedule 4 8200]

theorem boost_stays_starved : ∃ t p, run execBoost starved (.start (initScheduler 0 [])) = some t ∧
    t.served 1 = true ∧ t.kernel.sched.heap 1 = some p ∧ p.priority = maxPriority ∧
    p.originalPriority ≠ maxPriority := by
  have hrun : (run execBoost starved (.start (initScheduler 0 []))).map
      (fun t => (t.served 1, (t.kernel.sched.heap 1).isSome)) = some (true, true) := by
    decide +kernel
  obtain ⟨t, ht, hv⟩ := Option.map_eq_some_iff.mp hrun
  obtain ⟨hs, hlive⟩ := Prod.mk.inj hv
  obtain ⟨p, hp⟩ := Option.isSome_iff_exists.mp hlive
  obtain ⟨h1, h2, -⟩ := boost_stays ht hs hp
  exact ⟨t, p, ht, hs, hp, h1, h2⟩

/-- the boosted process of priority `0` waits in queue `3` when it is next preempted -/
theorem boost_not_temporary : ∃ t p, run execBoost starved (.start (initScheduler 0 [])) = some t ∧
    t.served 1 = true ∧ t.kernel.sched.heap 1 = some p ∧ p.originalPriority = 0 ∧ p.priority = 3 ∧
    1 ∈ (t.kernel.sched.ready 3).elems := by
  have hrun : (run execBoost starved (.start (initScheduler 0 []))).map
      (fun t => (t.served 1, (t.kernel.sched.heap 1).map Process.rank, (t.kernel.sched.ready 3).elems))
      = some (true, some (3, 0), [1]) := by decide +kernel
  obtain ⟨t, ht, hv⟩ := Option.map_eq_some_iff.mp hrun
  obtain ⟨hs, hv⟩ := Prod.mk.inj hv
  obtain ⟨hr, hq⟩ := Prod.mk.inj hv
  obtain ⟨p, hp, hr⟩ := Option.map_eq_some_iff.mp hr
  obtain ⟨h3, h0⟩ := Prod.mk.inj hr
  exact ⟨t, p, ht, hs, hp, h0, h3, by rw [hq]; exact List.mem_singleton.mpr rfl⟩

end

end Tp2So
