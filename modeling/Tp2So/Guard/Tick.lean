import Tp2So.Guard.Calls
import Tp2So.Ready.Tick

/-!
# The idle and the init process: the tick

`schedule` takes the init process from the CPU to a queue and from a queue to the CPU, and never
drops it (`guarded_schedule`): every list it leaves, it leaves for the next one in the same tick.

* `guard_applyAging`   the aging pass moves it from one queue to another at most;
* `guard_preempt`      after it is put away, it is in one queue;
* `Picked`             what the choice hands to `dispatch`.
-/

set_option linter.unusedVariables false

namespace Tp2So

namespace Sched

/-- the init process is running and in no queue, or not running and in one queue -/
def Guarded (i j base : Nat) (s : Sched) : Prop :=
  s.Guard i j base .cpu True ∨ s.Guard i j base .queue False

variable {i j base a : Nat} {m : InitAt} {c : Prop} {s s' : Sched} {p : Process} {pr : Priority}

/-! ## aging -/

theorem count_le_places (s : Sched) (pr : Priority) (a : Nat) :
    (s.ready pr).elems.count a ≤ s.places a := by
  unfold places
  match pr with
  | 0 => omega
  | 1 => omega
  | 2 => omega
  | 3 => omega

/-- an init process that is in a queue is there by right -/
theorem Guard.queue_of_mem (h : s.Guard i j base m c) (hj : j ∈ (s.ready pr).elems) :
    m = .queue := by
  have hpos : 0 < (s.ready pr).elems.count j := List.count_pos_iff.mpr hj
  have hle := count_le_places s pr j
  have hm := h.init
  cases m with
  | queue => rfl
  | cpu =>
    have hz : s.places j = 0 := hm
    omega
  | hand =>
    have hz : s.places j = 0 := hm
    omega

theorem Guard.waitTicks (h : s.Guard i j base m c) (a n : Nat) :
    (s.modify a (Process.setWaitTicks n)).Guard i j base m c :=
  h.still a (fun _ => ⟨rfl, rfl⟩) fun _ => ⟨rfl, rfl⟩

theorem guard_boost (h : s.Guard i j base m c) (ha : a ∈ (s.ready pr).elems) :
    (boost s pr a).Guard i j base m c := by
  have hpr : (s.modify a (Process.setPriority maxPriority)).Guard i j base m c :=
    h.still a (fun _ => ⟨rfl, rfl⟩) fun _ => ⟨rfl, rfl⟩
  unfold boost
  by_cases e : a = j
  · subst e
    obtain rfl := h.queue_of_mem ha
    exact ((hpr.leaveInit ha).appendInit maxPriority).waitTicks a 0
  · have hi : a ≠ i := fun e => h.noIdle pr (e ▸ ha)
    exact ((hpr.leave e pr).append hi e maxPriority).waitTicks a 0

theorem guard_ageProcess (h : s.Guard i j base m c) (ha : a ∈ (s.ready pr).elems) :
    (ageProcess s pr a p).Guard i j base m c := by
  have hw := h.waitTicks a (p.waitTicks + 1)
  unfold ageProcess
  simp only
  split
  · exact guard_boost hw ha
  · exact hw

theorem guard_applyAging {fuel : Nat} (h : s.Guard i j base m c)
    (hs : applyAging fuel s = some s') : s'.Guard i j base m c := by
  have hrule : AgingRule fun s => s.Guard i j base m c :=
    ⟨fun h hq => h.cursor _ hq, fun h _ ha _ => guard_ageProcess h ha⟩
  exact hrule.pass h hs

/-! ## putting the running process away -/

theorem Guarded.queue (h : Guarded i j base s) (hr : s.running ≠ some j) :
    s.Guard i j base .queue False :=
  h.elim (fun h => absurd (h.cpu.mpr trivial) hr) id

theorem Guarded.cpu (h : Guarded i j base s) (hr : s.running = some j) :
    s.Guard i j base .cpu True :=
  h.elim id fun h => (h.cpu.mp hr).elim

theorem Guard.putAway (h : s.Guard i j base .cpu c) {rsp : Nat} (hin : base ≤ rsp)
    (hin' : rsp < base + processStackSize) :
    (s.modify j (Process.setRsp rsp)).Guard i j base .cpu c := by
  refine h.edit (fun _ => rfl) (fun e => absurd e.symm h.ne) ?_ rfl
  obtain ⟨p, hp, hst, hb, -⟩ := h.initProc
  refine ⟨_, modify_heap_self (Process.setRsp rsp) hp, hst, hb, ?_⟩
  show p.stackBase ≤ rsp ∧ rsp < p.stackBase + processStackSize
  rw [hb]
  exact ⟨hin, hin'⟩

theorem Guard.quantum (h : s.Guard i j base m c) (a : Nat) (n : Int) :
    (s.modify a (Process.setQuantum n)).Guard i j base m c :=
  h.still a (fun _ => ⟨rfl, rfl⟩) fun _ => ⟨rfl, rfl⟩

theorem Guard.initState {n : InitAt} (h : s.Guard i j base m c) (hm : n.places = m.places) :
    (s.modify j (Process.setState n.state)).Guard i j base n c := by
  refine h.edit (fun _ => rfl) (fun e => absurd e.symm h.ne) ?_ hm
  obtain ⟨p, hp, -, hin⟩ := h.initProc
  exact ⟨_, modify_heap_self _ hp, rfl, hin⟩

theorem Guard.enterInit (h : s.Guard i j base .hand c) :
    (addToScheduler s j).Guard i j base .queue c := by
  have hi : s.idle ≠ some j := fun e => h.ne (Option.some.inj (h.idle.symm.trans e))
  have hst := h.initState (n := .hand) rfl
  obtain ⟨p, hp, -⟩ := hst.initProc
  unfold addToScheduler
  rw [if_neg hi]
  simp only [InitAt.state] at hp
  simp only [hp]
  exact hst.appendInit p.priority

theorem guard_preempt {rsp : Nat} {r : Sched ⊕ Sched} (h : Guarded i j base s)
    (hin : s.running = some j → base ≤ rsp ∧ rsp < base + processStackSize)
    (hr : preempt rsp s = some r) :
    r.elim (Guarded i j base) fun t => ∃ c, t.Guard i j base .queue c := by
  unfold preempt at hr
  cases hrun : s.running with
  | none =>
    simp only [hrun] at hr
    exact Option.some.inj hr ▸ ⟨_, h.queue (by rw [hrun]; simp)⟩
  | some a =>
    simp only [hrun] at hr
    cases hp : s.heap a with
    | none => simp only [hp] at hr; exact absurd hr (by simp)
    | some p =>
      simp only [hp] at hr
      by_cases e : a = j
      · subst e
        -- the init process runs: it is RUNNING, and goes to the queue of its priority
        have hg := (h.cpu hrun).putAway (hin hrun).1 (hin hrun).2
        have hst : p.state = .running := by
          obtain ⟨q, hq, hqs, -⟩ := (h.cpu hrun).initProc
          obtain rfl := Option.some.inj (hp.symm.trans hq)
          exact hqs
        have h1 := hg.quantum a (p.quantumRemaining - 1)
        simp only [hst] at hr
        split at hr
        · exact Option.some.inj hr ▸ Or.inl h1
        · have h2 := (h1.quantum a defaultQuantum).initState (n := .hand) rfl
          exact Option.some.inj hr ▸ ⟨_, h2.enterInit⟩
      · have hq := h.queue fun hj => e (Option.some.inj (hrun.symm.trans hj))
        -- another process: the init process stays where it is
        have hg : (s.modify a (Process.setRsp rsp)).Guard i j base .queue False := by
          refine hq.edit (fun _ => rfl) (fun _ _ hact => hact) ?_ rfl
          obtain ⟨q, hqj, hqs⟩ := hq.initProc
          exact ⟨q, by rw [modify_heap, heapMod_of_ne _ _ (Ne.symm e)]; exact hqj, hqs⟩
        cases hst : p.state with
        | terminated =>
          simp only [hst] at hr
          exact Option.some.inj hr ▸ ⟨False, hg.setRunning (iff_of_false (by simp) not_false)⟩
        | blocked =>
          simp only [hst] at hr
          exact Option.some.inj hr ▸ ⟨False, hg.setRunning (iff_of_false (by simp) not_false)⟩
        | ready =>
          simp only [hst] at hr
          exact Option.some.inj hr ▸ ⟨_, hg⟩
        | running =>
          have h1 := hg.quantum a (p.quantumRemaining - 1)
          simp only [hst] at hr
          split at hr
          · exact Option.some.inj hr ▸ Or.inr h1
          · have h2 : (((s.modify a (Process.setRsp rsp)).modify a
                (Process.setQuantum (p.quantumRemaining - 1))).modify a
                (Process.setQuantum defaultQuantum)).Guard i j base .queue False :=
              h1.quantum a defaultQuantum
            have h3 : ((((s.modify a (Process.setRsp rsp)).modify a
                (Process.setQuantum (p.quantumRemaining - 1))).modify a
                (Process.setQuantum defaultQuantum)).modify a
                (Process.setState .ready)).Guard i j base .queue False := by
              refine h2.edit (fun _ => rfl) (fun _ _ _ => Or.inl rfl) ?_ rfl
              obtain ⟨q, hqj, hqs⟩ := h2.initProc
              exact ⟨q, by rw [modify_heap, heapMod_of_ne _ _ (Ne.symm e)]; exact hqj, hqs⟩
            exact Option.some.inj hr ▸ ⟨_, guard_addToScheduler h3 e⟩

/-! ## choosing -/

/-- what the choice hands to `dispatch` -/
def Picked (i j base : Nat) (next : Option Nat) (s : Sched) : Prop :=
  ∃ c, match next with
  | none => s.Guard i j base .queue c
  | some a => a ≠ i ∧ if a = j then s.Guard i j base .hand c else s.Guard i j base .queue c

theorem picked_selectFrom (n : Nat) :
    ∀ {s s' : Sched} {next : Option Nat}, (∃ c, s.Guard i j base .queue c) →
      selectFrom pr n s = some (next, s') → Picked i j base next s' := by
  induction n with
  | zero =>
    intro s s' next h hs
    obtain ⟨rfl, rfl⟩ := Prod.mk.inj (Option.some.inj hs)
    exact h
  | succ n ih =>
    intro s s' next h hs
    obtain ⟨c, hg⟩ := h
    unfold selectFrom at hs
    cases hd : dequeue (s.ready pr) with
    | none =>
      simp only [hd] at hs
      obtain ⟨rfl, rfl⟩ := Prod.mk.inj (Option.some.inj hs)
      exact ⟨c, hg⟩
    | some r =>
      obtain ⟨a, q⟩ := r
      have he := dequeue_eq_some hd
      have hi : a ≠ i := fun e => hg.noIdle pr (by rw [he, e]; exact List.mem_cons_self)
      have hi' : i ∉ q.elems := fun hm => hg.noIdle pr (by rw [he]; exact List.mem_cons_of_mem _ hm)
      simp only [hd] at hs
      by_cases e : a = j
      · subst e
        have hh : (s.setQueue pr q).Guard i a base .hand c := by
          refine hg.queue hi' ?_ rfl
          rw [he, List.count_cons_self]
          show 0 + _ = 1 + _
          omega
        obtain ⟨p, hp, hst, -⟩ := hh.initProc
        have hidle : (s.setQueue pr q).idle ≠ some a :=
          fun e => hi (Option.some.inj (hh.idle.symm.trans e)).symm
        simp only [hp] at hs
        rw [if_pos ⟨hst, hidle⟩] at hs
        obtain ⟨rfl, rfl⟩ := Prod.mk.inj (Option.some.inj hs)
        exact ⟨c, hi, by rw [if_pos rfl]; exact hh⟩
      · have hq : (s.setQueue pr q).Guard i j base .queue c := by
          refine hg.queue hi' ?_ rfl
          rw [he, List.count_cons_of_ne e]
        split at hs
        · exact absurd hs (by simp)
        · split at hs
          · obtain ⟨rfl, rfl⟩ := Prod.mk.inj (Option.some.inj hs)
            exact ⟨c, hi, by rw [if_neg e]; exact hq⟩
          · exact ih ⟨c, hq⟩ hs

theorem picked_selectNext (prs : List Priority) {next : Option Nat}
    (h : ∃ c, s.Guard i j base .queue c) (hs : selectNext prs s = some (next, s')) :
    Picked i j base next s' := by
  induction prs generalizing s with
  | nil =>
    obtain ⟨rfl, rfl⟩ := Prod.mk.inj (Option.some.inj hs)
    exact h
  | cons pr prs ih =>
    unfold selectNext at hs
    cases hf : selectFrom pr (queueSize (s.ready pr)) s with
    | none => simp only [hf] at hs; exact absurd hs (by simp)
    | some r =>
      obtain ⟨next', s1⟩ := r
      have hp := picked_selectFrom _ h hf
      simp only [hf] at hs
      cases next' with
      | none => exact ih hp hs
      | some a =>
        obtain ⟨rfl, rfl⟩ := Prod.mk.inj (Option.some.inj hs)
        exact hp

/-! ## dispatching -/

theorem guarded_runIdle {r : Nat × Sched} (h : ∃ c, s.Guard i j base .queue c)
    (hs : runIdle s = some r) : Guarded i j base r.2 := by
  obtain ⟨c, hg⟩ := h
  obtain ⟨p, hp, -⟩ := hg.idleProc
  unfold runIdle at hs
  simp only [hg.idle, hp] at hs
  obtain rfl := Option.some.inj hs
  have hrun : (s.modify i (Process.setState .running)).Guard i j base .queue c := by
    refine hg.edit (fun _ => rfl) (fun _ _ _ => Or.inr rfl) ?_ rfl
    obtain ⟨q, hq, hqs⟩ := hg.initProc
    exact ⟨q, by rw [modify_heap, heapMod_of_ne _ _ hg.ne.symm]; exact hq, hqs⟩
  exact Or.inr (hrun.setRunning (iff_of_false (fun e => hg.ne (Option.some.inj e)) not_false))

theorem guarded_dispatch {next : Option Nat} {r : Nat × Sched} (h : Picked i j base next s)
    (hs : dispatch next s = some r) : Guarded i j base r.2 := by
  obtain ⟨c, h⟩ := h
  cases next with
  | none => exact guarded_runIdle ⟨c, h⟩ hs
  | some a =>
    obtain ⟨hi, h⟩ := h
    unfold dispatch at hs
    cases hp : s.heap a with
    | none => simp only [hp] at hs; exact absurd hs (by simp)
    | some p =>
      simp only [hp] at hs
      by_cases e : a = j
      · subst e
        rw [if_pos rfl] at h
        obtain ⟨q, hq, hst, -, hin⟩ := h.initProc
        obtain rfl := Option.some.inj (hp.symm.trans hq)
        have hready : ¬ p.state ≠ .ready := not_not_intro hst
        have hstack : ¬ (p.rsp < p.stackBase ∨ p.stackBase + processStackSize ≤ p.rsp) := by
          obtain ⟨h1, h2⟩ := hin
          omega
        rw [if_neg hready, if_neg hstack] at hs
        obtain rfl := Option.some.inj hs
        have h1 := (h.initState (n := .cpu) rfl).quantum a defaultQuantum
        have h2 := h1.setRunning (x := some a) (d := True) (iff_of_true rfl trivial)
        exact Or.inl (guard_resetAging h2 a)
      · rw [if_neg e] at h
        have h1 := (h.other (f := Process.setState .running) hi e fun _ => rfl).quantum a
          defaultQuantum
        have h2 := h1.setRunning (x := some a) (d := False)
          (iff_of_false (fun ha => e (Option.some.inj ha)) not_false)
        have h3 := guard_resetAging h2 a
        split at hs
        · exact guarded_runIdle ⟨c, h⟩ hs
        · split at hs
          · exact guarded_runIdle ⟨_, h3⟩ hs
          · obtain rfl := Option.some.inj hs
            exact Or.inr h3

theorem guarded_applyAging {fuel : Nat} (h : Guarded i j base s) (ha : applyAging fuel s = some s') :
    Guarded i j base s' := by
  rcases h with h | h
  · exact Or.inl (guard_applyAging h ha)
  · exact Or.inr (guard_applyAging h ha)

/-- **The tick.**  It keeps both processes, if the stack pointer it saves for a running init process
is inside that process's stack. -/
theorem guarded_schedule {fuel rsp : Nat} {r : Nat × Sched} (h : Guarded i j base s)
    (hin : s.running = some j → base ≤ rsp ∧ rsp < base + processStackSize)
    (hs : schedule fuel rsp s = some r) : Guarded i j base r.2 := by
  obtain ⟨s₁, ha, hparts⟩ := schedule_parts hs
  have h₁ : Guarded i j base s₁ := guarded_applyAging h ha
  have hin₁ : s₁.running = some j → base ≤ rsp ∧ rsp < base + processStackSize := by
    intro hr
    refine hin ?_
    rcases h with h | h
    · exact h.cpu.mpr trivial
    · exact ((guard_applyAging h ha).cpu.mp hr).elim
  rcases hparts with ⟨s₂, hp, rfl⟩ | ⟨s₂, next, s₃, hp, hsel, hd⟩
  · exact guard_preempt h₁ hin₁ hp
  · exact guarded_dispatch (picked_selectNext _ (guard_preempt h₁ hin₁ hp) hsel) hd

end Sched

end Tp2So
