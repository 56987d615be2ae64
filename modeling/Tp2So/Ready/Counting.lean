import Tp2So.Ready.Aging
import Tp2So.Ready.Runs

/-!
# Who is counted at a tick, and that the tick ends

* `AgedAll`             what `apply_aging` does to queues that are lined up, and `applyAging_spec`,
                        which also says that it ends;
* `CountedOnce`         every process below the highest queue is counted once, and those that reach
                        the threshold are moved;
* `countedOnce_iff`     this is so exactly when no queue of two or more processes has a head that is
                        due;
* `schedule_ends`       in every run in which `set_priority` does not misplace a READY process, the
                        next tick ends.
-/

set_option linter.unusedVariables false

namespace Tp2So

/-! ## the three passes -/

structure AgedAll (s s' : Sched) : Prop where
  aged : ∀ pr, pr ≠ maxPriority → ∀ a ∈ counted s pr, s'.heap a = (s.heap a).map Process.age
  same : ∀ a, (∀ pr, pr ≠ maxPriority → a ∉ counted s pr) → s'.heap a = s.heap a
  own : ∀ pr, pr ≠ maxPriority →
    (s'.ready pr).elems = (s.ready pr).elems.filter fun a => !(decide (a ∈ counted s pr) && due s a)
  top : (s'.ready maxPriority).elems = (s.ready maxPriority).elems
    ++ ((counted s 0).filter (due s) ++ ((counted s 1).filter (due s) ++ (counted s 2).filter (due s)))
  idle : s'.idle = s.idle
  running : s'.running = s.running
  table : s'.table = s.table
  lined : s'.Lined

section
variable {s s' : Sched} {pr pr' : Priority} {a b : Nat} {p : Process} {xs l : List Nat}

theorem counted_congr (hq : (s'.ready pr).elems = (s.ready pr).elems)
    (hh : ∀ a ∈ (s.ready pr).elems, s'.heap a = s.heap a) : counted s' pr = counted s pr := by
  cases he : (s.ready pr).elems with
  | nil => rw [counted_nil he, counted_nil (hq.trans he)]
  | cons a l =>
    have ha : a ∈ (s.ready pr).elems := by
      rw [he]
      exact List.mem_cons_self
    rw [counted_cons he, counted_cons (hq.trans he), due_congr (hh a ha)]

/-- a pass over one queue leaves the processes of the others alone -/
theorem Aged.heap_elsewhere (h : Aged pr xs s s') (hl : s.Lined)
    (hxs : ∀ b ∈ xs, b ∈ (s.ready pr).elems) (pr' : Priority) (hne : pr' ≠ pr)
    (ha : a ∈ (s.ready pr').elems) :
    s'.heap a = s.heap a := by
  rw [h.heap a, if_neg fun hm => hne (hl.apart pr' pr a ha (hxs a hm))]

theorem Aged.counted_elsewhere (h : Aged pr xs s s') (hl : s.Lined)
    (hxs : ∀ b ∈ xs, b ∈ (s.ready pr).elems) (pr' : Priority) (hne : pr' ≠ pr)
    (htop : pr' ≠ maxPriority) :
    counted s' pr' = counted s pr' :=
  counted_congr (h.other pr' hne htop) fun a ha => h.heap_elsewhere hl hxs pr' hne ha

/-- **`apply_aging`** on queues that are lined up. -/
theorem applyAging_spec (hl : s.Lined) {fuel : Nat}
    (hfuel : ∀ pr, (s.ready pr).elems.length < fuel) :
    ∃ s', applyAging fuel s = some s' ∧ AgedAll s s' := by
  -- queue 0, queue 1, queue 2
  have h0ne : (0 : Priority) ≠ maxPriority := by decide
  have h1ne : (1 : Priority) ≠ maxPriority := by decide
  have h2ne : (2 : Priority) ≠ maxPriority := by decide
  obtain ⟨s₁, hr₁, ha₁⟩ := ageQueue_spec hl h0ne (hfuel 0)
  have hl₁ := ha₁.lined h0ne (counted_nodup hl 0) (counted_subset s 0) hl
  have hq1 := ha₁.other 1 (by decide) h1ne
  have hc1 := ha₁.counted_elsewhere hl (counted_subset s 0) 1 (by decide) h1ne
  obtain ⟨s₂, hr₂, ha₂⟩ := ageQueue_spec hl₁ h1ne (by rw [hq1]; exact hfuel 1)
  have hl₂ := ha₂.lined h1ne (counted_nodup hl₁ 1) (counted_subset s₁ 1) hl₁
  have hq2 : (s₂.ready 2).elems = (s.ready 2).elems :=
    (ha₂.other 2 (by decide) h2ne).trans (ha₁.other 2 (by decide) h2ne)
  have hc2 : counted s₂ 2 = counted s 2 :=
    (ha₂.counted_elsewhere hl₁ (counted_subset s₁ 1) 2 (by decide) h2ne).trans
      (ha₁.counted_elsewhere hl (counted_subset s 0) 2 (by decide) h2ne)
  obtain ⟨s₃, hr₃, ha₃⟩ := ageQueue_spec hl₂ h2ne (by rw [hq2]; exact hfuel 2)
  have hl₃ := ha₃.lined h2ne (counted_nodup hl₂ 2) (counted_subset s₂ 2) hl₂
  rw [hc1] at ha₂
  rw [hc2] at ha₃
  -- the processes of queues 1 and 2 when their turn comes
  have hh1 : ∀ a ∈ (s.ready 1).elems, s₁.heap a = s.heap a := fun a ha =>
    ha₁.heap_elsewhere hl (counted_subset s 0) 1 (by decide) ha
  have hsub1 : ∀ b ∈ counted s 1, b ∈ (s₁.ready 1).elems := fun b hb => by
    rw [hq1]
    exact counted_subset s 1 b hb
  have hh2 : ∀ a ∈ (s.ready 2).elems, s₂.heap a = s.heap a := by
    intro a ha
    have hmem : a ∈ (s₁.ready 2).elems := by
      rw [ha₁.other 2 (by decide) h2ne]
      exact ha
    rw [ha₂.heap_elsewhere hl₁ hsub1 2 (by decide) hmem]
    exact ha₁.heap_elsewhere hl (counted_subset s 0) 2 (by decide) ha
  have hd1 : ∀ a ∈ (s.ready 1).elems, due s₁ a = due s a := fun a ha => due_congr (hh1 a ha)
  have hd2 : ∀ a ∈ (s.ready 2).elems, due s₂ a = due s a := fun a ha => due_congr (hh2 a ha)
  refine ⟨s₃, ?_, ⟨fun pr hpr a ha => ?_, fun a ha => ?_, fun pr hpr => ?_, ?_,
    ha₃.idle.trans (ha₂.idle.trans ha₁.idle), ha₃.running.trans (ha₂.running.trans ha₁.running),
    ha₃.table.trans (ha₂.table.trans ha₁.table), hl₃⟩⟩
  · unfold applyAging
    rw [hr₁, Option.bind_some, hr₂, Option.bind_some, hr₃]
  · have hq := counted_subset s pr a ha
    have hno : ∀ pr', pr' ≠ pr → a ∉ counted s pr' := fun pr' hne hm =>
      hne (hl.apart pr' pr a (counted_subset s pr' a hm) hq)
    rw [ha₃.heap a, ha₂.heap a, ha₁.heap a]
    match pr, hpr with
    | 0, _ => rw [if_neg (hno 2 (by decide)), if_neg (hno 1 (by decide)), if_pos ha]
    | 1, _ => rw [if_neg (hno 2 (by decide)), if_pos ha, if_neg (hno 0 (by decide))]
    | 2, _ => rw [if_pos ha, if_neg (hno 1 (by decide)), if_neg (hno 0 (by decide))]
    | 3, hpr => exact absurd rfl hpr
  · rw [ha₃.heap a, ha₂.heap a, ha₁.heap a, if_neg (ha 2 h2ne), if_neg (ha 1 h1ne),
      if_neg (ha 0 h0ne)]
  · match pr, hpr with
    | 0, _ => rw [ha₃.other 0 (by decide) h0ne, ha₂.other 0 (by decide) h0ne, ha₁.own]
    | 1, _ =>
      rw [ha₃.other 1 (by decide) h1ne, ha₂.own, hq1]
      exact List.filter_congr fun b hb => by rw [hd1 b hb]
    | 2, _ =>
      rw [ha₃.own, hq2]
      exact List.filter_congr fun b hb => by rw [hd2 b hb]
    | 3, hpr => exact absurd rfl hpr
  · have hf1 : (counted s 1).filter (due s₁) = (counted s 1).filter (due s) :=
      List.filter_congr fun b hb => hd1 b (counted_subset s 1 b hb)
    have hf2 : (counted s 2).filter (due s₂) = (counted s 2).filter (due s) :=
      List.filter_congr fun b hb => hd2 b (counted_subset s 2 b hb)
    rw [ha₃.top, ha₂.top, ha₁.top, hf1, hf2, List.append_assoc, List.append_assoc]

/-! ## every process once -/

/-- each process below the highest queue is aged once; those that are due, and no others, go to the
tail of the highest queue, and the order of the others stays -/
structure CountedOnce (s s' : Sched) : Prop where
  ticks : ∀ pr, pr ≠ maxPriority → ∀ a ∈ (s.ready pr).elems, ∀ p, s.heap a = some p →
    s'.heap a = some (if agingThreshold ≤ p.waitTicks + 1
      then { p with priority := maxPriority, waitTicks := 0 }
      else { p with waitTicks := p.waitTicks + 1 })
  stay : ∀ pr, pr ≠ maxPriority →
    (s'.ready pr).elems = (s.ready pr).elems.filter fun a => !due s a
  moved : (s'.ready maxPriority).elems = (s.ready maxPriority).elems
    ++ ((s.ready 0).elems.filter (due s) ++ ((s.ready 1).elems.filter (due s)
      ++ (s.ready 2).elems.filter (due s)))

/-- the head of the queue is not due, or it is alone -/
def calmHead (s : Sched) (pr : Priority) : Bool :=
  match (s.ready pr).elems with
  | a :: _ :: _ => !due s a
  | _ => true

theorem counted_of_calm (h : calmHead s pr = true) : counted s pr = (s.ready pr).elems := by
  unfold calmHead at h
  cases hq : (s.ready pr).elems with
  | nil => exact counted_nil hq
  | cons a l =>
    rw [counted_cons hq]
    cases l with
    | nil => exact ite_self _
    | cons b l =>
      simp only [hq, Bool.not_eq_true'] at h
      rw [if_neg (by rw [h]; simp)]

theorem AgedAll.countedOnce (h : AgedAll s s') (hc : ∀ pr, pr ≠ maxPriority → calmHead s pr = true) :
    CountedOnce s s' := by
  have hall : ∀ pr, pr ≠ maxPriority → counted s pr = (s.ready pr).elems := fun pr hpr =>
    counted_of_calm (hc pr hpr)
  refine ⟨fun pr hpr a ha p hp => ?_, fun pr hpr => ?_, ?_⟩
  · rw [h.aged pr hpr a (by rw [hall pr hpr]; exact ha), hp]
    rfl
  · rw [h.own pr hpr]
    refine List.filter_congr fun b hb => ?_
    rw [hall pr hpr, decide_eq_true hb, Bool.true_and]
  · rw [h.top, hall 0 (by decide), hall 1 (by decide), hall 2 (by decide)]

theorem Process.age_ne (p : Process) : p.age ≠ p := by
  intro e
  have hw := congrArg Process.waitTicks e
  unfold Process.age at hw
  by_cases hd : agingThreshold ≤ p.waitTicks + 1
  · rw [if_pos hd] at hw
    have hw' : 0 = p.waitTicks := hw
    have hd' : 50 ≤ p.waitTicks + 1 := hd
    omega
  · rw [if_neg hd] at hw
    have hw' : p.waitTicks + 1 = p.waitTicks := hw
    omega

/-- behind a head that is due nobody is counted -/
theorem AgedAll.not_countedOnce (h : AgedAll s s') (hl : s.Lined) (hpr : pr ≠ maxPriority)
    (hn : ¬ calmHead s pr = true) : ¬ CountedOnce s s' := by
  intro hc
  cases hq : (s.ready pr).elems with
  | nil => exact hn (by unfold calmHead; rw [hq])
  | cons a l =>
    cases l with
    | nil => exact hn (by unfold calmHead; rw [hq])
    | cons b l =>
      have hd : due s a = true := by
        cases hd : due s a with
        | true => rfl
        | false => exact absurd (by unfold calmHead; rw [hq]; simp [hd]) hn
      have hb : b ∈ (s.ready pr).elems := by
        rw [hq]
        exact List.mem_cons_of_mem _ List.mem_cons_self
      have hnd := hl.nodup pr
      rw [hq] at hnd
      have hab : b ≠ a := fun e => (List.nodup_cons.mp hnd).1 (e ▸ List.mem_cons_self)
      obtain ⟨-, p, hp, -⟩ := hl.live pr b hb
      have hsame : s'.heap b = s.heap b := by
        refine h.same b fun pr' hpr' hm => ?_
        have he : pr' = pr := hl.apart pr' pr b (counted_subset s pr' b hm) hb
        rw [he, counted_cons hq, if_pos hd] at hm
        exact hab (List.mem_singleton.mp hm)
      have haged : s'.heap b = some p.age := hc.ticks pr hpr b hb p hp
      rw [hsame, hp] at haged
      exact p.age_ne (Option.some.inj haged).symm

/-- turns that are enough for every pass -/
def agingTurns (s : Sched) : Nat :=
  (s.ready 0).elems.length + (s.ready 1).elems.length + (s.ready 2).elems.length
    + (s.ready 3).elems.length + 1

theorem lt_of_agingTurns {fuel : Nat} (hf : agingTurns s ≤ fuel) (pr : Priority) :
    (s.ready pr).elems.length < fuel := by
  unfold agingTurns at hf
  match pr with
  | 0 => omega
  | 1 => omega
  | 2 => omega
  | 3 => omega

/-- **Aging counts every waiting process once** exactly when no queue of two or more processes has a
head that is due. -/
theorem countedOnce_iff (hl : s.Lined) {fuel : Nat} (hf : agingTurns s ≤ fuel) :
    ∃ s', applyAging fuel s = some s' ∧
      (CountedOnce s s' ↔ ∀ pr, pr ≠ maxPriority → calmHead s pr = true) := by
  obtain ⟨s', hrun, h⟩ := applyAging_spec hl (lt_of_agingTurns hf)
  refine ⟨s', hrun, fun hc pr hpr => ?_, h.countedOnce⟩
  by_contra hn
  exact h.not_countedOnce hl hpr hn hc

/-- a READY process of priority `0` -/
def waiting (pid : Int) (ticks : Nat) : Process where
  pid := pid
  ppid := 0
  state := .ready
  argv := []
  rsp := 8192
  stackBase := 8192
  priority := 0
  originalPriority := 0
  quantumRemaining := 1
  waitTicks := ticks
  ground := false
  readTarget := stdin
  writeTarget := stdout
  errTarget := stdout
  children := []

/-- two processes wait in queue `0` -/
def twoWaiting (t₁ t₂ : Nat) : Sched where
  heap a := if a = 1 then some (waiting 1 t₁) else if a = 2 then some (waiting 2 t₂) else none
  next := 3
  table := fun _ => none
  ready pr := if pr = 0 then ⟨[1, 2], none⟩ else createQueue
  running := none
  idle := none
  shell := none

theorem lined_twoWaiting (t₁ t₂ : Nat) : (twoWaiting t₁ t₂).Lined := by
  have hmem : ∀ {pr : Priority} {a : Nat}, a ∈ ((twoWaiting t₁ t₂).ready pr).elems →
      pr = 0 ∧ ((a = 1 ∧ (twoWaiting t₁ t₂).heap a = some (waiting 1 t₁)) ∨
        (a = 2 ∧ (twoWaiting t₁ t₂).heap a = some (waiting 2 t₂))) := by
    intro pr a ha
    by_cases e : pr = 0
    · subst e
      have ha' : a ∈ [1, 2] := ha
      rcases List.mem_cons.mp ha' with rfl | ha'
      · exact ⟨rfl, Or.inl ⟨rfl, rfl⟩⟩
      · obtain rfl := List.mem_singleton.mp ha'
        exact ⟨rfl, Or.inr ⟨rfl, rfl⟩⟩
    · have hq : (twoWaiting t₁ t₂).ready pr = createQueue := if_neg e
      rw [hq] at ha
      exact absurd ha List.not_mem_nil
  refine ⟨fun pr a ha => ⟨by simp [twoWaiting], ?_⟩, fun pr => ?_, fun pr pr' a ha ha' => ?_,
    fun pr pr' a b p q ha hb hp hq he => ?_⟩
  · rcases (hmem ha).2 with ⟨-, hp⟩ | ⟨-, hp⟩
    · exact ⟨_, hp, rfl⟩
    · exact ⟨_, hp, rfl⟩
  · show ((if pr = 0 then (⟨[1, 2], none⟩ : Queue Nat) else createQueue)).elems.Nodup
    split
    · decide
    · exact List.nodup_nil
  · rw [(hmem ha).1, (hmem ha').1]
  · rcases (hmem ha).2 with ⟨rfl, hp'⟩ | ⟨rfl, hp'⟩ <;> rcases (hmem hb).2 with ⟨rfl, hq'⟩ | ⟨rfl, hq'⟩
    · rfl
    · rw [Option.some.inj (hp.symm.trans hp'), Option.some.inj (hq.symm.trans hq')] at he
      exact absurd he (by simp [waiting])
    · rw [Option.some.inj (hp.symm.trans hp'), Option.some.inj (hq.symm.trans hq')] at he
      exact absurd he (by simp [waiting])
    · rfl

/-- the second of two processes is due -/
theorem countedOnce_iff_second : ∃ s', applyAging 8 (twoWaiting 3 49) = some s' ∧
    CountedOnce (twoWaiting 3 49) s' := by
  obtain ⟨s', hrun, hiff⟩ := countedOnce_iff (lined_twoWaiting 3 49)
    (show agingTurns (twoWaiting 3 49) ≤ 8 by decide)
  exact ⟨s', hrun, hiff.mpr (by decide)⟩

/-- the first of two processes is due: the second is not counted -/
theorem countedOnce_fails : ∃ s', applyAging 8 (twoWaiting 49 10) = some s' ∧
    (twoWaiting 49 10).Lined ∧ (s'.heap 2).map Process.waitTicks = some 10 ∧
    ¬ CountedOnce (twoWaiting 49 10) s' := by
  have hrun : (applyAging 8 (twoWaiting 49 10)).map (fun s => (s.heap 2).map Process.waitTicks)
      = some (some 10) := by decide +kernel
  obtain ⟨s', hs, ht⟩ := Option.map_eq_some_iff.mp hrun
  refine ⟨s', hs, lined_twoWaiting 49 10, ht, fun hc => ?_⟩
  have h2 := hc.ticks 0 (by decide) 2 (by decide) (waiting 2 10) rfl
  rw [h2] at ht
  exact absurd ht (by decide)

/-! ## the tick ends -/

/-- **The tick ends** on every state that meets the invariant of the ready queues. -/
theorem schedule_of_ok (h : s.Ok) (rsp : Nat) {fuel : Nat} (hf : agingTurns s ≤ fuel) :
    ∃ r, schedule fuel rsp s = some r := by
  obtain ⟨s₁, h₁, -⟩ := applyAging_spec h.lined (lt_of_agingTurns hf)
  have hok := Sched.ok_applyAging h h₁
  have hpre : ∃ r, preempt rsp s₁ = some r := by
    unfold preempt
    cases hr : s₁.running with
    | none => exact ⟨_, rfl⟩
    | some a =>
      obtain ⟨p, hp, -⟩ := hok.running a hr
      simp only [hp]
      split
      · exact ⟨_, rfl⟩
      · exact ⟨_, rfl⟩
      · exact ⟨_, rfl⟩
      · split
        · exact ⟨_, rfl⟩
        · exact ⟨_, rfl⟩
  obtain ⟨t, ht⟩ := hpre
  have hok' := Sched.ok_preempt hok ht
  unfold schedule
  simp only [h₁, ht]
  cases t with
  | inl s₂ => exact ⟨_, rfl⟩
  | inr s₂ =>
    obtain ⟨next, s₃, hsel, hch⟩ := Sched.selectNext_spec [3, 2, 1, 0] (s := s₂) hok'
    obtain ⟨rsp', s₄, hd, -⟩ := Sched.dispatch_spec hch
    exact ⟨(rsp', s₄), by simp only [hsel, hd]⟩

/-- **`schedule` terminates** in every state that a run of settled steps reaches. -/
theorem schedule_ends {stackBase : Nat} {recycled : List Int} {os : List ReadyOp} {k : Kernel}
    (h : Runs execReady (fun o k => o.settled k) os (initScheduler stackBase recycled) k) (rsp : Nat) :
    ∃ n, ∀ fuel, n ≤ fuel → ∃ r, schedule fuel rsp k.sched = some r := by
  have h0 : (initScheduler stackBase recycled).sched.Ok := by
    rw [Sched.initScheduler_eq]
    exact Sched.ok_bootSched stackBase recycled
  have hok : k.sched.Ok := Runs.inv (I := fun k => k.sched.Ok) Sched.ok_step h h0
  exact ⟨agingTurns k.sched, fun fuel hf => schedule_of_ok hok rsp hf⟩

/-- `init` is created and dispatched, and keeps its priority through a call of `set_priority` -/
theorem schedule_ends_init : ∃ k,
    Runs execReady (fun o k => o.settled k)
      [.create (plainArgs ['i'] 8192), .setPriority 1 0, .schedule 4 7] (initScheduler 0 []) k ∧
    ∀ rsp, ∃ n, ∀ fuel, n ≤ fuel → ∃ r, schedule fuel rsp k.sched = some r := by
  have hrun : (runIf execReady ReadyOp.settled
      [.create (plainArgs ['i'] 8192), .setPriority 1 0, .schedule 4 7]
      (initScheduler 0 [])).isSome = true := by decide +kernel
  obtain ⟨k, hk⟩ := Option.isSome_iff_exists.mp hrun
  have h := runs_of_runIf hk
  exact ⟨k, h, fun rsp => schedule_ends h rsp⟩

/-- a queue of one process that is not READY keeps the loop going -/
theorem agingLoop_stuck (hp : s.heap a = some p) (hst : p.state ≠ .ready) (fuel : Nat) :
    ∀ {s' : Sched}, s'.heap = s.heap → s'.ready pr = ⟨[a], some 0⟩ → agingLoop pr fuel s' = none := by
  induction fuel with
  | zero =>
    intro s' _ _
    rfl
  | succ fuel ih =>
    intro s' hh hq
    have hnext : queueNextCyclicIter (s'.ready pr) = some (a, ⟨[a], some 0⟩) := by
      rw [hq]
      rfl
    have hp' : s'.heap a = some p := by
      rw [hh]
      exact hp
    rw [Sched.agingLoop_next hnext hp', if_pos (Or.inl hst)]
    exact ih hh (Sched.setQueue_self ..)

/-- `init` runs, a process waits in queue `0`, gets another priority and is blocked: it stays in queue
`0`, and no tick ends any more -/
theorem schedule_hangs : ∃ k,
    run execReady [.create (plainArgs ['i'] 8192), .create (plainArgs ['p'] 16384), .schedule 4 7,
      .setPriority 2 1, .block 2] (initScheduler 0 []) = some k ∧
    ∀ fuel rsp, schedule fuel rsp k.sched = none := by
  have hrun : (run execReady [.create (plainArgs ['i'] 8192), .create (plainArgs ['p'] 16384),
      .schedule 4 7, .setPriority 2 1, .block 2] (initScheduler 0 [])).map
      (fun k => ((k.sched.ready 0).elems, (k.sched.heap 2).map Process.state))
      = some ([2], some .blocked) := by decide +kernel
  obtain ⟨k, hk, hv⟩ := Option.map_eq_some_iff.mp hrun
  obtain ⟨hq, hst⟩ := Prod.mk.inj hv
  obtain ⟨p, hp, hst⟩ := Option.map_eq_some_iff.mp hst
  refine ⟨k, hk, fun fuel rsp => ?_⟩
  have hbegin : queueBeginCyclicIter (k.sched.ready 0) = ⟨[2], some 0⟩ := by
    unfold queueBeginCyclicIter
    rw [if_neg (by rw [hq]; simp), hq]
  have hage : ageQueue fuel 0 k.sched = none := by
    unfold ageQueue
    rw [if_neg (by rw [queueIsEmpty_iff, hq]; simp), hbegin]
    exact agingLoop_stuck hp (by rw [hst]; simp) fuel rfl (Sched.setQueue_self ..)
  unfold schedule applyAging
  rw [hage]
  rfl

end

end Tp2So
