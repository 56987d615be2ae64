import Tp2So.Ready.Counting

/-!
# The tick is a priority round robin

* `Sched.Poised rsp s`  the states of interest: the queues are lined up, the running process is not
                        queued, nobody else is RUNNING, and the stack pointers that are saved, `rsp`
                        among them, lie in the stacks of their processes;
* `waitingLine`         the queues with a RUNNING process put to the tail of its own;
* `firstInLine`         the head of the highest queue that is not empty;
* `HandedOver`          the CPU goes to the first in line, or to the idle process;
* `schedule_roundRobin` `schedule` keeps the running process while its quantum lasts, and else hands
                        the CPU over.
-/

set_option linter.unusedVariables false

namespace Tp2So

structure Sched.Poised (rsp : Nat) (s : Sched) : Prop where
  lined : s.Lined
  idle : ∃ i p, s.idle = some i ∧ s.heap i = some p
  current : ∀ a, s.running = some a → (∃ p, s.heap a = some p) ∧ ∀ pr, a ∉ (s.ready pr).elems
  alone : ∀ a p, s.heap a = some p → p.state = .running → s.running = some a
  onStack : ∀ pr, ∀ a ∈ (s.ready pr).elems, ∀ p, s.heap a = some p → p.inStack p.rsp
  stack : ∀ a p, s.running = some a → s.idle ≠ some a → s.heap a = some p → p.state = .running →
    p.inStack rsp

/-- the running process goes back to the queue of `pr` -/
def rejoins (s : Sched) (pr : Priority) (a : Nat) : Bool :=
  s.idle ≠ some a && (s.heap a).any fun p => p.state = .running && p.priority = pr

/-- queue `pr` with the running process at its tail -/
def waitingLine (s : Sched) (pr : Priority) : List Nat :=
  (s.ready pr).elems ++ s.running.toList.filter (rejoins s pr)

/-- the head of the highest queue that is not empty -/
def firstInLine (q : Priority → List Nat) : Option Nat :=
  [3, 2, 1, 0].findSome? fun pr => (q pr).head?

/-- the stack pointer of a process when the tick has saved that of the running one -/
def savedRsp (rsp : Nat) (s : Sched) (a : Nat) : Option Nat :=
  if s.running = some a then some rsp else (s.heap a).map Process.rsp

/-- the CPU goes from `s` to the process that is first in line in `s` -/
structure HandedOver (rsp : Nat) (s : Sched) (rsp' : Nat) (s' : Sched) : Prop where
  chosen : s'.running = (firstInLine (waitingLine s)).or s.idle
  only : ∀ a p, s'.heap a = some p → (p.state = .running ↔ s'.running = some a)
  live : ∃ a p, s'.running = some a ∧ s'.heap a = some p
  resumed : ∀ a, s'.running = some a → savedRsp rsp s a = some rsp'
  lines : ∀ pr, (s'.ready pr).elems = (waitingLine s pr).filter fun a => s'.running ≠ some a

section
variable {s s' s₁ : Sched} {pr : Priority} {a b i rsp : Nat} {p q : Process}

/-! ## aging keeps the states of interest -/

theorem Process.age_rsp (p : Process) : p.age.rsp = p.rsp := by
  unfold Process.age
  split <;> rfl

theorem Process.age_stackBase (p : Process) : p.age.stackBase = p.stackBase := by
  unfold Process.age
  split <;> rfl

/-- every process is aged, or it is what it was -/
theorem AgedAll.heap (h : AgedAll s s₁) (a : Nat) :
    s₁.heap a = (s.heap a).map Process.age ∨ s₁.heap a = s.heap a := by
  by_cases hc : ∃ pr, pr ≠ maxPriority ∧ a ∈ counted s pr
  · obtain ⟨pr, hpr, ha⟩ := hc
    exact Or.inl (h.aged pr hpr a ha)
  · exact Or.inr (h.same a fun pr hpr ha => hc ⟨pr, hpr, ha⟩)

theorem AgedAll.heap_some (h : AgedAll s s₁) (hq : s₁.heap a = some q) :
    ∃ p, s.heap a = some p ∧ q.state = p.state ∧ q.rsp = p.rsp ∧ q.stackBase = p.stackBase := by
  rcases h.heap a with e | e
  · obtain ⟨p, hp, rfl⟩ := Option.map_eq_some_iff.mp (e.symm.trans hq)
    exact ⟨p, hp, p.age_state, p.age_rsp, p.age_stackBase⟩
  · exact ⟨q, e.symm.trans hq, rfl, rfl, rfl⟩

theorem AgedAll.live (h : AgedAll s s₁) (hp : s.heap a = some p) : ∃ q, s₁.heap a = some q := by
  rcases h.heap a with e | e
  · exact ⟨p.age, by rw [e, hp]; rfl⟩
  · exact ⟨p, e.trans hp⟩

theorem AgedAll.queued (h : AgedAll s s₁) (ha : a ∈ (s₁.ready pr).elems) :
    ∃ pr', a ∈ (s.ready pr').elems := by
  by_cases e : pr = maxPriority
  · subst e
    rw [h.top] at ha
    have hsub : ∀ {pr'}, a ∈ (counted s pr').filter (due s) → ∃ pr', a ∈ (s.ready pr').elems :=
      fun {pr'} hm => ⟨pr', counted_subset s pr' a (List.mem_filter.mp hm).1⟩
    rcases List.mem_append.mp ha with ha | ha
    · exact ⟨_, ha⟩
    · rcases List.mem_append.mp ha with ha | ha
      · exact hsub ha
      · rcases List.mem_append.mp ha with ha | ha
        · exact hsub ha
        · exact hsub ha
  · rw [h.own pr e] at ha
    exact ⟨pr, (List.mem_filter.mp ha).1⟩

theorem AgedAll.heap_unqueued (h : AgedAll s s₁) (ha : ∀ pr, a ∉ (s.ready pr).elems) :
    s₁.heap a = s.heap a :=
  h.same a fun pr _ hm => ha pr (counted_subset s pr a hm)

theorem AgedAll.poised (h : AgedAll s s₁) (hs : s.Poised rsp) : s₁.Poised rsp := by
  refine ⟨h.lined, ?_, fun a ha => ?_, fun a q hq hst => ?_, fun pr a ha q hq => ?_,
    fun a q ha hi hq hst => ?_⟩
  · obtain ⟨i, p, hi, hp⟩ := hs.idle
    obtain ⟨q, hq⟩ := h.live hp
    exact ⟨i, q, h.idle.trans hi, hq⟩
  · obtain ⟨⟨p, hp⟩, hn⟩ := hs.current a (h.running.symm.trans ha)
    refine ⟨h.live hp, fun pr hm => ?_⟩
    obtain ⟨pr', hm'⟩ := h.queued hm
    exact hn pr' hm'
  · obtain ⟨p, hp, hst', -⟩ := h.heap_some hq
    exact h.running.trans (hs.alone a p hp (hst'.symm.trans hst))
  · obtain ⟨pr', hm⟩ := h.queued ha
    obtain ⟨p, hp, -, hr, hb⟩ := h.heap_some hq
    have hin := hs.onStack pr' a hm p hp
    unfold Process.inStack at hin ⊢
    rw [hr, hb]
    exact hin
  · obtain ⟨p, hp, hst', -, hb⟩ := h.heap_some hq
    have hin := hs.stack a p (h.running.symm.trans ha) (fun e => hi (h.idle.trans e)) hp
      (hst'.symm.trans hst)
    unfold Process.inStack at hin ⊢
    rw [hb]
    exact hin

/-! ## the choice -/

/-- the choice takes the process `next` out of the queues -/
structure Taken (next : Option Nat) (s s' : Sched) : Prop where
  heap : s'.heap = s.heap
  idle : s'.idle = s.idle
  running : s'.running = s.running
  lines : ∀ pr, (s'.ready pr).elems = (s.ready pr).elems.filter fun a => next ≠ some a

/-- the queues hold live READY processes, each once -/
structure Sched.Formed (s : Sched) : Prop where
  live : ∀ pr, ∀ a ∈ (s.ready pr).elems, s.idle ≠ some a ∧
    ∃ p, s.heap a = some p ∧ p.state = .ready
  nodup : ∀ pr, (s.ready pr).elems.Nodup
  apart : ∀ pr pr' a, a ∈ (s.ready pr).elems → a ∈ (s.ready pr').elems → pr = pr'

theorem Sched.Lined.formed (h : s.Lined) : s.Formed := ⟨h.live, h.nodup, h.apart⟩

theorem taken_none (s : Sched) : Taken none s s :=
  ⟨rfl, rfl, rfl, fun pr => (List.filter_eq_self.mpr fun a _ => by simp).symm⟩

theorem selectFrom_head (h : s.Formed) {l : List Nat} (hq : (s.ready pr).elems = a :: l) (n : Nat) :
    ∃ s', selectFrom pr (n + 1) s = some (some a, s') ∧ Taken (some a) s s' := by
  have hmem : a ∈ (s.ready pr).elems := by
    rw [hq]
    exact List.mem_cons_self
  obtain ⟨hi, p, hp, hst⟩ := h.live pr a hmem
  have hd : ∃ c, dequeue (s.ready pr) = some (a, ⟨l, c⟩) := by
    unfold dequeue
    rw [hq]
    exact ⟨_, rfl⟩
  obtain ⟨c, hd⟩ := hd
  refine ⟨s.setQueue pr ⟨l, c⟩, ?_, rfl, rfl, rfl, fun pr' => ?_⟩
  · have hp' : (s.setQueue pr ⟨l, c⟩).heap a = some p := hp
    unfold selectFrom
    simp only [hd, hp']
    exact if_pos ⟨hst, hi⟩
  · by_cases e : pr' = pr
    · subst e
      have hnd := h.nodup pr'
      rw [hq] at hnd
      rw [Sched.setQueue_self, hq, List.filter_cons_of_neg (by simp)]
      refine (List.filter_eq_self.mpr fun b hb => ?_).symm
      have hne : a ≠ b := fun e => (List.nodup_cons.mp hnd).1 (e ▸ hb)
      simp [hne]
    · rw [Sched.setQueue_of_ne _ _ _ e]
      refine (List.filter_eq_self.mpr fun b hb => ?_).symm
      have hne : a ≠ b := fun e' => e (h.apart pr' pr b hb (e' ▸ hmem))
      simp [hne]

/-- **The choice** takes the head of the first of the queues `prs` that is not empty. -/
theorem selectNext_head (h : s.Formed) (prs : List Priority) :
    ∃ s', selectNext prs s = some (prs.findSome? fun pr => (s.ready pr).elems.head?, s') ∧
      Taken (prs.findSome? fun pr => (s.ready pr).elems.head?) s s' := by
  induction prs with
  | nil => exact ⟨s, rfl, taken_none s⟩
  | cons pr prs ih =>
    unfold selectNext
    cases hq : (s.ready pr).elems with
    | nil =>
      have hsize : queueSize (s.ready pr) = 0 := by
        unfold queueSize
        rw [hq]
        rfl
      obtain ⟨s', hsel, htk⟩ := ih
      have hnone : (pr :: prs).findSome? (fun pr => (s.ready pr).elems.head?)
          = prs.findSome? fun pr => (s.ready pr).elems.head? := by
        rw [List.findSome?_cons, hq]
        rfl
      rw [hsize, hnone]
      exact ⟨s', hsel, htk⟩
    | cons a l =>
      have hsize : queueSize (s.ready pr) = l.length + 1 := by
        unfold queueSize
        rw [hq]
        rfl
      obtain ⟨s', hsel, htk⟩ := selectFrom_head h hq l.length
      have hsome : (pr :: prs).findSome? (fun pr => (s.ready pr).elems.head?) = some a := by
        rw [List.findSome?_cons, hq]
        rfl
      rw [hsize, hsel, hsome]
      exact ⟨s', rfl, htk⟩

/-! ## putting the running process away -/

/-- nobody is RUNNING, the stack pointers are saved and the queues stand as the choice finds them -/
structure PutAway (rsp : Nat) (s s₂ : Sched) : Prop where
  formed : s₂.Formed
  idle : s₂.idle = s.idle
  idle_live : ∃ i p, s₂.idle = some i ∧ s₂.heap i = some p
  lines : ∀ pr, (s₂.ready pr).elems = waitingLine s pr
  still : ∀ a p, s₂.heap a = some p → p.state ≠ .running
  saved : ∀ a p, s₂.heap a = some p → savedRsp rsp s a = some p.rsp
  onStack : ∀ pr, ∀ a ∈ (s₂.ready pr).elems, ∀ p, s₂.heap a = some p → p.inStack p.rsp

theorem rejoins_iff (hp : s.heap a = some p) :
    rejoins s pr a = true ↔ s.idle ≠ some a ∧ p.state = .running ∧ p.priority = pr := by
  unfold rejoins
  rw [hp]
  simp

theorem waitingLine_none (hr : s.running = none) : waitingLine s pr = (s.ready pr).elems := by
  unfold waitingLine
  rw [hr]
  exact List.append_nil _

theorem waitingLine_of_not (hr : s.running = some a) (h : ¬ rejoins s pr a = true) :
    waitingLine s pr = (s.ready pr).elems := by
  unfold waitingLine
  rw [hr, Option.toList_some, List.filter_cons_of_neg h]
  exact List.append_nil _

theorem waitingLine_of (hr : s.running = some a) (h : rejoins s pr a = true) :
    waitingLine s pr = (s.ready pr).elems ++ [a] := by
  unfold waitingLine
  rw [hr, Option.toList_some, List.filter_cons_of_pos h]
  rfl

theorem mem_waitingLine (hr : s.running = some a) (hb : b ∈ waitingLine s pr) :
    b ∈ (s.ready pr).elems ∨ (b = a ∧ rejoins s pr a = true) := by
  by_cases h : rejoins s pr a = true
  · rw [waitingLine_of hr h] at hb
    rcases List.mem_append.mp hb with hb | hb
    · exact Or.inl hb
    · exact Or.inr ⟨List.mem_singleton.mp hb, h⟩
  · rw [waitingLine_of_not hr h] at hb
    exact Or.inl hb

theorem putAway_of {s₂ : Sched} (hs : s.Poised rsp) (hr : s.running = some a)
    (hp : s.heap a = some p) (g : Process → Process) (hheap : s₂.heap = heapMod s.heap a g)
    (hidle : s₂.idle = s.idle) (hlines : ∀ pr, (s₂.ready pr).elems = waitingLine s pr)
    (hrsp : (g p).rsp = rsp ∧ (g p).stackBase = p.stackBase) (hst : (g p).state ≠ .running)
    (hready : p.state = .running → (g p).state = .ready) : PutAway rsp s s₂ := by
  obtain ⟨-, hout⟩ := hs.current a hr
  have hself : s₂.heap a = some (g p) := by
    rw [hheap, heapMod_self, hp]
    rfl
  have helse : ∀ {b}, b ≠ a → s₂.heap b = s.heap b := fun hb => by
    rw [hheap, heapMod_of_ne _ _ hb]
  have hne : ∀ {pr b}, b ∈ (s.ready pr).elems → b ≠ a := fun hb e => hout _ (e ▸ hb)
  refine ⟨⟨fun pr b hb => ?_, fun pr => ?_, fun pr pr' b hb hb' => ?_⟩, hidle, ?_, hlines,
    fun b q hq => ?_, fun b q hq => ?_, fun pr b hb q hq => ?_⟩
  · rw [hlines] at hb
    rw [hidle]
    rcases mem_waitingLine hr hb with hb | ⟨rfl, hj⟩
    · rw [helse (hne hb)]
      exact hs.lined.live pr b hb
    · obtain ⟨hi, hrun, -⟩ := (rejoins_iff hp).mp hj
      exact ⟨hi, g p, hself, hready hrun⟩
  · rw [hlines]
    by_cases h : rejoins s pr a = true
    · rw [waitingLine_of hr h]
      refine List.nodup_append.mpr ⟨hs.lined.nodup pr, List.nodup_singleton a, fun b hb c hc => ?_⟩
      rw [List.mem_singleton.mp hc]
      exact hne hb
    · rw [waitingLine_of_not hr h]
      exact hs.lined.nodup pr
  · rw [hlines] at hb hb'
    rcases mem_waitingLine hr hb with hb | ⟨rfl, hj⟩ <;>
      rcases mem_waitingLine hr hb' with hb' | ⟨e, hj'⟩
    · exact hs.lined.apart pr pr' b hb hb'
    · exact absurd e (hne hb)
    · exact absurd rfl (hne hb')
    · exact ((rejoins_iff hp).mp hj).2.2.symm.trans ((rejoins_iff hp).mp hj').2.2
  · obtain ⟨i, q, hi, hq⟩ := hs.idle
    by_cases e : i = a
    · exact ⟨i, g p, hidle.trans hi, e ▸ hself⟩
    · exact ⟨i, q, hidle.trans hi, (helse e).trans hq⟩
  · by_cases e : b = a
    · subst e
      obtain rfl := Option.some.inj (hself.symm.trans hq)
      exact hst
    · intro hrun
      rw [helse e] at hq
      have hb := hs.alone b q hq hrun
      exact e (Option.some.inj (hb.symm.trans hr))
  · unfold savedRsp
    by_cases e : b = a
    · subst e
      obtain rfl := Option.some.inj (hself.symm.trans hq)
      rw [if_pos hr, hrsp.1]
    · rw [helse e] at hq
      rw [if_neg fun h => e (Option.some.inj (h.symm.trans hr)), hq]
      rfl
  · rw [hlines] at hb
    rcases mem_waitingLine hr hb with hb | ⟨rfl, hj⟩
    · rw [helse (hne hb)] at hq
      exact hs.onStack pr b hb q hq
    · obtain ⟨hi, hrun, -⟩ := (rejoins_iff hp).mp hj
      obtain rfl := Option.some.inj (hself.symm.trans hq)
      have hin := hs.stack b p hr hi hp hrun
      unfold Process.inStack at hin ⊢
      rw [hrsp.1, hrsp.2]
      exact hin

theorem putAway_none (hs : s.Poised rsp) (hr : s.running = none) : PutAway rsp s s := by
  refine ⟨hs.lined.formed, rfl, hs.idle, fun pr => (waitingLine_none hr).symm, fun a p hp hst => ?_,
    fun a p hp => ?_, hs.onStack⟩
  · exact absurd (hr.symm.trans (hs.alone a p hp hst)) (by simp)
  · unfold savedRsp
    rw [hr, if_neg (by simp), hp]
    rfl

/-- a RUNNING process whose quantum is used up joins its queue again -/
theorem putAway_requeued (hs : s.Poised rsp) (hr : s.running = some a) (hp : s.heap a = some p)
    (hst : p.state = .running) (g : Process → Process)
    (hg : (g p).rsp = rsp ∧ (g p).stackBase = p.stackBase ∧ (g p).priority = p.priority)
    (hready : (g p).state = .ready) : PutAway rsp s (addToScheduler (s.modify a g) a) := by
  by_cases hi : s.idle = some a
  · have hstay : addToScheduler (s.modify a g) a = s.modify a g := if_pos hi
    rw [hstay]
    refine putAway_of hs hr hp g rfl rfl (fun pr => ?_) ⟨hg.1, hg.2.1⟩ (by simp [hready])
      fun _ => hready
    refine (waitingLine_of_not hr ?_).symm
    rw [rejoins_iff hp]
    exact fun h => h.1 hi
  · rw [Sched.addToScheduler_eq (by exact hi) (Sched.modify_heap_self g hp), hg.2.2]
    refine putAway_of hs hr hp (fun p => (g p).setState .ready) ?_ rfl (fun pr => ?_)
      ⟨hg.1, hg.2.1⟩ (by simp) fun _ => rfl
    · simp only [Sched.setQueue_heap, Sched.modify_heap, heapMod_heapMod]
    · show (Function.update s.ready p.priority (enqueue (s.ready p.priority) a) pr).elems = _
      by_cases e : pr = p.priority
      · subst e
        rw [Function.update_self, enqueue_elems]
        exact (waitingLine_of hr ((rejoins_iff hp).mpr ⟨hi, hst, rfl⟩)).symm
      · rw [Function.update_of_ne e]
        refine (waitingLine_of_not hr ?_).symm
        rw [rejoins_iff hp]
        exact fun h => e h.2.2.symm

/-- **Putting the running process away.** -/
theorem preempt_spec (hs : s.Poised rsp)
    (hq : ∀ a p, s.running = some a → s.heap a = some p → p.state = .running →
      p.quantumRemaining ≤ 1) :
    ∃ s₂, preempt rsp s = some (.inr s₂) ∧ PutAway rsp s s₂ := by
  unfold preempt
  cases hr : s.running with
  | none => exact ⟨s, rfl, putAway_none hs hr⟩
  | some a =>
    obtain ⟨⟨p, hp⟩, -⟩ := hs.current a hr
    simp only [hp]
    have hkept : p.state ≠ .running → ∀ pr, (s.ready pr).elems = waitingLine s pr := by
      intro hst pr
      refine (waitingLine_of_not hr ?_).symm
      rw [rejoins_iff hp]
      exact fun h => hst h.2.1
    cases hst : p.state with
    | running =>
      simp only
      rw [if_neg (by have := hq a p hr hp hst; omega)]
      have hmod : ∀ n, ((((s.modify a (Process.setRsp rsp)).modify a (Process.setQuantum n)).modify a
          (Process.setQuantum defaultQuantum)).modify a (Process.setState .ready))
          = s.modify a fun p => (((p.setRsp rsp).setQuantum n).setQuantum defaultQuantum).setState
            .ready := by
        intro n
        unfold Sched.modify
        simp only [heapMod_heapMod]
      rw [hmod]
      exact ⟨_, rfl, putAway_requeued hs hr hp hst _ ⟨rfl, rfl, rfl⟩ rfl⟩
    | ready =>
      exact ⟨_, rfl, putAway_of hs hr hp (Process.setRsp rsp) rfl rfl (hkept (by simp [hst]))
        ⟨rfl, rfl⟩ (by simp [Process.setRsp, hst]) fun h => absurd (hst.symm.trans h) (by simp)⟩
    | blocked =>
      exact ⟨_, rfl, putAway_of hs hr hp (Process.setRsp rsp) rfl rfl (hkept (by simp [hst]))
        ⟨rfl, rfl⟩ (by simp [Process.setRsp, hst]) fun h => absurd (hst.symm.trans h) (by simp)⟩
    | terminated =>
      exact ⟨_, rfl, putAway_of hs hr hp (Process.setRsp rsp) rfl rfl (hkept (by simp [hst]))
        ⟨rfl, rfl⟩ (by simp [Process.setRsp, hst]) fun h => absurd (hst.symm.trans h) (by simp)⟩

/-! ## handing the CPU over -/

/-- nobody was RUNNING before `a` became so -/
theorem only_running {s₂ : Sched} (hstill : ∀ b q, s₂.heap b = some q → q.state ≠ .running)
    (g : Process → Process) (hg : ∀ q, (g q).state = .running) (hheap : s'.heap = heapMod s₂.heap a g)
    (hr : s'.running = some a) (hq : s'.heap b = some q) :
    q.state = .running ↔ s'.running = some b := by
  rw [hr]
  rw [hheap] at hq
  obtain ⟨p, hp, rfl⟩ := heapMod_some hq
  by_cases e : b = a
  · rw [if_pos e, e]
    exact ⟨fun _ => rfl, fun _ => hg p⟩
  · rw [if_neg e]
    exact ⟨fun h => absurd h (hstill b p hp), fun h => absurd (Option.some.inj h).symm e⟩

/-- all queues are empty: the idle process gets the CPU -/
theorem handedOver_idle {s₂ s₃ : Sched} (h : PutAway rsp s s₂) (ht : Taken none s₂ s₃)
    (hfirst : firstInLine (waitingLine s) = none) :
    ∃ r, runIdle s₃ = some r ∧ HandedOver rsp s r.1 r.2 := by
  obtain ⟨i, p, hi, hp⟩ := h.idle_live
  have hi₃ : s₃.idle = some i := ht.idle.trans hi
  have hp₃ : s₃.heap i = some p := by
    rw [ht.heap]
    exact hp
  have hout : ∀ pr, i ∉ (s₂.ready pr).elems := fun pr hm => (h.formed.live pr i hm).1 hi
  refine ⟨(p.rsp, (s₃.modify i (Process.setState .running)).setRunning (some i)), ?_, ?_⟩
  · unfold runIdle
    rw [hi₃]
    simp only [hp₃]
  · refine ⟨?_, fun b q hq => ?_, ⟨i, p.setState .running, rfl, ?_⟩, fun b hb => ?_, fun pr => ?_⟩
    · rw [hfirst, Option.none_or, ← h.idle, hi]
      rfl
    · refine only_running h.still (Process.setState .running) (fun _ => rfl) ?_ rfl hq
      show heapMod s₃.heap i _ = _
      rw [ht.heap]
    · exact Sched.modify_heap_self _ hp₃
    · obtain rfl := Option.some.inj hb
      exact h.saved i p hp
    · show (s₃.ready pr).elems = _
      rw [ht.lines, h.lines]
      refine List.filter_congr fun b hb => ?_
      have hne : i ≠ b := fun e => hout pr (by rw [h.lines, e]; exact hb)
      simp [hne]

theorem handedOver_first {s₂ s₃ : Sched} (h : PutAway rsp s s₂) (ht : Taken (some a) s₂ s₃)
    (ha : a ∈ (s₂.ready pr).elems) (hfirst : firstInLine (waitingLine s) = some a) :
    ∃ r, dispatch (some a) s₃ = some r ∧ HandedOver rsp s r.1 r.2 := by
  obtain ⟨hi, p, hp, hst⟩ := h.formed.live pr a ha
  have hp₃ : s₃.heap a = some p := by
    rw [ht.heap]
    exact hp
  obtain ⟨hlo, hhi⟩ := h.onStack pr a ha p hp
  have hi₃ : s₃.idle ≠ some a := by
    rw [ht.idle]
    exact hi
  refine ⟨(p.rsp, (((s₃.modify a (Process.setState .running)).modify a
    (Process.setQuantum defaultQuantum)).setRunning (some a)).modify a (Process.setWaitTicks 0)),
    ?_, ?_⟩
  · unfold dispatch
    simp only [hp₃]
    rw [if_neg (not_not_intro hst), Sched.resetAging_eq (by exact hi₃), if_neg (by omega)]
  · refine ⟨?_, fun b q hq => ?_, ⟨a, ((p.setState .running).setQuantum defaultQuantum).setWaitTicks 0,
      rfl, ?_⟩, fun b hb => ?_, fun pr => ?_⟩
    · rw [hfirst]
      rfl
    · refine only_running h.still (fun q => ((q.setState .running).setQuantum
        defaultQuantum).setWaitTicks 0) (fun _ => rfl) ?_ rfl hq
      simp only [Sched.modify_heap, Sched.setRunning_heap, heapMod_heapMod, ht.heap]
    · simp only [Sched.modify_heap, Sched.setRunning_heap, heapMod_heapMod, heapMod_self, hp₃,
        Option.map_some]
    · obtain rfl := Option.some.inj hb
      exact h.saved a p hp
    · show (s₃.ready pr).elems = _
      rw [ht.lines, h.lines]
      rfl

theorem mem_of_firstInLine {q : Priority → List Nat} (h : firstInLine q = some a) :
    ∃ pr, a ∈ q pr := by
  obtain ⟨l₁, pr, l₂, -, hh, -⟩ := List.findSome?_eq_some_iff.mp h
  exact ⟨pr, List.mem_of_mem_head? hh⟩

/-- **`schedule` is a priority round robin.**  A RUNNING process whose quantum lasts keeps the CPU; else
the CPU goes to the first in line after aging and requeuing. -/
theorem schedule_roundRobin {fuel : Nat} (hs : s.Poised rsp) (hf : agingTurns s ≤ fuel) :
    ∃ s₁, applyAging fuel s = some s₁ ∧ AgedAll s s₁ ∧
      (∀ a p, s.running = some a → s.heap a = some p → p.state = .running →
        1 < p.quantumRemaining → schedule fuel rsp s = some (rsp, (s₁.modify a
          (Process.setRsp rsp)).modify a (Process.setQuantum (p.quantumRemaining - 1)))) ∧
      ((∀ a p, s.running = some a → s.heap a = some p → p.state = .running →
        p.quantumRemaining ≤ 1) →
        ∃ rsp' s', schedule fuel rsp s = some (rsp', s') ∧ HandedOver rsp s₁ rsp' s') := by
  obtain ⟨s₁, hage, hall⟩ := applyAging_spec hs.lined (lt_of_agingTurns hf)
  have hs₁ := hall.poised hs
  -- the running process is not queued, so it is not aged
  have hsame : ∀ a, s.running = some a → s₁.heap a = s.heap a := fun a ha =>
    hall.heap_unqueued (hs.current a ha).2
  refine ⟨s₁, hage, hall, fun a p hr hp hst hq => ?_, fun hq => ?_⟩
  · have hkeep : preempt rsp s₁ = some (.inl ((s₁.modify a (Process.setRsp rsp)).modify a
        (Process.setQuantum (p.quantumRemaining - 1)))) := by
      unfold preempt
      rw [hall.running, hr]
      simp only [hsame a hr, hp, hst]
      rw [if_pos (by omega)]
    unfold schedule
    simp only [hage, hkeep]
  · obtain ⟨s₂, hpre, hput⟩ := preempt_spec hs₁ fun a p hr hp =>
      hq a p (hall.running.symm.trans hr) ((hsame a (hall.running.symm.trans hr)).symm.trans hp)
    obtain ⟨s₃, hsel, htk⟩ := selectNext_head hput.formed [3, 2, 1, 0]
    have hfirst : ([3, 2, 1, 0].findSome? fun pr => (s₂.ready pr).elems.head?)
        = firstInLine (waitingLine s₁) := by
      unfold firstInLine
      simp only [hput.lines]
    rw [hfirst] at hsel htk
    have hdisp : ∃ r, dispatch (firstInLine (waitingLine s₁)) s₃ = some r ∧
        HandedOver rsp s₁ r.1 r.2 := by
      cases hn : firstInLine (waitingLine s₁) with
      | none =>
        rw [hn] at htk
        exact handedOver_idle hput htk hn
      | some a =>
        rw [hn] at htk
        obtain ⟨pr, ha⟩ := mem_of_firstInLine hn
        rw [← hput.lines] at ha
        exact handedOver_first hput htk ha hn
    obtain ⟨⟨rsp', s'⟩, hd, hover⟩ := hdisp
    refine ⟨rsp', s', ?_, hover⟩
    unfold schedule
    simp only [hage, hpre, hsel]
    exact hd

/-- two processes wait in queue `0`, a third runs, and the idle process is READY -/
def relay : Sched :=
  { twoWaiting 3 10 with
    heap := Function.update (Function.update (twoWaiting 3 10).heap 3 (some (waiting 0 0))) 4
      (some { waiting 4 0 with state := .running, priority := 1 })
    next := 5
    running := some 4
    idle := some 3 }

theorem relay_queued (ha : a ∈ (relay.ready pr).elems) :
    pr = 0 ∧ ((a = 1 ∧ relay.heap a = some (waiting 1 3)) ∨
      (a = 2 ∧ relay.heap a = some (waiting 2 10))) := by
  by_cases e : pr = 0
  · subst e
    have ha' : a ∈ [1, 2] := ha
    rcases List.mem_cons.mp ha' with rfl | ha'
    · exact ⟨rfl, Or.inl ⟨rfl, rfl⟩⟩
    · obtain rfl := List.mem_singleton.mp ha'
      exact ⟨rfl, Or.inr ⟨rfl, rfl⟩⟩
  · have hq : relay.ready pr = createQueue := if_neg e
    rw [hq] at ha
    exact absurd ha List.not_mem_nil

theorem lined_relay : relay.Lined := by
  have hl := lined_twoWaiting 3 10
  have hsame : ∀ {pr a}, a ∈ (relay.ready pr).elems → relay.heap a = (twoWaiting 3 10).heap a ∧ a ≤ 2 := by
    intro pr a ha
    rcases (relay_queued ha).2 with ⟨rfl, -⟩ | ⟨rfl, -⟩
    · exact ⟨rfl, by omega⟩
    · exact ⟨rfl, by omega⟩
  refine ⟨fun pr a ha => ?_, hl.nodup, hl.apart, fun pr pr' a b p q ha hb hp hq => ?_⟩
  · obtain ⟨hh, hle⟩ := hsame ha
    rw [hh]
    refine ⟨fun e => ?_, (hl.live pr a ha).2⟩
    have he : 3 = a := Option.some.inj e
    omega
  · rw [(hsame ha).1] at hp
    rw [(hsame hb).1] at hq
    exact hl.pids pr pr' a b p q ha hb hp hq

theorem poised_relay : relay.Poised 8200 := by
  refine ⟨lined_relay, ⟨3, waiting 0 0, rfl, rfl⟩, fun a ha => ?_, fun a p hp hst => ?_,
    fun pr a ha p hp => ?_, fun a p ha hi hp hst => ?_⟩
  · obtain rfl := Option.some.inj ha
    refine ⟨⟨_, rfl⟩, fun pr hm => ?_⟩
    rcases (relay_queued hm).2 with ⟨e, -⟩ | ⟨e, -⟩
    · omega
    · omega
  · by_cases e4 : a = 4
    · rw [e4]
      rfl
    · have hready : p.state = .ready := by
        have hp' : Function.update (twoWaiting 3 10).heap 3 (some (waiting 0 0)) a = some p :=
          (Function.update_of_ne e4 _ _).symm.trans hp
        by_cases e3 : a = 3
        · rw [e3, Function.update_self] at hp'
          exact Option.some.inj hp' ▸ rfl
        · rw [Function.update_of_ne e3] at hp'
          unfold twoWaiting at hp'
          simp only at hp'
          split at hp'
          · exact Option.some.inj hp' ▸ rfl
          · split at hp'
            · exact Option.some.inj hp' ▸ rfl
            · exact absurd hp' (by simp)
      exact absurd (hready.symm.trans hst) (by simp)
  · rcases (relay_queued ha).2 with ⟨-, hp'⟩ | ⟨-, hp'⟩
    · obtain rfl := Option.some.inj (hp.symm.trans hp')
      exact ⟨Nat.le_refl _, by decide⟩
    · obtain rfl := Option.some.inj (hp.symm.trans hp')
      exact ⟨Nat.le_refl _, by decide⟩
  · obtain rfl := Option.some.inj ha
    obtain rfl := Option.some.inj hp
    exact ⟨by decide, by decide⟩

/-- the third process has used up its quantum and hands the CPU over -/
theorem schedule_roundRobin_relay : ∃ s₁ rsp' s', applyAging 8 relay = some s₁ ∧
    schedule 8 8200 relay = some (rsp', s') ∧ HandedOver 8200 s₁ rsp' s' := by
  obtain ⟨s₁, hage, -, -, hover⟩ :=
    schedule_roundRobin poised_relay (show agingTurns relay ≤ 8 by decide)
  have hone : ∀ a p, relay.running = some a → relay.heap a = some p → p.state = .running →
      p.quantumRemaining ≤ 1 := by
    intro a p ha hp _
    obtain rfl := Option.some.inj ha
    obtain rfl := Option.some.inj hp
    decide
  obtain ⟨rsp', s', hrun, h⟩ := hover hone
  exact ⟨s₁, rsp', s', hage, hrun, h⟩

end

end Tp2So
