import Tp2So.Ready.Tick

/-!
# One pass of aging, exactly

The queues are lined up (`Sched.Lined`): they hold live READY processes other than the idle one, each
once, with pids of their own.  On such queues a pass over queue `pr` counts the processes
`counted s pr` and no others: all of them, unless the head is due.  A head that is due leaves the
queue, the cursor stands on the new head, and the loop takes that for the end of the turn.

* `Process.age`, `due`   what the pass makes of a process, and whether it goes to the highest queue;
* `Aged pr xs s s'`      `s'` is `s` with the processes `xs` of queue `pr` aged;
* `turn_spec`            one turn of the loop;
* `ageQueue_spec`        the pass over one queue, which ends;
* `applyAging_spec`      the three passes.
-/

set_option linter.unusedVariables false

namespace Tp2So

/-- a process that has waited for one more tick -/
def Process.age (p : Process) : Process :=
  if agingThreshold ≤ p.waitTicks + 1 then { p with priority := maxPriority, waitTicks := 0 }
  else { p with waitTicks := p.waitTicks + 1 }

/-- it reaches the threshold with this tick -/
def due (s : Sched) (a : Nat) : Bool := (s.heap a).any fun p => agingThreshold ≤ p.waitTicks + 1

/-- the queues hold READY processes, each once, under different pids -/
structure Sched.Lined (s : Sched) : Prop where
  live : ∀ pr, ∀ a ∈ (s.ready pr).elems, s.idle ≠ some a ∧
    ∃ p, s.heap a = some p ∧ p.state = .ready
  nodup : ∀ pr, (s.ready pr).elems.Nodup
  apart : ∀ pr pr' a, a ∈ (s.ready pr).elems → a ∈ (s.ready pr').elems → pr = pr'
  pids : ∀ pr pr' a b p q, a ∈ (s.ready pr).elems → b ∈ (s.ready pr').elems → s.heap a = some p →
    s.heap b = some q → p.pid = q.pid → a = b

/-- the processes `xs` of queue `pr` are aged; those that are due go to the highest queue -/
structure Aged (pr : Priority) (xs : List Nat) (s s' : Sched) : Prop where
  heap : ∀ a, s'.heap a = if a ∈ xs then (s.heap a).map Process.age else s.heap a
  own : (s'.ready pr).elems = (s.ready pr).elems.filter fun a => !(decide (a ∈ xs) && due s a)
  top : (s'.ready maxPriority).elems = (s.ready maxPriority).elems ++ xs.filter (due s)
  other : ∀ pr', pr' ≠ pr → pr' ≠ maxPriority → (s'.ready pr').elems = (s.ready pr').elems
  idle : s'.idle = s.idle
  running : s'.running = s.running
  table : s'.table = s.table

/-- the processes that a pass over queue `pr` counts -/
def counted (s : Sched) (pr : Priority) : List Nat :=
  match (s.ready pr).elems with
  | [] => []
  | a :: l => if due s a then [a] else a :: l

section
variable {s s' s₁ : Sched} {pr : Priority} {a b c : Nat} {p q : Process} {xs l₁ l₂ : List Nat}

/-! ## processes -/

theorem Process.age_state (p : Process) : p.age.state = p.state := by
  unfold Process.age
  split <;> rfl

theorem Process.age_pid (p : Process) : p.age.pid = p.pid := by
  unfold Process.age
  split <;> rfl

theorem due_eq (hp : s.heap a = some p) : due s a = decide (agingThreshold ≤ p.waitTicks + 1) := by
  unfold due
  rw [hp]
  rfl

theorem due_congr (h : s'.heap a = s.heap a) : due s' a = due s a := by
  unfold due
  rw [h]

theorem Sched.Ok.lined (h : s.Ok) : s.Lined := by
  refine ⟨fun pr a ha => ?_, h.nodup, fun pr pr' a ha ha' => ?_,
    fun pr pr' a b p q ha hb hp hq he => ?_⟩
  · obtain ⟨-, hi, p, hp, hst, -⟩ := h.queued pr a ha
    exact ⟨hi, p, hp, hst⟩
  · obtain ⟨-, -, p, hp, -, hpr, -⟩ := h.queued pr a ha
    obtain ⟨-, -, q, hq, -, hpr', -⟩ := h.queued pr' a ha'
    obtain rfl := Option.some.inj (hp.symm.trans hq)
    exact hpr.symm.trans hpr'
  · obtain ⟨-, -, p', hp', -, -, ht⟩ := h.queued pr a ha
    obtain ⟨-, -, q', hq', -, -, ht'⟩ := h.queued pr' b hb
    obtain rfl := Option.some.inj (hp.symm.trans hp')
    obtain rfl := Option.some.inj (hq.symm.trans hq')
    exact h.same_pid hp hq ht ht' he

/-! ## lists of aged processes -/

theorem Aged.nil (s : Sched) (pr : Priority) : Aged pr [] s s := by
  refine ⟨fun a => (if_neg List.not_mem_nil).symm, ?_, ?_, fun _ _ _ => rfl, rfl, rfl, rfl⟩
  · exact (List.filter_eq_self.mpr fun a _ => by simp).symm
  · exact (List.append_nil _).symm

theorem Aged.cons (h1 : Aged pr [a] s s₁) (h2 : Aged pr xs s₁ s') (ha : a ∉ xs) :
    Aged pr (a :: xs) s s' := by
  have hne : ∀ {b}, b ≠ a → s₁.heap b = s.heap b := by
    intro b hb
    rw [h1.heap b, if_neg fun hm => hb (List.mem_singleton.mp hm)]
  have hxs : ∀ {b}, b ∈ xs → b ≠ a := fun hb e => ha (e ▸ hb)
  refine ⟨fun b => ?_, ?_, ?_, fun pr' h h' => ?_, h2.idle.trans h1.idle,
    h2.running.trans h1.running, h2.table.trans h1.table⟩
  · rw [h2.heap b]
    by_cases e : b = a
    · rw [e, if_neg ha, if_pos List.mem_cons_self, h1.heap a, if_pos List.mem_cons_self]
    · rw [hne e]
      by_cases hb : b ∈ xs
      · rw [if_pos hb, if_pos (List.mem_cons_of_mem _ hb)]
      · rw [if_neg hb, if_neg fun hm => (List.mem_cons.mp hm).elim e hb]
  · rw [h2.own, h1.own, List.filter_filter]
    refine List.filter_congr fun b _ => ?_
    by_cases e : b = a
    · subst e
      simp [ha]
    · rw [due_congr (hne e)]
      simp [e]
  · rw [h2.top, h1.top, List.append_assoc]
    congr 1
    have hfilter : xs.filter (due s₁) = xs.filter (due s) :=
      List.filter_congr fun b hb => due_congr (hne (hxs hb))
    rw [hfilter, List.filter_cons, List.filter_cons]
    split <;> rfl
  · rw [h2.other pr' h h', h1.other pr' h h']

theorem Aged.mem (h : Aged pr xs s s') {pr' : Priority} (hpr : pr ≠ maxPriority)
    (hb : b ∈ (s'.ready pr').elems) :
    (b ∈ (s.ready pr').elems ∧ (pr' = pr → ¬ (b ∈ xs ∧ due s b = true))) ∨
      (pr' = maxPriority ∧ b ∈ xs ∧ due s b = true) := by
  by_cases e : pr' = pr
  · subst e
    rw [h.own] at hb
    obtain ⟨h1, h2⟩ := List.mem_filter.mp hb
    refine Or.inl ⟨h1, fun _ ⟨h3, h4⟩ => ?_⟩
    rw [decide_eq_true h3, h4] at h2
    exact absurd h2 (by simp)
  · by_cases e' : pr' = maxPriority
    · subst e'
      rw [h.top] at hb
      rcases List.mem_append.mp hb with hb | hb
      · exact Or.inl ⟨hb, fun e'' => absurd e'' e⟩
      · exact Or.inr ⟨rfl, List.mem_filter.mp hb⟩
    · rw [h.other pr' e e'] at hb
      exact Or.inl ⟨hb, fun e'' => absurd e'' e⟩

theorem Aged.live (h : Aged pr xs s s') (hp : s.heap b = some p) :
    ∃ q, s'.heap b = some q ∧ q.pid = p.pid ∧ q.state = p.state := by
  rw [h.heap b, hp]
  split
  · exact ⟨p.age, rfl, p.age_pid, p.age_state⟩
  · exact ⟨p, rfl, rfl, rfl⟩

theorem Aged.lined (h : Aged pr xs s s') (hpr : pr ≠ maxPriority) (hnd : xs.Nodup)
    (hxs : ∀ b ∈ xs, b ∈ (s.ready pr).elems) (hl : s.Lined) : s'.Lined := by
  have hold : ∀ {pr' b}, b ∈ (s'.ready pr').elems → ∃ pr'', b ∈ (s.ready pr'').elems := by
    intro pr' b hb
    rcases h.mem hpr hb with ⟨hb, -⟩ | ⟨-, hb, -⟩
    · exact ⟨pr', hb⟩
    · exact ⟨pr, hxs b hb⟩
  refine ⟨fun pr' b hb => ?_, fun pr' => ?_, fun p₁ p₂ b h1 h2 => ?_,
    fun p₁ p₂ b c p q hb hc hp hq he => ?_⟩
  · obtain ⟨pr'', hb⟩ := hold hb
    obtain ⟨hi, p, hp, hst⟩ := hl.live pr'' b hb
    obtain ⟨q, hq, -, hqst⟩ := h.live hp
    exact ⟨by rw [h.idle]; exact hi, q, hq, hqst.trans hst⟩
  · by_cases e : pr' = pr
    · rw [e, h.own]
      exact (hl.nodup pr).filter _
    · by_cases e' : pr' = maxPriority
      · rw [e', h.top]
        refine List.nodup_append.mpr ⟨hl.nodup _, hnd.filter _, ?_⟩
        intro b hb c hc hbc
        rw [← hbc] at hc
        exact hpr (hl.apart pr maxPriority b (hxs b (List.mem_filter.mp hc).1) hb)
      · rw [h.other pr' e e']
        exact hl.nodup pr'
  · rcases h.mem hpr h1 with ⟨h1, h1'⟩ | ⟨rfl, h1, h1'⟩
    · rcases h.mem hpr h2 with ⟨h2, -⟩ | ⟨rfl, h2, h2'⟩
      · exact hl.apart p₁ p₂ b h1 h2
      · exact absurd ⟨h2, h2'⟩ (h1' (hl.apart p₁ pr b h1 (hxs b h2)))
    · rcases h.mem hpr h2 with ⟨h2, h2'⟩ | ⟨rfl, -⟩
      · exact absurd ⟨h1, h1'⟩ (h2' (hl.apart p₂ pr b h2 (hxs b h1)))
      · rfl
  · obtain ⟨r₁, hb⟩ := hold hb
    obtain ⟨r₂, hc⟩ := hold hc
    obtain ⟨-, p', hp', -⟩ := hl.live r₁ b hb
    obtain ⟨-, q', hq', -⟩ := hl.live r₂ c hc
    obtain ⟨p'', hp'', hpid, -⟩ := h.live hp'
    obtain ⟨q'', hq'', hqid, -⟩ := h.live hq'
    obtain rfl := Option.some.inj (hp.symm.trans hp'')
    obtain rfl := Option.some.inj (hq.symm.trans hq'')
    exact hl.pids r₁ r₂ b c p' q' hb hc hp' hq' (hpid.symm.trans (he.trans hqid))

/-! ## one turn of the loop -/

theorem heap_modify (s : Sched) (a : Nat) (f : Process → Process) (b : Nat) :
    (s.modify a f).heap b = if b ∈ [a] then (s.heap b).map f else s.heap b := by
  rw [Sched.modify_heap]
  by_cases e : b = a
  · rw [e, heapMod_self, if_pos List.mem_cons_self]
  · rw [heapMod_of_ne _ _ e, if_neg fun hm => e (List.mem_singleton.mp hm)]

theorem aged_stay (hp : s.heap a = some p) (hd : ¬ agingThreshold ≤ p.waitTicks + 1) :
    Aged pr [a] s (s.modify a (Process.setWaitTicks (p.waitTicks + 1))) := by
  have hdue : due s a = false := by
    rw [due_eq hp]
    exact decide_eq_false hd
  refine ⟨fun b => ?_, ?_, ?_, fun _ _ _ => rfl, rfl, rfl, rfl⟩
  · rw [heap_modify]
    by_cases e : b ∈ [a]
    · rw [if_pos e, if_pos e, List.mem_singleton.mp e, hp, Option.map_some, Option.map_some]
      unfold Process.age
      rw [if_neg hd]
      rfl
    · rw [if_neg e, if_neg e]
  · refine (List.filter_eq_self.mpr fun b _ => ?_).symm
    by_cases e : b = a
    · rw [e, hdue, Bool.and_false]
      rfl
    · rw [decide_eq_false fun hm => e (List.mem_singleton.mp hm)]
      rfl
  · rw [List.filter_cons, if_neg (by rw [hdue]; simp), List.filter_nil, List.append_nil]
    rfl

theorem boost_eq (hl : s.Lined) (hpr : pr ≠ maxPriority) (hq : (s.ready pr).elems = l₁ ++ a :: l₂)
    (hp : s.heap a = some p) (n : Nat) :
    boost (s.modify a (Process.setWaitTicks n)) pr a
      = ((((s.setQueue pr (cutQueue (s.ready pr) l₁ l₂)).setQueue maxPriority
          (enqueue (s.ready maxPriority) a)).modify a (Process.setWaitTicks n)).modify a
          (Process.setPriority maxPriority)).modify a (Process.setWaitTicks 0) := by
  have hcmp : compareProcesses ((s.modify a (Process.setWaitTicks n)).modify a
      (Process.setPriority maxPriority)) = compareProcesses s := by
    rw [Sched.compareProcesses_modify (Process.setPriority maxPriority) fun _ => rfl,
      Sched.compareProcesses_modify (Process.setWaitTicks n) fun _ => rfl]
  have ha : a ∈ (s.ready pr).elems := by
    rw [hq]
    exact List.mem_append_right _ List.mem_cons_self
  have hnd := hl.nodup pr
  rw [hq] at hnd
  have hbefore : ∀ y ∈ l₁, compareProcesses s y a = false := by
    intro y hy
    have hym : y ∈ (s.ready pr).elems := by
      rw [hq]
      exact List.mem_append_left _ hy
    have hne : y ≠ a := fun e =>
      (List.nodup_append.mp hnd).2.2 y hy a List.mem_cons_self e
    obtain ⟨-, r, hr, -⟩ := hl.live pr y hym
    unfold compareProcesses
    rw [hr, hp]
    exact beq_false_of_ne fun he => hne (hl.pids pr pr y a r p hym ha hr hp he)
  have hrem := queueRemove_middle hq (Sched.compareProcesses_self hp) hbefore
  unfold boost
  simp only [hcmp]
  show Sched.modify (Sched.setQueue (Sched.setQueue _ pr (queueRemove (compareProcesses s)
    (s.ready pr) a)) maxPriority _) a _ = _
  rw [hrem]
  rw [Sched.setQueue_of_ne _ _ _ (Ne.symm hpr)]
  rfl

theorem aged_boost (hl : s.Lined) (hpr : pr ≠ maxPriority)
    (hq : (s.ready pr).elems = l₁ ++ a :: l₂) (hp : s.heap a = some p)
    (hd : agingThreshold ≤ p.waitTicks + 1) :
    Aged pr [a] s (boost (s.modify a (Process.setWaitTicks (p.waitTicks + 1))) pr a) := by
  have hdue : due s a = true := by
    rw [due_eq hp]
    exact decide_eq_true hd
  have hnd := hl.nodup pr
  rw [hq] at hnd
  obtain ⟨hn1, hn2, hn3⟩ := List.nodup_append.mp hnd
  rw [boost_eq hl hpr hq hp]
  refine ⟨fun b => ?_, ?_, ?_, fun pr' h h' => ?_, rfl, rfl, rfl⟩
  · rw [heap_modify, heap_modify, heap_modify]
    by_cases e : b ∈ [a]
    · rw [if_pos e, if_pos e, if_pos e, if_pos e, List.mem_singleton.mp e]
      show ((Option.map _ (s.heap a)).map _).map _ = _
      rw [hp]
      show some _ = some p.age
      unfold Process.age
      rw [if_pos hd]
      rfl
    · rw [if_neg e, if_neg e, if_neg e, if_neg e]
      rfl
  · show (((s.setQueue pr (cutQueue (s.ready pr) l₁ l₂)).setQueue maxPriority
      (enqueue (s.ready maxPriority) a)).ready pr).elems = _
    rw [Sched.setQueue_of_ne _ _ _ hpr, Sched.setQueue_self]
    show l₁ ++ l₂ = _
    have hkeep : ∀ l : List Nat, a ∉ l →
        (l.filter fun b => !(decide (b ∈ [a]) && due s b)) = l := by
      intro l hal
      refine List.filter_eq_self.mpr fun b hb => ?_
      have hne : b ∉ [a] := by
        intro hm
        rw [List.mem_singleton.mp hm] at hb
        exact hal hb
      rw [decide_eq_false hne]
      rfl
    rw [hq, List.filter_append, List.filter_cons, if_neg (by simp [hdue]),
      hkeep l₁ fun hm => hn3 a hm a List.mem_cons_self rfl, hkeep l₂ (List.nodup_cons.mp hn2).1]
  · show (((s.setQueue pr (cutQueue (s.ready pr) l₁ l₂)).setQueue maxPriority
      (enqueue (s.ready maxPriority) a)).ready maxPriority).elems = _
    rw [Sched.setQueue_self, enqueue_elems, List.filter_cons, if_pos hdue, List.filter_nil]
  · show ((((s.setQueue pr _).setQueue maxPriority _).ready pr')).elems = _
    rw [Sched.setQueue_of_ne _ _ _ h', Sched.setQueue_of_ne _ _ _ h]

theorem elems_cursor {q : Queue Nat} (hq : q.elems = (s.ready pr).elems) (pr' : Priority) :
    ((s.setQueue pr q).ready pr').elems = (s.ready pr').elems := by
  by_cases e : pr' = pr
  · rw [e, Sched.setQueue_self, hq]
  · rw [Sched.setQueue_of_ne _ _ _ e]

theorem Sched.Lined.cursor (hl : s.Lined) {q : Queue Nat} (hq : q.elems = (s.ready pr).elems) :
    (s.setQueue pr q).Lined := by
  have he := elems_cursor hq
  refine ⟨fun pr' b hb => ?_, fun pr' => ?_, fun p₁ p₂ b h1 h2 => ?_,
    fun p₁ p₂ b c p r hb hc hp hr hpid => ?_⟩
  · rw [he] at hb
    exact hl.live pr' b hb
  · rw [he]
    exact hl.nodup pr'
  · rw [he] at h1 h2
    exact hl.apart p₁ p₂ b h1 h2
  · rw [he] at hb hc
    exact hl.pids p₁ p₂ b c p r hb hc hp hr hpid

theorem Aged.cursor {q : Queue Nat} (hq : q.elems = (s.ready pr).elems)
    (h : Aged pr xs (s.setQueue pr q) s') : Aged pr xs s s' := by
  have he := elems_cursor hq
  refine ⟨h.heap, ?_, ?_, fun pr' h1 h2 => ?_, h.idle, h.running, h.table⟩
  · rw [h.own, he]
    rfl
  · rw [h.top, he]
    rfl
  · rw [h.other pr' h1 h2, he]

/-- the place of the cursor when the process between `l₁` and `l₂` has been counted -/
def cursorAfter (l₁ l₂ : List Nat) (d : Bool) : Option Nat :=
  if d then (if l₂ = [] then (if l₁ = [] then none else some 0) else some l₁.length)
  else if l₂ = [] then some 0 else some (l₁.length + 1)

theorem cursorRemoved_cut (l₁ l₂ : List Nat) :
    cursorRemoved l₁.length (l₁ ++ l₂).length
      (if l₁.length + 1 < (l₁ ++ a :: l₂).length then l₁.length + 1 else 0) = cursorAfter l₁ l₂ true := by
  cases l₂ with
  | nil =>
    cases l₁ with
    | nil => rfl
    | cons b l₁ => simp [cursorAfter, cursorRemoved]
  | cons b l₂ => simp [cursorAfter, cursorRemoved]

theorem cursor_kept (l₁ l₂ : List Nat) :
    some (if l₁.length + 1 < (l₁ ++ a :: l₂).length then l₁.length + 1 else 0)
      = cursorAfter l₁ l₂ false := by
  cases l₂ with
  | nil => simp [cursorAfter]
  | cons b l₂ => simp [cursorAfter]

theorem ageProcess_spec (hl : s.Lined) (hpr : pr ≠ maxPriority)
    (hq : (s.ready pr).elems = l₁ ++ a :: l₂) (hp : s.heap a = some p) :
    Aged pr [a] s (ageProcess s pr a p) ∧
      (ageProcess s pr a p).ready pr
        = if due s a then cutQueue (s.ready pr) l₁ l₂ else s.ready pr := by
  rw [due_eq hp]
  by_cases hd : agingThreshold ≤ p.waitTicks + 1
  · have he : ageProcess s pr a p
        = boost (s.modify a (Process.setWaitTicks (p.waitTicks + 1))) pr a := if_pos hd
    rw [he, decide_eq_true hd, if_pos rfl]
    refine ⟨aged_boost hl hpr hq hp hd, ?_⟩
    rw [boost_eq hl hpr hq hp]
    show ((s.setQueue pr (cutQueue (s.ready pr) l₁ l₂)).setQueue maxPriority
      (enqueue (s.ready maxPriority) a)).ready pr = _
    rw [Sched.setQueue_of_ne _ _ _ hpr, Sched.setQueue_self]
  · have he : ageProcess s pr a p = s.modify a (Process.setWaitTicks (p.waitTicks + 1)) := if_neg hd
    rw [he, decide_eq_false hd, if_neg (by simp)]
    exact ⟨aged_stay hp hd, rfl⟩

/-- **One turn** of the loop, on the process between `l₁` and `l₂`. -/
theorem turn_spec (hl : s.Lined) (hpr : pr ≠ maxPriority) (hq : (s.ready pr).elems = l₁ ++ a :: l₂)
    (hc : (s.ready pr).cyclicIter = some l₁.length) :
    ∃ s₁, Aged pr [a] s s₁ ∧
      (s₁.ready pr).elems = (if due s a then l₁ ++ l₂ else l₁ ++ a :: l₂) ∧
      (s₁.ready pr).cyclicIter = cursorAfter l₁ l₂ (due s a) ∧
      ∀ fuel, agingLoop pr (fuel + 1) s
        = if queueCyclicIterLooped (s₁.ready pr) then some s₁ else agingLoop pr fuel s₁ := by
  have ha : a ∈ (s.ready pr).elems := by
    rw [hq]
    exact List.mem_append_right _ List.mem_cons_self
  obtain ⟨hi, p, hp, hst⟩ := hl.live pr a ha
  have hnext : queueNextCyclicIter (s.ready pr) = some (a, ⟨l₁ ++ a :: l₂,
      some (if l₁.length + 1 < (l₁ ++ a :: l₂).length then l₁.length + 1 else 0)⟩) := by
    have hget : (s.ready pr).elems[l₁.length]? = some a := by
      rw [hq, List.getElem?_append_right (Nat.le_refl _), Nat.sub_self]
      rfl
    unfold queueNextCyclicIter
    simp only [hc, hget]
    rw [hq]
  -- the state once the cursor has moved on
  obtain ⟨u, hu⟩ : ∃ u, u = s.setQueue pr ⟨l₁ ++ a :: l₂,
      some (if l₁.length + 1 < (l₁ ++ a :: l₂).length then l₁.length + 1 else 0)⟩ := ⟨_, rfl⟩
  have hup : u.ready pr = ⟨l₁ ++ a :: l₂,
      some (if l₁.length + 1 < (l₁ ++ a :: l₂).length then l₁.length + 1 else 0)⟩ := by
    rw [hu, Sched.setQueue_self]
  have hlu : u.Lined := by
    rw [hu]
    exact hl.cursor hq.symm
  have hpu : u.heap a = some p := by
    rw [hu]
    exact hp
  have hdue : due u a = due s a := due_congr (hpu.trans hp.symm)
  obtain ⟨haged, hready⟩ := ageProcess_spec hlu hpr (by rw [hup]) hpu
  rw [hdue] at hready
  refine ⟨ageProcess u pr a p, ?_, ?_, ?_, fun fuel => ?_⟩
  · rw [hu] at haged ⊢
    exact haged.cursor hq.symm
  · rw [hready]
    split
    · rfl
    · rw [hup]
  · rw [hready]
    split <;> rename_i hd
    · rw [hd, hup]
      exact cursorRemoved_cut l₁ l₂
    · rw [hup, eq_false_of_ne_true hd]
      exact cursor_kept l₁ l₂
  · rw [Sched.agingLoop_next hnext hp, if_neg (not_or_intro (not_not_intro hst) hi), hu]

/-! ## the pass over one queue -/

/-- the loop from the second process of the queue on -/
theorem agingLoop_spec (xs : List Nat) : ∀ {s : Sched} (l₁ : List Nat) (fuel : Nat), s.Lined →
    pr ≠ maxPriority → (s.ready pr).elems = l₁ ++ xs → l₁ ≠ [] → xs ≠ [] →
    (s.ready pr).cyclicIter = some l₁.length → xs.length ≤ fuel →
    ∃ s', agingLoop pr fuel s = some s' ∧ Aged pr xs s s' := by
  induction xs with
  | nil =>
    intro s l₁ fuel _ _ _ _ hne
    exact absurd rfl hne
  | cons a xs ih =>
    intro s l₁ fuel hl hpr hq hl₁ _ hc hfuel
    obtain ⟨fuel, rfl⟩ : ∃ n, fuel = n + 1 := ⟨fuel - 1, by rw [List.length_cons] at hfuel; omega⟩
    obtain ⟨s₁, haged, hq₁, hc₁, hstep⟩ := turn_spec hl hpr hq hc
    have hpos : l₁.length ≠ 0 := fun e => hl₁ (List.length_eq_zero_iff.mp e)
    have hnd := hl.nodup pr
    rw [hq] at hnd
    have ha : a ∉ xs := (List.nodup_cons.mp (List.nodup_append.mp hnd).2.1).1
    have hmem : ∀ b ∈ [a], b ∈ (s.ready pr).elems := by
      intro b hb
      rw [List.mem_singleton.mp hb, hq]
      exact List.mem_append_right _ List.mem_cons_self
    have hlined := haged.lined hpr (List.nodup_singleton a) hmem hl
    rw [hstep]
    unfold queueCyclicIterLooped
    rw [hc₁]
    by_cases hxs : xs = []
    · -- the last process of the queue: the cursor is back at the head
      have hlast : cursorAfter l₁ xs (due s a) = some 0 := by
        unfold cursorAfter
        rw [if_pos hxs, if_pos hxs, if_neg hl₁]
        split <;> rfl
      rw [hlast, hxs, if_pos (beq_self_eq_true _)]
      exact ⟨s₁, rfl, haged⟩
    · have hlen : xs.length ≤ fuel := by
        rw [List.length_cons] at hfuel
        omega
      have hrest : ∃ s', agingLoop pr fuel s₁ = some s' ∧ Aged pr xs s₁ s' := by
        unfold cursorAfter at hc₁
        rw [if_neg hxs, if_neg hxs] at hc₁
        by_cases hd : due s a = true
        · rw [if_pos hd] at hq₁ hc₁
          exact ih l₁ fuel hlined hpr hq₁ hl₁ hxs hc₁ hlen
        · rw [if_neg hd] at hq₁ hc₁
          refine ih (l₁ ++ [a]) fuel hlined hpr ?_ (by simp) hxs ?_ hlen
          · rw [hq₁, List.append_assoc]
            rfl
          · rw [hc₁, List.length_append]
            rfl
      have hno : (cursorAfter l₁ xs (due s a) == some 0) = false := by
        unfold cursorAfter
        rw [if_neg hxs, if_neg hxs]
        split
        · exact beq_false_of_ne fun e => hpos (Option.some.inj e)
        · exact beq_false_of_ne fun e => absurd (Option.some.inj e) (by omega)
      rw [hno, if_neg (by simp)]
      obtain ⟨s', hrun, haged'⟩ := hrest
      exact ⟨s', hrun, haged.cons haged' ha⟩

theorem counted_nil (hq : (s.ready pr).elems = []) : counted s pr = [] := by
  unfold counted
  rw [hq]

theorem counted_cons (hq : (s.ready pr).elems = a :: l₁) :
    counted s pr = if due s a then [a] else a :: l₁ := by
  unfold counted
  rw [hq]

theorem counted_subset (s : Sched) (pr : Priority) : ∀ b ∈ counted s pr, b ∈ (s.ready pr).elems := by
  intro b hb
  unfold counted at hb
  split at hb
  · exact absurd hb List.not_mem_nil
  · rename_i a l hq
    rw [hq]
    split at hb
    · rw [List.mem_singleton.mp hb]
      exact List.mem_cons_self
    · exact hb

theorem counted_nodup (hl : s.Lined) (pr : Priority) : (counted s pr).Nodup := by
  have hnd := hl.nodup pr
  unfold counted
  split
  · exact List.nodup_nil
  · rename_i a l hq
    rw [hq] at hnd
    split
    · exact List.nodup_singleton a
    · exact hnd

/-- **The pass over one queue** ends, and counts the processes `counted s pr`. -/
theorem ageQueue_spec (hl : s.Lined) (hpr : pr ≠ maxPriority) {fuel : Nat}
    (hfuel : (s.ready pr).elems.length < fuel) :
    ∃ s', ageQueue fuel pr s = some s' ∧ Aged pr (counted s pr) s s' := by
  unfold ageQueue
  cases hq : (s.ready pr).elems with
  | nil =>
    rw [if_pos ((queueIsEmpty_iff _).mpr hq), counted_nil hq]
    exact ⟨s, rfl, Aged.nil s pr⟩
  | cons a l =>
    rw [hq] at hfuel
    have hne : ¬ queueIsEmpty (s.ready pr) = true := by
      rw [queueIsEmpty_iff, hq]
      simp
    have hbegin : queueBeginCyclicIter (s.ready pr) = ⟨a :: l, some 0⟩ := by
      unfold queueBeginCyclicIter
      rw [if_neg (by rw [hq]; simp), hq]
    rw [if_neg hne, hbegin]
    obtain ⟨u, hu⟩ : ∃ u, u = s.setQueue pr ⟨a :: l, some 0⟩ := ⟨_, rfl⟩
    rw [← hu]
    have hlu : u.Lined := by
      rw [hu]
      exact hl.cursor hq.symm
    have hdu : due u a = due s a := by
      rw [hu]
      rfl
    have hqu : (u.ready pr).elems = [] ++ a :: l := by
      rw [hu, Sched.setQueue_self]
      rfl
    have hcu : (u.ready pr).cyclicIter = some 0 := by rw [hu, Sched.setQueue_self]
    obtain ⟨s₁, haged, hq₁, hc₁, hstep⟩ := turn_spec hlu hpr hqu hcu
    have hback : ∀ {xs s'}, Aged pr xs u s' → Aged pr xs s s' := by
      intro xs s' h
      rw [hu] at h
      exact h.cursor hq.symm
    rw [hdu] at hq₁ hc₁
    rw [List.length_cons] at hfuel
    obtain ⟨fuel, rfl⟩ : ∃ n, fuel = n + 2 := ⟨fuel - 2, by omega⟩
    rw [hstep]
    unfold queueCyclicIterLooped
    rw [hc₁]
    by_cases hd : due s a = true
    · -- the head leaves: the cursor is the null one, or stands on the new head
      rw [counted_cons hq, if_pos hd, hd]
      by_cases hl0 : l = []
      · have hnone : cursorAfter [] l true = none := by
          unfold cursorAfter
          rw [if_pos rfl, if_pos hl0, if_pos rfl]
        rw [hnone, if_neg (by simp)]
        have hend : agingLoop pr (fuel + 1) s₁ = some s₁ := by
          rw [hd, hnone] at hc₁
          have hnext : queueNextCyclicIter (s₁.ready pr) = none := by
            unfold queueNextCyclicIter
            rw [hc₁]
          exact Sched.agingLoop_end hnext fuel
        exact ⟨s₁, hend, hback haged⟩
      · have hzero : cursorAfter [] l true = some 0 := by
          unfold cursorAfter
          rw [if_pos rfl, if_neg hl0]
          rfl
        rw [hzero, if_pos (beq_self_eq_true _)]
        exact ⟨s₁, rfl, hback haged⟩
    · rw [counted_cons hq, if_neg hd, eq_false_of_ne_true hd]
      rw [if_neg hd] at hq₁
      rw [eq_false_of_ne_true hd] at hc₁
      by_cases hl0 : l = []
      · have hzero : cursorAfter [] l false = some 0 := by
          unfold cursorAfter
          rw [if_neg (by simp), if_pos hl0]
        rw [hzero, if_pos (beq_self_eq_true _), hl0]
        exact ⟨s₁, rfl, hback haged⟩
      · have hone : cursorAfter [] l false = some 1 := by
          unfold cursorAfter
          rw [if_neg (by simp), if_neg hl0]
          rfl
        rw [hone, if_neg (by simp)]
        have hnd := hl.nodup pr
        rw [hq] at hnd
        have hmem : ∀ b ∈ [a], b ∈ (u.ready pr).elems := by
          intro b hb
          rw [List.mem_singleton.mp hb, hqu]
          exact List.mem_cons_self
        have hlined := haged.lined hpr (List.nodup_singleton a) hmem hlu
        obtain ⟨s', hrun, haged'⟩ := agingLoop_spec l [a] (fuel + 1) hlined hpr
          (by rw [hq₁]; rfl) (by simp) hl0 (by rw [hc₁, hone]; rfl) (by omega)
        exact ⟨s', hrun, hback (haged.cons haged' (List.nodup_cons.mp hnd).1)⟩

end

end Tp2So
