import Tp2So.Ready.Line
import Tp2So.Ready.Choice
import Tp2So.Ready.Counting
import Mathlib.Data.List.Perm.Subperm

/-!
# No process waits for ever

A READY process below the highest queue is counted at every tick, or stands behind a head that leaves
its queue; after fifty counts it is in the highest queue.  There the head leaves at every tick.

* `ticksLeft s a`      how many ticks `a` still waits at most;
* `ticksLeft_tick`     every tick lowers it, and `ticksLeft_call`: no call raises it;
* `ticksLeft_le`       it is never more than 176;
* `waits_bounded`      so a process does not stay READY for more ticks than that.
-/

set_option linter.unusedVariables false

namespace Tp2So

/-- the ticks that `a` still waits at most: its place in the highest queue, or the ticks to get there -/
def ticksLeft (s : Sched) (a : Nat) : Nat :=
  match s.heap a with
  | none => 0
  | some p =>
    if a ∈ (s.ready p.priority).elems then
      if p.priority = maxPriority then (s.ready p.priority).elems.idxOf a + 1
      else 64 + (agingThreshold - p.waitTicks) + (s.ready p.priority).elems.idxOf a
    else 0

/-- `a` is READY, and waits in a queue -/
def Sched.waits (s : Sched) (a : Nat) : Bool :=
  (s.heap a).any fun p => p.state == .ready && s.table p.pid == some a && s.idle != some a

/-- the ticks of a run -/
def GuardOp.ticks : GuardOp → Nat
  | .schedule _ _ => 1
  | _ => 0

namespace Sched
variable {s t u : Sched} {k k' : Kernel} {a b w n fuel fuel' : Nat} {pr : Priority} {p q : Process}

/-! ## the measure -/

theorem ticksLeft_out (h : s.Out a) : ticksLeft s a = 0 := by
  unfold ticksLeft
  split
  · rfl
  · exact if_neg (h _)

theorem ticksLeft_in (h : s.Ok) (ha : s.InLine a pr w n) : ticksLeft s a
    = if pr = maxPriority then (s.ready pr).elems.idxOf a + 1
      else 64 + (agingThreshold - w) + (s.ready pr).elems.idxOf a := by
  obtain ⟨p, hp, -, hpr, hw, -⟩ := h.inLine_proc ha
  have hmem : a ∈ (s.ready p.priority).elems := by
    rw [hpr]
    exact ha.mem
  unfold ticksLeft
  rw [hp]
  show (if a ∈ (s.ready p.priority).elems then _ else 0) = _
  rw [if_pos hmem, hpr, hw]

theorem ticksLeft_top_le (h : s.Ok) (ha : s.InLine a maxPriority w n) : ticksLeft s a ≤ n + 1 := by
  rw [ticksLeft_in h ha, if_pos rfl]
  exact Nat.succ_le_succ ha.place

theorem ticksLeft_low_le (h : s.Ok) (ha : s.InLine a pr w n) (hpr : pr ≠ maxPriority) :
    ticksLeft s a ≤ 64 + (agingThreshold - w) + n := by
  rw [ticksLeft_in h ha, if_neg hpr]
  exact Nat.add_le_add_left ha.place _

theorem ticksLeft_le_of (h : s.Ok) (ha : s.InLine a pr w n) :
    ticksLeft s a ≤ if pr = maxPriority then n + 1 else 64 + (agingThreshold - w) + n := by
  split
  · rename_i e
    subst e
    exact ticksLeft_top_le h ha
  · rename_i e
    exact ticksLeft_low_le h ha e

/-- a process that waits is in line, at its place -/
theorem Ok.inLine (h : s.Ok) (ha : s.waits a) : ∃ pr w,
    s.InLine a pr w ((s.ready pr).elems.idxOf a) := by
  obtain ⟨p, hp, hwaits⟩ := (Option.any_eq_true ..).mp ha
  simp only [Bool.and_eq_true, beq_iff_eq, bne_iff_ne] at hwaits
  obtain ⟨⟨hst, ht⟩, hi⟩ := hwaits
  refine ⟨p.priority, p.waitTicks, by rw [hp]; rfl, ?_, Nat.le_refl _⟩
  exact h.complete p.pid a p ht hp hst hi (by simp)

/-- the queues are short: their processes have pids of their own, and none is the idle one -/
theorem Ok.length_le (h : s.Ok) (pr : Priority) : (s.ready pr).elems.length ≤ 63 := by
  obtain ⟨pidOf, hpidOf⟩ : ∃ f : Nat → Nat, ∀ b p, s.heap b = some p → f b = p.pid.toNat :=
    ⟨fun b => match s.heap b with | none => 0 | some p => p.pid.toNat, fun b p hp => by simp only [hp]⟩
  have hrange : ∀ b ∈ (s.ready pr).elems, ∃ p, s.heap b = some p ∧ s.table p.pid = some b ∧
      0 < p.pid ∧ p.pid < 64 := by
    intro b hb
    obtain ⟨-, hi, p, hp, -, -, ht⟩ := h.queued pr b hb
    obtain ⟨h0, h1, -⟩ := h.tab p.pid b ht
    refine ⟨p, hp, ht, ?_, h1⟩
    rcases Int.lt_or_eq_of_le h0 with hlt | heq
    · exact hlt
    · obtain ⟨i, -, hii, hit, -⟩ := h.idle
      rw [heq, ht] at hit
      exact absurd (hii.trans hit.symm) hi
  have hnd : ((s.ready pr).elems.map pidOf).Nodup := by
    refine List.Nodup.map_on (fun b hb c hc e => ?_) (h.nodup pr)
    obtain ⟨p, hp, ht, h0, -⟩ := hrange b hb
    obtain ⟨q, hq, ht', h0', -⟩ := hrange c hc
    rw [hpidOf b p hp, hpidOf c q hq] at e
    exact h.same_pid hp hq ht ht' (by omega)
  have hsub : (s.ready pr).elems.map pidOf ⊆ (List.range 64).tail := by
    intro x hx
    obtain ⟨b, hb, rfl⟩ := List.mem_map.mp hx
    obtain ⟨p, hp, -, h0, h1⟩ := hrange b hb
    rw [hpidOf b p hp]
    have hmem : p.pid.toNat ∈ List.range' 1 63 := by
      rw [List.mem_range'_1]
      omega
    exact hmem
  have hlen := (List.subperm_of_subset hnd hsub).length_le
  rw [List.length_map] at hlen
  exact hlen

/-- **At most 176 ticks.** -/
theorem ticksLeft_le (h : s.Ok) (a : Nat) : ticksLeft s a ≤ 176 := by
  unfold ticksLeft
  split
  · exact Nat.zero_le _
  · rename_i p hp
    split
    · rename_i hmem
      have hlt := List.idxOf_lt_length_iff.mpr hmem
      have hlen := h.length_le p.priority
      split
      · omega
      · have hle : agingThreshold - p.waitTicks ≤ 50 := Nat.sub_le ..
        omega
    · exact Nat.zero_le _

/-! ## calls -/

theorem ticksLeft_call {o : GuardOp} (h : k.sched.Sound) (hw : k.sched.waits a = true) (hc : o.settled k)
    (hk : execGuard o k = some k') (hno : ∀ fuel rsp, o ≠ .schedule fuel rsp) :
    ticksLeft k'.sched a ≤ ticksLeft k.sched a := by
  obtain ⟨pr, w, ha⟩ := h.ok.inLine hw
  obtain ⟨hs, hin | hout⟩ := line_call ⟨h, ha⟩ hc hk hno
  · rw [ticksLeft_in h.ok ha]
    exact ticksLeft_le_of hs.ok hin
  · rw [ticksLeft_out hout]
    exact Nat.zero_le _

/-! ## aging -/

theorem agingLoop_mono (hf : fuel ≤ fuel') (h : agingLoop pr fuel s = some t) :
    agingLoop pr fuel' s = some t := by
  induction fuel generalizing fuel' s with
  | zero => exact absurd h (by simp [agingLoop])
  | succ fuel ih =>
    obtain ⟨fuel', rfl⟩ : ∃ n, fuel' = n + 1 := ⟨fuel' - 1, by omega⟩
    have hle : fuel ≤ fuel' := Nat.le_of_succ_le_succ hf
    unfold agingLoop at h ⊢
    cases hn : queueNextCyclicIter (s.ready pr) with
    | none =>
      simp only [hn] at h ⊢
      exact h
    | some r =>
      obtain ⟨b, q⟩ := r
      simp only [hn] at h ⊢
      cases hp : (s.setQueue pr q).heap b with
      | none =>
        simp only [hp] at h
        exact absurd h (by simp)
      | some p =>
        simp only [hp] at h ⊢
        split at h
        · rename_i hc
          rw [if_pos hc]
          exact ih hle h
        · rename_i hc
          rw [if_neg hc]
          split at h
          · rename_i hl
            rw [if_pos hl]
            exact h
          · rename_i hl
            rw [if_neg hl]
            exact ih hle h

theorem ageQueue_mono (hf : fuel ≤ fuel') (h : ageQueue fuel pr s = some t) :
    ageQueue fuel' pr s = some t := by
  unfold ageQueue at h ⊢
  split at h
  · rename_i he
    rw [if_pos he]
    exact h
  · rename_i he
    rw [if_neg he]
    exact agingLoop_mono hf h

theorem applyAging_mono (hf : fuel ≤ fuel') (h : applyAging fuel s = some t) :
    applyAging fuel' s = some t := by
  obtain ⟨u, hu, hrest⟩ := Option.bind_eq_some_iff.mp h
  obtain ⟨v, hv, ht⟩ := Option.bind_eq_some_iff.mp hrest
  unfold applyAging
  rw [ageQueue_mono hf hu, Option.bind_some, ageQueue_mono hf hv, Option.bind_some]
  exact ageQueue_mono hf ht

/-- a pass that ends is the pass that `AgedAll` describes -/
theorem agedAll_of (h : s.Ok) (hs : applyAging fuel s = some t) : AgedAll s t := by
  obtain ⟨t', ht', haged⟩ := applyAging_spec h.lined
    (lt_of_agingTurns (Nat.le_max_right fuel (agingTurns s)))
  have hsame := applyAging_mono (Nat.le_max_left fuel (agingTurns s)) hs
  obtain rfl := Option.some.inj (hsame.symm.trans ht')
  exact haged

/-- the highest queue keeps what it has -/
theorem aged_top (h : s.Ok) (ha : s.InLine a maxPriority w n) (haged : AgedAll s t) :
    t.InLine a maxPriority w n := by
  refine ha.of_moves (h.nodup maxPriority) ?_ ?_
  · rw [haged.same a fun pr' hne hm =>
      hne (h.lined.apart pr' maxPriority a (counted_subset s pr' a hm) ha.mem)]
  · rw [haged.top]
    exact Moves.arrive _ ha.mem

/-- a process that is counted and due goes to the highest queue -/
theorem aged_boosted (h : s.Ok) (ha : s.InLine a pr w n) (ht : t.Ok) (haged : AgedAll s t)
    (hpr : pr ≠ maxPriority) (hcount : a ∈ counted s pr) (hdue : due s a = true) :
    t.InLine a maxPriority 0 62 := by
  obtain ⟨p, hp, hst, -⟩ := h.inLine_proc ha
  have hd : agingThreshold ≤ p.waitTicks + 1 := by
    rw [due_eq hp] at hdue
    exact of_decide_eq_true hdue
  have hheap : t.heap a = some { p with priority := maxPriority, waitTicks := 0 } := by
    rw [haged.aged pr hpr a hcount, hp]
    exact congrArg some (if_pos hd)
  have hmem : a ∈ (t.ready maxPriority).elems := by
    refine ht.complete p.pid a _ ?_ hheap hst ?_ (by simp)
    · rw [haged.table]
      obtain ⟨-, -, p', hp', -, -, htab⟩ := h.queued pr a ha.mem
      obtain rfl := Option.some.inj (hp.symm.trans hp')
      exact htab
    · rw [haged.idle]
      exact (h.queued pr a ha.mem).2.1
  refine ⟨?_, hmem, ?_⟩
  · rw [hheap]
    rfl
  · have hlt := List.idxOf_lt_length_iff.mpr hmem
    have hlen := ht.length_le maxPriority
    omega

/-- one that is counted and not due stays, with a tick more -/
theorem aged_counted (h : s.Ok) (ha : s.InLine a pr w n) (haged : AgedAll s t)
    (hpr : pr ≠ maxPriority) (hcount : a ∈ counted s pr) (hdue : due s a = false) :
    w + 1 < agingThreshold ∧ t.InLine a pr (w + 1) n := by
  obtain ⟨p, hp, -, -, hticks, -⟩ := h.inLine_proc ha
  have hown := haged.own pr hpr
  have hd : ¬ agingThreshold ≤ p.waitTicks + 1 := by
    rw [due_eq hp] at hdue
    exact of_decide_eq_false hdue
  have hsub : (t.ready pr).elems.Sublist (s.ready pr).elems := by
    rw [hown]
    exact List.filter_sublist
  have hstays : a ∈ (t.ready pr).elems := by
    rw [hown]
    refine List.mem_filter.mpr ⟨ha.mem, ?_⟩
    rw [hdue, Bool.and_false]
    rfl
  refine ⟨by rw [← hticks]; exact Nat.lt_of_not_le hd, ?_, hstays, ?_⟩
  · rw [haged.aged pr hpr a hcount, hp]
    show some p.age.waitTicks = some (w + 1)
    unfold Process.age
    rw [if_neg hd, ← hticks]
  · exact Nat.le_trans (idxOf_sublist_le hsub (h.nodup pr) hstays) ha.place

/-- where one is not counted, the head of its queue is due, and leaves -/
theorem aged_passed (h : s.Ok) (ha : s.InLine a pr w n) (haged : AgedAll s t)
    (hpr : pr ≠ maxPriority) (hcount : a ∉ counted s pr) : ∃ m, n = m + 1 ∧ t.InLine a pr w m := by
  have hown := haged.own pr hpr
  have hmem := ha.mem
  have hplace := ha.place
  have hnd := h.nodup pr
  cases hq : (s.ready pr).elems with
  | nil =>
    rw [hq] at hmem
    exact absurd hmem List.not_mem_nil
  | cons b l =>
    have hcount' := hcount
    rw [counted_cons hq] at hcount' hown
    rw [hq] at hmem hown hplace hnd
    have hdue : due s b = true := by
      by_contra hno
      rw [if_neg hno] at hcount'
      exact hcount' hmem
    rw [if_pos hdue] at hcount' hown
    have hne : a ≠ b := fun e => hcount' (List.mem_singleton.mpr e)
    have hin : a ∈ l := List.mem_of_ne_of_mem hne hmem
    have hrest : (t.ready pr).elems = l.filter fun c => !(decide (c ∈ [b]) && due s c) := by
      rw [hown, List.filter_cons, if_neg]
      rw [decide_eq_true List.mem_cons_self, hdue]
      exact Bool.false_ne_true
    have hmoves : Moves a l (t.ready pr).elems := by
      rw [hrest]
      refine Moves.depart List.filter_sublist (List.mem_filter.mpr ⟨hin, ?_⟩)
      rw [decide_eq_false hcount']
      rfl
    have hlt := hmoves.place_lt hnd
    refine ⟨n - 1, by omega, ?_, hmoves.mem, by omega⟩
    rw [haged.same a fun pr' _ hm => ?_]
    · exact ha.proc
    · obtain rfl := h.lined.apart pr' pr a (counted_subset s pr' a hm) ha.mem
      exact hcount hm

/-- where a process stands after the pass -/
inductive AgedTo (a : Nat) (pr : Priority) (w n : Nat) (t : Sched) : Prop where
  | top (hpr : pr = maxPriority) (h : t.InLine a pr w n)
  | boosted (hpr : pr ≠ maxPriority) (h : t.InLine a maxPriority 0 62)
  | counted (hpr : pr ≠ maxPriority) (hw : w + 1 < agingThreshold) (h : t.InLine a pr (w + 1) n)
  | passed (hpr : pr ≠ maxPriority) (m : Nat) (hm : n = m + 1) (h : t.InLine a pr w m)

theorem agedTo (h : s.Ok) (ha : s.InLine a pr w n) (ht : t.Ok) (haged : AgedAll s t) :
    AgedTo a pr w n t := by
  by_cases hpr : pr = maxPriority
  · subst hpr
    exact .top rfl (aged_top h ha haged)
  · by_cases hcount : a ∈ counted s pr
    · cases hdue : due s a with
      | true => exact .boosted hpr (aged_boosted h ha ht haged hpr hcount hdue)
      | false =>
        obtain ⟨hw, hin⟩ := aged_counted h ha haged hpr hcount hdue
        exact .counted hpr hw hin
    · obtain ⟨m, hm, hin⟩ := aged_passed h ha haged hpr hcount
      exact .passed hpr m hm hin

/-! ## the rest of the tick -/

theorem inLine_preempt {rsp : Nat} (h : s.Ok) (ha : s.InLine a pr w n)
    (hs : preempt rsp s = some (.inr t)) : t.InLine a pr w n := by
  obtain ⟨p, hp, hst, -⟩ := h.inLine_proc ha
  unfold preempt at hs
  cases hrun : s.running with
  | none =>
    simp only [hrun] at hs
    obtain rfl := Sum.inr.inj (Option.some.inj hs)
    exact ha
  | some b =>
    cases hq : s.heap b with
    | none =>
      simp only [hrun, hq] at hs
      exact absurd hs (by simp)
    | some q =>
      have h1 := ha.modify b (f := Process.setRsp rsp) (Or.inr fun _ => rfl)
      simp only [hrun, hq] at hs
      split at hs
      · obtain rfl := Sum.inr.inj (Option.some.inj hs)
        exact h1.around rfl rfl
      · obtain rfl := Sum.inr.inj (Option.some.inj hs)
        exact h1.around rfl rfl
      · obtain rfl := Sum.inr.inj (Option.some.inj hs)
        exact h1
      · split at hs
        · exact absurd (Option.some.inj hs) (by simp)
        · obtain rfl := Sum.inr.inj (Option.some.inj hs)
          have h2 := h1.modify b (f := Process.setQuantum (q.quantumRemaining - 1)) (Or.inr fun _ => rfl)
          have h3 := h2.modify b (f := Process.setQuantum defaultQuantum) (Or.inr fun _ => rfl)
          have h4 := h3.modify b (f := Process.setState .ready) (Or.inr fun _ => rfl)
          exact inLine_addToScheduler h4 (h.nodup pr) b

/-- a process has the CPU at the end of the tick, or it has moved up in the highest queue, or it has
not been overtaken -/
theorem inLine_chosen {next : Option Nat} {r : Nat × Sched} (h : s.Ok) (ha : s.InLine a pr w n)
    (hsel : selectNext [3, 2, 1, 0] s = some (next, u)) (hd : dispatch next u = some r)
    (hr : r.2.Ok) :
    r.2.Out a ∨ (r.2.InLine a pr w n ∧ (pr = maxPriority → ∃ m, n = m + 1 ∧ r.2.InLine a pr w m)) := by
  have hall : ∀ pr : Priority, pr ∈ [3, 2, 1, 0] := by decide
  obtain ⟨pr', b, q, hb, hhead, htop⟩ := selectNext_head h [3, 2, 1, 0]
    ⟨pr, hall pr, List.ne_nil_of_mem ha.mem⟩
  obtain ⟨rfl, rfl⟩ := Prod.mk.inj (Option.some.inj (hhead.symm.trans hsel))
  obtain ⟨-, hi, p, hp, hst, -⟩ := h.queued pr' b (by rw [hb]; exact List.mem_cons_self)
  have hp' : (s.setQueue pr' q).heap b = some p := hp
  obtain ⟨hready, hself, hother⟩ := dispatch_keeps hp' hst hi hd
  by_cases e : a = b
  · refine Or.inl (hr.out fun q hq => ?_)
    rw [e] at hq
    obtain rfl := Option.some.inj (hself.symm.trans hq)
    exact ProcessState.noConfusion
  · have hai : s.idle ≠ some a := (h.queued pr a ha.mem).2.1
    have hheap : r.2.heap a = s.heap a := hother a e hai
    have hproc : (r.2.heap a).map Process.waitTicks = some w := by
      rw [hheap]
      exact ha.proc
    have hin : (s.setQueue pr' q).InLine a pr w n := by
      refine ha.shrink (h.nodup pr) ?_ fun e' => ?_
      · rw [hb]
        exact List.sublist_cons_self ..
      · have hmem := ha.mem
        rw [e', hb] at hmem
        exact List.mem_of_ne_of_mem e hmem
    refine Or.inr ⟨hin.around hready (by rw [hheap]; rfl), fun e' => ?_⟩
    subst e'
    obtain rfl := htop 3 [2, 1, 0] rfl (List.ne_nil_of_mem ha.mem)
    have hnd := h.nodup 3
    have hmem := hin.mem
    have hplace := ha.place
    rw [hb] at hnd hplace
    rw [setQueue_self] at hmem
    have hlt := (Moves.refl hmem).place_lt hnd
    refine ⟨n - 1, by omega, ⟨hproc, ?_, ?_⟩⟩
    · rw [hready, setQueue_self]
      exact hmem
    · rw [hready, setQueue_self]
      omega

/-! ## the whole tick -/

/-- **Every tick** brings a process that waits nearer to the CPU. -/
theorem ticksLeft_tick {rsp : Nat} {r : Nat × Sched} (h : s.Sound) (hw : s.waits a)
    (hs : schedule fuel rsp s = some r) : ticksLeft r.2 a + 1 ≤ ticksLeft s a := by
  obtain ⟨pr, w, ha⟩ := h.ok.inLine hw
  obtain ⟨n, hn⟩ : ∃ n, n = (s.ready pr).elems.idxOf a := ⟨_, rfl⟩
  rw [← hn] at ha
  have hend := ok_schedule h.ok hs
  rw [ticksLeft_in h.ok ha, ← hn]
  obtain ⟨s₁, hage, hparts⟩ := schedule_parts hs
  have h₁ := ok_applyAging h.ok hage
  rcases hparts with ⟨s₂, hpre, -⟩ | ⟨s₂, next, u, hpre, hsel, hd⟩
  · obtain ⟨v, hv, -⟩ := preempt_short (short_applyAging h.short hage) hpre
    cases hv
  · have hrest : ∀ {pr' w' n'}, s₁.InLine a pr' w' n' → r.2.Out a ∨ (r.2.InLine a pr' w' n' ∧
        (pr' = maxPriority → ∃ m, n' = m + 1 ∧ r.2.InLine a pr' w' m)) := fun hin =>
      inLine_chosen (ok_preempt h₁ hpre) (inLine_preempt h₁ hin hpre) hsel hd hend
    have hout : r.2.Out a → ∀ b, 1 ≤ b → ticksLeft r.2 a + 1 ≤ b := by
      intro ho b hb
      rw [ticksLeft_out ho]
      exact hb
    rcases agedTo h.ok ha h₁ (agedAll_of h.ok hage) with ⟨hpr, hin⟩ | ⟨hpr, hin⟩ | ⟨hpr, hlt, hin⟩ |
      ⟨hpr, m, hm, hin⟩
    · rw [if_pos hpr]
      rcases hrest hin with ho | ⟨-, hup⟩
      · exact hout ho _ (Nat.le_add_left ..)
      · obtain ⟨m, hm, hin⟩ := hup hpr
        subst hpr
        have hle := ticksLeft_top_le hend hin
        omega
    · rw [if_neg hpr]
      rcases hrest hin with ho | ⟨hin, -⟩
      · exact hout ho _ (by omega)
      · have hle := ticksLeft_top_le hend hin
        omega
    · rw [if_neg hpr]
      rcases hrest hin with ho | ⟨hin, -⟩
      · exact hout ho _ (by omega)
      · have hle := ticksLeft_low_le hend hin hpr
        have hlt' : w + 1 < 50 := hlt
        omega
    · rw [if_neg hpr]
      rcases hrest hin with ho | ⟨hin, -⟩
      · exact hout ho _ (by omega)
      · have hle := ticksLeft_low_le hend hin hpr
        omega

/-! ## runs -/

theorem ticksLeft_step (o : GuardOp) (k k' : Kernel) (h : k.sched.Sound)
    (hc : o.settled k = true ∧ k.sched.waits a = true) (hk : execGuard o k = some k') :
    k'.sched.Sound ∧ ticksLeft k'.sched a + o.ticks ≤ ticksLeft k.sched a := by
  refine ⟨sound_step o k k' h hc.1 hk, ?_⟩
  by_cases hno : ∃ fuel rsp, o = .schedule fuel rsp
  · obtain ⟨fuel, rsp, rfl⟩ := hno
    obtain ⟨r, hr, rfl⟩ := Option.map_eq_some_iff.mp hk
    exact ticksLeft_tick h hc.2 hr
  · have hzero : o.ticks = 0 := by
      cases o with
      | schedule fuel rsp => exact absurd ⟨fuel, rsp, rfl⟩ hno
      | _ => rfl
    rw [hzero]
    exact ticksLeft_call h hc.2 hc.1 hk fun fuel rsp e => hno ⟨fuel, rsp, e⟩

end Sched

/-- **No process waits for ever.**  In every run of system calls and ticks from boot, a process stays
READY for no more ticks than `ticksLeft` says when it begins to wait: its place in the queue, if its
priority is the highest, and never more than 176. -/
theorem waits_bounded {idleStack : Nat} {idleRecycled : List Int} {initStack : Nat}
    {initRecycled : List Int} {os os' : List GuardOp} {k k' : Kernel} {a : Nat}
    (h : Runs execGuard (fun o k => o.settled k = true) os
      (bootKernel idleStack idleRecycled initStack initRecycled) k)
    (h' : Runs execGuard (fun o k => o.settled k = true ∧ k.sched.waits a = true) os' k k') :
    weigh GuardOp.ticks os' ≤ ticksLeft k.sched a ∧ ticksLeft k.sched a ≤ 176 := by
  have hboot := Sched.sound_bootKernel idleStack idleRecycled initStack initRecycled
  have hsound : k.sched.Sound := Runs.inv (I := fun k : Kernel => k.sched.Sound) Sched.sound_step h hboot
  have hcount := Runs.countdown (I := fun k : Kernel => k.sched.Sound)
    (m := fun k : Kernel => ticksLeft k.sched a) (w := GuardOp.ticks) Sched.ticksLeft_step h' hsound
  exact ⟨Nat.le_trans (Nat.le_add_left ..) hcount, Sched.ticksLeft_le hsound.ok a⟩

/-- a new process waits for one tick of the 114 that it may have to -/
theorem waits_bounded_new : ∃ k k',
    Runs execGuard (fun o k => o.settled k = true ∧ k.sched.waits 2 = true) [.schedule 4 8200] k k' ∧
      ticksLeft k.sched 2 = 114 ∧ k'.sched.running = some 2 ∧
      weigh GuardOp.ticks [.schedule 4 8200] ≤ 114 := by
  have hrun : ((runIf execGuard GuardOp.settled [.schedule 4 7, .create (plainArgs ['p'] 16384)]
      (bootKernel 0 [] 8192 [])).map fun k => (ticksLeft k.sched 2, (runIf execGuard
        (fun o k => o.settled k && k.sched.waits 2) [.schedule 4 8200] k).map fun k' =>
          k'.sched.running)) = some (114, some (some 2)) := by decide +kernel
  obtain ⟨k, hk, hrest⟩ := Option.map_eq_some_iff.mp hrun
  obtain ⟨hleft, hrest⟩ := Prod.mk.inj hrest
  obtain ⟨k', hk', hcpu⟩ := Option.map_eq_some_iff.mp hrest
  have h' : Runs execGuard (fun o k => o.settled k = true ∧ k.sched.waits 2 = true) [.schedule 4 8200]
      k k' := (runs_of_runIf hk').mono fun _ _ hc => Bool.and_eq_true_iff.mp hc
  have hbound := (waits_bounded (runs_of_runIf hk) h').1
  rw [hleft] at hbound
  exact ⟨k, k', h', hleft, hcpu, hbound⟩

end Tp2So
