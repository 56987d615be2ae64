import Tp2So.Family.Leaks
import Tp2So.Ready.Evolve

/-!
# `wait_all_children`

The loop reads `children[i]` and `child_count` anew at every turn, and the `wait_child` it calls takes
the child out of the array, so that the next child slides under the index that has just been passed.

* `AllSys`, `execAll`   the caller `b` inside `wait_all_children`, between the steps of everybody else;
* `AllOp.notified`      when the `semWait` of a `wait_child` lets the caller go on, the child is gone;
* `Loop`                the caller's array is `l`, whatever the others do;
* `Skipped`             a child that was passed over is still in the array;
* `waitAll_iff`         the call has waited for all children exactly when there was at most one.
-/

set_option linter.unusedVariables false

namespace Tp2So

/-! ## the loop -/

/-- where the caller stands: before the test of turn `i`, inside the `wait_child` of turn `i`, or at
its `return 0` -/
inductive WaitAllAt where
  | test (i : Nat)
  | inside (i : Nat)
  | returned
  deriving DecidableEq, Repr

structure AllSys where
  sys : WaitSys
  pc : WaitAllAt

/-- the call begins; `gone` counts from here -/
def AllSys.call (t : WaitSys) : AllSys := ⟨{ t with gone := [] }, .test 0⟩

inductive AllOp where
  | turn
  | resume
  | other (o : WaitOp)

/-- what happens to a running process without its doing: the tick, and `kill_process` from the
keyboard -/
def WaitOp.interrupts : WaitOp → Bool
  | .schedule _ _ => true
  | .kill _ => true
  | _ => false

def execAll (b : Nat) : AllOp → AllSys → Option AllSys
  | .turn, t =>
    match t.pc, t.sys.k.sched.actor with
    | .test i, some (a, p) =>
      if a ≠ b then none
      else
        match p.children[i]? with
        | none => some { t with pc := .returned }
        | some c =>
          if c ≤ 0 then some { t with pc := .test (i + 1) }
          else (execWait (.waitChild c) t.sys).map fun sys =>
            { sys, pc := if (sys.pending b).isSome then .inside i else .test (i + 1) }
    | _, _ => none
  | .resume, t =>
    match t.pc, t.sys.k.sched.actor with
    | .inside i, some (a, _) =>
      if a ≠ b then none
      else (execWait .resume t.sys).map fun sys => { sys, pc := .test (i + 1) }
    | _, _ => none
  | .other o, t =>
    if t.pc = .returned ∨ (o.interrupts = false ∧ t.sys.k.sched.running = some b) then none
    else (execWait o t.sys).map fun sys => { t with sys }

/-- the child is gone when its semaphore lets the caller go on -/
def AllOp.notified (b : Nat) : AllOp → AllSys → Bool
  | .turn, t =>
    match t.pc, t.sys.k.sched.actor with
    | .test i, some (_, p) =>
      p.children[i]?.all fun c => (getProcess t.sys.k.sched c).all fun a =>
        (waitChild t.sys.k c).1 != .returned || decide (a ∈ t.sys.gone)
    | _, _ => true
  | .resume, t => (t.sys.pending b).all fun x => decide (x.target ∈ t.sys.gone)
  | .other _, _ => true

/-! ## the array of the caller -/

/-- the children and the pid of a process stay -/
def SameKids (p q : Process) : Prop := q.children = p.children ∧ q.pid = p.pid

theorem tame_sameKids : Tame SameKids fun _ => True :=
  ⟨fun _ => ⟨rfl, rfl⟩, fun _ _ _ h h' => ⟨h'.1.trans h.1, h'.2.trans h.2⟩, fun _ _ _ _ => trivial,
    fun _ _ => ⟨rfl, rfl⟩, fun _ _ => ⟨rfl, rfl⟩, fun _ _ => ⟨rfl, rfl⟩, fun _ _ => ⟨rfl, rfl⟩,
    fun _ => ⟨rfl, rfl⟩⟩

/-- the block `b`, if it is still there, is that of the process `pid` with the children `l` -/
structure Keeps (b : Nat) (pid : Int) (l : List Int) (s : Sched) : Prop where
  ok : s.Ok
  old : b < s.next
  kids : ∀ q, s.heap b = some q → q.children = l ∧ q.pid = pid

section
variable {t t' : WaitSys} {b : Nat} {pid : Int} {l : List Int} {s s' : Sched} {k : Kernel}
  {o : WaitOp} {p : Process}

theorem Keeps.evolve (h : Keeps b pid l s) (hok : s'.Ok)
    (he : Evolves (fun a => a = b) SameKids (fun _ => True) s s') : Keeps b pid l s' := by
  refine ⟨hok, Nat.lt_of_lt_of_le h.old he.next, fun q hq => ?_⟩
  rcases he.kept b q rfl hq with ⟨p, hp, hc, hi⟩ | ⟨hle, -⟩
  · obtain ⟨h1, h2⟩ := h.kids p hp
    exact ⟨hc.trans h1, hi.trans h2⟩
  · exact absurd h.old (by omega)

theorem Keeps.gone (h : Keeps b pid l s) (hok : s'.Ok) (hn : s.next ≤ s'.next)
    (hb : s'.heap b = none) : Keeps b pid l s' :=
  ⟨hok, Nat.lt_of_lt_of_le h.old hn, fun q hq => absurd (hb.symm.trans hq) (by simp)⟩

theorem Keeps.not_init (h : Keeps b pid l s) (hpid : 2 ≤ pid) (hg : getProcess s initPid = some b) :
    False := by
  obtain ⟨-, -, ht⟩ := getProcess_eq_some hg
  obtain ⟨-, -, p, hp, hpp⟩ := h.ok.tab initPid b ht
  have := (h.kids p hp).2
  rw [hpp] at this
  have hone : (1 : Int) = pid := this
  omega

theorem killProcess_heap (hg : getProcess k.sched pid = some b) (hne : pid ≠ 0 ∧ pid ≠ 1)
    (hp : k.sched.heap b = some p) : (killProcess k pid).2.sched.heap b = none := by
  rw [Sched.killProcess_eq (by omega) hg hp]
  exact Function.update_self ..

/-- **What the others do** leaves the array of the caller alone. -/
theorem Keeps.other (h : Keeps b pid l t.k.sched) (hpid : 2 ≤ pid)
    (hrun : o.interrupts = true ∨ t.k.sched.running ≠ some b) (he : execWait o t = some t') :
    Keeps b pid l t'.k.sched := by
  have hok := (execWait_census h.ok he).1
  have hgrow : ∀ init, getProcess t.k.sched initPid = some init → init = b → Grows SameKids :=
    fun init hi e => (h.not_init hpid (e ▸ hi)).elim
  cases o with
  | create args =>
    have hne := hrun.resolve_left (by simp [WaitOp.interrupts])
    obtain rfl := Option.some.inj he
    exact h.evolve hok (evolves_createProcess tame_sameKids h.ok
      (fun par hr e => absurd (e ▸ hr) hne) (fun _ _ _ _ => trivial) args)
  | kill d =>
    have hk : t'.k = (killProcess t.k d).2 := by
      simp only [execWait] at he
      generalize killProcess t.k d = w at he ⊢
      generalize getProcess t.k.sched d = g at he
      split at he <;> obtain rfl := Option.some.inj he <;> rfl
    by_cases hd : getProcess t.k.sched d = some b
    · have hall : Evolves (fun _ => False) SameKids (fun _ => True) t.k.sched t'.k.sched := by
        rw [hk]
        exact evolves_killProcess tame_sameKids (fun _ _ hf => hf.elim) fun _ _ hf => hf.elim
      obtain ⟨-, -, ht⟩ := getProcess_eq_some hd
      obtain ⟨-, -, p, hp, hpd⟩ := h.ok.tab d b ht
      have hdp : d = pid := hpd.symm.trans (h.kids p hp).2
      refine h.gone hok hall.next ?_
      rw [hk]
      exact killProcess_heap hd (by omega) hp
    · refine h.evolve hok ?_
      rw [hk]
      exact evolves_killProcess tame_sameKids hgrow fun d' hd' e => absurd (e ▸ hd') hd
  | terminate =>
    have hne := hrun.resolve_left (by simp [WaitOp.interrupts])
    simp only [execWait] at he
    split at he
    · exact absurd he (by simp)
    · split at he
      · exact absurd he (by simp)
      · obtain ⟨k', hk, rfl⟩ := Option.map_eq_some_iff.mp he
        exact h.evolve hok (evolves_processTerminator tame_sameKids h.ok hgrow
          (fun d hr e => absurd (e ▸ hr) hne) hk)
  | reap =>
    obtain rfl := Option.some.inj he
    have hreap := evolves_reap (S := fun a => a = b) tame_sameKids t.k.sched
    simp only at hok ⊢
    generalize reapTerminatedProcesses t.k.sched = s at hok hreap ⊢
    exact h.evolve hok hreap
  | waitChild c =>
    have hne := hrun.resolve_left (by simp [WaitOp.interrupts])
    have hw := evolves_waitChild (S := fun a => a = b) tame_sameKids
      (fun cur hr e => hne (e ▸ hr)) (k := t.k) c
    refine h.evolve hok ?_
    simp only [execWait] at he
    split at he
    · exact absurd he (by simp)
    · split at he
      · exact absurd he (by simp)
      · generalize waitChild t.k c = w at he hw
        generalize getProcess t.k.sched c = g at he
        split at he <;> obtain rfl := Option.some.inj he <;> exact hw
  | resume =>
    have hne := hrun.resolve_left (by simp [WaitOp.interrupts])
    simp only [execWait] at he
    split at he
    · exact absurd he (by simp)
    · obtain ⟨x, -, rfl⟩ := Option.map_eq_some_iff.mp he
      have hw := evolves_waitChildResume (S := fun a => a = b) tame_sameKids
        (fun cur hr e => hne (e ▸ hr)) (k := t.k) x.pid x.sem
      exact h.evolve hok hw
  | schedule fuel rsp =>
    obtain ⟨r, hr, rfl⟩ := Option.map_eq_some_iff.mp he
    exact h.evolve hok (evolves_schedule tame_sameKids (fun _ _ => ⟨rfl, rfl⟩) hr)

/-! ## the steps of the caller -/

theorem keeps_resume (h : Keeps b pid l k.sched) (hr : k.sched.running = some b) (c : Int) (m : Nat) :
    Keeps b pid (l.erase c) (waitChildResume k c m).sched := by
  have hok := Sched.ok_waitChildResume h.ok c m
  have hreap : Evolves (fun a => a = b) SameKids (fun _ => True) k.sched
      (reapTerminatedProcesses k.sched) := evolves_reap tame_sameKids k.sched
  have hok' := Sched.ok_reapTerminatedProcesses h.ok
  have hrun := (reap_running k.sched).trans hr
  unfold waitChildResume at hok ⊢
  simp only at hok ⊢
  generalize reapTerminatedProcesses k.sched = s at hok hok' hreap hrun ⊢
  have hs := h.evolve hok' hreap
  simp only [hrun] at hok ⊢
  refine ⟨hok, hs.old, fun q hq => ?_⟩
  obtain ⟨p, hp, rfl⟩ := heapMod_some hq
  rw [if_pos rfl]
  obtain ⟨h1, h2⟩ := hs.kids p hp
  exact ⟨congrArg (List.erase · c) h1, h2⟩

/-- how the `wait_child` of the caller comes out -/
inductive Waited (b : Nat) (pid : Int) (l : List Int) (c : Int) (t t' : WaitSys) : Prop
  | error (he : (waitChild t.k c).1 = .error) (hp : t'.pending b = none)
      (hk : Keeps b pid l t'.k.sched)
  | back (he : (waitChild t.k c).1 = .returned) (hp : t'.pending b = none)
      (hk : Keeps b pid (l.erase c) t'.k.sched)
  | sleeps (m a : Nat) (hg : getProcess t.k.sched c = some a)
      (hp : t'.pending b = some ⟨c, m, a⟩) (hk : Keeps b pid l t'.k.sched)

theorem waitChild_keeps (h : Keeps b pid l k.sched) (hr : k.sched.running = some b) {c : Int}
    {res : WaitChildResult} {k' : Kernel} (hw : waitChild k c = (res, k')) :
    Keeps b pid (if res = .returned then l.erase c else l) k'.sched := by
  have hok : k'.sched.Ok := by
    have hok := Sched.ok_waitChild h.ok c
    rw [hw] at hok
    exact hok
  unfold waitChild at hw
  split at hw
  · split at hw
    · obtain ⟨rfl, rfl⟩ := Prod.mk.inj hw
      exact h.evolve hok (.refl tame_sameKids _)
    · rename_i a r _
      obtain ⟨he, hrun⟩ := evolves_semWait (S := fun a => a = b) tame_sameKids { k with sems := r } a
      have hsem := ok_semWait (k := { k with sems := r }) h.ok a
      split at hw <;> rename_i k₁ hw₁ <;> rw [hw₁] at he hrun hsem
      · obtain ⟨rfl, rfl⟩ := Prod.mk.inj hw
        have hreap := he.trans tame_sameKids (evolves_reap tame_sameKids k₁.sched)
        simp only at hok ⊢
        generalize reapTerminatedProcesses k₁.sched = s at hreap hok ⊢
        exact h.evolve hok hreap
      · obtain ⟨rfl, rfl⟩ := Prod.mk.inj hw
        exact keeps_resume (h.evolve hsem he) (hrun.trans hr) c a
      · obtain ⟨rfl, rfl⟩ := Prod.mk.inj hw
        exact h.evolve hok he
  · obtain ⟨rfl, rfl⟩ := Prod.mk.inj hw
    exact h.evolve hok (.refl tame_sameKids _)

theorem waitChild_none {c : Int} (hg : getProcess k.sched c = none) : (waitChild k c).1 = .error := by
  unfold waitChild
  rw [hg]

theorem waited (h : Keeps b pid l t.k.sched) (ha : t.k.sched.actor = some (b, p)) {c : Int}
    (he : execWait (.waitChild c) t = some t') : t'.gone = t.gone ∧ Waited b pid l c t t' := by
  obtain ⟨hr, -, -⟩ := actor_some ha
  simp only [execWait, ha] at he
  split at he
  · exact absurd he (by simp)
  · rename_i hpend
    have hnone : t.pending b = none := Option.not_isSome_iff_eq_none.mp hpend
    cases hw : waitChild t.k c with
    | mk res k' =>
      have hk := waitChild_keeps h hr hw
      have hlive : res ≠ .error → ∃ a, getProcess t.k.sched c = some a := by
        intro hne
        cases hg : getProcess t.k.sched c with
        | none => exact absurd ((congrArg Prod.fst hw).symm.trans (waitChild_none hg)) hne
        | some a => exact ⟨a, rfl⟩
      rw [hw] at he
      cases res with
      | error =>
        obtain rfl := Option.some.inj he
        exact ⟨rfl, .error (by rw [hw]) hnone hk⟩
      | returned =>
        obtain ⟨a, hg⟩ := hlive (by simp)
        rw [hg] at he
        obtain rfl := Option.some.inj he
        exact ⟨rfl, .back (by rw [hw]) hnone hk⟩
      | suspended m =>
        obtain ⟨a, hg⟩ := hlive (by simp)
        rw [hg] at he
        obtain rfl := Option.some.inj he
        exact ⟨rfl, .sleeps m a hg (Function.update_self ..) hk⟩

theorem resumed (h : Keeps b pid l t.k.sched) (ha : t.k.sched.actor = some (b, p))
    (he : execWait .resume t = some t') :
    ∃ x, t.pending b = some x ∧ t'.gone = t.gone ∧ Keeps b pid (l.erase x.pid) t'.k.sched := by
  obtain ⟨hr, -, -⟩ := actor_some ha
  simp only [execWait, ha] at he
  obtain ⟨x, hx, rfl⟩ := Option.map_eq_some_iff.mp he
  exact ⟨x, hx, rfl, keeps_resume h hr x.pid x.sem⟩

/-- the others do not touch the caller's call, unless they kill it, and bring nobody back -/
theorem other_pending (hrun : o.interrupts = true ∨ t.k.sched.running ≠ some b)
    (he : execWait o t = some t') :
    (t'.pending b = t.pending b ∨ t'.pending b = none) ∧ ∀ a ∈ t.gone, a ∈ t'.gone := by
  have hmourn : ∀ k d, ((t.mourn k d).pending b = t.pending b ∨ (t.mourn k d).pending b = none) ∧
      ∀ a ∈ t.gone, a ∈ (t.mourn k d).gone := by
    intro k d
    refine ⟨?_, fun a ha => List.mem_append_left _ ha⟩
    show Function.update t.pending d none b = _ ∨ Function.update t.pending d none b = none
    by_cases e : b = d
    · rw [e, Function.update_self]
      exact Or.inr rfl
    · rw [Function.update_of_ne e]
      exact Or.inl rfl
  have hactor : ∀ {a x}, o.interrupts = false → t.k.sched.actor = some (a, x) → b ≠ a := by
    intro a x hi ha e
    have hne := hrun.resolve_left (by rw [hi]; simp)
    exact hne (e ▸ (actor_some ha).1)
  cases o with
  | create args =>
    obtain rfl := Option.some.inj he
    exact ⟨Or.inl rfl, fun _ ha => ha⟩
  | kill d =>
    simp only [execWait] at he
    split at he
    · obtain rfl := Option.some.inj he
      exact hmourn _ _
    · obtain rfl := Option.some.inj he
      exact ⟨Or.inl rfl, fun _ ha => ha⟩
  | terminate =>
    simp only [execWait] at he
    split at he
    · exact absurd he (by simp)
    · split at he
      · exact absurd he (by simp)
      · obtain ⟨k', -, rfl⟩ := Option.map_eq_some_iff.mp he
        exact hmourn _ _
  | reap =>
    obtain rfl := Option.some.inj he
    exact ⟨Or.inl rfl, fun _ ha => ha⟩
  | waitChild c =>
    simp only [execWait] at he
    split at he
    · exact absurd he (by simp)
    · rename_i a x ha
      have hne := hactor rfl ha
      split at he
      · exact absurd he (by simp)
      · split at he
        · obtain rfl := Option.some.inj he
          exact ⟨Or.inl (Function.update_of_ne hne ..), fun _ ha => ha⟩
        · obtain rfl := Option.some.inj he
          exact ⟨Or.inl rfl, fun _ ha => ha⟩
        · obtain rfl := Option.some.inj he
          exact ⟨Or.inl rfl, fun _ ha => ha⟩
  | resume =>
    simp only [execWait] at he
    split at he
    · exact absurd he (by simp)
    · rename_i a x ha
      have hne := hactor rfl ha
      obtain ⟨y, -, rfl⟩ := Option.map_eq_some_iff.mp he
      exact ⟨Or.inl (Function.update_of_ne hne ..), fun _ ha => ha⟩
  | schedule fuel rsp =>
    obtain ⟨r, -, rfl⟩ := Option.map_eq_some_iff.mp he
    exact ⟨Or.inl rfl, fun _ ha => ha⟩

/-! ## the index and the array -/

/-- the array of the caller is `l`, and inside turn `i` it waits for the child at `i` -/
structure Loop (b : Nat) (pid : Int) (l : List Int) (t : AllSys) : Prop where
  keeps : Keeps b pid l t.sys.k.sched
  inside : ∀ i, t.pc = .inside i → ∃ c, l[i]? = some c ∧ ∀ x, t.sys.pending b = some x → x.pid = c
  back : t.pc = .returned → ∃ q, t.sys.k.sched.heap b = some q

/-- what a step does to the index and the array -/
inductive LoopStep : WaitAllAt → List Int → WaitAllAt → List Int → Prop
  | stay (at' : WaitAllAt) (l : List Int) : LoopStep at' l at' l
  | done (i : Nat) (l : List Int) (h : l[i]? = none) : LoopStep (.test i) l .returned l
  | pass (i : Nat) (l : List Int) : LoopStep (.test i) l (.test (i + 1)) l
  | sleep (i : Nat) (l : List Int) : LoopStep (.test i) l (.inside i) l
  | take (i : Nat) (l : List Int) (c : Int) (h : l[i]? = some c) :
      LoopStep (.test i) l (.test (i + 1)) (l.erase c)
  | wake (i : Nat) (l : List Int) (c : Int) (h : l[i]? = some c) :
      LoopStep (.inside i) l (.test (i + 1)) (l.erase c)

variable {o' : AllOp} {x x' : AllSys} {cs : List Int} {c : Int} {i : Nat}

theorem turn_cases (he : execAll b .turn x = some x') :
    ∃ i p, x.pc = .test i ∧ x.sys.k.sched.actor = some (b, p) ∧
      ((p.children[i]? = none ∧ x' = { x with pc := .returned }) ∨
        (∃ c, p.children[i]? = some c ∧ c ≤ 0 ∧ x' = { x with pc := .test (i + 1) }) ∨
        ∃ c sys, p.children[i]? = some c ∧ 0 < c ∧ execWait (.waitChild c) x.sys = some sys ∧
          x' = { sys, pc := if (sys.pending b).isSome then .inside i else .test (i + 1) }) := by
  simp only [execAll] at he
  split at he
  · rename_i i a p hpc ha
    split at he
    · exact absurd he (by simp)
    · rename_i hab
      obtain rfl : a = b := Classical.not_not.mp hab
      refine ⟨i, p, hpc, ha, ?_⟩
      split at he
      · rename_i hn
        exact Or.inl ⟨hn, (Option.some.inj he).symm⟩
      · rename_i c hc
        split at he
        · rename_i hle
          exact Or.inr (Or.inl ⟨c, hc, hle, (Option.some.inj he).symm⟩)
        · rename_i hle
          obtain ⟨sys, hs, rfl⟩ := Option.map_eq_some_iff.mp he
          exact Or.inr (Or.inr ⟨c, sys, hc, by omega, hs, rfl⟩)
  · exact absurd he (by simp)

theorem resume_cases (he : execAll b .resume x = some x') :
    ∃ i p sys, x.pc = .inside i ∧ x.sys.k.sched.actor = some (b, p) ∧
      execWait .resume x.sys = some sys ∧ x' = { sys, pc := .test (i + 1) } := by
  simp only [execAll] at he
  split at he
  · rename_i i a p hpc ha
    split at he
    · exact absurd he (by simp)
    · rename_i hab
      obtain rfl : a = b := Classical.not_not.mp hab
      obtain ⟨sys, hs, rfl⟩ := Option.map_eq_some_iff.mp he
      exact ⟨i, p, sys, hpc, ha, hs, rfl⟩
  · exact absurd he (by simp)

theorem other_cases (he : execAll b (.other o) x = some x') :
    x.pc ≠ .returned ∧ (o.interrupts = true ∨ x.sys.k.sched.running ≠ some b) ∧
      ∃ sys, execWait o x.sys = some sys ∧ x' = { x with sys } := by
  simp only [execAll] at he
  split at he
  · exact absurd he (by simp)
  · rename_i hc
    obtain ⟨h1, h2⟩ := not_or.mp hc
    obtain ⟨sys, hs, rfl⟩ := Option.map_eq_some_iff.mp he
    refine ⟨h1, ?_, sys, hs, rfl⟩
    cases hi : o.interrupts with
    | true => exact Or.inl rfl
    | false => exact Or.inr fun hr => h2 ⟨hi, hr⟩

theorem Loop.other (h : Loop b pid l x) (hpid : 2 ≤ pid) (he : execAll b (.other o) x = some x') :
    Loop b pid l x' := by
  obtain ⟨hnr, hrun, sys, hs, rfl⟩ := other_cases he
  obtain ⟨hp, -⟩ := other_pending hrun hs
  refine ⟨h.keeps.other hpid hrun hs, fun i hi => ?_, fun hr => absurd hr hnr⟩
  obtain ⟨c, hc, hx⟩ := h.inside i hi
  refine ⟨c, hc, fun y hy => ?_⟩
  rcases hp with e | e
  · exact hx y (e.symm.trans hy)
  · exact absurd (e.symm.trans hy) (by simp)

/-- **One step** of the caller or of the others. -/
theorem loop_step (h : Loop b pid l x) (hpid : 2 ≤ pid) (he : execAll b o' x = some x') :
    ∃ l', Loop b pid l' x' ∧ LoopStep x.pc l x'.pc l' := by
  cases o' with
  | other o =>
    obtain ⟨-, -, sys, -, rfl⟩ := other_cases he
    exact ⟨l, h.other hpid he, .stay _ l⟩
  | resume =>
    obtain ⟨i, p, sys, hpc, ha, hs, rfl⟩ := resume_cases he
    obtain ⟨y, hy, -, hk⟩ := resumed h.keeps ha hs
    obtain ⟨c, hc, hyc⟩ := h.inside i hpc
    rw [hyc y hy] at hk
    rw [hpc]
    exact ⟨l.erase c, ⟨hk, fun j hj => absurd hj (by simp), fun hr => absurd hr (by simp)⟩,
      .wake i l c hc⟩
  | turn =>
    obtain ⟨i, p, hpc, ha, hcase⟩ := turn_cases he
    obtain ⟨-, hp, -⟩ := actor_some ha
    have hl : p.children = l := (h.keeps.kids p hp).1
    rw [hl] at hcase
    rw [hpc]
    rcases hcase with ⟨hn, rfl⟩ | ⟨c, hc, -, rfl⟩ | ⟨c, sys, hc, -, hs, rfl⟩
    · exact ⟨l, ⟨h.keeps, fun j hj => absurd hj (by simp), fun _ => ⟨p, hp⟩⟩, .done i l hn⟩
    · exact ⟨l, ⟨h.keeps, fun j hj => absurd hj (by simp), fun hr => absurd hr (by simp)⟩,
        .pass i l⟩
    · obtain ⟨-, hw⟩ := waited h.keeps ha hs
      cases hw with
      | error _ hp hk =>
        simp only [hp, Option.isSome_none, Bool.false_eq_true, if_false]
        exact ⟨l, ⟨hk, fun j hj => absurd hj (by simp), fun hr => absurd hr (by simp)⟩, .pass i l⟩
      | back _ hp hk =>
        simp only [hp, Option.isSome_none, Bool.false_eq_true, if_false]
        exact ⟨l.erase c, ⟨hk, fun j hj => absurd hj (by simp), fun hr => absurd hr (by simp)⟩,
          .take i l c hc⟩
      | sleeps m a hg hp hk =>
        simp only [hp, Option.isSome_some, if_true]
        refine ⟨l, ⟨hk, fun j hj => ?_, fun hr => absurd hr (by simp)⟩, .sleep i l⟩
        obtain rfl : i = j := WaitAllAt.inside.inj hj
        refine ⟨c, hc, fun y hy => ?_⟩
        obtain rfl := Option.some.inj (hp.symm.trans hy)
        rfl

/-! ## the child that is passed over -/

/-- a child of `cs` lies behind the index, and will not be looked at again -/
def Skipped (cs : List Int) : WaitAllAt → List Int → Prop
  | .test i, l => ∃ c ∈ cs, c ∈ l.take i
  | .inside 0, l => ∃ c ∈ cs, l[1]? = some c
  | .inside (i + 1), l => ∃ c ∈ cs, c ∈ l.take (i + 1)
  | .returned, l => ∃ c ∈ cs, c ∈ l

/-- the element at the index may go: what lies behind it stays behind it -/
theorem mem_take_erase {y : Int} : ∀ {l : List Int} {i : Nat}, l[i]? = some c → y ∈ l.take i →
    y ∈ (l.erase c).take (i + 1) := by
  intro l
  induction l with
  | nil =>
    intro i h hy
    exact absurd hy (by simp)
  | cons z l ih =>
    intro i h hy
    cases i with
    | zero => exact absurd hy (by simp)
    | succ i =>
      rw [List.getElem?_cons_succ] at h
      rw [List.take_succ_cons, List.mem_cons] at hy
      by_cases e : z = c
      · -- the first occurrence goes, the one at the index moves behind it
        rw [e, List.erase_cons_head]
        have hc : c ∈ l.take (i + 1) := List.mem_of_getElem? ((List.getElem?_take_of_lt (by omega)).trans h)
        have hsub : ∀ w, w ∈ l.take (i + 1) → w ∈ l.take (i + 1 + 1) := fun w hw =>
          (List.take_subset_take_left l (by omega)) hw
        rcases hy with rfl | hy
        · rw [e]
          exact hsub c hc
        · exact hsub y ((List.take_subset_take_left l (by omega)) hy)
      · rw [List.erase_cons_tail (by simpa using e), List.take_succ_cons]
        rcases hy with rfl | hy
        · exact List.mem_cons_self
        · exact List.mem_cons_of_mem _ (ih h hy)

theorem Skipped.step {at₁ at₂ : WaitAllAt} {l₁ l₂ : List Int} (hs : LoopStep at₁ l₁ at₂ l₂)
    (h : Skipped cs at₁ l₁) : Skipped cs at₂ l₂ := by
  cases hs with
  | stay => exact h
  | done i l hn =>
    obtain ⟨c, hc, hl⟩ := h
    exact ⟨c, hc, List.mem_of_mem_take hl⟩
  | pass i =>
    obtain ⟨c, hc, hl⟩ := h
    exact ⟨c, hc, (List.take_subset_take_left _ (by omega)) hl⟩
  | sleep i =>
    obtain ⟨c, hc, hl⟩ := h
    cases i with
    | zero => exact absurd hl (by simp)
    | succ i => exact ⟨c, hc, hl⟩
  | take i l c hi =>
    obtain ⟨y, hy, hl⟩ := h
    exact ⟨y, hy, mem_take_erase hi hl⟩
  | wake i l c hi =>
    cases i with
    | zero =>
      obtain ⟨y, hy, h1⟩ := h
      refine ⟨y, hy, ?_⟩
      match l₁, hi, h1 with
      | [_], _, h1 => exact absurd h1 (by simp)
      | z :: w :: l, hi, h1 =>
        obtain rfl : z = c := Option.some.inj hi
        obtain rfl : w = y := Option.some.inj h1
        rw [List.erase_cons_head]
        exact List.mem_cons_self
    | succ i =>
      obtain ⟨y, hy, hl⟩ := h
      exact ⟨y, hy, mem_take_erase hi hl⟩

/-- after the first turn over two or more children one of them has been passed over -/
theorem skipped_first {at₂ : WaitAllAt} {l₂ : List Int} (hs : LoopStep (.test 0) cs at₂ l₂)
    (hmoved : at₂ ≠ .test 0) (hlen : 2 ≤ cs.length) : Skipped cs at₂ l₂ := by
  match cs, hlen with
  | c₀ :: c₁ :: cs, _ =>
    cases hs with
    | stay => exact absurd rfl hmoved
    | done i l hn => exact absurd hn (by simp)
    | pass => exact ⟨c₀, List.mem_cons_self, List.mem_cons_self⟩
    | sleep => exact ⟨c₁, List.mem_cons_of_mem _ List.mem_cons_self, rfl⟩
    | take i l c hi =>
      obtain rfl : c₀ = c := Option.some.inj hi
      refine ⟨c₁, List.mem_cons_of_mem _ List.mem_cons_self, ?_⟩
      rw [List.erase_cons_head]
      exact List.mem_cons_self

/-! ## one child -/

/-- the only child was the process `a`: the caller sleeps for it, or it is gone and forgotten -/
def OneChild (b : Nat) (c : Int) (a : Nat) (l : List Int) (x : AllSys) : Prop :=
  match x.pc with
  | .inside i => i = 0 ∧ l = [c] ∧ ∀ y, x.sys.pending b = some y → y.target = a
  | .test i => i = 1 ∧ l = [] ∧ a ∈ x.sys.gone
  | .returned => l = [] ∧ a ∈ x.sys.gone

theorem OneChild.step {a : Nat} (h : OneChild b c a l x) (hl : Loop b pid l x) (hpid : 2 ≤ pid)
    (hn : o'.notified b x = true) (he : execAll b o' x = some x') :
    ∃ l', Loop b pid l' x' ∧ OneChild b c a l' x' := by
  cases o' with
  | other o =>
    have hl' := hl.other hpid he
    obtain ⟨-, hrun, sys, hs, rfl⟩ := other_cases he
    obtain ⟨hp, hg⟩ := other_pending hrun hs
    refine ⟨l, hl', ?_⟩
    unfold OneChild at h ⊢
    cases hpc : x.pc with
    | inside i =>
      simp only [hpc] at h ⊢
      obtain ⟨h1, h2, h3⟩ := h
      refine ⟨h1, h2, fun y hy => ?_⟩
      rcases hp with e | e
      · exact h3 y (e.symm.trans hy)
      · exact absurd (e.symm.trans hy) (by simp)
    | test i =>
      simp only [hpc] at h ⊢
      exact ⟨h.1, h.2.1, hg a h.2.2⟩
    | returned =>
      simp only [hpc] at h ⊢
      exact ⟨h.1, hg a h.2⟩
  | resume =>
    obtain ⟨i, p, sys, hpc, ha, hs, rfl⟩ := resume_cases he
    unfold OneChild at h
    simp only [hpc] at h
    obtain ⟨rfl, rfl, htarget⟩ := h
    obtain ⟨y, hy, hgone, hk⟩ := resumed hl.keeps ha hs
    obtain ⟨c', hc', hyc⟩ := hl.inside 0 hpc
    obtain rfl : c = c' := Option.some.inj hc'
    rw [hyc y hy, List.erase_cons_head] at hk
    have hin : a ∈ x.sys.gone := by
      have hn' : ((x.sys.pending b).all fun y => decide (y.target ∈ x.sys.gone)) = true := hn
      rw [hy] at hn'
      rw [← htarget y hy]
      exact of_decide_eq_true hn'
    refine ⟨[], ⟨hk, fun j hj => absurd hj (by simp), fun hr => absurd hr (by simp)⟩, rfl, rfl, ?_⟩
    show a ∈ sys.gone
    rw [hgone]
    exact hin
  | turn =>
    obtain ⟨i, p, hpc, ha, hcase⟩ := turn_cases he
    obtain ⟨-, hp, -⟩ := actor_some ha
    unfold OneChild at h
    simp only [hpc] at h
    obtain ⟨rfl, rfl, hin⟩ := h
    have hnil : p.children = [] := (hl.keeps.kids p hp).1
    rw [hnil] at hcase
    rcases hcase with ⟨-, rfl⟩ | ⟨c, hc, -⟩ | ⟨c, sys, hc, -⟩
    · exact ⟨[], ⟨hl.keeps, fun j hj => absurd hj (by simp), fun _ => ⟨p, hp⟩⟩, rfl, hin⟩
    · exact absurd hc (by simp)
    · exact absurd hc (by simp)

theorem oneChild_first {a : Nat} (hk : Keeps b pid [c] x.sys.k.sched) (hpc : x.pc = .test 0)
    (hwf : x.sys.k.sems.Wf) (hc : 0 < c) (hg : getProcess x.sys.k.sched c = some a)
    (hn : AllOp.turn.notified b x = true) (he : execAll b .turn x = some x') :
    ∃ l', Loop b pid l' x' ∧ OneChild b c a l' x' := by
  obtain ⟨i, p, hpc', ha, hcase⟩ := turn_cases he
  obtain ⟨hr, hp, -⟩ := actor_some ha
  obtain rfl : 0 = i := WaitAllAt.test.inj (hpc.symm.trans hpc')
  have hl : p.children = [c] := (hk.kids p hp).1
  have hn' : ((waitChild x.sys.k c).1 != .returned || decide (a ∈ x.sys.gone)) = true := by
    unfold AllOp.notified at hn
    simp only [hpc, ha, hl] at hn
    have hn₁ : ((getProcess x.sys.k.sched c).all fun a =>
      (waitChild x.sys.k c).1 != .returned || decide (a ∈ x.sys.gone)) = true := hn
    rw [hg] at hn₁
    exact hn₁
  rw [hl] at hcase
  rcases hcase with ⟨hno, -⟩ | ⟨c', hc', hle, -⟩ | ⟨c', sys, hc', -, hs, rfl⟩
  · exact absurd hno (by simp)
  · obtain rfl : c = c' := Option.some.inj hc'
    exact absurd hc (by omega)
  · obtain rfl : c = c' := Option.some.inj hc'
    obtain ⟨hgone, hw⟩ := waited hk ha hs
    obtain ⟨name, m, r, n, -, -, -, -, hres⟩ := waitChild_spec hwf hr hp hg
    cases hw with
    | error he _ _ =>
      rcases hres with ⟨-, e⟩ | ⟨-, e⟩
      · rw [e] at he
        exact absurd he (by simp)
      · rw [e] at he
        exact absurd he (by simp)
    | back he hp hk =>
      simp only [hp, Option.isSome_none, Bool.false_eq_true, if_false]
      rw [he, bne_self_eq_false, Bool.false_or] at hn'
      rw [List.erase_cons_head] at hk
      refine ⟨[], ⟨hk, fun j hj => absurd hj (by simp), fun hr => absurd hr (by simp)⟩, rfl, rfl, ?_⟩
      show a ∈ sys.gone
      rw [hgone]
      exact of_decide_eq_true hn'
    | sleeps m' a' hg' hp hk =>
      simp only [hp, Option.isSome_some, if_true]
      obtain rfl := Option.some.inj (hg.symm.trans hg')
      refine ⟨[c], ⟨hk, fun j hj => ?_, fun hr => absurd hr (by simp)⟩, rfl, rfl, fun y hy => ?_⟩
      · obtain rfl : 0 = j := WaitAllAt.inside.inj hj
        refine ⟨c, rfl, fun y hy => ?_⟩
        obtain rfl := Option.some.inj (hp.symm.trans hy)
        rfl
      · obtain rfl := Option.some.inj (hp.symm.trans hy)
        rfl

/-! ## the whole call -/

/-- every child of the call has gone, and none is left in the array -/
def WaitedForAll (b : Nat) (p : Process) (t : WaitSys) (u : AllSys) : Prop :=
  ∀ c ∈ p.children, (∀ a, getProcess t.k.sched c = some a → a ∈ u.sys.gone) ∧
    ∀ q, u.sys.k.sched.heap b = some q → c ∉ q.children

/-- one of two children is passed over and stays in the array -/
theorem not_waitedForAll {os : List AllOp} {u : AllSys} (hl : Loop b p.pid p.children (.call t))
    (hpid : 2 ≤ p.pid) (hx : execAll b .turn (.call t) = some x)
    (hrest : Runs (execAll b) (fun o x => o.notified b x) os x u) (hret : u.pc = .returned)
    (hlen : 2 ≤ p.children.length) : ¬ WaitedForAll b p t u := by
  intro hall
  obtain ⟨l, hl, hstep⟩ := loop_step hl hpid hx
  have hmoved : x.pc ≠ .test 0 := by
    obtain ⟨i, q, hpc, -, hcase⟩ := turn_cases hx
    obtain rfl : 0 = i := WaitAllAt.test.inj hpc
    rcases hcase with ⟨-, rfl⟩ | ⟨c, -, -, rfl⟩ | ⟨c, sys, -, -, -, rfl⟩
    · simp
    · simp
    · simp only
      split <;> simp
  have hend : ∃ l, Loop b p.pid l u ∧ Skipped p.children u.pc l := by
    refine Runs.inv (I := fun x => ∃ l, Loop b p.pid l x ∧ Skipped p.children x.pc l)
      (fun o x x' hI _ he => ?_) hrest ⟨l, hl, skipped_first hstep hmoved hlen⟩
    obtain ⟨l, hl, hs⟩ := hI
    obtain ⟨l', hl', hstep⟩ := loop_step hl hpid he
    exact ⟨l', hl', hs.step hstep⟩
  obtain ⟨l', hl', hs⟩ := hend
  rw [hret] at hs
  obtain ⟨c, hc, hcl⟩ := hs
  obtain ⟨q, hq⟩ := hl'.back hret
  refine (hall c hc).2 q hq ?_
  rw [(hl'.keeps.kids q hq).1]
  exact hcl

theorem waitedForAll_one {os : List AllOp} {u : AllSys} {a : Nat} (hpid : 2 ≤ p.pid)
    (hone : p.children = [c]) (hg : getProcess t.k.sched c = some a)
    (hfirst : ∃ l, Loop b p.pid l x ∧ OneChild b c a l x)
    (hrest : Runs (execAll b) (fun o x => o.notified b x) os x u) (hret : u.pc = .returned) :
    WaitedForAll b p t u := by
  have hend : ∃ l, Loop b p.pid l u ∧ OneChild b c a l u := by
    refine Runs.inv (I := fun x => ∃ l, Loop b p.pid l x ∧ OneChild b c a l x)
      (fun o x x' hI hn he => ?_) hrest hfirst
    obtain ⟨l, hl, h1⟩ := hI
    exact h1.step hl hpid hn he
  obtain ⟨l, hl, h1⟩ := hend
  unfold OneChild at h1
  simp only [hret] at h1
  intro c' hc'
  rw [hone] at hc'
  obtain rfl := List.mem_singleton.mp hc'
  refine ⟨fun a' ha' => ?_, fun q hq => ?_⟩
  · obtain rfl := Option.some.inj (hg.symm.trans ha')
    exact h1.2
  · rw [(hl.keeps.kids q hq).1, h1.1]
    exact List.not_mem_nil

/-- **`wait_all_children` waits for all** exactly when there is at most one child. -/
theorem waitAll_iff {os : List AllOp} {u : AllSys} (hok : t.k.sched.Ok) (hwf : t.k.sems.Wf)
    (hact : t.k.sched.actor = some (b, p)) (hpid : 2 ≤ p.pid)
    (hlive : ∀ c ∈ p.children, 0 < c ∧ ∃ a q, getProcess t.k.sched c = some a ∧
      t.k.sched.heap a = some q ∧ q.state ≠ .terminated)
    (h : Runs (execAll b) (fun o x => o.notified b x) (.turn :: os) (.call t) u)
    (hret : u.pc = .returned) : WaitedForAll b p t u ↔ p.children.length ≤ 1 := by
  obtain ⟨hr, hp, -⟩ := actor_some hact
  obtain ⟨hn, x, hx, hrest⟩ := h
  have hkeeps : Keeps b p.pid p.children t.k.sched := by
    refine ⟨hok, hok.lt_next hp, fun q hq => ?_⟩
    obtain rfl := Option.some.inj (hp.symm.trans hq)
    exact ⟨rfl, rfl⟩
  have hloop : Loop b p.pid p.children (.call t) :=
    ⟨hkeeps, fun i hi => absurd hi (by simp [AllSys.call]), fun hr => absurd hr (by simp [AllSys.call])⟩
  constructor
  · intro hall
    by_contra hlen
    exact not_waitedForAll hloop hpid hx hrest hret (by omega) hall
  · intro hlen
    match hcs : p.children, hlen with
    | [], _ =>
      intro c hc
      rw [hcs] at hc
      exact absurd hc List.not_mem_nil
    | [c], _ =>
      obtain ⟨hpos, a, -, hg, -, -⟩ := hlive c (by rw [hcs]; exact List.mem_cons_self)
      rw [hcs] at hkeeps
      exact waitedForAll_one hpid hcs hg (oneChild_first (x := .call t) hkeeps rfl hwf hpos hg hn hx)
        hrest hret

/-- `init` and the shell, process `2`, are created; the shell runs and creates children -/
def shellRuns (children : List WaitOp) : List WaitOp :=
  [.create (plainArgs ['i'] 8192), .create (plainArgs ['s'] 16384), .schedule 4 7, .schedule 4 8200]
    ++ children

/-- the shell sleeps, `init` and process `3` get the CPU, process `3` exits, the ticks at `rsps` pass,
and the shell goes on -/
def exitOfThree (rsps : List Nat) : List AllOp :=
  [.turn, .other (.schedule 4 16400), .other (.schedule 4 8200), .other .terminate]
    ++ rsps.map (fun rsp => .other (.schedule 4 rsp)) ++ [.resume, .turn]

/-- the shell waits for its only child -/
theorem waitAll_iff_three : ∃ t p u, t.k.sched.actor = some (2, p) ∧ p.children = [3] ∧
    Runs (execAll 2) (fun o x => o.notified 2 x) (exitOfThree [0, 8200]) (.call t) u ∧ u.pc = .returned ∧
    WaitedForAll 2 p t u := by
  have hrun : ((runIf execWait WaitOp.fresh (shellRuns [.create (plainArgs ['a'] 24576)])
      (.boot 0 [])).bind fun t =>
        (runIf (execAll 2) (AllOp.notified 2) (exitOfThree [0, 8200]) (.call t)).map fun u =>
          (t.k.sched.actor.map fun x => (x.1, x.2.pid, x.2.children),
          (getProcess t.k.sched 3).map fun a => (t.k.sched.heap a).map Process.state, u.pc))
      = some (some (2, 2, [3]), some (some .ready), .returned) := by decide +kernel
  obtain ⟨t, ht, hrun⟩ := Option.bind_eq_some_iff.mp hrun
  obtain ⟨u, hu, hv⟩ := Option.map_eq_some_iff.mp hrun
  obtain ⟨hact, hv⟩ := Prod.mk.inj hv
  obtain ⟨hthree, hret⟩ := Prod.mk.inj hv
  obtain ⟨⟨b, p⟩, hact, hbp⟩ := Option.map_eq_some_iff.mp hact
  obtain ⟨rfl, hbp⟩ := Prod.mk.inj hbp
  obtain ⟨hpid, hkids⟩ := Prod.mk.inj hbp
  have hpid' : p.pid = 2 := hpid
  have hkids' : p.children = [3] := hkids
  have hinv := Runs.inv (I := WaitSys.Inv) winv_step (runs_of_runIf ht) (winv_boot 0 [])
  have hall := runs_of_runIf hu
  refine ⟨t, p, u, hact, hkids', hall, hret, ?_⟩
  refine (waitAll_iff hinv.ok hinv.vigil.waiters.wf hact (by omega) (fun c hc => ?_) hall hret).mpr
    (by rw [hkids']; exact Nat.le_refl 1)
  rw [hkids'] at hc
  obtain rfl := List.mem_singleton.mp hc
  obtain ⟨a, ha, hst⟩ := Option.map_eq_some_iff.mp hthree
  obtain ⟨q, hq, hst⟩ := Option.map_eq_some_iff.mp hst
  exact ⟨by omega, a, q, ha, hq, by rw [hst]; simp⟩

/-- the shell has two children; `wait_all_children` returns `0` when process `3` has exited, while
process `4` is READY and still in the array -/
theorem waitAll_skips : ∃ t p u, t.k.sched.actor = some (2, p) ∧ p.children = [3, 4] ∧
    Runs (execAll 2) (fun o x => o.notified 2 x) (exitOfThree [0, 32776, 8200]) (.call t) u ∧
    u.pc = .returned ∧ (u.sys.k.sched.heap 2).map Process.children = some [4] ∧
    (u.sys.k.sched.heap 4).map Process.state = some .ready ∧ ¬ WaitedForAll 2 p t u := by
  have hrun : ((runIf execWait WaitOp.fresh (shellRuns [.create (plainArgs ['a'] 24576),
      .create (plainArgs ['b'] 32768)]) (.boot 0 [])).bind fun t =>
        (runIf (execAll 2) (AllOp.notified 2) (exitOfThree [0, 32776, 8200]) (.call t)).map
        fun u => (t.k.sched.actor.map fun x => (x.1, x.2.children), u.pc,
          (u.sys.k.sched.heap 2).map Process.children, (u.sys.k.sched.heap 4).map Process.state))
      = some (some (2, [3, 4]), .returned, some [4], some .ready) := by decide +kernel
  obtain ⟨t, ht, hrun⟩ := Option.bind_eq_some_iff.mp hrun
  obtain ⟨u, hu, hv⟩ := Option.map_eq_some_iff.mp hrun
  obtain ⟨hact, hv⟩ := Prod.mk.inj hv
  obtain ⟨hret, hv⟩ := Prod.mk.inj hv
  obtain ⟨hleft, hready⟩ := Prod.mk.inj hv
  obtain ⟨⟨b, p⟩, hact, hbp⟩ := Option.map_eq_some_iff.mp hact
  obtain ⟨rfl, hkids⟩ := Prod.mk.inj hbp
  have hkids' : p.children = [3, 4] := hkids
  refine ⟨t, p, u, hact, hkids', runs_of_runIf hu, hret, hleft, hready, fun hall => ?_⟩
  obtain ⟨q, hq, hql⟩ := Option.map_eq_some_iff.mp hleft
  refine (hall 4 (by rw [hkids']; simp)).2 q hq ?_
  rw [hql]
  exact List.mem_singleton.mpr rfl

end

end Tp2So
