import Tp2So.Family.Leaks
import Tp2So.Family.Pids

/-!
# Who is handed over to `init`

A dying process hands its children over by its array of children; the law speaks of parents.  In any
reachable state the two agree about the dying process exactly when `childrenAgree` says so.

* `Kin`               a row of wake-ups changes neither parents nor children;
* `ppidOf_windUp`     the parents after the part that both ways to die share;
* `Reparented`        the orphans and only the orphans have got `init` as their parent;
* `reparented_iff`    for every death in every reachable state.
-/

set_option linter.unusedVariables false

namespace Tp2So

/-- what the handing over reads and writes: pid, parent, children, and whether it is TERMINATED -/
def Process.kin (p : Process) : Int × Int × List Int × Bool :=
  (p.pid, p.ppid, p.children, p.state == .terminated)

/-- the same slots, and every process with the same relatives -/
structure Sched.Kin (s t : Sched) : Prop where
  table : t.table = s.table
  kin : ∀ a, (t.heap a).map Process.kin = (s.heap a).map Process.kin

def Sched.ppidOf (s : Sched) (a : Nat) : Option Int := (s.heap a).map Process.ppid

/-- the process exists and is not TERMINATED -/
def Sched.liveAt (s : Sched) (a : Nat) : Bool := (s.heap a).any fun p => p.state != .terminated

namespace Sched
variable {s t u : Sched} {k : Kernel} {a b : Nat} {p : Process} {pid : Int}

theorem Kin.refl (s : Sched) : Kin s s := ⟨rfl, fun _ => rfl⟩

theorem Kin.trans (h : Kin s t) (h' : Kin t u) : Kin s u :=
  ⟨h'.table.trans h.table, fun a => (h'.kin a).trans (h.kin a)⟩

theorem Kin.heap (h : Kin s t) (hp : s.heap a = some p) : ∃ q, t.heap a = some q ∧ q.kin = p.kin := by
  have hk := h.kin a
  rw [hp] at hk
  exact Option.map_eq_some_iff.mp hk

theorem Kin.none (h : Kin s t) (hp : s.heap a = none) : t.heap a = none := by
  have hk := h.kin a
  rw [hp] at hk
  exact Option.map_eq_none_iff.mp hk

theorem Kin.getProcess (h : Kin s t) (pid : Int) : getProcess t pid = getProcess s pid := by
  unfold Tp2So.getProcess
  rw [h.table]

theorem Kin.ppidOf (h : Kin s t) (a : Nat) : t.ppidOf a = s.ppidOf a := by
  unfold Sched.ppidOf
  cases hp : s.heap a with
  | none => rw [h.none hp]
  | some p =>
    obtain ⟨q, hq, he⟩ := h.heap hp
    rw [hq]
    exact congrArg some (congrArg (fun x => x.2.1) he)

theorem Kin.liveAt (h : Kin s t) (a : Nat) : t.liveAt a = s.liveAt a := by
  unfold Sched.liveAt
  cases hp : s.heap a with
  | none => rw [h.none hp]
  | some p =>
    obtain ⟨q, hq, he⟩ := h.heap hp
    rw [hq]
    exact congrArg (fun x => !x) (congrArg (fun x => x.2.2.2) he)

theorem kin_modify {f : Process → Process} (hf : ∀ p, s.heap a = some p → (f p).kin = p.kin) :
    Kin s (s.modify a f) :=
  ⟨rfl, modify_read (Option.map Process.kin) fun p hp => congrArg some (hf p hp)⟩

theorem kin_ready (h : ∀ p, s.heap a = some p → p.state ≠ .terminated) :
    Kin s (s.modify a (Process.setState .ready)) := by
  refine kin_modify fun p hp => ?_
  unfold Process.kin
  rw [beq_false_of_ne (h p hp)]
  rfl

theorem kin_unblockProcess (s : Sched) (a : Nat) : Kin s (unblockProcess s a).2 := by
  rcases unblockProcess_cases s a with hun | ⟨p, hp, hi, -, hst, hun⟩
  · rw [hun]
    exact .refl s
  · have hp1 := modify_heap_self (Process.setState .ready) hp
    have h1 : Kin s (s.modify a (Process.setState .ready)) := by
      refine kin_ready fun q hq => ?_
      obtain rfl := Option.some.inj (hp.symm.trans hq)
      rw [hst]
      decide
    have h2 : Kin (s.modify a (Process.setState .ready))
        ((s.modify a (Process.setState .ready)).modify a (Process.setState .ready)) := by
      refine kin_ready fun q hq => ?_
      obtain rfl := Option.some.inj (hp1.symm.trans hq)
      rw [Process.setState_state]
      decide
    rw [hun, addToScheduler_eq (by exact hi) hp1]
    exact (h1.trans h2).trans ⟨rfl, fun _ => rfl⟩

theorem Wakes.kin (h : Wakes s t) : Kin s t := by
  induction h with
  | refl s => exact .refl s
  | wake hb _ ih => exact (kin_unblockProcess _ _).trans ih

/-! ## the loop of `reparent_children` -/

/-- the same slots, and every process in the same state -/
def Steady (s t : Sched) : Prop := t.table = s.table ∧ ∀ a, t.liveAt a = s.liveAt a

theorem steady_modify (s : Sched) (a : Nat) {f : Process → Process} (hf : ∀ p, (f p).state = p.state) :
    Steady s (s.modify a f) := by
  refine ⟨rfl, modify_read (Option.any fun p => p.state != ProcessState.terminated) fun p _ => ?_⟩
  exact congrArg (· != ProcessState.terminated) (hf p)

theorem ppidOf_modify {f : Process → Process} (hf : ∀ p, (f p).ppid = p.ppid) (b : Nat) :
    (s.modify a f).ppidOf b = s.ppidOf b :=
  modify_read (Option.map Process.ppid) (fun p _ => congrArg some (hf p)) b

/-- one turn: the live process with the pid `child` gets `init` as its parent -/
theorem reparentChild_spec (init : Nat) (s : Sched) (child : Int) :
    Steady s (reparentChild init s child) ∧ ∀ a, (reparentChild init s child).ppidOf a
      = if s.liveAt a = true ∧ getProcess s child = some a then some 1 else s.ppidOf a := by
  unfold reparentChild
  cases hg : getProcess s child with
  | none => exact ⟨⟨rfl, fun _ => rfl⟩, fun a => by rw [if_neg (by simp)]⟩
  | some c =>
    cases hp : s.heap c with
    | none =>
      simp only [hp]
      refine ⟨⟨rfl, fun _ => rfl⟩, fun a => ?_⟩
      rw [if_neg]
      rintro ⟨hl, hc⟩
      obtain rfl := Option.some.inj hc
      unfold liveAt at hl
      rw [hp] at hl
      exact absurd hl (by simp)
    | some p =>
      have hlive : s.liveAt c = (p.state != .terminated) := by
        unfold liveAt
        rw [hp]
        rfl
      simp only [hp]
      by_cases hst : p.state = .terminated
      · rw [if_pos hst]
        refine ⟨⟨rfl, fun _ => rfl⟩, fun a => ?_⟩
        rw [if_neg]
        rintro ⟨hl, hc⟩
        obtain rfl := Option.some.inj hc
        rw [hlive, hst] at hl
        exact absurd hl (by decide)
      · rw [if_neg hst]
        have h1 := steady_modify s c (f := fun p => { p with ppid := 1 }) fun _ => rfl
        have hf : ∀ q : Process, (if q.children.length < maxChildren then
            { q with children := q.children ++ [child] } else q).state = q.state := by
          intro q
          split <;> rfl
        have hf' : ∀ q : Process, (if q.children.length < maxChildren then
            { q with children := q.children ++ [child] } else q).ppid = q.ppid := by
          intro q
          split <;> rfl
        have h2 := steady_modify (s.modify c fun p => { p with ppid := 1 }) init hf
        refine ⟨⟨h2.1.trans h1.1, fun a => (h2.2 a).trans (h1.2 a)⟩, fun a => ?_⟩
        rw [ppidOf_modify hf']
        by_cases e : a = c
        · subst e
          rw [if_pos ⟨by rw [hlive]; exact bne_iff_ne.mpr hst, rfl⟩]
          unfold ppidOf
          rw [modify_heap, heapMod_self, hp]
          rfl
        · rw [if_neg fun hc => e (Option.some.inj hc.2).symm]
          unfold ppidOf
          rw [modify_heap, heapMod_of_ne _ _ e]

theorem foldl_reparentChild (init : Nat) (l : List Int) : ∀ s : Sched,
    Steady s (l.foldl (reparentChild init) s) ∧ ∀ a, (l.foldl (reparentChild init) s).ppidOf a
      = if s.liveAt a = true ∧ ∃ c ∈ l, getProcess s c = some a then some 1 else s.ppidOf a := by
  induction l with
  | nil => exact fun s => ⟨⟨rfl, fun _ => rfl⟩, fun a => by rw [if_neg (by simp)]; rfl⟩
  | cons child l ih =>
    intro s
    obtain ⟨⟨ht1, hl1⟩, hp1⟩ := reparentChild_spec init s child
    obtain ⟨⟨ht2, hl2⟩, hp2⟩ := ih (reparentChild init s child)
    rw [List.foldl_cons]
    have hget : ∀ c, getProcess (reparentChild init s child) c = getProcess s c := by
      intro c
      unfold getProcess
      rw [ht1]
    refine ⟨⟨ht2.trans ht1, fun a => (hl2 a).trans (hl1 a)⟩, fun a => ?_⟩
    rw [hp2 a, hl1 a, hp1 a]
    simp only [hget]
    by_cases hl : s.liveAt a = true
    · simp only [hl, true_and, List.mem_cons, exists_eq_or_imp]
      by_cases hc : getProcess s child = some a
      · simp only [hc, if_true, true_or]
        split <;> rfl
      · simp only [hc, if_false, false_or]
    · simp only [hl, Bool.false_eq_true, false_and, if_false]

/-- the dying process `d` lists `a` among its children, and there is an `init` to take it -/
def Listed (s : Sched) (d : Int) (a : Nat) : Prop :=
  (getProcess s initPid).isSome ∧ ∃ b q, getProcess s d = some b ∧ s.heap b = some q ∧
    ∃ c ∈ q.children, getProcess s c = some a

theorem ppidOf_reparentChildren (s : Sched) (d : Int) [Decidable (s.liveAt a = true ∧ s.Listed d a)] :
    (reparentChildren s d).ppidOf a
      = if s.liveAt a = true ∧ s.Listed d a then some 1 else s.ppidOf a := by
  unfold reparentChildren
  cases hd : getProcess s d with
  | none =>
    rw [if_neg]
    rintro ⟨-, -, b, q, hb, -⟩
    exact absurd (hd.symm.trans hb) (by simp)
  | some b =>
    cases hi : getProcess s initPid with
    | none =>
      rw [if_neg]
      rintro ⟨-, hi', -⟩
      rw [hi] at hi'
      exact absurd hi' (by simp)
    | some init =>
      cases hq : s.heap b with
      | none =>
        simp only [hq]
        rw [if_neg]
        rintro ⟨-, -, b', q, hb, hq', -⟩
        obtain rfl := Option.some.inj (hd.symm.trans hb)
        exact absurd (hq.symm.trans hq') (by simp)
      | some q =>
        simp only [hq]
        rw [ppidOf_modify (f := fun p => { p with children := [] }) (fun _ => rfl),
          (foldl_reparentChild init q.children s).2 a]
        have hiff : (∃ c ∈ q.children, getProcess s c = some a) ↔ s.Listed d a := by
          constructor
          · exact fun hc => ⟨by rw [hi]; rfl, b, q, hd, hq, hc⟩
          · rintro ⟨-, b', q', hb, hq', hc⟩
            obtain rfl := Option.some.inj (hd.symm.trans hb)
            obtain rfl := Option.some.inj (hq.symm.trans hq')
            exact hc
        simp only [hiff]

theorem Kin.listed (h : Kin s t) (d : Int) (a : Nat) : t.Listed d a ↔ s.Listed d a := by
  unfold Listed
  simp only [h.getProcess]
  constructor
  · rintro ⟨hi, b, q, hb, hq, c, hc, ha⟩
    refine ⟨hi, b, ?_⟩
    cases hp : s.heap b with
    | none => exact absurd ((h.none hp).symm.trans hq) (by simp)
    | some p =>
      obtain ⟨q', hq', he⟩ := h.heap hp
      obtain rfl := Option.some.inj (hq.symm.trans hq')
      have hch : q.children = p.children := congrArg (fun x => x.2.2.1) he
      exact ⟨p, hb, rfl, c, hch ▸ hc, ha⟩
  · rintro ⟨hi, b, p, hb, hp, c, hc, ha⟩
    obtain ⟨q, hq, he⟩ := h.heap hp
    have hch : q.children = p.children := congrArg (fun x => x.2.2.1) he
    exact ⟨hi, b, q, hb, hq, c, hch.symm ▸ hc, ha⟩

open Classical in
/-- **The parents after `windUp`**: the live processes that the dying one lists have got `init`. -/
theorem ppidOf_windUp (k : Kernel) (p : Process) (d : Int) (a : Nat) :
    (windUp k p d).sched.ppidOf a
      = if k.sched.liveAt a = true ∧ k.sched.Listed d a then some 1 else k.sched.ppidOf a := by
  have hk := (wakes_leavePipes k p d).kin
  unfold windUp
  rw [(wakes_announceExit _ d).kin.ppidOf]
  show (reparentChildren (leavePipes k p d).sched d).ppidOf a = _
  rw [ppidOf_reparentChildren, hk.ppidOf]
  simp only [hk.liveAt, hk.listed]

end Sched

/-! ## the law -/

/-- the orphans of `d` have got `init` as their parent, and nobody else has a new one -/
def Reparented (s s' : Sched) (d : Int) : Prop :=
  ∀ a p p', s.heap a = some p → s'.heap a = some p' →
    p'.ppid = if p.state ≠ .terminated ∧ p.ppid = d then 1 else p.ppid

/-- who dies in this step -/
def WaitOp.victim : WaitOp → WaitSys → Option Int
  | .kill pid, t => if pid = 0 ∨ pid = 1 then none else (getProcess t.k.sched pid).map fun _ => pid
  | .terminate, t => t.k.sched.actor.map fun x => x.2.pid
  | _, _ => none

/-- the array of children of `d` lists this pid, and there is an `init` -/
def listsChild (s : Sched) (d q : Int) : Bool :=
  (getProcess s initPid).isSome &&
    (getProcess s d).any fun b => (s.heap b).any fun p => p.children.contains q

/-- `kill_process` frees its victim at once -/
def WaitOp.frees : WaitOp → Bool
  | .kill _ => true
  | _ => false

/-- the live processes that `d` lists are its children or children of `init`, and the children of `d`
are listed.  A victim that is freed at once has no say -/
def WaitOp.childrenAgree (o : WaitOp) (t : WaitSys) (d : Int) : Bool :=
  allPids.all fun q => (getProcess t.k.sched q).all fun a => (t.k.sched.heap a).all fun p =>
    p.state == .terminated || (o.frees && q == d) ||
      if listsChild t.k.sched d q then p.ppid == d || p.ppid == 1 else p.ppid != d || d == 1

section
variable {t t' : WaitSys} {s : Sched} {k : Kernel} {a b : Nat} {p : Process} {d : Int} {o : WaitOp}

theorem listed_iff (h : s.Ok) (ht : s.table p.pid = some a) (hp : s.heap a = some p) :
    s.Listed d a ↔ listsChild s d p.pid = true := by
  obtain ⟨h0, h1, -⟩ := h.tab _ _ ht
  unfold Sched.Listed listsChild
  rw [Bool.and_eq_true]
  refine and_congr_right fun _ => ?_
  constructor
  · rintro ⟨b, q, hb, hq, c, hc, ha⟩
    obtain rfl : c = p.pid := h.table_inj (getProcess_eq_some ha).2.2 ht
    rw [hb, Option.any_some, hq, Option.any_some]
    exact List.contains_iff_mem.mpr hc
  · intro hl
    obtain ⟨b, hb, hl⟩ := (Option.any_eq_true ..).mp hl
    obtain ⟨q, hq, hl⟩ := (Option.any_eq_true ..).mp hl
    exact ⟨b, q, hb, hq, p.pid, List.contains_iff_mem.mp hl, (if_neg (by omega)).trans ht⟩

/-- a victim that is freed is gone; the other processes have the parents that `windUp` has given -/
def AfterDeath (k : Kernel) (s' : Sched) (d : Int) (freed : Bool) : Prop :=
  ∃ v p, k.sched.table d = some v ∧ k.sched.heap v = some p ∧ (freed = true → s'.heap v = none) ∧
    ∀ a, (freed = true → a ≠ v) → s'.ppidOf a = (windUp k p d).sched.ppidOf a

theorem death_kill (h : k.sched.Ok) (hd : ¬ (d = 0 ∨ d = 1)) (hg : getProcess k.sched d = some a) :
    (killProcess k d).1 = 0 ∧ AfterDeath k (killProcess k d).2.sched d true := by
  obtain ⟨h0, h1, ht⟩ := getProcess_eq_some hg
  obtain ⟨-, -, p, hp, -⟩ := h.tab d a ht
  obtain ⟨rfl, -, hi⟩ := h.victim hd hg hp
  obtain ⟨q, hq, hqp, hqt, hqi⟩ := Sched.windUp_keeps hp ht hi
  have hkill := Sched.killed_eq hq hqi (by omega) (by omega)
  rw [hqp, Sched.removeFromAll_eq hq] at hkill
  rw [Sched.killProcess_eq hd hg hp, hkill, Sched.forgetShell_eq]
  refine ⟨rfl, a, p, ht, hp, fun _ => Function.update_self .., fun b hb => ?_⟩
  exact congrArg (Option.map Process.ppid) (Function.update_of_ne (hb rfl) ..)

theorem death_terminate (h : k.sched.Ok) (hr : k.sched.running = some a)
    (hp : k.sched.heap a = some p) (hi : k.sched.running ≠ k.sched.idle) {k' : Kernel}
    (hk : processTerminator k = some k') : AfterDeath k k'.sched p.pid false := by
  obtain ⟨p', hp', ht, -⟩ := h.running a hr
  obtain rfl := Option.some.inj (hp.symm.trans hp')
  obtain ⟨q, hq, -, -, hqi⟩ := Sched.windUp_keeps hp ht (by rw [← hr]; exact fun e => hi e.symm)
  rw [Sched.processTerminator_eq hr hp] at hk
  obtain rfl := Option.some.inj hk
  refine ⟨a, p, ht, hp, fun e => absurd e (by simp), fun b _ => ?_⟩
  show (terminatorLeave (windUp k p p.pid).sched a).ppidOf b = _
  unfold terminatorLeave
  simp only [Sched.removeProcessFromScheduler_eq
    (s := (windUp k p p.pid).sched.modify a (Process.setState .terminated)) hqi]
  rw [Sched.setRunning_running, if_neg Sched.runningBut_ne, Sched.forgetShell_eq,
    Sched.removeFromAll_eq (Sched.modify_heap_self _ hq)]
  exact Sched.ppidOf_modify (f := Process.setState .terminated) (fun _ => rfl) b

theorem afterDeath (h : t.k.sched.Ok) (hv : o.victim t = some d) (he : execWait o t = some t') :
    AfterDeath t.k t'.k.sched d o.frees := by
  cases o with
  | kill pid =>
    unfold WaitOp.victim at hv
    simp only at hv
    split at hv
    · exact absurd hv (by simp)
    · rename_i hne
      obtain ⟨a, hg, rfl⟩ := Option.map_eq_some_iff.mp hv
      obtain ⟨hz, hdeath⟩ := death_kill h hne hg
      simp only [execWait] at he
      cases hk : killProcess t.k pid with
      | mk r k =>
        rw [hk] at he hz hdeath
        obtain rfl : r = 0 := hz
        rw [hg] at he
        obtain rfl := Option.some.inj he
        exact hdeath
  | terminate =>
    obtain ⟨⟨b, p⟩, ha, rfl⟩ := Option.map_eq_some_iff.mp hv
    obtain ⟨hr, hp, -⟩ := actor_some ha
    simp only [execWait, ha] at he
    split at he
    · exact absurd he (by simp)
    · rename_i hc
      obtain ⟨k, hk, rfl⟩ := Option.map_eq_some_iff.mp he
      exact death_terminate h hr hp (fun e => hc (Or.inl e)) hk
  | _ => exact absurd hv (by simp [WaitOp.victim])

theorem liveAt_iff (hp : s.heap a = some p) : s.liveAt a = true ↔ p.state ≠ .terminated := by
  unfold Sched.liveAt
  rw [hp]
  exact bne_iff_ne

/-- the new parent of a live process is right exactly if the array of children and its parent agree on it -/
theorem parent_agrees {l : Bool} {pp : Int} :
    (if l = true then 1 else pp) = (if pp = d then 1 else pp) ↔
      (if l = true then pp == d || pp == 1 else pp != d || d == 1) = true := by
  cases l with
  | true =>
    rw [if_pos rfl, if_pos rfl, Bool.or_eq_true, beq_iff_eq, beq_iff_eq]
    by_cases hd : pp = d
    · rw [if_pos hd]
      exact iff_of_true rfl (Or.inl hd)
    · rw [if_neg hd]
      exact ⟨fun h => Or.inr h.symm, fun h => (h.resolve_left hd).symm⟩
  | false =>
    rw [if_neg Bool.false_ne_true, if_neg Bool.false_ne_true, Bool.or_eq_true, bne_iff_ne, beq_iff_eq]
    by_cases hd : pp = d
    · rw [if_pos hd, hd]
      exact ⟨Or.inr, fun h => h.resolve_left fun hne => hne rfl⟩
    · rw [if_neg hd]
      exact iff_of_true rfl (Or.inl hd)

open Classical in
/-- **One death**, in a state whose live processes are all in their slots. -/
theorem reparented_iff_agree (h : t.k.sched.Ok) (hl : t.k.sched.census.Listed)
    (hv : o.victim t = some d) (he : execWait o t = some t') :
    Reparented t.k.sched t'.k.sched d ↔ o.childrenAgree t d = true := by
  obtain ⟨v, pv, htv, -, hgone, hppid⟩ := afterDeath h hv he
  -- the parent of a process that is still there
  have hafter : ∀ a p p', t.k.sched.heap a = some p → t'.k.sched.heap a = some p' →
      p'.ppid = if p.state ≠ .terminated ∧ t.k.sched.Listed d a then 1 else p.ppid := by
    intro a p p' hp hp'
    have hne : o.frees = true → a ≠ v := by
      rintro hf rfl
      exact absurd ((hgone hf).symm.trans hp') (by simp)
    have hpp := hppid a hne
    rw [Sched.ppidOf_windUp] at hpp
    unfold Sched.ppidOf at hpp
    rw [hp', hp] at hpp
    simp only [liveAt_iff hp, Option.map_some] at hpp
    split
    · rename_i hc
      rw [if_pos hc] at hpp
      exact Option.some.inj hpp
    · rename_i hc
      rw [if_neg hc] at hpp
      exact Option.some.inj hpp
  unfold WaitOp.childrenAgree
  simp only [List.all_eq_true, Option.all_eq_true, Bool.or_eq_true, Bool.and_eq_true, beq_iff_eq]
  constructor
  · intro hrep q hq a hg p hp
    obtain ⟨-, -, ht⟩ := getProcess_eq_some hg
    obtain rfl : p.pid = q := h.tab_pid ht hp
    by_cases hst : p.state = .terminated
    · exact Or.inl (Or.inl hst)
    · by_cases hf : o.frees = true ∧ p.pid = d
      · exact Or.inl (Or.inr hf)
      · refine Or.inr ?_
        have hne : o.frees = true → a ≠ v := by
          rintro hfr rfl
          exact hf ⟨hfr, h.table_inj ht htv⟩
        have hsome : ∃ p', t'.k.sched.heap a = some p' := by
          have hpp := hppid a hne
          rw [Sched.ppidOf_windUp] at hpp
          cases hp' : t'.k.sched.heap a with
          | none =>
            unfold Sched.ppidOf at hpp
            rw [hp', hp] at hpp
            split at hpp <;> exact absurd hpp (by simp)
          | some p' => exact ⟨p', rfl⟩
        obtain ⟨p', hp'⟩ := hsome
        have h1 := hafter a p p' hp hp'
        have h2 := hrep a p p' hp hp'
        rw [h1] at h2
        simp only [hst, ne_eq, not_false_iff, true_and, listed_iff h ht hp] at h2
        exact parent_agrees.mp h2
  · intro hagree a p p' hp hp'
    rw [hafter a p p' hp hp']
    by_cases hst : p.state = .terminated
    · simp only [hst, ne_eq, not_true, false_and, if_false]
    · have hc : t.k.sched.census.cell a = some (p.pid, false) := by
        rw [Sched.cell_eq hp, beq_false_of_ne hst]
      have ht : t.k.sched.table p.pid = some a := hl a p.pid hc
      obtain ⟨h0, h1, -⟩ := h.tab _ _ ht
      have hg : getProcess t.k.sched p.pid = some a := (if_neg (by omega)).trans ht
      have hor := hagree p.pid (Sched.mem_allPids.mpr ⟨h0, h1⟩) a hg p hp
      have hcond := (hor.resolve_left (by
        rintro (hdead | ⟨hf, hpd⟩)
        · exact hst hdead
        · rw [hpd, htv] at ht
          obtain rfl := Option.some.inj ht
          exact absurd ((hgone hf).symm.trans hp') (by simp)))
      simp only [hst, ne_eq, not_false_iff, true_and, listed_iff h ht hp]
      exact parent_agrees.mpr hcond

/-! ## runs -/

theorem listed_step (o : WaitOp) (t t' : WaitSys)
    (h : t.k.sched.Ok ∧ t.k.sched.census.Listed) (_ : True) (he : execWait o t = some t') :
    t'.k.sched.Ok ∧ t'.k.sched.census.Listed := by
  obtain ⟨hok, hstep⟩ := execWait_census h.1 he
  refine ⟨hok, ?_⟩
  cases hstep with
  | same _ hc => exact hc ▸ h.2
  | born _ hp hc =>
    obtain ⟨-, -, hf⟩ := Sched.assignPid_spec hp
    exact hc ▸ (h.2.born (h.1.free_iff.mp hf)).collect
  | drop _ ht hc => exact hc ▸ h.2.drop ht
  | dies _ hc => exact hc ▸ h.2.dies _
  | collect _ hc => exact hc ▸ h.2.collect

/-- **Orphans and only orphans.**  In every reachable state, a death hands over exactly the live
children of the dying process if and only if its array of children agrees with the parents. -/
theorem reparented_iff {stackBase : Nat} {recycled : List Int} {os : List WaitOp} {t t' : WaitSys}
    {o : WaitOp} {d : Int} (h : run execWait os (WaitSys.boot stackBase recycled) = some t)
    (hv : o.victim t = some d) (he : execWait o t = some t') :
    Reparented t.k.sched t'.k.sched d ↔ o.childrenAgree t d = true := by
  have hinv : t.k.sched.Ok ∧ t.k.sched.census.Listed :=
    Runs.inv (I := fun t : WaitSys => t.k.sched.Ok ∧ t.k.sched.census.Listed) listed_step
      (runs_true_iff.mpr h) ⟨(inv_boot stackBase recycled).ok, listed_boot stackBase recycled⟩
  exact reparented_iff_agree hinv.1 hinv.2 hv he

/-- process `2` runs and has created the process `4` -/
def oneParent : List WaitOp :=
  [.create (plainArgs ['i'] 8192), .create (plainArgs ['a'] 16384), .create (plainArgs ['b'] 24576),
    .schedule 4 7, .schedule 4 8200, .create (plainArgs ['c'] 32768)]

theorem reparented_iff_oneParent : ∃ t t',
    run execWait oneParent (WaitSys.boot 0 []) = some t ∧
    (WaitOp.kill 2).victim t = some 2 ∧ execWait (.kill 2) t = some t' ∧
    (Reparented t.k.sched t'.k.sched 2 ↔ (WaitOp.kill 2).childrenAgree t 2 = true) ∧
    (WaitOp.kill 2).childrenAgree t 2 = true := by
  have hrun : (run execWait oneParent (WaitSys.boot 0 [])).map (fun t =>
      ((WaitOp.kill 2).victim t, (execWait (.kill 2) t).isSome, (WaitOp.kill 2).childrenAgree t 2))
      = some (some 2, true, true) := by decide +kernel
  obtain ⟨t, ht, hv⟩ := Option.map_eq_some_iff.mp hrun
  simp only [Prod.mk.injEq] at hv
  obtain ⟨hvic, hsome, hagree⟩ := hv
  obtain ⟨t', ht'⟩ := Option.isSome_iff_exists.mp hsome
  exact ⟨t, t', ht, hvic, ht', reparented_iff ht hvic ht', hagree⟩

/-- the child `4` of `2` is killed and nobody waits for it; `3` creates a process that gets its pid.
The death of `2` takes that process away from `3` -/
theorem reparented_stolen : ∃ t t',
    run execWait (oneParent ++ [.kill 4, .schedule 4 16400, .create (plainArgs ['d'] 32768)])
      (WaitSys.boot 0 []) = some t ∧
    (WaitOp.kill 2).victim t = some 2 ∧ execWait (.kill 2) t = some t' ∧
    ¬ Reparented t.k.sched t'.k.sched 2 := by
  have hrun : (run execWait (oneParent ++ [.kill 4, .schedule 4 16400,
      .create (plainArgs ['d'] 32768)]) (WaitSys.boot 0 [])).map (fun t =>
        ((WaitOp.kill 2).victim t, (t.k.sched.heap 5).map fun p => (p.ppid, p.state),
          (execWait (.kill 2) t).map fun t' => (t'.k.sched.heap 5).map Process.ppid))
      = some (some 2, some (3, .ready), some (some 1)) := by decide +kernel
  obtain ⟨t, ht, hv⟩ := Option.map_eq_some_iff.mp hrun
  simp only [Prod.mk.injEq] at hv
  obtain ⟨hvic, hbefore, hafter⟩ := hv
  obtain ⟨t', ht', hafter⟩ := Option.map_eq_some_iff.mp hafter
  obtain ⟨p, hp, hpe⟩ := Option.map_eq_some_iff.mp hbefore
  obtain ⟨p', hp', hpe'⟩ := Option.map_eq_some_iff.mp hafter
  obtain ⟨hppid, hst⟩ := Prod.mk.inj hpe
  refine ⟨t, t', ht, hvic, ht', fun hrep => ?_⟩
  have h5 := hrep 5 p p' hp hp'
  rw [hppid, hpe', if_neg (by omega)] at h5
  exact absurd h5 (by decide)

end

end Tp2So
