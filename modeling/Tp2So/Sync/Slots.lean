import Tp2So.Ready.Runs
import Tp2So.Sync.Registry

/-!
# The process table as semaphores see it

`s.slot pid` is what a post, a wait or a creation can tell of the process with that pid: which
process it is, and whether it is BLOCKED or TERMINATED.  READY or RUNNING, queues, priorities and
counters are forgotten.

* `slot_schedule`          the tick changes nothing;
* `slot_wakePid`           a post changes at most the slot of the pid it takes out;
* `slot_blockProcess`, `slot_reap`, `slot_createProcess`, `slot_windUp`, `slot_killProcess`,
  `slot_terminatorLeave`   the other operations, as equations.
-/

set_option linter.unusedVariables false

namespace Tp2So

structure Slot where
  proc : Nat
  blocked : Bool
  dead : Bool
  deriving DecidableEq, Repr

/-- BLOCKED or not, TERMINATED or not -/
def Process.mood (p : Process) : Bool × Bool := (p.state == .blocked, p.state == .terminated)

/-- the targets that may be pipes -/
def Process.ends (p : Process) : Nat × Nat := (p.readTarget, p.writeTarget)

namespace Sched
variable {s t u : Sched} {k : Kernel} {a : Nat} {p : Process} {pid : Int}

def slot (s : Sched) (pid : Int) : Option Slot :=
  (s.table pid).bind fun a => (s.heap a).map fun p => ⟨a, p.mood.1, p.mood.2⟩

theorem slot_eq (ht : s.table pid = some a) (hp : s.heap a = some p) :
    s.slot pid = some ⟨a, p.state == .blocked, p.state == .terminated⟩ := by
  unfold slot
  rw [ht, Option.bind_some, hp]
  rfl

theorem slot_none (ht : s.table pid = none) : s.slot pid = none := by
  unfold slot
  rw [ht]
  rfl

theorem of_slot {x : Slot} (h : s.slot pid = some x) : s.table pid = some x.proc ∧
    ∃ p, s.heap x.proc = some p ∧ x = ⟨x.proc, p.state == .blocked, p.state == .terminated⟩ := by
  obtain ⟨a, ha, hx⟩ := Option.bind_eq_some_iff.mp h
  obtain ⟨p, hp, rfl⟩ := Option.map_eq_some_iff.mp hx
  exact ⟨ha, p, hp, rfl⟩

/-! ## steps that no slot shows -/

/-- the same table, and every process with its pid and its targets and in the same mood -/
structure Calm (s t : Sched) : Prop where
  table : t.table = s.table
  idle : t.idle = s.idle
  next : t.next = s.next
  pids : ∀ a, (t.heap a).map Process.pid = (s.heap a).map Process.pid
  ends : ∀ a, (t.heap a).map Process.ends = (s.heap a).map Process.ends
  mood : ∀ a, (t.heap a).map Process.mood = (s.heap a).map Process.mood

theorem Calm.refl (s : Sched) : Calm s s :=
  ⟨rfl, rfl, rfl, fun _ => rfl, fun _ => rfl, fun _ => rfl⟩

theorem Calm.trans (h : Calm s t) (h' : Calm t u) : Calm s u :=
  ⟨h'.table.trans h.table, h'.idle.trans h.idle, h'.next.trans h.next,
    fun a => (h'.pids a).trans (h.pids a), fun a => (h'.ends a).trans (h.ends a),
    fun a => (h'.mood a).trans (h.mood a)⟩

theorem Calm.slot (h : Calm s t) : t.slot = s.slot := by
  have hs : ∀ u : Sched, u.slot = fun pid => (u.table pid).bind fun a =>
      ((u.heap a).map Process.mood).map fun m => ⟨a, m.1, m.2⟩ := by
    intro u
    funext pid
    unfold Sched.slot
    congr 1
    funext a
    rw [Option.map_map]
    rfl
  rw [hs, hs, h.table]
  funext pid
  congr 1
  funext a
  rw [h.mood]

theorem calm_modify {f : Process → Process} (hpid : ∀ p, (f p).pid = p.pid)
    (hends : ∀ p, (f p).ends = p.ends)
    (hf : ∀ p, s.heap a = some p → (f p).mood = p.mood) : Calm s (s.modify a f) :=
  ⟨rfl, rfl, rfl, (same_modify s a hpid).pids,
    modify_read (Option.map Process.ends) fun p _ => congrArg some (hends p),
    modify_read (Option.map Process.mood) fun p hp => congrArg some (hf p hp)⟩

theorem calm_quiet {f : Process → Process} (hf : Process.Quiet f)
    (hends : ∀ p, (f p).ends = p.ends := by exact fun _ => rfl) : Calm s (s.modify a f) := by
  refine calm_modify (fun p => (hf p).1) hends fun p _ => ?_
  unfold Process.mood
  rw [(hf p).2.1]

theorem calm_still {f : Process → Process} (hf : Process.Still f) : Calm s (s.modify a f) := by
  refine calm_quiet hf.1 fun p => ?_
  unfold Process.ends
  rw [(hf.2 p).2.1, (hf.2 p).2.2]

theorem calm_setQueue (s : Sched) (pr : Priority) (q : Queue Nat) : Calm s (s.setQueue pr q) :=
  ⟨rfl, rfl, rfl, fun _ => rfl, fun _ => rfl, fun _ => rfl⟩

theorem calm_setRunning (s : Sched) (x : Option Nat) : Calm s (s.setRunning x) :=
  ⟨rfl, rfl, rfl, fun _ => rfl, fun _ => rfl, fun _ => rfl⟩

theorem calm_setPriority (pr : Priority) : Calm s (s.modify a (Process.setPriority pr)) :=
  calm_modify (fun _ => rfl) (fun _ => rfl) fun _ _ => rfl

theorem calm_boost (s : Sched) (pr : Priority) (a : Nat) : Calm s (boost s pr a) :=
  (calm_setPriority maxPriority).trans ((calm_setQueue _ _ _).trans
    ((calm_setQueue _ _ _).trans (calm_quiet (quiet_setWaitTicks 0))))

theorem calm_ageProcess (s : Sched) (pr : Priority) (a : Nat) (p : Process) :
    Calm s (ageProcess s pr a p) := by
  have hq := calm_quiet (s := s) (a := a) (quiet_setWaitTicks (p.waitTicks + 1))
  unfold ageProcess
  simp only
  split
  · exact hq.trans (calm_boost _ _ _)
  · exact hq

theorem calm_applyAging {fuel : Nat} (h : applyAging fuel s = some t) : Calm s t := by
  have hrule : AgingRule (Calm s) :=
    ⟨fun hs _ => hs.trans (calm_setQueue _ _ _), fun hs _ _ _ => hs.trans (calm_ageProcess _ _ _ _)⟩
  exact hrule.pass (.refl s) h

/-- a process that is neither BLOCKED nor TERMINATED -/
def Awake (s : Sched) (a : Nat) : Prop := ∀ p, s.heap a = some p → p.mood = (false, false)

theorem Awake.calm (h : s.Awake a) (hc : Calm s t) : t.Awake a := by
  intro q hq
  have hm := hc.mood a
  rw [hq] at hm
  obtain ⟨p, hp, hpq⟩ := Option.map_eq_some_iff.mp hm.symm
  exact hpq.symm.trans (h p hp)

theorem calm_setState (st : ProcessState) (h : s.Awake a)
    (hst : st ≠ .blocked ∧ st ≠ .terminated) : Calm s (s.modify a (Process.setState st)) := by
  refine calm_modify (fun _ => rfl) (fun _ => rfl) fun p hp => ?_
  rw [h p hp]
  unfold Process.mood
  rw [Process.setState_state, beq_false_of_ne hst.1, beq_false_of_ne hst.2]

theorem calm_addToScheduler (h : s.Awake a) : Calm s (addToScheduler s a) := by
  unfold addToScheduler
  split
  · exact .refl s
  · have hm := calm_setState .ready h (by decide)
    simp only
    split
    · exact hm
    · exact hm.trans (calm_setQueue _ _ _)

theorem awake_of_state (hp : s.heap a = some p) (hst : p.state = .ready ∨ p.state = .running) :
    s.Awake a := by
  intro q hq
  obtain rfl := Option.some.inj (hp.symm.trans hq)
  unfold Process.mood
  rcases hst with hst | hst <;> rw [hst] <;> rfl

theorem calm_preempt {rsp : Nat} {r : Sched ⊕ Sched} (h : preempt rsp s = some r) :
    r.elim (Calm s) (Calm s) := by
  unfold preempt at h
  cases hr : s.running with
  | none =>
    simp only [hr] at h
    exact Option.some.inj h ▸ .refl s
  | some a =>
    cases hp : s.heap a with
    | none => simp only [hr, hp] at h; exact absurd h (by simp)
    | some p =>
      simp only [hr, hp] at h
      have h1 := calm_quiet (s := s) (a := a) (quiet_setRsp rsp)
      cases hst : p.state with
      | terminated =>
        simp only [hst] at h
        exact Option.some.inj h ▸ h1.trans (calm_setRunning _ none)
      | blocked =>
        simp only [hst] at h
        exact Option.some.inj h ▸ h1.trans (calm_setRunning _ none)
      | ready =>
        simp only [hst] at h
        exact Option.some.inj h ▸ h1
      | running =>
        simp only [hst] at h
        have h2 := h1.trans (calm_quiet (a := a) (quiet_setQuantum (p.quantumRemaining - 1)))
        split at h
        · exact Option.some.inj h ▸ h2
        · have h3 := h2.trans (calm_quiet (a := a) (quiet_setQuantum defaultQuantum))
          have ha := awake_of_state hp (Or.inr hst)
          have h4 := h3.trans (calm_setState .ready (ha.calm h3) (by decide))
          exact Option.some.inj h ▸ h4.trans (calm_addToScheduler (ha.calm h4))

theorem calm_selectNext (prs : List Priority) {next : Option Nat}
    (h : selectNext prs s = some (next, t)) : Calm s t :=
  selectNext_keeps (P := Calm s) (fun q hs => hs.trans (calm_setQueue _ _ q)) prs (.refl s) h

theorem calm_runIdle {r : Nat × Sched} (hi : ∀ i, s.idle = some i → s.Awake i)
    (h : runIdle s = some r) : Calm s r.2 := by
  unfold runIdle at h
  cases hid : s.idle with
  | none => simp only [hid] at h; exact absurd h (by simp)
  | some i =>
    cases hp : s.heap i with
    | none => simp only [hid, hp] at h; exact absurd h (by simp)
    | some p =>
      simp only [hid, hp] at h
      exact Option.some.inj h ▸ (calm_setState .running (hi i hid) (by decide)).trans (calm_setRunning _ _)

theorem calm_dispatch {r : Nat × Sched} {next : Option Nat}
    (hi : ∀ i, s.idle = some i → s.Awake i) (h : dispatch next s = some r) : Calm s r.2 := by
  unfold dispatch at h
  cases next with
  | none => exact calm_runIdle hi h
  | some a =>
    cases hp : s.heap a with
    | none => simp only [hp] at h; exact absurd h (by simp)
    | some p =>
      simp only [hp] at h
      split at h
      · exact calm_runIdle hi h
      · rename_i hst
        have ha := awake_of_state hp (Or.inl (not_not.mp hst))
        have h1 := (calm_setState .running ha (by decide)).trans
          (calm_quiet (a := a) (quiet_setQuantum defaultQuantum))
        have h2 := h1.trans (calm_setRunning _ (some a))
        generalize hX : ((s.modify a (Process.setState .running)).modify a
          (Process.setQuantum defaultQuantum)).setRunning (some a) = X at h h2
        have h3 : Calm s (resetAging X a) := by
          unfold resetAging
          split
          · exact h2
          · exact h2.trans (calm_quiet (quiet_setWaitTicks 0))
        split at h
        · exact h3.trans (calm_runIdle
            (fun i hii => (hi i (h3.idle ▸ hii)).calm h3) h)
        · exact Option.some.inj h ▸ h3

theorem Ok.idle_awake (h : s.Ok) : ∀ i, s.idle = some i → s.Awake i := by
  intro i hi
  obtain ⟨j, p, hj, -, hp, hst⟩ := h.idle
  obtain rfl := Option.some.inj (hi.symm.trans hj)
  exact awake_of_state hp hst

theorem calm_schedule {fuel rsp : Nat} {r : Nat × Sched} (h : s.Ok)
    (hs : schedule fuel rsp s = some r) : Calm s r.2 := by
  obtain ⟨s₁, ha, hparts⟩ := schedule_parts hs
  have h₁ := calm_applyAging ha
  rcases hparts with ⟨s₂, hp, rfl⟩ | ⟨s₂, next, s₃, hp, hsel, hd⟩
  · exact h₁.trans (calm_preempt hp)
  · have h₂ : Calm s₁ s₂ := calm_preempt hp
    have h₃ := (h₁.trans h₂).trans (calm_selectNext _ hsel)
    exact h₃.trans (calm_dispatch (fun i hi => (h.idle_awake i (h₃.idle ▸ hi)).calm h₃) hd)

/-- **The tick leaves every slot as it is.** -/
theorem slot_schedule {fuel rsp : Nat} {r : Nat × Sched} (h : s.Ok)
    (hs : schedule fuel rsp s = some r) : r.2.slot = s.slot := (calm_schedule h hs).slot

/-! ## steps that one slot shows -/

theorem Ok.table_inj (h : s.Ok) {q : Int} (hq : s.table q = some a) (ht : s.table pid = some a) :
    q = pid := by
  obtain ⟨-, -, p, hp, hpq⟩ := h.tab q a hq
  rw [← hpq, h.tab_pid ht hp]

theorem slot_setState (h : s.Ok) (ht : s.table pid = some a) (st : ProcessState) :
    (s.modify a (Process.setState st)).slot
      = Function.update s.slot pid (some ⟨a, st == .blocked, st == .terminated⟩) := by
  obtain ⟨-, -, p, hp, -⟩ := h.tab pid a ht
  funext q
  by_cases e : q = pid
  · subst e
    rw [Function.update_self]
    exact slot_eq (s := s.modify a (Process.setState st)) ht (modify_heap_self _ hp)
  · rw [Function.update_of_ne e]
    unfold slot
    rw [modify_table]
    cases hq : s.table q with
    | none => rfl
    | some b =>
      have hb : b ≠ a := fun eb => e (h.table_inj (eb ▸ hq) ht)
      rw [Option.bind_some, Option.bind_some, modify_heap, heapMod_of_ne _ _ hb]

/-- the slot of a process that has been woken -/
def wakeSlot (x : Slot) : Slot := { x with blocked := false }

/-- **A post** reaches at most the slot of the pid it takes out, and never the idle process and
`init`. -/
theorem slot_wakePid (h : s.Ok) (h0 : 0 ≤ pid) (h1 : pid < maxProcesses) :
    (wakePid s pid).slot
      = if 2 ≤ pid then Function.update s.slot pid ((s.slot pid).map wakeSlot) else s.slot := by
  have hstay : s.slot pid = (s.slot pid).map wakeSlot →
      s.slot = if 2 ≤ pid then Function.update s.slot pid ((s.slot pid).map wakeSlot)
        else s.slot := by
    intro he
    split
    · rw [← he, Function.update_eq_self]
    · rfl
  have hg : getProcess s pid = s.table pid := if_neg (by omega)
  unfold wakePid
  rw [hg]
  cases ht : s.table pid with
  | none => exact hstay (by rw [slot_none ht]; rfl)
  | some a =>
    obtain ⟨-, -, p, hp, rfl⟩ := h.tab pid a ht
    have hs := slot_eq ht hp
    simp only
    by_cases hc : s.idle = some a ∨ p.pid = 1 ∨ p.state ≠ .blocked
    · have hun : (unblockProcess s a).2 = s := by
        rcases unblockProcess_cases s a with hun | ⟨p', hp', hi, hne, hst, -⟩
        · rw [hun]
        · obtain rfl := Option.some.inj (hp.symm.trans hp')
          rcases hc with hc | hc | hc
          · exact absurd hc hi
          · exact absurd hc hne
          · exact absurd hst hc
      rw [hun]
      by_cases h2 : 2 ≤ p.pid
      · rcases hc with hi | hi | hi
        · exact absurd (h.tab_pid (h.idle_pid hi) hp) (by omega)
        · exact absurd hi (by omega)
        · refine hstay ?_
          rw [hs, beq_false_of_ne hi]
          rfl
      · rw [if_neg h2]
    · push Not at hc
      obtain ⟨hi, hne, hst⟩ := hc
      rw [unblockProcess_eq hp hi hne hst]
      have h2 : 2 ≤ p.pid := by
        have hz : p.pid ≠ 0 := fun e => hi (by
          obtain ⟨i, -, hii, hit, -⟩ := h.idle
          rw [hii, ← hit, ← e, ht])
        omega
      have hb := (h.setAside hp (Or.inl (by rw [hst]; simp))).setState .ready hi (by simp)
      have hawake : (s.modify a (Process.setState .ready)).Awake a :=
        awake_of_state (modify_heap_self _ hp) (Or.inl rfl)
      rw [(calm_addToScheduler hawake).slot, slot_setState h ht, if_pos h2, hs, hst]
      rfl

theorem slot_blockProcess (h : s.Ok) (hp : s.heap a = some p) (ht : s.table p.pid = some a)
    (h2 : 2 ≤ p.pid) (hst : p.state = .running) :
    (blockProcess s a).2.slot = Function.update s.slot p.pid (some ⟨a, true, false⟩) := by
  have hi : s.idle ≠ some a := h.ne_idle ht hp (by omega)
  rw [blockProcess_eq hp hi (by omega) (by rw [hst]; decide) (by rw [hst]; decide),
    ← removeFromAll_modify hp (Process.setState .blocked) (fun _ => rfl) (fun _ => rfl)]
  have hq : Calm (s.modify a (Process.setState .blocked))
      (removeFromAllPriorityQueues (s.modify a (Process.setState .blocked)) a) := by
    rw [removeFromAll_eq (modify_heap_self _ hp)]
    exact calm_setQueue _ _ _
  rw [(hq.trans (calm_quiet (quiet_setWaitTicks 0))).slot, slot_setState h ht]
  rfl

/-- the end of `process_terminator`: the process is TERMINATED, and the rest does not show -/
theorem calm_terminatorLeave (hp : s.heap a = some p) (hi : s.idle ≠ some a) :
    Calm (s.modify a (Process.setState .terminated)) (terminatorLeave s a) := by
  unfold terminatorLeave
  simp only [removeProcessFromScheduler_eq (s := s.modify a (Process.setState .terminated)) hi]
  rw [setRunning_running, if_neg runningBut_ne, forgetShell_eq,
    removeFromAll_eq (modify_heap_self _ hp)]
  exact ⟨rfl, rfl, rfl, fun _ => rfl, fun _ => rfl, fun _ => rfl⟩

theorem slot_terminatorLeave (h : s.Ok) (hp : s.heap a = some p) (ht : s.table p.pid = some a)
    (hi : s.idle ≠ some a) :
    (terminatorLeave s a).slot = Function.update s.slot p.pid (some ⟨a, false, true⟩) := by
  rw [(calm_terminatorLeave hp hi).slot, slot_setState h ht]
  rfl

/-! ## slots that are emptied or filled -/

theorem slot_erase (h : s.Ok) (ht : s.table pid = some a) :
    ((s.setSlot pid none).setHeap a none).slot = Function.update s.slot pid none := by
  funext q
  by_cases e : q = pid
  · subst e
    rw [Function.update_self]
    exact slot_none (Function.update_self ..)
  · rw [Function.update_of_ne e]
    have htq : ((s.setSlot pid none).setHeap a none).table q = s.table q :=
      Function.update_of_ne e ..
    unfold slot
    rw [htq]
    cases hq : s.table q with
    | none => rfl
    | some b =>
      have hb : b ≠ a := fun eb => e (h.table_inj (eb ▸ hq) ht)
      rw [Option.bind_some, Option.bind_some, setHeap_heap, Function.update_of_ne hb]
      rfl

theorem slot_killed (h : s.Ok) (hp : s.heap a = some p) (ht : s.table p.pid = some a)
    (hi : s.idle ≠ some a) :
    (freeProcessResources (forgetShell (removeFromProcessTable
      (s.modify a (Process.setState .terminated)) p.pid) a) a true).slot
      = Function.update s.slot p.pid none := by
  obtain ⟨h0, h1, -⟩ := h.tab _ _ ht
  rw [killed_eq hp hi h0 h1, forgetShell_eq, ← slot_erase h ht, removeFromAll_eq hp]
  rfl

/-- a slot after a collection -/
def reapOf (x : Option Slot) : Option Slot := x.filter fun x => !x.dead

theorem slot_reapSlot (h : s.Ok) (h0 : 0 ≤ pid) (h1 : pid < maxProcesses) :
    (reapSlot s pid).slot = Function.update s.slot pid (reapOf (s.slot pid)) := by
  have hg : getProcess s pid = s.table pid := if_neg (by omega)
  unfold reapSlot
  rw [hg]
  cases ht : s.table pid with
  | none =>
    have hs := slot_none ht
    simp only
    rw [hs, ← show none = reapOf none from rfl, ← hs, Function.update_eq_self]
  | some a =>
    obtain ⟨-, -, p, hp, rfl⟩ := h.tab pid a ht
    have hs := slot_eq ht hp
    simp only [hp]
    by_cases hst : p.state = .terminated
    · rw [if_pos hst, removeFromProcessTable_eq h0 h1]
      have hn : reapOf (s.slot p.pid) = none := by
        rw [hs, hst]
        rfl
      rw [hn]
      exact slot_erase h ht
    · rw [if_neg hst]
      have hk : reapOf (s.slot p.pid) = s.slot p.pid := by
        rw [hs, beq_false_of_ne hst]
        rfl
      rw [hk, Function.update_eq_self]

/-- **A collection** empties the slots of the TERMINATED processes. -/
theorem slot_reap (h : s.Ok) :
    (reapTerminatedProcesses s).slot = fun q => reapOf (s.slot q) := by
  have hidem : ∀ x, reapOf (reapOf x) = reapOf x := by
    intro x
    unfold reapOf
    rw [Option.filter_filter]
    simp
  have hfold : ∀ (l : List Int) (s : Sched), s.Ok → (∀ q ∈ l, 0 ≤ q ∧ q < maxProcesses) →
      (l.foldl reapSlot s).slot = fun q => if q ∈ l then reapOf (s.slot q) else s.slot q := by
    intro l
    induction l with
    | nil => intro s _ _; funext q; simp
    | cons pid l ih =>
      intro s hs hl
      obtain ⟨h0, h1⟩ := hl pid List.mem_cons_self
      rw [List.foldl_cons, ih _ (ok_reapSlot hs pid) fun q hq => hl q (List.mem_cons_of_mem _ hq),
        slot_reapSlot hs h0 h1]
      funext q
      by_cases e : q = pid
      · subst e
        rw [Function.update_self, hidem, if_pos List.mem_cons_self]
        split <;> rfl
      · rw [Function.update_of_ne e]
        simp only [List.mem_cons, e, false_or]
  unfold reapTerminatedProcesses
  rw [hfold allPids s h fun q hq => mem_allPids.mp hq]
  funext q
  by_cases hq : q ∈ allPids
  · rw [if_pos hq]
  · rw [if_neg hq]
    have hn : s.table q = none := by
      cases ht : s.table q with
      | none => rfl
      | some a =>
        obtain ⟨h0, h1, -⟩ := h.tab q a ht
        exact absurd (mem_allPids.mpr ⟨h0, h1⟩) hq
    rw [slot_none hn]
    rfl

theorem slot_publish (h : s.Ok) :
    (s.publish p).slot = Function.update s.slot p.pid
      (some ⟨s.next, p.state == .blocked, p.state == .terminated⟩) := by
  funext q
  by_cases e : q = p.pid
  · subst e
    rw [Function.update_self]
    exact slot_eq (p := p) (Function.update_self ..) (Function.update_self ..)
  · rw [Function.update_of_ne e]
    have htq : (s.publish p).table q = s.table q := Function.update_of_ne e ..
    unfold slot
    rw [htq]
    cases hq : s.table q with
    | none => rfl
    | some b =>
      obtain ⟨-, -, r, hr, -⟩ := h.tab q b hq
      have hb : b ≠ s.next := Nat.ne_of_lt (h.lt_next hr)
      have hheap : (s.publish p).heap b = s.heap b := Function.update_of_ne hb ..
      rw [Option.bind_some, Option.bind_some, hheap]

theorem slot_bootSched {stackBase : Nat} {recycled : List Int} {x : Slot}
    (hx : (bootSched stackBase recycled).slot pid = some x) : pid = 0 ∧ x = ⟨0, false, false⟩ := by
  obtain ⟨ht, p, hp, he⟩ := of_slot hx
  obtain ⟨rfl, h0⟩ := publish_empty_table (p := idleProcess stackBase recycled) rfl ht
  rw [h0] at hp he
  obtain rfl : (idleProcess stackBase recycled).setState .running = p := Option.some.inj hp
  exact ⟨rfl, he⟩

end Sched

end Tp2So
