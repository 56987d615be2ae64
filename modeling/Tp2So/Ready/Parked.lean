import Tp2So.Ready.Rules

/-!
# Stacks that are put away

The stack and the saved stack pointer of a process are set when it is created, and then by the tick
alone, which saves the stack pointer of the process that was running.

* `Parks s t`          `t` comes from `s` by calls that create nothing;
* `Born stackBase s t` and with one creation, at the pointer `s.next`;
* `parks_call`, `born_create`   every operation but the tick is one or the other;
* `Stays w s t`         nobody comes or goes, and the saved stack pointers change as `w` says;
* `stays_schedule`      the tick saves one stack pointer, and goes on with another.
-/

set_option linter.unusedVariables false

namespace Tp2So

/-- the stack stays where it is, and a TERMINATED process stays one -/
structure Process.Parked (p q : Process) : Prop where
  rsp : q.rsp = p.rsp
  stack : q.stackBase = p.stackBase
  dead : p.state = .terminated → q.state = .terminated

structure Sched.Parks (s t : Sched) : Prop where
  idle : t.idle = s.idle
  next : t.next = s.next
  kept : ∀ a q, t.heap a = some q → ∃ p, s.heap a = some p ∧ p.Parked q
  running : t.running = s.running ∨ (t.running = none ∧
    ∀ a q, s.running = some a → t.heap a = some q → q.state = .terminated)

/-- a new process, with a stack at `stackBase` -/
def Process.Fresh (stackBase : Nat) (p : Process) : Prop :=
  p.stackBase = stackBase ∧ p.rsp = stackInit (stackBase + processStackSize) ∧ p.state = .ready

/-- the stack of the process that the call creates -/
def GuardOp.newStack : GuardOp → Option Nat
  | .create args => some args.stackBase
  | .createShell stackBase _ => some stackBase
  | _ => none

def Sched.Born (stackBase : Nat) (s t : Sched) : Prop :=
  ∃ u p, Sched.Parks s u ∧ Process.Fresh stackBase p ∧ Sched.Parks (u.publish p) t

section
variable {s t u : Sched} {k k' : Kernel} {a b : Nat} {p q r : Process} {pid : Int}
  {f : Process → Process}

theorem Process.Parked.refl (p : Process) : p.Parked p := ⟨rfl, rfl, id⟩

theorem Process.Parked.trans (h : p.Parked q) (h' : q.Parked r) : p.Parked r :=
  ⟨h'.rsp.trans h.rsp, h'.stack.trans h.stack, fun e => h'.dead (h.dead e)⟩

namespace Sched

theorem Parks.refl (s : Sched) : Parks s s :=
  ⟨rfl, rfl, fun a q hq => ⟨q, hq, .refl q⟩, Or.inl rfl⟩

theorem Parks.trans (h : Parks s t) (h' : Parks t u) : Parks s u := by
  refine ⟨h'.idle.trans h.idle, h'.next.trans h.next, fun a r hr => ?_, ?_⟩
  · obtain ⟨q, hq, hqr⟩ := h'.kept a r hr
    obtain ⟨p, hp, hpq⟩ := h.kept a q hq
    exact ⟨p, hp, hpq.trans hqr⟩
  · rcases h.running with hsame | ⟨hnone, hdead⟩
    · rw [← hsame]
      exact h'.running
    · refine Or.inr ⟨?_, fun a r ha hr => ?_⟩
      · rcases h'.running with hsame' | ⟨hnone', -⟩
        · rw [hsame', hnone]
        · exact hnone'
      · obtain ⟨q, hq, hqr⟩ := h'.kept a r hr
        exact hqr.dead (hdead a q ha hq)

/-! ## edits -/

theorem parks_around (hi : t.idle = s.idle) (hn : t.next = s.next) (hh : t.heap = s.heap)
    (hr : t.running = s.running) : Parks s t :=
  ⟨hi, hn, fun a q hq => ⟨q, by rw [← hh]; exact hq, .refl q⟩, Or.inl hr⟩

theorem parks_modify (s : Sched) (a : Nat) (hf : ∀ p, s.heap a = some p → p.Parked (f p)) :
    Parks s (s.modify a f) := by
  refine ⟨rfl, rfl, fun b q hq => ?_, Or.inl rfl⟩
  obtain ⟨p, hp, rfl⟩ := heapMod_some hq
  refine ⟨p, hp, ?_⟩
  by_cases e : b = a
  · subst e
    rw [if_pos rfl]
    exact hf p hp
  · rw [if_neg e]
    exact .refl p

theorem parks_edit (s : Sched) (a : Nat) (hf : Process.Tame f) : Parks s (s.modify a f) :=
  parks_modify s a fun p _ => ⟨hf.rsp p, hf.stack p, fun hst => (hf.state p).trans hst⟩

theorem parks_setState (s : Sched) (a : Nat) (st : ProcessState)
    (h : ∀ p, s.heap a = some p → p.state ≠ .terminated) : Parks s (s.modify a (Process.setState st)) :=
  parks_modify s a fun p hp => ⟨rfl, rfl, fun hst => absurd hst (h p hp)⟩

theorem parks_erase (s : Sched) (a : Nat) : Parks s (s.setHeap a none) := by
  refine ⟨rfl, rfl, fun b q hq => ?_, Or.inl rfl⟩
  have hq' : Function.update s.heap a none b = some q := hq
  by_cases e : b = a
  · rw [e, Function.update_self] at hq'
    exact absurd hq' (by simp)
  · rw [Function.update_of_ne e] at hq'
    exact ⟨q, hq', .refl q⟩

theorem parks_stop (hst : ∀ p, s.heap a = some p → p.state = .terminated)
    (hr : s.running = some a) : Parks s (s.setRunning none) := by
  refine ⟨rfl, rfl, fun b q hq => ⟨q, hq, .refl q⟩, Or.inr ⟨rfl, fun b q hb hq => ?_⟩⟩
  obtain rfl := Option.some.inj (hr.symm.trans hb)
  exact hst q hq

theorem parks_removeFromTable (s : Sched) (pid : Int) : Parks s (removeFromProcessTable s pid) := by
  unfold removeFromProcessTable
  split
  · exact parks_around rfl rfl rfl rfl
  · exact .refl s

theorem parks_forgetShell (s : Sched) (a : Nat) : Parks s (forgetShell s a) := by
  unfold forgetShell
  split
  · exact parks_around rfl rfl rfl rfl
  · exact .refl s

/-! ## the scheduler -/

theorem parks_removeFromAll (s : Sched) (a : Nat) : Parks s (removeFromAllPriorityQueues s a) := by
  unfold removeFromAllPriorityQueues
  split
  · exact .refl s
  · exact parks_around rfl rfl rfl rfl

theorem parks_addToScheduler (s : Sched) (a : Nat)
    (h : ∀ p, s.heap a = some p → p.state ≠ .terminated) : Parks s (addToScheduler s a) := by
  unfold addToScheduler
  split
  · exact .refl s
  · have hm := parks_setState s a .ready h
    simp only
    split
    · exact hm
    · exact hm.trans (parks_around rfl rfl rfl rfl)

theorem parks_unblockProcess (s : Sched) (a : Nat) : Parks s (unblockProcess s a).2 := by
  rcases unblockProcess_cases s a with hun | ⟨p, hp, -, -, hst, hun⟩
  · rw [hun]
    exact .refl s
  · rw [hun]
    refine (parks_setState s a .ready fun q hq => ?_).trans (parks_addToScheduler _ a fun q hq => ?_)
    · obtain rfl := Option.some.inj (hp.symm.trans hq)
      rw [hst]
      exact ProcessState.noConfusion
    · obtain rfl := Option.some.inj ((modify_heap_self _ hp).symm.trans hq)
      exact ProcessState.noConfusion

theorem parks_blockProcess (s : Sched) (a : Nat) : Parks s (blockProcess s a).2 := by
  rcases blockProcess_cases s a with hbl | ⟨p, hp, -, -, -, hlive, hbl⟩
  · rw [hbl]
    exact .refl s
  · rw [hbl]
    refine ((parks_removeFromAll s a).trans (parks_setState _ a .blocked fun q hq => ?_)).trans
      (parks_modify _ a fun _ _ => ⟨rfl, rfl, id⟩)
    rw [removeFromAll_heap] at hq
    obtain rfl := Option.some.inj (hp.symm.trans hq)
    exact hlive

theorem parks_reapSlot (s : Sched) (pid : Int) : Parks s (reapSlot s pid) := by
  unfold reapSlot
  split
  · exact .refl s
  · rename_i a _
    split
    · exact .refl s
    · rename_i p _
      split
      · exact (parks_removeFromTable s p.pid).trans (parks_erase _ a)
      · exact .refl s

theorem parks_reap (s : Sched) : Parks s (reapTerminatedProcesses s) := by
  unfold reapTerminatedProcesses
  exact List.foldlRecOn allPids reapSlot (Parks.refl s) fun t ht pid _ => ht.trans (parks_reapSlot t pid)

theorem callRule_parks (s : Sched) : CallRule (Parks s) (Parks s) where
  last h := h
  wake _ h := h.trans (parks_unblockProcess _ _)
  block _ h := h.trans (parks_blockProcess _ _)
  edit a _ h hf := h.trans (parks_edit _ a hf)
  reap h := h.trans (parks_reap _)

theorem parks_setPriority (s : Sched) (pid pr : Int) : Parks s (setPriority s pid pr).2 := by
  unfold setPriority
  split
  · split
    · exact .refl s
    · exact parks_modify s _ fun _ _ => ⟨rfl, rfl, id⟩
  · exact .refl s

/-! ## death -/

theorem parks_removeProcess (hst : ∀ p, s.heap a = some p → p.state = .terminated) :
    Parks s (removeProcessFromScheduler s a) := by
  unfold removeProcessFromScheduler
  split
  · exact .refl s
  · have hrem := parks_removeFromAll s a
    simp only
    split
    · rename_i hr
      exact hrem.trans (parks_stop (by rw [removeFromAll_heap]; exact hst) hr)
    · exact hrem

theorem parks_terminated (s : Sched) (a : Nat) : Parks s (s.modify a (Process.setState .terminated)) :=
  parks_modify s a fun _ _ => ⟨rfl, rfl, fun _ => rfl⟩

theorem terminated_of_modify (s : Sched) (a : Nat) :
    ∀ p, (s.modify a (Process.setState .terminated)).heap a = some p → p.state = .terminated := by
  intro p hp
  obtain ⟨q, -, rfl⟩ := heapMod_some hp
  rw [if_pos rfl]
  rfl

theorem parks_killProcess (k : Kernel) (pid : Int) : Parks k.sched (killProcess k pid).2.sched := by
  rcases killProcess_cases k pid with hk | ⟨a, p, -, -, hp, hk⟩
  · rw [hk]
    exact .refl _
  · have hw := (callRule_parks k.sched).windUp (.refl _) p pid
    rw [hk]
    refine (hw.trans (parks_terminated _ a)).trans ?_
    have hdead := terminated_of_modify (windUp k p pid).sched a
    generalize (windUp k p pid).sched.modify a (Process.setState .terminated) = s₁ at hdead ⊢
    have hheap : (forgetShell (removeFromProcessTable s₁ pid) a).heap = s₁.heap := by
      rw [forgetShell_eq]
      unfold removeFromProcessTable
      split <;> rfl
    exact (((parks_removeFromTable s₁ pid).trans (parks_forgetShell _ a)).trans
      (parks_removeProcess (by rw [hheap]; exact hdead))).trans (parks_erase _ a)

theorem parks_terminatorLeave (s : Sched) (a : Nat) : Parks s (terminatorLeave s a) := by
  have hmark := parks_terminated s a
  have hdead := terminated_of_modify s a
  unfold terminatorLeave
  generalize s.modify a (Process.setState .terminated) = s₁ at hmark hdead ⊢
  have hrem := parks_removeProcess hdead
  have hdead' : ∀ q, (removeProcessFromScheduler s₁ a).heap a = some q → q.state = .terminated := by
    intro q hq
    obtain ⟨p, hp, hpq⟩ := hrem.kept a q hq
    exact hpq.dead (hdead p hp)
  simp only
  refine (hmark.trans hrem).trans (Parks.trans ?_ (parks_forgetShell _ a))
  split
  · rename_i hr
    exact parks_stop hdead' hr
  · exact .refl _

theorem parks_killForeground (k : Kernel) :
    Parks k.sched (killForegroundProcesses k).2.sched := by
  unfold killForegroundProcesses
  split
  · exact .refl _
  · split
    · exact .refl _
    · split
      · exact parks_killProcess k _
      · exact .refl _

/-! ## birth -/

theorem Born.after (h : Born b s t) (h' : Parks t u) : Born b s u := by
  obtain ⟨v, p, hv, hp, hvt⟩ := h
  exact ⟨v, p, hv, hp, hvt.trans h'⟩

theorem fresh_newProcess (args : CreateArgs) (pid ppid : Int) (argv : List (List Char)) :
    Process.Fresh args.stackBase (newProcess args pid ppid argv) := ⟨rfl, rfl, rfl⟩

/-- `create_process` publishes one process, or none -/
theorem born_createProcess (args : CreateArgs)
    (h0 : ∀ pid, assignPid k.sched = some pid → pid ≠ 0) :
    Parks k.sched (createProcess k args).2.sched ∨
      Born args.stackBase k.sched (createProcess k args).2.sched := by
  rcases createProcess_cases k args with hk | ⟨pid, hpid, hk⟩
  · rw [hk]
    exact Or.inl (.refl _)
  · have henter := (callRule_parks k.sched).enterChild (.refl _) pid
    rcases hk with hk | ⟨argv, -, hk⟩
    · rw [hk]
      exact Or.inl henter
    · rw [hk]
      obtain ⟨p, hp⟩ : ∃ p, p = newProcess args pid (enterChild k.sched pid).1 argv := ⟨_, rfl⟩
      have hfresh : Process.Fresh args.stackBase p := by
        rw [hp]
        exact fresh_newProcess ..
      have hpid0 : p.pid ≠ 0 := by
        rw [hp]
        exact h0 pid hpid
      rw [← hp, publishProcess_sched _ hpid0]
      refine Or.inr ⟨_, p, henter, hfresh, Parks.trans ?_ (parks_reap _)⟩
      refine parks_addToScheduler _ _ fun q hq => ?_
      have hself : ((enterChild k.sched pid).2.publish p).heap (enterChild k.sched pid).2.next = some p :=
        Function.update_self ..
      obtain rfl := Option.some.inj (hself.symm.trans hq)
      rw [hfresh.2.2]
      exact ProcessState.noConfusion

/-- **Every call** leaves the stacks that are put away alone. -/
theorem parks_call {o : GuardOp} (he : execGuard o k = some k')
    (h0 : ∀ pid, assignPid k.sched = some pid → pid ≠ 0) (ho : ∀ fuel rsp, o ≠ .schedule fuel rsp) :
    Parks k.sched k'.sched ∨ ∃ b, o.newStack = some b ∧ Born b k.sched k'.sched := by
  by_cases hplain : o.plain = true
  · exact Or.inl ((callRule_parks k.sched).call o hplain (.refl _) he)
  · cases o with
    | kill pid => exact Or.inl (Option.some.inj he ▸ parks_killProcess k pid)
    | ctrlC => exact Or.inl (Option.some.inj he ▸ parks_killForeground k)
    | terminatorLeave =>
      obtain ⟨a, -, rfl⟩ := Option.map_eq_some_iff.mp he
      exact Or.inl (parks_terminatorLeave k.sched a)
    | create args =>
      obtain rfl := Option.some.inj he
      rcases born_createProcess args h0 with h | h
      · exact Or.inl h
      · exact Or.inr ⟨_, rfl, h⟩
    | createShell b recycled =>
      obtain rfl := Option.some.inj he
      have hshell : Parks (createProcess k (bootArgs ['s', 'h', 'e', 'l', 'l'] true b recycled)).2.sched
          (createShell k b recycled).sched := parks_around rfl rfl rfl rfl
      rcases born_createProcess (bootArgs ['s', 'h', 'e', 'l', 'l'] true b recycled) h0 with h | h
      · exact Or.inl (h.trans hshell)
      · exact Or.inr ⟨b, rfl, h.after hshell⟩
    | setPriority pid pr => exact Or.inl (Option.some.inj he ▸ parks_setPriority k.sched pid pr)
    | schedule fuel rsp => exact absurd rfl (ho fuel rsp)
    | _ => exact absurd rfl hplain

/-! ## the tick -/

/-- the saved stack pointers are left alone -/
def keepRsp : Nat → Nat → Nat := fun _ n => n

/-- the one of the process `r` becomes `rsp` -/
def saveRsp (r : Option Nat) (rsp : Nat) : Nat → Nat → Nat := fun a n => if r = some a then rsp else n

/-- no process comes or goes, and the saved stack pointers change as `w` says -/
structure Stays (w : Nat → Nat → Nat) (s t : Sched) : Prop where
  idle : t.idle = s.idle
  next : t.next = s.next
  kept : ∀ a q, t.heap a = some q → ∃ p, s.heap a = some p ∧
    (q.stackBase = p.stackBase ∧ q.rsp = w a p.rsp) ∧
    (p.state = .terminated → q.state = .terminated ∨ s.idle = some a)
  live : ∀ a p, s.heap a = some p → ∃ q, t.heap a = some q

variable {v w : Nat → Nat → Nat} {rsp : Nat}

theorem Stays.refl (s : Sched) : Stays keepRsp s s :=
  ⟨rfl, rfl, fun a q hq => ⟨q, hq, ⟨rfl, rfl⟩, Or.inl⟩, fun a p hp => ⟨p, hp⟩⟩

theorem Stays.trans (h : Stays v s t) (h' : Stays w t u) :
    Stays (fun a n => w a (v a n)) s u := by
  refine ⟨h'.idle.trans h.idle, h'.next.trans h.next, fun a r hr => ?_, fun a p hp => ?_⟩
  · obtain ⟨q, hq, ⟨hstack', hrsp'⟩, hdead'⟩ := h'.kept a r hr
    obtain ⟨p, hp, ⟨hstack, hrsp⟩, hdead⟩ := h.kept a q hq
    refine ⟨p, hp, ⟨hstack'.trans hstack, by rw [hrsp', hrsp]⟩, fun hst => ?_⟩
    rcases hdead hst with hq' | hi
    · rw [← h.idle]
      exact hdead' hq'
    · exact Or.inr hi
  · obtain ⟨q, hq⟩ := h.live a p hp
    exact h'.live a q hq

theorem stays_around (hi : t.idle = s.idle) (hn : t.next = s.next) (hh : t.heap = s.heap) :
    Stays keepRsp s t :=
  ⟨hi, hn, fun a q hq => ⟨q, by rw [← hh]; exact hq, ⟨rfl, rfl⟩, Or.inl⟩,
    fun a p hp => ⟨p, by rw [hh]; exact hp⟩⟩

theorem stays_modify (s : Sched) (a : Nat) {w : Nat → Nat → Nat} (hw : ∀ b n, b ≠ a → w b n = n)
    (hf : ∀ p, s.heap a = some p → (f p).stackBase = p.stackBase ∧ (f p).rsp = w a p.rsp)
    (hdead : ∀ p, s.heap a = some p → p.state = .terminated →
      (f p).state = .terminated ∨ s.idle = some a) : Stays w s (s.modify a f) := by
  refine ⟨rfl, rfl, fun b q hq => ?_, fun b p hp => ?_⟩
  · obtain ⟨p, hp, rfl⟩ := heapMod_some hq
    refine ⟨p, hp, ?_⟩
    by_cases e : b = a
    · subst e
      rw [if_pos rfl]
      exact ⟨hf p hp, hdead p hp⟩
    · rw [if_neg e]
      exact ⟨⟨rfl, (hw b _ e).symm⟩, Or.inl⟩
  · exact ⟨_, heapMod_of_some a f hp⟩

/-- an edit that leaves the stack alone, of a process that is not TERMINATED or stays so -/
theorem stays_edit (s : Sched) (a : Nat) (hf : ∀ p, (f p).stackBase = p.stackBase ∧ (f p).rsp = p.rsp)
    (hdead : ∀ p, s.heap a = some p → p.state = .terminated →
      (f p).state = .terminated ∨ s.idle = some a) : Stays keepRsp s (s.modify a f) :=
  stays_modify s a (fun _ _ _ => rfl) (fun p _ => hf p) hdead

theorem stays_boost (s : Sched) (pr : Priority) (a : Nat) : Stays keepRsp s (boost s pr a) := by
  have hpr : Stays keepRsp s (s.modify a (Process.setPriority maxPriority)) :=
    stays_edit s a (fun _ => ⟨rfl, rfl⟩) fun _ _ => Or.inl
  have hmove : ∀ (u : Sched) (q q' : Queue Nat),
      Stays keepRsp u ((u.setQueue pr q).setQueue maxPriority q') := fun _ _ _ => stays_around rfl rfl rfl
  have hticks : ∀ u : Sched, Stays keepRsp u (u.modify a (Process.setWaitTicks 0)) :=
    fun u => stays_edit u a (fun _ => ⟨rfl, rfl⟩) fun _ _ => Or.inl
  exact (hpr.trans (hmove _ _ _)).trans (hticks _)

theorem stays_ageProcess (s : Sched) (pr : Priority) (a : Nat) (p : Process) :
    Stays keepRsp s (ageProcess s pr a p) := by
  have hw : Stays keepRsp s (s.modify a (Process.setWaitTicks (p.waitTicks + 1))) :=
    stays_edit s a (fun _ => ⟨rfl, rfl⟩) fun _ _ => Or.inl
  unfold ageProcess
  simp only
  split
  · exact hw.trans (stays_boost _ pr a)
  · exact hw

theorem stays_applyAging {fuel : Nat} (h : applyAging fuel s = some t) :
    Stays keepRsp s t ∧ t.running = s.running := by
  have hrule : AgingRule fun t => Stays keepRsp s t ∧ t.running = s.running :=
    ⟨fun hs _ => ⟨hs.1.trans (stays_around rfl rfl rfl), hs.2⟩, fun hs _ _ _ =>
      ⟨hs.1.trans (stays_ageProcess _ _ _ _), by
        rw [← hs.2]
        unfold ageProcess boost
        simp only
        split <;> rfl⟩⟩
  exact hrule.pass ⟨.refl s, rfl⟩ h

theorem stays_selectNext (prs : List Priority) {r : Option Nat × Sched}
    (h : selectNext prs s = some r) : Stays keepRsp s r.2 :=
  selectNext_keeps (P := Stays keepRsp s) (fun q hs => hs.trans (stays_around rfl rfl rfl)) prs
    (.refl s) h

/-- the process that is handed the CPU, and the stack pointer it goes on with -/
def Handed (r : Nat) (t : Sched) : Prop :=
  ∃ a q, t.running = some a ∧ t.heap a = some q ∧ q.rsp = r ∧ q.state ≠ .terminated

theorem stays_runIdle {r : Nat × Sched} (h : runIdle s = some r) :
    Stays keepRsp s r.2 ∧ Handed r.1 r.2 := by
  unfold runIdle at h
  split at h
  · exact absurd h (by simp)
  · rename_i i hi
    split at h
    · exact absurd h (by simp)
    · rename_i p hp
      obtain rfl := Option.some.inj h
      have hrun : Stays keepRsp s (s.modify i (Process.setState .running)) :=
        stays_edit s i (fun _ => ⟨rfl, rfl⟩) fun _ _ _ => Or.inr hi
      have hself := modify_heap_self (s := s) (Process.setState .running) hp
      exact ⟨hrun.trans (stays_around rfl rfl rfl), i, _, rfl, hself, rfl, ProcessState.noConfusion⟩

theorem stays_resetAging (s : Sched) (a : Nat) : Stays keepRsp s (resetAging s a) := by
  unfold resetAging
  split
  · exact .refl s
  · exact stays_edit s a (fun _ => ⟨rfl, rfl⟩) fun _ _ => Or.inl

theorem resetAging_handed {r : Nat} (h : Handed r s) (a : Nat) : Handed r (resetAging s a) := by
  obtain ⟨b, q, hb, hq, hrsp, hst⟩ := h
  unfold resetAging
  split
  · exact ⟨b, q, hb, hq, hrsp, hst⟩
  · refine ⟨b, _, hb, heapMod_of_some a (Process.setWaitTicks 0) hq, ?_⟩
    split <;> exact ⟨hrsp, hst⟩

theorem stays_dispatch {next : Option Nat} {r : Nat × Sched} (h : dispatch next s = some r) :
    Stays keepRsp s r.2 ∧ Handed r.1 r.2 := by
  unfold dispatch at h
  split at h
  · exact stays_runIdle h
  · rename_i a
    split at h
    · exact absurd h (by simp)
    · rename_i p hp
      split at h
      · exact stays_runIdle h
      · rename_i hready
        have hst : p.state = .ready := not_not.mp hready
        have hrun : Stays keepRsp s (s.modify a (Process.setState .running)) := by
          refine stays_edit s a (fun _ => ⟨rfl, rfl⟩) fun q hq hq' => ?_
          obtain rfl := Option.some.inj (hp.symm.trans hq)
          exact absurd (hst.symm.trans hq') ProcessState.noConfusion
        have hquantum : ∀ u : Sched, Stays keepRsp u (u.modify a (Process.setQuantum defaultQuantum)) :=
          fun u => stays_edit u a (fun _ => ⟨rfl, rfl⟩) fun _ _ => Or.inl
        have hcpu : ∀ u : Sched, Stays keepRsp u (resetAging (u.setRunning (some a)) a) := fun u =>
          (stays_around (s := u) (t := u.setRunning (some a)) rfl rfl rfl).trans (stays_resetAging _ a)
        have hself := modify_heap_self (Process.setQuantum defaultQuantum)
          (modify_heap_self (s := s) (Process.setState .running) hp)
        have hall := (hrun.trans (hquantum _)).trans (hcpu _)
        have hgiven : Handed p.rsp (((s.modify a (Process.setState .running)).modify a
            (Process.setQuantum defaultQuantum)).setRunning (some a)) :=
          ⟨a, _, rfl, hself, rfl, ProcessState.noConfusion⟩
        have hhanded := resetAging_handed hgiven a
        simp only at h
        split at h
        · obtain ⟨hidle, hidle'⟩ := stays_runIdle h
          exact ⟨hall.trans hidle, hidle'⟩
        · obtain rfl := Option.some.inj h
          exact ⟨hall, hhanded⟩

theorem stays_addToScheduler (s : Sched) (a : Nat)
    (h : ∀ p, s.heap a = some p → p.state ≠ .terminated) : Stays keepRsp s (addToScheduler s a) := by
  unfold addToScheduler
  split
  · exact .refl s
  · have hready : Stays keepRsp s (s.modify a (Process.setState .ready)) :=
      stays_edit s a (fun _ => ⟨rfl, rfl⟩) fun p hp hst => absurd hst (h p hp)
    simp only
    split
    · exact hready
    · exact hready.trans (stays_around rfl rfl rfl)

theorem stays_preempt {x : Sched ⊕ Sched} (h : preempt rsp s = some x) :
    x.elim (fun t => Stays (saveRsp s.running rsp) s t ∧ Handed rsp t)
      (Stays (saveRsp s.running rsp) s) := by
  unfold preempt at h
  cases hr : s.running with
  | none =>
    simp only [hr] at h
    obtain rfl := Option.some.inj h
    have hw : saveRsp none rsp = keepRsp := by
      funext a n
      exact if_neg (by simp)
    show Stays (saveRsp none rsp) s s
    rw [hw]
    exact .refl s
  | some a =>
    cases hp : s.heap a with
    | none =>
      simp only [hr, hp] at h
      exact absurd h (by simp)
    | some p =>
      simp only [hr, hp] at h
      have hself : saveRsp (some a) rsp a = fun _ => rsp := by
        funext n
        exact if_pos rfl
      have hsave : Stays (saveRsp (some a) rsp) s (s.modify a (Process.setRsp rsp)) := by
        refine stays_modify s a (fun b n e => if_neg fun hb => e (Option.some.inj hb).symm)
          (fun q _ => ⟨rfl, ?_⟩) fun _ _ => Or.inl
        rw [hself]
        rfl
      have hstop : ∀ u : Sched, Stays keepRsp u (u.setRunning none) := fun _ => stays_around rfl rfl rfl
      cases hst : p.state with
      | terminated =>
        simp only [hst] at h
        exact Option.some.inj h ▸ hsave.trans (hstop _)
      | blocked =>
        simp only [hst] at h
        exact Option.some.inj h ▸ hsave.trans (hstop _)
      | ready =>
        simp only [hst] at h
        exact Option.some.inj h ▸ hsave
      | running =>
        simp only [hst] at h
        have hquantum : ∀ (u : Sched) (n : Int), Stays keepRsp u (u.modify a (Process.setQuantum n)) :=
          fun u n => stays_edit u a (fun _ => ⟨rfl, rfl⟩) fun _ _ => Or.inl
        have hmod := modify_heap_self (Process.setQuantum (p.quantumRemaining - 1))
          (modify_heap_self (s := s) (Process.setRsp rsp) hp)
        have htaken := hsave.trans (hquantum _ (p.quantumRemaining - 1))
        split at h
        · obtain rfl := Option.some.inj h
          refine ⟨htaken, a, _, hr, hmod, rfl, ?_⟩
          show p.state ≠ .terminated
          rw [hst]
          exact ProcessState.noConfusion
        · obtain rfl := Option.some.inj h
          have hfull := htaken.trans (hquantum _ defaultQuantum)
          have hmod' := modify_heap_self (Process.setQuantum defaultQuantum) hmod
          generalize ((s.modify a (Process.setRsp rsp)).modify a (Process.setQuantum
            (p.quantumRemaining - 1))).modify a (Process.setQuantum defaultQuantum) = u at hfull hmod' ⊢
          have hready : Stays keepRsp u (u.modify a (Process.setState .ready)) := by
            refine stays_edit u a (fun _ => ⟨rfl, rfl⟩) fun q hq hq' => ?_
            obtain rfl := Option.some.inj (hmod'.symm.trans hq)
            exact absurd (hst.symm.trans hq') ProcessState.noConfusion
          have hqueued : Stays keepRsp (u.modify a (Process.setState .ready))
              (addToScheduler (u.modify a (Process.setState .ready)) a) := by
            refine stays_addToScheduler _ a fun q hq hq' => ?_
            obtain rfl := Option.some.inj ((modify_heap_self _ hmod').symm.trans hq)
            exact absurd hq' ProcessState.noConfusion
          exact (hfull.trans hready).trans hqueued

/-- **The tick** saves the stack pointer of the running process, changes no other, and goes on with the
saved stack pointer of the process that it hands the CPU. -/
theorem stays_schedule {fuel : Nat} {r : Nat × Sched} (h : schedule fuel rsp s = some r) :
    Stays (saveRsp s.running rsp) s r.2 ∧ Handed r.1 r.2 := by
  obtain ⟨s₁, h₁, hparts⟩ := schedule_parts h
  obtain ⟨haged, hrun⟩ := stays_applyAging h₁
  rcases hparts with ⟨s₂, hp, rfl⟩ | ⟨s₂, next, s₃, hp, hsel, hd⟩
  · have hput := stays_preempt hp
    rw [hrun] at hput
    exact ⟨haged.trans hput.1, hput.2⟩
  · have hput := stays_preempt hp
    rw [hrun] at hput
    obtain ⟨hgo, hhanded⟩ := stays_dispatch hd
    exact ⟨((haged.trans hput).trans (stays_selectNext _ hsel)).trans hgo, hhanded⟩

end Sched

end

end Tp2So
