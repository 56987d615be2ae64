import Tp2So.Ready.Sound
import Tp2So.Lib.Lines

/-!
# The place of a process in its queue

* `Sched.InLine a pr w n s`   `a` is in queue `pr`, behind at most `n` others, and has waited for `w`
                              ticks;
* `inLine_wake`, `inLine_block`, `inLine_killed`, ...   what others do does not push it back;
* `line_call`                 nor does any call.
-/

set_option linter.unusedVariables false

namespace Tp2So

structure Sched.InLine (a : Nat) (pr : Priority) (w n : Nat) (s : Sched) : Prop where
  proc : (s.heap a).map Process.waitTicks = some w
  mem : a ∈ (s.ready pr).elems
  place : (s.ready pr).elems.idxOf a ≤ n

/-- a process that is in no queue -/
def Sched.Out (a : Nat) (s : Sched) : Prop := ∀ pr, a ∉ (s.ready pr).elems

/-- during a call -/
def Sched.Line (a : Nat) (pr : Priority) (w n : Nat) (s : Sched) : Prop := s.Sound ∧ s.InLine a pr w n

/-- and at its end -/
def Sched.LineOrOut (a : Nat) (pr : Priority) (w n : Nat) (s : Sched) : Prop :=
  s.Sound ∧ (s.InLine a pr w n ∨ s.Out a)

namespace Sched
variable {s t : Sched} {k k' : Kernel} {a b w n : Nat} {pr : Priority} {p q : Process} {pid : Int}
  {f : Process → Process}

/-! ## edits -/

theorem InLine.of_moves (h : s.InLine a pr w n) (hnd : (s.ready pr).elems.Nodup)
    (hp : (t.heap a).map Process.waitTicks = (s.heap a).map Process.waitTicks)
    (hm : Moves a (s.ready pr).elems (t.ready pr).elems) : t.InLine a pr w n :=
  ⟨hp.trans h.proc, hm.mem, Nat.le_trans (hm.place_le hnd) h.place⟩

theorem InLine.around (h : s.InLine a pr w n) (hr : t.ready = s.ready)
    (hp : (t.heap a).map Process.waitTicks = (s.heap a).map Process.waitTicks) : t.InLine a pr w n :=
  ⟨hp.trans h.proc, by rw [hr]; exact h.mem, by rw [hr]; exact h.place⟩

theorem InLine.modify (h : s.InLine a pr w n) (b : Nat) (hf : b ≠ a ∨ ∀ p, (f p).waitTicks = p.waitTicks) :
    (s.modify b f).InLine a pr w n := by
  refine h.around rfl ?_
  by_cases e : a = b
  · rcases hf with hne | hf
    · exact absurd e.symm hne
    · subst e
      rw [modify_heap, heapMod_self, Option.map_map]
      cases s.heap a with
      | none => rfl
      | some p => exact congrArg some (hf p)
  · rw [modify_heap, heapMod_of_ne _ _ e]

theorem InLine.erase (h : s.InLine a pr w n) (hne : b ≠ a) : (s.setHeap b none).InLine a pr w n := by
  refine h.around rfl ?_
  show (Function.update s.heap b none a).map _ = _
  rw [Function.update_of_ne (Ne.symm hne)]

theorem InLine.enqueue (h : s.InLine a pr w n) (hnd : (s.ready pr).elems.Nodup) (pr' : Priority)
    (b : Nat) : (s.setQueue pr' (enqueue (s.ready pr') b)).InLine a pr w n := by
  refine h.of_moves hnd rfl ?_
  by_cases e : pr = pr'
  · subst e
    rw [setQueue_self, enqueue_elems]
    exact Moves.arrive [b] h.mem
  · rw [setQueue_of_ne _ _ _ e]
    exact Moves.refl h.mem

theorem InLine.shrink (h : s.InLine a pr w n) (hnd : (s.ready pr).elems.Nodup) {pr' : Priority}
    {q : Queue Nat} (hq : q.elems.Sublist (s.ready pr').elems) (ha : pr = pr' → a ∈ q.elems) :
    (s.setQueue pr' q).InLine a pr w n := by
  refine h.of_moves hnd rfl ?_
  by_cases e : pr = pr'
  · subst e
    rw [setQueue_self]
    exact Moves.depart hq (ha rfl)
  · rw [setQueue_of_ne _ _ _ e]
    exact Moves.refl h.mem

/-! ## who is in line -/

theorem Ok.inLine_proc (h : s.Ok) (ha : s.InLine a pr w n) : ∃ p, s.heap a = some p ∧
    p.state = .ready ∧ p.priority = pr ∧ p.waitTicks = w ∧ s.idle ≠ some a := by
  obtain ⟨-, hi, p, hp, hst, hpr, -⟩ := h.queued pr a ha.mem
  have hw := ha.proc
  rw [hp] at hw
  exact ⟨p, hp, hst, hpr, Option.some.inj hw, hi⟩

theorem Ok.out (h : s.Ok) (hp : ∀ p, s.heap a = some p → p.state ≠ .ready) : s.Out a := by
  intro pr ha
  obtain ⟨-, -, p, hp', hst, -⟩ := h.queued pr a ha
  exact hp p hp' hst

/-! ## what the others do -/

theorem inLine_removeFromAll (h : s.Ok) (ha : s.InLine a pr w n) (hp : s.heap b = some p)
    (ht : s.table p.pid = some b) (hne : b ≠ a) :
    (removeFromAllPriorityQueues s b).InLine a pr w n := by
  have herase := h.queueRemove_elems hp ht p.priority
  rw [removeFromAll_eq hp]
  refine ha.shrink (h.nodup pr) ?_ fun e => ?_
  · rw [herase]
    exact List.erase_sublist
  · rw [herase, ← e]
    exact (List.mem_erase_of_ne (Ne.symm hne)).mpr ha.mem

theorem inLine_addToScheduler (ha : s.InLine a pr w n) (hnd : (s.ready pr).elems.Nodup) (b : Nat) :
    (addToScheduler s b).InLine a pr w n := by
  unfold addToScheduler
  split
  · exact ha
  · have hm := ha.modify b (f := Process.setState .ready) (Or.inr fun _ => rfl)
    simp only
    split
    · exact hm
    · exact hm.enqueue hnd _ b

theorem inLine_unblockProcess (h : s.Ok) (ha : s.InLine a pr w n) (b : Nat) :
    (unblockProcess s b).2.InLine a pr w n := by
  rcases unblockProcess_cases s b with hun | ⟨p, hp, -, -, hst, hun⟩
  · rw [hun]
    exact ha
  · rw [hun]
    have hm := ha.modify b (f := Process.setState .ready) (Or.inr fun _ => rfl)
    exact inLine_addToScheduler hm (h.nodup pr) b

theorem inLine_blockProcess (h : s.Ok) (ha : s.InLine a pr w n) (ht : s.table pid = some b) :
    (blockProcess s b).2.InLine a pr w n ∨ (blockProcess s b).2.Out a := by
  rcases blockProcess_cases s b with hbl | ⟨p, hp, -, -, -, -, hbl⟩
  · rw [hbl]
    exact Or.inl ha
  · by_cases e : b = a
    · refine Or.inr ((ok_blockProcess h ht).out fun q hq => ?_)
      rw [hbl, ← e] at hq
      have hp' : (removeFromAllPriorityQueues s b).heap b = some p := by
        rw [removeFromAll_heap]
        exact hp
      have hself := modify_heap_self (Process.setWaitTicks 0)
        (modify_heap_self (Process.setState .blocked) hp')
      obtain rfl := Option.some.inj (hself.symm.trans hq)
      exact ProcessState.noConfusion
    · obtain rfl := h.tab_pid ht hp
      rw [hbl]
      exact Or.inl (((inLine_removeFromAll h ha hp ht e).modify b (Or.inl e)).modify b (Or.inl e))

theorem inLine_reapSlot (h : s.Ok) (ha : s.InLine a pr w n) (pid : Int) :
    (reapSlot s pid).InLine a pr w n := by
  unfold reapSlot
  split
  · exact ha
  · rename_i b hg
    split
    · exact ha
    · rename_i p hp
      split
      · rename_i hst
        obtain ⟨q, hq, hready, -⟩ := h.inLine_proc ha
        have hne : b ≠ a := by
          intro e
          rw [e] at hp
          obtain rfl := Option.some.inj (hp.symm.trans hq)
          exact absurd (hst.symm.trans hready) ProcessState.noConfusion
        obtain ⟨h0, h1, q, hq, hpid⟩ := h.tab pid b (getProcess_eq_some hg).2.2
        obtain rfl := Option.some.inj (hp.symm.trans hq)
        rw [hpid, removeFromProcessTable_eq h0 h1]
        exact InLine.erase (ha.around rfl rfl) hne
      · exact ha

theorem inLine_reap (h : s.Ok) (ha : s.InLine a pr w n) :
    (reapTerminatedProcesses s).InLine a pr w n := by
  unfold reapTerminatedProcesses
  have hall : (allPids.foldl reapSlot s).Ok ∧ (allPids.foldl reapSlot s).InLine a pr w n :=
    List.foldlRecOn (motive := fun t => t.Ok ∧ t.InLine a pr w n) allPids reapSlot ⟨h, ha⟩
      fun t ht pid _ => ⟨ok_reapSlot ht.1 pid, inLine_reapSlot ht.1 ht.2 pid⟩
  exact hall.2

/-! ## calls -/

theorem callRule_line : CallRule (Line a pr w n) (LineOrOut a pr w n) where
  last h := ⟨h.1, Or.inl h.2⟩
  wake hg h := ⟨callRule_sound.wake hg h.1, inLine_unblockProcess h.1.ok h.2 _⟩
  block hk h := by
    obtain ⟨pid, ht⟩ := h.1.ok.known hk
    exact ⟨callRule_sound.block hk h.1, inLine_blockProcess h.1.ok h.2 ht⟩
  edit b _ h hf := ⟨callRule_sound.edit b h.1 hf, h.2.modify b (Or.inr hf.ticks)⟩
  reap h := ⟨callRule_sound.reap h.1, inLine_reap h.1.ok h.2⟩

theorem inLine_leave (h : s.Ok) (ha : s.InLine a pr w n) (hp : s.heap b = some p)
    (ht : s.table p.pid = some b) (hne : b ≠ a)
    (hr : t.ready = (removeFromAllPriorityQueues s b).ready) (hh : t.heap a = s.heap a) :
    t.InLine a pr w n := by
  refine (inLine_removeFromAll h ha hp ht hne).around hr ?_
  rw [hh, removeFromAll_heap]

theorem line_killProcess (h : k.sched.Line a pr w n) (pid : Int) :
    (killProcess k pid).2.sched.LineOrOut a pr w n := by
  have hsound : (killProcess k pid).2.sched.Sound :=
    ⟨ok_killProcess h.1.ok pid, short_killProcess h.1.short pid⟩
  refine ⟨hsound, ?_⟩
  rcases killProcess_cases k pid with hk | ⟨b, p, hne, hg, hp, hk⟩
  · rw [hk]
    exact Or.inl h.2
  · obtain ⟨rfl, ht, hi⟩ := h.1.ok.victim hne hg hp
    obtain ⟨q, hq, hqp, hqt, hqi⟩ := windUp_keeps hp ht hi
    have hw := callRule_line.windUp h p p.pid
    obtain ⟨h0, h1, -⟩ := hw.1.ok.tab _ _ hqt
    have hkilled := killed_eq hq hqi h0 h1
    rw [hqp] at hkilled
    have hsched : (killProcess k p.pid).2.sched = forgetShell (((removeFromAllPriorityQueues
        (windUp k p p.pid).sched b).setRunning ((windUp k p p.pid).sched.runningBut b)).setSlot p.pid
        none |>.setHeap b none) b := by
      rw [hk]
      exact hkilled
    by_cases e : b = a
    · refine Or.inr (hsound.ok.out fun r hr => ?_)
      rw [hsched, forgetShell_eq, e] at hr
      have hnone : Function.update (removeFromAllPriorityQueues (windUp k p p.pid).sched a).heap a
        none a = some r := hr
      rw [Function.update_self] at hnone
      exact absurd hnone (by simp)
    · rw [hsched, forgetShell_eq]
      refine Or.inl (inLine_leave hw.1.ok hw.2 hq hqt e rfl ?_)
      show Function.update (removeFromAllPriorityQueues (windUp k p p.pid).sched b).heap b none a = _
      rw [Function.update_of_ne (Ne.symm e), removeFromAll_heap]

theorem line_terminatorLeave (h : s.Line a pr w n) (hr : s.running = some b) (hi : s.idle ≠ some b) :
    (terminatorLeave s b).LineOrOut a pr w n := by
  obtain ⟨p, hp, ht, -⟩ := h.1.ok.running b hr
  have hsound : (terminatorLeave s b).Sound :=
    ⟨ok_terminatorLeave h.1.ok hp ht hi, short_terminatorLeave h.1.short b⟩
  have hleave : terminatorLeave s b = forgetShell (((removeFromAllPriorityQueues s b).modify b
      (Process.setState .terminated)).setRunning (s.runningBut b)) b := by
    unfold terminatorLeave
    simp only [removeProcessFromScheduler_eq (s := s.modify b (Process.setState .terminated)) hi,
      removeFromAll_modify hp (Process.setState .terminated) (fun _ => rfl) (fun _ => rfl)]
    rw [setRunning_running, if_neg runningBut_ne]
    rfl
  refine ⟨hsound, ?_⟩
  by_cases e : b = a
  · refine Or.inr (hsound.ok.out fun q hq => ?_)
    rw [hleave, forgetShell_eq, ← e] at hq
    have hp' : (removeFromAllPriorityQueues s b).heap b = some p := by
      rw [removeFromAll_heap]
      exact hp
    have hself := modify_heap_self (Process.setState .terminated) hp'
    obtain rfl := Option.some.inj (hself.symm.trans hq)
    exact ProcessState.noConfusion
  · rw [hleave, forgetShell_eq]
    refine Or.inl (inLine_leave h.1.ok h.2 hp ht e rfl ?_)
    show heapMod (removeFromAllPriorityQueues s b).heap b _ a = _
    rw [heapMod_of_ne _ _ (Ne.symm e), removeFromAll_heap]

theorem line_createProcess (h : k.sched.Line a pr w n) (args : CreateArgs) :
    (createProcess k args).2.sched.Line a pr w n := by
  refine ⟨⟨ok_createProcess h.1.ok args, short_createProcess h.1.short h.1.ok.assigned args⟩, ?_⟩
  rcases createProcess_cases k args with hk | ⟨pid, hpid, hk⟩
  · rw [hk]
    exact h.2
  · obtain ⟨h0, h1, hf⟩ := assignPid_spec hpid
    have henter := callRule_line.enterChild h pid
    have hfree : slotFree (enterChild k.sched pid).2 pid = true :=
      enterChild_keeps (P := fun s => slotFree s pid = true)
        (fun s a f hs hq => by rw [slotFree_quiet hq.1]; exact hs) pid hf
    rcases hk with hk | ⟨argv, -, hk⟩
    · rw [hk]
      exact henter.2
    · obtain ⟨u, hu⟩ : ∃ u, u = (enterChild k.sched pid).2 := ⟨_, rfl⟩
      obtain ⟨p, hp⟩ : ∃ p, p = newProcess args pid (enterChild k.sched pid).1 argv := ⟨_, rfl⟩
      have hpp : p.pid = pid := by
        rw [hp]
        rfl
      have hpid0 : p.pid ≠ 0 := by
        rw [hpp]
        exact h.1.ok.slot_pos hf
      rw [hk, ← hp, publishProcess_sched _ hpid0]
      rw [← hu] at henter hfree ⊢
      rw [← hpp] at h0 h1 hfree
      have hpub := henter.1.ok.publish h0 h1 hfree
      have hself : (u.publish p).heap u.next = some p := Function.update_self ..
      have hslot : (u.publish p).table p.pid = some u.next := Function.update_self ..
      obtain ⟨q, hq, -⟩ := henter.1.ok.inLine_proc henter.2
      have hne : a ≠ u.next := Nat.ne_of_lt (henter.1.ok.lt_next hq)
      have hline : (u.publish p).InLine a pr w n := by
        refine henter.2.around rfl ?_
        show (Function.update u.heap u.next (some p) a).map _ = _
        rw [Function.update_of_ne hne]
      exact inLine_reap (hpub.enter hself hslot)
        (inLine_addToScheduler hline (henter.1.ok.nodup pr) u.next)

/-- **A call** does not push a process back. -/
theorem line_call {o : GuardOp} (h : k.sched.Line a pr w n) (hc : o.settled k)
    (hk : execGuard o k = some k') (hno : ∀ fuel rsp, o ≠ .schedule fuel rsp) :
    k'.sched.LineOrOut a pr w n := by
  have hsound := sound_step o k k' h.1 hc hk
  by_cases hplain : o.plain = true
  · exact callRule_line.call o hplain h hk
  · cases o with
    | kill pid => exact Option.some.inj hk ▸ line_killProcess h pid
    | ctrlC =>
      obtain rfl := Option.some.inj hk
      unfold killForegroundProcesses
      split
      · exact ⟨h.1, Or.inl h.2⟩
      · split
        · exact ⟨h.1, Or.inl h.2⟩
        · split
          · exact line_killProcess h _
          · exact ⟨h.1, Or.inl h.2⟩
    | terminatorLeave =>
      obtain ⟨b, hr, rfl⟩ := Option.map_eq_some_iff.mp hk
      have hne : k.sched.running ≠ k.sched.idle := bne_iff_ne.mp hc
      exact line_terminatorLeave h hr fun hi => hne (hr.trans hi.symm)
    | create args =>
      have hl := line_createProcess h args
      exact Option.some.inj hk ▸ ⟨hl.1, Or.inl hl.2⟩
    | createShell b recycled =>
      have hl := line_createProcess h (bootArgs ['s', 'h', 'e', 'l', 'l'] true b recycled)
      obtain rfl := Option.some.inj hk
      exact ⟨hsound, Or.inl (hl.2.around rfl rfl)⟩
    | setPriority pid pr =>
      obtain rfl := Option.some.inj hk
      refine ⟨hsound, Or.inl ?_⟩
      show (setPriority k.sched pid pr).2.InLine a _ w n
      unfold setPriority
      split
      · split
        · exact h.2
        · exact h.2.modify _ (Or.inr fun _ => rfl)
      · exact h.2
    | schedule fuel rsp => exact absurd rfl (hno fuel rsp)
    | _ => exact absurd rfl hplain

end Sched

end Tp2So
