import Tp2So.Sync.Registry
import Tp2So.Sync.Lives

/-!
# Who waits where

A blocked queue holds bare pids.  `Waiters slot r waitsOn` ties each queued pid to the process in its
slot: that process, if there is one, is BLOCKED, and the last semaphore it has been suspended on
(`waitsOn`) is the one whose queue the pid is in.  A slot may be empty: `kill_process` leaves the pid
of its victim where it is.

`Waiters.renews`, `.alter`, `.post`, `.wait`, `.reslot`, `.born`   what keeps it.
-/

set_option linter.unusedVariables false

namespace Tp2So

structure Waiters (slot : Int → Option Slot) (r : SemReg) (waitsOn : Nat → Option Nat) : Prop where
  wf : r.Wf
  inj : ∀ p q x y, slot p = some x → slot q = some y → x.proc = y.proc → p = q
  alive : ∀ q x, slot q = some x → x.blocked = true → x.dead = false
  past : ∀ a c, waitsOn a = some c → c < r.next
  queued : ∀ c m, r.heap c = some m → ∀ q ∈ m.blockedProcesses.elems, 2 ≤ q ∧ q < maxProcesses ∧
    ∀ x, slot q = some x → x.blocked = true ∧ waitsOn x.proc = some c
  nodup : ∀ c m, r.heap c = some m → m.blockedProcesses.elems.Nodup
  listed : ∀ q x c m, slot q = some x → x.blocked = true → waitsOn x.proc = some c →
    r.heap c = some m → q ∈ m.blockedProcesses.elems

/-- `q` is in no blocked queue -/
def Unqueued (r : SemReg) (q : Int) : Prop :=
  ∀ c m, r.heap c = some m → q ∉ m.blockedProcesses.elems

/-- the test of `Unqueued` -/
def unqueued (r : SemReg) (q : Int) : Bool :=
  r.registry.elems.all fun c => (r.heap c).all fun m => !m.blockedProcesses.elems.contains q

theorem unqueued_iff {r : SemReg} (h : r.Wf) {q : Int} : unqueued r q = true ↔ Unqueued r q := by
  unfold unqueued Unqueued
  rw [List.all_eq_true]
  constructor
  · intro hall c m hm hq
    have hc := hall c ((h.mem c).mpr ⟨m, hm⟩)
    rw [hm] at hc
    simp [hq] at hc
  · intro hno c hc
    obtain ⟨m, hm⟩ := (h.mem c).mp hc
    rw [hm]
    simp [hno c m hm]

namespace Waiters
variable {slot slot' : Int → Option Slot} {r r' : SemReg} {w : Nat → Option Nat} {a b : Nat}
  {pid : Int} {m : Sem}

theorem unqueued_of_awake (h : Waiters slot r w) {x : Slot} (hs : slot pid = some x)
    (hx : x.blocked = false) : Unqueued r pid := by
  intro c m hm hq
  have hb := ((h.queued c m hm pid hq).2.2 x hs).1
  rw [hx] at hb
  exact absurd hb (by simp)

theorem range (h : Waiters slot r w) : ∀ a m, r.heap a = some m →
    ∀ q ∈ m.blockedProcesses.elems, 2 ≤ q ∧ q < maxProcesses :=
  fun a m hm q hq => ⟨(h.queued a m hm q hq).1, (h.queued a m hm q hq).2.1⟩

/-- slots that come from old ones with the same process hold each process once -/
theorem inj_of_back (h : Waiters slot r w)
    (hback : ∀ q x, slot' q = some x → ∃ y, slot q = some y ∧ x.proc = y.proc) :
    ∀ p q x y, slot' p = some x → slot' q = some y → x.proc = y.proc → p = q := by
  intro p q x y hx hy he
  obtain ⟨x', hx', hxp⟩ := hback p x hx
  obtain ⟨y', hy', hyp⟩ := hback q y hy
  exact h.inj p q x' y' hx' hy' (by rw [← hxp, ← hyp, he])

theorem of_refilled {q : Int} {x y z : Slot} (hs : slot pid = some y)
    (hx : Function.update slot pid (some z) q = some x) (hz : z.proc = y.proc) :
    ∃ x', slot q = some x' ∧ x.proc = x'.proc := by
  by_cases e : q = pid
  · subst e
    rw [Function.update_self] at hx
    obtain rfl := Option.some.inj hx
    exact ⟨y, hs, hz⟩
  · rw [Function.update_of_ne e] at hx
    exact ⟨x, hx, rfl⟩

/-! ## changes of the registry -/

/-- a semaphore after a change of `a` -/
theorem of_modify {f : Sem → Sem} {c : Nat} {n' : Sem} (hn' : (r.modify a f).heap c = some n') :
    ∃ n, r.heap c = some n ∧ ((c = a ∧ n' = f n) ∨ (c ≠ a ∧ n' = n)) := by
  obtain ⟨n, hn, rfl⟩ := heapMod_some hn'
  refine ⟨n, hn, ?_⟩
  by_cases e : c = a
  · rw [if_pos e]
    exact Or.inl ⟨e, rfl⟩
  · rw [if_neg e]
    exact Or.inr ⟨e, rfl⟩

theorem renews (h : Waiters slot r w) (hr : SemReg.Renews r r' m)
    (hm : m.blockedProcesses.elems = []) : Waiters slot r' w := by
  have hback : ∀ c n', r'.heap c = some n' →
      (∃ n, r.heap c = some n ∧ n'.blockedProcesses.elems = n.blockedProcesses.elems) ∨
      (r.next ≤ c ∧ n'.blockedProcesses.elems = []) := by
    intro c n' hn'
    rcases hr.back c n' hn' with ⟨n, hn, -, -, he⟩ | ⟨hc, -, -, he⟩
    · exact Or.inl ⟨n, hn, by rw [he]⟩
    · exact Or.inr ⟨hc, by rw [he, hm]⟩
  refine ⟨hr.wf, h.inj, h.alive, fun a c hc => Nat.lt_of_lt_of_le (h.past a c hc) hr.next,
    fun c n' hn' q hq => ?_, fun c n' hn' => ?_, fun q x c n' hs hx hc hn' => ?_⟩
  · rcases hback c n' hn' with ⟨n, hn, he⟩ | ⟨-, he⟩
    · exact h.queued c n hn q (he ▸ hq)
    · rw [he] at hq
      exact absurd hq List.not_mem_nil
  · rcases hback c n' hn' with ⟨n, hn, he⟩ | ⟨-, he⟩
    · rw [he]
      exact h.nodup c n hn
    · rw [he]
      exact List.nodup_nil
  · rcases hback c n' hn' with ⟨n, hn, he⟩ | ⟨hle, -⟩
    · rw [he]
      exact h.listed q x c n hs hx hc hn
    · exact absurd (h.past _ _ hc) (by omega)

/-- a change of a semaphore that leaves its name and its waiters alone -/
theorem alter (h : Waiters slot r w) (a : Nat) {f : Sem → Sem}
    (hf : ∀ m, r.heap a = some m →
      (f m).name = m.name ∧ (f m).blockedProcesses.elems = m.blockedProcesses.elems)
    (hwf : (r.modify a f).Wf) : Waiters slot (r.modify a f) w := by
  have hback : ∀ c n', (r.modify a f).heap c = some n' →
      ∃ n, r.heap c = some n ∧ n'.blockedProcesses.elems = n.blockedProcesses.elems := by
    intro c n' hn'
    obtain ⟨n, hn, ⟨rfl, rfl⟩ | ⟨-, rfl⟩⟩ := of_modify hn'
    · exact ⟨n, hn, (hf n hn).2⟩
    · exact ⟨n', hn, rfl⟩
  refine ⟨hwf, h.inj, h.alive, h.past, fun c n' hn' q hq => ?_, fun c n' hn' => ?_,
    fun q x c n' hs hx hc hn' => ?_⟩
  · obtain ⟨n, hn, he⟩ := hback c n' hn'
    exact h.queued c n hn q (he ▸ hq)
  · obtain ⟨n, hn, he⟩ := hback c n' hn'
    rw [he]
    exact h.nodup c n hn
  · obtain ⟨n, hn, he⟩ := hback c n' hn'
    rw [he]
    exact h.listed q x c n hs hx hc hn

theorem take (h : Waiters slot r w) (a : Nat) : Waiters slot (r.modify a takeSem) w :=
  h.alter a (fun _ _ => ⟨rfl, rfl⟩) (h.wf.modify a fun _ => rfl)

/-! ## a post -/

/-- the slots after a post, looked at one by one -/
theorem of_woken {q : Int} {x : Slot}
    (hx : Function.update slot pid ((slot pid).map Sched.wakeSlot) q = some x) :
    ∃ y, slot q = some y ∧ x.proc = y.proc ∧ x.dead = y.dead ∧
      (q ≠ pid → x = y) ∧ (x.blocked = true → q ≠ pid) := by
  by_cases e : q = pid
  · subst e
    rw [Function.update_self] at hx
    obtain ⟨y, hy, rfl⟩ := Option.map_eq_some_iff.mp hx
    exact ⟨y, hy, rfl, rfl, fun hne => absurd rfl hne, fun hb => absurd hb (by simp [Sched.wakeSlot])⟩
  · rw [Function.update_of_ne e] at hx
    exact ⟨x, hx, rfl, rfl, fun _ => rfl, fun _ => e⟩

theorem post (h : Waiters slot r w) (a : Nat) :
    Waiters (wokenSlots slot (headWaiter r a)) (r.modify a postSem) w := by
  cases hm : r.heap a with
  | none =>
    have hh : headWaiter r a = none := by unfold headWaiter; rw [hm]; rfl
    rw [hh, SemReg.modify_of_none _ hm]
    exact h
  | some m =>
    have hwf := h.wf.modify a (f := postSem) postSem_name
    cases hq : m.blockedProcesses.elems with
    | nil =>
      have hh : headWaiter r a = none := by unfold headWaiter; rw [hm]; exact congrArg List.head? hq
      rw [hh]
      refine h.alter a (fun n hn => ?_) hwf
      obtain rfl := Option.some.inj (hm.symm.trans hn)
      rw [postSem_nil hq]
      exact ⟨rfl, rfl⟩
    | cons pid rest =>
      have hh : headWaiter r a = some pid := by
        unfold headWaiter; rw [hm]; exact congrArg List.head? hq
      rw [hh]
      show Waiters (Function.update slot pid ((slot pid).map Sched.wakeSlot)) _ w
      have hrest : (postSem m).blockedProcesses.elems = rest := (postSem_cons hq).1
      have hnd : pid ∉ rest ∧ rest.Nodup := by
        have := h.nodup a m hm
        rw [hq] at this
        exact List.nodup_cons.mp this
      have hpid := h.queued a m hm pid (by rw [hq]; exact List.mem_cons_self)
      -- the semaphore `a` has lost its first waiter, the others are as they were
      have hback : ∀ c n', (r.modify a postSem).heap c = some n' → ∃ n, r.heap c = some n ∧
          ((c = a ∧ n = m ∧ n'.blockedProcesses.elems = rest) ∨ (c ≠ a ∧ n' = n)) := by
        intro c n' hn'
        obtain ⟨n, hn, ⟨rfl, rfl⟩ | hne⟩ := of_modify hn'
        · obtain rfl := Option.some.inj (hm.symm.trans hn)
          exact ⟨m, hn, Or.inl ⟨rfl, rfl, hrest⟩⟩
        · exact ⟨n, hn, Or.inr hne⟩
      refine ⟨hwf, h.inj_of_back fun q x hx => ?_, fun q x hx hb => ?_, h.past,
        fun c n' hn' q hq' => ?_, fun c n' hn' => ?_, fun q x c n' hx hb hc hn' => ?_⟩
      · obtain ⟨y, hy, hproc, -⟩ := of_woken hx
        exact ⟨y, hy, hproc⟩
      · obtain ⟨y, hy, -, hd, hsame, hne⟩ := of_woken hx
        obtain rfl := hsame (hne hb)
        exact h.alive q x hy hb
      · obtain ⟨n, hn, ⟨rfl, rfl, he⟩ | ⟨hca, rfl⟩⟩ := hback c n' hn'
        · rw [he] at hq'
          obtain ⟨h2, h64, hx⟩ := h.queued c n hn q (by rw [hq]; exact List.mem_cons_of_mem _ hq')
          have hne : q ≠ pid := fun e => hnd.1 (e ▸ hq')
          refine ⟨h2, h64, fun x hs => ?_⟩
          rw [Function.update_of_ne hne] at hs
          exact hx x hs
        · obtain ⟨h2, h64, hx⟩ := h.queued c n' hn q hq'
          refine ⟨h2, h64, fun x hs => ?_⟩
          obtain ⟨y, hy, -, -, hsame, -⟩ := of_woken hs
          have hne : q ≠ pid := by
            rintro rfl
            have hwa := (hpid.2.2 y hy).2
            have hwc := (hx y hy).2
            exact hca (Option.some.inj (hwc.symm.trans hwa))
          obtain rfl := hsame hne
          exact hx x hy
      · obtain ⟨n, hn, ⟨rfl, rfl, he⟩ | ⟨hca, rfl⟩⟩ := hback c n' hn'
        · rw [he]
          exact hnd.2
        · exact h.nodup c n' hn
      · obtain ⟨y, hy, -, -, hsame, hne⟩ := of_woken hx
        obtain rfl := hsame (hne hb)
        obtain ⟨n, hn, ⟨rfl, rfl, he⟩ | ⟨hca, rfl⟩⟩ := hback c n' hn'
        · have hmem := h.listed q x c n hy hb hc hn
          rw [hq] at hmem
          rw [he]
          exact (List.mem_cons.mp hmem).resolve_left (hne hb)
        · exact h.listed q x c n' hy hb hc hn

/-! ## a wait -/

theorem wait (h : Waiters slot r w) (hm : r.heap a = some m) {d : Bool}
    (hs : slot pid = some ⟨b, false, d⟩) (h2 : 2 ≤ pid) (h64 : pid < maxProcesses) :
    Waiters (Function.update slot pid (some ⟨b, true, false⟩)) (r.modify a (queueSem pid))
      (Function.update w b (some a)) := by
  have hun : Unqueued r pid := h.unqueued_of_awake hs rfl
  have hold : ∀ q x, q ≠ pid → slot q = some x → Function.update w b (some a) x.proc = w x.proc := by
    intro q x hq hx
    have hne : x.proc ≠ b := fun e => hq (h.inj q pid x _ hx hs e)
    exact Function.update_of_ne hne ..
  have hback : ∀ c n', (r.modify a (queueSem pid)).heap c = some n' → ∃ n, r.heap c = some n ∧
      ((c = a ∧ n'.blockedProcesses.elems = n.blockedProcesses.elems ++ [pid]) ∨
        (c ≠ a ∧ n' = n)) := by
    intro c n' hn'
    obtain ⟨n, hn, hcase⟩ := of_modify hn'
    exact ⟨n, hn, hcase.imp_left fun hc => ⟨hc.1, by rw [hc.2]; rfl⟩⟩
  have hkeep : ∀ c n, r.heap c = some n → ∀ q ∈ n.blockedProcesses.elems, 2 ≤ q ∧
      q < maxProcesses ∧ ∀ x, Function.update slot pid (some ⟨b, true, false⟩) q = some x →
        x.blocked = true ∧ Function.update w b (some a) x.proc = some c := by
    intro c n hn q hq
    have hne : q ≠ pid := fun e => hun c n hn (e ▸ hq)
    obtain ⟨hq2, hq64, hx⟩ := h.queued c n hn q hq
    refine ⟨hq2, hq64, fun x hsx => ?_⟩
    rw [Function.update_of_ne hne] at hsx
    rw [hold q x hne hsx]
    exact hx x hsx
  refine ⟨h.wf.modify a fun _ => rfl, h.inj_of_back fun q x hx => of_refilled hs hx rfl,
    fun q x hx hb => ?_, fun c c' hc => ?_, fun c n' hn' q hq => ?_, fun c n' hn' => ?_,
    fun q x c n' hx hb hc hn' => ?_⟩
  · by_cases e : q = pid
    · subst e
      rw [Function.update_self] at hx
      obtain rfl := Option.some.inj hx
      rfl
    · rw [Function.update_of_ne e] at hx
      exact h.alive q x hx hb
  · by_cases e : c = b
    · subst e
      rw [Function.update_self] at hc
      obtain rfl := Option.some.inj hc
      exact h.wf.lt_next hm
    · rw [Function.update_of_ne e] at hc
      exact h.past c c' hc
  · obtain ⟨n, hn, ⟨rfl, he⟩ | ⟨-, rfl⟩⟩ := hback c n' hn'
    · rw [he] at hq
      rcases List.mem_append.mp hq with hq | hq
      · exact hkeep c n hn q hq
      · obtain rfl := List.mem_singleton.mp hq
        refine ⟨h2, h64, fun x hx => ?_⟩
        rw [Function.update_self] at hx
        obtain rfl := Option.some.inj hx
        exact ⟨rfl, Function.update_self ..⟩
    · exact hkeep c n' hn q hq
  · obtain ⟨n, hn, ⟨rfl, he⟩ | ⟨-, rfl⟩⟩ := hback c n' hn'
    · rw [he]
      refine List.nodup_append.mpr ⟨h.nodup c n hn, List.nodup_singleton _, ?_⟩
      rintro q hq q' hq' rfl
      obtain rfl := List.mem_singleton.mp hq'
      exact hun c n hn hq
    · exact h.nodup c n' hn
  · obtain ⟨n, hn, hcase⟩ := hback c n' hn'
    by_cases e : q = pid
    · subst e
      rw [Function.update_self] at hx
      obtain rfl := Option.some.inj hx
      rw [Function.update_self] at hc
      rcases hcase with ⟨rfl, he⟩ | ⟨hca, rfl⟩
      · rw [he]
        exact List.mem_append_right _ (List.mem_singleton_self q)
      · exact absurd (Option.some.inj hc).symm hca
    · rw [Function.update_of_ne e] at hx
      rw [hold q x e hx] at hc
      have hmem := h.listed q x c n hx hb hc hn
      rcases hcase with ⟨rfl, he⟩ | ⟨hca, rfl⟩
      · rw [he]
        exact List.mem_append_left _ hmem
      · exact hmem

/-! ## changes of the slots -/

/-- processes may go, and awake ones may come into slots that no queue speaks of -/
theorem reslot (h : Waiters slot r w)
    (hinj : ∀ p q x y, slot' p = some x → slot' q = some y → x.proc = y.proc → p = q)
    (hback : ∀ q x, slot' q = some x → slot q = some x ∨ (x.blocked = false ∧ Unqueued r q)) :
    Waiters slot' r w := by
  refine ⟨h.wf, hinj, fun q x hx hb => ?_, h.past, fun c n hn q hq => ?_, h.nodup,
    fun q x c n hx hb hc hn => ?_⟩
  · rcases hback q x hx with hx | ⟨hx, -⟩
    · exact h.alive q x hx hb
    · rw [hx] at hb
      exact absurd hb (by simp)
  · obtain ⟨h2, h64, hs⟩ := h.queued c n hn q hq
    refine ⟨h2, h64, fun x hx => ?_⟩
    rcases hback q x hx with hx | ⟨-, hun⟩
    · exact hs x hx
    · exact absurd hq (hun c n hn)
  · rcases hback q x hx with hx | ⟨hx, -⟩
    · exact h.listed q x c n hx hb hc hn
    · rw [hx] at hb
      exact absurd hb (by simp)

theorem erase (h : Waiters slot r w) (pid : Int) :
    Waiters (Function.update slot pid none) r w := by
  have hback : ∀ q x, Function.update slot pid none q = some x → slot q = some x := by
    intro q x hx
    by_cases e : q = pid
    · subst e
      rw [Function.update_self] at hx
      exact absurd hx (by simp)
    · rwa [Function.update_of_ne e] at hx
  exact h.reslot (h.inj_of_back fun q x hx => ⟨x, hback q x hx, rfl⟩) fun q x hx => Or.inl (hback q x hx)

theorem reap (h : Waiters slot r w) : Waiters (fun q => Sched.reapOf (slot q)) r w := by
  have hback : ∀ q x, Sched.reapOf (slot q) = some x → slot q = some x :=
    fun q x hx => (Option.filter_eq_some_iff.mp hx).1
  exact h.reslot (h.inj_of_back fun q x hx => ⟨x, hback q x hx, rfl⟩) fun q x hx => Or.inl (hback q x hx)

theorem dies (h : Waiters slot r w) {d : Bool} (hs : slot pid = some ⟨b, false, d⟩) :
    Waiters (Function.update slot pid (some ⟨b, false, true⟩)) r w := by
  have hun : Unqueued r pid := h.unqueued_of_awake hs rfl
  refine h.reslot (h.inj_of_back fun q x hx => of_refilled hs hx rfl) fun q x hx => ?_
  by_cases e : q = pid
  · subst e
    rw [Function.update_self] at hx
    obtain rfl := Option.some.inj hx
    exact Or.inr ⟨rfl, hun⟩
  · rw [Function.update_of_ne e] at hx
    exact Or.inl hx

theorem born (h : Waiters slot r w) (hun : Unqueued r pid) (hn : ∀ q x, slot q = some x → x.proc ≠ b) :
    Waiters (bornSlots slot pid b) r w := by
  have hback : ∀ q x, bornSlots slot pid b q = some x →
      (q = pid ∧ x = ⟨b, false, false⟩) ∨ (q ≠ pid ∧ slot q = some x) := by
    intro q x hx
    unfold bornSlots at hx
    by_cases e : q = pid
    · rw [if_pos e] at hx
      exact Or.inl ⟨e, (Option.some.inj hx).symm⟩
    · rw [if_neg e] at hx
      exact Or.inr ⟨e, (Option.filter_eq_some_iff.mp hx).1⟩
  refine h.reslot (fun p q x y hx hy he => ?_) fun q x hx => ?_
  · rcases hback p x hx with ⟨rfl, rfl⟩ | ⟨-, hx'⟩ <;>
      rcases hback q y hy with ⟨rfl, rfl⟩ | ⟨-, hy'⟩
    · rfl
    · exact absurd he.symm (hn q y hy')
    · exact absurd he (hn p x hx')
    · exact h.inj p q x y hx' hy' he
  · rcases hback q x hx with ⟨rfl, rfl⟩ | ⟨-, hx⟩
    · exact Or.inr ⟨rfl, hun⟩
    · exact Or.inl hx

end Waiters

end Tp2So
