import Tp2So.Sync.Posts

/-!
# Waiting for a process under reuse of pids

`wait_child(pid)` waits on the semaphore `wait_<pid>`, which outlives the process.  The run keeps, for
every process suspended in a `wait_child`, the process that was in the slot when it called
(`Pending.target`), and two lists: the processes that have been killed or have reached the post of
`process_terminator` (`gone`), and the targets of the calls that have returned `0` (`answered`).

* `WaitOp.fresh`      a new process gets a pid with no exit left over: no token on its semaphore and
                      no place in a blocked queue; and only processes that can be blocked wait;
* `Vigil`             the invariant: a live process has no tokens on its semaphore, and whoever waits
                      is still asleep, or its target is gone;
* `wait_sound_run`    in a run of fresh steps a `wait_child` returns `0` for processes gone only.
-/

set_option linter.unusedVariables false

namespace Tp2So

/-- a suspended `wait_child`: the pid it was given, its semaphore, the process it is about -/
structure Pending where
  pid : Int
  sem : Nat
  target : Nat

structure WaitSys where
  k : Kernel
  waitsOn : Nat → Option Nat
  pending : Nat → Option Pending
  gone : List Nat
  answered : List Nat

inductive WaitOp where
  | create (args : CreateArgs)
  | kill (pid : Int)
  | terminate
  | reap
  | waitChild (pid : Int)
  | resume
  | schedule (fuel rsp : Nat)

/-- the process `b`, which is or was in slot `pid`, is gone -/
def WaitSys.mourn (t : WaitSys) (k : Kernel) (b : Nat) : WaitSys :=
  { t with k, pending := Function.update t.pending b none, gone := t.gone ++ [b] }

def execWait : WaitOp → WaitSys → Option WaitSys
  | .create args, t => some { t with k := (createProcess t.k args).2 }
  | .kill pid, t =>
    match killProcess t.k pid, getProcess t.k.sched pid with
    | (0, k), some b => some (t.mourn k b)
    | (_, k), _ => some { t with k }
  | .terminate, t =>
    match t.k.sched.actor with
    | none => none
    | some (b, _) =>
      if t.k.sched.running = t.k.sched.idle ∨ (t.pending b).isSome then none
      else (processTerminator t.k).map fun k => t.mourn k b
  | .reap, t => some { t with k := { t.k with sched := reapTerminatedProcesses t.k.sched } }
  | .waitChild pid, t =>
    match t.k.sched.actor with
    | none => none
    | some (b, _) =>
      if (t.pending b).isSome then none
      else
        match waitChild t.k pid, getProcess t.k.sched pid with
        | (.suspended c, k), some a =>
          some { t with k, waitsOn := Function.update t.waitsOn b (some c)
                        pending := Function.update t.pending b (some ⟨pid, c, a⟩) }
        | (.returned, k), some a => some { t with k, answered := t.answered ++ [a] }
        | (_, k), _ => some { t with k }
  | .resume, t =>
    match t.k.sched.actor with
    | none => none
    | some (b, _) =>
      (t.pending b).map fun q =>
        { t with k := waitChildResume t.k q.pid q.sem
                 pending := Function.update t.pending b none
                 answered := t.answered ++ [q.target] }
  | .schedule fuel rsp, t =>
    (schedule fuel rsp t.k.sched).map fun r => { t with k := { t.k with sched := r.2 } }

/-- the exit semaphore of this pid has no token -/
def noToken (r : SemReg) (pid : Int) : Bool :=
  (buildWaitSemaphoreName pid).all fun name =>
    (locateSemaphoreByName r name).all fun c => (r.heap c).all fun m => m.value == 0

/-- a new process gets a pid that nothing speaks of any more, and the idle process and `init`, which
`block_process` refuses, do not wait -/
def WaitOp.fresh : WaitOp → WaitSys → Bool
  | .create _, t =>
    (assignPid t.k.sched).all fun pid => unqueued t.k.sems pid && noToken t.k.sems pid
  | .waitChild _, t => t.k.sched.actor.all fun x => 2 ≤ x.2.pid
  | _, _ => true

/-! ## the invariant -/

/-- the process `b`, in the slot `x`, still sleeps on the semaphore of its target's pid, and the
target is in the slot of that pid -/
structure Asleep (slot : Int → Option Slot) (r : SemReg) (w : Nat → Option Nat) (b : Nat)
    (q : Pending) (x : Slot) : Prop where
  blocked : x.blocked = true
  waits : w b = some q.sem
  name : ∀ m, r.heap q.sem = some m → buildWaitSemaphoreName q.pid = some m.name
  target : ∃ y, slot q.pid = some y ∧ y.proc = q.target

structure Vigil (slot : Int → Option Slot) (r : SemReg) (w : Nat → Option Nat)
    (pending : Nat → Option Pending) (gone : List Nat) : Prop where
  waiters : Waiters slot r w
  tokens : ∀ c m q x, r.heap c = some m → buildWaitSemaphoreName q = some m.name →
    slot q = some x → x.dead = false → m.value = 0
  dead : ∀ q x, slot q = some x → x.dead = true → x.proc ∈ gone
  pend : ∀ b q, pending b = some q → ∃ p x, slot p = some x ∧ x.proc = b ∧ x.dead = false ∧
    (q.target ∈ gone ∨ Asleep slot r w b q x)

namespace Vigil
variable {slot slot' : Int → Option Slot} {r r' : SemReg} {w : Nat → Option Nat}
  {pending : Nat → Option Pending} {gone : List Nat} {a b c : Nat} {pid : Int} {m : Sem}
  {name : List Char}

theorem renews (h : Vigil slot r w pending gone) (hr : SemReg.Renews r r' (SemReg.fresh name 0)) :
    Vigil slot r' w pending gone := by
  refine ⟨h.waiters.renews hr rfl, fun c m q x hm hn hx hd => ?_, h.dead, fun b q hq => ?_⟩
  · rcases hr.back c m hm with ⟨n, hn', he, hv, -⟩ | ⟨-, -, hv, -⟩
    · rw [hv]
      exact h.tokens c n q x hn' (by rw [← he]; exact hn) hx hd
    · rw [hv]
      rfl
  · obtain ⟨p, x, hx, hb, hd, hg | hs⟩ := h.pend b q hq
    · exact ⟨p, x, hx, hb, hd, Or.inl hg⟩
    · refine ⟨p, x, hx, hb, hd, Or.inr ⟨hs.blocked, hs.waits, fun m hm => ?_, hs.target⟩⟩
      rcases hr.back q.sem m hm with ⟨n, hn, he, -⟩ | ⟨hle, -⟩
      · rw [he]
        exact hs.name n hn
      · exact absurd (h.waiters.past _ _ hs.waits) (by omega)

/-- TERMINATED processes leave their slots, and one process may come into a slot it does not share
with a live one -/
theorem reslot (h : Vigil slot r w pending gone) (hw : Waiters slot' r w)
    (hback : ∀ q x, slot' q = some x → slot q = some x ∨
      (x.dead = false ∧ noToken r q = true))
    (hkeep : ∀ q x, slot q = some x → x.dead = false → slot' q = some x) :
    Vigil slot' r w pending gone := by
  refine ⟨hw, fun c m q x hm hn hx hd => ?_, fun q x hx hd => ?_, fun b q hq => ?_⟩
  · rcases hback q x hx with hx | ⟨-, hno⟩
    · exact h.tokens c m q x hm hn hx hd
    · unfold noToken at hno
      rw [hn] at hno
      have hl := h.waiters.wf.locate hm
      simp only [Option.all_some, hl, hm, beq_iff_eq] at hno
      exact hno
  · rcases hback q x hx with hx | ⟨hf, -⟩
    · exact h.dead q x hx hd
    · rw [hf] at hd
      exact absurd hd (by simp)
  · obtain ⟨p, x, hx, hb, hd, hs⟩ := h.pend b q hq
    refine ⟨p, x, hkeep p x hx hd, hb, hd, ?_⟩
    rcases hs with hg | hs
    · exact Or.inl hg
    · obtain ⟨y, hy, hyt⟩ := hs.target
      by_cases hyd : y.dead = true
      · exact Or.inl (hyt ▸ h.dead _ y hy hyd)
      · have hyf : y.dead = false := Bool.eq_false_iff.mpr hyd
        exact Or.inr ⟨hs.blocked, hs.waits, hs.name, y, hkeep _ y hy hyf, hyt⟩

theorem reap (h : Vigil slot r w pending gone) :
    Vigil (fun q => Sched.reapOf (slot q)) r w pending gone :=
  h.reslot h.waiters.reap (fun q x hx => Or.inl (Option.filter_eq_some_iff.mp hx).1)
    fun q x hx hd => Option.filter_eq_some_iff.mpr ⟨hx, by rw [hd]; rfl⟩

theorem born (h : Vigil slot r w pending gone) (hun : Unqueued r pid) (hno : noToken r pid = true)
    (hn : ∀ q x, slot q = some x → x.proc ≠ b)
    (hfree : ∀ x, slot pid = some x → x.dead = true) :
    Vigil (bornSlots slot pid b) r w pending gone := by
  refine h.reslot (h.waiters.born hun hn) (fun q x hx => ?_) fun q x hx hd => ?_
  · unfold bornSlots at hx
    by_cases e : q = pid
    · subst e
      rw [if_pos rfl] at hx
      obtain rfl := Option.some.inj hx
      exact Or.inr ⟨rfl, hno⟩
    · rw [if_neg e] at hx
      exact Or.inl (Option.filter_eq_some_iff.mp hx).1
  · have hne : q ≠ pid := by
      rintro rfl
      rw [hfree x hx] at hd
      exact absurd hd (by simp)
    unfold bornSlots
    rw [if_neg hne]
    exact Option.filter_eq_some_iff.mpr ⟨hx, by rw [hd]; rfl⟩

theorem take (h : Vigil slot r w pending gone) (a : Nat) :
    Vigil slot (r.modify a takeSem) w pending gone := by
  have hback : ∀ c m, (r.modify a takeSem).heap c = some m →
      ∃ n, r.heap c = some n ∧ m.name = n.name ∧ m.value ≤ n.value := by
    intro c m hm
    obtain ⟨n, hn, rfl⟩ := heapMod_some hm
    refine ⟨n, hn, ?_⟩
    split
    · exact ⟨rfl, Nat.sub_le _ _⟩
    · exact ⟨rfl, Nat.le_refl _⟩
  refine ⟨h.waiters.take a, fun c m q x hm hn hx hd => ?_, h.dead, fun b q hq => ?_⟩
  · obtain ⟨n, hn', he, hle⟩ := hback c m hm
    have hz := h.tokens c n q x hn' (by rw [← he]; exact hn) hx hd
    omega
  · obtain ⟨p, x, hx, hb, hd, hg | hs⟩ := h.pend b q hq
    · exact ⟨p, x, hx, hb, hd, Or.inl hg⟩
    · refine ⟨p, x, hx, hb, hd, Or.inr ⟨hs.blocked, hs.waits, fun m hm => ?_, hs.target⟩⟩
      obtain ⟨n, hn, he, -⟩ := hback _ m hm
      rw [he]
      exact hs.name n hn

theorem wait (h : Vigil slot r w pending gone) {q : Pending} (hm : r.heap q.sem = some m)
    (hname : buildWaitSemaphoreName q.pid = some m.name)
    (hs : slot pid = some ⟨b, false, false⟩) (h2 : 2 ≤ pid) (h64 : pid < maxProcesses)
    (ht : ∃ y, slot q.pid = some y ∧ y.proc = q.target) :
    Vigil (Function.update slot pid (some ⟨b, true, false⟩)) (r.modify q.sem (queueSem pid))
      (Function.update w b (some q.sem)) (Function.update pending b (some q)) gone := by
  have hback : ∀ c n, (r.modify q.sem (queueSem pid)).heap c = some n →
      ∃ n', r.heap c = some n' ∧ n.name = n'.name ∧ n.value = n'.value := by
    intro c n hn
    obtain ⟨n', hn', rfl⟩ := heapMod_some hn
    refine ⟨n', hn', ?_⟩
    split <;> exact ⟨rfl, rfl⟩
  have hslot : ∀ p x, Function.update slot pid (some ⟨b, true, false⟩) p = some x →
      ∃ y, slot p = some y ∧ x.proc = y.proc ∧ x.dead = y.dead := by
    intro p x hx
    by_cases e : p = pid
    · subst e
      rw [Function.update_self] at hx
      obtain rfl := Option.some.inj hx
      exact ⟨_, hs, rfl, rfl⟩
    · rw [Function.update_of_ne e] at hx
      exact ⟨x, hx, rfl, rfl⟩
  have htarget : ∀ p t, (∃ y, slot p = some y ∧ y.proc = t) →
      ∃ y, Function.update slot pid (some ⟨b, true, false⟩) p = some y ∧ y.proc = t := by
    rintro p t ⟨y, hy, hyt⟩
    by_cases e : p = pid
    · subst e
      rw [Function.update_self]
      obtain rfl := Option.some.inj (hs.symm.trans hy)
      exact ⟨_, rfl, hyt⟩
    · rw [Function.update_of_ne e]
      exact ⟨y, hy, hyt⟩
  refine ⟨h.waiters.wait hm hs h2 h64, fun c n p x hn hp hx hd => ?_, fun p x hx hd => ?_,
    fun b' q' hq' => ?_⟩
  · obtain ⟨n', hn', he, hv⟩ := hback c n hn
    obtain ⟨y, hy, -, hyd⟩ := hslot p x hx
    rw [hv]
    exact h.tokens c n' p y hn' (by rw [← he]; exact hp) hy (by rw [← hyd]; exact hd)
  · obtain ⟨y, hy, hyp, hyd⟩ := hslot p x hx
    rw [hyp]
    exact h.dead p y hy (by rw [← hyd]; exact hd)
  · by_cases e : b' = b
    · subst e
      rw [Function.update_self] at hq'
      obtain rfl := Option.some.inj hq'
      refine ⟨pid, ⟨b', true, false⟩, Function.update_self .., rfl, rfl, Or.inr ⟨rfl,
        Function.update_self .., fun n hn => ?_, htarget _ _ ht⟩⟩
      obtain ⟨n', hn', he, -⟩ := hback _ n hn
      obtain rfl := Option.some.inj (hm.symm.trans hn')
      rw [he]
      exact hname
    · rw [Function.update_of_ne e] at hq'
      obtain ⟨p, x, hx, hb, hd, hcase⟩ := h.pend b' q' hq'
      have hne : p ≠ pid := by
        rintro rfl
        obtain rfl := Option.some.inj (hs.symm.trans hx)
        exact e hb.symm
      refine ⟨p, x, by rw [Function.update_of_ne hne]; exact hx, hb, hd, ?_⟩
      rcases hcase with hg | hsl
      · exact Or.inl hg
      · refine Or.inr ⟨hsl.blocked, by rw [Function.update_of_ne e]; exact hsl.waits,
          fun n hn => ?_, htarget _ _ hsl.target⟩
        obtain ⟨n', hn', he, -⟩ := hback _ n hn
        rw [he]
        exact hsl.name n' hn'

/-- a call of `wait_child` that has returned is over -/
theorem ended (h : Vigil slot r w pending gone) (b : Nat) :
    Vigil slot r w (Function.update pending b none) gone := by
  refine ⟨h.waiters, h.tokens, h.dead, fun b' q hq => ?_⟩
  by_cases e : b' = b
  · subst e
    rw [Function.update_self] at hq
    exact absurd hq (by simp)
  · rw [Function.update_of_ne e] at hq
    exact h.pend b' q hq

/-- the slots after a post, with their processes and their dead -/
theorem woken_slot (head : Option Int) {q : Int} {y : Slot} (hy : slot q = some y) :
    ∃ y', wokenSlots slot head q = some y' ∧ y'.proc = y.proc ∧ y'.dead = y.dead ∧
      (head ≠ some q → y' = y) := by
  unfold wokenSlots
  cases head with
  | none => exact ⟨y, hy, rfl, rfl, fun _ => rfl⟩
  | some p =>
    rw [Option.elim_some]
    by_cases e : q = p
    · subst e
      rw [Function.update_self, hy]
      exact ⟨Sched.wakeSlot y, rfl, rfl, rfl, fun hne => absurd rfl hne⟩
    · rw [Function.update_of_ne e]
      exact ⟨y, hy, rfl, rfl, fun _ => rfl⟩

theorem of_woken_slot {head : Option Int} {q : Int} {y' : Slot}
    (hy : wokenSlots slot head q = some y') :
    ∃ y, slot q = some y ∧ y'.proc = y.proc ∧ y'.dead = y.dead := by
  unfold wokenSlots at hy
  cases head with
  | none => exact ⟨y', hy, rfl, rfl⟩
  | some p =>
    obtain ⟨y, hy, hp, hd, -⟩ := Waiters.of_woken hy
    exact ⟨y, hy, hp, hd⟩

/-- **A death**: a post on the exit semaphore of `pid`, and the process of that slot is gone. -/
theorem post (h : Vigil slot r w pending gone) {x : Slot} (hx : slot pid = some x)
    (hm : r.heap c = some m) (hname : buildWaitSemaphoreName pid = some m.name) {fin : Option Slot}
    (hfin : ∀ y, fin = some y → y.proc = x.proc ∧ y.dead = true)
    (hw : Waiters (Function.update (wokenSlots slot (headWaiter r c)) pid fin)
      (r.modify c postSem) w) :
    Vigil (Function.update (wokenSlots slot (headWaiter r c)) pid fin) (r.modify c postSem) w
      (Function.update pending x.proc none) (gone ++ [x.proc]) := by
  have hmem : x.proc ∈ gone ++ [x.proc] := List.mem_append_right _ (List.mem_singleton_self _)
  have hback : ∀ d n, (r.modify c postSem).heap d = some n →
      ∃ n', r.heap d = some n' ∧ n.name = n'.name ∧ (d ≠ c → n = n') := by
    intro d n hn
    obtain ⟨n', hn', rfl⟩ := heapMod_some hn
    refine ⟨n', hn', ?_⟩
    by_cases e : d = c
    · rw [if_pos e]
      exact ⟨postSem_name n', fun hne => absurd e hne⟩
    · rw [if_neg e]
      exact ⟨rfl, fun _ => rfl⟩
  refine ⟨hw, fun d n q y hn hq hy hd => ?_, fun q y hy hd => ?_, fun b q hq => ?_⟩
  · have hne : q ≠ pid := by
      rintro rfl
      rw [Function.update_self] at hy
      rw [(hfin y hy).2] at hd
      exact absurd hd (by simp)
    rw [Function.update_of_ne hne] at hy
    obtain ⟨y0, hy0, -, hyd⟩ := of_woken_slot hy
    obtain ⟨n', hn', he, hsame⟩ := hback d n hn
    have hdc : d ≠ c := by
      rintro rfl
      obtain rfl := Option.some.inj (hm.symm.trans hn')
      exact hne (buildWaitSemaphoreName_inj hq (by rw [he]; exact hname))
    rw [hsame hdc]
    exact h.tokens d n' q y0 hn' (by rw [← he]; exact hq) hy0 (by rw [← hyd]; exact hd)
  · by_cases e : q = pid
    · subst e
      rw [Function.update_self] at hy
      rw [(hfin y hy).1]
      exact hmem
    · rw [Function.update_of_ne e] at hy
      obtain ⟨y0, hy0, hyp, hyd⟩ := of_woken_slot hy
      rw [hyp]
      exact List.mem_append_left _ (h.dead q y0 hy0 (by rw [← hyd]; exact hd))
  · have hbx : b ≠ x.proc := by
      rintro rfl
      rw [Function.update_self] at hq
      exact absurd hq (by simp)
    rw [Function.update_of_ne hbx] at hq
    obtain ⟨p, y, hy, hyb, hyd, hcase⟩ := h.pend b q hq
    have hne : p ≠ pid := by
      rintro rfl
      obtain rfl := Option.some.inj (hx.symm.trans hy)
      exact hbx hyb.symm
    obtain ⟨y', hy', hyp', hyd', hsame⟩ := woken_slot (headWaiter r c) hy
    refine ⟨p, y', by rw [Function.update_of_ne hne]; exact hy', hyp'.trans hyb, hyd'.trans hyd, ?_⟩
    rcases hcase with hg | hs
    · exact Or.inl (List.mem_append_left _ hg)
    · obtain ⟨z, hz, hzt⟩ := hs.target
      by_cases hq' : q.pid = pid
      · -- the target is the process that dies
        rw [hq', hx] at hz
        rw [← hzt, ← Option.some.inj hz]
        exact Or.inl hmem
      · refine Or.inr ?_
        have hhead : headWaiter r c ≠ some p := by
          intro hh
          obtain ⟨n, hn, hnq⟩ := Option.bind_eq_some_iff.mp hh
          obtain rfl := Option.some.inj (hm.symm.trans hn)
          have hwc := ((h.waiters.queued c m hm p (List.mem_of_mem_head? hnq)).2.2 y hy).2
          rw [hyb, hs.waits] at hwc
          have hsem := Option.some.inj hwc
          exact hq' (buildWaitSemaphoreName_inj (hs.name m (by rw [hsem]; exact hm)) hname)
        rw [hsame hhead]
        obtain ⟨z', hz', hzp, -⟩ := woken_slot (headWaiter r c) hz
        refine ⟨hs.blocked, hs.waits, fun n hn => ?_, z', ?_, hzp.trans hzt⟩
        · obtain ⟨n', hn', he, -⟩ := hback _ n hn
          rw [he]
          exact hs.name n' hn'
        · rw [Function.update_of_ne hq']
          exact hz'

/-- the same, with the opening and closing around the post -/
theorem death (h : Vigil slot r w pending gone) {x : Slot} (hx : slot pid = some x)
    (hname : buildWaitSemaphoreName pid = some name) (ho : semOpen r name 0 = (some c, r'))
    {fin : Option Slot}
    (hfin : fin = none ∨ (fin = some ⟨x.proc, false, true⟩ ∧ x.blocked = false)) :
    Vigil (Function.update (wokenSlots slot (headWaiter r' c)) pid fin) (announced r' c) w
      (Function.update pending x.proc none) (gone ++ [x.proc]) := by
  have hren := SemReg.renews_semOpen h.waiters.wf name 0
  obtain ⟨m, hm, hmn⟩ := SemReg.semOpen_name h.waiters.wf ho
  rw [ho] at hren
  have h1 := h.renews hren
  have hfin' : ∀ y, fin = some y → y.proc = x.proc ∧ y.dead = true := by
    intro y hy
    rcases hfin with e | ⟨e, -⟩
    · rw [e] at hy
      exact absurd hy (by simp)
    · obtain rfl := Option.some.inj (e.symm.trans hy)
      exact ⟨rfl, rfl⟩
  have hw : Waiters (Function.update (wokenSlots slot (headWaiter r' c)) pid fin)
      (r'.modify c postSem) w := by
    rcases hfin with rfl | ⟨rfl, hxb⟩
    · exact (h1.waiters.post c).erase pid
    · -- a process that is awake is not the one the post wakes
      have hhead : headWaiter r' c ≠ some pid := by
        intro hh
        obtain ⟨n, hn, hnq⟩ := Option.bind_eq_some_iff.mp hh
        exact h1.waiters.unqueued_of_awake hx hxb c n hn (List.mem_of_mem_head? hnq)
      obtain ⟨y, hy, -, -, hsame⟩ := woken_slot (headWaiter r' c) hx
      rw [hsame hhead] at hy
      refine (h1.waiters.post c).dies (d := x.dead) ?_
      rw [hy, ← hxb]
  have h2 := h1.post hx hm (by rw [hmn]; exact hname) hfin' hw
  exact h2.renews (SemReg.renews_semClose h2.waiters.wf c (SemReg.fresh name 0))

end Vigil

/-! ## one step -/

structure WaitSys.Inv (t : WaitSys) : Prop where
  ok : t.k.sched.Ok
  noPipes : t.k.pipes.storage = []
  vigil : Vigil t.k.sched.slot t.k.sems t.waitsOn t.pending t.gone
  sound : ∀ a ∈ t.answered, a ∈ t.gone

section
variable {t t' : WaitSys} {k k' : Kernel} {a b c : Nat} {p : Process} {pid : Int}

theorem winv_create (h : t.Inv) {args : CreateArgs} (hc : (WaitOp.create args).fresh t = true) :
    WaitSys.Inv { t with k := (createProcess t.k args).2 } := by
  have hok := Sched.ok_createProcess h.ok args
  rcases createProcess_spec h.ok h.noPipes args with ⟨-, s, he, hs⟩ | ⟨pid, name, s, hp, hn, he, hs⟩
  · rw [he] at hok ⊢
    exact ⟨hok, h.noPipes, by rw [hs]; exact h.vigil, h.sound⟩
  · rw [he] at hok ⊢
    obtain ⟨-, -, hf⟩ := Sched.assignPid_spec hp
    have hcond : (unqueued t.k.sems pid && noToken t.k.sems pid) = true := by
      have hall : (assignPid t.k.sched).all
        (fun pid => unqueued t.k.sems pid && noToken t.k.sems pid) = true := hc
      rw [hp] at hall
      exact hall
    obtain ⟨hun, hno⟩ := Bool.and_eq_true_iff.mp hcond
    have hfree : ∀ x, t.k.sched.slot pid = some x → x.dead = true := by
      intro x hx
      obtain ⟨ht, p, hp, hxe⟩ := Sched.of_slot hx
      rw [hxe, Sched.slotFree_terminated hf ht hp]
      rfl
    have hborn := h.vigil.born ((unqueued_iff h.vigil.waiters.wf).mp hun) hno h.ok.slot_ne_next hfree
    refine ⟨hok, h.noPipes, ?_, h.sound⟩
    rw [hs]
    exact hborn.renews (SemReg.renews_semOpen h.vigil.waiters.wf name 0)

theorem slot_of_getProcess {s : Sched} (h : s.Ok) (hg : getProcess s pid = some a) :
    ∃ x, s.slot pid = some x ∧ x.proc = a := by
  obtain ⟨-, -, ht⟩ := getProcess_eq_some hg
  obtain ⟨-, -, p, hp, -⟩ := h.tab pid a ht
  exact ⟨_, Sched.slot_eq ht hp, rfl⟩

theorem winv_mourn (h : t.Inv) (hok : k'.sched.Ok) (hnp : k'.pipes.storage = [])
    (hv : Vigil k'.sched.slot k'.sems t.waitsOn (Function.update t.pending b none) (t.gone ++ [b])) :
    (t.mourn k' b).Inv :=
  ⟨hok, hnp, hv, fun a ha => List.mem_append_left _ (h.sound a ha)⟩

theorem winv_kill (h : t.Inv) (he : execWait (.kill pid) t = some t') : t'.Inv := by
  have hok := Sched.ok_killProcess h.ok pid
  rcases killProcess_spec h.ok h.vigil.waiters.wf h.noPipes h.vigil.waiters.range pid with
    hk | ⟨x, name, c, r, s, hx, hn, ho, hk, hs⟩
  · unfold execWait at he
    simp only [hk] at he
    obtain rfl := Option.some.inj he
    exact h
  · obtain ⟨htab, -⟩ := Sched.of_slot hx
    obtain ⟨h0, h1, -⟩ := h.ok.tab _ _ htab
    have hg : getProcess t.k.sched pid = some x.proc := (if_neg (by omega)).trans htab
    unfold execWait at he
    simp only [hk, hg] at he
    obtain rfl := Option.some.inj he
    rw [hk] at hok
    refine winv_mourn h hok h.noPipes ?_
    show Vigil s.slot _ _ _ _
    rw [hs]
    exact h.vigil.death hx hn ho (Or.inl rfl)

theorem winv_terminate (h : t.Inv) (he : execWait .terminate t = some t') : t'.Inv := by
  unfold execWait at he
  cases ha : t.k.sched.actor with
  | none => simp only [ha] at he; exact absurd he (by simp)
  | some bp =>
    obtain ⟨b, p⟩ := bp
    obtain ⟨hr, hp, hst⟩ := actor_some ha
    simp only [ha] at he
    split at he
    · exact absurd he (by simp)
    · rename_i hcond
      have hi : t.k.sched.running ≠ t.k.sched.idle := fun e => hcond (Or.inl e)
      obtain ⟨k', hk, rfl⟩ := Option.map_eq_some_iff.mp he
      obtain ⟨name, c, r, s, hn, ho, hk', hs⟩ := processTerminator_spec h.ok h.vigil.waiters.wf
        h.noPipes h.vigil.waiters.range hr hi hp
      have hok := Sched.ok_processTerminator h.ok hi hk
      obtain rfl := Option.some.inj (hk'.symm.trans hk)
      obtain ⟨p', hp', htab, -⟩ := h.ok.running b hr
      obtain rfl := Option.some.inj (hp.symm.trans hp')
      have hx := Sched.slot_eq htab hp
      rw [hst] at hx
      refine winv_mourn h hok h.noPipes ?_
      show Vigil s.slot _ _ _ _
      rw [hs]
      exact h.vigil.death hx hn ho (Or.inr ⟨rfl, rfl⟩)

/-- the end of `wait_child`: close, collect, forget the child -/
theorem waitChildResume_spec (h : k.sched.Ok) (pid : Int) (c : Nat) :
    (waitChildResume k pid c).sched.Ok ∧ (waitChildResume k pid c).pipes = k.pipes ∧
    (waitChildResume k pid c).sems = (semClose k.sems c).2 ∧
    (waitChildResume k pid c).sched.slot = fun q => Sched.reapOf (k.sched.slot q) := by
  have hok := Sched.ok_reapTerminatedProcesses h
  have hslot := Sched.slot_reap h
  unfold waitChildResume
  generalize (semClose k.sems c).2 = r
  simp only
  generalize reapTerminatedProcesses k.sched = s at hok hslot ⊢
  split
  · exact ⟨hok, rfl, rfl, hslot⟩
  · have hq : Process.Quiet fun p => { p with children := p.children.erase pid } :=
      fun _ => ⟨rfl, rfl, rfl⟩
    exact ⟨hok.quiet _ hq, rfl, rfl, (Sched.calm_quiet hq).slot.trans hslot⟩

theorem vigil_resume (h : k.sched.Ok) {w : Nat → Option Nat} {pending : Nat → Option Pending}
    {gone : List Nat} (hv : Vigil k.sched.slot k.sems w pending gone) (pid : Int) (c : Nat) :
    Vigil (waitChildResume k pid c).sched.slot (waitChildResume k pid c).sems w pending gone := by
  obtain ⟨-, -, hsems, hslot⟩ := waitChildResume_spec h pid c
  rw [hsems, hslot]
  exact (hv.renews (SemReg.renews_semClose hv.waiters.wf c (SemReg.fresh [] 0))).reap

/-- `wait_child` of a pid in use, called by the running process -/
theorem waitChild_spec (hr : k.sems.Wf) (hrun : k.sched.running = some b)
    (hp : k.sched.heap b = some p) (hg : getProcess k.sched pid = some a) :
    ∃ name c r m, buildWaitSemaphoreName pid = some name ∧ semOpen k.sems name 0 = (some c, r) ∧
      r.heap c = some m ∧ m.name = name ∧
      ((m.value = 0 ∧ waitChild k pid = (.suspended c, { k with
          sems := r.modify c (queueSem p.pid), sched := (blockProcess k.sched b).2 })) ∨
        (m.value ≠ 0 ∧ waitChild k pid = (.returned,
          waitChildResume { k with sems := r.modify c takeSem } pid c))) := by
  obtain ⟨h0, h1, -⟩ := getProcess_eq_some hg
  have hname := buildWaitSemaphoreName_eq h0 h1
  generalize ['w', 'a', 'i', 't', '_'] ++ numToStr pid.toNat = name at hname
  have hlen := buildWaitSemaphoreName_length hname
  obtain ⟨c, r, ho⟩ : ∃ c r, semOpen k.sems name 0 = (some c, r) := by
    cases hl : locateSemaphoreByName k.sems name with
    | some c => exact ⟨_, _, SemReg.semOpen_found hlen hl⟩
    | none => exact ⟨_, _, SemReg.semOpen_new hlen hl⟩
  have hren := SemReg.renews_semOpen hr name 0
  obtain ⟨m, hm, hmn⟩ := SemReg.semOpen_name hr ho
  rw [ho] at hren
  refine ⟨name, c, r, m, hname, ho, hm, hmn, ?_⟩
  by_cases hv : m.value = 0
  · have hw := semWait_zero (k := { k with sems := r }) hren.wf hm hv hrun hp
    refine Or.inl ⟨hv, ?_⟩
    unfold waitChild
    simp only [hg, hname, ho, hw]
  · have hw := semWait_pos (k := { k with sems := r }) hren.wf hm hv
    refine Or.inr ⟨hv, ?_⟩
    unfold waitChild
    simp only [hg, hname, ho, hw]

theorem winv_waitChild (h : t.Inv) (hc : (WaitOp.waitChild pid).fresh t = true)
    (he : execWait (.waitChild pid) t = some t') : t'.Inv := by
  unfold execWait at he
  cases ha : t.k.sched.actor with
  | none => simp only [ha] at he; exact absurd he (by simp)
  | some bp =>
    obtain ⟨b, p⟩ := bp
    obtain ⟨hr, hp, hst⟩ := actor_some ha
    obtain ⟨p', hp', htab, -⟩ := h.ok.running b hr
    obtain rfl := Option.some.inj (hp.symm.trans hp')
    have h2 : 2 ≤ p.pid := by
      have hall : t.k.sched.actor.all (fun x => 2 ≤ x.2.pid) = true := hc
      rw [ha] at hall
      exact of_decide_eq_true hall
    simp only [ha] at he
    split at he
    · exact absurd he (by simp)
    · cases hg : getProcess t.k.sched pid with
      | none =>
        have hw : waitChild t.k pid = (.error, t.k) := by unfold waitChild; rw [hg]
        simp only [hw, hg] at he
        obtain rfl := Option.some.inj he
        exact h
      | some a =>
        obtain ⟨x, hx, hxa⟩ := slot_of_getProcess h.ok hg
        obtain ⟨name, c, r, m, hn, ho, hm, hmn, hcase⟩ := waitChild_spec h.vigil.waiters.wf hr hp hg
        have hren := SemReg.renews_semOpen h.vigil.waiters.wf name 0
        rw [ho] at hren
        have h1 := h.vigil.renews hren
        rcases hcase with ⟨hv, hw⟩ | ⟨hv, hw⟩
        · -- no token: the caller sleeps
          simp only [hw, hg] at he
          obtain rfl := Option.some.inj he
          have hslot := Sched.slot_eq htab hp
          rw [hst] at hslot
          refine ⟨Sched.ok_blockProcess h.ok htab, h.noPipes, ?_, h.sound⟩
          show Vigil (blockProcess t.k.sched b).2.slot _ _ _ _
          rw [Sched.slot_blockProcess h.ok hp htab h2 hst]
          exact h1.wait (q := ⟨pid, c, a⟩) hm (by rw [hmn]; exact hn) hslot h2
            (h.ok.tab _ _ htab).2.1 ⟨x, hx, hxa⟩
        · -- a token: the process in the slot is dead
          simp only [hw, hg] at he
          obtain rfl := Option.some.inj he
          have hdead : x.dead = true := by
            by_contra hd
            exact hv (h1.tokens c m pid x hm (by rw [hmn]; exact hn) hx (Bool.eq_false_iff.mpr hd))
          have hgone : a ∈ t.gone := hxa ▸ h.vigil.dead pid x hx hdead
          have h3 := h1.take c
          have hspec := waitChildResume_spec (k := { t.k with sems := r.modify c takeSem }) h.ok pid c
          refine ⟨hspec.1, by rw [hspec.2.1]; exact h.noPipes,
            vigil_resume (k := { t.k with sems := r.modify c takeSem }) h.ok h3 pid c, ?_⟩
          intro a' ha'
          rcases List.mem_append.mp ha' with ha' | ha'
          · exact h.sound a' ha'
          · rw [List.mem_singleton.mp ha']
            exact hgone

theorem winv_resume (h : t.Inv) (he : execWait .resume t = some t') : t'.Inv := by
  unfold execWait at he
  cases ha : t.k.sched.actor with
  | none => simp only [ha] at he; exact absurd he (by simp)
  | some bp =>
    obtain ⟨b, p⟩ := bp
    obtain ⟨hr, hp, hst⟩ := actor_some ha
    obtain ⟨p', hp', htab, -⟩ := h.ok.running b hr
    obtain rfl := Option.some.inj (hp.symm.trans hp')
    simp only [ha] at he
    obtain ⟨q, hq, rfl⟩ := Option.map_eq_some_iff.mp he
    -- the caller runs, so that it is no longer asleep
    have hgone : q.target ∈ t.gone := by
      obtain ⟨p', x, hx, hxb, -, hg | hs⟩ := h.vigil.pend b q hq
      · exact hg
      · have hslot := Sched.slot_eq htab hp
        have hpp := h.vigil.waiters.inj p' p.pid x _ hx hslot hxb
        rw [hpp, hslot] at hx
        have hb := hs.blocked
        rw [← Option.some.inj hx, hst] at hb
        exact absurd hb (by simp)
    have hspec := waitChildResume_spec h.ok q.pid q.sem
    refine ⟨hspec.1, by rw [hspec.2.1]; exact h.noPipes,
      (vigil_resume h.ok h.vigil q.pid q.sem).ended b, ?_⟩
    intro a' ha'
    rcases List.mem_append.mp ha' with ha' | ha'
    · exact h.sound a' ha'
    · rw [List.mem_singleton.mp ha']
      exact hgone

/-- **One step.**  A fresh step keeps the invariant. -/
theorem winv_step (o : WaitOp) (t t' : WaitSys) (h : t.Inv) (hc : o.fresh t = true)
    (he : execWait o t = some t') : t'.Inv := by
  cases o with
  | create args =>
    obtain rfl := Option.some.inj he
    exact winv_create h hc
  | kill pid => exact winv_kill h he
  | terminate => exact winv_terminate h he
  | reap =>
    obtain rfl := Option.some.inj he
    have hok := Sched.ok_reapTerminatedProcesses h.ok
    have hslot := Sched.slot_reap h.ok
    generalize reapTerminatedProcesses t.k.sched = s at hok hslot ⊢
    exact ⟨hok, h.noPipes, by rw [hslot]; exact h.vigil.reap, h.sound⟩
  | waitChild pid => exact winv_waitChild h hc he
  | resume => exact winv_resume h he
  | schedule fuel rsp =>
    obtain ⟨r, hr, rfl⟩ := Option.map_eq_some_iff.mp he
    refine ⟨Sched.ok_schedule h.ok hr, h.noPipes, ?_, h.sound⟩
    show Vigil r.2.slot _ _ _ _
    rw [Sched.slot_schedule h.ok hr]
    exact h.vigil

/-! ## runs -/

/-- the system after boot: nobody waits -/
def WaitSys.boot (stackBase : Nat) (recycled : List Int) : WaitSys where
  k := initScheduler stackBase recycled
  waitsOn := fun _ => none
  pending := fun _ => none
  gone := []
  answered := []

theorem winv_boot (stackBase : Nat) (recycled : List Int) :
    (WaitSys.boot stackBase recycled).Inv := by
  have h := inv_boot stackBase recycled
  have hboot : (initScheduler stackBase recycled).sems = emptyKernel.sems := by
    rw [Sched.initScheduler_eq]
  refine ⟨h.ok, h.noPipes, ⟨h.waiters, fun c m q x hm => ?_, fun q x hx hd => ?_,
    fun b q hq => absurd hq (by simp [WaitSys.boot])⟩, fun a ha => absurd ha List.not_mem_nil⟩
  · have hm' : (initScheduler stackBase recycled).sems.heap c = some m := hm
    rw [hboot] at hm'
    exact absurd hm' (by simp [emptyKernel])
  · -- the idle process is running
    have hx' : (initScheduler stackBase recycled).sched.slot q = some x := hx
    rw [Sched.initScheduler_eq] at hx'
    obtain ⟨ht, p, hp, hxe⟩ := Sched.of_slot hx'
    obtain ⟨rfl, ha⟩ := Sched.publish_empty_table
      (p := Sched.idleProcess stackBase recycled) rfl ht
    rw [ha] at hp
    have hself : (Sched.bootSched stackBase recycled).heap 0
        = some ((Sched.idleProcess stackBase recycled).setState .running) := rfl
    have hst : p.state = .running := by
      obtain rfl := Option.some.inj (hself.symm.trans hp)
      rfl
    rw [hxe, hst] at hd
    exact absurd hd (by simp)

/-- **`wait_child` is sound.**  In every run of fresh steps, the process a `wait_child` was about has
been killed or has announced its exit when the call returns `0`. -/
theorem wait_sound_run {stackBase : Nat} {recycled : List Int} {os : List WaitOp} {t : WaitSys}
    (h : Runs execWait (fun o t => o.fresh t) os (WaitSys.boot stackBase recycled) t) :
    ∀ a ∈ t.answered, a ∈ t.gone :=
  (Runs.inv (I := WaitSys.Inv) winv_step h (winv_boot stackBase recycled)).sound

/-- the shell, process `2`, waits for its child, process `3`, which exits -/
theorem wait_sound_run_child : ∃ t,
    Runs execWait (fun o t => o.fresh t) [.create (plainArgs ['i'] 8192),
      .create (plainArgs ['a'] 16384), .create (plainArgs ['b'] 24576), .schedule 4 7,
      .schedule 4 8200, .waitChild 3, .schedule 4 16400, .terminate, .schedule 4 0,
      .schedule 4 8200, .resume] (WaitSys.boot 0 []) t ∧
    t.answered = [3] ∧ ∀ a ∈ t.answered, a ∈ t.gone := by
  have hrun : (runIf execWait WaitOp.fresh [.create (plainArgs ['i'] 8192),
      .create (plainArgs ['a'] 16384), .create (plainArgs ['b'] 24576), .schedule 4 7,
      .schedule 4 8200, .waitChild 3, .schedule 4 16400, .terminate, .schedule 4 0,
      .schedule 4 8200, .resume] (WaitSys.boot 0 [])).map WaitSys.answered = some [3] := by
    decide +kernel
  obtain ⟨t, ht, ha⟩ := Option.map_eq_some_iff.mp hrun
  have h := runs_of_runIf ht
  exact ⟨t, h, ha, wait_sound_run h⟩

/-- the child `3` dies without being waited for, its pid goes to a new process (pointer `4`), and the
wait for that one returns `0` at once, while it is READY -/
theorem wait_unsound : ∃ t,
    run execWait [.create (plainArgs ['i'] 8192), .create (plainArgs ['a'] 16384),
      .create (plainArgs ['b'] 24576), .kill 3, .create (plainArgs ['c'] 24576), .schedule 4 7,
      .schedule 4 8200, .waitChild 3] (WaitSys.boot 0 []) = some t ∧
    getProcess t.k.sched 3 = some 4 ∧ (t.k.sched.heap 4).map Process.state = some .ready ∧
    t.answered = [4] ∧ t.gone = [3] ∧ ¬ ∀ a ∈ t.answered, a ∈ t.gone := by
  have hrun : (run execWait [.create (plainArgs ['i'] 8192), .create (plainArgs ['a'] 16384),
      .create (plainArgs ['b'] 24576), .kill 3, .create (plainArgs ['c'] 24576), .schedule 4 7,
      .schedule 4 8200, .waitChild 3] (WaitSys.boot 0 [])).map (fun t => (getProcess t.k.sched 3,
        (t.k.sched.heap 4).map Process.state, t.answered, t.gone))
      = some (some 4, some .ready, [4], [3]) := by decide +kernel
  obtain ⟨t, ht, hv⟩ := Option.map_eq_some_iff.mp hrun
  simp only [Prod.mk.injEq] at hv
  obtain ⟨hg, hst, ha, hgone⟩ := hv
  refine ⟨t, ht, hg, hst, ha, hgone, ?_⟩
  rw [ha, hgone]
  decide

end

end Tp2So
