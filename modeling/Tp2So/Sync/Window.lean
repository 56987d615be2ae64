import Tp2So.Sync.Ledger

/-!
# Between the queue and the sleep

`semWait` puts the pid of its caller into the blocked queue, gives the lock back, and only then calls
`block_process`.  With interrupts on, a post can fall between the two steps.  Here they are two
operations, and `armed` remembers which process stands between them, and for which semaphore.

* `semEnqueue`, `semWait_split`   the first step, and `semWait` as the two of them in a row;
* `AllQueued`                     whoever is BLOCKED is in a blocked queue;
* `LateOp.settledHead`            a post takes out nobody who stands between the two steps;
* `allQueued_run`                 in a run of such steps `AllQueued` holds in every state.
-/

set_option linter.unusedVariables false

namespace Tp2So

/-! ## the two steps -/

/-- `semWait` up to its `block_process`; `suspended` says that the pid is queued -/
def semEnqueue (k : Kernel) (a : Nat) : WaitResult × Kernel :=
  if isSemaphoreValid k.sems a then
    match k.sems.heap a with
    | none => (.error, k)
    | some m =>
      if m.value = 0 then
        match k.sched.running with
        | none => (.error, k)
        | some b =>
          match k.sched.heap b with
          | none => (.error, k)
          | some p =>
            (.suspended, { k with sems := k.sems.modify a fun m =>
              { m with blockedProcesses := enqueue m.blockedProcesses p.pid } })
      else (.granted, { k with sems := k.sems.modify a fun m => { m with value := m.value - 1 } })
  else (.error, k)

/-- the `block_process` of the running process -/
def blockRunning (k : Kernel) : Kernel :=
  match k.sched.running with
  | none => k
  | some b => { k with sched := (blockProcess k.sched b).2 }

/-- the second step, after what the first one has answered -/
def afterEnqueue : WaitResult × Kernel → WaitResult × Kernel
  | (.suspended, k) => (.suspended, blockRunning k)
  | r => r

/-- with nothing in between, the two steps are `semWait` -/
theorem semWait_split (k : Kernel) (a : Nat) : semWait k a = afterEnqueue (semEnqueue k a) := by
  unfold semWait semEnqueue
  by_cases hv : isSemaphoreValid k.sems a = true
  · rw [if_pos hv, if_pos hv]
    cases hm : k.sems.heap a with
    | none => rfl
    | some m =>
      by_cases h0 : m.value = 0
      · simp only [if_pos h0]
        cases hr : k.sched.running with
        | none => rfl
        | some b =>
          cases hp : k.sched.heap b with
          | none =>
            simp only [hp]
            rfl
          | some p =>
            simp only [hp]
            show _ = (_, blockRunning _)
            unfold blockRunning
            simp only [hr]
      · simp only [if_neg h0]
        rfl
  · rw [if_neg hv, if_neg hv]
    rfl

/-! ## the system -/

structure LateSys where
  k : Kernel
  armed : Nat → Option Nat

inductive LateOp where
  | create (args : CreateArgs)
  | openSem (name : List Char) (value : Nat)
  | enter (sem : Nat)
  | block
  | post (sem : Nat)
  | schedule (fuel rsp : Nat)

/-- a post needs no caller: it may come from the keyboard interrupt -/
def execLate : LateOp → LateSys → Option LateSys
  | .create args, t => some { t with k := (createProcess t.k args).2 }
  | .openSem name v, t => some { t with k := { t.k with sems := (semOpen t.k.sems name v).2 } }
  | .enter c, t =>
    t.k.sched.actor.bind fun x =>
      if t.armed x.1 = none then
        match semEnqueue t.k c with
        | (.suspended, k) => some { k, armed := Function.update t.armed x.1 (some c) }
        | (_, k) => some { t with k }
      else none
  | .block, t =>
    t.k.sched.actor.bind fun x =>
      (t.armed x.1).map fun _ => { k := blockRunning t.k, armed := Function.update t.armed x.1 none }
  | .post c, t => some { t with k := (semPost t.k c).2 }
  | .schedule fuel rsp, t =>
    (schedule fuel rsp t.k.sched).map fun r => { t with k := { t.k with sched := r.2 } }

/-- the pid is in the blocked queue of the semaphore `c` -/
def Queued (r : SemReg) (c : Nat) (pid : Int) : Prop :=
  ∃ m, r.heap c = some m ∧ pid ∈ m.blockedProcesses.elems

/-- whoever is BLOCKED can still be reached by a post on a registered semaphore -/
def AllQueued (k : Kernel) : Prop :=
  ∀ pid a p, getProcess k.sched pid = some a → k.sched.heap a = some p → p.state = .blocked →
    ∃ c, isSemaphoreValid k.sems c = true ∧ Queued k.sems c pid

/-- a post does not take out the pid of a process that is queued and not yet BLOCKED.  The idle
process and `init` do not count, because `block_process` refuses them -/
def LateOp.settledHead : LateOp → LateSys → Bool
  | .post c, t => (headWaiter t.k.sems c).all fun q =>
      decide (q < 2) || (getProcess t.k.sched q).all fun a => (t.armed a).isNone
  | _, _ => true

/-! ## the invariant -/

structure LateSys.Inv (t : LateSys) : Prop where
  ok : t.k.sched.Ok
  noPipes : t.k.pipes.storage = []
  wf : t.k.sems.Wf
  range : ∀ c q, Queued t.k.sems c q → 0 ≤ q ∧ q < maxProcesses
  armed : ∀ a c, t.armed a = some c →
    ∃ q, t.k.sched.slot q = some ⟨a, false, false⟩ ∧ (2 ≤ q → Queued t.k.sems c q)
  asleep : ∀ q x, t.k.sched.slot q = some x → x.blocked = true →
    x.dead = false ∧ 2 ≤ q ∧ ∃ c, Queued t.k.sems c q

section
variable {t t' : LateSys} {k : Kernel} {a b c d : Nat} {p : Process} {m : Sem} {pid q : Int}
  {r : SemReg}

theorem LateSys.Inv.allQueued (h : t.Inv) : AllQueued t.k := by
  intro pid a p hg hp hst
  obtain ⟨-, -, ht⟩ := getProcess_eq_some hg
  have hs := Sched.slot_eq ht hp
  obtain ⟨-, -, c, m, hm, hq⟩ := h.asleep pid _ hs (by rw [hst]; rfl)
  exact ⟨c, h.wf.valid hm, m, hm, hq⟩

/-! ## blocked queues through the calls -/

theorem Queued.semOpen (h : r.Wf) (hq : Queued r c q) (name : List Char) (v : Nat) :
    Queued (semOpen r name v).2 c q := by
  obtain ⟨m, hm, hq⟩ := hq
  obtain ⟨m', hm', -, -, he⟩ := SemReg.semOpen_keeps (v := v) h hm name
  exact ⟨m', hm', by rw [he]; exact hq⟩

theorem Queued.of_semOpen (h : r.Wf) {name : List Char} {v : Nat}
    (hq : Queued (Tp2So.semOpen r name v).2 c q) : Queued r c q := by
  obtain ⟨m, hm, hq⟩ := hq
  rcases (SemReg.renews_semOpen h name v).back c m hm with ⟨n, hn, -, -, he⟩ | ⟨-, -, -, he⟩
  · exact ⟨n, hn, he ▸ hq⟩
  · rw [he] at hq
    exact absurd hq List.not_mem_nil

theorem Queued.post (hq : Queued r d q) (hne : d = c → headWaiter r c ≠ some q) :
    Queued (r.modify c postSem) d q := by
  obtain ⟨m, hm, hq⟩ := hq
  refine ⟨_, heapMod_of_some c postSem hm, ?_⟩
  by_cases e : d = c
  · rw [if_pos e]
    have hh := hne e
    subst e
    unfold headWaiter at hh
    rw [hm, Option.bind_some] at hh
    cases hm' : m.blockedProcesses.elems with
    | nil => rw [hm'] at hq; exact absurd hq List.not_mem_nil
    | cons x xs =>
      rw [hm'] at hq hh
      rw [(postSem_cons hm').1]
      rcases List.mem_cons.mp hq with rfl | hq
      · exact absurd rfl hh
      · exact hq
  · rw [if_neg e]
    exact hq

theorem Queued.of_post (hq : Queued (r.modify c postSem) d q) : Queued r d q := by
  obtain ⟨n, hn, hq⟩ := hq
  exact of_mem_posted hn hq

theorem Queued.enter (hq : Queued r d q) (pid : Int) : Queued (r.modify c (queueSem pid)) d q := by
  obtain ⟨m, hm, hq⟩ := hq
  refine ⟨_, heapMod_of_some c _ hm, ?_⟩
  split
  · exact List.mem_append_left _ hq
  · exact hq

theorem Queued.of_enter (hq : Queued (r.modify c (queueSem pid)) d q) : Queued r d q ∨ q = pid := by
  obtain ⟨n, hn, hq⟩ := hq
  obtain ⟨m, hm, rfl⟩ := heapMod_some hn
  split at hq
  · rcases List.mem_append.mp hq with hq | hq
    · exact Or.inl ⟨m, hm, hq⟩
    · exact Or.inr (List.mem_singleton.mp hq)
  · exact Or.inl ⟨m, hm, hq⟩

theorem Queued.take (hq : Queued r d q) : Queued (r.modify c takeSem) d q := by
  obtain ⟨m, hm, hq⟩ := hq
  refine ⟨_, heapMod_of_some c _ hm, ?_⟩
  split <;> exact hq

theorem Queued.of_take (hq : Queued (r.modify c takeSem) d q) : Queued r d q := by
  obtain ⟨n, hn, hq⟩ := hq
  obtain ⟨m, hm, rfl⟩ := heapMod_some hn
  split at hq <;> exact ⟨m, hm, hq⟩

/-! ## one step -/

theorem late_create (h : t.Inv) (args : CreateArgs) :
    LateSys.Inv { t with k := (createProcess t.k args).2 } := by
  have hok := Sched.ok_createProcess h.ok args
  rcases createProcess_spec h.ok h.noPipes args with ⟨-, s, he, hs⟩ | ⟨pid, name, s, hp, hn, he, hs⟩
  · rw [he] at hok ⊢
    refine ⟨hok, h.noPipes, h.wf, h.range, ?_, ?_⟩
    · rw [hs]
      exact h.armed
    · rw [hs]
      exact h.asleep
  · rw [he] at hok ⊢
    obtain ⟨-, -, hf⟩ := Sched.assignPid_spec hp
    have hren := SemReg.renews_semOpen h.wf name 0
    refine ⟨hok, h.noPipes, hren.wf, fun c q hq => h.range c q (hq.of_semOpen h.wf),
      fun a c hc => ?_, fun q x hx hb => ?_⟩
    · obtain ⟨q, hq, hcq⟩ := h.armed a c hc
      refine ⟨q, ?_, fun h2 => (hcq h2).semOpen h.wf name 0⟩
      -- the slot of a live process is not free
      have hne : q ≠ pid := by
        rintro rfl
        obtain ⟨ht, p, hp, he⟩ := Sched.of_slot hq
        have hst := Sched.slotFree_terminated hf ht hp
        rw [hst] at he
        exact absurd (congrArg Slot.dead he) (by simp)
      show s.slot q = _
      rw [hs]
      unfold bornSlots
      rw [if_neg hne, hq]
      rfl
    · have hx' : bornSlots t.k.sched.slot pid t.k.sched.next q = some x := hs ▸ hx
      unfold bornSlots at hx'
      split at hx'
      · obtain rfl := Option.some.inj hx'
        exact absurd hb (by simp)
      · obtain ⟨hd, h2, c, hq⟩ := h.asleep q x (Option.filter_eq_some_iff.mp hx').1 hb
        exact ⟨hd, h2, c, hq.semOpen h.wf name 0⟩

theorem late_open (h : t.Inv) (name : List Char) (v : Nat) :
    LateSys.Inv { t with k := { t.k with sems := (semOpen t.k.sems name v).2 } } := by
  refine ⟨h.ok, h.noPipes, (SemReg.renews_semOpen h.wf name v).wf,
    fun c q hq => h.range c q (hq.of_semOpen h.wf), fun a c hc => ?_, fun q x hx hb => ?_⟩
  · obtain ⟨q, hq, hcq⟩ := h.armed a c hc
    exact ⟨q, hq, fun h2 => (hcq h2).semOpen h.wf name v⟩
  · obtain ⟨hd, h2, c, hq⟩ := h.asleep q x hx hb
    exact ⟨hd, h2, c, hq.semOpen h.wf name v⟩

/-- the slot that a post leaves behind was there before, unless it was the BLOCKED head -/
theorem wakePid_slot {s : Sched} (h : s.Ok) (h0 : 0 ≤ pid) (h1 : pid < maxProcesses) {x : Slot}
    (hx : (wakePid s pid).slot q = some x) :
    (s.slot q = some x ∧ (q = pid → 2 ≤ q → x.blocked = false)) ∨
      (q = pid ∧ x.blocked = false) := by
  rw [Sched.slot_wakePid h h0 h1] at hx
  split at hx
  · by_cases e : q = pid
    · subst e
      rw [Function.update_self] at hx
      obtain ⟨y, -, rfl⟩ := Option.map_eq_some_iff.mp hx
      exact Or.inr ⟨rfl, rfl⟩
    · rw [Function.update_of_ne e] at hx
      exact Or.inl ⟨hx, fun e' => absurd e' e⟩
  · exact Or.inl ⟨hx, fun e h2 => by omega⟩

theorem wakePid_awake {s : Sched} (h : s.Ok) (h0 : 0 ≤ pid) (h1 : pid < maxProcesses) {e : Bool}
    (hx : s.slot q = some ⟨a, false, e⟩) : (wakePid s pid).slot q = some ⟨a, false, e⟩ := by
  rw [Sched.slot_wakePid h h0 h1]
  split
  · by_cases e : q = pid
    · subst e
      rw [Function.update_self, hx]
      rfl
    · rw [Function.update_of_ne e]
      exact hx
  · exact hx

theorem late_post (h : t.Inv) (hc : (LateOp.post c).settledHead t = true) :
    LateSys.Inv { t with k := (semPost t.k c).2 } := by
  have hok := (Sched.wakes_semPost t.k c).ok h.ok
  have he := semPost_eq h.wf c
  have hwf : (t.k.sems.modify c postSem).Wf := h.wf.modify c postSem_name
  cases hh : headWaiter t.k.sems c with
  | none =>
    rw [hh] at he
    rw [he] at hok ⊢
    have hkeep : ∀ d q, Queued t.k.sems d q → Queued (t.k.sems.modify c postSem) d q :=
      fun d q hq => hq.post fun _ => by rw [hh]; simp
    refine ⟨hok, h.noPipes, hwf, fun d q hq => h.range d q hq.of_post, fun a d hd => ?_,
      fun q x hx hb => ?_⟩
    · obtain ⟨q, hq, hdq⟩ := h.armed a d hd
      exact ⟨q, hq, fun h2 => hkeep d q (hdq h2)⟩
    · obtain ⟨hd, h2, d, hq⟩ := h.asleep q x hx hb
      exact ⟨hd, h2, d, hkeep d q hq⟩
  | some pid =>
    obtain ⟨m, hm, hmq⟩ := Option.bind_eq_some_iff.mp hh
    obtain ⟨h0, h1⟩ := h.range c pid ⟨m, hm, List.mem_of_mem_head? hmq⟩
    rw [hh] at he
    rw [he] at hok ⊢
    refine ⟨hok, h.noPipes, hwf, fun d q hq => h.range d q hq.of_post, fun a d hd => ?_,
      fun q x hx hb => ?_⟩
    · obtain ⟨q, hq, hdq⟩ := h.armed a d hd
      refine ⟨q, wakePid_awake h.ok h0 h1 hq, fun h2 => (hdq h2).post fun _ hq' => ?_⟩
      -- the head would stand between its two steps
      obtain rfl : pid = q := Option.some.inj (hh.symm.trans hq')
      have hg : getProcess t.k.sched pid = some a := by
        unfold getProcess
        rw [if_neg (by omega)]
        exact (Sched.of_slot hq).1
      have hcond : ((headWaiter t.k.sems c).all fun q =>
          decide (q < 2) || (getProcess t.k.sched q).all fun a => (t.armed a).isNone) = true := hc
      rw [hh, Option.all_some, hg, Option.all_some, hd] at hcond
      have hlt : ¬ pid < 2 := by omega
      simp [hlt] at hcond
    · have hx' : (wakePid t.k.sched pid).slot q = some x := hx
      rcases wakePid_slot h.ok h0 h1 hx' with ⟨hx', hne⟩ | ⟨-, hb'⟩
      · obtain ⟨hd, h2, d, hq⟩ := h.asleep q x hx' hb
        refine ⟨hd, h2, d, hq.post fun _ hq' => ?_⟩
        have hb' := hne (Option.some.inj (hh.symm.trans hq')).symm h2
        rw [hb] at hb'
        exact absurd hb' (by simp)
      · rw [hb] at hb'
        exact absurd hb' (by simp)

theorem semEnqueue_cases (h : k.sems.Wf) (hr : k.sched.running = some b)
    (hp : k.sched.heap b = some p) (c : Nat) :
    semEnqueue k c = (.error, k) ∨
    semEnqueue k c = (.granted, { k with sems := k.sems.modify c takeSem }) ∨
    ((∃ m, k.sems.heap c = some m) ∧
      semEnqueue k c = (.suspended, { k with sems := k.sems.modify c (queueSem p.pid) })) := by
  cases hm : k.sems.heap c with
  | none =>
    have hnv : ¬ isSemaphoreValid k.sems c = true := by
      rw [h.valid_iff, hm]
      simp
    unfold semEnqueue
    rw [if_neg hnv]
    exact Or.inl rfl
  | some m =>
    unfold semEnqueue
    rw [if_pos (h.valid hm)]
    simp only [hm, hr, hp]
    by_cases hv : m.value = 0
    · rw [if_pos hv]
      exact Or.inr (Or.inr ⟨⟨m, rfl⟩, rfl⟩)
    · rw [if_neg hv]
      exact Or.inr (Or.inl rfl)

theorem late_enter (h : t.Inv) (he : execLate (.enter c) t = some t') : t'.Inv := by
  obtain ⟨⟨b, p⟩, ha, he⟩ := Option.bind_eq_some_iff.mp he
  obtain ⟨hr, hp, hst⟩ := actor_some ha
  obtain ⟨p', hp', ht, -⟩ := h.ok.running b hr
  obtain rfl := Option.some.inj (hp.symm.trans hp')
  obtain ⟨h0, h1, -⟩ := h.ok.tab _ _ ht
  simp only at he
  split at he
  · rcases semEnqueue_cases h.wf hr hp c with hq | hq | ⟨⟨m, hm⟩, hq⟩
    · rw [hq] at he
      exact Option.some.inj he ▸ h
    · rw [hq] at he
      obtain rfl := Option.some.inj he
      refine ⟨h.ok, h.noPipes, h.wf.modify c fun _ => rfl, fun d q hq => h.range d q hq.of_take,
        fun a d hd => ?_, fun q x hx hb => ?_⟩
      · obtain ⟨q, hq, hdq⟩ := h.armed a d hd
        exact ⟨q, hq, fun h2 => (hdq h2).take⟩
      · obtain ⟨hd, h2, d, hq⟩ := h.asleep q x hx hb
        exact ⟨hd, h2, d, hq.take⟩
    · rw [hq] at he
      obtain rfl := Option.some.inj he
      refine ⟨h.ok, h.noPipes, h.wf.modify c fun _ => rfl, fun d q hq => ?_, fun a d hd => ?_,
        fun q x hx hb => ?_⟩
      · rcases hq.of_enter with hq | rfl
        · exact h.range d q hq
        · exact ⟨h0, h1⟩
      · by_cases e : a = b
        · subst e
          have hd : Function.update t.armed a (some c) a = some d := hd
          rw [Function.update_self] at hd
          obtain rfl := Option.some.inj hd
          have hs := Sched.slot_eq ht hp
          rw [hst] at hs
          refine ⟨p.pid, hs, fun _ => ⟨_, heapMod_of_some c _ hm, ?_⟩⟩
          rw [if_pos rfl]
          exact List.mem_append_right _ (List.mem_singleton_self _)
        · have hd : Function.update t.armed b (some c) a = some d := hd
          rw [Function.update_of_ne e] at hd
          obtain ⟨q, hq, hdq⟩ := h.armed a d hd
          exact ⟨q, hq, fun h2 => (hdq h2).enter p.pid⟩
      · obtain ⟨hd, h2, d, hq⟩ := h.asleep q x hx hb
        exact ⟨hd, h2, d, hq.enter p.pid⟩
  · exact absurd he (by simp)

theorem blockProcess_refused {s : Sched} (h : s.Ok) (hp : s.heap b = some p)
    (ht : s.table p.pid = some b) (h2 : p.pid < 2) : (blockProcess s b).2 = s := by
  obtain ⟨h0, -, -⟩ := h.tab _ _ ht
  rcases Sched.blockProcess_cases s b with hbl | ⟨p', hp', hi, h1, -, -, -⟩
  · rw [hbl]
  · obtain rfl := Option.some.inj (hp.symm.trans hp')
    obtain ⟨i, -, hii, hti, -⟩ := h.idle
    have hz : p.pid = 0 := by omega
    rw [hz, hti] at ht
    exact absurd (hii.trans ht) hi

theorem late_block (h : t.Inv) (he : execLate .block t = some t') : t'.Inv := by
  obtain ⟨⟨b, p⟩, ha, he⟩ := Option.bind_eq_some_iff.mp he
  obtain ⟨hr, hp, hst⟩ := actor_some ha
  obtain ⟨p', hp', ht, -⟩ := h.ok.running b hr
  obtain rfl := Option.some.inj (hp.symm.trans hp')
  obtain ⟨c, hc, rfl⟩ := Option.map_eq_some_iff.mp he
  have hk : blockRunning t.k = { t.k with sched := (blockProcess t.k.sched b).2 } := by
    unfold blockRunning
    rw [hr]
  have hok := Sched.ok_blockProcess h.ok ht
  -- the other processes keep their slot, and the caller its place in the queue
  have hother : ∀ a d, Function.update t.armed b none a = some d → a ≠ b ∧ t.armed a = some d := by
    intro a d hd
    by_cases e : a = b
    · subst e
      rw [Function.update_self] at hd
      exact absurd hd (by simp)
    · rw [Function.update_of_ne e] at hd
      exact ⟨e, hd⟩
  by_cases h2 : 2 ≤ p.pid
  · have hslot := Sched.slot_blockProcess h.ok hp ht h2 hst
    rw [hk]
    refine ⟨hok, h.noPipes, h.wf, h.range, fun a d hd => ?_, fun q x hx hb => ?_⟩
    · obtain ⟨hab, hd⟩ := hother a d hd
      obtain ⟨q, hq, hdq⟩ := h.armed a d hd
      refine ⟨q, ?_, hdq⟩
      have hne : q ≠ p.pid := by
        rintro rfl
        exact hab (Option.some.inj ((Sched.of_slot hq).1.symm.trans ht))
      show (blockProcess t.k.sched b).2.slot q = _
      rw [hslot, Function.update_of_ne hne]
      exact hq
    · have hx : (blockProcess t.k.sched b).2.slot q = some x := hx
      rw [hslot] at hx
      by_cases e : q = p.pid
      · subst e
        rw [Function.update_self] at hx
        obtain rfl := Option.some.inj hx
        obtain ⟨q, hq, hcq⟩ := h.armed b c hc
        obtain rfl : p.pid = q := h.ok.tab_pid (Sched.of_slot hq).1 hp
        exact ⟨rfl, h2, c, hcq h2⟩
      · rw [Function.update_of_ne e] at hx
        exact h.asleep q x hx hb
  · rw [hk, blockProcess_refused h.ok hp ht (by omega)]
    exact ⟨h.ok, h.noPipes, h.wf, h.range, fun a d hd => h.armed a d (hother a d hd).2, h.asleep⟩

/-- **One step** keeps the invariant, unless a post takes out a pid too early. -/
theorem late_step (o : LateOp) (t t' : LateSys) (h : t.Inv) (hc : o.settledHead t = true)
    (he : execLate o t = some t') : t'.Inv := by
  cases o with
  | create args => exact Option.some.inj he ▸ late_create h args
  | openSem name v => exact Option.some.inj he ▸ late_open h name v
  | enter c => exact late_enter h he
  | block => exact late_block h he
  | post c => exact Option.some.inj he ▸ late_post h hc
  | schedule fuel rsp =>
    obtain ⟨r, hr, rfl⟩ := Option.map_eq_some_iff.mp he
    have hslot := Sched.slot_schedule h.ok hr
    refine ⟨Sched.ok_schedule h.ok hr, h.noPipes, h.wf, h.range, ?_, ?_⟩
    · show ∀ a c, _ → ∃ q, r.2.slot q = _ ∧ _
      rw [hslot]
      exact h.armed
    · show ∀ q x, r.2.slot q = some x → _
      rw [hslot]
      exact h.asleep

/-! ## runs -/

def LateSys.boot (stackBase : Nat) (recycled : List Int) : LateSys :=
  ⟨initScheduler stackBase recycled, fun _ => none⟩

theorem late_boot (stackBase : Nat) (recycled : List Int) : (LateSys.boot stackBase recycled).Inv := by
  have h := inv_boot stackBase recycled
  have hempty : ∀ c q, ¬ Queued (initScheduler stackBase recycled).sems c q := by
    rw [Sched.initScheduler_eq]
    rintro c q ⟨m, hm, -⟩
    cases hm
  have hawake : ∀ q x, (initScheduler stackBase recycled).sched.slot q = some x →
      x.blocked = false := by
    rw [Sched.initScheduler_eq]
    intro q x hx
    obtain ⟨-, rfl⟩ := Sched.slot_bootSched hx
    rfl
  refine ⟨h.ok, h.noPipes, h.waiters.wf, fun c q hq => absurd hq (hempty c q),
    fun a c hc => absurd hc (by simp [LateSys.boot]), fun q x hx hb => ?_⟩
  rw [hawake q x hx] at hb
  exact absurd hb (by simp)

/-- **No lost wake-up.**  In every run in which no post takes out a process between its two steps,
whoever is BLOCKED is in the blocked queue of a registered semaphore. -/
theorem allQueued_run {stackBase : Nat} {recycled : List Int} {os : List LateOp} {t : LateSys}
    (h : Runs execLate (fun o t => o.settledHead t) os (LateSys.boot stackBase recycled) t) :
    AllQueued t.k := by
  have hinv : t.Inv := Runs.inv (I := LateSys.Inv) late_step h (late_boot stackBase recycled)
  exact hinv.allQueued

/-- process `2` puts its pid into the queue of the semaphore `x` -/
def halfWait : List LateOp :=
  [.create (plainArgs ['i'] 8192), .create (plainArgs ['a'] 16384), .openSem ['x'] 0,
    .schedule 4 7, .schedule 4 8200, .enter 2]

theorem allQueued_run_whole : ∃ t,
    Runs execLate (fun o t => o.settledHead t) (halfWait ++ [.block]) (LateSys.boot 0 []) t ∧
    (t.k.sched.heap 2).map Process.state = some .blocked ∧ AllQueued t.k := by
  have hrun : (runIf execLate LateOp.settledHead (halfWait ++ [.block]) (LateSys.boot 0 [])).map
      (fun t => (t.k.sched.heap 2).map Process.state) = some (some .blocked) := by decide +kernel
  obtain ⟨t, ht, hst⟩ := Option.map_eq_some_iff.mp hrun
  have h := runs_of_runIf ht
  exact ⟨t, h, hst, allQueued_run h⟩

/-- a post falls between the two steps: it takes out the pid, finds nobody BLOCKED, and the process
goes to sleep with nobody left to wake it -/
theorem allQueued_lost : ∃ t,
    run execLate (halfWait ++ [.post 2, .block]) (LateSys.boot 0 []) = some t ∧
    ¬ AllQueued t.k := by
  have hrun : (run execLate (halfWait ++ [.post 2, .block]) (LateSys.boot 0 [])).map
      (fun t => (getProcess t.k.sched 2, (t.k.sched.heap 2).map Process.state,
        t.k.sems.registry.elems.all fun c =>
          (t.k.sems.heap c).all fun m => !m.blockedProcesses.elems.contains 2))
      = some (some 2, some .blocked, true) := by decide +kernel
  obtain ⟨t, ht, hv⟩ := Option.map_eq_some_iff.mp hrun
  simp only [Prod.mk.injEq] at hv
  obtain ⟨hg, hst, hun⟩ := hv
  obtain ⟨p, hp, hst⟩ := Option.map_eq_some_iff.mp hst
  refine ⟨t, ht, fun hall => ?_⟩
  obtain ⟨c, hc, m, hm, hq⟩ := hall 2 2 p hg hp hst
  have hno := List.all_eq_true.mp hun c ((isSemaphoreValid_iff _ c).mp hc)
  rw [hm] at hno
  simp [hq] at hno

end

end Tp2So
