import Tp2So.Sync.Window

/-!
# Waiters of a semaphore that is closed

Handles are shared: any process may wait on, post to and close any semaphore.  The last `semClose` of a
semaphore frees its blocked queue, and with it what a post would have needed to find the processes in
it.

* `ShareOp`, `execShare`      the calls, in any order;
* `NoneStranded`              whoever is blocked in a `semWait` waits for a semaphore that is still there;
* `ShareOp.considerate`       a `semClose` does not destroy a semaphore in whose queue somebody waits;
* `noneStranded_run`          in a run of considerate steps nobody is stranded, in any state.
-/

set_option linter.unusedVariables false

namespace Tp2So

inductive ShareOp where
  | create (args : CreateArgs)
  | openSem (name : List Char) (value : Nat)
  | wait (sem : Nat)
  | post (sem : Nat)
  | close (sem : Nat)
  | schedule (fuel rsp : Nat)

/-- `waitsOn` is the last semaphore on which a process has been suspended -/
def execShare : ShareOp → SemSys → Option SemSys
  | .create args, t => some { t with k := (createProcess t.k args).2 }
  | .openSem name v, t => some { t with k := { t.k with sems := (semOpen t.k.sems name v).2 } }
  | .wait c, t =>
    t.k.sched.actor.map fun x =>
      match semWait t.k c with
      | (.suspended, k) => { k, waitsOn := Function.update t.waitsOn x.1 (some c) }
      | (_, k) => { t with k }
  | .post c, t => some { t with k := (semPost t.k c).2 }
  | .close c, t => some { t with k := { t.k with sems := (semClose t.k.sems c).2 } }
  | .schedule fuel rsp, t =>
    (schedule fuel rsp t.k.sched).map fun r => { t with k := { t.k with sched := r.2 } }

/-- nobody is BLOCKED in a `semWait` on a semaphore that has been destroyed -/
def NoneStranded (t : SemSys) : Prop :=
  ∀ c a, InWait t.k t.waitsOn c a → ∃ m, t.k.sems.heap c = some m

/-- a `semClose` leaves the semaphore to other users, or there is nobody in its queue; the idle process
and `init` do not count, because `block_process` refuses them -/
def ShareOp.considerate : ShareOp → SemSys → Bool
  | .close c, t => (t.k.sems.heap c).all fun m =>
      dec16 m.users != 0 || m.blockedProcesses.elems.all fun q => decide (q < 2)
  | _, _ => true

/-! ## the invariant -/

structure SemSys.Shared (t : SemSys) : Prop where
  ok : t.k.sched.Ok
  noPipes : t.k.pipes.storage = []
  wf : t.k.sems.Wf
  range : ∀ c q, Queued t.k.sems c q → 0 ≤ q ∧ q < maxProcesses
  asleep : ∀ q x, t.k.sched.slot q = some x → x.blocked = true →
    2 ≤ q ∧ ∃ c, t.waitsOn x.proc = some c ∧ Queued t.k.sems c q

section
variable {t t' : SemSys} {k : Kernel} {a b c d : Nat} {p : Process} {m : Sem} {pid q : Int}
  {r : SemReg}

theorem SemSys.Shared.noneStranded (h : t.Shared) : NoneStranded t := by
  rintro c a ⟨p, hp, ht, hst, hw⟩
  have hs := Sched.slot_eq ht hp
  obtain ⟨-, d, hd, m, hm, -⟩ := h.asleep p.pid _ hs (by rw [hst]; rfl)
  obtain rfl : c = d := Option.some.inj (hw.symm.trans hd)
  exact ⟨m, hm⟩

/-! ## one step -/

theorem shared_create (h : t.Shared) (args : CreateArgs) :
    SemSys.Shared { t with k := (createProcess t.k args).2 } := by
  have hok := Sched.ok_createProcess h.ok args
  rcases createProcess_spec h.ok h.noPipes args with ⟨-, s, he, hs⟩ | ⟨pid, name, s, hp, hn, he, hs⟩
  · rw [he] at hok ⊢
    refine ⟨hok, h.noPipes, h.wf, h.range, ?_⟩
    rw [hs]
    exact h.asleep
  · rw [he] at hok ⊢
    refine ⟨hok, h.noPipes, (SemReg.renews_semOpen h.wf name 0).wf,
      fun c q hq => h.range c q (hq.of_semOpen h.wf), fun q x hx hb => ?_⟩
    have hx' : bornSlots t.k.sched.slot pid t.k.sched.next q = some x := hs ▸ hx
    unfold bornSlots at hx'
    split at hx'
    · -- the new process is not BLOCKED
      obtain rfl := Option.some.inj hx'
      exact absurd hb (by simp)
    · obtain ⟨h2, c, hc, hq⟩ := h.asleep q x (Option.filter_eq_some_iff.mp hx').1 hb
      exact ⟨h2, c, hc, hq.semOpen h.wf name 0⟩

theorem shared_open (h : t.Shared) (name : List Char) (v : Nat) :
    SemSys.Shared { t with k := { t.k with sems := (semOpen t.k.sems name v).2 } } := by
  refine ⟨h.ok, h.noPipes, (SemReg.renews_semOpen h.wf name v).wf,
    fun c q hq => h.range c q (hq.of_semOpen h.wf), fun q x hx hb => ?_⟩
  obtain ⟨h2, c, hc, hq⟩ := h.asleep q x hx hb
  exact ⟨h2, c, hc, hq.semOpen h.wf name v⟩

theorem shared_post (h : t.Shared) (c : Nat) : SemSys.Shared { t with k := (semPost t.k c).2 } := by
  have hok := (Sched.wakes_semPost t.k c).ok h.ok
  have he := semPost_eq h.wf c
  have hwf : (t.k.sems.modify c postSem).Wf := h.wf.modify c postSem_name
  cases hh : headWaiter t.k.sems c with
  | none =>
    rw [hh] at he
    rw [he] at hok ⊢
    refine ⟨hok, h.noPipes, hwf, fun d q hq => h.range d q hq.of_post, fun q x hx hb => ?_⟩
    obtain ⟨h2, d, hd, hq⟩ := h.asleep q x hx hb
    exact ⟨h2, d, hd, hq.post fun _ => by rw [hh]; simp⟩
  | some pid =>
    obtain ⟨m, hm, hmq⟩ := Option.bind_eq_some_iff.mp hh
    obtain ⟨h0, h1⟩ := h.range c pid ⟨m, hm, List.mem_of_mem_head? hmq⟩
    rw [hh] at he
    rw [he] at hok ⊢
    refine ⟨hok, h.noPipes, hwf, fun d q hq => h.range d q hq.of_post, fun q x hx hb => ?_⟩
    have hx' : (wakePid t.k.sched pid).slot q = some x := hx
    rcases wakePid_slot h.ok h0 h1 hx' with ⟨hx', hne⟩ | ⟨-, hb'⟩
    · obtain ⟨h2, d, hd, hq⟩ := h.asleep q x hx' hb
      refine ⟨h2, d, hd, hq.post fun _ hq' => ?_⟩
      -- the head of the queue has been woken
      have hb' := hne (Option.some.inj (hh.symm.trans hq')).symm h2
      rw [hb] at hb'
      exact absurd hb' (by simp)
    · rw [hb] at hb'
      exact absurd hb' (by simp)

theorem shared_blocks (h : t.Shared) (hr : t.k.sched.running = some b) (hp : t.k.sched.heap b = some p)
    (hst : p.state = .running) (hm : t.k.sems.heap c = some m) :
    SemSys.Shared ⟨{ t.k with
      sems := t.k.sems.modify c (queueSem p.pid)
      sched := (blockProcess t.k.sched b).2 }, Function.update t.waitsOn b (some c)⟩ := by
  obtain ⟨p', hp', ht, -⟩ := h.ok.running b hr
  obtain rfl := Option.some.inj (hp.symm.trans hp')
  obtain ⟨h0, h1, -⟩ := h.ok.tab _ _ ht
  have hs := Sched.slot_eq ht hp
  rw [hst] at hs
  have hown : Queued (t.k.sems.modify c (queueSem p.pid)) c p.pid := by
    refine ⟨_, heapMod_of_some c _ hm, ?_⟩
    rw [if_pos rfl]
    exact List.mem_append_right _ (List.mem_singleton_self _)
  have hothers : ∀ q x, q ≠ p.pid → t.k.sched.slot q = some x → x.blocked = true → 2 ≤ q ∧
      ∃ d, Function.update t.waitsOn b (some c) x.proc = some d ∧
        Queued (t.k.sems.modify c (queueSem p.pid)) d q := by
    intro q x hne hx hb
    obtain ⟨h2, d, hd, hq⟩ := h.asleep q x hx hb
    have hproc : x.proc ≠ b := fun e => hne (h.ok.table_inj (e ▸ (Sched.of_slot hx).1) ht)
    refine ⟨h2, d, ?_, hq.enter p.pid⟩
    rw [Function.update_of_ne hproc]
    exact hd
  refine ⟨Sched.ok_blockProcess h.ok ht, h.noPipes, h.wf.modify c fun _ => rfl, fun d q hq => ?_,
    fun q x hx hb => ?_⟩
  · rcases hq.of_enter with hq | rfl
    · exact h.range d q hq
    · exact ⟨h0, h1⟩
  have hx : (blockProcess t.k.sched b).2.slot q = some x := hx
  by_cases h2 : 2 ≤ p.pid
  · rw [Sched.slot_blockProcess h.ok hp ht h2 hst] at hx
    by_cases e : q = p.pid
    · subst e
      rw [Function.update_self] at hx
      obtain rfl := Option.some.inj hx
      exact ⟨h2, c, Function.update_self .., hown⟩
    · rw [Function.update_of_ne e] at hx
      exact hothers q x e hx hb
  · -- `block_process` refuses the caller, who goes on
    rw [blockProcess_refused h.ok hp ht (by omega)] at hx
    refine hothers q x (fun e => ?_) hx hb
    rw [e, hs] at hx
    rw [← Option.some.inj hx] at hb
    exact absurd hb (by simp)

theorem shared_wait (h : t.Shared) (he : execShare (.wait c) t = some t') : t'.Shared := by
  obtain ⟨⟨b, p⟩, ha, rfl⟩ := Option.map_eq_some_iff.mp he
  obtain ⟨hr, hp, hst⟩ := actor_some ha
  cases hm : t.k.sems.heap c with
  | none =>
    rw [semWait_none h.wf hm]
    exact h
  | some m =>
    by_cases hv : m.value = 0
    · rw [semWait_zero h.wf hm hv hr hp]
      exact shared_blocks h hr hp hst hm
    · rw [semWait_pos h.wf hm hv]
      refine ⟨h.ok, h.noPipes, h.wf.modify c fun _ => rfl, fun d q hq => h.range d q hq.of_take,
        fun q x hx hb => ?_⟩
      obtain ⟨h2, d, hd, hq⟩ := h.asleep q x hx hb
      exact ⟨h2, d, hd, hq.take⟩

theorem Queued.semClose (hq : Queued t.k.sems d q) (h2 : 2 ≤ q)
    (hc : (ShareOp.close c).considerate t = true) : Queued (semClose t.k.sems c).2 d q := by
  obtain ⟨m, hm, hq⟩ := hq
  have hcond : ((t.k.sems.heap c).all fun m => dec16 m.users != 0 ||
      m.blockedProcesses.elems.all fun q => decide (q < 2)) = true := hc
  unfold Tp2So.semClose
  split
  · split
    · exact ⟨m, hm, hq⟩
    · rename_i n hn
      rw [hn, Option.all_some] at hcond
      split
      · refine ⟨_, heapMod_of_some c _ hm, ?_⟩
        split <;> exact hq
      · rename_i hu
        have hne : d ≠ c := by
          rintro rfl
          obtain rfl := Option.some.inj (hm.symm.trans hn)
          rw [Bool.or_eq_true] at hcond
          rcases hcond with hz | hz
          · exact hu (bne_iff_ne.mp hz)
          · have hlt := of_decide_eq_true (List.all_eq_true.mp hz q hq)
            omega
        exact ⟨m, (Function.update_of_ne hne ..).trans hm, hq⟩
  · exact ⟨m, hm, hq⟩

theorem Queued.of_semClose (h : r.Wf) (hq : Queued (Tp2So.semClose r c).2 d q) : Queued r d q := by
  obtain ⟨n', hn', hq⟩ := hq
  have hren := SemReg.renews_semClose h c ⟨[], 0, 0, createQueue⟩
  rcases hren.back d n' hn' with ⟨n, hn, -, -, he⟩ | ⟨-, -, -, he⟩
  · exact ⟨n, hn, he ▸ hq⟩
  · rw [he] at hq
    exact absurd hq List.not_mem_nil

theorem shared_close (h : t.Shared) (hc : (ShareOp.close c).considerate t = true) :
    SemSys.Shared { t with k := { t.k with sems := (semClose t.k.sems c).2 } } := by
  have hren := SemReg.renews_semClose h.wf c ⟨[], 0, 0, createQueue⟩
  refine ⟨h.ok, h.noPipes, hren.wf, fun d q hq => h.range d q (hq.of_semClose h.wf),
    fun q x hx hb => ?_⟩
  obtain ⟨h2, d, hd, hq⟩ := h.asleep q x hx hb
  exact ⟨h2, d, hd, hq.semClose h2 hc⟩

/-- **One step** keeps the invariant, unless a close takes the queue away from those in it. -/
theorem shared_step (o : ShareOp) (t t' : SemSys) (h : t.Shared) (hc : o.considerate t = true)
    (he : execShare o t = some t') : t'.Shared := by
  cases o with
  | create args => exact Option.some.inj he ▸ shared_create h args
  | openSem name v => exact Option.some.inj he ▸ shared_open h name v
  | wait c => exact shared_wait h he
  | post c => exact Option.some.inj he ▸ shared_post h c
  | close c => exact Option.some.inj he ▸ shared_close h hc
  | schedule fuel rsp =>
    obtain ⟨r, hr, rfl⟩ := Option.map_eq_some_iff.mp he
    refine ⟨Sched.ok_schedule h.ok hr, h.noPipes, h.wf, h.range, ?_⟩
    show ∀ q x, r.2.slot q = some x → _
    rw [Sched.slot_schedule h.ok hr]
    exact h.asleep

/-! ## runs -/

theorem shared_boot (stackBase : Nat) (recycled : List Int) : (SemSys.boot stackBase recycled).Shared := by
  have h := late_boot stackBase recycled
  refine ⟨h.ok, h.noPipes, h.wf, h.range, fun q x hx hb => ?_⟩
  obtain ⟨-, h2, c, m, hm, -⟩ := h.asleep q x hx hb
  have hnone : (initScheduler stackBase recycled).sems.heap c = none := by
    rw [Sched.initScheduler_eq]
    rfl
  exact absurd (hnone.symm.trans hm) (by simp)

/-- **Nobody is stranded** in a run in which no `semClose` destroys a semaphore that somebody waits
for. -/
theorem noneStranded_run {stackBase : Nat} {recycled : List Int} {os : List ShareOp} {t : SemSys}
    (h : Runs execShare (fun o t => o.considerate t) os (SemSys.boot stackBase recycled) t) :
    NoneStranded t := by
  have hinv : t.Shared :=
    Runs.inv (I := SemSys.Shared) shared_step h (shared_boot stackBase recycled)
  exact hinv.noneStranded

end

/-- process `2` waits for the semaphore `x`, which has been opened once, and process `3` runs -/
def sharedHandle : List ShareOp :=
  [.create (plainArgs ['i'] 8192), .create (plainArgs ['a'] 16384), .create (plainArgs ['b'] 24576),
    .openSem ['x'] 0, .schedule 4 7, .schedule 4 8200, .wait 3, .schedule 4 16400]

/-- a post comes before the close -/
theorem noneStranded_run_posted : ∃ t,
    Runs execShare (fun o t => o.considerate t) (sharedHandle ++ [.post 3, .close 3])
      (SemSys.boot 0 []) t ∧
    (t.k.sched.heap 2).map Process.state = some .ready ∧ NoneStranded t := by
  have hrun : (runIf execShare ShareOp.considerate (sharedHandle ++ [.post 3, .close 3])
      (SemSys.boot 0 [])).map (fun t => (t.k.sched.heap 2).map Process.state) = some (some .ready) := by
    decide +kernel
  obtain ⟨t, ht, hst⟩ := Option.map_eq_some_iff.mp hrun
  have h := runs_of_runIf ht
  exact ⟨t, h, hst, noneStranded_run h⟩

/-- process `3` closes the semaphore: the queue with process `2` in it is freed -/
theorem noneStranded_closed : ∃ t,
    run execShare (sharedHandle ++ [.close 3]) (SemSys.boot 0 []) = some t ∧ ¬ NoneStranded t := by
  have hrun : (run execShare (sharedHandle ++ [.close 3]) (SemSys.boot 0 [])).map
      (fun t => ((t.k.sched.heap 2).map (fun p => (p.pid, p.state)), t.k.sched.table 2, t.waitsOn 2,
        (t.k.sems.heap 3).isSome)) = some (some (2, .blocked), some 2, some 3, false) := by
    decide +kernel
  obtain ⟨t, ht, hv⟩ := Option.map_eq_some_iff.mp hrun
  simp only [Prod.mk.injEq] at hv
  obtain ⟨hp, htab, hw, hgone⟩ := hv
  obtain ⟨p, hp, hpv⟩ := Option.map_eq_some_iff.mp hp
  obtain ⟨hpid, hst⟩ := Prod.mk.inj hpv
  refine ⟨t, ht, fun hnone => ?_⟩
  obtain ⟨m, hm⟩ := hnone 3 2 ⟨p, hp, by rw [hpid]; exact htab, hst, hw⟩
  rw [hm] at hgone
  exact absurd hgone (by simp)

end Tp2So
