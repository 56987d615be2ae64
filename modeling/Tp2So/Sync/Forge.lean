import Tp2So.Kernel.Calls
import Tp2So.Sync.Window

/-!
# Block and unblock calls against semaphores

A run mixes waits and posts with `sys_block_process` and `sys_unblock_process`.  `pending` lists the
suspended `semWait` calls, each with its caller; such a call returns `0` as soon as its caller runs
again, whoever has woken it.  For each semaphore the run counts the calls that have returned `0` and
the posts, and notes the value it was opened with.

* `Unforged`           no more returns than tokens;
* `ForgeOp.honest`     no block or unblock call meets a pid that is in a blocked queue, and only
                       processes that `block_process` accepts wait;
* `unforged_run`       in a run of honest steps `Unforged` holds in every state.
-/

set_option linter.unusedVariables false

namespace Tp2So

structure ForgeSys where
  k : Kernel
  pending : List (Nat × Nat)
  returned : Nat → Nat
  posts : Nat → Nat
  initial : Nat → Nat

inductive ForgeOp where
  | create (args : CreateArgs)
  | openSem (name : List Char) (value : Nat)
  | wait (sem : Nat)
  | ret
  | post (sem : Nat)
  | sysBlock (pid : Int)
  | sysUnblock (pid : Int)
  | schedule (fuel rsp : Nat)

/-- one more, at `c` -/
def bump (f : Nat → Nat) (c : Nat) : Nat → Nat := Function.update f c (f c + 1)

/-- a semaphore that has just appeared starts with the value it has -/
def noteInitial (old new : SemReg) (initial : Nat → Nat) (c : Nat) : Nat :=
  if (old.heap c).isNone then ((new.heap c).map Sem.value).getD 0 else initial c

/-- the kernel after a call that may open a semaphore -/
def ForgeSys.opening (t : ForgeSys) (k : Kernel) : ForgeSys :=
  { t with k, initial := noteInitial t.k.sems k.sems t.initial }

def ForgeSys.setSched (t : ForgeSys) (s : Sched) : ForgeSys :=
  { t with k := { t.k with sched := s } }

/-- a process with a suspended call can do nothing but return from it -/
def execForge : ForgeOp → ForgeSys → Option ForgeSys
  | .create args, t => some (t.opening (createProcess t.k args).2)
  | .openSem name v, t => some (t.opening { t.k with sems := (semOpen t.k.sems name v).2 })
  | .wait c, t =>
    t.k.sched.actor.bind fun x =>
      if t.pending.any (fun y => y.1 == x.1) then none
      else
        match semWait t.k c with
        | (.error, k) => some { t with k }
        | (.granted, k) => some { t with k, returned := bump t.returned c }
        | (.suspended, k) => some { t with k, pending := (x.1, c) :: t.pending }
  | .ret, t =>
    t.k.sched.actor.bind fun x =>
      (t.pending.find? fun y => y.1 == x.1).map fun y =>
        { t with pending := t.pending.erase y, returned := bump t.returned y.2 }
  | .post c, t => some { t with k := (semPost t.k c).2, posts := bump t.posts c }
  | .sysBlock pid, t => some (t.setSched (sysBlockProcess t.k.sched pid).2)
  | .sysUnblock pid, t => some (t.setSched (sysUnblockProcess t.k.sched pid).2)
  | .schedule fuel rsp, t => (schedule fuel rsp t.k.sched).map fun r => t.setSched r.2

/-- no more returns than tokens -/
def Unforged (t : ForgeSys) : Prop :=
  ∀ c, isSemaphoreValid t.k.sems c = true → t.returned c ≤ t.initial c + t.posts c

def ForgeOp.honest : ForgeOp → ForgeSys → Bool
  | .wait _, t => t.k.sched.actor.all fun x => 2 ≤ x.2.pid
  | .sysBlock pid, t => unqueued t.k.sems pid
  | .sysUnblock pid, t => unqueued t.k.sems pid
  | _, _ => true

/-! ## the invariant -/

/-- the suspended calls on `c` -/
def ForgeSys.waiting (t : ForgeSys) (c : Nat) : List (Nat × Nat) :=
  t.pending.filter fun y => y.2 == c

structure ForgeSys.Inv (t : ForgeSys) : Prop where
  ok : t.k.sched.Ok
  noPipes : t.k.pipes.storage = []
  wf : t.k.sems.Wf
  callers : (t.pending.map Prod.fst).Nodup
  past : ∀ y ∈ t.pending, y.2 < t.k.sems.next
  unused : ∀ c, t.k.sems.next ≤ c → t.returned c = 0
  nodup : ∀ c m, t.k.sems.heap c = some m → m.blockedProcesses.elems.Nodup
  queued : ∀ c m, t.k.sems.heap c = some m → ∀ q ∈ m.blockedProcesses.elems,
    2 ≤ q ∧ q < maxProcesses ∧
      ∃ x, t.k.sched.slot q = some x ∧ x.blocked = true ∧ x.dead = false ∧ (x.proc, c) ∈ t.pending
  books : ∀ c m, t.k.sems.heap c = some m →
    m.value + t.returned c + (t.waiting c).length
      ≤ t.initial c + t.posts c + m.blockedProcesses.elems.length

section
variable {t t' : ForgeSys} {k : Kernel} {a b c d : Nat} {p : Process} {m : Sem} {pid q : Int}

/-- every queued pid stands for a suspended call of its own -/
theorem ForgeSys.Inv.length_le (h : t.Inv) (hm : t.k.sems.heap c = some m) :
    m.blockedProcesses.elems.length ≤ (t.waiting c).length := by
  have hproc : ∀ q ∈ m.blockedProcesses.elems, ∃ a, t.k.sched.table q = some a ∧
      (a, c) ∈ t.waiting c := by
    intro q hq
    obtain ⟨-, -, x, hx, -, -, hy⟩ := h.queued c m hm q hq
    exact ⟨x.proc, (Sched.of_slot hx).1, List.mem_filter.mpr ⟨hy, beq_self_eq_true c⟩⟩
  let f : Int → Nat × Nat := fun q => ((t.k.sched.table q).getD 0, c)
  have hf : ∀ q ∈ m.blockedProcesses.elems, ∀ q' ∈ m.blockedProcesses.elems, f q = f q' → q = q' := by
    intro q hq q' hq' he
    obtain ⟨a, ha, -⟩ := hproc q hq
    obtain ⟨a', ha', -⟩ := hproc q' hq'
    have haa : (t.k.sched.table q).getD 0 = (t.k.sched.table q').getD 0 := (Prod.mk.inj he).1
    rw [ha, ha', Option.getD_some, Option.getD_some] at haa
    exact h.ok.table_inj (haa ▸ ha) ha'
  have hsub : ∀ y ∈ m.blockedProcesses.elems.map f, y ∈ t.waiting c := by
    intro y hy
    obtain ⟨q, hq, rfl⟩ := List.mem_map.mp hy
    obtain ⟨a, ha, hmem⟩ := hproc q hq
    show ((t.k.sched.table q).getD 0, c) ∈ _
    rw [ha]
    exact hmem
  have hnd : (m.blockedProcesses.elems.map f).Nodup :=
    List.Nodup.map_on (fun q hq q' hq' he => hf q hq q' hq' he) (h.nodup c m hm)
  have hle := List.Nodup.length_le_of_subset hnd hsub
  rwa [List.length_map] at hle

theorem ForgeSys.Inv.unforged (h : t.Inv) : Unforged t := by
  intro c hc
  obtain ⟨m, hm⟩ := h.wf.valid_iff.mp hc
  have hb := h.books c m hm
  have hl := h.length_le hm
  omega

/-! ## steps of the scheduler -/

/-- only the slot of `pid` can show what happens to its process -/
theorem slot_of_ne {s u : Sched} (h : s.Ok) (ht : s.table pid = some a) (htab : u.table = s.table)
    (hheap : ∀ b, b ≠ a → u.heap b = s.heap b) (hq : q ≠ pid) : u.slot q = s.slot q := by
  unfold Sched.slot
  rw [htab]
  cases htq : s.table q with
  | none => rfl
  | some b =>
    have hb : b ≠ a := fun e => hq (h.table_inj (e ▸ htq) ht)
    rw [Option.bind_some, Option.bind_some, hheap b hb]

theorem blockProcess_table (s : Sched) (a : Nat) : (blockProcess s a).2.table = s.table := by
  rcases Sched.blockProcess_cases s a with hbl | ⟨p, -, -, -, -, -, hbl⟩
  · rw [hbl]
  · rw [hbl]
    exact Sched.removeFromAll_table s a

theorem blockProcess_of_ne {s : Sched} (hne : b ≠ a) : (blockProcess s a).2.heap b = s.heap b := by
  have hmod : ∀ (u : Sched) f, (u.modify a f).heap b = u.heap b := fun u f => heapMod_of_ne _ _ hne
  rcases Sched.blockProcess_cases s a with hbl | ⟨p, -, -, -, -, -, hbl⟩
  · rw [hbl]
  · rw [hbl, hmod, hmod, Sched.removeFromAll_heap]

/-- what the two calls do to the slots of the others, and that the queues stay in order -/
theorem sysBlock_spec {s : Sched} (h : s.Ok) (pid : Int) :
    (sysBlockProcess s pid).2.Ok ∧ ∀ q, q ≠ pid → (sysBlockProcess s pid).2.slot q = s.slot q := by
  unfold sysBlockProcess
  cases hg : getProcess s pid with
  | none => exact ⟨h, fun _ _ => rfl⟩
  | some a =>
    obtain ⟨-, -, ht⟩ := getProcess_eq_some hg
    obtain ⟨-, -, p, hp, -⟩ := h.tab pid a ht
    simp only [hp]
    split
    · exact ⟨h, fun _ _ => rfl⟩
    · split
      · exact ⟨Sched.ok_unblockProcess h ht, fun q hq => slot_of_ne h ht
          (Sched.same_unblockProcess s a).table (fun b hb => unblockProcess_of_ne hb) hq⟩
      · exact ⟨Sched.ok_blockProcess h ht, fun q hq => slot_of_ne h ht
          (blockProcess_table s a) (fun b hb => blockProcess_of_ne hb) hq⟩

theorem sysUnblock_spec {s : Sched} (h : s.Ok) (pid : Int) :
    (sysUnblockProcess s pid).2.Ok ∧ ∀ q, q ≠ pid → (sysUnblockProcess s pid).2.slot q = s.slot q := by
  unfold sysUnblockProcess
  cases hg : getProcess s pid with
  | none => exact ⟨h, fun _ _ => rfl⟩
  | some a =>
    obtain ⟨-, -, ht⟩ := getProcess_eq_some hg
    exact ⟨Sched.ok_unblockProcess h ht, fun q hq => slot_of_ne h ht
      (Sched.same_unblockProcess s a).table (fun b hb => unblockProcess_of_ne hb) hq⟩

/-- a step that leaves the slots of the queued processes alone -/
theorem forge_resched (h : t.Inv) {s : Sched} (hok : s.Ok)
    (hkeep : ∀ q, ¬ Unqueued t.k.sems q → s.slot q = t.k.sched.slot q) : (t.setSched s).Inv := by
  refine ⟨hok, h.noPipes, h.wf, h.callers, h.past, h.unused, h.nodup, fun c m hm q hq => ?_, h.books⟩
  obtain ⟨h2, h64, x, hx, hrest⟩ := h.queued c m hm q hq
  refine ⟨h2, h64, x, ?_, hrest⟩
  show s.slot q = _
  rw [hkeep q fun hun => hun c m hm hq]
  exact hx

/-! ## steps that open a semaphore -/

theorem forge_opening (h : t.Inv) {s : Sched} {r : SemReg} {m₀ : Sem} (hok : s.Ok)
    (hkeep : ∀ q x, t.k.sched.slot q = some x → x.dead = false → s.slot q = some x)
    (hren : SemReg.Renews t.k.sems r m₀) (h0 : m₀.blockedProcesses.elems = []) :
    (t.opening { t.k with sched := s, sems := r }).Inv := by
  have hback : ∀ c n, r.heap c = some n → (∃ m, t.k.sems.heap c = some m ∧ m.Alike n) ∨
      (t.k.sems.next ≤ c ∧ n.blockedProcesses.elems = []) := by
    intro c n hn
    rcases hren.back c n hn with hold | ⟨hc, -, -, he⟩
    · exact Or.inl hold
    · exact Or.inr ⟨hc, by rw [he, h0]⟩
  refine ⟨hok, h.noPipes, hren.wf, h.callers, fun y hy => Nat.lt_of_lt_of_le (h.past y hy) hren.next,
    fun c hc => h.unused c (Nat.le_trans hren.next hc), fun c n hn => ?_, fun c n hn q hq => ?_,
    fun c n hn => ?_⟩
  · rcases hback c n hn with ⟨m, hm, -, -, he⟩ | ⟨-, he⟩
    · rw [he]
      exact h.nodup c m hm
    · rw [he]
      exact List.nodup_nil
  · rcases hback c n hn with ⟨m, hm, -, -, he⟩ | ⟨-, he⟩
    · obtain ⟨h2, h64, x, hx, hb, hd, hy⟩ := h.queued c m hm q (he ▸ hq)
      exact ⟨h2, h64, x, hkeep q x hx hd, hb, hd, hy⟩
    · rw [he] at hq
      exact absurd hq List.not_mem_nil
  · show n.value + t.returned c + (t.waiting c).length
      ≤ noteInitial t.k.sems r t.initial c + t.posts c + n.blockedProcesses.elems.length
    unfold noteInitial
    rcases hback c n hn with ⟨m, hm, -, hv, he⟩ | ⟨hc, he⟩
    · rw [hm, hv, he]
      exact h.books c m hm
    · -- nobody has used it yet
      have hnone := h.wf.fresh c hc
      have hw : t.waiting c = [] := by
        refine List.filter_eq_nil_iff.mpr fun y hy hyc => ?_
        have hlt := h.past y hy
        rw [beq_iff_eq.mp hyc] at hlt
        omega
      have hn' : r.heap c = some n := hn
      rw [hnone, h.unused c hc, hw, he, hn']
      simp

theorem forge_create (h : t.Inv) (args : CreateArgs) :
    (t.opening (createProcess t.k args).2).Inv := by
  have hok := Sched.ok_createProcess h.ok args
  rcases createProcess_spec h.ok h.noPipes args with ⟨-, s, he, hs⟩ | ⟨pid, name, s, hp, hn, he, hs⟩
  · rw [he] at hok ⊢
    exact forge_opening h hok (fun q x hx _ => by rw [hs]; exact hx)
      (SemReg.Renews.refl h.wf (SemReg.fresh [] 0)) rfl
  · rw [he] at hok ⊢
    obtain ⟨-, -, hf⟩ := Sched.assignPid_spec hp
    refine forge_opening h hok (fun q x hx hd => ?_) (SemReg.renews_semOpen h.wf name 0) rfl
    have hne : q ≠ pid := by
      rintro rfl
      obtain ⟨ht, p, hp, he⟩ := Sched.of_slot hx
      rw [he, Sched.slotFree_terminated hf ht hp] at hd
      exact absurd hd (by simp)
    rw [hs]
    unfold bornSlots
    rw [if_neg hne, hx]
    exact Option.filter_eq_some_iff.mpr ⟨rfl, by rw [hd]; rfl⟩

/-! ## waits, returns and posts -/

theorem bump_self (f : Nat → Nat) (c : Nat) : bump f c c = f c + 1 := Function.update_self ..

theorem bump_of_ne (f : Nat → Nat) (hne : d ≠ c) : bump f c d = f d := Function.update_of_ne hne ..

/-- a process with a suspended call is not queued while it runs -/
theorem ForgeSys.Inv.running_unqueued (h : t.Inv) (hp : t.k.sched.heap b = some p)
    (ht : t.k.sched.table p.pid = some b) (hst : p.state = .running) : Unqueued t.k.sems p.pid := by
  intro c m hm hq
  obtain ⟨-, -, x, hx, hb, -⟩ := h.queued c m hm p.pid hq
  rw [Sched.slot_eq ht hp, hst] at hx
  obtain rfl := Option.some.inj hx
  exact absurd hb (by simp)

theorem forge_takes (h : t.Inv) (hm : t.k.sems.heap c = some m) (hv : m.value ≠ 0) :
    ForgeSys.Inv { t with
      k := { t.k with sems := t.k.sems.modify c takeSem }, returned := bump t.returned c } := by
  have hlt := h.wf.lt_next hm
  refine ⟨h.ok, h.noPipes, h.wf.modify c fun _ => rfl, h.callers, h.past, fun d hd => ?_,
    fun d n hn => ?_, fun d n hn q hq => ?_, fun d n hn => ?_⟩
  · have hne : d ≠ c := by
      rintro rfl
      exact absurd hlt (Nat.not_lt.mpr hd)
    show bump t.returned c d = 0
    rw [bump_of_ne _ hne]
    exact h.unused d hd
  · obtain ⟨n', hn', rfl⟩ := heapMod_some hn
    split <;> exact h.nodup d n' hn'
  · obtain ⟨n', hn', rfl⟩ := heapMod_some hn
    refine h.queued d n' hn' q ?_
    split at hq <;> exact hq
  · obtain ⟨n', hn', rfl⟩ := heapMod_some hn
    have hb := h.books d n' hn'
    show _ + bump t.returned c d + (t.waiting d).length ≤ t.initial d + t.posts d + _
    by_cases e : d = c
    · subst e
      obtain rfl := Option.some.inj (hm.symm.trans hn')
      rw [if_pos rfl, bump_self]
      show m.value - 1 + _ + _ ≤ _ + _ + m.blockedProcesses.elems.length
      omega
    · rw [if_neg e, bump_of_ne _ e]
      exact hb

theorem forge_sleeps (h : t.Inv) (hm : t.k.sems.heap c = some m) (hp : t.k.sched.heap b = some p)
    (ht : t.k.sched.table p.pid = some b) (hst : p.state = .running) (h2 : 2 ≤ p.pid)
    (hnew : ¬t.pending.any (fun y => y.1 == b) = true) :
    ForgeSys.Inv { t with
      k := { t.k with sems := t.k.sems.modify c (queueSem p.pid), sched := (blockProcess t.k.sched b).2 }
      pending := (b, c) :: t.pending } := by
  have hlt := h.wf.lt_next hm
  have hun := h.running_unqueued hp ht hst
  have hslot := Sched.slot_blockProcess h.ok hp ht h2 hst
  refine ⟨Sched.ok_blockProcess h.ok ht, h.noPipes, h.wf.modify c fun _ => rfl, ?_,
    fun y hy => ?_, h.unused, fun d n hn => ?_, fun d n hn q hq => ?_, fun d n hn => ?_⟩
  · show (b :: t.pending.map Prod.fst).Nodup
    refine List.nodup_cons.mpr ⟨fun hb => hnew ?_, h.callers⟩
    obtain ⟨y, hy, hyb⟩ := List.mem_map.mp hb
    exact List.any_eq_true.mpr ⟨y, hy, beq_iff_eq.mpr hyb⟩
  · rcases List.mem_cons.mp hy with rfl | hy
    · exact hlt
    · exact h.past y hy
  · obtain ⟨n', hn', rfl⟩ := heapMod_some hn
    split
    · refine List.nodup_append.mpr ⟨h.nodup d n' hn', List.nodup_singleton _, ?_⟩
      rintro q hq q' hq' rfl
      obtain rfl := List.mem_singleton.mp hq'
      exact hun d n' hn' hq
    · exact h.nodup d n' hn'
  · show 2 ≤ q ∧ q < maxProcesses ∧ ∃ x, (blockProcess t.k.sched b).2.slot q = some x ∧ _
    rw [hslot]
    obtain ⟨n', hn', rfl⟩ := heapMod_some hn
    -- the caller is the only new waiter
    have hcase : (q = p.pid ∧ d = c) ∨ q ∈ n'.blockedProcesses.elems := by
      split at hq
      · rename_i e
        rcases List.mem_append.mp hq with hq | hq
        · exact Or.inr hq
        · exact Or.inl ⟨List.mem_singleton.mp hq, e⟩
      · exact Or.inr hq
    rcases hcase with ⟨rfl, rfl⟩ | hq
    · exact ⟨h2, (h.ok.tab _ _ ht).2.1, _, Function.update_self .., rfl, rfl,
        List.mem_cons_self⟩
    · obtain ⟨hq2, hq64, x, hx, hb, hd, hy⟩ := h.queued d n' hn' q hq
      have hne : q ≠ p.pid := fun e => hun d n' hn' (e ▸ hq)
      exact ⟨hq2, hq64, x, by rw [Function.update_of_ne hne]; exact hx, hb, hd,
        List.mem_cons_of_mem _ hy⟩
  · obtain ⟨n', hn', rfl⟩ := heapMod_some hn
    have hb := h.books d n' hn'
    show _ + t.returned d + (List.filter _ ((b, c) :: t.pending)).length ≤ _
    by_cases e : d = c
    · subst e
      rw [if_pos rfl, List.filter_cons_of_pos (by simp)]
      have hlen : (queueSem p.pid n').blockedProcesses.elems.length
          = n'.blockedProcesses.elems.length + 1 := List.length_append
      have hb : n'.value + t.returned d + (List.filter (fun y => y.2 == d) t.pending).length
        ≤ _ := hb
      rw [hlen, List.length_cons]
      show n'.value + _ + _ ≤ t.initial d + t.posts d + _
      omega
    · have hcd : c ≠ d := fun e' => e e'.symm
      rw [if_neg e, List.filter_cons_of_neg (by simpa using hcd)]
      exact hb

theorem forge_wait (h : t.Inv) (hc : (ForgeOp.wait c).honest t = true)
    (he : execForge (.wait c) t = some t') : t'.Inv := by
  obtain ⟨⟨b, p⟩, ha, he⟩ := Option.bind_eq_some_iff.mp he
  obtain ⟨hr, hp, hst⟩ := actor_some ha
  obtain ⟨p', hp', ht, -⟩ := h.ok.running b hr
  obtain rfl := Option.some.inj (hp.symm.trans hp')
  have h2 : 2 ≤ p.pid := by
    have hall : t.k.sched.actor.all (fun x => 2 ≤ x.2.pid) = true := hc
    rw [ha] at hall
    exact of_decide_eq_true hall
  simp only at he
  split at he
  · exact absurd he (by simp)
  · rename_i hnew
    cases hm : t.k.sems.heap c with
    | none =>
      rw [semWait_none h.wf hm] at he
      exact Option.some.inj he ▸ h
    | some m =>
      by_cases hv : m.value = 0
      · rw [semWait_zero h.wf hm hv hr hp] at he
        exact Option.some.inj he ▸ forge_sleeps h hm hp ht hst h2 hnew
      · rw [semWait_pos h.wf hm hv] at he
        exact Option.some.inj he ▸ forge_takes h hm hv

theorem forge_ret (h : t.Inv) (he : execForge .ret t = some t') : t'.Inv := by
  obtain ⟨⟨b, p⟩, ha, he⟩ := Option.bind_eq_some_iff.mp he
  obtain ⟨hr, hp, hst⟩ := actor_some ha
  obtain ⟨p', hp', ht, -⟩ := h.ok.running b hr
  obtain rfl := Option.some.inj (hp.symm.trans hp')
  obtain ⟨y, hy, rfl⟩ := Option.map_eq_some_iff.mp he
  have hmem : y ∈ t.pending := List.mem_of_find?_eq_some hy
  have hyb : y.1 = b := beq_iff_eq.mp (List.find?_some (p := fun y : Nat × Nat => y.1 == b) hy)
  have hsub : (t.pending.erase y).Sublist t.pending := List.erase_sublist
  refine ⟨h.ok, h.noPipes, h.wf, h.callers.sublist (hsub.map _), fun z hz => h.past z (hsub.subset hz),
    fun d hd => ?_, h.nodup, fun d n hn q hq => ?_, fun d n hn => ?_⟩
  · have hne : d ≠ y.2 := by
      rintro rfl
      exact absurd (h.past y hmem) (Nat.not_lt.mpr hd)
    show bump t.returned y.2 d = 0
    rw [bump_of_ne _ hne]
    exact h.unused d hd
  · obtain ⟨h2, h64, x, hx, hb, hd, hz⟩ := h.queued d n hn q hq
    refine ⟨h2, h64, x, hx, hb, hd, ?_⟩
    -- a BLOCKED process is not the one that returns
    have hne : (x.proc, d) ≠ y := by
      rintro rfl
      obtain ⟨-, p', hp', hxe⟩ := Sched.of_slot hx
      have hp'' : t.k.sched.heap b = some p' := by
        rw [← hyb]
        exact hp'
      obtain rfl := Option.some.inj (hp.symm.trans hp'')
      rw [hxe, hst] at hb
      exact absurd hb (by simp)
    exact (List.mem_erase_of_ne hne).mpr hz
  · have hb := h.books d n hn
    show n.value + bump t.returned y.2 d + (List.filter _ (t.pending.erase y)).length
      ≤ t.initial d + t.posts d + _
    by_cases e : d = y.2
    · subst e
      have hlen : (List.filter (fun z => z.2 == y.2) (t.pending.erase y)).length + 1
          = (t.waiting y.2).length := by
        have hyw : y ∈ t.waiting y.2 := List.mem_filter.mpr ⟨hmem, beq_self_eq_true _⟩
        unfold ForgeSys.waiting at hyw ⊢
        rw [← List.erase_filter, List.length_erase_of_mem hyw]
        exact Nat.succ_pred_eq_of_pos (List.length_pos_of_mem hyw)
      rw [bump_self]
      omega
    · have hlen : (List.filter (fun z => z.2 == d) (t.pending.erase y)).length
          ≤ (t.waiting d).length := (hsub.filter _).length_le
      rw [bump_of_ne _ e]
      omega

theorem inc16_le (n : Nat) : inc16 n ≤ n + 1 := Nat.mod_le ..

theorem forge_post (h : t.Inv) (he : execForge (.post c) t = some t') : t'.Inv := by
  obtain rfl := Option.some.inj he
  have hok := (Sched.wakes_semPost t.k c).ok h.ok
  have hpost := semPost_eq h.wf c
  have hwf : (t.k.sems.modify c postSem).Wf := h.wf.modify c postSem_name
  -- the slots of the pids that stay in their queue are as they were
  have hslot : ∀ q, headWaiter t.k.sems c ≠ some q →
      ((headWaiter t.k.sems c).elim t.k.sched (wakePid t.k.sched)).slot q = t.k.sched.slot q := by
    intro q hq
    cases hh : headWaiter t.k.sems c with
    | none => rfl
    | some pid =>
      obtain ⟨m, hm, hmq⟩ := Option.bind_eq_some_iff.mp hh
      obtain ⟨h2, h64, -⟩ := h.queued c m hm pid (List.mem_of_mem_head? hmq)
      have hne : q ≠ pid := fun e => hq (by rw [hh, e])
      show (wakePid t.k.sched pid).slot q = _
      rw [Sched.slot_wakePid h.ok (by omega) h64, if_pos h2, Function.update_of_ne hne]
  rw [hpost] at hok ⊢
  refine ⟨hok, h.noPipes, hwf, h.callers, h.past, h.unused, fun d n hn => ?_, fun d n hn q hq => ?_,
    fun d n hn => ?_⟩
  · obtain ⟨n', hn', rfl⟩ := heapMod_some hn
    have hnd := h.nodup d n' hn'
    split
    · cases hq : n'.blockedProcesses.elems with
      | nil =>
        rw [postSem_nil hq]
        exact hnd
      | cons q rest =>
        rw [hq] at hnd
        rw [(postSem_cons hq).1]
        exact (List.nodup_cons.mp hnd).2
    · exact hnd
  · obtain ⟨n', hn', hq'⟩ := of_mem_posted hn hq
    obtain ⟨h2, h64, x, hx, hb, hd, hz⟩ := h.queued d n' hn' q hq'
    refine ⟨h2, h64, x, ?_, hb, hd, hz⟩
    show ((headWaiter t.k.sems c).elim t.k.sched (wakePid t.k.sched)).slot q = _
    rw [hslot q fun hh => ?_]
    · exact hx
    · -- the head of `c` waits on `c` only, and only once
      obtain ⟨m, hm, hmq⟩ := Option.bind_eq_some_iff.mp hh
      obtain ⟨-, -, x', hx', -, -, hz'⟩ := h.queued c m hm q (List.mem_of_mem_head? hmq)
      obtain rfl := Option.some.inj (hx.symm.trans hx')
      obtain rfl : d = c := (Prod.mk.inj (List.inj_on_of_nodup_map h.callers hz hz' rfl)).2
      obtain rfl := Option.some.inj (hm.symm.trans hn')
      obtain ⟨n'', hn'', rfl⟩ := heapMod_some hn
      obtain rfl := Option.some.inj (hm.symm.trans hn'')
      rw [if_pos rfl] at hq
      have hnd := h.nodup d m hm
      cases hme : m.blockedProcesses.elems with
      | nil =>
        rw [hme] at hmq
        exact absurd hmq (by simp)
      | cons q₀ rest =>
        rw [hme] at hmq hnd
        rw [(postSem_cons hme).1] at hq
        obtain rfl := Option.some.inj hmq
        exact (List.nodup_cons.mp hnd).1 hq
  · obtain ⟨n', hn', rfl⟩ := heapMod_some hn
    have hb := h.books d n' hn'
    show _ + t.returned d + (t.waiting d).length ≤ t.initial d + bump t.posts c d + _
    by_cases e : d = c
    · subst e
      rw [if_pos rfl, bump_self]
      cases hq : n'.blockedProcesses.elems with
      | nil =>
        rw [postSem_nil hq]
        rw [hq] at hb
        have hinc := inc16_le n'.value
        show inc16 n'.value + _ + _ ≤ _ + _ + n'.blockedProcesses.elems.length
        rw [hq]
        omega
      | cons q rest =>
        rw [(postSem_cons hq).1, (postSem_cons hq).2]
        rw [hq, List.length_cons] at hb
        omega
    · rw [if_neg e, bump_of_ne _ e]
      exact hb

/-- **One step.**  An honest step keeps the books. -/
theorem forge_step (o : ForgeOp) (t t' : ForgeSys) (h : t.Inv) (hc : o.honest t = true)
    (he : execForge o t = some t') : t'.Inv := by
  have hother : ∀ {pid q : Int}, unqueued t.k.sems pid = true → ¬ Unqueued t.k.sems q → q ≠ pid := by
    rintro pid q hun hq rfl
    exact hq ((unqueued_iff h.wf).mp hun)
  cases o with
  | create args => exact Option.some.inj he ▸ forge_create h args
  | openSem name v =>
    exact Option.some.inj he ▸ forge_opening h h.ok (fun q x hx _ => hx)
      (SemReg.renews_semOpen h.wf name v) rfl
  | wait c => exact forge_wait h hc he
  | ret => exact forge_ret h he
  | post c => exact forge_post h he
  | sysBlock pid =>
    obtain ⟨hok, hslot⟩ := sysBlock_spec h.ok pid
    exact Option.some.inj he ▸ forge_resched h hok fun q hq => hslot q (hother hc hq)
  | sysUnblock pid =>
    obtain ⟨hok, hslot⟩ := sysUnblock_spec h.ok pid
    exact Option.some.inj he ▸ forge_resched h hok fun q hq => hslot q (hother hc hq)
  | schedule fuel rsp =>
    obtain ⟨r, hr, rfl⟩ := Option.map_eq_some_iff.mp he
    exact forge_resched h (Sched.ok_schedule h.ok hr) fun q _ => by rw [Sched.slot_schedule h.ok hr]

/-! ## runs -/

def ForgeSys.boot (stackBase : Nat) (recycled : List Int) : ForgeSys where
  k := initScheduler stackBase recycled
  pending := []
  returned := fun _ => 0
  posts := fun _ => 0
  initial := fun _ => 0

theorem forge_boot (stackBase : Nat) (recycled : List Int) :
    (ForgeSys.boot stackBase recycled).Inv := by
  have h := inv_boot stackBase recycled
  have hempty : ∀ c m, (initScheduler stackBase recycled).sems.heap c = some m → False := by
    rw [Sched.initScheduler_eq]
    intro c m hm
    cases hm
  exact ⟨h.ok, h.noPipes, h.waiters.wf, List.nodup_nil, fun y hy => absurd hy List.not_mem_nil,
    fun _ _ => rfl, fun c m hm => (hempty c m hm).elim, fun c m hm => (hempty c m hm).elim,
    fun c m hm => (hempty c m hm).elim⟩

/-- **Nothing is forged.**  In every run of honest steps, the waits on a semaphore that have returned
`0` are at most its initial value and the posts on it. -/
theorem unforged_run {stackBase : Nat} {recycled : List Int} {os : List ForgeOp} {t : ForgeSys}
    (h : Runs execForge (fun o t => o.honest t) os (ForgeSys.boot stackBase recycled) t) :
    Unforged t := by
  have hinv : t.Inv := Runs.inv (I := ForgeSys.Inv) forge_step h (forge_boot stackBase recycled)
  exact hinv.unforged

/-- process `2` is suspended on the semaphore `x`, which has no token -/
def suspendedWait : List ForgeOp :=
  [.create (plainArgs ['i'] 8192), .create (plainArgs ['a'] 16384), .openSem ['x'] 0,
    .schedule 4 7, .schedule 4 8200, .wait 2, .schedule 4 16400]

theorem unforged_run_posted : ∃ t,
    Runs execForge (fun o t => o.honest t) (suspendedWait ++ [.post 2, .schedule 4 8200, .ret])
      (ForgeSys.boot 0 []) t ∧ t.returned 2 = 1 ∧ Unforged t := by
  have hrun : (runIf execForge ForgeOp.honest (suspendedWait ++ [.post 2, .schedule 4 8200, .ret])
      (ForgeSys.boot 0 [])).map (fun t => t.returned 2) = some 1 := by decide +kernel
  obtain ⟨t, ht, hret⟩ := Option.map_eq_some_iff.mp hrun
  have h := runs_of_runIf ht
  exact ⟨t, h, hret, unforged_run h⟩

/-- `sys_block_process` on the waiter unblocks it: its `semWait` returns `0` without a token -/
theorem unforged_toggled : ∃ t,
    run execForge (suspendedWait ++ [.sysBlock 2, .schedule 4 8200, .ret]) (ForgeSys.boot 0 [])
      = some t ∧ ¬ Unforged t := by
  have hrun : (run execForge (suspendedWait ++ [.sysBlock 2, .schedule 4 8200, .ret])
      (ForgeSys.boot 0 [])).map (fun t => (isSemaphoreValid t.k.sems 2, t.returned 2, t.initial 2,
        t.posts 2)) = some (true, 1, 0, 0) := by decide +kernel
  obtain ⟨t, ht, hv⟩ := Option.map_eq_some_iff.mp hrun
  simp only [Prod.mk.injEq] at hv
  obtain ⟨hvalid, hret, hinit, hposts⟩ := hv
  refine ⟨t, ht, fun hun => ?_⟩
  have hle := hun 2 hvalid
  omega

end

end Tp2So
