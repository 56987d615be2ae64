import Tp2So.Sync.Posts

/-!
# Conservation of tokens and the order of waiters

Beside the run, a ledger of the semaphore `c` is kept by looking at the kernel before and after each
step: how many posts were made, how many waits were granted at once, which waits were suspended and
which suspended processes a post has made READY, both in order, and which processes are between a
granted wait and their next post.

* `Ledger.record`      the book-keeping;
* `Balanced v c t`     the books of a semaphore that started with `v` tokens;
* `SemOp.counted c`    nobody is killed, and a post leaves fewer than 65536 tokens;
* `SemOp.paired c`     each process waits outside and posts inside its section;
* `balanced_run`       the books of every run, and mutual exclusion for `v = 1`.
-/

set_option linter.unusedVariables false

namespace Tp2So

structure Ledger where
  posts : Nat := 0
  taken : Nat := 0
  slept : List Int := []
  woken : List Int := []
  inside : List Int := []

structure LedgerSys where
  sys : SemSys
  led : Ledger

/-- the pids whose processes are BLOCKED in `k` and no longer in `k'` -/
def newlyWoken (k k' : Kernel) : List Int :=
  allPids.filter fun q => (k.sched.slot q).any Slot.blocked && !(k'.sched.slot q).any Slot.blocked

/-- the pid of the process that makes the call -/
def callerPid (k : Kernel) : List Int := (k.sched.actor.map fun x => x.2.pid).toList

def Ledger.record (c : Nat) (o : SemOp) (s s' : SemSys) (l : Ledger) : Ledger :=
  match o with
  | .wait d =>
    if d = c then
      match (semWait s.k c).1 with
      | .granted => { l with taken := l.taken + 1, inside := l.inside ++ callerPid s.k }
      | .suspended => { l with slept := l.slept ++ callerPid s.k }
      | .error => l
    else l
  | .post d =>
    if d = c then
      { l with posts := l.posts + 1
               woken := l.woken ++ newlyWoken s.k s'.k
               inside := l.inside.diff (callerPid s.k) ++ newlyWoken s.k s'.k }
    else l
  | _ => l

def execLedger (c : Nat) (o : SemOp) (t : LedgerSys) : Option LedgerSys :=
  (execSem o t.sys).map fun s => ⟨s, t.led.record c o t.sys s⟩

/-- nobody is killed, a post on `c` leaves fewer than 65536 tokens -/
def SemOp.counted (c : Nat) (o : SemOp) (t : LedgerSys) : Bool :=
  o.clean t.sys &&
  match o with
  | .kill _ => false
  | .post d => d != c || (t.sys.k.sems.heap c).all fun m => m.value < 65535
  | _ => true

/-- waits are made outside, posts inside a section -/
def SemOp.paired (c : Nat) (o : SemOp) (t : LedgerSys) : Bool :=
  match o with
  | .wait d => d != c || (callerPid t.sys.k).all fun q => !t.led.inside.contains q
  | .post d => d != c ||
      (!(callerPid t.sys.k).isEmpty && (callerPid t.sys.k).all fun q => t.led.inside.contains q)
  | _ => true

/-- the books of the semaphore `c`, which started with `v` tokens -/
structure Balanced (v c : Nat) (t : LedgerSys) : Prop where
  sem : ∃ m, t.sys.k.sems.heap c = some m ∧
    m.value + (t.led.taken + t.led.woken.length) = v + t.led.posts ∧
    (0 < m.value → m.blockedProcesses.elems = []) ∧
    (∀ q ∈ m.blockedProcesses.elems, ∃ a p, getProcess t.sys.k.sched q = some a ∧
      t.sys.k.sched.heap a = some p ∧ p.state = .blocked) ∧
    t.led.slept = t.led.woken ++ m.blockedProcesses.elems

/-! ## what a post wakes -/

theorem allPids_nodup : allPids.Nodup := by
  unfold allPids
  exact List.nodup_range.map fun _ _ h => Int.ofNat.inj h

theorem newlyWoken_eq_nil {k k' : Kernel} (h : k'.sched.slot = k.sched.slot) :
    newlyWoken k k' = [] := by
  unfold newlyWoken
  rw [h]
  exact List.filter_eq_nil_iff.mpr fun q _ => by simp

theorem newlyWoken_eq_singleton {k k' : Kernel} {pid : Int} (h0 : 0 ≤ pid) (h1 : pid < maxProcesses)
    {x : Slot} (hx : k.sched.slot pid = some x) (hb : x.blocked = true)
    (h : k'.sched.slot = wokenSlots k.sched.slot (some pid)) : newlyWoken k k' = [pid] := by
  have hpred : ∀ q, ((k.sched.slot q).any Slot.blocked && !(k'.sched.slot q).any Slot.blocked)
      = (q == pid) := by
    intro q
    rw [h]
    show (_ && !(Function.update k.sched.slot pid _ q).any _) = _
    by_cases e : q = pid
    · subst e
      rw [Function.update_self, hx]
      simp [hb, Sched.wakeSlot]
    · rw [Function.update_of_ne e, beq_false_of_ne e]
      simp
  unfold newlyWoken
  rw [List.filter_congr fun q _ => hpred q, List.filter_beq,
    List.count_eq_one_of_mem allPids_nodup (Sched.mem_allPids.mpr ⟨h0, h1⟩)]
  rfl

section
variable {t : SemSys} {k : Kernel} {a b c d : Nat} {p : Process} {m : Sem} {v : Nat}

/-- what a post wakes is what it takes out of the queue -/
theorem newlyWoken_post (h : t.Inv) (hm : t.k.sems.heap c = some m) :
    newlyWoken t.k (semPost t.k c).2 = m.blockedProcesses.elems.head?.toList := by
  have hh : headWaiter t.k.sems c = m.blockedProcesses.elems.head? := by
    unfold headWaiter
    rw [hm]
    rfl
  have hslot := slot_semPost h c
  rw [hh] at hslot
  cases hq : m.blockedProcesses.elems with
  | nil =>
    rw [hq] at hslot
    exact newlyWoken_eq_nil hslot
  | cons q rest =>
    rw [hq] at hslot
    have hmem : q ∈ m.blockedProcesses.elems := by rw [hq]; exact List.mem_cons_self
    obtain ⟨h2, h64, hs⟩ := h.waiters.queued c m hm q hmem
    obtain ⟨x, hx⟩ := h.tracked c m hm q hmem
    exact newlyWoken_eq_singleton (by omega) h64 hx (hs x hx).1 hslot

/-! ## the semaphore `c` through the steps that do not concern it -/

theorem SemReg.semOpen_keeps {r : SemReg} (h : r.Wf) (hm : r.heap c = some m) (name : List Char) :
    ∃ m', (semOpen r name v).2.heap c = some m' ∧ m.Alike m' := by
  by_cases hlen : name.length < maxSemLength
  · cases hl : locateSemaphoreByName r name with
    | some a =>
      rw [semOpen_found hlen hl]
      refine ⟨_, heapMod_of_some a moreUsers hm, ?_⟩
      split
      · exact alike_moreUsers m
      · exact ⟨rfl, rfl, rfl⟩
    | none =>
      rw [semOpen_new hlen hl]
      have hne : c ≠ r.next := Nat.ne_of_lt (h.lt_next hm)
      exact ⟨m, (Function.update_of_ne hne ..).trans hm, rfl, rfl, rfl⟩
  · rw [semOpen_long hlen]
    exact ⟨m, hm, rfl, rfl, rfl⟩

theorem create_keeps (h : t.Inv) (hm : t.k.sems.heap c = some m) (args : CreateArgs) :
    ∃ m', (createProcess t.k args).2.sems.heap c = some m' ∧ m.Alike m' := by
  rcases createProcess_spec h.ok h.noPipes args with ⟨-, s, he, -⟩ | ⟨pid, name, s, -, -, he, -⟩
  · rw [he]
    exact ⟨m, hm, rfl, rfl, rfl⟩
  · rw [he]
    exact SemReg.semOpen_keeps h.waiters.wf hm name

/-! ## one step -/

/-- the invariant behind `Balanced` -/
structure Books (v c : Nat) (t : LedgerSys) : Prop where
  inv : t.sys.Inv
  sem : ∃ m, t.sys.k.sems.heap c = some m ∧
    m.value + (t.led.taken + t.led.woken.length) = v + t.led.posts ∧
    (0 < m.value → m.blockedProcesses.elems = []) ∧
    t.led.slept = t.led.woken ++ m.blockedProcesses.elems

theorem Books.balanced {t : LedgerSys} (h : Books v c t) : Balanced v c t := by
  obtain ⟨m, hm, hval, hpos, hfifo⟩ := h.sem
  refine ⟨m, hm, hval, hpos, fun q hq => ?_, hfifo⟩
  obtain ⟨b, hg, p, hp, -, hst, -⟩ := h.inv.inWait hm hq
  exact ⟨b, p, hg, hp, hst⟩

/-- a step that changes at most the users of `c`, with nothing to record -/
theorem Books.idle {t : LedgerSys} (h : Books v c t) {s : SemSys} (hs : s.Inv)
    (hk : ∀ m, t.sys.k.sems.heap c = some m → ∃ m', s.k.sems.heap c = some m' ∧ m.Alike m') :
    Books v c ⟨s, t.led⟩ := by
  obtain ⟨m, hm, hval, hpos, hfifo⟩ := h.sem
  obtain ⟨m', hm', -, hv, hq⟩ := hk m hm
  refine ⟨hs, m', hm', ?_, ?_, ?_⟩
  · rw [hv]
    exact hval
  · rw [hv, hq]
    exact hpos
  · rw [hq]
    exact hfifo

theorem callerPid_eq (h : k.sched.actor = some (b, p)) : callerPid k = [p.pid] := by
  unfold callerPid
  rw [h]
  rfl

theorem modify_keeps {r : SemReg} {f : Sem → Sem} (hd : d ≠ c) :
    ∀ m, r.heap c = some m → ∃ m', (r.modify d f).heap c = some m' ∧ m.Alike m' := by
  intro m hm
  refine ⟨m, ?_, rfl, rfl, rfl⟩
  rw [SemReg.modify_heap, heapMod_of_ne _ _ hd.symm]
  exact hm

theorem books_wait {t t' : LedgerSys} (h : Books v c t) (hc : (SemOp.wait d).clean t.sys = true)
    (he : execLedger c (.wait d) t = some t') : Books v c t' := by
  obtain ⟨s, hs, rfl⟩ := Option.map_eq_some_iff.mp he
  have hinv := inv_wait h.inv hc hs
  obtain ⟨⟨b, p⟩, ha, rfl⟩ := Option.map_eq_some_iff.mp hs
  obtain ⟨hr, hp, -⟩ := actor_some ha
  have hcall := callerPid_eq ha
  have hwf := h.inv.waiters.wf
  by_cases hd : d = c
  · subst hd
    obtain ⟨m, hm, hval, hpos, hfifo⟩ := h.sem
    refine ⟨hinv, ?_⟩
    unfold Ledger.record
    by_cases hv : m.value = 0
    · simp only [semWait_zero hwf hm hv hr hp, if_true, hcall]
      refine ⟨queueSem p.pid m, by rw [SemReg.modify_heap, heapMod_self, hm]; rfl, hval,
        fun hlt => absurd hv (Nat.ne_of_gt hlt), ?_⟩
      show t.led.slept ++ [p.pid] = t.led.woken ++ (m.blockedProcesses.elems ++ [p.pid])
      rw [hfifo, List.append_assoc]
    · simp only [semWait_pos hwf hm hv, if_true, hcall]
      refine ⟨takeSem m, by rw [SemReg.modify_heap, heapMod_self, hm]; rfl, ?_,
        fun _ => hpos (Nat.pos_of_ne_zero hv), hfifo⟩
      show m.value - 1 + (t.led.taken + 1 + t.led.woken.length) = v + t.led.posts
      omega
  · have hrec : ∀ s', t.led.record c (.wait d) t.sys s' = t.led := fun s' => if_neg hd
    rw [hrec]
    refine h.idle hinv fun m hm => ?_
    cases hn : t.sys.k.sems.heap d with
    | none =>
      rw [semWait_none hwf hn]
      exact ⟨m, hm, rfl, rfl, rfl⟩
    | some n =>
      by_cases hv : n.value = 0
      · rw [semWait_zero hwf hn hv hr hp]
        exact modify_keeps hd m hm
      · rw [semWait_pos hwf hn hv]
        exact modify_keeps hd m hm

theorem books_post {t t' : LedgerSys} (h : Books v c t)
    (hc : (SemOp.post d).counted c t = true) (he : execLedger c (.post d) t = some t') :
    Books v c t' := by
  obtain ⟨s, hs, rfl⟩ := Option.map_eq_some_iff.mp he
  obtain rfl := Option.some.inj hs
  have hinv := inv_post h.inv d
  have hpost := semPost_eq h.inv.waiters.wf d
  by_cases hd : d = c
  · subst hd
    obtain ⟨m, hm, hval, hpos, hfifo⟩ := h.sem
    have hlt : m.value < 65535 := by
      unfold SemOp.counted at hc
      simpa [hm, SemOp.clean] using hc
    have hheap : (semPost t.sys.k d).2.sems.heap d = some (postSem m) := by
      rw [hpost]
      show heapMod _ _ _ _ = _
      rw [heapMod_self, hm]
      rfl
    have hw := newlyWoken_post h.inv hm
    refine ⟨hinv, postSem m, hheap, ?_⟩
    unfold Ledger.record
    simp only [if_true]
    cases hq : m.blockedProcesses.elems with
    | nil =>
      rw [hq] at hw hfifo
      rw [hw, postSem_nil hq]
      simp only [inc16, List.head?_nil, Option.toList_none, List.append_nil]
      rw [Nat.mod_eq_of_lt (by omega), hq]
      exact ⟨by omega, fun _ => rfl, hfifo⟩
    | cons q rest =>
      rw [hq] at hw hfifo
      rw [hw, (postSem_cons hq).1, (postSem_cons hq).2]
      simp only [List.head?_cons, Option.toList_some, List.length_append, List.length_singleton]
      refine ⟨by omega, fun hlt' => ?_, ?_⟩
      · rw [hq] at hpos
        exact absurd (hpos hlt') (by simp)
      · rw [hfifo, List.append_assoc]
        rfl
  · have hrec : ∀ s', t.led.record c (.post d) t.sys s' = t.led := fun s' => if_neg hd
    rw [hrec]
    refine h.idle hinv fun m hm => ?_
    show ∃ m', (semPost t.sys.k d).2.sems.heap c = some m' ∧ _
    rw [hpost]
    exact modify_keeps hd m hm

theorem clean_of_counted {o : SemOp} {t : LedgerSys} (h : o.counted c t = true) :
    o.clean t.sys = true := (Bool.and_eq_true_iff.mp h).1

/-- **One step** of the books. -/
theorem books_step (v c : Nat) (o : SemOp) (t t' : LedgerSys) (h : Books v c t)
    (hc : o.counted c t = true) (he : execLedger c o t = some t') : Books v c t' := by
  have hclean := clean_of_counted hc
  cases o with
  | create args =>
    obtain ⟨s, hs, rfl⟩ := Option.map_eq_some_iff.mp he
    obtain rfl := Option.some.inj hs
    exact h.idle (inv_create h.inv args) fun m hm => create_keeps h.inv hm args
  | kill pid => exact absurd hc (by simp [SemOp.counted])
  | openSem name value =>
    obtain ⟨s, hs, rfl⟩ := Option.map_eq_some_iff.mp he
    obtain rfl := Option.some.inj hs
    exact h.idle (inv_open h.inv name value) fun m hm =>
      SemReg.semOpen_keeps h.inv.waiters.wf hm name
  | wait d => exact books_wait h hclean he
  | post d => exact books_post h hc he
  | schedule fuel rsp =>
    obtain ⟨s, hs, rfl⟩ := Option.map_eq_some_iff.mp he
    have hinv := inv_step _ _ _ h.inv hclean hs
    obtain ⟨r, hr, rfl⟩ := Option.map_eq_some_iff.mp hs
    exact h.idle hinv fun m hm => ⟨m, hm, rfl, rfl, rfl⟩

/-! ## sections -/

/-- every granted wait has been followed by a post, or its process is inside -/
def Sections (t : LedgerSys) : Prop :=
  t.led.inside.length + t.led.posts = t.led.taken + t.led.woken.length

theorem callerPid_cases (k : Kernel) : callerPid k = [] ∨ ∃ q, callerPid k = [q] := by
  unfold callerPid
  cases k.sched.actor.map fun x => x.2.pid with
  | none => exact Or.inl rfl
  | some q => exact Or.inr ⟨q, rfl⟩

theorem sections_step {o : SemOp} {t t' : LedgerSys} (h : Sections t) (hp : o.paired c t = true)
    (he : execLedger c o t = some t') : Sections t' := by
  obtain ⟨s, hs, rfl⟩ := Option.map_eq_some_iff.mp he
  unfold Sections at h ⊢
  cases o with
  | wait d =>
    obtain ⟨⟨b, p⟩, ha, -⟩ := Option.map_eq_some_iff.mp hs
    have hcall := callerPid_eq ha
    unfold Ledger.record
    by_cases hd : d = c
    · simp only [if_pos hd, hcall]
      split
      · simp only [List.length_append, List.length_singleton]
        omega
      · exact h
      · exact h
    · simp only [if_neg hd]
      exact h
  | post d =>
    unfold Ledger.record
    by_cases hd : d = c
    · subst hd
      -- the caller is inside, and leaves
      obtain ⟨q, hcall, hq⟩ : ∃ q, callerPid t.sys.k = [q] ∧ q ∈ t.led.inside := by
        rcases callerPid_cases t.sys.k with hnil | ⟨q, hq⟩
        · simp [SemOp.paired, hnil] at hp
        · refine ⟨q, hq, ?_⟩
          simpa [SemOp.paired, hq] using hp
      have hlen := List.length_erase_of_mem hq
      have hpos := List.length_pos_of_mem hq
      simp only [if_true, hcall, List.diff_cons, List.diff_nil, List.length_append]
      omega
    · simp only [if_neg hd]
      exact h
  | _ => exact h

/-! ## runs -/

/-- the semaphore has just been opened: `c` is its pointer, the ledger is empty -/
def LedgerSys.start (t : SemSys) (name : List Char) (v : Nat) : LedgerSys :=
  ⟨{ t with k := { t.k with sems := (semOpen t.k.sems name v).2 } }, {}⟩

theorem books_start {t : SemSys} (h : t.Inv) {name : List Char} (hlen : name.length < maxSemLength)
    (hnew : locateSemaphoreByName t.k.sems name = none) (hv : v < 65536) :
    Books v t.k.sems.next (LedgerSys.start t name v) := by
  refine ⟨inv_open h name v, SemReg.fresh name v, ?_, ?_, fun _ => rfl, rfl⟩
  · show (semOpen t.k.sems name v).2.heap t.k.sems.next = _
    rw [SemReg.semOpen_new hlen hnew]
    exact Function.update_self ..
  · show v % 65536 + (0 + 0) = v + 0
    rw [Nat.mod_eq_of_lt hv]

/-- **Conservation, order and mutual exclusion.**  `t` is any state after the semaphore `name` has been
opened with `v` tokens: its books are balanced, and if `v = 1` and the processes wait before and post
after their sections, at most one of them is inside. -/
theorem balanced_run {stackBase : Nat} {recycled : List Int} {os₀ os : List SemOp} {t₀ : SemSys}
    {t : LedgerSys} {name : List Char}
    (h₀ : Runs execSem (fun o t => o.clean t) os₀ (SemSys.boot stackBase recycled) t₀)
    (hlen : name.length < maxSemLength) (hnew : locateSemaphoreByName t₀.k.sems name = none)
    (hv : v < 65536)
    (h : Runs (execLedger t₀.k.sems.next) (fun o t => o.counted t₀.k.sems.next t) os
      (LedgerSys.start t₀ name v) t) :
    Balanced v t₀.k.sems.next t ∧
      (v = 1 → Runs (execLedger t₀.k.sems.next)
        (fun o t => o.counted t₀.k.sems.next t ∧ o.paired t₀.k.sems.next t) os
        (LedgerSys.start t₀ name v) t → t.led.inside.length ≤ 1) := by
  have hinv : t₀.Inv := Runs.inv (I := SemSys.Inv) inv_step h₀ (inv_boot stackBase recycled)
  have hstart := books_start hinv hlen hnew hv
  have hbooks : Books v t₀.k.sems.next t := Runs.inv (books_step v _) h hstart
  refine ⟨hbooks.balanced, fun hv1 hpaired => ?_⟩
  have hsec : Sections t := Runs.inv (I := Sections)
    (fun o s s' hs hok hstep => sections_step hs hok.2 hstep) hpaired rfl
  obtain ⟨m, -, hval, -⟩ := hbooks.sem
  unfold Sections at hsec
  omega

/-- processes `2` and `3` use the semaphore `x`: the first one gets its token, the second one sleeps
and is woken by the post -/
theorem balanced_run_two : ∃ t₀ t,
    Runs execSem (fun o t => o.clean t) [.create (plainArgs ['i'] 8192),
      .create (plainArgs ['a'] 16384), .create (plainArgs ['b'] 24576), .schedule 4 7,
      .schedule 4 8200] (SemSys.boot 0 []) t₀ ∧
    t.led.slept = [3] ∧ t.led.woken = [3] ∧ Balanced 1 t₀.k.sems.next t ∧
    t.led.inside.length ≤ 1 := by
  have hrun : (runIf execSem SemOp.clean [.create (plainArgs ['i'] 8192),
      .create (plainArgs ['a'] 16384), .create (plainArgs ['b'] 24576), .schedule 4 7,
      .schedule 4 8200] (SemSys.boot 0 [])).map (fun t₀ =>
        (locateSemaphoreByName t₀.k.sems ['x'],
          (runIf (execLedger t₀.k.sems.next)
            (fun o t => o.counted t₀.k.sems.next t && o.paired t₀.k.sems.next t)
            [.wait t₀.k.sems.next, .schedule 4 16400, .wait t₀.k.sems.next, .schedule 4 24600,
              .schedule 4 8200, .post t₀.k.sems.next] (LedgerSys.start t₀ ['x'] 1)).map
            fun t => (t.led.slept, t.led.woken)))
      = some (none, some ([3], [3])) := by decide +kernel
  obtain ⟨t₀, h₀, hpair⟩ := Option.map_eq_some_iff.mp hrun
  obtain ⟨hnew, hrest⟩ := Prod.mk.inj hpair
  obtain ⟨t, ht, hled⟩ := Option.map_eq_some_iff.mp hrest
  obtain ⟨hs, hw⟩ := Prod.mk.inj hled
  have hr₀ := runs_of_runIf h₀
  have hpaired := (runs_of_runIf ht).mono fun o s => Bool.and_eq_true_iff.mp
  have hbal := balanced_run hr₀ (by decide) hnew (by decide) (hpaired.mono fun o s => And.left)
  exact ⟨t₀, t, hr₀, hs, hw, hbal.1, hbal.2 rfl hpaired⟩

end

end Tp2So
