import Tp2So.Pipes.View

/-!
# A pipe that has just been opened

* `Kernel.Sound`     what holds of every kernel between two calls: the ready queues, the registry,
                     the pipe storage;
* `openPipe_shows`   the view of a new pipe: an empty ring, two semaphores with no token and nobody
                     in their queues, one user each;
* `sound_openPipe`, `sound_run`   where sound kernels come from.
-/

set_option linter.unusedVariables false

namespace Tp2So

/-- ids are handed out in order and stored pointers are in use -/
structure PipeStore.Wf (t : PipeStore) : Prop where
  lo : 2 ≤ t.nextId
  hi : t.nextId ≤ maxPipes
  lt : ∀ c, some c ∈ t.storage → c < t.next
  ids : ∀ c x, some c ∈ t.storage → t.heap c = some x → (x.id : Int) < t.nextId

structure Kernel.Sound (k : Kernel) : Prop where
  ok : k.sched.Ok
  sems : k.sems.Wf
  pipes : k.pipes.Wf

/-- the control block that `createPipe` fills in -/
def freshPipe (id : Nat) (buffer : Nat → UInt8) (canRead canWrite : Nat) : Pipe :=
  { id, buffer, idxToRead := 0, idxToWrite := 0, waitingToRead := false
    waitingToWrite := false, canRead, canWrite, attached := 0, readers := 0, writers := 0
    expReaders := 1, expWriters := 1 }

/-- the storage with one more pipe -/
def PipeStore.add (t : PipeStore) (p : Pipe) : PipeStore where
  heap := Function.update t.heap t.next (some p)
  next := t.next + 1
  storage := t.storage ++ [some t.next]
  nextId := t.nextId + 1

section
variable {k : Kernel} {id : Nat} {buffer : Nat → UInt8}

theorem PipeStore.Wf.id_eq {t : PipeStore} (h : t.Wf) : ((t.nextId % 256).toNat : Int) = t.nextId := by
  have h1 := h.lo
  have h2 : t.nextId ≤ 100 := h.hi
  omega

theorem PipeStore.Wf.add {t : PipeStore} (h : t.Wf) (hne : t.nextId ≠ maxPipes) {p : Pipe}
    (hid : (p.id : Int) = t.nextId) : (t.add p).Wf where
  lo := by
    have h1 := h.lo
    show 2 ≤ t.nextId + 1
    omega
  hi := by
    have h2 := h.hi
    show t.nextId + 1 ≤ maxPipes
    omega
  lt c hc := by
    show c < t.next + 1
    rcases List.mem_append.mp hc with hc | hc
    · exact Nat.lt_succ_of_lt (h.lt c hc)
    · rw [Option.some.inj (List.mem_singleton.mp hc)]
      exact Nat.lt_succ_self _
  ids c x hc hx := by
    show (x.id : Int) < t.nextId + 1
    have hx' : Function.update t.heap t.next (some p) c = some x := hx
    by_cases e : c = t.next
    · rw [e, Function.update_self] at hx'
      rw [← Option.some.inj hx', hid]
      omega
    · rw [Function.update_of_ne e] at hx'
      rcases List.mem_append.mp hc with hc | hc
      · have := h.ids c x hc hx'
        omega
      · exact absurd (Option.some.inj (List.mem_singleton.mp hc)) e

/-- the last stored pipe is the only one with its id -/
theorem PipeStore.Wf.only {t : PipeStore} (h : t.Wf) {p : Pipe} (hid : (p.id : Int) = t.nextId) :
    (t.add p).Only p.id t.next := by
  refine ⟨⟨t.storage, [], rfl, fun hm => absurd (h.lt _ hm) (Nat.lt_irrefl _), List.not_mem_nil⟩,
    fun c x hc hne hx => ?_⟩
  have hx' : Function.update t.heap t.next (some p) c = some x := hx
  rw [Function.update_of_ne hne] at hx'
  rcases List.mem_append.mp hc with hc | hc
  · have := h.ids c x hc hx'
    omega
  · exact absurd (Option.some.inj (List.mem_singleton.mp hc)) hne

theorem PipeStore.Only.valid {t : PipeStore} {a : Nat} {p : Pipe} (h : t.Only id a)
    (hp : t.heap a = some p) (hid : p.id = id) : getValidPipe t id = some a := by
  obtain ⟨l, r, hst, hl, -⟩ := h.once
  unfold getValidPipe
  rw [hst, List.findSome?_append]
  have hnone : l.findSome? (fun e => e.filter fun a => (t.heap a).any fun p => p.id = id) = none := by
    refine List.findSome?_eq_none_iff.mpr fun e he => ?_
    cases e with
    | none => rfl
    | some c =>
      have hne : c ≠ a := fun e => hl (e ▸ he)
      refine Option.filter_eq_none_iff.mpr fun c' hc' hany => ?_
      obtain rfl := Option.some.inj hc'
      obtain ⟨x, hx, hxid⟩ := (Option.any_eq_true _ _).mp hany
      exact h.others c x (by rw [hst]; exact List.mem_append_left _ he) hne hx
        (of_decide_eq_true hxid)
  rw [hnone, Option.none_or, List.findSome?_cons]
  have hsome : (some a).filter (fun a => (t.heap a).any fun p => p.id = id) = some a := by
    rw [Option.filter_some, hp, Option.any_some, decide_eq_true hid]
    rfl
  rw [hsome]

theorem buildSemName_ne (id : Nat) : buildSemName id 'R' ≠ buildSemName id 'W' := by
  unfold buildSemName
  intro e
  simp only [List.cons.injEq, true_and, and_true] at e
  exact absurd e (by decide)

/-- the registry with the two semaphores of a pipe -/
def SemReg.addPair (r : SemReg) (id : Nat) : SemReg :=
  (r.add (SemReg.fresh (buildSemName id 'R') 0)).add (SemReg.fresh (buildSemName id 'W') 0)

theorem semOpen_pair {r : SemReg} (h : r.Wf)
    (hr : locateSemaphoreByName r (buildSemName id 'R') = none)
    (hw : locateSemaphoreByName r (buildSemName id 'W') = none) :
    (r.addPair id).Wf ∧
    semOpen r (buildSemName id 'R') 0
      = (some r.next, r.add (SemReg.fresh (buildSemName id 'R') 0)) ∧
    semOpen (r.add (SemReg.fresh (buildSemName id 'R') 0)) (buildSemName id 'W') 0
      = (some (r.next + 1), r.addPair id) := by
  have hlen : ∀ c, (buildSemName id c).length < maxSemLength := fun c => by
    unfold buildSemName maxSemLength
    simp only [List.length_cons, List.length_nil]
    omega
  have hwfR := h.add (m := SemReg.fresh (buildSemName id 'R') 0) fun a n hn => h.locate_none hr hn
  have hw' : locateSemaphoreByName (r.add (SemReg.fresh (buildSemName id 'R') 0))
      (buildSemName id 'W') = none := by
    cases hl : locateSemaphoreByName (r.add (SemReg.fresh (buildSemName id 'R') 0))
        (buildSemName id 'W') with
    | none => rfl
    | some c =>
      obtain ⟨m, hm, hn⟩ := SemReg.locate_some hl
      rcases SemReg.add_heap hm with ⟨-, rfl⟩ | ⟨-, hm⟩
      · exact absurd hn (buildSemName_ne id)
      · exact absurd hn (h.locate_none hw hm)
  exact ⟨hwfR.add fun a n hn => hwfR.locate_none hw' hn, SemReg.semOpen_new (hlen 'R') hr,
    SemReg.semOpen_new (hlen 'W') hw'⟩

/-- `openPipe`, when it succeeds and the names of the pipe's semaphores are not in use -/
theorem openPipe_eq {k' : Kernel} (h : k.Sound)
    (hr : locateSemaphoreByName k.sems (buildSemName id 'R') = none)
    (hw : locateSemaphoreByName k.sems (buildSemName id 'W') = none)
    (hopen : openPipe k buffer = ((id : Int), k')) :
    (id : Int) = k.pipes.nextId ∧ k.pipes.nextId ≠ maxPipes ∧
    k' = { k with sems := k.sems.addPair id
                  pipes := k.pipes.add (freshPipe id buffer k.sems.next (k.sems.next + 1)) } := by
  have hmax : k.pipes.nextId ≠ maxPipes := by
    intro e
    unfold openPipe at hopen
    rw [if_pos e] at hopen
    exact absurd (Prod.mk.inj hopen).1 (by omega)
  have hid : (k.pipes.nextId % 256).toNat = id := by
    unfold openPipe at hopen
    rw [if_neg hmax] at hopen
    simp only at hopen
    split at hopen
    · exact absurd (Prod.mk.inj hopen).1 (by omega)
    · split at hopen
      · exact absurd (Prod.mk.inj hopen).1 (by omega)
      · exact Int.natCast_inj.mp (Prod.mk.inj hopen).1
  obtain ⟨-, hR, hW⟩ := semOpen_pair h.sems hr hw
  refine ⟨by rw [← hid]; exact h.pipes.id_eq, hmax, ?_⟩
  unfold openPipe at hopen
  rw [if_neg hmax] at hopen
  simp only [hid, hR, hW] at hopen
  exact (Prod.mk.inj hopen).2.symm

/-- what the users of a new pipe see -/
def PView.fresh (k : Kernel) (id : Nat) (buffer : Nat → UInt8) : PView where
  slot := k.sched.slot
  pipe := freshPipe id buffer k.sems.next (k.sems.next + 1)
  q _ := []
  val _ := 0
  usr _ := 1

theorem openPipe_shows {k' : Kernel} (h : k.Sound)
    (hr : locateSemaphoreByName k.sems (buildSemName id 'R') = none)
    (hw : locateSemaphoreByName k.sems (buildSemName id 'W') = none)
    (hopen : openPipe k buffer = ((id : Int), k')) :
    Shows id k.pipes.next k' (.fresh k id buffer) := by
  obtain ⟨hid, -, rfl⟩ := openPipe_eq h hr hw hopen
  have hwf := (semOpen_pair h.sems hr hw).1
  have honly := h.pipes.only (p := freshPipe id buffer k.sems.next (k.sems.next + 1)) hid
  have hheap : (k.pipes.add (freshPipe id buffer k.sems.next (k.sems.next + 1))).heap k.pipes.next
      = some (freshPipe id buffer k.sems.next (k.sems.next + 1)) := Function.update_self ..
  refine ⟨h.ok, hwf, honly.valid hheap rfl, honly, hheap, rfl, fun s => ?_, ?_, fun s q hq => ?_⟩
  · cases s with
    | rd =>
      refine ⟨SemReg.fresh (buildSemName id 'R') 0, ?_, rfl, rfl, rfl⟩
      show Function.update (Function.update _ _ _) (k.sems.next + 1) _ k.sems.next = _
      rw [Function.update_of_ne (Nat.ne_of_lt (Nat.lt_succ_self _)), Function.update_self]
    | wr =>
      refine ⟨SemReg.fresh (buildSemName id 'W') 0, ?_, rfl, rfl, rfl⟩
      show Function.update (Function.update _ _ _) _ _ (k.sems.next + 1) = _
      exact Function.update_self ..
  · exact Nat.ne_of_lt (Nat.lt_succ_self _)
  · exact absurd hq List.not_mem_nil

theorem sound_openPipe {k' : Kernel} (h : k.Sound)
    (hr : locateSemaphoreByName k.sems (buildSemName id 'R') = none)
    (hw : locateSemaphoreByName k.sems (buildSemName id 'W') = none)
    (hopen : openPipe k buffer = ((id : Int), k')) : k'.Sound := by
  obtain ⟨hid, hmax, rfl⟩ := openPipe_eq h hr hw hopen
  exact ⟨h.ok, (semOpen_pair h.sems hr hw).1, h.pipes.add hmax hid⟩

theorem pipes_execSem (o : SemOp) (t t' : SemSys) (h : t.Inv) (he : execSem o t = some t') :
    t'.k.pipes = t.k.pipes := by
  cases o with
  | create args =>
    obtain rfl := Option.some.inj he
    show (createProcess t.k args).2.pipes = _
    rcases createProcess_spec h.ok h.noPipes args with ⟨-, s, he, -⟩ | ⟨pid, name, s, -, -, he, -⟩ <;>
      rw [he]
  | kill pid =>
    obtain rfl := Option.some.inj he
    show (killProcess t.k pid).2.pipes = _
    rcases killProcess_spec h.ok h.waiters.wf h.noPipes h.waiters.range pid with
      he | ⟨x, name, c, r, s, -, -, -, he, -⟩ <;> rw [he]
  | openSem name v =>
    obtain rfl := Option.some.inj he
    rfl
  | wait c =>
    obtain ⟨⟨b, p⟩, ha, rfl⟩ := Option.map_eq_some_iff.mp he
    obtain ⟨hr, hp, -⟩ := actor_some ha
    cases hm : t.k.sems.heap c with
    | none => rw [semWait_none h.waiters.wf hm]
    | some m =>
      by_cases hv : m.value = 0
      · rw [semWait_zero h.waiters.wf hm hv hr hp]
      · rw [semWait_pos h.waiters.wf hm hv]
  | post c =>
    obtain rfl := Option.some.inj he
    show (semPost t.k c).2.pipes = _
    rw [semPost_eq h.waiters.wf c]
  | schedule fuel rsp =>
    obtain ⟨r, -, rfl⟩ := Option.map_eq_some_iff.mp he
    rfl

/-- **Every run of clean steps** leaves a sound kernel. -/
theorem sound_run {stackBase : Nat} {recycled : List Int} {os : List SemOp} {t : SemSys}
    (h : Runs execSem (fun o t => o.clean t) os (SemSys.boot stackBase recycled) t) : t.k.Sound := by
  have hboot : (SemSys.boot stackBase recycled).k.pipes = emptyKernel.pipes := by
    unfold SemSys.boot
    rw [Sched.initScheduler_eq]
  obtain ⟨hinv, hp⟩ : t.Inv ∧ t.k.pipes = emptyKernel.pipes :=
    Runs.inv (I := fun t => t.Inv ∧ t.k.pipes = emptyKernel.pipes)
      (fun o t u ht ho he => ⟨inv_step o t u ht.1 ho he, (pipes_execSem o t u ht.1 he).trans ht.2⟩)
      h ⟨inv_boot stackBase recycled, hboot⟩
  refine ⟨hinv.ok, hinv.waiters.wf, ?_⟩
  rw [hp]
  exact ⟨by decide, by decide, fun c hc => absurd hc List.not_mem_nil,
    fun c x hc => absurd hc List.not_mem_nil⟩

end

end Tp2So
