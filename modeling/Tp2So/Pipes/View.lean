import Tp2So.Pipes.Loops
import Tp2So.Sync.Posts

/-!
# A pipe with its two semaphores

`PView` is the part of the kernel that the users of one pipe see: the slots of the processes, the
control block of the pipe, and the queue, value and users of its two semaphores, one for each
`Side`.  `Shows id a k v` says that the kernel `k` has the pipe `a`, opened as `id`, in the state `v`.

* `shows_modPipe`, `shows_semPost`, `shows_semWait`, `shows_removeFromSemaphore`, `shows_wakeAll`,
  `shows_schedule`    the kernel's steps as steps of the view.
-/

set_option linter.unusedVariables false

namespace Tp2So

inductive Side where
  | rd | wr
  deriving DecidableEq, Repr

/-- the semaphore of a side -/
def Pipe.sem (p : Pipe) : Side → Nat
  | .rd => p.canRead
  | .wr => p.canWrite

structure PView where
  slot : Int → Option Slot
  pipe : Pipe
  q : Side → List Int
  val : Side → Nat
  usr : Side → Nat

namespace PView

def setPipe (v : PView) (p : Pipe) : PView := { v with pipe := p }

/-- a post on one side -/
def post (v : PView) (s : Side) : PView :=
  match v.q s with
  | [] => { v with val := Function.update v.val s (inc16 (v.val s)) }
  | pid :: rest =>
    { v with q := Function.update v.q s rest
             slot := Function.update v.slot pid ((v.slot pid).map Sched.wakeSlot) }

theorem post_nil {v : PView} {s : Side} (h : v.q s = []) :
    v.post s = { v with val := Function.update v.val s (inc16 (v.val s)) } := by
  unfold post
  rw [h]

theorem post_cons {v : PView} {s : Side} {pid : Int} {rest : List Int} (h : v.q s = pid :: rest) :
    v.post s = { v with
      q := Function.update v.q s rest
      slot := Function.update v.slot pid ((v.slot pid).map Sched.wakeSlot) } := by
  unfold post
  rw [h]

/-- a wait of the process `b` on a side without tokens -/
def sleep (v : PView) (s : Side) (pid : Int) (b : Nat) : PView :=
  { v with q := Function.update v.q s (v.q s ++ [pid])
           slot := Function.update v.slot pid (some ⟨b, true, false⟩) }

def remove (v : PView) (s : Side) (pid : Int) : PView :=
  { v with q := Function.update v.q s ((v.q s).erase pid) }

def posts (v : PView) (s : Side) : Nat → PView
  | 0 => v
  | n + 1 => (v.post s).posts s n

end PView

/-- the pipe `a` is stored once, and no other stored pipe has the id -/
structure PipeStore.Only (t : PipeStore) (id a : Nat) : Prop where
  once : ∃ l r, t.storage = l ++ some a :: r ∧ some a ∉ l ∧ some a ∉ r
  others : ∀ c x, some c ∈ t.storage → c ≠ a → t.heap c = some x → x.id ≠ id

structure Shows (id a : Nat) (k : Kernel) (v : PView) : Prop where
  ok : k.sched.Ok
  wf : k.sems.Wf
  valid : getValidPipe k.pipes id = some a
  only : k.pipes.Only id a
  pipe : k.pipes.heap a = some v.pipe
  slot : k.sched.slot = v.slot
  sem : ∀ s, ∃ m, k.sems.heap (v.pipe.sem s) = some m ∧ m.blockedProcesses.elems = v.q s ∧
    m.value = v.val s ∧ m.users = v.usr s
  ne : v.pipe.canRead ≠ v.pipe.canWrite
  range : ∀ s, ∀ pid ∈ v.q s, 2 ≤ pid ∧ pid < maxProcesses

section
variable {id a b : Nat} {k : Kernel} {v : PView} {s : Side} {p : Process}

theorem Shows.sem_inj (h : Shows id a k v) {s s' : Side} (he : v.pipe.sem s = v.pipe.sem s') :
    s = s' := by
  cases s <;> cases s'
  · rfl
  · exact absurd he h.ne
  · exact absurd he.symm h.ne
  · rfl

/-! ## the control block -/

theorem getValidPipe_modPipe {x : Pipe} (f : Pipe → Pipe) (hx : k.pipes.heap a = some x)
    (hid : (f x).id = x.id) (id : Nat) :
    getValidPipe (k.modPipe a f).pipes id = getValidPipe k.pipes id := by
  have hany : ∀ c, ((k.modPipe a f).pipes.heap c).any (fun p => p.id = id)
      = (k.pipes.heap c).any fun p => p.id = id := by
    intro c
    by_cases e : c = a
    · subst e
      rw [modPipe_heap f hx, hx, Option.any_some, Option.any_some, hid]
    · have : (k.modPipe a f).pipes.heap c = k.pipes.heap c := heapMod_of_ne _ _ e
      rw [this]
  unfold getValidPipe
  simp only [hany]
  rfl

theorem shows_modPipe (h : Shows id a k v) {f : Pipe → Pipe} (hid : (f v.pipe).id = v.pipe.id)
    (hsem : ∀ s, (f v.pipe).sem s = v.pipe.sem s) :
    Shows id a (k.modPipe a f) (v.setPipe (f v.pipe)) where
  ok := h.ok
  wf := h.wf
  valid := (getValidPipe_modPipe f h.pipe hid id).trans h.valid
  only := ⟨h.only.once, fun c x hc hne hx =>
    h.only.others c x hc hne ((heapMod_of_ne _ _ hne).symm.trans hx)⟩
  pipe := modPipe_heap f h.pipe
  slot := h.slot
  sem s := by
    show ∃ m, k.sems.heap ((f v.pipe).sem s) = some m ∧ _
    rw [hsem]
    exact h.sem s
  ne := by
    show (f v.pipe).sem .rd ≠ (f v.pipe).sem .wr
    rw [hsem, hsem]
    exact h.ne
  range := h.range

/-! ## the semaphores -/

/-- an edit of one semaphore, seen from both sides -/
theorem Shows.edit (h : Shows id a k v) {f : Sem → Sem} {m : Sem}
    (hm : k.sems.heap (v.pipe.sem s) = some m) {sched : Sched} (hok : sched.Ok)
    {v' : PView} (hp : v'.pipe = v.pipe) (hslot : sched.slot = v'.slot)
    (hname : ∀ m, (f m).name = m.name)
    (hself : (f m).blockedProcesses.elems = v'.q s ∧ (f m).value = v'.val s ∧ (f m).users = v'.usr s)
    (hother : ∀ s', s' ≠ s → v'.q s' = v.q s' ∧ v'.val s' = v.val s' ∧ v'.usr s' = v.usr s')
    (hrange : ∀ pid ∈ v'.q s, 2 ≤ pid ∧ pid < maxProcesses) :
    Shows id a { k with sched, sems := k.sems.modify (v.pipe.sem s) f } v' where
  ok := hok
  wf := h.wf.modify _ hname
  valid := h.valid
  only := h.only
  pipe := h.pipe.trans (by rw [hp])
  slot := hslot
  sem s' := by
    rw [hp]
    by_cases e : s' = s
    · subst e
      exact ⟨f m, by rw [SemReg.modify_heap, heapMod_self, hm]; rfl, hself⟩
    · obtain ⟨hq, hv, hu⟩ := hother s' e
      rw [hq, hv, hu, SemReg.modify_heap, heapMod_of_ne _ _ fun he => e (h.sem_inj he)]
      exact h.sem s'
  ne := by
    rw [hp]
    exact h.ne
  range s' := by
    by_cases e : s' = s
    · subst e
      exact hrange
    · rw [(hother s' e).1]
      exact h.range s'

theorem shows_semPost (h : Shows id a k v) (s : Side) :
    Shows id a (semPost k (v.pipe.sem s)).2 (v.post s) ∧ (semPost k (v.pipe.sem s)).1 = 0 := by
  obtain ⟨m, hm, hq, hv, hu⟩ := h.sem s
  have hok := (Sched.wakes_semPost k (v.pipe.sem s)).ok h.ok
  refine ⟨?_, semPost_code h.wf hm⟩
  have he := semPost_eq h.wf (v.pipe.sem s)
  have hh : headWaiter k.sems (v.pipe.sem s) = (v.q s).head? := by
    unfold headWaiter
    rw [hm, ← hq]
    rfl
  rw [hh] at he
  rw [he] at hok ⊢
  cases hqs : v.q s with
  | nil =>
    rw [PView.post_nil hqs]
    rw [hqs] at hok
    have hp := postSem_nil (hq.trans hqs)
    refine h.edit hm hok rfl h.slot postSem_name ?_ (fun s' e => ?_) ?_
    · rw [hp]
      exact ⟨hq, by simp only [Function.update_self, hv], hu⟩
    · exact ⟨rfl, Function.update_of_ne e .., rfl⟩
    · exact h.range s
  | cons pid rest =>
    rw [PView.post_cons hqs]
    rw [hqs] at hok
    have hp := postSem_cons (hq.trans hqs)
    obtain ⟨h2, h64⟩ := h.range s pid (by rw [hqs]; exact List.mem_cons_self)
    refine h.edit hm hok rfl ?_ postSem_name ?_ (fun s' e => ?_) ?_
    · show (wakePid k.sched pid).slot = _
      rw [Sched.slot_wakePid h.ok (by omega) h64, if_pos h2, h.slot]
    · refine ⟨by simp only [hp.1, Function.update_self], hp.2.trans hv, ?_⟩
      have : (postSem m).users = m.users := by unfold postSem; split <;> rfl
      exact this.trans hu
    · exact ⟨Function.update_of_ne e .., rfl, rfl⟩
    · intro q hq'
      simp only [Function.update_self] at hq'
      exact h.range s q (by rw [hqs]; exact List.mem_cons_of_mem _ hq')

/-- a wait of the running process, a user process, on a side without tokens -/
theorem shows_semWait (h : Shows id a k v) (s : Side) (hv : v.val s = 0)
    (hact : k.sched.actor = some (b, p)) (h2 : 2 ≤ p.pid) :
    ∃ k', semWait k (v.pipe.sem s) = (.suspended, k') ∧ Shows id a k' (v.sleep s p.pid b) := by
  obtain ⟨m, hm, hq, hmv, hu⟩ := h.sem s
  obtain ⟨hr, hp, hst⟩ := actor_some hact
  obtain ⟨p', hp', ht, -⟩ := h.ok.running b hr
  obtain rfl := Option.some.inj (hp.symm.trans hp')
  refine ⟨_, semWait_zero h.wf hm (hmv.trans hv) hr hp, ?_⟩
  refine h.edit hm (Sched.ok_blockProcess h.ok ht) rfl ?_ (fun _ => rfl) ?_ (fun s' e => ?_) ?_
  · rw [Sched.slot_blockProcess h.ok hp ht h2 hst, h.slot]
    rfl
  · refine ⟨?_, hmv, hu⟩
    show m.blockedProcesses.elems ++ [p.pid] = Function.update v.q s _ s
    rw [Function.update_self, hq]
  · exact ⟨Function.update_of_ne e .., rfl, rfl⟩
  · intro q hq'
    have hq'' : q ∈ Function.update v.q s (v.q s ++ [p.pid]) s := hq'
    rw [Function.update_self] at hq''
    rcases List.mem_append.mp hq'' with hq'' | hq''
    · exact h.range s q hq''
    · rw [List.mem_singleton.mp hq'']
      exact ⟨h2, (h.ok.tab _ _ ht).2.1⟩

theorem shows_removeFromSemaphore (h : Shows id a k v) (s : Side) (pid : Int) :
    Shows id a { k with sems := removeFromSemaphore k.sems (v.pipe.sem s) pid }
      (v.remove s pid) := by
  obtain ⟨m, hm, hq, hv, hu⟩ := h.sem s
  refine h.edit hm h.ok rfl h.slot (fun _ => rfl) ?_ (fun s' e => ?_) ?_
  · refine ⟨?_, hv, hu⟩
    show (queueRemove _ m.blockedProcesses pid).elems = Function.update v.q s _ s
    rw [Function.update_self, ← hq]
    exact queueRemove_elems_erase fun _ _ => rfl
  · exact ⟨Function.update_of_ne e .., rfl, rfl⟩
  · intro q hq'
    have hq'' : q ∈ Function.update v.q s ((v.q s).erase pid) s := hq'
    rw [Function.update_self] at hq''
    exact h.range s q (List.mem_of_mem_erase hq'')

theorem PView.post_pipe (v : PView) (s : Side) : (v.post s).pipe = v.pipe := by
  unfold PView.post
  split <;> rfl

theorem shows_semPosts (s : Side) (n : Nat) : ∀ {k : Kernel} {v : PView}, Shows id a k v →
    Shows id a (semPosts (v.pipe.sem s) n k) (v.posts s n) := by
  induction n with
  | zero => exact fun h => h
  | succ n ih =>
    intro k v h
    have h' := ih (shows_semPost h s).1
    rw [v.post_pipe s] at h'
    exact h'

theorem shows_wakeAll (h : Shows id a k v) (s : Side) :
    Shows id a (wakeAll k (v.pipe.sem s)) (v.posts s (v.usr s)) := by
  obtain ⟨m, hm, -, -, hu⟩ := h.sem s
  have hcount : semGetUsersCount k.sems (v.pipe.sem s) = m.users := by
    unfold semGetUsersCount
    rw [if_pos (h.wf.valid hm), hm]
  unfold wakeAll
  rw [hcount, Int.toNat_natCast, hu]
  exact shows_semPosts s _ h

theorem shows_schedule {fuel rsp : Nat} {r : Nat × Sched} (h : Shows id a k v)
    (hs : schedule fuel rsp k.sched = some r) : Shows id a { k with sched := r.2 } v :=
  ⟨Sched.ok_schedule h.ok hs, h.wf, h.valid, h.only, h.pipe,
    (Sched.slot_schedule h.ok hs).trans h.slot, h.sem, h.ne, h.range⟩

theorem Shows.actor_slot (h : Shows id a k v) (hact : k.sched.actor = some (b, p)) :
    v.slot p.pid = some ⟨b, false, false⟩ ∧ 0 ≤ p.pid ∧ p.pid < maxProcesses := by
  obtain ⟨hr, hp, hst⟩ := actor_some hact
  obtain ⟨p', hp', ht, -⟩ := h.ok.running b hr
  obtain rfl := Option.some.inj (hp.symm.trans hp')
  obtain ⟨h0, h1, -⟩ := h.ok.tab _ _ ht
  have hs := Sched.slot_eq ht hp
  rw [h.slot, hst] at hs
  exact ⟨hs, h0, h1⟩

end

end Tp2So
