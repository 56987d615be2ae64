import Tp2So.Pipes.Stream

/-!
# Transfers when the semaphores hold tokens

A post that finds nobody in the queue leaves a token, and the next `semWait` takes it and goes on.  A
writer that goes on with a full ring stores over the read index: the ring is empty again.

* `PView.take`, `shows_semWait_pos`   a wait that takes a token;
* `Pour`                 the changes of a view that move nobody;
* `Pipe.budget`          the bytes that a write can store before its caller sleeps;
* `readPipe_pour`, `writeLoop_pour`, `writeResume_pour`   the calls, whatever the ring holds.
-/

set_option linter.unusedVariables false

namespace Tp2So

/-- a wait that takes a token -/
def PView.take (v : PView) (s : Side) : PView :=
  { v with val := Function.update v.val s (v.val s - 1) }

/-- nobody is woken, nobody goes to sleep, and the ends are as they were -/
structure Pour (v v' : PView) : Prop where
  slot : v'.slot = v.slot
  q : v'.q = v.q
  usr : v'.usr = v.usr
  ends : v'.pipe.ends = v.pipe.ends
  bounded : v'.pipe.Bounded

/-- the bytes that a writer with these tokens can store before it sleeps -/
def Pipe.budget (p : Pipe) (tokens : Nat) : Nat :=
  pipeBufferSize - 1 - p.ring.length + tokens * pipeBufferSize

section
variable {id a b n w : Nat} {k : Kernel} {v u v' : PView} {p : Process} {bs : List UInt8} {s : Side}

theorem shows_semWait_pos (h : Shows id a k v) (s : Side) (hv : v.val s ≠ 0) :
    ∃ k', semWait k (v.pipe.sem s) = (.granted, k') ∧ k'.sched = k.sched ∧
      Shows id a k' (v.take s) := by
  obtain ⟨m, hm, hq, hmv, hu⟩ := h.sem s
  have hpos : m.value ≠ 0 := by
    rw [hmv]
    exact hv
  refine ⟨_, semWait_pos h.wf hm hpos, rfl, ?_⟩
  refine h.edit hm h.ok rfl h.slot (fun _ => rfl) ?_ (fun s' e => ?_) (h.range s)
  · refine ⟨hq, ?_, hu⟩
    show m.value - 1 = Function.update v.val s _ s
    rw [Function.update_self, hmv]
  · exact ⟨rfl, Function.update_of_ne e .., rfl⟩

theorem Pour.trans (h : Pour v u) (h' : Pour u v') : Pour v v' :=
  ⟨h'.slot.trans h.slot, h'.q.trans h.q, h'.usr.trans h.usr, h'.ends.trans h.ends, h'.bounded⟩

theorem pour_refl (hb : v.pipe.Bounded) : Pour v v := ⟨rfl, rfl, rfl, rfl, hb⟩

theorem pour_setPipe {x : Pipe} (he : x.ends = v.pipe.ends) (hb : x.Bounded) : Pour v (v.setPipe x) :=
  ⟨rfl, rfl, rfl, he, hb⟩

theorem pour_take (hb : v.pipe.Bounded) (s : Side) : Pour v (v.take s) := ⟨rfl, rfl, rfl, rfl, hb⟩

/-! ## reading -/

/-- **A read call**: it gets by without sleeping, or the ring is empty and may still be filled. -/
theorem readPipe_pour (h : Shows id a k v) (hb : v.pipe.Bounded) (hact : k.sched.actor = some (b, p))
    (h2 : 2 ≤ p.pid) (n : Nat) :
    readPipe k id n = (.returned [], k) ∨
    (∃ u k', Pour v u ∧ Shows id a k' u ∧ readPipe k id n = readResume k' a n) ∨
    (∃ k', ¬ (v.pipe.writers = 0 ∧ v.pipe.expWriters = 0) ∧ readPipe k id n = (.suspended a, k') ∧
      Shows id a k' (v.readSleep p.pid b)) := by
  by_cases hr : v.pipe.ring = []
  · by_cases hw : v.pipe.writers = 0 ∧ v.pipe.expWriters = 0
    · exact Or.inl (readPipe_eof h hb hr hw n)
    · by_cases hv : v.val .rd = 0
      · obtain ⟨k', hk', hs⟩ := readPipe_sleeps h hb hr hw hv hact h2 n
        exact Or.inr (Or.inr ⟨k', hw, hk', hs⟩)
      · have h1 : Shows id a (k.modPipe a (Pipe.setWaitingToRead true))
            (v.setPipe (v.pipe.setWaitingToRead true)) :=
          shows_modPipe h rfl fun s => by cases s <;> rfl
        obtain ⟨k', hk', -, hs⟩ := shows_semWait_pos h1 .rd hv
        have hk'' : semWait (k.modPipe a fun p => { p with waitingToRead := true }) v.pipe.canRead
            = (.granted, k') := hk'
        have hpour := pour_setPipe (v := v) (x := v.pipe.setWaitingToRead true) rfl hb
        refine Or.inr (Or.inl ⟨_, k', hpour.trans (pour_take hpour.bounded .rd), hs, ?_⟩)
        unfold readPipe
        simp only [h.valid, h.pipe]
        rw [if_pos (hb.ring_eq_nil.mp hr), if_neg hw]
        simp only [hk'']
  · exact Or.inr (Or.inl ⟨v, k, pour_refl hb, h, readPipe_some h hb hr n⟩)

/-! ## writing -/

namespace Pipe
variable {x : Pipe} {T : Nat}

theorem bounded_storeByte (hb : x.Bounded) (c : UInt8) : (storeByte c x).Bounded :=
  ⟨hb.1, nextIdx_lt _⟩

/-- a byte stored into a full ring makes the indices meet -/
theorem ring_storeByte_full (hb : x.Bounded) (hfull : x.idxToWrite = previousIdx x.idxToRead)
    (c : UInt8) : (storeByte c x).ring = [] := by
  refine (bounded_storeByte hb c).ring_eq_nil.mpr ?_
  show x.idxToRead = nextIdx x.idxToWrite
  have h1 := hb.1
  rw [hfull]
  unfold previousIdx nextIdx pipeBufferSize at *
  split <;> omega

theorem budget_room (hb : x.Bounded) (hroom : x.ring.length < pipeBufferSize - 1) (c : UInt8) :
    (storeByte c x).budget T + 1 = x.budget T := by
  obtain ⟨-, hring⟩ := storeByte_spec hb hroom c
  unfold budget
  rw [hring, List.length_append, List.length_singleton]
  omega

theorem budget_full (hb : x.Bounded) (hfull : x.idxToWrite = previousIdx x.idxToRead) (hT : T ≠ 0)
    (c : UInt8) : (storeByte c x).budget (T - 1) + 1 = x.budget T := by
  have hlen := hb.full_iff.mp hfull
  obtain ⟨T, rfl⟩ := Nat.exists_eq_succ_of_ne_zero hT
  unfold budget
  rw [ring_storeByte_full hb hfull, hlen, List.length_nil, Nat.succ_sub_one, Nat.succ_mul,
    Nat.sub_self, Nat.zero_add]
  show 16384 - 1 - 0 + T * 16384 + 1 = T * 16384 + 16384
  omega

end Pipe

/-- what a row of bytes comes to: everything is stored, or the caller sleeps with a part of it -/
def Written (id a b : Nat) (v : PView) (pid : Int) (len total : Nat) (r : WriteResult × Kernel) :
    Prop :=
  ∃ u, Pour v u ∧
    ((∃ k', r = (.returned total, k') ∧ Shows id a k' (u.afterWrite u.pipe (decide (0 < total)))) ∨
      (∃ k' rest w, rest ≠ [] ∧ r = (.suspended a rest w, k') ∧
        Shows id a k' (u.writeSleep u.pipe pid b) ∧ v.pipe.budget (v.val .wr) < len))

theorem Written.cons {r : WriteResult × Kernel} {pid : Int} {len total : Nat}
    (h : Written id a b u pid len total r) (hp : Pour v u)
    (hbudget : u.pipe.budget (u.val .wr) + 1 = v.pipe.budget (v.val .wr)) :
    Written id a b v pid (len + 1) total r := by
  obtain ⟨u', hu', hcase⟩ := h
  refine ⟨u', hp.trans hu', ?_⟩
  rcases hcase with hret | ⟨k', rest, w, hne, hr, hs, hlt⟩
  · exact Or.inl hret
  · exact Or.inr ⟨k', rest, w, hne, hr, hs, by omega⟩

theorem shows_storeByte (h : Shows id a k v) (c : UInt8) :
    Shows id a (k.modPipe a (storeByte c)) (v.setPipe (storeByte c v.pipe)) :=
  shows_modPipe h rfl fun s => by cases s <;> rfl

/-- **The loop of `writePipe`**, whatever the ring and the semaphore hold. -/
theorem writeLoop_pour (bs : List UInt8) : ∀ {k : Kernel} {v : PView} {w : Nat}, Shows id a k v →
    v.pipe.Bounded → k.sched.actor = some (b, p) → 2 ≤ p.pid →
    Written id a b v p.pid bs.length (w + bs.length) (writeLoop a bs w k) := by
  induction bs with
  | nil =>
    intro k v w h hb hact h2
    obtain ⟨k', hk', hs⟩ := writeFinish_shows h w
    refine ⟨v, pour_refl hb, Or.inl ⟨k', ?_, hs⟩⟩
    unfold writeLoop
    exact hk'
  | cons c bs ih =>
    intro k v w h hb hact h2
    rw [List.length_cons, show w + (bs.length + 1) = w + 1 + bs.length by omega]
    by_cases hfull : v.pipe.idxToWrite = previousIdx v.pipe.idxToRead
    · have h1 : Shows id a (k.modPipe a (Pipe.setWaitingToWrite true))
          (v.setPipe (v.pipe.setWaitingToWrite true)) :=
        shows_modPipe h rfl fun s => by cases s <;> rfl
      have hpour := pour_setPipe (v := v) (x := v.pipe.setWaitingToWrite true) rfl hb
      by_cases hv : v.val .wr = 0
      · -- no token: the caller sleeps, with nothing stored
        obtain ⟨k', hk', hs⟩ := shows_semWait h1 .wr hv hact h2
        refine ⟨v, pour_refl hb, Or.inr ⟨k', c :: bs, w, List.cons_ne_nil _ _, ?_, hs, ?_⟩⟩
        · exact writeLoop_suspended w bs h.pipe hfull hk'
        · unfold Pipe.budget
          rw [hb.full_iff.mp hfull, hv]
          omega
      · obtain ⟨k', hk', hsched, hs⟩ := shows_semWait_pos h1 .wr hv
        have hs' := shows_storeByte hs c
        have hact' : (k'.modPipe a (storeByte c)).sched.actor = some (b, p) := by
          show k'.sched.actor = _
          rw [hsched]
          exact hact
        have hb' := Pipe.bounded_storeByte (x := v.pipe.setWaitingToWrite true) hb c
        have hw := ih (w := w + 1) hs' hb' hact' h2
        rw [writeLoop_granted w bs h.pipe hfull hk']
        refine Written.cons hw ((hpour.trans (pour_take hpour.bounded .wr)).trans (pour_setPipe rfl hb')) ?_
        show (storeByte c (v.pipe.setWaitingToWrite true)).budget
          (Function.update v.val .wr (v.val .wr - 1) .wr) + 1 = _
        rw [Function.update_self]
        exact Pipe.budget_full (x := v.pipe.setWaitingToWrite true) hb hfull hv c
    · have hroom : v.pipe.ring.length < pipeBufferSize - 1 := by
        have hle := hb.ring_length
        have hne : v.pipe.ring.length ≠ pipeBufferSize - 1 := fun e => hfull (hb.full_iff.mpr e)
        omega
      have hb' := Pipe.bounded_storeByte hb c
      have hw := ih (w := w + 1) (shows_storeByte h c) hb' hact h2
      rw [writeLoop_room w bs h.pipe hfull]
      exact Written.cons hw (pour_setPipe rfl hb') (Pipe.budget_room hb hroom c)

theorem writeResume_pour (h : Shows id a k v) (hb : v.pipe.Bounded)
    (hact : k.sched.actor = some (b, p)) (h2 : 2 ≤ p.pid) (c : UInt8) (rest : List UInt8) (w : Nat) :
    Written id a b (v.setPipe (storeByte c v.pipe)) p.pid rest.length (w + 1 + rest.length)
      (writeResume k a (c :: rest) w) := by
  unfold writeResume
  exact writeLoop_pour rest (shows_storeByte h c) (Pipe.bounded_storeByte hb c) hact h2

end

end Tp2So
