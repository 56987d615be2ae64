import Tp2So.Pipes.Tokens
import Tp2So.Pipes.Store

/-!
# Whoever waits for an end that has gone

When the last writer has detached, a process that sleeps on `canRead` waits for nothing, and when the
last reader has, so does one that sleeps on `canWrite`.  `wake_all` and `closePipe` post once for each
*user* of the semaphore, and a pipe is the only user of its own.

* `Pipe.ended`      nobody is left, or expected, across from a side;
* `Relieved`        nobody sleeps on a side that has ended, nor inside a pipe that has been deleted;
* `PipeOp.gentle`   the others in the queue are not more than the posts that a departing end makes; a
                    write with no reader left does not fill the ring;
* `relieved_run`    in a run of gentle steps `Relieved` holds in every state.
-/

set_option linter.unusedVariables false

namespace Tp2So

/-- the counters of the other side of `s` -/
def Pipe.across (p : Pipe) : Side → Nat
  | .rd => p.writers
  | .wr => p.readers

/-- whoever waits on this side waits for nothing -/
def Pipe.ended (p : Pipe) : Side → Bool
  | .rd => p.writers == 0 && p.expWriters == 0
  | .wr => p.readers == 0 && p.expReaders == 0

def Side.other : Side → Side
  | .rd => .wr
  | .wr => .rd

/-- the queue of a semaphore -/
def PipeSys.waiters (t : PipeSys) (c : Nat) : List Int :=
  ((t.k.sems.heap c).map fun m => m.blockedProcesses.elems).getD []

def Relieved (id : Nat) (t : PipeSys) : Prop :=
  match t.pipe id with
  | some p => ∀ s, p.ended s = true → t.waiters (p.sem s) = []
  | none => ∀ q s, t.blockedIn q s = false

/-! ## the condition -/

/-- the posts of `closePipe` on each side, for a pipe that the detaching has left as `p` -/
def Pipe.closing (p : Pipe) : Nat := if p.gone then 0 else if p.attached ≤ 1 then 1 else 0

/-- the posts of the detaching itself -/
def Pipe.waking (p : Pipe) (s : Side) : Nat := if p.across s = 0 ∧ p.waiting s then 1 else 0

/-- the end of `pid` is taken off, which leaves the counters of `p`: everybody who waits for it on the
side `s` is woken, and nobody is left in the queues of a pipe that goes -/
def PipeSys.frees (t : PipeSys) (p : Pipe) (s : Side) (pid : Int) : Bool :=
  (!(p.ended s || p.attached == 0) ||
    decide (((t.waiters (p.sem s)).erase pid).length ≤ p.waking s + p.closing)) &&
  (p.attached != 0 || decide (((t.waiters (p.sem s.other)).erase pid).length ≤ p.closing))

/-- the tokens of a semaphore -/
def PipeSys.tokens (t : PipeSys) (c : Nat) : Nat := ((t.k.sems.heap c).map Sem.value).getD 0

/-- with no reader left, a write call or a woken writer has no more to store than the ring takes -/
def PipeOp.fits (id : Nat) (o : PipeOp) (t : PipeSys) (bs : List UInt8) : Bool :=
  (t.pipe id).all fun p => !p.ended .wr ||
    match o with
    | .resume => (bs.tail.length ≤ (storeByte (bs.headD 0) p).budget (t.tokens p.canWrite) : Bool)
    | _ => (bs.length ≤ p.budget (t.tokens p.canWrite) : Bool)

def PipeOp.gentle (id : Nat) (o : PipeOp) (t : PipeSys) : Bool :=
  match o with
  | .attachReader _ => (t.pipe id).all fun p => p.readers + 1 < 65536
  | .attachWriter _ => (t.pipe id).all fun p => p.writers + 1 < 65536
  | .detachReader pid => (t.pipe id).all fun p => t.frees (dropReader p) .wr pid
  | .detachWriter pid => (t.pipe id).all fun p => t.frees (dropWriter p) .rd pid
  | .schedule _ _ => true
  | o => ((o.asks t).all fun x => 2 ≤ x.1) &&
      (o.offers t).all fun x => 2 ≤ x.1 && o.fits id t x.2

/-! ## views -/

/-- nobody waits for nothing -/
def PView.Dry (v : PView) : Prop := ∀ s, v.pipe.ended s = true → v.q s = []

structure Tide (a : Nat) (cont : Int → PipeCont) (v : PView) : Prop where
  bounded : v.pipe.Bounded
  one : ∀ s, v.usr s = 1
  listed : ∀ s q, (cont q).side = some s → v.asleep q = true → q ∈ v.q s
  inPipe : ∀ q, (cont q).InPipe a

section
variable {id a b n w : Nat} {t t' : PipeSys} {v u : PView} {o : PipeOp} {q pid : Int} {s : Side}
  {cont : Int → PipeCont} {c : PipeCont} {p : Process} {bs : List UInt8}

theorem ended_ends {x y : Pipe} (h : x.ends = y.ends) (s : Side) : x.ended s = y.ended s := by
  unfold Pipe.ends at h
  simp only [Prod.mk.injEq] at h
  obtain ⟨h1, h2, h3, h4, -⟩ := h
  cases s with
  | rd => unfold Pipe.ended; rw [h2, h4]
  | wr => unfold Pipe.ended; rw [h1, h3]

theorem asleep_post (v : PView) (s : Side) (h : (v.post s).asleep q = true) : v.asleep q = true := by
  unfold PView.post at h
  split at h
  · exact h
  · have h' := asleep_wake.symm.trans h
    split at h'
    · cases h'
    · exact h'

theorem asleep_post_head {rest : List Int} (hq : v.q s = q :: rest) : (v.post s).asleep q = false := by
  rw [PView.post_cons hq]
  refine asleep_wake.trans ?_
  rw [if_pos rfl]

theorem post_usr (v : PView) (s : Side) : (v.post s).usr = v.usr := by
  unfold PView.post
  split <;> rfl

theorem Tide.pour (h : Tide a cont v) (hp : Pour v u) : Tide a cont u := by
  have hasleep : ∀ q, u.asleep q = v.asleep q := fun q => by
    unfold PView.asleep
    rw [hp.slot]
  refine ⟨hp.bounded, fun s => ?_, fun s q hs ha => ?_, h.inPipe⟩
  · rw [hp.usr]
    exact h.one s
  · rw [hp.q]
    exact h.listed s q hs ((hasleep q).symm.trans ha)

theorem Tide.post (h : Tide a cont v) (s : Side) : Tide a cont (v.post s) := by
  refine ⟨?_, fun s' => ?_, fun s' q hs ha => ?_, h.inPipe⟩
  · rw [v.post_pipe]
    exact h.bounded
  · rw [post_usr]
    exact h.one s'
  · have hm := h.listed s' q hs (asleep_post v s ha)
    by_cases e : s' = s
    · subst e
      rw [post_q_self]
      cases hq : v.q s' with
      | nil => rw [hq] at hm; exact absurd hm List.not_mem_nil
      | cons x rest =>
        rw [hq] at hm
        refine (List.mem_cons.mp hm).resolve_left fun hx => ?_
        rw [hx, asleep_post_head hq] at ha
        cases ha
    · rw [post_q_other v e]
      exact hm

theorem Tide.posts (s : Side) (n : Nat) : ∀ {v : PView}, Tide a cont v → Tide a cont (v.posts s n) := by
  induction n with
  | zero => exact fun h => h
  | succ n ih => exact fun h => ih (h.post s)

theorem Tide.out (h : Tide a cont v) (hc : c.side = none) (q : Int) :
    Tide a (Function.update cont q c) v := by
  refine ⟨h.bounded, h.one, fun s q' hs ha => ?_, fun q' => ?_⟩
  · by_cases e : q' = q
    · rw [e, Function.update_self, hc] at hs
      cases hs
    · rw [Function.update_of_ne e] at hs
      exact h.listed s q' hs ha
  · by_cases e : q' = q
    · rw [e, Function.update_self]
      cases c <;> trivial
    · rw [Function.update_of_ne e]
      exact h.inPipe q'

theorem Tide.sleep (h : Tide a cont v) (hc : c.side = some s) (hin : c.InPipe a) (q : Int) (b : Nat) :
    Tide a (Function.update cont q c) (v.sleep s q b) := by
  have hmem : ∀ s' q', q' ∈ v.q s' → q' ∈ (v.sleep s q b).q s' := fun s' q' hm => by
    unfold PView.sleep
    by_cases e : s' = s
    · subst e
      simp only [Function.update_self]
      exact List.mem_append_left _ hm
    · simp only [Function.update_of_ne e]
      exact hm
  refine ⟨h.bounded, h.one, fun s' q' hs ha => ?_, fun q' => ?_⟩
  · by_cases e : q' = q
    · subst e
      rw [Function.update_self, hc] at hs
      obtain rfl := Option.some.inj hs
      unfold PView.sleep
      simp only [Function.update_self]
      exact List.mem_append_right _ (List.mem_singleton_self q')
    · rw [Function.update_of_ne e] at hs
      have ha' : v.asleep q' = true := by
        have hs' : ((v.setPipe v.pipe).sleep s q b).asleep q' = _ := asleep_sleep
        rw [if_neg e] at hs'
        exact hs'.symm.trans ha
      exact hmem s' q' (h.listed s' q' hs ha')
  · by_cases e : q' = q
    · rw [e, Function.update_self]
      exact hin
    · rw [Function.update_of_ne e]
      exact h.inPipe q'

theorem PView.Dry.pour (h : v.Dry) (hp : Pour v u) : u.Dry := by
  intro s hs
  rw [hp.q]
  exact h s ((ended_ends hp.ends s).symm.trans hs)

theorem PView.Dry.post (h : v.Dry) (s : Side) : (v.post s).Dry := by
  intro s' hs
  rw [v.post_pipe] at hs
  by_cases e : s' = s
  · subst e
    rw [post_q_self, h s' hs]
    rfl
  · rw [post_q_other v e]
    exact h s' hs

theorem PView.Dry.sleep (h : v.Dry) (hs : v.pipe.ended s = false) (q : Int) (b : Nat) :
    (v.sleep s q b).Dry := by
  intro s' hs'
  have hs'' : v.pipe.ended s' = true := hs'
  have e : s' ≠ s := fun e => by
    rw [e, hs] at hs''
    cases hs''
  unfold PView.sleep
  simp only [Function.update_of_ne e]
  exact h s' hs''

/-! ## calls -/

structure Stored (id a : Nat) (t : PipeSys) (v : PView) : Prop where
  shows : Shows id a t.k v
  tide : Tide a t.cont v
  dry : v.Dry

theorem tide_afterRead {i : Nat} (got : Bool) (h : Tide a cont v) (hd : v.Dry)
    (hi : i < pipeBufferSize) : Tide a cont (v.afterRead i got) ∧ (v.afterRead i got).Dry := by
  have hb : (v.pipe.setIdxToRead i).Bounded := ⟨hi, h.bounded.2⟩
  unfold PView.afterRead
  split
  · have hp := pour_setPipe (v := v) (x := (v.pipe.setIdxToRead i).setWaitingToWrite false) rfl hb
    exact ⟨(h.pour hp).post .wr, (hd.pour hp).post .wr⟩
  · have hp := pour_setPipe (v := v) (x := v.pipe.setIdxToRead i) rfl hb
    exact ⟨h.pour hp, hd.pour hp⟩

theorem tide_afterWrite (any : Bool) (h : Tide a cont v) (hd : v.Dry) :
    Tide a cont (v.afterWrite v.pipe any) ∧ (v.afterWrite v.pipe any).Dry := by
  unfold PView.afterWrite
  split
  · have hp := pour_setPipe (v := v) (x := v.pipe.setWaitingToRead false) rfl h.bounded
    exact ⟨(h.pour hp).post .rd, (hd.pour hp).post .rd⟩
  · have hp := pour_setPipe (v := v) (x := v.pipe) rfl h.bounded
    exact ⟨h.pour hp, hd.pour hp⟩

/-- **A read call, or the end of one.** -/
theorem stored_readCall (h : Stored id a t v) {r : ReadResult} {k : Kernel}
    (hc : readCall id o t = some (q, n, r, k)) (h2 : 2 ≤ q) :
    ∃ v', Stored id a (settleRead t (q, n, r, k)) v' := by
  obtain ⟨-, b, p, hact, rfl, hcase⟩ := readCall_some hc
  -- after the wait nobody looks at the ring
  have hresume : ∀ {k' : Kernel} {u : PView}, Shows id a k' u → Tide a t.cont u → u.Dry →
      readResume k' a n = (r, k) → ∃ v', Stored id a (settleRead t (p.pid, n, r, k)) v' := by
    intro k' u hu ht hd hr
    obtain ⟨i, k'', hi, -, hres, hshows⟩ := readResume_shows hu ht.bounded n
    obtain ⟨rfl, rfl⟩ := Prod.mk.inj (hr.symm.trans hres)
    obtain ⟨ht', hd'⟩ := tide_afterRead (u.pipe.ring.take n != []) ht hd hi
    exact ⟨_, hshows, ht'.out rfl p.pid, hd'⟩
  rcases hcase with ⟨-, -, hr⟩ | ⟨-, c, hcont, hr⟩
  · rcases readPipe_pour h.shows h.tide.bounded hact h2 n with
      he | ⟨u, k', hp, hs, he⟩ | ⟨k', hw, he, hs⟩
    · obtain ⟨rfl, rfl⟩ := Prod.mk.inj (hr.symm.trans he)
      exact ⟨v, h.shows, h.tide.out rfl p.pid, h.dry⟩
    · exact hresume hs (h.tide.pour hp) (h.dry.pour hp) (he.symm.trans hr)
    · obtain ⟨rfl, rfl⟩ := Prod.mk.inj (hr.symm.trans he)
      have hp := pour_setPipe (v := v) (x := v.pipe.setWaitingToRead true) rfl h.tide.bounded
      refine ⟨_, hs, (h.tide.pour hp).sleep (c := .reading a n) rfl rfl p.pid b,
        (h.dry.pour hp).sleep ?_ p.pid b⟩
      refine Bool.eq_false_iff.mpr fun he => hw ?_
      have he' : (v.pipe.writers == 0 && v.pipe.expWriters == 0) = true := he
      rw [Bool.and_eq_true, beq_iff_eq, beq_iff_eq] at he'
      exact he'
  · have hin := h.tide.inPipe p.pid
    rw [hcont] at hin
    obtain rfl : c = a := hin
    exact hresume h.shows h.tide h.dry hr

/-- what a row of bytes leaves, when it fits or there is still a reader -/
theorem stored_written {len total : Nat} {r : WriteResult} {k : Kernel} (ht : Tide a t.cont v)
    (hd : v.Dry) (hw : Written id a b v q len total (r, k))
    (hfit : v.pipe.ended .wr = true → len ≤ v.pipe.budget (v.val .wr)) (bs : List UInt8) (w : Nat) :
    ∃ v', Stored id a (settleWrite t (q, bs, w, r, k)) v' := by
  obtain ⟨u, hp, ⟨k', hr, hs⟩ | ⟨k', rest, w', hne, hr, hs, hlt⟩⟩ := hw
  · obtain ⟨rfl, rfl⟩ := Prod.mk.inj hr
    obtain ⟨ht', hd'⟩ := tide_afterWrite (decide (0 < total)) (ht.pour hp) (hd.pour hp)
    exact ⟨_, hs, ht'.out rfl q, hd'⟩
  · obtain ⟨rfl, rfl⟩ := Prod.mk.inj hr
    have hp' := hp.trans (pour_setPipe (v := u) (x := u.pipe.setWaitingToWrite true) rfl hp.bounded)
    refine ⟨_, hs, (ht.pour hp').sleep (c := .writing a rest w') rfl ⟨rfl, hne⟩ q b,
      (hd.pour hp').sleep ?_ q b⟩
    refine (ended_ends hp'.ends .wr).trans (Bool.eq_false_iff.mpr fun he => ?_)
    have := hfit he
    omega

/-- **A write call, or the end of one.** -/
theorem stored_writeCall (h : Stored id a t v) {r : WriteResult} {k : Kernel}
    (hc : writeCall id o t = some (q, bs, w, r, k)) (h2 : 2 ≤ q) (hfit : o.fits id t bs = true) :
    ∃ v', Stored id a (settleWrite t (q, bs, w, r, k)) v' := by
  obtain ⟨-, b, p, hact, rfl, hcase⟩ := writeCall_some hc
  obtain ⟨m, hm, -, hval, -⟩ := h.shows.sem .wr
  have htok : t.tokens v.pipe.canWrite = v.val .wr := by
    unfold PipeSys.tokens
    rw [show t.k.sems.heap v.pipe.canWrite = some m from hm, ← hval]
    rfl
  have hend : ∀ {f : Bool}, (!v.pipe.ended .wr || f) = true → v.pipe.ended .wr = true → f = true := by
    intro f hf he
    rw [he] at hf
    exact hf
  unfold PipeOp.fits at hfit
  rw [h.shows.pipe_eq, Option.all_some] at hfit
  rcases hcase with ⟨data, rfl, -, rfl, rfl, hr⟩ | ⟨rfl, c, hcont, hr⟩
  · have hw := writeLoop_pour (w := 0) (data.take (intBytes data.length)) h.shows h.tide.bounded
      hact h2
    rw [← writePipe_eq h.shows data, hr] at hw
    refine stored_written h.tide h.dry hw (fun he => ?_) _ _
    have := of_decide_eq_true (hend hfit he)
    rw [htok] at this
    exact this
  · have hin := h.tide.inPipe p.pid
    rw [hcont] at hin
    obtain ⟨rfl, hne⟩ := hin
    obtain ⟨x, rest, rfl⟩ := List.exists_cons_of_ne_nil hne
    have hw := writeResume_pour h.shows h.tide.bounded hact h2 x rest w
    rw [hr] at hw
    have hp := pour_setPipe (v := v) (x := storeByte x v.pipe) rfl
      (Pipe.bounded_storeByte h.tide.bounded x)
    refine stored_written (h.tide.pour hp) (h.dry.pour hp) hw (fun he => ?_) _ _
    have := of_decide_eq_true (hend hfit he)
    rw [htok] at this
    exact this

/-! ## an end goes -/

/-- both detachings on the view: `dec` takes the end off, `off` clears the flag of the side `s` -/
def PView.leave (v : PView) (pid : Int) (dec : Pipe → Pipe) (s : Side) (off : Pipe → Pipe) : PView :=
  if (dec v.pipe).across s = 0 ∧ (dec v.pipe).waiting s then
    (((v.forget pid).setPipe (dec v.pipe)).wake s).setPipe (off (dec v.pipe))
  else (v.forget pid).setPipe (dec v.pipe)

theorem forget_q (v : PView) (pid : Int) (s : Side) : (v.forget pid).q s = (v.q s).erase pid := by
  cases s <;> rfl

theorem posts_q_self (s : Side) (n : Nat) : ∀ v : PView, (v.posts s n).q s = (v.q s).drop n := by
  induction n with
  | zero => exact fun v => rfl
  | succ n ih =>
    intro v
    show ((v.post s).posts s n).q s = _
    rw [ih, post_q_self, List.drop_tail]

theorem posts_q_other {s s' : Side} (hne : s' ≠ s) (n : Nat) :
    ∀ v : PView, (v.posts s n).q s' = v.q s' := by
  induction n with
  | zero => exact fun v => rfl
  | succ n ih => exact fun v => (ih (v.post s)).trans (post_q_other v hne)

theorem posts_usr (s : Side) (n : Nat) : ∀ v : PView, (v.posts s n).usr = v.usr := by
  induction n with
  | zero => exact fun v => rfl
  | succ n ih => exact fun v => (ih (v.post s)).trans (post_usr v s)

theorem Side.other_ne (s : Side) : s.other ≠ s := by cases s <;> decide

theorem Side.eq_or (s s' : Side) : s' = s ∨ s' = s.other := by
  cases s <;> cases s' <;> decide

theorem Tide.forget (h : Tide a cont v) (pid : Int) :
    Tide a (Function.update cont pid .gone) (v.forget pid) := by
  have hout := h.out (c := .gone) rfl pid
  refine ⟨h.bounded, h.one, fun s q hs ha => ?_, hout.inPipe⟩
  have hne : q ≠ pid := fun e => by
    rw [e, Function.update_self] at hs
    cases hs
  rw [forget_q]
  exact (List.mem_erase_of_ne hne).mpr (hout.listed s q hs ha)

/-- the counters and the queues after an end has gone -/
structure Left (a : Nat) (cont : Int → PipeCont) (v u : PView) (x : Pipe) (s : Side) (pid : Int) :
    Prop where
  ends : u.pipe.ends = x.ends
  tide : Tide a (Function.update cont pid .gone) u
  self : u.q s = ((v.q s).erase pid).drop (x.waking s)
  other : u.q s.other = (v.q s.other).erase pid

theorem left_leave (h : Tide a cont v) {dec : Pipe → Pipe} (pid : Int) (s : Side) (off : Pipe → Pipe)
    (hb : (dec v.pipe).Bounded) (hoff : ∀ x, (off x).ends = x.ends ∧ (x.Bounded → (off x).Bounded)) :
    Left a cont v (v.leave pid dec s off) (dec v.pipe) s pid := by
  have hf : Tide a (Function.update cont pid .gone) ((v.forget pid).setPipe (dec v.pipe)) :=
    ⟨hb, h.one, (h.forget pid).listed, (h.forget pid).inPipe⟩
  unfold PView.leave
  split
  · rename_i hlast
    have hone : (dec v.pipe).waking s = 1 := if_pos hlast
    -- one post, as the pipe is the only user of its semaphore
    have husr : ((v.forget pid).setPipe (dec v.pipe)).usr s = 1 := h.one s
    unfold PView.wake
    rw [husr]
    have ht := hf.posts s 1
    refine ⟨(hoff _).1, ⟨(hoff _).2 hb, ht.one, ht.listed, ht.inPipe⟩, ?_, ?_⟩
    · show (((v.forget pid).setPipe (dec v.pipe)).posts s 1).q s = _
      rw [posts_q_self, hone]
      show ((v.forget pid).q s).drop 1 = _
      rw [forget_q]
    · show (((v.forget pid).setPipe (dec v.pipe)).posts s 1).q s.other = _
      rw [posts_q_other s.other_ne]
      exact forget_q v pid s.other
  · rename_i hlast
    have hnone : (dec v.pipe).waking s = 0 := if_neg hlast
    refine ⟨rfl, hf, ?_, forget_q v pid s.other⟩
    rw [hnone]
    exact forget_q v pid s

theorem closed_q (h : ∀ s, v.usr s = 1) (s : Side) :
    v.closed.q s = (v.q s).drop (if v.pipe.attached ≤ 1 then 1 else 0) := by
  unfold PView.closed
  split
  · have husr : (v.posts .rd 1).usr .wr = 1 := by
      rw [posts_usr]
      exact h .wr
    unfold PView.wake
    rw [h .rd, husr]
    cases s with
    | rd => rw [posts_q_other (by decide), posts_q_self]
    | wr => rw [posts_q_self, posts_q_other (by decide)]
  · rfl

theorem Tide.closed (h : Tide a cont v) : Tide a cont v.closed := by
  unfold PView.closed
  split
  · exact (h.posts .rd _).posts .wr _
  · exact h

/-! ## a pipe that has been deleted -/

structure Erased (id a : Nat) (t : PipeSys) : Prop where
  ok : t.k.sched.Ok
  noPipe : getValidPipe t.k.pipes id = none
  noHeap : t.k.pipes.heap a = none
  awake : ∀ q s, t.blockedIn q s = false
  inPipe : ∀ q, (t.cont q).InPipe a

/-- the pipe goes when nobody is in its queues -/
theorem erased_delete {k : Kernel} (hs : Shows id a k v) (ht : Tide a t.cont v)
    (hq : ∀ s, v.q s = []) (hk : t.k = deletePipe k a) : Erased id a t := by
  obtain ⟨hheap, hsched⟩ := deletePipe_heap hs
  refine ⟨?_, ?_, ?_, fun q s => ?_, ht.inPipe⟩
  · rw [hk, hsched]
    exact hs.ok
  · rw [hk]
    exact getValidPipe_deletePipe hs
  · rw [hk]
    exact hheap
  · unfold PipeSys.blockedIn
    rw [hk, hsched, hs.slot]
    refine Bool.eq_false_iff.mpr fun hb => ?_
    obtain ⟨hside, ha⟩ := Bool.and_eq_true_iff.mp hb
    have hm := ht.listed s q (of_decide_eq_true hside) ha
    rw [hq s] at hm
    exact absurd hm List.not_mem_nil

def Afloat (id a : Nat) (t : PipeSys) : Prop := (∃ v, Stored id a t v) ∨ Erased id a t

theorem Pipe.kept_iff (x : Pipe) : x.Kept ↔ x.gone = false := by
  unfold Pipe.Kept
  rw [← Pipe.gone_iff, Bool.not_eq_true]

theorem Shows.waiters_eq (h : Shows id a t.k v) (s : Side) : t.waiters (v.pipe.sem s) = v.q s := by
  obtain ⟨m, hm, hq, -⟩ := h.sem s
  unfold PipeSys.waiters
  rw [hm, ← hq]
  rfl

theorem attached_ends {x y : Pipe} (h : x.ends = y.ends) : x.attached = y.attached := by
  unfold Pipe.ends at h
  simp only [Prod.mk.injEq] at h
  exact h.2.2.2.2

/-- **An end goes**: `x` is the pipe without it, `kd` what the detaching makes of the kernel. -/
theorem afloat_leave (h : Stored id a t v) (h2 : 2 ≤ id) {x : Pipe} {k kd : Kernel}
    (hs : Shows id a k u) (hl : Left a t.cont v u x s pid) (hsem : ∀ s, x.sem s = v.pipe.sem s)
    (hother : x.ended s.other = v.pipe.ended s.other) (hkeep : x.Kept → kd = k)
    (hdel : ¬ x.Kept → kd = deletePipe k a) (hfree : t.frees x s pid = true)
    (hk : t'.k = (closePipe kd id).2) (hcont : t'.cont = Function.update t.cont pid .gone) :
    Afloat id a t' := by
  unfold PipeSys.frees at hfree
  rw [hsem, hsem, h.shows.waiters_eq, h.shows.waiters_eq] at hfree
  obtain ⟨hfree, hfree'⟩ := Bool.and_eq_true_iff.mp hfree
  have hself : x.ended s = true ∨ x.attached = 0 →
      ((v.q s).erase pid).length ≤ x.waking s + x.closing := by
    intro hc
    have hc' : (x.ended s || x.attached == 0) = true := by
      rw [Bool.or_eq_true, beq_iff_eq]
      exact hc
    rw [hc'] at hfree
    exact of_decide_eq_true hfree
  have hoth : x.attached = 0 → ((v.q s.other).erase pid).length ≤ x.closing := by
    intro hc
    rw [hc] at hfree'
    exact of_decide_eq_true hfree'
  have hdry : x.ended s.other = true → (v.q s.other).erase pid = [] := by
    intro he
    rw [h.dry s.other (hother.symm.trans he)]
    rfl
  have htide : Tide a t'.cont u := by
    rw [hcont]
    exact hl.tide
  have hat := attached_ends hl.ends
  by_cases hg : x.gone = true
  · -- the detaching deletes the pipe, and there is nothing for `closePipe`
    obtain ⟨hr, hw, hxr, hxw⟩ := x.gone_iff.mp hg
    have hend : ∀ s, x.ended s = true := fun s => by
      cases s <;> unfold Pipe.ended <;> simp only [hr, hw, hxr, hxw] <;> rfl
    have hkd := hdel (by rw [x.kept_iff, hg]; decide)
    have hnone := getValidPipe_deletePipe hs
    have hk' : t'.k = deletePipe k a := by
      rw [hk, hkd]
      unfold closePipe
      rw [hnone]
    refine Or.inr (erased_delete hs htide (fun s' => ?_) hk')
    rcases Side.eq_or s s' with rfl | rfl
    · rw [hl.self]
      have hle := hself (Or.inl (hend s'))
      unfold Pipe.closing at hle
      rw [if_pos hg] at hle
      exact List.drop_eq_nil_of_le hle
    · rw [hl.other]
      exact hdry (hend _)
  · have hg' : x.gone = false := Bool.eq_false_iff.mpr hg
    obtain ⟨k', hs', hstay, hgo⟩ := closePipe_eq hs h2
    rw [hkeep (x.kept_iff.mpr hg')] at hk
    have hclosing : x.closing = if u.pipe.attached ≤ 1 then 1 else 0 := by
      unfold Pipe.closing
      rw [if_neg hg, hat]
    have hqs : ((v.q s).erase pid).length ≤ x.waking s + x.closing → u.closed.q s = [] := by
      intro hle
      rw [closed_q hl.tide.one, ← hclosing, hl.self, List.drop_drop]
      exact List.drop_eq_nil_of_le hle
    have hqo : ((v.q s.other).erase pid).length ≤ x.closing → u.closed.q s.other = [] := by
      intro hle
      rw [closed_q hl.tide.one, ← hclosing, hl.other]
      exact List.drop_eq_nil_of_le hle
    by_cases ha : u.pipe.attached = 0
    · refine Or.inr (erased_delete hs' htide.closed (fun s' => ?_) (hk.trans (hgo ha)))
      rcases Side.eq_or s s' with rfl | rfl
      · exact hqs (hself (Or.inr (hat.symm.trans ha)))
      · exact hqo (hoth (hat.symm.trans ha))
    · refine Or.inl ⟨_, by rw [hk, hstay ha]; exact hs', htide.closed, fun s' he => ?_⟩
      rw [PView.closed_pipe] at he
      have he' := (ended_ends hl.ends s').symm.trans he
      rcases Side.eq_or s s' with rfl | rfl
      · exact hqs (hself (Or.inl he'))
      · refine hqo ?_
        rw [hdry he']
        exact Nat.zero_le _

/-! ## steps -/

theorem stored_attach (h : Stored id a t v) (f : Pipe → Pipe) (hf : v.pipe.SameRing (f v.pipe))
    (hend : (f v.pipe).ended s = false) (hother : (f v.pipe).ended s.other = v.pipe.ended s.other)
    (q : Int) :
    Stored id a { t with k := t.k.modPipe a f, cont := joined t.cont q } (v.setPipe (f v.pipe)) := by
  obtain ⟨hid, hsem, -, hb, -⟩ := hf
  have hlisted : ∀ s q', (joined t.cont q q').side = some s → v.asleep q' = true → q' ∈ v.q s :=
    fun s q' hs ha => h.tide.listed s q' ((side_joined t.cont q q').symm.trans hs) ha
  refine ⟨shows_modPipe h.shows hid hsem, ⟨hb h.tide.bounded, h.tide.one, hlisted,
    inPipe_joined h.tide.inPipe q⟩, fun s' he => ?_⟩
  have he' : (f v.pipe).ended s' = true := he
  rcases Side.eq_or s s' with rfl | rfl
  · rw [hend] at he'
    cases he'
  · exact h.dry _ (hother.symm.trans he')

theorem inc16_ne_zero {m : Nat} (h : m + 1 < 65536) : (inc16 m == 0) = false := by
  unfold inc16
  rw [Nat.mod_eq_of_lt h]
  rfl

theorem bounded_dropReader {x : Pipe} (h : x.Bounded) : (dropReader x).Bounded := by
  unfold dropReader
  split <;> exact h

theorem bounded_dropWriter {x : Pipe} (h : x.Bounded) : (dropWriter x).Bounded := by
  unfold dropWriter
  split <;> exact h

theorem ended_dropReader (x : Pipe) : (dropReader x).ended .rd = x.ended .rd := by
  unfold dropReader
  split <;> rfl

theorem ended_dropWriter (x : Pipe) : (dropWriter x).ended .wr = x.ended .wr := by
  unfold dropWriter
  split <;> rfl

theorem gentle_call (hg : (((o.asks t).all fun x => 2 ≤ x.1) &&
    (o.offers t).all fun x => 2 ≤ x.1 && o.fits id t x.2) = true) (h : Stored id a t v)
    (he : execCall id o t = some t') : ∃ v', Stored id a t' v' := by
  obtain ⟨hask, hoff⟩ := Bool.and_eq_true_iff.mp hg
  rcases execCall_some he with ⟨⟨q, n, r, k⟩, hc, rfl⟩ | ⟨⟨q, bs, w, r, k⟩, hc, rfl⟩
  · rw [(readCall_some hc).1, Option.all_some] at hask
    exact stored_readCall h hc (of_decide_eq_true hask)
  · rw [(writeCall_some hc).1, Option.all_some] at hoff
    obtain ⟨h2, hfit⟩ := Bool.and_eq_true_iff.mp hoff
    exact stored_writeCall h hc (of_decide_eq_true h2) hfit

/-- **One step** on a pipe that is stored. -/
theorem Stored.step (h : Stored id a t v) (h2 : 2 ≤ id) (hg : o.gentle id t = true)
    (he : execPipe id o t = some t') : Afloat id a t' := by
  have hp := h.shows.pipe_eq
  cases o with
  | attachReader pid =>
    obtain rfl := Option.some.inj he
    simp only [PipeOp.gentle, hp, Option.all_some] at hg
    rw [attachReader_eq h.shows]
    refine Or.inl ⟨_, stored_attach (s := .wr) h _ (sameRing_addReader v.pipe) ?_ rfl pid⟩
    show (inc16 v.pipe.readers == 0 && _) = false
    rw [inc16_ne_zero (of_decide_eq_true hg)]
    rfl
  | attachWriter pid =>
    obtain rfl := Option.some.inj he
    simp only [PipeOp.gentle, hp, Option.all_some] at hg
    rw [attachWriter_eq h.shows]
    refine Or.inl ⟨_, stored_attach (s := .rd) h _ (sameRing_addWriter v.pipe) ?_ rfl pid⟩
    show (inc16 v.pipe.writers == 0 && _) = false
    rw [inc16_ne_zero (of_decide_eq_true hg)]
    rfl
  | read n => exact Or.inl (gentle_call (o := .read n) hg h he)
  | write data => exact Or.inl (gentle_call (o := .write data) hg h he)
  | resume => exact Or.inl (gentle_call (o := .resume) hg h he)
  | detachReader pid =>
    obtain rfl := Option.some.inj he
    simp only [PipeOp.gentle, hp, Option.all_some] at hg
    obtain ⟨k, hs, hkeep, hdel⟩ := detachReader_eq pid h.shows
    have hl := left_leave h.tide pid .wr (Pipe.setWaitingToWrite false)
      (bounded_dropReader h.tide.bounded) fun x => ⟨rfl, fun hb => hb⟩
    exact afloat_leave h h2 hs hl (sem_dropReader v.pipe) (ended_dropReader v.pipe) hkeep hdel hg
      rfl rfl
  | detachWriter pid =>
    obtain rfl := Option.some.inj he
    simp only [PipeOp.gentle, hp, Option.all_some] at hg
    obtain ⟨k, hs, hkeep, hdel⟩ := detachWriter_eq pid h.shows
    have hl := left_leave h.tide pid .rd (Pipe.setWaitingToRead false)
      (bounded_dropWriter h.tide.bounded) fun x => ⟨rfl, fun hb => hb⟩
    exact afloat_leave h h2 hs hl (sem_dropWriter v.pipe) (ended_dropWriter v.pipe) hkeep hdel hg
      rfl rfl
  | schedule fuel rsp =>
    obtain ⟨r, hr, rfl⟩ := Option.map_eq_some_iff.mp he
    exact Or.inl ⟨v, shows_schedule h.shows hr, h.tide, h.dry⟩

/-- nothing happens to the kernel, and whoever was inside a call leaves it -/
theorem Erased.still (h : Erased id a t) (hk : t'.k = t.k)
    (hside : ∀ q s, (t'.cont q).side = some s → (t.cont q).side = some s)
    (hin : ∀ q, (t'.cont q).InPipe a) : Erased id a t' := by
  refine ⟨by rw [hk]; exact h.ok, by rw [hk]; exact h.noPipe, by rw [hk]; exact h.noHeap,
    fun q s => ?_, hin⟩
  refine Bool.eq_false_iff.mpr fun hb => ?_
  obtain ⟨hs, ha⟩ := Bool.and_eq_true_iff.mp hb
  have hb' : t.blockedIn q s = true := by
    rw [hk] at ha
    exact Bool.and_eq_true_iff.mpr ⟨decide_eq_true (hside q s (of_decide_eq_true hs)), ha⟩
  rw [h.awake q s] at hb'
  cases hb'

theorem Erased.out (h : Erased id a t) (hc : c.side = none) (hin : c.InPipe a) (hk : t'.k = t.k)
    (q : Int) (hcont : t'.cont = Function.update t.cont q c) : Erased id a t' := by
  refine h.still hk (fun q' s hs => ?_) fun q' => ?_
  · rw [hcont] at hs
    by_cases e : q' = q
    · rw [e, Function.update_self, hc] at hs
      cases hs
    · rwa [Function.update_of_ne e] at hs
  · rw [hcont]
    by_cases e : q' = q
    · rw [e, Function.update_self]
      exact hin
    · rw [Function.update_of_ne e]
      exact h.inPipe q'

theorem modPipe_none {k : Kernel} (hk : k.pipes.heap a = none) (f : Pipe → Pipe) :
    k.modPipe a f = k := by
  have : heapMod k.pipes.heap a f = k.pipes.heap := by
    unfold heapMod
    rw [hk, Option.map_none, ← hk]
    exact Function.update_eq_self a k.pipes.heap
  unfold Kernel.modPipe PipeStore.modify
  rw [this]

theorem writeLoop_none {k : Kernel} (hk : k.pipes.heap a = none) (bs : List UInt8) (w : Nat) :
    writeLoop a bs w k = (.error, k) := by
  cases bs with
  | nil => unfold writeLoop writeFinish; rw [hk]
  | cons x bs => unfold writeLoop; rw [hk]

theorem readResume_none {k : Kernel} (hk : k.pipes.heap a = none) (n : Nat) :
    readResume k a n = (.error, k) := by
  unfold readResume
  rw [hk]

theorem writeResume_none {k : Kernel} (hk : k.pipes.heap a = none) (bs : List UInt8) (w : Nat) :
    writeResume k a bs w = (.error, k) := by
  unfold writeResume
  cases bs with
  | nil => simp only [writeFinish, hk]
  | cons x bs =>
    show writeLoop a bs (w + 1) (k.modPipe a (storeByte x)) = _
    rw [modPipe_none hk]
    exact writeLoop_none hk bs (w + 1)

/-- every call on a deleted pipe fails -/
theorem Erased.call (h : Erased id a t) (he : execCall id o t = some t') : Erased id a t' := by
  rcases execCall_some he with ⟨⟨q, n, r, k⟩, hc, rfl⟩ | ⟨⟨q, bs, w, r, k⟩, hc, rfl⟩
  · obtain ⟨-, b, p, -, -, hcase⟩ := readCall_some hc
    have hfail : (ReadResult.error, t.k) = (r, k) := by
      rcases hcase with ⟨-, -, hr⟩ | ⟨-, c, hcont, hr⟩
      · unfold readPipe at hr
        rw [h.noPipe] at hr
        exact hr
      · have hin := h.inPipe q
        rw [hcont] at hin
        obtain rfl : c = a := hin
        exact (readResume_none h.noHeap n).symm.trans hr
    obtain ⟨rfl, rfl⟩ := Prod.mk.inj hfail
    exact h.out (c := .idle) rfl trivial rfl q rfl
  · obtain ⟨-, b, p, -, -, hcase⟩ := writeCall_some hc
    have hfail : (WriteResult.error, t.k) = (r, k) := by
      rcases hcase with ⟨data, -, -, -, -, hr⟩ | ⟨-, c, hcont, hr⟩
      · unfold writePipe at hr
        rw [h.noPipe] at hr
        exact hr
      · have hin := h.inPipe q
        rw [hcont] at hin
        obtain ⟨rfl, -⟩ := hin
        exact (writeResume_none h.noHeap bs w).symm.trans hr
    obtain ⟨rfl, rfl⟩ := Prod.mk.inj hfail
    exact h.out (c := .idle) rfl trivial rfl q rfl

theorem Erased.step (h : Erased id a t) (he : execPipe id o t = some t') : Erased id a t' := by
  have hclose : closePipe t.k id = (-1, t.k) := closePipe_absent h.noPipe
  cases o with
  | attachReader pid =>
    obtain rfl := Option.some.inj he
    refine h.still ?_ (fun q s hs => (side_joined t.cont pid q).symm.trans hs)
      (inPipe_joined h.inPipe pid)
    rw [attachReader_absent h.noPipe]
  | attachWriter pid =>
    obtain rfl := Option.some.inj he
    refine h.still ?_ (fun q s hs => (side_joined t.cont pid q).symm.trans hs)
      (inPipe_joined h.inPipe pid)
    rw [attachWriter_absent h.noPipe]
  | read n => exact h.call he
  | write data => exact h.call he
  | resume => exact h.call he
  | detachReader pid =>
    obtain rfl := Option.some.inj he
    have hdet : detachReader t.k id pid = t.k := detach_absent h.noPipe pid _ _
    refine h.out (c := .gone) rfl trivial ?_ pid rfl
    show (closePipe (detachReader t.k id pid) id).2 = t.k
    rw [hdet, hclose]
  | detachWriter pid =>
    obtain rfl := Option.some.inj he
    have hdet : detachWriter t.k id pid = t.k := detach_absent h.noPipe pid _ _
    refine h.out (c := .gone) rfl trivial ?_ pid rfl
    show (closePipe (detachWriter t.k id pid) id).2 = t.k
    rw [hdet, hclose]
  | schedule fuel rsp =>
    obtain ⟨r, hr, rfl⟩ := Option.map_eq_some_iff.mp he
    refine ⟨Sched.ok_schedule h.ok hr, h.noPipe, h.noHeap, fun q s => ?_, h.inPipe⟩
    have hb := h.awake q s
    unfold PipeSys.blockedIn at hb ⊢
    show (_ && (r.2.slot q).any Slot.blocked) = false
    rw [Sched.slot_schedule h.ok hr]
    exact hb

/-! ## runs -/

/-- whoever is not inside a call may make one: an end may come back after it has gone, and a process
may have both -/
def PipeSys.free (t : PipeSys) : PipeSys :=
  { t with cont := fun q => if (t.cont q).side = none then .idle else t.cont q }

def execEnds (id : Nat) (o : PipeOp) (t : PipeSys) : Option PipeSys := execPipe id o t.free

theorem side_free (t : PipeSys) (q : Int) : (t.free.cont q).side = (t.cont q).side := by
  show (if (t.cont q).side = none then PipeCont.idle else t.cont q).side = _
  split
  · rename_i h
    rw [h]
    rfl
  · rfl

theorem inPipe_free (h : ∀ q, (t.cont q).InPipe a) (q : Int) : (t.free.cont q).InPipe a := by
  show (if (t.cont q).side = none then PipeCont.idle else t.cont q).InPipe a
  split
  · trivial
  · exact h q

theorem Afloat.free (h : Afloat id a t) : Afloat id a t.free := by
  rcases h with ⟨v, h⟩ | h
  · exact Or.inl ⟨v, h.shows, ⟨h.tide.bounded, h.tide.one, fun s q hs ha =>
      h.tide.listed s q ((side_free t q).symm.trans hs) ha, inPipe_free h.tide.inPipe⟩, h.dry⟩
  · exact Or.inr (h.still rfl (fun q s hs => (side_free t q).symm.trans hs) (inPipe_free h.inPipe))

/-- **One step.** -/
theorem afloat_step (h2 : 2 ≤ id) (h : Afloat id a t) (hg : o.gentle id t.free = true)
    (he : execEnds id o t = some t') : Afloat id a t' := by
  rcases h.free with ⟨v, h⟩ | h
  · exact h.step h2 hg he
  · exact Or.inr (h.step he)

theorem Afloat.relieved (h : Afloat id a t) : Relieved id t := by
  unfold Relieved
  rcases h with ⟨v, h⟩ | h
  · rw [h.shows.pipe_eq]
    intro s hs
    rw [h.shows.waiters_eq]
    exact h.dry s hs
  · have hnone : t.pipe id = none := by
      unfold PipeSys.pipe
      rw [h.noPipe]
      rfl
    rw [hnone]
    exact h.awake

theorem afloat_opened (h : t.Opened id) : ∃ a, Afloat id a t := by
  obtain ⟨k, buffer, hflow⟩ := flow_opened h
  exact ⟨_, Or.inl ⟨_, hflow.shows, ⟨hflow.bounded, fun _ => rfl, hflow.listed, hflow.inPipe⟩,
    fun s hs => rfl⟩⟩

/-- **Nobody waits for an end that has gone.**  In every run of gentle steps of any number of readers
and writers, once the last writer has detached the queue of `canRead` is empty, and once the last
reader has, the queue of `canWrite` is. -/
theorem relieved_run {os : List PipeOp} (h₀ : t.Opened id)
    (h : Runs (execEnds id) (fun o t => o.gentle id t.free) os t t') : Relieved id t' := by
  obtain ⟨a, ha⟩ := afloat_opened h₀
  have hinv : Afloat id a t' := Runs.inv (I := Afloat id a)
    (fun o t u ht ho he => afloat_step h₀.two_le ht ho he) h ha
  exact hinv.relieved

end

/-- `3` and `4` sleep as readers and `2`, the writer, is running -/
def sleepyReaders : List PipeOp :=
  [.attachWriter 2, .attachReader 3, .attachReader 4, .schedule 8 8, .schedule 8 8200,
    .schedule 8 16400, .read 1, .schedule 8 24600, .read 1, .schedule 8 32800, .schedule 8 8200]

/-- a byte wakes `3`, which goes; then the last writer goes, and `closePipe` wakes `4` -/
theorem relieved_run_byte : ∃ t t', t.Opened 2 ∧
    Runs (execEnds 2) (fun o t => o.gentle 2 t.free)
      (sleepyReaders ++ [.write [7], .detachReader 3, .detachWriter 2]) t t' ∧ Relieved 2 t' ∧
    (t'.pipe 2).map (fun p => (p.writers, p.expWriters)) = some (0, 0) := by
  have hrun : ((runIf execSem SemOp.clean threeUsers (SemSys.boot 0 [])).bind fun s =>
      (runIf (execEnds 2) (fun o t => o.gentle 2 t.free)
        (sleepyReaders ++ [.write [7], .detachReader 3, .detachWriter 2])
        (.start s.k fun _ => 0)).map
      fun t => (locateSemaphoreByName s.k.sems (buildSemName 2 'R'),
        locateSemaphoreByName s.k.sems (buildSemName 2 'W'), (openPipe s.k fun _ => 0).1,
        (t.pipe 2).map fun p => (p.writers, p.expWriters)))
      = some (none, none, 2, some (0, 0)) := by decide +kernel
  obtain ⟨s, hs, hrun⟩ := Option.bind_eq_some_iff.mp hrun
  obtain ⟨t', ht, hv⟩ := Option.map_eq_some_iff.mp hrun
  simp only [Prod.mk.injEq] at hv
  obtain ⟨hr, hw, hid, hp⟩ := hv
  have hopen := opened_start (sound_run (runs_of_runIf hs)) hr hw hid
  have hruns := runs_of_runIf ht
  exact ⟨_, t', hopen, hruns, relieved_run hopen hruns, hp⟩

/-- with both readers asleep the last writer goes, which wakes `3` only -/
theorem relieved_fails : ∃ t t', t.Opened 2 ∧
    run (execEnds 2) (sleepyReaders ++ [.detachWriter 2]) t = some t' ∧ ¬ Relieved 2 t' := by
  have hrun : ((runIf execSem SemOp.clean threeUsers (SemSys.boot 0 [])).bind fun s =>
      (run (execEnds 2) (sleepyReaders ++ [.detachWriter 2]) (.start s.k fun _ => 0)).map
      fun t => (locateSemaphoreByName s.k.sems (buildSemName 2 'R'),
        locateSemaphoreByName s.k.sems (buildSemName 2 'W'), (openPipe s.k fun _ => 0).1,
        (t.pipe 2).any fun p => p.ended .rd && t.waiters p.canRead == [4]))
      = some (none, none, 2, true) := by decide +kernel
  obtain ⟨s, hs, hrun⟩ := Option.bind_eq_some_iff.mp hrun
  obtain ⟨t', ht, hv⟩ := Option.map_eq_some_iff.mp hrun
  simp only [Prod.mk.injEq] at hv
  obtain ⟨hr, hw, hid, hp⟩ := hv
  obtain ⟨p, hp, hv⟩ := (Option.any_eq_true _ _).mp hp
  obtain ⟨hend, hq⟩ := Bool.and_eq_true_iff.mp hv
  refine ⟨_, t', opened_start (sound_run (runs_of_runIf hs)) hr hw hid, ht, fun hrel => ?_⟩
  unfold Relieved at hrel
  rw [hp] at hrel
  have hnil : t'.waiters p.canRead = [] := hrel .rd hend
  rw [beq_iff_eq.mp hq] at hnil
  cases hnil

end Tp2So
