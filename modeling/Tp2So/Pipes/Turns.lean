import Tp2So.Pipes.Open
import Tp2So.Pipes.Traffic

/-!
# The calls keep the traffic flowing

* `flow_read`, `flow_readSleep`, `flow_write`, `flow_writeSleep`   the parts of the calls;
* `flow_readCall`, `flow_writeCall`   the calls keep `Flow`, if they leave the last byte, or the last
                       free cell, to a process that has been woken and has not run yet; `Turn` says
                       what they do to the view;
* `flow_attach`, `flow_schedule`, `flow_opened`   the other steps, and the start.
-/

set_option linter.unusedVariables false

namespace Tp2So

section
variable {id a b n w : Nat} {t : PipeSys} {v : PView} {p : Process} {q : Int} {bs : List UInt8}

/-! ## calls -/

theorem Flow.caller (h : Flow id a t v) (hact : t.k.sched.actor = some (b, p)) :
    v.asleep p.pid = false := by
  unfold PView.asleep
  rw [(h.shows.actor_slot hact).1]
  rfl

theorem side_idle {cont : Int → PipeCont} {q q' : Int} {s : Side}
    (h : (Function.update cont q .idle q').side = some s) : q' ≠ q ∧ (cont q').side = some s := by
  by_cases e : q' = q
  · rw [e, Function.update_self] at h
    exact absurd h (by simp [PipeCont.side])
  · rw [Function.update_of_ne e] at h
    exact ⟨e, h⟩

theorem inPipe_idle {cont : Int → PipeCont} (h : ∀ q, (cont q).InPipe a) (q q' : Int) :
    (Function.update cont q .idle q').InPipe a := by
  by_cases e : q' = q
  · rw [e, Function.update_self]
    trivial
  · rw [Function.update_of_ne e]
    exact h q'

/-- the state after the caller `q` has returned from a read of `bs` -/
def PipeSys.haveRead (t : PipeSys) (k : Kernel) (q : Int) (bs : List UInt8) : PipeSys :=
  { t with k, cont := Function.update t.cont q .idle, fetched := t.fetched ++ bs }

/-- the state after the caller `q` has returned from a write whose last bytes are `bs` -/
def PipeSys.haveWritten (t : PipeSys) (k : Kernel) (q : Int) (bs : List UInt8) : PipeSys :=
  { t with k, cont := Function.update t.cont q .idle, stored := t.stored ++ bs }

/-- the state after the caller `q` has gone to sleep as a reader -/
def PipeSys.readSleeps (t : PipeSys) (k : Kernel) (q : Int) (a n : Nat) : PipeSys :=
  { t with k, cont := Function.update t.cont q (.reading a n) }

/-- the state after the caller `q` has stored `bs` and gone to sleep with `rest` to store -/
def PipeSys.writeSleeps (t : PipeSys) (k : Kernel) (q : Int) (a : Nat) (bs rest : List UInt8)
    (w : Nat) : PipeSys :=
  { t with k, cont := Function.update t.cont q (.writing a rest w), stored := t.stored ++ bs }

/-- **Reading** what the ring holds, with the last byte left to a woken reader, if there is one. -/
theorem flow_read (h : Flow id a t v) (hact : t.k.sched.actor = some (b, p))
    (hcourt : ∀ q', q' ≠ p.pid → (t.cont q').side = some .rd → v.asleep q' = false →
      n < v.pipe.ring.length) :
    ∃ i k', i < pipeBufferSize ∧ (v.pipe.setIdxToRead i).ring = v.pipe.ring.drop n ∧
      readResume t.k a n = (.returned (v.pipe.ring.take n), k') ∧
      Flow id a (t.haveRead k' p.pid (v.pipe.ring.take n))
        (v.afterRead i (v.pipe.ring.take n != [])) := by
  have hawake := h.caller hact
  obtain ⟨i, k', hi, hring, hres, hshows⟩ := readResume_shows h.shows h.bounded n
  refine ⟨i, k', hi, hring, hres, ?_⟩
  have hcont : ∀ q s, ((t.haveRead k' p.pid (v.pipe.ring.take n)).cont q).side = some s →
      (t.cont q).side = some s := fun q s hs => (side_idle hs).2
  have hkeep : ∀ q s, q ∈ v.q s →
      ((t.haveRead k' p.pid (v.pipe.ring.take n)).cont q).side = some s := by
    intro q s hm
    have hne : q ≠ p.pid := fun e => h.not_queued hawake s (e ▸ hm)
    show (Function.update t.cont p.pid .idle q).side = some s
    rw [Function.update_of_ne hne]
    exact (h.queued s q hm).2
  have hstream : t.stored = t.fetched ++ v.pipe.ring.take n ++ v.pipe.ring.drop n := by
    rw [List.append_assoc, List.take_append_drop]
    exact h.stream
  have hwoke : ∀ s q, ((t.haveRead k' p.pid (v.pipe.ring.take n)).cont q).side = some s →
      v.asleep q = false → (v.pipe.setIdxToRead i).Ready s := by
    intro s q hs ha
    obtain ⟨hne, hs'⟩ := side_idle hs
    cases s with
    | rd =>
      show (v.pipe.setIdxToRead i).ring ≠ []
      rw [hring]
      intro hnil
      exact absurd (List.drop_eq_nil_iff.mp hnil) (by have := hcourt q hne hs' ha; omega)
    | wr =>
      have hlt : v.pipe.ring.length < pipeBufferSize - 1 := h.woke .wr q hs' ha
      show (v.pipe.setIdxToRead i).ring.length < _
      rw [hring, List.length_drop]
      omega
  have hin := inPipe_idle h.inPipe p.pid
  unfold PView.afterRead at hshows ⊢
  by_cases hc : ((v.pipe.ring.take n != []) && v.pipe.waitingToWrite) = true
  · rw [if_pos hc] at hshows ⊢
    obtain ⟨hgot, hw⟩ := Bool.and_eq_true_iff.mp hc
    have hlen : 0 < n ∧ v.pipe.ring ≠ [] := by
      have hne : v.pipe.ring.take n ≠ [] := by simpa using hgot
      exact ⟨Nat.pos_of_ne_zero fun e => hne (by rw [e]; rfl), fun e => hne (by rw [e]; exact List.take_nil)⟩
    refine h.post hcont hkeep hin hshows ⟨hi, h.bounded.2⟩ (hstream.trans ?_) (h.flag .wr hw) rfl
      (fun s hs => ?_) ?_ fun s q hs ha => ?_
    · exact congrArg (_ ++ ·) hring.symm
    · cases s with
      | rd => rfl
      | wr => exact absurd rfl hs
    · have hle := h.bounded.ring_length
      have hpos := List.length_pos_iff.mpr hlen.2
      show (v.pipe.setIdxToRead i).ring.length < _
      rw [hring, List.length_drop]
      omega
    · have hr := hwoke s q hs ha
      cases s <;> exact hr
  · rw [if_neg hc] at hshows ⊢
    refine h.quiet hcont hkeep hin hshows ⟨hi, h.bounded.2⟩ (hstream.trans ?_)
      (fun s hs => by cases s <;> exact hs) hwoke
    exact congrArg (_ ++ ·) hring.symm

/-- **A read of an empty ring** that may still be filled. -/
theorem flow_readSleep (h : Flow id a t v) (hact : t.k.sched.actor = some (b, p)) (h2 : 2 ≤ p.pid)
    (hr : v.pipe.ring = []) (hw : ¬ (v.pipe.writers = 0 ∧ v.pipe.expWriters = 0)) :
    ∃ k', readPipe t.k id n = (.suspended a, k') ∧
      Flow id a (t.readSleeps k' p.pid a n) (v.readSleep p.pid b) := by
  obtain ⟨k', hres, hshows⟩ := readPipe_sleeps h.shows h.bounded hr hw (h.zero .rd) hact h2 n
  refine ⟨k', hres, h.sleep (h.caller hact) ⟨h2, (h.shows.actor_slot hact).2.2⟩
    (fun q' hq' => Function.update_of_ne hq' ..) ?_ ?_ hshows h.bounded h.stream (fun s hs => ?_)
    fun s q' _ hs ha => ?_⟩
  · show (Function.update t.cont p.pid _ p.pid).side = _
    rw [Function.update_self]
    rfl
  · show (Function.update t.cont p.pid _ p.pid).InPipe a
    rw [Function.update_self]
    rfl
  · cases s with
    | rd => exact absurd rfl hs
    | wr => rfl
  · have hready := h.woke s q' hs ha
    cases s with
    | rd => exact absurd hr hready
    | wr => exact hready

/-- **Writing** what fits, with the last free cell left to a woken writer, if there is one. -/
theorem flow_write (h : Flow id a t v) (hact : t.k.sched.actor = some (b, p))
    (hfit : v.pipe.ring.length + bs.length ≤ pipeBufferSize - 1) (hbs : 0 < w → bs ≠ [])
    (hcourt : ∀ q', q' ≠ p.pid → (t.cont q').side = some .wr → v.asleep q' = false →
      v.pipe.ring.length + bs.length < pipeBufferSize - 1) :
    ∃ k', writeLoop a bs w t.k = (.returned (w + bs.length), k') ∧
      Flow id a (t.haveWritten k' p.pid bs)
        (v.afterWrite (Pipe.storeAll bs v.pipe) (decide (0 < w + bs.length))) := by
  have hawake := h.caller hact
  obtain ⟨k', hres, hshows⟩ := writeLoop_fits h.shows h.bounded hfit w
  refine ⟨k', hres, ?_⟩
  obtain ⟨hb', hring⟩ := Pipe.storeAll_spec bs v.pipe h.bounded hfit
  have hcont : ∀ q s, ((t.haveWritten k' p.pid bs).cont q).side = some s →
      (t.cont q).side = some s := fun q s hs => (side_idle hs).2
  have hkeep : ∀ q s, q ∈ v.q s → ((t.haveWritten k' p.pid bs).cont q).side = some s := by
    intro q s hm
    have hne : q ≠ p.pid := fun e => h.not_queued hawake s (e ▸ hm)
    show (Function.update t.cont p.pid .idle q).side = some s
    rw [Function.update_of_ne hne]
    exact (h.queued s q hm).2
  have hstream : t.stored ++ bs = t.fetched ++ (Pipe.storeAll bs v.pipe).ring := by
    rw [hring, ← List.append_assoc, h.stream]
  have hwaiting : ∀ s, (Pipe.storeAll bs v.pipe).waiting s = v.pipe.waiting s := by
    intro s
    rw [Pipe.storeAll_eq]
    cases s <;> rfl
  have hwoke : ∀ s q, ((t.haveWritten k' p.pid bs).cont q).side = some s →
      v.asleep q = false → (Pipe.storeAll bs v.pipe).Ready s := by
    intro s q hs ha
    obtain ⟨hne, hs'⟩ := side_idle hs
    cases s with
    | rd =>
      have hready : v.pipe.ring ≠ [] := h.woke .rd q hs' ha
      show (Pipe.storeAll bs v.pipe).ring ≠ []
      rw [hring]
      exact List.append_ne_nil_of_left_ne_nil hready bs
    | wr =>
      show (Pipe.storeAll bs v.pipe).ring.length < _
      rw [hring, List.length_append]
      exact hcourt q hne hs' ha
  have hin := inPipe_idle h.inPipe p.pid
  unfold PView.afterWrite at hshows ⊢
  by_cases hc : (decide (0 < w + bs.length) && (Pipe.storeAll bs v.pipe).waitingToRead) = true
  · rw [if_pos hc] at hshows ⊢
    obtain ⟨hany, hw⟩ := Bool.and_eq_true_iff.mp hc
    have hne : bs ≠ [] := by
      intro e
      rw [e] at hany
      exact hbs (of_decide_eq_true hany) e
    refine h.post hcont hkeep hin hshows hb' hstream (h.flag .rd ((hwaiting .rd).symm.trans hw)) rfl
      (fun s hs => ?_) ?_ fun s q hs ha => ?_
    · cases s with
      | rd => exact absurd rfl hs
      | wr => exact hwaiting .wr
    · show (Pipe.storeAll bs v.pipe).ring ≠ []
      rw [hring]
      exact List.append_ne_nil_of_right_ne_nil _ hne
    · have hr := hwoke s q hs ha
      cases s <;> exact hr
  · rw [if_neg hc] at hshows ⊢
    exact h.quiet hcont hkeep hin hshows hb' hstream
      (fun s hs => (hwaiting s).symm.trans hs) hwoke

/-- **A write that does not fit**: the ring is filled and the caller sleeps. -/
theorem flow_writeSleep (h : Flow id a t v) (hact : t.k.sched.actor = some (b, p)) (h2 : 2 ≤ p.pid)
    (hover : pipeBufferSize - 1 < v.pipe.ring.length + bs.length)
    (hcourt : ∀ q', q' ≠ p.pid → (t.cont q').side = some .wr → v.asleep q' = false → False) :
    let room := pipeBufferSize - 1 - v.pipe.ring.length
    ∃ k', writeLoop a bs w t.k = (.suspended a (bs.drop room) (w + room), k') ∧
      Flow id a (t.writeSleeps k' p.pid a (bs.take room) (bs.drop room) (w + room))
        (v.writeSleep (Pipe.storeAll (bs.take room) v.pipe) p.pid b) := by
  intro room
  obtain ⟨k', hres, hshows⟩ := writeLoop_sleeps h.shows h.bounded hover (h.zero .wr) hact h2 w
  have hle := h.bounded.ring_length
  have hlen : (bs.take room).length = room := by rw [List.length_take]; omega
  obtain ⟨hb', hring⟩ := Pipe.storeAll_spec (bs.take room) v.pipe h.bounded (by omega)
  refine ⟨k', hres, h.sleep (h.caller hact) ⟨h2, (h.shows.actor_slot hact).2.2⟩
    (fun q' hq' => Function.update_of_ne hq' ..) ?_ ?_ hshows hb' ?_ (fun s hs => ?_)
    fun s q' hne hs ha => ?_⟩
  · show (Function.update t.cont p.pid _ p.pid).side = _
    rw [Function.update_self]
    rfl
  · show (Function.update t.cont p.pid _ p.pid).InPipe a
    rw [Function.update_self]
    exact ⟨rfl, fun e => absurd (List.drop_eq_nil_iff.mp e) (by omega)⟩
  · show t.stored ++ bs.take room = t.fetched ++ (Pipe.storeAll (bs.take room) v.pipe).ring
    rw [hring, ← List.append_assoc, h.stream]
  · cases s with
    | rd =>
      show (Pipe.storeAll (bs.take room) v.pipe).waitingToRead = _
      rw [Pipe.storeAll_eq]
      rfl
    | wr => exact absurd rfl hs
  · cases s with
    | rd =>
      have hready : v.pipe.ring ≠ [] := h.woke .rd q' hs ha
      show (Pipe.storeAll (bs.take room) v.pipe).ring ≠ []
      rw [hring]
      exact List.append_ne_nil_of_left_ne_nil hready _
    | wr => exact (hcourt q' hne hs ha).elim

/-! ## what a call can do -/

/-- the caller of a read, or the reader that is resumed, and the bytes it asks for -/
def PipeOp.asks (o : PipeOp) (t : PipeSys) : Option (Int × Nat) :=
  match o, t.k.sched.actor with
  | .read n, some (_, p) => if t.cont p.pid = .idle then some (p.pid, n) else none
  | .resume, some (_, p) =>
    match t.cont p.pid with
    | .reading _ n => some (p.pid, n)
    | _ => none
  | _, _ => none

/-- the caller of a write, or the writer that is resumed, and the bytes it has to store -/
def PipeOp.offers (o : PipeOp) (t : PipeSys) : Option (Int × List UInt8) :=
  match o, t.k.sched.actor with
  | .write data, some (_, p) =>
    if t.cont p.pid = .idle then some (p.pid, data.take (intBytes data.length)) else none
  | .resume, some (_, p) =>
    match t.cont p.pid with
    | .writing _ rest _ => some (p.pid, rest)
    | _ => none
  | _, _ => none

theorem readCall_some {o : PipeOp} {r : ReadResult} {k : Kernel}
    (h : readCall id o t = some (q, n, r, k)) :
    o.asks t = some (q, n) ∧ ∃ b p, t.k.sched.actor = some (b, p) ∧ p.pid = q ∧
      ((o = .read n ∧ t.cont q = .idle ∧ readPipe t.k id n = (r, k)) ∨
        (o = .resume ∧ ∃ c, t.cont q = .reading c n ∧ readResume t.k c n = (r, k))) := by
  unfold readCall at h
  split at h
  · rename_i m b p hact
    by_cases hi : t.cont p.pid = .idle
    · rw [if_pos hi] at h
      simp only [Option.some.injEq, Prod.mk.injEq] at h
      obtain ⟨rfl, rfl, hr⟩ := h
      refine ⟨?_, b, p, hact, rfl, Or.inl ⟨rfl, hi, hr⟩⟩
      unfold PipeOp.asks
      simp only [hact]
      exact if_pos hi
    · rw [if_neg hi] at h
      exact absurd h (by simp)
  · rename_i b p hact
    split at h
    · rename_i c m hc
      simp only [Option.some.injEq, Prod.mk.injEq] at h
      obtain ⟨rfl, rfl, hr⟩ := h
      refine ⟨?_, b, p, hact, rfl, Or.inr ⟨rfl, c, hc, hr⟩⟩
      unfold PipeOp.asks
      simp only [hact, hc]
    · exact absurd h (by simp)
  · exact absurd h (by simp)

theorem writeCall_some {o : PipeOp} {r : WriteResult} {k : Kernel}
    (h : writeCall id o t = some (q, bs, w, r, k)) :
    o.offers t = some (q, bs) ∧ ∃ b p, t.k.sched.actor = some (b, p) ∧ p.pid = q ∧
      ((∃ data, o = .write data ∧ t.cont q = .idle ∧ bs = data.take (intBytes data.length) ∧ w = 0 ∧
          writePipe t.k id data = (r, k)) ∨
        (o = .resume ∧ ∃ c, t.cont q = .writing c bs w ∧ writeResume t.k c bs w = (r, k))) := by
  unfold writeCall at h
  split at h
  · rename_i data b p hact
    by_cases hi : t.cont p.pid = .idle
    · rw [if_pos hi] at h
      simp only [Option.some.injEq, Prod.mk.injEq] at h
      obtain ⟨rfl, rfl, rfl, hr⟩ := h
      refine ⟨?_, b, p, hact, rfl, Or.inl ⟨data, rfl, hi, rfl, rfl, hr⟩⟩
      unfold PipeOp.offers
      simp only [hact]
      exact if_pos hi
    · rw [if_neg hi] at h
      exact absurd h (by simp)
  · rename_i b p hact
    split at h
    · rename_i c rest w' hc
      simp only [Option.some.injEq, Prod.mk.injEq] at h
      obtain ⟨rfl, rfl, rfl, hr⟩ := h
      refine ⟨?_, b, p, hact, rfl, Or.inr ⟨rfl, c, hc, hr⟩⟩
      unfold PipeOp.offers
      simp only [hact, hc]
    · exact absurd h (by simp)
  · exact absurd h (by simp)

/-- **What the users of a pipe see of one call.** -/
inductive Turn (v : PView) : PView → Prop
  | still : Turn v v
  | read (n i : Nat) (hring : (v.pipe.setIdxToRead i).ring = v.pipe.ring.drop n) :
    Turn v (v.afterRead i (v.pipe.ring.take n != []))
  | readSleep (q : Int) (b : Nat) (hring : v.pipe.ring = []) : Turn v (v.readSleep q b)
  | write (bs : List UInt8) (any : Bool) (hring : (Pipe.storeAll bs v.pipe).ring = v.pipe.ring ++ bs)
    (hany : any = decide (bs ≠ [])) : Turn v (v.afterWrite (Pipe.storeAll bs v.pipe) any)
  | writeSleep (bs : List UInt8) (q : Int) (b : Nat)
    (hring : (Pipe.storeAll bs v.pipe).ring = v.pipe.ring ++ bs)
    (hfull : v.pipe.ring.length + bs.length = pipeBufferSize - 1) :
    Turn v (v.writeSleep (Pipe.storeAll bs v.pipe) q b)

/-- **A read call, or the end of one.** -/
theorem flow_readCall (h : Flow id a t v) {o : PipeOp} {r : ReadResult} {k : Kernel}
    (hc : readCall id o t = some (q, n, r, k)) (h2 : 2 ≤ q)
    (hcourt : ∀ q', q' ≠ q → (t.cont q').side = some .rd → v.asleep q' = false →
      n < v.pipe.ring.length) :
    ∃ v', Flow id a (settleRead t (q, n, r, k)) v' ∧ Turn v v' ∧
      (r = .returned [] → 0 < n →
        v.pipe.ring = [] ∧ v.pipe.writers = 0 ∧ v.pipe.expWriters = 0) := by
  obtain ⟨-, b, p, hact, rfl, hcase⟩ := readCall_some hc
  -- a read of a ring that is not empty, by a new caller or a resumed one
  have hsome : v.pipe.ring ≠ [] → readResume t.k a n = (r, k) →
      ∃ v', Flow id a (settleRead t (p.pid, n, r, k)) v' ∧ Turn v v' ∧
        (r = .returned [] → 0 < n →
          v.pipe.ring = [] ∧ v.pipe.writers = 0 ∧ v.pipe.expWriters = 0) := by
    intro hne hres
    obtain ⟨i, k', -, hring, hres', hflow⟩ := flow_read h hact hcourt
    obtain ⟨rfl, rfl⟩ := Prod.mk.inj (hres.symm.trans hres')
    refine ⟨_, hflow, .read n i hring, fun hr hn => ?_⟩
    have hnil : v.pipe.ring.take n = [] := ReadResult.returned.inj hr
    rcases List.take_eq_nil_iff.mp hnil with h0 | h0
    · omega
    · exact absurd h0 hne
  rcases hcase with ⟨-, hidle, hres⟩ | ⟨-, c, hcont, hres⟩
  · by_cases hne : v.pipe.ring = []
    · by_cases hw : v.pipe.writers = 0 ∧ v.pipe.expWriters = 0
      · rw [readPipe_eof h.shows h.bounded hne hw] at hres
        obtain ⟨rfl, rfl⟩ := Prod.mk.inj hres
        have hsame : settleRead t (p.pid, n, .returned [], t.k) = t := by
          show { t with k := t.k, cont := Function.update t.cont p.pid .idle,
                        fetched := t.fetched ++ [] } = t
          rw [← hidle, Function.update_eq_self, List.append_nil]
        rw [hsame]
        exact ⟨v, h, .still, fun _ _ => ⟨hne, hw⟩⟩
      · obtain ⟨k', hres', hflow⟩ := flow_readSleep (n := n) h hact h2 hne hw
        obtain ⟨rfl, rfl⟩ := Prod.mk.inj (hres.symm.trans hres')
        exact ⟨_, hflow, .readSleep p.pid b hne, fun hr => by cases hr⟩
    · rw [readPipe_some h.shows h.bounded hne] at hres
      exact hsome hne hres
  · have hin := h.inPipe p.pid
    rw [hcont] at hin
    obtain rfl : c = a := hin
    have hside : (t.cont p.pid).side = some .rd := by rw [hcont]; rfl
    exact hsome (h.woke .rd p.pid hside (h.caller hact)) hres

/-- a write call is the loop, also from its middle -/
theorem writeCall_loop (h : Flow id a t v) {o : PipeOp} {r : WriteResult} {k : Kernel}
    (hc : writeCall id o t = some (q, bs, w, r, k)) :
    ∃ b p, t.k.sched.actor = some (b, p) ∧ p.pid = q ∧ writeLoop a bs w t.k = (r, k) ∧
      (0 < w → bs ≠ []) := by
  obtain ⟨-, b, p, hact, rfl, hcase⟩ := writeCall_some hc
  refine ⟨b, p, hact, rfl, ?_⟩
  rcases hcase with ⟨data, -, -, rfl, rfl, hres⟩ | ⟨-, c, hcont, hres⟩
  · rw [writePipe_eq h.shows] at hres
    exact ⟨hres, fun h0 => absurd h0 (Nat.lt_irrefl 0)⟩
  · have hin := h.inPipe p.pid
    rw [hcont] at hin
    obtain ⟨rfl, hne⟩ : c = a ∧ bs ≠ [] := hin
    have hside : (t.cont p.pid).side = some .wr := by rw [hcont]; rfl
    have hroom := h.woke .wr p.pid hside (h.caller hact)
    rw [writeResume_eq h.shows h.bounded hroom] at hres
    exact ⟨hres, fun _ => hne⟩

/-- **A write call, or the end of one.** -/
theorem flow_writeCall (h : Flow id a t v) {o : PipeOp} {r : WriteResult} {k : Kernel}
    (hc : writeCall id o t = some (q, bs, w, r, k)) (h2 : 2 ≤ q)
    (hcourt : ∀ q', q' ≠ q → (t.cont q').side = some .wr → v.asleep q' = false →
      v.pipe.ring.length + bs.length < pipeBufferSize - 1) :
    ∃ v', Flow id a (settleWrite t (q, bs, w, r, k)) v' ∧ Turn v v' ∧
      if v.pipe.ring.length + bs.length ≤ pipeBufferSize - 1 then v'.q .wr = v.q .wr
      else ∃ p' b, v' = v.writeSleep p' q b := by
  obtain ⟨b, p, hact, rfl, hloop, hbs⟩ := writeCall_loop h hc
  by_cases hfit : v.pipe.ring.length + bs.length ≤ pipeBufferSize - 1
  · obtain ⟨k', hres', hflow⟩ := flow_write h hact hfit hbs hcourt
    obtain ⟨rfl, rfl⟩ := Prod.mk.inj (hloop.symm.trans hres')
    have hsettle : settleWrite t (p.pid, bs, w, .returned (w + bs.length), k)
        = t.haveWritten k p.pid bs := by
      show PipeSys.haveWritten t k p.pid (bs.take (w + bs.length - w)) = _
      rw [Nat.add_sub_cancel_left, List.take_length]
    have hany : decide (0 < w + bs.length) = decide (bs ≠ []) := by
      refine decide_eq_decide.mpr ⟨fun h0 => ?_, fun hne => ?_⟩
      · by_cases hw : 0 < w
        · exact hbs hw
        · exact List.ne_nil_of_length_pos (by omega)
      · have := List.length_pos_iff.mpr hne
        omega
    rw [hsettle]
    refine ⟨_, hflow, .write bs _ (Pipe.storeAll_spec bs v.pipe h.bounded hfit).2 hany, ?_⟩
    rw [if_pos hfit]
    unfold PView.afterWrite
    split
    · unfold PView.post
      split <;> rfl
    · rfl
  · obtain ⟨k', hres', hflow⟩ := flow_writeSleep (w := w) h hact h2 (Nat.lt_of_not_le hfit)
      fun q' hne hs ha => by have := hcourt q' hne hs ha; omega
    obtain ⟨rfl, rfl⟩ := Prod.mk.inj (hloop.symm.trans hres')
    have hle := h.bounded.ring_length
    have hlen : (bs.take (pipeBufferSize - 1 - v.pipe.ring.length)).length
        = pipeBufferSize - 1 - v.pipe.ring.length := by rw [List.length_take]; omega
    have hsettle : settleWrite t (p.pid, bs, w, .suspended a
        (bs.drop (pipeBufferSize - 1 - v.pipe.ring.length))
        (w + (pipeBufferSize - 1 - v.pipe.ring.length)), k)
        = t.writeSleeps k p.pid a (bs.take (pipeBufferSize - 1 - v.pipe.ring.length))
          (bs.drop (pipeBufferSize - 1 - v.pipe.ring.length))
          (w + (pipeBufferSize - 1 - v.pipe.ring.length)) := by
      unfold settleWrite PipeSys.writeSleeps
      simp only [Nat.add_sub_cancel_left]
    rw [hsettle]
    refine ⟨_, hflow, .writeSleep _ p.pid b
      (Pipe.storeAll_spec _ v.pipe h.bounded (by omega)).2 (by omega), ?_⟩
    rw [if_neg hfit]
    exact ⟨_, b, rfl⟩

/-! ## the other steps, and the start -/

theorem side_joined (cont : Int → PipeCont) (pid q : Int) :
    (joined cont pid q).side = (cont q).side := by
  unfold joined
  split
  · rename_i h
    by_cases e : q = pid
    · rw [e, Function.update_self, h]
      rfl
    · rw [Function.update_of_ne e]
  · rfl

theorem inPipe_joined {cont : Int → PipeCont} (h : ∀ q, (cont q).InPipe a) (pid q : Int) :
    (joined cont pid q).InPipe a := by
  unfold joined
  split
  · exact inPipe_idle h pid q
  · exact h q

/-- what `attachReader` and `attachWriter` change of a pipe -/
def Pipe.SameRing (p p' : Pipe) : Prop :=
  p'.id = p.id ∧ (∀ s, p'.sem s = p.sem s) ∧ p'.ring = p.ring ∧ (p.Bounded → p'.Bounded) ∧
    ∀ s, p'.waiting s = p.waiting s

theorem flow_attach (h : Flow id a t v) (f : Pipe → Pipe) (hf : v.pipe.SameRing (f v.pipe)) (q : Int) :
    Flow id a { t with k := t.k.modPipe a f, cont := joined t.cont q } (v.setPipe (f v.pipe)) := by
  obtain ⟨hid, hsem, hring, hb, hwait⟩ := hf
  refine h.quiet (fun q' s hs => (side_joined t.cont q q').symm.trans hs)
    (fun q' s hm => (side_joined t.cont q q').trans (h.queued s q' hm).2)
    (inPipe_joined h.inPipe q) (shows_modPipe h.shows hid hsem) (hb h.bounded) ?_
    (fun s hs => (hwait s).symm.trans hs) fun s q' hs ha => ?_
  · show t.stored = t.fetched ++ (f v.pipe).ring
    rw [hring]
    exact h.stream
  · have hready := h.woke s q' ((side_joined t.cont q q').symm.trans hs) ha
    cases s <;> unfold Pipe.Ready at hready ⊢ <;> rw [hring] <;> exact hready

theorem flow_schedule {fuel rsp : Nat} {r : Nat × Sched} (h : Flow id a t v)
    (hs : schedule fuel rsp t.k.sched = some r) :
    Flow id a { t with k := { t.k with sched := r.2 } } v :=
  { h with shows := shows_schedule h.shows hs }

/-- a call may go ahead: its caller can be blocked, and whoever has been woken on its side inside
another call will still find what it was woken for -/
structure PipeOp.Allowed (o : PipeOp) (t : PipeSys) (v : PView) : Prop where
  asks : ∀ q n, o.asks t = some (q, n) → 2 ≤ q ∧ ∀ q', q' ≠ q → (t.cont q').side = some .rd →
    v.asleep q' = false → n < v.pipe.ring.length
  offers : ∀ q bs, o.offers t = some (q, bs) → 2 ≤ q ∧ ∀ q', q' ≠ q → (t.cont q').side = some .wr →
    v.asleep q' = false → v.pipe.ring.length + bs.length < pipeBufferSize - 1

/-- everything but the detaching of an end -/
def PipeOp.transfers : PipeOp → Bool
  | .detachReader _ => false
  | .detachWriter _ => false
  | _ => true

theorem execCall_some {o : PipeOp} {t' : PipeSys} (he : execCall id o t = some t') :
    (∃ c, readCall id o t = some c ∧ t' = settleRead t c) ∨
      ∃ c, writeCall id o t = some c ∧ t' = settleWrite t c := by
  unfold execCall at he
  cases hr : readCall id o t with
  | some c =>
    rw [hr] at he
    exact Or.inl ⟨c, rfl, (Option.some.inj he).symm⟩
  | none =>
    rw [hr] at he
    cases hw : writeCall id o t with
    | some c =>
      rw [hw] at he
      exact Or.inr ⟨c, rfl, (Option.some.inj he).symm⟩
    | none =>
      rw [hw] at he
      exact absurd he (by simp)

theorem flow_call {o : PipeOp} {t' : PipeSys} (h : Flow id a t v) (ha : o.Allowed t v)
    (he : execCall id o t = some t') : ∃ v', Flow id a t' v' ∧ Turn v v' := by
  rcases execCall_some he with ⟨⟨q, n, r, k⟩, hc, rfl⟩ | ⟨⟨q, bs, w, r, k⟩, hc, rfl⟩
  · obtain ⟨h2, hcourt⟩ := ha.asks q n (readCall_some hc).1
    obtain ⟨v', hv', hturn, -⟩ := flow_readCall h hc h2 hcourt
    exact ⟨v', hv', hturn⟩
  · obtain ⟨h2, hcourt⟩ := ha.offers q bs (writeCall_some hc).1
    obtain ⟨v', hv', hturn, -⟩ := flow_writeCall h hc h2 hcourt
    exact ⟨v', hv', hturn⟩

/-- the counters after `attachReader` -/
def Pipe.addReader (p : Pipe) : Pipe :=
  { p with readers := inc16 p.readers, attached := inc8 p.attached, expReaders := p.expReaders - 1 }

/-- the counters after `attachWriter` -/
def Pipe.addWriter (p : Pipe) : Pipe :=
  { p with writers := inc16 p.writers, attached := inc8 p.attached, expWriters := p.expWriters - 1 }

theorem attachReader_eq (h : Shows id a t.k v) :
    (attachReader t.k id).2 = t.k.modPipe a Pipe.addReader := by
  unfold attachReader
  rw [h.valid]
  rfl

theorem attachWriter_eq (h : Shows id a t.k v) :
    (attachWriter t.k id).2 = t.k.modPipe a Pipe.addWriter := by
  unfold attachWriter
  rw [h.valid]
  rfl

theorem sameRing_addReader (p : Pipe) : p.SameRing p.addReader :=
  ⟨rfl, fun s => by cases s <;> rfl, rfl, fun h => h, fun s => by cases s <;> rfl⟩

theorem sameRing_addWriter (p : Pipe) : p.SameRing p.addWriter :=
  ⟨rfl, fun s => by cases s <;> rfl, rfl, fun h => h, fun s => by cases s <;> rfl⟩

/-- **One step.**  Transfers that are allowed keep the traffic flowing. -/
theorem flow_step {o : PipeOp} {t' : PipeSys} (h : Flow id a t v) (ho : o.transfers = true)
    (ha : o.Allowed t v) (he : execPipe id o t = some t') :
    ∃ v', Flow id a t' v' ∧ (Turn v v' ∨ ∃ p', v.pipe.SameRing p' ∧ v' = v.setPipe p') := by
  have hcall : execCall id o t = some t' → ∃ v', Flow id a t' v' ∧
      (Turn v v' ∨ ∃ p', v.pipe.SameRing p' ∧ v' = v.setPipe p') := fun he => by
    obtain ⟨v', hv', hturn⟩ := flow_call h ha he
    exact ⟨v', hv', Or.inl hturn⟩
  cases o with
  | attachReader pid =>
    obtain rfl := Option.some.inj he
    have hsame := sameRing_addReader v.pipe
    rw [attachReader_eq h.shows]
    exact ⟨_, flow_attach h _ hsame pid, Or.inr ⟨_, hsame, rfl⟩⟩
  | attachWriter pid =>
    obtain rfl := Option.some.inj he
    have hsame := sameRing_addWriter v.pipe
    rw [attachWriter_eq h.shows]
    exact ⟨_, flow_attach h _ hsame pid, Or.inr ⟨_, hsame, rfl⟩⟩
  | read n => exact hcall he
  | write data => exact hcall he
  | resume => exact hcall he
  | detachReader pid => cases ho
  | detachWriter pid => cases ho
  | schedule fuel rsp =>
    obtain ⟨r, hr, rfl⟩ := Option.map_eq_some_iff.mp he
    exact ⟨v, flow_schedule h hr, Or.inl .still⟩

/-- the state just after `openPipe` has returned `id`, in a sound kernel where nobody else uses the
two semaphores -/
def PipeSys.Opened (id : Nat) (t : PipeSys) : Prop :=
  ∃ k buffer, k.Sound ∧ locateSemaphoreByName k.sems (buildSemName id 'R') = none ∧
    locateSemaphoreByName k.sems (buildSemName id 'W') = none ∧
    openPipe k buffer = ((id : Int), t.k) ∧ (∀ q, t.cont q = .away) ∧ t.stored = [] ∧ t.fetched = []

/-- nobody is attached to the pipe that `openPipe` gives -/
def PipeSys.start (k : Kernel) (buffer : Nat → UInt8) : PipeSys :=
  ⟨(openPipe k buffer).2, fun _ => .away, [], []⟩

theorem opened_start {k : Kernel} {buffer : Nat → UInt8} (hk : k.Sound)
    (hr : locateSemaphoreByName k.sems (buildSemName id 'R') = none)
    (hw : locateSemaphoreByName k.sems (buildSemName id 'W') = none)
    (hid : (openPipe k buffer).1 = (id : Int)) : (PipeSys.start k buffer).Opened id :=
  ⟨k, buffer, hk, hr, hw, Prod.ext hid rfl, fun _ => rfl, rfl, rfl⟩

theorem flow_opened (h : t.Opened id) : ∃ k buffer, Flow id k.pipes.next t (.fresh k id buffer) := by
  obtain ⟨k, buffer, hk, hr, hw, ho, hc, hs, hf⟩ := h
  have h0 : 0 < pipeBufferSize := by decide
  refine ⟨k, buffer, openPipe_shows hk hr hw ho, ⟨h0, h0⟩, fun _ => rfl, ?_,
    fun s q hq => absurd hq List.not_mem_nil, fun s q hs => ?_, fun s => List.nodup_nil,
    fun s hf => ?_, fun s q hs => ?_, fun q => ?_, fun q s hs => ?_⟩
  · have hring : (PView.fresh k id buffer).pipe.ring = [] :=
      (ringList_eq_nil h0 buffer).mpr rfl
    rw [hs, hf, hring]
    rfl
  · rw [hc q] at hs
    cases hs
  · cases s <;> cases hf
  · rw [hc q] at hs
    cases hs
  · rw [hc q]
    trivial
  · rw [hc q] at hs
    cases hs

end

end Tp2So
