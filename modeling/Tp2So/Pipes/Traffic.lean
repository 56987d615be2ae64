import Tp2So.Pipes.Transfer

/-!
# Many readers and writers on one pipe

A run of attached processes that call `readPipe` and `writePipe` and are suspended at their `semWait`
only.  `stored` and `fetched` are the bytes that have gone in and come out, in order.

* `PipeCont`           where a process is: not attached, between two calls, inside one, detached;
* `execPipe`           the steps, with `readCall` and `writeCall` for the calls and their resumption;
* `Flow`               the invariant: the ring holds what is stored and not fetched; whoever has been
                       woken will find bytes, or room;
* `Flow.post`, `Flow.quiet`, `Flow.sleep`   the three ways in which a call ends.
-/

set_option linter.unusedVariables false

namespace Tp2So

inductive PipeCont where
  | away
  | idle
  | reading (pipe bytes : Nat)
  | writing (pipe : Nat) (rest : List UInt8) (written : Nat)
  | gone
  deriving DecidableEq

/-- the side on which a process is inside a call -/
def PipeCont.side : PipeCont → Option Side
  | .reading _ _ => some .rd
  | .writing _ _ _ => some .wr
  | _ => none

structure PipeSys where
  k : Kernel
  cont : Int → PipeCont
  stored : List UInt8
  fetched : List UInt8

inductive PipeOp where
  | attachReader (pid : Int)
  | attachWriter (pid : Int)
  | read (bytes : Nat)
  | write (data : List UInt8)
  | resume
  | detachReader (pid : Int)
  | detachWriter (pid : Int)
  | schedule (fuel rsp : Nat)

/-! ## steps -/

/-- the call of `readPipe`, or the end of one, that the step makes: the caller, the number of bytes
asked for, and what comes of it -/
def readCall (id : Nat) (o : PipeOp) (t : PipeSys) : Option (Int × Nat × ReadResult × Kernel) :=
  match o, t.k.sched.actor with
  | .read n, some (_, p) =>
    if t.cont p.pid = .idle then some (p.pid, n, readPipe t.k id n) else none
  | .resume, some (_, p) =>
    match t.cont p.pid with
    | .reading a n => some (p.pid, n, readResume t.k a n)
    | _ => none
  | _, _ => none

/-- the same for `writePipe`: the caller, the bytes still to store, the number already stored -/
def writeCall (id : Nat) (o : PipeOp) (t : PipeSys) :
    Option (Int × List UInt8 × Nat × WriteResult × Kernel) :=
  match o, t.k.sched.actor with
  | .write data, some (_, p) =>
    if t.cont p.pid = .idle then
      some (p.pid, data.take (intBytes data.length), 0, writePipe t.k id data)
    else none
  | .resume, some (_, p) =>
    match t.cont p.pid with
    | .writing a rest w => some (p.pid, rest, w, writeResume t.k a rest w)
    | _ => none
  | _, _ => none

def settleRead (t : PipeSys) : Int × Nat × ReadResult × Kernel → PipeSys
  | (q, _, .returned bs, k) =>
    { t with k, cont := Function.update t.cont q .idle, fetched := t.fetched ++ bs }
  | (q, n, .suspended a, k) => { t with k, cont := Function.update t.cont q (.reading a n) }
  | (q, _, .error, k) => { t with k, cont := Function.update t.cont q .idle }

def settleWrite (t : PipeSys) : Int × List UInt8 × Nat × WriteResult × Kernel → PipeSys
  | (q, bs, w, .returned w', k) =>
    { t with k, cont := Function.update t.cont q .idle, stored := t.stored ++ bs.take (w' - w) }
  | (q, bs, w, .suspended a rest w', k) =>
    { t with k, cont := Function.update t.cont q (.writing a rest w')
             stored := t.stored ++ bs.take (w' - w) }
  | (q, _, _, .error, k) => { t with k, cont := Function.update t.cont q .idle }

/-- an attached process is between two calls -/
def joined (cont : Int → PipeCont) (pid : Int) : Int → PipeCont :=
  if cont pid = .away then Function.update cont pid .idle else cont

/-- a call, or the end of one -/
def execCall (id : Nat) (o : PipeOp) (t : PipeSys) : Option PipeSys :=
  match readCall id o t, writeCall id o t with
  | some c, _ => some (settleRead t c)
  | none, some c => some (settleWrite t c)
  | none, none => none

def execPipe (id : Nat) (o : PipeOp) (t : PipeSys) : Option PipeSys :=
  match o with
  | .attachReader pid =>
    some { t with k := (attachReader t.k id).2, cont := joined t.cont pid }
  | .attachWriter pid =>
    some { t with k := (attachWriter t.k id).2, cont := joined t.cont pid }
  | .detachReader pid =>
    some { t with k := (closePipe (detachReader t.k id pid) id).2
                  cont := Function.update t.cont pid .gone }
  | .detachWriter pid =>
    some { t with k := (closePipe (detachWriter t.k id pid) id).2
                  cont := Function.update t.cont pid .gone }
  | .schedule fuel rsp =>
    (schedule fuel rsp t.k.sched).map fun r => { t with k := { t.k with sched := r.2 } }
  | o => execCall id o t

/-- the read that the step completes: the number of bytes asked for, and the bytes returned -/
def readOutcome (id : Nat) (o : PipeOp) (t : PipeSys) : Option (Nat × List UInt8) :=
  match readCall id o t with
  | some (_, n, .returned bs, _) => some (n, bs)
  | _ => none

/-! ## the invariant -/

/-- a process on this side can go on -/
def Pipe.Ready (p : Pipe) : Side → Prop
  | .rd => p.ring ≠ []
  | .wr => p.ring.length < pipeBufferSize - 1

def Pipe.waiting (p : Pipe) : Side → Bool
  | .rd => p.waitingToRead
  | .wr => p.waitingToWrite

/-- the process with this pid is BLOCKED -/
def PView.asleep (v : PView) (q : Int) : Bool := (v.slot q).any Slot.blocked

/-- a process inside a call is in this pipe, and a writer has something left to store -/
def PipeCont.InPipe (a : Nat) : PipeCont → Prop
  | .reading c _ => c = a
  | .writing c rest _ => c = a ∧ rest ≠ []
  | _ => True

structure Flow (id a : Nat) (t : PipeSys) (v : PView) : Prop where
  shows : Shows id a t.k v
  bounded : v.pipe.Bounded
  zero : ∀ s, v.val s = 0
  stream : t.stored = t.fetched ++ v.pipe.ring
  queued : ∀ s, ∀ q ∈ v.q s, v.asleep q = true ∧ (t.cont q).side = some s
  listed : ∀ s q, (t.cont q).side = some s → v.asleep q = true → q ∈ v.q s
  nodup : ∀ s, (v.q s).Nodup
  flag : ∀ s, v.pipe.waiting s = true → v.q s ≠ []
  woke : ∀ s q, (t.cont q).side = some s → v.asleep q = false → v.pipe.Ready s
  inPipe : ∀ q, (t.cont q).InPipe a
  range : ∀ q s, (t.cont q).side = some s → 2 ≤ q ∧ q < maxProcesses

section
variable {id a b n w : Nat} {t : PipeSys} {v : PView} {p : Process} {q : Int} {bs : List UInt8}

theorem Flow.not_queued (h : Flow id a t v) (hq : v.asleep q = false) (s : Side) : q ∉ v.q s := by
  intro hm
  rw [(h.queued s q hm).1] at hq
  exact absurd hq (by simp)

theorem asleep_wake {v : PView} {q₀ q : Int} :
    PView.asleep { v with slot := Function.update v.slot q₀ ((v.slot q₀).map Sched.wakeSlot) } q
      = if q = q₀ then false else v.asleep q := by
  unfold PView.asleep
  simp only
  by_cases e : q = q₀
  · subst e
    rw [Function.update_self, if_pos rfl]
    cases v.slot q <;> rfl
  · rw [Function.update_of_ne e, if_neg e]

theorem asleep_sleep {v : PView} {s : Side} {q q' : Int} {p' : Pipe} :
    ((v.setPipe p').sleep s q b).asleep q' = if q' = q then true else v.asleep q' := by
  unfold PView.asleep PView.sleep
  simp only
  by_cases e : q' = q
  · subst e
    rw [Function.update_self, if_pos rfl]
    rfl
  · rw [Function.update_of_ne e, if_neg e]
    rfl

/-- **A post whose queue is not empty**: the head of the queue is woken.  The facts about the pipe
itself are taken after the change `p` that goes with the post. -/
theorem Flow.post (h : Flow id a t v) {t' : PipeSys} {p' : Pipe} {s : Side}
    (hcont : ∀ q s, (t'.cont q).side = some s → (t.cont q).side = some s)
    (hkeep : ∀ q s, q ∈ v.q s → (t'.cont q).side = some s)
    (hin : ∀ q, (t'.cont q).InPipe a)
    (hshows : Shows id a t'.k ((v.setPipe p').post s)) (hb : p'.Bounded)
    (hstream : t'.stored = t'.fetched ++ p'.ring) (hne : v.q s ≠ [])
    (hflag : p'.waiting s = false) (hflag' : ∀ s', s' ≠ s → p'.waiting s' = v.pipe.waiting s')
    (hready : p'.Ready s)
    (hwoke : ∀ s' q, (t'.cont q).side = some s' → v.asleep q = false → p'.Ready s') :
    Flow id a t' ((v.setPipe p').post s) := by
  obtain ⟨q₀, rest, hq⟩ := List.exists_cons_of_ne_nil hne
  have hpost := PView.post_cons (v := v.setPipe p') (s := s) hq
  rw [hpost] at hshows ⊢
  have hq₀ := h.queued s q₀ (by rw [hq]; exact List.mem_cons_self)
  have hnd := h.nodup s
  rw [hq] at hnd
  obtain ⟨hnot, hnd⟩ := List.nodup_cons.mp hnd
  refine ⟨hshows, hb, h.zero, hstream, fun s' q hm => ?_, fun s' q hs ha => ?_, fun s' => ?_,
    fun s' hf => ?_, fun s' q hs ha => ?_, hin, fun q s' hs => h.range q s' (hcont q s' hs)⟩
  · have hm' : q ∈ v.q s' ∧ q ≠ q₀ := by
      by_cases e : s' = s
      · subst e
        simp only [Function.update_self] at hm
        exact ⟨by rw [hq]; exact List.mem_cons_of_mem _ hm, fun e => hnot (e ▸ hm)⟩
      · simp only [Function.update_of_ne e] at hm
        refine ⟨hm, fun e' => e ?_⟩
        rw [e'] at hm
        exact Option.some.inj ((h.queued s' q₀ hm).2.symm.trans hq₀.2)
    have ha : PView.asleep { v.setPipe p' with
        q := Function.update v.q s rest
        slot := Function.update v.slot q₀ ((v.slot q₀).map Sched.wakeSlot) } q = true := by
      refine (asleep_wake (v := v)).trans ?_
      rw [if_neg hm'.2]
      exact (h.queued s' q hm'.1).1
    exact ⟨ha, hkeep q s' hm'.1⟩
  · have ha' : (if q = q₀ then false else v.asleep q) = true := (asleep_wake (v := v)).symm.trans ha
    by_cases e : q = q₀
    · rw [if_pos e] at ha'
      exact absurd ha' (by simp)
    · rw [if_neg e] at ha'
      have hm := h.listed s' q (hcont q s' hs) ha'
      by_cases es : s' = s
      · subst es
        rw [hq] at hm
        simp only [Function.update_self]
        exact (List.mem_cons.mp hm).resolve_left e
      · simp only [Function.update_of_ne es]
        exact hm
  · by_cases e : s' = s
    · subst e
      simp only [Function.update_self]
      exact hnd
    · simp only [Function.update_of_ne e]
      exact h.nodup s'
  · have e : s' ≠ s := fun e => by
      rw [e] at hf
      rw [show PView.pipe _ = p' from rfl, hflag] at hf
      exact absurd hf (by simp)
    simp only [Function.update_of_ne e]
    exact h.flag s' ((hflag' s' e).symm.trans hf)
  · have ha' : (if q = q₀ then false else v.asleep q) = false := (asleep_wake (v := v)).symm.trans ha
    by_cases e : q = q₀
    · subst e
      have hss := Option.some.inj (hq₀.2.symm.trans (hcont q s' hs))
      rw [← hss]
      exact hready
    · rw [if_neg e] at ha'
      exact hwoke s' q hs ha'

theorem Flow.quiet (h : Flow id a t v) {t' : PipeSys} {p' : Pipe}
    (hcont : ∀ q s, (t'.cont q).side = some s → (t.cont q).side = some s)
    (hkeep : ∀ q s, q ∈ v.q s → (t'.cont q).side = some s)
    (hin : ∀ q, (t'.cont q).InPipe a)
    (hshows : Shows id a t'.k (v.setPipe p')) (hb : p'.Bounded)
    (hstream : t'.stored = t'.fetched ++ p'.ring)
    (hflag : ∀ s, p'.waiting s = true → v.pipe.waiting s = true)
    (hwoke : ∀ s' q, (t'.cont q).side = some s' → v.asleep q = false → p'.Ready s') :
    Flow id a t' (v.setPipe p') :=
  ⟨hshows, hb, h.zero, hstream, fun s q hm => ⟨(h.queued s q hm).1, hkeep q s hm⟩,
    fun s q hs ha => h.listed s q (hcont q s hs) ha, h.nodup,
    fun s hf => h.flag s (hflag s hf), hwoke, hin, fun q s hs => h.range q s (hcont q s hs)⟩

/-- **Going to sleep** on a side that is not ready. -/
theorem Flow.sleep (h : Flow id a t v) {t' : PipeSys} {p' : Pipe} {s : Side}
    (hq : v.asleep q = false) (h2 : 2 ≤ q ∧ q < maxProcesses)
    (hcont : ∀ q', q' ≠ q → t'.cont q' = t.cont q') (hself : (t'.cont q).side = some s)
    (hin : (t'.cont q).InPipe a)
    (hshows : Shows id a t'.k ((v.setPipe p').sleep s q b)) (hb : p'.Bounded)
    (hstream : t'.stored = t'.fetched ++ p'.ring)
    (hflag : ∀ s', s' ≠ s → p'.waiting s' = v.pipe.waiting s')
    (hwoke : ∀ s' q', q' ≠ q → (t.cont q').side = some s' → v.asleep q' = false → p'.Ready s') :
    Flow id a t' ((v.setPipe p').sleep s q b) := by
  have hasleep : ∀ q', ((v.setPipe p').sleep s q b).asleep q'
      = if q' = q then true else v.asleep q' := fun q' => asleep_sleep
  have hmem : ∀ s' q', q' ∈ ((v.setPipe p').sleep s q b).q s' →
      (s' = s ∧ q' = q) ∨ (q' ≠ q ∧ q' ∈ v.q s') := by
    intro s' q' hm
    have hne : q' ∈ v.q s' → q' ≠ q := fun hm' e => h.not_queued hq s' (e ▸ hm')
    unfold PView.sleep at hm
    by_cases e : s' = s
    · subst e
      simp only [Function.update_self] at hm
      rcases List.mem_append.mp hm with hm | hm
      · exact Or.inr ⟨hne hm, hm⟩
      · exact Or.inl ⟨rfl, List.mem_singleton.mp hm⟩
    · simp only [Function.update_of_ne e] at hm
      exact Or.inr ⟨hne hm, hm⟩
  refine ⟨hshows, hb, h.zero, hstream, fun s' q' hm => ?_, fun s' q' hs ha => ?_, fun s' => ?_,
    fun s' hf => ?_, fun s' q' hs ha => ?_, fun q' => ?_, fun q' s' hs => ?_⟩
  · rw [hasleep]
    rcases hmem s' q' hm with ⟨rfl, rfl⟩ | ⟨hne, hm⟩
    · exact ⟨if_pos rfl, hself⟩
    · rw [if_neg hne, hcont q' hne]
      exact h.queued s' q' hm
  · unfold PView.sleep
    by_cases e : q' = q
    · rw [e, hself] at hs
      obtain rfl := Option.some.inj hs
      simp only [Function.update_self]
      exact List.mem_append_right _ (by rw [e]; exact List.mem_singleton_self q)
    · rw [hasleep, if_neg e] at ha
      rw [hcont q' e] at hs
      have hm := h.listed s' q' hs ha
      by_cases es : s' = s
      · subst es
        simp only [Function.update_self]
        exact List.mem_append_left _ hm
      · simp only [Function.update_of_ne es]
        exact hm
  · unfold PView.sleep
    by_cases e : s' = s
    · subst e
      simp only [Function.update_self]
      refine List.nodup_append.mpr ⟨h.nodup s', List.nodup_singleton _, ?_⟩
      rintro x hx y hy rfl
      rw [List.mem_singleton.mp hy] at hx
      exact h.not_queued hq s' hx
    · simp only [Function.update_of_ne e]
      exact h.nodup s'
  · unfold PView.sleep
    by_cases e : s' = s
    · subst e
      simp only [Function.update_self]
      exact List.append_ne_nil_of_right_ne_nil _ (by simp)
    · simp only [Function.update_of_ne e]
      exact h.flag s' ((hflag s' e).symm.trans hf)
  · rw [hasleep] at ha
    by_cases e : q' = q
    · rw [if_pos e] at ha
      exact absurd ha (by simp)
    · rw [if_neg e] at ha
      rw [hcont q' e] at hs
      exact hwoke s' q' e hs ha
  · by_cases e : q' = q
    · rw [e]
      exact hin
    · rw [hcont q' e]
      exact h.inPipe q'
  · by_cases e : q' = q
    · rw [e]
      exact h2
    · rw [hcont q' e] at hs
      exact h.range q' s' hs

end

end Tp2So
