import Tp2So.Pipes.Crowd

/-!
# One reader, one writer, and whether they can both sleep

* `PipeOp.ofPair`   only `r` reads and only `w` writes;
* `Pair`            a sleeping reader has left an empty ring and its flag, a sleeping writer a full one;
* `PipeOp.modest`   while the reader sleeps, no call has more bytes to store than the ring holds;
* `deadlock_iff`    in a run of modest steps the two are never asleep together, and a step that is not
                    modest puts both to sleep.

`writePipe` tells a sleeping reader only after its loop.  A call with more bytes than fit stops in the
loop, with the reader still asleep (`deadlock_reached`).
-/

set_option linter.unusedVariables false

namespace Tp2So

/-- the process is BLOCKED in the `semWait` of this side -/
def PipeSys.blockedIn (t : PipeSys) (q : Int) (s : Side) : Bool :=
  decide ((t.cont q).side = some s) && (t.k.sched.slot q).any Slot.blocked

def Deadlocked (r w : Int) (t : PipeSys) : Prop := t.blockedIn r .rd = true ∧ t.blockedIn w .wr = true

/-- one reader and one writer, attached once, neither of which detaches -/
def PipeOp.ofPair (r w : Int) (o : PipeOp) (t : PipeSys) : Bool :=
  match o with
  | .attachReader pid => pid = r && decide (t.cont r = .away)
  | .attachWriter pid => pid = w && decide (t.cont w = .away)
  | .detachReader _ => false
  | .detachWriter _ => false
  | o => ((o.asks t).all fun x => x.1 = r) && (o.offers t).all fun x => x.1 = w

def PipeOp.modest (r : Int) (o : PipeOp) (t : PipeSys) : Bool :=
  !t.blockedIn r .rd || (o.offers t).all fun x => x.2.length < pipeBufferSize

section
variable {id a b n : Nat} {t t' : PipeSys} {v v' : PView} {o : PipeOp} {q r w : Int} {s : Side}

/-! ## who is inside a call -/

/-- the process that a side belongs to -/
def owner (r w : Int) : Side → Int
  | .rd => r
  | .wr => w

def Solo (r w : Int) (t : PipeSys) : Prop := ∀ q s, (t.cont q).side = some s → q = owner r w s

theorem PipeOp.ofPair_asks (h : o.ofPair r w t = true) (ha : o.asks t = some (q, n)) : q = r := by
  have hall : (o.asks t).all (fun x => decide (x.1 = r)) = true → q = r := fun h => by
    rw [ha] at h
    exact of_decide_eq_true h
  cases o with
  | read n => exact hall (Bool.and_eq_true_iff.mp h).1
  | resume => exact hall (Bool.and_eq_true_iff.mp h).1
  | write data => cases ha
  | schedule fuel rsp => cases ha
  | attachReader pid => cases ha
  | attachWriter pid => cases ha
  | detachReader pid => cases h
  | detachWriter pid => cases h

theorem PipeOp.ofPair_offers {bs : List UInt8} (h : o.ofPair r w t = true)
    (ha : o.offers t = some (q, bs)) : q = w := by
  have hall : (o.offers t).all (fun x => decide (x.1 = w)) = true → q = w := fun h => by
    rw [ha] at h
    exact of_decide_eq_true h
  cases o with
  | write data => exact hall h
  | resume => exact hall (Bool.and_eq_true_iff.mp h).2
  | read n => cases ha
  | schedule fuel rsp => cases ha
  | attachReader pid => cases ha
  | attachWriter pid => cases ha
  | detachReader pid => cases h
  | detachWriter pid => cases h

theorem Solo.allowed (h : Solo r w t) (hr : 2 ≤ r) (hw : 2 ≤ w) (ho : o.ofPair r w t = true) :
    o.Allowed t v := by
  refine ⟨fun q n ha => ?_, fun q bs ha => ?_⟩
  · obtain rfl := PipeOp.ofPair_asks ho ha
    exact ⟨hr, fun q' hne hs _ => absurd (h q' .rd hs) hne⟩
  · obtain rfl := PipeOp.ofPair_offers ho ha
    exact ⟨hw, fun q' hne hs _ => absurd (h q' .wr hs) hne⟩

theorem Solo.update {c : PipeCont} (h : Solo r w t) (hc : ∀ s, c.side = some s → q = owner r w s)
    {u : PipeSys} (hu : u.cont = Function.update t.cont q c) : Solo r w u := by
  intro q' s hs
  rw [hu] at hs
  by_cases e : q' = q
  · rw [e, Function.update_self] at hs
    rw [e]
    exact hc s hs
  · rw [Function.update_of_ne e] at hs
    exact h q' s hs

theorem Solo.settleRead {res : ReadResult} {k : Kernel} (h : Solo r w t) :
    Solo r w (settleRead t (r, n, res, k)) := by
  cases res with
  | error => exact h.update (c := .idle) (fun s hs => by cases hs) rfl
  | returned bs => exact h.update (c := .idle) (fun s hs => by cases hs) rfl
  | suspended c =>
    exact h.update (c := .reading c n) (fun s hs => by cases Option.some.inj hs; rfl) rfl

theorem Solo.settleWrite {bs : List UInt8} {m : Nat} {res : WriteResult} {k : Kernel}
    (h : Solo r w t) : Solo r w (settleWrite t (w, bs, m, res, k)) := by
  cases res with
  | error => exact h.update (c := .idle) (fun s hs => by cases hs) rfl
  | returned m' => exact h.update (c := .idle) (fun s hs => by cases hs) rfl
  | suspended c rest m' =>
    exact h.update (c := .writing c rest m') (fun s hs => by cases Option.some.inj hs; rfl) rfl

theorem Solo.joined {u : PipeSys} {pid : Int} (h : Solo r w t) (hu : u.cont = joined t.cont pid) :
    Solo r w u := by
  intro q s hs
  rw [hu, side_joined] at hs
  exact h q s hs

theorem solo_step (h : Solo r w t) (ho : o.ofPair r w t = true) (he : execPipe id o t = some t') :
    Solo r w t' := by
  have hcall : execCall id o t = some t' → Solo r w t' := fun he => by
    rcases execCall_some he with ⟨⟨q, n, res, k⟩, hc, rfl⟩ | ⟨⟨q, bs, m, res, k⟩, hc, rfl⟩
    · obtain rfl := PipeOp.ofPair_asks ho (readCall_some hc).1
      exact h.settleRead
    · obtain rfl := PipeOp.ofPair_offers ho (writeCall_some hc).1
      exact h.settleWrite
  cases o with
  | attachReader pid => exact Option.some.inj he ▸ h.joined rfl
  | attachWriter pid => exact Option.some.inj he ▸ h.joined rfl
  | read n => exact hcall he
  | write data => exact hcall he
  | resume => exact hcall he
  | detachReader pid => cases ho
  | detachWriter pid => cases ho
  | schedule fuel rsp =>
    obtain ⟨x, hx, rfl⟩ := Option.map_eq_some_iff.mp he
    exact h

theorem Flow.short (h : Flow id a t v) (hs : Solo r w t) (s : Side) : (v.q s).length ≤ 1 := by
  have hall : ∀ q ∈ v.q s, q = owner r w s := fun q hq => hs q s (h.queued s q hq).2
  have hnd := h.nodup s
  match hq : v.q s with
  | [] => exact Nat.zero_le _
  | [x] => exact Nat.le_refl _
  | x :: y :: l =>
    rw [hq] at hall hnd
    have hx := hall x List.mem_cons_self
    have hy := hall y (List.mem_cons_of_mem _ List.mem_cons_self)
    exact absurd (hx.trans hy.symm) (List.ne_of_not_mem_cons (List.nodup_cons.mp hnd).1)

/-! ## the ring that a sleeper has left -/

/-- what a sleeping process found, and the flag it has set -/
structure Pair (v : PView) : Prop where
  rd : v.q .rd ≠ [] → v.pipe.ring = [] ∧ v.pipe.waitingToRead = true
  wr : v.q .wr ≠ [] → v.pipe.ring.length = pipeBufferSize - 1 ∧ v.pipe.waitingToWrite = true

theorem post_q_self (v : PView) (s : Side) : (v.post s).q s = (v.q s).tail := by
  cases hq : v.q s with
  | nil => rw [PView.post_nil hq]; exact hq
  | cons x l => rw [PView.post_cons hq]; exact Function.update_self ..

theorem post_q_other (v : PView) {s s' : Side} (hne : s' ≠ s) : (v.post s).q s' = v.q s' := by
  cases hq : v.q s with
  | nil => rw [PView.post_nil hq]
  | cons x l => rw [PView.post_cons hq]; exact Function.update_of_ne hne ..

theorem sleep_q_self {p' : Pipe} : ((v.setPipe p').sleep s q b).q s = v.q s ++ [q] :=
  Function.update_self ..

theorem sleep_q_other {p' : Pipe} {s' : Side} (hne : s' ≠ s) :
    ((v.setPipe p').sleep s q b).q s' = v.q s' := Function.update_of_ne hne ..

theorem tail_eq_nil {α : Type} {l : List α} (h : l.length ≤ 1) : l.tail = [] :=
  List.eq_nil_of_length_eq_zero (by rw [List.length_tail]; omega)

theorem pair_afterRead {i : Nat} (h : Pair v) (hshort : ∀ s, (v.q s).length ≤ 1)
    (hring : (v.pipe.setIdxToRead i).ring = v.pipe.ring.drop n) :
    Pair (v.afterRead i (v.pipe.ring.take n != [])) := by
  unfold PView.afterRead
  split
  · rename_i hc
    obtain ⟨hgot, -⟩ := Bool.and_eq_true_iff.mp hc
    have hne : v.pipe.ring.take n ≠ [] := by simpa using hgot
    refine ⟨fun hq => ?_, fun hq => ?_⟩
    · -- a sleeping reader has left nothing to read
      rw [post_q_other _ (by decide)] at hq
      exact absurd (by rw [(h.rd hq).1]; exact List.take_nil) hne
    · rw [post_q_self] at hq
      exact absurd (tail_eq_nil (hshort .wr)) hq
  · rename_i hc
    refine ⟨fun hq => ?_, fun hq => ?_⟩
    · refine ⟨?_, (h.rd hq).2⟩
      show (v.pipe.setIdxToRead i).ring = []
      rw [hring, (h.rd hq).1, List.drop_nil]
    · obtain ⟨hfull, hw⟩ := h.wr hq
      -- the writer was not told, so nothing was read
      have hnil : v.pipe.ring.take n = [] := by
        by_contra hne
        exact hc (Bool.and_eq_true_iff.mpr ⟨by simpa using hne, hw⟩)
      refine ⟨?_, hw⟩
      show (v.pipe.setIdxToRead i).ring.length = _
      rcases List.take_eq_nil_iff.mp hnil with h0 | h0
      · rw [hring, h0, List.drop_zero]
        exact hfull
      · rw [h0] at hfull
        exact absurd hfull (by decide)

theorem storeAll_waiting (bs : List UInt8) (p : Pipe) (s : Side) :
    (Pipe.storeAll bs p).waiting s = p.waiting s := by
  rw [Pipe.storeAll_eq]
  cases s <;> rfl

theorem pair_afterWrite {bs : List UInt8} (h : Pair v) (hshort : ∀ s, (v.q s).length ≤ 1)
    (hring : (Pipe.storeAll bs v.pipe).ring = v.pipe.ring ++ bs)
    (hle : (v.pipe.ring ++ bs).length ≤ pipeBufferSize - 1) :
    Pair (v.afterWrite (Pipe.storeAll bs v.pipe) (decide (bs ≠ []))) := by
  have hwr : v.q .wr ≠ [] → (Pipe.storeAll bs v.pipe).ring.length = pipeBufferSize - 1 ∧
      (Pipe.storeAll bs v.pipe).waitingToWrite = true := by
    intro hq
    obtain ⟨hfull, hw⟩ := h.wr hq
    rw [hring]
    rw [List.length_append] at hle ⊢
    exact ⟨by omega, (storeAll_waiting bs v.pipe .wr).trans hw⟩
  unfold PView.afterWrite
  split
  · refine ⟨fun hq => ?_, fun hq => ?_⟩
    · rw [post_q_self] at hq
      exact absurd (tail_eq_nil (hshort .rd)) hq
    · rw [post_q_other _ (by decide)] at hq
      rw [PView.post_pipe]
      exact hwr hq
  · rename_i hc
    refine ⟨fun hq => ?_, hwr⟩
    obtain ⟨hnil, hr⟩ := h.rd hq
    have hr' : (Pipe.storeAll bs v.pipe).waitingToRead = true :=
      (storeAll_waiting bs v.pipe .rd).trans hr
    -- the reader was not told, so nothing was stored
    have hbs : bs = [] := by
      by_contra hne
      exact hc (Bool.and_eq_true_iff.mpr ⟨decide_eq_true hne, hr'⟩)
    refine ⟨?_, hr'⟩
    show (Pipe.storeAll bs v.pipe).ring = []
    rw [hring, hnil, hbs]
    rfl

/-- **A turn keeps the pair in order**, unless the writer falls asleep while the reader does. -/
theorem pair_turn (h : Pair v) (hturn : Turn v v') (hshort : ∀ s, (v.q s).length ≤ 1)
    (hb : v'.pipe.Bounded) (hno : v'.q .wr ≠ v.q .wr → v.q .rd = []) : Pair v' := by
  cases hturn with
  | still => exact h
  | read n i hring => exact pair_afterRead h hshort hring
  | readSleep q b hring =>
    refine ⟨fun _ => ⟨hring, rfl⟩, fun hq => ?_⟩
    have hsame : (v.readSleep q b).q .wr = v.q .wr := sleep_q_other (by decide)
    have hfull := (h.wr (hsame ▸ hq)).1
    rw [hring] at hfull
    exact absurd hfull (by decide)
  | write bs any hring hany =>
    subst hany
    refine pair_afterWrite h hshort hring ?_
    have hb' := hb.ring_length
    have hpipe : (v.afterWrite (Pipe.storeAll bs v.pipe) (decide (bs ≠ []))).pipe.ring
        = v.pipe.ring ++ bs := by
      unfold PView.afterWrite
      split
      · rw [PView.post_pipe]
        exact hring
      · exact hring
    rwa [hpipe] at hb'
  | writeSleep bs q b hring hfull =>
    have hgrown : (v.writeSleep (Pipe.storeAll bs v.pipe) q b).q .wr = v.q .wr ++ [q] := sleep_q_self
    have hsame : (v.writeSleep (Pipe.storeAll bs v.pipe) q b).q .rd = v.q .rd :=
      sleep_q_other (by decide)
    have hnil : v.q .rd = [] := by
      refine hno ?_
      rw [hgrown]
      exact fun e => absurd (List.append_right_eq_self.mp e) (by simp)
    refine ⟨fun hq => absurd (hsame.trans hnil) hq, fun _ => ⟨?_, rfl⟩⟩
    show (Pipe.storeAll bs v.pipe).ring.length = _
    rw [hring, List.length_append]
    exact hfull

/-! ## steps -/

theorem Flow.blockedIn (h : Flow id a t v) : t.blockedIn q s = true ↔ q ∈ v.q s := by
  unfold PipeSys.blockedIn
  rw [h.shows.slot, Bool.and_eq_true, decide_eq_true_eq]
  exact ⟨fun hb => h.listed s q hb.1 hb.2, fun hm => (h.queued s q hm).symm⟩

theorem Pair.not_deadlocked (hp : Pair v) (h : Flow id a t v) : ¬ Deadlocked r w t := by
  rintro ⟨hr, hw⟩
  have hrd := (hp.rd (List.ne_nil_of_mem (h.blockedIn.mp hr))).1
  have hwr := (hp.wr (List.ne_nil_of_mem (h.blockedIn.mp hw))).1
  rw [hrd] at hwr
  exact absurd hwr (by decide)

/-- the only reader is the one that may sleep as a reader -/
theorem Solo.mem (hs : Solo r w t) (h : Flow id a t v) (hq : v.q .rd ≠ []) : r ∈ v.q .rd := by
  obtain ⟨x, l, hx⟩ := List.exists_cons_of_ne_nil hq
  have hm : x ∈ v.q .rd := by rw [hx]; exact List.mem_cons_self
  obtain rfl : x = r := hs x .rd (h.queued .rd x hm).2
  exact hm

theorem pair_call (h : Flow id a t v) (hs : Solo r w t) (hp : Pair v) (hr : 2 ≤ r) (hw : 2 ≤ w)
    (ho : o.ofPair r w t = true) (hm : o.modest r t = true) (he : execCall id o t = some t') :
    ∃ v', Flow id a t' v' ∧ Pair v' := by
  have hal := hs.allowed (v := v) hr hw ho
  have hshort := h.short hs
  rcases execCall_some he with ⟨⟨q, n, res, k⟩, hc, rfl⟩ | ⟨⟨q, bs, m, res, k⟩, hc, rfl⟩
  · obtain ⟨hasks, b, p, hact, rfl, -⟩ := readCall_some hc
    obtain ⟨h2, hcourt⟩ := hal.asks _ n hasks
    obtain ⟨v', hv', hturn, -⟩ := flow_readCall h hc h2 hcourt
    refine ⟨v', hv', pair_turn hp hturn hshort hv'.bounded fun _ => ?_⟩
    -- the reader is awake, and nobody else reads
    by_contra hq
    have hmem := hs.mem h hq
    rw [← PipeOp.ofPair_asks ho hasks] at hmem
    exact h.not_queued (h.caller hact) .rd hmem
  · have hoff := (writeCall_some hc).1
    obtain ⟨h2, hcourt⟩ := hal.offers _ bs hoff
    obtain ⟨v', hv', hturn, hsleep⟩ := flow_writeCall h hc h2 hcourt
    refine ⟨v', hv', pair_turn hp hturn hshort hv'.bounded fun hne => ?_⟩
    by_contra hq
    have hblocked := h.blockedIn.mpr (hs.mem h hq)
    unfold PipeOp.modest at hm
    rw [hblocked, Bool.not_true, Bool.false_or, hoff] at hm
    have hlt : bs.length < pipeBufferSize := of_decide_eq_true hm
    rw [if_pos (by rw [(hp.rd hq).1, List.length_nil]; omega)] at hsleep
    exact hne hsleep

/-- **One modest step** of the pair. -/
theorem pair_step (h : Flow id a t v) (hs : Solo r w t) (hp : Pair v) (hr : 2 ≤ r) (hw : 2 ≤ w)
    (ho : o.ofPair r w t = true) (hm : o.modest r t = true) (he : execPipe id o t = some t') :
    ∃ v', Flow id a t' v' ∧ Pair v' := by
  cases o with
  | attachReader pid =>
    obtain rfl := Option.some.inj he
    rw [attachReader_eq h.shows]
    exact ⟨_, flow_attach h _ (sameRing_addReader v.pipe) pid, hp.rd, hp.wr⟩
  | attachWriter pid =>
    obtain rfl := Option.some.inj he
    rw [attachWriter_eq h.shows]
    exact ⟨_, flow_attach h _ (sameRing_addWriter v.pipe) pid, hp.rd, hp.wr⟩
  | read n => exact pair_call h hs hp hr hw ho hm he
  | write data => exact pair_call h hs hp hr hw ho hm he
  | resume => exact pair_call h hs hp hr hw ho hm he
  | detachReader pid => cases ho
  | detachWriter pid => cases ho
  | schedule fuel rsp =>
    obtain ⟨x, hx, rfl⟩ := Option.map_eq_some_iff.mp he
    exact ⟨v, flow_schedule h hx, hp⟩

theorem PipeOp.asks_offers (o : PipeOp) (t : PipeSys) : o.asks t = none ∨ o.offers t = none := by
  cases o with
  | read n => exact Or.inr rfl
  | resume =>
    unfold PipeOp.asks PipeOp.offers
    cases hact : t.k.sched.actor with
    | none => exact Or.inl rfl
    | some x =>
      obtain ⟨b, p⟩ := x
      simp only
      cases t.cont p.pid with
      | reading c n => exact Or.inr rfl
      | _ => exact Or.inl rfl
  | _ => exact Or.inl rfl

theorem execPipe_offers {bs : List UInt8} (hoff : o.offers t = some (q, bs)) :
    execPipe id o t = execCall id o t := by
  cases o with
  | write data => rfl
  | resume => rfl
  | _ => cases hoff

/-- **A step that is not modest** stops the writer in its loop, and the reader sleeps on. -/
theorem deadlocked_of_not_modest (h : Flow id a t v) (hs : Solo r w t) (hr : 2 ≤ r) (hw : 2 ≤ w)
    (ho : o.ofPair r w t = true) (hm : ¬ o.modest r t = true) (he : execPipe id o t = some t') :
    Deadlocked r w t' := by
  unfold PipeOp.modest at hm
  rw [Bool.or_eq_true, not_or, Bool.not_eq_true, Bool.not_eq_false'] at hm
  obtain ⟨hblocked, hbig⟩ := hm
  cases hoff : o.offers t with
  | none => rw [hoff] at hbig; exact absurd rfl hbig
  | some x =>
    obtain ⟨q, bs⟩ := x
    rw [hoff] at hbig
    have hlen : ¬ bs.length < pipeBufferSize := fun hlt => hbig (decide_eq_true hlt)
    rw [execPipe_offers hoff] at he
    rcases execCall_some he with ⟨⟨q', n, res, k⟩, hc, rfl⟩ | ⟨⟨q', bs', m, res, k⟩, hc, rfl⟩
    · rcases o.asks_offers t with hn | hn
      · exact absurd ((readCall_some hc).1.symm.trans hn) (by simp)
      · exact absurd (hoff.symm.trans hn) (by simp)
    · obtain ⟨rfl, rfl⟩ := Prod.mk.inj (Option.some.inj ((writeCall_some hc).1.symm.trans hoff))
      obtain ⟨h2, hcourt⟩ := (hs.allowed (v := v) hr hw ho).offers _ _ hoff
      obtain ⟨v', hv', -, hsleep⟩ := flow_writeCall h hc h2 hcourt
      have hover : ¬ v.pipe.ring.length + bs'.length ≤ pipeBufferSize - 1 := by
        have h1 := Nat.le_of_not_lt hlen
        have h0 : 0 < pipeBufferSize := by decide
        omega
      rw [if_neg hover] at hsleep
      obtain ⟨p', b, rfl⟩ := hsleep
      obtain rfl := PipeOp.ofPair_offers ho hoff
      refine ⟨hv'.blockedIn.mpr ?_, hv'.blockedIn.mpr ?_⟩
      · have hsame : (v.writeSleep p' q' b).q .rd = v.q .rd := sleep_q_other (by decide)
        rw [hsame]
        exact h.blockedIn.mp hblocked
      · have hgrown : (v.writeSleep p' q' b).q .wr = v.q .wr ++ [q'] := sleep_q_self
        rw [hgrown]
        exact List.mem_append_right _ (List.mem_singleton_self q')

/-! ## runs -/

theorem pair_run {os : List PipeOp} (h₀ : t.Opened id) (hr : 2 ≤ r) (hw : 2 ≤ w)
    (h : Runs (execPipe id) (fun o t => o.ofPair r w t ∧ o.modest r t) os t t') :
    ∃ a v, Flow id a t' v ∧ Pair v ∧ Solo r w t' := by
  obtain ⟨k, buffer, hflow⟩ := flow_opened h₀
  have hsolo : Solo r w t := fun q s hq => by
    obtain ⟨_, _, -, -, -, -, hc, -⟩ := h₀
    rw [hc q] at hq
    cases hq
  obtain ⟨⟨v, hv, hp⟩, hs⟩ : (∃ v, Flow id k.pipes.next t' v ∧ Pair v) ∧ Solo r w t' :=
    Runs.inv (I := fun t => (∃ v, Flow id k.pipes.next t v ∧ Pair v) ∧ Solo r w t)
      (fun o t u ⟨⟨v, hv, hp⟩, hs⟩ ho he =>
        ⟨pair_step hv hs hp hr hw ho.1 ho.2 he, solo_step hs ho.1 he⟩)
      h ⟨⟨_, hflow, fun hq => absurd rfl hq, fun hq => absurd rfl hq⟩, hsolo⟩
  exact ⟨_, v, hv, hp, hs⟩

/-- **Deadlock freedom, exactly.**  In every run of modest steps of one reader and one writer the two
are never asleep in their waits together; and the next step keeps that up just when it is modest. -/
theorem deadlock_iff {os : List PipeOp} (h₀ : t.Opened id) (hr : 2 ≤ r) (hw : 2 ≤ w)
    (h : Runs (execPipe id) (fun o t => o.ofPair r w t ∧ o.modest r t) os t t') :
    ¬ Deadlocked r w t' ∧ ∀ o u, o.ofPair r w t' → execPipe id o t' = some u →
      (¬ Deadlocked r w u ↔ o.modest r t' = true) := by
  obtain ⟨a, v, hv, hp, hs⟩ := pair_run h₀ hr hw h
  refine ⟨hp.not_deadlocked hv, fun o u ho he => ⟨fun hnd => ?_, fun hm => ?_⟩⟩
  · by_contra hm
    exact hnd (deadlocked_of_not_modest hv hs hr hw ho hm he)
  · obtain ⟨v', hv', hp'⟩ := pair_step hv hs hp hr hw ho hm he
    exact hp'.not_deadlocked hv'

end

/-! ## one call too large -/

/-- `3` sleeps as a reader and `2`, the writer, is running -/
def sleepyReader : List PipeOp :=
  [.attachWriter 2, .attachReader 3, .schedule 8 8, .schedule 8 8200, .schedule 8 16400, .read 1,
    .schedule 8 24600, .schedule 8 32800, .schedule 8 8200]

theorem sleepyReader_run : ∃ t t', t.Opened 2 ∧
    Runs (execPipe 2) (fun o t => o.ofPair 3 2 t ∧ o.modest 3 t) sleepyReader t t' ∧
    (∃ b p, t'.k.sched.actor = some (b, p) ∧ p.pid = 2) ∧ t'.cont 2 = .idle ∧
    t'.blockedIn 3 .rd = true := by
  have hrun : ((runIf execSem SemOp.clean threeUsers (SemSys.boot 0 [])).bind fun s =>
      (runIf (execPipe 2) (fun o t => o.ofPair 3 2 t && o.modest 3 t) sleepyReader
        (.start s.k fun _ => 0)).map
      fun t => (locateSemaphoreByName s.k.sems (buildSemName 2 'R'),
        locateSemaphoreByName s.k.sems (buildSemName 2 'W'), (openPipe s.k fun _ => 0).1,
        t.k.sched.actor.map fun x => x.2.pid,
        decide (t.cont 2 = .idle) && t.blockedIn 3 .rd))
      = some (none, none, 2, some 2, true) := by decide +kernel
  obtain ⟨s, hs, hrun⟩ := Option.bind_eq_some_iff.mp hrun
  obtain ⟨t', ht, hv⟩ := Option.map_eq_some_iff.mp hrun
  simp only [Prod.mk.injEq] at hv
  obtain ⟨hr, hw, hid, hact, hrest⟩ := hv
  obtain ⟨hidle, hblocked⟩ := Bool.and_eq_true_iff.mp hrest
  obtain ⟨⟨b, p⟩, hact, hpid⟩ := Option.map_eq_some_iff.mp hact
  exact ⟨_, t', opened_start (sound_run (runs_of_runIf hs)) hr hw hid,
    (runs_of_runIf ht).mono fun o t h => Bool.and_eq_true_iff.mp h, ⟨b, p, hact, hpid⟩,
    of_decide_eq_true hidle, hblocked⟩

theorem deadlock_iff_sleepyReader : ∃ t t', t.Opened 2 ∧
    Runs (execPipe 2) (fun o t => o.ofPair 3 2 t ∧ o.modest 3 t) sleepyReader t t' ∧
    ¬ Deadlocked 3 2 t' := by
  obtain ⟨t, t', hopen, hruns, -⟩ := sleepyReader_run
  exact ⟨t, t', hopen, hruns, (deadlock_iff hopen (by decide) (by decide) hruns).1⟩

/-- the reader sleeps; the writer writes one byte more than the ring can hold, and sleeps too -/
theorem deadlock_reached : ∃ t u, t.Opened 2 ∧
    Runs (execPipe 2) (fun o t => o.ofPair 3 2 t)
      (sleepyReader ++ [.write (List.replicate pipeBufferSize 0)]) t u ∧ Deadlocked 3 2 u := by
  obtain ⟨t, t', hopen, hruns, ⟨b, p, hact, hpid⟩, hidle, hblocked⟩ := sleepyReader_run
  obtain ⟨a, v, hv, -, hs⟩ := pair_run hopen (by decide) (by decide) hruns
  have hall : (List.replicate pipeBufferSize (0 : UInt8)).take
      (intBytes (List.replicate pipeBufferSize (0 : UInt8)).length)
      = List.replicate pipeBufferSize 0 := by
    refine List.take_of_length_le ?_
    rw [List.length_replicate]
    decide
  have hoff : (PipeOp.write (List.replicate pipeBufferSize 0)).offers t'
      = some (2, List.replicate pipeBufferSize 0) := by
    unfold PipeOp.offers
    simp only [hact, hpid, hidle, if_true, hall]
  have hpair : (PipeOp.write (List.replicate pipeBufferSize 0)).ofPair 3 2 t' = true := by
    show (((PipeOp.write _).offers t').all fun x => decide (x.1 = 2)) = true
    rw [hoff]
    rfl
  have hbig : ¬ (PipeOp.write (List.replicate pipeBufferSize 0)).modest 3 t' = true := by
    unfold PipeOp.modest
    rw [hoff, hblocked, Bool.not_true, Bool.false_or, Option.all_some, decide_eq_true_eq]
    show ¬ (List.replicate pipeBufferSize (0 : UInt8)).length < pipeBufferSize
    rw [List.length_replicate]
    exact Nat.lt_irrefl _
  obtain ⟨u, hu⟩ : ∃ u, execPipe 2 (.write (List.replicate pipeBufferSize 0)) t' = some u := by
    show ∃ u, execCall 2 (.write (List.replicate pipeBufferSize 0)) t' = some u
    unfold execCall readCall writeCall
    simp only [hact, hpid, hidle, if_true]
    exact ⟨_, rfl⟩
  refine ⟨t, u, hopen, (hruns.mono fun o t h => h.1).append ⟨hpair, u, hu, rfl⟩, ?_⟩
  exact deadlocked_of_not_modest hv hs (by decide) (by decide) hpair hbig hu

end Tp2So
