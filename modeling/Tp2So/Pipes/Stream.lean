import Tp2So.Pipes.Detach
import Tp2So.Pipes.Deadlock

/-!
# The pipe of a two-process pipeline is a stream

One reader `r` and one writer `w`, each attached once, in either order; either of them may detach at
any moment, also inside a call.

* `Together`    neither end has gone: the traffic flows, and the counters say who is attached;
* `Alone`       the writer has gone: what is left in the ring is what is left to read;
* `Deleted`     the writer has gone before the reader came, and the pipe with it;
* `Past`        the reader has gone;
* `stream_run`  in every run one of these holds; so what has been read is a prefix of what has been
                stored, the ring holds the rest, and end of file means that the writer has gone and
                nothing is left.
-/

set_option linter.unusedVariables false

namespace Tp2So

/-- attached, and not detached yet -/
def PipeCont.present : PipeCont → Bool
  | .away => false
  | .gone => false
  | _ => true

/-- one reader and one writer, attached once; each may detach -/
def PipeOp.ofEnds (r w : Int) (o : PipeOp) (t : PipeSys) : Bool :=
  match o with
  | .detachReader pid => pid = r && (t.cont r).present
  | .detachWriter pid => pid = w && (t.cont w).present
  | o => o.ofPair r w t

structure StreamSafe (id : Nat) (r w : Int) (t : PipeSys) : Prop where
  /-- what has been read is the beginning of what has been stored -/
  pre : t.fetched <+: t.stored
  /-- while there is a pipe and a reader, the rest is in the ring -/
  rest : ∀ p, t.pipe id = some p → t.cont r ≠ .gone → t.stored = t.fetched ++ p.ring
  /-- end of file is read only at the end -/
  eof : ∀ o n, o.ofEnds r w t → readOutcome id o t = some (n, []) → 0 < n →
    t.cont w = .gone ∧ t.stored = t.fetched

/-! ## the counters -/

/-- the counters of a pipe -/
def Pipe.ends (p : Pipe) : Nat × Nat × Nat × Nat × Nat :=
  (p.readers, p.writers, p.expReaders, p.expWriters, p.attached)

/-- one end, expected or attached -/
def EndOk (c : PipeCont) (n expected : Nat) : Prop :=
  if c = .away then n = 0 ∧ expected = 1 else n = 1 ∧ expected = 0

structure Ends (r w : Int) (t : PipeSys) (p : Pipe) : Prop where
  reader : EndOk (t.cont r) p.readers p.expReaders
  writer : EndOk (t.cont w) p.writers p.expWriters
  sum : p.attached = p.readers + p.writers

section
variable {id a b n : Nat} {t t' : PipeSys} {v v' : PView} {o : PipeOp} {q r w : Int} {s : Side}

theorem ends_afterRead {i : Nat} {got : Bool} : (v.afterRead i got).pipe.ends = v.pipe.ends := by
  unfold PView.afterRead
  split
  · rw [PView.post_pipe]
    rfl
  · rfl

theorem ends_storeAll (bs : List UInt8) (p : Pipe) : (Pipe.storeAll bs p).ends = p.ends := by
  rw [Pipe.storeAll_eq]
  rfl

theorem ends_afterWrite {bs : List UInt8} {any : Bool} :
    (v.afterWrite (Pipe.storeAll bs v.pipe) any).pipe.ends = v.pipe.ends := by
  unfold PView.afterWrite
  split
  · rw [PView.post_pipe]
    exact ends_storeAll bs v.pipe
  · exact ends_storeAll bs v.pipe

theorem Turn.ends (h : Turn v v') : v'.pipe.ends = v.pipe.ends := by
  cases h with
  | still => rfl
  | read n i hring => exact ends_afterRead
  | readSleep q b hring => rfl
  | write bs any hring hany => exact ends_afterWrite
  | writeSleep bs q b hring hfull => exact ends_storeAll bs v.pipe

theorem Ends.congr {p p' : Pipe} (h : Ends r w t p) (hp : p'.ends = p.ends)
    (hc : ∀ q, t'.cont q = .away ↔ t.cont q = .away) : Ends r w t' p' := by
  unfold Pipe.ends at hp
  simp only [Prod.mk.injEq] at hp
  obtain ⟨h1, h2, h3, h4, h5⟩ := hp
  have hend : ∀ q n m, EndOk (t.cont q) n m → EndOk (t'.cont q) n m := by
    intro q n m hq
    unfold EndOk at hq ⊢
    by_cases e : t.cont q = .away
    · rw [if_pos e] at hq
      rw [if_pos ((hc q).mpr e)]
      exact hq
    · rw [if_neg e] at hq
      rw [if_neg fun e' => e ((hc q).mp e')]
      exact hq
  exact ⟨by rw [h1, h3]; exact hend r _ _ h.reader, by rw [h2, h4]; exact hend w _ _ h.writer,
    by rw [h1, h2, h5]; exact h.sum⟩

theorem call_cont (he : execCall id o t = some t') : ∃ q c, (t.cont q).present = true ∧
    c.present = true ∧ t'.cont = Function.update t.cont q c := by
  rcases execCall_some he with ⟨⟨q, n, res, k⟩, hc, rfl⟩ | ⟨⟨q, bs, m, res, k⟩, hc, rfl⟩
  · obtain ⟨-, b, p, -, -, hcase⟩ := readCall_some hc
    have hq : (t.cont q).present = true := by
      rcases hcase with ⟨-, hq, -⟩ | ⟨-, c, hq, -⟩ <;> rw [hq] <;> rfl
    cases res with
    | error => exact ⟨q, .idle, hq, rfl, rfl⟩
    | returned bs => exact ⟨q, .idle, hq, rfl, rfl⟩
    | suspended c => exact ⟨q, .reading c n, hq, rfl, rfl⟩
  · obtain ⟨-, b, p, -, -, hcase⟩ := writeCall_some hc
    have hq : (t.cont q).present = true := by
      rcases hcase with ⟨data, -, hq, -⟩ | ⟨-, c, hq, -⟩ <;> rw [hq] <;> rfl
    cases res with
    | error => exact ⟨q, .idle, hq, rfl, rfl⟩
    | returned m' => exact ⟨q, .idle, hq, rfl, rfl⟩
    | suspended c rest m' => exact ⟨q, .writing c rest m', hq, rfl, rfl⟩

theorem absent_call (he : execCall id o t = some t') {d : PipeCont} (hd : d.present = false)
    (q : Int) : t'.cont q = d ↔ t.cont q = d := by
  obtain ⟨q₀, c, hq₀, hc, hu⟩ := call_cont he
  rw [hu]
  by_cases e : q = q₀
  · rw [e, Function.update_self]
    constructor
    · intro h
      rw [← h, hc] at hd
      cases hd
    · intro h
      rw [← h, hq₀] at hd
      cases hd
  · rw [Function.update_of_ne e]

theorem stored_call (he : execCall id o t = some t') : t.stored <+: t'.stored := by
  rcases execCall_some he with ⟨⟨q, n, res, k⟩, hc, rfl⟩ | ⟨⟨q, bs, m, res, k⟩, hc, rfl⟩
  · cases res <;> exact List.prefix_refl _
  · cases res with
    | error => exact List.prefix_refl _
    | returned m' => exact List.prefix_append _ _
    | suspended c rest m' => exact List.prefix_append _ _

/-! ## the phases -/

/-- neither end has gone -/
structure Together (id a : Nat) (r w : Int) (t : PipeSys) (v : PView) : Prop where
  flow : Flow id a t v
  solo : Solo r w t
  ends : Ends r w t v.pipe
  reader : t.cont r ≠ .gone
  writer : t.cont w ≠ .gone

/-- the writer has gone, the reader has not -/
structure Alone (id a : Nat) (r w : Int) (t : PipeSys) (v : PView) : Prop where
  shows : Shows id a t.k v
  bounded : v.pipe.Bounded
  stream : t.stored = t.fetched ++ v.pipe.ring
  inPipe : (t.cont r).InPipe a
  noWriter : v.pipe.writers = 0 ∧ v.pipe.expWriters = 0
  reader : (t.cont r).present = true
  writer : t.cont w = .gone

/-- the writer has gone before the reader came -/
structure Deleted (id : Nat) (r w : Int) (t : PipeSys) : Prop where
  pre : t.fetched <+: t.stored
  noPipe : getValidPipe t.k.pipes id = none
  reader : t.cont r = .away ∨ t.cont r = .idle
  writer : t.cont w = .gone

/-- the reader has gone -/
structure Past (r : Int) (t : PipeSys) : Prop where
  pre : t.fetched <+: t.stored
  reader : t.cont r = .gone

def Phase (id a : Nat) (r w : Int) (t : PipeSys) : Prop :=
  (∃ v, Together id a r w t v) ∨ (∃ v, Alone id a r w t v) ∨ Deleted id r w t ∨ Past r t

/-! ### neither end has gone -/

theorem ofEnds_call (ho : o.ofEnds r w t = true) (hc : o.transfers = true) :
    o.ofPair r w t = true := by
  cases o with
  | detachReader pid => cases hc
  | detachWriter pid => cases hc
  | _ => exact ho

theorem Together.call (h : Together id a r w t v) (hr : 2 ≤ r) (hw : 2 ≤ w)
    (ho : o.ofPair r w t = true) (he : execCall id o t = some t')
    (he' : execPipe id o t = some t') : ∃ v', Together id a r w t' v' := by
  obtain ⟨v', hv', hturn⟩ := flow_call h.flow (h.solo.allowed hr hw ho) he
  exact ⟨v', hv', solo_step h.solo ho he', h.ends.congr hturn.ends (absent_call he rfl),
    fun e => h.reader ((absent_call he rfl r).mp e), fun e => h.writer ((absent_call he rfl w).mp e)⟩

theorem joined_self {cont : Int → PipeCont} (h : cont q = .away) : joined cont q q = .idle := by
  unfold joined
  rw [if_pos h, Function.update_self]

theorem joined_other {cont : Int → PipeCont} {q' : Int} (h : q' ≠ q) : joined cont q q' = cont q' := by
  unfold joined
  split
  · exact Function.update_of_ne h ..
  · rfl

theorem endOk_away {m e : Nat} (h : EndOk .away m e) : m = 0 ∧ e = 1 := h

theorem endOk_present {c : PipeCont} {m e : Nat} (h : EndOk c m e) (hc : c ≠ .away) :
    m = 1 ∧ e = 0 := by
  unfold EndOk at h
  rwa [if_neg hc] at h

theorem Ends.attachReader (h : Ends r w t v.pipe) (hne : r ≠ w) (hr : t.cont r = .away) {k : Kernel} :
    Ends r w { t with k, cont := joined t.cont r } v.pipe.addReader := by
  have h1 := h.reader
  rw [hr] at h1
  obtain ⟨hn, hx⟩ := endOk_away h1
  have hsum := h.sum
  refine ⟨?_, ?_, ?_⟩
  · show EndOk (joined t.cont r r) (inc16 v.pipe.readers) (v.pipe.expReaders - 1)
    rw [joined_self hr, hn, hx]
    exact ⟨rfl, rfl⟩
  · show EndOk (joined t.cont r w) v.pipe.writers v.pipe.expWriters
    rw [joined_other hne.symm]
    exact h.writer
  · show inc8 v.pipe.attached = inc16 v.pipe.readers + v.pipe.writers
    have hw : v.pipe.writers ≤ 1 := by
      have h2 := h.writer
      unfold EndOk at h2
      split at h2 <;> omega
    unfold inc8 inc16
    rw [hsum, hn]
    omega

theorem Ends.attachWriter (h : Ends r w t v.pipe) (hne : r ≠ w) (hw : t.cont w = .away) {k : Kernel} :
    Ends r w { t with k, cont := joined t.cont w } v.pipe.addWriter := by
  have h1 := h.writer
  rw [hw] at h1
  obtain ⟨hn, hx⟩ := endOk_away h1
  have hsum := h.sum
  refine ⟨?_, ?_, ?_⟩
  · show EndOk (joined t.cont w r) v.pipe.readers v.pipe.expReaders
    rw [joined_other hne]
    exact h.reader
  · show EndOk (joined t.cont w w) (inc16 v.pipe.writers) (v.pipe.expWriters - 1)
    rw [joined_self hw, hn, hx]
    exact ⟨rfl, rfl⟩
  · show inc8 v.pipe.attached = v.pipe.readers + inc16 v.pipe.writers
    have hr : v.pipe.readers ≤ 1 := by
      have h2 := h.reader
      unfold EndOk at h2
      split at h2 <;> omega
    unfold inc8 inc16
    rw [hsum, hn]
    omega

theorem joined_ne_gone {cont : Int → PipeCont} {q' : Int} (h : cont q' ≠ .gone) :
    joined cont q q' ≠ .gone := by
  by_cases e : q' = q
  · subst e
    by_cases ha : cont q' = .away
    · rw [joined_self ha]
      exact fun e => by cases e
    · unfold joined
      rw [if_neg ha]
      exact h
  · rw [joined_other e]
    exact h

theorem leaveWriter_pipe (v : PView) (pid : Int) :
    ∃ f, (v.leaveWriter pid).pipe = (dropWriter v.pipe).setWaitingToRead f := by
  unfold PView.leaveWriter
  split
  · exact ⟨false, rfl⟩
  · exact ⟨_, rfl⟩

theorem dropWriter_last {p : Pipe} (h : p.writers = 1) :
    dropWriter p = { p with writers := 0, attached := p.attached - 1 } := by
  unfold dropWriter
  rw [h]
  rfl

theorem present_of_ne {c : PipeCont} (h1 : c ≠ .away) (h2 : c ≠ .gone) : c.present = true := by
  cases c with
  | away => exact absurd rfl h1
  | gone => exact absurd rfl h2
  | _ => rfl

theorem PipeCont.ne_away {c : PipeCont} (h : c.present = true) : c ≠ .away := by
  rintro rfl
  cases h

theorem PipeCont.ne_gone {c : PipeCont} (h : c.present = true) : c ≠ .gone := by
  rintro rfl
  cases h

/-- **The writer detaches**: the reader is left alone with the ring, or there is no pipe for one that
has not come yet. -/
theorem Together.detachWriter (h : Together id a r w t v) (h2 : 2 ≤ id) (hne : r ≠ w)
    (hw : (t.cont w).present = true) {u : PipeSys}
    (hk : u.k = (closePipe (Tp2So.detachWriter t.k id w) id).2)
    (hc : u.cont = Function.update t.cont w .gone) (hs : u.stored = t.stored)
    (hf : u.fetched = t.fetched) :
    (∃ v', Alone id a r w u v') ∨ (t.cont r = .away ∧ Deleted id r w u) := by
  obtain ⟨hw1, hw0⟩ := endOk_present h.ends.writer (PipeCont.ne_away hw)
  have hdrop := dropWriter_last hw1
  have hkept : (dropWriter v.pipe).Kept := by
    rw [hdrop]
    rintro ⟨hr0, -, hr1, -⟩
    have hr0' : v.pipe.readers = 0 := hr0
    have hr1' : v.pipe.expReaders = 0 := hr1
    have hend := h.ends.reader
    unfold EndOk at hend
    split at hend <;> omega
  have hshows := detachWriter_shows w h.flow.shows hkept
  obtain ⟨f, hpipe⟩ := leaveWriter_pipe v w
  have hcr : u.cont r = t.cont r := by rw [hc, Function.update_of_ne hne]
  have hcw : u.cont w = .gone := by rw [hc, Function.update_self]
  have hat : (v.leaveWriter w).pipe.attached = v.pipe.readers := by
    rw [hpipe, hdrop]
    show v.pipe.attached - 1 = _
    rw [h.ends.sum, hw1]
    omega
  by_cases hr : t.cont r = .away
  · have hend := h.ends.reader
    rw [hr] at hend
    refine Or.inr ⟨hr, ?_, ?_, Or.inl (hcr.trans hr), hcw⟩
    · rw [hs, hf, h.flow.stream]
      exact List.prefix_append _ _
    · rw [hk]
      exact closePipe_deletes hshows h2 (hat.trans (endOk_away hend).1)
  · have hr1 := (endOk_present h.ends.reader hr).1
    have hshows' := closePipe_shows hshows h2 (by rw [hat, hr1]; decide)
    have hpipe' : (v.leaveWriter w).closed.pipe = (dropWriter v.pipe).setWaitingToRead f :=
      (PView.closed_pipe _).trans hpipe
    refine Or.inl ⟨_, by rw [hk]; exact hshows', ?_, ?_, ?_, ?_, ?_, hcw⟩
    · rw [hpipe', hdrop]
      exact h.flow.bounded
    · rw [hs, hf, hpipe', hdrop]
      exact h.flow.stream
    · rw [hcr]
      exact h.flow.inPipe r
    · rw [hpipe', hdrop]
      exact ⟨rfl, hw0⟩
    · rw [hcr]
      exact present_of_ne hr h.reader

theorem Together.step (h : Together id a r w t v) (h2 : 2 ≤ id) (hr : 2 ≤ r) (hw : 2 ≤ w)
    (hne : r ≠ w) (ho : o.ofEnds r w t = true) (he : execPipe id o t = some t') :
    Phase id a r w t' := by
  have hcall : o.ofPair r w t = true → execCall id o t = some t' → Phase id a r w t' :=
    fun ho hc => Or.inl (h.call hr hw ho hc he)
  cases o with
  | attachReader pid =>
    obtain ⟨hp, haway⟩ := Bool.and_eq_true_iff.mp ho
    obtain rfl := of_decide_eq_true hp
    have hends := fun k => h.ends.attachReader hne (of_decide_eq_true haway) (k := k)
    have hsolo := solo_step h.solo (ofEnds_call ho rfl) he
    obtain rfl := Option.some.inj he
    have hflow := flow_attach h.flow _ (sameRing_addReader v.pipe) pid
    rw [attachReader_eq h.flow.shows] at hsolo ⊢
    exact Or.inl ⟨_, hflow, hsolo, hends _, joined_ne_gone h.reader, joined_ne_gone h.writer⟩
  | attachWriter pid =>
    obtain ⟨hp, haway⟩ := Bool.and_eq_true_iff.mp ho
    obtain rfl := of_decide_eq_true hp
    have hends := fun k => h.ends.attachWriter hne (of_decide_eq_true haway) (k := k)
    have hsolo := solo_step h.solo (ofEnds_call ho rfl) he
    obtain rfl := Option.some.inj he
    have hflow := flow_attach h.flow _ (sameRing_addWriter v.pipe) pid
    rw [attachWriter_eq h.flow.shows] at hsolo ⊢
    exact Or.inl ⟨_, hflow, hsolo, hends _, joined_ne_gone h.reader, joined_ne_gone h.writer⟩
  | read n => exact hcall ho he
  | write data => exact hcall ho he
  | resume => exact hcall ho he
  | detachReader pid =>
    obtain ⟨hp, -⟩ := Bool.and_eq_true_iff.mp ho
    obtain rfl := of_decide_eq_true hp
    obtain rfl := Option.some.inj he
    refine Or.inr (Or.inr (Or.inr ⟨?_, Function.update_self ..⟩))
    show t.fetched <+: t.stored
    rw [h.flow.stream]
    exact List.prefix_append _ _
  | detachWriter pid =>
    obtain ⟨hp, hpres⟩ := Bool.and_eq_true_iff.mp ho
    obtain rfl := of_decide_eq_true hp
    obtain rfl := Option.some.inj he
    have hsplit := h.detachWriter h2 hne hpres
      (u := { t with k := (closePipe (Tp2So.detachWriter t.k id pid) id).2
                     cont := Function.update t.cont pid .gone }) rfl rfl rfl rfl
    rcases hsplit with hal | ⟨-, hdel⟩
    · exact Or.inr (Or.inl hal)
    · exact Or.inr (Or.inr (Or.inl hdel))
  | schedule fuel rsp =>
    obtain ⟨x, hx, rfl⟩ := Option.map_eq_some_iff.mp he
    exact Or.inl ⟨v, flow_schedule h.flow hx, h.solo, ⟨h.ends.reader, h.ends.writer, h.ends.sum⟩,
      h.reader, h.writer⟩

/-! ### the writer has gone -/

/-- a reader that is left alone never sleeps -/
theorem Alone.read (h : Alone id a r w t v) {res : ReadResult} {k : Kernel}
    (hc : readCall id o t = some (r, n, res, k)) :
    (∃ v', Alone id a r w (settleRead t (r, n, res, k)) v') ∧
      (res = .returned [] → 0 < n → t.stored = t.fetched) := by
  obtain ⟨-, b, p, hact, hpid, hcase⟩ := readCall_some hc
  have hne : w ≠ r := by
    rintro rfl
    rw [h.writer] at hcase
    rcases hcase with ⟨-, hq, -⟩ | ⟨-, c, hq, -⟩ <;> cases hq
  have hwr : ∀ c, Function.update t.cont r c w = .gone := fun c => by
    rw [Function.update_of_ne hne]
    exact h.writer
  have hsome : readResume t.k a n = (res, k) →
      (∃ v', Alone id a r w (settleRead t (r, n, res, k)) v') ∧
        (res = .returned [] → 0 < n → t.stored = t.fetched) := by
    intro hres
    obtain ⟨i, k', hi, hring, hres', hshows⟩ := readResume_shows h.shows h.bounded n
    obtain ⟨rfl, rfl⟩ := Prod.mk.inj (hres.symm.trans hres')
    have hends : (v.afterRead i (v.pipe.ring.take n != [])).pipe.ends = v.pipe.ends := ends_afterRead
    have hpipe : (v.afterRead i (v.pipe.ring.take n != [])).pipe.ring = v.pipe.ring.drop n ∧
        (v.afterRead i (v.pipe.ring.take n != [])).pipe.Bounded := by
      unfold PView.afterRead
      split
      · rw [PView.post_pipe]
        exact ⟨hring, hi, h.bounded.2⟩
      · exact ⟨hring, hi, h.bounded.2⟩
    unfold Pipe.ends at hends
    simp only [Prod.mk.injEq] at hends
    obtain ⟨-, hw1, -, hw2, -⟩ := hends
    refine ⟨⟨_, hshows, hpipe.2, ?_, ?_, ⟨hw1.trans h.noWriter.1, hw2.trans h.noWriter.2⟩, ?_,
      hwr _⟩, fun hr hn => ?_⟩
    · show t.stored = t.fetched ++ v.pipe.ring.take n ++ _
      rw [hpipe.1, List.append_assoc, List.take_append_drop]
      exact h.stream
    · show (Function.update t.cont r .idle r).InPipe a
      rw [Function.update_self]
      trivial
    · show (Function.update t.cont r .idle r).present = true
      rw [Function.update_self]
      rfl
    · have hnil : v.pipe.ring.take n = [] := ReadResult.returned.inj hr
      rcases List.take_eq_nil_iff.mp hnil with h0 | h0
      · omega
      · rw [h.stream, h0, List.append_nil]
  rcases hcase with ⟨-, hidle, hres⟩ | ⟨-, c, hcont, hres⟩
  · by_cases hring : v.pipe.ring = []
    · rw [readPipe_eof h.shows h.bounded hring h.noWriter] at hres
      obtain ⟨rfl, rfl⟩ := Prod.mk.inj hres
      refine ⟨⟨v, ?_⟩, fun _ _ => by rw [h.stream, hring, List.append_nil]⟩
      have hsame : settleRead t (r, n, .returned [], t.k) = t := by
        show { t with k := t.k, cont := Function.update t.cont r .idle,
                      fetched := t.fetched ++ [] } = t
        rw [← hidle, Function.update_eq_self, List.append_nil]
      rw [hsame]
      exact h
    · rw [readPipe_some h.shows h.bounded hring] at hres
      exact hsome hres
  · have hin := h.inPipe
    rw [hcont] at hin
    obtain rfl : c = a := hin
    exact hsome hres

theorem no_write_of_gone {c : Int × List UInt8 × Nat × WriteResult × Kernel} (hw : t.cont w = .gone)
    (ho : o.ofPair r w t = true) (hc : writeCall id o t = some c) : False := by
  obtain ⟨q, bs, m, res, k⟩ := c
  obtain ⟨hoff, b, p, -, -, hcase⟩ := writeCall_some hc
  obtain rfl := PipeOp.ofPair_offers ho hoff
  rw [hw] at hcase
  rcases hcase with ⟨data, -, hq, -⟩ | ⟨-, c, hq, -⟩ <;> cases hq

theorem no_read_of_gone {c : Int × Nat × ReadResult × Kernel} (hr : t.cont r = .gone)
    (ho : o.ofPair r w t = true) (hc : readCall id o t = some c) : False := by
  obtain ⟨q, m, res, k⟩ := c
  obtain ⟨hask, b, p, -, -, hcase⟩ := readCall_some hc
  obtain rfl := PipeOp.ofPair_asks ho hask
  rw [hr] at hcase
  rcases hcase with ⟨-, hq, -⟩ | ⟨-, c, hq, -⟩ <;> cases hq

theorem Alone.step (h : Alone id a r w t v) (ho : o.ofEnds r w t = true)
    (he : execPipe id o t = some t') : (∃ v', Alone id a r w t' v') ∨ Past r t' := by
  have hcall : o.ofPair r w t = true → execCall id o t = some t' → (∃ v', Alone id a r w t' v') ∨ Past r t' := by
    intro ho hx
    rcases execCall_some hx with ⟨⟨q, n, res, k⟩, hc, rfl⟩ | ⟨c, hc, rfl⟩
    · obtain rfl := PipeOp.ofPair_asks ho (readCall_some hc).1
      exact Or.inl (h.read hc).1
    · exact (no_write_of_gone h.writer ho hc).elim
  cases o with
  | attachReader pid =>
    obtain ⟨-, haway⟩ := Bool.and_eq_true_iff.mp ho
    exact absurd (of_decide_eq_true haway) (PipeCont.ne_away h.reader)
  | attachWriter pid =>
    obtain ⟨-, haway⟩ := Bool.and_eq_true_iff.mp ho
    exact absurd (h.writer.symm.trans (of_decide_eq_true haway)) (by simp)
  | read n => exact hcall ho he
  | write data => exact hcall ho he
  | resume => exact hcall ho he
  | detachReader pid =>
    obtain ⟨hp, -⟩ := Bool.and_eq_true_iff.mp ho
    obtain rfl := of_decide_eq_true hp
    obtain rfl := Option.some.inj he
    refine Or.inr ⟨?_, Function.update_self ..⟩
    show t.fetched <+: t.stored
    rw [h.stream]
    exact List.prefix_append _ _
  | detachWriter pid =>
    obtain ⟨-, hpres⟩ := Bool.and_eq_true_iff.mp ho
    exact absurd h.writer (PipeCont.ne_gone hpres)
  | schedule fuel rsp =>
    obtain ⟨x, hx, rfl⟩ := Option.map_eq_some_iff.mp he
    exact Or.inl ⟨v, shows_schedule h.shows hx, h.bounded, h.stream, h.inPipe, h.noWriter,
      h.reader, h.writer⟩

theorem Deleted.read (h : Deleted id r w t) {res : ReadResult} {k : Kernel}
    (hc : readCall id o t = some (r, n, res, k)) : res = .error ∧ k = t.k := by
  obtain ⟨-, b, p, -, -, hcase⟩ := readCall_some hc
  rcases hcase with ⟨-, -, hres⟩ | ⟨-, c, hq, -⟩
  · unfold readPipe at hres
    rw [h.noPipe] at hres
    obtain ⟨hres, hk⟩ := Prod.mk.inj hres
    exact ⟨hres.symm, hk.symm⟩
  · rcases h.reader with hr | hr <;> rw [hr] at hq <;> cases hq

theorem Deleted.step (h : Deleted id r w t) (hne : r ≠ w) (ho : o.ofEnds r w t = true)
    (he : execPipe id o t = some t') : Phase id a r w t' := by
  have hcall : o.ofPair r w t = true → execCall id o t = some t' → Phase id a r w t' := by
    intro ho hx
    have hgone := (absent_call hx (d := .gone) rfl w).mpr h.writer
    rcases execCall_some hx with ⟨⟨q, n, res, k⟩, hc, rfl⟩ | ⟨c, hc, rfl⟩
    · obtain rfl := PipeOp.ofPair_asks ho (readCall_some hc).1
      obtain ⟨rfl, rfl⟩ := h.read hc
      exact Or.inr (Or.inr (Or.inl ⟨h.pre, h.noPipe, Or.inr (Function.update_self ..), hgone⟩))
    · exact (no_write_of_gone h.writer ho hc).elim
  cases o with
  | attachReader pid =>
    obtain ⟨hp, haway⟩ := Bool.and_eq_true_iff.mp ho
    obtain rfl := of_decide_eq_true hp
    obtain rfl := Option.some.inj he
    have hsame : (attachReader t.k id).2 = t.k := congrArg Prod.snd (attachReader_absent h.noPipe)
    refine Or.inr (Or.inr (Or.inl ⟨h.pre, ?_, Or.inr (joined_self (of_decide_eq_true haway)), ?_⟩))
    · show getValidPipe (attachReader t.k id).2.pipes id = none
      rw [hsame]
      exact h.noPipe
    · exact (joined_other hne.symm).trans h.writer
  | attachWriter pid =>
    obtain ⟨-, haway⟩ := Bool.and_eq_true_iff.mp ho
    exact absurd (h.writer.symm.trans (of_decide_eq_true haway)) (by simp)
  | read n => exact hcall ho he
  | write data => exact hcall ho he
  | resume => exact hcall ho he
  | detachReader pid =>
    obtain ⟨hp, -⟩ := Bool.and_eq_true_iff.mp ho
    obtain rfl := of_decide_eq_true hp
    obtain rfl := Option.some.inj he
    exact Or.inr (Or.inr (Or.inr ⟨h.pre, Function.update_self ..⟩))
  | detachWriter pid =>
    obtain ⟨-, hpres⟩ := Bool.and_eq_true_iff.mp ho
    exact absurd h.writer (PipeCont.ne_gone hpres)
  | schedule fuel rsp =>
    obtain ⟨x, hx, rfl⟩ := Option.map_eq_some_iff.mp he
    exact Or.inr (Or.inr (Or.inl ⟨h.pre, h.noPipe, h.reader, h.writer⟩))

/-! ### the reader has gone -/

theorem Past.step (h : Past r t) (hne : r ≠ w) (ho : o.ofEnds r w t = true)
    (he : execPipe id o t = some t') : Past r t' := by
  have hcall : o.ofPair r w t = true → execCall id o t = some t' → Past r t' := by
    intro ho hx
    have hgone := (absent_call hx (d := .gone) rfl r).mpr h.reader
    have hstored := stored_call hx
    rcases execCall_some hx with ⟨c, hc, rfl⟩ | ⟨⟨q, bs, m, res, k⟩, hc, rfl⟩
    · exact (no_read_of_gone h.reader ho hc).elim
    · refine ⟨?_, hgone⟩
      have hf : (settleWrite t (q, bs, m, res, k)).fetched = t.fetched := by cases res <;> rfl
      rw [hf]
      exact h.pre.trans hstored
  cases o with
  | attachReader pid =>
    obtain ⟨-, haway⟩ := Bool.and_eq_true_iff.mp ho
    exact absurd (h.reader.symm.trans (of_decide_eq_true haway)) (by simp)
  | attachWriter pid =>
    obtain ⟨hp, haway⟩ := Bool.and_eq_true_iff.mp ho
    obtain rfl := of_decide_eq_true hp
    obtain rfl := Option.some.inj he
    exact ⟨h.pre, (joined_other hne).trans h.reader⟩
  | read n => exact hcall ho he
  | write data => exact hcall ho he
  | resume => exact hcall ho he
  | detachReader pid =>
    obtain ⟨-, hpres⟩ := Bool.and_eq_true_iff.mp ho
    exact absurd h.reader (PipeCont.ne_gone hpres)
  | detachWriter pid =>
    obtain ⟨hp, -⟩ := Bool.and_eq_true_iff.mp ho
    obtain rfl := of_decide_eq_true hp
    obtain rfl := Option.some.inj he
    exact ⟨h.pre, (Function.update_of_ne hne ..).trans h.reader⟩
  | schedule fuel rsp =>
    obtain ⟨x, hx, rfl⟩ := Option.map_eq_some_iff.mp he
    exact ⟨h.pre, h.reader⟩

/-! ## runs -/

/-- **One step** leads from one phase to one of them. -/
theorem phase_step (h2 : 2 ≤ id) (hr : 2 ≤ r) (hw : 2 ≤ w) (hne : r ≠ w) (h : Phase id a r w t)
    (ho : o.ofEnds r w t = true) (he : execPipe id o t = some t') : Phase id a r w t' := by
  rcases h with ⟨v, h⟩ | ⟨v, h⟩ | h | h
  · exact h.step h2 hr hw hne ho he
  · exact (h.step ho he).elim (fun h => Or.inr (Or.inl h)) fun h => Or.inr (Or.inr (Or.inr h))
  · exact h.step hne ho he
  · exact Or.inr (Or.inr (Or.inr (h.step hne ho he)))

/-- the read that a step completes is one of the reader's -/
theorem outcome_call {bs : List UInt8} (ho : o.ofEnds r w t = true)
    (hr : readOutcome id o t = some (n, bs)) :
    o.ofPair r w t = true ∧ ∃ k, readCall id o t = some (r, n, .returned bs, k) := by
  unfold readOutcome at hr
  split at hr
  · rename_i q m bs' k hcall
    obtain ⟨rfl, rfl⟩ := Prod.mk.inj (Option.some.inj hr)
    have hpair : o.ofPair r w t = true := by
      refine ofEnds_call ho ?_
      cases o with
      | detachReader pid => cases hcall
      | detachWriter pid => cases hcall
      | _ => rfl
    obtain rfl := PipeOp.ofPair_asks hpair (readCall_some hcall).1
    exact ⟨hpair, k, hcall⟩
  · exact absurd hr (by simp)

theorem Together.safe (h : Together id a r w t v) (hr : 2 ≤ r) (hw : 2 ≤ w) :
    StreamSafe id r w t := by
  refine ⟨?_, fun p hp _ => ?_, fun o n ho hout hn => ?_⟩
  · rw [h.flow.stream]
    exact List.prefix_append _ _
  · obtain rfl := Option.some.inj (h.flow.shows.pipe_eq.symm.trans hp)
    exact h.flow.stream
  · -- while the writer is there, or expected, nobody reads end of file
    obtain ⟨hpair, -⟩ := outcome_call ho hout
    obtain ⟨-, hw0, hx0⟩ := h.flow.eof (h.solo.allowed hr hw hpair) hout hn
    have hend := h.ends.writer
    unfold EndOk at hend
    split at hend <;> omega

theorem Alone.safe (h : Alone id a r w t v) : StreamSafe id r w t := by
  refine ⟨?_, fun p hp _ => ?_, fun o n ho hout hn => ⟨h.writer, ?_⟩⟩
  · rw [h.stream]
    exact List.prefix_append _ _
  · obtain rfl := Option.some.inj (h.shows.pipe_eq.symm.trans hp)
    exact h.stream
  · obtain ⟨-, k, hcall⟩ := outcome_call ho hout
    exact (h.read hcall).2 rfl hn

theorem Deleted.safe (h : Deleted id r w t) : StreamSafe id r w t := by
  refine ⟨h.pre, fun p hp _ => ?_, fun o n ho hout hn => ?_⟩
  · unfold PipeSys.pipe at hp
    rw [h.noPipe] at hp
    cases hp
  · obtain ⟨-, k, hcall⟩ := outcome_call ho hout
    exact absurd (h.read hcall).1 (by simp)

theorem Past.safe (h : Past r t) : StreamSafe id r w t := by
  refine ⟨h.pre, fun p _ hg => absurd h.reader hg, fun o n ho hout hn => ?_⟩
  obtain ⟨hpair, k, hcall⟩ := outcome_call ho hout
  exact (no_read_of_gone h.reader hpair hcall).elim

/-- ids below `2` are not handed out -/
theorem PipeSys.Opened.two_le (h : t.Opened id) : 2 ≤ id := by
  obtain ⟨k, buffer, hk, hr, hw, ho, -⟩ := h
  have hid := (openPipe_eq hk hr hw ho).1
  have hlo := hk.pipes.lo
  omega

theorem together_opened (h : t.Opened id) : ∃ a v, Together id a r w t v := by
  obtain ⟨k, buffer, hflow⟩ := flow_opened h
  obtain ⟨_, _, -, -, -, -, hc, -⟩ := h
  refine ⟨_, _, hflow, fun q s hq => ?_, ⟨?_, ?_, rfl⟩, ?_, ?_⟩
  · rw [hc q] at hq
    cases hq
  · rw [hc r]
    exact ⟨rfl, rfl⟩
  · rw [hc w]
    exact ⟨rfl, rfl⟩
  · rw [hc r]
    exact fun e => by cases e
  · rw [hc w]
    exact fun e => by cases e

/-- **The stream of a two-process pipeline**, in every run, whatever is transferred and whenever an
end detaches. -/
theorem stream_run {os : List PipeOp} (h₀ : t.Opened id) (hr : 2 ≤ r) (hw : 2 ≤ w) (hne : r ≠ w)
    (h : Runs (execPipe id) (fun o t => o.ofEnds r w t) os t t') : StreamSafe id r w t' := by
  obtain ⟨a, v, hv⟩ := together_opened (r := r) (w := w) h₀
  have hphase : Phase id a r w t' := Runs.inv (I := Phase id a r w)
    (fun o t u hp ho he => phase_step h₀.two_le hr hw hne hp ho he) h (Or.inl ⟨v, hv⟩)
  rcases hphase with ⟨v, h⟩ | ⟨v, h⟩ | h | h
  · exact h.safe hr hw
  · exact h.safe
  · exact h.safe
  · exact h.safe

end

/-- the reader `3` sleeps, the writer `2` writes two bytes and detaches, and `3` gets the first -/
def shortStream : List PipeOp :=
  sleepyReader ++ [.write [7, 8], .detachWriter 2, .schedule 8 16400, .schedule 8 32800,
    .schedule 8 8200, .resume]

theorem stream_run_short : ∃ t t', t.Opened 2 ∧
    Runs (execPipe 2) (fun o t => o.ofEnds 3 2 t) shortStream t t' ∧ StreamSafe 2 3 2 t' ∧
    t'.fetched = [7] ∧ t'.stored = [7, 8] := by
  have hrun : ((runIf execSem SemOp.clean threeUsers (SemSys.boot 0 [])).bind fun s =>
      (runIf (execPipe 2) (fun o t => o.ofEnds 3 2 t) shortStream (.start s.k fun _ => 0)).map
      fun t => (locateSemaphoreByName s.k.sems (buildSemName 2 'R'),
        locateSemaphoreByName s.k.sems (buildSemName 2 'W'), (openPipe s.k fun _ => 0).1,
        t.fetched, t.stored)) = some (none, none, 2, [7], [7, 8]) := by decide +kernel
  obtain ⟨s, hs, hrun⟩ := Option.bind_eq_some_iff.mp hrun
  obtain ⟨t', ht, hv⟩ := Option.map_eq_some_iff.mp hrun
  simp only [Prod.mk.injEq] at hv
  obtain ⟨hr, hw, hid, hf, hst⟩ := hv
  have hopen := opened_start (sound_run (runs_of_runIf hs)) hr hw hid
  have hruns := runs_of_runIf ht
  exact ⟨_, t', hopen, hruns, stream_run hopen (by decide) (by decide) (by decide) hruns, hf, hst⟩

end Tp2So
