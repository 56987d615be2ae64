import Tp2So.Pipes.Relief
import Tp2So.Pipes.Composition

/-!
# A pipeline whose left program has ended

The steps of a pipeline are gentle as long as the right program has not ended, so that nobody waits for an
end that has gone: when the left program ends, the right one is woken, and it never sleeps again.  If it
has attached its end by then, the pipe is there until it ends, and each of its steps takes it further; if
it has not, the pipe is deleted, `readPipe` returns `-1`, and `getchar` tries again for ever.

* `gentle_both`, `gentle_alone`   the steps of one reader and one writer are gentle;
* `Ran.afloat_step`, `Ran.awake`   so the end of the writer leaves nobody asleep;
* `Attended`, `attended_step`   the reader has attached before the writer goes;
* `pipeline_calls`   the steps of a pipeline, as steps of its pipe;
* `Composed.next_char`   what is next in the ring is next in the text of the left program;
* `right_progress`, `pipeline_awake`.
-/

set_option linter.unusedVariables false

namespace Tp2So

/-! ## gentle steps -/

section
variable {id a : Nat} {t t' t₀ : PipeSys} {v : PView} {o : PipeOp} {q r w : Int}

theorem endOk_le {c : PipeCont} {m e : Nat} (h : EndOk c m e) : m ≤ 1 := by
  unfold EndOk at h
  split at h <;> omega

theorem gentle_transfer (hask : ∀ q m, o.asks t = some (q, m) → 2 ≤ q)
    (hoff : ∀ q bs, o.offers t = some (q, bs) → 2 ≤ q ∧ o.fits id t bs = true) :
    (((o.asks t).all fun x => 2 ≤ x.1) &&
      (o.offers t).all fun x => 2 ≤ x.1 && o.fits id t x.2) = true := by
  refine Bool.and_eq_true_iff.mpr ⟨?_, ?_⟩
  · cases h : o.asks t with
    | none => rfl
    | some x => exact decide_eq_true (hask x.1 x.2 h)
  · cases h : o.offers t with
    | none => rfl
    | some x =>
      obtain ⟨h2, hfits⟩ := hoff x.1 x.2 h
      exact Bool.and_eq_true_iff.mpr ⟨decide_eq_true h2, hfits⟩

theorem Flow.queue_le {s : Side} (h : Flow id a t v) (hs : Solo r w t) :
    (v.q s).length ≤ 1 ∧ (v.q s).erase (owner r w s) = [] := by
  have hall : ∀ q ∈ v.q s, q = owner r w s := fun q hq => hs q s (h.queued s q hq).2
  constructor
  · cases hq : v.q s with
    | nil => exact Nat.zero_le 1
    | cons x l =>
      cases l with
      | nil => exact Nat.le_refl 1
      | cons y l =>
        have hnd := h.nodup s
        have hx := hall x (by rw [hq]; exact List.mem_cons_self)
        have hy := hall y (by rw [hq]; exact List.mem_cons_of_mem _ List.mem_cons_self)
        rw [hq, hx, hy] at hnd
        exact absurd List.mem_cons_self (List.nodup_cons.mp hnd).1
  · apply List.eq_nil_iff_forall_not_mem.mpr
    intro q hq
    obtain ⟨hne, hm⟩ := (h.nodup s).mem_erase_iff.mp hq
    exact hne (hall q hm)

/-- **The writer leaves a reader that is woken.** -/
theorem frees_writer (h : Flow id a t v) (hp : Pair v) (hs : Solo r w t) (he : Ends r w t v.pipe)
    (hw : (t.cont w).present = true) : t.frees (dropWriter v.pipe) .rd w = true := by
  have hw1 := (endOk_present he.writer (PipeCont.ne_away hw)).1
  have hdrop := dropWriter_last hw1
  have hsem : ∀ s, (dropWriter v.pipe).sem s = v.pipe.sem s := by
    intro s
    rw [hdrop]
    cases s <;> rfl
  have hother := (h.queue_le (s := .wr) hs).2
  have hself : ((v.q .rd).erase w).length
      ≤ (dropWriter v.pipe).waking .rd + (dropWriter v.pipe).closing := by
    by_cases hq : v.q .rd = []
    · rw [hq]
      exact Nat.zero_le _
    · have hwake : (dropWriter v.pipe).waking .rd = 1 := by
        unfold Pipe.waking
        rw [hdrop]
        exact if_pos ⟨rfl, (hp.rd hq).2⟩
      have hlen := (h.queue_le (s := .rd) hs).1
      have herase : ((v.q .rd).erase w).length ≤ (v.q .rd).length := List.length_erase_le
      omega
  unfold PipeSys.frees
  rw [hsem, hsem, h.shows.waiters_eq, h.shows.waiters_eq]
  refine Bool.and_eq_true_iff.mpr ⟨?_, ?_⟩
  · exact Bool.or_eq_true_iff.mpr (Or.inr (decide_eq_true hself))
  · refine Bool.or_eq_true_iff.mpr (Or.inr (decide_eq_true ?_))
    show ((v.q .wr).erase (owner r w .wr)).length ≤ _
    rw [hother]
    exact Nat.zero_le _

/-- while both are there, whatever they do is gentle, but for the end of the reader -/
theorem gentle_both (h : Flow id a t v) (hp : Pair v) (hs : Solo r w t) (he : Ends r w t v.pipe)
    (hr : 2 ≤ r) (hw : 2 ≤ w) (hrg : t.cont r ≠ .gone) (ho : o.ofEnds r w t = true)
    (hnot : ∀ pid, o ≠ .detachReader pid) : o.gentle id t = true := by
  have hpipe := h.shows.pipe_eq
  have hended : v.pipe.ended .wr = false := by
    unfold Pipe.ended
    by_cases hc : t.cont r = .away
    · have hx := he.reader
      rw [hc] at hx
      simp only [(endOk_away hx).2]
      exact Bool.and_false _
    · simp only [(endOk_present he.reader hc).1]
      rfl
  have htransfer : o.ofPair r w t = true → (((o.asks t).all fun x => 2 ≤ x.1) &&
      (o.offers t).all fun x => 2 ≤ x.1 && o.fits id t x.2) = true := by
    intro hpair
    apply gentle_transfer
    · intro q m hq
      rw [PipeOp.ofPair_asks hpair hq]
      exact hr
    · intro q bs hq
      refine ⟨PipeOp.ofPair_offers hpair hq ▸ hw, ?_⟩
      unfold PipeOp.fits
      rw [hpipe, Option.all_some, hended]
      rfl
  cases o with
  | attachReader pid =>
    have hle := endOk_le he.reader
    simp only [PipeOp.gentle, hpipe, Option.all_some]
    exact decide_eq_true (by omega)
  | attachWriter pid =>
    have hle := endOk_le he.writer
    simp only [PipeOp.gentle, hpipe, Option.all_some]
    exact decide_eq_true (by omega)
  | read n => exact htransfer ho
  | write data => exact htransfer ho
  | resume => exact htransfer ho
  | detachReader pid => exact absurd rfl (hnot pid)
  | detachWriter pid =>
    obtain ⟨hpid, hpres⟩ := Bool.and_eq_true_iff.mp ho
    obtain rfl := of_decide_eq_true hpid
    simp only [PipeOp.gentle, hpipe, Option.all_some]
    exact frees_writer h hp hs he hpres
  | schedule fuel rsp => rfl

theorem offers_not_gone {bs : List UInt8} (h : o.offers t = some (q, bs)) : t.cont q ≠ .gone := by
  unfold PipeOp.offers at h
  split at h
  · obtain ⟨hidle, hq⟩ := Option.ite_none_right_eq_some.mp h
    obtain ⟨rfl, -⟩ := Prod.mk.inj (Option.some.inj hq)
    rw [hidle]
    simp
  · split at h
    · rename_i hc
      obtain ⟨rfl, -⟩ := Prod.mk.inj (Option.some.inj h)
      rw [hc]
      simp
    · cases h
  · cases h

theorem gentle_alone (h : Alone id a r w t v) (hr : 2 ≤ r) (ho : o.ofEnds r w t = true)
    (hnot : ∀ pid, o ≠ .detachReader pid) : o.gentle id t = true := by
  have htransfer : o.ofPair r w t = true → (((o.asks t).all fun x => 2 ≤ x.1) &&
      (o.offers t).all fun x => 2 ≤ x.1 && o.fits id t x.2) = true := by
    intro hpair
    apply gentle_transfer
    · intro q m hq
      rw [PipeOp.ofPair_asks hpair hq]
      exact hr
    · intro q bs hq
      obtain rfl := PipeOp.ofPair_offers hpair hq
      exact absurd h.writer (offers_not_gone hq)
  cases o with
  | attachReader pid =>
    obtain ⟨-, haway⟩ := Bool.and_eq_true_iff.mp ho
    exact absurd (of_decide_eq_true haway) (PipeCont.ne_away h.reader)
  | attachWriter pid =>
    obtain ⟨-, haway⟩ := Bool.and_eq_true_iff.mp ho
    exact absurd (h.writer.symm.trans (of_decide_eq_true haway)) (by simp)
  | read n => exact htransfer ho
  | write data => exact htransfer ho
  | resume => exact htransfer ho
  | detachReader pid => exact absurd rfl (hnot pid)
  | detachWriter pid =>
    obtain ⟨-, hpres⟩ := Bool.and_eq_true_iff.mp ho
    exact absurd h.writer (PipeCont.ne_gone hpres)
  | schedule fuel rsp => rfl

/-- **One step**, until the reader ends. -/
theorem Ran.afloat_step (h : Ran id r w t₀ t) (h₀ : t₀.Opened id) (hr : 2 ≤ r) (hw : 2 ≤ w)
    (hne : r ≠ w) (ha : ∃ a, Afloat id a t) (hrg : t'.cont r ≠ .gone) (ho : o.ofEnds r w t = true)
    (he : execPipe id o t = some t') : ∃ a, Afloat id a t' := by
  have hrg' : t.cont r ≠ .gone := fun e => hrg (gone_stays he e)
  have hnot : ∀ pid, o ≠ .detachReader pid := by
    rintro pid rfl
    obtain ⟨hpid, -⟩ := Bool.and_eq_true_iff.mp ho
    obtain rfl := of_decide_eq_true hpid
    obtain rfl := Option.some.inj he
    exact hrg (Function.update_self ..)
  obtain ⟨a, ⟨v, hst⟩ | her⟩ := ha
  · have hgentle : o.gentle id t = true := by
      obtain ⟨a', ⟨v', hp⟩ | ⟨v', hp⟩ | hp | hp⟩ := h.phase h₀ hr hw hne
      · obtain ⟨os, hos⟩ := h.both hrg' hp.writer
        obtain ⟨b, u, hu, hpair, hs⟩ := pair_run h₀ hr hw hos
        have hends : Ends r w t u.pipe := by
          rw [Option.some.inj (hu.shows.pipe_eq.symm.trans hp.flow.shows.pipe_eq)]
          exact hp.ends
        exact gentle_both hu hpair hs hends hr hw hrg' ho hnot
      · exact gentle_alone hp hr ho hnot
      · exact absurd (hp.noPipe.symm.trans hst.shows.valid) (by simp)
      · exact absurd hp.reader hrg'
    exact ⟨a, hst.step h₀.two_le hgentle he⟩
  · exact ⟨a, Or.inr (her.step he)⟩

/-- the reader that the writer has left is not asleep -/
theorem Ran.awake (h : Ran id r w t₀ t) (h₀ : t₀.Opened id) (hr : 2 ≤ r) (hw : 2 ≤ w) (hne : r ≠ w)
    (ha : ∃ a, Afloat id a t) (hwg : t.cont w = .gone) (hrg : t.cont r ≠ .gone) :
    t.blockedIn r .rd = false := by
  obtain ⟨a, ⟨v, hst⟩ | her⟩ := ha
  · obtain ⟨a', ⟨v', hp⟩ | ⟨v', hp⟩ | hp | hp⟩ := h.phase h₀ hr hw hne
    · exact absurd hwg hp.writer
    · have hended : v.pipe.ended .rd = true := by
        rw [Option.some.inj (hst.shows.pipe_eq.symm.trans hp.shows.pipe_eq)]
        unfold Pipe.ended
        simp only [hp.noWriter.1, hp.noWriter.2]
        rfl
      unfold PipeSys.blockedIn
      refine Bool.eq_false_iff.mpr fun hb => ?_
      obtain ⟨hside, hslot⟩ := Bool.and_eq_true_iff.mp hb
      rw [hst.shows.slot] at hslot
      have hm := hst.tide.listed .rd r (of_decide_eq_true hside) hslot
      rw [hst.dry .rd hended] at hm
      exact absurd hm List.not_mem_nil
    · exact absurd (hp.noPipe.symm.trans hst.shows.valid) (by simp)
    · exact absurd hp.reader hrg
  · exact her.awake r .rd

/-! ## the reader has attached before the writer goes -/

/-- there is a pipe for the reader, until it has gone -/
def Attended (id a : Nat) (r w : Int) (t : PipeSys) : Prop :=
  (∃ v, Together id a r w t v ∧ t.cont r ≠ .away) ∨ (∃ v, Alone id a r w t v) ∨ Past r t

theorem joined_ne_away {cont : Int → PipeCont} {q' : Int} (h : cont q' ≠ .away) :
    joined cont q q' ≠ .away := by
  by_cases e : q' = q
  · subst e
    unfold joined
    rw [if_neg h]
    exact h
  · rw [joined_other e]
    exact h

theorem not_away_stays (he : execPipe id o t = some t') (h : t.cont q ≠ .away) :
    t'.cont q ≠ .away := by
  have hgone : ∀ pid, Function.update t.cont pid .gone q ≠ .away := by
    intro pid
    by_cases e : q = pid
    · rw [e, Function.update_self]
      simp
    · rw [Function.update_of_ne e]
      exact h
  cases o with
  | attachReader pid => exact Option.some.inj he ▸ joined_ne_away h
  | attachWriter pid => exact Option.some.inj he ▸ joined_ne_away h
  | read n => exact fun e => h ((absent_call he rfl q).mp e)
  | write data => exact fun e => h ((absent_call he rfl q).mp e)
  | resume => exact fun e => h ((absent_call he rfl q).mp e)
  | detachReader pid => exact Option.some.inj he ▸ hgone pid
  | detachWriter pid => exact Option.some.inj he ▸ hgone pid
  | schedule fuel rsp =>
    obtain ⟨x, -, rfl⟩ := Option.map_eq_some_iff.mp he
    exact h

theorem not_gone_stays (he : execPipe id o t = some t') (h : t.cont q ≠ .gone)
    (ho : o.transfers = true) : t'.cont q ≠ .gone := by
  cases o with
  | attachReader pid => exact Option.some.inj he ▸ joined_ne_gone h
  | attachWriter pid => exact Option.some.inj he ▸ joined_ne_gone h
  | read n => exact fun e => h ((absent_call he rfl q).mp e)
  | write data => exact fun e => h ((absent_call he rfl q).mp e)
  | resume => exact fun e => h ((absent_call he rfl q).mp e)
  | detachReader pid => cases ho
  | detachWriter pid => cases ho
  | schedule fuel rsp =>
    obtain ⟨x, -, rfl⟩ := Option.map_eq_some_iff.mp he
    exact h

theorem Together.attended (h : Together id a r w t v) (h2 : 2 ≤ id) (hr : 2 ≤ r) (hw : 2 ≤ w)
    (hne : r ≠ w) (haway : t.cont r ≠ .away) (ho : o.ofEnds r w t = true)
    (he : execPipe id o t = some t') : Attended id a r w t' := by
  have haway' : t'.cont r ≠ .away := not_away_stays he haway
  have hphase := h.step h2 hr hw hne ho he
  have hcall : o.transfers = true → Attended id a r w t' := by
    intro htransfers
    have hwg := not_gone_stays he h.writer htransfers
    rcases hphase with ⟨v', h'⟩ | h' | h' | h'
    · exact Or.inl ⟨v', h', haway'⟩
    · exact Or.inr (Or.inl h')
    · exact absurd h'.writer hwg
    · exact Or.inr (Or.inr h')
  cases o with
  | detachReader pid =>
    obtain ⟨hp, -⟩ := Bool.and_eq_true_iff.mp ho
    obtain rfl := of_decide_eq_true hp
    obtain rfl := Option.some.inj he
    refine Or.inr (Or.inr ⟨?_, Function.update_self ..⟩)
    show t.fetched <+: t.stored
    rw [h.flow.stream]
    exact List.prefix_append _ _
  | detachWriter pid =>
    obtain ⟨hp, hpres⟩ := Bool.and_eq_true_iff.mp ho
    obtain rfl := of_decide_eq_true hp
    obtain rfl := Option.some.inj he
    rcases h.detachWriter h2 hne hpres
      (u := { t with k := (closePipe (Tp2So.detachWriter t.k id pid) id).2
                     cont := Function.update t.cont pid .gone }) rfl rfl rfl rfl with hal | ⟨hr', -⟩
    · exact Or.inr (Or.inl hal)
    · exact absurd hr' haway
  | _ => exact hcall rfl

/-- **One step** keeps the pipe for the reader. -/
theorem attended_step (h2 : 2 ≤ id) (hr : 2 ≤ r) (hw : 2 ≤ w) (hne : r ≠ w) (h : Attended id a r w t)
    (ho : o.ofEnds r w t = true) (he : execPipe id o t = some t') : Attended id a r w t' := by
  rcases h with ⟨v, h, haway⟩ | ⟨v, h⟩ | h
  · exact h.attended h2 hr hw hne haway ho he
  · exact Or.inr (h.step ho he)
  · exact Or.inr (Or.inr (h.step hne ho he))

end

/-! ## the steps of a pipeline -/

section
variable {σ τ : Type} {L : σ → Action σ UInt8 UInt8} {R : τ → Action τ UInt8 UInt8}
  {typed : Nat → Option UInt8} {id : Nat} {r w : Int} {t₀ : PipeSys} {s : σ} {u : τ}
  {t t' : Pipeline σ τ}

theorem onCpu_asks {y : PipeSys} {q q' : Int} {n m : Nat} (h : y.onCpu q = true)
    (ha : PipeOp.asks (.read n) y = some (q', m)) : q' = q := by
  obtain ⟨b, p, hact, rfl⟩ := onCpu_actor h
  simp only [PipeOp.asks, hact] at ha
  obtain ⟨-, hq⟩ := Option.ite_none_right_eq_some.mp ha
  exact (Prod.mk.inj (Option.some.inj hq)).1.symm

theorem onCpu_offers {y : PipeSys} {q q' : Int} {data bs : List UInt8} (h : y.onCpu q = true)
    (ho : PipeOp.offers (.write data) y = some (q', bs)) : q' = q := by
  obtain ⟨b, p, hact, rfl⟩ := onCpu_actor h
  simp only [PipeOp.offers, hact] at ho
  obtain ⟨-, hq⟩ := Option.ite_none_right_eq_some.mp ho
  exact (Prod.mk.inj (Option.some.inj hq)).1.symm

theorem resume_asks {y : PipeSys} {q : Int} {n : Nat} (hs : y.Single r w)
    (ha : PipeOp.asks .resume y = some (q, n)) : q = r := by
  unfold PipeOp.asks at ha
  split at ha
  · rename_i he _
    cases he
  · split at ha
    · rename_i hc
      obtain ⟨rfl, -⟩ := Prod.mk.inj (Option.some.inj ha)
      exact (hs.reading hc).1
    · cases ha
  · cases ha

theorem resume_offers {y : PipeSys} {q : Int} {bs : List UInt8} (hs : y.Single r w)
    (ho : PipeOp.offers .resume y = some (q, bs)) : q = w := by
  unfold PipeOp.offers at ho
  split at ho
  · rename_i he _
    cases he
  · split at ho
    · rename_i hc
      obtain ⟨rfl, -⟩ := Prod.mk.inj (Option.some.inj ho)
      exact (hs.writing hc).1
    · cases ho
  · cases ho

/-- a step of a pipeline is a step of its pipe, or one that does not touch it -/
theorem pipeline_calls {op : PipelineOp} (hs : t.sys.Single r w)
    (he : execPipeline L R typed id r w op t = some t') :
    t'.sys = t.sys ∨ ∃ o, PipeOp.ofEnds r w o t.sys = true ∧ execPipe id o t.sys = some t'.sys := by
  have hattach : ∀ q, t.sys.cont q = .away →
      (decide (q = q) && decide (t.sys.cont q = .away)) = true := fun q hq => by
    rw [decide_eq_true rfl, decide_eq_true hq]
    rfl
  have hdetach : ∀ q, t.sys.cont q = .idle → (decide (q = q) && (t.sys.cont q).present) = true :=
    fun q hq => by
      rw [hq, decide_eq_true rfl]
      rfl
  cases op with
  | attachReader =>
    obtain ⟨haway, hx⟩ := Option.ite_none_right_eq_some.mp he
    obtain ⟨sys, hexec, rfl⟩ := Option.map_eq_some_iff.mp hx
    exact Or.inr ⟨.attachReader r, hattach r haway, hexec⟩
  | attachWriter =>
    obtain ⟨haway, hx⟩ := Option.ite_none_right_eq_some.mp he
    obtain ⟨sys, hexec, rfl⟩ := Option.map_eq_some_iff.mp hx
    exact Or.inr ⟨.attachWriter w, hattach w haway, hexec⟩
  | left =>
    obtain ⟨hc, hx⟩ := Option.ite_none_right_eq_some.mp he
    obtain ⟨hcpu, hidle⟩ := Bool.and_eq_true_iff.mp hc
    unfold leftStep at hx
    split at hx
    · rename_i b rest hpend
      obtain ⟨sys, hexec, rfl⟩ := Option.map_eq_some_iff.mp hx
      exact Or.inr ⟨.write [b], (ofEnds_of_calls (Or.inr (Or.inl ⟨_, rfl⟩))
        (fun q m hq => by cases hq) fun q bs hq => onCpu_offers hcpu hq).1, hexec⟩
    · split at hx
      · obtain rfl := Option.some.inj hx
        exact Or.inl rfl
      · obtain rfl := Option.some.inj hx
        exact Or.inl rfl
      · obtain ⟨sys, hexec, rfl⟩ := Option.map_eq_some_iff.mp hx
        exact Or.inr ⟨.detachWriter w, hdetach w (of_decide_eq_true hidle), hexec⟩
  | right =>
    obtain ⟨hc, hx⟩ := Option.ite_none_right_eq_some.mp he
    obtain ⟨hcpu, hidle⟩ := Bool.and_eq_true_iff.mp hc
    unfold rightStep at hx
    split at hx
    · obtain rfl := Option.some.inj hx
      exact Or.inl rfl
    · split at hx
      · obtain ⟨sys, hexec, rfl⟩ := Option.map_eq_some_iff.mp hx
        exact Or.inr ⟨.read 1, (ofEnds_of_calls (Or.inl ⟨_, rfl⟩)
          (fun q m hq => onCpu_asks hcpu hq) fun q bs hq => by cases hq).1, hexec⟩
      · obtain rfl := Option.some.inj hx
        exact Or.inl rfl
      · obtain ⟨sys, hexec, rfl⟩ := Option.map_eq_some_iff.mp hx
        exact Or.inr ⟨.detachReader r, hdetach r (of_decide_eq_true hidle), hexec⟩
  | resume =>
    obtain ⟨sys, hexec, rfl⟩ := Option.map_eq_some_iff.mp he
    exact Or.inr ⟨.resume, (ofEnds_of_calls (Or.inr (Or.inr rfl)) (fun q m hq => resume_asks hs hq)
      fun q bs hq => resume_offers hs hq).1, hexec⟩
  | schedule fuel rsp =>
    obtain ⟨sys, hexec, rfl⟩ := Option.map_eq_some_iff.mp he
    exact Or.inr ⟨.schedule fuel rsp, rfl, hexec⟩

/-! ## runs -/

/-- until the right program ends -/
theorem afloat_run {os : List PipelineOp} (h₀ : t₀.Opened id) (hr : 2 ≤ r) (hw : 2 ≤ w) (hne : r ≠ w)
    (hrun : Runs (execPipeline L R typed id r w) (fun _ _ => True) os (.start t₀ s u) t) :
    Composed L R typed id r w t₀ s u t ∧ (t.sys.cont r ≠ .gone → ∃ a, Afloat id a t.sys) := by
  have hstart : Runs (execPipeline L R typed id r w) (fun _ _ => True) [] (.start t₀ s u) (.start t₀ s u) :=
    rfl
  refine Runs.inv (I := fun t => Composed L R typed id r w t₀ s u t ∧
    (t.sys.cont r ≠ .gone → ∃ a, Afloat id a t.sys)) (fun o t t' h _ he => ?_) hrun
    ⟨composed_run h₀ hr hw hne hstart, fun _ => afloat_opened h₀⟩
  obtain ⟨hc, ha⟩ := h
  refine ⟨composed_step hc h₀ hr hw hne he, fun hrg => ?_⟩
  rcases pipeline_calls hc.ran.single he with hsame | ⟨o, ho, hexec⟩
  · rw [hsame] at hrg ⊢
    exact ha hrg
  · exact hc.ran.afloat_step h₀ hr hw hne (ha fun e => hrg (gone_stays hexec e)) hrg ho hexec

/-- until the right program ends, from a state in which it has attached and the left one is there -/
theorem attended_run {os os' : List PipelineOp} {t₁ : Pipeline σ τ} (h₀ : t₀.Opened id) (hr : 2 ≤ r)
    (hw : 2 ≤ w) (hne : r ≠ w)
    (hrun : Runs (execPipeline L R typed id r w) (fun _ _ => True) os (.start t₀ s u) t₁)
    (haway : t₁.sys.cont r ≠ .away) (hwg : t₁.sys.cont w ≠ .gone)
    (hrun' : Runs (execPipeline L R typed id r w) (fun _ _ => True) os' t₁ t) :
    ∃ a, Attended id a r w t.sys := by
  have hc₁ := composed_run h₀ hr hw hne hrun
  obtain ⟨a, hphase⟩ := hc₁.ran.phase h₀ hr hw hne
  have hstart : Attended id a r w t₁.sys := by
    rcases hphase with ⟨v, h⟩ | h | h | h
    · exact Or.inl ⟨v, h, haway⟩
    · exact Or.inr (Or.inl h)
    · exact absurd h.writer hwg
    · exact Or.inr (Or.inr h)
  refine ⟨a, (Runs.inv (I := fun t => Composed L R typed id r w t₀ s u t ∧ Attended id a r w t.sys)
    (fun o t t' h _ he => ?_) hrun' ⟨hc₁, hstart⟩).2⟩
  obtain ⟨hc, ha⟩ := h
  refine ⟨composed_step hc h₀ hr hw hne he, ?_⟩
  rcases pipeline_calls hc.ran.single he with hsame | ⟨o, ho, hexec⟩
  · rw [hsame]
    exact ha
  · exact attended_step h₀.two_le hr hw hne ha ho hexec

/-! ## the right program goes on -/

theorem Alone.readPipe {a : Nat} {y : PipeSys} {v : PView} (h : Alone id a r w y v) (n : Nat) :
    ∃ k, Tp2So.readPipe y.k id n = (.returned (v.pipe.ring.take n), k) := by
  by_cases hring : v.pipe.ring = []
  · rw [hring, List.take_nil]
    exact ⟨y.k, readPipe_eof h.shows h.bounded hring h.noWriter n⟩
  · obtain ⟨i, k, -, -, hres, -⟩ := readResume_shows h.shows h.bounded n
    exact ⟨k, (readPipe_some h.shows h.bounded hring n).trans hres⟩

/-- **What is next in the ring** is next in the text of the left program. -/
theorem Composed.next_char {a : Nat} {v : PView} (h : Composed L R typed id r w t₀ s u t)
    (hal : Alone id a r w t.sys v) :
    textStream t.left.out t.right.reads = (v.pipe.ring.take 1).head? := by
  have hrg : t.sys.cont r ≠ .gone := PipeCont.ne_gone hal.reader
  have hout : t.left.out = t.sys.fetched ++ v.pipe.ring := by
    rw [h.books hrg, hal.writer, hal.stream]
    exact List.append_nil _
  show t.left.out[t.right.reads]? = _
  rcases h.reads with he | ⟨-, hall, hle⟩
  · rw [hout, he, List.getElem?_append_right (Nat.le_refl _), Nat.sub_self]
    cases v.pipe.ring with
    | nil => rfl
    | cons c l => rfl
  · -- all of it has been read
    have hnil : v.pipe.ring = [] := List.self_eq_append_right.mp (hall.trans hout)
    rw [hnil, ← hall]
    exact List.getElem?_eq_none hle

/-- the job has made a step on the text of the left program, or has given up its end -/
def Pipeline.goesOn (R : τ → Action τ UInt8 UInt8) (r : Int) (t t' : Pipeline σ τ) : Prop :=
  t.right.step R (textStream t.left.out) = some t'.right ∨
    t.right.Finished R ∧ t'.right = t.right ∧ t'.sys.cont r = .gone

/-- a read that returns takes the job one step further -/
theorem Composed.goesOn_read {a : Nat} {v : PView} {o : PipeOp} {kn : Kernel}
    (h : Composed L R typed id r w t₀ s u t) (hal : Alone id a r w t.sys v)
    (hc : readCall id o t.sys = some (r, 1, .returned (v.pipe.ring.take 1), kn))
    (hpend : t.right.pending = []) {next : Option UInt8 → τ} (hn : R t.right.state = .getchar next) :
    t.right.step R (textStream t.left.out) = some (t.right.received R (readOutcome id o t.sys)) := by
  have hout : readOutcome id o t.sys = some (1, v.pipe.ring.take 1) := by
    unfold readOutcome
    rw [hc]
  rw [hout, received_got hn, Job.step_getchar hpend hn, h.next_char hal]

theorem execPipe_returned {o : PipeOp} {bs : List UInt8} {k : Kernel}
    (hc : readCall id o t.sys = some (r, 1, .returned bs, k))
    (ho : execPipe id o t.sys = execCall id o t.sys) :
    execPipe id o t.sys = some (settleRead t.sys (r, 1, .returned bs, k)) := by
  rw [ho]
  unfold execCall
  rw [hc]

/-- a `getchar` that was asleep returns -/
theorem right_resumes {a c n : Nat} {v : PView} (h : Composed L R typed id r w t₀ s u t)
    (hal : Alone id a r w t.sys v) (hcpu : t.sys.onCpu r = true) (hc : t.sys.cont r = .reading c n) :
    ∃ t', execPipeline L R typed id r w .resume t = some t' ∧ t.goesOn R r t' := by
  obtain ⟨b, p, hact, hpid⟩ := onCpu_actor hcpu
  obtain ⟨-, rfl⟩ := h.ran.single.reading hc
  obtain ⟨hpend, next, hn⟩ := h.getting c 1 hc
  have hin := hal.inPipe
  rw [hc] at hin
  obtain rfl : c = a := hin
  obtain ⟨i, k, -, -, hres, -⟩ := readResume_shows hal.shows hal.bounded 1
  have hcall : readCall id .resume t.sys = some (r, 1, .returned (v.pipe.ring.take 1), k) := by
    unfold readCall
    simp only [hact, hpid, hc, hres]
  refine ⟨{ t with
    sys := settleRead t.sys (r, 1, .returned (v.pipe.ring.take 1), k)
    right := t.right.received R (readOutcome id .resume t.sys) }, ?_,
    Or.inl (h.goesOn_read hal hcall hpend hn)⟩
  unfold execPipeline
  rw [execPipe_returned hcall rfl]
  rfl

/-- the next step of the right program, when it is in no call -/
theorem rightStep_goesOn {a : Nat} {v : PView} (h : Composed L R typed id r w t₀ s u t)
    (hal : Alone id a r w t.sys v) (hcpu : t.sys.onCpu r = true) (hc : t.sys.cont r = .idle) :
    ∃ t', rightStep R id r t = some t' ∧ t.goesOn R r t' := by
  obtain ⟨b, p, hact, hpid⟩ := onCpu_actor hcpu
  unfold rightStep
  cases hpend : t.right.pending with
  | cons x rest => exact ⟨{ t with right := t.right.put x rest }, rfl, Or.inl (Job.step_put hpend)⟩
  | nil =>
    cases hR : R t.right.state with
    | print text next =>
      exact ⟨{ t with right := { t.right with state := next, pending := text } }, rfl,
        Or.inl (Job.step_print hpend hR)⟩
    | exit =>
      exact ⟨{ t with sys := { t.sys with
        k := (closePipe (detachReader t.sys.k id r) id).2
        cont := Function.update t.sys.cont r .gone } }, rfl,
        Or.inr ⟨⟨hpend, hR⟩, rfl, Function.update_self ..⟩⟩
    | getchar next =>
      obtain ⟨k, hres⟩ := hal.readPipe 1
      have hcall : readCall id (.read 1) t.sys
          = some (r, 1, .returned (v.pipe.ring.take 1), k) := by
        unfold readCall
        simp only [hact, hpid, hc, if_pos, hres]
      refine ⟨{ t with
        sys := settleRead t.sys (r, 1, .returned (v.pipe.ring.take 1), k)
        right := t.right.received R (readOutcome id (.read 1) t.sys) }, ?_,
        Or.inl (h.goesOn_read hal hcall hpend hR)⟩
      simp only [execPipe_returned hcall rfl]
      rfl

/-- **The right program goes on** whenever it has the CPU. -/
theorem right_progress {a : Nat} {v : PView} (h : Composed L R typed id r w t₀ s u t)
    (hal : Alone id a r w t.sys v) (hne : r ≠ w) (hcpu : t.sys.onCpu r = true) :
    ∃ op t', (op = .right ∨ op = .resume) ∧ execPipeline L R typed id r w op t = some t' ∧
      t.goesOn R r t' := by
  have hreader := hal.reader
  cases hc : t.sys.cont r with
  | away => exact absurd hc (PipeCont.ne_away hreader)
  | gone => exact absurd hc (PipeCont.ne_gone hreader)
  | writing c rest n => exact absurd (h.ran.single.writing hc).1 hne
  | reading c n =>
    obtain ⟨t', ht, hgo⟩ := right_resumes h hal hcpu hc
    exact ⟨.resume, t', Or.inr rfl, ht, hgo⟩
  | idle =>
    obtain ⟨t', ht, hgo⟩ := rightStep_goesOn h hal hcpu hc
    refine ⟨.right, t', Or.inl rfl, ?_, hgo⟩
    show (if _ then rightStep R id r t else none) = _
    rw [if_pos (Bool.and_eq_true_iff.mpr ⟨hcpu, decide_eq_true hc⟩)]
    exact ht

/-- **A pipeline does not hang on the end of its left program.**  In every run in which the right program
has attached its end before the left one ends: once the left one has ended, and until the right one has,
the right one is never asleep in `readPipe`, in whatever state the end of the left one has found it; and
whenever it has the CPU it goes on, by a step on the text that the left one has written, or by giving up
its end when it has finished. -/
theorem pipeline_awake {os os' : List PipelineOp} {t₁ : Pipeline σ τ} (h₀ : t₀.Opened id) (hr : 2 ≤ r)
    (hw : 2 ≤ w) (hne : r ≠ w)
    (hrun : Runs (execPipeline L R typed id r w) (fun _ _ => True) os (.start t₀ s u) t₁)
    (haway : t₁.sys.cont r ≠ .away) (hthere : t₁.sys.cont w ≠ .gone)
    (hrun' : Runs (execPipeline L R typed id r w) (fun _ _ => True) os' t₁ t)
    (hwg : t.sys.cont w = .gone) (hrg : t.sys.cont r ≠ .gone) :
    t.sys.blockedIn r .rd = false ∧
    (t.sys.onCpu r = true → ∃ op t', (op = .right ∨ op = .resume) ∧
      execPipeline L R typed id r w op t = some t' ∧ t.goesOn R r t') := by
  obtain ⟨hc, ha⟩ := afloat_run h₀ hr hw hne (hrun.append hrun')
  obtain ⟨a, ⟨v, htog, -⟩ | ⟨v, hal⟩ | hpast⟩ :=
    attended_run h₀ hr hw hne hrun haway hthere hrun'
  · exact absurd hwg htog.writer
  · exact ⟨hc.ran.awake h₀ hr hw hne (ha hrg) hwg hrg, fun hcpu => right_progress hc hal hne hcpu⟩
  · exact absurd hpast.reader hrg

end

end Tp2So
