import Tp2So.Pipes.Pipeline

/-!
# What the two programs of a pipeline have read and written

* `Flow.write_keeps`     a byte that a call has not stored yet is with its writer;
* `Ran`                  the steps of the pipeline are steps of one reader and one writer of a pipe;
* `Composed`             the invariant: each program has done what it does alone, the left one on what is
                         typed, the right one on every text that goes on from what the left one has written;
* `Composed.leftMoves`, `Composed.rightMoves`   a step of one program;
* `Composed.writes`      a `putchar`, or the end of one;
* `Composed.reads_on`    a `getchar`, or the end of one: nothing, the end of file, or one byte.
-/

set_option linter.unusedVariables false

namespace Tp2So

/-- what a process has still to store in its call -/
def PipeCont.rest : PipeCont → List UInt8
  | .writing _ rest _ => rest
  | _ => []

section
variable {id a b n m : Nat} {t t' t₀ : PipeSys} {v : PView} {o : PipeOp} {q r w : Int}
  {bs : List UInt8}

/-- **A write call, or the end of one, loses nothing.** -/
theorem Flow.write_keeps (h : Flow id a t v) {res : WriteResult} {k : Kernel}
    (hc : writeCall id o t = some (q, bs, m, res, k)) (h2 : 2 ≤ q)
    (hcourt : ∀ q', q' ≠ q → (t.cont q').side = some .wr → v.asleep q' = false →
      v.pipe.ring.length + bs.length < pipeBufferSize - 1) :
    (settleWrite t (q, bs, m, res, k)).stored ++ ((settleWrite t (q, bs, m, res, k)).cont q).rest
      = t.stored ++ bs := by
  obtain ⟨b, p, hact, rfl, hloop, hbs⟩ := writeCall_loop h hc
  by_cases hfit : v.pipe.ring.length + bs.length ≤ pipeBufferSize - 1
  · obtain ⟨k', hres', -⟩ := flow_write h hact hfit hbs hcourt
    obtain ⟨rfl, rfl⟩ := Prod.mk.inj (hloop.symm.trans hres')
    show t.stored ++ bs.take (m + bs.length - m) ++ (Function.update t.cont p.pid .idle p.pid).rest = _
    rw [Function.update_self, Nat.add_sub_cancel_left, List.take_length]
    exact List.append_nil _
  · obtain ⟨k', hres', -⟩ := flow_writeSleep (w := m) h hact h2 (Nat.lt_of_not_le hfit)
      fun q' hne hs ha => by have := hcourt q' hne hs ha; omega
    obtain ⟨rfl, rfl⟩ := Prod.mk.inj (hloop.symm.trans hres')
    obtain ⟨room, hroom⟩ : ∃ room, room = pipeBufferSize - 1 - v.pipe.ring.length := ⟨_, rfl⟩
    rw [← hroom]
    show t.stored ++ bs.take (m + room - m) ++
      (Function.update t.cont p.pid (.writing a (bs.drop room) (m + room)) p.pid).rest = _
    rw [Function.update_self, Nat.add_sub_cancel_left, List.append_assoc]
    exact congrArg _ (List.take_append_drop room bs)

theorem writeFinish_ends {c : Nat} {rest : List UInt8} {k k' : Kernel} {m' : Nat} :
    writeFinish k a m ≠ (.suspended c rest m', k') := by
  intro e
  unfold writeFinish at e
  split at e
  · cases e
  · split at e
    · simp only at e
      split at e <;> cases e
    · cases e

/-- a call that sleeps with one byte has not stored it -/
theorem writeLoop_one {c : Nat} {x : UInt8} {rest : List UInt8} {k k' : Kernel} {m' : Nat}
    (h : writeLoop a [x] m k = (.suspended c rest m', k')) : rest = [x] := by
  unfold writeLoop at h
  split at h
  · cases h
  · split at h
    · simp only at h
      split at h
      · cases h
      · exact absurd h writeFinish_ends
      · cases h
        rfl
    · exact absurd h writeFinish_ends

end

/-! ## one reader and one writer -/

/-- only the reader is inside a read, of one byte, and only the writer inside a write, of no more -/
structure PipeSys.Single (t : PipeSys) (r w : Int) : Prop where
  reading : ∀ {q c n}, t.cont q = .reading c n → q = r ∧ n = 1
  writing : ∀ {q c rest m}, t.cont q = .writing c rest m → q = w ∧ rest.length ≤ 1

/-- the pipe has been used by one reader and one writer, in steps of one byte while both are there -/
structure Ran (id : Nat) (r w : Int) (t₀ t : PipeSys) : Prop where
  run : ∃ os, Runs (execPipe id) (fun o t => o.ofEnds r w t) os t₀ t
  both : t.cont r ≠ .gone → t.cont w ≠ .gone →
    ∃ os, Runs (execPipe id) (fun o t => o.ofPair r w t ∧ o.modest r t) os t₀ t
  single : t.Single r w

section
variable {id a b n m : Nat} {t t' t₀ : PipeSys} {v : PView} {o : PipeOp} {q r w : Int}
  {bs : List UInt8}

/-- whoever has gone does not come back -/
theorem gone_stays (he : execPipe id o t = some t') (hg : t.cont q = .gone) : t'.cont q = .gone := by
  have hjoined : ∀ pid, joined t.cont pid q = .gone := by
    intro pid
    unfold joined
    split
    · rename_i haway
      rw [Function.update_of_ne]
      · exact hg
      · rintro rfl
        rw [hg] at haway
        cases haway
    · exact hg
  have hupdate : ∀ pid, Function.update t.cont pid .gone q = .gone := by
    intro pid
    by_cases e : q = pid
    · rw [e, Function.update_self]
    · rw [Function.update_of_ne e, hg]
  cases o with
  | attachReader pid => exact Option.some.inj he ▸ hjoined pid
  | attachWriter pid => exact Option.some.inj he ▸ hjoined pid
  | read n => exact (absent_call he rfl q).mpr hg
  | write data => exact (absent_call he rfl q).mpr hg
  | resume => exact (absent_call he rfl q).mpr hg
  | detachReader pid => exact Option.some.inj he ▸ hupdate pid
  | detachWriter pid => exact Option.some.inj he ▸ hupdate pid
  | schedule fuel rsp =>
    obtain ⟨x, -, rfl⟩ := Option.map_eq_some_iff.mp he
    exact hg

theorem runs_snoc {ok : PipeOp → PipeSys → Prop} {os : List PipeOp}
    (h : Runs (execPipe id) ok os t₀ t) (ho : ok o t) (he : execPipe id o t = some t') :
    Runs (execPipe id) ok (os ++ [o]) t₀ t' := h.append ⟨ho, t', he, rfl⟩

/-- a step of the pair; a detachment ends what was `both` -/
theorem Ran.step (h : Ran id r w t₀ t) (ho : o.ofEnds r w t = true)
    (hm : o.transfers = true → o.modest r t = true) (he : execPipe id o t = some t')
    (hs : t'.Single r w) : Ran id r w t₀ t' := by
  obtain ⟨os, hos⟩ := h.run
  refine ⟨⟨_, runs_snoc hos ho he⟩, fun hr hw => ?_, hs⟩
  obtain ⟨os', hos'⟩ := h.both (fun e => hr (gone_stays he e)) fun e => hw (gone_stays he e)
  have htransfers : o.transfers = true := by
    cases o with
    | detachReader pid =>
      obtain ⟨hp, -⟩ := Bool.and_eq_true_iff.mp ho
      obtain rfl := of_decide_eq_true hp
      obtain rfl := Option.some.inj he
      exact absurd (Function.update_self ..) hr
    | detachWriter pid =>
      obtain ⟨hp, -⟩ := Bool.and_eq_true_iff.mp ho
      obtain rfl := of_decide_eq_true hp
      obtain rfl := Option.some.inj he
      exact absurd (Function.update_self ..) hw
    | _ => rfl
  exact ⟨_, runs_snoc hos' ⟨ofEnds_call ho htransfers, hm htransfers⟩ he⟩

theorem Ran.phase (h : Ran id r w t₀ t) (h₀ : t₀.Opened id) (hr : 2 ≤ r) (hw : 2 ≤ w) (hne : r ≠ w) :
    ∃ a, Phase id a r w t := by
  obtain ⟨os, hos⟩ := h.run
  obtain ⟨a, v, hv⟩ := together_opened (r := r) (w := w) h₀
  exact ⟨a, Runs.inv (I := Phase id a r w)
    (fun o t u hp ho he => phase_step h₀.two_le hr hw hne hp ho he) hos (Or.inl ⟨v, hv⟩)⟩

theorem Ran.safe (h : Ran id r w t₀ t) (h₀ : t₀.Opened id) (hr : 2 ≤ r) (hw : 2 ≤ w) (hne : r ≠ w) :
    StreamSafe id r w t := by
  obtain ⟨a, hphase⟩ := h.phase h₀ hr hw hne
  rcases hphase with ⟨v, h⟩ | ⟨v, h⟩ | h | h
  · exact h.safe hr hw
  · exact h.safe
  · exact h.safe
  · exact h.safe

theorem Ran.write_keeps (h : Ran id r w t₀ t) (h₀ : t₀.Opened id) (hr : 2 ≤ r) (hw : 2 ≤ w)
    (hrg : t.cont r ≠ .gone) (hwg : t.cont w ≠ .gone) (ho : o.ofPair r w t = true)
    {res : WriteResult} {k : Kernel} (hc : writeCall id o t = some (w, bs, m, res, k)) :
    (settleWrite t (w, bs, m, res, k)).stored ++ ((settleWrite t (w, bs, m, res, k)).cont w).rest
      = t.stored ++ bs := by
  obtain ⟨os, hos⟩ := h.both hrg hwg
  obtain ⟨a, v, hv, -, hs⟩ := pair_run h₀ hr hw hos
  obtain ⟨h2, hcourt⟩ := (hs.allowed (v := v) hr hw ho).offers w bs (writeCall_some hc).1
  exact hv.write_keeps hc h2 hcourt

theorem modest_of_offers (h : ∀ q bs, o.offers t = some (q, bs) → bs.length ≤ 1) :
    o.modest r t = true := by
  unfold PipeOp.modest
  have hsize : 1 < pipeBufferSize := by decide
  refine Bool.or_eq_true_iff.mpr (Or.inr ?_)
  cases hoff : o.offers t with
  | none => rfl
  | some x => exact decide_eq_true (Nat.lt_of_le_of_lt (h x.1 x.2 hoff) hsize)

theorem ofEnds_of_calls (ho : (∃ n, o = .read n) ∨ (∃ bs, o = .write bs) ∨ o = .resume)
    (hask : ∀ q m, o.asks t = some (q, m) → q = r) (hoff : ∀ q bs, o.offers t = some (q, bs) → q = w) :
    o.ofEnds r w t = true ∧ o.ofPair r w t = true := by
  have hall : ((o.asks t).all (fun x => decide (x.1 = r)) &&
      (o.offers t).all fun x => decide (x.1 = w)) = true := by
    refine Bool.and_eq_true_iff.mpr ⟨?_, ?_⟩
    · cases h : o.asks t with
      | none => rfl
      | some x => exact decide_eq_true (hask x.1 x.2 h)
    · cases h : o.offers t with
      | none => rfl
      | some x => exact decide_eq_true (hoff x.1 x.2 h)
  rcases ho with ⟨n, rfl⟩ | ⟨bs, rfl⟩ | rfl
  · exact ⟨hall, hall⟩
  · exact ⟨hall, hall⟩
  · exact ⟨hall, hall⟩

theorem onCpu_actor (h : t.onCpu q = true) : ∃ b p, t.k.sched.actor = some (b, p) ∧ p.pid = q := by
  unfold PipeSys.onCpu at h
  cases ha : t.k.sched.actor with
  | none =>
    rw [ha] at h
    exact absurd h (by simp)
  | some x =>
    rw [ha] at h
    exact ⟨x.1, x.2, rfl, of_decide_eq_true h⟩

end

/-! ## the pipeline -/

/-- what the left program has written may go on to this text; it ends there when the program has ended -/
def Pipeline.mayWrite {σ τ : Type} (t : Pipeline σ τ) (w : Int) (text : List UInt8) : Prop :=
  t.left.out <+: text ∧ (t.sys.cont w = .gone → text = t.left.out)

structure Composed {σ τ : Type} (L : σ → Action σ UInt8 UInt8) (R : τ → Action τ UInt8 UInt8)
    (typed : Nat → Option UInt8) (id : Nat) (r w : Int) (t₀ : PipeSys) (s : σ) (u : τ)
    (t : Pipeline σ τ) : Prop where
  ran : Ran id r w t₀ t.sys
  left : Job.Reaches L typed (.start s) t.left
  right : ∀ text, t.mayWrite w text → Job.Reaches R (textStream text) (.start u) t.right
  books : t.sys.cont r ≠ .gone → t.left.out = t.sys.stored ++ (t.sys.cont w).rest
  fetched : t.sys.fetched <+: t.left.out
  /-- each read has taken one byte, up to the end of file -/
  reads : t.right.reads = t.sys.fetched.length ∨
    t.sys.cont w = .gone ∧ t.sys.fetched = t.left.out ∧ t.sys.fetched.length ≤ t.right.reads
  getting : ∀ c n, t.sys.cont r = .reading c n →
    t.right.pending = [] ∧ ∃ next, R t.right.state = .getchar next
  leftEnded : t.sys.cont w = .gone → t.left.Finished L
  rightEnded : t.sys.cont r = .gone → t.right.Finished R

section
variable {σ τ : Type} {L : σ → Action σ UInt8 UInt8} {R : τ → Action τ UInt8 UInt8}
  {typed : Nat → Option UInt8} {id m : Nat} {r w : Int} {t₀ : PipeSys} {s : σ} {u : τ}
  {t t' : Pipeline σ τ} {j : Job σ UInt8} {k : Job τ UInt8} {sys : PipeSys} {o : PipeOp}
  {bs : List UInt8}

/-- a step that is not one of the right program: the left one may have written more -/
theorem Composed.leftMoves (h : Composed L R typed id r w t₀ s u t) (hran : Ran id r w t₀ sys)
    (hleft : Job.Reaches L typed (.start s) j) (hout : t.left.out <+: j.out)
    (hbooks : sys.cont r ≠ .gone → j.out = sys.stored ++ (sys.cont w).rest)
    (hfetched : sys.fetched = t.sys.fetched)
    (hwriter : t.sys.cont w = .gone → sys.cont w = .gone ∧ j.out = t.left.out)
    (hreading : ∀ c n, sys.cont r = .reading c n → t.sys.cont r = .reading c n)
    (hreader : sys.cont r = .gone → t.sys.cont r = .gone)
    (hended : sys.cont w = .gone → j.Finished L) :
    Composed L R typed id r w t₀ s u { t with sys := sys, left := j } := by
  refine ⟨hran, hleft, fun text ht => ?_, hbooks, ?_, ?_, ?_, hended, ?_⟩
  · refine h.right text ⟨hout.trans ht.1, fun hg => ?_⟩
    obtain ⟨hg', hj⟩ := hwriter hg
    exact (ht.2 hg').trans hj
  · show sys.fetched <+: j.out
    rw [hfetched]
    exact h.fetched.trans hout
  · show t.right.reads = sys.fetched.length ∨ _
    rw [hfetched]
    rcases h.reads with hr | ⟨hg, hf, hle⟩
    · exact Or.inl hr
    · obtain ⟨hg', hj⟩ := hwriter hg
      exact Or.inr ⟨hg', hf.trans hj.symm, hle⟩
  · exact fun c n hc => h.getting c n (hreading c n hc)
  · exact fun hg => h.rightEnded (hreader hg)

theorem Composed.rightMoves (h : Composed L R typed id r w t₀ s u t)
    (hidle : t.sys.cont r = .idle) (hreads : k.reads = t.right.reads)
    (hstep : ∀ text, t.right.step R (textStream text) = some k) :
    Composed L R typed id r w t₀ s u { t with right := k } := by
  refine ⟨h.ran, h.left, fun text ht => (h.right text ht).tail (hstep text), h.books, h.fetched, ?_,
    fun c n hc => ?_, h.leftEnded, fun hg => ?_⟩
  · show k.reads = _ ∨ _
    rw [hreads]
    exact h.reads
  · rw [hidle] at hc
    cases hc
  · rw [hidle] at hg
    cases hg

/-! ### the calls -/

theorem settleWrite_fetched {q : Int} {res : WriteResult} {k : Kernel} (t : PipeSys) :
    (settleWrite t (q, bs, m, res, k)).fetched = t.fetched := by
  cases res <;> rfl

theorem settleWrite_cont {q q' : Int} {res : WriteResult} {k : Kernel} (t : PipeSys) (hne : q' ≠ q) :
    (settleWrite t (q, bs, m, res, k)).cont q' = t.cont q' := by
  cases res <;> exact Function.update_of_ne hne _ _

theorem settleRead_stored {q : Int} {n : Nat} {res : ReadResult} {k : Kernel} (t : PipeSys) :
    (settleRead t (q, n, res, k)).stored = t.stored := by
  cases res <;> rfl

theorem settleRead_cont {q q' : Int} {n : Nat} {res : ReadResult} {k : Kernel} (t : PipeSys)
    (hne : q' ≠ q) : (settleRead t (q, n, res, k)).cont q' = t.cont q' := by
  cases res <;> exact Function.update_of_ne hne _ _

theorem settleRead_present {q q' : Int} {n : Nat} {res : ReadResult} {k : Kernel} (t : PipeSys)
    (h : t.cont q' ≠ .gone) : (settleRead t (q, n, res, k)).cont q' ≠ .gone := by
  have hcases : ∀ c : PipeCont, c ≠ .gone → Function.update t.cont q c q' ≠ .gone := by
    intro c hc
    by_cases e : q' = q
    · rw [e, Function.update_self]
      exact hc
    · rw [Function.update_of_ne e]
      exact h
  cases res with
  | error => exact hcases _ (by simp)
  | returned x => exact hcases _ (by simp)
  | suspended a => exact hcases _ (by simp)

theorem Composed.writes (h : Composed L R typed id r w t₀ s u t) (h₀ : t₀.Opened id) (hr : 2 ≤ r)
    (hw : 2 ≤ w) (hne : r ≠ w) {res : WriteResult} {kn : Kernel}
    (hc : writeCall id o t.sys = some (w, bs, m, res, kn)) (ho : o.ofPair r w t.sys = true)
    (hwg : t.sys.cont w ≠ .gone) (hleft : Job.Reaches L typed (.start s) j) (hout : t.left.out <+: j.out)
    (hran : Ran id r w t₀ (settleWrite t.sys (w, bs, m, res, kn)))
    (hbs : t.sys.cont r ≠ .gone → j.out = t.sys.stored ++ bs) :
    Composed L R typed id r w t₀ s u
      { t with sys := settleWrite t.sys (w, bs, m, res, kn), left := j } := by
  have hreader : (settleWrite t.sys (w, bs, m, res, kn)).cont r = t.sys.cont r :=
    settleWrite_cont t.sys hne
  refine h.leftMoves hran hleft hout (fun hrg => ?_) (settleWrite_fetched t.sys)
    (fun hg => absurd hg hwg) (fun c n hcn => hreader.symm.trans hcn)
    (fun hg => hreader.symm.trans hg) (fun hg => ?_)
  · rw [hreader] at hrg
    rw [h.ran.write_keeps h₀ hr hw hrg hwg ho hc]
    exact hbs hrg
  · -- a call does not end its caller
    exfalso
    have hself : ∀ c : PipeCont, c ≠ .gone → Function.update t.sys.cont w c w ≠ .gone := by
      intro c hc
      rw [Function.update_self]
      exact hc
    cases res with
    | error => exact hself _ (by simp) hg
    | returned m' => exact hself _ (by simp) hg
    | suspended a rest m' => exact hself _ (by simp) hg

theorem received_got {next : Option UInt8 → τ} {x : Nat × List UInt8}
    (hn : R t.right.state = .getchar next) :
    t.right.received R (some x) = t.right.got (next x.2.head?) := by
  unfold Job.received
  simp only [hn]

theorem readLoop_length (n : Nat) (p : Pipe) : (readLoop n p).1.length ≤ n := by
  induction n generalizing p with
  | zero => exact Nat.le_refl 0
  | succ n ih =>
    unfold readLoop
    split
    · exact Nat.zero_le _
    · exact Nat.succ_le_succ (ih _)

theorem readResume_length {n a : Nat} {k k' : Kernel}
    (h : readResume k a n = (.returned bs, k')) : bs.length ≤ n := by
  unfold readResume at h
  split at h
  · cases h
  · rename_i p hp
    simp only at h
    split at h
    · split at h
      · cases h
        exact readLoop_length n p
      · cases h
    · cases h
      exact readLoop_length n p

theorem readPipe_length {n : Nat} {k k' : Kernel} (h : readPipe k id n = (.returned bs, k')) :
    bs.length ≤ n := by
  unfold readPipe at h
  split at h
  · cases h
  · split at h
    · cases h
    · split at h
      · split at h
        · cases h
          exact Nat.zero_le _
        · simp only at h
          split at h
          · cases h
          · exact readResume_length h
          · cases h
      · exact readResume_length h

theorem readOutcome_length {n : Nat} {sys : PipeSys} (h : readOutcome id o sys = some (n, bs)) :
    bs.length ≤ n := by
  unfold readOutcome at h
  split at h
  · rename_i q n' bs' k hc
    obtain ⟨rfl, rfl⟩ := Prod.mk.inj (Option.some.inj h)
    obtain ⟨-, b, p, -, -, ⟨-, -, hres⟩ | ⟨-, c, -, hres⟩⟩ := readCall_some hc
    · exact readPipe_length hres
    · exact readResume_length hres
  · cases h

/-- the right program has read from the pipe, or tried to -/
theorem Composed.readerMoves (h : Composed L R typed id r w t₀ s u t) (hran : Ran id r w t₀ sys)
    (hwriter : sys.cont w = t.sys.cont w) (hstored : sys.stored = t.sys.stored)
    (hrg : t.sys.cont r ≠ .gone) (hreader : sys.cont r ≠ .gone)
    (hright : ∀ text, t.mayWrite w text → Job.Reaches R (textStream text) (.start u) k)
    (hfetched : sys.fetched <+: t.left.out)
    (hreads : k.reads = sys.fetched.length ∨
      t.sys.cont w = .gone ∧ sys.fetched = t.left.out ∧ sys.fetched.length ≤ k.reads)
    (hgetting : ∀ c n, sys.cont r = .reading c n →
      k.pending = [] ∧ ∃ next, R k.state = .getchar next) :
    Composed L R typed id r w t₀ s u { t with sys := sys, right := k } := by
  refine ⟨hran, h.left, fun text ht => hright text ⟨ht.1, fun hg => ht.2 (hwriter.trans hg)⟩, fun _ => ?_,
    hfetched, ?_, hgetting, fun hg => h.leftEnded (hwriter.symm.trans hg), fun hg => absurd hg hreader⟩
  · show t.left.out = sys.stored ++ (sys.cont w).rest
    rw [hwriter, hstored]
    exact h.books hrg
  · show k.reads = sys.fetched.length ∨ sys.cont w = .gone ∧ _
    rw [hwriter]
    exact hreads

section
variable {res : ReadResult} {kn : Kernel} {next : Option UInt8 → τ}

/-- a `getchar` that sleeps or fails leaves the right program where it is -/
theorem Composed.reads_nothing (h : Composed L R typed id r w t₀ s u t) (hne : r ≠ w)
    (hpend : t.right.pending = []) (hn : R t.right.state = .getchar next) (hrg : t.sys.cont r ≠ .gone)
    (hran : Ran id r w t₀ (settleRead t.sys (r, 1, res, kn)))
    (hf : (settleRead t.sys (r, 1, res, kn)).fetched = t.sys.fetched) :
    Composed L R typed id r w t₀ s u { t with sys := settleRead t.sys (r, 1, res, kn) } := by
  have hmove := h.readerMoves hran (settleRead_cont t.sys (Ne.symm hne)) (settleRead_stored ..) hrg
    (settleRead_present t.sys hrg) h.right
  rw [hf] at hmove
  exact hmove h.fetched h.reads fun _ _ _ => ⟨hpend, next, hn⟩

/-- a `getchar` that returns: the right program makes the step that it makes on the text of the left one -/
theorem Composed.reads_returned (h : Composed L R typed id r w t₀ s u t) (hne : r ≠ w)
    (hpend : t.right.pending = []) (hn : R t.right.state = .getchar next) (hrg : t.sys.cont r ≠ .gone)
    (hran : Ran id r w t₀ (settleRead t.sys (r, 1, .returned bs, kn)))
    (htext : ∀ text, t.mayWrite w text → textStream text t.right.reads = bs.head?)
    (hpre : t.sys.fetched ++ bs <+: t.left.out)
    (hreads : t.right.reads + 1 = (t.sys.fetched ++ bs).length ∨ t.sys.cont w = .gone ∧
      t.sys.fetched ++ bs = t.left.out ∧ (t.sys.fetched ++ bs).length ≤ t.right.reads + 1) :
    Composed L R typed id r w t₀ s u { t with
      sys := settleRead t.sys (r, 1, .returned bs, kn), right := t.right.got (next bs.head?) } := by
  refine h.readerMoves hran (settleRead_cont t.sys (Ne.symm hne)) (settleRead_stored ..) hrg
    (settleRead_present t.sys hrg) (fun text ht => ?_) hpre hreads fun c n hcn => ?_
  · rw [← htext text ht]
    exact (h.right text ht).tail (Job.step_getchar hpend hn)
  · have hself : (settleRead t.sys (r, 1, .returned bs, kn)).cont r = .idle :=
      Function.update_self ..
    rw [hself] at hcn
    cases hcn

/-- end of file: the left program has ended, and everything that it wrote has been read -/
theorem Composed.reads_end (h : Composed L R typed id r w t₀ s u t) (hne : r ≠ w)
    (hpend : t.right.pending = []) (hn : R t.right.state = .getchar next) (hrg : t.sys.cont r ≠ .gone)
    (hran : Ran id r w t₀ (settleRead t.sys (r, 1, .returned [], kn)))
    (hgone : t.sys.cont w = .gone) (hall : t.sys.stored = t.sys.fetched) :
    Composed L R typed id r w t₀ s u { t with
      sys := settleRead t.sys (r, 1, .returned [], kn), right := t.right.got (next none) } := by
  have hwhole : t.sys.fetched = t.left.out := by
    rw [h.books hrg, hgone, hall]
    exact (List.append_nil _).symm
  have hle : t.sys.fetched.length ≤ t.right.reads := by
    rcases h.reads with he | ⟨-, -, hle⟩
    · exact Nat.le_of_eq he.symm
    · exact hle
  refine h.reads_returned hne hpend hn hrg hran (fun text ht => ?_) ?_ (Or.inr ⟨hgone, ?_, ?_⟩)
  · show text[t.right.reads]? = none
    rw [ht.2 hgone, ← hwhole]
    exact List.getElem?_eq_none hle
  · rw [List.append_nil]
    exact h.fetched
  · rw [List.append_nil]
    exact hwhole
  · rw [List.append_nil]
    omega

theorem Composed.reads_byte (h : Composed L R typed id r w t₀ s u t) (hne : r ≠ w)
    (hpend : t.right.pending = []) (hn : R t.right.state = .getchar next) (hrg : t.sys.cont r ≠ .gone)
    {c : UInt8} (hran : Ran id r w t₀ (settleRead t.sys (r, 1, .returned [c], kn)))
    (hpre : t.sys.fetched ++ [c] <+: t.left.out) :
    Composed L R typed id r w t₀ s u { t with
      sys := settleRead t.sys (r, 1, .returned [c], kn), right := t.right.got (next (some c)) } := by
  have hreads : t.right.reads = t.sys.fetched.length := by
    rcases h.reads with he | ⟨-, he, -⟩
    · exact he
    · have hle := hpre.length_le
      rw [he, List.length_append, List.length_singleton] at hle
      omega
  refine h.reads_returned hne hpend hn hrg hran (fun text ht => ?_) hpre (Or.inl ?_)
  · obtain ⟨more, hmore⟩ := hpre.trans ht.1
    show text[t.right.reads]? = some c
    rw [← hmore, hreads, List.append_assoc, List.getElem?_append_right (Nat.le_refl _), Nat.sub_self]
    rfl
  · rw [hreads, List.length_append, List.length_singleton]

/-- a `getchar` of the right program, or the end of one -/
theorem Composed.reads_on (h : Composed L R typed id r w t₀ s u t) (h₀ : t₀.Opened id) (hr : 2 ≤ r)
    (hw : 2 ≤ w) (hne : r ≠ w)
    (hc : readCall id o t.sys = some (r, 1, res, kn)) (ho : o.ofEnds r w t.sys = true)
    (hpend : t.right.pending = []) (hn : R t.right.state = .getchar next)
    (hrg : t.sys.cont r ≠ .gone) (hran : Ran id r w t₀ (settleRead t.sys (r, 1, res, kn))) :
    Composed L R typed id r w t₀ s u
      { t with sys := settleRead t.sys (r, 1, res, kn),
               right := t.right.received R (readOutcome id o t.sys) } := by
  have hsafe' := hran.safe h₀ hr hw hne
  cases res with
  | error =>
    have hnone : readOutcome id o t.sys = none := by
      unfold readOutcome
      rw [hc]
    rw [hnone]
    exact h.reads_nothing hne hpend hn hrg hran rfl
  | suspended a =>
    have hnone : readOutcome id o t.sys = none := by
      unfold readOutcome
      rw [hc]
    rw [hnone]
    exact h.reads_nothing hne hpend hn hrg hran rfl
  | returned bs =>
    have hout : readOutcome id o t.sys = some (1, bs) := by
      unfold readOutcome
      rw [hc]
    have hlen := readOutcome_length hout
    have hstored : t.sys.stored <+: t.left.out := by
      rw [h.books hrg]
      exact List.prefix_append _ _
    have hpre : t.sys.fetched ++ bs <+: t.left.out :=
      List.IsPrefix.trans (show t.sys.fetched ++ bs <+: t.sys.stored from hsafe'.pre) hstored
    rw [hout, received_got hn]
    cases bs with
    | nil =>
      obtain ⟨hgone, hall⟩ := (h.ran.safe h₀ hr hw hne).eof o 1 ho hout Nat.one_pos
      exact h.reads_end hne hpend hn hrg hran hgone hall
    | cons c bs =>
      obtain rfl : bs = [] := List.length_eq_zero_iff.mp (by rw [List.length_cons] at hlen; omega)
      exact h.reads_byte hne hpend hn hrg hran hpre

end

end

end Tp2So
