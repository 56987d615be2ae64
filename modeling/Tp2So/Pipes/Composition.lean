import Tp2So.Pipes.Composed

/-!
# A pipeline computes the composition of its commands

Whatever the order in which the two processes run and wait for each other, the right program reads what
the left one writes, and nothing else.

* `composed_left`, `composed_right`, `composed_resume`   a step of a program, and the end of a call;
* `composed_step`      any step;
* `pipeline_composes`  in every run.
-/

set_option linter.unusedVariables false

namespace Tp2So

/-! ## one step -/

section
variable {σ τ : Type} {L : σ → Action σ UInt8 UInt8} {R : τ → Action τ UInt8 UInt8}
  {typed : Nat → Option UInt8} {id m : Nat} {r w : Int} {t₀ : PipeSys} {s : σ} {u : τ}
  {t t' : Pipeline σ τ} {sys sys' : PipeSys} {o : PipeOp} {bs : List UInt8}

theorem PipeSys.Single.update (h : sys.Single r w) {q : Int} {c : PipeCont}
    (hc : sys'.cont = Function.update sys.cont q c)
    (hr : ∀ a n, c = .reading a n → q = r ∧ n = 1)
    (hw : ∀ a rest m, c = .writing a rest m → q = w ∧ rest.length ≤ 1) : sys'.Single r w := by
  constructor
  · intro q' a n hq
    rw [hc] at hq
    by_cases e : q' = q
    · rw [e, Function.update_self] at hq
      rw [e]
      exact hr a n hq
    · rw [Function.update_of_ne e] at hq
      exact h.reading hq
  · intro q' a rest m hq
    rw [hc] at hq
    by_cases e : q' = q
    · rw [e, Function.update_self] at hq
      rw [e]
      exact hw a rest m hq
    · rw [Function.update_of_ne e] at hq
      exact h.writing hq

theorem PipeSys.Single.quiet (h : sys.Single r w) {q : Int} {c : PipeCont}
    (hc : sys'.cont = Function.update sys.cont q c) (hq : c = .idle ∨ c = .gone) : sys'.Single r w := by
  refine h.update hc (fun a n e => ?_) fun a rest m e => ?_
  · rcases hq with e' | e' <;> rw [e'] at e <;> cases e
  · rcases hq with e' | e' <;> rw [e'] at e <;> cases e

theorem PipeSys.Single.joined (h : sys.Single r w) {q : Int} (hc : sys'.cont = joined sys.cont q) :
    sys'.Single r w := by
  unfold Tp2So.joined at hc
  split at hc
  · exact h.quiet hc (Or.inl rfl)
  · exact ⟨fun hq => h.reading (by rw [← hc]; exact hq), fun hq => h.writing (by rw [← hc]; exact hq)⟩

theorem PipeSys.Single.reads (h : sys.Single r w) {res : ReadResult} {k : Kernel} :
    (settleRead sys (r, 1, res, k)).Single r w := by
  cases res with
  | error => exact h.quiet rfl (Or.inl rfl)
  | returned x => exact h.quiet rfl (Or.inl rfl)
  | suspended a =>
    refine h.update rfl (fun a' n e => ?_) fun a' rest m e => ?_
    · cases e
      exact ⟨rfl, rfl⟩
    · cases e

theorem PipeSys.Single.writes (h : sys.Single r w) {res : WriteResult} {k : Kernel}
    (hc : writeCall id o sys = some (w, bs, m, res, k)) (hbs : bs.length ≤ 1) :
    (settleWrite sys (w, bs, m, res, k)).Single r w := by
  cases res with
  | error => exact h.quiet rfl (Or.inl rfl)
  | returned x => exact h.quiet rfl (Or.inl rfl)
  | suspended a rest m' =>
    -- what is left to store is the byte
    have hrest : rest.length ≤ 1 := by
      obtain ⟨-, b, p, -, -, ⟨data, -, -, hbs', -, hres⟩ | ⟨-, c, -, hres⟩⟩ := writeCall_some hc
      · unfold writePipe at hres
        split at hres
        · cases hres
        · rw [← hbs'] at hres
          match bs, hbs with
          | [], _ => exact absurd hres writeFinish_ends
          | [x], _ =>
            rw [writeLoop_one hres]
            exact Nat.le_refl 1
      · match bs, hbs with
        | [], _ => exact absurd hres writeFinish_ends
        | [x], _ => exact absurd hres writeFinish_ends
    refine h.update rfl (fun a' n e => ?_) fun a' rest' m e => ?_
    · cases e
    · cases e
      exact ⟨rfl, hrest⟩

theorem readCall_of_write {c : Int × List UInt8 × Nat × WriteResult × Kernel}
    (hc : writeCall id o sys = some c) : readCall id o sys = none := by
  obtain ⟨q, bs, m, res, k⟩ := c
  have hoff := (writeCall_some hc).1
  cases hr : readCall id o sys with
  | none => rfl
  | some x =>
    obtain ⟨q', n, res', k'⟩ := x
    have hask := (readCall_some hr).1
    rcases PipeOp.asks_offers o sys with e | e
    · rw [e] at hask
      cases hask
    · rw [e] at hoff
      cases hoff

theorem composed_attach (h : Composed L R typed id r w t₀ s u t) (hran : Ran id r w t₀ sys) {q : Int}
    (hcont : sys.cont = joined t.sys.cont q) (hs : sys.stored = t.sys.stored)
    (hf : sys.fetched = t.sys.fetched) : Composed L R typed id r w t₀ s u { t with sys := sys } := by
  have hsame : ∀ p, sys.cont p = t.sys.cont p ∨ t.sys.cont p = .away ∧ sys.cont p = .idle := by
    intro p
    rw [hcont]
    unfold joined
    split
    · rename_i haway
      by_cases e : p = q
      · rw [e, Function.update_self]
        exact Or.inr ⟨haway, rfl⟩
      · rw [Function.update_of_ne e]
        exact Or.inl rfl
    · exact Or.inl rfl
  have hgone : ∀ p, sys.cont p = .gone ↔ t.sys.cont p = .gone := by
    intro p
    rcases hsame p with e | ⟨e, e'⟩
    · rw [e]
    · rw [e, e']
      exact ⟨fun h => (by cases h), fun h => (by cases h)⟩
  refine h.leftMoves hran h.left (List.prefix_refl _) (fun hr => ?_) hf
    (fun hg => ⟨(hgone w).mpr hg, rfl⟩) (fun c n hc => ?_) (hgone r).mp
    fun hg => h.leftEnded ((hgone w).mp hg)
  · have hrest : (sys.cont w).rest = (t.sys.cont w).rest := by
      rcases hsame w with e | ⟨e, e'⟩
      · rw [e]
      · rw [e, e']
        rfl
    rw [hs, hrest]
    exact h.books fun hg => hr ((hgone r).mpr hg)
  · rcases hsame r with e | ⟨-, e'⟩
    · rw [← e]
      exact hc
    · rw [e'] at hc
      cases hc

theorem composed_left (h : Composed L R typed id r w t₀ s u t) (h₀ : t₀.Opened id) (hr : 2 ≤ r)
    (hw : 2 ≤ w) (hne : r ≠ w) (hcpu : t.sys.onCpu w = true) (hidle : t.sys.cont w = .idle)
    (he : leftStep L typed id w t = some t') : Composed L R typed id r w t₀ s u t' := by
  have hwg : t.sys.cont w ≠ .gone := by
    rw [hidle]
    simp
  have hbooks : t.sys.cont r ≠ .gone → t.left.out = t.sys.stored := by
    intro hrg
    rw [h.books hrg, hidle]
    exact List.append_nil _
  unfold leftStep at he
  split at he
  · rename_i b rest hpend
    obtain ⟨sys, hx, rfl⟩ := Option.map_eq_some_iff.mp he
    have hnone : readCall id (.write [b]) t.sys = none := rfl
    rcases execCall_some hx with ⟨c, hc, -⟩ | ⟨⟨q, bs, m, res, kn⟩, hc, rfl⟩
    · rw [hnone] at hc
      cases hc
    · obtain ⟨hoff, b', p, hact, hpq, ⟨data, hdata, -, rfl, rfl, hres⟩ | ⟨hres, -⟩⟩ := writeCall_some hc
      · cases hdata
        have hq : q = w := by
          obtain ⟨b₁, p₁, hact', hp₁⟩ := onCpu_actor hcpu
          rw [hact'] at hact
          obtain ⟨-, rfl⟩ := Prod.mk.inj (Option.some.inj hact)
          exact hpq.symm.trans hp₁
        rw [hq] at hc hoff
        rw [hq]
        have hone : [b].take (intBytes [b].length) = [b] := rfl
        rw [hone] at hc hoff ⊢
        have hoffers : ∀ q bs, PipeOp.offers (.write [b]) t.sys = some (q, bs) → q = w ∧ bs = [b] := by
          intro q bs hq
          rw [hoff] at hq
          obtain ⟨rfl, rfl⟩ := Prod.mk.inj (Option.some.inj hq)
          exact ⟨rfl, rfl⟩
        obtain ⟨hends, hpair⟩ := ofEnds_of_calls (r := r) (w := w) (o := .write [b])
          (Or.inr (Or.inl ⟨_, rfl⟩)) (fun q m hq => by cases hq) fun q bs hq => (hoffers q bs hq).1
        have hsettled : execPipe id (.write [b]) t.sys
            = some (settleWrite t.sys (w, [b], 0, res, kn)) := by
          show execCall id (.write [b]) t.sys = _
          unfold execCall
          rw [hnone, hc]
        refine h.writes h₀ hr hw hne hc hpair hwg (h.left.tail (Job.step_put hpend))
          (List.prefix_append _ _) ?_ fun hrg => ?_
        · refine h.ran.step hends (fun _ => modest_of_offers fun q bs hq => ?_) hsettled
            (h.ran.single.writes hc (Nat.le_refl 1))
          rw [(hoffers q bs hq).2]
          exact Nat.le_refl 1
        · show t.left.out ++ [b] = t.sys.stored ++ [b]
          rw [hbooks hrg]
      · cases hres
  · rename_i hpend
    split at he
    · rename_i next hL
      obtain rfl := Option.some.inj he
      exact h.leftMoves h.ran (h.left.tail (Job.step_getchar hpend hL)) (List.prefix_refl _) h.books rfl
        (fun hg => ⟨hg, rfl⟩) (fun c n hc => hc) (fun hg => hg) fun hg => absurd hg hwg
    · rename_i text next hL
      obtain rfl := Option.some.inj he
      exact h.leftMoves h.ran (h.left.tail (Job.step_print hpend hL)) (List.prefix_refl _) h.books rfl
        (fun hg => ⟨hg, rfl⟩) (fun c n hc => hc) (fun hg => hg) fun hg => absurd hg hwg
    · rename_i hL
      obtain ⟨sys, hx, rfl⟩ := Option.map_eq_some_iff.mp he
      have hends : PipeOp.ofEnds r w (.detachWriter w) t.sys = true := by
        show (decide (w = w) && (t.sys.cont w).present) = true
        rw [hidle, decide_eq_true rfl]
        rfl
      have hran : Ran id r w t₀ sys := h.ran.step hends (fun e => by cases e) hx
        (h.ran.single.quiet (q := w) (c := .gone) (by rw [← Option.some.inj hx]) (Or.inr rfl))
      obtain rfl := Option.some.inj hx
      have hself : Function.update t.sys.cont w .gone w = .gone := Function.update_self ..
      have hother : Function.update t.sys.cont w .gone r = t.sys.cont r := Function.update_of_ne hne _ _
      refine h.leftMoves hran h.left (List.prefix_refl _) (fun hrg => ?_) rfl
        (fun hg => absurd hg hwg) (fun c n hc => hother.symm.trans hc)
        (fun hg => hother.symm.trans hg) fun _ => ⟨hpend, hL⟩
      have hrg' : t.sys.cont r ≠ .gone := fun e => hrg (hother.trans e)
      show t.left.out = t.sys.stored ++ (Function.update t.sys.cont w .gone w).rest
      rw [hself, hbooks hrg']
      exact (List.append_nil _).symm

theorem composed_read (h : Composed L R typed id r w t₀ s u t) (h₀ : t₀.Opened id) (hr : 2 ≤ r)
    (hw : 2 ≤ w) (hne : r ≠ w) {res : ReadResult} {kn : Kernel}
    (hc : readCall id o t.sys = some (r, 1, res, kn)) (ho : o = .read 1 ∨ o = .resume)
    (hpend : t.right.pending = []) {next : Option UInt8 → τ} (hn : R t.right.state = .getchar next)
    (hrg : t.sys.cont r ≠ .gone) : Composed L R typed id r w t₀ s u
      { t with sys := settleRead t.sys (r, 1, res, kn),
               right := t.right.received R (readOutcome id o t.sys) } := by
  have hask := (readCall_some hc).1
  have hnone : o.offers t.sys = none := by
    rcases PipeOp.asks_offers o t.sys with e | e
    · rw [e] at hask
      cases hask
    · exact e
  obtain ⟨hends, -⟩ := ofEnds_of_calls (r := r) (w := w) (o := o) (t := t.sys)
    (by rcases ho with rfl | rfl
        · exact Or.inl ⟨1, rfl⟩
        · exact Or.inr (Or.inr rfl))
    (fun q m hq => by
      rw [hask] at hq
      exact (Prod.mk.inj (Option.some.inj hq)).1.symm)
    (fun q bs hq => by
      rw [hnone] at hq
      cases hq)
  have hexec : execPipe id o t.sys = some (settleRead t.sys (r, 1, res, kn)) := by
    have hcall : execCall id o t.sys = some (settleRead t.sys (r, 1, res, kn)) := by
      unfold execCall
      rw [hc]
    rcases ho with rfl | rfl
    · exact hcall
    · exact hcall
  refine h.reads_on h₀ hr hw hne hc hends hpend hn hrg ?_
  refine h.ran.step hends (fun _ => modest_of_offers fun q bs hq => ?_) hexec h.ran.single.reads
  rw [hnone] at hq
  cases hq

theorem composed_right (h : Composed L R typed id r w t₀ s u t) (h₀ : t₀.Opened id) (hr : 2 ≤ r)
    (hw : 2 ≤ w) (hne : r ≠ w) (hcpu : t.sys.onCpu r = true) (hidle : t.sys.cont r = .idle)
    (he : rightStep R id r t = some t') : Composed L R typed id r w t₀ s u t' := by
  have hrg : t.sys.cont r ≠ .gone := by
    rw [hidle]
    simp
  unfold rightStep at he
  split at he
  · rename_i b rest hpend
    obtain rfl := Option.some.inj he
    exact h.rightMoves hidle rfl fun text => Job.step_put hpend
  · rename_i hpend
    split at he
    · rename_i next hR
      obtain ⟨sys, hx, rfl⟩ := Option.map_eq_some_iff.mp he
      rcases execCall_some hx with ⟨⟨q, n, res, kn⟩, hc, rfl⟩ | ⟨c, hc, -⟩
      · obtain ⟨-, b, p, hact, hpq, ⟨hn, -, -⟩ | ⟨hres, -⟩⟩ := readCall_some hc
        · cases hn
          have hq : q = r := by
            obtain ⟨b₁, p₁, hact', hp₁⟩ := onCpu_actor hcpu
            rw [hact'] at hact
            obtain ⟨-, rfl⟩ := Prod.mk.inj (Option.some.inj hact)
            exact hpq.symm.trans hp₁
          rw [hq] at hc ⊢
          exact composed_read h h₀ hr hw hne hc (Or.inl rfl) hpend hR hrg
        · cases hres
      · cases hc
    · rename_i text next hR
      obtain rfl := Option.some.inj he
      exact h.rightMoves hidle rfl fun text => Job.step_print hpend hR
    · rename_i hR
      obtain ⟨sys, hx, rfl⟩ := Option.map_eq_some_iff.mp he
      have hends : PipeOp.ofEnds r w (.detachReader r) t.sys = true := by
        show (decide (r = r) && (t.sys.cont r).present) = true
        rw [hidle, decide_eq_true rfl]
        rfl
      have hran : Ran id r w t₀ sys := h.ran.step hends (fun e => by cases e) hx
        (h.ran.single.quiet (q := r) (c := .gone) (by rw [← Option.some.inj hx]) (Or.inr rfl))
      obtain rfl := Option.some.inj hx
      have hself : Function.update t.sys.cont r .gone r = .gone := Function.update_self ..
      have hother : Function.update t.sys.cont r .gone w = t.sys.cont w :=
        Function.update_of_ne (Ne.symm hne) _ _
      refine ⟨hran, h.left, fun text ht => h.right text ⟨ht.1, fun hg => ht.2 (hother.trans hg)⟩,
        fun hg => absurd hself hg, h.fetched, ?_, fun c n hc => ?_, fun hg => h.leftEnded
        (hother.symm.trans hg), fun _ => ⟨hpend, hR⟩⟩
      · rcases h.reads with e | ⟨hg, hf, hle⟩
        · exact Or.inl e
        · exact Or.inr ⟨hother.trans hg, hf, hle⟩
      · have hc' : Function.update t.sys.cont r .gone r = .reading c n := hc
        rw [hself] at hc'
        cases hc'

theorem composed_resume (h : Composed L R typed id r w t₀ s u t) (h₀ : t₀.Opened id) (hr : 2 ≤ r)
    (hw : 2 ≤ w) (hne : r ≠ w) (hx : execPipe id .resume t.sys = some sys) :
    Composed L R typed id r w t₀ s u
      { t with sys := sys, right := t.right.received R (readOutcome id .resume t.sys) } := by
  rcases execCall_some hx with ⟨⟨q, n, res, kn⟩, hc, rfl⟩ | ⟨⟨q, bs, m, res, kn⟩, hc, rfl⟩
  · obtain ⟨-, b, p, -, -, ⟨hres, -⟩ | ⟨-, c, hcont, -⟩⟩ := readCall_some hc
    · cases hres
    · obtain ⟨rfl, rfl⟩ := h.ran.single.reading hcont
      obtain ⟨hpend, next, hn⟩ := h.getting c 1 hcont
      refine composed_read h h₀ hr hw hne hc (Or.inr rfl) hpend hn ?_
      rw [hcont]
      simp
  · have hnone := readCall_of_write hc
    have hout : readOutcome id .resume t.sys = none := by
      unfold readOutcome
      rw [hnone]
    rw [hout]
    obtain ⟨hoff, b, p, -, -, ⟨data, hres, -⟩ | ⟨-, c, hcont, -⟩⟩ := writeCall_some hc
    · cases hres
    · obtain ⟨rfl, hlen⟩ := h.ran.single.writing hcont
      have hwg : t.sys.cont q ≠ .gone := by
        rw [hcont]
        simp
      have hask : PipeOp.asks .resume t.sys = none := by
        rcases PipeOp.asks_offers .resume t.sys with e | e
        · exact e
        · rw [e] at hoff
          cases hoff
      have hoffers : ∀ q' bs', PipeOp.offers .resume t.sys = some (q', bs') → q' = q ∧ bs' = bs := by
        intro q' bs' hq
        rw [hoff] at hq
        obtain ⟨rfl, rfl⟩ := Prod.mk.inj (Option.some.inj hq)
        exact ⟨rfl, rfl⟩
      obtain ⟨hends, hpair⟩ := ofEnds_of_calls (r := r) (w := q) (o := .resume) (t := t.sys)
        (Or.inr (Or.inr rfl)) (fun q' m hq => by rw [hask] at hq; cases hq)
        fun q' bs' hq => (hoffers q' bs' hq).1
      refine h.writes h₀ hr hw hne hc hpair hwg h.left (List.prefix_refl _) ?_ fun hrg => ?_
      · refine h.ran.step hends (fun _ => modest_of_offers fun q' bs' hq => ?_) hx
          (h.ran.single.writes hc hlen)
        rw [(hoffers q' bs' hq).2]
        exact hlen
      · rw [h.books hrg, hcont]
        rfl

/-- **One step.** -/
theorem composed_step {op : PipelineOp} (h : Composed L R typed id r w t₀ s u t) (h₀ : t₀.Opened id)
    (hr : 2 ≤ r) (hw : 2 ≤ w) (hne : r ≠ w)
    (he : execPipeline L R typed id r w op t = some t') : Composed L R typed id r w t₀ s u t' := by
  have hmodest : ∀ {o : PipeOp}, o.offers t.sys = none → o.modest r t.sys = true := fun hoff =>
    modest_of_offers fun q bs hq => by
      rw [hoff] at hq
      cases hq
  cases op with
  | attachReader =>
    simp only [execPipeline] at he
    split at he
    · rename_i haway
      obtain ⟨sys, hx, rfl⟩ := Option.map_eq_some_iff.mp he
      have hends : PipeOp.ofEnds r w (.attachReader r) t.sys = true := by
        show (decide (r = r) && decide (t.sys.cont r = .away)) = true
        rw [decide_eq_true rfl, decide_eq_true haway]
        rfl
      have hran : Ran id r w t₀ sys := h.ran.step hends (fun _ => hmodest rfl) hx
        (h.ran.single.joined (q := r) (by rw [← Option.some.inj hx]))
      obtain rfl := Option.some.inj hx
      exact composed_attach h hran (q := r) rfl rfl rfl
    · cases he
  | attachWriter =>
    simp only [execPipeline] at he
    split at he
    · rename_i haway
      obtain ⟨sys, hx, rfl⟩ := Option.map_eq_some_iff.mp he
      have hends : PipeOp.ofEnds r w (.attachWriter w) t.sys = true := by
        show (decide (w = w) && decide (t.sys.cont w = .away)) = true
        rw [decide_eq_true rfl, decide_eq_true haway]
        rfl
      have hran : Ran id r w t₀ sys := h.ran.step hends (fun _ => hmodest rfl) hx
        (h.ran.single.joined (q := w) (by rw [← Option.some.inj hx]))
      obtain rfl := Option.some.inj hx
      exact composed_attach h hran (q := w) rfl rfl rfl
    · cases he
  | left =>
    simp only [execPipeline] at he
    split at he
    · rename_i hc
      obtain ⟨hcpu, hidle⟩ := Bool.and_eq_true_iff.mp hc
      exact composed_left h h₀ hr hw hne hcpu (of_decide_eq_true hidle) he
    · cases he
  | right =>
    simp only [execPipeline] at he
    split at he
    · rename_i hc
      obtain ⟨hcpu, hidle⟩ := Bool.and_eq_true_iff.mp hc
      exact composed_right h h₀ hr hw hne hcpu (of_decide_eq_true hidle) he
    · cases he
  | resume =>
    obtain ⟨sys, hx, rfl⟩ := Option.map_eq_some_iff.mp he
    exact composed_resume h h₀ hr hw hne hx
  | schedule fuel rsp =>
    obtain ⟨sys, hx, rfl⟩ := Option.map_eq_some_iff.mp he
    have hends : PipeOp.ofEnds r w (.schedule fuel rsp) t.sys = true := rfl
    obtain ⟨x, hx', rfl⟩ := Option.map_eq_some_iff.mp hx
    have hran : Ran id r w t₀ { t.sys with k := { t.sys.k with sched := x.2 } } :=
      h.ran.step hends (fun _ => hmodest rfl) hx ⟨h.ran.single.reading, h.ran.single.writing⟩
    exact h.leftMoves hran h.left (List.prefix_refl _) h.books rfl (fun hg => ⟨hg, rfl⟩)
      (fun c n hc => hc) (fun hg => hg) h.leftEnded

end

/-! ## runs -/

section
variable {σ τ : Type} {L : σ → Action σ UInt8 UInt8} {R : τ → Action τ UInt8 UInt8}
  {typed : Nat → Option UInt8} {id : Nat} {r w : Int} {t₀ : PipeSys} {s : σ} {u : τ}
  {t : Pipeline σ τ}

theorem composed_run {os : List PipelineOp} (h₀ : t₀.Opened id) (hr : 2 ≤ r) (hw : 2 ≤ w) (hne : r ≠ w)
    (hrun : Runs (execPipeline L R typed id r w) (fun _ _ => True) os (.start t₀ s u) t) :
    Composed L R typed id r w t₀ s u t := by
  have haway : ∀ q, t₀.cont q = .away ∧ t₀.stored = [] ∧ t₀.fetched = [] := by
    obtain ⟨_, _, -, -, -, -, hc, hs, hf⟩ := h₀
    exact fun q => ⟨hc q, hs, hf⟩
  refine Runs.inv (I := Composed L R typed id r w t₀ s u)
    (fun o t t' h _ he => composed_step h h₀ hr hw hne he) hrun ?_
  have hgone : ∀ q, t₀.cont q ≠ .gone := by
    intro q
    rw [(haway q).1]
    simp
  refine ⟨⟨⟨[], rfl⟩, fun _ _ => ⟨[], rfl⟩, ⟨fun {q} _ _ hq => ?_, fun {q} _ _ _ hq => ?_⟩⟩,
    Relation.ReflTransGen.refl, fun text _ => Relation.ReflTransGen.refl, fun _ => ?_, ?_, Or.inl ?_,
    fun c n hc => ?_, fun hg => absurd hg (hgone w), fun hg => absurd hg (hgone r)⟩
  · exact absurd ((haway q).1.symm.trans hq) (by simp)
  · exact absurd ((haway q).1.symm.trans hq) (by simp)
  · show [] = t₀.stored ++ (t₀.cont w).rest
    rw [(haway w).1, (haway w).2.1]
    rfl
  · show t₀.fetched <+: []
    rw [(haway w).2.2]
  · show 0 = t₀.fetched.length
    rw [(haway w).2.2]
    rfl
  · have hc' : t₀.cont r = .reading c n := hc
    rw [(haway r).1] at hc'
    cases hc'

/-- the left program ends alone as `l`, and on what that has written the right one as `k` -/
theorem Composed.shows (h : Composed L R typed id r w t₀ s u t) {l : Job σ UInt8} {k : Job τ UInt8}
    (hl : Job.Reaches L typed (.start s) l) (hlf : l.Finished L)
    (hk : Job.Reaches R (textStream l.out) (.start u) k) (hkf : k.Finished R) :
    t.right.out <+: k.out ∧ (t.sys.cont r = .gone → t.right.out = k.out) := by
  have hmay : t.mayWrite w l.out := by
    refine ⟨(hl.finished h.left hlf).grows.2, fun hg => ?_⟩
    rw [hl.finished_eq h.left hlf (h.leftEnded hg)]
  have hright := h.right l.out hmay
  refine ⟨(hk.finished hright hkf).grows.2, fun hg => ?_⟩
  rw [hk.finished_eq hright hkf (h.rightEnded hg)]

/-- **A pipeline computes the composition of its commands.**  In every run each program has done what it
does alone: the left one on what is typed, the right one on any text that goes on from what the left one
has written.  So when the left program ends alone, having written some text, and the right one ends on
that text, then what is on the screen is the beginning of what the right one writes there, and all of it
once it has ended.  While neither has ended, they do not wait for each other. -/
theorem pipeline_composes {os : List PipelineOp} (h₀ : t₀.Opened id) (hr : 2 ≤ r) (hw : 2 ≤ w)
    (hne : r ≠ w)
    (hrun : Runs (execPipeline L R typed id r w) (fun _ _ => True) os (.start t₀ s u) t) :
    Job.Reaches L typed (.start s) t.left ∧
    (∀ text, t.mayWrite w text → Job.Reaches R (textStream text) (.start u) t.right) ∧
    (∀ l k, Job.Reaches L typed (.start s) l → l.Finished L →
      Job.Reaches R (textStream l.out) (.start u) k → k.Finished R →
      t.right.out <+: k.out ∧ (t.sys.cont r = .gone → t.right.out = k.out)) ∧
    (t.sys.cont r ≠ .gone → t.sys.cont w ≠ .gone → ¬ Deadlocked r w t.sys) := by
  have h := composed_run h₀ hr hw hne hrun
  refine ⟨h.left, h.right, fun l k hl hlf hk hkf => h.shows hl hlf hk hkf, fun hrg hwg => ?_⟩
  obtain ⟨os', hos'⟩ := h.ran.both hrg hwg
  obtain ⟨a, v, hv, hp, -⟩ := pair_run h₀ hr hw hos'
  exact hp.not_deadlocked hv

end

end Tp2So
