import Tp2So.Pipes.Finishing
import Tp2So.Programs.Filters

/-!
# The commands in a pipeline

* `pipeline_commands`   what `cat`, `filter` and `wc` show behind a pipe, for any program before it;
* `catFilter`           a run of `cat | filter`.
-/

set_option linter.unusedVariables false

namespace Tp2So

open Commands

section
variable {σ : Type} {L : σ → Action σ UInt8 UInt8} {typed : Nat → Option UInt8} {id : Nat} {r w : Int}
  {t₀ : PipeSys} {s : σ} {l : Job σ UInt8}

/-- what a right command shows that alone ends with `out` on the text of the left one -/
theorem pipeline_shows {τ : Type} {R : τ → Action τ UInt8 UInt8} {u : τ} {t : Pipeline σ τ}
    {os : List PipelineOp} {done : τ} {n : Nat} {out : List UInt8} (h₀ : t₀.Opened id) (hr : 2 ≤ r)
    (hw : 2 ≤ w) (hne : r ≠ w) (hl : Job.Reaches L typed (.start s) l) (hlf : l.Finished L)
    (hk : Job.Reaches R (textStream l.out) (.start u) ⟨done, [], n, out⟩) (hdone : R done = .exit)
    (hrun : Runs (execPipeline L R typed id r w) (fun _ _ => True) os (.start t₀ s u) t) :
    t.right.out <+: out ∧ (t.sys.cont r = .gone → t.right.out = out) :=
  (composed_run h₀ hr hw hne hrun).shows hl hlf hk ⟨rfl, hdone⟩

/-- **`left | cat`, `left | filter` and `left | wc`.**  Whatever the left program is that ends alone,
having written a text, and whatever the order of the steps: `cat` shows the text, `filter` the text
without its vowels and a newline, and `wc` the number of its lines; before it has ended, a beginning
of that. -/
theorem pipeline_commands (h₀ : t₀.Opened id) (hr : 2 ≤ r) (hw : 2 ≤ w) (hne : r ≠ w)
    (hl : Job.Reaches L typed (.start s) l) (hlf : l.Finished L) :
    (∀ os t, Runs (execPipeline L cat typed id r w) (fun _ _ => True) os (.start t₀ s .loop) t →
      t.right.out <+: l.out ∧ (t.sys.cont r = .gone → t.right.out = l.out)) ∧
    (∀ os t, Runs (execPipeline L filter typed id r w) (fun _ _ => True) os
        (.start t₀ s (.start [])) t →
      t.right.out <+: (l.out.filter fun c => !isVowel c) ++ [newline] ∧
      (t.sys.cont r = .gone → t.right.out = (l.out.filter fun c => !isVowel c) ++ [newline])) ∧
    (∀ os t, Runs (execPipeline L wc typed id r w) (fun _ _ => True) os (.start t₀ s (.start [])) t →
      t.right.out <+: wcReport (wcLines l.out) ∧
      (t.sys.cont r = .gone → t.right.out = wcReport (wcLines l.out))) := by
  refine ⟨fun os t hrun => ?_, fun os t hrun => ?_, fun os t hrun => ?_⟩
  · exact pipeline_shows h₀ hr hw hne hl hlf (cat_alone l.out) rfl hrun
  · exact pipeline_shows h₀ hr hw hne hl hlf (filter_alone l.out) rfl hrun
  · exact pipeline_shows h₀ hr hw hne hl hlf (wc_alone l.out) rfl hrun

end

/-- the reader comes first and sleeps; `ab` is typed and goes through the pipe, and the writer has ended
before the reader reads its first character -/
def catFilter : List PipelineOp :=
  [.attachWriter, .attachReader, .schedule 8 8, .schedule 8 8200, .schedule 8 16400, .right, .right,
    .schedule 8 24600, .schedule 8 32800, .schedule 8 8200, .left, .left, .left, .left, .left, .left,
    .left, .left, .schedule 8 16400, .schedule 8 32800, .schedule 8 8200, .resume, .right, .right,
    .right, .right, .right, .right, .right]

def typedAb : List UInt8 := [97, 98]

/-- the run up to two of its states, and what `f` finds there -/
theorem catFilter_cut {β : Type} {f : Pipeline CatState FilterState → Pipeline CatState FilterState → β}
    {x : β} {n m : Nat}
    (hrun : ((runIf execSem SemOp.clean threeUsers (SemSys.boot 0 [])).bind fun s =>
      (runIf (execPipeline cat filter (textStream typedAb) 2 3 2) (fun _ _ => true) (catFilter.take n)
        (.start (.start s.k fun _ => 0) .loop (.start []))).bind fun t₁ =>
      (runIf (execPipeline cat filter (textStream typedAb) 2 3 2) (fun _ _ => true)
        ((catFilter.drop n).take m) t₁).map fun t =>
      (locateSemaphoreByName s.k.sems (buildSemName 2 'R'),
        locateSemaphoreByName s.k.sems (buildSemName 2 'W'), (openPipe s.k fun _ => 0).1, f t₁ t))
      = some (none, none, 2, x)) :
    ∃ t₀ t₁ t, t₀.Opened 2 ∧ Runs (execPipeline cat filter (textStream typedAb) 2 3 2)
      (fun _ _ => True) (catFilter.take n) (.start t₀ .loop (.start [])) t₁ ∧
      Runs (execPipeline cat filter (textStream typedAb) 2 3 2) (fun _ _ => True)
        ((catFilter.drop n).take m) t₁ t ∧ f t₁ t = x := by
  obtain ⟨s, hs, hrun⟩ := Option.bind_eq_some_iff.mp hrun
  obtain ⟨t₁, ht₁, hrun⟩ := Option.bind_eq_some_iff.mp hrun
  obtain ⟨t, ht, hv⟩ := Option.map_eq_some_iff.mp hrun
  simp only [Prod.mk.injEq] at hv
  obtain ⟨hr, hw, hid, hf⟩ := hv
  exact ⟨_, t₁, t, opened_start (sound_run (runs_of_runIf hs)) hr hw hid,
    (runs_of_runIf ht₁).mono fun _ _ _ => trivial, (runs_of_runIf ht).mono fun _ _ _ => trivial, hf⟩

/-- the run, and what it has shown -/
theorem catFilter_run : ∃ t₀ t, t₀.Opened 2 ∧
    Runs (execPipeline cat filter (textStream typedAb) 2 3 2) (fun _ _ => True) catFilter
      (.start t₀ .loop (.start [])) t ∧ t.sys.cont 3 = .gone ∧ t.left.out = typedAb := by
  obtain ⟨t₀, t, -, h₀, hrun, -, hf⟩ := catFilter_cut (n := 29) (m := 0) (x := (true, typedAb))
    (f := fun t _ => (decide (t.sys.cont 3 = .gone), t.left.out)) (by decide +kernel)
  obtain ⟨hgone, hleft⟩ := Prod.mk.inj hf
  exact ⟨t₀, t, h₀, hrun, of_decide_eq_true hgone, hleft⟩

/-- the writer has ended while the reader was asleep in its first `readPipe`, and now the reader has the
CPU -/
theorem pipeline_awake_catFilter : ∃ t₀ t₁ t, t₀.Opened 2 ∧
    Runs (execPipeline cat filter (textStream typedAb) 2 3 2) (fun _ _ => True) (catFilter.take 7)
      (.start t₀ .loop (.start [])) t₁ ∧
    Runs (execPipeline cat filter (textStream typedAb) 2 3 2) (fun _ _ => True)
      ((catFilter.drop 7).take 14) t₁ t ∧
    t₁.sys.blockedIn 3 .rd = true ∧ t.sys.cont 2 = .gone ∧ t.sys.blockedIn 3 .rd = false ∧
    ∃ op t', (op = .right ∨ op = .resume) ∧
      execPipeline cat filter (textStream typedAb) 2 3 2 op t = some t' ∧ t.goesOn filter 3 t' := by
  obtain ⟨t₀, t₁, t, h₀, hrun, hrun', hf⟩ := catFilter_cut (n := 7) (m := 14)
    (x := (true, true))
    (f := fun t₁ t => (t₁.sys.blockedIn 3 .rd && decide (t₁.sys.cont 2 ≠ .gone),
      decide (t.sys.cont 2 = .gone ∧ (t.sys.cont 3).side = some .rd) && t.sys.onCpu 3))
    (by decide +kernel)
  simp only [Prod.mk.injEq, Bool.and_eq_true, decide_eq_true_eq] at hf
  obtain ⟨⟨hasleep, hwriter⟩, ⟨hgone, hside⟩, hcpu⟩ := hf
  have haway : t₁.sys.cont 3 ≠ .away := by
    intro e
    unfold PipeSys.blockedIn at hasleep
    rw [e] at hasleep
    exact absurd hasleep Bool.false_ne_true
  have hthere : t.sys.cont 3 ≠ .gone := by
    intro e
    rw [e] at hside
    cases hside
  obtain ⟨hawake, hgo⟩ := pipeline_awake h₀ (by decide) (by decide) (by decide) hrun haway hwriter hrun'
    hgone hthere
  exact ⟨t₀, t₁, t, h₀, hrun, hrun', hasleep, hgone, hawake, hgo hcpu⟩

theorem pipeline_composes_catFilter : ∃ t₀ t, t₀.Opened 2 ∧
    Runs (execPipeline cat filter (textStream typedAb) 2 3 2) (fun _ _ => True) catFilter
      (.start t₀ .loop (.start [])) t ∧ t.right.out = [98, 10] := by
  obtain ⟨t₀, t, h₀, hrun, hgone, -⟩ := catFilter_run
  have h := (pipeline_composes h₀ (by decide) (by decide) (by decide) hrun).2.2.1 _ _
    (cat_alone typedAb) ⟨rfl, rfl⟩ (filter_alone typedAb) ⟨rfl, rfl⟩
  exact ⟨t₀, t, h₀, hrun, h.2 hgone⟩

theorem pipeline_commands_catFilter : ∃ t₀ t, t₀.Opened 2 ∧
    Runs (execPipeline cat filter (textStream typedAb) 2 3 2) (fun _ _ => True) catFilter
      (.start t₀ .loop (.start [])) t ∧ t.right.out = [98, 10] := by
  obtain ⟨t₀, t, h₀, hrun, hgone, -⟩ := catFilter_run
  have h := (pipeline_commands h₀ (by decide) (by decide) (by decide) (cat_alone typedAb)
    ⟨rfl, rfl⟩).2.1 catFilter t hrun
  exact ⟨t₀, t, h₀, hrun, h.2 hgone⟩

end Tp2So
