import Mathlib.Logic.Relation
import Mathlib.Data.List.Infix

/-!
# Programs that read and write

A program reads one character after the other, writes, and ends.  What it reads is a stream, which says
for each read what it gives; none is the end of file.

* `Action`, `Job`      what a program does next, and a program that is being run;
* `Job.step`           one step of a job that is alone, on a stream;
* `Job.Reaches`        some steps; `Job.Reaches.congr` only what is read matters, and
                       `Job.Reaches.finished` a job that has ended is the last one;
* `textStream`         the stream of a text that ends;
* `reaches_text`       a loop that reads a text to its end.
-/

namespace Tp2So

inductive Action (σ α β : Type) where
  | getchar (next : Option α → σ)
  | print (text : List β) (next : σ)
  | exit

/-- where a program is: `pending` is what it still has to write of its last `print`, `reads` how often it
has read, and `out` what it has written -/
structure Job (σ β : Type) where
  state : σ
  pending : List β
  reads : Nat
  out : List β

section
variable {σ α β : Type}

def Job.start (s : σ) : Job σ β := ⟨s, [], 0, []⟩

/-- one item is written -/
def Job.put (j : Job σ β) (b : β) (rest : List β) : Job σ β :=
  { j with pending := rest, out := j.out ++ [b] }

/-- one item has been read, which leads to the state `s` -/
def Job.got (j : Job σ β) (s : σ) : Job σ β := { j with state := s, reads := j.reads + 1 }

def Job.step (p : σ → Action σ α β) (x : Nat → Option α) (j : Job σ β) : Option (Job σ β) :=
  match j.pending with
  | b :: rest => some (j.put b rest)
  | [] =>
    match p j.state with
    | .getchar next => some (j.got (next (x j.reads)))
    | .print text next => some { j with state := next, pending := text }
    | .exit => none

/-- the program has nothing more to do -/
def Job.Finished (p : σ → Action σ α β) (j : Job σ β) : Prop :=
  j.pending = [] ∧ p j.state = .exit

/-- the job `k` is some steps on -/
def Job.Reaches (p : σ → Action σ α β) (x : Nat → Option α) : Job σ β → Job σ β → Prop :=
  Relation.ReflTransGen fun j k => j.step p x = some k

/-- the characters of a text, and the end of file for ever -/
def textStream (text : List α) (i : Nat) : Option α := text[i]?

variable {p : σ → Action σ α β} {x x' : Nat → Option α} {j k l : Job σ β}

theorem Job.step_put {b : β} {rest : List β} (h : j.pending = b :: rest) :
    j.step p x = some (j.put b rest) := by
  unfold Job.step
  rw [h]

theorem Job.step_getchar {next : Option α → σ} (h : j.pending = [])
    (hp : p j.state = .getchar next) :
    j.step p x = some (j.got (next (x j.reads))) := by
  unfold Job.step
  rw [h]
  simp only [hp]

theorem Job.step_print {text : List β} {s : σ} (h : j.pending = [])
    (hp : p j.state = .print text s) :
    j.step p x = some { j with state := s, pending := text } := by
  unfold Job.step
  rw [h]
  simp only [hp]

theorem Job.Finished.step (h : j.Finished p) : j.step p x = none := by
  unfold Job.step
  rw [h.1]
  simp only [h.2]

theorem Job.step_grows (h : j.step p x = some k) :
    j.reads ≤ k.reads ∧ j.out <+: k.out := by
  unfold Job.step at h
  split at h
  · obtain rfl := Option.some.inj h
    exact ⟨Nat.le_refl _, List.prefix_append _ _⟩
  · split at h
    · obtain rfl := Option.some.inj h
      exact ⟨Nat.le_succ _, List.prefix_refl _⟩
    · obtain rfl := Option.some.inj h
      exact ⟨Nat.le_refl _, List.prefix_refl _⟩
    · exact absurd h (by simp)

/-- a step reads at most the next item -/
theorem Job.step_congr (h : j.step p x = some k)
    (hi : j.reads < k.reads → x j.reads = x' j.reads) : j.step p x' = some k := by
  unfold Job.step at h ⊢
  split at h
  · exact h
  · split at h
    · have hk := Option.some.inj h
      have hlt : j.reads < k.reads := by
        rw [← hk]
        exact Nat.lt_succ_self _
      rw [← hi hlt]
      exact h
    · exact h
    · exact h

theorem Job.Reaches.grows (h : Job.Reaches p x j k) : j.reads ≤ k.reads ∧ j.out <+: k.out := by
  induction h with
  | refl => exact ⟨Nat.le_refl _, List.prefix_refl _⟩
  | tail _ hstep ih =>
    obtain ⟨h1, h2⟩ := Job.step_grows hstep
    exact ⟨Nat.le_trans ih.1 h1, ih.2.trans h2⟩

/-- **Only what has been read matters.** -/
theorem Job.Reaches.congr (h : Job.Reaches p x j k) (hi : ∀ n, n < k.reads → x n = x' n) :
    Job.Reaches p x' j k := by
  induction h with
  | refl => exact Relation.ReflTransGen.refl
  | @tail m k hjm hstep ih =>
    have hle := (Job.step_grows hstep).1
    refine (ih fun n hlt => hi n (Nat.lt_of_lt_of_le hlt hle)).tail ?_
    exact Job.step_congr hstep fun hlt => hi _ hlt

/-- **A job that has ended is the last one.** -/
theorem Job.Reaches.finished (hk : Job.Reaches p x j k) (hl : Job.Reaches p x j l)
    (hf : k.Finished p) : Job.Reaches p x l k := by
  have hunique : Relator.RightUnique fun j k : Job σ β => j.step p x = some k :=
    fun a b c hb hc => Option.some.inj (hb.symm.trans hc)
  rcases Relation.ReflTransGen.total_of_right_unique hunique hk hl with h | h
  · rcases Relation.ReflTransGen.cases_head h with rfl | ⟨m, hm, -⟩
    · exact Relation.ReflTransGen.refl
    · rw [hf.step] at hm
      exact absurd hm (by simp)
  · exact h

theorem Job.Reaches.finished_eq (hk : Job.Reaches p x j k) (hl : Job.Reaches p x j l)
    (hf : k.Finished p) (hf' : l.Finished p) : k = l := by
  rcases Relation.ReflTransGen.cases_head (hk.finished hl hf) with rfl | ⟨m, hm, -⟩
  · rfl
  · rw [hf'.step] at hm
    exact absurd hm (by simp)

theorem reaches_printed (text : List β) : ∀ (s : σ) (n : Nat) (out : List β),
    Job.Reaches p x ⟨s, text, n, out⟩ ⟨s, [], n, out ++ text⟩ := by
  induction text with
  | nil =>
    intro s n out
    rw [List.append_nil]
    exact Relation.ReflTransGen.refl
  | cons b text ih =>
    intro s n out
    have hrest := ih s n (out ++ [b])
    rw [List.append_assoc] at hrest
    exact Relation.ReflTransGen.head (Job.step_put rfl) hrest

theorem reaches_print {s s' : σ} {text : List β} (hp : p s = .print text s') (n : Nat)
    (out : List β) : Job.Reaches p x ⟨s, [], n, out⟩ ⟨s', [], n, out ++ text⟩ :=
  Relation.ReflTransGen.head (Job.step_print rfl hp) (reaches_printed text s' n out)

/-- what a loop writes that goes from `r` to `f r c` and writes `g r c` for each character -/
def outputs {ρ : Type} (f : ρ → α → ρ) (g : ρ → α → List β) : ρ → List α → List β
  | _, [] => []
  | r, c :: text => g r c ++ outputs f g (f r c) text

/-- **A loop over a text.**  What one turn does to the head of the loop for one character, the loop does
for the whole text. -/
theorem reaches_text {ρ : Type} {e : ρ → σ} {f : ρ → α → ρ} {g : ρ → α → List β}
    (hturn : ∀ r c n out, x n = some c →
      Job.Reaches p x ⟨e r, [], n, out⟩ ⟨e (f r c), [], n + 1, out ++ g r c⟩)
    (text : List α) : ∀ (r : ρ) (n : Nat) (out : List β), (∀ i, x (n + i) = text[i]?) →
    Job.Reaches p x ⟨e r, [], n, out⟩
      ⟨e (text.foldl f r), [], n + text.length, out ++ outputs f g r text⟩ := by
  induction text with
  | nil =>
    intro r n out _
    show Job.Reaches p x _ ⟨e r, [], n, out ++ []⟩
    rw [List.append_nil]
    exact Relation.ReflTransGen.refl
  | cons c text ih =>
    intro r n out hin
    have hrest := ih (f r c) (n + 1) (out ++ g r c) fun i => by
      have hi := hin (i + 1)
      rw [List.getElem?_cons_succ] at hi
      rw [← hi, Nat.add_assoc, Nat.add_comm 1 i]
    rw [List.append_assoc, Nat.add_assoc, Nat.add_comm 1] at hrest
    exact (hturn r c n out (hin 0)).trans hrest

end

end Tp2So
