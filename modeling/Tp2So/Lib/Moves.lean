import Mathlib.Data.List.Basic
import Mathlib.Logic.Function.Basic
import Mathlib.Order.Defs.PartialOrder

/-!
# Assignments one after the other

Each assignment gives a cell the contents of another, or a value.

* `runMoves_other`      a cell that is no target stays;
* `runMoves_at`         where no assignment reads or writes the target of an earlier one, all of them read
                        the old contents;
* `runMoves_ascending`  it is so where the targets ascend and no cell below its target is read.
-/

set_option linter.unusedVariables false

namespace Tp2So

inductive Source (α β : Type*) where
  | cell (a : α)
  | value (b : β)

structure Move (α β : Type*) where
  target : α
  source : Source α β

section
variable {α β : Type*} [DecidableEq α] {l l' : List (Move α β)} {m : α → β} {s t : Move α β} {a : α}

def Source.read (m : α → β) : Source α β → β
  | cell a => m a
  | value b => b

def Move.run (m : α → β) (s : Move α β) : α → β := Function.update m s.target (s.source.read m)

def runMoves (l : List (Move α β)) (m : α → β) : α → β := l.foldl Move.run m

/-- `t` neither reads nor writes what `s` writes -/
def Move.Spares (s t : Move α β) : Prop := s.target ≠ t.target ∧ t.source ≠ .cell s.target

theorem runMoves_append (l l' : List (Move α β)) (m : α → β) : runMoves (l ++ l') m = runMoves l' (runMoves l m) :=
  List.foldl_append

theorem runMoves_flatMap {ι : Type*} (is : List ι) (f : ι → List (Move α β)) (m : α → β) :
    runMoves (is.flatMap f) m = is.foldl (fun m i => runMoves (f i) m) m :=
  List.foldl_flatMap ..

theorem Source.read_update {b : β} (src : Source α β) (h : src ≠ .cell a) :
    src.read (Function.update m a b) = src.read m := by
  cases src with
  | cell c => exact Function.update_of_ne (fun hc => h (congrArg Source.cell hc)) _ _
  | value c => rfl

theorem runMoves_other (h : ∀ s ∈ l, s.target ≠ a) : runMoves l m a = m a := by
  induction l generalizing m with
  | nil => rfl
  | cons s l ih =>
    obtain ⟨hs, hl⟩ := List.forall_mem_cons.mp h
    show runMoves l (s.run m) a = m a
    rw [ih hl]
    exact Function.update_of_ne hs.symm _ _

theorem runMoves_at (h : l.Pairwise Move.Spares) (ht : t ∈ l) : runMoves l m t.target = t.source.read m := by
  induction l generalizing m with
  | nil => exact absurd ht List.not_mem_nil
  | cons s l ih =>
    obtain ⟨hs, hl⟩ := List.pairwise_cons.mp h
    show runMoves l (s.run m) t.target = _
    rcases List.mem_cons.mp ht with rfl | ht
    · rw [runMoves_other fun u hu => (hs u hu).1.symm]
      exact Function.update_self _ _ _
    · rw [ih hl ht]
      exact t.source.read_update (hs t ht).2

end

section
variable {α β : Type*} [Preorder α] [DecidableEq α] {l : List (Move α β)} {m : α → β} {t : Move α β}

theorem runMoves_ascending (h : l.Pairwise fun s t => s.target < t.target)
    (hread : ∀ t ∈ l, ∀ a, t.source = .cell a → t.target ≤ a) (ht : t ∈ l) :
    runMoves l m t.target = t.source.read m := by
  refine runMoves_at (h.imp_of_mem fun {s t} _ ht hlt => ⟨ne_of_lt hlt, fun hcell => ?_⟩) ht
  exact absurd (hread t ht _ hcell) (not_le_of_gt hlt)

end

end Tp2So
