import Tp2So.Lib.Runs
import Mathlib.Data.List.Basic
import Mathlib.Data.List.Nodup

/-!
# Waiting in a line

* `Moves a l l'`     the line `l` has become `l'`: some have left, `a` has not, and others have come
                     to the end;
* `Moves.place_le`   `a` is not overtaken;
* `Moves.place_lt`   and it moves up when the head leaves;
* `Runs.countdown`   a measure that every step lowers by the weight of the step bounds the weight of a
                     run.
-/

namespace Tp2So

section
variable {α : Type} {a b : α} {l l' : List α}

def Moves (a : α) (l l' : List α) : Prop := ∃ m x, l' = m ++ x ∧ m.Sublist l ∧ a ∈ m

theorem Moves.refl (ha : a ∈ l) : Moves a l l := ⟨l, [], (List.append_nil l).symm, .refl l, ha⟩

theorem Moves.mem (h : Moves a l l') : a ∈ l' := by
  obtain ⟨m, x, rfl, -, ha⟩ := h
  exact List.mem_append_left x ha

theorem Moves.arrive (b : List α) (ha : a ∈ l) : Moves a l (l ++ b) := ⟨l, b, rfl, .refl l, ha⟩

theorem Moves.depart (h : l'.Sublist l) (ha : a ∈ l') : Moves a l l' :=
  ⟨l', [], (List.append_nil l').symm, h, ha⟩

variable [DecidableEq α]

/-- who is left in a line stands where he stood, or further up -/
theorem idxOf_sublist_le (h : l'.Sublist l) (hnd : l.Nodup) (ha : a ∈ l') :
    l'.idxOf a ≤ l.idxOf a := by
  induction h with
  | slnil => exact absurd ha List.not_mem_nil
  | cons b h ih =>
    have hne : b ≠ a := fun e => (List.nodup_cons.mp hnd).1 (e ▸ h.subset ha)
    rw [List.idxOf_cons_ne _ hne]
    exact Nat.le_succ_of_le (ih (List.nodup_cons.mp hnd).2 ha)
  | cons_cons b h ih =>
    by_cases e : b = a
    · rw [e, List.idxOf_cons_self]
      exact Nat.zero_le _
    · rw [List.idxOf_cons_ne _ e, List.idxOf_cons_ne _ e]
      have ha' := List.mem_of_ne_of_mem (Ne.symm e) ha
      exact Nat.succ_le_succ (ih (List.nodup_cons.mp hnd).2 ha')

theorem Moves.place_le (h : Moves a l l') (hnd : l.Nodup) : l'.idxOf a ≤ l.idxOf a := by
  obtain ⟨m, x, rfl, hm, ha⟩ := h
  rw [List.idxOf_append_of_mem ha]
  exact idxOf_sublist_le hm hnd ha

/-- the head of the line leaves -/
theorem Moves.place_lt (h : Moves a l l') (hnd : (b :: l).Nodup) :
    l'.idxOf a + 1 ≤ (b :: l).idxOf a := by
  have hle := h.place_le (List.nodup_cons.mp hnd).2
  obtain ⟨m, x, rfl, hm, ha⟩ := h
  have hne : b ≠ a := fun e => (List.nodup_cons.mp hnd).1 (e ▸ hm.subset ha)
  rw [List.idxOf_cons_ne _ hne]
  exact Nat.succ_le_succ hle

end

section
variable {σ ο : Type} {exec : ο → σ → Option σ} {ok : ο → σ → Prop}

/-- the steps of a run, weighed -/
def weigh (w : ο → Nat) : List ο → Nat
  | [] => 0
  | o :: os => w o + weigh w os

theorem weigh_cons (w : ο → Nat) (o : ο) (os : List ο) : weigh w (o :: os) = w o + weigh w os := rfl

/-- **Countdown rule.** -/
theorem Runs.countdown {I : σ → Prop} {m : σ → Nat} {w : ο → Nat}
    (hstep : ∀ o s u, I s → ok o s → exec o s = some u → I u ∧ m u + w o ≤ m s)
    {os : List ο} {s t : σ} (h : Runs exec ok os s t) (hs : I s) : m t + weigh w os ≤ m s := by
  induction os generalizing s with
  | nil =>
    rw [← show s = t from h]
    exact Nat.le_refl _
  | cons o os ih =>
    obtain ⟨ho, u, hu, ht⟩ := h
    obtain ⟨hI, hle⟩ := hstep o s u hs ho hu
    have hrest := ih ht hI
    rw [weigh_cons]
    omega

end

end Tp2So
