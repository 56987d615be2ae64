import Mathlib.Data.List.Basic

/-!
# Reversal in place

Two positions move towards each other, and what they hold is exchanged until they meet.

* `swapLoop`      the loop;
* `swapLoop_get`  what is between the two positions is turned round, the rest is as it was;
* `swapLoop_eq`   over the whole list that is `List.reverse`.
-/

set_option linter.unusedVariables false

namespace Tp2So

section
variable {α : Type*} [Inhabited α]

/-- `while (p < q) { swap(*p, *q); p++; q--; }` -/
def swapLoop : Nat → Nat → Nat → List α → List α
  | 0, _, _, l => l
  | n + 1, p, q, l =>
    if p < q then swapLoop n (p + 1) (q - 1) ((l.set p (l.getD q default)).set q (l.getD p default))
    else l

theorem getElem?_getD_of_lt {l : List α} {i : Nat} (h : i < l.length) :
    l[i]? = some (l.getD i default) := by
  rw [List.getD_eq_getElem?_getD, List.getElem?_eq_getElem h, Option.getD_some]

theorem swapLoop_get (n : Nat) : ∀ {p q : Nat} {l : List α}, q < l.length → q ≤ p + 2 * n → ∀ i,
    (swapLoop n p q l)[i]? = if p ≤ i ∧ i ≤ q then l[p + q - i]? else l[i]? := by
  induction n with
  | zero =>
    intro p q l hq hn i
    show l[i]? = _
    split
    · rename_i hin
      rw [show p + q - i = i by omega]
    · rfl
  | succ n ih =>
    intro p q l hq hn i
    by_cases hlt : p < q
    · have hstep : swapLoop (n + 1) p q l = swapLoop n (p + 1) (q - 1)
          ((l.set p (l.getD q default)).set q (l.getD p default)) := if_pos hlt
      rw [hstep, ih (by rw [List.length_set, List.length_set]; omega) (by omega)]
      have hp : l[p]? = some (l.getD p default) := getElem?_getD_of_lt (by omega)
      have hq' : l[q]? = some (l.getD q default) := getElem?_getD_of_lt hq
      -- the two ends were exchanged, what is between them is for the rest of the loop
      have hother : ∀ j, j ≠ p → j ≠ q →
          ((l.set p (l.getD q default)).set q (l.getD p default))[j]? = l[j]? := fun j h1 h2 => by
        rw [List.getElem?_set_ne (Ne.symm h2), List.getElem?_set_ne (Ne.symm h1)]
      by_cases hip : i = p
      · subst hip
        rw [if_neg (by omega), if_pos ⟨Nat.le_refl _, Nat.le_of_lt hlt⟩,
          List.getElem?_set_ne (Nat.ne_of_gt hlt), List.getElem?_set_self (by omega),
          show i + q - i = q by omega, hq']
      by_cases hiq : i = q
      · subst hiq
        rw [if_neg (by omega), if_pos ⟨Nat.le_of_lt hlt, Nat.le_refl _⟩,
          List.getElem?_set_self (by rw [List.length_set]; exact hq),
          show p + i - i = p by omega, hp]
      by_cases hin : p + 1 ≤ i ∧ i ≤ q - 1
      · rw [if_pos hin, if_pos (by omega), hother _ (by omega) (by omega),
          show p + 1 + (q - 1) - i = p + q - i by omega]
      · rw [if_neg hin, if_neg (by omega), hother i hip hiq]
    · have hstep : swapLoop (n + 1) p q l = l := if_neg hlt
      rw [hstep]
      split
      · rename_i hin
        rw [show p + q - i = i by omega]
      · rfl

theorem swapLoop_eq (l : List α) : swapLoop l.length 0 (l.length - 1) l = l.reverse := by
  apply List.ext_getElem?
  intro i
  cases l with
  | nil => rfl
  | cons a l =>
    have hlen : (a :: l).length = l.length + 1 := List.length_cons
    rw [swapLoop_get _ (by omega) (by omega)]
    by_cases hi : i < (a :: l).length
    · rw [if_pos (by omega), List.getElem?_reverse hi, Nat.zero_add]
    · rw [if_neg (by omega), List.getElem?_eq_none (by omega),
        List.getElem?_eq_none (by rw [List.length_reverse]; omega)]

end

end Tp2So
