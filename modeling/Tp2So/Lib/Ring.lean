import Mathlib.Data.List.Basic
import Mathlib.Logic.Function.Basic

/-!
# Ring buffers

A buffer of `N` cells with a read index `r` and a write index `w`, both below `N`, holds the cells from
`r` up to `w`, round the end.  One cell always stays free, so that `r = w` means empty.

* `ringCount N r w`, `ringList N buf r w`    how many cells are in use, and what they hold;
* `ringList_pop`     reading takes the head off;
* `ringList_push`    writing into a ring that is not full appends;
* `ringList_concat`  the cell before the write index is the last;
* `ringCount_full`   the test for a full ring.
-/

namespace Tp2So

section
variable {α : Type*} {N r w : Nat}

def ringCount (N r w : Nat) : Nat := if r ≤ w then w - r else w + N - r

def ringList (N : Nat) (buf : Nat → α) (r w : Nat) : List α :=
  (List.range (ringCount N r w)).map fun i => buf ((r + i) % N)

@[simp] theorem ringList_length (buf : Nat → α) :
    (ringList N buf r w).length = ringCount N r w := by
  unfold ringList
  rw [List.length_map, List.length_range]

theorem ringCount_lt (hr : r < N) (hw : w < N) : ringCount N r w < N := by
  unfold ringCount
  split <;> omega

theorem ringCount_eq_zero (hr : r < N) : ringCount N r w = 0 ↔ r = w := by
  unfold ringCount
  split <;> omega

theorem ringList_eq_nil (hr : r < N) (buf : Nat → α) : ringList N buf r w = [] ↔ r = w := by
  rw [← List.length_eq_zero_iff, ringList_length, ringCount_eq_zero hr]

/-! ## the next index -/

theorem succ_mod (hw : w < N) : (w + 1) % N = if w + 1 = N then 0 else w + 1 := by
  split
  · rename_i e
    rw [e, Nat.mod_self]
  · exact Nat.mod_eq_of_lt (by omega)

theorem ringCount_full (hr : r < N) (hw : w < N) :
    ringCount N r w = N - 1 ↔ (w + 1) % N = r := by
  rw [succ_mod hw]
  unfold ringCount
  split <;> split <;> omega

theorem ringCount_pop (hr : r < N) (hw : w < N) (hne : r ≠ w) :
    ringCount N r w = ringCount N ((r + 1) % N) w + 1 := by
  rw [succ_mod hr]
  unfold ringCount
  split <;> split <;> split <;> omega

theorem ringCount_push (hr : r < N) (hw : w < N) (hfull : (w + 1) % N ≠ r) :
    ringCount N r ((w + 1) % N) = ringCount N r w + 1 := by
  rw [succ_mod hw] at hfull ⊢
  unfold ringCount
  split at hfull <;> rename_i e
  · rw [if_pos e]
    split <;> split <;> omega
  · rw [if_neg e]
    split <;> split <;> omega

/-! ## the contents -/

theorem ringList_pop (hr : r < N) (hw : w < N) (hne : r ≠ w) (buf : Nat → α) :
    ringList N buf r w = buf r :: ringList N buf ((r + 1) % N) w := by
  unfold ringList
  rw [ringCount_pop hr hw hne, List.range_succ_eq_map, List.map_cons, List.map_map]
  congr 1
  · rw [Nat.add_zero, Nat.mod_eq_of_lt hr]
  · refine List.map_congr_left fun i _ => ?_
    show buf ((r + (i + 1)) % N) = buf (((r + 1) % N + i) % N)
    rw [Nat.mod_add_mod]
    congr 2
    omega

/-- the cell that is written is the one after the last in use -/
theorem ringCount_cell (hr : r < N) (hw : w < N) : (r + ringCount N r w) % N = w := by
  unfold ringCount
  split
  · rw [Nat.add_sub_cancel' (by assumption), Nat.mod_eq_of_lt hw]
  · have : r + (w + N - r) = w + N := by omega
    rw [this, Nat.add_mod_right, Nat.mod_eq_of_lt hw]

theorem ringCell_ne (hr : r < N) (hw : w < N) {i : Nat} (hi : i < ringCount N r w) :
    (r + i) % N ≠ w := by
  unfold ringCount at hi
  by_cases hlt : r + i < N
  · rw [Nat.mod_eq_of_lt hlt]
    split at hi <;> omega
  · rw [Nat.mod_eq_sub_mod (by omega), Nat.mod_eq_of_lt (by split at hi <;> omega)]
    split at hi <;> omega

theorem ringList_push (hr : r < N) (hw : w < N) (hfull : (w + 1) % N ≠ r) (buf : Nat → α) (b : α) :
    ringList N (Function.update buf w b) r ((w + 1) % N) = ringList N buf r w ++ [b] := by
  unfold ringList
  rw [ringCount_push hr hw hfull, List.range_succ, List.map_append, List.map_singleton]
  congr 1
  · refine List.map_congr_left fun i hi => ?_
    exact Function.update_of_ne (ringCell_ne hr hw (List.mem_range.mp hi)) ..
  · rw [ringCount_cell hr hw, Function.update_self]

theorem ringList_concat (hr : r < N) (hw : w < N) (hfull : (w + 1) % N ≠ r) (buf : Nat → α) :
    ringList N buf r ((w + 1) % N) = ringList N buf r w ++ [buf w] := by
  have h := ringList_push hr hw hfull buf (buf w)
  rwa [Function.update_eq_self] at h

end

end Tp2So
