import Mathlib.Data.List.Basic
import Mathlib.Logic.Function.Basic

/-!
# A stack that grows down in a memory

A memory gives a value to every address.  A cell takes `w` addresses and is named by the first of
them; a push lowers the pointer by `w` and fills the cell there.

* `pushAll w xs sp m`   the memory after the values `xs` are pushed one after the other from `sp`;
* `cells w n sp m`      the values that `n` pops from `sp` read;
* `cells_pushAll`       what is pushed is popped in the reverse order;
* `pushAll_outside`     nothing is written outside the cells between the two pointers;
* `cells_congr`         what is popped depends on the cells of the stack only;
* `writeAll w a xs m`   the memory after `xs` are written to the cells from `a` up, and `cells_writeAll`;
* `setAll rs xs g`      the registers `g` after `xs` are popped into `rs`.
-/

namespace Tp2So

section
variable {α : Type*} {w n sp x : Nat} {m m' : Nat → α} {xs : List α}

def pushAll (w : Nat) : List α → Nat → (Nat → α) → Nat → α
  | [], _, m => m
  | x :: xs, sp, m => pushAll w xs (sp - w) (Function.update m (sp - w) x)

def cells (w : Nat) : Nat → Nat → (Nat → α) → List α
  | 0, _, _ => []
  | n + 1, sp, m => m sp :: cells w n (sp + w) m

@[simp] theorem pushAll_nil (w sp : Nat) (m : Nat → α) : pushAll w [] sp m = m := rfl

theorem pushAll_cons (w : Nat) (x : α) (xs : List α) (sp : Nat) (m : Nat → α) :
    pushAll w (x :: xs) sp m = pushAll w xs (sp - w) (Function.update m (sp - w) x) := rfl

theorem pushAll_append (w : Nat) (xs ys : List α) (sp : Nat) (m : Nat → α) :
    pushAll w (xs ++ ys) sp m = pushAll w ys (sp - w * xs.length) (pushAll w xs sp m) := by
  induction xs generalizing sp m with
  | nil => simp
  | cons x xs ih =>
    rw [List.cons_append, pushAll_cons, pushAll_cons, ih, List.length_cons, Nat.mul_succ,
      Nat.sub_sub, Nat.add_comm w]

theorem pushAll_outside (hx : x < sp - w * xs.length ∨ sp ≤ x) (hsp : w * xs.length ≤ sp)
    (hw : 0 < w) : pushAll w xs sp m x = m x := by
  induction xs generalizing sp m with
  | nil => rfl
  | cons y xs ih =>
    rw [List.length_cons, Nat.mul_succ] at hx hsp
    have hne : x ≠ sp - w := by omega
    rw [pushAll_cons, ih (by omega) (by omega), Function.update_of_ne hne]

theorem cells_length (w n sp : Nat) (m : Nat → α) : (cells w n sp m).length = n := by
  induction n generalizing sp with
  | zero => rfl
  | succ n ih => exact congrArg (· + 1) (ih (sp + w))

theorem cells_concat (w n sp : Nat) (m : Nat → α) :
    cells w (n + 1) sp m = cells w n sp m ++ [m (sp + w * n)] := by
  induction n generalizing sp with
  | zero => rfl
  | succ n ih =>
    have hcell : sp + w + w * n = sp + w * (n + 1) := by
      rw [Nat.mul_succ]
      omega
    conv_lhs => unfold cells
    rw [ih, hcell]
    rfl

theorem cells_add (w n k sp : Nat) (m : Nat → α) :
    cells w (n + k) sp m = cells w n sp m ++ cells w k (sp + w * n) m := by
  induction k with
  | zero => exact (List.append_nil _).symm
  | succ k ih =>
    rw [← Nat.add_assoc, cells_concat, ih, cells_concat, List.append_assoc, Nat.mul_add,
      Nat.add_assoc]

theorem cells_congr (h : ∀ x, sp ≤ x → x < sp + w * n → m' x = m x) (hw : 0 < w) :
    cells w n sp m' = cells w n sp m := by
  induction n with
  | zero => rfl
  | succ n ih =>
    rw [Nat.mul_succ] at h
    have hlast : m' (sp + w * n) = m (sp + w * n) := h _ (by omega) (by omega)
    have hinit := ih fun x h1 h2 => h x h1 (by omega)
    rw [cells_concat, cells_concat, hinit, hlast]

/-- **What is pushed is popped**, in the reverse order. -/
theorem cells_pushAll (hsp : w * xs.length ≤ sp) (hw : 0 < w) :
    cells w xs.length (sp - w * xs.length) (pushAll w xs sp m) = xs.reverse := by
  induction xs generalizing sp m with
  | nil => rfl
  | cons x xs ih =>
    rw [List.length_cons, Nat.mul_succ] at hsp ⊢
    have hptr : sp - (w * xs.length + w) = sp - w - w * xs.length := by omega
    have htop : sp - w - w * xs.length + w * xs.length = sp - w := by omega
    have hlast : pushAll w xs (sp - w) (Function.update m (sp - w) x) (sp - w) = x := by
      rw [pushAll_outside (Or.inr (Nat.le_refl _)) (by omega) hw, Function.update_self]
    rw [hptr, cells_concat, pushAll_cons, ih (by omega), htop, hlast, List.reverse_cons]

end

/-! ## writing upwards -/

section
variable {α : Type*} {w a x : Nat} {m : Nat → α} {xs : List α}

def writeAll (w : Nat) (a : Nat) : List α → (Nat → α) → Nat → α
  | [], m => m
  | x :: xs, m => writeAll w (a + w) xs (Function.update m a x)

theorem writeAll_outside (hx : x < a ∨ a + w * xs.length ≤ x) (hw : 0 < w) :
    writeAll w a xs m x = m x := by
  induction xs generalizing a m with
  | nil => rfl
  | cons y xs ih =>
    rw [List.length_cons, Nat.mul_succ] at hx
    have hne : x ≠ a := by omega
    exact (ih (a := a + w) (by omega)).trans (Function.update_of_ne hne ..)

theorem writeAll_concat (w a : Nat) (xs : List α) (x : α) (m : Nat → α) :
    writeAll w a (xs ++ [x]) m = Function.update (writeAll w a xs m) (a + w * xs.length) x := by
  induction xs generalizing a m with
  | nil => rfl
  | cons y xs ih =>
    have hcell : a + w + w * xs.length = a + w * (y :: xs).length := by
      rw [List.length_cons, Nat.mul_succ]
      omega
    rw [← hcell]
    exact ih (a + w) (Function.update m a y)

theorem cells_writeAll (hw : 0 < w) : cells w xs.length a (writeAll w a xs m) = xs := by
  induction xs generalizing a m with
  | nil => rfl
  | cons x xs ih =>
    have hfirst : writeAll w (a + w) xs (Function.update m a x) a = x :=
      (writeAll_outside (Or.inl (by omega)) hw).trans (Function.update_self ..)
    show writeAll w (a + w) xs (Function.update m a x) a :: _ = _
    rw [hfirst]
    exact congrArg (x :: ·) ih

end

/-! ## registers -/

section
variable {R α : Type*} [DecidableEq R]

/-- the registers `g` after the values are popped into `rs`, one after the other -/
def setAll : List R → List α → (R → α) → R → α
  | r :: rs, x :: xs, g => setAll rs xs (Function.update g r x)
  | _, _, g => g

theorem setAll_of_not_mem {rs : List R} {r : R} (hr : r ∉ rs) (xs : List α) (g : R → α) :
    setAll rs xs g r = g r := by
  induction rs generalizing xs g with
  | nil => rfl
  | cons r' rs ih =>
    cases xs with
    | nil => rfl
    | cons x xs =>
      have hne : r ≠ r' := fun e => hr (e ▸ List.mem_cons_self)
      have hout := ih (fun h => hr (List.mem_cons_of_mem _ h)) xs (Function.update g r' x)
      exact hout.trans (Function.update_of_ne hne ..)

/-- each register gets the value that is popped into it last -/
theorem setAll_map {rs : List R} (hrs : rs.Nodup) (f g : R → α) {r : R} (hr : r ∈ rs) :
    setAll rs (rs.map f) g r = f r := by
  induction rs generalizing g with
  | nil => exact absurd hr List.not_mem_nil
  | cons r' rs ih =>
    have hnd := List.nodup_cons.mp hrs
    rw [List.map_cons]
    rcases List.mem_cons.mp hr with rfl | hr
    · exact (setAll_of_not_mem hnd.1 _ _).trans (Function.update_self ..)
    · exact ih hnd.2 (Function.update g r' (f r')) hr

end

end Tp2So
