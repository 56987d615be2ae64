import Mathlib.Data.List.Basic

/-!
# The queue of `datastructures/queue.c`, as a list with a cursor

`elems` is the chain from `head` to `tail`, `cyclicIter` the position in it of the node the
cyclic iterator stands on (`none` for the null cursor).  Allocation succeeds, so `enqueue` always
returns the queue.

* `enqueue`, `dequeue`, `queueRemove`       the operations that edit the chain;
* `queueBeginCyclicIter`, `queueNextCyclicIter`, `queueCyclicIterLooped`   the cyclic cursor, with
  its wrap-around from the last node to `head`;
* `queueElementExists`                      one turn of the cursor.
-/

namespace Tp2So

structure Queue (α : Type) where
  elems : List α := []
  cyclicIter : Option Nat := none
  deriving DecidableEq, Repr

section
variable {α : Type}

def createQueue : Queue α := {}

def queueSize (q : Queue α) : Nat := q.elems.length

def queueIsEmpty (q : Queue α) : Bool := queueSize q == 0

def enqueue (q : Queue α) (x : α) : Queue α := { q with elems := q.elems ++ [x] }

/-- the cursor after the node at `i` is taken out of a chain that is `n` nodes long without it: a
cursor on that node moves to its `next`, with no wrap-around -/
def cursorRemoved (i n : Nat) (c : Nat) : Option Nat :=
  if c = i then (if i < n then some i else none)
  else if i < c then some (c - 1) else some c

def dequeue (q : Queue α) : Option (α × Queue α) :=
  match q.elems with
  | [] => none
  | x :: xs =>
    some (x, { elems := xs, cyclicIter := if xs = [] then none
      else q.cyclicIter.bind (cursorRemoved 0 xs.length) })

/-- `cmp y x` says that the comparison function returns `0` on the node's data `y` and `x` -/
def queueRemove (cmp : α → α → Bool) (q : Queue α) (x : α) : Queue α :=
  match q.elems.findIdx? (fun y => cmp y x) with
  | none => q
  | some i =>
    { elems := q.elems.eraseIdx i
      cyclicIter := q.cyclicIter.bind (cursorRemoved i (q.elems.length - 1)) }

def queuePeek (q : Queue α) : Option α := q.elems.head?

def queueBeginCyclicIter (q : Queue α) : Queue α :=
  if q.elems = [] then q else { q with cyclicIter := some 0 }

def queueNextCyclicIter (q : Queue α) : Option (α × Queue α) :=
  match q.cyclicIter with
  | none => none
  | some i =>
    match q.elems[i]? with
    | none => none
    | some x => some (x, { q with cyclicIter := some (if i + 1 < q.elems.length then i + 1 else 0) })

def queueCyclicIterLooped (q : Queue α) : Bool := q.cyclicIter == some 0

/-- the loop of `queueElementExists`: at most `n` steps of the cursor -/
def queueElementExistsLoop (cmp : α → α → Bool) (x : α) : Nat → Queue α → Bool
  | 0, _ => false
  | n + 1, q =>
    match queueNextCyclicIter q with
    | none => false
    | some (y, q') => cmp y x || queueElementExistsLoop cmp x n q'

def queueElementExists (cmp : α → α → Bool) (q : Queue α) (x : α) : Bool :=
  queueElementExistsLoop cmp x (queueSize q) (queueBeginCyclicIter q)

/-- the cursor on the node at `i`, behind the last one on `head` -/
def cursorAt (q : Queue α) (i : Nat) : Queue α :=
  { q with cyclicIter := some (if i < q.elems.length then i else 0) }

/-- the queue after `queueElementExists`: the cursor has stepped over the first match, or once around -/
def searched (cmp : α → α → Bool) (q : Queue α) (x : α) : Queue α :=
  if q.elems = [] then q else cursorAt q (q.elems.findIdx (fun y => cmp y x) + 1)

/-! ## the chain after each operation -/

@[simp] theorem createQueue_elems : (createQueue : Queue α).elems = [] := rfl

@[simp] theorem enqueue_elems (q : Queue α) (x : α) : (enqueue q x).elems = q.elems ++ [x] := rfl

theorem queueIsEmpty_iff (q : Queue α) : queueIsEmpty q = true ↔ q.elems = [] := by
  unfold queueIsEmpty queueSize
  rw [beq_iff_eq, List.length_eq_zero_iff]

theorem dequeue_eq_some {q q' : Queue α} {x : α} (h : dequeue q = some (x, q')) :
    q.elems = x :: q'.elems := by
  unfold dequeue at h
  cases he : q.elems with
  | nil => rw [he] at h; exact absurd h (by simp)
  | cons y ys =>
    rw [he] at h
    obtain ⟨rfl, rfl⟩ := Prod.mk.inj (Option.some.inj h)
    rfl

theorem dequeue_eq_none {q : Queue α} (h : dequeue q = none) : q.elems = [] := by
  unfold dequeue at h
  cases he : q.elems with
  | nil => rfl
  | cons y ys => rw [he] at h; exact absurd h (by simp)

theorem queueRemove_elems (cmp : α → α → Bool) (q : Queue α) (x : α) :
    (queueRemove cmp q x).elems = q.elems.eraseP (fun y => cmp y x) := by
  unfold queueRemove
  rw [List.eraseP_eq_eraseIdx]
  cases q.elems.findIdx? (fun y => cmp y x) <;> rfl

/-- the queue whose chain is `l₁ ++ l₂` after the node between the two is taken out -/
def cutQueue (q : Queue α) (l₁ l₂ : List α) : Queue α :=
  ⟨l₁ ++ l₂, q.cyclicIter.bind (cursorRemoved l₁.length (l₁ ++ l₂).length)⟩

/-- the first node that matches is taken out of the middle of the chain -/
theorem queueRemove_cut {cmp : α → α → Bool} {q : Queue α} {x y : α} {l₁ l₂ : List α}
    (hq : q.elems = l₁ ++ y :: l₂) (hy : cmp y x = true) (hl : ∀ z ∈ l₁, cmp z x = false) :
    queueRemove cmp q x = cutQueue q l₁ l₂ := by
  have hidx : q.elems.findIdx? (fun z => cmp z x) = some l₁.length := by
    rw [hq, List.findIdx?_append, List.findIdx?_eq_none_iff.mpr hl, List.findIdx?_cons, if_pos hy,
      Option.none_or, Option.map_some, Nat.zero_add]
  have hlen : q.elems.length - 1 = (l₁ ++ l₂).length := by
    rw [hq, List.length_append, List.length_append, List.length_cons]
    omega
  unfold queueRemove cutQueue
  simp only [hidx]
  rw [hlen, hq, List.eraseIdx_append_of_length_le (Nat.le_refl _), Nat.sub_self, List.eraseIdx_cons_zero]

theorem queueRemove_middle {cmp : α → α → Bool} {q : Queue α} {x : α} {l₁ l₂ : List α}
    (hq : q.elems = l₁ ++ x :: l₂) (hx : cmp x x = true) (hl : ∀ y ∈ l₁, cmp y x = false) :
    queueRemove cmp q x = cutQueue q l₁ l₂ :=
  queueRemove_cut hq hx hl

/-- where the comparison function only matches `x` itself, `queueRemove` is `erase` -/
theorem queueRemove_elems_erase [BEq α] [LawfulBEq α] {cmp : α → α → Bool} {q : Queue α} {x : α}
    (h : ∀ y ∈ q.elems, cmp y x = (y == x)) : (queueRemove cmp q x).elems = q.elems.erase x := by
  rw [queueRemove_elems]
  generalize q.elems = l at h
  induction l with
  | nil => rfl
  | cons y l ih =>
    rw [List.eraseP_cons, List.erase_cons, h y List.mem_cons_self,
      ih fun z hz => h z (List.mem_cons_of_mem _ hz)]
    cases y == x <;> rfl

@[simp] theorem queueBeginCyclicIter_elems (q : Queue α) :
    (queueBeginCyclicIter q).elems = q.elems := by
  unfold queueBeginCyclicIter
  split <;> rfl

theorem queueNextCyclicIter_eq_some {q q' : Queue α} {x : α}
    (h : queueNextCyclicIter q = some (x, q')) :
    ∃ i, q.cyclicIter = some i ∧ q.elems[i]? = some x ∧ q'.elems = q.elems ∧
      q'.cyclicIter = some (if i + 1 < q.elems.length then i + 1 else 0) := by
  unfold queueNextCyclicIter at h
  cases hc : q.cyclicIter with
  | none => rw [hc] at h; exact absurd h (by simp)
  | some i =>
    rw [hc] at h
    cases hx : q.elems[i]? with
    | none => simp only [hx] at h; exact absurd h (by simp)
    | some y =>
      simp only [hx] at h
      obtain ⟨rfl, rfl⟩ := Prod.mk.inj (Option.some.inj h)
      exact ⟨i, rfl, hx, rfl, rfl⟩

/-! ## one turn of the cursor is membership -/

/-- a loop over the cursor that steps `n` times, up to the end of the chain, folds what is left of it -/
theorem cursor_loop {β : Type*} {f : Nat → Queue α → β} {g : List α → β} (step : α → β → β)
    (hzero : ∀ q, f 0 q = g [])
    (hstep : ∀ n q y q', queueNextCyclicIter q = some (y, q') → f (n + 1) q = step y (f n q'))
    (hg : ∀ y l, g (y :: l) = step y (g l)) (n : Nat) :
    ∀ (q : Queue α) (i : Nat), q.cyclicIter = some i → i + n = q.elems.length →
      f n q = g (q.elems.drop i) := by
  induction n with
  | zero =>
    intro q i _ hn
    rw [hzero, List.drop_eq_nil_of_le (by omega)]
  | succ n ih =>
    intro q i hc hn
    have hi : i < q.elems.length := by omega
    have hx : q.elems[i]? = some q.elems[i] := List.getElem?_eq_getElem hi
    have hnext : queueNextCyclicIter q = some (q.elems[i],
        { q with cyclicIter := some (if i + 1 < q.elems.length then i + 1 else 0) }) := by
      unfold queueNextCyclicIter
      simp only [hc, hx]
    rw [hstep _ _ _ _ hnext, List.drop_eq_getElem_cons hi, hg]
    refine congrArg (step q.elems[i]) ?_
    by_cases hn0 : n = 0
    · subst hn0
      rw [hzero, List.drop_eq_nil_of_le (by omega)]
    · rw [if_pos (by omega)]
      exact ih _ (i + 1) rfl (by show i + 1 + n = q.elems.length; omega)

theorem queueElementExistsLoop_eq (cmp : α → α → Bool) (x : α) (n : Nat) :
    ∀ (q : Queue α) (i : Nat), q.cyclicIter = some i → i + n = q.elems.length →
      queueElementExistsLoop cmp x n q = (q.elems.drop i).any (fun y => cmp y x) := by
  refine cursor_loop (g := fun l => l.any fun y => cmp y x) (fun y rest => cmp y x || rest) (fun _ => rfl) (fun n q y q' hnext => ?_)
    (fun _ _ => List.any_cons) n
  rw [queueElementExistsLoop, hnext]

/-- `queueElementExists` is membership up to the comparison function -/
theorem queueElementExists_eq (cmp : α → α → Bool) (q : Queue α) (x : α) :
    queueElementExists cmp q x = q.elems.any (fun y => cmp y x) := by
  unfold queueElementExists queueSize
  by_cases h : q.elems = []
  · rw [h]
    rfl
  · unfold queueBeginCyclicIter
    rw [if_neg h, queueElementExistsLoop_eq cmp x _ _ 0 rfl (by simp)]
    rfl

end

end Tp2So
