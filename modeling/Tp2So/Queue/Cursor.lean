import Mathlib.Data.List.Infix
import Tp2So.Queue.Adt

/-!
# When the cyclic iteration ends early

After `queueBeginCyclicIter` the queue is edited and stepped through in any order, and never becomes
empty.  The iterator steps from the last node to `head`; a removal moves the cursor to `next` only,
so that it is lost where the last node goes while the cursor stands on it.

* `step_onNode`                one call, from a cursor that is on a node;
* `nextCyclicIter_isSome_iff`  over a whole run.
-/

namespace Tp2So.CyclicIter

inductive Op (α : Type) where
  | enqueue (data : α) (allocated : Bool)
  | dequeue
  | queueRemove (data : α)
  | queueNextCyclicIter

section
variable {α : Type}

def step (cmp : α → α → Bool) (q : Queue α) : Op α → Queue α
  | .enqueue x allocated => if allocated then enqueue q x else q
  | .dequeue => ((dequeue q).map Prod.snd).getD q
  | .queueRemove x => queueRemove cmp q x
  | .queueNextCyclicIter => ((queueNextCyclicIter q).map Prod.snd).getD q

def run (cmp : α → α → Bool) (q : Queue α) (ops : List (Op α)) : Queue α :=
  ops.foldl (step cmp) (queueBeginCyclicIter q)

/-- the call does not take out the last node while the cursor stands on it -/
def CursorStays (cmp : α → α → Bool) (q : Queue α) : Op α → Prop
  | .queueRemove x => ∀ i, q.elems.findIdx? (fun y => cmp y x) = some i →
      i + 1 = q.elems.length → q.cyclicIter ≠ some i
  | _ => True

def OnNode (q : Queue α) : Prop := ∃ i, q.cyclicIter = some i ∧ i < q.elems.length

variable {cmp : α → α → Bool} {q : Queue α}

theorem isSome_iff_onNode : (queueNextCyclicIter q).isSome = true ↔ OnNode q := by
  unfold queueNextCyclicIter OnNode
  cases hc : q.cyclicIter with
  | none => exact ⟨fun h => absurd h Bool.false_ne_true, fun ⟨_, h, _⟩ => absurd h.symm (Option.some_ne_none _)⟩
  | some i =>
    by_cases hi : i < q.elems.length
    · simp only [List.getElem?_eq_getElem hi]
      exact ⟨fun _ => ⟨i, rfl, hi⟩, fun _ => rfl⟩
    · simp only [List.getElem?_eq_none (Nat.le_of_not_lt hi)]
      refine ⟨fun h => absurd h Bool.false_ne_true, fun ⟨j, hj, hlt⟩ => absurd ?_ hi⟩
      rwa [Option.some.inj hj]

/-- the cursor after a node is taken out of a chain of `n + 1` -/
theorem cursorRemoved_isSome {i n c : Nat} (hc : c < n + 1) (hi : i < n + 1) :
    (∃ j, cursorRemoved i n c = some j ∧ j < n) ↔ (i = n → c ≠ i) := by
  unfold cursorRemoved
  by_cases hci : c = i
  · rw [if_pos hci]
    by_cases hlt : i < n
    · rw [if_pos hlt]
      exact ⟨fun _ hin => absurd hlt (by omega), fun _ => ⟨i, rfl, hlt⟩⟩
    · rw [if_neg hlt]
      refine ⟨fun ⟨_, h, _⟩ => absurd h.symm (Option.some_ne_none _), fun h => ?_⟩
      exact absurd hci (h (by omega))
  · rw [if_neg hci]
    refine ⟨fun _ _ => hci, fun _ => ?_⟩
    by_cases hlt : i < c
    · rw [if_pos hlt]
      exact ⟨c - 1, rfl, by omega⟩
    · rw [if_neg hlt]
      exact ⟨c, rfl, by omega⟩

theorem dequeue_onNode (hq : OnNode q) (hne : (step cmp q .dequeue).elems ≠ []) :
    OnNode (step cmp q .dequeue) := by
  obtain ⟨i, hi, hlt⟩ := hq
  unfold step dequeue at hne ⊢
  cases he : q.elems with
  | nil =>
    rw [he] at hlt
    exact absurd hlt (Nat.not_lt_zero i)
  | cons x xs =>
    rw [he] at hlt
    simp only [he, Option.map_some, Option.getD_some] at hne ⊢
    have hpos : 0 < xs.length := List.length_pos_iff.mpr hne
    unfold OnNode
    simp only [if_neg hne, hi, Option.bind_some]
    exact (cursorRemoved_isSome hlt (Nat.succ_pos _)).mpr fun h0 => absurd hpos (by omega)

theorem queueRemove_onNode (hq : OnNode q) (x : α) :
    OnNode (queueRemove cmp q x) ↔ CursorStays cmp q (.queueRemove x) := by
  obtain ⟨c, hc, hlt⟩ := hq
  unfold queueRemove CursorStays
  cases hf : q.elems.findIdx? (fun y => cmp y x) with
  | none =>
    refine ⟨fun _ i hi => ?_, fun _ => ⟨c, hc, hlt⟩⟩
    exact absurd (hi.symm.trans hf) (Option.some_ne_none i)
  | some i =>
    have hi : i < q.elems.length := (List.findIdx?_eq_some_iff_getElem.mp hf).1
    have hlen : (q.elems.eraseIdx i).length = q.elems.length - 1 := List.length_eraseIdx_of_lt hi
    unfold OnNode
    simp only [hc, hlen, Option.bind_some]
    rw [cursorRemoved_isSome (by omega) (by omega)]
    constructor
    · intro h j hj hlast hcj
      obtain rfl := Option.some.inj (hf.symm.trans hj)
      exact h (by omega) (Option.some.inj hcj)
    · intro h hin hci
      exact h i hf (by omega) (congrArg some hci)

/-- **One call**: the cursor stays on a node, except where the call takes out the last one under it. -/
theorem step_onNode (hq : OnNode q) (op : Op α) (hne : (step cmp q op).elems ≠ []) :
    OnNode (step cmp q op) ↔ CursorStays cmp q op := by
  cases op with
  | enqueue x allocated =>
    refine ⟨fun _ => trivial, fun _ => ?_⟩
    obtain ⟨i, hi, hlt⟩ := hq
    cases allocated with
    | false => exact ⟨i, hi, hlt⟩
    | true =>
      refine ⟨i, hi, ?_⟩
      show i < (q.elems ++ [x]).length
      rw [List.length_append]
      exact Nat.lt_add_right _ hlt
  | dequeue => exact ⟨fun _ => trivial, fun _ => dequeue_onNode hq hne⟩
  | queueRemove x => exact queueRemove_onNode hq x
  | queueNextCyclicIter =>
    refine ⟨fun _ => trivial, fun _ => ?_⟩
    obtain ⟨⟨x, q'⟩, hn⟩ := Option.isSome_iff_exists.mp (isSome_iff_onNode.mpr hq)
    obtain ⟨i, _, _, helems, hcursor⟩ := queueNextCyclicIter_eq_some hn
    unfold step
    rw [hn, Option.map_some, Option.getD_some]
    refine ⟨_, hcursor, ?_⟩
    rw [helems]
    obtain ⟨j, _, hj⟩ := hq
    split
    · assumption
    · omega

theorem run_concat (q : Queue α) (ops : List (Op α)) (op : Op α) :
    run cmp q (ops ++ [op]) = step cmp (run cmp q ops) op :=
  List.foldl_concat ..

theorem run_nil_onNode (hq : q.elems ≠ []) : OnNode (run cmp q []) := by
  show OnNode (queueBeginCyclicIter q)
  unfold queueBeginCyclicIter
  rw [if_neg hq]
  exact ⟨0, rfl, List.length_pos_iff.mpr hq⟩

/-- **When the iteration goes on.**  As long as the queue keeps an element, `queueNextCyclicIter` gives one
at every point of the run exactly when no `queueRemove` takes out the last node under the cursor. -/
theorem nextCyclicIter_isSome_iff (cmp : α → α → Bool) (q : Queue α) (ops : List (Op α))
    (hne : ∀ p, p <+: ops → (run cmp q p).elems ≠ []) :
    (∀ p, p <+: ops → (queueNextCyclicIter (run cmp q p)).isSome = true) ↔
      ∀ p op, p ++ [op] <+: ops → CursorStays cmp (run cmp q p) op := by
  constructor
  · intro h p op hp
    have hpre : p <+: ops := (List.prefix_append p [op]).trans hp
    have hnext := isSome_iff_onNode.mp (h _ hp)
    rw [run_concat] at hnext
    exact (step_onNode (isSome_iff_onNode.mp (h p hpre)) op (run_concat q p op ▸ hne _ hp)).mp hnext
  · intro h p
    induction p using List.reverseRecOn with
    | nil =>
      intro hp
      have hq := hne [] hp
      rw [show run cmp q [] = queueBeginCyclicIter q from rfl, queueBeginCyclicIter_elems] at hq
      exact isSome_iff_onNode.mpr (run_nil_onNode hq)
    | append_singleton p op ih =>
      intro hp
      have hpre : p <+: ops := (List.prefix_append p [op]).trans hp
      have hq := isSome_iff_onNode.mp (ih hpre)
      rw [run_concat]
      exact isSome_iff_onNode.mpr ((step_onNode hq op (run_concat q p op ▸ hne _ hp)).mpr (h p op hp))

/-- on a queue of two, the first element leaves, and the other one from under the cursor -/
def elementsLeave : List (Op Nat) :=
  [.queueNextCyclicIter, .dequeue, .enqueue 3 true, .queueRemove 2, .queueNextCyclicIter]

theorem nextCyclicIter_isSome_leave :
    (∀ p, p <+: elementsLeave →
      (queueNextCyclicIter (run (fun y x : Nat => y == x) ⟨[1, 2], none⟩ p)).isSome = true) ∧
    ∀ p op, p ++ [op] <+: elementsLeave →
      CursorStays (fun y x : Nat => y == x) (run (fun y x : Nat => y == x) ⟨[1, 2], none⟩ p) op := by
  have hne : ∀ p ∈ elementsLeave.inits,
      (run (fun y x : Nat => y == x) ⟨[1, 2], none⟩ p).elems ≠ [] := by decide
  have hsome : ∀ p ∈ elementsLeave.inits,
      (queueNextCyclicIter (run (fun y x : Nat => y == x) ⟨[1, 2], none⟩ p)).isSome = true := by decide
  have hiff := nextCyclicIter_isSome_iff (fun y x : Nat => y == x) ⟨[1, 2], none⟩ elementsLeave
    fun p hp => hne p ((List.mem_inits ..).mpr hp)
  have hall := fun p hp => hsome p ((List.mem_inits ..).mpr hp)
  exact ⟨hall, hiff.mp hall⟩

/-- the iterator stands on the second of two nodes, and that one is taken out -/
theorem nextCyclicIter_null :
    (∀ p ∈ [Op.queueNextCyclicIter, .queueRemove 2].inits,
      (run (fun y x : Nat => y == x) ⟨[1, 2], none⟩ p).elems ≠ []) ∧
    queueNextCyclicIter (run (fun y x : Nat => y == x) ⟨[1, 2], none⟩
      [.queueNextCyclicIter, .queueRemove 2]) = none := by
  decide

end

end Tp2So.CyclicIter
