import Tp2So.Queue.Steps

/-!
# The queues of the kernel are lists

A run is any sequence of calls on any number of queues in one heap.  `QueueCall.run` makes a call on
the heap, `QueueCall.onLists` on the lists; a call may be made where its queue was created, where
`mm_alloc` answers with blocks that are not in use, and where it finds a block for the buffer of a
search (`AllAnswered`).

* `QueueOp.run_spec`       one call;
* `Refines.call`           the queues of the heap stay the lists;
* `queues_refine_lists`    over a whole run.
-/

namespace Tp2So.Pointers

inductive QueueOp (α : Type) where
  | enqueue (data : α) (node block : Option Nat)
  | dequeue
  | queueRemove (data : α)
  | queuePeek
  | queueSize
  | queueBeginCyclicIter
  | queueNextCyclicIter
  | queueCyclicIterLooped
  | queueElementExists (data : α) (buffer : Option Nat)

inductive QueueCall (α : Type) where
  | createQueue (cmp : α → α → Bool) (elemSize : Nat) (answer : Option Nat)
  | on (queue : Nat) (op : QueueOp α)

inductive QueueResult (α : Type) where
  | queue (p : Option Nat)
  | done (b : Bool)
  | elem (x : Option α)
  | size (n : Nat)

/-- the queues that were created, by address, with their comparison functions -/
abbrev Lists (α : Type) := Nat → Option ((α → α → Bool) × Queue α)

section
variable {α : Type}

/-! ## on the heap -/

def QueueOp.run (queue : Nat) (m : Blocks α) : QueueOp α → Option (QueueResult α × Blocks α)
  | .enqueue x node block =>
    (Pointers.enqueue (some queue) (some x) node block m).map fun r => (.done r.1, r.2)
  | .dequeue => (Pointers.dequeue (some queue) m).map fun r => (.elem r.1, r.2)
  | .queueRemove x => (Pointers.queueRemove (some queue) x m).map fun r => (.done r.1, r.2)
  | .queuePeek => (Pointers.queuePeek (some queue) m).map fun x => (.elem x, m)
  | .queueSize => (Pointers.queueSize (some queue) m).map fun n => (.size n, m)
  | .queueBeginCyclicIter =>
    (Pointers.queueBeginCyclicIter (some queue) m).map fun r => (.done r.1, r.2)
  | .queueNextCyclicIter =>
    (Pointers.queueNextCyclicIter (some queue) true m).map fun r => (.elem r.1, r.2)
  | .queueCyclicIterLooped =>
    (Pointers.queueCyclicIterLooped (some queue) m).map fun b => (.done b, m)
  | .queueElementExists x buffer =>
    (Pointers.queueElementExists (some queue) x buffer m).map fun r => (.done r.1, r.2)

def QueueCall.run (m : Blocks α) : QueueCall α → Option (QueueResult α × Blocks α)
  | .createQueue cmp elemSize answer =>
    (Pointers.createQueue (some cmp) elemSize answer m).map fun r => (.queue r.1, r.2)
  | .on queue op => op.run queue m

def run : List (QueueCall α) → Blocks α → Option (List (QueueResult α) × Blocks α)
  | [], m => some ([], m)
  | c :: cs, m => (c.run m).bind fun r => (run cs r.2).bind fun rs => some (r.1 :: rs.1, rs.2)

/-! ## on the lists -/

def QueueOp.onList (cmp : α → α → Bool) (q : Queue α) : QueueOp α → QueueResult α × Queue α
  | .enqueue x node block =>
    if node.isSome && block.isSome then (.done true, Tp2So.enqueue q x) else (.done false, q)
  | .dequeue => (.elem q.elems.head?, ((Tp2So.dequeue q).map Prod.snd).getD q)
  | .queueRemove x => (.done (q.elems.any fun y => cmp y x), Tp2So.queueRemove cmp q x)
  | .queuePeek => (.elem q.elems.head?, q)
  | .queueSize => (.size q.elems.length, q)
  | .queueBeginCyclicIter => (.done !q.elems.isEmpty, Tp2So.queueBeginCyclicIter q)
  | .queueNextCyclicIter =>
    (.elem ((Tp2So.queueNextCyclicIter q).map Prod.fst),
      ((Tp2So.queueNextCyclicIter q).map Prod.snd).getD q)
  | .queueCyclicIterLooped => (.done (Tp2So.queueCyclicIterLooped q), q)
  | .queueElementExists x _ => (.done (q.elems.any fun y => cmp y x), searched cmp q x)

/-- the elements alone: append, take the head, delete the first match -/
def QueueOp.onElems (cmp : α → α → Bool) (l : List α) : QueueOp α → List α
  | .enqueue x (some _) (some _) => l ++ [x]
  | .dequeue => l.tail
  | .queueRemove x => l.eraseP fun y => cmp y x
  | _ => l

def QueueCall.onLists (s : Lists α) : QueueCall α → QueueResult α × Lists α
  | .createQueue cmp elemSize (some queue) =>
    if elemSize = 0 then (.queue none, s)
    else (.queue (some queue), Function.update s queue (some (cmp, Tp2So.createQueue)))
  | .createQueue _ _ none => (.queue none, s)
  | .on queue op =>
    match s queue with
    | none => (.done false, s)
    | some (cmp, q) => ((op.onList cmp q).1, Function.update s queue (some (cmp, (op.onList cmp q).2)))

def onLists : List (QueueCall α) → Lists α → List (QueueResult α) × Lists α
  | [], s => ([], s)
  | c :: cs, s => ((c.onLists s).1 :: (onLists cs (c.onLists s).2).1, (onLists cs (c.onLists s).2).2)

/-! ## what `mm_alloc` answers -/

def QueueOp.Answered (m : Blocks α) (q : Queue α) : QueueOp α → Prop
  | .enqueue _ node block =>
    (∀ a, node = some a → m a = none) ∧ ∀ b, block = some b → m b = none ∧ node ≠ some b
  | .queueElementExists _ buffer =>
    (∀ b, buffer = some b → m b = none) ∧ (buffer = none → q.elems = [])
  | _ => True

def QueueCall.Answered (m : Blocks α) (s : Lists α) : QueueCall α → Prop
  | .createQueue _ _ answer => ∀ a, answer = some a → m a = none
  | .on queue op => ∃ cmp q, s queue = some (cmp, q) ∧ op.Answered m q

def AllAnswered : List (QueueCall α) → Blocks α → Lists α → Prop
  | [], _, _ => True
  | c :: cs, m, s => c.Answered m s ∧ ∀ r, c.run m = some r → AllAnswered cs r.2 (c.onLists s).2

/-- each queue that was created stands in the heap as its list -/
def Refines (m : Blocks α) (s : Lists α) : Prop :=
  ∃ own : Nat → Option Nat, ∀ queue cmp q, s queue = some (cmp, q) → ∃ c es, Holds own m queue c es cmp q

/-! ## one call -/

theorem QueueOp.onList_elems (cmp : α → α → Bool) (q : Queue α) (op : QueueOp α) :
    (op.onList cmp q).2.elems = op.onElems cmp q.elems := by
  cases op with
  | enqueue x node block => cases node <;> cases block <;> rfl
  | dequeue =>
    show (((Tp2So.dequeue q).map Prod.snd).getD q).elems = q.elems.tail
    unfold Tp2So.dequeue
    cases hq : q.elems with
    | nil => exact hq
    | cons x l => rfl
  | queueRemove x => exact queueRemove_elems cmp q x
  | queuePeek => rfl
  | queueSize => rfl
  | queueBeginCyclicIter => exact queueBeginCyclicIter_elems q
  | queueNextCyclicIter =>
    show (((Tp2So.queueNextCyclicIter q).map Prod.snd).getD q).elems = q.elems
    cases hn : Tp2So.queueNextCyclicIter q with
    | none => rfl
    | some r => exact (queueNextCyclicIter_eq_some hn).choose_spec.2.2.1
  | queueCyclicIterLooped => rfl
  | queueElementExists x buffer =>
    show (searched cmp q x).elems = q.elems
    unfold searched
    split <;> rfl

/-- an `enqueue` that gets no node or no data block leaves the heap as it was -/
theorem enqueue_failed {m : Blocks α} (queue : Option Nat) (x : Option α) {node block : Option Nat}
    (hnode : ∀ a, node = some a → m a = none) (hfail : node = none ∨ block = none) :
    Pointers.enqueue queue x node block m = some (false, m) := by
  unfold Pointers.enqueue
  cases queue with
  | none => rfl
  | some q =>
    cases x with
    | none => rfl
    | some x =>
      cases node with
      | none => rfl
      | some new =>
        obtain rfl : block = none := hfail.resolve_left (Option.some_ne_none _)
        show ((m.store new .raw).mmFree new).bind _ = _
        rw [mmFree_store (hnode new rfl)]
        rfl

section
variable {own : Nat → Option Nat} {m : Blocks α} {h : Nat} {c : QueueCDT α} {es : List (Entry α)}
  {cmp : α → α → Bool} {q : Queue α}

theorem QueueOp.run_spec (hq : Holds own m h c es cmp q) (op : QueueOp α) (ha : op.Answered m q) :
    ∃ m', op.run h m = some ((op.onList cmp q).1, m') ∧ Becomes own m h cmp (op.onList cmp q).2 m' := by
  cases op with
  | enqueue x node block =>
    simp only [QueueOp.run, QueueOp.onList]
    cases node with
    | none =>
      rw [enqueue_failed _ _ ha.1 (Or.inl rfl)]
      exact ⟨m, rfl, hq.becomes⟩
    | some new =>
      cases block with
      | none =>
        rw [enqueue_failed _ _ ha.1 (Or.inr rfl)]
        exact ⟨m, rfl, hq.becomes⟩
      | some d =>
        obtain ⟨hd, hne⟩ := ha.2 d rfl
        obtain ⟨m', hrun, hbec⟩ := enqueue_spec hq x (ha.1 new rfl) hd fun heq => hne (congrArg some heq)
        rw [hrun]
        exact ⟨m', rfl, hbec⟩
  | dequeue =>
    simp only [QueueOp.run, QueueOp.onList]
    rcases dequeue_spec hq with ⟨hnil, hrun⟩ | ⟨x, q', m', hlist, hrun, hbec⟩
    · have hlist : Tp2So.dequeue q = none := by
        unfold Tp2So.dequeue
        rw [hnil]
      rw [hrun, hlist, hnil]
      exact ⟨m, rfl, hq.becomes⟩
    · rw [hrun, hlist, dequeue_eq_some hlist]
      exact ⟨m', rfl, hbec⟩
  | queueRemove x =>
    obtain ⟨m', hrun, hbec⟩ := queueRemove_spec hq x
    simp only [QueueOp.run]
    rw [hrun]
    exact ⟨m', rfl, hbec⟩
  | queuePeek =>
    simp only [QueueOp.run]
    rw [queuePeek_spec hq]
    exact ⟨m, rfl, hq.becomes⟩
  | queueSize =>
    simp only [QueueOp.run]
    rw [queueSize_spec hq]
    exact ⟨m, rfl, hq.becomes⟩
  | queueBeginCyclicIter =>
    obtain ⟨m', hrun, hbec⟩ := queueBeginCyclicIter_spec hq
    simp only [QueueOp.run]
    rw [hrun]
    exact ⟨m', rfl, hbec⟩
  | queueNextCyclicIter =>
    simp only [QueueOp.run, QueueOp.onList, Tp2So.queueNextCyclicIter]
    rcases queueNextCyclicIter_spec hq with ⟨hnone, hrun⟩ | ⟨i, x, m', hi, hx, hrun, hbec⟩
    · rw [hrun]
      simp only [hnone]
      exact ⟨m, rfl, hq.becomes⟩
    · rw [hrun]
      simp only [hi, hx]
      exact ⟨m', rfl, hbec⟩
  | queueCyclicIterLooped =>
    simp only [QueueOp.run]
    rw [queueCyclicIterLooped_spec hq]
    exact ⟨m, rfl, hq.becomes⟩
  | queueElementExists x buffer =>
    obtain ⟨m', hrun, hbec⟩ := queueElementExists_spec hq x ha.1 ha.2
    simp only [QueueOp.run]
    rw [hrun]
    exact ⟨m', rfl, hbec⟩

end

/-! ## the queues of the heap -/

theorem holds_createQueue {own : Nat → Option Nat} {m : Blocks α} {p : Nat} (cmp : α → α → Bool)
    (elemSize : Nat) :
    Holds (Function.update own p (some p)) (m.store p (.cdt ⟨none, none, none, elemSize, 0, some cmp⟩)) p
      ⟨none, none, none, elemSize, 0, some cmp⟩ [] cmp Tp2So.createQueue where
  record := store_self ..
  owned := Function.update_self ..
  entries := fun _ he => absurd he List.not_mem_nil
  chain :=
    { node := fun _ he => absurd he List.not_mem_nil
      data := fun _ he => absurd he List.not_mem_nil
      linked := rfl
      nodes := List.nodup_nil
      blocks := List.nodup_nil
      tail := rfl
      count := rfl }
  cmp := rfl
  elems := rfl
  cursor := rfl
  inside := fun _ hi => absurd hi (Option.some_ne_none _).symm

theorem refines_call {m : Blocks α} {s : Lists α} (hr : Refines m s) (c : QueueCall α)
    (ha : c.Answered m s) :
    ∃ m', c.run m = some ((c.onLists s).1, m') ∧ Refines m' (c.onLists s).2 := by
  obtain ⟨own, hown⟩ := hr
  cases c with
  | createQueue cmp elemSize answer =>
    cases answer with
    | none => exact ⟨m, rfl, own, hown⟩
    | some p =>
      have hfresh := ha p rfl
      simp only [QueueCall.run, QueueCall.onLists, Pointers.createQueue]
      by_cases h0 : elemSize = 0
      · rw [if_pos h0, if_pos h0, mmFree_store hfresh]
        exact ⟨m, rfl, own, hown⟩
      · rw [if_neg h0, if_neg h0]
        refine ⟨_, rfl, Function.update own p (some p), fun queue cmp' q hq => ?_⟩
        dsimp only at hq
        by_cases hp : queue = p
        · subst hp
          rw [Function.update_self] at hq
          obtain ⟨rfl, rfl⟩ := Prod.mk.inj (Option.some.inj hq)
          exact ⟨_, [], holds_createQueue cmp elemSize⟩
        · rw [Function.update_of_ne hp] at hq
          obtain ⟨c, es, hq⟩ := hown queue cmp' q hq
          refine ⟨c, es, hq.congr fun a _ hlive => ?_⟩
          have hne : a ≠ p := by
            rintro rfl
            exact hlive hfresh
          exact ⟨store_of_ne hne, Function.update_of_ne hne ..⟩
  | on queue op =>
    obtain ⟨cmp, q, hs, hop⟩ := ha
    obtain ⟨c, es, hq⟩ := hown queue cmp q hs
    obtain ⟨m', hrun, own', c', es', hm, hq'⟩ := op.run_spec hq hop
    simp only [QueueCall.run, QueueCall.onLists, hs]
    refine ⟨m', hrun, own', fun k cmp' r hk => ?_⟩
    by_cases hne : k = queue
    · subst hne
      rw [Function.update_self] at hk
      obtain ⟨rfl, rfl⟩ := Prod.mk.inj (Option.some.inj hk)
      exact ⟨c', es', hq'⟩
    · rw [Function.update_of_ne hne] at hk
      obtain ⟨ck, esk, hqk⟩ := hown k cmp' r hk
      exact ⟨ck, esk, hqk.frame hm hne⟩

theorem refines_run (cs : List (QueueCall α)) :
    ∀ {m : Blocks α} {s : Lists α}, Refines m s → AllAnswered cs m s →
      ∃ m', run cs m = some ((onLists cs s).1, m') ∧ Refines m' (onLists cs s).2 := by
  induction cs with
  | nil =>
    intro m s hr _
    exact ⟨m, rfl, hr⟩
  | cons c cs ih =>
    intro m s hr ha
    obtain ⟨m₁, hcall, hr₁⟩ := refines_call hr c ha.1
    obtain ⟨m', hrun, hr'⟩ := ih hr₁ (ha.2 _ hcall)
    refine ⟨m', ?_, hr'⟩
    unfold run
    rw [hcall, Option.bind_some, hrun]
    rfl

/-- **The queues refine lists**: a run reads and frees live blocks only and gives what the lists give,
each queue is one chain from `head` to `tail` with its cursor on it, and an `enqueue` that gets no
memory changes nothing. -/
theorem queues_refine_lists (cs : List (QueueCall α)) (m : Blocks α)
    (ha : AllAnswered cs m fun _ => none) :
    ∃ m', run cs m = some ((onLists cs fun _ => none).1, m') ∧
      Refines m' (onLists cs fun _ => none).2 ∧
      (∀ (cmp : α → α → Bool) (q : Queue α) (op : QueueOp α),
        (op.onList cmp q).2.elems = op.onElems cmp q.elems) ∧
      ∀ queue x node block, (∀ a, node = some a → m' a = none) → (node = none ∨ block = none) →
        Pointers.enqueue queue x node block m' = some (false, m') := by
  have hstart : Refines m fun _ => none := ⟨fun _ => none, fun _ _ _ h => absurd h.symm (Option.some_ne_none _)⟩
  obtain ⟨m', hrun, hr⟩ := refines_run cs hstart ha
  exact ⟨m', hrun, hr, QueueOp.onList_elems, fun queue x _ _ => enqueue_failed queue x⟩

/-- two nodes, the second `mm_alloc` of a third one fails, and the first node is taken out -/
theorem queues_refine_lists_two : ∃ m', run
    [.createQueue (fun y x : Nat => y == x) 4 (some 1), .on 1 (.enqueue 5 (some 2) (some 3)),
      .on 1 (.enqueue 6 (some 4) (some 5)), .on 1 (.enqueue 7 (some 6) none),
      .on 1 (.queueRemove 5), .on 1 .queuePeek] (fun _ => none) =
    some ([.queue (some 1), .done true, .done true, .done false, .done true, .elem (some 6)], m') := by
  have hfresh : ∀ {b : Nat} {m : Blocks Nat}, m b = none → ∀ a, some b = some a → m a = none :=
    fun hb a ha => Option.some.inj ha ▸ hb
  obtain ⟨m', h, -⟩ := queues_refine_lists
    [.createQueue (fun y x : Nat => y == x) 4 (some 1), .on 1 (.enqueue 5 (some 2) (some 3)),
      .on 1 (.enqueue 6 (some 4) (some 5)), .on 1 (.enqueue 7 (some 6) none),
      .on 1 (.queueRemove 5), .on 1 .queuePeek] (fun _ => none) (by
      refine ⟨hfresh rfl, fun r hr => ?_⟩
      obtain rfl := Option.some.inj hr
      refine ⟨⟨_, _, rfl, hfresh rfl, fun b hb => ?_⟩, fun r hr => ?_⟩
      · obtain rfl := Option.some.inj hb
        exact ⟨rfl, by decide⟩
      obtain rfl := Option.some.inj hr
      refine ⟨⟨_, _, rfl, hfresh rfl, fun b hb => ?_⟩, fun r hr => ?_⟩
      · obtain rfl := Option.some.inj hb
        exact ⟨rfl, by decide⟩
      obtain rfl := Option.some.inj hr
      refine ⟨⟨_, _, rfl, hfresh rfl, fun b hb => absurd hb.symm (Option.some_ne_none b)⟩, fun r hr => ?_⟩
      obtain rfl := Option.some.inj hr
      refine ⟨⟨_, _, rfl, trivial⟩, fun r hr => ?_⟩
      obtain rfl := Option.some.inj hr
      exact ⟨⟨_, _, rfl, trivial⟩, fun _ _ => trivial⟩)
  exact ⟨m', h⟩

end

end Tp2So.Pointers
