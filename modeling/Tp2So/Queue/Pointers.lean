import Tp2So.Queue.Adt
import Mathlib.Logic.Function.Basic

/-!
# The queue of `datastructures/queue.c`, in its heap blocks

A pointer is an address or `NULL` (`none`), the heap a partial map from addresses to the blocks that
are live.  A function gives `none` where the code reads a block that is not live or not of the kind
it expects, frees one twice, or panics.  What `mm_alloc` answers is an argument.

* `QueueCDT`, `Node`, `Block`     the records of `queue.c` and the blocks they stand in;
* `createQueue`, `enqueue`, `dequeue`, `queueRemove`, `queuePeek`   the chain;
* `queueBeginCyclicIter`, `queueNextCyclicIter`, `queueCyclicIterLooped`, `queueElementExists`   the
  cursor.
-/

namespace Tp2So.Pointers

structure Node where
  next : Option Nat
  data : Nat
  deriving DecidableEq, Repr

structure QueueCDT (α : Type) where
  head : Option Nat
  tail : Option Nat
  cyclicIter : Option Nat
  dataSize : Nat
  elemCount : Nat
  cmp : Option (α → α → Bool)

/-- `raw` is a block nothing was written to yet; an element's `dataSize` bytes are one value -/
inductive Block (α : Type) where
  | raw
  | cdt (c : QueueCDT α)
  | node (n : Node)
  | data (x : α)

abbrev Blocks (α : Type) := Nat → Option (Block α)

section
variable {α : Type}

def Blocks.store (m : Blocks α) (p : Nat) (b : Block α) : Blocks α := Function.update m p (some b)

/-- `mm_free` of a block that is live -/
def Blocks.mmFree (m : Blocks α) (p : Nat) : Option (Blocks α) :=
  if (m p).isSome then some (Function.update m p none) else none

def Blocks.cdtAt (m : Blocks α) (p : Nat) : Option (QueueCDT α) :=
  match m p with
  | some (.cdt c) => some c
  | _ => none

def Blocks.nodeAt (m : Blocks α) (p : Nat) : Option Node :=
  match m p with
  | some (.node n) => some n
  | _ => none

def Blocks.dataAt (m : Blocks α) (p : Nat) : Option α :=
  match m p with
  | some (.data x) => some x
  | _ => none

def createQueue (cmp : Option (α → α → Bool)) (elemSize : Nat) (answer : Option Nat) (m : Blocks α) :
    Option (Option Nat × Blocks α) :=
  match answer with
  | none => some (none, m)
  | some queue =>
    if elemSize = 0 then
      ((m.store queue .raw).mmFree queue).bind fun m => some (none, m)
    else some (some queue, m.store queue (.cdt ⟨none, none, none, elemSize, 0, cmp⟩))

/-- the new node becomes the last one -/
def linkLast (queue new : Nat) (m : Blocks α) : Option (Blocks α) :=
  (m.cdtAt queue).bind fun c =>
    if c.head = none then
      some (m.store queue
        (.cdt { c with tail := some new, head := some new, elemCount := c.elemCount + 1 }))
    else
      c.tail.bind fun tail =>
      (m.nodeAt tail).bind fun n =>
      some ((m.store tail (.node { n with next := some new })).store queue
        (.cdt { c with tail := some new, elemCount := c.elemCount + 1 }))

/-- `node` and `block` are the answers to the two `mm_alloc`s, `data` is `none` for `NULL`; the
result is `true` where the code returns `queue` -/
def enqueue (queue : Option Nat) (data : Option α) (node block : Option Nat) (m : Blocks α) :
    Option (Bool × Blocks α) :=
  match queue, data with
  | some q, some x =>
    match node with
    | none => some (false, m)
    | some new =>
      match block with
      | none => ((m.store new .raw).mmFree new).bind fun m => some (false, m)
      | some d =>
        (linkLast q new (((m.store new .raw).store d (.data x)).store new (.node ⟨none, d⟩))).bind
          fun m => some (true, m)
  | _, _ => some (false, m)

/-- the first component is what the code copies to `buffer`, `none` where it returns `NULL` -/
def dequeue (queue : Option Nat) (m : Blocks α) : Option (Option α × Blocks α) :=
  match queue with
  | none => some (none, m)
  | some q =>
    (m.cdtAt q).bind fun c =>
    match c.head with
    | none => some (none, m)
    | some temp =>
      (m.nodeAt temp).bind fun n =>
      (m.dataAt n.data).bind fun x =>
      (m.mmFree n.data).bind fun m =>
      (m.mmFree temp).bind fun m =>
      some (some x, m.store q (.cdt { c with
        head := n.next
        tail := if n.next = none then none else c.tail
        cyclicIter := if n.next = none then none
          else if c.cyclicIter = some temp then n.next else c.cyclicIter
        elemCount := c.elemCount - 1 }))

/-- `p->next = next`, where `p` is not `NULL` -/
def setNext (p : Option Nat) (next : Option Nat) (m : Blocks α) : Option (Blocks α) :=
  match p with
  | none => some m
  | some p => (m.nodeAt p).bind fun n => some (m.store p (.node { n with next := next }))

/-- the body of the `if` in the loop of `queueRemove`: `n` is what `current` points to -/
def removeNode (queue : Nat) (prev : Option Nat) (current : Nat) (n : Node) (m : Blocks α) :
    Option (Blocks α) :=
  (m.cdtAt queue).bind fun c =>
  (setNext prev n.next m).bind fun m =>
  (m.mmFree n.data).bind fun m =>
  (m.mmFree current).bind fun m =>
  some (m.store queue (.cdt { c with
    head := if prev = none then n.next else c.head
    tail := if c.tail = some current then prev else c.tail
    cyclicIter := if c.cyclicIter = some current then n.next else c.cyclicIter
    elemCount := c.elemCount - 1 }))

/-- at most `turns` turns of the loop of `queueRemove` -/
def queueRemoveLoop (cmp : α → α → Bool) (queue : Nat) (x : α) :
    Nat → Option Nat → Option Nat → Blocks α → Option (Bool × Blocks α)
  | 0, _, _, _ => none
  | _ + 1, _, none, m => some (false, m)
  | turns + 1, prev, some current, m =>
    (m.nodeAt current).bind fun n =>
    (m.dataAt n.data).bind fun y =>
    if cmp y x then (removeNode queue prev current n m).bind fun m => some (true, m)
    else queueRemoveLoop cmp queue x turns (some current) n.next m

/-- a loop that passes more than `elemCount` nodes counts as one that does not end -/
def queueRemove (queue : Option Nat) (x : α) (m : Blocks α) : Option (Bool × Blocks α) :=
  match queue with
  | none => some (false, m)
  | some q =>
    (m.cdtAt q).bind fun c =>
    if c.head = none then some (false, m)
    else c.cmp.bind fun cmp => queueRemoveLoop cmp q x (c.elemCount + 1) none c.head m

def queuePeek (queue : Option Nat) (m : Blocks α) : Option (Option α) :=
  match queue with
  | none => some none
  | some q =>
    (m.cdtAt q).bind fun c =>
    match c.head with
    | none => some none
    | some head => (m.nodeAt head).bind fun n => (m.dataAt n.data).bind fun x => some (some x)

def queueSize (queue : Option Nat) (m : Blocks α) : Option Nat :=
  match queue with
  | none => some 0
  | some q => (m.cdtAt q).bind fun c => some c.elemCount

def queueBeginCyclicIter (queue : Option Nat) (m : Blocks α) : Option (Bool × Blocks α) :=
  match queue with
  | none => some (false, m)
  | some q =>
    (m.cdtAt q).bind fun c =>
    if c.head = none then some (false, m)
    else some (true, m.store q (.cdt { c with cyclicIter := c.head }))

/-- `buffer` says that the caller's buffer is not `NULL` -/
def queueNextCyclicIter (queue : Option Nat) (buffer : Bool) (m : Blocks α) :
    Option (Option α × Blocks α) :=
  match queue with
  | none => some (none, m)
  | some q =>
    (m.cdtAt q).bind fun c =>
    match c.cyclicIter with
    | none => some (none, m)
    | some iter =>
      if buffer then
        (m.nodeAt iter).bind fun n =>
        (m.dataAt n.data).bind fun x =>
        some (some x, m.store q (.cdt { c with
          cyclicIter := if n.next = none then c.head else n.next }))
      else some (none, m)

def queueCyclicIterLooped (queue : Option Nat) (m : Blocks α) : Option Bool :=
  match queue with
  | none => some false
  | some q =>
    (m.cdtAt q).bind fun c =>
    match c.cyclicIter with
    | none => some false
    | some iter => some (some iter = c.head)

/-- the loop of `queueElementExists`; `held` is what was last copied to its buffer -/
def queueElementExistsLoop (queue : Nat) (x : α) (buffer : Bool) :
    Nat → Option α → Blocks α → Option (Bool × Blocks α)
  | 0, _, m => some (false, m)
  | n + 1, held, m =>
    (queueNextCyclicIter (some queue) buffer m).bind fun r =>
    (r.1.or held).bind fun y =>
    (r.2.cdtAt queue).bind fun c =>
    c.cmp.bind fun cmp =>
    if cmp y x then some (true, r.2) else queueElementExistsLoop queue x buffer n (r.1.or held) r.2

/-- `buffer` is the answer to its `mm_alloc`, which the code does not check -/
def queueElementExists (queue : Option Nat) (x : α) (buffer : Option Nat) (m : Blocks α) :
    Option (Bool × Blocks α) :=
  (queueSize queue m).bind fun size =>
  queue.bind fun q =>
  (m.cdtAt q).bind fun _ =>
  (queueBeginCyclicIter queue (match buffer with
    | none => m
    | some b => m.store b .raw)).bind fun r =>
  (queueElementExistsLoop q x buffer.isSome size none r.2).bind fun r =>
  match buffer with
  | none => some r
  | some b => (r.2.mmFree b).bind fun m => some (r.1, m)

end

end Tp2So.Pointers
