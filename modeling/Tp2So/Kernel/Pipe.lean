import Mathlib.Algebra.Group.Nat.Defs
import Tp2So.Kernel.Sem

/-!
# `pipe.c`

A pipe is a ring of `PIPE_BUFFER_SIZE` bytes with two wait flags and two semaphores.  `readPipe` and
`writePipe` can stop only inside their `semWait`; what is left to do is the continuation that
`readResume` and `writeResume` carry on with, without testing the ring again.

* `attachReader`, `attachWriter`, `detachReader`, `detachWriter`, `closePipe`   the ends;
* `readPipe`, `readResume`, `writePipe`, `writeResume`                          the transfers;
* `openPipe`, `deletePipe`                                                      the storage.
-/

namespace Tp2So

/-! ## small helpers -/

def nextIdx (i : Nat) : Nat := (i + 1) % pipeBufferSize
def previousIdx (i : Nat) : Nat := if i = 0 then pipeBufferSize - 1 else i - 1

def inc8 (n : Nat) : Nat := (n + 1) % 256

def buildSemName (id : Nat) (suffix : Char) : List Char :=
  ['s', 'e', 'm', 'P', 'i', 'p', 'e', Char.ofNat ('0'.toNat + id / 10),
    Char.ofNat ('0'.toNat + id % 10), suffix]

def Kernel.modPipe (k : Kernel) (a : Nat) (f : Pipe → Pipe) : Kernel :=
  { k with pipes := k.pipes.modify a f }

/-- the pointer of the first stored pipe with this id -/
def getValidPipe (t : PipeStore) (id : Nat) : Option Nat :=
  t.storage.findSome? fun e => e.filter fun a => (t.heap a).any fun p => p.id = id

/-! ## opening and deleting -/

/-- `createPipe` and the `arrayAdd` of `openPipe`: the new id, or `-1`.  The ring is not cleared:
`recycled` is what the allocated block holds -/
def openPipe (k : Kernel) (recycled : Nat → UInt8) : Int × Kernel :=
  if k.pipes.nextId = maxPipes then (-1, k)
  else
    let id := (k.pipes.nextId % 256).toNat
    match semOpen k.sems (buildSemName id 'R') 0 with
    | (none, _) => (-1, k)
    | (some canRead, r) =>
      match semOpen r (buildSemName id 'W') 0 with
      | (none, _) => (-1, { k with sems := (semClose r canRead).2 })
      | (some canWrite, r) =>
        let p : Pipe :=
          { id, buffer := recycled, idxToRead := 0, idxToWrite := 0, waitingToRead := false
            waitingToWrite := false, canRead, canWrite, attached := 0, readers := 0, writers := 0
            expReaders := 1, expWriters := 1 }
        (id, { k with
          sems := r
          pipes := { heap := Function.update k.pipes.heap k.pipes.next (some p)
                     next := k.pipes.next + 1
                     storage := k.pipes.storage ++ [some k.pipes.next]
                     nextId := k.pipes.nextId + 1 } })

/-- `deletePipe` and `freePipe`: both semaphores are closed -/
def deletePipe (k : Kernel) (a : Nat) : Kernel :=
  match k.pipes.heap a with
  | none => k
  | some p =>
    { k with
      sems := (semClose (semClose k.sems p.canRead).2 p.canWrite).2
      pipes := { k.pipes with
        heap := Function.update k.pipes.heap a none
        storage := k.pipes.storage.replace (some a) none } }

/-! ## the ends -/

def attachReader (k : Kernel) (id : Nat) : Int × Kernel :=
  match getValidPipe k.pipes id with
  | none => (-1, k)
  | some a =>
    (0, k.modPipe a fun p =>
      { p with readers := inc16 p.readers, attached := inc8 p.attached,
               expReaders := p.expReaders - 1 })

def attachWriter (k : Kernel) (id : Nat) : Int × Kernel :=
  match getValidPipe k.pipes id with
  | none => (-1, k)
  | some a =>
    (0, k.modPipe a fun p =>
      { p with writers := inc16 p.writers, attached := inc8 p.attached,
               expWriters := p.expWriters - 1 })

/-- one post for every user of the semaphore -/
def wakeAll (k : Kernel) (a : Nat) : Kernel := semPosts a (semGetUsersCount k.sems a).toNat k

/-- both `detach` functions: `dec` takes the end off, `done` asks whether it was the last one,
`wake` wakes the other side and clears its flag -/
def detach (k : Kernel) (id : Nat) (pid : Int) (dec : Pipe → Pipe)
    (wake : Kernel → Nat → Pipe → Kernel) : Kernel :=
  match getValidPipe k.pipes id with
  | none => k
  | some a =>
    match k.pipes.heap a with
    | none => k
    | some p =>
      let sems := removeFromSemaphore (removeFromSemaphore k.sems p.canRead pid) p.canWrite pid
      let k := { k with sems }.modPipe a dec
      let p := dec p
      let k := wake k a p
      if p.readers = 0 ∧ p.writers = 0 ∧ p.expReaders = 0 ∧ p.expWriters = 0 then deletePipe k a
      else k

def dropReader (p : Pipe) : Pipe :=
  if 0 < p.readers then { p with readers := p.readers - 1, attached := p.attached - 1 } else p

def dropWriter (p : Pipe) : Pipe :=
  if 0 < p.writers then { p with writers := p.writers - 1, attached := p.attached - 1 } else p

def detachReader (k : Kernel) (id : Nat) (pid : Int) : Kernel :=
  detach k id pid dropReader fun k a p =>
    if p.readers = 0 ∧ p.waitingToWrite then
      (wakeAll k p.canWrite).modPipe a fun p => { p with waitingToWrite := false }
    else k

def detachWriter (k : Kernel) (id : Nat) (pid : Int) : Kernel :=
  detach k id pid dropWriter fun k a p =>
    if p.writers = 0 ∧ p.waitingToRead then
      (wakeAll k p.canRead).modPipe a fun p => { p with waitingToRead := false }
    else k

def closePipe (k : Kernel) (id : Nat) : Int × Kernel :=
  match getValidPipe k.pipes id with
  | none => (-1, k)
  | some a =>
    match k.pipes.heap a with
    | none => (-1, k)
    | some p =>
      let k := if (id ≠ stdin ∧ id ≠ stdout) ∧ p.attached ≤ 1 then
          wakeAll (wakeAll k p.canRead) p.canWrite
        else k
      if p.attached = 0 ∨ ((id = stdin ∨ id = stdout) ∧ p.attached = 1) then (0, deletePipe k a)
      else (0, k)

/-! ## reading -/

/-- how far a transfer gets: `suspended` carries what `readResume`, `writeResume` need -/
inductive ReadResult where
  | error
  | returned (bytes : List UInt8)
  | suspended (pipe : Nat)

/-- the copy loop: at most `n` bytes, until the indices meet -/
def readLoop : Nat → Pipe → List UInt8 × Pipe
  | 0, p => ([], p)
  | n + 1, p =>
    if p.idxToRead = p.idxToWrite then ([], p)
    else
      let r := readLoop n { p with idxToRead := nextIdx p.idxToRead }
      (p.buffer p.idxToRead :: r.1, r.2)

/-- `readPipe` after its `semWait` -/
def readResume (k : Kernel) (a : Nat) (bytes : Nat) : ReadResult × Kernel :=
  match k.pipes.heap a with
  | none => (.error, k)
  | some p =>
    let r := readLoop bytes p
    let k := k.modPipe a fun _ => r.2
    if r.1 ≠ [] ∧ r.2.waitingToWrite then
      let k := k.modPipe a fun p => { p with waitingToWrite := false }
      match semPost k r.2.canWrite with
      | (0, k) => (.returned r.1, k)
      | (_, k) => (.error, k)
    else (.returned r.1, k)

def readPipe (k : Kernel) (id : Nat) (bytes : Nat) : ReadResult × Kernel :=
  match getValidPipe k.pipes id with
  | none => (.error, k)
  | some a =>
    match k.pipes.heap a with
    | none => (.error, k)
    | some p =>
      if p.idxToRead = p.idxToWrite then
        if p.writers = 0 ∧ p.expWriters = 0 then (.returned [], k)
        else
          let k := k.modPipe a fun p => { p with waitingToRead := true }
          match semWait k p.canRead with
          | (.error, k) => (.error, k)
          | (.granted, k) => readResume k a bytes
          | (.suspended, k) => (.suspended a, k)
      else readResume k a bytes

/-! ## writing -/

inductive WriteResult where
  | error
  | returned (written : Nat)
  | suspended (pipe : Nat) (rest : List UInt8) (written : Nat)

/-- store one byte -/
def storeByte (b : UInt8) (p : Pipe) : Pipe :=
  { p with buffer := Function.update p.buffer p.idxToWrite b, idxToWrite := nextIdx p.idxToWrite }

/-- the end of `writePipe`, after its loop -/
def writeFinish (k : Kernel) (a : Nat) (written : Nat) : WriteResult × Kernel :=
  match k.pipes.heap a with
  | none => (.error, k)
  | some p =>
    if 0 < written ∧ p.waitingToRead then
      let k := k.modPipe a fun p => { p with waitingToRead := false }
      match semPost k p.canRead with
      | (0, k) => (.returned written, k)
      | (_, k) => (.error, k)
    else (.returned written, k)

/-- the loop of `writePipe` with `rest` still to store -/
def writeLoop (a : Nat) : List UInt8 → Nat → Kernel → WriteResult × Kernel
  | [], written, k => writeFinish k a written
  | b :: rest, written, k =>
    match k.pipes.heap a with
    | none => (.error, k)
    | some p =>
      if p.idxToWrite = previousIdx p.idxToRead then
        let k := k.modPipe a fun p => { p with waitingToWrite := true }
        match semWait k p.canWrite with
        | (.error, k) => (.error, k)
        | (.granted, k) => writeLoop a rest (written + 1) (k.modPipe a (storeByte b))
        | (.suspended, k) => (.suspended a (b :: rest) written, k)
      else writeLoop a rest (written + 1) (k.modPipe a (storeByte b))

/-- `writePipe` after a `semWait` of its loop: the byte is stored with no new test -/
def writeResume (k : Kernel) (a : Nat) (rest : List UInt8) (written : Nat) : WriteResult × Kernel :=
  match rest with
  | [] => writeFinish k a written
  | b :: rest => writeLoop a rest (written + 1) (k.modPipe a (storeByte b))

/-- the loop bound `(int)bytes` -/
def intBytes (bytes : Nat) : Nat :=
  if bytes % 2 ^ 32 < 2 ^ 31 then bytes % 2 ^ 32 else 0

def writePipe (k : Kernel) (id : Nat) (data : List UInt8) : WriteResult × Kernel :=
  match getValidPipe k.pipes id with
  | none => (.error, k)
  | some a => writeLoop a (data.take (intBytes data.length)) 0 k

end Tp2So
