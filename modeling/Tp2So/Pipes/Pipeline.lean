import Tp2So.Lib.Jobs
import Tp2So.Pipes.Stream

/-!
# A pipeline of two commands

The shell runs `left | right` as two processes: what the left one, the process `w`, writes goes to a
pipe, and the right one, the process `r`, reads from it.  Each is a program of its own, and whoever is on
the CPU takes the next step; a `getchar` or a `putchar` may put its caller to sleep inside the pipe.

* `Pipeline`        the pipe and the two programs;
* `leftStep`, `rightStep`   the next step of a program that is not inside a call;
* `execPipeline`    the steps of the pipeline.

The left program reads what is `typed`, and what the right one writes goes to the screen.  `printf` makes
one call for each character here, also for those of a number.
-/

set_option linter.unusedVariables false

namespace Tp2So

structure Pipeline (σ τ : Type) where
  sys : PipeSys
  left : Job σ UInt8
  right : Job τ UInt8

inductive PipelineOp where
  | attachReader
  | attachWriter
  | left
  | right
  | resume
  | schedule (fuel rsp : Nat)

/-- the process on the CPU -/
def PipeSys.onCpu (t : PipeSys) (q : Int) : Bool := t.k.sched.actor.any fun x => x.2.pid = q

section
variable {σ τ : Type}

def Pipeline.start (t : PipeSys) (s : σ) (u : τ) : Pipeline σ τ := ⟨t, .start s, .start u⟩

/-- what `getchar` makes of a read that has returned: a character, or the end of file.  After `-1`, and
when its caller sleeps, it goes on reading. -/
def Job.received (R : τ → Action τ UInt8 UInt8) (j : Job τ UInt8) : Option (Nat × List UInt8) → Job τ UInt8
  | none => j
  | some x =>
    match R j.state with
    | .getchar next => j.got (next x.2.head?)
    | _ => j

/-- `putchar`, `getchar` and the end of the left program, which gives up its end of the pipe -/
def leftStep (L : σ → Action σ UInt8 UInt8) (typed : Nat → Option UInt8) (id : Nat) (w : Int)
    (t : Pipeline σ τ) : Option (Pipeline σ τ) :=
  match t.left.pending with
  | b :: rest => (execPipe id (.write [b]) t.sys).map fun s =>
    { t with sys := s, left := t.left.put b rest }
  | [] =>
    match L t.left.state with
    | .getchar next => some { t with left := t.left.got (next (typed t.left.reads)) }
    | .print text next => some { t with left := { t.left with state := next, pending := text } }
    | .exit => (execPipe id (.detachWriter w) t.sys).map fun s => { t with sys := s }

/-- the same for the right program -/
def rightStep (R : τ → Action τ UInt8 UInt8) (id : Nat) (r : Int) (t : Pipeline σ τ) :
    Option (Pipeline σ τ) :=
  match t.right.pending with
  | b :: rest => some { t with right := t.right.put b rest }
  | [] =>
    match R t.right.state with
    | .getchar _ => (execPipe id (.read 1) t.sys).map fun s =>
      { t with sys := s, right := t.right.received R (readOutcome id (.read 1) t.sys) }
    | .print text next => some { t with right := { t.right with state := next, pending := text } }
    | .exit => (execPipe id (.detachReader r) t.sys).map fun s => { t with sys := s }

/-- one step of the pipeline -/
def execPipeline (L : σ → Action σ UInt8 UInt8) (R : τ → Action τ UInt8 UInt8)
    (typed : Nat → Option UInt8) (id : Nat) (r w : Int) (o : PipelineOp) (t : Pipeline σ τ) :
    Option (Pipeline σ τ) :=
  match o with
  | .attachReader =>
    if t.sys.cont r = .away then (execPipe id (.attachReader r) t.sys).map fun s => { t with sys := s }
    else none
  | .attachWriter =>
    if t.sys.cont w = .away then (execPipe id (.attachWriter w) t.sys).map fun s => { t with sys := s }
    else none
  | .left => if t.sys.onCpu w && t.sys.cont w = .idle then leftStep L typed id w t else none
  | .right => if t.sys.onCpu r && t.sys.cont r = .idle then rightStep R id r t else none
  | .resume => (execPipe id .resume t.sys).map fun s =>
    { t with sys := s, right := t.right.received R (readOutcome id .resume t.sys) }
  | .schedule fuel rsp => (execPipe id (.schedule fuel rsp) t.sys).map fun s => { t with sys := s }

end

end Tp2So
