import Tp2So.Libc.Strings
import Mathlib.Logic.Function.Basic

/-!
# `shell.c`: a line, from the prompt to the next one

What is written to the arrays of the shell is kept, as the array and the index, and so is every argument
string that is allocated or freed; the strings of a line are numbered.  The answers of the memory and
of `pipeOpen` are an `Env`.  A function gives `none` where `strtok` reads outside the buffer or a loop
goes on for more turns than the buffer has bytes.

* `parse_command`    one command of the line;
* `parseLoop`        the calls of it in `main`;
* `execute`, `releaseAll`   what `main` does with the commands;
* `handleLine`       one turn of the loop of `main`.

Left out: what is printed, the processes that are created, the contents of `command_history`.
-/

set_option linter.unusedVariables false

namespace Tp2So.Shell

open Libc

def maxBufferSize : Nat := 1024
def historySize : Nat := 10
def maxArgumentCount : Nat := 10
def maxArgumentSize : Nat := 256

/-! ## the commands -/

structure Command where
  name : List UInt8
  isBuiltIn : Bool

def command (name : List Char) (isBuiltIn : Bool) : Command := ⟨name.map ch, isBuiltIn⟩

def commands : List Command :=
  [command ['b', 'l', 'o', 'c', 'k'] false, command ['c', 'a', 't'] false,
    command ['c', 'l', 'e', 'a', 'r'] false, command ['e', 'c', 'h', 'o'] false,
    command ['e', 'x', 'i', 't'] true, command ['h', 'e', 'l', 'p'] false,
    command ['m', 'a', 'n'] true, command ['t', 'e', 's', 't', '_', 'm', 'm'] false,
    command ['t', 'e', 's', 't', '_', 'p', 'r', 'i', 'o'] false,
    command ['t', 'e', 's', 't', '_', 'p', 'r', 'o', 'c', 'e', 's', 's', 'e', 's'] false,
    command ['t', 'e', 's', 't', '_', 's', 'y', 'n', 'c'] false, command ['p', 's'] false,
    command ['l', 'o', 'o', 'p'] false, command ['k', 'i', 'l', 'l'] false,
    command ['n', 'i', 'c', 'e'] false, command ['m', 'e', 'm'] false, command ['w', 'c'] false,
    command ['f', 'i', 'l', 't', 'e', 'r'] false, command ['m', 'v', 'a', 'r'] false,
    command ['f', 'o', 'n', 't'] false]

/-- the loop over `commands`; it stops at the first name that is equal -/
def commandIndex (name : List UInt8) : Option Nat := commands.findIdx? fun c => strcmp c.name name = 0

/-- `" "` -/
def blank : List UInt8 := [ch ' ']

/-- `"|"` -/
def pipe : List UInt8 := [ch '|']

/-- `"&"` -/
def ampersand : List UInt8 := [ch '&']

/-! ## the state -/

/-- `argv p dim` is `parsedCommands[p].argv`, in an array of `dim` commands -/
inductive Arr where
  | buffer
  | historyBuffer
  | command
  | invalidCmd
  | argv (p dim : Nat)
  | history (row : Nat)
  deriving DecidableEq, Repr

def Arr.size : Arr → Nat
  | .buffer => maxBufferSize
  | .historyBuffer => maxBufferSize
  | .command => maxArgumentSize
  | .invalidCmd => maxArgumentSize
  | .argv p dim => if p < dim then maxArgumentCount else 0
  | .history row => if row < historySize then maxBufferSize else 0

structure Place where
  arr : Arr
  index : Nat
  deriving DecidableEq, Repr

def Place.inside (w : Place) : Bool := w.index < w.arr.size

/-- an argument string on the heap -/
structure Copy where
  id : Nat
  text : List UInt8
  deriving DecidableEq, Repr

/-- `command` is the index in `commands`, from which `name`, `function` and `argv[0]` are taken; `argv`
gives the other entries -/
structure ParsedCommand where
  command : Nat
  argc : Nat
  argv : Nat → Option Copy
  isBuiltIn : Bool

structure State where
  buffer : Strtok
  bufferDim : Nat
  historyBuffer : List UInt8
  historyLast : Nat
  dim : Nat
  parsedCommands : Nat → ParsedCommand
  allocated : Nat
  freed : List Nat
  writes : List Place

/-- at the first prompt; the commands are what the memory holds -/
def State.start (parsedCommands : Nat → ParsedCommand) : State :=
  { buffer := ⟨List.replicate maxBufferSize 0, 0, []⟩
    bufferDim := 0
    historyBuffer := List.replicate maxBufferSize 0
    historyLast := 0
    dim := 5
    parsedCommands := parsedCommands
    allocated := 0
    freed := []
    writes := [] }

/-- `alloc k` says that the `k`-th argument string of the line gets its memory, `grow dim` that an array of
more than `dim` commands does -/
structure Env where
  alloc : Nat → Bool
  grow : Nat → Bool
  pipeOpen : Int

def State.write (s : State) (arr : Arr) (l : List Nat) : State :=
  { s with writes := s.writes ++ l.map (Place.mk arr) }

def State.setTok (s : State) (b : Strtok) : State := { s with buffer := b }

def State.allocate (s : State) : State := { s with allocated := s.allocated + 1 }

def State.free (s : State) (ids : List Nat) : State := { s with freed := s.freed ++ ids }

def State.setCommand (s : State) (p : Nat) (c : ParsedCommand) : State :=
  { s with parsedCommands := Function.update s.parsedCommands p c }

def State.setBuffer (s : State) (i : Nat) (c : UInt8) : State :=
  (s.setTok { s.buffer with text := s.buffer.text.set i c }).write .buffer [i]

/-- the commands are copied to an array of five more -/
def State.grown (s : State) : State :=
  { s with
    dim := s.dim + 5
    writes := s.writes ++ (List.range s.dim).flatMap fun p =>
      (List.range maxArgumentCount).map (Place.mk (.argv p (s.dim + 5))) }

/-! ## `parse_command` -/

def token (s1 : Option Nat) (s : State) : Option (Option Nat × State) :=
  (strtok s1 blank s.buffer).bind fun r => some (r.1, s.setTok r.2)

/-- `while (tok && strcmp(tok, "|") == 0)` -/
def skipPipes : Nat → Option Nat → State → Option (Option Nat × State)
  | 0, _, _ => none
  | n + 1, tok, s =>
    match tok with
    | none => some (none, s)
    | some p =>
      if strcmp (stringAt s.buffer p) pipe = 0 then
        (token none s).bind fun r => skipPipes n r.1 r.2
      else some (some p, s)

/-- the indices from 1 on -/
def argIndices (argc : Nat) : List Nat := (List.range argc).drop 1

def ParsedCommand.copies (c : ParsedCommand) : List Nat :=
  (argIndices c.argc).filterMap fun i => (c.argv i).map Copy.id

/-- the loop over the arguments; the first component is `false` where the memory for one fails -/
def argLoop (alloc : Nat → Bool) (p : Nat) : Nat → Option Nat → ParsedCommand → State →
    Option (Bool × ParsedCommand × State)
  | 0, _, _, _ => none
  | n + 1, arg, c, s =>
    match arg with
    | none => some (true, c, s)
    | some a =>
      let text := stringAt s.buffer a
      if strcasecmp text pipe ≠ 0 ∧ c.argc < maxArgumentCount - 1 then
        let s := s.write (.argv p s.dim) [c.argc]
        if alloc s.allocated then
          let c := { c with argv := Function.update c.argv c.argc (some ⟨s.allocated, text⟩) }
          (token none s.allocate).bind fun r =>
            argLoop alloc p n r.1 { c with argc := c.argc + 1 } r.2
        else some (false, c, s.free c.copies)
      else some (true, c, s)

/-- what follows the search for the command; an entry that is not counted is not read again -/
def parseArguments (alloc : Nat → Bool) (p i : Nat) (s : State) : Option (Bool × State) :=
  (token none s).bind fun r =>
  let s := r.2.write (.argv p r.2.dim) [0]
  (argLoop alloc p maxArgumentCount r.1 ⟨i, 1, fun _ => none, false⟩ s).bind fun l =>
  if l.1 then
    let c := l.2.1
    let s := l.2.2.write (.argv p l.2.2.dim) [c.argc]
    let c := { c with
      argv := Function.update c.argv c.argc none
      isBuiltIn := ((commands[i]?).map Command.isBuiltIn).getD false }
    some (true, s.setCommand p c)
  else some (false, l.2.2)

/-- `1` is `true`, `-1` is `false`; `first` says that the call is made with the buffer -/
def parse_command (alloc : Nat → Bool) (first : Bool) (p : Nat) (s : State) : Option (Bool × State) :=
  (token (if first then some 0 else none) s).bind fun r =>
  (skipPipes (maxBufferSize + 1) r.1 r.2).bind fun r =>
  match r.1 with
  | none => some (false, r.2)
  | some tok =>
    let name := stringAt r.2.buffer tok
    let s := r.2.write .command (List.range (strcpyWrites name))
    if name = [] then some (false, s)
    else
      match commandIndex name with
      | none => some (false, s)
      | some i => parseArguments alloc p i s

/-! ## `main` -/

/-- the first component is `none` where `main` returns, else the number of commands -/
def parseLoop (env : Env) : Nat → Nat → State → Option (Option Nat × State)
  | 0, _, _ => none
  | n + 1, parsed, s =>
    (parse_command env.alloc (parsed = 0) parsed s).bind fun r =>
    if r.1 then
      if (parsed + 1) % 5 = 0 ∧ parsed + 1 ≥ r.2.dim then
        if env.grow r.2.dim then parseLoop env n (parsed + 1) r.2.grown
        else
          let ids := (List.range (parsed + 1)).flatMap fun p => (r.2.parsedCommands p).copies
          some (none, r.2.free ids)
      else parseLoop env n (parsed + 1) r.2
    else some (some parsed, r.2)

/-- the loop over `getchar`, up to the end of the line -/
def readLoop : List UInt8 → State → State
  | [], s => s
  | c :: cs, s =>
    if s.bufferDim < maxBufferSize - 1 then
      let s := { s with historyBuffer := s.historyBuffer.set s.bufferDim c }.write .historyBuffer [s.bufferDim]
      let s := s.setBuffer s.bufferDim c
      readLoop cs { s with bufferDim := s.bufferDim + 1 }
    else s

/-- "Command '%s' not found" -/
def invalidCommand (s : State) : Option State :=
  (token (some 0) s).bind fun r =>
  match r.1 with
  | none => some r.2
  | some tok => some (r.2.write .invalidCmd (List.range (strcpyWrites (stringAt r.2.buffer tok))))

/-- the line goes to `command_history` -/
def remember (s : State) : State :=
  let s := s.write (.history s.historyLast) (List.range (strncpyWrites s.historyBuffer 255))
  let s := s.write (.history s.historyLast) [s.bufferDim]
  { s with historyLast := (s.historyLast + 1) % historySize }

/-- the last argument is `&` -/
def ParsedCommand.wantsBackground (c : ParsedCommand) : Bool :=
  c.argc > 1 && (match c.argv (c.argc - 1) with
    | none => false
    | some lastArg => strcmp lastArg.text ampersand = 0)

def takeBackground (p : Nat) (s : State) : State :=
  let c := s.parsedCommands p
  if c.wantsBackground then
    let s := s.write (.argv p s.dim) [c.argc - 1]
    s.setCommand p { c with argv := Function.update c.argv (c.argc - 1) none, argc := c.argc - 1 }
  else s

def execute (env : Env) (parsed : Nat) (s : State) : State :=
  if parsed = 1 then
    if (s.parsedCommands 0).isBuiltIn then s else takeBackground 0 s
  else if parsed = 2 then
    if (s.parsedCommands 0).isBuiltIn || (s.parsedCommands 1).isBuiltIn then s
    else if env.pipeOpen < 0 then s
    else takeBackground 1 (takeBackground 0 s)
  else s

/-- the loop over the arguments of one command -/
def releaseArgs (p : Nat) : List Nat → State → State
  | [], s => s
  | i :: l, s =>
    match (s.parsedCommands p).argv i with
    | none => releaseArgs p l s
    | some copy =>
      let c := s.parsedCommands p
      let s := (s.free [copy.id]).setCommand p { c with argv := Function.update c.argv i none }
      releaseArgs p l (s.write (.argv p s.dim) [i])

def release (s : State) (p : Nat) : State :=
  let s := releaseArgs p (argIndices (s.parsedCommands p).argc) s
  let c := s.parsedCommands p
  let s := s.setCommand p { c with argc := 1, argv := Function.update c.argv 1 none }
  s.write (.argv p s.dim) [1]

def releaseAll (parsed : Nat) (s : State) : State := (List.range parsed).foldl release s

/-- `line` is what `getchar` gives up to the end of the line; the first component is `false` where `main`
returns.  What is allocated, freed and written is counted from the start of the line -/
def handleLine (env : Env) (line : List UInt8) (s : State) : Option (Bool × State) :=
  let s := { s with
    allocated := 0, freed := [], writes := [], buffer := { s.buffer with writes := [] }, bufferDim := 0 }
  let s := readLoop line s
  let s := s.setBuffer s.bufferDim 0
  if s.bufferDim ≥ maxBufferSize - 1 then some (true, s.setBuffer 0 0)
  else
    (parseLoop env (maxBufferSize + 1) 0 s).bind fun r =>
    match r.1 with
    | none => some (false, r.2)
    | some parsed =>
      (if parsed = 0 ∧ r.2.bufferDim > 0 then invalidCommand r.2 else some r.2).bind fun s =>
      let s := if parsed ≠ 0 then remember s else s
      let s := releaseAll parsed (execute env parsed s)
      some (true, s.setBuffer 0 0)

/-- every write of the line -/
def State.allWrites (s : State) : List Place := s.writes ++ s.buffer.writes.map (Place.mk .buffer)

/-- at a prompt -/
inductive Reachable : State → Prop where
  | start (parsedCommands : Nat → ParsedCommand) : Reachable (State.start parsedCommands)
  | line {s s' : State} (env : Env) (line : List UInt8) (h : Reachable s)
      (hrun : handleLine env line s = some (true, s')) : Reachable s'

end Tp2So.Shell
