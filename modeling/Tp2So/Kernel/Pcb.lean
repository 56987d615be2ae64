import Tp2So.Lib.Fields
import Tp2So.Kernel.Create

/-!
# The blocks that a `create_process` fills

`mm_alloc` does not clear what it hands out.  Here the blocks of one call are numbered in the order
in which they are allocated: block `0` is the control block, block `1` the stack, block `2` the array
of the arguments, and block `3 + i` the copy of the `i`-th argument.  A block is its bytes.

* `Pcb`          the offsets of the fields of `struct Process`;
* `fieldStores`, `pcbStores`   the stores into the control block, in the order of the source;
* `createPcb`    the blocks after a call that has succeeded;
* `readPcb`      the fields that the kernel reads later.

Left out: the frame that `stackInit` builds in block `1`.
-/

set_option linter.unusedVariables false

namespace Tp2So

/-- what the blocks of a call hold -/
abbrev Blocks := Nat → Nat → UInt8

/-! ## `struct Process` -/

namespace Pcb

abbrev pid : Nat := 0
abbrev ppid : Nat := 4
abbrev state : Nat := 8
abbrev argc : Nat := 12
abbrev argv : Nat := 16
abbrev rsp : Nat := 24
abbrev stackBase : Nat := 32
abbrev rip : Nat := 40
abbrev priority : Nat := 48
abbrev originalPriority : Nat := 52
abbrev quantumRemaining : Nat := 56
abbrev waitTicks : Nat := 60
abbrev ground : Nat := 64
abbrev rbp : Nat := 72
abbrev targetByFd : Nat := 80
abbrev children : Nat := 84
abbrev childCount : Nat := 212

end Pcb

/-- an `int`, as the 32-bit word that is stored, and back -/
def ofInt (x : Int) : Nat := (x % 4294967296).toNat
def toInt (n : Nat) : Int := Int.bmod n 4294967296

/-- the values of `enum ProcessState` -/
def ProcessState.code : ProcessState → Nat
  | .ready => 0
  | .running => 1
  | .blocked => 2
  | .terminated => 3

/-! ## writing -/

/-- the stores that `create_process` itself makes into the control block `q` -/
def fieldStores (q : Process) (argc : Int) (argv rip : Nat) : List Store :=
  [.quad Pcb.stackBase q.stackBase, .word Pcb.pid (ofInt q.pid), .word Pcb.ppid (ofInt q.ppid),
    .word Pcb.state q.state.code, .quad Pcb.rip rip, .word Pcb.ground (if q.ground then 1 else 0),
    .quad Pcb.rbp 0, .word Pcb.priority q.priority, .word Pcb.originalPriority q.originalPriority,
    .word Pcb.quantumRemaining (ofInt q.quantumRemaining), .word Pcb.waitTicks q.waitTicks,
    .word Pcb.argc (ofInt argc), .quad Pcb.argv argv, .quad Pcb.rsp q.rsp,
    .byte Pcb.targetByFd q.readTarget, .byte (Pcb.targetByFd + 1) q.writeTarget,
    .byte (Pcb.targetByFd + 2) q.errTarget]

/-- and the one of `add_to_scheduler`, which is not called for pid `0` -/
def pcbStores (q : Process) (argc : Int) (argv rip : Nat) : List Store :=
  fieldStores q argc argv rip
    ++ if q.pid = 0 then [] else [.word Pcb.state ProcessState.ready.code]

/-- the argument that `argv[i]` points to; `argv` has `argc` entries -/
def argOf (args : CreateArgs) (i : Nat) : List Nat :=
  ((args.argv.getD []).getD i []).map Char.toNat

/-- the blocks that are filled: `argv` and `xs` are where the array and the strings lie -/
def fillBlocks (args : CreateArgs) (q : Process) (argv : Nat) (xs : List Nat) (rip : Nat)
    (m : Blocks) : Blocks
  | 0 => runStores (m 0) (pcbStores q args.argc argv rip)
  | 1 => m 1
  | 2 => runStores (m 2) (quads 0 xs)
  | i + 3 => if i < args.argc.toNat then runStores (m (i + 3)) (chars 0 (argOf args i)) else m (i + 3)

/-- `child_count` -/
def childCount (m : Nat → UInt8) : Int := toInt (load32 m Pcb.childCount)

/-- the first `child_count` entries of the array `children`, which has `MAX_CHILDREN` -/
def childrenOf (m : Nat → UInt8) : List Int :=
  (List.range (min (childCount m).toNat maxChildren)).map fun i => toInt (load32 m (Pcb.children + 4 * i))

/-- the blocks after `create_process` when they hold `m` before, if the call succeeds.  What the
control block holds in `argv`, `argc` and `children` is what the call finds there -/
def createPcb (w : HeapAnswers) (rip : Nat) (k : Kernel) (args : CreateArgs) (m : Blocks) :
    Option Blocks :=
  let w' := { w with argv := load64 (m 0) Pcb.argv, argc := toInt (load32 (m 0) Pcb.argc) }
  let args' := { args with recycled := childrenOf (m 0) }
  match (createProcessIn w' k args').1, w.alloc 1, w.alloc 2, assignPid k.sched, args.argv with
  | some _, some st, some arr, some pid, some argv =>
    let q := newProcess { args' with stackBase := st } pid (enterChild k.sched pid).1 argv
    some (fillBlocks args q arr (copyArgs w.alloc 3 args.argc.toNat).1 rip m)
  | _, _, _, _, _ => none

/-! ## reading -/

/-- the fields that `reparent_children`, `wait_child`, `wait_all_children`, `schedule`,
`kill_process` and `ps` read: `argv` is the pointer, `cells` the array behind it, and `strings` are
the arguments -/
@[ext]
structure PcbFields where
  pid : Int
  ppid : Int
  state : Nat
  priority : Int
  quantumRemaining : Int
  waitTicks : Int
  ground : Int
  targetByFd : List UInt8
  argc : Int
  argv : Nat
  cells : List Nat
  strings : List (List UInt8)
  childCount : Int
  children : List Int

/-- the string in a block of `n` bytes -/
def readString (m : Nat → UInt8) (n : Nat) : List UInt8 := (peek m n).takeWhile (· ≠ 0)

def readPcb (args : CreateArgs) (b : Blocks) : PcbFields where
  pid := toInt (load32 (b 0) Pcb.pid)
  ppid := toInt (load32 (b 0) Pcb.ppid)
  state := load32 (b 0) Pcb.state
  priority := toInt (load32 (b 0) Pcb.priority)
  quantumRemaining := toInt (load32 (b 0) Pcb.quantumRemaining)
  waitTicks := toInt (load32 (b 0) Pcb.waitTicks)
  ground := toInt (load32 (b 0) Pcb.ground)
  targetByFd := [b 0 Pcb.targetByFd, b 0 (Pcb.targetByFd + 1), b 0 (Pcb.targetByFd + 2)]
  argc := toInt (load32 (b 0) Pcb.argc)
  argv := load64 (b 0) Pcb.argv
  cells := (List.range args.argc.toNat).map fun i => load64 (b 2) (8 * i)
  strings := (List.range args.argc.toNat).map fun i =>
    readString (b (i + 3)) ((argOf args i).length + 1)
  childCount := childCount (b 0)
  children := childrenOf (b 0)

end Tp2So
