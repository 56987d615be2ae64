import Tp2So.Kernel.Process

/-!
# `create_process` with its allocations

`createProcess` assumes that every `mm_alloc` succeeds.  Here each of them may fail, the blocks that
are handed out and the arguments of `mm_free` are written down, and the fields that cleanup reads
before they are set hold what the recycled memory held.

* `HeapAnswers`          what the allocator answers during one call;
* `freeBlocks`           the calls of `mm_free` in `free_process_resources`;
* `createProcessIn`      `create_process`, with its ways to return `NULL` one by one;
* `createProcessIn_eq`   when nothing fails, it is `createProcess`.

After `add_to_process_table` the call returns the process whatever happens; the allocations that
follow belong to `semOpen`, and succeed here as in `publishProcess`.
-/

namespace Tp2So

/-- the answers of the allocator in one call: `alloc n` is the block handed out by the `n`-th
`mm_alloc`, `none` for `NULL`; `word b i` is the word that lies at `b + 8 * i`; `argv` and `argc` are
the words in the fields of the control block when it is handed out -/
structure HeapAnswers where
  alloc : Nat → Option Nat
  word : Nat → Nat → Nat
  argv : Nat
  argc : Int

/-- the blocks that `mm_alloc` has handed out to the call, and the arguments of `mm_free` -/
structure HeapLog where
  own : List Nat
  freed : List Nat

/-- `free_process_resources` on a control block `p` whose argument array is at `argv` and holds
`cells`: the calls of `mm_free`, in order -/
def freeBlocks (argv : Nat) (cells : List Nat) (stackBase p : Nat) : List Nat :=
  (if argv ≠ 0 then cells.filter (· ≠ 0) ++ [argv] else [])
    ++ (if stackBase ≠ 0 then [stackBase] else []) ++ [p]

/-- the words `argv[i], .. argv[i + n)` as the memory holds them -/
def HeapAnswers.cells (w : HeapAnswers) (argv i n : Nat) : List Nat :=
  (List.range n).map fun j => w.word argv (i + j)

/-- the loop that copies `n` arguments, from the allocation `m` on: the strings it has allocated, and
whether that was all of them -/
def copyArgs (alloc : Nat → Option Nat) (m : Nat) : Nat → List Nat × Bool
  | 0 => ([], true)
  | n + 1 =>
    match alloc m with
    | none => ([], false)
    | some x => (x :: (copyArgs alloc (m + 1) n).1, (copyArgs alloc (m + 1) n).2)

/-- `add_to_process_table` refuses the pid -/
def badPid (pid : Int) : Bool := pid < 0 || maxProcesses ≤ pid

/-- `create_process` -/
def createProcessIn (w : HeapAnswers) (k : Kernel) (args : CreateArgs) :
    Option Nat × Kernel × HeapLog :=
  match w.alloc 0 with
  | none => (none, k, ⟨[], []⟩)
  | some p =>
    match w.alloc 1 with
    | none => (none, k, ⟨[p], [p]⟩)
    | some st =>
      match assignPid k.sched with
      | none => (none, k, ⟨[p, st], freeBlocks w.argv (w.cells w.argv 0 w.argc.toNat) st p⟩)
      | some pid =>
        let (ppid, sched) := enterChild k.sched pid
        let k := { k with sched }
        let unset := freeBlocks w.argv (w.cells w.argv 0 args.argc.toNat) st p
        match args.argv with
        | none => (none, k, ⟨[p, st], unset⟩)
        | some argv =>
          if args.argc ≤ 0 then (none, k, ⟨[p, st], unset⟩)
          else
            match w.alloc 2 with
            | none => (none, k, ⟨[p, st], freeBlocks 0 [] st p⟩)
            | some arr =>
              match copyArgs w.alloc 3 args.argc.toNat with
              | (xs, false) =>
                (none, k, ⟨[p, st, arr] ++ xs, freeBlocks arr (xs ++ 0 ::
                  w.cells arr (xs.length + 1) (args.argc.toNat - (xs.length + 1))) st p⟩)
              | (xs, true) =>
                let q := newProcess { args with stackBase := st } pid ppid argv
                if q.rsp < q.stackBase ∨ q.stackBase + processStackSize ≤ q.rsp then
                  (none, k, ⟨[p, st, arr] ++ xs, freeBlocks arr xs st p⟩)
                else if badPid pid then (none, k, ⟨[p, st, arr] ++ xs, freeBlocks arr xs st p⟩)
                else
                  let (a, k) := publishProcess k q
                  (a, k, ⟨[p, st, arr] ++ xs, []⟩)

theorem badPid_eq {s : Sched} {pid : Int} (h : assignPid s = some pid) : badPid pid = false := by
  have hmem : pid ∈ allPids := List.mem_of_find?_eq_some h
  obtain ⟨n, hn, rfl⟩ := List.mem_map.mp hmem
  have hlt := List.mem_range.mp hn
  unfold badPid maxProcesses
  simp only [Int.ofNat_eq_natCast, Bool.or_eq_false_iff, decide_eq_false_iff_not]
  omega

/-- **When no allocation fails**, the process and the kernel are those of `createProcess`. -/
theorem createProcessIn_eq {w : HeapAnswers} {p st arr : Nat} (k : Kernel) (args : CreateArgs)
    (h0 : w.alloc 0 = some p) (h1 : w.alloc 1 = some st) (h2 : w.alloc 2 = some arr)
    (hall : (copyArgs w.alloc 3 args.argc.toNat).2 = true) :
    ((createProcessIn w k args).1, (createProcessIn w k args).2.1)
      = createProcess k { args with stackBase := st } := by
  unfold createProcessIn createProcess
  simp only [h0, h1, h2]
  cases hp : assignPid k.sched with
  | none => rfl
  | some pid =>
    have hpid := badPid_eq hp
    simp only
    cases hargv : args.argv with
    | none => rfl
    | some argv =>
      simp only
      by_cases hc : args.argc ≤ 0
      · rw [if_pos hc, if_pos hc]
      · rw [if_neg hc, if_neg hc]
        cases hcopy : copyArgs w.alloc 3 args.argc.toNat with
        | mk xs b =>
          rw [hcopy] at hall
          obtain rfl : b = true := hall
          simp only [hpid, Bool.false_eq_true, if_false]
          split
          · rfl
          · rfl

end Tp2So
