import Tp2So.Kernel.Pcb
import Tp2So.Ready.Runs

/-!
# A new control block and the memory it is made of

`create_process` sets every field of the control block but `child_count` and `children`.

* `fieldsOf`             what the kernel reads from a control block that has been filled in;
* `readPcb_createPcb`    the fields of a new process: all but the last two come from the call;
* `createPcb_shows`      they are those of the process that `createProcess` publishes;
* `createPcb_agree_iff`  two runs that differ in the memory they are given agree exactly when that
                         memory holds the same children.
-/

set_option linter.unusedVariables false

namespace Tp2So

/-! ## `int` -/

theorem ofInt_mod (x : Int) : ofInt x % 4294967296 = ofInt x := by
  apply Nat.mod_eq_of_lt
  unfold ofInt
  omega

theorem toInt_ofInt {x : Int} (h0 : -2147483648 ≤ x) (h1 : x < 2147483648) : toInt (ofInt x) = x := by
  unfold toInt ofInt
  rw [Int.bmod_def]
  omega

theorem toInt_of_lt {n : Nat} (h : n < 2147483648) : toInt (n % 4294967296) = n := by
  unfold toInt
  rw [Int.bmod_def]
  omega

/-- the fields that the call has set, and the children that lie in the block -/
def fieldsOf (args : CreateArgs) (q : Process) (arr : Nat) (xs : List Nat) (c : Nat → UInt8) :
    PcbFields where
  pid := toInt (ofInt q.pid)
  ppid := toInt (ofInt q.ppid)
  state := ProcessState.ready.code
  priority := q.priority.val
  quantumRemaining := toInt (ofInt q.quantumRemaining)
  waitTicks := toInt (q.waitTicks % 4294967296)
  ground := if q.ground then 1 else 0
  targetByFd := [UInt8.ofNat q.readTarget, UInt8.ofNat q.writeTarget, UInt8.ofNat q.errTarget]
  argc := toInt (ofInt args.argc)
  argv := wrap64 arr
  cells := xs.map wrap64
  strings := (List.range args.argc.toNat).map fun i => (cBytes (argOf args i)).takeWhile (· ≠ 0)
  childCount := childCount c
  children := childrenOf c

theorem fieldsOf_childCount (args : CreateArgs) (q : Process) (arr : Nat) (xs : List Nat)
    (c : Nat → UInt8) : (fieldsOf args q arr xs c).childCount = childCount c := by simp only [fieldsOf]

theorem fieldsOf_children (args : CreateArgs) (q : Process) (arr : Nat) (xs : List Nat)
    (c : Nat → UInt8) : (fieldsOf args q arr xs c).children = childrenOf c := by simp only [fieldsOf]

section
variable {args : CreateArgs} {q : Process} {argc : Int} {arr rip : Nat} {xs : List Nat} {m : Blocks}
  {c : Nat → UInt8}

/-! ## the control block -/

theorem last_beside {a n : Nat} (h : (Store.word Pcb.state 0).beside a n = true) :
    (if q.pid = 0 then [] else [Store.word Pcb.state ProcessState.ready.code]).all (Store.beside a n)
      = true := by
  split
  · rfl
  · rw [List.all_cons, List.all_nil, Bool.and_true]
    exact h

theorem load32_pcb (i : Nat) {a v : Nat} (hi : (fieldStores q argc arr rip)[i]? = some (.word a v))
    (hl : ((fieldStores q argc arr rip).drop (i + 1)).all (Store.beside a 4) = true)
    (ha : (Store.word Pcb.state 0).beside a 4 = true) :
    load32 (runStores c (pcbStores q argc arr rip)) a = v % 4294967296 := by
  unfold pcbStores
  rw [runStores_append, load32_of_beside (last_beside ha)]
  exact load32_runStores i hi hl

theorem byte_pcb (i : Nat) {a v : Nat} (hi : (fieldStores q argc arr rip)[i]? = some (.byte a v))
    (hl : ((fieldStores q argc arr rip).drop (i + 1)).all (Store.beside a 1) = true)
    (ha : (Store.word Pcb.state 0).beside a 1 = true) :
    runStores c (pcbStores q argc arr rip) a = UInt8.ofNat v := by
  unfold pcbStores
  rw [runStores_append, runStores_of_beside (last_beside ha) (Nat.le_refl a) (Nat.lt_succ_self a)]
  exact byte_runStores i hi hl

theorem argv_pcb : load64 (runStores c (pcbStores q argc arr rip)) Pcb.argv = wrap64 arr := by
  unfold pcbStores
  rw [runStores_append,
    load64_congr fun x h1 h2 => runStores_of_beside (last_beside (n := 8) rfl) h1 h2]
  exact load64_runStores 12 rfl rfl

/-- the state is READY, whether it is set once or twice -/
theorem state_pcb (hst : q.state = .ready) :
    load32 (runStores c (pcbStores q argc arr rip)) Pcb.state = ProcessState.ready.code := by
  unfold pcbStores
  rw [runStores_append]
  split
  · have h := load32_runStores (m := c) (l := fieldStores q argc arr rip) 3 rfl rfl
    rw [hst] at h
    exact h
  · exact load32_store32

theorem pcb_untouched {x : Nat} (h1 : Pcb.children ≤ x) (h2 : x < Pcb.children + 132) :
    runStores c (pcbStores q argc arr rip) x = c x := by
  have hall : (fieldStores q argc arr rip).all (Store.beside Pcb.children 132) = true := rfl
  unfold pcbStores
  rw [runStores_append, runStores_of_beside (last_beside (n := 132) rfl) h1 h2]
  exact runStores_of_beside hall h1 h2

theorem load32_child {i : Nat} (hi : i ≤ maxChildren) :
    load32 (runStores c (pcbStores q argc arr rip)) (Pcb.children + 4 * i)
      = load32 c (Pcb.children + 4 * i) := by
  apply load32_congr
  intro x h1 h2
  have hi' : i ≤ 32 := hi
  exact pcb_untouched (by omega) (by omega)

theorem childCount_pcb : childCount (runStores c (pcbStores q argc arr rip)) = childCount c :=
  congrArg toInt (load32_child (i := 32) (Nat.le_refl _))

theorem childrenOf_pcb : childrenOf (runStores c (pcbStores q argc arr rip)) = childrenOf c := by
  unfold childrenOf
  rw [childCount_pcb]
  apply List.map_congr_left
  intro i hi
  have hlt := List.mem_range.mp hi
  rw [load32_child (Nat.le_of_lt (Nat.lt_of_lt_of_le hlt (Nat.min_le_right ..)))]

/-! ## what is read back -/

theorem cells_fill (hlen : xs.length = args.argc.toNat) (c : Nat → UInt8) :
    (List.range args.argc.toNat).map (fun i => load64 (runStores c (quads 0 xs)) (8 * i))
      = xs.map wrap64 := by
  apply List.ext_getElem?
  intro i
  rw [List.getElem?_map, List.getElem?_map]
  by_cases hi : i < xs.length
  · have hget := List.getElem?_eq_getElem hi
    have hload := load64_quads (m := c) (i := 0) xs hget
    rw [Nat.zero_add] at hload
    rw [List.getElem?_range (by omega), hget]
    exact congrArg some hload
  · rw [List.getElem?_eq_none (by rw [List.length_range]; omega), List.getElem?_eq_none (by omega)]
    rfl

theorem readString_fill (c : Nat → UInt8) (cs : List Nat) :
    readString (runStores c (chars 0 cs)) (cs.length + 1) = (cBytes cs).takeWhile (· ≠ 0) := by
  have hlen : (cBytes cs).length = cs.length + 1 := by
    unfold cBytes
    rw [List.length_append, List.length_map]
    rfl
  unfold readString
  rw [← hlen, peek_of_holds (holds_chars cs)]

/-- **The control block that `create_process` has filled**: every field is what the call has stored
there, but for the children. -/
theorem readPcb_fill (hst : q.state = .ready) (hlen : xs.length = args.argc.toNat) :
    readPcb args (fillBlocks args q arr xs rip m) = fieldsOf args q arr xs (m 0) := by
  have hpcb : fillBlocks args q arr xs rip m 0 = runStores (m 0) (pcbStores q args.argc arr rip) := rfl
  have harr : fillBlocks args q arr xs rip m 2 = runStores (m 2) (quads 0 xs) := rfl
  have hstrings : (List.range args.argc.toNat).map (fun i =>
      readString (fillBlocks args q arr xs rip m (i + 3)) ((argOf args i).length + 1))
      = (List.range args.argc.toNat).map fun i => (cBytes (argOf args i)).takeWhile (· ≠ 0) := by
    apply List.map_congr_left
    intro i hi
    have hfill : fillBlocks args q arr xs rip m (i + 3)
        = runStores (m (i + 3)) (chars 0 (argOf args i)) := if_pos (List.mem_range.mp hi)
    rw [hfill]
    exact readString_fill ..
  have htargets : [fillBlocks args q arr xs rip m 0 Pcb.targetByFd,
      fillBlocks args q arr xs rip m 0 (Pcb.targetByFd + 1),
      fillBlocks args q arr xs rip m 0 (Pcb.targetByFd + 2)]
      = [UInt8.ofNat q.readTarget, UInt8.ofNat q.writeTarget, UInt8.ofNat q.errTarget] := by
    rw [hpcb, byte_pcb 14 rfl rfl rfl, byte_pcb 15 rfl rfl rfl, byte_pcb 16 rfl rfl rfl]
  have hprio : toInt (q.priority.val % 4294967296) = q.priority.val := toInt_of_lt (by omega)
  have hground : toInt ((if q.ground then 1 else 0) % 4294967296) = if q.ground then 1 else 0 := by
    cases q.ground with
    | false => rfl
    | true => rfl
  unfold readPcb fieldsOf
  rw [htargets, hstrings, harr, cells_fill hlen, hpcb, load32_pcb 1 rfl rfl rfl, load32_pcb 2 rfl rfl rfl,
    state_pcb hst, load32_pcb 7 rfl rfl rfl, load32_pcb 9 rfl rfl rfl, load32_pcb 10 rfl rfl rfl,
    load32_pcb 5 rfl rfl rfl, load32_pcb 11 rfl rfl rfl, argv_pcb, childCount_pcb, childrenOf_pcb,
    ofInt_mod, ofInt_mod, ofInt_mod, ofInt_mod, hprio, hground]

end

/-! ## `create_process` -/

section
variable {w : HeapAnswers} {k : Kernel} {args : CreateArgs} {rip a : Nat} {m b : Blocks}

theorem copyArgs_length {alloc : Nat → Option Nat} {n m : Nat} (h : (copyArgs alloc m n).2 = true) :
    (copyArgs alloc m n).1.length = n := by
  induction n generalizing m with
  | zero => rfl
  | succ n ih =>
    unfold copyArgs at h ⊢
    cases hm : alloc m with
    | none =>
      rw [hm] at h
      exact absurd h (by simp)
    | some x =>
      rw [hm] at h
      exact congrArg (· + 1) (ih h)

/-- a call that returns a process has copied all arguments -/
theorem copyArgs_of_created (h : (createProcessIn w k args).1 = some a) :
    (copyArgs w.alloc 3 args.argc.toNat).2 = true := by
  cases hc : copyArgs w.alloc 3 args.argc.toNat with
  | mk xs all =>
    cases all with
    | true => rfl
    | false =>
      unfold createProcessIn at h
      simp only [hc] at h
      split at h
      · exact absurd h (by simp)
      · split at h
        · exact absurd h (by simp)
        · split at h
          · exact absurd h (by simp)
          · split at h
            · exact absurd h (by simp)
            · split at h
              · exact absurd h (by simp)
              · split at h
                · exact absurd h (by simp)
                · exact absurd h (by simp)

/-- the process that the call makes, with the children it finds in the control block -/
theorem readPcb_createPcb (h : createPcb w rip k args m = some b) :
    ∃ st arr pid argv, w.alloc 1 = some st ∧ w.alloc 2 = some arr ∧ assignPid k.sched = some pid ∧
      args.argv = some argv ∧
      readPcb args b = fieldsOf args
        (newProcess { args with stackBase := st, recycled := childrenOf (m 0) } pid
          (enterChild k.sched pid).1 argv)
        arr (copyArgs w.alloc 3 args.argc.toNat).1 (m 0) := by
  unfold createPcb at h
  simp only at h
  split at h
  · rename_i a st arr pid argv hmade hst harr hpid hargv
    obtain rfl := Option.some.inj h
    have hall := copyArgs_of_created hmade
    exact ⟨st, arr, pid, argv, hst, harr, hpid, hargv, readPcb_fill rfl (copyArgs_length hall)⟩
  · exact absurd h (by simp)

/-- the fields are those of the process `q` -/
structure PcbFields.Shows (f : PcbFields) (q : Process) : Prop where
  pid : f.pid = q.pid
  ppid : f.ppid = q.ppid
  state : f.state = q.state.code
  priority : f.priority = q.priority.val
  quantumRemaining : f.quantumRemaining = q.quantumRemaining
  waitTicks : f.waitTicks = q.waitTicks
  ground : f.ground = if q.ground then 1 else 0
  targetByFd : f.targetByFd
    = [UInt8.ofNat q.readTarget, UInt8.ofNat q.writeTarget, UInt8.ofNat q.errTarget]
  children : f.children = q.children

/-- the blocks hold the control block that `createProcess` publishes -/
theorem createPcb_shows (h : createPcb w rip k args m = some b)
    (hk : ∀ pid, -2147483648 ≤ (enterChild k.sched pid).1 ∧ (enterChild k.sched pid).1 < 2147483648) :
    ∃ st pid argv, w.alloc 1 = some st ∧ assignPid k.sched = some pid ∧ args.argv = some argv ∧
      (readPcb args b).Shows (newProcess { args with stackBase := st, recycled := childrenOf (m 0) }
        pid (enterChild k.sched pid).1 argv) := by
  obtain ⟨st, arr, pid, argv, hst, -, hpid, hargv, hb⟩ := readPcb_createPcb h
  obtain ⟨h0, h1, -⟩ := Sched.assignPid_spec hpid
  have h1' : pid < 64 := h1
  have hown : toInt (ofInt pid) = pid := toInt_ofInt (by omega) (by omega)
  have hparent := toInt_ofInt (hk pid).1 (hk pid).2
  have hquantum : toInt (ofInt defaultQuantum) = defaultQuantum := toInt_ofInt (by decide) (by decide)
  have hticks : toInt (0 % 4294967296) = (0 : Nat) := toInt_of_lt (by omega)
  refine ⟨st, pid, argv, hst, hpid, hargv, ?_⟩
  rw [hb]
  simp only [fieldsOf, newProcess, hown, hparent, hquantum, hticks]
  exact ⟨rfl, rfl, rfl, rfl, rfl, rfl, rfl, rfl, rfl⟩

/-- **Two runs of one call**, on memory that holds different things: the new processes agree in every
field the kernel reads if and only if the two control blocks came with the same `child_count` and the
same children. -/
theorem createPcb_agree_iff {m' b' : Blocks} (h : createPcb w rip k args m = some b)
    (h' : createPcb w rip k args m' = some b') :
    readPcb args b = readPcb args b' ↔
      childCount (m 0) = childCount (m' 0) ∧ childrenOf (m 0) = childrenOf (m' 0) := by
  obtain ⟨st, arr, pid, argv, hst, harr, hpid, hargv, hb⟩ := readPcb_createPcb h
  obtain ⟨st', arr', pid', argv', hst', harr', hpid', hargv', hb'⟩ := readPcb_createPcb h'
  obtain rfl := Option.some.inj (hst.symm.trans hst')
  obtain rfl := Option.some.inj (harr.symm.trans harr')
  obtain rfl := Option.some.inj (hpid.symm.trans hpid')
  obtain rfl := Option.some.inj (hargv.symm.trans hargv')
  rw [hb, hb']
  constructor
  · intro he
    have hcount := congrArg PcbFields.childCount he
    have hchildren := congrArg PcbFields.children he
    rw [fieldsOf_childCount, fieldsOf_childCount] at hcount
    rw [fieldsOf_children, fieldsOf_children] at hchildren
    exact ⟨hcount, hchildren⟩
  · rintro ⟨hcount, hchildren⟩
    unfold fieldsOf
    rw [hcount, hchildren]

end

/-- an allocator that hands out one page after the other -/
def pages : HeapAnswers where
  alloc := fun n => some (4096 * (n + 1))
  word := fun _ _ => 0
  argv := 0
  argc := 0

/-- memory of a process that has had one child, the process `7` -/
def oneChild : Blocks := fun _ x => if x = Pcb.childCount then 1 else if x = Pcb.children then 7 else 0

/-- memory that holds the same children, and other bytes elsewhere -/
def otherBytes : Blocks := fun n x =>
  if n = 0 ∧ Pcb.children ≤ x then oneChild n x else 255

/-- the first process after `init_scheduler`, in two memories that have the same children -/
theorem createPcb_agree_iff_init : ∃ b b',
    createPcb pages 0 (initScheduler 0 []) (plainArgs ['i'] 0) oneChild = some b ∧
    createPcb pages 0 (initScheduler 0 []) (plainArgs ['i'] 0) otherBytes = some b' ∧
    readPcb (plainArgs ['i'] 0) b = readPcb (plainArgs ['i'] 0) b' := by
  have hrun : (createPcb pages 0 (initScheduler 0 []) (plainArgs ['i'] 0) oneChild).isSome = true := by
    decide +kernel
  have hrun' : (createPcb pages 0 (initScheduler 0 []) (plainArgs ['i'] 0) otherBytes).isSome
      = true := by
    decide +kernel
  obtain ⟨b, hb⟩ := Option.isSome_iff_exists.mp hrun
  obtain ⟨b', hb'⟩ := Option.isSome_iff_exists.mp hrun'
  refine ⟨b, b', hb, hb', (createPcb_agree_iff hb hb').mpr ⟨?_, ?_⟩⟩
  · decide +kernel
  · decide +kernel

/-- in cleared memory the new process has no child, in recycled memory it has the process `7` -/
theorem createPcb_disagree : ∃ b b',
    createPcb pages 0 (initScheduler 0 []) (plainArgs ['i'] 0) (fun _ _ => 0) = some b ∧
    createPcb pages 0 (initScheduler 0 []) (plainArgs ['i'] 0) oneChild = some b' ∧
    (readPcb (plainArgs ['i'] 0) b).children = [] ∧
    (readPcb (plainArgs ['i'] 0) b').children = [7] ∧
    readPcb (plainArgs ['i'] 0) b ≠ readPcb (plainArgs ['i'] 0) b' := by
  have hrun : (createPcb pages 0 (initScheduler 0 []) (plainArgs ['i'] 0) fun _ _ => 0).isSome
      = true := by
    decide +kernel
  have hrun' : (createPcb pages 0 (initScheduler 0 []) (plainArgs ['i'] 0) oneChild).isSome
      = true := by
    decide +kernel
  obtain ⟨b, hb⟩ := Option.isSome_iff_exists.mp hrun
  obtain ⟨b', hb'⟩ := Option.isSome_iff_exists.mp hrun'
  obtain ⟨_, _, _, _, -, -, -, -, hf⟩ := readPcb_createPcb hb
  obtain ⟨_, _, _, _, -, -, -, -, hf'⟩ := readPcb_createPcb hb'
  have hnone : (readPcb (plainArgs ['i'] 0) b).children = [] := by
    rw [hf]
    show childrenOf (fun _ => 0) = []
    decide +kernel
  have hone : (readPcb (plainArgs ['i'] 0) b').children = [7] := by
    rw [hf']
    show childrenOf (oneChild 0) = [7]
    decide +kernel
  refine ⟨b, b', hb, hb', hnone, hone, fun he => ?_⟩
  rw [he, hone] at hnone
  exact absurd hnone (by simp)

end Tp2So
