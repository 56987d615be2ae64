import Tp2So.Kernel.Create
import Tp2So.Ready.Runs

/-!
# A `create_process` that fails

What a failed call leaves behind: the entry in the parent's array of children, which is made before
most of the checks, and calls of `mm_free` on what the recycled memory held in fields and cells that
were not set yet.

* `AllOrNothing`        a call that returns `NULL` has changed nothing and freed its own blocks only;
* `spotless`            the inputs on which this is so;
* `allOrNothing_iff`    it is so on these inputs exactly.
-/

set_option linter.unusedVariables false

namespace Tp2So

/-- the contract of `mm_alloc`: a block that is handed out is not `NULL`, not in use and new -/
structure HeapAnswers.Fresh (w : HeapAnswers) (live : List Nat) : Prop where
  nonzero : ∀ n x, w.alloc n = some x → x ≠ 0
  inj : ∀ m n x, w.alloc m = some x → w.alloc n = some x → m = n
  new : ∀ n x, w.alloc n = some x → x ∉ live

/-- each call of `mm_free` gives back a block that the call owns at that time -/
def freesOwn : List Nat → List Nat → Prop
  | _, [] => True
  | own, x :: xs => x ∈ own ∧ freesOwn (own.erase x) xs

/-- the block `x` is in use after the call -/
def HeapLog.inUse (log : HeapLog) (live : List Nat) (x : Nat) : Prop :=
  (x ∈ live ∨ x ∈ log.own) ∧ x ∉ log.freed

/-- process table, children, ready queues and semaphores are as before -/
structure Untouched (k k' : Kernel) : Prop where
  table : k'.sched.table = k.sched.table
  children : ∀ a, (k'.sched.heap a).map Process.children = (k.sched.heap a).map Process.children
  ready : k'.sched.ready = k.sched.ready
  sems : k'.sems = k.sems

/-- a call that started at `k` and returned `NULL` has left no trace -/
def Traceless (live : List Nat) (k : Kernel) (r : Option Nat × Kernel × HeapLog) : Prop :=
  r.1 = none → Untouched k r.2.1 ∧ (∀ x, r.2.2.inUse live x ↔ x ∈ live) ∧
    freesOwn r.2.2.own r.2.2.freed

def AllOrNothing (w : HeapAnswers) (live : List Nat) (k : Kernel) (args : CreateArgs) : Prop :=
  Traceless live k (createProcessIn w k args)

/-- no entry is made for the new process: it is the first one, or nobody runs, or the parent's array
is full -/
def noEntry (s : Sched) (pid : Int) : Bool :=
  pid == 0 || (s.running.bind s.heap).all fun p => maxChildren ≤ p.children.length

/-- the inputs on which a failure leaves no trace -/
def spotless (w : HeapAnswers) (k : Kernel) (args : CreateArgs) : Bool :=
  match w.alloc 0, w.alloc 1 with
  | some _, some _ =>
    match assignPid k.sched with
    | none => w.argv == 0
    | some pid =>
      if args.argv.isNone || args.argc ≤ 0 then noEntry k.sched pid && w.argv == 0
      else
        match w.alloc 2 with
        | none => noEntry k.sched pid
        | some arr =>
          match copyArgs w.alloc 3 args.argc.toNat with
          | (xs, false) => noEntry k.sched pid &&
              (w.cells arr (xs.length + 1) (args.argc.toNat - (xs.length + 1))).all (· == 0)
          | (_, true) => true
  | _, _ => true

section
variable {w : HeapAnswers} {live own xs ys : List Nat} {k k' : Kernel} {args : CreateArgs}
  {p st arr x m n : Nat} {pid : Int}

/-! ## the blocks -/

theorem freesOwn_length (h : freesOwn own xs) : xs.length ≤ own.length := by
  induction xs generalizing own with
  | nil => exact Nat.zero_le _
  | cons x xs ih =>
    obtain ⟨hx, h⟩ := h
    have hle := ih h
    rw [List.length_erase_of_mem hx] at hle
    have hpos : 0 < own.length := List.length_pos_of_mem hx
    rw [List.length_cons]
    omega

theorem freesOwn_of_perm (h : xs.Perm own) : freesOwn own xs := by
  induction xs generalizing own with
  | nil => trivial
  | cons x xs ih =>
    have hx : x ∈ own := h.mem_iff.mp List.mem_cons_self
    refine ⟨hx, ih ?_⟩
    have he := h.erase x
    rw [List.erase_cons_head] at he
    exact he

theorem clean_of_perm (h : xs.Perm own) (hnew : ∀ x ∈ own, x ∉ live) :
    (∀ x, HeapLog.inUse ⟨own, xs⟩ live x ↔ x ∈ live) ∧ freesOwn own xs := by
  refine ⟨fun x => ⟨fun hx => ?_, fun hx => ?_⟩, freesOwn_of_perm h⟩
  · obtain ⟨hl | ho, hn⟩ := hx
    · exact hl
    · exact absurd (h.mem_iff.mpr ho) hn
  · exact ⟨Or.inl hx, fun hf => hnew x (h.mem_iff.mp hf) hx⟩

theorem copyArgs_mem (hx : x ∈ (copyArgs w.alloc m n).1) : ∃ i, m ≤ i ∧ w.alloc i = some x := by
  induction n generalizing m with
  | zero => exact absurd hx List.not_mem_nil
  | succ n ih =>
    unfold copyArgs at hx
    cases ha : w.alloc m with
    | none =>
      rw [ha] at hx
      exact absurd hx List.not_mem_nil
    | some y =>
      rw [ha] at hx
      rcases List.mem_cons.mp hx with rfl | hx
      · exact ⟨m, Nat.le_refl m, ha⟩
      · obtain ⟨i, hi, hix⟩ := ih hx
        exact ⟨i, by omega, hix⟩

theorem HeapAnswers.Fresh.all_new (hw : w.Fresh live) (h : ∀ x ∈ own, ∃ i, w.alloc i = some x) :
    ∀ x ∈ own, x ∉ live := by
  intro x hx
  obtain ⟨i, hi⟩ := h x hx
  exact hw.new i x hi

theorem freeBlocks_set (harr : arr ≠ 0) (hst : st ≠ 0) (hxs : ∀ x ∈ xs, x ≠ 0) :
    freeBlocks arr (xs ++ ys) st p = xs ++ ys.filter (· ≠ 0) ++ [arr, st, p] := by
  unfold freeBlocks
  have hfilter : xs.filter (· ≠ 0) = xs := List.filter_eq_self.mpr fun x hx => by simpa using hxs x hx
  rw [if_pos harr, if_pos hst, List.filter_append, hfilter]
  simp

theorem freeBlocks_null (cells : List Nat) (hst : st ≠ 0) : freeBlocks 0 cells st p = [st, p] := by
  unfold freeBlocks
  rw [if_neg (by simp), if_pos hst]
  rfl

/-- a field that was never set is taken for the argument array -/
theorem freeBlocks_stray {argv : Nat} (hargv : argv ≠ 0) (cells : List Nat) (hst : st ≠ 0) :
    ¬ freesOwn [p, st] (freeBlocks argv cells st p) := by
  intro h
  have hlen := freesOwn_length h
  unfold freeBlocks at hlen
  rw [if_pos hargv, if_pos hst] at hlen
  simp at hlen

/-! ## the parent's array -/

theorem untouched_refl (k : Kernel) : Untouched k k := ⟨rfl, fun _ => rfl, rfl, rfl⟩

theorem untouched_enterChild (k : Kernel) (pid : Int) :
    Untouched k { k with sched := (enterChild k.sched pid).2 } ↔ noEntry k.sched pid = true := by
  unfold noEntry enterChild
  by_cases h0 : pid = 0
  · rw [if_pos h0]
    exact ⟨fun _ => by simp [h0], fun _ => untouched_refl k⟩
  · rw [if_neg h0, beq_false_of_ne h0, Bool.false_or]
    cases hr : k.sched.running with
    | none => exact ⟨fun _ => rfl, fun _ => untouched_refl k⟩
    | some par =>
      simp only [Option.bind_some]
      cases hp : k.sched.heap par with
      | none => exact ⟨fun _ => rfl, fun _ => untouched_refl k⟩
      | some q =>
        simp only [Option.all_some]
        rw [decide_eq_true_iff]
        constructor
        · intro h
          by_contra hlt
          have hc := h.children par
          simp only [Sched.modify_heap, heapMod_self, hp, Option.map_some] at hc
          rw [if_pos (by omega)] at hc
          have hlen := congrArg List.length (Option.some.inj hc)
          rw [List.length_append, List.length_singleton] at hlen
          omega
        · intro hle
          refine ⟨rfl, fun a => ?_, rfl, rfl⟩
          simp only [Sched.modify_heap]
          by_cases e : a = par
          · rw [e, heapMod_self, hp, Option.map_some, Option.map_some, Option.map_some,
              if_neg (by omega)]
          · rw [heapMod_of_ne _ _ e]

/-! ## the exits -/

theorem traceless_some {a : Nat} {log : HeapLog} : Traceless live k (some a, k', log) :=
  fun h => absurd h (by simp)

theorem exit_clean (h : xs.Perm own) (hnew : ∀ x ∈ own, x ∉ live) :
    Traceless live k (none, k', ⟨own, xs⟩) ↔ Untouched k k' := by
  obtain ⟨h1, h2⟩ := clean_of_perm h hnew
  exact ⟨fun ht => (ht rfl).1, fun hu _ => ⟨hu, h1, h2⟩⟩

theorem exit_stray (h : ¬ freesOwn own xs) : ¬ Traceless live k (none, k', ⟨own, xs⟩) :=
  fun ht => h (ht rfl).2.2

theorem exit_unset {argv : Nat} (cells : List Nat) (hst : st ≠ 0) (hnew : ∀ x ∈ [p, st], x ∉ live) :
    Traceless live k (none, k', ⟨[p, st], freeBlocks argv cells st p⟩) ↔
      Untouched k k' ∧ argv = 0 := by
  by_cases hargv : argv = 0
  · subst hargv
    rw [freeBlocks_null cells hst]
    exact (exit_clean (List.Perm.swap p st []) hnew).trans ⟨fun h => ⟨h, rfl⟩, fun h => h.1⟩
  · exact ⟨fun ht => absurd ht (exit_stray (freeBlocks_stray hargv cells hst)),
      fun h => absurd h.2 hargv⟩

/-- cleanup after a string could not be copied: the cells behind it are freed too -/
theorem exit_copy (harr : arr ≠ 0) (hst : st ≠ 0) (hxs : ∀ x ∈ xs, x ≠ 0)
    (hnew : ∀ x ∈ [p, st, arr] ++ xs, x ∉ live) (ys : List Nat) :
    Traceless live k (none, k', ⟨[p, st, arr] ++ xs, freeBlocks arr (xs ++ 0 :: ys) st p⟩) ↔
      Untouched k k' ∧ ys.all (· == 0) = true := by
  rw [freeBlocks_set harr hst hxs, List.filter_cons_of_neg (by simp)]
  by_cases hys : ys.all (· == 0) = true
  · have hnil : ys.filter (· ≠ 0) = [] := by
      refine List.filter_eq_nil_iff.mpr fun y hy => ?_
      have := List.all_eq_true.mp hys y hy
      simpa using this
    rw [hnil, List.append_nil]
    have hperm : (xs ++ [arr, st, p]).Perm ([p, st, arr] ++ xs) :=
      List.perm_append_comm.trans (List.Perm.append_right xs (List.reverse_perm [p, st, arr]))
    exact (exit_clean hperm hnew).trans ⟨fun h => ⟨h, hys⟩, fun h => h.1⟩
  · refine ⟨fun ht => absurd ht (exit_stray fun hf => ?_), fun h => absurd h.2 hys⟩
    have hlen := freesOwn_length hf
    have hpos : 0 < (ys.filter (· ≠ 0)).length := by
      refine List.length_pos_iff.mpr fun hnil => hys (List.all_eq_true.mpr fun y hy => ?_)
      have := List.filter_eq_nil_iff.mp hnil y hy
      simpa using this
    simp only [List.length_append, List.length_cons, List.length_nil] at hlen
    omega

theorem newProcess_inside (args : CreateArgs) (pid ppid : Int) (argv : List (List Char)) :
    ¬ ((newProcess args pid ppid argv).rsp < (newProcess args pid ppid argv).stackBase ∨
      (newProcess args pid ppid argv).stackBase + processStackSize
        ≤ (newProcess args pid ppid argv).rsp) := by
  show ¬ (stackInit (args.stackBase + processStackSize) < args.stackBase ∨
    args.stackBase + processStackSize ≤ stackInit (args.stackBase + processStackSize))
  unfold stackInit processStackSize
  omega

/-- **`create_process` is all or nothing** on the spotless inputs and on no others. -/
theorem allOrNothing_iff (hw : w.Fresh live) (k : Kernel) (args : CreateArgs) :
    AllOrNothing w live k args ↔ spotless w k args = true := by
  unfold AllOrNothing createProcessIn spotless
  cases h0 : w.alloc 0 with
  | none => exact ⟨fun _ => rfl, fun _ => (exit_clean (.refl []) (by simp)).mpr (untouched_refl k)⟩
  | some p =>
    cases h1 : w.alloc 1 with
    | none =>
      have hnew : ∀ x ∈ [p], x ∉ live :=
        hw.all_new (List.forall_mem_singleton.mpr ⟨0, h0⟩)
      exact ⟨fun _ => rfl, fun _ => (exit_clean (.refl [p]) hnew).mpr (untouched_refl k)⟩
    | some st =>
      have hst := hw.nonzero 1 st h1
      have hown : ∀ x ∈ [p, st], ∃ i, w.alloc i = some x :=
        List.forall_mem_cons.mpr ⟨⟨0, h0⟩, List.forall_mem_singleton.mpr ⟨1, h1⟩⟩
      have hnew := hw.all_new hown
      simp only
      cases hp : assignPid k.sched with
      | none =>
        simp only [beq_iff_eq]
        exact (exit_unset _ hst hnew).trans ⟨fun h => h.2, fun h => ⟨untouched_refl k, h⟩⟩
      | some pid =>
        have hbad := badPid_eq hp
        have hentry := untouched_enterChild k pid
        simp only
        by_cases hargs : (args.argv.isNone || decide (args.argc ≤ 0)) = true
        · rw [if_pos hargs, Bool.and_eq_true, beq_iff_eq, ← hentry]
          cases hargv : args.argv with
          | none => exact exit_unset _ hst hnew
          | some argv =>
            simp only
            have hc : args.argc ≤ 0 := by
              rw [hargv] at hargs
              simpa using hargs
            rw [if_pos hc]
            exact exit_unset _ hst hnew
        · rw [if_neg hargs]
          have hsome : ∃ argv, args.argv = some argv := by
            cases hargv : args.argv with
            | none => exact absurd (by rw [hargv]; rfl) hargs
            | some argv => exact ⟨argv, rfl⟩
          obtain ⟨argv, hargv⟩ := hsome
          have hc : ¬ args.argc ≤ 0 := fun hle => hargs (by simp [hle])
          simp only [hargv]
          rw [if_neg hc]
          cases h2 : w.alloc 2 with
          | none =>
            simp only
            rw [freeBlocks_null [] hst, ← hentry]
            exact exit_clean (List.Perm.swap p st []) hnew
          | some arr =>
            have harr := hw.nonzero 2 arr h2
            simp only
            have hcopied : ∀ x ∈ (copyArgs w.alloc 3 args.argc.toNat).1, ∃ i, w.alloc i = some x := by
              intro x hx
              obtain ⟨i, -, hi⟩ := copyArgs_mem hx
              exact ⟨i, hi⟩
            cases hcopy : copyArgs w.alloc 3 args.argc.toNat with
            | mk xs b =>
              rw [hcopy] at hcopied
              cases b with
              | false =>
                simp only
                rw [Bool.and_eq_true, ← hentry]
                refine exit_copy harr hst (fun x hx => ?_) (hw.all_new ?_) _
                · obtain ⟨i, hi⟩ := hcopied x hx
                  exact hw.nonzero i x hi
                · rw [List.forall_mem_append]
                  refine ⟨?_, hcopied⟩
                  exact List.forall_mem_cons.mpr ⟨⟨0, h0⟩, List.forall_mem_cons.mpr ⟨⟨1, h1⟩,
                    List.forall_mem_singleton.mpr ⟨2, h2⟩⟩⟩
              | true =>
                simp only [hbad, Bool.false_eq_true, if_false]
                rw [if_neg (newProcess_inside _ _ _ _)]
                exact ⟨fun _ => trivial, fun _ => traceless_some⟩

/-- an allocator that fails in its `bad`-th answer, over memory whose words are zero but for the
recycled field `argv` -/
def failsAt (bad argv : Nat) : HeapAnswers where
  alloc n := if n = bad then none else some (n + 100)
  word _ _ := 0
  argv := argv
  argc := 0

theorem fresh_failsAt (bad argv : Nat) : (failsAt bad argv).Fresh [] := by
  have hval : ∀ n x, (failsAt bad argv).alloc n = some x → x = n + 100 := by
    intro n x h
    have h' : (if n = bad then none else some (n + 100)) = some x := h
    split at h'
    · exact absurd h' (by simp)
    · exact (Option.some.inj h').symm
  refine ⟨fun n x h => ?_, fun m n x hm hn => ?_, fun n x h => List.not_mem_nil⟩
  · have := hval n x h
    omega
  · have h1 := hval m x hm
    have h2 := hval n x hn
    omega

/-- the first process of all, whose second argument cannot be copied -/
theorem allOrNothing_iff_second :
    (createProcessIn (failsAt 4 7) emptyKernel
      { plainArgs ['a'] 0 with argc := 2, argv := some [['a'], ['b']] }).1 = none ∧
    AllOrNothing (failsAt 4 7) [] emptyKernel
      { plainArgs ['a'] 0 with argc := 2, argv := some [['a'], ['b']] } :=
  ⟨by decide +kernel, (allOrNothing_iff (fresh_failsAt 4 7) _ _).mpr (by decide +kernel)⟩

/-- a call with no arguments: `NULL` is returned, the running process has the child `1`, and the word
that lay in the field `argv` has been freed -/
theorem allOrNothing_fails :
    (createProcessIn (failsAt 9 4096) (initScheduler 0 [])
      { plainArgs ['a'] 0 with argc := 0 }).1 = none ∧
    ((createProcessIn (failsAt 9 4096) (initScheduler 0 [])
      { plainArgs ['a'] 0 with argc := 0 }).2.1.sched.heap 0).map Process.children = some [1] ∧
    (createProcessIn (failsAt 9 4096) (initScheduler 0 [])
      { plainArgs ['a'] 0 with argc := 0 }).2.2.freed = [4096, 101, 100] ∧
    ¬ AllOrNothing (failsAt 9 4096) [] (initScheduler 0 []) { plainArgs ['a'] 0 with argc := 0 } := by
  have hnull : (createProcessIn (failsAt 9 4096) (initScheduler 0 [])
      { plainArgs ['a'] 0 with argc := 0 }).1 = none := by decide +kernel
  have hkids : ((createProcessIn (failsAt 9 4096) (initScheduler 0 [])
      { plainArgs ['a'] 0 with argc := 0 }).2.1.sched.heap 0).map Process.children = some [1] := by
    decide +kernel
  refine ⟨hnull, hkids, by decide +kernel, fun h => ?_⟩
  have hsame := (h hnull).1.children 0
  rw [hkids] at hsame
  exact absurd hsame (by decide +kernel)

end

end Tp2So
