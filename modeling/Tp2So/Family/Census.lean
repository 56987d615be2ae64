import Tp2So.Kernel.State

/-!
# The census

What the process table and the heap say about who exists: for every pointer the pid of its control
block and whether it is TERMINATED, and for every pid the pointer in its slot.

* `born`, `dies`, `drop`, `collect`   birth, death, release and collection;
* `Tidy`      every slot holds an existing process with its own pid;
* `Listed`    every live process is in the slot of its pid;
* `Placed`    every process, live or not, is in the slot of its pid;
* `Free`      a slot that `assign_pid` may hand out;
* `foldl_turn`, `collectIn_eq`        a collection goes through the slots one by one.
-/

set_option linter.unusedVariables false

namespace Tp2So

@[ext]
structure Census where
  cell : Nat → Option (Int × Bool)
  table : Int → Option Nat
  next : Nat

namespace Census

/-- a new process in the slot `pid` -/
def born (c : Census) (pid : Int) : Census where
  cell := Function.update c.cell c.next (some (pid, false))
  table := Function.update c.table pid (some c.next)
  next := c.next + 1

/-- the process `a` terminates and keeps its slot -/
def dies (c : Census) (a : Nat) : Census :=
  { c with cell := Function.update c.cell a ((c.cell a).map fun v => (v.1, true)) }

/-- the process `a` of the slot `pid` is freed -/
def drop (c : Census) (a : Nat) (pid : Int) : Census :=
  { c with cell := Function.update c.cell a none, table := Function.update c.table pid none }

/-- the TERMINATED processes that are in their slot are freed -/
def collect (c : Census) : Census :=
  { c with
    cell := fun a => (c.cell a).filter fun v => !(v.2 && c.table v.1 == some a)
    table := fun pid => (c.table pid).filter fun a => !(c.cell a).any Prod.snd }

/-- every slot holds an existing process with its own pid -/
def Tidy (c : Census) : Prop := ∀ pid a, c.table pid = some a → ∃ d, c.cell a = some (pid, d)

/-! ## a collection, slot by slot -/

/-- the turn of the slot `pid` -/
def turn (c : Census) (pid : Int) : Census :=
  match c.table pid with
  | none => c
  | some a => if (c.cell a).any Prod.snd = true then c.drop a pid else c

/-- `collect` for the slots of `l` only -/
def collectIn (l : List Int) (c : Census) : Census :=
  { c with
    cell := fun a => (c.cell a).filter fun v => !(decide (v.1 ∈ l) && (v.2 && c.table v.1 == some a))
    table := fun pid => (c.table pid).filter fun a => !(decide (pid ∈ l) && (c.cell a).any Prod.snd) }

section
variable {c : Census} {a b : Nat} {pid : Int} {l : List Int}

theorem Tidy.drop (h : c.Tidy) (ht : c.table pid = some a) : (c.drop a pid).Tidy := by
  intro q b hq
  have hne : q ≠ pid := by
    rintro rfl
    exact absurd ((Function.update_self ..).symm.trans hq) (by simp)
  have hq' : c.table q = some b := (Function.update_of_ne hne ..).symm.trans hq
  obtain ⟨d, hd⟩ := h q b hq'
  obtain ⟨d', hd'⟩ := h pid a ht
  have hba : b ≠ a := by
    rintro rfl
    exact hne (Prod.mk.inj (Option.some.inj (hd.symm.trans hd'))).1
  exact ⟨d, (Function.update_of_ne hba ..).trans hd⟩

theorem collectIn_nil (c : Census) : collectIn [] c = c := by
  refine Census.ext (funext fun a => ?_) (funext fun q => ?_) rfl
  · show (c.cell a).filter _ = _
    cases c.cell a <;> rfl
  · show (c.table q).filter _ = _
    cases c.table q <;> rfl

theorem collectIn_turn (h : c.Tidy) : collectIn l (c.turn pid) = collectIn (pid :: l) c := by
  unfold turn
  cases ht : c.table pid with
  | none =>
    refine Census.ext (funext fun b => ?_) (funext fun q => ?_) rfl
    · show (c.cell b).filter _ = (c.cell b).filter _
      refine congrArg (fun f => (c.cell b).filter f) (funext fun v => ?_)
      by_cases e : v.1 = pid
      · rw [e, ht]
        simp
      · simp [e]
    · show (c.table q).filter _ = (c.table q).filter _
      by_cases e : q = pid
      · rw [e, ht]
        rfl
      · simp [e]
  | some a =>
    obtain ⟨d, hd⟩ := h pid a ht
    simp only [hd, Option.any_some]
    by_cases hdead : d = true
    · subst hdead
      rw [if_pos rfl]
      refine Census.ext (funext fun b => ?_) (funext fun q => ?_) rfl
      · show (Function.update c.cell a none b).filter _ = (c.cell b).filter _
        by_cases e : b = a
        · subst e
          rw [Function.update_self, hd]
          simp [Option.filter, ht]
        · rw [Function.update_of_ne e]
          refine congrArg (fun f => (c.cell b).filter f) (funext fun v => ?_)
          show (!(decide (v.1 ∈ l) && (v.2 && Function.update c.table pid none v.1 == some b))) = _
          by_cases ev : v.1 = pid
          · rw [ev, Function.update_self, ht]
            simp [Ne.symm e]
          · rw [Function.update_of_ne ev]
            simp [ev]
      · show (Function.update c.table pid none q).filter _ = (c.table q).filter _
        by_cases e : q = pid
        · subst e
          rw [Function.update_self, ht]
          simp [Option.filter, hd]
        · rw [Function.update_of_ne e]
          cases hq : c.table q with
          | none => rfl
          | some b =>
            obtain ⟨d', hd'⟩ := h q b hq
            have hba : b ≠ a := by
              rintro rfl
              exact e (Prod.mk.inj (Option.some.inj (hd'.symm.trans hd))).1
            have hcell : (c.drop a pid).cell b = c.cell b := Function.update_of_ne hba ..
            simp [Option.filter, hcell, e]
    · rw [if_neg hdead]
      refine Census.ext (funext fun b => ?_) (funext fun q => ?_) rfl
      · show (c.cell b).filter _ = (c.cell b).filter _
        cases hb : c.cell b with
        | none => rfl
        | some v =>
          by_cases ev : v.1 = pid
          · by_cases eb : b = a
            · subst eb
              obtain rfl := Option.some.inj (hd.symm.trans hb)
              simp [Option.filter, hdead]
            · have hne : ¬ a = b := fun e => eb e.symm
              simp [Option.filter, ev, ht, hne]
          · simp [Option.filter, ev]
      · show (c.table q).filter _ = (c.table q).filter _
        by_cases e : q = pid
        · subst e
          rw [ht]
          simp [Option.filter, hd, hdead]
        · simp [e]

theorem Tidy.turn (h : c.Tidy) (pid : Int) : (c.turn pid).Tidy := by
  unfold Census.turn
  split
  · exact h
  · rename_i a ht
    split
    · exact h.drop ht
    · exact h

theorem foldl_turn (l : List Int) (h : c.Tidy) : l.foldl turn c = collectIn l c := by
  induction l generalizing c with
  | nil => exact (collectIn_nil c).symm
  | cons pid l ih => rw [List.foldl_cons, ih (h.turn pid), collectIn_turn h]

/-- once every slot in use has had its turn, the collection is complete -/
theorem collectIn_eq (hl : ∀ pid a, c.table pid = some a → pid ∈ l) :
    collectIn l c = c.collect := by
  refine Census.ext (funext fun a => ?_) (funext fun q => ?_) rfl
  · refine congrArg (fun f => (c.cell a).filter f) (funext fun v => ?_)
    by_cases e : c.table v.1 = some a
    · simp [hl v.1 a e]
    · simp [e]
  · show (c.table q).filter _ = (c.table q).filter _
    cases hq : c.table q with
    | none => rfl
    | some b => simp [Option.filter, hl q b hq]

/-! ## live processes and free slots -/

/-- every live process is in the slot of its pid -/
def Listed (c : Census) : Prop := ∀ a pid, c.cell a = some (pid, false) → c.table pid = some a

/-- the slot is empty or holds a TERMINATED process -/
def Free (c : Census) (pid : Int) : Prop := ∀ a, c.table pid = some a → c.cell a = some (pid, true)

theorem of_born {v : Int × Bool} (h : (c.born pid).cell b = some v) :
    (b = c.next ∧ v = (pid, false)) ∨ (b ≠ c.next ∧ c.cell b = some v) := by
  by_cases e : b = c.next
  · have hself : (c.born pid).cell c.next = some (pid, false) := Function.update_self ..
    rw [e] at h
    exact Or.inl ⟨e, (Option.some.inj (hself.symm.trans h)).symm⟩
  · exact Or.inr ⟨e, (Function.update_of_ne e ..).symm.trans h⟩

theorem of_drop {v : Int × Bool} (h : (c.drop a pid).cell b = some v) : b ≠ a ∧ c.cell b = some v := by
  by_cases e : b = a
  · subst e
    exact absurd ((Function.update_self ..).symm.trans h) (by simp)
  · exact ⟨e, (Function.update_of_ne e ..).symm.trans h⟩

theorem of_drop_table {q : Int} (h : (c.drop a pid).table q = some b) :
    q ≠ pid ∧ c.table q = some b := by
  by_cases e : q = pid
  · subst e
    exact absurd ((Function.update_self ..).symm.trans h) (by simp)
  · exact ⟨e, (Function.update_of_ne e ..).symm.trans h⟩

theorem of_dies {q : Int} {d : Bool} (h : (c.dies a).cell b = some (q, d)) :
    (b = a ∧ d = true ∧ ∃ d', c.cell b = some (q, d')) ∨ (b ≠ a ∧ c.cell b = some (q, d)) := by
  by_cases e : b = a
  · subst e
    have h' := (Function.update_self ..).symm.trans h
    obtain ⟨v, hv, he⟩ := Option.map_eq_some_iff.mp h'
    obtain ⟨rfl, rfl⟩ := Prod.mk.inj he
    exact Or.inl ⟨rfl, rfl, v.2, hv⟩
  · exact Or.inr ⟨e, (Function.update_of_ne e ..).symm.trans h⟩

theorem of_collect {v : Int × Bool} (h : c.collect.cell b = some v) :
    c.cell b = some v ∧ (v.2 = true → c.table v.1 ≠ some b) := by
  obtain ⟨hv, hf⟩ := Option.filter_eq_some_iff.mp h
  refine ⟨hv, fun hd ht => ?_⟩
  rw [hd, ht] at hf
  simp at hf

theorem of_collect_table {q : Int} (h : c.collect.table q = some b) :
    c.table q = some b ∧ ∀ v, c.cell b = some v → v.2 = false := by
  obtain ⟨hq, hf⟩ := Option.filter_eq_some_iff.mp h
  refine ⟨hq, fun v hv => ?_⟩
  rw [hv] at hf
  simpa using hf

theorem collect_table {q : Int} (hq : c.table q = some b) (hb : c.cell b = some (q, false)) :
    c.collect.table q = some b :=
  Option.filter_eq_some_iff.mpr ⟨hq, by rw [hb]; rfl⟩

theorem Listed.born (h : c.Listed) (hf : c.Free pid) : (c.born pid).Listed := by
  intro b q hb
  rcases of_born hb with ⟨rfl, he⟩ | ⟨-, hb'⟩
  · obtain rfl := (Prod.mk.inj he).1
    exact Function.update_self ..
  · have ht := h b q hb'
    have hq : q ≠ pid := by
      rintro rfl
      exact absurd (hb'.symm.trans (hf b ht)) (by simp)
    exact (Function.update_of_ne hq ..).trans ht

theorem Listed.collect (h : c.Listed) : c.collect.Listed := by
  intro b q hb
  obtain ⟨hb, -⟩ := of_collect hb
  exact collect_table (h b q hb) hb

theorem Listed.drop (h : c.Listed) (ht : c.table pid = some a) : (c.drop a pid).Listed := by
  intro b q hb
  obtain ⟨hne, hb⟩ := of_drop hb
  have hq := h b q hb
  have hqp : q ≠ pid := by
    rintro rfl
    exact hne (Option.some.inj (hq.symm.trans ht))
  exact (Function.update_of_ne hqp ..).trans hq

theorem Listed.dies (h : c.Listed) (a : Nat) : (c.dies a).Listed := by
  intro b q hb
  rcases of_dies hb with ⟨-, hd, -⟩ | ⟨-, hb⟩
  · exact absurd hd (by simp)
  · exact h b q hb

theorem Free.born {q : Int} (h : c.Free q) (hne : q ≠ pid) (hfresh : c.cell c.next = none) :
    (c.born pid).Free q := by
  intro b hb
  have hq : c.table q = some b := (Function.update_of_ne hne ..).symm.trans hb
  have hc := h b hq
  have hbn : b ≠ c.next := by
    rintro rfl
    rw [hfresh] at hc
    exact absurd hc (by simp)
  exact (Function.update_of_ne hbn ..).trans hc

theorem Free.collect {q : Int} (h : c.Free q) : c.collect.Free q := by
  intro b hb
  obtain ⟨hq, hlive⟩ := of_collect_table hb
  exact absurd (hlive _ (h b hq)) (by simp)

theorem Free.drop {q : Int} (h : c.Free q) (htidy : c.Tidy) (ht : c.table pid = some a) :
    (c.drop a pid).Free q := by
  intro b hb
  obtain ⟨hne, hq⟩ := of_drop_table hb
  obtain ⟨d, hd⟩ := htidy pid a ht
  have hc := h b hq
  have hba : b ≠ a := by
    rintro rfl
    exact hne (Prod.mk.inj (Option.some.inj (hc.symm.trans hd))).1
  exact (Function.update_of_ne hba ..).trans hc

theorem Free.dies {q : Int} (h : c.Free q) (a : Nat) : (c.dies a).Free q := by
  intro b hb
  have hc := h b hb
  by_cases e : b = a
  · subst e
    refine (Function.update_self ..).trans ?_
    rw [hc]
    rfl
  · exact (Function.update_of_ne e ..).trans hc

/-! ## nobody outside the table -/

/-- every process that exists is in the slot of its pid -/
def Placed (c : Census) : Prop := ∀ a v, c.cell a = some v → c.table v.1 = some a

theorem Placed.born (h : c.Placed) (hnone : c.table pid = none) : (c.born pid).Placed := by
  intro b v hb
  rcases of_born hb with ⟨rfl, rfl⟩ | ⟨-, hb'⟩
  · exact Function.update_self ..
  · have ht := h b v hb'
    have hne : v.1 ≠ pid := by
      intro e
      rw [e, hnone] at ht
      exact absurd ht (by simp)
    exact (Function.update_of_ne hne ..).trans ht

theorem Placed.collect (h : c.Placed) : c.collect.Placed := by
  intro b v hb
  obtain ⟨hb, hlive⟩ := of_collect hb
  have ht := h b v hb
  refine collect_table ht (hb.trans ?_)
  obtain ⟨q, d⟩ := v
  cases d with
  | false => rfl
  | true => exact absurd ht (hlive rfl)

theorem Placed.drop (h : c.Placed) (ht : c.table pid = some a) : (c.drop a pid).Placed := by
  intro b v hb
  obtain ⟨hne, hb⟩ := of_drop hb
  have hv := h b v hb
  have hq : v.1 ≠ pid := by
    intro e
    rw [e, ht] at hv
    exact hne (Option.some.inj hv).symm
  exact (Function.update_of_ne hq ..).trans hv

theorem Placed.dies (h : c.Placed) (a : Nat) : (c.dies a).Placed := by
  rintro b ⟨q, d⟩ hb
  rcases of_dies hb with ⟨-, -, d', hb⟩ | ⟨-, hb⟩
  · exact h b (q, d') hb
  · exact h b (q, d) hb

end

end Census

end Tp2So
