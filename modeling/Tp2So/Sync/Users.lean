import Tp2So.Lib.Runs
import Tp2So.Sync.Registry

/-!
# The registry as a map from names with reference counts

A run of `semOpen` and `semClose` calls starts from the empty registry.  Beside the registry,
`opens a` and `closes a` count the calls that opened and closed the semaphore `a`.

* `locateLoop_eq`      the walk of the cyclic cursor finds what `locateSemaphoreByName` does;
* `RefCounted`         one semaphore for each name, opened again as it is, there as long as it has been
                       closed less often than opened;
* `RegOp.roomy`        the 16-bit count of users has room for one more;
* `registry_run`       the registry is right in every run of roomy steps;
* `users_opened`       what many opens do to the count.
-/

set_option linter.unusedVariables false

namespace Tp2So

/-! ## looking a name up -/

/-- the loop of `locate_semaphore_by_name`, at most `n` steps of the cursor -/
def locateLoop (r : SemReg) (name : List Char) : Nat → Queue Nat → Option Nat
  | 0, _ => none
  | n + 1, q =>
    match queueNextCyclicIter q with
    | none => none
    | some (a, q') =>
      if (r.heap a).any fun m => m.name = name then some a else locateLoop r name n q'

theorem locateLoop_from (r : SemReg) (name : List Char) (n : Nat) :
    ∀ (q : Queue Nat) (i : Nat), q.cyclicIter = some i → i + n = q.elems.length →
      locateLoop r name n q = (q.elems.drop i).find? fun a => (r.heap a).any fun m => m.name = name := by
  refine cursor_loop (f := locateLoop r name)
    (g := fun l => l.find? fun a => (r.heap a).any fun m => m.name = name)
    (fun a rest => if (r.heap a).any fun m => m.name = name then some a else rest) (fun _ => rfl) (fun n q a q' hnext => ?_) (fun a l => ?_) n
  · rw [locateLoop, hnext]
  · rw [List.find?_cons]
    cases (r.heap a).any fun m => m.name = name <;> rfl

/-- one turn of the cursor, started at the head -/
theorem locateLoop_eq (r : SemReg) (name : List Char) :
    locateLoop r name (queueSize r.registry) (queueBeginCyclicIter r.registry)
      = locateSemaphoreByName r name := by
  unfold locateSemaphoreByName queueSize queueBeginCyclicIter
  by_cases h : r.registry.elems = []
  · rw [h]
    rfl
  · rw [if_neg h, locateLoop_from r name _ _ 0 rfl (by simp)]
    rfl

/-! ## runs of opens and closes -/

inductive RegOp where
  | open (name : List Char) (value : Nat)
  | close (a : Nat)

structure RegSys where
  reg : SemReg
  opens : Nat → Nat
  closes : Nat → Nat

def RegSys.start : RegSys := ⟨initSemQueue, fun _ => 0, fun _ => 0⟩

/-- one more at `a` -/
def tally (f : Nat → Nat) (a : Nat) : Nat → Nat := Function.update f a (f a + 1)

theorem tally_self (f : Nat → Nat) (a : Nat) : tally f a a = f a + 1 := Function.update_self ..

theorem tally_of_ne (f : Nat → Nat) {a b : Nat} (h : b ≠ a) : tally f a b = f b :=
  Function.update_of_ne h ..

def execReg : RegOp → RegSys → Option RegSys
  | .open name value, t =>
    match semOpen t.reg name value with
    | (none, r) => some { t with reg := r }
    | (some a, r) => some { t with reg := r, opens := tally t.opens a }
  | .close a, t =>
    match semClose t.reg a with
    | (code, r) => some { t with reg := r, closes := if code < 0 then t.closes else tally t.closes a }

/-- a semaphore that is opened has fewer than `65535` users -/
def RegOp.roomy : RegOp → RegSys → Bool
  | .open name _, t =>
    match locateSemaphoreByName t.reg name with
    | none => true
    | some a => (t.reg.heap a).all fun m => m.users < 65535
  | .close _, _ => true

structure RefCounted (t : RegSys) : Prop where
  names : ∀ a ∈ t.reg.registry.elems, ∀ b ∈ t.reg.registry.elems, ∀ m n, t.reg.heap a = some m →
    t.reg.heap b = some n → m.name = n.name → a = b
  again : ∀ a ∈ t.reg.registry.elems, ∃ m, t.reg.heap a = some m ∧ ∀ value, ∃ r' m',
    semOpen t.reg m.name value = (some a, r') ∧ r'.heap a = some m' ∧ m'.value = m.value ∧
      m'.blockedProcesses = m.blockedProcesses ∧ r'.registry.elems = t.reg.registry.elems
  there : ∀ a, a ∈ t.reg.registry.elems ↔ t.closes a < t.opens a

/-- the invariant: the count of users is the number of opens that have not been closed -/
structure RegSys.Inv (t : RegSys) : Prop where
  wf : t.reg.Wf
  short : ∀ a m, t.reg.heap a = some m → m.name.length < maxSemLength
  users : ∀ a m, t.reg.heap a = some m → m.users + t.closes a = t.opens a ∧ 0 < m.users ∧
    m.users < 65536
  gone : ∀ a, t.reg.heap a = none → t.opens a = t.closes a

section
variable {t t' : RegSys} {name : List Char} {value a : Nat} {m : Sem}

theorem RegSys.Inv.there (h : t.Inv) (a : Nat) :
    a ∈ t.reg.registry.elems ↔ t.closes a < t.opens a := by
  rw [h.wf.mem a]
  constructor
  · intro ⟨m, hm⟩
    obtain ⟨h1, h2, -⟩ := h.users a m hm
    omega
  · intro hlt
    cases hm : t.reg.heap a with
    | none =>
      have := h.gone a hm
      omega
    | some m => exact ⟨m, rfl⟩

theorem RegSys.Inv.refCounted (h : t.Inv) : RefCounted t := by
  refine ⟨fun a _ b _ m n hm hn he => h.wf.names a b m n hm hn he, fun a ha => ?_, h.there⟩
  obtain ⟨m, hm⟩ := (h.wf.mem a).mp ha
  refine ⟨m, hm, fun value => ⟨t.reg.modify a SemReg.moreUsers, SemReg.moreUsers m, ?_, ?_, rfl, rfl,
    rfl⟩⟩
  · exact SemReg.semOpen_found (h.short a m hm) (h.wf.locate hm)
  · show heapMod t.reg.heap a SemReg.moreUsers a = _
    rw [heapMod_self, hm]
    rfl

/-! ## one step -/

/-- the users of a semaphore that is there are counted anew -/
theorem RegSys.Inv.recount (h : t.Inv) (hm : t.reg.heap a = some m) {f : Sem → Sem}
    (hf : ∀ m, (f m).name = m.name) {opens closes : Nat → Nat}
    (hself : (f m).users + closes a = opens a ∧ 0 < (f m).users ∧ (f m).users < 65536)
    (hother : ∀ b, b ≠ a → opens b = t.opens b ∧ closes b = t.closes b) :
    RegSys.Inv { t with reg := t.reg.modify a f, opens, closes } := by
  refine ⟨h.wf.modify a hf, fun b n hn => ?_, fun b n hn => ?_, fun b hb => ?_⟩
  · obtain ⟨n', hn', rfl⟩ := heapMod_some hn
    have hs := h.short b n' hn'
    split
    · rw [hf n']
      exact hs
    · exact hs
  · obtain ⟨n', hn', rfl⟩ := heapMod_some hn
    by_cases e : b = a
    · subst e
      obtain rfl := Option.some.inj (hm.symm.trans hn')
      rw [if_pos rfl]
      exact hself
    · obtain ⟨ho, hc⟩ := hother b e
      rw [if_neg e]
      show n'.users + closes b = opens b ∧ _
      rw [ho, hc]
      exact h.users b n' hn'
  · have e : b ≠ a := by
      intro e
      have hb' : heapMod t.reg.heap a f b = none := hb
      rw [e, heapMod_self, hm] at hb'
      exact absurd hb' (by simp)
    obtain ⟨ho, hc⟩ := hother b e
    show opens b = closes b
    rw [ho, hc]
    exact h.gone b ((heapMod_of_ne _ _ e).symm.trans hb)

theorem RegSys.Inv.found (h : t.Inv) (hm : t.reg.heap a = some m) (hu : m.users < 65535) :
    RegSys.Inv { t with reg := t.reg.modify a SemReg.moreUsers, opens := tally t.opens a } := by
  obtain ⟨h1, h2, h3⟩ := h.users a m hm
  refine h.recount hm (fun m => (SemReg.alike_moreUsers m).1) ?_ fun b e => ⟨tally_of_ne _ e, rfl⟩
  have hinc : (SemReg.moreUsers m).users = m.users + 1 := Nat.mod_eq_of_lt (by omega)
  rw [hinc, tally_self]
  omega

theorem RegSys.Inv.new (h : t.Inv) (hlen : name.length < maxSemLength)
    (hl : locateSemaphoreByName t.reg name = none) :
    RegSys.Inv { t with
      reg := t.reg.add (SemReg.fresh name value), opens := tally t.opens t.reg.next } := by
  have hfresh := h.gone t.reg.next (h.wf.fresh t.reg.next (Nat.le_refl _))
  have hnone := h.wf.fresh t.reg.next (Nat.le_refl _)
  refine ⟨h.wf.add fun a n hn => h.wf.locate_none hl hn, fun b n hn => ?_, fun b n hn => ?_,
    fun b hb => ?_⟩
  · rcases SemReg.add_heap hn with ⟨-, rfl⟩ | ⟨-, hn⟩
    · exact hlen
    · exact h.short b n hn
  · rcases SemReg.add_heap hn with ⟨rfl, rfl⟩ | ⟨e, hn⟩
    · show 1 + t.closes t.reg.next = tally t.opens t.reg.next t.reg.next ∧ 0 < 1 ∧ 1 < 65536
      rw [tally_self]
      omega
    · show n.users + t.closes b = tally t.opens t.reg.next b ∧ _
      rw [tally_of_ne _ e]
      exact h.users b n hn
  · have e : b ≠ t.reg.next := by
      intro e
      have hself : (t.reg.add (SemReg.fresh name value)).heap t.reg.next = _ := Function.update_self ..
      rw [e] at hb
      exact absurd (hself.symm.trans hb) (by simp)
    show tally t.opens t.reg.next b = t.closes b
    rw [tally_of_ne _ e]
    exact h.gone b ((Function.update_of_ne e ..).symm.trans hb)

theorem RegSys.Inv.less (h : t.Inv) (hm : t.reg.heap a = some m) (hu : m.users ≠ 1) :
    RegSys.Inv { t with reg := t.reg.modify a SemReg.lessUsers, closes := tally t.closes a } := by
  obtain ⟨h1, h2, h3⟩ := h.users a m hm
  refine h.recount hm (fun m => (SemReg.alike_lessUsers m).1) ?_ fun b e => ⟨rfl, tally_of_ne _ e⟩
  have hdec : (SemReg.lessUsers m).users = m.users - 1 := by
    show (m.users + 65535) % 65536 = m.users - 1
    omega
  rw [hdec, tally_self]
  omega

theorem RegSys.Inv.dropped (h : t.Inv) (hm : t.reg.heap a = some m) (hu : m.users = 1) :
    RegSys.Inv { t with reg := t.reg.drop a, closes := tally t.closes a } := by
  refine ⟨h.wf.drop a, fun b n hn => ?_, fun b n hn => ?_, fun b hb => ?_⟩
  · exact h.short b n (SemReg.drop_heap hn).2
  · obtain ⟨e, hn⟩ := SemReg.drop_heap hn
    show n.users + tally t.closes a b = t.opens b ∧ _
    rw [tally_of_ne _ e]
    exact h.users b n hn
  · show t.opens b = tally t.closes a b
    by_cases e : b = a
    · subst e
      obtain ⟨h1, -, -⟩ := h.users b m hm
      rw [tally_self]
      omega
    · rw [tally_of_ne _ e]
      exact h.gone b ((Function.update_of_ne e ..).symm.trans hb)

theorem execReg_close (h : t.Inv) (ht : execReg (.close a) t = some t') :
    (t.reg.heap a = none ∧ t' = t) ∨
    (∃ m, t.reg.heap a = some m ∧ m.users ≠ 1 ∧
      t' = { t with reg := t.reg.modify a SemReg.lessUsers, closes := tally t.closes a }) ∨
    ∃ m, t.reg.heap a = some m ∧ m.users = 1 ∧
      t' = { t with reg := t.reg.drop a, closes := tally t.closes a } := by
  have heq : execReg (.close a) t = some { t with
      reg := (semClose t.reg a).2
      closes := if (semClose t.reg a).1 < 0 then t.closes else tally t.closes a } := rfl
  rw [heq] at ht
  have ht' := (Option.some.inj ht).symm
  cases hm : t.reg.heap a with
  | none =>
    refine Or.inl ⟨rfl, ?_⟩
    have hnv : ¬ isSemaphoreValid t.reg a = true := by
      rw [h.wf.valid_iff, hm]
      simp
    have hc : semClose t.reg a = (-1, t.reg) := by
      unfold semClose
      rw [if_neg hnv]
    rw [hc] at ht'
    exact ht'
  | some m =>
    obtain ⟨-, hpos, hlt⟩ := h.users a m hm
    have hstep : semClose t.reg a = if dec16 m.users ≠ 0 then (0, t.reg.modify a SemReg.lessUsers)
        else (0, t.reg.drop a) := by
      unfold semClose
      rw [if_pos (h.wf.valid hm)]
      simp only [hm]
      rfl
    refine Or.inr ?_
    by_cases hu : m.users = 1
    · refine Or.inr ⟨m, rfl, hu, ?_⟩
      rw [hstep, if_neg (by rw [hu]; decide)] at ht'
      exact ht'
    · refine Or.inl ⟨m, rfl, hu, ?_⟩
      have hne : dec16 m.users ≠ 0 := by
        unfold dec16
        omega
      rw [hstep, if_pos hne] at ht'
      exact ht'

theorem execReg_open (ht : execReg (.open name value) t = some t') :
    (¬ name.length < maxSemLength ∧ t' = t) ∨
    (∃ a m, t.reg.heap a = some m ∧ locateSemaphoreByName t.reg name = some a ∧
      t' = { t with reg := t.reg.modify a SemReg.moreUsers, opens := tally t.opens a }) ∨
    (name.length < maxSemLength ∧ locateSemaphoreByName t.reg name = none ∧ t' = { t with
      reg := t.reg.add (SemReg.fresh name value), opens := tally t.opens t.reg.next }) := by
  by_cases hlen : name.length < maxSemLength
  · cases hl : locateSemaphoreByName t.reg name with
    | none =>
      refine Or.inr (Or.inr ⟨hlen, rfl, ?_⟩)
      unfold execReg at ht
      simp only [SemReg.semOpen_new hlen hl] at ht
      exact (Option.some.inj ht).symm
    | some a =>
      obtain ⟨m, hm, -⟩ := SemReg.locate_some hl
      refine Or.inr (Or.inl ⟨a, m, hm, rfl, ?_⟩)
      unfold execReg at ht
      simp only [SemReg.semOpen_found hlen hl] at ht
      exact (Option.some.inj ht).symm
  · refine Or.inl ⟨hlen, ?_⟩
    unfold execReg at ht
    simp only [SemReg.semOpen_long hlen] at ht
    exact (Option.some.inj ht).symm

/-- **One step.** -/
theorem inv_execReg (o : RegOp) (t t' : RegSys) (h : t.Inv) (ho : o.roomy t = true)
    (ht : execReg o t = some t') : t'.Inv := by
  cases o with
  | «open» name value =>
    rcases execReg_open ht with ⟨-, rfl⟩ | ⟨a, m, hm, hl, rfl⟩ | ⟨hlen, hl, rfl⟩
    · exact h
    · refine h.found hm ?_
      simp only [RegOp.roomy, hl, hm] at ho
      exact of_decide_eq_true ho
    · exact h.new hlen hl
  | close a =>
    rcases execReg_close h ht with ⟨-, rfl⟩ | ⟨m, hm, hu, rfl⟩ | ⟨m, hm, hu, rfl⟩
    · exact h
    · exact h.less hm hu
    · exact h.dropped hm hu

theorem mem_of_open (ht : execReg (.open name value) t = some t') (ha : a ∈ t.reg.registry.elems) :
    a ∈ t'.reg.registry.elems := by
  rcases execReg_open ht with ⟨-, rfl⟩ | ⟨b, m, hm, hl, rfl⟩ | ⟨hlen, hl, rfl⟩
  · exact ha
  · exact ha
  · exact List.mem_append_left _ ha

theorem inv_start : RegSys.start.Inv :=
  ⟨SemReg.wf_init, fun a m hm => absurd hm (by simp [RegSys.start, initSemQueue]),
    fun a m hm => absurd hm (by simp [RegSys.start, initSemQueue]), fun a _ => rfl⟩

/-! ## runs -/

/-- **The registry over a run.**  In every run of roomy steps the registry is a map with reference
counts, and a semaphore leaves it by the close that makes the closes as many as the opens, and only
by that. -/
theorem registry_run {os : List RegOp}
    (hrun : Runs execReg (fun o t => o.roomy t = true) os RegSys.start t) :
    RefCounted t ∧ ∀ o t', o.roomy t = true → execReg o t = some t' →
      ∀ a ∈ t.reg.registry.elems,
        (a ∉ t'.reg.registry.elems ↔ o = .close a ∧ t'.closes a = t'.opens a) := by
  have h := hrun.inv inv_execReg inv_start
  refine ⟨h.refCounted, fun o t' ho ht a ha => ?_⟩
  have h' := inv_execReg o t t' h ho ht
  have hlt := (h.there a).mp ha
  rw [h'.there a]
  cases o with
  | «open» name value =>
    have ha' := (h'.there a).mp (mem_of_open ht ha)
    constructor
    · intro hn
      exact absurd ha' hn
    · intro ⟨hb, _⟩
      exact absurd hb (by simp)
  | close b =>
    by_cases e : b = a
    · subst e
      have hle : t'.closes b ≤ t'.opens b := by
        rcases execReg_close h ht with ⟨-, rfl⟩ | ⟨m, hm, hu, rfl⟩ | ⟨m, hm, hu, rfl⟩
        · omega
        · show tally t.closes b b ≤ t.opens b
          rw [tally_self]
          omega
        · show tally t.closes b b ≤ t.opens b
          rw [tally_self]
          omega
      constructor
      · intro hn
        exact ⟨rfl, by omega⟩
      · intro ⟨_, he⟩
        omega
    · have hkeep : t'.closes a = t.closes a ∧ t'.opens a = t.opens a := by
        rcases execReg_close h ht with ⟨-, rfl⟩ | ⟨m, hm, hu, rfl⟩ | ⟨m, hm, hu, rfl⟩
        · exact ⟨rfl, rfl⟩
        · exact ⟨tally_of_ne _ fun e' => e e'.symm, rfl⟩
        · exact ⟨tally_of_ne _ fun e' => e e'.symm, rfl⟩
      rw [hkeep.1, hkeep.2]
      constructor
      · intro hn
        exact absurd hlt hn
      · intro ⟨hb, _⟩
        exact absurd (RegOp.close.inj hb) e

/-- two names, one opened twice and closed as often -/
theorem registry_run_twoNames : ∃ t,
    Runs execReg (fun o t => o.roomy t = true)
      [.open ['a'] 1, .open ['b'] 0, .open ['a'] 5, .close 0, .close 0] RegSys.start t ∧
    t.reg.registry.elems = [1] ∧ RefCounted t := by
  have hrun : (runIf execReg RegOp.roomy
      [.open ['a'] 1, .open ['b'] 0, .open ['a'] 5, .close 0, .close 0] RegSys.start).map
      (fun t => t.reg.registry.elems) = some [1] := by decide +kernel
  obtain ⟨t, ht, he⟩ := Option.map_eq_some_iff.mp hrun
  have hr := runs_of_runIf ht
  exact ⟨t, hr, he, (registry_run hr).1⟩

/-! ## more users than the count can hold -/

/-- `n` opens of a name that is there, whatever the count of its users -/
theorem users_opened (value n : Nat) : ∀ {t : RegSys} {m : Sem}, t.reg.Wf → t.reg.heap a = some m →
    m.name.length < maxSemLength → m.users < 65536 →
    ∃ t' m', run execReg (List.replicate n (.open m.name value)) t = some t' ∧ t'.reg.Wf ∧
      t'.reg.heap a = some m' ∧ m'.users = (m.users + n) % 65536 ∧ t'.opens a = t.opens a + n ∧
      t'.closes = t.closes := by
  induction n with
  | zero =>
    intro t m hwf hm hlen hu
    exact ⟨t, m, rfl, hwf, hm, (Nat.mod_eq_of_lt hu).symm, rfl, rfl⟩
  | succ n ih =>
    intro t m hwf hm hlen hu
    have hstep : execReg (.open m.name value) t = some { t with
        reg := t.reg.modify a SemReg.moreUsers, opens := tally t.opens a } := by
      unfold execReg
      simp only [SemReg.semOpen_found hlen (hwf.locate hm)]
    have hwf' := hwf.modify a fun m => (SemReg.alike_moreUsers m).1
    have hm' : (t.reg.modify a SemReg.moreUsers).heap a = some (SemReg.moreUsers m) := by
      show heapMod t.reg.heap a SemReg.moreUsers a = _
      rw [heapMod_self, hm]
      rfl
    have hname : (SemReg.moreUsers m).name = m.name := (SemReg.alike_moreUsers m).1
    have husers : (SemReg.moreUsers m).users = (m.users + 1) % 65536 := rfl
    obtain ⟨t', m', hrun, hwf2, hm2, hu2, ho2, hc2⟩ := ih
      (t := { t with reg := t.reg.modify a SemReg.moreUsers, opens := tally t.opens a }) hwf' hm'
      (by rw [hname]; exact hlen) (by omega)
    rw [hname] at hrun
    refine ⟨t', m', ?_, hwf2, hm2, by omega, ?_, hc2⟩
    · rw [List.replicate_succ, run_cons, hstep]
      exact hrun
    · rw [ho2]
      show tally t.opens a a + n = _
      rw [tally_self]
      omega

/-- the last of `65537` opens leaves the count at `1`: the first close removes the semaphore -/
theorem registry_wraps : ∃ t,
    run execReg (List.replicate 65537 (.open ['s'] 0) ++ [.close 0]) RegSys.start = some t ∧
    t.opens 0 = 65537 ∧ t.closes 0 = 1 ∧ 0 ∉ t.reg.registry.elems ∧ ¬ RefCounted t := by
  have hfirst : execReg (.open ['s'] 0) RegSys.start = some { RegSys.start with
      reg := initSemQueue.add (SemReg.fresh ['s'] 0), opens := tally RegSys.start.opens 0 } := rfl
  have hwf : (initSemQueue.add (SemReg.fresh ['s'] 0)).Wf :=
    SemReg.wf_init.add fun a n hn => absurd hn (by simp [initSemQueue])
  have hm : (initSemQueue.add (SemReg.fresh ['s'] 0)).heap 0 = some (SemReg.fresh ['s'] 0) := rfl
  obtain ⟨t, m, hrun, hwf, hm, hu, ho, hc⟩ := users_opened 0 65536
    (t := { RegSys.start with
      reg := initSemQueue.add (SemReg.fresh ['s'] 0), opens := tally RegSys.start.opens 0 })
    hwf hm (by decide) (by decide)
  have hone : m.users = 1 := hu
  have hclose : execReg (.close 0) t
      = some { t with reg := t.reg.drop 0, closes := tally t.closes 0 } := by
    unfold execReg semClose
    simp only [hwf.valid hm, hm, hone]
    rfl
  have hgone : 0 ∉ (t.reg.drop 0).registry.elems := by
    intro h0
    obtain ⟨n, hn⟩ := ((hwf.drop 0).mem 0).mp h0
    exact (SemReg.drop_heap hn).1 rfl
  have hopens : t.opens 0 = 65537 := ho
  have hcloses : tally t.closes 0 0 = 1 := by
    rw [tally_self, hc]
    rfl
  refine ⟨{ t with reg := t.reg.drop 0, closes := tally t.closes 0 }, ?_, hopens, hcloses, hgone,
    fun h => hgone ((h.there 0).mpr ?_)⟩
  · rw [List.replicate_succ, List.cons_append, run_cons, hfirst, Option.bind_some, run_append]
    have hrun' : run execReg (List.replicate 65536 (.open ['s'] 0)) _ = some t := hrun
    rw [hrun', Option.bind_some, run_cons, hclose]
    rfl
  · show tally t.closes 0 0 < t.opens 0
    rw [hcloses, hopens]
    decide

end

end Tp2So
