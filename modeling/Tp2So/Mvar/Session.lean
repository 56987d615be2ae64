import Tp2So.Lib.Runs
import Tp2So.Kernel.Mvar
import Tp2So.Sync.Registry

/-!
# The values that pass through an MVar

There is one token, and it is always in one of seven places (`MvarPhase`): in one of the two semaphores,
or with the one process that is past its wait.  Where it is says what the byte holds and how the
record of the values stored compares with the record of the values read.

* `takeToken_of_some`, `giveToken_of_some`   the two operations on a registered semaphore, and
  `semWait_token`, `semPost_token`, `semPost_handover` the calls of `sem.c` they stand for;
* `Session`        the invariant;
* `session_step`   every step but a new `mvarInit` keeps it;
* `exactly_once`   what has been read is a stretch of what has been stored, from the first value on,
                   with at most one value to come.
-/

set_option linter.unusedVariables false

namespace Tp2So

/-! ## tokens -/

section
variable {r : SemReg} {k : Kernel} {a b : Nat} {m : Sem}

/-- a semaphore with one token more -/
def addToken (m : Sem) : Sem := { m with value := inc16 m.value }

theorem takeToken_of_some (h : r.Wf) (hm : r.heap a = some m) :
    takeToken r a = if m.value = 0 then none else some (0, r.modify a takeSem) := by
  unfold takeToken
  rw [if_pos (h.valid hm)]
  simp only [hm]
  rfl

theorem giveToken_of_some (h : r.Wf) (hm : r.heap a = some m) :
    giveToken r a = (0, r.modify a addToken) := by
  unfold giveToken
  rw [if_pos (h.valid hm)]
  simp only [hm]
  rfl

/-- a wait that does not block takes a token -/
theorem semWait_token (h : k.sems.Wf) (hm : k.sems.heap a = some m) (hv : m.value ≠ 0) :
    takeToken k.sems a = some (0, (semWait k a).2.sems) := by
  rw [takeToken_of_some h hm, if_neg hv, semWait_pos h hm hv]

/-- a post with nobody waiting adds a token -/
theorem semPost_token (h : k.sems.Wf) (hm : k.sems.heap a = some m)
    (hq : m.blockedProcesses.elems = []) : giveToken k.sems a = (0, (semPost k a).2.sems) := by
  have hmod : k.sems.modify a addToken = k.sems.modify a postSem := by
    unfold SemReg.modify heapMod
    rw [hm, Option.map_some, Option.map_some, postSem_nil hq]
    rfl
  rw [giveToken_of_some h hm, semPost_eq h, hmod]

/-- a post that wakes a process leaves as many tokens as adding one and taking it at once -/
theorem semPost_handover (h : k.sems.Wf) (hm : k.sems.heap a = some m) (hv : m.value < 65535)
    {pid : Int} {rest : List Int} (hq : m.blockedProcesses.elems = pid :: rest) :
    ∃ r n n', takeToken (giveToken k.sems a).2 a = some (0, r) ∧ r.heap a = some n ∧
      (semPost k a).2.sems.heap a = some n' ∧ n.value = n'.value := by
  have hg : ((giveToken k.sems a).2).heap a = some (addToken m) := by
    rw [giveToken_of_some h hm]
    show heapMod k.sems.heap a addToken a = _
    rw [heapMod_self, hm]
    rfl
  have hwf : (giveToken k.sems a).2.Wf := by
    rw [giveToken_of_some h hm]
    exact h.modify a fun _ => rfl
  have hval : (addToken m).value = m.value + 1 := Nat.mod_eq_of_lt (by omega)
  refine ⟨(giveToken k.sems a).2.modify a takeSem, takeSem (addToken m), postSem m, ?_, ?_, ?_, ?_⟩
  · rw [takeToken_of_some hwf hg, if_neg (by omega)]
  · show heapMod _ a takeSem a = _
    rw [heapMod_self, hg]
    rfl
  · rw [semPost_eq h]
    show heapMod k.sems.heap a postSem a = _
    rw [heapMod_self, hm]
    rfl
  · rw [(postSem_cons hq).2]
    show (addToken m).value - 1 = m.value
    omega

end

/-! ## where the token is -/

inductive MvarPhase where
  | free
  | writing (p : Nat) (v : UInt8)
  | written (p : Nat) (v : UInt8)
  | full
  | reading (p : Nat)
  | clearing (p : Nat) (v : UInt8)
  | cleared (p : Nat) (v : UInt8)
  deriving DecidableEq

/-- the process that has the token, and its next call -/
def MvarPhase.holder : MvarPhase → Option (Nat × MvarPos)
  | .free => none
  | .writing p v => some (p, .putSet v)
  | .written p v => some (p, .putPost v)
  | .full => none
  | .reading p => some (p, .getRead)
  | .clearing p v => some (p, .getClear v)
  | .cleared p v => some (p, .getPost v)

/-- past its wait -/
def MvarPos.inside : MvarPos → Bool
  | .putSet _ | .putPost _ | .getRead | .getClear _ | .getPost _ => true
  | _ => false

/-- the value at hand is not `0` -/
def MvarPos.nonzero : MvarPos → Bool
  | .putWait v | .putSet v => v != 0
  | _ => true

/-- the byte and the records -/
def MvarPhase.books (t : MvarSys) : MvarPhase → Prop
  | .free | .writing _ _ => t.stored = t.got ∧ t.got = t.returned
  | .written _ v => t.stored = t.got ++ [v] ∧ t.got = t.returned ∧ t.sharedMvarValue = v
  | .full | .reading _ => t.stored = t.got ++ [t.sharedMvarValue] ∧ t.got = t.returned
  | .clearing _ v | .cleared _ v => t.stored = t.got ∧ t.got = t.returned ++ [v]

/-- the semaphore `a` has this name and this value -/
def SemReg.Has (r : SemReg) (a : Nat) (name : List Char) (value : Nat) : Prop :=
  ∃ m, r.heap a = some m ∧ m.name = name ∧ m.value = value

structure Session (h : MvarHandles) (ph : MvarPhase) (t : MvarSys) : Prop where
  wf : t.sems.Wf
  mvar : t.mvar = some h
  empty : t.sems.Has h.empty mvarSemEmptyName (if ph = .free then 1 else 0)
  full : t.sems.Has h.full mvarSemFullName (if ph = .full then 1 else 0)
  holder : ∀ p x, ph.holder = some (p, x) → t.pos p = x
  inside : ∀ p, (t.pos p).inside = true → ph.holder = some (p, t.pos p)
  nonzero : ∀ p, (t.pos p).nonzero = true
  books : ph.books t
  stored : 0 ∉ t.stored

section
variable {h : MvarHandles} {ph ph' : MvarPhase} {t t' : MvarSys} {p : Nat} {r : SemReg}

theorem SemReg.Has.other {a b : Nat} {name : List Char} {v : Nat} {f : Sem → Sem}
    (hr : r.Has a name v) (hne : a ≠ b) : (r.modify b f).Has a name v := by
  obtain ⟨m, hm, hn⟩ := hr
  exact ⟨m, (heapMod_of_ne _ _ hne).trans hm, hn⟩

theorem SemReg.Has.here {a : Nat} {name : List Char} {v v' : Nat} {f : Sem → Sem}
    (hr : r.Has a name v) (hf : ∀ m, m.value = v → (f m).name = m.name ∧ (f m).value = v') :
    (r.modify a f).Has a name v' := by
  obtain ⟨m, hm, hn, hv⟩ := hr
  obtain ⟨h1, h2⟩ := hf m hv
  refine ⟨f m, ?_, h1.trans hn, h2⟩
  show heapMod r.heap a f a = _
  rw [heapMod_self, hm]
  rfl

theorem Session.ne (hs : Session h ph t) : h.empty ≠ h.full := by
  intro e
  obtain ⟨m, hm, hn, -⟩ := hs.empty
  obtain ⟨m', hm', hn', -⟩ := hs.full
  rw [e] at hm
  obtain rfl := Option.some.inj (hm.symm.trans hm')
  exact absurd (hn.symm.trans hn') (by decide)

/-! ## who is past its wait -/

theorem MvarPhase.holder_inside {x : MvarPos} (hh : ph.holder = some (p, x)) : x.inside = true := by
  cases ph with
  | free => exact absurd hh (by simp [MvarPhase.holder])
  | full => exact absurd hh (by simp [MvarPhase.holder])
  | _ =>
    obtain ⟨-, rfl⟩ := Prod.mk.inj (Option.some.inj hh)
    rfl

theorem pos_goto_self (t : MvarSys) (p : Nat) (y : MvarPos) : (t.goto p y).pos p = y :=
  Function.update_self ..

theorem pos_goto_of_ne (t : MvarSys) {p q : Nat} (y : MvarPos) (hq : q ≠ p) :
    (t.goto p y).pos q = t.pos q := Function.update_of_ne hq ..

/-- a process that is not past its wait moves to a place that is not either -/
theorem Session.around (hs : Session h ph t) {y : MvarPos} (hp : (t.pos p).inside = false)
    (hy : y.inside = false) :
    (∀ q x, ph.holder = some (q, x) → (t.goto p y).pos q = x) ∧
      ∀ q, ((t.goto p y).pos q).inside = true → ph.holder = some (q, (t.goto p y).pos q) := by
  constructor
  · intro q x hq
    have hpos := hs.holder q x hq
    have hne : q ≠ p := by
      intro e
      rw [e] at hpos
      rw [hpos, MvarPhase.holder_inside hq] at hp
      exact absurd hp (by simp)
    rw [pos_goto_of_ne _ _ hne]
    exact hpos
  · intro q hq
    by_cases e : q = p
    · rw [e, pos_goto_self, hy] at hq
      exact absurd hq (by simp)
    · rw [pos_goto_of_ne _ _ e] at hq ⊢
      exact hs.inside q hq

/-- the token is in a semaphore or with `p`, and `p` moves -/
theorem Session.along (hs : Session h ph t) (p : Nat) (y : MvarPos) (ph' : MvarPhase)
    (h1 : ∀ q x, ph.holder = some (q, x) → q = p)
    (h2 : (y.inside = true ∧ ph'.holder = some (p, y)) ∨ (y.inside = false ∧ ph'.holder = none)) :
    (∀ q x, ph'.holder = some (q, x) → (t.goto p y).pos q = x) ∧
      ∀ q, ((t.goto p y).pos q).inside = true → ph'.holder = some (q, (t.goto p y).pos q) := by
  constructor
  · intro q x hq
    rcases h2 with ⟨-, h2⟩ | ⟨-, h2⟩
    · obtain ⟨rfl, rfl⟩ := Prod.mk.inj (Option.some.inj (h2.symm.trans hq))
      exact pos_goto_self ..
    · rw [h2] at hq
      exact absurd hq (by simp)
  · intro q hq
    by_cases e : q = p
    · subst e
      rw [pos_goto_self] at hq ⊢
      rcases h2 with ⟨-, h2⟩ | ⟨h2, -⟩
      · exact h2
      · rw [h2] at hq
        exact absurd hq (by simp)
    · rw [pos_goto_of_ne _ _ e] at hq
      exact absurd (h1 q _ (hs.inside q hq)) e

theorem Session.nonzero_goto (hs : Session h ph t) {y : MvarPos} (hy : y.nonzero = true) (p q : Nat) :
    ((t.goto p y).pos q).nonzero = true := by
  by_cases e : q = p
  · rw [e, pos_goto_self]
    exact hy
  · rw [pos_goto_of_ne _ _ e]
    exact hs.nonzero q

theorem SemReg.Has.take {P : Prop} [Decidable P] {a : Nat} {name : List Char} {code : Int} {r' : SemReg}
    (hwf : r.Wf) (hr : r.Has a name (if P then 1 else 0)) (ht : takeToken r a = some (code, r')) :
    P ∧ code = 0 ∧ r' = r.modify a takeSem := by
  obtain ⟨m, hm, -, hv⟩ := hr
  rw [takeToken_of_some hwf hm] at ht
  by_cases e : P
  · rw [if_neg (by rw [hv, if_pos e]; simp)] at ht
    obtain ⟨rfl, rfl⟩ := Prod.mk.inj (Option.some.inj ht)
    exact ⟨e, rfl, rfl⟩
  · rw [if_pos (by rw [hv, if_neg e])] at ht
    exact absurd ht (by simp)

/-! ## one step -/

/-- a value other than `0` is put; no new `mvarInit` -/
def MvarOp.plain : MvarOp → Bool
  | .put _ v => v != 0
  | .init _ _ => false
  | _ => true

theorem Session.enter (hs : Session h ph t) {y : MvarPos} (hp : t.pos p = .outside)
    (hy : y.inside = false) (hy' : y.nonzero = true) : Session h ph (t.goto p y) := by
  obtain ⟨h1, h2⟩ := hs.around (p := p) (by rw [hp]; rfl) hy
  exact ⟨hs.wf, hs.mvar, hs.empty, hs.full, h1, h2, hs.nonzero_goto hy' p, by
    cases ph <;> exact hs.books, hs.stored⟩

theorem Session.putWait (hs : Session h ph t) {v : UInt8} (hp : t.pos p = .putWait v)
    (ht : mvarStep t h p = some t') : ∃ ph', Session h ph' t' := by
  unfold mvarStep at ht
  simp only [hp] at ht
  cases htk : takeToken t.sems h.empty with
  | none => simp only [htk] at ht; exact absurd ht (by simp)
  | some x =>
    obtain ⟨code, r⟩ := x
    obtain ⟨rfl, rfl, rfl⟩ := SemReg.Has.take hs.wf hs.empty htk
    simp only [htk] at ht
    rw [if_neg (by simp)] at ht
    obtain rfl := Option.some.inj ht
    have hv : MvarPos.nonzero (.putSet v) = true := by
      have hz := hs.nonzero p
      rw [hp] at hz
      exact hz
    obtain ⟨h1, h2⟩ := hs.along p (.putSet v) (.writing p v)
      (fun q x hq => absurd hq (by simp [MvarPhase.holder])) (Or.inl ⟨rfl, rfl⟩)
    have hempty : t.sems.Has h.empty mvarSemEmptyName 1 := hs.empty
    refine ⟨.writing p v, hs.wf.modify _ fun _ => rfl, hs.mvar, ?_, ?_, h1, h2,
      hs.nonzero_goto hv p, hs.books, hs.stored⟩
    · exact hempty.here fun m hm => ⟨rfl, by show m.value - 1 = 0; omega⟩
    · exact hs.full.other hs.ne.symm

theorem Session.putSet (hs : Session h ph t) {v : UInt8} (hp : t.pos p = .putSet v)
    (ht : mvarStep t h p = some t') : ∃ ph', Session h ph' t' := by
  unfold mvarStep at ht
  simp only [hp] at ht
  obtain rfl := Option.some.inj ht
  have hh := hs.inside p (by rw [hp]; rfl)
  rw [hp] at hh
  have hph : ph = .writing p v := by
    cases ph <;> simp_all [MvarPhase.holder]
  subst hph
  have hv : v ≠ 0 := by
    have hz := hs.nonzero p
    rw [hp] at hz
    exact bne_iff_ne.mp hz
  obtain ⟨h1, h2⟩ := hs.along p (.putPost v) (.written p v)
    (fun q x hq => (Prod.mk.inj (Option.some.inj hq)).1.symm) (Or.inl ⟨rfl, rfl⟩)
  refine ⟨.written p v, hs.wf, hs.mvar, hs.empty, hs.full, h1, h2, hs.nonzero_goto rfl p, ?_, ?_⟩
  · obtain ⟨hb1, hb2⟩ := hs.books
    exact ⟨by show t.stored ++ [v] = t.got ++ [v]; rw [hb1], hb2, rfl⟩
  · intro hm
    rcases List.mem_append.mp hm with hm | hm
    · exact hs.stored hm
    · exact hv (List.mem_singleton.mp hm).symm

theorem Session.putPost (hs : Session h ph t) {v : UInt8} (hp : t.pos p = .putPost v)
    (ht : mvarStep t h p = some t') : ∃ ph', Session h ph' t' := by
  unfold mvarStep at ht
  simp only [hp] at ht
  obtain rfl := Option.some.inj ht
  have hh := hs.inside p (by rw [hp]; rfl)
  rw [hp] at hh
  have hph : ph = .written p v := by
    cases ph <;> simp_all [MvarPhase.holder]
  subst hph
  obtain ⟨h1, h2⟩ := hs.along p .outside .full
    (fun q x hq => (Prod.mk.inj (Option.some.inj hq)).1.symm) (Or.inr ⟨rfl, rfl⟩)
  have hfull : t.sems.Has h.full mvarSemFullName 0 := hs.full
  obtain ⟨m, hm, -⟩ := hs.full
  obtain ⟨hb1, hb2, hb3⟩ := hs.books
  have hg : (giveToken t.sems h.full).2 = t.sems.modify h.full addToken := by
    rw [giveToken_of_some hs.wf hm]
  rw [hg]
  refine ⟨.full, hs.wf.modify _ fun _ => rfl, hs.mvar, hs.empty.other hs.ne, ?_, h1, h2,
    hs.nonzero_goto rfl p, ⟨?_, hb2⟩, hs.stored⟩
  · exact hfull.here fun m hm => ⟨rfl, by show inc16 m.value = 1; rw [hm]; rfl⟩
  · show t.stored = t.got ++ [t.sharedMvarValue]
    rw [hb3]
    exact hb1

theorem Session.getWait (hs : Session h ph t) (hp : t.pos p = .getWait)
    (ht : mvarStep t h p = some t') : ∃ ph', Session h ph' t' := by
  unfold mvarStep at ht
  simp only [hp] at ht
  cases htk : takeToken t.sems h.full with
  | none => simp only [htk] at ht; exact absurd ht (by simp)
  | some x =>
    obtain ⟨code, r⟩ := x
    obtain ⟨rfl, rfl, rfl⟩ := SemReg.Has.take hs.wf hs.full htk
    simp only [htk] at ht
    rw [if_neg (by simp)] at ht
    obtain rfl := Option.some.inj ht
    obtain ⟨h1, h2⟩ := hs.along p .getRead (.reading p)
      (fun q x hq => absurd hq (by simp [MvarPhase.holder])) (Or.inl ⟨rfl, rfl⟩)
    have hfull : t.sems.Has h.full mvarSemFullName 1 := hs.full
    refine ⟨.reading p, hs.wf.modify _ fun _ => rfl, hs.mvar, ?_, ?_, h1, h2,
      hs.nonzero_goto rfl p, hs.books, hs.stored⟩
    · exact hs.empty.other hs.ne
    · exact hfull.here fun m hm => ⟨rfl, by show m.value - 1 = 0; omega⟩

theorem Session.getRead (hs : Session h ph t) (hp : t.pos p = .getRead)
    (ht : mvarStep t h p = some t') : ∃ ph', Session h ph' t' := by
  unfold mvarStep at ht
  simp only [hp] at ht
  obtain rfl := Option.some.inj ht
  have hh := hs.inside p (by rw [hp]; rfl)
  rw [hp] at hh
  have hph : ph = .reading p := by
    cases ph <;> simp_all [MvarPhase.holder]
  subst hph
  obtain ⟨h1, h2⟩ := hs.along p (.getClear t.sharedMvarValue)
    (.clearing p t.sharedMvarValue)
    (fun q x hq => (Prod.mk.inj (Option.some.inj hq)).1.symm) (Or.inl ⟨rfl, rfl⟩)
  obtain ⟨hb1, hb2⟩ := hs.books
  refine ⟨.clearing p t.sharedMvarValue, hs.wf, hs.mvar, hs.empty, hs.full, h1, h2,
    hs.nonzero_goto rfl p, ⟨hb1, ?_⟩, hs.stored⟩
  show t.got ++ [t.sharedMvarValue] = t.returned ++ [t.sharedMvarValue]
  rw [hb2]

theorem Session.getClear (hs : Session h ph t) {v : UInt8} (hp : t.pos p = .getClear v)
    (ht : mvarStep t h p = some t') : ∃ ph', Session h ph' t' := by
  unfold mvarStep at ht
  simp only [hp] at ht
  obtain rfl := Option.some.inj ht
  have hh := hs.inside p (by rw [hp]; rfl)
  rw [hp] at hh
  have hph : ph = .clearing p v := by
    cases ph <;> simp_all [MvarPhase.holder]
  subst hph
  obtain ⟨h1, h2⟩ := hs.along p (.getPost v) (.cleared p v)
    (fun q x hq => (Prod.mk.inj (Option.some.inj hq)).1.symm) (Or.inl ⟨rfl, rfl⟩)
  exact ⟨.cleared p v, hs.wf, hs.mvar, hs.empty, hs.full, h1, h2, hs.nonzero_goto rfl p, hs.books,
    hs.stored⟩

theorem Session.getPost (hs : Session h ph t) {v : UInt8} (hp : t.pos p = .getPost v)
    (ht : mvarStep t h p = some t') : ∃ ph', Session h ph' t' := by
  have hh := hs.inside p (by rw [hp]; rfl)
  rw [hp] at hh
  have hph : ph = .cleared p v := by
    cases ph <;> simp_all [MvarPhase.holder]
  subst hph
  have hempty : t.sems.Has h.empty mvarSemEmptyName 0 := hs.empty
  obtain ⟨m, hm, -⟩ := hs.empty
  unfold mvarStep at ht
  simp only [hp, giveToken_of_some hs.wf hm] at ht
  rw [if_neg (by simp)] at ht
  obtain rfl := Option.some.inj ht
  obtain ⟨h1, h2⟩ := hs.along p .outside .free
    (fun q x hq => (Prod.mk.inj (Option.some.inj hq)).1.symm) (Or.inr ⟨rfl, rfl⟩)
  obtain ⟨hb1, hb2⟩ := hs.books
  refine ⟨.free, hs.wf.modify _ fun _ => rfl, hs.mvar, ?_, hs.full.other hs.ne.symm, h1, h2,
    hs.nonzero_goto rfl p, ⟨hb1, hb2⟩, hs.stored⟩
  exact hempty.here fun m hm => ⟨rfl, by show inc16 m.value = 1; rw [hm]; rfl⟩

/-- **One step.** -/
theorem session_step (o : MvarOp) (t t' : MvarSys) (hs : ∃ ph, Session h ph t) (ho : o.plain = true)
    (ht : execMvar o t = some t') : ∃ ph, Session h ph t' := by
  obtain ⟨ph, hs⟩ := hs
  cases o with
  | init readers writers => exact absurd ho (by simp [MvarOp.plain])
  | put p v =>
    by_cases hp : t.pos p = .outside
    · have he : execMvar (.put p v) t = some (t.goto p (.putWait v)) := by
        simp only [execMvar, if_pos hp, hs.mvar]
      obtain rfl := Option.some.inj (he.symm.trans ht)
      exact ⟨ph, hs.enter hp rfl ho⟩
    · exact absurd ((if_neg hp).symm.trans ht) (by simp)
  | get p =>
    by_cases hp : t.pos p = .outside
    · have he : execMvar (.get p) t = some (t.goto p .getWait) := by
        simp only [execMvar, if_pos hp, hs.mvar]
      obtain rfl := Option.some.inj (he.symm.trans ht)
      exact ⟨ph, hs.enter hp rfl rfl⟩
    · exact absurd ((if_neg hp).symm.trans ht) (by simp)
  | step p =>
    have he : mvarStep t h p = some t' := by
      have ht' : (t.mvar.bind fun h => mvarStep t h p) = some t' := ht
      rw [hs.mvar] at ht'
      exact ht'
    cases hp : t.pos p with
    | outside =>
      unfold mvarStep at he
      simp only [hp] at he
      exact absurd he (by simp)
    | putWait v => exact hs.putWait hp he
    | putSet v => exact hs.putSet hp he
    | putPost v => exact hs.putPost hp he
    | getWait => exact hs.getWait hp he
    | getRead => exact hs.getRead hp he
    | getClear v => exact hs.getClear hp he
    | getPost v => exact hs.getPost hp he

/-! ## the records -/

theorem Session.delivered (hs : Session h ph t) :
    t.got <+: t.stored ∧ t.stored.length ≤ t.got.length + 1 ∧ t.returned <+: t.got ∧
      0 ∉ t.got ∧ 0 ∉ t.returned := by
  have hpre : t.got <+: t.stored ∧ t.stored.length ≤ t.got.length + 1 ∧ t.returned <+: t.got := by
    have hb := hs.books
    cases ph with
    | free =>
      obtain ⟨h1, h2⟩ := hb
      rw [h1, ← h2]
      exact ⟨List.prefix_refl _, Nat.le_succ _, List.prefix_refl _⟩
    | writing p v =>
      obtain ⟨h1, h2⟩ := hb
      rw [h1, ← h2]
      exact ⟨List.prefix_refl _, Nat.le_succ _, List.prefix_refl _⟩
    | written p v =>
      obtain ⟨h1, h2, -⟩ := hb
      rw [h1, ← h2, List.length_append]
      exact ⟨List.prefix_append _ _, Nat.le_refl _, List.prefix_refl _⟩
    | full =>
      obtain ⟨h1, h2⟩ := hb
      rw [h1, ← h2, List.length_append]
      exact ⟨List.prefix_append _ _, Nat.le_refl _, List.prefix_refl _⟩
    | reading p =>
      obtain ⟨h1, h2⟩ := hb
      rw [h1, ← h2, List.length_append]
      exact ⟨List.prefix_append _ _, Nat.le_refl _, List.prefix_refl _⟩
    | clearing p v =>
      obtain ⟨h1, h2⟩ := hb
      rw [h1]
      exact ⟨List.prefix_refl _, Nat.le_succ _, by rw [h2]; exact List.prefix_append _ _⟩
    | cleared p v =>
      obtain ⟨h1, h2⟩ := hb
      rw [h1]
      exact ⟨List.prefix_refl _, Nat.le_succ _, by rw [h2]; exact List.prefix_append _ _⟩
  obtain ⟨h1, h2, h3⟩ := hpre
  have hgot : 0 ∉ t.got := fun hm => hs.stored (h1.subset hm)
  exact ⟨h1, h2, h3, hgot, fun hm => hgot (h3.subset hm)⟩

theorem mvarInit_eq {t : MvarSys} {readers writers : Int} {e f : Nat} {r₁ r₂ : SemReg}
    (hreaders : 0 < readers) (hwriters : 0 < writers)
    (he : semOpen t.sems mvarSemEmptyName 1 = (some e, r₁))
    (hf : semOpen r₁ mvarSemFullName 0 = (some f, r₂)) :
    mvarInit t readers writers
      = (0, { t.setMvarValue 0 with sems := r₂, mvar := some { empty := e, full := f } }) := by
  have he' : semOpen (t.setMvarValue 0).sems mvarSemEmptyName 1 = (some e, r₁) := he
  unfold mvarInit
  rw [if_neg (by omega)]
  simp only [he', hf]

/-- **The first `mvarInit`**, with neither name in the registry. -/
theorem session_init (value : UInt8) {readers writers : Int} (hr : r.Wf)
    (he : locateSemaphoreByName r mvarSemEmptyName = none)
    (hf : locateSemaphoreByName r mvarSemFullName = none) (hreaders : 0 < readers)
    (hwriters : 0 < writers) :
    ∃ h, Session h .free (mvarInit (.start r value) readers writers).2 := by
  have hwf := hr.add (m := SemReg.fresh mvarSemEmptyName 1) fun a n hn => hr.locate_none he hn
  have hf' : locateSemaphoreByName (r.add (SemReg.fresh mvarSemEmptyName 1)) mvarSemFullName = none := by
    cases hl : locateSemaphoreByName (r.add (SemReg.fresh mvarSemEmptyName 1)) mvarSemFullName with
    | none => rfl
    | some a =>
      obtain ⟨m, hm, hn⟩ := SemReg.locate_some hl
      rcases SemReg.add_heap hm with ⟨-, rfl⟩ | ⟨-, hm⟩
      · exact absurd hn (by decide)
      · exact absurd hn (hr.locate_none hf hm)
  have hlt : r.next ≠ r.next + 1 := by omega
  have hinit : (mvarInit (.start r value) readers writers).2 = { MvarSys.start r 0 with
      sems := (r.add (SemReg.fresh mvarSemEmptyName 1)).add (SemReg.fresh mvarSemFullName 0)
      mvar := some { empty := r.next, full := r.next + 1 } } := by
    rw [mvarInit_eq hreaders hwriters (SemReg.semOpen_new (by decide) he)
      (SemReg.semOpen_new (by decide) hf')]
    rfl
  rw [hinit]
  refine ⟨{ empty := r.next, full := r.next + 1 }, hwf.add fun a n hn => hwf.locate_none hf' hn, rfl,
    ?_, ?_, fun p x hp => absurd hp (by simp [MvarPhase.holder]),
    fun p (hp : MvarPos.inside .outside = true) => absurd hp Bool.false_ne_true,
    fun p => rfl, ⟨rfl, rfl⟩, List.not_mem_nil⟩
  · refine ⟨SemReg.fresh mvarSemEmptyName 1, ?_, rfl, rfl⟩
    exact (Function.update_of_ne hlt ..).trans (Function.update_self ..)
  · exact ⟨SemReg.fresh mvarSemFullName 0, Function.update_self .., rfl, rfl⟩

/-- **Every value is delivered exactly once.**  After one `mvarInit`, in any interleaving of the calls
of any processes: the values read, in the order they are read, are a prefix of the values stored, in
the order they are stored, at most one value is still to be read, and `mvarGet` does not return `0`. -/
theorem exactly_once {value : UInt8} {readers writers : Int} {os : List MvarOp} (hr : r.Wf)
    (he : locateSemaphoreByName r mvarSemEmptyName = none)
    (hf : locateSemaphoreByName r mvarSemFullName = none) (hreaders : 0 < readers)
    (hwriters : 0 < writers)
    (hrun : Runs execMvar (fun o _ => o.plain = true) os
      (mvarInit (.start r value) readers writers).2 t) :
    t.got <+: t.stored ∧ t.stored.length ≤ t.got.length + 1 ∧ t.returned <+: t.got ∧
      0 ∉ t.got ∧ 0 ∉ t.returned := by
  obtain ⟨h, hs⟩ := session_init value hr he hf hreaders hwriters
  obtain ⟨ph, hs⟩ := hrun.inv (I := fun t => ∃ ph, Session h ph t) session_step ⟨.free, hs⟩
  exact hs.delivered

/-- a writer puts two values, the second one waits until a reader has the first -/
def twoPuts : List MvarOp :=
  [.put 0 65, .step 0, .step 0, .step 0, .put 0 66, .get 1, .step 1, .step 1, .step 1, .step 1,
    .step 0, .step 0]

theorem exactly_once_twoPuts : ∃ t,
    Runs execMvar (fun o _ => o.plain = true) twoPuts
      (mvarInit (.start initSemQueue 7) 1 1).2 t ∧
    t.got <+: t.stored ∧ t.stored.length ≤ t.got.length + 1 ∧ t.returned <+: t.got ∧
      0 ∉ t.got ∧ 0 ∉ t.returned := by
  have hrun : (runIf execMvar (fun o _ => o.plain) twoPuts
      (mvarInit (.start initSemQueue 7) 1 1).2).isSome = true := by decide +kernel
  obtain ⟨t, ht⟩ := Option.isSome_iff_exists.mp hrun
  have hr := runs_of_runIf ht
  exact ⟨t, hr, exactly_once SemReg.wf_init rfl rfl (by decide) (by decide) hr⟩

end

end Tp2So
