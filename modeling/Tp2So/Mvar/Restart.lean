import Tp2So.Mvar.Session

/-!
# A second `mvarInit`

`mvarInit` finds the two semaphores open and leaves their values as they are, but it clears the byte.

* `mvarInit_again`    what it does to a session;
* `MvarSys.Kept`      the byte is the value last put whenever a reader may read it, and nothing is
                      lost;
* `MvarSys.Drained`   no value is on its way from a writer to a reader;
* `restart_iff`       after a further `mvarInit` the session is kept for ever if and only if no value
                      was on its way.
-/

set_option linter.unusedVariables false

namespace Tp2So

/-- whenever `full` has a token, or a reader has been granted it and has not read yet, the byte is the
value last put, and not `0`; what is read is what was stored, in that order -/
structure MvarSys.Kept (t : MvarSys) : Prop where
  byte : ∀ h, t.mvar = some h →
    ((∃ m, t.sems.heap h.full = some m ∧ 0 < m.value) ∨ ∃ p, t.pos p = .getRead) →
    t.sharedMvarValue ≠ 0 ∧ t.stored.getLast? = some t.sharedMvarValue
  order : t.got <+: t.stored
  nonzero : 0 ∉ t.got

/-- no token in `full`, no reader before its read, no writer between its store and its post -/
def MvarSys.Drained (t : MvarSys) : Prop :=
  (∀ h m, t.mvar = some h → t.sems.heap h.full = some m → m.value = 0) ∧
    ∀ p, t.pos p ≠ .getRead ∧ ∀ v, t.pos p ≠ .putPost v

/-- as `plain`, but for a new `mvarInit` when no value is on its way -/
def MvarOp.orderly : MvarOp → MvarSys → Prop
  | .init _ _, t => t.Drained
  | o, _ => o.plain = true

section
variable {h : MvarHandles} {ph : MvarPhase} {t t' : MvarSys} {r : SemReg} {readers writers : Int}

/-! ## what it does -/

/-- the phases in which no value is on its way -/
def MvarPhase.drained : MvarPhase → Bool
  | .written _ _ | .full | .reading _ => false
  | _ => true

theorem wf_moreUsers (hr : r.Wf) (a : Nat) : (r.modify a SemReg.moreUsers).Wf :=
  hr.modify a fun m => (SemReg.alike_moreUsers m).1

theorem mvarInit_refused (hn : readers ≤ 0 ∨ writers ≤ 0) : (mvarInit t readers writers).2 = t := by
  unfold mvarInit
  rw [if_pos hn]

theorem Session.locate_empty (hs : Session h ph t) :
    locateSemaphoreByName t.sems mvarSemEmptyName = some h.empty := by
  obtain ⟨m, hm, hn, -⟩ := hs.empty
  rw [← hn]
  exact hs.wf.locate hm

theorem Session.locate_full (hs : Session h ph t) :
    locateSemaphoreByName (t.sems.modify h.empty SemReg.moreUsers) mvarSemFullName = some h.full := by
  obtain ⟨m, hm, hn, -⟩ := hs.full.other (f := SemReg.moreUsers) hs.ne.symm
  rw [← hn]
  exact (wf_moreUsers hs.wf _).locate hm

/-- one more user of both semaphores, and the byte is `0` -/
def MvarSys.restarted (t : MvarSys) (h : MvarHandles) : MvarSys :=
  { t with
    sharedMvarValue := 0
    sems := (t.sems.modify h.empty SemReg.moreUsers).modify h.full SemReg.moreUsers }

theorem mvarInit_again (hs : Session h ph t) (hreaders : 0 < readers) (hwriters : 0 < writers) :
    (mvarInit t readers writers).2 = t.restarted h := by
  rw [mvarInit_eq hreaders hwriters (SemReg.semOpen_found (by decide) hs.locate_empty)
    (SemReg.semOpen_found (by decide) hs.locate_full)]
  unfold MvarSys.restarted
  rw [hs.mvar]
  rfl

/-- with no value on its way the byte does not matter -/
theorem Session.again (hs : Session h ph t) (hd : ph.drained = true) :
    Session h ph (t.restarted h) := by
  have hkeep : ∀ {m : Sem} {v : Nat}, m.value = v →
      (SemReg.moreUsers m).name = m.name ∧ (SemReg.moreUsers m).value = v := fun hv => ⟨rfl, hv⟩
  refine ⟨wf_moreUsers (wf_moreUsers hs.wf _) _, hs.mvar, ?_, ?_, hs.holder, hs.inside,
    hs.nonzero, ?_, hs.stored⟩
  · exact (hs.empty.here fun m => hkeep).other hs.ne
  · exact (hs.full.other hs.ne.symm).here fun m => hkeep
  · cases ph with
    | written p v => exact absurd hd (by simp [MvarPhase.drained])
    | full => exact absurd hd (by simp [MvarPhase.drained])
    | reading p => exact absurd hd (by simp [MvarPhase.drained])
    | _ => exact hs.books

/-! ## what a session says -/

theorem Session.kept (hs : Session h ph t) : t.Kept := by
  obtain ⟨h1, -, -, h2, -⟩ := hs.delivered
  refine ⟨fun h' hm hfull => ?_, h1, h2⟩
  obtain rfl := Option.some.inj (hs.mvar.symm.trans hm)
  have hph : ph = .full ∨ ∃ p, ph = .reading p := by
    rcases hfull with ⟨m, hm, hpos⟩ | ⟨p, hp⟩
    · obtain ⟨m', hm', -, hv⟩ := hs.full
      obtain rfl := Option.some.inj (hm.symm.trans hm')
      by_cases e : ph = .full
      · exact Or.inl e
      · rw [hv, if_neg e] at hpos
        exact absurd hpos (Nat.lt_irrefl 0)
    · have hh := hs.inside p (by rw [hp]; rfl)
      rw [hp] at hh
      refine Or.inr ⟨p, ?_⟩
      cases ph <;> simp_all [MvarPhase.holder]
  have hb : t.stored = t.got ++ [t.sharedMvarValue] := by
    rcases hph with rfl | ⟨p, rfl⟩
    · exact hs.books.1
    · exact hs.books.1
  constructor
  · intro hz
    apply hs.stored
    rw [hb, hz]
    exact List.mem_append_right _ (List.mem_singleton_self 0)
  · rw [hb]
    exact List.getLast?_concat

theorem Session.drained_iff (hs : Session h ph t) : t.Drained ↔ ph.drained = true := by
  constructor
  · intro ⟨hfull, hpos⟩
    cases ph with
    | full =>
      obtain ⟨m, hm, -, hv⟩ := hs.full
      have hz := hfull h m hs.mvar hm
      rw [hv] at hz
      exact absurd hz (by simp)
    | reading p => exact absurd (hs.holder p _ rfl) (hpos p).1
    | written p v => exact absurd (hs.holder p _ rfl) ((hpos p).2 v)
    | _ => rfl
  · intro hd
    refine ⟨fun h' m hmv hm => ?_, fun p => ⟨fun hp => ?_, fun v hp => ?_⟩⟩
    · obtain rfl := Option.some.inj (hs.mvar.symm.trans hmv)
      obtain ⟨m', hm', -, hv⟩ := hs.full
      obtain rfl := Option.some.inj (hm.symm.trans hm')
      rw [hv]
      apply if_neg
      intro e
      rw [e] at hd
      exact absurd hd (by simp [MvarPhase.drained])
    · have hh := hs.inside p (by rw [hp]; rfl)
      rw [hp] at hh
      cases ph <;> simp_all [MvarPhase.holder, MvarPhase.drained]
    · have hh := hs.inside p (by rw [hp]; rfl)
      rw [hp] at hh
      cases ph <;> simp_all [MvarPhase.holder, MvarPhase.drained]

/-! ## a value on its way is lost -/

/-- the byte is `0` although a reader may read it -/
theorem not_kept (hmv : t.mvar = some h)
    (hfull : (∃ m, t.sems.heap h.full = some m ∧ 0 < m.value) ∨ ∃ p, t.pos p = .getRead)
    (hz : t.sharedMvarValue = 0) : ¬ t.Kept := fun hk => (hk.byte h hmv hfull).1 hz

theorem Session.broken (hs : Session h ph t) (hd : ¬ ph.drained = true) :
    ∃ os t', Runs execMvar (fun o _ => o.plain = true) os (t.restarted h) t' ∧ ¬ t'.Kept := by
  have hfull := (hs.full.other (f := SemReg.moreUsers) hs.ne.symm).here
    (f := SemReg.moreUsers) fun m hv => ⟨rfl, hv⟩
  cases ph with
  | free => exact absurd rfl hd
  | writing p v => exact absurd rfl hd
  | clearing p v => exact absurd rfl hd
  | cleared p v => exact absurd rfl hd
  | full =>
    obtain ⟨m, hm, -, hv⟩ := hfull
    exact ⟨[], _, rfl, not_kept hs.mvar (Or.inl ⟨m, hm, by rw [hv]; exact Nat.one_pos⟩) rfl⟩
  | reading p => exact ⟨[], _, rfl, not_kept hs.mvar (Or.inr ⟨p, hs.holder p _ rfl⟩) rfl⟩
  | written p v =>
    -- the writer makes its post
    obtain ⟨m, hm, -, hv⟩ := hfull
    have hwf := wf_moreUsers (wf_moreUsers hs.wf h.empty) h.full
    have hp : t.pos p = .putPost v := hs.holder p _ rfl
    have hstep : execMvar (.step p) (t.restarted h) = some
        ({ t.restarted h with sems := (t.restarted h).sems.modify h.full addToken }.goto p .outside) := by
      show (t.mvar.bind fun h' => mvarStep (t.restarted h) h' p) = _
      rw [hs.mvar, Option.bind_some]
      unfold mvarStep
      rw [show (t.restarted h).pos p = .putPost v from hp]
      show some ({ t.restarted h with sems := (giveToken (t.restarted h).sems h.full).2 }.goto p _) = _
      rw [giveToken_of_some (r := (t.restarted h).sems) hwf hm]
    refine ⟨[.step p], _, ⟨rfl, _, hstep, rfl⟩, ?_⟩
    refine not_kept (h := h) hs.mvar (Or.inl ⟨addToken m, ?_, ?_⟩) rfl
    · show heapMod (t.restarted h).sems.heap h.full addToken h.full = _
      rw [heapMod_self, show (t.restarted h).sems.heap h.full = some m from hm]
      rfl
    · show 0 < inc16 m.value
      rw [hv]
      exact Nat.one_pos

/-! ## runs -/

theorem session_orderly (o : MvarOp) (t t' : MvarSys) (hs : ∃ ph, Session h ph t) (ho : o.orderly t)
    (ht : execMvar o t = some t') : ∃ ph, Session h ph t' := by
  cases o with
  | init readers writers =>
    obtain ⟨ph, hs⟩ := hs
    obtain rfl := Option.some.inj ht
    by_cases hn : readers ≤ 0 ∨ writers ≤ 0
    · rw [mvarInit_refused hn]
      exact ⟨ph, hs⟩
    · rw [mvarInit_again hs (by omega) (by omega)]
      exact ⟨ph, hs.again (hs.drained_iff.mp ho)⟩
  | put p v => exact session_step _ t t' hs ho ht
  | get p => exact session_step _ t t' hs ho ht
  | step p => exact session_step _ t t' hs ho ht

theorem orderly_of_plain (o : MvarOp) (t : MvarSys) (ho : o.plain = true) : o.orderly t := by
  cases o with
  | init readers writers => exact absurd ho (by simp [MvarOp.plain])
  | put p v => exact ho
  | get p => exact ho
  | step p => exact ho

/-- **Starting the command again.**  In every run in which `mvarInit` is only called with no value on
its way the session is kept; and when it is called once more, the session is kept in everything that
follows if and only if no value was on its way. -/
theorem restart_iff {value : UInt8} {os : List MvarOp} (hr : r.Wf)
    (he : locateSemaphoreByName r mvarSemEmptyName = none)
    (hf : locateSemaphoreByName r mvarSemFullName = none) (hreaders : 0 < readers)
    (hwriters : 0 < writers)
    (hrun : Runs execMvar MvarOp.orderly os (mvarInit (.start r value) readers writers).2 t) :
    t.Kept ∧ ∀ readers' writers' : Int, 0 < readers' → 0 < writers' →
      ((∀ os' t', Runs execMvar (fun o _ => o.plain = true) os'
        (mvarInit t readers' writers').2 t' → t'.Kept) ↔ t.Drained) := by
  obtain ⟨h, hs⟩ := session_init value hr he hf hreaders hwriters
  obtain ⟨ph, hs⟩ := hrun.inv (I := fun t => ∃ ph, Session h ph t) session_orderly ⟨.free, hs⟩
  refine ⟨hs.kept, fun readers' writers' hr' hw' => ?_⟩
  rw [mvarInit_again hs hr' hw', hs.drained_iff]
  constructor
  · intro hall
    by_contra hd
    obtain ⟨os', t', hrun', hnot⟩ := hs.broken hd
    exact hnot (hall os' t' hrun')
  · intro hd os' t' hrun'
    obtain ⟨ph', hs'⟩ := hrun'.inv (I := fun t => ∃ ph, Session h ph t) session_step
      ⟨ph, hs.again hd⟩
    exact hs'.kept

/-- a value is put and read, the command is started again, another value is put -/
def putGetPut : List MvarOp :=
  [.put 0 65, .step 0, .step 0, .step 0, .get 1, .step 1, .step 1, .step 1, .step 1, .put 0 66,
    .step 0, .step 0, .step 0]

theorem restart_iff_putGetPut : ∃ t,
    Runs execMvar MvarOp.orderly putGetPut (mvarInit (.start initSemQueue 7) 1 1).2 t ∧
    t.Kept ∧ ∀ readers' writers' : Int, 0 < readers' → 0 < writers' →
      ((∀ os' t', Runs execMvar (fun o _ => o.plain = true) os'
        (mvarInit t readers' writers').2 t' → t'.Kept) ↔ t.Drained) := by
  have hrun : (runIf execMvar (fun o _ => o.plain) putGetPut
      (mvarInit (.start initSemQueue 7) 1 1).2).isSome = true := by decide +kernel
  obtain ⟨t, ht⟩ := Option.isSome_iff_exists.mp hrun
  have hr := (runs_of_runIf ht).mono orderly_of_plain
  exact ⟨t, hr, restart_iff SemReg.wf_init rfl rfl (by decide) (by decide) hr⟩

/-- `mvar` is started again when a value has been put and not read: the reader gets `0` -/
theorem restart_loses : ∃ t t',
    run execMvar [.put 0 65, .step 0, .step 0, .step 0] (mvarInit (.start initSemQueue 7) 1 1).2
      = some t ∧
    run execMvar [.get 1, .step 1, .step 1, .step 1, .step 1] (mvarInit t 1 1).2 = some t' ∧
    t'.stored = [65] ∧ t'.returned = [0] ∧ t.Kept ∧ ¬ (mvarInit t 1 1).2.Kept := by
  have hrun : ((run execMvar [.put 0 65, .step 0, .step 0, .step 0]
      (mvarInit (.start initSemQueue 7) 1 1).2).bind fun t =>
        (run execMvar [.get 1, .step 1, .step 1, .step 1, .step 1] (mvarInit t 1 1).2).map fun t' =>
          (t'.stored, t'.returned, (mvarInit t 1 1).2.mvar.map fun h =>
            ((mvarInit t 1 1).2.sems.heap h.full).map fun m => (m.value,
              (mvarInit t 1 1).2.sharedMvarValue)))
      = some ([65], [0], some (some (1, 0))) := by decide +kernel
  obtain ⟨t, ht, hmap⟩ := Option.bind_eq_some_iff.mp hrun
  obtain ⟨t', ht', hv⟩ := Option.map_eq_some_iff.mp hmap
  obtain ⟨hst, hret, hfull⟩ := Prod.mk.inj hv |>.imp_right Prod.mk.inj
  obtain ⟨h, hmv, hm⟩ := Option.map_eq_some_iff.mp hfull
  obtain ⟨m, hm, hval⟩ := Option.map_eq_some_iff.mp hm
  obtain ⟨hone, hz⟩ := Prod.mk.inj hval
  have hinit : ∃ h, Session h .free (mvarInit (.start initSemQueue 7) 1 1).2 :=
    session_init 7 SemReg.wf_init rfl rfl (by decide) (by decide)
  obtain ⟨h', hs⟩ := hinit
  have hplain : (runIf execMvar (fun o _ => o.plain) [.put 0 65, .step 0, .step 0, .step 0]
      (mvarInit (.start initSemQueue 7) 1 1).2).isSome = true := by decide +kernel
  obtain ⟨u, hu⟩ := Option.isSome_iff_exists.mp hplain
  have hr := runs_of_runIf hu
  obtain rfl := Option.some.inj (hr.run_eq.symm.trans ht)
  obtain ⟨ph, hs⟩ := hr.inv (I := fun t => ∃ ph, Session h' ph t) session_step ⟨.free, hs⟩
  exact ⟨u, t', ht, ht', hst, hret, hs.kept,
    not_kept hmv (Or.inl ⟨m, hm, by rw [hone]; exact Nat.one_pos⟩) hz⟩

end

end Tp2So
