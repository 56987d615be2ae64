import Tp2So.Mvar.Session

/-!
# An MVar does not deadlock

The one token is in a semaphore, and then a process that waits for that semaphore can take it, or with
a process that is past its wait, and then that process can go on.

* `takeToken_one`    a wait on a semaphore with a token;
* `holder_step`      the process with the token can make its next call;
* `mvar_progress`    when nobody can make a call, only writers wait and one value is to be read, or
                     only readers wait and every value has been read.
-/

set_option linter.unusedVariables false

namespace Tp2So

section
variable {h : MvarHandles} {ph : MvarPhase} {t : MvarSys} {p q : Nat} {r : SemReg}

/-- the next call of `p` can be made -/
def MvarSys.enabled (t : MvarSys) (p : Nat) : Prop := (execMvar (.step p) t).isSome = true

theorem Session.enabled_iff (hs : Session h ph t) : t.enabled p ↔ (mvarStep t h p).isSome = true := by
  have he : execMvar (.step p) t = t.mvar.bind fun h => mvarStep t h p := rfl
  unfold MvarSys.enabled
  rw [he, hs.mvar]
  exact Iff.rfl

theorem takeToken_one {a : Nat} {name : List Char} (hwf : r.Wf) (hr : r.Has a name 1) :
    takeToken r a = some (0, r.modify a takeSem) := by
  obtain ⟨m, hm, -, hv⟩ := hr
  rw [takeToken_of_some hwf hm, if_neg]
  rw [hv]
  exact Nat.one_ne_zero

/-- a process that is past its wait is not held up -/
theorem Session.holder_step (hs : Session h ph t) {x : MvarPos} (hh : ph.holder = some (p, x)) :
    t.enabled p := by
  rw [hs.enabled_iff]
  have hpos := hs.holder p x hh
  unfold mvarStep
  rw [hpos]
  cases ph with
  | free => exact absurd hh (by simp [MvarPhase.holder])
  | full => exact absurd hh (by simp [MvarPhase.holder])
  | writing p' v =>
    obtain ⟨-, rfl⟩ := Prod.mk.inj (Option.some.inj hh)
    rfl
  | written p' v =>
    obtain ⟨-, rfl⟩ := Prod.mk.inj (Option.some.inj hh)
    rfl
  | reading p' =>
    obtain ⟨-, rfl⟩ := Prod.mk.inj (Option.some.inj hh)
    rfl
  | clearing p' v =>
    obtain ⟨-, rfl⟩ := Prod.mk.inj (Option.some.inj hh)
    rfl
  | cleared p' v =>
    obtain ⟨-, rfl⟩ := Prod.mk.inj (Option.some.inj hh)
    simp only
    split <;> rfl

theorem Session.put_enabled (hs : Session h .free t) {v : UInt8} (hp : t.pos p = .putWait v) :
    t.enabled p := by
  have htake := takeToken_one hs.wf hs.empty
  rw [hs.enabled_iff]
  unfold mvarStep
  simp only [hp, htake]
  split <;> rfl

theorem Session.get_enabled (hs : Session h .full t) (hp : t.pos p = .getWait) : t.enabled p := by
  have htake := takeToken_one hs.wf hs.full
  rw [hs.enabled_iff]
  unfold mvarStep
  simp only [hp, htake]
  split <;> rfl

/-- nobody has the token: everybody is outside or waits -/
theorem Session.waiting (hs : Session h ph t) (hnone : ph.holder = none) (p : Nat) :
    t.pos p = .outside ∨ (∃ v, t.pos p = .putWait v) ∨ t.pos p = .getWait := by
  have hout : (t.pos p).inside ≠ true := by
    intro hin
    have hh := hs.inside p hin
    rw [hnone] at hh
    exact absurd hh (by simp)
  cases hp : t.pos p with
  | outside => exact Or.inl rfl
  | putWait v => exact Or.inr (Or.inl ⟨v, rfl⟩)
  | getWait => exact Or.inr (Or.inr rfl)
  | putSet v => exact absurd (by rw [hp]; rfl) hout
  | putPost v => exact absurd (by rw [hp]; rfl) hout
  | getRead => exact absurd (by rw [hp]; rfl) hout
  | getClear v => exact absurd (by rw [hp]; rfl) hout
  | getPost v => exact absurd (by rw [hp]; rfl) hout

/-- the states in which nobody can go on -/
theorem Session.stuck (hs : Session h ph t) (hno : ∀ p, ¬ t.enabled p) :
    ((∀ p, t.pos p = .outside ∨ ∃ v, t.pos p = .putWait v) ∧
        t.stored = t.got ++ [t.sharedMvarValue]) ∨
      ((∀ p, t.pos p = .outside ∨ t.pos p = .getWait) ∧ t.stored = t.got) := by
  cases hh : ph.holder with
  | some x =>
    obtain ⟨p, x⟩ := x
    exact absurd (hs.holder_step hh) (hno p)
  | none =>
    have hwait := hs.waiting hh
    cases ph with
    | free =>
      refine Or.inr ⟨fun p => ?_, hs.books.1⟩
      rcases hwait p with hp | ⟨v, hp⟩ | hp
      · exact Or.inl hp
      · exact absurd (hs.put_enabled hp) (hno p)
      · exact Or.inr hp
    | full =>
      refine Or.inl ⟨fun p => ?_, hs.books.1⟩
      rcases hwait p with hp | hp | hp
      · exact Or.inl hp
      · exact Or.inr hp
      · exact absurd (hs.get_enabled hp) (hno p)
    | _ => exact absurd hh (by simp [MvarPhase.holder])

/-- **No deadlock.**  In every state of a session, with any writers and readers in any of their calls:
if nobody can make the next call, then only writers wait, for the one value stored and not yet read,
or only readers wait, and every value stored has been read.  So while a writer and a reader wait,
somebody can go on. -/
theorem mvar_progress {value : UInt8} {readers writers : Int} {os : List MvarOp} (hr : r.Wf)
    (he : locateSemaphoreByName r mvarSemEmptyName = none)
    (hf : locateSemaphoreByName r mvarSemFullName = none) (hreaders : 0 < readers)
    (hwriters : 0 < writers)
    (hrun : Runs execMvar (fun o _ => o.plain = true) os
      (mvarInit (.start r value) readers writers).2 t) (hno : ∀ p, ¬ t.enabled p) :
    ((∀ p, t.pos p = .outside ∨ ∃ v, t.pos p = .putWait v) ∧
        t.stored = t.got ++ [t.sharedMvarValue]) ∨
      ((∀ p, t.pos p = .outside ∨ t.pos p = .getWait) ∧ t.stored = t.got) := by
  obtain ⟨h, hs⟩ := session_init value hr he hf hreaders hwriters
  obtain ⟨ph, hs⟩ := hrun.inv (I := fun t => ∃ ph, Session h ph t) session_step ⟨.free, hs⟩
  exact hs.stuck hno

end

/-- two writers: `1` stores `9` and returns, `2` comes second and waits -/
def storedOne : List MvarOp := [.put 1 9, .put 2 5, .step 1, .step 1, .step 1]

/-- a value is stored, and the second writer waits for somebody to read it -/
theorem mvar_progress_full : ∃ t,
    Runs execMvar (fun o _ => o.plain = true) storedOne (mvarInit (.start initSemQueue 7) 2 1).2 t ∧
    t.pos 2 = .putWait 5 ∧ t.stored = [9] ∧ t.stored = t.got ++ [t.sharedMvarValue] := by
  have hrun : (runIf execMvar (fun o _ => o.plain) storedOne
      (mvarInit (.start initSemQueue 7) 2 1).2).map
        (fun t => (t.stored, t.pos 2, (execMvar (.step 2) t).isSome))
      = some ([9], .putWait 5, false) := by decide +kernel
  have hpos : (runIf execMvar (fun o _ => o.plain) storedOne
      (mvarInit (.start initSemQueue 7) 2 1).2).map MvarSys.pos
      = some (Function.update (Function.update (Function.update (Function.update (Function.update
          (fun _ => .outside) 1 (.putWait 9)) 2 (.putWait 5)) 1 (.putSet 9)) 1 (.putPost 9)) 1
          .outside) := rfl
  obtain ⟨t, ht, hv⟩ := Option.map_eq_some_iff.mp hrun
  rw [ht] at hpos
  simp only [Prod.mk.injEq] at hv
  obtain ⟨hstored, hwriter, hheld⟩ := hv
  have hothers : ∀ p, p ≠ 2 → t.pos p = .outside := by
    intro p hne
    rw [Option.some.inj hpos]
    by_cases e : p = 1
    · rw [e, Function.update_self]
    · rw [Function.update_of_ne e, Function.update_of_ne e, Function.update_of_ne e,
        Function.update_of_ne hne, Function.update_of_ne e]
  have hno : ∀ p, ¬ t.enabled p := by
    intro p
    unfold MvarSys.enabled
    by_cases e : p = 2
    · rw [e, hheld]
      exact Bool.false_ne_true
    · show ¬ (t.mvar.bind fun h => mvarStep t h p).isSome = true
      have hnone : ∀ h, mvarStep t h p = none := by
        intro h
        unfold mvarStep
        rw [hothers p e]
      simp only [hnone, Option.bind_fun_none]
      exact Bool.false_ne_true
  have hruns := runs_of_runIf ht
  refine ⟨t, hruns, hwriter, hstored, ?_⟩
  rcases mvar_progress SemReg.wf_init rfl rfl (by decide) (by decide) hruns hno with
    ⟨-, hbooks⟩ | ⟨hall, -⟩
  · exact hbooks
  · rcases hall 2 with h2 | h2
    · exact absurd (hwriter.symm.trans h2) MvarPos.noConfusion
    · exact absurd (hwriter.symm.trans h2) MvarPos.noConfusion

end Tp2So
