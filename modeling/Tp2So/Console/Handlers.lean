import Tp2So.Kernel.Keyboard
import Mathlib.Data.List.Basic

/-!
# `sys_exec` and the key handlers

Between the clear and the restore, an entry that is not the kernel's has its handler in the saved map, and
one that is has it in place.  A registration that finds no handler may take an entry from the kernel, whose
handler was none then.  The array has one entry less than there are key codes from zero on: the last, of
`F12`, is behind it.

* `clearLoop_at`, `restoreLoop_at`   what the loops do to an entry;
* `Saved`           the invariant of an entry, and `Saved.register`;
* `sysExec_restores_iff`   the handlers come back, and no access is outside.
-/

set_option linter.unusedVariables false

namespace Tp2So

namespace KeyTable

section
variable {t t' : KeyTable} {map : Nat → Option Nat} {n i j : Nat}

theorem set_at (e : RegisteredKeys) : (set i e t).keyFnMap i = e := Function.update_self ..

theorem set_other (h : j ≠ i) (e : RegisteredKeys) : (set i e t).keyFnMap j = t.keyFnMap j :=
  Function.update_of_ne h ..

@[simp] theorem access_keyFnMap (i : Nat) (t : KeyTable) : (access i t).keyFnMap = t.keyFnMap := rfl

theorem mem_access {a : Nat} : a ∈ (access i t).accesses ↔ a ∈ t.accesses ∨ a = i := by
  show a ∈ t.accesses ++ [i] ↔ _
  rw [List.mem_append, List.mem_singleton]

theorem mem_set {a : Nat} {e : RegisteredKeys} : a ∈ (set i e t).accesses ↔ a ∈ t.accesses ∨ a = i :=
  mem_access

/-! ## the loops -/

theorem range_rest {P : Prop} (h : j ≠ i) : (i + 1 ≤ j ∧ j < i + 1 + n ∧ P) ↔ (i ≤ j ∧ j < i + (n + 1) ∧ P) := by
  constructor
  · rintro ⟨h1, h2, h3⟩
    exact ⟨by omega, by omega, h3⟩
  · rintro ⟨h1, h2, h3⟩
    exact ⟨by omega, by omega, h3⟩

theorem restoreLoop_at (n : Nat) : ∀ {i : Nat} {t : KeyTable}, (restoreLoop map n i t).keyFnMap j
    = if i ≤ j ∧ j < i + n ∧ (t.keyFnMap j).registeredFromKernel = false
      then { t.keyFnMap j with fn := map j } else t.keyFnMap j := by
  induction n with
  | zero =>
    intro i t
    rw [if_neg (by omega)]
    rfl
  | succ n ih =>
    intro i t
    unfold restoreLoop
    dsimp only
    rw [ih]
    by_cases hj : j = i
    · subst hj
      rw [if_neg (by omega)]
      by_cases hk : (t.keyFnMap j).registeredFromKernel = true
      · rw [if_pos hk, if_neg (by rw [hk]; exact fun h => Bool.noConfusion h.2.2)]
        rfl
      · rw [if_neg hk, if_pos ⟨Nat.le_refl _, by omega, Bool.eq_false_iff.mpr hk⟩]
        exact set_at _
    · have hrest : (if (t.keyFnMap i).registeredFromKernel = true then access i t
          else set i { t.keyFnMap i with fn := map i } (access i t)).keyFnMap j = t.keyFnMap j := by
        split
        · rfl
        · exact set_other hj _
      rw [hrest]
      exact if_congr (range_rest hj) rfl rfl

theorem clearLoop_at (n : Nat) : ∀ (i : Nat) (map : Nat → Option Nat) (t : KeyTable),
    ((clearLoop n i (map, t)).1 j, (clearLoop n i (map, t)).2.keyFnMap j)
      = if i ≤ j ∧ j < i + n ∧ (t.keyFnMap j).registeredFromKernel = false
        then ((t.keyFnMap j).fn, { t.keyFnMap j with fn := none }) else (map j, t.keyFnMap j) := by
  induction n with
  | zero =>
    intro i map t
    rw [if_neg (by omega)]
    rfl
  | succ n ih =>
    intro i map t
    unfold clearLoop
    dsimp only
    by_cases hk : (t.keyFnMap i).registeredFromKernel = true
    · rw [if_pos hk, ih]
      by_cases hj : j = i
      · subst hj
        rw [if_neg (by omega), if_neg (by rw [hk]; exact fun h => Bool.noConfusion h.2.2)]
        rfl
      · rw [access_keyFnMap]
        exact if_congr (range_rest hj) rfl rfl
    · rw [if_neg hk, ih]
      by_cases hj : j = i
      · subst hj
        rw [if_neg (by omega), if_pos ⟨Nat.le_refl _, by omega, Bool.eq_false_iff.mpr hk⟩, set_at,
          Function.update_self]
      · rw [set_other hj, Function.update_of_ne hj, access_keyFnMap]
        exact if_congr (range_rest hj) rfl rfl

theorem mem_restoreLoop (n : Nat) : ∀ {i : Nat} {t : KeyTable} (a : Nat),
    a ∈ (restoreLoop map n i t).accesses ↔ a ∈ t.accesses ∨ i ≤ a ∧ a < i + n := by
  induction n with
  | zero =>
    intro i t a
    refine ⟨Or.inl, fun h => h.elim id fun h => ?_⟩
    omega
  | succ n ih =>
    intro i t a
    unfold restoreLoop
    dsimp only
    rw [ih]
    have hfirst : a ∈ (if (t.keyFnMap i).registeredFromKernel = true then access i t
        else set i { t.keyFnMap i with fn := map i } (access i t)).accesses ↔ a ∈ t.accesses ∨ a = i := by
      split
      · exact mem_access
      · rw [mem_set, mem_access, or_assoc, or_self]
    rw [hfirst, or_assoc]
    exact or_congr_right (by omega)

theorem mem_clearLoop (n : Nat) : ∀ {i : Nat} {map : Nat → Option Nat} {t : KeyTable} (a : Nat),
    a ∈ (clearLoop n i (map, t)).2.accesses ↔ a ∈ t.accesses ∨ i ≤ a ∧ a < i + n := by
  induction n with
  | zero =>
    intro i map t a
    refine ⟨Or.inl, fun h => h.elim id fun h => ?_⟩
    omega
  | succ n ih =>
    intro i map t a
    unfold clearLoop
    dsimp only
    split
    · rw [ih, mem_access, or_assoc]
      exact or_congr_right (by omega)
    · rw [ih, mem_set, mem_access, or_assoc (c := a = i), or_self, or_assoc]
      exact or_congr_right (by omega)

/-! ## registrations -/

/-- a registration leaves an entry, or takes one that has no handler -/
theorem sysRegisterKey_at (t : KeyTable) (r : UInt8 × Option Nat) (j : Nat) :
    (sysRegisterKey t r).keyFnMap j = t.keyFnMap j ∨ (j = r.1.toNat ∧ (t.keyFnMap j).fn = none ∧
      (sysRegisterKey t r).keyFnMap j = ⟨false, r.2⟩) := by
  unfold sysRegisterKey registerSpecialKey
  dsimp only
  split
  · rw [if_neg Bool.false_ne_true]
    split
    · rename_i hnone
      by_cases hj : j = r.1.toNat
      · subst hj
        exact Or.inr ⟨rfl, hnone, set_at _⟩
      · exact Or.inl (set_other hj _)
    · exact Or.inl rfl
  · exact Or.inl rfl

theorem mem_sysRegisterKey (t : KeyTable) (r : UInt8 × Option Nat) (a : Nat) :
    a ∈ (sysRegisterKey t r).accesses ↔ a ∈ t.accesses ∨ isKeycode r.1 = true ∧ a = r.1.toNat := by
  unfold sysRegisterKey registerSpecialKey
  dsimp only
  by_cases hk : isKeycode r.1 = true
  · rw [if_pos hk, if_neg Bool.false_ne_true, and_iff_right hk]
    split
    · rw [mem_set, mem_access, or_assoc, or_self]
    · exact mem_access
  · rw [if_neg hk]
    exact ⟨Or.inl, fun h => h.resolve_right fun h => hk h.1⟩

theorem mem_registerAll (regs : List (UInt8 × Option Nat)) (t : KeyTable) (a : Nat) :
    a ∈ (regs.foldl sysRegisterKey t).accesses ↔
      a ∈ t.accesses ∨ ∃ r ∈ regs, isKeycode r.1 = true ∧ a = r.1.toNat := by
  induction regs generalizing t with
  | nil => exact ⟨Or.inl, fun h => h.resolve_right fun ⟨r, hr, _⟩ => List.not_mem_nil hr⟩
  | cons r regs ih =>
    rw [List.foldl_cons, ih, mem_sysRegisterKey, or_assoc, List.exists_mem_cons_iff]

/-- an entry that no registration names -/
theorem registerAll_other {regs : List (UInt8 × Option Nat)} (h : ∀ r ∈ regs, j ≠ r.1.toNat)
    (t : KeyTable) : (regs.foldl sysRegisterKey t).keyFnMap j = t.keyFnMap j := by
  induction regs generalizing t with
  | nil => rfl
  | cons r regs ih =>
    rw [List.foldl_cons, ih fun r hr => h r (List.mem_cons_of_mem _ hr)]
    exact (sysRegisterKey_at t r j).resolve_right fun hr => h r List.mem_cons_self hr.1

/-- the handler of an entry can be restored: `e₀` before the clear, `m` in the saved map, `e` now -/
def Saved (e₀ : RegisteredKeys) (m : Option Nat) (e : RegisteredKeys) : Prop :=
  (e.registeredFromKernel = false → m = e₀.fn) ∧
    (e.registeredFromKernel = true → e.fn = e₀.fn ∧ m = none)

theorem Saved.register {e₀ : RegisteredKeys} {m : Option Nat} (h : Saved e₀ m (t.keyFnMap j))
    (r : UInt8 × Option Nat) : Saved e₀ m ((sysRegisterKey t r).keyFnMap j) := by
  rcases sysRegisterKey_at t r j with he | ⟨-, hnone, he⟩
  · rwa [he]
  · rw [he]
    refine ⟨fun _ => ?_, fun hk => Bool.noConfusion hk⟩
    cases hk : (t.keyFnMap j).registeredFromKernel with
    | false => exact h.1 hk
    | true =>
      obtain ⟨hfn, hm⟩ := h.2 hk
      rw [hm, ← hfn, hnone]

theorem Saved.registerAll {e₀ : RegisteredKeys} {m : Option Nat} (regs : List (UInt8 × Option Nat)) :
    ∀ {t : KeyTable}, Saved e₀ m (t.keyFnMap j) →
      Saved e₀ m ((regs.foldl sysRegisterKey t).keyFnMap j) := by
  induction regs with
  | nil => exact fun h => h
  | cons r regs ih => exact fun h => ih (h.register r)

/-! ## `sys_exec` -/

/-- the loops run over the indices from 1 to 87 -/
theorem sysExec_eq (regs : List (UInt8 × Option Nat)) (t : KeyTable) : sysExec regs t
    = restoreLoop (clearLoop 87 1 (fun _ => none, t)).1 87 1
        (regs.foldl sysRegisterKey (clearLoop 87 1 (fun _ => none, t)).2) := by
  have hturns : f12Key.toNat - escapeKey.toNat = 87 := rfl
  have hfirst : escapeKey.toNat = 1 := rfl
  unfold sysExec clearKeyFnMapNonKernel restoreKeyFnMapNonKernel
  rw [hturns, hfirst]

theorem clear_saved (t : KeyTable) (h1 : 1 ≤ j) (h2 : j < 88) :
    Saved (t.keyFnMap j) ((clearLoop 87 1 (fun _ => none, t)).1 j)
      ((clearLoop 87 1 (fun _ => none, t)).2.keyFnMap j) := by
  have hc := clearLoop_at (j := j) 87 1 (fun _ => none) t
  cases hk : (t.keyFnMap j).registeredFromKernel with
  | false =>
    rw [if_pos ⟨h1, by omega, hk⟩] at hc
    obtain ⟨hm, he⟩ := Prod.mk.inj hc
    rw [hm, he]
    exact ⟨fun _ => rfl, fun hk' => absurd (hk'.symm.trans hk) Bool.noConfusion⟩
  | true =>
    rw [if_neg fun h => Bool.noConfusion (hk.symm.trans h.2.2)] at hc
    obtain ⟨hm, he⟩ := Prod.mk.inj hc
    rw [hm, he]
    exact ⟨fun hk' => absurd (hk.symm.trans hk') Bool.noConfusion, fun _ => ⟨rfl, rfl⟩⟩

/-- **An entry of the array comes back.** -/
theorem sysExec_at (regs : List (UInt8 × Option Nat)) (t : KeyTable) (h1 : 1 ≤ j) (h2 : j < 88) :
    ((sysExec regs t).keyFnMap j).fn = (t.keyFnMap j).fn := by
  have hs := (clear_saved t h1 h2).registerAll regs
  rw [sysExec_eq, restoreLoop_at]
  generalize regs.foldl sysRegisterKey (clearLoop 87 1 (fun _ => none, t)).2 = u at hs ⊢
  generalize (clearLoop 87 1 (fun _ => none, t)).1 = map at hs ⊢
  cases hk : (u.keyFnMap j).registeredFromKernel with
  | false =>
    rw [if_pos ⟨h1, by omega, rfl⟩]
    exact hs.1 hk
  | true =>
    rw [if_neg fun h => Bool.noConfusion h.2.2]
    exact (hs.2 hk).1

/-- the entry behind the array is not saved -/
theorem sysExec_behind (regs : List (UInt8 × Option Nat)) (t : KeyTable) :
    (clearLoop 87 1 (fun _ => none, t)).2.keyFnMap 88 = t.keyFnMap 88 ∧ (sysExec regs t).keyFnMap 88
      = (regs.foldl sysRegisterKey (clearLoop 87 1 (fun _ => none, t)).2).keyFnMap 88 := by
  have hc := clearLoop_at (j := 88) 87 1 (fun _ => none) t
  rw [if_neg (by omega)] at hc
  rw [sysExec_eq, restoreLoop_at, if_neg (by omega)]
  exact ⟨(Prod.mk.inj hc).2, rfl⟩

theorem mem_sysExec (regs : List (UInt8 × Option Nat)) (t : KeyTable) (a : Nat) :
    a ∈ (sysExec regs t).accesses ↔ a ∈ t.accesses ∨ (1 ≤ a ∧ a < 88) ∨
      ∃ r ∈ regs, isKeycode r.1 = true ∧ a = r.1.toNat := by
  rw [sysExec_eq, mem_restoreLoop, mem_registerAll, mem_clearLoop, or_assoc, or_assoc]
  refine or_congr_right ⟨?_, ?_⟩
  · rintro (h | h | h)
    · exact Or.inl h
    · exact Or.inr h
    · exact Or.inl h
  · rintro (h | h)
    · exact Or.inl h
    · exact Or.inr (Or.inl h)

theorem keycode_bounds {c : UInt8} (h : isKeycode c = true) : 1 ≤ c.toNat ∧ c.toNat ≤ 88 := by
  unfold isKeycode at h
  obtain ⟨h1, h2⟩ := of_decide_eq_true h
  exact ⟨UInt8.le_iff_toNat_le.mp h1, UInt8.le_iff_toNat_le.mp h2⟩

/-- **`sys_exec` gives every key its handler back**, and stays in the array, when and only when `F12` is
not registered meanwhile. -/
theorem sysExec_restores_iff (regs : List (UInt8 × Option Nat)) (keyFnMap : Nat → RegisteredKeys) :
    ((∀ c, isKeycode c = true →
        ((sysExec regs ⟨keyFnMap, []⟩).keyFnMap c.toNat).fn = (keyFnMap c.toNat).fn) ∧
      ∀ a ∈ (sysExec regs ⟨keyFnMap, []⟩).accesses, a < keyFnMapSize) ↔
    ∀ r ∈ regs, r.1 ≠ f12Key := by
  have hsize : keyFnMapSize = 88 := rfl
  have hf12 : ∀ c : UInt8, c.toNat = 88 → c = f12Key := fun c hc => UInt8.toNat_inj.mp hc
  constructor
  · rintro ⟨-, hacc⟩ r hr he
    have hlt := hacc 88 ((mem_sysExec regs _ 88).mpr (Or.inr (Or.inr ⟨r, hr, by rw [he]; rfl, by rw [he]; rfl⟩)))
    omega
  · intro h
    refine ⟨fun c hc => ?_, fun a ha => ?_⟩
    · obtain ⟨h1, h2⟩ := keycode_bounds hc
      by_cases h88 : c.toNat = 88
      · obtain ⟨hclear, hexec⟩ := sysExec_behind regs ⟨keyFnMap, []⟩
        have hother : ∀ r ∈ regs, 88 ≠ r.1.toNat := fun r hr he => h r hr (hf12 r.1 he.symm)
        have hsame : (sysExec regs ⟨keyFnMap, []⟩).keyFnMap 88 = keyFnMap 88 :=
          hexec.trans ((registerAll_other hother _).trans hclear)
        rw [h88, hsame]
      · exact sysExec_at regs _ h1 (by omega)
    · rcases (mem_sysExec regs _ a).mp ha with ha | ha | ⟨r, hr, hk, rfl⟩
      · exact absurd ha (List.not_mem_nil)
      · omega
      · obtain ⟨h1, h2⟩ := keycode_bounds hk
        have hne : r.1.toNat ≠ 88 := fun he => h r hr (hf12 r.1 he)
        omega

/-- a program that registers `F12`: an index that the array does not have, and a handler that stays -/
theorem sysExec_f12 : 88 ∈ (sysExec [(f12Key, some 1)] ⟨fun _ => ⟨false, none⟩, []⟩).accesses ∧
    keyFnMapSize = 88 ∧
    ((sysExec [(f12Key, some 1)] ⟨fun _ => ⟨false, none⟩, []⟩).keyFnMap 88).fn = some 1 := by
  obtain ⟨hclear, hexec⟩ := sysExec_behind [(f12Key, some 1)] ⟨fun _ => ⟨false, none⟩, []⟩
  have hmem := mem_sysExec [(f12Key, some 1)] ⟨fun _ => ⟨false, none⟩, []⟩ 88
  refine ⟨hmem.mpr (Or.inr (Or.inr ⟨_, List.mem_cons_self, rfl, rfl⟩)), rfl, ?_⟩
  rw [hexec]
  generalize (clearLoop 87 1 (fun _ => none, ⟨fun _ => ⟨false, none⟩, []⟩)).2 = u at hclear ⊢
  have hset : sysRegisterKey u (f12Key, some 1) = set 88 ⟨false, some 1⟩ (access 88 u) := by
    have hnone : (u.keyFnMap f12Key.toNat).fn = none := congrArg RegisteredKeys.fn hclear
    unfold sysRegisterKey registerSpecialKey
    have hkey : isKeycode f12Key = true := rfl
    dsimp only
    rw [if_pos hkey, if_neg Bool.false_ne_true, if_pos hnone]
    rfl
  show ((sysRegisterKey u (f12Key, some 1)).keyFnMap 88).fn = _
  rw [hset, set_at]

end

end KeyTable

end Tp2So
