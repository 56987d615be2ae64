import Tp2So.Text.Format

/-!
# Strings printed with `%s`

`%s` hands its string to `fprintf` as a format.  The characters of text go out one by one; every `%` and
every ESC takes at least one more character than it writes.

* `vfprintf_plain`     a string without these comes out as it is;
* `vfprintf_shorter`   with one of them, fewer bytes come out;
* `printf_verbatim_iff`   together.
-/

set_option linter.unusedVariables false

namespace Tp2So

namespace Libc

section
variable {fd : Int32} {fuel : Nat} {args : List Arg} {s : CString}

theorem vfprintf_plain (fuel : Nat) : ∀ {cs : List UInt8}, 0 ∉ cs → ch '%' ∉ cs → esc ∉ cs →
    cs.length < fuel →
    vfprintf fd fuel (cs ++ [0]) args = .ok (cs.map fun c => .write fd [c], args) := by
  induction fuel with
  | zero =>
    intro cs h0 hp he hf
    exact absurd hf (Nat.not_lt_zero _)
  | succ fuel ih =>
    intro cs h0 hp he hf
    cases cs with
    | nil => rfl
    | cons c cs =>
      obtain ⟨h0c, h0'⟩ := List.ne_and_not_mem_of_not_mem_cons h0
      obtain ⟨hpc, hp'⟩ := List.ne_and_not_mem_of_not_mem_cons hp
      obtain ⟨hec, he'⟩ := List.ne_and_not_mem_of_not_mem_cons he
      rw [List.cons_append, vfprintf_text fd fuel _ args (Ne.symm h0c) (Ne.symm hec) (Ne.symm hpc),
        ih h0' hp' he' (Nat.lt_of_succ_lt_succ hf)]
      rfl

theorem written_plain (cs : List UInt8) : written fd (cs.map fun c => .write fd [c]) = cs := by
  induction cs with
  | nil => rfl
  | cons c cs ih => rw [List.map_cons, written_cons, bytes_write, ih, List.singleton_append]

/-- **Without arguments no call writes more than it reads**, and less where there is a `%` or an ESC. -/
theorem vfprintf_shorter (fuel : Nat) : ∀ {cs : List UInt8} {r : List SysCall × List Arg}, 0 ∉ cs →
    vfprintf fd fuel (cs ++ [0]) [] = .ok r →
    (written fd r.1).length ≤ cs.length ∧
      (ch '%' ∈ cs ∨ esc ∈ cs → (written fd r.1).length < cs.length) := by
  induction fuel with
  | zero =>
    intro cs r h0 h
    cases h
  | succ fuel ih =>
    intro cs r h0 h
    cases cs with
    | nil =>
      obtain rfl := Except.ok.inj h
      exact ⟨Nat.le_refl _, fun hm => absurd hm (by simp)⟩
    | cons c cs =>
      obtain ⟨hc, h0'⟩ := List.ne_and_not_mem_of_not_mem_cons h0
      have hsub : ∀ {cs'}, cs' <:+ cs → 0 ∉ cs' := fun hs hm => h0' (hs.subset hm)
      rw [List.cons_append] at h
      by_cases he : c = esc
      · subst he
        rw [vfprintf_esc] at h
        obtain ⟨p, hp, hmap⟩ := bind_eq_ok.mp h
        obtain ⟨q, hq, rfl⟩ := map_eq_ok.mp hmap
        clear h hmap
        rcases parseANSI_eq fd h0' with ⟨hnone, hbad | hsame⟩ | ⟨calls, cs', hok, hs, hsuf, hw⟩
        · rw [hbad] at hp
          cases hp
        · rw [hsame] at hp
          obtain rfl := Except.ok.inj hp
          have hq' : vfprintf fd fuel (esc :: cs ++ [0]) [] = .ok q := hq
          obtain ⟨used, hs, -⟩ := vfprintf_ok fuel h0 hq'
          have hno : scan .text (esc :: cs) = none := (if_pos rfl).trans hnone
          rw [hno] at hs
          cases hs
        · rw [hok] at hp
          obtain rfl := Except.ok.inj hp
          have hle := hsuf.length_le
          have hih := (ih (hsub hsuf) hq).1
          have hout : written fd (.write fd [] :: calls ++ q.1) = written fd q.1 := by
            rw [List.cons_append, written_cons, bytes_write, written_append, hw]
            rfl
          simp only [hout, List.length_cons]
          omega
      by_cases hp : c = ch '%'
      · subst hp
        rw [vfprintf_percent] at h
        obtain ⟨p, hp, hmap⟩ := bind_eq_ok.mp h
        obtain ⟨q, hq, rfl⟩ := map_eq_ok.mp hmap
        clear h hmap
        cases cs with
        | nil =>
          have hend : convert fd (fun s => (vfprintf fd fuel s.chars []).map Prod.fst) [0] []
              = .ok ([], [], []) := rfl
          rw [List.nil_append, hend] at hp
          obtain rfl := Except.ok.inj hp
          cases fuel <;> cases hq
        | cons d cs =>
          obtain ⟨used, hconv⟩ := convert_ok hp
          obtain ⟨hused, hargs⟩ := List.append_eq_nil_iff.mp hconv.args.symm
          rw [hconv.format, hargs] at hq
          have hsuf := percent_suffix d cs
          have hle := hsuf.length_le
          have hih := (ih (hsub (hsuf.trans (List.suffix_cons d cs))) hq).1
          -- a conversion that takes no argument writes one byte at most
          have hone : (written fd p.1).length ≤ 1 := by
            rcases hconv.brief hused with hnil | ⟨b, hb⟩
            · rw [hnil]
              exact Nat.zero_le _
            · rw [hb, written_cons, bytes_write]
              exact Nat.le_refl _
          simp only [written_append, List.length_append, List.length_cons]
          omega
      · rw [vfprintf_text fd fuel _ [] (Ne.symm hc) he hp] at h
        obtain ⟨q, hq, rfl⟩ := map_eq_ok.mp h
        obtain ⟨hih, hlt⟩ := ih h0' hq
        simp only [written_cons, bytes_write, List.length_append, List.length_cons, List.length_nil]
        refine ⟨by omega, fun hm => ?_⟩
        have hm' : ch '%' ∈ cs ∨ esc ∈ cs := by
          simp only [List.mem_cons] at hm
          exact hm.imp (fun h => h.resolve_left (Ne.symm hp)) (fun h => h.resolve_left (Ne.symm he))
        have := hlt hm'
        omega

end

/-- the format `"%s"` -/
def percentS : CString := ⟨[ch '%', ch 's'], by decide⟩

/-- `printf("%s", s)` writes the bytes of `s`, all by `sys_write`, and takes one argument -/
def Verbatim (s : CString) : Prop :=
  ∃ N, ∀ fuel, N ≤ fuel → ∀ rest, ∃ calls, printf fuel percentS (.str s :: rest) = .ok (calls, rest) ∧
    written fdStdout calls = s.bytes

/-- **`%s` prints its argument as it is** exactly when there is no `%` and no ESC in it. -/
theorem printf_verbatim_iff (s : CString) : Verbatim s ↔ ch '%' ∉ s.bytes ∧ esc ∉ s.bytes := by
  have hcall : ∀ fuel rest, printf (fuel + 2) percentS (.str s :: rest)
      = ((vfprintf fdStdout (fuel + 1) s.chars []).map Prod.fst).map fun calls => (calls, rest) := by
    intro fuel rest
    have hstep : printf (fuel + 2) percentS (.str s :: rest)
        = (((vfprintf fdStdout (fuel + 1) s.chars []).map Prod.fst).map fun calls =>
            (calls, [0], rest)).bind fun r =>
              (vfprintf fdStdout (fuel + 1) r.2.1 r.2.2).map fun q => (r.1 ++ q.1, q.2) := rfl
    rw [hstep]
    cases (vfprintf fdStdout (fuel + 1) s.chars []).map Prod.fst with
    | error e => rfl
    | ok calls =>
      show Except.ok (calls ++ [], rest) = _
      rw [List.append_nil]
      rfl
  constructor
  · rintro ⟨N, h⟩
    obtain ⟨calls, hr, hw⟩ := h (N + 2) (by omega) []
    rw [hcall] at hr
    obtain ⟨calls', hcalls, he⟩ := map_eq_ok.mp hr
    obtain ⟨q, hq, rfl⟩ := map_eq_ok.mp hcalls
    obtain rfl := (Prod.mk.inj he).1
    have hlt := (vfprintf_shorter (N + 1) s.noNul hq).2
    rw [hw] at hlt
    exact not_or.mp fun hm => absurd (hlt hm) (Nat.lt_irrefl _)
  · rintro ⟨hp, he⟩
    refine ⟨s.bytes.length + 2, fun fuel hf rest => ?_⟩
    obtain ⟨fuel, rfl⟩ : ∃ m, fuel = m + 2 := ⟨fuel - 2, by omega⟩
    have hr : vfprintf fdStdout (fuel + 1) (s.bytes ++ [0]) [] = _ :=
      vfprintf_plain (fuel + 1) s.noNul hp he (by omega)
    refine ⟨s.bytes.map fun c => .write fdStdout [c], ?_, written_plain s.bytes⟩
    rw [hcall]
    show ((vfprintf fdStdout (fuel + 1) (s.bytes ++ [0]) []).map Prod.fst).map _ = _
    rw [hr]
    rfl

/-- `%%` comes out as one byte -/
theorem printf_percents : ∃ s : CString, s.bytes = [ch '%', ch '%'] ∧
    (∀ fuel, printf (fuel + 4) percentS [.str s] = .ok ([.write fdStdout [ch '%']], [])) ∧
    ¬ Verbatim s := by
  refine ⟨⟨[ch '%', ch '%'], by decide⟩, rfl, fun fuel => rfl, ?_⟩
  rintro ⟨N, h⟩
  obtain ⟨calls, hr, hw⟩ := h (N + 4) (by omega) []
  have hout : printf (N + 4) percentS [.str ⟨[ch '%', ch '%'], by decide⟩]
      = .ok ([.write fdStdout [ch '%']], []) := rfl
  rw [hout] at hr
  obtain ⟨rfl, -⟩ := Prod.mk.inj (Except.ok.inj hr)
  exact absurd hw (by decide)

end Libc

end Tp2So
