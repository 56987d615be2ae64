import Tp2So.Libc.Stdio

/-!
# Formats that `vfprintf` reads to their end

An automaton reads a format once, from left to right, and says whether the call comes to the NUL: a `%`
must have something behind it, and an ESC a `[` and, further on, an `m`.

* `scan`          the automaton; it collects the arguments the format asks for;
* `convert_ok`, `convert_some`   one conversion;
* `vfprintf_ok`   a call that returns has read such a format, and such strings for its `%s`;
* `vfprintf_of_scan`   a call on one of these returns;
* `vfprintf_returns_iff`   together.
-/

set_option linter.unusedVariables false

namespace Tp2So

namespace Libc

section
variable {ε α β : Type*} {x : Except ε α}

theorem bind_eq_ok {f : α → Except ε β} {b : β} : x.bind f = .ok b ↔ ∃ a, x = .ok a ∧ f a = .ok b := by
  cases x with
  | error e => exact ⟨nofun, nofun⟩
  | ok a =>
    refine ⟨fun h => ⟨a, rfl, h⟩, ?_⟩
    rintro ⟨a', h, hf⟩
    obtain rfl := Except.ok.inj h
    exact hf

theorem map_eq_ok {f : α → β} {b : β} : x.map f = .ok b ↔ ∃ a, x = .ok a ∧ f a = b := by
  cases x with
  | error e => exact ⟨nofun, nofun⟩
  | ok a =>
    refine ⟨fun h => ⟨a, rfl, Except.ok.inj h⟩, ?_⟩
    rintro ⟨a', h, rfl⟩
    obtain rfl := Except.ok.inj h
    rfl

end

/-- what a system call writes to `fd` -/
def SysCall.bytes (fd : Int32) : SysCall → List UInt8
  | .write fd' b => if fd' = fd then b else []
  | .textColor _ => []
  | .backgroundColor _ => []

def written (fd : Int32) (calls : List SysCall) : List UInt8 := calls.flatMap (SysCall.bytes fd)

/-- the type that a `va_arg` asks for -/
inductive Kind where
  | int
  | long
  | ulong
  | str
  deriving DecidableEq

def Arg.kind : Arg → Kind
  | .int _ => .int
  | .long _ => .long
  | .ulong _ => .ulong
  | .str _ => .str

/-- what a conversion character asks for -/
def kindOf (c : UInt8) : Option Kind :=
  if c = ch 'x' ∨ c = ch 'd' ∨ c = ch 'o' ∨ c = ch 'b' ∨ c = ch 'c' then some .int
  else if c = ch 's' then some .str
  else none

/-- outside a conversion, behind `%`, behind `%l`, behind ESC, behind ESC and `[` -/
inductive Mode where
  | text
  | percent
  | ell
  | escape
  | ansi

/-- the arguments that a format asks for, when it is read up to the NUL -/
def scan : Mode → List UInt8 → Option (List Kind)
  | .text, [] => some []
  | .ell, [] => some []
  | .percent, [] => none
  | .escape, [] => none
  | .ansi, [] => none
  | .text, c :: cs =>
    if c = esc then scan .escape cs else if c = ch '%' then scan .percent cs else scan .text cs
  | .percent, c :: cs =>
    if c = ch 'l' then scan .ell cs else (scan .text cs).map fun ks => (kindOf c).toList ++ ks
  | .ell, c :: cs =>
    if c = ch 'd' then (scan .text cs).map fun ks => .long :: ks
    else if c = ch 'u' ∨ c = ch 'x' then (scan .text cs).map fun ks => .ulong :: ks
    else if c = esc then scan .escape cs else if c = ch '%' then scan .percent cs else scan .text cs
  | .escape, c :: cs => if c = ch '[' then scan .ansi cs else none
  | .ansi, c :: cs => if c = ch 'm' then scan .text cs else scan .ansi cs

/-- a string that may stand for a format without arguments -/
def Plain (s : CString) : Prop := scan .text s.bytes = some []

instance plain_decidable (s : CString) : Decidable (Plain s) :=
  inferInstanceAs (Decidable (scan .text s.bytes = some []))

/-- behind a `%` and `d`: what is asked for, and where the text goes on -/
def percent (d : UInt8) (cs : List UInt8) : List Kind × List UInt8 :=
  if d = ch 'l' then
    match cs with
    | [] => ([], [])
    | e :: cs =>
      if e = ch 'd' then ([.long], cs)
      else if e = ch 'u' ∨ e = ch 'x' then ([.ulong], cs)
      else ([], e :: cs)
  else ((kindOf d).toList, cs)

section
variable {fd : Int32} {print : CString → Except Fault (List SysCall)} {c d : UInt8} {fuel L : Nat}
  {cs : List UInt8} {args used rest : List Arg} {ks : List Kind}

/-! ## one conversion -/

theorem scan_percent (d : UInt8) (cs : List UInt8) :
    scan .percent (d :: cs) = (scan .text (percent d cs).2).map fun ks => (percent d cs).1 ++ ks := by
  unfold percent
  by_cases hl : d = ch 'l'
  · rw [if_pos hl]
    show (if d = ch 'l' then scan .ell cs else _) = _
    rw [if_pos hl]
    cases cs with
    | nil => rfl
    | cons e cs =>
      show (if e = ch 'd' then _ else if e = ch 'u' ∨ e = ch 'x' then _ else scan .text (e :: cs)) = _
      by_cases h1 : e = ch 'd'
      · simp only [if_pos h1]
        rfl
      by_cases h2 : e = ch 'u' ∨ e = ch 'x'
      · simp only [if_neg h1, if_pos h2]
        rfl
      · simp only [if_neg h1, if_neg h2, List.nil_append, Option.map_id']
  · rw [if_neg hl]
    exact if_neg hl

theorem percent_suffix (d : UInt8) (cs : List UInt8) : (percent d cs).2 <:+ cs := by
  unfold percent
  split
  · cases cs with
    | nil => exact List.suffix_refl _
    | cons e cs =>
      simp only
      split
      · exact List.suffix_cons e cs
      · split
        · exact List.suffix_cons e cs
        · exact List.suffix_refl _
  · exact List.suffix_refl _

theorem vaArg_eq {α : Type} {type : Arg → Option α} {r : α × List Arg} :
    vaArg type args = .ok r ↔ ∃ a, type a = some r.1 ∧ args = a :: r.2 := by
  constructor
  · intro h
    cases args with
    | nil => cases h
    | cons a args =>
      have h' : (type a).elim (Except.error Fault.noArgument) (fun v => Except.ok (v, args))
          = Except.ok r := h
      cases ht : type a with
      | none =>
        rw [ht] at h'
        cases h'
      | some v =>
        rw [ht] at h'
        obtain rfl := Except.ok.inj h'
        exact ⟨a, ht, rfl⟩
  · rintro ⟨a, ht, rfl⟩
    show (type a).elim _ _ = _
    rw [ht]
    rfl

/-- what a conversion does with the arguments `used` -/
structure Converts (fd : Int32) (print : CString → Except Fault (List SysCall)) (args used : List Arg)
    (ks : List Kind) (cs : List UInt8) (r : List SysCall × List UInt8 × List Arg) : Prop where
  args : args = used ++ r.2.2
  kinds : used.map Arg.kind = ks
  format : r.2.1 = cs
  prints : ∀ s, .str s ∈ used → print s = .ok r.1
  brief : used = [] → r.1 = [] ∨ ∃ c, r.1 = [.write fd [c]]

/-- a conversion that writes one argument, and no string -/
theorem converts_of_vaArg {α : Type} {type : Arg → Option α} {k : Kind} {g : α → List SysCall}
    {r : List SysCall × List UInt8 × List Arg} (hk : ∀ a v, type a = some v → a.kind = k)
    (hs : k ≠ .str) (h : (vaArg type args).map (fun q => (g q.1, cs, q.2)) = .ok r) :
    ∃ used, Converts fd print args used [k] cs r := by
  obtain ⟨q, hq, rfl⟩ := map_eq_ok.mp h
  obtain ⟨a, ha, rfl⟩ := vaArg_eq.mp hq
  have hkind := hk a q.1 ha
  refine ⟨[a], rfl, congrArg (fun k => [k]) hkind, rfl, fun s hmem => ?_, fun he => absurd he (by simp)⟩
  rw [← List.mem_singleton.mp hmem] at hkind
  exact absurd hkind.symm hs

theorem vaArg_of_kind {α : Type} {type : Arg → Option α} {k : Kind} {g : α → List SysCall}
    (hk : ∀ a, a.kind = k → ∃ v, type a = some v) (h : used.map Arg.kind = [k]) :
    ∃ calls, (vaArg type (used ++ rest)).map (fun q => (g q.1, cs, q.2)) = .ok (calls, cs, rest) := by
  obtain ⟨a, hused, ha⟩ := List.map_eq_singleton_iff.mp h
  obtain ⟨v, hv⟩ := hk a ha
  refine ⟨g v, map_eq_ok.mpr ⟨(v, rest), vaArg_eq.mpr ⟨a, hv, ?_⟩, rfl⟩⟩
  rw [hused]
  rfl

theorem kind_of_int? (a : Arg) (v : Int32) (h : Arg.int? a = some v) : a.kind = .int := by
  cases a <;> first | rfl | cases h

theorem kind_of_long? (a : Arg) (v : Int64) (h : Arg.long? a = some v) : a.kind = .long := by
  cases a <;> first | rfl | cases h

theorem kind_of_ulong? (a : Arg) (v : UInt64) (h : Arg.ulong? a = some v) : a.kind = .ulong := by
  cases a <;> first | rfl | cases h

theorem int?_of_kind (a : Arg) (h : a.kind = .int) : ∃ v, Arg.int? a = some v := by
  cases a <;> first | exact ⟨_, rfl⟩ | cases h

theorem long?_of_kind (a : Arg) (h : a.kind = .long) : ∃ v, Arg.long? a = some v := by
  cases a <;> first | exact ⟨_, rfl⟩ | cases h

theorem ulong?_of_kind (a : Arg) (h : a.kind = .ulong) : ∃ v, Arg.ulong? a = some v := by
  cases a <;> first | exact ⟨_, rfl⟩ | cases h

theorem str?_eq {a : Arg} {s : CString} (h : Arg.str? a = some s) : a = .str s := by
  cases a with
  | str s' => exact congrArg Arg.str (Option.some.inj h)
  | int n => cases h
  | long n => cases h
  | ulong n => cases h

/-- one letter asks for an `int` or a string -/
theorem kindOf_ne {k : Kind} (h1 : k ≠ .int) (h2 : k ≠ .str) : kindOf d ≠ some k := by
  unfold kindOf
  split
  · exact fun e => h1 (Option.some.inj e).symm
  · split
    · exact fun e => h2 (Option.some.inj e).symm
    · exact fun e => nomatch e

/-- what a conversion of an `int` writes -/
def printInt (fd : Int32) (c : UInt8) (n : Int32) : List SysCall :=
  if c = ch 'x' then printBase fd n 16
  else if c = ch 'd' then printBase fd n 10
  else if c = ch 'o' then printBase fd n 8
  else if c = ch 'b' then printBase fd n 2
  else [.write fd [n.toInt8.toUInt8]]

theorem convert_int {rest : List UInt8} (h : kindOf d = some .int) :
    convert fd print (d :: rest) args
      = (vaArg Arg.int? args).map fun r => (printInt fd d r.1, rest, r.2) := by
  unfold kindOf at h
  split at h
  · rename_i hd
    rcases hd with rfl | rfl | rfl | rfl | rfl <;> rfl
  · split at h <;> cases h

theorem convert_str {rest : List UInt8} (h : kindOf d = some .str) :
    convert fd print (d :: rest) args
      = (vaArg Arg.str? args).bind fun r => (print r.1).map fun calls => (calls, rest, r.2) := by
  unfold kindOf at h
  split at h
  · cases h
  · split at h
    · rename_i hd
      rw [hd]
      rfl
    · cases h

theorem convert_none {rest : List UInt8} (hl : d ≠ ch 'l') (h : kindOf d = none) :
    convert fd print (d :: rest) args
      = .ok (if d = ch '%' then [.write fd [ch '%']] else [], rest, args) := by
  unfold kindOf at h
  split at h
  · cases h
  · rename_i hint
    simp only [not_or] at hint
    obtain ⟨hx, hd, ho, hb, hc⟩ := hint
    split at h
    · cases h
    · rename_i hs
      have hstep : convert fd print (d :: rest) args
          = if d = ch '%' then .ok ([.write fd [ch '%']], rest, args) else .ok ([], rest, args) :=
        (if_neg hx).trans ((if_neg hd).trans ((if_neg ho).trans ((if_neg hb).trans ((if_neg hl).trans
          ((if_neg hc).trans (if_neg hs))))))
      rw [hstep]
      split <;> rfl

theorem percent_other {e : UInt8} (h1 : e ≠ ch 'd') (h2 : e ≠ ch 'u') (h3 : e ≠ ch 'x') :
    percent (ch 'l') (e :: cs) = ([], e :: cs) := by
  unfold percent
  rw [if_pos rfl]
  exact (if_neg h1).trans (if_neg (not_or.mpr ⟨h2, h3⟩))

theorem percent_ne (h : d ≠ ch 'l') : percent d cs = ((kindOf d).toList, cs) := if_neg h

theorem converts_nil {r : List SysCall × List UInt8 × List Arg} (h : r.2 = (cs, args))
    (hb : r.1 = [] ∨ ∃ c, r.1 = [.write fd [c]]) : ∃ used, Converts fd print args used [] cs r := by
  refine ⟨[], ?_, rfl, ?_, fun s hm => absurd hm List.not_mem_nil, fun _ => hb⟩
  · rw [h]
    rfl
  · rw [h]

theorem convertLong_other {e : UInt8} {rest : List UInt8} (h1 : e ≠ ch 'd') (h2 : e ≠ ch 'u')
    (h3 : e ≠ ch 'x') :
    convertLong fd (e :: rest) args = .ok ([.write fd [ch 'l']], e :: rest, args) :=
  (if_neg h1).trans ((if_neg h2).trans (if_neg h3))

theorem convertLong_ok {r : List SysCall × List UInt8 × List Arg}
    (h : convertLong fd (cs ++ [0]) args = .ok r) :
    ∃ used, Converts fd print args used (percent (ch 'l') cs).1 ((percent (ch 'l') cs).2 ++ [0]) r := by
  cases cs with
  | nil =>
    obtain rfl := Except.ok.inj h
    exact converts_nil rfl (Or.inr ⟨_, rfl⟩)
  | cons e cs =>
    by_cases h1 : e = ch 'd'
    · subst h1
      exact converts_of_vaArg (g := fun n => printLongBase fd n 10) kind_of_long? (by decide) h
    by_cases h2 : e = ch 'u'
    · subst h2
      exact converts_of_vaArg (g := fun n => printUnsignedLongBase fd n 10) kind_of_ulong? (by decide) h
    by_cases h3 : e = ch 'x'
    · subst h3
      exact converts_of_vaArg (g := fun n => printUnsignedLongBase fd n 16) kind_of_ulong? (by decide) h
    · rw [List.cons_append, convertLong_other h1 h2 h3] at h
      rw [percent_other h1 h2 h3]
      obtain rfl := Except.ok.inj h
      exact converts_nil rfl (Or.inr ⟨_, rfl⟩)

theorem convertLong_some (h : used.map Arg.kind = (percent (ch 'l') cs).1) :
    ∃ calls, convertLong fd (cs ++ [0]) (used ++ rest)
      = .ok (calls, (percent (ch 'l') cs).2 ++ [0], rest) := by
  cases cs with
  | nil =>
    rw [List.map_eq_nil_iff.mp h]
    exact ⟨_, rfl⟩
  | cons e cs =>
    by_cases h1 : e = ch 'd'
    · subst h1
      exact vaArg_of_kind (g := fun n => printLongBase fd n 10) long?_of_kind h
    by_cases h2 : e = ch 'u'
    · subst h2
      exact vaArg_of_kind (g := fun n => printUnsignedLongBase fd n 10) ulong?_of_kind h
    by_cases h3 : e = ch 'x'
    · subst h3
      exact vaArg_of_kind (g := fun n => printUnsignedLongBase fd n 16) ulong?_of_kind h
    · rw [percent_other h1 h2 h3] at h ⊢
      rw [List.map_eq_nil_iff.mp h, List.cons_append, List.nil_append, convertLong_other h1 h2 h3]
      exact ⟨_, rfl⟩

/-- **A conversion that goes through** has found the arguments it asks for. -/
theorem convert_ok {r : List SysCall × List UInt8 × List Arg}
    (h : convert fd print (d :: (cs ++ [0])) args = .ok r) :
    ∃ used, Converts fd print args used (percent d cs).1 ((percent d cs).2 ++ [0]) r := by
  by_cases hl : d = ch 'l'
  · subst hl
    exact convertLong_ok h
  rw [percent_ne hl]
  cases hk : kindOf d with
  | none =>
    rw [convert_none hl hk] at h
    obtain rfl := Except.ok.inj h
    refine converts_nil rfl ?_
    simp only
    split
    · exact Or.inr ⟨_, rfl⟩
    · exact Or.inl rfl
  | some k =>
    cases k with
    | int =>
      rw [convert_int hk] at h
      exact converts_of_vaArg (g := printInt fd d) kind_of_int? (by decide) h
    | str =>
      rw [convert_str hk] at h
      obtain ⟨q, hq, hp⟩ := bind_eq_ok.mp h
      obtain ⟨calls, hcalls, rfl⟩ := map_eq_ok.mp hp
      obtain ⟨a, ha, rfl⟩ := vaArg_eq.mp hq
      obtain rfl := str?_eq ha
      refine ⟨[.str q.1], rfl, rfl, rfl, fun s hm => ?_, fun he => absurd he (by simp)⟩
      obtain rfl := Arg.str.inj (List.mem_singleton.mp hm)
      exact hcalls
    | long => exact absurd hk (kindOf_ne (by decide) (by decide))
    | ulong => exact absurd hk (kindOf_ne (by decide) (by decide))

/-- **A conversion with its arguments goes through**, if the string it prints does. -/
theorem convert_some (h : used.map Arg.kind = (percent d cs).1)
    (hp : ∀ s, .str s ∈ used → ∃ calls, print s = .ok calls) :
    ∃ calls, convert fd print (d :: (cs ++ [0])) (used ++ rest)
      = .ok (calls, (percent d cs).2 ++ [0], rest) := by
  by_cases hl : d = ch 'l'
  · subst hl
    exact convertLong_some h
  rw [percent_ne hl] at h ⊢
  cases hk : kindOf d with
  | none =>
    rw [hk] at h
    rw [List.map_eq_nil_iff.mp h, convert_none hl hk]
    exact ⟨_, rfl⟩
  | some k =>
    rw [hk] at h
    cases k with
    | int =>
      rw [convert_int hk]
      exact vaArg_of_kind (g := printInt fd d) int?_of_kind h
    | str =>
      obtain ⟨a, hused, ha⟩ := List.map_eq_singleton_iff.mp h
      rw [convert_str hk]
      cases a with
      | int n => cases ha
      | long n => cases ha
      | ulong n => cases ha
      | str s =>
        subst hused
        obtain ⟨calls, hcalls⟩ := hp s List.mem_cons_self
        refine ⟨calls, bind_eq_ok.mpr ⟨(s, rest), rfl, ?_⟩⟩
        rw [hcalls]
        rfl
    | long => exact absurd hk (kindOf_ne (by decide) (by decide))
    | ulong => exact absurd hk (kindOf_ne (by decide) (by decide))

/-! ## escape sequences -/

theorem written_append (calls calls' : List SysCall) :
    written fd (calls ++ calls') = written fd calls ++ written fd calls' := List.flatMap_append

theorem written_cons (call : SysCall) (calls : List SysCall) :
    written fd (call :: calls) = call.bytes fd ++ written fd calls := rfl

theorem bytes_write (b : List UInt8) : (SysCall.write fd b).bytes fd = b := if_pos rfl

/-- colours are not text -/
theorem written_setANSIProp (prop : UInt8) : written fd (setANSIProp prop) = [] := by
  have htext : ∀ c, written fd [.textColor c] = [] := fun _ => rfl
  have hback : ∀ c, written fd [.backgroundColor c] = [] := fun _ => rfl
  have hboth : ∀ c c', written fd [.textColor c, .backgroundColor c'] = [] := fun _ _ => rfl
  have hnil : written fd [] = [] := rfl
  unfold setANSIProp
  simp only [apply_ite (written fd), htext, hback, hboth, hnil, ite_self]

/-- the loop ends behind the first `m`, or reads on behind the NUL -/
theorem parseLoop_eq (fd : Int32) (cs : List UInt8) : ∀ prop,
    (parseLoop (cs ++ [0]) prop = .error .overread ∧ scan .ansi cs = none) ∨
      ∃ calls cs', parseLoop (cs ++ [0]) prop = .ok (calls, cs' ++ [0]) ∧
        scan .ansi cs = scan .text cs' ∧ cs' <:+ cs ∧ written fd calls = [] := by
  induction cs with
  | nil =>
    intro prop
    exact Or.inl ⟨rfl, rfl⟩
  | cons c cs ih =>
    intro prop
    by_cases hm : c = ch 'm'
    · exact Or.inr ⟨setANSIProp prop, cs, if_pos hm, if_pos hm, List.suffix_cons c cs,
        written_setANSIProp prop⟩
    have hscan : scan .ansi (c :: cs) = scan .ansi cs := if_neg hm
    rw [hscan]
    by_cases hc : c = ch ';'
    · have hstep : parseLoop (c :: cs ++ [0]) prop
          = (parseLoop (cs ++ [0]) 0).map fun r => (setANSIProp prop ++ r.1, r.2) :=
        (if_neg hm).trans (if_pos hc)
      rw [hstep]
      rcases ih 0 with ⟨he, hnone⟩ | ⟨calls, cs', hok, hs, hsuf, hw⟩
      · rw [he]
        exact Or.inl ⟨rfl, hnone⟩
      · rw [hok]
        refine Or.inr ⟨_, cs', rfl, hs, hsuf.trans (List.suffix_cons c cs), ?_⟩
        rw [written_append, written_setANSIProp, hw]
        rfl
    · have hstep : parseLoop (c :: cs ++ [0]) prop
          = parseLoop (cs ++ [0]) (prop * 10 + (c - ch '0')) := (if_neg hm).trans (if_neg hc)
      rw [hstep]
      rcases ih (prop * 10 + (c - ch '0')) with herr | ⟨calls, cs', hok, hs, hsuf, hw⟩
      · exact Or.inl herr
      · exact Or.inr ⟨calls, cs', hok, hs, hsuf.trans (List.suffix_cons c cs), hw⟩

/-- **A sequence is read to its end, or behind the NUL, or not at all.** -/
theorem parseANSI_eq (fd : Int32) (h0 : 0 ∉ cs) :
    (scan .escape cs = none ∧ (parseANSI (esc :: (cs ++ [0])) = .error .overread ∨
      parseANSI (esc :: (cs ++ [0])) = .ok ([], esc :: (cs ++ [0])))) ∨
    ∃ calls cs', parseANSI (esc :: (cs ++ [0])) = .ok (calls, cs' ++ [0]) ∧
      scan .escape cs = scan .text cs' ∧ cs' <:+ cs ∧ written fd calls = [] := by
  cases cs with
  | nil => exact Or.inl ⟨rfl, Or.inr rfl⟩
  | cons d cs =>
    by_cases hd : d = ch '['
    · subst hd
      cases cs with
      | nil => exact Or.inl ⟨rfl, Or.inr rfl⟩
      | cons c cs =>
        have hc : c ≠ 0 := fun e => h0 (by rw [e]; simp)
        have hstep : parseANSI (esc :: (ch '[' :: c :: cs ++ [0])) = parseLoop (c :: cs ++ [0]) 0 :=
          if_neg (not_or.mpr ⟨not_not_intro rfl, hc⟩)
        have hscan : scan .escape (ch '[' :: c :: cs) = scan .ansi (c :: cs) := if_pos rfl
        rw [hstep, hscan]
        rcases parseLoop_eq fd (c :: cs) 0 with ⟨he, hnone⟩ | ⟨calls, cs', hok, hs, hsuf, hw⟩
        · exact Or.inl ⟨hnone, Or.inl he⟩
        · exact Or.inr ⟨calls, cs', hok, hs, hsuf.trans (List.suffix_cons _ _), hw⟩
    · refine Or.inl ⟨if_neg hd, Or.inr ?_⟩
      cases cs with
      | nil => exact if_pos (Or.inl hd)
      | cons c cs => exact if_pos (Or.inl hd)

/-! ## whole calls -/

theorem vfprintf_esc (fd : Int32) (fuel : Nat) (rest : List UInt8) (args : List Arg) :
    vfprintf fd (fuel + 1) (esc :: rest) args = (parseANSI (esc :: rest)).bind fun r =>
      (vfprintf fd fuel r.2 args).map fun q => (.write fd [] :: r.1 ++ q.1, q.2) :=
  (if_neg (by decide)).trans (if_pos rfl)

theorem vfprintf_percent (fd : Int32) (fuel : Nat) (rest : List UInt8) (args : List Arg) :
    vfprintf fd (fuel + 1) (ch '%' :: rest) args
      = (convert fd (fun s => (vfprintf fd fuel s.chars []).map Prod.fst) rest args).bind fun r =>
          (vfprintf fd fuel r.2.1 r.2.2).map fun q => (r.1 ++ q.1, q.2) :=
  (if_neg (by decide)).trans ((if_neg (by decide)).trans (if_pos rfl))

theorem vfprintf_text (fd : Int32) (fuel : Nat) (rest : List UInt8) (args : List Arg) (h0 : c ≠ 0)
    (he : c ≠ esc) (hp : c ≠ ch '%') :
    vfprintf fd (fuel + 1) (c :: rest) args
      = (vfprintf fd fuel rest args).map fun q => (.write fd [c] :: q.1, q.2) :=
  (if_neg h0).trans ((if_neg he).trans (if_neg hp))

theorem scan_text (he : c ≠ esc) (hp : c ≠ ch '%') : scan .text (c :: cs) = scan .text cs :=
  (if_neg he).trans (if_neg hp)

/-- **A call that returns** has read a format of the automaton, and found the arguments it asks for; the
strings among them were such formats without arguments. -/
theorem vfprintf_ok (fuel : Nat) : ∀ {cs : List UInt8} {args : List Arg}
    {r : List SysCall × List Arg}, 0 ∉ cs → vfprintf fd fuel (cs ++ [0]) args = .ok r →
    ∃ used, scan .text cs = some (used.map Arg.kind) ∧ args = used ++ r.2 ∧
      ∀ s, .str s ∈ used → Plain s := by
  induction fuel with
  | zero =>
    intro cs args r h0 h
    cases h
  | succ fuel ih =>
    intro cs args r h0 h
    cases cs with
    | nil =>
      obtain rfl := Except.ok.inj h
      exact ⟨[], rfl, rfl, fun s hs => absurd hs List.not_mem_nil⟩
    | cons c cs =>
      obtain ⟨hc, h0'⟩ := List.ne_and_not_mem_of_not_mem_cons h0
      have hsub : ∀ {cs'}, cs' <:+ cs → 0 ∉ cs' := fun hs hm => h0' (hs.subset hm)
      rw [List.cons_append] at h
      by_cases he : c = esc
      · subst he
        rw [vfprintf_esc] at h
        obtain ⟨p, hp, hmap⟩ := bind_eq_ok.mp h
        obtain ⟨q, hq, rfl⟩ := map_eq_ok.mp hmap
        clear h hmap
        rcases parseANSI_eq fd h0' with ⟨hnone, hbad | hsame⟩ | ⟨calls, cs', hok, hs, hsuf, -⟩
        · rw [hbad] at hp
          cases hp
        · -- the sequence is still in front, so that the rest of the call fails too
          rw [hsame] at hp
          obtain rfl := Except.ok.inj hp
          obtain ⟨used, hs, -⟩ := ih h0 hq
          have hno : scan .text (esc :: cs) = none := (if_pos rfl).trans hnone
          rw [hno] at hs
          cases hs
        · rw [hok] at hp
          obtain rfl := Except.ok.inj hp
          obtain ⟨used, hs', hargs, hplain⟩ := ih (hsub hsuf) hq
          have hscan : scan .text (esc :: cs) = scan .text cs' := (if_pos rfl).trans hs
          exact ⟨used, hscan.trans hs', hargs, hplain⟩
      by_cases hp : c = ch '%'
      · subst hp
        rw [vfprintf_percent] at h
        obtain ⟨p, hp, hmap⟩ := bind_eq_ok.mp h
        obtain ⟨q, hq, rfl⟩ := map_eq_ok.mp hmap
        clear h hmap
        cases cs with
        | nil =>
          -- behind the NUL
          have hend : convert fd (fun s => (vfprintf fd fuel s.chars []).map Prod.fst) [0] args
              = .ok ([], [], args) := rfl
          rw [List.nil_append, hend] at hp
          obtain rfl := Except.ok.inj hp
          cases fuel <;> cases hq
        | cons d cs =>
          obtain ⟨used, hconv⟩ := convert_ok hp
          rw [hconv.format] at hq
          have hsuf := (percent_suffix d cs).trans (List.suffix_cons d cs)
          obtain ⟨used', hs, hargs, hplain⟩ := ih (hsub hsuf) hq
          refine ⟨used ++ used', ?_, ?_, fun s hm => ?_⟩
          · have hscan : scan .text (ch '%' :: d :: cs) = scan .percent (d :: cs) :=
              (if_neg (by decide)).trans (if_pos rfl)
            rw [hscan, scan_percent, hs, List.map_append, hconv.kinds]
            rfl
          · rw [hconv.args, hargs, List.append_assoc]
          · rcases List.mem_append.mp hm with hm | hm
            · -- the string was a format of its own, with no arguments
              obtain ⟨q', hq', -⟩ := map_eq_ok.mp (hconv.prints s hm)
              obtain ⟨used'', hs'', hnil, -⟩ := ih s.noNul hq'
              rw [(List.append_eq_nil_iff.mp hnil.symm).1] at hs''
              exact hs''
            · exact hplain s hm
      · rw [vfprintf_text fd fuel _ args (Ne.symm hc) he hp] at h
        obtain ⟨q, hq, rfl⟩ := map_eq_ok.mp h
        obtain ⟨used, hs, hrest⟩ := ih h0' hq
        exact ⟨used, (scan_text he hp).trans hs, hrest⟩

/-- **A call on such a format returns.** -/
theorem vfprintf_of_scan (fuel : Nat) : ∀ {L : Nat} {cs : List UInt8} {used : List Arg}
    (rest : List Arg), 0 ∉ cs → scan .text cs = some (used.map Arg.kind) →
    (∀ s, .str s ∈ used → Plain s ∧ s.bytes.length < L) → cs.length + L < fuel →
    ∃ calls, vfprintf fd fuel (cs ++ [0]) (used ++ rest) = .ok (calls, rest) := by
  induction fuel with
  | zero =>
    intro L cs used rest h0 hscan hstr hf
    exact absurd hf (Nat.not_lt_zero _)
  | succ fuel ih =>
    intro L cs used rest h0 hscan hstr hf
    cases cs with
    | nil =>
      have hnil : used = [] := List.map_eq_nil_iff.mp (Option.some.inj hscan).symm
      rw [hnil]
      exact ⟨[], rfl⟩
    | cons c cs =>
      obtain ⟨hc, h0'⟩ := List.ne_and_not_mem_of_not_mem_cons h0
      have hsub : ∀ {cs'}, cs' <:+ cs → 0 ∉ cs' := fun hs hm => h0' (hs.subset hm)
      have hlen : (c :: cs).length = cs.length + 1 := List.length_cons
      rw [List.cons_append]
      by_cases he : c = esc
      · subst he
        have hscan' : scan .escape cs = some (used.map Arg.kind) := hscan
        rcases parseANSI_eq fd h0' with ⟨hnone, -⟩ | ⟨calls, cs', hok, hs, hsuf, -⟩
        · rw [hnone] at hscan'
          cases hscan'
        · have hle := hsuf.length_le
          rw [hs] at hscan'
          obtain ⟨calls', hr⟩ := ih rest (hsub hsuf) hscan' hstr (by omega)
          rw [vfprintf_esc, hok]
          refine ⟨.write fd [] :: calls ++ calls', map_eq_ok.mpr ⟨_, hr, rfl⟩⟩
      by_cases hp : c = ch '%'
      · subst hp
        have hscan' : scan .percent cs = some (used.map Arg.kind) := hscan
        cases cs with
        | nil => cases hscan'
        | cons d cs =>
          rw [scan_percent] at hscan'
          obtain ⟨ks, hks, heq⟩ := Option.map_eq_some_iff.mp hscan'
          obtain ⟨used₁, used₂, rfl, h₁, h₂⟩ := List.map_eq_append_iff.mp heq.symm
          have hsuf := (percent_suffix d cs).trans (List.suffix_cons d cs)
          have hle := hsuf.length_le
          rw [← h₂] at hks
          -- a string is printed with the fuel that is left, on no arguments
          have hprint : ∀ s, .str s ∈ used₁ →
              ∃ calls, (vfprintf fd fuel s.chars []).map Prod.fst = .ok calls := by
            intro s hm
            obtain ⟨hplain, hlt⟩ := hstr s (List.mem_append_left _ hm)
            have hr : ∃ calls, vfprintf fd fuel (s.bytes ++ [0]) ([] ++ []) = .ok (calls, []) :=
              ih (L := 0) [] s.noNul hplain (fun s hs => absurd hs List.not_mem_nil) (by omega)
            obtain ⟨calls, hr⟩ := hr
            exact ⟨calls, map_eq_ok.mpr ⟨_, hr, rfl⟩⟩
          have hconv : ∃ calls, convert fd _ (d :: (cs ++ [0])) (used₁ ++ (used₂ ++ rest))
              = .ok (calls, (percent d cs).2 ++ [0], used₂ ++ rest) := convert_some h₁ hprint
          obtain ⟨calls, hconv⟩ := hconv
          obtain ⟨calls', hr⟩ := ih rest (hsub hsuf) hks
            (fun s hm => hstr s (List.mem_append_right _ hm)) (by omega)
          rw [List.append_assoc, vfprintf_percent, List.cons_append, hconv]
          exact ⟨calls ++ calls', map_eq_ok.mpr ⟨_, hr, rfl⟩⟩
      · rw [scan_text he hp] at hscan
        obtain ⟨calls, hr⟩ := ih rest h0' hscan hstr (by omega)
        rw [vfprintf_text fd fuel _ _ (Ne.symm hc) he hp]
        exact ⟨.write fd [c] :: calls, map_eq_ok.mpr ⟨_, hr, rfl⟩⟩

end

/-- the call returns, and has read no byte behind the NUL of its format or of a string -/
def Returns (fd : Int32) (format : CString) (args : List Arg) : Prop :=
  ∃ N, ∀ fuel, N ≤ fuel → ∃ r, vfprintf fd fuel format.chars args = .ok r

/-- **`vfprintf` stays inside its format and ends** exactly when every `%` has a character behind it and
every ESC a `[` and an `m`, the arguments are those that the format asks for, and the strings for `%s` are
such formats too, without arguments of their own. -/
theorem vfprintf_returns_iff (fd : Int32) (format : CString) (args : List Arg) :
    Returns fd format args ↔ ∃ used rest, args = used ++ rest ∧
      scan .text format.bytes = some (used.map Arg.kind) ∧ ∀ s, .str s ∈ used → Plain s := by
  constructor
  · rintro ⟨N, h⟩
    obtain ⟨r, hr⟩ := h N (Nat.le_refl N)
    obtain ⟨used, hs, hargs, hplain⟩ := vfprintf_ok N format.noNul hr
    exact ⟨used, r.2, hargs, hs, hplain⟩
  · rintro ⟨used, rest, rfl, hs, hplain⟩
    -- more fuel than any of the strings needs
    obtain ⟨L, hL⟩ : ∃ L, ∀ s, .str s ∈ used → s.bytes.length < L := by
      clear hs hplain
      induction used with
      | nil => exact ⟨0, fun s hs => absurd hs List.not_mem_nil⟩
      | cons a used ih =>
        obtain ⟨L, hL⟩ := ih
        cases a with
        | str s =>
          refine ⟨L + s.bytes.length + 1, fun s' hm => ?_⟩
          rcases List.mem_cons.mp hm with e | hm
          · rw [Arg.str.inj e]
            omega
          · have := hL s' hm
            omega
        | int n => exact ⟨L, fun s' hm => hL s' ((List.mem_cons.mp hm).resolve_left nofun)⟩
        | long n => exact ⟨L, fun s' hm => hL s' ((List.mem_cons.mp hm).resolve_left nofun)⟩
        | ulong n => exact ⟨L, fun s' hm => hL s' ((List.mem_cons.mp hm).resolve_left nofun)⟩
    refine ⟨format.bytes.length + L + 1, fun fuel hf => ?_⟩
    obtain ⟨calls, hr⟩ := vfprintf_of_scan fuel rest format.noNul hs
      (fun s hm => ⟨hplain s hm, hL s hm⟩) (by omega)
    exact ⟨_, hr⟩

/-- a format that ends with `%` is read behind its NUL -/
theorem vfprintf_trailing_percent : ∃ format : CString, format.bytes = [ch '%'] ∧
    (∀ fuel, vfprintf fdStdout (fuel + 2) format.chars [] = .error .overread) ∧
    ¬ Returns fdStdout format [] := by
  refine ⟨⟨[ch '%'], by decide⟩, rfl, fun fuel => rfl, ?_⟩
  rintro ⟨N, h⟩
  obtain ⟨r, hr⟩ := h (N + 2) (by omega)
  have hbad : vfprintf fdStdout (N + 2) (CString.chars ⟨[ch '%'], by decide⟩) [] = .error .overread :=
    rfl
  rw [hbad] at hr
  cases hr

end Libc

end Tp2So
