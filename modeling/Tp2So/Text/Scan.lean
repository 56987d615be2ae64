import Tp2So.Text.Decimal
import Tp2So.Text.Verbatim

/-!
# Values that `vsscanf` reads back

`vsscanf` steps over a literal of the format without moving in the buffer, so that a second conversion
begins to read at the literal before its value; and `%s` stores every second byte.

* `Layout`            formats of conversions with single literals between them;
* `printf_layout`     `Layout.render` is what `printf` writes;
* `second_unread`     how the conversion behind a literal fails;
* `recovers_iff`      the formats whose values come back.
-/

set_option linter.unusedVariables false

namespace Tp2So

namespace Libc

inductive Conversion where
  | int
  | str
  | char
  deriving DecidableEq

def Conversion.letter : Conversion → UInt8
  | .int => ch 'd'
  | .str => ch 's'
  | .char => ch 'c'

/-- a character that `vfprintf` and `vsscanf` do not interpret -/
structure Literal where
  char : UInt8
  ne_nul : char ≠ 0
  ne_percent : char ≠ ch '%'
  ne_esc : char ≠ esc

/-- a non-empty string without spaces and newlines -/
structure Word where
  text : CString
  ne_nil : text.bytes ≠ []
  noSpace : ch ' ' ∉ text.bytes
  noNewline : ch '\n' ∉ text.bytes

inductive Value where
  | int (n : Int32)
  | str (s : Word)
  | char (c : UInt8)

def Value.conversion : Value → Conversion
  | .int _ => .int
  | .str _ => .str
  | .char _ => .char

/-- conversions, with a literal before each but the first -/
inductive Layout where
  | empty
  | begin (k : Conversion) (more : List (Literal × Conversion))

def Layout.conversions : Layout → List Conversion
  | .empty => []
  | .begin k more => k :: more.map Prod.snd

def formatMore : List (Literal × Conversion) → List UInt8
  | [] => []
  | (lit, k) :: more => lit.char :: ch '%' :: k.letter :: formatMore more

def Layout.format : Layout → List UInt8
  | .empty => []
  | .begin k more => ch '%' :: k.letter :: formatMore more

/-- the text of a value -/
def Value.text : Value → List UInt8
  | .int n => written fdStdout (printBase fdStdout n 10)
  | .str s => s.text.bytes
  | .char c => [c]

def renderMore : List (Literal × Conversion) → List Value → List UInt8
  | (lit, _) :: more, v :: vs => lit.char :: (v.text ++ renderMore more vs)
  | _, _ => []

/-- the values, rendered with the format -/
def Layout.render : Layout → List Value → List UInt8
  | .begin _ more, v :: vs => v.text ++ renderMore more vs
  | _, _ => []

def Cell.conversion : Cell → Conversion
  | .int _ => .int
  | .str _ => .str
  | .char _ => .char

/-- the cell holds the value; a string is contiguous, with its NUL -/
def Cell.Holds : Cell → Value → Prop
  | .int n, .int n' => n = n'
  | .char c, .char c' => c = c'
  | .str m, .str s => ∀ i, i ≤ s.text.bytes.length → m i = s.text.chars.getD i 0
  | _, _ => False

/-- whatever the cells hold before, `vsscanf` stores the values there and counts them all -/
def Recovers (f : Layout) (vs : List Value) : Prop :=
  ∀ cells, cells.map Cell.conversion = f.conversions →
    ∃ cells', vsscanf (f.render vs ++ [0]) (f.format ++ [0]) cells = .ok (cells', f.conversions.length) ∧
      List.Forall₂ Cell.Holds cells' vs

section
variable {k : Conversion} {lit : Literal} {more : List (Literal × Conversion)} {vs : List Value}
  {buffer format : List UInt8} {cell : Cell} {cells : List Cell} {m : Nat → UInt8} {r : Scanned}

/-! ## steps of `vsscanf` -/

theorem vsscanf_directive (buffer format : List UInt8) (k : Conversion) (cells : List Cell) :
    vsscanf buffer (ch '%' :: k.letter :: format) cells = (scanOne k.letter buffer cells).bind fun r =>
      (vsscanf r.buffer format r.cells).map fun q => (r.stored ++ q.1, r.count + q.2) := rfl

theorem vsscanf_literal (buffer format : List UInt8) (lit : Literal) (cells : List Cell) :
    vsscanf buffer (lit.char :: format) cells = vsscanf buffer format cells := by
  rw [vsscanf.eq_def]
  exact (if_neg lit.ne_nul).trans (if_neg lit.ne_percent)

theorem storeInt_count {n : Int32} {c : Nat} (h : storeInt n cells buffer c = .ok r) :
    r.count = c ∧ r.stored = [.int n] := by
  unfold storeInt at h
  split at h
  · obtain rfl := Except.ok.inj h
    exact ⟨rfl, rfl⟩
  · cases h

theorem scanInt_count (h : scanInt cells buffer = .ok r) : r.count ≤ 1 := by
  unfold scanInt at h
  split at h
  · cases h
  · split at h
    · obtain rfl := Except.ok.inj h
      exact Nat.zero_le 1
    · split at h
      all_goals
        obtain ⟨p, -, hstore⟩ := bind_eq_ok.mp h
        rw [(storeInt_count hstore).1]
        exact Bool.toNat_le p.2.1

theorem storeChar_count {c : UInt8} (h : storeChar c cells buffer = .ok r) : r.count = 1 := by
  unfold storeChar at h
  split at h
  · obtain rfl := Except.ok.inj h
    rfl
  · cases h

theorem storeString_count (h : storeString cells buffer = .ok r) : r.count = 1 := by
  unfold storeString at h
  split at h
  · obtain ⟨p, -, rfl⟩ := map_eq_ok.mp h
    rfl
  · cases h

theorem scanOne_count (h : scanOne k.letter buffer cells = .ok r) : r.count ≤ 1 := by
  cases k with
  | int => exact scanInt_count h
  | str => exact Nat.le_of_eq (storeString_count h)
  | char =>
    cases buffer with
    | nil => cases h
    | cons c buffer => exact Nat.le_of_eq (storeChar_count h)

theorem vsscanf_count (more : List (Literal × Conversion)) : ∀ {buffer : List UInt8}
    {cells : List Cell} {q : List Cell × Nat},
    vsscanf buffer (formatMore more ++ [0]) cells = .ok q → q.2 ≤ more.length := by
  induction more with
  | nil =>
    intro buffer cells q h
    obtain rfl := Except.ok.inj h
    exact Nat.le_refl _
  | cons x more ih =>
    intro buffer cells q h
    have h' : vsscanf buffer (x.1.char :: (ch '%' :: x.2.letter :: (formatMore more ++ [0]))) cells
        = .ok q := h
    rw [vsscanf_literal, vsscanf_directive] at h'
    obtain ⟨r, hr, hmap⟩ := bind_eq_ok.mp h'
    obtain ⟨p, hp, rfl⟩ := map_eq_ok.mp hmap
    have h1 := scanOne_count hr
    have h2 := ih hp
    rw [List.length_cons]
    show r.count + p.2 ≤ _
    omega

/-- `%s` moves on twice for each character, and stores at the first -/
theorem scanString_skips (buffer : List UInt8) : ∀ {str : Nat} {m : Nat → UInt8}
    {q : (Nat → UInt8) × List UInt8} {i : Nat}, scanString buffer str m = .ok q → i % 2 ≠ str % 2 →
    q.1 i = m i := by
  induction buffer with
  | nil =>
    intro str m q i h hi
    cases h
  | cons c buffer ih =>
    intro str m q i h hi
    have hne : i ≠ str := fun e => hi (by rw [e])
    by_cases hc : c ≠ ch ' ' ∧ c ≠ ch '\n' ∧ c ≠ 0
    · have hstep : scanString (c :: buffer) str m
          = scanString buffer (str + 2) (Function.update m str c) := if_pos hc
      rw [hstep] at h
      rw [ih h (by omega), Function.update_of_ne hne]
    · have hstep : scanString (c :: buffer) str m = .ok (Function.update m str 0, c :: buffer) :=
        if_neg hc
      rw [hstep] at h
      obtain rfl := Except.ok.inj h
      exact Function.update_of_ne hne _ _

/-! ## where a value is lost -/

/-- memory in which no byte is a NUL -/
def stale : Nat → UInt8 := fun _ => 1

/-- a cell that holds something else before the call -/
def blankCell : Conversion → Cell
  | .int => .int 0
  | .str => .str stale
  | .char => .char 0

/-- the string `"x"` -/
def wordX : Word := ⟨⟨[ch 'x'], by decide⟩, by decide, by decide, by decide⟩

/-- a value that does not begin with a digit, nor with the literal -/
def probe (lit : Literal) : Conversion → Value
  | .int => .int (-1)
  | .str => .str wordX
  | .char => .char (if lit.char = ch 'x' then ch 'y' else ch 'x')

/-- `%s` never reads back `"x"` -/
theorem stale_word {q : (Nat → UInt8) × List UInt8} (h : scanString buffer 0 stale = .ok q) :
    ¬ (Cell.str q.1).Holds (.str wordX) := by
  intro hh
  have h1 : q.1 1 = 0 := hh 1 (by decide)
  have h2 : q.1 1 = 1 := scanString_skips buffer h (by decide)
  exact absurd (h2.symm.trans h1) (by decide)

theorem isDigit_cases : ∀ n, n < 256 → isDigit (UInt8.ofNat n) = true →
    ∃ d, d < 10 ∧ UInt8.ofNat n = digit d := by decide +kernel

theorem exists_digit {c : UInt8} (h : isDigit c = true) : ∃ d, d < 10 ∧ c = digit d := by
  have hc : UInt8.ofNat c.toNat = c := UInt8.ofNat_toNat
  have := isDigit_cases c.toNat c.toNat_lt (by rw [hc]; exact h)
  rw [hc] at this
  exact this

theorem probe_int_text (lit : Literal) : (probe lit .int).text = [ch '-', ch '1'] := by
  show written fdStdout (printBase fdStdout (-1) 10) = _
  decide

/-- **The conversion behind a literal reads the literal**: it counts for nothing, or stores something
else. -/
theorem second_unread {rest : List UInt8}
    (h : scanOne k.letter (lit.char :: ((probe lit k).text ++ rest)) (blankCell k :: cells) = .ok r) :
    r.count = 0 ∨ ∃ cell, r.stored = [cell] ∧ ¬ cell.Holds (probe lit k) := by
  cases k with
  | int =>
    rw [probe_int_text] at h
    have h' : scanInt (blankCell .int :: cells) (lit.char :: ([ch '-', ch '1'] ++ rest)) = .ok r := h
    by_cases hstart : lit.char ≠ ch '-' ∧ isDigit lit.char = false
    · have hnone : scanInt (blankCell .int :: cells) (lit.char :: ([ch '-', ch '1'] ++ rest))
          = .ok ⟨[], blankCell .int :: cells, lit.char :: ([ch '-', ch '1'] ++ rest), 0⟩ := if_pos hstart
      rw [hnone] at h'
      obtain rfl := Except.ok.inj h'
      exact Or.inl rfl
    by_cases hminus : lit.char = ch '-'
    · -- the sign is the literal, and the one of the value ends the number
      rw [hminus] at h'
      obtain rfl := Except.ok.inj h'
      exact Or.inl rfl
    · have hdigit : isDigit lit.char = true := by
        by_contra hd
        exact hstart ⟨hminus, Bool.eq_false_iff.mpr hd⟩
      obtain ⟨d, hd, he⟩ := exists_digit hdigit
      have hread : scanInt (blankCell .int :: cells) (lit.char :: ([ch '-', ch '1'] ++ rest))
          = (scanDigits (lit.char :: ([ch '-', ch '1'] ++ rest)) 0 false).bind fun r =>
              storeInt (r.1 * 1) (blankCell .int :: cells) r.2.2 r.2.1.toNat :=
        (if_neg hstart).trans (if_neg hminus)
      rw [hread, he, scanDigits_digit hd] at h'
      obtain rfl := Except.ok.inj h'
      refine Or.inr ⟨_, rfl, fun hh => ?_⟩
      have hval : (0 * 10 + Int32.ofNat d) * 1 = -1 := hh
      have hne : ∀ d, d < 10 → (0 * 10 + Int32.ofNat d) * 1 ≠ -1 := by decide
      exact hne d hd hval
  | str =>
    have h' : (scanString (lit.char :: ((probe lit .str).text ++ rest)) 0 stale).map
        (fun q => Scanned.mk [.str q.1] cells q.2 1) = .ok r := h
    obtain ⟨q, hq, rfl⟩ := map_eq_ok.mp h'
    exact Or.inr ⟨_, rfl, stale_word hq⟩
  | char =>
    obtain rfl := Except.ok.inj (show Except.ok (Scanned.mk [.char lit.char] cells _ 1) = .ok r from h)
    refine Or.inr ⟨_, rfl, fun hh => ?_⟩
    have hval : lit.char = if lit.char = ch 'x' then ch 'y' else ch 'x' := hh
    split at hval
    · rename_i hx
      rw [hx] at hval
      exact absurd hval (by decide)
    · rename_i hx
      exact hx hval

/-- so it is with the rest of the format -/
theorem more_unread {rest : List UInt8} {q : List Cell × Nat}
    (h : vsscanf (lit.char :: ((probe lit k).text ++ rest)) (formatMore ((lit, k) :: more) ++ [0])
      (blankCell k :: cells) = .ok q) :
    q.2 ≤ more.length ∨ ∃ cell cells', q.1 = cell :: cells' ∧ ¬ cell.Holds (probe lit k) := by
  have h' : vsscanf (lit.char :: ((probe lit k).text ++ rest))
      (lit.char :: (ch '%' :: k.letter :: (formatMore more ++ [0]))) (blankCell k :: cells) = .ok q := h
  rw [vsscanf_literal, vsscanf_directive] at h'
  obtain ⟨r, hr, hmap⟩ := bind_eq_ok.mp h'
  obtain ⟨p, hp, rfl⟩ := map_eq_ok.mp hmap
  have hcount := vsscanf_count more hp
  rcases second_unread hr with h0 | ⟨cell, hs, hnot⟩
  · refine Or.inl ?_
    show r.count + p.2 ≤ _
    omega
  · refine Or.inr ⟨cell, p.1, ?_, hnot⟩
    show r.stored ++ p.1 = _
    rw [hs]
    rfl

/-- values that no format with two conversions, or with `%s`, gives back -/
def firstProbe : Conversion → Value
  | .int => .int 1
  | .str => .str wordX
  | .char => .char (ch 'x')

def probes (k : Conversion) (more : List (Literal × Conversion)) : List Value :=
  firstProbe k :: more.map fun x => probe x.1 x.2

theorem probe_text (lit : Literal) (k : Conversion) :
    ∃ c rest, (probe lit k).text = c :: rest ∧ isDigit c = false := by
  cases k with
  | int => exact ⟨_, _, probe_int_text lit, by decide⟩
  | str => exact ⟨ch 'x', [], rfl, by decide⟩
  | char =>
    refine ⟨_, [], rfl, ?_⟩
    split
    · decide
    · decide

/-- the first conversion stores something else, or stops at the literal -/
theorem first_read {c : UInt8} {rest : List UInt8} (hc : isDigit c = false)
    (h : scanOne k.letter ((firstProbe k).text ++ lit.char :: c :: rest) (blankCell k :: cells) = .ok r) :
    (∃ cell, r.stored = [cell] ∧ ¬ cell.Holds (firstProbe k)) ∨
      ∃ cell, r = ⟨[cell], cells, lit.char :: c :: rest, 1⟩ := by
  cases k with
  | int =>
    have h' : scanInt (blankCell .int :: cells)
        (written fdStdout (printBase fdStdout 1 10) ++ lit.char :: c :: rest) = .ok r := h
    by_cases hlit : isDigit lit.char = false
    · have hread : scanInt (blankCell .int :: cells)
          (written fdStdout (printBase fdStdout 1 10) ++ lit.char :: c :: rest)
          = .ok ⟨[.int 1], cells, lit.char :: c :: rest, 1⟩ := scanInt_printBase hlit
      rw [hread] at h'
      exact Or.inr ⟨_, (Except.ok.inj h').symm⟩
    · -- the literal is one digit more
      obtain ⟨d, hd, he⟩ := exists_digit (Bool.not_eq_false _ ▸ hlit)
      have htext : written fdStdout (printBase fdStdout 1 10) = [digit 1] := by decide
      have hend : ∀ num, scanDigits (c :: rest) num true = .ok (num, true, c :: rest) :=
        fun num => if_neg (by rw [hc]; exact Bool.false_ne_true)
      have hstep : scanInt (blankCell .int :: cells) (digit 1 :: lit.char :: c :: rest)
          = (scanDigits (digit 1 :: lit.char :: c :: rest) 0 false).bind fun r =>
              storeInt (r.1 * 1) (blankCell .int :: cells) r.2.2 r.2.1.toNat := rfl
      rw [htext, List.singleton_append, hstep, he, scanDigits_digit (by decide), scanDigits_digit hd,
        hend] at h'
      obtain rfl := Except.ok.inj h'
      refine Or.inl ⟨_, rfl, fun hh => ?_⟩
      have hval : ((0 * 10 + Int32.ofNat 1) * 10 + Int32.ofNat d) * 1 = 1 := hh
      have hne : ∀ d, d < 10 → ((0 * 10 + Int32.ofNat 1) * 10 + Int32.ofNat d) * 1 ≠ 1 := by decide
      exact hne d hd hval
  | str =>
    have h' : (scanString ((firstProbe .str).text ++ lit.char :: c :: rest) 0 stale).map
        (fun q => Scanned.mk [.str q.1] cells q.2 1) = .ok r := h
    obtain ⟨q, hq, rfl⟩ := map_eq_ok.mp h'
    exact Or.inl ⟨_, rfl, stale_word hq⟩
  | char => exact Or.inr ⟨_, (Except.ok.inj h).symm⟩

theorem forall₂_head {cell : Cell} {v : Value} {vs : List Value}
    (h : List.Forall₂ Cell.Holds (cell :: cells) (v :: vs)) : cell.Holds v :=
  (List.forall₂_cons.mp h).1

/-- **Two conversions, or `%s`, and some values do not come back.** -/
theorem not_recovers (h : k = .str ∨ more ≠ []) : ¬ Recovers (.begin k more) (probes k more) := by
  intro hrec
  obtain ⟨cells', hv, hholds⟩ := hrec ((k :: more.map Prod.snd).map blankCell) (by
    rw [List.map_map]
    refine (List.map_congr_left fun k _ => ?_).trans (List.map_id _)
    cases k <;> rfl)
  have hv' : vsscanf ((firstProbe k).text ++ renderMore more (more.map fun x => probe x.1 x.2) ++ [0])
      (ch '%' :: k.letter :: (formatMore more ++ [0]))
      (blankCell k :: (more.map Prod.snd).map blankCell)
      = .ok (cells', (k :: more.map Prod.snd).length) := hv
  rw [vsscanf_directive] at hv'
  obtain ⟨r, hr, hmap⟩ := bind_eq_ok.mp hv'
  obtain ⟨q, hq, he⟩ := map_eq_ok.mp hmap
  obtain ⟨hcells, hcount⟩ := Prod.mk.inj he
  cases more with
  | nil =>
    obtain rfl := h.resolve_right (not_not_intro rfl)
    have hr' : (scanString ((firstProbe .str).text ++ [] ++ [0]) 0 stale).map
        (fun q => Scanned.mk [.str q.1] [] q.2 1) = .ok r := hr
    obtain ⟨p, hp, rfl⟩ := map_eq_ok.mp hr'
    rw [← hcells] at hholds
    exact stale_word hp (forall₂_head hholds)
  | cons x more =>
    obtain ⟨lit, k₂⟩ := x
    obtain ⟨c, rest, htext, hc⟩ := probe_text lit k₂
    have hbuffer : (firstProbe k).text ++ renderMore ((lit, k₂) :: more)
        (((lit, k₂) :: more).map fun x => probe x.1 x.2) ++ [0]
        = (firstProbe k).text ++ lit.char :: ((probe lit k₂).text ++
            (renderMore more (more.map fun x => probe x.1 x.2) ++ [0])) := by
      rw [List.append_assoc]
      show _ ++ (lit.char :: ((probe lit k₂).text ++ _) ++ [0]) = _
      rw [List.cons_append, List.append_assoc]
    rw [hbuffer, htext, List.cons_append] at hr
    rcases first_read hc hr with ⟨cell, hs, hnot⟩ | ⟨cell, rfl⟩
    · rw [hs] at hcells
      rw [← hcells] at hholds
      exact hnot (forall₂_head hholds)
    · rw [← List.cons_append, ← htext] at hq
      rcases more_unread hq with hle | ⟨cell', cells'', hs, hnot⟩
      · have hcount' : 1 + q.2 = (k :: ((lit, k₂) :: more).map Prod.snd).length := hcount
        simp only [List.length_cons, List.length_map] at hcount'
        omega
      · rw [hs] at hcells
        rw [← hcells] at hholds
        exact hnot (forall₂_head (List.forall₂_cons.mp hholds).2)

end

/-- **`vsscanf` gives back what was rendered**, for all values of a format, exactly when the format has one
conversion at most, and that is `%d` or `%c`. -/
theorem recovers_iff (f : Layout) :
    (∀ vs, vs.map Value.conversion = f.conversions → Recovers f vs) ↔
      f.conversions = [] ∨ f.conversions = [.int] ∨ f.conversions = [.char] := by
  constructor
  · intro h
    cases f with
    | empty => exact Or.inl rfl
    | begin k more =>
      by_cases hbad : k = .str ∨ more ≠ []
      · refine absurd (h (probes k more) ?_) (not_recovers hbad)
        have hfirst : (firstProbe k).conversion = k := by cases k <;> rfl
        have hmore : (more.map fun x => probe x.1 x.2).map Value.conversion = more.map Prod.snd := by
          rw [List.map_map]
          refine List.map_congr_left fun x _ => ?_
          obtain ⟨lit, k⟩ := x
          cases k <;> rfl
        exact congrArg₂ List.cons hfirst hmore
      · obtain ⟨hk, hmore⟩ := not_or.mp hbad
        obtain rfl := not_not.mp hmore
        cases k with
        | int => exact Or.inr (Or.inl rfl)
        | str => exact absurd rfl hk
        | char => exact Or.inr (Or.inr rfl)
  · intro h vs hvs cells hcells
    rcases h with h | h | h
    · rw [h] at hvs hcells ⊢
      rw [List.map_eq_nil_iff.mp hvs, List.map_eq_nil_iff.mp hcells]
      cases f with
      | empty => exact ⟨[], rfl, List.Forall₂.nil⟩
      | begin k more => cases h
    · rw [h] at hvs hcells ⊢
      obtain ⟨v, rfl, hv⟩ := List.map_eq_singleton_iff.mp hvs
      obtain ⟨cell, rfl, hcell⟩ := List.map_eq_singleton_iff.mp hcells
      cases f with
      | empty => cases h
      | begin k more =>
        obtain ⟨rfl, hmore⟩ := List.cons.inj h
        obtain rfl := List.map_eq_nil_iff.mp hmore
        cases v with
        | str s => cases hv
        | char c => cases hv
        | int n =>
          cases cell with
          | str m => cases hcell
          | char c => cases hcell
          | int m =>
            refine ⟨[.int n], ?_, List.Forall₂.cons rfl List.Forall₂.nil⟩
            have hread : scanInt [.int m] (written fdStdout (printBase fdStdout n 10) ++ [0])
                = .ok ⟨[.int n], [], [0], 1⟩ := scanInt_printBase (by decide)
            have hrender : (Layout.begin .int []).render [.int n]
                = written fdStdout (printBase fdStdout n 10) := List.append_nil _
            rw [hrender]
            show (scanInt [.int m] (written fdStdout (printBase fdStdout n 10) ++ [0])).bind _ = _
            rw [hread]
            rfl
    · rw [h] at hvs hcells ⊢
      obtain ⟨v, rfl, hv⟩ := List.map_eq_singleton_iff.mp hvs
      obtain ⟨cell, rfl, hcell⟩ := List.map_eq_singleton_iff.mp hcells
      cases f with
      | empty => cases h
      | begin k more =>
        obtain ⟨rfl, hmore⟩ := List.cons.inj h
        obtain rfl := List.map_eq_nil_iff.mp hmore
        cases v with
        | str s => cases hv
        | int n => cases hv
        | char c =>
          cases cell with
          | str m => cases hcell
          | int n => cases hcell
          | char c' => exact ⟨[.char c], rfl, List.Forall₂.cons rfl List.Forall₂.nil⟩

/-- the second number of `"1 2"` is not read -/
theorem vsscanf_two_ints : ∃ (space : Literal), space.char = ch ' ' ∧
    (Layout.begin .int [(space, .int)]).format = [ch '%', ch 'd', ch ' ', ch '%', ch 'd'] ∧
    (Layout.begin .int [(space, .int)]).render [.int 1, .int 2] = [ch '1', ch ' ', ch '2'] ∧
    vsscanf [ch '1', ch ' ', ch '2', 0] [ch '%', ch 'd', ch ' ', ch '%', ch 'd', 0] [.int 0, .int 0]
      = .ok ([.int 1, .int 0], 1) ∧
    ¬ Recovers (.begin .int [(space, .int)]) [.int 1, .int 2] := by
  have hrender : (Layout.begin .int [(⟨ch ' ', by decide, by decide, by decide⟩, .int)]).render
      [.int 1, .int 2] = [ch '1', ch ' ', ch '2'] := by decide
  have hrun : vsscanf [ch '1', ch ' ', ch '2', 0] [ch '%', ch 'd', ch ' ', ch '%', ch 'd', 0]
      [.int 0, .int 0] = .ok ([.int 1, .int 0], 1) := rfl
  refine ⟨⟨ch ' ', by decide, by decide, by decide⟩, rfl, rfl, hrender, hrun, fun hr => ?_⟩
  obtain ⟨cells', hv, -⟩ := hr [.int 0, .int 0] rfl
  rw [hrender] at hv
  have hcount := (Prod.mk.inj (Except.ok.inj (hrun.symm.trans hv))).2
  exact absurd hcount (by decide)

/-! ## `printf` renders -/

/-- the argument for a value; a `char` is passed as an `int` -/
def Value.arg : Value → Arg
  | .int n => .int n
  | .str s => .str s.text
  | .char c => .int (charInt c)

/-- a string among the values has no `%` and no ESC -/
def Value.Inert : Value → Prop
  | .str s => ch '%' ∉ s.text.bytes ∧ esc ∉ s.text.bytes
  | _ => True

theorem vfprintf_value {v : Value} (h : v.Inert) : ∃ N, ∀ fuel, N ≤ fuel → ∀ rest args, ∃ calls,
    written fdStdout calls = v.text ∧
      vfprintf fdStdout (fuel + 1) (ch '%' :: v.conversion.letter :: rest) (v.arg :: args)
        = (vfprintf fdStdout fuel rest args).map fun q => (calls ++ q.1, q.2) := by
  cases v with
  | int n => exact ⟨0, fun fuel _ rest args => ⟨printBase fdStdout n 10, rfl, rfl⟩⟩
  | char c =>
    refine ⟨0, fun fuel _ rest args => ⟨[.write fdStdout [(charInt c).toInt8.toUInt8]], ?_, rfl⟩⟩
    have hc : (charInt c).toInt8.toUInt8 = c := by simp [charInt]
    rw [hc]
    rfl
  | str s =>
    refine ⟨s.text.bytes.length + 1, fun fuel hf rest args => ?_⟩
    have hplain : vfprintf fdStdout fuel (s.text.bytes ++ [0]) [] = _ :=
      vfprintf_plain fuel s.text.noNul h.1 h.2 hf
    refine ⟨s.text.bytes.map fun c => .write fdStdout [c], written_plain _, ?_⟩
    rw [vfprintf_percent]
    have hconv : convert fdStdout (fun s => (vfprintf fdStdout fuel s.chars []).map Prod.fst)
        (ch 's' :: rest) (.str s.text :: args)
        = ((vfprintf fdStdout fuel s.text.chars []).map Prod.fst).map fun calls =>
            (calls, rest, args) := rfl
    show (convert _ _ (ch 's' :: rest) (.str s.text :: args)).bind _ = _
    rw [hconv]
    show (((vfprintf fdStdout fuel (s.text.bytes ++ [0]) []).map _).map _).bind _ = _
    rw [hplain]
    rfl

theorem vfprintf_more (more : List (Literal × Conversion)) : ∀ vs : List Value,
    vs.map Value.conversion = more.map Prod.snd → (∀ v ∈ vs, v.Inert) →
    ∃ N, ∀ fuel, N ≤ fuel → ∃ calls,
      vfprintf fdStdout fuel (formatMore more ++ [0]) (vs.map Value.arg) = .ok (calls, []) ∧
        written fdStdout calls = renderMore more vs := by
  induction more with
  | nil =>
    intro vs hvs hin
    rw [List.map_eq_nil_iff.mp hvs]
    refine ⟨1, fun fuel hf => ⟨[], ?_, rfl⟩⟩
    obtain ⟨fuel, rfl⟩ := Nat.exists_eq_succ_of_ne_zero (Nat.pos_iff_ne_zero.mp hf)
    rfl
  | cons x more ih =>
    intro vs hvs hin
    obtain ⟨lit, k⟩ := x
    cases vs with
    | nil => cases hvs
    | cons v vs =>
      obtain ⟨rfl, hvs'⟩ := List.cons.inj hvs
      obtain ⟨N, hN⟩ := ih vs hvs' fun v hv => hin v (List.mem_cons_of_mem _ hv)
      obtain ⟨M, hM⟩ := vfprintf_value (hin v List.mem_cons_self)
      refine ⟨N + M + 2, fun fuel hf => ?_⟩
      obtain ⟨fuel, rfl⟩ : ∃ n, fuel = n + 2 := ⟨fuel - 2, by omega⟩
      obtain ⟨calls, hrest, hw⟩ := hN fuel (by omega)
      obtain ⟨calls', hw', hstep⟩ := hM fuel (by omega) (formatMore more ++ [0]) (vs.map Value.arg)
      refine ⟨.write fdStdout [lit.char] :: (calls' ++ calls), ?_, ?_⟩
      · show vfprintf fdStdout (fuel + 1 + 1) (lit.char :: (ch '%' :: v.conversion.letter ::
          (formatMore more ++ [0]))) (v.arg :: vs.map Value.arg) = _
        rw [vfprintf_text _ _ _ _ lit.ne_nul lit.ne_esc lit.ne_percent, hstep, hrest]
        rfl
      · rw [written_cons, bytes_write, written_append, hw, hw']
        rfl

/-- **`printf` writes the values as `Layout.render` has them**, if no string among them has a `%` or an
ESC. -/
theorem printf_layout (f : Layout) (vs : List Value) (hvs : vs.map Value.conversion = f.conversions)
    (hin : ∀ v ∈ vs, v.Inert) : ∃ N, ∀ fuel, N ≤ fuel → ∃ calls,
      vfprintf fdStdout fuel (f.format ++ [0]) (vs.map Value.arg) = .ok (calls, []) ∧
        written fdStdout calls = f.render vs := by
  cases f with
  | empty =>
    rw [List.map_eq_nil_iff.mp hvs]
    refine ⟨1, fun fuel hf => ⟨[], ?_, rfl⟩⟩
    obtain ⟨fuel, rfl⟩ := Nat.exists_eq_succ_of_ne_zero (Nat.pos_iff_ne_zero.mp hf)
    rfl
  | begin k more =>
    cases vs with
    | nil => cases hvs
    | cons v vs =>
      obtain ⟨rfl, hvs'⟩ := List.cons.inj hvs
      obtain ⟨N, hN⟩ := vfprintf_more more vs hvs' fun v hv => hin v (List.mem_cons_of_mem _ hv)
      obtain ⟨M, hM⟩ := vfprintf_value (hin v List.mem_cons_self)
      refine ⟨N + M + 1, fun fuel hf => ?_⟩
      obtain ⟨fuel, rfl⟩ : ∃ n, fuel = n + 1 := ⟨fuel - 1, by omega⟩
      obtain ⟨calls, hrest, hw⟩ := hN fuel (by omega)
      obtain ⟨calls', hw', hstep⟩ := hM fuel (by omega) (formatMore more ++ [0]) (vs.map Value.arg)
      refine ⟨calls' ++ calls, ?_, ?_⟩
      · show vfprintf fdStdout (fuel + 1) (ch '%' :: v.conversion.letter :: (formatMore more ++ [0]))
          (v.arg :: vs.map Value.arg) = _
        rw [hstep, hrest]
        rfl
      · rw [written_append, hw, hw']
        rfl

end Libc

end Tp2So
