import Tp2So.Console.Screen
import Tp2So.Console.Typing
import Tp2So.Lib.DoWhile
import Mathlib.Data.Nat.Find

/-!
# When a character has been added

A tab adds spaces until the column is a tab stop or the ring says that it is full.  The ring only says so
with `to_read` at 0; the column only moves when the characters are shown, and from the beginning of a line
it reaches a tab stop if the window has room for four glyphs.

* `nextColumn`           where a glyph leaves the column;
* `OnStop`, `Reaches`    a tab stop, and that the column comes to one;
* `reaches_iff`          the columns of a line, and of the next one;
* `putChar_return`       a return that is shown goes back to the border;
* `addCharToBuffer_returns_iff`.
-/

set_option linter.unusedVariables false

namespace Tp2So

namespace Fonts

/-- the column after a glyph of side `d`, in a window `W` wide -/
def nextColumn (W d : Nat) (x : Int) : Int := (if x + (d : Int) > W then 0 else x) + d

/-- the column, as `uint16_t`, is a multiple of four glyphs -/
def OnStop (d : Nat) (x : Int) : Prop := (x % 65536).toNat % (4 * d) = 0

/-- a tab stop before the end of the line, or one on the next line -/
def Reaches (W d : Nat) (x : Int) : Prop :=
  4 * d ≤ W ∨ ∃ n : Nat, 1 ≤ n ∧ x + (n * d : Nat) ≤ W ∧ OnStop d (x + (n * d : Nat))

section
variable {W d : Nat} {x : Int}

theorem nextColumn_fits (h : x + d ≤ W) : nextColumn W d x = x + d := by
  unfold nextColumn
  rw [if_neg (Int.not_lt.mpr h)]

theorem nextColumn_turns (h : (W : Int) < x + d) : nextColumn W d x = d := by
  unfold nextColumn
  rw [if_pos h, Int.zero_add]

theorem column_line {n : Nat} (h : x + (n * d : Nat) ≤ W) : (nextColumn W d)^[n] x = x + (n * d : Nat) := by
  induction n with
  | zero =>
    rw [Nat.zero_mul]
    exact (Int.add_zero x).symm
  | succ n ih =>
    rw [Nat.succ_mul] at h ⊢
    rw [Function.iterate_succ_apply', ih (by omega), nextColumn_fits (by omega)]
    omega

theorem column_turns (hd : 0 < d) : ∃ m, (nextColumn W d)^[m + 1] x = d := by
  have hex : ∃ n : Nat, (W : Int) < x + ((n + 1) * d : Nat) := by
    refine ⟨W + x.natAbs, ?_⟩
    have hmul : (W + x.natAbs + 1) * 1 ≤ (W + x.natAbs + 1) * d := Nat.mul_le_mul_left _ hd
    omega
  classical
  refine ⟨Nat.find hex, ?_⟩
  have hend := Nat.find_spec hex
  have hline : (nextColumn W d)^[Nat.find hex] x = x + (Nat.find hex * d : Nat) := by
    cases hm : Nat.find hex with
    | zero =>
      rw [Nat.zero_mul]
      exact (Int.add_zero x).symm
    | succ m => exact column_line (Int.not_lt.mp (Nat.find_min hex (by omega)))
  rw [Nat.succ_mul] at hend
  rw [Function.iterate_succ_apply', hline]
  exact nextColumn_turns (by omega)

/-- the columns of a narrow window: the first line, and then at most three glyphs -/
theorem column_narrow (hW : W < 4 * d) (n : Nat) :
    ((nextColumn W d)^[n + 1] x = x + ((n + 1) * d : Nat) ∧ x + ((n + 1) * d : Nat) ≤ W) ∨
      ∃ c, 1 ≤ c ∧ c ≤ 3 ∧ (nextColumn W d)^[n + 1] x = (c * d : Nat) := by
  induction n with
  | zero =>
    rw [Function.iterate_one]
    by_cases h : x + d ≤ W
    · refine Or.inl ⟨?_, by omega⟩
      rw [nextColumn_fits h]
      omega
    · refine Or.inr ⟨1, by omega, by omega, ?_⟩
      rw [nextColumn_turns (by omega), Nat.one_mul]
  | succ n ih =>
    rw [Function.iterate_succ_apply']
    by_cases h : (nextColumn W d)^[n + 1] x + d ≤ W
    · rw [nextColumn_fits h]
      rcases ih with ⟨heq, -⟩ | ⟨c, hc, hc', heq⟩
      · rw [heq] at h ⊢
        rw [Nat.succ_mul (n + 1)]
        exact Or.inl ⟨by omega, by omega⟩
      · rw [heq] at h ⊢
        refine Or.inr ⟨c + 1, by omega, ?_, ?_⟩
        · by_contra hno
          obtain rfl : c = 3 := by omega
          omega
        · rw [Nat.succ_mul]
          omega
    · refine Or.inr ⟨1, by omega, by omega, ?_⟩
      rw [nextColumn_turns (by omega), Nat.one_mul]

theorem onStop_small {c : Nat} (hd : 0 < d) (hsmall : d < 2048) (hc : 1 ≤ c) (hc' : c ≤ 4) :
    OnStop d ((c * d : Nat) : Int) ↔ c = 4 := by
  have hle : c * d ≤ 4 * d := Nat.mul_le_mul_right d hc'
  have hmod : ((c * d : Nat) : Int) % 65536 = (c * d : Nat) := Int.emod_eq_of_lt (by omega) (by omega)
  unfold OnStop
  rw [hmod, Int.toNat_natCast]
  constructor
  · intro h
    by_contra hne
    have hlt : (c + 1) * d ≤ 4 * d := Nat.mul_le_mul_right d (by omega)
    have hpos : 1 * d ≤ c * d := Nat.mul_le_mul_right d hc
    rw [Nat.succ_mul] at hlt
    rw [Nat.mod_eq_of_lt (by omega)] at h
    omega
  · rintro rfl
    exact Nat.mod_self _

/-- **The column comes to a tab stop.** -/
theorem reaches_iff (hd : 0 < d) (hsmall : d < 2048) :
    (∃ k, OnStop d ((nextColumn W d)^[k + 1] x)) ↔ Reaches W d x := by
  unfold Reaches
  constructor
  · rintro ⟨k, hk⟩
    by_cases hW : 4 * d ≤ W
    · exact Or.inl hW
    · rcases column_narrow (x := x) (Nat.lt_of_not_le hW) k with ⟨heq, hle⟩ | ⟨c, hc, hc', heq⟩
      · rw [heq] at hk
        exact Or.inr ⟨k + 1, Nat.succ_pos k, hle, hk⟩
      · rw [heq, onStop_small hd hsmall hc (by omega)] at hk
        omega
  · rintro (hW | ⟨n, hn, hle, hstop⟩)
    · obtain ⟨m, hm⟩ := column_turns (W := W) (x := x) hd
      refine ⟨3 + m, ?_⟩
      have hline : (nextColumn W d)^[3] (d : Int) = d + ((3 * d : Nat) : Int) := column_line (by omega)
      have hfour : (d : Int) + ((3 * d : Nat) : Int) = ((4 * d : Nat) : Int) := by omega
      rw [Nat.add_assoc, Function.iterate_add_apply, hm, hline, hfour]
      exact (onStop_small hd hsmall (by omega) (Nat.le_refl 4)).mpr rfl
    · obtain ⟨k, rfl⟩ := Nat.exists_eq_succ_of_ne_zero (Nat.one_le_iff_ne_zero.mp hn)
      refine ⟨k, ?_⟩
      rw [column_line hle]
      exact hstop

end

/-! ## glyphs and returns -/

theorem putGlyph_column (w : Window) (f : Fonts) : (putGlyph w f).side = f.side ∧
    (putGlyph w f).xBufferPosition = nextColumn w.width f.side f.xBufferPosition := by
  obtain ⟨hsize, hx⟩ := turned_column w f
  have hside : (turned w f).side = f.side := congrArg (glyphSize * ·) hsize
  refine ⟨hside, ?_⟩
  show (turned w f).xBufferPosition + (turned w f).side = _
  rw [hx, hside]
  rfl

theorem putGlyph_columns (w : Window) (f : Fonts) (n : Nat) : ((putGlyph w)^[n] f).side = f.side ∧
    ((putGlyph w)^[n] f).xBufferPosition = (nextColumn w.width f.side)^[n] f.xBufferPosition := by
  induction n with
  | zero => exact ⟨rfl, rfl⟩
  | succ n ih =>
    obtain ⟨hside, hx⟩ := putGlyph_column w ((putGlyph w)^[n] f)
    rw [Function.iterate_succ_apply', Function.iterate_succ_apply', hside, hx, ih.1, ih.2]
    exact ⟨rfl, rfl⟩

theorem retractPosition_side (w : Window) (f : Fonts) : (retractPosition w f).side = f.side := by
  unfold retractPosition
  split
  · dsimp only
    split <;> rfl
  · rfl

theorem putChar_return (w : Window) (fuel : Nat) {f : Fonts} (hf : 0 < f.side) :
    (putChar w fuel 13 f).xBufferPosition ≤ 0 := by
  have hpos : 0 < (hideCursor w { f with dirtyLine := true }).side := by
    unfold hideCursor
    rw [retractPosition_side, (putGlyph_column w _).1]
    exact hf
  exact (retractLoop_end w _ (Nat.le_refl _) hpos).1

end Fonts

namespace Keyboard
open Fonts

section
variable {w : Window} {b : Bool} {s t : Keyboard}

theorem offTabStop_iff (f : Fonts) : offTabStop f = false ↔ OnStop f.side f.xBufferPosition := by
  unfold offTabStop OnStop
  rw [decide_eq_false_iff_not, Decidable.not_not]
  rfl

theorem tabTurns_eq (n : Nat) (s : Keyboard) : tabTurns w b n s
    = doWhile (addPlain w 32 b) (fun s => !s.isFull && offTabStop s.fonts) n s := by
  induction n generalizing s with
  | zero => rfl
  | succ n ih =>
    unfold tabTurns doWhile
    dsimp only
    rw [ih]

theorem addPlain_iterate (hw : s.toWrite < KeyRing.bufferSize) (n : Nat) :
    ((addPlain w 32 b)^[n] s).toRead = s.toRead ∧
      ((addPlain w 32 b)^[n] s).toWrite = (s.toWrite + n) % KeyRing.bufferSize ∧
      ((addPlain w 32 b)^[n] s).fonts = if b then (putGlyph w)^[n] s.fonts else s.fonts := by
  induction n with
  | zero => exact ⟨rfl, (Nat.mod_eq_of_lt hw).symm, by cases b <;> rfl⟩
  | succ n ih =>
    obtain ⟨hr, hw', hf⟩ := ih
    rw [Function.iterate_succ_apply']
    refine ⟨hr, ?_, ?_⟩
    · show (((addPlain w 32 b)^[n] s).toWrite + 1) % KeyRing.bufferSize = _
      rw [hw', Nat.mod_add_mod]
      rfl
    · show (if b then putChar w 0 32 ((addPlain w 32 b)^[n] s).fonts else _) = _
      rw [hf]
      cases b with
      | false => rfl
      | true =>
        rw [if_pos rfl, if_pos rfl, if_pos rfl, Function.iterate_succ_apply']
        rfl

/-- the ring comes to say that it is full, if it has not been read from -/
theorem fills_iff (hw : s.toWrite < KeyRing.bufferSize) (hr : s.toRead < KeyRing.bufferSize) :
    (∃ k, ((addPlain w 32 b)^[k + 1] s).isFull = true) ↔ s.toRead = 0 := by
  have hiff : ∀ k, ((addPlain w 32 b)^[k + 1] s).isFull = true ↔
      s.toRead = 0 ∧ (s.toWrite + (k + 1)) % 1024 = 1023 := by
    intro k
    obtain ⟨hr', hw', -⟩ := addPlain_iterate (w := w) (b := b) hw (k + 1)
    rw [KeyRing.isFull_iff (by rw [hw']; exact Nat.mod_lt _ (by decide)) (by rwa [hr']), hr', hw']
    rfl
  constructor
  · rintro ⟨k, hk⟩
    exact ((hiff k).mp hk).1
  · intro hzero
    refine ⟨2046 - s.toWrite, (hiff _).mpr ⟨hzero, ?_⟩⟩
    have hlt : s.toWrite < 1024 := hw
    omega

theorem stops_iff (hw : s.toWrite < KeyRing.bufferSize) (hd : 0 < s.fonts.side)
    (hsmall : s.fonts.side < 2048) :
    (∃ k, offTabStop ((addPlain w 32 b)^[k + 1] s).fonts = false) ↔
      if b then Reaches w.width s.fonts.side s.fonts.xBufferPosition
      else OnStop s.fonts.side s.fonts.xBufferPosition := by
  cases b with
  | false =>
    have hf : ∀ k, ((addPlain w 32 false)^[k + 1] s).fonts = s.fonts := fun k =>
      (addPlain_iterate hw (k + 1)).2.2
    rw [if_neg Bool.false_ne_true]
    constructor
    · rintro ⟨k, hk⟩
      rwa [hf, offTabStop_iff] at hk
    · intro hstop
      refine ⟨0, ?_⟩
      rwa [hf, offTabStop_iff]
  | true =>
    have hf : ∀ k, offTabStop ((addPlain w 32 true)^[k + 1] s).fonts = false ↔
        OnStop s.fonts.side ((nextColumn w.width s.fonts.side)^[k + 1] s.fonts.xBufferPosition) := by
      intro k
      obtain ⟨hside, hx⟩ := putGlyph_columns w s.fonts (k + 1)
      rw [(addPlain_iterate hw (k + 1)).2.2, if_pos rfl, offTabStop_iff, hside, hx]
    rw [if_pos rfl, ← reaches_iff hd hsmall]
    exact exists_congr hf

/-- **A character has been added** in the end, unless it is a tab, the ring has been read from, and no tab
stop comes: the loop of a tab ends then and only then, and that of a return always does. -/
theorem addCharToBuffer_returns_iff (w : Window) (ascii : UInt8) (showOutput : Bool) (s : Keyboard)
    (hwrite : s.toWrite < KeyRing.bufferSize) (hread : s.toRead < KeyRing.bufferSize)
    (hsize : 0 < s.fonts.fontSize) (hbyte : s.fonts.fontSize < 256) :
    ((∃ N, ∀ fuel ≥ N, (addCharToBuffer w fuel ascii showOutput s).isSome = true) ↔
      ascii ≠ tabulatorChar ∨ s.toRead = 0 ∨
        if showOutput then Reaches w.width s.fonts.side s.fonts.xBufferPosition
        else OnStop s.fonts.side s.fonts.xBufferPosition) ∧
    (ascii = 13 → showOutput = true → ∀ fuel t, addCharToBuffer w fuel ascii showOutput s = some t →
      t.fonts.xBufferPosition ≤ 0) := by
  have hside : s.fonts.side = 8 * s.fonts.fontSize := rfl
  refine ⟨?_, ?_⟩
  · by_cases hc : ascii = tabulatorChar
    · have hturns : ∀ fuel, addCharToBuffer w fuel ascii showOutput s
          = doWhile (addPlain w 32 showOutput) (fun s => !s.isFull && offTabStop s.fonts) fuel s := by
        intro fuel
        rw [← tabTurns_eq]
        exact if_neg (fun hne => hne hc)
      have hend : ∀ u : Keyboard, (!u.isFull && offTabStop u.fonts) = false ↔
          u.isFull = true ∨ offTabStop u.fonts = false := by
        intro u
        rw [Bool.and_eq_false_iff, Bool.not_eq_false']
      simp only [hturns, doWhile_returns, hend, exists_or]
      rw [fills_iff hwrite hread, stops_iff hwrite (by omega) (by omega)]
      exact ⟨Or.inr, fun h => h.resolve_left fun hne => hne hc⟩
    · refine ⟨fun _ => Or.inl hc, fun _ => ⟨0, fun fuel _ => ?_⟩⟩
      rw [addCharToBuffer_plain hc]
      rfl
  · rintro rfl rfl fuel t h
    rw [addCharToBuffer_plain (by decide)] at h
    rw [← Option.some.inj h]
    exact putChar_return w 0 (by omega)

/-- one character was typed and read, and another printed -/
def readOnce : Keyboard :=
  { start { Fonts.start with xBufferPosition := 8 } with toRead := 1, toWrite := 1 }

/-- a tab that is shown comes to its tab stop -/
theorem addCharToBuffer_returns_read :
    ∃ N, ∀ fuel ≥ N, (addCharToBuffer ⟨1024, 768⟩ fuel 9 true readOnce).isSome = true :=
  (addCharToBuffer_returns_iff ⟨1024, 768⟩ 9 true readOnce (by decide) (by decide) (by decide)
    (by decide)).1.mpr (Or.inr (Or.inr (Or.inl (by decide))))

/-- a tab that is not shown is never added -/
theorem addCharToBuffer_tab_stuck :
    ¬ ∃ fuel, (addCharToBuffer ⟨1024, 768⟩ fuel 9 false readOnce).isSome = true := by
  rintro ⟨fuel, h⟩
  have hturns : addCharToBuffer ⟨1024, 768⟩ fuel 9 false readOnce
      = tabTurns ⟨1024, 768⟩ false fuel readOnce := if_neg (fun hne => hne rfl)
  rw [hturns, tabTurns_eq, doWhile_isSome] at h
  obtain ⟨k, -, hend⟩ := h
  have hwrite : readOnce.toWrite < KeyRing.bufferSize := by decide
  have hread : readOnce.toRead < KeyRing.bufferSize := by decide
  rcases (Bool.and_eq_false_iff ..).mp hend with hfull | hstop
  · have hzero := (fills_iff hwrite hread).mp ⟨k, (Bool.not_eq_false' ..).mp hfull⟩
    exact Nat.one_ne_zero hzero
  · have hoff := (stops_iff hwrite (by decide) (by decide)).mp ⟨k, hstop⟩
    rw [if_neg Bool.false_ne_true] at hoff
    exact absurd hoff (by decide : ¬ ((8 : Int) % 65536).toNat % (4 * 8) = 0)

end

end Keyboard

end Tp2So
