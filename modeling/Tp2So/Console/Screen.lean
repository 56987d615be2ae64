import Tp2So.Kernel.Fonts
import Tp2So.Lib.Runs

/-!
# What the console draws is on the screen

The cursor is inside the window, and the line has room for its tallest glyph.  Every operation keeps that,
but for a few: a larger font is not scrolled for far enough, or at all, and a step back takes the width of
a glyph from a column that narrower ones have reached.

* `Fits`          the cursor, and what has been drawn;
* `Stays`         the operations that keep it;
* `Fits.put`, `Fits.clearPrevious`, `Fits.resize`   steps;
* `Stays.needed`  after any other operation the next character is drawn outside;
* `console_onScreen`   runs.
-/

set_option linter.unusedVariables false

namespace Tp2So

inductive ScreenOp where
  | put (fuel : Nat) (ascii : UInt8)
  | newLine
  | clear
  | clearPreviousCharacter
  | setFontSize (size : Int8)
  | increaseFontSize
  | decreaseFontSize

namespace Fonts

def execScreen (w : Window) : ScreenOp → Fonts → Fonts
  | .put fuel ascii, s => putChar w fuel ascii s
  | .newLine, s => newLine w s
  | .clear, s => clear s
  | .clearPreviousCharacter, s => clearPreviousCharacter w s
  | .setFontSize size, s => setFontSize size s
  | .increaseFontSize, s => increaseFontSize w s
  | .decreaseFontSize, s => decreaseFontSize s

/-- every pixel that was drawn is one of the window -/
def OnScreen (w : Window) (s : Fonts) : Prop :=
  ∀ p ∈ s.pixels, 0 ≤ p.1 ∧ p.1 < w.width ∧ 0 ≤ p.2 ∧ p.2 < w.height

/-- the size after `increaseFontSize` -/
def grown (s : Fonts) : Nat := if s.fontSize > 9 then s.fontSize else s.fontSize + 1

/-- the steps that keep the cursor on the screen: a return goes back over whole glyphs, a character that is
taken back is as wide as those now, and a larger font has room below the cursor, or is scrolled for -/
def Stays (w : Window) : ScreenOp → Fonts → Prop
  | .put _ ascii, s => ascii = 13 →
    s.xBufferPosition + s.side > w.width ∨ (s.side : Int) ∣ s.xBufferPosition
  | .clearPreviousCharacter, s =>
    s.xBufferPosition + s.side > w.width ∨ s.xBufferPosition = 0 ∨ (s.side : Int) ≤ s.xBufferPosition
  | .setFontSize size, s => s.yBufferPosition + (glyphSize * clampSize size : Nat) ≤ w.height
  | .increaseFontSize, s => s.yBufferPosition + (glyphSize * s.grown : Nat) ≤ w.height ∨
      ((glyphSize * s.grown : Nat) : Int) ≤ s.yBufferPosition
  | _, _ => True

structure Fits (w : Window) (s : Fonts) : Prop where
  left : 0 ≤ s.xBufferPosition
  top : 0 ≤ s.yBufferPosition
  bottom : s.yBufferPosition + s.maxGlyphSizeYOnLine ≤ w.height
  tall : s.side ≤ s.maxGlyphSizeYOnLine
  least : 1 ≤ s.fontSize
  most : s.fontSize ≤ 10
  drawn : OnScreen w s

section
variable {w : Window} {s t : Fonts}

/-! ## drawing -/

theorem side_eq (s : Fonts) : s.side = 8 * s.fontSize := rfl

theorem mem_render {p : Int × Int} : p ∈ s.render.pixels ↔ p ∈ s.pixels ∨
    ∃ i < s.side, ∃ j < s.side, p = (s.xBufferPosition + i, s.yBufferPosition + j) := by
  show p ∈ s.pixels ++ _ ↔ _
  rw [List.mem_append, List.mem_flatMap]
  simp only [List.mem_range, List.mem_map, eq_comm]

theorem OnScreen.render (h : OnScreen w s) (hx : 0 ≤ s.xBufferPosition)
    (hx' : s.xBufferPosition + s.side ≤ w.width) (hy : 0 ≤ s.yBufferPosition)
    (hy' : s.yBufferPosition + s.side ≤ w.height) : OnScreen w s.render := by
  intro p hp
  rcases mem_render.mp hp with hp | ⟨i, hi, j, hj, rfl⟩
  · exact h p hp
  · simp only
    omega

/-- where `putGlyph` draws: here, or at the beginning of the next line -/
def turned (w : Window) (s : Fonts) : Fonts :=
  if s.xBufferPosition + (s.side : Int) > w.width then newLine w { s with dirtyLine := true }
  else { s with dirtyLine := true }

theorem putGlyph_eq (w : Window) (s : Fonts) : putGlyph w s =
    { (turned w s).render with xBufferPosition := (turned w s).xBufferPosition + (turned w s).side } := rfl

theorem turned_column (w : Window) (s : Fonts) : (turned w s).fontSize = s.fontSize ∧
    (turned w s).xBufferPosition
      = if s.xBufferPosition + (s.side : Int) > w.width then 0 else s.xBufferPosition := by
  unfold turned
  by_cases h : s.xBufferPosition + (s.side : Int) > w.width
  · rw [if_pos h, if_pos h]
    exact ⟨rfl, rfl⟩
  · rw [if_neg h, if_neg h]
    exact ⟨rfl, rfl⟩

/-! ## the cursor -/

theorem newLine_y (w : Window) (s : Fonts) : (newLine w s).yBufferPosition
    = if s.yBufferPosition + (s.maxGlyphSizeYOnLine : Int) + (s.side : Int) > w.height then
        s.yBufferPosition + s.maxGlyphSizeYOnLine - s.side
      else s.yBufferPosition + s.maxGlyphSizeYOnLine := rfl

/-- a new line has room: what was below the tallest glyph is below the next one -/
theorem Fits.newLine (h : Fits w s) (hh : 80 ≤ w.height) : Fits w (newLine w s) := by
  have htop := h.top
  have hbottom := h.bottom
  have htall := h.tall
  have hleast := h.least
  have hmost := h.most
  have hside := s.side_eq
  have hline : (Fonts.newLine w s).maxGlyphSizeYOnLine = s.side := Nat.mul_comm _ _
  have hy := newLine_y w s
  refine ⟨Int.le_refl 0, ?_, ?_, ?_, hleast, hmost, h.drawn⟩
  · rw [hy]
    split <;> omega
  · rw [hy, hline]
    split <;> omega
  · rw [hline]
    exact Nat.le_refl _

theorem Fits.dirty (h : Fits w s) (b : Bool) : Fits w { s with dirtyLine := b } :=
  ⟨h.left, h.top, h.bottom, h.tall, h.least, h.most, h.drawn⟩

theorem Fits.turned (h : Fits w s) (hw : 80 ≤ w.width) (hh : 80 ≤ w.height) :
    Fits w (turned w s) ∧ (turned w s).fontSize = s.fontSize ∧
      (turned w s).xBufferPosition + (turned w s).side ≤ w.width ∧
      (turned w s).xBufferPosition
        = if s.xBufferPosition + (s.side : Int) > w.width then 0 else s.xBufferPosition := by
  have hmost := h.most
  obtain ⟨hs, hx⟩ := turned_column w s
  refine ⟨?_, hs, ?_, hx⟩
  · unfold Fonts.turned
    split
    · exact (h.dirty true).newLine hh
    · exact h.dirty true
  · have hside : (Fonts.turned w s).side = 8 * s.fontSize := congrArg (8 * ·) hs
    have hside' := s.side_eq
    rw [hx, hside]
    split <;> omega

/-- **A character that is drawn.** -/
theorem Fits.putGlyph (h : Fits w s) (hw : 80 ≤ w.width) (hh : 80 ≤ w.height) :
    Fits w (putGlyph w s) ∧ (putGlyph w s).fontSize = s.fontSize ∧
      (putGlyph w s).xBufferPosition
        = (if s.xBufferPosition + (s.side : Int) > w.width then 0 else s.xBufferPosition) + s.side := by
  obtain ⟨hf, hs, hx, hpos⟩ := h.turned hw hh
  have hside : (Fonts.turned w s).side = s.side := congrArg (8 * ·) hs
  have hbottom := hf.bottom
  have htall := hf.tall
  rw [putGlyph_eq]
  refine ⟨⟨?_, hf.top, hf.bottom, hf.tall, hf.least, hf.most, ?_⟩, hs, ?_⟩
  · have hleft := hf.left
    simp only
    omega
  · exact hf.drawn.render hf.left hx hf.top (by omega)
  · simp only [hpos, hside]

/-- a step back over a whole glyph, or to the end of the line above -/
theorem Fits.retract (h : Fits w s) (hw : 80 ≤ w.width)
    (hx : s.xBufferPosition = 0 ∨ (s.side : Int) ≤ s.xBufferPosition) :
    Fits w (retractPosition w s) := by
  have htop := h.top
  have hbottom := h.bottom
  have hmost := h.most
  have hside := s.side_eq
  unfold retractPosition
  split
  · simp only
    split
    · refine ⟨h.left, Int.le_refl 0, ?_, h.tall, h.least, h.most, h.drawn⟩
      simp only
      omega
    · rename_i hneg
      refine ⟨?_, Int.not_lt.mp hneg, ?_, h.tall, h.least, h.most, h.drawn⟩
      · -- the last whole column
        have hpos : 0 < s.side := by
          have := h.least
          omega
        have hmod : w.width % s.side < s.side := Nat.mod_lt _ hpos
        have hdiv := Nat.div_add_mod w.width s.side
        have hone : s.side * 1 ≤ s.side * (w.width / s.side) :=
          Nat.mul_le_mul_left _ (Nat.div_pos (by omega) hpos)
        simp only
        show 0 ≤ ((w.width - w.width % s.side : Nat) : Int) - (s.side : Int)
        omega
      · simp only
        omega
  · refine ⟨?_, h.top, h.bottom, h.tall, h.least, h.most, h.drawn⟩
    simp only
    omega

theorem retract_ne (h : s.xBufferPosition ≠ 0) : retractPosition w s
    = { s with xBufferPosition := s.xBufferPosition - s.side } := if_neg h

/-- **The cursor is hidden where it stands**, at the beginning of the next line if it does not fit. -/
theorem Fits.hideCursor (h : Fits w s) (hw : 80 ≤ w.width) (hh : 80 ≤ w.height) :
    Fits w (hideCursor w s) ∧ (hideCursor w s).fontSize = s.fontSize ∧
      (hideCursor w s).xBufferPosition
        = if s.xBufferPosition + (s.side : Int) > w.width then 0 else s.xBufferPosition := by
  obtain ⟨hf, hs, hx⟩ := h.putGlyph hw hh
  have hside : (Fonts.putGlyph w s).side = s.side := congrArg (8 * ·) hs
  have hleft := h.left
  have hpos : 0 < s.side := by
    have := h.least
    rw [side_eq]
    omega
  have hge : (s.side : Int) ≤ (Fonts.putGlyph w s).xBufferPosition := by
    rw [hx]
    split <;> omega
  have hback : retractPosition w (Fonts.putGlyph w s) = _ := retract_ne (w := w) (by omega)
  refine ⟨hf.retract hw (Or.inr (by rw [hside]; exact hge)), ?_, ?_⟩
  · show (retractPosition w (Fonts.putGlyph w s)).fontSize = _
    rw [hback]
    exact hs
  · show (retractPosition w (Fonts.putGlyph w s)).xBufferPosition = _
    rw [hback]
    simp only [hside, hx]
    omega

/-- back to the left border, over whole glyphs -/
theorem Fits.retractLoop (hw : 80 ≤ w.width) (n : Nat) : ∀ {s : Fonts}, Fits w s →
    (s.side : Int) ∣ s.xBufferPosition → Fits w (retractLoop w n s) := by
  induction n with
  | zero => exact fun h _ => h
  | succ n ih =>
    intro s h hd
    unfold Fonts.retractLoop
    split
    · rename_i hpos
      obtain ⟨k, hk⟩ := hd
      have hge : (s.side : Int) ≤ s.xBufferPosition := Int.le_of_dvd hpos ⟨k, hk⟩
      have hf := h.retract hw (Or.inr hge)
      refine ih hf ?_
      rw [retract_ne (by omega)]
      exact Int.dvd_sub ⟨k, hk⟩ (Int.dvd_refl _)
    · exact h

theorem Fits.tabLoop (hw : 80 ≤ w.width) (hh : 80 ≤ w.height) (n : Nat) : ∀ {s : Fonts}, Fits w s →
    Fits w (tabLoop w n s) := by
  induction n with
  | zero => exact fun h => h
  | succ n ih =>
    intro s h
    have hf := (h.putGlyph hw hh).1
    show Fits w (if Int.tmod _ _ ≠ 0 then Fonts.tabLoop w n (Fonts.putGlyph w s) else Fonts.putGlyph w s)
    split
    · exact ih hf
    · exact hf

/-! ## steps -/

theorem Fits.put (h : Fits w s) (hw : 80 ≤ w.width) (hh : 80 ≤ w.height) (fuel : Nat) {c : UInt8}
    (hc : Stays w (.put fuel c) s) : Fits w (putChar w fuel c s) := by
  have hd := h.dirty true
  unfold putChar
  split
  · exact (hd.hideCursor hw hh).1.newLine hh
  · split
    · rename_i hret
      obtain ⟨hf, hs, hx⟩ := hd.hideCursor hw hh
      have hside : (Fonts.hideCursor w { s with dirtyLine := true }).side = s.side :=
        congrArg (8 * ·) hs
      refine hf.retractLoop hw _ ?_
      rw [hx, hside]
      show (s.side : Int) ∣ if s.xBufferPosition + (s.side : Int) > w.width then 0 else s.xBufferPosition
      split
      · exact Int.dvd_zero _
      · rename_i hle
        exact (hc hret).resolve_left hle
    · split
      · exact hd.tabLoop hw hh fuel
      · exact (h.putGlyph hw hh).1

theorem Fits.clear (h : Fits w s) : Fits w s.clear := by
  have htop := h.top
  have hbottom := h.bottom
  refine ⟨Int.le_refl 0, Int.le_refl 0, ?_, h.tall, h.least, h.most, h.drawn⟩
  show (0 : Int) + (s.maxGlyphSizeYOnLine : Int) ≤ w.height
  omega

theorem Fits.clearPreviousCharacter (h : Fits w s) (hw : 80 ≤ w.width) (hh : 80 ≤ w.height)
    (hc : Stays w .clearPreviousCharacter s) : Fits w (clearPreviousCharacter w s) := by
  obtain ⟨hf, hs, hx⟩ := h.hideCursor hw hh
  have hside : (Fonts.hideCursor w s).side = s.side := congrArg (8 * ·) hs
  refine ((hf.retract hw ?_).hideCursor hw hh).1
  rw [hside, hx]
  split
  · exact Or.inl rfl
  · rename_i hle
    exact hc.resolve_left hle

theorem resize_line (s : Fonts) (size : Nat) : (s.resize size).maxGlyphSizeYOnLine
    = if s.dirtyLine then max s.maxGlyphSizeYOnLine (8 * size) else 8 * size := rfl

theorem resize_tall (s : Fonts) (size : Nat) :
    (s.resize size).side ≤ (s.resize size).maxGlyphSizeYOnLine := by
  rw [resize_line]
  split
  · exact Nat.le_max_right _ _
  · exact Nat.le_refl _

theorem resize_line_le (s : Fonts) (size : Nat) :
    (s.resize size).maxGlyphSizeYOnLine ≤ max s.maxGlyphSizeYOnLine (8 * size) := by
  rw [resize_line]
  split
  · exact Nat.le_refl _
  · exact Nat.le_max_right _ _

theorem Fits.resize {size : Nat} (h : Fits w s) (h1 : 1 ≤ size) (h10 : size ≤ 10)
    (hroom : s.yBufferPosition + (8 * size : Nat) ≤ w.height) : Fits w (s.resize size) := by
  have hbottom := h.bottom
  have hle := resize_line_le s size
  refine ⟨h.left, h.top, ?_, resize_tall s size, h1, h10, h.drawn⟩
  show s.yBufferPosition + ((s.resize size).maxGlyphSizeYOnLine : Int) ≤ w.height
  omega

theorem clampSize_bounds (size : Int8) : 1 ≤ clampSize size ∧ clampSize size ≤ 10 := by
  unfold clampSize
  split
  · decide
  · rename_i h1
    split
    · decide
    · rename_i h10
      have hlow : ¬ size.toInt < 1 := fun e => h1 (Int8.lt_iff_toInt_lt.mpr e)
      have hhigh : ¬ 10 < size.toInt := fun e => h10 (Int8.lt_iff_toInt_lt.mpr e)
      omega

theorem grown_bounds (h : Fits w s) : 1 ≤ s.grown ∧ s.grown ≤ 10 := by
  have hleast := h.least
  have hmost := h.most
  unfold grown
  split <;> omega

theorem increase_y (w : Window) (s : Fonts) : (increaseFontSize w s).yBufferPosition
    = if s.yBufferPosition + ((8 * s.grown : Nat) : Int) > w.height then
        s.yBufferPosition - (8 * s.grown : Nat)
      else s.yBufferPosition := rfl

theorem Fits.increaseFontSize (h : Fits w s) (hc : Stays w .increaseFontSize s) :
    Fits w (increaseFontSize w s) := by
  obtain ⟨h1, h10⟩ := grown_bounds h
  have htop := h.top
  have hbottom := h.bottom
  have hle := resize_line_le s s.grown
  have hc' : s.yBufferPosition + (8 * s.grown : Nat) ≤ w.height ∨
      ((8 * s.grown : Nat) : Int) ≤ s.yBufferPosition := hc
  have hy := increase_y w s
  refine ⟨h.left, ?_, ?_, resize_tall s s.grown, h1, h10, h.drawn⟩
  · rw [hy]
    split <;> omega
  · show (Fonts.increaseFontSize w s).yBufferPosition + ((s.resize s.grown).maxGlyphSizeYOnLine : Int) ≤ _
    rw [hy]
    split <;> omega

theorem Fits.decreaseFontSize (h : Fits w s) : Fits w (decreaseFontSize s) := by
  have hleast := h.least
  have hmost := h.most
  have hbottom := h.bottom
  have htall := h.tall
  have hside := s.side_eq
  unfold Fonts.decreaseFontSize
  split
  · exact h.resize (by omega) (by omega) (by omega)
  · exact h.resize (by omega) (by omega) (by omega)

/-- **One operation.** -/
theorem Fits.step (h : Fits w s) (hw : 80 ≤ w.width) (hh : 80 ≤ w.height) {o : ScreenOp}
    (ho : Stays w o s) : Fits w (execScreen w o s) := by
  cases o with
  | put fuel c => exact h.put hw hh fuel ho
  | newLine => exact h.newLine hh
  | clear => exact h.clear
  | clearPreviousCharacter => exact h.clearPreviousCharacter hw hh ho
  | setFontSize size => exact h.resize (clampSize_bounds size).1 (clampSize_bounds size).2 ho
  | increaseFontSize => exact h.increaseFontSize ho
  | decreaseFontSize => exact h.decreaseFontSize

theorem fits_start (w : Window) (hw : 80 ≤ w.width) (hh : 80 ≤ w.height) : Fits w start := by
  refine ⟨Int.le_refl 0, Int.le_refl 0, ?_, Nat.le_refl _, Nat.le_refl 1, by decide,
    fun p hp => absurd hp List.not_mem_nil⟩
  show (0 : Int) + ((8 : Nat) : Int) ≤ w.height
  omega

/-! ## steps that leave the screen -/

theorem corners (h : OnScreen w (putGlyph w s)) (hpos : 0 < (turned w s).side) :
    0 ≤ (turned w s).xBufferPosition ∧ 0 ≤ (turned w s).yBufferPosition ∧
      (turned w s).yBufferPosition + (turned w s).side ≤ w.height := by
  have hat : ∀ j : Nat, j < (turned w s).side → 0 ≤ (turned w s).xBufferPosition ∧
      0 ≤ (turned w s).yBufferPosition + (j : Int) ∧
        (turned w s).yBufferPosition + (j : Int) < w.height := by
    intro j hj
    have hp : 0 ≤ (turned w s).xBufferPosition + ((0 : Nat) : Int) ∧ _ ∧
        0 ≤ (turned w s).yBufferPosition + (j : Int) ∧ (turned w s).yBufferPosition + (j : Int) < w.height :=
      h _ (mem_render.mpr (Or.inr ⟨0, hpos, j, hj, rfl⟩))
    omega
  have h0 := hat 0 hpos
  have h1 := hat ((turned w s).side - 1) (by omega)
  omega

theorem turned_y (w : Window) (s : Fonts) : (turned w s).yBufferPosition
    = if s.xBufferPosition + (s.side : Int) > w.width then
        if s.yBufferPosition + (s.maxGlyphSizeYOnLine : Int) + (s.side : Int) > w.height then
          s.yBufferPosition + s.maxGlyphSizeYOnLine - s.side
        else s.yBufferPosition + s.maxGlyphSizeYOnLine
      else s.yBufferPosition := by
  unfold turned
  split <;> rfl

theorem turned_side (w : Window) (s : Fonts) : (turned w s).side = s.side := by
  unfold turned
  split <;> rfl

theorem turned_here (h : s.xBufferPosition + (s.side : Int) ≤ w.width) :
    (turned w s).xBufferPosition = s.xBufferPosition := by
  unfold turned
  rw [if_neg (Int.not_lt.mpr h)]

/-- what was drawn stays drawn -/
theorem OnScreen.of_putGlyph (h : OnScreen w (putGlyph w s)) : OnScreen w s := by
  intro p hp
  have hsame : (turned w s).pixels = s.pixels := by
    unfold turned
    split <;> rfl
  have hp' : p ∈ (turned w s).pixels := by
    rw [hsame]
    exact hp
  exact h p (mem_render.mpr (Or.inl hp'))

theorem off_left (hw : 80 ≤ w.width) (h1 : 1 ≤ s.fontSize) (h10 : s.fontSize ≤ 10)
    (hx : s.xBufferPosition < 0) : ¬ OnScreen w (putGlyph w s) := by
  intro h
  have hside := s.side_eq
  have hc := (corners h (by rw [turned_side]; omega)).1
  rw [turned_here (by omega)] at hc
  omega

theorem off_bottom (h1 : 1 ≤ s.fontSize) (htall : s.side ≤ s.maxGlyphSizeYOnLine)
    (hy : s.yBufferPosition + (s.side : Int) > w.height) : ¬ OnScreen w (putGlyph w s) := by
  intro h
  have hside := s.side_eq
  have hc := (corners h (by rw [turned_side]; omega)).2.2
  rw [turned_y, turned_side] at hc
  split at hc
  · split at hc <;> omega
  · omega

/-- the loop of a return ends at or left of the border, in steps of a glyph -/
theorem retractLoop_end (w : Window) (n : Nat) : ∀ {s : Fonts}, s.xBufferPosition.toNat ≤ n →
    0 < s.side → (retractLoop w n s).xBufferPosition ≤ 0 ∧ (retractLoop w n s).fontSize = s.fontSize ∧
      ((s.side : Int) ∣ (retractLoop w n s).xBufferPosition → (s.side : Int) ∣ s.xBufferPosition) := by
  induction n with
  | zero =>
    intro s hn hpos
    refine ⟨?_, rfl, id⟩
    show s.xBufferPosition ≤ 0
    omega
  | succ n ih =>
    intro s hn hpos
    unfold retractLoop
    split
    · rename_i hx
      rw [retract_ne (by omega)]
      obtain ⟨hend, hs, hd⟩ := ih (s := { s with xBufferPosition := s.xBufferPosition - s.side })
        (by simp only; omega) hpos
      have hdiff : (s.side : Int) ∣ s.xBufferPosition - (s.xBufferPosition - s.side) := ⟨1, by omega⟩
      exact ⟨hend, hs, fun hdvd => (Int.dvd_iff_dvd_of_dvd_sub hdiff).mpr (hd hdvd)⟩
    · exact ⟨by omega, rfl, id⟩

/-- a carriage return to a column that the glyphs do not divide ends left of the screen -/
theorem return_off (h : Fits w s) (hw : 80 ≤ w.width) (hh : 80 ≤ w.height)
    (hfit : ¬ s.xBufferPosition + s.side > w.width) (hdvd : ¬ (s.side : Int) ∣ s.xBufferPosition) :
    ¬ OnScreen w (putGlyph w (retractLoop w
      (hideCursor w { s with dirtyLine := true }).xBufferPosition.toNat (hideCursor w { s with dirtyLine := true }))) := by
  have hleast := h.least
  have hmost := h.most
  have hleft := h.left
  have hside := s.side_eq
  obtain ⟨hf, hs, hx⟩ := (h.dirty true).hideCursor hw hh
  have hx' : (hideCursor w { s with dirtyLine := true }).xBufferPosition = s.xBufferPosition :=
    hx.trans (if_neg hfit)
  have hside' : (hideCursor w { s with dirtyLine := true }).side = s.side := congrArg (8 * ·) hs
  have hfont : (hideCursor w { s with dirtyLine := true }).fontSize = s.fontSize := hs
  generalize hideCursor w { s with dirtyLine := true } = u at *
  obtain ⟨hend, hsize, hd⟩ := retractLoop_end w _ (Nat.le_refl u.xBufferPosition.toNat)
    (by rw [hside']; omega)
  have hne : (retractLoop w u.xBufferPosition.toNat u).xBufferPosition ≠ 0 := by
    intro e
    have hdvd' := hd (by rw [e]; exact Int.dvd_zero _)
    rw [hside', hx'] at hdvd'
    exact hdvd hdvd'
  exact off_left hw (by omega) (by omega) (by omega)

theorem retract_pixels (w : Window) (t : Fonts) : (retractPosition w t).pixels = t.pixels := by
  unfold retractPosition
  split
  · simp only
    split <;> rfl
  · rfl

/-- nothing is cleared where the glyph before does not fit: the cursor is drawn outside -/
theorem clear_off (h : Fits w s) (hw : 80 ≤ w.width) (hh : 80 ≤ w.height)
    (hfit : ¬ s.xBufferPosition + s.side > w.width) (h0 : ¬ s.xBufferPosition = 0)
    (hlt : ¬ (s.side : Int) ≤ s.xBufferPosition) :
    ¬ OnScreen w (putGlyph w (execScreen w .clearPreviousCharacter s)) := by
  have hleast := h.least
  have hmost := h.most
  have hleft := h.left
  have hside := s.side_eq
  obtain ⟨hf, hs, hx⟩ := h.hideCursor hw hh
  have hx' : (hideCursor w s).xBufferPosition = s.xBufferPosition := hx.trans (if_neg hfit)
  have hside' : (hideCursor w s).side = s.side := congrArg (8 * ·) hs
  have hoff : ¬ OnScreen w (putGlyph w (retractPosition w (hideCursor w s))) := by
    rw [retract_ne (by omega)]
    refine off_left hw ?_ ?_ ?_
    · show 1 ≤ (hideCursor w s).fontSize
      omega
    · show (hideCursor w s).fontSize ≤ 10
      omega
    · show (hideCursor w s).xBufferPosition - ((hideCursor w s).side : Int) < 0
      rw [hx', hside']
      omega
  intro hon
  refine hoff fun p hp => hon.of_putGlyph p ?_
  exact (retract_pixels w _).symm ▸ hp

/-- a font that fits neither below the line nor above it ends above the screen -/
theorem increase_off (h : Fits w s) (hlow : ¬ s.yBufferPosition + ((8 * s.grown : Nat) : Int) ≤ w.height)
    (hhigh : ¬ ((8 * s.grown : Nat) : Int) ≤ s.yBufferPosition) :
    ¬ OnScreen w (putGlyph w (increaseFontSize w s)) := by
  have hbottom := h.bottom
  obtain ⟨hg1, hg10⟩ := grown_bounds h
  have htall := resize_tall s s.grown
  have hle := resize_line_le s s.grown
  have hgrown : (s.resize s.grown).side = 8 * s.grown := rfl
  intro hon
  have hy : (increaseFontSize w s).yBufferPosition = s.yBufferPosition - (8 * s.grown : Nat) := by
    rw [increase_y, if_pos (by omega)]
  have hc := (corners hon (by rw [turned_side]; show 0 < 8 * s.grown; omega)).2.1
  have hside' : (increaseFontSize w s).side = 8 * s.grown := rfl
  have hline : (increaseFontSize w s).maxGlyphSizeYOnLine = (s.resize s.grown).maxGlyphSizeYOnLine :=
    rfl
  rw [turned_y, hy, hside', hline] at hc
  split at hc
  · split at hc <;> omega
  · omega

/-- **The conditions are needed**: after a step that does not meet them, the next character is not on the
screen. -/
theorem Stays.needed (h : Fits w s) (hw : 80 ≤ w.width) (hh : 80 ≤ w.height) {o : ScreenOp}
    (ho : ¬ Stays w o s) {c : UInt8} (fuel : Nat) (h9 : c ≠ 9) (h10 : c ≠ 10) (h13 : c ≠ 13) :
    ¬ OnScreen w (putChar w fuel c (execScreen w o s)) := by
  have hstep : ∀ t, putChar w fuel c t = putGlyph w t := fun t =>
    (if_neg h10).trans ((if_neg h13).trans (if_neg h9))
  rw [hstep]
  cases o with
  | newLine => exact absurd trivial ho
  | clear => exact absurd trivial ho
  | decreaseFontSize => exact absurd trivial ho
  | put fuel c =>
    obtain ⟨hc, hnot⟩ := Classical.not_imp.mp ho
    obtain ⟨hfit, hdvd⟩ := not_or.mp hnot
    have hput : execScreen w (.put fuel c) s = retractLoop w
        (hideCursor w { s with dirtyLine := true }).xBufferPosition.toNat
          (hideCursor w { s with dirtyLine := true }) := by
      rw [hc]
      rfl
    rw [hput]
    exact return_off h hw hh hfit hdvd
  | clearPreviousCharacter =>
    obtain ⟨hfit, hnot⟩ := not_or.mp ho
    obtain ⟨h0, hlt⟩ := not_or.mp hnot
    exact clear_off h hw hh hfit h0 hlt
  | setFontSize size =>
    have hy : ¬ s.yBufferPosition + ((8 * clampSize size : Nat) : Int) ≤ w.height := ho
    refine off_bottom (clampSize_bounds size).1 (resize_tall s _) ?_
    show s.yBufferPosition + ((8 * clampSize size : Nat) : Int) > w.height
    omega
  | increaseFontSize =>
    obtain ⟨hlow, hhigh⟩ := not_or.mp ho
    exact increase_off h hlow hhigh

end

/-- **What the console draws is on the screen**, in every run whose steps meet their conditions; after a
step that does not, the next character that is drawn is not on it. -/
theorem console_onScreen (w : Window) (hw : 80 ≤ w.width) (hh : 80 ≤ w.height) (os : List ScreenOp)
    (t : Fonts) (h : Runs (fun o s => some (execScreen w o s)) (Stays w) os start t) :
    OnScreen w t ∧ ∀ o c fuel, ¬ Stays w o t → c ≠ 9 → c ≠ 10 → c ≠ 13 →
      ¬ OnScreen w (putChar w fuel c (execScreen w o t)) := by
  have hf : Fits w t := by
    refine Runs.inv (I := Fits w) (fun o s u hs ho he => ?_) h (fits_start w hw hh)
    rw [← Option.some.inj he]
    exact hs.step hw hh ho
  exact ⟨hf.drawn, fun o c fuel ho h9 h10 h13 => Stays.needed hf hw hh ho fuel h9 h10 h13⟩

/-- a larger font on the second line of a small window: the glyph reaches the row `87` of `80` -/
theorem setFontSize_offScreen : ∃ t,
    run (fun o s => some (execScreen ⟨80, 80⟩ o s)) [.newLine, .setFontSize 10, .put 0 65] start = some t ∧
      (0, 87) ∈ t.pixels ∧ ¬ OnScreen ⟨80, 80⟩ t := by
  have hmem : (0, 87) ∈ (putGlyph ⟨80, 80⟩ (setFontSize 10 (newLine ⟨80, 80⟩ start))).pixels :=
    mem_render.mpr (Or.inr ⟨0, by decide, 79, by decide, by decide⟩)
  refine ⟨_, rfl, hmem, fun h => ?_⟩
  exact absurd (h _ hmem).2.2.2 (by decide)

theorem console_onScreen_sizes : ∃ t,
    Runs (fun o s => some (execScreen ⟨1024, 768⟩ o s)) (Stays ⟨1024, 768⟩)
      [.setFontSize 2, .put 0 65, .increaseFontSize] start t ∧
    OnScreen ⟨1024, 768⟩ t ∧ ∀ o c fuel, ¬ Stays ⟨1024, 768⟩ o t → c ≠ 9 → c ≠ 10 → c ≠ 13 →
      ¬ OnScreen ⟨1024, 768⟩ (putChar ⟨1024, 768⟩ fuel c (execScreen ⟨1024, 768⟩ o t)) := by
  have h1 : Stays ⟨1024, 768⟩ (.setFontSize 2) start := by
    show (0 : Int) + ((8 * clampSize 2 : Nat) : Int) ≤ (768 : Nat)
    decide
  have h2 : Stays ⟨1024, 768⟩ (.put 0 65) (setFontSize 2 start) := fun e => absurd e (by decide)
  have h3 : Stays ⟨1024, 768⟩ .increaseFontSize
      (putChar ⟨1024, 768⟩ 0 65 (setFontSize 2 start)) := by
    refine Or.inl ?_
    show (0 : Int) + ((24 : Nat) : Int) ≤ (768 : Nat)
    decide
  have h : Runs (fun o s => some (execScreen ⟨1024, 768⟩ o s)) (Stays ⟨1024, 768⟩)
      [.setFontSize 2, .put 0 65, .increaseFontSize] start
      (increaseFontSize ⟨1024, 768⟩ (putChar ⟨1024, 768⟩ 0 65 (setFontSize 2 start))) :=
    ⟨h1, _, rfl, h2, _, rfl, h3, _, rfl, rfl⟩
  exact ⟨_, h, console_onScreen ⟨1024, 768⟩ (by decide) (by decide) _ _ h⟩

end Fonts

end Tp2So
