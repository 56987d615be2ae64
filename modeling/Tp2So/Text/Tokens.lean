import Tp2So.Libc.Strings

/-!
# The tokens of a string

`pieces d r` are the pieces that the string `r` is cut into by the bytes of `d`, without an empty one at
the end.  `Rest t pre r post` says that `strtok` has `r` left: `pre` lies in front of its position.

* `strtokLoop_eq`   what the loop makes of the array;
* `strtok_next`     the next token, or none where nothing is left;
* `strtok_start`    the first token, which a string always has;
* `strcmp_eq_zero`, `strcasecmp_pipe`   the comparisons the shell makes.
-/

set_option linter.unusedVariables false

namespace Tp2So

open Libc

def pieces (d : List UInt8) : List UInt8 → List (List UInt8)
  | [] => []
  | c :: r =>
    if c ∈ d then [] :: pieces d r
    else
      match pieces d r with
      | [] => [[c]]
      | w :: ws => (c :: w) :: ws

/-- the first piece, and what is left behind the byte that cuts it off -/
def firstPiece (d : List UInt8) : List UInt8 → List UInt8 × List UInt8
  | [] => ([], [])
  | c :: r => if c ∈ d then ([], r) else (c :: (firstPiece d r).1, (firstPiece d r).2)

/-- what the first piece and the byte behind it become: that byte is overwritten -/
def firstCut (d : List UInt8) : List UInt8 → List UInt8
  | [] => []
  | c :: r => if c ∈ d then [0] else c :: firstCut d r

/-- where that byte lies, in a string at `p` -/
def cutPlaces (d : List UInt8) (p : Nat) : List UInt8 → List Nat
  | [] => []
  | c :: r => if c ∈ d then [p] else cutPlaces d (p + 1) r

structure Rest (t : Strtok) (pre r post : List UInt8) : Prop where
  text : t.text = pre ++ r ++ 0 :: post
  last : t.last = pre.length
  noNul : 0 ∉ r

section
variable {d r pre post : List UInt8} {t : Strtok} {c : UInt8}

/-! ## pieces -/

theorem firstPiece_cut (r : List UInt8) (hc : c ∈ d) : firstPiece d (c :: r) = ([], r) := if_pos hc

theorem firstPiece_keep (r : List UInt8) (hc : c ∉ d) :
    firstPiece d (c :: r) = (c :: (firstPiece d r).1, (firstPiece d r).2) := if_neg hc

theorem pieces_eq (d : List UInt8) (hr : r ≠ []) :
    pieces d r = (firstPiece d r).1 :: pieces d (firstPiece d r).2 := by
  induction r with
  | nil => exact absurd rfl hr
  | cons c r ih =>
    by_cases hc : c ∈ d
    · rw [firstPiece_cut r hc]
      exact if_pos hc
    · rw [firstPiece_keep r hc]
      refine (if_neg hc).trans ?_
      cases r with
      | nil => rfl
      | cons c' r => rw [ih (List.cons_ne_nil c' r)]

theorem pieces_length (d r : List UInt8) : (pieces d r).length ≤ r.length := by
  induction r with
  | nil => exact Nat.le_refl 0
  | cons c r ih =>
    unfold pieces
    by_cases hc : c ∈ d
    · rw [if_pos hc]
      exact Nat.succ_le_succ ih
    · rw [if_neg hc]
      cases hp : pieces d r with
      | nil => exact Nat.succ_le_succ (Nat.zero_le _)
      | cons w ws =>
        rw [hp] at ih
        exact Nat.le_succ_of_le ih

theorem firstPiece_length (d : List UInt8) (hr : r ≠ []) : (firstPiece d r).2.length < r.length := by
  induction r with
  | nil => exact absurd rfl hr
  | cons c r ih =>
    rw [List.length_cons]
    by_cases hc : c ∈ d
    · rw [firstPiece_cut r hc]
      exact Nat.lt_succ_self _
    · rw [firstPiece_keep r hc]
      cases r with
      | nil => exact Nat.succ_pos _
      | cons c' r => exact Nat.lt_succ_of_lt (ih (List.cons_ne_nil c' r))

theorem firstPiece_suffix (d r : List UInt8) : (firstPiece d r).2 <:+ r := by
  induction r with
  | nil => exact List.suffix_refl []
  | cons c r ih =>
    by_cases hc : c ∈ d
    · rw [firstPiece_cut r hc]
      exact List.suffix_cons c r
    · rw [firstPiece_keep r hc]
      exact ih.trans (List.suffix_cons c r)

theorem firstPiece_noNul (d : List UInt8) (h : 0 ∉ r) :
    0 ∉ (firstPiece d r).1 ∧ 0 ∉ (firstPiece d r).2 := by
  induction r with
  | nil => exact ⟨h, h⟩
  | cons c r ih =>
    obtain ⟨hc0, hr0⟩ := not_or.mp (mt List.mem_cons.mpr h)
    obtain ⟨h1, h2⟩ := ih hr0
    by_cases hc : c ∈ d
    · rw [firstPiece_cut r hc]
      exact ⟨List.not_mem_nil, hr0⟩
    · rw [firstPiece_keep r hc]
      exact ⟨mt List.mem_cons.mp (not_or.mpr ⟨hc0, h1⟩), h2⟩

theorem firstPiece_self (d r : List UInt8) : firstPiece d (firstPiece d r).1 = ((firstPiece d r).1, []) := by
  induction r with
  | nil => rfl
  | cons c r ih =>
    by_cases hc : c ∈ d
    · rw [firstPiece_cut r hc]
      rfl
    · rw [firstPiece_keep r hc, firstPiece_keep _ hc, ih]

/-- the piece is ended by the NUL that is written, or by that of the string -/
theorem firstCut_cases (d r : List UInt8) :
    firstCut d r = (firstPiece d r).1 ++ [0] ∨ firstCut d r = (firstPiece d r).1 ∧ (firstPiece d r).2 = [] := by
  induction r with
  | nil => exact Or.inr ⟨rfl, rfl⟩
  | cons c r ih =>
    unfold firstCut
    by_cases hc : c ∈ d
    · rw [if_pos hc, firstPiece_cut r hc]
      exact Or.inl rfl
    · rw [if_neg hc, firstPiece_keep r hc]
      exact ih.imp (congrArg (List.cons c)) fun h => ⟨congrArg (List.cons c) h.1, h.2⟩

theorem firstCut_length (d r : List UInt8) : (firstCut d r).length + (firstPiece d r).2.length = r.length := by
  induction r with
  | nil => rfl
  | cons c r ih =>
    unfold firstCut
    by_cases hc : c ∈ d
    · rw [if_pos hc, firstPiece_cut r hc, List.length_cons]
      exact Nat.add_comm 1 _
    · rw [if_neg hc, firstPiece_keep r hc, List.length_cons, List.length_cons]
      dsimp only
      omega

theorem cutPlaces_inside {i : Nat} (d : List UInt8) (p : Nat) (r : List UInt8) (hi : i ∈ cutPlaces d p r) :
    p ≤ i ∧ i < p + r.length := by
  induction r generalizing p with
  | nil => exact absurd hi List.not_mem_nil
  | cons c r ih =>
    unfold cutPlaces at hi
    rw [List.length_cons]
    by_cases hc : c ∈ d
    · rw [if_pos hc] at hi
      have heq := List.mem_singleton.mp hi
      omega
    · rw [if_neg hc] at hi
      have hrest := ih (p + 1) hi
      omega

/-! ## one call of `strtok` -/

theorem stringAt_eq {w q : List UInt8} {p : Nat} (h : t.text.drop p = w ++ 0 :: q) (hw : 0 ∉ w) :
    stringAt t p = w := by
  unfold stringAt
  rw [h, List.takeWhile_append_of_pos, List.takeWhile_cons_of_neg, List.append_nil]
  · decide
  · intro a ha
    exact decide_eq_true fun h0 => hw (h0 ▸ ha)

/-- what a call leaves: the string up to the cut, and what is behind it -/
structure Cut (d : List UInt8) (t t' : Strtok) (pre r post : List UInt8) : Prop where
  rest : ∃ pre', Rest t' (pre ++ pre') (firstPiece d r).2 post ∧
    ((firstPiece d r).1 ++ [0] <+: pre' ∨ (firstPiece d r).2 = [])
  token : ∃ q, t'.text = pre ++ (firstPiece d r).1 ++ 0 :: q
  length : t'.text.length = t.text.length
  writes : ∃ ws, t'.writes = t.writes ++ ws ∧ ∀ i ∈ ws, i < t.text.length

theorem Rest.at_last (h : Rest t pre r post) : t.text[t.last]? = (r ++ 0 :: post).head? := by
  rw [h.text, h.last, List.append_assoc, List.getElem?_append_right (Nat.le_refl _), Nat.sub_self,
    List.head?_eq_getElem?]

/-- the loop, from the beginning of what is left -/
theorem strtokLoop_eq {n : Nat} (d pre post : List UInt8) (ws : List Nat) (hr : 0 ∉ r) (hn : r.length < n) :
    strtokLoop d n ⟨pre ++ r ++ 0 :: post, pre.length, ws⟩ =
      some ⟨pre ++ firstCut d r ++ (firstPiece d r).2 ++ 0 :: post, (pre ++ firstCut d r).length,
        ws ++ cutPlaces d pre.length r⟩ := by
  induction n generalizing pre r with
  | zero => exact absurd hn (Nat.not_lt_zero _)
  | succ n ih =>
    have hrest : Rest ⟨pre ++ r ++ 0 :: post, pre.length, ws⟩ pre r post := ⟨rfl, rfl, hr⟩
    unfold strtokLoop
    rw [hrest.at_last]
    cases r with
    | nil => simp only [List.nil_append, List.head?_cons, if_true, firstCut, firstPiece, cutPlaces, List.append_nil]
    | cons c r =>
      obtain ⟨hc0, hr0⟩ := not_or.mp (mt List.mem_cons.mpr hr)
      have hne : ¬c = 0 := fun h => hc0 h.symm
      simp only [List.cons_append, List.head?_cons, hne, if_false]
      unfold firstCut cutPlaces
      by_cases hc : c ∈ d
      · rw [if_pos hc, if_pos hc, if_pos hc, firstPiece_cut r hc, List.append_assoc,
          List.set_append_right _ _ (Nat.le_refl _), Nat.sub_self, List.cons_append, List.set_cons_zero,
          List.append_assoc, List.append_assoc, List.singleton_append, List.length_append, List.length_singleton]
      · have hstep := ih (pre ++ [c]) hr0 (Nat.lt_of_succ_lt_succ hn)
        rw [List.length_append, List.length_singleton] at hstep
        rw [if_neg hc, if_neg hc, if_neg hc, firstPiece_keep r hc, List.append_cons pre c r, hstep,
          List.append_cons pre c (firstCut d r)]

theorem strtokLoop_spec {n : Nat} (h : Rest t pre r post) (hn : r.length < n) :
    ∃ t', strtokLoop d n t = some t' ∧ Cut d t t' pre r post := by
  obtain ⟨text, last, ws⟩ := t
  obtain ⟨rfl, rfl, h0⟩ := h
  have hnul := (firstPiece_noNul d h0).2
  have hcases := firstCut_cases d r
  refine ⟨_, strtokLoop_eq d pre post ws h0 hn, ⟨firstCut d r, ⟨rfl, rfl, hnul⟩, ?_⟩, ?_, ?_, _, rfl, ?_⟩
  · rcases hcases with hcut | ⟨-, hend⟩
    · exact Or.inl (hcut ▸ List.prefix_refl _)
    · exact Or.inr hend
  · rcases hcases with hcut | ⟨hcut, hend⟩
    · refine ⟨(firstPiece d r).2 ++ 0 :: post, ?_⟩
      dsimp only
      rw [hcut]
      simp only [List.append_assoc, List.cons_append, List.nil_append]
    · refine ⟨post, ?_⟩
      dsimp only
      rw [hcut, hend, List.append_nil]
  · have hlen := firstCut_length d r
    simp only [List.length_append]
    omega
  · intro i hi
    have hin := cutPlaces_inside d pre.length r hi
    simp only [List.length_append]
    omega

theorem strtok_next (d : List UInt8) (h : Rest t pre r post) :
    (r = [] ∧ strtok none d t = some (none, t)) ∨
    ∃ t', r ≠ [] ∧ strtok none d t = some (some t.last, t') ∧ Cut d t t' pre r post ∧
      stringAt t' t.last = (firstPiece d r).1 := by
  unfold strtok
  rw [h.at_last]
  cases r with
  | nil => exact Or.inl ⟨rfl, rfl⟩
  | cons c r =>
    right
    have hc0 : ¬c = 0 := fun h0 => h.noNul (h0 ▸ List.mem_cons_self)
    have hlen : (c :: r).length < t.text.length + 1 := by
      rw [h.text, List.length_append, List.length_append]
      omega
    obtain ⟨t', hrun, hcut⟩ := strtokLoop_spec (d := d) h hlen
    obtain ⟨q, hq⟩ := hcut.token
    simp only [List.cons_append, List.head?_cons, hc0, if_false, hrun, Option.bind_some]
    refine ⟨t', List.cons_ne_nil c r, rfl, hcut, stringAt_eq (q := q) ?_ (firstPiece_noNul d h.noNul).1⟩
    rw [hq, h.last, List.append_assoc, List.drop_left]

/-- the first call gives a token also for the empty string -/
theorem strtok_start (d : List UInt8) (htext : t.text = r ++ 0 :: post) (hr : 0 ∉ r) :
    ∃ t', strtok (some 0) d t = some (some 0, t') ∧ Cut d { t with last := 0 } t' [] r post ∧
      stringAt t' 0 = (firstPiece d r).1 := by
  have h : Rest { t with last := 0 } [] r post := ⟨htext, rfl, hr⟩
  have hlen : r.length < t.text.length + 1 := by
    rw [htext, List.length_append]
    omega
  obtain ⟨t', hrun, hcut⟩ := strtokLoop_spec (d := d) h hlen
  obtain ⟨q, hq⟩ := hcut.token
  unfold strtok
  simp only [hrun, Option.bind_some]
  refine ⟨t', rfl, hcut, stringAt_eq (q := q) ?_ (firstPiece_noNul d hr).1⟩
  rw [hq, List.drop_zero, List.nil_append]

/-! ## comparisons -/

theorem charInt_inj {a b : UInt8} (h : charInt a = charInt b) : a = b := by
  have h8 : a.toInt8 = b.toInt8 := by
    have hback := congrArg Int32.toInt8 h
    unfold charInt at hback
    rwa [Int8.toInt8_toInt32, Int8.toInt8_toInt32] at hback
  have hback := congrArg Int8.toUInt8 h8
  rwa [UInt8.toUInt8_toInt8, UInt8.toUInt8_toInt8] at hback

theorem charInt_sub {a b : UInt8} : charInt a - charInt b = 0 ↔ a = b := by
  constructor
  · intro h
    exact charInt_inj (by grind)
  · rintro rfl
    exact Int32.sub_self _

theorem strcmp_eq_zero {s s' : List UInt8} (hs : 0 ∉ s) (hs' : 0 ∉ s') : strcmp s s' = 0 ↔ s = s' := by
  induction s generalizing s' with
  | nil =>
    cases s' with
    | nil => exact ⟨fun _ => rfl, fun _ => by decide⟩
    | cons b s' =>
      refine ⟨fun h => ?_, fun h => by cases h⟩
      have h0 : 0 = b := charInt_sub.mp h
      exact absurd List.mem_cons_self (h0 ▸ hs')
  | cons a s ih =>
    cases s' with
    | nil =>
      refine ⟨fun h => ?_, fun h => by cases h⟩
      have h0 : a = 0 := charInt_sub.mp h
      exact absurd List.mem_cons_self (h0 ▸ hs)
    | cons b s' =>
      unfold strcmp
      by_cases hab : a = b
      · rw [if_neg (not_not_intro hab), ih (mt (List.mem_cons_of_mem a) hs) (mt (List.mem_cons_of_mem b) hs'),
          hab, List.cons_inj_right]
      · rw [if_pos hab, charInt_sub]
        exact ⟨fun h => absurd h hab, fun h => (List.cons.inj h).1⟩

/-- no other character is `|` up to its case -/
theorem toupper_pipe {a : UInt8} (h : toupper a = toupper (ch '|')) : a = ch '|' := by
  have hpipe : toupper (ch '|') = charInt (ch '|') := by decide
  unfold toupper at h
  by_cases hlow : charInt (ch 'a') ≤ charInt a ∧ charInt a ≤ charInt (ch 'z')
  · rw [if_pos hlow] at h
    have hchar : charInt a = 156 := by
      rw [Int32.sub_eq_iff_eq_add] at h
      exact h.trans (by decide)
    rw [hchar] at hlow
    exact absurd hlow.2 (by decide)
  · rw [if_neg hlow] at h
    exact charInt_inj (h.trans hpipe)

theorem strcasecmp_pipe {s : List UInt8} (hs : 0 ∉ s) : strcasecmp s [ch '|'] = 0 ↔ s = [ch '|'] := by
  cases s with
  | nil => exact ⟨fun h => absurd h (by decide), fun h => by cases h⟩
  | cons a s =>
    unfold strcasecmp
    by_cases ha : toupper a = toupper (ch '|')
    · rw [if_neg (not_not_intro ha), toupper_pipe ha, List.cons_inj_right]
      cases s with
      | nil => exact ⟨fun _ => rfl, fun _ => by decide⟩
      | cons b s =>
        refine ⟨fun h => ?_, fun h => by cases h⟩
        have h0 : b = 0 := charInt_sub.mp h
        exact absurd (List.mem_cons_of_mem a List.mem_cons_self) (h0 ▸ hs)
    · rw [if_pos ha, charInt_sub]
      refine ⟨fun h => absurd (congrArg toupper h) ha, fun h => (List.cons.inj h).1⟩

end

end Tp2So
