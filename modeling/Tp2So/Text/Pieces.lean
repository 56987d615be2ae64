import Tp2So.Text.Tokens

/-!
# All tokens of a string

`strtokAll` makes the calls of `strtok` up to the one that gives NULL.  The string lies anywhere in its
array; a read outside the array is a fault (`none`).

* `splitOnP_pieces`     the pieces against `List.splitOnP`, which keeps an empty one at the end;
* `strtokAll_behind`    the calls that follow the first;
* `strtokAll_pieces`    the calls give the pieces, wherever the string lies and whatever is around it.
-/

set_option linter.unusedVariables false

namespace Tp2So

open Libc

/-- the pointers that the calls give, each with the string that is there when it is given; the first call is
made with `s1` -/
def strtokAll (d : List UInt8) : Nat → Option Nat → Strtok → Option (List (Nat × List UInt8) × Strtok)
  | 0, _, _ => none
  | n + 1, s1, t =>
    (strtok s1 d t).bind fun r =>
      match r.1 with
      | none => some ([], r.2)
      | some p => (strtokAll d n none r.2).bind fun l => some ((p, stringAt r.2 p) :: l.1, l.2)

/-- the string cut at each byte of `d`; an empty piece at the end is left out, unless the string is empty -/
def cutPieces (d s : List UInt8) : List (List UInt8) :=
  let ps := s.splitOnP (· ∈ d)
  if s ≠ [] ∧ ps.getLast? = some [] then ps.dropLast else ps

section
variable {d r pre post : List UInt8} {n : Nat}

/-! ## pieces -/

/-- the last piece is empty in one of the two, or in neither -/
theorem splitOnP_pieces (d : List UInt8) (hr : r ≠ []) :
    r.splitOnP (· ∈ d) = pieces d r ++ [[]] ∨
      r.splitOnP (· ∈ d) = pieces d r ∧ (pieces d r).getLast? ≠ some [] := by
  induction r with
  | nil => exact absurd rfl hr
  | cons c r ih =>
    rw [List.splitOnP_cons_eq_if_modifyHead]
    unfold pieces
    by_cases hnil : r = []
    · subst hnil
      by_cases hc : c ∈ d
      · rw [if_pos (decide_eq_true hc), if_pos hc]
        exact Or.inl rfl
      · rw [if_neg (mt of_decide_eq_true hc), if_neg hc]
        exact Or.inr ⟨rfl, fun h => by cases h⟩
    · have hrest := pieces_eq d hnil
      by_cases hc : c ∈ d
      · rw [if_pos (decide_eq_true hc), if_pos hc]
        refine (ih hnil).imp (fun h => by rw [h, List.cons_append]) fun h => ⟨by rw [h.1], ?_⟩
        rw [List.getLast?_cons_of_ne_nil (hrest ▸ List.cons_ne_nil _ _)]
        exact h.2
      · rw [if_neg (mt of_decide_eq_true hc), if_neg hc]
        generalize (firstPiece d r).1 = w at hrest
        generalize pieces d (firstPiece d r).2 = ws at hrest
        have hsplit := ih hnil
        rw [hrest] at hsplit ⊢
        dsimp only
        rcases hsplit with hsplit | ⟨hsplit, hlast⟩
        · exact Or.inl (by rw [hsplit, List.cons_append, List.modifyHead_cons, List.cons_append])
        · refine Or.inr ⟨by rw [hsplit, List.modifyHead_cons], ?_⟩
          cases ws with
          | nil => exact fun h => by cases h
          | cons w' ws =>
            rw [List.getLast?_cons_cons] at hlast ⊢
            exact hlast

theorem cutPieces_eq (d : List UInt8) (hr : r ≠ []) : cutPieces d r = pieces d r := by
  unfold cutPieces
  dsimp only
  rcases splitOnP_pieces d hr with hsplit | ⟨hsplit, hlast⟩
  · rw [hsplit, if_pos ⟨hr, List.getLast?_concat⟩, List.dropLast_concat]
  · rw [hsplit, if_neg fun h => hlast h.2]

theorem cutPieces_first (d s : List UInt8) :
    cutPieces d s = (firstPiece d s).1 :: pieces d (firstPiece d s).2 := by
  by_cases hs : s = []
  · subst hs
    rfl
  · rw [cutPieces_eq d hs, pieces_eq d hs]

/-! ## the calls -/

/-- the string at the place where the piece was -/
theorem stringAt_cut (d pre post : List UInt8) (last : Nat) (ws : List Nat) (hr : 0 ∉ r) :
    stringAt ⟨pre ++ firstCut d r ++ (firstPiece d r).2 ++ 0 :: post, last, ws⟩ pre.length =
      (firstPiece d r).1 := by
  have hpiece := (firstPiece_noNul d hr).1
  rcases firstCut_cases d r with hcut | ⟨hcut, hend⟩
  · refine stringAt_eq (q := (firstPiece d r).2 ++ 0 :: post) ?_ hpiece
    dsimp only
    rw [hcut, List.append_assoc, List.append_assoc, List.drop_left, List.append_assoc, List.singleton_append]
  · refine stringAt_eq (q := post) ?_ hpiece
    dsimp only
    rw [hcut, hend, List.append_nil, List.append_assoc, List.drop_left]

/-- a first call, wherever `strtok` stood before -/
theorem strtok_begin (d pre post : List UInt8) (last : Nat) (ws : List Nat) (hr : 0 ∉ r) :
    strtok (some pre.length) d ⟨pre ++ r ++ 0 :: post, last, ws⟩ =
      some (some pre.length, ⟨pre ++ firstCut d r ++ (firstPiece d r).2 ++ 0 :: post,
        (pre ++ firstCut d r).length, ws ++ cutPlaces d pre.length r⟩) := by
  have hlen : r.length < (pre ++ r ++ 0 :: post).length + 1 := by
    rw [List.length_append, List.length_append]
    omega
  unfold strtok
  dsimp only
  rw [strtokLoop_eq d pre post ws hr hlen]
  rfl

/-- a later call does what a first one at its position does, as long as something is left -/
theorem strtok_later (d pre post : List UInt8) (ws : List Nat) (hr : 0 ∉ r) (hne : r ≠ []) :
    strtok none d ⟨pre ++ r ++ 0 :: post, pre.length, ws⟩ =
      strtok (some pre.length) d ⟨pre ++ r ++ 0 :: post, pre.length, ws⟩ := by
  have hrest : Rest ⟨pre ++ r ++ 0 :: post, pre.length, ws⟩ pre r post := ⟨rfl, rfl, hr⟩
  obtain ⟨c, r', rfl⟩ := List.exists_cons_of_ne_nil hne
  have hc : ¬c = 0 := fun h => hr (h ▸ List.mem_cons_self)
  unfold strtok
  rw [hrest.at_last]
  exact if_neg hc

theorem strtok_over (d pre post : List UInt8) (ws : List Nat) :
    strtok none d ⟨pre ++ [] ++ 0 :: post, pre.length, ws⟩ =
      some (none, ⟨pre ++ [] ++ 0 :: post, pre.length, ws⟩) := by
  have hrest : Rest ⟨pre ++ [] ++ 0 :: post, pre.length, ws⟩ pre [] post := ⟨rfl, rfl, List.not_mem_nil⟩
  unfold strtok
  rw [hrest.at_last]
  rfl

/-! ## all calls -/

/-- the tokens of a string that begins `k` bytes further on -/
def moved (k : Nat) (toks : List (Nat × List UInt8)) : List (Nat × List UInt8) :=
  toks.map fun t => (k + t.1, t.2)

theorem moved_moved (j k : Nat) (toks : List (Nat × List UInt8)) : moved j (moved k toks) = moved (j + k) toks := by
  unfold moved
  rw [List.map_map]
  exact List.map_congr_left fun t _ => by rw [Function.comp_apply, Nat.add_assoc]

theorem moved_texts (k : Nat) (toks : List (Nat × List UInt8)) : (moved k toks).map Prod.snd = toks.map Prod.snd := by
  unfold moved
  rw [List.map_map]
  rfl

/-- the calls on what is left, `r`, give `toks` and leave `cut` in its place, wherever it lies; they touch
nothing else -/
def Yields (d r : List UInt8) (toks : List (Nat × List UInt8)) (cut : List UInt8) : Prop :=
  cut.length = r.length ∧ ∀ (n : Nat) (pre post : List UInt8) (ws : List Nat), r.length < n →
    ∃ ws', strtokAll d n none ⟨pre ++ r ++ 0 :: post, pre.length, ws⟩ =
        some (moved pre.length toks, ⟨pre ++ cut ++ 0 :: post, (pre ++ cut).length, ws ++ ws'⟩) ∧
      ∀ i ∈ ws', pre.length ≤ i ∧ i < pre.length + r.length

theorem strtokAll_token {s1 : Option Nat} {t t' : Strtok} {p : Nat} (h : strtok s1 d t = some (some p, t')) :
    strtokAll d (n + 1) s1 t =
      (strtokAll d n none t').bind fun l => some ((p, stringAt t' p) :: l.1, l.2) := by
  unfold strtokAll
  rw [h]
  cases n <;> rfl

theorem Yields.turn {s1 : Option Nat} {toks : List (Nat × List UInt8)} {cut : List UInt8} {last : Nat} {ws : List Nat}
    (h : Yields d (firstPiece d r).2 toks cut) (hr : 0 ∉ r) (hn : (firstPiece d r).2.length < n)
    (hrun : strtok s1 d ⟨pre ++ r ++ 0 :: post, last, ws⟩ = strtok (some pre.length) d ⟨pre ++ r ++ 0 :: post, last, ws⟩) :
    ∃ ws', strtokAll d (n + 1) s1 ⟨pre ++ r ++ 0 :: post, last, ws⟩ =
        some (moved pre.length ((0, (firstPiece d r).1) :: moved (firstCut d r).length toks),
          ⟨pre ++ (firstCut d r ++ cut) ++ 0 :: post, (pre ++ (firstCut d r ++ cut)).length, ws ++ ws'⟩) ∧
      ∀ i ∈ ws', pre.length ≤ i ∧ i < pre.length + r.length := by
  have hlen := firstCut_length d r
  obtain ⟨ws', hall, hin⟩ := h.2 n (pre ++ firstCut d r) post (ws ++ cutPlaces d pre.length r) hn
  have hplace : (pre ++ firstCut d r).length = pre.length + (firstCut d r).length := List.length_append
  refine ⟨cutPlaces d pre.length r ++ ws', ?_, fun i hi => ?_⟩
  · rw [strtokAll_token (hrun.trans (strtok_begin d pre post last ws hr)), hall, Option.bind_some,
      stringAt_cut d pre post _ _ hr, hplace, ← moved_moved, List.append_assoc pre, List.append_assoc ws]
    rfl
  · rcases List.mem_append.mp hi with hi | hi
    · exact cutPlaces_inside d pre.length r hi
    · have hbounds := hin i hi
      rw [hplace] at hbounds
      omega

theorem strtokAll_behind (d : List UInt8) (m : Nat) : ∀ {r : List UInt8}, r.length ≤ m → 0 ∉ r →
    ∃ (toks : List (Nat × List UInt8)) (cut : List UInt8), toks.map Prod.snd = pieces d r ∧ Yields d r toks cut := by
  have hover : ∃ (toks : List (Nat × List UInt8)) (cut : List UInt8), toks.map Prod.snd = pieces d [] ∧ Yields d [] toks cut := by
    refine ⟨[], [], rfl, rfl, fun n pre post ws hn => ⟨[], ?_, fun i hi => absurd hi List.not_mem_nil⟩⟩
    obtain ⟨n, rfl⟩ : ∃ k, n = k + 1 := Nat.exists_eq_succ_of_ne_zero (Nat.ne_of_gt hn)
    unfold strtokAll
    rw [strtok_over, List.append_nil, List.append_nil]
    rfl
  induction m with
  | zero =>
    intro r hm h0
    obtain rfl := List.length_eq_zero_iff.mp (Nat.le_zero.mp hm)
    exact hover
  | succ m ih =>
    intro r hm h0
    by_cases hne : r = []
    · subst hne
      exact hover
    · have hshort := firstPiece_length d hne
      obtain ⟨toks, cut, htexts, hyields⟩ := ih (r := (firstPiece d r).2) (by omega) (firstPiece_noNul d h0).2
      refine ⟨(0, (firstPiece d r).1) :: moved (firstCut d r).length toks, firstCut d r ++ cut, ?_, ?_, ?_⟩
      · rw [List.map_cons, moved_texts, htexts, pieces_eq d hne]
      · rw [List.length_append, hyields.1, firstCut_length]
      · intro n pre post ws hn
        obtain ⟨n, rfl⟩ : ∃ k, n = k + 1 := Nat.exists_eq_succ_of_ne_zero (by omega)
        exact hyields.turn h0 (by omega) (strtok_later d pre post ws h0 hne)

/-- **The calls of `strtok` on a string.**  They give its pieces in their order, after at most two more calls
than it has bytes.  What they give and leave in the place of the string does not depend on where it lies or
what is around it, and that stays as it was: no byte outside the string and its NUL is read or written. -/
theorem strtokAll_pieces (d s : List UInt8) (hs : 0 ∉ s) :
    ∃ (toks : List (Nat × List UInt8)) (cut : List UInt8), toks.map Prod.snd = cutPieces d s ∧
      cut.length = s.length ∧
      ∀ (n : Nat) (pre post : List UInt8) (last : Nat) (ws : List Nat), s.length + 2 ≤ n →
        ∃ ws', strtokAll d n (some pre.length) ⟨pre ++ s ++ 0 :: post, last, ws⟩ =
            some (toks.map fun t => (pre.length + t.1, t.2),
              ⟨pre ++ cut ++ 0 :: post, (pre ++ cut).length, ws ++ ws'⟩) ∧
          ∀ i ∈ ws', pre.length ≤ i ∧ i < pre.length + s.length := by
  have hlen := firstCut_length d s
  obtain ⟨toks, cut, htexts, hyields⟩ := strtokAll_behind d s.length (r := (firstPiece d s).2) (by omega)
    (firstPiece_noNul d hs).2
  refine ⟨(0, (firstPiece d s).1) :: moved (firstCut d s).length toks, firstCut d s ++ cut, ?_, ?_, ?_⟩
  · rw [List.map_cons, moved_texts, htexts, cutPieces_first]
  · rw [List.length_append, hyields.1, firstCut_length]
  · intro n pre post last ws hn
    obtain ⟨n, rfl⟩ : ∃ k, n = k + 1 := Nat.exists_eq_succ_of_ne_zero (by omega)
    exact hyields.turn hs (by omega) rfl

/-- `"a b "`, cut at the blanks -/
theorem strtokAll_pieces_ab :
    ∃ (toks : List (Nat × List UInt8)) (cut : List UInt8),
      toks.map Prod.snd = cutPieces [ch ' '] [ch 'a', ch ' ', ch 'b', ch ' '] ∧
      cut.length = [ch 'a', ch ' ', ch 'b', ch ' '].length ∧
      ∀ (n : Nat) (pre post : List UInt8) (last : Nat) (ws : List Nat), 6 ≤ n →
        ∃ ws', strtokAll [ch ' '] n (some pre.length)
              ⟨pre ++ [ch 'a', ch ' ', ch 'b', ch ' '] ++ 0 :: post, last, ws⟩ =
            some (toks.map fun t => (pre.length + t.1, t.2),
              ⟨pre ++ cut ++ 0 :: post, (pre ++ cut).length, ws ++ ws'⟩) ∧
          ∀ i ∈ ws', pre.length ≤ i ∧ i < pre.length + 4 :=
  strtokAll_pieces _ _ (by decide)

example : cutPieces [ch ' '] [ch 'a', ch ' ', ch ' ', ch 'b', ch ' '] = [[ch 'a'], [], [ch 'b']] := by decide

end

end Tp2So
