import Tp2So.Shell.Prompt

/-!
# The segments of a line

`parseCalls` makes the calls of `parse_command` up to the one that fails, and notes where the tokens lie
that become commands.  An argument behind the ninth of a segment becomes one.

* `pieces_joined`       the words of a line that is put together from words;
* `parseCalls_step`     one call;
* `calls_found_iff`     the calls from a segment on.
-/

set_option linter.unusedVariables false

namespace Tp2So.Shell

open Libc

/-! ## the calls -/

/-- where the token lies that a call takes as the command -/
def commandToken (first : Bool) (s : State) : Option (Option Nat) :=
  (token (if first then some 0 else none) s).bind fun r =>
    (skipPipes (maxBufferSize + 1) r.1 r.2).bind fun r => some r.1

/-- the calls as `main` makes them, with room for every command -/
def parseCalls (alloc : Nat → Bool) : Nat → Nat → State → Option (List Nat × State)
  | 0, _, _ => none
  | n + 1, parsed, s =>
    (commandToken (parsed = 0) s).bind fun tok =>
      (parse_command alloc (parsed = 0) parsed s).bind fun r =>
        if r.1 then (parseCalls alloc n (parsed + 1) r.2).bind fun l => some (tok.toList ++ l.1, l.2)
        else some ([], r.2)

/-- the buffer, when `main` has read a line -/
def lineRead (line : List UInt8) (s : State) : State :=
  (readLoop line s.reset).setBuffer (readLoop line s.reset).bufferDim 0

/-! ## segments -/

/-- a command that is known, and its arguments -/
structure Segment where
  name : List UInt8
  args : List (List UInt8)
  index : Nat
  known : commandIndex name = some index
  words : ∀ w ∈ name :: args, w ≠ [] ∧ 0 ∉ w ∧ ch ' ' ∉ w
  noPipe : pipe ∉ args

/-- words with a blank between each two -/
def joined : List (List UInt8) → List UInt8
  | [] => []
  | [w] => w
  | w :: ws => w ++ ch ' ' :: joined ws

/-- segments with a pipe between each two -/
def segmentWords (g : Segment) : List Segment → List (List UInt8)
  | [] => g.name :: g.args
  | g' :: gs => g.name :: (g.args ++ pipe :: segmentWords g' gs)

/-- the characters of the words and of the blank behind each -/
def wordsSize : List (List UInt8) → Nat
  | [] => 0
  | w :: ws => w.length + 1 + wordsSize ws

/-- where each of the segments starts, if the first does at `p` -/
def segmentStarts (p : Nat) (g : Segment) : List Segment → List Nat
  | [] => [p]
  | g' :: gs => p :: segmentStarts (p + wordsSize (g.name :: g.args) + wordsSize [pipe]) g' gs

/-- the arguments that there is room for -/
def Segment.kept (g : Segment) : List (List UInt8) := g.args.take (maxArgumentCount - 2)

/-- nothing is left of the last segment, or a word that fits into `command` and gives no command -/
def Ends (alloc : Nat → Bool) (k : Nat) : List (List UInt8) → Prop
  | [] => True
  | w :: ws => w.length < maxArgumentSize ∧
      (commandIndex w = none ∨ allGet alloc k (ws.take (maxArgumentCount - 2)).length = false)

/-- the arguments that are kept get their memory, and only the last segment has more than nine -/
def Found (alloc : Nat → Bool) (k : Nat) (g : Segment) : List Segment → Prop
  | [] => allGet alloc k g.kept.length = true ∧
      Ends alloc (k + g.kept.length) (g.args.drop (maxArgumentCount - 1))
  | g' :: gs => allGet alloc k g.kept.length = true ∧ g.args.length ≤ maxArgumentCount - 1 ∧
      Found alloc (k + g.kept.length) g' gs

section
variable {l r w : List UInt8} {ws ws' args rest : List (List UInt8)} {g g' : Segment} {gs : List Segment}
  {s s₁ s' : State} {alloc : Nat → Bool} {n p i k : Nat} {tok : Option Nat} {b : Strtok}

/-! ## words -/

theorem mem_blank (c : UInt8) : c ∈ blank ↔ c = ch ' ' := List.mem_singleton

theorem firstPiece_word (h : ch ' ' ∉ w) (r : List UInt8) : firstPiece blank (w ++ ch ' ' :: r) = (w, r) := by
  induction w with
  | nil => exact firstPiece_cut r (List.mem_singleton_self _)
  | cons c w ih =>
    obtain ⟨hc, hw⟩ := not_or.mp (mt List.mem_cons.mpr h)
    rw [List.cons_append, firstPiece_keep _ fun hb => hc ((mem_blank c).mp hb).symm, ih hw]

theorem firstPiece_end (h : ch ' ' ∉ w) : firstPiece blank w = (w, []) := by
  induction w with
  | nil => rfl
  | cons c w ih =>
    obtain ⟨hc, hw⟩ := not_or.mp (mt List.mem_cons.mpr h)
    rw [firstPiece_keep _ fun hb => hc ((mem_blank c).mp hb).symm, ih hw]

theorem pieces_joined (ws : List (List UInt8)) (h : ∀ w ∈ ws, w ≠ [] ∧ ch ' ' ∉ w) :
    pieces blank (joined ws) = ws := by
  induction ws with
  | nil => rfl
  | cons w ws ih =>
    obtain ⟨hw, hws⟩ := List.forall_mem_cons.mp h
    cases ws with
    | nil =>
      show pieces blank w = [w]
      rw [pieces_eq blank hw.1, firstPiece_end hw.2]
      rfl
    | cons w' ws =>
      show pieces blank (w ++ ch ' ' :: joined (w' :: ws)) = _
      rw [pieces_eq blank (List.append_ne_nil_of_right_ne_nil _ (List.cons_ne_nil _ _)), firstPiece_word hw.2,
        ih hws]

theorem joined_noNul (ws : List (List UInt8)) (h : ∀ w ∈ ws, 0 ∉ w) : 0 ∉ joined ws := by
  induction ws with
  | nil => exact List.not_mem_nil
  | cons w ws ih =>
    obtain ⟨hw, hws⟩ := List.forall_mem_cons.mp h
    cases ws with
    | nil => exact hw
    | cons w' ws =>
      show 0 ∉ w ++ ch ' ' :: joined (w' :: ws)
      exact mt List.mem_append.mp (not_or.mpr ⟨hw, mt List.mem_cons.mp (not_or.mpr ⟨by decide, ih hws⟩)⟩)

theorem joined_last (ws : List (List UInt8)) (h : ∀ w ∈ ws, w ≠ [] ∧ ch ' ' ∉ w) :
    (joined ws).getLast? ≠ some (ch ' ') := by
  induction ws with
  | nil => exact fun h => by cases h
  | cons w ws ih =>
    obtain ⟨hw, hws⟩ := List.forall_mem_cons.mp h
    cases ws with
    | nil => exact fun hlast => hw.2 (List.mem_of_getLast? hlast)
    | cons w' ws =>
      have hne : joined (w' :: ws) ≠ [] := by
        intro hnil
        have hback := pieces_joined (w' :: ws) hws
        rw [hnil] at hback
        cases hback
      show (w ++ ch ' ' :: joined (w' :: ws)).getLast? ≠ _
      rw [List.getLast?_append_of_ne_nil _ (List.cons_ne_nil _ _), List.getLast?_cons_of_ne_nil hne]
      exact ih hws

theorem wordsSize_cons (w : List UInt8) (ws : List (List UInt8)) :
    wordsSize (w :: ws) = w.length + 1 + wordsSize ws := rfl

theorem wordsSize_append (ws ws' : List (List UInt8)) : wordsSize (ws ++ ws') = wordsSize ws + wordsSize ws' := by
  induction ws with
  | nil => exact (Nat.zero_add _).symm
  | cons w ws ih => rw [List.cons_append, wordsSize_cons, wordsSize_cons, ih, ← Nat.add_assoc]

theorem pieces_size (hr : r ≠ []) (hlast : r.getLast? ≠ some (ch ' ')) :
    wordsSize (pieces blank r) = r.length + 1 := by
  induction r with
  | nil => exact absurd rfl hr
  | cons c r ih =>
    have hrest : r ≠ [] → wordsSize (pieces blank r) = r.length + 1 := fun hne =>
      ih hne (List.getLast?_cons_of_ne_nil (x := c) hne ▸ hlast)
    unfold pieces
    by_cases hc : c ∈ blank
    · have hne : r ≠ [] := by
        rintro rfl
        exact hlast (congrArg some ((mem_blank c).mp hc))
      rw [if_pos hc, wordsSize_cons, hrest hne, List.length_nil, List.length_cons]
      omega
    · rw [if_neg hc]
      by_cases hne : r = []
      · subst hne
        rfl
      · have hsize := hrest hne
        rw [pieces_eq blank hne, wordsSize_cons] at hsize
        rw [pieces_eq blank hne]
        dsimp only
        rw [wordsSize_cons, List.length_cons, List.length_cons]
        omega

/-- where a token lies, from the words that it begins -/
theorem From.position {q : Nat} (hfrom : From l q r) (hlast : l.getLast? ≠ some (ch ' '))
    (hne : pieces blank r ≠ []) : q + wordsSize (pieces blank r) = l.length + 1 := by
  have hr : r ≠ [] := fun h => hne (h ▸ rfl)
  have hsame : r.getLast? = l.getLast? := by
    obtain ⟨front, rfl⟩ := hfrom.1
    exact (List.getLast?_append_of_ne_nil _ hr).symm
  rw [pieces_size hr (hsame ▸ hlast), ← hfrom.2]
  rfl

/-! ## one call -/

theorem commandToken_spec (first : Bool)
    (hrun : token (if first then some 0 else none) s = some (tok, s.setTok b)) (hheld : Held b l tok ws)
    (hlen : ws.length ≤ maxBufferSize) (hl : l ≠ []) (hlast : l.getLast? ≠ some (ch ' ')) :
    ∃ tok', commandToken first s = some tok' ∧
      (fromCommand ws ≠ [] → ∃ q, tok' = some q ∧ q + wordsSize (fromCommand ws) = l.length + 1) := by
  obtain ⟨tok', b', hskip, hheld'⟩ := skipPipes_spec (maxBufferSize + 1) (s := s.setTok b) hheld
    (Nat.lt_succ_of_le hlen)
  unfold commandToken
  rw [hrun, Option.bind_some]
  dsimp only
  rw [hskip]
  refine ⟨tok', rfl, fun hne => ?_⟩
  rcases hheld' with ⟨-, hnil, -⟩ | ⟨q, w, ws', hq, hcons, -, -, -, hfrom⟩
  · exact absurd hnil hne
  · obtain ⟨r, hr, hpieces⟩ := hfrom hl
    rw [← hpieces] at hne ⊢
    exact ⟨q, hq, hr.position hlast hne⟩

/-- a call gives a command, and the calls go on behind it, or they are over -/
theorem parseCalls_step (alloc : Nat → Bool)
    (hrun : token (if (decide (p = 0)) then some 0 else none) s = some (tok, s.setTok b)) (hheld : Held b l tok ws)
    (hlen : ws.length ≤ maxBufferSize) (hl : l ≠ []) (hlast : l.getLast? ≠ some (ch ' ')) :
    ∃ s₁, Call s s₁ p ws ∧
      ((∃ i args rest q, parseWords alloc s.allocated ws = some (i, args, rest) ∧ Stored s s₁ l p i args rest ∧
          q + wordsSize (fromCommand ws) = l.length + 1 ∧
          ∀ n, parseCalls alloc (n + 1) p s = (parseCalls alloc n (p + 1) s₁).bind fun r => some (q :: r.1, r.2)) ∨
        (parseWords alloc s.allocated ws = none ∧ s₁.parsedCommands = s.parsedCommands ∧
          ∀ n, parseCalls alloc (n + 1) p s = some ([], s₁))) := by
  obtain ⟨tok', htok', hq⟩ := commandToken_spec (p = 0) hrun hheld hlen hl hlast
  obtain ⟨s₁, hcall, hanswer⟩ := parse_command_spec alloc (p = 0) p hrun hheld hlen
  refine ⟨s₁, hcall, ?_⟩
  rcases hanswer with ⟨i, args, rest, hwords, hparse, hstored⟩ | ⟨hwords, hparse, hno⟩
  · obtain ⟨w, ws', hfrom, -⟩ := parseWords_some hwords
    obtain ⟨q, rfl, hpos⟩ := hq (hfrom ▸ List.cons_ne_nil _ _)
    refine Or.inl ⟨i, args, rest, q, hwords, hstored, hpos, fun n => ?_⟩
    unfold parseCalls
    rw [htok', Option.bind_some, hparse, Option.bind_some, if_pos rfl]
    cases n <;> rfl
  · refine Or.inr ⟨hwords, hno.commands, fun n => ?_⟩
    unfold parseCalls
    rw [htok', Option.bind_some, hparse, Option.bind_some]
    exact if_neg Bool.false_ne_true

/-! ## the writes to `command` -/

/-- from `s` to `s'`, what was written to `command` lies inside it -/
def CommandInside (s s' : State) : Prop :=
  ∃ W, s'.writes = s.writes ++ W ∧ ∀ w ∈ W, w.arr = .command → w.inside = true

theorem commandInside_iff {W : List Place} (h : s'.writes = s.writes ++ W) :
    CommandInside s s' ↔ ∀ w ∈ W, w.arr = .command → w.inside = true := by
  constructor
  · rintro ⟨W', hW', hin⟩
    obtain rfl := List.append_cancel_left (h.symm.trans hW')
    exact hin
  · exact fun hin => ⟨W, h, hin⟩

theorem commandInside_trans {W W' : List Place} (h : s₁.writes = s.writes ++ W)
    (h' : s'.writes = s₁.writes ++ W') : CommandInside s s' ↔ CommandInside s s₁ ∧ CommandInside s₁ s' := by
  rw [commandInside_iff h, commandInside_iff h', commandInside_iff (by rw [h', h, List.append_assoc]),
    List.forall_mem_append]

theorem Call.writes_append (h : Call s s₁ p ws) : ∃ W, s₁.writes = s.writes ++ W := by
  obtain ⟨idx, -, hw⟩ := h.writes
  exact ⟨_, hw⟩

theorem Call.commandInside (h : Call s s₁ p ws) : CommandInside s s₁ ↔ Fit (fromCommand ws).head?.toList := by
  obtain ⟨idx, -, hw⟩ := h.writes
  have hcommand : ∀ w ∈ (commandCopy ws).map (Place.mk .command), w.arr = .command := by
    intro w hw
    obtain ⟨j, -, rfl⟩ := List.mem_map.mp hw
    rfl
  have hargv : ∀ w ∈ idx.map (Place.mk (.argv p s.dim)), w.arr = .command → w.inside = true := by
    intro w hw harr
    obtain ⟨j, -, rfl⟩ := List.mem_map.mp hw
    cases harr
  rw [commandInside_iff hw, List.forall_mem_append, ← commandCopy_inside]
  refine (and_iff_left hargv).trans (forall₂_congr fun w hw => ?_)
  exact ⟨fun h => h (hcommand w hw), fun h _ => h⟩

/-! ## the calls from some word on -/

/-- what the calls leave, and where the first of their commands lies -/
structure Ran (l : List UInt8) (p : Nat) (ws : List (List UInt8)) (s s' : State) (starts : List Nat) : Prop where
  before : ∀ q < p, s'.parsedCommands q = s.parsedCommands q
  writes : ∃ W, s'.writes = s.writes ++ W
  head : ∀ q ∈ starts.head?, q + wordsSize (fromCommand ws) = l.length + 1

theorem parseCalls_spec (alloc : Nat → Bool) (n : Nat) (hl : l ≠ []) (hlast : l.getLast? ≠ some (ch ' ')) :
    ∀ {p : Nat} {s : State} {tok : Option Nat} {b : Strtok} {ws : List (List UInt8)},
    token (if (decide (p = 0)) then some 0 else none) s = some (tok, s.setTok b) → Held b l tok ws →
    ws.length ≤ maxBufferSize → ws.length < n →
    ∃ starts s', parseCalls alloc n p s = some (starts, s') ∧ Ran l p ws s s' starts := by
  induction n with
  | zero => exact fun _ _ _ h => absurd h (Nat.not_lt_zero _)
  | succ n ih =>
    intro p s tok b ws hrun hheld hlen hn
    obtain ⟨s₁, hcall, hstep⟩ := parseCalls_step alloc hrun hheld hlen hl hlast
    obtain ⟨W, hW⟩ := hcall.writes_append
    rcases hstep with ⟨i, args, rest, q, hwords, hstored, hpos, hnext⟩ | ⟨hwords, hsame, hnext⟩
    · have hshort : rest.length < ws.length := parseWords_length hwords
      obtain ⟨tok', b', hrun', hheld'⟩ := token_held hstored.ahead
      obtain ⟨starts, s', hcalls, hran⟩ := ih (p := p + 1) (s := s₁) hrun' hheld' (by omega) (by omega)
      obtain ⟨W', hW'⟩ := hran.writes
      refine ⟨q :: starts, s', by rw [hnext, hcalls, Option.bind_some], ?_, ⟨W ++ W', ?_⟩, ?_⟩
      · intro q hq
        rw [hran.before q (Nat.lt_succ_of_lt hq), hstored.commands, Function.update_of_ne (Nat.ne_of_lt hq)]
      · rw [hW', hW, List.append_assoc]
      · intro q' hq'
        obtain rfl := Option.some.inj hq'
        exact hpos
    · refine ⟨[], s₁, hnext n, fun q _ => by rw [hsame], ⟨W, hW⟩, ?_⟩
      exact fun q hq => by cases hq

/-! ## the calls on segments -/

theorem takeArgs_noPipe (n : Nat) (h : pipe ∉ ws) : takeArgs n ws = (ws.take n, ws.drop (n + 1)) := by
  induction ws generalizing n with
  | nil =>
    rw [List.take_nil, List.drop_nil]
    cases n <;> rfl
  | cons w ws ih =>
    obtain ⟨hw, hws⟩ := not_or.mp (mt List.mem_cons.mpr h)
    cases n with
    | zero => rfl
    | succ n =>
      unfold takeArgs
      rw [if_neg (fun hp => hw hp.symm), ih n hws]
      rfl

/-- the arguments of a segment, and the words behind it -/
theorem takeArgs_segment (n : Nat) (h : pipe ∉ ws) (rest : List (List UInt8)) :
    takeArgs n (ws ++ pipe :: rest) =
      (ws.take n, if ws.length ≤ n then rest else ws.drop (n + 1) ++ pipe :: rest) := by
  induction ws generalizing n with
  | nil =>
    rw [List.nil_append, takeArgs_pipe, List.take_nil,
      if_pos (show ([] : List (List UInt8)).length ≤ n from Nat.zero_le n)]
  | cons w ws ih =>
    obtain ⟨hw, hws⟩ := not_or.mp (mt List.mem_cons.mpr h)
    cases n with
    | zero =>
      rw [if_neg (by simp)]
      rfl
    | succ n =>
      have hle : (w :: ws).length ≤ n + 1 ↔ ws.length ≤ n := Nat.succ_le_succ_iff
      rw [List.cons_append]
      unfold takeArgs
      rw [if_neg (fun hp => hw hp.symm), ih n hws, if_congr hle rfl rfl]
      rfl

theorem commandIndex_fits (h : commandIndex w = some i) (h0 : 0 ∉ w) : w.length < maxArgumentSize := by
  have hall : ∀ c ∈ commands, 0 ∉ c.name ∧ c.name.length < maxArgumentSize := by decide
  obtain ⟨c, hc, heq⟩ : ∃ c ∈ commands, strcmp c.name w = 0 := by
    obtain ⟨hlt, hc, -⟩ := List.findIdx?_eq_some_iff_getElem.mp h
    exact ⟨_, List.getElem_mem hlt, of_decide_eq_true hc⟩
  obtain ⟨hnul, hlen⟩ := hall c hc
  exact (strcmp_eq_zero hnul h0).mp heq ▸ hlen

theorem Segment.name_not_pipe (g : Segment) : g.name ≠ pipe := by
  intro h
  have hpipe : commandIndex pipe = none := by decide
  have hknown := g.known
  rw [h, hpipe] at hknown
  cases hknown

theorem fromCommand_segments (g : Segment) (gs : List Segment) :
    fromCommand (segmentWords g gs) = segmentWords g gs := by
  cases gs <;> exact fromCommand_word _ g.name_not_pipe

/-- behind the last segment: its arguments from the tenth on -/
theorem calls_end_iff (alloc : Nat → Bool) (n : Nat) (hl : l ≠ []) (hlast : l.getLast? ≠ some (ch ' '))
    (hrun : token (if (decide (p = 0)) then some 0 else none) s = some (tok, s.setTok b)) (hheld : Held b l tok ws)
    (hlen : ws.length ≤ maxBufferSize) (hn : ws.length < n) (hpipe : pipe ∉ ws) (hwords : ∀ w ∈ ws, w ≠ []) :
    ∃ starts s', parseCalls alloc n p s = some (starts, s') ∧ Ran l p ws s s' starts ∧
      (starts = [] ∧ CommandInside s s' ↔ Ends alloc s.allocated ws) := by
  obtain ⟨starts, s', hcalls, hran⟩ := parseCalls_spec alloc n hl hlast hrun hheld hlen hn
  refine ⟨starts, s', hcalls, hran, ?_⟩
  obtain ⟨m, rfl⟩ : ∃ m, n = m + 1 := Nat.exists_eq_succ_of_ne_zero (Nat.ne_of_gt (Nat.zero_lt_of_lt hn))
  obtain ⟨s₁, hcall, hstep⟩ := parseCalls_step alloc hrun hheld hlen hl hlast
  cases ws with
  | nil =>
    rcases hstep with ⟨i, args, rest, q, hparse, -⟩ | ⟨-, -, hnext⟩
    · rw [parseWords_nil rfl] at hparse
      cases hparse
    · obtain ⟨rfl, rfl⟩ := Prod.mk.inj (Option.some.inj ((hnext m).symm.trans hcalls))
      exact iff_of_true ⟨rfl, hcall.commandInside.mpr fun w hw => absurd hw List.not_mem_nil⟩ trivial
  | cons w ws =>
    obtain ⟨hw, hws⟩ := not_or.mp (mt List.mem_cons.mpr hpipe)
    have hfrom : fromCommand (w :: ws) = w :: ws := fromCommand_word ws fun h => hw h.symm
    have hargs : arguments ws = (ws.take (maxArgumentCount - 2), ws.drop (maxArgumentCount - 2 + 1)) :=
      takeArgs_noPipe _ hws
    have hparse := parseWords_cons alloc s.allocated hfrom
    rw [if_neg (hwords w List.mem_cons_self), hargs] at hparse
    rcases hstep with ⟨i, args, rest, q, hyes, -, -, hnext⟩ | ⟨hno, -, hnext⟩
    · -- the word became a command
      have hne : starts ≠ [] := by
        intro hnil
        rw [hnext m] at hcalls
        obtain ⟨r, -, hr⟩ := Option.bind_eq_some_iff.mp hcalls
        obtain ⟨hq, -⟩ := Prod.mk.inj (Option.some.inj hr)
        rw [hnil] at hq
        cases hq
      refine iff_of_false (fun h => hne h.1) ?_
      rw [hyes] at hparse
      rintro ⟨-, hindex | hall⟩
      · rw [hindex] at hparse
        cases hparse
      · cases hindex : commandIndex w with
        | none =>
          rw [hindex] at hparse
          cases hparse
        | some i =>
          rw [hindex, Option.bind_some, if_neg (Bool.eq_false_iff.mp hall)] at hparse
          cases hparse
    · -- it did not
      obtain ⟨rfl, rfl⟩ := Prod.mk.inj (Option.some.inj ((hnext m).symm.trans hcalls))
      have hfit : CommandInside s s₁ ↔ w.length < maxArgumentSize := by
        rw [hcall.commandInside, hfrom]
        exact List.forall_mem_singleton
      refine (and_iff_right rfl).trans (hfit.trans (and_iff_left ?_).symm)
      cases hindex : commandIndex w with
      | none => exact Or.inl rfl
      | some i =>
        rw [hno, hindex, Option.bind_some] at hparse
        refine Or.inr (Bool.eq_false_iff.mpr fun hall => ?_)
        rw [if_pos hall] at hparse
        cases hparse

/-- the commands of the segments lie in the array from `p` on -/
def PlacedSegments (s : State) (p k : Nat) (g : Segment) (gs : List Segment) : Prop :=
  Placed s.parsedCommands p k ((g :: gs).map fun g => (g.index, g.kept))

/-- the words that a call leaves of a segment, and behind it -/
def leftOf (g : Segment) : List Segment → List (List UInt8)
  | [] => g.args.drop (maxArgumentCount - 1)
  | g' :: gs =>
    if g.args.length ≤ maxArgumentCount - 2 then segmentWords g' gs
    else g.args.drop (maxArgumentCount - 1) ++ pipe :: segmentWords g' gs

theorem leftOf_cons (g g' : Segment) (gs : List Segment) :
    leftOf g (g' :: gs) =
      if g.args.length ≤ maxArgumentCount - 2 then segmentWords g' gs
      else g.args.drop (maxArgumentCount - 1) ++ pipe :: segmentWords g' gs := rfl

theorem parseWords_segment (alloc : Nat → Bool) (k : Nat) (g : Segment) (gs : List Segment)
    (h : fromCommand ws = segmentWords g gs) :
    parseWords alloc k ws =
      if allGet alloc k g.kept.length then some (g.index, g.kept, leftOf g gs) else none := by
  have hne : g.name ≠ [] := (g.words g.name List.mem_cons_self).1
  cases gs with
  | nil =>
    have hargs : arguments g.args = (g.kept, leftOf g []) := takeArgs_noPipe _ g.noPipe
    rw [parseWords_cons alloc k h, if_neg hne, g.known, Option.bind_some, hargs]
  | cons g' gs =>
    have hargs : arguments (g.args ++ pipe :: segmentWords g' gs) = (g.kept, leftOf g (g' :: gs)) :=
      takeArgs_segment _ g.noPipe _
    rw [parseWords_cons alloc k h, if_neg hne, g.known, Option.bind_some, hargs]

/-- where at most nine arguments stand in front of it, the next segment is found -/
theorem fromCommand_leftOf (g g' : Segment) (gs : List Segment) (h : g.args.length ≤ maxArgumentCount - 1) :
    fromCommand (leftOf g (g' :: gs)) = segmentWords g' gs := by
  rw [leftOf_cons]
  by_cases hle : g.args.length ≤ maxArgumentCount - 2
  · rw [if_pos hle, fromCommand_segments]
  · rw [if_neg hle, List.drop_eq_nil_of_le h, List.nil_append, fromCommand_pipe, fromCommand_segments]

/-- else an argument is taken as a command, in front of the next segment -/
theorem wordsSize_leftOf (g g' : Segment) (gs : List Segment) (h : ¬g.args.length ≤ maxArgumentCount - 1) :
    wordsSize (segmentWords g' gs) < wordsSize (fromCommand (leftOf g (g' :: gs))) := by
  have hmore : ¬g.args.length ≤ maxArgumentCount - 2 := fun hle => h (Nat.le_succ_of_le hle)
  obtain ⟨w, ws, hdrop⟩ : ∃ w ws, g.args.drop (maxArgumentCount - 1) = w :: ws := by
    refine List.exists_cons_of_ne_nil fun hnil => h ?_
    exact List.drop_eq_nil_iff.mp hnil
  have hw : w ≠ pipe := fun hp =>
    g.noPipe (List.mem_of_mem_drop (hdrop ▸ hp ▸ List.mem_cons_self : pipe ∈ g.args.drop (maxArgumentCount - 1)))
  rw [leftOf_cons, if_neg hmore, hdrop, List.cons_append, fromCommand_word _ hw, wordsSize_cons, wordsSize_append,
    wordsSize_cons]
  omega

theorem segmentWords_size (g g' : Segment) (gs : List Segment) :
    wordsSize (segmentWords g (g' :: gs)) =
      wordsSize (g.name :: g.args) + wordsSize [pipe] + wordsSize (segmentWords g' gs) := by
  show wordsSize (g.name :: (g.args ++ pipe :: segmentWords g' gs)) = _
  have hnil : wordsSize [] = 0 := rfl
  rw [wordsSize_cons, wordsSize_append, wordsSize_cons pipe, wordsSize_cons g.name, wordsSize_cons pipe []]
  omega

/-- the call that takes the name of a segment -/
structure Took (alloc : Nat → Bool) (l : List UInt8) (p start : Nat) (g : Segment) (gs : List Segment)
    (s s₁ : State) : Prop where
  memory : allGet alloc s.allocated g.kept.length = true
  ahead : Ahead s₁.buffer l (leftOf g gs)
  command : s₁.parsedCommands p = parsedOf s.allocated g.index g.kept
  allocated : s₁.allocated = s.allocated + g.kept.length
  inside : CommandInside s s₁
  next : ∀ n, parseCalls alloc (n + 1) p s =
    (parseCalls alloc n (p + 1) s₁).bind fun r => some (start :: r.1, r.2)

theorem segment_step (alloc : Nat → Bool) {start : Nat} (hl : l ≠ []) (hlast : l.getLast? ≠ some (ch ' '))
    (hrun : token (if (decide (p = 0)) then some 0 else none) s = some (tok, s.setTok b)) (hheld : Held b l tok ws)
    (hlen : ws.length ≤ maxBufferSize) (hfrom : fromCommand ws = segmentWords g gs)
    (hstart : start + wordsSize (segmentWords g gs) = l.length + 1) :
    ∃ s₁, (∃ W, s₁.writes = s.writes ++ W) ∧
      (Took alloc l p start g gs s s₁ ∨
        allGet alloc s.allocated g.kept.length = false ∧ ∀ n, parseCalls alloc (n + 1) p s = some ([], s₁)) := by
  obtain ⟨s₁, hcall, hstep⟩ := parseCalls_step alloc hrun hheld hlen hl hlast
  have hwords := parseWords_segment alloc s.allocated g gs hfrom
  refine ⟨s₁, hcall.writes_append, ?_⟩
  rcases hstep with ⟨i, args, rest, q, hyes, hstored, hpos, hnext⟩ | ⟨hno, -, hnext⟩
  · left
    rw [hwords] at hyes
    by_cases hall : allGet alloc s.allocated g.kept.length = true
    · rw [if_pos hall] at hyes
      obtain ⟨rfl, hrest⟩ := Prod.mk.inj (Option.some.inj hyes)
      obtain ⟨rfl, rfl⟩ := Prod.mk.inj hrest
      obtain rfl : q = start := by
        rw [hfrom] at hpos
        omega
      refine ⟨hall, hstored.ahead, ?_, hstored.allocated, ?_, hnext⟩
      · rw [hstored.commands, Function.update_self]
      · obtain ⟨ws', hname⟩ : ∃ ws', segmentWords g gs = g.name :: ws' := by
          cases gs <;> exact ⟨_, rfl⟩
        rw [hcall.commandInside, hfrom, hname]
        exact List.forall_mem_singleton.mpr
          (commandIndex_fits g.known (g.words g.name List.mem_cons_self).2.1)
    · rw [if_neg hall] at hyes
      cases hyes
  · right
    refine ⟨Bool.eq_false_iff.mpr fun hall => ?_, hnext⟩
    rw [hwords, if_pos hall] at hno
    cases hno

theorem Took.behind {start m : Nat} {starts starts' : List Nat} {s'' : State} {W : List Place}
    (h : Took alloc l p start g gs s s₁) (hW : s₁.writes = s.writes ++ W)
    (hcalls : parseCalls alloc (m + 1) p s = some (starts, s''))
    (hbehind : parseCalls alloc m (p + 1) s₁ = some (starts', s')) (hran : Ran l (p + 1) ws s₁ s' starts') :
    s'' = s' ∧ starts = start :: starts' ∧ s'.parsedCommands p = parsedOf s.allocated g.index g.kept ∧
      (CommandInside s s' ↔ CommandInside s₁ s') := by
  rw [h.next, hbehind, Option.bind_some] at hcalls
  obtain ⟨hstarts, rfl⟩ := Prod.mk.inj (Option.some.inj hcalls)
  obtain ⟨W', hW'⟩ := hran.writes
  refine ⟨rfl, hstarts.symm, ?_, ?_⟩
  · rw [hran.before p (Nat.lt_succ_self p), h.command]
  · rw [commandInside_trans hW hW']
    exact and_iff_right h.inside

theorem Took.shorter {start : Nat} (h : Took alloc l p start g gs s s₁) (hfrom : fromCommand ws = segmentWords g gs) :
    (leftOf g gs).length < ws.length :=
  parseWords_length ((parseWords_segment alloc s.allocated g gs hfrom).trans (if_pos h.memory))

theorem segmentStarts_ne_nil (p : Nat) (g : Segment) (gs : List Segment) : segmentStarts p g gs ≠ [] := by
  cases gs <;> exact List.cons_ne_nil _ _

theorem calls_found_iff (alloc : Nat → Bool) (hl : l ≠ []) (hlast : l.getLast? ≠ some (ch ' '))
    (gs : List Segment) : ∀ {g : Segment} {n p q : Nat} {s : State} {tok : Option Nat} {b : Strtok}
    {ws : List (List UInt8)},
    token (if (decide (p = 0)) then some 0 else none) s = some (tok, s.setTok b) → Held b l tok ws →
    ws.length ≤ maxBufferSize → ws.length < n → fromCommand ws = segmentWords g gs →
    q + wordsSize (segmentWords g gs) = l.length + 1 →
    ∃ starts s', parseCalls alloc n p s = some (starts, s') ∧ Ran l p ws s s' starts ∧
      (starts = segmentStarts q g gs ∧ PlacedSegments s' p s.allocated g gs ∧ CommandInside s s' ↔
        Found alloc s.allocated g gs) := by
  induction gs with
  | nil =>
    intro g n p start s tok b ws hrun hheld hlen hn hfrom hstart
    obtain ⟨starts, s', hcalls, hran⟩ := parseCalls_spec alloc n hl hlast hrun hheld hlen hn
    refine ⟨starts, s', hcalls, hran, ?_⟩
    obtain ⟨m, rfl⟩ : ∃ m, n = m + 1 := Nat.exists_eq_succ_of_ne_zero (Nat.ne_of_gt (Nat.zero_lt_of_lt hn))
    obtain ⟨s₁, ⟨W, hW⟩, htook | ⟨hno, hnext⟩⟩ := segment_step alloc hl hlast hrun hheld hlen hfrom hstart
    · have hshort := htook.shorter hfrom
      obtain ⟨tok', b', hrun', hheld'⟩ := token_held htook.ahead
      obtain ⟨starts', s'', hbehind, hran', hiff⟩ := calls_end_iff (p := p + 1) (s := s₁) alloc m hl hlast hrun'
        hheld' (by omega) (by omega) (fun h => g.noPipe (List.mem_of_mem_drop h))
        (fun w hw => (g.words w (List.mem_cons_of_mem _ (List.mem_of_mem_drop hw))).1)
      obtain ⟨rfl, rfl, hcommand, hinside⟩ := htook.behind hW hcalls hbehind hran'
      have hplaced : PlacedSegments s' p s.allocated g [] := ⟨hcommand, trivial⟩
      rw [hinside, and_iff_right hplaced]
      show (start :: starts' = [start] ∧ _) ↔ _ ∧ Ends alloc _ (leftOf g [])
      rw [List.cons_inj_right, hiff, htook.allocated]
      exact (and_iff_right htook.memory).symm
    · obtain ⟨rfl, rfl⟩ := Prod.mk.inj (Option.some.inj ((hnext m).symm.trans hcalls))
      refine iff_of_false (fun h => segmentStarts_ne_nil _ _ _ h.1.symm) fun h => ?_
      exact Bool.false_ne_true (hno.symm.trans h.1)
  | cons g' gs ih =>
    intro g n p start s tok b ws hrun hheld hlen hn hfrom hstart
    obtain ⟨starts, s', hcalls, hran⟩ := parseCalls_spec alloc n hl hlast hrun hheld hlen hn
    refine ⟨starts, s', hcalls, hran, ?_⟩
    obtain ⟨m, rfl⟩ : ∃ m, n = m + 1 := Nat.exists_eq_succ_of_ne_zero (Nat.ne_of_gt (Nat.zero_lt_of_lt hn))
    obtain ⟨s₁, ⟨W, hW⟩, htook | ⟨hno, hnext⟩⟩ := segment_step alloc hl hlast hrun hheld hlen hfrom hstart
    · have hshort := htook.shorter hfrom
      have hsize := segmentWords_size g g' gs
      obtain ⟨tok', b', hrun', hheld'⟩ := token_held htook.ahead
      by_cases hfew : g.args.length ≤ maxArgumentCount - 1
      · obtain ⟨starts', s'', hbehind, hran', hiff⟩ := ih (n := m) (p := p + 1) (s := s₁)
          (q := start + wordsSize (g.name :: g.args) + wordsSize [pipe]) hrun' hheld' (by omega) (by omega)
          (fromCommand_leftOf g g' gs hfew) (by omega)
        obtain ⟨rfl, rfl, hcommand, hinside⟩ := htook.behind hW hcalls hbehind hran'
        rw [htook.allocated] at hiff
        have hplaced : PlacedSegments s' p s.allocated g (g' :: gs) ↔
            PlacedSegments s' (p + 1) (s.allocated + g.kept.length) g' gs := and_iff_right hcommand
        have hfound : Found alloc s.allocated g (g' :: gs) ↔ Found alloc (s.allocated + g.kept.length) g' gs :=
          (and_iff_right htook.memory).trans (and_iff_right hfew)
        rw [hinside, hplaced, hfound, ← hiff]
        show (start :: starts' = start :: _ ∧ _) ↔ _
        rw [List.cons_inj_right]
      · -- the tenth argument lies in front of the next segment
        obtain ⟨starts', s'', hbehind, hran'⟩ := parseCalls_spec alloc m hl hlast (p := p + 1) (s := s₁) hrun'
          hheld' (by omega) (by omega)
        obtain ⟨rfl, rfl, -, -⟩ := htook.behind hW hcalls hbehind hran'
        refine iff_of_false (fun h => ?_) fun h => hfew h.2.1
        have htail : starts' = segmentStarts (start + wordsSize (g.name :: g.args) + wordsSize [pipe]) g' gs :=
          (List.cons.inj h.1).2
        have hhead := hran'.head (start + wordsSize (g.name :: g.args) + wordsSize [pipe]) (by
          rw [htail]
          cases gs <;> exact rfl)
        have hmore := wordsSize_leftOf g g' gs hfew
        omega
    · obtain ⟨rfl, rfl⟩ := Prod.mk.inj (Option.some.inj ((hnext m).symm.trans hcalls))
      refine iff_of_false (fun h => segmentStarts_ne_nil _ _ _ h.1.symm) fun h => ?_
      exact Bool.false_ne_true (hno.symm.trans h.1)

/-! ## a line of segments -/

theorem segmentWords_words (g : Segment) (gs : List Segment) :
    ∀ w ∈ segmentWords g gs, w ≠ [] ∧ 0 ∉ w ∧ ch ' ' ∉ w := by
  induction gs generalizing g with
  | nil => exact g.words
  | cons g' gs ih =>
    have hpipe : pipe ≠ [] ∧ 0 ∉ pipe ∧ ch ' ' ∉ pipe := by decide
    intro w hw
    change w ∈ (g.name :: g.args) ++ pipe :: segmentWords g' gs at hw
    rcases List.mem_append.mp hw with hw | hw
    · exact g.words w hw
    · rcases List.mem_cons.mp hw with rfl | hw
      · exact hpipe
      · exact ih g' w hw

theorem joined_ne_nil (h : ∀ w ∈ ws, w ≠ [] ∧ ch ' ' ∉ w) (hne : ws ≠ []) : joined ws ≠ [] := by
  intro hnil
  have hback := pieces_joined ws h
  rw [hnil] at hback
  exact hne hback.symm

theorem segmentWords_ne_nil (g : Segment) (gs : List Segment) : segmentWords g gs ≠ [] := by
  cases gs <;> exact List.cons_ne_nil _ _

/-- the calls of a line find its segments, each with the arguments there is room for, exactly where every one
of them gets its memory, no segment but the last has more than nine arguments, and the tenth of the last, if it
has one, fits into `command` and gives no command itself -/
theorem segments_parsed_iff (alloc : Nat → Bool) (hs : Reachable s) (g : Segment) (gs : List Segment)
    (hline : (joined (segmentWords g gs)).length < maxBufferSize - 1) :
    ∃ starts s', parseCalls alloc (maxBufferSize + 1) 0 (lineRead (joined (segmentWords g gs)) s) =
        some (starts, s') ∧
      (starts = segmentStarts 0 g gs ∧ PlacedSegments s' 0 0 g gs ∧
          (∀ w ∈ s'.writes, w.arr = .command → w.inside = true) ↔ Found alloc 0 g gs) := by
  have hwords := segmentWords_words g gs
  have hsplit : ∀ w ∈ segmentWords g gs, w ≠ [] ∧ ch ' ' ∉ w := fun w hw => ⟨(hwords w hw).1, (hwords w hw).2.2⟩
  have hl := joined_ne_nil hsplit (segmentWords_ne_nil g gs)
  have hlast := joined_last _ hsplit
  have h0 := joined_noNul _ fun w hw => (hwords w hw).2.1
  have hpieces := pieces_joined _ hsplit
  generalize hjoined : joined (segmentWords g gs) = l at hline hl hlast h0 hpieces ⊢
  obtain ⟨hset, -, post, htext⟩ := readLine_spec (s := s.reset) l rfl hs.ready.length
  rw [List.take_of_length_le (Nat.le_of_lt hline)] at htext
  change Settled s.reset (lineRead l s) [] at hset
  change (lineRead l s).buffer.text = _ at htext
  have hlen : (lineRead l s).buffer.text.length = maxBufferSize := hset.length.trans hs.ready.length
  have htidy : (lineRead l s).Tidy := hset.tidy.mpr (reset_tidy s)
  have hzero : (lineRead l s).allocated = 0 := hset.allocated
  generalize lineRead l s = s₀ at htext hlen htidy hzero ⊢
  obtain ⟨tok, b, htok, hheld⟩ := token_first htext h0 hlen (tidy_iff.mp htidy).2
  have hshort := wordsOf_length (l := l) (by
    rw [htext, List.length_append, List.length_cons] at hlen
    omega)
  have hof : wordsOf l = segmentWords g gs := (if_neg hl).trans hpieces
  rw [hof] at hheld hshort
  obtain ⟨starts, s', hcalls, hran, hiff⟩ := calls_found_iff alloc hl hlast gs (p := 0) (n := maxBufferSize + 1)
    (q := 0) htok hheld hshort (Nat.lt_succ_of_le hshort) (fromCommand_segments g gs) (by
      rw [Nat.zero_add, ← hpieces, pieces_size hl hlast])
  refine ⟨starts, s', hcalls, ?_⟩
  obtain ⟨W, hW⟩ := hran.writes
  have hinside : CommandInside s₀ s' ↔ ∀ w ∈ s'.writes, w.arr = .command → w.inside = true := by
    rw [commandInside_iff hW, hW, List.forall_mem_append]
    exact (and_iff_right fun w hw _ => (tidy_iff.mp htidy).1 w hw).symm
  rw [hzero] at hiff
  rw [← hinside]
  exact hiff

end

/-- `echo ab c` -/
def echoSegment : Segment where
  name := ['e', 'c', 'h', 'o'].map ch
  args := [['a', 'b'].map ch, [ch 'c']]
  index := 3
  known := by decide
  words := by decide
  noPipe := by decide

/-- `wc -l` -/
def wcSegment : Segment where
  name := ['w', 'c'].map ch
  args := [['-', 'l'].map ch]
  index := 16
  known := by decide
  words := by decide
  noPipe := by decide

/-- `echo ab c | wc -l` gives its two commands -/
theorem segments_parsed_echo :
    ∃ starts s', parseCalls (fun _ => true) (maxBufferSize + 1) 0
        (lineRead (joined (segmentWords echoSegment [wcSegment])) (State.start fun _ => ⟨0, 0, fun _ => none, false⟩)) =
          some (starts, s') ∧
      starts = segmentStarts 0 echoSegment [wcSegment] ∧ PlacedSegments s' 0 0 echoSegment [wcSegment] ∧
        ∀ w ∈ s'.writes, w.arr = .command → w.inside = true := by
  obtain ⟨starts, s', hrun, hiff⟩ := segments_parsed_iff (fun _ => true)
    (Reachable.start fun _ => ⟨0, 0, fun _ => none, false⟩) echoSegment [wcSegment] (by decide)
  exact ⟨starts, s', hrun, hiff.mpr ⟨rfl, by decide, rfl, trivial⟩⟩

/-- `ps a a a a a a a a a ps` -/
def tenSegment : Segment where
  name := [ch 'p', ch 's']
  args := List.replicate 9 [ch 'a'] ++ [[ch 'p', ch 's']]
  index := 11
  known := by decide
  words := by decide
  noPipe := by decide

/-- one segment, and two commands -/
theorem tenSegment_twice :
    segmentStarts 0 tenSegment [] = [0] ∧
      (parseCalls (fun _ => true) (maxBufferSize + 1) 0
        (lineRead (joined (segmentWords tenSegment [])) (State.start fun _ => ⟨0, 0, fun _ => none, false⟩))).map
          Prod.fst = some [0, 21] := by
  decide +kernel

end Tp2So.Shell
