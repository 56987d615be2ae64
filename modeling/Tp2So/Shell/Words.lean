import Tp2So.Shell.Line
import Tp2So.Text.Tokens

/-!
# What `parse_command` makes of the words of a line

`Ahead b l ws` says that `strtok` has the words `ws` of the string `l` ahead, and that the first word of
`l` still begins the array; `Held b l tok ws` that the first of `ws` was fetched as `tok`.

* `takeArgs`               the arguments that are stored, and what is left: the word that ends them is lost;
* `parseWords`             one call, on the words;
* `token_held`, `skipPipes_spec`, `argLoop_spec`   the steps of a call;
* `parse_command_spec`     a call does to the state what `parseWords` says.
-/

set_option linter.unusedVariables false

namespace Tp2So.Shell

open Libc

/-! ## on the words -/

/-- the words of a string; the empty one has an empty word -/
def wordsOf (l : List UInt8) : List (List UInt8) := if l = [] then [[]] else pieces blank l

/-- the words of a line, which ends at its first NUL -/
def lineWords (line : List UInt8) : List (List UInt8) := wordsOf (line.takeWhile (· ≠ 0))

/-- at most `n` arguments are stored; the word that ends the loop is fetched, and lost -/
def takeArgs : Nat → List (List UInt8) → List (List UInt8) × List (List UInt8)
  | _, [] => ([], [])
  | 0, _ :: ws => ([], ws)
  | n + 1, w :: ws => if w = pipe then ([], ws) else (w :: (takeArgs n ws).1, (takeArgs n ws).2)

/-- the arguments of a command, and the words behind them -/
def arguments (ws : List (List UInt8)) : List (List UInt8) × List (List UInt8) :=
  takeArgs (maxArgumentCount - 2) ws

/-- the words from the one on that is taken as a command -/
def fromCommand (ws : List (List UInt8)) : List (List UInt8) := ws.dropWhile (· = pipe)

/-- the `n` strings from the `k`-th on get their memory -/
def allGet (alloc : Nat → Bool) (k n : Nat) : Bool := (List.range n).all fun j => alloc (k + j)

/-- the command, its arguments and the words behind them; `k` arguments were allocated before -/
def parseWords (alloc : Nat → Bool) (k : Nat) (ws : List (List UInt8)) :
    Option (Nat × List (List UInt8) × List (List UInt8)) :=
  match fromCommand ws with
  | [] => none
  | w :: ws =>
    if w = [] then none
    else (commandIndex w).bind fun i =>
      if allGet alloc k (arguments ws).1.length then some (i, arguments ws) else none

/-- the entries of `argv` -/
def argvOf (k : Nat) (args : List (List UInt8)) : Nat → Option Copy
  | 0 => none
  | j + 1 => (args[j]?).map fun w => ⟨k + j, w⟩

def parsedOf (k i : Nat) (args : List (List UInt8)) : ParsedCommand :=
  ⟨i, args.length + 1, argvOf k args, ((commands[i]?).map Command.isBuiltIn).getD false⟩

/-! ## what `strtok` has ahead -/

/-- `r` is what the string `l` has from `p` on -/
def From (l : List UInt8) (p : Nat) (r : List UInt8) : Prop := r <:+ l ∧ p + r.length = l.length

/-- the array held the string `l`, of which the words `ws` are left -/
structure Ahead (b : Strtok) (l : List UInt8) (ws : List (List UInt8)) : Prop where
  rest : ∃ pre r post, Rest b pre r post ∧ From l pre.length r ∧ pieces blank r = ws ∧
    ((firstPiece blank l).1 ++ [0] <+: pre ∨ r = [])
  first : (firstPiece blank l).1 ++ [0] <+: b.text
  length : b.text.length = maxBufferSize
  cuts : ∀ i ∈ b.writes, i < maxBufferSize

/-- `tok` is the first of the words -/
def Held (b : Strtok) (l : List UInt8) (tok : Option Nat) (ws : List (List UInt8)) : Prop :=
  (tok = none ∧ ws = [] ∧ Ahead b l []) ∨
  ∃ p w ws', tok = some p ∧ ws = w :: ws' ∧ stringAt b p = w ∧ 0 ∉ w ∧ Ahead b l ws' ∧
    (l ≠ [] → ∃ r, From l p r ∧ pieces blank r = ws)

section
variable {b : Strtok} {l w : List UInt8} {ws : List (List UInt8)} {s : State} {tok : Option Nat}
  {alloc : Nat → Bool} {p n : Nat} {c : ParsedCommand}

theorem From.cut {t t' : Strtok} {pre r post pre' : List UInt8} (hfrom : From l pre.length r)
    (h : Rest t pre r post) (hcut : t'.text.length = t.text.length)
    (h' : Rest t' (pre ++ pre') (firstPiece blank r).2 post) :
    From l (pre ++ pre').length (firstPiece blank r).2 := by
  refine ⟨(firstPiece_suffix blank r).trans hfrom.1, ?_⟩
  have hlen := hfrom.2
  rw [h'.text, h.text] at hcut
  simp only [List.length_append, List.length_cons] at hcut ⊢
  omega

theorem token_held (h : Ahead s.buffer l ws) :
    ∃ tok b, token none s = some (tok, s.setTok b) ∧ Held b l tok ws := by
  obtain ⟨pre, r, post, hrest, hfrom, hpieces, hpre⟩ := h.rest
  unfold token
  rcases strtok_next blank hrest with ⟨hnil, hrun⟩ | ⟨t', hne, hrun, hcut, htok⟩
  · subst hnil
    obtain rfl : [] = ws := hpieces
    rw [hrun]
    exact ⟨none, s.buffer, rfl, Or.inl ⟨rfl, rfl, h⟩⟩
  · rw [hrun]
    obtain ⟨pre', hrest', -⟩ := hcut.rest
    obtain ⟨cuts, hcuts, hin⟩ := hcut.writes
    have hfirst := hpre.resolve_right hne
    have hwords := pieces_eq blank hne
    have hhere : From l s.buffer.last r := hrest.last ▸ hfrom
    refine ⟨_, t', rfl, Or.inr ⟨_, _, _, rfl, hpieces.symm.trans hwords, htok,
      (firstPiece_noNul _ hrest.noNul).1, ?_, fun _ => ⟨r, hhere, hpieces⟩⟩⟩
    exact
      { rest := ⟨pre ++ pre', _, post, hrest', hfrom.cut hrest hcut.length hrest', rfl,
          Or.inl (hfirst.trans (List.prefix_append _ _))⟩
        first := by
          rw [hrest'.text, List.append_assoc, List.append_assoc]
          exact hfirst.trans (List.prefix_append _ _)
        length := hcut.length.trans h.length
        cuts := fun i hi => by
          rw [hcuts] at hi
          rcases List.mem_append.mp hi with hi | hi
          · exact h.cuts i hi
          · exact h.length ▸ hin i hi }

/-- a string in an array ends at its first NUL -/
theorem takeWhile_split (line post : List UInt8) :
    0 ∉ line.takeWhile (· ≠ 0) ∧ ∃ post', line ++ 0 :: post = line.takeWhile (· ≠ 0) ++ 0 :: post' := by
  induction line with
  | nil => exact ⟨List.not_mem_nil, post, rfl⟩
  | cons c line ih =>
    obtain ⟨h0, post', hpost⟩ := ih
    by_cases hc : c = 0
    · rw [List.takeWhile_cons_of_neg (by simpa using hc), hc]
      exact ⟨List.not_mem_nil, line ++ 0 :: post, rfl⟩
    · rw [List.takeWhile_cons_of_pos (by simpa using hc)]
      refine ⟨mt List.mem_cons.mp (not_or.mpr ⟨fun h => hc h.symm, h0⟩), post', ?_⟩
      rw [List.cons_append, List.cons_append, hpost]

theorem wordsOf_eq (l : List UInt8) :
    wordsOf l = (firstPiece blank l).1 :: pieces blank (firstPiece blank l).2 := by
  unfold wordsOf
  by_cases hnil : l = []
  · rw [if_pos hnil, hnil]
    rfl
  · rw [if_neg hnil, pieces_eq blank hnil]

/-- the first call gives a word also for the empty line -/
theorem token_first {post : List UInt8} (htext : s.buffer.text = l ++ 0 :: post) (h0 : 0 ∉ l)
    (hlen : s.buffer.text.length = maxBufferSize) (hcuts : ∀ i ∈ s.buffer.writes, i < maxBufferSize) :
    ∃ tok b, token (some 0) s = some (tok, s.setTok b) ∧ Held b l tok (wordsOf l) := by
  obtain ⟨t', hrun, hcut, htok⟩ := strtok_start blank htext h0
  obtain ⟨pre', hrest, hfront⟩ := hcut.rest
  obtain ⟨q, hq⟩ := hcut.token
  obtain ⟨cuts, hws, hin⟩ := hcut.writes
  have hstart : Rest { s.buffer with last := 0 } [] l post := ⟨htext, rfl, h0⟩
  have hall : From l 0 l := ⟨List.suffix_refl l, Nat.zero_add _⟩
  unfold token
  rw [hrun]
  refine ⟨_, t', rfl, Or.inr ⟨_, _, _, rfl, wordsOf_eq l, htok, (firstPiece_noNul _ h0).1, ?_,
    fun hne => ⟨l, hall, (if_neg hne).symm⟩⟩⟩
  exact
    { rest := ⟨pre', _, post, hrest, hall.cut hstart hcut.length hrest, rfl, hfront⟩
      first := by
        rw [hq, List.nil_append, ← List.singleton_append (l := q), ← List.append_assoc]
        exact List.prefix_append _ _
      length := hcut.length.trans hlen
      cuts := fun i hi => by
        rw [hws] at hi
        rcases List.mem_append.mp hi with hi | hi
        · exact hcuts i hi
        · exact hlen ▸ hin i hi }

theorem fromCommand_pipe (ws : List (List UInt8)) : fromCommand (pipe :: ws) = fromCommand ws :=
  List.dropWhile_cons_of_pos (decide_eq_true rfl)

theorem fromCommand_word (ws : List (List UInt8)) (hw : w ≠ pipe) : fromCommand (w :: ws) = w :: ws :=
  List.dropWhile_cons_of_neg (by rw [decide_eq_true_iff]; exact hw)

theorem skipPipes_spec (n : Nat) : ∀ {s : State} {tok : Option Nat} {ws : List (List UInt8)},
    Held s.buffer l tok ws → ws.length < n →
      ∃ tok' b, skipPipes n tok s = some (tok', s.setTok b) ∧
        Held b l tok' (fromCommand ws) := by
  have hpipe : 0 ∉ pipe := by decide
  induction n with
  | zero => exact fun _ h => absurd h (Nat.not_lt_zero _)
  | succ n ih =>
    intro s tok ws h hn
    unfold skipPipes
    rcases h with ⟨rfl, rfl, hb⟩ | ⟨p, w, ws', rfl, rfl, hw, h0, hb, hfrom⟩
    · exact ⟨none, s.buffer, rfl, Or.inl ⟨rfl, rfl, hb⟩⟩
    · dsimp only
      rw [hw]
      by_cases hp : w = pipe
      · rw [if_pos ((strcmp_eq_zero h0 hpipe).mpr hp)]
        obtain ⟨tok', b, hrun, hheld⟩ := token_held hb
        obtain ⟨tok'', b', hskip, hheld'⟩ :=
          ih (s := s.setTok b) hheld (Nat.lt_of_succ_lt_succ hn)
        rw [hrun, Option.bind_some, hskip]
        refine ⟨tok'', b', rfl, ?_⟩
        rw [hp, fromCommand_pipe]
        exact hheld'
      · rw [if_neg (mt (strcmp_eq_zero h0 hpipe).mp hp)]
        rw [fromCommand_word ws' hp]
        exact ⟨some p, s.buffer, rfl, Or.inr ⟨p, w, ws', rfl, rfl, hw, h0, hb, hfrom⟩⟩

/-! ## the arguments -/

/-- the command with the arguments stored, the first of which is the `k`-th of the line -/
def stored (k : Nat) : List (List UInt8) → ParsedCommand → ParsedCommand
  | [], c => c
  | w :: ws, c =>
    stored (k + 1) ws { c with argv := Function.update c.argv c.argc (some ⟨k, w⟩), argc := c.argc + 1 }

theorem takeArgs_pipe (n : Nat) (ws : List (List UInt8)) : takeArgs n (pipe :: ws) = ([], ws) := by
  cases n with
  | zero => rfl
  | succ n => exact if_pos rfl

/-- the state behind the loop: `n` more arguments are allocated, and `l` are the entries of `argv` that were
written -/
def State.stepped (s : State) (b : Strtok) (n : Nat) (p : Nat) (l : List Nat) : State :=
  { s.setTok b with
    allocated := s.allocated + n
    writes := s.writes ++ l.map (Place.mk (.argv p s.dim)) }

/-- every argument got its memory -/
def ArgsDone (alloc : Nat → Bool) (l : List UInt8) (p : Nat) (c : ParsedCommand) (s : State)
    (args rest : List (List UInt8)) (r : Option (Bool × ParsedCommand × State)) : Prop :=
  (∀ j < args.length, alloc (s.allocated + j) = true) ∧ ∃ b, Ahead b l rest ∧
    r = some (true, stored s.allocated args c,
      s.stepped b args.length p (List.range' c.argc args.length))

/-- one got none, and the ones before it were freed -/
def ArgsFailed (alloc : Nat → Bool) (l : List UInt8) (p : Nat) (c : ParsedCommand) (s : State)
    (args : List (List UInt8)) (r : Option (Bool × ParsedCommand × State)) : Prop :=
  ∃ j < args.length, alloc (s.allocated + j) = false ∧ ∃ b ws, Ahead b l ws ∧
    r = some (false, stored s.allocated (args.take j) c,
      (s.stepped b j p (List.range' c.argc (j + 1))).free (stored s.allocated (args.take j) c).copies)

theorem stepped_cons (s : State) (b b' : Strtok) (n p i : Nat) (l : List Nat) :
    ((s.write (.argv p s.dim) [i]).allocate.setTok b').stepped b n p l = s.stepped b (n + 1) p (i :: l) := by
  unfold State.stepped State.setTok State.allocate State.write
  simp only [List.map_cons, List.map_nil, List.append_assoc, List.singleton_append, Nat.add_assoc,
    Nat.add_comm 1 n]

section
variable {k i : Nat} {b' : Strtok} {args rest : List (List UInt8)}
  {r : Option (Bool × ParsedCommand × State)}

theorem ArgsDone.cons (halloc : alloc s.allocated = true)
    (h : ArgsDone alloc l p
      { c with argv := Function.update c.argv c.argc (some ⟨s.allocated, w⟩), argc := c.argc + 1 }
      ((s.write (.argv p s.dim) [c.argc]).allocate.setTok b') args rest r) :
    ArgsDone alloc l p c s (w :: args) rest r := by
  obtain ⟨hall, b, hb, hr⟩ := h
  refine ⟨fun j hj => ?_, b, hb, ?_⟩
  · cases j with
    | zero => exact halloc
    | succ j =>
      rw [← Nat.add_assoc, Nat.add_right_comm]
      exact hall j (Nat.lt_of_succ_lt_succ hj)
  · rw [hr, stepped_cons, List.length_cons, List.range'_succ]
    rfl

theorem ArgsFailed.cons (halloc : alloc s.allocated = true)
    (h : ArgsFailed alloc l p
      { c with argv := Function.update c.argv c.argc (some ⟨s.allocated, w⟩), argc := c.argc + 1 }
      ((s.write (.argv p s.dim) [c.argc]).allocate.setTok b') args r) :
    ArgsFailed alloc l p c s (w :: args) r := by
  obtain ⟨j, hj, hall, b, ws, hb, hr⟩ := h
  refine ⟨j + 1, Nat.succ_lt_succ hj, ?_, b, ws, hb, ?_⟩
  · rw [← Nat.add_assoc, Nat.add_right_comm]
    exact hall
  · rw [hr, stepped_cons, List.take_succ_cons]
    rfl

end

theorem argLoop_spec (alloc : Nat → Bool) (p n : Nat) : ∀ {s : State} {tok : Option Nat}
    {ws : List (List UInt8)} {c : ParsedCommand} {args rest : List (List UInt8)},
    Held s.buffer l tok ws → c.argc ≤ maxArgumentCount - 1 → maxArgumentCount - 1 < c.argc + n →
    takeArgs (maxArgumentCount - 1 - c.argc) ws = (args, rest) →
    ArgsDone alloc l p c s args rest (argLoop alloc p n tok c s) ∨
      ArgsFailed alloc l p c s args (argLoop alloc p n tok c s) := by
  induction n with
  | zero => exact fun _ h1 h2 => absurd h2 (by omega)
  | succ n ih =>
    intro s tok ws c args rest hheld h1 h2 htake
    -- the loop ends here
    have hdone : Ahead s.buffer l rest → args = [] →
        ArgsDone alloc l p c s args rest (some (true, c, s)) := by
      rintro hb rfl
      refine ⟨fun j hj => absurd hj (Nat.not_lt_zero j), s.buffer, hb, ?_⟩
      unfold State.stepped
      rw [List.length_nil, Nat.add_zero, List.range'_zero, List.map_nil, List.append_nil]
      rfl
    unfold argLoop
    rcases hheld with ⟨rfl, rfl, hb⟩ | ⟨a, w, ws', rfl, rfl, hw, h0, hb, -⟩
    · unfold takeArgs at htake
      obtain ⟨rfl, rfl⟩ := Prod.mk.inj htake
      exact Or.inl (hdone hb rfl)
    · dsimp only
      rw [hw]
      by_cases hp : w = pipe
      · rw [if_neg (fun h => h.1 ((strcasecmp_pipe h0).mpr hp))]
        rw [hp, takeArgs_pipe] at htake
        obtain ⟨rfl, rfl⟩ := Prod.mk.inj htake
        exact Or.inl (hdone hb rfl)
      · by_cases hfull : c.argc < maxArgumentCount - 1
        · have hmore : maxArgumentCount - 1 - c.argc = maxArgumentCount - 1 - (c.argc + 1) + 1 := by omega
          rw [hmore] at htake
          unfold takeArgs at htake
          rw [if_neg hp] at htake
          obtain ⟨rfl, rfl⟩ := Prod.mk.inj htake
          rw [if_pos ⟨fun h => hp ((strcasecmp_pipe h0).mp h), hfull⟩]
          by_cases halloc : alloc s.allocated = true
          · have hwrite : alloc (s.write (.argv p s.dim) [c.argc]).allocated = true := halloc
            rw [if_pos hwrite]
            obtain ⟨tok, b', hrun, hheld⟩ :=
              token_held (s := (s.write (.argv p s.dim) [c.argc]).allocate) hb
            rw [hrun, Option.bind_some]
            have hnext := ih (s := (s.write (.argv p s.dim) [c.argc]).allocate.setTok b')
              (c := { c with argv := Function.update c.argv c.argc (some ⟨s.allocated, w⟩)
                             argc := c.argc + 1 }) hheld hfull (by show _ < c.argc + 1 + n; omega) rfl
            exact hnext.imp (ArgsDone.cons halloc) (ArgsFailed.cons halloc)
          · have hwrite : ¬alloc (s.write (.argv p s.dim) [c.argc]).allocated = true := halloc
            rw [if_neg hwrite]
            refine Or.inr ⟨0, Nat.succ_pos _, Bool.eq_false_iff.mpr halloc, s.buffer, ws', hb, ?_⟩
            rfl
        · have hzero : maxArgumentCount - 1 - c.argc = 0 := by omega
          rw [hzero] at htake
          obtain ⟨rfl, rfl⟩ := Prod.mk.inj htake
          rw [if_neg (fun h => hfull h.2)]
          exact Or.inl (hdone hb rfl)

/-! ## one call -/

/-- at most `n` arguments are stored, and what is stored or left is among the words -/
theorem takeArgs_spec (n : Nat) (ws : List (List UInt8)) :
    (takeArgs n ws).1.length ≤ n ∧ (∀ w ∈ (takeArgs n ws).1, w ∈ ws) ∧ ∀ w ∈ (takeArgs n ws).2, w ∈ ws := by
  have hnil : ∀ w ∈ ([] : List (List UInt8)), w ∈ ws := fun w hw => absurd hw List.not_mem_nil
  induction n generalizing ws with
  | zero =>
    cases ws with
    | nil => exact ⟨Nat.le_refl 0, hnil, hnil⟩
    | cons w ws => exact ⟨Nat.le_refl 0, hnil, fun a ha => List.mem_cons_of_mem w ha⟩
  | succ n ih =>
    cases ws with
    | nil => exact ⟨Nat.zero_le _, hnil, hnil⟩
    | cons w ws =>
      obtain ⟨hlen, hin, hin'⟩ := ih ws fun a ha => absurd ha List.not_mem_nil
      unfold takeArgs
      by_cases hw : w = pipe
      · rw [if_pos hw]
        exact ⟨Nat.zero_le _, hnil, fun a ha => List.mem_cons_of_mem w ha⟩
      · rw [if_neg hw]
        refine ⟨Nat.succ_le_succ hlen, fun a ha => ?_, fun a ha => List.mem_cons_of_mem w (hin' a ha)⟩
        exact List.mem_cons.mpr ((List.mem_cons.mp ha).imp_right (hin a))

theorem takeArgs_rest_length (n : Nat) (ws : List (List UInt8)) :
    (takeArgs n ws).1.length + (takeArgs n ws).2.length ≤ ws.length := by
  induction n generalizing ws with
  | zero =>
    cases ws with
    | nil => exact Nat.le_refl 0
    | cons w ws =>
      unfold takeArgs
      dsimp only
      rw [List.length_nil, List.length_cons]
      omega
  | succ n ih =>
    cases ws with
    | nil => exact Nat.le_refl 0
    | cons w ws =>
      have hlen := ih ws
      unfold takeArgs
      by_cases hw : w = pipe
      · rw [if_pos hw]
        dsimp only
        rw [List.length_nil, List.length_cons]
        omega
      · rw [if_neg hw]
        dsimp only
        rw [List.length_cons, List.length_cons]
        omega

section
variable {k i : Nat} {args : List (List UInt8)}

theorem argvOf_succ (k : Nat) (args : List (List UInt8)) (j : Nat) :
    argvOf k args (j + 1) = (args[j]?).map fun w => ⟨k + j, w⟩ := rfl

theorem argvOf_snoc (k : Nat) (args : List (List UInt8)) (w : List UInt8) :
    Function.update (argvOf k args) (args.length + 1) (some ⟨k + args.length, w⟩) = argvOf k (args ++ [w]) := by
  funext j
  cases j with
  | zero => rfl
  | succ j =>
    by_cases hj : j = args.length
    · rw [hj, Function.update_self, argvOf_succ, List.getElem?_concat_length]
      rfl
    · rw [Function.update_of_ne (fun h => hj (Nat.succ.inj h)), argvOf_succ, argvOf_succ]
      by_cases hlt : j < args.length
      · rw [List.getElem?_append_left hlt]
      · rw [List.getElem?_eq_none (Nat.le_of_not_lt hlt), List.getElem?_eq_none]
        rw [List.length_append, List.length_singleton]
        omega

theorem stored_append (k i : Nat) (args ws : List (List UInt8)) :
    stored (k + args.length) ws ⟨i, args.length + 1, argvOf k args, false⟩ =
      ⟨i, (args ++ ws).length + 1, argvOf k (args ++ ws), false⟩ := by
  induction ws generalizing args with
  | nil => rw [List.append_nil]; rfl
  | cons w ws ih =>
    have hstep := ih (args ++ [w])
    rw [List.length_append, List.length_singleton, List.append_assoc, List.singleton_append] at hstep
    unfold stored
    rw [argvOf_snoc]
    exact hstep

theorem stored_eq (k i : Nat) (args : List (List UInt8)) :
    stored k args ⟨i, 1, fun _ => none, false⟩ = ⟨i, args.length + 1, argvOf k args, false⟩ := by
  have hnil : argvOf k [] = fun _ => none := by
    funext j
    cases j <;> rfl
  have happend := stored_append k i [] args
  rw [hnil] at happend
  exact happend

theorem argvOf_copies (k i : Nat) (args : List (List UInt8)) (b : Bool) :
    ParsedCommand.copies ⟨i, args.length + 1, argvOf k args, b⟩ = List.range' k args.length := by
  have hindices : argIndices (args.length + 1) = (List.range args.length).map Nat.succ := by
    unfold argIndices
    rw [List.range_succ_eq_map, List.drop_one, List.tail_cons]
  have hid : ∀ j ∈ List.range args.length,
      ((argvOf k args (Nat.succ j)).map Copy.id) = some (k + j) := by
    intro j hj
    rw [Nat.succ_eq_add_one, argvOf_succ, List.getElem?_eq_getElem (List.mem_range.mp hj)]
    rfl
  unfold ParsedCommand.copies
  rw [hindices, List.filterMap_map, List.range'_eq_map_range, ← List.filterMap_eq_map]
  exact List.filterMap_congr hid

end

/-- the fields that no part of the parsing changes -/
structure Kept (s s' : State) : Prop where
  bufferDim : s'.bufferDim = s.bufferDim
  historyBuffer : s'.historyBuffer = s.historyBuffer
  historyLast : s'.historyLast = s.historyLast
  dim : s'.dim = s.dim

theorem Kept.trans {s₀ s₁ s₂ : State} (h : Kept s₀ s₁) (h' : Kept s₁ s₂) : Kept s₀ s₂ :=
  ⟨h'.bufferDim.trans h.bufferDim, h'.historyBuffer.trans h.historyBuffer,
    h'.historyLast.trans h.historyLast, h'.dim.trans h.dim⟩

/-- a command was stored at `p` -/
structure Stored (s s' : State) (l : List UInt8) (p i : Nat) (args rest : List (List UInt8)) : Prop where
  ahead : Ahead s'.buffer l rest
  commands : s'.parsedCommands = Function.update s.parsedCommands p (parsedOf s.allocated i args)
  allocated : s'.allocated = s.allocated + args.length
  freed : s'.freed = s.freed

/-- none was, and the arguments that were allocated are free again -/
structure Refused (s s' : State) (l : List UInt8) : Prop where
  ahead : ∃ ws, Ahead s'.buffer l ws
  commands : s'.parsedCommands = s.parsedCommands
  freed : ∃ m, s'.allocated = s.allocated + m ∧ s'.freed = s.freed ++ List.range' s.allocated m

theorem allGet_iff {alloc : Nat → Bool} {k n : Nat} :
    allGet alloc k n = true ↔ ∀ j < n, alloc (k + j) = true := by
  unfold allGet
  rw [List.all_eq_true]
  exact forall_congr' fun j => imp_congr_left List.mem_range

theorem parseArguments_spec (alloc : Nat → Bool) (p i : Nat) {args rest : List (List UInt8)}
    (h : Ahead s.buffer l ws) (ha : arguments ws = (args, rest)) :
    ∃ (s' : State) (idx : List Nat), Kept s s' ∧ s'.writes = s.writes ++ idx.map (Place.mk (.argv p s.dim)) ∧
      (∀ j ∈ idx, j < maxArgumentCount) ∧
      (allGet alloc s.allocated args.length = true ∧ parseArguments alloc p i s = some (true, s') ∧
          Stored s s' l p i args rest ∨
        allGet alloc s.allocated args.length = false ∧ parseArguments alloc p i s = some (false, s') ∧
          Refused s s' l) := by
  obtain ⟨tok, b, hrun, hheld⟩ := token_held h
  have hcount : args.length ≤ 8 := by
    have hle := (takeArgs_spec (maxArgumentCount - 2) ws).1
    unfold arguments at ha
    rw [ha] at hle
    exact hle
  have hloop := argLoop_spec alloc p maxArgumentCount (c := ⟨i, 1, fun _ => none, false⟩)
    (s := (s.setTok b).write (.argv p (s.setTok b).dim) [0]) hheld
    (by show 1 ≤ 9; decide) (by show 9 < 1 + 10; decide) ha
  unfold parseArguments
  rw [hrun, Option.bind_some]
  dsimp only
  rcases hloop with ⟨hall, b', hb', hloop⟩ | ⟨j, hj, hfail, b', ws', hb', hloop⟩
  · rw [stored_eq] at hloop
    rw [hloop, Option.bind_some, if_pos rfl]
    refine ⟨_, 0 :: (List.range' 1 args.length ++ [args.length + 1]), ?_, ?_, ?_, Or.inl ⟨?_, rfl, ?_⟩⟩
    · exact ⟨rfl, rfl, rfl, rfl⟩
    · show ((s.writes ++ _) ++ _) ++ _ = _
      simp only [List.append_assoc, List.map_cons, List.map_append, List.map_nil]
      rfl
    · intro j hj
      show j < 10
      rw [List.mem_cons, List.mem_append, List.mem_range'_1, List.mem_singleton] at hj
      omega
    · exact allGet_iff.mpr hall
    · refine ⟨hb', ?_, rfl, rfl⟩
      show Function.update s.parsedCommands p _ = _
      congr 1
      unfold parsedOf
      congr 1
      funext j
      by_cases hj : j = args.length + 1
      · rw [hj, argvOf_succ, List.getElem?_eq_none (Nat.le_refl _)]
        exact Function.update_self _ _ _
      · exact Function.update_of_ne hj _ _
  · rw [stored_eq] at hloop
    rw [hloop, Option.bind_some, if_neg Bool.false_ne_true]
    refine ⟨_, 0 :: List.range' 1 (j + 1), ?_, ?_, ?_, Or.inr ⟨?_, rfl, ?_⟩⟩
    · exact ⟨rfl, rfl, rfl, rfl⟩
    · show ((s.writes ++ _) ++ _) = _
      rw [List.append_assoc, List.map_cons]
      rfl
    · intro m hm
      show m < 10
      rw [List.mem_cons, List.mem_range'_1] at hm
      omega
    · exact Bool.eq_false_iff.mpr fun hall => Bool.false_ne_true (hfail.symm.trans (allGet_iff.mp hall j hj))
    · refine ⟨⟨ws', hb'⟩, rfl, j, rfl, ?_⟩
      show s.freed ++ _ = _
      rw [argvOf_copies, List.length_take, Nat.min_eq_left (Nat.le_of_lt hj)]
      rfl

end

end Tp2So.Shell
