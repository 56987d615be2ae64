import Tp2So.Shell.Words

/-!
# The calls of `parse_command`

* `parse_command_spec`    a call does to the state what `parseWords` says, the first and every later one;
* `commandsOf`            the commands of a line, on its words;
* `commandWords`          the words that are copied to `command`, up to the call after which `main` goes on.
-/

set_option linter.unusedVariables false

namespace Tp2So.Shell

open Libc

/-! ## one call -/

/-- what `strcpy` writes to `command` -/
def commandCopy (ws : List (List UInt8)) : List Nat :=
  match fromCommand ws with
  | [] => []
  | w :: _ => List.range (strcpyWrites w)

structure Call (s s' : State) (p : Nat) (ws : List (List UInt8)) : Prop where
  kept : Kept s s'
  writes : ∃ idx : List Nat, (∀ j ∈ idx, j < maxArgumentCount) ∧
    s'.writes = s.writes ++ ((commandCopy ws).map (Place.mk .command) ++ idx.map (Place.mk (.argv p s.dim)))

/-- what the call gives, and the state behind it -/
def Answers (alloc : Nat → Bool) (s s' : State) (l : List UInt8) (p : Nat) (ws : List (List UInt8))
    (r : Option (Bool × State)) : Prop :=
  (∃ i args rest, parseWords alloc s.allocated ws = some (i, args, rest) ∧ r = some (true, s') ∧
    Stored s s' l p i args rest) ∨
  (parseWords alloc s.allocated ws = none ∧ r = some (false, s') ∧ Refused s s' l)

section
variable {alloc : Nat → Bool} {s s' : State} {b : Strtok} {l w : List UInt8} {ws ws' : List (List UInt8)}
  {tok : Option Nat} {k p i : Nat}

theorem parseWords_nil (h : fromCommand ws = []) : parseWords alloc k ws = none := by
  unfold parseWords
  rw [h]

theorem parseWords_cons (alloc : Nat → Bool) (k : Nat) (h : fromCommand ws = w :: ws') :
    parseWords alloc k ws =
      if w = [] then none
      else (commandIndex w).bind fun i =>
        if allGet alloc k (arguments ws').1.length then some (i, arguments ws') else none := by
  unfold parseWords
  rw [h]

theorem commandCopy_cons (h : fromCommand ws = w :: ws') :
    commandCopy ws = List.range (strcpyWrites w) := by
  unfold commandCopy
  rw [h]

/-- the parts of a state that the outcome of a call is told from -/
structure SameStore (s s₁ : State) : Prop where
  kept : Kept s s₁
  commands : s₁.parsedCommands = s.parsedCommands
  allocated : s₁.allocated = s.allocated
  freed : s₁.freed = s.freed

theorem SameStore.stored {s₁ : State} {args rest : List (List UInt8)} (h : SameStore s s₁)
    (hs : Stored s₁ s' l p i args rest) : Stored s s' l p i args rest :=
  ⟨hs.ahead, by rw [hs.commands, h.commands, h.allocated], by rw [hs.allocated, h.allocated],
    by rw [hs.freed, h.freed]⟩

theorem SameStore.refused {s₁ : State} (h : SameStore s s₁) (hs : Refused s₁ s' l) : Refused s s' l := by
  have hfreed := hs.freed
  rw [h.allocated, h.freed] at hfreed
  exact ⟨hs.ahead, hs.commands.trans h.commands, hfreed⟩

theorem SameStore.refused_here {s₁ : State} (h : SameStore s s₁) (hs : Ahead s₁.buffer l ws) :
    Refused s s₁ l :=
  h.refused ⟨⟨ws, hs⟩, rfl, 0, rfl, (List.append_nil _).symm⟩

theorem parse_command_spec (alloc : Nat → Bool) (first : Bool) (p : Nat)
    (hrun : token (if first then some 0 else none) s = some (tok, s.setTok b)) (hheld : Held b l tok ws)
    (hlen : ws.length ≤ maxBufferSize) :
    ∃ s', Call s s' p ws ∧ Answers alloc s s' l p ws (parse_command alloc first p s) := by
  obtain ⟨tok', b', hskip, hheld'⟩ := skipPipes_spec (maxBufferSize + 1) (s := s.setTok b) hheld
    (Nat.lt_succ_of_le hlen)
  unfold parse_command
  rw [hrun, Option.bind_some]
  dsimp only
  rw [hskip, Option.bind_some]
  rcases hheld' with ⟨rfl, hnil, hb⟩ | ⟨q, w, ws', rfl, hcons, hw, h0, hb, -⟩
  · refine ⟨s.setTok b', ⟨⟨rfl, rfl, rfl, rfl⟩, [], by simp, ?_⟩, Or.inr ⟨parseWords_nil hnil, rfl, ?_⟩⟩
    · unfold commandCopy
      rw [hnil]
      exact (List.append_nil _).symm
    · exact SameStore.refused_here ⟨⟨rfl, rfl, rfl, rfl⟩, rfl, rfl, rfl⟩ hb
  · dsimp only
    rw [show stringAt ((s.setTok b).setTok b').buffer q = w from hw]
    unfold Answers
    rw [parseWords_cons alloc _ hcons]
    -- the state in which the word was copied
    generalize hs₁ : ((s.setTok b).setTok b').write .command (List.range (strcpyWrites w)) = s₁
    have hahead : Ahead s₁.buffer l ws' := by
      subst hs₁
      exact hb
    have hwrites : s₁.writes = s.writes ++ (commandCopy ws).map (Place.mk .command) := by
      subst hs₁
      rw [commandCopy_cons hcons]
      rfl
    have hsame : SameStore s s₁ := by
      subst hs₁
      exact ⟨⟨rfl, rfl, rfl, rfl⟩, rfl, rfl, rfl⟩
    have hcall : Call s s₁ p ws := ⟨hsame.kept, [], by simp, by
      rw [List.map_nil, List.append_nil]
      exact hwrites⟩
    by_cases hempty : w = []
    · rw [if_pos hempty, if_pos hempty]
      exact ⟨s₁, hcall, Or.inr ⟨rfl, rfl, hsame.refused_here hahead⟩⟩
    · rw [if_neg hempty, if_neg hempty]
      cases hindex : commandIndex w with
      | none => exact ⟨s₁, hcall, Or.inr ⟨rfl, rfl, hsame.refused_here hahead⟩⟩
      | some i =>
        rcases hargs : arguments ws' with ⟨args, rest⟩
        obtain ⟨s', idx, hkept, hwrites', hidx, hanswer⟩ := parseArguments_spec alloc p i hahead hargs
        have hcall' : Call s s' p ws := by
          refine ⟨hsame.kept.trans hkept, idx, hidx, ?_⟩
          rw [hwrites', hwrites, hsame.kept.dim, List.append_assoc]
        rw [hsame.allocated] at hanswer
        rw [Option.bind_some]
        dsimp only
        rcases hanswer with ⟨hall, hrun', hstored⟩ | ⟨hall, hrun', hno⟩
        · exact ⟨s', hcall', Or.inl ⟨i, args, rest, if_pos hall, hrun', hsame.stored hstored⟩⟩
        · exact ⟨s', hcall', Or.inr ⟨if_neg (Bool.eq_false_iff.mp hall), hrun', hsame.refused hno⟩⟩

end

/-! ## the calls, on the words -/

theorem fromCommand_length (ws : List (List UInt8)) : (fromCommand ws).length ≤ ws.length :=
  (List.dropWhile_suffix _).length_le

theorem parseWords_some {alloc : Nat → Bool} {k i : Nat} {ws args rest : List (List UInt8)}
    (h : parseWords alloc k ws = some (i, args, rest)) :
    ∃ w ws', fromCommand ws = w :: ws' ∧ w ≠ [] ∧ commandIndex w = some i ∧ arguments ws' = (args, rest) ∧
      allGet alloc k args.length = true := by
  cases hfrom : fromCommand ws with
  | nil =>
    rw [parseWords_nil hfrom] at h
    cases h
  | cons w ws' =>
    rw [parseWords_cons alloc k hfrom] at h
    by_cases hempty : w = []
    · rw [if_pos hempty] at h
      cases h
    · rw [if_neg hempty] at h
      cases hindex : commandIndex w with
      | none =>
        rw [hindex] at h
        cases h
      | some i' =>
        rw [hindex, Option.bind_some] at h
        by_cases hall : allGet alloc k (arguments ws').1.length = true
        · rw [if_pos hall] at h
          obtain ⟨rfl, hargs⟩ := Prod.mk.inj (Option.some.inj h)
          rw [hargs] at hall
          exact ⟨w, ws', rfl, hempty, hindex, hargs, hall⟩
        · rw [if_neg hall] at h
          cases h

theorem parseWords_length {alloc : Nat → Bool} {k : Nat} {ws : List (List UInt8)}
    {c : Nat × List (List UInt8) × List (List UInt8)} (h : parseWords alloc k ws = some c) :
    c.2.2.length < ws.length := by
  obtain ⟨i, args, rest⟩ := c
  obtain ⟨w, ws', hfrom, -, -, hargs, -⟩ := parseWords_some h
  have hle := fromCommand_length ws
  have hrest := takeArgs_rest_length (maxArgumentCount - 2) ws'
  rw [hfrom, List.length_cons] at hle
  unfold arguments at hargs
  rw [hargs] at hrest
  show rest.length < ws.length
  have hlen : args.length + rest.length ≤ ws'.length := hrest
  omega

/-- the commands with their arguments, up to the call that fails -/
def commandsOf (alloc : Nat → Bool) (k : Nat) (ws : List (List UInt8)) : List (Nat × List (List UInt8)) :=
  match h : parseWords alloc k ws with
  | none => []
  | some c => (c.1, c.2.1) :: commandsOf alloc (k + c.2.1.length) c.2.2
termination_by ws.length
decreasing_by exact parseWords_length h

/-- the words that are copied to `command`; there is room for `dim` commands, `parsed` of which are in use -/
def commandWords (env : Env) (dim parsed k : Nat) (ws : List (List UInt8)) : List (List UInt8) :=
  (fromCommand ws).head?.toList ++
    match h : parseWords env.alloc k ws with
    | none => []
    | some c =>
      if parsed + 1 < dim then commandWords env dim (parsed + 1) (k + c.2.1.length) c.2.2
      else if env.grow dim then commandWords env (dim + 5) (parsed + 1) (k + c.2.1.length) c.2.2
      else []
termination_by ws.length
decreasing_by all_goals exact parseWords_length h

section
variable {alloc : Nat → Bool} {env : Env} {dim parsed k i : Nat} {ws args rest : List (List UInt8)}

theorem commandsOf_none (h : parseWords alloc k ws = none) : commandsOf alloc k ws = [] := by
  rw [commandsOf]
  split
  · rfl
  · next c hc =>
    rw [h] at hc
    cases hc

theorem commandsOf_some (h : parseWords alloc k ws = some (i, args, rest)) :
    commandsOf alloc k ws = (i, args) :: commandsOf alloc (k + args.length) rest := by
  rw [commandsOf]
  split
  · next hc =>
    rw [h] at hc
    cases hc
  · next c hc =>
    rw [h] at hc
    obtain rfl := Option.some.inj hc
    rfl

theorem commandWords_none (h : parseWords env.alloc k ws = none) :
    commandWords env dim parsed k ws = (fromCommand ws).head?.toList := by
  rw [commandWords]
  split
  · exact List.append_nil _
  · next c hc =>
    rw [h] at hc
    cases hc

theorem commandWords_some (h : parseWords env.alloc k ws = some (i, args, rest)) :
    commandWords env dim parsed k ws = (fromCommand ws).head?.toList ++
      if parsed + 1 < dim then commandWords env dim (parsed + 1) (k + args.length) rest
      else if env.grow dim then commandWords env (dim + 5) (parsed + 1) (k + args.length) rest
      else [] := by
  rw [commandWords]
  split
  · next hc =>
    rw [h] at hc
    cases hc
  · next c hc =>
    rw [h] at hc
    obtain rfl := Option.some.inj hc
    rfl

end

end Tp2So.Shell
