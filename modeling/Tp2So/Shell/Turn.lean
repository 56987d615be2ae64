import Tp2So.Shell.Loop

/-!
# What surrounds the calls

`Settled s s' ids` says that the strings `ids` were freed from `s` to `s'`, and that nothing was written
outside its array.

* `readLoop_spec`             the line is read;
* `invalidCommand_spec`, `remember_settled`, `takeBackground_settled`    what `main` does with the commands;
* `releaseAll_settled`        the release.
-/

set_option linter.unusedVariables false

namespace Tp2So.Shell

open Libc

/-- nothing was written outside its array -/
def State.Tidy (s : State) : Prop := ∀ w ∈ s.allWrites, w.inside = true

structure Settled (s s' : State) (ids : List Nat) : Prop where
  length : s'.buffer.text.length = s.buffer.text.length
  dim : s'.dim = s.dim
  allocated : s'.allocated = s.allocated
  freed : s'.freed = s.freed ++ ids
  history : s.historyLast < historySize → s'.historyLast < historySize
  tidy : s'.Tidy ↔ s.Tidy

section
variable {s s' s'' : State} {b : Strtok} {l : List UInt8} {p n : Nat} {ids ids' : List Nat}

theorem Settled.refl (s : State) : Settled s s [] := ⟨rfl, rfl, rfl, (List.append_nil _).symm, id, Iff.rfl⟩

theorem Settled.trans (h : Settled s s' ids) (h' : Settled s' s'' ids') : Settled s s'' (ids ++ ids') :=
  ⟨h'.length.trans h.length, h'.dim.trans h.dim, h'.allocated.trans h.allocated,
    by rw [h'.freed, h.freed, List.append_assoc], fun hs => h'.history (h.history hs),
    h'.tidy.trans h.tidy⟩

theorem tidy_iff :
    s.Tidy ↔ (∀ w ∈ s.writes, w.inside = true) ∧ ∀ i ∈ s.buffer.writes, i < maxBufferSize := by
  have hcut : (∀ w ∈ s.buffer.writes.map (Place.mk .buffer), w.inside = true) ↔
      ∀ i ∈ s.buffer.writes, i < maxBufferSize := by
    rw [List.forall_mem_map]
    exact forall₂_congr fun i _ => decide_eq_true_iff
  unfold State.Tidy State.allWrites
  rw [List.forall_mem_append, hcut]

theorem tidy_write {arr : Arr} {l : List Nat} (h : ∀ i ∈ l, (Place.mk arr i).inside = true) :
    (s.write arr l).Tidy ↔ s.Tidy := by
  rw [tidy_iff, tidy_iff]
  refine and_congr_left fun _ => ?_
  show (∀ w ∈ s.writes ++ _, _) ↔ _
  rw [List.forall_mem_append, List.forall_mem_map]
  exact and_iff_left h

theorem write_settled {arr : Arr} {l : List Nat} (h : ∀ i ∈ l, (Place.mk arr i).inside = true) :
    Settled s (s.write arr l) [] :=
  ⟨rfl, rfl, rfl, (List.append_nil _).symm, id, tidy_write h⟩

theorem setBuffer_settled {i : Nat} (c : UInt8) (h : i < maxBufferSize) : Settled s (s.setBuffer i c) [] := by
  refine ⟨List.length_set .., rfl, rfl, (List.append_nil _).symm, id, ?_⟩
  have hin : ∀ j ∈ [i], (Place.mk .buffer j).inside = true := by
    intro j hj
    obtain rfl := List.mem_singleton.mp hj
    exact decide_eq_true h
  unfold State.setBuffer
  rw [tidy_write hin]
  exact tidy_iff.trans tidy_iff.symm

/-! ## the line is read -/

theorem readLoop_cons (c : UInt8) (cs : List UInt8) (h : s.bufferDim < maxBufferSize - 1) :
    readLoop (c :: cs) s =
      readLoop cs { (({ s with historyBuffer := s.historyBuffer.set s.bufferDim c }.write .historyBuffer
          [s.bufferDim]).setBuffer s.bufferDim c) with bufferDim := s.bufferDim + 1 } := by
  unfold readLoop
  rw [if_pos h]
  cases cs <;> rfl

theorem readLoop_spec (line : List UInt8) : ∀ {s : State} (front tail : List UInt8),
    s.buffer.text = front ++ tail → s.bufferDim = front.length → s.bufferDim ≤ maxBufferSize - 1 →
    s.buffer.text.length = maxBufferSize →
    ∃ tail', (readLoop line s).buffer.text = front ++ line.take (maxBufferSize - 1 - front.length) ++ tail' ∧
      (readLoop line s).bufferDim = (front ++ line.take (maxBufferSize - 1 - front.length)).length ∧
      Settled s (readLoop line s) [] := by
  induction line with
  | nil =>
    intro s front tail htext hdim hle hlen
    rw [List.take_nil, List.append_nil]
    exact ⟨tail, htext, hdim, Settled.refl s⟩
  | cons c cs ih =>
    intro s front tail htext hdim hle hlen
    by_cases hroom : s.bufferDim < maxBufferSize - 1
    · have hmore : maxBufferSize - 1 - front.length = maxBufferSize - 1 - (front ++ [c]).length + 1 := by
        rw [List.length_append, List.length_singleton]
        omega
      have hlast : s.bufferDim < maxBufferSize := Nat.lt_of_lt_pred hroom
      obtain ⟨d, tail, rfl⟩ : ∃ d tail', tail = d :: tail' := by
        refine List.exists_cons_of_ne_nil fun hnil => ?_
        rw [htext, hnil, List.append_nil, ← hdim] at hlen
        omega
      rw [readLoop_cons c cs hroom]
      generalize hs₁ : ({ (({ s with historyBuffer := s.historyBuffer.set s.bufferDim c }.write .historyBuffer
          [s.bufferDim]).setBuffer s.bufferDim c) with bufferDim := s.bufferDim + 1 } : State) = s₁
      have hset : Settled s s₁ [] := by
        have hin : ∀ i ∈ [s.bufferDim], (Place.mk .historyBuffer i).inside = true := by
          intro i hi
          obtain rfl := List.mem_singleton.mp hi
          exact decide_eq_true hlast
        subst hs₁
        have h1 := write_settled (s := { s with historyBuffer := s.historyBuffer.set s.bufferDim c }) hin
        have h2 := h1.trans (setBuffer_settled c hlast)
        exact ⟨h2.length, h2.dim, h2.allocated, h2.freed, h2.history, h2.tidy⟩
      have htext₁ : s₁.buffer.text = (front ++ [c]) ++ tail := by
        subst hs₁
        show s.buffer.text.set s.bufferDim c = _
        rw [htext, hdim, List.set_append_right _ _ (Nat.le_refl _), Nat.sub_self, List.set_cons_zero,
          List.append_assoc, List.singleton_append]
      have hdim₁ : s₁.bufferDim = (front ++ [c]).length := by
        subst hs₁
        rw [List.length_append, List.length_singleton, ← hdim]
      have hle₁ : s₁.bufferDim ≤ maxBufferSize - 1 := by
        rw [hdim₁, List.length_append, List.length_singleton]
        omega
      obtain ⟨tail', h1, h2, h3⟩ := ih (front ++ [c]) tail htext₁ hdim₁ hle₁ (hset.length.trans hlen)
      rw [hmore, List.take_succ_cons, List.append_cons front c]
      exact ⟨tail', h1, h2, hset.trans h3⟩
    · have hfull : maxBufferSize - 1 - front.length = 0 := by omega
      unfold readLoop
      rw [if_neg hroom, hfull, List.take_zero, List.append_nil]
      exact ⟨tail, htext, hdim, Settled.refl s⟩

/-! ## a command that was not found -/

/-- the first word is still there; it is copied once more -/
theorem invalidCommand_spec {ws : List (List UInt8)} (h : Ahead s.buffer l ws) (h0 : 0 ∉ l)
    (hfit : s.Tidy → (firstPiece blank l).1.length < maxArgumentSize) :
    ∃ s', invalidCommand s = some s' ∧ Settled s s' [] := by
  obtain ⟨q, hq⟩ := h.first
  have htext : s.buffer.text = (firstPiece blank l).1 ++ 0 :: q := by
    rw [← hq, List.append_assoc, List.singleton_append]
  obtain ⟨t', hrun, hcut, htok⟩ := strtok_start blank htext (firstPiece_noNul blank h0).1
  obtain ⟨cuts, hws, hin⟩ := hcut.writes
  rw [firstPiece_self] at htok
  unfold invalidCommand token
  rw [hrun]
  refine ⟨_, rfl, hcut.length, rfl, rfl, (List.append_nil _).symm, id, ?_⟩
  dsimp only
  rw [show stringAt (s.setTok t').buffer 0 = (firstPiece blank l).1 from htok]
  have hcuts : (s.setTok t').Tidy ↔ s.Tidy := by
    rw [tidy_iff, tidy_iff]
    refine and_congr_right fun _ => ?_
    show (∀ i ∈ t'.writes, _) ↔ _
    rw [hws, List.forall_mem_append]
    exact and_iff_left fun i hi => h.length ▸ hin i hi
  by_cases htidy : s.Tidy
  · rw [tidy_write]
    · exact hcuts
    · intro i hi
      exact decide_eq_true (Nat.lt_of_le_of_lt (Nat.le_of_lt_succ (List.mem_range.mp hi)) (hfit htidy))
  · refine iff_of_false (fun ht => htidy (hcuts.mp ?_)) htidy
    exact fun w hw => ht w (List.mem_append.mpr ((List.mem_append.mp hw).imp_left
      (List.mem_append_left _)))

/-! ## the history, and the ampersand -/

theorem remember_settled (h : s.historyLast < historySize) (hdim : s.bufferDim < maxBufferSize) :
    Settled s (remember s) [] := by
  have hin : ∀ i < maxBufferSize, (Place.mk (.history s.historyLast) i).inside = true := by
    intro i hi
    show decide (i < if s.historyLast < historySize then maxBufferSize else 0) = true
    rw [if_pos h]
    exact decide_eq_true hi
  have h1 : ∀ i ∈ List.range (strncpyWrites s.historyBuffer 255),
      (Place.mk (.history s.historyLast) i).inside = true := by
    intro i hi
    have hlt := List.mem_range.mp hi
    unfold strncpyWrites at hlt
    exact hin i (Nat.lt_of_lt_of_le hlt (by show _ ≤ 1024; omega))
  have h2 : ∀ i ∈ [s.bufferDim], (Place.mk (.history s.historyLast) i).inside = true := by
    intro i hi
    obtain rfl := List.mem_singleton.mp hi
    exact hin _ hdim
  have hset := (write_settled (s := s) h1).trans (write_settled h2)
  exact ⟨hset.length, hset.dim, hset.allocated, hset.freed,
    fun _ => Nat.mod_lt _ (by decide), hset.tidy⟩

theorem takeBackground_settled (hp : p < s.dim) (hargc : (s.parsedCommands p).argc ≤ maxArgumentCount) :
    Settled s (takeBackground p s) [] := by
  have hin : ∀ i ∈ [(s.parsedCommands p).argc - 1], (Place.mk (.argv p s.dim) i).inside = true := by
    intro i hi
    obtain rfl := List.mem_singleton.mp hi
    exact inside_argv hp (Nat.lt_of_le_of_lt (Nat.sub_le_sub_right hargc 1) (by decide))
  unfold takeBackground
  dsimp only
  by_cases hwants : (s.parsedCommands p).wantsBackground = true
  · rw [if_pos hwants]
    have hset := write_settled (s := s) hin
    exact ⟨hset.length, hset.dim, hset.allocated, hset.freed, hset.history, hset.tidy⟩
  · rw [if_neg hwants]
    exact Settled.refl s

/-! ## the release -/

theorem releaseArgs_spec (p : Nat) (l : List Nat) : ∀ {s : State}, l.Nodup → p < s.dim →
    (∀ i ∈ l, i < maxArgumentCount) →
    Settled s (releaseArgs p l s) (l.filterMap fun i => ((s.parsedCommands p).argv i).map Copy.id) ∧
      ∀ q ≠ p, (releaseArgs p l s).parsedCommands q = s.parsedCommands q := by
  induction l with
  | nil => exact fun _ _ _ => ⟨Settled.refl _, fun _ _ => rfl⟩
  | cons i l ih =>
    intro s hnodup hp hl
    obtain ⟨hi, hnodup⟩ := List.nodup_cons.mp hnodup
    obtain ⟨hlt, hl⟩ := List.forall_mem_cons.mp hl
    cases hcopy : (s.parsedCommands p).argv i with
    | none =>
      have hrun : releaseArgs p (i :: l) s = releaseArgs p l s := by
        simp only [releaseArgs, hcopy]
      rw [hrun, List.filterMap_cons_none (by rw [hcopy]; rfl)]
      exact ih hnodup hp hl
    | some copy =>
      obtain ⟨s₁, hs₁⟩ : ∃ s₁, s₁ = ((s.free [copy.id]).setCommand p
        { s.parsedCommands p with argv := Function.update (s.parsedCommands p).argv i none }).write
          (.argv p s.dim) [i] := ⟨_, rfl⟩
      have hrun : releaseArgs p (i :: l) s = releaseArgs p l s₁ := by
        rw [hs₁]
        simp only [releaseArgs, hcopy]
        rfl
      have hset : Settled s s₁ [copy.id] := by
        have hin : ∀ j ∈ [i], (Place.mk (.argv p s.dim) j).inside = true := by
          intro j hj
          obtain rfl := List.mem_singleton.mp hj
          exact inside_argv hp hlt
        have hwrite := write_settled (s := s) hin
        subst hs₁
        exact ⟨rfl, rfl, rfl, rfl, id, hwrite.tidy⟩
      have hargv : ∀ j ∈ l, ((s₁.parsedCommands p).argv j).map Copy.id =
          ((s.parsedCommands p).argv j).map Copy.id := by
        intro j hj
        have hne : j ≠ i := fun h => hi (h ▸ hj)
        subst hs₁
        show ((Function.update s.parsedCommands p _ p).argv j).map Copy.id = _
        rw [Function.update_self]
        exact congrArg (Option.map Copy.id) (Function.update_of_ne hne _ _)
      have hothers : ∀ q ≠ p, s₁.parsedCommands q = s.parsedCommands q := by
        intro q hq
        subst hs₁
        exact Function.update_of_ne hq _ _
      obtain ⟨h1, h2⟩ := ih hnodup (hset.dim.symm ▸ hp) hl
      rw [List.filterMap_congr hargv] at h1
      rw [hrun, List.filterMap_cons_some (b := copy.id) (by rw [hcopy]; rfl)]
      exact ⟨hset.trans h1, fun q hq => (h2 q hq).trans (hothers q hq)⟩

theorem argIndices_nodup (argc : Nat) : (argIndices argc).Nodup :=
  List.nodup_range.sublist (List.drop_sublist _ _)

theorem argIndices_lt {argc i : Nat} (h : i ∈ argIndices argc) : i < argc :=
  List.mem_range.mp (List.mem_of_mem_drop h)

theorem release_spec (hp : p < s.dim) (hargc : (s.parsedCommands p).argc ≤ maxArgumentCount) :
    Settled s (release s p) (s.parsedCommands p).copies ∧
      ∀ q ≠ p, (release s p).parsedCommands q = s.parsedCommands q := by
  obtain ⟨h1, h2⟩ := releaseArgs_spec p (argIndices (s.parsedCommands p).argc) (argIndices_nodup _) hp
    fun i hi => Nat.lt_of_lt_of_le (argIndices_lt hi) hargc
  unfold release
  generalize releaseArgs p (argIndices (s.parsedCommands p).argc) s = s₁ at h1 h2 ⊢
  have hin : ∀ i ∈ [1], (Place.mk (.argv p s₁.dim) i).inside = true := by
    intro i hi
    obtain rfl := List.mem_singleton.mp hi
    exact inside_argv (h1.dim.symm ▸ hp) (by decide)
  have hwrite := h1.trans (write_settled hin)
  rw [List.append_nil] at hwrite
  refine ⟨⟨hwrite.length, hwrite.dim, hwrite.allocated, hwrite.freed, hwrite.history, hwrite.tidy⟩, ?_⟩
  intro q hq
  exact (Function.update_of_ne hq _ _).trans (h2 q hq)

/-- the copies that the first `n` commands hold -/
def State.held (s : State) (n : Nat) : List Nat := (List.range n).flatMap fun p => (s.parsedCommands p).copies

theorem releaseAll_spec (n : Nat) (hn : n ≤ s.dim)
    (hargc : ∀ p < n, (s.parsedCommands p).argc ≤ maxArgumentCount) :
    Settled s (releaseAll n s) (s.held n) ∧
      ∀ q, n ≤ q → (releaseAll n s).parsedCommands q = s.parsedCommands q := by
  induction n with
  | zero => exact ⟨Settled.refl s, fun _ _ => rfl⟩
  | succ n ih =>
    obtain ⟨h1, h2⟩ := ih (Nat.le_of_succ_le hn) fun p hp => hargc p (Nat.lt_succ_of_lt hp)
    have hsame := h2 n (Nat.le_refl n)
    obtain ⟨h3, h4⟩ := release_spec (s := releaseAll n s) (p := n) (h1.dim.symm ▸ hn)
      (hsame.symm ▸ hargc n (Nat.lt_succ_self n))
    have hstep : releaseAll (n + 1) s = release (releaseAll n s) n := by
      unfold releaseAll
      rw [List.range_succ, List.foldl_concat]
    have hheld : s.held (n + 1) = s.held n ++ (s.parsedCommands n).copies := by
      unfold State.held
      rw [List.range_succ, List.flatMap_append, List.flatMap_singleton]
    rw [hstep, hheld]
    rw [hsame] at h3
    refine ⟨h1.trans h3, fun q hq => ?_⟩
    rw [h4 q (Nat.ne_of_gt hq), h2 q (Nat.le_of_succ_le hq)]

end

end Tp2So.Shell
