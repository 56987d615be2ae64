import Tp2So.Kernel.Keyboard
import Tp2So.Lib.Ring
import Tp2So.Lib.Runs
import Mathlib.Data.List.Infix

/-!
# The characters that wait to be read

The keyboard's ring is a queue, to which a key adds, from the end of which backspace takes, and which a
reader takes from: what was done to it, replayed on a list, gives the characters between its indices.  The
test for a full ring sees it only with `to_read` at 0.

* `replay`, `unread`     the queue, and the ring's view of it;
* `Fifo`                 the two agree, and the ring knows when it is full;
* `Kept`                 the invariant: a ring that has been read from has a second free cell;
* `Kept.add`, `Kept.erase`, `Kept.read`, `Kept.reset`   steps;
* `not_fifo_add`         a character into the last but one cell of a ring that has been read from;
* `keyboard_fifo_iff`    runs.
-/

set_option linter.unusedVariables false

namespace Tp2So

/-! ## the queue -/

/-- an edit of the queue; `none` for one it does not allow -/
def Edit.apply : Edit → List UInt8 → Option (List UInt8)
  | .add c, l => some (l ++ [c])
  | .erase, l => if l = [] then none else some l.dropLast
  | .read c, l => if l.head? = some c then some l.tail else none
  | .reset, l => some []

def replay (es : List Edit) : Option (List UInt8) := es.foldlM (fun l e => e.apply l) []

theorem replay_concat (es : List Edit) (e : Edit) : replay (es ++ [e]) = (replay es).bind e.apply := by
  unfold replay
  rw [List.foldlM_append]
  cases es.foldlM (fun l e => Edit.apply e l) [] with
  | none => rfl
  | some l => exact bind_pure (e.apply l)

namespace KeyRing

/-- the characters between the indices -/
def unread (r : KeyRing) : List UInt8 := ringList bufferSize r.buffer r.toRead r.toWrite

/-- the ring is the queue of what was done to it, is full when it says so, and does not look empty after a
character was added -/
def Fifo (r : KeyRing) : Prop :=
  replay r.edits = some r.unread ∧ (r.isFull = true ↔ r.unread.length = bufferSize - 1) ∧
    ∀ c, r.edits.getLast? = some (.add c) → r.toWrite ≠ r.toRead

/-- there is room for one more character, and the ring will know when it is full -/
def HasRoom (r : KeyRing) : Prop := r.toRead = 0 ∨ r.unread.length ≤ 1021

structure Kept (r : KeyRing) : Prop where
  write_lt : r.toWrite < bufferSize
  read_lt : r.toRead < bufferSize
  replayed : replay r.edits = some r.unread
  spare : r.toRead ≠ 0 → r.unread.length ≤ 1022

section
variable {r : KeyRing}

theorem unread_length (r : KeyRing) : r.unread.length = ringCount bufferSize r.toRead r.toWrite :=
  ringList_length r.buffer

/-- the remainder of `int` is negative when the indices have wrapped -/
theorem isFull_iff (hw : r.toWrite < bufferSize) (hr : r.toRead < bufferSize) :
    r.isFull = true ↔ r.toRead = 0 ∧ r.toWrite = 1023 := by
  have hsize : bufferSize = 1024 := rfl
  unfold isFull
  rw [decide_eq_true_iff]
  by_cases hle : r.toRead ≤ r.toWrite
  · rw [Int.tmod_eq_emod_of_nonneg (by omega), Int.emod_eq_of_lt (by omega) (by omega)]
    omega
  · have hneg : Int.tmod ((r.toWrite : Int) - r.toRead) bufferSize ≤ 0 := by
      have h := Int.tmod_nonneg (bufferSize : Int)
        (show 0 ≤ -((r.toWrite : Int) - r.toRead) by omega)
      rw [Int.neg_tmod] at h
      omega
    omega

theorem isFull_iff_length (hw : r.toWrite < bufferSize) (hr : r.toRead = 0) :
    r.isFull = true ↔ r.unread.length = bufferSize - 1 := by
  have hsize : bufferSize = 1024 := rfl
  rw [isFull_iff hw (by omega), unread_length, hr]
  unfold ringCount
  rw [if_pos (Nat.zero_le _)]
  omega

/-! ## the invariant -/

theorem Kept.fifo (h : Kept r) : Fifo r := by
  have hsize : bufferSize = 1024 := rfl
  refine ⟨h.replayed, ?_, fun c hc heq => ?_⟩
  · by_cases hr : r.toRead = 0
    · exact isFull_iff_length h.write_lt hr
    · have hspare := h.spare hr
      rw [isFull_iff h.write_lt h.read_lt]
      omega
  · obtain ⟨es, hes⟩ := List.getLast?_eq_some_iff.mp hc
    have hrep := h.replayed
    rw [hes, replay_concat] at hrep
    obtain ⟨l, -, hl⟩ := Option.bind_eq_some_iff.mp hrep
    have hnil : r.unread = [] := (ringList_eq_nil h.read_lt _).mpr heq.symm
    rw [hnil] at hl
    exact absurd (Option.some.inj hl) (by simp)

theorem Kept.next_ne (h : Kept r) (hfull : r.isFull = false) :
    (r.toWrite + 1) % bufferSize ≠ r.toRead := by
  intro heq
  have hsize : bufferSize = 1024 := rfl
  have hcount := (ringCount_full h.read_lt h.write_lt).mpr heq
  rw [← unread_length] at hcount
  by_cases hr : r.toRead = 0
  · rw [(isFull_iff_length h.write_lt hr).mpr hcount] at hfull
    cases hfull
  · have := h.spare hr
    omega

theorem Kept.unread_add (h : Kept r) (hfull : r.isFull = false) (c : UInt8) :
    (r.add c).unread = r.unread ++ [c] :=
  ringList_push h.read_lt h.write_lt (h.next_ne hfull) r.buffer c

/-- **A character is added.** -/
theorem Kept.add (h : Kept r) (hfull : r.isFull = false) (hroom : HasRoom r) (c : UInt8) :
    Kept (r.add c) := by
  have hun := h.unread_add hfull c
  refine ⟨Nat.mod_lt _ (by decide), h.read_lt, ?_, fun hr => ?_⟩
  · show replay (r.edits ++ [.add c]) = _
    rw [replay_concat, h.replayed, hun]
    rfl
  · have hle : r.unread.length ≤ 1021 := hroom.resolve_left hr
    rw [hun, List.length_append]
    exact Nat.succ_le_succ hle

/-- with no room, the ring has one free cell left and does not say so -/
theorem Kept.not_fifo_add (h : Kept r) (hfull : r.isFull = false) (hroom : ¬ HasRoom r) (c : UInt8) :
    ¬ Fifo (r.add c) := by
  intro hfifo
  have hsize : bufferSize = 1024 := rfl
  have hr : r.toRead ≠ 0 := fun hr => hroom (Or.inl hr)
  have hlt : ¬ r.unread.length ≤ 1021 := fun hle => hroom (Or.inr hle)
  have hspare := h.spare hr
  have hlen : (r.add c).unread.length = bufferSize - 1 := by
    rw [h.unread_add hfull, List.length_append, List.length_singleton]
    omega
  have hsays := hfifo.2.1.mpr hlen
  exact hr ((isFull_iff (r := r.add c) (Nat.mod_lt _ (by decide)) h.read_lt).mp hsays).1

/-- `SUB_MOD(to_write, 1)` is the index before -/
theorem subMod_next (h : r.toWrite < bufferSize) :
    subMod r.toWrite 1 bufferSize < bufferSize ∧
      (subMod r.toWrite 1 bufferSize + 1) % bufferSize = r.toWrite := by
  unfold bufferSize at h ⊢
  unfold subMod
  split <;> omega

/-- **The last character is erased.** -/
theorem Kept.erase (h : Kept r) (hne : r.toWrite ≠ r.toRead) : Kept r.erase := by
  obtain ⟨hlt, hnext⟩ := subMod_next h.write_lt
  have hun : r.unread = r.erase.unread ++ [r.last] := by
    have hc := ringList_concat h.read_lt hlt (by rwa [hnext]) r.buffer
    rwa [hnext] at hc
  refine ⟨hlt, h.read_lt, ?_, fun hr => ?_⟩
  · show replay (r.edits ++ [.erase]) = _
    rw [replay_concat, h.replayed, hun]
    show (if r.erase.unread ++ [r.last] = [] then _ else _) = _
    rw [if_neg (by simp), List.dropLast_concat]
  · have hspare := h.spare hr
    rw [hun, List.length_append] at hspare
    exact Nat.le_of_succ_le hspare

/-- **The first character is read.** -/
theorem Kept.read (h : Kept r) (hne : r.toWrite ≠ r.toRead) : Kept r.read := by
  have hsize : bufferSize = 1024 := rfl
  have hun : r.unread = r.buffer r.toRead :: r.read.unread :=
    ringList_pop h.read_lt h.write_lt hne.symm r.buffer
  refine ⟨h.write_lt, Nat.mod_lt _ (by decide), ?_, fun _ => ?_⟩
  · show replay (r.edits ++ [.read (r.buffer r.toRead)]) = _
    rw [replay_concat, h.replayed, hun]
    exact if_pos rfl
  · have hlt := ringCount_lt h.read_lt h.write_lt
    rw [← unread_length, hun, List.length_cons] at hlt
    omega

theorem Kept.reset (h : Kept r) : Kept r.reset := by
  have hpos : 0 < bufferSize := by decide
  refine ⟨hpos, hpos, ?_, fun hr => absurd rfl hr⟩
  show replay (r.edits ++ [.reset]) = _
  rw [replay_concat, h.replayed]
  rfl

end

end KeyRing

/-! ## what a key does to the ring -/

namespace Keyboard

/-- a pressed key adds a character, with the modifiers as they are -/
def Adds (scancode : UInt8) (s : Keyboard) : Prop :=
  ¬ (s.controlKeyPressed ∧ makeCode scancode = cKey) ∧
    if s.controlKeyPressed ∧ makeCode scancode = dKey then s.toWrite = s.toRead
    else s.option modifyBuffer ∧ isPrintable s.shiftKeyPressed scancode ∧
      ¬ (s.typed scancode = returnKey ∧ s.toWrite ≠ s.toRead ∧ s.last = newLineChar)

/-- a scancode adds a character -/
def KeyAdds (scancode : UInt8) (s : Keyboard) : Prop :=
  s.isFull = false ∧ isPressed scancode ∧ isKeycode scancode ∧ Adds scancode (modifiers scancode s)

/-- a character is added if one is to be, and otherwise at most the last one is erased -/
def Change (adds : Prop) (r r' : KeyRing) : Prop :=
  (adds ∧ ∃ c, r' = r.add c) ∨
    (¬ adds ∧ (r' = r ∨ r.toWrite ≠ r.toRead ∧ r' = r.erase))

section
variable {w : Window} {fuel : Nat} {scancode : UInt8} {s t : Keyboard}

theorem addCharToBuffer_plain {c : UInt8} (hc : c ≠ tabulatorChar) (b : Bool) :
    addCharToBuffer w fuel c b s = some (addPlain w c b s) := if_pos hc

theorem scancodeMap_tab : ∀ n < 89, n ≠ 15 → ∀ shift caps : Bool,
    let p := scancodeMap.getD n (0, 0)
    let c := if shift then p.2 else p.1
    let c := if caps then toUpper c else c
    c ≠ tabulatorKey ∧ c ≠ tabulatorChar := by decide

theorem typed_ne_tab (hscan : scancode ≠ tabulatorKey) (s : Keyboard) :
    s.typed scancode ≠ tabulatorKey ∧ s.typed scancode ≠ tabulatorChar := by
  have hne : scancode.toNat ≠ 15 := fun h => hscan (UInt8.toNat_inj.mp h)
  by_cases hlt : scancode.toNat < 89
  · exact scancodeMap_tab _ hlt hne s.shiftKeyPressed s.capsLockKeyPressed
  · have hd : scancodeMap.getD scancode.toNat (0, 0) = (0, 0) := by
      rw [List.getD_eq_getElem?_getD, List.getElem?_eq_none (Nat.le_of_not_lt hlt)]
      rfl
    unfold typed
    rw [hd]
    cases s.shiftKeyPressed <;> cases s.capsLockKeyPressed <;> decide

theorem edit_ring (hscan : scancode ≠ tabulatorKey) {b : Bool}
    (h : edit w fuel scancode s = some (t, b)) :
    Change (isPrintable s.shiftKeyPressed scancode ∧
        ¬ (s.typed scancode = returnKey ∧ s.toWrite ≠ s.toRead ∧ s.last = newLineChar))
      s.toKeyRing t.toKeyRing := by
  obtain ⟨hkey, hchar⟩ := typed_ne_tab hscan s
  unfold edit at h
  by_cases hp : isPrintable s.shiftKeyPressed scancode = true
  · rw [if_pos hp] at h
    by_cases hret : s.typed scancode = returnKey
    · rw [if_pos hret] at h
      by_cases hlast : s.toWrite ≠ s.toRead ∧ s.last = newLineChar
      · -- a second return in a row
        rw [if_pos hlast] at h
        obtain ⟨rfl, -⟩ := Prod.mk.inj (Option.some.inj h)
        exact Or.inr ⟨fun hno => hno.2 ⟨hret, hlast⟩, Or.inl rfl⟩
      · rw [if_neg hlast, addCharToBuffer_plain (by decide)] at h
        obtain ⟨rfl, -⟩ := Prod.mk.inj (Option.some.inj h)
        exact Or.inl ⟨⟨hp, fun hno => hlast hno.2⟩, _, rfl⟩
    · rw [if_neg hret, if_neg hkey] at h
      dsimp only at h
      rw [addCharToBuffer_plain hchar] at h
      obtain ⟨rfl, -⟩ := Prod.mk.inj (Option.some.inj h)
      exact Or.inl ⟨⟨hp, fun hno => hret hno.1⟩, _, rfl⟩
  · rw [if_neg hp] at h
    refine Or.inr ⟨fun hno => hp hno.1, ?_⟩
    split at h
    · rename_i hback
      obtain ⟨rfl, -⟩ := Prod.mk.inj (Option.some.inj h)
      exact Or.inr ⟨hback.2, rfl⟩
    · obtain ⟨rfl, -⟩ := Prod.mk.inj (Option.some.inj h)
      exact Or.inl rfl

theorem press_ring (hscan : scancode ≠ tabulatorKey) {x : UInt8}
    (h : press w fuel scancode s = some (t, x)) :
    Change (Adds scancode s) s.toKeyRing t.toKeyRing := by
  unfold press at h
  unfold Adds
  by_cases hkill : s.controlKeyPressed = true ∧ makeCode scancode = cKey
  · rw [if_pos hkill] at h
    obtain ⟨rfl, -⟩ := Prod.mk.inj (Option.some.inj h)
    exact Or.inr ⟨fun hno => hno.1 hkill, Or.inl rfl⟩
  · rw [if_neg hkill] at h
    by_cases hend : s.controlKeyPressed = true ∧ makeCode scancode = dKey
    · rw [if_pos hend] at h ⊢
      by_cases hempty : s.toWrite = s.toRead
      · rw [if_pos hempty, addCharToBuffer_plain (by decide)] at h
        obtain ⟨rfl, -⟩ := Prod.mk.inj (Option.some.inj h)
        exact Or.inl ⟨⟨hkill, hempty⟩, _, rfl⟩
      · rw [if_neg hempty] at h
        obtain ⟨rfl, -⟩ := Prod.mk.inj (Option.some.inj h)
        exact Or.inr ⟨fun hno => hempty hno.2, Or.inl rfl⟩
    · rw [if_neg hend] at h ⊢
      by_cases hmod : s.option modifyBuffer = true
      · rw [if_pos hmod] at h
        obtain ⟨⟨u, b⟩, hu, heq⟩ := Option.map_eq_some_iff.mp h
        have hring : t.toKeyRing = u.toKeyRing := by
          rw [← (Prod.mk.inj heq).1]
          cases b <;> rfl
        rw [hring]
        rcases edit_ring hscan hu with ⟨hadd, hc⟩ | ⟨hno, hc⟩
        · exact Or.inl ⟨⟨hkill, hmod, hadd⟩, hc⟩
        · exact Or.inr ⟨fun h => hno h.2.2, hc⟩
      · rw [if_neg hmod] at h
        obtain ⟨rfl, -⟩ := Prod.mk.inj (Option.some.inj h)
        exact Or.inr ⟨fun hno => hmod hno.2.1, Or.inl rfl⟩

theorem modifiers_ring (scancode : UInt8) (s : Keyboard) :
    (modifiers scancode s).toKeyRing = s.toKeyRing := by
  unfold modifiers
  split
  · rfl
  · split
    · rfl
    · split <;> rfl

/-- **One scancode.** -/
theorem keyboardHandler_ring (hscan : scancode ≠ tabulatorKey) {x : UInt8}
    (h : keyboardHandler w fuel scancode s = some (t, x)) :
    (s.isFull = true ∧ t.toKeyRing = s.toKeyRing.reset) ∨
      (s.isFull = false ∧ Change (KeyAdds scancode s) s.toKeyRing t.toKeyRing) := by
  unfold keyboardHandler at h
  by_cases hfull : s.isFull = true
  · rw [if_pos hfull] at h
    obtain ⟨rfl, -⟩ := Prod.mk.inj (Option.some.inj h)
    exact Or.inl ⟨hfull, rfl⟩
  · rw [if_neg hfull] at h
    refine Or.inr ⟨Bool.eq_false_iff.mpr hfull, ?_⟩
    unfold KeyAdds
    rw [← modifiers_ring scancode s] at *
    by_cases hkey : (isPressed scancode && isKeycode scancode) = true
    · rw [if_pos hkey] at h
      obtain ⟨hpressed, hcode⟩ := (Bool.and_eq_true ..).mp hkey
      rcases press_ring hscan h with ⟨hadd, hc⟩ | ⟨hno, hc⟩
      · exact Or.inl ⟨⟨Bool.eq_false_iff.mpr hfull, hpressed, hcode, hadd⟩, hc⟩
      · exact Or.inr ⟨fun hall => hno hall.2.2.2, hc⟩
    · rw [if_neg hkey] at h
      obtain ⟨rfl, -⟩ := Prod.mk.inj (Option.some.inj h)
      exact Or.inr ⟨fun hno => hkey ((Bool.and_eq_true ..).mpr ⟨hno.2.1, hno.2.2.1⟩), Or.inl rfl⟩

end

end Keyboard

/-! ## runs -/

inductive KeyOp where
  | key (fuel : Nat) (scancode : UInt8)
  /-- a reader comes in -/
  | call (ops : UInt8)
  /-- a reader's loop takes a turn -/
  | turn
  | clear

namespace Keyboard

def execKey (w : Window) : KeyOp → Keyboard → Option Keyboard
  | .key fuel scancode, s => (keyboardHandler w fuel scancode s).map Prod.fst
  | .call ops, s => some (getKeyboardCharacter ops s)
  | .turn, s => if s.readers = 0 then none else s.readTurn.map Prod.fst
  | .clear, s => some (clearBuffer w s).1

def NotTab : KeyOp → Prop
  | .key _ scancode => scancode ≠ tabulatorKey
  | _ => True

/-- a character is added only where there is room -/
def RoomFor : KeyOp → Keyboard → Prop
  | .key _ scancode, s => KeyAdds scancode s → KeyRing.HasRoom s.toKeyRing
  | _, _ => True

section
variable {w : Window} {s t : Keyboard}

theorem waitBuffer_ring (h : waitBuffer s = some t) : t.toKeyRing = s.toKeyRing := by
  unfold waitBuffer at h
  split at h
  · cases h
  · rw [← Option.some.inj h]

theorem readTurn_ring {x : Option UInt8} (h : readTurn s = some (t, x)) :
    t.toKeyRing = s.toKeyRing ∨ s.toWrite ≠ s.toRead ∧ t.toKeyRing = s.toKeyRing.read := by
  have hwait : ∀ {x}, (s.waitBuffer.map fun s => (s, (none : Option UInt8))) = some (t, x) →
      t.toKeyRing = s.toKeyRing := by
    intro x hx
    obtain ⟨u, hu, heq⟩ := Option.map_eq_some_iff.mp hx
    rw [← (Prod.mk.inj heq).1]
    exact waitBuffer_ring hu
  unfold readTurn at h
  by_cases hne : s.toWrite = s.toRead
  · rw [if_pos hne] at h
    exact Or.inl (hwait h)
  · have htake : some (s.takeChar.1, some s.takeChar.2) = some (t, x) →
        t.toKeyRing = s.toKeyRing.read := by
      intro hx
      rw [← (Prod.mk.inj (Option.some.inj hx)).1]
      rfl
    rw [if_neg hne] at h
    split at h
    · split at h
      · exact Or.inr ⟨hne, htake h⟩
      · exact Or.inl (hwait h)
    · exact Or.inr ⟨hne, htake h⟩

theorem clearBuffer_ring (hw : s.toWrite < KeyRing.bufferSize) :
    (clearBuffer w s).1.toKeyRing = s.toKeyRing ∨
      s.toWrite ≠ s.toRead ∧ (clearBuffer w s).1.toKeyRing = s.toKeyRing.erase := by
  unfold clearBuffer
  by_cases hzero : subMod s.toWrite s.toRead KeyRing.bufferSize = 0
  · dsimp only
    rw [if_pos hzero]
    exact Or.inl rfl
  · dsimp only
    rw [if_neg hzero]
    refine Or.inr ⟨fun heq => hzero ?_, rfl⟩
    unfold subMod
    rw [heq, Int.sub_self, if_neg (Int.lt_irrefl 0), Nat.sub_self]

/-- **One operation.**  It keeps the invariant where there is room, and loses the queue where not. -/
theorem execKey_kept {o : KeyOp} (ho : NotTab o) (h : execKey w o s = some t)
    (hs : KeyRing.Kept s.toKeyRing) :
    (RoomFor o s → KeyRing.Kept t.toKeyRing) ∧ (¬ RoomFor o s → ¬ KeyRing.Fifo t.toKeyRing) := by
  cases o with
  | key fuel scancode =>
    obtain ⟨⟨u, x⟩, hu, rfl⟩ := Option.map_eq_some_iff.mp h
    rcases keyboardHandler_ring ho hu with ⟨hfull, hring⟩ | ⟨hfull, hring⟩
    · rw [hring]
      refine ⟨fun _ => hs.reset, fun hno => absurd (fun hadd => ?_) hno⟩
      rw [hadd.1] at hfull
      cases hfull
    · rcases hring with ⟨hadd, c, hring⟩ | ⟨hno, hring⟩
      · rw [hring]
        exact ⟨fun hroom => hs.add hfull (hroom hadd) c,
          fun hno => hs.not_fifo_add hfull (fun hroom => hno fun _ => hroom) c⟩
      · refine ⟨fun _ => ?_, fun hroom => absurd (fun hadd => absurd hadd hno) hroom⟩
        rcases hring with hring | ⟨hne, hring⟩
        · rwa [hring]
        · rw [hring]
          exact hs.erase hne
  | call ops =>
    obtain rfl := Option.some.inj h
    exact ⟨fun _ => hs, fun hno => absurd trivial hno⟩
  | turn =>
    refine ⟨fun _ => ?_, fun hno => absurd trivial hno⟩
    by_cases hr : s.readers = 0
    · simp only [execKey, if_pos hr] at h
      cases h
    · simp only [execKey, if_neg hr] at h
      obtain ⟨⟨u, x⟩, hu, rfl⟩ := Option.map_eq_some_iff.mp h
      rcases readTurn_ring hu with hring | ⟨hne, hring⟩
      · rwa [hring]
      · rw [hring]
        exact hs.read hne
  | clear =>
    obtain rfl := Option.some.inj h
    refine ⟨fun _ => ?_, fun hno => absurd trivial hno⟩
    rcases clearBuffer_ring (w := w) hs.write_lt with hring | ⟨hne, hring⟩
    · rwa [hring]
    · rw [hring]
      exact hs.erase hne

/-- in a run from a state that keeps the invariant, every state is a queue when there is room at every
step, and only then -/
theorem fifo_iff {os : List KeyOp} (hos : ∀ o ∈ os, NotTab o) (hs : KeyRing.Kept s.toKeyRing)
    (hrun : run (execKey w) os s = some t) :
    (∀ p u, p <+: os → run (execKey w) p s = some u → KeyRing.Fifo u.toKeyRing) ↔
      Runs (execKey w) RoomFor os s t := by
  induction os generalizing s with
  | nil =>
    refine ⟨fun _ => Option.some.inj hrun, fun _ p u hp hu => ?_⟩
    rw [List.prefix_nil.mp hp] at hu
    rw [← Option.some.inj hu]
    exact hs.fifo
  | cons o os ih =>
    rw [run_cons] at hrun
    obtain ⟨v, hv, hrest⟩ := Option.bind_eq_some_iff.mp hrun
    have hstep := execKey_kept (hos o List.mem_cons_self) hv hs
    have hos' : ∀ o ∈ os, NotTab o := fun o ho => hos o (List.mem_cons_of_mem _ ho)
    constructor
    · intro hall
      have hroom : RoomFor o s := by
        by_contra hno
        refine hstep.2 hno (hall [o] v (List.prefix_append [o] os) ?_)
        rw [run_cons, hv]
        rfl
      refine ⟨hroom, v, hv, (ih hos' (hstep.1 hroom) hrest).mp fun p u hp hu => ?_⟩
      refine hall (o :: p) u (List.cons_prefix_cons.mpr ⟨rfl, hp⟩) ?_
      rw [run_cons, hv]
      exact hu
    · rintro ⟨hroom, v', hv', hruns⟩ p u hp hu
      obtain rfl : v = v' := Option.some.inj (hv.symm.trans hv')
      cases p with
      | nil =>
        rw [← Option.some.inj hu]
        exact hs.fifo
      | cons o' p =>
        obtain ⟨rfl, hp'⟩ := List.cons_prefix_cons.mp hp
        rw [run_cons, hv] at hu
        exact (ih hos' (hstep.1 hroom) hrest).mpr hruns p u hp' hu

/-! ### a session -/

/-- a reader is waiting, and no modifier is on -/
structure Plain (s : Keyboard) : Prop where
  modify : s.option modifyBuffer = true
  shift : s.shiftKeyPressed = false
  caps : s.capsLockKeyPressed = false
  control : s.controlKeyPressed = false

theorem Plain.type (h : Plain s) (hfull : ¬ s.isFull = true) :
    ∃ t, execKey w (.key 0 0x1E) s = some t ∧ Plain t ∧ t.toKeyRing = s.toKeyRing.add 97 ∧
      t.keyboardOptions = s.keyboardOptions ∧ t.readers = s.readers := by
  have hmod : modifiers 0x1E s = s := rfl
  have hc : s.typed 0x1E = 97 := by
    unfold typed
    rw [h.shift, h.caps]
    rfl
  have hprint : isPrintable s.shiftKeyPressed 0x1E = true := by
    rw [h.shift]
    rfl
  have hedit : edit w 0 0x1E s
      = some (addPlain w 97 (s.option showBufferWhileTyping) s, true) := by
    unfold edit
    rw [if_pos hprint, hc, if_neg (by decide)]
    rfl
  have hpress : press w 0 0x1E s
      = some (callSpecial 0x1E (addPlain w 97 (s.option showBufferWhileTyping) s), 0x1E) := by
    unfold press
    rw [h.control, if_neg (fun hno => Bool.false_ne_true hno.1),
      if_neg (fun hno => Bool.false_ne_true hno.1), if_pos h.modify, hedit]
    rfl
  refine ⟨callSpecial 0x1E (addPlain w 97 (s.option showBufferWhileTyping) s), ?_,
    ⟨h.modify, h.shift, h.caps, h.control⟩, rfl, rfl, rfl⟩
  show (keyboardHandler w 0 0x1E s).map Prod.fst = _
  unfold keyboardHandler
  rw [if_neg hfull, hmod]
  show (press w 0 0x1E s).map Prod.fst = _
  rw [hpress]
  rfl

theorem not_full_one (hr : s.toRead = 1) (hw : s.toWrite < KeyRing.bufferSize) : ¬ s.isFull = true := by
  rw [KeyRing.isFull_iff hw (by rw [hr]; decide), hr]
  omega

/-- the letter is typed again and again, after one was read -/
theorem Plain.typeAll (h : Plain s) (hread : s.toRead = 1) (hwrite : s.toWrite = 1) (n : Nat) :
    ∃ t, run (execKey w) (List.replicate (n + 1) (.key 0 0x1E)) s = some t ∧ Plain t ∧ t.toRead = 1 ∧
      t.toWrite = (1 + (n + 1)) % 1024 ∧ t.edits.getLast? = some (.add 97) := by
  induction n with
  | zero =>
    obtain ⟨t, ht, hp, hring, -⟩ := h.type (w := w) (not_full_one hread (by rw [hwrite]; decide))
    refine ⟨t, ?_, hp, ?_, ?_, ?_⟩
    · show run (execKey w) [.key 0 0x1E] s = _
      rw [run_cons, ht]
      rfl
    · rw [hring]
      exact hread
    · rw [hring]
      show (s.toWrite + 1) % KeyRing.bufferSize = _
      rw [hwrite]
      rfl
    · rw [hring]
      exact List.getLast?_concat ..
  | succ n ih =>
    obtain ⟨u, hu, hp, hr, hw, -⟩ := ih
    have hlt : u.toWrite < KeyRing.bufferSize := by
      rw [hw]
      exact Nat.mod_lt _ (by decide)
    obtain ⟨t, ht, hpt, hring, -⟩ := hp.type (w := w) (not_full_one hr hlt)
    refine ⟨t, ?_, hpt, ?_, ?_, ?_⟩
    · rw [List.replicate_succ', run_append, hu]
      show run (execKey w) [.key 0 0x1E] u = _
      rw [run_cons, ht]
      rfl
    · rw [hring]
      exact hr
    · rw [hring]
      show (u.toWrite + 1) % KeyRing.bufferSize = _
      rw [hw]
      exact Nat.mod_add_mod ..
    · rw [hring]
      exact List.getLast?_concat ..

theorem option_call (ops o : UInt8) (s : Keyboard) : (getKeyboardCharacter ops s).option o
    = decide ((ops ||| modifyBuffer) &&& o ≠ 0) := rfl

/-- one letter is typed and read, and a line is awaited -/
def oneRead : List KeyOp := [.call 0, .key 0 0x1E, .turn, .call 3]

theorem oneRead_run (w : Window) (fonts : Fonts) : ∃ s, run (execKey w) oneRead (start fonts) = some s ∧
    Plain s ∧ s.toRead = 1 ∧ s.toWrite = 1 := by
  have hmodify : (getKeyboardCharacter 0 (start fonts)).option modifyBuffer = true :=
    (option_call ..).trans (by decide)
  have hp : Plain (getKeyboardCharacter 0 (start fonts)) := ⟨hmodify, rfl, rfl, rfl⟩
  have hfull : ¬ (getKeyboardCharacter 0 (start fonts)).isFull = true := Bool.false_ne_true
  obtain ⟨t, ht, hpt, hring, hopt, hreaders⟩ := hp.type (w := w) hfull
  have hwrite : t.toWrite = 1 := by rw [hring]; rfl
  have hread : t.toRead = 0 := by rw [hring]; rfl
  have hturn : execKey w .turn t = some t.takeChar.1 := by
    have hr : t.readers ≠ 0 := by
      rw [hreaders]
      exact Nat.one_ne_zero
    have ho : ¬ t.option awaitReturnKey = true := by
      unfold option
      rw [hopt]
      show ¬ decide (((0 : UInt8) ||| modifyBuffer) &&& awaitReturnKey ≠ 0) = true
      decide
    show (if t.readers = 0 then none else t.readTurn.map Prod.fst) = _
    rw [if_neg hr]
    unfold readTurn
    rw [if_neg (by rw [hwrite, hread]; decide), if_neg ho]
    rfl
  refine ⟨getKeyboardCharacter 3 t.takeChar.1, ?_,
    ⟨(option_call ..).trans (by decide), hpt.shift, hpt.caps, hpt.control⟩, ?_, hwrite⟩
  · unfold oneRead
    rw [run_cons]
    show run (execKey w) [.key 0 0x1E, .turn, .call 3] (getKeyboardCharacter 0 (start fonts)) = _
    rw [run_cons, ht]
    show run (execKey w) [.turn, .call 3] t = _
    rw [run_cons, hturn]
    rfl
  · show (t.toRead + 1) % KeyRing.bufferSize = 1
    rw [hread]
    rfl

theorem key_notTab : NotTab (.key 0 0x1E) := (by decide : (0x1E : UInt8) ≠ tabulatorKey)

theorem oneRead_notTab : ∀ o ∈ oneRead, NotTab o := by
  intro o ho
  unfold oneRead at ho
  simp only [List.mem_cons, List.not_mem_nil, or_false] at ho
  rcases ho with rfl | rfl | rfl | rfl
  · trivial
  · exact key_notTab
  · trivial
  · trivial

theorem start_kept (fonts : Fonts) : KeyRing.Kept (start fonts).toKeyRing := by
  have hpos : 0 < KeyRing.bufferSize := by decide
  exact ⟨hpos, hpos, rfl, fun hr => absurd rfl hr⟩

/-- **The ring is a queue** in every state of a run, when and only when every character is added with the
read index at 0 or with at most 1021 characters unread. -/
theorem keyboard_fifo_iff (w : Window) (fonts : Fonts) (os : List KeyOp) (t : Keyboard)
    (hos : ∀ o ∈ os, NotTab o) (hrun : run (execKey w) os (start fonts) = some t) :
    (∀ p u, p <+: os → run (execKey w) p (start fonts) = some u → KeyRing.Fifo u.toKeyRing) ↔
      Runs (execKey w) RoomFor os (start fonts) t :=
  fifo_iff hos (start_kept fonts) hrun

theorem keyboard_fifo_iff_oneRead : ∃ t,
    run (execKey ⟨1024, 768⟩) oneRead (start Fonts.start) = some t ∧
    ((∀ p u, p <+: oneRead → run (execKey ⟨1024, 768⟩) p (start Fonts.start) = some u →
      KeyRing.Fifo u.toKeyRing) ↔ Runs (execKey ⟨1024, 768⟩) RoomFor oneRead (start Fonts.start) t) := by
  obtain ⟨t, ht, -⟩ := oneRead_run ⟨1024, 768⟩ Fonts.start
  exact ⟨t, ht, keyboard_fifo_iff ⟨1024, 768⟩ Fonts.start oneRead t oneRead_notTab ht⟩

/-- after 1024 more letters the ring looks empty -/
theorem keyboard_fifo_not : ∃ os t, (∀ o ∈ os, NotTab o) ∧
    run (execKey ⟨1024, 768⟩) os (start Fonts.start) = some t ∧
    t.edits.getLast? = some (.add 97) ∧ t.toWrite = t.toRead ∧ ¬ KeyRing.Fifo t.toKeyRing := by
  obtain ⟨s, hs, hp, hr, hw⟩ := oneRead_run ⟨1024, 768⟩ Fonts.start
  obtain ⟨t, ht, -, hrt, hwt, hlast⟩ := hp.typeAll (w := ⟨1024, 768⟩) hr hw 1023
  have heq : t.toWrite = t.toRead := by rw [hwt, hrt]
  refine ⟨oneRead ++ List.replicate (1023 + 1) (.key 0 0x1E), t, fun o ho => ?_, ?_, hlast, heq,
    fun hfifo => hfifo.2.2 97 hlast heq⟩
  · rcases List.mem_append.mp ho with ho | ho
    · exact oneRead_notTab o ho
    · rw [List.eq_of_mem_replicate ho]
      exact key_notTab
  · rw [run_append, hs, Option.bind_some]
    exact ht

end

end Keyboard

end Tp2So
