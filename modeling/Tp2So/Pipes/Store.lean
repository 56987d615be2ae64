import Tp2So.Pipes.Open

/-!
# The pipe storage as a map from ids to pipes

`look t id` is the control block that `get_valid_pipe` finds.  In a sane storage (`PipeStore.Sane`)
every id is stored at most once, and each call changes `look` at its own id only.

* `look_modPipe`, `look_deletePipe`, `look_add`   the edits of the storage;
* `attach_look`, `detach_look`, `close_look`      `attachReader`, `detachReader` and their twins, and
                                                  `closePipe`;
* `leave_look`                                    the end of a dying process: detach, then close;
* `PipeStore.Like`                                transfers: ids, ends and expectations stay.
-/

set_option linter.unusedVariables false

namespace Tp2So

/-- the pipe that `get_valid_pipe` finds -/
def look (t : PipeStore) (id : Nat) : Option Pipe := (getValidPipe t id).bind t.heap

structure PipeStore.Sane (t : PipeStore) : Prop where
  wf : t.Wf
  low : ∀ c x, some c ∈ t.storage → t.heap c = some x → 2 ≤ x.id
  live : ∀ c, some c ∈ t.storage → ∃ x, t.heap c = some x
  nodup : (t.storage.filterMap id).Nodup
  inj : ∀ c d x y, some c ∈ t.storage → some d ∈ t.storage → t.heap c = some x →
    t.heap d = some y → x.id = y.id → c = d

section
variable {t : PipeStore} {k : Kernel} {a b i : Nat} {p : Pipe} {pid : Int}

/-! ## finding a pipe -/

theorem mem_storage : some a ∈ t.storage ↔ a ∈ t.storage.filterMap id := by
  rw [List.mem_filterMap]
  exact ⟨fun h => ⟨some a, h, rfl⟩, fun ⟨x, hx, he⟩ => by rw [← he]; exact hx⟩

theorem getValidPipe_some (h : getValidPipe t i = some a) :
    some a ∈ t.storage ∧ ∃ p, t.heap a = some p ∧ p.id = i := by
  obtain ⟨l, hl, hf⟩ := List.exists_of_findSome?_eq_some h
  obtain ⟨rfl, hany⟩ := Option.filter_eq_some_iff.mp hf
  obtain ⟨p, hp, hid⟩ := (Option.any_eq_true _ _).mp hany
  exact ⟨hl, p, hp, of_decide_eq_true hid⟩

theorem PipeStore.Sane.getValidPipe_iff (h : t.Sane) : getValidPipe t i = some a ↔
    some a ∈ t.storage ∧ ∃ p, t.heap a = some p ∧ p.id = i := by
  refine ⟨getValidPipe_some, fun ⟨ha, p, hp, hid⟩ => ?_⟩
  cases hg : getValidPipe t i with
  | none =>
    have hno := List.findSome?_eq_none_iff.mp hg (some a) ha
    have hany : (t.heap a).any (fun p => p.id = i) = true := by
      rw [hp]
      exact decide_eq_true hid
    exact absurd hany (Option.filter_eq_none_iff.mp hno a rfl)
  | some b =>
    obtain ⟨hb, q, hq, hqi⟩ := getValidPipe_some hg
    rw [h.inj a b p q ha hb hp hq (hid.trans hqi.symm)]

theorem look_some (h : look t i = some p) :
    ∃ a, getValidPipe t i = some a ∧ some a ∈ t.storage ∧ t.heap a = some p ∧ p.id = i := by
  obtain ⟨a, ha, hp⟩ := Option.bind_eq_some_iff.mp h
  obtain ⟨hm, q, hq, hid⟩ := getValidPipe_some ha
  obtain rfl := Option.some.inj (hp.symm.trans hq)
  exact ⟨a, ha, hm, hp, hid⟩

theorem PipeStore.Sane.look_eq (h : t.Sane) (ha : some a ∈ t.storage) (hp : t.heap a = some p) :
    look t p.id = some p := by
  unfold look
  rw [h.getValidPipe_iff.mpr ⟨ha, p, hp, rfl⟩]
  exact hp

theorem look_none (h : look t i = none) : getValidPipe t i = none := by
  cases hg : getValidPipe t i with
  | none => rfl
  | some a =>
    obtain ⟨-, p, hp, -⟩ := getValidPipe_some hg
    unfold look at h
    rw [hg, Option.bind_some, hp] at h
    exact absurd h (by simp)

theorem PipeStore.Sane.look_ext (h : t.Sane) {f : Nat → Option Pipe}
    (hf : ∀ i p, f i = some p ↔ ∃ a, some a ∈ t.storage ∧ t.heap a = some p ∧ p.id = i) :
    look t = f := by
  funext i
  cases hl : look t i with
  | some p =>
    obtain ⟨a, -, ha, hp, hid⟩ := look_some hl
    exact ((hf i p).mpr ⟨a, ha, hp, hid⟩).symm
  | none =>
    cases hfi : f i with
    | none => rfl
    | some p =>
      obtain ⟨a, ha, hp, rfl⟩ := (hf i p).mp hfi
      exact absurd (hl.symm.trans (h.look_eq ha hp)) (by simp)

theorem PipeStore.Sane.look_lt (h : t.Sane) (hl : look t i = some p) :
    2 ≤ i ∧ (i : Int) < t.nextId := by
  obtain ⟨a, -, ha, hp, rfl⟩ := look_some hl
  exact ⟨h.low a p ha hp, h.wf.ids a p ha hp⟩

/-- with nothing stored only the next id matters -/
theorem sane_of_nil (h : t.storage = []) (hlo : 2 ≤ t.nextId) (hhi : t.nextId ≤ maxPipes) : t.Sane := by
  have hno : ∀ c, some c ∉ t.storage := by
    intro c hc
    rw [h] at hc
    exact List.not_mem_nil hc
  refine ⟨⟨hlo, hhi, fun c hc => absurd hc (hno c), fun c x hc => absurd hc (hno c)⟩,
    fun c x hc => absurd hc (hno c), fun c hc => absurd hc (hno c), ?_,
    fun c d x y hc => absurd hc (hno c)⟩
  rw [h]
  exact List.nodup_nil

theorem sane_empty : emptyKernel.pipes.Sane := sane_of_nil rfl (by decide) (by decide)

/-! ## one control block -/

theorem PipeStore.Sane.modify (h : t.Sane) (a : Nat) {f : Pipe → Pipe}
    (hf : ∀ p, t.heap a = some p → (f p).id = p.id) : (t.modify a f).Sane := by
  have hback : ∀ c x, (t.modify a f).heap c = some x → ∃ y, t.heap c = some y ∧ x.id = y.id := by
    intro c x hx
    obtain ⟨y, hy, rfl⟩ := heapMod_some hx
    refine ⟨y, hy, ?_⟩
    split
    · rename_i e
      exact hf y (e ▸ hy)
    · rfl
  refine ⟨⟨h.wf.lo, h.wf.hi, h.wf.lt, fun c x hc hx => ?_⟩, fun c x hc hx => ?_, fun c hc => ?_,
    h.nodup, fun c d x y hc hd hx hy he => ?_⟩
  · obtain ⟨y, hy, hid⟩ := hback c x hx
    rw [hid]
    exact h.wf.ids c y hc hy
  · obtain ⟨y, hy, hid⟩ := hback c x hx
    rw [hid]
    exact h.low c y hc hy
  · obtain ⟨x, hx⟩ := h.live c hc
    exact ⟨_, heapMod_of_some a f hx⟩
  · obtain ⟨x', hx', hxi⟩ := hback c x hx
    obtain ⟨y', hy', hyi⟩ := hback d y hy
    exact h.inj c d x' y' hc hd hx' hy' (hxi.symm.trans (he.trans hyi))

theorem look_modify (h : t.Sane) (hg : getValidPipe t i = some a) {f : Pipe → Pipe}
    (hf : ∀ p, t.heap a = some p → (f p).id = p.id) :
    look (t.modify a f) = Function.update (look t) i ((look t i).map f) := by
  obtain ⟨ha, p, hp, hid⟩ := getValidPipe_some hg
  have hl : look t i = some p := by rw [← hid]; exact h.look_eq ha hp
  refine (h.modify a hf).look_ext fun j q => ?_
  by_cases e : j = i
  · subst e
    rw [Function.update_self, hl]
    constructor
    · intro hq
      obtain rfl := Option.some.inj hq
      exact ⟨a, ha, by show heapMod t.heap a f a = _; rw [heapMod_self, hp]; rfl,
        (hf p hp).trans hid⟩
    · rintro ⟨c, hc, hq, hqj⟩
      obtain ⟨x, hx, rfl⟩ := heapMod_some hq
      by_cases e : c = a
      · subst e
        obtain rfl := Option.some.inj (hp.symm.trans hx)
        rw [if_pos rfl]
        rfl
      · rw [if_neg e] at hqj
        exact absurd (h.inj c a x p hc ha hx hp (hqj.trans hid.symm)) e
  · rw [Function.update_of_ne e]
    constructor
    · intro hq
      obtain ⟨c, -, hc, hx, hxj⟩ := look_some hq
      have hne : c ≠ a := by
        rintro rfl
        obtain rfl := Option.some.inj (hp.symm.trans hx)
        exact e (hxj.symm.trans hid)
      exact ⟨c, hc, by show heapMod t.heap a f c = _; rw [heapMod_of_ne _ _ hne]; exact hx, hxj⟩
    · rintro ⟨c, hc, hq, hqj⟩
      obtain ⟨x, hx, rfl⟩ := heapMod_some hq
      by_cases e' : c = a
      · subst e'
        obtain rfl := Option.some.inj (hp.symm.trans hx)
        rw [if_pos rfl, hf p hp] at hqj
        exact absurd (hqj.symm.trans hid) e
      · rw [if_neg e'] at hqj ⊢
        rw [← hqj]
        exact h.look_eq hc hx

/-! ## a pipe more, a pipe less -/

theorem filterMap_replace_none (l : List (Option Nat)) (a : Nat) :
    (l.replace (some a) none).filterMap id = (l.filterMap id).erase a := by
  induction l with
  | nil => rfl
  | cons x l ih =>
    cases x with
    | none =>
      rw [List.replace_cons]
      exact ih
    | some c =>
      by_cases e : c = a
      · subst e
        rw [List.replace_cons_self]
        show l.filterMap id = (c :: l.filterMap id).erase c
        rw [List.erase_cons_head]
      · have hb : (some a == some c) = false := by simpa using Ne.symm e
        rw [List.replace_cons, hb]
        show c :: (l.replace (some a) none).filterMap id = (c :: l.filterMap id).erase a
        rw [ih, List.erase_cons_tail (by simpa using e)]

/-- the storage without the pipe `a` -/
def PipeStore.remove (t : PipeStore) (a : Nat) : PipeStore :=
  { t with heap := Function.update t.heap a none, storage := t.storage.replace (some a) none }

theorem PipeStore.Sane.mem_remove (h : t.Sane) :
    some b ∈ (t.remove a).storage ↔ b ≠ a ∧ some b ∈ t.storage := by
  rw [mem_storage, mem_storage]
  show b ∈ (t.storage.replace (some a) none).filterMap id ↔ _
  rw [filterMap_replace_none, h.nodup.mem_erase_iff]

theorem PipeStore.remove_heap (hne : b ≠ a) : (t.remove a).heap b = t.heap b :=
  Function.update_of_ne hne ..

theorem PipeStore.Sane.remove (h : t.Sane) (a : Nat) : (t.remove a).Sane := by
  have hback : ∀ c x, some c ∈ (t.remove a).storage → (t.remove a).heap c = some x →
      some c ∈ t.storage ∧ t.heap c = some x := by
    intro c x hc hx
    obtain ⟨hne, hc⟩ := h.mem_remove.mp hc
    exact ⟨hc, (remove_heap hne).symm.trans hx⟩
  refine ⟨⟨h.wf.lo, h.wf.hi, fun c hc => h.wf.lt c (h.mem_remove.mp hc).2, fun c x hc hx => ?_⟩,
    fun c x hc hx => ?_, fun c hc => ?_, ?_, fun c d x y hc hd hx hy he => ?_⟩
  · obtain ⟨hc, hx⟩ := hback c x hc hx
    exact h.wf.ids c x hc hx
  · obtain ⟨hc, hx⟩ := hback c x hc hx
    exact h.low c x hc hx
  · obtain ⟨hne, hc⟩ := h.mem_remove.mp hc
    obtain ⟨x, hx⟩ := h.live c hc
    exact ⟨x, (remove_heap hne).trans hx⟩
  · show ((t.storage.replace (some a) none).filterMap id).Nodup
    rw [filterMap_replace_none]
    exact h.nodup.erase a
  · obtain ⟨hc, hx⟩ := hback c x hc hx
    obtain ⟨hd, hy⟩ := hback d y hd hy
    exact h.inj c d x y hc hd hx hy he

theorem look_remove (h : t.Sane) (hg : getValidPipe t i = some a) :
    look (t.remove a) = Function.update (look t) i none := by
  obtain ⟨ha, p, hp, hid⟩ := getValidPipe_some hg
  refine (h.remove a).look_ext fun j q => ?_
  by_cases e : j = i
  · subst e
    rw [Function.update_self]
    refine ⟨fun hq => absurd hq (by simp), fun ⟨c, hc, hq, hqj⟩ => ?_⟩
    obtain ⟨hne, hc⟩ := h.mem_remove.mp hc
    rw [PipeStore.remove_heap hne] at hq
    exact absurd (h.inj c a q p hc ha hq hp (hqj.trans hid.symm)) hne
  · rw [Function.update_of_ne e]
    constructor
    · intro hq
      obtain ⟨c, -, hc, hx, hxj⟩ := look_some hq
      have hne : c ≠ a := by
        rintro rfl
        obtain rfl := Option.some.inj (hp.symm.trans hx)
        exact e (hxj.symm.trans hid)
      exact ⟨c, h.mem_remove.mpr ⟨hne, hc⟩, (PipeStore.remove_heap hne).trans hx, hxj⟩
    · rintro ⟨c, hc, hq, rfl⟩
      obtain ⟨hne, hc⟩ := h.mem_remove.mp hc
      rw [PipeStore.remove_heap hne] at hq
      exact h.look_eq hc hq

theorem deletePipe_pipes (hp : k.pipes.heap a = some p) :
    (deletePipe k a).pipes = k.pipes.remove a := by
  unfold deletePipe
  simp only [hp]
  rfl

theorem PipeStore.Sane.add (h : t.Sane) (hne : t.nextId ≠ maxPipes) (hid : (p.id : Int) = t.nextId) :
    (t.add p).Sane := by
  have hlo := h.wf.lo
  have hback : ∀ c x, some c ∈ (t.add p).storage → (t.add p).heap c = some x →
      (c = t.next ∧ x = p) ∨ (some c ∈ t.storage ∧ t.heap c = some x) := by
    intro c x hc hx
    by_cases e : c = t.next
    · subst e
      have hself : (t.add p).heap t.next = some p := Function.update_self ..
      exact Or.inl ⟨rfl, (Option.some.inj (hself.symm.trans hx)).symm⟩
    · rcases List.mem_append.mp hc with hc | hc
      · exact Or.inr ⟨hc, (Function.update_of_ne e ..).symm.trans hx⟩
      · exact absurd (Option.some.inj (List.mem_singleton.mp hc)) e
  refine ⟨h.wf.add hne hid, fun c x hc hx => ?_, fun c hc => ?_, ?_, fun c d x y hc hd hx hy he => ?_⟩
  · rcases hback c x hc hx with ⟨-, rfl⟩ | ⟨hc, hx⟩
    · omega
    · exact h.low c x hc hx
  · by_cases e : c = t.next
    · subst e
      exact ⟨p, Function.update_self ..⟩
    · rcases List.mem_append.mp hc with hc | hc
      · obtain ⟨x, hx⟩ := h.live c hc
        exact ⟨x, (Function.update_of_ne e ..).trans hx⟩
      · exact absurd (Option.some.inj (List.mem_singleton.mp hc)) e
  · show ((t.storage ++ [some t.next]).filterMap id).Nodup
    rw [List.filterMap_append]
    refine List.nodup_append.mpr ⟨h.nodup, List.nodup_singleton t.next, ?_⟩
    rintro c hc d hd rfl
    obtain rfl := List.mem_singleton.mp hd
    exact absurd (h.wf.lt _ (mem_storage.mpr hc)) (Nat.lt_irrefl _)
  · rcases hback c x hc hx with ⟨hcn, hxp⟩ | ⟨hc', hx'⟩ <;>
      rcases hback d y hd hy with ⟨hdn, hyp⟩ | ⟨hd', hy'⟩
    · exact hcn.trans hdn.symm
    · have hlt := h.wf.ids d y hd' hy'
      rw [hxp] at he
      omega
    · have hlt := h.wf.ids c x hc' hx'
      rw [hyp] at he
      omega
    · exact h.inj c d x y hc' hd' hx' hy' he

theorem look_add (h : t.Sane) (hne : t.nextId ≠ maxPipes) (hid : (p.id : Int) = t.nextId) :
    look (t.add p) = Function.update (look t) p.id (some p) := by
  refine (h.add hne hid).look_ext fun j q => ?_
  have hself : (t.add p).heap t.next = some p := Function.update_self ..
  have hmem : some t.next ∈ (t.add p).storage :=
    List.mem_append_right _ (List.mem_singleton_self _)
  by_cases e : j = p.id
  · subst e
    rw [Function.update_self]
    constructor
    · intro hq
      obtain rfl := Option.some.inj hq
      exact ⟨t.next, hmem, hself, rfl⟩
    · rintro ⟨c, hc, hq, hqj⟩
      have hcn := (h.add hne hid).inj c t.next q p hc hmem hq hself hqj
      rw [hcn] at hq
      exact hself.symm.trans hq
  · rw [Function.update_of_ne e]
    constructor
    · intro hq
      obtain ⟨c, -, hc, hx, hxj⟩ := look_some hq
      have hcn : c ≠ t.next := Nat.ne_of_lt (h.wf.lt c hc)
      exact ⟨c, List.mem_append_left _ hc, (Function.update_of_ne hcn ..).trans hx, hxj⟩
    · rintro ⟨c, hc, hq, rfl⟩
      have hcn : c ≠ t.next := by
        rintro rfl
        obtain rfl := Option.some.inj (hself.symm.trans hq)
        exact e rfl
      rcases List.mem_append.mp hc with hc | hc
      · exact h.look_eq hc ((Function.update_of_ne hcn ..).symm.trans hq)
      · exact absurd (Option.some.inj (List.mem_singleton.mp hc)) hcn

/-! ## semaphores do not touch the storage -/

theorem semPost_pipes (k : Kernel) (a : Nat) : (semPost k a).2.pipes = k.pipes := by
  unfold semPost
  split
  · split
    · rfl
    · split
      · simp only
        split <;> rfl
      · rfl
  · rfl

theorem semPosts_pipes (a n : Nat) (k : Kernel) : (semPosts a n k).pipes = k.pipes := by
  induction n generalizing k with
  | zero => rfl
  | succ n ih => exact (ih _).trans (semPost_pipes k a)

theorem wakeAll_pipes (k : Kernel) (a : Nat) : (wakeAll k a).pipes = k.pipes := semPosts_pipes ..

theorem semWait_pipes (k : Kernel) (a : Nat) : (semWait k a).2.pipes = k.pipes := by
  unfold semWait
  split
  · split
    · rfl
    · split
      · split
        · rfl
        · split <;> rfl
      · rfl
  · rfl

theorem announceExit_pipes (k : Kernel) (pid : Int) : (announceExit k pid).pipes = k.pipes := by
  unfold announceExit
  split
  · rfl
  · split
    · rfl
    · exact semPost_pipes ..

theorem windUp_pipes (k : Kernel) (p : Process) (pid : Int) :
    (windUp k p pid).pipes = (leavePipes k p pid).pipes := announceExit_pipes ..

/-! ## opening, attaching -/

theorem openPipe_look (h : k.pipes.Sane) (recycled : Nat → UInt8) :
    (openPipe k recycled).2.pipes = k.pipes ∨
    ∃ (id r w : Nat), (id : Int) = k.pipes.nextId ∧
      (openPipe k recycled).2.pipes = k.pipes.add (freshPipe id recycled r w) ∧
      (openPipe k recycled).2.pipes.Sane ∧ look (openPipe k recycled).2.pipes
        = Function.update (look k.pipes) id (some (freshPipe id recycled r w)) := by
  unfold openPipe
  split
  · exact Or.inl rfl
  · rename_i hne
    simp only
    split
    · exact Or.inl rfl
    · rename_i canRead r _
      split
      · exact Or.inl rfl
      · rename_i canWrite r' _
        have hid := h.wf.id_eq
        exact Or.inr ⟨_, canRead, canWrite, hid, rfl, h.add (p := freshPipe _ _ _ _) hne hid,
          look_add (p := freshPipe _ _ _ _) h hne hid⟩

def Pipe.joinReader (p : Pipe) : Pipe :=
  { p with readers := inc16 p.readers, attached := inc8 p.attached, expReaders := p.expReaders - 1 }

def Pipe.joinWriter (p : Pipe) : Pipe :=
  { p with writers := inc16 p.writers, attached := inc8 p.attached, expWriters := p.expWriters - 1 }

theorem update_look_none (hg : getValidPipe t i = none) {f : Option Pipe → Option Pipe}
    (hf : f none = none) : look t = Function.update (look t) i (f (look t i)) := by
  have hl : look t i = none := by
    unfold look
    rw [hg]
    rfl
  rw [hl, hf]
  exact (Function.update_eq_self_iff.mpr hl.symm).symm

theorem attachReader_look (h : k.pipes.Sane) (i : Nat) : (attachReader k i).2.pipes.Sane ∧
    look (attachReader k i).2.pipes
      = Function.update (look k.pipes) i ((look k.pipes i).map Pipe.joinReader) := by
  unfold attachReader
  cases hg : getValidPipe k.pipes i with
  | none => exact ⟨h, update_look_none (f := Option.map _) hg rfl⟩
  | some a => exact ⟨h.modify a fun _ _ => rfl, look_modify h hg fun _ _ => rfl⟩

theorem attachWriter_look (h : k.pipes.Sane) (i : Nat) : (attachWriter k i).2.pipes.Sane ∧
    look (attachWriter k i).2.pipes
      = Function.update (look k.pipes) i ((look k.pipes i).map Pipe.joinWriter) := by
  unfold attachWriter
  cases hg : getValidPipe k.pipes i with
  | none => exact ⟨h, update_look_none (f := Option.map _) hg rfl⟩
  | some a => exact ⟨h.modify a fun _ _ => rfl, look_modify h hg fun _ _ => rfl⟩

/-! ## detaching, closing -/

/-- no end is left and none is expected -/
def Pipe.gone (p : Pipe) : Bool :=
  p.readers == 0 && p.writers == 0 && p.expReaders == 0 && p.expWriters == 0

theorem Pipe.gone_iff (p : Pipe) : p.gone = true ↔
    p.readers = 0 ∧ p.writers = 0 ∧ p.expReaders = 0 ∧ p.expWriters = 0 := by
  unfold Pipe.gone
  rw [Bool.and_eq_true, Bool.and_eq_true, Bool.and_eq_true, beq_iff_eq, beq_iff_eq, beq_iff_eq,
    beq_iff_eq, and_assoc, and_assoc]

/-- the flag that the last reader clears when it wakes the writers -/
def Pipe.noReader (p : Pipe) : Pipe :=
  if p.readers = 0 ∧ p.waitingToWrite then { p with waitingToWrite := false } else p

def Pipe.noWriter (p : Pipe) : Pipe :=
  if p.writers = 0 ∧ p.waitingToRead then { p with waitingToRead := false } else p

/-- what a detach leaves of the pipe -/
def Pipe.detached (dec quiet : Pipe → Pipe) (p : Pipe) : Option Pipe :=
  if (dec p).gone then none else some (quiet (dec p))

theorem modify_congr {f g : Pipe → Pipe} (hp : t.heap a = some p) (hfg : f p = g p) :
    t.modify a f = t.modify a g := by
  unfold PipeStore.modify heapMod
  rw [hp, Option.map_some, Option.map_some, hfg]

theorem modify_self {f : Pipe → Pipe} (hp : t.heap a = some p) (hf : f p = p) :
    t.modify a f = t := by
  have hh : heapMod t.heap a f = t.heap := by
    unfold heapMod
    rw [hp, Option.map_some, hf]
    exact Function.update_eq_self_iff.mpr hp.symm
  unfold PipeStore.modify
  rw [hh]

theorem modify_modify (f g : Pipe → Pipe) : (t.modify a f).modify a g = t.modify a (g ∘ f) := by
  have hh : heapMod (heapMod t.heap a f) a g = heapMod t.heap a (g ∘ f) := by
    unfold heapMod
    rw [Function.update_self, Function.update_idem, Option.map_map]
  unfold PipeStore.modify
  rw [hh]

theorem detach_look {dec quiet : Pipe → Pipe} {wake : Kernel → Nat → Pipe → Kernel}
    (hdec : ∀ p, (dec p).id = p.id) (hquiet : ∀ p, (quiet p).id = p.id)
    (hw : ∀ (k : Kernel) a p, k.pipes.heap a = some p → (wake k a p).pipes = k.pipes.modify a quiet)
    (h : k.pipes.Sane) (i : Nat) (pid : Int) : (detach k i pid dec wake).pipes.Sane ∧
      look (detach k i pid dec wake).pipes
        = Function.update (look k.pipes) i ((look k.pipes i).bind (Pipe.detached dec quiet)) := by
  unfold detach
  cases hg : getValidPipe k.pipes i with
  | none => exact ⟨h, update_look_none (f := fun x => x.bind _) hg rfl⟩
  | some a =>
    obtain ⟨ha, p, hp, hid⟩ := getValidPipe_some hg
    have hl : look k.pipes i = some p := by rw [← hid]; exact h.look_eq ha hp
    simp only [hp]
    generalize removeFromSemaphore (removeFromSemaphore k.sems p.canRead pid) p.canWrite pid = r
    have hd : ((Kernel.modPipe { k with sems := r } a dec).pipes).heap a = some (dec p) := by
      show heapMod k.pipes.heap a dec a = _
      rw [heapMod_self, hp]
      rfl
    have hpipes : (wake (Kernel.modPipe { k with sems := r } a dec) a (dec p)).pipes
        = k.pipes.modify a (quiet ∘ dec) := by
      rw [hw _ _ _ hd]
      exact modify_modify dec quiet
    have hids : ∀ q, k.pipes.heap a = some q → ((quiet ∘ dec) q).id = q.id :=
      fun q _ => (hquiet (dec q)).trans (hdec q)
    have hsane := h.modify a hids
    have hlook := look_modify h hg hids
    have hself : (k.pipes.modify a (quiet ∘ dec)).heap a = some ((quiet ∘ dec) p) := by
      show heapMod k.pipes.heap a _ a = _
      rw [heapMod_self, hp]
      rfl
    rw [hl, Option.bind_some]
    unfold Pipe.detached
    by_cases hgone : (dec p).gone = true
    · rw [if_pos ((dec p).gone_iff.mp hgone), if_pos hgone,
        deletePipe_pipes (by rw [hpipes]; exact hself), hpipes]
      have hg' : getValidPipe (k.pipes.modify a (quiet ∘ dec)) i = some a :=
        hsane.getValidPipe_iff.mpr ⟨ha, _, hself, (hids p hp).trans hid⟩
      refine ⟨hsane.remove a, ?_⟩
      rw [look_remove hsane hg', hlook, Function.update_idem]
    · rw [if_neg fun hz => hgone ((dec p).gone_iff.mpr hz), if_neg hgone, hpipes]
      refine ⟨hsane, ?_⟩
      rw [hlook, hl]
      rfl

theorem detachReader_look (h : k.pipes.Sane) (i : Nat) (pid : Int) :
    (detachReader k i pid).pipes.Sane ∧ look (detachReader k i pid).pipes
      = Function.update (look k.pipes) i
        ((look k.pipes i).bind (Pipe.detached dropReader Pipe.noReader)) := by
  refine detach_look (fun p => ?_) (fun p => ?_) (fun k a p hp => ?_) h i pid
  · unfold dropReader
    split <;> rfl
  · unfold Pipe.noReader
    split <;> rfl
  · split
    · rename_i hc
      show (wakeAll k p.canWrite).pipes.modify a _ = _
      rw [wakeAll_pipes]
      exact modify_congr hp (if_pos hc).symm
    · rename_i hc
      exact (modify_self (f := Pipe.noReader) hp (if_neg hc)).symm

theorem detachWriter_look (h : k.pipes.Sane) (i : Nat) (pid : Int) :
    (detachWriter k i pid).pipes.Sane ∧ look (detachWriter k i pid).pipes
      = Function.update (look k.pipes) i
        ((look k.pipes i).bind (Pipe.detached dropWriter Pipe.noWriter)) := by
  refine detach_look (fun p => ?_) (fun p => ?_) (fun k a p hp => ?_) h i pid
  · unfold dropWriter
    split <;> rfl
  · unfold Pipe.noWriter
    split <;> rfl
  · split
    · rename_i hc
      show (wakeAll k p.canRead).pipes.modify a _ = _
      rw [wakeAll_pipes]
      exact modify_congr hp (if_pos hc).symm
    · rename_i hc
      exact (modify_self (f := Pipe.noWriter) hp (if_neg hc)).symm

/-- `closePipe` deletes a pipe with nobody attached, whatever is expected -/
theorem closePipe_look (h : k.pipes.Sane) (i : Nat) : (closePipe k i).2.pipes.Sane ∧
    look (closePipe k i).2.pipes
      = Function.update (look k.pipes) i ((look k.pipes i).filter fun p => p.attached != 0) := by
  unfold closePipe
  cases hg : getValidPipe k.pipes i with
  | none => exact ⟨h, update_look_none (f := Option.filter _) hg rfl⟩
  | some a =>
    obtain ⟨ha, p, hp, hid⟩ := getValidPipe_some hg
    have hl : look k.pipes i = some p := by rw [← hid]; exact h.look_eq ha hp
    have h2 : 2 ≤ i := hid ▸ h.low a p ha hp
    have hstd : ¬ (i = stdin ∨ i = stdout) := by
      show ¬ (i = 0 ∨ i = 1)
      omega
    have hwake : (if (i ≠ stdin ∧ i ≠ stdout) ∧ p.attached ≤ 1 then
        wakeAll (wakeAll k p.canRead) p.canWrite else k).pipes = k.pipes := by
      split
      · rw [wakeAll_pipes, wakeAll_pipes]
      · rfl
    simp only [hp]
    rw [hl]
    by_cases hat : p.attached = 0
    · rw [if_pos (Or.inl hat), deletePipe_pipes (p := p) (by rw [hwake]; exact hp), hwake,
        Option.filter_some, if_neg (by simp [hat])]
      exact ⟨h.remove a, look_remove h hg⟩
    · rw [if_neg (fun hc => hc.elim hat fun hc => hstd hc.1), hwake, Option.filter_some,
        if_pos (by simp [hat]), Function.update_eq_self_iff.mpr hl.symm]
      exact ⟨h, rfl⟩

/-! ## the ends of a dying process -/

/-- the ends of a dying process: detach, then close -/
def Pipe.left (dec quiet : Pipe → Pipe) (p : Pipe) : Option Pipe :=
  (p.detached dec quiet).filter fun p => p.attached != 0

theorem leaveReader_look (h : k.pipes.Sane) (hr : isPipe i = true) (pid : Int) :
    (leaveReader k i pid).pipes.Sane ∧ look (leaveReader k i pid).pipes
      = Function.update (look k.pipes) i
        ((look k.pipes i).bind (Pipe.left dropReader Pipe.noReader)) := by
  obtain ⟨hs, hl⟩ := detachReader_look h i pid
  obtain ⟨hs', hl'⟩ := closePipe_look hs i
  unfold leaveReader
  rw [if_pos hr]
  refine ⟨hs', ?_⟩
  rw [hl', hl, Function.update_self, Function.update_idem]
  cases look k.pipes i <;> rfl

theorem leaveWriter_look (h : k.pipes.Sane) (hw : isPipe i = true) (hne : i ≠ a) (pid : Int) :
    (leaveWriter k a i pid).pipes.Sane ∧ look (leaveWriter k a i pid).pipes
      = Function.update (look k.pipes) i
        ((look k.pipes i).bind (Pipe.left dropWriter Pipe.noWriter)) := by
  obtain ⟨hs, hl⟩ := detachWriter_look h i pid
  obtain ⟨hs', hl'⟩ := closePipe_look hs i
  unfold leaveWriter
  rw [if_pos hw]
  simp only
  rw [if_pos hne]
  refine ⟨hs', ?_⟩
  rw [hl', hl, Function.update_self, Function.update_idem]
  cases look k.pipes i <;> rfl

theorem leaveWriter_same (hw : isPipe i = true) (pid : Int) :
    leaveWriter k i i pid = detachWriter k i pid := by
  unfold leaveWriter
  rw [if_pos hw]
  exact if_neg (not_not_intro rfl)

/-- what the ends of a dying process leave of the pipe `x` with the id `i` -/
def leftPipe (r w i : Nat) (x : Option Pipe) : Option Pipe :=
  let x := if isPipe r ∧ i = r then x.bind (Pipe.left dropReader Pipe.noReader) else x
  if isPipe w ∧ i = w then
    if w = r then x.bind (Pipe.detached dropWriter Pipe.noWriter)
    else x.bind (Pipe.left dropWriter Pipe.noWriter)
  else x

theorem update_apply_bind {l : Nat → Option Pipe} (i j : Nat) (f : Pipe → Option Pipe) :
    Function.update l i ((l i).bind f) j = if j = i then (l j).bind f else l j := by
  by_cases e : j = i
  · rw [e, Function.update_self, if_pos rfl]
  · rw [Function.update_of_ne e, if_neg e]

theorem leavePipes_look (h : k.pipes.Sane) (p : Process) (pid : Int) :
    (leavePipes k p pid).pipes.Sane ∧ ∀ i, look (leavePipes k p pid).pipes i
      = leftPipe p.readTarget p.writeTarget i (look k.pipes i) := by
  unfold leavePipes
  generalize p.readTarget = r
  generalize p.writeTarget = w
  have hread : (leaveReader k r pid).pipes.Sane ∧ ∀ i, look (leaveReader k r pid).pipes i
      = if isPipe r ∧ i = r then (look k.pipes i).bind (Pipe.left dropReader Pipe.noReader)
        else look k.pipes i := by
    by_cases hr : isPipe r = true
    · obtain ⟨hs, hl⟩ := leaveReader_look h hr pid
      refine ⟨hs, fun i => ?_⟩
      rw [hl, update_apply_bind]
      by_cases e : i = r
      · rw [if_pos e, if_pos ⟨hr, e⟩]
      · rw [if_neg e, if_neg fun hc => e hc.2]
    · unfold leaveReader
      rw [if_neg hr]
      exact ⟨h, fun i => (if_neg fun hc => hr hc.1).symm⟩
  obtain ⟨hs, hl⟩ := hread
  generalize leaveReader k r pid = k' at hs hl
  by_cases hw : isPipe w = true
  · by_cases e : w = r
    · subst e
      rw [leaveWriter_same hw]
      obtain ⟨hs', hl'⟩ := detachWriter_look hs w pid
      refine ⟨hs', fun i => ?_⟩
      unfold leftPipe
      simp only
      rw [hl', update_apply_bind, hl i, if_pos trivial]
      generalize (if isPipe w = true ∧ i = w then
        (look k.pipes i).bind (Pipe.left dropReader Pipe.noReader) else look k.pipes i) = x
      by_cases ei : i = w
      · rw [if_pos ei, if_pos ⟨hw, ei⟩]
      · rw [if_neg ei, if_neg fun hc => ei hc.2]
    · obtain ⟨hs', hl'⟩ := leaveWriter_look hs hw e pid
      refine ⟨hs', fun i => ?_⟩
      unfold leftPipe
      simp only
      rw [hl', update_apply_bind, hl i, if_neg e]
      generalize (if isPipe r = true ∧ i = r then
        (look k.pipes i).bind (Pipe.left dropReader Pipe.noReader) else look k.pipes i) = x
      by_cases ei : i = w
      · rw [if_pos ei, if_pos ⟨hw, ei⟩]
      · rw [if_neg ei, if_neg fun hc => ei hc.2]
  · unfold leaveWriter
    rw [if_neg hw]
    refine ⟨hs, fun i => ?_⟩
    unfold leftPipe
    simp only
    rw [if_neg fun hc => hw hc.1]
    exact hl i

/-- the process that `kill_process` takes down -/
def victim (k : Kernel) (pid : Int) : Option Process :=
  if pid = 0 ∨ pid = 1 then none else (getProcess k.sched pid).bind k.sched.heap

theorem killProcess_pipes (k : Kernel) (pid : Int) : (killProcess k pid).2.pipes
    = (victim k pid).elim k.pipes fun p => (leavePipes k p pid).pipes := by
  unfold killProcess victim
  split
  · rfl
  · cases getProcess k.sched pid with
    | none => rfl
    | some a =>
      simp only [Option.bind_some]
      cases k.sched.heap a with
      | none => rfl
      | some p => exact windUp_pipes k p pid

theorem processTerminator_pipes {k' : Kernel} {c : Process} (hr : k.sched.running = some a)
    (hc : k.sched.heap a = some c) (hk : processTerminator k = some k') :
    k'.pipes = (leavePipes k c c.pid).pipes := by
  rw [Sched.processTerminator_eq hr hc] at hk
  obtain rfl := Option.some.inj hk
  exact windUp_pipes k c c.pid

/-! ## the ends of a new process -/

/-- what the ends of a new process make of the pipe `x` with the id `i` -/
def joinedPipe (r w i : Nat) (x : Option Pipe) : Option Pipe :=
  let x := if isPipe r ∧ i = r then x.map Pipe.joinReader else x
  if isPipe w ∧ i = w then x.map Pipe.joinWriter else x

/-- the two attachments of `create_process` -/
def joinPipes (k : Kernel) (r w : Nat) : Kernel :=
  let k := if isPipe r then (attachReader k r).2 else k
  if isPipe w then (attachWriter k w).2 else k

theorem joinPipes_look (h : k.pipes.Sane) (r w : Nat) : (joinPipes k r w).pipes.Sane ∧
    ∀ i, look (joinPipes k r w).pipes i = joinedPipe r w i (look k.pipes i) := by
  have hread : (if isPipe r then (attachReader k r).2 else k).pipes.Sane ∧
      ∀ i, look (if isPipe r then (attachReader k r).2 else k).pipes i
        = if isPipe r ∧ i = r then (look k.pipes i).map Pipe.joinReader else look k.pipes i := by
    by_cases hr : isPipe r = true
    · obtain ⟨hs, hl⟩ := attachReader_look h r
      rw [if_pos hr]
      refine ⟨hs, fun i => ?_⟩
      rw [hl]
      by_cases e : i = r
      · rw [e, Function.update_self, if_pos ⟨hr, rfl⟩]
      · rw [Function.update_of_ne e, if_neg fun hc => e hc.2]
    · rw [if_neg hr]
      exact ⟨h, fun i => (if_neg fun hc => hr hc.1).symm⟩
  obtain ⟨hs, hl⟩ := hread
  unfold joinPipes joinedPipe
  generalize (if isPipe r then (attachReader k r).2 else k) = k' at hs hl
  by_cases hw : isPipe w = true
  · obtain ⟨hs', hl'⟩ := attachWriter_look hs w
    simp only
    rw [if_pos hw]
    refine ⟨hs', fun i => ?_⟩
    rw [hl']
    by_cases e : i = w
    · rw [e, Function.update_self, if_pos ⟨hw, rfl⟩, hl w]
    · rw [Function.update_of_ne e, if_neg fun hc => e hc.2, hl i]
  · simp only
    rw [if_neg hw]
    exact ⟨hs, fun i => by rw [if_neg fun hc => hw hc.1]; exact hl i⟩

theorem attachReader_pipes {k' : Kernel} (hk : k'.pipes = k.pipes) (i : Nat) :
    (attachReader k' i).2.pipes = (attachReader k i).2.pipes := by
  unfold attachReader
  rw [hk]
  cases getValidPipe k.pipes i with
  | none => exact hk
  | some a =>
    show k'.pipes.modify a _ = k.pipes.modify a _
    rw [hk]

theorem attachWriter_pipes {k' : Kernel} (hk : k'.pipes = k.pipes) (i : Nat) :
    (attachWriter k' i).2.pipes = (attachWriter k i).2.pipes := by
  unfold attachWriter
  rw [hk]
  cases getValidPipe k.pipes i with
  | none => exact hk
  | some a =>
    show k'.pipes.modify a _ = k.pipes.modify a _
    rw [hk]

theorem joinPipes_pipes {k' : Kernel} (hk : k'.pipes = k.pipes) (r w : Nat) :
    (joinPipes k' r w).pipes = (joinPipes k r w).pipes := by
  have hread : (if isPipe r then (attachReader k' r).2 else k').pipes
      = (if isPipe r then (attachReader k r).2 else k).pipes := by
    split
    · exact attachReader_pipes hk r
    · exact hk
  unfold joinPipes
  simp only
  split
  · exact attachWriter_pipes hread w
  · exact hread

theorem publishProcess_pipes (k : Kernel) (p : Process) :
    (publishProcess k p).2.pipes = (joinPipes k p.readTarget p.writeTarget).pipes := by
  unfold publishProcess
  simp only
  refine joinPipes_pipes (k := k) ?_ p.readTarget p.writeTarget
  split
  · rfl
  · split <;> rfl

/-- `create_process` attaches the ends of the process it returns, and touches no pipe otherwise -/
theorem createProcess_pipes (k : Kernel) (args : CreateArgs) :
    (createProcess k args).2.pipes
      = if (createProcess k args).1.isSome then
          (joinPipes k (toTarget args.targets.1) (toTarget args.targets.2.1)).pipes
        else k.pipes := by
  rcases Sched.createProcess_cases k args with hk | ⟨pid, -, hk | ⟨argv, -, hk⟩⟩
  · rw [hk]
    rfl
  · rw [hk]
    rfl
  · rw [hk, publishProcess_pipes]
    refine Eq.trans ?_ (if_pos (show (some _ : Option Nat).isSome = true from rfl)).symm
    have hk : ({ k with sched := (enterChild k.sched pid).2 } : Kernel).pipes = k.pipes := rfl
    exact joinPipes_pipes hk _ _

/-- a process of a pipeline, with the given ends -/
def plumbArgs (name : List Char) (stackBase : Nat) (r w : Int) : CreateArgs :=
  { plainArgs name stackBase with targets := (r, w, 2) }

/-! ## transfers -/

/-- what a transfer does not change -/
def Pipe.fixtures (p : Pipe) : Nat × Nat × Nat × Nat × Nat × Nat :=
  (p.id, p.attached, p.readers, p.writers, p.expReaders, p.expWriters)

/-- the same pipes, with the same ends -/
structure PipeStore.Like (t t' : PipeStore) : Prop where
  storage : t'.storage = t.storage
  next : t'.next = t.next
  nextId : t'.nextId = t.nextId
  ends : ∀ a, (t'.heap a).map Pipe.fixtures = (t.heap a).map Pipe.fixtures

namespace PipeStore
variable {t' t'' : PipeStore}

theorem Like.refl (t : PipeStore) : t.Like t := ⟨rfl, rfl, rfl, fun _ => rfl⟩

theorem Like.trans (h : t.Like t') (h' : t'.Like t'') : t.Like t'' :=
  ⟨h'.storage.trans h.storage, h'.next.trans h.next, h'.nextId.trans h.nextId,
    fun a => (h'.ends a).trans (h.ends a)⟩

theorem like_modify (a : Nat) {f : Pipe → Pipe} (hf : ∀ p, t.heap a = some p → (f p).fixtures = p.fixtures) :
    t.Like (t.modify a f) := by
  refine ⟨rfl, rfl, rfl, fun b => ?_⟩
  by_cases e : b = a
  · subst e
    show (heapMod t.heap b f b).map _ = _
    rw [heapMod_self]
    cases hp : t.heap b with
    | none => rfl
    | some p => exact congrArg some (hf p hp)
  · show (heapMod t.heap a f b).map _ = _
    rw [heapMod_of_ne _ _ e]

theorem Like.back (h : t.Like t') {x : Pipe} (hx : t'.heap a = some x) :
    ∃ y, t.heap a = some y ∧ x.fixtures = y.fixtures := by
  have he := h.ends a
  rw [hx] at he
  obtain ⟨y, hy, hxy⟩ := Option.map_eq_some_iff.mp he.symm
  exact ⟨y, hy, hxy.symm⟩

theorem Like.sane (h : t.Like t') (hs : t.Sane) : t'.Sane := by
  have hid : ∀ {a x}, t'.heap a = some x → ∃ y, t.heap a = some y ∧ x.id = y.id := by
    intro a x hx
    obtain ⟨y, hy, he⟩ := h.back hx
    exact ⟨y, hy, congrArg Prod.fst he⟩
  have hmem : ∀ {a}, some a ∈ t'.storage → some a ∈ t.storage := fun ha => h.storage ▸ ha
  refine ⟨⟨h.nextId ▸ hs.wf.lo, h.nextId ▸ hs.wf.hi, fun c hc => ?_, fun c x hc hx => ?_⟩,
    fun c x hc hx => ?_, fun c hc => ?_, h.storage ▸ hs.nodup, fun c d x y hc hd hx hy he => ?_⟩
  · rw [h.next]
    exact hs.wf.lt c (hmem hc)
  · obtain ⟨y, hy, he⟩ := hid hx
    rw [he, h.nextId]
    exact hs.wf.ids c y (hmem hc) hy
  · obtain ⟨y, hy, he⟩ := hid hx
    rw [he]
    exact hs.low c y (hmem hc) hy
  · obtain ⟨y, hy⟩ := hs.live c (hmem hc)
    have hends := h.ends c
    rw [hy] at hends
    obtain ⟨x, hx, -⟩ := Option.map_eq_some_iff.mp hends
    exact ⟨x, hx⟩
  · obtain ⟨x', hx', hxe⟩ := hid hx
    obtain ⟨y', hy', hye⟩ := hid hy
    exact hs.inj c d x' y' (hmem hc) (hmem hd) hx' hy' (hxe.symm.trans (he.trans hye))

end PipeStore

theorem readLoop_ends (n : Nat) (p : Pipe) : (readLoop n p).2.fixtures = p.fixtures := by
  induction n generalizing p with
  | zero => rfl
  | succ n ih =>
    unfold readLoop
    split
    · rfl
    · exact ih _

theorem readResume_like (k : Kernel) (a n : Nat) : k.pipes.Like (readResume k a n).2.pipes := by
  unfold readResume
  split
  · exact .refl _
  · rename_i p hp
    have h1 : k.pipes.Like (k.modPipe a fun _ => (readLoop n p).2).pipes := by
      refine PipeStore.like_modify a fun q hq => ?_
      obtain rfl := Option.some.inj (hp.symm.trans hq)
      exact readLoop_ends n p
    simp only
    split
    · have hpost := semPost_pipes ((k.modPipe a fun _ => (readLoop n p).2).modPipe a
        fun p => { p with waitingToWrite := false }) (readLoop n p).2.canWrite
      have h2 := h1.trans (PipeStore.like_modify a
        (f := fun p => { p with waitingToWrite := false }) fun _ _ => rfl)
      split
      all_goals
        rename_i he
        rw [he] at hpost
        simp only at hpost
        rw [hpost]
        exact h2
    · exact h1

theorem readPipe_like (k : Kernel) (id n : Nat) : k.pipes.Like (readPipe k id n).2.pipes := by
  unfold readPipe
  split
  · exact .refl _
  · rename_i a _
    split
    · exact .refl _
    · rename_i p _
      split
      · split
        · exact .refl _
        · have h1 : k.pipes.Like (k.modPipe a fun p => { p with waitingToRead := true }).pipes :=
            PipeStore.like_modify a fun _ _ => rfl
          have hw := semWait_pipes (k.modPipe a fun p => { p with waitingToRead := true }) p.canRead
          simp only
          split
          all_goals
            rename_i k' he
            rw [he] at hw
            have h2 : k.pipes.Like k'.pipes := hw.symm ▸ h1
          · exact h2
          · exact h2.trans (readResume_like k' a n)
          · exact h2
      · exact readResume_like k a n

theorem writeFinish_like (k : Kernel) (a n : Nat) : k.pipes.Like (writeFinish k a n).2.pipes := by
  unfold writeFinish
  split
  · exact .refl _
  · rename_i p hp
    split
    · have h1 : k.pipes.Like (k.modPipe a fun p => { p with waitingToRead := false }).pipes :=
        PipeStore.like_modify a fun _ _ => rfl
      have hpost := semPost_pipes (k.modPipe a fun p => { p with waitingToRead := false }) p.canRead
      simp only
      split
      all_goals
        rename_i he
        rw [he] at hpost
        simp only at hpost
        rw [hpost]
        exact h1
    · exact .refl _

theorem writeLoop_like (a : Nat) (rest : List UInt8) :
    ∀ (n : Nat) (k : Kernel), k.pipes.Like (writeLoop a rest n k).2.pipes := by
  induction rest with
  | nil => exact fun n k => writeFinish_like k a n
  | cons b rest ih =>
    intro n k
    have hstore : ∀ k : Kernel, k.pipes.Like (k.modPipe a (storeByte b)).pipes :=
      fun k => PipeStore.like_modify a fun _ _ => rfl
    unfold writeLoop
    split
    · exact .refl _
    · rename_i p hp
      split
      · have h1 : k.pipes.Like (k.modPipe a fun p => { p with waitingToWrite := true }).pipes :=
          PipeStore.like_modify a fun _ _ => rfl
        have hw := semWait_pipes (k.modPipe a fun p => { p with waitingToWrite := true }) p.canWrite
        simp only
        split
        all_goals
          rename_i k' he
          rw [he] at hw
          have h2 : k.pipes.Like k'.pipes := hw.symm ▸ h1
        · exact h2
        · exact (h2.trans (hstore k')).trans (ih _ _)
        · exact h2
      · exact (hstore k).trans (ih _ _)

theorem writePipe_like (k : Kernel) (id : Nat) (data : List UInt8) :
    k.pipes.Like (writePipe k id data).2.pipes := by
  unfold writePipe
  split
  · exact .refl _
  · exact writeLoop_like _ _ _ _

theorem writeResume_like (k : Kernel) (a : Nat) (rest : List UInt8) (n : Nat) :
    k.pipes.Like (writeResume k a rest n).2.pipes := by
  unfold writeResume
  split
  · exact writeFinish_like k a n
  · rename_i b rest
    have h1 : k.pipes.Like (k.modPipe a (storeByte b)).pipes :=
      PipeStore.like_modify a fun _ _ => rfl
    exact h1.trans (writeLoop_like a rest (n + 1) (k.modPipe a (storeByte b)))

end

end Tp2So
