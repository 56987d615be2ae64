import Tp2So.Memory.BuddyRuns
import Tp2So.Memory.FirstFitRuns

/-!
# The contents of the live blocks

Clients store in the blocks that they have asked for, and the managers keep their links, sizes and
orders in the same memory.

* `Buddy.SameFields`, `FirstFit.SameFields`   the variables, links and headers of a manager are as they
                                              were;
* `Buddy.Kept`, `FirstFit.Kept`               the live blocks have room for what was asked for, and
                                              read back what was stored;
* `contents_kept`                             in every run, for both managers.
-/

set_option linter.unusedVariables false

namespace Tp2So

/-! ## the buddy system -/

namespace Buddy

/-- the static variables, the links of the free blocks and the headers of the live ones -/
structure SameFields (F : Nat → List Nat) (t t' : Client Buddy) : Prop where
  lists : t'.s.buddyLists = t.s.buddyLists
  region : t.s.SameRegion t'.s
  links : ∀ x ∈ blocksOf F, load64 t'.s.mem x.1 = load64 t.s.mem x.1
  headers : ∀ x ∈ t.live, ∀ i, i < metadataSize →
    t'.s.mem (x.1 - metadataSize + i) = t.s.mem (x.1 - metadataSize + i)

structure Kept (base total : Nat) (t : Client Buddy) (F : Nat → List Nat) (V : List (Nat × Nat)) :
    Prop where
  held : Held base total t F V
  room : ∀ x ∈ t.live, ∃ y ∈ V, y.1 + metadataSize = x.1 ∧ x.2 + metadataSize ≤ blockSize y.2
  reads : t.Reads manager

section
variable {s : Buddy} {F : Nat → List Nat} {V : List (Nat × Nat)} {a base total fuel size ptr : Nat}
  {x y : Nat × Nat} {t t' : Client Buddy} {v : UInt8} {o : MemOp}

theorem Laid.outside (h : Laid s F V []) (hy : y ∈ V) (h1 : y.1 + metadataSize ≤ a)
    (h2 : a < y.1 + blockSize y.2) (hx : x ∈ V ++ blocksOf F) :
    a < x.1 ∨ x.1 + metadataSize ≤ a := by
  have h8 := eight_le_blockSize x.2
  have h8' : metadataSize = 8 := rfl
  by_cases e : x = y
  · rw [e]
    exact Or.inr h1
  · have hap := h.ground.apart (h.live_mem hy) hx (Ne.symm e)
    simp only [Apart, span] at hap
    omega

/-- a byte of a live block, behind its header -/
theorem Laid.poke (h : Laid s F V []) (hy : y ∈ V) (h1 : y.1 + metadataSize ≤ a)
    (h2 : a < y.1 + blockSize y.2) : Laid { s with mem := Function.update s.mem a v } F V [] := by
  refine ⟨h.ground, ?_, ?_, h.single⟩
  · intro k hk
    refine (h.chain k hk).congr fun b hb => ?_
    have hout := h.outside (x := (b, k)) hy h1 h2
      (List.mem_append_right _ (mem_blocksOf.mpr ⟨hk, hb⟩))
    have hout' : a < b ∨ b + 8 ≤ a := hout
    apply load64_congr
    intro i h3 h4
    exact Function.update_of_ne (by omega) _ _
  · intro x hx
    have hout := h.outside hy h1 h2 (List.mem_append_left _ hx)
    have hne : x.1 ≠ a := by
      have h8 : metadataSize = 8 := rfl
      omega
    show (Function.update s.mem a v x.1).toNat = x.2
    rw [Function.update_of_ne hne]
    exact h.header x hx

theorem Kept.block (h : Kept base total t F V) (hx : x ∈ t.live) (h1 : x.1 ≤ a)
    (h2 : a < x.1 + x.2) : ∃ y ∈ V, y.1 + metadataSize = x.1 ∧ y.1 + metadataSize ≤ a ∧
      a < y.1 + blockSize y.2 := by
  obtain ⟨y, hy, hyx, hroom⟩ := h.room x hx
  exact ⟨y, hy, hyx, by omega, by omega⟩

theorem room_of_fits {target : Nat} (hfits : requiredSpace size ≤ blockSize target)
    (hsize : size + 15 < 18446744073709551616) : size + metadataSize ≤ blockSize target := by
  have h8 : metadataSize = 8 := rfl
  have hwrap : wrap64 (size + metadataSize) = size + metadataSize := wrap64_of_lt (by omega)
  have hle : wrap64 (size + metadataSize) ≤ requiredSpace size := by
    unfold requiredSpace
    simp only
    split <;> omega
  omega

theorem Kept.alloc (h : Kept base total t F V) (hsize : size + 15 < 18446744073709551616)
    (he : execMem manager (.alloc fuel size) t = some t') : ∃ F' V', Kept base total t' F' V' := by
  rcases h.held.alloc he with rfl | ⟨a, target, F', hfits, hlive, hwritten, hheld, hint⟩
  · exact ⟨F, V, h⟩
  refine ⟨F', _, hheld, ?_, ?_⟩
  · intro x hx
    rw [hlive] at hx
    rcases List.mem_cons.mp hx with rfl | hx
    · exact ⟨_, List.mem_cons_self, rfl, room_of_fits hfits hsize⟩
    · obtain ⟨y, hy, hroom⟩ := h.room x hx
      exact ⟨y, List.mem_cons_of_mem _ hy, hroom⟩
  · refine h.reads.step he (fun a v b => ?_) fun _ x _ hx b h1 h2 => ?_
    · exact Function.update_apply _ _ _ _
    · obtain ⟨y, hy, -, h3, h4⟩ := h.block hx h1 h2
      exact hint y hy b (by omega) h4

theorem Kept.free (h : Kept base total t F V)
    (he : execMem manager (.free fuel ptr) t = some t') : ∃ F' V', Kept base total t' F' V' := by
  obtain ⟨x, y, F', hx, -, hy, hyx, hlive, hwritten, hheld, hint⟩ := h.held.free he
  -- the blocks of the other pointers are still there
  have hstay : ∀ z ∈ t'.live, ∃ w ∈ V.erase y, w.1 + metadataSize = z.1 ∧
      z.2 + metadataSize ≤ blockSize w.2 := by
    intro z hz
    obtain ⟨w, hw, hwz⟩ := hheld.mem hz
    rw [hlive] at hz
    obtain ⟨w', hw', hwz', hroom⟩ := h.room z (List.mem_of_mem_erase hz)
    have hmem := h.held.laid.live_mem (List.mem_of_mem_erase hw)
    obtain rfl : w = w' := h.held.laid.ground.same_start hmem (h.held.laid.live_mem hw') (by omega)
    exact ⟨w, hw, hwz, hroom⟩
  refine ⟨F', _, hheld, hstay, ?_⟩
  refine h.reads.step he (fun a v b => ?_) fun _ z hz _ b h1 h2 => ?_
  · exact Function.update_apply _ _ _ _
  · obtain ⟨w, hw, hwz, hroom⟩ := hstay z hz
    exact hint w hw b (by omega) (by omega)

theorem Kept.store (h : Kept base total t F V)
    (he : execMem manager (.store a v) t = some t') :
    Kept base total t' F V ∧ SameFields F t t' := by
  obtain ⟨⟨x, hx, h1, h2⟩, rfl⟩ := execMem_store he
  obtain ⟨y, hy, hyx, h3, h4⟩ := h.block hx h1 h2
  have hlaid := h.held.laid
  refine ⟨⟨⟨hlaid.poke hy h3 h4, h.held.start, h.held.total, h.held.live⟩, h.room, ?_⟩,
    ⟨rfl, ⟨rfl, rfl⟩, ?_, ?_⟩⟩
  · refine h.reads.step he (fun a v b => ?_) fun hcall => ?_
    · exact Function.update_apply _ _ _ _
    · cases hcall
  · intro z hz
    have hout : a < z.1 ∨ z.1 + 8 ≤ a := hlaid.outside hy h3 h4 (List.mem_append_right _ hz)
    apply load64_congr
    intro i h5 h6
    exact Function.update_of_ne (by omega) _ _
  · intro z hz i hi
    obtain ⟨w, hw, hwz⟩ := h.held.mem hz
    have hout := hlaid.outside hy h3 h4 (List.mem_append_left _ hw)
    exact Function.update_of_ne (by omega) _ _

/-- **One step.** -/
theorem kept_step (h : Kept base total t F V) (ho : o.modestTo total = true)
    (he : execMem manager o t = some t') : ∃ F' V', Kept base total t' F' V' := by
  cases o with
  | alloc fuel size =>
    have hsize : size ≤ total := of_decide_eq_true ho
    obtain ⟨K, hK, htop⟩ := h.held.laid.ground.top
    have hle : blockSize K ≤ 268435456 := blockSize_le hK
    have htotal := h.held.total
    exact h.alloc (by omega) he
  | free fuel ptr => exact h.free he
  | store a v => exact ⟨F, V, (h.store he).1⟩

end

end Buddy

/-! ## first fit -/

namespace FirstFit

/-- the static variables, the headers on the ring and those of the live blocks -/
structure SameFields (f : List (Nat × Nat)) (t t' : Client FirstFit) : Prop where
  base : t'.s.base = t.s.base
  freep : t'.s.freep = t.s.freep
  totals : t'.s.totalMemSize = t.s.totalMemSize ∧ t'.s.freeMemSize = t.s.freeMemSize
  ring : ∀ p ∈ t.s.base :: f.map Prod.fst, t'.s.ptr p = t.s.ptr p ∧ t'.s.size p = t.s.size p
  headers : ∀ x ∈ t.live, t'.s.ptr (x.1 - unitSize) = t.s.ptr (x.1 - unitSize) ∧
    t'.s.size (x.1 - unitSize) = t.s.size (x.1 - unitSize)

structure Kept (base lo hi : Nat) (t : Client FirstFit) (f V : List (Nat × Nat)) : Prop where
  held : Held base lo hi t f V
  room : ∀ x ∈ t.live, ∃ y ∈ V, y.1 + 16 = x.1 ∧ x.2 + 16 ≤ y.2 * 16
  reads : t.Reads manager

section
variable {s : FirstFit} {f V : List (Nat × Nat)} {a base lo hi fuel size ptr : Nat} {x y : Nat × Nat}
  {t t' : Client FirstFit} {v : UInt8} {o : MemOp}

theorem Spread.outside (h : Spread base lo hi f V) (hy : y ∈ V) (h1 : y.1 + 16 ≤ a)
    (h2 : a < y.1 + y.2 * 16) (hx : x ∈ V ++ nodes base f) : a < x.1 ∨ x.1 + 16 ≤ a := by
  by_cases e : x.1 = y.1
  · rw [e]
    exact Or.inr h1
  · have hc := h.clear hx (List.mem_append_left _ hy) e
    omega

theorem fields_poke (h : a < ptr ∨ ptr + 16 ≤ a) :
    (manager.write s a v).ptr ptr = s.ptr ptr ∧ (manager.write s a v).size ptr = s.size ptr := by
  constructor
  · apply load64_congr
    intro i h1 h2
    exact Function.update_of_ne (by omega) _ _
  · apply load64_congr
    intro i h1 h2
    exact Function.update_of_ne (by omega) _ _

theorem Strung.poke (h : Strung s lo hi f V) (hy : y ∈ V) (h1 : y.1 + 16 ≤ a)
    (h2 : a < y.1 + y.2 * 16) : Strung (manager.write s a v) lo hi f V := by
  refine ⟨h.spread, ?_, ?_, h.freep⟩
  · refine h.ring.congr fun p hp => ?_
    obtain ⟨x, hx, rfl⟩ := List.mem_map.mp hp
    exact (fields_poke (h.spread.outside hy h1 h2 (List.mem_append_right _ hx))).1
  · intro x hx
    rw [(fields_poke (h.spread.outside hy h1 h2 hx)).2]
    exact h.sizes x hx

theorem Kept.block (h : Kept base lo hi t f V) (hx : x ∈ t.live) (h1 : x.1 ≤ a)
    (h2 : a < x.1 + x.2) : ∃ y ∈ V, y.1 + 16 = x.1 ∧ y.1 + 16 ≤ a ∧ a < y.1 + y.2 * 16 := by
  obtain ⟨y, hy, hyx, hroom⟩ := h.room x hx
  exact ⟨y, hy, hyx, by omega, by omega⟩

theorem room_of_units (h : size + 15 < 18446744073709551616) :
    size + 16 ≤ requestUnits size * 16 := by
  have hwrap : wrap64 (size + unitSize - 1) = size + 15 := wrap64_of_lt (show size + 15 < _ from h)
  have hunits : requestUnits size = (size + 15) / 16 + 1 := by
    unfold requestUnits
    simp only [hwrap]
    exact if_neg (Nat.not_lt.mpr (Nat.le_add_left 1 _))
  rw [hunits]
  omega

theorem Kept.alloc (h : Kept base lo hi t f V) (hsize : size + 15 < 18446744073709551616)
    (he : execMem manager (.alloc fuel size) t = some t') : ∃ f' V', Kept base lo hi t' f' V' := by
  rcases h.held.alloc he with rfl | ⟨b, f', hlive, hwritten, hheld, hint⟩
  · exact ⟨f, V, h⟩
  refine ⟨f', _, hheld, ?_, ?_⟩
  · intro x hx
    rw [hlive] at hx
    rcases List.mem_cons.mp hx with rfl | hx
    · exact ⟨_, List.mem_cons_self, rfl, room_of_units hsize⟩
    · obtain ⟨y, hy, hroom⟩ := h.room x hx
      exact ⟨y, List.mem_cons_of_mem _ hy, hroom⟩
  · refine h.reads.step he (fun a v b => ?_) fun _ x _ hx b h1 h2 => ?_
    · exact Function.update_apply _ _ _ _
    · obtain ⟨y, hy, -, h3, h4⟩ := h.block hx h1 h2
      exact hint y hy b (by omega) h4

theorem Kept.free (h : Kept base lo hi t f V)
    (he : execMem manager (.free fuel ptr) t = some t') : ∃ f' V', Kept base lo hi t' f' V' := by
  obtain ⟨x, y, f', hx, -, hy, hyx, hlive, hwritten, hheld, hint⟩ := h.held.free he
  have hstay : ∀ z ∈ t'.live, ∃ w ∈ V.erase y, w.1 + 16 = z.1 ∧ z.2 + 16 ≤ w.2 * 16 := by
    intro z hz
    obtain ⟨w, hw, hwz⟩ := hheld.mem hz
    rw [hlive] at hz
    obtain ⟨w', hw', hwz', hroom⟩ := h.room z (List.mem_of_mem_erase hz)
    have hmem := List.mem_append_left (nodes t.s.base f) (List.mem_of_mem_erase hw)
    obtain rfl : w = w' := h.held.strung.spread.same_start hmem (List.mem_append_left _ hw')
      (by omega)
    exact ⟨w, hw, hwz, hroom⟩
  refine ⟨f', _, hheld, hstay, ?_⟩
  refine h.reads.step he (fun a v b => ?_) fun _ z hz _ b h1 h2 => ?_
  · exact Function.update_apply _ _ _ _
  · obtain ⟨w, hw, hwz, hroom⟩ := hstay z hz
    exact hint w hw b (by omega) (by omega)

theorem Kept.store (h : Kept base lo hi t f V)
    (he : execMem manager (.store a v) t = some t') :
    Kept base lo hi t' f V ∧ SameFields f t t' := by
  obtain ⟨⟨x, hx, h1, h2⟩, rfl⟩ := execMem_store he
  obtain ⟨y, hy, hyx, h3, h4⟩ := h.block hx h1 h2
  have hstr := h.held.strung
  refine ⟨⟨⟨hstr.poke hy h3 h4, h.held.base, h.held.total, h.held.freeMem, h.held.live⟩, h.room, ?_⟩,
    ⟨rfl, rfl, ⟨rfl, rfl⟩, ?_, ?_⟩⟩
  · refine h.reads.step he (fun a v b => ?_) fun hcall => ?_
    · exact Function.update_apply _ _ _ _
    · cases hcall
  · intro p hp
    obtain ⟨z, hz, rfl⟩ := List.mem_map.mp (show p ∈ (nodes t.s.base f).map Prod.fst from hp)
    exact fields_poke (hstr.spread.outside hy h3 h4 (List.mem_append_right _ hz))
  · intro z hz
    obtain ⟨w, hw, hwz⟩ := h.held.mem hz
    have hptr : z.1 - unitSize = w.1 := by
      unfold unitSize
      omega
    rw [hptr]
    exact fields_poke (hstr.spread.outside hy h3 h4 (List.mem_append_left _ hw))

/-- **One step.** -/
theorem kept_step (h : Kept base lo hi t f V) (ho : o.modestTo (hi - lo) = true)
    (he : execMem manager o t = some t') : ∃ f' V', Kept base lo hi t' f' V' := by
  cases o with
  | alloc fuel size =>
    have hsize : size ≤ hi - lo := of_decide_eq_true ho
    have hbelow := h.held.strung.spread.below
    have hbound := h.held.strung.spread.bound
    exact h.alloc (by omega) he
  | free fuel ptr => exact h.free he
  | store a v => exact ⟨f, V, (h.store he).1⟩

end

end FirstFit

/-! ## both -/

/-- a run of calls that are no larger than the region and of stores to the bytes that were asked for -/
def ModestRun {σ : Type} (M : Manager σ) (total : Nat) (os : List MemOp) (s : σ) (t : Client σ) :
    Prop :=
  Runs (execMem M) (fun o _ => o.modestTo total) os (.start s) t

theorem Buddy.kept_run {os : List MemOp} {base n : Nat} {t : Client Buddy} (s : Buddy)
    (hn : minBlockSize ≤ n) (hb : 0 < base) (hbound : base + n ≤ 18446744073709551616)
    (h : ModestRun manager (s.mmInit base n).totalManagedBytes os (s.mmInit base n) t) :
    ∃ F V, Kept base (s.mmInit base n).totalManagedBytes t F V := by
  obtain ⟨F, V, hF⟩ := held_start s hn hb hbound
  refine Runs.inv (I := fun t => ∃ F V, Kept base (s.mmInit base n).totalManagedBytes t F V)
    (fun o t u ht ho he => by
      obtain ⟨F, V, ht⟩ := ht
      exact kept_step ht ho he) h ⟨F, V, hF, fun x hx => absurd hx List.not_mem_nil, ?_⟩
  exact fun x hx => absurd hx List.not_mem_nil

theorem FirstFit.kept_run {os : List MemOp} {start n : Nat} {t : Client FirstFit} (s : FirstFit)
    (hn : 16 ≤ n) (hb : s.base + 16 ≤ start)
    (hbound : start + n / 16 * 16 < 18446744073709551616)
    (h : ModestRun manager (s.mmInit start n).totalMemSize os (s.mmInit start n) t) :
    ∃ f V, Kept s.base start (start + n / 16 * 16) t f V := by
  have htotal : (s.mmInit start n).totalMemSize = start + n / 16 * 16 - start :=
    (held_start s hn hb hbound).total
  rw [htotal] at h
  refine Runs.inv (I := fun t => ∃ f V, Kept s.base start (start + n / 16 * 16) t f V)
    (fun o t u ht ho he => by
      obtain ⟨f, V, ht⟩ := ht
      exact kept_step ht ho he) h
    ⟨_, _, held_start s hn hb hbound, fun x hx => absurd hx List.not_mem_nil, ?_⟩
  exact fun x hx => absurd hx List.not_mem_nil

/-- **Live blocks keep their contents.**  In every run, a byte of a live block reads back the last value
that a client has stored there, and a store leaves everything that the manager reads as it was. -/
theorem contents_kept :
    (∀ (s : Buddy) (base n : Nat) (os : List MemOp) (t : Client Buddy), minBlockSize ≤ n →
      0 < base → base + n ≤ 18446744073709551616 →
      ModestRun Buddy.manager (s.mmInit base n).totalManagedBytes os (s.mmInit base n) t →
      t.Reads Buddy.manager ∧
        ∃ F, Buddy.BuddySound base (s.mmInit base n).totalManagedBytes t F ∧
          ∀ a v t', execMem Buddy.manager (.store a v) t = some t' → Buddy.SameFields F t t') ∧
    (∀ (s : FirstFit) (start n : Nat) (os : List MemOp) (t : Client FirstFit), 16 ≤ n →
      s.base + 16 ≤ start → start + n / 16 * 16 < 18446744073709551616 →
      ModestRun FirstFit.manager (s.mmInit start n).totalMemSize os (s.mmInit start n) t →
      t.Reads FirstFit.manager ∧
        ∃ f, FirstFit.FirstFitSound s.base start (start + n / 16 * 16) t f ∧
          ∀ a v t', execMem FirstFit.manager (.store a v) t = some t' →
            FirstFit.SameFields f t t') := by
  constructor
  · intro s base n os t hn hb hbound h
    obtain ⟨F, V, hk⟩ := Buddy.kept_run s hn hb hbound h
    exact ⟨hk.reads, F, hk.held.sound, fun a v t' he => (hk.store he).2⟩
  · intro s start n os t hn hb hbound h
    obtain ⟨f, V, hk⟩ := FirstFit.kept_run s hn hb hbound h
    exact ⟨hk.reads, f, hk.held.sound, fun a v t' he => (hk.store he).2⟩

/-- a byte is stored in the first of two blocks, and the second comes and goes -/
def busyBuddy : List MemOp := [.alloc 8 100, .store 4110 7, .alloc 8 5000, .free 8 12296]

def busyFirstFit : List MemOp := [.alloc 8 20, .store 4330 7, .alloc 8 40, .free 8 4256]

theorem contents_kept_busy :
    (∃ t, ModestRun Buddy.manager (Buddy.blank.mmInit 4096 16384).totalManagedBytes busyBuddy
        (Buddy.blank.mmInit 4096 16384) t ∧ t.live = [(4104, 100)] ∧ t.written 4110 = some 7 ∧
      t.s.mem 4110 = 7) ∧
    ∃ t, ModestRun FirstFit.manager (FirstFit.blank.mmInit 4096 256).totalMemSize busyFirstFit
        (FirstFit.blank.mmInit 4096 256) t ∧ t.live = [(4320, 20)] ∧ t.written 4330 = some 7 ∧
      t.s.mem 4330 = 7 := by
  constructor
  · have hrun : (runIf (execMem Buddy.manager)
        (fun o _ => o.modestTo (Buddy.blank.mmInit 4096 16384).totalManagedBytes) busyBuddy
        (.start (Buddy.blank.mmInit 4096 16384))).map (fun t => (t.live, t.written 4110))
        = some ([(4104, 100)], some 7) := by
      decide +kernel
    obtain ⟨t, ht, he⟩ := Option.map_eq_some_iff.mp hrun
    obtain ⟨hlive, hwritten⟩ := Prod.mk.inj he
    have h := runs_of_runIf ht
    have hreads := (contents_kept.1 Buddy.blank 4096 16384 busyBuddy t (by decide) (by decide)
      (by decide) h).1
    exact ⟨t, h, hlive, hwritten, hreads (4104, 100) (by rw [hlive]; exact List.mem_cons_self) 4110
      (by decide) (by decide) 7 hwritten⟩
  · have hrun : (runIf (execMem FirstFit.manager)
        (fun o _ => o.modestTo (FirstFit.blank.mmInit 4096 256).totalMemSize) busyFirstFit
        (.start (FirstFit.blank.mmInit 4096 256))).map (fun t => (t.live, t.written 4330))
        = some ([(4320, 20)], some 7) := by
      decide +kernel
    obtain ⟨t, ht, he⟩ := Option.map_eq_some_iff.mp hrun
    obtain ⟨hlive, hwritten⟩ := Prod.mk.inj he
    have h := runs_of_runIf ht
    have hreads := (contents_kept.2 FirstFit.blank 4096 256 busyFirstFit t (by decide) (by decide)
      (by decide) h).1
    exact ⟨t, h, hlive, hwritten, hreads (4320, 20) (by rw [hlive]; exact List.mem_cons_self) 4330
      (by decide) (by decide) 7 hwritten⟩

end Tp2So
