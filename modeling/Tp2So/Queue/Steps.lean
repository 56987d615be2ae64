import Tp2So.Queue.Chain

/-!
# What the operations do to the chain

One lemma for each operation of `Tp2So.Queue.Pointers`: on a heap in which the queue at `h` is the list
queue `q` it reads and frees live blocks only, gives what the list says, and the queue becomes the
list queue after the operation.

* `enqueue_spec`, `dequeue_spec`, `queueRemove_spec`          a node is linked in or taken out;
* `queueBeginCyclicIter_spec`, `queueNextCyclicIter_spec`     the cursor is set;
* `queueElementExists_spec`                                   the search, which leaves the cursor behind
  the first match.
-/

namespace Tp2So.Pointers

section
variable {α : Type} {own own' : Nat → Option Nat} {m m' : Blocks α} {h : Nat} {c : QueueCDT α}
  {es : List (Entry α)} {cmp : α → α → Bool} {q : Queue α}

/-! ## the cursor is set -/

theorem Holds.setCursor (hq : Holds own m h c es cmp q) {i : Nat} (hi : i < es.length)
    {iter : Option Nat} (hiter : iter = es[i]?.map Entry.node) :
    Becomes own m h cmp { q with cyclicIter := some i }
      (m.store h (.cdt { c with cyclicIter := iter })) := by
  have hother : ∀ a, a ≠ h → (m.store h (.cdt { c with cyclicIter := iter })) a = m a :=
    fun a ha => store_of_ne ha
  have hc := hq.chain.congr fun e he => ⟨hother _ (hq.node_ne he), hother _ (hq.block_ne he)⟩
  refine ⟨own, { c with cyclicIter := iter }, es, ⟨fun a ha _ => hother a ?_, fun _ _ _ => rfl⟩, ?_⟩
  · rintro rfl
    exact ha hq.owned
  · exact
      { record := store_self ..
        owned := hq.owned
        entries := hq.entries
        chain := ⟨hc.node, hc.data, hc.linked, hc.nodes, hc.blocks, hc.tail, hc.count⟩
        cmp := hq.cmp
        elems := hq.elems
        cursor := hiter
        inside := fun j hj => Option.some.inj hj ▸ hi }

theorem queueBeginCyclicIter_spec (hq : Holds own m h c es cmp q) :
    ∃ m', queueBeginCyclicIter (some h) m = some (!q.elems.isEmpty, m') ∧
      Becomes own m h cmp (Tp2So.queueBeginCyclicIter q) m' := by
  unfold queueBeginCyclicIter Tp2So.queueBeginCyclicIter
  simp only [cdtAt_eq hq.record, Option.bind_some]
  by_cases hes : es = []
  · rw [if_pos (hq.chain.head_ne.mpr hes), hq.elems, hes, if_pos List.map_nil]
    exact ⟨m, rfl, hq.becomes⟩
  · have hne : q.elems ≠ [] := by rw [hq.elems]; exact fun h => hes (List.map_eq_nil_iff.mp h)
    have hpos : 0 < es.length := List.length_pos_iff.mpr hes
    rw [if_neg (fun h => hes (hq.chain.head_ne.mp h)), if_neg hne]
    refine ⟨_, ?_, hq.setCursor hpos (hq.chain.head.trans ?_)⟩
    · rw [List.isEmpty_eq_false_iff.mpr hne]
      rfl
    · rw [List.head?_eq_getElem?]

theorem queueNextCyclicIter_spec (hq : Holds own m h c es cmp q) :
    (q.cyclicIter = none ∧ queueNextCyclicIter (some h) true m = some (none, m)) ∨
    ∃ i x m', q.cyclicIter = some i ∧ q.elems[i]? = some x ∧
      queueNextCyclicIter (some h) true m = some (some x, m') ∧
      Becomes own m h cmp (cursorAt q (i + 1)) m' := by
  unfold queueNextCyclicIter
  simp only [cdtAt_eq hq.record, Option.bind_some, hq.cursor]
  cases hi : q.cyclicIter with
  | none => exact Or.inl ⟨rfl, rfl⟩
  | some i =>
    right
    have hlt := hq.inside i hi
    have he : es[i]? = some es[i] := List.getElem?_eq_getElem hlt
    have hx : q.elems[i]? = some es[i].value := by rw [hq.elems, List.getElem?_map, he]; rfl
    have hlen : q.elems.length = es.length := by rw [hq.elems, List.length_map]
    simp only [Option.bind_some, he, Option.map_some, nodeAt_eq (hq.chain.node_at he),
      dataAt_eq (hq.chain.data _ (List.getElem_mem hlt)), if_true]
    refine ⟨i, _, _, rfl, hx, rfl, ?_⟩
    unfold cursorAt
    rw [hlen]
    by_cases hnext : i + 1 < es.length
    · rw [if_pos hnext]
      refine hq.setCursor hnext ?_
      rw [List.getElem?_eq_getElem hnext]
      rfl
    · have hnone : es[i + 1]? = none := List.getElem?_eq_none (Nat.le_of_not_lt hnext)
      rw [if_neg hnext, hnone]
      refine hq.setCursor (Nat.lt_of_le_of_lt (Nat.zero_le i) hlt) (hq.chain.head.trans ?_)
      rw [List.head?_eq_getElem?]

theorem queueCyclicIterLooped_spec (hq : Holds own m h c es cmp q) :
    queueCyclicIterLooped (some h) m = some (Tp2So.queueCyclicIterLooped q) := by
  unfold queueCyclicIterLooped Tp2So.queueCyclicIterLooped
  simp only [cdtAt_eq hq.record, Option.bind_some, hq.cursor, hq.chain.head]
  cases hi : q.cyclicIter with
  | none => rfl
  | some i =>
    have hlt := hq.inside i hi
    have hnode : es[i]?.map Entry.node = some es[i].node := by
      rw [List.getElem?_eq_getElem hlt]
      rfl
    simp only [Option.bind_some, hnode]
    rw [List.head?_eq_getElem?]
    congr 1
    rw [Bool.eq_iff_iff, decide_eq_true_iff, beq_iff_eq, Option.some_inj]
    constructor
    · intro heq
      exact hq.chain.node_inj hnode heq.symm
    · intro h0
      rw [← h0, hnode]

theorem queuePeek_spec (hq : Holds own m h c es cmp q) :
    queuePeek (some h) m = some q.elems.head? := by
  unfold queuePeek
  simp only [cdtAt_eq hq.record, Option.bind_some, hq.chain.head, hq.elems]
  cases es with
  | nil => rfl
  | cons e es =>
    have he : e ∈ e :: es := List.mem_cons_self
    obtain ⟨next, hn⟩ := hq.chain.node e he
    simp only [List.head?_cons, Option.map_some, nodeAt_eq hn, dataAt_eq (hq.chain.data e he),
      Option.bind_some, List.map_cons]

theorem queueSize_spec (hq : Holds own m h c es cmp q) :
    queueSize (some h) m = some q.elems.length := by
  unfold queueSize
  simp only [cdtAt_eq hq.record, Option.bind_some]
  rw [hq.chain.count, hq.elems, List.length_map]

/-! ## a node is linked in -/

theorem Chain.single {e : Entry α} (he : m e.node = some (.node ⟨none, e.block⟩))
    (hd : m e.block = some (.data e.value)) (hhead : c.head = some e.node)
    (htail : c.tail = some e.node) (hcount : c.elemCount = 1) : Chain m c [e] where
  node f hf := by
    rw [List.mem_singleton.mp hf]
    exact ⟨none, he⟩
  data f hf := by
    rw [List.mem_singleton.mp hf]
    exact hd
  linked := ⟨hhead, succ_eq he⟩
  nodes := List.nodup_singleton _
  blocks := List.nodup_singleton _
  tail := htail
  count := hcount

/-- `m₁` is the heap with the new node and its data block, the queue's record not written yet -/
theorem linkLast_spec {m₁ : Blocks α} {e : Entry α} (hq : Holds own m h c es cmp q)
    (hsame : ∀ a, m a ≠ none → m₁ a = m a) (hnode : m₁ e.node = some (.node ⟨none, e.block⟩))
    (hdata : m₁ e.block = some (.data e.value)) (hn : m e.node = none) (hd : m e.block = none) :
    ∃ m' c', linkLast h e.node m₁ = some m' ∧ m' h = some (.cdt c') ∧ Chain m' c' (es ++ [e]) ∧
      c'.cmp = c.cmp ∧ c'.cyclicIter = c.cyclicIter ∧
      ∀ a, own a ≠ some h → m a ≠ none → m' a = m a := by
  have hlive : ∀ {a}, m a = none → a ≠ h := by
    rintro a ha rfl
    exact Option.some_ne_none _ (hq.record.symm.trans ha)
  have hrecord : m₁ h = some (.cdt c) :=
    (hsame h fun hno => hlive hno rfl).trans hq.record
  have hown : ∀ {a}, own a ≠ some h → a ≠ h := by
    rintro a ha rfl
    exact ha hq.owned
  unfold linkLast
  rw [cdtAt_eq hrecord, Option.bind_some]
  rcases es.eq_nil_or_concat' with rfl | ⟨l, t, rfl⟩
  · rw [if_pos (hq.chain.head_ne.mpr rfl)]
    refine ⟨_, _, rfl, store_self .., ?_, rfl, rfl, fun a ha ham => ?_⟩
    · refine Chain.single ?_ ?_ rfl rfl ?_
      · rw [store_of_ne (hlive hn), hnode]
      · rw [store_of_ne (hlive hd), hdata]
      · show c.elemCount + 1 = 1
        rw [hq.chain.count, List.length_nil]
    · rw [store_of_ne (hown ha), hsame a ham]
  · have ht : t ∈ l ++ [t] := List.mem_append_right l (List.mem_singleton_self t)
    have htail : c.tail = some t.node := by rw [hq.chain.tail, List.getLast?_concat, Option.map_some]
    have htm : m t.node = some (.node ⟨none, t.block⟩) := hq.chain.node_middle
    have ht₁ : m₁ t.node = some (.node ⟨none, t.block⟩) :=
      (hsame _ (by rw [htm]; exact Option.some_ne_none _)).trans htm
    have hne : ∀ {a}, m a = none → a ≠ t.node := by
      rintro a ha rfl
      exact Option.some_ne_none _ (htm.symm.trans ha)
    have hhead : c.head ≠ none := by
      rw [Ne, hq.chain.head_ne]
      simp
    rw [if_neg hhead, htail, Option.bind_some, nodeAt_eq ht₁, Option.bind_some]
    generalize hm' : Blocks.store _ h _ = m'
    generalize hc' : QueueCDT.mk _ _ _ _ _ _ = c' at hm'
    have hfar : ∀ a, a ≠ h → a ≠ t.node → m' a = m₁ a := by
      intro a hah hat
      rw [← hm', store_of_ne hah, store_of_ne hat]
    refine ⟨m', c', rfl, by rw [← hm', store_self], ?_, by rw [← hc'], by rw [← hc'], ?_⟩
    · refine hq.chain.append ?_ ?_ ?_ ?_ ?_ hn hd (by rw [← hc']) (by rw [← hc']) (by rw [← hc'])
      · rw [← hm', store_of_ne (hq.node_ne ht), store_self]
      · rw [hfar _ (hlive hn) (hne hn), hnode]
      · rw [hfar _ (hlive hd) (hne hd), hdata]
      · intro f hf
        have hf' : f ∈ l ++ [t] := List.mem_append_left _ hf
        rw [hfar _ (hq.node_ne hf') (hq.chain.node_notMem f (List.mem_append_left _ hf)),
          hsame _ (hq.live.2 f hf').1]
      · intro f hf
        rw [hfar _ (hq.block_ne hf) (hq.chain.node_ne_block ht hf).symm, hsame _ (hq.live.2 f hf).2]
    · intro a ha ham
      have hat : a ≠ t.node := by
        rintro rfl
        exact ha (hq.entries t ht).1
      rw [hfar a (hown ha) hat, hsame a ham]

theorem enqueue_spec (hq : Holds own m h c es cmp q) (x : α) {new d : Nat} (hn : m new = none)
    (hd : m d = none) (hne : new ≠ d) :
    ∃ m', enqueue (some h) (some x) (some new) (some d) m = some (true, m') ∧
      Becomes own m h cmp (Tp2So.enqueue q x) m' := by
  have hsame : ∀ a, m a ≠ none →
      ((m.store new .raw).store d (.data x)).store new (.node ⟨none, d⟩) a = m a := by
    intro a ha
    have hnew : a ≠ new := by
      rintro rfl
      exact ha hn
    have hdata : a ≠ d := by
      rintro rfl
      exact ha hd
    rw [store_of_ne hnew, store_of_ne hdata, store_of_ne hnew]
  obtain ⟨m', c', hlink, hrecord, hchain, hcmp, hiter, hfar⟩ :=
    linkLast_spec (e := ⟨new, d, x⟩) hq hsame (store_self ..)
      (by rw [store_of_ne hne.symm, store_self]) hn hd
  have hold : ∀ a, m a ≠ none →
      Function.update (Function.update own new (some h)) d (some h) a = own a := by
    intro a ha
    have hnew : a ≠ new := by
      rintro rfl
      exact ha hn
    have hdata : a ≠ d := by
      rintro rfl
      exact ha hd
    rw [Function.update_of_ne hdata, Function.update_of_ne hnew]
  refine ⟨m', ?_, Function.update (Function.update own new (some h)) d (some h), c', es ++ [⟨new, d, x⟩],
    ⟨hfar, fun a _ ha => hold a ha⟩, ?_⟩
  · unfold enqueue
    dsimp only
    rw [hlink, Option.bind_some]
  · exact
      { record := hrecord
        owned := (hold h hq.live.1).trans hq.owned
        entries := fun f hf => by
          rcases List.mem_append.mp hf with hf | hf
          · rw [hold _ (hq.live.2 f hf).1, hold _ (hq.live.2 f hf).2]
            exact hq.entries f hf
          · rw [List.mem_singleton.mp hf]
            exact ⟨(Function.update_of_ne hne ..).trans (Function.update_self ..), Function.update_self ..⟩
        chain := hchain
        cmp := hcmp.trans hq.cmp
        elems := by rw [enqueue_elems, hq.elems, List.map_append, List.map_singleton]
        cursor := by
          rw [hiter, hq.cursor]
          show q.cyclicIter.bind _ = q.cyclicIter.bind _
          cases hi : q.cyclicIter with
          | none => rfl
          | some i => rw [Option.bind_some, Option.bind_some, List.getElem?_append_left (hq.inside i hi)]
        inside := fun i hi => by
          rw [List.length_append]
          exact Nat.lt_add_right _ (hq.inside i hi) }

/-! ## a node is taken out -/

/-- the cursor's node after the one between `l₁` and `l₂` is taken out -/
theorem cursor_removed {l₁ l₂ : List (Entry α)} {e : Entry α} {i : Nat}
    (hi : i < (l₁ ++ e :: l₂).length) :
    (cursorRemoved l₁.length (l₁ ++ l₂).length i).bind (fun j => (l₁ ++ l₂)[j]?.map Entry.node) =
      if i = l₁.length then l₂.head?.map Entry.node else (l₁ ++ e :: l₂)[i]?.map Entry.node := by
  unfold cursorRemoved
  rw [List.length_append, List.length_cons] at hi
  by_cases hc : i = l₁.length
  · rw [if_pos hc, if_pos hc]
    by_cases hlt : l₁.length < (l₁ ++ l₂).length
    · rw [if_pos hlt, Option.bind_some, List.getElem?_append_right (Nat.le_refl _), Nat.sub_self,
        List.head?_eq_getElem?]
    · have hnil : l₂ = [] := by
        rw [List.length_append] at hlt
        exact List.eq_nil_of_length_eq_zero (by omega)
      rw [if_neg hlt, hnil]
      rfl
  · rw [if_neg hc, if_neg hc]
    by_cases hlt : l₁.length < i
    · rw [if_pos hlt, Option.bind_some, List.getElem?_append_right (by omega),
        List.getElem?_append_right (by omega)]
      obtain ⟨k, rfl⟩ : ∃ k, i = l₁.length + k + 1 := ⟨i - l₁.length - 1, by omega⟩
      rw [show l₁.length + k + 1 - 1 - l₁.length = k by omega,
        show l₁.length + k + 1 - l₁.length = k + 1 by omega, List.getElem?_cons_succ]
    · rw [if_neg hlt, Option.bind_some, List.getElem?_append_left (by omega),
        List.getElem?_append_left (by omega)]

theorem cursorRemoved_lt {n i c j : Nat} (hc : c < n + 1) (h : cursorRemoved i n c = some j)
    (hi : i ≤ n) : j < n := by
  unfold cursorRemoved at h
  split at h
  · split at h
    · obtain rfl := Option.some.inj h
      assumption
    · cases h
  · split at h
    · obtain rfl := Option.some.inj h
      omega
    · obtain rfl := Option.some.inj h
      omega

theorem setNext_spec {l₁ l₂ : List (Entry α)} {e : Entry α} (hc : Chain m c (l₁ ++ e :: l₂))
    (next : Option Nat) :
    ∃ m', setNext (l₁.getLast?.map Entry.node) next m = some m' ∧
      (∀ t, l₁.getLast? = some t → m' t.node = some (.node ⟨next, t.block⟩)) ∧
      ∀ a, some a ≠ l₁.getLast?.map Entry.node → m' a = m a := by
  rcases l₁.eq_nil_or_concat' with rfl | ⟨l, t, rfl⟩
  · refine ⟨m, rfl, ?_, fun _ _ => rfl⟩
    intro t ht
    cases ht
  · obtain ⟨n, hn⟩ := hc.node t (by simp)
    rw [List.getLast?_concat]
    refine ⟨m.store t.node (.node ⟨next, t.block⟩), ?_, ?_, ?_⟩
    · show ((m.nodeAt t.node).bind fun n => some (m.store t.node (.node { n with next := next }))) = _
      rw [nodeAt_eq hn]
      rfl
    · intro t' ht'
      rw [← Option.some.inj ht', store_self]
    · intro a ha
      exact store_of_ne fun h => ha (congrArg some h)

theorem Chain.tail_removed {l₁ l₂ : List (Entry α)} {e : Entry α} (hc : Chain m c (l₁ ++ e :: l₂)) :
    (if c.tail = some e.node then l₁.getLast?.map Entry.node else c.tail) =
      (l₁ ++ l₂).getLast?.map Entry.node := by
  rw [hc.tail]
  rcases l₂.eq_nil_or_concat' with rfl | ⟨l, t, rfl⟩
  · rw [List.getLast?_concat, Option.map_some, if_pos rfl, List.append_nil]
  · have ht : t.node ≠ e.node :=
      hc.node_notMem t (List.mem_append_right _ (List.mem_append_right _ (List.mem_singleton_self t)))
    rw [← List.cons_append, ← List.append_assoc, ← List.append_assoc, List.getLast?_concat,
      List.getLast?_concat, Option.map_some, if_neg fun h => ht (Option.some.inj h)]

theorem Chain.head_removed {l₁ l₂ : List (Entry α)} {e : Entry α} (hc : Chain m c (l₁ ++ e :: l₂)) :
    (if l₁.getLast?.map Entry.node = none then l₂.head?.map Entry.node else c.head) =
      (l₁ ++ l₂).head?.map Entry.node := by
  rw [hc.head]
  cases l₁ with
  | nil => rfl
  | cons f l₁ =>
    have hlast : (f :: l₁).getLast?.map Entry.node ≠ none := by simp
    rw [if_neg hlast]
    rfl

theorem Holds.cursor_removed {l₁ l₂ : List (Entry α)} {e : Entry α}
    (hq : Holds own m h c (l₁ ++ e :: l₂) cmp q) :
    (if c.cyclicIter = some e.node then l₂.head?.map Entry.node else c.cyclicIter) =
      (q.cyclicIter.bind (cursorRemoved l₁.length (l₁ ++ l₂).length)).bind
        fun j => (l₁ ++ l₂)[j]?.map Entry.node := by
  rw [hq.cursor]
  cases hi : q.cyclicIter with
  | none => rfl
  | some i =>
    have he : (l₁ ++ e :: l₂)[l₁.length]?.map Entry.node = some e.node := by
      rw [List.getElem?_append_right (Nat.le_refl _), Nat.sub_self]
      rfl
    rw [Option.bind_some, Option.bind_some, Pointers.cursor_removed (hq.inside i hi)]
    by_cases hc : i = l₁.length
    · rw [if_pos hc, if_pos (hc ▸ he)]
    · rw [if_neg hc, if_neg fun h => hc (hq.chain.node_inj h he)]

theorem removeNode_spec {l₁ l₂ : List (Entry α)} {e : Entry α}
    (hq : Holds own m h c (l₁ ++ e :: l₂) cmp q) :
    ∃ m', removeNode h (l₁.getLast?.map Entry.node) e.node ⟨l₂.head?.map Entry.node, e.block⟩ m =
        some m' ∧
      Becomes own m h cmp (cutQueue q (l₁.map Entry.value) (l₂.map Entry.value)) m' := by
  have he : e ∈ l₁ ++ e :: l₂ := List.mem_append_right l₁ List.mem_cons_self
  have hsub : List.Sublist (l₁ ++ l₂) (l₁ ++ e :: l₂) := (List.sublist_cons_self e l₂).append_left l₁
  obtain ⟨m₁, hset, hprev, hrest⟩ := setNext_spec hq.chain (l₂.head?.map Entry.node)
  have hlast : ∀ f ∈ l₁ ++ e :: l₂, some f.block ≠ l₁.getLast?.map Entry.node := by
    intro f hf heq
    obtain ⟨t, ht, htf⟩ := Option.map_eq_some_iff.mp heq.symm
    exact hq.chain.node_ne_block (List.mem_append_left _ (List.mem_of_getLast? ht)) hf htf
  have hnode : some e.node ≠ l₁.getLast?.map Entry.node := by
    intro heq
    obtain ⟨t, ht, hte⟩ := Option.map_eq_some_iff.mp heq.symm
    exact hq.chain.node_notMem t (List.mem_append_left _ (List.mem_of_getLast? ht)) hte
  have hfree₁ := mmFree_eq ((hrest _ (hlast e he)).trans (hq.chain.data e he))
  have hne : e.node ≠ e.block := hq.chain.node_ne_block he he
  have hnode₁ : Function.update m₁ e.block none e.node =
      some (.node ⟨l₂.head?.map Entry.node, e.block⟩) := by
    rw [Function.update_of_ne hne, hrest _ hnode]
    exact hq.chain.node_middle
  have hfree₂ := mmFree_eq hnode₁
  unfold removeNode
  simp only [cdtAt_eq hq.record, Option.bind_some, hset, hfree₁, hfree₂]
  refine ⟨_, rfl, ?_⟩
  generalize hc' : QueueCDT.mk _ _ _ _ _ _ = c'
  generalize hm' : Blocks.store _ h _ = m'
  have hrest' : ∀ a, a ≠ h → a ≠ e.node → a ≠ e.block → m' a = m₁ a := by
    intro a hah hae hab
    rw [← hm', store_of_ne hah, Function.update_of_ne hae, Function.update_of_ne hab]
  have hfar : ∀ f ∈ l₁ ++ l₂, m' f.node = m₁ f.node ∧ m' f.block = m₁ f.block := by
    intro f hf
    have hf' := hsub.subset hf
    exact ⟨hrest' _ (hq.node_ne hf') (hq.chain.node_notMem f hf) (hq.chain.node_ne_block hf' he),
      hrest' _ (hq.block_ne hf') (hq.chain.node_ne_block he hf').symm (hq.chain.block_notMem f hf)⟩
  refine ⟨own, c', l₁ ++ l₂, ⟨fun a ha _ => ?_, fun _ _ _ => rfl⟩, ?_⟩
  · have hprev' : some a ≠ l₁.getLast?.map Entry.node := by
      intro heq
      obtain ⟨t, ht, rfl⟩ := Option.map_eq_some_iff.mp heq.symm
      exact ha (hq.entries t (List.mem_append_left _ (List.mem_of_getLast? ht))).1
    refine (hrest' a ?_ ?_ ?_).trans (hrest a hprev')
    · rintro rfl
      exact ha hq.owned
    · rintro rfl
      exact ha (hq.entries e he).1
    · rintro rfl
      exact ha (hq.entries e he).2
  · exact
      { record := by rw [← hm', store_self]
        owned := hq.owned
        entries := fun f hf => hq.entries f (hsub.subset hf)
        chain := hq.chain.remove
          (fun t ht => ((hfar t (List.mem_append_left _ (List.mem_of_getLast? ht))).1).trans (hprev t ht))
          (fun f hf hne => (hfar f hf).1.trans (hrest _ hne))
          (fun f hf => (hfar f hf).2.trans (hrest _ (hlast f (hsub.subset hf))))
          (by rw [← hc']; exact hq.chain.head_removed)
          (by rw [← hc']; exact hq.chain.tail_removed)
          (by rw [← hc'])
        cmp := by rw [← hc']; exact hq.cmp
        elems := (List.map_append ..).symm
        cursor := by
          rw [← hc']
          refine hq.cursor_removed.trans ?_
          unfold cutQueue
          rw [List.length_map, ← List.map_append, List.length_map]
        inside := fun j hj => by
          unfold cutQueue at hj
          rw [List.length_map, ← List.map_append, List.length_map] at hj
          obtain ⟨i, hi, hj⟩ := Option.bind_eq_some_iff.mp hj
          have hlt := hq.inside i hi
          rw [List.length_append, List.length_cons] at hlt
          refine cursorRemoved_lt ?_ hj ?_
          · rw [List.length_append]
            exact hlt
          · rw [List.length_append]
            exact Nat.le_add_right .. }

/-- the loop of `queueRemove` behind the entries `l₁`, none of which matches -/
theorem queueRemoveLoop_spec {x : α} {turns : Nat} :
    ∀ (l₁ l₂ : List (Entry α)), Holds own m h c (l₁ ++ l₂) cmp q → l₂.length < turns →
      (∀ f ∈ l₁, cmp f.value x = false) →
      (∃ m', queueRemoveLoop cmp h x turns (l₁.getLast?.map Entry.node) (l₂.head?.map Entry.node) m =
          some (q.elems.any (fun y => cmp y x), m') ∧
        Becomes own m h cmp (Tp2So.queueRemove cmp q x) m') := by
  induction turns with
  | zero => exact fun _ l₂ _ ht => absurd ht (Nat.not_lt_zero _)
  | succ turns ih =>
    intro l₁ l₂ hq ht hl₁
    cases l₂ with
    | nil =>
      have hall : ∀ y ∈ q.elems, cmp y x = false := by
        intro y hy
        rw [hq.elems, List.append_nil] at hy
        obtain ⟨f, hf, rfl⟩ := List.mem_map.mp hy
        exact hl₁ f hf
      have hany : q.elems.any (fun y => cmp y x) = false := by
        rw [List.any_eq_false]
        intro y hy
        rw [hall y hy]
        exact Bool.false_ne_true
      have hsame : Tp2So.queueRemove cmp q x = q := by
        unfold Tp2So.queueRemove
        rw [List.findIdx?_eq_none_iff.mpr hall]
      rw [hany, hsame]
      exact ⟨m, rfl, hq.becomes⟩
    | cons e l₂ =>
      have he : e ∈ l₁ ++ e :: l₂ := List.mem_append_right l₁ List.mem_cons_self
      rw [List.head?_cons, Option.map_some]
      unfold queueRemoveLoop
      simp only [nodeAt_eq hq.chain.node_middle, dataAt_eq (hq.chain.data e he), Option.bind_some]
      by_cases hx : cmp e.value x = true
      · obtain ⟨m', hm', hbec⟩ := removeNode_spec hq
        have hsplit : q.elems = l₁.map Entry.value ++ e.value :: l₂.map Entry.value := by
          rw [hq.elems, List.map_append, List.map_cons]
        have hl : ∀ y ∈ l₁.map Entry.value, cmp y x = false := by
          intro y hy
          obtain ⟨f, hf, rfl⟩ := List.mem_map.mp hy
          exact hl₁ f hf
        have hany : q.elems.any (fun y => cmp y x) = true := by
          rw [hsplit]
          exact List.any_eq_true.mpr ⟨e.value, List.mem_append_right _ List.mem_cons_self, hx⟩
        rw [if_pos hx, hm', Option.bind_some, hany, queueRemove_cut hsplit hx hl]
        exact ⟨m', rfl, hbec⟩
      · have hfalse : cmp e.value x = false := Bool.eq_false_iff.mpr hx
        rw [if_neg hx]
        have hl : ∀ f ∈ l₁ ++ [e], cmp f.value x = false := by
          intro f hf
          rcases List.mem_append.mp hf with hf | hf
          · exact hl₁ f hf
          · rw [List.mem_singleton.mp hf]
            exact hfalse
        have hrec := ih (l₁ ++ [e]) l₂ (by rw [List.append_assoc]; exact hq)
          (Nat.lt_of_succ_lt_succ ht) hl
        rwa [List.getLast?_concat] at hrec

theorem queueRemove_spec (hq : Holds own m h c es cmp q) (x : α) :
    ∃ m', queueRemove (some h) x m = some (q.elems.any (fun y => cmp y x), m') ∧
      Becomes own m h cmp (Tp2So.queueRemove cmp q x) m' := by
  have hrun := queueRemoveLoop_spec (x := x) [] es hq (Nat.lt_succ_self _) fun f hf => absurd hf (by simp)
  unfold queueRemove
  simp only [cdtAt_eq hq.record, Option.bind_some, hq.cmp]
  by_cases hes : es = []
  · subst hes
    rw [if_pos (hq.chain.head_ne.mpr rfl)]
    exact hrun
  · rw [if_neg (fun h => hes (hq.chain.head_ne.mp h)), hq.chain.head, hq.chain.count]
    exact hrun

/-- where the first node is the only one, the cursor stands on it or is `NULL` -/
theorem Holds.dequeue_next {e : Entry α} (hq : Holds own m h c (e :: es) cmp q) :
    (if es.head?.map Entry.node = none then none
      else if c.cyclicIter = some e.node then es.head?.map Entry.node else c.cyclicIter) =
      if c.cyclicIter = some e.node then es.head?.map Entry.node else c.cyclicIter := by
  by_cases hnext : es.head?.map Entry.node = none
  · rw [if_pos hnext, hnext]
    split
    · rfl
    · rename_i hiter
      have hnil : es = [] := by rwa [Option.map_eq_none_iff, List.head?_eq_none_iff] at hnext
      rw [hq.cursor] at hiter ⊢
      cases hi : q.cyclicIter with
      | none => rfl
      | some i =>
        have hlt := hq.inside i hi
        rw [hnil, List.length_singleton, Nat.lt_one_iff] at hlt
        rw [hi, hlt] at hiter
        exact absurd rfl hiter
  · rw [if_neg hnext]

theorem Chain.dequeue_tail {e : Entry α} (hc : Chain m c (e :: es)) :
    (if es.head?.map Entry.node = none then none else c.tail) =
      if c.tail = some e.node then none else c.tail := by
  have hcut : Chain m c ([] ++ e :: es) := hc
  have hremoved := hcut.tail_removed
  rw [List.getLast?_nil, Option.map_none, List.nil_append] at hremoved
  rw [hremoved]
  cases es with
  | nil => rfl
  | cons f es =>
    rw [hc.tail, List.getLast?_cons_cons]
    rfl

theorem dequeue_eq_removeNode {e : Entry α} (hq : Holds own m h c (e :: es) cmp q) :
    dequeue (some h) m =
      (removeNode h none e.node ⟨es.head?.map Entry.node, e.block⟩ m).bind
        fun m => some (some e.value, m) := by
  have hcut : Chain m c ([] ++ e :: es) := hq.chain
  have hnode := hcut.node_middle
  unfold dequeue removeNode setNext
  simp only [cdtAt_eq hq.record, Option.bind_some, hq.chain.head, List.head?_cons, Option.map_some,
    nodeAt_eq hnode, dataAt_eq (hq.chain.data e List.mem_cons_self), Option.bind_assoc, if_true,
    hq.dequeue_next, hq.chain.dequeue_tail]

theorem Holds.dequeue_cursor {e : Entry α} (hq : Holds own m h c (e :: es) cmp q) :
    (if es.map Entry.value = [] then none
      else q.cyclicIter.bind (cursorRemoved 0 (es.map Entry.value).length)) =
      q.cyclicIter.bind (cursorRemoved 0 (es.map Entry.value).length) := by
  by_cases hnil : es.map Entry.value = []
  · rw [if_pos hnil, hnil]
    cases hi : q.cyclicIter with
    | none => rfl
    | some i =>
      have hlt := hq.inside i hi
      rw [List.map_eq_nil_iff.mp hnil, List.length_singleton, Nat.lt_one_iff] at hlt
      rw [hlt]
      rfl
  · rw [if_neg hnil]

theorem dequeue_spec (hq : Holds own m h c es cmp q) :
    (q.elems = [] ∧ dequeue (some h) m = some (none, m)) ∨
    ∃ x q' m', Tp2So.dequeue q = some (x, q') ∧ dequeue (some h) m = some (some x, m') ∧
      Becomes own m h cmp q' m' := by
  cases es with
  | nil =>
    left
    unfold dequeue
    refine ⟨hq.elems, ?_⟩
    simp only [cdtAt_eq hq.record, Option.bind_some, hq.chain.head_ne.mpr rfl]
  | cons e es =>
    right
    have helems : q.elems = e.value :: es.map Entry.value := hq.elems
    obtain ⟨m', hm', hbec⟩ := removeNode_spec (show Holds own m h c ([] ++ e :: es) cmp q from hq)
    rw [List.getLast?_nil, Option.map_none] at hm'
    refine ⟨e.value, _, m', ?_, ?_, hbec⟩
    · unfold Tp2So.dequeue
      simp only [helems, hq.dequeue_cursor]
      rfl
    · rw [dequeue_eq_removeNode hq, hm', Option.bind_some]

/-! ## the search -/

/-- `n` turns are left, and the cursor stands `n` nodes before the end of the chain -/
theorem queueElementExistsLoop_spec {x : α} {n : Nat} :
    ∀ {m : Blocks α} {c : QueueCDT α} {es : List (Entry α)} {q : Queue α} {own : Nat → Option Nat}
      (i : Nat) (held : Option α), Holds own m h c es cmp q → i + n = q.elems.length →
      q.cyclicIter = some (if i < q.elems.length then i else 0) →
      ∃ m', queueElementExistsLoop h x true n held m =
          some ((q.elems.drop i).any (fun y => cmp y x), m') ∧
        Becomes own m h cmp (cursorAt q (i + (q.elems.drop i).findIdx (fun y => cmp y x) + 1)) m' := by
  induction n with
  | zero =>
    intro m c es q own i held hq hn hc
    have hnil : q.elems.drop i = [] := List.drop_eq_nil_of_le (by omega)
    have hsame : cursorAt q (i + 0 + 1) = q := by
      rw [if_neg (by omega)] at hc
      unfold cursorAt
      rw [if_neg (by omega), ← hc]
    rw [hnil, List.findIdx_nil, hsame]
    exact ⟨m, rfl, hq.becomes⟩
  | succ n ih =>
    intro m c es q own i held hq hn hc
    have hi : i < q.elems.length := by omega
    have hdrop : q.elems.drop i = q.elems[i] :: q.elems.drop (i + 1) := List.drop_eq_getElem_cons hi
    rw [if_pos hi] at hc
    rcases queueNextCyclicIter_spec hq with ⟨hnone, -⟩ | ⟨j, y, m₁, hj, hy, hnext, own₁, c₁, es₁, hm₁, hq₁⟩
    · exact absurd (hc.symm.trans hnone) (Option.some_ne_none _)
    · obtain rfl : i = j := Option.some.inj (hc.symm.trans hj)
      rw [List.getElem?_eq_getElem hi] at hy
      obtain rfl := Option.some.inj hy
      unfold queueElementExistsLoop
      simp only [hnext, Option.bind_some, Option.some_or, cdtAt_eq hq₁.record, hq₁.cmp]
      rw [hdrop, List.any_cons, List.findIdx_cons]
      by_cases hx : cmp q.elems[i] x = true
      · rw [if_pos hx, hx]
        exact ⟨m₁, rfl, own₁, c₁, es₁, hm₁, hq₁⟩
      · obtain ⟨m', hrun, hbec⟩ := ih (i + 1) (some q.elems[i]) hq₁ (by
          show i + 1 + n = q.elems.length
          omega) rfl
        rw [if_neg hx, Bool.eq_false_iff.mpr hx, Bool.false_or, cond_false, ← Nat.add_assoc,
          Nat.add_right_comm i _ 1]
        exact ⟨m', hrun, hm₁.becomes hbec⟩

/-- the search between the allocation of its buffer and the `mm_free` -/
theorem search_spec (hq : Holds own m h c es cmp q) (hes : es ≠ []) (x : α) :
    ∃ b m₁ m₂, queueBeginCyclicIter (some h) m = some (b, m₁) ∧
      queueElementExistsLoop h x true es.length none m₁ = some (q.elems.any (fun y => cmp y x), m₂) ∧
      Becomes own m h cmp (searched cmp q x) m₂ := by
  have hlen : es.length = q.elems.length := by rw [hq.elems, List.length_map]
  have hne : q.elems ≠ [] := by rw [hq.elems]; exact fun h => hes (List.map_eq_nil_iff.mp h)
  have hpos : 0 < q.elems.length := List.length_pos_iff.mpr hne
  obtain ⟨m₁, hbegin, own₁, c₁, es₁, hm₁, hr₁⟩ := queueBeginCyclicIter_spec hq
  have hcursor : (Tp2So.queueBeginCyclicIter q).cyclicIter =
      some (if 0 < (Tp2So.queueBeginCyclicIter q).elems.length then 0 else 0) := by
    unfold Tp2So.queueBeginCyclicIter
    rw [if_neg hne, ite_self]
  obtain ⟨m₂, hrun, hbec⟩ := queueElementExistsLoop_spec (x := x) (n := es.length) 0 none hr₁
    (by rw [queueBeginCyclicIter_elems, Nat.zero_add, hlen]) hcursor
  refine ⟨_, m₁, m₂, hbegin, ?_, hm₁.becomes ?_⟩
  · rw [hrun, queueBeginCyclicIter_elems, List.drop_zero]
  · have hsearched : searched cmp q x = cursorAt (Tp2So.queueBeginCyclicIter q)
        (0 + ((Tp2So.queueBeginCyclicIter q).elems.drop 0).findIdx (fun y => cmp y x) + 1) := by
      unfold searched cursorAt Tp2So.queueBeginCyclicIter
      rw [if_neg hne, if_neg hne, List.drop_zero, Nat.zero_add]
    rw [hsearched]
    exact hbec

theorem queueElementExists_spec (hq : Holds own m h c es cmp q) (x : α) {buffer : Option Nat}
    (hb : ∀ b, buffer = some b → m b = none) (hnull : buffer = none → q.elems = []) :
    ∃ m', queueElementExists (some h) x buffer m = some (q.elems.any (fun y => cmp y x), m') ∧
      Becomes own m h cmp (searched cmp q x) m' := by
  unfold queueElementExists queueSize
  simp only [cdtAt_eq hq.record, Option.bind_some, hq.chain.count]
  cases buffer with
  | none =>
    have hes : es = [] := List.map_eq_nil_iff.mp (hq.elems.symm.trans (hnull rfl))
    unfold queueBeginCyclicIter searched
    simp only [cdtAt_eq hq.record, Option.bind_some, hq.chain.head_ne.mpr hes, hnull rfl, hes, if_true,
      List.length_nil]
    exact ⟨m, rfl, hq.becomes⟩
  | some b =>
    have hfresh := hb b rfl
    have hother : ∀ a, m a ≠ none → a ≠ b := by
      rintro a ha rfl
      exact ha hfresh
    have hq₁ : Holds (Function.update own b none) (m.store b .raw) h c es cmp q :=
      hq.congr fun a _ ha => ⟨store_of_ne (hother a ha), Function.update_of_ne (hother a ha) ..⟩
    by_cases hes : es = []
    · have hnil : q.elems = [] := by rw [hq.elems, hes, List.map_nil]
      unfold queueBeginCyclicIter searched
      simp only [cdtAt_eq hq₁.record, Option.bind_some, hq.chain.head_ne.mpr hes, hnil, hes, if_true,
        List.length_nil]
      refine ⟨m, ?_, hq.becomes⟩
      show ((m.store b .raw).mmFree b).bind _ = _
      rw [mmFree_store hfresh]
      rfl
    · obtain ⟨r, m₁, m₂, hbegin, hrun, own₂, c₂, es₂, hm₂, hr₂⟩ := search_spec hq₁ hes x
      -- the buffer is nobody's block, so that it is still there after the search
      have hstill : m₂ b = some .raw := by
        rw [hm₂.blocks b (by rw [Function.update_self]; exact (Option.some_ne_none h).symm)
          (by rw [store_self]; exact Option.some_ne_none _), store_self]
      have hnobody : own₂ b ≠ some h := by
        rw [hm₂.owners b (by rw [Function.update_self]; exact (Option.some_ne_none h).symm)
          (by rw [store_self]; exact Option.some_ne_none _), Function.update_self]
        exact (Option.some_ne_none h).symm
      simp only [hbegin, hrun, Option.bind_some, Option.isSome_some, mmFree_eq hstill]
      refine ⟨_, rfl, own₂, c₂, es₂, ⟨fun a ha hlive => ?_, fun a ha hlive => ?_⟩, ?_⟩
      · rw [Function.update_of_ne (hother a hlive), hm₂.blocks a, store_of_ne (hother a hlive)]
        · rwa [Function.update_of_ne (hother a hlive)]
        · rwa [store_of_ne (hother a hlive)]
      · rw [hm₂.owners a, Function.update_of_ne (hother a hlive)]
        · rwa [Function.update_of_ne (hother a hlive)]
        · rwa [store_of_ne (hother a hlive)]
      · refine hr₂.congr fun a ha _ => ⟨Function.update_of_ne ?_ .., rfl⟩
        rintro rfl
        exact hnobody ha

/-- the code does not check the buffer: where `mm_alloc` has none for it and the queue has an element,
`cmp` is called on `NULL` -/
theorem queueElementExists_null (hq : Holds own m h c es cmp q) (x : α) (hne : q.elems ≠ []) :
    queueElementExists (some h) x none m = none := by
  have hes : es ≠ [] := fun hes => hne (by rw [hq.elems, hes, List.map_nil])
  obtain ⟨m₁, hbegin, own₁, c₁, es₁, hm₁, hr₁⟩ := queueBeginCyclicIter_spec hq
  obtain ⟨n, hn⟩ : ∃ n, es.length = n + 1 := Nat.exists_eq_succ_of_ne_zero (mt List.length_eq_zero_iff.mp hes)
  have hnext : queueNextCyclicIter (some h) false m₁ = some (none, m₁) := by
    unfold queueNextCyclicIter
    simp only [cdtAt_eq hr₁.record, Option.bind_some]
    cases c₁.cyclicIter <;> rfl
  unfold queueElementExists queueSize
  simp only [cdtAt_eq hq.record, Option.bind_some, hq.chain.count, hbegin, hn, queueElementExistsLoop,
    Option.isSome_none, hnext, Option.or_none, Option.bind_none]

end

end Tp2So.Pointers
