import Wtools.TrieMap
import Wtools.TrieRelease

/-!
# Building a key tree from a list

`wg_keytree_create` on a list of words of letters and digits. It builds the tree of the list unless
a word equals an earlier word or begins it. Then it frees the head and forgets what the head leads
to.
-/

namespace Wtools
open PrefixTree

/-- No word of the list equals or begins an earlier one. -/
def Fresh (ws : List (List UInt8 × UInt64)) : Prop :=
  ws.Pairwise fun u w => ¬w.1 <+: u.1

instance (ws : List (List UInt8 × UInt64)) : Decidable (Fresh ws) :=
  inferInstanceAs (Decidable (List.Pairwise _ ws))

/-- The words of the list went into the tree. -/
def GoesIn (head : KeytreeHead) (heap : Heap) (earlier ws : List (List UInt8 × UInt64)) : Prop :=
  (∀ w ∈ ws, ∀ u ∈ earlier, ¬w.1 <+: u.1) ∧ Fresh ws ∧
    ∃ head' heap', createFrom head ws heap = .ok ⟨wNoError, some head', none, heap'⟩ ∧
      addAll head heap ws = .ok (head', heap')

/-- A word was refused, the first one that begins an earlier word, and the tree up to it is not
returned. -/
def Abandons (head : KeytreeHead) (heap : Heap) (earlier ws : List (List UInt8 × UInt64)) : Prop :=
  ∃ pre w post head' heap', ws = pre ++ w :: post ∧
    ((∀ v ∈ pre, ∀ u ∈ earlier, ¬v.1 <+: u.1) ∧ Fresh pre) ∧ (∃ u ∈ earlier ++ pre, w.1 <+: u.1) ∧
    createFrom head ws heap = .ok ⟨wEExists, none, some head', heap'⟩ ∧
    addAll head heap (pre ++ [w]) = .ok (head', heap')

section
variable {head head' : KeytreeHead} {heap heap' : Heap} {earlier ws : List (List UInt8 × UInt64)}
variable {w : List UInt8 × UInt64} {r : AddResult}

theorem createFrom_accepted (hr : wgKeytreeAdd head w.1 w.2 heap = .ok r)
    (herror : r.error = wNoError) : createFrom head (w :: ws) heap = createFrom r.head ws r.heap := by
  change parseFileCreateKey head w.1 w.2 heap = .ok r at hr
  simp [createFrom, hr, herror, bind, Except.bind]

theorem createFrom_refused (hr : wgKeytreeAdd head w.1 w.2 heap = .ok r)
    (herror : r.error = wEExists) :
    createFrom head (w :: ws) heap = .ok ⟨wEExists, none, some r.head, r.heap⟩ := by
  have hne : wEExists ≠ wNoError := by decide
  change parseFileCreateKey head w.1 w.2 heap = .ok r at hr
  simp [createFrom, hr, herror, hne, bind, Except.bind, pure, Except.pure]

theorem addAll_cons (hr : wgKeytreeAdd head w.1 w.2 heap = .ok r) :
    addAll head heap (w :: ws) = addAll r.head r.heap ws := by
  simp only [addAll, hr, bind, Except.bind]

theorem fresh_cons (hw : ∀ u ∈ earlier, ¬w.1 <+: u.1)
    (h : (∀ v ∈ ws, ∀ u ∈ earlier ++ [w], ¬v.1 <+: u.1) ∧ Fresh ws) :
    (∀ v ∈ w :: ws, ∀ u ∈ earlier, ¬v.1 <+: u.1) ∧ Fresh (w :: ws) := by
  constructor
  · rw [List.forall_mem_cons]
    exact ⟨hw, fun v hv u hu => h.1 v hv u (List.mem_append_left _ hu)⟩
  · exact .cons (fun v hv => h.1 v hv w (List.mem_append_right _ List.mem_cons_self)) h.2

theorem GoesIn.cons (hr : wgKeytreeAdd head w.1 w.2 heap = .ok r) (herror : r.error = wNoError)
    (hw : ∀ u ∈ earlier, ¬w.1 <+: u.1) (h : GoesIn r.head r.heap (earlier ++ [w]) ws) :
    GoesIn head heap earlier (w :: ws) := by
  obtain ⟨hnew, hfresh, head', heap', hcreate, hall⟩ := h
  obtain ⟨hnew', hfresh'⟩ := fresh_cons hw ⟨hnew, hfresh⟩
  refine ⟨hnew', hfresh', head', heap', ?_, ?_⟩
  · rw [createFrom_accepted hr herror, hcreate]
  · rw [addAll_cons hr, hall]

theorem Abandons.cons (hr : wgKeytreeAdd head w.1 w.2 heap = .ok r) (herror : r.error = wNoError)
    (hw : ∀ u ∈ earlier, ¬w.1 <+: u.1) (h : Abandons r.head r.heap (earlier ++ [w]) ws) : Abandons head heap earlier (w :: ws) := by
  obtain ⟨pre, v, post, head', heap', rfl, hfresh, ⟨u, hu, hvu⟩, hcreate, hall⟩ := h
  refine ⟨w :: pre, v, post, head', heap', rfl, fresh_cons hw hfresh, ⟨u, ?_, hvu⟩, ?_, ?_⟩
  · simpa using hu
  · rw [createFrom_accepted hr herror, hcreate]
  · rw [List.cons_append, addAll_cons hr, hall]

/-- What becomes of a list is decided by the first word that begins an earlier one. -/
theorem createFrom_cases (hws : ∀ w ∈ ws, AlnumWord w.1) (hfold : head.folds = false)
    (hk : head.top.Sound) (hnull : head.top ≠ .null) (htree : head.top.tree = root.adds earlier)
    (hm : ∀ n, heap.malloc n) :
    GoesIn head heap earlier ws ∨ Abandons head heap earlier ws := by
  induction ws generalizing earlier head heap with
  | nil =>
    refine .inl ⟨fun w hw => ?_, .nil, head, heap, rfl, rfl⟩
    cases hw
  | cons w ws ih =>
    obtain ⟨hne, halnum⟩ := hws w List.mem_cons_self
    obtain ⟨r, hf, hr⟩ := wgKeytreeAdd_filed hfold hk hnull hne halnum w.2 hm
    have hentry : ((root.adds earlier).entry w.1).isSome ↔ _ := isSome_entry_adds hne
    have herror := hf.error
    rw [htree] at herror
    by_cases hw : ∃ u ∈ earlier, w.1 <+: u.1
    · have hsome := hentry.mpr hw
      rw [← Option.not_isSome, hsome] at herror
      refine .inr ⟨[], w, ws, _, _, rfl, ⟨List.forall_mem_nil _, .nil⟩, ?_,
        createFrom_refused hr herror, addAll_cons hr⟩
      rwa [List.append_nil]
    · have hnone : ((root.adds earlier).entry w.1).isNone := by
        rw [Option.isNone_iff_eq_none, ← Option.not_isSome_iff_eq_none, hentry]
        exact hw
      rw [if_pos hnone] at herror
      have hw' : ∀ u ∈ earlier, ¬w.1 <+: u.1 := fun u hu hwu => hw ⟨u, hu, hwu⟩
      have htree' : r.key.tree = root.adds (earlier ++ [w]) := by
        rw [adds_snoc, hf.tree, htree]
      rcases ih (fun v hv => hws v (List.mem_cons_of_mem w hv))
        (show KeytreeHead.folds { head with top := r.key } = false from hfold) hf.sound hf.some
        htree' (hf.malloc ▸ hm) with h | h
      · exact .inl (h.cons hr herror hw')
      · exact .inr (h.cons hr herror hw')

end

theorem entry_of_fresh {ws : List (List UInt8 × UInt64)} (hws : ∀ w ∈ ws, w.1 ≠ []) (h : Fresh ws)
    (w : List UInt8) (v : UInt64) :
    w ≠ [] ∧ (root.adds ws).entry w = some (true, v) ↔ (w, v) ∈ ws := by
  have hfirst : ∀ p ∈ ws, (root.adds ws).entry p.1 = some (true, p.2) := by
    intro p hp
    obtain ⟨pre, post, rfl⟩ := List.append_of_mem hp
    have hpre : ∀ u ∈ pre, ¬p.1 <+: u.1 := by
      intro u hu
      exact (List.pairwise_append.mp h).2.2 u hu p List.mem_cons_self
    have hnotMem : p.1 ∉ pre.map Prod.fst := by
      intro hmem
      obtain ⟨u, hu, hup⟩ := List.mem_map.mp hmem
      exact hpre u hu (hup ▸ List.prefix_refl _)
    have hnone : ¬∃ u ∈ pre, p.1 <+: u.1 := fun ⟨u, hu, hpu⟩ => hpre u hu hpu
    rw [entry_adds_first (hws p hp) hnotMem, if_neg hnone]
  constructor
  · intro ⟨hne, hw⟩
    have hmem := (stores_adds ws w root).mp ⟨v, hw⟩
    have hroot : ¬(root : PrefixTree UInt8 UInt64).Stores w := by
      rintro ⟨v', hv'⟩
      rw [entry_root hne] at hv'
      cases hv'
    obtain ⟨p, hp, rfl⟩ := List.mem_map.mp (hmem.resolve_right hroot)
    rw [hfirst p hp, Option.some.injEq, Prod.mk.injEq] at hw
    rw [← hw.2]
    exact hp
  · intro hp
    exact ⟨hws _ hp, hfirst _ hp⟩

section Heads
variable {head : KeytreeHead} {s : List UInt8} {v : UInt64}

theorem wgKeytreeKeyget_iff (hk : head.top.Sound) (hnull : head.top ≠ .null)
    (hs : ∀ c ∈ s, c < 128) :
    wgKeytreeKeyget head s = .ok (wNoError, some v) ↔
      leading s ≠ [] ∧ head.top.tree.entry (leading s) = some (true, v) := by
  constructor
  · intro h
    by_cases hword : leading s ≠ [] ∧ ((leading s).foldl Key.next head.top).endOfWord
    · obtain ⟨v', hv'⟩ := (Key.endOfWord_iff head.top (leading s)).mp hword.2
      rw [wgKeytreeKeyget_stored hk hnull hs hword.1 hv', Except.ok.injEq, Prod.mk.injEq,
        Option.some.injEq] at h
      rw [← h.2]
      exact ⟨hword.1, hv'⟩
    · simp [wgKeytreeKeyget, keytreeKeyget_eq hk hnull hs, if_neg hword, bind, Except.bind, pure,
        Except.pure] at h
  · rintro ⟨hne, he⟩
    exact wgKeytreeKeyget_stored hk hnull hs hne he

theorem one_lt_blocks (hk : head.top.Sane) (hnull : head.top ≠ .null) {w : List UInt8}
    (hw : AlnumWord w) (h : head.top.tree.Stores w) : 1 < head.top.blocks := by
  obtain ⟨c, w, rfl⟩ := List.exists_cons_of_ne_nil hw.1
  have hend := (Key.endOfWord_iff head.top (c :: w)).mpr h
  have hnext : head.top.next c ≠ .null := by
    intro hnone
    rw [List.foldl_cons, hnone, foldl_next_null] at hend
    cases hend
  have hhas : head.top.Has (.key [(tableOf c, indexOf c)]) := by
    cases htop : head.top with
    | null => exact absurd htop hnull
    | key _ _ _ _ _ =>
      rw [htop] at hnext
      rwa [Key.next, if_pos (hw.2 c List.mem_cons_self)] at hnext
  have hmem := (mem_frees_iff hk (p := [])).mpr ⟨_, by simp, hhas, rfl⟩
  have hlength := length_frees hk hnull []
  have hpos := List.length_pos_of_mem hmem
  omega

end Heads

/-- `wg_keytree_create` builds the tree of a list of words, with what `wg_keytree_release` frees, if
and only if the list is fresh. If not, it stops at the first word that begins an earlier one, and of
the tree up to there, in which all blocks are, it frees the head only. -/
theorem create_builds_iff {type : UInt32} (htype : type &&& 1 = 0) (cb : Bool) {heap : Heap}
    (hm : ∀ n, heap.malloc n) {ws : List (List UInt8 × UInt64)} (hws : ∀ w ∈ ws, AlnumWord w.1) :
    ∃ c, createFrom ⟨type, cb, .blank⟩ ws heap.next = .ok c ∧
      wgKeytreeCreate type cb ws heap = .ok (c.error, c.head, c.heap) ∧
      (Fresh ws → c.error = wNoError ∧ c.freed = none ∧ ∃ head blocks, c.head = some head ∧
        (∀ s v, (∀ c ∈ s, c < 128) →
          (wgKeytreeKeyget head s = .ok (wNoError, some v) ↔ (leading s, v) ∈ ws)) ∧
        wgKeytreeReleaseFrees head = .ok blocks ∧ c.heap.calls = heap.calls + blocks.length) ∧
      (¬Fresh ws → c.error = wEExists ∧ c.head = none ∧ ∃ pre w post lost,
        ws = pre ++ w :: post ∧ Fresh pre ∧ (∃ u ∈ pre, w.1 <+: u.1) ∧
        addAll ⟨type, cb, .blank⟩ heap.next (pre ++ [w]) = .ok (lost, c.heap) ∧
        c.freed = some lost ∧ c.heap.calls = heap.calls + lost.top.blocks ∧
        1 < lost.top.blocks) := by
  have hfold : (KeytreeHead.mk type cb .blank).folds = false := by simp [KeytreeHead.folds, htype]
  have hm' : ∀ n, heap.next.malloc n := hm
  have hnull : (KeytreeHead.mk type cb .blank).top ≠ .null := Key.noConfusion
  have hone : (KeytreeHead.mk type cb .blank).top.blocks = 1 := Key.blocks_blank
  have hnext : heap.next.calls = heap.calls + 1 := rfl
  have hroot : (KeytreeHead.mk type cb .blank).top.tree = root.adds [] := tree_blank
  have hwhole : ∀ c, createFrom ⟨type, cb, .blank⟩ ws heap.next = .ok c →
      wgKeytreeCreate type cb ws heap = .ok (c.error, c.head, c.heap) := by
    intro c hc
    rw [wgKeytreeCreate, if_pos (hm _), hc]
    rfl
  rcases createFrom_cases hws hfold Key.sound_blank hnull hroot hm' with
    ⟨-, hfresh, head, heap', hcreate, hall⟩ |
    ⟨pre, w, post, lost, heap', rfl, ⟨-, hpre⟩, ⟨u, hu, hwu⟩, hcreate, hall⟩
  · obtain ⟨head', heap'', hall', hk, hsome, htree⟩ :=
      addAll_tree hws hfold Key.sound_blank hnull hm'
    rw [hall] at hall'
    cases hall'
    have hblocks := addAll_blocks hm' Key.sane_blank hnull
      (fun w hw => (hws w hw).addable _) hall
    refine ⟨_, hcreate, hwhole _ hcreate, fun _ => ⟨rfl, rfl, head, _, rfl, ?_,
      wgKeytreeReleaseFrees_eq hk.sane hsome, ?_⟩, fun h => absurd hfresh h⟩
    · intro s v hs
      rw [wgKeytreeKeyget_iff hk hsome hs, htree, tree_blank]
      exact entry_of_fresh (fun w hw => (hws w hw).1) hfresh _ v
    · have hlength := length_frees hk.sane hsome []
      rw [List.length_append, List.length_singleton]
      dsimp only
      omega
  · have hbegins : ¬Fresh (pre ++ w :: post) := by
      intro h
      exact (List.pairwise_append.mp h).2.2 u hu w List.mem_cons_self hwu
    have hws' : ∀ v ∈ pre ++ [w], AlnumWord v.1 := by
      intro v hv
      refine hws v ?_
      rw [List.mem_append, List.mem_singleton] at hv
      rw [List.mem_append, List.mem_cons]
      exact hv.imp_right .inl
    obtain ⟨lost', heap'', hall', hk, hsome, htree⟩ :=
      addAll_tree hws' hfold Key.sound_blank hnull hm'
    rw [hall] at hall'
    cases hall'
    have hblocks := addAll_blocks hm' Key.sane_blank hnull
      (fun v hv => (hws' v hv).addable _) hall
    have hstores : lost.top.tree.Stores w.1 := by
      rw [htree, stores_adds]
      exact .inl (by simp)
    have hcalls : heap'.calls = heap.calls + lost.top.blocks := by omega
    exact ⟨_, hcreate, hwhole _ hcreate, fun h => absurd h hbegins, fun _ => ⟨rfl, rfl, pre, w,
      post, lost, rfl, hpre, ⟨u, hu, hwu⟩, hall, rfl, hcalls,
      one_lt_blocks hk.sane hsome (hws' w (by simp)) hstores⟩⟩

/-- A list that is fresh, and one that is not. -/
theorem create_builds_iff_words :
    (∃ head heap' blocks, wgKeytreeCreate 0 false [([0x61], 7), ([0x62, 0x63], 9)]
        ⟨fun _ => true, 0⟩ = .ok (wNoError, some head, heap') ∧
      wgKeytreeKeyget head [0x62, 0x63] = .ok (wNoError, some 9) ∧
      wgKeytreeReleaseFrees head = .ok blocks ∧ heap'.calls = blocks.length) ∧
    ∃ c lost, createFrom ⟨0, false, .blank⟩ [([0x62], 5), ([0x61, 0x62], 7), ([0x61], 9)]
        ⟨fun _ => true, 1⟩ = .ok c ∧
      c.error = wEExists ∧ c.head = none ∧ c.freed = some lost ∧
        c.heap.calls = lost.top.blocks ∧ 1 < lost.top.blocks := by
  constructor
  · obtain ⟨c, -, hcreate, hfresh, -⟩ := @create_builds_iff 0 (by decide) false
      ⟨fun _ => true, 0⟩ (fun _ => rfl) [([0x61], 7), ([0x62, 0x63], 9)] (by decide +kernel)
    obtain ⟨herror, -, head, blocks, hhead, hget, hfrees, hcalls⟩ := hfresh (by decide)
    rw [herror, hhead] at hcreate
    rw [Nat.zero_add] at hcalls
    have hword : leading [0x62, 0x63] = [0x62, 0x63] := by decide +kernel
    exact ⟨head, c.heap, blocks, hcreate, (hget [0x62, 0x63] 9 (by simp)).mpr (by simp [hword]),
      hfrees, hcalls⟩
  · obtain ⟨c, hcreate, -, -, hstale⟩ := @create_builds_iff 0 (by decide) false
      ⟨fun _ => true, 0⟩ (fun _ => rfl) [([0x62], 5), ([0x61, 0x62], 7), ([0x61], 9)]
      (by decide +kernel)
    obtain ⟨herror, hnone, -, -, -, lost, -, -, -, -, hfreed, hcalls, hmore⟩ := hstale (by decide)
    rw [Nat.zero_add] at hcalls
    exact ⟨c, lost, hcreate, herror, hnone, hfreed, hcalls, hmore⟩

end Wtools
