import Wtools.CachedKeys
import Mathlib.Data.List.TakeWhile

/-!
# The key tree as a map

What a sequence of `wg_keytree_add` returns, against a map that keeps the first datum of each
word. An add looks at whether the key of its last character was made, so a word that begins an
earlier one is taken for a word that was added.
-/

namespace Wtools
open PrefixTree

/-- A sequence of calls to `wg_keytree_add`, with what each returned and wrote to `*udata`. -/
def addResults (head : KeytreeHead) (heap : Heap) :
    List (List UInt8 × UInt64) → Except KeyFault (List (Int × Option UInt64) × KeytreeHead)
  | [] => .ok ([], head)
  | (w, udata) :: ws => do
    let r ← wgKeytreeAdd head w udata heap
    let (rs, head') ← addResults r.head r.heap ws
    return ((r.error, r.udata) :: rs, head')

/-- What a map answers to an add of `w`, after the adds in `earlier`. -/
def MapAnswer (earlier : List (List UInt8 × UInt64)) (w : List UInt8) (r : Int × Option UInt64) :
    Prop :=
  match earlier.lookup w with
  | some first => r = (wEExists, some first)
  | none => r.1 = wNoError

def MapAnswers : List (List UInt8 × UInt64) → List (List UInt8 × UInt64) →
    List (Int × Option UInt64) → Prop
  | _, [], [] => True
  | earlier, (w, udata) :: ws, r :: rs =>
    MapAnswer earlier w r ∧ MapAnswers (earlier ++ [(w, udata)]) ws rs
  | _, _, _ => False

/-- What the tree answers: whether there is a node, and its datum. -/
def treeAnswer (t : PrefixTree UInt8 UInt64) (w : List UInt8) : Int × Option UInt64 :=
  (if (t.entry w).isNone then wNoError else wEExists, (t.entry w).map Prod.snd)

def treeAnswers (t : PrefixTree UInt8 UInt64) :
    List (List UInt8 × UInt64) → List (Int × Option UInt64)
  | [] => []
  | (w, udata) :: ws => treeAnswer t w :: treeAnswers (t.add udata w) ws

variable {earlier ws : List (List UInt8 × UInt64)} {w : List UInt8}

theorem addResults_tree (hws : ∀ w ∈ ws, AlnumWord w.1) {head : KeytreeHead}
    (hfold : head.folds = false) (hk : head.top.Sound) (hnull : head.top ≠ .null) {heap : Heap}
    (hm : ∀ n, heap.malloc n) :
    ∃ head', addResults head heap ws = .ok (treeAnswers head.top.tree ws, head') ∧
      head'.top.Sound ∧ head'.top ≠ .null ∧ head'.top.tree = head.top.tree.adds ws := by
  induction ws generalizing head heap with
  | nil => exact ⟨head, rfl, hk, hnull, rfl⟩
  | cons w ws ih =>
    obtain ⟨hne, hw⟩ := hws w (by simp)
    obtain ⟨r, hf, hr⟩ := wgKeytreeAdd_filed hfold hk hnull hne hw w.2 hm
    obtain ⟨head', hall, hk', hnull', htree⟩ :=
      ih (fun v hv => hws v (by simp [hv]))
        (show KeytreeHead.folds { head with top := r.key } = false from hfold) hf.sound hf.some
        (hf.malloc ▸ hm)
    refine ⟨head', ?_, hk', hnull', ?_⟩
    · simp only [hf.tree] at hall
      simp only [addResults, hr, bind, Except.bind, hall, treeAnswers, treeAnswer, hf.error, hf.out]
      rfl
    · rw [htree, hf.tree]
      rfl

/-- A word has the datum of its first add in the tree, unless it began an earlier word. -/
theorem entry_of_lookup {v : UInt64} (hne : w ≠ []) (h : ws.lookup w = some v)
    (hpre : PrefixesFirst (ws.map Prod.fst)) : (root.adds ws).entry w = some (true, v) := by
  obtain ⟨a, b, rfl, ha⟩ := List.lookup_eq_some_iff.mp h
  have hw : w ∉ a.map Prod.fst := by
    intro hmem
    obtain ⟨p, hp, hpw⟩ := List.mem_map.mp hmem
    have hb := ha p hp
    simp [hpw] at hb
  have hdatum : ¬∃ p ∈ a, w <+: p.1 := by
    intro ⟨p, hp, hwp⟩
    exact hpre (a.map Prod.fst) w (b.map Prod.fst) (by simp) hw p.1 (List.mem_map_of_mem hp) hwp
  rw [entry_adds_first hne hw, if_neg hdatum]

theorem notMem_of_lookup (h : ws.lookup w = none) : w ∉ ws.map Prod.fst := by
  intro hmem
  obtain ⟨p, hp, hpw⟩ := List.mem_map.mp hmem
  have hb := List.lookup_eq_none_iff.mp h p hp
  simp [hpw] at hb

theorem treeAnswer_iff (hne : w ≠ []) (hpre : PrefixesFirst (earlier.map Prod.fst)) :
    MapAnswer earlier w (treeAnswer (root.adds earlier) w) ↔
      (w ∉ earlier.map Prod.fst → ∀ u ∈ earlier.map Prod.fst, ¬w <+: u) := by
  unfold MapAnswer treeAnswer
  cases hl : earlier.lookup w with
  | some v =>
    obtain ⟨a, b, rfl, -⟩ := List.lookup_eq_some_iff.mp hl
    rw [entry_of_lookup hne hl hpre]
    simp
  | none =>
    have hw := notMem_of_lookup hl
    rw [entry_adds_of_notMem hne hw]
    by_cases hp : ∃ p ∈ earlier, w <+: p.1
    · rw [if_pos hp]
      obtain ⟨p, hmem, hwp⟩ := hp
      apply iff_of_false (by decide)
      intro h
      exact h hw p.1 (List.mem_map_of_mem hmem) hwp
    · rw [if_neg hp]
      apply iff_of_true rfl
      intro _ u hu hwu
      obtain ⟨p, hmem, rfl⟩ := List.mem_map.mp hu
      exact hp ⟨p, hmem, hwu⟩

theorem PrefixesFirst.left {us vs : List (List UInt8)} (h : PrefixesFirst (us ++ vs)) :
    PrefixesFirst us := by
  intro pre w post hws
  exact h pre w (post ++ vs) (by simp [hws])

theorem prefixesFirst_snoc {us : List (List UInt8)} :
    PrefixesFirst (us ++ [w]) ↔ PrefixesFirst us ∧ (w ∉ us → ∀ u ∈ us, ¬w <+: u) := by
  constructor
  · intro h
    exact ⟨h.left, h us w [] rfl⟩
  · intro ⟨hus, hw⟩ pre v post h
    rcases List.eq_nil_or_concat post with rfl | ⟨post', x, rfl⟩
    · obtain ⟨rfl, hv⟩ := List.append_inj' h rfl
      rw [List.cons.injEq] at hv
      rw [← hv.1]
      exact hw
    · rw [List.concat_eq_append, ← List.cons_append, ← List.append_assoc] at h
      exact hus pre v post' (List.append_inj' h rfl).1

theorem treeAnswers_iff (earlier : List (List UInt8 × UInt64)) (hws : ∀ w ∈ ws, w.1 ≠ [])
    (hpre : PrefixesFirst (earlier.map Prod.fst)) :
    MapAnswers earlier ws (treeAnswers (root.adds earlier) ws) ↔
      PrefixesFirst ((earlier ++ ws).map Prod.fst) := by
  induction ws generalizing earlier with
  | nil =>
    rw [List.append_nil]
    exact iff_of_true trivial hpre
  | cons p ws ih =>
    obtain ⟨w, v⟩ := p
    have hne : w ≠ [] := hws (w, v) (by simp)
    have hsplit : earlier ++ (w, v) :: ws = (earlier ++ [(w, v)]) ++ ws := by simp
    rw [treeAnswers, MapAnswers, treeAnswer_iff hne hpre, ← adds_snoc root earlier (w, v), hsplit]
    have hsnoc : PrefixesFirst ((earlier ++ [(w, v)]).map Prod.fst) ↔
        PrefixesFirst (earlier.map Prod.fst) ∧
          (w ∉ earlier.map Prod.fst → ∀ u ∈ earlier.map Prod.fst, ¬w <+: u) := by
      rw [List.map_append]
      exact prefixesFirst_snoc
    constructor
    · intro ⟨hw, hrest⟩
      exact (ih _ (fun p hp => hws p (by simp [hp])) (hsnoc.mpr ⟨hpre, hw⟩)).mp hrest
    · intro h
      have hleft : PrefixesFirst ((earlier ++ [(w, v)]).map Prod.fst) := by
        rw [List.map_append] at h
        exact h.left
      exact ⟨(hsnoc.mp hleft).2, (ih _ (fun p hp => hws p (by simp [hp])) hleft).mpr h⟩

theorem leading_word (hw : AlnumWord w) : leading w = w :=
  List.takeWhile_eq_self_iff.mpr hw.2

theorem alnum_lt : ∀ c : UInt8, isalnum c → c < 128 := by
  decide +kernel

/-- The key tree is a map from words to their first data if and only if no word is added for
the first time after a longer one that begins with it. -/
theorem addResults_map_iff {type : UInt32} (htype : type &&& 1 = 0) (cb : Bool) {heap : Heap}
    (hm : ∀ n, heap.malloc n) {ws : List (List UInt8 × UInt64)} (hws : ∀ w ∈ ws, AlnumWord w.1) :
    ∃ head₀ heap₀ rs head,
      wgKeytreeCreate type cb [] heap = .ok (wNoError, some head₀, heap₀) ∧
      addResults head₀ heap₀ ws = .ok (rs, head) ∧
      (MapAnswers [] ws rs ∧
        (∀ w ∈ ws.map Prod.fst, wgKeytreeKeyget head w = .ok (wNoError, ws.lookup w)) ↔
        PrefixesFirst (ws.map Prod.fst)) := by
  have hfold : (KeytreeHead.mk type cb .blank).folds = false := by simp [KeytreeHead.folds, htype]
  have hm' : ∀ n, heap.next.malloc n := hm
  obtain ⟨head, hall, hk, hnull, htree⟩ :=
    addResults_tree hws hfold Key.sound_blank (by simp [Key.blank]) hm'
  rw [tree_blank] at hall htree
  refine ⟨_, _, _, head, by rw [wgKeytreeCreate, if_pos (hm _)]; rfl, hall, ?_⟩
  have hanswers := treeAnswers_iff [] (fun w hw => (hws w hw).1)
    (fun pre w post h => by simp at h)
  rw [List.nil_append] at hanswers
  constructor
  · intro h
    exact hanswers.mp h.1
  · intro hpre
    refine ⟨hanswers.mpr hpre, ?_⟩
    intro w hw
    obtain ⟨p, hp, rfl⟩ := List.mem_map.mp hw
    obtain ⟨v, hv⟩ : ∃ v, ws.lookup p.1 = some v := by
      cases hl : ws.lookup p.1 with
      | some v => exact ⟨v, rfl⟩
      | none => exact absurd hw (notMem_of_lookup hl)
    have hword := hws p hp
    have hentry : head.top.tree.entry (leading p.1) = some (true, v) := by
      rw [leading_word hword, htree]
      exact entry_of_lookup hword.1 hv hpre
    rw [hv]
    refine wgKeytreeKeyget_stored hk hnull ?_ ?_ hentry
    · intro c hc
      exact alnum_lt c (hword.2 c hc)
    · rw [leading_word hword]
      exact hword.1

theorem addResults_map_iff_word :
    ∃ head₀ heap₀ rs head,
      wgKeytreeCreate 0 false [] ⟨fun _ => true, 0⟩ = .ok (wNoError, some head₀, heap₀) ∧
      addResults head₀ heap₀ [([0x61], 7), ([0x61, 0x62], 9)] = .ok (rs, head) ∧
      (MapAnswers [] [([0x61], 7), ([0x61, 0x62], 9)] rs ∧
        (∀ w ∈ [[0x61], [0x61, 0x62]], wgKeytreeKeyget head w =
          .ok (wNoError, List.lookup w [([0x61], 7), ([0x61, 0x62], 9)])) ↔
        PrefixesFirst [[0x61], [0x61, 0x62]]) :=
  addResults_map_iff (by decide) false (fun _ => rfl) (by decide +kernel)

/-- After `ab` the word `a` is answered as one that was added, with a datum of 0. -/
theorem prefix_answered_as_added :
    ∃ head₀ heap₀ rs head,
      wgKeytreeCreate 0 false [] ⟨fun _ => true, 0⟩ = .ok (wNoError, some head₀, heap₀) ∧
      addResults head₀ heap₀ [([0x61, 0x62], 7), ([0x61], 9)] = .ok (rs, head) ∧
      rs = [(wNoError, none), (wEExists, some 0)] ∧
      ¬MapAnswers [] [([0x61, 0x62], 7), ([0x61], 9)] rs ∧
      wgKeytreeKeyget head [0x61] = .ok (wNoError, some 0) := by
  refine ⟨_, _, [(wNoError, none), (wEExists, some 0)], _, rfl, rfl, rfl, ?_, rfl⟩
  intro h
  have hx : wEExists = wNoError := h.2.1
  exact absurd hx (by decide)

end Wtools
