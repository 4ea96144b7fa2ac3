import Wtools.TrieAdds

/-!
# Words of the key tree

On words of letters and digits the key tree is a prefix tree: `Key.tree` forgets its
tables. An add is then `PrefixTree.add`, and each lookup follows the letters and digits of
its string and looks at the mark it ends on.
-/

namespace Wtools

/-- The table of a letter or a digit. -/
def tableOf (c : UInt8) : Table :=
  if isdigit c then .number else if isupper c then .upper else .lower

def indexOf (c : UInt8) : Nat := (c - (tableOf c).base).toNat

theorem filed_alnum : ∀ c : UInt8, isalnum c → filed false c = some (tableOf c, indexOf c) := by
  decide +kernel

theorem indexOf_lt : ∀ c : UInt8, isalnum c → indexOf c < (tableOf c).size := by
  decide +kernel

theorem tableOf_ne_other : ∀ c : UInt8, tableOf c ≠ .other := by
  decide +kernel

theorem shown_indexOf : ∀ c : UInt8, isalnum c → (tableOf c).shown (indexOf c) = c := by
  decide +kernel

theorem lookupTable_eq : ∀ (others : Bool) (c : UInt8),
    lookupTable others c =
      if isalnum c then some (tableOf c) else if others then some .other else none := by
  decide +kernel

theorem sub_base : ∀ c : UInt8, isalnum c →
    (c.toNat : Int) - (tableOf c).base.toNat = indexOf c := by
  decide +kernel

theorem place_injective {c d : UInt8} (hc : isalnum c) (hd : isalnum d)
    (ht : tableOf c = tableOf d) (hi : indexOf c = indexOf d) : c = d := by
  rw [← shown_indexOf c hc, ← shown_indexOf d hd, ht, hi]

/-- The key a letter or a digit leads to. -/
def Key.next : Key → UInt8 → Key
  | .null, _ => .null
  | .key _ _ _ _ child, c => if isalnum c then child (tableOf c) (indexOf c) else .null

/-- The prefix tree of the letters and digits of a key tree. -/
def Key.tree : Key → PrefixTree UInt8 UInt64
  | .null => .null
  | .key end_of_word udata _ _ child => .node end_of_word udata fun c =>
    if isalnum c then (child (tableOf c) (indexOf c)).tree else .null

@[simp] theorem Key.tree_next (k : Key) (c : UInt8) : (k.next c).tree = k.tree.child c := by
  cases k with
  | null => rfl
  | key _ _ _ _ child =>
    simp only [Key.next, Key.tree, PrefixTree.child_node]
    split <;> rfl

/-- Keys that only words of letters and digits went into: every table that is used is there,
`nb_keys` counts its keys, and there is no other table. -/
def Key.Sound : Key → Prop
  | .null => True
  | .key _ _ keys nb_keys child =>
    keys .other = .null ∧ (∀ t, keys t ≠ .freed) ∧
    (∀ t i, child t i ≠ .null → keys t = .live ∧ i < t.size) ∧
    (∀ t, nb_keys t = countKeys (child t) t.size) ∧ ∀ t i, (child t i).Sound

theorem Key.sound_blank : Key.blank.Sound := by
  refine ⟨rfl, fun _ => nofun, fun _ _ h => absurd rfl h, fun t => ?_, fun _ _ => trivial⟩
  simp [countKeys, Key.isNull]

theorem Key.Sound.next {k : Key} (hk : k.Sound) (c : UInt8) : (k.next c).Sound := by
  cases k with
  | null => trivial
  | key _ _ _ _ child =>
    simp only [Key.next]
    split
    · exact hk.2.2.2.2 _ _
    · trivial

/-- A key whose child at a letter or digit is set, its table made and counted if it is new. -/
def Key.put : Key → UInt8 → Key → Key
  | .null, _, _ => .null
  | .key end_of_word udata keys nb_keys child, c, sub =>
    let t := tableOf c
    let nb := if (child t (indexOf c)).isNull then nb_keys t + 1 else nb_keys t
    .key end_of_word udata (Function.update keys t .live) (Function.update nb_keys t nb)
      (Function.update child t (Function.update (child t) (indexOf c) sub))

theorem Key.put_eq_grow (k : Key) (c : UInt8) : k.put c = k.grow (tableOf c, indexOf c) := by
  funext sub
  cases k <;> rfl

theorem Key.Sound.sane {k : Key} (hk : k.Sound) : k.Sane := by
  induction k with
  | null => trivial
  | key _ _ _ _ _ ih =>
    obtain ⟨-, hfreed, hlive, hcount, hall⟩ := hk
    exact ⟨hfreed, hlive, hcount, fun t i => ih t i (hall t i)⟩

/-- A key is sound if it is sane and no key below it has a table of other characters. -/
theorem Key.sound_iff {k : Key} :
    k.Sound ↔ k.Sane ∧ ∀ p, (k.find p).hasTable .other = false := by
  constructor
  · intro hk
    refine ⟨hk.sane, ?_⟩
    intro p
    induction p generalizing k with
    | nil =>
      cases k with
      | null => rfl
      | key _ _ _ _ _ => simp [Key.hasTable, hk.1]
    | cons s p ih =>
      cases k with
      | null => exact ih trivial
      | key _ _ _ _ _ => exact ih (hk.2.2.2.2 s.1 s.2)
  · rintro ⟨hk, htables⟩
    induction k with
    | null => trivial
    | key _ _ keys _ _ ih =>
      obtain ⟨hfreed, hlive, hcount, hall⟩ := hk
      refine ⟨?_, hfreed, hlive, hcount, fun t i => ih t i (hall t i) fun p => htables ((t, i) :: p)⟩
      cases hkey : keys .other with
      | null => rfl
      | live => simpa [Key.hasTable, hkey] using htables []
      | freed => exact absurd hkey (hfreed .other)

theorem Key.Sound.put {k sub : Key} (hk : k.Sound) {c : UInt8} (hc : isalnum c)
    (hsub : sub.Sound) (hne : sub ≠ .null) : (k.put c sub).Sound := by
  by_cases hnull : k = .null
  · rw [hnull]
    trivial
  · rw [Key.sound_iff] at hk hsub ⊢
    rw [Key.put_eq_grow]
    refine ⟨hk.1.grow (indexOf_lt c hc) hsub.1 hne, ?_⟩
    intro p
    rw [← Bool.not_eq_true, Key.tables_grow hnull]
    rintro (⟨rfl, ht | ht⟩ | ⟨p', rfl, ht⟩ | ⟨s', p', rfl, -, ht⟩)
    · exact tableOf_ne_other c ht.symm
    · exact Bool.false_ne_true ((hk.2 []).symm.trans ht)
    · exact Bool.false_ne_true ((hsub.2 p').symm.trans ht)
    · exact Bool.false_ne_true ((hk.2 (s' :: p')).symm.trans ht)

theorem Key.tree_put {k : Key} (hk : k ≠ .null) {c : UInt8} (hc : isalnum c) (sub : Key) :
    (k.put c sub).tree =
      .node (k.tree.label.getD (false, 0)).1 (k.tree.label.getD (false, 0)).2
        (Function.update k.tree.child c sub.tree) := by
  cases k with
  | null => exact absurd rfl hk
  | key eow udata keys nb child =>
    simp only [Key.put, Key.tree, PrefixTree.child_node]
    refine congrArg _ (funext fun d => ?_)
    by_cases hd : d = c
    · subst hd
      simp [hc]
    · rw [Function.update_of_ne hd]
      split
      · rename_i hdn
        by_cases ht : tableOf d = tableOf c
        · rw [ht, Function.update_self, Function.update_of_ne]
          exact fun hi => hd (place_injective hdn hc ht hi)
        · rw [Function.update_of_ne ht]
      · rfl

/-- What an add of a word of letters and digits does to the tree, its result and its heap. -/
structure Filed (t : PrefixTree UInt8 UInt64) (udata : UInt64) (w : List UInt8)
    (malloc : Nat → Bool) (r : Added) : Prop where
  sound : r.key.Sound
  some : r.key ≠ .null
  tree : r.key.tree = t.add udata w
  error : r.error = if (t.entry w).isNone then wNoError else wEExists
  out : r.udata = (t.entry w).map Prod.snd
  malloc : r.heap.malloc = malloc

/-- One letter or digit: its key is found or made, and the rest of the word goes below it. -/
theorem createKey_step (udata : UInt64) {c : UInt8} (hc : isalnum c) (w : List UInt8)
    (started new_elem : Bool) {k : Key} (hk : k.Sound) (hnull : k ≠ .null) {heap : Heap}
    (hm : ∀ n, heap.malloc n) :
    ∃ heap', heap'.malloc = heap.malloc ∧
      createKey false udata (c :: w) started new_elem k heap =
        (createKey false udata w true (k.next c).isNull
          (if (k.next c).isNull then .blank else k.next c) heap').map (·.under (k.put c)) := by
  have hnext : k.next c = k.at (tableOf c, indexOf c) := by
    cases k with
    | null => rfl
    | key _ _ _ _ _ => exact if_pos hc
  refine ⟨heap.skip (k.costs (tableOf c, indexOf c)), rfl, ?_⟩
  rw [createKey_at hk.sane hnull (filed_alnum c hc) (Heap.grants_of_all hm _), hnext,
    Key.put_eq_grow]
  rfl

theorem createKey_filed (udata : UInt64) {w : List UInt8} (hw : ∀ c ∈ w, isalnum c)
    {started new_elem : Bool} (hne : started ∨ w ≠ []) {k : Key} (hk : k.Sound) (hnull : k ≠ .null)
    (hnew : new_elem → k = .blank) {heap : Heap} (hm : ∀ n, heap.malloc n) :
    ∃ r, createKey false udata w started new_elem k heap = .ok r ∧
      Filed (if new_elem then .null else k.tree) udata w heap.malloc r := by
  induction w generalizing started new_elem k heap with
  | nil =>
    have hs : started = true := by simpa using hne
    cases k with
    | null => exact absurd rfl hnull
    | key eow old keys nb child =>
      cases new_elem with
      | false => exact ⟨_, by rw [createKey, if_pos hs]; rfl, hk, by simp, rfl, rfl, rfl, rfl⟩
      | true =>
        cases hnew rfl
        refine ⟨_, by rw [createKey, if_pos hs]; rfl, hk, by simp, ?_, rfl, rfl, rfl⟩
        simp only [Key.tree, ite_self]
        rfl
  | cons c w ih =>
    have hc : isalnum c := hw c (by simp)
    obtain ⟨heap', hheap, hstep⟩ := createKey_step udata hc w started new_elem hk hnull hm
    have hbelow : ∃ r, createKey false udata w true (k.next c).isNull
        (if (k.next c).isNull then .blank else k.next c) heap' = .ok r ∧
        Filed (k.tree.child c) udata w heap.malloc r := by
      have hsound := hk.next c
      rw [← Key.tree_next, ← hheap]
      have hw' : ∀ d ∈ w, isalnum d := fun d hd => hw d (by simp [hd])
      cases hn : k.next c with
      | null =>
        exact ih hw' (.inl rfl) Key.sound_blank (by simp [Key.blank]) (fun _ => rfl) (hheap ▸ hm)
      | key _ _ _ _ _ =>
        simp only [Key.isNull_key, Bool.false_eq_true, ite_false]
        exact ih hw' (.inl rfl) (hn ▸ hsound) (by simp) (by simp) (hheap ▸ hm)
    obtain ⟨r, hr, hf⟩ := hbelow
    refine ⟨r.under (k.put c), by rw [hstep, hr]; rfl, ?_⟩
    have hroot : Filed k.tree udata (c :: w) heap.malloc (r.under (k.put c)) := by
      refine ⟨hk.put hc hf.sound hf.some, ?_, ?_, hf.error, hf.out, hf.malloc⟩
      · cases k with
        | null => exact absurd rfl hnull
        | key _ _ _ _ _ => simp [Added.under, Key.put]
      · simp only [Added.under, Key.tree_put hnull hc, hf.tree]
        rfl
    cases new_elem with
    | false => exact hroot
    | true =>
      cases hnew rfl
      have hblank : Key.blank.tree = .node false 0 fun _ => .null := by simp [Key.blank, Key.tree]
      rw [hblank] at hroot
      exact ⟨hroot.sound, hroot.some, hroot.tree, hroot.error, hroot.out, hroot.malloc⟩

theorem wgKeytreeAdd_filed {head : KeytreeHead} (hfold : head.folds = false)
    (hk : head.top.Sound) (hnull : head.top ≠ .null) {w : List UInt8} (hne : w ≠ [])
    (hw : ∀ c ∈ w, isalnum c) (udata : UInt64) {heap : Heap} (hm : ∀ n, heap.malloc n) :
    ∃ r, Filed head.top.tree udata w heap.malloc r ∧
      wgKeytreeAdd head w udata heap = .ok ⟨{ head with top := r.key }, r.error, r.udata,
        if head.cb then some (r.last, w) else none, r.heap⟩ := by
  obtain ⟨r, hr, hf⟩ : ∃ r, createKey false udata w false false head.top heap = .ok r ∧
      Filed (if false then .null else head.top.tree) udata w heap.malloc r :=
    createKey_filed udata hw (.inr hne) hk hnull (show false = true → _ from nofun) hm
  simp only [Bool.false_eq_true, if_false] at hf
  refine ⟨r, hf, ?_⟩
  have herror : r.error ≠ wENoMemory := by
    rw [hf.error]
    cases (head.top.tree.entry w).isNone <;> decide
  simp [wgKeytreeAdd, parseFileCreateKey, hne, hfold, hr, herror, bind, Except.bind, pure,
    Except.pure]

def AlnumWord (w : List UInt8) : Prop := w ≠ [] ∧ ∀ c ∈ w, isalnum c

instance (w : List UInt8) : Decidable (AlnumWord w) := inferInstanceAs (Decidable (_ ∧ _))

theorem addAll_tree {ws : List (List UInt8 × UInt64)} (hws : ∀ w ∈ ws, AlnumWord w.1)
    {head : KeytreeHead} (hfold : head.folds = false) (hk : head.top.Sound)
    (hnull : head.top ≠ .null) {heap : Heap} (hm : ∀ n, heap.malloc n) :
    ∃ head' heap', addAll head heap ws = .ok (head', heap') ∧ head'.top.Sound ∧
      head'.top ≠ .null ∧ head'.top.tree = head.top.tree.adds ws := by
  induction ws generalizing head heap with
  | nil => exact ⟨head, heap, rfl, hk, hnull, rfl⟩
  | cons w ws ih =>
    obtain ⟨hne, hw⟩ := hws w (by simp)
    obtain ⟨r, hf, hr⟩ := wgKeytreeAdd_filed hfold hk hnull hne hw w.2 hm
    obtain ⟨head', heap', hall, hk', hnull', htree⟩ :=
      ih (fun v hv => hws v (by simp [hv]))
        (show KeytreeHead.folds { head with top := r.key } = false from hfold) hf.sound hf.some
        (hf.malloc ▸ hm)
    refine ⟨head', heap', ?_, hk', hnull', ?_⟩
    · simp only [addAll, hr, bind, Except.bind, hall]
    · rw [htree, hf.tree]
      rfl

theorem Key.Sound.lookupKey {k : Key} (hk : k.Sound) (hnull : k ≠ .null) (others : Bool)
    (c : UInt8) : lookupKey others k c = .ok (k.next c) := by
  cases k with
  | null => exact absurd rfl hnull
  | key eow udata keys nb child =>
    obtain ⟨hother, hfreed, hlive, -, -⟩ := hk
    have hneg : ¬((indexOf c : Int) < 0) := by omega
    by_cases hc : isalnum c = true
    · have hlt : ¬(tableOf c).size ≤ indexOf c := Nat.not_le.mpr (indexOf_lt c hc)
      cases hkey : keys (tableOf c) with
      | freed => exact absurd hkey (hfreed _)
      | null =>
        have hchild : child (tableOf c) (indexOf c) = .null := by
          by_contra h
          have := (hlive _ _ h).1
          simp [hkey] at this
        simp [Wtools.lookupKey, lookupTable_eq, hc, hkey, Key.next, hchild]
      | live => simp [Wtools.lookupKey, lookupTable_eq, hc, hkey, sub_base c hc, hneg, hlt, Key.next]
    · cases others <;> simp [Wtools.lookupKey, lookupTable_eq, hc, hother, Key.next]

/-- The letters and digits a string starts with. -/
def leading (s : List UInt8) : List UInt8 := s.takeWhile isalnum

/-- The character after them. -/
def after (s : List UInt8) : UInt8 := peek (s.drop (leading s).length)

theorem leading_cons {c : UInt8} (hc : isalnum c) (s : List UInt8) :
    leading (c :: s) = c :: leading s := by
  simp [leading, hc]

theorem leading_of_not {c : UInt8} (hc : ¬isalnum c) (s : List UInt8) : leading (c :: s) = [] := by
  simp [leading, hc]

theorem leading_eq_nil {s : List UInt8} (hs : ¬isalnum (peek s)) : leading s = [] := by
  cases s with
  | nil => rfl
  | cons c s => exact leading_of_not hs s

theorem not_isalnum_after (s : List UInt8) : ¬isalnum (after s) := by
  induction s with
  | nil => decide
  | cons c s ih =>
    by_cases hc : isalnum c = true
    · simpa [after, leading_cons hc] using ih
    · simpa [after, leading_of_not hc, peek] using hc

def Key.endOfWord : Key → Bool
  | .null => false
  | .key end_of_word .. => end_of_word

theorem foldl_next_null (s : List UInt8) : s.foldl Key.next .null = .null := by
  induction s with
  | nil => rfl
  | cons c s ih => exact ih

/-- The loop of the lookups, for a `found` that does nothing before a letter or a digit: it
acts once, on the key of the leading letters and digits. -/
theorem lookupLoop_eq {ρ : Type} (others : Bool) {found : Key → Nat → UInt8 → ρ → ρ × Bool}
    (hfound : ∀ k i c e, isalnum c → found k i c e = (e, false)) {k : Key} (hk : k.Sound)
    (hnull : k ≠ .null) (i : Nat) (s : List UInt8) (e : ρ) :
    lookupLoop others found k i s e =
      .ok (if leading s ≠ [] ∧ ((leading s).foldl Key.next k).endOfWord then
        (found ((leading s).foldl Key.next k) (i + (leading s).length - 1) (after s) e).1
      else e) := by
  induction s generalizing k i e with
  | nil => simp [lookupLoop, hk.lookupKey hnull, leading, bind, Except.bind, pure, Except.pure]
  | cons c s ih =>
    by_cases hc : isalnum c = true
    · have hlen : i + 1 + (leading s).length - 1 = i + (leading (c :: s)).length - 1 := by
        rw [leading_cons hc, List.length_cons]
        omega
      have hafter : after (c :: s) = after s := by simp [after, leading_cons hc]
      have hsound := hk.next c
      simp only [lookupLoop, hk.lookupKey hnull, bind, Except.bind]
      rw [hafter, ← hlen, leading_cons hc, List.foldl_cons]
      cases hn : k.next c with
      | null => simp [foldl_next_null, Key.endOfWord, pure, Except.pure]
      | key eow old keys nb child =>
        rw [hn] at hsound
        have hrest := fun e => ih hsound (by simp) (i + 1) e
        by_cases hp : isalnum (peek s) = true
        · have hs : leading s ≠ [] := by
            cases s with
            | nil => exact absurd hp (by decide)
            | cons d s => simp [leading_cons (c := d) hp]
          simp only [hfound _ _ _ _ hp, ite_self, Bool.false_eq_true, if_false, hrest, hs, ne_eq,
            not_false_eq_true, true_and, reduceCtorEq]
        · have hs := leading_eq_nil hp
          have hpeek : after s = peek s := by simp [after, hs]
          simp only [hrest, hs, hpeek, List.foldl_nil, List.length_nil, ne_eq, reduceCtorEq,
            not_false_eq_true, true_and, not_true_eq_false, false_and, if_false, Key.endOfWord]
          cases eow with
          | false => rfl
          | true =>
            simp only [if_true, Nat.add_zero, Nat.add_sub_cancel]
            split <;> rfl
    · cases k with
      | null => exact absurd rfl hnull
      | key _ _ _ _ _ =>
        simp [lookupLoop, hk.lookupKey hnull, leading_of_not hc, Key.next, hc, bind, Except.bind,
          pure, Except.pure]

theorem Key.tree_walk (k : Key) (s : List UInt8) : (s.foldl Key.next k).tree = k.tree.find s := by
  induction s generalizing k with
  | nil => rfl
  | cons c s ih => rw [List.foldl_cons, ih, Key.tree_next, PrefixTree.find_cons]

theorem Key.endOfWord_iff (k : Key) (s : List UInt8) :
    (s.foldl Key.next k).endOfWord = true ↔ k.tree.Stores s := by
  rw [PrefixTree.Stores, PrefixTree.entry, ← Key.tree_walk]
  cases s.foldl Key.next k with
  | null => simp [Key.endOfWord, Key.tree]
  | key eow udata _ _ _ => simp [Key.endOfWord, Key.tree, PrefixTree.label]

theorem alnum_goes_on : ∀ c : UInt8, isalnum c →
    (isspace c || iscntrl c) = false ∧ (ispunct c || isspace c || iscntrl c) = false := by
  decide +kernel

theorem word_ends : ∀ c : UInt8, c < 128 → ¬isalnum c →
    (ispunct c || isspace c || iscntrl c) = true := by
  decide +kernel

theorem after_lt {s : List UInt8} (hs : ∀ c ∈ s, c < 128) : after s < 128 := by
  unfold after
  cases hd : s.drop (leading s).length with
  | nil => decide
  | cons c t => exact hs c (List.mem_of_mem_drop (hd ▸ List.mem_cons_self))

theorem keytreeKeyget_eq {head : KeytreeHead} (hk : head.top.Sound) (hnull : head.top ≠ .null)
    {s : List UInt8} (hs : ∀ c ∈ s, c < 128) :
    keytreeKeyget head s =
      .ok (if leading s ≠ [] ∧ ((leading s).foldl Key.next head.top).endOfWord then
        (leading s).foldl Key.next head.top else .null) := by
  have hfound : ∀ (k : Key) (i : Nat) (c : UInt8) (none : Key), isalnum c →
      (if ispunct c || isspace c || iscntrl c then (k, true) else (none, false)) =
        (none, false) := by
    intro k i c none hc
    simp [(alnum_goes_on c hc).2]
  have hend := word_ends _ (after_lt hs) (not_isalnum_after s)
  rw [keytreeKeyget, lookupLoop_eq false hfound hk hnull]
  simp only [hend, if_true]

theorem wgKeytreeKeyget_stored {head : KeytreeHead} (hk : head.top.Sound) (hnull : head.top ≠ .null)
    {s : List UInt8} (hs : ∀ c ∈ s, c < 128) (hne : leading s ≠ []) {v : UInt64}
    (he : head.top.tree.entry (leading s) = some (true, v)) :
    wgKeytreeKeyget head s = .ok (wNoError, some v) := by
  have heow := (Key.endOfWord_iff head.top (leading s)).mpr ⟨v, he⟩
  rw [PrefixTree.entry, ← Key.tree_walk] at he
  simp only [wgKeytreeKeyget, keytreeKeyget_eq hk hnull hs, hne, heow, ne_eq, not_false_eq_true,
    and_self, if_true]
  cases hwalk : (leading s).foldl Key.next head.top with
  | null => simp [hwalk, Key.tree] at he
  | key eow udata keys nb child =>
    simp only [hwalk, Key.tree, PrefixTree.label, Option.some.injEq, Prod.mk.injEq] at he
    rw [← he.2]
    rfl

theorem tree_blank : Key.blank.tree = PrefixTree.root := by
  simp only [Key.blank, Key.tree, ite_self]
  rfl

theorem created {type : UInt32} (htype : type &&& 1 = 0) (cb : Bool) {heap : Heap}
    (hm : ∀ n, heap.malloc n) {ws : List (List UInt8 × UInt64)} (hws : ∀ w ∈ ws, AlnumWord w.1) :
    ∃ head₀ heap₀ head heap',
      wgKeytreeCreate type cb [] heap = .ok (wNoError, some head₀, heap₀) ∧
      addAll head₀ heap₀ ws = .ok (head, heap') ∧ head.top.Sound ∧ head.top ≠ .null ∧
      head.top.tree = PrefixTree.root.adds ws := by
  have hfold : (KeytreeHead.mk type cb .blank).folds = false := by simp [KeytreeHead.folds, htype]
  have hm' : ∀ n, heap.next.malloc n := hm
  obtain ⟨head, heap', hall, hk, hnull, htree⟩ :=
    addAll_tree hws hfold Key.sound_blank (by simp [Key.blank]) hm'
  rw [tree_blank] at htree
  exact ⟨_, _, head, heap', by rw [wgKeytreeCreate, if_pos (hm _)]; rfl, hall, hk, hnull, htree⟩

theorem stored_iff {k : Key} {ws : List (List UInt8 × UInt64)} (hws : ∀ w ∈ ws, AlnumWord w.1)
    (htree : k.tree = PrefixTree.root.adds ws) (w : List UInt8) :
    w ≠ [] ∧ (w.foldl Key.next k).endOfWord = true ↔ w ∈ ws.map Prod.fst := by
  rw [Key.endOfWord_iff, htree, PrefixTree.stores_adds]
  constructor
  · rintro ⟨hne, hw | ⟨v, hv⟩⟩
    · exact hw
    · rw [PrefixTree.entry_root hne] at hv
      cases hv
  · intro hw
    obtain ⟨v, hv, rfl⟩ := List.mem_map.mp hw
    exact ⟨(hws v hv).1, .inl hw⟩

/-- Each lookup decides whether the letters and digits a string starts with were added. -/
theorem lookups_decide_membership {type : UInt32} (htype : type &&& 1 = 0) (cb : Bool)
    {heap : Heap} (hm : ∀ n, heap.malloc n) {ws : List (List UInt8 × UInt64)}
    (hws : ∀ w ∈ ws, AlnumWord w.1) {s : List UInt8} (hs : ∀ c ∈ s, c ≠ 0 ∧ c < 128) :
    ∃ head₀ heap₀ head heap',
      wgKeytreeCreate type cb [] heap = .ok (wNoError, some head₀, heap₀) ∧
      addAll head₀ heap₀ ws = .ok (head, heap') ∧
      (∃ e, wgKeytreeStrcmp head s = .ok e ∧ (e = wNoError ↔
        leading s ∈ ws.map Prod.fst ∧ (isspace (after s) ∨ iscntrl (after s)))) ∧
      (∃ e data, wgKeytreeKeyget head s = .ok (e, data) ∧
        (e = wNoError ↔ leading s ∈ ws.map Prod.fst)) ∧
      wgKeytreeStrcmpIsalnum head s =
        .ok (if leading s ∈ ws.map Prod.fst then ((leading s).length : Int) else -1) := by
  obtain ⟨head₀, heap₀, head, heap', hcreate, hall, hk, hnull, htree⟩ := created htype cb hm hws
  have hmem := stored_iff hws htree
  refine ⟨head₀, heap₀, head, heap', hcreate, hall, ?_, ?_, ?_⟩
  · refine ⟨_, lookupLoop_eq _ (fun _ _ c _ hc => by simp [(alnum_goes_on c hc).1]) hk hnull 0 s _, ?_⟩
    simp only [hmem]
    by_cases hw : leading s ∈ ws.map Prod.fst
    · simp only [hw, if_true, true_and, ← Bool.or_eq_true]
      cases isspace (after s) || iscntrl (after s) <;> decide
    · simp only [hw, if_false, false_and]
      decide
  · have hget := keytreeKeyget_eq hk hnull fun c hc => (hs c hc).2
    by_cases hw : leading s ∈ ws.map Prod.fst
    · obtain ⟨hne, heow⟩ := (hmem _).mpr hw
      obtain ⟨udata, he⟩ := (Key.endOfWord_iff _ _).mp heow
      exact ⟨_, _, wgKeytreeKeyget_stored hk hnull (fun c hc => (hs c hc).2) hne he, by simp [hw]⟩
    · rw [if_neg (by rwa [hmem])] at hget
      refine ⟨wEOperationFailed, none, ?_, by simp only [hw]; decide⟩
      simp only [wgKeytreeKeyget, hget]
      rfl
  · rw [wgKeytreeStrcmpIsalnum, lookupLoop_eq _ (fun _ _ c _ hc => by simp [hc]) hk hnull]
    simp only [hmem, not_isalnum_after, Bool.not_eq_true', if_true]
    by_cases hw : leading s ∈ ws.map Prod.fst
    · have hlen := List.length_pos_of_ne_nil ((hmem _).mpr hw).1
      rw [if_pos hw, if_pos hw]
      congr 1
      omega
    · rw [if_neg hw, if_neg hw]

theorem lookups_decide_membership_word :
    ∃ head₀ heap₀ head heap',
      wgKeytreeCreate 0 false [] ⟨fun _ => true, 0⟩ = .ok (wNoError, some head₀, heap₀) ∧
      addAll head₀ heap₀ [([0x61, 0x62], 7), ([0x61], 9)] = .ok (head, heap') ∧
      (∃ e, wgKeytreeStrcmp head [0x61, 0x62, 0x2D] = .ok e ∧ (e = wNoError ↔
        leading [0x61, 0x62, 0x2D] ∈ [[0x61, 0x62], [0x61]] ∧
          (isspace (after [0x61, 0x62, 0x2D]) ∨ iscntrl (after [0x61, 0x62, 0x2D])))) ∧
      (∃ e data, wgKeytreeKeyget head [0x61, 0x62, 0x2D] = .ok (e, data) ∧
        (e = wNoError ↔ leading [0x61, 0x62, 0x2D] ∈ [[0x61, 0x62], [0x61]])) ∧
      wgKeytreeStrcmpIsalnum head [0x61, 0x62, 0x2D] =
        .ok (if leading [0x61, 0x62, 0x2D] ∈ [[0x61, 0x62], [0x61]] then
          ((leading [0x61, 0x62, 0x2D]).length : Int) else -1) :=
  lookups_decide_membership (by decide) false (fun _ => rfl) (by decide +kernel) (by decide +kernel)

end Wtools
