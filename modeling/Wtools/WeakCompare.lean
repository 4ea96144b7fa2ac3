import Wtools.TrieBounds

/-!
# The weak comparison

`wg_keytree_weakcmp` folds the characters of a string as the add does, and a word of ASCII letters,
digits and accented `e` of one byte is found in whatever case it is written. The second byte of an
accented `e` of two is passed by when a word is added, and is looked for when it is compared.
-/

namespace Wtools
open PrefixTree

/-- The characters of one byte. -/
def Plain (c : UInt8) : Prop := isalnum c ∨ (0xE8 ≤ c ∧ c ≤ 0xEB)

instance (c : UInt8) : Decidable (Plain c) := inferInstanceAs (Decidable (_ ∨ _))

/-- Words of ASCII letters, digits and accented `e`, in Latin-1 or in UTF-8. -/
inductive Accented : List UInt8 → Prop
  | nil : Accented []
  | plain {c : UInt8} {w : List UInt8} (hc : Plain c) (hw : Accented w) : Accented (c :: w)
  | utf8 {c : UInt8} {w : List UInt8} (hc : 0xA8 ≤ c ∧ c ≤ 0xAB) (hw : Accented w) :
    Accented (0xC3 :: c :: w)

def LetterWord (w : List UInt8) : Prop := Accented w ∧ w ≠ [] ∧ ¬isdigit (peek w)

/-- A word with some of its ASCII letters in the other case. -/
def Recased (w v : List UInt8) : Prop :=
  List.Forall₂ (fun c d => d = c ∨ isalpha c ∧ d = c ^^^ 0x20) w v

section Characters
variable {c d : UInt8}

theorem plain_filed : ∀ c, Plain c → (filed true c).isSome := by
  decide +kernel

theorem plain_spot : ∀ c, Plain c → ∀ x, (weakGuide true).spot x c = filed true c := by
  have hfixed : ∀ c, Plain c → (wordWeakType true c).2.isSome ∧
      (if weakTable true c = .number then some c else (wordWeakType true c).2).bind
        (weakTable true c).entryOf = filed true c := by
    decide +kernel
  intro c hc x
  obtain ⟨hsome, hspot⟩ := hfixed c hc
  obtain ⟨r, hr⟩ := Option.isSome_iff_exists.mp hsome
  rw [← hspot]
  simp only [weakGuide, lCharacter, hr]
  rfl

theorem recased_plain : ∀ c, isalpha c →
    Plain (c ^^^ 0x20) ∧ filed true (c ^^^ 0x20) = filed true c := by
  decide +kernel

theorem first_filed : filed true 0xC3 = some (.lower, 4) := by
  decide +kernel

theorem second_unfiled : ∀ c : UInt8, 0xA8 ≤ c ∧ c ≤ 0xAB →
    filed true c = none ∧ tableFor true c = some .other ∧ ¬Beyond c := by
  decide +kernel

theorem second_spot : ∀ c : UInt8, 0xA8 ≤ c ∧ c ≤ 0xAB → ∀ x, (weakGuide true).spot x c = none := by
  have hfixed : ∀ c : UInt8, 0xA8 ≤ c ∧ c ≤ 0xAB → wordWeakType true c = (0, some c) ∧
      (if weakTable true c = .number then some c else some c).bind
        (weakTable true c).entryOf = none := by
    decide +kernel
  intro c hc x
  obtain ⟨htype, hspot⟩ := hfixed c hc
  rw [← hspot]
  simp only [weakGuide, lCharacter, htype]
  rfl

/-- No character of a word looks like its end. -/
theorem goes_on : ∀ c : UInt8, Plain c ∨ c = 0xC3 ∨ (0xA8 ≤ c ∧ c ≤ 0xAB) →
    (isspace c || iscntrl c) = false := by
  decide +kernel

end Characters

theorem Accented.notBeyond {w : List UInt8} (hw : Accented w) : ∀ c ∈ w, ¬Beyond c := by
  induction hw with
  | nil => simp
  | plain hc _ ih =>
    rw [List.forall_mem_cons]
    obtain ⟨s, hs⟩ := Option.isSome_iff_exists.mp (plain_filed _ hc)
    exact ⟨filed_not_beyond hs, ih⟩
  | utf8 hc _ ih =>
    rw [List.forall_mem_cons, List.forall_mem_cons]
    exact ⟨filed_not_beyond first_filed, (second_unfiled _ hc).2.2, ih⟩

theorem LetterWord.addable {w : List UInt8} (hw : LetterWord w) : Addable true w := by
  obtain ⟨haccented, hne, -⟩ := hw
  refine ⟨?_, haccented.notBeyond⟩
  cases haccented with
  | nil => exact absurd rfl hne
  | plain hc _ => exact plain_filed _ hc
  | utf8 _ _ => simp [peek, first_filed]

theorem Accented.plain_of_notMem {w : List UInt8} (hw : Accented w) (h : 0xC3 ∉ w) :
    ∀ c ∈ w, Plain c := by
  induction hw with
  | nil => simp
  | plain hc _ ih =>
    rw [List.mem_cons, not_or] at h
    rw [List.forall_mem_cons]
    exact ⟨hc, ih h.2⟩
  | utf8 _ _ _ => simp at h

theorem Recased.refl (w : List UInt8) : Recased w w := by
  rw [Recased, List.forall₂_same]
  intro c _
  exact .inl rfl

theorem Recased.plain {w v : List UInt8} (h : Recased w v) (hw : ∀ c ∈ w, Plain c) :
    (∀ c ∈ v, Plain c) ∧ pathOf true v = pathOf true w := by
  induction h with
  | nil => exact ⟨by simp, rfl⟩
  | @cons c d w v hcd _ ih =>
    rw [List.forall_mem_cons] at hw ⊢
    obtain ⟨hplain, hpath⟩ := ih hw.2
    have hd : Plain d ∧ filed true d = filed true c := by
      rcases hcd with rfl | ⟨hc, rfl⟩
      · exact ⟨hw.1, rfl⟩
      · exact recased_plain c hc
    refine ⟨⟨hd.1, hplain⟩, ?_⟩
    obtain ⟨s, hs⟩ := Option.isSome_iff_exists.mp (plain_filed c hw.1)
    rw [pathOf_filed hs, pathOf_filed (hd.2.trans hs), hpath]

theorem Key.endOfWord_find (k : Key) (p : List Spot) :
    (k.find p).endOfWord = true ↔ k.spots.Stores p := by
  rw [PrefixTree.Stores, PrefixTree.entry, ← Key.spots_find]
  cases k.find p with
  | null => simp [Key.endOfWord, Key.spots]
  | key eow udata _ _ _ => simp [Key.endOfWord, Key.spots, PrefixTree.label]

section Loop
variable {k : Key} {c : UInt8} {w s : List UInt8} {x : Option UInt8} {l_error : Int}

theorem Guide.Leads.eq_at {σ : Type} {g : Guide σ} {y : σ} {r : Except KeyFault Key} {t : Spot}
    (hk : k.Sane) (h : g.Leads k y c r) (ht : g.spot y c = some t) (hne : k.at t ≠ .null) :
    r = .ok (k.at t) := by
  cases h with
  | nowhere h => exact absurd (hk.at_eq_null (h _ (g.spot_table ht))) hne
  | entry _ hs =>
    rw [ht, Option.some.injEq] at hs
    rw [hs]
  | astray _ _ hs _ =>
    rw [ht] at hs
    cases hs

/-- At the key of a word only the final NUL is left to be looked for. -/
theorem weakLoop_last (hk : k.Sane) (hnull : k ≠ .null) :
    weakLoop true k x [] l_error =
      if k.hasTable .lower then .error .table else .ok l_error := by
  have hchar : lCharacter true x 0 = some 0 := rfl
  have htype : (wordWeakType true 0).1 = 0 := rfl
  cases k with
  | null => exact absurd rfl hnull
  | key eow udata keys nb child =>
    cases hkey : keys .lower with
    | freed => exact absurd hkey (hk.1 .lower)
    | null =>
      simp [weakLoop, weakKey, htype, hkey, Key.hasTable, bind, Except.bind, pure, Except.pure]
    | live =>
      simp [weakLoop, weakKey, hchar, htype, hkey, Key.hasTable, Table.base, bind, Except.bind]

theorem weakLoop_found (hs : ∀ c ∈ s, Plain c) (hk : k.Sane) (hnull : k ≠ .null)
    (hend : (k.find (pathOf true s)).endOfWord = true) (hl : s = [] → l_error = wNoError) :
    weakLoop true k x s l_error =
      if (k.find (pathOf true s)).hasTable .lower then .error .table else .ok wNoError := by
  induction s generalizing k x l_error with
  | nil =>
    rw [weakLoop_last hk hnull, hl rfl]
    rfl
  | cons c s ih =>
    rw [List.forall_mem_cons] at hs
    obtain ⟨t, ht⟩ := Option.isSome_iff_exists.mp (plain_filed c hs.1)
    rw [pathOf_filed ht, Key.find_cons] at hend ⊢
    have hne : k.at t ≠ .null := by
      intro h
      rw [h, Key.null_find] at hend
      cases hend
    have hkey := (weakKey_leads hk hnull true x).eq_at hk ((plain_spot c hs.1 x).trans ht) hne
    have hsane := hk.at t
    rw [weakLoop, hkey]
    cases hat : k.at t with
    | null => exact absurd hat hne
    | key eow udata keys nb child =>
      rw [hat] at hend hsane
      refine ih hs.2 hsane Key.noConfusion hend ?_
      rintro rfl
      have heow : eow = true := hend
      rw [heow]
      rfl

/-- A step that does not come to the end of a word keeps the error. -/
theorem weakLoop_keeps (hk : k.Sane) (hnull : k ≠ .null) (hl : l_error ≠ wNoError)
    (hgo : (isspace (peek w) || iscntrl (peek w)) = false)
    (hrest : ∀ k', k'.Sane → k' ≠ .null →
      weakLoop true k' (lCharacter true x c) w l_error ≠ .ok wNoError) :
    weakLoop true k x (c :: w) l_error ≠ .ok wNoError := by
  have hleads := weakKey_leads (c := c) hk hnull true x
  rw [weakLoop]
  cases hr : weakKey true k c (lCharacter true x c) with
  | error e =>
    intro h
    cases h
  | ok k' =>
    cases k' with
    | null =>
      intro h
      cases h
      exact hl rfl
    | key eow udata keys nb child =>
      intro h
      refine hrest _ (hleads.sane hk hr) Key.noConfusion ?_
      rw [← h]
      simp [bind, Except.bind, hgo]

/-- The second byte of an accented `e` has no entry among the lower case letters. -/
theorem weakLoop_second (hk : k.Sane) (hnull : k ≠ .null) (hc : 0xA8 ≤ c ∧ c ≤ 0xAB)
    (hl : l_error ≠ wNoError) : weakLoop true k x (c :: w) l_error ≠ .ok wNoError := by
  have hleads := weakKey_leads (c := c) hk hnull true x
  have hspot := second_spot c hc x
  rw [weakLoop]
  cases hr : weakKey true k c (lCharacter true x c) with
  | error e =>
    intro h
    cases h
  | ok k' =>
    rw [hr] at hleads
    cases hleads with
    | nowhere _ =>
      intro h
      cases h
      exact hl rfl
    | entry _ hs =>
      rw [hspot] at hs
      cases hs
    | astray _ _ _ hr => exact absurd (inBounds_ok _) hr

theorem weakLoop_missed (hw : Accented w) (hmem : 0xC3 ∈ w) (hk : k.Sane) (hnull : k ≠ .null)
    (hl : l_error ≠ wNoError) : weakLoop true k x w l_error ≠ .ok wNoError := by
  induction hw generalizing k x with
  | nil => cases hmem
  | @plain c w hc hw ih =>
    have hmem' : 0xC3 ∈ w := by
      rcases List.mem_cons.mp hmem with rfl | hmem
      · exact absurd hc (by decide)
      · exact hmem
    apply weakLoop_keeps hk hnull hl
    · cases hw with
      | nil => cases hmem'
      | plain hd _ => exact goes_on _ (.inl hd)
      | utf8 _ _ => exact goes_on _ (.inr (.inl rfl))
    · intro k' hk' hnull'
      exact ih hmem' hk' hnull'
  | utf8 hc hw _ =>
    apply weakLoop_keeps hk hnull hl
    · exact goes_on _ (.inr (.inr hc))
    · intro k' hk' hnull'
      exact weakLoop_second hk' hnull' hc hl

end Loop

section Heads
variable {head : KeytreeHead} {w v : List UInt8}

/-- The comparison of a stored word of one-byte characters, in whatever case it is written. -/
theorem weakcmp_plain (hfold : head.folds = true) (hk : head.top.Sane) (hnull : head.top ≠ .null)
    (hw : LetterWord w) (hnot : 0xC3 ∉ w) (hend : (head.top.find (pathOf true w)).endOfWord = true)
    (hv : Recased w v) (weak_type : UInt32) :
    wgKeytreeWeakcmp head weak_type v =
      if (head.top.find (pathOf true w)).hasTable .lower then .error .table else .ok wNoError := by
  obtain ⟨hplain, hpath⟩ := hv.plain (hw.1.plain_of_notMem hnot)
  rw [← hpath] at hend ⊢
  rw [wgKeytreeWeakcmp, hfold]
  refine weakLoop_found hplain hk hnull hend ?_
  intro hnil
  have hlen := hv.length_eq
  rw [hnil, List.length_nil] at hlen
  exact absurd (List.eq_nil_of_length_eq_zero hlen) hw.2.1

theorem weakcmp_utf8 (hfold : head.folds = true) (hk : head.top.Sane) (hnull : head.top ≠ .null)
    (hw : LetterWord w) (hmem : 0xC3 ∈ w) (weak_type : UInt32) :
    wgKeytreeWeakcmp head weak_type w ≠ .ok wNoError := by
  rw [wgKeytreeWeakcmp, hfold]
  exact weakLoop_missed hw.1 hmem hk hnull (by decide)

end Heads

/-- A word is recognised in every case if and only if it has no accented `e` of two bytes and no
other word goes on with a letter after it. -/
theorem weakcmp_recognises_iff {type : UInt32} (htype : type &&& 1 ≠ 0) (cb : Bool) {heap : Heap}
    (hm : ∀ n, heap.malloc n) {ws : List (List UInt8 × UInt64)} (hws : ∀ w ∈ ws, LetterWord w.1) :
    ∃ head₀ heap₀ head heap',
      wgKeytreeCreate type cb [] heap = .ok (wNoError, some head₀, heap₀) ∧
      addAll head₀ heap₀ ws = .ok (head, heap') ∧
      ∀ w ∈ ws, (∀ v, Recased w.1 v → ∀ weak_type,
          wgKeytreeWeakcmp head weak_type v = .ok wNoError) ↔
        0xC3 ∉ w.1 ∧ ∀ u ∈ ws, ¬Touches true u.1 (pathOf true w.1) .lower := by
  have hfold : (KeytreeHead.mk type cb .blank).folds = true := by simp [KeytreeHead.folds, htype]
  have haddable : ∀ w ∈ ws, Addable (KeytreeHead.mk type cb .blank).folds w.1 := by
    intro w hw
    rw [hfold]
    exact (hws w hw).addable
  obtain ⟨heap₀, head, heap', hcreate, hall, hplanted⟩ := created_planted type cb hm haddable
  refine ⟨_, heap₀, head, heap', hcreate, hall, ?_⟩
  have hk := hplanted.sane
  have hnull := hplanted.isKey
  have hfolds := hplanted.folds.trans hfold
  intro w hw
  have hlower : (head.top.find (pathOf true w.1)).hasTable .lower = true ↔
      ∃ u ∈ ws, Touches true u.1 (pathOf true w.1) .lower := by
    rw [hplanted.tables, hfold]
    simp [Key.hasTable_blank]
  have hend : (head.top.find (pathOf true w.1)).endOfWord = true := by
    obtain ⟨ps, hps, hspots⟩ := hplanted.spots
    rw [Key.endOfWord_find, hspots, PrefixTree.stores_adds, hps, hfold]
    exact .inl (List.mem_map.mpr ⟨w, hw, rfl⟩)
  constructor
  · intro hall
    have hself := hall w.1 (Recased.refl w.1) 0
    have hnot : 0xC3 ∉ w.1 := fun hmem => weakcmp_utf8 hfolds hk hnull (hws w hw) hmem 0 hself
    refine ⟨hnot, ?_⟩
    intro u hu htouch
    rw [weakcmp_plain hfolds hk hnull (hws w hw) hnot hend (Recased.refl w.1),
      if_pos (hlower.mpr ⟨u, hu, htouch⟩)] at hself
    cases hself
  · rintro ⟨hnot, hlast⟩ v hv weak_type
    rw [weakcmp_plain hfolds hk hnull (hws w hw) hnot hend hv, if_neg]
    intro h
    obtain ⟨u, hu, htouch⟩ := hlower.mp h
    exact hlast u hu htouch

theorem weakcmp_recognises_iff_two :
    ∃ head₀ heap₀ head heap',
      wgKeytreeCreate 1 false [] ⟨fun _ => true, 0⟩ = .ok (wNoError, some head₀, heap₀) ∧
      addAll head₀ heap₀ [([0x41, 0x31], 7), ([0xE9], 9)] = .ok (head, heap') ∧
      ∀ w ∈ [([0x41, 0x31], (7 : UInt64)), ([0xE9], 9)], (∀ v, Recased w.1 v → ∀ weak_type,
          wgKeytreeWeakcmp head weak_type v = .ok wNoError) ↔
        0xC3 ∉ w.1 ∧ ∀ u ∈ [([0x41, 0x31], (7 : UInt64)), ([0xE9], 9)],
          ¬Touches true u.1 (pathOf true w.1) .lower := by
  apply weakcmp_recognises_iff (by decide) false (fun _ => rfl)
  intro w hw
  rcases List.mem_cons.mp hw with rfl | hw
  · exact ⟨.plain (by decide) (.plain (by decide) .nil), by simp, by decide⟩
  · cases List.mem_singleton.mp hw
    exact ⟨.plain (by decide) .nil, by simp, by decide⟩

/-- An accented `e` in UTF-8 is not recognised, and after `ab` the comparison of `a` leaves the
table of the letters below it. -/
theorem weakcmp_misses_words :
    ∃ head₀ heap₀ head heap' head₂ heap₂,
      wgKeytreeCreate 1 false [] ⟨fun _ => true, 0⟩ = .ok (wNoError, some head₀, heap₀) ∧
      addAll head₀ heap₀ [([0xC3, 0xA9], 7)] = .ok (head, heap') ∧ LetterWord [0xC3, 0xA9] ∧
      wgKeytreeWeakcmp head 0 [0xC3, 0xA9] = .ok wEOperationFailed ∧
      addAll head₀ heap₀ [([0x61], 7), ([0x61, 0x62], 9)] = .ok (head₂, heap₂) ∧
      LetterWord [0x61] ∧ LetterWord [0x61, 0x62] ∧
      wgKeytreeWeakcmp head₂ 0 [0x61] = .error .table := by
  refine ⟨_, _, _, _, _, _, rfl, rfl, ?_, rfl, rfl, ?_, ?_, rfl⟩
  · exact ⟨.utf8 (by decide) .nil, by simp, by decide⟩
  · exact ⟨.plain (by decide) .nil, by simp, by decide⟩
  · exact ⟨.plain (by decide) (.plain (by decide) .nil), by simp, by decide⟩

end Wtools
