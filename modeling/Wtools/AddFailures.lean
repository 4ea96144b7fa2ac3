import Wtools.TrieWords

/-!
# Adds without memory

An add of letters and digits that gets all the memory it needs stores its word. When a `malloc`
fails it does not: the tables of letters do not look at it, and otherwise the tables of the head
are freed, which only a head without tables survives.
-/

namespace Wtools
open PrefixTree

/-- The tables of a key. -/
def Key.keysOf : Key → Table → Keys
  | .null, _ => .null
  | .key _ _ keys _ _, t => keys t

instance (h : Heap) (n : Nat) : Decidable (h.Grants n) :=
  inferInstanceAs (Decidable (∀ i < n, h.malloc (h.calls + i)))

/-- The word is stored. -/
def Stored (head : KeytreeHead) (w : List UInt8) (udata : UInt64) (heap : Heap) : Prop :=
  ∃ r, wgKeytreeAdd head w udata heap = .ok r ∧ r.error ≠ wENoMemory ∧
    r.head.top.spots.Stores (pathOf head.folds w)

/-- The add fails, nothing that can be reached is freed, and the words and their data stay. -/
def Declined (head : KeytreeHead) (w : List UInt8) (udata : UInt64) (heap : Heap) : Prop :=
  ∃ r, wgKeytreeAdd head w udata heap = .ok r ∧ r.error = wENoMemory ∧
    (∀ p t, (r.head.top.find p).keysOf t ≠ .freed) ∧
    ∀ p v, r.head.top.spots.entry p = some (true, v) ↔ head.top.spots.entry p = some (true, v)

/-- An add does what it should: it stores the word if it gets the memory it needs, and leaves the
tree alone if it does not. -/
def Intact (head : KeytreeHead) (w : List UInt8) (udata : UInt64) (heap : Heap) : Prop :=
  (heap.Grants (head.top.needs head.folds w) → Stored head w udata heap) ∧
  (¬heap.Grants (head.top.needs head.folds w) → Declined head w udata heap)

/-- There is memory enough, or none for the table of the digit that would be the first table. -/
def Spared (head : KeytreeHead) (w : List UInt8) (heap : Heap) : Prop :=
  heap.Grants (head.top.needs head.folds w) ∨
  (∀ t, head.top.hasTable t = false) ∧ isdigit (peek w) ∧ heap.malloc heap.calls = false

/-- The trees that adds of words of letters and digits lead to, each as `Spared` has it. -/
inductive Reached : KeytreeHead → Prop
  | create {type : UInt32} {cb : Bool} {heap heap' : Heap} {head : KeytreeHead}
      (hr : wgKeytreeCreate type cb [] heap = .ok (wNoError, some head, heap')) : Reached head
  | add {head : KeytreeHead} {w : List UInt8} {udata : UInt64} {heap : Heap} {r : AddResult}
      (h : Reached head) (hw : AlnumWord w) (hs : Spared head w heap)
      (hr : wgKeytreeAdd head w udata heap = .ok r) : Reached r.head

section Characters
variable {fold : Bool} {c : UInt8} {s : Spot} {w : List UInt8}

theorem alnum_filed : ∀ (fold : Bool) (c : UInt8), isalnum c → (filed fold c).isSome := by
  decide +kernel

/-- Only a failure for the table or the key of a digit is seen. -/
theorem digit_spot : ∀ (fold : Bool) (c : UInt8), isalnum c →
    (filed fold c).all (fun s => s.1 = .lower ∨ s.1 = .upper ∨ isdigit c) = true := by
  decide +kernel

theorem digit_filed : ∀ (fold : Bool) (c : UInt8), isdigit c →
    filed fold c = some (.number, c.toNat - 0x30) := by
  decide +kernel

theorem AlnumWord.addable (hw : AlnumWord w) (fold : Bool) : Addable fold w := by
  obtain ⟨hne, hall⟩ := hw
  have hfiled : ∀ c ∈ w, (filed fold c).isSome := fun c hc => alnum_filed fold c (hall c hc)
  refine ⟨?_, ?_⟩
  · cases w with
    | nil => exact absurd rfl hne
    | cons c w => exact hfiled c List.mem_cons_self
  · intro c hc
    obtain ⟨s, hs⟩ := Option.isSome_iff_exists.mp (hfiled c hc)
    exact filed_not_beyond hs

end Characters

section Failures
variable {fold : Bool} {udata : UInt64} {c : UInt8} {w : List UInt8} {k : Key} {heap : Heap}
variable {s : Spot} {r : Added}

theorem hasTable_iff (k : Key) (t : Table) : k.hasTable t = true ↔ k.keysOf t = .live := by
  cases k with
  | null => simp [Key.hasTable, Key.keysOf]
  | key _ _ keys _ _ => simp [Key.hasTable, Key.keysOf]

theorem hasTable_under {t : Table} {x : Except KeyFault Added} {above : Key → Key}
    (habove : ∀ sub, (above sub).hasTable t = true) (h : x.map (·.under above) = .ok r) :
    r.key.hasTable t = true := by
  obtain ⟨r', -, rfl⟩ := map_under_eq_ok h
  exact habove r'.key

/-- When the first character has passed, its table is there to be freed. -/
theorem createKey_failed (hk : k.Sane) (hnull : k ≠ .null) (hc : filed fold c = some s)
    {new_elem : Bool}
    (h : createKey fold udata (c :: w) false new_elem k heap = .ok r)
    (herror : r.error = wENoMemory) :
    (∃ t, r.key.hasTable t = true) ∨
      (∀ t, k.hasTable t = false) ∧ s.1 ≠ .lower ∧ s.1 ≠ .upper ∧
        heap.malloc heap.calls = false := by
  have htouch : (k.touch s.1).hasTable s.1 = true :=
    (Key.hasTable_touch hnull s.1 s.1).mpr (.inl rfl)
  have hgrow : ∀ sub, (k.grow s sub).hasTable s.1 = true :=
    fun sub => (Key.hasTable_grow hnull s sub s.1).mpr (.inl rfl)
  rw [createKey_entry hk hnull hc] at h
  split at h
  · rename_i hnone
    split at h
    · cases h
    · rename_i hletter
      rw [not_or] at hletter
      cases h
      by_cases htable : ∃ t, k.hasTable t = true
      · exact .inl htable
      · push Not at htable
        exact .inr ⟨fun t => by simpa using htable t, hletter.1, hletter.2, hnone.2⟩
  · refine .inl ⟨s.1, ?_⟩
    split at h
    · exact hasTable_under hgrow h
    · split at h
      · exact hasTable_under hgrow h
      · split at h
        · cases h
        · cases h
          exact htouch

/-- Without memory for the table of a first digit, the add has done nothing yet. -/
theorem createKey_digit_declined (hnull : k ≠ .null) (hc : isdigit c)
    (hnone : k.hasTable .number = false) (hk : k.Sane) (hm : heap.malloc heap.calls = false)
    (started new_elem : Bool) :
    createKey fold udata (c :: w) started new_elem k heap = .ok (.noMemory k heap.next) := by
  rw [createKey_entry hk hnull (digit_filed fold c hc), if_pos ⟨hnone, hm⟩]
  rfl

/-- The release frees the tables of the head, and nothing else. -/
theorem wgKeyRelease_ok {top : Key} (h : wgKeyRelease k = .ok top) :
    (∀ t, k.hasTable t = true → top.keysOf t = .freed) ∧
      ((∀ t, k.hasTable t = false) → top = k) := by
  cases k with
  | null => cases h
  | key eow old keys nb child =>
    rw [wgKeyRelease] at h
    split at h
    · cases h
    · cases h
      constructor
      · intro t ht
        rw [hasTable_iff] at ht
        change keys t = .live at ht
        simp [Key.keysOf, ht]
      · intro hnone
        have hsame : (fun t => if keys t = .live then .freed else keys t) = keys := by
          funext t
          refine if_neg ?_
          intro ht
          have := hnone t
          simp [Key.hasTable, ht] at this
        rw [hsame]

theorem wgKeyRelease_none (hk : k.Sane) (hnull : k ≠ .null) (hnone : ∀ t, k.hasTable t = false) :
    wgKeyRelease k = .ok k := by
  cases h : wgKeyRelease k with
  | ok top => rw [(wgKeyRelease_ok h).2 hnone]
  | error e =>
    cases k with
    | null => exact absurd rfl hnull
    | key eow old keys nb child =>
      obtain ⟨hfreed, -⟩ := hk
      simp [wgKeyRelease, hfreed] at h

end Failures

theorem Key.Sane.unfreed {k : Key} (hk : k.Sane) (p : List Spot) (t : Table) :
    (k.find p).keysOf t ≠ .freed := by
  have hp : (k.find p).Sane := by
    induction p generalizing k with
    | nil => exact hk
    | cons s p ih => exact ih (hk.at s)
  cases h : k.find p with
  | null => exact Keys.noConfusion
  | key _ _ _ _ _ =>
    rw [h] at hp
    exact hp.1 t

section Heads
variable {head : KeytreeHead} {w : List UInt8} {heap : Heap}

theorem stored_of_granted (hk : head.top.Sane) (hnull : head.top ≠ .null) (hw : AlnumWord w)
    (udata : UInt64) (hg : heap.Grants (head.top.needs head.folds w)) :
    Stored head w udata heap := by
  obtain ⟨r, hgrown, hr⟩ := wgKeytreeAdd_grown hk hnull (hw.addable head.folds) udata hg
  refine ⟨_, hr, hgrown.error, ?_⟩
  obtain ⟨v, -, hspots⟩ := hgrown.spots
  change r.key.spots.Stores (pathOf head.folds w)
  rw [hspots, PrefixTree.stores_add]
  exact .inl rfl

/-- The word of a digit first that is spared comes to nothing. -/
theorem add_spared (hk : head.top.Sane) (hnull : head.top ≠ .null)
    (hnone : ∀ t, head.top.hasTable t = false) (hdigit : isdigit (peek w)) (hne : w ≠ [])
    (udata : UInt64) (hm : heap.malloc heap.calls = false) :
    wgKeytreeAdd head w udata heap = .ok ⟨head, wENoMemory, none, none, heap.next⟩ := by
  obtain ⟨c, w, rfl⟩ := List.exists_cons_of_ne_nil hne
  have hcreate : createKey head.folds udata (c :: w) false false head.top heap =
      .ok (.noMemory head.top heap.next) :=
    createKey_digit_declined hnull hdigit (hnone .number) hk hm false false
  simp [wgKeytreeAdd, parseFileCreateKey, hcreate, Added.noMemory, wgKeyRelease_none hk hnull hnone,
    bind, Except.bind, pure, Except.pure]

theorem spared_of_declined (hk : head.top.Sane) (hnull : head.top ≠ .null) (hw : AlnumWord w)
    {udata : UInt64} (h : Declined head w udata heap) :
    (∀ t, head.top.hasTable t = false) ∧ isdigit (peek w) ∧ heap.malloc heap.calls = false := by
  obtain ⟨r, hr, herror, hfreed, -⟩ := h
  obtain ⟨c, w, rfl⟩ := List.exists_cons_of_ne_nil hw.1
  have hc : isalnum c := hw.2 c List.mem_cons_self
  obtain ⟨s, hs⟩ := Option.isSome_iff_exists.mp (alnum_filed head.folds c hc)
  rw [wgKeytreeAdd, parseFileCreateKey, if_neg hw.1] at hr
  cases hcreate : createKey head.folds udata (c :: w) false false head.top heap with
  | error e =>
    rw [hcreate] at hr
    cases hr
  | ok r' =>
    rw [hcreate] at hr
    simp only [bind, Except.bind] at hr
    by_cases herror' : r'.error = wENoMemory
    · rw [if_pos herror'] at hr
      cases hrelease : wgKeyRelease r'.key with
      | error e =>
        rw [hrelease] at hr
        cases hr
      | ok top =>
        rw [hrelease] at hr
        cases hr
        rcases createKey_failed hk hnull hs hcreate herror' with
          ⟨t, ht⟩ | ⟨hnone, hlower, hupper, hm⟩
        · exact absurd ((wgKeyRelease_ok hrelease).1 t ht) (hfreed [] t)
        · have hdigit := digit_spot head.folds c hc
          rw [hs, Option.all_some, decide_eq_true_eq] at hdigit
          exact ⟨hnone, (hdigit.resolve_left hlower).resolve_left hupper, hm⟩
    · rw [if_neg herror'] at hr
      cases hr
      exact absurd herror herror'

end Heads

theorem Reached.sane {head : KeytreeHead} (h : Reached head) :
    head.top.Sane ∧ head.top ≠ .null := by
  induction h with
  | @create type cb heap heap' head hr =>
    rw [wgKeytreeCreate] at hr
    split at hr
    · cases hr
      exact ⟨Key.sane_blank, by simp [Key.blank]⟩
    · cases hr
  | @add head w udata heap r _ hw hs hr ih =>
    rcases hs with hg | ⟨hnone, hdigit, hm⟩
    · obtain ⟨r', hgrown, hr'⟩ := wgKeytreeAdd_grown ih.1 ih.2 (hw.addable head.folds) udata hg
      rw [hr'] at hr
      cases hr
      exact ⟨hgrown.sane, hgrown.isKey⟩
    · rw [add_spared ih.1 ih.2 hnone hdigit hw.1 udata hm] at hr
      cases hr
      exact ih

/-- In a tree that was reached, an add does what it should if and only if it is spared. -/
theorem add_intact_iff {head : KeytreeHead} (h : Reached head) {w : List UInt8} (hw : AlnumWord w)
    (udata : UInt64) (heap : Heap) : Intact head w udata heap ↔ Spared head w heap := by
  obtain ⟨hk, hnull⟩ := h.sane
  constructor
  · intro hintact
    by_cases hg : heap.Grants (head.top.needs head.folds w)
    · exact .inl hg
    · exact .inr (spared_of_declined hk hnull hw (hintact.2 hg))
  · intro hs
    refine ⟨stored_of_granted hk hnull hw udata, ?_⟩
    intro hg
    obtain ⟨hnone, hdigit, hm⟩ := hs.resolve_left hg
    exact ⟨_, add_spared hk hnull hnone hdigit hw.1 udata hm, rfl, hk.unfreed, fun _ _ => Iff.rfl⟩

theorem add_intact_iff_digit :
    Reached ⟨0, false, .blank⟩ ∧
      (Intact ⟨0, false, .blank⟩ [0x31] 7 ⟨fun _ => false, 0⟩ ↔
        Spared ⟨0, false, .blank⟩ [0x31] ⟨fun _ => false, 0⟩) := by
  have hcreate : wgKeytreeCreate 0 false [] ⟨fun _ => true, 0⟩ =
      .ok (wNoError, some ⟨0, false, .blank⟩, ⟨fun _ => true, 1⟩) := rfl
  exact ⟨.create hcreate, add_intact_iff (.create hcreate) (by decide +kernel) 7 ⟨fun _ => false, 0⟩⟩

/-- With `a` in the tree, an add of `1` without its table frees the table of `a`, and an add of `ab`
without the table of `b` adds `a`. -/
theorem failed_adds_do_harm :
    ∃ head₀ heap₀ head heap' r₁ r₂,
      wgKeytreeCreate 0 false [] ⟨fun n => n ≠ 3, 0⟩ = .ok (wNoError, some head₀, heap₀) ∧
      addAll head₀ heap₀ [([0x61], 7)] = .ok (head, heap') ∧ Reached head ∧
      wgKeytreeAdd head [0x31] 9 heap' = .ok r₁ ∧ r₁.error = wENoMemory ∧
      r₁.head.top.keysOf .lower = .freed ∧ ¬Intact head [0x31] 9 heap' ∧
      wgKeytreeAdd head [0x61, 0x62] 9 heap' = .ok r₂ ∧ r₂.error = wEExists ∧
      ¬Intact head [0x61, 0x62] 9 heap' := by
  have hcreate : wgKeytreeCreate 0 false [] ⟨fun n => n ≠ 3, 0⟩ =
      .ok (wNoError, some ⟨0, false, .blank⟩, ⟨fun n => n ≠ 3, 1⟩) := rfl
  have hadd : wgKeytreeAdd ⟨0, false, .blank⟩ [0x61] 7 ⟨fun n => n ≠ 3, 1⟩ = .ok _ := rfl
  refine ⟨_, _, _, _, _, _, rfl, rfl, ?_, rfl, rfl, rfl, ?_, rfl, rfl, ?_⟩
  · exact .add (.create hcreate) (by decide +kernel) (.inl (by decide)) hadd
  · intro h
    obtain ⟨r, hr, -, hfreed, -⟩ := h.2 (by decide)
    cases hr
    exact hfreed [] .lower rfl
  · intro h
    obtain ⟨r, hr, herror, -⟩ := h.2 (by decide)
    cases hr
    exact absurd herror (by decide)

end Wtools
