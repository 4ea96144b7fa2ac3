import Wtools.TriePaths

/-!
# Adds to the key tree

One add of any word to a tree that is sane, given the memory it needs: it goes through, and the
tree is the prefix tree of the paths, or it reaches for an entry or a key that is not there. Which
of the two is decided by the characters of the word.
-/

namespace Wtools
open PrefixTree

/-- The next `n` calls to `malloc` succeed. -/
def Heap.Grants (h : Heap) (n : Nat) : Prop := ∀ i < n, h.malloc (h.calls + i)

def Heap.skip (h : Heap) (n : Nat) : Heap := { h with calls := h.calls + n }

/-- The calls to `malloc` for the table of an entry. -/
def Key.lacks (k : Key) (t : Table) : Nat := if k.hasTable t then 0 else 1

/-- The calls to `malloc` for an entry. -/
def Key.costs (k : Key) (s : Spot) : Nat := k.lacks s.1 + if (k.at s).isNull then 1 else 0

/-- The key that the rest of a word goes below. -/
def Key.onto (k : Key) (s : Spot) : Key := if (k.at s).isNull then .blank else k.at s

/-- The calls to `malloc` for a word. -/
def Key.needs (fold : Bool) : Key → List UInt8 → Nat
  | _, [] => 0
  | k, c :: w =>
    match filed fold c, tableFor fold c with
    | some s, _ => k.costs s + needs fold (k.onto s) w
    | none, some t => k.lacks t + needs fold (k.touch t) w
    | none, none => needs fold k w

/-- No index left its table, and nothing was used before it was assigned. -/
def InBounds {α : Type} (r : Except KeyFault α) : Prop :=
  r ≠ .error .table ∧ r ≠ .error .uninitialised

section Bounds
variable {α β : Type} {r : Except KeyFault α}

@[simp] theorem inBounds_ok (x : α) : InBounds (.ok x) :=
  ⟨by simp, by simp⟩

@[simp] theorem not_inBounds_table : ¬InBounds (.error .table : Except KeyFault α) :=
  fun h => h.1 rfl

@[simp] theorem not_inBounds_uninitialised :
    ¬InBounds (.error .uninitialised : Except KeyFault α) :=
  fun h => h.2 rfl

theorem inBounds_bind (r : Except KeyFault α) (f : α → Except KeyFault β) :
    InBounds (r >>= f) ↔ InBounds r ∧ ∀ x, r = .ok x → InBounds (f x) := by
  cases r with
  | error e => simp [InBounds, bind, Except.bind]
  | ok x => simp [bind, Except.bind]

@[simp] theorem inBounds_map (f : α → β) (r : Except KeyFault α) :
    InBounds (r.map f) ↔ InBounds r := by
  cases r with
  | error e => simp [InBounds, Except.map]
  | ok x => simp [Except.map]

end Bounds

section Heaps
variable {h : Heap} {m n : Nat}

@[simp] theorem Heap.skip_zero (h : Heap) : h.skip 0 = h := rfl

@[simp] theorem Heap.skip_malloc (h : Heap) (n : Nat) : (h.skip n).malloc = h.malloc := rfl

theorem Heap.skip_skip (h : Heap) (m n : Nat) : (h.skip m).skip n = h.skip (m + n) := by
  simp only [skip, Nat.add_assoc]

theorem Heap.Grants.left (hg : h.Grants (m + n)) : h.Grants m := by
  intro i hi
  exact hg i (by omega)

theorem Heap.Grants.right (hg : h.Grants (m + n)) : (h.skip m).Grants n := by
  intro i hi
  simp only [skip, Nat.add_assoc]
  exact hg (m + i) (by omega)

theorem Heap.grants_of_all (hm : ∀ n, h.malloc n) (n : Nat) : h.Grants n :=
  fun _ _ => hm _

end Heaps

section Steps
variable {fold : Bool} {udata : UInt64} {c : UInt8} {w : List UInt8} {started new_elem : Bool}
variable {k : Key} {heap : Heap} {s : Spot}

theorem Key.Sane.onto (hk : k.Sane) (s : Spot) : (k.onto s).Sane := by
  unfold Key.onto
  split
  · exact Key.sane_blank
  · exact hk.at s

theorem Key.onto_ne_null (k : Key) (s : Spot) : k.onto s ≠ .null := by
  unfold Key.onto
  split
  · exact Key.noConfusion
  · rename_i h
    rw [Bool.not_eq_true] at h
    exact Key.isNull_eq_false.mp h

theorem map_under_eq_ok {x : Except KeyFault Added} {above : Key → Key} {r : Added}
    (h : x.map (·.under above) = .ok r) : ∃ r', x = .ok r' ∧ r = r'.under above := by
  cases x with
  | error e => cases h
  | ok r' =>
    cases h
    exact ⟨r', rfl, rfl⟩

/-- A character that has an entry. -/
theorem createKey_entry (hk : k.Sane) (hnull : k ≠ .null) (hc : filed fold c = some s) :
    createKey fold udata (c :: w) started new_elem k heap =
      if k.hasTable s.1 = false ∧ heap.malloc heap.calls = false then
        if s.1 = .lower ∨ s.1 = .upper then
          if started then createKey fold udata w true false k heap.next else .error .uninitialised
        else .ok (.noMemory k heap.next)
      else if (k.at s).isNull = false then
        (createKey fold udata w true false (k.at s) (heap.skip (k.lacks s.1))).map
          (·.under (k.grow s))
      else if heap.malloc (heap.calls + k.lacks s.1) then
        (createKey fold udata w true true .blank (heap.skip (k.lacks s.1 + 1))).map
          (·.under (k.grow s))
      else if s.1 = .lower ∨ s.1 = .upper then .error .nullKey
      else .ok (.noMemory (k.touch s.1) (heap.skip (k.lacks s.1 + 1))) := by
  cases k with
  | null => exact absurd rfl hnull
  | key eow old keys nb child =>
    obtain ⟨t, i⟩ := s
    obtain ⟨hp, hlt⟩ := filed_eq_some.mp hc
    dsimp only at hp hlt ⊢
    have hout : ¬(t = .other ∧ ((i : Int) < 0 ∨ 26 < (i : Int))) := by
      rintro ⟨rfl, hi⟩
      simp only [Table.size] at hlt
      omega
    have hrange : ¬((i : Int) < 0 ∨ (t.size : Int) ≤ i) := by omega
    have hgrow : (Key.key eow old keys nb child).grow (t, i) = fun sub =>
        .key eow old (Function.update keys t .live)
          (Function.update nb t (if (child t i).isNull then nb t + 1 else nb t))
          (Function.update child t (Function.update (child t) i sub)) := rfl
    conv_lhs => unfold createKey
    rw [hp, hgrow]
    dsimp only
    rw [if_neg (hk.1 t), if_neg hout, if_neg hrange, Int.toNat_natCast]
    cases hkey : keys t with
    | freed => exact absurd hkey (hk.1 t)
    | null =>
      have hlacks : (Key.key eow old keys nb child).lacks t = 1 := by
        simp [Key.lacks, Key.hasTable, hkey]
      rw [hlacks]
      cases hm : heap.malloc heap.calls with
      | false => simp [Key.hasTable, hkey]
      | true =>
        cases hsub : (child t i).isNull with
        | false => simp [Key.hasTable, hkey, Key.at, hsub, Heap.skip, Heap.next]
        | true => simp [Key.hasTable, hkey, Key.at, hsub, Heap.skip, Heap.next, Key.touch]
    | live =>
      have hlacks : (Key.key eow old keys nb child).lacks t = 0 := by
        simp [Key.lacks, Key.hasTable, hkey]
      have hlive : Function.update keys t .live = keys := by
        rw [← hkey, Function.update_eq_self]
      rw [hlacks]
      cases hsub : (child t i).isNull with
      | false => simp [Key.hasTable, hkey, Key.at, hsub, hlive]
      | true => simp [Key.hasTable, hkey, Key.at, hsub, hlive, Heap.skip, Heap.next, Key.touch]

/-- With the memory for them, the table and the key of an entry are found or made. -/
theorem createKey_at (hk : k.Sane) (hnull : k ≠ .null) (hc : filed fold c = some s)
    (hg : heap.Grants (k.costs s)) :
    createKey fold udata (c :: w) started new_elem k heap =
      (createKey fold udata w true (k.at s).isNull (k.onto s) (heap.skip (k.costs s))).map
        (·.under (k.grow s)) := by
  have htable : ¬(k.hasTable s.1 = false ∧ heap.malloc heap.calls = false) := by
    rintro ⟨hnone, hm⟩
    have hpos : 0 < k.costs s := by
      simp only [Key.costs, Key.lacks, hnone, Bool.false_eq_true, if_false]
      omega
    have hfirst := hg 0 hpos
    rw [Nat.add_zero, hm] at hfirst
    cases hfirst
  rw [createKey_entry hk hnull hc, if_neg htable]
  cases hsub : (k.at s).isNull with
  | false => simp [Key.costs, Key.onto, hsub]
  | true =>
    have hm : heap.malloc (heap.calls + k.lacks s.1) = true :=
      hg (k.lacks s.1) (by simp [Key.costs, hsub])
    simp [Key.costs, Key.onto, hsub, hm]

/-- A character that is not managed leaves the key as it was. -/
theorem createKey_unmanaged (hc : tableFor fold c = none) :
    createKey fold udata (c :: w) started new_elem k heap =
      if started then createKey fold udata w true false k heap else .error .uninitialised := by
  have hp : placeOf fold c = none := by
    rw [tableFor, Option.map_eq_none_iff] at hc
    exact hc
  cases k <;> simp [createKey, hp]

/-- A character outside the other characters makes their table, and no more. -/
theorem createKey_outside (hk : k.Sane) (hnull : k ≠ .null) {i : Int}
    (hc : placeOf fold c = some (.other, i)) (hi : i < 0 ∨ 26 < i)
    (hg : heap.Grants (k.lacks .other)) :
    createKey fold udata (c :: w) started new_elem k heap =
      if started then
        createKey fold udata w true false (k.touch .other) (heap.skip (k.lacks .other))
      else .error .uninitialised := by
  cases k with
  | null => exact absurd rfl hnull
  | key eow old keys nb child =>
    cases hkey : keys .other with
    | freed => exact absurd hkey (hk.1 .other)
    | null =>
      have hlacks : (Key.key eow old keys nb child).lacks .other = 1 := by
        simp [Key.lacks, Key.hasTable, hkey]
      rw [hlacks] at hg ⊢
      have h₁ : heap.malloc heap.calls = true := hg 0 (by decide)
      simp [createKey, hc, hkey, h₁, hi, Heap.next, Heap.skip, Key.touch]
    | live =>
      have hlacks : (Key.key eow old keys nb child).lacks .other = 0 := by
        simp [Key.lacks, Key.hasTable, hkey]
      have hlive : Function.update keys .other .live = keys := by
        rw [← hkey, Function.update_eq_self]
      rw [hlacks]
      simp [createKey, hc, hkey, hi, Key.touch, hlive]

/-- The character behind the other characters has no entry. -/
theorem createKey_beyond (hk : k.Sane) (hnull : k ≠ .null) (hc : Beyond c)
    (hm : ∀ n, heap.malloc n) :
    createKey fold udata (c :: w) started new_elem k heap = .error .table := by
  have hp := beyond_place fold c hc
  cases k with
  | null => exact absurd rfl hnull
  | key eow old keys nb child =>
    cases hkey : keys .other with
    | freed => exact absurd hkey (hk.1 .other)
    | null => simp [createKey, hp, hkey, hm, Table.size]
    | live => simp [createKey, hp, hkey, Table.size]

/-- How a character is treated. -/
theorem character_cases (fold : Bool) (c : UInt8) :
    (filed fold c = none ∧ tableFor fold c = none) ∨
    (∃ i, filed fold c = none ∧ placeOf fold c = some (.other, i) ∧ (i < 0 ∨ 26 < i)) ∨
    Beyond c ∨ ∃ s, filed fold c = some s := by
  rcases placeOf_cases fold c with hp | ⟨i, hp, hi⟩ | ⟨-, hb⟩ | ⟨t, i, hp, hlt, -⟩
  · exact .inl ⟨by rw [filed, hp], by rw [tableFor, hp]; rfl⟩
  · refine .inr (.inl ⟨i, ?_, hp, hi⟩)
    rw [filed, hp]
    refine if_neg ?_
    simp only [Table.size]
    omega
  · exact .inr (.inr (.inl hb))
  · exact .inr (.inr (.inr ⟨(t, i), filed_eq_some.mpr ⟨hp, hlt⟩⟩))

theorem filed_zero : ∀ fold : Bool, filed fold 0 = none := by
  decide +kernel

theorem Key.needs_filed (hc : filed fold c = some s) (k : Key) (w : List UInt8) :
    k.needs fold (c :: w) = k.costs s + (k.onto s).needs fold w := by
  rw [Key.needs, hc]

theorem Key.needs_unmanaged (hc : filed fold c = none) (ht : tableFor fold c = none) (k : Key)
    (w : List UInt8) : k.needs fold (c :: w) = k.needs fold w := by
  rw [Key.needs, hc, ht]

theorem Key.needs_outside {t : Table} (hc : filed fold c = none) (ht : tableFor fold c = some t)
    (k : Key) (w : List UInt8) :
    k.needs fold (c :: w) = k.lacks t + (k.touch t).needs fold w := by
  rw [Key.needs, hc, ht]

end Steps

section Tables
variable {k sub : Key} {p : List Spot} {s : Spot} {t u : Table}

theorem Key.blank_find (s : Spot) (p : List Spot) : Key.blank.find (s :: p) = .null :=
  Key.null_find p

theorem Key.hasTable_blank (p : List Spot) (u : Table) : (Key.blank.find p).hasTable u = false := by
  cases p with
  | nil => rfl
  | cons s p =>
    rw [Key.blank_find]
    rfl

theorem Key.hasTable_onto (k : Key) (s : Spot) (p : List Spot) (u : Table) :
    ((k.onto s).find p).hasTable u = ((k.at s).find p).hasTable u := by
  unfold Key.onto
  split
  · rename_i h
    cases hs : k.at s with
    | null =>
      rw [Key.hasTable_blank, Key.null_find]
      rfl
    | key _ _ _ _ _ => simp [hs] at h
  · rfl

theorem Key.spots_onto (k : Key) (s : Spot) :
    (if (k.at s).isNull then .null else (k.onto s).spots) = k.spots.child s := by
  rw [← Key.spots_at, Key.onto]
  cases k.at s with
  | null => rfl
  | key _ _ _ _ _ => rfl

theorem Key.tables_grow (hk : k ≠ .null) (s : Spot) (sub : Key) (p : List Spot) (u : Table) :
    ((k.grow s sub).find p).hasTable u = true ↔ p = [] ∧ (u = s.1 ∨ k.hasTable u = true) ∨
      (∃ p', p = s :: p' ∧ (sub.find p').hasTable u = true) ∨
      ∃ s' p', p = s' :: p' ∧ s' ≠ s ∧ ((k.at s').find p').hasTable u = true := by
  cases p with
  | nil => simp [Key.hasTable_grow hk]
  | cons s' p' =>
    rw [Key.find_cons, Key.grow_at hk]
    by_cases hs : s' = s
    · simp [hs]
    · simp [hs]

theorem Key.tables_touch (hk : k ≠ .null) (t : Table) (p : List Spot) (u : Table) :
    ((k.touch t).find p).hasTable u = true ↔ (p = [] ∧ u = t) ∨ (k.find p).hasTable u = true := by
  cases p with
  | nil => simp [Key.hasTable_touch hk]
  | cons s p => simp [Key.touch_at]

end Tables

/-- What an add that has its memory leaves of a key. -/
structure Grown (fold : Bool) (udata : UInt64) (t : PrefixTree Spot UInt64) (k : Key)
    (w : List UInt8) (heap : Heap) (r : Added) : Prop where
  sane : r.key.Sane
  isKey : r.key ≠ .null
  spots : ∃ v, ((∀ c ∈ w, (filed fold c).isSome) → v = udata) ∧
    r.key.spots = t.add v (pathOf fold w)
  tables : ∀ p u, (r.key.find p).hasTable u = true ↔
    (k.find p).hasTable u = true ∨ Touches fold w p u
  error : r.error ≠ wENoMemory
  heap : r.heap = heap

section Grown
variable {fold : Bool} {udata : UInt64} {t : PrefixTree Spot UInt64} {c : UInt8} {w : List UInt8}
variable {k : Key} {heap : Heap} {r : Added} {s : Spot}

theorem endWord_grown (hk : k.Sane) (hnull : k ≠ .null) {new_elem : Bool}
    (hnew : new_elem → k = .blank) :
    ∃ r, endWord new_elem udata heap k = .ok r ∧
      Grown fold udata (if new_elem then .null else k.spots) k [] heap r := by
  cases k with
  | null => exact absurd rfl hnull
  | key eow old keys nb child =>
    have htables : ∀ (data : UInt64) (p : List Spot) (u : Table),
        ((Key.key true data keys nb child).find p).hasTable u = true ↔
          ((Key.key eow old keys nb child).find p).hasTable u = true ∨ Touches fold [] p u := by
      intro data p u
      rw [or_iff_left touches_nil]
      cases p <;> rfl
    have hexists : wEExists ≠ wENoMemory := by decide
    have hadded : wNoError ≠ wENoMemory := by decide
    cases new_elem with
    | false => exact ⟨_, rfl, hk, Key.noConfusion, ⟨udata, fun _ => rfl, rfl⟩, htables old,
        hexists, rfl⟩
    | true =>
      cases hnew rfl
      exact ⟨_, rfl, hk, Key.noConfusion, ⟨udata, fun _ => rfl, rfl⟩, htables udata,
        hadded, rfl⟩

theorem Grown.atEntry (hk : k.Sane) (hnull : k ≠ .null) (hc : filed fold c = some s)
    (h : Grown fold udata (k.spots.child s) (k.onto s) w heap r) :
    Grown fold udata k.spots k (c :: w) heap (r.under (k.grow s)) := by
  refine ⟨hk.grow (filed_eq_some.mp hc).2 h.sane h.isKey, Key.grow_ne_null hnull s _, ?_, ?_,
    h.error, h.heap⟩
  · obtain ⟨v, hv, hspots⟩ := h.spots
    refine ⟨v, fun hw => hv fun d hd => hw d (List.mem_cons_of_mem c hd), ?_⟩
    change (k.grow s r.key).spots = _
    rw [Key.spots_grow hnull, hspots, pathOf_filed hc]
    rfl
  · intro p u
    change ((k.grow s r.key).find p).hasTable u = true ↔ _
    rw [Key.tables_grow hnull, touches_filed hc]
    simp only [h.tables, Key.hasTable_onto]
    cases p with
    | nil => simp [or_comm]
    | cons s' p =>
      by_cases hs : s' = s
      · simp [hs]
      · simp [hs]

/-- A character without an entry leaves at most a table. -/
theorem Grown.passed {k' : Key} (hc : filed fold c = none)
    (hk' : ∀ p u, (k'.find p).hasTable u = true ↔
      p = [] ∧ tableFor fold c = some u ∨ (k.find p).hasTable u = true)
    (h : Grown fold udata t k' w heap r) : Grown fold udata t k (c :: w) heap r := by
  refine ⟨h.sane, h.isKey, ?_, ?_, h.error, h.heap⟩
  · obtain ⟨v, -, hspots⟩ := h.spots
    refine ⟨v, fun hw => ?_, by rw [hspots, pathOf_unfiled hc]⟩
    have hfiled := hw c List.mem_cons_self
    simp [hc] at hfiled
  · intro p u
    rw [h.tables, hk', touches_unfiled hc]
    tauto

/-- A blank key counts as no key at all. -/
theorem Grown.ofBlank (h : Grown fold udata Key.blank.spots k (c :: w) heap r) :
    Grown fold udata .null k (c :: w) heap r := by
  refine ⟨h.sane, h.isKey, ?_, h.tables, h.error, h.heap⟩
  obtain ⟨v, hv, hspots⟩ := h.spots
  cases hp : pathOf fold (c :: w) with
  | cons s p => exact ⟨v, hv, by rw [hspots, hp]; rfl⟩
  | nil =>
    refine ⟨0, fun hw => ?_, by rw [hspots, hp]; rfl⟩
    obtain ⟨s, hs⟩ := Option.isSome_iff_exists.mp (hw c List.mem_cons_self)
    rw [pathOf_filed hs] at hp
    cases hp

theorem createKey_grown (hw : ∀ c ∈ w, ¬Beyond c) {started new_elem : Bool}
    (hstart : started = true ∨ (filed fold (peek w)).isSome) (hk : k.Sane)
    (hnull : k ≠ .null) (hnew : new_elem → k = .blank) (hg : heap.Grants (k.needs fold w)) :
    ∃ r, createKey fold udata w started new_elem k heap = .ok r ∧
      Grown fold udata (if new_elem then .null else k.spots) k w (heap.skip (k.needs fold w)) r := by
  induction w generalizing started new_elem k heap with
  | nil =>
    have hs : started = true := by
      rcases hstart with hs | hs
      · exact hs
      · simp [peek, filed_zero] at hs
    subst hs
    exact endWord_grown hk hnull hnew
  | cons c w ih =>
    have hw' : ∀ d ∈ w, ¬Beyond d := fun d hd => hw d (List.mem_cons_of_mem c hd)
    have hroot : ∀ {r}, Grown fold udata k.spots k (c :: w) (heap.skip (k.needs fold (c :: w))) r →
        Grown fold udata (if new_elem then .null else k.spots) k (c :: w)
          (heap.skip (k.needs fold (c :: w))) r := by
      intro r hr
      cases new_elem with
      | false => exact hr
      | true =>
        rw [hnew rfl] at hr ⊢
        exact hr.ofBlank
    rcases character_cases fold c with ⟨hc, ht⟩ | ⟨i, hc, hp, hi⟩ | hb | ⟨s, hc⟩
    · have hs : started = true := hstart.resolve_right (by simp [peek, hc])
      rw [Key.needs_unmanaged hc ht] at hg hroot ⊢
      obtain ⟨r, hr, hgrown⟩ := ih hw' (.inl rfl) hk hnull
        (show false = true → k = .blank by simp) hg
      refine ⟨r, by rw [createKey_unmanaged ht, if_pos hs, hr], hroot (hgrown.passed hc ?_)⟩
      simp [ht]
    · have hs : started = true := hstart.resolve_right (by simp [peek, hc])
      have ht : tableFor fold c = some .other := by rw [tableFor, hp]; rfl
      rw [Key.needs_outside hc ht] at hg hroot ⊢
      obtain ⟨r, hr, hgrown⟩ := ih hw' (.inl rfl) (hk.touch .other) (Key.touch_ne_null hnull _)
        (show false = true → k.touch .other = .blank by simp) hg.right
      rw [Key.spots_touch, Heap.skip_skip] at hgrown
      refine ⟨r, by rw [createKey_outside hk hnull hp hi hg.left, if_pos hs, hr],
        hroot (hgrown.passed hc ?_)⟩
      intro p u
      rw [Key.tables_touch hnull, ht, Option.some.injEq, eq_comm (a := u)]
    · exact absurd hb (hw c List.mem_cons_self)
    · rw [Key.needs_filed hc] at hg hroot ⊢
      obtain ⟨r, hr, hgrown⟩ := ih hw' (.inl rfl) (hk.onto s) (k.onto_ne_null s)
        (show (k.at s).isNull = true → k.onto s = .blank from fun h => if_pos h) hg.right
      rw [Key.spots_onto, Heap.skip_skip] at hgrown
      exact ⟨_, by rw [createKey_at hk hnull hc hg.left, hr]; rfl,
        hroot (hgrown.atEntry hk hnull hc)⟩

/-- Otherwise the add reaches for a key that is not there yet, or beyond a table. -/
theorem createKey_outOfBounds (hm : ∀ n, heap.malloc n) {started new_elem : Bool} (hk : k.Sane)
    (hnull : k ≠ .null)
    (hw : (∃ c ∈ w, Beyond c) ∨ (started = false ∧ filed fold (peek w) = none)) :
    ¬InBounds (createKey fold udata w started new_elem k heap) := by
  induction w generalizing started new_elem k heap with
  | nil =>
    obtain ⟨c, hc, -⟩ | ⟨rfl, -⟩ := hw
    · cases hc
    · exact not_inBounds_uninitialised
  | cons c w ih =>
    -- what is wrong with the word is further on, if its first character passes
    have hlater : filed fold c ≠ none ∨ started = true → ¬Beyond c → ∃ d ∈ w, Beyond d := by
      intro hc hb
      rcases hw with ⟨d, hd, hbd⟩ | ⟨hs, hf⟩
      · rcases List.mem_cons.mp hd with rfl | hd
        · exact absurd hbd hb
        · exact ⟨d, hd, hbd⟩
      · rcases hc with hc | hc
        · exact absurd hf hc
        · rw [hs] at hc
          cases hc
    rcases character_cases fold c with ⟨hc, ht⟩ | ⟨i, hc, hp, hi⟩ | hb | ⟨s, hc⟩
    · rw [createKey_unmanaged ht]
      cases started with
      | false => exact not_inBounds_uninitialised
      | true =>
        have hb : ¬Beyond c := by
          intro hb
          rw [tableFor, beyond_place fold c hb] at ht
          cases ht
        rw [if_pos rfl]
        exact ih hm hk hnull (.inl (hlater (.inr rfl) hb))
    · rw [createKey_outside hk hnull hp hi (Heap.grants_of_all hm _)]
      cases started with
      | false => exact not_inBounds_uninitialised
      | true =>
        have hb : ¬Beyond c := by
          intro hb
          rw [beyond_place fold c hb] at hp
          cases hp
          omega
        have hm' : ∀ n, (heap.skip (k.lacks .other)).malloc n := hm
        rw [if_pos rfl]
        exact ih hm' (hk.touch .other) (Key.touch_ne_null hnull _) (.inl (hlater (.inr rfl) hb))
    · rw [createKey_beyond hk hnull hb hm]
      exact not_inBounds_table
    · have hne : filed fold c ≠ none := by simp [hc]
      have hm' : ∀ n, (heap.skip (k.costs s)).malloc n := hm
      rw [createKey_at hk hnull hc (Heap.grants_of_all hm _), inBounds_map]
      exact ih hm' (hk.onto s) (k.onto_ne_null s) (.inl (hlater (.inl hne) (filed_not_beyond hc)))

end Grown

theorem Addable.ne_nil {fold : Bool} {w : List UInt8} (hw : Addable fold w) : w ≠ [] := by
  rintro rfl
  have h := hw.1
  simp [peek, filed_zero] at h

section Heads
variable {head : KeytreeHead} {heap : Heap}

theorem wgKeytreeAdd_grown (hk : head.top.Sane) (hnull : head.top ≠ .null) {w : List UInt8}
    (hw : Addable head.folds w) (udata : UInt64)
    (hg : heap.Grants (head.top.needs head.folds w)) :
    ∃ r, Grown head.folds udata head.top.spots head.top w
        (heap.skip (head.top.needs head.folds w)) r ∧
      wgKeytreeAdd head w udata heap = .ok ⟨{ head with top := r.key }, r.error, r.udata,
        if head.cb then some (r.last, w) else none, r.heap⟩ := by
  obtain ⟨r, hr, hgrown⟩ : ∃ r, createKey head.folds udata w false false head.top heap = .ok r ∧
      Grown head.folds udata (if false then .null else head.top.spots) head.top w
        (heap.skip (head.top.needs head.folds w)) r :=
    createKey_grown hw.2 (.inr hw.1) hk hnull (show false = true → _ by simp) hg
  refine ⟨r, hgrown, ?_⟩
  simp [wgKeytreeAdd, parseFileCreateKey, hw.ne_nil, hr, hgrown.error, bind, Except.bind, pure,
    Except.pure]

theorem wgKeytreeAdd_outOfBounds (hk : head.top.Sane) (hnull : head.top ≠ .null) {w : List UInt8}
    (hne : w ≠ []) (hw : ¬Addable head.folds w) (udata : UInt64) (hm : ∀ n, heap.malloc n) :
    ¬InBounds (wgKeytreeAdd head w udata heap) := by
  have hcreate : ¬InBounds (createKey head.folds udata w false false head.top heap) := by
    apply createKey_outOfBounds hm hk hnull
    by_cases hb : ∃ c ∈ w, Beyond c
    · exact .inl hb
    · push Not at hb
      have hpeek : ¬(filed head.folds (peek w)).isSome = true := fun h => hw ⟨h, hb⟩
      exact .inr ⟨rfl, by simpa using hpeek⟩
  intro h
  rw [wgKeytreeAdd, parseFileCreateKey, if_neg hne, inBounds_bind] at h
  exact hcreate h.1

/-- A sequence of calls to `wg_keytree_add`. -/
def addAll (head : KeytreeHead) (heap : Heap) :
    List (List UInt8 × UInt64) → Except KeyFault (KeytreeHead × Heap)
  | [] => .ok (head, heap)
  | (w, udata) :: ws => do
    let r ← wgKeytreeAdd head w udata heap
    addAll r.head r.heap ws

/-- What a sequence of adds that have their memory leaves. -/
structure Planted (head₀ : KeytreeHead) (ws : List (List UInt8 × UInt64)) (head : KeytreeHead) :
    Prop where
  folds : head.folds = head₀.folds
  sane : head.top.Sane
  isKey : head.top ≠ .null
  spots : ∃ ps : List (List Spot × UInt64), ps.map Prod.fst = ws.map (pathOf head₀.folds ·.1) ∧
    head.top.spots = head₀.top.spots.adds ps
  tables : ∀ p u, (head.top.find p).hasTable u = true ↔
    (head₀.top.find p).hasTable u = true ∨ ∃ w ∈ ws, Touches head₀.folds w.1 p u

theorem addAll_planted (hm : ∀ n, heap.malloc n) (hk : head.top.Sane) (hnull : head.top ≠ .null)
    {ws : List (List UInt8 × UInt64)} (hws : ∀ w ∈ ws, Addable head.folds w.1) :
    ∃ head' heap', addAll head heap ws = .ok (head', heap') ∧ Planted head ws head' := by
  induction ws generalizing head heap with
  | nil => exact ⟨head, heap, rfl, rfl, hk, hnull, ⟨[], rfl, rfl⟩, by simp⟩
  | cons w ws ih =>
    obtain ⟨r, hgrown, hr⟩ := wgKeytreeAdd_grown hk hnull (hws w List.mem_cons_self) w.2
      (Heap.grants_of_all hm _)
    have hm' : ∀ n, r.heap.malloc n := by
      rw [hgrown.heap]
      exact hm
    have hk' : ({ head with top := r.key } : KeytreeHead).top.Sane := hgrown.sane
    obtain ⟨head', heap', hall, hplanted⟩ := ih hm' hk' hgrown.isKey
      (fun v hv => hws v (List.mem_cons_of_mem w hv))
    refine ⟨head', heap', ?_, hplanted.folds, hplanted.sane, hplanted.isKey, ?_, ?_⟩
    · simp only [addAll, hr, bind, Except.bind, hall]
    · obtain ⟨v, -, hspots⟩ := hgrown.spots
      obtain ⟨ps, hps, hadds⟩ := hplanted.spots
      refine ⟨(pathOf head.folds w.1, v) :: ps, ?_, ?_⟩
      · rw [List.map_cons, List.map_cons, hps]
        rfl
      · rw [hadds, hspots]
        rfl
    · intro p u
      rw [hplanted.tables, hgrown.tables, or_assoc]
      simp [KeytreeHead.folds]

theorem addAll_inBounds (hm : ∀ n, heap.malloc n) (hk : head.top.Sane) (hnull : head.top ≠ .null)
    {ws : List (List UInt8 × UInt64)} (hws : ∀ w ∈ ws, w.1 ≠ []) :
    InBounds (addAll head heap ws) ↔ ∀ w ∈ ws, Addable head.folds w.1 := by
  induction ws generalizing head heap with
  | nil => simp [addAll]
  | cons w ws ih =>
    rw [List.forall_mem_cons]
    by_cases hw : Addable head.folds w.1
    · obtain ⟨r, hgrown, hr⟩ := wgKeytreeAdd_grown hk hnull hw w.2 (Heap.grants_of_all hm _)
      have hm' : ∀ n, r.heap.malloc n := by
        rw [hgrown.heap]
        exact hm
      have hk' : ({ head with top := r.key } : KeytreeHead).top.Sane := hgrown.sane
      have hrest := ih hm' hk' hgrown.isKey (fun v hv => hws v (List.mem_cons_of_mem w hv))
      simp only [addAll, hr, bind, Except.bind, hrest]
      exact (and_iff_right hw).symm
    · refine iff_of_false ?_ (fun h => hw h.1)
      intro h
      rw [addAll, inBounds_bind] at h
      exact wgKeytreeAdd_outOfBounds hk hnull (hws w List.mem_cons_self) hw w.2 hm h.1

/-- The adds to a tree that was just created. -/
theorem created_planted (type : UInt32) (cb : Bool) (hm : ∀ n, heap.malloc n)
    {ws : List (List UInt8 × UInt64)}
    (hws : ∀ w ∈ ws, Addable (KeytreeHead.mk type cb .blank).folds w.1) :
    ∃ heap₀ head heap',
      wgKeytreeCreate type cb [] heap = .ok (wNoError, some ⟨type, cb, .blank⟩, heap₀) ∧
      addAll ⟨type, cb, .blank⟩ heap₀ ws = .ok (head, heap') ∧ Planted ⟨type, cb, .blank⟩ ws head := by
  have hm' : ∀ n, heap.next.malloc n := hm
  have hk : (KeytreeHead.mk type cb .blank).top.Sane := Key.sane_blank
  obtain ⟨head, heap', hall, hplanted⟩ := addAll_planted hm' hk (by simp [Key.blank]) hws
  exact ⟨heap.next, head, heap', by rw [wgKeytreeCreate, if_pos (hm _)]; rfl, hall, hplanted⟩

end Heads

end Wtools
