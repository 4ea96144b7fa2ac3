import Wtools.Keytree
import Wtools.Library.ByteMemory
import Mathlib.Data.Finset.Card
import Mathlib.Data.Finset.Range

/-!
# Paths of the key tree

With any bytes, and with or without the folding of case, a word goes into the tree as the path of
the entries that its characters are filed under. Characters that are not filed leave no trace but
a table, and an add needs one `malloc` for each table and key that is not there.
-/

namespace Wtools
open PrefixTree

/-- An entry of a table. -/
abbrev Spot := Table × Nat

/-- The entry of a character, if it has one. -/
def filed (fold : Bool) (c : UInt8) : Option Spot :=
  match placeOf fold c with
  | some (t, i) => if 0 ≤ i ∧ i < t.size then some (t, i.toNat) else none
  | none => none

/-- The entries of the characters of a word. -/
def pathOf (fold : Bool) (w : List UInt8) : List Spot := w.filterMap (filed fold)

/-- The table that a character belongs in. -/
def tableFor (fold : Bool) (c : UInt8) : Option Table := (placeOf fold c).map Prod.fst

/-- The character that would be filed one entry behind the last one. -/
def Beyond (c : UInt8) : Prop := c = 0x3B

instance (c : UInt8) : Decidable (Beyond c) := inferInstanceAs (Decidable (c = 0x3B))

/-- A word makes a table where a beginning of it leads, if the next character belongs there. -/
def Touches (fold : Bool) (w : List UInt8) (p : List Spot) (t : Table) : Prop :=
  ∃ pre c post, w = pre ++ c :: post ∧ pathOf fold pre = p ∧ tableFor fold c = some t

/-- A word can be added: its first character is filed, and none is filed beyond a table. -/
def Addable (fold : Bool) (w : List UInt8) : Prop :=
  (filed fold (peek w)).isSome ∧ ∀ c ∈ w, ¬Beyond c

instance (fold : Bool) (w : List UInt8) : Decidable (Addable fold w) :=
  inferInstanceAs (Decidable (_ ∧ _))

section Places
variable {fold : Bool} {c : UInt8} {s : Spot} {w : List UInt8} {p : List Spot} {t : Table}

theorem placeOf_range : ∀ (fold : Bool) (c : UInt8), (placeOf fold c).all (fun q =>
    (q.1 = .other ∧ (q.2 < 0 ∨ 26 < q.2)) ∨ (q = (.other, 26) ∧ Beyond c) ∨
      (0 ≤ q.2 ∧ q.2 < q.1.size ∧ ¬Beyond c)) = true := by
  decide +kernel

/-- What `parse_file_create_key` can meet: a character that it does not manage, one outside the
other characters, the one that is behind them, and one that has an entry. -/
theorem placeOf_cases (fold : Bool) (c : UInt8) :
    placeOf fold c = none ∨ (∃ i, placeOf fold c = some (.other, i) ∧ (i < 0 ∨ 26 < i)) ∨
    (placeOf fold c = some (.other, 26) ∧ Beyond c) ∨
    ∃ (t : Table) (i : Nat), placeOf fold c = some (t, (i : Int)) ∧ i < t.size ∧ ¬Beyond c := by
  have hrange := placeOf_range fold c
  cases hp : placeOf fold c with
  | none => exact .inl rfl
  | some q =>
    obtain ⟨t, i⟩ := q
    rw [hp, Option.all_some, decide_eq_true_eq] at hrange
    rcases hrange with ⟨rfl, hi⟩ | ⟨hq, hb⟩ | ⟨h0, hlt, hb⟩
    · exact .inr (.inl ⟨i, rfl, hi⟩)
    · exact .inr (.inr (.inl ⟨by rw [hq], hb⟩))
    · refine .inr (.inr (.inr ⟨t, i.toNat, ?_, ?_, hb⟩))
      · rw [Int.toNat_of_nonneg h0]
      · dsimp only at hlt h0
        omega

theorem beyond_place : ∀ (fold : Bool) (c : UInt8), Beyond c →
    placeOf fold c = some (.other, 26) := by
  decide +kernel

theorem filed_eq_some : filed fold c = some s ↔
    placeOf fold c = some (s.1, (s.2 : Int)) ∧ s.2 < s.1.size := by
  rw [filed]
  cases hp : placeOf fold c with
  | none => simp
  | some q =>
    obtain ⟨t, i⟩ := q
    obtain ⟨t', i'⟩ := s
    simp only [Option.ite_none_right_eq_some, Option.some.injEq, Prod.mk.injEq]
    constructor
    · rintro ⟨⟨h0, hlt⟩, rfl, rfl⟩
      exact ⟨⟨rfl, (Int.toNat_of_nonneg h0).symm⟩, by omega⟩
    · rintro ⟨⟨rfl, rfl⟩, hlt⟩
      exact ⟨⟨by omega, by omega⟩, rfl, Int.toNat_natCast i'⟩

theorem tableFor_filed (hc : filed fold c = some s) : tableFor fold c = some s.1 := by
  rw [tableFor, (filed_eq_some.mp hc).1]
  rfl

theorem filed_not_beyond (hc : filed fold c = some s) : ¬Beyond c := by
  intro hb
  obtain ⟨hp, hlt⟩ := filed_eq_some.mp hc
  rw [beyond_place fold c hb, Option.some.injEq, Prod.mk.injEq] at hp
  obtain ⟨ht, hi⟩ := hp
  rw [← ht] at hlt
  simp only [Table.size] at hlt
  omega

theorem pathOf_filed (hc : filed fold c = some s) (w : List UInt8) :
    pathOf fold (c :: w) = s :: pathOf fold w :=
  List.filterMap_cons_some hc

theorem pathOf_unfiled (hc : filed fold c = none) (w : List UInt8) :
    pathOf fold (c :: w) = pathOf fold w :=
  List.filterMap_cons_none hc

theorem touches_filed (hc : filed fold c = some s) : Touches fold (c :: w) p t ↔
    p = [] ∧ t = s.1 ∨ ∃ p', p = s :: p' ∧ Touches fold w p' t := by
  constructor
  · rintro ⟨pre, d, post, hw, hp, ht⟩
    cases pre with
    | nil =>
      obtain ⟨rfl, -⟩ := List.cons.inj hw
      rw [tableFor_filed hc, Option.some.injEq] at ht
      exact .inl ⟨hp.symm, ht.symm⟩
    | cons e pre =>
      obtain ⟨rfl, rfl⟩ := List.cons.inj hw
      rw [pathOf_filed hc] at hp
      exact .inr ⟨_, hp.symm, pre, d, post, rfl, rfl, ht⟩
  · rintro (⟨rfl, rfl⟩ | ⟨p', rfl, pre, d, post, rfl, rfl, ht⟩)
    · exact ⟨[], c, w, rfl, rfl, tableFor_filed hc⟩
    · exact ⟨c :: pre, d, post, rfl, pathOf_filed hc pre, ht⟩

theorem touches_unfiled (hc : filed fold c = none) : Touches fold (c :: w) p t ↔
    p = [] ∧ tableFor fold c = some t ∨ Touches fold w p t := by
  constructor
  · rintro ⟨pre, d, post, hw, hp, ht⟩
    cases pre with
    | nil =>
      obtain ⟨rfl, -⟩ := List.cons.inj hw
      exact .inl ⟨hp.symm, ht⟩
    | cons e pre =>
      obtain ⟨rfl, rfl⟩ := List.cons.inj hw
      rw [pathOf_unfiled hc] at hp
      exact .inr ⟨pre, d, post, rfl, hp, ht⟩
  · rintro (⟨rfl, ht⟩ | ⟨pre, d, post, rfl, rfl, ht⟩)
    · exact ⟨[], c, w, rfl, rfl, ht⟩
    · exact ⟨c :: pre, d, post, rfl, pathOf_unfiled hc pre, ht⟩

theorem touches_nil : ¬Touches fold [] p t := by
  rintro ⟨pre, c, post, h, -⟩
  cases pre <;> cases h

end Places

/-- The key at an entry. -/
def Key.at : Key → Spot → Key
  | .null, _ => .null
  | .key _ _ _ _ child, s => child s.1 s.2

/-- The key at the end of a path. -/
def Key.find (k : Key) (p : List Spot) : Key := p.foldl Key.at k

def Key.hasTable : Key → Table → Bool
  | .null, _ => false
  | .key _ _ keys _ _, t => keys t = .live

/-- The prefix tree of the entries. -/
def Key.spots : Key → PrefixTree Spot UInt64
  | .null => .null
  | .key end_of_word udata _ _ child => .node end_of_word udata fun s => (child s.1 s.2).spots

def countKeys (child : Nat → Key) (n : Nat) : Nat :=
  ((Finset.range n).filter fun i => (child i).isNull = false).card

@[simp] theorem Key.isNull_key (end_of_word : Bool) (udata : UInt64) (keys : Table → Keys)
    (nb_keys : Table → Nat) (child : Table → Nat → Key) :
    (Key.key end_of_word udata keys nb_keys child).isNull = false := rfl

theorem Key.isNull_eq_false {k : Key} : k.isNull = false ↔ k ≠ .null := by
  cases k <;> simp [Key.isNull]

theorem countKeys_update (child : Nat → Key) {n i : Nat} (hi : i < n) {k : Key} (hk : k ≠ .null) :
    countKeys (Function.update child i k) n =
      if (child i).isNull then countKeys child n + 1 else countKeys child n := by
  have hset : (Finset.range n).filter (fun j => (Function.update child i k j).isNull = false) =
      insert i ((Finset.range n).filter fun j => (child j).isNull = false) := by
    ext j
    by_cases hj : j = i
    · simp [hj, hi, Key.isNull_eq_false.mpr hk]
    · simp [hj]
  unfold countKeys
  rw [hset]
  split
  · rename_i hc
    rw [Finset.card_insert_of_notMem (by simp [hc])]
  · rename_i hc
    rw [Finset.insert_eq_of_mem (by simpa [hi] using hc)]

/-- What every add keeps: the keys are in tables that are there, and counted. -/
def Key.Sane : Key → Prop
  | .null => True
  | .key _ _ keys nb_keys child =>
    (∀ t, keys t ≠ .freed) ∧ (∀ t i, child t i ≠ .null → keys t = .live ∧ i < t.size) ∧
    (∀ t, nb_keys t = countKeys (child t) t.size) ∧ ∀ t i, (child t i).Sane

/-- The key with a table that is made if it is not there. -/
def Key.touch : Key → Table → Key
  | .null, _ => .null
  | .key end_of_word udata keys nb_keys child, t =>
    .key end_of_word udata (Function.update keys t .live) nb_keys child

/-- The key with another key at an entry, the table made and the key counted if they are new. -/
def Key.grow : Key → Spot → Key → Key
  | .null, _, _ => .null
  | .key end_of_word udata keys nb_keys child, s, sub =>
    let nb := if (child s.1 s.2).isNull then nb_keys s.1 + 1 else nb_keys s.1
    .key end_of_word udata (Function.update keys s.1 .live) (Function.update nb_keys s.1 nb)
      (Function.update child s.1 (Function.update (child s.1) s.2 sub))

section Keys
variable {k sub : Key} {s : Spot} {p : List Spot} {t : Table}

@[simp] theorem Key.find_nil (k : Key) : k.find [] = k := rfl

@[simp] theorem Key.find_cons (k : Key) (s : Spot) (p : List Spot) :
    k.find (s :: p) = (k.at s).find p := rfl

@[simp] theorem Key.null_find (p : List Spot) : Key.null.find p = .null := by
  induction p with
  | nil => rfl
  | cons s p ih => exact ih

@[simp] theorem Key.spots_at (k : Key) (s : Spot) : (k.at s).spots = k.spots.child s := by
  cases k <;> rfl

theorem Key.spots_find (k : Key) (p : List Spot) : (k.find p).spots = k.spots.find p := by
  induction p generalizing k with
  | nil => rfl
  | cons s p ih => rw [Key.find_cons, ih, Key.spots_at, PrefixTree.find_cons]

theorem Key.sane_blank : Key.blank.Sane := by
  refine ⟨fun _ => nofun, fun _ _ h => absurd rfl h, fun t => ?_, fun _ _ => trivial⟩
  simp [countKeys, Key.isNull]

theorem Key.Sane.at (hk : k.Sane) (s : Spot) : (k.at s).Sane := by
  cases k with
  | null => trivial
  | key _ _ _ _ child => exact hk.2.2.2 s.1 s.2

theorem Key.Sane.touch (hk : k.Sane) (t : Table) : (k.touch t).Sane := by
  cases k with
  | null => trivial
  | key eow udata keys nb child =>
    obtain ⟨hfreed, hlive, hcount, hall⟩ := hk
    refine ⟨fun u => ?_, fun u i h => ⟨?_, (hlive u i h).2⟩, hcount, hall⟩
    · by_cases hu : u = t
      · simp [hu]
      · simpa [hu] using hfreed u
    · by_cases hu : u = t
      · simp [hu]
      · simpa [hu] using (hlive u i h).1

theorem Key.Sane.grow (hk : k.Sane) (hs : s.2 < s.1.size) (hsub : sub.Sane) (hne : sub ≠ .null) :
    (k.grow s sub).Sane := by
  cases k with
  | null => trivial
  | key eow udata keys nb child =>
    obtain ⟨t, i⟩ := s
    obtain ⟨hfreed, hlive, hcount, hall⟩ := hk
    refine ⟨fun u => ?_, fun u j => ?_, fun u => ?_, fun u j => ?_⟩
    · by_cases hu : u = t
      · simp [hu]
      · simpa [hu] using hfreed u
    · by_cases hu : u = t
      · subst hu
        by_cases hj : j = i
        · simpa [hj] using fun _ => hs
        · simpa [hj] using fun h => (hlive u j h).2
      · simpa [hu] using hlive u j
    · by_cases hu : u = t
      · subst hu
        simp only [Function.update_self, countKeys_update _ hs hne, hcount]
      · simpa [hu] using hcount u
    · by_cases hu : u = t
      · subst hu
        by_cases hj : j = i
        · simpa [hj] using hsub
        · simpa [hj] using hall _ j
      · simpa [hu] using hall u j

theorem Key.spots_touch (k : Key) (t : Table) : (k.touch t).spots = k.spots := by
  cases k <;> rfl

theorem Key.touch_ne_null (hk : k ≠ .null) (t : Table) : k.touch t ≠ .null := by
  cases k with
  | null => exact absurd rfl hk
  | key _ _ _ _ _ => exact Key.noConfusion

theorem Key.touch_at (k : Key) (t : Table) (s : Spot) : (k.touch t).at s = k.at s := by
  cases k <;> rfl

theorem Key.grow_at (hk : k ≠ .null) (s s' : Spot) (sub : Key) :
    (k.grow s sub).at s' = if s' = s then sub else k.at s' := by
  cases k with
  | null => exact absurd rfl hk
  | key eow udata keys nb child =>
    obtain ⟨t, i⟩ := s
    obtain ⟨t', i'⟩ := s'
    simp only [Key.grow, Key.at, Prod.mk.injEq]
    by_cases ht : t' = t
    · subst ht
      by_cases hi : i' = i
      · simp [hi]
      · simp [hi]
    · simp [ht]

theorem Key.grow_ne_null (hk : k ≠ .null) (s : Spot) (sub : Key) : k.grow s sub ≠ .null := by
  cases k with
  | null => exact absurd rfl hk
  | key _ _ _ _ _ => exact Key.noConfusion

theorem Key.spots_grow (hk : k ≠ .null) (s : Spot) (sub : Key) :
    (k.grow s sub).spots = .node (k.spots.label.getD (false, 0)).1
      (k.spots.label.getD (false, 0)).2 (Function.update k.spots.child s sub.spots) := by
  have hchild : (k.grow s sub).spots.child = Function.update k.spots.child s sub.spots := by
    funext s'
    rw [← Key.spots_at, Key.grow_at hk]
    by_cases hs : s' = s
    · rw [if_pos hs, hs, Function.update_self]
    · rw [if_neg hs, Function.update_of_ne hs, Key.spots_at]
  cases k with
  | null => exact absurd rfl hk
  | key eow udata keys nb child =>
    rw [← hchild]
    rfl

theorem Key.hasTable_touch (hk : k ≠ .null) (t u : Table) :
    (k.touch t).hasTable u = true ↔ u = t ∨ k.hasTable u = true := by
  cases k with
  | null => exact absurd rfl hk
  | key eow udata keys nb child =>
    by_cases hu : u = t
    · simp [Key.touch, Key.hasTable, hu]
    · simp [Key.touch, Key.hasTable, hu]

theorem Key.hasTable_grow (hk : k ≠ .null) (s : Spot) (sub : Key) (u : Table) :
    (k.grow s sub).hasTable u = true ↔ u = s.1 ∨ k.hasTable u = true := by
  cases k with
  | null => exact absurd rfl hk
  | key eow udata keys nb child =>
    by_cases hu : u = s.1
    · simp [Key.grow, Key.hasTable, hu]
    · simp [Key.grow, Key.hasTable, hu]

end Keys

end Wtools
