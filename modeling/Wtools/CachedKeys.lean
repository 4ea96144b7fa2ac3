import Wtools.TrieWords
import Wtools.RenderNames

/-!
# Keys of the cached dictionary

With the cached dictionary a name is given the datum of its node in the key tree, or its own
index when that is 0. A name that begins an earlier, longer one finds a node without a
datum, so the dictionary lists it under 0 and not under its index.
-/

namespace Wtools
open PrefixTree

/-- The names that follow `n` names, as they are added to the key tree. -/
def indexed : Nat → List (List UInt8) → List (List UInt8 × UInt64)
  | _, [] => []
  | n, w :: ws => (w, (UInt16.ofNat (n + 2)).toUInt64) :: indexed (n + 1) ws

/-- The key tree after the names. -/
def treeOf (ws : List (List UInt8)) : PrefixTree UInt8 UInt64 := root.adds (indexed 0 ws)

/-- The key given to the name that follows `n` names, from the tree it is looked up in. -/
def chosen (t : PrefixTree UInt8 UInt64) (n : Nat) (w : List UInt8) : UInt16 :=
  let final_key := (((t.entry w).map Prod.snd).getD 0).toUInt16
  if final_key ≠ bkvNoKey then final_key else .ofNat (n + 2)

/-- The keys in force are those chosen one by one. -/
def Keyed (key : Nat → UInt16) (ws : List (List UInt8)) : Prop :=
  ∀ pre w post, ws = pre ++ w :: post → key (pre.length + 1) = chosen (treeOf pre) pre.length w

/-- No name comes for the first time after a longer one that begins with it. -/
def PrefixesFirst (ws : List (List UInt8)) : Prop :=
  ∀ pre w post, ws = pre ++ w :: post → w ∉ pre → ∀ u ∈ pre, ¬w <+: u

/-- A dictionary with the words of a tree under their data. -/
def Lists (dict : List (UInt16 × List UInt8)) (t : PrefixTree UInt8 UInt64) : Prop :=
  ∀ key w, (key, w) ∈ dict ↔ w ≠ [] ∧ ∃ v, t.entry w = some (true, v) ∧ v.toUInt16 = key

@[simp] theorem indexed_words (n : Nat) (ws : List (List UInt8)) :
    (indexed n ws).map Prod.fst = ws := by
  induction ws generalizing n with
  | nil => rfl
  | cons w ws ih => rw [indexed, List.map_cons, ih]

theorem indexed_append (n : Nat) (ws ws' : List (List UInt8)) :
    indexed n (ws ++ ws') = indexed n ws ++ indexed (n + ws.length) ws' := by
  induction ws generalizing n with
  | nil => rfl
  | cons w ws ih =>
    rw [List.cons_append, indexed, indexed, List.cons_append, ih, List.length_cons, Nat.add_assoc,
      Nat.add_comm 1]

theorem treeOf_snoc (ws : List (List UInt8)) (w : List UInt8) :
    treeOf (ws ++ [w]) = (treeOf ws).add (UInt16.ofNat (ws.length + 2)).toUInt64 w := by
  rw [treeOf, indexed_append, Nat.zero_add]
  exact adds_snoc _ _ _

theorem treeOf_stores {ws : List (List UInt8)} {w : List UInt8} (hw : w ≠ []) :
    (treeOf ws).Stores w ↔ w ∈ ws := by
  have hroot : ¬(root : PrefixTree UInt8 UInt64).Stores w := by
    rintro ⟨v, hv⟩
    rw [entry_root hw] at hv
    cases hv
  rw [treeOf, stores_adds, indexed_words, or_iff_left hroot]

theorem exists_indexed (n : Nat) (ws : List (List UInt8)) (p : List UInt8 → Prop) :
    (∃ q ∈ indexed n ws, p q.1) ↔ ∃ u ∈ ws, p u := by
  constructor
  · rintro ⟨q, hq, hp⟩
    have hmem := List.mem_map_of_mem (f := Prod.fst) hq
    rw [indexed_words] at hmem
    exact ⟨q.1, hmem, hp⟩
  · rintro ⟨u, hu, hp⟩
    rw [← indexed_words n ws] at hu
    obtain ⟨q, hq, rfl⟩ := List.mem_map.mp hu
    exact ⟨q, hq, hp⟩

/-- The datum of a name is the index of its first occurrence, or 0 if the name began an earlier
one. -/
theorem treeOf_entry {pre : List (List UInt8)} {w : List UInt8} (hne : w ≠ []) (hw : w ∉ pre)
    (post : List (List UInt8)) :
    (treeOf (pre ++ w :: post)).entry w =
      some (true, if ∃ u ∈ pre, w <+: u then 0 else (UInt16.ofNat (pre.length + 2)).toUInt64) := by
  rw [treeOf, indexed_append, indexed, Nat.zero_add, entry_adds_first hne (by simpa using hw)]
  simp only [exists_indexed 0 pre fun u => w <+: u]
  rfl

theorem index_ne {n : Nat} (hn : n ≤ 4090) : UInt16.ofNat (n + 2) ≠ 0 := by
  intro h
  have := congrArg UInt16.toNat h
  rw [UInt16.toNat_ofNat', Nat.mod_eq_of_lt (by omega)] at this
  cases this

theorem index_injective {n m : Nat} (hn : n ≤ 4090) (hm : m ≤ 4090)
    (h : UInt16.ofNat (n + 2) = .ofNat (m + 2)) : n = m := by
  have := congrArg UInt16.toNat h
  rw [UInt16.toNat_ofNat', UInt16.toNat_ofNat', Nat.mod_eq_of_lt (by omega),
    Nat.mod_eq_of_lt (by omega)] at this
  omega

theorem chosen_new {pre : List (List UInt8)} {w : List UInt8} (hne : w ≠ []) (hw : w ∉ pre) :
    chosen (treeOf pre) pre.length w = .ofNat (pre.length + 2) := by
  have hnone : ((((treeOf pre).entry w).map Prod.snd).getD 0) = 0 := by
    rw [treeOf, entry_adds_of_notMem hne (by simpa using hw)]
    split <;> rfl
  rw [chosen, hnone]
  rfl

/-- A name that was there gets its datum, unless that is 0. -/
theorem chosen_again {pre post : List (List UInt8)} {w : List UInt8} (hne : w ≠ []) (hw : w ∉ pre)
    (hlate : ∀ u ∈ pre, ¬w <+: u) (hn : pre.length ≤ 4090) :
    chosen (treeOf (pre ++ w :: post)) (pre ++ w :: post).length w = .ofNat (pre.length + 2) := by
  have hdatum : ¬∃ u ∈ pre, w <+: u := fun ⟨u, hu, h⟩ => hlate u hu h
  rw [chosen, treeOf_entry hne hw, if_neg hdatum, Option.map_some, Option.getD_some,
    UInt16.toUInt16_toUInt64]
  exact if_pos (index_ne hn)

variable {key : Nat → UInt16} {ws : List (List UInt8)} {dict : List (UInt16 × List UInt8)}

theorem first_occurrence {w : List UInt8} (hw : w ∈ ws) :
    ∃ pre post, ws = pre ++ w :: post ∧ w ∉ pre := by
  obtain ⟨pre, post, h, hpre⟩ := List.eq_append_cons_of_mem hw
  exact ⟨pre, post, h, hpre⟩

theorem resolves_iff {names : Names} {n : Nat} :
    Resolves names key n ws ↔
      ∀ pre w post, ws = pre ++ w :: post → names (key (n + pre.length + 1)) = some w := by
  constructor
  · rintro h pre w post rfl
    exact (resolves_append.mp h).2.1
  · intro h
    induction ws generalizing n with
    | nil => trivial
    | cons w ws ih =>
      refine ⟨h [] w ws rfl, ih fun pre w' post hws => ?_⟩
      rw [Nat.add_right_comm n 1, Nat.add_assoc n, ← List.length_cons (a := w)]
      exact h (w :: pre) w' post (by rw [hws]; rfl)

theorem keyed_first (hk : Keyed key ws) (hne : [] ∉ ws) (hlen : ws.length ≤ 4091)
    (hws : PrefixesFirst ws) {pre post : List (List UInt8)} {w : List UInt8}
    (h : ws = pre ++ w :: post) :
    ∃ a b, ws = a ++ w :: b ∧ w ∉ a ∧ key (pre.length + 1) = .ofNat (a.length + 2) := by
  have hw : w ≠ [] := by
    rintro rfl
    exact hne (by simp [h])
  rw [hk pre w post h]
  by_cases hmem : w ∈ pre
  · obtain ⟨a, b, rfl, ha⟩ := first_occurrence hmem
    have hall : ws = a ++ w :: (b ++ w :: post) := by simp [h]
    refine ⟨a, _, hall, ha, chosen_again hw ha (hws a w _ hall ha) ?_⟩
    have := congrArg List.length h
    simp only [List.length_append, List.length_cons] at this
    omega
  · exact ⟨pre, post, h, hmem, chosen_new hw hmem⟩

theorem first_entry (hne : [] ∉ ws) (hlen : ws.length ≤ 4091) (hws : PrefixesFirst ws)
    {a b : List (List UInt8)} {w : List UInt8} (h : ws = a ++ w :: b) (ha : w ∉ a) :
    w ≠ [] ∧ a.length ≤ 4090 ∧
      (treeOf ws).entry w = some (true, (UInt16.ofNat (a.length + 2)).toUInt64) := by
  have hw : w ≠ [] := by
    rintro rfl
    exact hne (by simp [h])
  have hlen' := congrArg List.length h
  simp only [List.length_append, List.length_cons] at hlen'
  have hdatum : ¬∃ u ∈ a, w <+: u := fun ⟨u, hu, hpre⟩ => hws a w b h ha u hu hpre
  refine ⟨hw, by omega, ?_⟩
  rw [h, treeOf_entry hw ha, if_neg hdatum]

theorem listed_first (hL : Lists dict (treeOf ws)) (hne : [] ∉ ws) (hlen : ws.length ≤ 4091)
    (hws : PrefixesFirst ws) {k : UInt16} {w : List UInt8} (h : (k, w) ∈ dict) :
    ∃ a b, ws = a ++ w :: b ∧ w ∉ a ∧ a.length ≤ 4090 ∧ k = .ofNat (a.length + 2) := by
  obtain ⟨hw, v, hv, hv16⟩ := (hL _ _).mp h
  obtain ⟨a, b, hab, ha⟩ := first_occurrence ((treeOf_stores hw).mp ⟨v, hv⟩)
  obtain ⟨-, hn, he⟩ := first_entry hne hlen hws hab ha
  rw [he, Option.some.injEq, Prod.mk.injEq] at hv
  rw [← hv.2, UInt16.toUInt16_toUInt64] at hv16
  exact ⟨a, b, hab, ha, hn, hv16.symm⟩

theorem lookup_first (hL : Lists dict (treeOf ws)) (hne : [] ∉ ws) (hlen : ws.length ≤ 4091)
    (hws : PrefixesFirst ws) {a b : List (List UInt8)} {w : List UInt8} (h : ws = a ++ w :: b)
    (ha : w ∉ a) : dict.lookup (.ofNat (a.length + 2)) = some w := by
  obtain ⟨hw, hn, he⟩ := first_entry hne hlen hws h ha
  have hmem : (UInt16.ofNat (a.length + 2), w) ∈ dict :=
    (hL _ _).mpr ⟨hw, _, he, UInt16.toUInt16_toUInt64 _⟩
  cases hl : dict.lookup (.ofNat (a.length + 2)) with
  | none =>
    rw [List.lookup_eq_none_iff] at hl
    exact absurd (hl _ hmem) (by simp)
  | some w' =>
    obtain ⟨l₁, l₂, hdict, -⟩ := List.lookup_eq_some_iff.mp hl
    obtain ⟨a', b', h', -, hn', hk⟩ := listed_first hL hne hlen hws
      (show (UInt16.ofNat (a.length + 2), w') ∈ dict by simp [hdict])
    obtain ⟨-, hcons⟩ := List.append_inj (h.symm.trans h') (index_injective hn hn' hk)
    rw [List.cons.injEq] at hcons
    rw [hcons.1]

/-- The names are found under the keys in force if and only if none begins an earlier one. -/
theorem resolves_iff_prefixesFirst (hk : Keyed key ws) (hL : Lists dict (treeOf ws)) (hne : [] ∉ ws)
    (hlen : ws.length ≤ 4091) :
    Resolves (fun key => dict.lookup key) key 0 ws ↔ PrefixesFirst ws := by
  rw [resolves_iff]
  constructor
  · intro hr pre w post h hw u hu hpre
    have hne' : w ≠ [] := by
      rintro rfl
      exact hne (by simp [h])
    have hlen' := congrArg List.length h
    simp only [List.length_append, List.length_cons] at hlen'
    have hfound := hr pre w post h
    rw [Nat.zero_add, hk pre w post h, chosen_new hne' hw] at hfound
    obtain ⟨l₁, l₂, hdict, -⟩ := List.lookup_eq_some_iff.mp hfound
    obtain ⟨-, v, hv, hv16⟩ := (hL _ _).mp
      (show (UInt16.ofNat (pre.length + 2), w) ∈ dict by simp [hdict])
    rw [h, treeOf_entry hne' hw, if_pos ⟨u, hu, hpre⟩, Option.some.injEq, Prod.mk.injEq] at hv
    rw [← hv.2] at hv16
    exact index_ne (by omega) hv16.symm
  · intro hws pre w post h
    obtain ⟨a, b, hab, ha, hkey⟩ := keyed_first hk hne hlen hws h
    rw [Nat.zero_add, hkey]
    exact lookup_first hL hne hlen hws hab ha

end Wtools
