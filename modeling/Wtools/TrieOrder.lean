import Wtools.TrieForeach
import Mathlib.Data.List.Lex

/-!
# The order of the words shown

The loops of `wg_keytree_foreach` go through a table from its first entry, and through the tables
in the order lower case, upper case, digits. So the words come in dictionary order of that
alphabet, each before those that it begins.
-/

namespace Wtools
open PrefixTree

/-- The position of a letter or a digit in `a` to `z`, `A` to `Z`, `0` to `9`. -/
def alphabetIndex (c : UInt8) : Nat :=
  if islower c then c.toNat - 0x61
  else if isupper c then 26 + (c.toNat - 0x41)
  else 52 + (c.toNat - 0x30)

def ByAlphabet (c d : UInt8) : Prop := alphabetIndex c < alphabetIndex d

instance : DecidableRel ByAlphabet := fun _ _ => inferInstanceAs (Decidable (_ < _))

/-- A word comes before those that it begins, and before those with a later character where they
first differ. -/
def ListedBefore (u v : List UInt8) : Prop := List.Lex ByAlphabet u v

instance : DecidableRel ListedBefore := inferInstanceAs (DecidableRel (List.Lex ByAlphabet))

theorem ListedBefore.irrefl (u : List UInt8) : ¬ListedBefore u u := by
  intro h
  induction u with
  | nil => cases h
  | cons c u ih =>
    cases h with
    | cons h => exact ih h
    | rel h => exact Nat.lt_irrefl _ h

section
variable {α β ε : Type} {R : α → α → Prop} {S : β → β → Prop}

/-- Lists made of the elements of a list in order, joined. -/
theorem pairwise_flatten_mapM {g : α → Except ε (List β)} {l : List α} {ys : List (List β)}
    (h : l.mapM g = .ok ys) (hl : l.Pairwise R)
    (hown : ∀ x ∈ l, ∀ y, g x = .ok y → y.Pairwise S)
    (hcross : ∀ x ∈ l, ∀ x' ∈ l, R x x' → ∀ y y', g x = .ok y → g x' = .ok y' →
      ∀ a ∈ y, ∀ b ∈ y', S a b) :
    ys.flatten.Pairwise S := by
  induction l generalizing ys with
  | nil =>
    cases h
    exact .nil
  | cons x l ih =>
    cases mapM_eq_ok.mp h with
    | cons hx hrest =>
      rename_i y ys
      have hys := mapM_eq_ok.mpr hrest
      rw [List.pairwise_cons] at hl
      rw [List.flatten_cons, List.pairwise_append]
      refine ⟨hown x List.mem_cons_self y hx, ?_, ?_⟩
      · apply ih hys hl.2
        · intro x' hx'
          exact hown x' (List.mem_cons_of_mem x hx')
        · intro x' hx' x'' hx''
          exact hcross x' (List.mem_cons_of_mem x hx') x'' (List.mem_cons_of_mem x hx'')
      · intro a ha b hb
        obtain ⟨x', hx', y', hy', hb'⟩ := (mem_flatten_mapM hys).mp hb
        exact hcross x List.mem_cons_self x' (List.mem_cons_of_mem x hx') (hl.1 x' hx') y y' hx hy'
          a ha b hb'

end

theorem occupied_sorted (child : Nat → Key) (n i left : Nat) :
    (occupied child n i left).Pairwise (· < ·) := by
  induction n generalizing i left with
  | zero => exact .nil
  | succ n ih =>
    rw [occupied]
    split
    · exact .nil
    · split
      · exact ih (i + 1) left
      · rw [List.pairwise_cons]
        refine ⟨?_, ih (i + 1) (left - 1)⟩
        intro j hj
        exact (mem_occupied hj).1

theorem entries_sorted (t : Table) (nb_keys : Nat) (child : Nat → Key) :
    (t.entries nb_keys child).Pairwise (· < ·) := by
  rw [Table.entries]
  split
  · exact List.pairwise_lt_range.filter _
  · exact occupied_sorted child t.size 0 nb_keys

/-- The position of the first character of a table. -/
def Table.first : Table → Nat
  | .lower => 0
  | .upper => 26
  | _ => 52

theorem alphabetIndex_shown : ∀ t : Table, t ≠ .other → ∀ i, i < t.size →
    alphabetIndex (t.shown i) = t.first + i := by
  intro t ht
  cases t with
  | other => exact absurd rfl ht
  | lower => decide
  | upper => decide
  | number => decide

/-- The tables in the order of the loops. -/
def Table.rank : Table → Nat
  | .lower => 0
  | .upper => 1
  | .number => 2
  | .other => 3

theorem first_of_rank {t t' : Table} (ht' : t' ≠ .other) (h : t.rank < t'.rank) :
    t.first + t.size ≤ t'.first := by
  cases t <;> cases t' <;>
    first | exact absurd rfl ht' | simp_all [Table.rank, Table.first, Table.size]

section Calls
variable {eow : Bool} {udata : UInt64} {keys : Table → Keys} {nb : Table → Nat}
variable {child : Table → Nat → Key} {p_str : List UInt8} {t : Table} {i : Nat}
variable {calls : List (Key × List UInt8)}

theorem Key.Sound.visits_ne (hk : (Key.key eow udata keys nb child).Sound)
    (hv : t.Visits (nb t) (child t) i) : t ≠ .other := by
  rintro rfl
  have hlive := (hk.2.2.1 .other i (hk.visits.mp hv)).1
  rw [hk.1] at hlive
  cases hlive

theorem mem_entryCalls (h : entryCalls child p_str t i = .ok calls) {z : Key × List UInt8}
    (hz : z ∈ calls) : ∃ u, z.2 = p_str ++ t.shown i :: u := by
  obtain ⟨-, rest, hrest, rfl⟩ := entryCalls_eq_ok.mp h
  rcases List.mem_cons.mp hz with rfl | hz
  · exact ⟨[], rfl⟩
  · obtain ⟨u, hu, -⟩ := (foreach_mem hrest z.1 z.2).mp hz
    exact ⟨u, by rw [hu, List.append_assoc, List.singleton_append]⟩

theorem mem_tableCalls (h : tableCalls keys nb child p_str t = .ok calls) {z : Key × List UInt8}
    (hz : z ∈ calls) : ∃ i u, t.Visits (nb t) (child t) i ∧ z.2 = p_str ++ t.shown i :: u := by
  obtain ⟨-, hsize, below, hbelow, rfl⟩ := tableCalls_eq_ok.mp h
  obtain ⟨i, hi, y, hy, hmem⟩ := (mem_flatten_mapM hbelow).mp hz
  obtain ⟨u, hu⟩ := mem_entryCalls hy hmem
  exact ⟨i, u, ⟨hi, hsize⟩, hu⟩

theorem listed_of_index {c d : UInt8} (h : alphabetIndex c < alphabetIndex d) (p u v : List UInt8) :
    ListedBefore (p ++ c :: u) (p ++ d :: v) :=
  List.Lex.append_left ByAlphabet (.rel h) p

end Calls

/-- The words of a sound tree are shown in order. -/
theorem foreach_sorted {k : Key} (hk : k.Sound) {p_str : List UInt8}
    {calls : List (Key × List UInt8)} (h : keytreeForeach k p_str = .ok calls) :
    calls.Pairwise fun x y => ListedBefore x.2 y.2 := by
  induction k generalizing p_str calls with
  | null => cases h
  | key eow udata keys nb child ih =>
    obtain ⟨tables, hm, rfl⟩ := keytreeForeach_eq_ok h
    have hentry : ∀ t i, t.Visits (nb t) (child t) i → ∀ y, entryCalls child p_str t i = .ok y →
        y.Pairwise fun x y => ListedBefore x.2 y.2 := by
      intro t i hv y hy
      obtain ⟨-, rest, hrest, rfl⟩ := entryCalls_eq_ok.mp hy
      rw [List.pairwise_cons]
      refine ⟨?_, ih t i (hk.2.2.2.2 t i) hrest⟩
      intro z hz
      obtain ⟨u, hu, hshown⟩ := (foreach_mem hrest z.1 z.2).mp hz
      obtain ⟨c, u, rfl⟩ := List.exists_cons_of_ne_nil hshown.alnum.1
      have hnil : ListedBefore ((p_str ++ [t.shown i]) ++ []) ((p_str ++ [t.shown i]) ++ c :: u) :=
        List.Lex.append_left ByAlphabet .nil (p_str ++ [t.shown i])
      rw [hu]
      simpa using hnil
    have htables : [Table.lower, .upper, .number, .other].Pairwise fun t t' => t.rank < t'.rank := by
      decide
    apply pairwise_flatten_mapM hm htables
    · intro t _ y hy
      obtain ⟨-, hsize, below, hbelow, rfl⟩ := tableCalls_eq_ok.mp hy
      apply pairwise_flatten_mapM hbelow (entries_sorted t (nb t) (child t))
      · intro i hi
        exact hentry t i ⟨hi, hsize⟩
      · intro i hi j hj hij y y' hy hy' a ha b hb
        obtain ⟨u, hu⟩ := mem_entryCalls hy ha
        obtain ⟨v, hv⟩ := mem_entryCalls hy' hb
        have hi' : t.Visits (nb t) (child t) i := ⟨hi, hsize⟩
        have hj' : t.Visits (nb t) (child t) j := ⟨hj, hsize⟩
        have hne := hk.visits_ne hi'
        rw [hu, hv]
        apply listed_of_index
        rw [alphabetIndex_shown t hne i hi'.lt, alphabetIndex_shown t hne j hj'.lt]
        exact Nat.add_lt_add_left hij _
    · intro t _ t' _ hrank y y' hy hy' a ha b hb
      obtain ⟨i, u, hi, hu⟩ := mem_tableCalls hy ha
      obtain ⟨j, v, hj, hv⟩ := mem_tableCalls hy' hb
      have hfirst := first_of_rank (hk.visits_ne hj) hrank
      have hlt := hi.lt
      rw [hu, hv]
      apply listed_of_index
      rw [alphabetIndex_shown t (hk.visits_ne hi) i hi.lt,
        alphabetIndex_shown t' (hk.visits_ne hj) j hj.lt]
      omega

/-- `wg_keytree_foreach` shows each beginning of an added word once, in order, and the mark of its
key says whether it was added. -/
theorem foreach_lists_words {type : UInt32} (htype : type &&& 1 = 0) (cb : Bool) {heap : Heap}
    (hm : ∀ n, heap.malloc n) {ws : List (List UInt8 × UInt64)}
    (hws : ∀ w ∈ ws, AlnumWord w.1 ∧ w.1.length ≤ 128) :
    ∃ head₀ heap₀ head heap', ∃ calls : List (Key × List UInt8),
      wgKeytreeCreate type cb [] heap = .ok (wNoError, some head₀, heap₀) ∧
      addAll head₀ heap₀ ws = .ok (head, heap') ∧
      (∀ {σ : Type} (fn : Key → List UInt8 → σ → σ) (s : σ), wgKeytreeForeach head fn s =
        .ok (calls.foldl (fun s call => fn call.1 call.2 s) s)) ∧
      (∀ u, u ∈ calls.map Prod.snd ↔ u ≠ [] ∧ ∃ w ∈ ws, u <+: w.1) ∧
      (calls.map Prod.snd).Nodup ∧ (calls.map Prod.snd).Pairwise ListedBefore ∧
      ∀ call ∈ calls, call.1.endOfWord = true ↔ call.2 ∈ ws.map Prod.fst := by
  have hwords : ∀ w ∈ ws, AlnumWord w.1 := fun w hw => (hws w hw).1
  obtain ⟨head₀, heap₀, head, heap', hcreate, hall, hk, hnull, htree⟩ := created htype cb hm hwords
  have hnode : ∀ u, u ≠ [] → (u.foldl Key.next head.top ≠ .null ↔ ∃ w ∈ ws, u <+: w.1) := by
    intro u hne
    rw [← isSome_entry_adds hne, ← htree, PrefixTree.entry, ← Key.tree_walk]
    cases u.foldl Key.next head.top with
    | null => simp [Key.tree]
    | key _ _ _ _ _ => simp [Key.tree, PrefixTree.label]
  have hshort : ∀ u k', Shown head.top u k' → ([] : List UInt8).length + u.length ≤ 128 := by
    intro u k' hu
    obtain ⟨hne, rfl, hk'⟩ := hk.shown_iff.mp hu
    obtain ⟨w, hw, hpre⟩ := (hnode u hne).mp hk'
    have := hpre.length_le
    have := (hws w hw).2
    simp only [List.length_nil]
    omega
  obtain ⟨calls, hcalls⟩ := foreach_ok hk hnull [] hshort
  have hsorted : (calls.map Prod.snd).Pairwise ListedBefore := by
    rw [List.pairwise_map]
    exact foreach_sorted hk hcalls
  have hmem : ∀ k' u, (k', u) ∈ calls ↔ u ≠ [] ∧ u.foldl Key.next head.top = k' ∧ k' ≠ .null := by
    intro k' u
    rw [foreach_mem hcalls]
    simp only [List.nil_append, exists_eq_left', hk.shown_iff]
  refine ⟨head₀, heap₀, head, heap', calls, hcreate, hall, ?_, ?_, ?_, hsorted, ?_⟩
  · intro σ fn s
    rw [wgKeytreeForeach, hcalls]
    rfl
  · intro u
    rw [List.mem_map]
    constructor
    · rintro ⟨⟨k', u⟩, hu, rfl⟩
      obtain ⟨hne, rfl, hk'⟩ := (hmem k' u).mp hu
      exact ⟨hne, (hnode u hne).mp hk'⟩
    · rintro ⟨hne, hw⟩
      exact ⟨(_, u), (hmem _ u).mpr ⟨hne, rfl, (hnode u hne).mpr hw⟩, rfl⟩
  · apply hsorted.imp
    rintro u v h rfl
    exact ListedBefore.irrefl u h
  · rintro ⟨k', u⟩ hcall
    obtain ⟨hne, rfl, -⟩ := (hmem k' u).mp hcall
    rw [← stored_iff hwords htree u]
    exact ⟨fun h => ⟨hne, h⟩, fun h => h.2⟩

theorem foreach_lists_words_two :
    ∃ head₀ heap₀ head heap', ∃ calls : List (Key × List UInt8),
      wgKeytreeCreate 0 false [] ⟨fun _ => true, 0⟩ = .ok (wNoError, some head₀, heap₀) ∧
      addAll head₀ heap₀ [([0x42], 9), ([0x61, 0x62], 7)] = .ok (head, heap') ∧
      (∀ {σ : Type} (fn : Key → List UInt8 → σ → σ) (s : σ), wgKeytreeForeach head fn s =
        .ok (calls.foldl (fun s call => fn call.1 call.2 s) s)) ∧
      (∀ u, u ∈ calls.map Prod.snd ↔
        u ≠ [] ∧ ∃ w ∈ [([0x42], (9 : UInt64)), ([0x61, 0x62], 7)], u <+: w.1) ∧
      (calls.map Prod.snd).Nodup ∧ (calls.map Prod.snd).Pairwise ListedBefore ∧
      ∀ call ∈ calls, call.1.endOfWord = true ↔ call.2 ∈ [[0x42], [0x61, 0x62]] :=
  foreach_lists_words (by decide) false (fun _ => rfl) (by decide +kernel)

end Wtools
