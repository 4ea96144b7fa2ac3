import Wtools.TrieWords
import Mathlib.Data.Nat.Count

/-!
# What the key tree shows

The calls of `wg_keytree_foreach`: which keys it comes to, with which strings. Whatever was
added, the strings shown are letters and digits. A tree of words of letters and digits is
shown in full.
-/

namespace Wtools

theorem mapM_eq_ok {α β ε : Type} {f : α → Except ε β} {l : List α} {ys : List β} :
    l.mapM f = .ok ys ↔ List.Forall₂ (fun x y => f x = .ok y) l ys := by
  induction l generalizing ys with
  | nil =>
    constructor
    · intro h
      cases h
      exact .nil
    · intro h
      cases h
      rfl
  | cons x l ih =>
    rw [List.mapM_cons]
    constructor
    · intro h
      cases hx : f x with
      | error e =>
        rw [hx] at h
        cases h
      | ok y =>
        cases hl : l.mapM f with
        | error e =>
          rw [hx, hl] at h
          cases h
        | ok ys' =>
          rw [hx, hl] at h
          cases h
          exact .cons hx (ih.mp hl)
    · intro h
      cases h with
      | cons hx hl =>
        rw [hx, ih.mpr hl]
        rfl

section
variable {α β ε : Type} {f : α → Except ε β} {l : List α}

theorem mapM_all {ys : List β} (h : l.mapM f = .ok ys) {x : α} (hx : x ∈ l) : ∃ y, f x = .ok y := by
  rw [mapM_eq_ok] at h
  induction h with
  | nil => cases hx
  | cons hy _ ih =>
    rcases List.mem_cons.mp hx with rfl | hx
    · exact ⟨_, hy⟩
    · exact ih hx

theorem exists_mapM (h : ∀ x ∈ l, ∃ y, f x = .ok y) : ∃ ys, l.mapM f = .ok ys := by
  induction l with
  | nil => exact ⟨[], rfl⟩
  | cons x l ih =>
    rw [List.forall_mem_cons] at h
    obtain ⟨y, hy⟩ := h.1
    obtain ⟨ys, hys⟩ := ih h.2
    exact ⟨y :: ys, mapM_eq_ok.mpr (.cons hy (mapM_eq_ok.mp hys))⟩

theorem mem_flatten_mapM {g : α → Except ε (List β)} {ys : List (List β)} (h : l.mapM g = .ok ys)
    {z : β} : z ∈ ys.flatten ↔ ∃ x ∈ l, ∃ y, g x = .ok y ∧ z ∈ y := by
  rw [mapM_eq_ok] at h
  induction h with
  | nil => simp
  | cons hy _ ih => simp [ih, hy]

end

theorem mem_occupied {child : Nat → Key} {n i left j : Nat} (h : j ∈ occupied child n i left) :
    i ≤ j ∧ j < i + n ∧ (child j).isNull = false := by
  induction n generalizing i left with
  | zero => cases h
  | succ n ih =>
    rw [occupied] at h
    split at h
    · cases h
    · split at h
      · obtain ⟨hi, hj, hc⟩ := ih h
        exact ⟨by omega, by omega, hc⟩
      · rename_i hnull
        rcases List.mem_cons.mp h with rfl | h
        · exact ⟨Nat.le_refl _, by omega, by simpa using hnull⟩
        · obtain ⟨hi, hj, hc⟩ := ih h
          exact ⟨by omega, by omega, hc⟩

theorem occupied_complete {child : Nat → Key} {n i left : Nat}
    (hleft : Nat.count (fun k => (child (i + k)).isNull = false) n ≤ left) {j : Nat} (hi : i ≤ j)
    (hj : j < i + n) (hc : (child j).isNull = false) : j ∈ occupied child n i left := by
  induction n generalizing i left with
  | zero => omega
  | succ n ih =>
    simp only [Nat.count_succ', Nat.add_zero, ← Nat.add_assoc, Nat.add_right_comm i _ 1] at hleft
    have hrest : ∀ left', Nat.count (fun k => (child (i + 1 + k)).isNull = false) n ≤ left' →
        i ≠ j → j ∈ occupied child n (i + 1) left' := fun left' h hne => ih h (by omega) (by omega)
    rw [occupied]
    by_cases hnull : (child i).isNull = true
    · have hne : i ≠ j := by
        rintro rfl
        simp [hnull] at hc
      simp only [hnull, reduceCtorEq, if_false, Nat.add_zero] at hleft
      have hmem := hrest left hleft hne
      have hpos : left ≠ 0 := by
        rintro rfl
        cases n <;> cases hmem
      rwa [if_neg hpos, if_pos hnull]
    · rw [Bool.not_eq_true] at hnull
      rw [if_pos hnull] at hleft
      rw [if_neg (by omega), if_neg (by simp [hnull]), List.mem_cons]
      by_cases hne : i = j
      · exact .inl hne.symm
      · exact .inr (hrest (left - 1) (by omega) hne)

theorem countKeys_eq (child : Nat → Key) (n : Nat) :
    countKeys child n = Nat.count (fun k => (child k).isNull = false) n := by
  rw [countKeys, Nat.count_eq_card_filter_range]

/-- An entry of a table that the loops come to. -/
def Table.Visits (t : Table) (nb_keys : Nat) (child : Nat → Key) (i : Nat) : Prop :=
  i ∈ t.entries nb_keys child ∧ (t = .other → nb_keys ≤ t.size)

theorem Table.Visits.lt {t : Table} {nb_keys : Nat} {child : Nat → Key} {i : Nat}
    (h : t.Visits nb_keys child i) : i < t.size := by
  obtain ⟨hmem, hother⟩ := h
  rw [Table.entries] at hmem
  split at hmem
  · rename_i ht
    have := hother ht
    simp only [List.mem_filter, List.mem_range] at hmem
    omega
  · have := (mem_occupied hmem).2.1
    omega

theorem shown_alnum : ∀ (t : Table) (i : Nat), i < t.size → isalnum (t.shown i) := by
  intro t
  cases t <;> decide

/-- The keys that are shown, with their strings from a key on. -/
inductive Shown : Key → List UInt8 → Key → Prop
  | entry {eow : Bool} {udata : UInt64} {keys : Table → Keys} {nb : Table → Nat}
      {child : Table → Nat → Key} (t : Table) (i : Nat) (hi : t.Visits (nb t) (child t) i) :
      Shown (.key eow udata keys nb child) [t.shown i] (child t i)
  | inside {eow : Bool} {udata : UInt64} {keys : Table → Keys} {nb : Table → Nat}
      {child : Table → Nat → Key} (t : Table) (i : Nat) (hi : t.Visits (nb t) (child t) i)
      {u : List UInt8} {k : Key} (h : Shown (child t i) u k) :
      Shown (.key eow udata keys nb child) (t.shown i :: u) k

theorem Shown.alnum {k k' : Key} {u : List UInt8} (h : Shown k u k') : AlnumWord u := by
  induction h with
  | entry t i hi => exact ⟨by simp, by simpa using shown_alnum t i hi.lt⟩
  | inside t i hi h ih =>
    refine ⟨by simp, ?_⟩
    rw [List.forall_mem_cons]
    exact ⟨shown_alnum t i hi.lt, ih.2⟩

/-- The calls for one entry of a table. -/
def entryCalls (child : Table → Nat → Key) (p_str : List UInt8) (t : Table) (i : Nat) :
    Except KeyFault (List (Key × List UInt8)) := do
  if 128 ≤ p_str.length then throw .overrun
  let rest ← keytreeForeach (child t i) (p_str ++ [t.shown i])
  return (child t i, p_str ++ [t.shown i]) :: rest

/-- The calls for one table. -/
def tableCalls (keys : Table → Keys) (nb : Table → Nat) (child : Table → Nat → Key)
    (p_str : List UInt8) (t : Table) : Except KeyFault (List (Key × List UInt8)) := do
  if nb t ≠ 0 ∧ keys t = .freed then throw .freed
  if t.size < nb t ∧ t = .other then throw .table
  let below ← (t.entries (nb t) (child t)).mapM (entryCalls child p_str t)
  return below.flatten

theorem keytreeForeach_key (eow : Bool) (udata : UInt64) (keys : Table → Keys) (nb : Table → Nat)
    (child : Table → Nat → Key) (p_str : List UInt8) :
    keytreeForeach (.key eow udata keys nb child) p_str =
      ([Table.lower, .upper, .number, .other].mapM (tableCalls keys nb child p_str)).map
        List.flatten := by
  rw [keytreeForeach]
  rfl

theorem entryCalls_eq_ok {child : Table → Nat → Key} {p_str : List UInt8} {t : Table} {i : Nat}
    {calls : List (Key × List UInt8)} :
    entryCalls child p_str t i = .ok calls ↔ p_str.length < 128 ∧
      ∃ rest, keytreeForeach (child t i) (p_str ++ [t.shown i]) = .ok rest ∧
        calls = (child t i, p_str ++ [t.shown i]) :: rest := by
  by_cases hp : 128 ≤ p_str.length
  · simp only [entryCalls, hp, if_true]
    constructor
    · intro h
      cases h
    · rintro ⟨h, -⟩
      omega
  · simp only [entryCalls, hp, if_false, Nat.not_le.mp hp, true_and]
    cases hf : keytreeForeach (child t i) (p_str ++ [t.shown i]) with
    | error e =>
      constructor
      · intro h
        cases h
      · rintro ⟨rest, h, -⟩
        cases h
    | ok rest =>
      constructor
      · intro h
        cases h
        exact ⟨rest, rfl, rfl⟩
      · rintro ⟨rest', h, rfl⟩
        cases h
        rfl

theorem tableCalls_eq_ok {keys : Table → Keys} {nb : Table → Nat} {child : Table → Nat → Key}
    {p_str : List UInt8} {t : Table} {calls : List (Key × List UInt8)} :
    tableCalls keys nb child p_str t = .ok calls ↔ ¬(nb t ≠ 0 ∧ keys t = .freed) ∧
      (t = .other → nb t ≤ t.size) ∧
      ∃ below, (t.entries (nb t) (child t)).mapM (entryCalls child p_str t) = .ok below ∧
        calls = below.flatten := by
  by_cases h₁ : nb t ≠ 0 ∧ keys t = .freed
  · rw [tableCalls, if_pos h₁]
    constructor
    · intro h
      cases h
    · exact fun h => absurd h₁ h.1
  · by_cases h₂ : t.size < nb t ∧ t = .other
    · rw [tableCalls, if_neg h₁, if_pos h₂]
      constructor
      · intro h
        cases h
      · exact fun h => absurd (h.2.1 h₂.2) (Nat.not_le.mpr h₂.1)
    · have hsize : t = .other → nb t ≤ t.size := fun ht => Nat.not_lt.mp fun h => h₂ ⟨h, ht⟩
      rw [tableCalls, if_neg h₁, if_neg h₂]
      cases hm : (t.entries (nb t) (child t)).mapM (entryCalls child p_str t) with
      | error e =>
        constructor
        · intro h
          cases h
        · rintro ⟨-, -, below, h, -⟩
          cases h
      | ok below =>
        constructor
        · intro h
          cases h
          exact ⟨h₁, hsize, below, rfl, rfl⟩
        · rintro ⟨-, -, below', h, rfl⟩
          cases h
          rfl

theorem keytreeForeach_eq_ok {eow : Bool} {udata : UInt64} {keys : Table → Keys} {nb : Table → Nat}
    {child : Table → Nat → Key} {p_str : List UInt8} {calls : List (Key × List UInt8)}
    (h : keytreeForeach (.key eow udata keys nb child) p_str = .ok calls) :
    ∃ tables, [Table.lower, .upper, .number, .other].mapM (tableCalls keys nb child p_str) =
      .ok tables ∧ calls = tables.flatten := by
  rw [keytreeForeach_key] at h
  cases hm : [Table.lower, .upper, .number, .other].mapM (tableCalls keys nb child p_str) with
  | error e =>
    rw [hm] at h
    cases h
  | ok tables =>
    rw [hm] at h
    cases h
    exact ⟨tables, rfl, rfl⟩

theorem mem_tables (t : Table) : t ∈ [Table.lower, .upper, .number, .other] := by
  cases t <;> simp

theorem foreach_mem {k : Key} {p_str : List UInt8} {calls : List (Key × List UInt8)}
    (h : keytreeForeach k p_str = .ok calls) (k' : Key) (s : List UInt8) :
    (k', s) ∈ calls ↔ ∃ u, s = p_str ++ u ∧ Shown k u k' := by
  induction k generalizing p_str calls with
  | null => cases h
  | key eow udata keys nb child ih =>
    obtain ⟨tables, hm, rfl⟩ := keytreeForeach_eq_ok h
    rw [mem_flatten_mapM hm]
    constructor
    · rintro ⟨t, -, below, hbelow, hmem⟩
      obtain ⟨-, hsize, entries, hentries, rfl⟩ := tableCalls_eq_ok.mp hbelow
      obtain ⟨i, hi, y, hy, hmem⟩ := (mem_flatten_mapM hentries).mp hmem
      obtain ⟨-, rest, hrest, rfl⟩ := entryCalls_eq_ok.mp hy
      have hv : t.Visits (nb t) (child t) i := ⟨hi, hsize⟩
      rcases List.mem_cons.mp hmem with h | hmem
      · cases h
        exact ⟨[t.shown i], rfl, .entry t i hv⟩
      · obtain ⟨u, rfl, hu⟩ := (ih t i hrest).mp hmem
        exact ⟨t.shown i :: u, by simp, .inside t i hv hu⟩
    · rintro ⟨u, rfl, hu⟩
      have hstep : ∀ t i, t.Visits (nb t) (child t) i → ∃ rest,
          keytreeForeach (child t i) (p_str ++ [t.shown i]) = .ok rest ∧
          ∀ z ∈ (child t i, p_str ++ [t.shown i]) :: rest,
            ∃ t ∈ [Table.lower, .upper, .number, .other], ∃ y,
              tableCalls keys nb child p_str t = .ok y ∧ z ∈ y := by
        intro t i hv
        obtain ⟨below, hbelow⟩ := mapM_all hm (mem_tables t)
        obtain ⟨-, -, entries, hentries, rfl⟩ := tableCalls_eq_ok.mp hbelow
        obtain ⟨y, hy⟩ := mapM_all hentries hv.1
        obtain ⟨-, rest, hrest, rfl⟩ := entryCalls_eq_ok.mp hy
        exact ⟨rest, hrest, fun z hz => ⟨t, mem_tables t, _, hbelow,
          (mem_flatten_mapM hentries).mpr ⟨i, hv.1, _, hy, hz⟩⟩⟩
      cases hu with
      | entry t i hv =>
        obtain ⟨rest, -, hall⟩ := hstep t i hv
        exact hall _ List.mem_cons_self
      | @inside _ _ _ _ _ t i hv u _ hu =>
        obtain ⟨rest, hrest, hall⟩ := hstep t i hv
        refine hall _ (List.mem_cons_of_mem _ ((ih t i hrest).mpr ⟨u, ?_, hu⟩))
        rw [List.append_assoc, List.singleton_append]

/-- In a sound tree the loops come to the keys that are there. -/
theorem Key.Sound.visits {eow : Bool} {udata : UInt64} {keys : Table → Keys} {nb : Table → Nat}
    {child : Table → Nat → Key} (hk : (Key.key eow udata keys nb child).Sound) {t : Table}
    {i : Nat} :
    t.Visits (nb t) (child t) i ↔ child t i ≠ .null := by
  obtain ⟨hother, -, hlive, hcount, -⟩ := hk
  have hnone : ∀ i, child .other i = .null := by
    intro i
    by_contra h
    have := (hlive _ _ h).1
    rw [hother] at this
    cases this
  have hzero : nb .other = 0 := by
    rw [hcount, countKeys]
    simp [hnone, Key.isNull]
  rw [Table.Visits, Table.entries]
  by_cases ht : t = .other
  · subst ht
    simp [hzero, hnone]
  · rw [if_neg ht, hcount t]
    constructor
    · exact fun h => Key.isNull_eq_false.mp (mem_occupied h.1).2.2
    · intro h
      have hcount : Nat.count (fun k => (child t (0 + k)).isNull = false) t.size ≤
          countKeys (child t) t.size := by
        rw [countKeys_eq]
        simp
      have hi : i < 0 + t.size := by
        rw [Nat.zero_add]
        exact (hlive t i h).2
      exact ⟨occupied_complete hcount (Nat.zero_le _) hi (Key.isNull_eq_false.mpr h),
        fun h => absurd h ht⟩

theorem foreach_ok {k : Key} (hk : k.Sound) (hnull : k ≠ .null) (p_str : List UInt8)
    (hlen : ∀ u k', Shown k u k' → p_str.length + u.length ≤ 128) :
    ∃ calls, keytreeForeach k p_str = .ok calls := by
  induction k generalizing p_str with
  | null => exact absurd rfl hnull
  | key eow udata keys nb child ih =>
    have hentry : ∀ t, ∀ i ∈ t.entries (nb t) (child t), (t = .other → nb t ≤ t.size) →
        ∃ y, entryCalls child p_str t i = .ok y := by
      intro t i hi hsize
      have hv : t.Visits (nb t) (child t) i := ⟨hi, hsize⟩
      have hshort := hlen _ _ (.entry t i hv)
      have hbelow : ∀ u k', Shown (child t i) u k' →
        (p_str ++ [t.shown i]).length + u.length ≤ 128 := by
        intro u k' hu
        have := hlen _ _ (.inside t i hv hu)
        simp only [List.length_append, List.length_cons, List.length_nil] at this ⊢
        omega
      obtain ⟨rest, hrest⟩ := ih t i (hk.2.2.2.2 t i) (hk.visits.mp hv) _ hbelow
      simp only [List.length_cons, List.length_nil] at hshort
      exact ⟨_, entryCalls_eq_ok.mpr ⟨by omega, rest, hrest, rfl⟩⟩
    have htable : ∀ t, ∃ y, tableCalls keys nb child p_str t = .ok y := by
      intro t
      have hsize : t = .other → nb t ≤ t.size := by
        rintro rfl
        rw [hk.2.2.2.1, countKeys]
        exact (Finset.card_filter_le _ _).trans (Nat.le_of_eq (Finset.card_range _))
      obtain ⟨below, hbelow⟩ := exists_mapM fun i hi => hentry t i hi hsize
      exact ⟨_, tableCalls_eq_ok.mpr ⟨fun h => hk.2.1 t h.2, hsize, below, hbelow, rfl⟩⟩
    obtain ⟨tables, htables⟩ :=
      exists_mapM fun t (_ : t ∈ [Table.lower, .upper, .number, .other]) => htable t
    exact ⟨tables.flatten, by rw [keytreeForeach_key, htables]; rfl⟩

theorem place_shown : ∀ (t : Table), t ≠ .other → ∀ i, i < t.size →
    tableOf (t.shown i) = t ∧ indexOf (t.shown i) = i := by
  intro t ht
  cases t with
  | other => exact absurd rfl ht
  | lower => decide
  | upper => decide
  | number => decide

theorem Key.Sound.next_shown {eow : Bool} {udata : UInt64} {keys : Table → Keys} {nb : Table → Nat}
    {child : Table → Nat → Key} (hk : (Key.key eow udata keys nb child).Sound) {t : Table} {i : Nat}
    (hv : t.Visits (nb t) (child t) i) :
    (Key.key eow udata keys nb child).next (t.shown i) = child t i := by
  have hlive := (hk.2.2.1 t i (hk.visits.mp hv)).1
  have ht : t ≠ .other := by
    rintro rfl
    rw [hk.1] at hlive
    cases hlive
  obtain ⟨htable, hindex⟩ := place_shown t ht i hv.lt
  rw [Key.next, if_pos (shown_alnum t i hv.lt), htable, hindex]

/-- The keys shown of a sound tree are those that words of letters and digits lead to. -/
theorem Key.Sound.shown_iff {k : Key} (hk : k.Sound) {u : List UInt8} {k' : Key} :
    Shown k u k' ↔ u ≠ [] ∧ u.foldl Key.next k = k' ∧ k' ≠ .null := by
  constructor
  · intro h
    induction h with
    | entry t i hv => exact ⟨by simp, hk.next_shown hv, hk.visits.mp hv⟩
    | inside t i hv h ih =>
      obtain ⟨-, hfold, hnull⟩ := ih (hk.2.2.2.2 t i)
      refine ⟨by simp, ?_, hnull⟩
      rw [List.foldl_cons, hk.next_shown hv, hfold]
  · rintro ⟨hne, rfl, hnull⟩
    induction u generalizing k with
    | nil => exact absurd rfl hne
    | cons c u ih =>
      rw [List.foldl_cons] at hnull ⊢
      have hsub := hk.next c
      cases k with
      | null =>
        rw [Key.next, foldl_next_null] at hnull
        exact absurd rfl hnull
      | key eow udata keys nb child =>
        have hnext : (Key.key eow udata keys nb child).next c ≠ .null := by
          intro h
          rw [h, foldl_next_null] at hnull
          exact hnull rfl
        have hc : isalnum c = true := by
          by_contra h
          rw [Key.next, if_neg h] at hnext
          exact hnext rfl
        rw [Key.next, if_pos hc] at hnext hsub hnull ⊢
        have hv := hk.visits.mpr hnext
        have hshown := shown_indexOf c hc
        by_cases hu : u = []
        · subst hu
          have h : Shown (.key eow udata keys nb child) [(tableOf c).shown (indexOf c)] _ :=
            .entry (tableOf c) (indexOf c) hv
          rwa [hshown] at h
        · have h : Shown (.key eow udata keys nb child) ((tableOf c).shown (indexOf c) :: u) _ :=
            .inside (tableOf c) (indexOf c) hv (ih hsub hu hnull)
          rwa [hshown] at h

end Wtools
