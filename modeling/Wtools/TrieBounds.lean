import Wtools.TrieForeach

/-!
# The bounds of the tables

Each lookup follows a string through the tables. It looks for a character in a table that an add
made where the string leads, and the entry it takes is in range if the characters of that table are
the only ones that are looked for in it. The add looks once behind the other characters, the weak
comparison looks for everything but digits among the lower case letters, and the comparison of
letters and digits for everything else among the other characters.
-/

namespace Wtools
open PrefixTree

/-- The entry of a character in a table. -/
def Table.entryOf (t : Table) (c : UInt8) : Option Spot :=
  if t.base.toNat ≤ c.toNat ∧ c.toNat < t.base.toNat + t.size then
    some (t, c.toNat - t.base.toNat)
  else none

/-- The way of a lookup: with what it carries along, the table in which it looks for a character,
and the entry that it takes, if that is in range. -/
structure Guide (σ : Type) where
  table : σ → UInt8 → Option Table
  spot : σ → UInt8 → Option Spot
  next : σ → UInt8 → σ
  spot_table : ∀ {x c s}, spot x c = some s → table x c = some s.1

namespace Guide
variable {σ : Type}

/-- The entries that a string leads through. -/
def path (g : Guide σ) : σ → List UInt8 → Option (List Spot)
  | _, [] => some []
  | x, c :: str =>
    match g.spot x c with
    | some s => (g.path (g.next x c) str).map (s :: ·)
    | none => none

/-- Wherever a beginning of the string leads, the next character is in range of the table in which
it is looked for, if that table is there. The last character is the final NUL. -/
def Within (g : Guide σ) (tables : List Spot → Table → Prop) (x : σ) (str : List UInt8) : Prop :=
  ∀ pre c post, str ++ [0] = pre ++ c :: post → ∀ p, g.path x pre = some p →
    ∀ t, g.table (pre.foldl g.next x) c = some t → tables p t →
      (g.spot (pre.foldl g.next x) c).isSome

variable {g : Guide σ} {tables : List Spot → Table → Prop} {x : σ} {c : UInt8} {str : List UInt8}

theorem within_nil :
    g.Within tables x [] ↔ ∀ t, g.table x 0 = some t → tables [] t → (g.spot x 0).isSome := by
  constructor
  · intro h
    exact h [] 0 [] rfl [] rfl
  · intro h pre c post hsplit p hp
    cases pre with
    | nil =>
      cases hsplit
      cases hp
      exact h
    | cons d pre => simp at hsplit

theorem within_cons :
    g.Within tables x (c :: str) ↔ (∀ t, g.table x c = some t → tables [] t → (g.spot x c).isSome) ∧
      ∀ s, g.spot x c = some s → g.Within (fun p => tables (s :: p)) (g.next x c) str := by
  constructor
  · intro h
    refine ⟨h [] c (str ++ [0]) rfl [] rfl, ?_⟩
    intro s hs pre d post hsplit p hp
    refine h (c :: pre) d post ?_ (s :: p) ?_
    · rw [List.cons_append, List.cons_append, hsplit]
    · rw [path, hs, hp]
      rfl
  · rintro ⟨hhead, hrest⟩ pre d post hsplit p hp
    cases pre with
    | nil =>
      obtain ⟨rfl, -⟩ := List.cons.inj hsplit
      cases hp
      exact hhead
    | cons e pre =>
      obtain ⟨rfl, htail⟩ := List.cons.inj hsplit
      rw [path] at hp
      cases hs : g.spot x c with
      | none =>
        rw [hs] at hp
        cases hp
      | some s =>
        rw [hs] at hp
        obtain ⟨p, hbelow, rfl⟩ := Option.map_eq_some_iff.mp hp
        exact hrest s hs pre d post htail p hbelow

theorem within_of_noTable (h : ∀ p t, ¬tables p t) : g.Within tables x str := by
  intro pre c post _ p _ t _ ht
  exact absurd ht (h p t)

/-- What the key of a character can be, in a key whose tables are in order. -/
inductive Leads (g : Guide σ) (k : Key) (x : σ) (c : UInt8) : Except KeyFault Key → Prop
  | nowhere (h : ∀ t, g.table x c = some t → k.hasTable t = false) : Leads g k x c (.ok .null)
  | entry {s : Spot} (ht : k.hasTable s.1 = true) (hs : g.spot x c = some s) :
      Leads g k x c (.ok (k.at s))
  | astray {t : Table} (h : k.hasTable t = true) (ht : g.table x c = some t)
      (hs : g.spot x c = none) {r : Except KeyFault Key} (hr : ¬InBounds r) : Leads g k x c r

end Guide

/-- The tables below a key. -/
def Key.tables (k : Key) (p : List Spot) (t : Table) : Prop := (k.find p).hasTable t = true

theorem Key.Sane.at_eq_null {k : Key} (hk : k.Sane) {s : Spot} (h : k.hasTable s.1 = false) :
    k.at s = .null := by
  cases k with
  | null => rfl
  | key eow udata keys nb child =>
    by_contra hne
    have hlive := (hk.2.1 s.1 s.2 hne).1
    simp [Key.hasTable, hlive] at h

namespace Guide
variable {σ : Type} {g : Guide σ} {x : σ} {c : UInt8} {str : List UInt8} {k : Key}

theorem within_null : g.Within Key.null.tables x str := by
  apply within_of_noTable
  intro p t
  rw [Key.tables, Key.null_find]
  exact Bool.noConfusion

/-- Whether one step of a lookup is in bounds. -/
theorem Leads.inBounds {r : Except KeyFault Key} (h : g.Leads k x c r) :
    InBounds r ↔ ∀ t, g.table x c = some t → k.tables [] t → (g.spot x c).isSome := by
  cases h with
  | nowhere h =>
    refine iff_of_true (inBounds_ok _) ?_
    intro t ht hlive
    rw [Key.tables, Key.find_nil, h t ht] at hlive
    cases hlive
  | entry ht hs =>
    refine iff_of_true (inBounds_ok _) ?_
    intro t _ _
    rw [hs]
    rfl
  | astray h ht hs hr =>
    refine iff_of_false hr ?_
    intro hall
    have hsome := hall _ ht h
    rw [hs] at hsome
    cases hsome

theorem Leads.sane (hk : k.Sane) {r : Except KeyFault Key} (h : g.Leads k x c r) {k' : Key}
    (hr : r = .ok k') : k'.Sane := by
  cases h with
  | nowhere _ =>
    cases hr
    trivial
  | @entry s _ _ =>
    cases hr
    exact hk.at s
  | astray _ _ _ hout =>
    rw [hr] at hout
    exact absurd (inBounds_ok k') hout

/-- One step of a lookup that goes on, on the key that it has come to. -/
theorem Leads.within (hk : k.Sane) {k' : Key} (h : g.Leads k x c (.ok k')) :
    g.Within k.tables x (c :: str) ↔ g.Within k'.tables (g.next x c) str := by
  have hhead := h.inBounds.mp (inBounds_ok k')
  rw [within_cons, and_iff_right hhead]
  cases h with
  | nowhere h =>
    refine iff_of_true ?_ within_null
    intro s hs
    have hnull : k.at s = .null := hk.at_eq_null (h s.1 (g.spot_table hs))
    change g.Within (k.at s).tables (g.next x c) str
    rw [hnull]
    exact within_null
  | @entry s ht hs =>
    constructor
    · intro hall
      exact hall s hs
    · intro hall s' hs'
      rw [hs] at hs'
      cases hs'
      exact hall
  | astray _ _ _ hr => exact absurd (inBounds_ok k') hr

/-- The end of a lookup, on the final NUL. -/
theorem Leads.last {ρ : Type} {r : Except KeyFault Key} (h : g.Leads k x 0 r) (l_error : ρ) :
    InBounds (do let _ ← r; return l_error) ↔ g.Within k.tables x [] := by
  rw [inBounds_bind, h.inBounds, within_nil]
  refine and_iff_left ?_
  intro _ _
  exact inBounds_ok l_error

/-- A step of a lookup that stops at NULL, with the rest of the string after it. -/
theorem Leads.bind {ρ : Type} (hk : k.Sane) {r : Except KeyFault Key} (h : g.Leads k x c r)
    {f : Key → Except KeyFault ρ} (hnull : InBounds (f .null))
    (hrest : ∀ k', k'.Sane → k' ≠ .null →
      (InBounds (f k') ↔ g.Within k'.tables (g.next x c) str)) :
    InBounds (r >>= f) ↔ g.Within k.tables x (c :: str) := by
  cases hr : r with
  | error e =>
    rw [hr] at h
    have hastray : ¬InBounds (.error e : Except KeyFault Key) := by
      cases h with
      | astray _ _ _ hr => exact hr
    rw [inBounds_bind, within_cons, ← h.inBounds]
    exact iff_of_false (fun h => hastray h.1) (fun h => hastray h.1)
  | ok k' =>
    rw [hr] at h
    have hk' := h.sane hk rfl
    rw [h.within hk]
    change InBounds (f k') ↔ _
    by_cases hnull' : k' = .null
    · rw [hnull']
      exact iff_of_true hnull within_null
    · exact hrest k' hk' hnull'

end Guide

/-- The lookups that compare all characters exactly, or only letters and digits. -/
def exactGuide (others : Bool) : Guide Unit where
  table _ c := lookupTable others c
  spot _ c := (lookupTable others c).bind (·.entryOf c)
  next _ _ := ()
  spot_table := by
    intro x c s hs
    obtain ⟨t, ht, hentry⟩ := Option.bind_eq_some_iff.mp hs
    rw [ht]
    rw [Table.entryOf, Option.ite_none_right_eq_some, Option.some.injEq] at hentry
    rw [← hentry.2]

/-- The table of `wg_keytree_weakcmp`. -/
def weakTable (fold : Bool) (c : UInt8) : Table :=
  if (wordWeakType fold c).1 = 1 then .number else .lower

/-- `wg_keytree_weakcmp` carries `l_character` along. -/
def weakGuide (fold : Bool) : Guide (Option UInt8) where
  table _ c := some (weakTable fold c)
  spot l_character c :=
    (if weakTable fold c = .number then some c else lCharacter fold l_character c).bind
      (weakTable fold c).entryOf
  next := lCharacter fold
  spot_table := by
    intro x c s hs
    obtain ⟨d, -, hentry⟩ := Option.bind_eq_some_iff.mp hs
    rw [Table.entryOf, Option.ite_none_right_eq_some, Option.some.injEq] at hentry
    rw [← hentry.2]

section Steps
variable {k : Key} {c : UInt8}

/-- The entry of a table that is there. -/
theorem entry_cases (t : Table) (c : UInt8) (child : Table → Nat → Key) :
    ((if (c.toNat : Int) - t.base.toNat < 0 ∨ t.size ≤ (c.toNat : Int) - t.base.toNat then
        .error .table
      else .ok (child t ((c.toNat : Int) - t.base.toNat).toNat) : Except KeyFault Key)) =
      match t.entryOf c with
      | some s => .ok (child s.1 s.2)
      | none => .error .table := by
  rw [Table.entryOf]
  by_cases h : t.base.toNat ≤ c.toNat ∧ c.toNat < t.base.toNat + t.size
  · have hindex : ((c.toNat : Int) - t.base.toNat).toNat = c.toNat - t.base.toNat := by omega
    rw [if_pos h, if_neg (by omega), hindex]
  · rw [if_neg h, if_pos (by omega)]

theorem lookupKey_leads (hk : k.Sane) (hnull : k ≠ .null) (others : Bool) (x : Unit) :
    (exactGuide others).Leads k x c (lookupKey others k c) := by
  cases k with
  | null => exact absurd rfl hnull
  | key eow udata keys nb child =>
    have heq : (exactGuide others).table x c = lookupTable others c := rfl
    cases ht : lookupTable others c with
    | none =>
      simp only [lookupKey, ht]
      refine .nowhere ?_
      intro t h
      rw [heq, ht] at h
      cases h
    | some t =>
      cases hkey : keys t with
      | freed => exact absurd hkey (hk.1 t)
      | null =>
        simp only [lookupKey, ht, hkey]
        refine .nowhere ?_
        intro u h
        rw [heq, ht, Option.some.injEq] at h
        simp [Key.hasTable, ← h, hkey]
      | live =>
        have hlive : (Key.key eow udata keys nb child).hasTable t = true := by
          simp [Key.hasTable, hkey]
        have hspot : (exactGuide others).spot x c = t.entryOf c := by
          simp [exactGuide, ht]
        simp only [lookupKey, ht, hkey, entry_cases]
        cases he : t.entryOf c with
        | none => exact .astray hlive ht (hspot.trans he) not_inBounds_table
        | some s =>
          have htable : s.1 = t := by
            have htable := (exactGuide others).spot_table (hspot.trans he)
            rw [heq, ht, Option.some.injEq] at htable
            exact htable.symm
          exact .entry (by rw [htable, hlive]) (hspot.trans he)

theorem weakKey_leads (hk : k.Sane) (hnull : k ≠ .null) (fold : Bool) (x : Option UInt8) :
    (weakGuide fold).Leads k x c (weakKey fold k c (lCharacter fold x c)) := by
  cases k with
  | null => exact absurd rfl hnull
  | key eow udata keys nb child =>
    have ht : (if (wordWeakType fold c).1 = 1 then Table.number else .lower) =
        weakTable fold c := rfl
    cases hkey : keys (weakTable fold c) with
    | freed => exact absurd hkey (hk.1 _)
    | null =>
      simp only [weakKey, ht, hkey]
      refine .nowhere ?_
      intro u h
      cases h
      simp [Key.hasTable, hkey]
    | live =>
      have hlive : (Key.key eow udata keys nb child).hasTable (weakTable fold c) = true := by
        simp [Key.hasTable, hkey]
      cases hd : (if weakTable fold c = .number then some c else lCharacter fold x c) with
      | none =>
        simp only [weakKey, ht, hkey, hd]
        exact .astray hlive rfl (by simp only [weakGuide, hd]; rfl) not_inBounds_uninitialised
      | some d =>
        have hspot : (weakGuide fold).spot x c = (weakTable fold c).entryOf d := by
          simp only [weakGuide, hd]
          rfl
        simp only [weakKey, ht, hkey, hd, entry_cases]
        cases he : (weakTable fold c).entryOf d with
        | none => exact .astray hlive rfl (hspot.trans he) not_inBounds_table
        | some s =>
          have htable : weakTable fold c = s.1 :=
            Option.some.inj ((weakGuide fold).spot_table (hspot.trans he))
          exact .entry (by rw [← htable, hlive]) (hspot.trans he)

end Steps

section Loops
variable {k : Key} {s : List UInt8}

theorem lookupLoop_inBounds {ρ : Type} (others : Bool) {found : Key → Nat → UInt8 → ρ → ρ × Bool}
    (hfound : ∀ k i c e, (found k i c e).2 = false) (hk : k.Sane) (hnull : k ≠ .null) (i : Nat)
    (l_error : ρ) :
    InBounds (lookupLoop others found k i s l_error) ↔
      (exactGuide others).Within k.tables () s := by
  induction s generalizing k i l_error with
  | nil => exact (lookupKey_leads hk hnull others ()).last l_error
  | cons c s ih =>
    rw [lookupLoop]
    refine (lookupKey_leads hk hnull others ()).bind hk (inBounds_ok l_error) ?_
    intro k' hk' hnull'
    cases k' with
    | null => exact absurd rfl hnull'
    | key eow udata keys nb child =>
      cases eow with
      | false => exact ih hk' hnull' _ _
      | true =>
        simp only [if_true, hfound, Bool.false_eq_true, if_false]
        exact ih hk' hnull' _ _

theorem weakLoop_inBounds (fold : Bool) (hk : k.Sane) (hnull : k ≠ .null) (x : Option UInt8)
    (l_error : Int) :
    InBounds (weakLoop fold k x s l_error) ↔ (weakGuide fold).Within k.tables x s := by
  induction s generalizing k x l_error with
  | nil => exact (weakKey_leads hk hnull fold x).last l_error
  | cons c s ih =>
    rw [weakLoop]
    refine (weakKey_leads hk hnull fold x).bind hk (inBounds_ok l_error) ?_
    intro k' hk' hnull'
    cases k' with
    | null => exact absurd rfl hnull'
    | key eow udata keys nb child => exact ih hk' hnull' _ _

/-- Without the other characters each character has an entry in the table it is looked for in. -/
theorem exact_spot : ∀ (c : UInt8) (t : Table), lookupTable false c = some t →
    (t.entryOf c).isSome := by
  intro c t
  revert c
  cases t <;> decide +kernel

theorem lookupKey_inBounds (hk : k.Sane) (c : UInt8) :
    InBounds (lookupKey false k c) ∧ ∀ k', lookupKey false k c = .ok k' → k'.Sane := by
  by_cases hnull : k = .null
  · subst hnull
    simp [lookupKey, InBounds]
  · have hleads := lookupKey_leads (c := c) hk hnull false ()
    have hin : InBounds (lookupKey false k c) := by
      rw [hleads.inBounds]
      intro t ht _
      have hspot : (exactGuide false).spot () c = t.entryOf c := by
        rw [show (exactGuide false).table () c = lookupTable false c from rfl] at ht
        simp [exactGuide, ht]
      rw [hspot]
      exact exact_spot c t ht
    exact ⟨hin, fun _ hk' => hleads.sane hk hk'⟩

theorem lookupLoop_exact {ρ : Type} (found : Key → Nat → UInt8 → ρ → ρ × Bool) (hk : k.Sane)
    (i : Nat) (l_error : ρ) : InBounds (lookupLoop false found k i s l_error) := by
  induction s generalizing k i l_error with
  | nil =>
    rw [lookupLoop, inBounds_bind]
    refine ⟨(lookupKey_inBounds hk 0).1, ?_⟩
    intro _ _
    exact inBounds_ok l_error
  | cons c s ih =>
    rw [lookupLoop, inBounds_bind]
    refine ⟨(lookupKey_inBounds hk c).1, ?_⟩
    intro k' hk'
    have hsane := (lookupKey_inBounds hk c).2 k' hk'
    cases k' with
    | null => exact inBounds_ok l_error
    | key eow udata keys nb child =>
      cases eow with
      | false => exact ih hsane _ _
      | true =>
        simp only [if_true]
        split
        · exact inBounds_ok _
        · exact ih hsane _ _

end Loops

theorem inBounds_mapM {α β : Type} {f : α → Except KeyFault β} {l : List α}
    (h : ∀ x ∈ l, InBounds (f x)) : InBounds (l.mapM f) := by
  induction l with
  | nil => exact inBounds_ok []
  | cons x l ih =>
    rw [List.forall_mem_cons] at h
    rw [List.mapM_cons, inBounds_bind]
    refine ⟨h.1, ?_⟩
    intro y _
    rw [inBounds_bind]
    refine ⟨ih h.2, ?_⟩
    intro ys _
    exact inBounds_ok (y :: ys)

/-- The calls for the keys of a tree in order: the strings may be too long, no index is. -/
theorem keytreeForeach_inBounds {k : Key} (hk : k.Sane) (p_str : List UInt8) :
    InBounds (keytreeForeach k p_str) := by
  induction k generalizing p_str with
  | null => simp [keytreeForeach, InBounds]
  | key eow udata keys nb child ih =>
    obtain ⟨hfreed, -, hcount, hall⟩ := hk
    rw [keytreeForeach_key, inBounds_map]
    apply inBounds_mapM
    intro t _
    have hsize : nb t ≤ t.size := by
      rw [hcount, countKeys]
      exact (Finset.card_filter_le _ _).trans (Nat.le_of_eq (Finset.card_range _))
    rw [tableCalls, if_neg (fun h => hfreed t h.2),
      if_neg (fun h => absurd hsize (Nat.not_le.mpr h.1))]
    refine (inBounds_bind _ _).mpr ⟨inBounds_mapM ?_, ?_⟩
    · intro i _
      rw [entryCalls]
      split
      · simp [InBounds, throw, throwThe, MonadExceptOf.throw, bind, Except.bind]
      · refine (inBounds_bind _ _).mpr ⟨ih t i (hall t i) _, ?_⟩
        intro rest _
        exact inBounds_ok _
    · intro below _
      exact inBounds_ok _

/-- Every access of the lookups of a string, and of the calls for the whole tree. -/
def LookupsInBounds (head : KeytreeHead) (str : List UInt8) : Prop :=
  InBounds (wgKeytreeStrcmp head str) ∧ InBounds (wgKeytreeKeyget head str) ∧
  (∀ weak_type, InBounds (wgKeytreeWeakcmp head weak_type str)) ∧
  InBounds (wgKeytreeStrcmpIsalnum head str) ∧
  ∀ {σ : Type} (fn : Key → List UInt8 → σ → σ) (x : σ), InBounds (wgKeytreeForeach head fn x)

theorem lookupsInBounds_iff {head : KeytreeHead} (hk : head.top.Sane) (hnull : head.top ≠ .null)
    (str : List UInt8) :
    LookupsInBounds head str ↔ (weakGuide head.folds).Within head.top.tables none str ∧
      (exactGuide true).Within head.top.tables () str := by
  have hstrcmp : InBounds (wgKeytreeStrcmp head str) := lookupLoop_exact _ hk 0 _
  have hkeyget : InBounds (wgKeytreeKeyget head str) := by
    refine (inBounds_bind _ _).mpr ⟨lookupLoop_exact _ hk 0 _, ?_⟩
    intro k _
    cases k with
    | null => exact inBounds_ok _
    | key _ _ _ _ _ => exact inBounds_ok _
  have hforeach : ∀ {σ : Type} (fn : Key → List UInt8 → σ → σ) (x : σ),
      InBounds (wgKeytreeForeach head fn x) := by
    intro σ fn x
    refine (inBounds_bind _ _).mpr ⟨keytreeForeach_inBounds hk [], ?_⟩
    intro calls _
    exact inBounds_ok _
  have hweak : ∀ weak_type, InBounds (wgKeytreeWeakcmp head weak_type str) ↔
      (weakGuide head.folds).Within head.top.tables none str :=
    fun _ => weakLoop_inBounds head.folds hk hnull none _
  have halnum : InBounds (wgKeytreeStrcmpIsalnum head str) ↔
      (exactGuide true).Within head.top.tables () str :=
    lookupLoop_inBounds true (fun _ _ _ _ => rfl) hk hnull 0 _
  constructor
  · rintro ⟨-, -, h, h', -⟩
    exact ⟨(hweak 0).mp (h 0), halnum.mp h'⟩
  · rintro ⟨h, h'⟩
    exact ⟨hstrcmp, hkeyget, fun weak_type => (hweak weak_type).mpr h, halnum.mpr h', hforeach⟩

/-- The tables that the adds make. -/
def Made (fold : Bool) (ws : List (List UInt8 × UInt64)) (p : List Spot) (t : Table) : Prop :=
  ∃ w ∈ ws, Touches fold w.1 p t

/-- Every access is in range if and only if every word can be added, and the string meets no
character that is out of range of the table in which the weak comparison, or the comparison of
letters and digits, looks for it. -/
theorem accesses_in_bounds_iff (type : UInt32) (cb : Bool) {heap : Heap}
    (hm : ∀ n, heap.malloc n) {ws : List (List UInt8 × UInt64)} (hws : ∀ w ∈ ws, w.1 ≠ [])
    (str : List UInt8) :
    ∃ head₀ heap₀, wgKeytreeCreate type cb [] heap = .ok (wNoError, some head₀, heap₀) ∧
      (InBounds (addAll head₀ heap₀ ws) ∧
        (∀ head heap', addAll head₀ heap₀ ws = .ok (head, heap') → LookupsInBounds head str) ↔
      (∀ w ∈ ws, Addable head₀.folds w.1) ∧
        (weakGuide head₀.folds).Within (Made head₀.folds ws) none str ∧
        (exactGuide true).Within (Made head₀.folds ws) () str) := by
  have hm' : ∀ n, heap.next.malloc n := hm
  have hblank : (Key.blank : Key) ≠ .null := by simp [Key.blank]
  refine ⟨⟨type, cb, .blank⟩, heap.next, by rw [wgKeytreeCreate, if_pos (hm _)]; rfl, ?_⟩
  have hk : (KeytreeHead.mk type cb .blank).top.Sane := Key.sane_blank
  rw [addAll_inBounds hm' hk hblank hws]
  refine and_congr_right ?_
  intro haddable
  obtain ⟨head, heap', hall, hplanted⟩ := addAll_planted hm' hk hblank haddable
  have htables : head.top.tables = Made (KeytreeHead.mk type cb .blank).folds ws := by
    funext p t
    rw [Key.tables, hplanted.tables]
    simp [Key.hasTable_blank, Made]
  rw [← htables, ← hplanted.folds, ← lookupsInBounds_iff hplanted.sane hplanted.isKey]
  constructor
  · intro h
    exact h head heap' hall
  · intro h head' heap'' hall'
    rw [hall] at hall'
    cases hall'
    exact h

theorem accesses_in_bounds_iff_word :
    ∃ head₀ heap₀,
      wgKeytreeCreate 1 false [] ⟨fun _ => true, 0⟩ = .ok (wNoError, some head₀, heap₀) ∧
      (InBounds (addAll head₀ heap₀ [([0x41, 0x21], 7)]) ∧
        (∀ head heap', addAll head₀ heap₀ [([0x41, 0x21], 7)] = .ok (head, heap') →
          LookupsInBounds head [0x61, 0x2D]) ↔
      (∀ w ∈ [([0x41, 0x21], (7 : UInt64))], Addable head₀.folds w.1) ∧
        (weakGuide head₀.folds).Within (Made head₀.folds [([0x41, 0x21], 7)]) none [0x61, 0x2D] ∧
        (exactGuide true).Within (Made head₀.folds [([0x41, 0x21], 7)]) () [0x61, 0x2D]) :=
  accesses_in_bounds_iff 1 false (fun _ => rfl) (by decide) [0x61, 0x2D]

/-- `a;` is filed behind the table of the other characters, a newline at the start has no key, and
after `a` and `!` the final NUL is looked for below both of their tables. -/
theorem accesses_out_of_bounds :
    ∃ head₀ heap₀,
      wgKeytreeCreate 0 false [] ⟨fun _ => true, 0⟩ = .ok (wNoError, some head₀, heap₀) ∧
      addAll head₀ heap₀ [([0x61, 0x3B], 7)] = .error .table ∧
      addAll head₀ heap₀ [([0x0A], 7)] = .error .uninitialised ∧
      ∃ head heap', addAll head₀ heap₀ [([0x61], 7), ([0x21], 9)] = .ok (head, heap') ∧
        wgKeytreeWeakcmp head 0 [] = .error .table ∧
        wgKeytreeStrcmpIsalnum head [] = .error .table ∧ ¬LookupsInBounds head [] := by
  have hweak : ∀ head : KeytreeHead, wgKeytreeWeakcmp head 0 [] = .error .table →
      ¬LookupsInBounds head [] := by
    intro head hw h
    have hin := h.2.2.1 0
    rw [hw] at hin
    exact not_inBounds_table hin
  exact ⟨_, _, rfl, rfl, rfl, _, _, rfl, rfl, rfl, hweak _ rfl⟩

end Wtools
