import Wtools.AddFailures
import Wtools.Decode
import Wtools.TrieForeach
import Mathlib.Algebra.Ring.Nat

/-!
# Releasing the key tree

`wg_keytree_release` frees a tree block by block. What it frees is what `malloc` gave for the tree,
each block once, and none after the block through which it is reached.
-/

namespace Wtools

/-- A block of a tree: the key at the end of a path, which is the head if the path is empty, or
one of the tables of this key. -/
inductive Block where
  | key (p : List Spot)
  | table (p : List Spot) (t : Table)
  deriving DecidableEq, Repr

def Block.path : Block → List Spot
  | key p => p
  | table p _ => p

/-- A block is reached through another one, or is the same. -/
def Block.Within (b : Block) : Block → Prop
  | key p => p <+: b.path
  | table p t => b = table p t ∨ ∃ i, p ++ [(t, i)] <+: b.path

/-- The blocks `wg_key_release` frees on the key at the end of a path, in order. -/
def wgKeyReleaseFrees : Key → List Spot → Except KeyFault (List Block)
  | .null, _ => .error .nullKey
  | .key _ _ keys _ child, p => do
    let tables ← [Table.number, .upper, .lower, .other].mapM fun t => do
      match keys t with
      | .null => return []
      | .freed => throw .freed
      | .live =>
        let below ← (List.range t.size).mapM fun i => do
          if (child t i).isNull then return []
          let blocks ← wgKeyReleaseFrees (child t i) (p ++ [(t, i)])
          return blocks ++ [Block.key (p ++ [(t, i)])]
        return below.flatten ++ [Block.table p t]
    return tables.flatten

def wgKeytreeReleaseFrees (head : KeytreeHead) : Except KeyFault (List Block) := do
  let blocks ← wgKeyReleaseFrees head.top []
  return blocks ++ [Block.key []]

/-- The blocks of a tree: its keys, and their tables. -/
def Key.Has (k : Key) : Block → Prop
  | .key p => k.find p ≠ .null
  | .table p t => (k.find p).hasTable t = true

def Table.all : List Table := [.number, .upper, .lower, .other]

/-- The keys that are in a table, with what is below them. -/
def Table.keysFrees (t : Table) (child : Nat → Key) (frees : Nat → List Block) (p : List Spot) :
    List Block :=
  (List.range t.size).flatMap fun i =>
    if (child i).isNull then [] else frees i ++ [Block.key (p ++ [(t, i)])]

def Key.frees : Key → List Spot → List Block
  | .null, _ => []
  | .key _ _ keys _ child, p => Table.all.flatMap fun t =>
    if keys t = .live then
      t.keysFrees (child t) (fun i => (child t i).frees (p ++ [(t, i)])) p ++ [Block.table p t]
    else []

theorem mapM_ok {α β ε : Type} {f : α → Except ε β} {g : α → β} {l : List α}
    (h : ∀ x ∈ l, f x = .ok (g x)) : l.mapM f = .ok (l.map g) := by
  rw [mapM_eq_ok, List.forall₂_map_right_iff, List.forall₂_same]
  exact h

theorem wgKeyReleaseFrees_key {eow : Bool} {udata : UInt64} {keys : Table → Keys}
    {nb : Table → Nat} {child : Table → Nat → Key} {p : List Spot} (hfreed : ∀ t, keys t ≠ .freed)
    (hchild : ∀ t i, child t i ≠ .null →
      wgKeyReleaseFrees (child t i) (p ++ [(t, i)]) = .ok ((child t i).frees (p ++ [(t, i)]))) :
    wgKeyReleaseFrees (.key eow udata keys nb child) p =
      .ok ((Key.key eow udata keys nb child).frees p) := by
  have hentry : ∀ t i, (if (child t i).isNull then return [] else do
        let blocks ← wgKeyReleaseFrees (child t i) (p ++ [(t, i)])
        return blocks ++ [Block.key (p ++ [(t, i)])]) =
      (.ok (if (child t i).isNull then [] else
        (child t i).frees (p ++ [(t, i)]) ++ [Block.key (p ++ [(t, i)])]) :
        Except KeyFault (List Block)) := by
    intro t i
    split
    · rfl
    · rename_i h
      rw [hchild t i (Key.isNull_eq_false.mp (by simpa using h))]
      rfl
  rw [wgKeyReleaseFrees, mapM_ok (g := fun t => if keys t = .live then
    t.keysFrees (child t) (fun i => (child t i).frees (p ++ [(t, i)])) p ++ [Block.table p t]
    else [])]
  · rfl
  · intro t _
    cases hkey : keys t with
    | null => rfl
    | freed => exact absurd hkey (hfreed t)
    | live =>
      dsimp only
      rw [mapM_ok (fun i _ => hentry t i)]
      rfl

theorem wgKeyReleaseFrees_eq {k : Key} (hk : k.Sane) (hnull : k ≠ .null) (p : List Spot) :
    wgKeyReleaseFrees k p = .ok (k.frees p) := by
  induction k generalizing p with
  | null => exact absurd rfl hnull
  | key eow udata keys nb child ih =>
    obtain ⟨hfreed, -, -, hall⟩ := hk
    exact wgKeyReleaseFrees_key hfreed fun t i hsome => ih t i (hall t i) hsome _

theorem Table.mem_all (t : Table) : t ∈ Table.all := by
  cases t <;> decide

theorem Table.mem_keysFrees {t : Table} {child : Nat → Key} {frees : Nat → List Block}
    {p : List Spot} {b : Block} : b ∈ t.keysFrees child frees p ↔
      ∃ i < t.size, child i ≠ .null ∧ (b ∈ frees i ∨ b = .key (p ++ [(t, i)])) := by
  unfold Table.keysFrees
  simp only [List.mem_flatMap, List.mem_range]
  constructor
  · intro ⟨i, hi, hb⟩
    split at hb
    · cases hb
    · rename_i h
      rw [List.mem_append, List.mem_singleton] at hb
      exact ⟨i, hi, Key.isNull_eq_false.mp (by simpa using h), hb⟩
  · intro ⟨i, hi, hne, hb⟩
    refine ⟨i, hi, ?_⟩
    rw [if_neg (by simp [Key.isNull_eq_false.mpr hne]), List.mem_append, List.mem_singleton]
    exact hb

theorem mem_frees {k : Key} (hk : k.Sane) {p : List Spot} {b : Block} :
    b ∈ k.frees p ↔ (∃ t, k.hasTable t = true ∧ b = .table p t) ∨
      ∃ s, k.at s ≠ .null ∧ (b ∈ (k.at s).frees (p ++ [s]) ∨ b = .key (p ++ [s])) := by
  cases k with
  | null => simp [Key.frees, Key.hasTable, Key.at]
  | key eow udata keys nb child =>
    obtain ⟨-, hlive, -, -⟩ := hk
    simp only [Key.frees, Key.hasTable, Key.at, List.mem_flatMap, decide_eq_true_eq]
    constructor
    · rintro ⟨t, -, hb⟩
      split at hb
      · rename_i ht
        rw [List.mem_append, List.mem_singleton, Table.mem_keysFrees] at hb
        rcases hb with ⟨i, -, hne, hb⟩ | hb
        · exact .inr ⟨(t, i), hne, hb⟩
        · exact .inl ⟨t, ht, hb⟩
      · cases hb
    · rintro (⟨t, ht, hb⟩ | ⟨⟨t, i⟩, hne, hb⟩)
      · refine ⟨t, t.mem_all, ?_⟩
        rw [if_pos ht, List.mem_append, List.mem_singleton]
        exact .inr hb
      · obtain ⟨ht, hi⟩ := hlive t i hne
        refine ⟨t, t.mem_all, ?_⟩
        rw [if_pos ht, List.mem_append, Table.mem_keysFrees]
        exact .inl ⟨i, hi, hne, hb⟩

/-- The block of a subtree, in the tree. -/
def Block.under (p : List Spot) : Block → Block
  | key q => key (p ++ q)
  | table q t => table (p ++ q) t

theorem Block.under_cons (p : List Spot) (s : Spot) (q : List Spot) (t : Table) :
    (key (s :: q)).under p = (key q).under (p ++ [s]) ∧
      (table (s :: q) t).under p = (table q t).under (p ++ [s]) := by
  simp [under]

/-- The release frees all there is below a key. -/
theorem mem_frees_iff {k : Key} (hk : k.Sane) {p : List Spot} {b : Block} :
    b ∈ k.frees p ↔ ∃ b' : Block, b' ≠ .key [] ∧ k.Has b' ∧ b = b'.under p := by
  induction k generalizing p with
  | null =>
    refine iff_of_false (by simp [Key.frees]) ?_
    rintro ⟨b', -, hhas, -⟩
    cases b' with
    | key q => exact hhas (Key.null_find q)
    | table q t =>
      rw [Key.Has, Key.null_find] at hhas
      cases hhas
  | key eow udata keys nb child ih =>
    rw [mem_frees hk]
    constructor
    · rintro (⟨t, ht, rfl⟩ | ⟨s, hne, hb | rfl⟩)
      · exact ⟨.table [] t, Block.noConfusion, ht, by simp [Block.under]⟩
      · obtain ⟨b', hb', hhas, rfl⟩ := (ih s.1 s.2 (hk.2.2.2 s.1 s.2)).mp hb
        cases b' with
        | key q => exact ⟨.key (s :: q), by simp, hhas, ((Block.under_cons p s q .lower).1).symm⟩
        | table q t => exact ⟨.table (s :: q) t, by simp, hhas, ((Block.under_cons p s q t).2).symm⟩
      · exact ⟨.key [s], by simp, hne, rfl⟩
    · rintro ⟨b', hb', hhas, rfl⟩
      cases b' with
      | key q =>
        cases q with
        | nil => exact absurd rfl hb'
        | cons s q =>
          refine .inr ⟨s, ?_, ?_⟩
          · intro hs
            rw [Key.Has, Key.find_cons, hs] at hhas
            exact hhas (Key.null_find q)
          · cases q with
            | nil => exact .inr rfl
            | cons s' q =>
              refine .inl ((ih s.1 s.2 (hk.2.2.2 s.1 s.2)).mpr ?_)
              exact ⟨.key (s' :: q), by simp, hhas, (Block.under_cons p s _ .lower).1⟩
      | table q t =>
        cases q with
        | nil => exact .inl ⟨t, hhas, by simp [Block.under]⟩
        | cons s q =>
          refine .inr ⟨s, ?_, .inl ((ih s.1 s.2 (hk.2.2.2 s.1 s.2)).mpr ?_)⟩
          · intro hs
            rw [Key.Has, Key.find_cons, hs, Key.null_find] at hhas
            cases hhas
          · exact ⟨.table q t, Block.noConfusion, hhas, (Block.under_cons p s q t).2⟩

section Order
variable {a b : Block} {p : List Spot} {s : Spot} {t u : Table} {i j : Nat}

theorem Block.Within.path (h : b.Within a) : a.path <+: b.path := by
  cases a with
  | key p => exact h
  | table p t =>
    rcases h with rfl | ⟨i, hi⟩
    · exact List.prefix_refl p
    · exact (List.prefix_append p _).trans hi

theorem not_snoc_prefix (p : List Spot) (s : Spot) : ¬p ++ [s] <+: p := by
  intro h
  have hlen := h.length_le
  rw [List.length_append, List.length_singleton] at hlen
  omega

theorem snoc_prefix_inj {q : List Spot} {s s' : Spot} (h : p ++ [s] <+: q) (h' : p ++ [s'] <+: q) :
    s = s' := by
  have hle : (p ++ [s]).length ≤ (p ++ [s']).length := by simp
  have hpre := List.prefix_of_prefix_length_le h h' hle
  have heq := hpre.eq_of_length (by simp)
  simpa using heq

theorem frees_path {k : Key} (hk : k.Sane) (hb : b ∈ k.frees p ∨ b = .key p) : p <+: b.path := by
  rcases hb with hb | rfl
  · obtain ⟨b', -, -, rfl⟩ := (mem_frees_iff hk).mp hb
    cases b' with
    | key q => exact List.prefix_append p q
    | table q t => exact List.prefix_append p q
  · exact List.prefix_refl p

theorem frees_not_within {k : Key} (hk : k.Sane) (ha : a ∈ k.frees p) :
    ¬(Block.key p).Within a := by
  intro hwithin
  rcases (mem_frees hk).mp ha with ⟨t, -, rfl⟩ | ⟨s, -, ha⟩
  · rcases hwithin with hw | ⟨i, hi⟩
    · cases hw
    · exact not_snoc_prefix p _ hi
  · exact not_snoc_prefix p s ((frees_path (hk.at s) ha).trans hwithin.path)

theorem keysFrees_path {child : Nat → Key} (hk : ∀ i, (child i).Sane)
    (hb : b ∈ t.keysFrees child (fun i => (child i).frees (p ++ [(t, i)])) p) :
    ∃ i, p ++ [(t, i)] <+: b.path := by
  obtain ⟨i, -, -, hb⟩ := Table.mem_keysFrees.mp hb
  exact ⟨i, frees_path (hk i) hb⟩

/-- Nothing is freed after the block through which it is reached. -/
def Ordered (blocks : List Block) : Prop := blocks.Pairwise fun a b => ¬b.Within a

theorem keysFrees_ordered {child : Nat → Key} (hk : ∀ i, (child i).Sane)
    (h : ∀ i, Ordered ((child i).frees (p ++ [(t, i)]))) :
    Ordered (t.keysFrees child (fun i => (child i).frees (p ++ [(t, i)])) p) := by
  unfold Table.keysFrees Ordered
  rw [List.pairwise_flatMap]
  have hentry : ∀ i, ∀ b ∈ (if (child i).isNull then [] else
      (child i).frees (p ++ [(t, i)]) ++ [Block.key (p ++ [(t, i)])]), p ++ [(t, i)] <+: b.path := by
    intro i b hb
    split at hb
    · cases hb
    · rw [List.mem_append, List.mem_singleton] at hb
      exact frees_path (hk i) hb
  constructor
  · intro i _
    split
    · exact .nil
    · rw [List.pairwise_append]
      refine ⟨h i, List.pairwise_singleton _ _, ?_⟩
      intro a ha b hb
      cases List.mem_singleton.mp hb
      exact frees_not_within (hk i) ha
  · refine List.pairwise_lt_range.imp ?_
    intro i j hij a ha b hb hwithin
    have hsame := snoc_prefix_inj ((hentry i a ha).trans hwithin.path) (hentry j b hb)
    simp only [Prod.mk.injEq, true_and] at hsame
    omega

theorem frees_ordered {k : Key} (hk : k.Sane) (p : List Spot) : Ordered (k.frees p) := by
  induction k generalizing p with
  | null => exact .nil
  | key eow udata keys nb child ih =>
    have hall := hk.2.2.2
    unfold Key.frees Ordered
    rw [List.pairwise_flatMap]
    constructor
    · intro t _
      split
      · rw [List.pairwise_append]
        refine ⟨keysFrees_ordered (hall t) (fun i => ih t i (hall t i) _),
          List.pairwise_singleton _ _, ?_⟩
        intro a ha b hb hwithin
        cases List.mem_singleton.mp hb
        obtain ⟨i, hi⟩ := keysFrees_path (hall t) ha
        exact not_snoc_prefix _ _ (hi.trans hwithin.path)
      · exact .nil
    · have hne : Table.all.Pairwise (· ≠ ·) := by decide
      refine hne.imp ?_
      intro t u htu a ha b hb hwithin
      split at ha
      · split at hb
        · rw [List.mem_append, List.mem_singleton] at ha hb
          rcases ha with ha | rfl
          · obtain ⟨i, hi⟩ := keysFrees_path (hall t) ha
            have hi' := hi.trans hwithin.path
            rcases hb with hb | rfl
            · obtain ⟨j, hj⟩ := keysFrees_path (hall u) hb
              exact htu (congrArg Prod.fst (snoc_prefix_inj hi' hj))
            · exact not_snoc_prefix _ _ hi'
          · rcases hb with hb | rfl
            · obtain ⟨j, hj⟩ := keysFrees_path (hall u) hb
              rcases hwithin with rfl | ⟨i, hi⟩
              · exact not_snoc_prefix _ _ hj
              · exact htu (congrArg Prod.fst (snoc_prefix_inj hi hj))
            · rcases hwithin with hw | ⟨i, hi⟩
              · exact htu (Block.table.inj hw).2.symm
              · exact not_snoc_prefix _ _ hi
        · cases hb
      · cases ha

end Order

theorem sum_map_update {α : Type} [DecidableEq α] {l : List α} (hl : l.Nodup) {a : α} (ha : a ∈ l)
    (f : α → Nat) (v : Nat) :
    (l.map (Function.update f a v)).sum + f a = (l.map f).sum + v := by
  induction l with
  | nil => cases ha
  | cons x l ih =>
    rw [List.nodup_cons] at hl
    rw [List.map_cons, List.sum_cons, List.map_cons, List.sum_cons]
    by_cases hx : x = a
    · subst hx
      have hrest : l.map (Function.update f x v) = l.map f := by
        apply List.map_congr_left
        intro y hy
        refine Function.update_of_ne ?_ v f
        rintro rfl
        exact hl.1 hy
      rw [Function.update_self, hrest]
      omega
    · have hmem : a ∈ l := (List.mem_cons.mp ha).resolve_left (Ne.symm hx)
      have hrest := ih hl.2 hmem
      rw [Function.update_of_ne hx]
      omega

/-- The blocks of a table whose entries have `n i` blocks. -/
def Table.blocks (t : Table) (keys : Keys) (n : Nat → Nat) : Nat :=
  (if keys = .live then 1 else 0) + ((List.range t.size).map n).sum

/-- The number of blocks of a tree. -/
def Key.blocks : Key → Nat
  | .null => 0
  | .key _ _ keys _ child =>
    1 + (Table.all.map fun t => t.blocks (keys t) fun i => (child t i).blocks).sum

theorem length_frees {k : Key} (hk : k.Sane) (hnull : k ≠ .null) (p : List Spot) :
    (k.frees p).length + 1 = k.blocks := by
  induction k generalizing p with
  | null => exact absurd rfl hnull
  | key eow udata keys nb child ih =>
    obtain ⟨-, hlive, -, hall⟩ := hk
    rw [Key.frees, Key.blocks, List.length_flatMap, Nat.add_comm]
    congr 2
    apply List.map_congr_left
    intro t _
    have hentry : ∀ i, (if (child t i).isNull then [] else
        (child t i).frees (p ++ [(t, i)]) ++ [Block.key (p ++ [(t, i)])]).length =
          (child t i).blocks := by
      intro i
      cases hc : child t i with
      | null => rfl
      | key _ _ _ _ _ =>
        have hi := ih t i (hall t i) (by simp [hc]) (p ++ [(t, i)])
        rw [hc] at hi
        simpa using hi
    unfold Table.blocks
    split
    · rw [List.length_append, Table.keysFrees, List.length_flatMap, Nat.add_comm]
      simp only [hentry, List.length_singleton]
    · rename_i hkey
      have hnone : ∀ i, (child t i).blocks = 0 := by
        intro i
        have hc : child t i = .null := by
          by_contra h
          exact hkey (hlive t i h).1
        rw [hc]
        rfl
      simp [hnone]

section Counts
variable {fold : Bool} {udata : UInt64} {c : UInt8} {w : List UInt8} {k sub : Key} {heap : Heap}
variable {s : Spot} {r : Added}

theorem Table.nodup_all : Table.all.Nodup := by
  decide

theorem Key.blocks_touch (hnull : k ≠ .null) (t : Table) :
    (k.touch t).blocks = k.blocks + k.lacks t := by
  cases k with
  | null => exact absurd rfl hnull
  | key eow old keys nb child =>
    have hupdate : (fun u => u.blocks (Function.update keys t .live u) fun i => (child u i).blocks) =
        Function.update (fun u => u.blocks (keys u) fun i => (child u i).blocks) t
          (t.blocks .live fun i => (child t i).blocks) := by
      funext u
      by_cases hu : u = t
      · subst hu
        simp only [Function.update_self]
      · simp only [Function.update_of_ne hu]
    have hsum := sum_map_update Table.nodup_all t.mem_all
      (fun u => u.blocks (keys u) fun i => (child u i).blocks)
      (t.blocks .live fun i => (child t i).blocks)
    rw [← hupdate] at hsum
    have hlacks : t.blocks .live (fun i => (child t i).blocks) =
        t.blocks (keys t) (fun i => (child t i).blocks) + (Key.key eow old keys nb child).lacks t := by
      unfold Table.blocks Key.lacks Key.hasTable
      by_cases hkey : keys t = .live
      · simp [hkey]
      · simp [hkey, Nat.add_comm]
    simp only [Key.touch, Key.blocks]
    omega

/-- Another key at an entry, in a table that is there. -/
theorem Key.blocks_update {eow : Bool} {old : UInt64} {keys : Table → Keys}
    {nb nb' : Table → Nat} {child : Table → Nat → Key} (hs : s.2 < s.1.size) (sub : Key) :
    (Key.key eow old keys nb' (Function.update child s.1
      (Function.update (child s.1) s.2 sub))).blocks + (child s.1 s.2).blocks =
      (Key.key eow old keys nb child).blocks + sub.blocks := by
  obtain ⟨t, i⟩ := s
  dsimp only at hs ⊢
  have hinner : (fun j => (Function.update (child t) i sub j).blocks) =
      Function.update (fun j => (child t j).blocks) i sub.blocks := by
    funext j
    by_cases hj : j = i
    · simp [hj]
    · simp [hj]
  have houter : (fun u => u.blocks (keys u) fun j =>
      (Function.update child t (Function.update (child t) i sub) u j).blocks) =
        Function.update (fun u => u.blocks (keys u) fun j => (child u j).blocks) t
          (t.blocks (keys t) fun j => (Function.update (child t) i sub j).blocks) := by
    funext u
    by_cases hu : u = t
    · subst hu
      simp only [Function.update_self]
    · simp only [Function.update_of_ne hu]
  have hin := sum_map_update List.nodup_range (List.mem_range.mpr hs)
    (fun j => (child t j).blocks) sub.blocks
  have hout := sum_map_update Table.nodup_all t.mem_all
    (fun u => u.blocks (keys u) fun j => (child u j).blocks)
    (t.blocks (keys t) fun j => (Function.update (child t) i sub j).blocks)
  rw [← hinner] at hin
  rw [← houter] at hout
  have htable : t.blocks (keys t) (fun j => (Function.update (child t) i sub j).blocks) +
      (child t i).blocks = t.blocks (keys t) (fun j => (child t j).blocks) + sub.blocks := by
    unfold Table.blocks
    omega
  simp only [Key.blocks]
  omega

theorem Key.blocks_grow (hnull : k ≠ .null) (hs : s.2 < s.1.size) (sub : Key) :
    (k.grow s sub).blocks + (k.at s).blocks = k.blocks + k.lacks s.1 + sub.blocks := by
  rw [← Key.blocks_touch hnull s.1]
  cases k with
  | null => exact absurd rfl hnull
  | key eow old keys nb child => exact Key.blocks_update hs sub

theorem Key.blocks_blank : Key.blank.blocks = 1 := by
  simp [Key.blank, Key.blocks, Table.blocks]

theorem Key.blocks_onto (k : Key) (s : Spot) :
    (k.onto s).blocks = (k.at s).blocks + if (k.at s).isNull then 1 else 0 := by
  unfold Key.onto
  cases h : k.at s with
  | null => exact Key.blocks_blank
  | key _ _ _ _ _ => simp

/-- An add makes the blocks it calls `malloc` for. -/
theorem createKey_blocks (hw : ∀ c ∈ w, ¬Beyond c) {started new_elem : Bool}
    (hk : k.Sane) (hnull : k ≠ .null) (hg : heap.Grants (k.needs fold w))
    (h : createKey fold udata w started new_elem k heap = .ok r) :
    r.key.blocks = k.blocks + k.needs fold w := by
  induction w generalizing started new_elem k heap r with
  | nil =>
    rw [createKey] at h
    split at h
    · cases k with
      | null => exact absurd rfl hnull
      | key eow old keys nb child =>
        cases new_elem with
        | false =>
          cases h
          simp only [Key.blocks, Key.needs, Nat.add_zero]
        | true =>
          cases h
          simp only [Key.blocks, Key.needs, Nat.add_zero]
    · cases h
  | cons c w ih =>
    have hw' : ∀ d ∈ w, ¬Beyond d := fun d hd => hw d (List.mem_cons_of_mem c hd)
    rcases character_cases fold c with ⟨hc, ht⟩ | ⟨i, hc, hp, hi⟩ | hb | ⟨s, hc⟩
    · rw [Key.needs_unmanaged hc ht] at hg ⊢
      rw [createKey_unmanaged ht] at h
      split at h
      · exact ih hw' hk hnull hg h
      · cases h
    · have ht : tableFor fold c = some .other := by rw [tableFor, hp]; rfl
      rw [Key.needs_outside hc ht] at hg ⊢
      rw [createKey_outside hk hnull hp hi hg.left] at h
      split at h
      · rw [ih hw' (hk.touch .other) (Key.touch_ne_null hnull _) hg.right h,
          Key.blocks_touch hnull, Nat.add_assoc]
      · cases h
    · exact absurd hb (hw c List.mem_cons_self)
    · rw [Key.needs_filed hc] at hg ⊢
      rw [createKey_at hk hnull hc hg.left] at h
      obtain ⟨r', hr', rfl⟩ := map_under_eq_ok h
      have hsub := ih hw' (hk.onto s) (k.onto_ne_null s) hg.right hr'
      have hgrow := Key.blocks_grow hnull (filed_eq_some.mp hc).2 r'.key
      have honto := k.blocks_onto s
      change (k.grow s r'.key).blocks = _
      unfold Key.costs
      omega

end Counts

section Heads
variable {head : KeytreeHead} {heap : Heap}

theorem wgKeytreeReleaseFrees_eq (hk : head.top.Sane) (hnull : head.top ≠ .null) :
    wgKeytreeReleaseFrees head = .ok (head.top.frees [] ++ [Block.key []]) := by
  rw [wgKeytreeReleaseFrees, wgKeyReleaseFrees_eq hk hnull]
  rfl

theorem mem_released (hk : head.top.Sane) (hnull : head.top ≠ .null) (b : Block) :
    b ∈ head.top.frees [] ++ [Block.key []] ↔ head.top.Has b := by
  rw [List.mem_append, List.mem_singleton, mem_frees_iff hk]
  have hunder : ∀ b' : Block, b'.under [] = b' := fun b' => by cases b' <;> rfl
  simp only [hunder]
  constructor
  · rintro (⟨b', -, hhas, rfl⟩ | rfl)
    · exact hhas
    · exact hnull
  · intro hhas
    by_cases hb : b = .key []
    · exact .inr hb
    · exact .inl ⟨b, hb, hhas, rfl⟩

theorem released_ordered (hk : head.top.Sane) : Ordered (head.top.frees [] ++ [Block.key []]) := by
  unfold Ordered
  rw [List.pairwise_append]
  refine ⟨frees_ordered hk [], List.pairwise_singleton _ _, ?_⟩
  intro a ha b hb
  cases List.mem_singleton.mp hb
  exact frees_not_within hk ha

theorem Ordered.nodup {blocks : List Block} (h : Ordered blocks) : blocks.Nodup := by
  refine h.imp ?_
  rintro a b hwithin rfl
  cases a with
  | key p => exact hwithin (List.prefix_refl p)
  | table p t => exact hwithin (.inl rfl)

/-- An add that returns either kept what `parse_file_create_key` made, or released it. -/
theorem wgKeytreeAdd_cases {w : List UInt8} (hne : w ≠ []) {udata : UInt64} {r : AddResult}
    (h : wgKeytreeAdd head w udata heap = .ok r) :
    ∃ r', createKey head.folds udata w false false head.top heap = .ok r' ∧
      r.error = r'.error ∧ (r'.error ≠ wENoMemory ∧ r.head.top = r'.key ∨
        r'.error = wENoMemory ∧ wgKeyRelease r'.key = .ok r.head.top) := by
  rw [wgKeytreeAdd, parseFileCreateKey, if_neg hne] at h
  cases hcreate : createKey head.folds udata w false false head.top heap with
  | error e =>
    rw [hcreate] at h
    cases h
  | ok r' =>
    rw [hcreate] at h
    simp only [bind, Except.bind] at h
    split at h
    · rename_i hnone
      cases hrelease : wgKeyRelease r'.key with
      | error e =>
        rw [hrelease] at h
        cases h
      | ok top =>
        rw [hrelease] at h
        cases h
        exact ⟨r', rfl, rfl, .inr ⟨hnone, hrelease⟩⟩
    · rename_i hsome
      cases h
      exact ⟨r', rfl, rfl, .inl ⟨hsome, rfl⟩⟩

theorem wgKeytreeAdd_blocks (hk : head.top.Sane) (hnull : head.top ≠ .null) {w : List UInt8}
    (hw : Addable head.folds w) {udata : UInt64} (hg : heap.Grants (head.top.needs head.folds w))
    {r : AddResult} (h : wgKeytreeAdd head w udata heap = .ok r) (herror : r.error ≠ wENoMemory) :
    r.head.top.blocks = head.top.blocks + head.top.needs head.folds w := by
  obtain ⟨r', hcreate, hsame, ⟨-, htop⟩ | ⟨hnone, -⟩⟩ := wgKeytreeAdd_cases hw.ne_nil h
  · rw [htop]
    exact createKey_blocks hw.2 hk hnull hg hcreate
  · exact absurd (hsame.trans hnone) herror

/-- A sequence of adds makes the blocks it calls `malloc` for. -/
theorem addAll_blocks (hm : ∀ n, heap.malloc n) (hk : head.top.Sane) (hnull : head.top ≠ .null)
    {ws : List (List UInt8 × UInt64)} (hws : ∀ w ∈ ws, Addable head.folds w.1)
    {head' : KeytreeHead} {heap' : Heap} (h : addAll head heap ws = .ok (head', heap')) :
    head'.top.blocks + heap.calls = head.top.blocks + heap'.calls := by
  induction ws generalizing head heap with
  | nil =>
    cases h
    rfl
  | cons w ws ih =>
    have hg := Heap.grants_of_all hm (head.top.needs head.folds w.1)
    obtain ⟨r, hgrown, hr⟩ := wgKeytreeAdd_grown hk hnull (hws w List.mem_cons_self) w.2 hg
    have hblocks := wgKeytreeAdd_blocks hk hnull (hws w List.mem_cons_self) hg hr hgrown.error
    have hm' : ∀ n, r.heap.malloc n := by
      rw [hgrown.heap]
      exact hm
    rw [addAll, hr] at h
    have hrest := @ih { head with top := r.key } _ hm' hgrown.sane hgrown.isKey
      (fun v hv => hws v (List.mem_cons_of_mem w hv)) h
    have hcalls : r.heap.calls = heap.calls + head.top.needs head.folds w.1 := by
      rw [hgrown.heap]
      rfl
    dsimp only at hblocks hrest
    omega

theorem wgKeyReleaseFrees_freed {k : Key} {t : Table} (h : k.keysOf t = .freed) (p : List Spot)
    (blocks : List Block) : wgKeyReleaseFrees k p ≠ .ok blocks := by
  cases k with
  | null => cases h
  | key eow old keys nb child =>
    change keys t = .freed at h
    intro hok
    rw [wgKeyReleaseFrees] at hok
    obtain ⟨tables, htables, -⟩ := bind_ok hok
    obtain ⟨y, hy⟩ := mapM_all htables t.mem_all
    rw [h] at hy
    cases hy

/-- A release comes upon a table that was freed. -/
theorem wgKeytreeReleaseFrees_freed {t : Table} (h : head.top.keysOf t = .freed)
    (blocks : List Block) : wgKeytreeReleaseFrees head ≠ .ok blocks := by
  intro hok
  obtain ⟨freed, hfreed, -⟩ := bind_ok hok
  exact wgKeyReleaseFrees_freed h [] freed hfreed

/-- The two accounts of `wg_key_release`, what it makes of a key and what it frees, come to an end on
the same keys, as long as nothing below the key was freed before. -/
theorem wgKeyRelease_frees {eow : Bool} {udata : UInt64} {keys : Table → Keys}
    {nb : Table → Nat} {child : Table → Nat → Key} (hchild : ∀ t i, (child t i).Sane)
    (p : List Spot) :
    (∃ k, wgKeyRelease (.key eow udata keys nb child) = .ok k) ↔
      ∃ blocks, wgKeyReleaseFrees (.key eow udata keys nb child) p = .ok blocks := by
  by_cases hfreed : ∃ t, keys t = .freed
  · obtain ⟨t, ht⟩ := hfreed
    have hany : [Table.number, .upper, .lower, .other].any (keys · = .freed) := by
      rw [List.any_eq_true]
      exact ⟨t, t.mem_all, decide_eq_true ht⟩
    constructor
    · rintro ⟨k, hk⟩
      rw [wgKeyRelease, if_pos hany] at hk
      cases hk
    · rintro ⟨blocks, hblocks⟩
      have htop : (Key.key eow udata keys nb child).keysOf t = .freed := ht
      exact absurd hblocks (wgKeyReleaseFrees_freed htop p blocks)
  · rw [not_exists] at hfreed
    have hnone : ¬[Table.number, .upper, .lower, .other].any (keys · = .freed) := by
      rw [List.any_eq_true]
      rintro ⟨t, -, ht⟩
      exact hfreed t (of_decide_eq_true ht)
    constructor
    · rintro -
      exact ⟨_, wgKeyReleaseFrees_key hfreed fun t i hsome =>
        wgKeyReleaseFrees_eq (hchild t i) hsome _⟩
    · rintro -
      exact ⟨_, by rw [wgKeyRelease, if_neg hnone]⟩

/-- What the first failure of an add leaves, by whether it came before anything was made. -/
theorem failed_top {w : List UInt8} {s : Spot} (hk : head.top.Sane) (hnull : head.top ≠ .null)
    (hs : filed head.folds (peek w) = some s) (hne : w ≠ []) {udata : UInt64} {r : AddResult}
    (h : wgKeytreeAdd head w udata heap = .ok r) (herror : r.error = wENoMemory) :
    ((∀ t, head.top.hasTable t = false) ∧ heap.malloc heap.calls = false → r.head.top = head.top) ∧
    (¬((∀ t, head.top.hasTable t = false) ∧ heap.malloc heap.calls = false) →
      ∃ t, r.head.top.keysOf t = .freed) := by
  obtain ⟨r', hcreate, hsame, ⟨hsome, -⟩ | ⟨hnone, hrelease⟩⟩ := wgKeytreeAdd_cases hne h
  · exact absurd (hsame.symm.trans herror) hsome
  · obtain ⟨c, w, rfl⟩ := List.exists_cons_of_ne_nil hne
    change filed head.folds c = some s at hs
    constructor
    · intro ⟨htables, hm⟩
      rw [createKey_entry hk hnull hs, if_pos ⟨htables s.1, hm⟩] at hcreate
      split at hcreate
      · cases hcreate
      · cases hcreate
        exact (wgKeyRelease_ok hrelease).2 htables
    · intro hfirst
      rcases createKey_failed hk hnull hs hcreate hnone with ⟨t, ht⟩ | ⟨htables, -, -, hm⟩
      · exact ⟨t, (wgKeyRelease_ok hrelease).1 t ht⟩
      · exact absurd ⟨htables, hm⟩ hfirst

end Heads

/-- `wg_keytree_release` frees what `malloc` gave for the tree: each of its blocks once, none after
the block it is reached through, and as many as there were calls. -/
theorem release_frees_all (type : UInt32) (cb : Bool) {heap : Heap} (hm : ∀ n, heap.malloc n)
    {ws : List (List UInt8 × UInt64)}
    (hws : ∀ w ∈ ws, Addable (KeytreeHead.mk type cb .blank).folds w.1) :
    ∃ head₀ heap₀ head heap' blocks,
      wgKeytreeCreate type cb [] heap = .ok (wNoError, some head₀, heap₀) ∧
      addAll head₀ heap₀ ws = .ok (head, heap') ∧
      wgKeytreeReleaseFrees head = .ok blocks ∧ blocks.Nodup ∧ Ordered blocks ∧
      (∀ b, b ∈ blocks ↔ head.top.Has b) ∧ heap'.calls = heap.calls + blocks.length := by
  have hm' : ∀ n, heap.next.malloc n := hm
  have hk : (KeytreeHead.mk type cb .blank).top.Sane := Key.sane_blank
  have hnull : (KeytreeHead.mk type cb .blank).top ≠ .null := Key.noConfusion
  obtain ⟨head, heap', hall, hplanted⟩ := addAll_planted hm' hk hnull hws
  have hordered := released_ordered hplanted.sane
  refine ⟨_, heap.next, head, heap', _, by rw [wgKeytreeCreate, if_pos (hm _)]; rfl, hall,
    wgKeytreeReleaseFrees_eq hplanted.sane hplanted.isKey, hordered.nodup, hordered,
    mem_released hplanted.sane hplanted.isKey, ?_⟩
  have hblocks := addAll_blocks hm' hk hnull hws hall
  have hlength := length_frees hplanted.sane hplanted.isKey []
  have hone : (KeytreeHead.mk type cb .blank).top.blocks = 1 := Key.blocks_blank
  have hnext : heap.next.calls = heap.calls + 1 := rfl
  rw [List.length_append, List.length_singleton]
  omega

theorem release_frees_all_words :
    ∃ head₀ heap₀ head heap' blocks,
      wgKeytreeCreate 1 false [] ⟨fun _ => true, 0⟩ = .ok (wNoError, some head₀, heap₀) ∧
      addAll head₀ heap₀ [([0x41, 0x31], 7), ([0x61, 0x62], 9)] = .ok (head, heap') ∧
      wgKeytreeReleaseFrees head = .ok blocks ∧ blocks.Nodup ∧ Ordered blocks ∧
      (∀ b, b ∈ blocks ↔ head.top.Has b) ∧ heap'.calls = 0 + blocks.length :=
  release_frees_all 1 false (fun _ => rfl) (by decide +kernel)

/-- After an add that returned `W_E_NO_MEMORY`, the release reads tables that were freed, unless the
tree was empty and the add failed on its first `malloc`. -/
theorem release_after_failure_iff {head : KeytreeHead} (h : Reached head) {w : List UInt8}
    (hw : AlnumWord w) {udata : UInt64} {heap : Heap} {r : AddResult}
    (hr : wgKeytreeAdd head w udata heap = .ok r) (herror : r.error = wENoMemory) :
    (∃ blocks, wgKeytreeReleaseFrees r.head = .ok blocks) ↔
      (∀ t, head.top.hasTable t = false) ∧ heap.malloc heap.calls = false := by
  obtain ⟨hk, hnull⟩ := h.sane
  obtain ⟨s, hs⟩ := Option.isSome_iff_exists.mp (hw.addable head.folds).1
  obtain ⟨hsame, hfreed⟩ := failed_top hk hnull hs hw.1 hr herror
  constructor
  · intro ⟨blocks, hblocks⟩
    by_contra hfirst
    obtain ⟨t, ht⟩ := hfreed hfirst
    exact wgKeytreeReleaseFrees_freed ht blocks hblocks
  · intro hfirst
    have htop := hsame hfirst
    exact ⟨_, wgKeytreeReleaseFrees_eq (htop ▸ hk) (htop ▸ hnull)⟩

theorem release_after_failure_iff_digit :
    ∃ r, wgKeytreeAdd ⟨0, false, .blank⟩ [0x31] 7 ⟨fun n => n ≠ 1, 0⟩ = .ok r ∧
      r.error = wENoMemory ∧ ((∃ blocks, wgKeytreeReleaseFrees r.head = .ok blocks) ↔
        (∀ t, Key.blank.hasTable t = false) ∧ decide (0 ≠ 1) = false) := by
  have hcreate : wgKeytreeCreate 0 false [] ⟨fun _ => true, 0⟩ =
      .ok (wNoError, some ⟨0, false, .blank⟩, ⟨fun _ => true, 1⟩) := rfl
  have hadd : wgKeytreeAdd ⟨0, false, .blank⟩ [0x31] 7 ⟨fun n => n ≠ 1, 0⟩ = .ok _ := rfl
  have hw : AlnumWord [0x31] := by decide +kernel
  exact ⟨_, hadd, rfl, release_after_failure_iff (.create hcreate) hw hadd rfl⟩

end Wtools
