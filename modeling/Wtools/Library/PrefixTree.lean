import Mathlib.Data.List.Infix
import Mathlib.Logic.Function.Basic

/-!
# Prefix trees

A tree of words whose nodes carry a mark, set on the words that were added, and a datum,
given once when the node is made as the end of a word. Adding a word makes a node for each
of its prefixes; a node that was there keeps its datum.
-/

universe u v

inductive PrefixTree (ε : Type u) (ν : Type v) where
  | null
  | node (mark : Bool) (datum : ν) (child : ε → PrefixTree ε ν)

namespace PrefixTree

variable {ε : Type u} {ν : Type v}

def label : PrefixTree ε ν → Option (Bool × ν)
  | null => none
  | node mark datum _ => some (mark, datum)

def child : PrefixTree ε ν → ε → PrefixTree ε ν
  | null, _ => null
  | node _ _ child, c => child c

def find (t : PrefixTree ε ν) (w : List ε) : PrefixTree ε ν := w.foldl child t

/-- The mark and the datum of the node of a word, if the tree has it. -/
def entry (t : PrefixTree ε ν) (w : List ε) : Option (Bool × ν) := (t.find w).label

@[simp] theorem label_null : (null : PrefixTree ε ν).label = none := rfl

@[simp] theorem child_null (c : ε) : (null : PrefixTree ε ν).child c = null := rfl

@[simp] theorem child_node (mark : Bool) (datum : ν) (f : ε → PrefixTree ε ν) :
    (node mark datum f).child = f := rfl

@[simp] theorem find_nil (t : PrefixTree ε ν) : t.find [] = t := rfl

@[simp] theorem find_cons (t : PrefixTree ε ν) (c : ε) (w : List ε) :
    t.find (c :: w) = (t.child c).find w := rfl

@[simp] theorem null_find (w : List ε) : (null : PrefixTree ε ν).find w = null := by
  induction w with
  | nil => rfl
  | cons c w ih => exact ih

@[simp] theorem entry_nil (t : PrefixTree ε ν) : t.entry [] = t.label := rfl

@[simp] theorem entry_cons (t : PrefixTree ε ν) (c : ε) (w : List ε) :
    t.entry (c :: w) = (t.child c).entry w := rfl

@[simp] theorem null_entry (w : List ε) : (null : PrefixTree ε ν).entry w = none := by
  rw [entry, null_find, label_null]

/-- The tree with one word added: its datum is kept if its node was there already. -/
def add [DecidableEq ε] [Inhabited ν] (v : ν) : List ε → PrefixTree ε ν → PrefixTree ε ν
  | [], t => node true ((t.label.map Prod.snd).getD v) t.child
  | c :: w, t =>
    let (mark, datum) := t.label.getD (false, default)
    node mark datum (Function.update t.child c (add v w (t.child c)))

variable [DecidableEq ε] [Inhabited ν]

theorem entry_add (v : ν) (w u : List ε) (t : PrefixTree ε ν) :
    (add v w t).entry u =
      if u = w then some (true, ((t.entry w).map Prod.snd).getD v)
      else if u <+: w then some ((t.entry u).getD (false, default))
      else t.entry u := by
  induction w generalizing u t with
  | nil =>
    cases u with
    | nil => rfl
    | cons c u => simp [add]
  | cons d w ih =>
    cases u with
    | nil => simp [add, label]
    | cons c u =>
      simp only [add, entry_cons, child_node, List.cons.injEq, List.cons_prefix_cons]
      by_cases hc : c = d
      · subst hc
        rw [Function.update_self, ih]
        simp
      · rw [Function.update_of_ne hc]
        simp [hc]

def adds (t : PrefixTree ε ν) (ws : List (List ε × ν)) : PrefixTree ε ν :=
  ws.foldl (fun t w => t.add w.2 w.1) t

/-- The words of a tree are those of its marked nodes. -/
def Stores (t : PrefixTree ε ν) (w : List ε) : Prop := ∃ v, t.entry w = some (true, v)

theorem stores_add (v : ν) (w u : List ε) (t : PrefixTree ε ν) :
    (t.add v w).Stores u ↔ u = w ∨ t.Stores u := by
  unfold Stores
  rw [entry_add]
  by_cases hu : u = w
  · simp [hu]
  · rw [if_neg hu, or_iff_right hu]
    split
    · cases t.entry u with
      | none => simp
      | some e => simp
    · rfl

theorem stores_adds (ws : List (List ε × ν)) (u : List ε) (t : PrefixTree ε ν) :
    (t.adds ws).Stores u ↔ u ∈ ws.map Prod.fst ∨ t.Stores u := by
  induction ws generalizing t with
  | nil => simp [adds]
  | cons w ws ih =>
    have : t.adds (w :: ws) = (t.add w.2 w.1).adds ws := rfl
    rw [this, ih, stores_add]
    simp only [List.map_cons, List.mem_cons]
    tauto

/-- The tree without words. -/
def root : PrefixTree ε ν := node false default fun _ => null

theorem adds_snoc (t : PrefixTree ε ν) (ws : List (List ε × ν)) (w : List ε × ν) :
    t.adds (ws ++ [w]) = (t.adds ws).add w.2 w.1 := by
  simp [adds]

omit [DecidableEq ε] in
theorem entry_root {w : List ε} (hw : w ≠ []) : (root : PrefixTree ε ν).entry w = none := by
  cases w with
  | nil => exact absurd rfl hw
  | cons c w => simp [root]

theorem entry_adds_of_notMem {ws : List (List ε × ν)} {w : List ε} (hne : w ≠ [])
    (hw : w ∉ ws.map Prod.fst) :
    (root.adds ws).entry w = if ∃ p ∈ ws, w <+: p.1 then some (false, default) else none := by
  induction ws using List.reverseRecOn with
  | nil => simpa [adds] using entry_root hne
  | append_singleton ws p ih =>
    rw [List.map_append, List.mem_append, not_or] at hw
    have hp : w ≠ p.1 := by simpa using hw.2
    rw [adds_snoc, entry_add, if_neg hp, ih hw.1]
    simp only [List.mem_append, List.mem_singleton, or_and_right, exists_or, exists_eq_left]
    by_cases hpre : w <+: p.1
    · simp only [hpre, if_true, or_true]
      split <;> rfl
    · simp only [hpre, if_false, or_false]

/-- The nodes of a tree are the words that begin added words. -/
theorem isSome_entry_adds {ws : List (List ε × ν)} {w : List ε} (hne : w ≠ []) :
    ((root.adds ws).entry w).isSome ↔ ∃ p ∈ ws, w <+: p.1 := by
  by_cases hw : w ∈ ws.map Prod.fst
  · obtain ⟨p, hp, hpw⟩ := List.mem_map.mp hw
    obtain ⟨v, hv⟩ := (stores_adds ws w root).mpr (.inl hw)
    rw [hv]
    exact iff_of_true rfl ⟨p, hp, hpw ▸ List.prefix_refl _⟩
  · rw [entry_adds_of_notMem hne hw]
    by_cases hp : ∃ p ∈ ws, w <+: p.1
    · rw [if_pos hp]
      exact iff_of_true rfl hp
    · rw [if_neg hp]
      exact iff_of_false (by simp) hp

theorem entry_adds_marked {t : PrefixTree ε ν} {w : List ε} {v : ν} (h : t.entry w = some (true, v))
    (ws : List (List ε × ν)) : (t.adds ws).entry w = some (true, v) := by
  induction ws using List.reverseRecOn with
  | nil => exact h
  | append_singleton ws p ih =>
    rw [adds_snoc, entry_add, ih]
    by_cases hp : w = p.1
    · subst hp
      rw [if_pos rfl, ih]
      rfl
    · rw [if_neg hp]
      split <;> rfl

/-- The datum of a word is the one of its first addition, unless the word began an earlier one. -/
theorem entry_adds_first {pre : List (List ε × ν)} {w : List ε} (hne : w ≠ [])
    (hw : w ∉ pre.map Prod.fst) (v : ν) (post : List (List ε × ν)) :
    (root.adds (pre ++ (w, v) :: post)).entry w =
      some (true, if ∃ p ∈ pre, w <+: p.1 then default else v) := by
  have hadds : (root : PrefixTree ε ν).adds (pre ++ (w, v) :: post) =
      ((root.adds pre).add v w).adds post := by
    simp [adds]
  rw [hadds]
  refine entry_adds_marked ?_ post
  rw [entry_add, if_pos rfl, entry_adds_of_notMem hne hw]
  split <;> rfl

end PrefixTree
