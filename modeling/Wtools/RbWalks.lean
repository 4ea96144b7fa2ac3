import Mathlib.Data.List.Forall2
import Wtools.RbLayout

/-!
# Walks through the whole red-black tree

`RBTreePrint` reads every node, `RBTreeDestroy` gives every node back.
-/

namespace Wtools.Rbt

open RedBlack (Side ColorTree Branch)
open RedBlack.ColorTree (join)

variable {κ ι : Type} {tree : RbRedBlkTree κ ι} {R : Nat → Option (RbRedBlkNode κ ι)}
  {m : Memory κ ι}

section Destroy

/-- What of an entry is destroyed. -/
def Cell.given (v : Cell κ ι) : List (Destroyed κ ι) := [.key v.key, .info v.info]

/-- The nodes are freed, and the key and the info of each are destroyed. -/
theorem treeDestHelper_of {fuel p : Nat} {t : ColorTree (Cell κ ι)} (h : Linked tree m p t)
    (hnodup : (t.toList.map Cell.addr).Nodup) (hnil : ∀ w ∈ t.toList, w.addr ≠ tree.nil)
    (hfuel : t.height < fuel) :
    ∃ m', treeDestHelper tree fuel (addrOf tree t) m = some ((), m') ∧
      (∀ w ∈ t.toList, m'.node w.addr = none) ∧
      (∀ a, a ∉ t.toList.map Cell.addr → m'.node a = m.node a) ∧
      m'.destroyed = m.destroyed ++ t.postOrder.flatMap Cell.given := by
  induction t generalizing m fuel p with
  | nil =>
    obtain ⟨fuel, rfl⟩ : ∃ k, fuel = k + 1 := ⟨fuel - 1, by omega⟩
    refine ⟨m, congrFun (if_neg (not_not.mpr rfl)) m, by simp [ColorTree.toList],
      fun _ _ => rfl, ?_⟩
    simp [ColorTree.postOrder]
  | node red l v r ihl ihr =>
    obtain ⟨fuel, rfl⟩ : ∃ k, fuel = k + 1 := ⟨fuel - 1, by omega⟩
    obtain ⟨hv, hl, hr⟩ := h
    simp only [ColorTree.toList, List.map_append, List.map_cons, List.nodup_append,
      List.nodup_cons, List.mem_cons] at hnodup
    obtain ⟨hnl, ⟨hvr, hnr⟩, hsep⟩ := hnodup
    simp only [ColorTree.toList, List.mem_append, List.mem_cons] at hnil
    simp only [ColorTree.height] at hfuel
    have hvl : v.addr ∉ l.toList.map Cell.addr := fun hmem => hsep _ hmem _ (.inl rfl) rfl
    obtain ⟨m₁, hrun₁, hgone₁, hoff₁, hdes₁⟩ :=
      ihl hl hnl (fun w hw => hnil w (.inl hw)) (by omega : l.height < fuel)
    have hv₁ := (hoff₁ _ hvl).trans hv
    have hr₁ : Linked tree m₁ v.addr r := hr.congr fun w hw => hoff₁ _ fun hmem =>
      hsep _ hmem _ (.inr (List.mem_map_of_mem hw)) rfl
    obtain ⟨m₂, hrun₂, hgone₂, hoff₂, hdes₂⟩ :=
      ihr hr₁ hnr (fun w hw => hnil w (.inr (.inr hw))) (by omega : r.height < fuel)
    have hv₂ := (hoff₂ _ hvr).trans hv₁
    let m₃ : Memory κ ι := { m₂ with destroyed := m₂.destroyed ++ v.given }
    have hv₃ : m₃.node v.addr = some _ := hv₂
    refine ⟨m₃.put v.addr none, ?_, fun w hw => ?_, fun a ha => ?_, ?_⟩
    · refine (congrFun (if_pos (hnil v (.inr (.inl rfl)))) m).trans ?_
      rw [addrOf, bind_of (read_of hv _)]
      refine (bind_of hrun₁ _).trans ?_
      rw [bind_of (read_of hv₁ _)]
      refine (bind_of hrun₂ _).trans ((destroyEntry_of hv₂ _).trans ?_)
      rw [node_key, node_info]
      change free v.addr m₃ = _
      rw [free, hv₃, Option.map_some]
    · by_cases hwv : w.addr = v.addr
      · rw [hwv, put_self]
      · rw [put_of_ne _ _ hwv]
        change m₂.node w.addr = none
        by_cases hwr : w.addr ∈ r.toList.map Cell.addr
        · obtain ⟨u, hu, he⟩ := List.mem_map.mp hwr
          rw [← he]
          exact hgone₂ u hu
        · rw [hoff₂ _ hwr]
          simp only [ColorTree.toList, List.mem_append, List.mem_cons] at hw
          rcases hw with hw | rfl | hw
          · exact hgone₁ w hw
          · exact absurd rfl hwv
          · exact absurd (List.mem_map_of_mem hw) hwr
    · simp only [ColorTree.toList, List.map_append, List.map_cons, List.mem_append,
        List.mem_cons, not_or] at ha
      rw [put_of_ne _ _ ha.2.1]
      exact (hoff₂ _ ha.2.2).trans (hoff₁ _ ha.1)
    · change m₂.destroyed ++ v.given = _
      rw [hdes₂, hdes₁]
      simp [ColorTree.postOrder]

/-- `RBTreeDestroy` leaves the rest of the memory. -/
theorem rbTreeDestroy_of {t : ColorTree (Cell κ ι)} (h : Stored tree R m [] t) (ht : t.Whole)
    {fuel : Nat} (hfuel : 2 * Nat.log 2 (t.size + 1) < fuel) :
    ∃ m', rbTreeDestroy tree fuel m = some ((), m') ∧ m'.node tree.root = none ∧
      m'.node tree.nil = none ∧ (∀ a, a ≠ tree.root → a ≠ tree.nil → m'.node a = R a) ∧
      m'.destroyed = m.destroyed ++ t.postOrder.flatMap Cell.given := by
  have hheight := ht.height_le
  obtain ⟨hrn, -, -, hspecial⟩ := h.distinct.special
  obtain ⟨rn, hroot, -, hleft, -⟩ := h.hangs
  obtain ⟨nn, hnil, -⟩ := h.nil_black
  obtain ⟨m₁, hrun, hgone, hoff, hdes⟩ := treeDestHelper_of h.linked h.distinct.inside.1
    (fun w hw => (hspecial w hw).2.1) (by omega : t.height < fuel)
  have hroot₁ : m₁.node tree.root = some rn :=
    (hoff _ (notMem_addrs.mpr fun w hw => (hspecial w hw).1)).trans hroot
  have hnil₁ : m₁.node tree.nil = some nn :=
    (hoff _ (notMem_addrs.mpr fun w hw => (hspecial w hw).2.1)).trans (h.nil_node.trans hnil)
  refine ⟨(m₁.put tree.root none).put tree.nil none, ?_, ?_, put_self .., fun a hr hn => ?_, hdes⟩
  · rw [rbTreeDestroy, bind_of (read_of hroot _), hleft, bind_of hrun]
    have hfree : free tree.root m₁ = some ((), m₁.put tree.root none) := by
      rw [free, hroot₁, Option.map_some]
    rw [bind_of hfree, free, put_of_ne _ _ hrn.symm, hnil₁, Option.map_some]
  · rw [put_of_ne _ _ hrn, put_self]
  · rw [put_of_ne _ _ hn, put_of_ne _ _ hr]
    by_cases ha : a ∈ t.toList.map Cell.addr
    · obtain ⟨w, hw, rfl⟩ := List.mem_map.mp ha
      rw [hgone w hw, h.own w hw]
    · rw [hoff a ha, h.rest a hr ha]

end Destroy

section Print
variable {c : List (Branch (Cell κ ι))} {t : ColorTree (Cell κ ι)}

/-- How the key at a root is printed. -/
def label (tree : RbRedBlkTree κ ι) : ColorTree (Cell κ ι) → String
  | .nil => "NULL"
  | .node _ _ v _ => tree.printKey v.key

/-- How the key above a place is printed. -/
def labelAbove (tree : RbRedBlkTree κ ι) : List (Branch (Cell κ ι)) → String
  | [] => "NULL"
  | d :: _ => tree.printKey d.val.key

/-- The lines that are printed for a tree. -/
def lines (tree : RbRedBlkTree κ ι) : (up : String) → ColorTree (Cell κ ι) → List String
  | _, .nil => []
  | up, .node red l v r =>
    lines tree (tree.printKey v.key) l ++
      ("info=" ++ tree.printInfo v.info ++ "  key=" ++ tree.printKey v.key ++ "  l->key=" ++
        label tree l ++ "  r->key=" ++ label tree r ++ "  p->key=" ++ up ++ "  red=" ++
        (if red then "1" else "0") ++ "\n") ::
      lines tree (tree.printKey v.key) r

theorem keyOr_of (h : Stored tree R m c t) :
    keyOr tree (addrOf tree t) tree.nil m = some (label tree t, m) := by
  cases t with
  | nil => exact congrFun (if_pos rfl) m
  | node red l v r =>
    have hv : Stored tree R m c (join .left red l v r) := h
    refine (congrFun (if_neg hv.distinct.apart.nil) m).trans ?_
    rw [addrOf, bind_of (read_of hv.node _), node_key]
    rfl

theorem keyOr_top (h : Stored tree R m c t) :
    keyOr tree (top tree c) tree.root m = some (labelAbove tree c, m) := by
  cases c with
  | nil => exact congrFun (if_pos rfl) m
  | cons d c =>
    have hd : d.val.addr ≠ tree.root := (stored_cons.mp h).distinct.apart.root
    refine (congrFun (if_neg hd) m).trans ?_
    rw [top_cons, bind_of (read_of h.parent _), node_key]
    rfl

theorem inorderTreePrint_of {fuel : Nat} (h : Stored tree R m c t) (hfuel : t.height < fuel) :
    inorderTreePrint tree fuel (addrOf tree t) m =
      some (String.join (lines tree (labelAbove tree c) t), m) := by
  induction t generalizing c fuel with
  | nil =>
    obtain ⟨fuel, rfl⟩ : ∃ k, fuel = k + 1 := ⟨fuel - 1, by omega⟩
    exact congrFun (if_neg (not_not.mpr rfl)) m
  | node red l v r ihl ihr =>
    obtain ⟨fuel, rfl⟩ : ∃ k, fuel = k + 1 := ⟨fuel - 1, by omega⟩
    simp only [ColorTree.height] at hfuel
    have hv : Stored tree R m c (join .left red l v r) := h
    have hl : Stored tree R m (⟨.left, red, v, r⟩ :: c) l := stored_cons.mpr hv
    have hr : Stored tree R m (⟨.right, red, v, l⟩ :: c) r := stored_cons.mpr hv
    have hn := hv.node
    refine (congrFun (if_pos hv.distinct.apart.nil) m).trans ?_
    rw [addrOf, bind_of (read_of hn _)]
    refine (bind_of (ihl hl (by omega)) _).trans ?_
    rw [bind_of (read_of hn _), bind_of (read_of hn _), bind_of (read_of hn _)]
    refine (bind_of (keyOr_of hl) _).trans ?_
    rw [bind_of (read_of hn _)]
    refine (bind_of (keyOr_of hr) _).trans ?_
    rw [bind_of (read_of hn _), node_parent, bind_of (keyOr_top h), bind_of (read_of hn _),
      bind_of (read_of hn _)]
    refine (bind_of (ihr hr (by omega)) _).trans (congrArg (fun s => some (s, m)) ?_)
    rw [node_info, node_key, node_red, lines, String.join_append, String.join_cons]
    simp only [labelAbove, String.append_assoc]

theorem rbTreePrint_of (h : Stored tree R m [] t) (ht : t.Whole) {fuel : Nat}
    (hfuel : 2 * Nat.log 2 (t.size + 1) < fuel) :
    rbTreePrint tree fuel m = some (String.join (lines tree "NULL" t), m) := by
  have hheight := ht.height_le
  obtain ⟨rn, hroot, -, hleft, -⟩ := h.hangs
  rw [rbTreePrint, bind_of (read_of hroot _), hleft]
  exact inorderTreePrint_of h (by omega)

/-- One line for each entry, in the order of the tree. -/
theorem lines_entries (tree : RbRedBlkTree κ ι) (up : String) (t : ColorTree (Cell κ ι)) :
    List.Forall₂ (fun line w => ∃ rest, line =
      "info=" ++ tree.printInfo w.info ++ "  key=" ++ tree.printKey w.key ++ rest)
      (lines tree up t) t.toList := by
  induction t generalizing up with
  | nil => exact .nil
  | node red l v r ihl ihr =>
    refine List.rel_append (ihl _) (.cons ⟨?_, ?_⟩ (ihr _))
    · exact "  l->key=" ++ label tree l ++ "  r->key=" ++ label tree r ++ "  p->key=" ++ up ++
        "  red=" ++ (if red then "1" else "0") ++ "\n"
    · simp only [String.append_assoc]

end Print

end Wtools.Rbt
