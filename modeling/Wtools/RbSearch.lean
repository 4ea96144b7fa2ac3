import Mathlib.Order.Lattice
import Wtools.RbLayout

/-!
# Searching the red-black tree

Neighbours in the order of the tree and `RBExactQuery`. All of it reads only.
-/

namespace Wtools.Rbt

open RedBlack (Side ColorTree Branch plug leftOf rightOf beside)
open RedBlack.ColorTree (join)

variable {κ ι : Type} {tree : RbRedBlkTree κ ι} {R : Nat → Option (RbRedBlkNode κ ι)}
  {m : Memory κ ι}

theorem addrOf_ne {c : List (Branch (Cell κ ι))} {t : ColorTree (Cell κ ι)}
    (h : Stored tree R m c t) (ht : t ≠ .nil) : addrOf tree t ≠ tree.nil := by
  obtain ⟨red, a, v, b, rfl⟩ := RedBlack.ColorTree.exists_join .left ht
  exact h.distinct.apart.nil

/-- Down on one side to the last node. -/
theorem outermost_of (s : Side) {fuel : Nat} {c : List (Branch (Cell κ ι))}
    {t : ColorTree (Cell κ ι)} (h : Stored tree R m c t) (ht : t ≠ .nil)
    (hfuel : t.height ≤ fuel) :
    ∃ c' red v b, outermost tree s fuel (addrOf tree t) m = some (v.addr, m) ∧
      Stored tree R m c' (join s red .nil v b) ∧ plug c' (join s red .nil v b) = plug c t ∧
      beside s c' = beside s c := by
  induction fuel generalizing c t with
  | zero =>
    obtain ⟨red, a, v, b, rfl⟩ := RedBlack.ColorTree.exists_join s ht
    simp at hfuel
  | succ fuel ih =>
    obtain ⟨red, a, v, b, rfl⟩ := RedBlack.ColorTree.exists_join s ht
    rw [addrOf_join, outermost, bind_of (read_of h.node _), child_node]
    by_cases ha : a = .nil
    · subst ha
      refine ⟨c, red, v, b, ?_, h, rfl, rfl⟩
      rw [addrOf_nil, if_neg (not_not.mpr rfl)]
      rfl
    · have h' : Stored tree R m (⟨s, red, v, b⟩ :: c) a := stored_cons.mpr h
      simp only [RedBlack.ColorTree.height_join] at hfuel
      obtain ⟨c', red', w, d, hrun, hw, hplug, hbeside⟩ := ih h' ha (by omega)
      rw [if_pos (addrOf_ne h' ha)]
      exact ⟨c', red', w, d, hrun, hw, hplug, hbeside.trans (RedBlack.beside_cons ..)⟩

/-- Up from a right child, until the node itself lies on the left. -/
theorem climbRight_of {fuel : Nat} {c : List (Branch (Cell κ ι))} {t : ColorTree (Cell κ ι)}
    (h : Stored tree R m c t) (ht : t ≠ .nil) (hfuel : c.length < fuel) :
    climbRight fuel (addrOf tree t) (top tree c) m =
      some (((rightOf c).head?.map Cell.addr).getD tree.root, m) := by
  obtain ⟨red, a, v, b, rfl⟩ := RedBlack.ColorTree.exists_join .left ht
  have hap := h.distinct.apart
  induction c generalizing fuel red a v b with
  | nil =>
    obtain ⟨fuel, rfl⟩ : ∃ k, fuel = k + 1 := ⟨fuel - 1, by simp at hfuel; omega⟩
    obtain ⟨n, hn, -, -, hright, -⟩ := h.hangs
    have hne : v.addr ≠ n.right := by
      rw [hright]
      exact hap.nil
    rw [top_nil, climbRight, bind_of (read_of hn _), addrOf_join, if_neg hne]
    rfl
  | cons d c ih =>
    obtain ⟨fuel, rfl⟩ : ∃ k, fuel = k + 1 := ⟨fuel - 1, by simp at hfuel; omega⟩
    obtain ⟨s, dred, dv, sib⟩ := d
    rw [top_cons, climbRight, bind_of (read_of h.parent _), addrOf_join]
    cases s with
    | left =>
      have hne : v.addr ≠ addrOf tree sib := (hap.sibling _ rfl).symm
      exact congrFun (if_neg hne) m
    | right =>
      have h' : Stored tree R m c (join .left dred sib dv (join .left red a v b)) :=
        stored_cons.mp h
      refine (congrFun (if_pos rfl) m).trans ?_
      rw [bind_of (read_of h.parent _), node_parent]
      simp only [List.length_cons] at hfuel
      exact ih (by omega) dred sib dv _ h' (by simp [join]) h'.distinct.apart

/-- Up from a left child, until the node itself lies on the right. -/
theorem climbLeft_of {fuel : Nat} {c : List (Branch (Cell κ ι))} {t : ColorTree (Cell κ ι)}
    (h : Stored tree R m c t) (ht : t ≠ .nil) (hfuel : c.length < fuel) :
    climbLeft tree fuel (addrOf tree t) (top tree c) m =
      some (((leftOf c).getLast?.map Cell.addr).getD tree.nil, m) := by
  obtain ⟨red, a, v, b, rfl⟩ := RedBlack.ColorTree.exists_join .left ht
  have hap := h.distinct.apart
  induction c generalizing fuel red a v b with
  | nil =>
    obtain ⟨fuel, rfl⟩ : ∃ k, fuel = k + 1 := ⟨fuel - 1, by simp at hfuel; omega⟩
    obtain ⟨n, hn, -, hleft, -⟩ := h.hangs
    rw [addrOf_join] at hleft
    rw [top_nil, climbLeft, bind_of (read_of hn _), addrOf_join, if_pos hleft.symm, if_pos rfl]
    rfl
  | cons d c ih =>
    obtain ⟨fuel, rfl⟩ : ∃ k, fuel = k + 1 := ⟨fuel - 1, by simp at hfuel; omega⟩
    obtain ⟨s, dred, dv, sib⟩ := d
    rw [top_cons, climbLeft, bind_of (read_of h.parent _), addrOf_join]
    cases s with
    | left =>
      have h' : Stored tree R m c (join .left dred (join .left red a v b) dv sib) :=
        stored_cons.mp h
      have hroot : dv.addr ≠ tree.root := h'.distinct.apart.root
      refine (congrFun (if_pos rfl) m).trans ?_
      rw [if_neg hroot, bind_of (read_of h.parent _), node_parent]
      simp only [List.length_cons] at hfuel
      exact ih (by omega) dred _ dv sib h' (by simp [join]) h'.distinct.apart
    | right =>
      have hne : v.addr ≠ addrOf tree sib := (hap.sibling _ rfl).symm
      refine (congrFun (if_neg hne) m).trans ?_
      simp only [leftOf, List.getLast?_append, List.getLast?_singleton]
      rfl

section Neighbours
variable {t : ColorTree (Cell κ ι)} {xs ys : List (Cell κ ι)} {x : Cell κ ι} {fuel : Nat}

theorem treeSuccessor_of (h : Stored tree R m [] t) (ht : t.Whole)
    (hx : t.toList = xs ++ x :: ys) (hfuel : 2 * Nat.log 2 (t.size + 1) < fuel) :
    treeSuccessor tree fuel x.addr m = some ((ys.head?.map Cell.addr).getD tree.nil, m) := by
  obtain ⟨c, red, l, r, rfl, hxs, hys⟩ := RedBlack.exists_place_of hx
  have hheight := ht.height_le
  have hlength := RedBlack.length_add_height_le c (.node red l x r)
  simp only [ColorTree.height] at hlength
  have hc : Stored tree R m c (join .left red l x r) := stored_plug.mp h
  rw [treeSuccessor, bind_of (read_of hc.node _)]
  by_cases hr : r = .nil
  · subst hr
    refine (congrFun (if_neg (not_not.mpr rfl)) m).trans ?_
    rw [bind_of (read_of hc.node _), node_parent]
    have hclimb := climbRight_of hc (by simp [join]) (by omega : c.length < fuel)
    rw [addrOf_join] at hclimb
    rw [bind_of hclimb]
    simp only [ColorTree.toList, List.nil_append] at hys
    subst hys
    cases hrest : rightOf c with
    | nil => exact congrFun (if_pos rfl) m
    | cons w ws =>
      have hw : w.addr ≠ tree.root :=
        (hc.distinct.special.2.2.2 w (mem_plug.mpr (.inr (by simp [around, hrest])))).1
      exact congrFun (if_neg hw) m
  · have hc' : Stored tree R m (⟨.right, red, x, l⟩ :: c) r := stored_cons.mpr hc
    obtain ⟨c', red', v, b, hrun, -, hplug, hbeside⟩ := outermost_of .left hc' hr
      (by omega : r.height ≤ fuel)
    refine (congrFun (if_pos (addrOf_ne hc' hr).symm) m).trans (hrun.trans ?_)
    have hlists := congrArg ColorTree.toList hplug
    simp only [RedBlack.toList_plug, List.append_assoc] at hlists
    have hleft : leftOf c' = leftOf (⟨.right, red, x, l⟩ :: c) := hbeside
    rw [hleft, List.append_cancel_left_eq] at hlists
    have hright : ys = v :: (b.toList ++ rightOf c') := hys.trans hlists.symm
    rw [hright]
    rfl

theorem treePredecessor_of (h : Stored tree R m [] t) (ht : t.Whole)
    (hx : t.toList = xs ++ x :: ys) (hfuel : 2 * Nat.log 2 (t.size + 1) < fuel) :
    treePredecessor tree fuel x.addr m =
      some ((xs.getLast?.map Cell.addr).getD tree.nil, m) := by
  obtain ⟨c, red, l, r, rfl, hxs, hys⟩ := RedBlack.exists_place_of hx
  have hheight := ht.height_le
  have hlength := RedBlack.length_add_height_le c (.node red l x r)
  simp only [ColorTree.height] at hlength
  have hc : Stored tree R m c (join .left red l x r) := stored_plug.mp h
  rw [treePredecessor, bind_of (read_of hc.node _)]
  by_cases hl : l = .nil
  · subst hl
    refine (congrFun (if_neg (not_not.mpr rfl)) m).trans ?_
    rw [bind_of (read_of hc.node _), node_parent]
    have hclimb := climbLeft_of hc (by simp [join]) (by omega : c.length < fuel)
    rw [addrOf_join] at hclimb
    rw [hclimb]
    simp only [ColorTree.toList, List.append_nil] at hxs
    rw [hxs]
  · have hc' : Stored tree R m (⟨.left, red, x, r⟩ :: c) l := stored_cons.mpr hc
    obtain ⟨c', red', v, b, hrun, -, hplug, hbeside⟩ := outermost_of .right hc' hl
      (by omega : l.height ≤ fuel)
    refine (congrFun (if_pos (addrOf_ne hc' hl).symm) m).trans (hrun.trans ?_)
    have hlists := congrArg ColorTree.toList hplug
    have hright : rightOf c' = rightOf (⟨.left, red, x, r⟩ :: c) := hbeside
    rw [RedBlack.toList_plug, RedBlack.toList_plug, hright, List.append_cancel_right_eq] at hlists
    have hleft : xs = leftOf c' ++ (b.toList ++ [v]) := hxs.trans hlists.symm
    rw [hleft, List.getLast?_append, List.getLast?_append, List.getLast?_singleton]
    rfl

end Neighbours

section Query
variable {ν : Type} [LinearOrder ν]

/-- `CompFunc` as it is asked for: 1 for greater, -1 for less, 0 otherwise. -/
def Compares (compare : κ → κ → Int) (value : κ → ν) : Prop :=
  ∀ a b, compare a b = if value b < value a then 1 else if value a < value b then -1 else 0

/-- The entries in the order of their keys. -/
def Sorted (value : κ → ν) (l : List (Cell κ ι)) : Prop :=
  l.Pairwise fun a b => value a.key ≤ value b.key

/-- What `RBExactQuery` answers: no entry has the key, or all those that have it lie in the
subtree of the one that is returned. -/
def Found (value : κ → ν) (q : κ) (t : ColorTree (Cell κ ι)) (a : Nat) : Prop :=
  (a = 0 ∧ ∀ w ∈ t.toList, value w.key ≠ value q) ∨
    ∃ c red l w r, a = w.addr ∧ t = plug c (.node red l w r) ∧ value w.key = value q ∧
      ∀ u ∈ leftOf c ++ rightOf c, value u.key ≠ value q

theorem Sorted.inner {value : κ → ν} {c : List (Branch (Cell κ ι))} {red : Bool}
    {l r : ColorTree (Cell κ ι)} {v : Cell κ ι}
    (h : Sorted value (plug c (.node red l v r)).toList) :
    (∀ u ∈ l.toList, value u.key ≤ value v.key) ∧ ∀ u ∈ r.toList, value v.key ≤ value u.key := by
  rw [Sorted, RedBlack.toList_plug] at h
  obtain ⟨-, hrest, -⟩ := List.pairwise_append.mp (List.pairwise_append.mp h).1
  obtain ⟨-, hvr, hlv⟩ := List.pairwise_append.mp hrest
  exact ⟨fun u hu => hlv u hu v List.mem_cons_self, (List.pairwise_cons.mp hvr).1⟩

theorem queryWalk_of {value : κ → ν} (hcomp : Compares tree.compare value) (q : κ) {fuel : Nat}
    {c : List (Branch (Cell κ ι))} {red : Bool} {l r : ColorTree (Cell κ ι)} {v : Cell κ ι}
    (h : Stored tree R m c (.node red l v r))
    (hsorted : Sorted value (plug c (.node red l v r)).toList)
    (habove : ∀ u ∈ around c, value u.key ≠ value q)
    (hfuel : (ColorTree.node red l v r).height ≤ fuel) :
    ∃ a, queryWalk tree q fuel v.addr (tree.compare v.key q) m = some (a, m) ∧
      Found value q (plug c (.node red l v r)) a := by
  induction fuel generalizing c red l v r with
  | zero => simp [ColorTree.height] at hfuel
  | succ fuel ih =>
    simp only [ColorTree.height] at hfuel
    have hc : Stored tree R m c (join .left red l v r) := h
    obtain ⟨hlv, hvr⟩ := hsorted.inner
    rw [queryWalk, hcomp v.key q]
    -- below `v` on a side there is either nothing or the search goes on
    have hstep : ∀ (s : Side) (near far : ColorTree (Cell κ ι)),
        ColorTree.node red l v r = join s red near v far → near.height ≤ fuel →
        value v.key ≠ value q → (∀ u ∈ far.toList, value u.key ≠ value q) →
        ∃ a, (do
          let x ← read v.addr (·.child s)
          if x = tree.nil then pure 0
          else queryWalk tree q fuel x (tree.compare (← read x (·.key)) q) : Rb κ ι Nat) m =
            some (a, m) ∧ Found value q (plug c (.node red l v r)) a := by
      intro s near far hjoin hnear hv hfar
      have h' : Stored tree R m (⟨s, red, v, far⟩ :: c) near := by
        rw [stored_cons, ← hjoin]
        exact h
      rw [bind_of (read_of h'.parent _), child_node]
      have habove' : ∀ u ∈ around (⟨s, red, v, far⟩ :: c), value u.key ≠ value q := by
        intro u hu
        rcases mem_around_cons.mp hu with rfl | hu | hu
        · exact hv
        · exact hfar u hu
        · exact habove u hu
      rw [hjoin, ← RedBlack.plug_cons ⟨s, red, v, far⟩ c near]
      cases near with
      | nil =>
        refine ⟨0, congrFun (if_pos rfl) m, .inl ⟨rfl, fun w hw => ?_⟩⟩
        rcases mem_plug.mp hw with hw | hw
        · simp [ColorTree.toList] at hw
        · exact habove' w hw
      | node red' l' w r' =>
        have hw : Stored tree R m (⟨s, red, v, far⟩ :: c) (join .left red' l' w r') := h'
        obtain ⟨a, hrun, hfound⟩ := ih h' (by rwa [RedBlack.plug_cons, ← hjoin]) habove' hnear
        refine ⟨a, (congrFun (if_neg (addrOf_ne h' (by simp))) m).trans ?_, hfound⟩
        rw [addrOf, bind_of (read_of hw.node _), node_key]
        exact hrun
    by_cases hgt : value q < value v.key
    · obtain ⟨a, hrun, hfound⟩ := hstep .left l r rfl (by omega) hgt.ne' fun u hu =>
        (hgt.trans_le (hvr u hu)).ne'
      refine ⟨a, ?_, hfound⟩
      rw [if_pos hgt]
      exact hrun
    · by_cases hlt : value v.key < value q
      · obtain ⟨a, hrun, hfound⟩ := hstep .right r l rfl (by omega) hlt.ne fun u hu =>
          ((hlv u hu).trans_lt hlt).ne
        refine ⟨a, ?_, hfound⟩
        rw [if_neg hgt, if_pos hlt]
        exact hrun
      · refine ⟨v.addr, ?_, .inr ⟨c, red, l, v, r, rfl, rfl,
          le_antisymm (not_lt.mp hgt) (not_lt.mp hlt), habove⟩⟩
        rw [if_neg hgt, if_neg hlt]
        rfl

theorem rbExactQuery_of {value : κ → ν} (hcomp : Compares tree.compare value) (q : κ)
    {t : ColorTree (Cell κ ι)} (h : Stored tree R m [] t) (ht : t.Whole)
    (hsorted : Sorted value t.toList) {fuel : Nat} (hfuel : 2 * Nat.log 2 (t.size + 1) < fuel) :
    ∃ a, rbExactQuery tree fuel q m = some (a, m) ∧ Found value q t a := by
  obtain ⟨n, hn, -, hleft, -⟩ := h.hangs
  rw [rbExactQuery, bind_of (read_of hn _), hleft]
  cases t with
  | nil => exact ⟨0, congrFun (if_pos rfl) m, .inl ⟨rfl, by simp [ColorTree.toList]⟩⟩
  | node red l v r =>
    have hheight := ht.height_le
    have hv : Stored tree R m [] (join .left red l v r) := h
    obtain ⟨a, hrun, hfound⟩ := queryWalk_of hcomp q h hsorted (by simp [around, leftOf, rightOf])
      (by omega : _ ≤ fuel)
    refine ⟨a, (congrFun (if_neg (addrOf_ne h (by simp))) m).trans ?_, hfound⟩
    rw [addrOf, bind_of (read_of hv.node _), node_key]
    exact hrun

end Query

end Wtools.Rbt
