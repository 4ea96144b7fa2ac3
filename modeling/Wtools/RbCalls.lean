import Mathlib.Data.List.Sort
import Wtools.RbDelete
import Wtools.RbInsert
import Wtools.RbWalks

/-!
# Calls on a red-black tree

Between two calls memory holds a red-black tree of a list of entries, next to what it held before
the tree was created. The calls are stated in terms of that list.
-/

namespace Wtools.Rbt

open RedBlack (Side ColorTree Branch plug leftOf rightOf descend)
open RedBlack.ColorTree (join)

variable {κ ι : Type} {tree : RbRedBlkTree κ ι} {F : Nat → Option (RbRedBlkNode κ ι)}
  {m : Memory κ ι} {l : List (Cell κ ι)} {fuel : Nat}

/-- Memory holds a red-black tree of the entries `l`, and besides it what `F` says. -/
def Holds (tree : RbRedBlkTree κ ι) (F : Nat → Option (RbRedBlkNode κ ι)) (m : Memory κ ι)
    (l : List (Cell κ ι)) : Prop :=
  ∃ R t, Stored tree R m [] t ∧ t.Whole ∧ t.toList = l ∧ ∀ a, a ≠ tree.nil → R a = F a

theorem holds_create [Inhabited κ] (compFunc : κ → κ → Int) (printFunc : κ → String)
    (printInfo : ι → String) {nil root : Nat} (junk junk' : RbRedBlkNode κ ι)
    (hnil : m.node nil = none) (hroot : m.node root = none) (hne : root ≠ nil) (hnil0 : nil ≠ 0)
    (hroot0 : root ≠ 0) (h0 : m.node 0 = none) :
    ∃ m', rbTreeCreate compFunc printFunc printInfo nil root junk junk' m =
        some (⟨compFunc, printFunc, printInfo, root, nil⟩, m') ∧
      Holds ⟨compFunc, printFunc, printInfo, root, nil⟩ m.node m' [] ∧
      m'.destroyed = m.destroyed := by
  let nn : RbRedBlkNode κ ι := ⟨default, junk.info, false, nil, nil, nil⟩
  let rn : RbRedBlkNode κ ι := ⟨default, junk'.info, false, nil, nil, nil⟩
  have hroot₁ : ∀ n, (m.put nil n).node root = none := fun n => (put_of_ne _ _ hne).trans hroot
  refine ⟨(m.put nil (some nn)).put root (some rn), ?_, ⟨Function.update m.node nil (some nn), .nil,
    ⟨⟨rn, put_self .., rfl, rfl, rfl, rfl⟩, trivial, ?_, ?_, ?_, ?_, ?_⟩, ⟨rfl, 0, rfl⟩, rfl, ?_⟩,
    rfl⟩
  · rw [rbTreeCreate, bind_of (safeMalloc_of hnil hnil0 junk), bind_of (write_of (put_self ..) _),
      put_put, bind_of (write_of (put_self ..) _), put_put,
      bind_of (safeMalloc_of (hroot₁ _) hroot0 junk'), bind_of (write_of (put_self ..) _), put_put,
      bind_of (write_of (put_self ..) _), put_put]
    rfl
  · simp only [Distinct, plug, ColorTree.toList, List.map_nil, List.nodup_cons, List.mem_cons,
      List.not_mem_nil, or_false, not_or, List.nodup_nil, and_true, not_false_eq_true]
    exact ⟨⟨hroot0.symm, hnil0.symm⟩, hne⟩
  · intro a ha _
    exact put_of_ne _ _ ha
  · exact ⟨nn, Function.update_self .., rfl⟩
  · exact (Function.update_of_ne hnil0.symm ..).trans h0
  · simp [plug, ColorTree.toList]
  · exact fun a ha => Function.update_of_ne ha ..

/-- Where besides the tree there is nothing, `SafeMalloc` may put a node. -/
theorem Holds.free (h : Holds tree F m l) {z : Nat} (hnil : z ≠ tree.nil) (hroot : z ≠ tree.root)
    (hz : F z = none) (hl : ∀ w ∈ l, w.addr ≠ z) : m.node z = none := by
  obtain ⟨R, t, hstored, -, rfl, hrest⟩ := h
  rw [hstored.rest z hroot (notMem_addrs.mpr hl), hrest z hnil, hz]

section Calls
variable {ν : Type} [LinearOrder ν] {value : κ → ν}

/-- The entry `z` after all those whose keys are not greater. -/
def enter (value : κ → ν) (z : Cell κ ι) (l : List (Cell κ ι)) : List (Cell κ ι) :=
  l.orderedInsert (fun a b => value a.key < value b.key) z

theorem enter_append {xs ys : List (Cell κ ι)} {z : Cell κ ι}
    (hxs : ∀ w ∈ xs, value w.key ≤ value z.key) (hys : ∀ w ∈ ys, value z.key < value w.key) :
    enter value z (xs ++ ys) = xs ++ z :: ys := by
  induction xs with
  | nil =>
    cases ys with
    | nil => rfl
    | cons y ys => exact if_pos (hys y List.mem_cons_self)
  | cons x xs ih =>
    have hx := hxs x List.mem_cons_self
    refine (if_neg (not_lt.mpr hx)).trans (congrArg (x :: ·) ?_)
    exact ih fun w hw => hxs w (List.mem_cons_of_mem _ hw)

theorem enter_perm (value : κ → ν) (z : Cell κ ι) (l : List (Cell κ ι)) :
    (enter value z l).Perm (z :: l) :=
  List.perm_orderedInsert _ z l

theorem sorted_enter (h : Sorted value l) (z : Cell κ ι) : Sorted value (enter value z l) := by
  induction l with
  | nil => exact List.pairwise_singleton _ _
  | cons w l ih =>
    obtain ⟨hw, hl⟩ := List.pairwise_cons.mp h
    by_cases hz : value z.key < value w.key
    · have hcons : enter value z (w :: l) = z :: w :: l := if_pos hz
      rw [hcons]
      refine List.pairwise_cons.mpr ⟨fun u hu => ?_, h⟩
      rcases List.mem_cons.mp hu with rfl | hu
      · exact hz.le
      · exact hz.le.trans (hw u hu)
    · have hcons : enter value z (w :: l) = w :: enter value z l := if_neg hz
      rw [hcons]
      refine List.pairwise_cons.mpr ⟨fun u hu => ?_, ih hl⟩
      rcases List.mem_cons.mp ((enter_perm value z l).mem_iff.mp hu) with rfl | hu
      · exact not_lt.mp hz
      · exact hw u hu

theorem goesLeft_of (hcomp : Compares tree.compare value) (key : κ) (v : Cell κ ι) :
    goesLeft tree key v = true ↔ value key < value v.key := by
  rw [goesLeft, decide_eq_true_iff, hcomp v.key key]
  by_cases hlt : value key < value v.key
  · simp [hlt]
  · rw [if_neg hlt]
    refine iff_of_false ?_ hlt
    split <;> decide

/-- An insertion, whatever `Compare` says, and where the entry comes to lie if `Compare` compares
values. -/
theorem Holds.insert (value : κ → ν) (h : Holds tree F m l) {z : Cell κ ι}
    (hz : m.node z.addr = none) (hz0 : z.addr ≠ 0) (junk : RbRedBlkNode κ ι)
    (hfuel : 2 * Nat.log 2 (l.length + 1) < fuel) :
    ∃ m' l', rbTreeInsert tree fuel z.addr junk z.key z.info m = some (z.addr, m') ∧
      Holds tree F m' l' ∧ l'.Perm (z :: l) ∧
      (Compares tree.compare value → Sorted value l → l' = enter value z l) ∧
      m'.destroyed = m.destroyed := by
  obtain ⟨R, t, hstored, ht, rfl, hrest⟩ := h
  rw [ColorTree.length_toList] at hfuel
  obtain ⟨m', t', hrun, hstored', ht', hlist, hdes⟩ :=
    rbTreeInsert_of hstored ht hz hz0 junk hfuel
  have hsplit := congrArg ColorTree.toList (RedBlack.plug_descend (goesLeft tree z.key) t [])
  rw [RedBlack.toList_plug, ColorTree.toList, List.append_nil, plug] at hsplit
  refine ⟨m', _, hrun, ⟨R, t', hstored', ht', rfl, hrest⟩, ?_, fun hcomp hsorted => ?_, hdes⟩
  · rw [hlist, ← hsplit]
    exact List.perm_middle
  · have hmono : t.toList.Pairwise fun a b =>
        goesLeft tree z.key a = true → goesLeft tree z.key b = true :=
      hsorted.imp fun hab ha =>
        (goesLeft_of hcomp ..).mpr (((goesLeft_of hcomp ..).mp ha).trans_le hab)
    obtain ⟨hleft, hright⟩ := RedBlack.descend_splits (goesLeft tree z.key) hmono
      (c := []) (by simp [leftOf]) (by simp [rightOf])
    rw [hlist, ← hsplit, enter_append]
    · intro w hw
      have hwz := (goesLeft_of hcomp z.key w).not.mp (by simp [hleft w hw])
      exact not_lt.mp hwz
    · exact fun w hw => (goesLeft_of hcomp z.key w).mp (hright w hw)

theorem Holds.delete (h : Holds tree F m l) {z : Cell κ ι} {xs ys : List (Cell κ ι)}
    (hz : l = xs ++ z :: ys) (hfuel : 2 * Nat.log 2 (l.length + 1) < fuel) :
    ∃ m', rbDelete tree fuel z.addr m = some ((), m') ∧ Holds tree F m' (xs ++ ys) ∧
      m'.destroyed = m.destroyed ++ z.given := by
  obtain ⟨R, t, hstored, ht, rfl, hrest⟩ := h
  rw [ColorTree.length_toList] at hfuel
  obtain ⟨m', R', t', hrun, hstored', ht', hlist, hrest', hdes⟩ := rbDelete_of hstored ht hz hfuel
  exact ⟨m', hrun,
    ⟨R', t', hstored', ht', hlist, fun a ha => (hrest' a ha).trans (hrest a ha)⟩, hdes⟩

/-- The nodes of the entries are different. -/
theorem Holds.nodup (h : Holds tree F m l) : (l.map Cell.addr).Nodup := by
  obtain ⟨R, t, hstored, -, rfl, -⟩ := h
  exact hstored.distinct.inside.1

theorem Holds.query (h : Holds tree F m l) (hcomp : Compares tree.compare value)
    (hsorted : Sorted value l) (q : κ) (hfuel : 2 * Nat.log 2 (l.length + 1) < fuel) :
    ∃ a, rbExactQuery tree fuel q m = some (a, m) ∧
      ((a = 0 ∧ ∀ w ∈ l, value w.key ≠ value q) ∨ ∃ w ∈ l, a = w.addr ∧ value w.key = value q) := by
  obtain ⟨R, t, hstored, ht, rfl, -⟩ := h
  rw [ColorTree.length_toList] at hfuel
  obtain ⟨a, hrun, hfound⟩ := rbExactQuery_of hcomp q hstored ht hsorted hfuel
  refine ⟨a, hrun, hfound.imp id ?_⟩
  rintro ⟨c, red, l, w, r, rfl, rfl, hw, -⟩
  exact ⟨w, mem_plug.mpr (.inl (by simp [ColorTree.toList])), rfl, hw⟩

theorem Holds.neighbours (h : Holds tree F m l) {x : Cell κ ι} {xs ys : List (Cell κ ι)}
    (hx : l = xs ++ x :: ys) (hfuel : 2 * Nat.log 2 (l.length + 1) < fuel) :
    treeSuccessor tree fuel x.addr m = some ((ys.head?.map Cell.addr).getD tree.nil, m) ∧
      treePredecessor tree fuel x.addr m =
        some ((xs.getLast?.map Cell.addr).getD tree.nil, m) := by
  obtain ⟨R, t, hstored, ht, rfl, -⟩ := h
  rw [ColorTree.length_toList] at hfuel
  exact ⟨treeSuccessor_of hstored ht hx hfuel, treePredecessor_of hstored ht hx hfuel⟩

theorem Holds.print (h : Holds tree F m l) (hfuel : 2 * Nat.log 2 (l.length + 1) < fuel) :
    ∃ R t, Stored tree R m [] t ∧ t.toList = l ∧
      rbTreePrint tree fuel m = some (String.join (lines tree "NULL" t), m) ∧
      List.Forall₂ (fun line w => ∃ rest, line =
        "info=" ++ tree.printInfo w.info ++ "  key=" ++ tree.printKey w.key ++ rest)
        (lines tree "NULL" t) l := by
  obtain ⟨R, t, hstored, ht, rfl, -⟩ := h
  rw [ColorTree.length_toList] at hfuel
  exact ⟨R, t, hstored, rfl, rbTreePrint_of hstored ht hfuel, lines_entries tree _ t⟩

/-- What is left is what was there besides the tree. -/
theorem Holds.destroy (h : Holds tree F m l) (hroot : F tree.root = none)
    (hnil : F tree.nil = none) (hfuel : 2 * Nat.log 2 (l.length + 1) < fuel) :
    ∃ m', rbTreeDestroy tree fuel m = some ((), m') ∧ m'.node = F ∧
      m'.destroyed.Perm (m.destroyed ++ l.flatMap Cell.given) := by
  obtain ⟨R, t, hstored, ht, rfl, hrest⟩ := h
  rw [ColorTree.length_toList] at hfuel
  obtain ⟨m', hrun, hroot', hnil', hoff, hdes⟩ := rbTreeDestroy_of hstored ht hfuel
  refine ⟨m', hrun, funext fun a => ?_, ?_⟩
  · by_cases har : a = tree.root
    · rw [har, hroot', hroot]
    · by_cases han : a = tree.nil
      · rw [han, hnil', hnil]
      · rw [hoff a har han, hrest a han]
  · rw [hdes]
    exact (t.postOrder_perm.flatMap_right _).append_left _

end Calls

end Wtools.Rbt
