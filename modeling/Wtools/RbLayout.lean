import Wtools.RbTree

/-!
# Red-black trees in memory

What a tree of entries looks like in memory: every node has the address, key and info of an
entry and points to its children and its parent. `Stored` says so of a tree seen from a place
in it, together with what the rest of the memory holds.
-/

namespace Wtools.Rbt

open RedBlack (Side ColorTree Branch plug leftOf rightOf)
open RedBlack.ColorTree (join)

variable {κ ι β γ : Type}

section Execution
variable {m m' : Memory κ ι} {a : Nat} {n : RbRedBlkNode κ ι}

theorem bind_of {x : Rb κ ι β} {b : β} (h : x m = some (b, m')) (k : β → Rb κ ι γ) :
    (x >>= k) m = k b m' := by
  change (x m).bind _ = _
  rw [h]
  rfl

theorem read_of (h : m.node a = some n) (field : RbRedBlkNode κ ι → β) :
    read a field m = some (field n, m) := by
  rw [read, h, Option.map_some]

theorem write_of (h : m.node a = some n) (f : RbRedBlkNode κ ι → RbRedBlkNode κ ι) :
    write a f m = some ((), m.put a (some (f n))) := by
  rw [write, h, Option.map_some]

theorem destroy_of (d : Destroyed κ ι) :
    destroy d m = some ((), { m with destroyed := m.destroyed ++ [d] }) := rfl

@[simp] theorem put_self (m : Memory κ ι) (a : Nat) (n : Option (RbRedBlkNode κ ι)) :
    (m.put a n).node a = n := by
  unfold Memory.put
  exact Function.update_self ..

theorem put_of_ne {b : Nat} (m : Memory κ ι) (n : Option (RbRedBlkNode κ ι)) (h : b ≠ a) :
    (m.put a n).node b = m.node b := by
  unfold Memory.put
  exact Function.update_of_ne h ..

@[simp] theorem put_destroyed (m : Memory κ ι) (a : Nat) (n : Option (RbRedBlkNode κ ι)) :
    (m.put a n).destroyed = m.destroyed := rfl

/-- The key and the info of a node are given up. -/
theorem destroyEntry_of (h : m.node a = some n)
    (k : Unit → Rb κ ι γ) :
    (read a (·.key) >>= fun key => destroy (.key key) >>= fun _ => read a (·.info) >>= fun info =>
      destroy (.info info) >>= k) m =
      k () { m with destroyed := m.destroyed ++ [.key n.key, .info n.info] } := by
  have h' : ({ m with destroyed := m.destroyed ++ [.key n.key] } : Memory κ ι).node a = some n := h
  rw [bind_of (read_of h _), bind_of (destroy_of _), bind_of (read_of h' _),
    bind_of (destroy_of _), List.append_assoc]
  rfl

end Execution

/-- An entry of the tree. -/
structure Cell (κ ι : Type) where
  addr : Nat
  key : κ
  info : ι
  deriving DecidableEq, Repr

theorem notMem_addrs {l : List (Cell κ ι)} {a : Nat} :
    a ∉ l.map Cell.addr ↔ ∀ w ∈ l, w.addr ≠ a := by
  simp

/-- The node of an entry, by its child on the side `s` and the one on the other side. -/
def Cell.node (v : Cell κ ι) (s : Side) (red : Bool) (near far parent : Nat) :
    RbRedBlkNode κ ι :=
  match s with
  | .left => ⟨v.key, v.info, red, near, far, parent⟩
  | .right => ⟨v.key, v.info, red, far, near, parent⟩

section Nodes
variable (v : Cell κ ι) (s : Side) (red : Bool) (near far parent a : Nat)

theorem node_other : v.node s.other red near far parent = v.node s red far near parent := by
  cases s <;> rfl

@[simp] theorem child_node : (v.node s red near far parent).child s = near := by
  cases s <;> rfl

@[simp] theorem child_other_node : (v.node s red near far parent).child s.other = far := by
  cases s <;> rfl

@[simp] theorem node_red : (v.node s red near far parent).red = red := by
  cases s <;> rfl

@[simp] theorem node_parent : (v.node s red near far parent).parent = parent := by
  cases s <;> rfl

@[simp] theorem node_key : (v.node s red near far parent).key = v.key := by
  cases s <;> rfl

@[simp] theorem node_info : (v.node s red near far parent).info = v.info := by
  cases s <;> rfl

@[simp] theorem setChild_node :
    (v.node s red near far parent).setChild s a = v.node s red a far parent := by
  cases s <;> rfl

@[simp] theorem setChild_other_node :
    (v.node s red near far parent).setChild s.other a = v.node s red near a parent := by
  cases s <;> rfl

theorem setParent_node :
    ({ v.node s red near far parent with parent := a } : RbRedBlkNode κ ι) =
      v.node s red near far a := by
  cases s <;> rfl

theorem setRed_node (c : Bool) :
    ({ v.node s red near far parent with red := c } : RbRedBlkNode κ ι) =
      v.node s c near far parent := by
  cases s <;> rfl

/-- The test for the side of a node below its parent. -/
theorem side_of (h : far ≠ near) :
    (if near = (v.node s red near far parent).left then Side.left else Side.right) = s := by
  cases s with
  | left => exact if_pos rfl
  | right => exact if_neg h.symm

end Nodes

def addrOf (tree : RbRedBlkTree κ ι) : ColorTree (Cell κ ι) → Nat
  | .nil => tree.nil
  | .node _ _ v _ => v.addr

/-- The nodes of a tree whose root has the given parent. -/
def Linked (tree : RbRedBlkTree κ ι) (m : Memory κ ι) : Nat → ColorTree (Cell κ ι) → Prop
  | _, .nil => True
  | parent, .node red l v r =>
    m.node v.addr = some (v.node .left red (addrOf tree l) (addrOf tree r) parent) ∧
      Linked tree m v.addr l ∧ Linked tree m v.addr r

/-- The parent of the root of what is at the place. -/
def top (tree : RbRedBlkTree κ ι) : List (Branch (Cell κ ι)) → Nat
  | [] => tree.root
  | b :: _ => b.val.addr

/-- The nodes above a place, with the sentinel, where the tree at the place has its root at
`a`. -/
def Hangs (tree : RbRedBlkTree κ ι) (m : Memory κ ι) : List (Branch (Cell κ ι)) → Nat → Prop
  | [], a => ∃ n, m.node tree.root = some n ∧ n.red = false ∧ n.left = a ∧ n.right = tree.nil ∧
      n.parent = tree.nil
  | b :: c, a =>
    m.node b.val.addr =
        some (b.val.node b.side b.red a (addrOf tree b.sibling) (top tree c)) ∧
      Linked tree m b.val.addr b.sibling ∧ Hangs tree m c b.val.addr

/-- The entries outside the place. -/
def around (c : List (Branch (Cell κ ι))) : List (Cell κ ι) := leftOf c ++ rightOf c

/-- The nodes and the sentinels are all different, and none is at 0. -/
def Distinct (tree : RbRedBlkTree κ ι) (c : List (Branch (Cell κ ι)))
    (t : ColorTree (Cell κ ι)) : Prop :=
  (0 :: tree.root :: tree.nil :: (plug c t).toList.map Cell.addr).Nodup

/-- The tree `t` is stored at the place `c`. `R` is what memory holds without the nodes of the
tree and `root`, so with `nil`. -/
structure Stored (tree : RbRedBlkTree κ ι) (R : Nat → Option (RbRedBlkNode κ ι))
    (m : Memory κ ι) (c : List (Branch (Cell κ ι))) (t : ColorTree (Cell κ ι)) : Prop where
  hangs : Hangs tree m c (addrOf tree t)
  linked : Linked tree m (top tree c) t
  distinct : Distinct tree c t
  rest : ∀ a, a ≠ tree.root → a ∉ (plug c t).toList.map Cell.addr → m.node a = R a
  nil_black : ∃ n, R tree.nil = some n ∧ n.red = false
  zero : R 0 = none
  own : ∀ w ∈ (plug c t).toList, R w.addr = none

section Places
variable {tree : RbRedBlkTree κ ι} {m m' : Memory κ ι} {c : List (Branch (Cell κ ι))}
  {t a b : ColorTree (Cell κ ι)} {s : Side} {red : Bool} {v : Cell κ ι}
  {R : Nat → Option (RbRedBlkNode κ ι)}

@[simp] theorem addrOf_nil : addrOf tree .nil = tree.nil := rfl

@[simp] theorem addrOf_join : addrOf tree (join s red a v b) = v.addr := by
  cases s <;> rfl

@[simp] theorem top_nil : top tree ([] : List (Branch (Cell κ ι))) = tree.root := rfl

@[simp] theorem top_cons (d : Branch (Cell κ ι)) : top tree (d :: c) = d.val.addr := rfl

theorem linked_join {p : Nat} :
    Linked tree m p (join s red a v b) ↔
      m.node v.addr = some (v.node s red (addrOf tree a) (addrOf tree b) p) ∧
        Linked tree m v.addr a ∧ Linked tree m v.addr b := by
  cases s with
  | left => rfl
  | right => exact and_congr Iff.rfl and_comm

theorem mem_join {w : Cell κ ι} :
    w ∈ (join s red a v b).toList ↔ w = v ∨ w ∈ a.toList ∨ w ∈ b.toList := by
  cases s <;> simp [join, ColorTree.toList] <;> tauto

theorem mem_around_cons {d : Branch (Cell κ ι)} {w : Cell κ ι} :
    w ∈ around (d :: c) ↔ w = d.val ∨ w ∈ d.sibling.toList ∨ w ∈ around c := by
  obtain ⟨s, red, v, sib⟩ := d
  cases s <;> simp [around, leftOf, rightOf] <;> tauto

theorem mem_plug {w : Cell κ ι} : w ∈ (plug c t).toList ↔ w ∈ t.toList ∨ w ∈ around c := by
  simp only [RedBlack.toList_plug, around, List.mem_append]
  tauto

/-- Going up from a place changes nothing. -/
theorem stored_cons {d : Branch (Cell κ ι)} :
    Stored tree R m (d :: c) t ↔ Stored tree R m c (join d.side d.red t d.val d.sibling) := by
  constructor
  · rintro ⟨⟨hnode, hsib, hc⟩, hl, hd, hr, hn, hz, ho⟩
    exact ⟨by rwa [addrOf_join], linked_join.mpr ⟨hnode, hl, hsib⟩, hd, hr, hn, hz, ho⟩
  · rintro ⟨hc, hl, hd, hr, hn, hz, ho⟩
    obtain ⟨hnode, hl, hsib⟩ := linked_join.mp hl
    rw [addrOf_join] at hc
    exact ⟨⟨hnode, hsib, hc⟩, hl, hd, hr, hn, hz, ho⟩

theorem stored_plug : Stored tree R m [] (plug c t) ↔ Stored tree R m c t := by
  induction c generalizing t with
  | nil => rfl
  | cons d c ih => rw [RedBlack.plug_cons, ih, stored_cons]

theorem Linked.congr {p : Nat} (h : Linked tree m p t)
    (he : ∀ w ∈ t.toList, m'.node w.addr = m.node w.addr) : Linked tree m' p t := by
  induction t generalizing p with
  | nil => trivial
  | node red l v r ihl ihr =>
    obtain ⟨hv, hl, hr⟩ := h
    simp only [ColorTree.toList, List.mem_append, List.mem_cons] at he
    exact ⟨(he v (by simp)).trans hv, ihl hl fun w hw => he w (by simp [hw]),
      ihr hr fun w hw => he w (by simp [hw])⟩

theorem Hangs.congr {a : Nat} (h : Hangs tree m c a)
    (hroot : m'.node tree.root = m.node tree.root)
    (he : ∀ w ∈ around c, m'.node w.addr = m.node w.addr) : Hangs tree m' c a := by
  induction c generalizing a with
  | nil =>
    obtain ⟨n, hn, hrest⟩ := h
    exact ⟨n, hroot.trans hn, hrest⟩
  | cons d c ih =>
    obtain ⟨hd, hsib, hc⟩ := h
    refine ⟨(he _ (mem_around_cons.mpr (.inl rfl))).trans hd,
      hsib.congr fun w hw => he w (mem_around_cons.mpr (.inr (.inl hw))),
      ih hc fun w hw => he w (mem_around_cons.mpr (.inr (.inr hw)))⟩

/-- What lies apart from an entry and its subtrees. -/
structure Apart (tree : RbRedBlkTree κ ι) (c : List (Branch (Cell κ ι)))
    (a : ColorTree (Cell κ ι)) (v : Cell κ ι) (b : ColorTree (Cell κ ι)) : Prop where
  root : v.addr ≠ tree.root
  nil : v.addr ≠ tree.nil
  near : ∀ w ∈ a.toList, w.addr ≠ v.addr
  far : ∀ w ∈ b.toList, w.addr ≠ v.addr
  above : ∀ w ∈ around c, w.addr ≠ v.addr
  near_far : ∀ u ∈ a.toList, ∀ w ∈ b.toList, u.addr ≠ w.addr
  near_above : ∀ u ∈ a.toList, ∀ w ∈ around c, u.addr ≠ w.addr
  far_above : ∀ u ∈ b.toList, ∀ w ∈ around c, u.addr ≠ w.addr

theorem Distinct.special (h : Distinct tree c t) :
    tree.root ≠ tree.nil ∧ tree.root ≠ 0 ∧ tree.nil ≠ 0 ∧
      ∀ w ∈ (plug c t).toList, w.addr ≠ tree.root ∧ w.addr ≠ tree.nil ∧ w.addr ≠ 0 := by
  simp only [Distinct, List.nodup_cons, List.mem_cons, List.mem_map, not_or, not_exists,
    not_and] at h
  obtain ⟨⟨h0r, h0n, h0⟩, ⟨hrn, hr⟩, hn, -⟩ := h
  exact ⟨hrn, Ne.symm h0r, Ne.symm h0n, fun w hw => ⟨hr w hw, hn w hw, h0 w hw⟩⟩

theorem Distinct.congr {c' : List (Branch (Cell κ ι))} {t' : ColorTree (Cell κ ι)}
    (h : Distinct tree c t) (he : (plug c' t').toList = (plug c t).toList) :
    Distinct tree c' t' := by
  unfold Distinct
  rw [he]
  exact h

theorem Distinct.sublist {c' : List (Branch (Cell κ ι))} {t' : ColorTree (Cell κ ι)}
    (h : Distinct tree c t) (hs : (plug c' t').toList.Sublist (plug c t).toList) :
    Distinct tree c' t' :=
  List.Nodup.sublist (((hs.map Cell.addr).cons_cons _).cons_cons _ |>.cons_cons _) h

/-- A tree with one entry more. -/
theorem distinct_insert {xs ys : List (Cell κ ι)} (hl : (plug c t).toList = xs ++ v :: ys)
    (h : (0 :: tree.root :: tree.nil :: (xs ++ ys).map Cell.addr).Nodup)
    (hv : v.addr ∉ 0 :: tree.root :: tree.nil :: (xs ++ ys).map Cell.addr) :
    Distinct tree c t := by
  rw [Distinct, hl, List.map_append, List.map_cons]
  rw [List.map_append] at h hv
  have hperm : (0 :: tree.root :: tree.nil :: xs.map Cell.addr ++ v.addr :: ys.map Cell.addr).Perm
      (v.addr :: (0 :: tree.root :: tree.nil :: xs.map Cell.addr ++ ys.map Cell.addr)) :=
    List.perm_middle
  exact hperm.nodup_iff.mpr (List.nodup_cons.mpr ⟨hv, h⟩)

theorem Distinct.inside (h : Distinct tree c t) :
    (t.toList.map Cell.addr).Nodup ∧ ((leftOf c ++ rightOf c).map Cell.addr).Nodup ∧
      ∀ u ∈ t.toList, ∀ w ∈ around c, u.addr ≠ w.addr := by
  have hnodup : ((plug c t).toList.map Cell.addr).Nodup := by
    have := h
    simp only [Distinct, List.nodup_cons] at this
    exact this.2.2.2
  rw [RedBlack.toList_plug] at hnodup
  simp only [List.map_append, List.nodup_append, List.mem_map, List.mem_append] at hnodup
  obtain ⟨⟨hl, ht, hlt⟩, hr, htr⟩ := hnodup
  refine ⟨ht, ?_, fun u hu w hw => ?_⟩
  · simp only [List.map_append, List.nodup_append, List.mem_map]
    exact ⟨hl, hr, fun p hp q hq => htr p (.inl hp) q hq⟩
  · rcases List.mem_append.mp hw with hw | hw
    · exact (hlt _ ⟨w, hw, rfl⟩ _ ⟨u, hu, rfl⟩).symm
    · exact htr _ (.inr ⟨u, hu, rfl⟩) _ ⟨w, hw, rfl⟩

theorem top_cases (tree : RbRedBlkTree κ ι) (c : List (Branch (Cell κ ι))) :
    top tree c = tree.root ∨ ∃ w ∈ around c, w.addr = top tree c := by
  cases c with
  | nil => exact .inl rfl
  | cons d c => exact .inr ⟨d.val, mem_around_cons.mpr (.inl rfl), rfl⟩

theorem ne_top {a : Nat} (hroot : a ≠ tree.root) (ha : ∀ w ∈ around c, w.addr ≠ a) :
    a ≠ top tree c := by
  rcases top_cases tree c with htop | ⟨w, hw, htop⟩
  · rwa [htop]
  · rw [← htop]
    exact (ha w hw).symm

theorem Distinct.ne_top (h : Distinct tree c t) {w : Cell κ ι} (hw : w ∈ t.toList) :
    w.addr ≠ top tree c := by
  rcases top_cases tree c with htop | ⟨u, hu, htop⟩
  · rw [htop]
    exact (h.special.2.2.2 w (mem_plug.mpr (.inl hw))).1
  · rw [← htop]
    exact h.inside.2.2 w hw u hu

theorem Distinct.apart (h : Distinct tree c (join s red a v b)) : Apart tree c a v b := by
  obtain ⟨-, -, -, hspecial⟩ := h.special
  obtain ⟨hroot, hnil, -⟩ := hspecial v (mem_plug.mpr (.inl (mem_join.mpr (.inl rfl))))
  obtain ⟨ht, -, habove⟩ := h.inside
  have hinside : (∀ w ∈ a.toList, w.addr ≠ v.addr) ∧ (∀ w ∈ b.toList, w.addr ≠ v.addr) ∧
      ∀ u ∈ a.toList, ∀ w ∈ b.toList, u.addr ≠ w.addr := by
    cases s <;>
      simp only [join, ColorTree.toList, List.map_append, List.map_cons, List.nodup_append,
        List.nodup_cons, List.mem_cons, List.mem_map] at ht <;> grind
  exact ⟨hroot, hnil, hinside.1, hinside.2.1,
    fun w hw => (habove v (mem_join.mpr (.inl rfl)) w hw).symm, hinside.2.2,
    fun u hu => habove u (mem_join.mpr (.inr (.inl hu))),
    fun u hu => habove u (mem_join.mpr (.inr (.inr hu)))⟩

theorem Stored.node (h : Stored tree R m c (join s red a v b)) :
    m.node v.addr = some (v.node s red (addrOf tree a) (addrOf tree b) (top tree c)) :=
  (linked_join.mp h.linked).1

theorem Stored.nil_node (h : Stored tree R m c t) : m.node tree.nil = R tree.nil := by
  obtain ⟨hrn, -, -, hspecial⟩ := h.distinct.special
  refine h.rest _ hrn.symm fun hmem => ?_
  obtain ⟨w, hw, hnil⟩ := List.mem_map.mp hmem
  exact (hspecial w hw).2.1 hnil

theorem Stored.assertBlack (h : Stored tree R m c t) : assertBlack tree m = some ((), m) := by
  obtain ⟨n, hn, hblack⟩ := h.nil_black
  rw [Rbt.assertBlack, bind_of (read_of (h.nil_node.trans hn) _)]
  simp only [hblack, Bool.false_eq_true, if_false]
  rfl

/-- The root of a stored tree, `nil` if it is empty. -/
theorem Stored.colour (h : Stored tree R m c t) :
    ∃ n, m.node (addrOf tree t) = some n ∧ n.red = t.isRed := by
  cases t with
  | nil =>
    obtain ⟨n, hn, hblack⟩ := h.nil_black
    exact ⟨n, h.nil_node.trans hn, hblack⟩
  | node red l v r => exact ⟨_, h.linked.1, rfl⟩

theorem Stored.parent {d : Branch (Cell κ ι)} (h : Stored tree R m (d :: c) t) :
    m.node d.val.addr =
      some (d.val.node d.side d.red (addrOf tree t) (addrOf tree d.sibling) (top tree c)) :=
  h.hangs.1

/-- The other child of the parent. -/
theorem Stored.sibling {d : Branch (Cell κ ι)} (h : Stored tree R m (d :: c) t) :
    Stored tree R m (⟨d.side.other, d.red, d.val, t⟩ :: c) d.sibling := by
  rw [stored_cons, RedBlack.ColorTree.join_other, ← stored_cons]
  exact h

theorem paint_of (h : Stored tree R m c (join s red a v b)) (colour : Bool) :
    ∃ m', write v.addr ({ · with red := colour }) m = some ((), m') ∧
      Stored tree R m' c (join s colour a v b) ∧ m'.destroyed = m.destroyed := by
  have hap := h.distinct.apart
  obtain ⟨-, hl, hr⟩ := linked_join.mp h.linked
  have hlist : (plug c (join s colour a v b)).toList = (plug c (join s red a v b)).toList := by
    rw [RedBlack.toList_plug, RedBlack.toList_plug]
    cases s <;> rfl
  refine ⟨_, write_of h.node _, ⟨?_, linked_join.mpr ⟨?_, ?_, ?_⟩, h.distinct.congr hlist, ?_,
    h.nil_black, h.zero, hlist ▸ h.own⟩, rfl⟩
  · have hc := h.hangs
    rw [addrOf_join] at hc ⊢
    exact hc.congr (put_of_ne _ _ hap.root.symm) fun w hw => put_of_ne _ _ (hap.above w hw)
  · rw [put_self, setRed_node]
  · exact hl.congr fun w hw => put_of_ne _ _ (hap.near w hw)
  · exact hr.congr fun w hw => put_of_ne _ _ (hap.far w hw)
  · intro q hq hmem
    rw [hlist] at hmem
    rw [put_of_ne _ _ fun he => hmem ?_]
    · exact h.rest q hq hmem
    · rw [he]
      exact List.mem_map_of_mem (mem_plug.mpr (.inl (mem_join.mpr (.inl rfl))))

/-- The colour of the near child. -/
theorem paint_near {r : Side} {e : Bool} {x z : ColorTree (Cell κ ι)} {w : Cell κ ι}
    (h : Stored tree R m c (join s red (join r e x w z) v b)) (colour : Bool) :
    ∃ m', write w.addr ({ · with red := colour }) m = some ((), m') ∧
      Stored tree R m' c (join s red (join r colour x w z) v b) ∧
      m'.destroyed = m.destroyed := by
  have h' : Stored tree R m (⟨s, red, v, b⟩ :: c) (join r e x w z) := stored_cons.mpr h
  obtain ⟨m', hpaint, hm', hdes⟩ := paint_of h' colour
  exact ⟨m', hpaint, stored_cons.mp hm', hdes⟩

/-- The colour of the far child. -/
theorem paint_far {r : Side} {e : Bool} {x z : ColorTree (Cell κ ι)} {w : Cell κ ι}
    (h : Stored tree R m c (join s red a v (join r e x w z))) (colour : Bool) :
    ∃ m', write w.addr ({ · with red := colour }) m = some ((), m') ∧
      Stored tree R m' c (join s red a v (join r colour x w z)) ∧
      m'.destroyed = m.destroyed := by
  rw [← RedBlack.ColorTree.join_other] at h
  obtain ⟨m', hpaint, hm', hdes⟩ := paint_near h colour
  rw [RedBlack.ColorTree.join_other] at hm'
  exact ⟨m', hpaint, hm', hdes⟩

theorem adopt_of {p : Nat} (h : Linked tree m p t) (hnodup : (t.toList.map Cell.addr).Nodup)
    (hnil : ∀ w ∈ t.toList, w.addr ≠ tree.nil) (x : Nat) :
    ∃ m', adopt tree (addrOf tree t) x m = some ((), m') ∧ Linked tree m' x t ∧
      (∀ q, q ∉ t.toList.map Cell.addr → m'.node q = m.node q) ∧ m'.destroyed = m.destroyed := by
  cases t with
  | nil => exact ⟨m, by rw [adopt, addrOf_nil, if_neg (not_not.mpr rfl)]; rfl, trivial,
      fun _ _ => rfl, rfl⟩
  | node red l v r =>
    obtain ⟨hv, hl, hr⟩ := h
    simp only [ColorTree.toList, List.map_append, List.map_cons, List.nodup_append,
      List.nodup_cons, List.mem_cons, List.mem_map] at hnodup
    have hne : addrOf tree (.node red l v r) ≠ tree.nil := hnil v (by simp [ColorTree.toList])
    refine ⟨m.put v.addr (some (v.node .left red (addrOf tree l) (addrOf tree r) x)), ?_,
      ⟨put_self .., ?_, ?_⟩, ?_, rfl⟩
    · rw [adopt, if_pos hne]
      exact write_of hv _
    · exact hl.congr fun w hw => put_of_ne _ _ (hnodup.2.2 _ ⟨w, hw, rfl⟩ _ (.inl rfl))
    · exact hr.congr fun w hw => put_of_ne _ _ fun he => hnodup.2.1.1 ⟨w, hw, he⟩
    · intro q hq
      refine put_of_ne _ _ fun he => hq ?_
      rw [he]
      exact List.mem_map_of_mem (by simp [ColorTree.toList])

/-- The side of the place below its parent. -/
def sideOf : List (Branch (Cell κ ι)) → Side
  | [] => .left
  | d :: _ => d.side

/-- The child at the place is exchanged. -/
theorem hang_of (hd : Distinct tree c t) {x : Nat} (h : Hangs tree m c x) (y : Nat) :
    ∃ m', write (top tree c) (·.setChild (sideOf c) y) m = some ((), m') ∧ Hangs tree m' c y ∧
      (∀ q, q ≠ top tree c → m'.node q = m.node q) ∧ m'.destroyed = m.destroyed := by
  cases c with
  | nil =>
    obtain ⟨n, hn, hred, -, hright, hparent⟩ := h
    exact ⟨_, write_of hn _, ⟨{ n with left := y }, put_self .., hred, rfl, hright, hparent⟩,
      fun q hq => put_of_ne _ _ hq, rfl⟩
  | cons d c =>
    obtain ⟨hn, hsib, hc⟩ := h
    have hd' : Distinct tree c (join d.side d.red t d.val d.sibling) := hd
    have hap := hd'.apart
    refine ⟨_, write_of hn _, ⟨?_, hsib.congr fun w hw => put_of_ne _ _ (hap.far w hw),
      hc.congr (put_of_ne _ _ hap.root.symm) fun w hw => put_of_ne _ _ (hap.above w hw)⟩,
      fun q hq => put_of_ne _ _ hq, rfl⟩
    simp only [sideOf]
    rw [put_self, setChild_node]

theorem replaceChild_eq {x : Nat} (h : Hangs tree m c x)
    (hside : ∀ d ∈ c.head?, addrOf tree d.sibling ≠ x) (y : Nat) :
    replaceChild (top tree c) x y m = write (top tree c) (·.setChild (sideOf c) y) m := by
  cases c with
  | nil =>
    obtain ⟨n, hn, -, hleft, -⟩ := h
    rw [top_nil, replaceChild, bind_of (read_of hn _), if_pos hleft.symm]
    rfl
  | cons d c =>
    obtain ⟨s, red, v, sib⟩ := d
    obtain ⟨hn, -, -⟩ := h
    rw [top_cons, replaceChild, bind_of (read_of hn _)]
    cases s with
    | left => exact congrFun (if_pos rfl) m
    | right => exact congrFun (if_neg (hside _ rfl).symm) m

theorem addrOf_cases (tree : RbRedBlkTree κ ι) (t : ColorTree (Cell κ ι)) :
    addrOf tree t = tree.nil ∨ ∃ w ∈ t.toList, w.addr = addrOf tree t := by
  cases t with
  | nil => exact .inl rfl
  | node red l v r => exact .inr ⟨v, by simp [ColorTree.toList], rfl⟩

theorem Apart.sibling (h : Apart tree c a v b) :
    ∀ d ∈ c.head?, addrOf tree d.sibling ≠ v.addr := by
  intro d hd
  obtain ⟨c, rfl⟩ := List.head?_eq_some_iff.mp hd
  rcases addrOf_cases tree d.sibling with hs | ⟨w, hw, hs⟩
  · rw [hs]
    exact h.nil.symm
  · rw [← hs]
    exact h.above w (mem_around_cons.mpr (.inr (.inl hw)))

theorem Stored.sibling_ne {d : Branch (Cell κ ι)}
    (h : Stored tree R m (d :: c) (join s red a v b)) :
    addrOf tree d.sibling ≠ v.addr :=
  h.distinct.apart.sibling d rfl

/-- The two children of a node differ if one of them is there. -/
theorem Stored.ne_sibling {d : Branch (Cell κ ι)} (h : Stored tree R m (d :: c) t)
    (hd : d.sibling ≠ .nil) : addrOf tree d.sibling ≠ addrOf tree t := by
  obtain ⟨s, red, p, sib⟩ := d
  obtain ⟨wred, a, w, b, rfl⟩ := RedBlack.ColorTree.exists_join .left hd
  have hw : Stored tree R m (⟨s.other, red, p, t⟩ :: c) (join .left wred a w b) := h.sibling
  rw [addrOf_join]
  exact hw.sibling_ne.symm

theorem Stored.exists_node (h : Stored tree R m c t) {w : Cell κ ι} (hw : w ∈ (plug c t).toList) :
    ∃ n, m.node w.addr = some n := by
  obtain ⟨c', red, l, r, hplace⟩ := RedBlack.exists_place hw
  have h' := stored_plug.mpr h
  rw [hplace, stored_plug] at h'
  exact ⟨_, h'.linked.1⟩

theorem Hangs.exists_root {x : Nat} (h : Hangs tree m c x) :
    ∃ n, m.node tree.root = some n ∧ n.red = false := by
  induction c generalizing x with
  | nil =>
    obtain ⟨n, hn, hred, -⟩ := h
    exact ⟨n, hn, hred⟩
  | cons d c ih => exact ih h.2.2

/-- Where memory holds nothing there is nothing of the tree. -/
theorem Stored.fresh (h : Stored tree R m c t) {z : Nat} (hz : m.node z = none) :
    z ≠ tree.root ∧ z ≠ tree.nil ∧ z ∉ (plug c t).toList.map Cell.addr := by
  refine ⟨?_, ?_, fun hmem => ?_⟩
  · rintro rfl
    obtain ⟨n, hn, -⟩ := h.hangs.exists_root
    rw [hz] at hn
    cases hn
  · rintro rfl
    obtain ⟨n, hn, -⟩ := h.nil_black
    rw [← h.nil_node, hz] at hn
    cases hn
  · obtain ⟨w, hw, rfl⟩ := List.mem_map.mp hmem
    obtain ⟨n, hn⟩ := h.exists_node hw
    rw [hz] at hn
    cases hn

theorem Distinct.below (h : Distinct tree c (join s red a v t)) :
    Distinct tree (⟨s.other, red, v, a⟩ :: c) t := by
  have h' := h
  rwa [← RedBlack.ColorTree.join_other] at h'

end Places

section Rotation
variable {tree : RbRedBlkTree κ ι} {m : Memory κ ι} {c : List (Branch (Cell κ ι))}
  {a b d : ColorTree (Cell κ ι)} {s : Side} {r₁ r₂ : Bool} {x y : Cell κ ι}
  {R : Nat → Option (RbRedBlkNode κ ι)}

/-- The near child of `y` becomes the far child of `x`. -/
theorem handOver_of (h : Stored tree R m c (join s r₁ a x (join s r₂ b y d))) :
    ∃ m', (∀ k : Rb κ ι Unit, (write x.addr (·.setChild s.other (addrOf tree b)) >>= fun _ =>
        adopt tree (addrOf tree b) x.addr >>= fun _ => k) m = k m') ∧
      m'.node x.addr = some (x.node s r₁ (addrOf tree a) (addrOf tree b) (top tree c)) ∧
      Linked tree m' x.addr b ∧
      (∀ q, q ≠ x.addr → (∀ w ∈ b.toList, w.addr ≠ q) → m'.node q = m.node q) ∧
      m'.destroyed = m.destroyed := by
  have hx := h.node
  obtain ⟨-, -, hy⟩ := linked_join.mp h.linked
  obtain ⟨-, hb, -⟩ := linked_join.mp hy
  have hplace : Distinct tree (⟨s, r₂, y, d⟩ :: ⟨s.other, r₁, x, a⟩ :: c) b := h.distinct.below
  have hbx : ∀ w ∈ b.toList, w.addr ≠ x.addr := fun w hw =>
    h.distinct.apart.far w (mem_join.mpr (.inr (.inl hw)))
  have hb₁ : Linked tree
      (m.put x.addr (some (x.node s r₁ (addrOf tree a) (addrOf tree b) (top tree c)))) y.addr b :=
    hb.congr fun w hw => put_of_ne _ _ (hbx w hw)
  obtain ⟨m', hadopt, hb', hoff, hdes⟩ := adopt_of hb₁ hplace.inside.1
    (fun w hw => (hplace.special.2.2.2 w (mem_plug.mpr (.inl hw))).2.1) x.addr
  refine ⟨m', fun k => ?_, ?_, hb',
    fun q hqx hqb => (hoff q (notMem_addrs.mpr hqb)).trans (put_of_ne _ _ hqx), hdes⟩
  · rw [bind_of (write_of hx _), setChild_other_node, bind_of hadopt]
  · rw [hoff _ (notMem_addrs.mpr hbx), put_self]

/-- `y` replaces `x` below its parent, and `x` comes to be the near child of `y`. -/
theorem rise_of {near far inner outer p : Nat}
    (hd : Distinct tree c (join s r₁ a x (join s r₂ b y d)))
    (hx : m.node x.addr = some (x.node s r₁ near far (top tree c)))
    (hy : m.node y.addr = some (y.node s r₂ inner outer p)) (hc : Hangs tree m c x.addr) :
    ∃ m', (∀ k : Rb κ ι Unit, (write y.addr ({ · with parent := top tree c }) >>= fun _ =>
        replaceChild (top tree c) x.addr y.addr >>= fun _ =>
        write y.addr (·.setChild s x.addr) >>= fun _ =>
        write x.addr ({ · with parent := y.addr }) >>= fun _ => k) m = k m') ∧
      m'.node x.addr = some (x.node s r₁ near far y.addr) ∧
      m'.node y.addr = some (y.node s r₂ x.addr outer (top tree c)) ∧ Hangs tree m' c y.addr ∧
      (∀ q, q ≠ x.addr → q ≠ y.addr → q ≠ top tree c → m'.node q = m.node q) ∧
      m'.destroyed = m.destroyed := by
  have hapx := hd.apart
  have hapy := hd.below.apart
  have hyx : y.addr ≠ x.addr := hapx.far y (mem_join.mpr (.inl rfl))
  have hxtop : x.addr ≠ top tree c := hd.ne_top (mem_join.mpr (.inl rfl))
  have hytop : y.addr ≠ top tree c :=
    hd.ne_top (mem_join.mpr (.inr (.inr (mem_join.mpr (.inl rfl)))))
  have hyabove : ∀ w ∈ around c, w.addr ≠ y.addr := fun w hw =>
    hapy.above w (mem_around_cons.mpr (.inr (.inr hw)))
  let m₁ := m.put y.addr (some (y.node s r₂ inner outer (top tree c)))
  have hc₁ : Hangs tree m₁ c x.addr :=
    hc.congr (put_of_ne _ _ hapy.root.symm) fun w hw => put_of_ne _ _ (hyabove w hw)
  obtain ⟨m₂, hreplace, hc₂, hoff₂, hdes₂⟩ := hang_of hd hc₁ y.addr
  rw [← replaceChild_eq hc₁ hapx.sibling] at hreplace
  have hy₂ : m₂.node y.addr = some (y.node s r₂ inner outer (top tree c)) := by
    rw [hoff₂ _ hytop, put_self]
  let m₃ := m₂.put y.addr (some (y.node s r₂ x.addr outer (top tree c)))
  have hx₃ : m₃.node x.addr = some (x.node s r₁ near far (top tree c)) := by
    rw [put_of_ne _ _ hyx.symm, hoff₂ _ hxtop, put_of_ne _ _ hyx.symm, hx]
  refine ⟨m₃.put x.addr (some (x.node s r₁ near far y.addr)), fun k => ?_, put_self .., ?_, ?_,
    fun q hqx hqy hqt => ?_, hdes₂⟩
  · rw [bind_of (write_of hy _), setParent_node, bind_of hreplace, bind_of (write_of hy₂ _),
      setChild_node, bind_of (write_of hx₃ _), setParent_node]
  · rw [put_of_ne _ _ hyx, put_self]
  · refine hc₂.congr ?_ fun w hw => ?_
    · rw [put_of_ne _ _ hapx.root.symm, put_of_ne _ _ hapy.root.symm]
    · rw [put_of_ne _ _ (hapx.above w hw), put_of_ne _ _ (hyabove w hw)]
  · rw [put_of_ne _ _ hqx, put_of_ne _ _ hqy, hoff₂ q hqt, put_of_ne _ _ hqy]

/-- A rotation lifts the far child `y` of `x` above it. -/
theorem rotate_of (h : Stored tree R m c (join s r₁ a x (join s r₂ b y d))) :
    ∃ m', rotate s tree x.addr m = some ((), m') ∧
      Stored tree R m' c (join s r₂ (join s r₁ a x b) y d) ∧ m'.destroyed = m.destroyed := by
  have hx := h.node
  obtain ⟨-, hla, hly⟩ := linked_join.mp h.linked
  obtain ⟨hy, -, hld⟩ := linked_join.mp hly
  rw [addrOf_join] at hx
  have hapx := h.distinct.apart
  have hapy := h.distinct.below.apart
  obtain ⟨m₁, hrun₁, hx₁, hlb, hoff₁, hdes₁⟩ := handOver_of h
  have hy₁ : m₁.node y.addr = some (y.node s r₂ (addrOf tree b) (addrOf tree d) x.addr) :=
    (hoff₁ _ (hapx.far y (mem_join.mpr (.inl rfl))) hapy.near).trans hy
  have hc₁ : Hangs tree m₁ c x.addr := by
    have hhangs := h.hangs
    rw [addrOf_join] at hhangs
    refine hhangs.congr (hoff₁ _ hapx.root.symm fun w hw => ?_) fun w hw =>
      hoff₁ _ (hapx.above w hw) fun u hu =>
        hapy.near_above u hu w (mem_around_cons.mpr (.inr (.inr hw)))
    exact (h.distinct.special.2.2.2 w (mem_plug.mpr (.inl (mem_join.mpr (.inr (.inr
      (mem_join.mpr (.inr (.inl hw))))))))).1
  obtain ⟨m₂, hrun₂, hx₂, hy₂, hc₂, hoff₂, hdes₂⟩ := rise_of h.distinct hx₁ hy₁ hc₁
  have hoff : ∀ q, q ≠ x.addr → q ≠ y.addr → q ≠ top tree c → (∀ w ∈ b.toList, w.addr ≠ q) →
      m₂.node q = m.node q := fun q hqx hqy hqt hqb => (hoff₂ q hqx hqy hqt).trans (hoff₁ q hqx hqb)
  have hlist : (plug c (join s r₂ (join s r₁ a x b) y d)).toList =
      (plug c (join s r₁ a x (join s r₂ b y d))).toList := by
    rw [RedBlack.toList_plug, RedBlack.toList_plug]
    cases s <;> simp [join, ColorTree.toList]
  have hstored : Stored tree R m₂ c (join s r₂ (join s r₁ a x b) y d) := by
    refine ⟨by rwa [addrOf_join], linked_join.mpr ⟨by rwa [addrOf_join], linked_join.mpr
      ⟨hx₂, ?_, ?_⟩, ?_⟩, h.distinct.congr hlist, ?_, h.nil_black, h.zero, hlist ▸ h.own⟩
    · refine hla.congr fun w hw => ?_
      have haround : w ∈ around (⟨s.other, r₁, x, a⟩ :: c) := mem_around_cons.mpr (.inr (.inl hw))
      exact hoff _ (hapx.near w hw) (hapy.above w haround)
        (h.distinct.ne_top (mem_join.mpr (.inr (.inl hw)))) fun u hu =>
          hapy.near_above u hu w haround
    · exact hlb.congr fun w hw => hoff₂ _ (hapx.far w (mem_join.mpr (.inr (.inl hw))))
        (hapy.near w hw)
        (h.distinct.ne_top (mem_join.mpr (.inr (.inr (mem_join.mpr (.inr (.inl hw)))))))
    · refine hld.congr fun w hw => ?_
      exact hoff _ (hapx.far w (mem_join.mpr (.inr (.inr hw)))) (hapy.far w hw)
        (h.distinct.ne_top (mem_join.mpr (.inr (.inr (mem_join.mpr (.inr (.inr hw)))))))
        fun u hu => hapy.near_far u hu w hw
    · intro q hq hmem
      rw [hlist] at hmem
      have hout := notMem_addrs.mp hmem
      have hne : ∀ w ∈ (join s r₁ a x (join s r₂ b y d)).toList, w.addr ≠ q := fun w hw =>
        hout w (mem_plug.mpr (.inl hw))
      rw [hoff q (hne x (mem_join.mpr (.inl rfl))).symm
        (hne y (mem_join.mpr (.inr (.inr (mem_join.mpr (.inl rfl)))))).symm
        (ne_top hq fun w hw => hout w (mem_plug.mpr (.inr hw)))
        fun w hw => hne w (mem_join.mpr (.inr (.inr (mem_join.mpr (.inr (.inl hw))))))]
      exact h.rest q hq hmem
  refine ⟨m₂, ?_, hstored, hdes₂.trans hdes₁⟩
  rw [rotate, bind_of (read_of hx _), child_other_node, bind_of (read_of hy _), child_node, hrun₁,
    bind_of (read_of hx₁ _), node_parent, hrun₂]
  exact hstored.assertBlack

end Rotation

end Wtools.Rbt
