import Wtools.RbLayout

/-!
# Insertion into the red-black tree

The loop of `RBTreeInsert` on a stored tree whose only fault is a red node below a red one.
-/

namespace Wtools.Rbt

open RedBlack (Side ColorTree Branch plug leftOf rightOf blocksRed Room descend)
open RedBlack.ColorTree (join)

variable {κ ι : Type} {tree : RbRedBlkTree κ ι} {R : Nat → Option (RbRedBlkNode κ ι)}
  {m : Memory κ ι}

section Steps
variable {c : List (Branch (Cell κ ι))} {d : Branch (Cell κ ι)} {s : Side} {red : Bool}
  {a b : ColorTree (Cell κ ι)} {v : Cell κ ι} {n : Nat}

/-- Three trees below two red nodes on the side `s` of each other. -/
theorem straighten_of (h : Stored tree R m (d :: c) (join s true a v b)) (hred : d.red = true)
    (ha : (join s true a v b).Balanced n) (hd : d.sibling.Balanced n)
    (hblack : d.sibling.isRed = false) :
    ∃ m' y z x₁ x₂ x₃, straighten tree s d.val.addr v.addr m = some (y.addr, m') ∧
      Stored tree R m' c (join s true (join s true x₁ y x₂) z x₃) ∧
      (join s true x₁ y x₂).Balanced n ∧ x₃.Balanced n ∧ x₃.isRed = false ∧
      (plug c (join s true (join s true x₁ y x₂) z x₃)).toList =
        (plug (d :: c) (join s true a v b)).toList ∧ m'.destroyed = m.destroyed := by
  obtain ⟨r, red, w, sib⟩ := d
  obtain rfl : red = true := hred
  rw [straighten, bind_of (read_of h.parent _), addrOf_join]
  rcases s.eq_or_other r with rfl | rfl
  · rw [child_other_node, if_neg h.sibling_ne.symm]
    exact ⟨m, v, w, a, b, sib, rfl, stored_cons.mp h, ha, hd, hblack, rfl, rfl⟩
  · have h' := stored_cons.mp h
    rw [RedBlack.ColorTree.join_other] at h'
    obtain ⟨m', hrotate, hm', hdes⟩ := rotate_of h'
    obtain ⟨haa, hab, har, hbr⟩ := (RedBlack.ColorTree.balanced_red s a v b n).mp ha
    rw [child_node, if_pos rfl]
    refine ⟨m', w, v, sib, a, b, ?_, hm', ?_, hab, hbr, ?_, hdes⟩
    · change (rotate s tree w.addr >>= fun _ => pure w.addr) m = _
      rw [bind_of hrotate]
      rfl
    · exact (RedBlack.ColorTree.balanced_red s sib w a n).mpr ⟨hd, haa, hblack, har⟩
    · rw [RedBlack.toList_plug, RedBlack.toList_plug]
      cases s <;> simp [leftOf, rightOf, join, ColorTree.toList, Side.other]

/-- The writes of the case where the uncle is red. -/
theorem recolour_of {r q : Side} {x z y o : ColorTree (Cell κ ι)} {p u : Cell κ ι}
    (h : Stored tree R m c (join s false (join r true x p z) v (join q true y u o))) :
    ∃ m₁ m₂ m₃, write p.addr ({ · with red := false }) m = some ((), m₁) ∧
      write u.addr ({ · with red := false }) m₁ = some ((), m₂) ∧
      write v.addr ({ · with red := true }) m₂ = some ((), m₃) ∧
      Stored tree R m₃ c (join s true (join r false x p z) v (join q false y u o)) ∧
      m₃.destroyed = m.destroyed := by
  obtain ⟨m₁, hp, h₁, hdes₁⟩ := paint_near h false
  obtain ⟨m₂, hu, h₂, hdes₂⟩ := paint_far h₁ false
  obtain ⟨m₃, hg, h₃, hdes₃⟩ := paint_of h₂ true
  exact ⟨m₁, m₂, m₃, hp, hu, hg, h₃, hdes₃.trans (hdes₂.trans hdes₁)⟩

/-- The end of the case where the uncle is black. -/
theorem lift_of {x z u : ColorTree (Cell κ ι)} {p : Cell κ ι}
    (h : Stored tree R m c (join s false (join s true x p z) v u)) :
    ∃ m₁ m₂ m₃ n, write p.addr ({ · with red := false }) m = some ((), m₁) ∧
      m₁.node p.addr = some n ∧ n.parent = v.addr ∧
      write v.addr ({ · with red := true }) m₁ = some ((), m₂) ∧
      rotate s.other tree v.addr m₂ = some ((), m₃) ∧
      Stored tree R m₃ c (join s false x p (join s true z v u)) ∧
      m₃.destroyed = m.destroyed := by
  obtain ⟨m₁, hp, h₁, hdes₁⟩ := paint_near h false
  obtain ⟨m₂, hg, h₂, hdes₂⟩ := paint_of h₁ true
  have hnode := (linked_join.mp (linked_join.mp h₁.linked).2.1).1
  rw [← RedBlack.ColorTree.join_other, ← RedBlack.ColorTree.join_other s false] at h₂
  obtain ⟨m₃, hrotate, h₃, hdes₃⟩ := rotate_of h₂
  rw [RedBlack.ColorTree.join_other, RedBlack.ColorTree.join_other] at h₃
  exact ⟨m₁, m₂, m₃, _, hp, hnode, node_parent .., hg, hrotate, h₃,
    hdes₃.trans (hdes₂.trans hdes₁)⟩

end Steps

/-- The loop removes the one red node below a red one, and leaves the order as it is. -/
theorem insertFixUp_of {fuel : Nat} {c : List (Branch (Cell κ ι))} {s : Side}
    {a b : ColorTree (Cell κ ι)} {v : Cell κ ι} {n : Nat}
    (h : Stored tree R m c (join s true a v b)) (hbal : (join s true a v b).Balanced n)
    (hroom : Room c n) (hfuel : c.length < fuel) :
    ∃ m' t k, insertFixUp tree fuel v.addr m = some ((), m') ∧ Stored tree R m' [] t ∧
      t.Balanced k ∧ t.toList = (plug c (join s true a v b)).toList ∧
      m'.destroyed = m.destroyed := by
  induction fuel generalizing m c s a b v n with
  | zero => omega
  | succ fuel ih =>
    rw [insertFixUp, bind_of (read_of h.node _), node_parent]
    cases c with
    | nil =>
      obtain ⟨root, hnode, hblack, -⟩ := h.hangs
      rw [top_nil, bind_of (read_of hnode _), hblack]
      exact ⟨m, _, n, rfl, h, hbal, rfl, rfl⟩
    | cons d c =>
      rw [top_cons, bind_of (read_of h.parent _), node_red]
      cases hred : d.red with
      | false =>
        obtain ⟨-, k, hk⟩ := (RedBlack.whole_plug (d :: c) (join s true a v b)).mpr
          ⟨n, hroom, hbal, fun _ => hred⟩
        exact ⟨m, _, k, rfl, stored_plug.mpr h, hk, rfl, rfl⟩
      | true =>
        obtain ⟨hsib, hred', hroom'⟩ := hroom
        obtain ⟨hsblack, hblocks⟩ := hred' hred
        rw [if_pos rfl, bind_of (read_of h.parent _), node_parent]
        cases c with
        | nil => exact absurd hblocks (by simp [blocksRed])
        | cons g c =>
          obtain ⟨gs, gred, gv, u⟩ := g
          obtain rfl : gred = false := hblocks
          obtain ⟨ds, dred, dv, sib⟩ := d
          obtain rfl : dred = true := hred
          obtain ⟨hu, hroomc⟩ := (RedBlack.room_black gs gv u c n).mp hroom'
          have hp : Stored tree R m (⟨gs, false, gv, u⟩ :: c)
              (join ds true (join s true a v b) dv sib) := stored_cons.mp h
          have hg : Stored tree R m c
              (join gs false (join ds true (join s true a v b) dv sib) gv u) := stored_cons.mp hp
          simp only [List.length_cons] at hfuel
          rw [top_cons, bind_of (read_of hp.parent _), addrOf_join,
            side_of gv gs false dv.addr (addrOf tree u) (top tree c) hp.sibling_ne,
            bind_of (read_of hp.parent _), child_other_node]
          obtain ⟨un, hun, hucolour⟩ := hp.sibling.colour
          rw [bind_of (read_of hun _), hucolour]
          cases hured : u.isRed with
          | true =>
            have hune : u ≠ .nil := by
              rintro rfl
              simp [ColorTree.isRed] at hured
            obtain ⟨ured, y, uv, o, rfl⟩ := RedBlack.ColorTree.exists_join .left hune
            rw [RedBlack.ColorTree.isRed_join] at hured
            subst hured
            obtain ⟨m₁, m₂, m₃, hw₁, hw₂, hw₃, h₃, hdes⟩ := recolour_of hg
            obtain ⟨hy, ho, hyr, hor⟩ := (RedBlack.ColorTree.balanced_red .left y uv o n).mp hu
            obtain ⟨m', t, k, hloop, ht, hk, hlist, hdes'⟩ := ih h₃
              ((RedBlack.ColorTree.balanced_red ..).mpr
                ⟨(RedBlack.ColorTree.balanced_black_succ ..).mpr ⟨hbal, hsib⟩,
                  (RedBlack.ColorTree.balanced_black_succ ..).mpr ⟨hy, ho⟩, by simp, by simp⟩)
              hroomc (by omega)
            refine ⟨m', t, k, ?_, ht, hk, ?_, hdes'.trans hdes⟩
            · rw [if_pos rfl, addrOf_join, bind_of hw₁, bind_of hw₂, bind_of hw₃]
              exact hloop
            · rw [hlist]
              simp only [RedBlack.plug_cons, RedBlack.toList_plug]
              cases gs <;> cases ds <;> simp [join, ColorTree.toList]
          | false =>
            obtain ⟨a', b', hfrom⟩ := RedBlack.ColorTree.join_from s gs true a v b
            rw [hfrom] at h hbal ⊢
            obtain ⟨m₁, y, z, x₁, x₂, x₃, hstraight, h₁, hxy, hx₃, hx₃r, hlist₁, hdes₁⟩ :=
              straighten_of h rfl hbal hsib hsblack
            have hy : Stored tree R m₁ (⟨gs, true, z, x₃⟩ :: ⟨gs, false, gv, u⟩ :: c)
                (join gs true x₁ y x₂) := stored_cons.mpr h₁
            obtain ⟨m₂, m₃, m₄, zn, hw₂, hzn, hznp, hw₃, hrotate, h₄, hdes₄⟩ :=
              lift_of (stored_cons.mp h₁)
            have hy₄ : Stored tree R m₄ (⟨gs, false, z, join gs true x₃ gv u⟩ :: c)
                (join gs true x₁ y x₂) := stored_cons.mpr h₄
            obtain ⟨m', t, k, hloop, ht, hk, hlist, hdes'⟩ := ih hy₄ hxy
              ((RedBlack.room_black ..).mpr
                ⟨(RedBlack.ColorTree.balanced_red ..).mpr ⟨hx₃, hu, hx₃r, hured⟩, hroomc⟩)
              (by simp only [List.length_cons]; omega)
            refine ⟨m', t, k, ?_, ht, hk, ?_, hdes'.trans (hdes₄.trans hdes₁)⟩
            · simp only [Bool.false_eq_true, if_false]
              rw [bind_of hstraight, bind_of (read_of hy.node _), node_parent, top_cons,
                bind_of hw₂, bind_of (read_of hzn _), hznp, bind_of hw₃, bind_of hrotate]
              exact hloop
            · rw [hlist, ← hlist₁]
              simp only [RedBlack.plug_cons, RedBlack.toList_plug]
              cases gs <;> simp [join, ColorTree.toList]

/-- Going left where the key is greater than the new one. -/
def goesLeft (tree : RbRedBlkTree κ ι) (key : κ) (v : Cell κ ι) : Bool :=
  decide (tree.compare v.key key = 1)

theorem insertWalk_of {fuel z : Nat} {zn : RbRedBlkNode κ ι} (hz : m.node z = some zn) {key : κ}
    (hkey : zn.key = key) {c : List (Branch (Cell κ ι))} {t : ColorTree (Cell κ ι)}
    (h : Linked tree m (top tree c) t) (hnil : ∀ w ∈ t.toList, w.addr ≠ tree.nil) (hfuel : t.height < fuel) :
    insertWalk tree z fuel (top tree c) (addrOf tree t) m =
      some (top tree (descend (goesLeft tree key) t c), m) := by
  induction t generalizing fuel c with
  | nil =>
    obtain ⟨fuel, rfl⟩ : ∃ k, fuel = k + 1 := ⟨fuel - 1, by omega⟩
    rw [insertWalk, addrOf_nil, if_pos rfl]
    rfl
  | node red l v r ihl ihr =>
    obtain ⟨fuel, rfl⟩ : ∃ k, fuel = k + 1 := ⟨fuel - 1, by omega⟩
    obtain ⟨hv, hl, hr⟩ := h
    simp only [ColorTree.toList, List.mem_append, List.mem_cons] at hnil
    simp only [ColorTree.height] at hfuel
    have hvnil : v.addr ≠ tree.nil := hnil v (.inr (.inl rfl))
    rw [insertWalk, addrOf, if_neg hvnil, bind_of (read_of hv _), bind_of (read_of hz _),
      node_key, hkey, descend]
    by_cases hgt : tree.compare v.key key = 1
    · rw [if_pos hgt, bind_of (read_of hv _), if_pos (by simpa [goesLeft] using hgt)]
      exact ihl (c := ⟨.left, red, v, r⟩ :: c) hl (fun w hw => hnil w (.inl hw)) (by omega)
    · rw [if_neg hgt, bind_of (read_of hv _), if_neg (by simpa [goesLeft] using hgt)]
      exact ihr (c := ⟨.right, red, v, l⟩ :: c) hr (fun w hw => hnil w (.inr (.inr hw))) (by omega)

/-- The new node `z` is hung at an empty place. -/
theorem attach_of {c : List (Branch (Cell κ ι))} (h : Stored tree R m c .nil) {z : Cell κ ι}
    {red : Bool} {m₁ : Memory κ ι} (hz : m.node z.addr = none) (hz0 : z.addr ≠ 0)
    (hnode : m₁.node z.addr = some (z.node .left red tree.nil tree.nil (top tree c)))
    (hoff : ∀ q, q ≠ z.addr → m₁.node q = m.node q) :
    ∃ m', write (top tree c) (·.setChild (sideOf c) z.addr) m₁ = some ((), m') ∧
      Stored tree R m' c (.node red .nil z .nil) ∧ m'.destroyed = m₁.destroyed := by
  obtain ⟨hzr, hzn, hzt⟩ := h.fresh hz
  have haround : ∀ w ∈ around c, w.addr ≠ z.addr := fun w hw he =>
    hzt (he ▸ List.mem_map_of_mem (mem_plug.mpr (.inr hw)))
  obtain ⟨m', hwrite, hhangs, hoff', hdes⟩ := hang_of h.distinct
    (h.hangs.congr (hoff _ hzr.symm) fun w hw => hoff _ (haround w hw)) z.addr
  have hztop : z.addr ≠ top tree c := ne_top hzr haround
  have hlist : (plug c (.node red .nil z .nil)).toList = leftOf c ++ z :: rightOf c := by
    simp [RedBlack.toList_plug, ColorTree.toList]
  have hlist₀ : (plug c (.nil : ColorTree (Cell κ ι))).toList = leftOf c ++ rightOf c := by
    simp [RedBlack.toList_plug, ColorTree.toList]
  refine ⟨m', hwrite, ⟨hhangs, ⟨?_, trivial, trivial⟩, ?_, ?_, h.nil_black, h.zero, ?_⟩, hdes⟩
  · rw [hoff' _ hztop, hnode]
    rfl
  · have hd := h.distinct
    rw [Distinct, hlist₀] at hd
    rw [hlist₀] at hzt
    refine distinct_insert hlist hd ?_
    simp only [List.mem_cons, not_or]
    exact ⟨hz0, hzr, hzn, hzt⟩
  · intro q hq hmem
    simp only [hlist, List.map_append, List.map_cons, List.mem_append, List.mem_cons,
      not_or] at hmem
    have hqtop : q ≠ top tree c := ne_top hq fun w hw => by
      rcases List.mem_append.mp hw with hw | hw
      · exact notMem_addrs.mp hmem.1 w hw
      · exact notMem_addrs.mp hmem.2.2 w hw
    rw [hoff' _ hqtop, hoff _ hmem.2.1]
    refine h.rest q hq ?_
    rw [hlist₀, List.map_append, List.mem_append]
    exact fun h => h.elim hmem.1 hmem.2.2
  · intro w hw
    rw [hlist, List.mem_append, List.mem_cons] at hw
    have hown := h.own w
    rw [hlist₀, List.mem_append] at hown
    rcases hw with hw | rfl | hw
    · exact hown (.inl hw)
    · exact (h.rest _ hzr hzt).symm.trans hz
    · exact hown (.inr hw)

theorem put_put (m : Memory κ ι) (a : Nat) (n n' : Option (RbRedBlkNode κ ι)) :
    (m.put a n).put a n' = m.put a n' := by
  simp only [Memory.put, Function.update_idem]

theorem safeMalloc_of {z : Nat} (hz : m.node z = none) (hz0 : z ≠ 0) (junk : RbRedBlkNode κ ι) :
    safeMalloc z junk m = some ((), m.put z (some junk)) := by
  rw [safeMalloc, if_pos ⟨hz0, hz⟩]

theorem hangBelow_of {c : List (Branch (Cell κ ι))} {z : Nat} {zn : RbRedBlkNode κ ι} {x : Nat}
    (h : Hangs tree m c x) (hroot : ∀ w ∈ around c, w.addr ≠ tree.root)
    (hz : m.node z = some zn)
    (hc : ∀ d ∈ c.head?, goesLeft tree zn.key d.val = decide (d.side = .left)) :
    hangBelow tree (top tree c) z m = write (top tree c) (·.setChild (sideOf c) z) m := by
  cases c with
  | nil => exact congrFun (if_pos rfl) m
  | cons d c =>
    have hd := hc d rfl
    obtain ⟨s, red, v, sib⟩ := d
    obtain ⟨hn, -, -⟩ := h
    have hv : v.addr ≠ tree.root := hroot v (mem_around_cons.mpr (.inl rfl))
    rw [top_cons, hangBelow, if_neg hv, bind_of (read_of hn _), bind_of (read_of hz _), node_key]
    cases s with
    | left => exact congrFun (if_pos (by simpa [goesLeft] using hd)) m
    | right => exact congrFun (if_neg (by simpa [goesLeft] using hd)) m

/-- The place of the new node is found by descending, and it is hung there. -/
theorem treeInsertHelp_of {t : ColorTree (Cell κ ι)} (h : Stored tree R m [] t) {z : Cell κ ι}
    (hz : m.node z.addr = none) (hz0 : z.addr ≠ 0) {n : RbRedBlkNode κ ι} (hkey : n.key = z.key)
    (hinfo : n.info = z.info) {fuel : Nat} (hfuel : t.height < fuel) :
    ∃ m', treeInsertHelp tree fuel z.addr (m.put z.addr (some n)) = some ((), m') ∧
      Stored tree R m' (descend (goesLeft tree z.key) t []) (.node n.red .nil z .nil) ∧
      m'.destroyed = m.destroyed := by
  obtain ⟨hzr, hzn, hzt⟩ := h.fresh hz
  let c := descend (goesLeft tree z.key) t []
  have hplace : Stored tree R m c .nil := by
    have hplug : plug c .nil = t := RedBlack.plug_descend (goesLeft tree z.key) t []
    rwa [← hplug, stored_plug] at h
  let m₁ := m.put z.addr (some { n with left := tree.nil, right := tree.nil })
  have hlinked : Linked tree m₁ (top tree []) t := h.linked.congr fun w hw =>
    put_of_ne _ _ fun he => hzt (he ▸ List.mem_map_of_mem hw)
  have hnil : ∀ w ∈ t.toList, w.addr ≠ tree.nil := fun w hw => (h.distinct.special.2.2.2 w hw).2.1
  have hz₁ : m₁.node z.addr = some { n with left := tree.nil, right := tree.nil } := put_self ..
  have hwalk : insertWalk tree z.addr fuel tree.root (addrOf tree t) m₁ =
      some (top tree c, m₁) := insertWalk_of hz₁ hkey hlinked hnil hfuel
  obtain ⟨rn, hrn, -, hleft, -⟩ := h.hangs
  have hrn₁ : m₁.node tree.root = some rn := by rw [put_of_ne _ _ hzr.symm, hrn]
  let m₂ := m.put z.addr (some (z.node .left n.red tree.nil tree.nil (top tree c)))
  have hoff : ∀ q, q ≠ z.addr → m₂.node q = m.node q := fun q hq => put_of_ne _ _ hq
  have haround : ∀ w ∈ around c, w.addr ≠ z.addr := fun w hw he =>
    (hplace.fresh hz).2.2 (he ▸ List.mem_map_of_mem (mem_plug.mpr (.inr hw)))
  have hside : ∀ d ∈ c.head?, goesLeft tree z.key d.val = decide (d.side = .left) :=
    RedBlack.descend_head (goesLeft tree z.key) (by simp)
  obtain ⟨m', hwrite, hstored, hdes⟩ :=
    attach_of hplace hz hz0 (show m₂.node z.addr = _ from put_self ..) hoff
  have hhang := hangBelow_of
    (hplace.hangs.congr (hoff _ hzr.symm) fun w hw => hoff _ (haround w hw))
    (fun w hw => (hplace.distinct.special.2.2.2 w (mem_plug.mpr (.inr hw))).1) (put_self ..)
    hside
  refine ⟨m', ?_, hstored, hdes⟩
  have hwrite₂ : write z.addr ({ · with parent := top tree c }) m₁ = some ((), m₂) := by
    rw [write_of (put_self ..), put_put]
    simp only [hkey, hinfo, m₂]
    rfl
  rw [treeInsertHelp, bind_of (write_of (put_self ..) _), put_put, bind_of (read_of hrn₁ _), hleft,
    bind_of hwalk, bind_of hwrite₂, bind_of (hhang.trans hwrite)]
  exact hstored.assertBlack

/-- `RBTreeInsert`, with any comparison. -/
theorem rbTreeInsert_of {t : ColorTree (Cell κ ι)} (h : Stored tree R m [] t) (ht : t.Whole)
    {z : Cell κ ι} (hz : m.node z.addr = none) (hz0 : z.addr ≠ 0) (junk : RbRedBlkNode κ ι)
    {fuel : Nat} (hfuel : 2 * Nat.log 2 (t.size + 1) < fuel) :
    ∃ m' t', rbTreeInsert tree fuel z.addr junk z.key z.info m = some (z.addr, m') ∧
      Stored tree R m' [] t' ∧ t'.Whole ∧
      t'.toList = leftOf (descend (goesLeft tree z.key) t []) ++
        z :: rightOf (descend (goesLeft tree z.key) t []) ∧
      m'.destroyed = m.destroyed := by
  let c := descend (goesLeft tree z.key) t []
  have hheight := ht.height_le
  have hlength : c.length ≤ t.height :=
    RedBlack.length_descend_le (goesLeft tree z.key) t []
  obtain ⟨m₁, hhelp, h₁, hdes₁⟩ := treeInsertHelp_of h hz hz0
    (n := { junk with key := z.key, info := z.info }) rfl rfl (by omega : t.height < fuel)
  obtain ⟨m₂, hpaint, h₂, hdes₂⟩ := paint_of (s := .left) h₁ true
  have hroom : Room c 0 := by
    have hplug : plug c .nil = t := RedBlack.plug_descend (goesLeft tree z.key) t []
    rw [← hplug, RedBlack.whole_plug] at ht
    obtain ⟨n, hn, hn0, -⟩ := ht
    rwa [(RedBlack.ColorTree.balanced_nil n).mp hn0] at hn
  obtain ⟨m₃, t₃, k, hloop, h₃, hk, hlist, hdes₃⟩ := insertFixUp_of h₂
    ((RedBlack.ColorTree.balanced_red ..).mpr ⟨rfl, rfl, rfl, rfl⟩) hroom
    (by omega : c.length < fuel)
  have hlist' : t₃.toList = leftOf c ++ z :: rightOf c := by
    rw [hlist, RedBlack.toList_plug]
    simp [join, ColorTree.toList, c]
  have hne : t₃ ≠ .nil := by
    rintro rfl
    simp [ColorTree.toList] at hlist'
  obtain ⟨red, a, v, b, rfl⟩ := RedBlack.ColorTree.exists_join .left hne
  obtain ⟨m₄, hpaint', h₄, hdes₄⟩ := paint_of h₃ false
  obtain ⟨rn, hrn, -, hleft, -⟩ := h₃.hangs
  rw [addrOf_join] at hleft
  refine ⟨m₄, _, ?_, h₄, ?_, ?_, hdes₄.trans (hdes₃.trans (hdes₂.trans hdes₁))⟩
  · rw [rbTreeInsert, bind_of (safeMalloc_of hz hz0 junk), bind_of (write_of (put_self ..) _),
      put_put, bind_of hhelp, bind_of hpaint, bind_of hloop, bind_of (read_of hrn _), hleft,
      bind_of hpaint']
    rfl
  · simpa using hk.whole
  · rw [← hlist']
    rfl

end Wtools.Rbt
