import Wtools.RbFixUp

/-!
# Deletion from the red-black tree

`RBDelete` changes a stored tree in three places: where a node is spliced out, where a black
node is then missing, and where the node that is left over replaces the deleted one.
-/

namespace Wtools.Rbt

open RedBlack (Side ColorTree Branch plug leftOf rightOf Room)
open RedBlack.ColorTree (join)

variable {κ ι : Type} {tree : RbRedBlkTree κ ι} {R : Nat → Option (RbRedBlkNode κ ι)}
  {m : Memory κ ι}

section Outside
variable {c : List (Branch (Cell κ ι))} {t : ColorTree (Cell κ ι)} {a : Nat}
  {n : RbRedBlkNode κ ι}

/-- A node in the rest of the memory is none of the tree. -/
theorem Stored.outside (h : Stored tree R m c t) (ha : R a = some n) :
    a ≠ 0 ∧ ∀ w ∈ (plug c t).toList, w.addr ≠ a := by
  refine ⟨?_, fun w hw he => ?_⟩
  · rintro rfl
    rw [h.zero] at ha
    cases ha
  · have hnone := h.own w hw
    rw [he, ha] at hnone
    cases hnone

/-- A node in the rest of the memory is there. -/
theorem Stored.rest_node (h : Stored tree R m c t) (ha : R a = some n) (hroot : a ≠ tree.root) :
    m.node a = some n :=
  (h.rest a hroot (notMem_addrs.mpr (h.outside ha).2)).trans ha

end Outside

section Splice
variable {c : List (Branch (Cell κ ι))} {s : Side} {red : Bool} {x : ColorTree (Cell κ ι)}
  {v : Cell κ ι}

/-- The parent of a root is written, also where that root is `nil`. -/
theorem reparent_of {p : Nat} (hx : Linked tree m p x) (hnodup : (x.toList.map Cell.addr).Nodup)
    (hxnil : ∀ w ∈ x.toList, w.addr ≠ tree.nil) (hnil : m.node tree.nil = R tree.nil)
    (hblack : ∃ n, R tree.nil = some n ∧ n.red = false) (q : Nat) :
    ∃ (m' : Memory κ ι) (R' : Nat → Option (RbRedBlkNode κ ι)),
      write (addrOf tree x) ({ · with parent := q }) m = some ((), m') ∧ Linked tree m' q x ∧
      (∀ a, a ∉ x.toList.map Cell.addr → a ≠ tree.nil → m'.node a = m.node a) ∧
      m'.node tree.nil = R' tree.nil ∧
      (∃ n, R' tree.nil = some n ∧ n.red = false ∧ (x = .nil → n.parent = q)) ∧
      (∀ a, a ≠ tree.nil → R' a = R a) ∧ m'.destroyed = m.destroyed := by
  cases x with
  | nil =>
    obtain ⟨n, hn, hred⟩ := hblack
    refine ⟨_, Function.update R tree.nil (some { n with parent := q }),
      write_of (hnil.trans hn) _, trivial, fun a _ ha => put_of_ne _ _ ha, ?_,
      ⟨_, Function.update_self .., hred, fun _ => rfl⟩,
      fun a ha => Function.update_of_ne ha .., rfl⟩
    rw [put_self, Function.update_self]
  | node red l v r =>
    obtain ⟨m', hadopt, hx', hoff, hdes⟩ := adopt_of hx hnodup hxnil q
    have hne : addrOf tree (.node red l v r) ≠ tree.nil := hxnil v (by simp [ColorTree.toList])
    rw [adopt, if_pos hne] at hadopt
    obtain ⟨n, hn, hred⟩ := hblack
    refine ⟨m', R, hadopt, hx', fun a ha _ => hoff a ha, ?_,
      ⟨n, hn, hred, fun h => by cases h⟩, fun _ _ => rfl, hdes⟩
    rw [hoff _ fun hmem => ?_, hnil]
    obtain ⟨w, hw, he⟩ := List.mem_map.mp hmem
    exact hxnil w hw he

theorem onlyChild_of (h : Stored tree R m c (join s red .nil v x)) :
    onlyChild tree v.addr m = some (addrOf tree x, m) := by
  have hv := h.node
  rw [onlyChild, bind_of (read_of hv _)]
  cases s with
  | left => exact (congrFun (if_pos rfl) m).trans (read_of hv _)
  | right =>
    by_cases hx : addrOf tree x = tree.nil
    · rw [hx] at hv ⊢
      exact (congrFun (if_pos rfl) m).trans (read_of hv _)
    · exact congrFun (if_neg hx) m

/-- The child of the parent is replaced, which may be the sentinel. -/
theorem unlink_of {y : Nat} (h : Hangs tree m c y)
    (hroot : ∀ w ∈ around c, w.addr ≠ tree.root)
    (hside : ∀ d ∈ c.head?, addrOf tree d.sibling ≠ y) (x : Nat) :
    unlink tree (top tree c) y x m = write (top tree c) (·.setChild (sideOf c) x) m := by
  cases c with
  | nil => exact congrFun (if_pos rfl) m
  | cons d c =>
    have hd : tree.root ≠ d.val.addr := (hroot d.val (mem_around_cons.mpr (.inl rfl))).symm
    rw [top_cons, unlink, if_neg hd]
    exact replaceChild_eq h hside x

/-- A node without a child on one side is spliced out. It stays in memory. -/
theorem spliceOut_of (h : Stored tree R m c (join s red .nil v x)) :
    ∃ m' R', spliceOut tree v.addr m = some (addrOf tree x, m') ∧ Stored tree R' m' c x ∧
      Anchored tree R' c x ∧
      R' v.addr = some (v.node s red tree.nil (addrOf tree x) (top tree c)) ∧
      (∀ a, a ≠ tree.nil → a ≠ v.addr → R' a = R a) ∧ m'.destroyed = m.destroyed := by
  have hv := h.node
  have hap := h.distinct.apart
  obtain ⟨-, -, hx⟩ := linked_join.mp h.linked
  have hsub : (plug c x).toList.Sublist (plug c (join s red .nil v x)).toList := by
    simp only [RedBlack.toList_plug]
    refine List.Sublist.append (List.Sublist.append_left ?_ _) (List.Sublist.refl _)
    cases s <;> simp [join, ColorTree.toList]
  have hdistinct : Distinct tree c x := h.distinct.sublist hsub
  obtain ⟨hrn, -, hn0, hspecial⟩ := hdistinct.special
  have hmem : ∀ w ∈ x.toList, w ∈ (plug c x).toList := fun w hw => mem_plug.mpr (.inl hw)
  obtain ⟨m₁, R₁, hwrite, hx₁, hoff₁, hnil₁, ⟨n, hn, hred, hparent⟩, hrest₁, hdes₁⟩ :=
    reparent_of hx hdistinct.inside.1 (fun w hw => (hspecial w (hmem w hw)).2.1) h.nil_node
      h.nil_black (top tree c)
  have hvx : v.addr ∉ x.toList.map Cell.addr := notMem_addrs.mpr hap.far
  have hhangs := h.hangs
  rw [addrOf_join] at hhangs
  have hhangs₁ : Hangs tree m₁ c v.addr := by
    refine hhangs.congr (hoff₁ _ (notMem_addrs.mpr fun w hw => ?_) hrn) fun w hw =>
      hoff₁ _ (notMem_addrs.mpr fun u hu => hap.far_above u hu w hw) ?_
    · exact (hspecial w (mem_plug.mpr (.inl hw))).1
    · exact (hspecial w (mem_plug.mpr (.inr hw))).2.1
  obtain ⟨m₂, hhang, hhangs₂, hoff₂, hdes₂⟩ := hang_of h.distinct hhangs₁ (addrOf tree x)
  have hunlink := unlink_of hhangs₁ (fun w hw => (hspecial w (mem_plug.mpr (.inr hw))).1)
    hap.sibling (addrOf tree x)
  have hvtop : v.addr ≠ top tree c := h.distinct.ne_top (mem_join.mpr (.inl rfl))
  have hanchored : x = .nil → n.parent = top tree c := hparent
  refine ⟨m₂, Function.update R₁ v.addr
      (some (v.node s red tree.nil (addrOf tree x) (top tree c))), ?_,
    ⟨hhangs₂, ?_, hdistinct, ?_, ?_, ?_, ?_⟩, ?_, Function.update_self .., ?_,
    hdes₂.trans hdes₁⟩
  · rw [spliceOut, bind_of (onlyChild_of h), bind_of (read_of hv _), node_parent, bind_of hwrite,
      bind_of (hunlink.trans hhang)]
    rfl
  · exact hx₁.congr fun w hw => hoff₂ _ (hdistinct.ne_top hw)
  · intro a ha hmem
    have hout := notMem_addrs.mp hmem
    have hax : ∀ w ∈ x.toList, w.addr ≠ a := fun w hw => hout w (mem_plug.mpr (.inl hw))
    rw [hoff₂ _ (ne_top ha fun w hw => hout w (mem_plug.mpr (.inr hw)))]
    by_cases hav : a = v.addr
    · subst hav
      rw [hoff₁ _ hvx hap.nil, Function.update_self]
      exact hv
    rw [Function.update_of_ne hav]
    by_cases han : a = tree.nil
    · rw [han, hnil₁]
    · rw [hoff₁ _ (notMem_addrs.mpr hax) han, hrest₁ _ han]
      refine h.rest a ha (notMem_addrs.mpr fun w hw => ?_)
      rw [mem_plug, mem_join] at hw
      rcases hw with (rfl | hw | hw) | hw
      · exact Ne.symm hav
      · cases hw
      · exact hax w hw
      · exact hout w (mem_plug.mpr (.inr hw))
  · exact ⟨n, by rw [Function.update_of_ne hap.nil.symm, hn], hred⟩
  · have hv0 := (h.distinct.special.2.2.2 v (mem_plug.mpr (.inl (mem_join.mpr (.inl rfl))))).2.2
    rw [Function.update_of_ne hv0.symm, hrest₁ _ hn0.symm, h.zero]
  · intro w hw
    have hwv : w.addr ≠ v.addr := by
      rcases mem_plug.mp hw with hw | hw
      · exact hap.far w hw
      · exact hap.above w hw
    rw [Function.update_of_ne hwv, hrest₁ _ (hspecial w hw).2.1]
    exact h.own w (hsub.subset hw)
  · exact fun hxnil => ⟨n, by rw [Function.update_of_ne hap.nil.symm, hn], hanchored hxnil⟩
  · intro a han hav
    rw [Function.update_of_ne hav, hrest₁ _ han]

/-- The tree is mended if the node that was spliced out is black. -/
theorem fixIfBlack_of {y fuel : Nat} {yn : RbRedBlkNode κ ι} (h : Stored tree R m c x)
    (ha : Anchored tree R c x) (hy : m.node y = some yn) (hred : yn.red = red)
    (hwhole : (plug c (join s red .nil v x)).Whole) (hfuel : c.length + 1 < fuel) :
    ∃ m' t', fixIfBlack tree fuel y (addrOf tree x) m = some ((), m') ∧ Stored tree R m' [] t' ∧
      t'.Whole ∧ t'.toList = (plug c x).toList ∧ m'.destroyed = m.destroyed := by
  obtain ⟨n, hroom, hbal, -⟩ := (RedBlack.whole_plug ..).mp hwhole
  rw [fixIfBlack, bind_of (read_of hy _), hred]
  cases red with
  | true =>
    obtain ⟨hn, hx, -, hblack⟩ := (RedBlack.ColorTree.balanced_red ..).mp hbal
    exact ⟨m, plug c x, rfl, stored_plug.mpr h, hroom.plug_whole hx hblack, rfl, rfl⟩
  | false =>
    obtain ⟨k, rfl, hk, hx⟩ := (RedBlack.ColorTree.balanced_black ..).mp hbal
    obtain rfl : k = 0 := hk
    have hshort : Short x 0 := by
      cases hxred : x.isRed with
      | true => exact (short_red hxred).mpr (hx.paint_red hxred)
      | false => exact (short_black hxred).mpr hx
    exact rbDeleteFixUp_of h ha hroom hshort hfuel

end Splice

section Choice
variable {c : List (Branch (Cell κ ι))} {s : Side} {red : Bool} {l r x : ColorTree (Cell κ ι)}
  {v : Cell κ ι}

theorem nodeToSplice_self (h : Stored tree R m c (join s red .nil v x)) (fuel : Nat) :
    nodeToSplice tree fuel v.addr m = some (v.addr, m) := by
  have hv := h.node
  rw [nodeToSplice, bind_of (read_of hv _)]
  cases s with
  | left => exact congrFun (if_pos rfl) m
  | right =>
    by_cases hx : addrOf tree x = tree.nil
    · exact congrFun (if_pos hx) m
    · refine (congrFun (if_neg hx) m).trans ?_
      rw [bind_of (read_of hv _)]
      exact congrFun (if_pos rfl) m

/-- The node that is spliced out instead is the next one in the order. -/
theorem nodeToSplice_next {fuel : Nat} (h : Stored tree R m c (join .left red l v r))
    (hl : l ≠ .nil) (hr : r ≠ .nil) (hfuel : r.height ≤ fuel) :
    ∃ c' yred y b, nodeToSplice tree fuel v.addr m = some (y.addr, m) ∧
      Stored tree R m c' (join .left yred .nil y b) ∧
      plug c' (join .left yred .nil y b) = plug c (join .left red l v r) ∧
      leftOf c' = leftOf c ++ (l.toList ++ [v]) := by
  have hl' : Stored tree R m (⟨.left, red, v, r⟩ :: c) l := stored_cons.mpr h
  have hr' : Stored tree R m (⟨.right, red, v, l⟩ :: c) r := stored_cons.mpr h
  obtain ⟨c', yred, y, b, hrun, hy, hplug, hbeside⟩ := outermost_of .left hr' hr hfuel
  have hv := h.node
  refine ⟨c', yred, y, b, ?_, hy, hplug, hbeside⟩
  rw [nodeToSplice, bind_of (read_of hv _)]
  refine (congrFun (if_neg (addrOf_ne hl' hl)) m).trans ?_
  rw [bind_of (read_of hv _)]
  refine (congrFun (if_neg (addrOf_ne hr' hr)) m).trans ?_
  rw [treeSuccessor, bind_of (read_of hv _)]
  exact (congrFun (if_pos (addrOf_ne hr' hr).symm) m).trans hrun

end Choice

section Replace
variable {c : List (Branch (Cell κ ι))} {red : Bool} {l r : ColorTree (Cell κ ι)} {y z : Cell κ ι}

theorem mem_exchange {v : Cell κ ι} (u : Cell κ ι) {w : Cell κ ι}
    (hw : w ∈ (plug c (join .left red l v r)).toList) :
    w = v ∨ w ∈ (plug c (join .left red l u r)).toList := by
  rw [mem_plug, mem_join] at hw ⊢
  tauto

/-- An entry is exchanged for one from outside the tree. -/
theorem Distinct.exchange (h : Distinct tree c (join .left red l z r)) (hy0 : y.addr ≠ 0)
    (hyroot : y.addr ≠ tree.root) (hynil : y.addr ≠ tree.nil)
    (hout : ∀ w ∈ (plug c (join .left red l z r)).toList, w.addr ≠ y.addr) :
    Distinct tree c (join .left red l y r) := by
  have hlist : ∀ v, (plug c (join .left red l v r)).toList =
      (leftOf c ++ l.toList) ++ v :: (r.toList ++ rightOf c) := fun v => by
    simp [RedBlack.toList_plug, join, ColorTree.toList]
  rw [Distinct, hlist] at h
  rw [hlist] at hout
  refine distinct_insert (hlist y) (List.Nodup.sublist ?_ h) ?_
  · exact ((((List.sublist_cons_self z _).append_left _).map _).cons_cons _).cons_cons _
      |>.cons_cons _
  · simp only [List.mem_cons, not_or]
    refine ⟨hy0, hyroot, hynil, notMem_addrs.mpr fun w hw => hout w ?_⟩
    rcases List.mem_append.mp hw with hw | hw
    · exact List.mem_append_left _ hw
    · exact List.mem_append_right _ (List.mem_cons_of_mem _ hw)

/-- The parents of both children are written. -/
theorem reparentBoth_of {p : Nat} (hd : Distinct tree c (join .left red l z r))
    (hl : Linked tree m p l) (hr : Linked tree m p r) (hnil : m.node tree.nil = R tree.nil)
    (hblack : ∃ n, R tree.nil = some n ∧ n.red = false) (q : Nat) :
    ∃ (m₁ m' : Memory κ ι) (R' : Nat → Option (RbRedBlkNode κ ι)),
      write (addrOf tree r) ({ · with parent := q }) m = some ((), m₁) ∧
      write (addrOf tree l) ({ · with parent := q }) m₁ = some ((), m') ∧
      Linked tree m' q l ∧ Linked tree m' q r ∧
      (∀ a, a ∉ l.toList.map Cell.addr → a ∉ r.toList.map Cell.addr → a ≠ tree.nil →
        m'.node a = m.node a) ∧
      m'.node tree.nil = R' tree.nil ∧ (∃ n, R' tree.nil = some n ∧ n.red = false) ∧
      (∀ a, a ≠ tree.nil → R' a = R a) ∧ m'.destroyed = m.destroyed := by
  have hap := hd.apart
  have hln : ∀ w ∈ l.toList, w.addr ≠ tree.nil := fun w hw =>
    (hd.special.2.2.2 w (mem_plug.mpr (.inl (mem_join.mpr (.inr (.inl hw)))))).2.1
  have hrn : ∀ w ∈ r.toList, w.addr ≠ tree.nil := fun w hw =>
    (hd.special.2.2.2 w (mem_plug.mpr (.inl (mem_join.mpr (.inr (.inr hw)))))).2.1
  have hdl : Distinct tree (⟨.left, red, z, r⟩ :: c) l := hd
  have hdr : Distinct tree (⟨.right, red, z, l⟩ :: c) r := hd
  obtain ⟨m₁, R₁, hwrite₁, hr₁, hoff₁, hnil₁, ⟨n₁, hn₁, hred₁, -⟩, hrest₁, hdes₁⟩ :=
    reparent_of hr hdr.inside.1 hrn hnil hblack q
  have hl₁ : Linked tree m₁ p l := hl.congr fun w hw =>
    hoff₁ _ (notMem_addrs.mpr fun u hu => (hap.near_far w hw u hu).symm) (hln w hw)
  obtain ⟨m₂, R₂, hwrite₂, hl₂, hoff₂, hnil₂, ⟨n₂, hn₂, hred₂, -⟩, hrest₂, hdes₂⟩ :=
    reparent_of hl₁ hdl.inside.1 hln hnil₁ ⟨n₁, hn₁, hred₁⟩ q
  have hr₂ : Linked tree m₂ q r := hr₁.congr fun w hw =>
    hoff₂ _ (notMem_addrs.mpr fun u hu => hap.near_far u hu w hw) (hrn w hw)
  exact ⟨m₁, m₂, R₂, hwrite₁, hwrite₂, hl₂, hr₂,
    fun a hal har han => (hoff₂ a hal han).trans (hoff₁ a har han), hnil₂, ⟨n₂, hn₂, hred₂⟩,
    fun a ha => (hrest₂ a ha).trans (hrest₁ a ha), hdes₂.trans hdes₁⟩

/-- A node that is not in the tree takes the place of `z`, which is then freed. -/
theorem takePlace_of {yn : RbRedBlkNode κ ι} (h : Stored tree R m c (join .left red l z r))
    (hy : R y.addr = some yn) (hkey : yn.key = y.key) (hinfo : yn.info = y.info)
    (hyroot : y.addr ≠ tree.root) (hynil : y.addr ≠ tree.nil) :
    ∃ m' R', (takePlace y.addr z.addr >>= fun _ => free z.addr) m = some ((), m') ∧
      Stored tree R' m' c (join .left red l y r) ∧ R' y.addr = none ∧ R' z.addr = none ∧
      (∀ a, a ≠ tree.nil → a ≠ y.addr → a ≠ z.addr → R' a = R a) ∧
      m'.destroyed = m.destroyed := by
  have hap := h.distinct.apart
  have hz := h.node
  obtain ⟨-, hl, hr⟩ := linked_join.mp h.linked
  obtain ⟨hrn, -, hn0, hspecial⟩ := h.distinct.special
  obtain ⟨hy0, hout⟩ := h.outside hy
  have hin : ∀ {w}, w = z ∨ w ∈ l.toList ∨ w ∈ r.toList ∨ w ∈ around c →
      w ∈ (plug c (join .left red l z r)).toList := by
    intro w hw
    rw [mem_plug, mem_join]
    tauto
  have hyz : z.addr ≠ y.addr := hout z (hin (.inl rfl))
  have hym : m.node y.addr = some yn := h.rest_node hy hyroot
  let m₁ := m.put y.addr (some (y.node .left red (addrOf tree l) (addrOf tree r) (top tree c)))
  have hoff₁ : ∀ a, a ≠ y.addr → m₁.node a = m.node a := fun a ha => put_of_ne _ _ ha
  have hnil₁ : m₁.node tree.nil = R tree.nil := (hoff₁ _ hynil.symm).trans h.nil_node
  -- the children of `z` come to be those of `y`
  obtain ⟨m₂, m₃, R₂, hwrite₂, hwrite₃, hl₃, hr₃, hoff, hnil₃, ⟨n₂, hn₂, hred₂⟩, hrest₂, hdes₃⟩ :=
    reparentBoth_of h.distinct
      (hl.congr fun w hw => hoff₁ _ (hout w (hin (.inr (.inl hw)))))
      (hr.congr fun w hw => hoff₁ _ (hout w (hin (.inr (.inr (.inl hw)))))) hnil₁ h.nil_black y.addr
  have hz₃ : m₃.node z.addr = m.node z.addr :=
    (hoff _ (notMem_addrs.mpr hap.near) (notMem_addrs.mpr hap.far) hap.nil).trans (hoff₁ _ hyz)
  have hy₃ : m₃.node y.addr = m₁.node y.addr :=
    hoff _ (notMem_addrs.mpr fun w hw => hout w (hin (.inr (.inl hw))))
      (notMem_addrs.mpr fun w hw => hout w (hin (.inr (.inr (.inl hw))))) hynil
  -- `y` replaces `z` below its parent
  have hhangs := h.hangs
  rw [addrOf_join] at hhangs
  have hhangs₃ : Hangs tree m₃ c z.addr := by
    refine hhangs.congr ?_ fun w hw => ?_
    · exact (hoff _ (notMem_addrs.mpr fun w hw => (hspecial w (hin (.inr (.inl hw)))).1)
        (notMem_addrs.mpr fun w hw => (hspecial w (hin (.inr (.inr (.inl hw))))).1) hrn).trans
        (hoff₁ _ hyroot.symm)
    · have hw' := hin (.inr (.inr (.inr hw)))
      exact (hoff _ (notMem_addrs.mpr fun u hu => hap.near_above u hu w hw)
        (notMem_addrs.mpr fun u hu => hap.far_above u hu w hw) (hspecial w hw').2.1).trans
        (hoff₁ _ (hout w hw'))
  obtain ⟨m₄, hhang, hhangs₄, hoff₄, hdes₄⟩ := hang_of h.distinct hhangs₃ y.addr
  rw [← replaceChild_eq hhangs₃ hap.sibling] at hhang
  have hztop : z.addr ≠ top tree c := h.distinct.ne_top (mem_join.mpr (.inl rfl))
  have hytop : y.addr ≠ top tree c := ne_top hyroot fun w hw => hout w (hin (.inr (.inr (.inr hw))))
  have hz₄ : m₄.node z.addr = m.node z.addr := (hoff₄ _ hztop).trans hz₃
  refine ⟨m₄.put z.addr none, Function.update (Function.update R₂ y.addr none) z.addr none, ?_,
    ⟨?_, linked_join.mpr ⟨?_, ?_, ?_⟩, h.distinct.exchange hy0 hyroot hynil hout, ?_, ?_, ?_, ?_⟩,
    ?_, Function.update_self .., ?_, hdes₄.trans hdes₃⟩
  · have htake : takePlace y.addr z.addr m = some ((), m₄) := by
      have hwrite₁ : write y.addr (fun n => { n with
          left := addrOf tree l, right := addrOf tree r, parent := top tree c, red := red }) m =
          some ((), m₁) := by
        rw [write_of hym, hkey, hinfo]
        rfl
      rw [takePlace, bind_of (read_of hz _)]
      exact (bind_of hwrite₁ _).trans ((bind_of hwrite₂ _).trans ((bind_of hwrite₃ _).trans hhang))
    rw [bind_of htake, free, hz₄, hz, Option.map_some]
  · rw [addrOf_join]
    exact hhangs₄.congr (put_of_ne _ _ hap.root.symm) fun w hw => put_of_ne _ _ (hap.above w hw)
  · rw [put_of_ne _ _ hyz.symm, hoff₄ _ hytop, hy₃, put_self]
  · refine hl₃.congr fun w hw => ?_
    rw [put_of_ne _ _ (hap.near w hw), hoff₄ _ (h.distinct.ne_top (mem_join.mpr (.inr (.inl hw))))]
  · refine hr₃.congr fun w hw => ?_
    rw [put_of_ne _ _ (hap.far w hw), hoff₄ _ (h.distinct.ne_top (mem_join.mpr (.inr (.inr hw))))]
  · intro a ha hmem
    have hout' := notMem_addrs.mp hmem
    have hin' : ∀ {w}, w = y ∨ w ∈ l.toList ∨ w ∈ r.toList ∨ w ∈ around c → w.addr ≠ a := by
      intro w hw
      refine hout' w ?_
      rw [mem_plug, mem_join]
      tauto
    by_cases haz : a = z.addr
    · rw [haz, put_self, Function.update_self]
    · have hay : a ≠ y.addr := (hin' (.inl rfl)).symm
      rw [put_of_ne _ _ haz, hoff₄ _ (ne_top ha fun w hw => hin' (.inr (.inr (.inr hw)))),
        Function.update_of_ne haz, Function.update_of_ne hay]
      by_cases han : a = tree.nil
      · rw [han, hnil₃]
      · rw [hoff _ (notMem_addrs.mpr fun w hw => hin' (.inr (.inl hw)))
          (notMem_addrs.mpr fun w hw => hin' (.inr (.inr (.inl hw)))) han, hoff₁ _ hay,
          hrest₂ _ han]
        refine h.rest a ha (notMem_addrs.mpr fun w hw => ?_)
        rcases mem_exchange y hw with rfl | hw
        · exact fun he => haz he.symm
        · exact hout' w hw
  · refine ⟨n₂, ?_, hred₂⟩
    rw [Function.update_of_ne hap.nil.symm, Function.update_of_ne hynil.symm, hn₂]
  · have hz0 := (hspecial z (hin (.inl rfl))).2.2
    rw [Function.update_of_ne hz0.symm, Function.update_of_ne hy0.symm, hrest₂ _ hn0.symm, h.zero]
  · intro w hw
    by_cases hwz : w.addr = z.addr
    · rw [hwz, Function.update_self]
    rw [Function.update_of_ne hwz]
    rcases mem_exchange z hw with rfl | hw'
    · rw [Function.update_self]
    · rw [Function.update_of_ne (hout w hw'), hrest₂ _ (hspecial w hw').2.1]
      exact h.own w hw'
  · rw [Function.update_of_ne hyz.symm, Function.update_self]
  · intro a han hay haz
    rw [Function.update_of_ne haz, Function.update_of_ne hay, hrest₂ _ han]

end Replace

section Delete
variable {c : List (Branch (Cell κ ι))} {t : ColorTree (Cell κ ι)} {fuel : Nat}

/-- What `DestroyKey` and `DestroyInfo` are given is no part of the tree. -/
theorem Stored.destroyed (h : Stored tree R m c t) (ds : List (Destroyed κ ι)) :
    Stored tree R { m with destroyed := ds } c t :=
  ⟨h.hangs.congr rfl fun _ _ => rfl, h.linked.congr fun _ _ => rfl, h.distinct, h.rest,
    h.nil_black, h.zero, h.own⟩

/-- A node that is not in the tree is freed. -/
theorem free_of {z : Nat} {n : RbRedBlkNode κ ι} (h : Stored tree R m c t) (hz : R z = some n)
    (hroot : z ≠ tree.root) (hnil : z ≠ tree.nil) :
    free z m = some ((), m.put z none) ∧
      Stored tree (Function.update R z none) (m.put z none) c t := by
  have hout : ∀ w ∈ (plug c t).toList, w.addr ≠ z := by
    intro w hw he
    have hnone := h.own w hw
    rw [he, hz] at hnone
    cases hnone
  have hz0 : z ≠ 0 := by
    rintro rfl
    rw [h.zero] at hz
    cases hz
  refine ⟨by rw [free, h.rest_node hz hroot, Option.map_some], ⟨?_, ?_, h.distinct, ?_, ?_, ?_, ?_⟩⟩
  · exact h.hangs.congr (put_of_ne _ _ hroot.symm) fun w hw =>
      put_of_ne _ _ (hout w (mem_plug.mpr (.inr hw)))
  · exact h.linked.congr fun w hw => put_of_ne _ _ (hout w (mem_plug.mpr (.inl hw)))
  · intro a ha hmem
    by_cases haz : a = z
    · rw [haz, put_self, Function.update_self]
    · rw [put_of_ne _ _ haz, Function.update_of_ne haz, h.rest a ha hmem]
  · rw [Function.update_of_ne hnil.symm]
    exact h.nil_black
  · rw [Function.update_of_ne hz0.symm, h.zero]
  · intro w hw
    rw [Function.update_of_ne (hout w hw), h.own w hw]

/-- `RBDelete` of an entry without a child on one side. -/
theorem rbDelete_self {s : Side} {red : Bool} {x : ColorTree (Cell κ ι)} {z : Cell κ ι}
    (h : Stored tree R m c (join s red .nil z x)) (hwhole : (plug c (join s red .nil z x)).Whole)
    (hfuel : c.length + 1 < fuel) :
    ∃ (m' : Memory κ ι) (R' : Nat → Option (RbRedBlkNode κ ι)) (t' : ColorTree (Cell κ ι)),
      rbDelete tree fuel z.addr m = some ((), m') ∧ Stored tree R' m' [] t' ∧ t'.Whole ∧
      t'.toList = (plug c x).toList ∧ (∀ a, a ≠ tree.nil → R' a = R a) ∧
      m'.destroyed = m.destroyed ++ [.key z.key, .info z.info] := by
  have hap := h.distinct.apart
  have hown := h.own z (mem_plug.mpr (.inl (mem_join.mpr (.inl rfl))))
  obtain ⟨m₁, R₁, hsplice, h₁, ha₁, hz₁, hrest₁, hdes₁⟩ := spliceOut_of h
  have hzn := h₁.rest_node hz₁ hap.root
  let m₂ : Memory κ ι := { m₁ with destroyed := m₁.destroyed ++ [.key z.key, .info z.info] }
  obtain ⟨m₃, t', hfix, h₃, hwhole₃, hlist, hdes₃⟩ := fixIfBlack_of
    (h₁.destroyed (m₁.destroyed ++ [.key z.key, .info z.info])) ha₁
    (show m₂.node z.addr = _ from hzn) (node_red ..) hwhole hfuel
  obtain ⟨hfree, h₄⟩ := free_of h₃ hz₁ hap.root hap.nil
  refine ⟨_, _, t', ?_, h₄, hwhole₃, hlist, fun a ha => ?_, ?_⟩
  · have hdispose : dispose tree fuel z.addr z.addr (addrOf tree x) m₁ =
        some ((), m₃.put z.addr none) := by
      refine (congrFun (if_neg (not_not.mpr rfl)) m₁).trans ?_
      refine (destroyEntry_of hzn _).trans ?_
      rw [node_key, node_info]
      exact (bind_of hfix _).trans hfree
    rw [rbDelete, bind_of (nodeToSplice_self h fuel), bind_of hsplice, bind_of hdispose]
    exact h₄.assertBlack
  · by_cases haz : a = z.addr
    · rw [haz, Function.update_self, hown]
    · rw [Function.update_of_ne haz, hrest₁ a ha haz]
  · rw [put_destroyed, hdes₃, hdes₁]

/-- `RBDelete` of an entry with two children. -/
theorem rbDelete_next {red : Bool} {l r : ColorTree (Cell κ ι)} {z : Cell κ ι}
    (h : Stored tree R m c (join .left red l z r)) (hl : l ≠ .nil) (hr : r ≠ .nil)
    (hwhole : (plug c (join .left red l z r)).Whole)
    (hfuel : (plug c (join .left red l z r)).height < fuel) :
    ∃ (m' : Memory κ ι) (R' : Nat → Option (RbRedBlkNode κ ι)) (t' : ColorTree (Cell κ ι)),
      rbDelete tree fuel z.addr m = some ((), m') ∧ Stored tree R' m' [] t' ∧ t'.Whole ∧
      t'.toList = (leftOf c ++ l.toList) ++ (r.toList ++ rightOf c) ∧
      (∀ a, a ≠ tree.nil → R' a = R a) ∧
      m'.destroyed = m.destroyed ++ [.key z.key, .info z.info] := by
  have hheight := RedBlack.length_add_height_le c (join .left red l z r)
  rw [RedBlack.ColorTree.height_join] at hheight
  obtain ⟨c', yred, y, b, hchoose, hy, hplug, hleft⟩ := nodeToSplice_next h hl hr
    (by omega : r.height ≤ fuel)
  have hap := hy.distinct.apart
  have hheight' := RedBlack.length_add_height_le c' (join .left yred .nil y b)
  rw [hplug, RedBlack.ColorTree.height_join] at hheight'
  have hzc : z ∈ around c' := by simp [around, hleft]
  have hyz : y.addr ≠ z.addr := (hap.above z hzc).symm
  obtain ⟨m₁, R₁, hsplice, h₁, ha₁, hy₁, hrest₁, hdes₁⟩ := spliceOut_of hy
  rw [← hplug] at hwhole
  obtain ⟨m₂, t₂, hfix, h₂, hwhole₂, hlist₂, hdes₂⟩ := fixIfBlack_of h₁ ha₁
    (h₁.rest_node hy₁ hap.root) (node_red ..) hwhole (by omega : c'.length + 1 < fuel)
  -- where `z` is after the tree was mended
  have hsplit : t₂.toList = (leftOf c ++ l.toList) ++ z :: (b.toList ++ rightOf c') := by
    rw [hlist₂, RedBlack.toList_plug, hleft]
    simp
  obtain ⟨c₂, red₂, l₂, r₂, rfl, hl₂, hr₂⟩ := RedBlack.exists_place_of hsplit
  have hz₂ : Stored tree R₁ m₂ c₂ (join .left red₂ l₂ z r₂) := stored_plug.mp h₂
  let ds : List (Destroyed κ ι) := m₂.destroyed ++ [.key z.key, .info z.info]
  obtain ⟨m₃, R₃, htake, h₃, hy₃, hz₃, hrest₃, hdes₃⟩ :=
    takePlace_of (hz₂.destroyed ds) hy₁ (node_key ..) (node_info ..) hap.root hap.nil
  refine ⟨m₃, R₃, plug c₂ (join .left red₂ l₂ y r₂), ?_, stored_plug.mpr h₃,
    (RedBlack.whole_plug_join c₂ .left red₂ l₂ r₂ z y).mp hwhole₂, ?_, fun a ha => ?_, ?_⟩
  · have hdispose : dispose tree fuel y.addr z.addr (addrOf tree b) m₁ = some ((), m₃) := by
      refine (congrFun (if_pos hyz) m₁).trans ((congrFun (if_neg hap.nil) m₁).trans ?_)
      rw [bind_of hfix]
      refine (destroyEntry_of hz₂.node _).trans ?_
      rw [node_key, node_info]
      exact htake
    rw [rbDelete, bind_of hchoose, bind_of hsplice, bind_of hdispose]
    exact h₃.assertBlack
  · have hlists := congrArg ColorTree.toList hplug
    have hjoin : ∀ (red : Bool) (l r : ColorTree (Cell κ ι)) (v : Cell κ ι),
        (join .left red l v r).toList = l.toList ++ v :: r.toList := fun _ _ _ _ => rfl
    simp only [RedBlack.toList_plug, hjoin, hleft, ColorTree.toList, List.nil_append,
      List.append_assoc, List.cons_append, List.append_cancel_left_eq, List.cons.injEq,
      true_and] at hlists
    rw [RedBlack.toList_plug, hjoin, hl₂, ← hlists, hr₂]
    simp
  · by_cases hay : a = y.addr
    · rw [hay, hy₃, hy.own y (mem_plug.mpr (.inl (mem_join.mpr (.inl rfl))))]
    · by_cases haz : a = z.addr
      · rw [haz, hz₃, hy.own z (mem_plug.mpr (.inr hzc))]
      · rw [hrest₃ a ha hay haz, hrest₁ a ha hay]
  · rw [hdes₃]
    simp only [ds, hdes₂, hdes₁]

/-- `RBDelete` of any entry of a red-black tree. -/
theorem rbDelete_of (h : Stored tree R m [] t) (ht : t.Whole) {z : Cell κ ι}
    {xs ys : List (Cell κ ι)} (hz : t.toList = xs ++ z :: ys)
    (hfuel : 2 * Nat.log 2 (t.size + 1) < fuel) :
    ∃ (m' : Memory κ ι) (R' : Nat → Option (RbRedBlkNode κ ι)) (t' : ColorTree (Cell κ ι)),
      rbDelete tree fuel z.addr m = some ((), m') ∧ Stored tree R' m' [] t' ∧ t'.Whole ∧
      t'.toList = xs ++ ys ∧ (∀ a, a ≠ tree.nil → R' a = R a) ∧
      m'.destroyed = m.destroyed ++ [.key z.key, .info z.info] := by
  obtain ⟨c, red, l, r, rfl, rfl, rfl⟩ := RedBlack.exists_place_of hz
  have hheight := ht.height_le
  have hlength := RedBlack.length_add_height_le c (.node red l z r)
  simp only [ColorTree.height] at hlength
  by_cases hl : l = .nil
  · subst hl
    have hc : Stored tree R m c (join .left red .nil z r) := stored_plug.mp h
    obtain ⟨m', R', t', hrun, h', hwhole, hlist, hrest, hdes⟩ :=
      rbDelete_self hc ht (by omega : _ < fuel)
    refine ⟨m', R', t', hrun, h', hwhole, ?_, hrest, hdes⟩
    rw [hlist, RedBlack.toList_plug]
    simp [ColorTree.toList]
  · by_cases hr : r = .nil
    · subst hr
      have hc : Stored tree R m c (join .right red .nil z l) := stored_plug.mp h
      obtain ⟨m', R', t', hrun, h', hwhole, hlist, hrest, hdes⟩ :=
        rbDelete_self hc ht (by omega : _ < fuel)
      refine ⟨m', R', t', hrun, h', hwhole, ?_, hrest, hdes⟩
      rw [hlist, RedBlack.toList_plug]
      simp [ColorTree.toList]
    · exact rbDelete_next (stored_plug.mp h) hl hr ht (lt_of_le_of_lt hheight hfuel)

end Delete

end Wtools.Rbt
