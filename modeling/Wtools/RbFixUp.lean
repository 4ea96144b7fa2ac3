import Wtools.RbSearch

/-!
# Rebalancing after a deletion

The loop of `RBDeleteFixUp` on a stored tree with a place where one black node is missing.
-/

namespace Wtools.Rbt

open RedBlack (Side ColorTree Branch plug leftOf rightOf blocksRed Room)
open RedBlack.ColorTree (join)

variable {κ ι : Type} {tree : RbRedBlkTree κ ι} {R : Nat → Option (RbRedBlkNode κ ι)}
  {m : Memory κ ι}

/-- At an empty place it is `nil` that knows its parent. -/
def Anchored (tree : RbRedBlkTree κ ι) (R : Nat → Option (RbRedBlkNode κ ι))
    (c : List (Branch (Cell κ ι))) (t : ColorTree (Cell κ ι)) : Prop :=
  t = .nil → ∃ n, R tree.nil = some n ∧ n.parent = top tree c

theorem Stored.anchor {c : List (Branch (Cell κ ι))} {t : ColorTree (Cell κ ι)}
    (h : Stored tree R m c t) (ha : Anchored tree R c t) :
    ∃ n, m.node (addrOf tree t) = some n ∧ n.red = t.isRed ∧ n.parent = top tree c := by
  cases t with
  | nil =>
    obtain ⟨n, hn, hparent⟩ := ha rfl
    obtain ⟨n', hn', hblack⟩ := h.nil_black
    obtain rfl : n = n' := Option.some.inj (hn.symm.trans hn')
    exact ⟨n, h.nil_node.trans hn, hblack, hparent⟩
  | node red l v r => exact ⟨_, h.linked.1, rfl, rfl⟩

/-- The root of the tree lies above a place below it, whatever is at the place. -/
theorem exists_above (tree : RbRedBlkTree κ ι) (d : Branch (Cell κ ι))
    (c : List (Branch (Cell κ ι))) :
    ∃ w ∈ around (d :: c), ∀ t, addrOf tree (plug (d :: c) t) = w.addr := by
  induction c generalizing d with
  | nil => exact ⟨d.val, mem_around_cons.mpr (.inl rfl), fun t => by simp⟩
  | cons e c ih =>
    obtain ⟨w, hw, hroot⟩ := ih e
    exact ⟨w, mem_around_cons.mpr (.inr (.inr hw)), fun t => hroot _⟩

/-- The node at the root stays the same under a replacement further down. -/
theorem addrOf_plug (tree : RbRedBlkTree κ ι) (d : Branch (Cell κ ι))
    (c : List (Branch (Cell κ ι))) (t u : ColorTree (Cell κ ι)) :
    addrOf tree (plug (d :: c) t) = addrOf tree (plug (d :: c) u) := by
  obtain ⟨w, -, hw⟩ := exists_above tree d c
  rw [hw t, hw u]

theorem addrOf_plug_join (tree : RbRedBlkTree κ ι) (c : List (Branch (Cell κ ι))) (s r : Side)
    (red red' : Bool) (a b a' b' : ColorTree (Cell κ ι)) (v : Cell κ ι) :
    addrOf tree (plug c (join s red a v b)) = addrOf tree (plug c (join r red' a' v b')) := by
  cases c with
  | nil => simp
  | cons d c => exact addrOf_plug tree d c _ _

theorem Stored.ne_root {d : Branch (Cell κ ι)} {c : List (Branch (Cell κ ι))}
    {t : ColorTree (Cell κ ι)} (h : Stored tree R m (d :: c) t) :
    addrOf tree (plug (d :: c) t) ≠ addrOf tree t := by
  obtain ⟨w, hw, hroot⟩ := exists_above tree d c
  rw [hroot t]
  rcases addrOf_cases tree t with ht | ⟨u, hu, ht⟩
  · rw [ht]
    exact (h.distinct.special.2.2.2 w (mem_plug.mpr (.inr hw))).2.1
  · rw [← ht]
    exact (h.distinct.inside.2.2 u hu w hw).symm

/-- The address `root` belongs to the node `p` or to one above the place. -/
def RootAt (tree : RbRedBlkTree κ ι) (root p : Nat) (c : List (Branch (Cell κ ι))) : Prop :=
  root = p ∨ ∀ u, addrOf tree (plug c u) = root

section Cases
variable {c : List (Branch (Cell κ ι))} {d : Branch (Cell κ ι)} {t : ColorTree (Cell κ ι)}
  {n root : Nat}

theorem rootAt_of (h : root = addrOf tree (plug (d :: c) t)) :
    RootAt tree root d.val.addr c := by
  cases c with
  | nil => exact .inl (by rw [h]; simp)
  | cons e c => exact .inr fun u => by rw [h]; exact addrOf_plug tree e c u _

/-- After the first case the sibling of the place is black. -/
theorem blackSibling_of (h : Stored tree R m (d :: c) t) (ha : Anchored tree R (d :: c) t)
    (hroom : Room (d :: c) (n + 1)) (hroot : root = addrOf tree (plug (d :: c) t)) :
    ∃ m' d' c', blackSibling tree d.side (addrOf tree t) m = some (addrOf tree d'.sibling, m') ∧
      Stored tree R m' (d' :: c') t ∧ Room (d' :: c') (n + 1) ∧ d'.side = d.side ∧
      d'.val = d.val ∧ d'.sibling.isRed = false ∧
      (∀ u, (plug (d' :: c') u).toList = (plug (d :: c) u).toList) ∧
      (d' = d ∧ c' = c ∨ d'.red = true) ∧ RootAt tree root d.val.addr c' ∧
      m'.destroyed = m.destroyed := by
  obtain ⟨s, red, p, sib⟩ := d
  obtain ⟨xn, hxn, -, hparent⟩ := h.anchor ha
  obtain ⟨wn, hwn, hwred⟩ := h.sibling.colour
  obtain ⟨hsib, hred, hroomc⟩ := hroom
  rw [blackSibling, bind_of (read_of hxn _), hparent, top_cons, bind_of (read_of h.parent _),
    child_other_node, bind_of (read_of hwn _), hwred]
  cases hs : sib.isRed with
  | false =>
    exact ⟨m, _, c, rfl, h, ⟨hsib, hred, hroomc⟩, rfl, rfl, hs, fun _ => rfl, .inl ⟨rfl, rfl⟩,
      rootAt_of hroot, rfl⟩
  | true =>
    obtain rfl : red = false := by
      cases red with
      | false => rfl
      | true => rw [(hred rfl).1] at hs; cases hs
    obtain ⟨wred, near, w, far, rfl⟩ := RedBlack.ColorTree.exists_join s hsib.ne_nil
    rw [RedBlack.ColorTree.isRed_join] at hs
    subst hs
    obtain ⟨hnear, hfar, hnblack, hfblack⟩ := (RedBlack.ColorTree.balanced_red ..).mp hsib
    have h₀ : Stored tree R m c (join s false t p (join s true near w far)) := stored_cons.mp h
    obtain ⟨m₁, hw₁, h₁, hdes₁⟩ := paint_far h₀ false
    obtain ⟨m₂, hw₂, h₂, hdes₂⟩ := paint_of h₁ true
    obtain ⟨m₃, hrotate, h₃, hdes₃⟩ := rotate_of h₂
    have h₃' : Stored tree R m₃ (⟨s, true, p, near⟩ :: ⟨s, false, w, far⟩ :: c) t :=
      stored_cons.mpr (stored_cons.mpr h₃)
    obtain ⟨xn₃, hxn₃, -, hparent₃⟩ := h₃'.anchor ha
    refine ⟨m₃, _, _, ?_, h₃', ?_, rfl, rfl, hnblack, ?_, .inr rfl, ?_,
      hdes₃.trans (hdes₂.trans hdes₁)⟩
    · refine (congrFun (if_pos rfl) m).trans ?_
      rw [addrOf_join, bind_of hw₁, bind_of hw₂, bind_of hrotate, bind_of (read_of hxn₃ _),
        hparent₃, top_cons, read_of h₃'.parent, child_other_node]
    · exact (RedBlack.room_red ..).mpr ⟨hnear, hnblack, rfl,
        (RedBlack.room_black ..).mpr ⟨hfar, hroomc⟩⟩
    · intro u
      simp only [RedBlack.plug_cons, RedBlack.toList_plug]
      cases s <;> simp [join, ColorTree.toList]
    · rcases rootAt_of hroot with hp | hup
      · exact .inl hp
      · exact .inr fun u => hup _

/-- Both children of the node are black. -/
theorem blackChildren_of {s : Side} {red : Bool} {a b : ColorTree (Cell κ ι)} {v : Cell κ ι}
    (h : Stored tree R m c (join s red a v b)) :
    blackChildren v.addr m = some (!a.isRed && !b.isRed, m) := by
  obtain ⟨a', b', hfrom, hcolours⟩ : ∃ a' b', join s red a v b = join .left red a' v b' ∧
      (!a.isRed && !b.isRed) = (!a'.isRed && !b'.isRed) := by
    cases s with
    | left => exact ⟨a, b, rfl, rfl⟩
    | right => exact ⟨b, a, rfl, Bool.and_comm ..⟩
  rw [hfrom] at h
  rw [hcolours]
  have hleft : Stored tree R m (⟨.left, red, v, b'⟩ :: c) a' := stored_cons.mpr h
  obtain ⟨ln, hln, hlred⟩ := hleft.colour
  obtain ⟨rn, hrn, hrred⟩ := hleft.sibling.colour
  have hv := h.node
  rw [blackChildren, bind_of (read_of hv _)]
  refine (bind_of (read_of hrn _) _).trans ?_
  rw [hrred]
  cases hb : b'.isRed with
  | true => simp; rfl
  | false =>
    simp only [Bool.false_eq_true, if_false]
    rw [bind_of (read_of hv _)]
    refine (bind_of (read_of hln _) _).trans ?_
    rw [hlred, Bool.not_false, Bool.and_true]
    rfl

/-- After the third case the far child of the sibling is red. -/
theorem redFarChild_of {s : Side} {red : Bool} {p w : Cell κ ι} {near far : ColorTree (Cell κ ι)}
    (h : Stored tree R m (⟨s, red, p, join s false near w far⟩ :: c) t)
    (ha : Anchored tree R (⟨s, red, p, join s false near w far⟩ :: c) t)
    (hnear : near.Balanced n) (hfar : far.Balanced n)
    (hred : (!near.isRed && !far.isRed) = false) :
    ∃ m' e v f, redFarChild tree s (addrOf tree t) w.addr m = some (v.addr, m') ∧
      Stored tree R m' (⟨s, red, p, join s false e v f⟩ :: c) t ∧ e.Balanced n ∧
      f.Balanced n ∧ f.isRed = true ∧
      (join s false e v f).toList = (join s false near w far).toList ∧
      m'.destroyed = m.destroyed := by
  have hw : Stored tree R m (⟨s.other, red, p, t⟩ :: c) (join s false near w far) := h.sibling
  have hfar' : Stored tree R m (⟨s.other, false, w, near⟩ :: ⟨s.other, red, p, t⟩ :: c) far :=
    (stored_cons.mpr hw : Stored tree R m (⟨s, false, w, far⟩ :: _) near).sibling
  obtain ⟨fn, hfn, hfred⟩ := hfar'.colour
  rw [redFarChild, bind_of (read_of hw.node _), child_other_node, bind_of (read_of hfn _), hfred]
  cases hf : far.isRed with
  | true => exact ⟨m, near, w, far, rfl, h, hnear, hfar, hf, rfl, rfl⟩
  | false =>
    have hn : near.isRed = true := by simpa [hf] using hred
    have hne : near ≠ .nil := by
      rintro rfl
      simp [ColorTree.isRed] at hn
    obtain ⟨nred, e, v, b, rfl⟩ := RedBlack.ColorTree.exists_join s hne
    rw [RedBlack.ColorTree.isRed_join] at hn
    subst hn
    obtain ⟨he, hb, -, hbr⟩ := (RedBlack.ColorTree.balanced_red ..).mp hnear
    obtain ⟨m₁, hw₁, h₁, hdes₁⟩ := paint_near hw false
    obtain ⟨m₂, hw₂, h₂, hdes₂⟩ := paint_of h₁ true
    rw [← RedBlack.ColorTree.join_other, ← RedBlack.ColorTree.join_other s false] at h₂
    obtain ⟨m₃, hrotate, h₃, hdes₃⟩ := rotate_of h₂
    rw [RedBlack.ColorTree.join_other, RedBlack.ColorTree.join_other] at h₃
    have h₃' : Stored tree R m₃ (⟨s, red, p, join s false e v (join s true b w far)⟩ :: c) t := by
      simpa using h₃.sibling
    obtain ⟨xn, hxn, -, hparent⟩ := h₃'.anchor ha
    refine ⟨m₃, e, v, join s true b w far, ?_, h₃', he,
      (RedBlack.ColorTree.balanced_red ..).mpr ⟨hb, hfar, hbr, hf⟩, by simp, ?_,
      hdes₃.trans (hdes₂.trans hdes₁)⟩
    · refine (congrFun (if_neg Bool.false_ne_true) m).trans ?_
      rw [bind_of (read_of hw.node _), child_node, addrOf_join, bind_of hw₁, bind_of hw₂,
        bind_of hrotate, bind_of (read_of hxn _), hparent, top_cons, read_of h₃'.parent,
        child_other_node, addrOf_join]
    · cases s <;> simp [join, ColorTree.toList]

/-- The last case: the missing black node is made up for. -/
theorem turnFarChild_of {s : Side} {red : Bool} {p w : Cell κ ι} {e f : ColorTree (Cell κ ι)}
    (h : Stored tree R m (⟨s, red, p, join s false e w f⟩ :: c) t)
    (ha : Anchored tree R (⟨s, red, p, join s false e w f⟩ :: c) t) (hf : f.isRed = true) :
    ∃ m', turnFarChild tree s (addrOf tree t) w.addr m = some ((), m') ∧
      Stored tree R m' c (join s red (join s false t p e) w (f.paint false)) ∧
      m'.destroyed = m.destroyed := by
  obtain ⟨xn, hxn, -, hparent⟩ := h.anchor ha
  have hne : f ≠ .nil := by
    rintro rfl
    simp [ColorTree.isRed] at hf
  obtain ⟨fred, a, v, b, rfl⟩ := RedBlack.ColorTree.exists_join s hne
  obtain ⟨m₁, hw₁, h₁, hdes₁⟩ := paint_far (stored_cons.mp h) red
  obtain ⟨m₂, hw₂, h₂, hdes₂⟩ := paint_of h₁ false
  have h₂' : Stored tree R m₂ (⟨s.other, false, p, t⟩ :: c)
      (join s red e w (join s fred a v b)) :=
    (stored_cons.mpr h₂ : Stored tree R m₂ (⟨s, false, p, _⟩ :: c) t).sibling
  obtain ⟨m₃, hw₃, h₃, hdes₃⟩ := paint_far h₂' false
  have h₃' : Stored tree R m₃ c (join s false t p (join s red e w (join s false a v b))) := by
    rw [← RedBlack.ColorTree.join_other]
    exact stored_cons.mp h₃
  obtain ⟨m₄, hrotate, h₄, hdes₄⟩ := rotate_of h₃'
  refine ⟨m₄, ?_, by simpa using h₄, hdes₄.trans (hdes₃.trans (hdes₂.trans hdes₁))⟩
  rw [turnFarChild, bind_of (read_of hxn _), hparent, top_cons, bind_of (read_of h.parent _),
    node_red, bind_of hw₁, bind_of hw₂, bind_of (read_of h₂'.node _), child_other_node, addrOf_join,
    bind_of hw₃, hrotate]

end Cases

/-- The tree is one black node short of the height `n + 1`, which its root makes up for if it
is red. -/
def Short (t : ColorTree (Cell κ ι)) (n : Nat) : Prop :=
  if t.isRed then (t.paint false).Balanced (n + 1) else t.Balanced n

theorem short_red {t : ColorTree (Cell κ ι)} {n : Nat} (ht : t.isRed = true) :
    Short t n ↔ (t.paint false).Balanced (n + 1) := by
  rw [Short, if_pos ht]

theorem short_black {t : ColorTree (Cell κ ι)} {n : Nat} (ht : t.isRed = false) :
    Short t n ↔ t.Balanced n := by
  rw [Short, ht, if_neg Bool.false_ne_true]

/-- Painting what is at the place black, even if that is `nil`. -/
theorem blacken_of {c : List (Branch (Cell κ ι))} {t : ColorTree (Cell κ ι)}
    (h : Stored tree R m c t) :
    ∃ m', write (addrOf tree t) ({ · with red := false }) m = some ((), m') ∧
      Stored tree R m' c (t.paint false) ∧ m'.destroyed = m.destroyed := by
  cases t with
  | nil =>
    obtain ⟨n, hn, hblack⟩ := h.nil_black
    have hnil := h.nil_node.trans hn
    refine ⟨m, ?_, h, rfl⟩
    rw [addrOf_nil, write_of hnil]
    have hsame : m.put tree.nil (some { n with red := false }) = m := by
      rw [← hblack, Memory.put, ← hnil, Function.update_eq_self]
    rw [hsame]
  | node red l v r =>
    have hv : Stored tree R m c (join .left red l v r) := h
    exact paint_of hv false

/-- At the root of the tree the loop stops. -/
theorem deleteFixUp_root {root fuel : Nat} {rn : RbRedBlkNode κ ι} (h : m.node root = some rn) :
    deleteFixUp tree root (fuel + 1) root m = some (root, m) := by
  rw [deleteFixUp, bind_of (read_of h _)]
  cases rn.red with
  | true => rfl
  | false => exact congrFun (if_pos rfl) m

/-- The last iteration ends at the root, wherever it is. -/
theorem deleteFixUp_last {root fuel : Nat} {c : List (Branch (Cell κ ι))} {s : Side}
    {red : Bool} {p w : Cell κ ι} {t e f : ColorTree (Cell κ ι)}
    (h : Stored tree R m c (join s red (join s false t p e) w f))
    (hroot : RootAt tree root p.addr c)
    (hwhole : (plug c (join s red (join s false t p e) w f)).Whole) :
    ∃ c' t', deleteFixUp tree root (fuel + 1) root m = some (addrOf tree t', m) ∧
      Stored tree R m c' t' ∧ (plug c' (t'.paint false)).Whole ∧
      plug c' t' = plug c (join s red (join s false t p e) w f) := by
  rcases hroot with rfl | hup
  · have hp : Stored tree R m (⟨s, red, w, f⟩ :: c) (join s false t p e) := stored_cons.mpr h
    exact ⟨⟨s, red, w, f⟩ :: c, join s false t p e,
      by rw [addrOf_join, deleteFixUp_root hp.node], hp, by rwa [RedBlack.ColorTree.paint_join],
      rfl⟩
  · have hall : Stored tree R m [] (plug c (join s red (join s false t p e) w f)) :=
      stored_plug.mpr h
    obtain ⟨rn, hrn, -⟩ := hall.colour
    refine ⟨[], plug c (join s red (join s false t p e) w f), ?_, hall, ?_, rfl⟩
    · rw [hup] at hrn ⊢
      exact deleteFixUp_root hrn
    · rwa [RedBlack.plug_nil, RedBlack.ColorTree.paint_eq_self hwhole.1]

section Heights
variable {s : Side} {red : Bool} {p v w : Cell κ ι} {t near far e f : ColorTree (Cell κ ι)}
  {c : List (Branch (Cell κ ι))} {n : Nat}

/-- With its sibling reddened the place is balanced, and the black node is missing one level up. -/
theorem short_reddened (hroom : Room c (if red then n + 1 else n + 2)) (ht : t.Balanced n)
    (hnear : near.Balanced n) (hfar : far.Balanced n) (hnblack : near.isRed = false)
    (hfblack : far.isRed = false) :
    ∃ k, Room c (k + 1) ∧ Short (join s red t p (join s true near w far)) k := by
  have hsib : (join s true near w far).Balanced n :=
    (RedBlack.ColorTree.balanced_red ..).mpr ⟨hnear, hfar, hnblack, hfblack⟩
  cases red with
  | true => exact ⟨n, hroom, (short_red (by simp)).mpr (by simp [ht, hsib])⟩
  | false => exact ⟨n + 1, hroom, (short_black (by simp)).mpr (by simp [ht, hsib])⟩

/-- With its red far child turned up the tree is as high as it was. -/
theorem whole_turned (hroom : Room c (if red then n + 1 else n + 2))
    (hred : red = true → blocksRed c = false) (ht : t.Balanced n) (he : e.Balanced n)
    (hf : f.Balanced n) (hfred : f.isRed = true) :
    (plug c (join s red (join s false t p e) v (f.paint false))).Whole := by
  have hp : (join s false t p e).Balanced (n + 1) :=
    (RedBlack.ColorTree.balanced_black_succ ..).mpr ⟨ht, he⟩
  have hf' : (f.paint false).Balanced (n + 1) := hf.paint_red hfred
  rw [RedBlack.whole_plug]
  cases red with
  | true => exact ⟨n + 1, hroom, by simp [hp, hf'], fun _ => hred rfl⟩
  | false => exact ⟨n + 2, hroom, by simp [hp, hf'], by simp⟩

theorem toList_turned
    (hlist : (join s false e v f).toList = (join s false near w far).toList) :
    (join s red (join s false t p e) v (f.paint false)).toList =
      (join s red t p (join s false near w far)).toList := by
  have hturned : (join s red (join s false t p e) v (f.paint false)).toList =
      (join s red t p (join s false e v f)).toList := by
    cases s <;> simp [join, ColorTree.toList]
  rw [hturned]
  cases s with
  | left => exact congrArg (t.toList ++ p :: ·) hlist
  | right => exact congrArg (· ++ p :: t.toList) hlist

end Heights

/-- The loop ends at a node that has to be black for the tree to be a red-black tree again. -/
theorem deleteFixUp_of {root fuel n : Nat} {c : List (Branch (Cell κ ι))}
    {t : ColorTree (Cell κ ι)} (h : Stored tree R m c t) (ha : Anchored tree R c t)
    (hroom : Room c (n + 1)) (hshort : Short t n)
    (hroot : t.isRed = false → root = addrOf tree (plug c t))
    (hfuel : (if t.isRed then 0 else c.length + 1) < fuel) :
    ∃ m' c' t', deleteFixUp tree root fuel (addrOf tree t) m = some (addrOf tree t', m') ∧
      Stored tree R m' c' t' ∧ (plug c' (t'.paint false)).Whole ∧
      (plug c' t').toList = (plug c t).toList ∧ m'.destroyed = m.destroyed := by
  induction fuel generalizing m c t n with
  | zero => omega
  | succ fuel ih =>
    obtain ⟨xn, hxn, hxred, hparent⟩ := h.anchor ha
    rw [deleteFixUp, bind_of (read_of hxn _), hxred]
    cases ht : t.isRed with
    | true =>
      refine ⟨m, c, t, rfl, h, ?_, rfl, rfl⟩
      exact hroom.plug_whole ((short_red ht).mp hshort) (by simp)
    | false =>
      have hbal := (short_black ht).mp hshort
      have hroot' := hroot ht
      simp only [Bool.false_eq_true, if_false, ht] at hfuel ⊢
      cases c with
      | nil =>
        refine ⟨m, [], t, congrFun (if_pos hroot') m, h, ?_, rfl, rfl⟩
        rw [RedBlack.plug_nil]
        exact hbal.whole
      | cons d c =>
        obtain ⟨m₁, ⟨s, red, p, sib⟩, c₁, hsibling, h₁, hroom₁, hside, hval, hblack, hlist₁, hcase,
          hat, hdes₁⟩ := blackSibling_of h ha hroom hroot'
        obtain ⟨hsib, hredp, hroomc⟩ := hroom₁
        obtain ⟨wred, near, w, far, rfl⟩ := RedBlack.ColorTree.exists_join s hsib.ne_nil
        rw [RedBlack.ColorTree.isRed_join] at hblack
        subst hblack
        obtain ⟨hnear, hfar⟩ := (RedBlack.ColorTree.balanced_black_succ ..).mp hsib
        rw [if_neg fun he => h.ne_root (hroot'.symm.trans he), bind_of (read_of hxn _), hparent,
          top_cons, bind_of (read_of h.parent _),
          side_of _ _ _ _ _ _ (h.ne_sibling hroom.1.ne_nil), bind_of hsibling]
        have hw : Stored tree R m₁ (⟨s.other, red, p, t⟩ :: c₁) (join s false near w far) :=
          h₁.sibling
        have ha₁ : ∀ u, Anchored tree R (⟨s, red, p, u⟩ :: c₁) t := by
          intro u hnil
          obtain ⟨xn, hxn, hparent⟩ := ha hnil
          exact ⟨xn, hxn, hparent.trans (congrArg Cell.addr hval).symm⟩
        rw [addrOf_join, bind_of (blackChildren_of hw)]
        cases hchildren : (!near.isRed && !far.isRed) with
        | true =>
          obtain ⟨hnblack, hfblack⟩ : near.isRed = false ∧ far.isRed = false := by
            simpa using hchildren
          obtain ⟨m₂, hpaint, hw₂, hdes₂⟩ := paint_of hw true
          have h₂ : Stored tree R m₂ (⟨s, red, p, join s true near w far⟩ :: c₁) t := by
            simpa using hw₂.sibling
          obtain ⟨xn₂, hxn₂, -, hparent₂⟩ := h₂.anchor (ha₁ _)
          obtain ⟨k, hroom₂, hshort₂⟩ : ∃ k, Room c₁ (k + 1) ∧
              Short (join s red t p (join s true near w far)) k :=
            short_reddened hroomc hbal hnear hfar hnblack hfblack
          have hroot₂ : (join s red t p (join s true near w far)).isRed = false →
              root = addrOf tree (plug c₁ (join s red t p (join s true near w far))) := by
            intro hblack
            rw [RedBlack.ColorTree.isRed_join] at hblack
            rcases hcase with ⟨rfl, rfl⟩ | hred
            · exact hroot'.trans (addrOf_plug_join ..)
            · rw [hblack] at hred
              cases hred
          have hfuel₂ : (if (join s red t p (join s true near w far)).isRed then 0
              else c₁.length + 1) < fuel := by
            rw [RedBlack.ColorTree.isRed_join]
            simp only [List.length_cons] at hfuel
            rcases hcase with ⟨-, rfl⟩ | hred
            · split <;> omega
            · rw [show red = true from hred, if_pos rfl]
              omega
          obtain ⟨m', c', t', hloop, h', hwhole, hlist, hdes⟩ := ih (stored_cons.mp h₂)
            (by intro hnil; cases s <;> cases hnil) hroom₂ hshort₂ hroot₂ hfuel₂
          refine ⟨m', c', t', ?_, h', hwhole, ?_, hdes.trans (hdes₂.trans hdes₁)⟩
          · refine (congrFun (if_pos rfl) m₁).trans ?_
            rw [bind_of hpaint, bind_of (read_of hxn₂ _), hparent₂, top_cons]
            rwa [addrOf_join] at hloop
          · rw [hlist, ← hlist₁ t]
            simp only [RedBlack.plug_cons, RedBlack.toList_plug]
            cases s <;> simp [join, ColorTree.toList]
        | false =>
          obtain ⟨m₂, e, v, f, hfar₂, h₂, he, hf, hfred, hlist₂, hdes₂⟩ :=
            redFarChild_of h₁ (ha₁ _) hnear hfar hchildren
          obtain ⟨m₃, hturn, h₃, hdes₃⟩ := turnFarChild_of h₂ (ha₁ _) hfred
          have hwhole : (plug c₁ (join s red (join s false t p e) v (f.paint false))).Whole :=
            whole_turned hroomc (fun hred => (hredp hred).2) hbal he hf hfred
          obtain ⟨k, rfl⟩ : ∃ k, fuel = k + 1 := ⟨fuel - 1, by omega⟩
          rw [← show p.addr = d.val.addr from congrArg Cell.addr hval] at hat
          obtain ⟨c', t', hloop, h', hwhole', hplug⟩ := deleteFixUp_last h₃ hat hwhole
          refine ⟨m₃, c', t', ?_, h', hwhole', ?_, hdes₃.trans (hdes₂.trans hdes₁)⟩
          · refine (congrFun (if_neg Bool.false_ne_true) m₁).trans ?_
            rw [← hside, bind_of hfar₂, bind_of hturn]
            exact hloop
          · rw [hplug, ← hlist₁ t, RedBlack.plug_cons, RedBlack.toList_plug, RedBlack.toList_plug,
              toList_turned hlist₂]

/-- `RBDeleteFixUp` on a tree with a place where one black node is missing. -/
theorem rbDeleteFixUp_of {fuel n : Nat} {c : List (Branch (Cell κ ι))}
    {t : ColorTree (Cell κ ι)} (h : Stored tree R m c t) (ha : Anchored tree R c t)
    (hroom : Room c (n + 1)) (hshort : Short t n) (hfuel : c.length + 1 < fuel) :
    ∃ m' t', rbDeleteFixUp tree fuel (addrOf tree t) m = some ((), m') ∧
      Stored tree R m' [] t' ∧ t'.Whole ∧ t'.toList = (plug c t).toList ∧
      m'.destroyed = m.destroyed := by
  obtain ⟨rn, hrn, -, hleft, -⟩ := (stored_plug.mpr h).hangs
  obtain ⟨m₁, c', t', hloop, h₁, hwhole, hlist, hdes₁⟩ :=
    deleteFixUp_of h ha hroom hshort (fun _ => rfl) (by split <;> omega : _ < fuel)
  obtain ⟨m₂, hpaint, h₂, hdes₂⟩ := blacken_of h₁
  refine ⟨m₂, plug c' (t'.paint false), ?_, stored_plug.mpr h₂, hwhole, ?_, hdes₂.trans hdes₁⟩
  · rw [rbDeleteFixUp, bind_of (read_of hrn _), hleft, bind_of hloop, bind_of hpaint]
    exact h₂.assertBlack
  · rw [← hlist, RedBlack.toList_plug, RedBlack.toList_plug, RedBlack.ColorTree.toList_paint]

end Wtools.Rbt
