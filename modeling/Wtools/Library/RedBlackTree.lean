import Mathlib.Algebra.Group.Nat.Defs
import Mathlib.Data.List.Basic
import Mathlib.Data.Nat.Log

/-!
# Red-black trees

Binary trees with coloured nodes, and the places in them: a place is the list of the branches
above it, the nearest first. A tree is red-black if its root is black, no red node has a red
child and every path down crosses as many black nodes. `Room` says the same of the branches
above a place that waits for a tree of a given black height.
-/

universe u

namespace RedBlack

inductive Side where
  | left | right
  deriving DecidableEq, Repr

def Side.other : Side → Side
  | left => right
  | right => left

@[simp] theorem Side.other_other (s : Side) : s.other.other = s := by
  cases s <;> rfl

@[simp] theorem Side.other_ne (s : Side) : s.other ≠ s := by
  cases s <;> decide

@[simp] theorem Side.ne_other (s : Side) : s ≠ s.other := s.other_ne.symm

theorem Side.eq_or_other (s r : Side) : r = s ∨ r = s.other := by
  cases s <;> cases r <;> decide

inductive ColorTree (α : Type u) where
  | nil
  | node (red : Bool) (l : ColorTree α) (val : α) (r : ColorTree α)
  deriving DecidableEq, Repr

/-- One branching on the way down to a place: the side of the place, and the tree on the
other side. -/
structure Branch (α : Type u) where
  side : Side
  red : Bool
  val : α
  sibling : ColorTree α

variable {α : Type u}

namespace ColorTree

/-- A node by its child on the side `s` and the one on the other side. -/
def join (s : Side) (red : Bool) (near : ColorTree α) (v : α) (far : ColorTree α) : ColorTree α :=
  match s with
  | .left => node red near v far
  | .right => node red far v near

def toList : ColorTree α → List α
  | nil => []
  | node _ l v r => l.toList ++ v :: r.toList

/-- Both subtrees before the root. -/
def postOrder : ColorTree α → List α
  | nil => []
  | node _ l v r => l.postOrder ++ (r.postOrder ++ [v])

def size : ColorTree α → Nat
  | nil => 0
  | node _ l _ r => l.size + r.size + 1

def height : ColorTree α → Nat
  | nil => 0
  | node _ l _ r => max l.height r.height + 1

def isRed : ColorTree α → Bool
  | nil => false
  | node red _ _ _ => red

/-- The tree with its root recoloured. -/
def paint (red : Bool) : ColorTree α → ColorTree α
  | nil => nil
  | node _ l v r => node red l v r

/-- No red node has a red child, and every path to an empty tree crosses `n` black nodes. -/
def Balanced : ColorTree α → Nat → Prop
  | nil, n => n = 0
  | node true l _ r, n => l.Balanced n ∧ r.Balanced n ∧ l.isRed = false ∧ r.isRed = false
  | node false l _ r, n => ∃ m, n = m + 1 ∧ l.Balanced m ∧ r.Balanced m

/-- A red-black tree. -/
def Whole (t : ColorTree α) : Prop := t.isRed = false ∧ ∃ n, t.Balanced n

theorem join_other (s : Side) (red : Bool) (a : ColorTree α) (v : α) (b : ColorTree α) :
    join s.other red a v b = join s red b v a := by
  cases s <;> rfl

theorem exists_join (s : Side) {t : ColorTree α} (ht : t ≠ nil) :
    ∃ red a v b, t = join s red a v b := by
  cases t with
  | nil => exact absurd rfl ht
  | node red l v r =>
    cases s with
    | left => exact ⟨red, l, v, r, rfl⟩
    | right => exact ⟨red, r, v, l, rfl⟩

/-- A node seen from the other side. -/
theorem join_from (s r : Side) (red : Bool) (a : ColorTree α) (v : α) (b : ColorTree α) :
    ∃ a' b', join s red a v b = join r red a' v b' := by
  rcases r.eq_or_other s with rfl | rfl
  · exact ⟨a, b, rfl⟩
  · exact ⟨b, a, join_other r red a v b⟩

@[simp] theorem isRed_join (s : Side) (red : Bool) (a : ColorTree α) (v : α) (b : ColorTree α) :
    (join s red a v b).isRed = red := by
  cases s <;> rfl

@[simp] theorem paint_join (s : Side) (red c : Bool) (a : ColorTree α) (v : α) (b : ColorTree α) :
    (join s red a v b).paint c = join s c a v b := by
  cases s <;> rfl

@[simp] theorem size_join (s : Side) (red : Bool) (a : ColorTree α) (v : α) (b : ColorTree α) :
    (join s red a v b).size = a.size + b.size + 1 := by
  cases s <;> simp [join, size, Nat.add_comm]

@[simp] theorem height_join (s : Side) (red : Bool) (a : ColorTree α) (v : α) (b : ColorTree α) :
    (join s red a v b).height = max a.height b.height + 1 := by
  cases s <;> simp [join, height, max_comm]

@[simp] theorem balanced_nil (n : Nat) : (nil : ColorTree α).Balanced n ↔ n = 0 := Iff.rfl

@[simp] theorem balanced_red (s : Side) (a : ColorTree α) (v : α) (b : ColorTree α) (n : Nat) :
    (join s true a v b).Balanced n ↔
      a.Balanced n ∧ b.Balanced n ∧ a.isRed = false ∧ b.isRed = false := by
  cases s
  · rfl
  · simp only [join, Balanced]
    tauto

theorem balanced_black (s : Side) (a : ColorTree α) (v : α) (b : ColorTree α) (n : Nat) :
    (join s false a v b).Balanced n ↔ ∃ m, n = m + 1 ∧ a.Balanced m ∧ b.Balanced m := by
  cases s
  · rfl
  · simp only [join, Balanced, and_comm]

@[simp] theorem balanced_black_succ (s : Side) (a : ColorTree α) (v : α) (b : ColorTree α) (n : Nat) :
    (join s false a v b).Balanced (n + 1) ↔ a.Balanced n ∧ b.Balanced n := by
  rw [balanced_black]
  constructor
  · rintro ⟨m, hm, ha, hb⟩
    obtain rfl : n = m := by omega
    exact ⟨ha, hb⟩
  · exact fun ⟨ha, hb⟩ => ⟨n, rfl, ha, hb⟩

@[simp] theorem isRed_paint_false (t : ColorTree α) : (t.paint false).isRed = false := by
  cases t <;> rfl

@[simp] theorem toList_paint (t : ColorTree α) (c : Bool) : (t.paint c).toList = t.toList := by
  cases t <;> rfl

@[simp] theorem paint_nil (c : Bool) : (nil : ColorTree α).paint c = nil := rfl

theorem paint_eq_self {t : ColorTree α} (ht : t.isRed = false) : t.paint false = t := by
  cases t with
  | nil => rfl
  | node red l v r => rw [show red = false from ht]; rfl

theorem length_toList (t : ColorTree α) : t.toList.length = t.size := by
  induction t with
  | nil => rfl
  | node red l v r ihl ihr =>
    simp only [toList, List.length_append, List.length_cons, ihl, ihr, size]
    omega

theorem postOrder_perm (t : ColorTree α) : t.postOrder.Perm t.toList := by
  induction t with
  | nil => exact .refl _
  | node red l v r ihl ihr =>
    exact ihl.append ((List.perm_append_singleton v r.postOrder).trans (ihr.cons v))

/-- A root painted black adds at most one to the black height. -/
theorem Balanced.paint_black {t : ColorTree α} {n : Nat} (ht : t.Balanced n) :
    ∃ m, (t.paint false).Balanced m := by
  cases t with
  | nil => exact ⟨n, ht⟩
  | node red l v r =>
    cases red with
    | false => exact ⟨n, ht⟩
    | true => exact ⟨n + 1, n, rfl, ht.1, ht.2.1⟩

theorem Balanced.paint_red {t : ColorTree α} {n : Nat} (ht : t.Balanced n) (hr : t.isRed = true) :
    (t.paint false).Balanced (n + 1) := by
  cases t with
  | nil => cases hr
  | node red l v r =>
    obtain rfl : red = true := hr
    exact ⟨n, rfl, ht.1, ht.2.1⟩

theorem Balanced.whole {t : ColorTree α} {n : Nat} (ht : t.Balanced n) : (t.paint false).Whole :=
  ⟨t.isRed_paint_false, ht.paint_black⟩

theorem Balanced.ne_nil {t : ColorTree α} {n : Nat} (ht : t.Balanced (n + 1)) : t ≠ nil := by
  intro h
  subst h
  exact Nat.succ_ne_zero n ht

/-- A red tree of black height zero has no subtrees, and neither has an empty one. -/
theorem Balanced.eq_nil {t : ColorTree α} (ht : t.Balanced 0) (hr : t.isRed = false) : t = nil := by
  cases t with
  | nil => rfl
  | node red l v r =>
    obtain rfl : red = false := hr
    obtain ⟨m, hm, -⟩ := ht
    omega

theorem Balanced.height_le {t : ColorTree α} {n : Nat} (ht : t.Balanced n) :
    t.height ≤ 2 * n + if t.isRed then 1 else 0 := by
  induction t generalizing n with
  | nil => simp [height]
  | node red l v r ihl ihr =>
    cases red with
    | true =>
      obtain ⟨hl, hr, hlr, hrr⟩ := ht
      have hl' := ihl hl
      have hr' := ihr hr
      simp only [hlr, hrr, Bool.false_eq_true, if_false] at hl' hr'
      simp only [height, isRed, if_true]
      omega
    | false =>
      obtain ⟨m, rfl, hl, hr⟩ := ht
      have hl' := ihl hl
      have hr' := ihr hr
      have hle : (if l.isRed then 1 else 0 : Nat) ≤ 1 := by split <;> omega
      have hre : (if r.isRed then 1 else 0 : Nat) ≤ 1 := by split <;> omega
      simp only [height]
      omega

theorem Balanced.two_pow_le {t : ColorTree α} {n : Nat} (ht : t.Balanced n) : 2 ^ n ≤ t.size + 1 := by
  induction t generalizing n with
  | nil =>
    obtain rfl : n = 0 := ht
    exact Nat.le_refl 1
  | node red l v r ihl ihr =>
    cases red with
    | true =>
      have hl := ihl ht.1
      simp only [size]
      omega
    | false =>
      obtain ⟨m, rfl, hl, hr⟩ := ht
      have hl' := ihl hl
      have hr' := ihr hr
      simp only [size, Nat.pow_succ]
      omega

/-- The height of a red-black tree is logarithmic in its size. -/
theorem Whole.height_le {t : ColorTree α} (ht : t.Whole) : t.height ≤ 2 * Nat.log 2 (t.size + 1) := by
  obtain ⟨hblack, n, hn⟩ := ht
  have hheight := hn.height_le
  have hlog := Nat.le_log_of_pow_le (by omega) hn.two_pow_le
  simp only [hblack, Bool.false_eq_true, if_false] at hheight
  omega

end ColorTree

open RedBlack.ColorTree

/-- The tree with `t` at the place `c`. -/
def plug : List (Branch α) → ColorTree α → ColorTree α
  | [], t => t
  | b :: c, t => plug c (join b.side b.red t b.val b.sibling)

/-- What a tree lists before the place. -/
def leftOf : List (Branch α) → List α
  | [] => []
  | b :: c => match b.side with
    | .left => leftOf c
    | .right => leftOf c ++ (b.sibling.toList ++ [b.val])

/-- What a tree lists after the place. -/
def rightOf : List (Branch α) → List α
  | [] => []
  | b :: c => match b.side with
    | .left => b.val :: (b.sibling.toList ++ rightOf c)
    | .right => rightOf c

/-- What a tree lists on one side of the place. -/
def beside : Side → List (Branch α) → List α
  | .left => leftOf
  | .right => rightOf

@[simp] theorem plug_nil (t : ColorTree α) : plug [] t = t := rfl

@[simp] theorem plug_cons (b : Branch α) (c : List (Branch α)) (t : ColorTree α) :
    plug (b :: c) t = plug c (join b.side b.red t b.val b.sibling) := rfl

theorem toList_plug (c : List (Branch α)) (t : ColorTree α) :
    (plug c t).toList = leftOf c ++ t.toList ++ rightOf c := by
  induction c generalizing t with
  | nil => simp [leftOf, rightOf]
  | cons b c ih =>
    obtain ⟨s, red, v, sib⟩ := b
    rw [plug_cons, ih]
    cases s <;> simp [leftOf, rightOf, join, toList]

/-- Going down on one side adds nothing there. -/
@[simp] theorem beside_cons (s : Side) (red : Bool) (v : α) (t : ColorTree α)
    (c : List (Branch α)) : beside s (⟨s, red, v, t⟩ :: c) = beside s c := by
  cases s <;> rfl

theorem length_add_height_le (c : List (Branch α)) (t : ColorTree α) :
    c.length + t.height ≤ (plug c t).height := by
  induction c generalizing t with
  | nil => simp
  | cons b c ih =>
    have h := ih (join b.side b.red t b.val b.sibling)
    simp only [height_join] at h
    simp only [List.length_cons, plug_cons]
    omega

/-- A red tree does not fit at the place. -/
def blocksRed : List (Branch α) → Bool
  | [] => true
  | b :: _ => b.red

/-- The place waits for a tree of black height `n`. -/
def Room : List (Branch α) → Nat → Prop
  | [], _ => True
  | b :: c, n => b.sibling.Balanced n ∧
      (b.red = true → b.sibling.isRed = false ∧ blocksRed c = false) ∧
      Room c (if b.red then n else n + 1)

@[simp] theorem room_red (s : Side) (v : α) (t : ColorTree α) (c : List (Branch α)) (n : Nat) :
    Room (⟨s, true, v, t⟩ :: c) n ↔
      t.Balanced n ∧ t.isRed = false ∧ blocksRed c = false ∧ Room c n := by
  simp [Room, and_assoc]

@[simp] theorem room_black (s : Side) (v : α) (t : ColorTree α) (c : List (Branch α)) (n : Nat) :
    Room (⟨s, false, v, t⟩ :: c) n ↔ t.Balanced n ∧ Room c (n + 1) := by
  simp [Room]

theorem whole_plug (c : List (Branch α)) (t : ColorTree α) :
    (plug c t).Whole ↔
      ∃ n, Room c n ∧ t.Balanced n ∧ (t.isRed = true → blocksRed c = false) := by
  induction c generalizing t with
  | nil =>
    simp only [plug_nil, Whole, Room, blocksRed, true_and, Bool.true_eq_false, imp_false,
      Bool.not_eq_true]
    exact ⟨fun ⟨hr, n, hn⟩ => ⟨n, hn, hr⟩, fun ⟨n, hn, hr⟩ => ⟨hr, n, hn⟩⟩
  | cons b c ih =>
    obtain ⟨s, red, v, sib⟩ := b
    rw [plug_cons, ih]
    cases red with
    | true =>
      simp only [balanced_red, isRed_join, room_red, blocksRed, Bool.true_eq_false, imp_false,
        Bool.not_eq_true, forall_const]
      exact ⟨fun ⟨n, hc, ⟨ht, hs, htr, hsr⟩, hb⟩ => ⟨n, ⟨hs, hsr, hb, hc⟩, ht, htr⟩,
        fun ⟨n, ⟨hs, hsr, hb, hc⟩, ht, htr⟩ => ⟨n, hc, ⟨ht, hs, htr, hsr⟩, hb⟩⟩
    | false =>
      simp only [isRed_join, room_black, blocksRed, implies_true, and_true]
      constructor
      · rintro ⟨n, hc, hj, -⟩
        obtain ⟨m, rfl, ht, hs⟩ := (balanced_black s t v sib n).mp hj
        exact ⟨m, ⟨hs, hc⟩, ht⟩
      · rintro ⟨n, ⟨hs, hc⟩, ht⟩
        exact ⟨n + 1, hc, (balanced_black_succ s t v sib n).mpr ⟨ht, hs⟩, by simp⟩

/-- Being a red-black tree is no matter of the elements. -/
theorem whole_plug_join (c : List (Branch α)) (s : Side) (red : Bool) (a b : ColorTree α)
    (v w : α) : (plug c (join s red a v b)).Whole ↔ (plug c (join s red a w b)).Whole := by
  rw [whole_plug, whole_plug]
  cases red <;> simp [balanced_black]

/-- A black tree of the right height fits. -/
theorem Room.plug_whole {c : List (Branch α)} {n : Nat} (hc : Room c n) {t : ColorTree α}
    (ht : t.Balanced n) (hr : t.isRed = false) : (plug c t).Whole :=
  (whole_plug c t).mpr ⟨n, hc, ht, by simp [hr]⟩

/-- The place of an element by what the tree lists before and after it. -/
theorem exists_place_of {t : ColorTree α} {v : α} {xs ys : List α}
    (h : t.toList = xs ++ v :: ys) :
    ∃ c red l r, t = plug c (node red l v r) ∧ xs = leftOf c ++ l.toList ∧
      ys = r.toList ++ rightOf c := by
  suffices hs : ∀ c₀ : List (Branch α), ∃ c red l r, plug c₀ t = plug c (node red l v r) ∧
      leftOf c₀ ++ xs = leftOf c ++ l.toList ∧ ys ++ rightOf c₀ = r.toList ++ rightOf c by
    obtain ⟨c, red, l, r, hplug, hxs, hys⟩ := hs []
    exact ⟨c, red, l, r, hplug, hxs, by simpa [rightOf] using hys⟩
  induction t generalizing xs ys with
  | nil => simp [toList] at h
  | node red l w r ihl ihr =>
    intro c₀
    rcases List.append_eq_append_iff.mp h with ⟨zs, hxs, hcons⟩ | ⟨zs, hl, hcons⟩
    · cases zs with
      | nil =>
        obtain ⟨rfl, rfl⟩ := List.cons.inj hcons
        exact ⟨c₀, red, l, r, rfl, by rw [hxs, List.append_nil], rfl⟩
      | cons u zs =>
        obtain ⟨rfl, hr⟩ := List.cons.inj hcons
        obtain ⟨c, red', l', r', hplug, hleft, hright⟩ := ihr hr (⟨.right, red, w, l⟩ :: c₀)
        refine ⟨c, red', l', r', hplug, ?_, hright⟩
        rw [← hleft, hxs]
        simp [leftOf]
    · cases zs with
      | nil =>
        obtain ⟨rfl, rfl⟩ := List.cons.inj hcons
        exact ⟨c₀, red, l, r, rfl, by rw [hl, List.append_nil], rfl⟩
      | cons u zs =>
        obtain ⟨rfl, hys⟩ := List.cons.inj hcons
        obtain ⟨c, red', l', r', hplug, hleft, hright⟩ := ihl hl (⟨.left, red, w, r⟩ :: c₀)
        refine ⟨c, red', l', r', hplug, hleft, ?_⟩
        rw [← hright, hys]
        simp [rightOf]

/-- Every element of a tree has its place. -/
theorem exists_place {t : ColorTree α} {v : α} (hv : v ∈ t.toList) :
    ∃ c red l r, t = plug c (node red l v r) := by
  obtain ⟨xs, ys, h⟩ := List.append_of_mem hv
  obtain ⟨c, red, l, r, hplug, -⟩ := exists_place_of h
  exact ⟨c, red, l, r, hplug⟩

section Descent
variable (p : α → Bool)

/-- The empty place a search reaches that goes left where `p` holds. -/
def descend : ColorTree α → List (Branch α) → List (Branch α)
  | nil, c => c
  | node red l v r, c =>
    if p v then descend l (⟨.left, red, v, r⟩ :: c) else descend r (⟨.right, red, v, l⟩ :: c)

theorem plug_descend (t : ColorTree α) (c : List (Branch α)) :
    plug (descend p t c) nil = plug c t := by
  induction t generalizing c with
  | nil => rfl
  | node red l v r ihl ihr =>
    unfold descend
    split
    · exact ihl _
    · exact ihr _

/-- The last turn of the search. -/
theorem descend_head {t : ColorTree α} {c : List (Branch α)}
    (hc : ∀ b ∈ c.head?, p b.val = decide (b.side = .left)) :
    ∀ b ∈ (descend p t c).head?, p b.val = decide (b.side = .left) := by
  induction t generalizing c with
  | nil => exact hc
  | node red l v r ihl ihr =>
    unfold descend
    split
    next hpv =>
      refine ihl fun b hb => ?_
      obtain rfl := Option.mem_some_iff.mp hb
      exact hpv
    next hpv =>
      refine ihr fun b hb => ?_
      obtain rfl := Option.mem_some_iff.mp hb
      exact Bool.eq_false_iff.mpr hpv

theorem length_descend_le (t : ColorTree α) (c : List (Branch α)) :
    (descend p t c).length ≤ t.height + c.length := by
  induction t generalizing c with
  | nil => simp [descend]
  | node red l v r ihl ihr =>
    unfold descend
    split
    · refine (ihl _).trans ?_
      simp only [height, List.length_cons]
      omega
    · refine (ihr _).trans ?_
      simp only [height, List.length_cons]
      omega

/-- Where `p` comes to hold once along the tree, the place reached is where it does. -/
theorem descend_splits {t : ColorTree α} {c : List (Branch α)}
    (hmono : t.toList.Pairwise fun a b => p a = true → p b = true)
    (hbefore : ∀ a ∈ leftOf c, p a = false) (hafter : ∀ a ∈ rightOf c, p a = true) :
    (∀ a ∈ leftOf (descend p t c), p a = false) ∧ ∀ a ∈ rightOf (descend p t c), p a = true := by
  induction t generalizing c with
  | nil => exact ⟨hbefore, hafter⟩
  | node red l v r ihl ihr =>
    obtain ⟨hl, hv, hlr⟩ := List.pairwise_append.mp hmono
    obtain ⟨hvr, hr⟩ := List.pairwise_cons.mp hv
    unfold descend
    split
    next hpv =>
      refine ihl hl hbefore fun a ha => ?_
      rcases List.mem_cons.mp ha with rfl | ha
      · exact hpv
      · rcases List.mem_append.mp ha with ha | ha
        · exact hvr a ha hpv
        · exact hafter a ha
    next hpv =>
      refine ihr hr (fun a ha => ?_) hafter
      rcases List.mem_append.mp ha with ha | ha
      · exact hbefore a ha
      · rcases List.mem_append.mp ha with ha | ha
        · exact Bool.eq_false_iff.mpr fun h => hpv (hlr a ha v List.mem_cons_self h)
        · rw [List.mem_singleton.mp ha]
          exact Bool.eq_false_iff.mpr hpv

end Descent

end RedBlack
