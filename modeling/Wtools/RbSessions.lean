import Wtools.RbCalls

/-!
# Sessions with a red-black tree

A tree is created, entries are inserted and deleted, and in the end it is destroyed. What holds
after any number of calls does so whatever the comparison, but for the order of the entries.
-/

namespace Wtools.Rbt

variable {κ ι : Type} {tree : RbRedBlkTree κ ι} {F : Nat → Option (RbRedBlkNode κ ι)}
  {m : Memory κ ι} {l : List (Cell κ ι)} {fuel : Nat}

/-- The calls that change a tree. An insertion is given the node `SafeMalloc` returns and what
lies there, a deletion the node of an entry. -/
inductive Op (κ ι : Type) where
  | insert (z : Cell κ ι) (junk : RbRedBlkNode κ ι)
  | delete (a : Nat)

def Op.run (tree : RbRedBlkTree κ ι) (fuel : Nat) : Op κ ι → Rb κ ι Unit
  | .insert z junk => do let _ ← rbTreeInsert tree fuel z.addr junk z.key z.info
  | .delete a => rbDelete tree fuel a

/-- The entries a call drops. -/
def Op.dropped : Op κ ι → List (Cell κ ι) → List (Cell κ ι)
  | .insert _ _, _ => []
  | .delete a, l => l.filter fun w => w.addr = a

/-- The entries a call brings in. -/
def Op.entered : Op κ ι → List (Cell κ ι)
  | .insert z _ => [z]
  | .delete _ => []

/-- `SafeMalloc` returns unused memory, and only entries of the tree are deleted. -/
def Op.Legal (tree : RbRedBlkTree κ ι) (F : Nat → Option (RbRedBlkNode κ ι)) :
    Op κ ι → List (Cell κ ι) → Prop
  | .insert z _, l => z.addr ≠ 0 ∧ z.addr ≠ tree.nil ∧ z.addr ≠ tree.root ∧ F z.addr = none ∧
      ∀ w ∈ l, w.addr ≠ z.addr
  | .delete a, l => ∃ w ∈ l, w.addr = a

/-- The entries after a call, in any order. -/
def Op.change : Op κ ι → List (Cell κ ι) → List (Cell κ ι)
  | .insert z _, b => z :: b
  | .delete a, b => b.filter fun w => w.addr ≠ a

def LegalRun (tree : RbRedBlkTree κ ι) (F : Nat → Option (RbRedBlkNode κ ι)) :
    List (Op κ ι) → List (Cell κ ι) → Prop
  | [], _ => True
  | op :: ops, b => op.Legal tree F b ∧ LegalRun tree F ops (op.change b)

/-- The entries after a number of calls, in any order. -/
def remaining (ops : List (Op κ ι)) (b : List (Cell κ ι)) : List (Cell κ ι) :=
  ops.foldl (fun b op => op.change b) b

def droppedBy : List (Op κ ι) → List (Cell κ ι) → List (Cell κ ι)
  | [], _ => []
  | op :: ops, b => op.dropped b ++ droppedBy ops (op.change b)

theorem Op.Legal.perm {op : Op κ ι} {b : List (Cell κ ι)} (h : op.Legal tree F b)
    (hl : l.Perm b) : op.Legal tree F l := by
  cases op with
  | insert z junk =>
    obtain ⟨hz0, hnil, hroot, hz, hb⟩ := h
    exact ⟨hz0, hnil, hroot, hz, fun w hw => hb w (hl.mem_iff.mp hw)⟩
  | delete a =>
    obtain ⟨z, hz, ha⟩ := h
    exact ⟨z, hl.mem_iff.mpr hz, ha⟩

theorem filter_addr {xs ys : List (Cell κ ι)} {z : Cell κ ι}
    (h : ((xs ++ z :: ys).map Cell.addr).Nodup) :
    (xs ++ z :: ys).filter (fun w => w.addr ≠ z.addr) = xs ++ ys ∧
      (xs ++ z :: ys).filter (fun w => w.addr = z.addr) = [z] := by
  simp only [List.map_append, List.map_cons, List.nodup_append, List.nodup_cons] at h
  obtain ⟨-, ⟨hys, -⟩, hxs⟩ := h
  have hx : ∀ w ∈ xs, w.addr ≠ z.addr := fun w hw =>
    hxs _ (List.mem_map_of_mem hw) _ List.mem_cons_self
  have hy : ∀ w ∈ ys, w.addr ≠ z.addr := notMem_addrs.mp hys
  constructor
  · rw [List.filter_append, List.filter_cons_of_neg (by simp),
      List.filter_eq_self.mpr (by simpa using hx), List.filter_eq_self.mpr (by simpa using hy)]
  · rw [List.filter_append, List.filter_cons_of_pos (by simp),
      List.filter_eq_nil_iff.mpr (by simpa using hx), List.filter_eq_nil_iff.mpr (by simpa using hy)]
    rfl

theorem Op.change_perm (op : Op κ ι) {b : List (Cell κ ι)} (hl : l.Perm b) :
    (op.change l).Perm (op.change b) := by
  cases op with
  | insert z junk => exact hl.cons z
  | delete a => exact hl.filter _

theorem length_change_le (op : Op κ ι) (b : List (Cell κ ι)) :
    (op.change b).length ≤ b.length + 1 := by
  cases op with
  | insert z junk => exact Nat.le_refl _
  | delete a => exact (List.length_filter_le _ b).trans (Nat.le_succ _)

theorem Holds.dropped (h : Holds tree F m l) {op : Op κ ι} {b : List (Cell κ ι)}
    (hop : op.Legal tree F b) (hl : l.Perm b) : op.dropped l = op.dropped b := by
  cases op with
  | insert z junk => rfl
  | delete a =>
    obtain ⟨z, hz, rfl⟩ := hop
    obtain ⟨xs, ys, rfl⟩ := List.append_of_mem (hl.mem_iff.mpr hz)
    have hgone := (filter_addr h.nodup).2
    rw [Op.dropped, Op.dropped, hgone]
    have hperm := hl.filter fun w => w.addr = z.addr
    rw [hgone] at hperm
    exact (List.perm_singleton.mp hperm.symm).symm

section Sessions
variable {ν : Type} [LinearOrder ν] {value : κ → ν}

/-- What a call makes of the sorted list of entries. -/
def Op.apply (value : κ → ν) : Op κ ι → List (Cell κ ι) → List (Cell κ ι)
  | .insert z _, l => enter value z l
  | .delete a, l => l.filter fun w => w.addr ≠ a

/-- The entries after a number of calls. -/
def entries (value : κ → ν) (ops : List (Op κ ι)) (l : List (Cell κ ι)) : List (Cell κ ι) :=
  ops.foldl (fun l op => op.apply value l) l

theorem sorted_apply (h : Sorted value l) (op : Op κ ι) : Sorted value (op.apply value l) := by
  cases op with
  | insert z junk => exact sorted_enter h z
  | delete a => exact h.filter _

/-- A call that is given only entries and unused memory. -/
theorem Holds.step (value : κ → ν) (h : Holds tree F m l) {op : Op κ ι} (hop : op.Legal tree F l)
    (hfuel : 2 * Nat.log 2 (l.length + 1) < fuel) :
    ∃ m' l', op.run tree fuel m = some ((), m') ∧ Holds tree F m' l' ∧ l'.Perm (op.change l) ∧
      (Compares tree.compare value → Sorted value l → l' = op.apply value l) ∧
      m'.destroyed = m.destroyed ++ (op.dropped l).flatMap Cell.given := by
  cases op with
  | insert z junk =>
    obtain ⟨hz0, hnil, hroot, hz, hl⟩ := hop
    obtain ⟨m', l', hrun, h', hperm, hsorted, hdes⟩ :=
      h.insert value (h.free hnil hroot hz hl) hz0 junk hfuel
    refine ⟨m', l', ?_, h', hperm, hsorted, by rw [hdes]; simp [Op.dropped]⟩
    rw [Op.run, bind_of hrun]
    rfl
  | delete a =>
    obtain ⟨z, hz, rfl⟩ := hop
    obtain ⟨xs, ys, rfl⟩ := List.append_of_mem hz
    obtain ⟨hkept, hgone⟩ := filter_addr h.nodup
    obtain ⟨m', hrun, h', hdes⟩ := h.delete rfl hfuel
    refine ⟨m', _, hrun, h', ?_, fun _ _ => ?_, ?_⟩
    · rw [Op.change, hkept]
    · rw [Op.apply, hkept]
    · rw [Op.dropped, hgone, hdes]
      simp

section Runs
variable {b : List (Cell κ ι)} {ops : List (Op κ ι)}

/-- The bounds on the loops at one call and at those after it. -/
theorem fuel_cons {op : Op κ ι} (hl : l.Perm b)
    (hfuel : 2 * Nat.log 2 (b.length + (op :: ops).length + 1) < fuel) :
    2 * Nat.log 2 (l.length + 1) < fuel ∧
      2 * Nat.log 2 ((op.change b).length + ops.length + 1) < fuel := by
  have hlength := length_change_le op b
  have hnow : Nat.log 2 (l.length + 1) ≤ Nat.log 2 (b.length + (op :: ops).length + 1) :=
    Nat.log_mono_right (by rw [hl.length_eq]; omega)
  have hthen : Nat.log 2 ((op.change b).length + ops.length + 1) ≤
      Nat.log 2 (b.length + (op :: ops).length + 1) :=
    Nat.log_mono_right (by simp only [List.length_cons]; omega)
  omega

/-- Any number of calls. -/
theorem Holds.run (value : κ → ν) (h : Holds tree F m l) (hl : l.Perm b)
    (hlegal : LegalRun tree F ops b)
    (hfuel : 2 * Nat.log 2 (b.length + ops.length + 1) < fuel) :
    ∃ m' l', ops.forM (Op.run tree fuel) m = some ((), m') ∧ Holds tree F m' l' ∧
      l'.Perm (remaining ops b) ∧
      (Compares tree.compare value → Sorted value l →
        l' = entries value ops l ∧ Sorted value l') ∧
      m'.destroyed = m.destroyed ++ (droppedBy ops b).flatMap Cell.given := by
  induction ops generalizing m l b with
  | nil => exact ⟨m, l, rfl, h, hl, fun _ hs => ⟨rfl, hs⟩, by simp [droppedBy]⟩
  | cons op ops ih =>
    obtain ⟨hop, hops⟩ := hlegal
    obtain ⟨hnow, hthen⟩ := fuel_cons hl hfuel
    obtain ⟨m₁, l₁, hrun, h₁, hl₁, hs₁, hdes₁⟩ := h.step value (hop.perm hl) hnow
    obtain ⟨m', l', hruns, h', hl', hs', hdes⟩ := ih h₁ (hl₁.trans (op.change_perm hl)) hops hthen
    refine ⟨m', l', ?_, h', hl', fun hcomp hs => ?_, ?_⟩
    · rw [List.forM_eq_forM, List.forM_cons, bind_of hrun]
      exact hruns
    · obtain rfl := hs₁ hcomp hs
      exact hs' hcomp (sorted_apply hs op)
    · rw [hdes, hdes₁, h.dropped hop hl, droppedBy, List.flatMap_append, List.append_assoc]

end Runs

open scoped List in
/-- Entries are dropped once, and those that came in and are not dropped are still there. -/
theorem dropped_perm (ops : List (Op κ ι)) (b : List (Cell κ ι)) :
    (droppedBy ops b ++ remaining ops b).Perm (ops.flatMap Op.entered ++ b) := by
  induction ops generalizing b with
  | nil => exact .refl _
  | cons op ops ih =>
    have hop : (op.dropped b ++ op.change b).Perm (op.entered ++ b) := by
      cases op with
      | insert z junk => exact .refl _
      | delete a =>
        have hperm := List.filter_append_perm (fun w : Cell κ ι => decide (w.addr = a)) b
        simp only [Op.dropped, Op.change, Op.entered, List.nil_append]
        simpa only [decide_not] using hperm
    calc droppedBy (op :: ops) b ++ remaining (op :: ops) b
        = op.dropped b ++ (droppedBy ops (op.change b) ++ remaining ops (op.change b)) := by
          rw [droppedBy, List.append_assoc]
          rfl
      _ ~ op.dropped b ++ (ops.flatMap Op.entered ++ op.change b) :=
          (ih (op.change b)).append_left _
      _ ~ ops.flatMap Op.entered ++ (op.dropped b ++ op.change b) :=
          List.perm_append_comm_assoc ..
      _ ~ ops.flatMap Op.entered ++ (op.entered ++ b) := hop.append_left _
      _ ~ op.entered ++ (ops.flatMap Op.entered ++ b) := List.perm_append_comm_assoc ..
      _ = (op :: ops).flatMap Op.entered ++ b := by
          rw [List.flatMap_cons, List.append_assoc]

/-- Memory without a tree: there is room for the sentinels, and nothing at 0. -/
structure Unused (m : Memory κ ι) (nil root : Nat) : Prop where
  zero : m.node 0 = none
  nil_free : m.node nil = none
  root_free : m.node root = none
  nil_ne : nil ≠ 0
  root_ne : root ≠ 0
  root_ne_nil : root ≠ nil

/-- A tree is created and changed. -/
def session [Inhabited κ] (tree : RbRedBlkTree κ ι) (junk junk' : RbRedBlkNode κ ι) (fuel : Nat)
    (ops : List (Op κ ι)) : Rb κ ι (RbRedBlkTree κ ι) := do
  let t ← rbTreeCreate tree.compare tree.printKey tree.printInfo tree.nil tree.root junk junk'
  ops.forM (Op.run t fuel)
  return t

theorem length_remaining_le (ops : List (Op κ ι)) (b : List (Cell κ ι)) :
    (remaining ops b).length ≤ b.length + ops.length := by
  induction ops generalizing b with
  | nil => exact Nat.le_refl _
  | cons op ops ih =>
    have hop := length_change_le op b
    have hops := ih (op.change b)
    simp only [List.length_cons]
    exact hops.trans (by omega)

/-- The loops of a call after the session. -/
theorem fuel_after {ops : List (Op κ ι)} (hl : l.Perm (remaining ops []))
    (hfuel : 2 * Nat.log 2 (ops.length + 1) < fuel) : 2 * Nat.log 2 (l.length + 1) < fuel := by
  have hlength := length_remaining_le ops ([] : List (Cell κ ι))
  have hlog : Nat.log 2 (l.length + 1) ≤ Nat.log 2 (ops.length + 1) :=
    Nat.log_mono_right (by rw [hl.length_eq]; simpa using hlength)
  omega

/-- Numbers in their order. -/
def numbers : RbRedBlkTree Nat Unit :=
  ⟨fun a b => if b < a then 1 else if a < b then -1 else 0, toString, fun _ => "", 2, 1⟩

def noMemory : Memory Nat Unit := ⟨fun _ => none, []⟩

def blank : RbRedBlkNode Nat Unit := ⟨0, (), false, 0, 0, 0⟩

def calls : List (Op Nat Unit) :=
  [.insert ⟨3, 7, ()⟩ blank, .insert ⟨4, 5, ()⟩ blank, .insert ⟨5, 7, ()⟩ blank, .delete 3,
    .insert ⟨3, 6, ()⟩ blank]

theorem unused_noMemory : Unused noMemory numbers.nil numbers.root :=
  ⟨rfl, rfl, rfl, by decide, by decide, by decide⟩

theorem compares_numbers : Compares numbers.compare (id : Nat → Nat) := fun _ _ => rfl

theorem legal_calls : LegalRun numbers noMemory.node calls [] := by
  simp [calls, LegalRun, Op.Legal, Op.change, numbers, noMemory]

theorem fuel_calls : 2 * Nat.log 2 (calls.length + 1) < 9 := by
  have hlog : Nat.log 2 (calls.length + 1) < 3 :=
    Nat.log_lt_of_lt_pow (by decide) (by decide)
  omega

section Whole
variable [Inhabited κ] {ops : List (Op κ ι)} (junk junk' : RbRedBlkNode κ ι)

theorem session_of (value : κ → ν) (hm : Unused m tree.nil tree.root)
    (hlegal : LegalRun tree m.node ops []) (hfuel : 2 * Nat.log 2 (ops.length + 1) < fuel) :
    ∃ m' l, session tree junk junk' fuel ops m = some (tree, m') ∧ Holds tree m.node m' l ∧
      l.Perm (remaining ops []) ∧
      (Compares tree.compare value → l = entries value ops [] ∧ Sorted value l) ∧
      m'.destroyed = m.destroyed ++ (droppedBy ops []).flatMap Cell.given := by
  obtain ⟨m₁, hcreate, h₁, hdes₁⟩ := holds_create tree.compare tree.printKey tree.printInfo junk
    junk' hm.nil_free hm.root_free hm.root_ne_nil hm.nil_ne hm.root_ne hm.zero
  obtain ⟨m', l, hruns, h', hperm, hsorted, hdes⟩ := h₁.run value (.refl _) hlegal
    (by simpa using hfuel : 2 * Nat.log 2 (([] : List (Cell κ ι)).length + ops.length + 1) < fuel)
  refine ⟨m', l, ?_, h', hperm, fun hcomp => hsorted hcomp .nil, hdes.trans (by rw [hdes₁])⟩
  rw [session, bind_of hcreate, bind_of hruns]
  rfl

/-- After any calls memory holds a red-black tree of what was inserted and not deleted, next to
what it held before. -/
theorem session_red_black (hm : Unused m tree.nil tree.root)
    (hlegal : LegalRun tree m.node ops []) (hfuel : 2 * Nat.log 2 (ops.length + 1) < fuel) :
    ∃ m' R t, session tree junk junk' fuel ops m = some (tree, m') ∧ Stored tree R m' [] t ∧
      t.Whole ∧ t.height ≤ 2 * Nat.log 2 (t.size + 1) ∧ t.toList.Perm (remaining ops []) ∧
      ∀ a, a ≠ tree.nil → R a = m.node a := by
  obtain ⟨m', l, hrun, ⟨R, t, hstored, ht, rfl, hrest⟩, hperm, -⟩ :=
    session_of junk junk' (fun _ => 0) hm hlegal hfuel
  exact ⟨m', R, t, hrun, hstored, ht, ht.height_le, hperm, hrest⟩

theorem session_red_black_calls :
    ∃ m' R t, session numbers blank blank 9 calls noMemory = some (numbers, m') ∧
      Stored numbers R m' [] t ∧ t.Whole ∧ t.height ≤ 2 * Nat.log 2 (t.size + 1) ∧
      t.toList.Perm (remaining calls []) ∧ ∀ a, a ≠ numbers.nil → R a = noMemory.node a :=
  session_red_black blank blank unused_noMemory legal_calls fuel_calls

/-- With keys compared by a value the entries are in order, those of one value in the order in
which they came. -/
theorem session_sorted (hm : Unused m tree.nil tree.root)
    (hcomp : Compares tree.compare value) (hlegal : LegalRun tree m.node ops [])
    (hfuel : 2 * Nat.log 2 (ops.length + 1) < fuel) :
    ∃ m', session tree junk junk' fuel ops m = some (tree, m') ∧
      Holds tree m.node m' (entries value ops []) ∧ Sorted value (entries value ops []) ∧
      (entries value ops []).Perm (remaining ops []) := by
  obtain ⟨m', l, hrun, h, hperm, hsorted, -⟩ := session_of junk junk' value hm hlegal hfuel
  obtain ⟨rfl, hs⟩ := hsorted hcomp
  exact ⟨m', hrun, h, hs, hperm⟩

theorem session_sorted_calls :
    ∃ m', session numbers blank blank 9 calls noMemory = some (numbers, m') ∧
      Holds numbers noMemory.node m' (entries id calls []) ∧ Sorted id (entries id calls []) ∧
      (entries id calls []).Perm (remaining calls []) :=
  session_sorted blank blank unused_noMemory compares_numbers legal_calls fuel_calls

/-- A query finds an entry with the value if there is one. -/
theorem session_query (hm : Unused m tree.nil tree.root)
    (hcomp : Compares tree.compare value) (hlegal : LegalRun tree m.node ops [])
    (hfuel : 2 * Nat.log 2 (ops.length + 1) < fuel) (q : κ) :
    ∃ m' a, session tree junk junk' fuel ops m = some (tree, m') ∧
      rbExactQuery tree fuel q m' = some (a, m') ∧
      ((a = 0 ∧ ∀ w ∈ remaining ops [], value w.key ≠ value q) ∨
        ∃ w ∈ remaining ops [], a = w.addr ∧ value w.key = value q) := by
  obtain ⟨m', l, hrun, h, hperm, hsorted, -⟩ := session_of junk junk' value hm hlegal hfuel
  obtain ⟨a, hquery, ha⟩ := h.query hcomp (hsorted hcomp).2 q (fuel_after hperm hfuel)
  refine ⟨m', a, hrun, hquery, ha.imp ?_ ?_⟩
  · exact fun ⟨ha0, hnone⟩ => ⟨ha0, fun w hw => hnone w (hperm.mem_iff.mpr hw)⟩
  · exact fun ⟨w, hw, hrest⟩ => ⟨w, hperm.mem_iff.mp hw, hrest⟩

theorem session_query_calls :
    ∃ m' a, session numbers blank blank 9 calls noMemory = some (numbers, m') ∧
      rbExactQuery numbers 9 6 m' = some (a, m') ∧
      ((a = 0 ∧ ∀ w ∈ remaining calls [], id w.key ≠ id 6) ∨
        ∃ w ∈ remaining calls [], a = w.addr ∧ id w.key = id 6) :=
  session_query blank blank unused_noMemory compares_numbers legal_calls fuel_calls 6

/-- The successor of an entry is the next one of the in-order walk of the tree, its predecessor the
one before, and `nil` where there is none. -/
theorem session_neighbours (hm : Unused m tree.nil tree.root)
    (hlegal : LegalRun tree m.node ops []) (hfuel : 2 * Nat.log 2 (ops.length + 1) < fuel) :
    ∃ m' l, session tree junk junk' fuel ops m = some (tree, m') ∧ Holds tree m.node m' l ∧
      l.Perm (remaining ops []) ∧ (Compares tree.compare value → Sorted value l) ∧
      ∀ xs x ys, l = xs ++ x :: ys →
        treeSuccessor tree fuel x.addr m' =
            some ((ys.head?.map Cell.addr).getD tree.nil, m') ∧
          treePredecessor tree fuel x.addr m' =
            some ((xs.getLast?.map Cell.addr).getD tree.nil, m') := by
  obtain ⟨m', l, hrun, h, hperm, hsorted, -⟩ := session_of junk junk' value hm hlegal hfuel
  exact ⟨m', l, hrun, h, hperm, fun hcomp => (hsorted hcomp).2,
    fun xs x ys hx => h.neighbours hx (fuel_after hperm hfuel)⟩

theorem session_neighbours_calls :
    ∃ m' l, session numbers blank blank 9 calls noMemory = some (numbers, m') ∧
      Holds numbers noMemory.node m' l ∧ l.Perm (remaining calls []) ∧
      (Compares numbers.compare (id : Nat → Nat) → Sorted id l) ∧
      ∀ xs x ys, l = xs ++ x :: ys →
        treeSuccessor numbers 9 x.addr m' =
            some ((ys.head?.map Cell.addr).getD numbers.nil, m') ∧
          treePredecessor numbers 9 x.addr m' =
            some ((xs.getLast?.map Cell.addr).getD numbers.nil, m') :=
  session_neighbours blank blank unused_noMemory legal_calls fuel_calls

/-- Printing changes nothing and prints the lines of the tree, one for each entry in order. -/
theorem session_print (hm : Unused m tree.nil tree.root) (hcomp : Compares tree.compare value)
    (hlegal : LegalRun tree m.node ops []) (hfuel : 2 * Nat.log 2 (ops.length + 1) < fuel) :
    ∃ m' R t, session tree junk junk' fuel ops m = some (tree, m') ∧ Stored tree R m' [] t ∧
      t.toList = entries value ops [] ∧
      rbTreePrint tree fuel m' = some (String.join (lines tree "NULL" t), m') ∧
      List.Forall₂ (fun line w => ∃ rest, line =
        "info=" ++ tree.printInfo w.info ++ "  key=" ++ tree.printKey w.key ++ rest)
        (lines tree "NULL" t) (entries value ops []) := by
  obtain ⟨m', l, hrun, h, hperm, hsorted, -⟩ := session_of junk junk' value hm hlegal hfuel
  obtain ⟨rfl, -⟩ := hsorted hcomp
  obtain ⟨R, t, hstored, hlist, hprint, hls⟩ := h.print (fuel_after hperm hfuel)
  exact ⟨m', R, t, hrun, hstored, hlist, hprint, hls⟩

theorem session_print_calls :
    ∃ m' R t, session numbers blank blank 9 calls noMemory = some (numbers, m') ∧
      Stored numbers R m' [] t ∧ t.toList = entries id calls [] ∧
      rbTreePrint numbers 9 m' = some (String.join (lines numbers "NULL" t), m') ∧
      List.Forall₂ (fun line w => ∃ rest, line =
        "info=" ++ numbers.printInfo w.info ++ "  key=" ++ numbers.printKey w.key ++ rest)
        (lines numbers "NULL" t) (entries id calls []) :=
  session_print blank blank unused_noMemory compares_numbers legal_calls fuel_calls

/-- After `RBTreeDestroy` every node is freed, and the key and the info of every entry that was
inserted have been destroyed once. -/
theorem session_destroy (hm : Unused m tree.nil tree.root)
    (hlegal : LegalRun tree m.node ops []) (hfuel : 2 * Nat.log 2 (ops.length + 1) < fuel) :
    ∃ m₁ m', session tree junk junk' fuel ops m = some (tree, m₁) ∧
      rbTreeDestroy tree fuel m₁ = some ((), m') ∧ m'.node = m.node ∧
      m'.destroyed.Perm (m.destroyed ++ (ops.flatMap Op.entered).flatMap Cell.given) := by
  obtain ⟨m₁, l, hrun, h, hperm, -, hdes⟩ :=
    session_of junk junk' (fun _ => 0) hm hlegal hfuel
  obtain ⟨m', hdestroy, hnode, hdes'⟩ :=
    h.destroy hm.root_free hm.nil_free (fuel_after hperm hfuel)
  refine ⟨m₁, m', hrun, hdestroy, hnode, hdes'.trans ?_⟩
  rw [hdes, List.append_assoc, ← List.flatMap_append]
  have hall := (hperm.append_left (droppedBy ops [])).trans (dropped_perm ops [])
  rw [List.append_nil] at hall
  exact (hall.flatMap_right _).append_left _

theorem session_destroy_calls :
    ∃ m₁ m', session numbers blank blank 9 calls noMemory = some (numbers, m₁) ∧
      rbTreeDestroy numbers 9 m₁ = some ((), m') ∧ m'.node = noMemory.node ∧
      m'.destroyed.Perm ((calls.flatMap Op.entered).flatMap Cell.given) :=
  session_destroy blank blank unused_noMemory legal_calls fuel_calls

end Whole

end Sessions

end Wtools.Rbt
