import Wtools.StackCalls

/-!
# The world of the stacks

What memory holds: stacks that a program can reach and nodes that it cannot reach any more. A call
replaces the stacks it is given and keeps everything else in memory. A stack may have lost sight of
its last node: `StackJoin` takes over the tail of the second stack also where that one is empty.
-/

namespace Wtools.Stk

open LinkedList

variable {δ : Type} {base m m' : Memory δ} {a s t : Nat} {v : δ}

/-- A node and its info. -/
abbrev Cell (δ : Type) := Nat × δ

/-- The nodes of a stack, and whether the stack knows the last one. -/
structure Pile (δ : Type) where
  cells : List (Cell δ)
  tailed : Bool
  deriving DecidableEq, Repr

instance : Inhabited (Pile δ) := ⟨⟨[], false⟩⟩

namespace Pile

def tail (p : Pile δ) : Nat := if p.tailed then (p.cells.getLast?.map Prod.fst).getD 0 else 0

/-- What lies at the address of the stack. -/
def record (p : Pile δ) : StkStack := ⟨start p.cells 0, p.tail⟩

/-- A first stack without a tail is not joined but dropped. -/
def HasTail (p : Pile δ) : Prop := p.tailed = true ∧ p.cells ≠ []

instance (p : Pile δ) : Decidable p.HasTail := inferInstanceAs (Decidable (_ ∧ _))

def push (c : Cell δ) (p : Pile δ) : Pile δ := ⟨c :: p.cells, p.tailed || p.cells.isEmpty⟩

def pop (p : Pile δ) : Pile δ := ⟨p.cells.tail, p.tailed⟩

def join (p q : Pile δ) : Pile δ := ⟨p.cells ++ q.cells, q.tailed && !q.cells.isEmpty⟩

theorem tail_append {l l' : List (Cell δ)} (h : l' ≠ []) (tailed : Bool) :
    tail ⟨l ++ l', tailed⟩ = tail ⟨l', tailed⟩ := by
  unfold tail
  rw [List.getLast?_append_of_ne_nil l h]

theorem tail_eq_last (l : List (Cell δ)) (c : Cell δ) : tail ⟨l ++ [c], true⟩ = c.1 :=
  tail_append (List.cons_ne_nil c []) true

theorem tail_eq_zero_iff {p : Pile δ} (h : 0 ∉ p.cells.map Prod.fst) :
    p.tail = 0 ↔ ¬p.HasTail := by
  obtain ⟨cells, tailed⟩ := p
  cases tailed with
  | false => simp [tail, HasTail]
  | true =>
    rcases List.eq_nil_or_concat cells with rfl | ⟨l, c, rfl⟩
    · simp [tail, HasTail]
    · rw [List.concat_eq_append] at h ⊢
      have hc : c.1 ≠ 0 := fun hc => h (hc ▸ by simp)
      simp [tail_eq_last, HasTail, hc]

theorem record_push {p : Pile δ} {c : Cell δ} (h : 0 ∉ p.cells.map Prod.fst) :
    (p.push c).record = ⟨c.1, if start p.cells 0 = 0 then c.1 else p.tail⟩ := by
  obtain ⟨cells, tailed⟩ := p
  have hstart := start_eq_iff h
  by_cases hnil : cells = []
  · subst hnil
    simp [record, push, tail]
  · have hempty : cells.isEmpty = false := by simpa using hnil
    rw [if_neg (mt hstart.mp hnil), ← tail_append (l := [c]) hnil, record, push, hempty,
      Bool.or_false]
    rfl

theorem record_pop {c : Cell δ} {l : List (Cell δ)} {tailed : Bool} (h : 0 ∉ l.map Prod.fst) :
    (pop ⟨c :: l, tailed⟩).record =
      ⟨start l 0, if start l 0 = 0 then 0 else tail ⟨c :: l, tailed⟩⟩ := by
  have hstart := start_eq_iff h
  by_cases hnil : l = []
  · subst hnil
    cases tailed <;> rfl
  · rw [if_neg (mt hstart.mp hnil)]
    exact congrArg (StkStack.mk _) (tail_append (l := [c]) hnil tailed).symm

theorem tail_join (p q : Pile δ) : (p.join q).tail = q.tail := by
  obtain ⟨cells, tailed⟩ := q
  by_cases hnil : cells = []
  · subst hnil
    simp [join, tail]
  · have hempty : (!cells.isEmpty) = true := by simpa using hnil
    rw [join, tail_append hnil, hempty, Bool.and_true]

theorem record_join {p : Pile δ} (h : p.cells ≠ []) (q : Pile δ) :
    (p.join q).record = ⟨start p.cells 0, q.tail⟩ := by
  obtain ⟨cells, tailed⟩ := p
  cases cells with
  | nil => exact absurd rfl h
  | cons c l =>
    rw [record, tail_join]
    rfl

end Pile

/-- The stacks of a program by their addresses, and the nodes that no stack leads to. -/
structure World (δ : Type) where
  live : List (Nat × Pile δ)
  lost : List (Cell δ)

def cellsOf (piles : List (Nat × Pile δ)) : List (Cell δ) := piles.flatMap fun e => e.2.cells

def World.cells (w : World δ) : List (Cell δ) := cellsOf w.live ++ w.lost

def addrs (l : List (Cell δ)) : List Nat := l.map Prod.fst

def keys (piles : List (Nat × Pile δ)) : List Nat := piles.map Prod.fst

/-- What `SafeMalloc` may return. -/
def Fresh (base : Memory δ) (w : World δ) (a : Nat) : Prop :=
  base.Unused a ∧ a ∉ addrs w.cells ∧ a ∉ keys w.live

/-- A stack is laid out at its address. -/
def Laid (m : Memory δ) (e : Nat × Pile δ) : Prop :=
  m.stack e.1 = some e.2.record ∧ Chain m.link e.2.cells 0

/-- The memory holds the stacks and the lost nodes next to what was there before. -/
structure Holds (base : Memory δ) (w : World δ) (m : Memory δ) : Prop where
  laid : ∀ e ∈ w.live, Laid m e
  lost : ∀ a ∈ addrs w.lost, m.node a ≠ none
  nodup : (addrs w.cells).Nodup ∧ (keys w.live).Nodup
  unused : (∀ a ∈ addrs w.cells, base.Unused a) ∧ ∀ s ∈ keys w.live, base.Unused s
  node : ∀ a, a ∉ addrs w.cells → m.node a = base.node a
  stack : ∀ s, s ∉ keys w.live → m.stack s = base.stack s

/-- Some stacks are replaced by others and by lost nodes; the rest of the memory is as it was. -/
structure Replaces (base m m' : Memory δ) (w : World δ) (piles piles' : List (Nat × Pile δ))
    (extra : List (Cell δ)) : Prop where
  laid : ∀ e ∈ piles', Laid m' e
  lost : ∀ a ∈ addrs extra, m'.node a ≠ none
  nodup : (addrs (cellsOf piles' ++ extra)).Nodup ∧ (keys piles').Nodup
  node_new : ∀ a ∈ addrs (cellsOf piles' ++ extra), a ∈ addrs (cellsOf piles) ∨ Fresh base w a
  stack_new : ∀ s ∈ keys piles', s ∈ keys piles ∨ Fresh base w s
  node_gone : ∀ a ∈ addrs (cellsOf piles), a ∉ addrs (cellsOf piles' ++ extra) → m'.node a = none
  stack_gone : ∀ s ∈ keys piles, s ∉ keys piles' → m'.stack s = none
  node : ∀ a, a ∉ addrs (cellsOf piles) → a ∉ addrs (cellsOf piles' ++ extra) →
    m'.node a = m.node a
  stack : ∀ s, s ∉ keys piles → s ∉ keys piles' → m'.stack s = m.stack s

section Frame
variable {w : World δ} {piles piles' rest : List (Nat × Pile δ)} {lost extra : List (Cell δ)}

theorem cellsOf_append : cellsOf (piles ++ rest) = cellsOf piles ++ cellsOf rest :=
  List.flatMap_append

theorem addrs_append (l l' : List (Cell δ)) : addrs (l ++ l') = addrs l ++ addrs l' :=
  List.map_append

theorem keys_append : keys (piles ++ rest) = keys piles ++ keys rest := List.map_append

/-- The cells of the stacks in front, and the others. -/
theorem addrs_cells_perm : (addrs (World.mk (piles' ++ rest) (extra ++ lost)).cells).Perm
    (addrs (cellsOf piles' ++ extra) ++ addrs (cellsOf rest ++ lost)) := by
  rw [← addrs_append]
  refine List.Perm.map _ ?_
  rw [World.cells, cellsOf_append, List.append_assoc, List.append_assoc]
  refine List.Perm.append_left _ ?_
  rw [← List.append_assoc, ← List.append_assoc]
  exact List.perm_append_comm.append_right lost

theorem mem_addrs_cells : a ∈ addrs (World.mk (piles' ++ rest) (extra ++ lost)).cells ↔
    a ∈ addrs (cellsOf piles' ++ extra) ∨ a ∈ addrs (cellsOf rest ++ lost) := by
  rw [addrs_cells_perm.mem_iff, List.mem_append]

theorem addrs_cellsOf {e : Nat × Pile δ} (he : e ∈ piles) (ha : a ∈ addrs e.2.cells) :
    a ∈ addrs (cellsOf piles) := by
  obtain ⟨c, hc, rfl⟩ := List.mem_map.mp ha
  exact List.mem_map_of_mem (List.mem_flatMap.mpr ⟨e, he, hc⟩)

/-- Stacks elsewhere in memory stay laid out. -/
theorem Laid.congr {e : Nat × Pile δ} (h : Laid m e) (hstack : m'.stack e.1 = m.stack e.1)
    (hnode : ∀ a ∈ addrs e.2.cells, m'.node a = m.node a) : Laid m' e := by
  refine ⟨hstack.trans h.1, h.2.congr fun a ha => ?_⟩
  rw [Memory.link, Memory.link, hnode a ha]

theorem mem_addrs_front : a ∈ addrs (World.mk (piles ++ rest) lost).cells ↔
    a ∈ addrs (cellsOf piles) ∨ a ∈ addrs (cellsOf rest ++ lost) := by
  rw [World.cells, cellsOf_append, List.append_assoc, addrs_append, List.mem_append]

theorem mem_keys_front : s ∈ keys (piles ++ rest) ↔ s ∈ keys piles ∨ s ∈ keys rest := by
  rw [keys_append, List.mem_append]

/-- Neither the stacks that are replaced nor what replaces them meets the rest. -/
theorem Replaces.apart (h : Holds base ⟨piles ++ rest, lost⟩ m)
    (hr : Replaces base m m' ⟨piles ++ rest, lost⟩ piles piles' extra) :
    (∀ a ∈ addrs (cellsOf rest ++ lost),
      a ∉ addrs (cellsOf piles) ∧ a ∉ addrs (cellsOf piles' ++ extra)) ∧
    ∀ s ∈ keys rest, s ∉ keys piles ∧ s ∉ keys piles' := by
  obtain ⟨hnodes, hkeys⟩ := h.nodup
  rw [World.cells, cellsOf_append, List.append_assoc, addrs_append] at hnodes
  rw [keys_append] at hkeys
  have hold : ∀ a ∈ addrs (cellsOf rest ++ lost), a ∉ addrs (cellsOf piles) :=
    fun a ha hs => (List.nodup_append.mp hnodes).2.2 a hs a ha rfl
  have holdKey : ∀ s ∈ keys rest, s ∉ keys piles :=
    fun s hs hk => (List.nodup_append.mp hkeys).2.2 s hk s hs rfl
  refine ⟨fun a ha => ⟨hold a ha, fun hs => ?_⟩, fun s hs => ⟨holdKey s hs, fun hk => ?_⟩⟩
  · rcases hr.node_new a hs with hs | hfresh
    · exact hold a ha hs
    · exact hfresh.2.1 (mem_addrs_front.mpr (.inr ha))
  · rcases hr.stack_new s hk with hk | hfresh
    · exact holdKey s hs hk
    · exact hfresh.2.2 (mem_keys_front.mpr (.inr hs))

/-- Replacing stacks keeps all that memory holds besides them. -/
theorem Holds.replace (piles piles' : List (Nat × Pile δ)) (extra : List (Cell δ))
    (h : Holds base ⟨piles ++ rest, lost⟩ m)
    (hr : Replaces base m m' ⟨piles ++ rest, lost⟩ piles piles' extra) :
    Holds base ⟨piles' ++ rest, extra ++ lost⟩ m' := by
  obtain ⟨hnodes, hkeys⟩ := hr.apart h
  have hrestNodes : (addrs (cellsOf rest ++ lost)).Nodup := by
    have hnodup := h.nodup.1
    rw [World.cells, cellsOf_append, List.append_assoc, addrs_append] at hnodup
    exact (List.nodup_append.mp hnodup).2.1
  have hrestKeys : (keys rest).Nodup := by
    have hnodup := h.nodup.2
    rw [keys_append] at hnodup
    exact (List.nodup_append.mp hnodup).2.1
  have hnode : ∀ a ∈ addrs (cellsOf rest ++ lost), m'.node a = m.node a :=
    fun a ha => hr.node a (hnodes a ha).1 (hnodes a ha).2
  refine ⟨?_, ?_, ⟨?_, ?_⟩, ⟨?_, ?_⟩, ?_, ?_⟩
  · intro e he
    rcases List.mem_append.mp he with he | he
    · exact hr.laid e he
    · obtain ⟨hold, hnew⟩ := hkeys e.1 (List.mem_map_of_mem he)
      refine (h.laid e (List.mem_append_right _ he)).congr (hr.stack _ hold hnew)
        fun a ha => hnode a ?_
      rw [addrs_append]
      exact List.mem_append_left _ (addrs_cellsOf he ha)
  · intro a ha
    rw [addrs_append, List.mem_append] at ha
    rcases ha with ha | ha
    · exact hr.lost a ha
    · rw [hnode a (by rw [addrs_append]; exact List.mem_append_right _ ha)]
      exact h.lost a ha
  · refine addrs_cells_perm.nodup_iff.mpr (List.nodup_append.mpr ⟨hr.nodup.1, hrestNodes, ?_⟩)
    exact fun a ha b hb he => (hnodes b hb).2 (he ▸ ha)
  · rw [keys_append]
    refine List.nodup_append.mpr ⟨hr.nodup.2, hrestKeys, ?_⟩
    exact fun s hs t ht he => (hkeys t ht).2 (he ▸ hs)
  · intro a ha
    rcases mem_addrs_cells.mp ha with ha | ha
    · rcases hr.node_new a ha with ha | hfresh
      · exact h.unused.1 a (mem_addrs_front.mpr (.inl ha))
      · exact hfresh.1
    · exact h.unused.1 a (mem_addrs_front.mpr (.inr ha))
  · intro s hs
    rcases mem_keys_front.mp hs with hs | hs
    · rcases hr.stack_new s hs with hs | hfresh
      · exact h.unused.2 s (mem_keys_front.mpr (.inl hs))
      · exact hfresh.1
    · exact h.unused.2 s (mem_keys_front.mpr (.inr hs))
  · intro a ha
    rw [mem_addrs_cells, not_or] at ha
    by_cases hs : a ∈ addrs (cellsOf piles)
    · rw [hr.node_gone a hs ha.1]
      exact (h.unused.1 a (mem_addrs_front.mpr (.inl hs))).2.1.symm
    · rw [hr.node a hs ha.1]
      exact h.node a fun hmem => (mem_addrs_front.mp hmem).elim hs ha.2
  · intro s hs
    rw [mem_keys_front, not_or] at hs
    by_cases hk : s ∈ keys piles
    · rw [hr.stack_gone s hk hs.1]
      exact (h.unused.2 s (mem_keys_front.mpr (.inl hk))).2.2.symm
    · rw [hr.stack s hk hs.1]
      exact h.stack s fun hmem => (mem_keys_front.mp hmem).elim hk hs.2

end Frame

/-- A call gives an answer, leaves a world and hands infos to `DestFunc`. -/
def Yields {β : Type} (base : Memory δ) (call : St δ β) (m : Memory δ) (answer : β) (w : World δ)
    (infos : List δ) : Prop :=
  ∃ m', call m = some (answer, m') ∧ Holds base w m' ∧ m'.given = m.given ++ infos

section Calls
variable {w : World δ} {rest : List (Nat × Pile δ)} {lost : List (Cell δ)} {p q : Pile δ}

theorem addrs_cellsOf_one (e : Nat × Pile δ) : addrs (cellsOf [e]) = addrs e.2.cells := by
  rw [cellsOf, List.flatMap_cons, List.flatMap_nil, List.append_nil]

/-- The nodes of a stack in memory, which are not at 0 and not twice. -/
theorem Holds.front (h : Holds base ⟨(s, p) :: rest, lost⟩ m) : Laid m (s, p) ∧ s ≠ 0 ∧
    0 ∉ addrs p.cells ∧ (addrs p.cells).Nodup := by
  have hmem : ∀ a ∈ addrs p.cells, a ∈ addrs (World.mk ((s, p) :: rest) lost).cells := by
    intro a ha
    rw [World.cells, addrs_append]
    exact List.mem_append_left _ (addrs_cellsOf (e := (s, p)) List.mem_cons_self ha)
  refine ⟨h.laid _ List.mem_cons_self, (h.unused.2 s List.mem_cons_self).1,
    fun h0 => (h.unused.1 0 (hmem 0 h0)).1 rfl, ?_⟩
  have hnodup := h.nodup.1
  rw [World.cells, cellsOf, List.flatMap_cons, List.append_assoc, addrs_append] at hnodup
  exact (List.nodup_append.mp hnodup).1

theorem Fresh.unused (hfresh : Fresh base w a) (h : Holds base w m) : m.Unused a := by
  obtain ⟨⟨ha, hnode, hstack⟩, hcells, hkeys⟩ := hfresh
  exact ⟨ha, (h.node a hcells).trans hnode, (h.stack a hkeys).trans hstack⟩

/-- One stack is replaced by one at the same address. -/
theorem Replaces.one {p' : Pile δ} (hlaid : Laid m' (s, p')) (hnodup : (addrs p'.cells).Nodup)
    (hnew : ∀ a ∈ addrs p'.cells, a ∈ addrs p.cells ∨ Fresh base w a)
    (hgone : ∀ a ∈ addrs p.cells, a ∉ addrs p'.cells → m'.node a = none)
    (hnode : ∀ a, a ∉ addrs p.cells → a ∉ addrs p'.cells → m'.node a = m.node a)
    (hstack : ∀ t, t ≠ s → m'.stack t = m.stack t) :
    Replaces base m m' w [(s, p)] [(s, p')] [] := by
  refine ⟨?_, ?_, ?_, ?_, ?_, ?_, ?_, ?_, ?_⟩
  · intro e he
    rw [List.mem_singleton.mp he]
    exact hlaid
  · intro a ha
    cases ha
  · rw [List.append_nil, addrs_cellsOf_one]
    exact ⟨hnodup, List.nodup_singleton s⟩
  · rw [List.append_nil, addrs_cellsOf_one, addrs_cellsOf_one]
    exact hnew
  · exact fun s' hs' => .inl hs'
  · rw [List.append_nil, addrs_cellsOf_one, addrs_cellsOf_one]
    exact hgone
  · exact fun s' hs' hno => absurd hs' hno
  · rw [List.append_nil, addrs_cellsOf_one, addrs_cellsOf_one]
    exact hnode
  · exact fun t ht _ => hstack t fun he => ht (he ▸ List.mem_cons_self)

theorem create_yields (h : Holds base w m) (hs : Fresh base w s) (junk : StkStack) :
    Yields base (stackCreate s junk) m s ⟨(s, ⟨[], false⟩) :: w.live, w.lost⟩ [] := by
  refine ⟨_, stackCreate_of (hs.unused h) junk, ?_, (List.append_nil _).symm⟩
  refine h.replace [] [(s, ⟨[], false⟩)] [] ⟨?_, ?_, ?_, ?_, ?_, ?_, ?_, ?_, ?_⟩
  · intro e he
    rw [List.mem_singleton.mp he]
    exact ⟨putStack_stack _, trivial⟩
  · intro a ha
    cases ha
  · exact ⟨List.nodup_nil, List.nodup_singleton s⟩
  · intro a ha
    cases ha
  · intro s' hs'
    rw [List.mem_singleton.mp hs']
    exact .inr hs
  · intro a ha
    cases ha
  · intro s' hs'
    cases hs'
  · exact fun a _ _ => rfl
  · exact fun t _ ht => putStack_stack_of_ne _ fun he => ht (he ▸ List.mem_cons_self)

theorem push_yields (h : Holds base ⟨(s, p) :: rest, lost⟩ m)
    (ha : Fresh base ⟨(s, p) :: rest, lost⟩ a) (v : δ) (junk : StkStackNode δ) :
    Yields base (stackPush s v a junk) m () ⟨(s, p.push (a, v)) :: rest, lost⟩ [] := by
  obtain ⟨⟨hstack, hchain⟩, hs, h0, hnodup⟩ := h.front
  have hnotin : a ∉ addrs p.cells := by
    intro hmem
    refine ha.2.1 ?_
    rw [World.cells, addrs_append]
    exact List.mem_append_left _ (addrs_cellsOf (e := (s, p)) List.mem_cons_self hmem)
  refine ⟨_, stackPush_of hstack (ha.unused h) v junk, ?_, (List.append_nil _).symm⟩
  refine h.replace [(s, p)] [(s, p.push (a, v))] []
    (.one ⟨?_, ?_, ?_⟩ (List.nodup_cons.mpr ⟨hnotin, hnodup⟩) ?_ ?_ ?_ ?_)
  · rw [putStack_stack, Pile.record_push h0]
    rfl
  · rw [putStack_link, putNode_link]
    exact Function.update_self ..
  · rw [putStack_link, putNode_link]
    exact hchain.update hnotin _
  · intro x hx
    rcases List.mem_cons.mp hx with rfl | hx
    · exact .inr ha
    · exact .inl hx
  · exact fun x hx hno => absurd (List.mem_cons_of_mem _ hx) hno
  · exact fun x _ hx => putNode_node_of_ne _ fun he => hx (he ▸ List.mem_cons_self)
  · exact fun t ht => putStack_stack_of_ne _ ht

theorem notEmpty_yields (h : Holds base ⟨(s, p) :: rest, lost⟩ m) :
    Yields base (stackNotEmpty s) m (decide (p.cells ≠ [])) ⟨(s, p) :: rest, lost⟩ [] := by
  obtain ⟨⟨hstack, -⟩, hs, h0, -⟩ := h.front
  refine ⟨m, ?_, h, (List.append_nil _).symm⟩
  rw [stackNotEmpty_of hstack hs]
  congr 2
  exact decide_eq_decide.mpr (not_congr (start_eq_iff h0))

theorem pop_yields [Inhabited δ] (h : Holds base ⟨(s, p) :: rest, lost⟩ m) :
    Yields base (stackPop s) m ((p.cells.head?.map Prod.snd).getD default)
      ⟨(s, p.pop) :: rest, lost⟩ [] := by
  obtain ⟨⟨hstack, hchain⟩, hs, h0, hnodup⟩ := h.front
  obtain ⟨cells, tailed⟩ := p
  cases cells with
  | nil => exact ⟨m, stackPop_empty hstack rfl, h, (List.append_nil _).symm⟩
  | cons c l =>
    obtain ⟨hc, hl⟩ := hchain
    obtain ⟨hnotin, hnodup⟩ := List.nodup_cons.mp hnodup
    have hc0 : c.1 ≠ 0 := fun he => h0 (he ▸ List.mem_cons_self)
    have h0l : 0 ∉ addrs l := fun hmem => h0 (List.mem_cons_of_mem _ hmem)
    refine ⟨_, stackPop_of hstack hc0 (link_eq_some.mp hc), ?_, (List.append_nil _).symm⟩
    refine h.replace [(s, ⟨c :: l, tailed⟩)] [(s, Pile.pop ⟨c :: l, tailed⟩)] []
      (.one ⟨?_, ?_⟩ hnodup ?_ ?_ ?_ ?_)
    · rw [putStack_stack, Pile.record_pop h0l]
      rfl
    · rw [putStack_link, putNode_link]
      exact hl.update hnotin _
    · exact fun x hx => .inl (List.mem_cons_of_mem _ hx)
    · intro x hx hno
      rcases List.mem_cons.mp hx with rfl | hx
      · exact putNode_node _
      · exact absurd hx hno
    · exact fun x hx _ => putNode_node_of_ne _ fun he => hx (he ▸ List.mem_cons_self)
    · exact fun t ht => putStack_stack_of_ne _ ht

theorem mem_addrs_pair {e e' : Nat × Pile δ} :
    a ∈ addrs (cellsOf [e, e']) ↔ a ∈ addrs e.2.cells ∨ a ∈ addrs e'.2.cells := by
  rw [cellsOf, List.flatMap_cons, List.flatMap_cons, List.flatMap_nil, List.append_nil,
    addrs_append, List.mem_append]

/-- A first stack with a tail is linked to the second one. -/
theorem join_yields (h : Holds base ⟨(s, p) :: (t, q) :: rest, lost⟩ m) (htail : p.HasTail) :
    Yields base (stackJoin s t) m s ⟨(s, p.join q) :: rest, lost⟩ [] := by
  obtain ⟨⟨hstack, hchain⟩, -, h0, hnodup⟩ := h.front
  obtain ⟨hstack', hchain'⟩ := h.laid (t, q) (List.mem_cons_of_mem _ List.mem_cons_self)
  have hst : s ≠ t := fun he =>
    (List.nodup_cons.mp h.nodup.2).1 (he ▸ List.mem_cons_self)
  have hboth : (addrs (p.cells ++ q.cells)).Nodup := by
    have hall := h.nodup.1
    rw [World.cells, cellsOf, List.flatMap_cons, List.flatMap_cons, ← List.append_assoc,
      List.append_assoc, addrs_append] at hall
    exact (List.nodup_append.mp hall).1
  obtain ⟨cells, tailed⟩ := p
  obtain ⟨rfl, hne⟩ := htail
  obtain ⟨l, d, rfl⟩ := (List.eq_nil_or_concat cells).resolve_left hne
  rw [List.concat_eq_append] at *
  have hd0 : d.1 ≠ 0 := fun he => h0 (he ▸ by simp [addrs])
  have hnotin : d.1 ∉ addrs l := by
    rw [addrs_append, List.nodup_append] at hnodup
    exact fun hmem => hnodup.2.2 _ hmem _ List.mem_cons_self rfl
  have hnotin' : d.1 ∉ addrs q.cells := by
    rw [addrs_append, List.nodup_append] at hboth
    exact fun hmem => hboth.2.2 d.1 (by simp [addrs]) _ hmem rfl
  have hlast := link_eq_some.mp (chain_append.mp hchain).2.1
  have htop : (Pile.mk (l ++ [d]) true).record.tail = d.1 := Pile.tail_eq_last l d
  refine ⟨_, stackJoin_of hstack hstack' hst (htop ▸ hd0) (htop ▸ hlast), ?_,
    (List.append_nil _).symm⟩
  rw [htop]
  refine h.replace [(s, ⟨l ++ [d], true⟩), (t, q)] [(s, Pile.join ⟨l ++ [d], true⟩ q)] []
    ⟨?_, ?_, ⟨?_, ?_⟩, ?_, ?_, ?_, ?_, ?_, ?_⟩
  · intro e he
    rw [List.mem_singleton.mp he]
    constructor
    · rw [putStack_stack_of_ne _ hst, putStack_stack, Pile.record_join (by simp)]
      rfl
    · refine chain_append.mpr ⟨?_, ?_⟩
      · rw [putStack_link, putStack_link, putNode_link]
        exact hchain.relink hnotin _
      · rw [putStack_link, putStack_link, putNode_link]
        exact hchain'.update hnotin' _
  · intro a ha
    cases ha
  · rwa [List.append_nil, addrs_cellsOf_one]
  · exact List.nodup_singleton s
  · intro a ha
    rw [List.append_nil, addrs_cellsOf_one, Pile.join, addrs_append, List.mem_append] at ha
    exact .inl (mem_addrs_pair.mpr ha)
  · intro s' hs'
    rw [List.mem_singleton.mp hs']
    exact .inl List.mem_cons_self
  · intro a ha hno
    rw [List.append_nil, addrs_cellsOf_one, Pile.join, addrs_append, List.mem_append] at hno
    exact absurd (mem_addrs_pair.mp ha) hno
  · intro s' hs' hno
    rcases List.mem_cons.mp hs' with rfl | hs'
    · exact absurd List.mem_cons_self hno
    · rw [List.mem_singleton.mp hs']
      exact putStack_stack _
  · intro a ha _
    rw [mem_addrs_pair, not_or] at ha
    exact putNode_node_of_ne _ fun he => ha.1 (he ▸ by simp [addrs])
  · intro x hx _
    have hxs : x ≠ s := fun he => hx (he ▸ List.mem_cons_self)
    have hxt : x ≠ t := fun he => hx (he ▸ List.mem_cons_of_mem _ List.mem_cons_self)
    rw [putStack_stack_of_ne _ hxt, putStack_stack_of_ne _ hxs]
    rfl

/-- A first stack without a tail is freed, and what it holds is lost. -/
theorem join_drops (h : Holds base ⟨(s, p) :: rest, lost⟩ m) (htail : ¬p.HasTail) (t : Nat) :
    Yields base (stackJoin s t) m t ⟨rest, p.cells ++ lost⟩ [] := by
  obtain ⟨⟨hstack, hchain⟩, -, h0, hnodup⟩ := h.front
  refine ⟨_, stackJoin_lost hstack ((Pile.tail_eq_zero_iff h0).mpr htail) t, ?_,
    (List.append_nil _).symm⟩
  refine h.replace [(s, p)] [] p.cells ⟨?_, ?_, ⟨hnodup, List.nodup_nil⟩, ?_, ?_, ?_, ?_, ?_, ?_⟩
  · intro e he
    cases he
  · intro a ha hnone
    obtain ⟨c, hc, rfl⟩ := List.mem_map.mp ha
    have hsome := hchain.isSome hc
    rw [Memory.link, Option.isSome_map] at hsome
    exact Option.isSome_iff_ne_none.mp hsome hnone
  · intro a ha
    rw [addrs_cellsOf_one]
    exact .inl ha
  · intro s' hs'
    cases hs'
  · intro a ha hno
    rw [addrs_cellsOf_one] at ha
    exact absurd ha hno
  · intro s' hs' _
    rw [List.mem_singleton.mp hs']
    exact putStack_stack _
  · exact fun a _ _ => rfl
  · exact fun x hx _ => putStack_stack_of_ne _ fun he => hx (he ▸ List.mem_cons_self)

/-- The loop frees the nodes from the top and hands their infos over. -/
theorem destroyNodes_of {l : List (Cell δ)} {fuel : Nat} (h : Chain m.link l 0) (h0 : 0 ∉ addrs l)
    (hnodup : (addrs l).Nodup) (hfuel : l.length < fuel) :
    ∃ m', destroyNodes fuel (start l 0) m = some ((), m') ∧ m'.stack = m.stack ∧
      m'.given = m.given ++ l.map Prod.snd ∧ (∀ a ∈ addrs l, m'.node a = none) ∧
      ∀ a, a ∉ addrs l → m'.node a = m.node a := by
  induction l generalizing m fuel with
  | nil =>
    obtain ⟨fuel, rfl⟩ := Nat.exists_eq_succ_of_ne_zero (Nat.ne_of_gt hfuel)
    refine ⟨m, rfl, rfl, (List.append_nil _).symm, ?_, fun a _ => rfl⟩
    intro a ha
    cases ha
  | cons c l ih =>
    obtain ⟨fuel, rfl⟩ := Nat.exists_eq_succ_of_ne_zero (Nat.ne_zero_of_lt hfuel)
    obtain ⟨hnotin, hnodup⟩ := List.nodup_cons.mp hnodup
    have hc0 : c.1 ≠ 0 := fun he => h0 (he ▸ List.mem_cons_self)
    have hn := link_eq_some.mp h.1
    let m₁ : Memory δ := { m with given := m.given ++ [c.2] }
    have hn' : m₁.node c.1 = _ := hn
    have hl : Chain (m₁.putNode c.1 none).link l 0 := by
      rw [putNode_link]
      exact h.2.update hnotin _
    obtain ⟨m', hrun, hstack, hgiven, hgone, hkept⟩ :=
      ih hl (fun hmem => h0 (List.mem_cons_of_mem _ hmem)) hnodup (Nat.lt_of_succ_lt_succ hfuel)
    refine ⟨m', ?_, hstack, ?_, ?_, ?_⟩
    · have hdest : destFunc c.2 m = some ((), m₁) := rfl
      rw [start_cons, destroyNodes, if_pos hc0, bind_of (readNode_of hn _),
        bind_of (readNode_of hn _), bind_of hdest, bind_of (freeNode_of hn')]
      exact hrun
    · rw [hgiven, putNode_given, List.append_assoc]
      rfl
    · intro a ha
      rcases List.mem_cons.mp ha with rfl | ha
      · rw [hkept _ hnotin, putNode_node]
      · exact hgone a ha
    · intro a ha
      obtain ⟨hac, hal⟩ := not_or.mp (mt List.mem_cons.mpr ha)
      rw [hkept a hal, putNode_node_of_ne _ hac]

theorem destroy_yields {fuel : Nat} (h : Holds base ⟨(s, p) :: rest, lost⟩ m)
    (hfuel : p.cells.length < fuel) :
    Yields base (stackDestroy fuel s) m () ⟨rest, lost⟩ (p.cells.map Prod.snd) := by
  obtain ⟨⟨hstack, hchain⟩, hs, h0, hnodup⟩ := h.front
  obtain ⟨m', hrun, hstack', hgiven, hgone, hkept⟩ := destroyNodes_of hchain h0 hnodup hfuel
  refine ⟨m'.putStack s none, ?_, ?_, hgiven⟩
  · rw [stackDestroy, bind_of (readStack_of hstack _), if_pos hs]
    exact (bind_of hrun _).trans (freeStack_of (by rw [hstack']; exact hstack))
  · refine h.replace [(s, p)] [] []
      ⟨?_, ?_, ⟨List.nodup_nil, List.nodup_nil⟩, ?_, ?_, ?_, ?_, ?_, ?_⟩
    · intro e he
      cases he
    · intro a ha
      cases ha
    · intro a ha
      cases ha
    · intro s' hs'
      cases hs'
    · intro a ha _
      rw [addrs_cellsOf_one] at ha
      exact hgone a ha
    · intro s' hs' _
      rw [List.mem_singleton.mp hs']
      exact putStack_stack _
    · intro a ha _
      rw [addrs_cellsOf_one] at ha
      exact hkept a ha
    · intro x hx _
      rw [putStack_stack_of_ne _ fun he : x = s => hx (he ▸ List.mem_cons_self), hstack']

end Calls

end Wtools.Stk
