import Wtools.Library.AssocList
import Wtools.StackWorld

/-!
# Sessions with stacks

A program creates stacks, pushes, pops, joins and destroys them. Its answers are those of lists as
long as `StackJoin` is not given an empty second stack where the first one is not empty. After such
a join the next one that has this stack first frees the stack and leaves its nodes behind.
-/

namespace Wtools.Stk

open AssocList LinkedList
open scoped List

variable {δ : Type} {base m m' : Memory δ} {a s t : Nat} {v : δ} {w : World δ}

theorem Holds.perm {live live' : List (Nat × Pile δ)} {lost : List (Cell δ)}
    (h : Holds base ⟨live, lost⟩ m) (hp : live.Perm live') : Holds base ⟨live', lost⟩ m := by
  have hcells : (addrs (World.mk live lost).cells).Perm (addrs (World.mk live' lost).cells) :=
    ((hp.flatMap_right _).append_right lost).map _
  have hkeys : (keys live).Perm (keys live') := hp.map _
  refine ⟨fun e he => h.laid e (hp.mem_iff.mpr he), h.lost,
    ⟨hcells.nodup_iff.mp h.nodup.1, hkeys.nodup_iff.mp h.nodup.2⟩,
    ⟨fun a ha => h.unused.1 a (hcells.mem_iff.mpr ha),
      fun s hs => h.unused.2 s (hkeys.mem_iff.mpr hs)⟩,
    fun a ha => h.node a (mt hcells.mem_iff.mp ha),
    fun s hs => h.stack s (mt hkeys.mem_iff.mp hs)⟩

/-- What the stacks and the lost nodes hold. -/
def World.infos (w : World δ) : List δ := w.cells.map Prod.snd

theorem infos_cons (s : Nat) (p : Pile δ) (live : List (Nat × Pile δ)) (lost : List (Cell δ)) :
    (World.mk ((s, p) :: live) lost).infos = p.cells.map Prod.snd ++ (World.mk live lost).infos := by
  rw [World.infos, World.infos, World.cells, World.cells, cellsOf, List.flatMap_cons,
    List.append_assoc, List.map_append]
  rfl

theorem infos_perm {live live' : List (Nat × Pile δ)} {lost : List (Cell δ)}
    (hp : live.Perm live') : (World.mk live lost).infos.Perm (World.mk live' lost).infos :=
  ((hp.flatMap_right _).append_right lost).map _

theorem infos_one (hk : (keys w.live).Nodup) (hs : s ∈ keys w.live) :
    w.infos.Perm ((held s w.live).cells.map Prod.snd ++
      (World.mk (others s w.live) w.lost).infos) := by
  rw [← infos_cons s]
  exact infos_perm (perm_others hk hs)

theorem infos_two (hk : (keys w.live).Nodup) (hs : s ∈ keys w.live) (ht : t ∈ keys w.live)
    (hst : s ≠ t) : w.infos.Perm ((held s w.live).cells.map Prod.snd ++
      ((held t w.live).cells.map Prod.snd ++
        (World.mk (others t (others s w.live)) w.lost).infos)) := by
  refine (infos_one hk hs).trans (List.Perm.append_left _ ?_)
  rw [← held_others hst.symm]
  exact infos_one (w := ⟨others s w.live, w.lost⟩) (nodup_others hk)
    (mem_keys_others hst.symm ht)

theorem Holds.one (h : Holds base w m) (hs : s ∈ keys w.live) :
    Holds base ⟨(s, held s w.live) :: others s w.live, w.lost⟩ m :=
  h.perm (perm_others h.nodup.2 hs)

theorem Holds.two (h : Holds base w m) (hs : s ∈ keys w.live) (ht : t ∈ keys w.live)
    (hst : s ≠ t) : Holds base
      ⟨(s, held s w.live) :: (t, held t w.live) :: others t (others s w.live), w.lost⟩ m := by
  refine h.perm ((perm_others h.nodup.2 hs).trans (List.Perm.cons _ ?_))
  rw [← held_others hst.symm]
  exact perm_others (nodup_others h.nodup.2) (mem_keys_others hst.symm ht)

theorem Fresh.one (ha : Fresh base w a) (hk : (keys w.live).Nodup) (hs : s ∈ keys w.live) :
    Fresh base ⟨(s, held s w.live) :: others s w.live, w.lost⟩ a := by
  have hp := perm_others hk hs
  have hcells : (addrs w.cells).Perm
      (addrs (World.mk ((s, held s w.live) :: others s w.live) w.lost).cells) :=
    ((hp.flatMap_right _).append_right w.lost).map _
  exact ⟨ha.1, mt hcells.mem_iff.mpr ha.2.1, mt (hp.map Prod.fst).mem_iff.mpr ha.2.2⟩

theorem Yields.map {β γ : Type} {call : St δ β} {answer : β} {infos : List δ}
    (h : Yields base call m answer w infos) (f : β → γ) :
    Yields base (call >>= fun x => pure (f x)) m (f answer) w infos := by
  obtain ⟨m', hrun, hrest⟩ := h
  exact ⟨m', bind_of hrun _, hrest⟩

/-- The world of a program that has no stacks. -/
def nothing : World δ := ⟨[], []⟩

theorem holds_nothing (m : Memory δ) : Holds m nothing m := by
  refine ⟨?_, ?_, ⟨List.nodup_nil, List.nodup_nil⟩, ⟨?_, ?_⟩, fun _ _ => rfl, fun _ _ => rfl⟩
  all_goals
    intro x hx
    cases hx

/-- The calls of a program. `SafeMalloc` is given what it returns and what lies there. -/
inductive Op (δ : Type) where
  | create (s : Nat) (junk : StkStack)
  | push (s : Nat) (v : δ) (a : Nat) (junk : StkStackNode δ)
  | pop (s : Nat)
  | notEmpty (s : Nat)
  | join (s t : Nat)
  | destroy (s : Nat)

inductive Answer (δ : Type) where
  | stack (s : Nat)
  | info (v : δ)
  | flag (b : Bool)
  | done
  deriving DecidableEq, Repr

/-- What a call makes of the world. -/
def Op.apply : Op δ → World δ → World δ
  | .create s _, w => ⟨(s, ⟨[], false⟩) :: w.live, w.lost⟩
  | .push s v a _, w => ⟨(s, (held s w.live).push (a, v)) :: others s w.live, w.lost⟩
  | .pop s, w => ⟨(s, (held s w.live).pop) :: others s w.live, w.lost⟩
  | .notEmpty _, w => w
  | .join s t, w =>
    if (held s w.live).HasTail then
      ⟨(s, (held s w.live).join (held t w.live)) :: others t (others s w.live), w.lost⟩
    else ⟨others s w.live, (held s w.live).cells ++ w.lost⟩
  | .destroy s, w => ⟨others s w.live, w.lost⟩

/-- What a call hands to `DestFunc`. -/
def Op.given : Op δ → World δ → List δ
  | .destroy s, w => (held s w.live).cells.map Prod.snd
  | _, _ => []

/-- `SafeMalloc` returns unused memory, and a program uses the stacks it has. It does not join a stack
with itself: `StackJoin` then frees the stack that it returns. -/
def Op.Legal (base : Memory δ) : Op δ → World δ → Prop
  | .create s _, w => Fresh base w s
  | .push s _ a _, w => s ∈ keys w.live ∧ Fresh base w a
  | .pop s, w => s ∈ keys w.live
  | .notEmpty s, w => s = 0 ∨ s ∈ keys w.live
  | .join s t, w => s ∈ keys w.live ∧ t ∈ keys w.live ∧ s ≠ t
  | .destroy s, w => s ∈ keys w.live

def LegalRun (base : Memory δ) : List (Op δ) → World δ → Prop
  | [], _ => True
  | op :: ops, w => op.Legal base w ∧ LegalRun base ops (op.apply w)

def world (ops : List (Op δ)) (w : World δ) : World δ := ops.foldl (fun w op => op.apply w) w

def givenBy : List (Op δ) → World δ → List δ
  | [], _ => []
  | op :: ops, w => op.given w ++ givenBy ops (op.apply w)

instance (base : Memory δ) (w : World δ) (a : Nat) : Decidable (Fresh base w a) :=
  inferInstanceAs (Decidable (_ ∧ _ ∧ _))

instance (base : Memory δ) (op : Op δ) (w : World δ) : Decidable (op.Legal base w) :=
  match op with
  | .create _ _ => inferInstanceAs (Decidable (Fresh _ _ _))
  | .push _ _ _ _ => inferInstanceAs (Decidable (_ ∧ _))
  | .pop _ => inferInstanceAs (Decidable (_ ∈ _))
  | .notEmpty _ => inferInstanceAs (Decidable (_ ∨ _))
  | .join _ _ => inferInstanceAs (Decidable (_ ∧ _ ∧ _))
  | .destroy _ => inferInstanceAs (Decidable (_ ∈ _))

instance decidableLegalRun (base : Memory δ) :
    (ops : List (Op δ)) → (w : World δ) → Decidable (LegalRun base ops w)
  | [], _ => .isTrue trivial
  | op :: ops, w =>
    haveI := decidableLegalRun base ops (op.apply w)
    inferInstanceAs (Decidable (_ ∧ _))

/-- What a call brings in. -/
def Op.pushed : Op δ → List δ
  | .push _ v _ _ => [v]
  | _ => []

/-- What a call takes out. -/
def Op.popped : Op δ → World δ → List δ
  | .pop s, w => ((held s w.live).cells.head?.map Prod.snd).toList
  | _, _ => []

def poppedBy : List (Op δ) → World δ → List δ
  | [], _ => []
  | op :: ops, w => op.popped w ++ poppedBy ops (op.apply w)

/-- Nothing appears or disappears in a call. -/
theorem Op.accounts {op : Op δ} (hk : (keys w.live).Nodup) (hop : op.Legal base w) :
    (op.pushed ++ w.infos).Perm (op.popped w ++ op.given w ++ (op.apply w).infos) := by
  cases op with
  | create s junk => exact .refl _
  | push s v a junk =>
    rw [Op.apply, infos_cons]
    exact (infos_one hk hop.1).cons v
  | pop s =>
    have hgiven : (Op.pop s).given w = [] := rfl
    rw [Op.apply, infos_cons, hgiven, List.append_nil, ← List.append_assoc]
    refine (infos_one hk hop).trans (List.Perm.of_eq (congrArg (· ++ _) ?_))
    rw [Op.popped, Pile.pop]
    cases (held s w.live).cells <;> rfl
  | notEmpty s => exact .refl _
  | join s t =>
    change List.Perm w.infos (Op.apply (.join s t) w).infos
    rw [Op.apply]
    split
    · rw [infos_cons, Pile.join, List.map_append, List.append_assoc]
      exact infos_two hk hop.1 hop.2.1 hop.2.2
    · refine (infos_one hk hop.1).trans ?_
      rw [World.infos, World.infos, World.cells, World.cells, ← List.map_append]
      refine List.Perm.map _ ?_
      rw [← List.append_assoc, ← List.append_assoc]
      exact List.perm_append_comm.append_right _
  | destroy s => exact infos_one hk hop

theorem Op.length_cells {op : Op δ} (hk : (keys w.live).Nodup) (hop : op.Legal base w) :
    (op.apply w).cells.length ≤ w.cells.length + 1 := by
  have hlength := (op.accounts hk hop).length_eq
  have hpushed : op.pushed.length ≤ 1 := by
    cases op <;> simp [Op.pushed]
  simp only [World.infos, List.length_append, List.length_map] at hlength
  omega

section Runs
variable [Inhabited δ]

def Op.run (fuel : Nat) : Op δ → St δ (Answer δ)
  | .create s junk => do return .stack (← stackCreate s junk)
  | .push s v a junk => do
    stackPush s v a junk
    return .done
  | .pop s => do return .info (← stackPop s)
  | .notEmpty s => do return .flag (← stackNotEmpty s)
  | .join s t => do return .stack (← stackJoin s t)
  | .destroy s => do
    stackDestroy fuel s
    return .done

def runAll (fuel : Nat) : List (Op δ) → St δ (List (Answer δ))
  | [] => pure []
  | op :: ops => do
    let answer ← op.run fuel
    return answer :: (← runAll fuel ops)

def Op.answer : Op δ → World δ → Answer δ
  | .create s _, _ => .stack s
  | .push _ _ _ _, _ => .done
  | .pop s, w => .info (((held s w.live).cells.head?.map Prod.snd).getD default)
  | .notEmpty s, w => .flag (decide (s ≠ 0 ∧ (held s w.live).cells ≠ []))
  | .join s t, w => .stack (if (held s w.live).HasTail then s else t)
  | .destroy _, _ => .done

def answers : List (Op δ) → World δ → List (Answer δ)
  | [], _ => []
  | op :: ops, w => op.answer w :: answers ops (op.apply w)

/-- A call does to the memory what it does to the world. -/
theorem Op.yields {op : Op δ} {fuel : Nat} (h : Holds base w m) (hop : op.Legal base w)
    (hfuel : w.cells.length < fuel) :
    Yields base (op.run fuel) m (op.answer w) (op.apply w) (op.given w) := by
  cases op with
  | create s junk => exact (create_yields h hop junk).map _
  | push s v a junk =>
    exact (push_yields (h.one hop.1) (hop.2.one h.nodup.2 hop.1) v junk).map fun _ => Answer.done
  | pop s => exact (pop_yields (h.one hop)).map _
  | notEmpty s =>
    refine (?_ : Yields base (stackNotEmpty s) m _ w []).map _
    by_cases hs : s = 0
    · refine ⟨m, ?_, h, (List.append_nil _).symm⟩
      rw [stackNotEmpty, if_neg (not_not_intro hs), decide_eq_false fun hboth => hboth.1 hs]
      rfl
    · obtain ⟨m', hrun, hm', hgiven⟩ := notEmpty_yields (h.one (hop.resolve_left hs))
      have hp := perm_others h.nodup.2 (hop.resolve_left hs)
      refine ⟨m', hrun.trans ?_, hm'.perm hp.symm, hgiven⟩
      simp [hs]
  | join s t =>
    rw [Op.run, Op.answer, Op.apply]
    by_cases htail : (held s w.live).HasTail
    · rw [if_pos htail, if_pos htail]
      exact (join_yields (h.two hop.1 hop.2.1 hop.2.2) htail).map _
    · rw [if_neg htail, if_neg htail]
      exact (join_drops (h.one hop.1) htail t).map _
  | destroy s =>
    have hlength : (held s w.live).cells.length ≤ w.cells.length := by
      have hperm := (infos_one h.nodup.2 hop).length_eq
      simp only [World.infos, List.length_append, List.length_map] at hperm
      omega
    exact (destroy_yields (h.one hop) (Nat.lt_of_le_of_lt hlength hfuel)).map fun _ => Answer.done

/-- A legal run does to the memory what it does to the world, and accounts for every info. -/
theorem runAll_yields {ops : List (Op δ)} {fuel : Nat} (h : Holds base w m)
    (hops : LegalRun base ops w) (hfuel : w.cells.length + ops.length < fuel) :
    Yields base (runAll fuel ops) m (answers ops w) (world ops w) (givenBy ops w) ∧
      (ops.flatMap Op.pushed ++ w.infos).Perm
        (poppedBy ops w ++ givenBy ops w ++ (world ops w).infos) := by
  induction ops generalizing w m with
  | nil => exact ⟨⟨m, rfl, h, (List.append_nil _).symm⟩, .refl _⟩
  | cons op ops ih =>
    obtain ⟨hop, hops⟩ := hops
    rw [List.length_cons] at hfuel
    obtain ⟨m₁, hrun, h₁, hgiven⟩ := op.yields h hop (Nat.lt_of_le_of_lt (Nat.le_add_right _ _) hfuel)
    have hcells := op.length_cells h.nodup.2 hop
    obtain ⟨⟨m', hrun', h', hgiven'⟩, hperm⟩ := ih h₁ hops (by omega)
    refine ⟨⟨m', ?_, h', ?_⟩, ?_⟩
    · rw [runAll, bind_of hrun, bind_of hrun']
      rfl
    · rw [hgiven', hgiven, List.append_assoc]
      rfl
    · have hstep := op.accounts h.nodup.2 hop
      calc (op :: ops).flatMap Op.pushed ++ w.infos
          = op.pushed ++ (ops.flatMap Op.pushed ++ w.infos) := by
            rw [List.flatMap_cons, List.append_assoc]
        _ ~ ops.flatMap Op.pushed ++ (op.pushed ++ w.infos) := List.perm_append_comm_assoc ..
        _ ~ ops.flatMap Op.pushed ++ (op.popped w ++ op.given w ++ (op.apply w).infos) :=
            hstep.append_left _
        _ ~ op.popped w ++ op.given w ++ (ops.flatMap Op.pushed ++ (op.apply w).infos) :=
            List.perm_append_comm_assoc ..
        _ ~ op.popped w ++ op.given w ++ (poppedBy ops (op.apply w) ++ givenBy ops (op.apply w) ++
              (world ops (op.apply w)).infos) := hperm.append_left _
        _ ~ poppedBy (op :: ops) w ++ givenBy (op :: ops) w ++ (world (op :: ops) w).infos := by
            simp only [poppedBy, givenBy, List.append_assoc]
            exact (List.perm_append_comm_assoc ..).append_left _

/-- Whatever a program does with its stacks, its memory is that of the world, and every info pushed
has been popped, was handed to `DestFunc`, lies in a stack or is lost, and only one of these. -/
theorem session_accounts {ops : List (Op δ)} {fuel : Nat} (hlegal : LegalRun m ops nothing)
    (hfuel : ops.length < fuel) :
    ∃ m', runAll fuel ops m = some (answers ops nothing, m') ∧ Holds m (world ops nothing) m' ∧
      m'.given = m.given ++ givenBy ops nothing ∧
      (ops.flatMap Op.pushed).Perm
        (poppedBy ops nothing ++ givenBy ops nothing ++ (world ops nothing).infos) := by
  obtain ⟨⟨m', hrun, hm', hgiven⟩, hperm⟩ :=
    runAll_yields (holds_nothing m) hlegal (by simpa [nothing, World.cells, cellsOf] using hfuel)
  refine ⟨m', hrun, hm', hgiven, ?_⟩
  rwa [show (nothing : World δ).infos = [] from rfl, List.append_nil] at hperm

def noMemory : Memory Nat := ⟨fun _ => none, fun _ => none, []⟩

/-- The second stack is empty, so the first one is dropped when it is joined again. -/
def dropping : List (Op Nat) :=
  [.create 1 ⟨7, 7⟩, .push 1 5 10 ⟨0, 9⟩, .create 2 ⟨7, 7⟩, .join 1 2, .create 3 ⟨7, 7⟩, .join 1 3,
    .destroy 3]

theorem session_accounts_dropping :
    ∃ m', runAll 9 dropping noMemory =
        some ([.stack 1, .done, .stack 2, .stack 1, .stack 3, .stack 3, .done], m') ∧
      Holds noMemory ⟨[], [(10, 5)]⟩ m' ∧ m'.given = [] ∧ [5].Perm ([] ++ [] ++ [5]) :=
  session_accounts (m := noMemory) (by decide) (by decide)

end Runs

section Leaks

/-- A first stack that holds something knows its last node. -/
def Op.Keeps : Op δ → World δ → Prop
  | .join s _, w => (held s w.live).cells = [] ∨ (held s w.live).tailed = true
  | _, _ => True

def KeepsAll : List (Op δ) → World δ → Prop
  | [], _ => True
  | op :: ops, w => op.Keeps w ∧ KeepsAll ops (op.apply w)

theorem Op.lost_eq_nil_iff (op : Op δ) (w : World δ) :
    (op.apply w).lost = [] ↔ w.lost = [] ∧ op.Keeps w := by
  cases op with
  | join s t =>
    rw [Op.apply, Op.Keeps]
    by_cases htail : (held s w.live).HasTail
    · rw [if_pos htail]
      exact ⟨fun h => ⟨h, .inr htail.1⟩, And.left⟩
    · rw [if_neg htail, List.append_eq_nil_iff, and_comm]
      refine and_congr_right fun _ => ⟨.inl, fun h => h.elim id fun ht => ?_⟩
      by_contra hne
      exact htail ⟨ht, hne⟩
  | _ => exact (and_iff_left trivial).symm

theorem lost_eq_nil_iff (ops : List (Op δ)) (w : World δ) :
    (world ops w).lost = [] ↔ w.lost = [] ∧ KeepsAll ops w := by
  induction ops generalizing w with
  | nil => exact (and_iff_left trivial).symm
  | cons op ops ih =>
    rw [world, List.foldl_cons, ← world, ih, op.lost_eq_nil_iff, and_assoc, KeepsAll]

/-- The nodes of a first stack that is dropped. -/
def Op.drops : Op δ → World δ → List (Cell δ)
  | .join s _, w => if (held s w.live).HasTail then [] else (held s w.live).cells
  | _, _ => []

def dropsOf : List (Op δ) → World δ → List (Cell δ)
  | [], _ => []
  | op :: ops, w => dropsOf ops (op.apply w) ++ op.drops w

theorem lost_world (ops : List (Op δ)) (w : World δ) :
    (world ops w).lost = dropsOf ops w ++ w.lost := by
  induction ops generalizing w with
  | nil => rfl
  | cons op ops ih =>
    have hstep : (op.apply w).lost = op.drops w ++ w.lost := by
      cases op with
      | join s t =>
        rw [Op.apply, Op.drops]
        split <;> rfl
      | _ => rfl
    rw [world, List.foldl_cons, ← world, ih, hstep, dropsOf, List.append_assoc]

variable [Inhabited δ]

/-- When a program has got rid of all its stacks, the memory it used is free again if and only if
no `StackJoin` was given a first stack that holds something and does not know its last node. The
nodes of these stacks are all that is left, where there was nothing before. -/
theorem session_leaks_iff {ops : List (Op δ)} {fuel : Nat} (hlegal : LegalRun m ops nothing)
    (hfuel : ops.length < fuel) (hend : (world ops nothing).live = []) :
    ∃ m', runAll fuel ops m = some (answers ops nothing, m') ∧ m'.stack = m.stack ∧
      (m'.node = m.node ↔ KeepsAll ops nothing) ∧
      (∀ a ∈ addrs (dropsOf ops nothing), m'.node a ≠ none ∧ m.Unused a) ∧
      ∀ a, a ∉ addrs (dropsOf ops nothing) → m'.node a = m.node a := by
  obtain ⟨⟨m', hrun, hm', -⟩, -⟩ :=
    runAll_yields (holds_nothing m) hlegal (by simpa [nothing, World.cells, cellsOf] using hfuel)
  have hlost : (world ops nothing).lost = dropsOf ops nothing := by
    rw [lost_world, nothing, List.append_nil]
  have hcells : (world ops nothing).cells = dropsOf ops nothing := by
    rw [World.cells, hend, hlost]
    rfl
  have hleft : ∀ a ∈ addrs (dropsOf ops nothing), m'.node a ≠ none ∧ m.Unused a := fun a ha =>
    ⟨hm'.lost a (hlost ▸ ha), hm'.unused.1 a (hcells ▸ ha)⟩
  have hrest : ∀ a, a ∉ addrs (dropsOf ops nothing) → m'.node a = m.node a := fun a ha =>
    hm'.node a (hcells ▸ ha)
  refine ⟨m', hrun, ?_, ?_, hleft, hrest⟩
  · funext s
    refine hm'.stack s ?_
    rw [hend]
    exact List.not_mem_nil
  · rw [← (lost_eq_nil_iff ops nothing).trans (and_iff_right rfl), hlost]
    constructor
    · intro hnode
      refine List.eq_nil_iff_forall_not_mem.mpr fun c hc => ?_
      obtain ⟨hsome, hunused⟩ := hleft c.1 (List.mem_map_of_mem hc)
      rw [hnode] at hsome
      exact hsome hunused.2.1
    · intro hnone
      funext a
      refine hrest a ?_
      rw [hnone]
      exact List.not_mem_nil

theorem session_leaks_iff_dropping :
    ∃ m', runAll 9 dropping noMemory = some (answers dropping nothing, m') ∧
      m'.stack = noMemory.stack ∧ (m'.node = noMemory.node ↔ KeepsAll dropping nothing) ∧
      (∀ a ∈ [10], m'.node a ≠ none ∧ noMemory.Unused a) ∧
      ∀ a, a ∉ [10] → m'.node a = noMemory.node a :=
  session_leaks_iff (by decide) (by decide) rfl

end Leaks

section Lists

/-- What a call makes of stacks that are lists. -/
def Op.onLists : Op δ → List (Nat × List δ) → List (Nat × List δ)
  | .create s _, l => (s, []) :: l
  | .push s v _ _, l => (s, v :: held s l) :: others s l
  | .pop s, l => (s, (held s l).tail) :: others s l
  | .notEmpty _, l => l
  | .join s t, l =>
    if held s l = [] then others s l
    else (s, held s l ++ held t l) :: others t (others s l)
  | .destroy s, l => others s l

def lists (ops : List (Op δ)) (l : List (Nat × List δ)) : List (Nat × List δ) :=
  ops.foldl (fun l op => op.onLists l) l

/-- A stack that holds something is not joined with an empty one. -/
def Op.Filled : Op δ → List (Nat × List δ) → Prop
  | .join s t, l => held s l ≠ [] → held t l ≠ []
  | _, _ => True

def FilledAll : List (Op δ) → List (Nat × List δ) → Prop
  | [], _ => True
  | op :: ops, l => op.Filled l ∧ FilledAll ops (op.onLists l)

/-- The infos in the stacks. -/
def contents (live : List (Nat × Pile δ)) : List (Nat × List δ) :=
  live.map fun e => (e.1, e.2.cells.map Prod.snd)

/-- Every stack knows its last node. -/
def Tailed (live : List (Nat × Pile δ)) : Prop :=
  ∀ e ∈ live, e.2.cells ≠ [] → e.2.tailed = true

theorem Tailed.held {live : List (Nat × Pile δ)} (h : Tailed live) (s : Nat)
    (hne : (AssocList.held s live).cells ≠ []) : (AssocList.held s live).tailed = true := by
  induction live with
  | nil => exact absurd rfl hne
  | cons e live ih =>
    by_cases hes : s = e.1
    · rw [hes, held_cons_self] at hne ⊢
      exact h e List.mem_cons_self hne
    · rw [held_cons_of_ne hes] at hne ⊢
      exact ih (fun e he => h e (List.mem_cons_of_mem _ he)) hne

theorem Tailed.others {live : List (Nat × Pile δ)} (h : Tailed live) (s : Nat) :
    Tailed (AssocList.others s live) := fun e he => h e (List.mem_of_mem_filter he)

theorem Tailed.cons {live : List (Nat × Pile δ)} (h : Tailed live) {p : Pile δ} (s : Nat)
    (hp : p.cells ≠ [] → p.tailed = true) : Tailed ((s, p) :: live) := by
  intro e he
  rcases List.mem_cons.mp he with rfl | he
  · exact hp
  · exact h e he

theorem held_contents (s : Nat) (live : List (Nat × Pile δ)) :
    held s (contents live) = (held s live).cells.map Prod.snd :=
  held_map (fun p : Pile δ => p.cells.map Prod.snd) rfl s live

theorem others_contents (s : Nat) (live : List (Nat × Pile δ)) :
    others s (contents live) = contents (others s live) :=
  others_map (fun p : Pile δ => p.cells.map Prod.snd) s live

theorem held_contents_eq_nil {live : List (Nat × Pile δ)} :
    held s (contents live) = [] ↔ (held s live).cells = [] := by
  rw [held_contents, List.map_eq_nil_iff]

theorem Op.onLists_of {op : Op δ} (ht : Tailed w.live) (hf : op.Filled (contents w.live)) :
    Tailed (op.apply w).live ∧ contents (op.apply w).live = op.onLists (contents w.live) ∧
      op.Keeps w := by
  cases op with
  | create s junk => exact ⟨ht.cons s fun h => absurd rfl h, rfl, trivial⟩
  | push s v a junk =>
    refine ⟨(ht.others s).cons s fun _ => ?_, ?_, trivial⟩
    · by_cases hne : (AssocList.held s w.live).cells = []
      · simp [Pile.push, hne]
      · simp [Pile.push, ht.held s hne]
    · rw [Op.onLists, held_contents, others_contents]
      rfl
  | pop s =>
    refine ⟨(ht.others s).cons s fun hne => ht.held s ?_, ?_, trivial⟩
    · intro hnil
      rw [Pile.pop, hnil] at hne
      exact hne rfl
    · rw [Op.onLists, held_contents, others_contents, ← List.map_tail]
      rfl
  | notEmpty s => exact ⟨ht, rfl, trivial⟩
  | join s t =>
    rw [Op.Filled, Ne, Ne, held_contents_eq_nil, held_contents_eq_nil] at hf
    rw [Op.apply, Op.onLists]
    by_cases hnil : (AssocList.held s w.live).cells = []
    · rw [if_neg fun h => h.2 hnil, if_pos (held_contents_eq_nil.mpr hnil), others_contents]
      exact ⟨ht.others s, rfl, .inl hnil⟩
    · rw [if_pos ⟨ht.held s hnil, hnil⟩, if_neg (mt held_contents_eq_nil.mp hnil)]
      refine ⟨((ht.others s).others t).cons s fun _ => ?_, ?_, .inr (ht.held s hnil)⟩
      · simp [Pile.join, ht.held t (hf hnil), hf hnil]
      · rw [held_contents, held_contents, others_contents, others_contents, ← List.map_append]
        rfl
  | destroy s => exact ⟨ht.others s, (others_contents s w.live).symm, trivial⟩

variable [Inhabited δ]

def Op.listAnswer : Op δ → List (Nat × List δ) → Answer δ
  | .create s _, _ => .stack s
  | .push _ _ _ _, _ => .done
  | .pop s, l => .info ((held s l).head?.getD default)
  | .notEmpty s, l => .flag (decide (s ≠ 0 ∧ held s l ≠ []))
  | .join s t, l => .stack (if held s l = [] then t else s)
  | .destroy _, _ => .done

def listAnswers : List (Op δ) → List (Nat × List δ) → List (Answer δ)
  | [], _ => []
  | op :: ops, l => op.listAnswer l :: listAnswers ops (op.onLists l)

theorem Op.answer_of {op : Op δ} (ht : Tailed w.live) :
    op.answer w = op.listAnswer (contents w.live) := by
  cases op with
  | pop s => rw [Op.answer, Op.listAnswer, held_contents, List.head?_map]
  | notEmpty s =>
    rw [Op.answer, Op.listAnswer]
    congr 1
    exact decide_eq_decide.mpr (and_congr_right fun _ => not_congr held_contents_eq_nil.symm)
  | join s t =>
    rw [Op.answer, Op.listAnswer]
    by_cases hnil : (AssocList.held s w.live).cells = []
    · rw [if_neg fun h => h.2 hnil, if_pos (held_contents_eq_nil.mpr hnil)]
    · rw [if_pos ⟨ht.held s hnil, hnil⟩, if_neg (mt held_contents_eq_nil.mp hnil)]
  | _ => rfl

theorem lists_of {ops : List (Op δ)} (ht : Tailed w.live) (hf : FilledAll ops (contents w.live)) :
    contents (world ops w).live = lists ops (contents w.live) ∧
      answers ops w = listAnswers ops (contents w.live) ∧ KeepsAll ops w := by
  induction ops generalizing w with
  | nil => exact ⟨rfl, rfl, trivial⟩
  | cons op ops ih =>
    obtain ⟨ht', hlists, hkeeps⟩ := op.onLists_of ht hf.1
    obtain ⟨hall, hanswers, hkeepsAll⟩ := ih ht' (hlists ▸ hf.2)
    refine ⟨?_, ?_, hkeeps, hkeepsAll⟩
    · rw [lists, List.foldl_cons, ← hlists]
      exact hall
    · rw [answers, listAnswers, op.answer_of ht, hanswers, hlists]

/-- As long as no stack that holds something is joined with an empty one, the stacks of a program
hold what lists would hold, the answers are those of lists, and nothing is lost. -/
theorem session_lists {ops : List (Op δ)} {fuel : Nat} (hlegal : LegalRun m ops nothing)
    (hfuel : ops.length < fuel) (hfilled : FilledAll ops []) :
    ∃ m' w, runAll fuel ops m = some (listAnswers ops [], m') ∧ Holds m w m' ∧
      contents w.live = lists ops [] ∧ w.lost = [] := by
  obtain ⟨⟨m', hrun, hm', -⟩, -⟩ :=
    runAll_yields (holds_nothing m) hlegal (by simpa [nothing, World.cells, cellsOf] using hfuel)
  obtain ⟨hlists, hanswers, hkeeps⟩ :=
    lists_of (w := nothing) (fun e he => absurd he List.not_mem_nil) hfilled
  rw [hanswers] at hrun
  exact ⟨m', _, hrun, hm', hlists, (lost_eq_nil_iff ops nothing).mpr ⟨rfl, hkeeps⟩⟩

/-- Two stacks are joined, the result is popped and what is left is destroyed. -/
def joining : List (Op Nat) :=
  [.create 1 ⟨7, 7⟩, .push 1 5 10 ⟨0, 9⟩, .create 2 ⟨7, 7⟩, .push 2 6 11 ⟨0, 9⟩, .join 1 2, .pop 1,
    .notEmpty 1, .destroy 1]

theorem session_lists_joining :
    ∃ m' w, runAll 9 joining noMemory =
        some ([.stack 1, .done, .stack 2, .done, .stack 1, .info 5, .flag true, .done], m') ∧
      Holds noMemory w m' ∧ contents w.live = [] ∧ w.lost = [] :=
  session_lists (m := noMemory) (by decide) (by decide)
    ⟨trivial, trivial, trivial, trivial, fun _ => List.cons_ne_nil _ _, trivial, trivial, trivial,
      trivial⟩

end Lists

end Wtools.Stk
