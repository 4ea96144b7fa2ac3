import Wtools.Stack
import Mathlib.Data.List.Perm.Basic
import Mathlib.Data.List.Nodup

/-!
# The calls on stacks

What each function of `stack.c` writes, given what it reads.
-/

namespace Wtools.Stk

open LinkedList

variable {δ β γ : Type} {m m' : Memory δ} {n : StkStackNode δ} {k k₂ : StkStack}
  {a s t x fuel : Nat}

theorem bind_of {f : St δ β} {b : β} (h : f m = some (b, m')) (g : β → St δ γ) :
    (f >>= g) m = g b m' := by
  change (f m).bind _ = _
  rw [h]
  rfl

theorem readNode_of (h : m.node a = some n) (field : StkStackNode δ → β) :
    readNode a field m = some (field n, m) := by
  rw [readNode, h, Option.map_some]

theorem writeNode_of (h : m.node a = some n) (f : StkStackNode δ → StkStackNode δ) :
    writeNode a f m = some ((), m.putNode a (some (f n))) := by
  rw [writeNode, h, Option.map_some]

theorem readStack_of (h : m.stack s = some k) (field : StkStack → β) :
    readStack s field m = some (field k, m) := by
  rw [readStack, h, Option.map_some]

theorem writeStack_of (h : m.stack s = some k) (f : StkStack → StkStack) :
    writeStack s f m = some ((), m.putStack s (some (f k))) := by
  rw [writeStack, h, Option.map_some]

theorem freeNode_of (h : m.node a = some n) : freeNode a m = some ((), m.putNode a none) := by
  rw [freeNode, h, Option.map_some]

theorem freeStack_of (h : m.stack s = some k) : freeStack s m = some ((), m.putStack s none) := by
  rw [freeStack, h, Option.map_some]

section Put

@[simp] theorem putNode_node (n : Option (StkStackNode δ)) : (m.putNode a n).node a = n := by
  unfold Memory.putNode
  exact Function.update_self ..

theorem putNode_node_of_ne (n : Option (StkStackNode δ)) (h : x ≠ a) :
    (m.putNode a n).node x = m.node x := by
  unfold Memory.putNode
  exact Function.update_of_ne h ..

@[simp] theorem putNode_stack (n : Option (StkStackNode δ)) :
    (m.putNode a n).stack = m.stack := rfl

@[simp] theorem putStack_stack (k : Option StkStack) : (m.putStack s k).stack s = k := by
  unfold Memory.putStack
  exact Function.update_self ..

theorem putStack_stack_of_ne (k : Option StkStack) (h : t ≠ s) :
    (m.putStack s k).stack t = m.stack t := by
  unfold Memory.putStack
  exact Function.update_of_ne h ..

@[simp] theorem putStack_node (k : Option StkStack) : (m.putStack s k).node = m.node := rfl

@[simp] theorem putNode_given (n : Option (StkStackNode δ)) :
    (m.putNode a n).given = m.given := rfl

@[simp] theorem putStack_given (k : Option StkStack) : (m.putStack s k).given = m.given := rfl

@[simp] theorem putNode_putNode (n n' : Option (StkStackNode δ)) :
    (m.putNode a n).putNode a n' = m.putNode a n' := by
  unfold Memory.putNode
  rw [Function.update_idem]

@[simp] theorem putStack_putStack (k k' : Option StkStack) :
    (m.putStack s k).putStack s k' = m.putStack s k' := by
  unfold Memory.putStack
  rw [Function.update_idem]

/-- The links of the nodes. -/
def Memory.link (m : Memory δ) (a : Nat) : Option (δ × Nat) :=
  (m.node a).map fun n => (n.info, n.next)

@[simp] theorem putStack_link (k : Option StkStack) : (m.putStack s k).link = m.link := rfl

theorem putNode_link (n : Option (StkStackNode δ)) :
    (m.putNode a n).link = Function.update m.link a (n.map fun n => (n.info, n.next)) := by
  funext x
  by_cases h : x = a
  · subst h
    rw [Function.update_self, Memory.link, putNode_node]
  · rw [Function.update_of_ne h, Memory.link, putNode_node_of_ne n h]
    rfl

theorem link_eq_some {v : δ} {next : Nat} :
    m.link a = some (v, next) ↔ m.node a = some ⟨v, next⟩ := by
  unfold Memory.link
  cases m.node a with
  | none => simp
  | some n =>
    cases n
    simp

end Put

section Functions

theorem stackCreate_of (h : m.Unused s) (junk : StkStack) :
    stackCreate s junk m = some (s, m.putStack s (some ⟨0, 0⟩)) := by
  have hmalloc : mallocStack s junk m = some ((), m.putStack s (some junk)) := if_pos h
  rw [stackCreate, bind_of hmalloc, bind_of (writeStack_of (putStack_stack _) _), putStack_putStack]
  rfl

theorem pushNode_of (h : m.stack s = some k) (ha : m.Unused a) (v : δ) (junk : StkStackNode δ) :
    pushNode s v a junk m = some ((),
      (m.putNode a (some ⟨v, k.top⟩)).putStack s (some { k with top := a })) := by
  have hmalloc : mallocNode a junk m = some ((), m.putNode a (some junk)) := if_pos ha
  rw [pushNode, bind_of hmalloc, bind_of (writeNode_of (putNode_node _) _), putNode_putNode,
    bind_of (readStack_of (k := k) (by rwa [putNode_stack]) _),
    bind_of (writeNode_of (putNode_node _) _), putNode_putNode]
  exact writeStack_of (by rwa [putNode_stack]) _

theorem stackPush_of (h : m.stack s = some k) (ha : m.Unused a) (v : δ) (junk : StkStackNode δ) :
    stackPush s v a junk m = some ((), (m.putNode a (some ⟨v, k.top⟩)).putStack s
      (some ⟨a, if k.top = 0 then a else k.tail⟩)) := by
  rw [stackPush, bind_of (readStack_of h _)]
  by_cases htop : k.top = 0
  · rw [if_pos htop, if_pos htop, bind_of (pushNode_of h ha v junk),
      writeStack_of (putStack_stack _) _, putStack_putStack]
  · rw [if_neg htop, if_neg htop, pushNode_of h ha v junk]

theorem stackNotEmpty_of (h : m.stack s = some k) (hs : s ≠ 0) :
    stackNotEmpty s m = some (decide (k.top ≠ 0), m) := by
  rw [stackNotEmpty, if_pos hs, bind_of (readStack_of h _)]
  rfl

theorem stackPop_empty [Inhabited δ] (h : m.stack s = some k) (htop : k.top = 0) :
    stackPop s m = some (default, m) := by
  rw [stackPop, bind_of (readStack_of h _), htop]
  rfl

theorem resetTail_of (h : m.stack s = some k) : resetTail s m =
    some ((), m.putStack s (some { k with tail := if k.top = 0 then 0 else k.tail })) := by
  rw [resetTail, bind_of (readStack_of h _)]
  by_cases htop : k.top = 0
  · rw [if_pos htop, if_pos htop, writeStack_of h]
  · rw [if_neg htop, if_neg htop]
    have hsame : m.putStack s (some k) = m := by
      unfold Memory.putStack
      rw [← h, Function.update_eq_self]
    rw [hsame]
    rfl

theorem stackPop_of [Inhabited δ] (h : m.stack s = some k) (htop : k.top ≠ 0)
    (hn : m.node k.top = some n) : stackPop s m = some (n.info,
      (m.putNode k.top none).putStack s (some ⟨n.next, if n.next = 0 then 0 else k.tail⟩)) := by
  have hfree : freeNode k.top (m.putStack s (some { k with top := n.next })) =
      some ((), (m.putNode k.top none).putStack s (some { k with top := n.next })) :=
    freeNode_of hn
  rw [stackPop, bind_of (readStack_of h _), if_pos htop, popNode, bind_of (readNode_of hn _),
    bind_of (readNode_of hn _), bind_of (writeStack_of h _), bind_of hfree,
    bind_of (resetTail_of (putStack_stack _)), putStack_putStack]
  rfl

theorem stackJoin_lost (h : m.stack s = some k) (htail : k.tail = 0) (t : Nat) :
    stackJoin s t m = some (t, m.putStack s none) := by
  rw [stackJoin, bind_of (readStack_of h _), if_pos htail, bind_of (freeStack_of h)]
  rfl

theorem stackJoin_of (h : m.stack s = some k) (h₂ : m.stack t = some k₂) (hst : s ≠ t)
    (htail : k.tail ≠ 0) (hn : m.node k.tail = some n) : stackJoin s t m = some (s,
      ((m.putNode k.tail (some { n with next := k₂.top })).putStack s
        (some { k with tail := k₂.tail })).putStack t none) := by
  have ht : ((m.putNode k.tail (some { n with next := k₂.top })).putStack s
      (some { k with tail := k₂.tail })).stack t = some k₂ := by
    rwa [putStack_stack_of_ne _ hst.symm, putNode_stack]
  rw [stackJoin, bind_of (readStack_of h _), if_neg htail, linkStacks, bind_of (readStack_of h₂ _),
    bind_of (writeNode_of hn _), bind_of (readStack_of (k := k₂) (by rwa [putNode_stack]) _),
    bind_of (writeStack_of (k := k) (by rwa [putNode_stack]) _), bind_of (freeStack_of ht)]
  rfl

end Functions

end Wtools.Stk
