import Wtools.Library.LinkedList

/-!
# The stacks of the red-black tree

`stack.c`, on a memory of nodes and of stacks. An access to an address that holds nothing of the
kind, a second `free` among them, and a loop that runs out of fuel give `none`. `SafeMalloc` ends
the program when there is no memory, so it is given the address it returns and what lies there.
0 is the NULL pointer, and `default` that of `DATA_TYPE`.
-/

namespace Wtools.Stk

variable {δ β : Type}

/-- `stk_stack_node`. -/
structure StkStackNode (δ : Type) where
  info : δ
  next : Nat
  deriving DecidableEq, Repr

/-- `stk_stack`. -/
structure StkStack where
  top : Nat
  tail : Nat
  deriving DecidableEq, Repr

structure Memory (δ : Type) where
  node : Nat → Option (StkStackNode δ)
  stack : Nat → Option StkStack
  /-- What `DestFunc` was called with. -/
  given : List δ

def Memory.putNode (m : Memory δ) (a : Nat) (n : Option (StkStackNode δ)) : Memory δ :=
  { m with node := Function.update m.node a n }

def Memory.putStack (m : Memory δ) (s : Nat) (k : Option StkStack) : Memory δ :=
  { m with stack := Function.update m.stack s k }

/-- Code that reads and changes the memory. -/
abbrev St (δ : Type) := StateT (Memory δ) Option

def readNode (a : Nat) (field : StkStackNode δ → β) : St δ β := fun m =>
  (m.node a).map fun n => (field n, m)

def writeNode (a : Nat) (f : StkStackNode δ → StkStackNode δ) : St δ Unit := fun m =>
  (m.node a).map fun n => ((), m.putNode a (some (f n)))

def readStack (s : Nat) (field : StkStack → β) : St δ β := fun m =>
  (m.stack s).map fun k => (field k, m)

def writeStack (s : Nat) (f : StkStack → StkStack) : St δ Unit := fun m =>
  (m.stack s).map fun k => ((), m.putStack s (some (f k)))

/-- Unused memory. -/
def Memory.Unused (m : Memory δ) (a : Nat) : Prop := a ≠ 0 ∧ m.node a = none ∧ m.stack a = none

instance (m : Memory δ) (a : Nat) : Decidable (m.Unused a) :=
  inferInstanceAs (Decidable (_ ∧ _ ∧ _))

def freeNode (a : Nat) : St δ Unit := fun m =>
  (m.node a).map fun _ => ((), m.putNode a none)

def freeStack (s : Nat) : St δ Unit := fun m =>
  (m.stack s).map fun _ => ((), m.putStack s none)

/-- `SafeMalloc` for a node. -/
def mallocNode (a : Nat) (junk : StkStackNode δ) : St δ Unit := fun m =>
  if m.Unused a then some ((), m.putNode a (some junk)) else none

/-- `SafeMalloc` for a stack. -/
def mallocStack (s : Nat) (junk : StkStack) : St δ Unit := fun m =>
  if m.Unused s then some ((), m.putStack s (some junk)) else none

def stackCreate (newStack : Nat) (junk : StkStack) : St δ Nat := do
  mallocStack newStack junk
  writeStack newStack ({ · with top := 0, tail := 0 })
  return newStack

/-- The statements that the two branches of `StackPush` share. -/
def pushNode (theStack : Nat) (newInfoPointer : δ) (newNode : Nat) (junk : StkStackNode δ) :
    St δ Unit := do
  mallocNode newNode junk
  writeNode newNode ({ · with info := newInfoPointer })
  let top ← readStack theStack (·.top)
  writeNode newNode ({ · with next := top })
  writeStack theStack ({ · with top := newNode })

def stackPush (theStack : Nat) (newInfoPointer : δ) (newNode : Nat) (junk : StkStackNode δ) :
    St δ Unit := do
  if (← readStack theStack (·.top)) = 0 then
    pushNode theStack newInfoPointer newNode junk
    writeStack theStack ({ · with tail := newNode })
  else pushNode theStack newInfoPointer newNode junk

def stackNotEmpty (theStack : Nat) : St δ Bool :=
  if theStack ≠ 0 then do return decide ((← readStack theStack (·.top)) ≠ 0) else pure false

/-- The last statement of the branch of `StackPop` that pops. -/
def resetTail (theStack : Nat) : St δ Unit := do
  if (← readStack theStack (·.top)) = 0 then writeStack theStack ({ · with tail := 0 })

/-- `StackPop` on a stack with a top. -/
def popNode (theStack oldNode : Nat) : St δ δ := do
  let popInfo ← readNode oldNode (·.info)
  let next ← readNode oldNode (·.next)
  writeStack theStack ({ · with top := next })
  freeNode oldNode
  resetTail theStack
  return popInfo

def stackPop [Inhabited δ] (theStack : Nat) : St δ δ := do
  let top ← readStack theStack (·.top)
  if top ≠ 0 then popNode theStack top else pure default

/-- `StackJoin` when the first stack has a tail. -/
def linkStacks (stack1 stack2 tail : Nat) : St δ Nat := do
  let top ← readStack stack2 (·.top)
  writeNode tail ({ · with next := top })
  let tail2 ← readStack stack2 (·.tail)
  writeStack stack1 ({ · with tail := tail2 })
  freeStack stack2
  return stack1

def stackJoin (stack1 stack2 : Nat) : St δ Nat := do
  let tail ← readStack stack1 (·.tail)
  if tail = 0 then do
    freeStack stack1
    return stack2
  else linkStacks stack1 stack2 tail

def destFunc (info : δ) : St δ Unit := fun m => some ((), { m with given := m.given ++ [info] })

/-- The loop of `StackDestroy`. -/
def destroyNodes : Nat → Nat → St δ Unit
  | 0, _ => failure
  | fuel + 1, x =>
    if x ≠ 0 then do
      let y ← readNode x (·.next)
      destFunc (← readNode x (·.info))
      freeNode x
      destroyNodes fuel y
    else pure ()

/-- `theStack->top` is read before `theStack` is compared with NULL. -/
def stackDestroy (fuel theStack : Nat) : St δ Unit := do
  let x ← readStack theStack (·.top)
  if theStack ≠ 0 then do
    destroyNodes fuel x
    freeStack theStack

end Wtools.Stk
