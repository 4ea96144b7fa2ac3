import Wtools.Library.RedBlackTree

/-!
# The red-black tree

`red_black_tree.c`, on a memory of nodes. An access to an address that holds no node, an
assertion that fails and a loop that runs out of fuel all give `none`. `SafeMalloc` ends the
program when there is no memory, so it is given the address it returns and what lies there.
`default` is the NULL pointer of keys, 0 that of nodes.
-/

namespace Wtools.Rbt

open RedBlack (Side)

variable {κ ι β : Type}

/-- `rb_red_blk_node`. -/
structure RbRedBlkNode (κ ι : Type) where
  key : κ
  info : ι
  red : Bool
  left : Nat
  right : Nat
  parent : Nat
  deriving DecidableEq, Repr

def RbRedBlkNode.child : Side → RbRedBlkNode κ ι → Nat
  | .left => left
  | .right => right

def RbRedBlkNode.setChild : Side → Nat → RbRedBlkNode κ ι → RbRedBlkNode κ ι
  | .left, a, n => { n with left := a }
  | .right, a, n => { n with right := a }

/-- `rb_red_blk_tree`. `DestroyKey` and `DestroyInfo` are seen in what memory records. -/
structure RbRedBlkTree (κ ι : Type) where
  compare : κ → κ → Int
  printKey : κ → String
  printInfo : ι → String
  root : Nat
  nil : Nat

/-- A call of `DestroyKey` or of `DestroyInfo`. -/
inductive Destroyed (κ ι : Type) where
  | key (a : κ)
  | info (a : ι)
  deriving DecidableEq, Repr

structure Memory (κ ι : Type) where
  node : Nat → Option (RbRedBlkNode κ ι)
  destroyed : List (Destroyed κ ι)

def Memory.put (m : Memory κ ι) (a : Nat) (n : Option (RbRedBlkNode κ ι)) : Memory κ ι :=
  { m with node := Function.update m.node a n }

/-- Code that reads and changes the memory. -/
abbrev Rb (κ ι : Type) := StateT (Memory κ ι) Option

def read (a : Nat) (field : RbRedBlkNode κ ι → β) : Rb κ ι β := fun m =>
  (m.node a).map fun n => (field n, m)

def write (a : Nat) (f : RbRedBlkNode κ ι → RbRedBlkNode κ ι) : Rb κ ι Unit := fun m =>
  (m.node a).map fun n => ((), m.put a (some (f n)))

def safeMalloc (a : Nat) (junk : RbRedBlkNode κ ι) : Rb κ ι Unit := fun m =>
  if a ≠ 0 ∧ m.node a = none then some ((), m.put a (some junk)) else none

def free (a : Nat) : Rb κ ι Unit := fun m =>
  (m.node a).map fun _ => ((), m.put a none)

def destroy (a : Destroyed κ ι) : Rb κ ι Unit := fun m =>
  some ((), { m with destroyed := m.destroyed ++ [a] })

/-- `Assert(!tree->nil->red, ...)`. -/
def assertBlack (tree : RbRedBlkTree κ ι) : Rb κ ι Unit := do
  if ← read tree.nil (·.red) then failure

/-- The sentinels at the addresses `nil` and `root`. -/
def rbTreeCreate [Inhabited κ] (compFunc : κ → κ → Int) (printFunc : κ → String)
    (printInfo : ι → String) (nil root : Nat) (junk junk' : RbRedBlkNode κ ι) :
    Rb κ ι (RbRedBlkTree κ ι) := do
  safeMalloc nil junk
  write nil ({ · with parent := nil, left := nil, right := nil })
  write nil ({ · with red := false, key := default })
  safeMalloc root junk'
  write root ({ · with parent := nil, left := nil, right := nil })
  write root ({ · with key := default, red := false })
  return ⟨compFunc, printFunc, printInfo, root, nil⟩

/-- `x` is made the parent of a child that is not `nil`. -/
def adopt (tree : RbRedBlkTree κ ι) (child x : Nat) : Rb κ ι Unit :=
  if child ≠ tree.nil then write child ({ · with parent := x }) else pure ()

/-- The child `x` of `p` is replaced: it is looked for on the left first. -/
def replaceChild (p x y : Nat) : Rb κ ι Unit := do
  if x = (← read p (·.left)) then write p ({ · with left := y })
  else write p ({ · with right := y })

/-- `LeftRotate`, and with the sides exchanged `RightRotate`. -/
def rotate (s : Side) (tree : RbRedBlkTree κ ι) (x : Nat) : Rb κ ι Unit := do
  let y ← read x (·.child s.other)
  let inner ← read y (·.child s)
  write x (·.setChild s.other inner)
  adopt tree inner x
  let p ← read x (·.parent)
  write y ({ · with parent := p })
  replaceChild p x y
  write y (·.setChild s x)
  write x ({ · with parent := y })
  assertBlack tree

def leftRotate (tree : RbRedBlkTree κ ι) (x : Nat) : Rb κ ι Unit := rotate .left tree x

def rightRotate (tree : RbRedBlkTree κ ι) (y : Nat) : Rb κ ι Unit := rotate .right tree y

/-- The loop of `TreeInsertHelp`. -/
def insertWalk (tree : RbRedBlkTree κ ι) (z : Nat) : Nat → (y x : Nat) → Rb κ ι Nat
  | 0, _, _ => failure
  | fuel + 1, y, x =>
    if x = tree.nil then pure y
    else do
      if tree.compare (← read x (·.key)) (← read z (·.key)) = 1 then
        insertWalk tree z fuel x (← read x (·.left))
      else insertWalk tree z fuel x (← read x (·.right))

/-- `z` becomes a child of `y`: on the left if `y` is the sentinel or has the greater key. -/
def hangBelow (tree : RbRedBlkTree κ ι) (y z : Nat) : Rb κ ι Unit := do
  if y = tree.root then write y ({ · with left := z })
  else if tree.compare (← read y (·.key)) (← read z (·.key)) = 1 then
    write y ({ · with left := z })
  else write y ({ · with right := z })

def treeInsertHelp (tree : RbRedBlkTree κ ι) (fuel z : Nat) : Rb κ ι Unit := do
  write z ({ · with left := tree.nil, right := tree.nil })
  let y ← insertWalk tree z fuel tree.root (← read tree.root (·.left))
  write z ({ · with parent := y })
  hangBelow tree y z
  assertBlack tree

/-- `x` and its parent `p` are brought to lie on the side `s` of their parents both. -/
def straighten (tree : RbRedBlkTree κ ι) (s : Side) (p x : Nat) : Rb κ ι Nat := do
  if x = (← read p (·.child s.other)) then
    rotate s tree p
    pure p
  else pure x

/-- The loop of `RBTreeInsert`: the two halves of its body exchange left and right. -/
def insertFixUp (tree : RbRedBlkTree κ ι) : Nat → Nat → Rb κ ι Unit
  | 0, _ => failure
  | fuel + 1, x => do
    let p ← read x (·.parent)
    if ← read p (·.red) then
      let g ← read p (·.parent)
      let s : Side := if p = (← read g (·.left)) then .left else .right
      let y ← read g (·.child s.other)
      if ← read y (·.red) then
        write p ({ · with red := false })
        write y ({ · with red := false })
        write g ({ · with red := true })
        insertFixUp tree fuel g
      else
        let x ← straighten tree s p x
        let p ← read x (·.parent)
        write p ({ · with red := false })
        let g ← read p (·.parent)
        write g ({ · with red := true })
        rotate s.other tree g
        insertFixUp tree fuel x
    else pure ()

/-- The new node is the one at `z`, which held `junk`. -/
def rbTreeInsert (tree : RbRedBlkTree κ ι) (fuel z : Nat) (junk : RbRedBlkNode κ ι) (key : κ)
    (info : ι) : Rb κ ι Nat := do
  safeMalloc z junk
  write z ({ · with key := key, info := info })
  treeInsertHelp tree fuel z
  write z ({ · with red := true })
  insertFixUp tree fuel z
  write (← read tree.root (·.left)) ({ · with red := false })
  return z

/-- `while(y->left != nil) y=y->left`, and its mirror image. -/
def outermost (tree : RbRedBlkTree κ ι) (s : Side) : Nat → Nat → Rb κ ι Nat
  | 0, _ => failure
  | fuel + 1, y => do
    let next ← read y (·.child s)
    if next ≠ tree.nil then outermost tree s fuel next else pure y

/-- The loop of `TreeSuccessor`. -/
def climbRight : Nat → (x y : Nat) → Rb κ ι Nat
  | 0, _, _ => failure
  | fuel + 1, x, y => do
    if x = (← read y (·.right)) then climbRight fuel y (← read y (·.parent)) else pure y

def treeSuccessor (tree : RbRedBlkTree κ ι) (fuel x : Nat) : Rb κ ι Nat := do
  let y ← read x (·.right)
  if tree.nil ≠ y then outermost tree .left fuel y
  else
    let y ← climbRight fuel x (← read x (·.parent))
    if y = tree.root then pure tree.nil else pure y

/-- The loop of `TreePredecessor`, which looks for the root inside. -/
def climbLeft (tree : RbRedBlkTree κ ι) : Nat → (x y : Nat) → Rb κ ι Nat
  | 0, _, _ => failure
  | fuel + 1, x, y => do
    if x = (← read y (·.left)) then
      if y = tree.root then pure tree.nil else climbLeft tree fuel y (← read y (·.parent))
    else pure y

def treePredecessor (tree : RbRedBlkTree κ ι) (fuel x : Nat) : Rb κ ι Nat := do
  let y ← read x (·.left)
  if tree.nil ≠ y then outermost tree .right fuel y
  else climbLeft tree fuel x (← read x (·.parent))

def keyOr (tree : RbRedBlkTree κ ι) (x none : Nat) : Rb κ ι String := do
  if x = none then pure "NULL" else pure (tree.printKey (← read x (·.key)))

/-- What is printed. -/
def inorderTreePrint (tree : RbRedBlkTree κ ι) : Nat → Nat → Rb κ ι String
  | 0, _ => failure
  | fuel + 1, x => do
    if x ≠ tree.nil then
      let left ← inorderTreePrint tree fuel (← read x (·.left))
      let info := tree.printInfo (← read x (·.info))
      let key := tree.printKey (← read x (·.key))
      let l ← keyOr tree (← read x (·.left)) tree.nil
      let r ← keyOr tree (← read x (·.right)) tree.nil
      let p ← keyOr tree (← read x (·.parent)) tree.root
      let red := if ← read x (·.red) then "1" else "0"
      let right ← inorderTreePrint tree fuel (← read x (·.right))
      pure (left ++ ("info=" ++ info ++ "  key=" ++ key ++ "  l->key=" ++ l ++ "  r->key=" ++ r ++
        "  p->key=" ++ p ++ "  red=" ++ red ++ "\n") ++ right)
    else pure ""

def rbTreePrint (tree : RbRedBlkTree κ ι) (fuel : Nat) : Rb κ ι String := do
  inorderTreePrint tree fuel (← read tree.root (·.left))

def treeDestHelper (tree : RbRedBlkTree κ ι) : Nat → Nat → Rb κ ι Unit
  | 0, _ => failure
  | fuel + 1, x => do
    if x ≠ tree.nil then
      treeDestHelper tree fuel (← read x (·.left))
      treeDestHelper tree fuel (← read x (·.right))
      destroy (.key (← read x (·.key)))
      destroy (.info (← read x (·.info)))
      free x
    else pure ()

/-- Without the block of the `rb_red_blk_tree` itself. -/
def rbTreeDestroy (tree : RbRedBlkTree κ ι) (fuel : Nat) : Rb κ ι Unit := do
  treeDestHelper tree fuel (← read tree.root (·.left))
  free tree.root
  free tree.nil

/-- The loop of `RBExactQuery`. -/
def queryWalk (tree : RbRedBlkTree κ ι) (q : κ) : Nat → (x : Nat) → (compVal : Int) → Rb κ ι Nat
  | 0, _, _ => failure
  | fuel + 1, x, compVal =>
    if compVal ≠ 0 then do
      let x ← if compVal = 1 then read x (·.left) else read x (·.right)
      if x = tree.nil then pure 0
      else queryWalk tree q fuel x (tree.compare (← read x (·.key)) q)
    else pure x

def rbExactQuery (tree : RbRedBlkTree κ ι) (fuel : Nat) (q : κ) : Rb κ ι Nat := do
  let x ← read tree.root (·.left)
  if x = tree.nil then pure 0
  else queryWalk tree q fuel x (tree.compare (← read x (·.key)) q)

/-- The sibling `w` of `x`, after the case where it is red. -/
def blackSibling (tree : RbRedBlkTree κ ι) (s : Side) (x : Nat) : Rb κ ι Nat := do
  let p ← read x (·.parent)
  let w ← read p (·.child s.other)
  if ← read w (·.red) then
    write w ({ · with red := false })
    write p ({ · with red := true })
    rotate s tree p
    read (← read x (·.parent)) (·.child s.other)
  else pure w

/-- `(!w->right->red) && (!w->left->red)`, in both halves of the loop. -/
def blackChildren (w : Nat) : Rb κ ι Bool := do
  if ← read (← read w (·.right)) (·.red) then pure false
  else
    pure (!(← read (← read w (·.left)) (·.red)))

/-- The sibling `w`, after the case where its child on the far side is black. -/
def redFarChild (tree : RbRedBlkTree κ ι) (s : Side) (x w : Nat) : Rb κ ι Nat := do
  if ← read (← read w (·.child s.other)) (·.red) then pure w
  else
    write (← read w (·.child s)) ({ · with red := false })
    write w ({ · with red := true })
    rotate s.other tree w
    read (← read x (·.parent)) (·.child s.other)

/-- The last case: the far child of `w` is red. -/
def turnFarChild (tree : RbRedBlkTree κ ι) (s : Side) (x w : Nat) : Rb κ ι Unit := do
  let p ← read x (·.parent)
  let red ← read p (·.red)
  write w ({ · with red := red })
  write p ({ · with red := false })
  write (← read w (·.child s.other)) ({ · with red := false })
  rotate s tree p

/-- The loop of `RBDeleteFixUp`: the two halves of its body exchange left and right. -/
def deleteFixUp (tree : RbRedBlkTree κ ι) (root : Nat) : Nat → Nat → Rb κ ι Nat
  | 0, _ => failure
  | fuel + 1, x => do
    if ← read x (·.red) then pure x
    else if root = x then pure x
    else
      let p ← read x (·.parent)
      let s : Side := if x = (← read p (·.left)) then .left else .right
      let w ← blackSibling tree s x
      if ← blackChildren w then
        write w ({ · with red := true })
        deleteFixUp tree root fuel (← read x (·.parent))
      else
        let w ← redFarChild tree s x w
        turnFarChild tree s x w
        deleteFixUp tree root fuel root

def rbDeleteFixUp (tree : RbRedBlkTree κ ι) (fuel x : Nat) : Rb κ ι Unit := do
  let root ← read tree.root (·.left)
  let x ← deleteFixUp tree root fuel x
  write x ({ · with red := false })
  assertBlack tree

/-- The node `y` that `RBDelete` splices out. -/
def nodeToSplice (tree : RbRedBlkTree κ ι) (fuel z : Nat) : Rb κ ι Nat := do
  if (← read z (·.left)) = tree.nil then pure z
  else if (← read z (·.right)) = tree.nil then pure z
  else treeSuccessor tree fuel z

/-- `(y->left == nil) ? y->right : y->left`. -/
def onlyChild (tree : RbRedBlkTree κ ι) (y : Nat) : Rb κ ι Nat := do
  let yl ← read y (·.left)
  if yl = tree.nil then read y (·.right) else pure yl

/-- The child `x` of `y` takes the place of `y` below `p`. -/
def unlink (tree : RbRedBlkTree κ ι) (p y x : Nat) : Rb κ ι Unit :=
  if tree.root = p then write tree.root ({ · with left := x }) else replaceChild p y x

/-- `y` is spliced out and its child returned. -/
def spliceOut (tree : RbRedBlkTree κ ι) (y : Nat) : Rb κ ι Nat := do
  let x ← onlyChild tree y
  let p ← read y (·.parent)
  write x ({ · with parent := p })
  unlink tree p y x
  pure x

def fixIfBlack (tree : RbRedBlkTree κ ι) (fuel y x : Nat) : Rb κ ι Unit := do
  if ← read y (·.red) then pure () else rbDeleteFixUp tree fuel x

/-- The node `y` takes the place of `z`. -/
def takePlace (y z : Nat) : Rb κ ι Unit := do
  let n ← read z id
  write y ({ · with left := n.left, right := n.right, parent := n.parent, red := n.red })
  write n.right ({ · with parent := y })
  write n.left ({ · with parent := y })
  replaceChild n.parent z y

/-- What `RBDelete` does once `y` is spliced out. -/
def dispose (tree : RbRedBlkTree κ ι) (fuel y z x : Nat) : Rb κ ι Unit := do
  if y ≠ z then
    if y = tree.nil then failure
    else
      fixIfBlack tree fuel y x
      destroy (.key (← read z (·.key)))
      destroy (.info (← read z (·.info)))
      takePlace y z
      free z
  else
    destroy (.key (← read y (·.key)))
    destroy (.info (← read y (·.info)))
    fixIfBlack tree fuel y x
    free y

def rbDelete (tree : RbRedBlkTree κ ι) (fuel z : Nat) : Rb κ ι Unit := do
  let y ← nodeToSplice tree fuel z
  let x ← spliceOut tree y
  dispose tree fuel y z x
  assertBlack tree

end Wtools.Rbt
