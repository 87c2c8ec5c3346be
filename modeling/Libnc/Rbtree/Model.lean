import Mathlib.Logic.Function.Basic
import Libnc.Foundation.Zipper

/-!
# The red-black tree

The functions of `nc_rbtree.c` over an explicit memory of nodes.  A node is
named by its address; access through NULL has no result, and neither has a loop
that runs out of fuel.  The colour byte is only ever read as zero or not, so it
is one of two colours; keys are only compared, so they are integers.

The rotations and the two branches of each repair loop are mirror images, and
each pair is one definition with the side as its parameter.
-/

namespace Libnc.Rbtree

open Libnc.Foundation

/-- The address of a node, or the `void *` in it. -/
abbrev Ptr := Nat

def null : Ptr := 0

@[ext] structure NcRbnode where
  left : Ptr
  right : Ptr
  parent : Ptr
  key : Int
  data : Ptr
  color : Color
  deriving DecidableEq, Repr

/-- The tree and the memory of all nodes, in the tree or not. -/
structure NcRbtree where
  root : Ptr
  sentinel : Ptr
  node : Ptr → NcRbnode

namespace NcRbtree

/-! ## Memory access -/

def child (t : NcRbtree) : Side → Ptr → Ptr
  | .left, p => (t.node p).left
  | .right, p => (t.node p).right

def parent (t : NcRbtree) (p : Ptr) : Ptr := (t.node p).parent

def key (t : NcRbtree) (p : Ptr) : Int := (t.node p).key

def data (t : NcRbtree) (p : Ptr) : Ptr := (t.node p).data

def color (t : NcRbtree) (p : Ptr) : Color := (t.node p).color

def putNode (t : NcRbtree) (p : Ptr) (node : NcRbnode) : NcRbtree :=
  { t with node := Function.update t.node p node }

def putChild (t : NcRbtree) : Side → Ptr → Ptr → NcRbtree
  | .left, p, v => t.putNode p { t.node p with left := v }
  | .right, p, v => t.putNode p { t.node p with right := v }

def putParent (t : NcRbtree) (p v : Ptr) : NcRbtree :=
  t.putNode p { t.node p with parent := v }

def putColor (t : NcRbtree) (p : Ptr) (c : Color) : NcRbtree :=
  t.putNode p { t.node p with color := c }

def putRoot (t : NcRbtree) (p : Ptr) : NcRbtree := { t with root := p }

def getChild (t : NcRbtree) (d : Side) (p : Ptr) : Option Ptr :=
  if p = null then none else some (t.child d p)

def getParent (t : NcRbtree) (p : Ptr) : Option Ptr :=
  if p = null then none else some (t.parent p)

def getKey (t : NcRbtree) (p : Ptr) : Option Int :=
  if p = null then none else some (t.key p)

def getColor (t : NcRbtree) (p : Ptr) : Option Color :=
  if p = null then none else some (t.color p)

def setChild (t : NcRbtree) (d : Side) (p v : Ptr) : Option NcRbtree :=
  if p = null then none else some (t.putChild d p v)

def setParent (t : NcRbtree) (p v : Ptr) : Option NcRbtree :=
  if p = null then none else some (t.putParent p v)

def setColor (t : NcRbtree) (p : Ptr) (c : Color) : Option NcRbtree :=
  if p = null then none else some (t.putColor p c)

end NcRbtree

/-! ## Initialisation and search -/

def ncRbtreeNodeInit (t : NcRbtree) (node : Ptr) : Option NcRbtree :=
  if node = null then none
  else some (t.putNode node { t.node node with
    left := null, right := null, parent := null, key := 0, data := null })

def ncRbtreeInit (memory : Ptr → NcRbnode) (node : Ptr) : Option NcRbtree := do
  let t ← ncRbtreeNodeInit ⟨node, node, memory⟩ node
  t.setColor node .black

def rbtreeNodeMin (t : NcRbtree) : Nat → Ptr → Option Ptr
  | 0, _ => none
  | fuel + 1, node => do
      let left ← t.getChild .left node
      if left = t.sentinel then some node
      else rbtreeNodeMin t fuel left

def ncRbtreeMin (fuel : Nat) (t : NcRbtree) : Option Ptr :=
  if t.root = t.sentinel then some null
  else rbtreeNodeMin t fuel t.root

/-! ## Rotation -/

/-- The link from the parent of `node` to it now leads to `temp`. -/
def relink (d : Side) (t : NcRbtree) (node temp : Ptr) : Option NcRbtree := do
  let parent ← t.getParent node
  if node = (← t.getChild d parent) then t.setChild d parent temp
  else t.setChild d.other parent temp

/-- `rbtree_left_rotate` for the left side, `rbtree_right_rotate` for the right. -/
def rotate (d : Side) (t : NcRbtree) (node : Ptr) : Option NcRbtree := do
  let temp ← t.getChild d.other node
  let t ← t.setChild d.other node (← t.getChild d temp)
  let inner ← t.getChild d temp
  let t ← (if inner ≠ t.sentinel then t.setParent inner node else some t)
  let t ← t.setParent temp (← t.getParent node)
  let t ← (if node = t.root then some (t.putRoot temp) else relink d t node temp)
  let t ← t.setChild d temp node
  t.setParent node temp

def rbtreeLeftRotate (t : NcRbtree) (node : Ptr) : Option NcRbtree := rotate .left t node

def rbtreeRightRotate (t : NcRbtree) (node : Ptr) : Option NcRbtree := rotate .right t node

/-! ## Insertion -/

/-- The search loop of `nc_rbtree_insert`: the node and the side of its free link. -/
def insertSearch (t : NcRbtree) (node : Ptr) : Nat → Ptr → Option (Ptr × Side)
  | 0, _ => none
  | fuel + 1, temp => do
      let d := if (← t.getKey node) < (← t.getKey temp) then Side.left else Side.right
      let p ← t.getChild d temp
      if p = t.sentinel then some (temp, d)
      else insertSearch t node fuel p

/-- One round of the loop, for a parent that is the `d` child of the grandparent. -/
def insertFixupStep (d : Side) (t : NcRbtree) (node : Ptr) : Option (NcRbtree × Ptr) := do
  let grand ← t.getParent (← t.getParent node)
  let temp ← t.getChild d.other grand
  if (← t.getColor temp) = .red then
    let t ← t.setColor (← t.getParent node) .black
    let t ← t.setColor temp .black
    let t ← t.setColor grand .red
    some (t, grand)
  else
    let parent ← t.getParent node
    let inner ← t.getChild d.other parent
    let (t, node) ←
      (if node = inner then do
        let t ← rotate d t parent
        some (t, parent)
      else some (t, node))
    let t ← t.setColor (← t.getParent node) .black
    let grand ← t.getParent (← t.getParent node)
    let t ← t.setColor grand .red
    let t ← rotate d.other t grand
    some (t, node)

/-- The loop that re-balances the tree after the insertion of `node`. -/
def insertFixup : Nat → NcRbtree → Ptr → Option NcRbtree
  | 0, _, _ => none
  | fuel + 1, t, node =>
      if node = t.root then some t
      else do
        let parent ← t.getParent node
        if (← t.getColor parent) = .red then
          let grand ← t.getParent parent
          let d := if parent = (← t.getChild .left grand) then Side.left else Side.right
          let (t, node) ← insertFixupStep d t node
          insertFixup fuel t node
        else some t

def ncRbtreeInsert (fuel : Nat) (t : NcRbtree) (node : Ptr) : Option NcRbtree :=
  if t.root = t.sentinel then do
    let t ← t.setParent node null
    let t ← t.setChild .left node t.sentinel
    let t ← t.setChild .right node t.sentinel
    let t ← t.setColor node .black
    some (t.putRoot node)
  else do
    let (temp, d) ← insertSearch t node fuel t.root
    let t ← t.setChild d temp node
    let t ← t.setParent node temp
    let t ← t.setChild .left node t.sentinel
    let t ← t.setChild .right node t.sentinel
    let t ← t.setColor node .red
    let t ← insertFixup fuel t node
    t.setColor t.root .black

/-! ## Deletion -/

/-- Both children of `w` are black; the second is only looked at if the first is. -/
def childrenBlack (t : NcRbtree) (w : Ptr) : Option Bool := do
  if (← t.getColor (← t.getChild .left w)) = .black then
    some ((← t.getColor (← t.getChild .right w)) = .black)
  else some false

/-- The second half of a round: the sibling `w` of the short subtree is black. -/
def deleteFixupBlack (d : Side) (t : NcRbtree) (temp w : Ptr) : Option (NcRbtree × Ptr) := do
  if ← childrenBlack t w then
    let t ← t.setColor w .red
    some (t, ← t.getParent temp)
  else
    let far ← t.getColor (← t.getChild d.other w)
    let (t, w) ←
      (if far = .black then do
        let t ← t.setColor (← t.getChild d w) .black
        let t ← t.setColor w .red
        let t ← rotate d.other t w
        some (t, ← t.getChild d.other (← t.getParent temp))
      else some (t, w))
    let t ← t.setColor w (← t.getColor (← t.getParent temp))
    let t ← t.setColor (← t.getParent temp) .black
    let t ← t.setColor (← t.getChild d.other w) .black
    let t ← rotate d t (← t.getParent temp)
    some (t, t.root)

/-- One round of the loop, for a short subtree that is the `d` child of its parent. -/
def deleteFixupStep (d : Side) (t : NcRbtree) (temp : Ptr) : Option (NcRbtree × Ptr) := do
  let w ← t.getChild d.other (← t.getParent temp)
  if (← t.getColor w) = .red then
    let t ← t.setColor w .black
    let t ← t.setColor (← t.getParent temp) .red
    let t ← rotate d t (← t.getParent temp)
    deleteFixupBlack d t temp (← t.getChild d.other (← t.getParent temp))
  else deleteFixupBlack d t temp w

/-- The loop that repairs the tree after a black node has gone, and its last line. -/
def deleteFixup : Nat → NcRbtree → Ptr → Option NcRbtree
  | 0, _, _ => none
  | fuel + 1, t, temp =>
      if temp = t.root then t.setColor temp .black
      else do
        if (← t.getColor temp) = .red then t.setColor temp .black
        else
          let parent ← t.getParent temp
          let d := if temp = (← t.getChild .left parent) then Side.left else Side.right
          let (t, temp) ← deleteFixupStep d t temp
          deleteFixup fuel t temp

/-- `subst` gets the links and the colour of `node`. -/
def takeLinks (t : NcRbtree) (node subst : Ptr) : Option NcRbtree := do
  let t ← t.setChild .left subst (← t.getChild .left node)
  let t ← t.setChild .right subst (← t.getChild .right node)
  let t ← t.setParent subst (← t.getParent node)
  let t ← t.setColor subst (← t.getColor node)
  let t ← (if node = t.root then some (t.putRoot subst) else relink .left t node subst)
  let left ← t.getChild .left subst
  let t ← (if left ≠ t.sentinel then t.setParent left subst else some t)
  let right ← t.getChild .right subst
  if right ≠ t.sentinel then t.setParent right subst else some t

/-- The successor `subst`, already cut off, takes the place of `node`. -/
def takePlace (t : NcRbtree) (node subst temp : Ptr) : Option NcRbtree := do
  let parent ← t.getParent subst
  let t ← (if parent = node then t.setParent temp subst else t.setParent temp parent)
  takeLinks t node subst

/-- The node that leaves its place in the tree, and what follows it there. -/
def deleteChoose (fuel : Nat) (t : NcRbtree) (node : Ptr) : Option (Ptr × Ptr) := do
  let left ← t.getChild .left node
  let right ← t.getChild .right node
  if left = t.sentinel then some (node, right)
  else if right = t.sentinel then some (node, left)
  else
    let subst ← rbtreeNodeMin t fuel right
    some (subst, ← t.getChild .right subst)

def ncRbtreeDelete (fuel : Nat) (t : NcRbtree) (node : Ptr) : Option NcRbtree := do
  let (subst, temp) ← deleteChoose fuel t node
  if subst = t.root then
    let t ← (t.putRoot temp).setColor temp .black
    ncRbtreeNodeInit t node
  else
    let substColor ← t.getColor subst
    let t ← relink .left t subst temp
    let t ← (if subst = node then do t.setParent temp (← t.getParent subst)
      else takePlace t node subst temp)
    let t ← ncRbtreeNodeInit t node
    if substColor = .red then some t
    else deleteFixup fuel t temp

end Libnc.Rbtree
