import Libnc.Foundation.Refines
import Libnc.Rbtree.Model

/-!
# Guarded execution

The functions once more, with a check at every access.  `nodes` are the nodes of
the tree and the one that is inserted.  Links, keys and data are only read and
written at them, colours and parent links also at the sentinel, which is never
coloured red.  A parent link is followed only from a node that is not the root,
and to a node that has the link back.

A result of a guarded function is one of the function itself.
-/

namespace Libnc.Rbtree

open Libnc.Foundation

namespace NcRbtree

variable (t : NcRbtree) (nodes : List Ptr)

def IsNode (p : Ptr) : Prop := p ∈ nodes ∧ p ≠ null ∧ p ≠ t.sentinel

/-- What a link may lead to. -/
def IsTarget (p : Ptr) : Prop := (p ∈ nodes ∨ p = t.sentinel) ∧ p ≠ null

/-- The parent link of `p` may be followed. -/
def IsBelow (p : Ptr) : Prop :=
  p ≠ t.root ∧ t.IsNode nodes (t.parent p) ∧ ∃ d, t.child d (t.parent p) = p

instance decidableIsNode (p : Ptr) : Decidable (t.IsNode nodes p) :=
  inferInstanceAs (Decidable (_ ∧ _ ∧ _))

instance decidableIsTarget (p : Ptr) : Decidable (t.IsTarget nodes p) :=
  inferInstanceAs (Decidable (_ ∧ _))

instance decidableIsBelow (p : Ptr) : Decidable (t.IsBelow nodes p) :=
  have : Decidable (∃ d, t.child d (t.parent p) = p) :=
    decidable_of_iff (t.child .left (t.parent p) = p ∨ t.child .right (t.parent p) = p)
      ⟨fun h => h.elim (⟨_, ·⟩) (⟨_, ·⟩), fun ⟨d, h⟩ => by
        cases d
        · exact .inl h
        · exact .inr h⟩
  inferInstanceAs (Decidable (_ ∧ _ ∧ _))

def getChildIn (d : Side) (p : Ptr) : Option Ptr :=
  if t.IsNode nodes p then t.getChild d p else none

/-- A parent link that is copied. -/
def getParentIn (p : Ptr) : Option Ptr :=
  if t.IsNode nodes p then t.getParent p else none

/-- A parent link that is followed. -/
def followParentIn (p : Ptr) : Option Ptr :=
  if t.IsTarget nodes p ∧ t.IsBelow nodes p then t.getParent p else none

def getKeyIn (p : Ptr) : Option Int :=
  if t.IsNode nodes p then t.getKey p else none

def getColorIn (p : Ptr) : Option Color :=
  if t.IsTarget nodes p then t.getColor p else none

def setChildIn (d : Side) (p v : Ptr) : Option NcRbtree :=
  if t.IsNode nodes p then t.setChild d p v else none

def setParentIn (p v : Ptr) : Option NcRbtree :=
  if t.IsTarget nodes p then t.setParent p v else none

def setColorIn (p : Ptr) (c : Color) : Option NcRbtree :=
  if t.IsTarget nodes p ∧ (c = .red → p ≠ t.sentinel) then t.setColor p c else none

variable {t nodes}

theorem getChildIn_refines {d : Side} {p : Ptr} :
    Refines (t.getChildIn nodes d p) (t.getChild d p) := .guard fun _ => .refl _

theorem getParentIn_refines {p : Ptr} : Refines (t.getParentIn nodes p) (t.getParent p) :=
  .guard fun _ => .refl _

theorem followParentIn_refines {p : Ptr} : Refines (t.followParentIn nodes p) (t.getParent p) :=
  .guard fun _ => .refl _

theorem getKeyIn_refines {p : Ptr} : Refines (t.getKeyIn nodes p) (t.getKey p) :=
  .guard fun _ => .refl _

theorem getColorIn_refines {p : Ptr} : Refines (t.getColorIn nodes p) (t.getColor p) :=
  .guard fun _ => .refl _

theorem setChildIn_refines {d : Side} {p v : Ptr} :
    Refines (t.setChildIn nodes d p v) (t.setChild d p v) := .guard fun _ => .refl _

theorem setParentIn_refines {p v : Ptr} :
    Refines (t.setParentIn nodes p v) (t.setParent p v) := .guard fun _ => .refl _

theorem setColorIn_refines {p : Ptr} {c : Color} :
    Refines (t.setColorIn nodes p c) (t.setColor p c) := .guard fun _ => .refl _

end NcRbtree

open NcRbtree

variable (nodes : List Ptr)

/-! ## Search -/

def ncRbtreeNodeInitIn (t : NcRbtree) (node : Ptr) : Option NcRbtree :=
  if t.IsNode nodes node then ncRbtreeNodeInit t node else none

def rbtreeNodeMinIn (t : NcRbtree) : Nat → Ptr → Option Ptr
  | 0, _ => none
  | fuel + 1, node => do
      let left ← t.getChildIn nodes .left node
      if left = t.sentinel then some node
      else rbtreeNodeMinIn t fuel left

def insertSearchIn (t : NcRbtree) (node : Ptr) : Nat → Ptr → Option (Ptr × Side)
  | 0, _ => none
  | fuel + 1, temp => do
      let d := if (← t.getKeyIn nodes node) < (← t.getKeyIn nodes temp) then Side.left
        else Side.right
      let p ← t.getChildIn nodes d temp
      if p = t.sentinel then some (temp, d)
      else insertSearchIn t node fuel p

/-! ## Rotation -/

def relinkIn (d : Side) (t : NcRbtree) (node temp : Ptr) : Option NcRbtree := do
  let parent ← t.followParentIn nodes node
  if node = (← t.getChildIn nodes d parent) then t.setChildIn nodes d parent temp
  else t.setChildIn nodes d.other parent temp

def rotateIn (d : Side) (t : NcRbtree) (node : Ptr) : Option NcRbtree := do
  let temp ← t.getChildIn nodes d.other node
  let t ← t.setChildIn nodes d.other node (← t.getChildIn nodes d temp)
  let inner ← t.getChildIn nodes d temp
  let t ← (if inner ≠ t.sentinel then t.setParentIn nodes inner node else some t)
  let t ← t.setParentIn nodes temp (← t.getParentIn nodes node)
  let t ← (if node = t.root then some (t.putRoot temp) else relinkIn nodes d t node temp)
  let t ← t.setChildIn nodes d temp node
  t.setParentIn nodes node temp

/-! ## Insertion -/

def insertFixupStepIn (d : Side) (t : NcRbtree) (node : Ptr) : Option (NcRbtree × Ptr) := do
  let grand ← t.followParentIn nodes (← t.followParentIn nodes node)
  let temp ← t.getChildIn nodes d.other grand
  if (← t.getColorIn nodes temp) = .red then
    let t ← t.setColorIn nodes (← t.followParentIn nodes node) .black
    let t ← t.setColorIn nodes temp .black
    let t ← t.setColorIn nodes grand .red
    some (t, grand)
  else
    let parent ← t.followParentIn nodes node
    let inner ← t.getChildIn nodes d.other parent
    let (t, node) ←
      (if node = inner then do
        let t ← rotateIn nodes d t parent
        some (t, parent)
      else some (t, node))
    let t ← t.setColorIn nodes (← t.followParentIn nodes node) .black
    let grand ← t.followParentIn nodes (← t.followParentIn nodes node)
    let t ← t.setColorIn nodes grand .red
    let t ← rotateIn nodes d.other t grand
    some (t, node)

def insertFixupIn : Nat → NcRbtree → Ptr → Option NcRbtree
  | 0, _, _ => none
  | fuel + 1, t, node =>
      if node = t.root then some t
      else do
        let parent ← t.followParentIn nodes node
        if (← t.getColorIn nodes parent) = .red then
          let grand ← t.followParentIn nodes parent
          let d := if parent = (← t.getChildIn nodes .left grand) then Side.left else Side.right
          let (t, node) ← insertFixupStepIn nodes d t node
          insertFixupIn fuel t node
        else some t

def ncRbtreeInsertIn (fuel : Nat) (t : NcRbtree) (node : Ptr) : Option NcRbtree :=
  if t.root = t.sentinel then do
    let t ← t.setParentIn nodes node null
    let t ← t.setChildIn nodes .left node t.sentinel
    let t ← t.setChildIn nodes .right node t.sentinel
    let t ← t.setColorIn nodes node .black
    some (t.putRoot node)
  else do
    let (temp, d) ← insertSearchIn nodes t node fuel t.root
    let t ← t.setChildIn nodes d temp node
    let t ← t.setParentIn nodes node temp
    let t ← t.setChildIn nodes .left node t.sentinel
    let t ← t.setChildIn nodes .right node t.sentinel
    let t ← t.setColorIn nodes node .red
    let t ← insertFixupIn nodes fuel t node
    t.setColorIn nodes t.root .black

/-! ## Deletion -/

def childrenBlackIn (t : NcRbtree) (w : Ptr) : Option Bool := do
  if (← t.getColorIn nodes (← t.getChildIn nodes .left w)) = .black then
    some ((← t.getColorIn nodes (← t.getChildIn nodes .right w)) = .black)
  else some false

def deleteFixupBlackIn (d : Side) (t : NcRbtree) (temp w : Ptr) : Option (NcRbtree × Ptr) := do
  if ← childrenBlackIn nodes t w then
    let t ← t.setColorIn nodes w .red
    some (t, ← t.followParentIn nodes temp)
  else
    let far ← t.getColorIn nodes (← t.getChildIn nodes d.other w)
    let (t, w) ←
      (if far = .black then do
        let t ← t.setColorIn nodes (← t.getChildIn nodes d w) .black
        let t ← t.setColorIn nodes w .red
        let t ← rotateIn nodes d.other t w
        some (t, ← t.getChildIn nodes d.other (← t.followParentIn nodes temp))
      else some (t, w))
    let t ← t.setColorIn nodes w (← t.getColorIn nodes (← t.followParentIn nodes temp))
    let t ← t.setColorIn nodes (← t.followParentIn nodes temp) .black
    let t ← t.setColorIn nodes (← t.getChildIn nodes d.other w) .black
    let t ← rotateIn nodes d t (← t.followParentIn nodes temp)
    some (t, t.root)

def deleteFixupStepIn (d : Side) (t : NcRbtree) (temp : Ptr) : Option (NcRbtree × Ptr) := do
  let w ← t.getChildIn nodes d.other (← t.followParentIn nodes temp)
  if (← t.getColorIn nodes w) = .red then
    let t ← t.setColorIn nodes w .black
    let t ← t.setColorIn nodes (← t.followParentIn nodes temp) .red
    let t ← rotateIn nodes d t (← t.followParentIn nodes temp)
    deleteFixupBlackIn nodes d t temp
      (← t.getChildIn nodes d.other (← t.followParentIn nodes temp))
  else deleteFixupBlackIn nodes d t temp w

def deleteFixupIn : Nat → NcRbtree → Ptr → Option NcRbtree
  | 0, _, _ => none
  | fuel + 1, t, temp =>
      if temp = t.root then t.setColorIn nodes temp .black
      else do
        if (← t.getColorIn nodes temp) = .red then t.setColorIn nodes temp .black
        else
          let parent ← t.followParentIn nodes temp
          let d := if temp = (← t.getChildIn nodes .left parent) then Side.left else Side.right
          let (t, temp) ← deleteFixupStepIn nodes d t temp
          deleteFixupIn fuel t temp

def takeLinksIn (t : NcRbtree) (node subst : Ptr) : Option NcRbtree := do
  let t ← t.setChildIn nodes .left subst (← t.getChildIn nodes .left node)
  let t ← t.setChildIn nodes .right subst (← t.getChildIn nodes .right node)
  let t ← t.setParentIn nodes subst (← t.getParentIn nodes node)
  let t ← t.setColorIn nodes subst (← t.getColorIn nodes node)
  let t ← (if node = t.root then some (t.putRoot subst) else relinkIn nodes .left t node subst)
  let left ← t.getChildIn nodes .left subst
  let t ← (if left ≠ t.sentinel then t.setParentIn nodes left subst else some t)
  let right ← t.getChildIn nodes .right subst
  if right ≠ t.sentinel then t.setParentIn nodes right subst else some t

def takePlaceIn (t : NcRbtree) (node subst temp : Ptr) : Option NcRbtree := do
  let parent ← t.getParentIn nodes subst
  let t ← (if parent = node then t.setParentIn nodes temp subst
    else t.setParentIn nodes temp parent)
  takeLinksIn nodes t node subst

def deleteChooseIn (fuel : Nat) (t : NcRbtree) (node : Ptr) : Option (Ptr × Ptr) := do
  let left ← t.getChildIn nodes .left node
  let right ← t.getChildIn nodes .right node
  if left = t.sentinel then some (node, right)
  else if right = t.sentinel then some (node, left)
  else
    let subst ← rbtreeNodeMinIn nodes t fuel right
    some (subst, ← t.getChildIn nodes .right subst)

/-- Once the node has been cleared it is not accessed any more. -/
def ncRbtreeDeleteIn (fuel : Nat) (t : NcRbtree) (node : Ptr) : Option NcRbtree := do
  let (subst, temp) ← deleteChooseIn nodes fuel t node
  if subst = t.root then
    let t ← (t.putRoot temp).setColorIn nodes temp .black
    ncRbtreeNodeInitIn nodes t node
  else
    let substColor ← t.getColorIn nodes subst
    let t ← relinkIn nodes .left t subst temp
    let t ← (if subst = node then do
        t.setParentIn nodes temp (← t.getParentIn nodes subst)
      else takePlaceIn nodes t node subst temp)
    let t ← ncRbtreeNodeInitIn nodes t node
    if substColor = .red then some t
    else deleteFixupIn (nodes.filter (· ≠ node)) fuel t temp

/-! ## Erasing the checks -/

variable {nodes} {t : NcRbtree} {d : Side} {node temp subst w : Ptr}

theorem ncRbtreeNodeInitIn_refines :
    Refines (ncRbtreeNodeInitIn nodes t node) (ncRbtreeNodeInit t node) := .guard fun _ => .refl _

theorem rbtreeNodeMinIn_refines (fuel : Nat) (node : Ptr) :
    Refines (rbtreeNodeMinIn nodes t fuel node) (rbtreeNodeMin t fuel node) := by
  induction fuel generalizing node with
  | zero => exact .refl _
  | succ fuel ih => exact .bind getChildIn_refines fun left => .ite (.refl _) (ih left)

theorem insertSearchIn_refines (fuel : Nat) (temp : Ptr) :
    Refines (insertSearchIn nodes t node fuel temp) (insertSearch t node fuel temp) := by
  induction fuel generalizing temp with
  | zero => exact .refl _
  | succ fuel ih =>
      exact .bind getKeyIn_refines fun _ => .bind getKeyIn_refines fun _ =>
        .bind getChildIn_refines fun p => .ite (.refl _) (ih p)

theorem relinkIn_refines : Refines (relinkIn nodes d t node temp) (relink d t node temp) :=
  .bind followParentIn_refines fun _ => .bind getChildIn_refines fun _ =>
    .ite setChildIn_refines setChildIn_refines

theorem rotateIn_refines : Refines (rotateIn nodes d t node) (rotate d t node) :=
  .bind getChildIn_refines fun _ => .bind getChildIn_refines fun _ =>
    .bind setChildIn_refines fun _ => .bind getChildIn_refines fun _ =>
    .bind (.ite setParentIn_refines (.refl _)) fun _ => .bind getParentIn_refines fun _ =>
    .bind setParentIn_refines fun _ => .bind (.ite (.refl _) relinkIn_refines) fun _ =>
    .bind setChildIn_refines fun _ => setParentIn_refines

theorem insertFixupStepIn_refines :
    Refines (insertFixupStepIn nodes d t node) (insertFixupStep d t node) := by
  refine .bind followParentIn_refines fun _ => .bind followParentIn_refines fun _ =>
    .bind getChildIn_refines fun _ => .bind getColorIn_refines fun _ => .ite ?_ ?_
  · exact .bind followParentIn_refines fun _ => .bind setColorIn_refines fun _ =>
      .bind setColorIn_refines fun _ => .bind setColorIn_refines fun _ => .refl _
  · refine .bind followParentIn_refines fun _ => .bind getChildIn_refines fun _ =>
      .bind (.ite (.bind rotateIn_refines fun _ => .refl _) (.refl _)) fun ⟨_, _⟩ => ?_
    exact .bind followParentIn_refines fun _ => .bind setColorIn_refines fun _ =>
      .bind followParentIn_refines fun _ => .bind followParentIn_refines fun _ =>
      .bind setColorIn_refines fun _ => .bind rotateIn_refines fun _ => .refl _

theorem insertFixupIn_refines (fuel : Nat) (t : NcRbtree) (node : Ptr) :
    Refines (insertFixupIn nodes fuel t node) (insertFixup fuel t node) := by
  induction fuel generalizing t node with
  | zero => exact .refl _
  | succ fuel ih =>
      exact .ite (.refl _) (.bind followParentIn_refines fun _ => .bind getColorIn_refines fun _ =>
        .ite (.bind followParentIn_refines fun _ => .bind getChildIn_refines fun _ =>
          .bind insertFixupStepIn_refines fun ⟨t, node⟩ => ih t node) (.refl _))

theorem ncRbtreeInsertIn_refines (fuel : Nat) :
    Refines (ncRbtreeInsertIn nodes fuel t node) (ncRbtreeInsert fuel t node) := by
  refine .ite ?_ ?_
  · exact .bind setParentIn_refines fun _ => .bind setChildIn_refines fun _ =>
      .bind setChildIn_refines fun _ => .bind setColorIn_refines fun _ => .refl _
  · refine .bind (insertSearchIn_refines fuel _) fun ⟨_, _⟩ => ?_
    exact .bind setChildIn_refines fun _ => .bind setParentIn_refines fun _ =>
      .bind setChildIn_refines fun _ => .bind setChildIn_refines fun _ =>
      .bind setColorIn_refines fun _ => .bind (insertFixupIn_refines fuel _ _) fun _ =>
      setColorIn_refines

theorem childrenBlackIn_refines :
    Refines (childrenBlackIn nodes t w) (childrenBlack t w) :=
  .bind getChildIn_refines fun _ => .bind getColorIn_refines fun _ =>
    .ite (.bind getChildIn_refines fun _ => .bind getColorIn_refines fun _ => .refl _) (.refl _)

theorem deleteFixupBlackIn_refines :
    Refines (deleteFixupBlackIn nodes d t temp w) (deleteFixupBlack d t temp w) := by
  refine .bind childrenBlackIn_refines fun _ => .ite ?_ ?_
  · exact .bind setColorIn_refines fun _ => .bind followParentIn_refines fun _ => .refl _
  · refine .bind getChildIn_refines fun _ => .bind getColorIn_refines fun _ =>
      .bind (.ite ?_ (.refl _)) fun ⟨_, _⟩ => ?_
    · exact .bind getChildIn_refines fun _ => .bind setColorIn_refines fun _ =>
        .bind setColorIn_refines fun _ => .bind rotateIn_refines fun _ =>
        .bind followParentIn_refines fun _ => .bind getChildIn_refines fun _ => .refl _
    · exact .bind followParentIn_refines fun _ => .bind getColorIn_refines fun _ =>
        .bind setColorIn_refines fun _ => .bind followParentIn_refines fun _ =>
        .bind setColorIn_refines fun _ => .bind getChildIn_refines fun _ =>
        .bind setColorIn_refines fun _ => .bind followParentIn_refines fun _ =>
        .bind rotateIn_refines fun _ => .refl _

theorem deleteFixupStepIn_refines :
    Refines (deleteFixupStepIn nodes d t temp) (deleteFixupStep d t temp) := by
  refine .bind followParentIn_refines fun _ => .bind getChildIn_refines fun _ =>
    .bind getColorIn_refines fun _ => .ite ?_ deleteFixupBlackIn_refines
  exact .bind setColorIn_refines fun _ => .bind followParentIn_refines fun _ =>
    .bind setColorIn_refines fun _ => .bind followParentIn_refines fun _ =>
    .bind rotateIn_refines fun _ => .bind followParentIn_refines fun _ =>
    .bind getChildIn_refines fun _ => deleteFixupBlackIn_refines

theorem deleteFixupIn_refines (fuel : Nat) (t : NcRbtree) (temp : Ptr) :
    Refines (deleteFixupIn nodes fuel t temp) (deleteFixup fuel t temp) := by
  induction fuel generalizing t temp with
  | zero => exact .refl _
  | succ fuel ih =>
      exact .ite setColorIn_refines (.bind getColorIn_refines fun _ => .ite setColorIn_refines
        (.bind followParentIn_refines fun _ => .bind getChildIn_refines fun _ =>
          .bind deleteFixupStepIn_refines fun ⟨t, temp⟩ => ih t temp))

theorem takeLinksIn_refines : Refines (takeLinksIn nodes t node subst) (takeLinks t node subst) :=
  .bind getChildIn_refines fun _ => .bind setChildIn_refines fun _ =>
    .bind getChildIn_refines fun _ => .bind setChildIn_refines fun _ =>
    .bind getParentIn_refines fun _ => .bind setParentIn_refines fun _ =>
    .bind getColorIn_refines fun _ => .bind setColorIn_refines fun _ =>
    .bind (.ite (.refl _) relinkIn_refines) fun _ => .bind getChildIn_refines fun _ =>
    .bind (.ite setParentIn_refines (.refl _)) fun _ => .bind getChildIn_refines fun _ =>
    .ite setParentIn_refines (.refl _)

theorem takePlaceIn_refines :
    Refines (takePlaceIn nodes t node subst temp) (takePlace t node subst temp) :=
  .bind getParentIn_refines fun _ => .bind (.ite setParentIn_refines setParentIn_refines) fun _ =>
    takeLinksIn_refines

theorem deleteChooseIn_refines (fuel : Nat) :
    Refines (deleteChooseIn nodes fuel t node) (deleteChoose fuel t node) :=
  .bind getChildIn_refines fun _ => .bind getChildIn_refines fun _ =>
    .ite (.refl _) (.ite (.refl _) (.bind (rbtreeNodeMinIn_refines fuel _) fun _ =>
      .bind getChildIn_refines fun _ => .refl _))

theorem ncRbtreeDeleteIn_refines (fuel : Nat) :
    Refines (ncRbtreeDeleteIn nodes fuel t node) (ncRbtreeDelete fuel t node) := by
  refine .bind (deleteChooseIn_refines fuel) fun ⟨_, _⟩ => .ite ?_ ?_
  · exact .bind setColorIn_refines fun _ => ncRbtreeNodeInitIn_refines
  · refine .bind getColorIn_refines fun _ => .bind relinkIn_refines fun _ => .bind (.ite ?_ ?_) ?_
    · exact .bind getParentIn_refines fun _ => setParentIn_refines
    · exact takePlaceIn_refines
    · exact fun _ => .bind ncRbtreeNodeInitIn_refines fun _ =>
        .ite (.refl _) (deleteFixupIn_refines fuel _ _)

end Libnc.Rbtree
