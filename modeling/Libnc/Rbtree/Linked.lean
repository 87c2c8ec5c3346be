import Libnc.Foundation.RedBlack
import Libnc.Rbtree.Guarded

/-!
# The tree in memory

`Linked` says that the memory holds a given tree, `Focused` that it holds the
tree made of a subtree and the path above it.  The parent link of the root and
all links of the sentinel are left open.  Every access to the nodes of such a tree
passes the checks.
-/

namespace Libnc.Rbtree

open Libnc.Foundation Path NcRbtree

variable {t t' : NcRbtree} {nodes nodes' : List Ptr}

/-! ## Reads after writes -/

namespace NcRbtree

@[simp] theorem child_putChild (d e : Side) (p q v : Ptr) :
    (t.putChild d p v).child e q = if q = p ∧ e = d then v else t.child e q := by
  by_cases hq : q = p
  · subst hq
    cases d <;> cases e <;> simp [putChild, child, putNode]
  · cases d <;> cases e <;> simp [putChild, child, putNode, hq]

@[simp] theorem parent_putChild (d : Side) (p q v : Ptr) :
    (t.putChild d p v).parent q = t.parent q := by
  by_cases hq : q = p
  · subst hq
    cases d <;> simp [putChild, parent, putNode]
  · cases d <;> simp [putChild, parent, putNode, hq]

@[simp] theorem color_putChild (d : Side) (p q v : Ptr) :
    (t.putChild d p v).color q = t.color q := by
  by_cases hq : q = p
  · subst hq
    cases d <;> simp [putChild, color, putNode]
  · cases d <;> simp [putChild, color, putNode, hq]

@[simp] theorem child_putParent (e : Side) (p q v : Ptr) :
    (t.putParent p v).child e q = t.child e q := by
  by_cases hq : q = p
  · subst hq
    cases e <;> simp [putParent, child, putNode]
  · cases e <;> simp [putParent, child, putNode, hq]

@[simp] theorem parent_putParent (p q v : Ptr) :
    (t.putParent p v).parent q = if q = p then v else t.parent q := by
  by_cases hq : q = p
  · subst hq
    simp [putParent, parent, putNode]
  · simp [putParent, parent, putNode, hq]

@[simp] theorem color_putParent (p q v : Ptr) :
    (t.putParent p v).color q = t.color q := by
  by_cases hq : q = p
  · subst hq
    simp [putParent, color, putNode]
  · simp [putParent, color, putNode, hq]

@[simp] theorem child_putColor (e : Side) (p q : Ptr) (c : Color) :
    (t.putColor p c).child e q = t.child e q := by
  by_cases hq : q = p
  · subst hq
    cases e <;> simp [putColor, child, putNode]
  · cases e <;> simp [putColor, child, putNode, hq]

@[simp] theorem parent_putColor (p q : Ptr) (c : Color) :
    (t.putColor p c).parent q = t.parent q := by
  by_cases hq : q = p
  · subst hq
    simp [putColor, parent, putNode]
  · simp [putColor, parent, putNode, hq]

@[simp] theorem color_putColor (p q : Ptr) (c : Color) :
    (t.putColor p c).color q = if q = p then c else t.color q := by
  by_cases hq : q = p
  · subst hq
    simp [putColor, color, putNode]
  · simp [putColor, color, putNode, hq]

@[simp] theorem child_putRoot (d : Side) (p q : Ptr) : (t.putRoot p).child d q = t.child d q := by
  cases d <;> rfl

@[simp] theorem parent_putRoot (p q : Ptr) : (t.putRoot p).parent q = t.parent q := rfl

@[simp] theorem color_putRoot (p q : Ptr) : (t.putRoot p).color q = t.color q := rfl

@[simp] theorem root_putRoot (p : Ptr) : (t.putRoot p).root = p := rfl

@[simp] theorem root_putChild (d : Side) (p v : Ptr) : (t.putChild d p v).root = t.root := by
  cases d <;> rfl

@[simp] theorem root_putParent (p v : Ptr) : (t.putParent p v).root = t.root := rfl

@[simp] theorem root_putColor (p : Ptr) (c : Color) : (t.putColor p c).root = t.root := rfl

@[simp] theorem sentinel_putChild (d : Side) (p v : Ptr) :
    (t.putChild d p v).sentinel = t.sentinel := by
  cases d <;> rfl

@[simp] theorem sentinel_putParent (p v : Ptr) :
    (t.putParent p v).sentinel = t.sentinel := rfl

@[simp] theorem sentinel_putColor (p : Ptr) (c : Color) :
    (t.putColor p c).sentinel = t.sentinel := rfl

@[simp] theorem sentinel_putRoot (p : Ptr) : (t.putRoot p).sentinel = t.sentinel := rfl

/-! ### Checks that are passed -/

theorem IsNode.target {p : Ptr} (h : t.IsNode nodes p) : t.IsTarget nodes p := ⟨.inl h.1, h.2.1⟩

@[simp] theorem isNode_putChild (d : Side) (p v q : Ptr) :
    (t.putChild d p v).IsNode nodes q ↔ t.IsNode nodes q := by
  simp [IsNode]

@[simp] theorem isNode_putParent (p v q : Ptr) :
    (t.putParent p v).IsNode nodes q ↔ t.IsNode nodes q := Iff.rfl

@[simp] theorem isNode_putColor (p q : Ptr) (c : Color) :
    (t.putColor p c).IsNode nodes q ↔ t.IsNode nodes q := Iff.rfl

@[simp] theorem isTarget_putChild (d : Side) (p v q : Ptr) :
    (t.putChild d p v).IsTarget nodes q ↔ t.IsTarget nodes q := by
  simp [IsTarget]

@[simp] theorem isTarget_putParent (p v q : Ptr) :
    (t.putParent p v).IsTarget nodes q ↔ t.IsTarget nodes q := Iff.rfl

@[simp] theorem isTarget_putColor (p q : Ptr) (c : Color) :
    (t.putColor p c).IsTarget nodes q ↔ t.IsTarget nodes q := Iff.rfl

theorem IsNode.congr {p : Ptr} (h : t.IsNode nodes p) (hs : t'.sentinel = t.sentinel) :
    t'.IsNode nodes p := ⟨h.1, h.2.1, hs ▸ h.2.2⟩

theorem IsTarget.congr {p : Ptr} (h : t.IsTarget nodes p) (hs : t'.sentinel = t.sentinel) :
    t'.IsTarget nodes p := ⟨hs ▸ h.1, h.2⟩

theorem getChildIn_of {p : Ptr} (h : t.IsNode nodes p) (d : Side) :
    t.getChildIn nodes d p = some (t.child d p) := (if_pos h).trans (if_neg h.2.1)

theorem getParentIn_of {p : Ptr} (h : t.IsNode nodes p) :
    t.getParentIn nodes p = some (t.parent p) := (if_pos h).trans (if_neg h.2.1)

theorem followParentIn_of {p : Ptr} (h : t.IsTarget nodes p) (hbelow : t.IsBelow nodes p) :
    t.followParentIn nodes p = some (t.parent p) := (if_pos ⟨h, hbelow⟩).trans (if_neg h.2)

theorem getKeyIn_of {p : Ptr} (h : t.IsNode nodes p) : t.getKeyIn nodes p = some (t.key p) :=
  (if_pos h).trans (if_neg h.2.1)

theorem getColorIn_of {p : Ptr} (h : t.IsTarget nodes p) :
    t.getColorIn nodes p = some (t.color p) := (if_pos h).trans (if_neg h.2)

theorem setChildIn_of {p : Ptr} (h : t.IsNode nodes p) (d : Side) (v : Ptr) :
    t.setChildIn nodes d p v = some (t.putChild d p v) := (if_pos h).trans (if_neg h.2.1)

theorem setParentIn_of {p : Ptr} (h : t.IsTarget nodes p) (v : Ptr) :
    t.setParentIn nodes p v = some (t.putParent p v) := (if_pos h).trans (if_neg h.2)

theorem setColorIn_of {p : Ptr} (h : t.IsNode nodes p) (c : Color) :
    t.setColorIn nodes p c = some (t.putColor p c) :=
  (if_pos ⟨h.target, fun _ => h.2.2⟩).trans (if_neg h.2.1)

theorem setColorIn_black {p : Ptr} (h : t.IsTarget nodes p) :
    t.setColorIn nodes p .black = some (t.putColor p .black) :=
  (if_pos ⟨h, by simp⟩).trans (if_neg h.2)

end NcRbtree

/-- Neither the sentinel nor the key or the data of any node changes. -/
structure SameFields (t t' : NcRbtree) : Prop where
  sentinel : t'.sentinel = t.sentinel
  key : ∀ p, t'.key p = t.key p
  data : ∀ p, t'.data p = t.data p

namespace SameFields

theorem refl (t : NcRbtree) : SameFields t t := ⟨rfl, fun _ => rfl, fun _ => rfl⟩

theorem trans {t'' : NcRbtree} (h : SameFields t t') (h' : SameFields t' t'') :
    SameFields t t'' :=
  ⟨h'.sentinel.trans h.sentinel, fun p => (h'.key p).trans (h.key p),
    fun p => (h'.data p).trans (h.data p)⟩

theorem putNode {p : Ptr} {node : NcRbnode} (hkey : node.key = t.key p)
    (hdata : node.data = t.data p) : SameFields t (t.putNode p node) := by
  refine ⟨rfl, fun q => ?_, fun q => ?_⟩ <;> by_cases hq : q = p <;>
    simp_all [NcRbtree.key, NcRbtree.data, NcRbtree.putNode]

theorem putChild (d : Side) (p v : Ptr) : SameFields t (t.putChild d p v) := by
  cases d
  · exact putNode rfl rfl
  · exact putNode rfl rfl

theorem putParent (p v : Ptr) : SameFields t (t.putParent p v) := putNode rfl rfl

theorem putColor (p : Ptr) (c : Color) : SameFields t (t.putColor p c) := putNode rfl rfl

theorem putRoot (p : Ptr) : SameFields t (t.putRoot p) := ⟨rfl, fun _ => rfl, fun _ => rfl⟩

end SameFields

/-- Nodes outside of the tree do not change. -/
def Framed (nodes : List Ptr) (t t' : NcRbtree) : Prop :=
  ∀ p, p ∉ nodes → p ≠ t.sentinel → t'.node p = t.node p

namespace Framed

theorem refl (t : NcRbtree) : Framed nodes t t := fun _ _ _ => rfl

theorem trans {t'' : NcRbtree} (h : Framed nodes t t') (h' : Framed nodes t' t'')
    (hs : t'.sentinel = t.sentinel) : Framed nodes t t'' :=
  fun p hp hps => (h' p hp (hs ▸ hps)).trans (h p hp hps)

theorem putNode {p : Ptr} (hp : p ∈ nodes ∨ p = t.sentinel) (node : NcRbnode) :
    Framed nodes t (t.putNode p node) := fun q hq hqs => by
  refine Function.update_of_ne ?_ _ _
  rintro rfl
  exact hp.elim hq hqs

theorem putChild {p : Ptr} (hp : p ∈ nodes) (d : Side) (v : Ptr) :
    Framed nodes t (t.putChild d p v) := by
  cases d
  · exact putNode (.inl hp) _
  · exact putNode (.inl hp) _

theorem putParent {p : Ptr} (hp : t.IsTarget nodes p) (v : Ptr) :
    Framed nodes t (t.putParent p v) := putNode hp.1 _

theorem putColor {p : Ptr} (hp : t.IsTarget nodes p) (c : Color) :
    Framed nodes t (t.putColor p c) := putNode hp.1 _

theorem of_reads (hsame : SameFields t t')
    (hcolor : ∀ p, p ∉ nodes → p ≠ t.sentinel → t'.color p = t.color p)
    (hchild : ∀ p, p ∉ nodes → p ≠ t.sentinel → ∀ d, t'.child d p = t.child d p)
    (hparent : ∀ p, p ∉ nodes → p ≠ t.sentinel → t'.parent p = t.parent p) :
    Framed nodes t t' := fun p hp hps => by
  have heq : ∀ n n' : NcRbnode, n.left = n'.left → n.right = n'.right → n.parent = n'.parent →
      n.key = n'.key → n.data = n'.data → n.color = n'.color → n = n' := by
    rintro ⟨⟩ ⟨⟩ rfl rfl rfl rfl rfl rfl
    rfl
  exact heq _ _ (hchild p hp hps .left) (hchild p hp hps .right) (hparent p hp hps)
    (hsame.key p) (hsame.data p) (hcolor p hp hps)

end Framed

/--
Neither the fields nor the nodes outside of the tree change, nor do the parent
links of the sentinel and of the root, whichever node that is.
-/
structure Kept (nodes : List Ptr) (t t' : NcRbtree) : Prop where
  same : SameFields t t'
  sentinel_parent : t'.parent t.sentinel = t.parent t.sentinel
  root_parent : t'.parent t'.root = t.parent t.root
  frame : Framed nodes t t'

namespace Kept

theorem refl (t : NcRbtree) : Kept nodes t t := ⟨.refl t, rfl, rfl, .refl t⟩

theorem trans {t'' : NcRbtree} (h : Kept nodes t t') (h' : Kept nodes t' t'') :
    Kept nodes t t'' := by
  refine ⟨h.same.trans h'.same, ?_, h'.root_parent.trans h.root_parent,
    h.frame.trans h'.frame h.same.sentinel⟩
  have hparent := h'.sentinel_parent
  rw [h.same.sentinel] at hparent
  exact hparent.trans h.sentinel_parent

theorem putColor {p : Ptr} (hp : t.IsTarget nodes p) (c : Color) :
    Kept nodes t (t.putColor p c) := ⟨.putColor p c, by simp, by simp, .putColor hp c⟩

end Kept

/-! ## Trees in memory -/

/-- The link to a subtree. -/
def ptr (sentinel : Ptr) : ColorTree Ptr → Ptr
  | .nil => sentinel
  | .node _ _ x _ => x

@[simp] theorem ptr_nil (s : Ptr) : ptr s .nil = s := rfl

@[simp] theorem ptr_join (s : Ptr) (d : Side) (c : Color) (a b : ColorTree Ptr) (x : Ptr) :
    ptr s (.join d c a x b) = x := by
  cases d <;> rfl

theorem ptr_mem {T : ColorTree Ptr} (h : T ≠ .nil) (s : Ptr) : ptr s T ∈ T.toList := by
  cases T with
  | nil => exact absurd rfl h
  | node c l x r => simp [ptr, ColorTree.toList]

theorem ptr_mem_of_ne {T : ColorTree Ptr} {s : Ptr} (h : ptr s T ≠ s) : ptr s T ∈ T.toList := by
  refine ptr_mem (fun hnil => h ?_) s
  rw [hnil, ptr_nil]

/-- The links of a subtree, with the node above it if there is one. -/
def Linked (t : NcRbtree) : Option Ptr → ColorTree Ptr → Prop
  | _, .nil => True
  | above, .node c l x r =>
      t.color x = c ∧ t.child .left x = ptr t.sentinel l ∧
        t.child .right x = ptr t.sentinel r ∧ (∀ p ∈ above, t.parent x = p) ∧
        Linked t (some x) l ∧ Linked t (some x) r

/-- The node above the hole of a path. -/
def above (outer : Option Ptr) : Path Ptr → Option Ptr
  | [] => outer
  | f :: _ => some f.value

/-- The links of the frames of a path whose hole holds the link `q`. -/
def LinkedPath (t : NcRbtree) (outer : Option Ptr) : Ptr → Path Ptr → Prop
  | _, [] => True
  | q, f :: path =>
      t.color f.value = f.color ∧ t.child f.side f.value = q ∧
        t.child f.side.other f.value = ptr t.sentinel f.sibling ∧
        Linked t (some f.value) f.sibling ∧ (∀ p ∈ above outer path, t.parent f.value = p) ∧
        LinkedPath t outer f.value path

variable {up up' outer : Option Ptr} {T : ColorTree Ptr} {path : Path Ptr} {q : Ptr}

theorem linked_join {d : Side} {c : Color} {a b : ColorTree Ptr} {x : Ptr} :
    Linked t up (.join d c a x b) ↔
      t.color x = c ∧ t.child d x = ptr t.sentinel a ∧ t.child d.other x = ptr t.sentinel b ∧
        (∀ p ∈ up, t.parent x = p) ∧ Linked t (some x) a ∧ Linked t (some x) b := by
  cases d
  · exact Iff.rfl
  · simp only [ColorTree.join, Linked, Side.other]
    tauto

theorem Linked.parent_ptr (h : Linked t up T) (hne : T ≠ .nil) {p : Ptr} (hp : p ∈ up) :
    t.parent (ptr t.sentinel T) = p := by
  cases T with
  | nil => exact absurd rfl hne
  | node c l x r => exact h.2.2.2.1 p hp

theorem Linked.color_ptr (h : Linked t up T) (hs : t.color t.sentinel = .black) :
    t.color (ptr t.sentinel T) = if T.isRed then .red else .black := by
  cases T with
  | nil => exact hs
  | node c l x r =>
      unfold ptr
      rw [h.1]
      cases c <;> rfl

theorem Linked.weaken (h : Linked t up T) (hup : ∀ p ∈ up', p ∈ up) : Linked t up' T := by
  cases T with
  | nil => trivial
  | node c l x r =>
      obtain ⟨hc, hl, hr, hp, hrest⟩ := h
      exact ⟨hc, hl, hr, fun p hp' => hp p (hup p hp'), hrest⟩

/-! ## Frames -/

/-- Colours, children and parents of the given nodes are the same. -/
structure SameOn (t t' : NcRbtree) (nodes : List Ptr) : Prop where
  color : ∀ x ∈ nodes, t'.color x = t.color x
  child : ∀ x ∈ nodes, ∀ d, t'.child d x = t.child d x
  parent : ∀ x ∈ nodes, t'.parent x = t.parent x

theorem SameOn.mono {xs ys : List Ptr} (h : SameOn t t' ys) (hsub : ∀ x ∈ xs, x ∈ ys) :
    SameOn t t' xs :=
  ⟨fun x hx => h.color x (hsub x hx), fun x hx => h.child x (hsub x hx),
    fun x hx => h.parent x (hsub x hx)⟩

theorem sameOn_putNode {xs : List Ptr} {x : Ptr} (hx : x ∉ xs) (node : NcRbnode) :
    SameOn t (t.putNode x node) xs := by
  refine ⟨fun z hz => ?_, fun z hz e => ?_, fun z hz => ?_⟩
  · simp [NcRbtree.color, putNode, ne_of_mem_of_not_mem hz hx]
  · cases e <;> simp [NcRbtree.child, putNode, ne_of_mem_of_not_mem hz hx]
  · simp [NcRbtree.parent, putNode, ne_of_mem_of_not_mem hz hx]

/-- A subtree survives writes outside of it, and its root a new parent. -/
theorem Linked.reparent (h : Linked t up T) (hs : t'.sentinel = t.sentinel)
    (hnodup : T.toList.Nodup) (hcolor : ∀ x ∈ T.toList, t'.color x = t.color x)
    (hchild : ∀ x ∈ T.toList, ∀ d, t'.child d x = t.child d x)
    (hparent : ∀ x ∈ T.toList, x ≠ ptr t.sentinel T → t'.parent x = t.parent x)
    (hroot : T ≠ .nil → ∀ p ∈ up', t'.parent (ptr t.sentinel T) = p) : Linked t' up' T := by
  induction T generalizing up up' with
  | nil => trivial
  | node c l x r ihl ihr =>
      obtain ⟨hc, hl, hr, -, hl', hr'⟩ := h
      obtain ⟨hnl, hnr, hdisj⟩ := List.nodup_append.mp hnodup
      have hxl : ∀ y ∈ l.toList, y ≠ x := fun y hy => hdisj y hy x (by simp)
      have hxr : ∀ y ∈ r.toList, y ≠ x := fun y hy hyx =>
        (List.nodup_cons.mp hnr).1 (hyx ▸ hy)
      have hkeep : ∀ y ∈ l.toList ++ r.toList, t'.parent y = t.parent y := fun y hy => by
        rcases List.mem_append.mp hy with hy | hy
        · exact hparent y (by simp [ColorTree.toList, hy]) (hxl y hy)
        · exact hparent y (by simp [ColorTree.toList, hy]) (hxr y hy)
      refine ⟨(hcolor x (by simp [ColorTree.toList])).trans hc, ?_, ?_, hroot (by simp), ?_, ?_⟩
      · rw [hchild x (by simp [ColorTree.toList]), hl, hs]
      · rw [hchild x (by simp [ColorTree.toList]), hr, hs]
      · refine ihl hl' hnl (fun y hy => hcolor y (by simp [ColorTree.toList, hy]))
          (fun y hy => hchild y (by simp [ColorTree.toList, hy]))
          (fun y hy _ => hkeep y (by simp [hy])) fun hne p hp => ?_
        rw [hkeep _ (List.mem_append_left _ (ptr_mem hne _))]
        exact hl'.parent_ptr hne hp
      · refine ihr hr' (List.nodup_cons.mp hnr).2
          (fun y hy => hcolor y (by simp [ColorTree.toList, hy]))
          (fun y hy => hchild y (by simp [ColorTree.toList, hy]))
          (fun y hy _ => hkeep y (by simp [hy])) fun hne p hp => ?_
        rw [hkeep _ (List.mem_append_right _ (ptr_mem hne _))]
        exact hr'.parent_ptr hne hp

theorem Linked.congr (h : Linked t up T) (hs : t'.sentinel = t.sentinel)
    (hsame : SameOn t t' T.toList) : Linked t' up T := by
  induction T generalizing up with
  | nil => trivial
  | node c l x r ihl ihr =>
      obtain ⟨hc, hl, hr, hp, hl', hr'⟩ := h
      have hx : x ∈ (ColorTree.node c l x r).toList := by simp [ColorTree.toList]
      refine ⟨(hsame.color x hx).trans hc, ?_, ?_, ?_, ?_, ?_⟩
      · rw [hsame.child x hx, hl, hs]
      · rw [hsame.child x hx, hr, hs]
      · rwa [hsame.parent x hx]
      · exact ihl hl' (hsame.mono fun y hy => by simp [ColorTree.toList, hy])
      · exact ihr hr' (hsame.mono fun y hy => by simp [ColorTree.toList, hy])

theorem LinkedPath.congr (h : LinkedPath t outer q path) (hs : t'.sentinel = t.sentinel)
    (hsame : SameOn t t' (values path)) : LinkedPath t' outer q path := by
  induction path generalizing q with
  | nil => trivial
  | cons f path ih =>
      obtain ⟨hc, hq, ho, hl, hp, hrest⟩ := h
      have hf : f.value ∈ values (f :: path) := by simp [values]
      refine ⟨(hsame.color _ hf).trans hc, ?_, ?_, ?_, ?_, ?_⟩
      · rw [hsame.child _ hf, hq]
      · rw [hsame.child _ hf, ho, hs]
      · exact hl.congr hs (hsame.mono fun y hy => by simp [values, hy])
      · rwa [hsame.parent _ hf]
      · exact ih hrest (hsame.mono fun y hy => by
          simp only [values, List.flatMap_cons, List.mem_append] at hy ⊢
          exact .inr hy)

theorem LinkedPath.relink {f : Frame Ptr} {q' : Ptr} (h : LinkedPath t outer q (f :: path))
    (hs : t'.sentinel = t.sentinel)
    (hsame : SameOn t t' (f.sibling.toList ++ values path))
    (hcolor : t'.color f.value = t.color f.value)
    (hparent : t'.parent f.value = t.parent f.value)
    (hother : t'.child f.side.other f.value = t.child f.side.other f.value)
    (hside : t'.child f.side f.value = q') : LinkedPath t' outer q' (f :: path) := by
  obtain ⟨hc, -, ho, hl, hp, hrest⟩ := h
  refine ⟨hcolor.trans hc, hside, by rw [hother, ho, hs], ?_, by rwa [hparent], ?_⟩
  · exact hl.congr hs (hsame.mono fun y hy => by simp [hy])
  · exact hrest.congr hs (hsame.mono fun y hy => by simp [hy])

/-! ## A subtree and its path -/

theorem ptr_plug_mem (s : Ptr) (T : ColorTree Ptr) (hne : path ≠ []) :
    ptr s (plug T path) ∈ values path := by
  induction path generalizing T with
  | nil => exact absurd rfl hne
  | cons f path ih =>
      by_cases hpath : path = []
      · subst hpath
        simp [Frame.fill, values]
      · exact List.mem_append_right _ (ih (f.fill T) hpath)

theorem ptr_plug_congr (s : Ptr) (T U : ColorTree Ptr) (hne : path ≠ []) :
    ptr s (plug T path) = ptr s (plug U path) := by
  induction path generalizing T U with
  | nil => exact absurd rfl hne
  | cons f path ih =>
      by_cases hpath : path = []
      · subst hpath
        simp [Frame.fill]
      · exact ih (f.fill T) (f.fill U) hpath

/-- The tree made of a subtree and a path, the root of the subtree below `up`. -/
structure Placed (nodes : List Ptr) (t : NcRbtree) (up : Option Ptr) (T : ColorTree Ptr)
    (path : Path Ptr) : Prop where
  focus : Linked t up T
  frames : LinkedPath t none (ptr t.sentinel T) path
  root : t.root = ptr t.sentinel (plug T path)
  nodup : (T.toList ++ values path).Nodup
  sentinel_not_mem : t.sentinel ∉ T.toList ++ values path
  null_not_mem : null ∉ T.toList ++ values path
  sentinel_ne_null : t.sentinel ≠ null
  sentinel_black : t.color t.sentinel = .black
  mem : ∀ x ∈ T.toList ++ values path, x ∈ nodes

theorem value_not_mem {xs : List Ptr} {f : Frame Ptr} (h : (xs ++ values (f :: path)).Nodup) :
    f.value ∉ xs ∧ f.value ∉ f.sibling.toList ++ values path := by
  have hperm : (xs ++ values (f :: path)).Perm
      (f.value :: (xs ++ (f.sibling.toList ++ values path))) := List.perm_middle
  have hnot := (List.nodup_cons.mp (hperm.nodup_iff.mp h)).1
  exact ⟨fun hx => hnot (List.mem_append_left _ hx), fun hx => hnot (List.mem_append_right _ hx)⟩

/-- All links of the tree agree with its shape. -/
abbrev Focused (nodes : List Ptr) (t : NcRbtree) (T : ColorTree Ptr) (path : Path Ptr) : Prop :=
  Placed nodes t (above none path) T path

theorem values_fill (T : ColorTree Ptr) (f : Frame Ptr) (path : Path Ptr) :
    ((f.fill T).toList ++ values path).Perm (T.toList ++ values (f :: path)) := by
  apply ((ColorTree.toList_join_perm _ _ _ _ _).append_right _).trans
  simp only [values, List.flatMap_cons, List.cons_append, List.append_assoc]
  exact List.perm_middle.symm

theorem focused_fill {f : Frame Ptr} :
    Focused nodes t (f.fill T) path ↔ Focused nodes t T (f :: path) := by
  have hperm := values_fill T f path
  constructor
  · intro h
    have hsub := linked_join.mp h.focus
    have hpath := h.frames
    rw [Frame.fill, ptr_join] at hpath
    exact ⟨hsub.2.2.2.2.1, ⟨hsub.1, hsub.2.1, hsub.2.2.1, hsub.2.2.2.2.2, hsub.2.2.2.1, hpath⟩,
      h.root, hperm.nodup_iff.mp h.nodup, fun hm => h.sentinel_not_mem (hperm.mem_iff.mpr hm),
      fun hm => h.null_not_mem (hperm.mem_iff.mpr hm), h.sentinel_ne_null, h.sentinel_black,
      fun x hx => h.mem x (hperm.mem_iff.mpr hx)⟩
  · intro h
    obtain ⟨hc, hq, ho, hl, hp, hrest⟩ := h.frames
    refine ⟨linked_join.mpr ⟨hc, hq, ho, hp, h.focus, hl⟩, ?_, h.root,
      hperm.nodup_iff.mpr h.nodup, fun hm => h.sentinel_not_mem (hperm.mem_iff.mp hm),
      fun hm => h.null_not_mem (hperm.mem_iff.mp hm), h.sentinel_ne_null, h.sentinel_black,
      fun x hx => h.mem x (hperm.mem_iff.mp hx)⟩
    unfold Frame.fill
    rw [ptr_join]
    exact hrest

theorem focused_plug {p : Path Ptr} :
    Focused nodes t (plug T p) path ↔ Focused nodes t T (p ++ path) := by
  induction p generalizing T with
  | nil => rfl
  | cons f p ih => exact (ih (T := f.fill T)).trans focused_fill

namespace Placed

variable {f : Frame Ptr} {x : Ptr}

theorem weaken (h : Placed nodes t up T path) (hup : ∀ p ∈ up', p ∈ up) :
    Placed nodes t up' T path :=
  ⟨h.focus.weaken hup, h.frames, h.root, h.nodup, h.sentinel_not_mem, h.null_not_mem,
    h.sentinel_ne_null, h.sentinel_black, h.mem⟩

theorem restrict (h : Placed nodes t up T path)
    (hmem : ∀ x ∈ T.toList ++ values path, x ∈ nodes') : Placed nodes' t up T path :=
  ⟨h.focus, h.frames, h.root, h.nodup, h.sentinel_not_mem, h.null_not_mem, h.sentinel_ne_null,
    h.sentinel_black, hmem⟩

theorem congr (h : Placed nodes t up T path) (hs : t'.sentinel = t.sentinel)
    (hroot : t'.root = t.root) (hsame : SameOn t t' (T.toList ++ values path))
    (hblack : t'.color t.sentinel = t.color t.sentinel) : Placed nodes t' up T path := by
  refine ⟨h.focus.congr hs (hsame.mono fun z hz => by simp [hz]), ?_, by rw [hroot, hs, h.root],
    h.nodup, hs ▸ h.sentinel_not_mem, h.null_not_mem, hs ▸ h.sentinel_ne_null, ?_, h.mem⟩
  · rw [hs]
    exact h.frames.congr hs (hsame.mono fun z hz => by simp [hz])
  · rw [hs, hblack, h.sentinel_black]

theorem putNode (h : Placed nodes t up T path) (hx : x ∉ T.toList ++ values path)
    (hs : x ≠ t.sentinel) (node : NcRbnode) : Placed nodes (t.putNode x node) up T path := by
  refine h.congr rfl rfl (sameOn_putNode hx node) ?_
  simp [NcRbtree.color, NcRbtree.putNode, hs.symm]

theorem isNode (h : Placed nodes t up T path) (hx : x ∈ T.toList ++ values path) :
    t.IsNode nodes x :=
  ⟨h.mem x hx, fun h0 => h.null_not_mem (h0 ▸ hx), fun hs => h.sentinel_not_mem (hs ▸ hx)⟩

theorem isNode_value (h : Placed nodes t up T (f :: path)) : t.IsNode nodes f.value :=
  h.isNode (by simp [values])

theorem isTarget (h : Placed nodes t up T path) : t.IsTarget nodes (ptr t.sentinel T) := by
  by_cases hne : T = .nil
  · rw [hne]
    exact ⟨.inr rfl, h.sentinel_ne_null⟩
  · exact (h.isNode (List.mem_append_left _ (ptr_mem hne _))).target

theorem ptr_ne_of_mem (h : Placed nodes t up T path) (hx : x ∈ values path) :
    ptr t.sentinel T ≠ x := by
  rintro rfl
  by_cases hne : T = .nil
  · subst hne
    exact h.sentinel_not_mem (List.mem_append_right _ hx)
  · exact (List.nodup_append.mp h.nodup).2.2 _ (ptr_mem hne _) _ hx rfl

theorem ptr_eq_sentinel_iff (h : Placed nodes t up T path) :
    ptr t.sentinel T = t.sentinel ↔ T = .nil := by
  constructor
  · intro heq
    by_contra hne
    exact h.sentinel_not_mem (List.mem_append_left _ (heq ▸ ptr_mem hne _))
  · rintro rfl
    rfl

theorem ptr_ne_root (h : Placed nodes t up T (f :: path)) : ptr t.sentinel T ≠ t.root := by
  rw [h.root]
  exact h.ptr_ne_of_mem (ptr_plug_mem _ _ (by simp))

end Placed

namespace Focused

variable {d : Side} {c : Color} {a b : ColorTree Ptr} {x : Ptr} {f : Frame Ptr}

theorem fill (h : Focused nodes t T (f :: path)) : Focused nodes t (f.fill T) path :=
  focused_fill.mpr h

theorem color_ptr (h : Focused nodes t T path) :
    t.color (ptr t.sentinel T) = if T.isRed then .red else .black :=
  h.focus.color_ptr h.sentinel_black

theorem toSibling (h : Focused nodes t T (f :: path)) :
    Focused nodes t f.sibling (⟨f.side.other, f.color, f.value, T⟩ :: path) := by
  apply focused_fill.mp
  unfold Frame.fill
  rw [ColorTree.join_other]
  exact h.fill

theorem ptr_eq_root_iff (h : Focused nodes t T path) : ptr t.sentinel T = t.root ↔ path = [] := by
  cases path with
  | nil => simp [h.root]
  | cons f path => simp [h.ptr_ne_root]

theorem isNode_join (h : Focused nodes t (.join d c a x b) path) : t.IsNode nodes x :=
  h.isNode (List.mem_append_left _ ((ColorTree.toList_join_perm d c a b x).mem_iff.mpr (by simp)))

/-! ### Reads -/

theorem getChild (h : Focused nodes t (.join d c a x b) path) :
    t.getChildIn nodes d x = some (ptr t.sentinel a) ∧
      t.getChildIn nodes d.other x = some (ptr t.sentinel b) := by
  have hx : t.IsNode nodes x := h.isNode_join
  obtain ⟨-, ha, hb, -⟩ := linked_join.mp h.focus
  exact ⟨by rw [getChildIn_of hx, ha], by rw [getChildIn_of hx, hb]⟩

theorem getSide (h : Focused nodes t T (f :: path)) :
    t.getChildIn nodes f.side f.value = some (ptr t.sentinel T) := h.fill.getChild.1

theorem getOther (h : Focused nodes t T (f :: path)) :
    t.getChildIn nodes f.side.other f.value = some (ptr t.sentinel f.sibling) := h.fill.getChild.2

theorem getColor (h : Focused nodes t T path) :
    t.getColorIn nodes (ptr t.sentinel T) = some (if T.isRed then .red else .black) := by
  rw [getColorIn_of h.isTarget, h.color_ptr]

theorem getColor_value (h : Focused nodes t T (f :: path)) :
    t.getColorIn nodes f.value = some f.color := by
  rw [getColorIn_of h.isNode_value.target, h.frames.1]

theorem followParent (h : Focused nodes t T (f :: path))
    (hparent : t.parent (ptr t.sentinel T) = f.value) :
    t.followParentIn nodes (ptr t.sentinel T) = some f.value := by
  rw [followParentIn_of h.isTarget, hparent]
  exact ⟨h.ptr_ne_root, hparent ▸ h.isNode_value, f.side, hparent ▸ h.frames.2.1⟩

theorem getParent (h : Focused nodes t T (f :: path)) (hne : T ≠ .nil) :
    t.followParentIn nodes (ptr t.sentinel T) = some f.value :=
  h.followParent (h.focus.parent_ptr hne rfl)

theorem getParent_value {g : Frame Ptr} (h : Focused nodes t T (f :: g :: path)) :
    t.followParentIn nodes f.value = some g.value := by
  simpa [Frame.fill] using h.fill.getParent (by simp [Frame.fill])

theorem ptr_ne_sibling (h : Focused nodes t T (f :: path)) (hne : T ≠ .nil ∨ f.sibling ≠ .nil) :
    ptr t.sentinel T ≠ ptr t.sentinel f.sibling := by
  intro heq
  by_cases hsib : f.sibling = .nil
  · rw [hsib, ptr_nil, h.ptr_eq_sentinel_iff] at heq
    exact (hne.resolve_right (not_not.mpr hsib)) heq
  · exact h.ptr_ne_of_mem (by simp [values, ptr_mem hsib]) heq

theorem side_eq (h : Focused nodes t T (f :: path)) (hne : T ≠ .nil ∨ f.sibling ≠ .nil) :
    ∃ p, t.getChildIn nodes .left f.value = some p ∧
      (if ptr t.sentinel T = p then Side.left else Side.right) = f.side := by
  cases hside : f.side with
  | left => exact ⟨_, hside ▸ h.getSide, if_pos rfl⟩
  | right =>
      refine ⟨_, ?_, if_neg (h.ptr_ne_sibling hne)⟩
      have hother := h.getOther
      rwa [hside] at hother

end Focused

end Libnc.Rbtree
