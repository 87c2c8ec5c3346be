import Libnc.Rbtree.Linked

/-!
# Recolouring and rotation

What the two writes of the repair loops do to a focused tree.
-/

namespace Libnc.Rbtree

open Libnc.Foundation Path NcRbtree

variable {t t' : NcRbtree} {nodes : List Ptr} {T : ColorTree Ptr} {path : Path Ptr} {f : Frame Ptr}
variable {d : Side} {c c' : Color} {A B C : ColorTree Ptr} {x y : Ptr}

/-! ## Recolouring -/

theorem Focused.recolor (h : Focused nodes t (.join d c A x B) path) (c' : Color) :
    t.setColorIn nodes x c' = some (t.putColor x c') ∧
      Focused nodes (t.putColor x c') (.join d c' A x B) path := by
  have hperm := ColorTree.toList_join_perm d c A B x
  have hlist : (ColorTree.join d c' A x B).toList = (ColorTree.join d c A x B).toList :=
    ColorTree.toList_join_color _ _ _ _ _ _
  have hx : x ∈ (ColorTree.join d c A x B).toList := hperm.mem_iff.mpr (by simp)
  have hnode : t.IsNode nodes x := h.isNode_join
  have hsx : t.sentinel ≠ x := fun hsx =>
    h.sentinel_not_mem (List.mem_append_left _ (hsx ▸ hx))
  have hnodup := (hperm.append_right (values path)).nodup_iff.mp h.nodup
  have hnot : x ∉ A.toList ++ B.toList ++ values path := (List.nodup_cons.mp hnodup).1
  have hsame : ∀ xs, (∀ z ∈ xs, z ∈ A.toList ++ B.toList ++ values path) →
      SameOn t (t.putColor x c') xs := fun xs hxs => by
    refine ⟨fun z hz => ?_, by simp, by simp⟩
    have hzx : z ≠ x := fun hzx => hnot (hzx ▸ hxs z hz)
    simp [hzx]
  obtain ⟨hc, hA, hB, hp, hlA, hlB⟩ := linked_join.mp h.focus
  refine ⟨setColorIn_of hnode c', ?_, ?_, ?_, ?_, ?_, ?_, h.sentinel_ne_null, ?_, ?_⟩
  · refine linked_join.mpr ⟨by simp, by simpa using hA, by simpa using hB, by simpa using hp,
      hlA.congr (by simp) (hsame _ (by simp +contextual)),
      hlB.congr (by simp) (hsame _ (by simp +contextual))⟩
  · have hframes := h.frames
    rw [ptr_join] at hframes ⊢
    exact hframes.congr (by simp) (hsame _ (by simp +contextual))
  · rw [root_putColor, h.root, sentinel_putColor]
    cases path with
    | nil => simp
    | cons f path => exact ptr_plug_congr _ _ _ (by simp)
  · rw [hlist]; exact h.nodup
  · rw [hlist]; exact h.sentinel_not_mem
  · rw [hlist]; exact h.null_not_mem
  · simpa [hsx] using h.sentinel_black
  · rw [hlist]; exact h.mem

theorem Focused.blacken (h : Focused nodes t T path) :
    ∃ t', t.setColorIn nodes (ptr t.sentinel T) .black = some t' ∧ Focused nodes t' T.blacken path ∧
      Kept nodes t t' := by
  refine ⟨_, setColorIn_black h.isTarget, ?_, .putColor h.isTarget _⟩
  cases T with
  | nil =>
      have hcolor : ∀ z, (t.putColor t.sentinel .black).color z = t.color z := fun z => by
        rw [color_putColor]
        split
        · rename_i hz
          rw [hz, h.sentinel_black]
        · rfl
      have hsame : ∀ xs, SameOn t (t.putColor t.sentinel .black) xs := fun xs =>
        ⟨fun z _ => hcolor z, by simp, by simp⟩
      exact ⟨trivial, h.frames.congr rfl (hsame _), h.root, h.nodup, h.sentinel_not_mem,
        h.null_not_mem, h.sentinel_ne_null, (hcolor _).trans h.sentinel_black, h.mem⟩
  | node c l x r => exact (Focused.recolor (d := .left) h .black).2

theorem Focused.recolorFrame {p : Path Ptr} (h : Focused nodes t T (p ++ f :: path)) (c' : Color) :
    ∃ t', t.setColorIn nodes f.value c' = some t' ∧
      Focused nodes t' T (p ++ ⟨f.side, c', f.value, f.sibling⟩ :: path) ∧ Kept nodes t t' := by
  have hfill := (focused_plug.mpr h).fill
  obtain ⟨hset, hfocus⟩ := hfill.recolor c'
  exact ⟨_, hset, focused_plug.mp (focused_fill.mp hfocus), .putColor hfill.isNode_join.target _⟩

theorem Focused.blackenSibling {p : Path Ptr} (h : Focused nodes t T (p ++ f :: path)) :
    ∃ t', t.setColorIn nodes (ptr t.sentinel f.sibling) .black = some t' ∧
      Focused nodes t' T (p ++ ⟨f.side, f.color, f.value, f.sibling.blacken⟩ :: path) ∧
      Kept nodes t t' := by
  obtain ⟨t', hset, hfocus, hkept⟩ := (focused_plug.mpr h).toSibling.blacken
  refine ⟨t', hset, focused_plug.mp ?_, hkept⟩
  simpa using hfocus.toSibling

/-! ## Links of the node above -/

theorem relink_of_links {e : Side} {node p temp : Ptr} (hnode : t.IsNode nodes node)
    (hp : t.IsNode nodes p) (hroot : node ≠ t.root) (hparent : t.parent node = p)
    (hchild : t.child d p = node) (hother : t.child d.other p ≠ node) :
    relinkIn nodes e t node temp = some (t.putChild d p temp) := by
  have hbelow : t.IsBelow nodes node := ⟨hroot, hparent ▸ hp, d, hparent ▸ hchild⟩
  rw [relinkIn, followParentIn_of hnode.target hbelow, Option.bind_eq_bind, Option.bind_some,
    hparent, getChildIn_of hp, Option.bind_some]
  by_cases he : e = d
  · subst he
    rw [if_pos hchild.symm, setChildIn_of hp]
  · obtain rfl := Side.eq_other_of_ne he
    rw [if_neg (Ne.symm hother), Side.other_other, setChildIn_of hp]

/-- The place of the link to the subtree, if it is not the root. -/
def slot (path : Path Ptr) : Option (Ptr × Side) := path.head?.map fun f => (f.value, f.side)

theorem eq_cons_of_slot {z : Ptr} {e : Side} (h : slot path = some (z, e)) :
    ∃ f rest, path = f :: rest ∧ f.value = z ∧ f.side = e := by
  cases path with
  | nil => cases h
  | cons f rest => exact ⟨f, rest, rfl, by simpa [slot] using h⟩

theorem slot_ne_of_not_mem {z : Ptr} (hz : z ∉ values path) (e : Side) :
    slot path ≠ some (z, e) := by
  intro h
  obtain ⟨f, rest, rfl, rfl, -⟩ := eq_cons_of_slot h
  exact hz (by simp [values])

theorem LinkedPath.redirect (h : LinkedPath t none x path) (hs : t'.sentinel = t.sentinel)
    (hnodup : (values path).Nodup) (hcolor : ∀ z ∈ values path, t'.color z = t.color z)
    (hchild : ∀ z ∈ values path, ∀ e,
      t'.child e z = if slot path = some (z, e) then y else t.child e z)
    (hparent : ∀ z ∈ values path, t'.parent z = t.parent z) : LinkedPath t' none y path := by
  cases path with
  | nil => trivial
  | cons f path =>
      have hf : f.value ∈ values (f :: path) := by simp [values]
      have hnot : f.value ∉ f.sibling.toList ++ values path := (List.nodup_cons.mp hnodup).1
      have hmem : ∀ z ∈ f.sibling.toList ++ values path, z ∈ values (f :: path) :=
        fun z hz => List.mem_cons_of_mem _ hz
      refine h.relink hs ⟨?_, ?_, ?_⟩ (hcolor _ hf) (hparent _ hf) ?_ ?_
      · exact fun z hz => hcolor z (hmem z hz)
      · intro z hz e
        rw [hchild z (hmem z hz), if_neg]
        intro hslot
        have hzf : f.value = z := congrArg Prod.fst (Option.some.inj hslot)
        exact hnot (hzf ▸ hz)
      · exact fun z hz => hparent z (hmem z hz)
      · rw [hchild _ hf, if_neg (by simp [slot])]
      · rw [hchild _ hf, if_pos (by simp [slot])]

/-! ## Rotation -/

theorem Focused.rotate_nodup (h : Focused nodes t (.join d c A x (.join d c' B y C)) path) :
    (x :: y :: (A.toList ++ B.toList ++ C.toList ++ values path)).Nodup := by
  refine List.Perm.nodup_iff ?_ |>.mp h.nodup
  refine ((ColorTree.toList_join_perm _ _ _ _ _).append_right _).trans (List.Perm.cons x ?_)
  apply (((ColorTree.toList_join_perm _ _ _ _ _).append_left _).append_right _).trans
  simp only [List.append_assoc, List.cons_append]
  exact List.perm_middle

/-- The distinct addresses around a rotation of `x` with its child `y`. -/
structure RotateRoom (x y : Ptr) (A B C : ColorTree Ptr) (path : Path Ptr) : Prop where
  ne : x ≠ y
  nodup_inner : B.toList.Nodup
  nodup_path : (values path).Nodup
  node : x ∉ A.toList ++ B.toList ++ C.toList
  child : y ∉ A.toList ++ B.toList ++ C.toList
  node_path : x ∉ values path
  child_path : y ∉ values path
  inner_outer : ∀ z ∈ A.toList ++ C.toList, z ∉ B.toList
  subtrees_path : ∀ z ∈ A.toList ++ B.toList ++ C.toList, z ∉ values path

theorem Focused.rotateRoom (h : Focused nodes t (.join d c A x (.join d c' B y C)) path) :
    RotateRoom x y A B C path := by
  have hnodup := h.rotate_nodup
  simp only [List.nodup_cons, List.nodup_append, List.mem_cons, List.mem_append, not_or] at hnodup
  obtain ⟨⟨hxy, hx, hxV⟩, ⟨hy, hyV⟩, ⟨⟨-, hB, hAB⟩, -, hABC⟩, hV, hABCV⟩ := hnodup
  refine ⟨hxy, hB, hV, by simpa [and_assoc] using hx, by simpa [and_assoc] using hy, hxV, hyV,
    fun z hz hzB => ?_, fun z hz hzV => hABCV z (by simpa [or_assoc] using hz) z hzV rfl⟩
  rcases List.mem_append.mp hz with hz | hz
  · exact hAB z hz z hzB rfl
  · exact hABC z (.inr hzB) z hz rfl

theorem eq_sentinel_of_not_mem {s z : Ptr} (hz : z = ptr s B) (hB : z ∉ B.toList) :
    ptr s B = s := by
  by_contra hne
  exact hB (hz ▸ ptr_mem_of_ne hne)

/-- The memory after a rotation of `x` with its child `y`, whose inner subtree is at `b`. -/
structure Rotated (d : Side) (x y b : Ptr) (path : Path Ptr) (t t' : NcRbtree) : Prop where
  same : SameFields t t'
  color : ∀ z, t'.color z = t.color z
  child : ∀ z e, t'.child e z =
    if z = y ∧ e = d then x
    else if slot path = some (z, e) then y
    else if z = x ∧ e = d.other then b else t.child e z
  parent : ∀ z, t'.parent z =
    if z = x then y
    else if z = y then t.parent x
    else if z = b ∧ b ≠ t.sentinel then x else t.parent z
  root : t'.root = if path = [] then y else t.root

theorem redirect_spec (path : Path Ptr) {u : NcRbtree} {e : Side} (hx : u.IsNode nodes x)
    (hroot : x = u.root ↔ path = [])
    (hpath : ∀ f ∈ path.head?, u.IsNode nodes f.value ∧ u.parent x = f.value ∧
      u.child f.side f.value = x ∧ u.child f.side.other f.value ≠ x) :
    ∃ u', (if x = u.root then some (u.putRoot y) else relinkIn nodes e u x y) = some u' ∧
      SameFields u u' ∧ (∀ z, u'.color z = u.color z) ∧
      (∀ z e, u'.child e z = if slot path = some (z, e) then y else u.child e z) ∧
      (∀ z, u'.parent z = u.parent z) ∧ u'.root = if path = [] then y else u.root := by
  cases path with
  | nil =>
      rw [if_pos (hroot.mpr rfl)]
      exact ⟨_, rfl, .putRoot y, by simp, by simp [slot], by simp, by simp⟩
  | cons f path =>
      obtain ⟨hf, hp, hc, ho⟩ := hpath f rfl
      have hne : x ≠ u.root := by simp [hroot]
      rw [if_neg hne, relink_of_links hx hf hne hp hc ho]
      refine ⟨_, rfl, .putChild _ _ _, by simp, fun z e => ?_, by simp, by simp⟩
      by_cases hz : z = f.value ∧ e = f.side
      · simp [slot, hz]
      · have : ¬ (f.value = z ∧ f.side = e) := fun h => hz ⟨h.1.symm, h.2.symm⟩
        simp [slot, hz, this]

theorem adopt_spec (u : NcRbtree) {b : Ptr} (hb : u.IsTarget nodes b) (y : Ptr) :
    ∃ u', (if b ≠ u.sentinel then u.setParentIn nodes b y else some u) = some u' ∧ SameFields u u' ∧
      (∀ z, u'.color z = u.color z) ∧ (∀ z e, u'.child e z = u.child e z) ∧
      (∀ z, u'.parent z = if z = b ∧ b ≠ u.sentinel then y else u.parent z) ∧
      u'.root = u.root := by
  by_cases hbs : b = u.sentinel
  · exact ⟨u, if_neg (not_not.mpr hbs), .refl u, by simp, by simp, by simp [hbs], rfl⟩
  · rw [if_pos hbs, setParentIn_of hb]
    exact ⟨_, rfl, .putParent _ _, by simp, by simp, by simp [hbs], by simp⟩

theorem rotate_run (h : Focused nodes t (.join d c A x (.join d c' B y C)) path) :
    ∃ t', rotateIn nodes d t x = some t' ∧ Rotated d x y (ptr t.sentinel B) path t t' := by
  obtain ⟨-, hA, hy, hpx, -, hlY⟩ := linked_join.mp h.focus
  obtain ⟨-, hB, -, -, hlB, -⟩ := linked_join.mp hlY
  rw [ptr_join] at hy
  have hnodup := h.rotate_nodup
  have hxy : x ≠ y := fun hxy => (List.nodup_cons.mp hnodup).1 (by simp [hxy])
  have hx : t.IsNode nodes x := h.isNode_join
  have hfocY : Focused nodes t (.join d c' B y C) (⟨d.other, c, x, A⟩ :: path) :=
    (focused_fill (f := ⟨d, c, x, _⟩) (T := A)).mp h |>.toSibling
  have hy0 : t.IsNode nodes y := hfocY.isNode_join
  have hfocB : Focused nodes t B (⟨d, c', y, C⟩ :: _ :: path) := focused_fill.mp hfocY
  have hb0 := hfocB.isTarget
  have hbx : ptr t.sentinel B ≠ x := hfocB.ptr_ne_of_mem (by simp [values])
  have hby : ptr t.sentinel B ≠ y := hfocB.ptr_ne_of_mem (by simp [values])
  have hpath : ∀ f ∈ path.head?, t.IsNode nodes f.value ∧ f.value ≠ x ∧ t.parent x = f.value ∧
      t.child f.side f.value = x ∧ t.child f.side.other f.value ≠ x := by
    intro f hf
    obtain ⟨rest, rfl⟩ : ∃ rest, path = f :: rest := ⟨_, (List.cons_head?_tail hf).symm⟩
    obtain ⟨-, hq, ho, -, -, -⟩ := h.frames
    have hsib := h.toSibling.ptr_ne_of_mem (x := x) (by
      simp [values, (ColorTree.toList_join_perm _ _ _ _ _).mem_iff])
    refine ⟨h.isNode_value, ?_, hpx _ rfl, by rwa [ptr_join] at hq, by rwa [ho]⟩
    rintro rfl
    exact (List.nodup_cons.mp hnodup).1 (by simp [values])
  generalize ptr t.sentinel B = b at *
  -- the inner subtree changes its place before the link from above is redirected
  obtain ⟨u, hu, husame, hucolor, huchild, huparent, huroot⟩ :=
    adopt_spec (t.putChild d.other x b) ((isTarget_putChild _ _ _ _).mpr hb0) x
  simp only [color_putChild, child_putChild, parent_putChild, sentinel_putChild, root_putChild]
    at hu hucolor huchild huparent huroot
  have hux : u.parent x = t.parent x := by simp [huparent, hbx.symm]
  have hus : u.sentinel = t.sentinel := by simpa using husame.sentinel
  obtain ⟨v, hv, hvsame, hvcolor, hvchild, hvparent, hvroot⟩ :=
    redirect_spec path (u := u.putParent y (u.parent x)) (y := y) (e := d) (hx.congr hus)
      (by simpa [huroot] using h.ptr_eq_root_iff) (fun f hf => by
        obtain ⟨hf0, hfx, hp, hc, ho⟩ := hpath f hf
        refine ⟨hf0.congr hus, ?_, ?_, ?_⟩
        · simp [hxy, hux, hp]
        · simp [huchild, hfx, hc]
        · simpa [huchild, hfx] using ho)
  refine ⟨(v.putChild d y x).putParent x y, ?_, ?_⟩
  · have hvs : v.sentinel = t.sentinel := hvsame.sentinel.trans hus
    have hy₁ : (t.putChild d.other x b).IsNode nodes y := (isNode_putChild _ _ _ _).mpr hy0
    have hx' : (v.putChild d y x).IsNode nodes x := (isNode_putChild _ _ _ _).mpr (hx.congr hvs)
    simp only [rotateIn, getChildIn_of hx, getChildIn_of hy0, hy, hB, setChildIn_of hx,
      getChildIn_of hy₁, Option.bind_eq_bind, Option.bind_some]
    rw [show (t.putChild d.other x b).child d y = b by simp [hxy.symm, hB], sentinel_putChild, hu,
      Option.bind_some, getParentIn_of (hx.congr hus), Option.bind_some,
      setParentIn_of (hy0.congr hus).target, Option.bind_some, hv, Option.bind_some,
      setChildIn_of (hy0.congr hvs), Option.bind_some, setParentIn_of hx'.target]
  · refine ⟨?_, ?_, ?_, ?_, ?_⟩
    · exact (SameFields.putChild _ _ _).trans (husame.trans ((SameFields.putParent _ _).trans
        (hvsame.trans ((SameFields.putChild _ _ _).trans (.putParent _ _)))))
    · simp [hvcolor, hucolor]
    · intro z e
      simp [hvchild, huchild]
    · intro z
      rw [parent_putParent, parent_putChild, hvparent, parent_putParent, hux, huparent]
    · simp [hvroot, huroot]

namespace Rotated

variable {b : Ptr}

theorem sameOn {xs : List Ptr} (h : Rotated d x y b path t t')
    (hxs : ∀ z ∈ xs, z ≠ x ∧ z ≠ y ∧ (z = b → b = t.sentinel) ∧ ∀ e, slot path ≠ some (z, e)) :
    SameOn t t' xs := by
  refine ⟨fun z _ => h.color z, fun z hz e => ?_, fun z hz => ?_⟩
  · obtain ⟨hzx, hzy, -, hslot⟩ := hxs z hz
    rw [h.child, if_neg (fun hc => hzy hc.1), if_neg (hslot e), if_neg (fun hc => hzx hc.1)]
  · obtain ⟨hzx, hzy, hzb, -⟩ := hxs z hz
    rw [h.parent, if_neg hzx, if_neg hzy, if_neg]
    rintro ⟨hb, hne⟩
    exact hne (hzb hb)

theorem sameOn_outer (h : Rotated d x y (ptr t.sentinel B) path t t')
    (hroom : RotateRoom x y A B C path) : SameOn t t' (A.toList ++ C.toList) := by
  have hall : ∀ z ∈ A.toList ++ C.toList, z ∈ A.toList ++ B.toList ++ C.toList := fun z hz => by
    simp only [List.mem_append] at hz ⊢
    exact hz.imp_left .inl
  exact h.sameOn fun z hz => ⟨ne_of_mem_of_not_mem (hall z hz) hroom.node,
    ne_of_mem_of_not_mem (hall z hz) hroom.child,
    fun hzb => eq_sentinel_of_not_mem hzb (hroom.inner_outer z hz),
    slot_ne_of_not_mem (hroom.subtrees_path z (hall z hz))⟩

theorem inner (h : Rotated d x y (ptr t.sentinel B) path t t')
    (hroom : RotateRoom x y A B C path) (hB : Linked t (some y) B)
    (hsentinel : t.sentinel ∉ B.toList) : Linked t' (some x) B := by
  have hne : ∀ z ∈ B.toList, z ≠ x ∧ z ≠ y ∧ ∀ e, slot path ≠ some (z, e) := fun z hz => by
    have hall : z ∈ A.toList ++ B.toList ++ C.toList := by simp [hz]
    exact ⟨ne_of_mem_of_not_mem hall hroom.node, ne_of_mem_of_not_mem hall hroom.child,
      slot_ne_of_not_mem (hroom.subtrees_path z hall)⟩
  refine hB.reparent h.same.sentinel hroom.nodup_inner (fun z _ => h.color z) (fun z hz e => ?_)
    (fun z hz hroot => ?_) fun hB0 p hp => ?_
  · obtain ⟨hzx, hzy, hslot⟩ := hne z hz
    rw [h.child, if_neg (fun hc => hzy hc.1), if_neg (hslot e), if_neg (fun hc => hzx hc.1)]
  · obtain ⟨hzx, hzy, -⟩ := hne z hz
    rw [h.parent, if_neg hzx, if_neg hzy, if_neg (fun hc => hroot hc.1)]
  · have hmem := ptr_mem hB0 t.sentinel
    obtain ⟨hbx, hby, -⟩ := hne _ hmem
    rw [h.parent, if_neg hbx, if_neg hby, if_pos ⟨rfl, fun hs => hsentinel (hs ▸ hmem)⟩]
    exact Option.some.inj hp

theorem linked (h : Rotated d x y (ptr t.sentinel B) path t t')
    (hroom : RotateRoom x y A B C path) (hsentinel : t.sentinel ∉ B.toList)
    (hlinked : Linked t (above none path) (.join d c A x (.join d c' B y C))) :
    Linked t' (above none path) (.join d c' (.join d c A x B) y C) := by
  obtain ⟨hcx, hchA, -, hpx, hlA, hlY⟩ := linked_join.mp hlinked
  obtain ⟨hcy, -, hchC, -, hlB, hlC⟩ := linked_join.mp hlY
  have hs := h.same.sentinel
  have hsame := h.sameOn_outer hroom
  have hA : Linked t' (some x) A :=
    hlA.congr hs (hsame.mono fun z hz => List.mem_append_left _ hz)
  have hC : Linked t' (some y) C :=
    hlC.congr hs (hsame.mono fun z hz => List.mem_append_right _ hz)
  refine linked_join.mpr ⟨(h.color y).trans hcy, ?_, ?_, ?_, linked_join.mpr
    ⟨(h.color x).trans hcx, ?_, ?_, ?_, hA, h.inner hroom hlB hsentinel⟩, hC⟩
  · rw [h.child, if_pos ⟨rfl, rfl⟩, ptr_join]
  · rw [h.child, if_neg (by simp), if_neg (slot_ne_of_not_mem hroom.child_path _),
      if_neg (fun hc => hroom.ne hc.1.symm), hchC, hs]
  · intro p hp
    rw [h.parent, if_neg hroom.ne.symm, if_pos rfl, hpx p hp]
  · rw [h.child, if_neg (fun hc => hroom.ne hc.1), if_neg (slot_ne_of_not_mem hroom.node_path _),
      if_neg (by simp), hchA, hs]
  · rw [h.child, if_neg (fun hc => hroom.ne hc.1), if_neg (slot_ne_of_not_mem hroom.node_path _),
      if_pos ⟨rfl, rfl⟩, hs]
  · intro p hp
    rw [h.parent, if_pos rfl]
    exact Option.some.inj hp

theorem frames (h : Rotated d x y b path t t') (hframes : LinkedPath t none x path)
    (hb : b ∈ values path → b = t.sentinel) (hx : x ∉ values path) (hy : y ∉ values path)
    (hnodup : (values path).Nodup) : LinkedPath t' none y path := by
  refine hframes.redirect h.same.sentinel hnodup (fun z _ => h.color z) (fun z hz e => ?_)
    fun z hz => ?_
  · simp only [h.child, ne_of_mem_of_not_mem hz hy, ne_of_mem_of_not_mem hz hx, false_and,
      if_false]
  · rw [h.parent, if_neg (ne_of_mem_of_not_mem hz hx), if_neg (ne_of_mem_of_not_mem hz hy),
      if_neg]
    rintro ⟨hzb, hne⟩
    exact hne (hb (hzb ▸ hz))

theorem frame (h : Rotated d x y b path t t') (hx : x ∈ nodes) (hy : y ∈ nodes)
    (hb : b ∈ nodes ∨ b = t.sentinel) (hpath : ∀ z ∈ values path, z ∈ nodes) :
    Framed nodes t t' := by
  refine .of_reads h.same (fun z _ _ => h.color z) (fun z hz hzs e => ?_) fun z hz hzs => ?_
  · have hzx : z ≠ x := fun hc => hz (hc ▸ hx)
    have hzy : z ≠ y := fun hc => hz (hc ▸ hy)
    rw [h.child, if_neg (fun hc => hzy hc.1),
      if_neg (slot_ne_of_not_mem (fun hm => hz (hpath z hm)) e), if_neg (fun hc => hzx hc.1)]
  · have hzx : z ≠ x := fun hc => hz (hc ▸ hx)
    have hzy : z ≠ y := fun hc => hz (hc ▸ hy)
    rw [h.parent, if_neg hzx, if_neg hzy, if_neg]
    rintro ⟨rfl, -⟩
    exact hb.elim hz hzs

theorem root_parent (h : Rotated d x y b path t t') (hxy : x ≠ y) (hroot : path = [] → t.root = x)
    (hpath : path ≠ [] → t.root ≠ x ∧ t.root ≠ y ∧ (t.root = b → b = t.sentinel)) :
    t'.parent t'.root = t.parent t.root := by
  rw [h.root, h.parent]
  by_cases hnil : path = []
  · rw [if_pos hnil, if_neg hxy.symm, if_pos rfl, hroot hnil]
  · obtain ⟨hx, hy, hb⟩ := hpath hnil
    rw [if_neg hnil, if_neg hx, if_neg hy, if_neg]
    rintro ⟨hrb, hne⟩
    exact hne (hb hrb)

theorem focused (hrot : Rotated d x y (ptr t.sentinel B) path t t')
    (h : Focused nodes t (.join d c A x (.join d c' B y C)) path) :
    Focused nodes t' (.join d c' (.join d c A x B) y C) path := by
  have hroom := h.rotateRoom
  have hlist : (ColorTree.join d c' (.join d c A x B) y C).toList =
      (ColorTree.join d c A x (.join d c' B y C)).toList :=
    ColorTree.toList_rotate _ _ _ _ _ _ _ _ _ _
  have hsB : t.sentinel ∉ B.toList := fun hm => h.sentinel_not_mem (List.mem_append_left _ (by
    simp [(ColorTree.toList_join_perm _ _ _ _ _).mem_iff, hm]))
  have hs := hrot.same.sentinel
  have hnotB : ∀ z ∈ values path, z = ptr t.sentinel B → ptr t.sentinel B = t.sentinel :=
    fun z hz hzb => eq_sentinel_of_not_mem hzb fun hzB =>
      hroom.subtrees_path z (by simp [hzB]) hz
  have hframes := h.frames
  rw [ptr_join] at hframes
  refine ⟨hrot.linked hroom hsB h.focus, ?_, ?_, ?_, ?_, ?_, ?_, ?_, ?_⟩
  · rw [ptr_join]
    exact hrot.frames hframes (fun hbV => hnotB _ hbV rfl) hroom.node_path hroom.child_path
      hroom.nodup_path
  · rw [hrot.root, hs]
    cases path with
    | nil => simp
    | cons f path =>
        rw [if_neg (by simp), h.root]
        exact ptr_plug_congr _ _ _ (by simp)
  · rw [hlist]; exact h.nodup
  · rw [hlist, hs]; exact h.sentinel_not_mem
  · rw [hlist]; exact h.null_not_mem
  · rw [hs]; exact h.sentinel_ne_null
  · rw [hs, hrot.color]; exact h.sentinel_black
  · rw [hlist]; exact h.mem

theorem kept (hrot : Rotated d x y (ptr t.sentinel B) path t t')
    (h : Focused nodes t (.join d c A x (.join d c' B y C)) path) : Kept nodes t t' := by
  have hroom := h.rotateRoom
  have hlist : ∀ z, z ∈ x :: y :: B.toList →
      z ∈ (ColorTree.join d c A x (.join d c' B y C)).toList ++ values path := fun z hz => by
    simp only [List.mem_cons] at hz
    rw [List.mem_append, (ColorTree.toList_join_perm _ _ _ _ _).mem_iff, List.mem_cons,
      List.mem_append, (ColorTree.toList_join_perm _ _ _ _ _).mem_iff, List.mem_cons,
      List.mem_append]
    tauto
  have hsent : ∀ z ∈ x :: y :: B.toList, t.sentinel ≠ z := fun z hz hc =>
    h.sentinel_not_mem (hc ▸ hlist z hz)
  refine ⟨hrot.same, ?_, ?_, ?_⟩
  · rw [hrot.parent, if_neg (hsent x (by simp)), if_neg (hsent y (by simp)), if_neg]
    rintro ⟨hb, hne⟩
    exact hne hb.symm
  · refine hrot.root_parent hroom.ne (fun hnil => ?_) fun hne => ?_
    · rw [h.root, hnil, plug_nil, ptr_join]
    · have hmem : t.root ∈ values path := h.root ▸ ptr_plug_mem _ _ hne
      exact ⟨ne_of_mem_of_not_mem hmem hroom.node_path,
        ne_of_mem_of_not_mem hmem hroom.child_path, fun hzb => eq_sentinel_of_not_mem hzb
          fun hzB => hroom.subtrees_path _ (by simp [hzB]) hmem⟩
  · refine hrot.frame (h.mem x (hlist x (by simp))) (h.mem y (hlist y (by simp))) ?_
      fun z hz => h.mem z (List.mem_append_right _ hz)
    by_cases hnil : B = .nil
    · exact .inr (by rw [hnil, ptr_nil])
    · exact .inl (h.mem _ (hlist _ (by simp [ptr_mem hnil])))

end Rotated

/-- A rotation moves the focused subtree into its rotated shape. -/
theorem rotate_spec (h : Focused nodes t (.join d c A x (.join d c' B y C)) path) :
    ∃ t', rotateIn nodes d t x = some t' ∧
      Focused nodes t' (.join d c' (.join d c A x B) y C) path ∧ Kept nodes t t' := by
  obtain ⟨t', hrun, hrot⟩ := rotate_run h
  exact ⟨t', hrun, hrot.focused h, hrot.kept h⟩

end Libnc.Rbtree
