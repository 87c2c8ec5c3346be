import Libnc.Rbtree.Repair

/-!
# Deletion

A node with at most one child is cut out; a node with two children gives its
place to its successor, which is cut out first.
-/

namespace Libnc.Rbtree

open Libnc.Foundation Path NcRbtree

variable {t t' : NcRbtree} {nodes : List Ptr} {T u l r R : ColorTree Ptr} {path q : Path Ptr}
variable {f : Frame Ptr}
variable {d : Side} {c : Color} {x y p : Ptr} {up : Option Ptr} {n fuel : Nat}

/-! ## Choosing the node to cut out -/

theorem rbtreeNodeMin_spec (h : Focused nodes t (.node c l x r) path) (hfuel : l.height < fuel) :
    rbtreeNodeMinIn nodes t fuel x = some (leftmost c l x r q).2.1 := by
  obtain ⟨fuel, rfl⟩ := Nat.exists_eq_succ_of_ne_zero (Nat.ne_zero_of_lt hfuel)
  induction l generalizing c x r path q fuel with
  | nil =>
      have hleft := (Focused.getChild (d := .left) h).1
      simp [rbtreeNodeMinIn, hleft, leftmost]
  | node c' l' x' r' ih _ =>
      simp only [ColorTree.height] at hfuel
      have hleft := (Focused.getChild (d := .left) h).1
      have hl : Focused nodes t (.node c' l' x' r') (⟨.left, c, x, r⟩ :: path) := focused_fill.mp h
      have hne : x' ≠ t.sentinel := mt hl.ptr_eq_sentinel_iff.mp (by simp)
      obtain ⟨fuel, rfl⟩ : ∃ k, fuel = k + 1 := ⟨fuel - 1, by omega⟩
      rw [rbtreeNodeMinIn]
      simp only [hleft, ptr, Option.bind_eq_bind, Option.bind_some, if_neg hne]
      exact ih hl fuel (by omega)

/-! ## Cutting out a node with at most one child -/

/-- What is left alone until the node `x` is cleared. -/
structure Spliced (nodes : List Ptr) (x : Ptr) (t t' : NcRbtree) : Prop where
  same : SameFields t t'
  frame : Framed nodes t t'
  color : t'.color x = t.color x
  root_parent : t'.parent t'.root = t.parent t.root

theorem Spliced.trans {t'' : NcRbtree} (h : Spliced nodes x t t') (h' : Spliced nodes x t' t'') :
    Spliced nodes x t t'' :=
  ⟨h.same.trans h'.same, h.frame.trans h'.frame h.same.sentinel, h'.color.trans h.color,
    h'.root_parent.trans h.root_parent⟩

theorem cut_perm (d : Side) (c : Color) (y : Ptr) (u : ColorTree Ptr) (path : Path Ptr) :
    ((ColorTree.join d c .nil y u).toList ++ values path).Perm (y :: (u.toList ++ values path)) :=
  (ColorTree.toList_join_perm d c .nil u y).append_right _

theorem cut_spec (h : Focused nodes t (.join d c .nil y u) (f :: path)) (e : Side) :
    relinkIn nodes e t y (ptr t.sentinel u) = some (t.putChild f.side f.value (ptr t.sentinel u)) ∧
      Placed nodes (t.putChild f.side f.value (ptr t.sentinel u)) none u (f :: path) ∧
      Spliced nodes x t (t.putChild f.side f.value (ptr t.sentinel u)) := by
  have hperm := cut_perm d c y u (f :: path)
  have hnodup := hperm.nodup_iff.mp h.nodup
  have hsub : ∀ z ∈ u.toList ++ values (f :: path), z ∈ _ := fun z hz =>
    hperm.mem_iff.mpr (List.mem_cons_of_mem y hz)
  obtain ⟨hfu, hfv⟩ := value_not_mem (List.nodup_cons.mp hnodup).2
  have hsame : ∀ xs, f.value ∉ xs → SameOn t (t.putChild f.side f.value (ptr t.sentinel u)) xs :=
    fun xs hxs => by
      refine ⟨by simp, fun z hz e => ?_, by simp⟩
      simp [ne_of_mem_of_not_mem hz hxs]
  refine ⟨?_, ?_, .putChild _ _ _, .putChild h.isNode_value.1 _ _, by simp, by simp⟩
  · have hroot := h.ptr_ne_root
    have hparent := h.focus.parent_ptr (by simp) rfl
    have hchild := h.frames.2.1
    have hother := h.ptr_ne_sibling (.inl (by simp))
    rw [ptr_join] at hroot hparent hchild hother
    exact relink_of_links h.isNode_join h.isNode_value hroot hparent hchild
      (by rw [h.frames.2.2.1]; exact hother.symm)
  · refine ⟨?_, ?_, ?_, ?_, ?_, ?_, ?_, ?_, fun z hz => h.mem z (hsub z hz)⟩
    · have hu : Linked t (some y) u := (linked_join.mp h.focus).2.2.2.2.2
      exact (hu.congr (by simp) (hsame _ hfu)).weaken (by simp)
    · exact h.frames.relink (by simp) (hsame _ hfv) (by simp) (by simp) (by simp) (by simp)
    · rw [root_putChild, sentinel_putChild, h.root]
      exact ptr_plug_congr _ _ _ (by simp)
    · exact (List.nodup_cons.mp hnodup).2
    · simpa using fun hs => h.sentinel_not_mem (hsub _ hs)
    · simpa using fun hs => h.null_not_mem (hsub _ hs)
    · simpa using h.sentinel_ne_null
    · simpa using h.sentinel_black

theorem Placed.setParent (h : Placed nodes t none u (f :: path)) (v : Ptr) :
    ∃ t', t.setParentIn nodes (ptr t.sentinel u) v = some t' ∧
      Placed nodes t' (some v) u (f :: path) ∧ t'.parent (ptr t.sentinel u) = v ∧
      Spliced nodes x t t' := by
  have hroot : t.root ≠ ptr t.sentinel u := h.ptr_ne_root.symm
  refine ⟨_, setParentIn_of h.isTarget v, ?_, by simp, .putParent _ _, .putParent h.isTarget _,
    by simp, by simp [hroot]⟩
  have hv : ∀ z ∈ values (f :: path), z ≠ ptr t.sentinel u :=
    fun z hz => (h.ptr_ne_of_mem hz).symm
  refine ⟨?_, ?_, h.root, h.nodup, h.sentinel_not_mem, h.null_not_mem, h.sentinel_ne_null,
    by simpa using h.sentinel_black, h.mem⟩
  · refine h.focus.reparent (by simp) (List.nodup_append.mp h.nodup).1 (by simp) (by simp) ?_ ?_
    · intro z _ hz
      simp [hz]
    · simp
  · refine h.frames.congr (by simp) ⟨by simp, by simp, fun z hz => ?_⟩
    simp [hv z hz]

/-! ## The successor takes the place of the node -/

/-- The distinct addresses when `y` takes the place of `x` above `l` and `R`. -/
structure TakeRoom (x y : Ptr) (l R : ColorTree Ptr) (path : Path Ptr) : Prop where
  nodup_left : l.toList.Nodup
  nodup_right : R.toList.Nodup
  nodup_path : (values path).Nodup
  left_path : ∀ z ∈ l.toList, z ∉ values path
  right_left : ∀ z ∈ R.toList, z ∉ l.toList
  right_path : ∀ z ∈ R.toList, z ∉ values path
  left : y ∉ l.toList
  right : y ∉ R.toList
  path : y ∉ values path
  ne : y ≠ x

theorem takeRoom (hnodup : (R.toList ++ values (⟨.right, c, x, l⟩ :: path)).Nodup)
    (hy : y ∉ R.toList ++ values (⟨.right, c, x, l⟩ :: path)) : TakeRoom x y l R path := by
  simp only [values_cons, List.nodup_append, List.nodup_cons, List.mem_append, List.mem_cons,
    not_or] at hnodup hy
  obtain ⟨hnR, ⟨-, hnl, hnV, hlV⟩, hRx⟩ := hnodup
  obtain ⟨hyR, hyx, hyl, hyV⟩ := hy
  exact ⟨hnl, hnR, hnV, fun z hz hzV => hlV z hz z hzV rfl,
    fun z hz hzl => hRx z hz z (.inr (.inl hzl)) rfl,
    fun z hz hzV => hRx z hz z (.inr (.inr hzV)) rfl, hyl, hyR, hyV, hyx⟩

theorem TakeRoom.nodup (h : TakeRoom x y l R path) :
    (R.toList ++ values (⟨.right, c, y, l⟩ :: path)).Nodup := by
  simp only [values_cons, List.nodup_append, List.nodup_cons, List.mem_append, List.mem_cons,
    not_or]
  refine ⟨h.nodup_right, ⟨⟨h.left, h.path⟩, h.nodup_left, h.nodup_path, fun z hz w hw => ?_⟩,
    fun z hz w hw => ?_⟩
  · exact ne_of_mem_of_not_mem hz fun hzl => h.left_path _ hzl hw
  · rcases hw with rfl | hw | hw
    · exact ne_of_mem_of_not_mem hz h.right
    · exact (ne_of_mem_of_not_mem hw (h.right_left z hz)).symm
    · exact (ne_of_mem_of_not_mem hw (h.right_path z hz)).symm

/-- The memory after `y` has got the links of `x` between `l` and `R`. -/
structure Taken (x y l R : Ptr) (path : Path Ptr) (t t' : NcRbtree) : Prop where
  same : SameFields t t'
  color : ∀ z, t'.color z = if z = y then t.color x else t.color z
  child : ∀ z e, t'.child e z =
    if slot path = some (z, e) then y
    else if z = y then (if e = .right then R else l) else t.child e z
  parent : ∀ z, t'.parent z =
    if z = R ∧ R ≠ t.sentinel then y
    else if z = l ∧ l ≠ t.sentinel then y
    else if z = y then t.parent x else t.parent z
  root : t'.root = if path = [] then y else t.root

theorem Placed.value_eq_root_iff (h : Placed nodes t up T (f :: path)) :
    f.value = t.root ↔ path = [] := by
  rw [h.root]
  cases path with
  | nil => simp [Frame.fill]
  | cons g path =>
      have hmem := ptr_plug_mem t.sentinel (f.fill T) (show g :: path ≠ [] by simp)
      have hnot := (value_not_mem h.nodup).2
      simpa using fun heq : f.value = _ => hnot (List.mem_append_right _ (heq ▸ hmem))

/-- The links between the node above a hole and the node above that one. -/
theorem Placed.link_above {g : Frame Ptr} (h : Placed nodes t up T (f :: g :: path)) :
    t.IsNode nodes g.value ∧ t.parent f.value = g.value ∧ t.child g.side g.value = f.value ∧
      t.child g.side.other g.value ≠ f.value := by
  obtain ⟨-, -, -, -, hpf, -, hq, ho, -⟩ := h.frames
  refine ⟨h.isNode (by simp [values_cons]), hpf _ rfl, hq, ?_⟩
  rw [ho]
  intro heq
  by_cases hsib : g.sibling = .nil
  · rw [hsib, ptr_nil] at heq
    exact h.sentinel_not_mem (by simp [values_cons, heq])
  · exact (value_not_mem h.nodup).2 (by simp [values_cons, ← heq, ptr_mem hsib])

theorem takeLinks_run (h : Placed nodes t none R (⟨.right, c, x, l⟩ :: path))
    (hy : y ∉ R.toList ++ values (⟨.right, c, x, l⟩ :: path)) (hy0 : t.IsNode nodes y) :
    ∃ t', takeLinksIn nodes t x y = some t' ∧
      Taken x y (ptr t.sentinel l) (ptr t.sentinel R) path t t' := by
  obtain ⟨-, hR, hl, -, -, -⟩ := h.frames
  simp only [Side.other] at hR hl
  have hx : t.IsNode nodes x := h.isNode_value
  have hR0 := h.isTarget
  have hl0 : t.IsTarget nodes (ptr t.sentinel l) := by
    by_cases hne : l = .nil
    · rw [hne]
      exact ⟨.inr rfl, h.sentinel_ne_null⟩
    · exact (h.isNode (by simp [values_cons, ptr_mem hne])).target
  have hxy : x ≠ y := by
    rintro rfl
    exact hy (by simp [values_cons])
  have hyV : y ∉ values path := fun hm => hy (by simp [values_cons, hm])
  have hroot : x = t.root ↔ path = [] := h.value_eq_root_iff
  have hpath : ∀ f ∈ path.head?, t.IsNode nodes f.value ∧ f.value ≠ y ∧ t.parent x = f.value ∧
      t.child f.side f.value = x ∧ t.child f.side.other f.value ≠ x := fun f hf => by
    obtain ⟨rest, rfl⟩ : ∃ rest, path = f :: rest := ⟨_, (List.cons_head?_tail hf).symm⟩
    obtain ⟨hf0, hp, hc, ho⟩ := h.link_above
    refine ⟨hf0, ?_, hp, hc, ho⟩
    rintro rfl
    exact hyV (by simp [values_cons])
  have hslot : ∀ e, slot path ≠ some (y, e) := slot_ne_of_not_mem hyV
  generalize ptr t.sentinel R = b at *
  generalize ptr t.sentinel l = a at *
  obtain ⟨v, hv, hvsame, hvcolor, hvchild, hvparent, hvroot⟩ := redirect_spec path
    (u := (((t.putChild .left y a).putChild .right y b).putParent y (t.parent x)).putColor y
      (t.color x)) (y := y) (e := .left) (by simpa using hx) (by simpa using hroot)
      (fun f hf => by
        obtain ⟨hf0, hfy, hp, hc, ho⟩ := hpath f hf
        exact ⟨by simpa using hf0, by simp [hxy, hp], by simp [hfy, hc], by simpa [hfy] using ho⟩)
  have hva : v.child .left y = a := by simp [hvchild, hslot]
  have hvb : v.child .right y = b := by simp [hvchild, hslot]
  have hvs : v.sentinel = t.sentinel := by simpa using hvsame.sentinel
  obtain ⟨v₁, hv₁, hs₁, hc₁, hch₁, hp₁, hr₁⟩ := adopt_spec v (hl0.congr hvs) y
  have hv₁s := hs₁.sentinel.trans hvs
  obtain ⟨v₂, hv₂, hs₂, hc₂, hch₂, hp₂, hr₂⟩ := adopt_spec v₁ (hR0.congr hv₁s) y
  refine ⟨v₂, ?_, ?_, ?_, ?_, ?_, ?_⟩
  · have hx₁ : (t.putChild .left y a).IsNode nodes x := by simpa using hx
    have hy₁ : (t.putChild .left y a).IsNode nodes y := by simpa using hy0
    have hx₂ : ((t.putChild .left y a).putChild .right y b).IsNode nodes x := by simpa using hx
    have hy₂ : ((t.putChild .left y a).putChild .right y b).IsNode nodes y := by simpa using hy0
    have hx₃ : (((t.putChild .left y a).putChild .right y b).putParent y
      (t.parent x)).IsNode nodes x := by simpa using hx
    have hy₃ : (((t.putChild .left y a).putChild .right y b).putParent y
      (t.parent x)).IsNode nodes y := by simpa using hy0
    simp only [takeLinksIn, getChildIn_of hx, getChildIn_of hx₁, setChildIn_of hy0,
      setChildIn_of hy₁, getParentIn_of hx₂, setParentIn_of hy₂.target, getColorIn_of hx₃.target,
      setColorIn_of hy₃, getChildIn_of (hy0.congr hvs), getChildIn_of (hy0.congr hv₁s), hl, hR,
      child_putChild, parent_putChild, color_putChild, color_putParent, hxy, false_and, if_false,
      Option.bind_eq_bind, Option.bind_some, hv, hva, hv₁, hch₁, hvb, hv₂]
  · exact (SameFields.putChild _ _ _).trans ((SameFields.putChild _ _ _).trans
      ((SameFields.putParent _ _).trans ((SameFields.putColor _ _).trans
        (hvsame.trans (hs₁.trans hs₂)))))
  · intro z
    simp [hc₂, hc₁, hvcolor]
  · intro z e
    rw [hch₂, hch₁, hvchild]
    cases e <;> simp
  · intro z
    rw [hp₂, hp₁, hvparent, hs₁.sentinel, hvs]
    simp
  · simp [hr₂, hr₁, hvroot]

theorem Taken.adopt {a b : Ptr} (h : Taken x y a b path t t') (hT : Linked t up T)
    (hnodup : T.toList.Nodup) (hy : y ∉ T.toList) (hV : ∀ z ∈ T.toList, z ∉ values path)
    (hab : ∀ z ∈ T.toList, z ≠ ptr t.sentinel T →
      (z = a → a = t.sentinel) ∧ (z = b → b = t.sentinel))
    (hroot : T ≠ .nil → t'.parent (ptr t.sentinel T) = y) : Linked t' (some y) T := by
  refine hT.reparent h.same.sentinel hnodup (fun z hz => ?_) (fun z hz e => ?_)
    (fun z hz hne => ?_) fun hne p hp => ?_
  · rw [h.color, if_neg (ne_of_mem_of_not_mem hz hy)]
  · rw [h.child, if_neg (slot_ne_of_not_mem (hV z hz) e), if_neg (ne_of_mem_of_not_mem hz hy)]
  · obtain ⟨ha, hb⟩ := hab z hz hne
    rw [h.parent, if_neg (fun hc => hc.2 (hb hc.1)), if_neg (fun hc => hc.2 (ha hc.1)),
      if_neg (ne_of_mem_of_not_mem hz hy)]
  · rw [hroot hne]
    exact Option.some.inj hp

theorem Taken.frame {a b : Ptr} (h : Taken x y a b path t t') (hy : y ∈ nodes)
    (hpath : ∀ z ∈ values path, z ∈ nodes) (ha : a ≠ t.sentinel → a ∈ nodes)
    (hb : b ≠ t.sentinel → b ∈ nodes) : Framed nodes t t' := by
  refine .of_reads h.same (fun z hz _ => ?_) (fun z hz _ e => ?_) fun z hz hzs => ?_
  · have hzy : z ≠ y := fun hc => hz (hc ▸ hy)
    rw [h.color, if_neg hzy]
  · have hzy : z ≠ y := fun hc => hz (hc ▸ hy)
    rw [h.child, if_neg (slot_ne_of_not_mem (fun hm => hz (hpath z hm)) e), if_neg hzy]
  · have hzy : z ≠ y := fun hc => hz (hc ▸ hy)
    have hzb : ¬ (z = b ∧ b ≠ t.sentinel) := fun hc => hz (hc.1 ▸ hb hc.2)
    have hza : ¬ (z = a ∧ a ≠ t.sentinel) := fun hc => hz (hc.1 ▸ ha hc.2)
    rw [h.parent, if_neg hzb, if_neg hza, if_neg hzy]

theorem Taken.parent_off {l R : ColorTree Ptr}
    (h : Taken x y (ptr t.sentinel l) (ptr t.sentinel R) path t t') {z : Ptr}
    (hR : z ∉ R.toList) (hl : z ∉ l.toList) :
    t'.parent z = if z = y then t.parent x else t.parent z := by
  rw [h.parent, if_neg (fun hc => hR (by rw [hc.1]; exact ptr_mem_of_ne hc.2)),
    if_neg (fun hc => hl (by rw [hc.1]; exact ptr_mem_of_ne hc.2))]

theorem Taken.root_parent {l R : ColorTree Ptr}
    (h : Taken x y (ptr t.sentinel l) (ptr t.sentinel R) path t t')
    (hroom : TakeRoom x y l R path) (hroot : path = [] → t.root = x)
    (hpath : path ≠ [] → t.root ∈ values path) : t'.parent t'.root = t.parent t.root := by
  rw [h.root]
  by_cases hnil : path = []
  · rw [if_pos hnil, h.parent_off hroom.right hroom.left, if_pos rfl, hroot hnil]
  · have hmem := hpath hnil
    rw [if_neg hnil, h.parent_off (fun hR => hroom.right_path _ hR hmem)
      (fun hl => hroom.left_path _ hl hmem), if_neg (ne_of_mem_of_not_mem hmem hroom.path)]

theorem Taken.linked_right (ht : Taken x y (ptr t.sentinel l) (ptr t.sentinel R) path t t')
    (hroom : TakeRoom x y l R path) (hsent : t.sentinel ∉ R.toList) (h : Linked t up R) :
    Linked t' (some y) R := by
  refine ht.adopt h hroom.nodup_right hroom.right hroom.right_path (fun z hz hne =>
    ⟨fun hza => ?_, fun hzb => absurd hzb hne⟩) fun hne => ?_
  · by_contra hne'
    exact hroom.right_left z hz (hza ▸ ptr_mem_of_ne hne')
  · have hne' : ptr t.sentinel R ≠ t.sentinel := fun heq => hsent (heq ▸ ptr_mem hne _)
    rw [ht.parent, if_pos ⟨rfl, hne'⟩]

theorem Taken.linked_left (ht : Taken x y (ptr t.sentinel l) (ptr t.sentinel R) path t t')
    (hroom : TakeRoom x y l R path) (hsent : t.sentinel ∉ l.toList) (h : Linked t up l) :
    Linked t' (some y) l := by
  refine ht.adopt h hroom.nodup_left hroom.left hroom.left_path (fun z hz hne =>
    ⟨fun hza => absurd hza hne, fun hzb => ?_⟩) fun hne => ?_
  · by_contra hne'
    exact hroom.right_left z (hzb ▸ ptr_mem_of_ne hne') hz
  · have hne' : ptr t.sentinel l ≠ t.sentinel := fun heq => hsent (heq ▸ ptr_mem hne _)
    rw [ht.parent]
    split
    · rfl
    · exact if_pos ⟨rfl, hne'⟩

theorem Taken.linkedPath (ht : Taken x y (ptr t.sentinel l) (ptr t.sentinel R) path t t')
    (hroom : TakeRoom x y l R path) (hsent : t.sentinel ∉ l.toList)
    (h : LinkedPath t none (ptr t.sentinel R) (⟨.right, c, x, l⟩ :: path)) :
    LinkedPath t' none (ptr t'.sentinel R) (⟨.right, c, y, l⟩ :: path) := by
  obtain ⟨hcx, -, -, hlinked, hpx, hrest⟩ := h
  have hs := ht.same.sentinel
  refine ⟨?_, ?_, ?_, ht.linked_left hroom hsent hlinked, fun p hp => ?_, ?_⟩
  · rw [ht.color, if_pos rfl]
    exact hcx
  · rw [ht.child, if_neg (slot_ne_of_not_mem hroom.path _), if_pos rfl, if_pos rfl, hs]
  · rw [ht.child, if_neg (slot_ne_of_not_mem hroom.path _), if_pos rfl,
      if_neg (by simp [Side.other]), hs]
  · rw [ht.parent_off hroom.right hroom.left, if_pos rfl, hpx p hp]
  · refine hrest.redirect hs hroom.nodup_path (fun z hz => ?_) (fun z hz e => ?_) fun z hz => ?_
    · rw [ht.color, if_neg (ne_of_mem_of_not_mem hz hroom.path)]
    · rw [ht.child, if_neg (ne_of_mem_of_not_mem hz hroom.path)]
    · rw [ht.parent_off (fun hR => hroom.right_path z hR hz) (fun hl => hroom.left_path z hl hz),
        if_neg (ne_of_mem_of_not_mem hz hroom.path)]

theorem Taken.focused (ht : Taken x y (ptr t.sentinel l) (ptr t.sentinel R) path t t')
    (hroom : TakeRoom x y l R path) (h : Placed nodes t none R (⟨.right, c, x, l⟩ :: path))
    (hy : t.IsNode nodes y) : Focused nodes t' R (⟨.right, c, y, l⟩ :: path) := by
  obtain ⟨hymem, hy0, hys⟩ := hy
  have hs := ht.same.sentinel
  have hsent := h.sentinel_not_mem
  have hnull := h.null_not_mem
  simp only [values_cons, List.mem_append, List.mem_cons, not_or] at hsent hnull
  refine ⟨ht.linked_right hroom hsent.1 h.focus, ht.linkedPath hroom hsent.2.2.1 h.frames, ?_,
    hroom.nodup, ?_, ?_, ?_, ?_, fun z hz => ?_⟩
  · rw [ht.root, hs]
    cases path with
    | nil => simp [Frame.fill]
    | cons f path =>
        rw [if_neg (List.cons_ne_nil f path), h.root]
        exact ptr_plug_congr t.sentinel (Frame.fill ⟨.right, c, x, l⟩ R)
          (Frame.fill ⟨.right, c, y, l⟩ R) (List.cons_ne_nil f path)
  · rw [hs]
    simpa [values_cons, hys.symm] using ⟨hsent.1, hsent.2.2⟩
  · simpa [values_cons, hy0.symm] using ⟨hnull.1, hnull.2.2⟩
  · rw [hs]
    exact h.sentinel_ne_null
  · rw [hs, ht.color, if_neg hys.symm]
    exact h.sentinel_black
  · simp only [values_cons, List.mem_append, List.mem_cons] at hz
    rcases hz with hz | rfl | hz
    · exact h.mem z (List.mem_append_left _ hz)
    · exact hymem
    · exact h.mem z (by simp [values_cons, hz])

theorem takeLinks_spec (h : Placed nodes t none R (⟨.right, c, x, l⟩ :: path))
    (hy : y ∉ R.toList ++ values (⟨.right, c, x, l⟩ :: path)) (hynode : t.IsNode nodes y) :
    ∃ t', takeLinksIn nodes t x y = some t' ∧ Focused nodes t' R (⟨.right, c, y, l⟩ :: path) ∧
      Kept nodes t t' ∧ t'.color x = t.color x := by
  obtain ⟨t', hrun, ht⟩ := takeLinks_run h hy hynode
  have hroom := takeRoom h.nodup hy
  have hsent := h.sentinel_not_mem
  simp only [values_cons, List.mem_append, List.mem_cons, not_or] at hsent
  refine ⟨t', hrun, ht.focused hroom h hynode, ⟨ht.same, ?_, ?_, ?_⟩, ?_⟩
  · rw [ht.parent_off hsent.1 hsent.2.2.1, if_neg hynode.2.2.symm]
  · refine ht.root_parent hroom (fun hnil => ?_) fun hne => ?_
    · exact (h.value_eq_root_iff.mpr hnil).symm
    · exact h.root ▸ ptr_plug_mem t.sentinel _ hne
  · refine ht.frame hynode.1 (fun z hz => h.mem z (by simp [values_cons, hz])) ?_ ?_
    · exact fun hne => h.mem _ (by simp [values_cons, ptr_mem_of_ne hne])
    · exact fun hne => h.mem _ (List.mem_append_left _ (ptr_mem_of_ne hne))
  · rw [ht.color, if_neg hroom.ne.symm]

/-- The successor `y` of `x`, with its right subtree `u` left behind, replaces `x`. -/
theorem takePlace_spec (h : Placed nodes t none u (q ++ ⟨.right, c, x, l⟩ :: path))
    (hy : y ∉ u.toList ++ values (q ++ ⟨.right, c, x, l⟩ :: path)) (hy0 : t.IsNode nodes y)
    (hparent : ∀ p ∈ above none (q ++ ⟨.right, c, x, l⟩ :: path), t.parent y = p) :
    ∃ t', takePlaceIn nodes t x y (ptr t.sentinel u) = some t' ∧
      Focused nodes t' u (q ++ ⟨.right, c, y, l⟩ :: path) ∧
      Parked t' u (q ++ ⟨.right, c, y, l⟩ :: path) ∧ Spliced nodes x t t' := by
  cases q with
  | nil =>
      have hp : t.parent y = x := hparent x rfl
      obtain ⟨t₁, hset, h₁, hp₁, hs₁⟩ := Placed.setParent (x := x) h y
      have hs := hs₁.same.sentinel
      obtain ⟨t', htake, h', hk, hc⟩ :=
        takeLinks_spec (h₁.weaken (by simp)) hy (hy0.congr hs)
      refine ⟨t', ?_, h', ?_, hs₁.trans ⟨hk.same, hk.frame, hc, hk.root_parent⟩⟩
      · simp [takePlaceIn, getParentIn_of hy0, hp, hset, htake]
      · have hparked : Parked t₁ u (⟨.right, c, y, l⟩ :: path) := by
          rw [parked_cons, hs]
          exact hp₁
        exact hparked.kept hk h' rfl
  | cons g q =>
      have hgx : g.value ≠ x := fun hgx => by
        have := (value_not_mem h.nodup).2
        simp [values_append, values_cons, hgx] at this
      have hp : t.parent y = g.value := hparent g.value rfl
      obtain ⟨t₁, hset, h₁, hp₁, hs₁⟩ := Placed.setParent (x := x) h g.value
      have hs := hs₁.same.sentinel
      have hparked : Parked t₁ u (g :: q ++ ⟨.right, c, x, l⟩ :: path) := by
        rw [List.cons_append, parked_cons, hs]
        exact hp₁
      have hplug : Focused nodes t₁ (plug u (g :: q)) (⟨.right, c, x, l⟩ :: path) :=
        focused_plug.mpr h₁
      have hy' : y ∉ (plug u (g :: q)).toList ++ values (⟨.right, c, x, l⟩ :: path) := by
        rw [values_append, ← List.append_assoc] at hy
        rwa [((plug_perm u (g :: q)).append_right _).mem_iff]
      obtain ⟨t', htake, h', hk, hc⟩ :=
        takeLinks_spec (hplug.weaken (by simp)) hy' (hy0.congr hs)
      refine ⟨t', ?_, focused_plug.mp h', hparked.kept hk (focused_plug.mp h') rfl,
        hs₁.trans ⟨hk.same, hk.frame, hc, hk.root_parent⟩⟩
      simp [takePlaceIn, getParentIn_of hy0, hp, hgx, hset, htake]

/-! ## The operation -/

/-- What `nc_rbtree_node_init` leaves of a node. -/
def cleared (node : NcRbnode) : NcRbnode :=
  { node with left := null, right := null, parent := null, key := 0, data := null }

/-- The deleted node `x` is cleared, and the fields of the others do not change. -/
structure Deleted (nodes : List Ptr) (x : Ptr) (t t' : NcRbtree) : Prop where
  sentinel : t'.sentinel = t.sentinel
  key : ∀ p, p ≠ x → t'.key p = t.key p
  data : ∀ p, p ≠ x → t'.data p = t.data p
  frame : ∀ p, p ∉ nodes → p ≠ t.sentinel → t'.node p = t.node p
  cleared : t'.node x = cleared (t.node x)

theorem ncRbtreeNodeInit_spec (h : Focused nodes t T path) (hx : x ∉ T.toList ++ values path)
    (hxnode : t.IsNode nodes x) :
    ∃ t', ncRbtreeNodeInitIn nodes t x = some t' ∧
      Focused (nodes.filter (· ≠ x)) t' T path ∧ (Parked t T path → Parked t' T path) ∧
      t' = t.putNode x (cleared (t.node x)) := by
  refine ⟨_, (if_pos hxnode).trans (if_neg hxnode.2.1),
    (h.putNode hx hxnode.2.2 _).restrict fun z hz => ?_, ?_, rfl⟩
  · exact List.mem_filter.mpr ⟨h.mem z hz, by simpa using ne_of_mem_of_not_mem hz hx⟩
  · intro hpark p hp
    have hne : ptr t.sentinel T ≠ x := by
      by_cases hnil : T = .nil
      · rw [hnil, ptr_nil]
        exact hxnode.2.2.symm
      · exact ne_of_mem_of_not_mem (List.mem_append_left _ (ptr_mem hnil _)) hx
    simpa [parent, putNode, hne] using hpark p hp

/-- A deletion: the node `x` is cleared between what happens before and after. -/
theorem Deleted.of_cleared {t₁ t₂ : NcRbtree} (hx : t.IsNode nodes x) (h : SameFields t t₁)
    (hframe : Framed nodes t t₁) (hcolor : t₁.color x = t.color x)
    (ht₂ : t₂ = t₁.putNode x (Libnc.Rbtree.cleared (t₁.node x))) (h' : SameFields t₂ t')
    (hframe' : Framed (nodes.filter (· ≠ x)) t₂ t') : Deleted nodes x t t' := by
  have hs₂ : t₂.sentinel = t.sentinel := by rw [ht₂]; exact h.sentinel
  have hother : ∀ p, p ≠ x → t₂.node p = t₁.node p := fun p hp => by
    rw [ht₂]
    exact Function.update_of_ne hp _ _
  refine ⟨h'.sentinel.trans hs₂, fun p hp => ?_, fun p hp => ?_, fun p hp hps => ?_, ?_⟩
  · exact (h'.key p).trans ((congrArg NcRbnode.key (hother p hp)).trans (h.key p))
  · exact (h'.data p).trans ((congrArg NcRbnode.data (hother p hp)).trans (h.data p))
  · have hpx : p ≠ x := fun hpx => hp (hpx ▸ hx.1)
    rw [hframe' p (fun hm => hp (List.mem_filter.mp hm).1) (hs₂ ▸ hps), hother p hpx,
      hframe p hp hps]
  · have hsame : (t₁.node x).color = (t.node x).color := hcolor
    have hclear : t₂.node x = Libnc.Rbtree.cleared (t₁.node x) := by
      rw [ht₂]
      exact Function.update_self _ _ _
    rw [hframe' x (by simp) (hs₂ ▸ hx.2.2), hclear]
    simp only [Libnc.Rbtree.cleared, hsame]

theorem removeAt_run (h : Focused nodes t u (f :: path)) (hpark : Parked t u (f :: path))
    (hvalid : (plug (.join d c .nil y u) (f :: path)).Valid) (hfuel : (f :: path).length < fuel) :
    ∃ t', (if c = .red then some t else deleteFixupIn nodes fuel t (ptr t.sentinel u)) = some t' ∧
      Focused nodes t' (removeAt c u (f :: path)) [] ∧ Kept nodes t t' := by
  cases c with
  | red => exact ⟨t, by simp, by simpa [removeAt] using plug_focused h, .refl t⟩
  | black =>
      obtain ⟨n, hjoin, hpath, -⟩ := unplug hvalid
      obtain ⟨m, rfl, -, hu⟩ := ColorTree.balanced_join_black.mp hjoin
      obtain ⟨t', hrun, h', hk⟩ := deleteFixup_spec h hpark hpath hu.short hfuel
      exact ⟨t', by simpa using hrun, by simpa [removeAt] using h', hk⟩

theorem ncRbtreeDelete_end {t₁ : NcRbtree} (hxnode : t.IsNode nodes x) (hs : Spliced nodes x t t₁)
    (h : Focused nodes t₁ u (f :: path)) (hpark : Parked t₁ u (f :: path))
    (hx : x ∉ u.toList ++ values (f :: path))
    (hvalid : (plug (.join d c .nil y u) (f :: path)).Valid) (hfuel : (f :: path).length < fuel) :
    ∃ t₂ t', ncRbtreeNodeInitIn nodes t₁ x = some t₂ ∧
      (if c = .red then some t₂
        else deleteFixupIn (nodes.filter (· ≠ x)) fuel t₂ (ptr t.sentinel u)) = some t' ∧
      Focused (nodes.filter (· ≠ x)) t' (removeAt c u (f :: path)) [] ∧ Deleted nodes x t t' ∧
      t'.parent t'.root = t.parent t.root := by
  have hsent := hs.same.sentinel
  obtain ⟨t₂, hinit, h₂, hpark₂, ht₂⟩ := ncRbtreeNodeInit_spec h hx (hxnode.congr hsent)
  obtain ⟨t', hrun, h', hk⟩ := removeAt_run h₂ (hpark₂ hpark) hvalid hfuel
  have hsent₂ : t₂.sentinel = t.sentinel := by rw [ht₂]; exact hsent
  have hroot : t₁.root ≠ x := by
    rw [h.root]
    have hmem : ptr t₁.sentinel (plug u (f :: path)) ∈ values (f :: path) :=
      ptr_plug_mem t₁.sentinel u (by simp)
    exact ne_of_mem_of_not_mem (List.mem_append_right _ hmem) hx
  have hclear : t₂.parent t₂.root = t₁.parent t₁.root := by
    rw [ht₂]
    exact congrArg NcRbnode.parent (Function.update_of_ne hroot _ _)
  rw [hsent₂] at hrun
  exact ⟨t₂, t', hinit, hrun, h', .of_cleared hxnode hs.same hs.frame hs.color ht₂ hk.same hk.frame,
    hk.root_parent.trans (hclear.trans hs.root_parent)⟩

/-- The root with at most one child goes, and its child keeps the link to it. -/
theorem ncRbtreeDelete_root (h : Focused nodes t (.join d c .nil x u) [])
    (hchoose : deleteChooseIn nodes fuel t x = some (x, ptr t.sentinel u)) :
    ∃ t', ncRbtreeDeleteIn nodes fuel t x = some t' ∧
      Focused (nodes.filter (· ≠ x)) t' u.blacken [] ∧ Deleted nodes x t t' ∧
      (u ≠ .nil → t'.parent t'.root = x) := by
  have hperm := cut_perm d c x u []
  have hx := (List.nodup_cons.mp (hperm.nodup_iff.mp h.nodup)).1
  have hxnode : t.IsNode nodes x := h.isNode_join
  have hroot : x = t.root := by simpa using h.root.symm
  have hlinked := (linked_join.mp h.focus).2.2.2.2.2
  have hplaced : Focused nodes (t.putRoot (ptr t.sentinel u)) u [] :=
    ⟨(hlinked.weaken (by simp [above])).congr rfl ⟨by simp, by simp, by simp⟩, trivial, rfl,
      (List.nodup_cons.mp (hperm.nodup_iff.mp h.nodup)).2,
      fun hm => h.sentinel_not_mem (hperm.mem_iff.mpr (List.mem_cons_of_mem x hm)),
      fun hm => h.null_not_mem (hperm.mem_iff.mpr (List.mem_cons_of_mem x hm)),
      h.sentinel_ne_null, h.sentinel_black,
      fun z hz => h.mem z (hperm.mem_iff.mpr (List.mem_cons_of_mem x hz))⟩
  have hptr : x ≠ ptr t.sentinel u := by
    by_cases hnil : u = .nil
    · rw [hnil, ptr_nil]
      exact hxnode.2.2
    · exact (ne_of_mem_of_not_mem (List.mem_append_left _ (ptr_mem hnil _)) hx).symm
  have htarget : (t.putRoot (ptr t.sentinel u)).IsTarget nodes (ptr t.sentinel u) :=
    hplaced.isTarget
  have hset := setColorIn_black htarget
  obtain ⟨t₁, hset', h₁, -⟩ := hplaced.blacken
  obtain rfl := Option.some.inj (hset.symm.trans hset')
  obtain ⟨t', hinit, h', -, ht'⟩ := ncRbtreeNodeInit_spec (x := x) h₁ (by simpa using hx)
    (hxnode.congr rfl)
  refine ⟨t', ?_, h', .of_cleared hxnode ((SameFields.putRoot _).trans (.putColor _ _))
    (.trans (fun _ _ _ => rfl) (.putColor htarget _) rfl) (by simp [hptr]) ht' (.refl _)
    (.refl _), fun hne => ?_⟩
  · simp [ncRbtreeDeleteIn, hchoose, ← hroot, hset, hinit]
  · have hparent : ((t.putRoot (ptr t.sentinel u)).putColor (ptr t.sentinel u) .black).parent
        (ptr t.sentinel u) = x := by
      simpa using hlinked.parent_ptr hne rfl
    rw [ht']
    exact (congrArg NcRbnode.parent (Function.update_of_ne hptr.symm _ _)).trans hparent

theorem ncRbtreeDelete_single (h : Focused nodes t (.join d c .nil x u) (f :: path))
    (hchoose : deleteChooseIn nodes fuel t x = some (x, ptr t.sentinel u))
    (hvalid : (plug (.join d c .nil x u) (f :: path)).Valid) (hfuel : (f :: path).length < fuel) :
    ∃ t', ncRbtreeDeleteIn nodes fuel t x = some t' ∧
      Focused (nodes.filter (· ≠ x)) t' (removeAt c u (f :: path)) [] ∧ Deleted nodes x t t' ∧
      t'.parent t'.root = t.parent t.root := by
  have hperm := cut_perm d c x u (f :: path)
  have hx := (List.nodup_cons.mp (hperm.nodup_iff.mp h.nodup)).1
  have hxnode : t.IsNode nodes x := h.isNode_join
  obtain ⟨hrelink, h₁, hcut⟩ := cut_spec (x := x) h .left
  obtain ⟨t₂, hparent, h₂, hpark₂, hs₂⟩ := Placed.setParent (x := x) h₁ f.value
  have hs : t₂.sentinel = t.sentinel := by simpa using hs₂.same.sentinel
  have hparked : Parked t₂ u (f :: path) := by
    rw [parked_cons, hs]
    simpa using hpark₂
  obtain ⟨t₃, t', hinit, hrun, h', hdeleted, hroot'⟩ :=
    ncRbtreeDelete_end hxnode (hcut.trans hs₂) h₂ hparked hx hvalid hfuel
  refine ⟨t', ?_, h', hdeleted, hroot'⟩
  have hroot : x ≠ t.root := by simpa using h.ptr_ne_root
  have hup := h.focus.parent_ptr (by simp) rfl
  have hcolor := h.getColor
  rw [ptr_join] at hup hcolor
  have hcolor' : t.getColorIn nodes x = some c := by
    rw [hcolor]
    cases c <;> simp
  have hup' : (t.putChild f.side f.value (ptr t.sentinel u)).getParentIn nodes x =
      some f.value := by
    rw [getParentIn_of (by simpa using hxnode), parent_putChild, hup]
  rw [sentinel_putChild] at hparent
  simpa [ncRbtreeDeleteIn, hchoose, hroot, hcolor', hrelink, hup', hparent, hinit] using hrun

theorem not_mem_successor
    (hnodup : (y :: (u.toList ++ values (q ++ ⟨.right, c, x, l⟩ :: path))).Nodup) :
    x ∉ u.toList ++ values (q ++ ⟨.right, c, y, l⟩ :: path) := by
  obtain ⟨hxy, hxV⟩ : x ∉ y :: (u.toList ++ values q) ∧ x ∉ l.toList ++ values path := by
    rw [values_append, ← List.append_assoc] at hnodup
    exact value_not_mem (f := ⟨.right, c, x, l⟩) hnodup
  simp only [values_append, values_cons, List.mem_append, List.mem_cons, not_or] at hxy hxV ⊢
  exact ⟨hxy.2.1, hxy.2.2, hxy.1, hxV.1, hxV.2⟩

/-- The node `y` is cut out below `x` and takes its place. -/
theorem ncRbtreeDelete_successor {e : Color}
    (hy : Focused nodes t (.join .left e .nil y u) (q ++ ⟨.right, c, x, l⟩ :: path))
    (hchoose : deleteChooseIn nodes fuel t x = some (y, ptr t.sentinel u))
    (hvalid : (plug (.join .left e .nil y u) (q ++ ⟨.right, c, y, l⟩ :: path)).Valid)
    (hfuel : (q ++ ⟨.right, c, x, l⟩ :: path).length < fuel) :
    ∃ t', ncRbtreeDeleteIn nodes fuel t x = some t' ∧
      Focused (nodes.filter (· ≠ x)) t' (removeAt e u (q ++ ⟨.right, c, y, l⟩ :: path)) [] ∧
      Deleted nodes x t t' ∧ t'.parent t'.root = t.parent t.root := by
  have hnodup := (cut_perm .left e y u _).nodup_iff.mp hy.nodup
  have hx := not_mem_successor hnodup
  have hxnode : t.IsNode nodes x := hy.isNode (by simp [values_append, values_cons])
  have hynode : t.IsNode nodes y := hy.isNode_join
  have hxy : y ≠ x := by
    rintro rfl
    exact (List.nodup_cons.mp hnodup).1 (by simp [values_append, values_cons])
  obtain ⟨f, rest, hcons⟩ : ∃ f rest, q ++ ⟨.right, c, x, l⟩ :: path = f :: rest := by
    cases q <;> exact ⟨_, _, rfl⟩
  obtain ⟨g, rest', hcons'⟩ : ∃ g rest, q ++ ⟨.right, c, y, l⟩ :: path = g :: rest := by
    cases q <;> exact ⟨_, _, rfl⟩
  obtain ⟨hcolor, -, -, hup, -, -⟩ := linked_join.mp hy.focus
  have hroot : y ≠ t.root := by
    have := (hcons ▸ hy).ptr_ne_root
    simpa using this
  obtain ⟨hrelink, h₁, hcut⟩ := cut_spec (x := x) (hcons ▸ hy) .left
  rw [← hcons] at h₁
  obtain ⟨t₂, htake, h₂, hpark₂, hs₂⟩ :=
    takePlace_spec h₁ (List.nodup_cons.mp hnodup).1 (by simpa using hynode) (by simpa using hup)
  have hlength : (g :: rest').length < fuel := by
    rw [← hcons']
    simpa using hfuel
  rw [hcons'] at hx h₂ hpark₂ hvalid ⊢
  obtain ⟨t₃, t', hinit, hrun, h', hdeleted, hroot'⟩ :=
    ncRbtreeDelete_end hxnode (hcut.trans hs₂) h₂ hpark₂ hx hvalid hlength
  refine ⟨t', ?_, h', hdeleted, hroot'⟩
  rw [sentinel_putChild] at htake
  simpa [ncRbtreeDeleteIn, hchoose, hroot, getColorIn_of hynode.target, hcolor, hrelink, hxy,
    htake, hinit] using hrun

theorem ncRbtreeDelete_double {c' : Color} {l' r' : ColorTree Ptr} {x' : Ptr}
    (h : Focused nodes t (.node c l x (.node c' l' x' r')) path) (hl : l ≠ .nil)
    (hvalid : (plug (.node c l x (.node c' l' x' r')) path).Valid)
    (hfuel : (plug (.node c l x (.node c' l' x' r')) path).height < fuel) :
    ∃ t', ncRbtreeDeleteIn nodes fuel t x = some t' ∧
      Focused (nodes.filter (· ≠ x)) t' (deleteAt c l (.node c' l' x' r') path) [] ∧
      Deleted nodes x t t' ∧ t'.parent t'.root = t.parent t.root := by
  obtain ⟨hplug, -⟩ := leftmost_spec c' l' x' r' [] rfl
  have hheight := height_plug (.node c l x (.node c' l' x' r')) path
  have hright : Focused nodes t (.node c' l' x' r') (⟨.right, c, x, l⟩ :: path) := focused_fill.mp h
  have hmin : rbtreeNodeMinIn nodes t fuel x' = some (leftmost c' l' x' r' []).2.1 := by
    apply rbtreeNodeMin_spec hright
    simp only [ColorTree.height] at hheight
    omega
  have hdelete : deleteAt c l (.node c' l' x' r') path =
      removeAt (leftmost c' l' x' r' []).1 (leftmost c' l' x' r' []).2.2.1
        ((leftmost c' l' x' r' []).2.2.2 ++
          ⟨.right, c, (leftmost c' l' x' r' []).2.1, l⟩ :: path) := by
    cases l with
    | nil => exact absurd rfl hl
    | node _ _ _ _ => rfl
  rw [hdelete]
  generalize leftmost c' l' x' r' [] = parts at *
  obtain ⟨e, y, u, q⟩ := parts
  simp only [plug_nil] at hplug hmin ⊢
  have hy : Focused nodes t (.join .left e .nil y u) (q ++ ⟨.right, c, x, l⟩ :: path) :=
    focused_plug.mp (hplug ▸ hright)
  have hchoose : deleteChooseIn nodes fuel t x = some (y, ptr t.sentinel u) := by
    have hleft := (Focused.getChild (d := .left) h).1
    have hright' : t.getChildIn nodes .right x = some x' := (Focused.getChild (d := .right) h).1
    have hnear : t.getChildIn nodes .right y = some (ptr t.sentinel u) := hy.getChild.2
    have hl' : ptr t.sentinel l ≠ t.sentinel := mt hright.toSibling.ptr_eq_sentinel_iff.mp hl
    have hr' : x' ≠ t.sentinel := mt hright.ptr_eq_sentinel_iff.mp (by simp)
    simp [deleteChooseIn, hleft, hright', hl', hr', hmin, hnear]
  refine ncRbtreeDelete_successor hy hchoose ?_ ?_
  · rw [plug_append, ColorTree.join, hplug]
    exact valid_replace hvalid y
  · have hq := height_plug (.node e .nil y u) q
    rw [hplug] at hq
    rw [List.length_append, List.length_cons]
    simp only [ColorTree.height] at hheight hq
    omega

theorem ncRbtreeDelete_one (h : Focused nodes t (.join d c .nil x u) path)
    (hchoose : deleteChooseIn nodes fuel t x = some (x, ptr t.sentinel u))
    (hvalid : (plug (.join d c .nil x u) path).Valid)
    (hfuel : (plug (.join d c .nil x u) path).height < fuel) :
    ∃ t', ncRbtreeDeleteIn nodes fuel t x = some t' ∧
      Focused (nodes.filter (· ≠ x)) t' (removeAt c u path) [] ∧ Deleted nodes x t t' ∧
      (path ≠ [] → t'.parent t'.root = t.parent t.root) ∧
      (path = [] → u ≠ .nil → t'.parent t'.root = x) := by
  cases path with
  | nil =>
      obtain ⟨t', hrun, h', hdeleted, hroot⟩ := ncRbtreeDelete_root h hchoose
      exact ⟨t', hrun, h', hdeleted, by simp, fun _ => hroot⟩
  | cons f path =>
      have hlength : (f :: path).length < fuel := by
        have := height_plug (.join d c .nil x u) (f :: path)
        omega
      obtain ⟨t', hrun, h', hdeleted, hroot⟩ := ncRbtreeDelete_single h hchoose hvalid hlength
      exact ⟨t', hrun, h', hdeleted, fun _ => hroot, by simp⟩

/--
Deletion of a node of the tree is `deleteAt` on the tree in memory.  The parent
link of the root stays, unless the root goes from above its only child.
-/
theorem ncRbtreeDelete_spec (h : Focused nodes t (.node c l x r) path)
    (hvalid : (plug (.node c l x r) path).Valid)
    (hfuel : (plug (.node c l x r) path).height < fuel) :
    ∃ t', ncRbtreeDeleteIn nodes fuel t x = some t' ∧
      Focused (nodes.filter (· ≠ x)) t' (deleteAt c l r path) [] ∧ Deleted nodes x t t' ∧
      (path ≠ [] ∨ l ≠ .nil ∧ r ≠ .nil → t'.parent t'.root = t.parent t.root) ∧
      (path = [] → (l = .nil ↔ r ≠ .nil) → t'.parent t'.root = x) := by
  have hleft := (Focused.getChild (d := .left) h).1
  have hright := (Focused.getChild (d := .right) h).1
  cases l with
  | nil =>
      simp only [ptr] at hleft
      have hchoose : deleteChooseIn nodes fuel t x = some (x, ptr t.sentinel r) := by
        simp [deleteChooseIn, hleft, hright]
      obtain ⟨t', hrun, h', hdeleted, hstays, hstale⟩ :=
        ncRbtreeDelete_one (d := .left) h hchoose hvalid hfuel
      exact ⟨t', hrun, h', hdeleted, fun hne => hstays (hne.resolve_right (by simp)),
        fun hpath hr => hstale hpath (hr.mp rfl)⟩
  | node c₁ l₁ x₁ r₁ =>
      cases r with
      | nil =>
          have hl : Focused nodes t (.node c₁ l₁ x₁ r₁) (⟨.left, c, x, .nil⟩ :: path) :=
            focused_fill.mp h
          have hx₁ : x₁ ≠ t.sentinel := mt hl.ptr_eq_sentinel_iff.mp (by simp)
          simp only [ptr] at hleft hright
          have hchoose : deleteChooseIn nodes fuel t x =
              some (x, ptr t.sentinel (.node c₁ l₁ x₁ r₁)) := by
            simp [deleteChooseIn, hleft, hright, hx₁, ptr]
          obtain ⟨t', hrun, h', hdeleted, hstays, hstale⟩ :=
            ncRbtreeDelete_one (d := .right) h hchoose hvalid hfuel
          exact ⟨t', hrun, h', hdeleted, fun hne => hstays (hne.resolve_right (by simp)),
            fun hpath _ => hstale hpath (by simp)⟩
      | node c' l' x' r' =>
          obtain ⟨t', hrun, h', hdeleted, hroot⟩ := ncRbtreeDelete_double h (by simp) hvalid hfuel
          exact ⟨t', hrun, h', hdeleted, fun _ => hroot, by simp⟩

end Libnc.Rbtree
