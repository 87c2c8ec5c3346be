import Libnc.Rbtree.Rotation

/-!
# Insertion

The search reaches the empty place of `descend`, and the loop computes
`insertFix` on the tree in memory.
-/

namespace Libnc.Rbtree

open Libnc.Foundation Path NcRbtree

variable {t t' : NcRbtree} {nodes : List Ptr} {T U : ColorTree Ptr} {path : Path Ptr}
variable {p g : Frame Ptr} {n fuel : Nat}

/-! ## One round of the loop -/

theorem insertFixupStep_red (h : Focused nodes t T (p :: g :: path)) (hne : T ≠ .nil)
    (huncle : g.sibling.isRed = true) :
    ∃ t', insertFixupStepIn nodes g.side t (ptr t.sentinel T) = some (t', g.value) ∧
      Focused nodes t' (.join g.side .red (.join p.side .black T p.value p.sibling) g.value
        g.sibling.blacken) path ∧ Kept nodes t t' := by
  have huncle' := h.fill.toSibling.getColor
  rw [huncle, if_pos rfl] at huncle'
  obtain ⟨t₁, hset₁, h₁, hk₁⟩ := Focused.recolorFrame (p := []) h .black
  obtain ⟨t₂, hset₂, h₂, hk₂⟩ := Focused.blackenSibling (p := [_]) h₁
  obtain ⟨t₃, hset₃, h₃, hk₃⟩ := Focused.recolorFrame (p := [_]) h₂ .red
  rw [hk₁.same.sentinel] at hset₂
  refine ⟨t₃, ?_, h₃.fill.fill, hk₁.trans (hk₂.trans hk₃)⟩
  simp [insertFixupStepIn, h.getParent hne, h.getParent_value, h.fill.getOther, huncle', hset₁,
    hset₂, hset₃]

theorem insertFixupStep_turn {d : Side} {c c' : Color} {y z : Ptr} {s s' : ColorTree Ptr}
    (h : Focused nodes t U (⟨d, c, y, s⟩ :: ⟨d, c', z, s'⟩ :: path)) (hne : U ≠ .nil) :
    ∃ t₁ t₂ t', t.followParentIn nodes (ptr t.sentinel U) = some y ∧
      t.setColorIn nodes y .black = some t₁ ∧
      t₁.followParentIn nodes (ptr t.sentinel U) = some y ∧ t₁.followParentIn nodes y = some z ∧
      t₁.setColorIn nodes z .red = some t₂ ∧ rotateIn nodes d.other t₂ z = some t' ∧
      Focused nodes t' (.join d .black U y (.join d .red s z s')) path ∧ Kept nodes t t' := by
  obtain ⟨t₁, hset₁, h₁, hk₁⟩ := Focused.recolorFrame (p := []) h .black
  obtain ⟨t₂, hset₂, h₂, hk₂⟩ := Focused.recolorFrame (p := [_]) h₁ .red
  have hturn := h₂.fill.fill
  simp only [Frame.fill] at hturn
  rw [← ColorTree.join_other d .red s', ← ColorTree.join_other d .black s] at hturn
  obtain ⟨t₃, hrot, h₃, hk₃⟩ := rotate_spec hturn
  rw [ColorTree.join_other, ColorTree.join_other] at h₃
  have hparent := h₁.getParent hne
  rw [hk₁.same.sentinel] at hparent
  exact ⟨t₁, t₂, t₃, h.getParent hne, hset₁, hparent, h₁.getParent_value, hset₂, hrot, h₃,
    hk₁.trans (hk₂.trans hk₃)⟩

theorem insertFixupStep_black (h : Focused nodes t T (p :: g :: path)) (hred : T.isRed = true)
    (hp : p.color = .red) (huncle : g.sibling.isRed = false) :
    ∃ t' U y s,
      insertFixupStepIn nodes g.side t (ptr t.sentinel T) = some (t', ptr t.sentinel U) ∧
      U ≠ .nil ∧ insertRotate T p g = .join g.side .black U y s ∧
      Focused nodes t' (insertRotate T p g) path ∧ Kept nodes t t' := by
  obtain ⟨e, c, y, s⟩ := p
  obtain ⟨d, c', z, s'⟩ := g
  obtain rfl : c = .red := hp
  have hne := ColorTree.ne_nil_of_isRed hred
  have huncle' := h.fill.toSibling.getColor
  rw [huncle, if_neg (by simp)] at huncle'
  by_cases hside : e = d
  · subst hside
    obtain ⟨t₁, t₂, t', hp₀, hset₁, hp₁, hp₂, hset₂, hrot, h', hkept⟩ :=
      insertFixupStep_turn h hne
    have hinner : ptr t.sentinel T ≠ ptr t.sentinel s := h.ptr_ne_sibling (.inl hne)
    refine ⟨t', T, y, .join e .red s z s', ?_, hne, by simp [insertRotate],
      by simpa [insertRotate] using h', hkept⟩
    simp [insertFixupStepIn, hp₀, h.getParent_value, h.fill.getOther, huncle', h.getOther, hinner,
      hset₁, hp₁, hp₂, hset₂, hrot]
  · obtain rfl := Side.eq_other_of_ne hside
    obtain ⟨c, a, x, b, rfl⟩ := ColorTree.exists_join_of_ne_nil hne d
    have hfill := h.fill
    simp only [Frame.fill, ColorTree.join_other] at hfill
    obtain ⟨u, hrot, hu, hku⟩ := rotate_spec hfill
    obtain ⟨t₁, t₂, t', hp₀, hset₁, hp₁, hp₂, hset₂, hrot', h', hkept⟩ :=
      insertFixupStep_turn (focused_fill.mp hu) (by simp)
    have hinner := h.getSide
    have hparent := h.getParent hne
    rw [ptr_join] at hinner hparent
    rw [ptr_join] at hp₀ hp₁
    refine ⟨t', .join d .red s y a, x, .join d .red b z s', ?_, by simp,
      by simp [insertRotate], by simpa [insertRotate] using h', hku.trans hkept⟩
    simp [insertFixupStepIn, hparent, h.getParent_value, h.fill.getOther, huncle', hinner, hrot,
      hp₀, hset₁, hp₁, hp₂, hset₂, hrot']

/-! ## The loop -/

theorem insertFixup_stop (fuel : Nat) (h : Focused nodes t T path) (hne : T ≠ .nil)
    (hpath : ∀ f ∈ path.head?, f.color = .black) :
    insertFixupIn nodes (fuel + 1) t (ptr t.sentinel T) = some t := by
  rw [insertFixupIn]
  split
  · rfl
  · rename_i hroot
    cases path with
    | nil => exact absurd (h.ptr_eq_root_iff.mpr rfl) hroot
    | cons f path =>
        have hblack := h.getColor_value
        rw [hpath f rfl] at hblack
        simp [h.getParent hne, hblack]

theorem insertFixup_step {u : NcRbtree} {node : Ptr} (h : Focused nodes t T (p :: g :: path))
    (hne : T ≠ .nil) (hp : p.color = .red)
    (hstep : insertFixupStepIn nodes g.side t (ptr t.sentinel T) = some (u, node)) :
    insertFixupIn nodes (fuel + 1) t (ptr t.sentinel T) = insertFixupIn nodes fuel u node := by
  have hroot := h.ptr_ne_root
  have hred := h.getColor_value
  rw [hp] at hred
  obtain ⟨q, hq, hside⟩ := h.fill.side_eq (.inl (by simp [Frame.fill]))
  rw [Frame.fill, ptr_join] at hside
  rw [insertFixupIn, if_neg hroot]
  simp [h.getParent hne, hred, h.getParent_value, hq, hside, hstep]

/-- The loop computes `insertFix`, in one round for two nodes of the path. -/
theorem insertFixup_spec (h : Focused nodes t T path) (hred : T.isRed = true)
    (hpath : path.Balanced n) (hfuel : path.length < fuel) :
    ∃ t', insertFixupIn nodes fuel t (ptr t.sentinel T) = some t' ∧
      Focused nodes t' (insertFix T path) [] ∧ Kept nodes t t' := by
  have hne := ColorTree.ne_nil_of_isRed hred
  obtain ⟨fuel, rfl⟩ := Nat.exists_eq_succ_of_ne_zero (Nat.ne_zero_of_lt hfuel)
  induction T, path using insertFix.induct generalizing t n fuel with
  | case1 T => exact ⟨t, insertFixup_stop fuel h hne (by simp), h, .refl t⟩
  | case2 T p =>
      have hblack := hpath.color_of_single
      exact ⟨t, insertFixup_stop fuel h hne (by simpa using hblack), h.fill, .refl t⟩
  | case3 T p g path hblack =>
      refine ⟨t, insertFixup_stop fuel h hne (by simpa using hblack), ?_, .refl t⟩
      unfold insertFix
      rw [if_pos hblack]
      exact focused_plug.mpr (by simpa using h)
  | case4 T p g path hp huncle ih =>
      obtain ⟨t₁, hstep, h₁, hk₁⟩ := insertFixupStep_red h hne huncle
      obtain ⟨-, -, -, -, hrest⟩ := hpath.of_red_parent hp
      simp only [List.length_cons] at hfuel
      obtain ⟨fuel, rfl⟩ : ∃ k, fuel = k + 1 := ⟨fuel - 1, by omega⟩
      obtain ⟨t', hrun, h', hk'⟩ := ih h₁ (by simp) hrest (by simp) fuel (by omega)
      rw [ptr_join] at hrun
      unfold insertFix
      rw [if_neg hp, if_pos huncle]
      refine ⟨t', ?_, h', hk₁.trans hk'⟩
      exact (insertFixup_step h hne (Color.eq_red_of_ne hp) hstep).trans hrun
  | case5 T p g path hp huncle =>
      obtain ⟨t₁, U, y, s, hstep, hU, hrotate, h₁, hk₁⟩ :=
        insertFixupStep_black h hred (Color.eq_red_of_ne hp) (by simpa using huncle)
      simp only [List.length_cons] at hfuel
      obtain ⟨fuel, rfl⟩ : ∃ k, fuel = k + 1 := ⟨fuel - 1, by omega⟩
      have hplug : Focused nodes t₁ (plug (insertRotate T p g) path) [] :=
        focused_plug.mpr (by simpa using h₁)
      rw [hrotate] at h₁
      have hstop := insertFixup_stop fuel (focused_fill.mp h₁ :
        Focused nodes t₁ U (⟨g.side, .black, y, s⟩ :: path)) hU (by simp)
      rw [hk₁.same.sentinel] at hstop
      unfold insertFix
      rw [if_neg hp, if_neg huncle]
      exact ⟨t₁, (insertFixup_step h hne (Color.eq_red_of_ne hp) hstep).trans hstop, hplug, hk₁⟩

/-! ## Search and attachment -/

/-- The search goes left for greater keys. -/
def goesLeft (t : NcRbtree) (node x : Ptr) : Bool := decide (t.key node < t.key x)

theorem insertSearch_spec {node : Ptr} (h : Focused nodes t T path) (hne : T ≠ .nil)
    (hnode : t.IsNode nodes node) (hfuel : T.height ≤ fuel) :
    ∃ f rest, descend (goesLeft t node) T path = f :: rest ∧
      insertSearchIn nodes t node fuel (ptr t.sentinel T) = some (f.value, f.side) := by
  induction T generalizing path fuel with
  | nil => exact absurd rfl hne
  | node c l x r ihl ihr =>
      simp only [ColorTree.height] at hfuel
      obtain ⟨fuel, rfl⟩ : ∃ k, fuel = k + 1 := ⟨fuel - 1, by omega⟩
      have hx : t.IsNode nodes x := h.isNode (by simp [ColorTree.toList])
      unfold ptr
      rw [insertSearchIn, getKeyIn_of hnode, getKeyIn_of hx, descend]
      by_cases hgo : t.key node < t.key x
      · have hl : Focused nodes t l (⟨.left, c, x, r⟩ :: path) := focused_fill.mp h
        have hchild : t.getChildIn nodes .left x = some (ptr t.sentinel l) := hl.getSide
        simp only [goesLeft, hgo, decide_true, if_true, Option.bind_eq_bind, Option.bind_some,
          hchild]
        by_cases hnil : l = .nil
        · subst hnil
          exact ⟨_, _, rfl, if_pos rfl⟩
        · rw [if_neg (mt hl.ptr_eq_sentinel_iff.mp hnil)]
          exact ihl hl hnil (by omega)
      · have hr : Focused nodes t r (⟨.right, c, x, l⟩ :: path) := focused_fill.mp h
        have hchild : t.getChildIn nodes .right x = some (ptr t.sentinel r) := hr.getSide
        simp only [goesLeft, hgo, decide_false, Bool.false_eq_true, if_false,
          Option.bind_eq_bind, Option.bind_some, hchild]
        by_cases hnil : r = .nil
        · subst hnil
          exact ⟨_, _, rfl, if_pos rfl⟩
        · rw [if_neg (mt hr.ptr_eq_sentinel_iff.mp hnil)]
          exact ihr hr hnil (by omega)

theorem attach_spec {node : Ptr} {f : Frame Ptr} (h : Focused nodes t .nil (f :: path))
    (hnode : node ∉ values (f :: path)) (hnew : t.IsNode nodes node) :
    ∃ t₁ t₂ t₃ t₄ t', t.setChildIn nodes f.side f.value node = some t₁ ∧
      t₁.setParentIn nodes node f.value = some t₂ ∧
      t₂.setChildIn nodes .left node t₂.sentinel = some t₃ ∧
      t₃.setChildIn nodes .right node t₃.sentinel = some t₄ ∧
      t₄.setColorIn nodes node .red = some t' ∧
      Focused nodes t' (.node .red .nil node .nil) (f :: path) ∧ Kept nodes t t' := by
  have hf0 := h.isNode_value
  obtain ⟨hmem, h0, hs⟩ := id hnew
  have hfn : f.value ≠ node := by
    rintro rfl
    exact hnode (by simp [values])
  have hne : t.root ≠ node := by
    rw [h.root]
    exact ne_of_mem_of_not_mem (ptr_plug_mem _ _ (by simp)) hnode
  refine ⟨_, _, _, _, _, setChildIn_of hf0 _ _, setParentIn_of (IsNode.target (by simpa)) _,
    setChildIn_of (by simpa) _ _, setChildIn_of (by simpa) _ _, setColorIn_of (by simpa) _, ?_, ?_⟩
  · have hother : ∀ z ∈ f.sibling.toList ++ values path, z ≠ f.value ∧ z ≠ node := fun z hz => by
      have hnodup : (f.value :: (f.sibling.toList ++ values path)).Nodup := h.nodup
      exact ⟨ne_of_mem_of_not_mem hz (List.nodup_cons.mp hnodup).1,
        ne_of_mem_of_not_mem (List.mem_cons_of_mem _ hz) hnode⟩
    refine ⟨?_, ?_, ?_, ?_, ?_, ?_, by simpa using h.sentinel_ne_null, ?_, ?_⟩
    · refine ⟨by simp, ?_, ?_, ?_, trivial, trivial⟩ <;> simp [above]
    · refine h.frames.relink (by simp) ⟨?_, ?_, ?_⟩ ?_ ?_ ?_ ?_
      · intro z hz
        simp [(hother z hz).2]
      · intro z hz e
        simp [hother z hz]
      · intro z hz
        simp [(hother z hz).2]
      all_goals simp [hfn, ptr]
    · have hroot := h.root
      simp only [root_putColor, root_putChild, root_putParent, sentinel_putColor,
        sentinel_putChild, sentinel_putParent]
      rw [hroot]
      exact ptr_plug_congr _ _ _ (by simp)
    · simpa [ColorTree.toList] using ⟨hnode, h.nodup⟩
    · have := h.sentinel_not_mem
      simp_all [ColorTree.toList, Ne.symm hs]
    · have := h.null_not_mem
      simp_all [ColorTree.toList, Ne.symm h0]
    · simp [Ne.symm hs, h.sentinel_black]
    · simpa [ColorTree.toList, hmem] using h.mem
  · refine ⟨?_, by simp [Ne.symm hs], by simp [hne], ?_⟩
    · exact (SameFields.putChild _ _ _).trans ((SameFields.putParent _ _).trans
        ((SameFields.putChild _ _ _).trans ((SameFields.putChild _ _ _).trans (.putColor _ _))))
    · refine (Framed.putChild hf0.1 _ _).trans (.trans (.putParent ?_ _) (.trans
        (.putChild hmem _ _) (.trans (.putChild hmem _ _) (.putColor ?_ _) ?_) ?_) ?_) ?_ <;>
        simp [hnew.target]

/-! ## The operation -/

/-- What the insertion into the tree `T` leaves alone. -/
structure Inserted (nodes : List Ptr) (T : ColorTree Ptr) (t t' : NcRbtree) : Prop where
  same : SameFields t t'
  frame : Framed nodes t t'
  root_parent_nil : T = .nil → t'.parent t'.root = null
  root_parent : T ≠ .nil → t'.parent t'.root = t.parent t.root

theorem ncRbtreeInsert_empty {node : Ptr} (h : Focused nodes t .nil [])
    (hnew : t.IsNode nodes node) :
    ∃ t', ncRbtreeInsertIn nodes fuel t node = some t' ∧
      Focused nodes t' (.node .black .nil node .nil) [] ∧ Inserted nodes .nil t t' := by
  obtain ⟨hmem, h0, hs⟩ := id hnew
  have hroot : t.root = t.sentinel := h.root
  refine ⟨((((t.putParent node null).putChild .left node t.sentinel).putChild .right node
    t.sentinel).putColor node .black).putRoot node, ?_, ?_, ?_, ?_, by simp, by simp⟩
  · unfold ncRbtreeInsertIn
    rw [if_pos hroot]
    have h₁ : (t.putParent node null).IsNode nodes node := by simpa
    have h₂ : ((t.putParent node null).putChild .left node t.sentinel).IsNode nodes node := by
      simpa
    have h₃ : (((t.putParent node null).putChild .left node t.sentinel).putChild .right node
      t.sentinel).IsNode nodes node := by simpa
    simp [setParentIn_of hnew.target, setChildIn_of h₁, setChildIn_of h₂, setColorIn_of h₃]
  · refine ⟨⟨by simp, ?_, ?_, by simp [above], trivial, trivial⟩, trivial, rfl,
      by simp [values, ColorTree.toList], ?_, ?_, by simpa using h.sentinel_ne_null, ?_, ?_⟩
    · simp
    · simp
    · simpa [ColorTree.toList, values] using Ne.symm hs
    · simpa [ColorTree.toList, values] using Ne.symm h0
    · simp [Ne.symm hs, h.sentinel_black]
    · simpa [ColorTree.toList, values] using hmem
  · exact (SameFields.putParent _ _).trans ((SameFields.putChild _ _ _).trans
      ((SameFields.putChild _ _ _).trans ((SameFields.putColor _ _).trans (.putRoot _))))
  · refine (Framed.putParent hnew.target _).trans (.trans (.putChild hmem _ _) (.trans
      (.putChild hmem _ _) (.trans (.putColor ?_ _) (fun _ _ _ => rfl) ?_) ?_) ?_) ?_ <;>
      simp [hnew.target]

/-- Insertion into a valid tree is `insertTree` on the tree in memory. -/
theorem ncRbtreeInsert_spec {node : Ptr} (h : Focused nodes t T []) (hT : T.Valid)
    (hnode : node ∉ T.toList) (hnew : t.IsNode nodes node) (hfuel : T.height < fuel) :
    ∃ t', ncRbtreeInsertIn nodes fuel t node = some t' ∧
      Focused nodes t' (insertTree (goesLeft t node) node T) [] ∧ Inserted nodes T t t' := by
  by_cases hnil : T = .nil
  · subst hnil
    exact ncRbtreeInsert_empty h hnew
  · obtain ⟨f, rest, hdescend, hsearch⟩ := insertSearch_spec h hnil hnew hfuel.le
    have hplug := plug_descend (goesLeft t node) T []
    rw [hdescend, plug_nil] at hplug
    have hperm : T.toList.Perm (values (f :: rest)) := by
      simpa [← hplug, ColorTree.toList] using plug_perm (ColorTree.nil : ColorTree Ptr) (f :: rest)
    have hempty : Focused nodes t .nil (f :: rest) := by
      rw [← List.append_nil (f :: rest)]
      exact focused_plug.mp (hplug ▸ h)
    obtain ⟨t₁, t₂, t₃, t₄, t₅, h₁, h₂, h₃, h₄, h₅, hfocus, hk⟩ :=
      attach_spec hempty (fun hm => hnode (hperm.mem_iff.mpr hm)) hnew
    obtain ⟨n, hn, hpath, -⟩ := unplug (hplug ▸ hT)
    cases hn
    have hlength : (f :: rest).length < fuel := by
      have := length_descend (goesLeft t node) T []
      rw [hdescend, List.length_nil] at this
      omega
    obtain ⟨t₆, hfix, h₆, hk₆⟩ := insertFixup_spec hfocus rfl hpath hlength
    obtain ⟨t₇, hblack, h₇, hk₇⟩ := h₆.blacken
    have hroot : t.root ≠ t.sentinel := by
      rw [h.root, plug_nil]
      exact mt h.ptr_eq_sentinel_iff.mp hnil
    have hk₇' := hk.trans (hk₆.trans hk₇)
    refine ⟨t₇, ?_, ?_, hk₇'.same, hk₇'.frame, fun hT => absurd hT hnil,
      fun _ => hk₇'.root_parent⟩
    · have hsearch' : insertSearchIn nodes t node fuel t.root = some (f.value, f.side) := by
        rw [h.root]
        exact hsearch
      have hblack' : t₆.setColorIn nodes t₆.root .black = some t₇ := by
        rw [h₆.root]
        exact hblack
      unfold ncRbtreeInsertIn
      rw [if_neg hroot]
      simp [hsearch', h₁, h₂, h₃, h₄, h₅, hblack',
        show insertFixupIn nodes fuel t₅ node = some t₆ from hfix]
    · unfold insertTree
      rw [hdescend]
      exact h₇

end Libnc.Rbtree
