import Libnc.Rbtree.Rotation

/-!
# The repair loop of the deletion

The loop computes `deleteFix` on the tree in memory.  The short subtree may be
the sentinel, whose parent link then leads to the node above.
-/

namespace Libnc.Rbtree

open Libnc.Foundation Path NcRbtree

variable {t t' : NcRbtree} {nodes : List Ptr} {T U near far a b : ColorTree Ptr}
variable {path path' : Path Ptr} {f : Frame Ptr}
variable {d : Side} {c : Color} {x w v : Ptr} {n fuel : Nat}

/-! ## The parent of the short subtree -/

/-- The parent link of the subtree leads to the node above, also if it is the sentinel. -/
def Parked (t : NcRbtree) (T : ColorTree Ptr) (path : Path Ptr) : Prop :=
  ∀ p ∈ above none path, t.parent (ptr t.sentinel T) = p

theorem parked_cons : Parked t T (f :: path) ↔ t.parent (ptr t.sentinel T) = f.value := by
  simp [Parked, above]

theorem Focused.parked (h : Focused nodes t T path) (hne : T ≠ .nil) : Parked t T path :=
  fun _ hp => h.focus.parent_ptr hne hp

theorem Parked.getParent (hpark : Parked t T (f :: path)) (h : Focused nodes t T (f :: path)) :
    t.followParentIn nodes (ptr t.sentinel T) = some f.value :=
  h.followParent (hpark _ rfl)

theorem Parked.kept (hpark : Parked t T path) (hk : Kept nodes t t') (h' : Focused nodes t' T path')
    (habove : above none path' = above none path) : Parked t' T path' := by
  by_cases hne : T = .nil
  · subst hne
    intro p hp
    rw [ptr_nil, hk.same.sentinel, hk.sentinel_parent]
    exact hpark p (habove ▸ hp)
  · exact h'.parked hne

/-! ## The cases of a round -/

theorem childrenBlack_spec (h : Focused nodes t (.join d c near w far) path) :
    childrenBlackIn nodes t w = some (!near.isRed && !far.isRed) := by
  have hnear : Focused nodes t near (⟨d, c, w, far⟩ :: path) := focused_fill.mp h
  have hcn := hnear.getColor
  have hcf := hnear.toSibling.getColor
  obtain ⟨hn, hf⟩ := h.getChild
  cases d with
  | left =>
      rw [Side.other] at hf
      cases hnr : near.isRed <;> cases hfr : far.isRed <;>
        simp_all [childrenBlackIn]
  | right =>
      rw [Side.other] at hf
      cases hnr : near.isRed <;> cases hfr : far.isRed <;>
        simp_all [childrenBlackIn]

theorem deleteFixupStep_redSibling
    (h : Focused nodes t T (⟨d, c, x, .join d .red near w far⟩ :: path)) :
    ∃ t₁ t₂ t', t.setColorIn nodes w .black = some t₁ ∧ t₁.setColorIn nodes x .red = some t₂ ∧
      rotateIn nodes d t₂ x = some t' ∧
      Focused nodes t' T (⟨d, .red, x, near⟩ :: ⟨d, .black, w, far⟩ :: path) ∧
      Kept nodes t t₁ ∧ Kept nodes t₁ t₂ ∧ Kept nodes t₂ t' ∧
      Focused nodes t₁ T (⟨d, c, x, .join d .black near w far⟩ :: path) ∧
      Focused nodes t₂ T (⟨d, .red, x, .join d .black near w far⟩ :: path) := by
  obtain ⟨t₁, hset₁, h₁, hk₁⟩ := Focused.blackenSibling (p := []) h
  rw [ptr_join] at hset₁
  rw [ColorTree.blacken_join] at h₁
  obtain ⟨t₂, hset₂, h₂, hk₂⟩ := Focused.recolorFrame (p := []) h₁ .red
  obtain ⟨t₃, hrot, h₃, hk₃⟩ := rotate_spec h₂.fill
  exact ⟨t₁, t₂, t₃, hset₁, hset₂, hrot, focused_fill.mp (focused_fill.mp h₃), hk₁, hk₂, hk₃,
    h₁, h₂⟩

theorem Focused.recolorSibling {e : Side}
    (h : Focused nodes t T (⟨d, c, x, .join e .black near w far⟩ :: path)) (c' : Color) :
    ∃ t', t.setColorIn nodes w c' = some t' ∧
      Focused nodes t' T (⟨d, c, x, .join e c' near w far⟩ :: path) ∧ Kept nodes t t' := by
  obtain ⟨hset, h'⟩ := h.toSibling.recolor c'
  refine ⟨_, hset, ?_, .putColor h.toSibling.isNode_join.target _⟩
  simpa using h'.toSibling

theorem deleteFixupBlack_turn
    (h : Focused nodes t T (⟨d, c, x, .join d .black near w far⟩ :: path))
    (hpark : Parked t T (⟨d, c, x, .join d .black near w far⟩ :: path)) :
    ∃ t₁ t₂ t₃ t', t.followParentIn nodes (ptr t.sentinel T) = some x ∧
      t.getColorIn nodes x = some c ∧
      t.setColorIn nodes w c = some t₁ ∧ t₁.followParentIn nodes (ptr t.sentinel T) = some x ∧
      t₁.setColorIn nodes x .black = some t₂ ∧
      t₂.getChildIn nodes d.other w = some (ptr t.sentinel far) ∧
      t₂.setColorIn nodes (ptr t.sentinel far) .black = some t₃ ∧
      t₃.followParentIn nodes (ptr t.sentinel T) = some x ∧ rotateIn nodes d t₃ x = some t' ∧
      Focused nodes t' (.join d c (.join d .black T x near) w far.blacken) path ∧
      Kept nodes t t' := by
  obtain ⟨t₁, hset₁, h₁, hk₁⟩ := h.recolorSibling c
  obtain ⟨t₂, hset₂, h₂, hk₂⟩ := Focused.recolorFrame (p := []) h₁ .black
  have hsib := h₂.toSibling
  have hfar := hsib.getChild.2
  have hnear : Focused nodes t₂ near (⟨d, c, w, far⟩ :: ⟨d.other, .black, x, T⟩ :: path) :=
    focused_fill.mp hsib
  obtain ⟨t₃, hset₃, h₃, hk₃⟩ := Focused.blackenSibling (p := []) hnear
  have h₃' : Focused nodes t₃ T (⟨d, .black, x, .join d c near w far.blacken⟩ :: path) := by
    simpa [Frame.fill] using h₃.fill.toSibling
  obtain ⟨t', hrot, h', hk'⟩ := rotate_spec h₃'.fill
  have hk₁₂ := hk₁.trans hk₂
  have hp₁ := (hpark.kept hk₁ h₁ rfl).getParent h₁
  have hp₃ := (hpark.kept (hk₁₂.trans hk₃) h₃' rfl).getParent h₃'
  rw [hk₁.same.sentinel] at hp₁
  rw [(hk₁₂.trans hk₃).same.sentinel] at hp₃
  rw [hk₁₂.same.sentinel] at hset₃ hfar
  exact ⟨t₁, t₂, t₃, t', hpark.getParent h, h.getColor_value, hset₁, hp₁, hset₂, hfar, hset₃,
    hp₃, hrot, h', (hk₁₂.trans hk₃).trans hk'⟩

theorem deleteFixupBlack_near
    (h : Focused nodes t T (⟨d, c, x, .join d .black (.join d .red a v b) w far⟩ :: path)) :
    ∃ t₁ t₂ t', t.setColorIn nodes v .black = some t₁ ∧ t₁.setColorIn nodes w .red = some t₂ ∧
      rotateIn nodes d.other t₂ w = some t' ∧
      Focused nodes t' T (⟨d, c, x, .join d .black a v (.join d .red b w far)⟩ :: path) ∧
      Kept nodes t t' := by
  have hnear : Focused nodes t (.join d .red a v b)
      (⟨d, .black, w, far⟩ :: ⟨d.other, c, x, T⟩ :: path) :=
    focused_fill.mp h.toSibling
  obtain ⟨hset₁, h₁⟩ := hnear.recolor .black
  obtain ⟨t₂, hset₂, h₂, hk₂⟩ := Focused.recolorFrame (p := []) h₁ .red
  have hturn := h₂.fill
  simp only [Frame.fill] at hturn
  rw [← ColorTree.join_other d .red far, ← ColorTree.join_other d .black b] at hturn
  obtain ⟨t₃, hrot, h₃, hk₃⟩ := rotate_spec hturn
  rw [ColorTree.join_other, ColorTree.join_other] at h₃
  refine ⟨_, t₂, t₃, hset₁, hset₂, hrot, ?_,
    (Kept.putColor hnear.isNode_join.target _).trans (hk₂.trans hk₃)⟩
  simpa using h₃.toSibling

theorem deleteFixupBlack_spec
    (h : Focused nodes t T (⟨d, c, x, .join d .black near w far⟩ :: path))
    (hpark : Parked t T (⟨d, c, x, .join d .black near w far⟩ :: path)) :
    (∃ t' s, siblingFix T ⟨d, c, x, .join d .black near w far⟩ = .inl (.join d c T x s) ∧
      deleteFixupBlackIn nodes d t (ptr t.sentinel T) w = some (t', x) ∧
      Focused nodes t' (.join d c T x s) path ∧ Kept nodes t t') ∨
    (∃ t' u, siblingFix T ⟨d, c, x, .join d .black near w far⟩ = .inr u ∧
      deleteFixupBlackIn nodes d t (ptr t.sentinel T) w = some (t', t'.root) ∧
      Focused nodes t' u path ∧
      Kept nodes t t') := by
  have hsib := h.toSibling
  have hboth := childrenBlack_spec hsib
  have hfar := (focused_fill (f := ⟨d, .black, w, far⟩)).mp hsib |>.toSibling.getColor
  have hchild := hsib.getChild
  by_cases hblack : near.isRed = false ∧ far.isRed = false
  · left
    obtain ⟨t₁, hset, h₁, hk⟩ := h.recolorSibling .red
    have hp := (hpark.kept hk h₁ rfl).getParent h₁
    rw [hk.same.sentinel] at hp
    refine ⟨t₁, .join d .red near w far, by simp [siblingFix, hblack], ?_, h₁.fill, hk⟩
    simp [deleteFixupBlackIn, hboth, hblack, hset, hp]
  · right
    have hboth' : childrenBlackIn nodes t w = some false := by
      rw [hboth]
      cases hn : near.isRed <;> cases hf : far.isRed <;> simp_all
    cases hfr : far.isRed with
    | true =>
        obtain ⟨t₁, t₂, t₃, t', hp, hc, hset₁, hp₁, hset₂, hf₂, hset₃, hp₃, hrot, h', hk⟩ :=
          deleteFixupBlack_turn h hpark
        refine ⟨t', _, by simp [siblingFix, hfr], ?_, h', hk⟩
        rw [hfr] at hfar
        simp [deleteFixupBlackIn, hboth', hchild, hfar, hp, hc, hset₁, hp₁, hset₂, hf₂, hset₃, hp₃,
          hrot]
    | false =>
        have hnr : near.isRed = true := by
          cases hn : near.isRed <;> simp_all
        obtain ⟨c', a, v, b, rfl⟩ :=
          ColorTree.exists_join_of_ne_nil (ColorTree.ne_nil_of_isRed hnr) d
        obtain rfl : c' = .red := by simpa using hnr
        obtain ⟨u₁, u₂, u, hu₁, hu₂, hturn, hu, hku⟩ := deleteFixupBlack_near h
        have hpark' := hpark.kept hku hu rfl
        obtain ⟨t₁, t₂, t₃, t', hp, hc, hset₁, hp₁, hset₂, hf₂, hset₃, hp₃, hrot, h', hk⟩ :=
          deleteFixupBlack_turn hu hpark'
        have hother := hu.getOther
        rw [hku.same.sentinel] at hp hp₁ hp₃
        rw [hfr] at hfar
        refine ⟨t', .join d c (.join d .black T x a) v (.join d .black b w far), ?_, ?_, ?_,
          hku.trans hk⟩
        · simp [siblingFix, hfr]
        · simp only [ptr_join] at hother hchild hset₃
          simp [deleteFixupBlackIn, hboth', hchild, hfar, hu₁, hu₂, hturn, hother, hp, hc, hset₁,
            hp₁, hset₂, hf₂, hset₃, hp₃, hrot]
        · simpa using h'

/-! ## The loop -/

theorem deleteFixup_stop (fuel : Nat) (h : Focused nodes t T path)
    (hstop : path = [] ∨ T.isRed = true) :
    ∃ t', deleteFixupIn nodes (fuel + 1) t (ptr t.sentinel T) = some t' ∧
      Focused nodes t' T.blacken path ∧
      Kept nodes t t' := by
  obtain ⟨t', hset, h', hk⟩ := h.blacken
  refine ⟨t', ?_, h', hk⟩
  rw [deleteFixupIn]
  split
  · exact hset
  · rename_i hroot
    have hred := hstop.resolve_left fun hnil => hroot (h.ptr_eq_root_iff.mpr hnil)
    simp [h.getColor, hred, hset]

theorem deleteFixup_step {u : NcRbtree} {node : Ptr} (h : Focused nodes t T (f :: path))
    (hpark : Parked t T (f :: path)) (hblack : T.isRed = false) (hsib : f.sibling ≠ .nil)
    (hstep : deleteFixupStepIn nodes f.side t (ptr t.sentinel T) = some (u, node)) :
    deleteFixupIn nodes (fuel + 1) t (ptr t.sentinel T) = deleteFixupIn nodes fuel u node := by
  obtain ⟨q, hq, hside⟩ := h.side_eq (.inr hsib)
  rw [deleteFixupIn, if_neg h.ptr_ne_root]
  simp [h.getColor, hblack, hpark.getParent h, hq, hside, hstep]

theorem deleteFixupStep_black (h : Focused nodes t T (⟨d, c, x, .join d .black near w far⟩ :: path))
    (hpark : Parked t T (⟨d, c, x, .join d .black near w far⟩ :: path)) :
    deleteFixupStepIn nodes d t (ptr t.sentinel T) =
      deleteFixupBlackIn nodes d t (ptr t.sentinel T) w := by
  have hother := h.getOther
  have hcolor := h.toSibling.getColor
  simp only [ptr_join, ColorTree.isRed_join] at hother hcolor
  simp [deleteFixupStepIn, hpark.getParent h, hother, hcolor]

/-- A round under a red sibling first brings a black one there. -/
theorem deleteFixupStep_red {e : Side} {c' : Color} {y : Ptr}
    (h : Focused nodes t T (⟨d, c, x, .join d .red near w far⟩ :: path))
    (hpark : Parked t T (⟨d, c, x, .join d .red near w far⟩ :: path))
    (hnear : near = .join e c' a y b) :
    ∃ u, deleteFixupStepIn nodes d t (ptr t.sentinel T) =
        deleteFixupBlackIn nodes d u (ptr u.sentinel T) y ∧
      Focused nodes u T (⟨d, .red, x, near⟩ :: ⟨d, .black, w, far⟩ :: path) ∧
      Parked u T (⟨d, .red, x, near⟩ :: ⟨d, .black, w, far⟩ :: path) ∧ Kept nodes t u := by
  obtain ⟨t₁, t₂, u, hset₁, hset₂, hrot, hu, hk₁, hk₂, hk₃, h₁, h₂⟩ := deleteFixupStep_redSibling h
  have hk := (hk₁.trans hk₂).trans hk₃
  have hpark' := hpark.kept hk hu rfl
  have hp₁ := (hpark.kept hk₁ h₁ rfl).getParent h₁
  have hp₂ := (hpark.kept (hk₁.trans hk₂) h₂ rfl).getParent h₂
  have hp₃ := hpark'.getParent hu
  have hother := h.getOther
  have hother' := hu.getOther
  have hcolor := h.toSibling.getColor
  rw [hk₁.same.sentinel] at hp₁
  rw [(hk₁.trans hk₂).same.sentinel] at hp₂
  refine ⟨u, ?_, hu, hpark', hk⟩
  rw [hk.same.sentinel] at hp₃ ⊢
  simp only [ptr_join, ColorTree.isRed_join, hnear] at hother hcolor hother'
  simp [deleteFixupStepIn, hpark.getParent h, hother, hcolor, hset₁, hp₁, hset₂, hp₂, hrot, hp₃,
    hother']

theorem plug_focused (h : Focused nodes t T path) : Focused nodes t (plug T path) [] :=
  focused_plug.mpr (by simpa using h)

theorem deleteFixup_root (fuel : Nat) (h : Focused nodes t T path) :
    ∃ t', deleteFixupIn nodes (fuel + 1) t t.root = some t' ∧
      Focused nodes t' (plug T path).blacken [] ∧ Kept nodes t t' := by
  rw [h.root]
  exact deleteFixup_stop fuel (plug_focused h) (.inl rfl)

theorem deleteFixup_redSibling
    (h : Focused nodes t T (⟨d, c, x, .join d .red near w far⟩ :: path))
    (hpark : Parked t T (⟨d, c, x, .join d .red near w far⟩ :: path)) (hred : T.isRed = false)
    (hs : (ColorTree.join d .red near w far).Balanced (n + 1)) (fuel : Nat) :
    ∃ t', deleteFixupIn nodes (fuel + 2) t (ptr t.sentinel T) = some t' ∧
      Focused nodes t' (deleteFix T (⟨d, c, x, .join d .red near w far⟩ :: path)) [] ∧
      Kept nodes t t' := by
  obtain ⟨hnear, -, hnear', -⟩ := ColorTree.balanced_join_red.mp hs
  obtain ⟨c', a, y, b, rfl⟩ := ColorTree.exists_join_of_ne_nil hnear.ne_nil d
  obtain rfl : c' = .black := by cases c' <;> simp_all
  obtain ⟨u, hstep, hu, hpark', hku⟩ := deleteFixupStep_red h hpark rfl
  rcases deleteFixupBlack_spec hu hpark' with
    ⟨t₁, s, hv, hrun, h₁, hk₁⟩ | ⟨t₁, v, hv, hrun, h₁, hk₁⟩
  · obtain ⟨t', hrun', h', hk'⟩ := deleteFixup_stop fuel h₁ (.inr (by simp))
    rw [ptr_join] at hrun'
    rw [hku.same.sentinel] at hrun hstep
    refine ⟨t', ?_, ?_, hku.trans (hk₁.trans hk')⟩
    · rw [deleteFixup_step h hpark hred (by simp) (hstep.trans hrun), hrun']
    · simp only [deleteFix, hred, Bool.false_eq_true, if_false, ColorTree.split_join, hv]
      exact plug_focused h'
  · obtain ⟨t', hrun', h', hk'⟩ := deleteFixup_root fuel h₁
    rw [hku.same.sentinel] at hrun hstep
    refine ⟨t', ?_, ?_, hku.trans (hk₁.trans hk')⟩
    · rw [deleteFixup_step h hpark hred (by simp) (hstep.trans hrun), hrun']
    · simpa only [deleteFix, hred, Bool.false_eq_true, if_false, ColorTree.split_join, hv] using h'

/-- The loop computes `deleteFix`; only under a black sibling it may go on further up. -/
theorem deleteFixup_spec (h : Focused nodes t T path) (hpark : Parked t T path)
    (hpath : path.Balanced (n + 1)) (hT : T.Short n) (hfuel : path.length < fuel) :
    ∃ t', deleteFixupIn nodes fuel t (ptr t.sentinel T) = some t' ∧
      Focused nodes t' (deleteFix T path) [] ∧ Kept nodes t t' := by
  induction path generalizing t T n fuel with
  | nil =>
      obtain ⟨fuel, rfl⟩ := Nat.exists_eq_succ_of_ne_zero (Nat.ne_zero_of_lt hfuel)
      exact deleteFixup_stop fuel h (.inl rfl)
  | cons f path ih =>
      simp only [List.length_cons] at hfuel
      obtain ⟨fuel, rfl⟩ : ∃ k, fuel = k + 2 := ⟨fuel - 2, by omega⟩
      cases hred : T.isRed with
      | true =>
          obtain ⟨t', hrun, h', hk⟩ := deleteFixup_stop (fuel + 1) h (.inr hred)
          refine ⟨t', hrun, ?_, hk⟩
          unfold deleteFix
          rw [if_pos hred]
          exact plug_focused h'
      | false =>
          obtain ⟨hs, -, -⟩ := hpath.frame
          have hT' : T.Balanced n := by simpa [ColorTree.Short, hred] using hT
          obtain ⟨d, c, x, s⟩ := f
          obtain ⟨c', near, w, far, rfl⟩ := ColorTree.exists_join_of_ne_nil hs.ne_nil d
          cases c' with
          | red => exact deleteFixup_redSibling h hpark hred hs fuel
          | black =>
              have hstep := deleteFixupStep_black h hpark
              rcases deleteFixupBlack_spec h hpark with
                ⟨t₁, s, hv, hrun, h₁, hk₁⟩ | ⟨t₁, v, hv, hrun, h₁, hk₁⟩
              · obtain ⟨m, hshort, hrest⟩ := siblingFix_short hT' hpath (by simp) hv
                obtain ⟨t', hrun', h', hk'⟩ :=
                  ih h₁ (h₁.parked (by simp)) hrest hshort (by omega : path.length < fuel + 1)
                rw [ptr_join] at hrun'
                refine ⟨t', ?_, ?_, hk₁.trans hk'⟩
                · rw [deleteFixup_step h hpark hred (by simp) (hstep.trans hrun), hrun']
                · simpa only [deleteFix, hred, Bool.false_eq_true, if_false,
                    ColorTree.split_join, hv] using h'
              · obtain ⟨t', hrun', h', hk'⟩ := deleteFixup_root fuel h₁
                refine ⟨t', ?_, ?_, hk₁.trans hk'⟩
                · rw [deleteFixup_step h hpark hred (by simp) (hstep.trans hrun), hrun']
                · simpa only [deleteFix, hred, Bool.false_eq_true, if_false,
                    ColorTree.split_join, hv] using h'

end Libnc.Rbtree
