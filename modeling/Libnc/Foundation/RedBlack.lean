import Mathlib.Algebra.Group.Nat.Defs
import Mathlib.Data.Nat.Log
import Libnc.Foundation.Zipper

/-!
# Red-black rebalancing on trees with a hole

The two bottom-up repairs of red-black trees.  `insertFix` starts with a red
subtree whose parent may be red, `deleteFix` with a subtree that is one black
node short.  Both keep the order of the values and end in a balanced tree.
-/

namespace Libnc.Foundation

open Libnc.Foundation.Path

variable {α : Type*}

/-! ## Balance -/

/-- No red node has a red child, and every way down passes `n` black nodes. -/
inductive ColorTree.Balanced : ColorTree α → Nat → Prop where
  | nil : Balanced .nil 0
  | red {l r : ColorTree α} {x : α} {n : Nat} (left : Balanced l n) (right : Balanced r n)
      (left_black : l.isRed = false) (right_black : r.isRed = false) :
      Balanced (.node .red l x r) n
  | black {l r : ColorTree α} {x : α} {n : Nat} (left : Balanced l n) (right : Balanced r n) :
      Balanced (.node .black l x r) (n + 1)

/-- A balanced tree with a black root. -/
structure ColorTree.Valid (t : ColorTree α) : Prop where
  root_black : t.isRed = false
  balanced : ∃ n, t.Balanced n

def Path.TopBlack (path : Path α) : Prop := ∃ f rest, path = f :: rest ∧ f.color = .black

/-- A hole in which a balanced tree of black height `n` with a black root is missing. -/
inductive Path.Balanced : Path α → Nat → Prop where
  | nil {n : Nat} : Balanced [] n
  | red {d : Side} {x : α} {s : ColorTree α} {path : Path α} {n : Nat} (sibling : s.Balanced n)
      (sibling_black : s.isRed = false) (rest : Balanced path n) (top : TopBlack path) :
      Balanced (⟨d, .red, x, s⟩ :: path) n
  | black {d : Side} {x : α} {s : ColorTree α} {path : Path α} {n : Nat} (sibling : s.Balanced n)
      (rest : Balanced path (n + 1)) : Balanced (⟨d, .black, x, s⟩ :: path) n

namespace ColorTree

variable {d : Side} {a b t : ColorTree α} {x : α} {n : Nat}

theorem balanced_join_red : (join d .red a x b).Balanced n ↔
    a.Balanced n ∧ b.Balanced n ∧ a.isRed = false ∧ b.isRed = false := by
  constructor
  · intro h
    cases d <;> cases h <;> simp_all
  · rintro ⟨ha, hb, ha', hb'⟩
    cases d
    · exact .red ha hb ha' hb'
    · exact .red hb ha hb' ha'

theorem balanced_join_black : (join d .black a x b).Balanced n ↔
    ∃ m, n = m + 1 ∧ a.Balanced m ∧ b.Balanced m := by
  constructor
  · intro h
    cases d <;> cases h <;> simp_all
  · rintro ⟨m, rfl, ha, hb⟩
    cases d
    · exact .black ha hb
    · exact .black hb ha

theorem Balanced.join_black (ha : a.Balanced n) (hb : b.Balanced n) :
    (join d .black a x b).Balanced (n + 1) :=
  balanced_join_black.mpr ⟨n, rfl, ha, hb⟩

theorem Balanced.join_red (ha : a.Balanced n) (hb : b.Balanced n) (ha' : a.isRed = false)
    (hb' : b.isRed = false) : (join d .red a x b).Balanced n :=
  balanced_join_red.mpr ⟨ha, hb, ha', hb'⟩

theorem Balanced.blacken_of_red (h : t.Balanced n) (hred : t.isRed = true) :
    t.blacken.Balanced (n + 1) := by
  cases h with
  | nil => simp at hred
  | red left right _ _ => exact .black left right
  | black _ _ => simp at hred

theorem Balanced.exists_blacken (h : t.Balanced n) : ∃ m, t.blacken.Balanced m := by
  cases hred : t.isRed with
  | true => exact ⟨_, h.blacken_of_red hred⟩
  | false => exact ⟨n, by rwa [blacken_of_not_red hred]⟩

theorem Valid.blacken (h : t.Valid) : t.blacken.Valid := by
  rwa [blacken_of_not_red h.root_black]

theorem Balanced.ne_nil (h : t.Balanced (n + 1)) : t ≠ .nil := by
  rintro rfl
  cases h

/-! ## Height -/

theorem Balanced.two_pow_le (h : t.Balanced n) : 2 ^ n ≤ t.toList.length + 1 := by
  induction h with
  | nil => simp [toList]
  | red _ _ _ _ ihl ihr =>
      simp only [toList, List.length_append, List.length_cons]
      omega
  | black _ _ ihl ihr =>
      simp only [toList, List.length_append, List.length_cons, Nat.pow_succ]
      omega

theorem Balanced.height_le (h : t.Balanced n) :
    t.height ≤ 2 * n + if t.isRed then 1 else 0 := by
  induction h with
  | nil => simp [height]
  | red _ _ hl hr ihl ihr =>
      simp only [hl, hr, height, isRed_node] at ihl ihr ⊢
      simp only [beq_self_eq_true, if_true]
      have : max _ _ ≤ 2 * _ := max_le ihl ihr
      omega
  | @black l r _ n _ _ ihl ihr =>
      simp only [height]
      have hl : l.height ≤ 2 * n + 1 := ihl.trans (by split <;> omega)
      have hr : r.height ≤ 2 * n + 1 := ihr.trans (by split <;> omega)
      have := max_le hl hr
      omega

theorem Valid.height_le (h : t.Valid) : t.height ≤ 2 * Nat.log 2 (t.toList.length + 1) := by
  obtain ⟨n, hn⟩ := h.balanced
  have hheight := hn.height_le
  have hlog := Nat.le_log_of_pow_le (by decide) hn.two_pow_le
  simp only [h.root_black, Bool.false_eq_true, if_false] at hheight
  omega

end ColorTree

/-! ## Plugging and unplugging -/

namespace Path

variable {t : ColorTree α} {path : Path α} {n : Nat}

theorem TopBlack.ne_nil (h : path.TopBlack) : path ≠ [] := by
  obtain ⟨f, rest, rfl, -⟩ := h
  simp

theorem TopBlack.head {f : Frame α} (h : TopBlack (f :: path)) : f.color = .black := by
  obtain ⟨g, rest, heq, hg⟩ := h
  cases heq
  exact hg

theorem Balanced.plug_valid (hp : path.Balanced n) (ht : t.Balanced n)
    (hred : t.isRed = true → path.TopBlack) : (plug t path).Valid := by
  induction hp generalizing t with
  | nil =>
      refine ⟨?_, _, ht⟩
      by_contra h
      exact (hred (by simpa using h)).ne_nil rfl
  | @red d x s path n hs hs' _ top ih =>
      have hblack : t.isRed = false := by
        by_contra h
        have := (hred (by simpa using h)).head
        cases this
      exact ih (ht.join_red hs hblack hs') fun _ => top
  | black hs _ ih =>
      refine ih (ht.join_black hs) ?_
      simp [Frame.fill]

/-- The part of a valid tree below a hole, and the hole. -/
theorem unplug (h : (plug t path).Valid) :
    ∃ n, t.Balanced n ∧ path.Balanced n ∧ (t.isRed = true → path.TopBlack) := by
  induction path generalizing t with
  | nil =>
      obtain ⟨n, hn⟩ := h.balanced
      refine ⟨n, hn, .nil, fun hred => ?_⟩
      rw [show t.isRed = false from h.root_black] at hred
      exact Bool.noConfusion hred
  | cons f path ih =>
      obtain ⟨n, hfill, hpath, htop⟩ := ih h
      obtain ⟨d, c, x, s⟩ := f
      cases c with
      | red =>
          obtain ⟨ht, hs, ht', hs'⟩ := ColorTree.balanced_join_red.mp hfill
          refine ⟨n, ht, .red hs hs' hpath (htop (by simp [Frame.fill])), fun hred => ?_⟩
          rw [ht'] at hred
          exact Bool.noConfusion hred
      | black =>
          obtain ⟨m, rfl, ht, hs⟩ := ColorTree.balanced_join_black.mp hfill
          exact ⟨m, ht, .black hs hpath, fun _ => ⟨_, _, rfl, rfl⟩⟩

theorem Balanced.color_of_single {f : Frame α} (h : Path.Balanced [f] n) : f.color = .black := by
  cases h with
  | red _ _ _ top => exact absurd rfl top.ne_nil
  | black _ _ => rfl

end Path

theorem Path.Balanced.frame {f : Frame α} {path : Path α} {n : Nat}
    (h : Path.Balanced (f :: path) n) :
    f.sibling.Balanced n ∧ path.Balanced (if f.color = .red then n else n + 1) ∧
      (f.color = .red → f.sibling.isRed = false ∧ path.TopBlack) := by
  cases h with
  | red hs hs' rest top => exact ⟨hs, rest, fun _ => ⟨hs', top⟩⟩
  | black hs rest => exact ⟨hs, rest, by simp⟩

theorem Path.Balanced.of_red_parent {p g : Frame α} {path : Path α} {n : Nat}
    (h : Path.Balanced (p :: g :: path) n) (hp : p.color ≠ .black) :
    p.sibling.Balanced n ∧ p.sibling.isRed = false ∧ g.color = .black ∧
      g.sibling.Balanced n ∧ path.Balanced (n + 1) := by
  cases h with
  | black _ _ => exact absurd rfl hp
  | red hs hs' rest top =>
      have hg := top.head
      cases rest with
      | red _ _ _ _ => cases hg
      | black hu hpath => exact ⟨hs, hs', rfl, hu, hpath⟩

/-! ## Repair after an insertion -/

/-- The rotations under a black uncle: the red subtree `t` hangs under `p`, and that under `g`. -/
def insertRotate (t : ColorTree α) (p g : Frame α) : ColorTree α :=
  if p.side = g.side then
    .join g.side .black t p.value (.join g.side .red p.sibling g.value g.sibling)
  else
    match t.split g.side with
    | none => g.fill (p.fill t)
    | some (_, a, x, b) =>
        .join g.side .black (.join g.side .red p.sibling p.value a) x
          (.join g.side .red b g.value g.sibling)

def insertFix : ColorTree α → Path α → ColorTree α
  | t, [] => t
  | t, [p] => p.fill t
  | t, p :: g :: path =>
      if p.color = .black then plug t (p :: g :: path)
      else if g.sibling.isRed then
        insertFix (.join g.side .red (.join p.side .black t p.value p.sibling) g.value
          g.sibling.blacken) path
      else plug (insertRotate t p g) path

theorem toList_insertRotate (t : ColorTree α) (p g : Frame α) :
    (insertRotate t p g).toList = (g.fill (p.fill t)).toList := by
  unfold insertRotate
  split
  · rename_i hside
    rw [Frame.fill, Frame.fill, hside]
    exact (ColorTree.toList_rotate _ _ _ _ _ _ _ _ _ _).symm
  · rename_i hside
    split
    · rfl
    · rename_i c a x b hsplit
      obtain rfl := ColorTree.eq_join_of_split hsplit
      rw [Frame.fill, Frame.fill, Side.eq_other_of_ne hside]
      cases g.side <;> simp [ColorTree.join, ColorTree.toList, Side.other]

theorem toList_insertFix (t : ColorTree α) (path : Path α) :
    (insertFix t path).toList = (plug t path).toList := by
  induction t, path using insertFix.induct with
  | case1 t => rfl
  | case2 t p => rfl
  | case3 t p g path hblack => rw [insertFix, if_pos hblack]
  | case4 t p g path hred huncle ih =>
      unfold insertFix
      rw [if_neg hred, if_pos huncle, ih, plug_cons, plug_cons]
      refine toList_plug_congr (ColorTree.toList_join_congr ?_ (by simp) _ _ _ _) path
      exact ColorTree.toList_join_color _ _ _ _ _ _
  | case5 t p g path hred huncle =>
      unfold insertFix
      rw [if_neg hred, if_neg huncle, plug_cons, plug_cons]
      exact toList_plug_congr (toList_insertRotate t p g) path

/-- Under a black uncle the rotations end the repair. -/
theorem balanced_insertRotate {t : ColorTree α} {p g : Frame α} {n : Nat} (ht : t.Balanced n)
    (hred : t.isRed = true) (hs : p.sibling.Balanced n) (hs' : p.sibling.isRed = false)
    (hu : g.sibling.Balanced n) (hu' : g.sibling.isRed = false) :
    (insertRotate t p g).Balanced (n + 1) ∧ (insertRotate t p g).isRed = false := by
  unfold insertRotate
  split
  · exact ⟨ht.join_black (hs.join_red hu hs' hu'), by simp⟩
  · split
    · rename_i hsplit
      simp [ColorTree.eq_nil_of_split hsplit] at hred
    · rename_i c a x b hsplit
      obtain rfl := ColorTree.eq_join_of_split hsplit
      obtain rfl : c = .red := by simpa using hred
      obtain ⟨ha, hb, ha', hb'⟩ := ColorTree.balanced_join_red.mp ht
      exact ⟨(hs.join_red ha hs' ha').join_black (hb.join_red hu hb' hu'), by simp⟩

theorem valid_insertFix {t : ColorTree α} {path : Path α} {n : Nat} (ht : t.Balanced n)
    (hred : t.isRed = true) (hpath : path.Balanced n) : (insertFix t path).blacken.Valid := by
  induction t, path using insertFix.induct generalizing n with
  | case1 t => exact ⟨by simp, ht.exists_blacken⟩
  | case2 t p =>
      have hblack := hpath.color_of_single
      have hvalid := hpath.plug_valid ht fun _ => ⟨p, [], rfl, hblack⟩
      exact hvalid.blacken
  | case3 t p g path hblack =>
      unfold insertFix
      rw [if_pos hblack]
      exact (hpath.plug_valid ht fun _ => ⟨p, _, rfl, hblack⟩).blacken
  | case4 t p g path hp huncle ih =>
      obtain ⟨hs, hs', -, hu, hrest⟩ := hpath.of_red_parent hp
      unfold insertFix
      rw [if_neg hp, if_pos huncle]
      refine ih ?_ (by simp) hrest
      exact (ht.join_black hs).join_red (hu.blacken_of_red huncle) (by simp) (by simp)
  | case5 t p g path hp huncle =>
      obtain ⟨hs, hs', -, hu, hrest⟩ := hpath.of_red_parent hp
      obtain ⟨hrot, hblack⟩ := balanced_insertRotate ht hred hs hs' hu (by simpa using huncle)
      unfold insertFix
      rw [if_neg hp, if_neg huncle]
      exact (hrest.plug_valid hrot (by simp [hblack])).blacken

/-! ## Repair after a deletion -/

/--
The subtree `t` below `f` is one black node short and its sibling is black.
Either the sibling turns red and the whole subtree is short, or it is repaired.
-/
def siblingFix (t : ColorTree α) (f : Frame α) : ColorTree α ⊕ ColorTree α :=
  match f.sibling.split f.side with
  | none => .inr (f.fill t)
  | some (_, near, w, far) =>
      if near.isRed = false ∧ far.isRed = false then
        .inl (.join f.side f.color t f.value (.join f.side .red near w far))
      else if far.isRed then
        .inr (.join f.side f.color (.join f.side .black t f.value near) w far.blacken)
      else
        match near.split f.side with
        | none => .inr (f.fill t)
        | some (_, a, v, b) =>
            .inr (.join f.side f.color (.join f.side .black t f.value a) v
              (.join f.side .black b w far))

def deleteFix : ColorTree α → Path α → ColorTree α
  | t, [] => t.blacken
  | t, f :: path =>
      if t.isRed then plug t.blacken (f :: path)
      else
        match f.sibling.split f.side with
        | some (.red, near, w, far) =>
            match siblingFix t ⟨f.side, .red, f.value, near⟩ with
            | .inl u => plug u.blacken (⟨f.side, .black, w, far⟩ :: path)
            | .inr u => (plug u (⟨f.side, .black, w, far⟩ :: path)).blacken
        | _ =>
            match siblingFix t f with
            | .inl u => deleteFix u path
            | .inr u => (plug u path).blacken

theorem toList_siblingFix (t : ColorTree α) (f : Frame α) :
    (siblingFix t f).elim ColorTree.toList ColorTree.toList = (f.fill t).toList := by
  obtain ⟨d, c, x, s⟩ := f
  unfold siblingFix
  split
  · rfl
  · rename_i c' near w far hsplit
    obtain rfl : s = .join d c' near w far := ColorTree.eq_join_of_split hsplit
    split
    · exact ColorTree.toList_join_congr rfl (ColorTree.toList_join_color _ _ _ _ _ _) _ _ _ _
    · split
      · unfold Frame.fill
        rw [← ColorTree.toList_rotate d c .black c c']
        exact ColorTree.toList_join_congr rfl (by simp) _ _ _ _
      · split
        · rfl
        · rename_i c'' a v b hsplit'
          obtain rfl : near = .join d c'' a v b := ColorTree.eq_join_of_split hsplit'
          cases d <;> simp [Frame.fill, ColorTree.join, ColorTree.toList]

theorem toList_deleteFix (t : ColorTree α) (path : Path α) :
    (deleteFix t path).toList = (plug t path).toList := by
  induction path generalizing t with
  | nil => simp [deleteFix]
  | cons f path ih =>
      unfold deleteFix
      split
      · exact toList_plug_congr (ColorTree.toList_blacken t) _
      · split
        · rename_i near w far hsplit
          have hfill : (plug t (⟨f.side, .red, f.value, near⟩ ::
              ⟨f.side, .black, w, far⟩ :: path)).toList = (plug t (f :: path)).toList := by
            obtain ⟨d, c, x, s⟩ := f
            obtain rfl : s = .join d .red near w far := ColorTree.eq_join_of_split hsplit
            exact toList_plug_congr (ColorTree.toList_rotate d _ _ _ _ _ _ _ _ _) path
          have hsib := toList_siblingFix t ⟨f.side, .red, f.value, near⟩
          rw [← hfill, plug_cons]
          split
          · rename_i u hu
            rw [hu] at hsib
            exact toList_plug_congr ((ColorTree.toList_blacken u).trans hsib) _
          · rename_i u hu
            rw [hu] at hsib
            rw [ColorTree.toList_blacken]
            exact toList_plug_congr hsib _
        · have hsib := toList_siblingFix t f
          rw [plug_cons]
          split
          · rename_i u hu
            rw [hu] at hsib
            rw [ih]
            exact toList_plug_congr hsib path
          · rename_i u hu
            rw [hu] at hsib
            rw [ColorTree.toList_blacken]
            exact toList_plug_congr hsib path

/-- With one black node less than its place wants, unless a red root can turn black. -/
def ColorTree.Short (t : ColorTree α) (n : Nat) : Prop :=
  if t.isRed then t.blacken.Balanced (n + 1) else t.Balanced n

theorem ColorTree.Balanced.short {t : ColorTree α} {n : Nat} (h : t.Balanced n) : t.Short n := by
  unfold ColorTree.Short
  split
  · rename_i hred
    exact h.blacken_of_red hred
  · exact h

/-- What `siblingFix` achieves under a balanced black sibling. -/
theorem siblingFix_balanced {t : ColorTree α} {f : Frame α} {n : Nat} (ht : t.Balanced n)
    (hs : f.sibling.Balanced (n + 1))
    (hs' : f.sibling.isRed = false) :
    (∃ u, siblingFix t f = .inl u ∧ u.isRed = (f.color == .red) ∧ u.blacken.Balanced (n + 1)) ∨
    (∃ u, siblingFix t f = .inr u ∧ u.isRed = (f.color == .red) ∧
      u.Balanced (if f.color = .red then n + 1 else n + 2)) := by
  obtain ⟨d, c, x, s⟩ := f
  have hcolor : ∀ {a b : ColorTree α} {y : α}, a.Balanced (n + 1) → b.Balanced (n + 1) →
      a.isRed = false → b.isRed = false →
      (ColorTree.join d c a y b).Balanced (if c = .red then n + 1 else n + 2) := by
    intro a b y ha hb ha' hb'
    cases c
    · exact ha.join_red hb ha' hb'
    · exact ha.join_black hb
  unfold siblingFix
  split
  · rename_i hsplit
    exact absurd (ColorTree.eq_nil_of_split hsplit) hs.ne_nil
  · rename_i c' near w far hsplit
    obtain rfl : s = .join d c' near w far := ColorTree.eq_join_of_split hsplit
    obtain rfl : c' = .black := by cases c' <;> simp_all
    obtain ⟨m, hm, hnear, hfar⟩ := ColorTree.balanced_join_black.mp hs
    obtain rfl : n = m := by omega
    split
    · rename_i hboth
      refine .inl ⟨_, rfl, by simp, ?_⟩
      rw [ColorTree.blacken_join]
      exact ht.join_black (hnear.join_red hfar hboth.1 hboth.2)
    · rename_i hboth
      split
      · rename_i hred
        exact .inr ⟨_, rfl, by simp, hcolor (ht.join_black hnear) (hfar.blacken_of_red hred)
          (by simp) (by simp)⟩
      · rename_i hred
        split
        · rename_i hsplit'
          obtain rfl := ColorTree.eq_nil_of_split hsplit'
          simp_all
        · rename_i c'' a v b hsplit'
          obtain rfl : near = .join d c'' a v b := ColorTree.eq_join_of_split hsplit'
          obtain rfl : c'' = .red := by cases c'' <;> simp_all
          obtain ⟨ha, hb, -, -⟩ := ColorTree.balanced_join_red.mp hnear
          exact .inr ⟨_, rfl, by simp, hcolor (ht.join_black ha) (hb.join_black hfar)
            (by simp) (by simp)⟩

theorem siblingFix_short {t u : ColorTree α} {f : Frame α} {path : Path α} {n : Nat}
    (ht : t.Balanced n) (hpath : Path.Balanced (f :: path) (n + 1))
    (hs : f.sibling.isRed = false) (hu : siblingFix t f = .inl u) :
    ∃ m, u.Short m ∧ path.Balanced (m + 1) := by
  obtain ⟨hsib, hrest, -⟩ := hpath.frame
  rcases siblingFix_balanced ht hsib hs with ⟨v, hv, hcolor, hbal⟩ | ⟨v, hv, -⟩
  · obtain rfl : u = v := Sum.inl.inj (hu.symm.trans hv)
    cases hf : f.color with
    | red =>
        rw [hf, if_pos rfl] at hrest
        exact ⟨n, by simpa [ColorTree.Short, hcolor, hf] using hbal, hrest⟩
    | black =>
        rw [hf, if_neg (by decide)] at hrest
        rw [ColorTree.blacken_of_not_red (by simp [hcolor, hf])] at hbal
        exact ⟨n + 1, hbal.short, hrest⟩
  · simp [hu] at hv

theorem valid_deleteFix {t : ColorTree α} {path : Path α} {n : Nat} (ht : t.Short n)
    (hpath : path.Balanced (n + 1)) : (deleteFix t path).Valid := by
  induction path generalizing t n with
  | nil =>
      unfold ColorTree.Short at ht
      refine ⟨by simp [deleteFix], ?_⟩
      split at ht
      · exact ⟨_, ht⟩
      · exact ht.exists_blacken
  | cons f path ih =>
      obtain ⟨hs, hrest, hcolor⟩ := hpath.frame
      unfold ColorTree.Short at ht
      unfold deleteFix
      split at ht
      · rename_i hred
        rw [if_pos hred]
        exact hpath.plug_valid ht (by simp)
      · rename_i hred
        rw [if_neg hred]
        split
        · rename_i near w far hsplit
          obtain ⟨hnear, hfar, hnear', -⟩ :=
            ColorTree.balanced_join_red.mp (ColorTree.eq_join_of_split hsplit ▸ hs)
          have hf : f.color ≠ .red := fun hf => by
            have := (hcolor hf).1
            simp [ColorTree.eq_join_of_split hsplit] at this
          rw [if_neg hf] at hrest
          have hpath' : Path.Balanced (⟨f.side, .black, w, far⟩ :: path) (n + 1) :=
            .black hfar hrest
          rcases siblingFix_balanced (f := ⟨f.side, .red, f.value, near⟩) ht hnear hnear'
            with ⟨u, hu, -, hbal⟩ | ⟨u, hu, -, hbal⟩
          · rw [hu]
            exact hpath'.plug_valid hbal (by simp)
          · rw [hu]
            exact (hpath'.plug_valid hbal fun _ => ⟨_, _, rfl, rfl⟩).blacken
        · rename_i hnot
          have hs' : f.sibling.isRed = false := by
            cases hsplit : f.sibling.split f.side with
            | none => rw [ColorTree.eq_nil_of_split hsplit]; rfl
            | some parts =>
                obtain ⟨c, near, w, far⟩ := parts
                cases c with
                | red => exact absurd hsplit (hnot near w far)
                | black => rw [ColorTree.eq_join_of_split hsplit]; simp
          rcases siblingFix_balanced ht hs hs' with ⟨u, hu, -⟩ | ⟨u, hu, hcu, hbal⟩
          · rw [hu]
            obtain ⟨m, hu', hrest'⟩ := siblingFix_short ht hpath hs' hu
            exact ih hu' hrest'
          · rw [hu]
            have hvalid : (plug u path).Valid := by
              cases hf : f.color with
              | red =>
                  simp only [hf, if_true] at hrest hbal
                  exact hrest.plug_valid hbal fun _ => (hcolor hf).2
              | black =>
                  simp only [hf, reduceCtorEq, if_false] at hrest hbal
                  exact hrest.plug_valid hbal (by simp [hcu, hf])
            exact hvalid.blacken

/-! ## Insertion -/

/-- The empty place that the search reaches. -/
def descend (goLeft : α → Bool) : ColorTree α → Path α → Path α
  | .nil, path => path
  | .node c l x r, path =>
      if goLeft x then descend goLeft l (⟨.left, c, x, r⟩ :: path)
      else descend goLeft r (⟨.right, c, x, l⟩ :: path)

def insertTree (goLeft : α → Bool) (x : α) (t : ColorTree α) : ColorTree α :=
  (insertFix (.node .red .nil x .nil) (descend goLeft t [])).blacken

theorem plug_descend (goLeft : α → Bool) (t : ColorTree α) (path : Path α) :
    plug .nil (descend goLeft t path) = plug t path := by
  induction t generalizing path with
  | nil => rfl
  | node c l x r ihl ihr =>
      unfold descend
      split
      · exact ihl _
      · exact ihr _

theorem length_descend (goLeft : α → Bool) (t : ColorTree α) (path : Path α) :
    (descend goLeft t path).length ≤ t.height + path.length := by
  induction t generalizing path with
  | nil => simp [descend, ColorTree.height]
  | node c l x r ihl ihr =>
      have hl := ihl (⟨.left, c, x, r⟩ :: path)
      have hr := ihr (⟨.right, c, x, l⟩ :: path)
      simp only [List.length_cons] at hl hr
      unfold descend
      rw [ColorTree.height]
      split <;> omega

theorem descend_congr {goLeft goLeft' : α → Bool} {t : ColorTree α}
    (h : ∀ x ∈ t.toList, goLeft' x = goLeft x) (path : Path α) :
    descend goLeft' t path = descend goLeft t path := by
  induction t generalizing path with
  | nil => rfl
  | node c l x r ihl ihr =>
      simp only [ColorTree.toList, List.mem_append, List.mem_cons] at h
      rw [descend, descend, h x (.inr (.inl rfl)), ihl fun y hy => h y (.inl hy),
        ihr fun y hy => h y (.inr (.inr hy))]

theorem insertTree_congr {goLeft goLeft' : α → Bool} {t : ColorTree α}
    (h : ∀ x ∈ t.toList, goLeft' x = goLeft x) (x : α) :
    insertTree goLeft' x t = insertTree goLeft x t := by
  rw [insertTree, insertTree, descend_congr h]

theorem toList_insertTree_perm (goLeft : α → Bool) (x : α) (t : ColorTree α) :
    (insertTree goLeft x t).toList.Perm (x :: t.toList) := by
  have hempty := plug_perm (ColorTree.nil : ColorTree α) (descend goLeft t [])
  rw [plug_descend, plug_nil] at hempty
  unfold insertTree
  rw [ColorTree.toList_blacken, toList_insertFix]
  exact (plug_perm _ _).trans (hempty.symm.cons x)

theorem descend_spec {goLeft : α → Bool} {t : ColorTree α}
    (hsorted : t.toList.Pairwise fun a b => goLeft a = true → goLeft b = true)
    (path : Path α) :
    ∃ xs ys, t.toList = xs ++ ys ∧ (∀ x ∈ xs, goLeft x = false) ∧
      (∀ y ∈ ys, goLeft y = true) ∧ before (descend goLeft t path) = before path ++ xs ∧
      after (descend goLeft t path) = ys ++ after path := by
  induction t generalizing path with
  | nil => exact ⟨[], [], by simp [ColorTree.toList, descend]⟩
  | node c l x r ihl ihr =>
      obtain ⟨hl, hxr, hlx⟩ := List.pairwise_append.mp hsorted
      obtain ⟨hx, hr⟩ := List.pairwise_cons.mp hxr
      unfold descend
      split
      · rename_i hgo
        obtain ⟨xs, ys, hlist, hxs, hys, hbefore, hafter⟩ :=
          ihl hl (⟨.left, c, x, r⟩ :: path)
        refine ⟨xs, ys ++ x :: r.toList, by simp [ColorTree.toList, hlist], hxs, ?_,
          by simpa [before] using hbefore, by simpa [after] using hafter⟩
        intro y hy
        rcases List.mem_append.mp hy with hy | hy
        · exact hys y hy
        · rcases List.mem_cons.mp hy with rfl | hy
          · exact hgo
          · exact hx y hy hgo
      · rename_i hgo
        obtain ⟨xs, ys, hlist, hxs, hys, hbefore, hafter⟩ :=
          ihr hr (⟨.right, c, x, l⟩ :: path)
        refine ⟨l.toList ++ x :: xs, ys, by simp [ColorTree.toList, hlist], ?_, hys,
          by simpa [before] using hbefore, by simpa [after] using hafter⟩
        intro y hy
        rcases List.mem_append.mp hy with hy | hy
        · by_contra hgo'
          exact hgo (hlx y hy x (by simp) (by simpa using hgo'))
        · rcases List.mem_cons.mp hy with rfl | hy
          · simpa using hgo
          · exact hxs y hy

theorem toList_insertTree {goLeft : α → Bool} {t : ColorTree α}
    (hsorted : t.toList.Pairwise fun a b => goLeft a = true → goLeft b = true) (x : α) :
    ∃ xs ys, t.toList = xs ++ ys ∧ (∀ x ∈ xs, goLeft x = false) ∧
      (∀ y ∈ ys, goLeft y = true) ∧ (insertTree goLeft x t).toList = xs ++ x :: ys := by
  obtain ⟨xs, ys, hlist, hxs, hys, hbefore, hafter⟩ := descend_spec hsorted []
  refine ⟨xs, ys, hlist, hxs, hys, ?_⟩
  unfold insertTree
  rw [ColorTree.toList_blacken, toList_insertFix, toList_plug, hbefore, hafter]
  simp [before, after, ColorTree.toList]

theorem valid_insertTree {t : ColorTree α} (ht : t.Valid) (goLeft : α → Bool) (x : α) :
    (insertTree goLeft x t).Valid := by
  rw [← plug_nil t, ← plug_descend goLeft] at ht
  obtain ⟨n, hnil, hpath, -⟩ := unplug ht
  cases hnil
  exact valid_insertFix (.red .nil .nil rfl rfl) rfl hpath

/-! ## Deletion -/

/-- The first node of a tree in order, what is right of it, and the path to it. -/
def leftmost : Color → ColorTree α → α → ColorTree α → Path α → Color × α × ColorTree α × Path α
  | c, .nil, x, r, path => (c, x, r, path)
  | c, .node c' l' x' r', x, r, path => leftmost c' l' x' r' (⟨.left, c, x, r⟩ :: path)

/-- Put `t` in the place of a node of colour `c` that had at most this child. -/
def removeAt (c : Color) (t : ColorTree α) : Path α → ColorTree α
  | [] => t.blacken
  | f :: path => if c = .red then plug t (f :: path) else deleteFix t (f :: path)

/-- Delete the node between `l` and `r`; with two children its successor takes its place. -/
def deleteAt (c : Color) (l r : ColorTree α) (path : Path α) : ColorTree α :=
  match l, r with
  | .nil, r => removeAt c r path
  | l, .nil => removeAt c l path
  | l, .node c' l' x' r' =>
      let (d, y, t, q) := leftmost c' l' x' r' []
      removeAt d t (q ++ ⟨.right, c, y, l⟩ :: path)

theorem leftmost_spec (c : Color) (l : ColorTree α) (x : α) (r : ColorTree α) (path : Path α)
    (hpath : before path = []) :
    plug (.node (leftmost c l x r path).1 .nil (leftmost c l x r path).2.1
        (leftmost c l x r path).2.2.1) (leftmost c l x r path).2.2.2 =
      plug (.node c l x r) path ∧ before (leftmost c l x r path).2.2.2 = [] := by
  induction l generalizing c x r path with
  | nil => exact ⟨rfl, hpath⟩
  | node c' l' x' r' ih _ => exact ih c' x' r' (⟨.left, c, x, r⟩ :: path) (by simp [before, hpath])

theorem toList_removeAt (c : Color) (t : ColorTree α) (path : Path α) :
    (removeAt c t path).toList = (plug t path).toList := by
  cases path with
  | nil => exact ColorTree.toList_blacken t
  | cons f path =>
      rw [removeAt]
      split
      · rfl
      · exact toList_deleteFix t _

theorem before_append (p q : Path α) : before (p ++ q) = before q ++ before p := by
  induction p with
  | nil => simp [before]
  | cons f p ih => simp [before, ih]

theorem after_append (p q : Path α) : after (p ++ q) = after p ++ after q := by
  induction p with
  | nil => simp [after]
  | cons f p ih => simp [after, ih]

theorem toList_deleteAt (c : Color) (l r : ColorTree α) (path : Path α) :
    (deleteAt c l r path).toList = before path ++ (l.toList ++ r.toList) ++ after path := by
  unfold deleteAt
  split
  · rw [toList_removeAt, toList_plug]
    rfl
  · rw [toList_removeAt, toList_plug]
    simp [ColorTree.toList]
  · rename_i l c' l' x' r' _
    obtain ⟨hplug, hbefore⟩ := leftmost_spec c' l' x' r' [] rfl
    have hlist := congrArg ColorTree.toList hplug
    rw [toList_plug, hbefore] at hlist
    simp only [ColorTree.toList, List.nil_append, plug_nil] at hlist
    simp only [toList_removeAt, toList_plug, before_append, after_append, hbefore, before, after]
    rw [ColorTree.toList, ← hlist]
    simp

theorem valid_removeAt {d : Side} {c : Color} {t : ColorTree α} {x : α} {path : Path α}
    (h : (plug (.join d c .nil x t) path).Valid) : (removeAt c t path).Valid := by
  obtain ⟨n, hjoin, hpath, htop⟩ := unplug h
  cases c with
  | red =>
      obtain ⟨-, ht, -, ht'⟩ := ColorTree.balanced_join_red.mp hjoin
      have hvalid := hpath.plug_valid ht (by simp [ht'])
      cases path with
      | nil => exact hvalid.blacken
      | cons f path => exact hvalid
  | black =>
      obtain ⟨m, rfl, -, ht⟩ := ColorTree.balanced_join_black.mp hjoin
      cases path with
      | nil => exact ⟨by simp [removeAt], ht.exists_blacken⟩
      | cons f path => exact valid_deleteFix ht.short hpath

theorem valid_replace {c : Color} {l r : ColorTree α} {x : α} {path : Path α}
    (h : (plug (.node c l x r) path).Valid) (y : α) : (plug (.node c l y r) path).Valid := by
  obtain ⟨n, hnode, hpath, htop⟩ := unplug h
  refine hpath.plug_valid ?_ (by simpa using htop)
  cases hnode with
  | red hl hr hl' hr' => exact .red hl hr hl' hr'
  | black hl hr => exact .black hl hr

theorem toList_deleteAt_eq_filter [DecidableEq α] {c : Color} {l r : ColorTree α} {x : α}
    {path : Path α} (hnodup : (plug (.node c l x r) path).toList.Nodup) :
    (deleteAt c l r path).toList = (plug (.node c l x r) path).toList.filter (· != x) := by
  have hsplit : (plug (.node c l x r) path).toList =
      (before path ++ l.toList) ++ x :: (r.toList ++ after path) := by
    simp [toList_plug, ColorTree.toList]
  rw [hsplit] at hnodup ⊢
  have hnot : x ∉ before path ++ l.toList := fun hm =>
    (List.nodup_append.mp hnodup).2.2 _ hm _ (by simp) rfl
  have hfilter := hnodup.erase_eq_filter x
  rw [List.erase_append_right _ hnot, List.erase_cons_head] at hfilter
  rw [toList_deleteAt]
  simpa using hfilter

theorem valid_deleteAt {c : Color} {l r : ColorTree α} {x : α} {path : Path α}
    (h : (plug (.node c l x r) path).Valid) : (deleteAt c l r path).Valid := by
  unfold deleteAt
  split
  · exact valid_removeAt (d := .left) h
  · exact valid_removeAt (d := .right) h
  · rename_i l c' l' x' r' _
    obtain ⟨hplug, -⟩ := leftmost_spec c' l' x' r' [] rfl
    apply valid_removeAt (d := .left) (x := (leftmost c' l' x' r' []).2.1)
    rw [plug_append, ColorTree.join, hplug, plug_nil, plug_cons]
    exact valid_replace h _

theorem exists_plug_of_mem {t : ColorTree α} {x : α} (h : x ∈ t.toList) :
    ∃ c l r path, plug (.node c l x r) path = t := by
  induction t with
  | nil => simp [ColorTree.toList] at h
  | node c l y r ihl ihr =>
      rcases List.mem_append.mp h with h | h
      · obtain ⟨c', l', r', path, rfl⟩ := ihl h
        exact ⟨c', l', r', path ++ [⟨.left, c, y, r⟩], plug_append _ _ _⟩
      · rcases List.mem_cons.mp h with rfl | h
        · exact ⟨c, l, r, [], rfl⟩
        · obtain ⟨c', l', r', path, rfl⟩ := ihr h
          exact ⟨c', l', r', path ++ [⟨.right, c, y, l⟩], plug_append _ _ _⟩

end Libnc.Foundation
