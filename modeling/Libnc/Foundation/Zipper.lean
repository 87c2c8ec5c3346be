import Mathlib.Data.List.Basic
import Mathlib.Data.List.Nodup

/-!
# Coloured trees with a hole

Binary trees whose nodes carry a colour, and the paths from a subtree to the
root.  A tree is joined and split relative to a side, so that an algorithm and
its mirror image are one definition and one proof.
-/

namespace Libnc.Foundation

inductive Color where
  | red
  | black
  deriving DecidableEq, Repr

theorem Color.eq_red_of_ne {c : Color} (h : c ≠ .black) : c = .red := by
  cases c
  · rfl
  · exact absurd rfl h

inductive Side where
  | left
  | right
  deriving DecidableEq, Repr

def Side.other : Side → Side
  | .left => .right
  | .right => .left

@[simp] theorem Side.other_other (d : Side) : d.other.other = d := by
  cases d <;> rfl

@[simp] theorem Side.other_ne (d : Side) : d.other ≠ d := by
  cases d <;> decide

@[simp] theorem Side.ne_other (d : Side) : d ≠ d.other := by
  cases d <;> decide

theorem Side.eq_other_of_ne {d e : Side} (h : d ≠ e) : d = e.other := by
  cases d <;> cases e <;> simp_all [Side.other]

inductive ColorTree (α : Type*) where
  | nil
  | node (color : Color) (left : ColorTree α) (value : α) (right : ColorTree α)

namespace ColorTree

variable {α : Type*}

def isRed : ColorTree α → Bool
  | node .red _ _ _ => true
  | _ => false

def blacken : ColorTree α → ColorTree α
  | nil => nil
  | node _ l x r => node .black l x r

/-- The values from left to right. -/
def toList : ColorTree α → List α
  | nil => []
  | node _ l x r => l.toList ++ x :: r.toList

def height : ColorTree α → Nat
  | nil => 0
  | node _ l _ r => max l.height r.height + 1

theorem height_le_length (t : ColorTree α) : t.height ≤ t.toList.length := by
  induction t with
  | nil => simp [height]
  | node _ l _ r ihl ihr =>
      simp only [height, toList, List.length_append, List.length_cons]
      omega

/-- The node with `a` on side `d` and `b` on the other side. -/
def join (d : Side) (c : Color) (a : ColorTree α) (x : α) (b : ColorTree α) : ColorTree α :=
  match d with
  | .left => node c a x b
  | .right => node c b x a

/-- The parts of a node, the subtree on side `d` first. -/
def split (d : Side) : ColorTree α → Option (Color × ColorTree α × α × ColorTree α)
  | nil => none
  | node c l x r =>
      match d with
      | .left => some (c, l, x, r)
      | .right => some (c, r, x, l)

variable {d : Side} {c : Color} {a b t : ColorTree α} {x : α}

@[simp] theorem isRed_nil : (nil : ColorTree α).isRed = false := rfl

@[simp] theorem isRed_node (c : Color) (a b : ColorTree α) (x : α) :
    (node c a x b).isRed = (c == .red) := by
  cases c <;> rfl

@[simp] theorem isRed_join (d : Side) (c : Color) (a b : ColorTree α) (x : α) :
    (join d c a x b).isRed = (c == .red) := by
  cases d <;> simp [join]

@[simp] theorem isRed_blacken (t : ColorTree α) : t.blacken.isRed = false := by
  cases t <;> rfl

@[simp] theorem toList_blacken (t : ColorTree α) : t.blacken.toList = t.toList := by
  cases t <;> rfl

@[simp] theorem blacken_join (d : Side) (c : Color) (a b : ColorTree α) (x : α) :
    (join d c a x b).blacken = join d .black a x b := by
  cases d <;> rfl

theorem blacken_of_not_red (h : t.isRed = false) : t.blacken = t := by
  cases t with
  | nil => rfl
  | node c l x r => cases c <;> simp_all [blacken]

@[simp] theorem split_join (d : Side) (c : Color) (a b : ColorTree α) (x : α) :
    (join d c a x b).split d = some (c, a, x, b) := by
  cases d <;> rfl

theorem eq_join_of_split (h : t.split d = some (c, a, x, b)) : t = join d c a x b := by
  cases t with
  | nil => simp [split] at h
  | node => cases d <;> simp_all [split, join]

theorem eq_nil_of_split (h : t.split d = none) : t = nil := by
  cases t with
  | nil => rfl
  | node => cases d <;> simp [split] at h

theorem exists_join_of_ne_nil (h : t ≠ nil) (d : Side) : ∃ c a x b, t = join d c a x b := by
  cases hsplit : t.split d with
  | none => exact absurd (eq_nil_of_split hsplit) h
  | some parts => exact ⟨_, _, _, _, eq_join_of_split hsplit⟩

theorem ne_nil_of_isRed (h : t.isRed = true) : t ≠ nil := by
  rintro rfl
  cases h

@[simp] theorem join_ne_nil (d : Side) (c : Color) (a b : ColorTree α) (x : α) :
    join d c a x b ≠ nil := by
  cases d <;> simp [join]

theorem toList_eq_nil (h : t.toList = []) : t = nil := by
  cases t <;> simp_all [toList]

theorem toList_join_color (d : Side) (c c' : Color) (a b : ColorTree α) (x : α) :
    (join d c a x b).toList = (join d c' a x b).toList := by
  cases d <;> rfl

theorem toList_join_congr {a' b' : ColorTree α} (ha : a.toList = a'.toList)
    (hb : b.toList = b'.toList) (d : Side) (c c' : Color) (x : α) :
    (join d c a x b).toList = (join d c' a' x b').toList := by
  cases d <;> simp [join, toList, ha, hb]

theorem toList_rotate (d : Side) (c₁ c₂ c₃ c₄ : Color) (a b e : ColorTree α) (x y : α) :
    (join d c₁ (join d c₂ a x b) y e).toList = (join d c₃ a x (join d c₄ b y e)).toList := by
  cases d <;> simp [join, toList]

theorem toList_join_perm (d : Side) (c : Color) (a b : ColorTree α) (x : α) :
    (join d c a x b).toList.Perm (x :: (a.toList ++ b.toList)) := by
  cases d
  · exact List.perm_middle
  · exact List.perm_middle.trans (List.perm_append_comm.cons x)

theorem join_other (d : Side) (c : Color) (a b : ColorTree α) (x : α) :
    join d.other c a x b = join d c b x a := by
  cases d <;> rfl

end ColorTree

/-! ## Paths -/

/-- One step of a path: the node above the hole and its subtree on the other side. -/
structure Frame (α : Type*) where
  side : Side
  color : Color
  value : α
  sibling : ColorTree α

/-- The frames from the hole up to the root. -/
abbrev Path (α : Type*) := List (Frame α)

variable {α : Type*}

def Frame.fill (f : Frame α) (t : ColorTree α) : ColorTree α :=
  t.join f.side f.color f.value f.sibling

namespace Path

def plug : ColorTree α → Path α → ColorTree α
  | t, [] => t
  | t, f :: path => plug (f.fill t) path

/-- The values left of the hole. -/
def before : Path α → List α
  | [] => []
  | f :: path => before path ++
      match f.side with
      | .left => []
      | .right => f.sibling.toList ++ [f.value]

/-- The values right of the hole. -/
def after : Path α → List α
  | [] => []
  | f :: path => (match f.side with
      | .left => f.value :: f.sibling.toList
      | .right => []) ++ after path

def values (path : Path α) : List α := path.flatMap fun f => f.value :: f.sibling.toList

@[simp] theorem plug_nil (t : ColorTree α) : plug t [] = t := rfl

@[simp] theorem plug_cons (t : ColorTree α) (f : Frame α) (path : Path α) :
    plug t (f :: path) = plug (f.fill t) path := rfl

theorem values_cons (f : Frame α) (path : Path α) :
    values (f :: path) = f.value :: (f.sibling.toList ++ values path) := rfl

theorem values_append (p q : Path α) : values (p ++ q) = values p ++ values q :=
  List.flatMap_append

theorem plug_append (t : ColorTree α) (p q : Path α) : plug t (p ++ q) = plug (plug t p) q := by
  induction p generalizing t with
  | nil => rfl
  | cons f p ih => exact ih (f.fill t)

theorem toList_plug (t : ColorTree α) (path : Path α) :
    (plug t path).toList = before path ++ t.toList ++ after path := by
  induction path generalizing t with
  | nil => simp [before, after]
  | cons f path ih =>
      rw [plug_cons, ih]
      cases hside : f.side <;>
        simp [before, after, Frame.fill, ColorTree.join, ColorTree.toList, hside]

theorem toList_plug_congr {t u : ColorTree α} (h : t.toList = u.toList) (path : Path α) :
    (plug t path).toList = (plug u path).toList := by
  rw [toList_plug, toList_plug, h]

theorem plug_perm (t : ColorTree α) (path : Path α) :
    (plug t path).toList.Perm (t.toList ++ values path) := by
  induction path generalizing t with
  | nil => simp [values]
  | cons f path ih =>
      apply (ih (f.fill t)).trans
      apply ((ColorTree.toList_join_perm _ _ _ _ _).append_right (values path)).trans
      simp only [values, List.flatMap_cons, List.cons_append, List.append_assoc]
      exact List.perm_middle.symm

theorem height_plug (t : ColorTree α) (path : Path α) :
    t.height + path.length ≤ (plug t path).height := by
  induction path generalizing t with
  | nil => simp
  | cons f path ih =>
      have hfill : t.height + 1 ≤ (f.fill t).height := by
        cases hside : f.side <;>
          simp only [Frame.fill, ColorTree.join, ColorTree.height, hside] <;> omega
      have := ih (f.fill t)
      rw [List.length_cons, plug_cons]
      omega

end Path

end Libnc.Foundation
