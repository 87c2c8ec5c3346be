import Libnc.Rbtree.Session

/-!
# The shape of a reachable tree

The red-black properties read off the memory itself: the nodes reached from the
root, the ways down to the sentinel and the parent links.
-/

namespace Libnc.Rbtree

open Libnc.Foundation Path NcRbtree

/-- The nodes that child links lead to from the root. -/
inductive InTree (t : NcRbtree) : Ptr → Prop where
  | root (h : t.root ≠ t.sentinel) : InTree t t.root
  | child {x : Ptr} (d : Side) (above : InTree t x) (h : t.child d x ≠ t.sentinel) :
      InTree t (t.child d x)

/-- The nodes of a way down from `p` to the sentinel. -/
inductive Descent (t : NcRbtree) : Ptr → List Ptr → Prop where
  | sentinel : Descent t t.sentinel []
  | node {p : Ptr} {below : List Ptr} (d : Side) (h : p ≠ t.sentinel)
      (rest : Descent t (t.child d p) below) : Descent t p (p :: below)

/-- The nodes of the way down that takes the given sides, up to the sentinel. -/
def walk (t : NcRbtree) : Ptr → List Side → List Ptr
  | _, [] => []
  | p, d :: sides => if p = t.sentinel then [] else p :: walk t (t.child d p) sides

structure RedBlack (t : NcRbtree) (nodes : List Ptr) : Prop where
  nodup : nodes.Nodup
  mem_iff : ∀ x, x ∈ nodes ↔ InTree t x
  root_black : t.color t.root = .black
  sentinel_black : t.color t.sentinel = .black
  red_child : ∀ x, InTree t x → t.color x = .red → ∀ d, t.color (t.child d x) = .black
  black_height : ∃ n, ∀ way, Descent t t.root way → way.countP (t.color · = .black) = n
  parent_child : ∀ x, InTree t x → x ≠ t.root →
    InTree t (t.parent x) ∧ ∃ d, t.child d (t.parent x) = x
  child_parent : ∀ x d, InTree t x → t.child d x ≠ t.sentinel → t.parent (t.child d x) = x
  height : ∀ sides, (walk t t.root sides).length ≤ 2 * Nat.log 2 (nodes.length + 1)

variable {t : NcRbtree} {nodes : List Ptr} {T : ColorTree Ptr} {path : Path Ptr} {up : Option Ptr}
variable {x : Ptr} {n fuel : Nat}

/-! ## Nodes and links -/

theorem Focused.inTree (h : Focused nodes t T path) (hne : T ≠ .nil) :
    InTree t (ptr t.sentinel T) := by
  have hs : ptr t.sentinel T ≠ t.sentinel := mt h.ptr_eq_sentinel_iff.mp hne
  induction path generalizing T with
  | nil =>
      have hroot : t.root = ptr t.sentinel T := h.root
      exact hroot ▸ .root (hroot ▸ hs)
  | cons f path ih =>
      have hfill := ih h.fill (by simp [Frame.fill])
        (mt h.fill.ptr_eq_sentinel_iff.mp (by simp [Frame.fill]))
      have hchild : t.child f.side f.value = ptr t.sentinel T := h.frames.2.1
      rw [Frame.fill, ptr_join] at hfill
      exact hchild ▸ .child f.side hfill (hchild ▸ hs)

theorem Focused.of_mem (h : Focused nodes t T []) (hx : x ∈ T.toList) :
    ∃ c l r path, plug (.node c l x r) path = T ∧ Focused nodes t (.node c l x r) path := by
  obtain ⟨c, l, r, path, rfl⟩ := exists_plug_of_mem hx
  exact ⟨c, l, r, path, rfl, by simpa using focused_plug.mp h⟩

theorem Focused.mem_iff_inTree (h : Focused nodes t T []) : x ∈ T.toList ↔ InTree t x := by
  constructor
  · intro hx
    obtain ⟨c, l, r, path, -, hfocus⟩ := h.of_mem hx
    exact hfocus.inTree (by simp)
  · intro hx
    induction hx with
    | root hne =>
        have hroot : t.root = ptr t.sentinel T := h.root
        rw [hroot] at hne ⊢
        exact ptr_mem_of_ne hne
    | @child y d _ hne ih =>
        obtain ⟨c, l, r, path, rfl, hfocus⟩ := h.of_mem ih
        have hmem : t.child d y ∈ (ColorTree.node c l y r).toList := by
          obtain ⟨-, hl, hr, -⟩ := hfocus.focus
          cases d with
          | left =>
              rw [hl] at hne ⊢
              simp [ColorTree.toList, ptr_mem_of_ne hne]
          | right =>
              rw [hr] at hne ⊢
              simp [ColorTree.toList, ptr_mem_of_ne hne]
        rw [(plug_perm _ path).mem_iff]
        exact List.mem_append_left _ hmem

/-! ## Ways down -/

theorem walk_length_le (h : Linked t up T) (sides : List Side) :
    (walk t (ptr t.sentinel T) sides).length ≤ T.height := by
  induction T generalizing up sides with
  | nil => cases sides <;> simp [walk]
  | node c l x r ihl ihr =>
      obtain ⟨-, hl, hr, -, hl', hr'⟩ := h
      cases sides with
      | nil => simp [walk]
      | cons d sides =>
          unfold walk
          rw [ptr]
          split
          · simp
          · rw [List.length_cons, ColorTree.height]
            cases d with
            | left =>
                rw [hl]
                have := ihl hl' sides
                omega
            | right =>
                rw [hr]
                have := ihr hr' sides
                omega

theorem Descent.of_ne {way : List Ptr} (h : Descent t x way) (hne : x ≠ t.sentinel) :
    ∃ d below, way = x :: below ∧ Descent t (t.child d x) below := by
  cases h with
  | sentinel => exact absurd rfl hne
  | node d _ rest => exact ⟨d, _, rfl, rest⟩

theorem Descent.eq_nil {way : List Ptr} (h : Descent t t.sentinel way) : way = [] := by
  cases h with
  | sentinel => rfl
  | node d hne _ => exact absurd rfl hne

theorem Descent.black_count (h : Linked t up T) (hs : t.sentinel ∉ T.toList)
    (hT : T.Balanced n) {way : List Ptr} (hway : Descent t (ptr t.sentinel T) way) :
    way.countP (t.color · = .black) = n := by
  induction hT generalizing up way with
  | nil => rw [hway.eq_nil, List.countP_nil]
  | @red l r x n _ _ _ _ ihl ihr =>
      obtain ⟨hc, hl, hr, -, hl', hr'⟩ := h
      simp only [ColorTree.toList, List.mem_append, List.mem_cons, not_or] at hs
      obtain ⟨d, below, rfl, hbelow⟩ := hway.of_ne (Ne.symm hs.2.1)
      have hcount : below.countP (t.color · = .black) = n := by
        cases d with
        | left => exact ihl hl' hs.1 (hl ▸ hbelow)
        | right => exact ihr hr' hs.2.2 (hr ▸ hbelow)
      rw [List.countP_cons_of_neg (by simp [ptr, hc]), hcount]
  | @black l r x n _ _ ihl ihr =>
      obtain ⟨hc, hl, hr, -, hl', hr'⟩ := h
      simp only [ColorTree.toList, List.mem_append, List.mem_cons, not_or] at hs
      obtain ⟨d, below, rfl, hbelow⟩ := hway.of_ne (Ne.symm hs.2.1)
      have hcount : below.countP (t.color · = .black) = n := by
        cases d with
        | left => exact ihl hl' hs.1 (hl ▸ hbelow)
        | right => exact ihr hr' hs.2.2 (hr ▸ hbelow)
      rw [List.countP_cons_of_pos (by simp [ptr, hc]), hcount]

/-! ## The invariant as seen in memory -/

theorem Focused.child_color {c : Color} {l r : ColorTree Ptr}
    (h : Focused nodes t (.node c l x r) path) (d : Side) :
    ∃ T, t.child d x = ptr t.sentinel T ∧ (T = l ∨ T = r) ∧
      t.color (t.child d x) = (if T.isRed then .red else .black) ∧
      (T ≠ .nil → t.parent (t.child d x) = x) := by
  obtain ⟨-, hl, hr, -, hl', hr'⟩ := h.focus
  cases d with
  | left =>
      refine ⟨l, hl, .inl rfl, ?_, fun hne => ?_⟩
      · rw [hl]
        exact hl'.color_ptr h.sentinel_black
      · rw [hl]
        exact hl'.parent_ptr hne rfl
  | right =>
      refine ⟨r, hr, .inr rfl, ?_, fun hne => ?_⟩
      · rw [hr]
        exact hr'.color_ptr h.sentinel_black
      · rw [hr]
        exact hr'.parent_ptr hne rfl

theorem Focused.redBlack (h : Focused nodes t T []) (hT : T.Valid) : RedBlack t T.toList where
  nodup := (List.nodup_append.mp h.nodup).1
  mem_iff _ := h.mem_iff_inTree
  root_black := by
    rw [h.root, plug_nil, h.color_ptr, hT.root_black]
    rfl
  sentinel_black := h.sentinel_black
  red_child x hx hred d := by
    obtain ⟨c, l, r, path, rfl, hfocus⟩ := h.of_mem (h.mem_iff_inTree.mpr hx)
    obtain ⟨n, hnode, -, -⟩ := unplug hT
    obtain rfl : c = .red := hfocus.focus.1.symm.trans hred
    obtain ⟨-, -, hl, hr⟩ := ColorTree.balanced_join_red (d := .left).mp hnode
    obtain ⟨U, -, hU, hcolor, -⟩ := hfocus.child_color d
    rw [hcolor]
    rcases hU with rfl | rfl
    · simp [hl]
    · simp [hr]
  black_height := by
    obtain ⟨n, hn⟩ := hT.balanced
    refine ⟨n, fun way hway => ?_⟩
    rw [h.root] at hway
    refine Descent.black_count h.focus (fun hs => ?_) hn hway
    exact h.sentinel_not_mem (List.mem_append_left _ hs)
  parent_child x hx hroot := by
    obtain ⟨c, l, r, path, rfl, hfocus⟩ := h.of_mem (h.mem_iff_inTree.mpr hx)
    cases path with
    | nil => exact absurd hfocus.root.symm hroot
    | cons f path =>
        have hparent : t.parent x = f.value := hfocus.focus.parent_ptr (by simp) rfl
        have hup : InTree t f.value := by
          simpa [Frame.fill] using hfocus.fill.inTree (by simp [Frame.fill])
        exact hparent ▸ ⟨hup, f.side, hfocus.frames.2.1⟩
  child_parent x d hx hne := by
    obtain ⟨c, l, r, path, rfl, hfocus⟩ := h.of_mem (h.mem_iff_inTree.mpr hx)
    obtain ⟨U, hU, -, -, hparent⟩ := hfocus.child_color d
    refine hparent fun hnil => hne ?_
    rw [hU, hnil, ptr_nil]
  height sides := by
    rw [h.root]
    exact (walk_length_le h.focus sides).trans hT.height_le

/-- Every run from `nc_rbtree_init` returns and ends in a red-black tree of the inserted nodes. -/
theorem ncRbtree_redBlack {memory : Ptr → NcRbnode} {sentinel : Ptr}
    (hinit : ncRbtreeInit memory sentinel = some t) {ops : List Op} (hfuel : ops.length < fuel)
    (hok : Along (step fuel) Callable ⟨t, [], []⟩ ops) :
    ∃ s nodes, run (step fuel) ⟨t, [], []⟩ ops = some s ∧ RedBlack s.tree nodes ∧
      ∀ x, x ∈ nodes ↔ x ∈ s.nodes := by
  obtain ⟨s, T, hrun, hs, -⟩ := run_spec hinit hfuel hok
  exact ⟨s, T.toList, hrun, hs.focused.redBlack hs.valid, fun x => hs.mem_nodes.symm⟩

/-- Equal keys, a rotation, and the deletion of the root with two children. -/
theorem ncRbtree_redBlack_equal_keys :
    ∃ s nodes, run (step 6) ⟨emptyTree, [], []⟩
        [.insert 1 ⟨9, 9, 9, 5, 50, .red⟩, .insert 2 ⟨0, 0, 0, 5, 51, .red⟩,
          .insert 3 ⟨0, 0, 0, 5, 52, .black⟩, .insert 4 ⟨0, 0, 0, 3, 53, .red⟩,
          .delete 2] = some s ∧
      RedBlack s.tree nodes ∧ ∀ x, x ∈ nodes ↔ x ∈ s.nodes :=
  ncRbtree_redBlack emptyTree_init (by decide) (by decide +kernel)

end Libnc.Rbtree
