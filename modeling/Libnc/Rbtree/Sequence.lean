import Libnc.Rbtree.Session

/-!
# The tree as a sequence

The nodes in order are those of a stable sorted sequence, and the minimum is its
first node.
-/

namespace Libnc.Rbtree

open Libnc.Foundation Path NcRbtree

/-- The nodes below `p` in order. -/
def inorder (t : NcRbtree) : Nat → Ptr → Option (List Ptr)
  | 0, _ => none
  | fuel + 1, p =>
      if p = t.sentinel then some []
      else do
        let left ← inorder t fuel (t.child .left p)
        let right ← inorder t fuel (t.child .right p)
        some (left ++ p :: right)

variable {t : NcRbtree} {nodes : List Ptr} {T : ColorTree Ptr} {up : Option Ptr} {s : Session}
variable {fuel : Nat}

theorem inorder_spec (h : Linked t up T) (hs : t.sentinel ∉ T.toList)
    (hfuel : T.toList.length < fuel) : inorder t fuel (ptr t.sentinel T) = some T.toList := by
  induction T generalizing up fuel with
  | nil =>
      obtain ⟨fuel, rfl⟩ := Nat.exists_eq_succ_of_ne_zero (Nat.ne_zero_of_lt hfuel)
      exact if_pos rfl
  | node c l x r ihl ihr =>
      obtain ⟨-, hl, hr, -, hl', hr'⟩ := h
      simp only [ColorTree.toList, List.length_append, List.length_cons] at hfuel
      simp only [ColorTree.toList, List.mem_append, List.mem_cons, not_or] at hs
      obtain ⟨fuel, rfl⟩ : ∃ k, fuel = k + 1 := ⟨fuel - 1, by omega⟩
      have hx : x ≠ t.sentinel := Ne.symm hs.2.1
      have hleft := ihl hl' hs.1 (by omega : l.toList.length < fuel)
      have hright := ihr hr' hs.2.2 (by omega : r.toList.length < fuel)
      unfold ptr
      rw [inorder, if_neg hx, hl, hr, hleft, hright]
      rfl

theorem ncRbtreeMin_spec (h : Focused nodes t T []) (hfuel : T.height ≤ fuel) :
    ncRbtreeMin fuel t = some (T.toList.head?.getD null) := by
  have hroot : t.root = ptr t.sentinel T := h.root
  cases T with
  | nil => exact if_pos hroot
  | node c l x r =>
      have hne : t.root ≠ t.sentinel := by
        rw [hroot]
        exact mt h.ptr_eq_sentinel_iff.mp (by simp)
      have hmin := rbtreeNodeMin_spec (q := []) h (by
        simp only [ColorTree.height] at hfuel
        omega : l.height < fuel)
      obtain ⟨hplug, hbefore⟩ := leftmost_spec c l x r [] rfl
      have hlist := congrArg ColorTree.toList hplug
      rw [toList_plug, hbefore] at hlist
      rw [ncRbtreeMin, if_neg hne, hroot, ptr, rbtreeNodeMinIn_refines fuel _ _ hmin,
        ← plug_nil (ColorTree.node c l x r), ← hlist]
      simp [ColorTree.toList]

/--
After every run the nodes in order are the stable sorted sequence of the
inserted and not deleted ones, each with the key and the data it came with, and
the minimum is the earliest of those with the smallest key.
-/
theorem ncRbtree_refines_sequence {memory : Ptr → NcRbnode} {sentinel : Ptr}
    (hinit : ncRbtreeInit memory sentinel = some t) {ops : List Op} (hfuel : ops.length < fuel)
    (hok : Along (step fuel) Callable ⟨t, [], []⟩ ops) :
    ∃ s nodes, run (step fuel) ⟨t, [], []⟩ ops = some s ∧
      inorder s.tree fuel s.tree.root = some nodes ∧ nodes.map (entry s.tree) = s.sequence ∧
      s.sequence.Pairwise (fun a b => a.key ≤ b.key) ∧
      ∃ min, ncRbtreeMin fuel s.tree = some min ∧ (min = null ↔ s.arrivals = []) ∧
        (min ≠ null → ∃ e, e.node = min ∧ (∀ a ∈ s.arrivals, e.key ≤ a.key) ∧
          s.arrivals.find? (·.key = e.key) = some e) := by
  obtain ⟨s, T, hrun, hs, hlen⟩ := run_spec hinit hfuel hok
  have hsentinel : s.tree.sentinel ∉ T.toList := fun hm =>
    hs.focused.sentinel_not_mem (List.mem_append_left _ hm)
  have horder := inorder_spec hs.focused.focus hsentinel (hlen.trans_lt hfuel)
  have hmin := ncRbtreeMin_spec hs.focused (T.height_le_length.trans (hlen.trans hfuel.le))
  have hroot : s.tree.root = ptr s.tree.sentinel T := hs.focused.root
  rw [← hroot] at horder
  have hnodes := hs.map_node
  have horder' := hs.order
  refine ⟨s, T.toList, hrun, horder, hs.entries, hs.order.sorted, _, hmin, ?_⟩
  cases hseq : s.sequence with
  | nil =>
      have harrivals : s.arrivals = [] := List.perm_nil.mp (hseq ▸ horder'.perm).symm
      rw [hseq] at hnodes
      simp [← hnodes, harrivals]
  | cons e rest =>
      rw [hseq] at hnodes horder'
      have harrivals : s.arrivals ≠ [] := fun hnil => by
        simpa [hnil] using horder'.perm.length_eq
      have hnull : e.node ≠ null := fun hnull =>
        hs.focused.null_not_mem (List.mem_append_left _ (by simp [← hnodes, ← hnull]))
      refine ⟨by simp [← hnodes, harrivals, hnull], fun _ => ⟨e, by simp [← hnodes], ?_⟩⟩
      exact horder'.head

/-- The node that arrived first among equal smallest keys, after a deletion by identity. -/
theorem ncRbtree_refines_sequence_equal_keys :
    ∃ s nodes, run (step 6) ⟨emptyTree, [], []⟩
        [.insert 1 ⟨9, 9, 9, 5, 50, .red⟩, .insert 2 ⟨0, 0, 0, 5, 51, .red⟩,
          .insert 3 ⟨0, 0, 0, 5, 52, .black⟩, .insert 4 ⟨0, 0, 0, 7, 53, .red⟩,
          .delete 1] = some s ∧
      inorder s.tree 6 s.tree.root = some nodes ∧ nodes.map (entry s.tree) = s.sequence ∧
      s.sequence.Pairwise (fun a b => a.key ≤ b.key) ∧
      ∃ min, ncRbtreeMin 6 s.tree = some min ∧ (min = null ↔ s.arrivals = []) ∧
        (min ≠ null → ∃ e, e.node = min ∧ (∀ a ∈ s.arrivals, e.key ≤ a.key) ∧
          s.arrivals.find? (·.key = e.key) = some e) :=
  ncRbtree_refines_sequence emptyTree_init (by decide) (by decide +kernel)

end Libnc.Rbtree
