import Libnc.Rbtree.Balance

/-!
# Links to deleted nodes

The links of a tree lead to its nodes and to the sentinel, and that of the root
upwards to NULL, as long as no root is deleted from above its only child.
`nc_rbtree_delete` returns early then, and unlike below the root it does not set
the parent link of the child: that of the new root leads to the deleted node.
-/

namespace Libnc.Rbtree

open Libnc.Foundation Path NcRbtree

/-- No link leads to a node that is not in the tree. -/
structure Unreferenced (s : Session) : Prop where
  root_parent : s.tree.root ≠ s.tree.sentinel → s.tree.parent s.tree.root = null
  unlinked : ∀ p, p ∉ s.nodes → p ≠ s.tree.sentinel → p ≠ null →
    s.tree.root ≠ p ∧ ∀ x ∈ s.nodes, (∀ d, s.tree.child d x ≠ p) ∧ s.tree.parent x ≠ p

/-- The deletion does not take the root from above its only child. -/
def KeepsRoot (s : Session) : Op → Prop
  | .insert _ _ => True
  | .delete node => ¬ LosesRoot s.tree node

instance decidableKeepsRoot (s : Session) : ∀ op, Decidable (KeepsRoot s op)
  | .insert _ _ => isTrue trivial
  | .delete node => inferInstanceAs (Decidable (¬ LosesRoot s.tree node))

variable {s : Session} {T : ColorTree Ptr} {t : NcRbtree} {fuel : Nat} {x : Ptr}

/-! ## Links of a tree -/

theorem Focused.child_mem (h : Focused T.toList t T []) (hx : x ∈ T.toList) (d : Side) :
    t.child d x ∈ T.toList ∨ t.child d x = t.sentinel := by
  by_cases hne : t.child d x = t.sentinel
  · exact .inr hne
  · exact .inl (h.mem_iff_inTree.mpr (.child d (h.mem_iff_inTree.mp hx) hne))

theorem Focused.parent_mem (h : Focused T.toList t T []) (hx : x ∈ T.toList)
    (hroot : x ≠ t.root) : t.parent x ∈ T.toList := by
  obtain ⟨c, l, r, path, hplug, hfocus⟩ := h.of_mem hx
  cases path with
  | nil => exact absurd hfocus.root.symm hroot
  | cons f path =>
      have hparent : t.parent x = f.value := hfocus.focus.parent_ptr (by simp) rfl
      rw [hparent, ← hplug, (plug_perm _ _).mem_iff]
      simp [values]

theorem Focused.root_mem (h : Focused T.toList t T []) :
    t.root ∈ T.toList ∨ t.root = t.sentinel := by
  have hroot : t.root = ptr t.sentinel T := h.root
  by_cases hne : t.root = t.sentinel
  · exact .inr hne
  · rw [hroot] at hne ⊢
    exact .inl (ptr_mem_of_ne hne)

/-- The parent link of the root is the only one that can be stale. -/
theorem Sound.unreferenced (h : Sound s T)
    (hroot : s.tree.root ≠ s.tree.sentinel → s.tree.parent s.tree.root = null) :
    Unreferenced s := by
  refine ⟨hroot, fun p hp hs h0 => ⟨?_, fun x hx => ⟨fun d => ?_, ?_⟩⟩⟩
  all_goals rw [h.mem_nodes] at hp
  · rintro rfl
    exact h.focused.root_mem.elim hp hs
  · rintro rfl
    exact (h.focused.child_mem (h.mem_nodes.mp hx) d).elim hp hs
  · rintro rfl
    rw [h.mem_nodes] at hx
    by_cases hxroot : x = s.tree.root
    · subst hxroot
      refine h0 (hroot fun heq => ?_)
      exact h.focused.sentinel_not_mem (List.mem_append_left _ (heq ▸ hx))
    · exact hp (h.focused.parent_mem hx hxroot)

/-! ## Runs -/

/-- A step keeps the parent link of the root clear if and only if it keeps the root. -/
theorem unreferenced_step (h : Sound s T) (hs : Unreferenced s) (hfuel : T.height < fuel) {op : Op}
    (hcall : Callable s op) :
    ∃ s' T', step fuel s op = some s' ∧ Sound s' T' ∧
      T'.toList.length ≤ T.toList.length + 1 ∧ (Unreferenced s' ↔ KeepsRoot s op) := by
  cases op with
  | insert node fields =>
      obtain ⟨s', T', hrun, hs', -, hlen, hins⟩ := insert_spec h hfuel hcall
      refine ⟨s', T', hrun, hs', hlen.le, iff_of_true (hs'.unreferenced fun _ => ?_) trivial⟩
      by_cases hnil : T = .nil
      · exact hins.root_parent_nil hnil
      · have hroot : s.tree.root = ptr s.tree.sentinel T := h.focused.root
        have hmem : s.tree.root ∈ T.toList := hroot ▸ ptr_mem hnil _
        have hnew : s.tree.root ≠ node := fun heq =>
          hcall.1 (heq ▸ h.mem_nodes.mpr hmem)
        rw [hins.root_parent hnil]
        have hold : (s.tree.putNode node fields).parent s.tree.root =
            s.tree.parent s.tree.root := by simp [parent, putNode, hnew]
        refine hold.trans (hs.root_parent ?_)
        exact hroot ▸ mt h.focused.ptr_eq_sentinel_iff.mp hnil
  | delete node =>
      obtain ⟨s', T', hrun, hs', -, hlen, hloses, hkeeps⟩ := delete_spec h hfuel hcall
      refine ⟨s', T', hrun, hs', hlen.trans (Nat.le_succ _), fun hun hlose => ?_, fun hkeep => ?_⟩
      · obtain ⟨hroot, hparent⟩ := hloses hlose
        refine h.focused.null_not_mem (List.mem_append_left _ ?_)
        rw [← hun.root_parent hroot, hparent]
        exact h.mem_nodes.mp hcall
      · refine hs'.unreferenced fun hroot => (hkeeps hkeep hroot).trans (hs.root_parent ?_)
        have hmem := h.mem_nodes.mp hcall
        have hne : T ≠ .nil := by
          rintro rfl
          simp [ColorTree.toList] at hmem
        have hroot' : s.tree.root = ptr s.tree.sentinel T := h.focused.root
        exact hroot' ▸ mt h.focused.ptr_eq_sentinel_iff.mp hne

theorem unreferenced_run {ops : List Op} (h : Sound s T) (hs : Unreferenced s)
    (hfuel : T.toList.length + ops.length < fuel) (hok : Along (step fuel) Callable s ops) :
    (∀ past, past <+: ops → ∃ s', run (step fuel) s past = some s' ∧ Unreferenced s') ↔
      Along (step fuel) KeepsRoot s ops := by
  induction ops generalizing s T with
  | nil =>
      refine iff_of_true (fun past hpast => ?_) trivial
      rw [List.prefix_nil.mp hpast]
      exact ⟨s, rfl, hs⟩
  | cons op ops ih =>
      have hheight := T.height_le_length
      rw [List.length_cons] at hfuel
      obtain ⟨s₁, T₁, hstep, h₁, hlen, hiff⟩ :=
        unreferenced_step h hs (by omega : T.height < fuel) hok.1
      have hfuel₁ : T₁.toList.length + ops.length < fuel := by omega
      constructor
      · intro hall
        obtain ⟨s', hrun, hs'⟩ := hall [op] (by simp)
        rw [run_cons_some hstep rfl] at hrun
        cases hrun
        refine ⟨hiff.mp hs', fun s₂ hs₂ => ?_⟩
        rw [hstep] at hs₂
        cases hs₂
        apply (ih h₁ hs' hfuel₁ (hok.2 _ hstep)).mp
        intro past hpast
        obtain ⟨s'', hrun, hs''⟩ := hall (op :: past) (by simpa using hpast)
        rw [run, hstep] at hrun
        exact ⟨s'', hrun, hs''⟩
      · intro hkeep past hpast
        rcases List.prefix_cons_iff.mp hpast with rfl | ⟨past, rfl, hpast'⟩
        · exact ⟨s, rfl, hs⟩
        · obtain ⟨s', hrun, hs'⟩ := (ih h₁ (hiff.mpr hkeep.1) hfuel₁ (hok.2 _ hstep)).mpr
            (hkeep.2 _ hstep) past hpast'
          exact ⟨s', run_cons_some hstep hrun, hs'⟩

/--
In every state of a run from `nc_rbtree_init` all links stay within the tree if
and only if no deletion of the run takes the root from above its only child.
-/
theorem ncRbtree_unreferenced_iff {memory : Ptr → NcRbnode} {sentinel : Ptr}
    (hinit : ncRbtreeInit memory sentinel = some t) {ops : List Op} (hfuel : ops.length < fuel)
    (hok : Along (step fuel) Callable ⟨t, [], []⟩ ops) :
    (∀ past, past <+: ops →
      ∃ s, run (step fuel) ⟨t, [], []⟩ past = some s ∧ Unreferenced s) ↔
      Along (step fuel) KeepsRoot ⟨t, [], []⟩ ops := by
  have h := init_sound hinit
  refine unreferenced_run h (h.unreferenced fun hroot => ?_) (by simpa [ColorTree.toList]) hok
  exact absurd h.focused.root hroot

/-- The root with two children is deleted, then the last node. -/
theorem ncRbtree_unreferenced_iff_double :
    (∀ past, past <+: [.insert 1 ⟨9, 9, 9, 5, 50, .red⟩, .insert 2 ⟨0, 0, 0, 4, 51, .red⟩,
        .insert 3 ⟨0, 0, 0, 6, 52, .black⟩, .delete 1, .delete 2, .delete 3] →
      ∃ s, run (step 7) ⟨emptyTree, [], []⟩ past = some s ∧ Unreferenced s) ↔
      Along (step 7) KeepsRoot ⟨emptyTree, [], []⟩
        [.insert 1 ⟨9, 9, 9, 5, 50, .red⟩, .insert 2 ⟨0, 0, 0, 4, 51, .red⟩,
          .insert 3 ⟨0, 0, 0, 6, 52, .black⟩, .delete 1, .delete 2, .delete 3] :=
  ncRbtree_unreferenced_iff emptyTree_init (by decide) (by decide +kernel)

/-- After the root of two nodes is deleted, the parent link of the other one leads to it. -/
theorem ncRbtreeDelete_leaves_link :
    Along (step 4) Callable ⟨emptyTree, [], []⟩
        [.insert 1 ⟨0, 0, 0, 5, 50, .red⟩, .insert 2 ⟨0, 0, 0, 6, 51, .red⟩, .delete 1] ∧
      ∃ s, run (step 4) ⟨emptyTree, [], []⟩
          [.insert 1 ⟨0, 0, 0, 5, 50, .red⟩, .insert 2 ⟨0, 0, 0, 6, 51, .red⟩,
            .delete 1] = some s ∧
        s.nodes = [2] ∧ s.tree.root = 2 ∧ s.tree.parent 2 = 1 ∧ ¬ Unreferenced s := by
  refine ⟨by decide +kernel, _, rfl, rfl, rfl, rfl, fun h => ?_⟩
  have hnull := h.root_parent (by decide +kernel)
  revert hnull
  decide +kernel

end Libnc.Rbtree
