import Libnc.Rbtree.Sequence

/-!
# Stale links

Two copies of a tree may differ in the parent link of the root and in all fields
of the sentinel but its colour.  No operation depends on them: both copies
take the same steps, return the same nodes and stay copies of each other.
-/

namespace Libnc.Rbtree

open Libnc.Foundation Path NcRbtree

/-- The memories differ only in the parent link of the root and in the sentinel. -/
structure Similar (t u : NcRbtree) : Prop where
  root : u.root = t.root
  sentinel : u.sentinel = t.sentinel
  node : ∀ p, p ≠ t.sentinel → p ≠ t.root → u.node p = t.node p
  root_node : t.root ≠ t.sentinel →
    u.node t.root = { t.node t.root with parent := u.parent t.root }
  sentinel_color : u.color t.sentinel = t.color t.sentinel

variable {t u : NcRbtree} {T : ColorTree Ptr} {up : Option Ptr} {node p : Ptr} {fuel : Nat}

namespace Similar

theorem fields (h : Similar t u) (hp : p ≠ t.sentinel) :
    u.node p = { t.node p with parent := u.parent p } := by
  by_cases hroot : p = t.root
  · subst hroot
    exact h.root_node hp
  · unfold parent
    rw [h.node p hp hroot]

theorem key (h : Similar t u) (hp : p ≠ t.sentinel) : u.key p = t.key p :=
  (congrArg NcRbnode.key (h.fields hp) :)

theorem data (h : Similar t u) (hp : p ≠ t.sentinel) : u.data p = t.data p :=
  (congrArg NcRbnode.data (h.fields hp) :)

theorem color (h : Similar t u) (p : Ptr) : u.color p = t.color p := by
  by_cases hp : p = t.sentinel
  · exact hp ▸ h.sentinel_color
  · exact (congrArg NcRbnode.color (h.fields hp) :)

theorem child (h : Similar t u) (hp : p ≠ t.sentinel) (d : Side) : u.child d p = t.child d p := by
  cases d with
  | left => exact (congrArg NcRbnode.left (h.fields hp) :)
  | right => exact (congrArg NcRbnode.right (h.fields hp) :)

theorem parent (h : Similar t u) (hp : p ≠ t.sentinel) (hroot : p ≠ t.root) :
    u.parent p = t.parent p := congrArg NcRbnode.parent (h.node p hp hroot)

theorem putNode (h : Similar t u) (hp : p ≠ t.sentinel) (fields : NcRbnode) :
    Similar (t.putNode p fields) (u.putNode p fields) := by
  refine ⟨h.root, h.sentinel, fun q hq hroot => ?_, fun hroot => ?_, ?_⟩
  · by_cases hqp : q = p
    · simp [NcRbtree.putNode, hqp]
    · simpa [NcRbtree.putNode, hqp] using h.node q hq hroot
  · by_cases hqp : t.root = p
    · simp [NcRbtree.putNode, NcRbtree.parent, hqp]
    · simpa [NcRbtree.putNode, NcRbtree.parent, hqp] using h.root_node hroot
  · simpa [NcRbtree.color, NcRbtree.putNode, Ne.symm hp] using h.sentinel_color

theorem holds (hsim : Similar t u) (h : Holds t T) : Holds u T := by
  have hne : ∀ x ∈ T.toList, x ≠ t.sentinel := fun x hx hs =>
    h.focused.sentinel_not_mem (List.mem_append_left _ (hs ▸ hx))
  have hroot : t.root = ptr t.sentinel T := h.focused.root
  have hlinked : Linked u none T := by
    refine h.focused.focus.reparent hsim.sentinel (List.nodup_append.mp h.focused.nodup).1
      (fun x _ => hsim.color x) (fun x hx => hsim.child (hne x hx)) (fun x hx hx' => ?_) (by simp)
    exact hsim.parent (hne x hx) (hroot ▸ hx')
  refine ⟨⟨hlinked, trivial, ?_, h.focused.nodup, ?_, h.focused.null_not_mem, ?_, ?_,
    h.focused.mem⟩, h.valid⟩
  · rw [hsim.root, hsim.sentinel]
    exact hroot
  · rw [hsim.sentinel]
    exact h.focused.sentinel_not_mem
  · rw [hsim.sentinel]
    exact h.focused.sentinel_ne_null
  · rw [hsim.sentinel, hsim.color]
    exact h.focused.sentinel_black

end Similar

/-! ## The tree decides the memory -/

/-- Two memories that hold the same tree agree on its nodes. -/
theorem Linked.agree (h : Linked t up T) (h' : Linked u up T) (hs : u.sentinel = t.sentinel) :
    ∀ x ∈ T.toList, u.color x = t.color x ∧ (∀ d, u.child d x = t.child d x) ∧
      (x ≠ ptr t.sentinel T → u.parent x = t.parent x) := by
  have hdown : ∀ (y : Ptr) (S : ColorTree Ptr), Linked t (some y) S → Linked u (some y) S →
      ∀ x ∈ S.toList, (x ≠ ptr t.sentinel S → u.parent x = t.parent x) →
        u.parent x = t.parent x := by
    intro y S hS hS' x hx hother
    by_cases hx' : x = ptr t.sentinel S
    · have hne : S ≠ .nil := by
        rintro rfl
        simp [ColorTree.toList] at hx
      have hupper := hS'.parent_ptr hne rfl
      rw [hs, ← hx'] at hupper
      rw [hupper, hx', hS.parent_ptr hne rfl]
    · exact hother hx'
  induction T generalizing up with
  | nil => simp [ColorTree.toList]
  | node c l y r ihl ihr =>
      obtain ⟨hc, hl, hr, -, hlinkl, hlinkr⟩ := h
      obtain ⟨hc', hl', hr', -, hlinkl', hlinkr'⟩ := h'
      intro x hx
      simp only [ColorTree.toList, List.mem_append, List.mem_cons] at hx
      rcases hx with hx | rfl | hx
      · obtain ⟨hcolor, hchild, hparent⟩ := ihl hlinkl hlinkl' x hx
        exact ⟨hcolor, hchild, fun _ => hdown y l hlinkl hlinkl' x hx hparent⟩
      · refine ⟨hc'.trans hc.symm, fun d => ?_, fun hne => absurd rfl hne⟩
        cases d with
        | left => rw [hl', hl, hs]
        | right => rw [hr', hr, hs]
      · obtain ⟨hcolor, hchild, hparent⟩ := ihr hlinkr hlinkr' x hx
        exact ⟨hcolor, hchild, fun _ => hdown y r hlinkr hlinkr' x hx hparent⟩

theorem Holds.similar (h : Holds t T) (h' : Holds u T) (hs : u.sentinel = t.sentinel)
    (hkey : ∀ p ∈ T.toList, u.key p = t.key p) (hdata : ∀ p ∈ T.toList, u.data p = t.data p)
    (hout : ∀ p, p ∉ T.toList → p ≠ t.sentinel → u.node p = t.node p) : Similar t u := by
  have hroot : t.root = ptr t.sentinel T := h.focused.root
  have hagree := h.focused.focus.agree h'.focused.focus hs
  refine ⟨?_, hs, fun p hp hne => ?_, fun hne => ?_, ?_⟩
  · rw [hroot, ← hs]
    exact h'.focused.root
  · by_cases hmem : p ∈ T.toList
    · obtain ⟨hcolor, hchild, hparent⟩ := hagree p hmem
      exact NcRbnode.ext (hchild .left) (hchild .right) (hparent (hroot ▸ hne)) (hkey p hmem)
        (hdata p hmem) hcolor
    · exact hout p hmem hp
  · have hmem : t.root ∈ T.toList := by
      rw [hroot] at hne ⊢
      exact ptr_mem_of_ne hne
    obtain ⟨hcolor, hchild, -⟩ := hagree t.root hmem
    exact NcRbnode.ext (hchild .left) (hchild .right) rfl (hkey _ hmem) (hdata _ hmem) hcolor
  · have hblack := h'.focused.sentinel_black
    rw [hs] at hblack
    exact hblack.trans h.focused.sentinel_black.symm

/-! ## One operation on both copies -/

namespace Similar

theorem outside (hsim : Similar t u) (h : Holds t T) (hp : p ∉ T.toList) (hs : p ≠ t.sentinel) :
    u.node p = t.node p := by
  apply hsim.node p hs
  rintro rfl
  have hroot : t.root = ptr t.sentinel T := h.focused.root
  rw [hroot] at hp hs
  exact hp (ptr_mem_of_ne hs)

theorem insert (hsim : Similar t u) (h : Holds t T) (hnode : node ∉ T.toList)
    (hs : node ≠ t.sentinel) (h0 : node ≠ null) (hfuel : T.height < fuel) :
    ∃ t' u', ncRbtreeInsert fuel t node = some t' ∧ ncRbtreeInsert fuel u node = some u' ∧
      Similar t' u' ∧ Holds t' (insertTree (goesLeft t node) node T) := by
  have hs' : node ≠ u.sentinel := by rwa [hsim.sentinel]
  obtain ⟨t', hrun, h', hins⟩ := h.insert hnode hs h0 hfuel
  obtain ⟨u', hrun', hu', hins'⟩ := (hsim.holds h).insert hnode hs' h0 hfuel
  have hmem : ∀ x ∈ T.toList, x ≠ t.sentinel := fun x hx hx' =>
    h.focused.sentinel_not_mem (List.mem_append_left _ (hx' ▸ hx))
  have hgoes : insertTree (goesLeft u node) node T = insertTree (goesLeft t node) node T := by
    refine insertTree_congr (fun x hx => ?_) node
    rw [goesLeft, goesLeft, hsim.key hs, hsim.key (hmem x hx)]
  have hperm := toList_insertTree_perm (goesLeft t node) node T
  have hold : ∀ x ∈ node :: T.toList, x ≠ t.sentinel := by
    intro x hx
    rcases List.mem_cons.mp hx with rfl | hx
    · exact hs
    · exact hmem x hx
  rw [hgoes] at hu'
  refine ⟨t', u', ncRbtreeInsertIn_refines fuel _ hrun, ncRbtreeInsertIn_refines fuel _ hrun',
    h'.similar hu' ?_ (fun x hx => ?_) (fun x hx => ?_) (fun x hx hxs => ?_), h'⟩
  · rw [hins.same.sentinel, hins'.same.sentinel, hsim.sentinel]
  · rw [hins.same.key, hins'.same.key, hsim.key (hold x (hperm.mem_iff.mp hx))]
  · rw [hins.same.data, hins'.same.data, hsim.data (hold x (hperm.mem_iff.mp hx))]
  · rw [hperm.mem_iff] at hx
    rw [hins.same.sentinel] at hxs
    rw [hins.frame x hx hxs, hins'.frame x hx (hsim.sentinel ▸ hxs)]
    exact hsim.outside h (fun hm => hx (List.mem_cons_of_mem _ hm)) hxs

theorem delete (hsim : Similar t u) (h : Holds t T) (hnode : node ∈ T.toList)
    (hfuel : T.height < fuel) :
    ∃ t' u' T', ncRbtreeDelete fuel t node = some t' ∧ ncRbtreeDelete fuel u node = some u' ∧
      Similar t' u' ∧ Holds t' T' ∧ T'.toList = T.toList.filter (· != node) := by
  obtain ⟨c, l, r, path, rfl⟩ := exists_plug_of_mem hnode
  obtain ⟨t', hrun, h', hdel, -⟩ := h.delete hfuel
  obtain ⟨u', hrun', hu', hdel', -⟩ := (hsim.holds h).delete hfuel
  have hmem : ∀ x ∈ (plug (.node c l node r) path).toList, x ≠ t.sentinel := fun x hx hx' =>
    h.focused.sentinel_not_mem (List.mem_append_left _ (hx' ▸ hx))
  have hlist := toList_deleteAt_eq_filter (List.nodup_append.mp h.focused.nodup).1
  have hleft : ∀ x ∈ (deleteAt c l r path).toList, x ≠ node ∧ x ≠ t.sentinel := by
    intro x hx
    rw [hlist, List.mem_filter] at hx
    exact ⟨by simpa using hx.2, hmem x hx.1⟩
  refine ⟨t', u', _, ncRbtreeDeleteIn_refines fuel _ hrun, ncRbtreeDeleteIn_refines fuel _ hrun',
    h'.similar hu' ?_ (fun x hx => ?_) (fun x hx => ?_) (fun x hx hxs => ?_), h', hlist⟩
  · rw [hdel.sentinel, hdel'.sentinel, hsim.sentinel]
  · rw [hdel.key x (hleft x hx).1, hdel'.key x (hleft x hx).1, hsim.key (hleft x hx).2]
  · rw [hdel.data x (hleft x hx).1, hdel'.data x (hleft x hx).1, hsim.data (hleft x hx).2]
  · rw [hdel.sentinel] at hxs
    by_cases hx' : x = node
    · subst hx'
      rw [hdel.cleared, hdel'.cleared, cleared, cleared, hsim.fields (hmem x hnode)]
    · have hxT : x ∉ (plug (.node c l node r) path).toList := fun hm => hx (by
        rw [hlist]
        exact List.mem_filter.mpr ⟨hm, by simpa using hx'⟩)
      rw [hdel.frame x hxT hxs, hdel'.frame x hxT (hsim.sentinel ▸ hxs)]
      exact hsim.outside h hxT hxs

theorem min (hsim : Similar t u) (h : Holds t T) (hfuel : T.height ≤ fuel) :
    ∃ p, ncRbtreeMin fuel t = some p ∧ ncRbtreeMin fuel u = some p :=
  ⟨_, ncRbtreeMin_spec h.focused hfuel, ncRbtreeMin_spec (hsim.holds h).focused hfuel⟩

end Similar

/-! ## The same calls on both copies -/

/-- Two sessions with the same history on two copies of the tree `T`. -/
structure Alike (s s' : Session) (T : ColorTree Ptr) : Prop where
  holds : Holds s.tree T
  similar : Similar s.tree s'.tree
  arrivals : s'.arrivals = s.arrivals
  sequence : s'.sequence = s.sequence
  nodes : ∀ p, p ∈ s.nodes ↔ p ∈ T.toList

theorem Alike.step_both {s s' : Session} {op : Op} (h : Alike s s' T) (hfuel : T.height < fuel)
    (hcall : Callable s op) :
    ∃ s₁ s₁' T₁, step fuel s op = some s₁ ∧ step fuel s' op = some s₁' ∧ Alike s₁ s₁' T₁ ∧
      T₁.toList.length ≤ T.toList.length + 1 := by
  cases op with
  | insert node fields =>
      obtain ⟨hnodes, hs, h0⟩ := hcall
      have hnode : node ∉ T.toList := fun hm => hnodes ((h.nodes node).mpr hm)
      obtain ⟨t', u', hrun, hrun', hsim, h'⟩ := (h.similar.putNode hs fields).insert
        (h.holds.putNode hnode hs fields) hnode (by exact hs) h0 hfuel
      have hperm := toList_insertTree_perm (goesLeft (s.tree.putNode node fields) node) node T
      refine ⟨_, _, _, by simp only [step, hrun]; rfl,
        by simp only [step, hrun']; rfl, ⟨h', hsim, ?_, ?_, fun p => ?_⟩,
        hperm.length_eq.le⟩
      · simp [h.arrivals]
      · simp [h.sequence]
      · rw [hperm.mem_iff, List.mem_cons, ← h.nodes, or_comm]
        simp [Session.nodes]
  | delete node =>
      have hnode := (h.nodes node).mp hcall
      obtain ⟨t', u', T', hrun, hrun', hsim, h', hlist⟩ := h.similar.delete h.holds hnode hfuel
      refine ⟨_, _, T', by simp only [step, hrun]; rfl,
        by simp only [step, hrun']; rfl, ⟨h', hsim, ?_, ?_, fun p => ?_⟩, ?_⟩
      · simp [h.arrivals]
      · simp [h.sequence]
      · have hnodes : (s.arrivals.filter (·.node != node)).map Entry.node =
            s.nodes.filter (· != node) := by
          unfold Session.nodes
          rw [List.filter_map]
          rfl
        unfold Session.nodes
        rw [hnodes, hlist, List.mem_filter, List.mem_filter, h.nodes]
      · rw [hlist]
        exact (List.length_filter_le _ _).trans (Nat.le_succ _)

theorem Alike.run_both {s s' : Session} {ops : List Op} (h : Alike s s' T)
    (hfuel : T.toList.length + ops.length < fuel) (hok : Along (step fuel) Callable s ops) :
    ∃ s₁ s₁' T₁, run (step fuel) s ops = some s₁ ∧ run (step fuel) s' ops = some s₁' ∧
      Alike s₁ s₁' T₁ ∧ T₁.toList.length ≤ T.toList.length + ops.length := by
  induction ops generalizing s s' T with
  | nil => exact ⟨s, s', T, rfl, rfl, h, le_rfl⟩
  | cons op ops ih =>
      have hheight := T.height_le_length
      rw [List.length_cons] at hfuel ⊢
      obtain ⟨s₁, s₁', T₁, hstep, hstep', h₁, hlen₁⟩ :=
        h.step_both (by omega : T.height < fuel) hok.1
      obtain ⟨s₂, s₂', T₂, hrun, hrun', h₂, hlen₂⟩ := ih h₁ (by omega) (hok.2 s₁ hstep)
      exact ⟨s₂, s₂', T₂, run_cons_some hstep hrun, run_cons_some hstep' hrun', h₂, by omega⟩

/--
After the same calls on two copies of a tree, the trees are copies of each
other, and both have the same minimum.
-/
theorem ncRbtree_ignores_stale (h : Holds t T) (hsim : Similar t u) {ops : List Op}
    (hfuel : T.toList.length + ops.length < fuel)
    (hok : Along (step fuel) Callable
      ⟨t, T.toList.map (entry t), T.toList.map (entry t)⟩ ops) :
    ∃ s s', run (step fuel) ⟨t, T.toList.map (entry t), T.toList.map (entry t)⟩ ops = some s ∧
      run (step fuel) ⟨u, T.toList.map (entry t), T.toList.map (entry t)⟩ ops = some s' ∧
      Similar s.tree s'.tree ∧
      ∃ p, ncRbtreeMin fuel s.tree = some p ∧ ncRbtreeMin fuel s'.tree = some p := by
  have halike : Alike ⟨t, T.toList.map (entry t), T.toList.map (entry t)⟩
      ⟨u, T.toList.map (entry t), T.toList.map (entry t)⟩ T :=
    ⟨h, hsim, rfl, rfl, fun p => by simp [Session.nodes, entry]⟩
  obtain ⟨s, s', T', hrun, hrun', h', hlen⟩ := halike.run_both hfuel hok
  have hheight := T'.height_le_length
  exact ⟨s, s', hrun, hrun', h'.similar, h'.similar.min h'.holds (by omega)⟩

/-- `staleTree` without the stale links. -/
def cleanTree : NcRbtree where
  root := 1
  sentinel := 100
  node p := if p = 1 then ⟨100, 2, 0, 5, 50, .black⟩
    else if p = 2 then ⟨100, 100, 1, 6, 51, .red⟩
    else if p = 100 then ⟨0, 0, 0, 0, 0, .black⟩ else ⟨3, 3, 3, 0, 0, .black⟩

theorem staleTree_similar : Similar staleTree cleanTree where
  root := rfl
  sentinel := rfl
  node p hp hroot := by
    have h1 : p ≠ 1 := hroot
    have h100 : p ≠ 100 := hp
    simp [staleTree, cleanTree, h1, h100]
  root_node _ := rfl
  sentinel_color := rfl

theorem ncRbtree_ignores_stale_rotation :
    ∃ s s', run (step 6) ⟨staleTree, [⟨1, 5, 50⟩, ⟨2, 6, 51⟩], [⟨1, 5, 50⟩, ⟨2, 6, 51⟩]⟩
        [.insert 3 ⟨9, 9, 9, 7, 52, .red⟩, .delete 1, .delete 2] = some s ∧
      run (step 6) ⟨cleanTree, [⟨1, 5, 50⟩, ⟨2, 6, 51⟩], [⟨1, 5, 50⟩, ⟨2, 6, 51⟩]⟩
        [.insert 3 ⟨9, 9, 9, 7, 52, .red⟩, .delete 1, .delete 2] = some s' ∧
      Similar s.tree s'.tree ∧
      ∃ p, ncRbtreeMin 6 s.tree = some p ∧ ncRbtreeMin 6 s'.tree = some p :=
  ncRbtree_ignores_stale staleTree_holds staleTree_similar (by decide) (by decide +kernel)

end Libnc.Rbtree
