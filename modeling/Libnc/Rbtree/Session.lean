import Libnc.Foundation.Run
import Libnc.Foundation.Stable
import Libnc.Rbtree.Safety

/-!
# Runs of the tree

A session is a tree together with what its caller knows: the entries inserted
and not deleted since in the order of arrival, and the order they should have.
Before a node is inserted the caller writes an arbitrary structure into it.
-/

namespace Libnc.Rbtree

open Libnc.Foundation Path NcRbtree

inductive Op where
  | insert (node : Ptr) (fields : NcRbnode)
  | delete (node : Ptr)
  deriving DecidableEq, Repr

/-- A node with its key and its data. -/
structure Entry where
  node : Ptr
  key : Int
  data : Ptr
  deriving DecidableEq, Repr

structure Session where
  tree : NcRbtree
  arrivals : List Entry
  sequence : List Entry

/-- The nodes that the caller has in the tree. -/
def Session.nodes (s : Session) : List Ptr := s.arrivals.map Entry.node

def step (fuel : Nat) (s : Session) : Op → Option Session
  | .insert node fields => do
      let t ← ncRbtreeInsert fuel (s.tree.putNode node fields) node
      let e : Entry := ⟨node, fields.key, fields.data⟩
      some ⟨t, s.arrivals ++ [e], insertAfter Entry.key e s.sequence⟩
  | .delete node => do
      let t ← ncRbtreeDelete fuel s.tree node
      some ⟨t, s.arrivals.filter (·.node != node), s.sequence.filter (·.node != node)⟩

/-- Only new nodes are inserted and only nodes in the tree are deleted. -/
def Callable (s : Session) : Op → Prop
  | .insert node _ => node ∉ s.nodes ∧ node ≠ s.tree.sentinel ∧ node ≠ null
  | .delete node => node ∈ s.nodes

instance decidableCallable (s : Session) : ∀ op, Decidable (Callable s op)
  | .insert node _ => inferInstanceAs (Decidable
      (node ∉ s.nodes ∧ node ≠ s.tree.sentinel ∧ node ≠ null))
  | .delete node => inferInstanceAs (Decidable (node ∈ s.nodes))

/-- A fresh tree with its sentinel at `100`, in zeroed memory. -/
def emptyTree : NcRbtree := (ncRbtreeInit (fun _ => ⟨0, 0, 0, 0, 0, .red⟩) 100).get rfl

theorem emptyTree_init :
    ncRbtreeInit (fun _ => ⟨0, 0, 0, 0, 0, .red⟩) 100 = some emptyTree := rfl

def entry (t : NcRbtree) (p : Ptr) : Entry := ⟨p, t.key p, t.data p⟩

/-- The memory holds a valid tree whose entries are those of the session. -/
structure Sound (s : Session) (T : ColorTree Ptr) : Prop where
  focused : Focused T.toList s.tree T []
  valid : T.Valid
  entries : T.toList.map (entry s.tree) = s.sequence
  order : StableSort Entry.key s.arrivals s.sequence

variable {s : Session} {T : ColorTree Ptr} {t t' : NcRbtree} {fuel : Nat}

namespace Sound

theorem holds (h : Sound s T) : Holds s.tree T := ⟨h.focused, h.valid⟩

theorem nodup (h : Sound s T) : T.toList.Nodup := (List.nodup_append.mp h.focused.nodup).1

theorem map_node (h : Sound s T) : s.sequence.map Entry.node = T.toList := by
  rw [← h.entries, List.map_map]
  exact List.map_id _

theorem mem_nodes (h : Sound s T) {p : Ptr} : p ∈ s.nodes ↔ p ∈ T.toList := by
  rw [← h.map_node]
  exact (h.order.perm.map Entry.node).mem_iff.symm

theorem length_eq (h : Sound s T) : s.arrivals.length = T.toList.length := by
  rw [← h.map_node, List.length_map, h.order.perm.length_eq]

end Sound

/-! ## One step -/

theorem entry_putNode {node p : Ptr} (fields : NcRbnode) (h : p ≠ node) :
    entry (t.putNode node fields) p = entry t p := by
  simp [entry, key, data, putNode, h]

theorem insert_spec (h : Sound s T) (hfuel : T.height < fuel) {node : Ptr}
    {fields : NcRbnode} (hcall : Callable s (.insert node fields)) :
    ∃ s' T', step fuel s (.insert node fields) = some s' ∧ Sound s' T' ∧
      s'.tree.sentinel = s.tree.sentinel ∧ T'.toList.length = T.toList.length + 1 ∧
      Inserted (node :: T.toList) T (s.tree.putNode node fields) s'.tree := by
  obtain ⟨hnodes, hs, h0⟩ := hcall
  have hnode : node ∉ T.toList := fun hm => hnodes (h.mem_nodes.mpr hm)
  obtain ⟨t', hrunIn, h', hk⟩ :=
    (h.holds.putNode hnode hs fields).insert hnode (by exact hs) h0 hfuel
  have hrun := ncRbtreeInsertIn_refines fuel _ hrunIn
  have hold : ∀ p ∈ T.toList, entry (s.tree.putNode node fields) p = entry s.tree p :=
    fun p hp => entry_putNode fields (ne_of_mem_of_not_mem hp hnode)
  have hsame : ∀ p, entry t' p = entry (s.tree.putNode node fields) p := fun p => by
    rw [entry, entry, hk.same.key, hk.same.data]
  have hnew : entry (s.tree.putNode node fields) node = ⟨node, fields.key, fields.data⟩ := by
    simp [entry, key, data, putNode]
  have hgoes : ∀ p ∈ T.toList,
      goesLeft (s.tree.putNode node fields) node p = decide (fields.key < (entry s.tree p).key) :=
    fun p hp => by
      rw [← hold p hp, goesLeft, decide_eq_decide]
      simp [entry, key, putNode]
  have hsorted : T.toList.Pairwise fun a b =>
      goesLeft (s.tree.putNode node fields) node a = true →
        goesLeft (s.tree.putNode node fields) node b = true := by
    have hkeys := h.order.sorted
    rw [← h.entries, List.pairwise_map] at hkeys
    refine hkeys.imp_of_mem fun {a b} ha hb hab => ?_
    rw [hgoes a ha, hgoes b hb, decide_eq_true_eq, decide_eq_true_eq]
    exact fun hlt => hlt.trans_le hab
  obtain ⟨xs, ys, hlist, hxs, hys, hinsert⟩ := toList_insertTree hsorted node
  have hentries : (insertTree (goesLeft (s.tree.putNode node fields) node) node T).toList.map
      (entry t') = insertAfter Entry.key ⟨node, fields.key, fields.data⟩ s.sequence := by
    have hmem : ∀ p, p ∈ xs ∨ p ∈ ys → p ∈ T.toList := fun p hp => by
      rw [hlist]
      exact List.mem_append.mpr hp
    rw [hinsert, ← h.entries, hlist, List.map_append, List.map_append, List.map_cons,
      insertAfter_append]
    · rw [hsame, hnew]
      congr 1
      · exact List.map_congr_left fun p hp => (hsame p).trans (hold p (hmem p (.inl hp)))
      · congr 1
        exact List.map_congr_left fun p hp => (hsame p).trans (hold p (hmem p (.inr hp)))
    · intro e he
      obtain ⟨p, hp, rfl⟩ := List.mem_map.mp he
      have := hxs p hp
      rw [hgoes p (hmem p (.inl hp))] at this
      simpa using this
    · intro e he
      obtain ⟨p, hp, rfl⟩ := List.mem_map.mp he
      have := hys p hp
      rw [hgoes p (hmem p (.inr hp))] at this
      simpa using this
  refine ⟨_, _, by simp only [step, hrun]; rfl, ⟨h'.focused, h'.valid, hentries,
    h.order.insert _⟩, hk.same.sentinel, ?_, hk⟩
  simp [hinsert, hlist, Nat.add_assoc]

/-- The root goes from above its only child. -/
def LosesRoot (t : NcRbtree) (node : Ptr) : Prop :=
  node = t.root ∧ (t.child .left node = t.sentinel ↔ t.child .right node ≠ t.sentinel)

instance decidableLosesRoot (t : NcRbtree) (node : Ptr) : Decidable (LosesRoot t node) :=
  inferInstanceAs (Decidable (_ ∧ _))

theorem Focused.losesRoot_iff {nodes : List Ptr} {c : Color} {l r : ColorTree Ptr} {x : Ptr}
    {path : Path Ptr} (h : Focused nodes t (.node c l x r) path) :
    LosesRoot t x ↔ path = [] ∧ (l = .nil ↔ r ≠ .nil) := by
  have hl : t.child .left x = t.sentinel ↔ l = .nil := by
    rw [h.focus.2.1]
    exact (focused_fill (f := ⟨.left, c, x, r⟩).mp h).ptr_eq_sentinel_iff
  have hr : t.child .right x = t.sentinel ↔ r = .nil := by
    rw [h.focus.2.2.1]
    exact (focused_fill (f := ⟨.right, c, x, l⟩).mp h).ptr_eq_sentinel_iff
  exact and_congr h.ptr_eq_root_iff (iff_congr hl hr.not)

theorem delete_spec (h : Sound s T) (hfuel : T.height < fuel) {node : Ptr}
    (hcall : Callable s (.delete node)) :
    ∃ s' T', step fuel s (.delete node) = some s' ∧ Sound s' T' ∧
      s'.tree.sentinel = s.tree.sentinel ∧ T'.toList.length ≤ T.toList.length ∧
      (LosesRoot s.tree node →
        s'.tree.root ≠ s'.tree.sentinel ∧ s'.tree.parent s'.tree.root = node) ∧
      (¬ LosesRoot s.tree node → s'.tree.root ≠ s'.tree.sentinel →
        s'.tree.parent s'.tree.root = s.tree.parent s.tree.root) := by
  obtain ⟨c, l, r, path, rfl⟩ := exists_plug_of_mem (h.mem_nodes.mp hcall)
  have hfocused := focused_plug.mp h.focused
  rw [List.append_nil] at hfocused
  obtain ⟨t', hrunIn, h', hsame, hstays, hstale⟩ := h.holds.delete hfuel
  have hrun := ncRbtreeDeleteIn_refines fuel _ hrunIn
  have hlist : (deleteAt c l r path).toList =
      (plug (.node c l node r) path).toList.filter (· != node) :=
    toList_deleteAt_eq_filter h.nodup
  refine ⟨_, _, by simp only [step, hrun]; rfl, ⟨h'.focused, h'.valid, ?_,
    h.order.filter _⟩, hsame.sentinel, ?_, fun hloses => ?_, fun hkeeps hroot => ?_⟩
  · rw [hlist, ← h.entries, List.filter_map]
    apply List.map_congr_left
    intro p hp
    have hne : p ≠ node := by simpa using (List.mem_filter.mp hp).2
    rw [entry, entry, hsame.key p hne, hsame.data p hne]
  · rw [hlist]
    exact List.length_filter_le _ _
  · obtain ⟨hpath, hone⟩ := hfocused.losesRoot_iff.mp hloses
    refine ⟨?_, hstale hpath hone⟩
    have hne : deleteAt c l r path ≠ .nil := fun hnil => by
      have hempty := toList_deleteAt c l r path
      rw [hnil, hpath] at hempty
      simp only [before, after, List.nil_append, List.append_nil, ColorTree.toList,
        List.nil_eq, List.append_eq_nil_iff] at hempty
      have hl := ColorTree.toList_eq_nil hempty.1
      exact hone.mp hl (ColorTree.toList_eq_nil hempty.2)
    have hroot' : t'.root = ptr t'.sentinel (deleteAt c l r path) := h'.focused.root
    exact hroot' ▸ mt h'.focused.ptr_eq_sentinel_iff.mp hne
  · rw [hfocused.losesRoot_iff] at hkeeps
    by_cases hnil : path = []
    · by_cases hboth : l = .nil ∧ r = .nil
      · -- nothing is left
        have hempty : (deleteAt c l r path).toList = [] := by
          rw [toList_deleteAt, hboth.1, hboth.2, hnil]
          rfl
        have hroot' : t'.root = t'.sentinel := by
          rw [h'.focused.root, ColorTree.toList_eq_nil hempty]
          rfl
        exact absurd hroot' hroot
      · exact hstays (.inr (by tauto))
    · exact hstays (.inl hnil)

/-- Every call that is made as it should be returns and keeps the invariant. -/
theorem step_spec (h : Sound s T) (hfuel : T.height < fuel) {op : Op}
    (hcall : Callable s op) :
    ∃ s' T', step fuel s op = some s' ∧ Sound s' T' ∧
      T'.toList.length ≤ T.toList.length + 1 := by
  cases op with
  | insert node fields =>
      obtain ⟨s', T', hrun, hs', -, hlen, -⟩ := insert_spec h hfuel hcall
      exact ⟨s', T', hrun, hs', hlen.le⟩
  | delete node =>
      obtain ⟨s', T', hrun, hs', -, hlen, -, -⟩ := delete_spec h hfuel hcall
      exact ⟨s', T', hrun, hs', hlen.trans (Nat.le_succ _)⟩

/-! ## Whole runs -/

theorem init_sound {memory : Ptr → NcRbnode} {sentinel : Ptr}
    (h : ncRbtreeInit memory sentinel = some t) : Sound ⟨t, [], []⟩ .nil := by
  by_cases h0 : sentinel = null
  · simp [ncRbtreeInit, ncRbtreeNodeInit, h0] at h
  · simp only [ncRbtreeInit, ncRbtreeNodeInit, if_neg h0, Option.bind_eq_bind, Option.bind_some,
      setColor, Option.some.injEq] at h
    subst h
    refine ⟨⟨trivial, trivial, rfl, by simp [values, ColorTree.toList],
      by simp [values, ColorTree.toList], by simp [values, ColorTree.toList], h0, ?_,
      by simp [values, ColorTree.toList]⟩, ⟨rfl, 0, .nil⟩, rfl,
      .nil⟩
    simp [putNode]

theorem run_spec {memory : Ptr → NcRbnode} {sentinel : Ptr}
    (hinit : ncRbtreeInit memory sentinel = some t) {ops : List Op} (hfuel : ops.length < fuel)
    (hok : Along (step fuel) Callable ⟨t, [], []⟩ ops) :
    ∃ s T, run (step fuel) ⟨t, [], []⟩ ops = some s ∧ Sound s T ∧
      T.toList.length ≤ ops.length := by
  obtain ⟨s, hrun, T, hs, hlen⟩ := Along.run_total
    (fun past s => ∃ T, Sound s T ∧ T.toList.length ≤ past.length) ops.length
    (fun past s op hlen ⟨T, hs, hT⟩ hcall => by
      have hheight := T.height_le_length
      obtain ⟨s', T', hrun, hs', hT'⟩ := step_spec hs (by omega : T.height < fuel) hcall
      exact ⟨s', hrun, T', hs', by rw [List.length_append, List.length_singleton]; omega⟩)
    [] (by simp) ⟨.nil, init_sound hinit, by simp [ColorTree.toList]⟩ hok
  exact ⟨s, T, hrun, hs, hlen⟩

end Libnc.Rbtree
