import Libnc.Rbtree.Delete
import Libnc.Rbtree.Insert

/-!
# Safety of insertion and deletion

On a red-black tree with consistent links no access leaves the tree: the guarded
functions have a result, and it is that of the functions themselves.

A loop with fuel `n + 1` makes at most `n` rounds, so the bound on the fuel is
one on the rounds.
-/

namespace Libnc.Rbtree

open Libnc.Foundation Path NcRbtree

/-- The memory holds the red-black tree `T`. -/
structure Holds (t : NcRbtree) (T : ColorTree Ptr) : Prop where
  focused : Focused T.toList t T []
  valid : T.Valid

variable {t : NcRbtree} {T : ColorTree Ptr} {node : Ptr} {fuel : Nat}

theorem Focused.own {nodes : List Ptr} (h : Focused nodes t T []) : Focused T.toList t T [] :=
  h.restrict (by simp [values])

theorem Focused.withNew {nodes : List Ptr} (h : Focused nodes t T []) (hs : node ≠ t.sentinel)
    (h0 : node ≠ null) :
    Focused (node :: T.toList) t T [] ∧ t.IsNode (node :: T.toList) node :=
  ⟨h.restrict (by simp +contextual [values]), List.mem_cons_self, h0, hs⟩

namespace Holds

theorem putNode (h : Holds t T) (hnode : node ∉ T.toList) (hs : node ≠ t.sentinel)
    (fields : NcRbnode) : Holds (t.putNode node fields) T :=
  ⟨h.focused.putNode (by simpa [values] using hnode) hs fields, h.valid⟩

theorem insert (h : Holds t T) (hnode : node ∉ T.toList) (hs : node ≠ t.sentinel)
    (h0 : node ≠ null) (hfuel : T.height < fuel) :
    ∃ t', ncRbtreeInsertIn (node :: T.toList) fuel t node = some t' ∧
      Holds t' (insertTree (goesLeft t node) node T) ∧ Inserted (node :: T.toList) T t t' := by
  obtain ⟨hfocused, hnew⟩ := h.focused.withNew hs h0
  obtain ⟨t', hrun, h', hinserted⟩ := ncRbtreeInsert_spec hfocused h.valid hnode hnew hfuel
  exact ⟨t', hrun, ⟨h'.own, valid_insertTree h.valid _ _⟩, hinserted⟩

theorem delete {c : Color} {l r : ColorTree Ptr} {path : Path Ptr}
    (h : Holds t (plug (.node c l node r) path))
    (hfuel : (plug (.node c l node r) path).height < fuel) :
    ∃ t', ncRbtreeDeleteIn (plug (.node c l node r) path).toList fuel t node = some t' ∧
      Holds t' (deleteAt c l r path) ∧
      Deleted (plug (.node c l node r) path).toList node t t' ∧
      (path ≠ [] ∨ l ≠ .nil ∧ r ≠ .nil → t'.parent t'.root = t.parent t.root) ∧
      (path = [] → (l = .nil ↔ r ≠ .nil) → t'.parent t'.root = node) := by
  have hfocused := focused_plug.mp h.focused
  rw [List.append_nil] at hfocused
  obtain ⟨t', hrun, h', hdeleted, hroot⟩ := ncRbtreeDelete_spec hfocused h.valid hfuel
  exact ⟨t', hrun, ⟨h'.own, valid_deleteAt h.valid⟩, hdeleted, hroot⟩

end Holds

/--
Both operations keep to the nodes of the tree, never follow the parent link of
the root, never colour the sentinel red, and end within as many rounds as the
tree is high.
-/
theorem ncRbtree_keeps_inside (h : Holds t T) (hfuel : T.height < fuel) :
    (∀ node, node ∉ T.toList → node ≠ t.sentinel → node ≠ null →
      ∃ t' T', ncRbtreeInsertIn (node :: T.toList) fuel t node = some t' ∧
        ncRbtreeInsert fuel t node = some t' ∧ Holds t' T') ∧
      ∀ node ∈ T.toList, ∃ t' T', ncRbtreeDeleteIn T.toList fuel t node = some t' ∧
        ncRbtreeDelete fuel t node = some t' ∧ Holds t' T' := by
  constructor
  · intro node hnode hs h0
    obtain ⟨t', hrun, h', -⟩ := h.insert hnode hs h0 hfuel
    exact ⟨t', _, hrun, ncRbtreeInsertIn_refines fuel _ hrun, h'⟩
  · intro node hnode
    obtain ⟨c, l, r, path, rfl⟩ := exists_plug_of_mem hnode
    obtain ⟨t', hrun, h', -⟩ := h.delete hfuel
    exact ⟨t', _, hrun, ncRbtreeDeleteIn_refines fuel _ hrun, h'⟩

/-- Two nodes, with a stale parent link at the root and stale links at the sentinel. -/
def staleTree : NcRbtree where
  root := 1
  sentinel := 100
  node p := if p = 1 then ⟨100, 2, 7, 5, 50, .black⟩
    else if p = 2 then ⟨100, 100, 1, 6, 51, .red⟩ else ⟨3, 3, 3, 0, 0, .black⟩

theorem staleTree_holds : Holds staleTree (.node .black .nil 1 (.node .red .nil 2 .nil)) where
  focused := by
    refine ⟨?_, trivial, rfl, by decide, by decide, by decide, by decide, rfl, by decide⟩
    refine ⟨rfl, rfl, rfl, by simp [above], trivial, rfl, rfl, rfl, ?_, trivial, trivial⟩
    rintro p ⟨⟩
    rfl
  valid := ⟨rfl, 1, .black .nil (.red .nil .nil rfl rfl)⟩

theorem ncRbtree_keeps_inside_stale :
    (∀ node, node ∉ [1, 2] → node ≠ 100 → node ≠ 0 →
      ∃ t' T', ncRbtreeInsertIn [node, 1, 2] 3 staleTree node = some t' ∧
        ncRbtreeInsert 3 staleTree node = some t' ∧ Holds t' T') ∧
      ∀ node ∈ [1, 2], ∃ t' T', ncRbtreeDeleteIn [1, 2] 3 staleTree node = some t' ∧
        ncRbtreeDelete 3 staleTree node = some t' ∧ Holds t' T' :=
  ncRbtree_keeps_inside staleTree_holds (by decide)

end Libnc.Rbtree
