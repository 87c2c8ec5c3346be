import Libnc.Hashtable.Session
import Libnc.Hashtable.Traversal

/-!
# Failed calls of `nc_hashtable_set`

A call that fails because no pair could be allocated leaves the table as it
was.  A call that fails because the growth was refused does not: it has already
freed the old bucket array.  These are the only two cases.
-/

namespace Libnc.Hashtable

open Libnc.Foundation

/-- Calls that keep to the contract return, after any number of others. -/
def LaterDefined (t : NcHashtable) : Prop :=
  ∀ (events : List Event) (ops : List Op) (fuel : Nat), t.size + ops.length < fuel →
    Along (step fuel) (fun s op => Callable s op ∧ FewPairs s.table) ⟨t, events⟩ ops →
    ∃ s, run (step fuel) ⟨t, events⟩ ops = some s ∧
      (∀ key, ncHashtableGet fuel s.table key ≠ none) ∧ entries fuel s.table ≠ none ∧
      ∀ reply key value, (∀ a ∈ reply.pair, s.table.live a = false) → FewPairs s.table →
        ncHashtableSet reply fuel s.table key value ≠ none

/-- The table `t'` is as good as `t` and holds the same. -/
structure Intact (fuel : Nat) (t t' : NcHashtable) : Prop where
  buckets : ∃ n buckets, numBuckets t' = some n ∧ t'.buckets = some buckets ∧
    buckets.length = n ∧ ∀ b ∈ buckets, t'.valid b.first = true ∧ t'.valid b.last = true
  size : t'.size = t.size
  get : ∀ key, ∃ value, ncHashtableGet fuel t key = some value ∧
    ncHashtableGet fuel t' key = some value
  entries : ∃ l l', entries fuel t = some l ∧ entries fuel t' = some l' ∧ l.Perm l'
  later : LaterDefined t'

variable {callbacks : Callbacks} {t t' : NcHashtable} {n n' fuel : Nat} {S S' : Layout}

theorem Rep.bucketEnds_valid (h : Rep callbacks t n S) (i : Nat) :
    t.valid (bucketEnds (S.segment i)).first = true ∧
      t.valid (bucketEnds (S.segment i)).last = true := by
  have hlive : ∀ b ∈ S.segment i, t.live b = true := fun b hb =>
    h.live b (Segmented.mem_order_of_mem_segment hb)
  cases hseg : S.segment i with
  | nil => exact ⟨rfl, rfl⟩
  | cons a seg =>
      rw [hseg] at hlive
      refine ⟨hlive a (by simp), hlive _ ?_⟩
      cases hlast : seg.getLast? with
      | none => simp
      | some b => simp [List.mem_of_getLast? hlast]

theorem ncHashtableSet_defined (h : Rep callbacks t n S) (hk : LawfulKeys callbacks)
    (hfuel : S.order.length < fuel) {reply : SetReply}
    (hfresh : ∀ a ∈ reply.pair, t.live a = false) (hfew : FewPairs t) (key value : Ptr) :
    ncHashtableSet reply fuel t key value ≠ none := by
  have hcan := h.canGrow_of_few hfew
  cases hgrowth : growthRefused t reply with
  | true => simp [ncHashtableSet_growthRefused h hcan hgrowth]
  | false =>
      obtain ⟨status, t', m, S', hrun, -⟩ :=
        ncHashtableSet_spec h hk hfuel hcan hgrowth hfresh key value
      simp [hrun]

theorem laterDefined_of_rep (h : Rep callbacks t n S) (hk : LawfulKeys callbacks) :
    LaterDefined t := by
  intro events ops fuel hfuel hok
  have hsound : Sound callbacks t.size (Session.table ⟨t, events⟩) := ⟨n, S, h, h.size_eq.ge⟩
  obtain ⟨s, hrun, ⟨m, T, hrep, hlen⟩, -⟩ := run_spec hk (fun _ _ => True)
    (fun _ _ _ _ _ _ _ _ _ => trivial) hsound trivial hfuel hok
  have hlt : T.order.length < fuel := hlen.trans_lt hfuel
  refine ⟨s, hrun, fun key => ?_, ?_, fun reply key value hfresh hfew =>
    ncHashtableSet_defined hrep hk hlt hfresh hfew key value⟩
  · obtain ⟨value, hget⟩ := ncHashtableGet_defined hrep hk hlt key
    simp [hget]
  · simp [entries_spec hrep hlt]

theorem intact_of_view_eq (h : Rep callbacks t n S) (h' : Rep callbacks t' n' S')
    (hk : LawfulKeys callbacks) (hfuel : S.order.length < fuel) (hview : t'.view = t.view) :
    Intact fuel t t' := by
  have hperm : S.order.Perm S'.order :=
    (List.perm_ext_iff_of_nodup h.order_nodup h'.order_nodup).mpr fun a => by
      rw [h.enumerates.mem_iff, h'.enumerates.mem_iff, hview]
  have hfuel' : S'.order.length < fuel := hperm.length_eq ▸ hfuel
  exact {
    buckets := ⟨n', _, h'.capacity, h'.buckets, by simp, fun b hb => by
      obtain ⟨i, -, rfl⟩ := List.mem_map.mp hb
      exact h'.bucketEnds_valid i⟩
    size := by rw [h.size_eq, h'.size_eq, hperm.length_eq]
    get := fun key => by
      obtain ⟨value, hget⟩ := ncHashtableGet_defined h hk hfuel key
      refine ⟨value, hget, ?_⟩
      rw [(lookup_congr h h' hk hfuel hfuel' fun a k v _ => by rw [hview]).2, hget]
    entries := ⟨_, _, entries_spec h hfuel, entries_spec h' hfuel', by
      rw [hview]
      exact hperm.filterMap _⟩
    later := laterDefined_of_rep h' hk }

/--
On every table reached by calls whose growth was granted, a call that returns
-1 leaves the table intact exactly if its own growth was not refused.
-/
theorem failed_ncHashtableSet_intact_iff (hk : LawfulKeys callbacks) {t₀ : NcHashtable}
    (hinit : ncHashtableInit true callbacks = some t₀) {ops : List Op} {s : Session}
    (hfuel : ops.length < fuel) (hok : Along (step fuel) Callable ⟨t₀, []⟩ ops)
    (hrun : run (step fuel) ⟨t₀, []⟩ ops = some s) {reply : SetReply} {key value : Ptr}
    (hfresh : ∀ a ∈ reply.pair, s.table.live a = false)
    (hset : ncHashtableSet reply fuel s.table key value = some (-1, t')) :
    Intact fuel s.table t' ↔ growthRefused s.table reply = false := by
  obtain ⟨n, S, h, hlen⟩ := sound_of_run hk (init_sound hinit).1 (by omega) hok hrun
  have hlt : S.order.length < fuel := by omega
  have hcan := canGrow_of_ncHashtableSet hset
  constructor
  · intro hintact
    by_contra hgrowth
    rw [Bool.not_eq_false] at hgrowth
    rw [ncHashtableSet_growthRefused h hcan hgrowth, Option.some.injEq, Prod.mk.injEq] at hset
    obtain ⟨n', buckets, -, hbuckets, -⟩ := hintact.buckets
    rw [← hset.2] at hbuckets
    simp at hbuckets
  · intro hgrowth
    obtain ⟨status, u, m, S', hrun', h', hout, -⟩ :=
      ncHashtableSet_spec h hk hlt hcan hgrowth hfresh key value
    obtain ⟨rfl, rfl⟩ : status = -1 ∧ u = t' := by simpa [hrun'] using hset
    cases hout with
    | refused _ _ _ view_eq _ => exact intact_of_view_eq h h' hk hlt view_eq

/-- A call without memory for its pair, on a table with room. -/
theorem failed_ncHashtableSet_intact_iff_pair :
    ∃ s t', run (step 2) ⟨addressTable, []⟩ [.set ⟨true, some 1⟩ 1 10] = some s ∧
      ncHashtableSet ⟨true, none⟩ 2 s.table 2 20 = some (-1, t') ∧ Intact 2 s.table t' := by
  have hfail : ((run (step 2) ⟨addressTable, []⟩ [.set ⟨true, some 1⟩ 1 10]).bind fun s =>
      (ncHashtableSet ⟨true, none⟩ 2 s.table 2 20).map Prod.fst) = some (-1) := by
    decide
  obtain ⟨s, hrun, hstatus⟩ := Option.bind_eq_some_iff.mp hfail
  obtain ⟨⟨status, t'⟩, hset, rfl⟩ := Option.map_eq_some_iff.mp hstatus
  exact ⟨s, t', hrun, hset, (failed_ncHashtableSet_intact_iff addressKeys_lawful
    addressTable_init (by decide) (by decide) hrun (by simp) hset).mpr
    (by simp [growthRefused])⟩

/-- Five keys fill the first bucket array. -/
def fiveSets : List Op :=
  [.set ⟨true, some 1⟩ 1 10, .set ⟨true, some 2⟩ 2 20, .set ⟨true, some 3⟩ 3 30,
    .set ⟨true, some 4⟩ 4 40, .set ⟨true, some 5⟩ 5 50]

/-- The sixth key needs a bucket array that is refused: every stored key is lost. -/
theorem refused_growth_loses_buckets :
    ∃ s t', Along (step 6) Callable ⟨addressTable, []⟩ fiveSets ∧
      run (step 6) ⟨addressTable, []⟩ fiveSets = some s ∧
      ncHashtableSet ⟨false, some 6⟩ 6 s.table 6 60 = some (-1, t') ∧
      ncHashtableGet 6 s.table 1 = some 10 ∧ ncHashtableGet 6 t' 1 = none ∧
      ¬ Intact 6 s.table t' := by
  refine ⟨_, _, by decide, rfl, rfl, by decide, by decide, fun hintact => ?_⟩
  obtain ⟨n, buckets, -, hbuckets, -⟩ := hintact.buckets
  cases hbuckets

end Libnc.Hashtable
