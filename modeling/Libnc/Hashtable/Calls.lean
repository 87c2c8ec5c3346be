import Libnc.Hashtable.Session

/-!
# Calls on any keys

What a call does to the pairs and to the free calls whatever `hash_key` and
`cmp_keys` answer: they only decide which pair a search finds, if any.
-/

namespace Libnc.Hashtable

open Libnc.Foundation

variable {callbacks : Callbacks} {t t' : NcHashtable} {s : Session} {n fuel : Nat} {S : Layout}

/-- The entry that a call leaves in the record. -/
inductive Records : Op → Event → Prop where
  | set {reply : SetReply} {key value : Ptr} {status : Int} :
      Records (.set reply key value) (.set key value status)
  | del {key : Ptr} : Records (.del key) (.del key)
  | clear : Records .clear .clear
  | iterSet {iter : ListPtr} {key value : Ptr} : Records (.iterSet iter value) (.iterSet key value)

/-- What a recorded call can have done, some pair having been found or none. -/
inductive Moves (t : NcHashtable) : Event → NcHashtable → Prop where
  | replaced {a : Nat} {k v key value : Ptr} {t' : NcHashtable} (held : t.view a = some (k, v))
      (view_eq : t'.view = Function.update t.view a (some (k, value)))
      (freed_eq : t'.freed = freeCalls t.callbacks key v ++ t.freed) :
      Moves t (.set key value 0) t'
  | refused {key value : Ptr} {t' : NcHashtable} (view_eq : t'.view = t.view)
      (freed_eq : t'.freed = t.freed) : Moves t (.set key value (-1)) t'
  | inserted {a : Nat} {key value : Ptr} {t' : NcHashtable} (fresh : t.view a = none)
      (view_eq : t'.view = Function.update t.view a (some (key, value)))
      (freed_eq : t'.freed = t.freed) : Moves t (.set key value 0) t'
  | removed {a : Nat} {k v key : Ptr} {t' : NcHashtable} (held : t.view a = some (k, v))
      (view_eq : t'.view = Function.update t.view a none)
      (freed_eq : t'.freed = freeCalls t.callbacks k v ++ t.freed) : Moves t (.del key) t'
  | missing {key : Ptr} : Moves t (.del key) t
  | cleared {cells : List Nat} {t' : NcHashtable} (cells_eq : Enumerates cells t)
      (view_eq : t'.view = fun _ => none)
      (freed_eq : t'.freed = releasedBy t cells ++ t.freed) : Moves t .clear t'
  | rewritten {a : Nat} {k v value : Ptr} {t' : NcHashtable} (held : t.view a = some (k, v))
      (view_eq : t'.view = Function.update t.view a (some (k, value)))
      (freed_eq : t'.freed =
        (if t.callbacks.freeValue then [.value v] else []) ++ t.freed) :
      Moves t (.iterSet k value) t'

theorem view_of_live {a : Nat} (hlive : t.live a = true) :
    t.view a = some ((t.pair a).key, (t.pair a).value) :=
  if_pos hlive

/-! ## The functions -/

theorem Skeleton.setPair (h : Skeleton t n S) {reply : Option Nat}
    (hfuel : S.order.length ≤ fuel) (hroom : t.size < n)
    (hfresh : ∀ a, reply = some a → t.live a = false) (key value : Ptr) :
    ∃ status t' S', setPair reply fuel t key value = some (status, t') ∧
      Moves t (.set key value status) t' ∧ t'.callbacks = t.callbacks ∧ Skeleton t' n S' ∧
      S'.order.length ≤ S.order.length + 1 := by
  have hfind := hashtableFindPair_spec h.toChained hfuel key (t.callbacks.hashKey key)
    (i := t.callbacks.hashKey key % n)
  simp only [Libnc.Hashtable.setPair, h.numBuckets_eq, Option.bind_eq_bind, Option.bind_some,
    h.bucket_mod, hfind]
  cases hpair : (S.segment (t.callbacks.hashKey key % n)).find?
      (Matches t key (t.callbacks.hashKey key)) with
  | some a =>
      have hlive := h.live a
        (Segmented.mem_order_of_mem_segment (List.mem_of_find?_eq_some hpair))
      have hget : (t.callFreeKey key).getPair a = some (t.pair a) := by
        simp only [NcHashtable.callFreeKey]
        split <;> simp [NcHashtable.getPair, hlive]
      refine ⟨0, _, S, ?_, .replaced (view_of_live hlive)
          (view_revalue hlive value (freeCalls t.callbacks key (t.pair a).value ++ t.freed)) rfl,
        rfl, h.revalue a value _, Nat.le_add_right _ _⟩
      simp [hget, callFree_eq, setValue_of_live hlive]
  | none =>
      cases reply with
      | none => exact ⟨-1, t, S, rfl, .refused rfl rfl, rfl, h, Nat.le_add_right _ _⟩
      | some a =>
          obtain ⟨t', hins, hskeleton, hrel⟩ := h.insertPair (Nat.mod_lt _ h.pos) (hfresh a rfl)
            hroom ⟨key, value, t.callbacks.hashKey key, ⟨.pair a, .pair a⟩⟩
          have hnone : t.view a = none := if_neg (by simp [hfresh a rfl])
          refine ⟨0, t', _, hins, .inserted hnone (view_inserted hrel) hrel.freed,
            hrel.callbacks, hskeleton, ?_⟩
          rw [(Segmented.order_place_perm S _ a).length_eq, List.length_cons]

theorem Moves.of_relinked {u : NcHashtable} {key value : Ptr} {status : Int}
    (hview : u.view = t.view) (hcallbacks : u.callbacks = t.callbacks) (hfreed : u.freed = t.freed)
    (h : Moves u (.set key value status) t') : Moves t (.set key value status) t' := by
  cases h with
  | replaced held view_eq freed_eq =>
      rw [hview] at held view_eq
      rw [hcallbacks, hfreed] at freed_eq
      exact .replaced held view_eq freed_eq
  | refused view_eq freed_eq => exact .refused (view_eq.trans hview) (freed_eq.trans hfreed)
  | inserted fresh view_eq freed_eq =>
      rw [hview] at fresh view_eq
      exact .inserted fresh view_eq (freed_eq.trans hfreed)

theorem Skeleton.set (h : Skeleton t n S) {reply : SetReply} (hfuel : S.order.length < fuel)
    (hcan : CanGrow t) (hgrowth : growthRefused t reply = false)
    (hfresh : ∀ a, reply.pair = some a → t.live a = false) (key value : Ptr) :
    ∃ status t' m S', ncHashtableSet reply fuel t key value = some (status, t') ∧
      Moves t (.set key value status) t' ∧ t'.callbacks = t.callbacks ∧ Skeleton t' m S' ∧
      S'.order.length ≤ S.order.length + 1 := by
  simp only [ncHashtableSet, h.numBuckets_eq, Option.bind_eq_bind, Option.bind_some]
  by_cases hfull : n ≤ t.size
  · have hbuckets : reply.buckets = true := by
      simpa [growthRefused, h.numBuckets_eq, hfull] using hgrowth
    obtain ⟨m, hm⟩ := hcan n h.capacity hfull
    obtain ⟨u, T, hrehash, hu, hrel, hperm, -⟩ := h.rehash hm hfuel
    have hroom : u.size < m := by
      rw [show u.size = t.size from hrel.size]
      exact h.size_le.trans_lt (primes_lt_succ h.capacity hm)
    obtain ⟨status, t', S', hrun, hmoves, hcallbacks, hskeleton, hlen⟩ := hu.setPair
      (hperm.length_eq.trans_le hfuel.le) hroom
      (fun a ha => by rw [show u.live = t.live from hrel.live]; exact hfresh a ha) key value
    refine ⟨status, t', m, S', ?_, hmoves.of_relinked ((view_of_relinked hrel).trans rfl)
      hrel.callbacks hrel.freed, hcallbacks.trans hrel.callbacks, hskeleton, ?_⟩
    · simpa [hfull, hbuckets, hrehash] using hrun
    · rwa [hperm.length_eq] at hlen
  · obtain ⟨status, t', S', hrun, hmoves⟩ :=
      h.setPair hfuel.le (Nat.lt_of_not_le hfull) hfresh key value
    exact ⟨status, t', n, S', by rw [if_neg hfull]; exact hrun, hmoves⟩

theorem Skeleton.del (h : Skeleton t n S) (hfuel : S.order.length ≤ fuel) (key : Ptr) :
    ∃ status t' S', ncHashtableDel fuel t key = some (status, t') ∧ Moves t (.del key) t' ∧
      t'.callbacks = t.callbacks ∧ Skeleton t' n S' ∧ S'.order.length ≤ S.order.length := by
  have hfind := hashtableFindPair_spec h.toChained hfuel key (t.callbacks.hashKey key)
    (i := t.callbacks.hashKey key % n)
  simp only [ncHashtableDel, hashtableDoDel, h.numBuckets_eq, Option.bind_eq_bind,
    Option.bind_some, h.bucket_mod, hfind]
  cases hpair : (S.segment (t.callbacks.hashKey key % n)).find?
      (Matches t key (t.callbacks.hashKey key)) with
  | some a =>
      have ha := List.mem_of_find?_eq_some hpair
      have hlive := h.live a (Segmented.mem_order_of_mem_segment ha)
      obtain ⟨t', hrun, hskeleton, hrel⟩ := h.removePair (Nat.mod_lt _ h.pos) ha
      refine ⟨0, t', _, hrun, .removed (view_of_live hlive) (view_released hrel) hrel.freed,
        hrel.callbacks, hskeleton, ?_⟩
      rw [(order_perm_remove ha).length_eq, List.length_cons]
      exact Nat.le_succ _
  | none => exact ⟨-1, t, S, rfl, .missing, rfl, h, Nat.le_refl _⟩

theorem Skeleton.iterSet (h : Skeleton t n S) {a : Nat} (hlive : t.live a = true) (value : Ptr) :
    ∃ t', ncHashtableIterSet t (.pair a) value = some t' ∧
      Moves t (.iterSet (t.pair a).key value) t' ∧ t'.callbacks = t.callbacks ∧
      Skeleton t' n S := by
  have hcall : t.callFreeValue (t.pair a).value = { t with
      freed := (if t.callbacks.freeValue then [.value (t.pair a).value] else []) ++ t.freed } := by
    simp only [NcHashtable.callFreeValue]
    split <;> simp
  refine ⟨_, ?_, .rewritten (view_of_live hlive) (view_revalue hlive value
      ((if t.callbacks.freeValue then [.value (t.pair a).value] else []) ++ t.freed)) rfl, rfl,
    h.revalue a value _⟩
  simp [ncHashtableIterSet, listToPair, getPair_of_live hlive, hcall, setValue_of_live hlive]

theorem Skeleton.deinit (h : Skeleton t n S) (hfuel : S.order.length < fuel) :
    ∃ t', ncHashtableDeinit fuel t = some t' ∧ t'.freed = releasedBy t S.order ++ t.freed :=
  ⟨_, by rw [ncHashtableDeinit, h.doClear hfuel]; rfl, rfl⟩

/-! ## Runs -/

theorem Skeleton.step (h : Skeleton s.table n S) (hfuel : S.order.length < fuel) {op : Op}
    (hcall : Callable s op)
    (hcan : ∀ reply key value, op = .set reply key value → CanGrow s.table) :
    ∃ e t' m S', step fuel s op = some ⟨t', e :: s.events⟩ ∧ Records op e ∧
      Moves s.table e t' ∧ t'.callbacks = s.table.callbacks ∧ Skeleton t' m S' ∧
      S'.order.length ≤ S.order.length + 1 := by
  cases op with
  | set reply key value =>
      obtain ⟨status, t', m, S', hrun, hresult⟩ :=
        h.set hfuel (hcan reply key value rfl) hcall.1 hcall.2 key value
      exact ⟨.set key value status, t', m, S', by simp only [Libnc.Hashtable.step, hrun]; rfl,
        .set, hresult⟩
  | del key =>
      obtain ⟨status, t', S', hrun, hmoves, hcallbacks, hskeleton, hlen⟩ := h.del hfuel.le key
      exact ⟨.del key, t', n, S', by simp only [Libnc.Hashtable.step, hrun]; rfl, .del, hmoves,
        hcallbacks, hskeleton, by omega⟩
  | clear =>
      obtain ⟨hrun, hskeleton⟩ := h.clear hfuel
      exact ⟨.clear, s.table.clear n S.order, n, [],
        by simp only [Libnc.Hashtable.step, hrun]; rfl, .clear, .cleared h.enumerates rfl rfl,
        rfl, hskeleton, by simp⟩
  | iterSet iter value =>
      obtain ⟨a, hiter, hlive⟩ := hcall
      obtain rfl := eq_pair_of_listToPair hiter
      obtain ⟨t', hrun, hmoves, hcallbacks, hskeleton⟩ := h.iterSet hlive value
      have hkey : ncHashtableIterKey s.table (.pair a) = some (s.table.pair a).key := by
        simp [ncHashtableIterKey, listToPair, getPair_of_live hlive]
      exact ⟨.iterSet (s.table.pair a).key value, t', n, S,
        by simp only [Libnc.Hashtable.step, hkey, hrun]; rfl, .iterSet, hmoves, hcallbacks,
        hskeleton, Nat.le_add_right _ _⟩

/-- A run with few pairs returns, and keeps what every recorded call keeps. -/
theorem run_skeleton (Inv : List Op → Session → Prop)
    (hstep : ∀ past s op e t', s.table.callbacks = callbacks → Inv past s → Records op e →
      Moves s.table e t' → Inv (past ++ [op]) ⟨t', e :: s.events⟩)
    {s₀ : Session} (h : Skeleton s₀.table n S) (hempty : S.order = [])
    (hcallbacks : s₀.table.callbacks = callbacks) (hinv : Inv [] s₀) {ops : List Op}
    (hfuel : ops.length < fuel)
    (hok : Along (step fuel) (fun s op => Callable s op ∧ FewPairs s.table) s₀ ops) :
    ∃ s m T, run (step fuel) s₀ ops = some s ∧ Skeleton s.table m T ∧
      T.order.length ≤ ops.length ∧ s.table.callbacks = callbacks ∧ Inv ops s := by
  obtain ⟨s, hrun, ⟨m, T, hskeleton, hlen⟩, hcalls, hi⟩ := Along.run_total
    (fun past s => (∃ m T, Skeleton s.table m T ∧ T.order.length ≤ past.length) ∧
      s.table.callbacks = callbacks ∧ Inv past s) ops.length
    (by
      rintro past s op hlen ⟨⟨m, T, hs, hbound⟩, hcalls, hi⟩ ⟨hcall, hfew⟩
      obtain ⟨e, t', m', T', hrun, hrecords, hmoves, hcalls', hs', hlen'⟩ :=
        hs.step (show T.order.length < fuel by omega) hcall fun _ _ _ _ =>
          hs.canGrow_of_few hfew
      refine ⟨_, hrun, ⟨m', T', hs', ?_⟩, hcalls'.trans hcalls,
        hstep past s op e t' hcalls hi hrecords hmoves⟩
      rw [List.length_append, List.length_singleton]
      omega)
    [] (by simp) ⟨⟨n, S, h, by simp [hempty]⟩, hcallbacks, hinv⟩ hok
  exact ⟨s, m, T, hrun, hskeleton, hlen, hcalls, hi⟩

end Libnc.Hashtable
