import Libnc.Hashtable.Iterators

/-!
# Overwriting a key that is present

`nc_hashtable_set` decides about growth before it has searched for the key.  On
a table with room an overwrite changes one value and nothing else.  On a full
one it grows the table, although no pair is added.
-/

namespace Libnc.Hashtable

open Libnc.Foundation

/-- The table `t'` differs from `t` in the value of the pair `a` only. -/
structure Overwritten (fuel : Nat) (t : NcHashtable) (a : Nat) (k value : Ptr)
    (t' : NcHashtable) : Prop where
  size : t'.size = t.size
  numBuckets : t'.numBuckets = t.numBuckets
  order : ∃ visited, traverse fuel t = some visited ∧ traverse fuel t' = some visited
  view : t'.view = Function.update t.view a (some (k, value))

/--
The loop of a caller that goes from `nc_hashtable_iter` with
`nc_hashtable_iter_next` until NULL and at each pair sets a copy of its key.
-/
def overwriteLoop (fuel : Nat) (reply : ListPtr → SetReply) (copy value : Ptr → Ptr) :
    Nat → NcHashtable → Option ListPtr → Option (List ListPtr × NcHashtable)
  | 0, _, _ => none
  | _ + 1, t, none => some ([], t)
  | rounds + 1, t, some iter => do
      let key ← ncHashtableIterKey t iter
      let (_, t) ← ncHashtableSet (reply iter) fuel t (copy key) (value key)
      let next ← ncHashtableIterNext t iter
      let (visited, t) ← overwriteLoop fuel reply copy value rounds t next
      some (iter :: visited, t)

/-- Overwriting the key of the pair `a`, stored as `k`, changes nothing but its value. -/
structure OverwriteNeutral (fuel : Nat) (t : NcHashtable) (a : Nat) (k key : Ptr) : Prop where
  frame : ∀ reply value t', ncHashtableSet reply fuel t key value = some (0, t') →
    Overwritten fuel t a k value t'
  unallocated : ∀ value, ∃ t', ncHashtableSet ⟨false, none⟩ fuel t key value = some (0, t')
  loop : ∀ reply copy value, (∀ j, t.callbacks.cmpKeys j (copy j) = true) →
    ∃ first visited t', ncHashtableIter t = some first ∧
      overwriteLoop fuel reply copy value (t.size + 1) t first = some (visited, t') ∧
      visited.Nodup ∧ ∀ l, l ∈ visited ↔ ∃ b, l = .pair b ∧ t.live b = true

variable {callbacks : Callbacks} {t t' : NcHashtable} {n fuel a : Nat} {S : Layout}
variable {k v key : Ptr}

/-! ## With room for another pair -/

theorem ncHashtableSet_held (h : Rep callbacks t n S) (hk : LawfulKeys callbacks)
    (hfuel : S.order.length ≤ fuel) (hroom : t.size < n) (hv : t.view a = some (k, v))
    (hcmp : callbacks.cmpKeys k key = true) (reply : SetReply) (value : Ptr) :
    ∃ t', ncHashtableSet reply fuel t key value = some (0, t') ∧ Rep callbacks t' n S ∧
      t'.view = Function.update t.view a (some (k, value)) ∧ t'.numBuckets = t.numBuckets := by
  obtain ⟨t', hset, hrep, hview, -, hbuckets⟩ := setPair_held reply.pair h hk hfuel hv hcmp value
  refine ⟨t', ?_, hrep, hview, hbuckets⟩
  simp only [ncHashtableSet, h.numBuckets_eq, Option.bind_eq_bind, Option.bind_some]
  rw [if_neg (Nat.not_le_of_lt hroom), hset]

/-- The loop keeps the list, so it visits the pairs in the order of its start. -/
theorem overwriteLoop_spec (h : Rep callbacks t n S) (hk : LawfulKeys callbacks)
    (hfuel : S.order.length ≤ fuel) (hroom : t.size < n) {copy : Ptr → Ptr}
    (hcopy : ∀ j, callbacks.cmpKeys j (copy j) = true) (reply : ListPtr → SetReply)
    (value : Ptr → Ptr) {before rest : List Nat} (horder : S.order = before ++ rest)
    {rounds : Nat} (hrounds : rest.length < rounds) :
    ∃ t', overwriteLoop fuel reply copy value rounds t (rest.head?.map .pair) =
      some (rest.map .pair, t') := by
  induction rest generalizing t before rounds with
  | nil =>
      obtain ⟨rounds, rfl⟩ := Nat.exists_eq_succ_of_ne_zero (Nat.ne_of_gt hrounds)
      exact ⟨t, rfl⟩
  | cons b rest ih =>
      obtain ⟨rounds, rfl⟩ :=
        Nat.exists_eq_succ_of_ne_zero (Nat.ne_of_gt (Nat.zero_lt_of_lt hrounds))
      have hview := h.view_of_mem (a := b) (by simp [horder])
      obtain ⟨u, hset, hrep, -, -⟩ := ncHashtableSet_held h hk hfuel hroom hview (hcopy _)
        (reply (.pair b)) (value (t.pair b).key)
      have hroom' : u.size < n := by
        rw [hrep.size_eq, ← h.size_eq]
        exact hroom
      have hcons : S.order = (before ++ [b]) ++ rest := by simp [horder]
      obtain ⟨t', hloop⟩ := ih hrep hroom' hcons (Nat.lt_of_succ_lt_succ hrounds)
      refine ⟨t', ?_⟩
      simp [overwriteLoop, (h.iterKey_eq hview).1, hset, hrep.iterNext_eq horder, hloop]

theorem overwriteNeutral_of_room (h : Rep callbacks t n S) (hk : LawfulKeys callbacks)
    (hfuel : S.order.length < fuel) (hroom : t.size < n) (hv : t.view a = some (k, v))
    (hcmp : callbacks.cmpKeys k key = true) : OverwriteNeutral fuel t a k key where
  frame reply value t' hset := by
    obtain ⟨u, hset', hrep, hview, hbuckets⟩ :=
      ncHashtableSet_held h hk hfuel.le hroom hv hcmp reply value
    obtain rfl : u = t' := by simpa [hset'] using hset
    exact {
      size := by rw [hrep.size_eq, h.size_eq]
      numBuckets := hbuckets
      order := ⟨_, traverse_spec h hfuel, traverse_spec hrep hfuel⟩
      view := hview }
  unallocated value := by
    obtain ⟨u, hset, -⟩ := ncHashtableSet_held h hk hfuel.le hroom hv hcmp ⟨false, none⟩ value
    exact ⟨u, hset⟩
  loop reply copy value hcopy := by
    rw [h.callbacks_eq] at hcopy
    have horder : S.order = [] ++ S.order := rfl
    obtain ⟨t', hloop⟩ := overwriteLoop_spec h hk hfuel.le hroom hcopy reply value horder
      (Nat.lt_succ_of_le h.size_eq.ge)
    refine ⟨_, _, t', ncHashtableIter_spec h, hloop, h.order_nodup.map pair_injective, fun l => ?_⟩
    simp only [List.mem_map, h.live_iff]
    exact ⟨fun ⟨b, hb, hl⟩ => ⟨b, hl.symm, hb⟩, fun ⟨b, hl, hb⟩ => ⟨b, hb, hl.symm⟩⟩

/-! ## On a full table -/

/-- Although the key is present, the table has grown when the call returns 0. -/
theorem ncHashtableSet_held_full (h : Rep callbacks t n S) (hk : LawfulKeys callbacks)
    (hfuel : S.order.length < fuel) (hfull : n ≤ t.size) (hv : t.view a = some (k, v))
    (hcmp : callbacks.cmpKeys k key = true) {reply : SetReply} {value : Ptr}
    (hset : ncHashtableSet reply fuel t key value = some (0, t')) :
    t'.numBuckets = t.numBuckets + 1 := by
  have hcan := canGrow_of_ncHashtableSet hset
  obtain ⟨m, hm⟩ := hcan n h.capacity hfull
  cases hbuckets : reply.buckets with
  | false =>
      have hgrowth : growthRefused t reply = true := by
        simp [growthRefused, h.numBuckets_eq, hfull, hbuckets]
      simp [ncHashtableSet_growthRefused h hcan hgrowth] at hset
  | true =>
      obtain ⟨u, T, hrehash, hrepu, hrel, hperm⟩ := hashtableDoRehash_rep h hm hfuel
      have hvu : u.view a = some (k, v) := (congrFun (view_of_relinked hrel) a).trans hv
      obtain ⟨w, hpair, -, -, -, hw⟩ :=
        setPair_held reply.pair hrepu hk (hperm.length_eq.trans_le hfuel.le) hvu hcmp value
      simp only [ncHashtableSet, h.numBuckets_eq, Option.bind_eq_bind, Option.bind_some,
        if_pos hfull, hbuckets, hrehash, ne_eq, not_true_eq_false, if_false, hpair] at hset
      obtain rfl : w = t' := by simpa using hset
      exact hw.trans hrel.numBuckets

theorem room_of_overwriteNeutral (h : Rep callbacks t n S)
    (hneutral : OverwriteNeutral fuel t a k key) : t.size < n := by
  by_contra hfull
  obtain ⟨t', hset⟩ := hneutral.unallocated 0
  have hgrowth : growthRefused t ⟨false, none⟩ = true := by
    simpa [growthRefused, h.numBuckets_eq] using hfull
  simp [ncHashtableSet_growthRefused h (canGrow_of_ncHashtableSet hset) hgrowth] at hset

/--
For every key that a reachable table holds: overwriting it changes nothing but
its value exactly if fewer pairs than buckets are stored.  On a full table
every overwrite that returns 0 has changed the number of buckets.
-/
theorem ncHashtable_overwrite_neutral_iff (hk : LawfulKeys callbacks) {t₀ : NcHashtable}
    (hinit : ncHashtableInit true callbacks = some t₀) {ops : List Op}
    (hfuel : ops.length < fuel) {s : Session} (hok : Along (step fuel) Callable ⟨t₀, []⟩ ops)
    (hrun : run (step fuel) ⟨t₀, []⟩ ops = some s) (hv : s.table.view a = some (k, v))
    (hcmp : callbacks.cmpKeys k key = true) :
    (OverwriteNeutral fuel s.table a k key ↔
      ∃ n, numBuckets s.table = some n ∧ s.table.size < n) ∧
    ((∃ n, numBuckets s.table = some n ∧ n ≤ s.table.size) →
      ∀ reply value t', ncHashtableSet reply fuel s.table key value = some (0, t') →
        t'.numBuckets = s.table.numBuckets + 1) := by
  obtain ⟨n, S, h, hlen⟩ := sound_of_run hk (init_sound hinit).1 (by omega) hok hrun
  have hlt : S.order.length < fuel := by omega
  refine ⟨⟨fun hneutral => ⟨n, h.numBuckets_eq, room_of_overwriteNeutral h hneutral⟩, ?_⟩, ?_⟩
  · rintro ⟨m, hm, hroom⟩
    obtain rfl : n = m := Option.some.inj (h.numBuckets_eq.symm.trans hm)
    exact overwriteNeutral_of_room h hk hlt hroom hv hcmp
  · rintro ⟨m, hm, hfull⟩ reply value t' hset
    obtain rfl : n = m := Option.some.inj (h.numBuckets_eq.symm.trans hm)
    exact ncHashtableSet_held_full h hk hlt hfull hv hcmp hset

/-- Two pairs in five buckets. -/
theorem ncHashtable_overwrite_neutral_iff_collision :
    OverwriteNeutral 12 twoKeys.table 2 12 12 := by
  have hrun : run (step 12) ⟨addressTable, []⟩
      [.set ⟨true, some 1⟩ 7 70, .set ⟨true, some 2⟩ 12 120] = some twoKeys := rfl
  exact ((ncHashtable_overwrite_neutral_iff (v := 120) addressKeys_lawful addressTable_init
    (by decide) (by decide) hrun rfl rfl).1).mpr ⟨5, rfl, by decide⟩

/-- Five keys for five buckets; 14 and 1 collide once there are thirteen. -/
def fillingSets : List Op :=
  [.set ⟨true, some 1⟩ 14 140, .set ⟨true, some 2⟩ 1 10, .set ⟨true, some 3⟩ 2 20,
    .set ⟨true, some 4⟩ 3 30, .set ⟨true, some 5⟩ 5 50]

def fullTable : Session := (run (step 12) ⟨addressTable, []⟩ fillingSets).get rfl

/-- The overwrite of 14 grows the table and moves 1 before it, where the loop never looks. -/
theorem overwrite_skips_pair :
    Along (step 12) Callable ⟨addressTable, []⟩ fillingSets ∧
      run (step 12) ⟨addressTable, []⟩ fillingSets = some fullTable ∧
      fullTable.table.view 1 = some (14, 140) ∧
      traverse 12 fullTable.table =
        some [.pair 1, .pair 2, .pair 3, .pair 4, .pair 5] ∧
      (ncHashtableSet ⟨true, none⟩ 12 fullTable.table 14 141).map
          (fun result => (result.1, result.2.numBuckets, traverse 12 result.2)) =
        some (0, 1, some [.pair 2, .pair 1, .pair 3, .pair 4, .pair 5]) ∧
      (overwriteLoop 12 (fun _ => ⟨true, none⟩) id id 6 fullTable.table
          (some (.pair 1))).map Prod.fst =
        some [.pair 1, .pair 3, .pair 4, .pair 5] ∧
      ¬ OverwriteNeutral 12 fullTable.table 1 14 14 := by
  refine ⟨by decide +kernel, rfl, by decide +kernel, by decide +kernel, by decide +kernel,
    by decide +kernel, fun hneutral => ?_⟩
  obtain ⟨t', hset⟩ := hneutral.unallocated 0
  have hstatus : (ncHashtableSet ⟨false, none⟩ 12 fullTable.table 14 0).map Prod.fst =
      some (-1) := by
    decide +kernel
  simp [hset] at hstatus

end Libnc.Hashtable
