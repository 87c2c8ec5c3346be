import Libnc.Hashtable.Invariant

/-!
# What the public functions do

One lemma for each function that changes the table: the possible results, the
new view, the calls of the free functions, and that the invariant is kept.
-/

namespace Libnc.Hashtable

open Libnc.Foundation

variable {callbacks : Callbacks} {t t' : NcHashtable} {n : Nat} {S : Layout}

theorem view_of_relinked (h : Relinked t t') : t'.view = t.view := by
  funext a
  simp [NcHashtable.view, h.live, h.key, h.value]

theorem view_revalue {a : Nat} (hlive : t.live a = true) (value : Ptr) (freed : List FreeCall) :
    (t.revalue a value freed).view =
      Function.update t.view a (some ((t.pair a).key, value)) := by
  funext b
  by_cases hb : b = a
  · subst hb
    simp [NcHashtable.view, NcHashtable.revalue, hlive]
  · simp [NcHashtable.view, NcHashtable.revalue, hb]

theorem view_inserted {a : Nat} {pair : HashtablePair}
    (h : Relinked { t.allocPair a pair with size := t.size + 1 } t') :
    t'.view = Function.update t.view a (some (pair.key, pair.value)) := by
  funext b
  by_cases hb : b = a
  · subst hb
    simp [NcHashtable.view, h.live, h.key, h.value, NcHashtable.allocPair]
  · simp [NcHashtable.view, h.live, h.key, h.value, NcHashtable.allocPair, hb]

theorem view_released {a : Nat} (h : Relinked (t.release a) t') :
    t'.view = Function.update t.view a none := by
  funext b
  by_cases hb : b = a
  · simp [NcHashtable.view, h.live, NcHashtable.release, hb]
  · simp [NcHashtable.view, h.live, h.key, h.value, NcHashtable.release, hb]

/-! ## Initialisation -/

theorem rep_empty (h : Skeleton t n []) (hcallbacks : t.callbacks = callbacks) :
    Rep callbacks t n [] :=
  h.rep hcallbacks (by simp [Segmented.segment]) (by simp) (by simp)

theorem ncHashtableInit_spec (callbacks : Callbacks) :
    ∃ t, ncHashtableInit true callbacks = some t ∧ Rep callbacks t 5 [] ∧
      t.view = (fun _ => none) ∧ t.freed = [] := by
  exact ⟨_, rfl, rep_empty (.empty (chained_nil rfl rfl rfl) rfl (fun _ => rfl) rfl) rfl, rfl, rfl⟩

/-! ## Growth -/

theorem hashtableDoRehash_rep (h : Rep callbacks t n S) {m fuel : Nat}
    (hm : primes[t.numBuckets + 1]? = some m) (hfuel : S.order.length < fuel) :
    ∃ t' S', hashtableDoRehash true fuel t = some (0, t') ∧ Rep callbacks t' m S' ∧
      Relinked { t with numBuckets := t.numBuckets + 1 } t' ∧ S'.order.Perm S.order := by
  obtain ⟨t', S', hrun, hskeleton, hrel, hperm, hindex⟩ := h.skeleton.rehash hm hfuel
  refine ⟨t', S', hrun, hskeleton.rep (hrel.callbacks.trans h.callbacks_eq) ?_ ?_ ?_, hrel, hperm⟩
  · intro i a ha
    rw [hrel.hash]
    exact hindex i a ha
  · intro a ha
    rw [hrel.hash, hrel.key]
    exact h.hash_eq a (hperm.mem_iff.mp ha)
  · intro a ha b hb hcmp
    rw [hrel.key, hrel.key] at hcmp
    exact h.distinct a (hperm.mem_iff.mp ha) b (hperm.mem_iff.mp hb) hcmp

/-! ## Values -/

theorem setValue_rep (h : Rep callbacks t n S) {a : Nat} {k v : Ptr}
    (hv : t.view a = some (k, v)) (value : Ptr) (freed : List FreeCall) :
    ∃ t', ({ t with freed := freed } : NcHashtable).setValue a value = some t' ∧
      Rep callbacks t' n S ∧ t'.view = Function.update t.view a (some (k, value)) ∧
      t'.freed = freed ∧ t'.numBuckets = t.numBuckets := by
  obtain ⟨ha, rfl, rfl⟩ := h.view_eq_some hv
  have hlive := h.live a ha
  have hkey : ∀ b, ((t.revalue a value freed).pair b).key = (t.pair b).key := fun b => by
    by_cases hb : b = a <;> simp [NcHashtable.revalue, hb]
  have hhash : ∀ b, ((t.revalue a value freed).pair b).hash = (t.pair b).hash := fun b => by
    by_cases hb : b = a <;> simp [NcHashtable.revalue, hb]
  refine ⟨_, setValue_of_live hlive value freed,
    (h.skeleton.revalue a value freed).rep h.callbacks_eq ?_ ?_ ?_,
    view_revalue hlive value freed, rfl, rfl⟩
  · intro i b hb
    rw [hhash]
    exact h.index i b hb
  · intro b hb
    rw [hhash, hkey]
    exact h.hash_eq b hb
  · intro b hb c hc hcmp
    rw [hkey, hkey] at hcmp
    exact h.distinct b hb c hc hcmp

/-! ## Insertion -/

/-- What a call of `nc_hashtable_set` on an allocated bucket array can do. -/
inductive SetOutcome (t : NcHashtable) (reply : Option Nat) (key value : Ptr) :
    Int → NcHashtable → Prop where
  | replaced (a : Nat) (k v : Ptr) (t' : NcHashtable)
      (held : t.view a = some (k, v)) (equal : t.callbacks.cmpKeys k key = true)
      (view_eq : t'.view = Function.update t.view a (some (k, value)))
      (freed_eq : t'.freed = freeCalls t.callbacks key v ++ t.freed) :
      SetOutcome t reply key value 0 t'
  | refused (t' : NcHashtable) (absent : Absent t key) (null : reply = none)
      (view_eq : t'.view = t.view) (freed_eq : t'.freed = t.freed) :
      SetOutcome t reply key value (-1) t'
  | inserted (a : Nat) (t' : NcHashtable) (absent : Absent t key) (addr : reply = some a)
      (fresh : t.view a = none)
      (view_eq : t'.view = Function.update t.view a (some (key, value)))
      (freed_eq : t'.freed = t.freed) :
      SetOutcome t reply key value 0 t'

/-- One pair more in the segment of its hash, for a key that no stored key equals. -/
theorem Rep.place (h : Rep callbacks t n S) (hk : LawfulKeys callbacks) {a : Nat} {key : Ptr}
    (hskeleton : Skeleton t' n (S.place (callbacks.hashKey key % n) a))
    (hcallbacks : t'.callbacks = t.callbacks)
    (hkey : ∀ b ∈ S.order, (t'.pair b).key = (t.pair b).key)
    (hhash : ∀ b ∈ S.order, (t'.pair b).hash = (t.pair b).hash)
    (hnew : (t'.pair a).key = key ∧ (t'.pair a).hash = callbacks.hashKey key)
    (habs : Absent t key) :
    Rep callbacks t' n (S.place (callbacks.hashKey key % n) a) := by
  have hmem : ∀ b, b ∈ (S.place (callbacks.hashKey key % n) a).order ↔ b = a ∨ b ∈ S.order :=
    fun b => ((Segmented.order_place_perm S _ a).mem_iff).trans List.mem_cons
  have habs' := h.absent_iff.mp habs
  refine hskeleton.rep (hcallbacks.trans h.callbacks_eq) (fun i b hb => ?_) (fun b hb => ?_)
    fun b hb c hc hcmp => ?_
  · rw [Segmented.segment_place] at hb
    split at hb
    · rename_i hi
      rcases List.mem_cons.mp hb with rfl | hb
      · rw [hnew.2, hi]
      · rw [hhash b (Segmented.mem_order_of_mem_segment hb), hi]
        exact h.index _ b hb
    · rw [hhash b (Segmented.mem_order_of_mem_segment hb)]
      exact h.index i b hb
  · rcases (hmem b).mp hb with rfl | hb
    · rw [hnew.2, hnew.1]
    · rw [hhash b hb, hkey b hb]
      exact h.hash_eq b hb
  · rcases (hmem b).mp hb with hba | hbS
    · rcases (hmem c).mp hc with hca | hcS
      · exact hba.trans hca.symm
      · rw [hba, hnew.1, hkey c hcS] at hcmp
        have := habs' c hcS
        rw [hk.symm hcmp] at this
        exact Bool.noConfusion this
    · rcases (hmem c).mp hc with hca | hcS
      · rw [hca, hnew.1, hkey b hbS, habs' b hbS] at hcmp
        exact Bool.noConfusion hcmp
      · rw [hkey b hbS, hkey c hcS] at hcmp
        exact h.distinct b hbS c hcS hcmp

theorem insertPair_rep (h : Rep callbacks t n S) {a : Nat} {key : Ptr} (value : Ptr)
    (hroom : t.size < n) (hfresh : t.live a = false) (habs : Absent t key)
    (hk : LawfulKeys callbacks) :
    ∃ t', ((insertToBucket
          (t.allocPair a ⟨key, value, callbacks.hashKey key, ⟨.pair a, .pair a⟩⟩)
          (callbacks.hashKey key % n) (.pair a)).bind fun t =>
        some (0, { t with size := t.size + 1 })) = some ((0 : Int), t') ∧
      Rep callbacks t' n (S.place (callbacks.hashKey key % n) a) ∧
      t'.view = Function.update t.view a (some (key, value)) ∧ t'.freed = t.freed ∧
      t'.numBuckets = t.numBuckets := by
  have hnot := h.skeleton.not_mem_of_fresh hfresh
  obtain ⟨t', hins, hskeleton, hrel⟩ :=
    h.skeleton.insertPair (Nat.mod_lt (callbacks.hashKey key) h.pos) hfresh hroom
      ⟨key, value, callbacks.hashKey key, ⟨.pair a, .pair a⟩⟩
  have hold : ∀ b, b ≠ a → (t'.pair b).key = (t.pair b).key ∧
      (t'.pair b).hash = (t.pair b).hash := fun b hba => by
    rw [hrel.key, hrel.hash]
    simp [NcHashtable.allocPair, hba]
  have hne : ∀ b ∈ S.order, b ≠ a := fun b hb hba => hnot (hba ▸ hb)
  refine ⟨t', hins, h.place hk hskeleton hrel.callbacks (fun b hb => (hold b (hne b hb)).1)
    (fun b hb => (hold b (hne b hb)).2) ⟨?_, ?_⟩ habs, view_inserted hrel, hrel.freed,
    hrel.numBuckets⟩
  · simp [hrel.key, NcHashtable.allocPair]
  · simp [hrel.hash, NcHashtable.allocPair]

theorem setPair_held (reply : Option Nat) (h : Rep callbacks t n S) (hk : LawfulKeys callbacks)
    {fuel : Nat} (hfuel : S.order.length ≤ fuel) {a : Nat} {k v key : Ptr}
    (hv : t.view a = some (k, v)) (hcmp : callbacks.cmpKeys k key = true) (value : Ptr) :
    ∃ t', setPair reply fuel t key value = some (0, t') ∧ Rep callbacks t' n S ∧
      t'.view = Function.update t.view a (some (k, value)) ∧
      t'.freed = freeCalls callbacks key v ++ t.freed ∧ t'.numBuckets = t.numBuckets := by
  obtain rfl := h.callbacks_eq
  have hfind := hashtableFindPair_spec h.toChained hfuel key (t.callbacks.hashKey key)
    (i := t.callbacks.hashKey key % n)
  rcases h.find_spec hk key with ⟨b, hsome, hb, hcmp'⟩ | ⟨-, habs⟩
  · have hmem := Segmented.mem_order_of_mem_segment hb
    obtain rfl : a = b := h.view_unique hk hv (h.view_of_mem hmem) hcmp hcmp'
    obtain ⟨-, -, hvalue⟩ := h.view_eq_some hv
    obtain ⟨t', hset, hrep, hview, hfreed, hbuckets⟩ := setValue_rep h hv value
      (freeCalls t.callbacks key v ++ t.freed)
    have hget : (t.callFreeKey key).getPair a = some (t.pair a) := by
      have hlive := h.live a hmem
      simp only [NcHashtable.callFreeKey]
      split <;> simp [NcHashtable.getPair, hlive]
    refine ⟨t', ?_, hrep, hview, hfreed, hbuckets⟩
    simp [setPair, h.numBuckets_eq, h.bucket_hash, hfind, hsome, hget, hvalue, callFree_eq, hset]
  · have hne := habs a k v hv
    rw [hcmp] at hne
    exact Bool.noConfusion hne

theorem setPair_spec (h : Rep callbacks t n S) (hk : LawfulKeys callbacks)
    {reply : Option Nat} {fuel : Nat} (hfuel : S.order.length ≤ fuel) (hroom : t.size < n)
    (hfresh : ∀ a, reply = some a → t.live a = false) (key value : Ptr) :
    ∃ status t' S', setPair reply fuel t key value = some (status, t') ∧
      Rep callbacks t' n S' ∧ SetOutcome t reply key value status t' ∧
      S'.order.length ≤ S.order.length + 1 := by
  obtain rfl := h.callbacks_eq
  have hfind := hashtableFindPair_spec h.toChained hfuel key (t.callbacks.hashKey key)
    (i := t.callbacks.hashKey key % n)
  rcases h.find_spec hk key with ⟨a, -, ha, hcmp⟩ | ⟨hnone, habs⟩
  · have hview := h.view_of_mem (Segmented.mem_order_of_mem_segment ha)
    obtain ⟨t', hset, hrep, hview', hfreed, -⟩ := setPair_held reply h hk hfuel hview hcmp value
    exact ⟨0, t', S, hset, hrep, .replaced a _ _ t' hview hcmp hview' hfreed, by omega⟩
  · simp only [setPair, h.numBuckets_eq, Option.bind_eq_bind, Option.bind_some, h.bucket_hash,
      hfind, hnone]
    cases reply with
    | none => exact ⟨-1, t, S, rfl, h, .refused t habs rfl rfl rfl, by omega⟩
    | some a =>
        have hnone' : t.view a = none := if_neg (by simp [hfresh a rfl])
        obtain ⟨t', hins, hrep, hview', hfreed, -⟩ :=
          insertPair_rep h value hroom (hfresh a rfl) habs hk
        refine ⟨0, t', _, hins, hrep, .inserted a t' habs rfl hnone' hview' hfreed, ?_⟩
        rw [(Segmented.order_place_perm S _ a).length_eq, List.length_cons]

/-! ## `nc_hashtable_set` -/

/-- The call has to grow the table and the allocator refuses the new bucket array. -/
def growthRefused (t : NcHashtable) (reply : SetReply) : Bool :=
  (numBuckets t).any (· ≤ t.size) && !reply.buckets

/-- If the table is full, there is a prime after the present one. -/
def CanGrow (t : NcHashtable) : Prop :=
  ∀ n, numBuckets t = some n → n ≤ t.size → ∃ m, primes[t.numBuckets + 1]? = some m

theorem SetOutcome.of_relinked {reply : Option Nat} {key value : Ptr} {status : Int}
    {u u' : NcHashtable} (hview : u.view = t.view) (hcallbacks : u.callbacks = t.callbacks)
    (hfreed : u.freed = t.freed) (h : SetOutcome u reply key value status u') :
    SetOutcome t reply key value status u' := by
  have habs : Absent u key → Absent t key := fun hu a k v hv => by
    rw [← hcallbacks]
    exact hu a k v (by rwa [hview])
  cases h with
  | replaced a k v _ held equal view_eq freed_eq =>
      rw [hview] at held view_eq
      rw [hcallbacks] at equal freed_eq
      rw [hfreed] at freed_eq
      exact .replaced a k v u' held equal view_eq freed_eq
  | refused _ absent null view_eq freed_eq =>
      exact .refused u' (habs absent) null (view_eq.trans hview) (freed_eq.trans hfreed)
  | inserted a _ absent addr fresh view_eq freed_eq =>
      rw [hview] at fresh view_eq
      exact .inserted a u' (habs absent) addr fresh view_eq (freed_eq.trans hfreed)

/-- Unless growth is refused, a call of `nc_hashtable_set` has one of three outcomes. -/
theorem ncHashtableSet_spec (h : Rep callbacks t n S) (hk : LawfulKeys callbacks)
    {reply : SetReply} {fuel : Nat} (hfuel : S.order.length < fuel) (hcan : CanGrow t)
    (hgrowth : growthRefused t reply = false)
    (hfresh : ∀ a, reply.pair = some a → t.live a = false) (key value : Ptr) :
    ∃ status t' m S', ncHashtableSet reply fuel t key value = some (status, t') ∧
      Rep callbacks t' m S' ∧ SetOutcome t reply.pair key value status t' ∧
      S'.order.length ≤ S.order.length + 1 := by
  simp only [ncHashtableSet, h.numBuckets_eq, Option.bind_eq_bind, Option.bind_some]
  by_cases hfull : n ≤ t.size
  · have hbuckets : reply.buckets = true := by
      simpa [growthRefused, h.numBuckets_eq, hfull] using hgrowth
    obtain ⟨m, hm⟩ := hcan n h.capacity hfull
    obtain ⟨u, T, hrehash, hrepu, hrel, hperm⟩ := hashtableDoRehash_rep h hm hfuel
    have hroom : u.size < m := by
      rw [show u.size = t.size from hrel.size]
      exact h.size_le.trans_lt (primes_lt_succ h.capacity hm)
    obtain ⟨status, t', S', hrun, hrep, hout, hlen⟩ := setPair_spec hrepu hk
      (hperm.length_eq.trans_le hfuel.le) hroom
      (fun a ha => by rw [show u.live = t.live from hrel.live]; exact hfresh a ha) key value
    refine ⟨status, t', m, S', ?_, hrep, ?_, by rwa [hperm.length_eq] at hlen⟩
    · simpa [hfull, hbuckets, hrehash] using hrun
    · exact hout.of_relinked ((view_of_relinked hrel).trans rfl) hrel.callbacks hrel.freed
  · obtain ⟨status, t', S', hrun, hrep, hout, hlen⟩ :=
      setPair_spec h hk hfuel.le (Nat.lt_of_not_le hfull) hfresh key value
    exact ⟨status, t', n, S', by rw [if_neg hfull]; exact hrun, hrep, hout, hlen⟩

/-- A refused growth has already freed the old bucket array and advanced the prime. -/
theorem ncHashtableSet_growthRefused (h : Rep callbacks t n S) {reply : SetReply} {fuel : Nat}
    (hcan : CanGrow t) (hgrowth : growthRefused t reply = true) (key value : Ptr) :
    ncHashtableSet reply fuel t key value =
      some (-1, { t with buckets := none, numBuckets := t.numBuckets + 1 }) := by
  simp only [growthRefused, h.numBuckets_eq, Option.any_some, Bool.and_eq_true,
    decide_eq_true_eq, Bool.not_eq_true'] at hgrowth
  obtain ⟨hfull, hbuckets⟩ := hgrowth
  obtain ⟨m, hm⟩ := hcan n h.capacity hfull
  simp [ncHashtableSet, hashtableDoRehash, hfull, hbuckets, numBuckets, h.capacity, hm]

theorem canGrow_of_ncHashtableSet {reply : SetReply} {fuel : Nat} {key value : Ptr}
    {result : Int × NcHashtable} (h : ncHashtableSet reply fuel t key value = some result) :
    CanGrow t := by
  intro n hn hfull
  by_contra hnone
  have hnext : primes[t.numBuckets + 1]? = none :=
    Option.eq_none_iff_forall_ne_some.mpr fun m hm => hnone ⟨m, hm⟩
  rw [numBuckets] at hn
  simp [ncHashtableSet, hn, hfull, hashtableDoRehash, numBuckets, hnext] at h

/-! ## Removal -/

/-- What a call of `nc_hashtable_del` can do. -/
inductive DelOutcome (t : NcHashtable) (key : Ptr) : Int → NcHashtable → Prop where
  | removed (a : Nat) (k v : Ptr) (t' : NcHashtable) (held : t.view a = some (k, v))
      (equal : t.callbacks.cmpKeys k key = true)
      (view_eq : t'.view = Function.update t.view a none)
      (freed_eq : t'.freed = freeCalls t.callbacks k v ++ t.freed) :
      DelOutcome t key 0 t'
  | missing (absent : Absent t key) : DelOutcome t key (-1) t

theorem order_remove_eq_filter {i a : Nat} (hnodup : S.order.Nodup) (ha : a ∈ S.segment i) :
    (S.remove i a).order = S.order.filter (· != a) := by
  obtain ⟨seg₁, seg₂, hseg, ha₁⟩ := List.eq_append_cons_of_mem ha
  obtain ⟨before, after, horder, hremoved⟩ := Segmented.order_remove hseg ha₁
  have hsplit : S.order = (before ++ seg₁) ++ a :: (seg₂ ++ after) := by simp [horder]
  rw [← hnodup.erase_eq_filter, hsplit, List.erase_append_right _ fun hm => ?_,
    List.erase_cons_head, hremoved]
  · simp
  · rw [hsplit] at hnodup
    exact (List.nodup_append.mp hnodup).2.2 a hm a (by simp) rfl

theorem removePair_rep (h : Rep callbacks t n S) {i a : Nat} (hi : i < n)
    (ha : a ∈ S.segment i) :
    ∃ t', ((unlinkFromBucket t i (bucketEnds (S.segment i)) (.pair a)).bind fun t =>
          (listRemove t (.pair a)).bind fun t => (t.getPair a).bind fun pair =>
            (((t.callFreeKey pair.key).callFreeValue pair.value).freePair a).bind fun t =>
              some (0, { t with size := t.size - 1 })) = some ((0 : Int), t') ∧
      Rep callbacks t' n (S.remove i a) ∧ t'.view = Function.update t.view a none ∧
      t'.freed = freeCalls callbacks (t.pair a).key (t.pair a).value ++ t.freed ∧
      t'.numBuckets = t.numBuckets := by
  obtain rfl := h.callbacks_eq
  have hmem : ∀ b ∈ (S.remove i a).order, b ∈ S.order :=
    fun b hb => ((h.skeleton.mem_remove ha).mp hb).1
  obtain ⟨t', hrun, hskeleton, hrel⟩ := h.skeleton.removePair hi ha
  have hkey : ∀ b, (t'.pair b).key = (t.pair b).key := hrel.key
  have hhash : ∀ b, (t'.pair b).hash = (t.pair b).hash := hrel.hash
  refine ⟨t', hrun, hskeleton.rep hrel.callbacks (fun j b hb => ?_) (fun b hb => ?_)
    (fun b hb c hc hcmp => ?_), view_released hrel, hrel.freed, hrel.numBuckets⟩
  · rw [Segmented.segment_remove h.wf] at hb
    rw [hhash]
    apply h.index j b
    split at hb
    · rename_i hj
      exact hj ▸ List.mem_of_mem_erase hb
    · exact hb
  · rw [hhash, hkey]
    exact h.hash_eq b (hmem b hb)
  · rw [hkey, hkey] at hcmp
    exact h.distinct b (hmem b hb) c (hmem c hc) hcmp

theorem ncHashtableDel_spec (h : Rep callbacks t n S) (hk : LawfulKeys callbacks)
    {fuel : Nat} (hfuel : S.order.length ≤ fuel) (key : Ptr) :
    ∃ status t' S', ncHashtableDel fuel t key = some (status, t') ∧
      Rep callbacks t' n S' ∧ DelOutcome t key status t' ∧
      S'.order.length ≤ S.order.length ∧ t'.numBuckets = t.numBuckets ∧
      S'.order = S.order.filter t'.live := by
  obtain rfl := h.callbacks_eq
  have hfind := hashtableFindPair_spec h.toChained hfuel key (t.callbacks.hashKey key)
    (i := t.callbacks.hashKey key % n)
  simp only [ncHashtableDel, hashtableDoDel, h.numBuckets_eq, Option.bind_eq_bind,
    Option.bind_some, h.bucket_hash, hfind]
  rcases h.find_spec hk key with ⟨a, hsome, ha, hcmp⟩ | ⟨hnone, habs⟩
  · have hview := h.view_of_mem (Segmented.mem_order_of_mem_segment ha)
    obtain ⟨t', hrun, hrep, hview', hfreed, hnum⟩ :=
      removePair_rep h (Nat.mod_lt _ h.pos) ha
    have hlen := (order_perm_remove ha).length_eq
    rw [List.length_cons] at hlen
    refine ⟨0, t', _, ?_, hrep, .removed a _ _ t' hview hcmp hview' hfreed, by omega, hnum, ?_⟩
    · rw [hsome]
      exact hrun
    · have horder := order_remove_eq_filter h.order_nodup ha
      refine horder.trans (List.filter_congr fun b hb => ?_)
      have hlive := hrep.live_iff b
      rw [horder, List.mem_filter] at hlive
      exact Bool.eq_iff_iff.mpr (by simpa [hb] using hlive.symm)
  · exact ⟨-1, t, S, by rw [hnone], h, .missing habs, le_rfl, rfl,
      (List.filter_eq_self.mpr h.live).symm⟩

/-! ## `nc_hashtable_clear` and `nc_hashtable_deinit` -/

theorem ncHashtableClear_spec (h : Rep callbacks t n S) {fuel : Nat}
    (hfuel : S.order.length < fuel) :
    ∃ t', ncHashtableClear fuel t = some t' ∧ Rep callbacks t' n [] ∧
      t'.view = (fun _ => none) ∧ t'.freed = releasedBy t S.order ++ t.freed ∧
      t'.numBuckets = t.numBuckets := by
  obtain ⟨hrun, hskeleton⟩ := h.skeleton.clear hfuel
  exact ⟨_, hrun, rep_empty hskeleton h.callbacks_eq, rfl, rfl, rfl⟩

/-! ## Queries -/

theorem ncHashtableGet_defined (h : Rep callbacks t n S) (hk : LawfulKeys callbacks)
    {fuel : Nat} (hfuel : S.order.length < fuel) (key : Ptr) :
    ∃ value, ncHashtableGet fuel t key = some value := by
  rcases h.lookup_spec hk hfuel key with ⟨a, k, v, hrun, hv, -⟩ | ⟨hrun, -⟩
  · obtain ⟨ha, -, -⟩ := h.view_eq_some hv
    exact ⟨(t.pair a).value, by simp [ncHashtableGet, hrun, getPair_of_live (h.live a ha)]⟩
  · exact ⟨null, by simp [ncHashtableGet, hrun]⟩

/-- The answers about a key depend only on the pairs whose keys are equal to it. -/
theorem lookup_congr {n' fuel : Nat} {S' : Layout} (h : Rep callbacks t n S)
    (h' : Rep callbacks t' n' S') (hk : LawfulKeys callbacks) (hfuel : S.order.length < fuel)
    (hfuel' : S'.order.length < fuel) {key : Ptr}
    (hsame : ∀ a k v, callbacks.cmpKeys k key = true →
      (t'.view a = some (k, v) ↔ t.view a = some (k, v))) :
    lookup fuel t' key = lookup fuel t key ∧
      ncHashtableGet fuel t' key = ncHashtableGet fuel t key := by
  rcases h.lookup_spec hk hfuel key with ⟨a, k, v, hrun, hv, hcmp⟩ | ⟨hrun, habs⟩
  · rcases h'.lookup_spec hk hfuel' key with ⟨b, j, w, hrun', hv', hcmp'⟩ | ⟨-, habs'⟩
    · have hw := (hsame b j w hcmp').mp hv'
      obtain rfl := h.view_unique hk hv hw hcmp hcmp'
      obtain ⟨ha, -, hval⟩ := h.view_eq_some hw
      obtain ⟨ha', -, hval'⟩ := h'.view_eq_some hv'
      refine ⟨hrun'.trans hrun.symm, ?_⟩
      simp [ncHashtableGet, hrun, hrun', getPair_of_live (h.live a ha),
        getPair_of_live (h'.live a ha'), hval, hval']
    · have := habs' a k v ((hsame a k v hcmp).mpr hv)
      rw [h'.callbacks_eq, hcmp] at this
      exact Bool.noConfusion this
  · rcases h'.lookup_spec hk hfuel' key with ⟨b, j, w, -, hv', hcmp'⟩ | ⟨hrun', -⟩
    · have := habs b j w ((hsame b j w hcmp').mp hv')
      rw [h.callbacks_eq, hcmp'] at this
      exact Bool.noConfusion this
    · exact ⟨hrun'.trans hrun.symm, by simp [ncHashtableGet, hrun, hrun']⟩

/-! ## Iterators -/

theorem ncHashtableIterSet_spec (h : Rep callbacks t n S) {a : Nat} {k v : Ptr}
    (hv : t.view a = some (k, v)) (value : Ptr) :
    ∃ t', ncHashtableIterSet t (.pair a) value = some t' ∧ Rep callbacks t' n S ∧
      t'.view = Function.update t.view a (some (k, value)) ∧
      t'.freed = (if callbacks.freeValue then [.value v] else []) ++ t.freed ∧
      t'.numBuckets = t.numBuckets := by
  obtain rfl := h.callbacks_eq
  obtain ⟨ha, hkey, hval⟩ := h.view_eq_some hv
  obtain ⟨t', hset, hrep, hview, hfreed, hnum⟩ := setValue_rep h hv value
    ((if t.callbacks.freeValue then [.value v] else []) ++ t.freed)
  refine ⟨t', ?_, hrep, hview, hfreed, hnum⟩
  have hcall : t.callFreeValue v = { t with
      freed := (if t.callbacks.freeValue then [.value v] else []) ++ t.freed } := by
    simp only [NcHashtable.callFreeValue]
    split <;> simp
  simp [ncHashtableIterSet, listToPair, getPair_of_live (h.live a ha), hval, hcall, hset]

end Libnc.Hashtable
