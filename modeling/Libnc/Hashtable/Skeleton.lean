import Libnc.Hashtable.Chain

/-!
# The invariant without the keys

What holds of a table whatever its callbacks answer: the shared list, the bucket
array, the number of pairs and the prime.  Each change of a table is described here
for all callbacks; the representation invariant adds the hashes and the keys.
-/

namespace Libnc.Hashtable

open Libnc.Foundation

variable {t t' : NcHashtable} {n i a : Nat} {S : Layout}

/-! ## Prime numbers of buckets -/

theorem primes_pos {i n : Nat} (h : primes[i]? = some n) : 0 < n := by
  have hall : ∀ p ∈ primes, 0 < p := by decide
  exact hall n (List.mem_of_getElem? h)

theorem primes_lt_succ {i n m : Nat} (h : primes[i]? = some n)
    (h' : primes[i + 1]? = some m) : n < m := by
  have hchain : primes.IsChain (· < ·) := by decide
  obtain ⟨hi, rfl⟩ := List.getElem?_eq_some_iff.mp h
  obtain ⟨hi', rfl⟩ := List.getElem?_eq_some_iff.mp h'
  exact hchain.getElem i hi'

theorem exists_next_prime {i n : Nat} (h : primes[i]? = some n) (hlt : n < 1610612741) :
    ∃ m, primes[i + 1]? = some m := by
  obtain ⟨hi, rfl⟩ := List.getElem?_eq_some_iff.mp h
  have hlen : primes.length = 29 := rfl
  by_cases hlast : i = 28
  · subst hlast
    simp [primes] at hlt
  · exact ⟨_, List.getElem?_eq_getElem (by omega)⟩

/-! ## The invariant -/

structure Skeleton (t : NcHashtable) (n : Nat) (S : Layout) : Prop extends Chained t n S where
  capacity : primes[t.numBuckets]? = some n
  mem_of_live : ∀ a, t.live a = true → a ∈ S.order
  size_eq : t.size = S.order.length
  size_le : t.size ≤ n

namespace Skeleton

theorem pos (h : Skeleton t n S) : 0 < n := primes_pos h.capacity

theorem numBuckets_eq (h : Skeleton t n S) : numBuckets t = some n := h.capacity

theorem bucket_mod (h : Skeleton t n S) (hash : Nat) :
    t.bucket (hash % n) = some (bucketEnds (S.segment (hash % n))) :=
  h.bucket_eq (Nat.mod_lt _ h.pos)

theorem not_mem_of_fresh (h : Skeleton t n S) (hfresh : t.live a = false) : a ∉ S.order :=
  fun ha => by
    rw [h.live a ha] at hfresh
    exact Bool.noConfusion hfresh

theorem empty (hchained : Chained t n []) (hcap : primes[t.numBuckets]? = some n)
    (hlive : ∀ a, t.live a = false) (hsize : t.size = 0) : Skeleton t n [] where
  toChained := hchained
  capacity := hcap
  mem_of_live a ha := by simp [hlive] at ha
  size_eq := by simp [hsize]
  size_le := by simp [hsize]

/-! ## Growth -/

theorem rehash (h : Skeleton t n S) {m fuel : Nat} (hm : primes[t.numBuckets + 1]? = some m)
    (hfuel : S.order.length < fuel) :
    ∃ t' S', hashtableDoRehash true fuel t = some (0, t') ∧ Skeleton t' m S' ∧
      Relinked { t with numBuckets := t.numBuckets + 1 } t' ∧ S'.order.Perm S.order ∧
      ∀ i, ∀ a ∈ S'.segment i, (t.pair a).hash % m = i := by
  obtain ⟨t', hrun, hchained, hrel⟩ :=
    hashtableDoRehash_spec h.toChained hm (primes_pos hm) hfuel
  have hperm := Segmented.order_foldl_place_perm (fun a => (t.pair a).hash % m) S.order []
  have hindex := Segmented.segment_foldl_place (fun a => (t.pair a).hash % m) S.order
    (S := ([] : Layout)) (by simp [Segmented.segment])
  rw [Segmented.order_nil, List.append_nil] at hperm
  refine ⟨t', _, hrun, ⟨hchained, ?_, fun a ha => ?_, ?_, ?_⟩, hrel, hperm, hindex⟩
  · rw [hrel.numBuckets]
    exact hm
  · exact hperm.mem_iff.mpr (h.mem_of_live a (by rwa [hrel.live] at ha))
  · rw [hrel.size, hperm.length_eq]
    exact h.size_eq
  · rw [hrel.size]
    exact h.size_le.trans (primes_lt_succ h.capacity hm).le

end Skeleton

/-! ## Values -/

/-- The table after `free_value` and the assignment of a value. -/
def NcHashtable.revalue (t : NcHashtable) (a : Nat) (value : Ptr) (freed : List FreeCall) :
    NcHashtable :=
  { t with
    freed := freed
    pair := Function.update t.pair a { t.pair a with value := value } }

theorem setValue_of_live (h : t.live a = true) (value : Ptr) (freed : List FreeCall) :
    ({ t with freed := freed } : NcHashtable).setValue a value =
      some (t.revalue a value freed) :=
  if_pos h

theorem Skeleton.revalue (h : Skeleton t n S) (a : Nat) (value : Ptr) (freed : List FreeCall) :
    Skeleton (t.revalue a value freed) n S := by
  have hlink : ∀ l, (t.revalue a value freed).linkAt l = t.linkAt l := fun l => by
    cases l with
    | head => rfl
    | pair b => by_cases hb : b = a <;> simp [NcHashtable.revalue, NcHashtable.linkAt, hb]
  exact ⟨h.toChained.congr (fun l _ => hlink l) h.live rfl, h.capacity, h.mem_of_live, h.size_eq,
    h.size_le⟩

/-! ## Insertion -/

theorem Chained.allocPair (h : Chained t n S) {a : Nat} (hnot : a ∉ S.order)
    (pair : HashtablePair) : Chained (t.allocPair a pair) n S := by
  have hother : ∀ b ∈ S.order, (t.allocPair a pair).pair b = t.pair b := fun b hb => by
    have hba : b ≠ a := fun hba => hnot (hba ▸ hb)
    simp [NcHashtable.allocPair, hba]
  refine h.congr (fun l hl => ?_) (fun b hb => ?_) rfl
  · rcases List.mem_cons.mp hl with rfl | hl
    · rfl
    · obtain ⟨b, hb, rfl⟩ := List.mem_map.mp hl
      exact congrArg HashtablePair.list (hother b hb)
  · by_cases hba : b = a <;> simp [NcHashtable.allocPair, hba, h.live b hb]

theorem Skeleton.insertPair (h : Skeleton t n S) (hi : i < n) (hfresh : t.live a = false)
    (hroom : t.size < n) (pair : HashtablePair) :
    ∃ t', ((insertToBucket (t.allocPair a pair) i (.pair a)).bind fun t =>
        some (0, { t with size := t.size + 1 })) = some ((0 : Int), t') ∧
      Skeleton t' n (S.place i a) ∧
      Relinked { t.allocPair a pair with size := t.size + 1 } t' := by
  have hnot := h.not_mem_of_fresh hfresh
  have hperm := Segmented.order_place_perm S i a
  obtain ⟨t₁, hins, hchained, hrel, -⟩ := insertToBucket_spec (h.toChained.allocPair hnot pair)
    hi (x := a) (by simp [NcHashtable.allocPair]) hnot
  have hsize : t₁.size + 1 = t.size + 1 := congrArg (· + 1) hrel.size
  refine ⟨{ t₁ with size := t₁.size + 1 }, by rw [hins, Option.bind_some],
    ⟨hchained.congr (fun _ _ => rfl) hchained.live rfl, ?_, fun b hb => ?_, ?_, ?_⟩,
    ⟨hsize, hrel.numBuckets, hrel.callbacks, hrel.live, hrel.freed, hrel.key, hrel.value,
      hrel.hash⟩⟩
  · exact (congrArg (primes[·]?) hrel.numBuckets).trans h.capacity
  · have hlive : (t.allocPair a pair).live b = true := hrel.live ▸ hb
    refine hperm.mem_iff.mpr (List.mem_cons.mpr ?_)
    by_cases hba : b = a
    · exact .inl hba
    · refine .inr (h.mem_of_live b ?_)
      simpa [NcHashtable.allocPair, hba] using hlive
  · rw [hperm.length_eq, List.length_cons, ← h.size_eq]
    exact hsize
  · exact hsize.trans_le hroom

/-! ## Removal -/

theorem order_perm_remove (ha : a ∈ S.segment i) :
    S.order.Perm (a :: (S.remove i a).order) := by
  obtain ⟨seg₁, seg₂, hseg, ha₁⟩ := List.eq_append_cons_of_mem ha
  obtain ⟨before, after, horder, hremoved⟩ := Segmented.order_remove hseg ha₁
  rw [horder, hremoved]
  simp only [List.append_assoc, List.cons_append]
  exact (List.perm_middle.append_left before).trans List.perm_middle

/-- The table without a pair that has been unlinked and freed. -/
def NcHashtable.release (t : NcHashtable) (a : Nat) : NcHashtable :=
  { t with
    live := Function.update t.live a false
    freed := freeCalls t.callbacks (t.pair a).key (t.pair a).value ++ t.freed
    size := t.size - 1 }

theorem Skeleton.mem_remove (h : Skeleton t n S) (ha : a ∈ S.segment i) {b : Nat} :
    b ∈ (S.remove i a).order ↔ b ∈ S.order ∧ b ≠ a := by
  have hperm := order_perm_remove ha
  have hnot := (List.nodup_cons.mp (hperm.nodup_iff.mp h.order_nodup)).1
  rw [hperm.mem_iff, List.mem_cons]
  constructor
  · exact fun hb => ⟨.inr hb, fun hba => hnot (hba ▸ hb)⟩
  · exact fun ⟨hb, hba⟩ => hb.resolve_left hba

theorem Skeleton.removePair (h : Skeleton t n S) (hi : i < n) (ha : a ∈ S.segment i) :
    ∃ t', ((unlinkFromBucket t i (bucketEnds (S.segment i)) (.pair a)).bind fun t =>
          (listRemove t (.pair a)).bind fun t => (t.getPair a).bind fun pair =>
            (((t.callFreeKey pair.key).callFreeValue pair.value).freePair a).bind fun t =>
              some (0, { t with size := t.size - 1 })) = some ((0 : Int), t') ∧
      Skeleton t' n (S.remove i a) ∧ Relinked (t.release a) t' := by
  have hlive := h.live a (Segmented.mem_order_of_mem_segment ha)
  have hmem : ∀ b, b ∈ (S.remove i a).order ↔ b ∈ S.order ∧ b ≠ a := fun b => h.mem_remove ha
  obtain ⟨t₁, hunlink, hchained, hrel⟩ := unlink_spec h.toChained hi ha
  have hget : t₁.getPair a = some (t₁.pair a) := by simp [NcHashtable.getPair, hrel.live, hlive]
  let t' : NcHashtable := { t₁ with
    live := Function.update t.live a false
    freed := freeCalls t.callbacks (t.pair a).key (t.pair a).value ++ t.freed
    size := t.size - 1 }
  refine ⟨t', ?_, ⟨hchained.congr (fun _ _ => rfl) (fun b hb => ?_) rfl, ?_, fun b hb => ?_, ?_,
    ?_⟩, ⟨rfl, hrel.numBuckets, hrel.callbacks, rfl, rfl, hrel.key, hrel.value, hrel.hash⟩⟩
  · rw [← Option.bind_assoc, hunlink, Option.bind_some, hget, Option.bind_some, callFree_eq]
    simp [NcHashtable.freePair, hrel.live, hlive, hrel.callbacks, hrel.key, hrel.value,
      hrel.freed, hrel.size, t']
  · obtain ⟨hb, hba⟩ := (hmem b).mp hb
    simp [t', hba, h.live b hb]
  · exact (congrArg (primes[·]?) hrel.numBuckets).trans h.capacity
  · have hba : b ≠ a := fun hba => by simp [t', hba] at hb
    have hb' : t.live b = true := by simpa [t', hba] using hb
    exact (hmem b).mpr ⟨h.mem_of_live b hb', hba⟩
  · change t.size - 1 = _
    rw [h.size_eq, (order_perm_remove ha).length_eq, List.length_cons, Nat.add_sub_cancel]
  · exact (Nat.sub_le _ _).trans h.size_le

/-! ## Clearing -/

/-- The pairs of a list of addresses, with the last address first. -/
def releasedBy (t : NcHashtable) (cells : List Nat) : List FreeCall :=
  cells.reverse.flatMap fun a => freeCalls t.callbacks (t.pair a).key (t.pair a).value

theorem Skeleton.doClear (h : Skeleton t n S) {fuel : Nat} (hfuel : S.order.length < fuel) :
    hashtableDoClear fuel t = some { t with
      live := fun _ => false
      freed := releasedBy t S.order ++ t.freed } := by
  obtain ⟨hchain, hfirst⟩ := h.isChain_walk
  have hlive : (fun a => if a ∈ S.order then false else t.live a) = fun _ => false := by
    funext a
    by_cases ha : a ∈ S.order
    · simp [ha]
    · simpa [ha] using fun hl => ha (h.mem_of_live a hl)
  rw [hashtableDoClear, clearLoop_spec hfuel hfirst hchain h.live h.order_nodup, hlive,
    releasedBy]

/-- The table after `nc_hashtable_clear`. -/
def NcHashtable.clear (t : NcHashtable) (n : Nat) (cells : List Nat) : NcHashtable :=
  { t with
    live := fun _ => false
    freed := releasedBy t cells ++ t.freed
    buckets := some (List.replicate n ⟨.head, .head⟩)
    list := ⟨.head, .head⟩
    size := 0 }

theorem Skeleton.clear (h : Skeleton t n S) {fuel : Nat} (hfuel : S.order.length < fuel) :
    ncHashtableClear fuel t = some (t.clear n S.order) ∧ Skeleton (t.clear n S.order) n [] := by
  have hclear : clearBuckets n ((List.range n).map fun i => bucketEnds (S.segment i)) =
      some (List.replicate n ⟨.head, .head⟩) := by
    simp [clearBuckets]
  refine ⟨?_, .empty (chained_nil rfl rfl rfl) h.capacity (fun _ => rfl) rfl⟩
  simp only [ncHashtableClear, h.doClear hfuel, numBuckets, h.capacity, h.buckets,
    hclear, Option.bind_eq_bind, Option.bind_some]
  rfl

end Libnc.Hashtable
