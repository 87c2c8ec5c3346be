import Libnc.Hashtable.Skeleton

/-!
# The representation invariant of the hash table

`Rep` ties the table to its bucket segments and to the callbacks.  What a table
holds is its `view`: the key and the value of every allocated pair.  Every
public function gets one lemma that says which result it returns, what happens
to the view and to the calls of the free functions, and that the invariant is
kept.
-/

namespace Libnc.Hashtable

open Libnc.Foundation

/-- `cmp_keys` is an equivalence and equal keys have equal hashes. -/
structure LawfulKeys (callbacks : Callbacks) : Prop where
  refl : ∀ key, callbacks.cmpKeys key key = true
  symm : ∀ {j k}, callbacks.cmpKeys j k = true → callbacks.cmpKeys k j = true
  trans : ∀ {i j k}, callbacks.cmpKeys i j = true → callbacks.cmpKeys j k = true →
    callbacks.cmpKeys i k = true
  hash : ∀ {j k}, callbacks.cmpKeys j k = true → callbacks.hashKey j = callbacks.hashKey k

/-- Keys that are compared and hashed by their address. -/
def addressKeys : Callbacks where
  hashKey := id
  cmpKeys j k := j == k
  freeKey := true
  freeValue := true

theorem addressKeys_lawful : LawfulKeys addressKeys := by
  constructor <;> simp_all [addressKeys]

structure Rep (callbacks : Callbacks) (t : NcHashtable) (n : Nat) (S : Layout) : Prop
    extends Chained t n S where
  callbacks_eq : t.callbacks = callbacks
  capacity : primes[t.numBuckets]? = some n
  mem_of_live : ∀ a, t.live a = true → a ∈ S.order
  index : ∀ i, ∀ a ∈ S.segment i, (t.pair a).hash % n = i
  hash_eq : ∀ a ∈ S.order, (t.pair a).hash = callbacks.hashKey (t.pair a).key
  distinct : ∀ a ∈ S.order, ∀ b ∈ S.order,
    callbacks.cmpKeys (t.pair a).key (t.pair b).key = true → a = b
  size_eq : t.size = S.order.length
  size_le : t.size ≤ n

/-- Key and value of the pair at an address, if one is allocated there. -/
def NcHashtable.view (t : NcHashtable) (a : Nat) : Option (Ptr × Ptr) :=
  if t.live a then some ((t.pair a).key, (t.pair a).value) else none

/-- No stored key is equal to `key`. -/
def Absent (t : NcHashtable) (key : Ptr) : Prop :=
  ∀ a k v, t.view a = some (k, v) → t.callbacks.cmpKeys k key = false

namespace Rep

variable {callbacks : Callbacks} {t t' : NcHashtable} {n : Nat} {S : Layout}

theorem skeleton (h : Rep callbacks t n S) : Skeleton t n S where
  toChained := h.toChained
  capacity := h.capacity
  mem_of_live := h.mem_of_live
  size_eq := h.size_eq
  size_le := h.size_le

theorem pos (h : Rep callbacks t n S) : 0 < n := h.skeleton.pos

theorem numBuckets_eq (h : Rep callbacks t n S) : numBuckets t = some n := h.capacity

theorem live_iff (h : Rep callbacks t n S) (a : Nat) : t.live a = true ↔ a ∈ S.order :=
  ⟨h.mem_of_live a, h.live a⟩

theorem view_of_mem (h : Rep callbacks t n S) {a : Nat} (ha : a ∈ S.order) :
    t.view a = some ((t.pair a).key, (t.pair a).value) :=
  if_pos (h.live a ha)

theorem view_eq_some (h : Rep callbacks t n S) {a : Nat} {k v : Ptr}
    (hv : t.view a = some (k, v)) :
    a ∈ S.order ∧ (t.pair a).key = k ∧ (t.pair a).value = v := by
  unfold NcHashtable.view at hv
  split at hv
  · rename_i hlive
    simp only [Option.some.injEq, Prod.mk.injEq] at hv
    exact ⟨h.mem_of_live a hlive, hv⟩
  · simp at hv

theorem absent_iff (h : Rep callbacks t n S) {key : Ptr} :
    Absent t key ↔ ∀ a ∈ S.order, callbacks.cmpKeys (t.pair a).key key = false := by
  constructor
  · intro habs a ha
    rw [← h.callbacks_eq]
    exact habs a _ _ (h.view_of_mem ha)
  · intro hall a k v hv
    obtain ⟨ha, rfl, -⟩ := h.view_eq_some hv
    rw [h.callbacks_eq]
    exact hall a ha

/-! ## Search -/

/-- The segment of a key's hash contains the only pair that can hold an equal key. -/
theorem find_spec (h : Rep callbacks t n S) (hk : LawfulKeys callbacks) (key : Ptr) :
    (∃ a, (S.segment (callbacks.hashKey key % n)).find?
        (Matches t key (callbacks.hashKey key)) = some a ∧
      a ∈ S.segment (callbacks.hashKey key % n) ∧
      callbacks.cmpKeys (t.pair a).key key = true) ∨
    ((S.segment (callbacks.hashKey key % n)).find?
        (Matches t key (callbacks.hashKey key)) = none ∧ Absent t key) := by
  cases hfind : (S.segment (callbacks.hashKey key % n)).find?
      (Matches t key (callbacks.hashKey key)) with
  | some a =>
      have hm := List.find?_some hfind
      rw [Matches, h.callbacks_eq, decide_eq_true_eq] at hm
      exact .inl ⟨a, rfl, List.mem_of_find?_eq_some hfind, hm.2⟩
  | none =>
      refine .inr ⟨rfl, h.absent_iff.mpr fun a ha => ?_⟩
      by_contra hcmp
      rw [Bool.not_eq_false] at hcmp
      have hhash : (t.pair a).hash = callbacks.hashKey key :=
        (h.hash_eq a ha).trans (hk.hash hcmp)
      obtain ⟨i, hi⟩ := Segmented.exists_mem_segment h.wf ha
      have hidx := h.index i a hi
      rw [hhash] at hidx
      have := List.find?_eq_none.mp hfind a (hidx ▸ hi)
      exact this (by simp [Matches, hhash, h.callbacks_eq, hcmp])

theorem bucket_hash (h : Rep callbacks t n S) (key : Ptr) :
    t.bucket (callbacks.hashKey key % n) =
      some (bucketEnds (S.segment (callbacks.hashKey key % n))) :=
  h.skeleton.bucket_mod _

theorem lookup_spec (h : Rep callbacks t n S) (hk : LawfulKeys callbacks) {fuel : Nat}
    (hfuel : S.order.length < fuel) (key : Ptr) :
    (∃ a k v, lookup fuel t key = some (some a) ∧ t.view a = some (k, v) ∧
      callbacks.cmpKeys k key = true) ∨
    (lookup fuel t key = some none ∧ Absent t key) := by
  have hlookup : lookup fuel t key = some ((S.segment (callbacks.hashKey key % n)).find?
      (Matches t key (callbacks.hashKey key))) := by
    simp only [lookup, h.callbacks_eq, h.numBuckets_eq, Option.bind_eq_bind, Option.bind_some,
      h.bucket_hash]
    exact hashtableFindPair_spec h.toChained hfuel.le key _
  rw [hlookup]
  rcases h.find_spec hk key with ⟨a, hfind, ha, hcmp⟩ | ⟨hfind, habs⟩
  · exact .inl ⟨a, _, _, by rw [hfind],
      h.view_of_mem (Segmented.mem_order_of_mem_segment ha), hcmp⟩
  · exact .inr ⟨by rw [hfind], habs⟩

theorem view_unique (h : Rep callbacks t n S) (hk : LawfulKeys callbacks) {a b : Nat}
    {j k v w key : Ptr} (ha : t.view a = some (j, v)) (hb : t.view b = some (k, w))
    (hj : callbacks.cmpKeys j key = true) (hk' : callbacks.cmpKeys k key = true) : a = b := by
  obtain ⟨hamem, rfl, -⟩ := h.view_eq_some ha
  obtain ⟨hbmem, rfl, -⟩ := h.view_eq_some hb
  exact h.distinct a hamem b hbmem (hk.trans hj (hk.symm hk'))

end Rep

/-- The invariant of a table whose part without the keys is in order. -/
theorem Skeleton.rep {callbacks : Callbacks} {t : NcHashtable} {n : Nat} {S : Layout}
    (h : Skeleton t n S) (hcallbacks : t.callbacks = callbacks)
    (hindex : ∀ i, ∀ a ∈ S.segment i, (t.pair a).hash % n = i)
    (hhash : ∀ a ∈ S.order, (t.pair a).hash = callbacks.hashKey (t.pair a).key)
    (hdistinct : ∀ a ∈ S.order, ∀ b ∈ S.order,
      callbacks.cmpKeys (t.pair a).key (t.pair b).key = true → a = b) : Rep callbacks t n S :=
  ⟨h.toChained, hcallbacks, h.capacity, h.mem_of_live, hindex, hhash, hdistinct, h.size_eq,
    h.size_le⟩

end Libnc.Hashtable
