import Libnc.Hashtable.Session

/-!
# The shape of a reachable table

The representation invariant read off the memory itself, without the segments
that the proofs use: one ring of pairs, the stored hashes, unequal keys, and for
every bucket the run of pairs between its two ends.
-/

namespace Libnc.Hashtable

open Libnc.Foundation

/-- Following `next` from the first node of the bucket reaches its last through `seg`. -/
structure BucketRun (t : NcHashtable) (bucket : HashtableBucket) (seg : List Nat) : Prop where
  first : (seg.map ListPtr.pair).head? = some bucket.first
  last : (seg.map ListPtr.pair).getLast? = some bucket.last
  links : (seg.map ListPtr.pair).IsChain fun l m => t.next l = m
  nodup : seg.Nodup

/-- The pairs in the order of the list are `cells` and there are `n` buckets. -/
structure WellFormed (t : NcHashtable) (n : Nat) (cells : List Nat) : Prop where
  ring : Ring t.next t.prev .head (cells.map .pair)
  prev_next : ∀ l ∈ .head :: cells.map ListPtr.pair, t.prev (t.next l) = l
  next_prev : ∀ l ∈ .head :: cells.map ListPtr.pair, t.next (t.prev l) = l
  size_eq : t.size = cells.length
  live_iff : ∀ a, t.live a = true ↔ a ∈ cells
  hash_eq : ∀ a ∈ cells, (t.pair a).hash = t.callbacks.hashKey (t.pair a).key
  keys_unequal : cells.Pairwise fun a b =>
    t.callbacks.cmpKeys (t.pair a).key (t.pair b).key = false
  capacity : numBuckets t = some n
  buckets_length : ∃ buckets, t.buckets = some buckets ∧ buckets.length = n
  bucket_run : ∀ i < n, (∃ a ∈ cells, (t.pair a).hash % n = i) →
    ∃ bucket seg, t.bucket i = some bucket ∧ BucketRun t bucket seg ∧
      ∀ a, a ∈ seg ↔ a ∈ cells ∧ (t.pair a).hash % n = i
  bucket_empty : ∀ i < n, (¬ ∃ a ∈ cells, (t.pair a).hash % n = i) →
    t.bucket i = some ⟨.head, .head⟩
  size_le : t.size ≤ n

variable {callbacks : Callbacks} {t : NcHashtable} {n fuel : Nat} {S : Layout}

theorem bucketRun_bucketEnds {seg : List Nat} (hne : seg ≠ []) (hnodup : seg.Nodup)
    (hlinks : (seg.map ListPtr.pair).IsChain fun l m => t.next l = m) :
    BucketRun t (bucketEnds seg) seg := by
  obtain ⟨a, rest, rfl⟩ := List.exists_cons_of_ne_nil hne
  refine ⟨rfl, ?_, hlinks, hnodup⟩
  rw [List.getLast?_map, List.getLast?_cons]
  rfl

theorem Rep.mem_segment_iff (h : Rep callbacks t n S) (i a : Nat) :
    a ∈ S.segment i ↔ a ∈ S.order ∧ (t.pair a).hash % n = i := by
  constructor
  · exact fun ha => ⟨Segmented.mem_order_of_mem_segment ha, h.index i a ha⟩
  · rintro ⟨ha, hi⟩
    obtain ⟨j, hj⟩ := Segmented.exists_mem_segment h.wf ha
    rw [h.index j a hj] at hi
    exact hi ▸ hj

theorem Rep.wellFormed (h : Rep callbacks t n S) : WellFormed t n S.order where
  ring := h.ring
  prev_next _ hl := h.ring.prev_next hl
  next_prev _ hl := h.ring.next_prev hl
  size_eq := h.size_eq
  live_iff := h.live_iff
  hash_eq a ha := by
    rw [h.callbacks_eq]
    exact h.hash_eq a ha
  keys_unequal := h.order_nodup.imp_of_mem fun {a b} ha hb hne => by
    by_contra hcmp
    rw [Bool.not_eq_false, h.callbacks_eq] at hcmp
    exact hne (h.distinct a ha b hb hcmp)
  capacity := h.capacity
  buckets_length := ⟨_, h.buckets, by simp⟩
  bucket_run i hi := by
    rintro ⟨a, ha, hidx⟩
    have hne : S.segment i ≠ [] :=
      List.ne_nil_of_mem ((h.mem_segment_iff i a).mpr ⟨ha, hidx⟩)
    exact ⟨_, _, h.bucket_eq hi,
      bucketRun_bucketEnds hne (h.segment_nodup i) (h.isChain_segment i), h.mem_segment_iff i⟩
  bucket_empty i hi hnone := by
    have hnil : S.segment i = [] := List.eq_nil_iff_forall_not_mem.mpr fun a ha =>
      hnone ⟨a, (h.mem_segment_iff i a).mp ha⟩
    rw [h.bucket_eq hi, hnil]
    rfl
  size_le := h.size_le

/-- Every run from `nc_hashtable_init` returns and ends in a well-formed table. -/
theorem ncHashtable_wellFormed (hk : LawfulKeys callbacks) {t₀ : NcHashtable}
    (hinit : ncHashtableInit true callbacks = some t₀) {ops : List Op}
    (hfuel : ops.length < fuel)
    (hok : Along (step fuel) (fun s op => Callable s op ∧ FewPairs s.table) ⟨t₀, []⟩ ops) :
    ∃ s, run (step fuel) ⟨t₀, []⟩ ops = some s ∧ s.table.callbacks = callbacks ∧
      ∃ n cells, WellFormed s.table n cells := by
  obtain ⟨s, hrun, ⟨n, S, hrep, -⟩, -⟩ := run_spec hk (fun _ _ => True)
    (fun _ _ _ _ _ _ _ _ _ => trivial) (init_sound hinit).1 trivial (by omega) hok
  exact ⟨s, hrun, hrep.callbacks_eq, n, S.order, hrep.wellFormed⟩

/-- Six keys, two of them in one bucket, force the first growth. -/
theorem ncHashtable_wellFormed_growth :
    ∃ s, run (step 8) ⟨addressTable, []⟩
        [.set ⟨true, some 1⟩ 7 70, .set ⟨true, some 2⟩ 12 120, .set ⟨true, some 3⟩ 1 10,
          .set ⟨true, some 4⟩ 3 30, .set ⟨true, some 5⟩ 4 40, .set ⟨true, some 6⟩ 20 200,
          .del 12] = some s ∧
      s.table.callbacks = addressKeys ∧ ∃ n cells, WellFormed s.table n cells := by
  have hcall : Along (step 8) Callable ⟨addressTable, []⟩
      [.set ⟨true, some 1⟩ 7 70, .set ⟨true, some 2⟩ 12 120, .set ⟨true, some 3⟩ 1 10,
        .set ⟨true, some 4⟩ 3 30, .set ⟨true, some 5⟩ 4 40, .set ⟨true, some 6⟩ 20 200,
        .del 12] := by
    decide
  exact ncHashtable_wellFormed addressKeys_lawful addressTable_init (by decide)
    (along_few addressKeys_lawful (init_sound addressTable_init).1 (by decide) (by decide) hcall)

end Libnc.Hashtable
