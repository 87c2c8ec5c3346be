import Libnc.Hashtable.Memory
import Libnc.Foundation.Segmented

/-!
# Buckets as segments of the shared list

All buckets share the list that starts at the table's head.  `Chained` says
that this list is a ring whose order is a segmented list and that every bucket
holds the two ends of its segment.  Each function that edits the list is
described by what it does to the segments.
-/

namespace Libnc.Hashtable

open Libnc.Foundation

abbrev Layout := Segmented Nat Nat

/-- The bucket of a segment: its two ends, or twice the head. -/
def bucketEnds : List Nat → HashtableBucket
  | [] => ⟨.head, .head⟩
  | a :: seg => ⟨.pair a, .pair (seg.getLast?.getD a)⟩

/-- The shared list is divided into the segments of `S`, one for each nonempty bucket. -/
structure Chained (t : NcHashtable) (n : Nat) (S : Layout) : Prop where
  ring : Ring t.next t.prev .head (S.order.map .pair)
  live : ∀ a ∈ S.order, t.live a = true
  buckets : t.buckets = some ((List.range n).map fun i => bucketEnds (S.segment i))
  wf : S.WellFormed

theorem bucketIsEmpty_bucketEnds (seg : List Nat) :
    bucketIsEmpty (bucketEnds seg) = seg.isEmpty := by
  cases seg <;> simp [bucketEnds, bucketIsEmpty]

theorem pair_injective : Function.Injective ListPtr.pair := by
  intro a b h
  cases h
  rfl

theorem set_map_range {α : Type*} (f : Nat → α) (n i : Nat) (b : α) :
    ((List.range n).map f).set i b =
      (List.range n).map fun j => if j = i then b else f j := by
  apply List.ext_getElem
  · simp
  · intro j hj hj'
    rw [List.getElem_set]
    simp [eq_comm]

namespace Chained

variable {t t' : NcHashtable} {n i x : Nat} {S : Layout}

theorem order_nodup (h : Chained t n S) : S.order.Nodup :=
  List.Nodup.of_map _ (List.nodup_cons.mp h.ring.nodup).2

theorem segment_nodup (h : Chained t n S) (i : Nat) : (S.segment i).Nodup := by
  by_cases hi : i ∈ S.labels
  · obtain ⟨before, after, horder⟩ := Segmented.exists_order_eq hi
    have := h.order_nodup
    rw [horder, List.append_assoc] at this
    exact (List.nodup_append.mp (List.nodup_append.mp this).2.1).1
  · simp [Segmented.segment_eq_nil_of_not_mem hi]

theorem isChain_segment (h : Chained t n S) (i : Nat) :
    ((S.segment i).map ListPtr.pair).IsChain fun l m => t.next l = m := by
  by_cases hi : i ∈ S.labels
  · obtain ⟨before, after, horder⟩ := Segmented.exists_order_eq hi
    have hring : Ring t.next t.prev .head
        (before.map .pair ++ (S.segment i).map .pair ++ after.map .pair) := by
      rw [← List.map_append, ← List.map_append, ← horder]
      exact h.ring
    exact hring.isChain_next
  · simp [Segmented.segment_eq_nil_of_not_mem hi]

theorem length_segment_le (h : Chained t n S) (i : Nat) :
    (S.segment i).length ≤ S.order.length :=
  (List.subperm_of_subset (h.segment_nodup i) fun _ hb =>
    Segmented.mem_order_of_mem_segment hb).length_le

theorem bucket_eq (h : Chained t n S) (hi : i < n) :
    t.bucket i = some (bucketEnds (S.segment i)) := by
  simp [NcHashtable.bucket, h.buckets, hi]

theorem valid_of_mem (h : Chained t n S) {l : ListPtr}
    (hl : l ∈ .head :: S.order.map ListPtr.pair) : t.valid l = true := by
  rcases List.mem_cons.mp hl with rfl | hl
  · rfl
  · obtain ⟨a, ha, rfl⟩ := List.mem_map.mp hl
    exact h.live a ha

theorem congr (h : Chained t n S)
    (hlink : ∀ l ∈ .head :: S.order.map ListPtr.pair, t'.linkAt l = t.linkAt l)
    (hlive : ∀ a ∈ S.order, t'.live a = true) (hbuckets : t'.buckets = t.buckets) :
    Chained t' n S where
  ring := h.ring.congr (fun l hl => congrArg HashtableList.next (hlink l hl))
    (fun l hl => congrArg HashtableList.prev (hlink l hl))
  live := hlive
  buckets := hbuckets.trans h.buckets
  wf := h.wf

theorem setBucket_eq (h : Chained t n S) (hi : i < n) (b : HashtableBucket) :
    t.setBucket i b = some { t with
      buckets := some ((List.range n).map fun j =>
        if j = i then b else bucketEnds (S.segment j)) } := by
  simp [NcHashtable.setBucket, h.buckets, hi, set_map_range]

end Chained

/-! ## Insertion -/

/--
Where `insertToBucket` links a pair: in front of the bucket's first node, or of
the head if the bucket is empty; both are a cut of the order.
-/
theorem exists_insert_cut {t : NcHashtable} {n i : Nat} {S : Layout}
    (h : Chained t n S) (hi : i < n) (x : Nat) :
    ∃ (y : ListPtr) (before after : List Nat),
      (after.map ListPtr.pair ++ [ListPtr.head]).head? = some y ∧
      S.order = before ++ after ∧
      (S.place i x).order = before ++ x :: after ∧
      insertToBucket t i (.pair x) =
        (listInsert t y (.pair x)).bind fun t =>
          t.setBucket i (bucketEnds (x :: S.segment i)) := by
  cases hseg : S.segment i with
  | nil =>
      have hmem : i ∉ S.labels := fun hmem =>
        (Segmented.segment_ne_nil_iff h.wf).mpr hmem hseg
      refine ⟨.head, S.order, [], rfl, by simp, ?_, ?_⟩
      · rw [Segmented.place_of_not_mem hmem]
        simp
      · simp only [insertToBucket, h.bucket_eq hi, hseg, bucketIsEmpty_bucketEnds,
          Option.bind_eq_bind, Option.bind_some, List.isEmpty_nil, if_true]
        rfl
  | cons a seg =>
      have hmem : i ∈ S.labels :=
        Segmented.mem_labels_of_mem_segment (x := a) (by simp [hseg])
      obtain ⟨S₁, S₂, hS, hnotin⟩ := Segmented.split_of_mem hmem
      rw [hseg] at hS
      refine ⟨.pair a, S₁.order, a :: seg ++ Segmented.order S₂, rfl, ?_, ?_, ?_⟩
      · rw [hS]
        simp
      · rw [hS, Segmented.place_split hnotin]
        simp
      · have hlast : (a :: seg).getLast?.getD x = seg.getLast?.getD a := by
          simp [List.getLast?_cons]
        simp only [insertToBucket, h.bucket_eq hi, hseg, bucketIsEmpty_bucketEnds,
          Option.bind_eq_bind, Option.bind_some, List.isEmpty_cons, Bool.false_eq_true,
          if_false]
        simp only [bucketEnds, hlast]

theorem insertToBucket_spec {t : NcHashtable} {n i x : Nat} {S : Layout}
    (h : Chained t n S) (hi : i < n) (hx : t.live x = true) (hnot : x ∉ S.order) :
    ∃ t', insertToBucket t i (.pair x) = some t' ∧ Chained t' n (S.place i x) ∧
      Relinked t t' ∧
      ∀ a, a ≠ x → a ∉ S.order → t'.next (.pair a) = t.next (.pair a) := by
  have hfresh : ListPtr.pair x ∉ .head :: S.order.map ListPtr.pair := by
    simpa using hnot
  have hsegs : ∀ j, (if j = i then bucketEnds (x :: S.segment i)
      else bucketEnds (S.segment j)) = bucketEnds ((S.place i x).segment j) := by
    intro j
    rw [Segmented.segment_place]
    split <;> rfl
  obtain ⟨y, before, after, hy, horder, hplace, hbucket⟩ := exists_insert_cut h hi x
  have hymem : y ∈ .head :: S.order.map ListPtr.pair := by
    have : y ∈ after.map ListPtr.pair ++ [ListPtr.head] := List.mem_of_mem_head? hy
    rw [horder]
    simp at this ⊢
    tauto
  have hpmem := h.ring.prev_mem hymem
  obtain ⟨t₁, hins, hrel, hbs, hnext, hprev⟩ :=
    listInsert_spec (h.valid_of_mem hymem) (show t.valid (.pair x) from hx)
      (h.valid_of_mem hpmem)
      (fun heq => hfresh (heq ▸ hymem)) (fun heq => hfresh (heq ▸ hpmem))
  have hset : t₁.setBucket i (bucketEnds (x :: S.segment i)) = some { t₁ with
      buckets := some ((List.range n).map fun j => bucketEnds ((S.place i x).segment j)) } := by
    simp [NcHashtable.setBucket, hbs, h.buckets, hi, set_map_range, hsegs]
  refine ⟨_, by rw [hbucket, hins, Option.bind_some, hset],
    ⟨?_, ?_, rfl, h.wf.place i x⟩, hrel.trans (Relinked.setBuckets _ _), ?_⟩
  · have hring : Ring t.next t.prev .head (before.map .pair ++ after.map .pair) := by
      simpa [horder] using h.ring
    have hfresh' : ListPtr.pair x ∉ .head :: (before.map .pair ++ after.map .pair) := by
      simpa [horder] using hfresh
    simpa [hplace] using hring.insert hy hfresh' hnext hprev
  · intro a ha
    have hmem := (Segmented.order_place_perm S i x).mem_iff.mp ha
    rw [show (_ : NcHashtable).live = t.live from hrel.live]
    rcases List.mem_cons.mp hmem with rfl | hmem
    · exact hx
    · exact h.live a hmem
  · intro a hax ha
    have haprev : ListPtr.pair a ≠ t.prev y := by
      intro heq
      rw [← heq] at hpmem
      exact ha (by simpa using hpmem)
    rw [NcHashtable.next_setBuckets, hnext, if_neg (fun h => hax (pair_injective h)),
      if_neg haprev]

/-! ## Search -/

/-- The pair that `hashtable_find_pair` looks for. -/
def Matches (t : NcHashtable) (key : Ptr) (hash a : Nat) : Bool :=
  (t.pair a).hash = hash ∧ t.callbacks.cmpKeys (t.pair a).key key

theorem findPairLoop_spec {t : NcHashtable} {first : ListPtr} {key : Ptr} {hash : Nat}
    {seg : List Nat} {a fuel : Nat} (hnodup : (a :: seg).Nodup)
    (hlive : ∀ b ∈ a :: seg, t.live b = true)
    (hchain : ((a :: seg).map ListPtr.pair).IsChain fun l m => t.next l = m)
    (hfuel : seg.length < fuel) :
    findPairLoop t ⟨first, .pair (seg.getLast?.getD a)⟩ key hash fuel (.pair a) =
      some ((a :: seg).find? (Matches t key hash)) := by
  induction seg generalizing a fuel with
  | nil =>
      obtain ⟨fuel, rfl⟩ := Nat.exists_eq_succ_of_ne_zero (Nat.ne_of_gt hfuel)
      simp only [findPairLoop, listToPair, Option.bind_eq_bind, Option.bind_some,
        getPair_of_live (hlive a (by simp))]
      by_cases hm : Matches t key hash a
      · rw [if_pos (by simpa [Matches] using hm), List.find?_cons_of_pos hm]
      · rw [if_neg (by simpa [Matches] using hm), if_pos (by simp),
          List.find?_cons_of_neg hm, List.find?_nil]
  | cons b seg ih =>
      obtain ⟨fuel, rfl⟩ := Nat.exists_eq_succ_of_ne_zero (Nat.ne_of_gt (Nat.zero_lt_of_lt hfuel))
      rw [List.map_cons, List.map_cons, List.isChain_cons_cons] at hchain
      have hlast : (b :: seg).getLast?.getD a = seg.getLast?.getD b := by
        simp [List.getLast?_cons]
      have hne : a ≠ seg.getLast?.getD b := by
        have hmem : seg.getLast?.getD b ∈ b :: seg := by
          cases hl : seg.getLast? with
          | none => simp
          | some c => simp [List.mem_of_getLast? hl]
        exact fun heq => (List.nodup_cons.mp hnodup).1 (heq ▸ hmem)
      have hrest := ih (List.nodup_cons.mp hnodup).2 (fun c hc => hlive c (by simp [hc]))
        hchain.2 (show seg.length < fuel by simpa using hfuel)
      simp only [findPairLoop, listToPair, Option.bind_eq_bind, Option.bind_some,
        getPair_of_live (hlive a (by simp)), hlast]
      by_cases hm : Matches t key hash a
      · rw [if_pos (by simpa [Matches] using hm), List.find?_cons_of_pos hm]
      · rw [if_neg (by simpa [Matches] using hm), if_neg (fun h => hne (pair_injective h)),
          List.find?_cons_of_neg hm, ← hrest]
        exact congrArg _ hchain.1

theorem hashtableFindPair_spec {t : NcHashtable} {n : Nat} {S : Layout} (h : Chained t n S)
    {i fuel : Nat} (hfuel : S.order.length ≤ fuel) (key : Ptr) (hash : Nat) :
    hashtableFindPair fuel t (bucketEnds (S.segment i)) key hash =
      some ((S.segment i).find? (Matches t key hash)) := by
  unfold hashtableFindPair
  rw [bucketIsEmpty_bucketEnds]
  have hlen := h.length_segment_le i
  have hlive : ∀ b ∈ S.segment i, t.live b = true := fun b hb =>
    h.live b (Segmented.mem_order_of_mem_segment hb)
  have hchain := h.isChain_segment i
  have hnodup := h.segment_nodup i
  cases hseg : S.segment i with
  | nil => simp
  | cons a seg =>
      rw [hseg] at hlen hlive hchain hnodup
      rw [List.isEmpty_cons, if_neg Bool.false_ne_true]
      exact findPairLoop_spec hnodup hlive hchain (by simp at hlen; omega)

/-! ## Removal -/

theorem bucketEnds_append_cons (seg₁ seg₂ : List Nat) (a : Nat) :
    bucketEnds (seg₁ ++ a :: seg₂) =
      ⟨.pair (seg₁.head?.getD a), .pair (seg₂.getLast?.getD a)⟩ := by
  cases seg₁ <;> simp [bucketEnds, List.getLast?_append, List.getLast?_cons]

theorem getLast?_getD_ne {seg : List Nat} {a : Nat} (ha : a ∉ seg) (hne : seg ≠ []) :
    seg.getLast?.getD a ≠ a := by
  obtain ⟨init, last, rfl⟩ := List.eq_nil_or_concat seg |>.resolve_left hne
  rintro heq
  exact ha (by simp at heq; simp [heq])

theorem Chained.setBucket_self {t : NcHashtable} {n i : Nat} {S : Layout}
    (h : Chained t n S) (hi : i < n) :
    t.setBucket i (bucketEnds (S.segment i)) = some t := by
  have hsame : (List.range n).map (fun j =>
      if j = i then bucketEnds (S.segment i) else bucketEnds (S.segment j)) =
      (List.range n).map fun j => bucketEnds (S.segment j) := by
    apply List.map_congr_left
    intro j _
    split
    · rename_i heq
      rw [heq]
    · rfl
  rw [h.setBucket_eq hi, hsame, ← h.buckets]

/--
The four positional cases of `hashtable_do_del`: whatever the position of the
pair, the bucket keeps the ends of its segment without the pair.
-/
theorem unlinkFromBucket_spec {t : NcHashtable} {n i a : Nat} {S : Layout}
    {seg₁ seg₂ : List Nat} (h : Chained t n S) (hi : i < n)
    (hseg : S.segment i = seg₁ ++ a :: seg₂) :
    unlinkFromBucket t i (bucketEnds (S.segment i)) (.pair a) = some { t with
      buckets := some ((List.range n).map fun j => bucketEnds ((S.remove i a).segment j)) } := by
  have hnodup := h.segment_nodup i
  rw [hseg] at hnodup
  have ha₁ : a ∉ seg₁ := fun ha =>
    (List.nodup_append.mp hnodup).2.2 a ha a (by simp) rfl
  have ha₂ : a ∉ seg₂ := (List.nodup_cons.mp (List.nodup_append.mp hnodup).2.1).1
  have herase : (S.segment i).erase a = seg₁ ++ seg₂ := by
    rw [hseg, List.erase_append_right _ ha₁, List.erase_cons_head]
  have hmem : a ∈ S.segment i := by simp [hseg]
  obtain ⟨before, after, horder⟩ :=
    Segmented.exists_order_eq (Segmented.mem_labels_of_mem_segment hmem)
  have hring : Ring t.next t.prev .head
      ((before ++ seg₁).map ListPtr.pair ++ .pair a :: (seg₂ ++ after).map ListPtr.pair) := by
    have := h.ring
    rw [horder, hseg] at this
    simpa using this
  suffices hends : unlinkFromBucket t i (bucketEnds (S.segment i)) (.pair a) =
      t.setBucket i (bucketEnds (seg₁ ++ seg₂)) by
    rw [hends, h.setBucket_eq hi]
    simp only [Segmented.segment_remove h.wf, herase]
    congr 5
    funext j
    split <;> rfl
  have hlink : t.getLink (.pair a) = some ⟨t.prev (.pair a), t.next (.pair a)⟩ :=
    getLink_of_valid (h.live a (Segmented.mem_order_of_mem_segment hmem))
  rw [hseg, bucketEnds_append_cons, unlinkFromBucket, hlink]
  simp only [Option.bind_eq_bind, Option.bind_some]
  rcases seg₁ with _ | ⟨b, seg₁⟩ <;> rcases seg₂ with _ | ⟨c, seg₂⟩
  · simp [bucketEnds]
  · have hnext := hring.next_cell
    have hca := getLast?_getD_ne ha₂ (by simp)
    rw [if_neg (by simpa [eq_comm] using hca), if_pos (by simp)]
    simp at hnext
    simp [hnext, bucketEnds, List.getLast?_cons]
  · have hprev := hring.prev_cell
    have hba : b ≠ a := fun heq => ha₁ (by simp [heq])
    rw [if_neg (by simp [Ne.symm hba]), if_neg (by simp [Ne.symm hba]), if_pos (by simp)]
    simp [List.getLast?_append, List.getLast?_cons] at hprev
    simp [hprev, bucketEnds]
  · have hba : b ≠ a := fun heq => ha₁ (by simp [heq])
    have hca := getLast?_getD_ne ha₂ (by simp)
    have hsame : bucketEnds ((b :: seg₁) ++ c :: seg₂) = bucketEnds (S.segment i) := by
      rw [hseg, bucketEnds_append_cons]
      simp [bucketEnds, List.getLast?_cons]
    rw [if_neg (by simp [Ne.symm hba]), if_neg (by simp [Ne.symm hba]),
      if_neg (by simpa [eq_comm] using hca), hsame, h.setBucket_self hi]

theorem unlink_spec {t : NcHashtable} {n i a : Nat} {S : Layout} (h : Chained t n S)
    (hi : i < n) (ha : a ∈ S.segment i) :
    ∃ t', (unlinkFromBucket t i (bucketEnds (S.segment i)) (.pair a)).bind
        (fun t => listRemove t (.pair a)) = some t' ∧
      Chained t' n (S.remove i a) ∧ Relinked t t' := by
  obtain ⟨seg₁, seg₂, hseg, ha₁⟩ := List.eq_append_cons_of_mem ha
  obtain ⟨before, after, horder, hremoved⟩ := Segmented.order_remove hseg ha₁
  have hring : Ring t.next t.prev .head
      ((before ++ seg₁).map ListPtr.pair ++ .pair a :: (seg₂ ++ after).map ListPtr.pair) := by
    have := h.ring
    rw [horder] at this
    simpa using this
  have hmem : ListPtr.pair a ∈ .head :: S.order.map ListPtr.pair := by
    simp [Segmented.mem_order_of_mem_segment ha]
  have hprevne : t.prev (.pair a) ≠ .pair a := by
    apply h.ring.prev_ne
    simp [Segmented.mem_order_of_mem_segment ha]
  rw [unlinkFromBucket_spec h hi hseg, Option.bind_some]
  generalize hu : ({ t with buckets := _ } : NcHashtable) = u
  have hlink : u.linkAt = t.linkAt := by
    subst hu
    rfl
  have hunext : u.next = t.next := by
    subst hu
    rfl
  have huprev : u.prev = t.prev := by
    subst hu
    rfl
  have huvalid : ∀ l, l ∈ .head :: S.order.map ListPtr.pair → u.valid l = true := by
    subst hu
    exact fun l hl => h.valid_of_mem hl
  obtain ⟨t', hremove, hrel, hbs, hnext, hprev⟩ :=
    listRemove_spec (t := u) (huvalid _ hmem)
      (huvalid _ (by rw [huprev]; exact h.ring.prev_mem hmem))
      (huvalid _ (by rw [hunext]; exact h.ring.next_mem hmem)) (by rw [huprev]; exact hprevne)
  have hrel' : Relinked t t' := by
    subst hu
    exact (Relinked.setBuckets t _).trans hrel
  refine ⟨t', hremove, ⟨?_, ?_, ?_, h.wf.remove i a⟩, hrel'⟩
  · rw [hunext, huprev] at hnext hprev
    have hring' := hring.remove (fun l _ => hnext l) (fun l _ => hprev l)
    rw [hremoved]
    simpa using hring'
  · intro b hb
    rw [hrel'.live]
    apply h.live b
    rw [hremoved] at hb
    rw [horder]
    simp at hb ⊢
    tauto
  · subst hu
    exact hbs

/-! ## Rehash -/

/-- The nodes that a loop along `next` still visits before it stops at the head. -/
def walk (rest : List Nat) : List ListPtr := rest.map .pair ++ [.head]

@[simp] theorem walk_nil : walk [] = [.head] := rfl

@[simp] theorem walk_cons (a : Nat) (rest : List Nat) :
    walk (a :: rest) = .pair a :: walk rest := rfl

theorem walk_eq_cons (rest : List Nat) : ∃ l tail, walk rest = l :: tail := by
  cases rest <;> simp

theorem mem_dropLast_walk {rest : List Nat} {l : ListPtr} :
    l ∈ (walk rest).dropLast ↔ ∃ a ∈ rest, .pair a = l := by
  simp [walk]

theorem isChain_walk_of_ring {t : NcHashtable} {cells : List Nat}
    (h : Ring t.next t.prev .head (cells.map .pair)) :
    (walk cells).IsChain (fun l m => t.next l = m) ∧ (walk cells).head? = some t.list.next := by
  have hchain := h.chain.imp fun _ _ hab => hab.1
  exact ⟨(List.isChain_cons.mp hchain).2, h.next_head.symm⟩

theorem Chained.isChain_walk {t : NcHashtable} {n : Nat} {S : Layout} (h : Chained t n S) :
    (walk S.order).IsChain (fun l m => t.next l = m) ∧
      (walk S.order).head? = some t.list.next :=
  isChain_walk_of_ring h.ring

/--
The loop of `hashtable_do_rehash` at a node: the moved pairs hang on the new
buckets, the pairs still to be visited are only reached through their old `next`
links, which no insertion touches.
-/
structure Moving (t : NcHashtable) (n : Nat) (S : Layout) (rest : List Nat) : Prop where
  chained : Chained t n S
  walks : (walk rest).IsChain fun l m => t.next l = m
  live : ∀ a ∈ rest, t.live a = true
  nodup : (S.order ++ rest).Nodup

theorem Moving.not_mem {t : NcHashtable} {n a : Nat} {S : Layout} {rest : List Nat}
    (h : Moving t n S (a :: rest)) : a ∉ S.order :=
  fun ha => (List.nodup_append.mp h.nodup).2.2 a ha a (by simp) rfl

/-- One round of the loop moves the node it is at and leaves the rest of the walk alone. -/
theorem Moving.round {t : NcHashtable} {n a : Nat} {S : Layout} {rest : List Nat}
    (h : Moving t n S (a :: rest)) (hn : 0 < n) :
    ∃ t', insertToBucket t ((t.pair a).hash % n) (.pair a) = some t' ∧
      Moving t' n (S.place ((t.pair a).hash % n) a) rest ∧ Relinked t t' ∧
      (walk rest).head? = some (t.linkAt (.pair a)).next := by
  have ha := h.not_mem
  have hnodup := List.nodup_append.mp h.nodup
  obtain ⟨t', hins, hchained, hrel, hnext⟩ :=
    insertToBucket_spec h.chained (Nat.mod_lt (t.pair a).hash hn) (h.live a (by simp)) ha
  obtain ⟨m, tail, htail⟩ := walk_eq_cons rest
  have hwalks := h.walks
  rw [walk_cons, htail, List.isChain_cons_cons] at hwalks
  refine ⟨t', hins, ⟨hchained, ?_, fun b hb => ?_, ?_⟩, hrel, ?_⟩
  · rw [← htail] at hwalks
    refine isChain_imp_of_mem (fun l hl m _ hlm => ?_) hwalks.2
    obtain ⟨b, hb, rfl⟩ := mem_dropLast_walk.mp hl
    refine (hnext b ?_ ?_).trans hlm
    · rintro rfl
      exact (List.nodup_cons.mp hnodup.2.1).1 hb
    · exact fun hbS => hnodup.2.2 b hbS b (by simp [hb]) rfl
  · rw [hrel.live]
    exact h.live b (by simp [hb])
  · have hperm := Segmented.order_place_perm S ((t.pair a).hash % n) a
    exact ((hperm.append_right rest).trans List.perm_middle.symm).nodup_iff.mpr h.nodup
  · rw [htail]
    exact congrArg some hwalks.1.symm

theorem rehashLoop_cons {t t' : NcHashtable} {n a fuel : Nat} (hlive : t.live a = true)
    (hins : insertToBucket t ((t.pair a).hash % n) (.pair a) = some t') :
    rehashLoop n (fuel + 1) t (.pair a) =
      rehashLoop n fuel t' (t.linkAt (.pair a)).next := by
  have hlink := getLink_of_valid (t := t) (l := .pair a) hlive
  simp only [rehashLoop, if_neg (show ListPtr.pair a ≠ .head by simp), hlink, listToPair,
    getPair_of_live hlive, Option.bind_eq_bind, Option.bind_some, hins]

theorem rehashLoop_spec {n : Nat} (hn : 0 < n) {rest : List Nat} {fuel : Nat}
    {t : NcHashtable} {S : Layout} {list : ListPtr} (h : Moving t n S rest)
    (hfuel : rest.length < fuel) (hlist : (walk rest).head? = some list) :
    ∃ t', rehashLoop n fuel t list = some t' ∧
      Chained t' n (rest.foldl (fun S a => S.place ((t.pair a).hash % n) a) S) ∧
      Relinked t t' := by
  induction rest generalizing fuel t S list with
  | nil =>
      obtain ⟨fuel, rfl⟩ := Nat.exists_eq_succ_of_ne_zero (Nat.ne_of_gt hfuel)
      obtain rfl : ListPtr.head = list := by simpa using hlist
      exact ⟨t, by simp [rehashLoop], h.chained, Relinked.refl t⟩
  | cons a rest ih =>
      obtain ⟨fuel, rfl⟩ := Nat.exists_eq_succ_of_ne_zero (Nat.ne_of_gt (Nat.zero_lt_of_lt hfuel))
      obtain rfl : ListPtr.pair a = list := by simpa using hlist
      obtain ⟨t₁, hins, hmoving, hrel, hnext⟩ := h.round hn
      obtain ⟨t', hloop, hchained', hrel'⟩ := ih hmoving
        (show rest.length < fuel by simpa using hfuel) hnext
      refine ⟨t', ?_, ?_, hrel.trans hrel'⟩
      · rw [rehashLoop_cons (h.live a (by simp)) hins]
        exact hloop
      · simpa [hrel.hash] using hchained'

/-! ## Empty tables -/

theorem replicate_head (n : Nat) :
    List.replicate n (⟨.head, .head⟩ : HashtableBucket) =
      (List.range n).map fun i => bucketEnds (Segmented.segment ([] : Layout) i) := by
  simp [Segmented.segment, bucketEnds, List.map_const']

theorem chained_nil {t : NcHashtable} {n : Nat} (hnext : t.next .head = .head)
    (hprev : t.prev .head = .head)
    (hbuckets : t.buckets = some (List.replicate n ⟨.head, .head⟩)) :
    Chained t n [] where
  ring := Ring.empty _ hnext hprev
  live := by simp
  buckets := by rw [hbuckets, replicate_head]
  wf := Segmented.wellFormed_nil

/-- After `list_init` the head belongs to the new buckets, and all pairs are still to be moved. -/
theorem moving_init {t u : NcHashtable} {n : Nat} {cells : List Nat}
    (hring : Ring t.next t.prev .head (cells.map .pair)) (hlive : ∀ a ∈ cells, t.live a = true)
    (hlink : u.linkAt = t.linkAt) (hulive : u.live = t.live)
    (hbuckets : u.buckets = some (List.replicate n ⟨.head, .head⟩)) :
    ∃ t₀, listInit u .head = some t₀ ∧ Moving t₀ n [] cells ∧ Relinked u t₀ ∧
      (walk cells).head? = some t.list.next := by
  obtain ⟨hchain, hfirst⟩ := isChain_walk_of_ring hring
  obtain ⟨t₀, hinit, hrel, hbs, hnext, hprev, hlinks⟩ := listInit_head u
  refine ⟨t₀, hinit, ⟨chained_nil hnext hprev (hbs.trans hbuckets), ?_, fun a ha => ?_, ?_⟩,
    hrel, hfirst⟩
  · refine isChain_imp_of_mem (fun l hl m _ hlm => ?_) hchain
    obtain ⟨a, ha, rfl⟩ := mem_dropLast_walk.mp hl
    have hsame : t₀.linkAt (.pair a) = t.linkAt (.pair a) := by rw [hlinks, hlink]
    exact (congrArg HashtableList.next hsame).trans hlm
  · rw [hrel.live, hulive]
    exact hlive a ha
  · exact List.Nodup.of_map _ (List.nodup_cons.mp hring.nodup).2

/-- The table in which `hashtable_do_rehash` is about to empty the list. -/
def NcHashtable.rebucketed (t : NcHashtable) (newSize : Nat) : NcHashtable :=
  { t with
    numBuckets := t.numBuckets + 1
    buckets := some (List.replicate newSize ⟨.head, .head⟩) }

theorem hashtableDoRehash_eq {t : NcHashtable} {newSize fuel : Nat}
    (h : primes[t.numBuckets + 1]? = some newSize) :
    hashtableDoRehash true fuel t =
      ((listInit (t.rebucketed newSize) .head).bind fun t₀ =>
        rehashLoop newSize fuel t₀ t.list.next).map fun t' => (0, t') := by
  simp only [hashtableDoRehash, numBuckets, h, Option.bind_eq_bind, Option.bind_some, if_true]
  rw [Option.map_bind]
  change (listInit (t.rebucketed newSize) .head).bind _ = _
  refine congrArg _ (funext fun t₀ => ?_)
  exact Option.map_eq_bind.symm

theorem hashtableDoRehash_spec {t : NcHashtable} {n m fuel : Nat} {S : Layout}
    (h : Chained t n S) (hm : primes[t.numBuckets + 1]? = some m) (hpos : 0 < m)
    (hfuel : S.order.length < fuel) :
    ∃ t', hashtableDoRehash true fuel t = some (0, t') ∧
      Chained t' m (S.order.foldl (fun S a => S.place ((t.pair a).hash % m) a) []) ∧
      Relinked { t with numBuckets := t.numBuckets + 1 } t' := by
  obtain ⟨t₁, hinit, hmoving, hrel, hfirst⟩ :=
    moving_init (u := t.rebucketed m) h.ring h.live rfl rfl rfl
  obtain ⟨t', hloop, hchained', hrel'⟩ := rehashLoop_spec hpos hmoving hfuel hfirst
  refine ⟨t', ?_, ?_, ?_⟩
  · rw [hashtableDoRehash_eq hm, hinit, Option.bind_some, hloop]
    rfl
  · have hhash : ∀ a, (t₁.pair a).hash = (t.pair a).hash := hrel.hash
    simpa [hhash] using hchained'
  · have hbuckets : Relinked { t with numBuckets := t.numBuckets + 1 } (t.rebucketed m) :=
      Relinked.setBuckets { t with numBuckets := t.numBuckets + 1 } _
    exact (hbuckets.trans hrel).trans hrel'

/-! ## Clearing -/

/-- The calls that release a key and a value, newest first. -/
def freeCalls (callbacks : Callbacks) (key value : Ptr) : List FreeCall :=
  (if callbacks.freeValue then [.value value] else []) ++
    if callbacks.freeKey then [.key key] else []

theorem callFree_eq (t : NcHashtable) (key value : Ptr) :
    (t.callFreeKey key).callFreeValue value =
      { t with freed := freeCalls t.callbacks key value ++ t.freed } := by
  simp only [NcHashtable.callFreeKey, NcHashtable.callFreeValue, freeCalls]
  split <;> simp_all <;> split <;> simp_all

theorem clearLoop_spec {rest : List Nat} {fuel : Nat} {t : NcHashtable} {list : ListPtr}
    (hfuel : rest.length < fuel) (hlist : (walk rest).head? = some list)
    (hchain : (walk rest).IsChain fun l m => t.next l = m)
    (hlive : ∀ a ∈ rest, t.live a = true) (hnodup : rest.Nodup) :
    clearLoop fuel t list = some { t with
      live := fun a => if a ∈ rest then false else t.live a
      freed := rest.reverse.flatMap (fun a =>
        freeCalls t.callbacks (t.pair a).key (t.pair a).value) ++ t.freed } := by
  induction rest generalizing fuel t list with
  | nil =>
      obtain ⟨fuel, rfl⟩ := Nat.exists_eq_succ_of_ne_zero (Nat.ne_of_gt hfuel)
      obtain rfl : ListPtr.head = list := by simpa using hlist
      simp [clearLoop]
  | cons a rest ih =>
      obtain ⟨fuel, rfl⟩ := Nat.exists_eq_succ_of_ne_zero (Nat.ne_of_gt (Nat.zero_lt_of_lt hfuel))
      obtain rfl : ListPtr.pair a = list := by simpa using hlist
      obtain ⟨m, tail, htail⟩ := walk_eq_cons rest
      rw [walk_cons, htail, List.isChain_cons_cons] at hchain
      have hlivea := hlive a (by simp)
      have hlink := getLink_of_valid (t := t) (l := .pair a) hlivea
      obtain ⟨ha, hrest⟩ := List.nodup_cons.mp hnodup
      simp only [clearLoop, if_neg (show ListPtr.pair a ≠ .head by simp), hlink, listToPair,
        getPair_of_live hlivea, Option.bind_eq_bind, Option.bind_some, callFree_eq,
        NcHashtable.freePair, if_pos hlivea]
      rw [show (t.linkAt (.pair a)).next = m from hchain.1,
        ih (by simpa using hfuel) (by rw [htail]; rfl) (by rw [htail]; exact hchain.2) ?_ hrest]
      · simp only [List.reverse_cons, List.flatMap_append, List.flatMap_cons, List.flatMap_nil,
          List.append_nil, List.append_assoc, Option.some.injEq, NcHashtable.mk.injEq, true_and,
          and_true]
        funext b
        by_cases hb : b = a <;> simp [hb]
      · intro b hb
        have hba : b ≠ a := fun h => ha (h ▸ hb)
        simpa [hba] using hlive b (by simp [hb])

end Libnc.Hashtable
