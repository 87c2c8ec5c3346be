import Libnc.Hashtable.Session

/-!
# The rehash loop

The loop of `hashtable_do_rehash` once more, with the nodes that it has visited
and a check at every write to a link: an insertion writes to the head, to the node
that is moved and to nodes that have been moved before it.
-/

namespace Libnc.Hashtable

open Libnc.Foundation

/-! ## Guarded insertion -/

section Guarded

variable (scope : List ListPtr)

def NcHashtable.setNextIn (t : NcHashtable) (l next : ListPtr) : Option NcHashtable :=
  if l ∈ scope then t.setNext l next else none

def NcHashtable.setPrevIn (t : NcHashtable) (l prev : ListPtr) : Option NcHashtable :=
  if l ∈ scope then t.setPrev l prev else none

def listInsertIn (t : NcHashtable) (list node : ListPtr) : Option NcHashtable := do
  let t ← t.setNextIn scope node list
  let t ← t.setPrevIn scope node (← t.getLink list).prev
  let t ← t.setNextIn scope (← t.getLink list).prev node
  t.setPrevIn scope list node

def insertToBucketIn (t : NcHashtable) (index : Nat) (list : ListPtr) :
    Option NcHashtable := do
  let bucket ← t.bucket index
  if bucketIsEmpty bucket then
    let t ← listInsertIn scope t .head list
    t.setBucket index ⟨list, list⟩
  else
    let t ← listInsertIn scope t bucket.first list
    t.setBucket index { bucket with first := list }

end Guarded

/-- The loop at the node `list`; the result begins with the visited nodes, first one first. -/
def rehashLoopIn (newSize : Nat) :
    Nat → NcHashtable → List ListPtr → ListPtr → Option (List ListPtr × NcHashtable)
  | 0, _, _, _ => none
  | fuel + 1, t, visited, list =>
      if list = .head then some (visited, t)
      else do
        let next := (← t.getLink list).next
        let a ← listToPair list
        let pair ← t.getPair a
        let t ← insertToBucketIn (.head :: (visited ++ [list])) t (pair.hash % newSize) list
        rehashLoopIn newSize fuel t (visited ++ [list]) next

variable {scope visited : List ListPtr} {t t' : NcHashtable} {n i x fuel : Nat} {S : Layout}
variable {rest cells : List Nat} {list node : ListPtr}

/-! ## The checks succeed -/

theorem listInsertIn_eq (hlist : t.valid list) (hnode : t.valid node) (hne : list ≠ node)
    (hl : list ∈ scope) (hn : node ∈ scope) (hp : t.prev list ∈ scope) :
    listInsertIn scope t list node = listInsert t list node := by
  simp only [listInsertIn, listInsert, NcHashtable.setNextIn, NcHashtable.setPrevIn, if_pos hl,
    if_pos hn, setNext_of_valid hnode, Option.bind_eq_bind, Option.bind_some]
  rw [getLink_of_valid (by simpa using hlist)]
  simp only [Option.bind_some]
  rw [setPrev_of_valid (by simpa using hnode)]
  simp only [Option.bind_some]
  rw [getLink_of_valid (by simpa using hlist)]
  simp only [Option.bind_some, NcHashtable.linkAt_putLink, if_neg hne]
  rw [if_pos (show (t.linkAt list).prev ∈ scope from hp)]

theorem insertToBucketIn_eq (h : Chained t n S) (hi : i < n) (hx : t.live x = true)
    (hnot : x ∉ S.order) (hscope : ∀ l ∈ .head :: S.order.map ListPtr.pair, l ∈ scope)
    (hxs : .pair x ∈ scope) :
    insertToBucketIn scope t i (.pair x) = insertToBucket t i (.pair x) := by
  have hinsert : ∀ y ∈ .head :: S.order.map ListPtr.pair,
      listInsertIn scope t y (.pair x) = listInsert t y (.pair x) := fun y hy => by
    have hne : y ≠ .pair x := by
      rintro rfl
      simp [hnot] at hy
    exact listInsertIn_eq (h.valid_of_mem hy) hx hne (hscope y hy) hxs
      (hscope _ (h.ring.prev_mem hy))
  simp only [insertToBucketIn, insertToBucket, h.bucket_eq hi, Option.bind_eq_bind,
    Option.bind_some, bucketIsEmpty_bucketEnds]
  cases hseg : S.segment i with
  | nil =>
      rw [List.isEmpty_nil, if_pos rfl, if_pos rfl, hinsert .head (by simp)]
  | cons a seg =>
      have ha : a ∈ S.order := Segmented.mem_order_of_mem_segment (i := i) (by simp [hseg])
      rw [List.isEmpty_cons, if_neg Bool.false_ne_true, if_neg Bool.false_ne_true,
        hinsert (bucketEnds (a :: seg)).first (by simp [bucketEnds, ha])]

/-- With the checks the loop does the same, and visits the nodes of the walk in order. -/
theorem rehashLoopIn_eq (hn : 0 < n) (h : Moving t n S rest)
    (hvisited : ∀ a ∈ S.order, .pair a ∈ visited) (hlist : (walk rest).head? = some list) :
    rehashLoopIn n fuel t visited list =
      (rehashLoop n fuel t list).map fun t' => (visited ++ rest.map .pair, t') := by
  induction rest generalizing fuel t S visited list with
  | nil =>
      obtain rfl : ListPtr.head = list := by simpa using hlist
      cases fuel with
      | zero => rfl
      | succ fuel => simp [rehashLoopIn, rehashLoop]
  | cons a rest ih =>
      obtain rfl : ListPtr.pair a = list := by simpa using hlist
      cases fuel with
      | zero => rfl
      | succ fuel =>
          have hlive := h.live a (by simp)
          obtain ⟨t₁, hins, hmoving, -, hnext⟩ := h.round hn
          have hscope : ∀ l ∈ .head :: S.order.map ListPtr.pair,
              l ∈ .head :: (visited ++ [.pair a]) := fun l hl => by
            rcases List.mem_cons.mp hl with rfl | hl
            · simp
            · obtain ⟨b, hb, rfl⟩ := List.mem_map.mp hl
              simp [hvisited b hb]
          have hguarded : insertToBucketIn (.head :: (visited ++ [.pair a])) t
              ((t.pair a).hash % n) (.pair a) = some t₁ := by
            rw [insertToBucketIn_eq h.chained (Nat.mod_lt _ hn) hlive h.not_mem hscope (by simp)]
            exact hins
          have hvisited' : ∀ b ∈ (S.place ((t.pair a).hash % n) a).order,
              .pair b ∈ visited ++ [.pair a] := fun b hb => by
            rcases List.mem_cons.mp ((Segmented.order_place_perm S _ a).mem_iff.mp hb) with
              rfl | hb
            · simp
            · simp [hvisited b hb]
          have hlink := getLink_of_valid (t := t) (l := .pair a) hlive
          rw [rehashLoop_cons hlive hins]
          simp only [rehashLoopIn, if_neg (show ListPtr.pair a ≠ .head by simp), hlink,
            listToPair, getPair_of_live hlive, Option.bind_eq_bind, Option.bind_some, hguarded]
          rw [ih hmoving hvisited' hnext, List.map_cons, List.append_assoc]
          rfl

theorem rehashLoop_mono {more : Nat} (hle : fuel ≤ more)
    (h : rehashLoop n fuel t list = some t') : rehashLoop n more t list = some t' := by
  induction fuel generalizing more t list with
  | zero => simp [rehashLoop] at h
  | succ fuel ih =>
      obtain ⟨more, rfl⟩ := Nat.exists_eq_add_of_le' (Nat.zero_lt_of_lt hle)
      rw [rehashLoop] at h ⊢
      split
      · rename_i hhead
        rwa [if_pos hhead] at h
      · rename_i hhead
        rw [if_neg hhead] at h
        obtain ⟨links, hlinks, h⟩ := Option.bind_eq_some_iff.mp h
        obtain ⟨a, ha, h⟩ := Option.bind_eq_some_iff.mp h
        obtain ⟨pair, hpair, h⟩ := Option.bind_eq_some_iff.mp h
        obtain ⟨u, hins, h⟩ := Option.bind_eq_some_iff.mp h
        simp only [hlinks, ha, hpair, hins, Option.bind_eq_bind, Option.bind_some]
        exact ih (Nat.le_of_succ_le_succ hle) h

theorem rehashLoopIn_length {after : List ListPtr}
    (h : rehashLoopIn n fuel t visited list = some (after, t')) :
    after.length < visited.length + fuel := by
  induction fuel generalizing t visited list with
  | zero => simp [rehashLoopIn] at h
  | succ fuel ih =>
      rw [rehashLoopIn] at h
      split at h
      · simp only [Option.some.injEq, Prod.mk.injEq] at h
        rw [← h.1]
        omega
      · obtain ⟨links, -, h⟩ := Option.bind_eq_some_iff.mp h
        obtain ⟨a, -, h⟩ := Option.bind_eq_some_iff.mp h
        obtain ⟨pair, -, h⟩ := Option.bind_eq_some_iff.mp h
        obtain ⟨u, -, h⟩ := Option.bind_eq_some_iff.mp h
        have hlen := ih h
        rw [List.length_append, List.length_singleton] at hlen
        omega

/-! ## The whole loop -/

/--
For a list of any length and any number of new buckets: the guarded loop visits
the old pairs once each, in their old order, and stops at the head after as many
rounds as there are pairs.  It leaves a ring of the same pairs.
-/
theorem hashtableDoRehash_visits_once {newSize : Nat} (hpos : 0 < newSize)
    (hring : Ring t.next t.prev .head (cells.map .pair))
    (hlive : ∀ a ∈ cells, t.live a = true) :
    ∃ (t₀ t' : NcHashtable) (order : List Nat),
      listInit (t.rebucketed newSize) .head = some t₀ ∧
      (∀ fuel, cells.length < fuel →
        rehashLoopIn newSize fuel t₀ [] t.list.next = some (cells.map .pair, t') ∧
        rehashLoop newSize fuel t₀ t.list.next = some t' ∧
        (primes[t.numBuckets + 1]? = some newSize →
          hashtableDoRehash true fuel t = some (0, t'))) ∧
      (∀ fuel, fuel ≤ cells.length → rehashLoop newSize fuel t₀ t.list.next = none) ∧
      Ring t'.next t'.prev .head (order.map .pair) ∧ order.Perm cells ∧
      ∀ a, t'.live a = t.live a ∧ (t'.pair a).key = (t.pair a).key ∧
        (t'.pair a).value = (t.pair a).value ∧ (t'.pair a).hash = (t.pair a).hash := by
  obtain ⟨t₀, hinit, hmoving, hrel₀, hlist⟩ :=
    moving_init (u := t.rebucketed newSize) hring hlive rfl rfl rfl
  obtain ⟨t', hloop, hchained, hrel⟩ :=
    rehashLoop_spec hpos hmoving (Nat.lt_succ_self cells.length) hlist
  have hperm := Segmented.order_foldl_place_perm (fun a => (t₀.pair a).hash % newSize) cells []
  rw [Segmented.order_nil, List.append_nil] at hperm
  have hguarded : ∀ fuel, rehashLoopIn newSize fuel t₀ [] t.list.next =
      (rehashLoop newSize fuel t₀ t.list.next).map fun t' => (cells.map .pair, t') :=
    fun fuel => rehashLoopIn_eq hpos hmoving (by simp) hlist
  refine ⟨t₀, t', _, hinit, fun fuel hfuel => ?_, fun fuel hfuel => ?_, hchained.ring, hperm,
    fun a => ?_⟩
  · have hrun := rehashLoop_mono hfuel hloop
    refine ⟨by rw [hguarded, hrun]; rfl, hrun, fun hprime => ?_⟩
    rw [hashtableDoRehash_eq hprime, hinit, Option.bind_some, hrun]
    rfl
  · cases hrun : rehashLoop newSize fuel t₀ t.list.next with
    | none => rfl
    | some u =>
        have hlen := rehashLoopIn_length ((hguarded fuel).trans (by rw [hrun]; rfl))
        simp only [List.length_map, List.length_nil] at hlen
        omega
  · have hrel' := hrel₀.trans hrel
    exact ⟨congrFun hrel'.live a, hrel'.key a, hrel'.value a, hrel'.hash a⟩

/-- Three pairs, two of them in one bucket. -/
def threePairs : NcHashtable :=
  ((run (step 4) ⟨addressTable, []⟩
    [.set ⟨true, some 1⟩ 7 70, .set ⟨true, some 2⟩ 12 120, .set ⟨true, some 3⟩ 1 10]).get
    (by decide)).table

theorem hashtableDoRehash_visits_once_three :
    ∃ (t₀ t' : NcHashtable) (order : List Nat),
      listInit (threePairs.rebucketed 13) .head = some t₀ ∧
      (∀ fuel, [2, 1, 3].length < fuel →
        rehashLoopIn 13 fuel t₀ [] threePairs.list.next =
          some ([2, 1, 3].map .pair, t') ∧
        rehashLoop 13 fuel t₀ threePairs.list.next = some t' ∧
        (primes[threePairs.numBuckets + 1]? = some 13 →
          hashtableDoRehash true fuel threePairs = some (0, t'))) ∧
      (∀ fuel, fuel ≤ [2, 1, 3].length →
        rehashLoop 13 fuel t₀ threePairs.list.next = none) ∧
      Ring t'.next t'.prev .head (order.map .pair) ∧ order.Perm [2, 1, 3] ∧
      ∀ a, t'.live a = threePairs.live a ∧ (t'.pair a).key = (threePairs.pair a).key ∧
        (t'.pair a).value = (threePairs.pair a).value ∧
        (t'.pair a).hash = (threePairs.pair a).hash := by
  have hring : Ring threePairs.next threePairs.prev .head ([2, 1, 3].map .pair) := by
    refine ⟨?_, by decide⟩
    unfold Adjacent
    decide
  exact hashtableDoRehash_visits_once (by decide) hring (by decide)

end Libnc.Hashtable
