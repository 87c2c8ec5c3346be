import Libnc.Hashtable.Operations

/-!
# Traversal

The loop that every caller writes: from `nc_hashtable_iter` with
`nc_hashtable_iter_next` until NULL.
-/

namespace Libnc.Hashtable

open Libnc.Foundation

/-- The iterators that a loop visits from the iterator it holds. -/
def traverseFrom (t : NcHashtable) : Nat → Option ListPtr → Option (List ListPtr)
  | 0, _ => none
  | _ + 1, none => some []
  | fuel + 1, some iter => do
      let next ← ncHashtableIterNext t iter
      let rest ← traverseFrom t fuel next
      some (iter :: rest)

def traverse (fuel : Nat) (t : NcHashtable) : Option (List ListPtr) := do
  traverseFrom t fuel (← ncHashtableIter t)

def entry (t : NcHashtable) (iter : ListPtr) : Option (Ptr × Ptr) := do
  some (← ncHashtableIterKey t iter, ← ncHashtableIterValue t iter)

/-- Keys and values in the order of the traversal. -/
def entries (fuel : Nat) (t : NcHashtable) : Option (List (Ptr × Ptr)) := do
  (← traverse fuel t).mapM (entry t)

variable {callbacks : Callbacks} {t : NcHashtable} {n : Nat} {S : Layout}

theorem ncHashtableIterNext_spec {l : ListPtr} {rest : List Nat} (hvalid : t.valid l = true)
    (hnext : (walk rest).head? = some (t.next l)) :
    ncHashtableIterNext t l = some (rest.head?.map .pair) := by
  have hlink : (t.linkAt l).next = t.next l := rfl
  cases rest with
  | nil =>
      have hhead : ListPtr.head = t.next l := by simpa using hnext
      simp [ncHashtableIterNext, getLink_of_valid hvalid, hlink, ← hhead]
  | cons a rest =>
      have hpair : ListPtr.pair a = t.next l := by simpa using hnext
      simp [ncHashtableIterNext, getLink_of_valid hvalid, hlink, ← hpair]

theorem traverseFrom_spec {rest : List Nat} {fuel : Nat} (hfuel : rest.length < fuel)
    (hlive : ∀ a ∈ rest, t.live a = true)
    (hchain : (walk rest).IsChain fun l m => t.next l = m) :
    traverseFrom t fuel (rest.head?.map .pair) = some (rest.map .pair) := by
  induction rest generalizing fuel with
  | nil =>
      obtain ⟨fuel, rfl⟩ := Nat.exists_eq_succ_of_ne_zero (Nat.ne_of_gt hfuel)
      rfl
  | cons a rest ih =>
      obtain ⟨fuel, rfl⟩ := Nat.exists_eq_succ_of_ne_zero (Nat.ne_of_gt (Nat.zero_lt_of_lt hfuel))
      obtain ⟨m, tail, htail⟩ := walk_eq_cons rest
      rw [walk_cons, htail, List.isChain_cons_cons] at hchain
      have hnext : ncHashtableIterNext t (.pair a) = some (rest.head?.map .pair) :=
        ncHashtableIterNext_spec (hlive a (by simp)) (by rw [htail, hchain.1]; rfl)
      have hrest := ih (by simpa using hfuel) (fun b hb => hlive b (by simp [hb]))
        (by rw [htail]; exact hchain.2)
      simp [traverseFrom, hnext, hrest]

theorem ncHashtableIter_spec (h : Rep callbacks t n S) :
    ncHashtableIter t = some (S.order.head?.map .pair) :=
  ncHashtableIterNext_spec rfl h.isChain_walk.2

theorem Rep.isChain_suffix (h : Rep callbacks t n S) {before rest : List Nat}
    (horder : S.order = before ++ rest) : (walk rest).IsChain fun l m => t.next l = m := by
  have hall := h.isChain_walk.1
  rw [horder, walk, List.map_append, List.append_assoc] at hall
  exact hall.right_of_append

theorem Rep.iterNext_eq (h : Rep callbacks t n S) {before after : List Nat} {a : Nat}
    (horder : S.order = before ++ a :: after) :
    ncHashtableIterNext t (.pair a) = some (after.head?.map .pair) := by
  have hchain := h.isChain_suffix horder
  obtain ⟨m, tail, htail⟩ := walk_eq_cons after
  rw [walk_cons, htail, List.isChain_cons_cons] at hchain
  refine ncHashtableIterNext_spec (h.live a ?_) (by rw [htail, hchain.1]; rfl)
  rw [horder]
  simp

theorem traverse_spec (h : Rep callbacks t n S) {fuel : Nat} (hfuel : S.order.length < fuel) :
    traverse fuel t = some (S.order.map .pair) := by
  unfold traverse
  rw [ncHashtableIter_spec h]
  exact traverseFrom_spec hfuel h.live h.isChain_walk.1

theorem entries_spec (h : Rep callbacks t n S) {fuel : Nat} (hfuel : S.order.length < fuel) :
    entries fuel t = some (S.order.filterMap t.view) := by
  unfold entries
  rw [traverse_spec h hfuel, Option.bind_eq_bind, Option.bind_some]
  have hall := h.live
  generalize S.order = cells at hall
  induction cells with
  | nil => rfl
  | cons a cells ih =>
      have hlive := hall a (by simp)
      have hview : t.view a = some ((t.pair a).key, (t.pair a).value) := if_pos hlive
      have hentry : entry t (.pair a) = t.view a := by
        simp [entry, ncHashtableIterKey, ncHashtableIterValue, listToPair, getPair_of_live hlive,
          hview]
      rw [List.map_cons, List.mapM_cons, hentry, hview, ih fun b hb => hall b (by simp [hb]),
        List.filterMap_cons_some hview]
      rfl

end Libnc.Hashtable
