import Libnc.Hashtable.Model
import Libnc.Foundation.Ring

/-!
# Heap lemmas for the hash table

How reads see writes, and what the three list primitives do to the link
functions.  `Relinked` says that a step changed at most the links and the
bucket array; it is the frame condition of everything that only moves pairs.
-/

namespace Libnc.Hashtable

open Libnc.Foundation

namespace NcHashtable

def next (t : NcHashtable) (l : ListPtr) : ListPtr := (t.linkAt l).next

def prev (t : NcHashtable) (l : ListPtr) : ListPtr := (t.linkAt l).prev

variable (t : NcHashtable) (l m : ListPtr) (links : HashtableList)

@[simp] theorem valid_head : t.valid .head = true := rfl

@[simp] theorem valid_pair (a : Nat) : t.valid (.pair a) = t.live a := rfl

@[simp] theorem linkAt_putLink :
    (t.putLink l links).linkAt m = if m = l then links else t.linkAt m := by
  cases l <;> cases m <;> simp [putLink, linkAt, Function.update_apply]
  split <;> rfl

@[simp] theorem live_putLink : (t.putLink l links).live = t.live := by
  cases l <;> rfl

@[simp] theorem valid_putLink : (t.putLink l links).valid m = t.valid m := by
  cases m <;> simp

@[simp] theorem buckets_putLink : (t.putLink l links).buckets = t.buckets := by
  cases l <;> rfl

@[simp] theorem next_setBuckets (buckets : Option (List HashtableBucket)) :
    { t with buckets := buckets }.next = t.next := rfl

@[simp] theorem prev_setBuckets (buckets : Option (List HashtableBucket)) :
    { t with buckets := buckets }.prev = t.prev := rfl

end NcHashtable

/-- At most links and bucket entries differ. -/
structure Relinked (t t' : NcHashtable) : Prop where
  size : t'.size = t.size
  numBuckets : t'.numBuckets = t.numBuckets
  callbacks : t'.callbacks = t.callbacks
  live : t'.live = t.live
  freed : t'.freed = t.freed
  key : ∀ a, (t'.pair a).key = (t.pair a).key
  value : ∀ a, (t'.pair a).value = (t.pair a).value
  hash : ∀ a, (t'.pair a).hash = (t.pair a).hash

namespace Relinked

variable {t t' t'' : NcHashtable}

theorem refl (t : NcHashtable) : Relinked t t :=
  ⟨rfl, rfl, rfl, rfl, rfl, fun _ => rfl, fun _ => rfl, fun _ => rfl⟩

theorem trans (h : Relinked t t') (h' : Relinked t' t'') : Relinked t t'' where
  size := h'.size.trans h.size
  numBuckets := h'.numBuckets.trans h.numBuckets
  callbacks := h'.callbacks.trans h.callbacks
  live := h'.live.trans h.live
  freed := h'.freed.trans h.freed
  key a := (h'.key a).trans (h.key a)
  value a := (h'.value a).trans (h.value a)
  hash a := (h'.hash a).trans (h.hash a)

theorem putLink (t : NcHashtable) (l : ListPtr) (links : HashtableList) :
    Relinked t (t.putLink l links) := by
  cases l with
  | head => exact ⟨rfl, rfl, rfl, rfl, rfl, fun _ => rfl, fun _ => rfl, fun _ => rfl⟩
  | pair a =>
      refine ⟨rfl, rfl, rfl, rfl, rfl, ?_, ?_, ?_⟩ <;> intro b <;>
        by_cases h : b = a <;> simp [NcHashtable.putLink, h]

theorem setBuckets (t : NcHashtable) (buckets : Option (List HashtableBucket)) :
    Relinked t { t with buckets := buckets } :=
  ⟨rfl, rfl, rfl, rfl, rfl, fun _ => rfl, fun _ => rfl, fun _ => rfl⟩

end Relinked

/-! ## List primitives -/

theorem setNext_of_valid {t : NcHashtable} {l : ListPtr} (h : t.valid l) (next : ListPtr) :
    t.setNext l next = some (t.putLink l { t.linkAt l with next := next }) :=
  if_pos h

theorem setPrev_of_valid {t : NcHashtable} {l : ListPtr} (h : t.valid l) (prev : ListPtr) :
    t.setPrev l prev = some (t.putLink l { t.linkAt l with prev := prev }) :=
  if_pos h

theorem getLink_of_valid {t : NcHashtable} {l : ListPtr} (h : t.valid l) :
    t.getLink l = some (t.linkAt l) :=
  if_pos h

theorem getPair_of_live {t : NcHashtable} {a : Nat} (h : t.live a = true) :
    t.getPair a = some (t.pair a) :=
  if_pos h

theorem listInit_head (t : NcHashtable) :
    ∃ t', listInit t .head = some t' ∧ Relinked t t' ∧ t'.buckets = t.buckets ∧
      t'.next .head = .head ∧ t'.prev .head = .head ∧
      ∀ a, t'.linkAt (.pair a) = t.linkAt (.pair a) := by
  refine ⟨_, by
      rw [listInit, setNext_of_valid (by simp), Option.bind_eq_bind, Option.bind_some,
        setPrev_of_valid (by simp)],
    (Relinked.putLink ..).trans (Relinked.putLink ..), by simp, ?_, ?_, ?_⟩ <;>
    simp [NcHashtable.next, NcHashtable.prev]

theorem listInsert_spec {t : NcHashtable} {list node : ListPtr} (hlist : t.valid list)
    (hnode : t.valid node) (hprev : t.valid (t.prev list)) (hne : list ≠ node)
    (hprevne : t.prev list ≠ node) :
    ∃ t', listInsert t list node = some t' ∧ Relinked t t' ∧ t'.buckets = t.buckets ∧
      (∀ a, t'.next a =
        if a = node then list else if a = t.prev list then node else t.next a) ∧
      (∀ a, t'.prev a =
        if a = list then node else if a = node then t.prev list else t.prev a) := by
  refine ⟨_, by
      simp only [listInsert, setNext_of_valid hnode, Option.bind_eq_bind, Option.bind_some]
      rw [getLink_of_valid (by simpa using hlist)]
      simp only [Option.bind_some]
      rw [setPrev_of_valid (by simpa using hnode)]
      simp only [Option.bind_some]
      rw [getLink_of_valid (by simpa using hlist)]
      simp only [Option.bind_some, NcHashtable.linkAt_putLink, if_neg hne]
      rw [setNext_of_valid (by simpa [NcHashtable.prev] using hprev)]
      simp only [Option.bind_some]
      rw [setPrev_of_valid (by simpa using hlist)],
    ((Relinked.putLink ..).trans (Relinked.putLink ..)).trans
      ((Relinked.putLink ..).trans (Relinked.putLink ..)), by simp, ?_, ?_⟩
  · intro a
    simp only [NcHashtable.next, NcHashtable.prev, NcHashtable.linkAt_putLink] at hprevne ⊢
    grind
  · intro a
    simp only [NcHashtable.prev, NcHashtable.linkAt_putLink] at hprevne ⊢
    grind

theorem listRemove_spec {t : NcHashtable} {list : ListPtr} (hlist : t.valid list)
    (hprev : t.valid (t.prev list)) (hnext : t.valid (t.next list))
    (hprevne : t.prev list ≠ list) :
    ∃ t', listRemove t list = some t' ∧ Relinked t t' ∧ t'.buckets = t.buckets ∧
      (∀ a, t'.next a = if a = t.prev list then t.next list else t.next a) ∧
      (∀ a, t'.prev a = if a = t.next list then t.prev list else t.prev a) := by
  refine ⟨_, by
      simp only [listRemove, getLink_of_valid hlist, Option.bind_eq_bind, Option.bind_some]
      rw [setNext_of_valid (by simpa [NcHashtable.prev] using hprev)]
      simp only [Option.bind_some]
      rw [getLink_of_valid (by simpa using hlist)]
      simp only [Option.bind_some, NcHashtable.linkAt_putLink,
        if_neg (show list ≠ (t.linkAt list).prev from Ne.symm hprevne)]
      rw [setPrev_of_valid (by simpa [NcHashtable.next] using hnext)],
    (Relinked.putLink ..).trans (Relinked.putLink ..), by simp, ?_, ?_⟩
  · intro a
    simp only [NcHashtable.next, NcHashtable.prev, NcHashtable.linkAt_putLink] at hprevne ⊢
    grind
  · intro a
    simp only [NcHashtable.next, NcHashtable.prev, NcHashtable.linkAt_putLink] at hprevne ⊢
    grind

end Libnc.Hashtable
