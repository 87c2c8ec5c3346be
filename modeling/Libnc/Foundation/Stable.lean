import Mathlib.Data.List.Sort

/-!
# Sequences in stable key order

A sequence that is sorted by key and keeps the order of arrival among equal
keys, with the insertion and the deletion that preserve this.
-/

namespace Libnc.Foundation

variable {α κ : Type*} [LinearOrder κ] {key : α → κ}

/-- Insert `x` after every leading element whose key is not greater. -/
def insertAfter (key : α → κ) (x : α) (xs : List α) : List α :=
  xs.orderedInsert (fun a b => key a < key b) x

theorem insertAfter_append {x : α} {ys zs : List α} (hys : ∀ y ∈ ys, key y ≤ key x)
    (hzs : ∀ z ∈ zs, key x < key z) : insertAfter key x (ys ++ zs) = ys ++ x :: zs := by
  induction ys with
  | nil =>
      cases zs with
      | nil => rfl
      | cons z zs => exact if_pos (hzs z (by simp))
  | cons y ys ih =>
      rw [List.forall_mem_cons] at hys
      rw [List.cons_append, insertAfter, List.orderedInsert_cons, if_neg hys.1.not_gt]
      exact congrArg (y :: ·) (ih hys.2)

/-- `seq` has the elements of `arrivals`, sorted by key, equal keys in the order of arrival. -/
structure StableSort (key : α → κ) (arrivals seq : List α) : Prop where
  perm : seq.Perm arrivals
  sorted : seq.Pairwise fun a b => key a ≤ key b
  stable : ∀ k, seq.filter (key · = k) = arrivals.filter (key · = k)

namespace StableSort

variable {arrivals seq : List α}

theorem nil : StableSort key [] [] := ⟨.nil, .nil, fun _ => rfl⟩

theorem exists_cut (h : StableSort key arrivals seq) (k : κ) :
    ∃ ys zs, seq = ys ++ zs ∧ (∀ y ∈ ys, key y ≤ k) ∧ ∀ z ∈ zs, k < key z := by
  have hsorted := h.sorted
  clear h
  induction seq with
  | nil => exact ⟨[], [], rfl, by simp, by simp⟩
  | cons a seq ih =>
      obtain ⟨ha, hrest⟩ := List.pairwise_cons.mp hsorted
      by_cases hk : key a ≤ k
      · obtain ⟨ys, zs, rfl, hys, hzs⟩ := ih hrest
        exact ⟨a :: ys, zs, rfl, List.forall_mem_cons.mpr ⟨hk, hys⟩, hzs⟩
      · rw [not_le] at hk
        exact ⟨[], a :: seq, rfl, by simp,
          List.forall_mem_cons.mpr ⟨hk, fun z hz => hk.trans_le (ha z hz)⟩⟩

theorem insert (h : StableSort key arrivals seq) (x : α) :
    StableSort key (arrivals ++ [x]) (insertAfter key x seq) := by
  obtain ⟨ys, zs, rfl, hys, hzs⟩ := h.exists_cut (key x)
  rw [insertAfter_append hys hzs]
  obtain ⟨hsys, hszs, hcross⟩ := List.pairwise_append.mp h.sorted
  refine ⟨?_, ?_, fun k => ?_⟩
  · refine List.perm_middle.trans ((h.perm.cons x).trans ?_)
    exact (List.perm_append_singleton x arrivals).symm
  · refine List.pairwise_append.mpr
      ⟨hsys, List.pairwise_cons.mpr ⟨fun z hz => (hzs z hz).le, hszs⟩, fun y hy z hz => ?_⟩
    rcases List.mem_cons.mp hz with rfl | hz
    · exact hys y hy
    · exact hcross y hy z hz
  · have hk := h.stable k
    rw [List.filter_append] at hk ⊢
    rw [List.filter_append, ← hk, List.filter_cons]
    by_cases hx : key x = k
    · -- behind `x` no element has its key
      have hzs' : zs.filter (key · = k) = [] := by
        rw [List.filter_eq_nil_iff]
        intro z hz
        simpa using (hx ▸ hzs z hz).ne'
      simp [hx, hzs']
    · simp [hx]

theorem filter (h : StableSort key arrivals seq) (p : α → Bool) :
    StableSort key (arrivals.filter p) (seq.filter p) := by
  refine ⟨h.perm.filter p, h.sorted.filter p, fun k => ?_⟩
  rw [List.filter_filter, List.filter_filter]
  have hk := congrArg (List.filter p) (h.stable k)
  rw [List.filter_filter, List.filter_filter] at hk
  simpa only [Bool.and_comm] using hk

/-- The first element has the smallest key and arrived first among those that have it. -/
theorem head {e : α} (h : StableSort key arrivals (e :: seq)) :
    (∀ a ∈ arrivals, key e ≤ key a) ∧ arrivals.find? (key · = key e) = some e := by
  constructor
  · intro a ha
    rcases List.mem_cons.mp (h.perm.mem_iff.mpr ha) with rfl | ha
    · exact le_rfl
    · exact (List.pairwise_cons.mp h.sorted).1 a ha
  · rw [← List.head?_filter, ← h.stable]
    simp

end StableSort

end Libnc.Foundation
