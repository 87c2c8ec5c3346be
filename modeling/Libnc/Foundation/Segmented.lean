import Mathlib.Data.List.Nodup
import Mathlib.Data.List.Perm.Basic

/-!
# Lists divided into contiguous labelled segments

A segmented list is a list of labelled nonempty segments with distinct labels;
its order is their concatenation.  A new element goes to the front of the
segment of its label, or becomes a new last segment.  Several collections can
so share one sequence, each owning a contiguous part of it.
-/

namespace Libnc.Foundation

/-- Labelled segments, in their order in the shared sequence. -/
abbrev Segmented (ι α : Type*) := List (ι × List α)

namespace Segmented

variable {ι α : Type*}

/-- The shared sequence. -/
def order (S : Segmented ι α) : List α := S.flatMap Prod.snd

def labels (S : Segmented ι α) : List ι := S.map Prod.fst

structure WellFormed (S : Segmented ι α) : Prop where
  labels_nodup : S.labels.Nodup
  nonempty : ∀ p ∈ S, p.2 ≠ []

@[simp] theorem order_nil : order ([] : Segmented ι α) = [] := rfl

@[simp] theorem order_cons (p : ι × List α) (S : Segmented ι α) :
    order (p :: S) = p.2 ++ order S := rfl

@[simp] theorem order_append (S T : Segmented ι α) :
    order (S ++ T) = order S ++ order T := by
  simp [order]

@[simp] theorem labels_nil : labels ([] : Segmented ι α) = [] := rfl

@[simp] theorem labels_cons (p : ι × List α) (S : Segmented ι α) :
    labels (p :: S) = p.1 :: labels S := rfl

@[simp] theorem labels_append (S T : Segmented ι α) :
    labels (S ++ T) = labels S ++ labels T := by
  simp [labels]

theorem wellFormed_nil : WellFormed ([] : Segmented ι α) :=
  ⟨by simp, by simp⟩

variable [DecidableEq ι]

/-- The segment of a label; empty if there is none. -/
def segment : Segmented ι α → ι → List α
  | [], _ => []
  | (j, seg) :: S, i => if j = i then seg else segment S i

/-- Put an element in front of the segment of its label. -/
def place (i : ι) (x : α) : Segmented ι α → Segmented ι α
  | [] => [(i, [x])]
  | (j, seg) :: S => if j = i then (j, x :: seg) :: S else (j, seg) :: place i x S

/-! ## Segments -/

theorem segment_eq_nil_of_not_mem {S : Segmented ι α} {i : ι} (h : i ∉ labels S) :
    segment S i = [] := by
  induction S with
  | nil => rfl
  | cons p S ih =>
      simp only [labels_cons, List.mem_cons, not_or] at h
      unfold segment
      rw [if_neg (Ne.symm h.1), ih h.2]

theorem segment_append_of_not_mem {S T : Segmented ι α} {i : ι} (h : i ∉ labels S) :
    segment (S ++ T) i = segment T i := by
  induction S with
  | nil => rfl
  | cons p S ih =>
      simp only [labels_cons, List.mem_cons, not_or] at h
      rw [List.cons_append, segment, if_neg (Ne.symm h.1), ih h.2]

theorem split_of_mem {S : Segmented ι α} {i : ι} (h : i ∈ labels S) :
    ∃ S₁ S₂, S = S₁ ++ (i, segment S i) :: S₂ ∧ i ∉ labels S₁ := by
  induction S with
  | nil => simp at h
  | cons p S ih =>
      by_cases hp : p.1 = i
      · subst hp
        exact ⟨[], S, by simp [segment], by simp⟩
      · have hmem : i ∈ labels S := by
          simpa [Ne.symm hp] using h
        obtain ⟨S₁, S₂, hS, hnot⟩ := ih hmem
        refine ⟨p :: S₁, S₂, ?_, by simp [Ne.symm hp, hnot]⟩
        unfold segment
        rw [if_neg hp, List.cons_append, ← hS]

theorem mem_labels_of_mem_segment {S : Segmented ι α} {i : ι} {x : α}
    (h : x ∈ segment S i) : i ∈ labels S := by
  by_contra hnot
  simp [segment_eq_nil_of_not_mem hnot] at h

theorem exists_order_eq {S : Segmented ι α} {i : ι} (h : i ∈ labels S) :
    ∃ before after, order S = before ++ segment S i ++ after := by
  obtain ⟨S₁, S₂, hS, -⟩ := split_of_mem h
  refine ⟨order S₁, order S₂, ?_⟩
  conv_lhs => rw [hS]
  simp

theorem mem_order_of_mem_segment {S : Segmented ι α} {i : ι} {x : α}
    (h : x ∈ segment S i) : x ∈ order S := by
  obtain ⟨before, after, horder⟩ := exists_order_eq (mem_labels_of_mem_segment h)
  rw [horder]
  simp [h]

theorem segment_eq_of_mem {S : Segmented ι α} (hwf : S.WellFormed) {p : ι × List α}
    (h : p ∈ S) : segment S p.1 = p.2 := by
  obtain ⟨S₁, S₂, rfl⟩ := List.append_of_mem h
  have hnot : p.1 ∉ labels S₁ := by
    have := hwf.labels_nodup
    simp only [labels_append, labels_cons, List.nodup_append] at this
    exact fun hmem => this.2.2 _ hmem _ (by simp) rfl
  rw [segment_append_of_not_mem hnot, segment, if_pos rfl]

theorem exists_mem_segment {S : Segmented ι α} (hwf : S.WellFormed) {x : α}
    (h : x ∈ order S) : ∃ i, x ∈ segment S i := by
  obtain ⟨p, hp, hx⟩ := List.mem_flatMap.mp h
  exact ⟨p.1, by rwa [segment_eq_of_mem hwf hp]⟩

theorem segment_ne_nil_iff {S : Segmented ι α} (hwf : S.WellFormed) {i : ι} :
    segment S i ≠ [] ↔ i ∈ labels S := by
  refine ⟨fun h => by_contra fun hnot => h (segment_eq_nil_of_not_mem hnot), fun h => ?_⟩
  obtain ⟨p, hp, rfl⟩ := List.mem_map.mp h
  rw [segment_eq_of_mem hwf hp]
  exact hwf.nonempty p hp

/-! ## Placing an element -/

theorem place_of_not_mem {S : Segmented ι α} {i : ι} (h : i ∉ labels S) (x : α) :
    place i x S = S ++ [(i, [x])] := by
  induction S with
  | nil => rfl
  | cons p S ih =>
      simp only [labels_cons, List.mem_cons, not_or] at h
      unfold place
      rw [if_neg (Ne.symm h.1), ih h.2, List.cons_append]

theorem place_split {S₁ S₂ : Segmented ι α} {i : ι} {seg : List α} (h : i ∉ labels S₁)
    (x : α) : place i x (S₁ ++ (i, seg) :: S₂) = S₁ ++ (i, x :: seg) :: S₂ := by
  induction S₁ with
  | nil => simp [place]
  | cons p S₁ ih =>
      simp only [labels_cons, List.mem_cons, not_or] at h
      rw [List.cons_append, place, if_neg (Ne.symm h.1), ih h.2, List.cons_append]

theorem segment_place (S : Segmented ι α) (i j : ι) (x : α) :
    segment (place i x S) j = if j = i then x :: segment S i else segment S j := by
  induction S with
  | nil =>
      by_cases h : j = i
      · simp [place, segment, h]
      · simp [place, segment, h, Ne.symm h]
  | cons p S ih =>
      by_cases hp : p.1 = i
      · subst hp
        by_cases h : j = p.1
        · simp [place, segment, h]
        · simp [place, segment, h, Ne.symm h]
      · by_cases h : p.1 = j
        · subst h
          simp [place, segment, hp]
        · simp [place, segment, hp, h, ih]

theorem order_place_perm (S : Segmented ι α) (i : ι) (x : α) :
    (order (place i x S)).Perm (x :: order S) := by
  induction S with
  | nil => simp [place]
  | cons p S ih =>
      by_cases hp : p.1 = i
      · simp [place, hp]
      · simp only [place, if_neg hp, order_cons]
        exact (ih.append_left p.2).trans List.perm_middle

theorem labels_place (S : Segmented ι α) (i : ι) (x : α) :
    labels (place i x S) = if i ∈ labels S then labels S else labels S ++ [i] := by
  by_cases h : i ∈ labels S
  · obtain ⟨S₁, S₂, hS, hnot⟩ := split_of_mem h
    rw [if_pos h]
    conv_lhs => rw [hS]
    rw [place_split hnot]
    conv_rhs => rw [hS]
    simp
  · rw [if_neg h, place_of_not_mem h]
    simp

theorem WellFormed.place {S : Segmented ι α} (h : S.WellFormed) (i : ι) (x : α) :
    (S.place i x).WellFormed := by
  constructor
  · rw [labels_place]
    split
    · exact h.labels_nodup
    · rename_i hnot
      exact List.nodup_append.mpr ⟨h.labels_nodup, by simp, fun a ha b hb hab =>
        hnot (by rw [List.mem_singleton] at hb; rw [← hb, ← hab]; exact ha)⟩
  · intro p hp
    by_cases hi : i ∈ labels S
    · obtain ⟨S₁, S₂, hS, hnot⟩ := split_of_mem hi
      rw [hS, place_split hnot] at hp
      rcases List.mem_append.mp hp with hp | hp
      · exact h.nonempty p (by rw [hS]; simp [hp])
      · rcases List.mem_cons.mp hp with rfl | hp
        · simp
        · exact h.nonempty p (by rw [hS]; simp [hp])
    · rw [place_of_not_mem hi] at hp
      rcases List.mem_append.mp hp with hp | hp
      · exact h.nonempty p hp
      · rw [List.mem_singleton] at hp
        simp [hp]

/-- Placing one element after the other, each in the segment that `f` gives for it. -/
theorem order_foldl_place_perm (f : α → ι) (xs : List α) (S : Segmented ι α) :
    (xs.foldl (fun S x => S.place (f x) x) S).order.Perm (xs ++ S.order) := by
  induction xs generalizing S with
  | nil => exact .refl _
  | cons x xs ih =>
      apply (ih (S.place (f x) x)).trans
      exact ((order_place_perm S (f x) x).append_left xs).trans List.perm_middle

theorem segment_foldl_place (f : α → ι) (xs : List α) {S : Segmented ι α}
    (hS : ∀ i, ∀ x ∈ S.segment i, f x = i) :
    ∀ i, ∀ x ∈ (xs.foldl (fun S x => S.place (f x) x) S).segment i, f x = i := by
  induction xs generalizing S with
  | nil => exact hS
  | cons x xs ih =>
      apply ih
      intro i y hy
      rw [segment_place] at hy
      split at hy
      · rename_i hi
        rcases List.mem_cons.mp hy with rfl | hy
        · exact hi.symm
        · exact (hS _ y hy).trans hi.symm
      · exact hS i y hy

/-! ## Removing an element -/

/-- Drop the element `x` from the segment of `i`, and the segment if it becomes empty. -/
def remove [DecidableEq α] (i : ι) (x : α) : Segmented ι α → Segmented ι α
  | [] => []
  | (j, seg) :: S =>
      if j = i then
        if seg.erase x = [] then S else (j, seg.erase x) :: S
      else (j, seg) :: remove i x S

variable [DecidableEq α]

theorem remove_split {S₁ S₂ : Segmented ι α} {i : ι} {seg : List α} (h : i ∉ labels S₁)
    (x : α) :
    remove i x (S₁ ++ (i, seg) :: S₂) =
      S₁ ++ if seg.erase x = [] then S₂ else (i, seg.erase x) :: S₂ := by
  induction S₁ with
  | nil => simp [remove]
  | cons p S₁ ih =>
      simp only [labels_cons, List.mem_cons, not_or] at h
      rw [List.cons_append, remove, if_neg (Ne.symm h.1), ih h.2, List.cons_append]

/-- Removing one element cuts it out of the order. -/
theorem order_remove {S : Segmented ι α} {i : ι} {x : α} {seg₁ seg₂ : List α}
    (hseg : segment S i = seg₁ ++ x :: seg₂) (hx : x ∉ seg₁) :
    ∃ before after, order S = before ++ (seg₁ ++ x :: seg₂) ++ after ∧
      order (remove i x S) = before ++ (seg₁ ++ seg₂) ++ after := by
  have hmem : i ∈ labels S := mem_labels_of_mem_segment (x := x) (by simp [hseg])
  obtain ⟨S₁, S₂, hS, hnot⟩ := split_of_mem hmem
  have herase : (segment S i).erase x = seg₁ ++ seg₂ := by
    rw [hseg, List.erase_append_right _ hx, List.erase_cons_head]
  refine ⟨order S₁, order S₂, ?_, ?_⟩
  · conv_lhs => rw [hS]
    simp [hseg]
  · conv_lhs => rw [hS]
    rw [remove_split hnot, herase]
    split
    · rename_i hnil
      simp [hnil]
    · simp

theorem segment_remove {S : Segmented ι α} (hwf : S.WellFormed) (i j : ι) (x : α) :
    segment (remove i x S) j = if j = i then (segment S i).erase x else segment S j := by
  by_cases hmem : i ∈ labels S
  · obtain ⟨S₁, S₂, hS, hnot⟩ := split_of_mem hmem
    have hnot₂ : i ∉ labels S₂ := by
      have := hwf.labels_nodup
      rw [hS] at this
      simp only [labels_append, labels_cons, List.nodup_append, List.nodup_cons] at this
      exact this.2.1.1
    generalize hseg : segment S i = seg at *
    rw [hS, remove_split hnot]
    by_cases hj : j = i
    · subst hj
      rw [if_pos rfl, segment_append_of_not_mem hnot]
      split
      · rename_i hnil
        rw [segment_eq_nil_of_not_mem hnot₂, hnil]
      · rw [segment, if_pos rfl]
    · rw [if_neg hj]
      by_cases hj₁ : j ∈ labels S₁
      · obtain ⟨T₁, T₂, hT, hnotT⟩ := split_of_mem hj₁
        rw [hT, List.append_assoc, List.append_assoc, segment_append_of_not_mem hnotT,
          segment_append_of_not_mem hnotT, List.cons_append, List.cons_append, segment, segment,
          if_pos rfl, if_pos rfl]
      · rw [segment_append_of_not_mem hj₁, segment_append_of_not_mem hj₁]
        split
        · rw [segment, if_neg (Ne.symm hj)]
        · rw [segment, segment, if_neg (Ne.symm hj), if_neg (Ne.symm hj)]
  · have hsame : remove i x S = S := by
      clear hwf
      induction S with
      | nil => rfl
      | cons p S ih =>
          simp only [labels_cons, List.mem_cons, not_or] at hmem
          rw [remove, if_neg (Ne.symm hmem.1), ih hmem.2]
    rw [hsame]
    split
    · rename_i hj
      rw [hj, segment_eq_nil_of_not_mem hmem, List.erase_nil]
    · rfl

theorem remove_subperm_labels (S : Segmented ι α) (i : ι) (x : α) :
    (labels (remove i x S)).Sublist (labels S) := by
  induction S with
  | nil => simp [remove]
  | cons p S ih =>
      by_cases hp : p.1 = i
      · simp only [remove, if_pos hp]
        split
        · exact List.sublist_cons_self _ _
        · exact List.Sublist.refl _
      · simp only [remove, if_neg hp, labels_cons]
        exact ih.cons_cons _

theorem WellFormed.remove {S : Segmented ι α} (h : S.WellFormed) (i : ι) (x : α) :
    (S.remove i x).WellFormed := by
  refine ⟨h.labels_nodup.sublist (remove_subperm_labels S i x), fun p hp => ?_⟩
  have hnonempty := h.nonempty
  clear h
  induction S with
  | nil => simp [Segmented.remove] at hp
  | cons q S ih =>
      by_cases hq : q.1 = i
      · simp only [Segmented.remove, if_pos hq] at hp
        split at hp
        · exact hnonempty p (by simp [hp])
        · rename_i hne
          rcases List.mem_cons.mp hp with rfl | hp
          · exact hne
          · exact hnonempty p (by simp [hp])
      · simp only [Segmented.remove, if_neg hq] at hp
        rcases List.mem_cons.mp hp with hp | hp
        · exact hnonempty p (by simp [hp])
        · exact ih hp fun r hr => hnonempty r (by simp [hr])

end Segmented

end Libnc.Foundation
