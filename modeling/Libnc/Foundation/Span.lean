import Mathlib.Data.List.Pairwise
import Mathlib.Data.List.Perm.Subperm
import Mathlib.Order.Basic

/-!
# Address ranges and bump regions

Ranges of addresses, and regions that are used up from below: what lies below
the top of a region is divided among ranges that do not overlap.
-/

namespace Libnc.Foundation

/-- The addresses from `start`, `size` many. -/
structure Span where
  start : Nat
  size : Nat
  deriving DecidableEq, Repr

namespace Span

def finish (s : Span) : Nat := s.start + s.size

/-- One range ends before the other starts. -/
def Apart (s t : Span) : Prop := s.finish ≤ t.start ∨ t.finish ≤ s.start

def Inside (s t : Span) : Prop := t.start ≤ s.start ∧ s.finish ≤ t.finish

instance (s t : Span) : Decidable (s.Apart t) := inferInstanceAs (Decidable (_ ∨ _))

instance (s t : Span) : Decidable (s.Inside t) := inferInstanceAs (Decidable (_ ∧ _))

variable {s t u v : Span}

theorem Apart.symm (h : s.Apart t) : t.Apart s := Or.symm h

instance : Std.Symm Apart := ⟨fun _ _ h => h.symm⟩

theorem Apart.mono (h : t.Apart v) (hs : s.Inside t) (hu : u.Inside v) : s.Apart u := by
  simp only [Apart, Inside] at *
  omega

theorem Inside.refl (s : Span) : s.Inside s := ⟨Nat.le_refl _, Nat.le_refl _⟩

theorem Inside.trans (h : s.Inside t) (h' : t.Inside u) : s.Inside u :=
  ⟨Nat.le_trans h'.1 h.1, Nat.le_trans h.2 h'.2⟩

theorem Apart.start_ne (h : s.Apart t) (hs : 0 < s.size) (ht : 0 < t.size) :
    s.start ≠ t.start := by
  simp only [Apart, finish] at h
  omega

/-- Any two of the ranges are apart. -/
def Separate (spans : List Span) : Prop := spans.Pairwise Apart

theorem Separate.perm {xs ys : List Span} (h : Separate xs) (hperm : xs.Perm ys) : Separate ys :=
  (hperm.pairwise_iff fun hab => Apart.symm hab).mp h

theorem Separate.subperm {xs ys : List Span} (h : Separate ys) (hsub : xs.Subperm ys) :
    Separate xs := by
  obtain ⟨zs, hperm, hsublist⟩ := hsub
  exact Separate.perm (List.Pairwise.sublist hsublist h) hperm

theorem Separate.apart {xs : List Span} (h : Separate xs) (hs : s ∈ xs) (ht : t ∈ xs)
    (hne : s ≠ t) : s.Apart t :=
  List.Pairwise.forall h hs ht hne

end Span

open Libnc.Foundation.Span

/-- A region from `low` to `high` that is in use below `top`. -/
structure Region where
  low : Nat
  top : Nat
  high : Nat
  low_le : low ≤ top
  top_le : top ≤ high

namespace Region

def span (r : Region) : Span := ⟨r.low, r.high - r.low⟩

def used (r : Region) : Span := ⟨r.low, r.top - r.low⟩

theorem used_inside (r : Region) : r.used.Inside r.span := by
  have := r.low_le
  have := r.top_le
  simp only [Inside, used, span, finish]
  omega

/-- Move the top up to the end of a range that starts above it. -/
def raise (r : Region) (m size : Nat) (hm : r.top ≤ m) (hsize : m + size ≤ r.high) : Region where
  low := r.low
  top := m + size
  high := r.high
  low_le := Nat.le_trans r.low_le (Nat.le_add_right_of_le hm)
  top_le := hsize

/-- Move the top anywhere, but not out of the region. -/
def setTop (r : Region) (m : Nat) : Region where
  low := r.low
  top := max r.low (min m r.high)
  high := r.high
  low_le := Nat.le_max_left _ _
  top_le := Nat.max_le.mpr ⟨Nat.le_trans r.low_le r.top_le, Nat.min_le_right _ _⟩

theorem setTop_top (r : Region) {m : Nat} (hlow : r.low ≤ m) (hhigh : m ≤ r.high) :
    (r.setTop m).top = m := by
  simp only [setTop]
  omega

/-- Separate regions whose used parts are divided among separate ranges. -/
structure Packed (regions : List Region) (spans : List Span) : Prop where
  regions_apart : Separate (regions.map span)
  spans_apart : Separate spans
  inside : ∀ s ∈ spans, ∃ r ∈ regions, s.Inside r.used

namespace Packed

variable {regions xs ys : List Region} {spans spans' : List Span} {r : Region} {m size : Nat}

theorem perm (h : Packed regions spans) (hperm : spans.Perm spans') : Packed regions spans' :=
  ⟨h.regions_apart, h.spans_apart.perm hperm, fun s hs => h.inside s (hperm.mem_iff.mpr hs)⟩

theorem apart_above (h : Packed (xs ++ r :: ys) spans) (hm : r.top ≤ m)
    (hsize : m + size ≤ r.high) : ∀ s ∈ spans, Apart ⟨m, size⟩ s := by
  intro s hs
  obtain ⟨q, hq, hsq⟩ := h.inside s hs
  have hlow := r.low_le
  have hnew : Inside ⟨m, size⟩ r.span := by
    simp only [Inside, span, finish]
    omega
  have hother : q ∈ xs ∨ q ∈ ys → Apart ⟨m, size⟩ s := fun hq => by
    have happart := h.regions_apart
    rw [List.map_append, List.map_cons] at happart
    obtain ⟨-, hr, hcross⟩ := List.pairwise_append.mp happart
    refine Apart.mono (t := r.span) (v := q.span) ?_ hnew (hsq.trans q.used_inside)
    rcases hq with hq | hq
    · exact (hcross _ (List.mem_map_of_mem hq) _ (by simp)).symm
    · exact (List.pairwise_cons.mp hr).1 _ (List.mem_map_of_mem hq)
  rcases List.mem_append.mp hq with hq | hq
  · exact hother (.inl hq)
  · rcases List.mem_cons.mp hq with rfl | hq
    · right
      have := hsq.2
      simp only [used, finish] at this ⊢
      omega
    · exact hother (.inr hq)

theorem carve (h : Packed (xs ++ r :: ys) spans) (hm : r.top ≤ m) (hsize : m + size ≤ r.high) :
    Packed (xs ++ r.raise m size hm hsize :: ys) (⟨m, size⟩ :: spans) := by
  have hlow := r.low_le
  refine ⟨?_, List.pairwise_cons.mpr ⟨h.apart_above hm hsize, h.spans_apart⟩, ?_⟩
  · have hspan : (r.raise m size hm hsize).span = r.span := rfl
    have happart := h.regions_apart
    rw [List.map_append, List.map_cons] at happart ⊢
    rwa [hspan]
  · intro s hs
    rcases List.mem_cons.mp hs with rfl | hs
    · refine ⟨_, List.mem_append_right _ List.mem_cons_self, ?_⟩
      simp only [Inside, used, finish, raise]
      omega
    · obtain ⟨q, hq, hsq⟩ := h.inside s hs
      rcases List.mem_append.mp hq with hq | hq
      · exact ⟨q, List.mem_append_left _ hq, hsq⟩
      · rcases List.mem_cons.mp hq with rfl | hq
        · refine ⟨_, List.mem_append_right _ List.mem_cons_self, hsq.trans ?_⟩
          simp only [Inside, used, finish, raise]
          omega
        · exact ⟨q, List.mem_append_right _ (List.mem_cons_of_mem _ hq), hsq⟩

theorem add (h : Packed regions spans) (hr : ∀ q ∈ regions, Apart q.span r.span) :
    Packed (regions ++ [r]) (r.used :: spans) := by
  refine ⟨?_, List.pairwise_cons.mpr ⟨fun s hs => ?_, h.spans_apart⟩, fun s hs => ?_⟩
  · rw [List.map_append]
    refine List.pairwise_append.mpr ⟨h.regions_apart, by simp, fun s hs t ht => ?_⟩
    obtain ⟨q, hq, rfl⟩ := List.mem_map.mp hs
    obtain rfl : t = r.span := by simpa using ht
    exact hr q hq
  · obtain ⟨q, hq, hsq⟩ := h.inside s hs
    exact (hr q hq).symm.mono r.used_inside (hsq.trans q.used_inside)
  · rcases List.mem_cons.mp hs with rfl | hs
    · exact ⟨r, by simp, .refl _⟩
    · obtain ⟨q, hq, hsq⟩ := h.inside s hs
      exact ⟨q, List.mem_append_left _ hq, hsq⟩

/-- Nothing is in use any more, whatever the tops of the regions are. -/
theorem clear (h : Packed regions spans) (hspans : xs.map span = regions.map span) :
    Packed xs [] :=
  ⟨hspans ▸ h.regions_apart, .nil, by simp⟩

end Packed

end Region

end Libnc.Foundation
