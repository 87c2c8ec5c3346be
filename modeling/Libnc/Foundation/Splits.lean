import Mathlib.Data.List.Basic

/-!
# Splitting at a separator

The pieces of a list between the leftmost occurrences of a separator, none of
which overlaps the one before.  Joining the pieces gives the list back, and the
lists of pieces that come back from their join are described exactly.
-/

namespace Libnc.Foundation

variable {α : Type*} {sep l a b rest rest' : List α} {ts us : List (List α)} {n m : Nat}

/-- The separator does not begin at any of the first `n` places. -/
def Absent (sep : List α) (n : Nat) (l : List α) : Prop := ∀ i < n, ¬ sep <+: l.drop i

inductive Splits (sep : List α) : List α → List (List α) → Prop where
  | last {l : List α} : Absent sep l.length l → Splits sep l [l]
  | cons {a rest : List α} {ts : List (List α)} : Absent sep a.length (a ++ sep ++ rest) →
      Splits sep rest ts → Splits sep (a ++ sep ++ rest) (a :: ts)

theorem Absent.succ (ha : Absent sep n l) (hn : ¬ sep <+: l.drop n) : Absent sep (n + 1) l := by
  intro i hi
  rcases Nat.lt_succ_iff_lt_or_eq.mp hi with hlt | rfl
  · exact ha i hlt
  · exact hn

theorem absent_cons {c : α} :
    Absent sep (n + 1) (c :: l) ↔ ¬ sep <+: c :: l ∧ Absent sep n l := by
  constructor
  · intro ha
    exact ⟨ha 0 (Nat.succ_pos n), fun i hi => ha (i + 1) (Nat.succ_lt_succ hi)⟩
  · rintro ⟨hzero, ha⟩ i hi
    cases i with
    | zero => exact hzero
    | succ i => exact ha i (Nat.lt_of_succ_lt_succ hi)

/-- An occurrence has to end inside of the list. -/
theorem Absent.of_lt (hsep : sep ≠ []) (ha : Absent sep n l) (hn : l.length < n + sep.length) :
    Absent sep m l := by
  intro i _ hpre
  by_cases hi : i < n
  · exact ha i hi hpre
  · have hle := hpre.length_le
    have hpos := List.length_pos_of_ne_nil hsep
    rw [List.length_drop] at hle
    omega

theorem drop_occurrence (a sep rest : List α) : sep <+: (a ++ sep ++ rest).drop a.length := by
  rw [List.append_assoc, List.drop_left]
  exact List.prefix_append sep rest

/-! ## Joining the pieces -/

theorem Splits.ne_nil (hl : Splits sep l ts) : ts ≠ [] := by
  cases hl <;> simp

theorem intercalate_cons (hts : ts ≠ []) (a : List α) :
    sep.intercalate (a :: ts) = a ++ sep ++ sep.intercalate ts := by
  cases ts with
  | nil => exact absurd rfl hts
  | cons b ts => exact List.intercalate_cons_cons

theorem Splits.intercalate (hl : Splits sep l ts) : sep.intercalate ts = l := by
  induction hl with
  | last _ => exact List.intercalate_singleton
  | cons _ hrest ih => rw [intercalate_cons hrest.ne_nil, ih]

/-! ## The pieces are determined -/

theorem Splits.of_absent (hsep : sep ≠ []) (hl : Splits sep l ts) (ha : Absent sep l.length l) :
    ts = [l] := by
  have hpos := List.length_pos_of_ne_nil hsep
  cases hl with
  | last _ => rfl
  | @cons a rest ts _ _ =>
      have hlt : a.length < (a ++ sep ++ rest).length := by
        simp only [List.length_append]
        omega
      exact absurd (drop_occurrence a sep rest) (ha _ hlt)

theorem length_le_of_absent (ha : Absent sep a.length (b ++ sep ++ rest)) :
    a.length ≤ b.length := by
  by_contra hlt
  exact ha b.length (by omega) (drop_occurrence b sep rest)

/-- The first occurrence ends the first piece. -/
theorem Splits.of_found (hsep : sep ≠ []) (hl : Splits sep (a ++ sep ++ rest) ts)
    (ha : Absent sep a.length (a ++ sep ++ rest)) :
    ∃ us, ts = a :: us ∧ Splits sep rest us := by
  have hpos := List.length_pos_of_ne_nil hsep
  generalize hwhole : a ++ sep ++ rest = whole at hl ha
  cases hl with
  | last hlast =>
      rw [← hwhole] at hlast
      have hlt : a.length < (a ++ sep ++ rest).length := by
        simp only [List.length_append]
        omega
      exact absurd (drop_occurrence a sep rest) (hlast _ hlt)
  | @cons b rest' us hb hrest =>
      have hle := length_le_of_absent ha
      rw [← hwhole] at hb
      have hge := length_le_of_absent hb
      rw [List.append_assoc, List.append_assoc] at hwhole
      obtain ⟨rfl, htail⟩ := List.append_inj hwhole (by omega)
      obtain rfl := List.append_cancel_left htail
      exact ⟨us, rfl, hrest⟩

theorem Splits.unique (hsep : sep ≠ []) (hts : Splits sep l ts) (hus : Splits sep l us) :
    ts = us := by
  induction hts generalizing us with
  | last ha => exact (hus.of_absent hsep ha).symm
  | cons ha _ ih =>
      obtain ⟨us', rfl, hrest⟩ := hus.of_found hsep ha
      rw [ih hrest]

theorem occurrence_of_drop (hpre : sep <+: l.drop n) :
    l = l.take n ++ sep ++ l.drop (n + sep.length) := by
  obtain ⟨rest, hrest⟩ := hpre
  have hdrop : l.drop (n + sep.length) = rest := by
    rw [← List.drop_drop, ← hrest, List.drop_left]
  rw [hdrop, List.append_assoc, hrest, List.take_append_drop]

/-- Either there is a first occurrence or there is none. -/
theorem exists_first (sep l : List α) :
    (∃ a rest, l = a ++ sep ++ rest ∧ Absent sep a.length l) ∨ Absent sep l.length l := by
  induction l with
  | nil =>
      right
      intro i hi
      exact absurd hi (Nat.not_lt_zero i)
  | cons c l ih =>
      by_cases hpre : sep <+: c :: l
      · left
        obtain ⟨rest, hrest⟩ := hpre
        refine ⟨[], rest, hrest.symm, fun i hi => ?_⟩
        exact absurd hi (Nat.not_lt_zero i)
      · rcases ih with ⟨a, rest, hshape, ha⟩ | ha
        · left
          exact ⟨c :: a, rest, by rw [hshape]; rfl, absent_cons.mpr ⟨hpre, ha⟩⟩
        · right
          exact absent_cons.mpr ⟨hpre, ha⟩

theorem exists_splits (hsep : sep ≠ []) (l : List α) : ∃ ts, Splits sep l ts := by
  rcases exists_first sep l with ⟨a, rest, hshape, ha⟩ | ha
  · have hpos := List.length_pos_of_ne_nil hsep
    have hlt : rest.length < l.length := by
      simp only [hshape, List.length_append]
      omega
    obtain ⟨ts, hts⟩ := exists_splits hsep rest
    rw [hshape] at ha ⊢
    exact ⟨a :: ts, .cons ha hts⟩
  · exact ⟨[l], .last ha⟩
termination_by l.length

/-! ## A search from the left -/

/-- The pieces `ts` begin at `start`, and the separator begins nowhere between it and `j`. -/
structure Search (sep l : List α) (start j : Nat) (ts : List (List α)) : Prop where
  le : start ≤ j
  absent : Absent sep (j - start) (l.drop start)
  splits : Splits sep (l.drop start) ts

namespace Search

variable {start j : Nat}

theorem start_at (hl : Splits sep (l.drop n) ts) : Search sep l n n ts where
  le := Nat.le_refl n
  absent := by
    rw [Nat.sub_self]
    exact fun i hi => absurd hi (Nat.not_lt_zero i)
  splits := hl

theorem drop_eq (h : Search sep l start j ts) : l.drop j = (l.drop start).drop (j - start) := by
  rw [List.drop_drop, Nat.add_sub_cancel' h.le]

theorem skip (h : Search sep l start j ts) (hnot : ¬ sep <+: l.drop j) :
    Search sep l start (j + 1) ts where
  le := Nat.le_succ_of_le h.le
  absent := by
    rw [h.drop_eq] at hnot
    rw [Nat.sub_add_comm h.le]
    exact h.absent.succ hnot
  splits := h.splits

theorem cut (h : Search sep l start j ts) (hsep : sep ≠ []) (hpre : sep <+: l.drop j) :
    ∃ us, ts = (l.drop start).take (j - start) :: us ∧
      Search sep l (j + sep.length) (j + sep.length) us := by
  rw [h.drop_eq] at hpre
  have hpiece : ((l.drop start).take (j - start)).length = j - start := by
    have hle := hpre.length_le
    have hpos := List.length_pos_of_ne_nil hsep
    rw [List.length_drop] at hle
    rw [List.length_take]
    omega
  have hnext : (l.drop start).drop (j - start + sep.length) = l.drop (j + sep.length) := by
    rw [← List.drop_drop, ← h.drop_eq, List.drop_drop]
  have hshape := occurrence_of_drop hpre
  rw [hnext] at hshape
  have hsplits := h.splits
  have habsent := h.absent
  rw [hshape] at hsplits habsent
  obtain ⟨us, hts, hus⟩ := hsplits.of_found hsep (by rwa [hpiece])
  exact ⟨us, hts, start_at hus⟩

theorem last (h : Search sep l start j ts) (hsep : sep ≠ []) (hj : l.length < j + sep.length) :
    ts = [l.drop start] := by
  have hle := h.le
  have hpos := List.length_pos_of_ne_nil hsep
  apply h.splits.of_absent hsep
  apply h.absent.of_lt hsep
  rw [List.length_drop]
  omega

end Search

/-! ## The lists that come back from their join -/

def Separable (sep : List α) : List (List α) → Prop
  | [] => False
  | [t] => Absent sep t.length t
  | t :: ts => Absent sep t.length (t ++ sep) ∧ Separable sep ts

/-- What begins inside of the first piece ends inside of the separator after it. -/
theorem absent_append :
    Absent sep a.length (a ++ sep ++ rest) ↔ Absent sep a.length (a ++ sep) := by
  have hdrop : ∀ i < a.length, (sep <+: (a ++ sep ++ rest).drop i ↔ sep <+: (a ++ sep).drop i) := by
    intro i hi
    have hle : i ≤ (a ++ sep).length := by
      rw [List.length_append]
      omega
    rw [List.drop_append_of_le_length hle]
    constructor
    · intro hpre
      apply List.prefix_of_prefix_length_le hpre (List.prefix_append _ _)
      rw [List.length_drop, List.length_append]
      omega
    · intro hpre
      exact hpre.trans (List.prefix_append _ _)
  constructor
  · intro ha i hi
    exact mt (hdrop i hi).mpr (ha i hi)
  · intro ha i hi
    exact mt (hdrop i hi).mp (ha i hi)

theorem splits_iff : Splits sep l ts ↔ Separable sep ts ∧ sep.intercalate ts = l := by
  constructor
  · intro hl
    refine ⟨?_, hl.intercalate⟩
    induction hl with
    | last ha => exact ha
    | @cons a rest ts ha hrest ih =>
        cases ts with
        | nil => exact absurd rfl hrest.ne_nil
        | cons b ts => exact ⟨absent_append.mp ha, ih⟩
  · rintro ⟨hts, rfl⟩
    induction ts with
    | nil => exact hts.elim
    | cons a ts ih =>
        cases ts with
        | nil =>
            rw [List.intercalate_singleton]
            exact .last hts
        | cons b ts =>
            rw [List.intercalate_cons_cons]
            exact .cons (absent_append.mpr hts.1) (ih hts.2)

end Libnc.Foundation
