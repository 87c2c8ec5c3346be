import Mathlib.Data.List.Basic
import Libnc.Foundation.Run

/-!
# First fit

Items go one after another into bins, each into the first bin that takes it.  The bins
are given, or one more is opened whenever none of them takes an item; as many as the
second way opens are enough for the first.
-/

namespace Libnc.Foundation.FirstFit

variable {α β : Type*} {put : β → α → Option β} {empty e : β} {a : α} {bs bs' : List β}

/-- Put an item in the first of the bins that takes it. -/
def fill (put : β → α → Option β) : List β → α → Option (List β)
  | [], _ => none
  | b :: bs, a =>
      match put b a with
      | some b' => some (b' :: bs)
      | none => (fill put bs a).map (b :: ·)

/-- Open one more bin for an item that no bin takes. -/
def pack (put : β → α → Option β) (empty : β) (bs : List β) (a : α) : List β :=
  (fill put bs a).getD (bs ++ [(put empty a).getD empty])

/-- The bins that the items need when they are opened one by one. -/
def bins (put : β → α → Option β) (empty : β) (as : List α) : List β :=
  as.foldl (pack put empty) []

theorem fill_cons_some {b b' : β} (h : put b a = some b') (bs : List β) :
    fill put (b :: bs) a = some (b' :: bs) := by
  simp [fill, h]

theorem fill_cons_none {b : β} (h : put b a = none) (bs : List β) :
    fill put (b :: bs) a = (fill put bs a).map (b :: ·) := by
  simp [fill, h]

theorem fill_length (h : fill put bs a = some bs') : bs'.length = bs.length := by
  induction bs generalizing bs' with
  | nil => cases h
  | cons b bs ih =>
      cases hput : put b a with
      | some b' =>
          rw [fill_cons_some hput, Option.some_inj] at h
          simp [← h]
      | none =>
          rw [fill_cons_none hput] at h
          obtain ⟨cs, hcs, rfl⟩ := Option.map_eq_some_iff.mp h
          rw [List.length_cons, ih hcs, List.length_cons]

theorem fill_append_some (h : fill put bs a = some bs') (cs : List β) :
    fill put (bs ++ cs) a = some (bs' ++ cs) := by
  induction bs generalizing bs' with
  | nil => cases h
  | cons b bs ih =>
      cases hput : put b a with
      | some b' =>
          rw [fill_cons_some hput, Option.some_inj] at h
          rw [List.cons_append, fill_cons_some hput, ← h, List.cons_append]
      | none =>
          rw [fill_cons_none hput] at h
          obtain ⟨ds, hds, rfl⟩ := Option.map_eq_some_iff.mp h
          rw [List.cons_append, fill_cons_none hput, ih hds]
          rfl

theorem fill_append_none (h : fill put bs a = none) (cs : List β) :
    fill put (bs ++ cs) a = (fill put cs a).map (bs ++ ·) := by
  induction bs with
  | nil => simp
  | cons b bs ih =>
      cases hput : put b a with
      | some b' =>
          rw [fill_cons_some hput] at h
          cases h
      | none =>
          rw [fill_cons_none hput, Option.map_eq_none_iff] at h
          rw [List.cons_append, fill_cons_none hput, ih h, Option.map_map]
          rfl

theorem pack_of_some (h : fill put bs a = some bs') : pack put empty bs a = bs' := by
  unfold pack
  rw [h, Option.getD_some]

theorem pack_of_none (h : fill put bs a = none) (he : put empty a = some e) :
    pack put empty bs a = bs ++ [e] := by
  unfold pack
  rw [h, he, Option.getD_none, Option.getD_some]

theorem length_le_pack (bs : List β) (a : α) : bs.length ≤ (pack put empty bs a).length := by
  cases h : fill put bs a with
  | some bs' =>
      have hlen : (pack put empty bs a).length = bs.length := by
        rw [pack_of_some h, fill_length h]
      exact Nat.le_of_eq hlen.symm
  | none => simp [pack, h]

theorem length_le_foldl_pack (bs : List β) (as : List α) :
    bs.length ≤ (as.foldl (pack put empty) bs).length := by
  induction as generalizing bs with
  | nil => exact Nat.le_refl _
  | cons a as ih => exact Nat.le_trans (length_le_pack bs a) (ih _)

theorem run_fill_append_iff {as : List α} (hfit : ∀ a ∈ as, (put empty a).isSome) (bs : List β)
    (n : Nat) :
    (run (fill put) (bs ++ List.replicate n empty) as).isSome ↔
      (as.foldl (pack put empty) bs).length ≤ bs.length + n := by
  induction as generalizing bs n with
  | nil => simp
  | cons a as ih =>
      obtain ⟨hfirst, hrest⟩ := List.forall_mem_cons.mp hfit
      obtain ⟨e, he⟩ := Option.isSome_iff_exists.mp hfirst
      unfold run
      rw [List.foldl_cons]
      cases hfill : fill put bs a with
      | some bs' =>
          rw [fill_append_some hfill, Option.bind_some, pack_of_some hfill, ih hrest,
            fill_length hfill]
      | none =>
          rw [fill_append_none hfill, pack_of_none hfill he]
          cases n with
          | zero =>
              have hgrow : (bs ++ [e]).length ≤ (as.foldl (pack put empty) (bs ++ [e])).length :=
                length_le_foldl_pack _ _
              rw [List.length_append, List.length_singleton] at hgrow
              simp only [List.replicate_zero, fill, Option.map_none, Option.bind_none,
                Option.isSome_none, Bool.false_eq_true, false_iff]
              omega
          | succ n =>
              rw [List.replicate_succ, fill_cons_some he, Option.map_some, Option.bind_some,
                List.append_cons, ih hrest, List.length_append, List.length_singleton]
              omega

/-- `n` empty bins take the items just when no more are opened one by one. -/
theorem run_fill_iff {as : List α} (hfit : ∀ a ∈ as, (put empty a).isSome) (n : Nat) :
    (run (fill put) (List.replicate n empty) as).isSome ↔ (bins put empty as).length ≤ n := by
  simpa [bins] using run_fill_append_iff hfit [] n

end Libnc.Foundation.FirstFit
