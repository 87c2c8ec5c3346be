import Mathlib.Data.List.Basic

/-!
# Runs of partial step functions

A system is a state type, a type of inputs and a step function that may have
no result.  This file contains the replay of an input list, the predicate that
a condition holds at every step of it, and the two induction rules on which
every statement about whole runs is based.
-/

namespace Libnc.Foundation

variable {σ ι : Type*}

/-- Replay the inputs in order; `none` as soon as one step has no result. -/
def run (step : σ → ι → Option σ) : σ → List ι → Option σ
  | s, [] => some s
  | s, i :: is => (step s i).bind fun s' => run step s' is

/-- The condition holds at every step that the run makes. -/
def Along (step : σ → ι → Option σ) (P : σ → ι → Prop) : σ → List ι → Prop
  | _, [] => True
  | s, i :: is => P s i ∧ ∀ s', step s i = some s' → Along step P s' is

variable {step : σ → ι → Option σ}

instance decidableAlong (P : σ → ι → Prop) [∀ s i, Decidable (P s i)] :
    ∀ s is, Decidable (Along step P s is)
  | _, [] => isTrue trivial
  | s, i :: is =>
      have := fun s' => decidableAlong P s' is
      inferInstanceAs (Decidable (P s i ∧ ∀ s' ∈ step s i, Along step P s' is))

@[simp] theorem run_nil (s : σ) : run step s [] = some s := rfl

@[simp] theorem along_nil (P : σ → ι → Prop) (s : σ) : Along step P s [] :=
  trivial

theorem run_cons_some {s s' s'' : σ} {i : ι} {is : List ι}
    (h : step s i = some s') (hrun : run step s' is = some s'') :
    run step s (i :: is) = some s'' := by
  simp [run, h, hrun]

theorem run_append (s : σ) (is js : List ι) :
    run step s (is ++ js) = (run step s is).bind fun s' => run step s' js := by
  induction is generalizing s with
  | nil => rfl
  | cons i is ih =>
      simp only [List.cons_append, run]
      cases step s i with
      | none => rfl
      | some s' => exact ih s'

theorem along_append (P : σ → ι → Prop) (s : σ) (is js : List ι) :
    Along step P s (is ++ js) ↔
      Along step P s is ∧ ∀ s', run step s is = some s' → Along step P s' js := by
  induction is generalizing s with
  | nil => simp
  | cons i is ih =>
      simp only [List.cons_append, Along, run]
      cases step s i with
      | none => simp
      | some s' => simp [ih s', and_assoc]

theorem Along.of_forall {P : σ → ι → Prop} {s : σ} {is : List ι} (h : ∀ s, ∀ i ∈ is, P s i) :
    Along step P s is := by
  induction is generalizing s with
  | nil => trivial
  | cons i is ih =>
      exact ⟨h s i (by simp), fun _ _ => ih fun s j hj => h s j (List.mem_cons_of_mem _ hj)⟩

theorem Along.and {P Q : σ → ι → Prop} {s : σ} {is : List ι}
    (hP : Along step P s is) (hQ : Along step Q s is) :
    Along step (fun s i => P s i ∧ Q s i) s is := by
  induction is generalizing s with
  | nil => trivial
  | cons i is ih =>
      exact ⟨⟨hP.1, hQ.1⟩, fun s' h => ih (hP.2 s' h) (hQ.2 s' h)⟩

/--
Safety rule: a condition that makes a step good and preserves the invariant
makes every step of the run good.
-/
theorem Along.of_invariant (Inv : σ → Prop) {ok good : σ → ι → Prop}
    (hstep : ∀ s i, Inv s → ok s i →
      good s i ∧ ∀ s', step s i = some s' → Inv s')
    {s : σ} {is : List ι} (hs : Inv s) (hok : Along step ok s is) :
    Along step good s is := by
  induction is generalizing s with
  | nil => trivial
  | cons i is ih =>
      obtain ⟨hgood, hnext⟩ := hstep s i hs hok.1
      exact ⟨hgood, fun s' h => ih (hnext s' h) (hok.2 s' h)⟩

/-- The safety rule with an invariant that may mention the inputs consumed so far. -/
theorem Along.of_invariant_past (Inv : List ι → σ → Prop) (bound : Nat) {ok good : σ → ι → Prop}
    (hstep : ∀ past s i, past.length < bound → Inv past s → ok s i →
      good s i ∧ ∀ s', step s i = some s' → Inv (past ++ [i]) s')
    (past : List ι) {s : σ} {is : List ι} (hbound : past.length + is.length ≤ bound)
    (hs : Inv past s) (hok : Along step ok s is) : Along step good s is := by
  induction is generalizing past s with
  | nil => trivial
  | cons i is ih =>
      simp only [List.length_cons] at hbound
      obtain ⟨hgood, hnext⟩ := hstep past s i (by omega) hs hok.1
      refine ⟨hgood, fun s' h => ?_⟩
      exact ih (past ++ [i]) (by simp; omega) (hnext s' h) (hok.2 s' h)

/--
Two conditions hold along the same runs, if they say the same wherever the invariant
holds and the second one preserves it.
-/
theorem Along.iff_of_invariant_past (Inv : List ι → σ → Prop) (bound : Nat)
    {ok P Q : σ → ι → Prop}
    (hiff : ∀ past s i, past.length < bound → Inv past s → (P s i ↔ Q s i))
    (hstep : ∀ past s i, past.length < bound → Inv past s → ok s i → Q s i →
      ∃ s', step s i = some s' ∧ Inv (past ++ [i]) s')
    (past : List ι) {s : σ} {is : List ι} (hbound : past.length + is.length ≤ bound)
    (hs : Inv past s) (hok : Along step ok s is) : Along step P s is ↔ Along step Q s is := by
  induction is generalizing past s with
  | nil => exact iff_of_true trivial trivial
  | cons i is ih =>
      simp only [List.length_cons] at hbound
      have hpast : past.length < bound := by omega
      have htail : Q s i → ∀ s', step s i = some s' →
          (Along step P s' is ↔ Along step Q s' is) := by
        intro hq s' hs'
        obtain ⟨s'', hs'', hinv⟩ := hstep past s i hpast hs hok.1 hq
        obtain rfl := Option.some.inj (hs''.symm.trans hs')
        exact ih (past ++ [i]) (by simp; omega) hinv (hok.2 s'' hs')
      constructor
      · rintro ⟨hp, hrest⟩
        have hq := (hiff past s i hpast hs).mp hp
        exact ⟨hq, fun s' hs' => (htail hq s' hs').mp (hrest s' hs')⟩
      · rintro ⟨hq, hrest⟩
        have hp := (hiff past s i hpast hs).mpr hq
        exact ⟨hp, fun s' hs' => (htail hq s' hs').mpr (hrest s' hs')⟩

/--
Total correctness rule.  The invariant may mention the inputs consumed so far,
and each step may use that fewer than `bound` inputs have been consumed.
-/
theorem Along.run_total (Inv : List ι → σ → Prop) (bound : Nat) {ok : σ → ι → Prop}
    (hstep : ∀ past s i, past.length < bound → Inv past s → ok s i →
      ∃ s', step s i = some s' ∧ Inv (past ++ [i]) s')
    (past : List ι) {s : σ} {is : List ι}
    (hbound : past.length + is.length ≤ bound)
    (hs : Inv past s) (hok : Along step ok s is) :
    ∃ s', run step s is = some s' ∧ Inv (past ++ is) s' := by
  induction is generalizing past s with
  | nil => exact ⟨s, rfl, by simpa using hs⟩
  | cons i is ih =>
      simp only [List.length_cons] at hbound
      obtain ⟨s₁, hs₁, hinv⟩ := hstep past s i (by omega) hs hok.1
      obtain ⟨s', hrun, hs'⟩ :=
        ih _ (by simp; omega) hinv (hok.2 s₁ hs₁)
      exact ⟨s', run_cons_some hs₁ hrun, by simpa using hs'⟩

end Libnc.Foundation
