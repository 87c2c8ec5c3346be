import Mathlib.Logic.Basic

/-!
# Partial programs with checks

A program with additional checks has at most the results of the program without
them.
-/

namespace Libnc.Foundation

universe u

variable {α β : Type u} {a a' b b' : Option α} {P : Prop} [Decidable P]

/-- Every result of `a` is one of `b`. -/
def Refines (a b : Option α) : Prop := ∀ r, a = some r → b = some r

namespace Refines

theorem refl (a : Option α) : Refines a a := fun _ h => h

theorem guard (h : P → Refines a b) : Refines (if P then a else none) b := by
  intro r hr
  obtain ⟨hp, ha⟩ := Option.ite_none_right_eq_some.mp hr
  exact h hp r ha

theorem bind {f g : α → Option β} (h : Refines a b) (hf : ∀ x, Refines (f x) (g x)) :
    Refines (a >>= f) (b >>= g) := by
  intro r hr
  obtain ⟨x, hx, hfx⟩ := Option.bind_eq_some_iff.mp hr
  exact Option.bind_eq_some_iff.mpr ⟨x, h x hx, hf x r hfx⟩

theorem ite (h : Refines a a') (h' : Refines b b') :
    Refines (if P then a else b) (if P then a' else b') := by
  split
  · exact h
  · exact h'

end Refines

end Libnc.Foundation
