import Libnc.Queue.Steps

/-!
# Traversals

The loops visit the elements of a queue in their order or in the reverse order.
A `SAFE` loop reads the link before its body runs, so the body may remove the element;
the other loops find NULL in its place.
-/

namespace Libnc.Queue

open Libnc.Foundation

variable {η ε : Type}
variable {kind : Kind} {M M' : Memory η ε} {next prev : Place η ε → Place η ε}
  {Q : η → List ε} {h : η} {e x : ε} {before after rest : List ε} {a : Place η ε}
  {fuel : Nat}

namespace Linked

end Linked

/-! ## Removal while the loop runs -/

theorem Holds.nodup (hM : Holds kind M Q) (h : η) : (Q h).Nodup := by
  obtain ⟨next, prev, hM⟩ := hM
  exact hM.rings.nodup h

variable [DecidableEq η] [DecidableEq ε] {p : ε → Bool} {n : Nat}

theorem Holds.remove (asserting : Bool) (hM : Holds kind M Q) (hQ : Q h = before ++ x :: after)
    (hfuel : (Q h).length ≤ fuel) :
    ∃ M', exec kind asserting fuel M (.remove h x) = some M' ∧
      Holds kind M' (Function.update Q h (before ++ after)) ∧ M'.next (.elem x) = none := by
  have hx : Allowed Q (.remove h x) := by simp [Allowed, hQ]
  have hout : x ∉ before ++ after := by
    have hnodup := hM.nodup h
    rw [hQ, List.nodup_middle] at hnodup
    exact (List.nodup_cons.mp hnodup).1
  have hfront : x ∉ before := fun hmem => hout (List.mem_append_left _ hmem)
  have heffect : effect Q (.remove h x) = Function.update Q h (before ++ after) := by
    simp [effect, hQ, List.erase_append_right _ hfront]
  have hgone : ∀ k, x ∉ effect Q (.remove h x) k := by
    intro k
    rw [heffect]
    by_cases hk : k = h
    · subst hk
      rwa [Function.update_self]
    · rw [Function.update_of_ne hk]
      obtain ⟨next, prev, hM⟩ := hM
      exact fun hmem => hk (hM.rings.disjoint hmem hx)
  have hlength : ∀ k elm, Op.remove h x = .remove k elm → (Q k).length ≤ fuel := by
    rintro k elm ⟨⟩
    exact hfuel
  obtain ⟨M', hrun, hstep⟩ := exec_spec asserting hM rfl hx hlength
  refine ⟨M', hrun, heffect ▸ hstep.holds, ?_⟩
  exact (hstep.left (fun _ => by simp) h x hx hgone).1

end Libnc.Queue
