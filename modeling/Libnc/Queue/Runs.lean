import Mathlib.Data.Fintype.Basic
import Libnc.Queue.Traversal

/-!
# What holds after a run

The heads begin as `*_HEAD_INITIALIZER` leaves them, and the elements with any links.
A run of permitted macros never follows NULL and never fails a check.
-/

namespace Libnc.Queue

open Libnc.Foundation

variable {η ε : Type}

/-- `*_HEAD_INITIALIZER` of every head. -/
def Initialised (kind : Kind) (M : Memory η ε) : Prop :=
  ∀ h, M.next (.head h) = none ∧
    (kind.stored (.head h : Place η ε) → M.prev (.head h) = some (.head h))

variable {kind : Kind} {asserting : Bool} {fuel : Nat} {M : Memory η ε} {Q : η → List ε}
  {s s' : Session (Memory η ε) η ε} {op : Op η ε} {past ops : List (Op η ε)} {h k : η} {e x y : ε}
  {a : Place η ε}

theorem Initialised.holds (hM : Initialised kind M) : Holds kind M fun _ => [] := by
  refine ⟨id, id, Rings.empty (fun _ => rfl) (fun _ => rfl), ?_, ?_⟩
  · rintro (h | e) ⟨k, ha⟩
    · exact (hM h).1
    · exact absurd (elem_mem_links.mp ha) List.not_mem_nil
  · rintro (h | e) ⟨k, ha⟩ hs
    · exact (hM h).2 hs
    · exact absurd (elem_mem_links.mp ha) List.not_mem_nil

variable [DecidableEq η] [DecidableEq ε]

theorem step_spec (asserting : Bool) (hs : Sound (Holds kind) past s)
    (hfuel : past.length ≤ fuel) (hcall : Callable kind.has s op) :
    ∃ s', step (exec kind asserting fuel) s op = some s' ∧
      Sound (Holds kind) (past ++ [op]) s' ∧ s'.queues = effect s.queues op ∧
      Step kind s.memory s'.memory s.queues op := by
  obtain ⟨M', hrun, hstep⟩ := exec_spec asserting hs.holds hcall.1 hcall.2
    fun h _ _ => (hs.length_le h).trans hfuel
  exact ⟨⟨M', effect s.queues op⟩, by simp [step, hrun],
    hs.next hstep.holds hstep.holds.nodup, rfl, hstep⟩

/-- Two empty queues, and elements whose links have never been written. -/
def fresh : Memory (Fin 2) Nat where
  next _ := none
  prev
    | .head h => some (.head h)
    | .elem _ => none

end Libnc.Queue
