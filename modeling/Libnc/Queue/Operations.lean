import Mathlib.Data.Fintype.Defs
import Mathlib.Data.List.Nodup
import Mathlib.Logic.Equiv.Basic
import Libnc.Foundation.Run

/-!
# What the callers of the queues expect

The operations of `nc_sys_queue.h` on lists of elements, and sessions: a memory
together with what the caller knows, the elements of every queue in their order.
-/

namespace Libnc.Queue

open Libnc.Foundation

variable {η ε : Type}

/-- A macro and its arguments; the caller knows the head also where the macro does not ask. -/
inductive Op (η ε : Type) where
  | init (h : η)
  | insertHead (h : η) (elm : ε)
  | insertTail (h : η) (elm : ε)
  | insertAfter (h : η) (listelm elm : ε)
  | insertBefore (h : η) (listelm elm : ε)
  | removeHead (h : η)
  | removeAfter (h : η) (elm : ε)
  | remove (h : η) (elm : ε)
  | concat (head1 head2 : η)
  | swap (head1 head2 : η)
  deriving DecidableEq, Repr

def Op.heads : Op η ε → List η
  | .init h => [h]
  | .insertHead h _ => [h]
  | .insertTail h _ => [h]
  | .insertAfter h _ _ => [h]
  | .insertBefore h _ _ => [h]
  | .removeHead h => [h]
  | .removeAfter h _ => [h]
  | .remove h _ => [h]
  | .concat head1 head2 => [head1, head2]
  | .swap head1 head2 => [head1, head2]

def Op.elems : Op η ε → List ε
  | .init _ => []
  | .insertHead _ elm => [elm]
  | .insertTail _ elm => [elm]
  | .insertAfter _ listelm elm => [listelm, elm]
  | .insertBefore _ listelm elm => [listelm, elm]
  | .removeHead _ => []
  | .removeAfter _ elm => [elm]
  | .remove _ elm => [elm]
  | .concat _ _ => []
  | .swap _ _ => []

def Op.inserted : Op η ε → Option ε
  | .insertHead _ elm => some elm
  | .insertTail _ elm => some elm
  | .insertAfter _ _ elm => some elm
  | .insertBefore _ _ elm => some elm
  | _ => none

variable {before after : List ε} {Q : η → List ε} {op : Op η ε} {h k : η} {e x y : ε}

theorem exists_cut {l : List ε} (hnodup : l.Nodup) (he : e ∈ l) :
    ∃ before after, l = before ++ e :: after ∧ e ∉ before := by
  obtain ⟨before, after, rfl⟩ := List.append_of_mem he
  refine ⟨before, after, rfl, fun hmem => ?_⟩
  exact (List.nodup_append.mp hnodup).2.2 e hmem e List.mem_cons_self rfl

/-! ## What the caller expects -/

section Effect

variable [DecidableEq η]

theorem mem_update {l : List ε} (he : e ∈ Function.update Q h l k) : e ∈ l ∨ ∃ k, e ∈ Q k := by
  by_cases hk : k = h
  · subst hk
    rw [Function.update_self] at he
    exact .inl he
  · rw [Function.update_of_ne hk] at he
    exact .inr ⟨k, he⟩

variable [DecidableEq ε]

def insertBehind (x y : ε) : List ε → List ε
  | [] => []
  | z :: l => if z = x then z :: y :: l else z :: insertBehind x y l

def insertInFront (x y : ε) : List ε → List ε
  | [] => []
  | z :: l => if z = x then y :: z :: l else z :: insertInFront x y l

def eraseBehind (x : ε) : List ε → List ε
  | [] => []
  | z :: l => if z = x then z :: l.tail else z :: eraseBehind x l

theorem insertBehind_append (hx : x ∉ before) :
    insertBehind x y (before ++ x :: after) = before ++ x :: y :: after := by
  induction before with
  | nil => simp [insertBehind]
  | cons z before ih =>
      rw [List.mem_cons, not_or] at hx
      simp [insertBehind, Ne.symm hx.1, ih hx.2]

theorem insertInFront_append (hx : x ∉ before) :
    insertInFront x y (before ++ x :: after) = before ++ y :: x :: after := by
  induction before with
  | nil => simp [insertInFront]
  | cons z before ih =>
      rw [List.mem_cons, not_or] at hx
      simp [insertInFront, Ne.symm hx.1, ih hx.2]

theorem eraseBehind_append (hx : x ∉ before) :
    eraseBehind x (before ++ x :: y :: after) = before ++ x :: after := by
  induction before with
  | nil => simp [eraseBehind]
  | cons z before ih =>
      rw [List.mem_cons, not_or] at hx
      simp [eraseBehind, Ne.symm hx.1, ih hx.2]

theorem mem_insertBehind {l : List ε} (he : e ∈ insertBehind x y l) : e ∈ l ∨ e = y := by
  induction l with
  | nil => exact absurd he List.not_mem_nil
  | cons z l ih =>
      rw [insertBehind] at he
      split at he <;> simp only [List.mem_cons] at he ⊢ <;> tauto

theorem mem_insertInFront {l : List ε} (he : e ∈ insertInFront x y l) : e ∈ l ∨ e = y := by
  induction l with
  | nil => exact absurd he List.not_mem_nil
  | cons z l ih =>
      rw [insertInFront] at he
      split at he <;> simp only [List.mem_cons] at he ⊢ <;> tauto

theorem mem_of_mem_eraseBehind {l : List ε} (he : e ∈ eraseBehind x l) : e ∈ l := by
  induction l with
  | nil => exact absurd he List.not_mem_nil
  | cons z l ih =>
      rw [eraseBehind] at he
      split at he
      · rw [List.mem_cons] at he ⊢
        exact he.imp_right List.mem_of_mem_tail
      · rw [List.mem_cons] at he ⊢
        exact he.imp_right ih

def effect (Q : η → List ε) : Op η ε → η → List ε
  | .init h => Function.update Q h []
  | .insertHead h elm => Function.update Q h (elm :: Q h)
  | .insertTail h elm => Function.update Q h (Q h ++ [elm])
  | .insertAfter h listelm elm => Function.update Q h (insertBehind listelm elm (Q h))
  | .insertBefore h listelm elm => Function.update Q h (insertInFront listelm elm (Q h))
  | .removeHead h => Function.update Q h (Q h).tail
  | .removeAfter h elm => Function.update Q h (eraseBehind elm (Q h))
  | .remove h elm => Function.update Q h ((Q h).erase elm)
  | .concat head1 head2 =>
      Function.update (Function.update Q head1 (Q head1 ++ Q head2)) head2 []
  | .swap head1 head2 => fun k => Q (Equiv.swap head1 head2 k)

/-- What a caller may do: a new element is in no queue, the element named is in the queue. -/
def Allowed (Q : η → List ε) : Op η ε → Prop
  | .init _ => True
  | .insertHead _ elm => ∀ k, elm ∉ Q k
  | .insertTail _ elm => ∀ k, elm ∉ Q k
  | .insertAfter h listelm elm => listelm ∈ Q h ∧ ∀ k, elm ∉ Q k
  | .insertBefore h listelm elm => listelm ∈ Q h ∧ ∀ k, elm ∉ Q k
  | .removeHead h => Q h ≠ []
  | .removeAfter h elm => elm ∈ Q h ∧ (Q h).getLast? ≠ some elm
  | .remove h elm => elm ∈ Q h
  | .concat head1 head2 => head1 ≠ head2
  | .swap _ _ => True

instance [Fintype η] (Q : η → List ε) : ∀ op, Decidable (Allowed Q op)
  | .init _ => isTrue trivial
  | .insertHead _ elm => inferInstanceAs (Decidable (∀ k, elm ∉ Q k))
  | .insertTail _ elm => inferInstanceAs (Decidable (∀ k, elm ∉ Q k))
  | .insertAfter h listelm elm => inferInstanceAs (Decidable (listelm ∈ Q h ∧ ∀ k, elm ∉ Q k))
  | .insertBefore h listelm elm => inferInstanceAs (Decidable (listelm ∈ Q h ∧ ∀ k, elm ∉ Q k))
  | .removeHead h => inferInstanceAs (Decidable (Q h ≠ []))
  | .removeAfter h elm => inferInstanceAs (Decidable (elm ∈ Q h ∧ (Q h).getLast? ≠ some elm))
  | .remove h elm => inferInstanceAs (Decidable (elm ∈ Q h))
  | .concat head1 head2 => inferInstanceAs (Decidable (head1 ≠ head2))
  | .swap _ _ => isTrue trivial

/-- Nothing comes into the queues but what is inserted. -/
theorem mem_effect (he : e ∈ effect Q op k) : (∃ k, e ∈ Q k) ∨ op.inserted = some e := by
  cases op with
  | init h =>
      rcases mem_update he with he | he
      · exact absurd he List.not_mem_nil
      · exact .inl he
  | insertHead h elm =>
      rcases mem_update he with he | he
      · rcases List.mem_cons.mp he with rfl | he
        · exact .inr rfl
        · exact .inl ⟨h, he⟩
      · exact .inl he
  | insertTail h elm =>
      rcases mem_update he with he | he
      · rcases List.mem_append.mp he with he | he
        · exact .inl ⟨h, he⟩
        · exact .inr (congrArg some (List.mem_singleton.mp he).symm)
      · exact .inl he
  | insertAfter h listelm elm =>
      rcases mem_update he with he | he
      · rcases mem_insertBehind he with he | rfl
        · exact .inl ⟨h, he⟩
        · exact .inr rfl
      · exact .inl he
  | insertBefore h listelm elm =>
      rcases mem_update he with he | he
      · rcases mem_insertInFront he with he | rfl
        · exact .inl ⟨h, he⟩
        · exact .inr rfl
      · exact .inl he
  | removeHead h =>
      rcases mem_update he with he | he
      · exact .inl ⟨h, List.mem_of_mem_tail he⟩
      · exact .inl he
  | removeAfter h elm =>
      rcases mem_update he with he | he
      · exact .inl ⟨h, mem_of_mem_eraseBehind he⟩
      · exact .inl he
  | remove h elm =>
      rcases mem_update he with he | he
      · exact .inl ⟨h, List.mem_of_mem_erase he⟩
      · exact .inl he
  | concat h₁ h₂ =>
      rcases mem_update he with he | ⟨k, he⟩
      · exact absurd he List.not_mem_nil
      · rcases mem_update he with he | he
        · rcases List.mem_append.mp he with he | he
          · exact .inl ⟨h₁, he⟩
          · exact .inl ⟨h₂, he⟩
        · exact .inl he
  | swap h₁ h₂ => exact .inl ⟨_, he⟩

end Effect

/-! ## Sessions -/

structure Session (μ η ε : Type) where
  memory : μ
  queues : η → List ε

variable {μ : Type} {exec : μ → Op η ε → Option μ} {has : Op η ε → Bool}
  {Holds : μ → (η → List ε) → Prop} {s : Session μ η ε} {past ops : List (Op η ε)}

def start (M : μ) : Session μ η ε := ⟨M, fun _ => []⟩

/-- The memory holds the queues, and they are no longer than the run. -/
structure Sound (Holds : μ → (η → List ε) → Prop) (past : List (Op η ε))
    (s : Session μ η ε) : Prop where
  holds : Holds s.memory s.queues
  nodup : ∀ h, (s.queues h).Nodup
  bounded : ∃ l : List ε, l.length ≤ past.length ∧ ∀ h, ∀ e ∈ s.queues h, e ∈ l

theorem Sound.length_le (hs : Sound Holds past s) (h : η) :
    (s.queues h).length ≤ past.length := by
  obtain ⟨l, hlength, hmem⟩ := hs.bounded
  exact ((hs.nodup h).subperm (hmem h)).length_le.trans hlength

variable [DecidableEq η] [DecidableEq ε]

def step (exec : μ → Op η ε → Option μ) (s : Session μ η ε) (op : Op η ε) :
    Option (Session μ η ε) := do
  let M ← exec s.memory op
  some ⟨M, effect s.queues op⟩

/-- The macro exists, and the caller may call it. -/
def Callable (has : Op η ε → Bool) (s : Session μ η ε) (op : Op η ε) : Prop :=
  has op ∧ Allowed s.queues op

instance [Fintype η] (has : Op η ε → Bool) (s : Session μ η ε) (op : Op η ε) :
    Decidable (Callable has s op) :=
  inferInstanceAs (Decidable (has op ∧ Allowed s.queues op))

namespace Sound

theorem next {M' : μ} (hs : Sound Holds past s) (hM' : Holds M' (effect s.queues op))
    (hnodup : ∀ h, (effect s.queues op h).Nodup) :
    Sound Holds (past ++ [op]) ⟨M', effect s.queues op⟩ := by
  obtain ⟨l, hlength, hmem⟩ := hs.bounded
  refine ⟨hM', hnodup, op.inserted.toList ++ l, ?_, ?_⟩
  · cases op.inserted <;> simp <;> omega
  · intro k e he
    rcases mem_effect he with ⟨k, he⟩ | hnew
    · exact List.mem_append_right _ (hmem k e he)
    · simp [hnew]

/-- A structure whose macros have their effect has it after every run. -/
theorem run {bound : Nat} (hs : Sound Holds [] s)
    (hexec : ∀ {M Q op}, Holds M Q → has op → Allowed Q op → (∀ h, (Q h).length ≤ bound) →
      ∃ M', exec M op = some M' ∧ Holds M' (effect Q op) ∧ ∀ h, (effect Q op h).Nodup)
    (hbound : ops.length ≤ bound) (hcall : Along (step exec) (Callable has) s ops) :
    ∃ s', Foundation.run (step exec) s ops = some s' ∧ Sound Holds ops s' := by
  apply hcall.run_total (Sound Holds) ops.length _ [] (by simp) hs
  intro past s op hpast hs hop
  have hlength : ∀ h, (s.queues h).length ≤ bound :=
    fun h => (hs.length_le h).trans (hpast.le.trans hbound)
  obtain ⟨M', hrun, hM', hnodup⟩ := hexec hs.holds hop.1 hop.2 hlength
  exact ⟨⟨M', effect s.queues op⟩, by simp [step, hrun], hs.next hM' hnodup⟩

end Sound

end Libnc.Queue
