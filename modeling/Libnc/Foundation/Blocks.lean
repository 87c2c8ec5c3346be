import Mathlib.Logic.Function.Basic

/-!
# A heap of blocks

The allocator answers its calls in order, each with NULL or with the garbage
found in the new block.  A block is named by the number of the call that made
it, so that a released block never comes back under its old name.  A heap is
described by a frame and the one block that lies beside it.
-/

namespace Libnc.Foundation

variable {β γ : Type*}

structure Blocks (β : Type*) where
  calls : Nat
  block : Nat → Option β
  fresh : ∀ p, calls ≤ p → block p = none

namespace Blocks

/-- A heap on which no call has been made. -/
def empty : Blocks β := ⟨0, fun _ => none, fun _ _ => rfl⟩

/-- A call that the allocator answers with NULL. -/
def refused (h : Blocks β) : Blocks β :=
  ⟨h.calls + 1, h.block, fun p hp => h.fresh p (Nat.le_of_succ_le hp)⟩

/-- The next call brings the block `b`. -/
def push (h : Blocks β) (b : β) : Blocks β where
  calls := h.calls + 1
  block := Function.update h.block h.calls (some b)
  fresh p hp := by
    rw [Function.update_of_ne (Nat.ne_of_gt hp)]
    exact h.fresh p (Nat.le_of_succ_le hp)

def release (h : Blocks β) (p : Nat) : Blocks β where
  calls := h.calls
  block := Function.update h.block p none
  fresh q hq := by
    rcases eq_or_ne q p with rfl | hne
    · exact Function.update_self ..
    · rw [Function.update_of_ne hne]
      exact h.fresh q hq

/-- A write to the block `p`, without effect when there is no such block. -/
def store (h : Blocks β) (p : Nat) (b : β) : Blocks β where
  calls := h.calls
  block q := if q = p then (h.block q).map fun _ => b else h.block q
  fresh q hq := by simp [h.fresh q hq]

def alloc (answers : Nat → Option γ) (h : Blocks β) (make : γ → β) : Blocks β × Option Nat :=
  match answers h.calls with
  | none => (h.refused, none)
  | some g => (h.push (make g), some h.calls)

/-- Releasing what is not a block has no result. -/
def free (h : Blocks β) (p : Nat) : Option (Blocks β) :=
  (h.block p).map fun _ => h.release p

/-- A block of another size takes the place of `p`; a refusal leaves `p` as it is. -/
def realloc (answers : Nat → Option γ) (h : Blocks β) (p : Nat) (make : β → γ → β) :
    Option (Blocks β × Option Nat) :=
  (h.block p).map fun b =>
    match h.alloc answers (make b) with
    | (h', none) => (h', none)
    | (h', some q) => (h'.release p, some q)

variable {answers : Nat → Option γ} {h : Blocks β} {F : Nat → Option β} {p q : Nat} {b b' : β}

@[simp] theorem push_block :
    (h.push b).block = Function.update h.block h.calls (some b) := rfl

@[simp] theorem release_block : (h.release p).block = Function.update h.block p none := rfl

theorem alloc_of_none {make : γ → β} (ha : answers h.calls = none) :
    h.alloc answers make = (h.refused, none) := by
  simp [alloc, ha]

theorem alloc_of_some {make : γ → β} {g : γ} (ha : answers h.calls = some g) :
    h.alloc answers make = (h.push (make g), some h.calls) := by
  simp [alloc, ha]

/-! ## One block beside a frame -/

/-- The heap consists of the blocks of `F` and of the block `p`, which holds `b`. -/
structure Cell (h : Blocks β) (F : Nat → Option β) (p : Nat) (b : β) : Prop where
  block : h.block = Function.update F p (some b)
  absent : F p = none

theorem Cell.get (hc : Cell h F p b) : h.block p = some b := by
  rw [hc.block, Function.update_self]

theorem Cell.frame (hc : Cell h F p b) (hq : F q = some b') : h.block q = some b' := by
  rw [hc.block, Function.update_of_ne, hq]
  rintro rfl
  exact absurd hc.absent (by simp [hq])

theorem Cell.frame_eq (hc : Cell h F p b) (hq : q ≠ p) : h.block q = F q := by
  rw [hc.block, Function.update_of_ne hq]

theorem Cell.frame_none (hc : Cell h F p b) (hq : h.block q = none) : F q = none := by
  rw [← hq, hc.frame_eq]
  rintro rfl
  simp [hc.get] at hq

/-- The heap without `p` is a frame for `p`. -/
theorem cell_of_get (hb : h.block p = some b) :
    Cell h (Function.update h.block p none) p b := by
  constructor
  · rw [Function.update_idem, ← hb, Function.update_eq_self]
  · exact Function.update_self ..

theorem Cell.frame_fresh (hc : Cell h F p b) : F h.calls = none :=
  hc.frame_none (h.fresh _ (Nat.le_refl _))

theorem cell_push : Cell (h.push b) h.block h.calls b :=
  ⟨rfl, h.fresh _ (Nat.le_refl _)⟩

theorem Cell.store (hc : Cell h F p b) : Cell (h.store p b') F p b' := by
  constructor
  · funext q
    rcases eq_or_ne q p with rfl | hne
    · simp [Blocks.store, hc.get]
    · simp [Blocks.store, hne, hc.frame_eq hne]
  · exact hc.absent

theorem Cell.release (hc : Cell h F p b) : (h.release p).block = F := by
  rw [release_block, hc.block, Function.update_idem, ← hc.absent, Function.update_eq_self]

theorem Cell.free (hc : Cell h F p b) : h.free p = some (h.release p) := by
  simp [Blocks.free, hc.get]

theorem Cell.refused (hc : Cell h F p b) : Cell h.refused F p b :=
  ⟨hc.block, hc.absent⟩

theorem Cell.push_release (b' : β) (hc : Cell h F p b) :
    Cell ((h.push b').release p) F h.calls b' := by
  have hne : h.calls ≠ p := by
    rintro heq
    have := h.fresh p (Nat.le_of_eq heq)
    simp [hc.get] at this
  constructor
  · rw [release_block, push_block, Function.update_comm hne, hc.block, Function.update_idem,
      ← hc.absent, Function.update_eq_self]
  · exact hc.frame_fresh

theorem Cell.realloc_of_none {make : β → γ → β} (hc : Cell h F p b)
    (ha : answers h.calls = none) : h.realloc answers p make = some (h.refused, none) := by
  simp [realloc, hc.get, alloc_of_none ha]

theorem Cell.realloc_of_some {make : β → γ → β} {g : γ} (hc : Cell h F p b)
    (ha : answers h.calls = some g) :
    h.realloc answers p make = some ((h.push (make b g)).release p, some h.calls) := by
  simp [realloc, hc.get, alloc_of_some ha]

/-! ## Two blocks beside a frame -/

/-- A second block joins the frame of the first. -/
theorem Cell.beside {h' : Blocks β} (hc : Cell h F p b) (hq : Cell h' h.block q b') :
    Cell h' (Function.update F q (some b')) p b := by
  have hne : p ≠ q := by
    rintro rfl
    simpa [hc.get] using hq.absent
  constructor
  · rw [hq.block, hc.block, Function.update_comm hne]
  · rw [Function.update_of_ne hne, hc.absent]

theorem Cell.frame_ne (hc : Cell h (Function.update F q (some b')) p b) : p ≠ q := by
  rintro rfl
  simpa using hc.absent

theorem Cell.free_frame (hc : Cell h (Function.update F q (some b')) p b) :
    h.free q = some (h.release q) := by
  simp [Blocks.free, hc.frame (Function.update_self q (some b') F)]

theorem Cell.release_frame (hc : Cell h (Function.update F q (some b')) p b)
    (hq : F q = none) : Cell (h.release q) F p b := by
  have hne := hc.frame_ne
  constructor
  · rw [release_block, hc.block, Function.update_comm hne, Function.update_idem, ← hq,
      Function.update_eq_self]
  · rw [← Function.update_of_ne hne (some b') F, hc.absent]

end Blocks

end Libnc.Foundation
