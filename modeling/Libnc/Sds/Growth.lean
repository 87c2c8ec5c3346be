import Mathlib.Algebra.Group.Nat.Defs
import Libnc.Sds.Operations

/-!
# Growing

How often a string moves while it grows, and what a string may read from itself:
`sdsMakeRoomFor` moves the block, and a pointer into it is then no longer valid.
-/

namespace Libnc.Sds

open Libnc.Foundation Blocks

/-- The pieces are appended one after the other; a NULL is dereferenced. -/
def appendAll (malloc : Allocator) (h : Heap) (s : Option Nat) :
    List (List UInt8) → Option (Heap × Option Nat)
  | [] => some (h, s)
  | data :: rest => do
      let (h, s) ← sdscatlen malloc h (← s) (.bytes data) data.length
      appendAll malloc h s rest

variable {malloc : Allocator} {h h' : Heap} {F : Nat → Option Block} {s n offset : Nat}
  {text room l data : List UInt8} {k : Nat}

/-! ## Reading from itself -/

/-- The least length of a text that has been moved `k` times by appending. -/
def leastLength (k : Nat) : Nat :=
  if k ≤ 21 then 2 ^ k - 1 else 2097151 + (k - 21) * 1048577

theorem preallocated_mono {a b : Nat} (hab : a ≤ b) : preallocated a ≤ preallocated b := by
  unfold preallocated sdsMaxPrealloc
  split <;> split <;> omega

/-- The next move needs a text that is longer than what the last one made room for. -/
theorem leastLength_succ (k : Nat) : leastLength (k + 1) = preallocated (leastLength k) + 1 := by
  unfold leastLength preallocated sdsMaxPrealloc
  rcases Nat.lt_trichotomy k 21 with hlt | rfl | hgt
  · have hpow : 2 ^ k ≤ 2 ^ 20 := Nat.pow_le_pow_right (by omega) (by omega)
    have hpos := Nat.two_pow_pos k
    rw [if_pos (show k + 1 ≤ 21 by omega), if_pos (show k ≤ 21 by omega), Nat.pow_succ]
    rw [if_pos (by omega)]
    omega
  · decide
  · rw [if_neg (show ¬ k + 1 ≤ 21 by omega), if_neg (show ¬ k ≤ 21 by omega)]
    rw [if_neg (by omega)]
    omega

/-- After `k` moves the text is long enough, and so is the room that the last one has made. -/
structure Moved (h : Heap) (F : Nat → Option Block) (s k : Nat) (text room : List UInt8) :
    Prop where
  holds : Holds h F s text room
  long : leastLength k ≤ text.length
  capacity : preallocated (leastLength k) ≤ text.length + room.length

theorem Moved.append (hm : Reliable malloc) (data : List UInt8) (hs : Moved h F s k text room)
    (hb : text.length + data.length ≤ maxText) :
    ∃ h' s' k' room', sdscatlen malloc h s (.bytes data) data.length = some (h', some s') ∧
      h'.calls + k = h.calls + k' ∧ Moved h' F s' k' (text ++ data) room' := by
  obtain ⟨r, hmake, hr⟩ := sdsMakeRoomFor_spec malloc hs.holds (n := data.length) (fun _ => hb)
  have hlong := hs.long
  have hcap := hs.capacity
  cases hr with
  | avail hroom =>
      obtain ⟨h', hrun, hcalls, hs'⟩ := sdscatlen_of_room (t := .bytes data) hs.holds hmake
        hs.holds hroom (l := data) (by simp [memcpy, read, readable]) rfl
      refine ⟨h', s, k, _, hrun, by omega, hs', ?_, ?_⟩
      · rw [List.length_append]
        omega
      · rw [List.length_append, List.length_drop]
        omega
  | null hroom ha =>
      have := hm h.calls
      simp [ha] at this
  | grown h₁ room₁ hroom _ hs₁ hcalls₁ hcap₁ =>
      have hle := le_preallocated (text.length + data.length)
      obtain ⟨h', hrun, hcalls, hs'⟩ := sdscatlen_of_room (t := .bytes data) hs.holds hmake
        hs₁ (by omega) (l := data) (by simp [memcpy, read, readable]) rfl
      have hnext : leastLength (k + 1) ≤ text.length + data.length := by
        rw [leastLength_succ]
        omega
      have hmono := preallocated_mono hnext
      refine ⟨h', h.calls, k + 1, _, hrun, by omega, hs', ?_, ?_⟩
      · rw [List.length_append]
        omega
      · rw [List.length_append, List.length_drop]
        omega

theorem Moved.appendAll (hm : Reliable malloc) (pieces : List (List UInt8))
    (hs : Moved h F s k text room) (hb : text.length + pieces.flatten.length ≤ maxText) :
    ∃ h' s' k' room', Sds.appendAll malloc h (some s) pieces = some (h', some s') ∧
      h'.calls + k = h.calls + k' ∧ Moved h' F s' k' (text ++ pieces.flatten) room' := by
  induction pieces generalizing h s k text room with
  | nil => exact ⟨h, s, k, room, rfl, rfl, by simpa using hs⟩
  | cons data pieces ih =>
      rw [List.flatten_cons, List.length_append] at hb
      obtain ⟨h₁, s₁, k₁, room₁, hrun₁, hcalls₁, hs₁⟩ := hs.append hm data (by omega)
      obtain ⟨h₂, s₂, k₂, room₂, hrun₂, hcalls₂, hs₂⟩ := ih hs₁ (by
        rw [List.length_append]
        omega)
      refine ⟨h₂, s₂, k₂, room₂, ?_, by omega, by simpa using hs₂⟩
      simp [Sds.appendAll, hrun₁, hrun₂]

/--
However a text is cut into appended pieces, the block is moved a logarithmic
number of times up to two megabytes and once for each further megabyte.
-/
theorem appendAll_moves (hm : Reliable malloc) (pieces : List (List UInt8))
    (hs : Holds h F s text room) (hb : text.length + pieces.flatten.length ≤ maxText) :
    ∃ h' s' moves room', appendAll malloc h (some s) pieces = some (h', some s') ∧
      Holds h' F s' (text ++ pieces.flatten) room' ∧ h'.calls = h.calls + moves ∧
      (moves ≤ 21 → 2 ^ moves ≤ (text ++ pieces.flatten).length + 1) ∧
      (21 < moves → 2097151 + (moves - 21) * 1048577 ≤ (text ++ pieces.flatten).length) := by
  have hstart : Moved h F s 0 text room := ⟨hs, Nat.zero_le _, Nat.zero_le _⟩
  obtain ⟨h', s', k, room', hrun, hcalls, hs'⟩ := hstart.appendAll hm pieces hb
  have hlong := hs'.long
  unfold leastLength at hlong
  refine ⟨h', s', k, room', hrun, hs'.holds, by omega, fun hk => ?_, fun hk => ?_⟩
  · rw [if_pos hk] at hlong
    omega
  · rw [if_neg (by omega)] at hlong
    exact hlong

theorem appendAll_moves_twice :
    ∃ h' s' moves room', appendAll zeros (single [1] []) (some 0) [[2], [3, 4], [5, 6]] =
        some (h', some s') ∧
      Holds h' (fun _ => none) s' ([1] ++ [[2], [3, 4], [5, 6]].flatten) room' ∧
      h'.calls = (single [1] []).calls + moves ∧
      (moves ≤ 21 → 2 ^ moves ≤ ([1] ++ [[2], [3, 4], [5, 6]].flatten : List UInt8).length + 1) ∧
      (21 < moves → 2097151 + (moves - 21) * 1048577 ≤
        ([1] ++ [[2], [3, 4], [5, 6]].flatten : List UInt8).length) :=
  appendAll_moves zeros_reliable _ (single_holds (by decide)) (by decide)

end Libnc.Sds
