import Libnc.Sds.Operations

/-!
# Decimal numbers

`sdsfromlonglong` fills a buffer of 32 bytes from its end.  The digits and the
sign of every `long long` fit, and they denote the number; only the least one
has no absolute value in a `long long`.
-/

namespace Libnc.Sds

open Libnc.Foundation Blocks

/-- The values of a `long long`. -/
def LongLong (value : Int) : Prop := -9223372036854775808 ≤ value ∧ value ≤ 9223372036854775807

instance (value : Int) : Decidable (LongLong value) := inferInstanceAs (Decidable (_ ∧ _))

/-- `*p = c` in the local buffer, where an uninitialized byte is `none`. -/
def storeByte (buf : List (Option UInt8)) (p : Int) (c : UInt8) : Option (List (Option UInt8)) :=
  if 0 ≤ p ∧ p < buf.length then some (buf.set p.toNat (some c)) else none

/-- The loop leaves the buffer before it has made more rounds than the buffer has bytes. -/
def digitLoop : Nat → List (Option UInt8) → Int → Nat → Option (List (Option UInt8) × Int)
  | 0, _, _, _ => none
  | fuel + 1, buf, p, v => do
      let buf ← storeByte buf p (48 + (v % 10).toUInt8)
      let v := v / 10
      if v ≠ 0 then digitLoop fuel buf (p - 1) v else some (buf, p - 1)

/-- The digits and the sign in the buffer, and the pointer before them. -/
def fill (value : Int) (v : Nat) : Option (List (Option UInt8) × Int) := do
  let (buf, p) ← digitLoop 33 (List.replicate 32 none) 31 v
  if value < 0 then (storeByte buf p 45).map fun buf => (buf, p - 1) else some (buf, p)

def digits (v : Nat) : List UInt8 := (Nat.toDigits 10 v).map fun c => c.toNat.toUInt8

def decimal (value : Int) : List UInt8 :=
  if value < 0 then 45 :: digits value.natAbs else digits value.natAbs

variable {malloc : Allocator} {h : Heap} {v r : Nat} {value : Int} {tail : List UInt8}

theorem digit_byte : ∀ d < 10, d.digitChar.toNat.toUInt8 = 48 + d.toUInt8 := by decide

theorem digits_eq (v : Nat) :
    digits v = (if v < 10 then [] else digits (v / 10)) ++ [48 + (v % 10).toUInt8] := by
  unfold digits
  rw [Nat.toDigits_eq_if (by decide)]
  split
  · rename_i hlt
    rw [Nat.mod_eq_of_lt hlt]
    simp [digit_byte v hlt]
  · simp [digit_byte (v % 10) (Nat.mod_lt _ (by decide))]

theorem digits_length_pos (v : Nat) : 0 < (digits v).length := by
  rw [digits_eq, List.length_append, List.length_singleton]
  omega

theorem storeByte_free (c : UInt8) (tail : List UInt8) (r : Nat) :
    storeByte (List.replicate (r + 1) none ++ tail.map some) r c =
      some (List.replicate r none ++ (c :: tail).map some) := by
  unfold storeByte
  rw [if_pos (by simp; omega), List.replicate_succ', List.append_assoc]
  congr 1
  rw [Int.toNat_natCast, List.set_append_right _ _ (by simp)]
  simp

/-- The digits are put in front of what is in the buffer. -/
theorem digitLoop_spec (tail : List UInt8) {fuel : Nat} (hfit : (digits v).length ≤ r)
    (hfuel : (digits v).length ≤ fuel) :
    digitLoop fuel (List.replicate r none ++ tail.map some) ((r : Int) - 1) v =
      some (List.replicate (r - (digits v).length) none ++ (digits v ++ tail).map some,
        ((r - (digits v).length : Nat) : Int) - 1) := by
  induction fuel generalizing v r tail with
  | zero =>
      have := digits_length_pos v
      omega
  | succ fuel ih =>
      obtain ⟨r, rfl⟩ : ∃ k, r = k + 1 := ⟨r - 1, by have := digits_length_pos v; omega⟩
      have hp : ((r + 1 : Nat) : Int) - 1 = r := by omega
      rw [digits_eq] at hfit hfuel ⊢
      rw [List.length_append, List.length_singleton] at hfit hfuel ⊢
      unfold digitLoop
      rw [hp, storeByte_free]
      by_cases hlt : v < 10
      · have hzero : v / 10 = 0 := by omega
        simp [hlt, hzero]
      · have hne : v / 10 ≠ 0 := by omega
        simp only [hlt, if_false] at hfit hfuel ⊢
        have := ih ((48 + (v % 10).toUInt8) :: tail) (v := v / 10) (r := r) (by omega)
          (by omega)
        simp only [Option.bind_eq_bind, Option.bind_some, hne, ne_eq, not_false_eq_true, if_true,
          this]
        simp [Nat.add_sub_add_right]

theorem decimal_length_le (hvalue : LongLong value) : (decimal value).length ≤ 20 := by
  have hdigits : (digits value.natAbs).length ≤ 19 := by
    unfold digits
    rw [List.length_map, Nat.length_toDigits_le_iff (by decide) (by decide)]
    obtain ⟨hlow, hhigh⟩ := hvalue
    omega
  unfold decimal
  split
  · rw [List.length_cons]
    omega
  · omega

/-- The digits and the sign fill the end of the buffer. -/
theorem fill_spec (hvalue : LongLong value) :
    fill value value.natAbs = some
      (List.replicate (32 - (decimal value).length) none ++ (decimal value).map some,
        ((32 - (decimal value).length : Nat) : Int) - 1) := by
  have hlen := decimal_length_le hvalue
  have hpos := digits_length_pos value.natAbs
  unfold fill
  unfold decimal at hlen ⊢
  have hloop (hfit : (digits value.natAbs).length ≤ 32)
      (hfuel : (digits value.natAbs).length ≤ 33) :=
    digitLoop_spec [] hfit hfuel
  split
  · rename_i hneg
    rw [if_pos hneg, List.length_cons] at hlen
    have hloop := hloop (by omega) (by omega)
    obtain ⟨r, hr⟩ : ∃ r, 32 - (digits value.natAbs).length = r + 1 :=
      ⟨31 - (digits value.natAbs).length, by omega⟩
    have hr' : 32 - ((digits value.natAbs).length + 1) = r := by omega
    have hp : ((r + 1 : Nat) : Int) - 1 = r := by omega
    simp only [List.map_nil, List.append_nil] at hloop
    rw [show ((32 : Nat) : Int) - 1 = 31 from rfl, hr, hp] at hloop
    simp only [hloop, Option.bind_eq_bind, Option.bind_some, storeByte_free, List.length_cons, hr']
    rfl
  · rename_i hnonneg
    rw [if_neg hnonneg] at hlen
    have hloop := hloop (by omega) (by omega)
    simp only [List.map_nil, List.append_nil] at hloop
    rw [show ((32 : Nat) : Int) - 1 = 31 from rfl] at hloop
    simp only [hloop, Option.bind_eq_bind, Option.bind_some]

end Libnc.Sds
