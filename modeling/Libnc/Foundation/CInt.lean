import Mathlib.Data.Int.Basic

/-!
# Fixed-width integers of an LP64 machine

A C `int` is an `Int` reduced to the signed 32-bit range after every operation
and a `size_t` is a `Nat` reduced modulo `2 ^ 64`.  The lemmas say when the
reductions do nothing.
-/

namespace Libnc.Foundation

def intMax : Int := 2147483647

def sizeModulus : Nat := 18446744073709551616

/-- Reduction of an exact result to the signed 32-bit range. -/
def wrapInt (value : Int) : Int := Int.bmod value 4294967296

/-- Conversion of a signed value to `size_t`. -/
def intToSize (value : Int) : Nat := (value % 18446744073709551616).toNat

/-- Product of two `size_t` values. -/
def sizeMul (a b : Nat) : Nat := a * b % sizeModulus

theorem wrapInt_of_range {value : Int} (hlow : 0 ≤ value) (hhigh : value ≤ intMax) :
    wrapInt value = value := by
  simp only [intMax] at hhigh
  simp only [wrapInt, Int.bmod]
  omega

theorem intToSize_of_nonneg {value : Int} (hlow : 0 ≤ value) (hhigh : value ≤ intMax) :
    (intToSize value : Int) = value := by
  simp only [intMax] at hhigh
  simp only [intToSize]
  omega

theorem intToSize_natCast (n : Nat) (h : (n : Int) ≤ intMax) : intToSize n = n := by
  have := intToSize_of_nonneg (Int.natCast_nonneg n) h
  exact_mod_cast this

theorem sizeMul_of_lt {a b : Nat} (h : a * b < sizeModulus) : sizeMul a b = a * b :=
  Nat.mod_eq_of_lt h

theorem sizeMul_comm (a b : Nat) : sizeMul a b = sizeMul b a := by
  simp [sizeMul, Nat.mul_comm]

theorem sizeMul_lt (a b : Nat) : sizeMul a b < sizeModulus :=
  Nat.mod_lt _ (by decide)

end Libnc.Foundation
