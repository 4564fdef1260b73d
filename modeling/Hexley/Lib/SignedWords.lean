import Mathlib.Algebra.Order.Ring.Nat
import Mathlib.Data.Int.Init

/-!
Signed 32-bit arithmetic that stays in range.

The operations of `Int32` are those of the integers followed by a reduction
into the range of the type. Where the exact result is in the range already,
they are those of the integers.
-/

namespace Hexley.Lib

def InS32 (x : ℤ) : Prop := -2 ^ 31 ≤ x ∧ x < 2 ^ 31

theorem inS32_toInt (x : Int32) : InS32 x.toInt := ⟨x.le_toInt, x.toInt_lt⟩

theorem InS32.bmod {x : ℤ} (h : InS32 x) : x.bmod (2 ^ 32) = x := by
  obtain ⟨h₁, h₂⟩ := h
  exact Int.bmod_eq_of_le (by omega) (by omega)

section

variable {x y : Int32}

theorem toInt_add_of_inS32 (h : InS32 (x.toInt + y.toInt)) : (x + y).toInt = x.toInt + y.toInt := by
  rw [Int32.toInt_add, h.bmod]

theorem toInt_sub_of_inS32 (h : InS32 (x.toInt - y.toInt)) : (x - y).toInt = x.toInt - y.toInt := by
  rw [Int32.toInt_sub, h.bmod]

theorem toInt_mul_of_inS32 (h : InS32 (x.toInt * y.toInt)) : (x * y).toInt = x.toInt * y.toInt := by
  rw [Int32.toInt_mul, h.bmod]

end

theorem toInt_toInt32 (x : UInt32) : x.toInt32.toInt = (x.toNat : ℤ).bmod (2 ^ 32) :=
  BitVec.toInt_eq_toNat_bmod _

theorem toInt_toInt32_of_lt {x : UInt32} (h : x.toNat < 2 ^ 31) : x.toInt32.toInt = x.toNat := by
  rw [toInt_toInt32]
  exact InS32.bmod ⟨by omega, by omega⟩

theorem toInt_ofNat_of_lt {n : ℕ} (h : n < 2 ^ 31) : (Int32.ofNat n).toInt = n :=
  Int32.toInt_ofNat_of_lt h

theorem toNat_toUInt32_ofNat {n : ℕ} (h : n < 2 ^ 31) : (Int32.ofNat n).toUInt32.toNat = n := by
  have hn : 0 ≤ (Int32.ofNat n).toInt := by rw [toInt_ofNat_of_lt h]; omega
  rw [Int32.toNat_toUInt32_of_le (Int32.le_iff_toInt_le.2 hn), ← Int32.toNat_toInt,
    toInt_ofNat_of_lt h, Int.toNat_natCast]

end Hexley.Lib
