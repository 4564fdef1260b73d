import Hexley.Lib.Bytes

/-!
The bits of a byte memory and of the words that are put together from it.

Bit `i` of a memory is bit `i % 8` of byte `i / 8`, the least significant
bit of a byte first. A program that packs fields into bytes works on words
with shifts and masks; what it does is said bit by bit, where a mask is a
comparison and a shift a subtraction.
-/

namespace Hexley.Lib

def Mem.bit (m : Mem) (i : ℕ) : Bool := (m (i / 8)).toBitVec.getLsbD (i % 8)

theorem Mem.bit_add (m : Mem) (p : ℕ) {b : ℕ} (hb : b < 8) :
    m.bit (8 * p + b) = (m p).toBitVec.getLsbD b := by
  rw [Mem.bit, show (8 * p + b) / 8 = p by omega, show (8 * p + b) % 8 = b by omega]

theorem Mem.bit_write (m : Mem) (p : ℕ) (v : UInt8) (i : ℕ) :
    (m.write p [v]).bit i = if i / 8 = p then v.toBitVec.getLsbD (i % 8) else m.bit i := by
  unfold Mem.bit
  split
  · next h => simp [h, Mem.write]
  · next h =>
    rcases Nat.lt_or_gt_of_ne h with h | h
    · rw [Mem.write_of_lt h]
    · rw [Mem.write_of_le (by rw [List.length_singleton]; omega)]

section Word

variable {w : ℕ}

def lowMask (w k : ℕ) : BitVec w := (1#w <<< k) - 1#w

theorem getLsbD_lowMask (k i : ℕ) :
    (lowMask w k).getLsbD i = (decide (i < w) && decide (i < k)) := by
  by_cases hi : i < w
  swap
  · rw [BitVec.getLsbD_of_ge _ _ (Nat.le_of_not_lt hi)]
    simp [hi]
  have hw : 0 < w := Nat.zero_lt_of_lt hi
  have hone : 1 < 2 ^ w := Nat.one_lt_two_pow hw.ne'
  have hlow : (lowMask w k).toNat = if k < w then 2 ^ k - 1 else 2 ^ w - 1 := by
    rw [lowMask, BitVec.toNat_sub, BitVec.toNat_shiftLeft, BitVec.toNat_ofNat,
      Nat.mod_eq_of_lt hone, Nat.shiftLeft_eq, one_mul]
    split
    · next hk =>
      have hlt : 2 ^ k < 2 ^ w := Nat.pow_lt_pow_right (by decide) hk
      have hpos : 0 < 2 ^ k := Nat.two_pow_pos k
      rw [Nat.mod_eq_of_lt hlt, show 2 ^ w - 1 + 2 ^ k = 2 ^ k - 1 + 2 ^ w by omega,
        Nat.add_mod_right, Nat.mod_eq_of_lt (by omega)]
    · next hk =>
      rw [Nat.mod_eq_zero_of_dvd (Nat.pow_dvd_pow 2 (not_lt.mp hk)), add_zero,
        Nat.mod_eq_of_lt (by omega)]
  rw [BitVec.getLsbD, hlow]
  split
  · next hk => rw [Nat.testBit_two_pow_sub_one]; simp [hi]
  · next hk => rw [Nat.testBit_two_pow_sub_one]; simp [hi, show i < k by omega]

end Word

end Hexley.Lib
