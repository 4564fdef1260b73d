import Mathlib.Algebra.Order.Ring.Nat
import Mathlib.Logic.Function.Iterate
import Mathlib.Tactic.Ring

/-!
Linear congruential generators modulo a power of two.

A generator goes from `x` to `a * x + c`. With `a = 1 (mod 4)` and `c` odd,
`2 ^ k` steps flip bit `k` of the state and leave the bits below as they
are, so the generator cannot avoid a residue modulo `2 ^ k` for more than
`2 ^ k` steps. A loop that draws until the masked value is small enough
therefore ends.
-/

namespace Hexley.Lib

/-- One step of the generator with multiplier `4 * a + 1` and increment
`2 * c + 1`. -/
def congruential (a c x : ℕ) : ℕ := (4 * a + 1) * x + (2 * c + 1)

variable {a c : ℕ}

theorem congruential_two_pow (a c k : ℕ) : ∃ t s, ∀ x, (congruential a c)^[2 ^ k] x =
      (4 * 2 ^ k * t + 1) * x + 2 ^ k * (2 * s + 1) := by
  induction k with
  | zero => exact ⟨a, c, fun x => by simp [congruential]⟩
  | succ k ih =>
    obtain ⟨t, s, h⟩ := ih
    refine ⟨t + 2 * 2 ^ k * t * t, s + 2 * 2 ^ k * t * s + 2 ^ k * t, fun x => ?_⟩
    rw [pow_succ, mul_two, Function.iterate_add_apply, h, h]
    ring

/-- Within `2 ^ k` steps the generator meets a multiple of `2 ^ k`. -/
theorem congruential_meets_zero (a c k x : ℕ) :
    ∃ n, n < 2 ^ k ∧ 2 ^ k ∣ (congruential a c)^[n + 1] x := by
  induction k with
  | zero => exact ⟨0, by simp, by simp⟩
  | succ k ih =>
    obtain ⟨n, hn, y, hy⟩ := ih
    obtain ⟨t, s, h⟩ := congruential_two_pow a c k
    rcases Nat.even_or_odd' y with ⟨z, rfl | rfl⟩
    · exact ⟨n, by rw [pow_succ]; omega, z, by rw [hy, pow_succ]; ring⟩
    · -- bit `k` is set, and another `2 ^ k` steps flip it
      refine ⟨2 ^ k + n, by rw [pow_succ]; omega, 2 * 2 ^ k * t * (2 * z + 1) + z + s + 1, ?_⟩
      rw [add_assoc, Function.iterate_add_apply, hy, h, pow_succ]
      ring

end Hexley.Lib
