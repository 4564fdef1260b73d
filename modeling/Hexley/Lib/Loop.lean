import Mathlib.Tactic.Common

/-!
Loops of programs that can fault.

A program that may touch only some places of memory is modelled by a
function into `Option`, where `none` stands for an access outside of them.
A `while` loop of such a program repeats a body that either goes on or
breaks. The recursion is on a fuel argument, and a loop that runs out of
fuel is counted as a fault, so that a result is a promise of three things:
the loop ends, it stays in bounds, and its last state is this one.

The rule is the usual one. An invariant and a measure that the body lowers
give a result, and the postcondition holds of it.
-/

namespace Hexley.Lib

variable {σ : Type}

/-- `while (cond) body`, where the body says with `true` that the loop goes
on and with `false` that it is left. -/
def checkedWhile (cond : σ → Bool) (body : σ → Option (Bool × σ)) : ℕ → σ → Option σ
  | 0, s => if cond s then none else some s
  | fuel + 1, s =>
    if cond s then
      match body s with
      | none => none
      | some (false, s) => some s
      | some (true, s) => checkedWhile cond body fuel s
    else some s

section

variable {cond : σ → Bool} {body : σ → Option (Bool × σ)} {fuel : ℕ} {s s' : σ}

theorem while_exit (hc : cond s = false) : checkedWhile cond body fuel s = some s := by
  cases fuel <;> simp [checkedWhile, hc]

theorem while_break (hc : cond s = true) (hb : body s = some (false, s')) :
    checkedWhile cond body (fuel + 1) s = some s' := by
  simp [checkedWhile, hc, hb]

theorem while_continue (hc : cond s = true) (hb : body s = some (true, s')) :
    checkedWhile cond body (fuel + 1) s = checkedWhile cond body fuel s' := by
  simp [checkedWhile, hc, hb]

/-- The rule for a loop with an invariant and a measure. -/
theorem while_rule (Inv Post : σ → Prop) (measure : σ → ℕ) (hbody : ∀ s, Inv s → cond s = true →
      (∃ s', body s = some (true, s') ∧ Inv s' ∧ measure s' < measure s) ∨
        ∃ s', body s = some (false, s') ∧ Post s')
    (hexit : ∀ s, Inv s → cond s = false → Post s) (hs : Inv s) (hfuel : measure s < fuel) :
    ∃ s', checkedWhile cond body fuel s = some s' ∧ Post s' := by
  induction fuel generalizing s with
  | zero => exact absurd hfuel (Nat.not_lt_zero _)
  | succ fuel ih =>
    cases hc : cond s with
    | false => exact ⟨s, while_exit hc, hexit s hs hc⟩
    | true =>
      rcases hbody s hs hc with ⟨s', hb, hs', hlt⟩ | ⟨s', hb, hpost⟩
      · rw [while_continue hc hb]
        exact ih hs' (by omega)
      · exact ⟨s', while_break hc hb, hpost⟩

end

end Hexley.Lib
