import Mathlib.Logic.Relation
import Mathlib.Tactic.Common

/-!
Step relations and what holds along their runs.

A run is a chain of steps, `Relation.ReflTransGen` of Mathlib. The rules
here are the two ways in which a development talks about runs: what holds
of every state that a deterministic walk comes to is unfolded one step at a
time, and what every step keeps holds of every state reached.
-/

namespace Hexley.Lib

variable {σ : Type*} {r : σ → σ → Prop} {a b : σ} {P : σ → Prop}

theorem reach_of_no_step (hno : ∀ c, ¬r a c) : (∀ c, Relation.ReflTransGen r a c → P c) ↔ P a := by
  refine ⟨fun h => h a .refl, fun h c hc => ?_⟩
  rcases hc.cases_head with rfl | ⟨d, had, -⟩
  · exact h
  · exact absurd had (hno d)

theorem reach_of_step (hab : r a b) (huniq : ∀ c, r a c → c = b) :
    (∀ c, Relation.ReflTransGen r a c → P c) ↔ P a ∧ ∀ c, Relation.ReflTransGen r b c → P c := by
  refine ⟨fun h => ⟨h a .refl, fun c hc => h c (.head hab hc)⟩, fun h c hc => ?_⟩
  rcases hc.cases_head with rfl | ⟨d, had, hdc⟩
  · exact h.1
  · rw [huniq d had] at hdc
    exact h.2 c hdc

/-- What every step keeps holds along every run. -/
theorem invariant_of_reach (hstep : ∀ s t, P s → r s t → P t) (ha : P a)
    (hab : Relation.ReflTransGen r a b) : P b := by
  induction hab with
  | refl => exact ha
  | tail _ hst ih => exact hstep _ _ ih hst

end Hexley.Lib
