import Mathlib.Data.List.Perm.Basic
import Mathlib.Order.MinMax
import Mathlib.Tactic.Common
import Mathlib.Tactic.Order

/-!
Combining the elements of a list that has some.

The first element is the start and the others are taken in turn, as in a
program that keeps the first record it sees and merges the later ones into
it. The order of the list is of no importance if the operation is
commutative and can take two elements in either order, and this has to hold
only for elements of a kind that the operation stays in.
-/

namespace Hexley.Lib

open List

variable {α : Type} {op : α → α → α} {d : α} {P : α → Prop}

def fold1 (op : α → α → α) (d : α) : List α → α
  | [] => d
  | a :: as => as.foldl op a

theorem fold1_perm (hcomm : ∀ a b, P a → P b → op a b = op b a)
    (hright : ∀ a b c, op (op a b) c = op (op a c) b) {as bs : List α} (h : as.Perm bs)
    (has : ∀ b ∈ as, P b) : fold1 op d as = fold1 op d bs := by
  induction h with
  | nil => rfl
  | cons a h _ => exact h.foldl_eq' (fun b _ c _ a => hright a b c) a
  | swap a b cs =>
    have hb := has b mem_cons_self
    have ha := has a (mem_cons_of_mem _ mem_cons_self)
    rw [fold1, fold1, foldl_cons, foldl_cons, hcomm b a hb ha]
  | trans h₁ _ ih₁ ih₂ =>
    exact (ih₁ has).trans (ih₂ fun b hb => has b (h₁.mem_iff.mpr hb))

/-! ### Lists combined element by element -/

theorem zipWith_right_comm {g : α → α → α} (hg : ∀ a b c, g (g a b) c = g (g a c) b)
    (as bs cs : List α) :
    zipWith g (zipWith g as bs) cs = zipWith g (zipWith g as cs) bs := by
  induction as generalizing bs cs with
  | nil => rfl
  | cons a as ih =>
    cases bs with
    | nil => cases cs <;> rfl
    | cons b bs =>
      cases cs with
      | nil => rfl
      | cons c cs =>
        simp only [zipWith_cons_cons]
        rw [hg, ih]

theorem zipWith_replicate_left {g : α → α → α} {z : α} (hz : ∀ a, g z a = a) (as : List α) :
    zipWith g (replicate as.length z) as = as := by
  induction as with
  | nil => rfl
  | cons a as ih => rw [length_cons, replicate_succ, zipWith_cons_cons, hz, ih]

theorem foldl_zipWith_singleton (g : α → α → α) (a : α) (as : List α) :
    (as.map fun b => [b]).foldl (zipWith g) [a] = [as.foldl g a] := by
  induction as generalizing a with
  | nil => rfl
  | cons b bs ih => exact ih (g a b)

theorem exists_eq_map_singleton {ls : List (List α)} (h : ∀ l ∈ ls, l.length = 1) :
    ∃ as : List α, ls = as.map fun a => [a] := by
  induction ls with
  | nil => exact ⟨[], rfl⟩
  | cons l ls ih =>
    obtain ⟨a, rfl⟩ := length_eq_one_iff.mp (h l mem_cons_self)
    obtain ⟨as, rfl⟩ := ih (forall_mem_cons.mp h).2
    exact ⟨a :: as, rfl⟩

/-! ### The best element -/

section Pick

variable {β : Type} [LinearOrder β] (f : α → β)

/-- The element for which `f` is smaller, and the first one if it is the same for both. -/
def pick (a b : α) : α := if f b < f a then b else a

theorem apply_pick (a b : α) : f (pick f a b) = min (f a) (f b) := by
  unfold pick
  split
  · next h => exact (min_eq_right h.le).symm
  · next h => exact (min_eq_left (not_lt.mp h)).symm

theorem apply_foldl_pick_le_iff {c : β} {a : α} {as : List α} :
    f (as.foldl (pick f) a) ≤ c ↔ ∃ b ∈ a :: as, f b ≤ c := by
  induction as generalizing a with
  | nil => simp
  | cons b bs ih =>
    rw [foldl_cons, ih]
    simp only [mem_cons, exists_eq_or_imp, apply_pick, min_le_iff, or_assoc]

theorem foldl_pick (a b : α) (as : List α) :
    as.foldl (pick f) (pick f a b) = pick f a (as.foldl (pick f) b) := by
  induction as generalizing b with
  | nil => rfl
  | cons c cs ih =>
    rw [foldl_cons, foldl_cons, ← ih]
    congr 1
    unfold pick
    split_ifs <;> first | rfl | order

variable {f} (hf : Function.Injective f)

include hf

theorem pick_comm (a b : α) : pick f a b = pick f b a :=
  hf (by rw [apply_pick f, apply_pick f, min_comm])

theorem pick_right_comm (a b c : α) : pick f (pick f a b) c = pick f (pick f a c) b :=
  hf (by rw [apply_pick f, apply_pick f, apply_pick f, apply_pick f, min_right_comm])

theorem foldl_pick_start_iff {a b : α} {bs : List α} :
    (b :: bs).foldl (pick f) a = bs.foldl (pick f) b ↔ ∃ c ∈ b :: bs, f c ≤ f a := by
  rw [← apply_foldl_pick_le_iff, foldl_cons, foldl_pick]
  constructor
  · intro h
    rw [← h, apply_pick f]
    exact min_le_left _ _
  · intro h
    exact hf (by rw [apply_pick f, min_eq_right h])

end Pick

/-! ### A relation along a fold -/

section Along

variable {σ β : Type} {R : σ → σ → Prop} {step : σ → β → σ} (hrefl : ∀ s, R s s)
  (htrans : ∀ s t u, R s t → R t u → R s u)

/-- Each turn of a fold finds a state that `C` allows for it. -/
def EachTurn (C : σ → β → Prop) (step : σ → β → σ) : σ → List β → Prop
  | _, [] => True
  | s, b :: bs => C s b ∧ EachTurn C step (step s b) bs

theorem eachTurn_true (bs : List β) (s : σ) : EachTurn (fun _ _ => True) step s bs := by
  induction bs generalizing s with
  | nil => trivial
  | cons b bs ih => exact ⟨trivial, ih _⟩

include hrefl htrans

section

variable {C : σ → β → Prop} {bs : List β} {s : σ} (hstep : ∀ s b, C s b → R s (step s b))
  (h : EachTurn C step s bs)

include hstep h

theorem EachTurn.foldl : R s (bs.foldl step s) := by
  induction bs generalizing s with
  | nil => exact hrefl s
  | cons b bs ih => exact htrans _ _ _ (hstep s b h.1) (ih h.2)

/-- What the turn of one element establishes in every state on the way, and the later turns
keep, holds in the end. -/
theorem EachTurn.foldl_of_turn {Q : σ → Prop} {b : β} (hb : b ∈ bs)
    (hturn : ∀ t, R s t → C t b → Q (step t b)) (hkeep : ∀ t u, Q t → R t u → Q u) :
    Q (bs.foldl step s) := by
  induction bs generalizing s with
  | nil => exact absurd hb not_mem_nil
  | cons c cs ih =>
    rcases mem_cons.1 hb with rfl | hb
    · exact hkeep _ _ (hturn s (hrefl s) h.1) (EachTurn.foldl hrefl htrans hstep h.2)
    · exact ih h.2 hb fun t ht => hturn t (htrans _ _ _ (hstep s c h.1) ht)

end

theorem foldl_along (hstep : ∀ s b, R s (step s b)) (bs : List β) (s : σ) : R s (bs.foldl step s) :=
  EachTurn.foldl hrefl htrans (fun s b _ => hstep s b) (eachTurn_true bs s)

end Along

end Hexley.Lib
