import Mathlib.Tactic.Common

/-!
Programs that check what they read.

A decoder of untrusted bytes returns a value or reports that the input is
bad. Beside these two there are the two things that it must not do: touch
memory that is not its own, and recurse without end. An `Outcome` is one of
the four. A recursive program gets the number of frames it may use, and is
`exhausted` when it needs more.

`Ensures` is the judgment about such a program: it ends in one of the first
two ways, and a value that it returns has the given property. The rules
follow the construction of the program, so that a bound that has been
tested is at hand behind the test.

An array of memory is the list of its cells. Loading or storing a cell that
it does not have is a fault.
-/

namespace Hexley.Lib

inductive Outcome (α : Type)
  | ok (a : α)
  | failed
  | fault
  | exhausted
  deriving DecidableEq

namespace Outcome

variable {α β : Type}

def andThen (x : Outcome α) (f : α → Outcome β) : Outcome β :=
  match x with
  | ok a => f a
  | failed => failed
  | fault => fault
  | exhausted => exhausted

instance : Monad Outcome where
  pure := ok
  bind := andThen

def require (c : Prop) [Decidable c] : Outcome Unit := if c then ok () else failed

def ofOption : Option α → Outcome α
  | some a => ok a
  | none => failed

@[simp] theorem ok_bind (a : α) (f : α → Outcome β) : (ok a >>= f) = f a := rfl

@[simp] theorem failed_bind (f : α → Outcome β) : (failed >>= f) = failed := rfl

@[simp] theorem fault_bind (f : α → Outcome β) : (fault >>= f) = fault := rfl

@[simp] theorem pure_eq (a : α) : (pure a : Outcome α) = ok a := rfl

variable {c : Prop}

theorem require_true [Decidable c] (h : c) : require c = ok () := if_pos h

theorem require_false [Decidable c] (h : ¬c) : require c = failed := if_neg h

variable {x : Outcome α} {f : α → Outcome β}

theorem bind_eq_ok {b : β} : (x >>= f) = ok b ↔ ∃ a, x = ok a ∧ f a = ok b := by
  cases x with
  | ok a => simp
  | failed => simp
  | fault => simp
  | exhausted =>
    change (exhausted = ok b) ↔ _
    simp

theorem require_eq_ok [Decidable c] {u : Unit} : require c = ok u ↔ c := by
  unfold require
  split_ifs with h <;> simp [h]

/-- It does nothing that it must not do, and a value that it returns has the
property `Q`. -/
def Ensures (x : Outcome α) (Q : α → Prop) : Prop :=
  match x with
  | ok a => Q a
  | failed => True
  | fault => False
  | exhausted => False

variable {a : α}

theorem ensures_ok {Q : α → Prop} (h : Q a) : (ok a).Ensures Q := h

variable {Q : β → Prop}

theorem ensures_bind {P : α → Prop}
    (hx : x.Ensures P) (hf : ∀ a, P a → (f a).Ensures Q) : (x >>= f).Ensures Q := by
  cases x with
  | ok a => exact hf a hx
  | failed => trivial
  | fault => exact hx.elim
  | exhausted => exact hx.elim

theorem ensures_require [Decidable c] {f : Unit → Outcome β}
    (hf : c → (f ()).Ensures Q) : (require c >>= f).Ensures Q := by
  by_cases hc : c
  · rw [require_true hc]
    exact hf hc
  · rw [require_false hc]
    trivial

theorem ensures_option {o : Option α}
    (hf : ∀ a, o = some a → (f a).Ensures Q) : (ofOption o >>= f).Ensures Q := by
  cases o with
  | none => trivial
  | some a => exact hf a rfl

theorem Ensures.mono {P Q : α → Prop} (h : x.Ensures P) (hPQ : ∀ a, P a → Q a) : x.Ensures Q := by
  cases x with
  | ok a => exact hPQ a h
  | failed => trivial
  | fault => exact h.elim
  | exhausted => exact h.elim

theorem ensures_pure {Q : α → Prop} (h : Q a) : (pure a : Outcome α).Ensures Q := h

/-! ### Cells of an array -/

def load (xs : List α) (i : ℕ) : Outcome α :=
  match xs[i]? with
  | some a => ok a
  | none => fault

def store (xs : List α) (i : ℕ) (a : α) : Outcome (List α) :=
  if i < xs.length then ok (xs.set i a) else fault

variable {xs : List α} {i : ℕ}

theorem load_eq_ok (h : xs[i]? = some a) : load xs i = ok a := by
  rw [load, h]

theorem store_eq_ok (a : α) (h : i < xs.length) : store xs i a = ok (xs.set i a) := if_pos h

theorem ensures_load (h : i < xs.length) (hf : ∀ a, xs[i]? = some a → (f a).Ensures Q) :
    (load xs i >>= f).Ensures Q := by
  have hi : xs[i]? = some xs[i] := List.getElem?_eq_getElem h
  rw [load_eq_ok hi]
  exact hf _ hi

theorem ensures_store {f : List α → Outcome β} (h : i < xs.length)
    (hf : (f (xs.set i a)).Ensures Q) :
    (store xs i a >>= f).Ensures Q := by
  rw [store_eq_ok a h]
  exact hf

end Outcome

end Hexley.Lib
