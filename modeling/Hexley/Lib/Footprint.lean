import Hexley.Lib.Bytes
import Hexley.Lib.Outcome

/-!
Data structures in memory and the addresses they depend on.

A region is the part of the memory that a program owns. A load or a store
outside of it is a fault.

What a program leaves in memory is described by shapes. A shape says that a
value stands at an address, and it is given the set of addresses that it
may look at: the footprint. A shape is local if that is true, so that it
survives every store outside of its footprint. Pointers make larger shapes
of smaller ones: one that may be null, and an array of them.
-/

namespace Hexley.Lib

open Endian

/-! ### Regions -/

structure Region where
  base : ℕ
  size : ℕ
  deriving DecidableEq, Repr

namespace Region

variable {p : ℕ} {s t : Set ℕ}

variable {g : Region} {m : Mem} {n : ℕ}

def Owns (g : Region) (p n : ℕ) : Prop := g.base ≤ p ∧ p + n ≤ g.base + g.size

instance (g : Region) (p n : ℕ) : Decidable (g.Owns p n) := inferInstanceAs (Decidable (_ ∧ _))

def load (g : Region) (m : Mem) (p n : ℕ) : Outcome (List UInt8) :=
  if g.Owns p n then .ok (m.read p n) else .fault

def store (g : Region) (m : Mem) (p : ℕ) (bs : List UInt8) : Outcome Mem :=
  if g.Owns p bs.length then .ok (m.write p bs) else .fault

theorem load_bytes {e : Endian} {v : ℕ} (h : g.Owns p n) (hv : m.Holds p (e.bytes n v)) :
    g.load m p n = .ok (e.bytes n v) := by
  rw [load, if_pos h, hv.read_eq (length_bytes _ _ _)]

theorem store_bytes {e : Endian} {v : ℕ} (h : g.Owns p n) :
    g.store m p (e.bytes n v) = .ok (m.write p (e.bytes n v)) :=
  if_pos (by rwa [length_bytes])

end Region

/-! ### Shapes -/

namespace Mem

variable {m m' : Mem} {bs : List UInt8}

def HoldsIn (m : Mem) (s : Set ℕ) (p : ℕ) (bs : List UInt8) : Prop :=
  Set.Ico p (p + bs.length) ⊆ s ∧ m.Holds p bs

theorem Holds.of_eqOn_compl (h : m.Holds p bs) (heq : Set.EqOn m' m sᶜ)
    (hout : ∀ a, p ≤ a → a < p + bs.length → a ∉ s) : m'.Holds p bs :=
  h.congr fun a ha => (heq (hout a ha.1 ha.2)).symm

theorem HoldsIn.congr (h : m.HoldsIn s p bs) (heq : Set.EqOn m m' s) (hst : s ⊆ t) :
    m'.HoldsIn t p bs :=
  ⟨h.1.trans hst, h.2.congr (heq.mono h.1)⟩

theorem Holds.holdsIn (h : m.Holds p bs) (hs : Set.Ico p (p + bs.length) ⊆ s) : m.HoldsIn s p bs :=
  ⟨hs, h⟩

end Mem

/-- A way in which values of `α` stand in memory, at an address, within a
footprint. -/
abbrev Shape (α : Type) := Mem → Set ℕ → ℕ → α → Prop

namespace Shape

variable {α : Type} {At : Shape α} {e : Endian} {m m' : Mem} {l : ℕ}

def Local (At : Shape α) : Prop :=
  ∀ ⦃m m' : Mem⦄ ⦃s t : Set ℕ⦄ ⦃p : ℕ⦄ ⦃x : α⦄, At m s p x → Set.EqOn m m' s → s ⊆ t → At m' t p x

def bytes (f : α → List UInt8) : Shape α := fun m s p x => m.HoldsIn s p (f x)

theorem bytes_local (f : α → List UInt8) : Local (bytes f) :=
  fun _ _ _ _ _ _ h heq hst => Mem.HoldsIn.congr h heq hst

def option (e : Endian) (At : Shape α) : Shape (Option α) := fun m s p x =>
  ∃ q < 2 ^ 64, m.HoldsIn s p (e.bytes 8 q) ∧
    match x with
    | none => q = 0
    | some a => q ≠ 0 ∧ At m s q a

theorem option_local (hAt : Local At) : Local (option e At) := by
  rintro m m' s t p x ⟨q, hlt, hq, hx⟩ heq hst
  refine ⟨q, hlt, hq.congr heq hst, ?_⟩
  cases x with
  | none => exact hx
  | some a => exact ⟨hx.1, hAt hx.2 heq hst⟩

def pointers (e : Endian) (At : Shape α) : Shape (List α) := fun m s l xs =>
  ∀ i x, xs[i]? = some x → ∃ q < 2 ^ 64, m.HoldsIn s (l + 8 * i) (e.bytes 8 q) ∧ At m s q x

theorem pointers_local (hAt : Local At) : Local (pointers e At) := by
  intro m m' s t l xs h heq hst i x hi
  obtain ⟨q, hlt, hq, hx⟩ := h i x hi
  exact ⟨q, hlt, hq.congr heq hst, hAt hx heq hst⟩

theorem pointers_nil : pointers e At m s l [] := by
  intro i x hi
  simp at hi

theorem pointers_append_singleton {xs : List α} {x : α} {q : ℕ} (h : pointers e At m s l xs)
    (hlt : q < 2 ^ 64) (hq : m.HoldsIn s (l + 8 * xs.length) (e.bytes 8 q)) (hx : At m s q x) :
    pointers e At m s l (xs ++ [x]) := by
  intro i y hi
  rcases lt_or_ge i xs.length with hi' | hge
  · rw [List.getElem?_append_left hi'] at hi
    exact h i y hi
  · rw [List.getElem?_append_right hge, List.getElem?_singleton] at hi
    split_ifs at hi with hzero
    obtain rfl : x = y := Option.some.inj hi
    obtain rfl : i = xs.length := by omega
    exact ⟨q, hlt, hq, hx⟩

theorem pointers_write (hAt : Local At) {D : Set ℕ} {q : ℕ} {xs : List α} {x : α}
    (h : pointers e At m (Set.Ico l (l + 8 * xs.length) ∪ D) l xs)
    (hdis : ∀ a ∈ D, a < l + 8 * xs.length ∨ l + 8 * xs.length + 8 ≤ a) (hlt : q < 2 ^ 64)
    (hx : At m D q x) : pointers e At (m.write (l + 8 * xs.length) (e.bytes 8 q))
      (Set.Ico l (l + 8 * (xs ++ [x]).length) ∪ D) l (xs ++ [x]) := by
  have heqD : Set.EqOn m (m.write (l + 8 * xs.length) (e.bytes 8 q)) D := by
    refine (Mem.write_eqOn m fun a ha => ?_).symm
    rw [length_bytes]
    exact hdis a ha
  have heq : Set.EqOn m (m.write (l + 8 * xs.length) (e.bytes 8 q))
      (Set.Ico l (l + 8 * xs.length) ∪ D) := by
    refine Set.EqOn.union (Mem.write_eqOn m fun a ha => .inl ha.2).symm heqD
  have hmore : Set.Ico l (l + 8 * xs.length) ⊆ Set.Ico l (l + 8 * (xs ++ [x]).length) :=
    Set.Ico_subset_Ico_right (by simp)
  have hcell : Set.Ico (l + 8 * xs.length) (l + 8 * xs.length + (e.bytes 8 q).length) ⊆
      Set.Ico l (l + 8 * (xs ++ [x]).length) := by
    refine Set.Ico_subset_Ico (by omega) ?_
    rw [length_bytes, List.length_append, List.length_singleton]
    omega
  refine pointers_append_singleton ?_ hlt ⟨?_, Mem.holds_write _ _ _⟩ ?_
  · exact pointers_local hAt h heq (Set.union_subset_union_left _ hmore)
  · exact hcell.trans Set.subset_union_left
  · exact hAt hx heqD Set.subset_union_right

theorem option_write (hAt : Local At) {D : Set ℕ} {q : ℕ} {x : α} (hq : q ≠ 0)
    (hlt : q < 2 ^ 64) (hdis : ∀ a ∈ D, a < p ∨ p + 8 ≤ a) (hx : At m D q x) :
    option e At (m.write p (e.bytes 8 q)) (Set.Ico p (p + 8) ∪ D) p (some x) := by
  refine ⟨q, hlt, ⟨?_, Mem.holds_write _ _ _⟩, hq, ?_⟩
  · rw [length_bytes]
    exact Set.subset_union_left
  · refine hAt hx ?_ Set.subset_union_right
    refine (Mem.write_eqOn m fun a ha => ?_).symm
    rw [length_bytes]
    exact hdis a ha

end Shape

end Hexley.Lib
