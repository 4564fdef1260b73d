import Mathlib.Data.List.Infix
import Mathlib.Tactic.Common

/-!
Where a list is inside of another one.

A file that is put together from pieces is the concatenation of the pieces,
and each piece is found at the length of those before it. `SegmentAt ys off
xs` says that `xs` is in `ys` at the offset `off`. A reader that has read
the first part of a piece is at the rest of it, which is `segmentAt_append`.
-/

namespace Hexley.Lib

open List

variable {α : Type}

def SegmentAt (ys : List α) (off : ℕ) (xs : List α) : Prop :=
  ∃ before after, ys = before ++ xs ++ after ∧ before.length = off

variable {xs ys zs : List α} {off : ℕ}

theorem segmentAt_append :
    SegmentAt ys off (xs ++ zs) ↔ SegmentAt ys off xs ∧ SegmentAt ys (off + xs.length) zs := by
  constructor
  · rintro ⟨before, after, rfl, rfl⟩
    refine ⟨⟨before, zs ++ after, ?_, rfl⟩, before ++ xs, after, ?_, ?_⟩
    · simp only [append_assoc]
    · simp only [append_assoc]
    · rw [length_append]
  · rintro ⟨⟨before, after, rfl, rfl⟩, before', after', heq, hlen⟩
    -- The part of `ys` before `zs` is what is before `xs`, and `xs`.
    have hbefore : before' = before ++ xs := by
      rw [append_assoc before'] at heq
      refine (append_inj_left heq ?_).symm
      rw [hlen, length_append]
    refine ⟨before, after', ?_, rfl⟩
    rw [heq, hbefore]
    simp only [append_assoc]

theorem SegmentAt.le (h : SegmentAt ys off xs) : off + xs.length ≤ ys.length := by
  obtain ⟨before, after, rfl, rfl⟩ := h
  simp only [length_append]
  omega

theorem SegmentAt.take_drop (h : SegmentAt ys off xs) : (ys.drop off).take xs.length = xs := by
  obtain ⟨before, after, rfl, rfl⟩ := h
  rw [append_assoc, drop_left, take_left]

theorem SegmentAt.getElem? {x : α} (h : SegmentAt ys off (x :: xs)) : ys[off]? = some x := by
  obtain ⟨before, after, rfl, rfl⟩ := h
  rw [append_assoc, getElem?_append_right le_rfl, Nat.sub_self]
  rfl

theorem SegmentAt.trans {k : ℕ} (h : SegmentAt ys off xs) (h' : SegmentAt xs k zs) :
    SegmentAt ys (off + k) zs := by
  obtain ⟨before, after, rfl, rfl⟩ := h'
  exact (segmentAt_append.mp (segmentAt_append.mp h).1).2

theorem segmentAt_middle (before xs after : List α) :
    SegmentAt (before ++ xs ++ after) before.length xs := ⟨before, after, rfl, rfl⟩

/-! ### Pieces one after the other -/

variable (pieces : List (List α))

def startOf (i : ℕ) : ℕ := (pieces.take i).flatten.length

@[simp] theorem startOf_zero : startOf pieces 0 = 0 := rfl

theorem startOf_cons_succ (piece : List α) (pieces : List (List α)) (i : ℕ) :
    startOf (piece :: pieces) (i + 1) = piece.length + startOf pieces i := by
  unfold startOf
  rw [take_succ_cons, flatten_cons, length_append]

section

variable {pieces : List (List α)}

theorem segmentAt_flatten {i : ℕ} {piece : List α} (hi : pieces[i]? = some piece) :
    SegmentAt pieces.flatten (startOf pieces i) piece := by
  induction pieces generalizing i with
  | nil => exact nomatch hi
  | cons first pieces ih =>
    cases i with
    | zero =>
      cases hi
      exact segmentAt_middle [] piece pieces.flatten
    | succ i =>
      have hrest : SegmentAt (first ++ pieces.flatten) first.length pieces.flatten :=
        ⟨first, [], (append_nil _).symm, rfl⟩
      rw [startOf_cons_succ]
      exact hrest.trans (ih (by simpa using hi))

theorem startOf_lt (hne : ∀ piece ∈ pieces, piece ≠ []) {i j : ℕ} (hij : i < j)
    (hj : j ≤ pieces.length) : startOf pieces i < startOf pieces j := by
  induction pieces generalizing i j with
  | nil =>
    rw [length_nil] at hj
    omega
  | cons first pieces ih =>
    rcases j with _ | j
    · omega
    have hfirst := length_pos_of_ne_nil (hne first mem_cons_self)
    rw [startOf_cons_succ]
    cases i with
    | zero =>
      rw [startOf_zero]
      omega
    | succ i =>
      rw [startOf_cons_succ]
      have hlt : startOf pieces i < startOf pieces j :=
        ih (forall_mem_cons.mp hne).2 (by omega) (Nat.le_of_succ_le_succ hj)
      omega

theorem startOf_eq_mul {width : ℕ} (hwidth : ∀ piece ∈ pieces, piece.length = width) {i : ℕ}
    (hi : i ≤ pieces.length) : startOf pieces i = i * width := by
  induction pieces generalizing i with
  | nil =>
    obtain rfl : i = 0 := Nat.le_zero.mp hi
    rw [Nat.zero_mul, startOf_zero]
  | cons first pieces ih =>
    cases i with
    | zero => rw [Nat.zero_mul, startOf_zero]
    | succ i =>
      rw [startOf_cons_succ, hwidth first mem_cons_self, ih (forall_mem_cons.mp hwidth).2
          (Nat.le_of_succ_le_succ hi), Nat.succ_mul, Nat.add_comm]

end

theorem startOf_length : startOf pieces pieces.length = pieces.flatten.length := by
  unfold startOf
  rw [take_length]

end Hexley.Lib
