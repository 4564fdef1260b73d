import Hexley.Lib.Shift

/-!
`CFArrayBSearchValues` and `CFBSearch`.

A search may examine the elements of its range only: it has no result if it
asks for another one, and none if a shift is undefined. A `CFStorage` is
searched by a descent in powers of two, the other representations by halving.

The start of the descent is written `range.location + (c < 0) ? l : -1`, and
the sum binds tighter than the conditional: in a range that does not start at
zero the descent always starts at `length - 2 ^ lg`.
-/

namespace Hexley.Cf

open Lib Option
open Std (TransCmp OrientedCmp)

inductive ArrayType
  | immutable
  | deque
  | storage
  deriving DecidableEq, Repr

/-- The arguments of `CFArrayBSearchValues`: the array by its type and its
values, the range, the value and the comparator. -/
structure BSearch (α : Type) where
  type : ArrayType
  values : ℕ → α
  location : ℕ
  length : ℕ
  value : α
  comparator : α → α → Ordering

namespace BSearch

variable {α : Type} (s : BSearch α)

def examine (i : ℤ) : Option α :=
  if s.location ≤ i ∧ i < s.location + s.length then some (s.values i.toNat) else none

/-- The loop of `CFBSearch`, with `ptr` as an index of the array. -/
def cfBSearch (ptr count : ℕ) : Option ℤ :=
  if 0 < count then do
    let half := count / 2
    let probe ← s.examine (ptr + half : ℕ)
    match s.comparator s.value probe with
    | .eq => some (ptr + half : ℕ)
    | .lt => cfBSearch ptr half
    | .gt => cfBSearch (ptr + half + 1) (half + count % 2 - 1)
  else some ptr
termination_by count

/-- The loop `while (lg--)`. -/
def descend : ℕ → ℤ → Option ℤ
  | 0, idx => some idx
  | lg + 1, idx => do
      let half ← shiftInt lg
      let item ← s.examine (s.location + idx + half)
      descend lg (if s.comparator item s.value = .lt then idx + half else idx)

def cfArrayBSearchValues : Option ℤ :=
  if s.length = 0 then some s.location
  else if s.type = .storage then do
    let item ← s.examine (s.location + s.length - 1)
    if s.comparator item s.value = .lt then return s.location + s.length
    let item ← s.examine s.location
    if s.comparator s.value item = .lt then return s.location
    let lg := flsl s.length - 1
    let top ← shiftInt lg
    let item ← s.examine (s.location + -1 + top)
    let less : ℤ := if s.comparator item s.value = .lt then 1 else 0
    let idx ← s.descend lg (if s.location + less ≠ 0 then s.length - top else -1)
    return idx + 1 + s.location
  else s.cfBSearch s.location s.length

def item (j : ℕ) : α := s.values (s.location + j)

def Less (j : ℕ) : Prop := s.comparator (s.item j) s.value = .lt

def Equal (j : ℕ) : Prop := s.comparator s.value (s.item j) = .eq

def Greater (j : ℕ) : Prop := s.comparator s.value (s.item j) = .lt

def Sorted : Prop :=
  ∀ i j, i ≤ j → j < s.length → (s.comparator (s.item i) (s.item j)).isLE

/-- What the search is for: an element that compares equal if the range has
one, otherwise the first greater one or the end of the range. -/
def IsPlace (i : ℕ) : Prop :=
  i < s.length ∧ s.Equal i ∨ (∀ j < s.length, ¬ s.Equal j) ∧ i ≤ s.length ∧
    (∀ j < i, ¬ s.Greater j) ∧ (i < s.length → s.Greater i)

def Finds : Prop :=
  ∃ i : ℕ, s.cfArrayBSearchValues = some (s.location + i : ℤ) ∧ s.IsPlace i

def start : ℕ := s.length - 2 ^ s.length.log2

/-- When a `CFStorage` is searched well: the value is outside of the range, or
the range has fewer than `2 ^ 31` elements and begins at zero, or the element
at the start is less than the value, or the next one is equal to it. -/
def DescendsWell : Prop :=
  s.length = 0 ∨ s.Less (s.length - 1) ∨ s.Greater 0 ∨ s.length < 2 ^ 31 ∧
    (s.location = 0 ∨ s.Less s.start ∨ s.start + 1 < s.length ∧ s.Equal (s.start + 1))

theorem examine_of_lt {i : ℕ} (hi : i < s.length) {j : ℤ} (hj : j = s.location + i) :
    s.examine j = some (s.item i) := by
  have htoNat : (s.location + i : ℤ).toNat = s.location + i := by omega
  rw [examine, hj, if_pos (by omega), htoNat, item]

/-- The elements of the range that are less than the value are the first `p`. -/
def SplitAt (p : ℕ) : Prop := p ≤ s.length ∧ ∀ j < s.length, s.Less j ↔ j < p

variable [TransCmp s.comparator] {s} {p : ℕ}

theorem exists_splitAt (hs : s.Sorted) : ∃ p, s.SplitAt p := by
  classical
  have hex : ∃ p, p = s.length ∨ ¬ s.Less p := ⟨_, .inl rfl⟩
  refine ⟨Nat.find hex, Nat.find_min' hex (.inl rfl), fun j hj =>
    ⟨fun hless => ?_, fun hlt => ?_⟩⟩
  · by_contra hle
    rcases Nat.find_spec hex with heq | hnot
    · omega
    · exact hnot (TransCmp.lt_of_isLE_of_lt (hs _ j (by omega) hj) hless)
  · by_contra hnot
    exact Nat.find_min hex hlt (.inr hnot)

theorem SplitAt.lt_iff (hp : s.SplitAt p) {j : ℕ} (hj : j < s.length) :
    j < p ↔ ¬ s.Equal j ∧ ¬ s.Greater j := by
  rw [← hp.2 j hj, Less, ← OrientedCmp.gt_iff_lt, Equal, Greater]
  cases s.comparator s.value (s.item j) <;> simp

theorem SplitAt.isPlace_iff (hp : s.SplitAt p) (hs : s.Sorted) (i : ℕ) :
    s.IsPlace i ↔ i = p ∨ i < s.length ∧ s.Equal i := by
  have hle := hp.1
  constructor
  · rintro (h | ⟨hne, hi, hbelow, hgreater⟩)
    · exact .inr h
    rcases lt_trichotomy i p with hlt | heq | hgt
    · exact absurd (hgreater (by omega)) ((hp.lt_iff (by omega)).mp hlt).2
    · exact .inl heq
    · exact absurd ((hp.lt_iff (by omega)).mpr ⟨hne p (by omega), hbelow p hgt⟩) (lt_irrefl p)
  · rintro (rfl | h)
    · by_cases heq : i < s.length ∧ s.Equal i
      · exact .inl heq
      have hgreater (hi : i < s.length) : s.Greater i := by
        by_contra hnot
        exact lt_irrefl i ((hp.lt_iff hi).mpr ⟨fun h => heq ⟨hi, h⟩, hnot⟩)
      refine .inr ⟨fun j hj hequal => ?_, hle,
        fun j hj => ((hp.lt_iff (by omega)).mp hj).2, hgreater⟩
      by_cases hji : j < i
      · exact ((hp.lt_iff hj).mp hji).1 hequal
      · have := TransCmp.lt_of_lt_of_isLE (hgreater (by omega)) (hs i j (by omega) hj)
        exact nomatch this.symm.trans hequal
    · exact .inl h

/-! ### Halving -/

theorem SplitAt.cfBSearch_finds (hp : s.SplitAt p) (count : ℕ) (i : ℕ)
    (hcount : i + count ≤ s.length) (hi : i ≤ p) (hp' : p ≤ i + count) :
    ∃ i' : ℕ, s.cfBSearch (s.location + i) count = some (s.location + i' : ℤ) ∧
      (i' = p ∨ i' < s.length ∧ s.Equal i') := by
  induction count using Nat.strong_induction_on generalizing i with
  | _ count ih =>
    unfold cfBSearch
    split
    case isFalse h0 => exact ⟨i, by simp, .inl (by omega)⟩
    case isTrue h0 =>
      simp only [bind_eq_bind, bind_some, s.examine_of_lt (i := i + count / 2)
        (j := (s.location + i + count / 2 : ℕ)) (by omega) (by push_cast; omega)]
      have hmid := hp.lt_iff (j := i + count / 2) (by omega)
      split
      next hc => exact ⟨i + count / 2, by push_cast; rw [Int.add_assoc], .inr ⟨by omega, hc⟩⟩
      next hc =>
        exact ih _ (by omega) i (by omega) hi (not_lt.mp fun hlt => (hmid.mp hlt).2 hc)
      next hc =>
        have := hmid.mpr (by simp [Equal, Greater, hc])
        rw [show s.location + i + count / 2 + 1 = s.location + (i + count / 2 + 1) by omega]
        exact ih _ (by omega) _ (by omega) (by omega) (by omega)

/-! ### The descent -/

omit [TransCmp s.comparator] in
theorem SplitAt.descend_eq (hp : s.SplitAt p) (lg : ℕ) (idx : ℤ) (hlg : lg ≤ 31) (h0 : -1 ≤ idx)
    (hroom : idx + (2 ^ lg : ℕ) ≤ s.length) :
    s.descend lg idx = some (max idx (min (p - 1) (idx + (2 ^ lg : ℕ) - 1))) := by
  induction lg generalizing idx with
  | zero =>
    rw [descend, some.injEq, Nat.pow_zero]
    omega
  | succ lg ih =>
    have hpow := Nat.two_pow_pos lg
    obtain ⟨i, hi⟩ := Int.eq_ofNat_of_zero_le (a := idx + (2 ^ lg : ℕ)) (by omega)
    have hshift : shiftInt lg = some ↑(2 ^ lg : ℕ) := if_pos (by omega)
    have hless := hp.2 i (by omega)
    simp only [descend, hshift, bind_eq_bind, bind_some,
      s.examine_of_lt (i := i) (j := s.location + idx + (2 ^ lg : ℕ)) (by omega) (by omega)]
    by_cases hip : i < p
    · rw [if_pos (by exact hless.mpr hip), ih _ (by omega) (by omega) (by omega), some.injEq]
      omega
    · rw [if_neg (by exact mt hless.mp hip), ih _ (by omega) h0 (by omega), some.injEq]
      omega

omit [TransCmp s.comparator] in
theorem SplitAt.storage_eq (hp : s.SplitAt p) (hstorage : s.type = .storage) (h0 : s.length ≠ 0)
    (hless : ¬ s.Less (s.length - 1)) (hgreater : ¬ s.Greater 0) :
    s.cfArrayBSearchValues = if s.length < 2 ^ 31 then some (s.location + (if s.location = 0 ∧
      p < 2 ^ s.length.log2 then p else max (s.start + 1) p : ℕ) : ℤ) else none := by
  have hpow := Nat.log2_self_le h0
  have hpow' := Nat.lt_log2_self (n := s.length)
  have hflsl : flsl s.length - 1 = s.length.log2 := by simp [flsl, h0]
  have hle := mt (hp.2 (s.length - 1) (by omega)).mpr hless
  have htest := hp.2 (2 ^ s.length.log2 - 1) (by omega)
  rw [Less] at hless htest
  rw [Greater] at hgreater
  simp only [start, cfArrayBSearchValues, hstorage, h0, hless, hgreater, if_false, if_true, hflsl,
    s.examine_of_lt (i := s.length - 1) (j := s.location + s.length - 1) (by omega) (by omega),
    s.examine_of_lt (i := 0) (j := s.location) (by omega) (by simp), bind_eq_bind,
    bind_some]
  split
  case isFalse hlong =>
    rw [shiftInt, if_neg (mt (Nat.log2_lt h0).mp hlong)]
    rfl
  have hlg := (Nat.log2_lt h0).mpr ‹_›
  rw [shiftInt, if_pos hlg]
  generalize s.length.log2 = lg at *
  simp only [htest, bind_some, pure_def,
    s.examine_of_lt (i := 2 ^ lg - 1) (j := s.location + -1 + (2 ^ lg : ℕ)) (by omega) (by omega)]
  by_cases hfrom : s.location = 0 ∧ p < 2 ^ lg
  · rw [if_neg (by split <;> omega), hp.descend_eq lg _ hlg.le (by omega) (by omega),
      bind_some, if_pos hfrom, some.injEq]
    omega
  · rw [if_pos (by split <;> omega), hp.descend_eq lg _ hlg.le (by omega) (by omega),
      bind_some, if_neg hfrom, some.injEq]
    omega

theorem SplitAt.storage_finds_iff (hp : s.SplitAt p) (hs : s.Sorted) (hstorage : s.type = .storage)
    (h0 : s.length ≠ 0) : s.Finds ↔ s.DescendsWell := by
  have hle := hp.1
  have hlast := s.examine_of_lt (i := s.length - 1) (j := s.location + s.length - 1) (by omega)
    (by omega)
  have hplace := hp.isPlace_iff hs
  by_cases hless : s.Less (s.length - 1)
  · have := (hp.2 _ (by omega)).mp hless
    refine iff_of_true ⟨s.length, ?_, (hplace _).mpr (.inl (by omega))⟩ (.inr (.inl hless))
    rw [Less] at hless
    simp [cfArrayBSearchValues, h0, hstorage, hlast, hless]
  by_cases hgreater : s.Greater 0
  · have := mt (hp.lt_iff (j := 0) (by omega)).mp fun h => h.2 hgreater
    refine iff_of_true ⟨0, ?_, (hplace _).mpr (.inl (by omega))⟩ (.inr (.inr (.inl hgreater)))
    rw [Less] at hless
    rw [Greater] at hgreater
    simp [cfArrayBSearchValues, h0, hstorage, hlast, hless, hgreater,
      s.examine_of_lt (i := 0) (j := s.location) (by omega) (by simp)]
  have hpow' := Nat.lt_log2_self (n := s.length)
  have hstart : s.start = s.length - 2 ^ s.length.log2 := rfl
  simp only [Finds, DescendsWell, hp.storage_eq hstorage h0 hless hgreater, h0, hless, hgreater,
    hplace, false_or, hp.2 s.start (by omega)]
  split
  case isFalse hlong => exact iff_of_false (by simp) fun h => hlong h.1
  simp only [‹s.length < 2 ^ 31›, true_and, some.injEq, Int.add_right_inj, Int.natCast_inj,
    exists_eq_left']
  split
  case isTrue hfrom => simp [hfrom.1]
  case isFalse hfrom =>
    by_cases hlt : s.start < p
    · exact iff_of_true (.inl (max_eq_right hlt)) (.inr (.inl hlt))
    · rw [max_eq_left (by omega), or_iff_right (by omega), or_iff_right (by omega),
        or_iff_right hlt]

/-- Every representation is searched well, except that a `CFStorage` has to be
one where the descent starts well. -/
theorem finds_iff (hs : s.Sorted) : s.Finds ↔ (s.type = .storage → s.DescendsWell) := by
  obtain ⟨p, hp⟩ := exists_splitAt hs
  by_cases h0 : s.length = 0
  · refine iff_of_true ⟨0, by simp [cfArrayBSearchValues, h0], ?_⟩ fun _ => .inl h0
    exact (hp.isPlace_iff hs 0).mpr (.inl (by have := hp.1; omega))
  by_cases htype : s.type = .storage
  · simp [htype, hp.storage_finds_iff hs htype h0]
  · have := hp.cfBSearch_finds s.length 0 (by omega) (by omega) (by have := hp.1; omega)
    simpa [htype, Finds, cfArrayBSearchValues, h0, hp.isPlace_iff hs] using this

/-- A search of the indices 2 and 3 of an array `0, 1, 2, …` that is long enough for a
`CFStorage`. -/
def secondHalf (value : ℕ) : BSearch ℕ := ⟨.storage, id, 2, 2, value, compare⟩

theorem secondHalf_sorted (value : ℕ) : (secondHalf value).Sorted := by
  intro i j hij hj
  simpa [secondHalf, item, Nat.isLE_compare] using hij

/-- The last element of the range is found. -/
theorem secondHalf_finds : (secondHalf 3).Sorted ∧ (secondHalf 3).Finds :=
  ⟨secondHalf_sorted 3, (@finds_iff _ (secondHalf 3) (inferInstanceAs (TransCmp compare))
    (secondHalf_sorted 3)).mpr fun _ => by unfold DescendsWell Less Greater Equal; decide⟩

/-- The search for the first element of the range ends behind it. -/
theorem secondHalf_not_finds : (secondHalf 2).Sorted ∧ ¬ (secondHalf 2).Finds := by
  refine ⟨secondHalf_sorted 2, ?_⟩
  rintro ⟨i, hi, hplace⟩
  rw [show (secondHalf 2).cfArrayBSearchValues = some 3 by decide] at hi
  obtain rfl : i = 1 := by simp [secondHalf] at hi; omega
  revert hplace
  unfold IsPlace Equal Greater
  decide

end BSearch

end Hexley.Cf
