import Mathlib

/-!
The Gregorian calendar over the integers.

Days are numbered from 1 January 1970 and months from January of the year 0,
so that a date is a month and a day in it, and both directions are total.
The first day of a month is given by the usual formula, in which the year
starts with March; `monthLength_eq` says that the lengths which follow from
it are those of the Gregorian calendar. The month of a day is found from the
mean length of a month, which is off by one at most.
-/

namespace Hexley.Lib.Calendar

/-- The days before the year `y`, for years that start with March. -/
def yearStart (y : ℤ) : ℤ := 365 * y + y / 4 - y / 100 + y / 400

variable (m : ℤ)

def monthStart : ℤ :=
  yearStart ((m - 2) / 12) + (153 * ((m - 2) % 12) + 2) / 5 - 719468

def monthLength : ℤ := monthStart (m + 1) - monthStart m

def monthOf (d : ℤ) : ℤ :=
  let m := (4800 * (d + 719528)) / 146097
  if d < monthStart m then m - 1 else if monthStart (m + 1) ≤ d then m + 1 else m

/-- The day of the week, from Sunday. 1 January 1970 was a Thursday. -/
def weekday (d : ℤ) : ℤ := (d + 4) % 7

def IsLeap (y : ℤ) : Prop := y % 4 = 0 ∧ (y % 100 ≠ 0 ∨ y % 400 = 0)

theorem yearStart_of_isLeap {y : ℤ} (h : IsLeap y) : yearStart y = yearStart (y - 1) + 366 := by
  obtain ⟨h4, h100⟩ := h
  unfold yearStart
  rcases h100 with h100 | h400 <;> omega

theorem yearStart_of_not_isLeap {y : ℤ} (h : ¬IsLeap y) :
    yearStart y = yearStart (y - 1) + 365 := by
  unfold IsLeap at h
  unfold yearStart
  by_cases h4 : y % 4 = 0
  · omega
  · omega

/-- The months of a year: January and February still belong to the year that
started with the March before. -/
theorem monthStart_eq (y k : ℤ) (h0 : 0 ≤ k) (h12 : k < 12) : monthStart (12 * y + k) =
      if k < 2 then yearStart (y - 1) + (153 * (k + 10) + 2) / 5 - 719468
      else yearStart y + (153 * (k - 2) + 2) / 5 - 719468 := by
  unfold monthStart
  by_cases hk : k < 2
  · rw [if_pos hk, show (12 * y + k - 2) / 12 = y - 1 by omega,
      show (12 * y + k - 2) % 12 = k + 10 by omega]
  · rw [if_neg hk, show (12 * y + k - 2) / 12 = y by omega,
      show (12 * y + k - 2) % 12 = k - 2 by omega]

theorem monthLength_eq : (m % 12 = 1 ∧ IsLeap (m / 12) ∧ monthLength m = 29) ∨
      (m % 12 = 1 ∧ ¬IsLeap (m / 12) ∧ monthLength m = 28) ∨
      ((m % 12 = 3 ∨ m % 12 = 5 ∨ m % 12 = 8 ∨ m % 12 = 10) ∧ monthLength m = 30) ∨
      (¬(m % 12 = 1 ∨ m % 12 = 3 ∨ m % 12 = 5 ∨ m % 12 = 8 ∨ m % 12 = 10) ∧
        monthLength m = 31) := by
  obtain ⟨y, k, hk0, hk12, rfl⟩ : ∃ y k : ℤ, 0 ≤ k ∧ k < 12 ∧ m = 12 * y + k :=
    ⟨m / 12, m % 12, by omega, by omega, by omega⟩
  have hthis := monthStart_eq y k hk0 hk12
  rw [show (12 * y + k) % 12 = k by omega, show (12 * y + k) / 12 = y by omega, monthLength, hthis]
  by_cases hdec : k = 11
  · -- January follows in the next year.
    rw [show 12 * y + k + 1 = 12 * (y + 1) + 0 by omega, monthStart_eq _ _ le_rfl (by omega),
      Int.add_sub_cancel]
    subst hdec
    simp
  · rw [Int.add_assoc, monthStart_eq y (k + 1) (by omega) (by omega)]
    by_cases hleap : IsLeap y
    · have hyear := yearStart_of_isLeap hleap
      interval_cases k <;> simp [hleap] at hdec ⊢
      omega
    · have hyear := yearStart_of_not_isLeap hleap
      interval_cases k <;> simp [hleap] at hdec ⊢
      omega

theorem le_monthLength : 28 ≤ monthLength m := by
  rcases monthLength_eq m with h | h | h | h <;> omega

theorem monthStart_succ : monthStart (m + 1) = monthStart m + monthLength m := by
  unfold monthLength
  omega

theorem monthStart_strictMono : StrictMono monthStart := by
  refine strictMono_int_of_lt_succ fun m => ?_
  have hlen := le_monthLength m
  rw [monthStart_succ]
  omega

theorem monthStart_add_le {m m' : ℤ} (h : m < m') :
    monthStart m + monthLength m ≤ monthStart m' := by
  rw [← monthStart_succ]
  exact monthStart_strictMono.monotone (by omega)

theorem monthStart_mean : 146097 * m - 4800 * 4 ≤ 4800 * (monthStart m + 719528) ∧
      4800 * (monthStart m + 719528) ≤ 146097 * m + 4800 * 4 := by
  unfold monthStart yearStart
  omega

theorem monthStart_monthOf_le (d : ℤ) : monthStart (monthOf d) ≤ d := by
  unfold monthOf
  extract_lets m
  have hmean := monthStart_mean (m - 1)
  split_ifs <;> omega

theorem lt_monthStart_monthOf (d : ℤ) : d < monthStart (monthOf d + 1) := by
  unfold monthOf
  extract_lets m
  have hmean := monthStart_mean (m + 1 + 1)
  split_ifs with h1 h2
  · rw [Int.sub_add_cancel]
    exact h1
  · omega
  · omega

theorem monthOf_eq {m d : ℤ} (hle : monthStart m ≤ d) (hlt : d < monthStart m + monthLength m) :
    monthOf d = m := by
  have hle' := monthStart_monthOf_le d
  have hlt' := lt_monthStart_monthOf d
  rcases lt_trichotomy (monthOf d) m with h | h | h
  · have := monthStart_add_le h
    rw [monthStart_succ] at hlt'
    omega
  · exact h
  · have := monthStart_add_le h
    omega

end Hexley.Lib.Calendar
