import Hexley.Lib.Calendar

/-!
Day numbers and Gregorian dates (CFDate.c).

Day 0 is 1 January 2001, and years are counted from 2001. The divisions of
the source truncate, and the loops that correct them are kept as they are.
Days are computed in exact integers, also where the source adds them up in
a double.
-/

namespace Hexley.Cf.Date

open Lib.Calendar

def isleap (year : ℤ) : Bool :=
  let y := (year + 1).tmod 400
  let y := if y < 0 then -y else y
  y % 4 = 0 && y ≠ 100 && y ≠ 200 && y ≠ 300

def daysBeforeMonth (month : ℕ) (leap : Bool) : ℤ :=
  [0, 0, 31, 59, 90, 120, 151, 181, 212, 243, 273, 304, 334, 365, 0, 0].getD month 0 +
    if 2 < month && leap then 1 else 0

def daysAfterMonth (month : ℕ) (leap : Bool) : ℤ :=
  [365, 334, 306, 275, 245, 214, 184, 153, 122, 92, 61, 31, 0, 0, 0, 0].getD month 0 +
    if month < 2 && leap then 1 else 0

variable (y : ℤ)

def yearDays : ℤ := daysAfterMonth 0 (isleap y)

theorem yearDays_eq : yearDays y = if isleap y then 366 else 365 := by
  cases h : isleap y <;> simp [yearDays, daysAfterMonth, h]

theorem yearDays_pos : 0 < yearDays y := by
  rw [yearDays_eq]
  split_ifs <;> decide

/-- The first loop of `ymdFromAbsolute`: years are taken back while the day
is negative. -/
def backYears (y absolute : ℤ) : ℤ × ℤ :=
  if absolute < 0 then backYears (y - 1) (absolute + yearDays (y - 1)) else (y, absolute)
termination_by (-absolute).toNat
decreasing_by have := yearDays_pos (y - 1); omega

def addYears (y absolute : ℤ) : ℤ × ℤ :=
  if yearDays y ≤ absolute then addYears (y + 1) (absolute - yearDays y) else (y, absolute)
termination_by absolute.toNat
decreasing_by have := yearDays_pos y; omega

def searchMonth (leap : Bool) (absolute : ℤ) (m : ℕ) : ℕ :=
  if m < 15 ∧ daysBeforeMonth (m + 1) leap ≤ absolute then searchMonth leap absolute (m + 1) else m
termination_by 15 - m

variable (absolute : ℤ)

def ymdFromAbsolute : ℤ × ℕ × ℤ :=
  let b := absolute.tdiv 146097
  let (y, absolute) := backYears (b * 400) (absolute - b * 146097)
  let (y, absolute) := addYears y absolute
  let m := searchMonth (isleap y) absolute (absolute / 33 + 1).toNat
  (y, m, absolute - daysBeforeMonth m (isleap y) + 1)

/-- The loop of `absoluteFromYMD` for a negative year. -/
def lessYears (idx absolute : ℤ) : ℤ :=
  if idx < 0 then lessYears (idx + 1) (absolute - yearDays idx) else absolute
termination_by (-idx).toNat

def moreYears (year idx absolute : ℤ) : ℤ :=
  if idx < year then moreYears year (idx + 1) (absolute + yearDays idx) else absolute
termination_by (year - idx).toNat

def absoluteFromYMD (year : ℤ) (month : ℕ) (day : ℤ) : ℤ :=
  let b := year.tdiv 400
  let absolute := b * 146097
  let year := year - b * 400
  let absolute := if year < 0 then lessYears year absolute else moreYears year 0 absolute
  absolute + (daysBeforeMonth month (isleap year) + day - 1)

/-! ### Years -/

def newYear : ℤ := yearStart (y + 2000) - 730485

theorem isleap_iff : isleap y = true ↔ IsLeap (y + 2001) := by
  unfold isleap IsLeap
  rw [Int.tmod_eq_emod]
  split_ifs <;> simp <;> omega

theorem newYear_succ : newYear (y + 1) = newYear y + yearDays y := by
  rw [yearDays_eq, newYear, newYear, show y + 1 + 2000 = y + 2001 by omega]
  have hprev : y + 2001 - 1 = y + 2000 := by omega
  split_ifs with h
  · rw [yearStart_of_isLeap ((isleap_iff y).mp h), hprev]
    omega
  · rw [yearStart_of_not_isLeap (mt (isleap_iff y).mpr h), hprev]
    omega

theorem newYear_cycle (b y : ℤ) : newYear (b * 400 + y) = b * 146097 + newYear y := by
  unfold newYear yearStart
  omega

theorem backYears_spec (y absolute : ℤ) : ∀ r, backYears y absolute = r →
    newYear r.1 + r.2 = newYear y + absolute ∧ 0 ≤ r.2 := by
  rintro _ rfl
  fun_induction backYears y absolute with
  | case1 y absolute hneg ih =>
    have hsucc := newYear_succ (y - 1)
    rw [Int.sub_add_cancel] at hsucc
    omega
  | case2 y absolute hneg => exact ⟨rfl, by simpa using hneg⟩

theorem addYears_spec {y absolute : ℤ} (h : 0 ≤ absolute) : ∀ r, addYears y absolute = r →
    newYear r.1 + r.2 = newYear y + absolute ∧ 0 ≤ r.2 ∧ r.2 < yearDays r.1 := by
  rintro _ rfl
  fun_induction addYears y absolute with
  | case1 y absolute hle ih =>
    have hsucc := newYear_succ y
    omega
  | case2 y absolute hlt => exact ⟨rfl, h, by simpa using hlt⟩

theorem lessYears_eq {idx : ℤ} (absolute : ℤ) (h : idx ≤ 0) :
    lessYears idx absolute = absolute + newYear idx := by
  fun_induction lessYears idx absolute with
  | case1 idx absolute hneg ih =>
    rw [ih (by omega), newYear_succ]
    omega
  | case2 idx absolute hneg =>
    rw [show idx = 0 by omega]
    exact (Int.add_zero _).symm

theorem moreYears_eq {year idx : ℤ} (absolute : ℤ) (h : idx ≤ year) :
    moreYears year idx absolute = absolute + newYear year - newYear idx := by
  fun_induction moreYears year idx absolute with
  | case1 idx absolute hlt ih =>
    rw [ih (by omega), newYear_succ]
    omega
  | case2 idx absolute hlt =>
    rw [show idx = year by omega]
    omega

/-! ### Months -/

/-- The number of a month in the calendar of `Lib.Calendar`. -/
def monthNumber (m : ℕ) : ℤ := 12 * (y + 2001) + (m - 1)

theorem monthNumber_succ (m : ℕ) : monthNumber y (m + 1) = monthNumber y m + 1 := by
  unfold monthNumber
  omega

/-- The days before a month are those between the first days. Month 13 is the next January. -/
theorem monthStart_monthNumber {m : ℕ} (h1 : 1 ≤ m) (h13 : m ≤ 13) :
    monthStart (monthNumber y m) - 11323 = newYear y + daysBeforeMonth m (isleap y) := by
  have hsucc := newYear_succ y
  rw [yearDays_eq] at hsucc
  unfold newYear at *
  rcases h13.eq_or_lt with rfl | h12
  · rw [show monthNumber y 13 = 12 * (y + 1 + 2001) + 0 by unfold monthNumber; omega,
      monthStart_eq _ _ le_rfl (by omega), if_pos (by omega),
      show y + 1 + 2001 - 1 = y + 1 + 2000 by omega]
    cases hl : isleap y <;> simp [hl, daysBeforeMonth] at hsucc ⊢ <;> omega
  · rw [monthNumber, monthStart_eq _ _ (by omega) (by omega), show y + 2001 - 1 = y + 2000 by omega,
      show y + 2001 = y + 1 + 2000 by omega]
    interval_cases m <;> cases hl : isleap y <;> simp [hl, daysBeforeMonth] at hsucc ⊢ <;> omega

/-- The approximation does not overshoot, and every turn takes a month that has begun. -/
theorem searchMonth_spec (leap : Bool) {absolute : ℤ} {m : ℕ} (h1 : 1 ≤ m) (h12 : m ≤ 12)
    (hle : daysBeforeMonth m leap ≤ absolute) (hlt : absolute < daysBeforeMonth 13 leap) :
    ∀ r, searchMonth leap absolute m = r → (1 ≤ r ∧ r ≤ 12) ∧
      daysBeforeMonth r leap ≤ absolute ∧ absolute < daysBeforeMonth (r + 1) leap := by
  rintro _ rfl
  fun_induction searchMonth leap absolute m with
  | case1 m hnext ih =>
    have hm : m ≠ 12 := by
      rintro rfl
      exact absurd hnext.2 (not_le.mpr hlt)
    exact ih (by omega) (by omega) hnext.2
  | case2 m hnext => exact ⟨⟨h1, h12⟩, hle, by omega⟩

theorem absoluteFromYMD_eq {m : ℕ} (d : ℤ) (h1 : 1 ≤ m) (h12 : m ≤ 12) :
    absoluteFromYMD y m d = monthStart (monthNumber y m) - 11323 + d - 1 := by
  unfold absoluteFromYMD
  extract_lets b absolute year absolute'
  have hcycle := newYear_cycle b year
  have hyear : b * 400 + year = y := by omega
  have hleap : isleap year = isleap y := by
    rw [Bool.eq_iff_iff, isleap_iff, isleap_iff, ← hyear]
    unfold IsLeap
    omega
  have habs : absolute' = newYear y := by
    have hzero : newYear 0 = 0 := rfl
    rw [← hyear, hcycle]
    unfold absolute'
    split_ifs with hneg
    · exact lessYears_eq _ (by omega)
    · rw [moreYears_eq _ (by omega)]
      omega
  have hmonth := monthStart_monthNumber y h1 (by omega)
  rw [habs, hleap]
  omega

theorem guess_spec (leap : Bool) {absolute : ℤ} (h0 : 0 ≤ absolute)
    (hlt : absolute < daysBeforeMonth 13 leap) : (absolute / 33 + 1).toNat ≤ 12 ∧
      daysBeforeMonth (absolute / 33 + 1).toNat leap ≤ absolute := by
  have hm : absolute / 33 < 12 := by
    cases leap <;> simp [daysBeforeMonth] at hlt <;> omega
  obtain ⟨k, hk⟩ := Int.eq_ofNat_of_zero_le (Int.ediv_nonneg h0 (by decide : (0 : ℤ) ≤ 33))
  rw [hk] at hm ⊢
  have hk12 : k < 12 := by omega
  refine ⟨by omega, ?_⟩
  interval_cases k <;> cases leap <;> simp [daysBeforeMonth] <;> omega

/-! ### Dates -/

def IsDate (m : ℕ) (d : ℤ) : Prop :=
  (1 ≤ m ∧ m ≤ 12) ∧ 1 ≤ d ∧ d ≤ monthLength (monthNumber y m)

def tomorrow : ℤ × ℕ × ℤ → ℤ × ℕ × ℤ
  | (y, m, d) => if d < monthLength (monthNumber y m) then (y, m, d + 1)
    else if m < 12 then (y, m + 1, 1) else (y + 1, 1, 1)

theorem ymdFromAbsolute_spec : ∃ y m d, ymdFromAbsolute absolute = (y, m, d) ∧
    IsDate y m d ∧ absolute = monthStart (monthNumber y m) - 11323 + d - 1 := by
  unfold ymdFromAbsolute
  extract_lets b
  obtain ⟨⟨y₁, r₁⟩, hback⟩ : ∃ r, backYears (b * 400) (absolute - b * 146097) = r := ⟨_, rfl⟩
  obtain ⟨⟨y, r⟩, hadd⟩ : ∃ r, addYears y₁ r₁ = r := ⟨_, rfl⟩
  obtain ⟨hday₁, hpos₁⟩ := backYears_spec _ _ _ hback
  obtain ⟨hday, hpos, hlt⟩ := addYears_spec hpos₁ _ hadd
  have hcycle := newYear_cycle b 0
  have hzero : newYear 0 = 0 := rfl
  have h13 : r < daysBeforeMonth 13 (isleap y) := by
    exact hlt
  obtain ⟨hguess, hbegun⟩ := guess_spec _ hpos h13
  obtain ⟨⟨h1, h12⟩, hbefore, hafter⟩ :=
    searchMonth_spec (isleap y) (by omega) hguess hbegun h13 _ rfl
  rw [hback]
  dsimp only
  rw [hadd]
  generalize searchMonth (isleap y) r (r / 33 + 1).toNat = m at *
  have hstart := monthStart_monthNumber y h1 (by omega)
  have hnext := monthStart_monthNumber y (Nat.le_add_left 1 m) (by omega)
  rw [monthNumber_succ, monthStart_succ] at hnext
  rw [Int.add_zero] at hcycle
  dsimp only at *
  exact ⟨y, m, _, rfl, ⟨⟨h1, h12⟩, by omega, by omega⟩, by omega⟩

theorem ymdFromAbsolute_eq {y d absolute : ℤ} {m : ℕ} (h : IsDate y m d)
    (hday : absolute = monthStart (monthNumber y m) - 11323 + d - 1) :
    ymdFromAbsolute absolute = (y, m, d) := by
  obtain ⟨y', m', d', hymd, ⟨⟨h1', h12'⟩, hd1', hd'⟩, hday'⟩ := ymdFromAbsolute_spec absolute
  obtain ⟨⟨h1, h12⟩, hd1, hd⟩ := h
  have hof := monthOf_eq (m := monthNumber y m) (d := absolute + 11323) (by omega) (by omega)
  have hof' := monthOf_eq (m := monthNumber y' m') (d := absolute + 11323) (by omega) (by omega)
  have hnum := hof.symm.trans hof'
  rw [hymd]
  unfold monthNumber at hnum
  obtain rfl : y = y' := by omega
  obtain rfl : m = m' := by omega
  obtain rfl : d = d' := by omega
  rfl

theorem tomorrow_spec {y d : ℤ} {m : ℕ} (h : IsDate y m d) : ∃ y' m' d',
    tomorrow (y, m, d) = (y', m', d') ∧ IsDate y' m' d' ∧
      monthStart (monthNumber y' m') + d' = monthStart (monthNumber y m) + d + 1 := by
  obtain ⟨⟨h1, h12⟩, hd1, hd⟩ := h
  have hlen := le_monthLength (monthNumber y m + 1)
  have hsucc := monthStart_succ (monthNumber y m)
  simp only [tomorrow]
  split_ifs with hlt hm
  · exact ⟨y, m, d + 1, rfl, ⟨⟨h1, h12⟩, by omega, hlt⟩, by omega⟩
  · refine ⟨y, m + 1, 1, rfl, ⟨⟨by omega, hm⟩, le_rfl, ?_⟩, ?_⟩ <;> rw [monthNumber_succ] <;> omega
  · have hnum : monthNumber (y + 1) 1 = monthNumber y m + 1 := by
      unfold monthNumber
      omega
    refine ⟨y + 1, 1, 1, rfl, ⟨by decide, le_rfl, ?_⟩, ?_⟩ <;> rw [hnum] <;> omega

/-- Day numbers and dates are in bijection, in their orders. -/
theorem ymdFromAbsolute_bijection :
    (∀ n, ∃ y m d, ymdFromAbsolute n = (y, m, d) ∧ IsDate y m d ∧ absoluteFromYMD y m d = n) ∧
      (∀ n, ymdFromAbsolute (n + 1) = tomorrow (ymdFromAbsolute n)) ∧
      ∀ y m d, IsDate y m d → ymdFromAbsolute (absoluteFromYMD y m d) = (y, m, d) := by
  refine ⟨fun n => ?_, fun n => ?_, fun y m d h => ?_⟩
  · obtain ⟨y, m, d, hymd, h, hn⟩ := ymdFromAbsolute_spec n
    rw [hn]
    exact ⟨y, m, d, hn ▸ hymd, h, absoluteFromYMD_eq y d h.1.1 h.1.2⟩
  · obtain ⟨y, m, d, hymd, h, hn⟩ := ymdFromAbsolute_spec n
    obtain ⟨y', m', d', htom, h', hday⟩ := tomorrow_spec h
    rw [hymd, htom]
    exact ymdFromAbsolute_eq h' (by omega)
  · exact ymdFromAbsolute_eq h (absoluteFromYMD_eq y d h.1.1 h.1.2)

/-- 29 February 2000. -/
theorem ymdFromAbsolute_leapDay : IsDate (-1) 2 29 ∧
    ymdFromAbsolute (absoluteFromYMD (-1) 2 29) = (-1, 2, 29) :=
  have h : IsDate (-1) 2 29 := ⟨by decide, by decide, by decide⟩
  ⟨h, ymdFromAbsolute_bijection.2.2 _ _ _ h⟩

/-! ### Weeks -/

/-- `CFAbsoluteTimeGetWeekOfYear` for a time in the day `absolute`. -/
def weekOfYear : ℤ :=
  let (year, month, day) := ymdFromAbsolute absolute
  let dow0101 := absoluteFromYMD year 1 1 % 7 + 1
  let dow20101 := absoluteFromYMD (year + 1) 1 1 % 7 + 1
  if (month = 1 ∧ day < 4) ∧ ((day < 4 ∧ dow0101 = 5) ∨ (day < 3 ∧ dow0101 = 6) ∨
      (day < 2 ∧ dow0101 = 7)) then 53
  else if (month = 12 ∧ 28 < day) ∧ ((28 < day ∧ dow20101 = 4) ∨ (29 < day ∧ dow20101 = 3) ∨
      (30 < day ∧ dow20101 = 2)) then 1
  else (daysBeforeMonth month (isleap year) + day + (dow0101 - 11).tmod 7 + 2).tdiv 7 + 1

/-- The Thursday of the week of a day. Weeks begin on Monday, as day 0 is one. -/
def thursday : ℤ := absolute - absolute % 7 + 3

def yearOf : ℤ := monthOf (absolute + 11323) / 12 - 2001

def firstThursday : ℤ := newYear y + (3 - newYear y) % 7

/-- The week of ISO 8601: it belongs to the year of its Thursday, and is
counted from the week of the first Thursday of that year. -/
def isoWeek : ℤ :=
  (thursday absolute - firstThursday (yearOf (thursday absolute))) / 7 + 1

theorem absoluteFromYMD_newYear : absoluteFromYMD y 1 1 = newYear y := by
  have hmonth := monthStart_monthNumber y le_rfl (by decide)
  rw [absoluteFromYMD_eq y 1 le_rfl (by decide), hmonth]
  simp [daysBeforeMonth]

theorem yearOf_eq {y absolute : ℤ} (hle : newYear y ≤ absolute) (hlt : absolute < newYear (y + 1)) :
    yearOf absolute = y := by
  have hthis := absoluteFromYMD_newYear y
  have hnext := absoluteFromYMD_newYear (y + 1)
  rw [absoluteFromYMD_eq _ _ le_rfl (by decide)] at hthis hnext
  have hof := monthStart_monthOf_le (absolute + 11323)
  have hof' := lt_monthStart_monthOf (absolute + 11323)
  have h1 := monthStart_strictMono.lt_iff_lt.mp (show monthStart (monthOf (absolute + 11323)) <
    monthStart (monthNumber (y + 1) 1) by omega)
  have h2 := monthStart_strictMono.lt_iff_lt.mp (show monthStart (monthNumber y 1) <
    monthStart (monthOf (absolute + 11323) + 1) by omega)
  unfold monthNumber at h1 h2
  unfold yearOf
  omega

theorem yearDays_cases :
    (isleap y = true ∧ yearDays y = 366) ∨ isleap y = false ∧ yearDays y = 365 := by
  rw [yearDays_eq]
  cases isleap y <;> simp

section

variable {absolute y d : ℤ} {m : ℕ} (h : ymdFromAbsolute absolute = (y, m, d))
include h

theorem date_inYear : (newYear y ≤ absolute ∧ absolute < newYear (y + 1)) ∧
      daysBeforeMonth m (isleap y) + d = absolute - newYear y + 1 ∧
      (m = 1 ∧ d = absolute - newYear y + 1 ∨ m ≠ 1 ∧ newYear y + 31 ≤ absolute) ∧
      (m = 12 ∧ d = absolute - newYear (y + 1) + 32 ∨
        m ≠ 12 ∧ absolute + 31 < newYear (y + 1)) := by
  obtain ⟨y', m', d', hymd, ⟨⟨h1, h12⟩, hd1, hd⟩, hday⟩ := ymdFromAbsolute_spec absolute
  cases h.symm.trans hymd
  have hsucc := newYear_succ y
  have hstart := monthStart_monthNumber y h1 (by omega)
  have hnext := monthStart_monthNumber y (Nat.le_add_left 1 m) (by omega)
  rw [monthNumber_succ, monthStart_succ] at hnext
  rw [yearDays_eq] at hsucc
  interval_cases m <;> cases hl : isleap y <;>
    simp [hl, daysBeforeMonth] at hsucc hstart hnext ⊢ <;> omega

/-- The days that the source singles out are those whose Thursday is in another year. For
the others the formula is right, with the remainder of a negative number. -/
theorem weekOfYear_eq : weekOfYear absolute = if thursday absolute < newYear y then 53
    else if newYear (y + 1) ≤ thursday absolute then 1
    else (thursday absolute - firstThursday y) / 7 + 1 := by
  obtain ⟨⟨hle, hlt⟩, hday, hjan, hdec⟩ := date_inYear h
  rw [weekOfYear, h]
  dsimp only
  rw [absoluteFromYMD_newYear, absoluteFromYMD_newYear, hday]
  unfold thursday firstThursday
  generalize newYear y = first at *
  refine ite_congr (propext (by omega)) (fun _ => rfl) fun hthis => ?_
  refine ite_congr (propext (by omega)) (fun _ => rfl) fun _ => ?_
  have htmod : (first % 7 + 1 - 11).tmod 7 = -((10 - first % 7) % 7) := by
    rw [← Int.neg_sub, Int.neg_tmod, Int.tmod_eq_emod_of_nonneg (by omega)]
    omega
  rw [htmod, Int.tdiv_eq_ediv_of_nonneg (by omega)]
  omega

theorem yearOf_thursday : yearOf (thursday absolute) = if thursday absolute < newYear y then y - 1
      else if newYear (y + 1) ≤ thursday absolute then y + 1 else y := by
  obtain ⟨⟨hle, hlt⟩, -⟩ := date_inYear h
  have hlast := newYear_succ (y - 1)
  have hnext := newYear_succ (y + 1)
  have h0 := yearDays_cases (y - 1)
  have h1 := yearDays_cases (y + 1)
  rw [Int.sub_add_cancel] at hlast
  unfold thursday
  split_ifs with h h'
  · exact yearOf_eq (by omega) (by rw [Int.sub_add_cancel]; exact h)
  · exact yearOf_eq h' (by omega)
  · exact yearOf_eq (by omega) (by omega)

end

/-- A 1 January that is a Sunday, and 1 and 2 January of a year that begins on a Saturday and
follows a year which is not a leap year. -/
def Misnumbered (absolute y : ℤ) : Prop :=
  (newYear y % 7 = 6 ∧ absolute = newYear y) ∨ newYear y % 7 = 5 ∧ isleap (y - 1) = false ∧
    (absolute = newYear y ∨ absolute = newYear y + 1)

theorem weekOfYear_eq_isoWeek_iff (absolute : ℤ) :
    weekOfYear absolute = isoWeek absolute ↔ ∀ y, ¬Misnumbered absolute y := by
  obtain ⟨y, m, d, hymd, -⟩ := ymdFromAbsolute_spec absolute
  obtain ⟨⟨hle, hlt⟩, -⟩ := date_inYear hymd
  have honly : (∀ y, ¬Misnumbered absolute y) ↔ ¬Misnumbered absolute y := by
    refine ⟨fun h => h y, fun h y' h' => h ?_⟩
    have hsucc := newYear_succ y'
    have hlen := yearDays_cases y'
    have hyear : yearOf absolute = y' := by
      unfold Misnumbered at h'
      exact yearOf_eq (by omega) (by omega)
    rwa [← yearOf_eq hle hlt, hyear]
  have hlast := newYear_succ (y - 1)
  have h0 := yearDays_cases (y - 1)
  rw [Int.sub_add_cancel] at hlast
  rw [honly, weekOfYear_eq hymd, isoWeek, yearOf_thursday hymd]
  unfold thursday firstThursday Misnumbered
  split_ifs
  · have hleap : isleap (y - 1) = false ↔ yearDays (y - 1) = 365 := by
      rcases h0 with h0 | h0 <;> simp [h0]
    rw [hleap]
    omega
  · omega
  · exact iff_of_true rfl (by omega)

/-- 1 January 2012 was a Sunday. It belongs to the week 52 of the year before. -/
theorem weekOfYear_sunday : weekOfYear 4017 = 53 ∧ isoWeek 4017 = 52 := by
  have h : ymdFromAbsolute 4017 = (11, 1, 1) := ymdFromAbsolute_eq (by unfold IsDate; decide) rfl
  exact ⟨by rw [weekOfYear_eq h]; decide, by decide⟩

end Hexley.Cf.Date
