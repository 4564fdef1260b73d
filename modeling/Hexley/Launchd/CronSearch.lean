import Hexley.Launchd.Cron

/-!
What the searches of the calendar code find.

A search works on a month, a day in it, an hour and a minute, and it takes
them as they come: the day may not exist in the month, and the minute may be
60 at the start. Such a quadruple stands for the minute that `mktime` makes
of it. With respect to these quadruples every search is right: it finds the
first one that is accepted, or there is none left that it could reach. The
one exception is a start at minute 60 that is accepted as it is.
-/

namespace Hexley.Launchd

open Lib.Calendar Tm

/-! ### Broken-down times -/

namespace Tm

structure Proper (w : Tm) : Prop where
  sec : w.sec = 0
  mon : 0 ≤ w.mon ∧ w.mon < 12
  mday : 1 ≤ w.mday ∧ w.mday ≤ monthLength w.month
  hour : 0 ≤ w.hour ∧ w.hour < 24
  min : 0 ≤ w.min ∧ w.min ≤ 60
  wday : w.wday = weekday w.day

end Tm

/-- The minute that `mktime` makes of a month, a day, an hour and a
minute. -/
def minutesOf (M j h m : ℤ) : ℤ := 1440 * (monthStart M + j - 1) + 60 * h + m

theorem Tm.minutes_eq (w : Tm) : w.minutes = minutesOf w.month w.mday w.hour w.min := rfl

variable (off now : ℤ) (s : ℤ)

theorem brokenDown_month : (brokenDown s).month = monthOf (s / 86400) := by
  simp only [month, brokenDown]
  omega

theorem brokenDown_day : (brokenDown s).day = s / 86400 := by
  rw [day, brokenDown_month]
  simp only [brokenDown]
  omega

theorem brokenDown_minutes : (brokenDown s).minutes = s / 60 := by
  rw [minutes, brokenDown_day]
  simp only [brokenDown]
  omega

theorem brokenDown_mday :
    1 ≤ (brokenDown s).mday ∧ (brokenDown s).mday ≤ monthLength (brokenDown s).month := by
  have hle := monthStart_monthOf_le (s / 86400)
  have hlt := lt_monthStart_monthOf (s / 86400)
  rw [monthStart_succ] at hlt
  rw [brokenDown_month]
  simp only [brokenDown]
  omega

theorem brokenDown_ranges : (0 ≤ (brokenDown s).mon ∧ (brokenDown s).mon < 12) ∧
    (0 ≤ (brokenDown s).hour ∧ (brokenDown s).hour < 24) ∧
      0 ≤ (brokenDown s).min ∧ (brokenDown s).min < 60 := by
  simp only [brokenDown]
  omega

variable {M j h m : ℤ}

theorem brokenDown_minutesOf (hj : 1 ≤ j) (hj' : j ≤ monthLength M) (hh : 0 ≤ h)
    (hh' : h < 24) (hm : 0 ≤ m) (hm' : m < 60) : brokenDown (60 * minutesOf M j h m) =
      ⟨0, m, h, j, M % 12, M / 12 - 1900, weekday (monthStart M + j - 1)⟩ := by
  have hday : 60 * minutesOf M j h m / 86400 = monthStart M + j - 1 := by
    unfold minutesOf
    omega
  have hmonth : monthOf (monthStart M + j - 1) = M := monthOf_eq (by omega) (by omega)
  unfold brokenDown
  rw [hday, hmonth]
  unfold minutesOf
  congr 1 <;> omega

variable {w w' : Tm} {fuel : ℕ}

theorem normalize_eq (hsec : w.sec = 0) (hmon : 0 ≤ w.mon ∧ w.mon < 12)
    (hmday : 1 ≤ w.mday ∧ w.mday ≤ monthLength w.month) (hhour : 0 ≤ w.hour ∧ w.hour < 24)
    (hmin : 0 ≤ w.min ∧ w.min < 60) : normalize w = { w with wday := weekday w.day } := by
  rw [normalize, seconds, hsec, Int.add_zero, minutes_eq,
    brokenDown_minutesOf hmday.1 hmday.2 hhour.1 hhour.2 hmin.1 hmin.2, ← hsec,
    show w.month % 12 = w.mon by unfold month; omega,
    show w.month / 12 - 1900 = w.year by unfold month; omega]
  rfl

theorem normalize_mday (hsec : w.sec = 0) (hmday : w.mday = monthLength w.month + 1)
    (hhour : w.hour = 0) (hmin : w.min = 0) :
    normalize w = ⟨0, 0, 0, 1, (w.month + 1) % 12, (w.month + 1) / 12 - 1900, weekday w.day⟩ := by
  have hlen := le_monthLength (w.month + 1)
  have hday : w.minutes = minutesOf (w.month + 1) 1 0 0 := by
    rw [minutes_eq, hhour, hmin, hmday, minutesOf, minutesOf, monthStart_succ]
    omega
  rw [normalize, seconds, hsec, hday, Int.add_zero,
    brokenDown_minutesOf le_rfl (by omega) le_rfl (by omega) le_rfl (by omega), day, hmday,
    monthStart_succ]
  congr 2
  omega

theorem normalize_mon (hsec : w.sec = 0) (hmday : w.mday = 1) (hhour : w.hour = 0)
    (hmin : w.min = 0) :
    normalize w = ⟨0, 0, 0, 1, w.month % 12, w.month / 12 - 1900, weekday w.day⟩ := by
  have hlen := le_monthLength w.month
  rw [normalize, seconds, hsec, Int.add_zero, minutes_eq, hmday, hhour, hmin,
    brokenDown_minutesOf le_rfl (by omega) le_rfl (by omega) le_rfl (by omega), day, hmday]

theorem startTm_proper : (startTm off now).Proper := by
  obtain ⟨hmon, hhour, hmin⟩ := brokenDown_ranges (now + off)
  refine ⟨rfl, hmon, brokenDown_mday _, hhour, ?_, ?_⟩
  · change 0 ≤ (brokenDown _).min + 1 ∧ (brokenDown _).min + 1 ≤ 60
    omega
  · change weekday _ = weekday (brokenDown _).day
    rw [brokenDown_day]

theorem startTm_minutes : (startTm off now).minutes = (now + off) / 60 + 1 := by
  rw [← brokenDown_minutes]
  unfold startTm localtime minutes day month
  dsimp only
  omega

/-! ### What is accepted -/

def TimeOk (hour min h m : ℤ) : Prop :=
  (hour = -1 ∨ h = hour) ∧ (min = -1 ∨ m = min) ∧ 0 ≤ h ∧ h < 24 ∧ 0 ≤ m ∧ m < 60

/-- A day that fits. One that is asked for is not compared with the length
of the month. -/
def DayOk (mday M j : ℤ) : Prop := 1 ≤ j ∧ (mday = -1 ∧ j ≤ monthLength M ∨ j = mday)

def MonthOk (mon M : ℤ) : Prop := mon = -1 ∨ M % 12 = mon

def InRange (lo hi x : ℤ) : Prop := x = -1 ∨ lo ≤ x ∧ x ≤ hi

def AtLeast (lo x : ℤ) : Prop := x = -1 ∨ lo ≤ x

theorem InRange.atLeast {lo hi x : ℤ} (h : InRange lo hi x) : AtLeast lo x := h.imp_right And.left

def pick (x d : ℤ) : ℤ := if x = -1 then d else x

theorem pick_absent {x : ℤ} (h : x = -1) (d : ℤ) : pick x d = d := if_pos h

theorem pick_given {x : ℤ} (h : x ≠ -1) (d : ℤ) : pick x d = x := if_neg h

variable {hour min : ℤ}

theorem timeOk_pick (hh : InRange 0 23 hour) (hm : InRange 0 59 min) :
    TimeOk hour min (pick hour 0) (pick min 0) := by
  unfold InRange at hh hm
  unfold TimeOk pick
  split_ifs <;> omega

theorem pick_le (htime : TimeOk hour min h m) : pick hour 0 ≤ h ∧ pick min 0 ≤ m := by
  unfold TimeOk at htime
  unfold pick
  split_ifs <;> omega

theorem minutesOf_bounds (htime : TimeOk hour min h m) (M j : ℤ) :
    1440 * (monthStart M + j - 1) ≤ minutesOf M j h m ∧
      minutesOf M j h m < 1440 * (monthStart M + j) := by
  unfold TimeOk at htime
  unfold minutesOf
  omega

theorem minutesOf_pick_le {M' j' : ℤ} (htime : TimeOk hour min h m)
    (hday : monthStart M' + j' ≤ monthStart M + j) :
    minutesOf M' j' (pick hour 0) (pick min 0) ≤ minutesOf M j h m := by
  obtain ⟨hhour, hmin⟩ := pick_le htime
  unfold minutesOf
  omega

/-- A search that starts at `w` has found `w'`: it is accepted, or the start
was taken as it is, and nothing that is accepted comes before it. -/
structure Found (accepted : ℤ → ℤ → ℤ → ℤ → Prop) (spill : Prop) (w w' : Tm) : Prop where
  sec : w'.sec = 0
  le : w.minutes ≤ w'.minutes
  ok : accepted w'.month w'.mday w'.hour w'.min ∨ spill ∧ w'.minutes = w.minutes
  spilled : spill → w'.minutes = w.minutes
  least : ∀ M j h m, accepted M j h m → w.minutes ≤ minutesOf M j h m →
    w'.minutes ≤ minutesOf M j h m

def NotFound (accepted : ℤ → ℤ → ℤ → ℤ → Prop) (spill : Prop) (w : Tm) : Prop :=
  ¬spill ∧ ∀ M j h m, accepted M j h m → minutesOf M j h m < w.minutes

/-! ### The loop -/

section Retry

variable {test : Tm → Option (Bool × Tm)} {advance : Tm → Option Tm} {w'' : Tm}

theorem retry_found (h : test w = some (true, w')) :
    retry test advance (fuel + 1) w = some (true, w') := by
  rw [retry, h]

theorem retry_stop (h : test w = some (false, w')) (ha : advance w' = none) :
    retry test advance (fuel + 1) w = some (false, w') := by
  rw [retry, h]
  simp only [ha]

theorem retry_again (h : test w = some (false, w')) (ha : advance w' = some w'') :
    retry test advance (fuel + 1) w = retry test advance fuel w'' := by
  rw [retry, h]
  simp only [ha]

/-- The search for a field with the value `x`, which the functions are
instances of. -/
def search (sub : Tm → Option (Bool × Tm)) (advance : Tm → Option Tm) (field : Tm → ℤ)
    (set : Tm → Tm) (x : ℤ) (fuel : ℕ) (w : Tm) : Option (Bool × Tm) :=
  if x = -1 then onCopy w (retry sub advance fuel w)
  else if x < field w then some (false, w)
  else if x > field w then sub (set w)
  else sub w

theorem search_first {lo : ℤ} (field : Tm → ℤ) (set : Tm → Tm) {x : ℤ} {f : ℤ → Tm}
    (hx : AtLeast lo x) (hfield : field w = lo) (htest : test w = some (true, f lo))
    (hset : test (set w) = some (true, f x)) :
    search test advance field set x (fuel + 1) w = some (true, f (pick x lo)) := by
  unfold search
  by_cases habsent : x = -1
  · rw [if_pos habsent, retry_found htest, onCopy, pick_absent habsent]
  · rw [if_neg habsent, if_neg (by unfold AtLeast at hx; omega), pick_given habsent]
    split_ifs with hgt
    · exact hset
    · rw [htest, show x = lo by unfold AtLeast at hx; omega]

theorem search_cases (field : Tm → ℤ) (set : Tm → Tm) (x : ℤ) {F : Tm → Prop} {N last : Prop}
    [Decidable last] {v w₁ w₂ : Tm}
    (htest : (∃ w', test w = some (true, w') ∧ F w') ∨ test w = some (false, w) ∧ N)
    (hset : test (set w) = some (true, w₁)) (hadvance : advance w = if last then none else some v)
    (hnext : test v = some (true, w₂)) :
    (∃ w', search test advance field set x (fuel + 2) w = some (true, w') ∧
      ((x = -1 ∨ field w = x) ∧ F w' ∨ x ≠ -1 ∧ field w < x ∧ w' = w₁ ∨
        x = -1 ∧ N ∧ ¬last ∧ w' = w₂)) ∨
    search test advance field set x (fuel + 2) w = some (false, w) ∧
      (x ≠ -1 ∧ x < field w ∨ N ∧ (field w = x ∨ x = -1 ∧ last)) := by
  unfold search
  by_cases habsent : x = -1
  · rw [if_pos habsent]
    rcases htest with ⟨w', heq, hfound⟩ | ⟨heq, hnone⟩
    · exact .inl ⟨w', by rw [retry_found heq, onCopy], .inl ⟨.inl habsent, hfound⟩⟩
    · split_ifs at hadvance with hlast
      · exact .inr ⟨by rw [retry_stop heq hadvance, onCopy], .inr ⟨hnone, .inr ⟨habsent, hlast⟩⟩⟩
      · exact .inl ⟨w₂, by rw [retry_again heq hadvance, retry_found hnext, onCopy],
          .inr (.inr ⟨habsent, hnone, hlast, rfl⟩)⟩
  · rw [if_neg habsent]
    rcases lt_trichotomy x (field w) with hlt | hfit | hgt
    · exact .inr ⟨if_pos hlt, .inl ⟨habsent, hlt⟩⟩
    · rw [if_neg hfit.not_lt, if_neg hfit.not_gt]
      exact htest.imp (fun ⟨w', heq, hfound⟩ => ⟨w', heq, .inl ⟨.inr hfit.symm, hfound⟩⟩)
        fun ⟨heq, hnone⟩ => ⟨heq, .inr ⟨hnone, .inl hfit.symm⟩⟩
    · rw [if_neg hgt.not_gt, if_pos hgt]
      exact .inl ⟨w₁, hset, .inr (.inl ⟨habsent, hgt, rfl⟩)⟩

end Retry

/-! ### Minutes and hours -/

theorem cronMin_eq : cronemuMin min w = if min ≠ -1 ∧ min < w.min then some (false, w)
      else some (true, { w with min := pick min w.min }) := by
  unfold cronemuMin pick
  by_cases habsent : min = -1
  · simp [habsent]
  · by_cases hlt : min < w.min
    · simp [habsent, hlt]
    · rcases eq_or_lt_of_le (not_lt.mp hlt) with heq | hgt
      · simp [← heq]
      · simp [habsent, hlt, hgt]

theorem min_zero (hm : AtLeast 0 min) (hmin : w.min = 0) :
    cronemuMin min w = some (true, { w with min := pick min 0 }) := by
  rw [cronMin_eq, if_neg (by unfold AtLeast at hm; omega), hmin]

theorem hour_midnight (hh : AtLeast 0 hour) (hm : AtLeast 0 min) (hhour : w.hour = 0)
    (hmin : w.min = 0) : cronemuHour (fuel + 1) hour min w =
      some (true, { w with hour := pick hour 0, min := pick min 0 }) :=
  search_first Tm.hour (fun w => { w with hour := hour, min := 0 })
    (f := fun h => { w with hour := h, min := pick min 0 }) hh hhour
    (by rw [min_zero hm hmin, ← hhour]) (min_zero hm rfl)

def OnDay (w : Tm) (hour min M j h m : ℤ) : Prop :=
  M = w.month ∧ j = w.mday ∧ TimeOk hour min h m

def SpillHour (w : Tm) (hour min : ℤ) : Prop :=
  min = -1 ∧ w.min = 60 ∧ (hour = -1 ∨ w.hour = hour)

theorem found_time (hsec : w.sec = 0) (hle : 60 * w.hour + w.min ≤ 60 * h + m)
    (hok : TimeOk hour min h m ∨ SpillHour w hour min)
    (hspill : SpillHour w hour min → 60 * h + m = 60 * w.hour + w.min)
    (hleast : ∀ h' m', TimeOk hour min h' m' → 60 * w.hour + w.min ≤ 60 * h' + m' →
      60 * h + m ≤ 60 * h' + m') :
    Found (OnDay w hour min) (SpillHour w hour min) w { w with hour := h, min := m } := by
  have hminutes : ({ w with hour := h, min := m } : Tm).minutes =
      w.minutes + (60 * h + m) - (60 * w.hour + w.min) := by
    change 1440 * w.day + 60 * h + m = 1440 * w.day + 60 * w.hour + w.min + _ - _
    omega
  have hstart (hstart : SpillHour w hour min) :
      ({ w with hour := h, min := m } : Tm).minutes = w.minutes := by
    have := hspill hstart
    omega
  refine ⟨hsec, by omega, hok.imp (fun htime => ⟨rfl, rfl, htime⟩) fun h => ⟨h, hstart h⟩,
    hstart, ?_⟩
  rintro M j h' m' ⟨rfl, rfl, htime⟩ hle
  have := hleast h' m' htime
  rw [hminutes]
  rw [minutes_eq] at hle ⊢
  unfold minutesOf at hle ⊢
  omega

theorem notFound_time (hspill : ¬SpillHour w hour min)
    (h : ∀ h m, TimeOk hour min h m → 60 * h + m < 60 * w.hour + w.min) :
    NotFound (OnDay w hour min) (SpillHour w hour min) w := by
  refine ⟨hspill, ?_⟩
  rintro M j h' m' ⟨rfl, rfl, htime⟩
  have := h h' m' htime
  rw [minutes_eq]
  unfold minutesOf
  omega

theorem advanceHour_eq (hw : w.Proper) : advanceHour w =
    if w.hour = 23 then none else some { w with hour := w.hour + 1, min := 0 } := by
  obtain ⟨hsec, hmon, hmday, hhour, -, hwday⟩ := hw
  let u : Tm := { w with hour := w.hour + 1, min := 0 }
  by_cases hlast : w.hour = 23
  · -- The hour is carried into the next day.
    rw [if_pos hlast]
    refine if_pos ?_
    change w.hour + 1 ≠ _ / 3600 % 24
    omega
  · have hnorm : normalize u = { u with wday := weekday u.day } :=
      normalize_eq hsec hmon hmday (show 0 ≤ w.hour + 1 ∧ w.hour + 1 < 24 by omega)
        (show (0 : ℤ) ≤ 0 ∧ (0 : ℤ) < 60 by omega)
    rw [if_neg hlast, advanceHour, carrytest, hnorm, if_neg (not_not.mpr rfl)]
    exact congrArg (fun d => some { u with wday := d }) hwday.symm

/-- `cronemu_hour` finds the first hour and minute of the day that fit. -/
theorem hour_spec (hw : w.Proper) (hh : InRange 0 23 hour) (hm : InRange 0 59 min) (fuel : ℕ) :
    (∃ w', cronemuHour (fuel + 2) hour min w = some (true, w') ∧
        Found (OnDay w hour min) (SpillHour w hour min) w w') ∨
      cronemuHour (fuel + 2) hour min w = some (false, w) ∧
        NotFound (OnDay w hour min) (SpillHour w hour min) w := by
  have htest : (∃ w', cronemuMin min w = some (true, w') ∧ (min = -1 ∨ w.min ≤ min) ∧
      w' = { w with min := pick min w.min }) ∨
      cronemuMin min w = some (false, w) ∧ min ≠ -1 ∧ min < w.min := by
    rw [cronMin_eq]
    split_ifs with hpast
    · exact .inr ⟨rfl, hpast⟩
    · exact .inl ⟨_, rfl, by omega, rfl⟩
  have hfirst := timeOk_pick hh hm
  have hnext := advanceHour_eq hw
  obtain ⟨hsec, -, -, hhour, hmin, -⟩ := hw
  rcases search_cases Tm.hour (fun w => { w with hour := hour, min := 0 }) hour htest
    (min_zero hm.atLeast rfl) hnext (min_zero hm.atLeast rfl) with
      ⟨w', heq, ⟨hfit, hle, rfl⟩ | ⟨habsent, hgt, rfl⟩ |
      ⟨habsent, hpast, hlast, rfl⟩⟩ | ⟨heq, ⟨habsent, hlt⟩ | ⟨hpast, hlast⟩⟩
  · refine .inl ⟨_, heq, ?_⟩
    by_cases habsent : min = -1
    · rw [pick_absent habsent]
      refine found_time hsec le_rfl ?_ (fun _ => rfl) fun h' m' htime hstart => hstart
      unfold TimeOk SpillHour
      omega
    · rw [pick_given habsent]
      refine found_time hsec (by omega) (.inl ?_) (fun hspill => absurd hspill.1 habsent)
        fun h' m' htime hstart => ?_
      · unfold InRange at hm
        unfold TimeOk
        omega
      · unfold TimeOk at htime
        omega
  · rw [pick_given habsent] at hfirst
    refine .inl ⟨_, heq, found_time (h := hour) hsec ?_ (.inl hfirst) ?_ fun h' m' htime _ => ?_⟩
    · unfold TimeOk at hfirst
      omega
    · unfold SpillHour
      omega
    · have hle := pick_le htime
      unfold TimeOk at htime
      omega
  · refine .inl ⟨_, heq, found_time (h := w.hour + 1) hsec ?_ (.inl ?_)
      (fun hspill => absurd hspill.1 hpast.1) fun h' m' htime hstart => ?_⟩
    · unfold TimeOk at hfirst
      omega
    · unfold TimeOk at hfirst ⊢
      omega
    · rw [pick_given hpast.1]
      unfold TimeOk at htime
      omega
  · refine .inr ⟨heq, notFound_time ?_ fun h m htime => ?_⟩
    · unfold SpillHour
      omega
    · unfold TimeOk at htime
      omega
  · refine .inr ⟨heq, notFound_time (fun hspill => hpast.1 hspill.1) fun h m htime => ?_⟩
    unfold TimeOk at htime
    omega

/-! ### Days -/

def OnMonth (w : Tm) (mday hour min M j h m : ℤ) : Prop :=
  M = w.month ∧ DayOk mday M j ∧ TimeOk hour min h m

def SpillDay (w : Tm) (mday hour min : ℤ) : Prop :=
  SpillHour w hour min ∧ (mday = -1 ∨ w.mday = mday)

theorem Tm.Proper.minutes_bounds (hw : w.Proper) :
    1440 * (monthStart w.month + w.mday - 1) ≤ w.minutes ∧
      w.minutes ≤ 1440 * (monthStart w.month + w.mday) := by
  have hhour := hw.hour
  have hmin := hw.min
  rw [minutes_eq]
  unfold minutesOf
  omega

variable {mday : ℤ}

theorem mday_first (hd : AtLeast 1 mday) (hh : AtLeast 0 hour) (hm : AtLeast 0 min)
    (hmday : w.mday = 1) (hhour : w.hour = 0) (hmin : w.min = 0) :
    cronemuMday (fuel + 1) mday hour min w = some (true,
        { w with mday := pick mday 1, hour := pick hour 0, min := pick min 0 }) :=
  search_first Tm.mday (fun w => { w with mday := mday, hour := 0, min := 0 })
    (f := fun j => { w with mday := j, hour := pick hour 0, min := pick min 0 }) hd hmday
    (by rw [hour_midnight hh hm hhour hmin, ← hmday]) (hour_midnight hh hm rfl rfl)

theorem found_mday (hw : w.Proper) (hh : InRange 0 23 hour)
    (hm : InRange 0 59 min) (hsec : w'.sec = 0) (hmonth : w'.month = w.month)
    (hhour : w'.hour = pick hour 0) (hmin : w'.min = pick min 0) (hlt : w.mday < w'.mday)
    (hok : DayOk mday w.month w'.mday) (hspill : ¬SpillDay w mday hour min)
    (hleast : ∀ j h m, DayOk mday w.month j → TimeOk hour min h m →
      w.minutes ≤ minutesOf w.month j h m → w'.mday ≤ j) :
    Found (OnMonth w mday hour min) (SpillDay w mday hour min) w w' := by
  have hminutes : w'.minutes = minutesOf w.month w'.mday (pick hour 0) (pick min 0) := by
    rw [minutes_eq, hmonth, hhour, hmin]
  refine ⟨hsec, ?_, .inl ⟨hmonth, hmonth ▸ hok, ?_⟩, fun hstart => absurd hstart hspill, ?_⟩
  · have hstart := hw.minutes_bounds
    have hbounds := minutesOf_bounds (timeOk_pick hh hm) w.month w'.mday
    omega
  · rw [hhour, hmin]
    exact timeOk_pick hh hm
  · rintro M j h m ⟨rfl, hday, htime⟩ hstart
    rw [hminutes]
    exact minutesOf_pick_le htime (by have := hleast j h m hday htime hstart; omega)

theorem Found.onMonth (hw : w.Proper) (hfit : mday = -1 ∨ w.mday = mday)
    (h : Found (OnDay w hour min) (SpillHour w hour min) w w') :
    Found (OnMonth w mday hour min) (SpillDay w mday hour min) w w' := by
  have hstart := hw.minutes_bounds
  have hmday := hw.mday
  refine ⟨h.sec, h.le, ?_, fun hspill => h.spilled hspill.1, ?_⟩
  · refine h.ok.imp (fun ⟨hM, hj, htime⟩ => ⟨hM, ?_, htime⟩) fun hspill =>
      ⟨⟨hspill.1, hfit⟩, hspill.2⟩
    rw [hM, hj]
    unfold DayOk
    omega
  · rintro M j h' m' ⟨rfl, hday, htime⟩ hle
    have hbounds := minutesOf_bounds htime w.month j
    rcases lt_trichotomy j w.mday with hlt | rfl | hgt
    · omega
    · exact h.least _ _ _ _ ⟨rfl, rfl, htime⟩ hle
    · rcases h.ok with ⟨hM, hj, hfound⟩ | ⟨-, hspill⟩
      · have hend := minutesOf_bounds hfound w.month w.mday
        rw [minutes_eq, hM, hj]
        omega
      · omega

theorem advanceMday_eq (hw : w.Proper) : advanceMday w =
    if w.mday = monthLength w.month then none
    else some { w with mday := w.mday + 1, hour := 0, min := 0, wday := weekday (w.day + 1) } := by
  have hmday := hw.mday
  let u : Tm := { w with mday := w.mday + 1, hour := 0, min := 0 }
  rw [advanceMday, carrytest]
  by_cases hlast : w.mday = monthLength w.month
  · -- The day is carried into the next month.
    have hnorm : normalize u = _ := normalize_mday hw.sec
      (show w.mday + 1 = monthLength w.month + 1 by omega) rfl rfl
    rw [if_pos hlast, hnorm, if_pos]
    dsimp only
    omega
  · have hnorm : normalize u = { u with wday := weekday u.day } :=
      normalize_eq hw.sec hw.mon (show 1 ≤ w.mday + 1 ∧ w.mday + 1 ≤ monthLength w.month by omega)
        (show (0 : ℤ) ≤ 0 ∧ (0 : ℤ) < 24 by omega) (show (0 : ℤ) ≤ 0 ∧ (0 : ℤ) < 60 by omega)
    rw [if_neg hlast, hnorm, if_neg (not_not.mpr rfl), show u.day = w.day + 1 from ?_]
    show monthStart w.month + (w.mday + 1) - 1 = monthStart w.month + w.mday - 1 + 1
    omega

/-- `cronemu_mday` finds the first day, hour and minute of the month that
fit. -/
theorem cronemuMday_spec (hw : w.Proper) (hh : InRange 0 23 hour) (hm : InRange 0 59 min)
    (fuel : ℕ) :
    (∃ w', cronemuMday (fuel + 2) mday hour min w = some (true, w') ∧
        Found (OnMonth w mday hour min) (SpillDay w mday hour min) w w') ∨
      cronemuMday (fuel + 2) mday hour min w = some (false, w) ∧
        NotFound (OnMonth w mday hour min) (SpillDay w mday hour min) w := by
  have hstart := hw.minutes_bounds
  have hmday := hw.mday
  have hrest (hnone : NotFound (OnDay w hour min) (SpillHour w hour min) w) {j h m : ℤ}
      (htime : TimeOk hour min h m) (hle : j ≤ w.mday) : minutesOf w.month j h m < w.minutes := by
    rcases eq_or_lt_of_le hle with rfl | hlt
    · exact hnone.2 _ _ _ _ ⟨rfl, rfl, htime⟩
    · have hbounds := minutesOf_bounds htime w.month j
      omega
  rcases search_cases Tm.mday (fun w => { w with mday := mday, hour := 0, min := 0 }) mday
    (hour_spec hw hh hm fuel) (hour_midnight hh.atLeast hm.atLeast rfl rfl) (advanceMday_eq hw)
    (hour_midnight hh.atLeast hm.atLeast rfl rfl) with
    ⟨w', heq, ⟨hfit, hfound⟩ | ⟨habsent, hgt, rfl⟩ | ⟨habsent, hnone, hlast, rfl⟩⟩ |
      ⟨heq, ⟨habsent, hlt⟩ | ⟨hnone, hlast⟩⟩
  · exact .inl ⟨w', heq, hfound.onMonth hw hfit⟩
  · refine .inl ⟨_, heq, found_mday hw hh hm hw.sec rfl rfl rfl hgt ?_
      (fun hspill => by have := hspill.2; omega) fun j h m hday htime hle => ?_⟩
    · show DayOk mday w.month mday
      unfold DayOk
      omega
    · show mday ≤ j
      unfold DayOk at hday
      omega
  · refine .inl ⟨_, heq, found_mday hw hh hm hw.sec rfl rfl rfl (show w.mday < w.mday + 1 by omega)
      ?_ (fun hspill => hnone.1 hspill.1) fun j h m hday htime hle => ?_⟩
    · show DayOk mday w.month (w.mday + 1)
      unfold DayOk
      omega
    · by_contra hlt
      have := hrest hnone htime (Int.lt_add_one_iff.mp (not_le.mp hlt))
      omega
  · refine .inr ⟨heq, fun hspill => by have := hspill.2; omega, ?_⟩
    rintro M j h m ⟨rfl, hday, htime⟩
    have hbounds := minutesOf_bounds htime w.month j
    unfold DayOk at hday
    omega
  · refine .inr ⟨heq, fun hspill => hnone.1 hspill.1, ?_⟩
    rintro M j h m ⟨rfl, hday, htime⟩
    refine hrest hnone htime ?_
    unfold DayOk at hday
    omega

/-! ### Months and years -/

def FromMonth (w : Tm) (mon mday hour min M j h m : ℤ) : Prop :=
  w.month ≤ M ∧ MonthOk mon M ∧ DayOk mday M j ∧ TimeOk hour min h m

def SpillMonth (w : Tm) (mon mday hour min : ℤ) : Prop :=
  SpillDay w mday hour min ∧ (mon = -1 ∨ w.mon = mon)

theorem minutesOf_le_of_lt {hour' min' M' j' h' m' : ℤ}
    (hday : DayOk mday M j) (htime : TimeOk hour min h m) (hlt : M < M')
    (hday' : DayOk mday M' j') (htime' : TimeOk hour' min' h' m') :
    minutesOf M j h m ≤ minutesOf M' j' h' m' := by
  have hbounds := minutesOf_bounds htime M j
  have hbounds' := minutesOf_bounds htime' M' j'
  have hmonth := monthStart_add_le hlt
  have hlen := le_monthLength M
  unfold DayOk at hday hday'
  omega

variable {mon : ℤ}

theorem mon_first (ho : AtLeast 0 mon) (hd : AtLeast 1 mday) (hh : AtLeast 0 hour)
    (hm : AtLeast 0 min) (hmon : w.mon = 0) (hmday : w.mday = 1) (hhour : w.hour = 0)
    (hmin : w.min = 0) : cronemuMon (fuel + 1) mon mday hour min w =
      some (true, { w with mon := pick mon 0, mday := pick mday 1, hour := pick hour 0,
                           min := pick min 0 }) :=
  search_first Tm.mon (fun w => { w with mon := mon, mday := 1, hour := 0, min := 0 })
    (f := fun M => { w with mon := M, mday := pick mday 1, hour := pick hour 0, min := pick min 0 })
    ho hmon (by rw [mday_first hd hh hm hmday hhour hmin, ← hmon]) (mday_first hd hh hm rfl rfl rfl)

theorem found_mon (hw : w.Proper) (hd : InRange 1 31 mday)
    (hh : InRange 0 23 hour) (hm : InRange 0 59 min) (hsec : w'.sec = 0)
    (hmday : w'.mday = pick mday 1) (hhour : w'.hour = pick hour 0) (hmin : w'.min = pick min 0)
    (hlt : w.month < w'.month) (hok : MonthOk mon w'.month)
    (hspill : ¬SpillMonth w mon mday hour min)
    (hleast : ∀ M j h m, FromMonth w mon mday hour min M j h m →
      w.minutes ≤ minutesOf M j h m → w'.month ≤ M) :
    Found (FromMonth w mon mday hour min) (SpillMonth w mon mday hour min) w w' := by
  have hfirst : DayOk mday w'.month (pick mday 1) := by
    have hlen := le_monthLength w'.month
    unfold InRange at hd
    unfold DayOk pick
    split_ifs <;> omega
  have hminutes : w'.minutes = minutesOf w'.month (pick mday 1) (pick hour 0) (pick min 0) := by
    rw [minutes_eq, hmday, hhour, hmin]
  refine ⟨hsec, ?_, .inl ⟨hlt.le, hok, hmday ▸ hfirst, ?_⟩, fun hstart => absurd hstart hspill, ?_⟩
  · have hstart := hw.minutes_bounds
    have hbounds := minutesOf_bounds (timeOk_pick hh hm) w'.month (pick mday 1)
    have hmonth := monthStart_add_le hlt
    have hday := hw.mday
    unfold DayOk at hfirst
    omega
  · rw [hhour, hmin]
    exact timeOk_pick hh hm
  · intro M j h m haccepted hstart
    have hle := hleast M j h m haccepted hstart
    obtain ⟨-, -, hday, htime⟩ := haccepted
    rw [hminutes]
    refine minutesOf_pick_le htime ?_
    have hmono := monthStart_strictMono.monotone hle
    have hday' : pick mday 1 ≤ j := by
      unfold DayOk at hday
      unfold pick
      split_ifs <;> omega
    omega

theorem Found.fromMonth (hw : w.Proper) (hfit : mon = -1 ∨ w.mon = mon)
    (h : Found (OnMonth w mday hour min) (SpillDay w mday hour min) w w') :
    Found (FromMonth w mon mday hour min) (SpillMonth w mon mday hour min) w w' := by
  refine ⟨h.sec, h.le, ?_, fun hspill => h.spilled hspill.1, ?_⟩
  · refine h.ok.imp (fun ⟨hM, hday, htime⟩ => ⟨hM.ge, ?_, hday, htime⟩) fun hspill =>
      ⟨⟨hspill.1, hfit⟩, hspill.2⟩
    rw [hM]
    have hmon := hw.mon
    unfold MonthOk month
    omega
  · rintro M j h' m' ⟨hM, -, hday, htime⟩ hle
    rcases eq_or_lt_of_le hM with rfl | hlt
    · exact h.least _ _ _ _ ⟨rfl, hday, htime⟩ hle
    · rcases h.ok with ⟨hM', hday', htime'⟩ | ⟨-, hspill⟩
      · exact minutesOf_le_of_lt hday' htime' (hM' ▸ hlt) hday htime
      · omega

theorem advanceMon_eq (hw : w.Proper) : advanceMon w =
    if w.mon = 11 then none
    else some { w with mon := w.mon + 1, mday := 1, hour := 0, min := 0,
                       wday := weekday (monthStart (w.month + 1)) } := by
  let u : Tm := { w with mon := w.mon + 1, mday := 1, hour := 0, min := 0 }
  have hmon := hw.mon
  have hmonth : w.month = 12 * (w.year + 1900) + w.mon := rfl
  have hu : u.month = w.month + 1 := by
    show 12 * (w.year + 1900) + (w.mon + 1) = w.month + 1
    omega
  have hnorm : normalize u = _ := normalize_mon hw.sec rfl rfl rfl
  rw [day, hu] at hnorm
  rw [advanceMon, carrytest, hnorm]
  by_cases hlast : w.mon = 11
  · -- The month is carried into the next year.
    rw [if_pos hlast, if_pos]
    dsimp only
    omega
  · rw [if_neg hlast, if_neg, show (w.month + 1) % 12 = w.mon + 1 by omega,
      show (w.month + 1) / 12 - 1900 = w.year by omega, Int.add_sub_cancel, hw.sec]
    dsimp only
    omega

/-- `cronemu_mon` finds the first date and time that fit, or there is none
in the year. -/
theorem cronemuMon_spec (hw : w.Proper) (ho : InRange 0 11 mon)
    (hd : InRange 1 31 mday) (hh : InRange 0 23 hour) (hm : InRange 0 59 min) (fuel : ℕ) :
    (∃ w', cronemuMon (fuel + 2) mon mday hour min w = some (true, w') ∧
        Found (FromMonth w mon mday hour min) (SpillMonth w mon mday hour min) w w') ∨
      cronemuMon (fuel + 2) mon mday hour min w = some (false, w) ∧
        ¬SpillMonth w mon mday hour min ∧
        ∀ M j h m, FromMonth w mon mday hour min M j h m → w.minutes ≤ minutesOf M j h m →
          12 * (w.year + 1900 + 1) ≤ M := by
  have hmon := hw.mon
  have hmonth : w.month = 12 * (w.year + 1900) + w.mon := rfl
  have hlater (hnone : NotFound (OnMonth w mday hour min) (SpillDay w mday hour min) w)
      {M j h m : ℤ} (haccepted : FromMonth w mon mday hour min M j h m)
      (hle : w.minutes ≤ minutesOf M j h m) : w.month + 1 ≤ M := by
    obtain ⟨hM, -, hday, htime⟩ := haccepted
    rcases eq_or_lt_of_le hM with rfl | hlt
    · have := hnone.2 _ _ _ _ ⟨rfl, hday, htime⟩
      omega
    · omega
  rcases search_cases Tm.mon (fun w => { w with mon := mon, mday := 1, hour := 0, min := 0 }) mon
    (cronemuMday_spec hw hh hm fuel) (mday_first hd.atLeast hh.atLeast hm.atLeast rfl rfl rfl)
    (advanceMon_eq hw) (mday_first hd.atLeast hh.atLeast hm.atLeast rfl rfl rfl) with
    ⟨w', heq, ⟨hfit, hfound⟩ | ⟨habsent, hgt, rfl⟩ | ⟨habsent, hnone, hlast, rfl⟩⟩ |
      ⟨heq, ⟨habsent, hlt⟩ | ⟨hnone, hlast⟩⟩
  · exact .inl ⟨w', heq, hfound.fromMonth hw hfit⟩
  · refine .inl ⟨_, heq, found_mon hw hd hh hm hw.sec rfl rfl rfl ?_ (.inr ?_)
      (fun hspill => by have := hspill.2; omega) fun M j h m ⟨hM, hok, _⟩ _ => ?_⟩
    · show w.month < 12 * (w.year + 1900) + mon
      omega
    · show (12 * (w.year + 1900) + mon) % 12 = mon
      unfold InRange at ho
      omega
    · show 12 * (w.year + 1900) + mon ≤ M
      unfold MonthOk at hok
      omega
  · refine .inl ⟨_, heq, found_mon hw hd hh hm hw.sec rfl rfl rfl ?_ (.inl habsent)
      (fun hspill => hnone.1 hspill.1) fun M j h m haccepted hle => ?_⟩
    · show w.month < 12 * (w.year + 1900) + (w.mon + 1)
      omega
    · show 12 * (w.year + 1900) + (w.mon + 1) ≤ M
      have := hlater hnone haccepted hle
      omega
  · refine .inr ⟨heq, fun hspill => by have := hspill.2; omega, fun M j h m ⟨hM, hok, _⟩ _ => ?_⟩
    unfold MonthOk at hok
    omega
  · refine .inr ⟨heq, fun hspill => hnone.1 hspill.1, fun M j h m haccepted hle => ?_⟩
    have := hlater hnone haccepted hle
    have hok := haccepted.2.1
    unfold MonthOk at hok
    omega

theorem cronemu_spec (ho : InRange 0 11 mon)
    (hd : InRange 1 31 mday) (hh : InRange 0 23 hour) (hm : InRange 0 59 min) (fuel : ℕ) :
    ∃ w', cronemu off now (fuel + 2) mon mday hour min = some (mktime off w') ∧
      Found (FromMonth (startTm off now) mon mday hour min)
        (SpillMonth (startTm off now) mon mday hour min) (startTm off now) w' := by
  have hw := startTm_proper off now
  generalize hstart : startTm off now = w at hw
  unfold cronemu
  rw [hstart]
  rcases cronemuMon_spec hw ho hd hh hm fuel with ⟨w', heq, hfound⟩ | ⟨heq, hspill, hnone⟩
  · exact ⟨w', by rw [retry_found heq]; rfl, hfound⟩
  · -- What fits is in the next year, at the latest.
    let u : Tm := { w with year := w.year + 1, mon := 0, mday := 1, hour := 0, min := 0 }
    have hmonth : w.month = 12 * (w.year + 1900) + w.mon := rfl
    have hmon := hw.mon
    have hu : u.month = 12 * (w.year + 1900 + 1) := by
      show 12 * (w.year + 1 + 1900) + 0 = _
      omega
    have hnorm : normalize u = _ := normalize_mon hw.sec rfl rfl rfl
    rw [hu, show 12 * (w.year + 1900 + 1) % 12 = 0 by omega,
      show 12 * (w.year + 1900 + 1) / 12 - 1900 = w.year + 1 by omega] at hnorm
    have hagain : advanceYear w = some _ := congrArg some hnorm
    refine ⟨_, by
      rw [retry_again heq hagain, retry_found
        (mon_first ho.atLeast hd.atLeast hh.atLeast hm.atLeast rfl rfl rfl rfl)]
      rfl, ?_⟩
    have hmonth' : ∀ d, (mk 0 (pick min 0) (pick hour 0) (pick mday 1) (pick mon 0) (w.year + 1)
        d).month = 12 * (w.year + 1900 + 1) + pick mon 0 := by
      intro d
      show 12 * (w.year + 1 + 1900) + pick mon 0 = _
      omega
    have hpick : 0 ≤ pick mon 0 ∧ pick mon 0 < 12 := by
      unfold InRange at ho
      unfold pick
      split_ifs <;> omega
    refine found_mon hw hd hh hm rfl rfl rfl rfl ?_ ?_ hspill fun M j h m haccepted hle => ?_
    · rw [hmonth']
      omega
    · rw [hmonth']
      unfold MonthOk pick
      unfold InRange at ho
      split_ifs <;> omega
    · rw [hmonth']
      have hM := hnone M j h m haccepted hle
      have hok := haccepted.2.1
      unfold MonthOk at hok
      unfold pick at hpick ⊢
      split_ifs at hpick ⊢ <;> omega

/-! ### Weekdays -/

/-- What is accepted on a weekday, on whichever day it is. -/
def OnWeekday (wday hour min M j h m : ℤ) : Prop :=
  weekday (monthStart M + j - 1) = wday ∧ TimeOk hour min h m

def SpillWeekday (w : Tm) (wday hour min : ℤ) : Prop := SpillHour w hour min ∧ w.wday = wday

theorem brokenDown_proper {s : ℤ} (hs : s % 60 = 0) : (brokenDown s).Proper := by
  obtain ⟨hmon, hhour, hmin⟩ := brokenDown_ranges s
  exact ⟨hs, hmon, brokenDown_mday s, hhour, by omega, by rw [brokenDown_day]; rfl⟩

theorem advanceWday_eq (hsec : w.sec = 0) :
    ∃ u, advanceWday w = some u ∧ u.Proper ∧ u.day = w.day + 1 ∧ u.hour = 0 ∧ u.min = 0 := by
  have hseconds : ({ w with mday := w.mday + 1, hour := 0, min := 0 } : Tm).seconds =
      86400 * (w.day + 1) := by
    show 60 * (1440 * (monthStart w.month + (w.mday + 1) - 1) + 60 * 0 + 0) + w.sec = _
    rw [hsec, day]
    omega
  refine ⟨brokenDown (86400 * (w.day + 1)), ?_, brokenDown_proper (by omega), ?_, ?_, ?_⟩
  · rw [advanceWday, normalize, hseconds]
  · rw [brokenDown_day]
    omega
  · simp only [brokenDown]
    omega
  · simp only [brokenDown]
    omega

theorem exists_weekday (d : ℤ) {r : ℤ} (hr : 0 ≤ r ∧ r < 7) :
    ∃ k : ℕ, k ≤ 6 ∧ weekday (d + k) = r ∧ ∀ i : ℕ, i < k → weekday (d + i) ≠ r := by
  refine ⟨((r - (d + 4)) % 7).toNat, by omega, ?_, fun i hi hsame => ?_⟩
  · unfold weekday
    omega
  · unfold weekday at hsame
    omega

/-- From a midnight the loop goes on for as many days as the weekday is
away. -/
theorem retry_wday {wday : ℤ} (hh : AtLeast 0 hour) (hm : AtLeast 0 min) (fuel' k : ℕ)
    (hw : w.Proper) (hhour : w.hour = 0) (hmin : w.min = 0)
    (hk : weekday (w.day + k) = wday) (hfirst : ∀ i : ℕ, i < k → weekday (w.day + i) ≠ wday) :
    ∃ w', retry (wdayTest (fuel' + 1) wday hour min) advanceWday (fuel + k + 1) w =
        some (true, w') ∧ w'.sec = 0 ∧ w'.day = w.day + k ∧ w'.hour = pick hour 0 ∧
        w'.min = pick min 0 := by
  induction k generalizing w with
  | zero =>
    refine ⟨{ w with hour := pick hour 0, min := pick min 0 }, retry_found ?_, hw.sec, ?_, rfl, rfl⟩
    · rw [wdayTest, if_pos (by rw [hw.wday, ← hk, Nat.cast_zero, Int.add_zero]),
        hour_midnight hh hm hhour hmin]
    · rw [Nat.cast_zero, Int.add_zero]
      rfl
  | succ k ih =>
    obtain ⟨u, hadvance, hu, hday, huhour, humin⟩ := advanceWday_eq hw.sec
    have htest : wdayTest (fuel' + 1) wday hour min w = some (false, w) := by
      refine if_neg ?_
      have := hfirst 0 (Nat.succ_pos k)
      rw [Nat.cast_zero, Int.add_zero] at this
      rwa [hw.wday]
    rw [← add_assoc, retry_again htest hadvance]
    have hshift (i : ℕ) : u.day + i = w.day + (i + 1 : ℕ) := by
      omega
    obtain ⟨w', heq, hsec, hday', hhour', hmin'⟩ := ih hu huhour humin (by rwa [hshift])
      fun i hi => by
        rw [hshift]
        exact hfirst (i + 1) (by omega)
    exact ⟨w', heq, hsec, by rw [hday', hshift], hhour', hmin'⟩

/-- `cronemu_wday` finds the first time on the weekday that fits. -/
theorem cronemuWday_spec {wday : ℤ} (hd : 0 ≤ wday ∧ wday ≤ 7)
    (hh : InRange 0 23 hour) (hm : InRange 0 59 min) (fuel : ℕ) :
    ∃ w', cronemuWday off now (fuel + 8) wday hour min = some (mktime off w') ∧
      Found (OnWeekday (wday % 7) hour min)
        (SpillWeekday (startTm off now) (wday % 7) hour min) (startTm off now) w' := by
  have hw := startTm_proper off now
  generalize hstart : startTm off now = w at hw
  unfold cronemuWday
  rw [hstart, show (if wday = 7 then 0 else wday) = wday % 7 by split_ifs <;> omega]
  generalize hr : wday % 7 = r
  have hr7 : 0 ≤ r ∧ r < 7 := by omega
  have hbounds := hw.minutes_bounds
  have hday : w.day = monthStart w.month + w.mday - 1 := rfl
  -- Nothing is accepted today if the test fails.
  have hlater (hno : w.wday = r → NotFound (OnDay w hour min) (SpillHour w hour min) w)
      (M j h m : ℤ) (haccepted : OnWeekday r hour min M j h m)
      (hle : w.minutes ≤ minutesOf M j h m) : w.day < monthStart M + j - 1 := by
    obtain ⟨hwd, htime⟩ := haccepted
    have hend := minutesOf_bounds htime M j
    by_contra hlt
    have hsame : monthStart M + j - 1 = w.day := by omega
    have := (hno (by rw [hw.wday, ← hsame, hwd])).2 w.month w.mday h m ⟨rfl, rfl, htime⟩
    unfold minutesOf at hle this
    omega
  have hnext (hno : w.wday = r → NotFound (OnDay w hour min) (SpillHour w hour min) w)
      (htest : wdayTest (fuel + 8) r hour min w = some (false, w)) :
      ∃ w', (retry (wdayTest (fuel + 8) r hour min) advanceWday (fuel + 8) w).map
          (fun x => mktime off x.2) = some (mktime off w') ∧
        Found (OnWeekday r hour min) (SpillWeekday w r hour min) w w' := by
    obtain ⟨u, hadvance, hu, huday, huhour, humin⟩ := advanceWday_eq hw.sec
    obtain ⟨k, hk6, hk, hfirst⟩ := exists_weekday u.day hr7
    obtain ⟨w', heq, hsec, hday', hhour', hmin'⟩ :=
      retry_wday hh.atLeast hm.atLeast (fuel + 7) k hu huhour humin hk hfirst
    have hminutes : w'.minutes = 1440 * (u.day + k) + 60 * pick hour 0 + pick min 0 := by
      rw [minutes, hday', hhour', hmin']
    have hpick := timeOk_pick hh hm
    refine ⟨w', ?_, hsec, ?_, .inl ⟨?_, ?_⟩, fun hspill => ?_, fun M j h m haccepted hle => ?_⟩
    · rw [retry_again htest hadvance, show fuel + 7 = fuel + 6 - k + k + 1 by omega, heq]
      rfl
    · unfold TimeOk at hpick
      omega
    · change weekday w'.day = r
      rw [hday', hk]
    · rw [hhour', hmin']
      exact hpick
    · exact absurd hspill.1 (hno hspill.2).1
    · have hlt := hlater hno M j h m haccepted hle
      obtain ⟨hwd, htime⟩ := haccepted
      obtain ⟨hhle, hmle⟩ := pick_le htime
      have hdays : u.day + k ≤ monthStart M + j - 1 := by
        by_contra hbefore
        refine hfirst (monthStart M + j - 1 - u.day).toNat (by omega) ?_
        rw [show u.day + ((monthStart M + j - 1 - u.day).toNat : ℤ) = monthStart M + j - 1 by omega,
          hwd]
      unfold minutesOf
      omega
  by_cases htoday : w.wday = r
  · rcases hour_spec hw hh hm (fuel + 6) with ⟨w', heq, hfound⟩ | ⟨heq, hnone⟩
    · refine ⟨w', by rw [retry_found ((if_pos htoday).trans heq)]; rfl, hfound.sec, hfound.le, ?_,
        fun hspill => hfound.spilled hspill.1, fun M j h' m' haccepted hle => ?_⟩
      · refine hfound.ok.imp (fun haccepted => ⟨?_, haccepted.2.2⟩) fun hspill =>
          ⟨⟨hspill.1, htoday⟩, hspill.2⟩
        rw [← htoday, hw.wday, haccepted.1, haccepted.2.1, day]
      · obtain ⟨hwd, htime⟩ := haccepted
        have hend := minutesOf_bounds htime M j
        rcases lt_trichotomy (monthStart M + j - 1) w.day with hlt | hsame | hgt
        · omega
        · have hsame' : minutesOf M j h' m' = minutesOf w.month w.mday h' m' := by
            unfold minutesOf
            omega
          rw [hsame'] at hle ⊢
          exact hfound.least _ _ _ _ ⟨rfl, rfl, htime⟩ hle
        · rcases hfound.ok with ⟨hM, hj, hok⟩ | ⟨-, hspill⟩
          · have hthis := minutesOf_bounds hok w.month w.mday
            rw [minutes_eq, hM, hj]
            omega
          · omega
    · exact hnext (fun _ => hnone) ((if_pos htoday).trans heq)
  · exact hnext (fun h => absurd h htoday) (if_neg htoday)

end Hexley.Launchd
