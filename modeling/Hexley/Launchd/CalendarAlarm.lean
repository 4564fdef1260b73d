import Hexley.Launchd.CronSearch

/-!
When the alarm of a calendar interval goes off.

It ought to be the first whole minute after the current time whose local
time matches the interval. The alarm is the first minute that either matches
or is one of three kinds of false alarm, which are the ways in which the
code departs from that:

* the search starts at minute 60 at the end of an hour, and if no minute is
  asked for this is accepted as it is, although it belongs to the next hour,
  which may not match;
* a day of the month that is asked for is not compared with the length of
  the month, and `mktime` makes another date of one that does not exist;
* the search for a weekday does not look at the month.

So the alarm is right if and only if no false alarm comes before the first
match.
-/

namespace Hexley.Launchd

open Lib.Calendar Option

/-! ### What the alarm is for -/

/-- The fields that are given are in their ranges. Sunday is 0 or 7. -/
structure CalendarInterval.Valid (ci : CalendarInterval) : Prop where
  min : InRange 0 59 ci.min
  hour : InRange 0 23 ci.hour
  mday : InRange 1 31 ci.mday
  mon : InRange 0 11 ci.mon
  wday : InRange 0 7 ci.wday

variable (ci : CalendarInterval)

variable (w : Tm)

def CalendarInterval.TimeMatches : Prop :=
  (ci.hour = -1 ∨ w.hour = ci.hour) ∧ (ci.min = -1 ∨ w.min = ci.min)

def CalendarInterval.MonMatches : Prop :=
  ci.mon = -1 ∨ w.mon = ci.mon

def CalendarInterval.MdayMatches : Prop :=
  ci.mday = -1 ∨ w.mday = ci.mday

def CalendarInterval.WdayMatches : Prop :=
  ci.wday ≠ -1 ∧ w.wday = ci.wday % 7

def CalendarInterval.ByDate : Prop := ci.wday = -1 ∨ ci.mday ≠ -1

/-- The day matches. A day of the month and a weekday that are given are
alternatives. -/
def CalendarInterval.DayMatches : Prop :=
  ci.ByDate ∧ ci.MdayMatches w ∨ ci.WdayMatches w

def CalendarInterval.Matches : Prop :=
  ci.MonMatches w ∧ ci.DayMatches w ∧ ci.TimeMatches w

instance (ci : CalendarInterval) (w : Tm) : Decidable (ci.Matches w) :=
  inferInstanceAs (Decidable ((_ ∨ _) ∧ ((_ ∨ _) ∧ (_ ∨ _) ∨ (_ ∧ _)) ∧ (_ ∨ _) ∧ (_ ∨ _)))

variable (off now : ℤ)

def wholeMinutes : Set ℤ := {t | now < t ∧ (localtime off t).sec = 0}

def matchingMinutes (ci : CalendarInterval) : Set ℤ :=
  {t ∈ wholeMinutes off now | ci.Matches (localtime off t)}

/-! ### False alarms -/

def NextHour (ci : CalendarInterval) (t : ℤ) : Prop :=
  t + off = 60 * ((now + off) / 60 + 1) ∧ (localtime off now).min = 59 ∧ ci.min = -1 ∧
    (ci.hour = -1 ∨ (localtime off now).hour = ci.hour)

/-- The next minute, at the end of an hour of a day that matches. The month
is not looked at if the day matches as a weekday. -/
def SpillsOver (ci : CalendarInterval) (t : ℤ) : Prop :=
  NextHour off now ci t ∧
    (ci.ByDate ∧ ci.MonMatches (localtime off now) ∧ ci.MdayMatches (localtime off now) ∨
      ci.WdayMatches (localtime off now))

/-- What `mktime` makes of a day that a month does not have. -/
def MissesDay (ci : CalendarInterval) (t : ℤ) : Prop :=
  ∃ M, (localtime off now).month ≤ M ∧ MonthOk ci.mon M ∧ monthLength M < ci.mday ∧
    (localtime off t).day = monthStart M + ci.mday - 1 ∧ ci.TimeMatches (localtime off t)

def MissesMonth (off : ℤ) (ci : CalendarInterval) (t : ℤ) : Prop :=
  ci.WdayMatches (localtime off t) ∧ ci.TimeMatches (localtime off t) ∧
    ¬ci.MonMatches (localtime off t)

/-- The whole minutes after the current time that the code takes for a
match without looking at all the fields. -/
def falseAlarms (ci : CalendarInterval) : Set ℤ :=
  {t ∈ wholeMinutes off now | SpillsOver off now ci t ∨ MissesDay off now ci t ∨
    MissesMonth off ci t}

/-! ### What a search finds, in time -/

/-- The times of the quadruples that a search accepts, and the start if it
is taken as it is. -/
def accepts (off : ℤ) (w : Tm) (accepted : ℤ → ℤ → ℤ → ℤ → Prop) (spill : Prop) : Set ℤ :=
  {t | 60 * w.minutes ≤ t + off ∧
    ((∃ M j h m, accepted M j h m ∧ t + off = 60 * minutesOf M j h m) ∨
      spill ∧ t + off = 60 * w.minutes)}

theorem Found.isLeast {off : ℤ} {w w' : Tm} {accepted : ℤ → ℤ → ℤ → ℤ → Prop} {spill : Prop}
    (h : Found accepted spill w w') : IsLeast (accepts off w accepted spill) (mktime off w') := by
  have hvalue : mktime off w' + off = 60 * w'.minutes := by
    rw [mktime, Tm.seconds, h.sec]
    omega
  refine ⟨⟨?_, ?_⟩, ?_⟩
  · have := h.le
    omega
  · refine h.ok.imp (fun hok => ⟨_, _, _, _, hok, hvalue⟩) fun hspill => ⟨hspill.1, ?_⟩
    rw [hvalue, hspill.2]
  · rintro t ⟨hle, ⟨M, j, hh, m, hok, ht⟩ | ⟨hspill, ht⟩⟩
    · have := h.least M j hh m hok (by omega)
      omega
    · have := h.spilled hspill
      omega

variable {off now t hour min M j h m : ℤ}

theorem mem_wholeMinutes :
    t ∈ wholeMinutes off now ↔ 60 * (startTm off now).minutes ≤ t + off ∧ (t + off) % 60 = 0 := by
  rw [startTm_minutes]
  change now < t ∧ (t + off) % 60 = 0 ↔ _
  omega

theorem exists_minutesOf (ht : (t + off) % 60 = 0) :
    t + off = 60 * minutesOf (localtime off t).month (localtime off t).mday
      (localtime off t).hour (localtime off t).min := by
  change t + off = 60 * (brokenDown (t + off)).minutes
  rw [brokenDown_minutes]
  omega

theorem timeOk_localtime {ci : CalendarInterval} (h : ci.TimeMatches (localtime off t)) :
    TimeOk ci.hour ci.min (localtime off t).hour (localtime off t).min := by
  refine ⟨h.1, h.2, ?_⟩
  simp only [localtime, brokenDown]
  omega

theorem localtime_minutesOf (htime : TimeOk hour min h m) (ht : t + off = 60 * minutesOf M j h m) :
    (localtime off t).hour = h ∧ (localtime off t).min = m ∧
      (localtime off t).day = monthStart M + j - 1 := by
  unfold TimeOk at htime
  rw [localtime, brokenDown_day, ht]
  unfold minutesOf
  simp only [brokenDown]
  omega

theorem localtime_exists (htime : TimeOk hour min h m) (hj : 1 ≤ j) (hj' : j ≤ monthLength M)
    (ht : t + off = 60 * minutesOf M j h m) :
    (localtime off t).mday = j ∧ (localtime off t).mon = M % 12 := by
  obtain ⟨-, -, hh, hh', hm, hm'⟩ := htime
  rw [localtime, ht, brokenDown_minutesOf hj hj' hh hh' hm hm']
  exact ⟨rfl, rfl⟩

theorem wday_localtime (off t : ℤ) : (localtime off t).wday = weekday (localtime off t).day := by
  rw [localtime, brokenDown_day]
  rfl

theorem localtime_mon (off t : ℤ) : (localtime off t).mon = (localtime off t).month % 12 := by
  rw [localtime, brokenDown_month]
  rfl

theorem month_le_month (h : now ≤ t) : (localtime off now).month ≤ (localtime off t).month := by
  rw [localtime, localtime, brokenDown_month, brokenDown_month]
  by_contra hlt
  have hmono := monthStart_add_le (not_le.mp hlt)
  have hle := monthStart_monthOf_le ((now + off) / 86400)
  have hend := lt_monthStart_monthOf ((t + off) / 86400)
  rw [monthStart_succ] at hend
  omega

/-! ### The two searches -/

section Searches

variable (off now : ℤ) (ci : CalendarInterval)

/-- What `cronemu` takes for a match. -/
def DateAlarm (t : ℤ) : Prop :=
  ci.MonMatches (localtime off t) ∧ ci.MdayMatches (localtime off t) ∧
      ci.TimeMatches (localtime off t) ∨
    MissesDay off now ci t ∨
    NextHour off now ci t ∧ ci.MonMatches (localtime off now) ∧ ci.MdayMatches (localtime off now)

/-- What `cronemu_wday` takes for a match. -/
def WdayAlarm (t : ℤ) : Prop :=
  ci.WdayMatches (localtime off t) ∧ ci.TimeMatches (localtime off t) ∨
    NextHour off now ci t ∧ ci.WdayMatches (localtime off now)

theorem accepts_cronemu :
    accepts off (startTm off now) (FromMonth (startTm off now) ci.mon ci.mday ci.hour ci.min)
        (SpillMonth (startTm off now) ci.mon ci.mday ci.hour ci.min) =
      {t ∈ wholeMinutes off now | DateAlarm off now ci t} := by
  ext t
  rw [Set.mem_sep_iff, mem_wholeMinutes]
  constructor
  · rintro ⟨hle, ⟨M, j, h, m, ⟨hM, hmon, hday, htime⟩, ht⟩ |
      ⟨⟨⟨⟨hmin, h60, hhour⟩, hmday⟩, hmon⟩, ht⟩⟩
    · obtain ⟨hh, hm, hd⟩ := localtime_minutesOf htime ht
      have hmatch : ci.TimeMatches (localtime off t) := by
        refine ⟨?_, ?_⟩
        · rw [hh]
          exact htime.1
        · rw [hm]
          exact htime.2.1
      refine ⟨⟨hle, by omega⟩, ?_⟩
      by_cases hexists : j ≤ monthLength M
      · obtain ⟨hj, hmon'⟩ := localtime_exists htime hday.1 hexists ht
        refine .inl ⟨?_, ?_, hmatch⟩
        · rw [CalendarInterval.MonMatches, hmon']
          exact hmon
        · rw [CalendarInterval.MdayMatches, hj]
          exact hday.2.imp And.left id
      · -- The day does not exist, so it was asked for.
        obtain rfl : j = ci.mday := by
          unfold DayOk at hday
          omega
        exact .inr (.inl ⟨M, hM, hmon, not_le.mp hexists, hd, hmatch⟩)
    · change (localtime off now).min + 1 = 60 at h60
      refine ⟨⟨hle, by omega⟩, .inr (.inr ⟨⟨?_, by omega, hmin, hhour⟩, hmon, hmday⟩)⟩
      rw [ht, startTm_minutes]
  · rintro ⟨⟨hle, hwhole⟩, ⟨hmon, hmday, htime⟩ | ⟨M, hM, hmon, hlen, hd, htime⟩ |
      ⟨⟨ht, h59, hmin, hhour⟩, hmon, hmday⟩⟩
    · refine ⟨hle, .inl ⟨_, _, _, _, ⟨?_, ?_, ?_, timeOk_localtime htime⟩, exists_minutesOf hwhole⟩⟩
      · apply month_le_month
        rw [startTm_minutes] at hle
        omega
      · rw [MonthOk, ← localtime_mon]
        exact hmon
      · exact ⟨(brokenDown_mday _).1, hmday.imp (fun h => ⟨h, (brokenDown_mday _).2⟩) id⟩
    · have hok := timeOk_localtime htime
      refine ⟨hle, .inl ⟨M, ci.mday, _, _, ⟨hM, hmon, ?_, hok⟩, ?_⟩⟩
      · have := le_monthLength M
        exact ⟨by omega, .inr rfl⟩
      · rw [exists_minutesOf hwhole]
        unfold minutesOf
        rw [← hd]
        rfl
    · refine ⟨hle, .inr ⟨⟨⟨⟨hmin, ?_, hhour⟩, hmday⟩, hmon⟩, ?_⟩⟩
      · change (localtime off now).min + 1 = 60
        omega
      · rw [ht, startTm_minutes]

theorem accepts_cronemuWday (hw : ci.wday ≠ -1) :
    accepts off (startTm off now) (OnWeekday (ci.wday % 7) ci.hour ci.min)
        (SpillWeekday (startTm off now) (ci.wday % 7) ci.hour ci.min) =
      {t ∈ wholeMinutes off now | WdayAlarm off now ci t} := by
  ext t
  rw [Set.mem_sep_iff, mem_wholeMinutes]
  constructor
  · rintro ⟨hle, ⟨M, j, h, m, ⟨hwday, htime⟩, ht⟩ | ⟨⟨⟨hmin, h60, hhour⟩, hwday⟩, ht⟩⟩
    · obtain ⟨hh, hm, hd⟩ := localtime_minutesOf htime ht
      refine ⟨⟨hle, by omega⟩, .inl ⟨⟨hw, ?_⟩, ?_, ?_⟩⟩
      · rw [wday_localtime, hd, hwday]
      · rw [hh]
        exact htime.1
      · rw [hm]
        exact htime.2.1
    · change (localtime off now).min + 1 = 60 at h60
      refine ⟨⟨hle, by omega⟩, .inr ⟨⟨?_, by omega, hmin, hhour⟩, hw, hwday⟩⟩
      rw [ht, startTm_minutes]
  · rintro ⟨⟨hle, hwhole⟩, ⟨hwday, htime⟩ | ⟨⟨ht, h59, hmin, hhour⟩, hwday⟩⟩
    · refine ⟨hle, .inl ⟨_, _, _, _, ⟨?_, timeOk_localtime htime⟩, exists_minutesOf hwhole⟩⟩
      rw [← hwday.2, wday_localtime]
      rfl
    · refine ⟨hle, .inr ⟨⟨⟨hmin, ?_, hhour⟩, hwday.2⟩, ?_⟩⟩
      · change (localtime off now).min + 1 = 60
        omega
      · rw [ht, startTm_minutes]

/-- The matches and the false alarms are what the two searches take, of
which `cronemu` counts only if it is not just a weekday that is given. -/
theorem alarms_eq : matchingMinutes off now ci ∪ falseAlarms off now ci =
      {t ∈ wholeMinutes off now | ci.ByDate ∧ DateAlarm off now ci t ∨ WdayAlarm off now ci t} := by
  ext t
  have hmissing (h : MissesDay off now ci t) : ci.ByDate := by
    obtain ⟨M, -, -, hlen, -⟩ := h
    have := le_monthLength M
    exact .inr (by omega)
  rw [Set.mem_union, matchingMinutes, falseAlarms, Set.mem_sep_iff, Set.mem_sep_iff,
    Set.mem_sep_iff, ← and_or_left, CalendarInterval.Matches, CalendarInterval.DayMatches,
    SpillsOver, MissesMonth, DateAlarm, WdayAlarm]
  refine and_congr_right fun _ => ?_
  revert hmissing
  grind

theorem nextAlarm_isLeast (hci : ci.Valid) (fuel : ℕ) :
    ∃ next, nextAlarm off now (fuel + 8) ci = some next ∧
      IsLeast (matchingMinutes off now ci ∪ falseAlarms off now ci) next := by
  obtain ⟨wx, hx, hfound⟩ := cronemu_spec off now hci.mon hci.mday hci.hour hci.min (fuel + 6)
  have hdate : IsLeast _ (mktime off wx) := hfound.isLeast
  rw [accepts_cronemu] at hdate
  by_cases hw : ci.wday = -1
  · refine ⟨mktime off wx, by simp [nextAlarm, hx, hw], ?_⟩
    have hby : ci.ByDate := .inl hw
    have hno (w : Tm) : ¬ci.WdayMatches w := fun h => h.1 hw
    simpa only [alarms_eq, hby, WdayAlarm, hno, true_and, false_and, and_false, or_false]
      using hdate
  · have hrange : 0 ≤ ci.wday ∧ ci.wday ≤ 7 := hci.wday.resolve_left hw
    obtain ⟨ww, hwday, hfound'⟩ := cronemuWday_spec off now hrange hci.hour hci.min fuel
    have hday : IsLeast _ (mktime off ww) := hfound'.isLeast
    rw [accepts_cronemuWday off now ci hw] at hday
    rw [nextAlarm, hx, hwday]
    by_cases hm : ci.mday = -1
    · refine ⟨mktime off ww, by simp [hw, hm], ?_⟩
      have hby : ¬ci.ByDate := fun h => h.elim hw fun hne => hne hm
      simpa only [alarms_eq, hby, false_and, false_or] using hday
    · refine ⟨min (mktime off wx) (mktime off ww), ?_, ?_⟩
      · simp only [hm, hw, bind_eq_bind, bind_some, ne_eq, not_false_eq_true,
          if_true, if_false, some.injEq]
        split_ifs <;> omega
      · have hby : ci.ByDate := .inr hm
        simpa only [alarms_eq, hby, true_and, Set.sep_or] using hdate.union hday

end Searches

/-- The alarm that is set is the first whole minute after the current time
that matches, if and only if every false alarm has a match before it. -/
theorem setalarm_isLeast_iff (off now : ℤ) (ci : CalendarInterval) (hci : ci.Valid)
    (events : List CalendarInterval) (fuel : ℕ) :
    (∃ r, calendarintervalSetalarm off now (fuel + 8) ci events = some r ∧
        IsLeast (matchingMinutes off now ci) r.1.whenNext) ↔
      ∀ t ∈ falseAlarms off now ci, ∃ t' ∈ matchingMinutes off now ci, t' ≤ t := by
  obtain ⟨next, hnext, hleast⟩ := nextAlarm_isLeast off now ci hci fuel
  constructor
  · rintro ⟨r, hr, hmem, hfirst⟩ t ht
    rw [calendarintervalSetalarm, hnext, map_some, some.injEq] at hr
    subst hr
    exact ⟨next, hmem, hleast.2 (.inr ht)⟩
  · intro hbefore
    refine ⟨_, by rw [calendarintervalSetalarm, hnext, map_some], ?_,
      fun t ht => hleast.2 (.inl ht)⟩
    rcases hleast.1 with hmatch | hfalse
    · exact hmatch
    · obtain ⟨t', ht', hle⟩ := hbefore next hfalse
      obtain rfl : t' = next := le_antisymm hle (hleast.2 (.inl ht'))
      exact ht'

/-- A job for half past three every day has no false alarms. -/
theorem setalarm_isLeast_daily : CalendarInterval.Valid ⟨30, 3, -1, -1, -1, 0⟩ ∧
      ∃ r, calendarintervalSetalarm 3600 1000000000 8 ⟨30, 3, -1, -1, -1, 0⟩ [] = some r ∧
        IsLeast (matchingMinutes 3600 1000000000 ⟨30, 3, -1, -1, -1, 0⟩) r.1.whenNext := by
  have hvalid : CalendarInterval.Valid ⟨30, 3, -1, -1, -1, 0⟩ :=
    ⟨.inr (by decide), .inr (by decide), .inl rfl, .inl rfl, .inl rfl⟩
  refine ⟨hvalid, (setalarm_isLeast_iff _ _ _ hvalid _ 0).mpr ?_⟩
  rintro t ⟨-, ⟨⟨-, -, hmin, -⟩, -⟩ | ⟨M, -, -, hlen, -⟩ | ⟨⟨hwday, -⟩, -⟩⟩
  · exact absurd hmin (by decide)
  · have := le_monthLength M
    dsimp only at hlen
    omega
  · exact absurd rfl hwday

/-- There is a match, and it is not the first one that the alarm is set
to. -/
def Misfires (now : ℤ) (ci : CalendarInterval) : Prop :=
  ci.Valid ∧ (matchingMinutes 0 now ci).Nonempty ∧
    ¬∃ r, calendarintervalSetalarm 0 now 8 ci [] = some r ∧
      IsLeast (matchingMinutes 0 now ci) r.1.whenNext

theorem misfires {next later : ℤ} {ci : CalendarInterval} (hci : ci.Valid) (hnow : now < later)
    (hsec : (localtime 0 later).sec = 0) (hlater : ci.Matches (localtime 0 later))
    (hnext : nextAlarm 0 now 8 ci = some next) (hno : ¬ci.Matches (localtime 0 next)) :
    Misfires now ci:= by
  refine ⟨hci, ⟨later, ⟨hnow, hsec⟩, hlater⟩, ?_⟩
  rintro ⟨r, hr, hmem, -⟩
  rw [calendarintervalSetalarm, hnext, map_some, some.injEq] at hr
  subst hr
  exact hno hmem.2

/-- The three kinds of false alarm. A job for every minute from three to four
is started at four if the current time is 3:59. A job for the 31st is
started on 3 March if the current date is 10 February 1970. A job for the
Sundays in December is started on the first Sunday in January if that comes
first. -/
theorem setalarm_not_isLeast :
    Misfires 14340 ⟨-1, 3, -1, -1, -1, 0⟩ ∧ Misfires 3456000 ⟨0, 0, 31, -1, -1, 0⟩ ∧
      Misfires 0 ⟨0, 0, -1, 11, 0, 0⟩ := by
  refine ⟨?_, ?_, ?_⟩
  · have hvalid : CalendarInterval.Valid ⟨-1, 3, -1, -1, -1, 0⟩ :=
      ⟨.inl rfl, .inr (by decide), .inl rfl, .inl rfl, .inl rfl⟩
    have hnext : nextAlarm 0 14340 8 ⟨-1, 3, -1, -1, -1, 0⟩ = some 14400 := by decide +kernel
    have hlater : CalendarInterval.Matches ⟨-1, 3, -1, -1, -1, 0⟩ (localtime 0 97200) := by
      decide +kernel
    exact misfires hvalid (by decide) (by decide +kernel) hlater hnext (by decide +kernel)
  · have hvalid : CalendarInterval.Valid ⟨0, 0, 31, -1, -1, 0⟩ :=
      ⟨.inr (by decide), .inr (by decide), .inr (by decide), .inl rfl, .inl rfl⟩
    have hnext : nextAlarm 0 3456000 8 ⟨0, 0, 31, -1, -1, 0⟩ = some 5270400 := by decide +kernel
    have hlater : CalendarInterval.Matches ⟨0, 0, 31, -1, -1, 0⟩ (localtime 0 7689600) := by
      decide +kernel
    exact misfires hvalid (by decide) (by decide +kernel) hlater hnext (by decide +kernel)
  · have hvalid : CalendarInterval.Valid ⟨0, 0, -1, 11, 0, 0⟩ :=
      ⟨.inr (by decide), .inr (by decide), .inl rfl, .inr (by decide), .inr (by decide)⟩
    have hnext : nextAlarm 0 0 8 ⟨0, 0, -1, 11, 0, 0⟩ = some 259200 := by decide +kernel
    have hlater : CalendarInterval.Matches ⟨0, 0, -1, 11, 0, 0⟩ (localtime 0 29289600) := by
      decide +kernel
    exact misfires hvalid (by decide) (by decide +kernel) hlater hnext (by decide +kernel)

end Hexley.Launchd
