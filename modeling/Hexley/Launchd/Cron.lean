import Hexley.Lib.Calendar

/-!
The calendar intervals of `launchd_core_logic.c`.

`calendarinterval_setalarm` computes when a job runs next. Five functions
search for it, one for each field, and each calls the one for the next
smaller field: they advance a `struct tm` until all fields fit, and let
`mktime` carry what has become too large. The local time has a fixed offset
from UTC here, so that a `struct tm` and the seconds since 1970 determine
each other, and what `mktime` leaves in its argument does not depend on the
offset.

As in the source, a field of an interval is `-1` if it is absent.
-/

namespace Hexley.Launchd

open Lib.Calendar

structure Tm where
  sec : ℤ
  min : ℤ
  hour : ℤ
  mday : ℤ
  mon : ℤ
  year : ℤ
  wday : ℤ
  deriving DecidableEq

namespace Tm

/-- The number of the month. The field `mon` may exceed the year. -/
def month (w : Tm) : ℤ := 12 * (w.year + 1900) + w.mon

def day (w : Tm) : ℤ := monthStart w.month + w.mday - 1

def minutes (w : Tm) : ℤ := 1440 * w.day + 60 * w.hour + w.min

def seconds (w : Tm) : ℤ := 60 * w.minutes + w.sec

end Tm

def brokenDown (s : ℤ) : Tm where
  sec := s % 60
  min := s / 60 % 60
  hour := s / 3600 % 24
  mday := s / 86400 - monthStart (monthOf (s / 86400)) + 1
  mon := monthOf (s / 86400) % 12
  year := monthOf (s / 86400) / 12 - 1900
  wday := weekday (s / 86400)

/-- `localtime` where local time is ahead of UTC by `off` seconds. -/
def localtime (off t : ℤ) : Tm := brokenDown (t + off)

variable (w : Tm)

/-- What `mktime` leaves in its argument. -/
def normalize : Tm := brokenDown w.seconds

def mktime (off : ℤ) (w : Tm) : ℤ := w.seconds - off

/-! ### The searches -/

/-- `while (!test(&w)) { ... }`. What the body does is `advance`, which is
`none` where it returns from the function with `false`. -/
def retry (test : Tm → Option (Bool × Tm)) (advance : Tm → Option Tm) : ℕ → Tm → Option (Bool × Tm)
  | 0, _ => none
  | fuel + 1, w =>
    match test w with
    | none => none
    | some (true, w) => some (true, w)
    | some (false, w) =>
      match advance w with
      | none => some (false, w)
      | some w => retry test advance fuel w

/-- The end of such a body: `mktime`, and the test whether it has changed
the field that was advanced. -/
def carrytest (field : Tm → ℤ) (w : Tm) : Option Tm :=
  if field w ≠ field (normalize w) then none else some (normalize w)

/-- A search on the copy `workingtm`, which is stored in `*wtm` if it was
successful. -/
def onCopy (wtm : Tm) : Option (Bool × Tm) → Option (Bool × Tm)
  | none => none
  | some (true, workingtm) => some (true, workingtm)
  | some (false, _) => some (false, wtm)

def cronemuMin (min : ℤ) (wtm : Tm) : Option (Bool × Tm) :=
  if min = -1 then some (true, wtm)
  else if min < wtm.min then some (false, wtm)
  else if min > wtm.min then some (true, { wtm with min := min })
  else some (true, wtm)

def advanceHour : Option Tm :=
  carrytest Tm.hour { w with hour := w.hour + 1, min := 0 }

variable (fuel : ℕ)

def cronemuHour (hour min : ℤ) (wtm : Tm) : Option (Bool × Tm) :=
  if hour = -1 then onCopy wtm (retry (cronemuMin min) advanceHour fuel wtm)
  else if hour < wtm.hour then some (false, wtm)
  else if hour > wtm.hour then cronemuMin min { wtm with hour := hour, min := 0 }
  else cronemuMin min wtm

def advanceMday : Option Tm :=
  carrytest Tm.mday { w with mday := w.mday + 1, hour := 0, min := 0 }

def cronemuMday (mday hour min : ℤ) (wtm : Tm) : Option (Bool × Tm) :=
  if mday = -1 then onCopy wtm (retry (cronemuHour fuel hour min) advanceMday fuel wtm)
  else if mday < wtm.mday then some (false, wtm)
  else if mday > wtm.mday then
    cronemuHour fuel hour min { wtm with mday := mday, hour := 0, min := 0 }
  else cronemuHour fuel hour min wtm

def advanceMon : Option Tm :=
  carrytest Tm.mon { w with mon := w.mon + 1, mday := 1, hour := 0, min := 0 }

def cronemuMon (mon mday hour min : ℤ) (wtm : Tm) : Option (Bool × Tm) :=
  if mon = -1 then onCopy wtm (retry (cronemuMday fuel mday hour min) advanceMon fuel wtm)
  else if mon < wtm.mon then some (false, wtm)
  else if mon > wtm.mon then
    cronemuMday fuel mday hour min { wtm with mon := mon, mday := 1, hour := 0, min := 0 }
  else cronemuMday fuel mday hour min wtm

variable (off now : ℤ)

/-- Where the searches start: the current time without its seconds and with
the minute incremented, to 60 if need be. -/
def startTm : Tm :=
  let workingtm := localtime off now
  { workingtm with sec := 0, min := workingtm.min + 1 }

def advanceYear : Option Tm :=
  some (normalize { w with year := w.year + 1, mon := 0, mday := 1, hour := 0, min := 0 })

def cronemu (fuel : ℕ) (mon mday hour min : ℤ) : Option ℤ :=
  (retry (cronemuMon fuel mon mday hour min) advanceYear fuel (startTm off now)).map
    fun r => mktime off r.2

def wdayTest (wday hour min : ℤ) (w : Tm) : Option (Bool × Tm) :=
  if w.wday = wday then cronemuHour fuel hour min w else some (false, w)

def advanceWday : Option Tm :=
  some (normalize { w with mday := w.mday + 1, hour := 0, min := 0 })

def cronemuWday (fuel : ℕ) (wday hour min : ℤ) : Option ℤ :=
  (retry (wdayTest fuel (if wday = 7 then 0 else wday) hour min) advanceWday fuel
    (startTm off now)).map fun r => mktime off r.2

/-- `struct calendarinterval`: the fields of `when` that are used, and
`when_next`. -/
structure CalendarInterval where
  min : ℤ
  hour : ℤ
  mday : ℤ
  mon : ℤ
  wday : ℤ
  whenNext : ℤ

/-- The insertion into `sorted_calendar_events`, before the first interval
whose alarm is later. -/
def insertEvent (ci : CalendarInterval) : List CalendarInterval → List CalendarInterval
  | [] => [ci]
  | ciIter :: events =>
    if ci.whenNext < ciIter.whenNext then ci :: ciIter :: events
    else ciIter :: insertEvent ci events

def nextAlarm (fuel : ℕ) (ci : CalendarInterval) : Option ℤ := do
  let later ← cronemu off now fuel ci.mon ci.mday ci.hour ci.min
  if ci.wday ≠ -1 then
    let otherlater ← cronemuWday off now fuel ci.wday ci.hour ci.min
    if ci.mday = -1 then some otherlater
    else some (if later < otherlater then later else otherlater)
  else some later

/-- `calendarinterval_setalarm`: the interval with its alarm, and the sorted
events with it. The timer is then set for the first of the events. -/
def calendarintervalSetalarm (fuel : ℕ) (ci : CalendarInterval)
    (events : List CalendarInterval) : Option (CalendarInterval × List CalendarInterval) :=
  (nextAlarm off now fuel ci).map fun whenNext =>
    let ci := { ci with whenNext := whenNext }
    (ci, insertEvent ci events)

end Hexley.Launchd
