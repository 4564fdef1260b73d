import Hexley.Launchd.CronSearch
import Hexley.Launchd.Pack

/-!
Calendar intervals from job descriptions.

`calendarinterval_new_from_obj` takes the numbers of a dictionary as they
are, without a check of their ranges, and the searches of `cronemu` and
`cronemu_wday` have no bound of their own. A number that is too large does
no harm, since a field that is given is only compared until it is reached
and `mktime` carries the rest. A field that is below its range is never
reached, though, and neither is a weekday above seven, and the search for
it does not end.
-/

namespace Hexley.Launchd

open Lib.Calendar Option

/-! ### The dictionary -/

def lowerCase (b : UInt8) : UInt8 := if 0x41 ≤ b ∧ b ≤ 0x5A then b + 0x20 else b

/-- `LAUNCH_JOBKEY_CAL_MINUTE` and the other keys, in lower case. -/
def calMinute : List Char := ['m', 'i', 'n', 'u', 't', 'e']

def calHour : List Char := ['h', 'o', 'u', 'r']

def calDay : List Char := ['d', 'a', 'y']

def calWeekday : List Char := ['w', 'e', 'e', 'k', 'd', 'a', 'y']

def calMonth : List Char := ['m', 'o', 'n', 't', 'h']

variable (val : UInt64) (tmptm : Tm) (obj : LaunchData) (key : CString) (off now : ℤ)

/-- `strcasecmp` with a name in lower case says that they are equal. -/
def isKey (name : List Char) : Bool :=
  key.bytes.map lowerCase = name.map fun c => UInt8.ofNat c.toNat

def toInt : ℤ := (val.toNat : ℤ).bmod (2 ^ 32)

def toMonth : ℤ := (toInt val - 1).bmod (2 ^ 32)

/-- `calendarinterval_new_from_obj_dict_walk`. -/
def calendarintervalNewFromObjDictWalk : Tm :=
  match obj with
  | .integer val =>
    if isKey key calMinute then { tmptm with min := toInt val }
    else if isKey key calHour then { tmptm with hour := toInt val }
    else if isKey key calDay then { tmptm with mday := toInt val }
    else if isKey key calWeekday then { tmptm with wday := toInt val }
    else if isKey key calMonth then { tmptm with mon := toMonth val }
    else tmptm
  -- The caller is told that something went wrong.
  | _ => { tmptm with sec := -1 }

def launchDataDictIterate (cb : Tm → LaunchData → CString → Tm) : List LaunchData → Tm → Tm
  | .string key :: obj :: elems, context => launchDataDictIterate cb elems (cb context obj key)
  | _, context => context

/-- `calendarinterval_new_from_obj`, where `calloc` succeeds: the interval
that is handed to `calendarinterval_setalarm`. The `memset` clears one `int`
of the structure, and `tmptm` is what it holds before. -/
def calendarintervalNewFromObj : Option CalendarInterval :=
  let tmptm := { tmptm with sec := 0, min := -1, hour := -1, mday := -1, wday := -1, mon := -1 }
  match obj with
  | .dictionary elems =>
    let w := launchDataDictIterate calendarintervalNewFromObjDictWalk elems tmptm
    if w.sec = -1 then none else some ⟨w.min, w.hour, w.mday, w.mon, w.wday, 0⟩
  | _ => none

variable (pairs : List (CString × UInt64))

def integerDictionary : LaunchData :=
  .dictionary (pairs.flatMap fun p => [.string p.1, .integer p.2])

variable (name : List Char)

def lastUnder (pairs : List (CString × UInt64)) : Option UInt64 :=
  (pairs.reverse.find? fun p => isKey p.1 name).map Prod.snd

def fieldOf (convert : UInt64 → ℤ) (pairs : List (CString × UInt64)) : ℤ :=
  (lastUnder name pairs).elim (-1) convert

/-- No field is below its range, and the weekday is in its range. -/
def CanFire : Prop :=
  AtLeast 0 (fieldOf calMinute toInt pairs) ∧ AtLeast 0 (fieldOf calHour toInt pairs) ∧
    AtLeast 1 (fieldOf calDay toInt pairs) ∧
    AtLeast 0 (fieldOf calMonth toMonth pairs) ∧
    InRange 0 7 (fieldOf calWeekday toInt pairs)

theorem lastUnder_cons (p : CString × UInt64) (pairs : List (CString × UInt64)) :
    lastUnder name (p :: pairs) =
      (lastUnder name pairs).or (if isKey p.1 name then some p.2 else none) := by
  rw [lastUnder, List.reverse_cons, List.find?_append, map_or, lastUnder]
  by_cases h : isKey p.1 name <;> simp [h]

theorem isKey_eq_false {key : CString} {name : List Char} (h : isKey key name = true)
    (other : List Char)
    (hne : (name.map fun c => UInt8.ofNat c.toNat) ≠ other.map fun c => UInt8.ofNat c.toNat) :
    isKey key other = false :=
  decide_eq_false fun h' => hne ((of_decide_eq_true h).symm.trans h')

theorem dictIterate_walk (w : Tm) : launchDataDictIterate calendarintervalNewFromObjDictWalk
        (pairs.flatMap fun p => [.string p.1, .integer p.2]) w = { w with
        min := (lastUnder calMinute pairs).elim w.min toInt
        hour := (lastUnder calHour pairs).elim w.hour toInt
        mday := (lastUnder calDay pairs).elim w.mday toInt
        wday := (lastUnder calWeekday pairs).elim w.wday toInt
        mon := (lastUnder calMonth pairs).elim w.mon toMonth } := by
  induction pairs generalizing w with
  | nil => rfl
  | cons p pairs ih =>
    have hstep {name : List Char} {convert : UInt64 → ℤ} {x : ℤ} :
        (lastUnder name (p :: pairs)).elim x convert =
          (lastUnder name pairs).elim (if isKey p.1 name then convert p.2 else x) convert := by
      rw [lastUnder_cons]
      cases lastUnder name pairs with
      | none => by_cases h : isKey p.1 name <;> simp [h]
      | some val => rfl
    simp only [List.flatMap_cons, List.cons_append, List.nil_append, launchDataDictIterate, ih,
      hstep, calendarintervalNewFromObjDictWalk]
    by_cases hmin : isKey p.1 calMinute
    · simp [hmin, isKey_eq_false hmin calHour (by decide), isKey_eq_false hmin calDay (by decide),
        isKey_eq_false hmin calWeekday (by decide), isKey_eq_false hmin calMonth (by decide)]
    by_cases hhour : isKey p.1 calHour
    · simp [hmin, hhour, isKey_eq_false hhour calDay (by decide),
        isKey_eq_false hhour calWeekday (by decide), isKey_eq_false hhour calMonth (by decide)]
    by_cases hday : isKey p.1 calDay
    · simp [hmin, hhour, hday, isKey_eq_false hday calWeekday (by decide),
        isKey_eq_false hday calMonth (by decide)]
    by_cases hwday : isKey p.1 calWeekday
    · simp [hmin, hhour, hday, hwday, isKey_eq_false hwday calMonth (by decide)]
    by_cases hmon : isKey p.1 calMonth <;> simp [hmin, hhour, hday, hwday, hmon]

theorem newFromObj_integers (pairs : List (CString × UInt64)) :
    calendarintervalNewFromObj tmptm (integerDictionary pairs) =
      some ⟨fieldOf calMinute toInt pairs, fieldOf calHour toInt pairs, fieldOf calDay toInt pairs,
        fieldOf calMonth toMonth pairs, fieldOf calWeekday toInt pairs, 0⟩ := by
  simp only [calendarintervalNewFromObj, integerDictionary, dictIterate_walk]
  rfl

/-! ### Searches that return -/

variable {sub test : Tm → Option (Bool × Tm)} {advance : Tm → Option Tm} {field : Tm → ℤ}
  {set : Tm → Tm} {x lo mon mday hour min : ℤ} {fuel : ℕ}

def Returns (test : Tm → Option (Bool × Tm)) : Prop :=
  ∀ w : Tm, w.sec = 0 → ∃ b w', test w = some (b, w') ∧ w'.sec = 0

theorem Returns.retry (htest : Returns test) (hagain : ∀ w u, w.sec = 0 → advance w = some u →
    ∃ w', test u = some (true, w') ∧ w'.sec = 0) : Returns (retry test advance (fuel + 2)) := by
  intro w hw
  obtain ⟨b, w', hw', hsec⟩ := htest w hw
  cases b with
  | true => exact ⟨true, w', retry_found hw', hsec⟩
  | false =>
    cases ha : advance w' with
    | none => exact ⟨false, w', retry_stop hw' ha, hsec⟩
    | some u =>
      obtain ⟨w'', hu, hsec'⟩ := hagain w' u hsec ha
      exact ⟨true, w'', (retry_again hw' ha).trans (retry_found hu), hsec'⟩

theorem Returns.search (hsub : Returns sub) (hset : ∀ w, (set w).sec = w.sec)
    (hagain : ∀ w u, w.sec = 0 → advance w = some u → ∃ w', sub u = some (true, w') ∧ w'.sec = 0) :
    Returns (search sub advance field set x (fuel + 2)) := by
  intro w hw
  unfold Launchd.search
  split_ifs
  · obtain ⟨b, w', heq, hsec⟩ := hsub.retry hagain w hw
    rw [heq]
    cases b with
    | true => exact ⟨true, w', rfl, hsec⟩
    | false => exact ⟨false, w, rfl, hw⟩
  · exact ⟨false, w, rfl, hw⟩
  · exact hsub _ ((hset w).trans hw)
  · exact hsub w hw

theorem carrytest_eq_some {w u : Tm} (h : carrytest field w = some u) : u = normalize w := by
  unfold carrytest at h
  split_ifs at h
  exact (some.inj h).symm

theorem normalize_hour {w : Tm} (hsec : w.sec = 0) (hmin : w.min = 0) :
    (normalize w).sec = 0 ∧ (normalize w).min = 0 := by
  simp only [normalize, brokenDown, Tm.seconds, Tm.minutes, hsec, hmin]
  omega

theorem normalize_midnight {w : Tm} (hsec : w.sec = 0) (hhour : w.hour = 0) (hmin : w.min = 0) :
    (normalize w).sec = 0 ∧ (normalize w).hour = 0 ∧ (normalize w).min = 0 := by
  simp only [normalize, brokenDown, Tm.seconds, Tm.minutes, hsec, hhour, hmin]
  omega

theorem returns_cronemuMin : Returns (cronemuMin min) := by
  intro w hw
  rw [cronMin_eq]
  split_ifs
  exacts [⟨false, w, rfl, hw⟩, ⟨true, _, rfl, hw⟩]

theorem returns_hour (hm : AtLeast 0 min) : Returns (cronemuHour (fuel + 2) hour min) := by
  refine returns_cronemuMin.search (fun _ => rfl) fun w u hw hu => ?_
  have hnorm := normalize_hour (w := { w with hour := w.hour + 1, min := 0 }) hw rfl
  rw [← carrytest_eq_some hu] at hnorm
  rw [cronMin_eq, if_neg (by unfold AtLeast at hm; omega)]
  exact ⟨_, rfl, hnorm.1⟩

theorem returns_cronemuMday (hh : AtLeast 0 hour) (hm : AtLeast 0 min) :
    Returns (cronemuMday (fuel + 2) mday hour min) := by
  refine (returns_hour hm).search (fun _ => rfl) fun w u hw hu => ?_
  have hnorm := normalize_midnight (w := { w with mday := w.mday + 1, hour := 0, min := 0 }) hw
    rfl rfl
  rw [← carrytest_eq_some hu] at hnorm
  exact ⟨_, hour_midnight hh hm hnorm.2.1 hnorm.2.2, hnorm.1⟩

theorem returns_cronemuMon (hd : AtLeast 1 mday) (hh : AtLeast 0 hour) (hm : AtLeast 0 min) :
    Returns (cronemuMon (fuel + 2) mon mday hour min) := by
  refine (returns_cronemuMday hh hm).search (fun _ => rfl) fun w u hw hu => ?_
  obtain rfl := (carrytest_eq_some hu).trans (normalize_mon hw rfl rfl rfl)
  exact ⟨_, mday_first hd hh hm rfl rfl rfl, rfl⟩

theorem cronemu_returns (ho : AtLeast 0 mon) (hd : AtLeast 1 mday)
    (hh : AtLeast 0 hour) (hm : AtLeast 0 min) (fuel : ℕ) :
    ∃ next, cronemu off now (fuel + 2) mon mday hour min = some next := by
  have hloop :
      Returns (retry (cronemuMon (fuel + 2) mon mday hour min) advanceYear (fuel + 2)) := by
    refine (returns_cronemuMon hd hh hm).retry fun w u hw hu => ?_
    have hnorm : normalize { w with year := w.year + 1, mon := 0, mday := 1, hour := 0, min := 0 } =
        _ := normalize_mon hw rfl rfl rfl
    obtain rfl := some.inj hu
    rw [hnorm]
    refine ⟨_, mon_first ho hd hh hm ?_ rfl rfl rfl, rfl⟩
    simp only [Tm.month]
    omega
  obtain ⟨b, w', heq, -⟩ := hloop _ (startTm_proper off now).sec
  exact ⟨_, by rw [cronemu, heq]; rfl⟩

theorem cronemuWday_returns {wday : ℤ} (hw : 0 ≤ wday ∧ wday ≤ 7)
    (hh : AtLeast 0 hour) (hm : AtLeast 0 min) (fuel : ℕ) :
    ∃ next, cronemuWday off now (fuel + 8) wday hour min = some next := by
  unfold cronemuWday
  rw [show (if wday = 7 then 0 else wday) = wday % 7 by split_ifs <;> omega]
  have htest : ∃ b w', wdayTest (fuel + 8) (wday % 7) hour min (startTm off now) = some (b, w') ∧
      w'.sec = 0 := by
    unfold wdayTest
    split_ifs
    · exact returns_hour hm _ (startTm_proper off now).sec
    · exact ⟨false, _, rfl, (startTm_proper off now).sec⟩
  obtain ⟨b, w', htest, hsec⟩ := htest
  cases b with
  | true => exact ⟨_, by rw [retry_found htest]; rfl⟩
  | false =>
    obtain ⟨u, hadvance, hu, -, hhour, hmin⟩ := advanceWday_eq hsec
    obtain ⟨k, hk6, hk, hfirst⟩ := exists_weekday u.day (show 0 ≤ wday % 7 ∧ wday % 7 < 7 by omega)
    obtain ⟨w'', heq, -⟩ := retry_wday hh hm (fuel + 7) k hu hhour hmin hk hfirst
    refine ⟨mktime off w'', ?_⟩
    rw [retry_again htest hadvance, show fuel + 7 = fuel + 6 - k + k + 1 by omega, heq]
    rfl

/-! ### Searches that do not end -/

/-- No field is below its range, as `localtime` and `mktime` leave them. -/
structure Tm.Counted (w : Tm) : Prop where
  min : 0 ≤ w.min
  hour : 0 ≤ w.hour
  mday : 1 ≤ w.mday
  mon : 0 ≤ w.mon
  wday : 0 ≤ w.wday ∧ w.wday < 7

theorem counted_brokenDown (s : ℤ) : (brokenDown s).Counted := by
  obtain ⟨hmon, hhour, hmin⟩ := brokenDown_ranges s
  exact ⟨hmin.1, hhour.1, (brokenDown_mday s).1, hmon.1, by simp only [brokenDown, weekday]; omega⟩

theorem counted_startTm : (startTm off now).Counted := by
  obtain ⟨hmin, hhour, hmday, hmon, hwday⟩ := counted_brokenDown (now + off)
  exact ⟨Int.add_nonneg hmin (by decide), hhour, hmday, hmon, hwday⟩

def Refuses (test : Tm → Option (Bool × Tm)) : Prop :=
  ∀ w : Tm, w.Counted → ∀ b w', test w = some (b, w') → b = false ∧ w'.Counted

theorem Refuses.retry (htest : Refuses test) (hadvance : ∀ w u, advance w = some u → u.Counted) :
    Refuses (retry test advance fuel) := by
  intro w hw b w' h
  induction fuel generalizing w with
  | zero => cases h
  | succ fuel ih =>
    cases ht : test w with
    | none => rw [Launchd.retry, ht] at h; cases h
    | some r =>
      obtain ⟨b₁, w₁⟩ := r
      obtain ⟨rfl, hw₁⟩ := htest w hw b₁ w₁ ht
      cases ha : advance w₁ with
      | none =>
        rw [retry_stop ht ha] at h
        cases h
        exact ⟨rfl, hw₁⟩
      | some u => exact ih u (hadvance w₁ u ha) (retry_again ht ha ▸ h)

theorem Refuses.retry_eq_none (htest : Refuses test)
    (hadvance : ∀ w, ∃ u, advance w = some u ∧ u.Counted) {w : Tm} (hw : w.Counted) :
    Launchd.retry test advance fuel w = none := by
  induction fuel generalizing w with
  | zero => rfl
  | succ fuel ih =>
    cases ht : test w with
    | none => rw [Launchd.retry, ht]
    | some r =>
      obtain ⟨b₁, w₁⟩ := r
      obtain ⟨rfl, -⟩ := htest w hw b₁ w₁ ht
      obtain ⟨u, ha, hu⟩ := hadvance w₁
      rw [retry_again ht ha, ih hu]

theorem Refuses.search (lo : ℤ) (hsub : AtLeast lo x → Refuses sub)
    (hadvance : ∀ w u, advance w = some u → u.Counted) (hlo : ∀ w : Tm, w.Counted → lo ≤ field w)
    (hset : ∀ w : Tm, w.Counted → field w < x → (set w).Counted) :
    Refuses (search sub advance field set x fuel) := by
  intro w hw b w' h
  have hle := hlo w hw
  unfold Launchd.search at h
  split_ifs at h with habsent hlt hgt
  · cases hr : Launchd.retry sub advance fuel w with
    | none => rw [hr] at h; cases h
    | some r =>
      obtain ⟨b₁, w₁⟩ := r
      obtain ⟨rfl, -⟩ := (hsub (.inl habsent)).retry hadvance w hw b₁ w₁ hr
      rw [hr] at h
      cases h
      exact ⟨rfl, hw⟩
  · cases h
    exact ⟨rfl, hw⟩
  · exact hsub (.inr (by omega)) _ (hset w hw hgt) b w' h
  · exact hsub (.inr (by omega)) w hw b w' h

theorem carrytest_counted {w u : Tm} (h : carrytest field w = some u) : u.Counted :=
  carrytest_eq_some h ▸ counted_brokenDown _

theorem refuses_cronemuMin (hm : ¬AtLeast 0 min) : Refuses (cronemuMin min) := by
  intro w hw b w' h
  have hmin := hw.min
  unfold AtLeast at hm
  rw [cronMin_eq, if_pos (by omega)] at h
  cases h
  exact ⟨rfl, hw⟩

theorem refuses_cronemuHour (h : AtLeast 0 hour → ¬AtLeast 0 min) :
    Refuses (cronemuHour fuel hour min) :=
  .search 0 (fun hh => refuses_cronemuMin (h hh)) (fun _ _ => carrytest_counted)
    (fun _ hw => hw.hour) fun _ hw hlt => ⟨le_rfl, hw.hour.trans hlt.le, hw.mday, hw.mon, hw.wday⟩

theorem refuses_cronemuMday (h : AtLeast 1 mday → AtLeast 0 hour → ¬AtLeast 0 min) :
    Refuses (cronemuMday fuel mday hour min) :=
  .search 1 (fun hd => refuses_cronemuHour (h hd)) (fun _ _ => carrytest_counted)
    (fun _ hw => hw.mday) fun _ hw hlt => ⟨le_rfl, le_rfl, hw.mday.trans hlt.le, hw.mon, hw.wday⟩

theorem refuses_cronemuMon (h : AtLeast 0 mon → AtLeast 1 mday → AtLeast 0 hour → ¬AtLeast 0 min) :
    Refuses (cronemuMon fuel mon mday hour min) :=
  .search 0 (fun ho => refuses_cronemuMday (h ho)) (fun _ _ => carrytest_counted)
    (fun _ hw => hw.mon) fun _ hw hlt => ⟨le_rfl, le_rfl, le_rfl, hw.mon.trans hlt.le, hw.wday⟩

theorem cronemu_eq_none (h : AtLeast 0 mon → AtLeast 1 mday → AtLeast 0 hour → ¬AtLeast 0 min) :
    cronemu off now fuel mon mday hour min = none :=
  map_eq_none_iff.mpr ((refuses_cronemuMon h).retry_eq_none
    (fun _ => ⟨_, rfl, counted_brokenDown _⟩) (counted_startTm off now))

theorem cronemuWday_eq_none {wday : ℤ} (hw : ¬(0 ≤ wday ∧ wday ≤ 7)) :
    cronemuWday off now fuel wday hour min = none := by
  have htest : Refuses (wdayTest fuel (if wday = 7 then 0 else wday) hour min) := by
    intro w hcounted b w' h
    have hwday := hcounted.wday
    rw [wdayTest, if_neg (by split_ifs <;> omega)] at h
    cases h
    exact ⟨rfl, hcounted⟩
  exact map_eq_none_iff.mpr (htest.retry_eq_none
    (fun _ => ⟨_, rfl, counted_brokenDown _⟩) (counted_startTm off now))

/-- A dictionary of integers is always accepted, and the next alarm of the
interval is found if and only if no field is below its range and the weekday
is at most seven. -/
theorem nextAlarm_terminates_iff (pairs : List (CString × UInt64)) (off now : ℤ) :
    ∃ ci, calendarintervalNewFromObj tmptm (integerDictionary pairs) = some ci ∧
      ((∃ fuel next, nextAlarm off now fuel ci = some next) ↔ CanFire pairs) := by
  refine ⟨_, newFromObj_integers tmptm pairs, ?_⟩
  unfold CanFire
  generalize fieldOf calMinute toInt pairs = min, fieldOf calHour toInt pairs = hour,
    fieldOf calDay toInt pairs = mday, fieldOf calMonth toMonth pairs = mon,
    fieldOf calWeekday toInt pairs = wday
  constructor
  · rintro ⟨fuel, next, h⟩
    obtain ⟨later, hlater, h⟩ := bind_eq_some_iff.mp h
    by_contra hcan
    have hdate : ¬(AtLeast 0 mon → AtLeast 1 mday → AtLeast 0 hour → ¬AtLeast 0 min) := fun hno =>
      absurd hlater (by simp [cronemu_eq_none off now hno])
    have hw : ¬InRange 0 7 wday := by tauto
    unfold InRange at hw
    rw [if_pos (show wday ≠ -1 by omega),
      cronemuWday_eq_none off now (show ¬(0 ≤ wday ∧ wday ≤ 7) by omega)] at h
    cases h
  · rintro ⟨hm, hh, hd, ho, hw⟩
    obtain ⟨later, hlater⟩ := cronemu_returns off now ho hd hh hm 6
    refine ⟨8, ?_⟩
    by_cases habsent : wday = -1
    · exact ⟨later, by simp [nextAlarm, hlater, habsent]⟩
    · obtain ⟨otherlater, hother⟩ := cronemuWday_returns off now (hw.resolve_left habsent) hh hm 0
      rw [nextAlarm, hlater]
      simp only [bind_eq_bind, bind_some, if_pos habsent, hother]
      split_ifs <;> exact ⟨_, rfl⟩

/-- A job for day zero of every month is accepted, and its next run is never
found. -/
theorem nextAlarm_dayZero : ∃ ci, calendarintervalNewFromObj ⟨0, 0, 0, 0, 0, 0, 0⟩
        (integerDictionary [(⟨[0x44, 0x61, 0x79], by decide⟩, 0)]) = some ci ∧
      ∀ fuel, nextAlarm 0 0 fuel ci = none := by
  refine ⟨_, newFromObj_integers _ _, fun fuel => ?_⟩
  have hday : fieldOf calDay toInt [(⟨[0x44, 0x61, 0x79], by decide⟩, 0)] = 0 := by decide +kernel
  rw [nextAlarm, hday, cronemu_eq_none 0 0 fun _ hd => absurd hd (by unfold AtLeast; decide)]
  rfl

end Hexley.Launchd
