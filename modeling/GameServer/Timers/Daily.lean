import GameServer.Db.Dates

/-!
# The daily boundary

`IsTimeChanged` asks whether a time of the day came since `tLast`. It looks at that time on the day of `tLast` and on the next one. Local
time is so many seconds ahead of UTC all year round; `localtime` gives a day of the calendar (`localtime_date`) and a time of the day
(`localtime_time`, `isAt_iff`), and `mktime` takes them back (`mktime_localtime`).
-/

namespace GameServer.Timers.Daily

open GameServer.Lib Calendar Db.Dates

/-- `localtime`. -/
def localtime (ahead t : Int) : Tm where
  tm_sec := (t + ahead) % 86400 % 60
  tm_min := (t + ahead) % 86400 / 60 % 60
  tm_hour := (t + ahead) % 86400 / 3600
  tm_mday := dayOf ((t + ahead) / 86400)
  tm_mon := monthOf ((t + ahead) / 86400)
  tm_year := yearOf ((t + ahead) / 86400) - 1900
  tm_yday := yearDay ((t + ahead) / 86400)

/-- `IsTimeChanged` for two times. -/
def IsTimeChanged (ahead tLast tCurr hour min sec : Int) : Bool :=
  let p_tm := localtime ahead tLast
  let p_tm := { p_tm with tm_hour := hour, tm_min := min, tm_sec := sec }
  let tSepCurDay := mktime ahead p_tm
  let tSepNextDay := tSepCurDay + 24 * 60 * 60
  if tLast < tSepCurDay then tCurr ≥ tSepCurDay else tCurr ≥ tSepNextDay

/-- The local time of the day is `hour:min:sec`. -/
def IsAt (ahead hour min sec t : Int) : Prop :=
  (localtime ahead t).tm_hour = hour ∧ (localtime ahead t).tm_min = min ∧ (localtime ahead t).tm_sec = sec

section Boundary

variable {ahead tLast tCurr hour min sec t : Int}

/-- The day of a time, at another time of the day. -/
theorem mktime_on_day (ahead t hour min sec : Int) :
    mktime ahead { localtime ahead t with tm_hour := hour, tm_min := min, tm_sec := sec } =
      86400 * ((t + ahead) / 86400) + 3600 * hour + 60 * min + sec - ahead := by
  have date := dayNumber_date ((t + ahead) / 86400)
  have year : 1900 + (yearOf ((t + ahead) / 86400) - 1900) = yearOf ((t + ahead) / 86400) := by omega
  simp only [mktime, localtime, year, date]

theorem mktime_localtime (ahead t : Int) : mktime ahead (localtime ahead t) = t := by
  have same := mktime_on_day ahead t (localtime ahead t).tm_hour (localtime ahead t).tm_min (localtime ahead t).tm_sec
  refine same.trans ?_
  simp only [localtime]
  omega

/-- The date that `localtime` gives is one of the calendar. -/
theorem localtime_date (ahead t : Int) :
    0 ≤ (localtime ahead t).tm_mon ∧ (localtime ahead t).tm_mon < 12 ∧ 1 ≤ (localtime ahead t).tm_mday ∧
      (localtime ahead t).tm_mday ≤ monthDays (isLeap (1900 + (localtime ahead t).tm_year)) (localtime ahead t).tm_mon.toNat := by
  have inYear : monthOf ((t + ahead) / 86400) ≤ 11 := monthUpTo_le _ _ 11
  have inMonth := dayOf_spec ((t + ahead) / 86400)
  have year : 1900 + (yearOf ((t + ahead) / 86400) - 1900) = yearOf ((t + ahead) / 86400) := by omega
  simp only [localtime, year, Int.toNat_natCast]
  omega

theorem localtime_time (ahead t : Int) :
    0 ≤ (localtime ahead t).tm_hour ∧ (localtime ahead t).tm_hour < 24 ∧ 0 ≤ (localtime ahead t).tm_min ∧
      (localtime ahead t).tm_min < 60 ∧ 0 ≤ (localtime ahead t).tm_sec ∧ (localtime ahead t).tm_sec < 60 := by
  simp only [localtime]
  omega

theorem isAt_iff (minutes : 0 ≤ min ∧ min < 60) (seconds : 0 ≤ sec ∧ sec < 60) :
    IsAt ahead hour min sec t ↔ (t + ahead) % 86400 = 3600 * hour + 60 * min + sec := by
  simp only [IsAt, localtime]
  omega

/-- **The daily boundary**: `IsTimeChanged` says whether the time of the day came after `tLast` and not after `tCurr`. -/
theorem isTimeChanged_iff (ahead tLast tCurr hour min sec : Int) (hours : 0 ≤ hour ∧ hour < 24) (minutes : 0 ≤ min ∧ min < 60)
    (seconds : 0 ≤ sec ∧ sec < 60) :
    IsTimeChanged ahead tLast tCurr hour min sec = true ↔ ∃ t, tLast < t ∧ t ≤ tCurr ∧ IsAt ahead hour min sec t := by
  simp only [isAt_iff minutes seconds, IsTimeChanged, mktime_on_day]
  generalize is : 3600 * hour + 60 * min + sec = boundary
  have inDay : 0 ≤ boundary ∧ boundary < 86400 := by omega
  have sep : 86400 * ((tLast + ahead) / 86400) + 3600 * hour + 60 * min + sec - ahead =
      86400 * ((tLast + ahead) / 86400) + boundary - ahead := by omega
  rw [sep]
  split_ifs with early
  · rw [decide_eq_true_eq]
    constructor
    · intro late
      exact ⟨_, early, late, by omega⟩
    · rintro ⟨t, after, before, here⟩
      omega
  · rw [decide_eq_true_eq]
    constructor
    · intro late
      refine ⟨86400 * ((tLast + ahead) / 86400) + boundary - ahead + 24 * 60 * 60, ?_, late, ?_⟩ <;> omega
    · rintro ⟨t, after, before, here⟩
      omega

/-- Half past midnight, two hours ahead of UTC: from one second before to the moment itself. -/
theorem isTimeChanged_iff_midnight : IsTimeChanged 7200 80999 81000 0 30 0 = true ∧
    ∃ t, 80999 < t ∧ t ≤ 81000 ∧ IsAt 7200 0 30 0 t := by
  have changed : IsTimeChanged 7200 80999 81000 0 30 0 = true := by decide
  exact ⟨changed, (isTimeChanged_iff 7200 80999 81000 0 30 0 (by decide) (by decide) (by decide)).1 changed⟩

end Boundary

end GameServer.Timers.Daily
