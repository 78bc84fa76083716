import GameServer.Lib.Bytes
import GameServer.Lib.Calendar

/-!
# Date columns

`SetDateTime` puts a date into a `MYSQL_TIME`, and `GetDateTime` makes a `struct tm` of it. The year and the month go into the `tm` as
they are, though a `tm` counts years from 1900 and months from 0, and the day goes into `tm_yday`, which `mktime` does not read, so that
the day of the month stays 0. What is read back is the last day of the month, 1900 years later (`GetDateTime_eq`), and never the date
that was written (`GetDateTime_ne`).

Local time is so many seconds ahead of UTC all year round. The type of the value and its place in the bind are left out.
-/

namespace GameServer.Db.Dates

open GameServer.Lib Calendar

structure MYSQL_TIME where
  year : Nat
  month : Nat
  day : Nat
  hour : Nat
  minute : Nat
  second : Nat
  second_part : Nat
  neg : Bool
  deriving DecidableEq, Repr

/-- A `struct tm`; `tm_wday` and `tm_isdst` stay 0. -/
structure Tm where
  tm_sec : Int
  tm_min : Int
  tm_hour : Int
  tm_mday : Int
  tm_mon : Int
  tm_year : Int
  tm_yday : Int
  deriving DecidableEq, Repr

/-- An `int` in an `unsigned int`. -/
def toUnsigned (n : Int) : Nat := (n % 2 ^ 32).toNat

/-- `StmtBindData::SetDateTime`. -/
def SetDateTime (year month day hour minute second : Int) : MYSQL_TIME :=
  ⟨toUnsigned year, toUnsigned month, toUnsigned day, toUnsigned hour, toUnsigned minute, toUnsigned second, 0, false⟩

/-- `mktime`, which reads neither `tm_wday` nor `tm_yday`. -/
def mktime (ahead : Int) (tm : Tm) : Int :=
  86400 * dayNumber (1900 + tm.tm_year) tm.tm_mon tm.tm_mday + 3600 * tm.tm_hour + 60 * tm.tm_min + tm.tm_sec - ahead

/-- `StmtExData::GetDateTime`. That an `unsigned int` is below 0 is asked too. -/
def GetDateTime (ahead : Int) (p : MYSQL_TIME) : Int :=
  if p.year < 1970 then 0
  else if p.month ≤ 0 then 0
  else if p.day ≤ 0 then 0
  else if p.hour < 0 then 0
  else if p.minute < 0 then 0
  else if p.second < 0 then 0
  else if p.year = 1970 ∧ p.month = 1 ∧ p.day = 1 ∧ p.hour < 8 then 0
  else
    let tmTime : Tm := ⟨toInt32 p.second, toInt32 p.minute, toInt32 p.hour, 0, toInt32 p.month, toInt32 p.year, toInt32 p.day⟩
    mktime ahead tmTime

/-- The time of a local date. -/
def localTime (ahead year month day hour minute second : Int) : Int :=
  86400 * dayNumber year (month - 1) day + 3600 * hour + 60 * minute + second - ahead

/-- A date from the second day of 1970 to the end of 3000. -/
structure Valid (year month day hour minute second : Int) : Prop where
  years : 1970 ≤ year ∧ year ≤ 3000
  months : 1 ≤ month ∧ month ≤ 12
  days : 1 ≤ day ∧ day ≤ monthDays (isLeap year) (month - 1).toNat
  notFirst : ¬ (year = 1970 ∧ month = 1 ∧ day = 1)
  hours : 0 ≤ hour ∧ hour < 24
  minutes : 0 ≤ minute ∧ minute < 60
  seconds : 0 ≤ second ∧ second < 60

section Reading

variable {ahead year month day hour minute second : Int}

theorem toUnsigned_eq {n : Int} (low : 0 ≤ n) (high : n < 2 ^ 31) : toUnsigned n = n.toNat := by
  rw [toUnsigned, Int.emod_eq_of_lt low (by omega)]

/-- What an `unsigned int` gives back of an `int`. -/
theorem toInt32_toUnsigned {n : Int} (low : 0 ≤ n) (high : n < 2 ^ 31) : toInt32 (toUnsigned n) = n := by
  rw [toUnsigned_eq low high, Int.toNat_of_nonneg low]
  exact toInt32_eq (by omega) high

theorem monthDays_le (leap : Bool) (month : Nat) : monthDays leap month ≤ 31 := by
  unfold monthDays
  split
  · split_ifs <;> decide
  all_goals decide

/-- **What is read back**: the last day of the month, 1900 years later. -/
theorem GetDateTime_eq (valid : Valid year month day hour minute second) :
    GetDateTime ahead (SetDateTime year month day hour minute second) =
      localTime ahead (1900 + year) month (monthDays (isLeap (1900 + year)) (month - 1).toNat) hour minute second := by
  obtain ⟨years, months, days, notFirst, hours, minutes, seconds⟩ := valid
  have short := monthDays_le (isLeap year) (month - 1).toNat
  have last := dayNumber_zero (1900 + year) (show 0 ≤ month - 1 by omega) (by omega)
  rw [Int.sub_add_cancel] at last
  have guards : ¬ (year.toNat < 1970) ∧ ¬ (month.toNat ≤ 0) ∧ ¬ (day.toNat ≤ 0) ∧
      ¬ (year.toNat = 1970 ∧ month.toNat = 1 ∧ day.toNat = 1 ∧ hour.toNat < 8) := by omega
  obtain ⟨year', month', day', first⟩ := guards
  simp only [GetDateTime, SetDateTime, toInt32_toUnsigned (show 0 ≤ second by omega) (by omega),
    toInt32_toUnsigned (show 0 ≤ minute by omega) (by omega), toInt32_toUnsigned (show 0 ≤ hour by omega) (by omega),
    toInt32_toUnsigned (show 0 ≤ month by omega) (by omega), toInt32_toUnsigned (show 0 ≤ year by omega) (by omega)]
  rw [toUnsigned_eq (by omega) (by omega), toUnsigned_eq (by omega) (by omega), toUnsigned_eq (by omega) (by omega),
    toUnsigned_eq (by omega) (by omega), if_neg year', if_neg month', if_neg day', if_neg (Nat.not_lt_zero _), if_neg (Nat.not_lt_zero _),
    if_neg (Nat.not_lt_zero _), if_neg first, mktime, localTime, last]

/-- **No date column comes back**: for every date what is read is not the time of the date that was written. -/
theorem GetDateTime_ne (ahead year month day hour minute second : Int) (valid : Valid year month day hour minute second) :
    GetDateTime ahead (SetDateTime year month day hour minute second) ≠ localTime ahead year month day hour minute second := by
  have days := valid.days
  have months := valid.months
  have later : dayNumber year (month - 1) day < dayNumber (1900 + year) (month - 1) (monthDays (isLeap (1900 + year)) (month - 1).toNat) :=
    dayNumber_lt (by omega) (by omega) (by omega) days.2 (by omega) (by omega) (monthDays_pos _ _)
  rw [GetDateTime_eq valid, localTime, localTime]
  omega

theorem valid_millennium : Valid 2000 1 1 12 30 0 := by
  constructor <;> decide

/-- The first of January 2000, at half past twelve and an hour ahead of UTC. -/
theorem GetDateTime_ne_millennium : GetDateTime 3600 (SetDateTime 2000 1 1 12 30 0) ≠ localTime 3600 2000 1 1 12 30 0 :=
  GetDateTime_ne 3600 2000 1 1 12 30 0 valid_millennium

/-- What is read is the last of January 3900. -/
theorem GetDateTime_millennium : Valid 2000 1 1 12 30 0 ∧ localTime 3600 2000 1 1 12 30 0 = 946726200 ∧
    localTime 3600 3900 1 31 12 30 0 = 60907548600 ∧ GetDateTime 3600 (SetDateTime 2000 1 1 12 30 0) = 60907548600 := by
  refine ⟨valid_millennium, ?_⟩
  decide

end Reading

end GameServer.Db.Dates
