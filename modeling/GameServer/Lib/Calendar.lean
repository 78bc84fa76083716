import Mathlib.Algebra.Order.Group.Int

/-!
# The calendar

Days are counted from the first of January 1970. Months are counted from 0, and a month or a day may lie outside its year or month:
the 0th of a month is the last day of the one before (`dayNumber_zero`). Later years have later days (`dayNumber_lt`). `yearOf`,
`monthOf` and `dayOf` give the date of a day (`dayNumber_date`).
-/

namespace GameServer.Lib.Calendar

def isLeap (year : Int) : Bool := year % 4 = 0 && (year % 100 ≠ 0 || year % 400 = 0)

/-- How many days a month has. -/
def monthDays (leap : Bool) : Nat → Int
  | 1 => if leap then 29 else 28
  | 3 | 5 | 8 | 10 => 30
  | _ => 31

/-- The days of a year before a month. -/
def monthStart (leap : Bool) : Nat → Int
  | 0 => 0
  | month + 1 => monthStart leap month + monthDays leap month

/-- The days before a year. -/
def yearStart (year : Int) : Int := 365 * year + (year - 1) / 4 - (year - 1) / 100 + (year - 1) / 400

/-- The days from the beginning of 1970. -/
def dayNumber (year month day : Int) : Int :=
  yearStart (year + month / 12) - yearStart 1970 + monthStart (isLeap (year + month / 12)) (month % 12).toNat + (day - 1)

/-- The year of a day, from the mean length of a year; that is wrong by one year at most. -/
def yearOf (n : Int) : Int :=
  let days := n + yearStart 1970
  let year := 400 * days / 146097
  if days < yearStart year then year - 1 else if yearStart (year + 1) ≤ days then year + 1 else year

/-- The last month, up to some month, that does not begin after a day of the year. -/
def monthUpTo (leap : Bool) (day : Int) : Nat → Nat
  | 0 => 0
  | month + 1 => if monthStart leap (month + 1) ≤ day then month + 1 else monthUpTo leap day month

/-- The day in its year, counted from 0. -/
def yearDay (n : Int) : Int := n + yearStart 1970 - yearStart (yearOf n)

def monthOf (n : Int) : Nat := monthUpTo (isLeap (yearOf n)) (yearDay n) 11

def dayOf (n : Int) : Int := yearDay n - monthStart (isLeap (yearOf n)) (monthOf n) + 1

section Years

variable {year year' month day : Int}

theorem monthDays_pos (leap : Bool) (month : Nat) : 0 < monthDays leap month := by
  unfold monthDays
  split
  · split_ifs <;> decide
  all_goals decide

theorem monthStart_nonneg (leap : Bool) (month : Nat) : 0 ≤ monthStart leap month := by
  induction month with
  | zero => exact Int.le_refl 0
  | succ month ih =>
    have days := monthDays_pos leap month
    rw [monthStart]
    omega

/-- Twelve months are a year. -/
theorem yearStart_succ (year : Int) : yearStart (year + 1) = yearStart year + monthStart (isLeap year) 12 := by
  have months : monthStart (isLeap year) 12 = if isLeap year then 366 else 365 := by
    cases isLeap year <;> rfl
  rw [months, yearStart, yearStart, isLeap]
  split_ifs with leap
  · simp only [Bool.and_eq_true, Bool.or_eq_true, decide_eq_true_eq] at leap
    omega
  · simp only [Bool.and_eq_true, Bool.or_eq_true, decide_eq_true_eq] at leap
    omega

theorem monthStart_lt (leap : Bool) {month : Nat} (inYear : month < 12) :
    monthStart leap month + monthDays leap month ≤ monthStart leap 12 := by
  have later : ∀ n, month + 1 ≤ n → monthStart leap (month + 1) ≤ monthStart leap n := by
    intro n le
    induction n, le using Nat.le_induction with
    | base => exact Int.le_refl _
    | succ n _ ih =>
      have days := monthDays_pos leap n
      rw [monthStart.eq_2 leap n]
      omega
  exact later 12 inYear

theorem yearStart_le (le : year ≤ year') : yearStart year ≤ yearStart year' := by
  obtain ⟨n, rfl⟩ := Int.le.dest le
  induction n with
  | zero => rw [Int.natCast_zero, Int.add_zero]
  | succ n ih =>
    have days := monthStart_nonneg (isLeap (year + n)) 12
    rw [Int.natCast_succ, ← Int.add_assoc, yearStart_succ]
    have before := ih (by omega)
    omega

/-- The day before the first of a month. -/
theorem dayNumber_zero (year : Int) (low : 0 ≤ month) (high : month < 12) :
    dayNumber year (month + 1) 0 = dayNumber year month (monthDays (isLeap year) month.toNat) := by
  have same : month / 12 = 0 := by omega
  have here : month % 12 = month := by omega
  rw [dayNumber, dayNumber, same, here, Int.add_zero]
  by_cases last : month = 11
  · subst last
    have december : monthStart (isLeap year) 12 = monthStart (isLeap year) 11 + monthDays (isLeap year) 11 := rfl
    have first : yearStart (year + (11 + 1) / 12) = yearStart year + monthStart (isLeap year) 12 := yearStart_succ year
    have zero : monthStart (isLeap (year + (11 + 1) / 12)) ((11 + 1 : Int) % 12).toNat = 0 := rfl
    rw [first, zero, december]
    show _ = yearStart year - yearStart 1970 + monthStart (isLeap year) 11 + (monthDays (isLeap year) 11 - 1)
    omega
  · have same' : (month + 1) / 12 = 0 := by omega
    have here' : ((month + 1) % 12).toNat = month.toNat + 1 := by omega
    rw [same', here', Int.add_zero, monthStart]
    omega

/-- A day of a year comes before every day of a later year. -/
theorem dayNumber_lt (later : year < year') (low : 0 ≤ month) (high : month < 12)
    (inMonth : day ≤ monthDays (isLeap year) month.toNat) {month' day' : Int} (low' : 0 ≤ month') (high' : month' < 12) (pos : 1 ≤ day') :
    dayNumber year month day < dayNumber year' month' day' := by
  have same : month / 12 = 0 := by omega
  have here : month % 12 = month := by omega
  have same' : month' / 12 = 0 := by omega
  have here' : month' % 12 = month' := by omega
  have inYear := monthStart_lt (isLeap year) (show month.toNat < 12 by omega)
  have next := yearStart_succ year
  have years := yearStart_le (Int.add_one_le_of_lt later)
  have months := monthStart_nonneg (isLeap year') month'.toNat
  rw [dayNumber, dayNumber, same, here, same', here', Int.add_zero, Int.add_zero]
  omega

/-- A year has 146097 / 400 days, but for two days. -/
theorem yearStart_mean (year : Int) : -800 ≤ 400 * yearStart year - 146097 * year ∧ 400 * yearStart year - 146097 * year ≤ 800 := by
  rw [yearStart]
  omega

theorem yearOf_spec (n : Int) : yearStart (yearOf n) ≤ n + yearStart 1970 ∧ n + yearStart 1970 < yearStart (yearOf n + 1) := by
  unfold yearOf
  generalize n + yearStart 1970 = days
  dsimp only
  generalize is : 400 * days / 146097 = year
  have before := yearStart_mean (year - 1)
  have after := yearStart_mean (year + 1 + 1)
  split_ifs with early late
  · rw [Int.sub_add_cancel]
    omega
  · omega
  · omega

theorem monthUpTo_le (leap : Bool) (day : Int) (last : Nat) : monthUpTo leap day last ≤ last := by
  induction last with
  | zero => exact Nat.le_refl 0
  | succ last ih =>
    rw [monthUpTo]
    split_ifs <;> omega

theorem monthUpTo_spec {leap : Bool} {last : Nat} (low : 0 ≤ day) (high : day < monthStart leap (last + 1)) :
    monthStart leap (monthUpTo leap day last) ≤ day ∧ day < monthStart leap (monthUpTo leap day last + 1) := by
  induction last with
  | zero => exact ⟨low, high⟩
  | succ last ih =>
    rw [monthUpTo]
    split_ifs with reached
    · exact ⟨reached, high⟩
    · exact ih (by omega)

/-- **The date of a day.** -/
theorem dayNumber_date (n : Int) : dayNumber (yearOf n) (monthOf n) (dayOf n) = n := by
  have inYear : monthOf n ≤ 11 := monthUpTo_le _ _ 11
  have same : (monthOf n : Int) / 12 = 0 := by omega
  have here : ((monthOf n : Int) % 12).toNat = monthOf n := by omega
  rw [dayNumber, same, here, Int.add_zero, dayOf, yearDay]
  omega

/-- The day of a date lies in its month. -/
theorem dayOf_spec (n : Int) : 1 ≤ dayOf n ∧ dayOf n ≤ monthDays (isLeap (yearOf n)) (monthOf n) := by
  obtain ⟨first, last⟩ := yearOf_spec n
  rw [yearStart_succ] at last
  have low : 0 ≤ yearDay n := by
    rw [yearDay]
    omega
  have high : yearDay n < monthStart (isLeap (yearOf n)) 12 := by
    rw [yearDay]
    omega
  have inMonth : monthStart (isLeap (yearOf n)) (monthOf n) ≤ yearDay n ∧ yearDay n < monthStart (isLeap (yearOf n)) (monthOf n + 1) :=
    monthUpTo_spec low high
  rw [monthStart] at inMonth
  rw [dayOf]
  omega

end Years

end GameServer.Lib.Calendar
