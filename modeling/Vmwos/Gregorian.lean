import Mathlib.Algebra.BigOperators.Intervals

/-!
# The proleptic Gregorian calendar

Years are counted from 1, months and days of the month from 1. The number of days before a year
is in closed form, so that the leap rule is stated once and `daysBeforeYear_succ` ties the two.
-/

namespace Gregorian

open Finset

/-! ## Definitions -/

def IsLeap (year : Nat) : Prop := 4 ∣ year ∧ (¬100 ∣ year ∨ 400 ∣ year)

instance : DecidablePred IsLeap := fun _ => inferInstanceAs (Decidable (_ ∧ _))

/-- The days of the years from 1 on that lie before `year`. -/
def daysBeforeYear (year : Nat) : Nat :=
  365 * (year - 1) + (year - 1) / 4 - (year - 1) / 100 + (year - 1) / 400

def daysInYear (year : Nat) : Nat := if IsLeap year then 366 else 365

def daysInMonth (year month : Nat) : Nat :=
  if month = 2 then if IsLeap year then 29 else 28
  else if month = 4 ∨ month = 6 ∨ month = 9 ∨ month = 11 then 30 else 31

/-- The days of the months of `year` that lie before `month`. -/
def daysBeforeMonth (year month : Nat) : Nat := ∑ m ∈ Ico 1 month, daysInMonth year m

structure DateTime where
  year : Nat
  month : Nat
  day : Nat
  hour : Nat
  minute : Nat
  second : Nat

structure DateTime.Valid (d : DateTime) : Prop where
  year : 1 ≤ d.year
  month : 1 ≤ d.month ∧ d.month ≤ 12
  day : 1 ≤ d.day ∧ d.day ≤ daysInMonth d.year d.month
  hour : d.hour < 24
  minute : d.minute < 60
  second : d.second < 60

/-- The days from 1 January of the year 1 to the date. -/
def DateTime.days (d : DateTime) : Nat :=
  daysBeforeYear d.year + daysBeforeMonth d.year d.month + (d.day - 1)

/-- The seconds since the start of 1970. -/
def DateTime.unixSeconds (d : DateTime) : Int :=
  (d.days - daysBeforeYear 1970 : Int) * 86400 + d.hour * 3600 + d.minute * 60 + d.second

/-! ## Years and months -/

variable {year month : Nat}

/-- The leap rule as a sum: every fourth year has one more day, but for the centuries. -/
theorem daysInYear_eq (year : Nat) :
    daysInYear year = 365 + (if 4 ∣ year then 1 else 0) - (if 100 ∣ year then 1 else 0) +
      if 400 ∣ year then 1 else 0 := by
  have hcentury : 400 ∣ year → 100 ∣ year := (show 100 ∣ 400 by decide).trans
  have hfour : 100 ∣ year → 4 ∣ year := (show 4 ∣ 100 by decide).trans
  unfold daysInYear
  by_cases h400 : 400 ∣ year
  · have h100 := hcentury h400
    simp [IsLeap, h400, h100, hfour h100]
  · by_cases h100 : 100 ∣ year
    · simp [IsLeap, h400, h100, hfour h100]
    · by_cases h4 : 4 ∣ year
      · simp [IsLeap, h400, h100, h4]
      · simp [IsLeap, h400, h100, h4]

theorem daysBeforeYear_succ (hyear : 1 ≤ year) :
    daysBeforeYear (year + 1) = daysBeforeYear year + daysInYear year := by
  obtain ⟨y, rfl⟩ := Nat.exists_eq_succ_of_ne_zero (Nat.ne_of_gt hyear)
  have hle : y / 100 ≤ y := Nat.div_le_self y 100
  rw [daysInYear_eq]
  unfold daysBeforeYear
  simp only [Nat.succ_eq_add_one, Nat.add_sub_cancel, Nat.succ_div]
  generalize y / 4 = fours at *
  generalize y / 100 = centuries at *
  split_ifs <;> omega

theorem daysBeforeMonth_one (year : Nat) : daysBeforeMonth year 1 = 0 := by
  unfold daysBeforeMonth
  rw [Ico_self, sum_empty]

theorem daysBeforeMonth_succ (hmonth : 1 ≤ month) :
    daysBeforeMonth year (month + 1) = daysBeforeMonth year month + daysInMonth year month :=
  sum_Ico_succ_top hmonth _

/-- The twelve months make up the year. -/
theorem daysBeforeMonth_end (year : Nat) : daysBeforeMonth year 13 = daysInYear year := by
  unfold daysBeforeMonth daysInMonth daysInYear
  by_cases hleap : IsLeap year
  · simp only [hleap, if_true]
    decide
  · simp only [hleap, if_false]
    decide

theorem daysInMonth_pos (year month : Nat) : 0 < daysInMonth year month := by
  unfold daysInMonth
  split
  · split <;> decide
  · split <;> decide

end Gregorian
