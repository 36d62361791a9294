import Mathlib.Tactic.IntervalCases
import Vmwos.Gregorian

/-!
# The dates of `ls`

`print_date` of `ls.c` takes years, months, days, hours and minutes from a time, one after the
other, until what is left is less than one more of them. The times are those of a 32-bit clock,
and no computation leaves the 32-bit range.

* `subtractLoop_eq`: such a loop ends in the period that the time falls into.

Result: `printDate_gregorian`. The date is that of the Gregorian calendar.
-/

namespace Vmwos.PrintDate

open Gregorian

/-! ## Definitions -/

/-- The arguments of the last `printf`. -/
structure Printed where
  day : Nat
  month : String
  year : Nat
  hour : Nat
  min : Nat
  seconds : Int
  deriving DecidableEq

def monthDays : List Int := [31, 28, 31, 30, 31, 30, 31, 31, 30, 31, 30, 31]

def monthNames : List String :=
  ["Jan", "Feb", "Mar", "Apr", "May", "Jun", "Jul", "Aug", "Sep", "Oct", "Nov", "Dec"]

def leapYear (year : Nat) : Int :=
  if year % 4 = 0 ∧ (year % 100 ≠ 0 ∨ year % 400 = 0) then 1 else 0

def secondsInYear (year : Nat) : Int := (365 + leapYear year) * 24 * 60 * 60

/-- There is no entry for a month behind the twelfth. -/
def secondsInMonth (year month : Nat) : Option Int :=
  monthDays[month]?.map fun days =>
    (if month = 1 ∧ leapYear year ≠ 0 then days + 1 else days) * (24 * 60 * 60)

/-- The five loops: `n` goes up, and its size is subtracted from `s`, until `s` is smaller. A size
that cannot be read stops the program. -/
def subtractLoop (size : Nat → Option Int) : Nat → Int → Nat → Option (Int × Nat)
  | 0, _, _ => none
  | fuel + 1, s, n =>
    (size n).bind fun z => if s < z then some (s, n) else subtractLoop size fuel (s - z) (n + 1)

/-- `print_date`, with at most `fuel` turns of each loop. -/
def printDate (fuel : Nat) (s : Int) : Option Printed := do
  let (s, year) ← subtractLoop (fun year => some (secondsInYear year)) fuel s 1970
  let (s, month) ← subtractLoop (secondsInMonth year) fuel s 0
  let (s, day) ← subtractLoop (fun _ => some (24 * 60 * 60)) fuel s 0
  let (s, hour) ← subtractLoop (fun _ => some (60 * 60)) fuel s 0
  let (s, min) ← subtractLoop (fun _ => some 60) fuel s 0
  let name ← monthNames[month]?
  some { day := day + 1, month := name, year, hour, min, seconds := s }

/-! ## One loop -/

/-- The loop ends in the period that the time falls into. `before k` is where period `k` starts,
and the times end before `limit`. -/
theorem subtractLoop_eq {size : Nat → Option Int} {before : Nat → Int} {n limit : Nat} {s : Int}
    (hsize : ∀ k, n ≤ k → k < limit →
      size k = some (before (k + 1) - before k) ∧ before k < before (k + 1))
    (hn : n < limit) (hs : 0 ≤ s) (hlt : s < before limit - before n) :
    ∃ k, k < limit ∧ before n ≤ before k ∧ before k - before n ≤ s ∧
      s < before (k + 1) - before n ∧ n ≤ k ∧ ∀ fuel, s.toNat < fuel →
        subtractLoop size fuel s n = some (s - (before k - before n), k) := by
  induction hturns : limit - n generalizing s n with
  | zero => exact absurd hn (by omega)
  | succ turns ih =>
    obtain ⟨hread, hpos⟩ := hsize n (le_refl n) hn
    by_cases hend : s < before (n + 1) - before n
    · refine ⟨n, hn, le_refl _, by omega, hend, le_refl n, fun fuel hfuel => ?_⟩
      obtain ⟨fuel, rfl⟩ := Nat.exists_eq_succ_of_ne_zero (Nat.ne_of_gt (Nat.zero_lt_of_lt hfuel))
      rw [subtractLoop, hread, Option.bind_some, if_pos hend, Int.sub_self, Int.sub_zero]
    · have hnext : n + 1 < limit := by
        refine Nat.lt_of_le_of_ne hn fun heq => ?_
        rw [heq] at hend
        exact hend hlt
      obtain ⟨k, hk, hmono, hstart, hstop, hle, hloop⟩ :=
        @ih (n + 1) (s - (before (n + 1) - before n))
          (fun k hle hk => hsize k (Nat.le_of_succ_le hle) hk) hnext (by omega) (by omega) (by omega)
      refine ⟨k, hk, by omega, by omega, by omega, Nat.le_of_succ_le hle, fun fuel hfuel => ?_⟩
      obtain ⟨fuel, rfl⟩ := Nat.exists_eq_succ_of_ne_zero (Nat.ne_of_gt (Nat.zero_lt_of_lt hfuel))
      rw [subtractLoop, hread, Option.bind_some, if_neg hend, hloop fuel (by omega)]
      congr 2
      omega

/-- Periods of one size. -/
theorem subtractLoop_const {z s : Int} {limit : Nat} (hz : 0 < z) (hs : 0 ≤ s)
    (hlt : s < limit * z) :
    ∃ (k : Nat) (r : Int), k < limit ∧ 0 ≤ r ∧ r < z ∧ s = k * z + r ∧
      ∀ fuel, s.toNat < fuel → subtractLoop (fun _ => some z) fuel s 0 = some (r, k) := by
  have hlimit : 0 < limit := by
    refine Nat.pos_of_ne_zero fun hzero => ?_
    rw [hzero, Int.natCast_zero, Int.zero_mul] at hlt
    omega
  have hnext : ∀ k : Nat, ((k + 1 : Nat) : Int) * z = k * z + z := fun k => by
    rw [Int.natCast_succ, Int.add_mul, Int.one_mul]
  have hsize : ∀ k, 0 ≤ k → k < limit → some z = some (((k + 1 : Nat) : Int) * z - k * z) ∧
      (k : Int) * z < ((k + 1 : Nat) : Int) * z := by
    intro k _ _
    rw [hnext]
    exact ⟨congrArg some (by omega), by omega⟩
  obtain ⟨k, hk, -, hstart, hstop, -, hloop⟩ :=
    @subtractLoop_eq (fun _ => some z) (fun k => k * z) 0 limit s hsize hlimit hs (by simpa using hlt)
  simp only [Int.natCast_zero, Int.zero_mul, Int.sub_zero, hnext] at hstart hstop hloop
  exact ⟨k, s - k * z, hk, by omega, by omega, by omega, hloop⟩

/-! ## Years and months -/

theorem leapYear_eq (year : Nat) : leapYear year = if IsLeap year then 1 else 0 := by
  unfold leapYear IsLeap
  simp only [Nat.dvd_iff_mod_eq_zero, ne_eq]

theorem secondsInYear_eq (year : Nat) : secondsInYear year = daysInYear year * 86400 := by
  unfold secondsInYear daysInYear
  rw [leapYear_eq]
  split <;> rfl

/-- The table holds the lengths of the months, and February is made longer. -/
theorem secondsInMonth_eq {year month : Nat} (hmonth : month < 12) :
    secondsInMonth year month = some (daysInMonth year (month + 1) * 86400) := by
  unfold secondsInMonth daysInMonth
  rw [leapYear_eq]
  by_cases hleap : IsLeap year
  · simp only [if_pos hleap]
    interval_cases month <;> rfl
  · simp only [if_neg hleap]
    interval_cases month <;> rfl

theorem yearLoop_eq {s : Int} (hs : 0 ≤ s) (hlt : s < 2 ^ 31) :
    ∃ (year : Nat) (r : Int), 1970 ≤ year ∧ 0 ≤ r ∧ r ≤ s ∧ r < daysInYear year * 86400 ∧
      s = ((daysBeforeYear year : Int) - daysBeforeYear 1970) * 86400 + r ∧
      ∀ fuel, s.toNat < fuel →
        subtractLoop (fun year => some (secondsInYear year)) fuel s 1970 = some (r, year) := by
  have hnext : ∀ year : Nat, 1970 ≤ year →
      (daysBeforeYear (year + 1) : Int) = daysBeforeYear year + daysInYear year :=
    fun year hyear => congrArg Nat.cast (daysBeforeYear_succ (Nat.le_trans (by decide) hyear))
  have hpos : ∀ year : Nat, 365 ≤ daysInYear year := fun year => by
    unfold daysInYear
    split <;> decide
  have hsize : ∀ year, 1970 ≤ year → year < 2039 →
      some (secondsInYear year) = some ((daysBeforeYear (year + 1) : Int) * 86400 -
        daysBeforeYear year * 86400) ∧
      (daysBeforeYear year : Int) * 86400 < daysBeforeYear (year + 1) * 86400 := by
    intro year hyear _
    have hdays := hpos year
    rw [hnext year hyear, secondsInYear_eq]
    exact ⟨congrArg some (by omega), by omega⟩
  have hlimit : (daysBeforeYear 2039 : Int) * 86400 - daysBeforeYear 1970 * 86400 = 2177452800 := by
    decide
  obtain ⟨year, -, hmono, hstart, hstop, hyear, hloop⟩ :=
    @subtractLoop_eq _ (fun year => daysBeforeYear year * 86400) 1970 2039 s hsize (by decide) hs
      (by omega)
  rw [hnext year hyear] at hstop
  exact ⟨year, s - (daysBeforeYear year * 86400 - daysBeforeYear 1970 * 86400), hyear, by omega,
    by omega, by omega, by omega, hloop⟩

theorem monthLoop_eq {year : Nat} {s : Int} (hs : 0 ≤ s) (hlt : s < daysInYear year * 86400) :
    ∃ (month : Nat) (r : Int), month < 12 ∧ 0 ≤ r ∧ r < daysInMonth year (month + 1) * 86400 ∧
      s = (daysBeforeMonth year (month + 1) : Int) * 86400 + r ∧
      ∀ fuel, s.toNat < fuel →
        subtractLoop (secondsInMonth year) fuel s 0 = some (r, month) := by
  have hnext : ∀ month : Nat, (daysBeforeMonth year (month + 1 + 1) : Int) =
      daysBeforeMonth year (month + 1) + daysInMonth year (month + 1) :=
    fun month => congrArg Nat.cast (daysBeforeMonth_succ (Nat.succ_pos month))
  have hsize : ∀ month, 0 ≤ month → month < 12 →
      secondsInMonth year month = some ((daysBeforeMonth year (month + 1 + 1) : Int) * 86400 -
        daysBeforeMonth year (month + 1) * 86400) ∧
      (daysBeforeMonth year (month + 1) : Int) * 86400 <
        daysBeforeMonth year (month + 1 + 1) * 86400 := by
    intro month _ hmonth
    have hdays := daysInMonth_pos year (month + 1)
    rw [hnext month, secondsInMonth_eq hmonth]
    exact ⟨congrArg some (by omega), by omega⟩
  have hlimit : s < (daysBeforeMonth year (12 + 1) : Int) * 86400 -
      daysBeforeMonth year (0 + 1) * 86400 := by
    rw [daysBeforeMonth_end, daysBeforeMonth_one]
    simpa using hlt
  obtain ⟨month, hmonth, -, hstart, hstop, -, hloop⟩ :=
    @subtractLoop_eq _ (fun month => daysBeforeMonth year (month + 1) * 86400) 0 12 s hsize
      (by decide) hs hlimit
  simp only [hnext, Nat.zero_add, daysBeforeMonth_one, Int.natCast_zero, Int.zero_mul,
    Int.sub_zero] at hstart hstop hloop
  exact ⟨month, s - daysBeforeMonth year (month + 1) * 86400, hmonth, by omega, by omega, by omega,
    hloop⟩

/-! ## All loops -/

/-- For every time from 1970 on that a 32-bit number can hold, `print_date` returns, reads its
tables only where they have entries, and prints the date of the Gregorian calendar. -/
theorem printDate_gregorian {s : Int} (hs : 0 ≤ s ∧ s < 2 ^ 31) :
    ∃ (d : DateTime) (name : String), d.Valid ∧ d.unixSeconds = s ∧
      monthNames[d.month - 1]? = some name ∧
      ∀ fuel, s.toNat < fuel →
        printDate fuel s = some
          { day := d.day, month := name, year := d.year, hour := d.hour, min := d.minute,
            seconds := d.second } := by
  obtain ⟨year, s₁, hyear, hs₁, hle₁, hlt₁, heq₁, hloop₁⟩ := yearLoop_eq hs.1 hs.2
  obtain ⟨month, s₂, hmonth, hs₂, hlt₂, heq₂, hloop₂⟩ := monthLoop_eq hs₁ hlt₁
  obtain ⟨day, s₃, hday, hs₃, hlt₃, heq₃, hloop₃⟩ :=
    subtractLoop_const (show (0 : Int) < 24 * 60 * 60 by decide) hs₂ hlt₂
  obtain ⟨hour, s₄, hhour, hs₄, hlt₄, heq₄, hloop₄⟩ :=
    @subtractLoop_const (60 * 60) s₃ 24 (by decide) hs₃ (lt_of_lt_of_eq hlt₃ (by decide))
  obtain ⟨min, s₅, hmin, hs₅, hlt₅, heq₅, hloop₅⟩ :=
    @subtractLoop_const 60 s₄ 60 (by decide) hs₄ (lt_of_lt_of_eq hlt₄ (by decide))
  have hname : ∃ name, monthNames[month]? = some name :=
    ⟨_, List.getElem?_eq_getElem (show month < monthNames.length from hmonth)⟩
  obtain ⟨name, hname⟩ := hname
  have hseconds : ((s₅.toNat : Nat) : Int) = s₅ := Int.toNat_of_nonneg hs₅
  refine ⟨⟨year, month + 1, day + 1, hour, min, s₅.toNat⟩, name, ?_, ?_, hname, ?_⟩
  · exact ⟨Nat.le_trans (by decide) hyear, ⟨Nat.succ_pos month, hmonth⟩, ⟨Nat.succ_pos day, hday⟩,
      hhour, hmin, by show s₅.toNat < 60; omega⟩
  · show (((daysBeforeYear year + daysBeforeMonth year (month + 1) + (day + 1 - 1) : Nat) : Int) -
      daysBeforeYear 1970) * 86400 + hour * 3600 + min * 60 + (s₅.toNat : Int) = s
    rw [hseconds, Nat.add_sub_cancel]
    push_cast
    omega
  · intro fuel hfuel
    unfold printDate
    rw [hloop₁ fuel hfuel]
    show (subtractLoop (secondsInMonth year) fuel s₁ 0).bind _ = _
    rw [hloop₂ fuel (by omega)]
    show (subtractLoop (fun _ => some (24 * 60 * 60)) fuel s₂ 0).bind _ = _
    rw [hloop₃ fuel (by omega)]
    show (subtractLoop (fun _ => some (60 * 60)) fuel s₃ 0).bind _ = _
    rw [hloop₄ fuel (by omega)]
    show (subtractLoop (fun _ => some 60) fuel s₄ 0).bind _ = _
    rw [hloop₅ fuel (by omega)]
    show (monthNames[month]?).bind _ = _
    rw [hname, hseconds]
    rfl

/-- The last second of 29 February 2000. -/
theorem printDate_gregorian_leap :
    ∃ (d : DateTime) (name : String), d.Valid ∧ d.unixSeconds = 951868799 ∧
      monthNames[d.month - 1]? = some name ∧
      ∀ fuel, 951868799 < fuel →
        printDate fuel 951868799 = some
          { day := d.day, month := name, year := d.year, hour := d.hour, min := d.minute,
            seconds := d.second } :=
  printDate_gregorian (by decide)

example : printDate 60 951868799 = some ⟨29, "Feb", 2000, 23, 59, 59⟩ := by decide +kernel

end Vmwos.PrintDate
