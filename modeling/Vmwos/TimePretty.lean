import Vmwos.PrintfRendering

/-!
# Times for people

`time_pretty` of vlibc takes days, hours and minutes out of a time, each behind a comparison, and
prints them with the seconds. The comparisons are strict: a time of exactly one day, one hour or
one minute, or such a remainder, is left to the next unit.

* `breakDown_eq`: what the comparisons leave to each unit;
* `timePretty_eq`: the text starts at the largest unit that is not zero.

Result: `timePretty_canonical_iff`.
-/

namespace Vmwos.TimePretty

open Bytes Printf

/-! ## Definitions -/

structure Breakdown where
  days : Int
  hours : Int
  minutes : Int
  seconds : Int

/-- One of the three comparisons: the number of units, and the time that is left. -/
def peel (size time : Int) : Int × Int :=
  if time > size then (time.tdiv size, time - time.tdiv size * size) else (0, time)

/-- The first part of `time_pretty`. -/
def breakDown (time : Int) : Breakdown :=
  let days := peel (24 * 60 * 60) time
  let hours := peel (60 * 60) days.2
  let minutes := peel 60 hours.2
  { days := days.1, hours := hours.1, minutes := minutes.1, seconds := minutes.2 }

def chars (s : String) : List UInt8 := s.toList.map Char.toUInt8

/-- A number, as it is passed to `sprintf`. -/
def intArg (x : Int) : Arg := { word := (Int32.ofInt x).toUInt32, long := 0, text := [] }

/-- What `sprintf` leaves in its buffer before the NUL. -/
def sprintf (string : String) (args : List Int) : Option (List UInt8) :=
  vsprintf (chars string ++ [0]) fun i => intArg (args.getD i 0)

/-- `time_pretty`: the text in the buffer. -/
def timePretty (time : Int) : Option (List UInt8) :=
  let b := breakDown time
  if b.days ≠ 0 then sprintf "%dd %dh %dm %ds" [b.days, b.hours, b.minutes, b.seconds]
  else if b.hours ≠ 0 then sprintf "%dh %dm %ds" [b.hours, b.minutes, b.seconds]
  else if b.minutes ≠ 0 then sprintf "%dm %ds" [b.minutes, b.seconds]
  else sprintf "%ds" [b.seconds]

/-! ## The text of a breakdown -/

inductive TimeUnit
  | day | hour | minute | second
  deriving DecidableEq

def TimeUnit.char : TimeUnit → UInt8
  | day => 'd'.toUInt8
  | hour => 'h'.toUInt8
  | minute => 'm'.toUInt8
  | second => 's'.toUInt8

def Breakdown.units (b : Breakdown) : List (Int × TimeUnit) :=
  [(b.days, .day), (b.hours, .hour), (b.minutes, .minute), (b.seconds, .second)]

/-- The units from the largest one that is not zero. The last is never left out. -/
def fromLargest : List (Int × TimeUnit) → List (Int × TimeUnit)
  | [] => []
  | [unit] => [unit]
  | unit :: units => if unit.1 = 0 then fromLargest units else unit :: units

/-- Numbers with their units, a space between two of them. -/
def unitsText : List (Int × TimeUnit) → List UInt8
  | [] => []
  | [unit] => digitText 10 unit.1.natAbs ++ [unit.2.char]
  | unit :: units => digitText 10 unit.1.natAbs ++ [unit.2.char, ' '.toUInt8] ++ unitsText units

/-- The fields are those of the time, and the text shows them from the largest that is not zero. -/
structure Canonical (time : Int) : Prop where
  total : (breakDown time).days * 86400 + (breakDown time).hours * 3600 +
    (breakDown time).minutes * 60 + (breakDown time).seconds = time
  hours : 0 ≤ (breakDown time).hours ∧ (breakDown time).hours < 24
  minutes : 0 ≤ (breakDown time).minutes ∧ (breakDown time).minutes < 60
  seconds : 0 ≤ (breakDown time).seconds ∧ (breakDown time).seconds < 60
  text : timePretty time = some (unitsText (fromLargest (breakDown time).units))

/-! ## The numbers -/

variable {size time : Int}

theorem peel_total (size time : Int) : (peel size time).1 * size + (peel size time).2 = time := by
  unfold peel
  split
  · exact add_sub_cancel _ _
  · rw [Int.zero_mul, Int.zero_add]

theorem peel_of_ne (htime : 0 ≤ time) (hne : time ≠ size) :
    peel size time = (time / size, time % size) := by
  unfold peel
  split
  next hgt => rw [Int.tdiv_eq_ediv_of_nonneg htime, Int.emod_def, Int.mul_comm]
  next hle =>
    have hlt : time < size := by omega
    rw [Int.ediv_eq_zero_of_lt htime hlt, Int.emod_eq_of_lt htime hlt]

/-- A time of exactly one unit is left whole. -/
theorem peel_self (size : Int) : peel size size = (0, size) := if_neg (Int.lt_irrefl size)

theorem breakDown_total (time : Int) :
    (breakDown time).days * 86400 + (breakDown time).hours * 3600 +
      (breakDown time).minutes * 60 + (breakDown time).seconds = time := by
  have hdays := peel_total 86400 time
  have hhours := peel_total 3600 (peel 86400 time).2
  have hminutes := peel_total 60 (peel 3600 (peel 86400 time).2).2
  show (peel 86400 time).1 * 86400 + (peel 3600 (peel 86400 time).2).1 * 3600 +
    (peel 60 (peel 3600 (peel 86400 time).2).2).1 * 60 +
      (peel 60 (peel 3600 (peel 86400 time).2).2).2 = time
  omega

/-- What is compared with an hour, and with a minute. -/
theorem left_of_days (htime : 0 ≤ time) (hday : time ≠ 86400) :
    (peel 86400 time).2 = time % 86400 := by
  rw [peel_of_ne htime hday]

theorem left_of_hours (htime : 0 ≤ time) (hday : time ≠ 86400) (hhour : time % 86400 ≠ 3600) :
    (peel 3600 (peel 86400 time).2).2 = time % 3600 := by
  rw [left_of_days htime hday, peel_of_ne (Int.emod_nonneg _ (by decide)) hhour]
  exact Int.emod_emod_of_dvd time (by decide)

/-- The numbers of a time without a boundary. -/
theorem breakDown_eq (htime : 0 ≤ time) (hday : time ≠ 86400) (hhour : time % 86400 ≠ 3600)
    (hminute : time % 3600 ≠ 60) :
    breakDown time = ⟨time / 86400, time % 86400 / 3600, time % 3600 / 60, time % 3600 % 60⟩ := by
  have hhours : (peel 3600 (peel 86400 time).2).1 = time % 86400 / 3600 := by
    rw [left_of_days htime hday, peel_of_ne (Int.emod_nonneg _ (by decide)) hhour]
  have hminutes : peel 60 (peel 3600 (peel 86400 time).2).2 =
      (time % 3600 / 60, time % 3600 % 60) := by
    rw [left_of_hours htime hday hhour, peel_of_ne (Int.emod_nonneg _ (by decide)) hminute]
  show Breakdown.mk (peel 86400 time).1 (peel 3600 (peel 86400 time).2).1
    (peel 60 (peel 3600 (peel 86400 time).2).2).1 (peel 60 (peel 3600 (peel 86400 time).2).2).2 = _
  rw [hhours, hminutes, peel_of_ne htime hday]

theorem peel_bounds (hsize : 0 < size) (htime : 0 ≤ time) :
    (0 ≤ (peel size time).1 ∧ (peel size time).1 ≤ time) ∧
      0 ≤ (peel size time).2 ∧ (peel size time).2 ≤ time := by
  by_cases heq : time = size
  · rw [heq, peel_self]
    omega
  · rw [peel_of_ne htime heq]
    have hquotient := Int.ediv_nonneg htime hsize.le
    refine ⟨⟨hquotient, Int.ediv_le_self _ htime⟩, Int.emod_nonneg _ hsize.ne', ?_⟩
    rw [Int.emod_def]
    exact Int.sub_le_self _ (Int.mul_nonneg hsize.le hquotient)

theorem breakDown_bounds (htime : 0 ≤ time) :
    ∀ unit ∈ (breakDown time).units, 0 ≤ unit.1 ∧ unit.1 ≤ time := by
  obtain ⟨hdays, hleft, hle⟩ := @peel_bounds (24 * 60 * 60) time (by decide) htime
  obtain ⟨hhours, hleft', hle'⟩ := @peel_bounds (60 * 60) _ (by decide) hleft
  obtain ⟨hminutes, hseconds⟩ := @peel_bounds 60 _ (by decide) hleft'
  unfold Breakdown.units
  rw [List.forall_mem_cons, List.forall_mem_cons, List.forall_mem_cons, List.forall_mem_singleton]
  exact ⟨hdays, ⟨hhours.1, hhours.2.trans hle⟩, ⟨hminutes.1, hminutes.2.trans (hle'.trans hle)⟩,
    hseconds.1, hseconds.2.trans (hle'.trans hle)⟩

/-! ## The text -/

/-- A letter behind a number. -/
def TimeUnit.literal (unit : TimeUnit) : Directive :=
  .literal unit.char (by cases unit <;> decide)

/-- The format of some units. -/
def directives : List (Int × TimeUnit) → List Directive
  | [] => []
  | [unit] => [.d (intArg unit.1).word, unit.2.literal]
  | unit :: units =>
    .d (intArg unit.1).word :: unit.2.literal :: .literal ' '.toUInt8 (by decide) :: directives units

theorem signed_intArg {x : Int} (hx : 0 ≤ x ∧ x < 2 ^ 31) : signed (intArg x).word = x := by
  unfold signed intArg
  rw [Int32.toInt32_toUInt32]
  exact Int32.toInt_ofInt_of_le (by omega) hx.2

theorem passed_directives {ap : Nat → Arg} {n : Nat} {units : List (Int × TimeUnit)}
    (hap : ∀ i (hi : i < units.length), ap (n + i) = intArg units[i].1) :
    Passed ap n (directives units) := by
  induction units generalizing n with
  | nil => trivial
  | cons unit units ih =>
    have hunit : ap n = intArg unit.1 := hap 0 (Nat.succ_pos _)
    have hunits : Passed ap (n + 1) (directives units) := by
      refine ih fun i hi => ?_
      rw [Nat.add_assoc, Nat.add_comm 1 i]
      exact hap (i + 1) (Nat.succ_lt_succ hi)
    cases units with
    | nil => exact ⟨congrArg Arg.word hunit, trivial, trivial⟩
    | cons unit' units => exact ⟨congrArg Arg.word hunit, trivial, trivial, hunits⟩

theorem rendering_directives {units : List (Int × TimeUnit)}
    (hunits : ∀ unit ∈ units, 0 ≤ unit.1 ∧ unit.1 < 2 ^ 31) :
    (directives units).flatMap Directive.rendering = unitsText units := by
  induction units with
  | nil => rfl
  | cons unit units ih =>
    obtain ⟨hunit, hrest⟩ := List.forall_mem_cons.mp hunits
    have hnumber : Directive.decimalText (intArg unit.1).word = digitText 10 unit.1.natAbs := by
      unfold Directive.decimalText
      rw [signed_intArg hunit, if_neg (Int.not_lt.mpr hunit.1), List.nil_append]
    have htext : (directives (unit :: units)).flatMap Directive.rendering =
        Directive.decimalText (intArg unit.1).word ++ unit.2.char ::
          if units = [] then [] else ' '.toUInt8 :: (directives units).flatMap Directive.rendering := by
      cases units <;> rfl
    rw [htext, hnumber, ih hrest]
    cases units with
    | nil => rfl
    | cons unit' units =>
      rw [if_neg (List.cons_ne_nil _ _)]
      exact (List.append_assoc _ [unit.2.char, ' '.toUInt8] _).symm

theorem length_unitsText_le {units : List (Int × TimeUnit)}
    (hunits : ∀ unit ∈ units, 0 ≤ unit.1 ∧ unit.1 < 2 ^ 31) :
    (unitsText units).length ≤ 12 * units.length := by
  induction units with
  | nil => exact le_refl _
  | cons unit units ih =>
    obtain ⟨hunit, hrest⟩ := List.forall_mem_cons.mp hunits
    have hdigits : (digitText 10 unit.1.natAbs).length ≤ 10 :=
      length_digitText_le (by decide) (by decide) (by omega)
    have hle := ih hrest
    cases units with
    | nil =>
      simp only [unitsText, List.length_append, List.length_singleton]
      omega
    | cons unit' units =>
      simp only [unitsText, List.length_append, List.length_cons, List.length_nil] at hle ⊢
      omega

/-- A format of units prints their text. -/
theorem sprintf_eq {string : String} {units : List (Int × TimeUnit)}
    (hstring : chars string = (directives units).flatMap Directive.format)
    (hunits : ∀ unit ∈ units, 0 ≤ unit.1 ∧ unit.1 < 2 ^ 31) (hcount : units.length ≤ 4) :
    sprintf string (units.map Prod.fst) = some (unitsText units) := by
  have hlength := length_unitsText_le hunits
  have hrendering := rendering_directives hunits
  have hpassed : Passed (fun i => intArg ((units.map Prod.fst).getD i 0)) 0 (directives units) :=
    passed_directives fun i hi => by simp [hi]
  unfold sprintf
  rw [hstring, vsprintf_eq, putFields_directives hpassed, hrendering]
  rw [hrendering]
  omega

/-- The four formats start at the largest unit that is not zero. -/
theorem timePretty_eq (htime : 0 ≤ time ∧ time < 2 ^ 31) :
    timePretty time = some (unitsText (fromLargest (breakDown time).units)) := by
  have hunits : ∀ unit ∈ (breakDown time).units, 0 ≤ unit.1 ∧ unit.1 < 2 ^ 31 := fun unit hunit =>
    ⟨(breakDown_bounds htime.1 unit hunit).1,
      (breakDown_bounds htime.1 unit hunit).2.trans_lt htime.2⟩
  obtain ⟨-, hunits₃⟩ := List.forall_mem_cons.mp hunits
  obtain ⟨-, hunits₂⟩ := List.forall_mem_cons.mp hunits₃
  obtain ⟨-, hunits₁⟩ := List.forall_mem_cons.mp hunits₂
  unfold timePretty Breakdown.units
  simp only [fromLargest]
  by_cases hdays : (breakDown time).days = 0
  · rw [if_neg (not_not.mpr hdays), if_pos hdays]
    by_cases hhours : (breakDown time).hours = 0
    · rw [if_neg (not_not.mpr hhours), if_pos hhours]
      by_cases hminutes : (breakDown time).minutes = 0
      · rw [if_neg (not_not.mpr hminutes), if_pos hminutes]
        exact @sprintf_eq _ [(_, .second)] rfl hunits₁ (by simp)
      · rw [if_pos hminutes, if_neg hminutes]
        exact @sprintf_eq _ [(_, .minute), (_, .second)] rfl hunits₂ (by simp)
    · rw [if_pos hhours, if_neg hhours]
      exact @sprintf_eq _ [(_, .hour), (_, .minute), (_, .second)] rfl hunits₃ (by simp)
  · rw [if_pos hdays, if_neg hdays]
    exact @sprintf_eq _ (breakDown time).units rfl hunits (le_refl _)

/-- For every non-negative 32-bit time, the numbers of `time_pretty` are in their ranges exactly
when no comparison meets its own size: one day, a remainder of one hour, or one of one minute. -/
theorem timePretty_canonical_iff (htime : 0 ≤ time ∧ time < 2 ^ 31) :
    Canonical time ↔ time ≠ 86400 ∧ time % 86400 ≠ 3600 ∧ time % 3600 ≠ 60 := by
  constructor
  · intro h
    have hday : time ≠ 86400 := by
      rintro rfl
      exact absurd h.hours.2 (by decide)
    have hhour : time % 86400 ≠ 3600 := by
      intro heq
      have hminutes : (breakDown time).minutes = (peel 60 (peel 3600 3600).2).1 := by
        show (peel 60 (peel 3600 (peel 86400 time).2).2).1 = _
        rw [left_of_days htime.1 hday, heq]
      exact absurd (hminutes ▸ h.minutes.2) (by decide)
    have hminute : time % 3600 ≠ 60 := by
      intro heq
      have hseconds : (breakDown time).seconds = (peel 60 60).2 := by
        show (peel 60 (peel 3600 (peel 86400 time).2).2).2 = _
        rw [left_of_hours htime.1 hday hhour, heq]
      exact absurd (hseconds ▸ h.seconds.2) (by decide)
    exact ⟨hday, hhour, hminute⟩
  · rintro ⟨hday, hhour, hminute⟩
    have heq := breakDown_eq htime.1 hday hhour hminute
    refine ⟨breakDown_total time, ?_, ?_, ?_, timePretty_eq htime⟩
    · rw [heq]
      simp only
      omega
    · rw [heq]
      simp only
      omega
    · rw [heq]
      simp only
      omega

/-- A day, two hours, three minutes and four seconds. -/
theorem timePretty_canonical_day : Canonical 93784 :=
  (timePretty_canonical_iff (by decide)).mpr (by decide)

/-- One minute is shown as `60s`. -/
theorem timePretty_minute : ¬Canonical 60 := by
  intro h
  exact absurd h.seconds.2 (by decide)

example : timePretty 60 = some (chars "60s") := by decide

end Vmwos.TimePretty
