import Mathlib.Data.List.GetD
import Mathlib.Data.List.Induction
import Mathlib.Tactic.Ring

/-!
# The bet prompt

`wii_controller_prompt` of `bet_amount.c`. It reads the controller until A is pressed; up and down
change the value, at the first read of a press and then at every eighth. Amounts are exact
integers, and the console output is left out.

Result: `wiiControllerPrompt_adjusts`. The value is the starting value with one `delta` for each
adjustment, an adjustment is made at a read whose place in its run of presses is a multiple of 8,
and the value never falls below the minimum.
-/

namespace Vmwos.BetPrompt

/-! ## Definitions -/

def bdd : UInt16 := 0x4000
def ba : UInt16 := 0x10
def bdu : UInt16 := 0x1

def int32Min : Int := -2147483648

/-- One transfer from the controller: what `i2c_get_regs` returns, and the bytes in the buffer. -/
structure Transfer where
  results : Int
  buf : Fin 6 → UInt8

/-- The result of `read_buttons`. -/
def readButtons (t : Transfer) : Int :=
  if t.results < 0 then t.results else if t.results ≠ 6 then -3 else 0

/-- The buttons pull their bits low. -/
def buttonsPressed (buf : Fin 6 → UInt8) : UInt16 :=
  ~~~(((buf 4).toUInt16 <<< 8) ||| (buf 5).toUInt16)

/-- A button is pressed. -/
def isPressed (buttons button : UInt16) : Prop := buttons &&& button ≠ 0

instance (buttons button : UInt16) : Decidable (isPressed buttons button) :=
  inferInstanceAs (Decidable (_ ≠ _))

/-- The variables of the loop. -/
structure Prompt where
  buttons : UInt16
  consecutive : UInt8
  cashMoney : Int

def start (startingVal : Int) : Prompt := { buttons := 0, consecutive := 0, cashMoney := startingVal }

/-- The body of the loop, behind a read of the buttons. -/
def turn (delta minimum : Int) (p : Prompt) (buttons : UInt16) : Prompt :=
  if isPressed buttons (bdu ||| bdd) then
    let cashMoney :=
      if p.consecutive = 0 ∧ isPressed buttons bdd ∧ minimum ≤ p.cashMoney - delta then
        p.cashMoney - delta
      else p.cashMoney
    let cashMoney :=
      if p.consecutive = 0 ∧ isPressed buttons bdu then cashMoney + delta else cashMoney
    { buttons, consecutive := (p.consecutive + 1) &&& 7, cashMoney }
  else { p with buttons, consecutive := 0 }

/-- The loop, over the transfers still to come. It goes on as long as there are any. -/
def promptLoop (delta minimum : Int) : Prompt → List Transfer → Option Int
  | p, [] => if isPressed p.buttons ba then some p.cashMoney else none
  | p, t :: ts =>
    if isPressed p.buttons ba then some p.cashMoney
    else if readButtons t ≠ 0 then some int32Min
    else promptLoop delta minimum (turn delta minimum p (buttonsPressed t.buf)) ts

def wiiControllerPrompt (startingVal delta minimum : Int) (ts : List Transfer) : Option Int :=
  promptLoop delta minimum (start startingVal) ts

/-! ## Runs of presses -/

/-- Up or down is pressed. -/
def isHeld (buttons : UInt16) : Prop := isPressed buttons bdu ∨ isPressed buttons bdd

instance : DecidablePred isHeld := fun _ => inferInstanceAs (Decidable (_ ∨ _))

/-- The length of the run of presses at the end of the reads. -/
def held (reads : List UInt16) : Nat := (reads.reverse.takeWhile fun b => isHeld b).length

/-- Read `i` has a place that is a multiple of 8 in its run of presses: it follows that many. -/
def IsDue (reads : List UInt16) (i : Nat) : Prop := held (reads.take i) % 8 = 0

instance (reads : List UInt16) (i : Nat) : Decidable (IsDue reads i) :=
  inferInstanceAs (Decidable (_ = _))

/-- The loop after these reads. -/
def after (startingVal delta minimum : Int) (reads : List UInt16) : Prompt :=
  reads.foldl (turn delta minimum) (start startingVal)

/-- The value before read `i`. -/
def cashBefore (startingVal delta minimum : Int) (reads : List UInt16) (i : Nat) : Int :=
  (after startingVal delta minimum (reads.take i)).cashMoney

def AcceptsUp (reads : List UInt16) (i : Nat) : Prop :=
  isPressed (reads.getD i 0) bdu ∧ IsDue reads i

/-- A down must leave the minimum. -/
def AcceptsDown (startingVal delta minimum : Int) (reads : List UInt16) (i : Nat) : Prop :=
  isPressed (reads.getD i 0) bdd ∧ IsDue reads i ∧
    minimum ≤ cashBefore startingVal delta minimum reads i - delta

instance (reads : List UInt16) : DecidablePred (AcceptsUp reads) := fun _ =>
  inferInstanceAs (Decidable (_ ∧ _))

instance (startingVal delta minimum : Int) (reads : List UInt16) :
    DecidablePred (AcceptsDown startingVal delta minimum reads) := fun _ =>
  inferInstanceAs (Decidable (_ ∧ _))

def acceptedUps (reads : List UInt16) : Nat :=
  (List.range reads.length).countP fun i => AcceptsUp reads i

def acceptedDowns (startingVal delta minimum : Int) (reads : List UInt16) : Nat :=
  (List.range reads.length).countP fun i => AcceptsDown startingVal delta minimum reads i

/-! ## One read -/

variable {startingVal delta minimum : Int} {reads : List UInt16}

theorem isPressed_up_or_down (b : UInt16) : isPressed b (bdu ||| bdd) ↔ isHeld b := by
  have hdistrib : b &&& (bdu ||| bdd) = (b &&& bdu) ||| (b &&& bdd) :=
    UInt16.eq_of_toBitVec_eq BitVec.and_or_distrib_left
  unfold isHeld isPressed
  rw [hdistrib, ne_eq, UInt16.or_eq_zero_iff, not_and_or]

theorem held_append (reads : List UInt16) (b : UInt16) :
    held (reads ++ [b]) = if isHeld b then held reads + 1 else 0 := by
  unfold held
  rw [List.reverse_append, List.reverse_singleton, List.singleton_append, List.takeWhile_cons]
  by_cases hb : isHeld b
  · rw [if_pos (decide_eq_true hb), if_pos hb, List.length_cons]
  · rw [if_neg (by simp [hb]), if_neg hb, List.length_nil]

theorem turn_buttons (delta minimum : Int) (p : Prompt) (b : UInt16) :
    (turn delta minimum p b).buttons = b := by
  unfold turn
  split <;> rfl

/-- The counter keeps three bits of the length of the run. -/
theorem turn_consecutive {p : Prompt} {n : Nat} (h : p.consecutive.toNat = n % 8) (b : UInt16) :
    (turn delta minimum p b).consecutive.toNat = (if isHeld b then n + 1 else 0) % 8 := by
  unfold turn
  by_cases hb : isHeld b
  · rw [if_pos ((isPressed_up_or_down b).mpr hb), if_pos hb]
    show ((p.consecutive + 1) &&& 7).toNat = (n + 1) % 8
    rw [UInt8.toNat_and, UInt8.toNat_add, h]
    show ((n % 8 + 1) % 256) &&& (2 ^ 3 - 1) = (n + 1) % 8
    rw [Nat.and_two_pow_sub_one_eq_mod]
    omega
  · rw [if_neg (mt (isPressed_up_or_down b).mp hb), if_neg hb]
    rfl

/-- An adjustment is made when the counter is zero. -/
theorem turn_cashMoney {p : Prompt} {n : Nat} (h : p.consecutive.toNat = n % 8) (b : UInt16) :
    (turn delta minimum p b).cashMoney = p.cashMoney + delta *
      ((if isPressed b bdu ∧ n % 8 = 0 then 1 else 0) -
        if isPressed b bdd ∧ n % 8 = 0 ∧ minimum ≤ p.cashMoney - delta then 1 else 0) := by
  have hzero : p.consecutive = 0 ↔ n % 8 = 0 := by
    rw [← h, ← UInt8.toNat_inj]
    rfl
  unfold turn
  by_cases hb : isHeld b
  · rw [if_pos ((isPressed_up_or_down b).mpr hb)]
    simp only [hzero]
    by_cases hdue : n % 8 = 0
    · simp only [hdue, true_and, and_true]
      -- with both pressed the two adjustments cancel
      split_ifs <;> ring
    · simp [hdue]
  · rw [if_neg (mt (isPressed_up_or_down b).mp hb)]
    obtain ⟨hup, hdown⟩ := not_or.mp hb
    simp [hup, hdown]

/-! ## All reads -/

theorem after_append (startingVal delta minimum : Int) (reads : List UInt16) (b : UInt16) :
    after startingVal delta minimum (reads ++ [b]) =
      turn delta minimum (after startingVal delta minimum reads) b := by
  unfold after
  rw [List.foldl_append, List.foldl_cons, List.foldl_nil]

theorem after_consecutive (startingVal delta minimum : Int) (reads : List UInt16) :
    (after startingVal delta minimum reads).consecutive.toNat = held reads % 8 := by
  induction reads using List.reverseRecOn with
  | nil => rfl
  | append_singleton reads b ih => rw [after_append, turn_consecutive ih, held_append]

/-- What read `i` does to the value. -/
theorem cashBefore_succ {i : Nat} (hi : i < reads.length) :
    cashBefore startingVal delta minimum reads (i + 1) =
      cashBefore startingVal delta minimum reads i + delta *
        ((if AcceptsUp reads i then 1 else 0) -
          if AcceptsDown startingVal delta minimum reads i then 1 else 0) := by
  have hup : AcceptsUp reads i ↔ isPressed reads[i] bdu ∧ held (reads.take i) % 8 = 0 := by
    unfold AcceptsUp
    rw [List.getD_eq_getElem _ _ hi]
    rfl
  have hdown : AcceptsDown startingVal delta minimum reads i ↔
      isPressed reads[i] bdd ∧ held (reads.take i) % 8 = 0 ∧
        minimum ≤ (after startingVal delta minimum (reads.take i)).cashMoney - delta := by
    unfold AcceptsDown
    rw [List.getD_eq_getElem _ _ hi]
    rfl
  simp only [hup, hdown]
  conv_lhs => rw [cashBefore, List.take_succ_eq_append_getElem hi, after_append]
  exact turn_cashMoney (after_consecutive startingVal delta minimum (reads.take i)) reads[i]

/-- The value before read `i`, by the adjustments so far. -/
theorem cashBefore_eq {i : Nat} (hi : i ≤ reads.length) :
    cashBefore startingVal delta minimum reads i =
      startingVal + delta * (((List.range i).countP fun i => AcceptsUp reads i) -
        ((List.range i).countP fun i => AcceptsDown startingVal delta minimum reads i)) := by
  induction i with
  | zero => simp [cashBefore, after, start]
  | succ i ih =>
    rw [cashBefore_succ hi, ih (Nat.le_of_succ_le hi), List.range_succ, List.countP_append,
      List.countP_append, List.countP_singleton, List.countP_singleton]
    push_cast
    simp only [decide_eq_true_eq]
    ring

theorem minimum_le_cashBefore (hdelta : 0 < delta) (hstart : minimum ≤ startingVal) {i : Nat}
    (hi : i ≤ reads.length) : minimum ≤ cashBefore startingVal delta minimum reads i := by
  induction i with
  | zero => exact hstart
  | succ i ih =>
    have hle := ih (Nat.le_of_succ_le hi)
    rw [cashBefore_succ hi]
    by_cases hdown : AcceptsDown startingVal delta minimum reads i
    · have hkeeps := hdown.2.2
      rw [if_pos hdown]
      split
      · simpa using hle
      · simpa [Int.sub_eq_add_neg] using hkeeps
    · rw [if_neg hdown]
      split
      · rw [Int.sub_zero, mul_one]
        omega
      · simpa using hle

/-- The loop ends at the first read with A pressed. -/
theorem promptLoop_eq {p : Prompt} (hp : ¬isPressed p.buttons ba) {ts : List Transfer}
    {last : Transfer} (rest : List Transfer)
    (hread : ∀ t ∈ ts, readButtons t = 0 ∧ ¬isPressed (buttonsPressed t.buf) ba)
    (hlast : readButtons last = 0 ∧ isPressed (buttonsPressed last.buf) ba) :
    promptLoop delta minimum p (ts ++ last :: rest) =
      some (((ts ++ [last]).map fun t => buttonsPressed t.buf).foldl
        (turn delta minimum) p).cashMoney := by
  induction ts generalizing p with
  | nil =>
    have hnext : isPressed (turn delta minimum p (buttonsPressed last.buf)).buttons ba := by
      rw [turn_buttons]
      exact hlast.2
    rw [List.nil_append, promptLoop, if_neg hp, if_neg (by simp [hlast.1])]
    cases rest with
    | nil => rw [promptLoop, if_pos hnext]; rfl
    | cons t ts => rw [promptLoop, if_pos hnext]; rfl
  | cons t ts ih =>
    obtain ⟨ht, hts⟩ := List.forall_mem_cons.mp hread
    have hnext : ¬isPressed (turn delta minimum p (buttonsPressed t.buf)).buttons ba := by
      rw [turn_buttons]
      exact ht.2
    rw [List.cons_append, promptLoop, if_neg hp, if_neg (by simp [ht.1])]
    exact ih hnext hts

/-- For every sequence of successful reads up to the first with A pressed, with a positive `delta`
and a starting value that is not below the minimum: `wii_controller_prompt` returns the starting
value and `delta` for each accepted up, less `delta` for each accepted down, and the value is never
below the minimum. -/
theorem wiiControllerPrompt_adjusts {startingVal delta minimum : Int} {ts : List Transfer}
    {last : Transfer} (rest : List Transfer) (hdelta : 0 < delta) (hstart : minimum ≤ startingVal)
    (hread : ∀ t ∈ ts, readButtons t = 0 ∧ ¬isPressed (buttonsPressed t.buf) ba)
    (hlast : readButtons last = 0 ∧ isPressed (buttonsPressed last.buf) ba)
    {reads : List UInt16} (hreads : reads = (ts ++ [last]).map fun t => buttonsPressed t.buf) :
    ∃ v, wiiControllerPrompt startingVal delta minimum (ts ++ last :: rest) = some v ∧
      minimum ≤ v ∧
      v = startingVal +
        delta * (acceptedUps reads - acceptedDowns startingVal delta minimum reads) ∧
      ∀ i < reads.length,
        minimum ≤ cashBefore startingVal delta minimum reads i ∧
        cashBefore startingVal delta minimum reads (i + 1) =
          cashBefore startingVal delta minimum reads i + delta *
            ((if AcceptsUp reads i then 1 else 0) -
              if AcceptsDown startingVal delta minimum reads i then 1 else 0) := by
  have hreturn : wiiControllerPrompt startingVal delta minimum (ts ++ last :: rest) =
      some (cashBefore startingVal delta minimum reads reads.length) := by
    unfold cashBefore after
    rw [List.take_length, hreads]
    exact promptLoop_eq (show ¬isPressed 0 ba by decide) rest hread hlast
  refine ⟨_, hreturn, minimum_le_cashBefore hdelta hstart (le_refl _), cashBefore_eq (le_refl _),
    fun i hi => ?_⟩
  exact ⟨minimum_le_cashBefore hdelta hstart (Nat.le_of_lt hi), cashBefore_succ hi⟩

/-- Up is held for nine reads, which makes two steps; down is then pressed together with A. -/
theorem wiiControllerPrompt_adjusts_held :
    ∃ v, wiiControllerPrompt 10 10 0
        (List.replicate 9 ⟨6, fun i => if i = 5 then 0xfe else 0xff⟩ ++ [⟨6, fun _ => 0xff⟩] ++
          [⟨6, fun i => if i = 4 then 0xbf else 0xef⟩]) = some v ∧ 0 ≤ v ∧ v = 20 := by
  obtain ⟨v, hreturn, hmin, hsum, -⟩ := @wiiControllerPrompt_adjusts 10 10 0
    (List.replicate 9 ⟨6, fun i => if i = 5 then 0xfe else 0xff⟩ ++ [⟨6, fun _ => 0xff⟩])
    ⟨6, fun i => if i = 4 then 0xbf else 0xef⟩ [] (by decide) (by decide) (by decide +kernel)
    (by decide +kernel) _ rfl
  exact ⟨v, hreturn, hmin, hsum.trans (by decide +kernel)⟩

end Vmwos.BetPrompt
