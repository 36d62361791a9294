import Mathlib.Algebra.Order.Group.Unbundled.Int
import Vmwos.Bytes

/-!
# Division

`__aeabi_uidiv` counts the multiples of the divisor up to the dividend. The running multiple
`new_d` is a 32-bit number, and may wrap before it exceeds the dividend. `__aeabi_idivmod`
passes the bits of signed operands to it.

Results:

1. `aeabiUidiv_iff`: the loop terminates with the quotient exactly when the first multiple
   above the dividend fits in 32 bits;
2. `aeabiIdivmod_iff`: when the loop terminates, the remainder is that of C exactly for
   operands that are not negative, for a negative divisor above the dividend in size, and for
   a negative multiple of a divisor that is a power of two.
-/

namespace Vmwos.Division

open Bytes

/-! ## Definitions -/

/-- The loop of `__aeabi_uidiv`, for a number of turns. -/
def uidivLoop (dividend divisor : UInt32) : Nat → UInt32 → UInt32 → Option UInt32
  | 0, _, _ => none
  | turns + 1, q, newD =>
    if newD > dividend then some q else uidivLoop dividend divisor turns (q + 1) (newD + divisor)

/-- `__aeabi_uidiv`. Division by zero is reported with `Division by zero!` and gives 0. -/
def aeabiUidiv (turns : Nat) (dividend divisor : UInt32) : Option UInt32 :=
  if divisor = 0 then some 0 else uidivLoop dividend divisor turns 0 divisor

/-- `__aeabi_idivmod`. The product and the difference are unsigned. -/
def aeabiIdivmod (turns : Nat) (dividend divisor : Int32) : Option Int32 :=
  (aeabiUidiv turns dividend.toUInt32 divisor.toUInt32).map fun q =>
    (dividend.toUInt32 - q * divisor.toUInt32).toInt32

/-- The remainder of C: that of a quotient, smaller than the divisor, and zero or of the sign
of the dividend. -/
structure IsRemainder (a d r : Int) : Prop where
  quotient : ∃ q, a = q * d + r
  small : |r| < |d|
  sign : r = 0 ∨ r.sign = a.sign

/-- The operands for which the unsigned division gives the remainder of C. -/
def Divides (a d : Int) : Prop :=
  0 ≤ a ∧ 0 < d ∨ 0 ≤ a ∧ d < 0 ∧ a < -d ∨ a < 0 ∧ 0 < d ∧ d ∣ 2 ^ 32 ∧ d ∣ a

instance (a d : Int) : Decidable (Divides a d) := inferInstanceAs (Decidable (_ ∨ _))

/-! ## The loop -/

section Loop

variable {dividend divisor q q' : UInt32} {turns : Nat}

/-- The loop ends at the first multiple above the dividend, in 32-bit arithmetic. -/
theorem uidivLoop_exit (hle : q * divisor ≤ dividend)
    (h : uidivLoop dividend divisor turns q (q * divisor + divisor) = some q') :
    q' * divisor ≤ dividend ∧ q' * divisor + divisor > dividend := by
  induction turns generalizing q with
  | zero => cases h
  | succ turns ih =>
    unfold uidivLoop at h
    split at h
    next hgt =>
      cases h
      exact ⟨hle, hgt⟩
    next hgt =>
      have hnext : (q + 1) * divisor = q * divisor + divisor := by rw [UInt32.add_mul, UInt32.one_mul]
      refine ih (q := q + 1) ?_ ?_
      · rw [hnext]
        exact UInt32.not_lt.mp hgt
      · rw [hnext]
        exact h

theorem aeabiUidiv_exit (hd : divisor ≠ 0) (h : aeabiUidiv turns dividend divisor = some q) :
    q * divisor ≤ dividend ∧ q * divisor + divisor > dividend := by
  unfold aeabiUidiv at h
  rw [if_neg hd] at h
  refine uidivLoop_exit (q := 0) ?_ (by simpa using h)
  simp

/-- More turns do not change a result. -/
theorem uidivLoop_add {newD : UInt32} (k : Nat)
    (h : uidivLoop dividend divisor turns q newD = some q') :
    uidivLoop dividend divisor (turns + k) q newD = some q' := by
  induction turns generalizing q newD with
  | zero => cases h
  | succ turns ih =>
    rw [Nat.succ_add]
    unfold uidivLoop at h ⊢
    split at h
    next hgt => rw [if_pos hgt, h]
    next hgt =>
      rw [if_neg hgt]
      exact ih h

/-- The loop has one result, however many turns are counted. -/
theorem aeabiUidiv_unique {turns' : Nat} (h : aeabiUidiv turns dividend divisor = some q)
    (h' : aeabiUidiv turns' dividend divisor = some q') : q = q' := by
  unfold aeabiUidiv at h h'
  split at h
  next hd =>
    rw [if_pos hd] at h'
    exact Option.some_inj.mp (h.symm.trans h')
  next hd =>
    rw [if_neg hd] at h'
    have hlong := uidivLoop_add turns' h
    have hlong' := uidivLoop_add turns h'
    rw [Nat.add_comm] at hlong'
    exact Option.some_inj.mp (hlong.symm.trans hlong')

/-- As long as no multiple wraps, the loop counts up to the quotient. -/
theorem uidivLoop_counts {j : Nat} (hj : j ≤ dividend.toNat / divisor.toNat)
    (hfit : (dividend.toNat / divisor.toNat + 1) * divisor.toNat < 2 ^ 32) (hd : divisor ≠ 0) :
    uidivLoop dividend divisor (dividend.toNat / divisor.toNat - j + 1) (UInt32.ofNat j)
      (UInt32.ofNat ((j + 1) * divisor.toNat)) = some (dividend / divisor) := by
  have hpos : 0 < divisor.toNat := by
    have hne : divisor.toNat ≠ 0 := fun h0 => hd (UInt32.toNat_inj.mp h0)
    exact Nat.pos_of_ne_zero hne
  have hmul : (j + 1) * divisor.toNat ≤ (dividend.toNat / divisor.toNat + 1) * divisor.toNat :=
    Nat.mul_le_mul_right _ (Nat.succ_le_succ hj)
  have hval : (UInt32.ofNat ((j + 1) * divisor.toNat)).toNat = (j + 1) * divisor.toNat :=
    UInt32.toNat_ofNat_of_lt' (hmul.trans_lt hfit)
  obtain hlast | hlt := Nat.eq_or_lt_of_le hj
  · -- the next multiple is above the dividend
    have hgt : dividend.toNat < (j + 1) * divisor.toNat := by
      rw [hlast]
      exact Nat.lt_mul_of_div_lt (Nat.lt_succ_self _) hpos
    unfold uidivLoop
    rw [if_pos (UInt32.lt_iff_toNat_lt.mpr (by rwa [hval])), hlast, ← UInt32.toNat_div,
      UInt32.ofNat_toNat]
  · have hle : (j + 1) * divisor.toNat ≤ dividend.toNat :=
      (Nat.mul_le_mul_right _ hlt).trans (Nat.div_mul_le_self _ _)
    have hmore : dividend.toNat / divisor.toNat - j = dividend.toNat / divisor.toNat - (j + 1) + 1 := by
      omega
    have hq : UInt32.ofNat j + 1 = UInt32.ofNat (j + 1) := (UInt32.ofNat_add j 1).symm
    have hnew : UInt32.ofNat ((j + 1) * divisor.toNat) + divisor =
        UInt32.ofNat ((j + 1 + 1) * divisor.toNat) := by
      rw [Nat.succ_mul (j + 1), UInt32.ofNat_add, UInt32.ofNat_toNat]
    unfold uidivLoop
    rw [if_neg (UInt32.not_lt.mpr (UInt32.le_iff_toNat_le.mpr (by rwa [hval]))), hmore, hq, hnew]
    exact uidivLoop_counts hlt hfit hd
termination_by dividend.toNat / divisor.toNat - j

theorem aeabiUidiv_eq (hfit : (dividend.toNat / divisor.toNat + 1) * divisor.toNat < 2 ^ 32)
    (hd : divisor ≠ 0) :
    aeabiUidiv (dividend.toNat / divisor.toNat + 1) dividend divisor = some (dividend / divisor) := by
  have hcounts := uidivLoop_counts (Nat.zero_le _) hfit hd
  unfold aeabiUidiv
  rw [if_neg hd]
  simpa using hcounts

end Loop

/-! ## The quotient -/

/-- For every dividend and divisor other than 0, the loop of `__aeabi_uidiv` terminates with
the quotient exactly when the first multiple of the divisor above the dividend is a 32-bit
number. -/
theorem aeabiUidiv_iff (dividend divisor : UInt32) (hd : divisor ≠ 0) :
    (∃ turns, aeabiUidiv turns dividend divisor = some (dividend / divisor)) ↔
      (dividend.toNat / divisor.toNat + 1) * divisor.toNat < 2 ^ 32 := by
  refine ⟨?_, fun hfit => ⟨_, aeabiUidiv_eq hfit hd⟩⟩
  rintro ⟨turns, h⟩
  obtain ⟨-, hexit⟩ := aeabiUidiv_exit hd h
  have hsum := UInt32.lt_iff_toNat_lt.mp hexit
  have hle := Nat.div_mul_le_self dividend.toNat divisor.toNat
  have hdividend := dividend.toNat_lt
  have hdivisor := divisor.toNat_lt
  -- a sum that wraps is below the dividend
  rw [UInt32.toNat_add, UInt32.toNat_mul, UInt32.toNat_div] at hsum
  rw [Nat.succ_mul]
  generalize dividend.toNat / divisor.toNat * divisor.toNat = f at hsum hle ⊢
  omega

/-- 7 / 2 by repeated addition. -/
theorem aeabiUidiv_seven : ∃ turns, aeabiUidiv turns 7 2 = some 3 :=
  (aeabiUidiv_iff 7 2 (by decide)).mpr (by decide)

/-- No 32-bit multiple of 2 is above 2^32 - 1: the loop does not end. -/
theorem aeabiUidiv_hangs : ¬ ∃ turns q, aeabiUidiv turns 0xFFFFFFFF 2 = some q := by
  rintro ⟨turns, q, h⟩
  obtain ⟨-, hexit⟩ := aeabiUidiv_exit (by decide) h
  have hlt := (q * 2 + 2).toNat_lt
  have hgt := UInt32.lt_iff_toNat_lt.mp hexit
  rw [show (0xFFFFFFFF : UInt32).toNat = 2 ^ 32 - 1 from rfl] at hgt
  omega

/-! ## The remainder -/

section Remainder

theorem toNat_toUInt32 (x : Int32) :
    (x.toUInt32.toNat : Int) = if 0 ≤ x.toInt then x.toInt else x.toInt + 2 ^ 32 := by
  have hx := toInt_toInt32 x.toUInt32
  have hlt := x.toUInt32.toNat_lt
  rw [Int32.toInt32_toUInt32] at hx
  split at hx <;> split <;> omega

variable {turns : Nat} {a d q : UInt32}

/-- The multiple at which the loop stops is the last one before the dividend, and the next
does not wrap. -/
theorem aeabiUidiv_bounds (hd : d ≠ 0) (h : aeabiUidiv turns a d = some q) :
    (q * d).toNat ≤ a.toNat ∧ a.toNat < (q * d).toNat + d.toNat ∧
      (q * d).toNat + d.toNat < 2 ^ 32 := by
  obtain ⟨hle, hgt⟩ := aeabiUidiv_exit hd h
  have hle' := UInt32.le_iff_toNat_le.mp hle
  have hgt' := UInt32.lt_iff_toNat_lt.mp hgt
  have ha := a.toNat_lt
  have hdlt := d.toNat_lt
  rw [UInt32.toNat_add] at hgt'
  omega

/-- Away from the top of the 32-bit range, the loop stops in its first pass. -/
theorem aeabiUidiv_multiple (hd : d ≠ 0) (h : aeabiUidiv turns a d = some q)
    (hroom : (a.toNat / d.toNat + 1) * d.toNat < 2 ^ 32) :
    (q * d).toNat = a.toNat / d.toNat * d.toNat := by
  have hq : q = a / d := aeabiUidiv_unique h (aeabiUidiv_eq hroom hd)
  have hle : a.toNat / d.toNat * d.toNat < 2 ^ 32 :=
    (Nat.div_mul_le_self _ _).trans_lt a.toNat_lt
  rw [hq, UInt32.toNat_mul, UInt32.toNat_div, Nat.mod_eq_of_lt hle]

theorem isRemainder_of_nonneg {a d r : Int} (hr : 0 ≤ r) (hra : r ≤ a) (hlt : r < |d|)
    (hdvd : d ∣ a - r) : IsRemainder a d r := by
  obtain ⟨k, hk⟩ := hdvd
  refine ⟨⟨k, by rw [Int.mul_comm, ← hk, Int.sub_add_cancel]⟩, by rwa [abs_of_nonneg hr], ?_⟩
  obtain hzero | hpos := hr.eq_or_lt
  · exact .inl hzero.symm
  · exact .inr ((Int.sign_eq_one_of_pos hpos).trans (Int.sign_eq_one_of_pos (hpos.trans_le hra)).symm)

theorem IsRemainder.nonpos {a d r : Int} (h : IsRemainder a d r) (ha : a < 0) : r ≤ 0 := by
  obtain hzero | hsign := h.sign
  · exact hzero.le
  · rw [Int.sign_eq_neg_one_of_neg ha] at hsign
    exact (Int.sign_eq_neg_one_iff_neg.mp hsign).le

/-- The unsigned division of the bits stops at the multiple `f`, and `r` is what is left. -/
structure Stops (dividend divisor r : Int32) (f : Nat) : Prop where
  le : f ≤ dividend.toUInt32.toNat
  lt : dividend.toUInt32.toNat < f + divisor.toUInt32.toNat
  fits : f + divisor.toUInt32.toNat < 2 ^ 32
  multiple : ∃ q, f = q * divisor.toUInt32.toNat % 2 ^ 32
  first : (dividend.toUInt32.toNat / divisor.toUInt32.toNat + 1) * divisor.toUInt32.toNat < 2 ^ 32 →
    f = dividend.toUInt32.toNat / divisor.toUInt32.toNat * divisor.toUInt32.toNat
  value : r.toInt = if dividend.toUInt32.toNat - f < 2 ^ 31 then (dividend.toUInt32.toNat - f : Int)
    else dividend.toUInt32.toNat - f - 2 ^ 32

variable {dividend divisor r : Int32} {f : Nat}

theorem stops_of_returns (hd : divisor.toUInt32 ≠ 0)
    (h : aeabiUidiv turns dividend.toUInt32 divisor.toUInt32 = some q) :
    ∃ r f, aeabiIdivmod turns dividend divisor = some r ∧ Stops dividend divisor r f := by
  obtain ⟨hle, hlt, hfits⟩ := aeabiUidiv_bounds hd h
  refine ⟨_, _, by rw [aeabiIdivmod, h, Option.map_some], hle, hlt, hfits,
    ⟨q.toNat, UInt32.toNat_mul _ _⟩, aeabiUidiv_multiple hd h, ?_⟩
  rw [toInt_toInt32, UInt32.toNat_sub_of_le _ _ (UInt32.le_iff_toNat_le.mpr hle), Nat.cast_sub hle]

/-- The remainder of operands that are not negative is that of C. -/
theorem Stops.isRemainder_of_pos (h : Stops dividend divisor r f) (ha : 0 ≤ dividend.toInt)
    (hd : 0 < divisor.toInt) : IsRemainder dividend.toInt divisor.toInt r.toInt := by
  have hbits := toNat_toUInt32 dividend
  have hdbits := toNat_toUInt32 divisor
  rw [if_pos ha] at hbits
  rw [if_pos hd.le] at hdbits
  have hamax := dividend.toInt_lt
  have hdmax := divisor.toInt_lt
  have hf : f = dividend.toUInt32.toNat / divisor.toUInt32.toNat * divisor.toUInt32.toNat := by
    have hle := Nat.div_mul_le_self dividend.toUInt32.toNat divisor.toUInt32.toNat
    refine h.first ?_
    rw [Nat.succ_mul]
    omega
  have hr : r.toInt = dividend.toInt - f := by
    rw [h.value, if_pos (by omega), hbits]
  have hdvd : divisor.toInt ∣ dividend.toInt - r.toInt := by
    rw [hr, Int.sub_sub_self, hf, ← hdbits]
    exact Int.natCast_dvd_natCast.mpr (Nat.dvd_mul_left _ _)
  have hle := h.le
  have hlt := h.lt
  refine isRemainder_of_nonneg ?_ ?_ ?_ hdvd
  · omega
  · omega
  · rw [abs_of_pos hd]
    omega

/-- By a negative divisor the remainder is the dividend itself. -/
theorem Stops.isRemainder_iff_of_neg (h : Stops dividend divisor r f) (ha : 0 ≤ dividend.toInt)
    (hd : divisor.toInt < 0) :
    IsRemainder dividend.toInt divisor.toInt r.toInt ↔ dividend.toInt < -divisor.toInt := by
  have hbits := toNat_toUInt32 dividend
  have hdbits := toNat_toUInt32 divisor
  rw [if_pos ha] at hbits
  rw [if_neg (by omega)] at hdbits
  have hamax := dividend.toInt_lt
  have hdmin := divisor.le_toInt
  have hzero : dividend.toUInt32.toNat / divisor.toUInt32.toNat = 0 :=
    Nat.div_eq_of_lt (by omega)
  have hf : f = 0 := by
    have hfirst := h.first
    rw [hzero] at hfirst
    simpa using hfirst (by omega)
  have hr : r.toInt = dividend.toInt := by
    rw [h.value, hf, if_pos (by omega), hbits]
    exact Int.sub_zero _
  rw [hr]
  refine ⟨fun hrem => ?_, fun hlt => ?_⟩
  · have hsmall := hrem.small
    rwa [abs_of_nonneg ha, abs_of_neg hd] at hsmall
  · refine isRemainder_of_nonneg ha le_rfl ?_ ?_
    · rwa [abs_of_neg hd]
    · simp

/-- Of a negative dividend the bits leave no negative remainder. -/
theorem Stops.isRemainder_iff_of_negDividend (h : Stops dividend divisor r f)
    (ha : dividend.toInt < 0) (hd : 0 < divisor.toInt) :
    IsRemainder dividend.toInt divisor.toInt r.toInt ↔
      divisor.toInt ∣ 2 ^ 32 ∧ divisor.toInt ∣ dividend.toInt := by
  have hbits := toNat_toUInt32 dividend
  have hdbits := toNat_toUInt32 divisor
  rw [if_neg (by omega)] at hbits
  rw [if_pos hd.le] at hdbits
  have hdmax := divisor.toInt_lt
  have hle := h.le
  have hlt := h.lt
  have hfits := h.fits
  have hr : r.toInt = dividend.toUInt32.toNat - f := by
    rw [h.value, if_pos (by omega)]
  refine ⟨fun hrem => ?_, ?_⟩
  · have hnonpos := hrem.nonpos ha
    have hrzero : r.toInt = 0 := by omega
    have hf : f = dividend.toUInt32.toNat := by omega
    -- the loop stops below the top, so in its first pass
    have hdiv := Nat.div_mul_le_self dividend.toUInt32.toNat divisor.toUInt32.toNat
    have hfirst := h.first (by rw [Nat.succ_mul]; omega)
    have hdvdbits : divisor.toInt ∣ dividend.toInt + 2 ^ 32 := by
      rw [← hbits, ← hf, hfirst, ← hdbits]
      exact Int.natCast_dvd_natCast.mpr (Nat.dvd_mul_left _ _)
    have hdvd : divisor.toInt ∣ dividend.toInt := by
      obtain ⟨k, hk⟩ := hrem.quotient
      rw [hrzero, Int.add_zero] at hk
      exact ⟨k, hk.trans (Int.mul_comm _ _)⟩
    exact ⟨(Int.dvd_add_right hdvd).mp hdvdbits, hdvd⟩
  · rintro ⟨hpow, hdvd⟩
    have hpowbits : divisor.toUInt32.toNat ∣ 2 ^ 32 := by
      rw [← Int.natCast_dvd_natCast, hdbits]
      exact_mod_cast hpow
    have hdvdbits : divisor.toUInt32.toNat ∣ dividend.toUInt32.toNat := by
      rw [← Int.natCast_dvd_natCast, hbits, hdbits]
      exact Int.dvd_add hdvd hpow
    have hdvdf : divisor.toUInt32.toNat ∣ f := by
      obtain ⟨k, hk⟩ := h.multiple
      rw [hk, Nat.dvd_mod_iff hpowbits]
      exact Nat.dvd_mul_left _ _
    have hzero : dividend.toUInt32.toNat - f = 0 :=
      Nat.eq_zero_of_dvd_of_lt (Nat.dvd_sub hdvdbits hdvdf) (by omega)
    have hrzero : r.toInt = 0 := by omega
    obtain ⟨k, hk⟩ := hdvd
    rw [hrzero]
    refine ⟨⟨k, ?_⟩, ?_, .inl rfl⟩
    · rw [hk, Int.add_zero, Int.mul_comm]
    · rw [abs_zero]
      exact abs_pos.mpr hd.ne'

/-- Of two negative operands the bits leave more than the divisor. -/
theorem Stops.not_isRemainder_of_neg (h : Stops dividend divisor r f)
    (ha : dividend.toInt < 0) (hd : divisor.toInt < 0) :
    ¬ IsRemainder dividend.toInt divisor.toInt r.toInt := by
  have hbits := toNat_toUInt32 dividend
  have hdbits := toNat_toUInt32 divisor
  rw [if_neg (by omega)] at hbits
  rw [if_neg (by omega)] at hdbits
  have hamin := dividend.le_toInt
  have hdmin := divisor.le_toInt
  have hle := h.le
  have hlt := h.lt
  have hfits := h.fits
  have hvalue := h.value
  intro hrem
  have hnonpos := hrem.nonpos ha
  have hsmall := hrem.small
  rw [abs_of_neg hd, abs_of_nonpos hnonpos] at hsmall
  split at hvalue <;> omega

/-- For every dividend and divisor other than 0 for which the loop of `__aeabi_uidiv`
terminates on their bits, `__aeabi_idivmod` returns the remainder of C exactly when the
unsigned division of the bits gives it. -/
theorem aeabiIdivmod_iff (dividend divisor : Int32) (turns : Nat) (q : UInt32)
    (hd : divisor ≠ 0) (h : aeabiUidiv turns dividend.toUInt32 divisor.toUInt32 = some q) :
    (∃ r, aeabiIdivmod turns dividend divisor = some r ∧
      IsRemainder dividend.toInt divisor.toInt r.toInt) ↔
      Divides dividend.toInt divisor.toInt := by
  have hd0 : divisor.toInt ≠ 0 := fun h0 => hd (Int32.toInt.inj h0)
  have hdu : divisor.toUInt32 ≠ 0 := by
    intro h0
    refine hd ?_
    rw [← Int32.toInt32_toUInt32 divisor, h0]
    rfl
  obtain ⟨r, f, hr, hstops⟩ := stops_of_returns hdu h
  have hone : (∃ r, aeabiIdivmod turns dividend divisor = some r ∧
      IsRemainder dividend.toInt divisor.toInt r.toInt) ↔
      IsRemainder dividend.toInt divisor.toInt r.toInt := by
    rw [hr]
    refine ⟨?_, fun hrem => ⟨r, rfl, hrem⟩⟩
    rintro ⟨r', hr', hrem⟩
    cases hr'
    exact hrem
  rw [hone]
  unfold Divides
  obtain ha | ha := le_or_gt 0 dividend.toInt <;> obtain hneg | hpos := lt_or_gt_of_ne hd0
  · rw [hstops.isRemainder_iff_of_neg ha hneg]
    omega
  · have hrem := hstops.isRemainder_of_pos ha hpos
    exact ⟨fun _ => .inl ⟨ha, hpos⟩, fun _ => hrem⟩
  · have hnot := hstops.not_isRemainder_of_neg ha hneg
    refine ⟨fun hrem => absurd hrem hnot, fun hcond => ?_⟩
    omega
  · rw [hstops.isRemainder_iff_of_negDividend ha hpos]
    refine ⟨fun hdvd => .inr (.inr ⟨ha, hpos, hdvd⟩), ?_⟩
    rintro (hcond | hcond | ⟨-, -, hdvd⟩)
    · omega
    · omega
    · exact hdvd

/-- The remainder of 7 by 2, as in the shuffle of the game. -/
theorem aeabiIdivmod_seven : ∃ r, aeabiIdivmod 4 7 2 = some r ∧ IsRemainder 7 2 r.toInt :=
  (aeabiIdivmod_iff 7 2 4 3 (by decide) (by decide)).mpr (by decide)

/-- The remainder of 7 by -2 is 1 in C. The bits of -2 are above 7, which is returned. -/
theorem aeabiIdivmod_negative : aeabiUidiv 1 (7 : Int32).toUInt32 (-2 : Int32).toUInt32 = some 0 ∧
    aeabiIdivmod 1 7 (-2) = some 7 ∧
      ¬ IsRemainder (7 : Int32).toInt (-2 : Int32).toInt (7 : Int32).toInt := by
  refine ⟨by decide, by decide, fun hrem => ?_⟩
  have hsmall := hrem.small
  revert hsmall
  decide

end Remainder

end Vmwos.Division
