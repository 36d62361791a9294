import Vmwos.Logo
import Vmwos.Printf

/-!
# The routines of the logo program

`write_stdout` looks for the end of a string from its second character on, `strcat` copies a string
with its 0, and `num_to_ascii` writes the digits of a number from the last one to the first one,
each with a division by 10 that is a multiplication by 2^32 / 10.

Result: `num_to_ascii_decimal`. For every number, `num_to_ascii` puts its decimal digits behind the
line so far, or prints them. On the way it writes at most 10 bytes from the second one of
`ascii_buffer` on. The last of these lies behind the buffer, and the byte after it has to be 0.
-/

namespace Vmwos.Logo

open Arm Printf

/-! ## Definitions -/

/-- `x` is one of the `n` addresses from `a` on. -/
def In (a : UInt32) (n : Nat) (x : UInt32) : Prop := (x - a).toNat < n

instance (a : UInt32) (n : Nat) (x : UInt32) : Decidable (In a n x) :=
  inferInstanceAs (Decidable (_ < _))

/-- A string at `a`, with the 0 behind it. -/
def StringAt (m : Memory) (a : UInt32) (chars : List UInt8) : Prop :=
  (∀ i (h : i < chars.length), m (a + UInt32.ofNat i) = chars[i] ∧ chars[i] ≠ 0) ∧
    m (a + UInt32.ofNat chars.length) = 0

/-- What `write_stdout` prints of a string with a 0 in it: the first character whatever it is, and
the others up to a 0. -/
def printed : List UInt8 → List UInt8
  | [] => [0]
  | c :: chars => c :: chars.takeWhile (· ≠ 0)

/-! ## Addresses -/

variable {s : Core} {a x : UInt32} {lr : Label} {n : Nat}

theorem offset_toNat (a : UInt32) {i : Nat} (h : i < 2 ^ 32) : (a + UInt32.ofNat i - a).toNat = i := by
  rw [UInt32.add_comm, UInt32.add_sub_cancel, UInt32.toNat_ofNat_of_lt' h]

theorem in_offset (a : UInt32) {i n : Nat} (h : i < 2 ^ 32) : In a n (a + UInt32.ofNat i) ↔ i < n := by
  rw [In, offset_toNat a h]

theorem offset_inj {i j : Nat} (hi : i < 2 ^ 32) (hj : j < 2 ^ 32)
    (h : a + UInt32.ofNat i = a + UInt32.ofNat j) : i = j := by
  rw [← offset_toNat a hi, h, offset_toNat a hj]

theorem In.mono {n m : Nat} (h : In a n x) (hle : n ≤ m) : In a m x := Nat.lt_of_lt_of_le h hle

theorem in_offsets (a : UInt32) {i j n : Nat} (hij : i ≤ j) (hj : j < 2 ^ 32) :
    In (a + UInt32.ofNat i) n (a + UInt32.ofNat j) ↔ j < i + n := by
  obtain ⟨k, rfl⟩ := Nat.exists_eq_add_of_le hij
  rw [UInt32.ofNat_add, ← UInt32.add_assoc, in_offset _ (by omega)]
  omega

/-- Two pieces of memory, one behind the other. -/
theorem in_apart {b : UInt32} {m : Nat} (h : a.toNat + n ≤ b.toNat ∧ b.toNat + m ≤ 2 ^ 32) :
    ∀ x, In a n x → ¬In b m x := by
  intro x hin
  have hx := x.toNat_lt
  unfold In at hin ⊢
  rw [UInt32.toNat_sub] at hin ⊢
  omega

theorem offset_succ (a : UInt32) (i : Nat) : a + UInt32.ofNat (i + 1) = a + UInt32.ofNat i + 1 := by
  rw [UInt32.ofNat_add, ← UInt32.add_assoc]
  rfl

/-! ## `write_stdout` -/

theorem toUInt32_ne_zero (b : UInt8) : b.toUInt32 ≠ 0 ↔ b ≠ 0 := by
  rw [ne_eq, ne_eq, ← UInt32.toNat_inj, ← UInt8.toNat_inj]
  rfl

/-- One turn of the search for the 0. -/
def searched (s : Core) : Core := ((s.add .r2 .r2 1).ldrbReg .r3 .r1 .r2).cmp .r3 0

theorem reg_searched_r2 (s : Core) : (searched s).reg .r2 = s.reg .r2 + 1 := by
  simp [searched, Core.add, Core.ldrbReg, Core.cmp]

theorem reg_searched {r : Register} (s : Core) (h2 : r ≠ .r2) (h3 : r ≠ .r3) :
    (searched s).reg r = s.reg r := by
  simp [searched, Core.add, Core.ldrbReg, Core.cmp, h2, h3]

theorem holds_searched (s : Core) :
    (searched s).holds .ne ↔ s.mem (s.reg .r1 + (s.reg .r2 + 1)) ≠ 0 := by
  rw [searched, Core.holds_cmp_ne, ← toUInt32_ne_zero]
  simp [Core.add, Core.ldrbReg]

/-- The search ends at the 0. -/
theorem strLoop1_run (lr : Label) {k : Nat} (hk : k ≤ n)
    (hr2 : s.reg .r2 = UInt32.ofNat (n - k))
    (hchars : ∀ i, n - k < i → i < n + 1 → s.mem (s.reg .r1 + UInt32.ofNat i) ≠ 0)
    (hend : s.mem (s.reg .r1 + UInt32.ofNat (n + 1)) = 0) :
    ∃ s', code.Reaches (.strLoop1 lr, s) (.writeStdoutWeKnowSize lr, s') ∧
      s'.reg .r2 = UInt32.ofNat (n + 1) ∧ (∀ r, r ≠ .r2 → r ≠ .r3 → s'.reg r = s.reg r) ∧
      s'.mem = s.mem ∧ s'.stack = s.stack ∧ s'.written = s.written := by
  have hnext : s.reg .r2 + 1 = UInt32.ofNat (n - k + 1) := by
    rw [hr2, UInt32.ofNat_add]
    rfl
  induction k generalizing s with
  | zero =>
    have hzero : ¬(searched s).holds .ne := by
      rw [holds_searched, hnext]
      exact not_not.mpr hend
    exact ⟨searched s, .step (if_neg hzero) .refl, (reg_searched_r2 s).trans hnext,
      fun r h2 h3 => reg_searched s h2 h3, rfl, rfl, rfl⟩
  | succ k ih =>
    have hmore : (searched s).holds .ne := by
      rw [holds_searched, hnext]
      exact hchars _ (by omega) (by omega)
    have hr1 : (searched s).reg .r1 = s.reg .r1 := reg_searched s (by decide) (by decide)
    have hr2' : (searched s).reg .r2 = UInt32.ofNat (n - k) := by
      rw [reg_searched_r2, hnext]
      congr 1
      omega
    obtain ⟨s', hreaches, hsize, hregs, hmem, hstack, htrace⟩ := ih (s := searched s) (by omega) hr2'
      (fun i hi hin => hr1 ▸ hchars i (by omega) hin) (hr1 ▸ hend) (by
        rw [hr2', UInt32.ofNat_add]
        rfl)
    exact ⟨s', .step (if_pos hmore) hreaches, hsize,
      fun r h2 h3 => (hregs r h2 h3).trans (reg_searched s h2 h3), hmem, hstack, htrace⟩

/-- `write_stdout` writes the characters up to the first 0 behind the first one. -/
theorem writeStdout_run (lr : Label)
    (hchars : ∀ i, 0 < i → i < n + 1 → s.mem (s.reg .r1 + UInt32.ofNat i) ≠ 0)
    (hend : s.mem (s.reg .r1 + UInt32.ofNat (n + 1)) = 0) (hn : n + 1 < 2 ^ 32) :
    ∃ s', code.Reaches (.writeStdout lr, s) (lr, s') ∧
      s'.written = s.written ++ [(1, s.bytes (s.reg .r1) (n + 1))] ∧ s'.mem = s.mem ∧
      s'.stack = s.stack ∧ ∀ r ∉ [.r0, .r2, .r3, .r7], s'.reg r = s.reg r := by
  obtain ⟨s', hreaches, hsize, hregs, hmem, hstack, htrace⟩ := strLoop1_run (s := s.mov .r2 0) lr
    (le_refl n) (by simp [Core.mov]) (fun i hi hin => by
      simpa [Core.mov] using hchars i (by omega) hin) (by simpa [Core.mov] using hend)
  have hr1 : s'.reg .r1 = s.reg .r1 := by
    rw [hregs .r1 (by decide) (by decide)]
    simp [Core.mov]
  refine ⟨((s'.mov .r0 1).mov .r7 4).write, .step rfl (hreaches.trans (.step rfl .refl)), ?_, hmem,
    hstack, fun r hr => ?_⟩
  · have hbytes : ((s'.mov .r0 1).mov .r7 4).bytes (s.reg .r1) (n + 1) =
        s.bytes (s.reg .r1) (n + 1) := by
      unfold Core.bytes
      simp [Core.mov, hmem]
    have hcount : (s'.reg .r2).toNat = n + 1 := hsize ▸ UInt32.toNat_ofNat_of_lt' hn
    have htrace' : s'.written = s.written := htrace
    rw [← hbytes, ← hcount, ← htrace']
    simp [Core.write, Core.mov, hr1]
  · simp only [List.mem_cons, List.not_mem_nil, or_false, not_or] at hr
    have hkeep := hregs r hr.2.1 hr.2.2.1
    simp only [Core.write, Core.reg_set, Core.mov, if_neg hr.1, if_neg hr.2.2.2] at hkeep ⊢
    rw [hkeep, if_neg hr.2.1]

/-! ## `strcat` -/

variable {chars : List UInt8} {c : UInt8}

theorem StringAt.head {m : Memory} (h : StringAt m a (c :: chars)) : m a = c ∧ c ≠ 0 := by
  have hfirst := h.1 0 (Nat.succ_pos _)
  rwa [show UInt32.ofNat 0 = 0 from rfl, UInt32.add_zero] at hfirst

theorem offset_one (a : UInt32) (i : Nat) : a + 1 + UInt32.ofNat i = a + UInt32.ofNat (i + 1) := by
  rw [offset_succ, UInt32.add_assoc, UInt32.add_comm 1, UInt32.add_assoc]

theorem StringAt.tail {m : Memory} (h : StringAt m a (c :: chars)) : StringAt m (a + 1) chars := by
  refine ⟨fun i hi => ?_, ?_⟩
  · rw [offset_one]
    exact h.1 (i + 1) (Nat.succ_lt_succ hi)
  · rw [offset_one]
    exact h.2

/-- A string that is not written to. -/
theorem StringAt.congr {m m' : Memory} (h : StringAt m a chars)
    (heq : ∀ i ≤ chars.length, m' (a + UInt32.ofNat i) = m (a + UInt32.ofNat i)) :
    StringAt m' a chars :=
  ⟨fun i hi => ⟨(heq i hi.le).trans (h.1 i hi).1, (h.1 i hi).2⟩, (heq _ le_rfl).trans h.2⟩

/-- One character of `strcat`. -/
def concatenated (s : Core) : Core := ((s.ldrbPost .r3 .r1 1).strbPost .r3 .r10 1).cmp .r3 0

theorem concatenated_eq (s : Core) :
    (concatenated s).reg .r1 = s.reg .r1 + 1 ∧ (concatenated s).reg .r10 = s.reg .r10 + 1 ∧
      (concatenated s).mem = Function.update s.mem (s.reg .r10) (s.mem (s.reg .r1)) := by
  refine ⟨?_, ?_, ?_⟩ <;> simp [concatenated, Core.ldrbPost, Core.strbPost, Core.cmp]

theorem reg_concatenated {r : Register} (s : Core) (h1 : r ≠ .r1) (h3 : r ≠ .r3) (h10 : r ≠ .r10) :
    (concatenated s).reg r = s.reg r := by
  simp [concatenated, Core.ldrbPost, Core.strbPost, Core.cmp, h1, h3, h10]

theorem holds_concatenated (s : Core) : (concatenated s).holds .ne ↔ s.mem (s.reg .r1) ≠ 0 := by
  rw [concatenated, Core.holds_cmp_ne, ← toUInt32_ne_zero]
  simp [Core.ldrbPost, Core.strbPost]

/-- `strcat` copies the string and its 0 to `r10`, and leaves `r10` at the 0. -/
theorem strcat_run (lr : Label) (h : StringAt s.mem (s.reg .r1) chars)
    (hlen : chars.length + 1 < 2 ^ 32)
    (hapart : ∀ i ≤ chars.length, ∀ j ≤ chars.length,
      s.reg .r1 + UInt32.ofNat i ≠ s.reg .r10 + UInt32.ofNat j) :
    ∃ s', code.Reaches (.strcat lr, s) (lr, s') ∧ StringAt s'.mem (s.reg .r10) chars ∧
      s'.reg .r10 = s.reg .r10 + UInt32.ofNat chars.length ∧
      (∀ x, ¬In (s.reg .r10) (chars.length + 1) x → s'.mem x = s.mem x) ∧
      (∀ r ∉ [.r1, .r3, .r10], s'.reg r = s.reg r) ∧ s'.stack = s.stack ∧ s'.written = s.written := by
  obtain ⟨hr1, hr10, hmem⟩ := concatenated_eq s
  induction chars generalizing s with
  | nil =>
    have hend : s.mem (s.reg .r1) = 0 := by
      have hend := h.2
      rwa [List.length_nil, show UInt32.ofNat 0 = 0 from rfl, UInt32.add_zero] at hend
    have hzero : ¬(concatenated s).holds .ne := fun hne => (holds_concatenated s).mp hne hend
    refine ⟨(concatenated s).sub .r10 .r10 1, .step (if_neg hzero) .refl, ⟨fun i hi => absurd hi
      (Nat.not_lt_zero i), ?_⟩, ?_, fun x hx => ?_, fun r hr => ?_, rfl, rfl⟩
    · show (concatenated s).mem _ = 0
      rw [hmem, hend, List.length_nil, show UInt32.ofNat 0 = 0 from rfl, UInt32.add_zero,
        Function.update_self]
    · simp [Core.sub, hr10]
    · show (concatenated s).mem x = s.mem x
      rw [hmem, Function.update_of_ne]
      rintro rfl
      exact hx (by simp [In])
    · simp only [List.mem_cons, List.not_mem_nil, or_false, not_or] at hr
      rw [Core.sub, Core.reg_set, if_neg hr.2.2]
      exact reg_concatenated s hr.1 hr.2.1 hr.2.2
  | cons c chars ih =>
    rw [List.length_cons] at hlen hapart ⊢
    have hmore : (concatenated s).holds .ne := (holds_concatenated s).mpr (h.head.1 ▸ h.head.2)
    have htail : StringAt (concatenated s).mem ((concatenated s).reg .r1) chars := by
      rw [hr1, hmem]
      refine h.tail.congr fun i hi => Function.update_of_ne ?_ _ _
      have hne := hapart (i + 1) (by omega) 0 (by omega)
      rwa [show UInt32.ofNat 0 = 0 from rfl, UInt32.add_zero, ← offset_one] at hne
    obtain ⟨hr1', hr10', hmem'⟩ := concatenated_eq (concatenated s)
    obtain ⟨s', hreaches, hstring, hr10'', hframe, hregs, hstack, htrace⟩ :=
      ih htail (by omega) (fun i hi j hj => by
        rw [hr1, hr10, offset_one, offset_one]
        exact hapart (i + 1) (by omega) (j + 1) (by omega)) hr1' hr10' hmem'
    rw [hr10] at hstring hr10'' hframe
    refine ⟨s', .step (if_pos hmore) hreaches, ⟨fun i hi => ?_, ?_⟩, ?_, fun x hx => ?_, fun r hr => ?_,
      hstack, htrace⟩
    · cases i with
      | zero =>
        refine ⟨?_, h.head.2⟩
        rw [show UInt32.ofNat 0 = 0 from rfl, UInt32.add_zero, hframe, hmem, Function.update_self,
          h.head.1]
        · rfl
        · rw [In, UInt32.toNat_sub, UInt32.toNat_add, UInt32.toNat_one]
          have := (s.reg .r10).toNat_lt
          omega
      | succ i =>
        rw [← offset_one]
        exact hstring.1 i (Nat.lt_of_succ_lt_succ hi)
    · rw [List.length_cons, ← offset_one]
      exact hstring.2
    · rw [hr10'', offset_one]
    · rw [hframe x fun hin => hx ?_, hmem, Function.update_of_ne]
      · rintro rfl
        exact hx (by simp [In])
      · unfold In at hin ⊢
        rw [UInt32.toNat_sub, UInt32.toNat_add, UInt32.toNat_one] at hin
        rw [UInt32.toNat_sub]
        have := (s.reg .r10).toNat_lt
        have := x.toNat_lt
        omega
    · have hkeep := hregs r hr
      simp only [List.mem_cons, List.not_mem_nil, or_false, not_or] at hr
      exact hkeep.trans (reg_concatenated s hr.1 hr.2.1 hr.2.2)

/-! ## Division by 10 -/

/-- The high word of the product, for every number of 32 bits. The subtraction takes away what the
multiplier is too large by. -/
theorem quotient_eq (w : UInt32) :
    UInt32.ofNat ((429496730 : UInt32).toNat * (w - w >>> 30).toNat / 2 ^ 32) =
      UInt32.ofNat (w.toNat / 10) := by
  have hw := w.toNat_lt
  have hshift : (w >>> 30).toNat = w.toNat / 2 ^ 30 := by
    rw [UInt32.toNat_shiftRight]
    simp [Nat.shiftRight_eq_div_pow]
  have hsub : (w - w >>> 30).toNat = w.toNat - w.toNat / 2 ^ 30 := by
    rw [UInt32.toNat_sub_of_le _ _ (UInt32.le_iff_toNat_le.mpr (by rw [hshift]; omega)), hshift]
  rw [hsub]
  simp only [UInt32.reduceToNat]
  congr 1
  omega

/-! ## `num_to_ascii` -/

/-- One digit. -/
def divided (s : Core) : Core :=
  (((((((((s.mov .r4 429496730).subLsr .r5 .r3 .r3 30).umull .r8 .r7 .r4 .r5).mov .r4 10).mul
    .r8 .r7 .r4).subReg .r8 .r3 .r8).add .r8 .r8 0x30).strbPost .r8 .r10 (-1)).addsZero .r3 .r7)

theorem reg_divided {r : Register} (s : Core) (h : r ∉ [.r3, .r4, .r5, .r7, .r8, .r10]) :
    (divided s).reg r = s.reg r := by
  simp only [List.mem_cons, List.not_mem_nil, or_false, not_or] at h
  simp [divided, Core.mov, Core.subLsr, Core.umull, Core.mul, Core.subReg, Core.add, Core.strbPost,
    Core.addsZero, h]

/-- The quotient goes on, and the remainder is stored as a digit. -/
theorem divided_eq (s : Core) :
    (divided s).reg .r3 = UInt32.ofNat ((s.reg .r3).toNat / 10) ∧
      (divided s).reg .r10 = s.reg .r10 - 1 ∧
      (divided s).mem = Function.update s.mem (s.reg .r10)
        (s.reg .r3 - UInt32.ofNat ((s.reg .r3).toNat / 10) * 10 + 0x30).toUInt8 := by
  refine ⟨?_, ?_, ?_⟩ <;>
    simp [divided, Core.mov, Core.subLsr, Core.umull, Core.mul, Core.subReg, Core.add, Core.strbPost,
      Core.addsZero, UInt32.sub_eq_add_neg, ← quotient_eq]

theorem holds_divided (s : Core) : (divided s).holds .ne ↔ (s.reg .r3).toNat / 10 ≠ 0 := by
  have hlt := (s.reg .r3).toNat_lt
  have hzero : (divided s).holds .ne = !(UInt32.ofNat ((s.reg .r3).toNat / 10) == 0) := by
    rw [← (divided_eq s).1]
    simp [divided, Core.addsZero]
    rfl
  rw [hzero, Bool.not_eq_true', beq_eq_false_iff_ne, ne_eq, ne_eq, ← UInt32.toNat_inj,
    UInt32.toNat_ofNat_of_lt' (show (s.reg .r3).toNat / 10 < 2 ^ 32 by omega), UInt32.toNat_zero]

theorem digit_eq (w : UInt32) :
    (w - UInt32.ofNat (w.toNat / 10) * 10 + 0x30).toUInt8 = (w.toNat % 10).digitChar.toUInt8 := by
  have hw := w.toNat_lt
  have htable : ∀ d < 10, UInt8.ofNat (d + 48) = d.digitChar.toUInt8 := by decide
  have hmul : (UInt32.ofNat (w.toNat / 10) * 10).toNat = w.toNat / 10 * 10 := by
    rw [UInt32.toNat_mul, UInt32.toNat_ofNat_of_lt' (show w.toNat / 10 < 2 ^ 32 by omega)]
    exact Nat.mod_eq_of_lt (by simp; omega)
  have hvalue : (w - UInt32.ofNat (w.toNat / 10) * 10 + 0x30).toNat = w.toNat % 10 + 48 := by
    rw [UInt32.toNat_add, UInt32.toNat_sub_of_le _ _ (UInt32.le_iff_toNat_le.mpr (by omega)), hmul,
      show (0x30 : UInt32).toNat = 48 from rfl]
    omega
  rw [← htable _ (Nat.mod_lt _ (by decide)), ← hvalue, ← UInt8.toNat_inj, UInt32.toNat_toUInt8,
    UInt8.toNat_ofNat']

theorem digitText_of_lt {w : Nat} (h : w / 10 = 0) :
    digitText 10 w = [(w % 10).digitChar.toUInt8] := by
  rw [digitText, Nat.toDigits_of_lt_base (by omega), Nat.mod_eq_of_lt (by omega), List.map_singleton]

theorem digitText_of_le {w : Nat} (h : w / 10 ≠ 0) :
    digitText 10 w = digitText 10 (w / 10) ++ [(w % 10).digitChar.toUInt8] := by
  rw [digitText, Nat.toDigits_of_base_le (by decide) (by omega), List.map_append, List.map_singleton]
  rfl

/-- Digits in memory, the last one of them at `a + k`. -/
def DigitsAt (m : Memory) (a : UInt32) (k : Nat) (digits : List UInt8) : Prop :=
  ∀ i (h : i < digits.length), m (a + UInt32.ofNat (k + 1 - digits.length + i)) = digits[i]

/-- The digits are written from `a + k` down, in at most `room + 1` bytes. -/
structure Wrote (s s' : Core) (a : UInt32) (room k : Nat) (digits : List UInt8) : Prop where
  text : DigitsAt s'.mem a k digits
  r10 : s'.reg .r10 = a + UInt32.ofNat (k - digits.length)
  frame : ∀ x, ¬In (a + UInt32.ofNat (k - room)) (room + 1) x → s'.mem x = s.mem x
  regs : ∀ r ∉ [.r3, .r4, .r5, .r7, .r8, .r10], s'.reg r = s.reg r
  stack : s'.stack = s.stack
  written : s'.written = s.written

variable {room k : Nat}

theorem pred_offset (hk : 0 < k) (hr10 : s.reg .r10 = a + UInt32.ofNat k) :
    (divided s).reg .r10 = a + UInt32.ofNat (k - 1) := by
  obtain ⟨j, rfl⟩ := Nat.exists_eq_succ_of_ne_zero hk.ne'
  rw [(divided_eq s).2.1, hr10, Nat.succ_eq_add_one, offset_succ, UInt32.add_sub_cancel,
    Nat.add_sub_cancel]

theorem mem_divided (hr10 : s.reg .r10 = a + UInt32.ofNat k) :
    (divided s).mem = Function.update s.mem (a + UInt32.ofNat k)
      ((s.reg .r3).toNat % 10).digitChar.toUInt8 := by
  rw [(divided_eq s).2.2, digit_eq, hr10]

theorem mem_divided_outside (hk : k < 2 ^ 32) (hr10 : s.reg .r10 = a + UInt32.ofNat k)
    (hx : ¬In (a + UInt32.ofNat (k - room)) (room + 1) x) : (divided s).mem x = s.mem x := by
  rw [mem_divided hr10, Function.update_of_ne]
  rintro rfl
  exact hx ((in_offsets a (Nat.sub_le k room) hk).mpr (by omega))

/-- The last turn. -/
theorem wrote_last (hroom : room < k) (hk : k < 2 ^ 32) (hr10 : s.reg .r10 = a + UInt32.ofNat k)
    (hzero : (s.reg .r3).toNat / 10 = 0) :
    Wrote s (divided s) a room k (digitText 10 (s.reg .r3).toNat) := by
  rw [digitText_of_lt hzero]
  refine ⟨fun i hi => ?_, pred_offset (by omega) hr10,
    fun x hx => mem_divided_outside hk hr10 hx, fun r hr => reg_divided s hr, rfl, rfl⟩
  obtain rfl : i = 0 := by simpa using hi
  rw [mem_divided hr10]
  simp

/-- A turn, and what the turns after it write. -/
theorem Wrote.step {s' : Core} (hroom : room + 1 < k) (hk : k < 2 ^ 32)
    (hr10 : s.reg .r10 = a + UInt32.ofNat k) (hmore : (s.reg .r3).toNat / 10 ≠ 0)
    (hlen : (digitText 10 ((s.reg .r3).toNat / 10)).length ≤ room + 1)
    (h : Wrote (divided s) s' a room (k - 1) (digitText 10 ((s.reg .r3).toNat / 10))) :
    Wrote s s' a (room + 1) k (digitText 10 (s.reg .r3).toNat) := by
  rw [digitText_of_le hmore]
  generalize digitText 10 ((s.reg .r3).toNat / 10) = digits at *
  refine ⟨fun i hi => ?_, ?_, fun x hx => ?_, fun r hr => (h.regs r hr).trans (reg_divided s hr),
    h.stack, h.written⟩
  · rw [List.length_append, List.length_singleton] at hi
    have hplace : k + 1 - (digits ++ [((s.reg .r3).toNat % 10).digitChar.toUInt8]).length + i =
        k - 1 + 1 - digits.length + i := by
      rw [List.length_append, List.length_singleton]
      omega
    rw [hplace]
    rcases Nat.lt_succ_iff_lt_or_eq.mp hi with hlt | rfl
    · rw [h.text i hlt, List.getElem_append_left hlt]
    · rw [show k - 1 + 1 - digits.length + digits.length = k by omega, h.frame, mem_divided hr10,
        Function.update_self]
      · simp
      · rw [in_offsets a (by omega) hk]
        omega
  · rw [h.r10, List.length_append, List.length_singleton]
    congr 2
    omega
  · rw [h.frame x fun hin => hx ?_, mem_divided_outside hk hr10 hx]
    rw [show k - 1 - room = k - (room + 1) by omega] at hin
    exact hin.mono (Nat.le_succ _)

/-- The loop over the digits writes them from the last one at `r10` down. -/
theorem divBy10_run (lr : Label) (hroom : room < k) (hk : k < 2 ^ 32)
    (hsmall : (s.reg .r3).toNat < 10 ^ (room + 1)) (hr10 : s.reg .r10 = a + UInt32.ofNat k) :
    ∃ s', code.Reaches (.divBy10 lr, s) (.writeOut lr, s') ∧
      Wrote s s' a room k (digitText 10 (s.reg .r3).toNat) := by
  induction room generalizing s k with
  | zero =>
    have hzero : (s.reg .r3).toNat / 10 = 0 := Nat.div_eq_of_lt (by simpa using hsmall)
    exact ⟨divided s, .step (if_neg fun hne => (holds_divided s).mp hne hzero) .refl,
      wrote_last hroom hk hr10 hzero⟩
  | succ room ih =>
    by_cases hzero : (s.reg .r3).toNat / 10 = 0
    · exact ⟨divided s, .step (if_neg fun hne => (holds_divided s).mp hne hzero) .refl,
        wrote_last hroom hk hr10 hzero⟩
    · have hlt := (s.reg .r3).toNat_lt
      have hquotient : ((divided s).reg .r3).toNat = (s.reg .r3).toNat / 10 := by
        rw [(divided_eq s).1]
        exact UInt32.toNat_ofNat_of_lt' (show (s.reg .r3).toNat / 10 < 2 ^ 32 by omega)
      have hsmall' : (s.reg .r3).toNat / 10 < 10 ^ (room + 1) := by
        rw [Nat.pow_succ] at hsmall
        omega
      obtain ⟨s', hreaches, hwrote⟩ := ih (s := divided s) (k := k - 1) (by omega) (by omega)
        (hquotient ▸ hsmall') (pred_offset (by omega) hr10)
      rw [hquotient] at hwrote
      exact ⟨s', .step (if_pos ((holds_divided s).mpr hzero)) hreaches, hwrote.step hroom hk hr10
        hzero (length_digitText_le (by decide) (Nat.succ_pos _) hsmall')⟩

theorem digitText_ne_zero (w : Nat) : ∀ c ∈ digitText 10 w, c ≠ 0 := by
  have htable : ∀ d < 10, d.digitChar.toUInt8 ≠ 0 := by decide
  have hlast : (w % 10).digitChar.toUInt8 ≠ 0 := htable _ (Nat.mod_lt _ (by decide))
  induction w using Nat.strong_induction_on with
  | h w ih =>
    by_cases hzero : w / 10 = 0
    · rw [digitText_of_lt hzero]
      simpa using hlast
    · rw [digitText_of_le hzero]
      intro c hc
      rcases List.mem_append.mp hc with hmem | hmem
      · exact ih (w / 10) (by omega) (htable _ (Nat.mod_lt _ (by decide))) c hmem
      · exact List.mem_singleton.mp hmem ▸ hlast

/-- The digits in `ascii_buffer`, before they are printed or put behind the line so far. -/
structure Converted (s s' : Core) (digits : List UInt8) : Prop where
  string : StringAt s'.mem (s'.reg .r1) digits
  r1 : s'.reg .r1 = s.reg .r12 + UInt32.ofNat (15 - digits.length)
  frame : ∀ x, ¬In (s.reg .r12 + 5) 10 x → s'.mem x = s.mem x
  regs : ∀ r ∉ [.r1, .r3, .r4, .r5, .r7, .r8], s'.reg r = s.reg r
  stack : s'.stack = s.stack
  written : s'.written = s.written

/-- `num_to_ascii` up to the test of `r0`. -/
def converted (s : Core) : Core := ((s.add .r1 .r10 1).ldmfd [.r10]).cmp .r0 0

theorem code_writeOut (lr : Label) (s : Core) : code (.writeOut lr) s =
    if s.reg .r0 ≠ 0 then some (.strcat lr, converted s) else some (.writeStdout lr, converted s) := by
  have hr0 : (converted s).holds .ne ↔ s.reg .r0 ≠ 0 := by
    rw [converted, Core.holds_cmp_ne]
    simp [Core.ldmfd, Core.add, Core.set]
  exact if_congr hr0 rfl rfl

theorem numToAscii_run (lr : Label) (hend : s.mem (s.reg .r12 + 15) = 0) :
    ∃ s', code.Reaches (.numToAscii lr, s) (.writeOut lr, s') ∧
      Converted s (converted s') (digitText 10 (s.reg .r3).toNat) ∧ s'.reg .r0 = s.reg .r0 := by
  have hlt := (s.reg .r3).toNat_lt
  have hr3 : (((s.stmfd [.r10]).add .r10 .r12 4).add .r10 .r10 10).reg .r3 = s.reg .r3 := by
    simp [Core.stmfd, Core.add]
  have hr10 : (((s.stmfd [.r10]).add .r10 .r12 4).add .r10 .r10 10).reg .r10 =
      s.reg .r12 + UInt32.ofNat 14 := by
    simp [Core.stmfd, Core.add, UInt32.add_assoc]
  have hlen : (digitText 10 (s.reg .r3).toNat).length ≤ 10 :=
    length_digitText_le (by decide) (by decide) (by omega)
  obtain ⟨s', hreaches, hwrote⟩ := divBy10_run lr (show 9 < 14 by decide) (by decide)
    (by rw [hr3]; omega) hr10
  rw [hr3] at hwrote
  have hr12 : s'.reg .r12 = s.reg .r12 := by
    rw [hwrote.regs .r12 (by decide)]
    simp [Core.stmfd, Core.add]
  have hr1 : (converted s').reg .r1 =
      s.reg .r12 + UInt32.ofNat (15 - (digitText 10 (s.reg .r3).toNat).length) := by
    have hsucc := offset_succ (s.reg .r12) (14 - (digitText 10 (s.reg .r3).toNat).length)
    rw [← hwrote.r10, show 14 - (digitText 10 (s.reg .r3).toNat).length + 1 =
      15 - (digitText 10 (s.reg .r3).toNat).length by omega] at hsucc
    rw [hsucc]
    simp [converted, Core.cmp, Core.ldmfd, Core.add, Core.set]
  have hframe : ∀ x, ¬In (s.reg .r12 + 5) 10 x → s'.mem x = s.mem x := hwrote.frame
  refine ⟨s', .step rfl hreaches, ⟨⟨fun i hi => ⟨?_, ?_⟩, ?_⟩, hr1, hframe, fun r hr => ?_, ?_,
    hwrote.written⟩, ?_⟩
  · rw [hr1, UInt32.add_assoc, ← UInt32.ofNat_add]
    exact hwrote.text i hi
  · exact digitText_ne_zero _ _ (List.getElem_mem hi)
  · rw [hr1, UInt32.add_assoc, ← UInt32.ofNat_add, Nat.sub_add_cancel (by omega)]
    refine (hframe _ ?_).trans hend
    exact mt (in_offsets (s.reg .r12) (i := 5) (j := 15) (by decide) (by decide)).mp (by decide)
  · have hstack : s'.stack = s.reg .r10 :: s.stack := hwrote.stack
    simp only [List.mem_cons, List.not_mem_nil, or_false, not_or] at hr
    by_cases h10 : r = .r10
    · simp [h10, converted, Core.cmp, Core.ldmfd, Core.add, Core.set, hstack]
    · have hkeep : s'.reg r = s.reg r := by
        rw [hwrote.regs r (by simp [h10, hr])]
        simp [Core.stmfd, Core.add, h10]
      rw [← hkeep]
      simp [converted, Core.cmp, Core.ldmfd, Core.add, Core.set, h10, hr]
  · have hstack : s'.stack = s.reg .r10 :: s.stack := hwrote.stack
    show s'.stack.tail = s.stack
    rw [hstack, List.tail_cons]
  · rw [hwrote.regs .r0 (by decide)]
    simp [Core.stmfd, Core.add]

/-- `num_to_ascii` prints the decimal digits of any number of 32 bits, or puts them at `r10` as a
string and moves `r10` to its end. `ascii_buffer` has the 10 bytes from `r12 + 4` on. -/
theorem num_to_ascii_decimal (s : Core) (lr : Label) (hend : s.mem (s.reg .r12 + 15) = 0) :
    (s.reg .r0 = 0 → ∃ s', code.Reaches (.numToAscii lr, s) (lr, s') ∧
      s'.written = s.written ++ [(1, digitText 10 (s.reg .r3).toNat)] ∧
      s'.reg .r10 = s.reg .r10 ∧ s'.stack = s.stack ∧
      ∀ x, ¬In (s.reg .r12 + 5) 10 x → s'.mem x = s.mem x) ∧
    (s.reg .r0 ≠ 0 → (∀ x, In (s.reg .r12 + 5) 11 x → ¬In (s.reg .r10) 11 x) →
      ∃ s', code.Reaches (.numToAscii lr, s) (lr, s') ∧
        StringAt s'.mem (s.reg .r10) (digitText 10 (s.reg .r3).toNat) ∧
        s'.reg .r10 = s.reg .r10 + UInt32.ofNat (digitText 10 (s.reg .r3).toNat).length ∧
        s'.written = s.written ∧ s'.stack = s.stack ∧
        ∀ x, ¬In (s.reg .r12 + 5) 10 x →
          ¬In (s.reg .r10) ((digitText 10 (s.reg .r3).toNat).length + 1) x → s'.mem x = s.mem x) := by
  have hlt := (s.reg .r3).toNat_lt
  obtain ⟨s₁, hreaches, hconverted, hr0⟩ := numToAscii_run lr hend
  have hlen : (digitText 10 (s.reg .r3).toNat).length ≤ 10 :=
    length_digitText_le (by decide) (by decide) (by omega)
  have hpos := List.length_pos_iff.mpr (digitText_ne_nil 10 (s.reg .r3).toNat)
  generalize digitText 10 (s.reg .r3).toNat = digits at *
  have hr10 := hconverted.regs .r10 (by decide)
  constructor
  · intro hzero
    have hcode := (code_writeOut lr s₁).trans (if_neg (not_not.mpr (hr0.trans hzero)))
    obtain ⟨n, hn⟩ := Nat.exists_eq_succ_of_ne_zero hpos.ne'
    have hstring := hconverted.string
    obtain ⟨s₂, hprint, htrace, hmem, hstack, hregs⟩ := writeStdout_run (n := n) lr
      (fun i hi hin => (hstring.1 i (by omega)).1.symm ▸ (hstring.1 i (by omega)).2)
      (by rw [← Nat.succ_eq_add_one, ← hn]; exact hstring.2) (by omega)
    refine ⟨s₂, hreaches.trans (.step hcode hprint), ?_, (hregs .r10 (by decide)).trans hr10,
      hstack.trans hconverted.stack, fun x hx => hmem ▸ hconverted.frame x hx⟩
    have hbytes : (converted s₁).bytes ((converted s₁).reg .r1) (n + 1) = digits := by
      unfold Core.bytes
      refine List.ext_getElem (by simp; omega) fun i hi hi' => ?_
      rw [List.getElem_map, List.getElem_range]
      exact (hstring.1 i hi').1
    rw [htrace, hconverted.written, hbytes]
  · intro hone hapart
    have hcode := (code_writeOut lr s₁).trans (if_pos (hr0.symm ▸ hone))
    have hne : ∀ i ≤ digits.length, ∀ j ≤ digits.length, (converted s₁).reg .r1 + UInt32.ofNat i ≠
        (converted s₁).reg .r10 + UInt32.ofNat j := by
      intro i hi j hj heq
      rw [hconverted.r1, hr10, UInt32.add_assoc, ← UInt32.ofNat_add] at heq
      refine hapart (s.reg .r10 + UInt32.ofNat j) ?_ ((in_offset _ (by omega)).mpr (by omega))
      rw [← heq]
      exact (in_offsets (s.reg .r12) (i := 5) (by omega) (by omega)).mpr (by omega)
    obtain ⟨s₂, hcopy, hstring, hr10', hframe, -, hstack, htrace⟩ :=
      strcat_run lr hconverted.string (by omega) hne
    rw [hr10] at hstring hr10' hframe
    exact ⟨s₂, hreaches.trans (.step hcode hcopy), hstring, hr10', htrace.trans hconverted.written,
      hstack.trans hconverted.stack, fun x hx hx' => (hframe x hx').trans (hconverted.frame x hx)⟩

/-- The largest number, for the line at `0x3000`. -/
def numberStart : Core where
  reg
    | .r0 => 1
    | .r3 => 0xffffffff
    | .r10 => 0x3000
    | .r12 => 0x1000
    | _ => 0
  n := false
  z := false
  c := false
  v := false
  mem _ := 0
  stack := []
  written := []

theorem num_to_ascii_decimal_largest : ∃ s', code.Reaches (.numToAscii .firstLine, numberStart)
    (.firstLine, s') ∧ StringAt s'.mem 0x3000 (digitText 10 0xffffffff) := by
  obtain ⟨s', hreaches, hstring, -⟩ := (num_to_ascii_decimal numberStart .firstLine rfl).2
    (by decide) (in_apart (by decide))
  exact ⟨s', hreaches, hstring⟩

end Vmwos.Logo
