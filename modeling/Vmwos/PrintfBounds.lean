import Vmwos.Printf

/-!
# The buffer of `printk`

The loops of `vsprintf` are left when `buffer_pointer` equals 256, and the main loop when it
equals 255. A loop over a string or over digits that is left at 256 goes on with the rest of
the format, behind the buffer.

Result: `vsprintf_in_buffer_iff`. The output stays inside the buffer exactly when the first
field that reaches place 255 fills it to that place, or when only its body reaches it and no
further field puts anything out.
-/

namespace Vmwos.Printf

/-! ## Definitions -/

/-- The length of fields one after the other. -/
def total (fs : List Field) : Nat := (fs.map Field.length).sum

/-- From place `start` on, the field that reaches the last place of the buffer ends there, or
reaches it with its body, before fields that are empty. -/
def FitsFrom (start : Nat) (fs : List Field) : Prop :=
  ∀ before f after, fs = before ++ f :: after →
    start + total before < maxPrintSize - 1 → maxPrintSize - 1 ≤ start + total before + f.length →
    start + total before + f.length = maxPrintSize - 1 ∨
      start + total before + f.sign.length + f.padding.length < maxPrintSize ∧
        ∀ g ∈ after, g.length = 0

variable {out : List UInt8} {f : Field} {fs : List Field} {start : Nat}

/-! ## One field -/

/-- A loop that starts in the buffer stops at its end. -/
theorem length_putLoop (cs : List UInt8) (h : out.length < maxPrintSize) :
    (putLoop out cs).length = min (out.length + cs.length) maxPrintSize := by
  rw [putLoop_eq h, List.length_append, List.length_take]
  omega

/-- The loop over the body starts where that over the padding has stopped. -/
theorem length_putField (h : out.length < maxPrintSize - 1) :
    (putField out f).length =
      if out.length + f.sign.length + f.padding.length < maxPrintSize then
        min (out.length + f.length) maxPrintSize
      else maxPrintSize + f.body.length := by
  have hsign := f.sign_length_le
  have hstart : (out ++ f.sign).length < maxPrintSize := by
    rw [List.length_append]
    omega
  have hpadding := length_putLoop f.padding hstart
  rw [List.length_append] at hpadding
  unfold putField Field.length
  split
  next hlt =>
    have hin : (putLoop (out ++ f.sign) f.padding).length < maxPrintSize := by omega
    rw [length_putLoop _ hin, hpadding, Nat.min_eq_left hlt.le]
    congr 1
    omega
  next hge =>
    have hbehind : maxPrintSize ≤ (putLoop (out ++ f.sign) f.padding).length := by omega
    rw [putLoop_behind hbehind, List.length_append, hpadding, Nat.min_eq_right (by omega)]

/-- Behind the buffer nothing is held back. -/
theorem length_putField_behind (h : maxPrintSize ≤ out.length) :
    (putField out f).length = out.length + f.length := by
  have hsign : maxPrintSize ≤ (out ++ f.sign).length := by
    rw [List.length_append]
    omega
  unfold putField Field.length
  rw [putLoop_behind hsign, putLoop_behind, List.length_append, List.length_append,
    List.length_append]
  · omega
  · rw [List.length_append]
    omega

/-! ## All fields -/

/-- Behind the buffer all fields are stored. -/
theorem length_putFields_behind (h : maxPrintSize ≤ out.length) :
    (putFields out fs).length = out.length + total fs := by
  induction fs generalizing out with
  | nil => rfl
  | cons f fs ih =>
    have hfield := length_putField_behind (f := f) h
    have htotal : total (f :: fs) = f.length + total fs := List.sum_cons
    unfold putFields
    rw [if_neg, ih, hfield, htotal, Nat.add_assoc]
    · omega
    · unfold maxPrintSize at h ⊢
      omega

theorem total_eq_zero_iff : total fs = 0 ↔ ∀ g ∈ fs, g.length = 0 := by
  induction fs with
  | nil => simp [total]
  | cons f fs ih =>
    have htotal : total (f :: fs) = f.length + total fs := List.sum_cons
    rw [htotal, Nat.add_eq_zero_iff, ih, List.forall_mem_cons]

/-- The first field either leaves the rest its room, or is the one that reaches the last place. -/
theorem fitsFrom_cons (hstart : start < maxPrintSize - 1) :
    FitsFrom start (f :: fs) ↔
      if start + f.length < maxPrintSize - 1 then FitsFrom (start + f.length) fs
      else start + f.length = maxPrintSize - 1 ∨
        start + f.sign.length + f.padding.length < maxPrintSize ∧ ∀ g ∈ fs, g.length = 0 := by
  have htotal : ∀ before, total (f :: before) = f.length + total before := fun _ => List.sum_cons
  constructor
  · intro h
    split
    next hlt =>
      rintro before g after rfl hbefore hreach
      have hfirst := h (f :: before) g after rfl
      rw [htotal, ← Nat.add_assoc] at hfirst
      exact hfirst hbefore hreach
    next hge => exact h [] f fs rfl hstart (Nat.not_lt.mp hge)
  · intro h before g after hsplit hbefore hreach
    cases before with
    | nil =>
      cases hsplit
      have hzero : start + total [] = start := rfl
      rw [hzero] at hreach ⊢
      rwa [if_neg (Nat.not_lt.mpr hreach)] at h
    | cons f' before =>
      cases hsplit
      rw [htotal, ← Nat.add_assoc] at hbefore hreach ⊢
      rw [if_pos (by omega)] at h
      exact h before g after rfl hbefore hreach

/-- The output stays inside the buffer exactly if the fields fit. Only a field with a body has
padding. -/
theorem length_putFields_iff (h : out.length < maxPrintSize - 1)
    (hfields : ∀ f ∈ fs, f.body = [] → f.padding = []) :
    (putFields out fs).length ≤ maxPrintSize ↔ FitsFrom out.length fs := by
  induction fs generalizing out with
  | nil =>
    have hin : (putFields out []).length ≤ maxPrintSize := by
      unfold putFields maxPrintSize at *
      omega
    refine ⟨fun _ before f after hsplit => ?_, fun _ => hin⟩
    exact absurd hsplit (by simp)
  | cons f fs ih =>
    obtain ⟨hf, hfs⟩ := List.forall_mem_cons.mp hfields
    have hlength := length_putField (f := f) h
    have hsum : f.length = f.sign.length + f.padding.length + f.body.length := rfl
    have hsize : maxPrintSize = 256 := rfl
    rw [fitsFrom_cons h]
    unfold putFields
    obtain hlt | heq | hgt := Nat.lt_trichotomy (out.length + f.length) (maxPrintSize - 1)
    · -- there is room for further fields
      rw [if_pos (by omega), Nat.min_eq_left (by omega)] at hlength
      rw [if_pos hlt, if_neg (by omega), ← hlength]
      exact ih (by omega) hfs
    · -- the main loop is left
      rw [if_pos (by omega), Nat.min_eq_left (by omega)] at hlength
      rw [if_pos (hlength.trans heq), if_neg (by omega)]
      refine ⟨fun _ => .inl heq, fun _ => ?_⟩
      omega
    · have hreach : ¬ out.length + f.length < maxPrintSize - 1 := by omega
      rw [if_neg hreach]
      by_cases hpadding : out.length + f.sign.length + f.padding.length < maxPrintSize
      · -- the loop over the body is left at the end of the buffer
        rw [if_pos hpadding, Nat.min_eq_right (by omega)] at hlength
        rw [if_neg (by omega), length_putFields_behind hlength.ge, hlength, ← total_eq_zero_iff]
        omega
      · -- the body starts behind the buffer
        rw [if_neg hpadding] at hlength
        have hbody : 0 < f.body.length := by
          refine List.length_pos_iff.mpr fun hnil => ?_
          have hsign := f.sign_length_le
          rw [hf hnil, List.length_nil] at hpadding
          omega
        rw [if_neg (by omega), length_putFields_behind (by omega), hlength]
        refine ⟨fun hle => by omega, ?_⟩
        rintro (heq | ⟨hpad, -⟩)
        · omega
        · exact absurd hpad hpadding

/-- A field without a body has no padding. -/
theorem fieldOf_padding {padValue padLen : UInt8} {arg : Arg} {conversion : Conversion}
    (h : (fieldOf padValue padLen arg conversion).body = []) :
    (fieldOf padValue padLen arg conversion).padding = [] := by
  cases conversion with
  | decimal => exact absurd h (digitText_ne_nil _ _)
  | hex => exact absurd h (digitText_ne_nil _ _)
  | longHex => rfl
  | char => rfl
  | percent => rfl
  | text => rfl
  | unknown => rfl

theorem nextField_padding {ap : Nat → Arg} {string : List UInt8} {n : Nat} {next : Next}
    (h : nextField ap string n = some next) (hbody : next.field.body = []) :
    next.field.padding = [] := by
  unfold nextField at h
  by_cases hnul : string.headD 0 = 0
  · rw [if_pos hnul] at h
    cases h
  · rw [if_neg hnul] at h
    by_cases hpercent : string.headD 0 = '%'.toUInt8
    · rw [if_pos hpercent] at h
      cases h
      exact fieldOf_padding hbody
    · rw [if_neg hpercent] at h
      cases h
      rfl

theorem fields_padding {ap : Nat → Arg} {string : List UInt8} {n turns : Nat} :
    ∀ f ∈ fieldsLoop ap turns string n, f.body = [] → f.padding = [] := by
  induction turns generalizing string n with
  | zero => exact fun f hf => absurd hf List.not_mem_nil
  | succ turns ih =>
    unfold fieldsLoop
    cases hnext : nextField ap string n with
    | none => exact fun f hf => absurd hf List.not_mem_nil
    | some next =>
      rw [Option.elim_some, List.forall_mem_cons]
      exact ⟨nextField_padding hnext, ih⟩

/-! ## The buffer -/

/-- For every format and all arguments, `vsprintf` stores only in the buffer and returns at most
its size exactly when the fields of the format fit. -/
theorem vsprintf_in_buffer_iff (string : List UInt8) (ap : Nat → Arg) :
    (∃ out, vsprintf string ap = some out ∧ out.length ≤ maxPrintSize) ↔
      FitsFrom 0 (fields string ap) := by
  have hiff : (putFields [] (fields string ap)).length ≤ maxPrintSize ↔
      FitsFrom 0 (fields string ap) :=
    length_putFields_iff (by decide) fields_padding
  rw [← hiff, vsprintf_eq]
  refine ⟨?_, fun hle => ⟨_, rfl, hle⟩⟩
  rintro ⟨out, hout, hle⟩
  cases hout
  exact hle

/-- The format `%s.` with a string of 300 characters. The string fills the buffer, and the full
stop is stored behind it. -/
theorem vsprintf_overruns :
    ¬ ∃ out, vsprintf ['%'.toUInt8, 's'.toUInt8, '.'.toUInt8]
        (fun _ => ⟨0, 0, List.replicate 300 97⟩) = some out ∧ out.length ≤ maxPrintSize := by
  have hlength : (vsprintf ['%'.toUInt8, 's'.toUInt8, '.'.toUInt8]
      (fun _ => ⟨0, 0, List.replicate 300 97⟩)).map List.length = some 257 := by
    decide +kernel
  rintro ⟨out, hout, hle⟩
  rw [hout, Option.map_some, Option.some_inj] at hlength
  unfold maxPrintSize at hle
  omega

end Vmwos.Printf
