import Vmwos.Printf

/-!
# What `printk` prints

Results:

1. `vsprintf_renders`: a format of characters and conversions without widths is rendered as
   in C, when the rendering has at most 255 bytes;
2. `vsprintf_width_iff`: with a field width, the rendering is that of C, but for a negative
   number that is padded with spaces: its sign comes before them.
-/

namespace Vmwos.Printf

/-! ## Definitions -/

/-- A character of a format, or a conversion with the argument that is passed for it. -/
inductive Directive
  | literal (c : UInt8) (hc : c ≠ 0 ∧ c ≠ '%'.toUInt8)
  | d (v : UInt32)
  | i (v : UInt32)
  | x (v : UInt32)
  | p (v : UInt32)
  | llx (v : UInt64)
  | c (v : UInt32)
  | s (text : List UInt8)
  | percent

namespace Directive

/-- How a directive stands in the format. -/
def format : Directive → List UInt8
  | literal a _ => [a]
  | d _ => ['%'.toUInt8, 'd'.toUInt8]
  | i _ => ['%'.toUInt8, 'i'.toUInt8]
  | x _ => ['%'.toUInt8, 'x'.toUInt8]
  | p _ => ['%'.toUInt8, 'p'.toUInt8]
  | llx _ => ['%'.toUInt8, 'l'.toUInt8, 'l'.toUInt8, 'x'.toUInt8]
  | c _ => ['%'.toUInt8, 'c'.toUInt8]
  | s _ => ['%'.toUInt8, 's'.toUInt8]
  | percent => ['%'.toUInt8, '%'.toUInt8]

/-- The decimal number of a signed word. -/
def decimalText (v : UInt32) : List UInt8 :=
  (if signed v < 0 then ['-'.toUInt8] else []) ++ digitText 10 (signed v).natAbs

/-- What C prints for a directive. A string ends before its NUL. -/
def rendering : Directive → List UInt8
  | literal a _ => [a]
  | d v => decimalText v
  | i v => decimalText v
  | x v => digitText 16 v.toNat
  | p v => digitText 16 v.toNat
  | llx v => digitText 16 v.toNat
  | c v => [v.toUInt8]
  | s text => text.takeWhile (· ≠ 0)
  | percent => ['%'.toUInt8]

/-- The number of arguments of a directive. -/
def arguments : Directive → Nat
  | literal _ _ => 0
  | percent => 0
  | _ => 1

/-- The argument is the one the directive is for. -/
def Takes : Directive → Arg → Prop
  | literal _ _, _ => True
  | d v, a => a.word = v
  | i v, a => a.word = v
  | x v, a => a.word = v
  | p v, a => a.word = v
  | llx v, a => a.long = v
  | c v, a => a.word = v
  | s text, a => a.text = text
  | percent, _ => True

end Directive

/-- The conversions `%d` and `%x`. -/
inductive Kind
  | d
  | x
  deriving DecidableEq

namespace Kind

def char : Kind → UInt8
  | d => 'd'.toUInt8
  | x => 'x'.toUInt8

def conversion : Kind → Conversion
  | d => .decimal
  | x => .hex

/-- Whether the number has a sign. -/
def negative (v : UInt32) : Kind → Bool
  | d => signed v < 0
  | x => false

def digits (v : UInt32) : Kind → List UInt8
  | d => digitText 10 (signed v).natAbs
  | x => digitText 16 v.toNat

end Kind

/-- The formats `%Nd` and `%Nx`, or `%0Nd` and `%0Nx`. -/
def widthFormat (zero : Bool) (width : Nat) (kind : Kind) : List UInt8 :=
  '%'.toUInt8 :: (if zero then ['0'.toUInt8] else []) ++ digitText 10 width ++ [kind.char]

/-- What C prints for them: spaces before the sign, zeros behind it. -/
def widthRendering (zero : Bool) (width : Nat) (kind : Kind) (v : UInt32) : List UInt8 :=
  let sign := if kind.negative v then ['-'.toUInt8] else []
  let missing := width - (sign.length + (kind.digits v).length)
  if zero then sign ++ List.replicate missing '0'.toUInt8 ++ kind.digits v
  else List.replicate missing ' '.toUInt8 ++ sign ++ kind.digits v

/-- The arguments from number `n` on are those of the directives. -/
def Passed (ap : Nat → Arg) : Nat → List Directive → Prop
  | _, [] => True
  | n, d :: ds => d.Takes (ap n) ∧ Passed ap (n + d.arguments) ds

/-- The bytes of a field. -/
def Field.bytes (f : Field) : List UInt8 := f.sign ++ f.padding ++ f.body

/-! ## Fields that fit -/

variable {ap : Nat → Arg} {out : List UInt8} {f : Field} {fs : List Field}

theorem length_bytes (f : Field) : f.bytes.length = f.length := by
  unfold Field.bytes Field.length
  rw [List.length_append, List.length_append]

theorem putLoop_of_le {cs : List UInt8} (h : out.length + cs.length < maxPrintSize) :
    putLoop out cs = out ++ cs := by
  rw [putLoop_eq (by omega), List.take_of_length_le (by omega)]

theorem putField_of_le (h : out.length + f.length < maxPrintSize) :
    putField out f = out ++ f.bytes := by
  unfold Field.length at h
  unfold putField Field.bytes
  rw [putLoop_of_le, putLoop_of_le, List.append_assoc, List.append_assoc, List.append_assoc]
  · rw [List.length_append]
    omega
  · rw [putLoop_of_le]
    · simp only [List.length_append]
      omega
    · rw [List.length_append]
      omega

/-- The test for the last place does not cut a complete output. -/
theorem putFields_of_le (h : out.length + (fs.flatMap Field.bytes).length < maxPrintSize) :
    putFields out fs = out ++ fs.flatMap Field.bytes := by
  induction fs generalizing out with
  | nil => simp [putFields]
  | cons f fs ih =>
    rw [List.flatMap_cons, List.length_append, length_bytes] at h
    have hfield : putField out f = out ++ f.bytes := putField_of_le (by omega)
    have hlength : (out ++ f.bytes).length = out.length + f.length := by
      rw [List.length_append, length_bytes]
    unfold putFields
    rw [hfield, List.flatMap_cons, ← List.append_assoc]
    split
    next hlast =>
      -- the remaining fields are empty
      have hnil : fs.flatMap Field.bytes = [] := by
        refine List.length_eq_zero_iff.mp ?_
        unfold maxPrintSize at h hlast
        omega
      rw [hnil, List.append_nil]
    next hlast => exact ih (by omega)

/-! ## Directives -/

/-- A conversion without a width, behind its percent sign. -/
theorem nextField_conversion {c : UInt8} (string : List UInt8) (n : Nat) (hc : isDigit c = false) :
    nextField ap ('%'.toUInt8 :: c :: string) n =
      some { field := fieldOf ' '.toUInt8 0 (ap n) (conversionOf c)
             string := (c :: string).drop (conversionOf c).width
             taken := n + (conversionOf c).arguments } := by
  have hpadding : padding (c :: string) = ⟨' '.toUInt8, 0, c :: string⟩ := by
    unfold padding
    exact if_neg (by simp [hc])
  unfold nextField
  simp only [List.tail_cons, hpadding]
  rfl

theorem bytes_number_zero (padValue : UInt8) (negative : Bool) (body : List UInt8) :
    (Field.number padValue 0 negative body).bytes =
      (if negative then ['-'.toUInt8] else []) ++ body := by
  simp [Field.bytes, Field.number, Field.sign]

theorem bytes_decimal (padValue : UInt8) (arg : Arg) :
    (fieldOf padValue 0 arg .decimal).bytes = Directive.decimalText arg.word := by
  unfold fieldOf Directive.decimalText
  rw [bytes_number_zero]
  simp only [decide_eq_true_eq]

/-- The field of a directive is its rendering. -/
theorem nextField_directive {d : Directive} {n : Nat} (hd : d.Takes (ap n)) (string : List UInt8) :
    ∃ f, nextField ap (d.format ++ string) n =
        some { field := f, string, taken := n + d.arguments } ∧
      f.bytes = d.rendering := by
  cases d with
  | literal a ha =>
    refine ⟨.plain [a], ?_, rfl⟩
    unfold nextField
    exact (if_neg ha.1).trans (if_neg ha.2)
  | d v =>
    cases hd
    exact ⟨_, nextField_conversion string n (by decide), bytes_decimal _ _⟩
  | i v =>
    cases hd
    exact ⟨_, nextField_conversion string n (by decide), bytes_decimal _ _⟩
  | x v =>
    cases hd
    exact ⟨_, nextField_conversion string n (by decide), bytes_number_zero _ _ _⟩
  | p v =>
    cases hd
    exact ⟨_, nextField_conversion string n (by decide), bytes_number_zero _ _ _⟩
  | llx v =>
    cases hd
    exact ⟨_, nextField_conversion _ n (by decide), rfl⟩
  | c v =>
    cases hd
    exact ⟨_, nextField_conversion string n (by decide), rfl⟩
  | s text =>
    cases hd
    exact ⟨_, nextField_conversion string n (by decide), rfl⟩
  | percent => exact ⟨_, nextField_conversion string n (by decide), rfl⟩

/-- The fields of a format are the renderings of its directives. -/
theorem fieldsLoop_directives {ds : List Directive} {turns n : Nat} (hpassed : Passed ap n ds)
    (rest : List UInt8) (hturns : ds.length < turns) :
    (fieldsLoop ap turns (ds.flatMap Directive.format ++ 0 :: rest) n).flatMap Field.bytes =
      ds.flatMap Directive.rendering := by
  induction ds generalizing turns n with
  | nil =>
    obtain ⟨turns, rfl⟩ := Nat.exists_eq_succ_of_ne_zero (Nat.ne_of_gt hturns)
    rfl
  | cons d ds ih =>
    obtain ⟨turns, rfl⟩ := Nat.exists_eq_succ_of_ne_zero (Nat.ne_of_gt (Nat.zero_lt_of_lt hturns))
    obtain ⟨hd, hds⟩ := hpassed
    obtain ⟨f, hnext, hbytes⟩ := nextField_directive hd (ds.flatMap Directive.format ++ 0 :: rest)
    rw [List.flatMap_cons, List.append_assoc]
    unfold fieldsLoop
    rw [hnext, Option.elim_some, List.flatMap_cons, List.flatMap_cons, hbytes,
      ih hds (Nat.lt_of_succ_lt_succ hturns)]

theorem length_le_format (ds : List Directive) : ds.length ≤ (ds.flatMap Directive.format).length := by
  induction ds with
  | nil => exact le_refl _
  | cons d ds ih =>
    have hpos : 0 < d.format.length := by cases d <;> exact Nat.succ_pos _
    rw [List.flatMap_cons, List.length_append, List.length_cons]
    omega

/-- The fields of directives that fit are their renderings. -/
theorem putFields_directives {ds : List Directive} {rest : List UInt8} {ap : Nat → Arg}
    (hpassed : Passed ap 0 ds) (hlength : (ds.flatMap Directive.rendering).length ≤ 255) :
    putFields [] (fields (ds.flatMap Directive.format ++ 0 :: rest) ap) =
      ds.flatMap Directive.rendering := by
  have hformat := length_le_format ds
  have hfields : (fields (ds.flatMap Directive.format ++ 0 :: rest) ap).flatMap Field.bytes =
      ds.flatMap Directive.rendering := by
    refine fieldsLoop_directives hpassed rest ?_
    rw [List.length_append]
    omega
  rw [putFields_of_le, hfields, List.nil_append]
  rw [hfields, List.length_nil, Nat.zero_add]
  unfold maxPrintSize
  omega

/-- For every format of characters and conversions without widths, and all arguments, `vsprintf`
puts out exactly what C prints, and returns its length, when that is at most 255 bytes. -/
theorem vsprintf_renders (ds : List Directive) (rest : List UInt8) (ap : Nat → Arg)
    (hpassed : Passed ap 0 ds) (hlength : (ds.flatMap Directive.rendering).length ≤ 255) :
    vsprintf (ds.flatMap Directive.format ++ 0 :: rest) ap =
      some (ds.flatMap Directive.rendering) := by
  rw [vsprintf_eq, putFields_directives hpassed hlength]

/-- The format `%d.` with the least number. -/
theorem vsprintf_renders_minimum :
    vsprintf (([.d 0x80000000, .literal 46 (by decide)] : List Directive).flatMap Directive.format ++
        0 :: []) (fun _ => ⟨0x80000000, 0, []⟩) =
      some (([.d 0x80000000, .literal 46 (by decide)] : List Directive).flatMap
        Directive.rendering) :=
  vsprintf_renders [.d 0x80000000, .literal 46 (by decide)] [] _ ⟨rfl, trivial, trivial⟩
    (by decide)

/-! ## Field widths -/

theorem isDigit_decimalDigit : ∀ d < 10, isDigit (decimalDigit d) = true := by decide

theorem decimalDigit_sub : ∀ d < 10, decimalDigit d - '0'.toUInt8 = UInt8.ofNat d := by decide

theorem decimalDigit_eq_zero : ∀ d < 10, decimalDigit d = '0'.toUInt8 → d = 0 := by decide

theorem widthLoop_digit {k : Nat} (hk : k < 10) (padLen : UInt8) (string : List UInt8) :
    widthLoop padLen (decimalDigit k :: string) = widthLoop (padLen * 10 + UInt8.ofNat k) string := by
  conv_lhs => unfold widthLoop
  rw [if_pos (isDigit_decimalDigit k hk), decimalDigit_sub k hk]

theorem widthLoop_stop {c : UInt8} (hc : isDigit c = false) (padLen : UInt8) (string : List UInt8) :
    widthLoop padLen (c :: string) = (padLen, c :: string) := by
  unfold widthLoop
  exact if_neg (by simp [hc])

/-- A width below 100 has one digit or two, the first of which is not 0. -/
theorem digitText_width {width : Nat} (hpos : 1 ≤ width) (hlt : width < 100) :
    width < 10 ∧ digitText 10 width = [decimalDigit width] ∨
      10 ≤ width ∧ digitText 10 width = [decimalDigit (width / 10), decimalDigit (width % 10)] := by
  unfold digitText
  obtain hone | htwo := Nat.lt_or_ge width 10
  · refine .inl ⟨hone, ?_⟩
    rw [Nat.toDigits_of_lt_base hone, decimalDigit_eq _ hone]
    rfl
  · refine .inr ⟨htwo, ?_⟩
    have hfirst : width / 10 < 10 := by omega
    have hsecond : width % 10 < 10 := by omega
    rw [Nat.toDigits_of_base_le (by decide) htwo, Nat.toDigits_of_lt_base hfirst,
      decimalDigit_eq _ hfirst, decimalDigit_eq _ hsecond]
    rfl

/-- The loop over the digits reads the width. -/
theorem widthLoop_width {width : Nat} {c : UInt8} (hpos : 1 ≤ width) (hlt : width < 100)
    (hc : isDigit c = false) (string : List UInt8) :
    widthLoop 0 (digitText 10 width ++ c :: string) = (UInt8.ofNat width, c :: string) := by
  obtain ⟨hone, htext⟩ | ⟨htwo, htext⟩ := digitText_width hpos hlt
  · rw [htext, List.singleton_append, widthLoop_digit hone, widthLoop_stop hc]
    simp
  · have hfirst : width / 10 < 10 := by omega
    have hsecond : width % 10 < 10 := by omega
    rw [htext, List.cons_append, List.singleton_append, widthLoop_digit hfirst,
      widthLoop_digit hsecond, widthLoop_stop hc]
    refine congrArg (·, c :: string) ?_
    have hsum : width = width / 10 * 10 + width % 10 := by omega
    conv_rhs => rw [hsum, UInt8.ofNat_add, UInt8.ofNat_mul]
    simp

/-- The first digit decides what the field is filled with. -/
theorem padding_first {k : Nat} (hk : k < 10) (string : List UInt8) :
    padding (decimalDigit k :: string) =
      { padValue := if k = 0 then '0'.toUInt8 else ' '.toUInt8
        padLen := (widthLoop 0 (decimalDigit k :: string)).1
        string := (widthLoop 0 (decimalDigit k :: string)).2 } := by
  have hloop : widthLoop 0 (decimalDigit k :: string) = widthLoop (UInt8.ofNat k) string := by
    rw [widthLoop_digit hk]
    simp
  have hvalue : decimalDigit k = '0'.toUInt8 ↔ k = 0 := by
    refine ⟨decimalDigit_eq_zero k hk, ?_⟩
    rintro rfl
    rfl
  unfold padding
  simp only [List.headD_cons, List.tail_cons, isDigit_decimalDigit k hk, decimalDigit_sub k hk,
    hloop, hvalue, if_true]

/-- The padding of a width between 1 and 99. -/
theorem padding_width (zero : Bool) {width : Nat} {c : UInt8} (hpos : 1 ≤ width) (hlt : width < 100)
    (hc : isDigit c = false) (string : List UInt8) :
    padding ((if zero then ['0'.toUInt8] else []) ++ digitText 10 width ++ c :: string) =
      { padValue := if zero then '0'.toUInt8 else ' '.toUInt8
        padLen := UInt8.ofNat width
        string := c :: string } := by
  have hloop := widthLoop_width hpos hlt hc string
  cases zero with
  | true =>
    have hzero : widthLoop 0 (decimalDigit 0 :: (digitText 10 width ++ c :: string)) =
        (UInt8.ofNat width, c :: string) := by
      rw [widthLoop_digit (by decide)]
      exact hloop
    have hfirst := padding_first (show 0 < 10 by decide) (digitText 10 width ++ c :: string)
    rw [hzero] at hfirst
    exact hfirst
  | false =>
    -- the first digit of the width is not 0
    have hdigits : ∃ k rest, k < 10 ∧ k ≠ 0 ∧
        digitText 10 width ++ c :: string = decimalDigit k :: rest := by
      obtain ⟨hone, htext⟩ | ⟨htwo, htext⟩ := digitText_width hpos hlt
      · exact ⟨width, _, hone, by omega, by rw [htext]; rfl⟩
      · exact ⟨width / 10, _, by omega, by omega, by rw [htext]; rfl⟩
    obtain ⟨k, rest, hk, hne, heq⟩ := hdigits
    have hfirst := padding_first hk rest
    rw [← heq, hloop, if_neg hne] at hfirst
    exact hfirst

/-- The field of a format with a width. -/
def widthField (zero : Bool) (width : Nat) (kind : Kind) (v : UInt32) : Field :=
  .number (if zero then '0'.toUInt8 else ' '.toUInt8) (UInt8.ofNat width) (kind.negative v)
    (kind.digits v)

theorem fieldOf_kind (padValue padLen : UInt8) (arg : Arg) (kind : Kind) :
    fieldOf padValue padLen arg kind.conversion =
      .number padValue padLen (kind.negative arg.word) (kind.digits arg.word) := by
  cases kind with
  | d => rfl
  | x => rfl

theorem nextField_width {width : Nat} {zero : Bool} {kind : Kind} (rest : List UInt8)
    (hpos : 1 ≤ width) (hlt : width < 100) :
    nextField ap (widthFormat zero width kind ++ 0 :: rest) 0 =
      some { field := widthField zero width kind (ap 0).word, string := 0 :: rest, taken := 1 } := by
  have hc : isDigit kind.char = false := by cases kind <;> decide
  have hpadding := padding_width zero hpos hlt hc (0 :: rest)
  have hformat : widthFormat zero width kind ++ 0 :: rest = '%'.toUInt8 ::
      ((if zero then ['0'.toUInt8] else []) ++ digitText 10 width ++ kind.char :: 0 :: rest) := by
    simp [widthFormat]
  have hkind : conversionOf kind.char = kind.conversion := by cases kind <;> rfl
  have hwidth : kind.conversion.width = 1 ∧ kind.conversion.arguments = 1 := by cases kind <;> decide
  rw [hformat]
  unfold nextField
  simp only [List.tail_cons, hpadding, List.headD_cons, hkind, hwidth, fieldOf_kind]
  rfl

/-- The digits of a 32-bit number are at most ten. -/
theorem length_digits_le (kind : Kind) (v : UInt32) : (kind.digits v).length ≤ 10 := by
  have hlt := v.toNat_lt
  have habs := natAbs_signed_lt v
  cases kind with
  | d => exact length_digitText_le (by decide) (by decide) (by omega)
  | x => exact length_digitText_le (by decide) (by decide) (by omega)

theorem toNat_width {width : Nat} (hlt : width < 100) : (UInt8.ofNat width).toNat = width :=
  UInt8.toNat_ofNat_of_lt' (hlt.trans (by decide))

/-- The sign comes first, whatever the field is filled with. -/
theorem vsprintf_width {width : Nat} (zero : Bool) (kind : Kind) (rest : List UInt8)
    (hpos : 1 ≤ width) (hlt : width < 100) :
    vsprintf (widthFormat zero width kind ++ 0 :: rest) ap =
      some (widthField zero width kind (ap 0).word).bytes := by
  have hfields : fields (widthFormat zero width kind ++ 0 :: rest) ap =
      [widthField zero width kind (ap 0).word] := by
    unfold fields
    rw [List.length_append, List.length_cons, ← Nat.add_assoc]
    unfold fieldsLoop
    rw [nextField_width rest hpos hlt]
    rfl
  have hdigits := length_digits_le kind (ap 0).word
  have hlength : (widthField zero width kind (ap 0).word).bytes.length < maxPrintSize := by
    have hsign := (widthField zero width kind (ap 0).word).sign_length_le
    have hwidth := toNat_width hlt
    have hpadding : (widthField zero width kind (ap 0).word).padding.length ≤ width := by
      unfold widthField Field.number
      rw [List.length_replicate, hwidth]
      exact Nat.sub_le _ _
    have hbody : (widthField zero width kind (ap 0).word).body = kind.digits (ap 0).word := rfl
    rw [length_bytes]
    unfold Field.length maxPrintSize
    rw [hbody]
    omega
  rw [vsprintf_eq, hfields, putFields_of_le]
  · simp
  · simpa using hlength

theorem Kind.negative_iff {kind : Kind} {v : UInt32} :
    kind.negative v = true ↔ kind = .d ∧ signed v < 0 := by
  cases kind with
  | d => simp [Kind.negative]
  | x => simp [Kind.negative]

/-- A sign before spaces is not one behind them. -/
theorem sign_first_iff {m : Nat} {digits : List UInt8} :
    ['-'.toUInt8] ++ List.replicate m ' '.toUInt8 ++ digits =
        List.replicate m ' '.toUInt8 ++ ['-'.toUInt8] ++ digits ↔ m = 0 := by
  cases m with
  | zero => simp
  | succ m =>
    refine ⟨fun h => ?_, fun h => by cases h⟩
    exact absurd (List.cons.inj h).1 (by decide)

/-- For every value, every width from 1 to 99 and both pad styles, `vsprintf` on `%Nd`, `%0Nd`,
`%Nx` and `%0Nx` puts out the rendering of C, unless a negative number is shorter than a field
that is filled with spaces. -/
theorem vsprintf_width_iff (zero : Bool) (width : Nat) (kind : Kind) (v : UInt32) (rest : List UInt8)
    (ap : Nat → Arg) (hv : (ap 0).word = v) (hpos : 1 ≤ width) (hmax : width ≤ 99) :
    vsprintf (widthFormat zero width kind ++ 0 :: rest) ap =
        some (widthRendering zero width kind v) ↔
      ¬(zero = false ∧ kind = .d ∧ signed v < 0 ∧ (kind.digits v).length + 1 < width) := by
  have hlt : width < 100 := by omega
  have hcondition : (zero = false ∧ kind = .d ∧ signed v < 0 ∧ (kind.digits v).length + 1 < width) ↔
      zero = false ∧ kind.negative v = true ∧ (kind.digits v).length + 1 < width := by
    rw [Kind.negative_iff, and_assoc]
  rw [vsprintf_width zero kind rest hpos hlt, hv, Option.some_inj, hcondition]
  unfold widthField widthRendering Field.bytes Field.number Field.sign
  rw [toNat_width hlt]
  cases kind.negative v with
  | false => cases zero <;> simp
  | true =>
    cases zero with
    | true => simp
    | false =>
      refine sign_first_iff.trans ?_
      simp only [if_true, true_and]
      omega

/-- The format `%5d` with 42. -/
theorem vsprintf_width_positive :
    vsprintf (widthFormat false 5 .d ++ 0 :: []) (fun _ => ⟨42, 0, []⟩) =
      some (widthRendering false 5 .d 42) :=
  (vsprintf_width_iff false 5 .d 42 [] _ rfl (by decide) (by decide)).mpr (by decide)

/-- The format `%5d` with -42. The code puts out `-  42`, C prints `  -42`. -/
theorem vsprintf_width_negative :
    vsprintf (widthFormat false 5 .d ++ 0 :: []) (fun _ => ⟨-42, 0, []⟩) =
        some [45, 32, 32, 52, 50] ∧
      widthRendering false 5 .d (-42) = [32, 32, 45, 52, 50] ∧
      vsprintf (widthFormat false 5 .d ++ 0 :: []) (fun _ => ⟨-42, 0, []⟩) ≠
        some (widthRendering false 5 .d (-42)) := by
  decide +kernel

end Vmwos.Printf
