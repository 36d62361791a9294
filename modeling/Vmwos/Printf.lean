import Mathlib.Data.Nat.Bitwise
import Vmwos.Bytes

/-!
# Formatted output

`vsprintf` of `printk.c`, with the same code in `printf.c` of vlibc. The format is read
character by character, each conversion takes its argument from the `va_list`, and every
character of the output is stored at `buffer[buffer_pointer]`, which then moves on.

The output is a list: its length is `buffer_pointer`, and its element `k` has been stored in
`buffer[k]`. Nothing in the model limits it to `MAX_PRINT_SIZE` but the tests of the code.

* `digitsLoop_eq`: the digits that a conversion leaves in `int_buffer`;
* `convert_eq`: a conversion puts out the sign, the padding and the body of its field, until
  the buffer is full;
* `vsprintf_eq`: `vsprintf` returns, and its output is that of the fields of the format.
-/

namespace Vmwos.Printf

open Bytes

/-! ## Definitions -/

def maxPrintSize : Nat := 256

/-- An argument, as the conversions read it: a 32-bit word, a 64-bit number, or the characters
at a pointer, with a NUL behind the list. -/
structure Arg where
  word : UInt32
  long : UInt64
  text : List UInt8

/-- The conversions by their character. -/
inductive Conversion
  | decimal
  | longHex
  | hex
  | char
  | percent
  | text
  | unknown
  deriving DecidableEq

def conversionOf (c : UInt8) : Conversion :=
  if c = 'd'.toUInt8 ∨ c = 'i'.toUInt8 then .decimal
  else if c = 'l'.toUInt8 then .longHex
  else if c = 'x'.toUInt8 ∨ c = 'p'.toUInt8 then .hex
  else if c = 'c'.toUInt8 then .char
  else if c = '%'.toUInt8 then .percent
  else if c = 's'.toUInt8 then .text
  else .unknown

/-- The characters of the format that a conversion steps over. An `l` steps over two more, whatever
they are. An unknown character is left to the next turn. -/
def Conversion.width : Conversion → Nat
  | .longHex => 3
  | .unknown => 0
  | _ => 1

/-- The arguments that a conversion takes. -/
def Conversion.arguments : Conversion → Nat
  | .percent => 0
  | .unknown => 0
  | _ => 1

def isDigit (c : UInt8) : Bool := '0'.toUInt8 ≤ c ∧ c ≤ '9'.toUInt8

/-- The loop over the further digits of a field width. `pad_len` is a `char`, which ARM has
unsigned. -/
def widthLoop (padLen : UInt8) : List UInt8 → UInt8 × List UInt8
  | [] => (padLen, [])
  | c :: string =>
    if isDigit c then widthLoop (padLen * 10 + (c - '0'.toUInt8)) string else (padLen, c :: string)

/-- The padding behind a percent sign, with the format after it. -/
structure Padding where
  padValue : UInt8
  padLen : UInt8
  string : List UInt8

def padding (string : List UInt8) : Padding :=
  let c := string.headD 0
  if isDigit c then
    let width := widthLoop (c - '0'.toUInt8) string.tail
    { padValue := if c = '0'.toUInt8 then '0'.toUInt8 else ' '.toUInt8
      padLen := width.1
      string := width.2 }
  else { padValue := ' '.toUInt8, padLen := 0, string }

/-- A loop that stores characters and is left when the buffer is full. -/
def putLoop : List UInt8 → List UInt8 → List UInt8
  | out, [] => out
  | out, c :: cs =>
    if (out ++ [c]).length = maxPrintSize then out ++ [c] else putLoop (out ++ [c]) cs

def putPadding (padValue padLen printedSize : UInt8) (out : List UInt8) : List UInt8 :=
  if padLen > printedSize then
    putLoop out (List.replicate (padLen.toNat - printedSize.toNat) padValue)
  else out

def decimalDigit (d : Nat) : UInt8 := UInt8.ofNat d + '0'.toUInt8

def hexDigit (d : Nat) : UInt8 :=
  if d < 10 then UInt8.ofNat d + '0'.toUInt8 else UInt8.ofNat d - 10 + 'a'.toUInt8

/-- The loop that fills `int_buffer` backwards, with `room` entries left before its start. The list
is what stands behind `int_pointer`. A digit without room would be stored before the array. -/
def digitsLoop (base : Nat) (digit : Nat → UInt8) : Nat → Nat → List UInt8 → Option (List UInt8)
  | 0, _, _ => none
  | room + 1, x, digits =>
    if x / base ≠ 0 then digitsLoop base digit room (x / base) (digit (x % base) :: digits)
    else some (digit (x % base) :: digits)

/-- The body of a conversion: whether it leaves the main loop, and the output after it. -/
def convert (padValue padLen : UInt8) (arg : Arg) (out : List UInt8) :
    Conversion → Option (Bool × List UInt8)
  | .decimal =>
    let negative := arg.word &&& 0x80000000 ≠ 0
    let out := if negative then out ++ ['-'.toUInt8] else out
    if negative ∧ out.length = maxPrintSize then some (true, out)
    else
      let x := if negative then ~~~arg.word + 1 else arg.word
      (digitsLoop 10 decimalDigit 10 x.toNat []).map fun digits =>
        let printedSize := (if negative then 1 else 0) + UInt8.ofNat digits.length
        (false, putLoop (putPadding padValue padLen printedSize out) digits)
  | .longHex =>
    (digitsLoop 16 hexDigit 18 arg.long.toNat []).map fun digits => (false, putLoop out digits)
  | .hex =>
    (digitsLoop 16 hexDigit 10 arg.word.toNat []).map fun digits =>
      let printedSize := UInt8.ofNat digits.length
      (false, putLoop (putPadding padValue padLen printedSize out) digits)
  | .char =>
    let out := out ++ [arg.word.toUInt8]
    some (out.length = maxPrintSize, out)
  | .percent =>
    let out := out ++ ['%'.toUInt8]
    some (out.length = maxPrintSize, out)
  | .text => some (false, putLoop out (arg.text.takeWhile (· ≠ 0)))
  | .unknown => some (false, out)

/-- The main loop, for a number of turns. The format is the memory from `string` on, with zeros
behind the list, and `n` arguments have been taken. -/
def vsprintfLoop (ap : Nat → Arg) :
    Nat → List UInt8 → Nat → List UInt8 → Option (List UInt8)
  | 0, _, _, _ => none
  | turns + 1, string, n, out =>
    let c := string.headD 0
    if c = 0 then some out
    else if c = '%'.toUInt8 then
      let p := padding string.tail
      let conversion := conversionOf (p.string.headD 0)
      (convert p.padValue p.padLen (ap n) out conversion).bind fun r =>
        if r.1 ∨ r.2.length = maxPrintSize - 1 then some r.2
        else vsprintfLoop ap turns (p.string.drop conversion.width) (n + conversion.arguments) r.2
    else
      let out := out ++ [c]
      if out.length = maxPrintSize ∨ out.length = maxPrintSize - 1 then some out
      else vsprintfLoop ap turns string.tail n out

/-- `vsprintf`: what it stores in the buffer. The length of the list is its result. Every turn
steps over a character of the format. -/
def vsprintf (string : List UInt8) (ap : Nat → Arg) : Option (List UInt8) :=
  vsprintfLoop ap (string.length + 1) string 0 []

/-! ## Fields

What a conversion stands for, before any limit of the buffer. -/

/-- The digits of a number, as the library writes them. -/
def digitText (base x : Nat) : List UInt8 := (Nat.toDigits base x).map Char.toUInt8

/-- What a conversion puts out, in the order of the code. -/
structure Field where
  negative : Bool
  padding : List UInt8
  body : List UInt8

def Field.sign (f : Field) : List UInt8 := if f.negative then ['-'.toUInt8] else []

/-- The length of the whole field. -/
def Field.length (f : Field) : Nat := f.sign.length + f.padding.length + f.body.length

/-- A field that is only a body. -/
def Field.plain (body : List UInt8) : Field := { negative := false, padding := [], body }

/-- The field of a number, filled up to `pad_len`. -/
def Field.number (padValue padLen : UInt8) (negative : Bool) (body : List UInt8) : Field :=
  { negative
    padding := List.replicate (padLen.toNat - ((if negative then 1 else 0) + body.length)) padValue
    body }

/-- The value that `%d` shows. -/
def signed (w : UInt32) : Int := w.toInt32.toInt

def fieldOf (padValue padLen : UInt8) (arg : Arg) : Conversion → Field
  | .decimal =>
    .number padValue padLen (signed arg.word < 0) (digitText 10 (signed arg.word).natAbs)
  | .longHex => .plain (digitText 16 arg.long.toNat)
  | .hex => .number padValue padLen false (digitText 16 arg.word.toNat)
  | .char => .plain [arg.word.toUInt8]
  | .percent => .plain ['%'.toUInt8]
  | .text => .plain (arg.text.takeWhile (· ≠ 0))
  | .unknown => .plain []

/-- The output after a field, with the loops over the padding and the body left at the end of the
buffer. -/
def putField (out : List UInt8) (f : Field) : List UInt8 :=
  putLoop (putLoop (out ++ f.sign) f.padding) f.body

/-- A field of the format, with the format and the number of arguments taken after it. -/
structure Next where
  field : Field
  string : List UInt8
  taken : Nat

def nextField (ap : Nat → Arg) (string : List UInt8) (n : Nat) : Option Next :=
  let c := string.headD 0
  if c = 0 then none
  else if c = '%'.toUInt8 then
    let p := padding string.tail
    let conversion := conversionOf (p.string.headD 0)
    some { field := fieldOf p.padValue p.padLen (ap n) conversion
           string := p.string.drop conversion.width
           taken := n + conversion.arguments }
  else some { field := .plain [c], string := string.tail, taken := n }

/-- The fields of a format, for a number of turns. -/
def fieldsLoop (ap : Nat → Arg) : Nat → List UInt8 → Nat → List Field
  | 0, _, _ => []
  | turns + 1, string, n =>
    (nextField ap string n).elim [] fun next =>
      next.field :: fieldsLoop ap turns next.string next.taken

/-- What a format stands for with its arguments. -/
def fields (string : List UInt8) (ap : Nat → Arg) : List Field :=
  fieldsLoop ap (string.length + 1) string 0

/-- The output after fields, with the main loop left when there is one place in the buffer. -/
def putFields : List UInt8 → List Field → List UInt8
  | out, [] => out
  | out, f :: fs =>
    if (putField out f).length = maxPrintSize - 1 then putField out f
    else putFields (putField out f) fs

/-! ## Digits -/

theorem digitText_ne_nil (base x : Nat) : digitText base x ≠ [] := by
  unfold digitText
  rw [ne_eq, List.map_eq_nil_iff]
  exact Nat.toDigits_ne_nil

theorem length_digitText_le {base x k : Nat} (hbase : 1 < base) (hk : 0 < k) (hx : x < base ^ k) :
    (digitText base x).length ≤ k := by
  unfold digitText
  rw [List.length_map]
  exact (Nat.length_toDigits_le_iff hbase hk).mpr hx

/-- The loop leaves the digits of the number, and does not run out of `int_buffer`. -/
theorem digitsLoop_eq {base : Nat} {digit : Nat → UInt8} (hbase : 1 < base)
    (hdigit : ∀ d < base, digit d = d.digitChar.toUInt8) {room x : Nat}
    (hx : x < base ^ (room + 1)) (digits : List UInt8) :
    digitsLoop base digit (room + 1) x digits = some (digitText base x ++ digits) := by
  have hlast : digit (x % base) = (x % base).digitChar.toUInt8 :=
    hdigit _ (Nat.mod_lt _ (Nat.zero_lt_of_lt hbase))
  induction room generalizing x digits with
  | zero =>
    rw [Nat.zero_add, Nat.pow_one] at hx
    unfold digitsLoop
    rw [if_neg (not_not.mpr (Nat.div_eq_of_lt hx)), hlast, Nat.mod_eq_of_lt hx]
    unfold digitText
    rw [Nat.toDigits_of_lt_base hx]
    rfl
  | succ room ih =>
    unfold digitsLoop
    obtain hlt | hle := Nat.lt_or_ge x base
    · rw [if_neg (not_not.mpr (Nat.div_eq_of_lt hlt)), hlast, Nat.mod_eq_of_lt hlt]
      unfold digitText
      rw [Nat.toDigits_of_lt_base hlt]
      rfl
    · have hmore : x / base ≠ 0 := (Nat.div_pos hle (Nat.zero_lt_of_lt hbase)).ne'
      have hsmall : x / base < base ^ (room + 1) := by
        rw [Nat.pow_succ] at hx
        exact Nat.div_lt_of_lt_mul (by rwa [Nat.mul_comm])
      rw [if_pos hmore, ih hsmall, hlast]
      · unfold digitText
        rw [Nat.toDigits_of_base_le hbase hle, List.map_append, List.append_assoc]
        rfl
      · exact hdigit _ (Nat.mod_lt _ (Nat.zero_lt_of_lt hbase))

theorem decimalDigit_eq : ∀ d < 10, decimalDigit d = d.digitChar.toUInt8 := by decide

theorem hexDigit_eq : ∀ d < 16, hexDigit d = d.digitChar.toUInt8 := by decide

/-! ## Signs -/

theorem sign_bit_iff (w : UInt32) : w &&& 0x80000000 ≠ 0 ↔ signed w < 0 := by
  have hlt := w.toNat_lt
  have hbit : (w &&& 0x80000000).toNat = (w.toNat.testBit 31).toNat * 2 ^ 31 := by
    rw [UInt32.toNat_and]
    exact Nat.and_two_pow w.toNat 31
  have hne : w &&& 0x80000000 ≠ 0 ↔ (w &&& 0x80000000).toNat ≠ 0 := UInt32.toNat_inj.symm.not
  rw [hne, hbit, Nat.testBit_eq_decide_div_mod_eq]
  unfold signed
  rw [toInt_toInt32]
  split
  next hsmall =>
    rw [Nat.div_eq_of_lt hsmall]
    simp
  next hlarge =>
    have hone : w.toNat / 2 ^ 31 % 2 = 1 := by omega
    rw [hone]
    simp
    omega

theorem magnitude_eq (w : UInt32) :
    (if w &&& 0x80000000 ≠ 0 then ~~~w + 1 else w).toNat = (signed w).natAbs := by
  have hlt := w.toNat_lt
  have hneg := sign_bit_iff w
  have hvalue : signed w = if w.toNat < 2 ^ 31 then (w.toNat : Int) else w.toNat - 2 ^ 32 :=
    toInt_toInt32 w
  split
  next hset =>
    have hnegative := hneg.mp hset
    split at hvalue
    · omega
    · rw [UInt32.toNat_add, UInt32.toNat_not]
      simp only [UInt32.reduceToNat, UInt32.size]
      omega
  next hclear =>
    have hnonneg := hneg.not.mp hclear
    split at hvalue
    · omega
    · omega

/-! ## Loops over the buffer -/

/-- Below the end of the buffer, the loop stores what there is room for. -/
theorem putLoop_eq {out cs : List UInt8} (h : out.length < maxPrintSize) :
    putLoop out cs = out ++ cs.take (maxPrintSize - out.length) := by
  induction cs generalizing out with
  | nil => simp [putLoop]
  | cons c cs ih =>
    have hroom : maxPrintSize - out.length = maxPrintSize - (out ++ [c]).length + 1 := by
      rw [List.length_append, List.length_singleton]
      omega
    unfold putLoop
    rw [hroom, List.take_succ_cons]
    split
    next hfull => simp [hfull]
    next hfull =>
      have hlt : (out ++ [c]).length < maxPrintSize := by
        rw [List.length_append, List.length_singleton] at hfull ⊢
        omega
      rw [ih hlt, List.append_assoc]
      rfl

/-- Behind the end of the buffer, the test of the loop does not fire. -/
theorem putLoop_behind {out cs : List UInt8} (h : maxPrintSize ≤ out.length) :
    putLoop out cs = out ++ cs := by
  induction cs generalizing out with
  | nil => simp [putLoop]
  | cons c cs ih =>
    have hlt : maxPrintSize < (out ++ [c]).length := by
      rw [List.length_append, List.length_singleton]
      omega
    unfold putLoop
    rw [if_neg hlt.ne', ih hlt.le, List.append_assoc]
    rfl

/-! ## One conversion -/

theorem Field.sign_length_le (f : Field) : f.sign.length ≤ 1 := by
  unfold Field.sign
  split
  · exact le_refl _
  · exact Nat.zero_le _

theorem putPadding_eq {padValue padLen printedSize : UInt8} (out : List UInt8) :
    putPadding padValue padLen printedSize out =
      putLoop out (List.replicate (padLen.toNat - printedSize.toNat) padValue) := by
  unfold putPadding
  split
  next hgt => rfl
  next hle =>
    have hzero : padLen.toNat - printedSize.toNat = 0 :=
      Nat.sub_eq_zero_of_le (UInt8.le_iff_toNat_le.mp (UInt8.not_lt.mp hle))
    rw [hzero, List.replicate_zero]
    rfl

theorem putField_plain (out cs : List UInt8) : putField out (.plain cs) = putLoop out cs := by
  simp [putField, Field.sign, Field.plain, putLoop]

theorem putLoop_one (out : List UInt8) (c : UInt8) : putLoop out [c] = out ++ [c] := by
  simp [putLoop]

/-- The test behind a single character does not fire, unless there was one place left. -/
theorem length_put_ne {out : List UInt8} (h : out.length ≠ maxPrintSize - 1) (c : UInt8) :
    (out ++ [c]).length ≠ maxPrintSize := by
  rw [List.length_append, List.length_singleton]
  unfold maxPrintSize at h ⊢
  omega

/-- The digits of a 32-bit number fit into `int_buffer`, in base 10 and in base 16. -/
theorem digits_of_word {base : Nat} {digit : Nat → UInt8} {x : Nat} (hbase : 10 ≤ base)
    (hdigit : ∀ d < base, digit d = d.digitChar.toUInt8) (hx : x < 2 ^ 32) :
    digitsLoop base digit 10 x [] = some (digitText base x) ∧ (digitText base x).length ≤ 10 := by
  have hpow : 10 ^ (9 + 1) ≤ base ^ (9 + 1) := Nat.pow_le_pow_left hbase _
  have hlt : x < base ^ (9 + 1) := by omega
  have hone : 1 < base := by omega
  refine ⟨?_, length_digitText_le hone (by decide) hlt⟩
  rw [digitsLoop_eq hone hdigit hlt, List.append_nil]

/-- The padding fills up a field of a sign and digits, which `printed_size` counts. -/
theorem putPadded_eq {padValue padLen printedSize : UInt8} {out body : List UInt8} {negative : Bool}
    (hsize : printedSize.toNat = (if negative then 1 else 0) + body.length) :
    putLoop (putPadding padValue padLen printedSize
      (if negative then out ++ ['-'.toUInt8] else out)) body =
      putField out (.number padValue padLen negative body) := by
  rw [putPadding_eq, hsize]
  cases negative with
  | false => simp [putField, Field.number, Field.sign]
  | true => rfl

theorem natAbs_signed_lt (w : UInt32) : (signed w).natAbs < 2 ^ 32 := by
  have hlt := w.toNat_lt
  have hvalue : signed w = if w.toNat < 2 ^ 31 then (w.toNat : Int) else w.toNat - 2 ^ 32 :=
    toInt_toInt32 w
  split at hvalue
  · omega
  · omega

/-- The conversion `%d`. -/
theorem convert_decimal (padValue padLen : UInt8) (arg : Arg) {out : List UInt8}
    (h : out.length ≠ maxPrintSize - 1) :
    convert padValue padLen arg out .decimal =
      some (false, putField out (fieldOf padValue padLen arg .decimal)) := by
  obtain ⟨hdigits, hlength⟩ := digits_of_word (le_refl 10) decimalDigit_eq (natAbs_signed_lt arg.word)
  have hmagnitude := magnitude_eq arg.word
  have hsign := sign_bit_iff arg.word
  unfold convert fieldOf
  by_cases hset : arg.word &&& 0x80000000 ≠ 0
  · have hsize : (1 + UInt8.ofNat (digitText 10 (signed arg.word).natAbs).length).toNat =
        (if true then 1 else 0) + (digitText 10 (signed arg.word).natAbs).length := by
      rw [UInt8.toNat_add, UInt8.toNat_ofNat', if_pos rfl]
      simp only [UInt8.reduceToNat]
      omega
    rw [if_pos hset] at hmagnitude
    simp only [if_pos hset, decide_eq_true (hsign.mp hset)]
    rw [if_neg (fun hfull => length_put_ne h _ hfull.2), hmagnitude, hdigits, Option.map_some,
      ← putPadded_eq hsize]
    rfl
  · have hsize : (0 + UInt8.ofNat (digitText 10 (signed arg.word).natAbs).length).toNat =
        (if false then 1 else 0) + (digitText 10 (signed arg.word).natAbs).length := by
      rw [UInt8.toNat_add, UInt8.toNat_ofNat', if_neg Bool.false_ne_true]
      simp only [UInt8.reduceToNat]
      omega
    rw [if_neg hset] at hmagnitude
    simp only [if_neg hset, decide_eq_false (hsign.not.mp hset)]
    rw [if_neg (fun hfull => hset hfull.1), hmagnitude, hdigits, Option.map_some,
      ← putPadded_eq hsize]
    rfl

/-- The conversions `%x` and `%p`. -/
theorem convert_hex (padValue padLen : UInt8) (arg : Arg) (out : List UInt8) :
    convert padValue padLen arg out .hex =
      some (false, putField out (fieldOf padValue padLen arg .hex)) := by
  obtain ⟨hdigits, hlength⟩ := digits_of_word (by decide) hexDigit_eq arg.word.toNat_lt
  have hsize : (UInt8.ofNat (digitText 16 arg.word.toNat).length).toNat =
      (if false then 1 else 0) + (digitText 16 arg.word.toNat).length := by
    rw [UInt8.toNat_ofNat', if_neg Bool.false_ne_true]
    omega
  unfold convert fieldOf
  rw [hdigits, Option.map_some, ← putPadded_eq hsize]
  rfl

/-- A conversion puts its field out, and does not leave the main loop, unless there is one place
left in the buffer. -/
theorem convert_eq (padValue padLen : UInt8) (arg : Arg) {out : List UInt8}
    (h : out.length ≠ maxPrintSize - 1) (conversion : Conversion) :
    convert padValue padLen arg out conversion =
      some (false, putField out (fieldOf padValue padLen arg conversion)) := by
  cases conversion with
  | decimal => exact convert_decimal padValue padLen arg h
  | longHex =>
    have hlt : arg.long.toNat < 16 ^ (17 + 1) := arg.long.toNat_lt.trans (by decide)
    have hdigits := digitsLoop_eq (by decide) hexDigit_eq hlt []
    unfold convert fieldOf
    rw [hdigits, List.append_nil, putField_plain]
    rfl
  | hex => exact convert_hex padValue padLen arg out
  | char =>
    unfold convert fieldOf
    rw [putField_plain, putLoop_one]
    simp only [decide_eq_false (length_put_ne h _)]
  | percent =>
    unfold convert fieldOf
    rw [putField_plain, putLoop_one]
    simp only [decide_eq_false (length_put_ne h _)]
  | text =>
    unfold convert fieldOf
    rw [putField_plain]
  | unknown =>
    unfold convert fieldOf
    rw [putField_plain]
    rfl

/-! ## The main loop -/

theorem widthLoop_length (padLen : UInt8) (string : List UInt8) :
    (widthLoop padLen string).2.length ≤ string.length := by
  induction string generalizing padLen with
  | nil => exact le_refl _
  | cons c string ih =>
    unfold widthLoop
    split
    · exact (ih _).trans (Nat.le_succ _)
    · exact le_refl _

theorem padding_length (string : List UInt8) : (padding string).string.length ≤ string.length := by
  unfold padding
  simp only
  split
  · refine (widthLoop_length _ _).trans ?_
    rw [List.length_tail]
    exact Nat.sub_le _ _
  · exact le_refl _

/-- Every turn steps over a character of the format. -/
theorem nextField_length {ap : Nat → Arg} {string : List UInt8} {n : Nat} {next : Next}
    (h : nextField ap string n = some next) : next.string.length < string.length := by
  unfold nextField at h
  by_cases hnul : string.headD 0 = 0
  · rw [if_pos hnul] at h
    cases h
  · have hpos : 0 < string.length := by
      cases string with
      | nil => exact absurd rfl hnul
      | cons c string => exact Nat.succ_pos _
    have hle := padding_length string.tail
    rw [List.length_tail] at hle
    rw [if_neg hnul] at h
    by_cases hpercent : string.headD 0 = '%'.toUInt8
    · rw [if_pos hpercent] at h
      cases h
      simp only [List.length_drop]
      omega
    · rw [if_neg hpercent] at h
      cases h
      simp only [List.length_tail]
      omega

/-- One turn of the main loop puts the next field out. -/
theorem vsprintfLoop_turn {ap : Nat → Arg} {out : List UInt8} (h : out.length ≠ maxPrintSize - 1)
    (turns : Nat) (string : List UInt8) (n : Nat) :
    vsprintfLoop ap (turns + 1) string n out =
      (nextField ap string n).elim (some out) fun next =>
        if (putField out next.field).length = maxPrintSize - 1 then some (putField out next.field)
        else vsprintfLoop ap turns next.string next.taken (putField out next.field) := by
  conv_lhs => unfold vsprintfLoop
  unfold nextField
  simp only [convert_eq _ _ _ h, Option.bind_some, Bool.false_eq_true, false_or, length_put_ne h]
  by_cases hnul : string.headD 0 = 0
  · rw [if_pos hnul, if_pos hnul]
    rfl
  · rw [if_neg hnul, if_neg hnul]
    by_cases hpercent : string.headD 0 = '%'.toUInt8
    · rw [if_pos hpercent, if_pos hpercent]
      rfl
    · rw [if_neg hpercent, if_neg hpercent, Option.elim_some, putField_plain, putLoop_one]

theorem vsprintfLoop_eq {ap : Nat → Arg} {turns n : Nat} {string out : List UInt8}
    (h : out.length ≠ maxPrintSize - 1) (hturns : string.length < turns) :
    vsprintfLoop ap turns string n out = some (putFields out (fieldsLoop ap turns string n)) := by
  induction turns generalizing string n out with
  | zero => exact absurd hturns (Nat.not_lt_zero _)
  | succ turns ih =>
    rw [vsprintfLoop_turn h]
    unfold fieldsLoop
    cases hnext : nextField ap string n with
    | none => rfl
    | some next =>
      have hlength := nextField_length hnext
      rw [Option.elim_some, Option.elim_some]
      unfold putFields
      split
      next hfull => rfl
      next hfull => exact ih hfull (by omega)

/-- `vsprintf` returns, and puts out the fields of the format. -/
theorem vsprintf_eq (string : List UInt8) (ap : Nat → Arg) :
    vsprintf string ap = some (putFields [] (fields string ap)) :=
  vsprintfLoop_eq (by decide) (Nat.lt_succ_self _)

end Vmwos.Printf
