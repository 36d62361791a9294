import Vmwos.ArmCore
import Vmwos.SlidingWindow

/-!
# The logo program

`ll.arm.eabi.s` prints a compressed logo and then a few lines about the machine. The blocks here
are the decompression of the logo, the routines `write_stdout`, `strcat` and `num_to_ascii`, and
the branches between them.

The logo is a stream of bytes. A byte of eight flags comes before up to eight items, which are
single characters or pairs of bytes for a match: `items` is the format, and `tokens` has the
matches as distances.
-/

namespace Vmwos.Logo

open Arm SlidingWindow

/-! ## The program -/

def N : Nat := 1024
def F : Nat := 64
def THRESHOLD : UInt32 := 2
def P_BITS : UInt32 := 10

/-- The labels. A routine has the label that its caller goes on with. -/
inductive Label
  | decompressionLoop | testFlags | discreteChar | offsetLength | outputLoop | storeByte
  | doneLogo | firstLine
  | writeStdout (lr : Label) | strLoop1 (lr : Label) | writeStdoutWeKnowSize (lr : Label)
  | strcat (lr : Label)
  | numToAscii (lr : Label) | divBy10 (lr : Label) | writeOut (lr : Label)
  deriving DecidableEq

/-- The blocks. The model ends where the version is printed. -/
def code : Code Label
  | .decompressionLoop, s =>
    let s := s.ldrbPost .r4 .r3 1
    let s := s.orr .r5 .r4 0x8000
    some (.testFlags, s)
  | .testFlags, s =>
    let s := s.cmpReg .r3 .r8
    if s.holds .ge then some (.doneLogo, s) else some (.discreteChar, s.lsrs .r5)
  | .discreteChar, s =>
    let s := if s.c then s.ldrbPost .r4 .r3 1 else s
    let s := if s.c then s.mov .r6 1 else s
    if s.c then some (.storeByte, s) else some (.offsetLength, s)
  | .offsetLength, s =>
    let s := s.ldrbPost .r0 .r3 1
    let s := s.ldrbPost .r7 .r3 1
    let s := s.orrLsl .r7 .r0 .r7 8
    let s := s.mov .r0 (THRESHOLD + 1)
    some (.outputLoop, s.addLsr .r6 .r0 .r7 P_BITS)
  | .outputLoop, s =>
    let s := s.lsl .r7 22
    let s := s.lsr .r7 22
    let s := s.ldrbReg .r4 .r9 .r7
    some (.storeByte, s.add .r7 .r7 1)
  | .storeByte, s =>
    let s := s.strbPost .r4 .r1 1
    let s := s.strbReg .r4 .r9 .r2
    let s := s.add .r2 .r2 1
    let s := s.lsl .r2 22
    let s := s.lsr .r2 22
    let s := s.subs .r6 .r6 1
    if s.holds .ne then some (.outputLoop, s)
    else
      let s := s.cmp .r5 0xff
      if s.holds .gt then some (.testFlags, s) else some (.decompressionLoop, s)
  -- `out_addr` is the first word from `bss_begin` on
  | .doneLogo, s => some (.writeStdout .firstLine, s.ldr .r1 .r12 0)
  | .firstLine, _ => none
  | .writeStdout lr, s => some (.strLoop1 lr, s.mov .r2 0)
  | .strLoop1 lr, s =>
    let s := s.add .r2 .r2 1
    let s := s.ldrbReg .r3 .r1 .r2
    let s := s.cmp .r3 0
    if s.holds .ne then some (.strLoop1 lr, s) else some (.writeStdoutWeKnowSize lr, s)
  | .writeStdoutWeKnowSize lr, s =>
    let s := s.mov .r0 1
    let s := s.mov .r7 4
    some (lr, s.write)
  | .strcat lr, s =>
    let s := s.ldrbPost .r3 .r1 1
    let s := s.strbPost .r3 .r10 1
    let s := s.cmp .r3 0
    if s.holds .ne then some (.strcat lr, s) else some (lr, s.sub .r10 .r10 1)
  | .numToAscii lr, s =>
    let s := s.stmfd [.r10]
    -- `ascii_buffer` is 4 bytes behind `bss_begin`
    let s := s.add .r10 .r12 4
    some (.divBy10 lr, s.add .r10 .r10 10)
  | .divBy10 lr, s =>
    let s := s.mov .r4 429496730
    let s := s.subLsr .r5 .r3 .r3 30
    let s := s.umull .r8 .r7 .r4 .r5
    let s := s.mov .r4 10
    let s := s.mul .r8 .r7 .r4
    let s := s.subReg .r8 .r3 .r8
    let s := s.add .r8 .r8 0x30
    let s := s.strbPost .r8 .r10 (-1)
    let s := s.addsZero .r3 .r7
    if s.holds .ne then some (.divBy10 lr, s) else some (.writeOut lr, s)
  | .writeOut lr, s =>
    let s := s.add .r1 .r10 1
    let s := s.ldmfd [.r10]
    let s := s.cmp .r0 0
    if s.holds .ne then some (.strcat lr, s) else some (.writeStdout lr, s)

/-! ## The format -/

/-- The lowest `n` bits, from the lowest one on. -/
def bitsOf : Nat → Nat → List Bool
  | 0, _ => []
  | n + 1, flags => (flags % 2 == 1) :: bitsOf n (flags / 2)

/-- A character, or a match: a position in `text_buf` and a length. -/
inductive Item
  | char (c : UInt8)
  | «match» (position len : Nat)
  deriving DecidableEq, Repr

def Item.length : Item → Nat
  | .char _ => 1
  | .match _ len => len

/-- The match of two bytes. The position has 10 bits and the length 6. -/
def matchOf (lo hi : UInt8) : Item := .match (lo.toNat + 256 * (hi.toNat % 4)) (hi.toNat / 4 + 3)

/-- The items of a stream, with the flags that are left. Flags behind the last item do not count. -/
def items : List Bool → List UInt8 → Option (List Item)
  | _, [] => some []
  | [], flags :: bytes => items (bitsOf 8 flags.toNat) bytes
  | true :: bits, c :: bytes => (items bits bytes).map (.char c :: ·)
  | false :: _, [_] => none
  | false :: bits, lo :: hi :: bytes => (items bits bytes).map (matchOf lo hi :: ·)

/-- The position in `text_buf` behind `len` characters. -/
def writePosition (len : Nat) : Nat := (N - F + len) % N

/-- An item, with the distance from what is out. -/
def Item.token (out : List UInt8) : Item → Token UInt8
  | .char c => .literal c
  | .match position len => .copy (distance N (writePosition out.length) position) len

def tokens : List UInt8 → List Item → List (Token UInt8)
  | _, [] => []
  | out, item :: rest => item.token out :: tokens (emit 0 out (item.token out)) rest

end Vmwos.Logo
