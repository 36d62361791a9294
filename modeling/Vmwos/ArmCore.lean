import Mathlib.Logic.Relation
import Vmwos.Arm

/-!
# ARM programs

Instructions of user programs over all registers, with the flags of `Arm.Cpu`. A program has a
block of instructions for each label, and a block ends with the label it goes on with, or ends the
program.

`Code.Reaches` is what the blocks do one after the other.
-/

namespace Arm

universe u

/-! ## Definitions -/

inductive Register
  | r0 | r1 | r2 | r3 | r4 | r5 | r6 | r7 | r8 | r9 | r10 | r11 | r12
  deriving DecidableEq

/-- The processor of a user program, with the bytes that it has written to files. The link register
is not there: a label that is called has the label in it as a parameter. -/
structure Core where
  reg : Register → UInt32
  n : Bool
  z : Bool
  c : Bool
  v : Bool
  mem : Memory
  stack : List UInt32
  written : List (UInt32 × List UInt8)

namespace Core

/-- The flags, and what a condition says of them. -/
def cpu (s : Core) : Cpu := ⟨fun _ => 0, s.n, s.z, s.c, s.v, s.mem, [], false⟩

def holds (s : Core) (cond : Cond) : Bool := s.cpu.holds cond

def withFlags (s : Core) (cpu : Cpu) : Core := { s with n := cpu.n, z := cpu.z, c := cpu.c, v := cpu.v }

def set (s : Core) (d : Register) (w : UInt32) : Core := { s with reg := Function.update s.reg d w }

/-- `mov d, #imm` -/
def mov (s : Core) (d : Register) (imm : UInt32) : Core := s.set d imm

/-- `add d, m, #imm` -/
def add (s : Core) (d m : Register) (imm : UInt32) : Core := s.set d (s.reg m + imm)

/-- `sub d, m, #imm` -/
def sub (s : Core) (d m : Register) (imm : UInt32) : Core := s.set d (s.reg m - imm)

/-- `sub d, m, m'` -/
def subReg (s : Core) (d m m' : Register) : Core := s.set d (s.reg m - s.reg m')

/-- `add d, m, m', lsr #k` -/
def addLsr (s : Core) (d m m' : Register) (k : UInt32) : Core := s.set d (s.reg m + s.reg m' >>> k)

/-- `sub d, m, m', lsr #k` -/
def subLsr (s : Core) (d m m' : Register) (k : UInt32) : Core := s.set d (s.reg m - s.reg m' >>> k)

/-- `orr d, m, #imm` -/
def orr (s : Core) (d m : Register) (imm : UInt32) : Core := s.set d (s.reg m ||| imm)

/-- `orr d, m, m', lsl #k` -/
def orrLsl (s : Core) (d m m' : Register) (k : UInt32) : Core := s.set d (s.reg m ||| s.reg m' <<< k)

/-- `lsl d, #k` -/
def lsl (s : Core) (d : Register) (k : UInt32) : Core := s.set d (s.reg d <<< k)

/-- `lsr d, #k` -/
def lsr (s : Core) (d : Register) (k : UInt32) : Core := s.set d (s.reg d >>> k)

/-- `lsrs d, #1`: the lowest bit goes into the carry. -/
def lsrs (s : Core) (d : Register) : Core :=
  { s with
    n := negative (s.reg d >>> 1)
    z := s.reg d >>> 1 == 0
    c := s.reg d &&& 1 == 1 }.set d (s.reg d >>> 1)

/-- `mul d, m, m'` -/
def mul (s : Core) (d m m' : Register) : Core := s.set d (s.reg m * s.reg m')

/-- `umull lo, hi, m, m'` -/
def umull (s : Core) (lo hi m m' : Register) : Core :=
  (s.set lo (s.reg m * s.reg m')).set hi
    (UInt32.ofNat ((s.reg m).toNat * (s.reg m').toNat / 2 ^ 32))

/-- `cmp m, #imm` -/
def cmp (s : Core) (m : Register) (imm : UInt32) : Core := s.withFlags (s.cpu.subFlags (s.reg m) imm)

/-- `cmp m, m'` -/
def cmpReg (s : Core) (m m' : Register) : Core :=
  s.withFlags (s.cpu.subFlags (s.reg m) (s.reg m'))

/-- `subs d, m, #imm` -/
def subs (s : Core) (d m : Register) (imm : UInt32) : Core := (s.cmp m imm).set d (s.reg m - imm)

/-- `adds d, m, #0`: nothing is carried. -/
def addsZero (s : Core) (d m : Register) : Core :=
  { s with n := negative (s.reg m), z := s.reg m == 0, c := false, v := false }.set d (s.reg m)

/-- `ldrb d, [base], #imm` -/
def ldrbPost (s : Core) (d base : Register) (imm : UInt32) : Core :=
  (s.set base (s.reg base + imm)).set d (s.mem (s.reg base)).toUInt32

/-- `ldrb d, [base, m]` -/
def ldrbReg (s : Core) (d base m : Register) : Core :=
  s.set d (s.mem (s.reg base + s.reg m)).toUInt32

/-- A word of memory. -/
def loadWord (m : Memory) (a : UInt32) : UInt32 :=
  (m a).toUInt32 ||| (m (a + 1)).toUInt32 <<< 8 ||| (m (a + 2)).toUInt32 <<< 16 |||
    (m (a + 3)).toUInt32 <<< 24

/-- `ldr d, [base, #imm]` -/
def ldr (s : Core) (d base : Register) (imm : UInt32) : Core :=
  s.set d (loadWord s.mem (s.reg base + imm))

def storeByte (s : Core) (a : UInt32) (b : UInt8) : Core := { s with mem := Function.update s.mem a b }

/-- `strb m, [base], #imm` -/
def strbPost (s : Core) (m base : Register) (imm : UInt32) : Core :=
  (s.storeByte (s.reg base) (s.reg m).toUInt8).set base (s.reg base + imm)

/-- `strb m, [base, m']` -/
def strbReg (s : Core) (m base m' : Register) : Core :=
  s.storeByte (s.reg base + s.reg m') (s.reg m).toUInt8

/-- `stmfd sp!, {regs}` -/
def stmfd (s : Core) (regs : List Register) : Core := { s with stack := regs.map s.reg ++ s.stack }

/-- `ldmfd sp!, {regs}` -/
def ldmfd (s : Core) : List Register → Core
  | [] => s
  | m :: regs => ({ s with stack := s.stack.tail }.set m (s.stack.headD 0)).ldmfd regs

/-- `n` bytes from `a` on. -/
def bytes (s : Core) (a : UInt32) (n : Nat) : List UInt8 :=
  (List.range n).map fun i => s.mem (a + UInt32.ofNat i)

/-- `swi 0` for `write`: all bytes are written, and their number is returned. -/
def write (s : Core) : Core :=
  { s with written := s.written ++ [(s.reg .r0, s.bytes (s.reg .r1) (s.reg .r2).toNat)] }.set .r0
    (s.reg .r2)

end Core

/-- The blocks of a program, and the label that each goes on with. -/
abbrev Code (L : Type u) := L → Core → Option (L × Core)

/-- The program gets from one block to another one. -/
def Code.Reaches {L : Type u} (code : Code L) : L × Core → L × Core → Prop :=
  Relation.ReflTransGen fun a b => code a.1 a.2 = some b

/-! ## Runs -/

variable {L : Type u} {code : Code L} {a b c : L × Core}

theorem Code.Reaches.refl : code.Reaches a a := Relation.ReflTransGen.refl

theorem Code.Reaches.trans (h : code.Reaches a b) (h' : code.Reaches b c) : code.Reaches a c :=
  Relation.ReflTransGen.trans h h'

theorem Code.Reaches.step (h : code a.1 a.2 = some b) (h' : code.Reaches b c) : code.Reaches a c :=
  Relation.ReflTransGen.head h h'

/-! ## Registers and memory -/

variable {s : Core}

@[simp] theorem Core.reg_set (s : Core) (d r : Register) (w : UInt32) :
    (s.set d w).reg r = if r = d then w else s.reg r := by
  unfold Core.set Function.update
  simp

@[simp] theorem Core.mem_set (s : Core) (d : Register) (w : UInt32) : (s.set d w).mem = s.mem := rfl

@[simp] theorem Core.bytes_set (s : Core) (d : Register) (w a : UInt32) (n : Nat) :
    (s.set d w).bytes a n = s.bytes a n := rfl

@[simp] theorem Core.written_set (s : Core) (d : Register) (w : UInt32) :
    (s.set d w).written = s.written := rfl

@[simp] theorem Core.reg_withFlags (s : Core) (cpu : Cpu) : (s.withFlags cpu).reg = s.reg := rfl

@[simp] theorem Core.mem_withFlags (s : Core) (cpu : Cpu) : (s.withFlags cpu).mem = s.mem := rfl

@[simp] theorem Core.reg_storeByte (s : Core) (a : UInt32) (b : UInt8) :
    (s.storeByte a b).reg = s.reg := rfl

@[simp] theorem Core.mem_storeByte (s : Core) (a : UInt32) (b : UInt8) :
    (s.storeByte a b).mem = Function.update s.mem a b := rfl

/-! ## Conditions -/

@[simp] theorem Core.holds_set (s : Core) (d : Register) (w : UInt32) (cond : Cond) :
    (s.set d w).holds cond = s.holds cond := by
  cases cond <;> rfl

theorem Core.holds_withFlags (s : Core) (cpu : Cpu) (cond : Cond) :
    (s.withFlags cpu).holds cond = cpu.holds cond := by
  cases cond <;> rfl

/-- A comparison of numbers below 2^31. -/
theorem Core.holds_cmp {m : Register} {imm : UInt32} (hm : (s.reg m).toNat < 2 ^ 31)
    (himm : imm.toNat < 2 ^ 31) : (s.cmp m imm).holds .gt ↔ imm.toNat < (s.reg m).toNat := by
  rw [Core.cmp, holds_withFlags]
  exact (holds_subFlags hm himm).2.2.2.1

theorem Core.holds_cmpReg {m m' : Register} (hm : (s.reg m).toNat < 2 ^ 31)
    (hm' : (s.reg m').toNat < 2 ^ 31) :
    (s.cmpReg m m').holds .ge ↔ (s.reg m').toNat ≤ (s.reg m).toNat := by
  rw [Core.cmpReg, holds_withFlags]
  exact (holds_subFlags hm hm').2.2.1

theorem Core.holds_cmp_ne (m : Register) (imm : UInt32) :
    (s.cmp m imm).holds .ne ↔ s.reg m ≠ imm := by
  rw [Core.cmp, holds_withFlags]
  show (!(s.reg m - imm == 0)) = true ↔ _
  rw [Bool.not_eq_true', beq_eq_false_iff_ne, ne_eq, UInt32.sub_eq_iff_eq_add, UInt32.zero_add]

end Arm
