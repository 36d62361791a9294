import Mathlib.Data.Nat.Bitwise
import Mathlib.Logic.Function.Basic
import Mathlib.Tactic.Linarith

/-!
# ARM instructions

The 32-bit ARM instructions that store to memory, with the condition flags. Each is a
function on the state of the processor. Addresses are 32 bits wide and wrap, and a word is
stored with its low byte first. A word store to an address that is not a multiple of 4 is
recorded as a fault. The stack is kept apart from the memory.

* `holds_subFlags`: what the flags of a subtraction mean for numbers below 2^31;
* `fill_fill`: filling goes on where it has ended;
* `Cpu.Fills`: the state after filling, with one rule for each store.
-/

namespace Arm

/-! ## Definitions -/

abbrev Memory := UInt32 → UInt8

inductive Reg
  | r0 | r1 | r2 | r3 | r4 | r5 | r6 | r7 | r8 | ip | lr
  deriving DecidableEq

inductive Cond
  | eq | ne | lt | le | ge | gt
  deriving DecidableEq

structure Cpu where
  reg : Reg → UInt32
  n : Bool
  z : Bool
  c : Bool
  v : Bool
  mem : Memory
  stack : List UInt32
  faulted : Bool

/-- The sign bit of a word. -/
def negative (w : UInt32) : Bool := 2 ^ 31 ≤ w.toNat

namespace Cpu

/-- Whether a condition holds of the flags. -/
def holds (s : Cpu) : Cond → Bool
  | .eq => s.z
  | .ne => !s.z
  | .lt => s.n != s.v
  | .le => s.z || s.n != s.v
  | .ge => s.n == s.v
  | .gt => !s.z && s.n == s.v

/-- An instruction under a condition. -/
def on (s : Cpu) (cond : Cond) (instr : Cpu → Cpu) : Cpu := if s.holds cond then instr s else s

def set (s : Cpu) (d : Reg) (w : UInt32) : Cpu := { s with reg := Function.update s.reg d w }

/-- The flags of a logical result. A small immediate leaves the carry. -/
def logicFlags (s : Cpu) (w : UInt32) : Cpu := { s with n := negative w, z := w == 0 }

/-- The flags of `a - b`. -/
def subFlags (s : Cpu) (a b : UInt32) : Cpu :=
  { s with
    n := negative (a - b)
    z := a - b == 0
    c := b ≤ a
    v := negative a != negative b && negative (a - b) != negative a }

/-- `ands d, m, #imm` -/
def ands (s : Cpu) (d m : Reg) (imm : UInt32) : Cpu :=
  (s.logicFlags (s.reg m &&& imm)).set d (s.reg m &&& imm)

/-- `tst m, #imm` -/
def tst (s : Cpu) (m : Reg) (imm : UInt32) : Cpu := s.logicFlags (s.reg m &&& imm)

/-- `subs d, m, #imm` -/
def subs (s : Cpu) (d m : Reg) (imm : UInt32) : Cpu :=
  (s.subFlags (s.reg m) imm).set d (s.reg m - imm)

/-- `cmp m, #imm` -/
def cmp (s : Cpu) (m : Reg) (imm : UInt32) : Cpu := s.subFlags (s.reg m) imm

/-- `add d, m, m'` -/
def add (s : Cpu) (d m m' : Reg) : Cpu := s.set d (s.reg m + s.reg m')

/-- `mov d, m` -/
def mov (s : Cpu) (d m : Reg) : Cpu := s.set d (s.reg m)

/-- `orr d, m, m', lsl #k` -/
def orrLsl (s : Cpu) (d m m' : Reg) (k : UInt32) : Cpu := s.set d (s.reg m ||| s.reg m' <<< k)

/-- `strb m, [base], #1` -/
def strb (s : Cpu) (m base : Reg) : Cpu :=
  { s with mem := Function.update s.mem (s.reg base) (s.reg m).toUInt8 }.set base (s.reg base + 1)

/-- A word in memory. -/
def storeWord (m : Memory) (a w : UInt32) : Memory :=
  Function.update (Function.update (Function.update (Function.update m a w.toUInt8)
    (a + 1) (w >>> 8).toUInt8) (a + 2) (w >>> 16).toUInt8) (a + 3) (w >>> 24).toUInt8

/-- `str m, [base], #4` -/
def str (s : Cpu) (m base : Reg) : Cpu :=
  { s with
    mem := storeWord s.mem (s.reg base) (s.reg m)
    faulted := s.faulted || s.reg base % 4 != 0 }.set base (s.reg base + 4)

/-- `stmia base!, {regs}` -/
def stmia (s : Cpu) (base : Reg) (regs : List Reg) : Cpu := regs.foldl (fun s m => s.str m base) s

/-- `stmfd sp!, {regs}` -/
def stmfd (s : Cpu) (regs : List Reg) : Cpu := { s with stack := regs.map s.reg ++ s.stack }

/-- `ldmfd sp!, {regs}` -/
def ldmfd (s : Cpu) : List Reg → Cpu
  | [] => s
  | m :: regs => ({ s with stack := s.stack.tail }.set m (s.stack.headD 0)).ldmfd regs

end Cpu

/-- The memory with `n` bytes `c` from `a` on. -/
def fill (m : Memory) (a : UInt32) (n : Nat) (c : UInt8) : Memory := fun x =>
  if (x - a).toNat < n then c else m x

/-- All four bytes of the word are `c`. -/
def Pattern (w : UInt32) (c : UInt8) : Prop :=
  w.toUInt8 = c ∧ (w >>> 8).toUInt8 = c ∧ (w >>> 16).toUInt8 = c ∧ (w >>> 24).toUInt8 = c

/-- `k` bytes from `a` on are filled with `c`, the base register is behind them, and no store has
faulted. -/
structure Cpu.Fills (s : Cpu) (base : Reg) (m : Memory) (a : UInt32) (c : UInt8) (k : Nat) : Prop where
  mem_eq : s.mem = fill m a k c
  base_eq : s.reg base = a + UInt32.ofNat k
  ok : s.faulted = false

/-! ## Flags -/

variable {s : Cpu}

theorem negative_eq_false {w : UInt32} (h : w.toNat < 2 ^ 31) : negative w = false :=
  decide_eq_false (Nat.not_le.mpr h)

/-- A subtraction of numbers below 2^31 does not overflow, and is negative as it should be. -/
theorem subFlags_small {a b : UInt32} (ha : a.toNat < 2 ^ 31) (hb : b.toNat < 2 ^ 31) :
    (s.subFlags a b).n = decide (a.toNat < b.toNat) ∧ (s.subFlags a b).v = false ∧
      (s.subFlags a b).z = decide (a.toNat = b.toNat) := by
  have hsub : (a - b).toNat = (2 ^ 32 - b.toNat + a.toNat) % 2 ^ 32 := UInt32.toNat_sub a b
  refine ⟨?_, ?_, ?_⟩
  · show decide (2 ^ 31 ≤ (a - b).toNat) = _
    rw [hsub, decide_eq_decide]
    omega
  · show (negative a != negative b && _) = false
    rw [negative_eq_false ha, negative_eq_false hb]
    rfl
  · have hzero : a - b = 0 ↔ a.toNat = b.toNat := by
      rw [← UInt32.toNat_inj, hsub]
      simp only [UInt32.toNat_zero]
      omega
    show (a - b == 0) = _
    rw [beq_eq_decide, decide_eq_decide]
    exact hzero

/-- The conditions after a subtraction of numbers below 2^31 are those of the numbers. -/
theorem holds_subFlags {a b : UInt32} (ha : a.toNat < 2 ^ 31) (hb : b.toNat < 2 ^ 31) :
    ((s.subFlags a b).holds .lt ↔ a.toNat < b.toNat) ∧
      ((s.subFlags a b).holds .le ↔ a.toNat ≤ b.toNat) ∧
      ((s.subFlags a b).holds .ge ↔ b.toNat ≤ a.toNat) ∧
      ((s.subFlags a b).holds .gt ↔ b.toNat < a.toNat) ∧
      ((s.subFlags a b).holds .eq ↔ a.toNat = b.toNat) := by
  obtain ⟨hn, hv, hz⟩ := subFlags_small (s := s) ha hb
  unfold Cpu.holds
  simp only [hn, hv, hz]
  simp
  omega

/-- A bit of a word, as `tst` sees it. -/
theorem holds_tst_ne (s : Cpu) (r : Reg) {k : Nat} {imm : UInt32} (himm : imm.toNat = 2 ^ k) :
    (s.tst r imm).holds .ne ↔ (s.reg r).toNat / 2 ^ k % 2 = 1 := by
  have hbit : (s.reg r &&& imm).toNat = ((s.reg r).toNat.testBit k).toNat * 2 ^ k := by
    rw [UInt32.toNat_and, himm, Nat.and_two_pow]
  have hzero : s.reg r &&& imm = 0 ↔ (s.reg r).toNat.testBit k = false := by
    rw [← UInt32.toNat_inj, hbit]
    cases (s.reg r).toNat.testBit k with
    | false => simp
    | true => simp
  show (!(s.reg r &&& imm == 0)) = true ↔ _
  rw [Bool.not_eq_true', beq_eq_false_iff_ne, ne_eq, hzero, Nat.testBit_eq_decide_div_mod_eq]
  simp

/-! ## Filling -/

variable {m : Memory} {a : UInt32} {c : UInt8} {k : Nat} {base r : Reg}

/-- Filling goes on where it has ended. -/
theorem fill_fill {j : Nat} (h : k + j ≤ 2 ^ 32) :
    fill (fill m a k c) (a + UInt32.ofNat k) j c = fill m a (k + j) c := by
  funext x
  have hx := x.toNat_lt
  have ha := a.toNat_lt
  unfold fill
  rw [UInt32.toNat_sub, UInt32.toNat_sub, UInt32.toNat_add, UInt32.toNat_ofNat']
  split_ifs <;> first | rfl | omega

theorem fill_one (m : Memory) (a : UInt32) (c : UInt8) : fill m a 1 c = Function.update m a c := by
  funext x
  have hx := x.toNat_lt
  have ha := a.toNat_lt
  have hiff : (x - a).toNat < 1 ↔ x = a := by
    rw [UInt32.toNat_sub, ← UInt32.toNat_inj]
    omega
  unfold fill Function.update
  simp only [hiff, eq_rec_constant, dite_eq_ite]

/-- A word of four equal bytes is filling. -/
theorem storeWord_eq {w : UInt32} (h : Pattern w c) : Cpu.storeWord m a w = fill m a 4 c := by
  obtain ⟨h₀, h₁, h₂, h₃⟩ := h
  have htwo : fill (fill m a 1 c) (a + 1) 1 c = fill m a 2 c := fill_fill (k := 1) (by decide)
  have hthree : fill (fill m a 2 c) (a + 2) 1 c = fill m a 3 c := fill_fill (k := 2) (by decide)
  have hfour : fill (fill m a 3 c) (a + 3) 1 c = fill m a 4 c := fill_fill (k := 3) (by decide)
  unfold Cpu.storeWord
  rw [h₀, h₁, h₂, h₃, ← fill_one, ← fill_one, ← fill_one, ← fill_one, htwo, hthree, hfour]

/-! ## Registers -/

@[simp] theorem reg_set_self (s : Cpu) (d : Reg) (w : UInt32) : (s.set d w).reg d = w :=
  Function.update_self _ _ _

@[simp] theorem reg_set_of_ne (s : Cpu) {d r : Reg} (h : r ≠ d) (w : UInt32) :
    (s.set d w).reg r = s.reg r :=
  Function.update_of_ne h _ _

theorem reg_subs_self (s : Cpu) (d r : Reg) (imm : UInt32) :
    (s.subs d r imm).reg d = s.reg r - imm :=
  reg_set_self _ _ _

theorem reg_subs_of_ne (s : Cpu) {d r r' : Reg} (h : r' ≠ d) (imm : UInt32) :
    (s.subs d r imm).reg r' = s.reg r' :=
  reg_set_of_ne _ h _

theorem holds_subs (s : Cpu) (d r : Reg) (imm : UInt32) (cond : Cond) :
    (s.subs d r imm).holds cond = (s.subFlags (s.reg r) imm).holds cond := by
  cases cond <;> rfl

/-- Filling is not touched by an instruction on another register. -/
theorem Cpu.Fills.set (h : s.Fills base m a c k) {d : Reg} (hd : base ≠ d) (w : UInt32) :
    (s.set d w).Fills base m a c k :=
  ⟨h.mem_eq, (reg_set_of_ne s hd w).trans h.base_eq, h.ok⟩

theorem Cpu.Fills.tst (h : s.Fills base m a c k) (r : Reg) (imm : UInt32) :
    (s.tst r imm).Fills base m a c k :=
  ⟨h.mem_eq, h.base_eq, h.ok⟩

theorem Cpu.Fills.cmp (h : s.Fills base m a c k) (r : Reg) (imm : UInt32) :
    (s.cmp r imm).Fills base m a c k :=
  ⟨h.mem_eq, h.base_eq, h.ok⟩

theorem Cpu.Fills.subs (h : s.Fills base m a c k) {d : Reg} (hd : base ≠ d) (r : Reg)
    (imm : UInt32) : (s.subs d r imm).Fills base m a c k :=
  (h.cmp r imm).set hd _

/-! ## Stores -/

theorem reg_strb (s : Cpu) {r' : Reg} (h : r' ≠ base) : (s.strb r base).reg r' = s.reg r' :=
  Function.update_of_ne h _ _

theorem reg_str (s : Cpu) {r' : Reg} (h : r' ≠ base) : (s.str r base).reg r' = s.reg r' :=
  Function.update_of_ne h _ _

theorem reg_stmia (s : Cpu) (regs : List Reg) {r' : Reg} (h : r' ≠ base) :
    (s.stmia base regs).reg r' = s.reg r' := by
  induction regs generalizing s with
  | nil => rfl
  | cons r regs ih => exact (ih (s.str r base)).trans (reg_str s h)

/-- Stores leave the flags. -/
theorem holds_strb (s : Cpu) (cond : Cond) : (s.strb r base).holds cond = s.holds cond := by
  cases cond <;> rfl

theorem holds_stmia (s : Cpu) (regs : List Reg) (cond : Cond) :
    (s.stmia base regs).holds cond = s.holds cond := by
  induction regs generalizing s with
  | nil => rfl
  | cons r regs ih =>
    refine (ih (s.str r base)).trans ?_
    cases cond <;> rfl

/-- A byte is stored. -/
theorem Cpu.Fills.strb (h : s.Fills base m a c k) (hr : (s.reg r).toUInt8 = c) (hk : k + 1 ≤ 2 ^ 32) :
    (s.strb r base).Fills base m a c (k + 1) where
  mem_eq := by
    show Function.update s.mem (s.reg base) (s.reg r).toUInt8 = _
    rw [hr, h.base_eq, h.mem_eq, ← fill_one, fill_fill hk]
  base_eq := by
    refine (Function.update_self _ _ _).trans ?_
    rw [h.base_eq, UInt32.ofNat_add, ← UInt32.add_assoc]
    rfl
  ok := h.ok

/-- A word is stored, to an aligned address. -/
theorem Cpu.Fills.str (h : s.Fills base m a c k) (hr : Pattern (s.reg r) c) (hk : k + 4 ≤ 2 ^ 32)
    (haligned : (a + UInt32.ofNat k) % 4 = 0) : (s.str r base).Fills base m a c (k + 4) where
  mem_eq := by
    show storeWord s.mem (s.reg base) (s.reg r) = _
    rw [storeWord_eq hr, h.base_eq, h.mem_eq, fill_fill hk]
  base_eq := by
    refine (Function.update_self _ _ _).trans ?_
    rw [h.base_eq, UInt32.ofNat_add, ← UInt32.add_assoc]
    rfl
  ok := by
    show (s.faulted || s.reg base % 4 != 0) = false
    rw [h.ok, h.base_eq, haligned]
    rfl

theorem aligned_iff {x : UInt32} : x % 4 = 0 ↔ x.toNat % 4 = 0 := by
  rw [← UInt32.toNat_inj, UInt32.toNat_mod]
  rfl

theorem aligned_add_four {x : UInt32} (h : x % 4 = 0) : (x + 4) % 4 = 0 := by
  rw [aligned_iff] at h ⊢
  rw [UInt32.toNat_add]
  simp only [UInt32.reduceToNat]
  omega

/-- Several words are stored. -/
theorem Cpu.Fills.stmia {regs : List Reg} (h : s.Fills base m a c k)
    (hregs : ∀ r ∈ regs, r ≠ base ∧ Pattern (s.reg r) c) (hk : k + 4 * regs.length ≤ 2 ^ 32)
    (haligned : (a + UInt32.ofNat k) % 4 = 0) :
    (s.stmia base regs).Fills base m a c (k + 4 * regs.length) := by
  induction regs generalizing s k with
  | nil => exact h
  | cons r regs ih =>
    obtain ⟨⟨hne, hr⟩, hrest⟩ := List.forall_mem_cons.mp hregs
    rw [List.length_cons] at hk ⊢
    have hnext := h.str hr (by omega) haligned
    have haligned' : (a + UInt32.ofNat (k + 4)) % 4 = 0 := by
      rw [UInt32.ofNat_add, ← UInt32.add_assoc]
      exact aligned_add_four haligned
    have hall := ih hnext (fun r' hr' => ⟨(hrest r' hr').1, by
      rw [reg_str s (hrest r' hr').1]
      exact (hrest r' hr').2⟩) (by omega) haligned'
    rw [show k + 4 * (regs.length + 1) = k + 4 + 4 * regs.length by omega]
    exact hall

end Arm
