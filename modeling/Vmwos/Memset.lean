import Vmwos.Arm

/-!
# The assembly `memset`

`memset` stores single bytes up to a multiple of 4, blocks of 64 bytes while the count stays
positive, and the rest by the bits of the count, which has gone below zero. Each label of the
assembly is a function here, and a branch is a call.

Result: `memset_eq_memsetByte`. For every start address, every byte value and every count
below 2^31, `memset` has the effect of the byte loop `memset_byte`, and no store faults.
-/

namespace Vmwos.Memset

open Arm

/-! ## Definitions -/

/-- `memset_byte`: the memory after it. -/
def memsetByte (mem : Memory) (s c n : UInt32) : Memory :=
  (List.range n.toNat).foldl (fun m i => Function.update m (s + UInt32.ofNat i) c.toUInt8) mem

/-- The registers of the stores of 32 bytes. -/
def blockRegs : List Reg := [.r1, .r3, .r4, .r5, .r6, .r7, .r8, .lr]

/-- The registers that are saved on the stack. -/
def savedRegs : List Reg := [.r4, .r5, .r6, .r7, .r8, .lr]

def asmMemsetDone (cpu : Cpu) : Cpu := cpu.ldmfd savedRegs

def asmMemsetLessthan4 (cpu : Cpu) : Cpu :=
  let cpu := cpu.tst .r2 2
  let cpu := cpu.on .ne (·.strb .r1 .ip)
  let cpu := cpu.on .ne (·.strb .r1 .ip)
  let cpu := cpu.tst .r2 1
  let cpu := cpu.on .ne (·.strb .r1 .ip)
  asmMemsetDone cpu

/-- What follows the loop, when the count is not 0. -/
def asmMemsetRest (cpu : Cpu) : Cpu :=
  let cpu := (cpu.tst .r2 32).on .ne (·.stmia .ip blockRegs)
  let cpu := (cpu.tst .r2 16).on .ne (·.stmia .ip [.r4, .r5, .r6, .r7])
  let cpu := (cpu.tst .r2 8).on .ne (·.stmia .ip [.r1, .r3])
  let cpu := (cpu.tst .r2 4).on .ne (·.str .r1 .ip)
  asmMemsetLessthan4 cpu

def asmMemsetLoop : Nat → Cpu → Option Cpu
  | 0, _ => none
  | turns + 1, cpu =>
    let cpu := cpu.subs .r2 .r2 64
    let cpu := cpu.on .ge (·.stmia .ip blockRegs)
    let cpu := cpu.on .ge (·.stmia .ip blockRegs)
    if cpu.holds .gt then asmMemsetLoop turns cpu
    else if cpu.holds .eq then some (asmMemsetDone cpu)
    else some (asmMemsetRest cpu)

def asmMemset4bytealigned (turns : Nat) (cpu : Cpu) : Option Cpu :=
  let cpu := cpu.orrLsl .r1 .r1 .r1 8
  let cpu := cpu.orrLsl .r1 .r1 .r1 16
  let cpu := cpu.mov .r3 .r1
  let cpu := cpu.mov .r4 .r1
  let cpu := cpu.mov .r5 .r1
  let cpu := cpu.mov .r6 .r1
  let cpu := cpu.mov .r7 .r1
  let cpu := cpu.mov .r8 .r1
  let cpu := cpu.mov .lr .r1
  asmMemsetLoop turns cpu

/-- The entry of `memset`, with its arguments in the first three registers. -/
def memsetEntry (cpu : Cpu) (s c n : UInt32) : Cpu :=
  let cpu := ((cpu.set .r0 s).set .r1 c).set .r2 n
  let cpu := cpu.stmfd savedRegs
  let cpu := cpu.ands .r3 .r0 3
  cpu.mov .ip .r0

/-- `memset`. -/
def memset (turns : Nat) (cpu : Cpu) (s c n : UInt32) : Option Cpu :=
  let cpu := memsetEntry cpu s c n
  if cpu.holds .eq then asmMemset4bytealigned turns cpu
  else
    let cpu := cpu.subs .r2 .r2 4
    if cpu.holds .lt then some (asmMemsetLessthan4 cpu)
    else
      let cpu := cpu.cmp .r3 2
      let cpu := cpu.on .lt (·.strb .r1 .ip)
      let cpu := cpu.on .le (·.strb .r1 .ip)
      let cpu := cpu.strb .r1 .ip
      let cpu := cpu.add .r2 .r2 .r3
      asmMemset4bytealigned turns cpu

/-! ## The byte loop -/

/-- A loop over the bytes from `a` on. -/
theorem foldl_update_eq (mem : Memory) (a : UInt32) (c : UInt8) {k : Nat} (hk : k ≤ 2 ^ 32) :
    (List.range k).foldl (fun m i => Function.update m (a + UInt32.ofNat i) c) mem =
      fill mem a k c := by
  induction k with
  | zero => rfl
  | succ k ih =>
    rw [List.range_succ, List.foldl_append, ih (by omega), List.foldl_cons, List.foldl_nil,
      ← fill_one, fill_fill hk]

theorem memsetByte_eq (mem : Memory) (s c n : UInt32) :
    memsetByte mem s c n = fill mem s n.toNat c.toUInt8 :=
  foldl_update_eq mem s c.toUInt8 n.toNat_lt.le

/-! ## The rest -/

variable {cpu : Cpu} {m : Memory} {a w : UInt32} {c : UInt8} {k : Nat}

/-- The processor in the assembly: `k` bytes are stored, all block registers hold the pattern, the
count is `w`, and the next address is aligned. -/
structure Ready (cpu : Cpu) (m : Memory) (a : UInt32) (c : UInt8) (k : Nat) (w : UInt32) : Prop where
  fills : cpu.Fills .ip m a c k
  patterns : ∀ r ∈ blockRegs, Pattern (cpu.reg r) c
  count : cpu.reg .r2 = w
  aligned : (a + UInt32.ofNat k) % 4 = 0

theorem ne_ip_of_mem {r : Reg} (h : r ∈ blockRegs) : r ≠ .ip := by
  rintro rfl
  exact absurd h (by decide)

theorem ne_r2_of_mem {r : Reg} (h : r ∈ blockRegs) : r ≠ .r2 := by
  rintro rfl
  exact absurd h (by decide)

theorem aligned_add {x : UInt32} (h : x % 4 = 0) (j : Nat) : (x + UInt32.ofNat (4 * j)) % 4 = 0 := by
  induction j with
  | zero => simpa using h
  | succ j ih =>
    rw [Nat.mul_succ, UInt32.ofNat_add, ← UInt32.add_assoc]
    exact aligned_add_four ih

/-- Several words are stored. -/
theorem Ready.stmia (h : Ready cpu m a c k w) {regs : List Reg} (hregs : ∀ r ∈ regs, r ∈ blockRegs)
    (hk : k + 4 * regs.length ≤ 2 ^ 32) :
    Ready (cpu.stmia .ip regs) m a c (k + 4 * regs.length) w where
  fills := h.fills.stmia (fun r hr => ⟨ne_ip_of_mem (hregs r hr), h.patterns r (hregs r hr)⟩) hk
    h.aligned
  patterns := fun r hr => by
    rw [reg_stmia cpu regs (ne_ip_of_mem hr)]
    exact h.patterns r hr
  count := (reg_stmia cpu regs (by decide)).trans h.count
  aligned := by
    rw [UInt32.ofNat_add, ← UInt32.add_assoc]
    exact aligned_add h.aligned _

theorem Ready.tst (h : Ready cpu m a c k w) (r : Reg) (imm : UInt32) :
    Ready (cpu.tst r imm) m a c k w where
  fills := h.fills.tst r imm
  patterns := h.patterns
  count := h.count
  aligned := h.aligned

/-- A bit of the count selects a store of as many bytes. -/
theorem Ready.bit (h : Ready cpu m a c k w) {e : Nat} {imm : UInt32} {regs : List Reg}
    (himm : imm.toNat = 2 ^ e) (hlength : 4 * regs.length = 2 ^ e)
    (hregs : ∀ r ∈ regs, r ∈ blockRegs) (hk : k + 2 ^ e ≤ 2 ^ 32) :
    Ready ((cpu.tst .r2 imm).on .ne (·.stmia .ip regs)) m a c (k + w.toNat / 2 ^ e % 2 * 2 ^ e) w := by
  have hbit : (cpu.tst .r2 imm).holds .ne ↔ w.toNat / 2 ^ e % 2 = 1 := by
    rw [holds_tst_ne cpu .r2 himm, h.count]
  unfold Cpu.on
  split
  next hset =>
    have hstored := (h.tst .r2 imm).stmia hregs (by omega)
    rw [hlength] at hstored
    rw [hbit.mp hset, Nat.one_mul]
    exact hstored
  next hclear =>
    have hzero : w.toNat / 2 ^ e % 2 = 0 := by
      have hne := hbit.not.mp hclear
      omega
    rw [hzero, Nat.zero_mul]
    exact h.tst .r2 imm

/-- The memory after the function, when no store has faulted. -/
def Filled (cpu : Cpu) (m : Memory) (a : UInt32) (c : UInt8) (n : Nat) : Prop :=
  cpu.mem = fill m a n c ∧ cpu.faulted = false

theorem filled_done (h : cpu.Fills .ip m a c k) : Filled (asmMemsetDone cpu) m a c k :=
  ⟨h.mem_eq, h.ok⟩

/-- The processor at the last bytes: only the low byte of `r1` matters. -/
structure Last (cpu : Cpu) (m : Memory) (a : UInt32) (c : UInt8) (k : Nat) (w : UInt32) : Prop where
  fills : cpu.Fills .ip m a c k
  byte : (cpu.reg .r1).toUInt8 = c
  count : cpu.reg .r2 = w

theorem Ready.last (h : Ready cpu m a c k w) : Last cpu m a c k w :=
  ⟨h.fills, (h.patterns .r1 (by decide)).1, h.count⟩

theorem Last.strb (h : Last cpu m a c k w) (hk : k + 1 ≤ 2 ^ 32) :
    Last (cpu.strb .r1 .ip) m a c (k + 1) w where
  fills := h.fills.strb h.byte hk
  byte := by
    rw [reg_strb cpu (by decide)]
    exact h.byte
  count := (reg_strb cpu (by decide)).trans h.count

theorem Last.tst (h : Last cpu m a c k w) (r : Reg) (imm : UInt32) :
    Last (cpu.tst r imm) m a c k w where
  fills := h.fills.tst r imm
  byte := h.byte
  count := h.count

theorem Last.subs (h : Last cpu m a c k w) (imm : UInt32) :
    Last (cpu.subs .r2 .r2 imm) m a c k (w - imm) where
  fills := h.fills.subs (by decide) .r2 imm
  byte := by
    rw [reg_subs_of_ne cpu (by decide)]
    exact h.byte
  count := by
    rw [reg_subs_self, h.count]

/-- A store under a condition that holds or not. -/
theorem Last.on (h : Last cpu m a c k w) (cond : Cond) (hk : k + 1 ≤ 2 ^ 32) :
    Last (cpu.on cond (·.strb .r1 .ip)) m a c (k + if cpu.holds cond then 1 else 0) w := by
  unfold Cpu.on
  split
  · exact h.strb hk
  · exact h

theorem holds_on_strb (cpu : Cpu) (cond cond' : Cond) :
    (cpu.on cond (·.strb .r1 .ip)).holds cond' = cpu.holds cond' := by
  unfold Cpu.on
  split
  · exact holds_strb cpu cond'
  · rfl

/-- The two lowest bits of the count select the last bytes. -/
theorem Last.lessthan4 (h : Last cpu m a c k w) (hk : k + 4 ≤ 2 ^ 32) :
    Filled (asmMemsetLessthan4 cpu) m a c (k + w.toNat % 4) := by
  have hfirst := (h.tst .r2 2).on .ne (by omega)
  have hsecond := hfirst.on .ne (by split <;> omega)
  have hthird := (hsecond.tst .r2 1).on .ne (by split <;> split <;> omega)
  have htwo := holds_tst_ne cpu .r2 (show (2 : UInt32).toNat = 2 ^ 1 from rfl)
  have hone := holds_tst_ne (((cpu.tst .r2 2).on .ne (·.strb .r1 .ip)).on .ne (·.strb .r1 .ip)) .r2
    (show (1 : UInt32).toNat = 2 ^ 0 from rfl)
  rw [hsecond.count] at hone
  rw [h.count] at htwo
  rw [holds_on_strb] at hsecond hthird
  simp only [hone, htwo] at hthird
  have hsum : (k + if w.toNat / 2 ^ 1 % 2 = 1 then 1 else 0) +
      (if w.toNat / 2 ^ 1 % 2 = 1 then 1 else 0) + (if w.toNat / 2 ^ 0 % 2 = 1 then 1 else 0) =
        k + w.toNat % 4 := by
    split <;> split <;> omega
  rw [hsum] at hthird
  exact filled_done hthird.fills

/-- The six lowest bits of the count select the rest. -/
theorem Ready.rest (h : Ready cpu m a c k w) (hk : k + 64 ≤ 2 ^ 32) :
    Filled (asmMemsetRest cpu) m a c (k + w.toNat % 64) := by
  have h32 := h.bit (e := 5) (show (32 : UInt32).toNat = 2 ^ 5 from rfl)
    (show 4 * blockRegs.length = 2 ^ 5 from rfl) (fun _ hr => hr) (by omega)
  have h16 := h32.bit (show (16 : UInt32).toNat = 2 ^ 4 from rfl)
    (show 4 * [Reg.r4, .r5, .r6, .r7].length = 2 ^ 4 from rfl) (by decide) (by omega)
  have h8 := h16.bit (show (8 : UInt32).toNat = 2 ^ 3 from rfl)
    (show 4 * [Reg.r1, .r3].length = 2 ^ 3 from rfl) (by decide) (by omega)
  have h4 := h8.bit (show (4 : UInt32).toNat = 2 ^ 2 from rfl)
    (show 4 * [Reg.r1].length = 2 ^ 2 from rfl) (by decide) (by omega)
  have hall := h4.last.lessthan4 (by omega)
  have hsum : k + w.toNat / 2 ^ 5 % 2 * 2 ^ 5 + w.toNat / 2 ^ 4 % 2 * 2 ^ 4 +
      w.toNat / 2 ^ 3 % 2 * 2 ^ 3 + w.toNat / 2 ^ 2 % 2 * 2 ^ 2 + w.toNat % 4 =
        k + w.toNat % 64 := by
    omega
  rw [hsum] at hall
  exact hall

/-! ## The loop -/

theorem Ready.subs (h : Ready cpu m a c k w) (imm : UInt32) :
    Ready (cpu.subs .r2 .r2 imm) m a c k (w - imm) where
  fills := h.fills.subs (by decide) .r2 imm
  patterns := fun r hr => by
    rw [reg_subs_of_ne cpu (ne_r2_of_mem hr)]
    exact h.patterns r hr
  count := by
    rw [reg_subs_self, h.count]
  aligned := h.aligned

/-- The two conditional stores of a block. -/
theorem Ready.block (h : Ready cpu m a c k w) (hge : cpu.holds .ge = true) (hk : k + 64 ≤ 2 ^ 32) :
    Ready ((cpu.on .ge (·.stmia .ip blockRegs)).on .ge (·.stmia .ip blockRegs)) m a c (k + 64) w ∧
      ∀ cond, ((cpu.on .ge (·.stmia .ip blockRegs)).on .ge (·.stmia .ip blockRegs)).holds cond =
        cpu.holds cond := by
  have hlength : 4 * blockRegs.length = 32 := rfl
  have hfirst := h.stmia (fun r (hr : r ∈ blockRegs) => hr) (by omega)
  have hsecond := hfirst.stmia (fun r (hr : r ∈ blockRegs) => hr) (by omega)
  have hblock : (cpu.on .ge (·.stmia .ip blockRegs)).on .ge (·.stmia .ip blockRegs) =
      (cpu.stmia .ip blockRegs).stmia .ip blockRegs := by
    unfold Cpu.on
    rw [if_pos hge, if_pos ((holds_stmia cpu blockRegs .ge).trans hge)]
  rw [hblock]
  refine ⟨hsecond, fun cond => ?_⟩
  rw [holds_stmia, holds_stmia]

/-- Without room for a block, the conditional stores do nothing. -/
theorem on_block_of_lt (hge : ¬cpu.holds .ge = true) :
    (cpu.on .ge (·.stmia .ip blockRegs)).on .ge (·.stmia .ip blockRegs) = cpu := by
  unfold Cpu.on
  rw [if_neg hge, if_neg hge]

/-- The loop stores blocks while the count is positive, and goes on with the rest of it. -/
theorem asmMemsetLoop_fills {turns : Nat} (h : Ready cpu m a c k w) (hk : k + w.toNat < 2 ^ 31)
    (hturns : w.toNat / 64 < turns) :
    ∃ cpu', asmMemsetLoop turns cpu = some cpu' ∧ Filled cpu' m a c (k + w.toNat) := by
  induction turns generalizing cpu k w with
  | zero => exact absurd hturns (Nat.not_lt_zero _)
  | succ turns ih =>
    have hw : w.toNat < 2 ^ 31 := by omega
    have hsub := h.subs 64
    have hflags : ∀ cond, (cpu.subs .r2 .r2 64).holds cond = (cpu.subFlags w 64).holds cond := by
      intro cond
      rw [holds_subs, h.count]
    have hcount : (w - 64).toNat = (2 ^ 32 - 64 + w.toNat) % 2 ^ 32 := UInt32.toNat_sub w 64
    obtain ⟨-, -, hge, hgt, heq⟩ := holds_subFlags (s := cpu) hw
      (show (64 : UInt32).toNat < 2 ^ 31 by decide)
    rw [← hflags, show (64 : UInt32).toNat = 64 from rfl] at hge hgt heq
    unfold asmMemsetLoop
    by_cases hblock : 64 ≤ w.toNat
    · obtain ⟨hready, hholds⟩ := hsub.block (hge.mpr hblock) (by omega)
      simp only [hholds]
      by_cases hmore : 64 < w.toNat
      · rw [if_pos (hgt.mpr hmore)]
        obtain ⟨cpu', hloop, hfilled⟩ := ih hready (by omega) (by omega)
        refine ⟨cpu', hloop, ?_⟩
        rwa [show k + 64 + (w - 64).toNat = k + w.toNat by omega] at hfilled
      · rw [if_neg (hgt.not.mpr hmore), if_pos (heq.mpr (by omega))]
        refine ⟨_, rfl, ?_⟩
        have hdone := filled_done hready.fills
        rwa [show k + 64 = k + w.toNat by omega] at hdone
    · simp only [on_block_of_lt (hge.not.mpr hblock)]
      rw [if_neg (hgt.not.mpr (by omega)), if_neg (heq.not.mpr (by omega))]
      refine ⟨_, rfl, ?_⟩
      have hrest := hsub.rest (by omega)
      rwa [show (w - 64).toNat % 64 = w.toNat by omega] at hrest

/-! ## The pattern -/

/-- A shift beyond the bits of the number adds a multiple of it. -/
theorem toNat_orr_shift {x : UInt32} {e : UInt32} (he : e.toNat < 32) (hx : x.toNat < 2 ^ e.toNat)
    (hfits : x.toNat * 2 ^ e.toNat < 2 ^ 32) :
    (x ||| x <<< e).toNat = x.toNat * 2 ^ e.toNat + x.toNat := by
  have hshift : (x <<< e).toNat = x.toNat <<< e.toNat := by
    rw [UInt32.toNat_shiftLeft, Nat.mod_eq_of_lt he, Nat.shiftLeft_eq, Nat.mod_eq_of_lt hfits]
  rw [UInt32.toNat_or, hshift, Nat.or_comm, ← Nat.shiftLeft_add_eq_or_of_lt hx, Nat.shiftLeft_eq]

/-- A byte of a word. -/
theorem toUInt8_shift {word x e : UInt32} (he : e.toNat < 32)
    (h : word.toNat / 2 ^ e.toNat % 2 ^ 8 = x.toNat % 2 ^ 8) : (word >>> e).toUInt8 = x.toUInt8 := by
  apply UInt8.toNat_inj.mp
  rw [UInt32.toNat_toUInt8, UInt32.toNat_toUInt8, UInt32.toNat_shiftRight, Nat.mod_eq_of_lt he,
    Nat.shiftRight_eq_div_pow, h]

/-- The two shifts copy the byte to the whole word. -/
theorem pattern_orr {x : UInt32} (hx : x.toNat ≤ 255) :
    Pattern ((x ||| x <<< 8) ||| (x ||| x <<< 8) <<< 16) x.toUInt8 := by
  have hhalf : (x ||| x <<< 8).toNat = x.toNat * 2 ^ 8 + x.toNat :=
    toNat_orr_shift (e := 8) (by decide) (show x.toNat < 2 ^ 8 by omega)
      (show x.toNat * 2 ^ 8 < 2 ^ 32 by omega)
  have hword : ((x ||| x <<< 8) ||| (x ||| x <<< 8) <<< 16).toNat =
      (x ||| x <<< 8).toNat * 2 ^ 16 + (x ||| x <<< 8).toNat :=
    toNat_orr_shift (e := 16) (by decide) (show (x ||| x <<< 8).toNat < 2 ^ 16 by omega)
      (show (x ||| x <<< 8).toNat * 2 ^ 16 < 2 ^ 32 by omega)
  generalize (x ||| x <<< 8) ||| (x ||| x <<< 8) <<< 16 = word at hword ⊢
  have h8 : word.toNat / 2 ^ 8 = x.toNat * 65793 := by omega
  have h16 : word.toNat / 2 ^ 16 = x.toNat * 257 := by omega
  have h24 : word.toNat / 2 ^ 24 = x.toNat := by omega
  refine ⟨?_, toUInt8_shift (by decide) ?_, toUInt8_shift (by decide) ?_, toUInt8_shift (by decide) ?_⟩
  · apply UInt8.toNat_inj.mp
    rw [UInt32.toNat_toUInt8, UInt32.toNat_toUInt8]
    omega
  · exact (congrArg (· % 2 ^ 8) h8).trans (by omega)
  · exact (congrArg (· % 2 ^ 8) h16).trans (by omega)
  · exact congrArg (· % 2 ^ 8) h24

/-- The pattern is copied to all registers of a block. -/
theorem asmMemset4bytealigned_fills {turns : Nat} {x : UInt32} (hfills : cpu.Fills .ip m a x.toUInt8 k)
    (hx : cpu.reg .r1 = x) (hbyte : x.toNat ≤ 255) (hcount : cpu.reg .r2 = w)
    (haligned : (a + UInt32.ofNat k) % 4 = 0) (hk : k + w.toNat < 2 ^ 31)
    (hturns : w.toNat / 64 < turns) :
    ∃ cpu', asmMemset4bytealigned turns cpu = some cpu' ∧
      Filled cpu' m a x.toUInt8 (k + w.toNat) := by
  refine asmMemsetLoop_fills (w := w) ⟨?_, ?_, ?_, haligned⟩ hk hturns
  · iterate 9 refine Cpu.Fills.set ?_ (by decide) _
    exact hfills
  · have hpattern := pattern_orr hbyte
    rw [← hx] at hpattern ⊢
    simp only [blockRegs, List.forall_mem_cons]
    refine ⟨hpattern, hpattern, hpattern, hpattern, hpattern, hpattern, hpattern, hpattern, ?_⟩
    exact fun _ hr => absurd hr List.not_mem_nil
  · exact hcount

/-! ## The head -/

/-- The registers of a conditional store, but for its base. -/
theorem reg_on_strb (cpu : Cpu) (cond : Cond) {r : Reg} (h : r ≠ .ip) :
    (cpu.on cond (·.strb .r1 .ip)).reg r = cpu.reg r := by
  unfold Cpu.on
  split
  · exact reg_strb cpu h
  · rfl

/-- The bytes before a multiple of 4: one, two or three, by the conditions of one comparison. -/
theorem Last.head (h : Last cpu m a c 0 w) (hpos : 1 ≤ (cpu.reg .r3).toNat)
    (hlt : (cpu.reg .r3).toNat < 4) :
    Last ((((cpu.cmp .r3 2).on .lt (·.strb .r1 .ip)).on .le (·.strb .r1 .ip)).strb .r1 .ip) m a c
      (4 - (cpu.reg .r3).toNat) w := by
  have hcmp : Last (cpu.cmp .r3 2) m a c 0 w :=
    ⟨h.fills.cmp .r3 2, h.byte, h.count⟩
  obtain ⟨hltiff, hleiff, -⟩ := holds_subFlags (s := cpu) (show (cpu.reg .r3).toNat < 2 ^ 31 by omega)
    (show (2 : UInt32).toNat < 2 ^ 31 by decide)
  have hfirst := hcmp.on .lt (by omega)
  have hsecond := hfirst.on .le (by split <;> omega)
  rw [holds_on_strb] at hsecond
  have hthird := hsecond.strb (by split <;> split <;> omega)
  have hsum : (0 + if (cpu.cmp .r3 2).holds .lt = true then 1 else 0) +
      (if (cpu.cmp .r3 2).holds .le = true then 1 else 0) + 1 = 4 - (cpu.reg .r3).toNat := by
    unfold Cpu.cmp
    simp only [hltiff, hleiff, UInt32.reduceToNat]
    split <;> split <;> omega
  rwa [hsum] at hthird

/-- The state behind the entry: nothing is stored, and the flags tell whether the start address is
aligned. -/
theorem memsetEntry_last (cpu : Cpu) (s c n : UInt32) (hcpu : cpu.faulted = false) :
    Last (memsetEntry cpu s c n) cpu.mem s c.toUInt8 0 n ∧
      (memsetEntry cpu s c n).reg .r1 = c ∧
      (memsetEntry cpu s c n).reg .r3 = s &&& 3 ∧
      ((memsetEntry cpu s c n).holds .eq ↔ s &&& 3 = 0) := by
  refine ⟨⟨⟨?_, ?_, hcpu⟩, rfl, rfl⟩, rfl, rfl, ?_⟩
  · funext x
    exact (if_neg (Nat.not_lt_zero _)).symm
  · exact (UInt32.add_zero s).symm
  · exact beq_iff_eq

theorem toNat_and_three (s : UInt32) : (s &&& 3).toNat = s.toNat % 4 := by
  rw [UInt32.toNat_and]
  exact Nat.and_two_pow_sub_one_eq_mod s.toNat 2

/-- An unaligned start with four bytes or more. -/
theorem unaligned_fills {turns : Nat} {x : UInt32} (h : Last cpu m a x.toUInt8 0 w)
    (hx : cpu.reg .r1 = x) (hbyte : x.toNat ≤ 255) (hr3 : (cpu.reg .r3).toNat = a.toNat % 4)
    (hpos : 1 ≤ a.toNat % 4) (hw : w.toNat + 4 < 2 ^ 31) (hturns : (w.toNat + 4) / 64 < turns) :
    ∃ cpu', asmMemset4bytealigned turns
        (((((cpu.cmp .r3 2).on .lt (·.strb .r1 .ip)).on .le (·.strb .r1 .ip)).strb .r1 .ip).add
          .r2 .r2 .r3) = some cpu' ∧
      Filled cpu' m a x.toUInt8 (w.toNat + 4) := by
  have hhead := h.head (by omega) (by omega)
  have hreg : ∀ r, r ≠ .ip → ((((cpu.cmp .r3 2).on .lt (·.strb .r1 .ip)).on .le
      (·.strb .r1 .ip)).strb .r1 .ip).reg r = cpu.reg r := by
    intro r hr
    rw [reg_strb _ hr, reg_on_strb _ _ hr, reg_on_strb _ _ hr]
    rfl
  have hcount : (w + cpu.reg .r3).toNat = w.toNat + a.toNat % 4 := by
    rw [UInt32.toNat_add, hr3]
    omega
  have haligned : (a + UInt32.ofNat (4 - (cpu.reg .r3).toNat)) % 4 = 0 := by
    rw [aligned_iff, UInt32.toNat_add, UInt32.toNat_ofNat', hr3]
    omega
  generalize (((cpu.cmp .r3 2).on .lt (·.strb .r1 .ip)).on .le (·.strb .r1 .ip)).strb .r1 .ip = after
    at hhead hreg ⊢
  have hfills : (after.add .r2 .r2 .r3).Fills .ip m a x.toUInt8 (4 - (cpu.reg .r3).toNat) :=
    hhead.fills.set (show Reg.ip ≠ .r2 by decide) _
  have hr1 : (after.add .r2 .r2 .r3).reg .r1 = x :=
    (reg_set_of_ne after (by decide) _).trans ((hreg .r1 (by decide)).trans hx)
  have hr2 : (after.add .r2 .r2 .r3).reg .r2 = w + cpu.reg .r3 := by
    unfold Cpu.add
    rw [reg_set_self, hhead.count, hreg .r3 (by decide)]
  have hmore : (w + cpu.reg .r3).toNat / 64 < turns := by omega
  obtain ⟨cpu', hrun, hfilled⟩ :=
    asmMemset4bytealigned_fills hfills hr1 hbyte hr2 haligned (by omega) hmore
  refine ⟨cpu', hrun, ?_⟩
  rwa [show 4 - (cpu.reg .r3).toNat + (w + cpu.reg .r3).toNat = w.toNat + 4 by omega] at hfilled

/-- The branches of the head, on a start address that is not aligned. -/
theorem memset_unaligned {turns : Nat} {s x n : UInt32} (h : Last cpu m s x.toUInt8 0 n)
    (hx : cpu.reg .r1 = x) (hr3 : cpu.reg .r3 = s &&& 3) (hbyte : x.toNat ≤ 255)
    (hn : n.toNat < 2 ^ 31) (hpos : 1 ≤ s.toNat % 4) (hturns : n.toNat / 64 < turns) :
    ∃ cpu', (if (cpu.subs .r2 .r2 4).holds .lt then some (asmMemsetLessthan4 (cpu.subs .r2 .r2 4))
      else asmMemset4bytealigned turns
        ((((((cpu.subs .r2 .r2 4).cmp .r3 2).on .lt (·.strb .r1 .ip)).on .le (·.strb .r1 .ip)).strb
          .r1 .ip).add .r2 .r2 .r3)) = some cpu' ∧
      Filled cpu' m s x.toUInt8 n.toNat := by
  have hfour := h.subs 4
  have hlt : (cpu.subs .r2 .r2 4).holds .lt ↔ n.toNat < 4 := by
    rw [holds_subs, h.count]
    exact (holds_subFlags hn (show (4 : UInt32).toNat < 2 ^ 31 by decide)).1
  have hcount : (n - 4).toNat = (2 ^ 32 - 4 + n.toNat) % 2 ^ 32 := UInt32.toNat_sub n 4
  by_cases hshort : n.toNat < 4
  · -- the low bits of the count are those of `n`, though it has gone below zero
    rw [if_pos (hlt.mpr hshort)]
    have hend := hfour.lessthan4 (by omega)
    rw [show 0 + (n - 4).toNat % 4 = n.toNat by omega] at hend
    exact ⟨_, rfl, hend⟩
  · rw [if_neg (hlt.not.mpr hshort)]
    have hx' : (cpu.subs .r2 .r2 4).reg .r1 = x := (reg_subs_of_ne cpu (by decide) 4).trans hx
    have hmod : ((cpu.subs .r2 .r2 4).reg .r3).toNat = s.toNat % 4 := by
      rw [reg_subs_of_ne cpu (by decide), hr3, toNat_and_three]
    have hmore : ((n - 4).toNat + 4) / 64 < turns := by omega
    have hrun := unaligned_fills hfour hx' hbyte hmod hpos (by omega) hmore
    rwa [show (n - 4).toNat + 4 = n.toNat by omega] at hrun

theorem memset_fills {turns : Nat} {cpu : Cpu} {s c n : UInt32} (hc : c.toNat ≤ 255)
    (hn : n.toNat < 2 ^ 31) (hcpu : cpu.faulted = false) (hturns : n.toNat / 64 < turns) :
    ∃ cpu', memset turns cpu s c n = some cpu' ∧ Filled cpu' cpu.mem s c.toUInt8 n.toNat := by
  obtain ⟨hlast, hr1, hr3, heq⟩ := memsetEntry_last cpu s c n hcpu
  have hmod : (s &&& 3).toNat = s.toNat % 4 := toNat_and_three s
  unfold memset
  by_cases haligned : s &&& 3 = 0
  · rw [if_pos (heq.mpr haligned)]
    have hstart : (s + UInt32.ofNat 0) % 4 = 0 := by
      have hzero : s + UInt32.ofNat 0 = s := UInt32.add_zero s
      rw [haligned] at hmod
      rw [hzero, aligned_iff, ← hmod]
      rfl
    have hrun := asmMemset4bytealigned_fills hlast.fills hr1 hc hlast.count hstart (by omega) hturns
    rwa [Nat.zero_add] at hrun
  · rw [if_neg (heq.not.mpr haligned)]
    have hpos : 1 ≤ s.toNat % 4 := by
      refine Nat.one_le_iff_ne_zero.mpr fun h0 => haligned ?_
      rw [← UInt32.toNat_inj, hmod, h0]
      rfl
    exact memset_unaligned hlast hr1 hr3 hc hn hpos hturns

/-- For every start address, every byte value and every count below 2^31, the assembly `memset`
returns without a fault, with the memory that `memset_byte` leaves: exactly the bytes from the
start address on are set. -/
theorem memset_eq_memsetByte (turns : Nat) (cpu : Cpu) (s c n : UInt32) (hc : c.toNat ≤ 255)
    (hn : n.toNat < 2 ^ 31) (hcpu : cpu.faulted = false) (hturns : n.toNat / 64 < turns) :
    ∃ cpu', memset turns cpu s c n = some cpu' ∧ cpu'.mem = memsetByte cpu.mem s c n ∧
      cpu'.faulted = false ∧
      ∀ x, cpu'.mem x = if (x - s).toNat < n.toNat then c.toUInt8 else cpu.mem x := by
  obtain ⟨cpu', hmemset, hmem, hok⟩ := memset_fills (s := s) hc hn hcpu hturns
  refine ⟨cpu', hmemset, hmem.trans (memsetByte_eq _ _ _ _).symm, hok, fun x => ?_⟩
  rw [hmem]
  rfl

/-- A processor before the call. -/
def idle : Cpu :=
  { reg := fun _ => 0, n := false, z := false, c := false, v := false, mem := fun _ => 0, stack := []
    faulted := false }

/-- 100 bytes from an odd address on. -/
theorem memset_hundred : ∃ cpu', memset 2 idle 0x1001 0xab 100 = some cpu' ∧
    cpu'.mem = memsetByte idle.mem 0x1001 0xab 100 ∧ cpu'.faulted = false ∧
    ∀ x, cpu'.mem x = if (x - 0x1001).toNat < 100 then 0xab else 0 :=
  memset_eq_memsetByte 2 idle 0x1001 0xab 100 (by decide) (by decide) rfl (by decide)

end Vmwos.Memset
