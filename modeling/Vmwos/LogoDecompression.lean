import Mathlib.Data.List.TakeWhile
import Vmwos.LogoRoutines

/-!
# The decompression of the logo

The decompressor keeps the last 1024 characters in `text_buf`, which it fills round and round, and
eight flags in a register with a bit above them that shows when they are used up.

Result: `logo_printed`. For every stream of items, `decompression_loop` writes what the items stand
for to the output buffer, changes nothing else but `text_buf`, and ends at `done_logo`; one call of
`write` prints it up to the first 0 behind its first character, all of it if there is none.
-/

namespace Vmwos.Logo

open Arm SlidingWindow

/-! ## Definitions -/

/-- The registers at `decompression_loop`, the compressed logo in memory, `text_buf` and an output
buffer of `size` bytes filled with zeros, and the address of the output buffer in the word at `r12`.
All of them are apart. -/
structure Setup (s : Core) (stream : List UInt8) (text out : UInt32) (size : Nat) : Prop where
  r1 : s.reg .r1 = out
  r2 : s.reg .r2 = UInt32.ofNat (N - F)
  r8 : s.reg .r8 = s.reg .r3 + UInt32.ofNat stream.length
  r9 : s.reg .r9 = text
  low : (s.reg .r3).toNat + stream.length + 1 < 2 ^ 31
  size_le : size < 2 ^ 31
  data : ∀ i (h : i < stream.length), s.mem (s.reg .r3 + UInt32.ofNat i) = stream[i]
  zeros : ∀ p < N, s.mem (text + UInt32.ofNat p) = 0
  logo_text : ∀ x, In (s.reg .r3) stream.length x → ¬In text N x
  logo_out : ∀ x, In (s.reg .r3) stream.length x → ¬In out size x
  text_out : ∀ x, In text N x → ¬In out size x
  empty : ∀ i < size, s.mem (out + UInt32.ofNat i) = 0
  out_addr : Core.loadWord s.mem (s.reg .r12) = out
  addr_text : ∀ i < 4, ¬In text N (s.reg .r12 + UInt32.ofNat i)
  addr_out : ∀ i < 4, ¬In out size (s.reg .r12 + UInt32.ofNat i)

/-- The registers that matter from one item to the next one, besides those that read the stream. -/
def kept : List Register := [.r1, .r2, .r8, .r9, .r10, .r11, .r12]

/-- The characters `done` are out. -/
structure Decoding (s₀ s : Core) (text out : UInt32) (done : List UInt8) : Prop where
  r1 : s.reg .r1 = out + UInt32.ofNat done.length
  r2 : (s.reg .r2).toNat = writePosition done.length
  fixed : ∀ r ∈ kept, r ≠ .r1 → r ≠ .r2 → s.reg r = s₀.reg r
  stack : s.stack = s₀.stack
  trace : s.written = s₀.written
  ring : Mirrors 0 N (fun p => s.mem (text + UInt32.ofNat p)) (writePosition done.length) done
  chars : ∀ i (h : i < done.length), s.mem (out + UInt32.ofNat i) = done[i]
  frame : ∀ x, ¬In text N x → ¬In out done.length x → s.mem x = s₀.mem x

def flagsValue : List Bool → Nat
  | [] => 0
  | bit :: bits => bit.toNat + 2 * flagsValue bits

/-- The flags in `r5`, below the bit that shows how many there are. -/
def Flags (w : UInt32) (bits : List Bool) : Prop :=
  w.toNat = 2 ^ (7 + bits.length) + flagsValue bits ∧ bits.length ≤ 8

/-- Where the next item is read. -/
def entry (bits : List Bool) : Label := if bits = [] then .decompressionLoop else .testFlags

/-! ## Words -/

theorem toNat_mask (w : UInt32) : ((w <<< 22) >>> 22).toNat = w.toNat % N := by
  rw [UInt32.toNat_shiftRight, UInt32.toNat_shiftLeft]
  simp only [UInt32.reduceToNat, Nat.reduceMod, Nat.shiftLeft_eq, Nat.shiftRight_eq_div_pow, N]
  omega

theorem toNat_orr_flag (b : UInt8) : (b.toUInt32 ||| 0x8000).toNat = 2 ^ 15 + b.toNat := by
  have hb := b.toNat_lt
  rw [UInt32.toNat_or, Nat.lor_comm]
  exact (Nat.two_pow_add_eq_or_of_lt (i := 15) (by simpa using by omega) 1).symm.trans (by simp)

theorem toNat_pair (lo hi : UInt8) :
    (lo.toUInt32 ||| hi.toUInt32 <<< 8).toNat = lo.toNat + 256 * hi.toNat := by
  have hlo := lo.toNat_lt
  have hhi := hi.toNat_lt
  have hshift : (hi.toUInt32 <<< 8).toNat = 2 ^ 8 * hi.toNat := by
    rw [UInt32.toNat_shiftLeft]
    simp only [UInt8.toNat_toUInt32, UInt32.reduceToNat, Nat.reduceMod, Nat.shiftLeft_eq]
    omega
  rw [UInt32.toNat_or, hshift, Nat.lor_comm, UInt8.toNat_toUInt32,
    ← Nat.two_pow_add_eq_or_of_lt (by omega)]
  omega

/-- `r7 >> P_BITS`, with 3 added. -/
theorem toNat_matchLength (w : UInt32) :
    (THRESHOLD + 1 + w >>> P_BITS).toNat = w.toNat / 2 ^ 10 + 3 := by
  have hw := w.toNat_lt
  rw [UInt32.toNat_add, UInt32.toNat_shiftRight]
  simp only [THRESHOLD, P_BITS, UInt32.reduceAdd, UInt32.reduceToNat, Nat.reduceMod,
    Nat.shiftRight_eq_div_pow]
  omega

theorem carry_iff (w : UInt32) : (w &&& 1 == 1) = decide (w.toNat % 2 = 1) := by
  rw [beq_eq_decide, decide_eq_decide, ← UInt32.toNat_inj, UInt32.toNat_and, UInt32.toNat_one,
    Nat.and_one_is_mod]

theorem toNat_half (w : UInt32) : (w >>> 1).toNat = w.toNat / 2 := by
  rw [UInt32.toNat_shiftRight]
  simp [Nat.shiftRight_eq_div_pow]

/-! ## Flags -/

variable {w : UInt32} {bit : Bool} {bits : List Bool}

theorem flagsValue_lt (bits : List Bool) : flagsValue bits < 2 ^ bits.length := by
  induction bits with
  | nil => simp [flagsValue]
  | cons bit bits ih =>
    rw [flagsValue, List.length_cons, Nat.pow_succ]
    have hbit := bit.toNat_lt
    omega

theorem length_bitsOf (n flags : Nat) : (bitsOf n flags).length = n := by
  induction n generalizing flags with
  | zero => rfl
  | succ n ih => rw [bitsOf, List.length_cons, ih]

theorem flagsValue_bitsOf {n flags : Nat} (h : flags < 2 ^ n) :
    flagsValue (bitsOf n flags) = flags := by
  induction n generalizing flags with
  | zero => simpa [bitsOf, flagsValue] using (Nat.lt_one_iff.mp h).symm
  | succ n ih =>
    rw [bitsOf, flagsValue, ih (by omega)]
    rcases Nat.mod_two_eq_zero_or_one flags with hmod | hmod <;> simp [hmod] <;> omega

/-- A byte of flags with bit 15 above it. -/
theorem flags_orr (b : UInt8) : Flags (b.toUInt32 ||| 0x8000) (bitsOf 8 b.toNat) := by
  refine ⟨?_, (length_bitsOf 8 b.toNat).le⟩
  rw [length_bitsOf, flagsValue_bitsOf b.toNat_lt, toNat_orr_flag]

theorem Flags.tail (h : Flags w (bit :: bits)) : Flags (w >>> 1) bits := by
  obtain ⟨hvalue, hlen⟩ := h
  rw [List.length_cons] at hvalue hlen
  refine ⟨?_, by omega⟩
  have hpow : 2 ^ (7 + (bits.length + 1)) = 2 * 2 ^ (7 + bits.length) := by
    rw [← Nat.add_assoc, Nat.pow_succ, Nat.mul_comm]
  have hbit := bit.toNat_lt
  rw [toNat_half, hvalue, hpow, flagsValue]
  omega

/-- The carry is the lowest flag. -/
theorem Flags.carry (h : Flags w (bit :: bits)) : (w &&& 1 == 1) = bit := by
  have hpow : 2 ^ (7 + (bits.length + 1)) = 2 * 2 ^ (7 + bits.length) := by
    rw [← Nat.add_assoc, Nat.pow_succ, Nat.mul_comm]
  have hvalue := h.1
  rw [List.length_cons, hpow, flagsValue] at hvalue
  rw [carry_iff]
  cases bit with
  | false => simp at hvalue ⊢; omega
  | true => simp at hvalue ⊢; omega

theorem Flags.lt (h : Flags w bits) : w.toNat < 2 ^ 31 := by
  have hlt := flagsValue_lt bits
  have hpow : 2 ^ (7 + bits.length) ≤ 2 ^ 15 := Nat.pow_le_pow_right (by decide) (by have := h.2; omega)
  have hpow' : 2 ^ bits.length ≤ 2 ^ 8 := Nat.pow_le_pow_right (by decide) h.2
  rw [h.1]
  omega

/-- `bgt` after a comparison with `0xff`: there are flags left. -/
theorem Flags.more (h : Flags w bits) : 0xff < w.toNat ↔ bits ≠ [] := by
  rw [h.1]
  cases bits with
  | nil => simp [flagsValue]
  | cons bit bits =>
    have hpow : 2 ^ 8 ≤ 2 ^ (7 + (bits.length + 1)) := Nat.pow_le_pow_right (by decide) (by omega)
    simp only [List.length_cons, ne_eq, List.cons_ne_nil, not_false_eq_true, iff_true]
    omega

/-! ## Positions -/

variable {s₀ s s' : Core} {stream done : List UInt8} {text out a x : UInt32} {size : Nat}

theorem writePosition_lt (len : Nat) : writePosition len < N := Nat.mod_lt _ (by decide)

theorem writePosition_succ (len : Nat) : writePosition (len + 1) = (writePosition len + 1) % N := by
  unfold writePosition
  rw [← Nat.add_assoc, Nat.mod_add_mod]

/-! ## What is out -/

/-- Nothing that matters has changed. -/
theorem Decoding.keep (h : Decoding s₀ s text out done) (hmem : s'.mem = s.mem)
    (hstack : s'.stack = s.stack) (htrace : s'.written = s.written)
    (hreg : ∀ r ∈ kept, s'.reg r = s.reg r) : Decoding s₀ s' text out done where
  r1 := (hreg .r1 (by decide)).trans h.r1
  r2 := (congrArg UInt32.toNat (hreg .r2 (by decide))).trans h.r2
  fixed := fun r hr h1 h2 => (hreg r hr).trans (h.fixed r hr h1 h2)
  stack := hstack.trans h.stack
  trace := htrace.trans h.trace
  ring := hmem ▸ h.ring
  chars := hmem ▸ h.chars
  frame := hmem ▸ h.frame

theorem Decoding.cmp (h : Decoding s₀ s text out done) (m : Register) (imm : UInt32) :
    Decoding s₀ (s.cmp m imm) text out done :=
  h.keep rfl rfl rfl fun _ _ => rfl

theorem Decoding.cmpReg (h : Decoding s₀ s text out done) (m m' : Register) :
    Decoding s₀ (s.cmpReg m m') text out done :=
  h.keep rfl rfl rfl fun _ _ => rfl

theorem Setup.start (h : Setup s stream text out size) : Decoding s s text out [] where
  r1 := h.r1.trans (UInt32.add_zero out).symm
  r2 := congrArg UInt32.toNat h.r2
  fixed := fun _ _ _ _ => rfl
  stack := rfl
  trace := rfl
  ring := mirrors_nil (writePosition_lt 0) h.zeros
  chars := fun i hi => absurd hi (Nat.not_lt_zero i)
  frame := fun _ _ _ => rfl

/-- A byte of the stream is what it was at first. -/
theorem Decoding.read (hs : Setup s₀ stream text out size) (h : Decoding s₀ s text out done)
    (hsize : done.length ≤ size) {before rest : List UInt8} {c : UInt8}
    (hstream : stream = before ++ c :: rest) :
    s.mem (s₀.reg .r3 + UInt32.ofNat before.length) = c := by
  have hlow := hs.low
  have hlt : before.length < stream.length := by
    rw [hstream, List.length_append, List.length_cons]
    omega
  have hin := (in_offset (s₀.reg .r3) (n := stream.length) (by omega)).mpr hlt
  rw [h.frame _ (hs.logo_text _ hin) fun hout => hs.logo_out _ hin (hout.mono hsize), hs.data _ hlt]
  simp [hstream]

/-- A character goes to the output and into `text_buf`. -/
theorem Decoding.store (hs : Setup s₀ stream text out size) (h : Decoding s₀ s text out done)
    (hroom : done.length < size) {c : UInt8}
    (hmem : s'.mem = Function.update (Function.update s.mem (s.reg .r1) c)
      (text + UInt32.ofNat (writePosition done.length)) c)
    (h1 : s'.reg .r1 = s.reg .r1 + 1) (h2 : (s'.reg .r2).toNat = ((s.reg .r2).toNat + 1) % N)
    (hreg : ∀ r ∈ kept, r ≠ .r1 → r ≠ .r2 → s'.reg r = s.reg r)
    (hstack : s'.stack = s.stack) (htrace : s'.written = s.written) :
    Decoding s₀ s' text out (done ++ [c]) := by
  have hsize := hs.size_le
  have hlen : (done ++ [c]).length = done.length + 1 := by
    rw [List.length_append, List.length_singleton]
  have hpos := writePosition_lt done.length
  have hN : N < 2 ^ 32 := by decide
  -- the two buffers are apart
  have htext : ∀ p < N, In text N (text + UInt32.ofNat p) := fun p hp =>
    (in_offset text (by omega)).mpr hp
  have hout : ∀ i < size, In out size (out + UInt32.ofNat i) := fun i hi =>
    (in_offset out (by omega)).mpr hi
  have hne : ∀ p < N, ∀ i < size, text + UInt32.ofNat p ≠ out + UInt32.ofNat i :=
    fun p hp i hi heq => hs.text_out _ (htext p hp) (heq ▸ hout i hi)
  rw [h.r1] at hmem
  refine ⟨?_, ?_, fun r hr hr1 hr2 => (hreg r hr hr1 hr2).trans (h.fixed r hr hr1 hr2),
    hstack.trans h.stack, htrace.trans h.trace, ?_, fun i hi => ?_, fun x htx hox => ?_⟩
  · rw [h1, h.r1, hlen, UInt32.ofNat_add, ← UInt32.add_assoc]
    rfl
  · rw [h2, h.r2, hlen, writePosition_succ]
  · rw [hlen, writePosition_succ]
    have hpush := h.ring.push c
    refine ⟨hpush.lt, fun p hp => (Eq.trans ?_ (hpush.eq p hp))⟩
    rw [hmem]
    by_cases hp' : p = writePosition done.length
    · rw [hp', Function.update_self, Function.update_self]
    · rw [Function.update_of_ne fun heq => hp' (offset_inj (by omega) (by omega) heq),
        Function.update_of_ne (hne p hp _ hroom), Function.update_of_ne hp']
  · rw [hlen] at hi
    rw [hmem, Function.update_of_ne (hne _ hpos i (by omega)).symm]
    rcases Nat.lt_succ_iff_lt_or_eq.mp hi with hlt | rfl
    · rw [Function.update_of_ne fun heq => hlt.ne (offset_inj (by omega) (by omega) heq),
        h.chars i hlt, List.getElem_append_left hlt]
    · rw [Function.update_self]
      simp
  · have hold : ¬In out done.length x := fun hin => hox (hin.mono (by omega))
    rw [hmem, Function.update_of_ne, Function.update_of_ne, h.frame x htx hold]
    · rintro rfl
      exact hox ((in_offset out (by omega)).mpr (by omega))
    · rintro rfl
      exact htx (htext _ hpos)

/-! ## `store_byte` -/

/-- `store_byte` before its branches. -/
def stored (s : Core) : Core :=
  (((((s.strbPost .r4 .r1 1).strbReg .r4 .r9 .r2).add .r2 .r2 1).lsl .r2 22).lsr .r2 22).subs
    .r6 .r6 1

@[simp] theorem reg_stored_r3 (s : Core) : (stored s).reg .r3 = s.reg .r3 := by
  simp [stored, Core.strbPost, Core.strbReg, Core.add, Core.lsl, Core.lsr, Core.subs, Core.cmp]

@[simp] theorem reg_stored_r5 (s : Core) : (stored s).reg .r5 = s.reg .r5 := by
  simp [stored, Core.strbPost, Core.strbReg, Core.add, Core.lsl, Core.lsr, Core.subs, Core.cmp]

@[simp] theorem reg_stored_r6 (s : Core) : (stored s).reg .r6 = s.reg .r6 - 1 := by
  simp [stored, Core.strbPost, Core.strbReg, Core.add, Core.lsl, Core.lsr, Core.subs, Core.cmp]

@[simp] theorem reg_stored_r7 (s : Core) : (stored s).reg .r7 = s.reg .r7 := by
  simp [stored, Core.strbPost, Core.strbReg, Core.add, Core.lsl, Core.lsr, Core.subs, Core.cmp]

theorem Decoding.stored (hs : Setup s₀ stream text out size) (h : Decoding s₀ s text out done)
    (hroom : done.length < size) {c : UInt8} (hc : (s.reg .r4).toUInt8 = c) :
    Decoding s₀ (stored s) text out (done ++ [c]) := by
  have h9 : s.reg .r9 = text :=
    (h.fixed .r9 (by decide) (by decide) (by decide)).trans hs.r9
  have h2 : s.reg .r2 = UInt32.ofNat (writePosition done.length) := by
    rw [← h.r2, UInt32.ofNat_toNat]
  refine h.store hs hroom ?_ ?_ ?_ (fun r hr h1 h2 => ?_) rfl rfl
  · rw [← hc, ← h9, ← h2]
    simp [Logo.stored, Core.strbPost, Core.strbReg, Core.add, Core.lsl, Core.lsr, Core.subs, Core.cmp]
  · simp [Logo.stored, Core.strbPost, Core.strbReg, Core.add, Core.lsl, Core.lsr, Core.subs, Core.cmp]
  · have hlt := writePosition_lt done.length
    have h2' : (s.reg .r2 + 1).toNat = (s.reg .r2).toNat + 1 := by
      rw [← h.r2] at hlt
      rw [UInt32.toNat_add, UInt32.toNat_one]
      exact Nat.mod_eq_of_lt (by unfold N at hlt; omega)
    rw [← h2', ← toNat_mask]
    simp [Logo.stored, Core.strbPost, Core.strbReg, Core.add, Core.lsl, Core.lsr, Core.subs, Core.cmp]
  · have h6 : r ≠ .r6 := fun heq => absurd (heq ▸ hr) (by decide)
    simp [Logo.stored, Core.strbPost, Core.strbReg, Core.add, Core.lsl, Core.lsr, Core.subs,
      Core.cmp, h1, h2, h6]

/-- `bne output_loop` is taken while characters of the match are left. -/
theorem code_storeByte_more (hr6 : s.reg .r6 ≠ 1) :
    code .storeByte s = some (.outputLoop, stored s) := by
  have hne : (stored s).holds .ne := by
    refine (Core.holds_set _ _ _ _).trans ((Core.holds_cmp_ne _ _).mpr ?_)
    simpa [Core.strbPost, Core.strbReg, Core.add, Core.lsl, Core.lsr] using hr6
  exact if_pos hne

/-- After the last one the next item is read. -/
theorem code_storeByte_last (hr6 : s.reg .r6 = 1) (hflags : Flags (s.reg .r5) bits) :
    code .storeByte s = some (entry bits, (stored s).cmp .r5 0xff) := by
  have hne : ¬(stored s).holds .ne := by
    refine fun hholds => absurd ((Core.holds_set _ _ _ _).symm.trans hholds)
      (mt (Core.holds_cmp_ne _ _).mp ?_)
    simpa [Core.strbPost, Core.strbReg, Core.add, Core.lsl, Core.lsr] using hr6
  have hgt : ((stored s).cmp .r5 0xff).holds .gt ↔ bits ≠ [] := by
    rw [Core.holds_cmp (by rw [reg_stored_r5]; exact hflags.lt) (by decide), reg_stored_r5]
    exact hflags.more
  refine (if_neg hne).trans ?_
  by_cases hbits : bits = []
  · rw [entry, if_pos hbits]
    exact if_neg fun hholds => hgt.mp hholds hbits
  · rw [entry, if_neg hbits]
    exact if_pos (hgt.mpr hbits)

/-! ## Matches -/

/-- `output_loop`, up to `store_byte`. -/
def copied (s : Core) : Core := (((s.lsl .r7 22).lsr .r7 22).ldrbReg .r4 .r9 .r7).add .r7 .r7 1

theorem code_outputLoop (s : Core) : code .outputLoop s = some (.storeByte, copied s) := rfl

theorem reg_copied_r7 (s : Core) : (copied s).reg .r7 = (s.reg .r7 <<< 22) >>> 22 + 1 := by
  simp [copied, Core.lsl, Core.lsr, Core.ldrbReg, Core.add]

theorem reg_copied_r4 (s : Core) :
    (copied s).reg .r4 = (s.mem (s.reg .r9 + (s.reg .r7 <<< 22) >>> 22)).toUInt32 := by
  simp [copied, Core.lsl, Core.lsr, Core.ldrbReg, Core.add]

theorem reg_copied {r : Register} (s : Core) (h4 : r ≠ .r4) (h7 : r ≠ .r7) :
    (copied s).reg r = s.reg r := by
  simp [copied, Core.lsl, Core.lsr, Core.ldrbReg, Core.add, h4, h7]

theorem Decoding.copied (h : Decoding s₀ s text out done) :
    Decoding s₀ (copied s) text out done :=
  h.keep rfl rfl rfl fun _ hr =>
    reg_copied s (fun heq => absurd (heq ▸ hr) (by decide)) fun heq => absurd (heq ▸ hr) (by decide)

/-- The character that is loaded from `text_buf` is the one at the distance of the match. -/
theorem Decoding.loaded (hs : Setup s₀ stream text out size) (h : Decoding s₀ s text out done) :
    ((Logo.copied s).reg .r4).toUInt8 =
      back 0 done (distance N (writePosition done.length) ((s.reg .r7).toNat % N)) := by
  have h9 : s.reg .r9 = text :=
    (h.fixed .r9 (by decide) (by decide) (by decide)).trans hs.r9
  have h7 : (s.reg .r7 <<< 22) >>> 22 = UInt32.ofNat ((s.reg .r7).toNat % N) := by
    rw [← toNat_mask, UInt32.ofNat_toNat]
  rw [reg_copied_r4, h9, h7, UInt8.toUInt8_toUInt32]
  exact h.ring.eq _ (Nat.mod_lt _ (by decide))

/-- `output_loop` copies a match. Both positions in `text_buf` go on together. -/
theorem outputLoop_run (hs : Setup s₀ stream text out size) {dist : Nat} (len : Nat)
    (hlen : len + 1 < 2 ^ 32) (h : Decoding s₀ s text out done)
    (hroom : done.length + (len + 1) ≤ size) (hr6 : s.reg .r6 = UInt32.ofNat (len + 1))
    (hflags : Flags (s.reg .r5) bits)
    (hdist : distance N (writePosition done.length) ((s.reg .r7).toNat % N) = dist) :
    ∃ s', code.Reaches (.outputLoop, s) (entry bits, s') ∧
      Decoding s₀ s' text out (copyBack 0 dist (len + 1) done) ∧ s'.reg .r3 = s.reg .r3 ∧
      Flags (s'.reg .r5) bits := by
  induction len generalizing s done with
  | zero =>
    have hr6' : (copied s).reg .r6 = 1 := (reg_copied s (by decide) (by decide)).trans hr6
    have hr5 : (copied s).reg .r5 = s.reg .r5 := reg_copied s (by decide) (by decide)
    have hr3 : (copied s).reg .r3 = s.reg .r3 := reg_copied s (by decide) (by decide)
    have hstored := h.copied.stored hs (by omega) (h.loaded hs)
    rw [hdist] at hstored
    refine ⟨(stored (copied s)).cmp .r5 0xff, .step (code_outputLoop s) (.step
      (code_storeByte_last hr6' (hr5.symm ▸ hflags)) .refl), hstored.cmp _ _, ?_, ?_⟩
    · rw [Core.cmp, Core.reg_withFlags, reg_stored_r3, hr3]
    · rw [Core.cmp, Core.reg_withFlags, reg_stored_r5, hr5]
      exact hflags
  | succ len ih =>
    have hr6' : (copied s).reg .r6 = UInt32.ofNat (len + 1 + 1) :=
      (reg_copied s (by decide) (by decide)).trans hr6
    have hmore : (copied s).reg .r6 ≠ 1 := by
      rw [hr6', ne_eq, ← UInt32.toNat_inj, UInt32.toNat_ofNat_of_lt' (by omega), UInt32.toNat_one]
      omega
    have hr5 : (copied s).reg .r5 = s.reg .r5 := reg_copied s (by decide) (by decide)
    have hr3 : (copied s).reg .r3 = s.reg .r3 := reg_copied s (by decide) (by decide)
    have hstored := h.copied.stored hs (by omega) (h.loaded hs)
    rw [hdist] at hstored
    have hpos := writePosition_lt done.length
    have hmod : (s.reg .r7).toNat % N < N := Nat.mod_lt _ (by decide)
    have hr7 : ((stored (copied s)).reg .r7).toNat % N = ((s.reg .r7).toNat % N + 1) % N := by
      rw [reg_stored_r7, reg_copied_r7, UInt32.toNat_add, toNat_mask, UInt32.toNat_one]
      unfold N at hmod ⊢
      omega
    obtain ⟨s', hreaches, hdecoding, hr3', hflags'⟩ := ih (s := stored (copied s)) (by omega) hstored
      (by rw [List.length_append, List.length_singleton]; omega)
      (by
        rw [reg_stored_r6, hr6', UInt32.ofNat_add]
        exact UInt32.add_sub_cancel _ 1)
      (by rw [reg_stored_r5, hr5]; exact hflags)
      (by
        rw [hr7, List.length_append, List.length_singleton, writePosition_succ,
          distance_succ hpos hmod, hdist])
    exact ⟨s', .step (code_outputLoop s) (.step (code_storeByte_more hmore) hreaches), hdecoding,
      hr3'.trans ((reg_stored_r3 _).trans hr3), hflags'⟩

/-! ## Items -/

/-- The stream is read up to its first `k` bytes. -/
def ReadTo (s₀ s : Core) (k : Nat) : Prop := s.reg .r3 = s₀.reg .r3 + UInt32.ofNat k

theorem ReadTo.next {k : Nat} (h : ReadTo s₀ s k) :
    s.reg .r3 + 1 = s₀.reg .r3 + UInt32.ofNat (k + 1) := by
  rw [h, UInt32.ofNat_add, ← UInt32.add_assoc]
  rfl

/-- The comparison with the end, also one byte behind it. -/
theorem holds_end (hs : Setup s₀ stream text out size) (h : Decoding s₀ s text out done) {k : Nat}
    (hk : k ≤ stream.length + 1) (hread : ReadTo s₀ s k) :
    (s.cmpReg .r3 .r8).holds .ge ↔ stream.length ≤ k := by
  have hlow := hs.low
  have h3 : (s.reg .r3).toNat = (s₀.reg .r3).toNat + k := by
    rw [hread, UInt32.toNat_add, UInt32.toNat_ofNat_of_lt' (show k < 2 ^ 32 by omega)]
    exact Nat.mod_eq_of_lt (by omega)
  have h8 : (s.reg .r8).toNat = (s₀.reg .r3).toNat + stream.length := by
    rw [h.fixed .r8 (by decide) (by decide) (by decide), hs.r8, UInt32.toNat_add,
      UInt32.toNat_ofNat_of_lt' (show stream.length < 2 ^ 32 by omega)]
    exact Nat.mod_eq_of_lt (by omega)
  rw [Core.holds_cmpReg (by omega) (by omega), h3, h8]
  omega

theorem code_testFlags_end (h : (s.cmpReg .r3 .r8).holds .ge) :
    code .testFlags s = some (.doneLogo, s.cmpReg .r3 .r8) :=
  if_pos h

theorem code_testFlags_item (h : ¬(s.cmpReg .r3 .r8).holds .ge) :
    code .testFlags s = some (.discreteChar, (s.cmpReg .r3 .r8).lsrs .r5) :=
  if_neg h

/-- `decompression_loop`: the next flags. -/
def flagsLoaded (s : Core) : Core := (s.ldrbPost .r4 .r3 1).orr .r5 .r4 0x8000

theorem code_decompressionLoop (s : Core) :
    code .decompressionLoop s = some (.testFlags, flagsLoaded s) := rfl

theorem reg_flagsLoaded_r3 (s : Core) : (flagsLoaded s).reg .r3 = s.reg .r3 + 1 := by
  simp [flagsLoaded, Core.ldrbPost, Core.orr]

theorem reg_flagsLoaded_r5 (s : Core) :
    (flagsLoaded s).reg .r5 = (s.mem (s.reg .r3)).toUInt32 ||| 0x8000 := by
  simp [flagsLoaded, Core.ldrbPost, Core.orr]

theorem Decoding.flagsLoaded (h : Decoding s₀ s text out done) :
    Decoding s₀ (flagsLoaded s) text out done := by
  refine h.keep rfl rfl rfl fun r hr => ?_
  simp only [kept, List.mem_cons, List.not_mem_nil, or_false] at hr
  rcases hr with rfl | rfl | rfl | rfl | rfl | rfl | rfl <;>
    simp [Logo.flagsLoaded, Core.ldrbPost, Core.orr]

/-- A character of the stream, with its flag taken. -/
def charLoaded (s : Core) : Core := (((s.cmpReg .r3 .r8).lsrs .r5).ldrbPost .r4 .r3 1).mov .r6 1

/-- A match of the stream, with its flag taken. -/
def pairLoaded (s : Core) : Core :=
  ((((((s.cmpReg .r3 .r8).lsrs .r5).ldrbPost .r0 .r3 1).ldrbPost .r7 .r3 1).orrLsl .r7 .r0 .r7
    8).mov .r0 (THRESHOLD + 1)).addLsr .r6 .r0 .r7 P_BITS

theorem code_discreteChar (h : s.c = true) :
    code .discreteChar s = some (.storeByte, (s.ldrbPost .r4 .r3 1).mov .r6 1) := by
  have hloaded : (s.ldrbPost .r4 .r3 1).c = true := h
  have hmoved : ((s.ldrbPost .r4 .r3 1).mov .r6 1).c = true := h
  show (if (if (if s.c then _ else _ : Core).c then _ else _ : Core).c then _ else _) = _
  simp only [h, hloaded, hmoved, if_true]

theorem code_discreteChar_pair (h : s.c = false) :
    code .discreteChar s = some (.offsetLength, s) := by
  show (if (if (if s.c then _ else _ : Core).c then _ else _ : Core).c then _ else _) = _
  simp [h]

theorem code_offsetLength (s : Core) :
    code .offsetLength ((s.cmpReg .r3 .r8).lsrs .r5) = some (.outputLoop, pairLoaded s) := rfl

theorem carry_lsrs (hflags : Flags (s.reg .r5) (bit :: bits)) :
    ((s.cmpReg .r3 .r8).lsrs .r5).c = bit :=
  hflags.carry

theorem reg_charLoaded {r : Register} (hr : r ∉ [.r3, .r4, .r5, .r6]) (s : Core) :
    (charLoaded s).reg r = s.reg r := by
  simp only [List.mem_cons, List.not_mem_nil, or_false, not_or] at hr
  simp [charLoaded, Core.cmpReg, Core.lsrs, Core.ldrbPost, Core.mov, hr]

theorem reg_pairLoaded {r : Register} (hr : r ∉ [.r0, .r3, .r5, .r6, .r7]) (s : Core) :
    (pairLoaded s).reg r = s.reg r := by
  simp only [List.mem_cons, List.not_mem_nil, or_false, not_or] at hr
  simp [pairLoaded, Core.cmpReg, Core.lsrs, Core.ldrbPost, Core.mov, Core.orrLsl, Core.addLsr, hr]

theorem Decoding.charLoaded (h : Decoding s₀ s text out done) :
    Decoding s₀ (charLoaded s) text out done :=
  h.keep rfl rfl rfl fun r hr => reg_charLoaded (by revert r; decide) s

theorem Decoding.pairLoaded (h : Decoding s₀ s text out done) :
    Decoding s₀ (pairLoaded s) text out done :=
  h.keep rfl rfl rfl fun r hr => reg_pairLoaded (by revert r; decide) s

theorem charLoaded_eq (s : Core) :
    (charLoaded s).reg .r3 = s.reg .r3 + 1 ∧ (charLoaded s).reg .r4 = (s.mem (s.reg .r3)).toUInt32 ∧
      (charLoaded s).reg .r5 = s.reg .r5 >>> 1 ∧ (charLoaded s).reg .r6 = 1 := by
  refine ⟨?_, ?_, ?_, ?_⟩ <;>
    simp [charLoaded, Core.cmpReg, Core.lsrs, Core.ldrbPost, Core.mov, Core.mem_set]

theorem pairLoaded_eq (s : Core) :
    (pairLoaded s).reg .r3 = s.reg .r3 + 1 + 1 ∧
      (pairLoaded s).reg .r7 =
        (s.mem (s.reg .r3)).toUInt32 ||| (s.mem (s.reg .r3 + 1)).toUInt32 <<< 8 ∧
      (pairLoaded s).reg .r5 = s.reg .r5 >>> 1 ∧
      (pairLoaded s).reg .r6 = THRESHOLD + 1 + (pairLoaded s).reg .r7 >>> P_BITS := by
  refine ⟨?_, ?_, ?_, ?_⟩ <;>
    simp [pairLoaded, Core.cmpReg, Core.lsrs, Core.ldrbPost, Core.mov, Core.orrLsl, Core.addLsr]

/-- The stream ends. -/
theorem end_run (hs : Setup s₀ stream text out size) (h : Decoding s₀ s text out done)
    (hread : ReadTo s₀ s stream.length) (bits : List Bool) :
    ∃ s', code.Reaches (entry bits, s) (.doneLogo, s') ∧ Decoding s₀ s' text out done := by
  unfold entry
  split
  · -- a byte behind the stream is loaded as flags
    have hread' : ReadTo s₀ (flagsLoaded s) (stream.length + 1) :=
      (reg_flagsLoaded_r3 s).trans hread.next
    have hend := (holds_end hs h.flagsLoaded (le_refl _) hread').mpr (Nat.le_succ _)
    exact ⟨_, .step (code_decompressionLoop s) (.step (code_testFlags_end hend) .refl),
      h.flagsLoaded.cmpReg _ _⟩
  · have hend := (holds_end hs h (Nat.le_succ _) hread).mpr (le_refl _)
    exact ⟨_, .step (code_testFlags_end hend) .refl, h.cmpReg _ _⟩

/-- The decompressor goes through the items, from the flags `bits` on. -/
theorem items_run (hs : Setup s₀ stream text out size) (bits : List Bool) (bytes : List UInt8) :
    ∀ {its : List Item}, items bits bytes = some its → ∀ {s : Core} {before done : List UInt8},
      stream = before ++ bytes → ReadTo s₀ s before.length → Decoding s₀ s text out done →
      (bits ≠ [] → Flags (s.reg .r5) bits) →
      ((tokens done its).foldl (emit 0) done).length ≤ size →
      ∃ s', code.Reaches (entry bits, s) (.doneLogo, s') ∧
        Decoding s₀ s' text out ((tokens done its).foldl (emit 0) done) := by
  induction bits, bytes using items.induct with
  | case1 bits =>
    intro its hitems s before done hstream hread h hflags hroom
    obtain rfl : [] = its := by simpa [items] using hitems
    have hlen : stream.length = before.length := by rw [hstream, List.append_nil]
    exact end_run hs h (hlen ▸ hread) bits
  | case2 flags bytes ih =>
    intro its hitems s before done hstream hread h hflags hroom
    rw [items] at hitems
    have hbyte : s.mem (s.reg .r3) = flags := by
      rw [hread]
      exact h.read hs ((List.IsPrefix.length_le (prefix_foldl_emit _ _)).trans hroom) hstream
    have hread' : ReadTo s₀ (flagsLoaded s) (before ++ [flags]).length := by
      rw [List.length_append, List.length_singleton]
      exact (reg_flagsLoaded_r3 s).trans hread.next
    have hflags' : Flags ((flagsLoaded s).reg .r5) (bitsOf 8 flags.toNat) := by
      rw [reg_flagsLoaded_r5, hbyte]
      exact flags_orr flags
    obtain ⟨s', hreaches, hdecoding⟩ := ih hitems (hstream.trans (List.append_cons _ _ _)) hread'
      h.flagsLoaded (fun _ => hflags') hroom
    exact ⟨s', .step (code_decompressionLoop s) hreaches, hdecoding⟩
  | case3 bits c bytes ih =>
    intro its hitems s before done hstream hread h hflags hroom
    rw [items] at hitems
    obtain ⟨rest, hrest, rfl⟩ := Option.map_eq_some_iff.mp hitems
    have hflags' := hflags (List.cons_ne_nil _ _)
    have hroom' : (done ++ [c]).length ≤ size :=
      (List.IsPrefix.length_le (prefix_foldl_emit _ _)).trans hroom
    rw [List.length_append, List.length_singleton] at hroom'
    have hmore : ¬(s.cmpReg .r3 .r8).holds .ge := by
      rw [holds_end hs h (by rw [hstream, List.length_append]; omega) hread, hstream]
      simp
    have hbyte : s.mem (s.reg .r3) = c := by
      rw [hread]
      exact h.read hs (by omega) hstream
    obtain ⟨hr3, hr4, hr5, hr6⟩ := charLoaded_eq s
    have hflags'' : Flags ((charLoaded s).reg .r5) bits := hr5 ▸ hflags'.tail
    have hstored := h.charLoaded.stored hs (c := c) (by omega)
      (by rw [hr4, hbyte, UInt8.toUInt8_toUInt32])
    have hread' : ReadTo s₀ ((stored (charLoaded s)).cmp .r5 0xff) (before ++ [c]).length := by
      rw [List.length_append, List.length_singleton]
      refine Eq.trans ?_ hread.next
      rw [Core.cmp, Core.reg_withFlags, reg_stored_r3, hr3]
    obtain ⟨s', hreaches, hdecoding⟩ := ih hrest (hstream.trans (List.append_cons _ _ _)) hread'
      (hstored.cmp .r5 0xff) (fun _ => by
        rw [Core.cmp, Core.reg_withFlags, reg_stored_r5]
        exact hflags'') hroom
    exact ⟨s', .step (code_testFlags_item hmore) (.step (code_discreteChar (carry_lsrs hflags'))
      (.step (code_storeByte_last hr6 hflags'') hreaches)), hdecoding⟩
  | case4 bits lo =>
    intro its hitems
    simp [items] at hitems
  | case5 bits lo hi bytes ih =>
    intro its hitems s before done hstream hread h hflags hroom
    rw [items] at hitems
    obtain ⟨rest, hrest, rfl⟩ := Option.map_eq_some_iff.mp hitems
    have hflags' := hflags (List.cons_ne_nil _ _)
    have hlo := lo.toNat_lt
    have hhi := hi.toNat_lt
    have hroom' : (emit 0 done ((matchOf lo hi).token done)).length ≤ size :=
      (List.IsPrefix.length_le (prefix_foldl_emit _ _)).trans hroom
    have hlength : (emit 0 done ((matchOf lo hi).token done)).length =
        done.length + (hi.toNat / 4 + 2 + 1) := length_copyBack _ _ _
    have hmore : ¬(s.cmpReg .r3 .r8).holds .ge := by
      rw [holds_end hs h (by rw [hstream, List.length_append]; omega) hread, hstream]
      simp
    have hlow : s.mem (s.reg .r3) = lo := by
      rw [hread]
      exact h.read hs (by omega) hstream
    have hhigh : s.mem (s.reg .r3 + 1) = hi := by
      rw [hread.next]
      have hbehind := h.read hs (by omega) (hstream.trans (List.append_cons _ _ _))
      rwa [List.length_append, List.length_singleton] at hbehind
    obtain ⟨hr3, hr7, hr5, hr6⟩ := pairLoaded_eq s
    rw [hlow, hhigh] at hr7
    have hr7' : ((pairLoaded s).reg .r7).toNat = lo.toNat + 256 * hi.toNat := hr7 ▸ toNat_pair lo hi
    have hr6' : (pairLoaded s).reg .r6 = UInt32.ofNat (hi.toNat / 4 + 2 + 1) := by
      rw [← UInt32.toNat_inj, hr6, toNat_matchLength, hr7',
        UInt32.toNat_ofNat_of_lt' (show hi.toNat / 4 + 2 + 1 < 2 ^ 32 by omega)]
      omega
    have hmod : ((pairLoaded s).reg .r7).toNat % N = lo.toNat + 256 * (hi.toNat % 4) := by
      rw [hr7']
      unfold N
      omega
    obtain ⟨s₁, hcopy, hcopied, hr3', hflags''⟩ := outputLoop_run hs (hi.toNat / 4 + 2) (by omega)
      h.pairLoaded (by omega) hr6' (hr5 ▸ hflags'.tail) (congrArg _ hmod)
    have hread' : ReadTo s₀ s₁ (before ++ [lo] ++ [hi]).length := by
      have hnext : ReadTo s₀ (s.set .r3 (s.reg .r3 + 1)) (before.length + 1) := by
        simpa [ReadTo] using hread.next
      simp only [List.length_append, List.length_singleton]
      rw [ReadTo, hr3', hr3]
      simpa using hnext.next
    obtain ⟨s', hreaches, hdecoding⟩ := ih hrest
      (hstream.trans ((List.append_cons _ _ _).trans (List.append_cons _ _ _))) hread' hcopied
      (fun _ => hflags'') hroom
    exact ⟨s', .step (code_testFlags_item hmore) (.step
      (code_discreteChar_pair (carry_lsrs hflags')) (.step (code_offsetLength s)
        (hcopy.trans hreaches))), hdecoding⟩

/-! ## Printing -/

/-- The address of the output buffer is still there. -/
theorem Decoding.out_addr (hs : Setup s₀ stream text out size) (h : Decoding s₀ s text out done)
    (hsize : done.length ≤ size) : Core.loadWord s.mem (s.reg .r12) = out := by
  have h12 : s.reg .r12 = s₀.reg .r12 := h.fixed .r12 (by decide) (by decide) (by decide)
  have hbyte : ∀ i < 4, s.mem (s₀.reg .r12 + UInt32.ofNat i) = s₀.mem (s₀.reg .r12 + UInt32.ofNat i) :=
    fun i hi => h.frame _ (hs.addr_text i hi) fun hout => hs.addr_out i hi (hout.mono hsize)
  have hzero := hbyte 0 (by decide)
  rw [show UInt32.ofNat 0 = 0 from rfl, UInt32.add_zero] at hzero
  rw [← hs.out_addr, h12, Core.loadWord, Core.loadWord, hzero]
  exact congrArg₂ _ (congrArg₂ _ (congrArg₂ _ rfl (congrArg (fun b : UInt8 => b.toUInt32 <<< 8)
    (hbyte 1 (by decide)))) (congrArg (fun b : UInt8 => b.toUInt32 <<< 16) (hbyte 2 (by decide))))
    (congrArg (fun b : UInt8 => b.toUInt32 <<< 24) (hbyte 3 (by decide)))

/-- The first characters of the output buffer. -/
theorem Decoding.bytes (h : Decoding s₀ s text out done) {n : Nat} (hn : n ≤ done.length) :
    s.bytes out n = done.take n := by
  unfold Core.bytes
  refine List.ext_getElem (by simp; omega) fun i hi hi' => ?_
  rw [List.length_map, List.length_range] at hi
  rw [List.getElem_map, List.getElem_range, List.getElem_take]
  exact h.chars i (by omega)

/-- The output buffer is empty behind the characters. -/
theorem Decoding.empty (hs : Setup s₀ stream text out size) (h : Decoding s₀ s text out done) {i : Nat}
    (hi : done.length ≤ i) (hsize : i < size) : s.mem (out + UInt32.ofNat i) = 0 := by
  have hlt : i < 2 ^ 32 := by
    have := hs.size_le
    omega
  rw [h.frame _ (fun htext => hs.text_out _ htext ((in_offset out hlt).mpr hsize))
    fun hout => Nat.not_lt.mpr hi ((in_offset out hlt).mp hout)]
  exact hs.empty i hsize

/-- The first element that `takeWhile` does not take. -/
theorem not_getElem_takeWhile {p : UInt8 → Bool} {l : List UInt8}
    (h : (l.takeWhile p).length < l.length) : p l[(l.takeWhile p).length] = false := by
  induction l with
  | nil => exact absurd h (Nat.not_lt_zero _)
  | cons c l ih =>
    by_cases hc : p c = true
    · rw [List.takeWhile_cons_of_pos hc, List.length_cons, List.length_cons] at h
      simpa only [List.takeWhile_cons_of_pos hc, List.length_cons, List.getElem_cons_succ] using
        ih (Nat.lt_of_succ_lt_succ h)
    · simpa only [List.takeWhile_cons_of_neg hc, List.length_nil, List.getElem_cons_zero,
        Bool.not_eq_true] using hc

/-- `write_stdout` on the output buffer. -/
theorem print_run (hs : Setup s₀ stream text out size) (h : Decoding s₀ s text out done)
    (hroom : done.length + 1 < size) :
    ∃ s', code.Reaches (.doneLogo, s) (.firstLine, s') ∧
      s'.written = s₀.written ++ [(1, printed done)] ∧ s'.mem = s.mem := by
  have hsize := hs.size_le
  have hr1 : (s.ldr .r1 .r12 0).reg .r1 = out := by
    rw [Core.ldr, UInt32.add_zero, h.out_addr hs (by omega)]
    simp
  have hrun : ∀ n, n + 1 < 2 ^ 32 →
      (∀ i, 0 < i → i < n + 1 → s.mem (out + UInt32.ofNat i) ≠ 0) →
      s.mem (out + UInt32.ofNat (n + 1)) = 0 → s.bytes out (n + 1) = printed done →
      ∃ s', code.Reaches (.doneLogo, s) (.firstLine, s') ∧
        s'.written = s₀.written ++ [(1, printed done)] ∧ s'.mem = s.mem := by
    intro n hn hchars hend hbytes
    obtain ⟨s', hreaches, htrace, hmem, -⟩ := writeStdout_run (s := s.ldr .r1 .r12 0) .firstLine
      (hr1.symm ▸ hchars) (hr1.symm ▸ hend) hn
    refine ⟨s', .step rfl hreaches, ?_, hmem⟩
    rw [htrace, hr1, ← hbytes, ← h.trace]
    rfl
  cases done with
  | nil =>
    refine hrun 0 (by decide) (fun i hi hlt => absurd hlt (by omega)) (h.empty hs (by simp) hroom) ?_
    have hfirst := h.empty hs (i := 0) (by simp) (by omega)
    rw [show UInt32.ofNat 0 = 0 from rfl, UInt32.add_zero] at hfirst
    simp [Core.bytes, printed, hfirst]
  | cons c rest =>
    have hlen := (List.takeWhile_sublist (l := rest) (· ≠ 0)).length_le
    rw [List.length_cons] at hroom
    have hprefix := List.takeWhile_prefix (l := rest) (· ≠ 0)
    refine hrun (rest.takeWhile (· ≠ 0)).length (by omega) (fun i hi hlt => ?_) ?_ ?_
    · obtain ⟨k, rfl⟩ := Nat.exists_eq_succ_of_ne_zero hi.ne'
      have hk : k < (rest.takeWhile (· ≠ 0)).length := by omega
      rw [h.chars (k + 1) (by rw [List.length_cons]; omega), List.getElem_cons_succ,
        ← hprefix.getElem hk]
      simpa using List.mem_takeWhile_imp (List.getElem_mem hk)
    · by_cases hall : (rest.takeWhile (· ≠ 0)).length = rest.length
      · exact h.empty hs (by rw [List.length_cons, hall]) (by omega)
      · have hlt : (rest.takeWhile (· ≠ 0)).length < rest.length := by omega
        rw [h.chars _ (by rw [List.length_cons]; omega), List.getElem_cons_succ]
        simpa using not_getElem_takeWhile hlt
    · rw [h.bytes (by rw [List.length_cons]; omega), List.take_succ_cons, printed]
      exact congrArg _ (List.prefix_iff_eq_take.mp hprefix).symm

/-- The compressed logo is decompressed and printed, up to the first 0 behind its first character if
there is one. -/
theorem logo_printed (s : Core) (stream : List UInt8) (text out : UInt32) (size : Nat)
    (hs : Setup s stream text out size) (its : List Item) (hitems : items [] stream = some its)
    (hroom : (expand 0 (tokens [] its)).length + 1 < size) :
    ∃ s', code.Reaches (.decompressionLoop, s) (.firstLine, s') ∧
      s'.written = s.written ++ [(1, printed (expand 0 (tokens [] its)))] ∧
      s'.bytes out (expand 0 (tokens [] its)).length = expand 0 (tokens [] its) ∧
      ∀ x, ¬In text N x → ¬In out (expand 0 (tokens [] its)).length x → s'.mem x = s.mem x := by
  obtain ⟨s₁, hreaches, hdecoding⟩ := items_run hs [] stream hitems
    (List.nil_append stream).symm (UInt32.add_zero _).symm hs.start (fun hne => absurd rfl hne)
    (Nat.le_of_lt (Nat.lt_of_succ_lt hroom))
  obtain ⟨s', hprint, htrace, hmem⟩ := print_run hs hdecoding hroom
  refine ⟨s', hreaches.trans hprint, htrace, ?_, hmem ▸ hdecoding.frame⟩
  have hbytes := hdecoding.bytes (le_refl _)
  rw [List.take_length] at hbytes
  refine Eq.trans ?_ hbytes
  rw [expand, Core.bytes, Core.bytes, hmem]

/-- The logo of `logo.lzss_new`. -/
def logo : List UInt8 :=
  [255, 27, 91, 48, 59, 49, 59, 51, 55, 159, 59, 52, 55, 109, 35, 204, 247, 192, 7, 51, 141, 48,
   200, 27, 27, 91, 196, 7, 203, 31, 28, 12, 59, 15, 52, 48, 109, 10, 192, 247, 1, 96, 26, 56,
   44, 156, 31, 27, 91, 51, 49, 109, 204, 4, 65, 172, 13, 36, 2, 28, 16, 79, 13, 32, 16, 65, 147,
   152, 131, 52, 28, 52, 204, 16, 16, 12, 36, 111, 57, 236, 167, 28, 8, 51, 22, 20, 137, 85, 44,
   96, 0, 43, 97, 214, 113, 226, 200, 203, 8, 212, 9, 211, 16, 43, 89, 245, 209, 0, 128, 17, 210,
   24, 13, 40, 28, 20, 13, 44, 28, 28, 240, 74, 26, 91, 0, 13, 80, 95, 101, 135, 101, 43, 85,
   245, 205, 205, 40, 205, 20, 137, 65, 0, 29, 135, 66, 75, 114, 83, 28, 120, 15, 98, 135, 109,
   85, 88, 247, 193, 0, 232, 43, 244, 151, 73, 120, 61, 176, 27, 95, 151, 176, 18, 43, 171, 202,
   16, 223, 22, 26, 245, 90, 245, 217, 63, 51, 27, 86, 146, 91, 176, 2, 0, 12, 29, 211, 200, 172,
   57, 23, 102, 50, 246, 110, 109, 236, 68, 96, 94, 8, 175, 10, 166, 105, 20, 1, 48, 51, 11, 222,
   31, 49, 15, 211, 188, 0, 175, 79, 25, 86, 170, 69, 82, 219, 40, 82, 70, 127, 8, 83, 219, 35,
   0, 169, 85, 170, 53, 24, 33, 18, 104, 145, 42, 200, 34, 178, 104, 112, 45, 0, 198, 80, 178,
   121, 145, 74, 112, 49, 248, 81, 243, 40, 221, 23, 255, 23, 8, 2, 54, 3, 36, 229, 66, 10]

/-- The logo at `0x100`, with the buffers behind it. -/
def logoStart : Core where
  reg
    | .r1 => 0x3000
    | .r2 => UInt32.ofNat (N - F)
    | .r3 => 0x100
    | .r8 => 0x100 + UInt32.ofNat logo.length
    | .r9 => 0x2000
    | .r12 => 0x1000
    | _ => 0
  n := false
  z := false
  c := false
  v := false
  mem x := logo[(x - 0x100).toNat]?.getD (if x = 0x1001 then 0x30 else 0)
  stack := []
  written := []

theorem length_logo : logo.length = 283 := by decide +kernel

theorem mem_logoStart {x : UInt32} (h : 0x300 ≤ x.toNat) :
    logoStart.mem x = if x = 0x1001 then 0x30 else 0 := by
  have hx := x.toNat_lt
  have hlen : logo.length ≤ (x - 0x100).toNat := by
    rw [length_logo, UInt32.toNat_sub, show (0x100 : UInt32).toNat = 256 from rfl]
    omega
  show logo[(x - 0x100).toNat]?.getD _ = _
  rw [List.getElem?_eq_none hlen, Option.getD_none]

theorem length_emit_token (out : List UInt8) (item : Item) :
    (emit 0 out (item.token out)).length = out.length + item.length := by
  cases item with
  | char c => exact List.length_append
  | «match» position len => exact length_copyBack _ _ _

theorem length_foldl_tokens (out : List UInt8) (its : List Item) :
    ((tokens out its).foldl (emit 0) out).length = out.length + (its.map Item.length).sum := by
  induction its generalizing out with
  | nil => rfl
  | cons item its ih =>
    rw [tokens, List.foldl_cons, ih, length_emit_token, List.map_cons, List.sum_cons, Nat.add_assoc]

theorem setup_logoStart : Setup logoStart logo 0x2000 0x3000 16384 where
  r1 := rfl
  r2 := rfl
  r8 := rfl
  r9 := rfl
  low := by
    rw [length_logo]
    decide
  size_le := by decide
  data i hi := by
    have hoffset := offset_toNat (logoStart.reg .r3) (i := i) (by rw [length_logo] at hi; omega)
    show logo[_]?.getD _ = _
    rw [show (0x100 : UInt32) = logoStart.reg .r3 from rfl, hoffset, List.getElem?_eq_getElem hi,
      Option.getD_some]
  zeros p hp := by
    have haddr : (0x2000 + UInt32.ofNat p).toNat = 0x2000 + p := by
      rw [UInt32.toNat_add, UInt32.toNat_ofNat_of_lt' (show p < 2 ^ 32 by unfold N at hp; omega)]
      exact Nat.mod_eq_of_lt (by unfold N at hp; simp; omega)
    rw [mem_logoStart (by omega), if_neg fun heq => ?_]
    rw [heq] at haddr
    exact absurd haddr (by simp; omega)
  logo_text := in_apart (by rw [length_logo]; decide)
  logo_out := in_apart (by rw [length_logo]; decide)
  text_out := in_apart (by decide)
  empty p hp := by
    have haddr : (0x3000 + UInt32.ofNat p).toNat = 0x3000 + p := by
      rw [UInt32.toNat_add, UInt32.toNat_ofNat_of_lt' (show p < 2 ^ 32 by omega)]
      exact Nat.mod_eq_of_lt (by simp; omega)
    rw [mem_logoStart (by omega), if_neg fun heq => ?_]
    rw [heq] at haddr
    exact absurd haddr (by simp; omega)
  out_addr := by decide +kernel
  addr_text := by decide
  addr_out := by decide

theorem items_logo : ∃ its, items [] logo = some its ∧ (its.map Item.length).sum = 2739 := by
  have hitems : ((items [] logo).map fun its => (its.map Item.length).sum) = some 2739 := by
    decide +kernel
  exact Option.map_eq_some_iff.mp hitems

theorem logo_printed_logo : ∃ its s', items [] logo = some its ∧
    code.Reaches (.decompressionLoop, logoStart) (.firstLine, s') ∧
    s'.written = [(1, printed (expand 0 (tokens [] its)))] := by
  obtain ⟨its, hitems, hlength⟩ := items_logo
  have hroom : (expand 0 (tokens [] its)).length + 1 < 16384 := by
    rw [expand, length_foldl_tokens, hlength]
    decide
  obtain ⟨s', hreaches, htrace, -⟩ := logo_printed logoStart logo 0x2000 0x3000 16384
    setup_logoStart its hitems hroom
  exact ⟨its, s', hitems, hreaches, htrace⟩

end Vmwos.Logo
