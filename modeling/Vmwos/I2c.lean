import Vmwos.Bytes
import Vmwos.Runs

/-!
# I2C transfers

`bcm2835_i2c1_write` and its sibling `bcm2835_i2c1_read`. What they do depends on the values of
the control, status and data registers, which the hardware may change between any two reads: a
run takes the values one after the other, as the code reads them. What is written to the registers
is kept in a log.

Results:

1. `i2c_write_iff`: a write sends a prefix of the buffer exactly when no more than `count`
   polls find that the FIFO wants data;
2. `i2c_read_bounded`: a read, which looks at `count` before each poll, never stores more.
-/

namespace Vmwos.I2c

open Bytes Runs

/-! ## Definitions -/

/-- The registers of `I2C1` that a transfer uses. -/
inductive Register
  | c | s | dlen | a | fifo
  deriving DecidableEq

def cRead : UInt32 := 1
def cClear : UInt32 := 0x30
def cSt : UInt32 := 0x80

def sDone : UInt32 := 0x2
def sTxw : UInt32 := 0x4
def sRxd : UInt32 := 0x20
def sErr : UInt32 := 0x100
def sClkt : UInt32 := 0x200

def aAddr : UInt32 := 0x7f

/-- The flag is set. -/
def isSet (value flag : UInt32) : Prop := value &&& flag ≠ 0

instance (value flag : UInt32) : Decidable (isSet value flag) := inferInstanceAs (Decidable (_ ≠ _))

/-- The next read of a register in `bcm2835_i2c1_write`: in `i2c1_setup_xfer`, at the start of the
transfer, in the condition of the outer loop, of the inner loop, or behind the loops. -/
inductive Phase
  | setup | direction | outer | poll | finish | finished
  deriving DecidableEq

/-- `next` bytes of the buffer have been passed. -/
structure Transfer where
  phase : Phase
  bytesSent : UInt32
  next : Nat
  log : List (Register × UInt32)
  result : Int

/-- The writes of `i2c1_setup_xfer` before it reads the control register. -/
def setupLog (address : UInt16) (count : UInt32) : List (Register × UInt32) :=
  [(.a, address.toUInt32 &&& aAddr), (.s, sErr ||| sClkt ||| sDone), (.dlen, count)]

def writeStart (address : UInt16) (count : UInt32) : Transfer :=
  { phase := .setup, bytesSent := 0, next := 0, log := setupLog address count, result := 0 }

/-- `bcm2835_i2c1_write` from one read of a register to the next. -/
def writeStep (buf : Nat → UInt8) (t : Transfer) (value : UInt32) : Option Transfer :=
  match t.phase with
  | .setup =>
    some { t with phase := .direction, log := t.log ++ [(.c, (value &&& ~~~cRead) ||| cClear)] }
  | .direction => some { t with phase := .outer, log := t.log ++ [(.c, value ||| cSt)] }
  | .outer => some { t with phase := if isSet value sDone then .finish else .poll }
  | .poll =>
    if isSet value sTxw then
      some { t with
        log := t.log ++ [(.fifo, (buf t.next).toUInt32)]
        next := t.next + 1
        bytesSent := t.bytesSent + 1 }
    else some { t with phase := .outer }
  | .finish =>
    let old := value ||| sDone
    some { t with
      phase := .finished
      log := t.log ++ [(.s, old)]
      result := if isSet old sErr then -1 else if isSet old sClkt then -1
        else t.bytesSent.toInt32.toInt }
  | .finished => some t

/-- In `bcm2835_i2c1_read` both inner loops take a byte from the FIFO after each poll. -/
inductive ReadPhase
  | setup | direction | outer | poll | fifo | drain | drainFifo | finish | finished
  deriving DecidableEq

/-- `stored` is what has been written to the buffer, from its start on. -/
structure Reception where
  phase : ReadPhase
  bytesReceived : UInt32
  stored : List UInt8
  log : List (Register × UInt32)
  result : Int

def readStart (address : UInt16) (count : UInt32) : Reception :=
  { phase := .setup, bytesReceived := 0, stored := [], log := setupLog address count, result := 0 }

/-- The guard of both inner loops. -/
def guard (bytesReceived count : UInt32) (inside behind : ReadPhase) : ReadPhase :=
  if bytesReceived < count then inside else behind

/-- `bcm2835_i2c1_read` from one read of a register to the next. -/
def readStep (count : UInt32) (t : Reception) (value : UInt32) : Option Reception :=
  match t.phase with
  | .setup =>
    some { t with phase := .direction, log := t.log ++ [(.c, (value &&& ~~~cRead) ||| cClear)] }
  | .direction => some { t with phase := .outer, log := t.log ++ [(.c, value ||| (cSt ||| cRead))] }
  | .outer => some { t with
      phase := if isSet value sDone then guard t.bytesReceived count .drain .finish
        else guard t.bytesReceived count .poll .outer }
  | .poll => some { t with phase := if isSet value sRxd then .fifo else .outer }
  | .fifo => some { t with
      phase := guard (t.bytesReceived + 1) count .poll .outer
      stored := t.stored ++ [(value &&& 0xff).toUInt8]
      bytesReceived := t.bytesReceived + 1 }
  | .drain => some { t with phase := if isSet value sRxd then .drainFifo else .finish }
  | .drainFifo => some { t with
      phase := guard (t.bytesReceived + 1) count .drain .finish
      stored := t.stored ++ [(value &&& 0xff).toUInt8]
      bytesReceived := t.bytesReceived + 1 }
  | .finish =>
    let old := value ||| sDone
    some { t with
      phase := .finished
      log := t.log ++ [(.s, old)]
      result := if isSet old sErr then -1 else if isSet old sClkt then -2
        else t.bytesReceived.toInt32.toInt }
  | .finished => some t

/-- What was written to the FIFO. -/
def pushed (log : List (Register × UInt32)) : List UInt32 :=
  (log.filter (·.1 = .fifo)).map Prod.snd

/-- The first bytes of the buffer, as they are written to a register. -/
def firstBytes (buf : Nat → UInt8) (n : Nat) : List UInt32 :=
  (List.range n).map fun i => (buf i).toUInt32

/-- The FIFO got a prefix of the buffer, and a result that is no error is its length. -/
structure Sends (buf : Nat → UInt8) (count : UInt32) (t : Transfer) : Prop where
  pushed : ∃ n ≤ count.toNat, pushed t.log = firstBytes buf n
  result : t.phase = .finished → 0 ≤ t.result → t.result = (I2c.pushed t.log).length

/-- The buffer has room for what was stored, and a result that is no error is its length. -/
structure Receives (count : UInt32) (t : Reception) : Prop where
  length : t.stored.length ≤ count.toNat
  result : t.phase = .finished → 0 ≤ t.result → t.result = t.stored.length

/-! ## The flags -/

/-- Where the code reads next. It depends on the registers alone. -/
def Phase.after (value : UInt32) : Phase → Phase
  | setup => direction
  | direction => outer
  | outer => if isSet value sDone then finish else poll
  | poll => if isSet value sTxw then poll else outer
  | finish => finished
  | finished => finished

/-- The number of polls that find `TXW` set. -/
def requests : Phase → List UInt32 → Nat
  | _, [] => 0
  | phase, value :: values =>
    (if phase = .poll ∧ isSet value sTxw then 1 else 0) + requests (phase.after value) values

/-! ## Writing, one register at a time -/

variable {buf : Nat → UInt8} {count : UInt32} {t t' : Transfer} {value : UInt32}

/-- What a run keeps, as long as no more than `count` bytes are pushed. -/
structure Inv (buf : Nat → UInt8) (t : Transfer) : Prop where
  pushed : pushed t.log = firstBytes buf t.next
  sent : t.bytesSent = UInt32.ofNat t.next
  result : t.phase = .finished → t.result = -1 ∨ t.result = t.bytesSent.toInt32.toInt

theorem pushed_append (log : List (Register × UInt32)) (r : Register) (v : UInt32) :
    pushed (log ++ [(r, v)]) = pushed log ++ if r = .fifo then [v] else [] := by
  unfold pushed
  rw [List.filter_append, List.map_append]
  cases r <;> rfl

theorem length_firstBytes (n : Nat) : (firstBytes buf n).length = n := by simp [firstBytes]

theorem firstBytes_succ (n : Nat) :
    firstBytes buf (n + 1) = firstBytes buf n ++ [(buf n).toUInt32] := by
  unfold firstBytes
  rw [List.range_succ, List.map_append, List.map_singleton]

/-- A counter that has not wrapped, read as a signed number that is not negative. -/
theorem counter_of_nonneg {n : Nat} (hle : n ≤ count.toNat)
    (h : 0 ≤ (UInt32.ofNat n).toInt32.toInt) : (UInt32.ofNat n).toInt32.toInt = n := by
  have hcount := count.toNat_lt
  have hn : (UInt32.ofNat n).toNat = n := UInt32.toNat_ofNat_of_lt' (show n < 2 ^ 32 by omega)
  rw [toInt_toInt32, hn] at h ⊢
  split at h <;> rename_i hlt
  · rw [if_pos hlt]
  · omega

/-- A result that is no error is the number of bytes sent. -/
theorem Inv.sends_iff (h : Inv buf t) : Sends buf count t ↔ t.next ≤ count.toNat := by
  constructor
  · rintro ⟨⟨n, hn, hpushed⟩, -⟩
    have hlength := congrArg List.length (h.pushed.symm.trans hpushed)
    rw [length_firstBytes, length_firstBytes] at hlength
    omega
  · intro hle
    refine ⟨⟨t.next, hle, h.pushed⟩, fun hphase hpos => ?_⟩
    rw [h.pushed, length_firstBytes]
    rcases h.result hphase with hresult | hresult
    · rw [hresult] at hpos
      exact absurd hpos (by decide)
    · rw [hresult, h.sent] at hpos ⊢
      exact counter_of_nonneg hle hpos

/-- A step goes on where the registers lead it, and sends a byte if it is asked for one. -/
theorem Inv.step (h : Inv buf t) (value : UInt32) :
    ∃ t', writeStep buf t value = some t' ∧ Inv buf t' ∧ t'.phase = t.phase.after value ∧
      t'.next = t.next + if t.phase = .poll ∧ isSet value sTxw then 1 else 0 := by
  cases hphase : t.phase with
  | setup =>
    have hstep : writeStep buf t value = some { t with
        phase := .direction, log := t.log ++ [(.c, (value &&& ~~~cRead) ||| cClear)] } := by
      simp only [writeStep, hphase]
    refine ⟨_, hstep, ⟨?_, h.sent, fun hend => by cases hend⟩, rfl, by simp⟩
    exact (pushed_append _ _ _).trans ((List.append_nil _).trans h.pushed)
  | direction =>
    have hstep : writeStep buf t value = some { t with
        phase := .outer, log := t.log ++ [(.c, value ||| cSt)] } := by
      simp only [writeStep, hphase]
    refine ⟨_, hstep, ⟨?_, h.sent, fun hend => by cases hend⟩, rfl, by simp⟩
    exact (pushed_append _ _ _).trans ((List.append_nil _).trans h.pushed)
  | outer =>
    have hstep : writeStep buf t value = some { t with
        phase := if isSet value sDone then .finish else .poll } := by
      simp only [writeStep, hphase]
    refine ⟨_, hstep, ⟨h.pushed, h.sent, fun hend => ?_⟩, rfl, by simp⟩
    simp only at hend
    split at hend <;> cases hend
  | poll =>
    by_cases hset : isSet value sTxw
    · have hstep : writeStep buf t value = some { t with
          log := t.log ++ [(.fifo, (buf t.next).toUInt32)]
          next := t.next + 1
          bytesSent := t.bytesSent + 1 } := by
        simp only [writeStep, hphase, if_pos hset]
      refine ⟨_, hstep, ⟨?_, ?_, fun hend => ?_⟩, ?_, by simp [hset]⟩
      · refine (pushed_append _ _ _).trans ?_
        rw [if_pos rfl, h.pushed]
        exact (firstBytes_succ _).symm
      · show t.bytesSent + 1 = UInt32.ofNat (t.next + 1)
        rw [h.sent, UInt32.ofNat_add]
        rfl
      · exact absurd (hphase.symm.trans hend) (by decide)
      · simp only [hphase, Phase.after, if_pos hset]
    · have hstep : writeStep buf t value = some { t with phase := .outer } := by
        simp only [writeStep, hphase, if_neg hset]
      refine ⟨_, hstep, ⟨h.pushed, h.sent, fun hend => by cases hend⟩, ?_, by simp [hset]⟩
      simp only [Phase.after, if_neg hset]
  | finish =>
    have hstep : writeStep buf t value = some { t with
        phase := .finished
        log := t.log ++ [(.s, value ||| sDone)]
        result := if isSet (value ||| sDone) sErr then -1
          else if isSet (value ||| sDone) sClkt then -1 else t.bytesSent.toInt32.toInt } := by
      simp only [writeStep, hphase]
    refine ⟨_, hstep, ⟨?_, h.sent, fun _ => ?_⟩, rfl, by simp⟩
    · exact (pushed_append _ _ _).trans ((List.append_nil _).trans h.pushed)
    · simp only
      split
      · exact .inl rfl
      · split
        · exact .inl rfl
        · exact .inr rfl
  | finished =>
    have hstep : writeStep buf t value = some t := by simp only [writeStep, hphase]
    exact ⟨t, hstep, h, hphase, by simp⟩

/-! ## A whole write -/

/-- From a state with `next` bytes sent, the polls that are still to come count. -/
theorem Inv.sends_run_iff (h : Inv buf t) (hle : t.next ≤ count.toNat) (values : List UInt32) :
    AllStates (writeStep buf) (Sends buf count) t values ↔
      t.next + requests t.phase values ≤ count.toNat := by
  induction values generalizing t with
  | nil => exact h.sends_iff
  | cons value values ih =>
    obtain ⟨t', hstep, h', hphase, hnext⟩ := h.step value
    have hrun : AllStates (writeStep buf) (Sends buf count) t (value :: values) ↔
        AllStates (writeStep buf) (Sends buf count) t' values := by
      rw [allStates_cons, and_iff_right (h.sends_iff.mpr hle)]
      refine ⟨fun hall => hall t' hstep, fun hall s hs => ?_⟩
      cases hstep.symm.trans hs
      exact hall
    have hsum : t.next + requests t.phase (value :: values) =
        t'.next + requests t'.phase values := by
      rw [requests, hnext, hphase, Nat.add_assoc]
    rw [hrun, hsum]
    rcases Nat.lt_or_ge count.toNat t'.next with hgt | hle'
    · -- one byte too many has been sent
      refine iff_of_false (fun hall => ?_) (by omega)
      exact absurd (h'.sends_iff.mp hall.head) (Nat.not_le.mpr hgt)
    · exact ih h' hle'

theorem inv_start (buf : Nat → UInt8) (address : UInt16) (count : UInt32) :
    Inv buf (writeStart address count) :=
  ⟨rfl, rfl, fun hend => by cases hend⟩

/-- For every buffer, count and sequence of register values, `bcm2835_i2c1_write` sends a prefix of
the first `count` bytes, and returns its length or an error, exactly when at most `count` polls
find that the FIFO wants data. -/
theorem i2c_write_iff (address : UInt16) (buf : Nat → UInt8) (count : UInt32)
    (values : List UInt32) :
    AllStates (writeStep buf) (Sends buf count) (writeStart address count) values ↔
      requests .setup values ≤ count.toNat := by
  have hrun := (inv_start buf address count).sends_run_iff (Nat.zero_le count.toNat) values
  rw [hrun]
  show 0 + requests .setup values ≤ count.toNat ↔ _
  rw [Nat.zero_add]

/-- One byte is to be sent, and two polls find room in the FIFO. -/
theorem write_sends_too_much :
    ¬AllStates (writeStep fun _ => 0xfe) (Sends (fun _ => 0xfe) 1) (writeStart 0x52 1)
      [0, 0, 0, 4, 4] := by
  intro hsends
  have hrun : (run (writeStep fun _ => 0xfe) (writeStart 0x52 1) [0, 0, 0, 4, 4]).map
      (fun t => (pushed t.log).length) = some 2 := by
    decide +kernel
  obtain ⟨t, ht, hlength⟩ := Option.map_eq_some_iff.mp hrun
  obtain ⟨n, hn, hpushed⟩ := (hsends.last ht).pushed
  rw [hpushed, length_firstBytes] at hlength
  rw [hlength] at hn
  exact absurd hn (by decide)

/-! ## Reading -/

variable {r : Reception}

/-- In the inner loops there is room for a byte. -/
def ReadPhase.inside : ReadPhase → Prop
  | poll | fifo | drain | drainFifo => True
  | _ => False

/-- What a run of `bcm2835_i2c1_read` keeps. -/
structure ReadInv (count : UInt32) (r : Reception) : Prop where
  length : r.stored.length ≤ count.toNat
  room : r.phase.inside → r.stored.length < count.toNat
  received : r.bytesReceived = UInt32.ofNat r.stored.length
  result : r.phase = .finished → r.result < 0 ∨ r.result = r.bytesReceived.toInt32.toInt

/-- Behind the guard there is room. -/
theorem room_of_guard {n : Nat} {b : UInt32} {inside behind : ReadPhase} (hle : n ≤ count.toNat)
    (hb : b = UInt32.ofNat n) (hbehind : ¬behind.inside)
    (h : (guard b count inside behind).inside) : n < count.toNat := by
  have hcount := count.toNat_lt
  have hn : b.toNat = n := by
    rw [hb]
    exact UInt32.toNat_ofNat_of_lt' (show n < 2 ^ 32 by omega)
  unfold guard at h
  split at h
  next hlt => exact hn ▸ UInt32.lt_iff_toNat_lt.mp hlt
  next => exact absurd h hbehind

theorem guard_ne_finished {b : UInt32} {inside behind : ReadPhase} (hin : inside ≠ .finished)
    (hbehind : behind ≠ .finished) : guard b count inside behind ≠ .finished := by
  unfold guard
  split
  · exact hin
  · exact hbehind

/-- A byte is taken from the FIFO in either inner loop. -/
theorem ReadInv.store (h : ReadInv count r) (hroom : r.phase.inside) (b : UInt8)
    {inside behind : ReadPhase} (hin : inside ≠ .finished) (hbehind : ¬behind.inside)
    (hend : behind ≠ .finished) :
    ReadInv count { r with
      phase := guard (r.bytesReceived + 1) count inside behind
      stored := r.stored ++ [b]
      bytesReceived := r.bytesReceived + 1 } := by
  have hlength : (r.stored ++ [b]).length = r.stored.length + 1 := by simp
  have hle : (r.stored ++ [b]).length ≤ count.toNat := hlength ▸ h.room hroom
  have hreceived : r.bytesReceived + 1 = UInt32.ofNat (r.stored ++ [b]).length := by
    rw [hlength, h.received, UInt32.ofNat_add]
    rfl
  refine ⟨hle, fun hguard => room_of_guard hle hreceived hbehind hguard, hreceived, fun hfin => ?_⟩
  exact absurd hfin (guard_ne_finished hin hend)

theorem ReadInv.step {r' : Reception} (h : ReadInv count r)
    (hstep : readStep count r value = some r') : ReadInv count r' := by
  cases hphase : r.phase with
  | setup | direction =>
    simp only [readStep, hphase, Option.some.injEq] at hstep
    subst hstep
    exact ⟨h.length, fun hin => hin.elim, h.received, fun hend => by cases hend⟩
  | outer =>
    simp only [readStep, hphase, Option.some.injEq] at hstep
    subst hstep
    refine ⟨h.length, fun hin => ?_, h.received, fun hend => ?_⟩
    · simp only at hin
      split at hin
      · exact room_of_guard h.length h.received id hin
      · exact room_of_guard h.length h.received id hin
    · simp only at hend
      split at hend
      · exact absurd hend (guard_ne_finished (by decide) (by decide))
      · exact absurd hend (guard_ne_finished (by decide) (by decide))
  | poll | drain =>
    have hroom : r.stored.length < count.toNat := h.room (by rw [hphase]; trivial)
    simp only [readStep, hphase, Option.some.injEq] at hstep
    subst hstep
    refine ⟨h.length, fun _ => hroom, h.received, fun hend => ?_⟩
    simp only at hend
    split at hend <;> cases hend
  | fifo | drainFifo =>
    simp only [readStep, hphase, Option.some.injEq] at hstep
    subst hstep
    exact h.store (by rw [hphase]; trivial) _ (by decide) id (by decide)
  | finish =>
    simp only [readStep, hphase, Option.some.injEq] at hstep
    subst hstep
    refine ⟨h.length, fun hin => hin.elim, h.received, fun _ => ?_⟩
    simp only
    split
    · exact .inl (by decide)
    · split
      · exact .inl (by decide)
      · exact .inr rfl
  | finished =>
    simp only [readStep, hphase, Option.some.injEq] at hstep
    exact hstep ▸ h

theorem ReadInv.receives (h : ReadInv count r) : Receives count r := by
  refine ⟨h.length, fun hphase hpos => ?_⟩
  rcases h.result hphase with hresult | hresult
  · exact absurd hpos (Int.not_le.mpr hresult)
  · rw [hresult, h.received] at hpos ⊢
    exact counter_of_nonneg h.length hpos

/-- The guard in front of each poll is enough: whatever the registers hold, `bcm2835_i2c1_read`
stores at most `count` bytes. -/
theorem i2c_read_bounded (address : UInt16) (count : UInt32) (values : List UInt32) :
    AllStates (readStep count) (Receives count) (readStart address count) values := by
  have hstart : ReadInv count (readStart address count) :=
    ⟨Nat.zero_le _, fun hin => hin.elim, rfl, fun hend => by cases hend⟩
  have hall : AllSteps (readStep count) (fun _ _ => True) (readStart address count) values :=
    AllSteps.all fun _ _ => trivial
  exact AllStates.of_inv (fun r value r' h _ hstep => h.step hstep) (fun r h => h.receives)
    hstart hall

end Vmwos.I2c
