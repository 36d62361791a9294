import Mathlib.Data.List.Basic
import Mathlib.Tactic.Linarith
import Vmwos.Runs

/-!
# The console input buffer

The ring buffer of `console_io.c`, between the interrupt handlers that put characters in
and `console_read`. It is empty when head and tail are equal.

The characters in the buffer, from tail to head, are `held`: `insertChar` appends one
(`held_insertChar`), `getChar` takes the first (`held_getChar`), and `console_read` takes as
many as it is asked for and goes on with zeros when there are no more (`getChars_eq`).

Result: `console_delivers_iff`. The readers get the characters as they were typed exactly
when no read asks for more than are in the buffer (`read_invents_a_byte`).
-/

namespace Vmwos.Console

open Runs

/-! ## The buffer -/

/-- `INPUT_BUFFER_SIZE`. -/
def inputBufferSize : Nat := 256

/-- `input_buffer`, `input_buffer_head` and `input_buffer_tail`. -/
structure Input where
  buffer : Nat → UInt8
  head : Nat
  tail : Nat

namespace Input

def Empty (b : Input) : Prop := b.head = b.tail

instance (b : Input) : Decidable b.Empty := inferInstanceAs (Decidable (_ = _))

/-- The buffer part of `console_insert_char`, or `none` when the buffer is full. -/
def insertChar (b : Input) (ch : UInt8) : Option Input :=
  let newHead := if b.head + 1 ≥ inputBufferSize then 0 else b.head + 1
  if newHead = b.tail then none
  else some { b with buffer := Function.update b.buffer b.head ch, head := newHead }

/-- `console_get_char`. -/
def getChar (b : Input) : UInt8 × Input :=
  if b.Empty then (0, b)
  else (b.buffer b.tail,
    { b with tail := if b.tail + 1 ≥ inputBufferSize then 0 else b.tail + 1 })

/-- The loop of `console_read`: the characters it stores. -/
def getChars (b : Input) : Nat → List UInt8 × Input
  | 0 => ([], b)
  | n + 1 =>
    let (ch, b) := b.getChar
    let (chs, b) := b.getChars n
    (ch :: chs, b)

/-! ## The characters in it -/

/-- Head and tail are indices of the buffer. -/
structure Valid (b : Input) : Prop where
  head : b.head < inputBufferSize
  tail : b.tail < inputBufferSize

/-- The number of characters in the buffer. -/
def count (b : Input) : Nat := (b.head + inputBufferSize - b.tail) % inputBufferSize

/-- The characters in the buffer, the oldest first. -/
def held (b : Input) : List UInt8 :=
  (List.range b.count).map fun k => b.buffer ((b.tail + k) % inputBufferSize)

variable {b b' : Input} {ch : UInt8}

theorem length_held (b : Input) : b.held.length = b.count := by
  rw [held, List.length_map, List.length_range]

theorem empty_iff (h : b.Valid) : b.Empty ↔ b.count = 0 := by
  obtain ⟨hhead, htail⟩ := h
  unfold Empty count
  unfold inputBufferSize at *
  omega

/-- The index after an index. -/
theorem wrapped {i : Nat} (h : i < inputBufferSize) :
    (if i + 1 ≥ inputBufferSize then 0 else i + 1) = (i + 1) % inputBufferSize := by
  unfold inputBufferSize at *
  split <;> omega

theorem held_insertChar (h : b.Valid) (hinsert : b.insertChar ch = some b') :
    b'.Valid ∧ b'.held = b.held ++ [ch] := by
  obtain ⟨hhead, htail⟩ := h
  simp only [insertChar, wrapped hhead] at hinsert
  by_cases hfull : (b.head + 1) % inputBufferSize = b.tail
  · rw [if_pos hfull] at hinsert
    cases hinsert
  · rw [if_neg hfull] at hinsert
    cases hinsert
    have hcount : ((b.head + 1) % inputBufferSize + inputBufferSize - b.tail) % inputBufferSize =
        b.count + 1 := by
      unfold count
      unfold inputBufferSize at *
      omega
    refine ⟨⟨Nat.mod_lt _ (by decide), htail⟩, ?_⟩
    unfold held
    rw [count, hcount, List.range_succ, List.map_append, List.map_singleton]
    congr 1
    · -- the other characters are not at the old head
      refine List.map_congr_left fun k hk => ?_
      have hne : (b.tail + k) % inputBufferSize ≠ b.head := by
        have hlt := List.mem_range.mp hk
        unfold count at hlt
        unfold inputBufferSize at *
        omega
      exact Function.update_of_ne hne _ _
    · have hat : (b.tail + b.count) % inputBufferSize = b.head := by
        unfold count
        unfold inputBufferSize at *
        omega
      show [Function.update b.buffer b.head ch ((b.tail + b.count) % inputBufferSize)] = [ch]
      rw [hat, Function.update_self]

theorem held_getChar (h : b.Valid) (hne : ¬b.Empty) :
    b.getChar.2.Valid ∧ b.held = b.getChar.1 :: b.getChar.2.held := by
  have hpos : b.count ≠ 0 := fun hzero => hne ((empty_iff h).mpr hzero)
  obtain ⟨hhead, htail⟩ := h
  rw [getChar, if_neg hne, wrapped htail]
  have hcount : b.count =
      (b.head + inputBufferSize - (b.tail + 1) % inputBufferSize) % inputBufferSize + 1 := by
    unfold count at hpos ⊢
    unfold inputBufferSize at *
    omega
  refine ⟨⟨hhead, Nat.mod_lt _ (by decide)⟩, ?_⟩
  unfold held
  rw [hcount, List.range_succ_eq_map, List.map_cons, List.map_map, Nat.add_zero,
    Nat.mod_eq_of_lt htail]
  congr 1
  refine List.map_congr_left fun k _ => ?_
  show b.buffer ((b.tail + (k + 1)) % inputBufferSize) =
    b.buffer (((b.tail + 1) % inputBufferSize + k) % inputBufferSize)
  rw [Nat.mod_add_mod, Nat.add_assoc, Nat.add_comm 1 k]

/-- `console_read` takes the characters in the buffer, and zeros behind them. -/
theorem getChars_eq (h : b.Valid) (n : Nat) :
    (b.getChars n).2.Valid ∧
      (b.getChars n).1 = b.held.take n ++ List.replicate (n - b.count) 0 ∧
      (b.getChars n).2.held = b.held.drop n := by
  induction n generalizing b with
  | zero => exact ⟨h, by simp [getChars], by simp [getChars]⟩
  | succ n ih =>
    by_cases hempty : b.Empty
    · have hheld : b.held = [] := by
        rw [← List.length_eq_zero_iff, length_held]
        exact (empty_iff h).mp hempty
      have hzero := (empty_iff h).mp hempty
      obtain ⟨hvalid, hchars, hrest⟩ := ih h
      have hgets : b.getChars (n + 1) = (0 :: (b.getChars n).1, (b.getChars n).2) := by
        rw [getChars, getChar, if_pos hempty]
      rw [hgets]
      refine ⟨hvalid, ?_, ?_⟩
      · rw [hchars, hheld, hzero]
        simp [List.replicate_succ]
      · rw [hrest, hheld]
        simp
    · obtain ⟨hvalid', hheld⟩ := held_getChar h hempty
      obtain ⟨hvalid, hchars, hrest⟩ := ih hvalid'
      have hgets : b.getChars (n + 1) =
          (b.getChar.1 :: (b.getChar.2.getChars n).1, (b.getChar.2.getChars n).2) := by
        rw [getChars]
      have hcount : b.count = b.getChar.2.count + 1 := by
        rw [← length_held, ← length_held, hheld, List.length_cons]
      rw [hgets]
      refine ⟨hvalid, ?_, ?_⟩
      · rw [hchars, hheld, hcount, List.take_succ_cons, List.cons_append,
          Nat.add_sub_add_right]
      · rw [hrest, hheld, List.drop_succ_cons]

end Input

/-! ## Typing and reading -/

/-- A call of `console_insert_char`, or of `console_read` from the point on where it looks at
the buffer: when it has to wait, it looks again later. -/
inductive Call where
  | insertChar (ch : UInt8)
  | read (count : UInt32)

/-- The buffer, with the characters accepted by `console_insert_char` and the bytes stored by
`console_read` so far. -/
structure Session where
  input : Input
  accepted : List UInt8
  delivered : List UInt8

/-- One call. -/
def step (s : Session) : Call → Option Session
  | .insertChar ch =>
    match s.input.insertChar ch with
    | none => some s
    | some input => some { s with input := input, accepted := s.accepted ++ [ch] }
  | .read count =>
    if s.input.Empty then some s
    else
      let (chs, input) := s.input.getChars count.toNat
      some { s with input := input, delivered := s.delivered ++ chs }

/-- Before the first character. -/
def start : Session := ⟨⟨fun _ => 0, 0, 0⟩, [], []⟩

/-- The bytes that were read are the first that were typed. -/
def Delivers (s : Session) : Prop := s.delivered <+: s.accepted

/-- A read that finds characters asks for no more than there are. -/
def ReadsHeld (s : Session) : Call → Prop
  | .insertChar _ => True
  | .read count => s.input.Empty ∨ count.toNat ≤ s.input.count

/-- What was typed is what was read and what is in the buffer. -/
structure Inv (s : Session) : Prop where
  valid : s.input.Valid
  typed : s.accepted = s.delivered ++ s.input.held

theorem Inv.delivers {s : Session} (h : Inv s) : Delivers s := ⟨s.input.held, h.typed.symm⟩

theorem step_insertChar {s : Session} (h : Inv s) (ch : UInt8) :
    ∃ s', step s (.insertChar ch) = some s' ∧ Inv s' := by
  cases hinsert : s.input.insertChar ch with
  | none => exact ⟨s, by rw [step, hinsert], h⟩
  | some input =>
    obtain ⟨hvalid, hheld⟩ := Input.held_insertChar h.valid hinsert
    refine ⟨_, by rw [step, hinsert], hvalid, ?_⟩
    rw [hheld, h.typed, List.append_assoc]

/-- A read delivers what is in the buffer, and invents bytes when it asks for more. -/
theorem step_read {s : Session} (h : Inv s) (count : UInt32) :
    ∃ s', step s (.read count) = some s' ∧ (ReadsHeld s (.read count) ↔ Delivers s') ∧
      (Delivers s' → Inv s') := by
  by_cases hempty : s.input.Empty
  · exact ⟨s, by rw [step, if_pos hempty], ⟨fun _ => h.delivers, fun _ => .inl hempty⟩, fun _ => h⟩
  · obtain ⟨hvalid, hchars, hrest⟩ := Input.getChars_eq h.valid count.toNat
    have hlen := s.input.length_held
    refine ⟨_, by rw [step, if_neg hempty], ?_⟩
    -- the read asks for what there is, or delivers more than was typed
    have hiff : ReadsHeld s (.read count) ↔
        s.delivered ++ (s.input.getChars count.toNat).1 <+: s.accepted := by
      rw [h.typed, List.prefix_append_right_inj, hchars]
      constructor
      · rintro (hnot | hle)
        · exact absurd hnot hempty
        · rw [Nat.sub_eq_zero_of_le hle, List.replicate_zero, List.append_nil]
          exact List.take_prefix _ _
      · intro hpre
        have hle := hpre.length_le
        rw [List.length_append, List.length_take, List.length_replicate, hlen] at hle
        exact .inr (by omega)
    refine ⟨hiff, fun hdelivers => ⟨hvalid, ?_⟩⟩
    rcases hiff.mpr hdelivers with hnot | hle
    · exact absurd hnot hempty
    · show s.accepted = (s.delivered ++ (s.input.getChars count.toNat).1) ++ _
      rw [hchars, hrest, Nat.sub_eq_zero_of_le hle, List.replicate_zero, List.append_nil,
        List.append_assoc, List.take_append_drop, h.typed]

/-- Input is delivered as typed exactly when no read asks for more than there is. -/
theorem console_delivers_iff (calls : List Call) :
    AllStates step Delivers start calls ↔ AllSteps step ReadsHeld start calls := by
  have hstart : Inv start := ⟨⟨by decide, by decide⟩, rfl⟩
  refine AllStates.iff_of_inv (A := fun _ _ => True) (fun s hs => hs.delivers)
    (fun s call hs _ => ?_) hstart (AllSteps.all fun _ _ => trivial)
  cases call with
  | insertChar ch =>
    obtain ⟨s', hs', hinv⟩ := step_insertChar hs ch
    exact ⟨s', hs', ⟨fun _ => hinv.delivers, fun _ => trivial⟩, fun _ => hinv⟩
  | read count => exact step_read hs count

/-- One character is typed, and two are read. -/
theorem read_invents_a_byte :
    ¬AllStates step Delivers start [.insertChar 97, .read 2] := by
  intro hdelivers
  have hrun : (run step start [.insertChar 97, .read 2]).map (fun s => (s.delivered, s.accepted)) =
      some ([97, 0], [97]) := by decide +kernel
  obtain ⟨s, hs, heq⟩ := Option.map_eq_some_iff.mp hrun
  simp only [Prod.mk.injEq] at heq
  have hpre : s.delivered <+: s.accepted := hdelivers.last hs
  rw [heq.1, heq.2] at hpre
  exact absurd hpre.length_le (by decide)

end Vmwos.Console
