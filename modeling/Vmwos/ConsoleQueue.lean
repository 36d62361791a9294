import Vmwos.Console

/-!
# The console input buffer as a queue

The abstract model of the ring buffer is a queue of at most 255 characters: the characters that
were accepted and have not been returned. One of the 256 places of the ring stays free, since
equal indices mean that it is empty.

Result: `console_fifo`. After any calls of `console_insert_char` and `console_get_char`, the
next call returns what it returns on the queue.
-/

namespace Vmwos.Console

/-! ## Definitions -/

/-- A call of `console_insert_char` or of `console_get_char`. -/
inductive BufferCall where
  | insertChar (ch : UInt8)
  | getChar

/-- The result of a call, and the buffer after it. -/
def Input.call (b : Input) : BufferCall → Int × Input
  | .insertChar ch => (b.insertChar ch).elim (-1, b) fun b' => (0, b')
  | .getChar => (b.getChar.1.toNat, b.getChar.2)

/-- The same calls on a bounded queue. -/
def queueCall (queue : List UInt8) : BufferCall → Int × List UInt8
  | .insertChar ch =>
    if queue.length = inputBufferSize - 1 then (-1, queue) else (0, queue ++ [ch])
  | .getChar => ((queue.headD 0).toNat, queue.tail)

/-- The buffer after calls, the first of them on the empty buffer. -/
def inputAfter (calls : List BufferCall) : Input :=
  calls.foldl (fun b call => (b.call call).2) start.input

/-- The queue after calls: the characters that were accepted and have not been returned. -/
def queueAfter (calls : List BufferCall) : List UInt8 :=
  calls.foldl (fun queue call => (queueCall queue call).2) []

/-- The buffer holds the queue. -/
structure Holds (b : Input) (queue : List UInt8) : Prop where
  valid : b.Valid
  held : b.held = queue

variable {b : Input} {queue : List UInt8} {calls : List BufferCall}

/-! ## One call -/

/-- A character is dropped exactly when one place is left. -/
theorem insertChar_eq_none_iff (h : b.Valid) (ch : UInt8) :
    b.insertChar ch = none ↔ b.count = inputBufferSize - 1 := by
  obtain ⟨hhead, htail⟩ := h
  have hfull : (b.head + 1) % inputBufferSize = b.tail ↔ b.count = inputBufferSize - 1 := by
    unfold Input.count
    unfold inputBufferSize at *
    omega
  simp only [Input.insertChar, Input.wrapped hhead]
  rw [← hfull]
  simp

theorem Holds.length_eq (h : Holds b queue) : queue.length = b.count := by
  rw [← h.held, Input.length_held]

/-- A call returns what it returns on the queue, and the buffer goes on holding it. -/
theorem Holds.call (h : Holds b queue) (call : BufferCall) :
    (b.call call).1 = (queueCall queue call).1 ∧
      Holds (b.call call).2 (queueCall queue call).2 := by
  cases call with
  | insertChar ch =>
    simp only [Input.call, queueCall, h.length_eq]
    cases hinsert : b.insertChar ch with
    | none =>
      rw [if_pos ((insertChar_eq_none_iff h.valid ch).mp hinsert)]
      exact ⟨rfl, h⟩
    | some b' =>
      have hroom : b.count ≠ inputBufferSize - 1 := by
        intro hfull
        rw [(insertChar_eq_none_iff h.valid ch).mpr hfull] at hinsert
        cases hinsert
      obtain ⟨hvalid, hheld⟩ := Input.held_insertChar h.valid hinsert
      rw [if_neg hroom]
      exact ⟨rfl, hvalid, hheld.trans (congrArg (· ++ [ch]) h.held)⟩
  | getChar =>
    simp only [Input.call, queueCall]
    by_cases hempty : b.Empty
    · have hnil : queue = [] := by
        rw [← List.length_eq_zero_iff, h.length_eq]
        exact (Input.empty_iff h.valid).mp hempty
      rw [hnil] at h ⊢
      simp only [Input.getChar, if_pos hempty]
      exact ⟨rfl, h⟩
    · obtain ⟨hvalid, hheld⟩ := Input.held_getChar h.valid hempty
      have hqueue : queue = b.getChar.1 :: b.getChar.2.held := h.held.symm.trans hheld
      rw [hqueue]
      exact ⟨rfl, hvalid, rfl⟩

/-! ## All calls -/

theorem holds_after (calls : List BufferCall) : Holds (inputAfter calls) (queueAfter calls) := by
  have hrun : ∀ b queue, Holds b queue →
      Holds (calls.foldl (fun b call => (b.call call).2) b)
        (calls.foldl (fun queue call => (queueCall queue call).2) queue) := by
    induction calls with
    | nil => exact fun _ _ h => h
    | cons call calls ih => exact fun b queue h => ih _ _ (h.call call).2
  exact hrun _ _ ⟨⟨by decide, by decide⟩, rfl⟩

/-- After any calls, the indices are in the buffer, the next call returns what it returns on the
queue of the accepted characters that have not been returned, and `console_insert_char` returns
-1 and changes nothing exactly when there are 255 of them. -/
theorem console_fifo (calls : List BufferCall) :
    (inputAfter calls).head < inputBufferSize ∧ (inputAfter calls).tail < inputBufferSize ∧
      (∀ call, ((inputAfter calls).call call).1 = (queueCall (queueAfter calls) call).1) ∧
      ∀ ch, (inputAfter calls).call (.insertChar ch) = (-1, inputAfter calls) ↔
        (queueAfter calls).length = 255 := by
  have h := holds_after calls
  refine ⟨h.valid.head, h.valid.tail, fun call => (h.call call).1, fun ch => ?_⟩
  have hlength : (queueAfter calls).length = 255 ↔ (inputAfter calls).insertChar ch = none := by
    rw [insertChar_eq_none_iff h.valid, h.length_eq]
    rfl
  rw [hlength]
  simp only [Input.call]
  cases hinsert : (inputAfter calls).insertChar ch with
  | none => simp
  | some b' => simp

end Vmwos.Console
