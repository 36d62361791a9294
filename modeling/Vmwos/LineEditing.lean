import Vmwos.Bytes
import Vmwos.Runs

/-!
# The input line of the shell

The loop of `main` in `shell.c`: it reads a key at a time, stores characters in
`input_string[256]`, and passes the line to `parse_input` at a newline or carriage return. A
backspace or delete takes the last character back. The loop does not look at the size of the
buffer.

The keys of a line are kept beside the state, and what they leave of it is `edited`.

Result: `line_editing_iff`. The loop stays inside the buffer and passes on the edited lines
exactly when no line has 256 characters at a key that stores one more.
-/

namespace Vmwos.LineEditing

open Bytes Runs

/-! ## Definitions -/

/-- The size of `input_string`. -/
def inputSize : Nat := 256

def isNewline (ch : UInt8) : Prop := ch = 10 ∨ ch = 13

def isBackspace (ch : UInt8) : Prop := ch = 0x7f ∨ ch = 8

instance : DecidablePred isNewline := fun _ => inferInstanceAs (Decidable (_ ∨ _))

instance : DecidablePred isBackspace := fun _ => inferInstanceAs (Decidable (_ ∨ _))

/-- The variables of the loop: the memory from `input_string` on, the pointer and the flag. Beside
them, the keys of this line, the indices that were written, and for each line that was passed to
`parse_input` its keys and the memory at the call. -/
structure Session where
  inputString : Mem
  inputPointer : Nat
  done : Bool
  typed : List UInt8
  written : List Nat
  passed : List (List UInt8 × Mem)

/-- `input_string[input_pointer] = c`. -/
def Session.store (s : Session) (c : UInt8) : Session :=
  { s with
    inputString := write s.inputString s.inputPointer [c]
    written := s.written ++ [s.inputPointer] }

/-- The call of `parse_input`, which gets the line and may change it. It gives 1 at `exit`. -/
def Session.pass (parseInput : Mem → Int × Mem) (s : Session) : Session :=
  { s with
    inputString := (parseInput s.inputString).2
    inputPointer := 0
    done := (parseInput s.inputString).1 = 1
    typed := []
    passed := s.passed ++ [(s.typed, s.inputString)] }

/-- One key. After the end no key is read. -/
def step (parseInput : Mem → Int × Mem) (s : Session) (ch : UInt8) : Option Session :=
  if s.done then some s
  else if isNewline ch then some ((s.store 0).pass parseInput)
  else if ch = 4 then some { s with done := true }
  else if isBackspace ch then
    if s.inputPointer > 0 then
      some { s with inputPointer := s.inputPointer - 1, typed := s.typed ++ [ch] }
    else some { s with typed := s.typed ++ [ch] }
  else
    some { s.store ch with inputPointer := s.inputPointer + 1, typed := s.typed ++ [ch] }

/-- Before the first key. -/
def start (inputString : Mem) : Session :=
  { inputString, inputPointer := 0, done := false, typed := [], written := [], passed := [] }

/-- What the keys of a line leave of it: a backspace or delete removes the last character. -/
def edited (keys : List UInt8) : List UInt8 :=
  keys.foldl (fun line ch => if isBackspace ch then line.dropLast else line ++ [ch]) []

/-- The memory holds the text, and a NUL behind it. -/
def HoldsText (m : Mem) (text : List UInt8) : Prop := read m 0 (text.length + 1) = text ++ [0]

/-- The writes are inside the buffer, and each line is passed on as it was edited, as far as it
fits. -/
structure Edits (s : Session) : Prop where
  written : ∀ i ∈ s.written, i < inputSize
  passed : ∀ p ∈ s.passed, HoldsText p.2 ((edited p.1).take (inputSize - 1))

/-- There is room for what the key stores: the line is shorter than the buffer. -/
def Room (s : Session) (ch : UInt8) : Prop :=
  s.done = true ∨ ch = 4 ∨ isBackspace ch ∨ (edited s.typed).length < inputSize

/-! ## The line -/

variable {s : Session} {ch : UInt8} {parseInput : Mem → Int × Mem}

/-- The buffer holds the line. -/
structure Inv (s : Session) : Prop where
  edits : Edits s
  pointer : s.inputPointer = (edited s.typed).length
  line : read s.inputString 0 s.inputPointer = edited s.typed

theorem edited_backspace (keys : List UInt8) (h : isBackspace ch) :
    edited (keys ++ [ch]) = (edited keys).dropLast := by
  unfold edited
  rw [List.foldl_append, List.foldl_cons, List.foldl_nil, if_pos h]

theorem edited_char (keys : List UInt8) (h : ¬isBackspace ch) :
    edited (keys ++ [ch]) = edited keys ++ [ch] := by
  conv_lhs => unfold edited
  rw [List.foldl_append, List.foldl_cons, List.foldl_nil, if_neg h]
  rfl

/-- The line with one more character. -/
theorem Inv.read_store (h : Inv s) (c : UInt8) :
    read (s.store c).inputString 0 (s.inputPointer + 1) = edited s.typed ++ [c] := by
  have hline : read (write s.inputString s.inputPointer [c]) 0 s.inputPointer = edited s.typed :=
    (read_write_of_disjoint (.inl (Nat.le_of_eq (Nat.zero_add _)))).trans h.line
  have hchar : read (write s.inputString s.inputPointer [c]) s.inputPointer 1 = [c] := read_write
  show read (write s.inputString s.inputPointer [c]) 0 (s.inputPointer + 1) = _
  rw [read_add, hline, Nat.zero_add, hchar]

/-- A store is inside the buffer exactly when the line is shorter than it. -/
theorem Inv.written_store (h : Inv s) (c : UInt8) :
    (∀ i ∈ (s.store c).written, i < inputSize) ↔ (edited s.typed).length < inputSize := by
  rw [← h.pointer]
  show (∀ i ∈ s.written ++ [s.inputPointer], i < inputSize) ↔ _
  simp only [List.mem_append, List.mem_singleton, or_imp, forall_and, forall_eq]
  exact and_iff_right h.edits.written

/-! ## One key -/

theorem step_newline (h : Inv s) (hdone : s.done = false) (hch : isNewline ch) :
    ∃ s', step parseInput s ch = some s' ∧
      ((edited s.typed).length < inputSize ↔ Edits s') ∧ (Edits s' → Inv s') := by
  have hstep : step parseInput s ch = some ((s.store 0).pass parseInput) := by
    unfold step
    rw [if_neg (by simp [hdone]), if_pos hch]
  refine ⟨_, hstep, ⟨fun hlt => ?_, fun hedits => (h.written_store 0).mp hedits.written⟩,
    fun hedits => ⟨hedits, rfl, rfl⟩⟩
  refine ⟨(h.written_store 0).mpr hlt, fun p hp => ?_⟩
  rcases List.mem_append.mp hp with hp | hp
  · exact h.edits.passed p hp
  · rw [List.mem_singleton.mp hp]
    show HoldsText _ ((edited s.typed).take (inputSize - 1))
    rw [List.take_of_length_le (by omega)]
    unfold HoldsText
    rw [← h.pointer]
    exact h.read_store 0

theorem step_char (h : Inv s) (hdone : s.done = false) (hnewline : ¬isNewline ch) (hend : ch ≠ 4)
    (hch : ¬isBackspace ch) :
    ∃ s', step parseInput s ch = some s' ∧
      ((edited s.typed).length < inputSize ↔ Edits s') ∧ (Edits s' → Inv s') := by
  have hstep : step parseInput s ch =
      some { s.store ch with inputPointer := s.inputPointer + 1, typed := s.typed ++ [ch] } := by
    unfold step
    rw [if_neg (by simp [hdone]), if_neg hnewline, if_neg hend, if_neg hch]
  have hline := edited_char s.typed hch
  refine ⟨_, hstep, ⟨fun hlt => ⟨(h.written_store ch).mpr hlt, h.edits.passed⟩,
    fun hedits => (h.written_store ch).mp hedits.written⟩, fun hedits => ⟨hedits, ?_, ?_⟩⟩
  · show s.inputPointer + 1 = (edited (s.typed ++ [ch])).length
    rw [hline, List.length_append, List.length_singleton, h.pointer]
  · show read (s.store ch).inputString 0 (s.inputPointer + 1) = edited (s.typed ++ [ch])
    rw [hline]
    exact h.read_store ch

theorem step_backspace (h : Inv s) (hdone : s.done = false) (hnewline : ¬isNewline ch)
    (hend : ch ≠ 4) (hch : isBackspace ch) : ∃ s', step parseInput s ch = some s' ∧ Inv s' := by
  have hline := edited_backspace s.typed hch
  unfold step
  rw [if_neg (by simp [hdone]), if_neg hnewline, if_neg hend, if_pos hch]
  split
  next hpos =>
    refine ⟨_, rfl, ⟨h.edits.written, h.edits.passed⟩, ?_, ?_⟩
    · show s.inputPointer - 1 = (edited (s.typed ++ [ch])).length
      rw [hline, List.length_dropLast, h.pointer]
    · show read s.inputString 0 (s.inputPointer - 1) = edited (s.typed ++ [ch])
      have hread := h.line
      obtain ⟨k, hk⟩ := Nat.exists_eq_succ_of_ne_zero (Nat.ne_of_gt hpos)
      rw [hk, Nat.succ_eq_add_one, read_add] at hread
      rw [hline, ← hread, hk]
      exact (List.dropLast_concat).symm
  next hzero =>
    have hnil : edited s.typed = [] := by
      rw [← List.length_eq_zero_iff, ← h.pointer]
      omega
    rw [hnil] at hline
    refine ⟨_, rfl, ⟨h.edits.written, h.edits.passed⟩, ?_, ?_⟩
    · show s.inputPointer = (edited (s.typed ++ [ch])).length
      rw [h.pointer, hnil, hline]
      rfl
    · show read s.inputString 0 s.inputPointer = edited (s.typed ++ [ch])
      rw [h.line, hnil, hline]
      rfl

/-! ## All keys -/

/-- For every sequence of keys, whatever `parse_input` does, the loop writes inside the buffer and
passes each line on as it was edited, exactly when no key is stored behind 256 characters. -/
theorem line_editing_iff (parseInput : Mem → Int × Mem) (inputString : Mem) (keys : List UInt8) :
    AllStates (step parseInput) Edits (start inputString) keys ↔
      AllSteps (step parseInput) Room (start inputString) keys := by
  have hstart : Inv (start inputString) := by
    refine ⟨⟨fun i hi => ?_, fun p hp => ?_⟩, rfl, rfl⟩
    · exact absurd hi List.not_mem_nil
    · exact absurd hp List.not_mem_nil
  refine AllStates.iff_of_inv (A := fun _ _ => True) (fun s hs => hs.edits)
    (fun s ch hs _ => ?_) hstart (AllSteps.all fun _ _ => trivial)
  -- what changes neither the buffer nor the lines
  have hsame : ∀ {s'}, Inv s' → (s.done = true ∨ ch = 4 ∨ isBackspace ch) →
      (Room s ch ↔ Edits s') ∧ (Edits s' → Inv s') := by
    intro s' hs' hkey
    refine ⟨⟨fun _ => hs'.edits, fun _ => ?_⟩, fun _ => hs'⟩
    unfold Room
    tauto
  cases hdone : s.done with
  | true =>
    refine ⟨s, ?_, hsame hs (.inl hdone)⟩
    unfold step
    rw [if_pos hdone]
  | false =>
    have hroom : ch ≠ 4 → ¬isBackspace ch → (Room s ch ↔ (edited s.typed).length < inputSize) := by
      intro hend hch
      unfold Room
      simp [hdone, hend, hch]
    by_cases hnewline : isNewline ch
    · have hend : ch ≠ 4 := by
        rintro rfl
        exact absurd hnewline (by decide)
      have hch : ¬isBackspace ch := by
        rcases hnewline with rfl | rfl <;> decide
      rw [hroom hend hch]
      exact step_newline hs hdone hnewline
    by_cases hend : ch = 4
    · refine ⟨{ s with done := true }, ?_, hsame ⟨⟨hs.edits.written, hs.edits.passed⟩, hs.pointer,
        hs.line⟩ (.inr (.inl hend))⟩
      unfold step
      rw [if_neg (by simp [hdone]), if_neg hnewline, if_pos hend]
    by_cases hch : isBackspace ch
    · obtain ⟨s', hstep, hs'⟩ := step_backspace hs hdone hnewline hend hch
      exact ⟨s', hstep, hsame hs' (.inr (.inr hch))⟩
    · rw [hroom hend hch]
      exact step_char hs hdone hnewline hend hch

/-- A line of 256 characters. The NUL is written behind the buffer. -/
theorem long_line_overruns :
    ¬AllStates (step fun m => (0, m)) Edits (start fun _ => 0) (List.replicate 256 97 ++ [10]) := by
  intro hedits
  have hrun : (run (step fun m => (0, m)) (start fun _ => 0)
      (List.replicate 256 97 ++ [10])).map (fun s => s.written.getLast?) = some (some 256) := by
    decide +kernel
  obtain ⟨s, hs, hlast⟩ := Option.map_eq_some_iff.mp hrun
  have hwritten := (hedits.last hs).written 256 (List.mem_of_getLast? hlast)
  exact absurd hwritten (by decide)

end Vmwos.LineEditing
