import Vmwos.Files
import Vmwos.Strings

/-!
# The serial line

`write` on the descriptors 1 and 2 goes to `console_write`, which sends every byte to the UART and
`\r` before every `\n`. The UART has a buffer of 16 bytes, which it empties at its own pace, and
`pl011_uart_putc` waits while the buffer is full.

Results: `write_sends`, what a `write` sends for every pace of the UART, and `write_completes`.
-/

namespace Vmwos.Serial

open Romfs Files

/-! ## Definitions -/

/-- The transmitter of the PL011: the bytes that wait in it, and those that it has sent. -/
structure Uart where
  fifo : List UInt8
  sent : List UInt8

/-- The size of the transmit buffer. -/
def fifoSize : Nat := 16

/-- The UART sends up to `n` bytes. -/
def Uart.drain (u : Uart) (n : Nat) : Uart := ⟨u.fifo.drop n, u.sent ++ u.fifo.take n⟩

/-- `pl011_uart_putc`. At each read of the flags register the UART has sent some bytes more; `none`
if the loop goes on longer than the given reads. The reads that are left are returned. -/
def uartPutc : List Nat → Uart → UInt8 → Option (List Nat × Uart)
  | [], _, _ => none
  | n :: polls, u, byte =>
    let u := u.drain n
    if u.fifo.length = fifoSize then uartPutc polls u byte
    else some (polls, { u with fifo := u.fifo ++ [byte] })

/-- `serial_write` -/
def serialWrite : List Nat → Uart → List UInt8 → Option (List Nat × Uart)
  | polls, u, [] => some (polls, u)
  | polls, u, c :: buffer =>
    ((if c = 10 then uartPutc polls u 13 else some (polls, u)).bind fun
      | (polls, u) => uartPutc polls u c).bind fun
      | (polls, u) => serialWrite polls u buffer

/-- `console_write`, with the number of bytes that it returns. -/
def consoleWrite (polls : List Nat) (u : Uart) (buffer : List UInt8) : Option (UInt32 × Uart) :=
  (serialWrite polls u buffer).map fun
    | (_, u) => (UInt32.ofNat buffer.length, u)

/-- `write` -/
def write (polls : List Nat) (u : Uart) (fd : UInt32) (buffer : List UInt8) :
    Option (UInt32 × Uart) :=
  if fd = 1 ∨ fd = 2 then consoleWrite polls u buffer else some (eBADF, u)

/-- What is sent for a text. -/
def crlf (buffer : List UInt8) : List UInt8 := buffer.flatMap fun c => if c = 10 then [13, c] else [c]

/-- All bytes that the UART has got, in order. -/
def Uart.accepted (u : Uart) : List UInt8 := u.sent ++ u.fifo

/-- How often the UART has sent something at a read of the flags register. -/
def drains (polls : List Nat) : Nat := polls.countP (0 < ·)

/-! ## One byte -/

variable {polls polls' : List Nat} {u u' : Uart} {byte : UInt8}

theorem accepted_drain (u : Uart) (n : Nat) : (u.drain n).accepted = u.accepted := by
  simp [Uart.accepted, Uart.drain, List.append_assoc]

theorem length_drain_le (u : Uart) (n : Nat) : (u.drain n).fifo.length ≤ u.fifo.length := by
  rw [Uart.drain, List.length_drop]
  exact Nat.sub_le _ _

/-- A byte comes behind the others, and none is lost. -/
theorem uartPutc_sends (hroom : u.fifo.length ≤ fifoSize)
    (h : uartPutc polls u byte = some (polls', u')) :
    u'.accepted = u.accepted ++ [byte] ∧ u'.fifo.length ≤ fifoSize := by
  induction polls generalizing u with
  | nil => simp [uartPutc] at h
  | cons n polls ih =>
    have hle := (length_drain_le u n).trans hroom
    rw [uartPutc] at h
    split at h
    · obtain ⟨haccepted, hroom'⟩ := ih hle h
      exact ⟨accepted_drain u n ▸ haccepted, hroom'⟩
    · next hfree =>
      cases h
      refine ⟨?_, ?_⟩
      · rw [← accepted_drain u n, Uart.accepted, Uart.accepted, List.append_assoc]
      · rw [List.length_append, List.length_singleton]
        omega

/-- A byte is taken at the latest when the UART has sent something. -/
theorem uartPutc_completes (byte : UInt8) (hroom : u.fifo.length ≤ fifoSize)
    (h : 0 < drains polls) :
    ∃ polls' u', uartPutc polls u byte = some (polls', u') ∧ drains polls ≤ drains polls' + 1 := by
  induction polls generalizing u with
  | nil => exact absurd h (Nat.lt_irrefl 0)
  | cons n polls ih =>
    rw [uartPutc]
    split
    · next hfull =>
      have hn : n = 0 := by
        rw [Uart.drain, List.length_drop] at hfull
        unfold fifoSize at hroom hfull
        omega
      have hsame : drains (n :: polls) = drains polls := by
        rw [drains, List.countP_cons_of_neg (by simp [hn])]
        rfl
      rw [hsame] at h ⊢
      exact ih ((length_drain_le u n).trans hroom) h
    · refine ⟨polls, _, rfl, ?_⟩
      rw [drains, List.countP_cons]
      split <;> simp [drains]

/-! ## A text -/

theorem crlf_cons (c : UInt8) (buffer : List UInt8) :
    crlf (c :: buffer) = (if c = 10 then [13, c] else [c]) ++ crlf buffer :=
  List.flatMap_cons

theorem serialWrite_sends {buffer : List UInt8} (hroom : u.fifo.length ≤ fifoSize)
    (h : serialWrite polls u buffer = some (polls', u')) :
    u'.accepted = u.accepted ++ crlf buffer ∧ u'.fifo.length ≤ fifoSize := by
  induction buffer generalizing polls u with
  | nil =>
    cases h
    exact ⟨(List.append_nil _).symm, hroom⟩
  | cons c buffer ih =>
    obtain ⟨⟨polls₂, u₂⟩, h₂, h⟩ := Option.bind_eq_some_iff.mp h
    obtain ⟨⟨polls₁, u₁⟩, hreturn, hputc⟩ := Option.bind_eq_some_iff.mp h₂
    have hfirst : u₁.accepted = u.accepted ++ (if c = 10 then [13] else []) ∧
        u₁.fifo.length ≤ fifoSize := by
      split at hreturn
      · next hc => exact if_pos hc ▸ uartPutc_sends hroom hreturn
      · next hc =>
        cases hreturn
        exact ⟨by rw [if_neg hc, List.append_nil], hroom⟩
    obtain ⟨hsecond, hroom₂⟩ := uartPutc_sends hfirst.2 hputc
    obtain ⟨hrest, hroom'⟩ := ih hroom₂ h
    refine ⟨?_, hroom'⟩
    rw [hrest, hsecond, hfirst.1, crlf_cons]
    split <;> simp

theorem serialWrite_completes {buffer : List UInt8} (hroom : u.fifo.length ≤ fifoSize)
    (h : 2 * buffer.length ≤ drains polls) :
    ∃ polls' u', serialWrite polls u buffer = some (polls', u') := by
  induction buffer generalizing polls u with
  | nil => exact ⟨polls, u, rfl⟩
  | cons c buffer ih =>
    rw [List.length_cons] at h
    obtain ⟨polls₁, u₁, hreturn, hleft₁, hroom₁⟩ : ∃ polls₁ u₁,
        (if c = 10 then uartPutc polls u 13 else some (polls, u)) = some (polls₁, u₁) ∧
          drains polls ≤ drains polls₁ + 1 ∧ u₁.fifo.length ≤ fifoSize := by
      split
      · obtain ⟨polls₁, u₁, hputc, hleft⟩ := uartPutc_completes 13 hroom
          (show 0 < drains polls by omega)
        exact ⟨polls₁, u₁, hputc, hleft, (uartPutc_sends hroom hputc).2⟩
      · exact ⟨polls, u, rfl, Nat.le_succ _, hroom⟩
    obtain ⟨polls₂, u₂, hputc, hleft₂⟩ :=
      uartPutc_completes c hroom₁ (show 0 < drains polls₁ by omega)
    obtain ⟨polls', u', hrest⟩ := ih (uartPutc_sends hroom₁ hputc).2
      (show 2 * buffer.length ≤ drains polls₂ by omega)
    refine ⟨polls', u', ?_⟩
    rw [serialWrite, hreturn, Option.bind_some]
    exact (congrArg (Option.bind · _) hputc).trans hrest

/-! ## `write` -/

/-- A `write` sends the text with `\r` before every `\n`, and the buffer of the UART does not
overflow. -/
theorem write_sends {fd result : UInt32} {buffer : List UInt8} (hfd : fd = 1 ∨ fd = 2)
    (hroom : u.fifo.length ≤ fifoSize) (h : write polls u fd buffer = some (result, u')) :
    result = UInt32.ofNat buffer.length ∧ u'.accepted = u.accepted ++ crlf buffer ∧
      u'.fifo.length ≤ fifoSize := by
  rw [write, if_pos hfd] at h
  obtain ⟨⟨polls', u''⟩, hserial, h⟩ := Option.map_eq_some_iff.mp h
  cases h
  exact ⟨rfl, serialWrite_sends hroom hserial⟩

/-- It completes if the UART goes on sending. -/
theorem write_completes (fd : UInt32) {buffer : List UInt8} (hroom : u.fifo.length ≤ fifoSize)
    (h : 2 * buffer.length ≤ drains polls) : (write polls u fd buffer).isSome := by
  unfold write
  split
  · obtain ⟨polls', u', hserial⟩ := serialWrite_completes hroom h
    rw [consoleWrite, hserial]
    rfl
  · rfl

end Vmwos.Serial
