import Vmwos.Bytes

/-!
# Strings one after the other

Strings in a buffer, each behind the terminator of the one before (`joined`, `offset`), and a
table of 32-bit pointers to such strings, written together with them (`layOut`).

* `joined_slice`, `offset_add_le`: the strings of the buffer, and that they do not overlap;
* `layOut_inside`, `layOut_outside`: what the table and the strings hold, and what is left.
-/

namespace Bytes

/-! ## The buffer -/

/-- Strings one after the other, each with its terminator. -/
def joined (strs : List (List UInt8)) : List UInt8 := strs.flatMap fun s => s ++ [0]

/-- The place of string `i` among them. -/
def offset (strs : List (List UInt8)) (i : Nat) : Nat := (joined (strs.take i)).length

@[simp] theorem joined_cons (s : List UInt8) (strs : List (List UInt8)) :
    joined (s :: strs) = s ++ [0] ++ joined strs := by
  simp [joined]

theorem length_joined_cons (s : List UInt8) (strs : List (List UInt8)) :
    (joined (s :: strs)).length = s.length + 1 + (joined strs).length := by
  rw [joined_cons, List.length_append, List.length_append, List.length_singleton]

theorem offset_succ (s : List UInt8) (strs : List (List UInt8)) (i : Nat) :
    offset (s :: strs) (i + 1) = s.length + 1 + offset strs i := by
  rw [offset, List.take_succ_cons, length_joined_cons, offset]

theorem joined_slice (strs : List (List UInt8)) (i : Nat) (hi : i < strs.length) :
    ((joined strs).drop (offset strs i)).take ((strs.get ⟨i, hi⟩).length + 1) =
      strs.get ⟨i, hi⟩ ++ [0] := by
  induction strs generalizing i with
  | nil => exact absurd hi (Nat.not_lt_zero i)
  | cons s strs ih =>
    have hlen : (s ++ [0]).length = s.length + 1 := by simp
    cases i with
    | zero =>
      rw [joined_cons]
      exact List.take_left' hlen
    | succ i =>
      rw [offset_succ, joined_cons, ← List.drop_drop, List.drop_left' hlen]
      exact ih i (Nat.lt_of_succ_lt_succ hi)

/-- A string ends where a later one begins. -/
theorem offset_add_le (strs : List (List UInt8)) {i j : Nat} (hi : i < strs.length) (hij : i < j) :
    offset strs i + (strs.get ⟨i, hi⟩).length + 1 ≤ offset strs j := by
  induction strs generalizing i j with
  | nil => exact absurd hi (Nat.not_lt_zero i)
  | cons s strs ih =>
    obtain ⟨j, rfl⟩ := Nat.exists_eq_succ_of_ne_zero (Nat.ne_of_gt (Nat.zero_lt_of_lt hij))
    rw [offset_succ]
    cases i with
    | zero =>
      have hoffset : offset (s :: strs) 0 = 0 := rfl
      have hget : (s :: strs).get ⟨0, hi⟩ = s := rfl
      rw [hoffset, hget]
      omega
    | succ i =>
      have hrest := ih (Nat.lt_of_succ_lt_succ hi) (Nat.lt_of_succ_lt_succ hij)
      have hget : (s :: strs).get ⟨i + 1, hi⟩ = strs.get ⟨i, Nat.lt_of_succ_lt_succ hi⟩ := rfl
      rw [offset_succ, hget]
      omega

theorem offset_length (strs : List (List UInt8)) : offset strs strs.length = (joined strs).length := by
  rw [offset, List.take_length]

/-- The strings take what the last one takes, and what comes before it. -/
theorem length_joined {strs : List (List UInt8)} (h : strs ≠ []) :
    (joined strs).length = offset strs (strs.length - 1) + (strs.getLastD []).length + 1 := by
  induction strs with
  | nil => exact absurd rfl h
  | cons s strs ih =>
    rw [length_joined_cons]
    cases strs with
    | nil =>
      have hoffset : offset [s] ([s].length - 1) = 0 := rfl
      rw [hoffset]
      simp [joined]
    | cons s' strs =>
      have hoffset : offset (s :: s' :: strs) ((s :: s' :: strs).length - 1) =
          s.length + 1 + offset (s' :: strs) ((s' :: strs).length - 1) :=
        offset_succ s (s' :: strs) strs.length
      have hlast : (s :: s' :: strs).getLastD [] = (s' :: strs).getLastD [] := by
        simp only [List.getLastD_cons]
      rw [ih (by simp), hoffset, hlast]
      omega

/-! ## A string -/

theorem stringAt_of_read {m : Mem} {a : Nat} {s : List UInt8} (hs : ∀ c ∈ s, c ≠ 0)
    (h : read m a (s.length + 1) = s ++ [0]) : StringAt m a s := by
  rw [read_add] at h
  obtain ⟨hchars, hnul⟩ := List.append_inj h length_read
  refine ⟨hs, hchars, ?_⟩
  simpa [Bytes.read] using hnul

/-- Before a 0 there is a string. -/
theorem exists_stringAt {m : Mem} {a n : Nat} (h : m (a + n) = 0) : ∃ s, StringAt m a s := by
  induction n generalizing a with
  | zero => exact ⟨[], ⟨by simp, rfl, h⟩⟩
  | succ n ih =>
    by_cases hc : m a = 0
    · exact ⟨[], ⟨by simp, rfl, hc⟩⟩
    · have hnext : m (a + 1 + n) = 0 := by rwa [Nat.add_assoc, Nat.add_comm 1 n]
      obtain ⟨s, hs⟩ := ih hnext
      refine ⟨m a :: s, ?_, ?_, ?_⟩
      · simpa [hc] using hs.nonzero
      · rw [List.length_cons, Nat.add_comm s.length, read_add, hs.chars]
        simp [Bytes.read]
      · rw [List.length_cons, Nat.add_comm s.length, ← Nat.add_assoc]
        exact hs.nul

theorem stringAt_congr {m m' : Mem} {a : Nat} {s : List UInt8} (h : StringAt m a s)
    (heq : ∀ k ≤ s.length, m' (a + k) = m (a + k)) : StringAt m' a s where
  nonzero := h.nonzero
  chars := (read_congr fun k hk => heq k (Nat.le_of_lt hk)).trans h.chars
  nul := (heq s.length (le_refl _)).trans h.nul

/-! ## A table of pointers -/

/-- Pointers from `a` on, to strings that are written from `p` on. -/
def layOut : Nat → Nat → List (List UInt8) → Mem → Mem
  | _, _, [], m => m
  | a, p, s :: strs, m =>
    layOut (a + 4) (p + (s.length + 1)) strs
      (write (write m a (toLe (UInt32.ofNat p))) p (s ++ [0]))

/-- Outside the pointers and the strings nothing is written. -/
theorem layOut_outside {a p x : Nat} {strs : List (List UInt8)} {m : Mem}
    (htable : x < a ∨ a + 4 * strs.length ≤ x)
    (hstrings : x < p ∨ p + (joined strs).length ≤ x) : layOut a p strs m x = m x := by
  induction strs generalizing a p m with
  | nil => rfl
  | cons s strs ih =>
    rw [List.length_cons] at htable
    rw [length_joined_cons] at hstrings
    rw [layOut, ih (by omega) (by omega), write_outside (by simp; omega),
      write_outside (by rw [length_toLe]; omega)]

/-- Entry `i` holds the address of string `i`, and the string is there. -/
theorem layOut_inside {a p : Nat} {strs : List (List UInt8)} {m : Mem}
    (h : a + 4 * strs.length ≤ p) (i : Nat) (hi : i < strs.length) :
    read (layOut a p strs m) (a + 4 * i) 4 = toLe (UInt32.ofNat (p + offset strs i)) ∧
      read (layOut a p strs m) (p + offset strs i) ((strs.get ⟨i, hi⟩).length + 1) =
        strs.get ⟨i, hi⟩ ++ [0] := by
  induction strs generalizing a p m i with
  | nil => exact absurd hi (Nat.not_lt_zero i)
  | cons s strs ih =>
    rw [List.length_cons] at h
    cases i with
    | zero =>
      have hpointer : ∀ k < 4, layOut a p (s :: strs) m (a + k) =
          write m a (toLe (UInt32.ofNat p)) (a + k) := by
        intro k hk
        rw [layOut, layOut_outside (by omega) (by omega), write_outside (by omega)]
      have hstring : ∀ k < s.length + 1, layOut a p (s :: strs) m (p + k) =
          write (write m a (toLe (UInt32.ofNat p))) p (s ++ [0]) (p + k) := by
        intro k hk
        rw [layOut, layOut_outside (by omega) (by omega)]
      have hoffset : offset (s :: strs) 0 = 0 := rfl
      rw [Nat.mul_zero, Nat.add_zero, hoffset, Nat.add_zero]
      constructor
      · have hread : read (write m a (toLe (UInt32.ofNat p))) a (toLe (UInt32.ofNat p)).length =
            toLe (UInt32.ofNat p) := read_write
        exact (read_congr hpointer).trans hread
      · have hlen : (s ++ [0]).length = s.length + 1 := by simp
        have hread : read (write (write m a (toLe (UInt32.ofNat p))) p (s ++ [0])) p
            (s ++ [0]).length = s ++ [0] := read_write
        rw [hlen] at hread
        exact (read_congr hstring).trans hread
    | succ i =>
      have hrest := ih (m := write (write m a (toLe (UInt32.ofNat p))) p (s ++ [0]))
        (show a + 4 + 4 * strs.length ≤ p + (s.length + 1) by omega) i (Nat.lt_of_succ_lt_succ hi)
      rw [offset_succ, show a + 4 * (i + 1) = a + 4 + 4 * i by omega,
        show p + (s.length + 1 + offset strs i) = p + (s.length + 1) + offset strs i by omega]
      exact hrest

end Bytes
