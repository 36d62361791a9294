import Mathlib.Data.List.Basic
import Mathlib.Data.Nat.Basic
import Mathlib.Tactic.Linarith

/-!
# Bitmaps in an array of words

A bitmap is an array of words of `w` bits; bit `c` is bit `c % w` of word `c / w`. An
access outside the array does not complete (`none`).

* `test`, `mark`, `clear`: one bit, through the word that holds it;
* `each`: one of these on the bits `i`, `i + 1`, ..., one after the other;
* `used`: what a bitmap says, as a predicate on all indices.

`mark_spec` and `clear_spec` say when one access completes and what it does to `used`;
`each_mark` and `each_clear` say it of a run of them, by the rule `each_spec`.
-/

namespace Bitmap

variable {w : Nat}

/-! ## Definitions -/

/-- The bit is set. Nothing is set outside the array. -/
def used (map : List (BitVec w)) (c : Nat) : Prop :=
  ∃ word, map[c / w]? = some word ∧ word.getLsbD (c % w) = true

/-- `map[c / w] & (1 << c % w)`, as a truth value. -/
def test (map : List (BitVec w)) (c : Nat) : Option Bool :=
  map[c / w]?.map fun word => word &&& (1#w <<< (c % w)) ≠ 0#w

/-- `map[c / w] |= 1 << c % w`. -/
def mark (map : List (BitVec w)) (c : Nat) : Option (List (BitVec w)) :=
  map[c / w]?.map fun word => map.set (c / w) (word ||| (1#w <<< (c % w)))

/-- `map[c / w] &= ~(1 << c % w)`. -/
def clear (map : List (BitVec w)) (c : Nat) : Option (List (BitVec w)) :=
  map[c / w]?.map fun word => map.set (c / w) (word &&& ~~~(1#w <<< (c % w)))

/-- An access to each of `n` bits from `i`. -/
def each (access : List (BitVec w) → Nat → Option (List (BitVec w))) (map : List (BitVec w))
    (i : Nat) : Nat → Option (List (BitVec w))
  | 0 => some map
  | n + 1 => (access map i).bind fun map => each access map (i + 1) n

/-- The number of bits. -/
def bits (map : List (BitVec w)) : Nat := w * map.length

/-! ## One bit -/

variable {map : List (BitVec w)} {c d : Nat}

theorem div_lt_length (h : c < bits map) : c / w < map.length :=
  Nat.div_lt_of_lt_mul h

theorem word_eq_none (hw : 0 < w) (h : bits map ≤ c) : map[c / w]? = none := by
  rw [List.getElem?_eq_none_iff]
  exact (Nat.le_div_iff_mul_le hw).mpr (by rwa [Nat.mul_comm])

theorem used_lt (hw : 0 < w) (h : used map c) : c < bits map := by
  by_contra hle
  obtain ⟨word, hword, _⟩ := h
  rw [word_eq_none hw (not_lt.mp hle)] at hword
  cases hword

theorem getLsbD_one_shiftLeft {k b : Nat} (hk : k < w) :
    (1#w <<< k).getLsbD b = decide (b = k) := by
  rw [← BitVec.twoPow_eq, BitVec.getLsbD_twoPow]
  by_cases h : b = k
  · simp [h, hk]
  · simp [h, Ne.symm h]

theorem test_spec (hw : 0 < w) (h : c < bits map) :
    ∃ b, test map c = some b ∧ (b = true ↔ used map c) := by
  have hlt := div_lt_length h
  have hmod : c % w < w := Nat.mod_lt c hw
  refine ⟨_, by rw [test, List.getElem?_eq_getElem hlt]; rfl, ?_⟩
  have hbit : used map c ↔ map[c / w].getLsbD (c % w) = true := by
    simp [used, List.getElem?_eq_getElem hlt]
  show decide (map[c / w] &&& (1#w <<< (c % w)) ≠ 0#w) = true ↔ used map c
  rw [hbit, ← BitVec.twoPow_eq, BitVec.and_twoPow]
  by_cases hb : map[c / w].getLsbD (c % w) = true
  · have hne : BitVec.twoPow w (c % w) ≠ 0#w := by
      intro h0
      have hbit0 := congrArg (fun v => v.getLsbD (c % w)) h0
      simp [hmod] at hbit0
    simp [hb, hne]
  · simp [hb]

theorem test_none (hw : 0 < w) (h : bits map ≤ c) : test map c = none := by
  rw [test, word_eq_none hw h]
  rfl

/-- Two indices in one word are the same index if they are the same bit. -/
theorem eq_of_div_mod (hdiv : c / w = d / w) (hmod : c % w = d % w) : c = d := by
  rw [← Nat.div_add_mod c w, ← Nat.div_add_mod d w, hdiv, hmod]

/-- A word of the map is replaced: what one bit of it says. -/
theorem used_set {word : BitVec w} (h : c < bits map) :
    used (map.set (c / w) word) d ↔
      if d / w = c / w then word.getLsbD (d % w) = true else used map d := by
  have hlt := div_lt_length h
  by_cases hd : d / w = c / w
  · simp [used, hd, hlt]
  · rw [if_neg hd]
    simp [used, List.getElem?_set_ne (Ne.symm hd)]

theorem mark_spec (hw : 0 < w) (h : c < bits map) :
    ∃ map', mark map c = some map' ∧ map'.length = map.length ∧
      ∀ d, used map' d ↔ used map d ∨ d = c := by
  have hlt := div_lt_length h
  have hmod : c % w < w := Nat.mod_lt c hw
  refine ⟨_, by rw [mark, List.getElem?_eq_getElem hlt]; rfl, List.length_set, fun d => ?_⟩
  rw [used_set h]
  split
  · next hd =>
    have hbit : used map d ↔ map[c / w].getLsbD (d % w) = true := by
      simp [used, hd, List.getElem?_eq_getElem hlt]
    rw [hbit, BitVec.getLsbD_or, getLsbD_one_shiftLeft hmod, Bool.or_eq_true, decide_eq_true_eq]
    exact or_congr_right ⟨eq_of_div_mod hd, fun h => by rw [h]⟩
  · next hd => exact ⟨.inl, fun h => h.resolve_right fun h => hd (by rw [h])⟩

theorem clear_spec (hw : 0 < w) (h : c < bits map) :
    ∃ map', clear map c = some map' ∧ map'.length = map.length ∧
      ∀ d, used map' d ↔ used map d ∧ d ≠ c := by
  have hlt := div_lt_length h
  have hmod : c % w < w := Nat.mod_lt c hw
  refine ⟨_, by rw [clear, List.getElem?_eq_getElem hlt]; rfl, List.length_set, fun d => ?_⟩
  rw [used_set h]
  split
  · next hd =>
    have hbit : used map d ↔ map[c / w].getLsbD (d % w) = true := by
      simp [used, hd, List.getElem?_eq_getElem hlt]
    have hdw : d % w < w := Nat.mod_lt d hw
    rw [hbit, BitVec.getLsbD_and, BitVec.getLsbD_not, getLsbD_one_shiftLeft hmod]
    simp only [hdw, decide_true, Bool.true_and, Bool.and_eq_true, Bool.not_eq_true',
      decide_eq_false_iff_not]
    exact and_congr_right fun _ => not_congr ⟨eq_of_div_mod hd, fun h => by rw [h]⟩
  · next hd => exact ⟨fun hu => ⟨hu, fun h => hd (by rw [h])⟩, And.left⟩

theorem mark_some (hw : 0 < w) {map' : List (BitVec w)} (h : mark map c = some map') :
    c < bits map ∧ map'.length = map.length := by
  rcases Nat.lt_or_ge c (bits map) with hc | hc
  · obtain ⟨map₁, h₁, hlen, _⟩ := mark_spec hw hc
    cases h.symm.trans h₁
    exact ⟨hc, hlen⟩
  · rw [mark, word_eq_none hw hc] at h
    cases h

theorem clear_some (hw : 0 < w) {map' : List (BitVec w)} (h : clear map c = some map') :
    c < bits map ∧ map'.length = map.length := by
  rcases Nat.lt_or_ge c (bits map) with hc | hc
  · obtain ⟨map₁, h₁, hlen, _⟩ := clear_spec hw hc
    cases h.symm.trans h₁
    exact ⟨hc, hlen⟩
  · rw [clear, word_eq_none hw hc] at h
    cases h

/-! ## A run of bits -/

theorem bits_congr {map map' : List (BitVec w)} (h : map'.length = map.length) :
    bits map' = bits map := by
  rw [bits, bits, h]

/-- A run of an access that sets one bit to `v` sets all of them to `v`. -/
theorem each_spec {access : List (BitVec w) → Nat → Option (List (BitVec w))} {v : Prop}
    (hone : ∀ {map c}, c < bits map → ∃ map', access map c = some map' ∧
      map'.length = map.length ∧ ∀ d, used map' d ↔ if d = c then v else used map d)
    {i n : Nat} (h : i + n ≤ bits map) :
    ∃ map', each access map i n = some map' ∧ map'.length = map.length ∧
      ∀ d, used map' d ↔ if i ≤ d ∧ d < i + n then v else used map d := by
  induction n generalizing map i with
  | zero =>
    refine ⟨map, rfl, rfl, fun d => ?_⟩
    rw [if_neg (by omega)]
  | succ n ih =>
    obtain ⟨map₁, h₁, hlen₁, hused₁⟩ := hone (show i < bits map by omega)
    obtain ⟨map₂, h₂, hlen₂, hused₂⟩ := ih (show i + 1 + n ≤ bits map₁ by
      rw [bits_congr hlen₁]
      omega)
    refine ⟨map₂, by rw [each, h₁, Option.bind_some, h₂], hlen₂.trans hlen₁, fun d => ?_⟩
    rw [hused₂, hused₁]
    split_ifs <;> first | rfl | omega

theorem or_iff_ite {p q : Prop} [Decidable q] : p ∨ q ↔ if q then True else p := by
  by_cases hq : q <;> simp [hq]

theorem and_not_iff_ite {p q : Prop} [Decidable q] : p ∧ ¬q ↔ if q then False else p := by
  by_cases hq : q <;> simp [hq]

theorem each_mark (hw : 0 < w) {i n : Nat} (h : i + n ≤ bits map) :
    ∃ map', each mark map i n = some map' ∧ map'.length = map.length ∧
      ∀ d, used map' d ↔ used map d ∨ (i ≤ d ∧ d < i + n) := by
  simp only [or_iff_ite]
  refine each_spec (fun hc => ?_) h
  simpa only [or_iff_ite] using mark_spec hw hc

theorem each_clear (hw : 0 < w) {i n : Nat} (h : i + n ≤ bits map) :
    ∃ map', each clear map i n = some map' ∧ map'.length = map.length ∧
      ∀ d, used map' d ↔ used map d ∧ ¬ (i ≤ d ∧ d < i + n) := by
  simp only [and_not_iff_ite]
  refine each_spec (fun hc => ?_) h
  simpa only [ne_eq, and_not_iff_ite] using clear_spec hw hc

/-- A run of accesses that leaves the array does not complete. -/
theorem each_none {access : List (BitVec w) → Nat → Option (List (BitVec w))}
    (hin : ∀ {map map' c}, access map c = some map' → c < bits map ∧ map'.length = map.length)
    {i n : Nat} (hn : 0 < n) (h : bits map < i + n) : each access map i n = none := by
  induction n generalizing map i with
  | zero => exact absurd hn (Nat.lt_irrefl 0)
  | succ n ih =>
    cases ha : access map i with
    | none => rw [each, ha, Option.bind_none]
    | some map₁ =>
      obtain ⟨hi, hlen₁⟩ := hin ha
      rw [each, ha, Option.bind_some]
      exact ih (by omega) (by rw [bits_congr hlen₁]; omega)

/-- A map is known by its length and its bits. -/
theorem eq_of_used (hw : 0 < w) {map map' : List (BitVec w)} (hlen : map.length = map'.length)
    (h : ∀ c, used map c ↔ used map' c) : map = map' := by
  refine List.ext_getElem hlen fun i hi hi' => BitVec.eq_of_getLsbD_eq fun j hj => ?_
  have hdiv : (i * w + j) / w = i := by
    rw [Nat.mul_comm, Nat.mul_add_div hw, Nat.div_eq_of_lt hj, Nat.add_zero]
  have hmod : (i * w + j) % w = j := by
    rw [Nat.mul_comm, Nat.mul_add_mod, Nat.mod_eq_of_lt hj]
  have hbit := h (i * w + j)
  simp only [used, hdiv, hmod, List.getElem?_eq_getElem hi, List.getElem?_eq_getElem hi',
    Option.some.injEq, exists_eq_left'] at hbit
  exact Bool.eq_iff_iff.mpr hbit

end Bitmap
