import Mathlib.Data.List.Basic
import Mathlib.Algebra.BigOperators.Group.List.Basic
import Mathlib.Algebra.Order.Group.Int
import Mathlib.Data.List.Perm.Basic
import Mathlib.Tactic.Linarith

/-!
# Cards, hands and the shoe of `blackjack.c`

A card is the C string that the program copies around (`"AH"`, `"9S"`), and the
empty string is an empty slot. This module models the string functions the game
uses, `hand_value_player` / `hand_value_house`, `create_shoe`, `shuffle` and
`pop_shoe`.

Results:
1. `handValue_eq_blackjackValue`: the two copies of the counting loop compute the
   blackjack value of the cards in front of the first empty slot.
2. `length_le_handValue`: every card counts at least one.
3. `popShoe_spec`: from a shoe of real cards a pop always yields a real card.
-/

namespace Vmwos.Blackjack

/-- A card, or a slot of a hand: a C string without its terminating NUL. -/
abbrev Card := List Char

/-- `SHOE_SIZE`: six decks. -/
def shoeSize : Nat := 312
/-- `HAND_SIZE`. -/
def handSize : Nat := 22
/-- `MAX_HANDS`. -/
def maxHands : Nat := 4

/-! ## C strings -/

/-- `strncmp` of the C library. The end of a list is its terminating NUL. -/
def strncmp : List Char → List Char → Nat → Int
  | _, _, 0 => 0
  | [], [], _ + 1 => 0
  | [], b :: _, _ + 1 => -(b.toNat : Int)
  | a :: _, [], _ + 1 => a.toNat
  | a :: as, b :: bs, n + 1 =>
    if a = b then strncmp as bs n else (a.toNat : Int) - b.toNat

/-- The digits at the front of a string, in decimal, after the value read so far. -/
def atoiDigits : List Char → Int → Int
  | [], acc => acc
  | c :: cs, acc => if c.isDigit then atoiDigits cs (acc * 10 + (c.toNat - 48)) else acc

/-- `atoi` of the C library: blanks, a sign, then digits up to the first other
character. -/
def atoi (s : List Char) : Int :=
  match s.dropWhile Char.isWhitespace with
  | '-' :: cs => -atoiDigits cs 0
  | '+' :: cs => atoiDigits cs 0
  | cs => atoiDigits cs 0

/-! ## The value of a hand -/

section HandValue

variable (atoi : Card → Int) (hand : Nat → Card)

/-- The first loop of `hand_value_player` from slot `i`, with `n` slots to go: the
value with every ace counted high, and the number of aces. It stops at the first
empty slot. -/
def countLoop : Nat → Nat → Int → Nat → Int × Nat
  | 0, _, value, ace => (value, ace)
  | n + 1, i, value, ace =>
    if strncmp (hand i) [] 1 = 0 then (value, ace)
    else if strncmp (hand i) ['A'] 1 = 0 then countLoop n (i + 1) (value + 11) (ace + 1)
    else if strncmp (hand i) ['K'] 1 = 0 ∨ strncmp (hand i) ['Q'] 1 = 0 ∨
        strncmp (hand i) ['J'] 1 = 0 ∨ strncmp (hand i) ['T'] 1 = 0 then
      countLoop n (i + 1) (value + 10) ace
    else countLoop n (i + 1) (value + atoi (hand i)) ace

/-- `while (value > 21 && ace > 0)`: count one more ace low. -/
def demoteAces : Int → Nat → Int
  | value, 0 => value
  | value, ace + 1 => if value > 21 then demoteAces (value - 10) ace else value

/-- The common body of `hand_value_player` and `hand_value_house`, over the slots of
one hand and the `atoi` that the program is linked with. -/
def handValueWith : Int :=
  let (value, ace) := countLoop atoi hand handSize 0 0 0
  demoteAces value ace

end HandValue

/-- The value of a hand in the Linux build. -/
def handValue (hand : Nat → Card) : Int := handValueWith atoi hand

/-- The cards in front of the first empty slot, from slot `i` with `n` slots to go:
what the counting loop sees. -/
def heldFrom (hand : Nat → Card) : Nat → Nat → List Card
  | 0, _ => []
  | n + 1, i => if hand i = [] then [] else hand i :: heldFrom hand n (i + 1)

/-! ## The blackjack value

The abstract side: an ace counts one or eleven, and a hand is worth its largest
total that does not exceed 21, or its lowest total if there is none. -/

/-- What a card of a given rank can count for. -/
def pips : Char → List Int
  | 'A' => [1, 11]
  | 'K' | 'Q' | 'J' | 'T' => [10]
  | '9' => [9] | '8' => [8] | '7' => [7] | '6' => [6]
  | '5' => [5] | '4' => [4] | '3' => [3] | '2' => [2]
  | _ => []

/-- Every total of a hand, one choice for each ace. -/
def totals : List Card → List Int
  | [] => [0]
  | c :: cs => (pips (c.headD ' ')).flatMap fun v => (totals cs).map (v + ·)

/-- The lowest total: every ace counts one. -/
def hardTotal (cs : List Card) : Int := (cs.map fun c => (pips (c.headD ' ')).headD 0).sum

/-- The blackjack value of a list of cards. -/
def blackjackValue (cs : List Card) : Int :=
  ((totals cs).filter (· ≤ 21)).max?.getD (hardTotal cs)

/-! ## The shoe -/

/-- The ranks, in the order of `all_cards`. -/
def ranks : List Char := ['A', 'K', 'Q', 'J', 'T', '9', '8', '7', '6', '5', '4', '3', '2']
/-- The suits, in the order of `all_cards`. -/
def suits : List Char := ['H', 'D', 'C', 'S']

/-- `create_shoe`: six copies of each card, in the order of the table `all_cards`. -/
def createShoe : List Card :=
  ranks.flatMap fun r => suits.flatMap fun s => List.replicate 6 [r, s]

/-- The loop of `shuffle` at index `i`; its `rand()` calls are numbered from `k`. -/
def shuffleLoop {α : Type} (rand : Nat → Nat) : Nat → Nat → List α → List α
  | 0, _, shoe => shoe
  | i + 1, k, shoe => shuffleLoop rand i (k + 1) (shoe.swap (i + 1) (rand k % (i + 2)))

/-- `shuffle(shoe, n)`. -/
def shuffle {α : Type} (rand : Nat → Nat) (k : Nat) (shoe : List α) (n : Nat) : List α :=
  shuffleLoop rand (n - 1) k shoe

/-- The array `shoe`, and how many times `rand()` was called so far. The generator
is an arbitrary stream of values, so `srand` leaves no trace here. -/
structure Shoe where
  cards : List Card
  calls : Nat

/-- `create_shoe`, `srand` and `shuffle`, as in `main` and in `pop_shoe`. -/
def newShoe (rand : Nat → Nat) (calls : Nat) : Shoe :=
  ⟨shuffle rand calls createShoe shoeSize, calls + (shoeSize - 1)⟩

/-- `pop_shoe`: the card on top, and the shoe moved up by one. An empty string on
top means that the shoe has run out; a new one is shuffled first. -/
def popShoe (rand : Nat → Nat) (shoe : Shoe) : Card × Shoe :=
  let shoe := if strncmp (shoe.cards.headD []) [] 1 = 0 then newShoe rand shoe.calls else shoe
  (shoe.cards.headD [], ⟨shoe.cards.tail ++ [[]], shoe.calls⟩)

/-- A card of the shoe: a rank and a suit. -/
def IsCard (c : Card) : Prop := ∃ r ∈ ranks, ∃ s ∈ suits, c = [r, s]

/-- The shoe holds real cards on top of empty strings. -/
def Shoe.Valid (shoe : Shoe) : Prop :=
  ∃ cs n, shoe.cards = cs ++ List.replicate n [] ∧ ∀ c ∈ cs, IsCard c

/-! ## One card -/

/-- How many aces a card is. -/
def aces (c : Card) : Nat := if c.headD ' ' = 'A' then 1 else 0

/-- What a card counts at least. -/
def low (c : Card) : Int := (pips (c.headD ' ')).headD 0

theorem IsCard.ne_nil {c : Card} (h : IsCard c) : c ≠ [] := by
  obtain ⟨r, _, s, _, rfl⟩ := h
  simp

theorem forall_ranks {p : Char → Prop} [DecidablePred p] (h : ranks.all (p ·) = true) :
    ∀ r ∈ ranks, p r :=
  fun r hr => of_decide_eq_true (List.all_eq_true.mp h r hr)

/-- A card of the shoe is one of 52. -/
theorem forall_cards {p : Card → Prop} [DecidablePred p]
    (h : (ranks.all fun r => suits.all fun s => p [r, s]) = true) : ∀ c, IsCard c → p c := by
  rintro c ⟨r, hr, s, hs, rfl⟩
  exact of_decide_eq_true (List.all_eq_true.mp (List.all_eq_true.mp h r hr) s hs)

theorem IsCard.one_le_low {c : Card} (h : IsCard c) : 1 ≤ low c := by
  obtain ⟨r, hr, s, _, rfl⟩ := h
  have hall : ∀ r ∈ ranks, 1 ≤ (pips r).headD 0 := forall_ranks (by decide)
  exact hall r hr

theorem IsCard.low_le {c : Card} (h : IsCard c) : low c ≤ 10 := by
  obtain ⟨r, hr, s, _, rfl⟩ := h
  have hall : ∀ r ∈ ranks, (pips r).headD 0 ≤ 10 := forall_ranks (by decide)
  exact hall r hr

theorem IsCard.pips_eq {c : Card} (h : IsCard c) :
    pips (c.headD ' ') = if aces c = 0 then [low c] else [low c, low c + 10] := by
  obtain ⟨r, hr, s, _, rfl⟩ := h
  have hall : ∀ r ∈ ranks, pips r =
      if (if r = 'A' then 1 else 0) = 0 then [(pips r).headD 0]
      else [(pips r).headD 0, (pips r).headD 0 + 10] := forall_ranks (by decide)
  exact hall r hr

theorem IsCard.aces_le {c : Card} : aces c ≤ 1 := by
  unfold aces
  split <;> decide

theorem mem_createShoe {c : Card} : c ∈ createShoe ↔ IsCard c := by
  simp [createShoe, IsCard]

theorem IsCard.strncmp_empty {c : Card} (h : IsCard c) : strncmp c [] 1 ≠ 0 := by
  obtain ⟨r, hr, s, _, rfl⟩ := h
  have hall : ∀ r ∈ ranks, strncmp [r] [] 1 ≠ 0 := forall_ranks (by decide)
  exact hall r hr

/-- A turn of the counting loop adds what the loop counts for the card alone. -/
theorem countLoop_turn {f : Card → Int} {hand : Nat → Card} {i : Nat}
    (h : IsCard (hand i)) (n : Nat) (v : Int) (a : Nat) :
    countLoop f hand (n + 1) i v a =
      countLoop f hand n (i + 1) (v + (countLoop f (fun _ => hand i) 1 0 0 0).1)
        (a + (countLoop f (fun _ => hand i) 1 0 0 0).2) := by
  simp only [countLoop, if_neg h.strncmp_empty]
  split
  · simp
  · split
    · simp
    · simp

theorem countLoop_empty {f : Card → Int} {hand : Nat → Card} {i : Nat} (h : hand i = []) (n : Nat)
    (v : Int) (a : Nat) : countLoop f hand (n + 1) i v a = (v, a) := by
  simp [countLoop, h, strncmp]

/-! ## 1. The counting loop computes the blackjack value -/

theorem hardTotal_cons (c : Card) (cs : List Card) :
    hardTotal (c :: cs) = low c + hardTotal cs := by
  simp [hardTotal, low]

/-- The number of aces of a hand. -/
def acesOf (cs : List Card) : Nat := (cs.map aces).sum

theorem acesOf_cons (c : Card) (cs : List Card) : acesOf (c :: cs) = aces c + acesOf cs := by
  simp [acesOf]

theorem length_le_hardTotal {cs : List Card} (h : ∀ c ∈ cs, IsCard c) :
    (cs.length : Int) ≤ hardTotal cs := by
  induction cs with
  | nil => simp [hardTotal]
  | cons c cs ih =>
    have hc := (h c (by simp)).one_le_low
    have hcs := ih fun d hd => h d (by simp [hd])
    rw [hardTotal_cons, List.length_cons]
    push_cast
    omega

/-- The totals of a hand: its lowest total and ten more for each ace counted high. -/
theorem mem_totals {cs : List Card} (h : ∀ c ∈ cs, IsCard c) {t : Int} :
    t ∈ totals cs ↔ ∃ k ≤ acesOf cs, t = hardTotal cs + 10 * k := by
  induction cs generalizing t with
  | nil => simp [totals, acesOf, hardTotal]
  | cons c cs ih =>
    have hcs : ∀ d ∈ cs, IsCard d := fun d hd => h d (by simp [hd])
    rw [totals, (h c (by simp)).pips_eq, hardTotal_cons, acesOf_cons]
    have ha := IsCard.aces_le (c := c)
    constructor
    · intro ht
      simp only [List.mem_flatMap, List.mem_map] at ht
      obtain ⟨v, hv, u, hu, rfl⟩ := ht
      obtain ⟨k, hk, rfl⟩ := (ih hcs).mp hu
      split at hv
      · next h0 =>
        simp only [List.mem_singleton] at hv
        exact ⟨k, by omega, by omega⟩
      · next h0 =>
        simp only [List.mem_cons, List.not_mem_nil, or_false] at hv
        rcases hv with rfl | rfl
        · exact ⟨k, by omega, by omega⟩
        · exact ⟨k + 1, by omega, by push_cast; omega⟩
    · rintro ⟨k, hk, rfl⟩
      simp only [List.mem_flatMap, List.mem_map]
      by_cases hkc : k ≤ acesOf cs
      · refine ⟨low c, ?_, hardTotal cs + 10 * k, (ih hcs).mpr ⟨k, hkc, rfl⟩, by omega⟩
        split <;> simp
      · refine ⟨low c + 10, ?_, hardTotal cs + 10 * acesOf cs,
          (ih hcs).mpr ⟨acesOf cs, le_refl _, rfl⟩, ?_⟩
        · rw [if_neg (by omega)]
          simp
        · have hk1 : k = acesOf cs + 1 := by omega
          subst hk1
          push_cast
          omega

/-- The demotion loop stops at the first total that does not exceed 21, or with every
ace counted low. -/
theorem demoteAces_spec (v : Int) (a : Nat) :
    ∃ k ≤ a, demoteAces v a = v - 10 * k ∧ (demoteAces v a ≤ 21 ∨ k = a) ∧
      (k = 0 ∨ 21 < demoteAces v a + 10) := by
  induction a generalizing v with
  | zero => exact ⟨0, le_refl _, by simp [demoteAces], .inr rfl, .inl rfl⟩
  | succ a ih =>
    rw [demoteAces]
    split
    · next hv =>
      obtain ⟨k, hk, heq, hstop, hlast⟩ := ih (v - 10)
      refine ⟨k + 1, by omega, by push_cast; omega, ?_, .inr ?_⟩
      · omega
      · rcases hlast with rfl | hlast
        · rw [heq]
          push_cast
          omega
        · exact hlast
    · next hv => exact ⟨0, by omega, by simp, .inl (by omega), .inl rfl⟩

theorem demoteAces_eq_blackjackValue {cs : List Card} (h : ∀ c ∈ cs, IsCard c) :
    demoteAces (hardTotal cs + 10 * acesOf cs) (acesOf cs) = blackjackValue cs := by
  obtain ⟨k, hk, heq, hstop, hlast⟩ :=
    demoteAces_spec (hardTotal cs + 10 * acesOf cs) (acesOf cs)
  generalize demoteAces (hardTotal cs + 10 * acesOf cs) (acesOf cs) = r at heq hstop hlast ⊢
  have hr : r ∈ totals cs := by
    refine (mem_totals h).mpr ⟨acesOf cs - k, by omega, ?_⟩
    push_cast [Nat.cast_sub hk]
    omega
  by_cases hle : r ≤ 21
  · have hmax : ((totals cs).filter (· ≤ 21)).max? = some r := by
      rw [List.max?_eq_some_iff]
      refine ⟨by simpa using ⟨hr, hle⟩, fun t ht => ?_⟩
      simp only [List.mem_filter, decide_eq_true_eq] at ht
      obtain ⟨j, hj, hjt⟩ := (mem_totals h).mp ht.1
      rcases hlast with rfl | hlast
      · omega
      · omega
    simp [blackjackValue, hmax]
  · have hka : k = acesOf cs := by
      rcases hstop with h21 | h21
      · exact absurd h21 hle
      · exact h21
    have hnone : (totals cs).filter (· ≤ 21) = [] := by
      rw [List.filter_eq_nil_iff]
      intro t ht
      obtain ⟨j, hj, hjt⟩ := (mem_totals h).mp ht
      simp only [decide_eq_true_eq]
      omega
    rw [blackjackValue, hnone]
    simp only [List.max?_nil, Option.getD_none]
    omega

/-- The counting loop over slots that hold real cards or nothing: each card counts high, and
`extra` more. -/
theorem countLoop_sum {f extra : Card → Int} {hand : Nat → Card}
    (hcard : ∀ c, IsCard c →
      countLoop f (fun _ => c) 1 0 0 0 = (low c + 10 * aces c + extra c, aces c))
    (h : ∀ i, hand i = [] ∨ IsCard (hand i)) (n i : Nat) (v : Int) (a : Nat) :
    countLoop f hand n i v a =
      (v + (hardTotal (heldFrom hand n i) + 10 * acesOf (heldFrom hand n i) +
          ((heldFrom hand n i).map extra).sum),
        a + acesOf (heldFrom hand n i)) := by
  induction n generalizing i v a with
  | zero => simp [countLoop, heldFrom, hardTotal, acesOf]
  | succ n ih =>
    rcases h i with hi | hi
    · rw [countLoop_empty hi]
      simp [heldFrom, hi, hardTotal, acesOf]
    · rw [countLoop_turn hi, hcard (hand i) hi, ih]
      simp only [heldFrom, if_neg hi.ne_nil, hardTotal_cons, acesOf_cons, List.map_cons,
        List.sum_cons]
      push_cast
      congr 1 <;> omega

/-- In the Linux build a card counts no more than it should. -/
theorem countLoop_eq {hand : Nat → Card} (h : ∀ i, hand i = [] ∨ IsCard (hand i)) (n i : Nat)
    (v : Int) (a : Nat) : countLoop atoi hand n i v a =
      (v + (hardTotal (heldFrom hand n i) + 10 * acesOf (heldFrom hand n i)),
        a + acesOf (heldFrom hand n i)) := by
  have hcard : ∀ c, IsCard c →
      countLoop atoi (fun _ => c) 1 0 0 0 = (low c + 10 * aces c + 0, aces c) :=
    forall_cards (by decide)
  rw [countLoop_sum hcard h]
  simp

theorem isCard_of_mem_heldFrom {hand : Nat → Card} (h : ∀ i, hand i = [] ∨ IsCard (hand i)) :
    ∀ (n i : Nat) (c : Card), c ∈ heldFrom hand n i → IsCard c := by
  intro n
  induction n with
  | zero => intro i c hc; simp [heldFrom] at hc
  | succ n ih =>
    intro i c hc
    rcases h i with hi | hi
    · simp [heldFrom, hi] at hc
    · simp only [heldFrom, if_neg hi.ne_nil, List.mem_cons] at hc
      rcases hc with rfl | hc
      · exact hi
      · exact ih (i + 1) c hc

/-- The value the program computes for a hand is the blackjack value of the cards in
front of its first empty slot. -/
theorem handValue_eq_blackjackValue {hand : Nat → Card}
    (h : ∀ i, hand i = [] ∨ IsCard (hand i)) :
    handValue hand = blackjackValue (heldFrom hand handSize 0) := by
  have hcards := isCard_of_mem_heldFrom h handSize 0
  rw [handValue, handValueWith, countLoop_eq h]
  simp only [zero_add]
  exact demoteAces_eq_blackjackValue hcards

/-! ## 2. Every card counts at least one -/

theorem hardTotal_le_blackjackValue {cs : List Card} (h : ∀ c ∈ cs, IsCard c) :
    hardTotal cs ≤ blackjackValue cs := by
  rw [← demoteAces_eq_blackjackValue h]
  obtain ⟨k, hk, heq, _⟩ := demoteAces_spec (hardTotal cs + 10 * acesOf cs) (acesOf cs)
  omega

theorem hardTotal_le {cs : List Card} (h : ∀ c ∈ cs, IsCard c) :
    hardTotal cs ≤ 10 * cs.length := by
  induction cs with
  | nil => simp [hardTotal]
  | cons c cs ih =>
    have hc := (h c (by simp)).low_le
    have hcs := ih fun d hd => h d (by simp [hd])
    rw [hardTotal_cons, List.length_cons]
    push_cast
    omega

/-- A hand exceeds 21 exactly if it does with every ace counted low. -/
theorem blackjackValue_le_iff {cs : List Card} (h : ∀ c ∈ cs, IsCard c) :
    blackjackValue cs ≤ 21 ↔ hardTotal cs ≤ 21 := by
  constructor
  · exact (hardTotal_le_blackjackValue h).trans
  · intro hle
    rw [← demoteAces_eq_blackjackValue h]
    obtain ⟨k, hk, heq, hstop, _⟩ :=
      demoteAces_spec (hardTotal cs + 10 * acesOf cs) (acesOf cs)
    rcases hstop with hstop | rfl
    · exact hstop
    · omega

/-- The cards of `m` filled slots in front of an empty one. -/
theorem heldFrom_filled {hand : Nat → Card} :
    ∀ {n m i : Nat}, m ≤ n → (∀ j < m, hand (i + j) ≠ []) → (m < n → hand (i + m) = []) →
      heldFrom hand n i = (List.range' i m).map hand := by
  intro n
  induction n with
  | zero =>
    intro m i hm _ _
    have hm0 : m = 0 := by omega
    subst hm0
    rfl
  | succ n ih =>
    intro m i hm hne hend
    cases m with
    | zero =>
      have hi : hand i = [] := hend (by omega)
      simp [heldFrom, hi]
    | succ m =>
      have hi : hand i ≠ [] := hne 0 (by omega)
      have htail : heldFrom hand n (i + 1) = (List.range' (i + 1) m).map hand := by
        refine ih (by omega) (fun j hj => ?_) (fun hmn => ?_)
        · have := hne (j + 1) (by omega)
          rwa [show i + (j + 1) = i + 1 + j by omega] at this
        · have := hend (by omega)
          rwa [show i + (m + 1) = i + 1 + m by omega] at this
      simp [heldFrom, hi, htail, List.range'_succ]

/-- Filled slots are all seen, whatever lies behind them. -/
theorem le_length_heldFrom {hand : Nat → Card} :
    ∀ {n m i : Nat}, m ≤ n → (∀ j < m, hand (i + j) ≠ []) → m ≤ (heldFrom hand n i).length := by
  intro n
  induction n with
  | zero => intro m i hm _; omega
  | succ n ih =>
    intro m i hm hne
    cases m with
    | zero => omega
    | succ m =>
      have hi : hand i ≠ [] := hne 0 (by omega)
      have htail : m ≤ (heldFrom hand n (i + 1)).length := by
        refine ih (by omega) fun j hj => ?_
        have := hne (j + 1) (by omega)
        rwa [show i + (j + 1) = i + 1 + j by omega] at this
      simpa [heldFrom, hi] using htail

/-- A hand of `m` cards is worth at least `m`. -/
theorem length_le_handValue {hand : Nat → Card} (h : ∀ i, hand i = [] ∨ IsCard (hand i))
    {m : Nat} (hm : m ≤ handSize) (hne : ∀ j < m, hand j ≠ []) : (m : Int) ≤ handValue hand := by
  have hcards := isCard_of_mem_heldFrom h handSize 0
  have hlen : m ≤ (heldFrom hand handSize 0).length :=
    le_length_heldFrom hm fun j hj => by simpa using hne j hj
  rw [handValue_eq_blackjackValue h]
  have h1 := length_le_hardTotal hcards
  have h2 := hardTotal_le_blackjackValue hcards
  omega

/-! ## 3. The shoe -/

theorem shuffleLoop_perm {α : Type} (rand : Nat → Nat) (i k : Nat) (shoe : List α) :
    (shuffleLoop rand i k shoe).Perm shoe := by
  induction i generalizing k shoe with
  | zero => exact List.Perm.refl _
  | succ i ih => exact (ih (k + 1) _).trans (List.swap_perm shoe _ _)

theorem newShoe_perm (rand : Nat → Nat) (k : Nat) : (newShoe rand k).cards.Perm createShoe := by
  simp only [newShoe, shuffle]
  generalize shoeSize - 1 = i
  exact shuffleLoop_perm rand i k createShoe

/-- A fresh shoe has a real card on top, and only real cards. -/
theorem newShoe_cons (rand : Nat → Nat) (k : Nat) :
    ∃ c cs, (newShoe rand k).cards = c :: cs ∧ ∀ d ∈ c :: cs, IsCard d := by
  have hcards : ∀ d ∈ (newShoe rand k).cards, IsCard d := fun d hd =>
    mem_createShoe.mp ((newShoe_perm rand k).mem_iff.mp hd)
  have hA : (['A', 'H'] : Card) ∈ (newShoe rand k).cards :=
    (newShoe_perm rand k).mem_iff.mpr (mem_createShoe.mpr ⟨'A', by decide, 'H', by decide, rfl⟩)
  obtain ⟨c, cs, hc⟩ := List.exists_cons_of_ne_nil (List.ne_nil_of_mem hA)
  exact ⟨c, cs, hc, hc ▸ hcards⟩

theorem newShoe_valid (rand : Nat → Nat) (k : Nat) : (newShoe rand k).Valid := by
  obtain ⟨c, cs, hc, hcards⟩ := newShoe_cons rand k
  exact ⟨c :: cs, 0, by simp [hc], hcards⟩

/-- Popping a shoe whose top is a real card. -/
theorem popShoe_of_card {rand : Nat → Nat} {shoe : Shoe} {c : Card} {cs : List Card} {n : Nat}
    (hs : shoe.cards = c :: cs ++ List.replicate n []) (hc : IsCard c) :
    popShoe rand shoe = (c, ⟨cs ++ List.replicate (n + 1) [], shoe.calls⟩) := by
  have hhead : shoe.cards.headD [] = c := by simp [hs]
  simp only [popShoe, hhead, if_neg hc.strncmp_empty]
  simp [hs, List.replicate_succ']

/-- A pop always yields a real card: an exhausted shoe is replaced first. -/
theorem popShoe_spec (rand : Nat → Nat) {shoe : Shoe} (h : shoe.Valid) :
    IsCard (popShoe rand shoe).1 ∧ (popShoe rand shoe).2.Valid := by
  obtain ⟨cs, n, hs, hcs⟩ := h
  cases cs with
  | cons c cs =>
    rw [popShoe_of_card hs (hcs c (by simp))]
    exact ⟨hcs c (by simp), cs, n + 1, rfl, fun d hd => hcs d (by simp [hd])⟩
  | nil =>
    have hhead : strncmp (shoe.cards.headD []) [] 1 = 0 := by
      rw [hs]
      cases n <;> rfl
    obtain ⟨d, ds, hds, hdc⟩ := newShoe_cons rand shoe.calls
    have hpop : popShoe rand shoe = popShoe rand (newShoe rand shoe.calls) := by
      -- the new shoe has a real card on top, so popping it does not shuffle again
      have htop : (newShoe rand shoe.calls).cards.headD [] = d := by simp [hds]
      simp only [popShoe, hhead, ↓reduceIte, htop, if_neg (hdc d (by simp)).strncmp_empty]
    have hds0 : (newShoe rand shoe.calls).cards = d :: ds ++ List.replicate 0 [] := by
      simpa using hds
    rw [hpop, popShoe_of_card hds0 (hdc d (by simp))]
    exact ⟨hdc d (by simp), ds, 1, rfl, fun e he => hdc e (by simp [he])⟩

end Vmwos.Blackjack
