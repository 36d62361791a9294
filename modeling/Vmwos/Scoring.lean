import Mathlib.Algebra.Order.BigOperators.Group.List
import Vmwos.Blackjack

/-!
# Scoring

What `hand_value_player` and `hand_value_house` return, on the cards of a hand, in the two
builds of the game. The Linux build is linked with `atoi` of the C library, the kernel build
with that of `vlibc`, which takes every character of a string for a digit: `"9H"` counts 114.

Results:
1. `hand_values_best`: in the Linux build both functions return the best total of the hand.
2. `builds_agree_iff`: the kernel build agrees on exactly the hands without a card of rank 2 to
   9.
3. `nine_counts_more`: a hand on which it does not.
-/

namespace Vmwos.Blackjack

/-! ## Definitions -/

/-- The hand holds the cards, in the order of its slots, and nothing behind them. -/
structure Holds (hand : Nat → Card) (cs : List Card) : Prop where
  fits : cs.length ≤ handSize
  slot : ∀ j < handSize, hand j = cs[j]?.getD []

/-- The largest total that does not exceed 21, or the total with every ace counted as 1 if
there is none. -/
def IsBest (cs : List Card) (v : Int) : Prop :=
  (v ∈ totals cs ∧ v ≤ 21 ∧ ∀ t ∈ totals cs, t ≤ 21 → t ≤ v) ∨
    ((∀ t ∈ totals cs, 21 < t) ∧ v = hardTotal cs)

/-- `atoi` of `vlibc`. -/
def vlibcAtoi (s : List Char) : Int := s.foldl (fun result c => result * 10 + (c.toNat - 48)) 0

/-- The ranks that `hand_value_player` passes to `atoi`. -/
def digitRanks : List Char := ['9', '8', '7', '6', '5', '4', '3', '2']

/-- A card whose rank is a digit. -/
def IsDigitCard (c : Card) : Prop := c.headD ' ' ∈ digitRanks

instance : DecidablePred IsDigitCard := fun _ => inferInstanceAs (Decidable (_ ∈ _))

variable {hand : Nat → Card} {cs ds : List Card}

/-! ## The slots of a hand -/

/-- Only the slots of the hand are counted. -/
theorem countLoop_congr {f : Card → Int} {hand' : Nat → Card} {n i : Nat}
    (h : ∀ j, i ≤ j → j < i + n → hand j = hand' j) (v : Int) (a : Nat) :
    countLoop f hand n i v a = countLoop f hand' n i v a := by
  induction n generalizing i v a with
  | zero => rfl
  | succ n ih =>
    have hi : hand i = hand' i := h i (le_refl i) (by omega)
    have hrest : ∀ j, i + 1 ≤ j → j < i + 1 + n → hand j = hand' j :=
      fun j hj hj' => h j (by omega) (by omega)
    simp only [countLoop, hi, ih hrest]

/-- The hand of the cards, with empty slots behind them. -/
def handOf (cs : List Card) : Nat → Card := fun j => cs[j]?.getD []

theorem Holds.countLoop_eq (h : Holds hand cs) (f : Card → Int) :
    countLoop f hand handSize 0 0 0 = countLoop f (handOf cs) handSize 0 0 0 :=
  countLoop_congr (fun j _ hj => h.slot j (by omega)) 0 0

theorem handOf_slot (hcards : ∀ c ∈ cs, IsCard c) (j : Nat) :
    handOf cs j = [] ∨ IsCard (handOf cs j) := by
  rw [handOf]
  rcases Nat.lt_or_ge j cs.length with hj | hj
  · rw [List.getElem?_eq_getElem hj]
    exact .inr (hcards _ (List.getElem_mem hj))
  · rw [List.getElem?_eq_none hj]
    exact .inl rfl

theorem heldFrom_handOf (hcards : ∀ c ∈ cs, IsCard c) (hfits : cs.length ≤ handSize) :
    heldFrom (handOf cs) handSize 0 = cs := by
  rw [heldFrom_filled hfits]
  · refine List.ext_getElem (by simp) fun j hj hj' => ?_
    simp [handOf, hj']
  · intro j hj
    have hcard := hcards _ (List.getElem_mem hj)
    simpa [handOf, hj] using hcard.ne_nil
  · intro _
    simp [handOf]

/-- The value of a hand is the blackjack value of its cards. -/
theorem Holds.value_eq (h : Holds hand cs) (hcards : ∀ c ∈ cs, IsCard c) :
    handValue hand = blackjackValue cs := by
  have hvalue : handValue hand = handValue (handOf cs) := by
    rw [handValue, handValueWith, handValue, handValueWith, h.countLoop_eq]
  rw [hvalue, handValue_eq_blackjackValue (handOf_slot hcards), heldFrom_handOf hcards h.fits]

/-! ## 1. The best total -/

theorem isBest_blackjackValue (cs : List Card) : IsBest cs (blackjackValue cs) := by
  cases hmax : ((totals cs).filter (· ≤ 21)).max? with
  | none =>
    have hnone := List.max?_eq_none_iff.mp hmax
    rw [List.filter_eq_nil_iff] at hnone
    refine .inr ⟨fun t ht => ?_, by rw [blackjackValue, hmax, Option.getD_none]⟩
    simpa using hnone t ht
  | some v =>
    have hv : blackjackValue cs = v := by rw [blackjackValue, hmax, Option.getD_some]
    obtain ⟨hmem, hle⟩ := List.max?_eq_some_iff.mp hmax
    rw [List.mem_filter, decide_eq_true_eq] at hmem
    rw [hv]
    exact .inl ⟨hmem.1, hmem.2, fun t ht ht' => hle t (by simpa using ⟨ht, ht'⟩)⟩

theorem hardTotal_perm (h : ds.Perm cs) : hardTotal ds = hardTotal cs := (h.map _).sum_eq

theorem acesOf_perm (h : ds.Perm cs) : acesOf ds = acesOf cs := (h.map _).sum_eq

/-- The order of the cards does not matter. -/
theorem blackjackValue_perm (hcards : ∀ c ∈ cs, IsCard c) (h : ds.Perm cs) :
    blackjackValue ds = blackjackValue cs := by
  have hcards' : ∀ c ∈ ds, IsCard c := fun c hc => hcards c (h.mem_iff.mp hc)
  rw [← demoteAces_eq_blackjackValue hcards, ← demoteAces_eq_blackjackValue hcards',
    hardTotal_perm h, acesOf_perm h]

/-- Both functions return the best total of a hand, whatever the order of its cards. -/
theorem hand_values_best (cs : List Card) (hcards : ∀ c ∈ cs, IsCard c) :
    (∀ (p : Player) (i : Nat), Holds (p.hand i) cs → IsBest cs (handValuePlayer p i)) ∧
      (∀ h : House, Holds h.hand cs → IsBest cs (handValueHouse h)) ∧
      (∀ ds : List Card, ds.Perm cs → ∀ (p q : Player) (i j : Nat), Holds (p.hand i) cs →
        Holds (q.hand j) ds → handValuePlayer q j = handValuePlayer p i) ∧
      ∀ ds : List Card, ds.Perm cs → ∀ h k : House, Holds h.hand cs → Holds k.hand ds →
        handValueHouse k = handValueHouse h := by
  have hbest := isBest_blackjackValue cs
  have hcards' : ∀ {ds : List Card}, ds.Perm cs → ∀ c ∈ ds, IsCard c :=
    fun h c hc => hcards c (h.mem_iff.mp hc)
  refine ⟨fun p i h => ?_, fun house h => ?_, fun ds hperm p q i j hp hq => ?_,
    fun ds hperm h k hh hk => ?_⟩
  · rw [handValuePlayer, h.value_eq hcards]
    exact hbest
  · rw [handValueHouse, h.value_eq hcards]
    exact hbest
  · rw [handValuePlayer, handValuePlayer, hp.value_eq hcards, hq.value_eq (hcards' hperm),
      blackjackValue_perm hcards hperm]
  · rw [handValueHouse, handValueHouse, hh.value_eq hcards, hk.value_eq (hcards' hperm),
      blackjackValue_perm hcards hperm]

/-- An ace and a nine, in either order. -/
theorem hand_values_best_twenty :
    IsBest [['A', 'H'], ['9', 'S']]
        (handValueHouse ⟨0, 0, 2, handOf [['A', 'H'], ['9', 'S']]⟩) ∧
      handValueHouse ⟨0, 0, 2, handOf [['9', 'S'], ['A', 'H']]⟩ =
        handValueHouse ⟨0, 0, 2, handOf [['A', 'H'], ['9', 'S']]⟩ := by
  have hcards : ∀ c ∈ [['A', 'H'], ['9', 'S']], IsCard c := by
    simp [IsCard, ranks, suits]
  obtain ⟨_, hhouse, _, hperm⟩ := hand_values_best [['A', 'H'], ['9', 'S']] hcards
  exact ⟨hhouse _ ⟨by decide, fun _ _ => rfl⟩,
    hperm [['9', 'S'], ['A', 'H']] (.swap _ _ _) _ _ ⟨by decide, fun _ _ => rfl⟩
      ⟨by decide, fun _ _ => rfl⟩⟩

/-! ## 2. The kernel build -/

/-- What `atoi` of `vlibc` adds to the value of a card. -/
def excess (c : Card) : Int := if IsDigitCard c then vlibcAtoi c - low c else 0

/-- What it adds to the value of a hand. -/
def excessOf (cs : List Card) : Int := (cs.map excess).sum

theorem excessOf_cons (c : Card) (cs : List Card) : excessOf (c :: cs) = excess c + excessOf cs := by
  simp [excessOf]

/-- The smallest of these cards is the two of clubs, which counts 39. -/
theorem IsCard.excess_le {c : Card} (h : IsCard c) :
    0 ≤ excess c ∧ (IsDigitCard c → 39 ≤ low c + excess c ∧ 0 < excess c) :=
  forall_cards (p := fun c =>
    0 ≤ excess c ∧ (IsDigitCard c → 39 ≤ low c + excess c ∧ 0 < excess c)) (by decide) c h

/-- What the kernel build counts for a card. -/
theorem countLoop_vlibc_card (c : Card) (h : IsCard c) :
    countLoop vlibcAtoi (fun _ => c) 1 0 0 0 = (low c + 10 * aces c + excess c, aces c) :=
  forall_cards (p := fun c =>
    countLoop vlibcAtoi (fun _ => c) 1 0 0 0 = (low c + 10 * aces c + excess c, aces c))
    (by decide) c h

/-- The value of a hand in the kernel build. -/
theorem Holds.vlibc_eq (h : Holds hand cs) (hcards : ∀ c ∈ cs, IsCard c) :
    handValueWith vlibcAtoi hand =
      demoteAces (hardTotal cs + 10 * acesOf cs + excessOf cs) (acesOf cs) := by
  rw [handValueWith, h.countLoop_eq, countLoop_sum countLoop_vlibc_card (handOf_slot hcards),
    heldFrom_handOf hcards h.fits]
  simp only [zero_add, excessOf]

theorem excessOf_nonneg (hcards : ∀ c ∈ cs, IsCard c) : 0 ≤ excessOf cs := by
  refine List.sum_nonneg fun x hx => ?_
  obtain ⟨c, hc, rfl⟩ := List.mem_map.mp hx
  exact (hcards c hc).excess_le.1

theorem excessOf_eq_zero (h : ∀ c ∈ cs, ¬IsDigitCard c) : excessOf cs = 0 := by
  refine List.sum_eq_zero fun x hx => ?_
  obtain ⟨c, hc, rfl⟩ := List.mem_map.mp hx
  rw [excess, if_neg (h c hc)]

/-- One card of rank 2 to 9 takes a hand over 21, with every ace counted as 1. -/
theorem excessOf_large (hcards : ∀ c ∈ cs, IsCard c) (h : ∃ c ∈ cs, IsDigitCard c) :
    39 ≤ hardTotal cs + excessOf cs ∧ 0 < excessOf cs := by
  induction cs with
  | nil =>
    obtain ⟨c, hc, _⟩ := h
    exact absurd hc List.not_mem_nil
  | cons c cs ih =>
    have hcards' : ∀ d ∈ cs, IsCard d := fun d hd => hcards d (List.mem_cons_of_mem _ hd)
    have hc := hcards c List.mem_cons_self
    have hlow := hc.one_le_low
    have hexcess := hc.excess_le
    have hrest := excessOf_nonneg hcards'
    have htotal := length_le_hardTotal hcards'
    rw [hardTotal_cons, excessOf_cons]
    by_cases hdigit : IsDigitCard c
    · have hlarge := hexcess.2 hdigit
      omega
    · obtain ⟨d, hd, hdigit'⟩ := h
      rcases List.mem_cons.mp hd with rfl | hd
      · exact absurd hdigit' hdigit
      · have hlarge := ih hcards' ⟨d, hd, hdigit'⟩
        omega

/-- The kernel build scores a hand like the Linux build exactly if no card of it has a rank
from 2 to 9. -/
theorem builds_agree_iff (p : Player) (i : Nat) (cs : List Card) (hcards : ∀ c ∈ cs, IsCard c)
    (h : Holds (p.hand i) cs) :
    handValueWith vlibcAtoi (p.hand i) = handValuePlayer p i ↔ ∀ c ∈ cs, ¬IsDigitCard c := by
  rw [h.vlibc_eq hcards, handValuePlayer, h.value_eq hcards, ← demoteAces_eq_blackjackValue hcards]
  constructor
  · intro heq c hc hdigit
    obtain ⟨hlarge, hpos⟩ := excessOf_large hcards ⟨c, hc, hdigit⟩
    obtain ⟨k, hk, hkernel, hstop, _⟩ :=
      demoteAces_spec (hardTotal cs + 10 * acesOf cs + excessOf cs) (acesOf cs)
    obtain ⟨k', hk', hlinux, hstop', _⟩ :=
      demoteAces_spec (hardTotal cs + 10 * acesOf cs) (acesOf cs)
    -- in the kernel build all aces are demoted, and the hand is still over 21
    have hover : 21 < demoteAces (hardTotal cs + 10 * acesOf cs + excessOf cs) (acesOf cs) := by
      omega
    omega
  · intro hnone
    rw [excessOf_eq_zero hnone, add_zero]

/-- A player who holds the cards in every hand. -/
def playerHolding (cs : List Card) : Player :=
  { (start ⟨[], 0⟩).player with hand := fun _ => handOf cs }

/-- A king and an ace count the same in both builds. -/
theorem builds_agree_iff_blackjack :
    handValueWith vlibcAtoi ((playerHolding [['K', 'H'], ['A', 'S']]).hand 0) =
      handValuePlayer (playerHolding [['K', 'H'], ['A', 'S']]) 0 :=
  (builds_agree_iff (playerHolding [['K', 'H'], ['A', 'S']]) 0 [['K', 'H'], ['A', 'S']]
    (by simp [IsCard, ranks, suits]) ⟨by decide, fun _ _ => rfl⟩).mpr (by decide)

/-! ## 3. A nine -/

/-- The nine of hearts counts 9 in the Linux build, and 114 in the kernel build. -/
theorem nine_counts_more :
    (∀ c ∈ [['9', 'H']], IsCard c) ∧
      Holds ((playerHolding [['9', 'H']]).hand 0) [['9', 'H']] ∧
      handValueWith vlibcAtoi ((playerHolding [['9', 'H']]).hand 0) ≠
        handValuePlayer (playerHolding [['9', 'H']]) 0 :=
  ⟨by simp [IsCard, ranks, suits], ⟨by decide, fun _ _ => rfl⟩, by decide⟩

end Vmwos.Blackjack
