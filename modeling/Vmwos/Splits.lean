import Mathlib.Algebra.BigOperators.Group.Finset.Basic
import Mathlib.Data.Multiset.Basic
import Vmwos.Money

/-!
# Splits and the cards of the player

A split is meant to move the second card of the current hand into a free hand. The
search for it compares no character (`strncmp(..., "", 0)`), so the card always goes
to the hand right after the current one. That hand is free when the current hand is
the last one; otherwise it holds a card, which is overwritten.

Results:
1. `splits_keep_cards`: along a run, no card is lost and every hand of the round has
   a card, exactly if every split is taken on the last hand.
2. `resplit_loses_a_card`: a run with a re-split of the first hand.
-/

namespace Vmwos.Blackjack

open Runs

/-! ## Definitions -/

/-- The cards in all hands of the player. -/
def cardsHeld (p : Player) : Multiset Card :=
  ∑ i ∈ Finset.range maxHands, (handCards (p.hand i) : Multiset Card)

/-- During and right after the player's turn: the hands hold exactly the cards dealt
to the player in this round, and each hand of the round has a card. -/
def CardsKept (g : Game) : Prop :=
  ((∃ h n, g.phase = .playing h n) ∨ g.phase = .turnOver) →
    cardsHeld g.player = (g.history.playerCards : Multiset Card) ∧
      ∀ i ≤ g.player.handIndex, handCards (g.player.hand i) ≠ []

/-- The next action is a split of hand `h` that passes the checks, after `n` splits. -/
def SplitTaken (g : Game) (input : Input) (h n : Nat) : Prop :=
  g.phase = .playing h n ∧ (∃ word, input.word = some word ∧ parseAction word = .split) ∧
    splitAllowed g.player h n

/-- An accepted split preserves the cards: the second card of the hand moves into a
hand that held none. -/
def SplitKeeps (rand : Nat → Nat) (g : Game) (input : Input) : Prop :=
  ∀ h n, SplitTaken g input h n →
    cardsHeld (next rand g input).player = cardsHeld g.player ∧
      ∃ t, handCards (g.player.hand t) = [] ∧
        handCards ((next rand g input).player.hand t) = [g.player.hand h 1]

/-- A split that is taken is taken on the last hand of the round. -/
def SplitsLast (g : Game) (input : Input) : Prop :=
  ∀ h n, SplitTaken g input h n → h = n

/-! ## Sums over the hands -/

/-- One hand gains a card. -/
theorem cardsHeld_gain {p p' : Player} {h : Nat} {c : Card} (hh : h < maxHands)
    (hgain : handCards (p'.hand h) = handCards (p.hand h) ++ [c])
    (hsame : ∀ i, i ≠ h → p'.hand i = p.hand i) : cardsHeld p' = cardsHeld p + {c} := by
  have hmem : h ∈ Finset.range maxHands := Finset.mem_range.mpr hh
  unfold cardsHeld
  rw [← Finset.add_sum_erase _ _ hmem, ← Finset.add_sum_erase _ _ hmem, hgain]
  have hrest : ∑ i ∈ (Finset.range maxHands).erase h, (handCards (p'.hand i) : Multiset Card) =
      ∑ i ∈ (Finset.range maxHands).erase h, (handCards (p.hand i) : Multiset Card) := by
    refine Finset.sum_congr rfl fun i hi => ?_
    rw [hsame i (Finset.ne_of_mem_erase hi)]
  rw [hrest, ← Multiset.coe_add, Multiset.coe_singleton]
  exact add_right_comm _ _ _

theorem cardsHeld_eq_zero {p : Player} (h : ∀ i, handCards (p.hand i) = []) :
    cardsHeld p = 0 := by
  unfold cardsHeld
  exact Finset.sum_eq_zero fun i _ => by rw [h i]; rfl

theorem handCards_of_table {g : Game} (hT : Table g) (i : Nat) :
    handCards (g.player.hand i) = (List.range (g.player.nextSlot i)).map (g.player.hand i) :=
  (hT.filled i).handCards_eq (hT.fits i)

theorem handCards_ne_nil {g : Game} (hT : Table g) (i : Nat) :
    handCards (g.player.hand i) ≠ [] ↔ g.player.nextSlot i ≠ 0 := by
  rw [handCards_of_table hT]
  simp

/-! ## Each action and the cards -/

/-- Drawing a card. -/
theorem cardsHeld_drawn {g : Game} (hT : Table g) {h : Nat} {c : Card} {shoe : Shoe}
    (hc : IsCard c) (hs : shoe.Valid) (hslot : g.player.nextSlot h < handSize)
    (hh : h ≤ g.player.handIndex) :
    cardsHeld (drawn g h c shoe).player = cardsHeld g.player + {c} := by
  have hlt : h < maxHands := lt_of_le_of_lt hh hT.hands
  refine cardsHeld_gain hlt ?_ fun i hi => ?_
  · rw [handCards_of_table (hT.drawn hc hs hslot hh) h, handCards_of_table hT h]
    simp [drawn, map_range_push]
  · simp [drawn, setSlot_of_ne _ _ _ hi]

/-- The hands after a split of hand `h`: it keeps its first card, and the second card
is the first of the next hand. -/
theorem handCards_split {g : Game} (hT : Table g) {h : Nat} (hslot : g.player.nextSlot h = 2)
    (hnext : g.player.nextSlot (h + 1) ≤ 1) (hh : h ≤ g.player.handIndex)
    (hmax : g.player.handIndex + 1 < maxHands) :
    handCards ((splitHand g.player h).hand h) = [g.player.hand h 0] ∧
      handCards ((splitHand g.player h).hand (h + 1)) = [g.player.hand h 1] ∧
      ∀ i, i ≠ h → i ≠ h + 1 → (splitHand g.player h).hand i = g.player.hand i := by
  have hT' := hT.split hslot hnext hh hmax g.phase
  have hne : h ≠ h + 1 := by omega
  refine ⟨?_, ?_, fun i hi hi1 => ?_⟩
  · rw [handCards_of_table hT' h]
    simp [splitHand, findAvailable_eq, hslot, setSlot_of_ne _ _ _ hne]
  · rw [handCards_of_table hT' (h + 1)]
    simp [splitHand, findAvailable_eq, setSlot_of_ne _ _ _ hne.symm]
  · simp [splitHand, findAvailable_eq, setSlot_of_ne _ _ _ hi, setSlot_of_ne _ _ _ hi1]

/-- A split into a free hand moves one card. -/
theorem cardsHeld_split {g : Game} (hT : Table g) {h : Nat} (hslot : g.player.nextSlot h = 2)
    (hfree : g.player.nextSlot (h + 1) = 0) (hh : h ≤ g.player.handIndex)
    (hmax : g.player.handIndex + 1 < maxHands) :
    cardsHeld (splitHand g.player h) = cardsHeld g.player := by
  obtain ⟨hfirst, hsecond, hrest⟩ :=
    handCards_split hT hslot (by omega) hh hmax
  have hempty : handCards (g.player.hand (h + 1)) = [] := by
    rw [handCards_of_table hT, hfree]
    rfl
  have htwo : handCards (g.player.hand h) = [g.player.hand h 0] ++ [g.player.hand h 1] := by
    rw [handCards_of_table hT, hslot]
    rfl
  -- the hands in between: the card is taken from hand `h` and not yet put down
  let mid : Player := { g.player with
    hand := Function.update g.player.hand h ((splitHand g.player h).hand h) }
  have hmid : cardsHeld g.player = cardsHeld mid + {g.player.hand h 1} := by
    refine cardsHeld_gain (h := h) (by omega) ?_ fun i hi => ?_
    · simp only [mid, Function.update_self]
      rw [htwo, hfirst]
    · simp [mid, Function.update_of_ne hi]
  have hend : cardsHeld (splitHand g.player h) = cardsHeld mid + {g.player.hand h 1} := by
    refine cardsHeld_gain (h := h + 1) (by omega) ?_ fun i hi => ?_
    · have hne : h + 1 ≠ h := by omega
      simp only [mid, Function.update_of_ne hne]
      rw [hsecond, hempty]
      rfl
    · by_cases hih : i = h
      · subst hih
        simp [mid]
      · simp [mid, Function.update_of_ne hih, hrest i hih hi]
  rw [hmid, hend]

/-! ## 1. Runs -/

/-- The turn goes on or ends with the cards of a hand that was drawn to. -/
theorem cardsKept_of_drawn {g g' : Game} (hI : Inv g) (hK : CardsKept g) {h n : Nat} {c : Card}
    {shoe : Shoe} (hp : g.phase = .playing h n) (hc : IsCard c) (hs : shoe.Valid)
    (hhand : g'.player.hand = (drawn g h c shoe).player.hand)
    (hindex : g'.player.handIndex = g.player.handIndex)
    (hcards : g'.history.playerCards = g.history.playerCards ++ [c]) : CardsKept g' := by
  have hP := hI.playing hp
  have hslot := hI.nextSlot_lt hp
  have hle : h ≤ g.player.handIndex := hP.handIndex_eq ▸ hP.le
  have hT' := hI.toTable.drawn hc hs hslot hle
  obtain ⟨heq, hne⟩ := hK (.inl ⟨h, n, hp⟩)
  intro _
  constructor
  · have hsame : cardsHeld g'.player = cardsHeld (drawn g h c shoe).player := by
      simp only [cardsHeld, hhand]
    rw [hsame, cardsHeld_drawn hI.toTable hc hs hslot hle, heq, hcards, ← Multiset.coe_add,
      Multiset.coe_singleton]
  · intro i hi
    rw [hhand, handCards_ne_nil hT']
    by_cases hih : i = h
    · simp [drawn, hih]
    · have hold := (handCards_ne_nil hI.toTable i).mp (hne i (hindex ▸ hi))
      simpa [drawn, Function.update_of_ne hih] using hold

/-- The first hand has the two cards of the deal. -/
theorem cardsKept_dealt {g : Game} (hI : Inv g) {amount : Int} {c₁ d₁ c₂ d₂ : Card} {shoe : Shoe}
    (hp : g.phase = .betting) (h1 : 1 ≤ amount) (h2 : amount ≤ g.player.money)
    (hc₁ : IsCard c₁) (hd₁ : IsCard d₁) (hc₂ : IsCard c₂) (hd₂ : IsCard d₂) (hs : shoe.Valid) :
    CardsKept (dealt g amount c₁ d₁ c₂ d₂ shoe) := by
  have hphase := hI.phase
  rw [PhaseInv, hp] at hphase
  obtain ⟨hslot, hindex, _, _, hhist⟩ := hphase
  have hI' := inv_dealt hI hp h1 h2 hc₁ hd₁ hc₂ hd₂ hs
  have hslot0 : (dealt g amount c₁ d₁ c₂ d₂ shoe).player.nextSlot 0 = 2 := by
    simp [dealt, hindex, hslot]
  have hempty : ∀ i, handCards (g.player.hand i) = [] := fun i => by
    rw [handCards_of_table hI.toTable, hslot]
    rfl
  intro _
  constructor
  · -- two cards, one after the other, into the first hand
    let mid : Player := { g.player with hand := setSlot g.player.hand 0 0 c₁ }
    have hfirst : handCards (mid.hand 0) = [c₁] := by
      have hF : Filled (g.player.hand 0) 0 := by simpa [hslot] using hI.filled 0
      rw [show mid.hand 0 = Function.update (g.player.hand 0) 0 c₁ by simp [mid],
        (hF.push hc₁).handCards_eq (by decide)]
      simp
    have hsecond : handCards ((dealt g amount c₁ d₁ c₂ d₂ shoe).player.hand 0) = [c₁, c₂] := by
      rw [handCards_of_table hI'.toTable, hslot0]
      simp [dealt, hindex, List.range_succ]
    have hmid : cardsHeld mid = cardsHeld g.player + {c₁} :=
      cardsHeld_gain (h := 0) (by decide) (by rw [hfirst, hempty]; rfl)
        fun i hi => by simp [mid, setSlot_of_ne _ _ _ hi]
    have hend : cardsHeld (dealt g amount c₁ d₁ c₂ d₂ shoe).player = cardsHeld mid + {c₂} :=
      cardsHeld_gain (h := 0) (by decide) (by rw [hfirst, hsecond]; rfl)
        fun i hi => by simp [mid, dealt, hindex, setSlot_of_ne _ _ _ hi]
    rw [hend, hmid, cardsHeld_eq_zero hempty]
    simp only [dealt, hhist]
    rfl
  · intro i hi
    have hi0 : i = 0 := by
      have hi' : i ≤ g.player.handIndex := hi
      omega
    rw [handCards_ne_nil hI'.toTable, hi0, hslot0]
    decide

theorem cardsKept_split {g : Game} (hI : Inv g) (hK : CardsKept g) {n : Nat}
    (hp : g.phase = .playing n n) (hs : splitAllowed g.player n n) :
    CardsKept { g with player := splitHand g.player n, phase := .playing n (n + 1) } := by
  have hP := hI.playing hp
  have hI' := inv_split hI hp hs
  have hfree : g.player.nextSlot (n + 1) = 0 :=
    hI.beyond (n + 1) (by rw [hP.handIndex_eq]; exact Nat.lt_succ_self n)
  have hmax : g.player.handIndex + 1 < maxHands := hI'.hands
  obtain ⟨heq, hne⟩ := hK (.inl ⟨n, n, hp⟩)
  intro _
  constructor
  · rw [← heq]
    exact cardsHeld_split hI.toTable hs.1 hfree hP.handIndex_eq.ge hmax
  · intro i hi
    have hi' : i ≤ g.player.handIndex + 1 := hi
    rw [handCards_ne_nil hI'.toTable]
    have hslots : (splitHand g.player n).nextSlot =
        Function.update (Function.update g.player.nextSlot n 1) (n + 1) 1 := by
      simp [splitHand, findAvailable_eq]
    show (splitHand g.player n).nextSlot i ≠ 0
    rw [hslots]
    simp only [Function.update_apply]
    split
    · decide
    · next hin =>
      split
      · decide
      · have hin' := hP.handIndex_eq
        exact (handCards_ne_nil hI.toTable i).mp (hne i (by omega))

/-- A move keeps the cards, if a split is taken on the last hand. -/
theorem cardsKept_move {g g' : Game} {input : Input} (hI : Inv g) (hK : CardsKept g)
    (hlast : SplitsLast g input) (hm : Move input g g') : CardsKept g' := by
  cases hm with
  | newRound hp hm => rintro (⟨h, n, hp'⟩ | hp') <;> cases hp'
  | bankrupt hp hm => rintro (⟨h, n, hp'⟩ | hp') <;> cases hp'
  | quit hp => rintro (⟨h, n, hp'⟩ | hp') <;> cases hp'
  | stay hp => exact hK
  | placeBet hp h1 h2 hc₁ hd₁ hc₂ hd₂ hs => exact cardsKept_dealt hI hp h1 h2 hc₁ hd₁ hc₂ hd₂ hs
  | hitOn hp hc hs hv => exact cardsKept_of_drawn hI hK hp hc hs rfl rfl rfl
  | @hitEnds h n c shoe hp hc hs =>
    refine cardsKept_of_drawn hI hK hp hc hs ?_ ?_ ?_
    · rw [money_endHand]
      rfl
    · rw [money_endHand]
      rfl
    · unfold endHand
      split <;> rfl
  | doubleDown hp hsplit hslot hbet hc hs => exact cardsKept_of_drawn hI hK hp hc hs rfl rfl rfl
  | @stand h n hp =>
    intro _
    obtain ⟨heq, hne⟩ := hK (.inl ⟨h, n, hp⟩)
    have hhand : (stand g h n).player.hand = g.player.hand ∧
        (stand g h n).player.handIndex = g.player.handIndex ∧
        (stand g h n).history = g.history := by
      unfold stand endHand
      split <;> exact ⟨rfl, rfl, rfl⟩
    rw [cardsHeld, hhand.1, hhand.2.1, hhand.2.2]
    exact ⟨heq, hne⟩
  | @split h n word hp hw ha hs =>
    have hhn : h = n := hlast h n ⟨hp, ⟨word, hw, ha⟩, hs⟩
    subst hhn
    exact cardsKept_split hI hK hp hs
  | dealerStarts hp => rintro (⟨h, n, hp'⟩ | hp') <;> cases hp'
  | dealerSkipped hp => rintro (⟨h, n, hp'⟩ | hp') <;> cases hp'
  | houseStops hp hv => rintro (⟨h, n, hp'⟩ | hp') <;> cases hp'
  | houseDraws hp hv hd hs =>
    rintro (⟨h, n, hp'⟩ | hp')
    · cases hp.symm.trans hp'
    · cases hp.symm.trans hp'
  | settle hp => rintro (⟨h, n, hp'⟩ | hp') <;> cases hp'

theorem next_split {rand : Nat → Nat} {g : Game} {input : Input} {h n : Nat}
    (ht : SplitTaken g input h n) : next rand g input =
      { g with player := splitHand g.player h, phase := .playing h (n + 1) } := by
  obtain ⟨hp, ⟨word, hw, ha⟩, hs⟩ := ht
  simp [next, hp, hw, ha, playerAction, split, hs]

/-- The split itself keeps the cards when the next hand is free. -/
theorem splitKeeps_of_last {rand : Nat → Nat} {g : Game} {input : Input} (hI : Inv g)
    (hlast : SplitsLast g input) : SplitKeeps rand g input := by
  intro h n ht
  have hhn := hlast h n ht
  subst hhn
  rw [next_split ht]
  obtain ⟨hp, _, hs⟩ := ht
  have hP := hI.playing hp
  have hfree : g.player.nextSlot (h + 1) = 0 :=
    hI.beyond (h + 1) (by rw [hP.handIndex_eq]; exact Nat.lt_succ_self h)
  have hmax : g.player.handIndex + 1 < maxHands := (inv_split hI hp hs).hands
  have hle : h ≤ g.player.handIndex := hP.handIndex_eq.ge
  refine ⟨cardsHeld_split hI.toTable hs.1 hfree hle hmax, h + 1, ?_, ?_⟩
  · rw [handCards_of_table hI.toTable, hfree]
    rfl
  · exact (handCards_split hI.toTable hs.1 (by omega) hle hmax).2.1

/-- A split on a hand that is not the last leaves the newest hand without a card. -/
theorem splitsLast_of_cardsKept {rand : Nat → Nat} {g : Game} {input : Input} (hI : Inv g)
    (hK : CardsKept (next rand g input)) : SplitsLast g input := by
  intro h n ht
  have hI' : Inv (next rand g input) := inv_next hI input
  rw [next_split ht] at hK hI'
  have hP := hI.playing ht.1
  by_contra hne
  have hlt : h < n := lt_of_le_of_ne hP.le hne
  have hnew := (hK (.inl ⟨h, n + 1, rfl⟩)).2 (n + 1) (by
    show n + 1 ≤ g.player.handIndex + 1
    rw [hP.handIndex_eq])
  rw [handCards_ne_nil hI'.toTable] at hnew
  refine hnew ?_
  have hbeyond : g.player.nextSlot (n + 1) = 0 :=
    hI.beyond (n + 1) (by rw [hP.handIndex_eq]; exact Nat.lt_succ_self n)
  have hn1 : n + 1 ≠ h + 1 := by omega
  have hn2 : n + 1 ≠ h := by omega
  simp [splitHand, findAvailable_eq, Function.update_of_ne hn1, Function.update_of_ne hn2, hbeyond]

/-- Along a run the player's hands hold exactly the cards dealt in the round, every
hand of the round has a card, and every split moves a card into a free hand, exactly
if no split is taken on a hand other than the last. -/
theorem splits_keep_cards (rand : Nat → Nat) (inputs : List Input) :
    (AllStates (step rand) CardsKept (mainStart rand) inputs ∧
        AllSteps (step rand) (SplitKeeps rand) (mainStart rand) inputs) ↔
      AllSteps (step rand) SplitsLast (mainStart rand) inputs := by
  have hstart : CardsKept (mainStart rand) := by
    rintro (⟨h, n, hp⟩ | hp) <;> cases hp
  have hiff : AllSteps (step rand) SplitsLast (mainStart rand) inputs ↔
      AllSteps (step rand) (fun g input => (∀ g', step rand g input = some g' → CardsKept g') ∧
        SplitKeeps rand g input) (mainStart rand) inputs := by
    refine AllSteps.iff_of_inv (I := fun g => Inv g ∧ CardsKept g) (fun g input hg => ?_)
      (fun g input g' hg hlast hs => ?_) ⟨inv_mainStart rand, hstart⟩
    · constructor
      · intro hlast
        refine ⟨fun g' hs => ?_, splitKeeps_of_last hg.1 hlast⟩
        cases hs
        exact cardsKept_move hg.1 hg.2 hlast (next_move input hg.1.shoe)
      · intro hD
        exact splitsLast_of_cardsKept hg.1 (hD.1 _ rfl)
    · cases hs
      exact ⟨inv_next hg.1 input, cardsKept_move hg.1 hg.2 hlast (next_move input hg.1.shoe)⟩
  rw [hiff, allSteps_and, allStates_iff_allSteps]
  exact ⟨fun h => ⟨h.1.2, h.2⟩, fun h => ⟨⟨hstart, h.1⟩, h.2⟩⟩

/-! ## 2. A re-split -/

/-- A stream of random numbers that shuffles three eights to the player. -/
def eightsFirst (k : Nat) : Nat :=
  if k = 161 then 0 else if k = 162 then 2 else if k = 163 then 4 else 311 - k

/-- Bet, split the two eights, hit a third one to the first hand, split again. -/
def resplit : List Input :=
  [idle, bet 10, act ['s', 'p', 'l', 'i', 't'], act ['h', 'i', 't'],
    act ['s', 'p', 'l', 'i', 't']]

/-- Three cards were dealt, two are left, and the third hand of the round is empty. -/
theorem resplit_loses_a_card :
    ¬ (AllStates (step eightsFirst) CardsKept (mainStart eightsFirst) resplit ∧
      AllSteps (step eightsFirst) (SplitKeeps eightsFirst) (mainStart eightsFirst) resplit) := by
  rintro ⟨hkept, _⟩
  have hend : (run (step eightsFirst) (mainStart eightsFirst) resplit).map
      (fun g => (g.phase, g.player.handIndex, handCards (g.player.hand 2))) =
        some (.playing 0 2, 2, []) := by
    decide +kernel
  obtain ⟨g, hrun, hg⟩ := Option.map_eq_some_iff.mp hend
  simp only [Prod.mk.injEq] at hg
  obtain ⟨hphase, hindex, hempty⟩ := hg
  exact (hkept.last hrun (.inl ⟨0, 2, hphase⟩)).2 2 hindex.ge hempty

end Vmwos.Blackjack
