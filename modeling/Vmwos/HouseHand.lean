import Vmwos.Money

/-!
# The cards of the house

`reset_hands` clears the house's hand inside the loop over the hands of the player,
so it reaches the first four slots only. A fifth card of the house stays on the table
and is counted again when a later round draws up to it.

Results:
1. `house_plays_its_cards`: along a run, every value the house plays on is the value
   of its cards of the round and every new round finds an empty hand, exactly if no
   round begins after one in which the house held more than four cards.
2. `seven_aces_stay`: a run of two rounds in which the house counts old cards.
-/

namespace Vmwos.Blackjack

open Runs

/-! ## Definitions -/

/-- When `house_turn` evaluates the hand, the value is that of the cards dealt to the
house in this round. -/
def HouseValued (g : Game) : Prop :=
  g.phase = .housePlays → handValueHouse g.house = blackjackValue g.history.houseCards

/-- When the bet is read, right after `reset_hands`, no slot of the house holds a card. -/
def HouseCleared (g : Game) : Prop :=
  g.phase = .betting → ∀ j < handSize, g.house.hand j = []

/-- A round that begins follows one in which the house held at most four cards. -/
def HouseDrewFew (g : Game) (_ : Input) : Prop :=
  g.phase = .newRound → 0 < g.player.money → g.house.nextSlot ≤ maxHands

/-- No card lies behind the cards of the round. -/
def NoOldCard (g : Game) : Prop := ∀ j, g.house.nextSlot ≤ j → g.house.hand j = []

/-! ## One step -/

theorem houseFilled {g : Game} (hT : Table g) (hN : NoOldCard g) :
    Filled g.house.hand g.house.nextSlot :=
  ⟨hT.houseCard, hN⟩

theorem houseValued_of_noOldCard {g : Game} (hT : Table g) (hN : NoOldCard g) :
    HouseValued g := by
  intro _
  rw [hT.houseCards]
  exact (houseFilled hT hN).value_eq hT.houseFits

theorem houseCleared_of_noOldCard {g : Game} (hI : Inv g) (hN : NoOldCard g) :
    HouseCleared g := by
  intro hp j _
  have hphase := hI.phase
  rw [PhaseInv, hp] at hphase
  obtain ⟨_, _, _, hslot, _⟩ := hphase
  exact hN j (by rw [hslot]; exact Nat.zero_le j)

/-- `reset_hands` clears a hand of at most four cards. -/
theorem noOldCard_roundBegun {g : Game} (hN : NoOldCard g) (hfew : g.house.nextSlot ≤ maxHands) :
    NoOldCard (roundBegun g) := by
  intro j _
  simp only [roundBegun, resetHands]
  split
  · rfl
  · next hj => exact hN j (hfew.trans (not_lt.mp hj))

/-- A fifth card survives `reset_hands`. -/
theorem le_of_houseCleared {g : Game} (hT : Table g) (hC : HouseCleared (roundBegun g)) :
    g.house.nextSlot ≤ maxHands := by
  by_contra hmany
  rw [not_le] at hmany
  have hkept : (roundBegun g).house.hand maxHands = g.house.hand maxHands := by
    simp [roundBegun, resetHands]
  have hcard := hT.houseCard maxHands hmany
  have hsize : maxHands < handSize := by decide
  exact hcard.ne_nil (hkept ▸ hC rfl maxHands hsize)

theorem noOldCard_move {g g' : Game} {input : Input} (hI : Inv g) (hN : NoOldCard g)
    (hfew : HouseDrewFew g input) (hm : Move input g g') : NoOldCard g' := by
  cases hm with
  | newRound hp hm => exact noOldCard_roundBegun hN (hfew hp hm)
  | placeBet hp h1 h2 hc₁ hd₁ hc₂ hd₂ hs =>
    have hphase := hI.phase
    rw [PhaseInv, hp] at hphase
    obtain ⟨_, _, _, hslot, _⟩ := hphase
    have hF := houseFilled hI.toTable hN
    rw [hslot] at hF
    intro j hj
    refine ((hF.push hd₁).push hd₂).empty j ?_
    simpa [dealt, hslot] using hj
  | houseDraws hp hv hd hs => exact ((houseFilled hI.toTable hN).push hd).empty
  | hitEnds hp hc hs =>
    unfold endHand
    split <;> exact hN
  | @stand h n hp =>
    unfold stand endHand
    split <;> exact hN
  | bankrupt | quit | stay | hitOn | doubleDown | split | dealerStarts | dealerSkipped
  | houseStops | settle => exact hN

/-- The condition is exactly what `reset_hands` needs. -/
theorem houseDrewFew_of_cleared {rand : Nat → Nat} {g : Game} {input : Input} (hI : Inv g)
    (hC : HouseCleared (next rand g input)) : HouseDrewFew g input := by
  intro hp hm
  have hnext : next rand g input = roundBegun g := by
    simp only [next, hp]
    rw [if_pos hm]
    rfl
  exact le_of_houseCleared hI.toTable (hnext ▸ hC)

/-! ## 1. Whole runs -/

/-- The house plays only its own current cards, along every run in which each round
begins after one in which the house held at most four cards, and along no other. -/
theorem house_plays_its_cards (rand : Nat → Nat) (inputs : List Input) :
    AllStates (step rand) (fun g => HouseValued g ∧ HouseCleared g) (mainStart rand) inputs ↔
      AllSteps (step rand) HouseDrewFew (mainStart rand) inputs := by
  have hstart : Inv (mainStart rand) ∧ NoOldCard (mainStart rand) :=
    ⟨inv_mainStart rand, fun _ _ => rfl⟩
  have hgood : ∀ {g : Game}, Inv g ∧ NoOldCard g → HouseValued g ∧ HouseCleared g :=
    fun hg => ⟨houseValued_of_noOldCard hg.1.toTable hg.2, houseCleared_of_noOldCard hg.1 hg.2⟩
  have hstep : ∀ g input g', Inv g ∧ NoOldCard g → HouseDrewFew g input →
      step rand g input = some g' → Inv g' ∧ NoOldCard g' := by
    intro g input g' hg hfew hs
    cases hs
    exact ⟨inv_next hg.1 input, noOldCard_move hg.1 hg.2 hfew (next_move input hg.1.shoe)⟩
  rw [allStates_iff_allSteps, and_iff_right (hgood hstart)]
  refine (AllSteps.iff_of_inv (fun g input hg => ?_) hstep hstart).symm
  constructor
  · intro hfew g' hs
    exact hgood (hstep g input g' hg hfew hs)
  · intro hD
    exact houseDrewFew_of_cleared hg.1 (hD _ rfl).2

/-! ## 2. Old cards are counted -/

/-- A stream of random numbers that leaves the shoe in order, twenty-four aces first. -/
def unshuffled (k : Nat) : Nat := 311 - k

/-- Two rounds of a player who bets and stands. In the first the house draws up to
seven aces, in the second up to four. -/
def twoStands : List Input :=
  [idle, bet 10, act ['s', 't', 'a', 'n', 'd'], idle] ++ List.replicate 7 idle ++
    [idle, bet 10, act ['s', 't', 'a', 'n', 'd'], idle] ++ List.replicate 2 idle

/-- The four aces of the second round are worth 14, and the house plays on 17. -/
theorem seven_aces_stay :
    ¬ AllStates (step unshuffled) (fun g => HouseValued g ∧ HouseCleared g)
      (mainStart unshuffled) twoStands := by
  intro h
  let g := twoStands.foldl (next unshuffled) (mainStart unshuffled)
  have hg : g.phase = .housePlays ∧ handValueHouse g.house = 17 ∧
      blackjackValue g.history.houseCards = 14 := by
    decide +kernel
  have hvalued : HouseValued g := (h.last (run_step _ _ _)).1
  have heq : (17 : Int) = 14 := hg.2.1.symm.trans ((hvalued hg.1).trans hg.2.2)
  exact absurd heq (by decide)

end Vmwos.Blackjack
