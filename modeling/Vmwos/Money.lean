import Vmwos.GameInvariant

/-!
# Money accounting over whole games

The rules of the house are stated on the cards of a hand (`outcome`): a hand wins its
bet, loses it or pushes. `money_accounting` says that along every run the player's
money is the money of the round's start less one bet for each hand, is never
negative, changes in a settlement by exactly the outcomes of the hands, and is zero
when the main loop ends.
-/

namespace Vmwos.Blackjack

open Runs

/-! ## The rules -/

/-- The cards in the slots of a hand. -/
def handCards (hand : Nat → Card) : List Card :=
  ((List.range handSize).map hand).filter fun c => c ≠ []

/-- What one hand brings, in bets: it wins (`1`), pushes (`0`) or loses (`-1`) against
a house of the given value and number of cards. On equal values of 21 a hand of two
cards beats one of more. -/
def outcome (cards : List Card) (houseValue : Int) (houseCount : Nat) : Int :=
  let value := blackjackValue cards
  if value > 21 then -1
  else if houseValue > 21 ∨ value > houseValue then 1
  else if value = houseValue then
    if value = 21 ∧ cards.length = 2 ∧ houseCount ≠ 2 then 1
    else if value = 21 ∧ cards.length ≠ 2 ∧ houseCount = 2 then -1
    else 0
  else -1

/-- Between the bet and the settlement. -/
def InRound (g : Game) : Prop :=
  match g.phase with
  | .playing _ _ | .turnOver | .housePlays | .settling => True
  | _ => False

/-- The accounts at one point of the program. -/
structure Accounts (g : Game) : Prop where
  staked : InRound g →
    g.player.money = g.history.startMoney - g.player.betSize * (g.player.handIndex + 1)
  nonneg : 0 ≤ g.player.money
  broke : g.phase = .finished 0 → g.player.money = 0

/-- A settlement pays the outcome of every hand of the round. -/
def SettlesFairly (rand : Nat → Nat) (g : Game) (input : Input) : Prop :=
  g.phase = .settling →
    (next rand g input).player.money = g.history.startMoney +
      ((List.range (g.player.handIndex + 1)).map fun i =>
        outcome (handCards (g.player.hand i)) g.house.value g.history.houseCards.length *
          g.player.betSize).sum

/-! ## The settlement follows the rules -/

theorem Filled.handCards_eq {hand : Nat → Card} {n : Nat} (h : Filled hand n)
    (hn : n ≤ handSize) : handCards hand = (List.range n).map hand := by
  obtain ⟨k, hk⟩ := Nat.exists_eq_add_of_le hn
  rw [handCards, hk, List.range_add, List.map_append, List.filter_append]
  have hfront : ((List.range n).map hand).filter (fun c => c ≠ []) = (List.range n).map hand := by
    rw [List.filter_eq_self]
    intro c hc
    simpa using (h.isCard_of_mem c hc).ne_nil
  have hback : (((List.range k).map (n + ·)).map hand).filter (fun c => c ≠ []) = [] := by
    rw [List.filter_eq_nil_iff]
    intro c hc
    simp only [List.mem_map] at hc
    obtain ⟨_, ⟨j, _, rfl⟩, rfl⟩ := hc
    simpa using h.empty (n + j) (Nat.le_add_right n j)
  rw [hfront, hback, List.append_nil]

/-- What the settlement adds for a played hand: the bet back, and the outcome. -/
theorem payout_eq_outcome {g : Game} (hT : Table g) {i : Nat} (hd : Done g.player i) :
    payout g.player g.house i = g.player.betSize +
      outcome (handCards (g.player.hand i)) g.house.value g.history.houseCards.length *
        g.player.betSize := by
  have hF := hT.filled i
  have hcards := hF.handCards_eq (hT.fits i)
  have hvalue : g.player.value i = blackjackValue (handCards (g.player.hand i)) := by
    rw [hcards, ← hF.value_eq (hT.fits i)]
    exact hd.value_eq
  have hslot : g.player.nextSlot i = (handCards (g.player.hand i)).length := by
    rw [hcards, List.length_map, List.length_range]
  have hhouse : g.house.nextSlot = g.history.houseCards.length := by
    rw [hT.houseCards, List.length_map, List.length_range]
  unfold payout outcome
  rw [hvalue, hslot, hhouse]
  grind

theorem sum_payout {g : Game} (hT : Table g) :
    ∀ l : List Nat, (∀ i ∈ l, Done g.player i) →
      (l.map (payout g.player g.house)).sum = g.player.betSize * l.length +
        (l.map fun i =>
          outcome (handCards (g.player.hand i)) g.house.value g.history.houseCards.length *
            g.player.betSize).sum := by
  intro l
  induction l with
  | nil => intro _; simp
  | cons i l ih =>
    intro hl
    have hi := payout_eq_outcome hT (hl i (by simp))
    have htail := ih fun j hj => hl j (by simp [hj])
    simp only [List.map_cons, List.sum_cons, List.length_cons, hi, htail]
    push_cast
    ring

theorem settlesFairly_of_inv (rand : Nat → Nat) {g : Game} (hI : Inv g) (input : Input) :
    SettlesFairly rand g input := by
  intro hp
  have hphase := hI.phase
  rw [PhaseInv, hp] at hphase
  have hnext : next rand g input = settle g := by simp [next, hp]
  rw [hnext, settle_money, hphase.1.money_eq, sum_payout hI.toTable]
  · rw [List.length_range]
    push_cast
    ring
  · intro i hi
    exact hphase.2 i (Nat.lt_succ_iff.mp (List.mem_range.mp hi))

/-! ## The accounts along a run -/

theorem accounts_of_inv {g : Game} (hI : Inv g) : Accounts g where
  staked := by
    intro hr
    have hphase := hI.phase
    unfold PhaseInv at hphase
    unfold InRound at hr
    split at hphase
    · next hp => simp [hp] at hr
    · next hp => simp [hp] at hr
    · exact hphase.staked.money_eq
    · exact hphase.1.money_eq
    · exact hphase.1.money_eq
    · exact hphase.1.money_eq
    · next hp => simp [hp] at hr
  nonneg := hI.money
  broke := by
    intro hp
    have hphase := hI.phase
    rw [PhaseInv, hp] at hphase
    exact hphase rfl

theorem inv_step {rand : Nat → Nat} {g g' : Game} {input : Input} (hI : Inv g)
    (hs : step rand g input = some g') : Inv g' := by
  cases hs
  exact inv_next hI input

/-- Money accounting over whole games, for every stream of random numbers and every
sequence of bets and actions: the accounts are right at every point, and every
settlement follows the rules. -/
theorem money_accounting (rand : Nat → Nat) (inputs : List Input) :
    AllStates (step rand) Accounts (mainStart rand) inputs ∧
      AllSteps (step rand) (SettlesFairly rand) (mainStart rand) inputs := by
  have hany : AllSteps (step rand) (fun _ _ => True) (mainStart rand) inputs :=
    AllSteps.all fun _ _ => trivial
  constructor
  · exact AllStates.of_inv (fun _ _ _ hI _ hs => inv_step hI hs) (fun _ hI => accounts_of_inv hI)
      (inv_mainStart rand) hany
  · exact AllSteps.imp_of_inv
      (fun _ i hI _ => ⟨settlesFairly_of_inv rand hI i, fun _ hs => inv_step hI hs⟩)
      (inv_mainStart rand) hany

end Vmwos.Blackjack
