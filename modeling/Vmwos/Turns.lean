import Vmwos.Money

/-!
# What `player_turn` hands to the settlement

`main` reads `player.value` and `player.result` after `player_turn` has returned, and
runs `house_turn` if some result is 1. A hand ends in one of five ways (a bust, a card
on a split ace, `double_down`, `stand`, and each of them as the last hand or not), and
each sets the two on its own.

`turn_hands_over`: at the end of every turn, in every run, the hands of the round have
their value and a result that agrees with it, the other hands have result 0, and the
house plays exactly if some hand did not bust.
-/

namespace Vmwos.Blackjack

open Runs

/-! ## Definitions -/

/-- Hands from `k` on have no result yet. -/
def NoResultFrom (p : Player) (k : Nat) : Prop := ∀ i, k ≤ i → i < maxHands → p.result i = 0

/-- From which hand on there is no result at a given point of a round. -/
def Pending (g : Game) : Prop :=
  match g.phase with
  | .betting => NoResultFrom g.player 0
  | .playing h _ => NoResultFrom g.player h
  | .turnOver => NoResultFrom g.player (g.player.handIndex + 1)
  | _ => True

/-- What `main` finds when `player_turn` has returned 0. -/
structure HandedOver (rand : Nat → Nat) (g : Game) : Prop where
  value_eq : ∀ i ≤ g.player.handIndex, g.player.value i = handValuePlayer g.player i
  result_eq : ∀ i ≤ g.player.handIndex,
    g.player.result i = if g.player.value i > 21 then 2 else 1
  beyond : ∀ i, g.player.handIndex < i → i < maxHands → g.player.result i = 0
  housePlays : ∀ input, (next rand g input).phase = .housePlays ↔
    ∃ i ≤ g.player.handIndex, g.player.value i ≤ 21
  settles : ∀ input, (next rand g input).phase = .settling ↔
    ¬∃ i ≤ g.player.handIndex, g.player.value i ≤ 21

/-! ## One step -/

theorem NoResultFrom.mono {p : Player} {k l : Nat} (h : NoResultFrom p k) (hkl : k ≤ l) :
    NoResultFrom p l :=
  fun i hi => h i (hkl.trans hi)

/-- Setting the result of hand `h` leaves the hands behind it. -/
theorem NoResultFrom.setResult {g : Game} {h : Nat} (hN : NoResultFrom g.player h) (r : Int) :
    NoResultFrom (setResult g h r).player (h + 1) := by
  intro i hi hmax
  have hne : i ≠ h := by omega
  rw [Blackjack.setResult]
  dsimp only
  rw [Function.update_of_ne hne]
  exact hN i (by omega) hmax

/-- A hand that is over: the turn is over with the last hand, or goes on with the next. -/
theorem pending_endHand {g : Game} {h n : Nat} (hn : g.player.handIndex = n)
    (hN : NoResultFrom g.player (h + 1)) : Pending (endHand g h n) := by
  unfold endHand
  split
  · next hlast =>
    show NoResultFrom g.player (g.player.handIndex + 1)
    rwa [hn, ← hlast]
  · exact hN

theorem pending_move {g g' : Game} {input : Input} (hI : Inv g) (hU : Pending g)
    (hm : Move input g g') : Pending g' := by
  cases hm with
  | newRound hp hm =>
    intro i _ hmax
    simp [roundBegun, resetHands, hmax]
  | placeBet hp h1 h2 hc₁ hd₁ hc₂ hd₂ hs =>
    rw [Pending, hp] at hU
    exact hU
  | hitOn hp hc hs hv => exact hU
  | @hitEnds h n c shoe hp hc hs =>
    rw [Pending, hp] at hU
    have hdrawn : NoResultFrom (drawn g h c shoe).player h := hU
    exact pending_endHand (hI.playing hp).handIndex_eq (hdrawn.setResult _)
  | @doubleDown h n c shoe hp hsplit hslot hbet hc hs =>
    rw [Pending, hp] at hU
    have hP := hI.playing hp
    have hn : n = 0 := hP.unsplit hsplit
    have hdrawn : NoResultFrom (drawn (doubled g) h c shoe).player h := hU
    refine (hdrawn.setResult _).mono ?_
    show h + 1 ≤ g.player.handIndex + 1
    have hle := hP.le
    omega
  | @stand h n hp =>
    rw [Pending, hp] at hU
    have hset : NoResultFrom (setResult g h 1).player (h + 1) := hU.setResult 1
    exact pending_endHand (hI.playing hp).handIndex_eq hset
  | split hp hw ha hs =>
    rw [Pending, hp] at hU
    exact hU
  | stay => exact hU
  | bankrupt | quit | dealerStarts | dealerSkipped | houseStops | settle => trivial
  | houseDraws hp hv hd hs =>
    rw [Pending, show (houseDrawn g _ _).phase = .housePlays from hp]
    trivial

/-! ## The end of the turn -/

/-- A hand that was played has result 1 exactly if it did not bust. -/
theorem Done.result_eq_one {p : Player} {i : Nat} (hd : Done p i) :
    p.result i = 1 ↔ p.value i ≤ 21 := by
  rw [hd.result_eq, resultOf]
  split
  · next hv => exact ⟨fun h => absurd h (by decide), fun h => absurd hv (not_lt.mpr h)⟩
  · next hv => exact ⟨fun _ => not_lt.mp hv, fun _ => rfl⟩

/-- The flag `all_hands_bust` of `main`: a result of 1 is that of a hand of the round. -/
theorem exists_result_one {g : Game} (hI : Inv g) (hdone : ∀ i ≤ g.player.handIndex, Done g.player i)
    (hN : NoResultFrom g.player (g.player.handIndex + 1)) :
    (∃ i < maxHands, g.player.result i = 1) ↔
      ∃ i ≤ g.player.handIndex, g.player.value i ≤ 21 := by
  constructor
  · rintro ⟨i, hmax, hres⟩
    have hi : i ≤ g.player.handIndex := by
      by_contra hgt
      have hzero := hN i (by omega) hmax
      rw [hres] at hzero
      exact absurd hzero (by decide)
    exact ⟨i, hi, (hdone i hi).result_eq_one.mp hres⟩
  · rintro ⟨i, hi, hv⟩
    exact ⟨i, Nat.lt_of_le_of_lt hi hI.hands, (hdone i hi).result_eq_one.mpr hv⟩

theorem handedOver_of_inv (rand : Nat → Nat) {g : Game} (hI : Inv g) (hU : Pending g)
    (hp : g.phase = .turnOver) : HandedOver rand g := by
  have hphase := hI.phase
  rw [PhaseInv, hp] at hphase
  rw [Pending, hp] at hU
  have hflag := exists_result_one hI hphase.2 hU
  have hnext : ∀ input, next rand g input =
      if ∃ i < maxHands, g.player.result i = 1 then { g with phase := .housePlays }
      else { g with phase := .settling } := by
    intro input
    simp only [next, hp]
  exact {
    value_eq := fun i hi => (hphase.2 i hi).value_eq
    result_eq := fun i hi => (hphase.2 i hi).result_eq
    beyond := hU
    housePlays := by
      intro input
      rw [hnext, ← hflag]
      split
      · next h => exact ⟨fun _ => h, fun _ => rfl⟩
      · next h => exact ⟨fun hf => by simp at hf, fun hf => absurd hf h⟩
    settles := by
      intro input
      rw [hnext, ← hflag]
      split
      · next h => exact ⟨fun hf => by simp at hf, fun hf => absurd h hf⟩
      · next h => exact ⟨fun _ => h, fun _ => rfl⟩ }

/-- For every stream of random numbers and every sequence of bets and actions: whenever
`player_turn` has returned 0, every hand of the round has its value and the result of
that value, every other hand has result 0, and `main` runs `house_turn` exactly if some
hand of the round is worth at most 21. -/
theorem turn_hands_over (rand : Nat → Nat) (inputs : List Input) :
    AllStates (step rand) (fun g => g.phase = .turnOver → HandedOver rand g) (mainStart rand)
      inputs := by
  have hany : AllSteps (step rand) (fun _ _ => True) (mainStart rand) inputs :=
    AllSteps.all fun _ _ => trivial
  have hstep : ∀ g input g', Inv g ∧ Pending g → True → step rand g input = some g' →
      Inv g' ∧ Pending g' := by
    intro g input g' hg _ hs
    cases hs
    exact ⟨inv_next hg.1 input, pending_move hg.1 hg.2 (next_move input hg.1.shoe)⟩
  exact AllStates.of_inv hstep (fun g hg hp => handedOver_of_inv rand hg.1 hg.2 hp)
    ⟨inv_mainStart rand, trivial⟩ hany

end Vmwos.Blackjack
