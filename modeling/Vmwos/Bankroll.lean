import Vmwos.Money

/-!
# The bankroll in 32-bit integers

The other modules about the game count money in exact integers. In the program
`player.money` and `player.bet_size` are `int`s, and so is the product of the
settlement. `next32` is `next` with every value assigned to them reduced to 32 bits
(signed, in two's complement).

A bet never exceeds the money, so that bets, splits and double downs stay in range. A
settlement pays up to twice the stakes, and nothing bounds the money from above.

Results:
1. `bankroll_exact_iff`: a run computes exact values, and is the run of the exact game,
   exactly if no settlement wins the player more than `INT_MAX`.
2. `winner_goes_bankrupt`: a player who wins 21 times in a row, the whole money on each
   round, is declared bankrupt.
-/

namespace Vmwos.Blackjack

open Runs

/-! ## Definitions -/

/-- `INT_MAX`. -/
def intMax : Int := 2147483647

/-- The 32-bit signed integer with the bits of `v`. -/
def int32 (v : Int) : Int := Int.bmod v (2 ^ 32)

/-- `player.money` after the first `k` hands of the settlement loop. -/
def settled (g : Game) (k : Nat) : Int :=
  (List.range k).foldl (fun money i => money + payout g.player g.house i) g.player.money

/-- The same in 32 bits: the product is reduced, and the sum of each hand. -/
def settled32 (g : Game) (k : Nat) : Int :=
  (List.range k).foldl (fun money i => int32 (money + int32 (payout g.player g.house i)))
    g.player.money

/-- `main` from one point to the next, in 32 bits. Outside the settlement a step assigns
`player.money` and `player.bet_size` at most once and does not read them afterwards. -/
def next32 (rand : Nat → Nat) (g : Game) (input : Input) : Game :=
  let g' := next rand g input
  match g.phase with
  | .settling =>
    { g' with player := { g'.player with money := settled32 g (g.player.handIndex + 1) } }
  | _ =>
    { g' with player := { g'.player with
      money := int32 g'.player.money
      betSize := int32 g'.player.betSize } }

/-- `next32` as a step of a run: it always completes. -/
def step32 (rand : Nat → Nat) (g : Game) (input : Input) : Option Game :=
  some (next32 rand g input)

/-- The values a step assigns, and the products of the settlement, are the exact ones. -/
structure Exact (rand : Nat → Nat) (g : Game) (input : Input) : Prop where
  money : (next32 rand g input).player.money = (next rand g input).player.money
  betSize : (next32 rand g input).player.betSize = (next rand g input).player.betSize
  product : g.phase = .settling → ∀ i ≤ g.player.handIndex,
    int32 (payout g.player g.house i) = payout g.player g.house i
  running : g.phase = .settling → ∀ k ≤ g.player.handIndex + 1, settled32 g k = settled g k

/-- A settlement brings the money to at most `INT_MAX`: the money at the start of the
round, and the bets won less the bets lost by the rules. -/
def WinsFit (g : Game) (_ : Input) : Prop :=
  g.phase = .settling →
    g.history.startMoney + ((List.range (g.player.handIndex + 1)).map fun i =>
      outcome (handCards (g.player.hand i)) g.house.value g.history.houseCards.length *
        g.player.betSize).sum ≤ intMax

/-- The money is an `int`, also that of the start of the round. -/
structure Fits (g : Game) : Prop where
  money : g.player.money ≤ intMax
  round : InRound g → g.history.startMoney ≤ intMax
  bet : 0 ≤ g.player.betSize ∧ g.player.betSize ≤ intMax

/-! ## 32-bit values -/

theorem int32_eq_iff {v : Int} : int32 v = v ↔ -2147483648 ≤ v ∧ v ≤ intMax := by
  rw [int32, intMax, Int.bmod_def]
  constructor
  · intro h
    split at h <;> omega
  · intro h
    split <;> omega

theorem int32_of_nonneg {v : Int} (h0 : 0 ≤ v) (hmax : v ≤ intMax) : int32 v = v :=
  int32_eq_iff.mpr ⟨by omega, hmax⟩

theorem int32_le (v : Int) : int32 v ≤ intMax := by
  rw [int32, intMax, Int.bmod_def]
  split <;> omega

/-! ## The settlement loop -/

theorem settled_succ (g : Game) (k : Nat) :
    settled g (k + 1) = settled g k + payout g.player g.house k := by
  rw [settled, List.range_succ, List.foldl_append]
  rfl

theorem settled32_succ (g : Game) (k : Nat) :
    settled32 g (k + 1) = int32 (settled32 g k + int32 (payout g.player g.house k)) := by
  rw [settled32, List.range_succ, List.foldl_append]
  rfl

theorem settled_mono {g : Game} (hbet : 1 ≤ g.player.betSize) {k l : Nat} (hkl : k ≤ l) :
    settled g k ≤ settled g l := by
  induction l, hkl using Nat.le_induction with
  | base => exact le_refl _
  | succ l hkl ih =>
    have hpay := payout_nonneg hbet g.house l
    rw [settled_succ]
    omega

/-- While the exact sum is an `int`, the loop computes it. -/
theorem settled32_eq {g : Game} (h0 : 0 ≤ g.player.money) (hbet : 1 ≤ g.player.betSize) :
    ∀ {k : Nat}, settled g k ≤ intMax → settled32 g k = settled g k
  | 0, _ => rfl
  | k + 1, hmax => by
    have hle : settled g k ≤ settled g (k + 1) := settled_mono hbet (Nat.le_succ k)
    have hstart : settled g 0 ≤ settled g k := settled_mono hbet (Nat.zero_le k)
    have hpay := payout_nonneg hbet g.house k
    have hsum := settled_succ g k
    have hzero : settled g 0 = g.player.money := rfl
    rw [settled32_succ, settled32_eq h0 hbet (by omega), int32_of_nonneg hpay (by omega),
      int32_of_nonneg (by omega) (by omega), hsum]

/-- The loop computes the exact sum only if it is an `int`. -/
theorem settled_le_of_exact {g : Game} {k : Nat} (h : settled32 g (k + 1) = settled g (k + 1)) :
    settled g (k + 1) ≤ intMax := by
  rw [← h, settled32_succ]
  exact int32_le _

/-- A payout is at most what the settlement brings. -/
theorem payout_le_settled {g : Game} (h0 : 0 ≤ g.player.money) (hbet : 1 ≤ g.player.betSize)
    {i n : Nat} (hi : i ≤ n) : payout g.player g.house i ≤ settled g (n + 1) := by
  have hstart : settled g 0 ≤ settled g i := settled_mono hbet (Nat.zero_le i)
  have hlast : settled g (i + 1) ≤ settled g (n + 1) := settled_mono hbet (Nat.succ_le_succ hi)
  have hsum := settled_succ g i
  have hzero : settled g 0 = g.player.money := rfl
  omega

/-! ## One step -/

/-- Inside a round the money at its start bounds everything. -/
theorem fits_of_inRound {g : Game} (hI : Inv g) (hr : InRound g)
    (hstart : g.history.startMoney ≤ intMax) : Fits g := by
  have hS : Staked g := by
    have hphase := hI.phase
    unfold PhaseInv at hphase
    unfold InRound at hr
    split at hphase
    · next hp => simp [hp] at hr
    · next hp => simp [hp] at hr
    · exact hphase.staked
    · exact hphase.1
    · exact hphase.1
    · exact hphase.1
    · next hp => simp [hp] at hr
  have hbet := hS.one_le_bet
  have hmoney := hS.money_eq
  have h0 := hI.money
  have hstake : g.player.betSize ≤ g.player.betSize * (g.player.handIndex + 1) :=
    le_mul_of_one_le_right (by omega) (by omega)
  exact ⟨by omega, fun _ => hstart, by omega, by omega⟩

/-- Outside a round the money and the bet are those of the round before. -/
theorem Fits.outside {g g' : Game} (hF : Fits g) (hr : ¬InRound g')
    (hmoney : g'.player.money = g.player.money) (hbet : g'.player.betSize = g.player.betSize) :
    Fits g' where
  money := hmoney ▸ hF.money
  round := fun h => absurd h hr
  bet := hbet ▸ hF.bet

theorem inRound_of_playing {g : Game} {h n : Nat} (hp : g.phase = .playing h n) : InRound g := by
  rw [InRound, hp]
  trivial

theorem inRound_endHand (g : Game) (h n : Nat) : InRound (endHand g h n) := by
  unfold endHand
  split <;> trivial

theorem history_endHand (g : Game) (h n : Nat) : (endHand g h n).history = g.history := by
  unfold endHand
  split <;> rfl

/-- Every step but a settlement keeps the money an `int`. -/
theorem fits_move {g g' : Game} {input : Input} (hI : Inv g) (hF : Fits g)
    (hm : Move input g g') (hns : g.phase ≠ .settling) : Fits g' := by
  have hI' := inv_move hI hm
  cases hm with
  | newRound hp hm => exact hF.outside (fun h => h) rfl rfl
  | bankrupt hp hm => exact hF.outside (fun h => h) rfl rfl
  | quit hp => exact hF.outside (fun h => h) rfl rfl
  | stay hp => exact hF
  | placeBet hp h1 h2 hc₁ hd₁ hc₂ hd₂ hs =>
    have hphase := hI.phase
    rw [PhaseInv, hp] at hphase
    obtain ⟨_, _, _, _, hhist⟩ := hphase
    refine fits_of_inRound hI' trivial ?_
    show g.history.startMoney ≤ intMax
    rw [hhist]
    exact hF.money
  | hitOn hp hc hs hv =>
    exact fits_of_inRound hI' (inRound_of_playing hp) (hF.round (inRound_of_playing hp))
  | hitEnds hp hc hs =>
    refine fits_of_inRound hI' (inRound_endHand _ _ _) ?_
    rw [history_endHand]
    exact hF.round (inRound_of_playing hp)
  | doubleDown hp hsplit hslot hbet hc hs =>
    exact fits_of_inRound hI' trivial (hF.round (inRound_of_playing hp))
  | stand hp =>
    refine fits_of_inRound hI' (inRound_endHand _ _ _) ?_
    rw [stand, history_endHand]
    exact hF.round (inRound_of_playing hp)
  | split hp hw ha hs => exact fits_of_inRound hI' trivial (hF.round (inRound_of_playing hp))
  | dealerStarts hp | dealerSkipped hp | houseStops hp hv =>
    have hr : InRound g := by
      rw [InRound, hp]
      trivial
    exact fits_of_inRound hI' trivial (hF.round hr)
  | houseDraws hp hv hd hs =>
    have hr : InRound g := by
      rw [InRound, hp]
      trivial
    exact fits_of_inRound hI' hr (hF.round hr)
  | settle hp => exact absurd hp hns

section Step

variable {rand : Nat → Nat} {g : Game} {input : Input}

/-- A step that computes exact values is a step of the exact game. -/
theorem next32_eq (hE : Exact rand g input) : next32 rand g input = next rand g input := by
  have hdiff : next32 rand g input = { next rand g input with
      player := { (next rand g input).player with
        money := (next32 rand g input).player.money
        betSize := (next32 rand g input).player.betSize } } := by
    unfold next32
    split <;> rfl
  rw [hdiff, hE.money, hE.betSize]

theorem next_of_settling (hp : g.phase = .settling) : next rand g input = settle g := by
  simp only [next, hp]

theorem next32_money_of_settling (hp : g.phase = .settling) :
    (next32 rand g input).player.money = settled32 g (g.player.handIndex + 1) := by
  simp only [next32, hp]

theorem next32_betSize_of_settling (hp : g.phase = .settling) :
    (next32 rand g input).player.betSize = (next rand g input).player.betSize := by
  simp only [next32, hp]

/-- The condition in terms of the settlement loop. -/
theorem winsFit_iff (hI : Inv g) :
    WinsFit g input ↔ (g.phase = .settling → settled g (g.player.handIndex + 1) ≤ intMax) := by
  refine imp_congr_right fun hp => ?_
  have hfair := settlesFairly_of_inv id hI input hp
  rw [next_of_settling hp] at hfair
  rw [← hfair]
  rfl

/-- Outside a settlement nothing overflows. -/
theorem exact_of_fits (hI : Inv g) (hF : Fits g) (hns : g.phase ≠ .settling) :
    Exact rand g input := by
  have hI' : Inv (next rand g input) := inv_next hI input
  have hF' : Fits (next rand g input) := fits_move hI hF (next_move input hI.shoe) hns
  have hwrap : next32 rand g input = { next rand g input with
      player := { (next rand g input).player with
        money := int32 (next rand g input).player.money
        betSize := int32 (next rand g input).player.betSize } } := by
    unfold next32
    split
    · next hp => exact absurd hp hns
    · rfl
  refine ⟨?_, ?_, fun hp => absurd hp hns, fun hp => absurd hp hns⟩
  · rw [hwrap]
    exact int32_of_nonneg hI'.money hF'.money
  · rw [hwrap]
    exact int32_of_nonneg hF'.bet.1 hF'.bet.2

/-- A settlement is exact if and only if its sum is an `int`. -/
theorem exact_settling_iff (hI : Inv g) (hp : g.phase = .settling) :
    Exact rand g input ↔ settled g (g.player.handIndex + 1) ≤ intMax := by
  have hphase := hI.phase
  rw [PhaseInv, hp] at hphase
  have hbet := hphase.1.one_le_bet
  constructor
  · intro hE
    exact settled_le_of_exact (hE.running hp _ (le_refl _))
  · intro hmax
    have hrunning : ∀ k ≤ g.player.handIndex + 1, settled32 g k = settled g k := fun k hk =>
      settled32_eq hI.money hbet ((settled_mono hbet hk).trans hmax)
    refine ⟨?_, next32_betSize_of_settling hp, fun _ i hi => ?_, fun _ => hrunning⟩
    · rw [next32_money_of_settling hp, next_of_settling hp, hrunning _ (le_refl _)]
      rfl
    · exact int32_of_nonneg (payout_nonneg hbet _ _)
        ((payout_le_settled hI.money hbet hi).trans hmax)

theorem exact_iff (hI : Inv g) (hF : Fits g) : Exact rand g input ↔ WinsFit g input := by
  rw [winsFit_iff hI]
  by_cases hp : g.phase = .settling
  · rw [exact_settling_iff hI hp]
    exact ⟨fun h _ => h, fun h => h hp⟩
  · exact ⟨fun _ h => absurd h hp, fun _ => exact_of_fits hI hF hp⟩

theorem fits_next (hI : Inv g) (hF : Fits g) (hE : Exact rand g input) :
    Fits (next rand g input) := by
  by_cases hp : g.phase = .settling
  · rw [next_of_settling hp]
    exact ⟨(exact_settling_iff hI hp).mp hE, fun h => h.elim, hF.bet⟩
  · exact fits_move hI hF (next_move input hI.shoe) hp

end Step

/-! ## 1. Whole runs -/

/-- The player is declared bankrupt only when there is no money left. -/
def BankruptIsBroke (g : Game) : Prop := g.phase = .finished 0 → g.player.money = 0

theorem fits_mainStart (rand : Nat → Nat) : Fits (mainStart rand) where
  money := show (1500 : Int) ≤ intMax by decide
  round := fun h => h.elim
  bet := show (0 : Int) ≤ 0 ∧ (0 : Int) ≤ intMax by decide

/-- A run that computes exact values is the run of the exact game. -/
theorem run_eq_of_exact {rand : Nat → Nat} {g : Game} {inputs : List Input}
    (hE : AllSteps (step32 rand) (Exact rand) g inputs) :
    run (step32 rand) g inputs = run (step rand) g inputs := by
  refine run_eq_of_inv (I := fun _ => True) (fun g input _ hE => ⟨?_, fun _ _ => trivial⟩)
    trivial hE
  rw [step32, next32_eq hE, step]

/-- A run of the program in 32 bits assigns exact values only, declares nobody bankrupt
who has money, and is the run of the exact game, exactly if in every settlement the
money at the start of the round, plus the bets won and less the bets lost, is at most
`INT_MAX`. -/
theorem bankroll_exact_iff (rand : Nat → Nat) (inputs : List Input) :
    (AllSteps (step32 rand) (Exact rand) (mainStart rand) inputs ∧
        AllStates (step32 rand) BankruptIsBroke (mainStart rand) inputs ∧
        run (step32 rand) (mainStart rand) inputs = run (step rand) (mainStart rand) inputs) ↔
      AllSteps (step32 rand) WinsFit (mainStart rand) inputs := by
  have hstart : Inv (mainStart rand) ∧ Fits (mainStart rand) :=
    ⟨inv_mainStart rand, fits_mainStart rand⟩
  have hstep : ∀ g input g', Inv g ∧ Fits g → Exact rand g input →
      step32 rand g input = some g' → Inv g' ∧ Fits g' := by
    intro g input g' hg hE hs
    cases hs
    rw [next32_eq hE]
    exact ⟨inv_next hg.1 input, fits_next hg.1 hg.2 hE⟩
  have hiff : AllSteps (step32 rand) (Exact rand) (mainStart rand) inputs ↔
      AllSteps (step32 rand) WinsFit (mainStart rand) inputs :=
    AllSteps.iff_of_inv (fun g input hg => exact_iff hg.1 hg.2) hstep hstart
  constructor
  · rintro ⟨hE, _⟩
    exact hiff.mp hE
  · intro hW
    have hE := hiff.mpr hW
    exact ⟨hE, AllStates.of_inv hstep (fun g hg => (accounts_of_inv hg.1).broke) hstart hE,
      run_eq_of_exact hE⟩

/-! ## 2. A winner goes bankrupt -/

/-- A stream of random numbers that deals an ace as every fourth card, and tens between
them. -/
def acesToThePlayer (k : Nat) : Nat :=
  let i := 311 - k
  if i < 96 ∧ i % 4 = 0 then i / 4 else i

/-- A player who bets the whole money in 21 rounds, and stands. -/
def allIn : List Input :=
  (List.range 21).flatMap fun k =>
    [idle, bet (1500 * 2 ^ k), act ['s', 't', 'a', 'n', 'd'], idle, idle, idle]

/-- The player has 21 against 20 in each of the rounds, and owns 1572864000 before the
last of them. Twice that is no `int`: the program counts -1149239296 and ends. -/
theorem winner_goes_bankrupt :
    ¬ AllSteps (step32 acesToThePlayer) (Exact acesToThePlayer) (mainStart acesToThePlayer)
        (allIn ++ [idle]) ∧
      ¬ AllStates (step32 acesToThePlayer) BankruptIsBroke (mainStart acesToThePlayer)
        (allIn ++ [idle]) ∧
      (run (step32 acesToThePlayer) (mainStart acesToThePlayer) (allIn ++ [idle])).map
          (fun g => (g.phase, g.player.money)) = some (.finished 0, -1149239296) := by
  have h32 : (run (step32 acesToThePlayer) (mainStart acesToThePlayer) (allIn ++ [idle])).map
      (fun g => (g.phase, g.player.money)) = some (.finished 0, -1149239296) := by
    decide +kernel
  have hexact : (run (step acesToThePlayer) (mainStart acesToThePlayer) (allIn ++ [idle])).map
      (fun g => (g.phase, g.player.money)) = some (.betting, 3145728000) := by
    decide +kernel
  refine ⟨?_, ?_, h32⟩
  · intro hE
    rw [run_eq_of_exact hE, hexact] at h32
    exact absurd h32 (by decide)
  · intro hbroke
    obtain ⟨g, hrun, hg⟩ := Option.map_eq_some_iff.mp h32
    obtain ⟨hp, hmoney⟩ := Prod.mk.inj hg
    have hzero := hbroke.last hrun hp
    rw [hmoney] at hzero
    exact absurd hzero (by decide)

end Vmwos.Blackjack
