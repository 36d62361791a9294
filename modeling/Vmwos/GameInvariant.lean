import Mathlib.Algebra.Order.BigOperators.Group.List
import Mathlib.Tactic.Ring
import Vmwos.GameMoves

/-!
# The invariant of the game

`Inv` holds at every point of every run (`inv_mainStart`, `inv_next`):

* each hand holds real cards in its first `next_slot` slots and nothing behind them,
  and fits its array: a hand is drawn to only while it is worth at most 21, and every
  card counts at least one;
* the stakes of the round are what the player paid, and the player never owes money;
* a hand that was played carries its final value and result.

The invariant says nothing about where the cards of a hand came from, nor about the
slots of the house behind `house.next_slot`: these are the subjects of `Splits` and
`HouseHand`.
-/

namespace Vmwos.Blackjack

/-! ## Hands filled from the front -/

/-- The hand holds real cards in its first `n` slots and nothing behind them. -/
structure Filled (hand : Nat → Card) (n : Nat) : Prop where
  card : ∀ j < n, IsCard (hand j)
  empty : ∀ j, n ≤ j → hand j = []

namespace Filled

variable {hand : Nat → Card} {n : Nat}

theorem slot (h : Filled hand n) (j : Nat) : hand j = [] ∨ IsCard (hand j) := by
  rcases Nat.lt_or_ge j n with hj | hj
  · exact .inr (h.card j hj)
  · exact .inl (h.empty j hj)

theorem push (h : Filled hand n) {c : Card} (hc : IsCard c) :
    Filled (Function.update hand n c) (n + 1) where
  card := by
    intro j hj
    by_cases hjn : j = n
    · simpa [hjn] using hc
    · rw [Function.update_of_ne hjn]
      exact h.card j (by omega)
  empty := by
    intro j hj
    rw [Function.update_of_ne (by omega)]
    exact h.empty j (by omega)

/-- What the counting loop sees of a filled hand. -/
theorem held (h : Filled hand n) (hn : n ≤ handSize) :
    heldFrom hand handSize 0 = (List.range n).map hand := by
  rw [List.range_eq_range']
  refine heldFrom_filled hn (fun j hj => ?_) (fun _ => ?_)
  · simpa using (h.card j hj).ne_nil
  · simpa using h.empty n (le_refl n)

theorem value_eq (h : Filled hand n) (hn : n ≤ handSize) :
    handValue hand = blackjackValue ((List.range n).map hand) := by
  rw [handValue_eq_blackjackValue h.slot, h.held hn]

theorem isCard_of_mem (h : Filled hand n) : ∀ c ∈ (List.range n).map hand, IsCard c := by
  intro c hc
  obtain ⟨j, hj, rfl⟩ := List.mem_map.mp hc
  exact h.card j (List.mem_range.mp hj)

theorem le_value (h : Filled hand n) (hn : n ≤ handSize) : (n : Int) ≤ handValue hand :=
  length_le_handValue h.slot hn fun j hj => (h.card j hj).ne_nil

/-- Two cards never exceed 21. -/
theorem value_le_of_two (h : Filled hand n) (hn : n ≤ 2) : handValue hand ≤ 21 := by
  have hcards := h.isCard_of_mem
  rw [h.value_eq (hn.trans (by decide)), blackjackValue_le_iff hcards]
  have hhard := hardTotal_le hcards
  rw [List.length_map, List.length_range] at hhard
  omega

end Filled

/-! ## The invariant -/

/-- The player paid `bet_size` for each hand of the round. -/
structure Staked (g : Game) : Prop where
  one_le_bet : 1 ≤ g.player.betSize
  money_eq : g.player.money = g.history.startMoney - g.player.betSize * (g.player.handIndex + 1)

/-- Hand `i` was played: its value and result are final. -/
structure Done (p : Player) (i : Nat) : Prop where
  value_eq : p.value i = handValuePlayer p i
  result_eq : p.result i = resultOf (p.value i)

/-- Inside `player_turn`, at hand `h` after `n` splits. -/
structure Playing (g : Game) (h n : Nat) : Prop where
  handIndex_eq : g.player.handIndex = n
  le : h ≤ n
  unsplit : g.player.hasSplit = false → n = 0
  unplayed : ∀ i, h < i → g.player.nextSlot i ≤ 1
  value_le : handValuePlayer g.player h ≤ 21
  done : ∀ i < h, Done g.player i
  staked : Staked g

/-- What holds at a given point of the program. -/
def PhaseInv (g : Game) : Prop :=
  match g.phase with
  | .newRound => True
  | .betting =>
    (∀ i, g.player.nextSlot i = 0) ∧ g.player.handIndex = 0 ∧ g.player.hasSplit = false ∧
      g.house.nextSlot = 0 ∧ g.history = ⟨g.player.money, [], []⟩
  | .playing h n => Playing g h n
  | .turnOver | .housePlays | .settling =>
    Staked g ∧ ∀ i ≤ g.player.handIndex, Done g.player i
  | .finished code => code = 0 → g.player.money = 0

/-- The cards on the table: the shoe, the hands of the player and the house's hand. -/
structure Table (g : Game) : Prop where
  shoe : g.shoe.Valid
  filled : ∀ i, Filled (g.player.hand i) (g.player.nextSlot i)
  fits : ∀ i, g.player.nextSlot i ≤ handSize
  hands : g.player.handIndex < maxHands
  beyond : ∀ i, g.player.handIndex < i → g.player.nextSlot i = 0
  houseSlot : ∀ j, g.house.hand j = [] ∨ IsCard (g.house.hand j)
  houseCard : ∀ j < g.house.nextSlot, IsCard (g.house.hand j)
  houseFits : g.house.nextSlot ≤ handSize
  houseCards : g.history.houseCards = (List.range g.house.nextSlot).map g.house.hand

/-- The invariant of the game. -/
structure Inv (g : Game) : Prop extends Table g where
  money : 0 ≤ g.player.money
  phase : PhaseInv g

theorem inv_mainStart (rand : Nat → Nat) : Inv (mainStart rand) where
  shoe := newShoe_valid rand 0
  filled := fun _ => ⟨fun _ hj => absurd hj (Nat.not_lt_zero _), fun _ _ => rfl⟩
  fits := fun _ => Nat.zero_le _
  hands := Nat.zero_lt_succ _
  beyond := fun _ _ => rfl
  houseSlot := fun _ => .inl rfl
  houseCard := fun _ hj => absurd hj (Nat.not_lt_zero _)
  houseFits := Nat.zero_le _
  houseCards := rfl
  money := show (0 : Int) ≤ 1500 by decide
  phase := trivial

theorem Inv.playing {g : Game} (hI : Inv g) {h n : Nat} (hp : g.phase = .playing h n) :
    Playing g h n := by
  have hphase := hI.phase
  rwa [PhaseInv, hp] at hphase

/-- The hand being played has a free slot. -/
theorem Inv.nextSlot_lt {g : Game} (hI : Inv g) {h n : Nat} (hp : g.phase = .playing h n) :
    g.player.nextSlot h < handSize := by
  have hle := (hI.filled h).le_value (hI.fits h)
  have hval : handValue (g.player.hand h) ≤ 21 := (hI.playing hp).value_le
  have hsize : handSize = 22 := rfl
  omega

/-- The house draws to a hand worth less than 17 only, and such a hand has a free slot. -/
theorem Inv.house_lt {g : Game} (hI : Inv g) (hv : handValueHouse g.house < 17) :
    g.house.nextSlot < handSize := by
  have hle := length_le_handValue hI.houseSlot hI.houseFits fun j hj => (hI.houseCard j hj).ne_nil
  have hv' : handValue g.house.hand < 17 := hv
  have hsize : handSize = 22 := rfl
  omega

/-! ## The table under each move -/

@[simp] theorem setSlot_self (hand : Nat → Nat → Card) (h slot : Nat) (c : Card) :
    setSlot hand h slot c h = Function.update (hand h) slot c := by
  simp [setSlot]

theorem setSlot_of_ne (hand : Nat → Nat → Card) {h i : Nat} (slot : Nat) (c : Card) (hi : i ≠ h) :
    setSlot hand h slot c i = hand i := by
  simp [setSlot, Function.update_of_ne hi]

/-- The cards of the first slots, with one more slot filled. -/
theorem map_range_push {hand : Nat → Card} {n : Nat} (d : Card) :
    (List.range (n + 1)).map (Function.update hand n d) = (List.range n).map hand ++ [d] := by
  rw [List.range_succ, List.map_append]
  congr 1
  · refine List.map_congr_left fun j hj => ?_
    rw [Function.update_of_ne (List.mem_range.mp hj).ne]
  · simp

theorem Table.roundBegun {g : Game} (hT : Table g) : Table (roundBegun g) := by
  have hslot : ∀ i, (Blackjack.roundBegun g).player.nextSlot i = 0 := by
    intro i
    simp only [Blackjack.roundBegun, resetHands]
    split
    · rfl
    · exact hT.beyond i (by have := hT.hands; omega)
  have hhand : ∀ i j, (Blackjack.roundBegun g).player.hand i j = [] := by
    intro i j
    simp only [Blackjack.roundBegun, resetHands]
    split
    · rfl
    · next hij =>
      -- a slot that `reset_hands` does not reach lies outside the arrays
      refine (hT.filled i).empty j ?_
      rcases Nat.lt_or_ge i maxHands with hi | hi
      · exact (hT.fits i).trans (by omega)
      · rw [hT.beyond i (by have := hT.hands; omega)]
        exact Nat.zero_le j
  refine { hT with filled := ?_, fits := ?_, hands := ?_, beyond := ?_, houseSlot := ?_,
                   houseCard := ?_, houseFits := ?_, houseCards := ?_ }
  · intro i
    exact ⟨fun j hj => absurd (hslot i ▸ hj) (Nat.not_lt_zero j), fun j _ => hhand i j⟩
  · intro i
    rw [hslot]
    exact Nat.zero_le _
  · exact Nat.zero_lt_succ _
  · exact fun i _ => hslot i
  · intro j
    simp only [Blackjack.roundBegun, resetHands]
    split
    · exact .inl rfl
    · exact hT.houseSlot j
  · exact fun j hj => absurd hj (Nat.not_lt_zero j)
  · exact Nat.zero_le _
  · rfl

theorem Table.drawn {g : Game} (hT : Table g) {h : Nat} {c : Card} {shoe : Shoe}
    (hc : IsCard c) (hs : shoe.Valid) (hslot : g.player.nextSlot h < handSize)
    (hh : h ≤ g.player.handIndex) : Table (drawn g h c shoe) := by
  refine { hT with shoe := hs, filled := ?_, fits := ?_, beyond := ?_ }
  · intro i
    by_cases hi : i = h
    · subst hi
      simpa [Blackjack.drawn] using (hT.filled i).push hc
    · simpa [Blackjack.drawn, setSlot_of_ne _ _ _ hi, Function.update_of_ne hi] using hT.filled i
  · intro i
    by_cases hi : i = h
    · subst hi
      simpa [Blackjack.drawn] using Nat.succ_le_of_lt hslot
    · simpa [Blackjack.drawn, Function.update_of_ne hi] using hT.fits i
  · intro i hi
    have hne : i ≠ h := by
      have hi' : g.player.handIndex < i := hi
      omega
    simpa [Blackjack.drawn, Function.update_of_ne hne] using hT.beyond i hi

theorem Table.houseDrawn {g : Game} (hT : Table g) {d : Card} {shoe : Shoe}
    (hd : IsCard d) (hs : shoe.Valid) (hslot : g.house.nextSlot < handSize) :
    Table (houseDrawn g d shoe) := by
  refine { hT with shoe := hs, houseSlot := ?_, houseCard := ?_, houseFits := hslot,
                   houseCards := ?_ }
  · intro j
    by_cases hj : j = g.house.nextSlot
    · subst hj
      simpa [Blackjack.houseDrawn] using .inr hd
    · simpa [Blackjack.houseDrawn, Function.update_of_ne hj] using hT.houseSlot j
  · intro j hj
    by_cases hjn : j = g.house.nextSlot
    · subst hjn
      simpa [Blackjack.houseDrawn] using hd
    · have hlt : j < g.house.nextSlot + 1 := hj
      simpa [Blackjack.houseDrawn, Function.update_of_ne hjn] using hT.houseCard j (by omega)
  · simp only [Blackjack.houseDrawn, map_range_push, hT.houseCards]

/-- A deal into empty hands. -/
theorem Table.dealt {g : Game} (hT : Table g) {amount : Int} {c₁ d₁ c₂ d₂ : Card} {shoe : Shoe}
    (hslot : ∀ i, g.player.nextSlot i = 0) (hhouse : g.house.nextSlot = 0)
    (hcards : g.history.houseCards = []) (hc₁ : IsCard c₁) (hd₁ : IsCard d₁) (hc₂ : IsCard c₂)
    (hd₂ : IsCard d₂) (hs : shoe.Valid) : Table (dealt g amount c₁ d₁ c₂ d₂ shoe) := by
  have hfilled : Filled (g.player.hand g.player.handIndex) 0 := by
    simpa [hslot] using hT.filled g.player.handIndex
  refine { hT with shoe := hs, filled := ?_, fits := ?_, beyond := ?_, houseSlot := ?_,
                   houseCard := ?_, houseFits := ?_, houseCards := ?_ }
  · intro i
    by_cases hi : i = g.player.handIndex
    · subst hi
      simpa [Blackjack.dealt, hslot] using (hfilled.push hc₁).push hc₂
    · simpa [Blackjack.dealt, setSlot_of_ne _ _ _ hi, Function.update_of_ne hi] using hT.filled i
  · intro i
    by_cases hi : i = g.player.handIndex
    · subst hi
      simp [Blackjack.dealt, hslot, handSize]
    · simp [Blackjack.dealt, Function.update_of_ne hi, hslot]
  · intro i hi
    have hne : i ≠ g.player.handIndex := by
      have hi' : g.player.handIndex < i := hi
      omega
    simp [Blackjack.dealt, Function.update_of_ne hne, hslot]
  · intro j
    simp only [Blackjack.dealt, Function.update_apply]
    split
    · exact .inr hd₂
    · split
      · exact .inr hd₁
      · exact hT.houseSlot j
  · intro j hj
    simp only [Blackjack.dealt, hhouse, Function.update_apply] at hj ⊢
    split
    · exact hd₂
    · rw [if_pos (by omega)]
      exact hd₁
  · simp [Blackjack.dealt, hhouse, handSize]
  · simp [Blackjack.dealt, hhouse, hcards, List.range_succ]

theorem findAvailable_eq (hand : Nat → Nat → Card) (h : Nat) :
    findAvailable hand h maxHands 1 = 1 := by
  simp [findAvailable, maxHands, strncmp]

theorem Table.split {g : Game} (hT : Table g) {h : Nat} (hslot : g.player.nextSlot h = 2)
    (hnext : g.player.nextSlot (h + 1) ≤ 1) (hh : h ≤ g.player.handIndex)
    (hmax : g.player.handIndex + 1 < maxHands) (phase : Phase) :
    Table { g with player := splitHand g.player h, phase := phase } := by
  have hF := hT.filled h
  rw [hslot] at hF
  refine { hT with filled := ?_, fits := ?_, hands := hmax, beyond := ?_ }
  · intro i
    simp only [splitHand, findAvailable_eq, hslot]
    by_cases hi : i = h
    · subst hi
      have hne : i ≠ i + 1 := by omega
      rw [setSlot_self, setSlot_of_ne _ _ _ hne, Function.update_of_ne hne, Function.update_self]
      refine ⟨fun j hj => ?_, fun j hj => ?_⟩
      · rw [Function.update_of_ne (by omega)]
        exact hF.card j (by omega)
      · simp only [Function.update_apply]
        split
        · rfl
        · exact hF.empty j (by omega)
    · rw [setSlot_of_ne _ _ _ hi]
      by_cases hi1 : i = h + 1
      · subst hi1
        rw [setSlot_self, Function.update_self]
        refine ⟨fun j hj => ?_, fun j hj => ?_⟩
        · have hj0 : j = 0 := by omega
          subst hj0
          rw [Function.update_self]
          exact hF.card 1 (by omega)
        · rw [Function.update_of_ne (by omega)]
          exact (hT.filled (h + 1)).empty j (by omega)
      · rw [setSlot_of_ne _ _ _ hi1, Function.update_of_ne hi1, Function.update_of_ne hi]
        exact hT.filled i
  · intro i
    simp only [splitHand, findAvailable_eq, Function.update_apply]
    split
    · decide
    · split
      · decide
      · exact hT.fits i
  · intro i hi
    have hi' : g.player.handIndex + 1 < i := hi
    simp only [splitHand, findAvailable_eq]
    rw [Function.update_of_ne (by omega), Function.update_of_ne (by omega)]
    exact hT.beyond i (by omega)

/-! ## The player's turn -/

theorem Done.drawn {g : Game} {h i : Nat} (hd : Done g.player i) (hi : i ≠ h) (c : Card)
    (shoe : Shoe) : Done (drawn g h c shoe).player i where
  value_eq := by
    simpa [Blackjack.drawn, handValuePlayer, Function.update_of_ne hi, setSlot_of_ne _ _ _ hi]
      using hd.value_eq
  result_eq := by
    simpa [Blackjack.drawn, Function.update_of_ne hi] using hd.result_eq

theorem Done.setResult {g : Game} {h i : Nat} (hd : Done g.player i) (hi : i ≠ h) (r : Int) :
    Done (setResult g h r).player i where
  value_eq := hd.value_eq
  result_eq := by
    simpa [Blackjack.setResult, Function.update_of_ne hi] using hd.result_eq

/-- A card drawn and the result set: the hand is played. -/
theorem done_of_drawn (g : Game) (h : Nat) (c : Card) (shoe : Shoe) :
    Done (setResult (drawn g h c shoe) h
      (resultOf ((drawn g h c shoe).player.value h))).player h where
  value_eq := by simp [Blackjack.setResult, Blackjack.drawn, handValuePlayer]
  result_eq := by simp [Blackjack.setResult]

theorem Staked.drawn {g : Game} (hS : Staked g) (h : Nat) (c : Card) (shoe : Shoe) :
    Staked (drawn g h c shoe) := ⟨hS.one_le_bet, hS.money_eq⟩

theorem Playing.drawn {g : Game} {h n : Nat} (hP : Playing g h n) {c : Card} {shoe : Shoe}
    (hv : (drawn g h c shoe).player.value h ≤ 21) : Playing (drawn g h c shoe) h n where
  handIndex_eq := hP.handIndex_eq
  le := hP.le
  unsplit := hP.unsplit
  unplayed := by
    intro i hi
    simpa [Blackjack.drawn, Function.update_of_ne hi.ne'] using hP.unplayed i hi
  value_le := by
    simpa [Blackjack.drawn, handValuePlayer] using hv
  done := fun i hi => (hP.done i hi).drawn hi.ne c shoe
  staked := hP.staked.drawn h c shoe

/-- The end of hand `h`: the turn is over, or the next hand is at most one card. -/
theorem phaseInv_endHand {g : Game} {h n : Nat} (hT : Table g)
    (hn : g.player.handIndex = n) (hh : h ≤ n) (hsplit : g.player.hasSplit = false → n = 0)
    (hunplayed : ∀ i, h < i → g.player.nextSlot i ≤ 1)
    (hdone : ∀ i ≤ h, Done g.player i) (hS : Staked g) : PhaseInv (endHand g h n) := by
  unfold endHand
  split
  · next hlast =>
    refine ⟨⟨hS.one_le_bet, hS.money_eq⟩, fun i hi => hdone i ?_⟩
    have hi' : i ≤ g.player.handIndex := hi
    omega
  · next hlast =>
    exact {
      handIndex_eq := hn
      le := by omega
      unsplit := hsplit
      unplayed := fun i hi => hunplayed i (by omega)
      value_le := (hT.filled (h + 1)).value_le_of_two
        ((hunplayed (h + 1) (by omega)).trans (by decide))
      done := fun i hi => hdone i (by omega)
      staked := ⟨hS.one_le_bet, hS.money_eq⟩ }

theorem Table.endHand {g : Game} (hT : Table g) (h n : Nat) : Table (endHand g h n) := by
  unfold Blackjack.endHand
  split
  · exact { hT with }
  · exact { hT with }

theorem money_endHand (g : Game) (h n : Nat) : (endHand g h n).player = g.player := by
  unfold endHand
  split <;> rfl

/-! ## Every move keeps the invariant -/

theorem inv_hitOn {g : Game} (hI : Inv g) {h n : Nat} {c : Card} {shoe : Shoe}
    (hp : g.phase = .playing h n) (hc : IsCard c) (hs : shoe.Valid)
    (hv : (drawn g h c shoe).player.value h ≤ 21) : Inv (drawn g h c shoe) := by
  have hP := hI.playing hp
  refine { hI.toTable.drawn hc hs (hI.nextSlot_lt hp) (hP.handIndex_eq ▸ hP.le) with
    money := hI.money, phase := ?_ }
  have hphase : (drawn g h c shoe).phase = .playing h n := hp
  rw [PhaseInv, hphase]
  exact hP.drawn hv

theorem inv_hitEnds {g : Game} (hI : Inv g) {h n : Nat} {c : Card} {shoe : Shoe}
    (hp : g.phase = .playing h n) (hc : IsCard c) (hs : shoe.Valid) :
    Inv (endHand (setResult (drawn g h c shoe) h
      (resultOf ((drawn g h c shoe).player.value h))) h n) := by
  have hP := hI.playing hp
  have hT := hI.toTable.drawn hc hs (hI.nextSlot_lt hp) (hP.handIndex_eq ▸ hP.le)
  have hT' : Table (setResult (drawn g h c shoe) h
      (resultOf ((drawn g h c shoe).player.value h))) := { hT with }
  refine { hT'.endHand h n with money := ?_, phase := ?_ }
  · rw [money_endHand]
    exact hI.money
  · refine phaseInv_endHand hT' hP.handIndex_eq hP.le hP.unsplit ?_ ?_ ?_
    · intro i hi
      simpa [setResult, drawn, Function.update_of_ne hi.ne'] using hP.unplayed i hi
    · intro i hi
      by_cases hih : i = h
      · subst hih
        exact done_of_drawn g i c shoe
      · exact ((hP.done i (by omega)).drawn hih c shoe).setResult hih _
    · exact ⟨hP.staked.one_le_bet, hP.staked.money_eq⟩

theorem inv_doubleDown {g : Game} (hI : Inv g) {h n : Nat} {c : Card} {shoe : Shoe}
    (hp : g.phase = .playing h n) (hsplit : g.player.hasSplit = false)
    (hbet : g.player.betSize ≤ g.player.money) (hc : IsCard c) (hs : shoe.Valid) :
    Inv { setResult (drawn (doubled g) h c shoe) h
      (resultOf ((drawn (doubled g) h c shoe).player.value h)) with phase := .turnOver } := by
  have hP := hI.playing hp
  have hn : n = 0 := hP.unsplit hsplit
  have hh : h = 0 := by have := hP.le; omega
  have hindex : g.player.handIndex = 0 := by rw [hP.handIndex_eq, hn]
  have hdoubled : Table (doubled g) := { hI.toTable with }
  have hT : Table (drawn (doubled g) h c shoe) :=
    hdoubled.drawn hc hs (hI.nextSlot_lt hp) (hP.handIndex_eq ▸ hP.le)
  have hbet1 := hP.staked.one_le_bet
  have hmoney := hP.staked.money_eq
  rw [hindex] at hmoney
  refine { hT with money := ?_, phase := ⟨⟨?_, ?_⟩, ?_⟩ }
  · show 0 ≤ g.player.money - g.player.betSize
    omega
  · show 1 ≤ g.player.betSize + g.player.betSize
    omega
  · show g.player.money - g.player.betSize =
      g.history.startMoney - (g.player.betSize + g.player.betSize) * (g.player.handIndex + 1)
    rw [hindex]
    push_cast at hmoney ⊢
    linarith
  · intro i hi
    have hi' : i ≤ g.player.handIndex := hi
    have hi0 : i = h := by omega
    subst hi0
    exact ⟨(done_of_drawn (doubled g) i c shoe).value_eq,
      (done_of_drawn (doubled g) i c shoe).result_eq⟩

theorem inv_stand {g : Game} (hI : Inv g) {h n : Nat} (hp : g.phase = .playing h n) :
    Inv (stand g h n) := by
  have hP := hI.playing hp
  have hT : Table { setResult g h 1 with player := { (setResult g h 1).player with
      value := Function.update g.player.value h (handValuePlayer g.player h) } } :=
    { hI.toTable with }
  refine { hT.endHand h n with money := ?_, phase := ?_ }
  · rw [stand, money_endHand]
    exact hI.money
  · refine phaseInv_endHand hT hP.handIndex_eq hP.le hP.unsplit hP.unplayed ?_
      ⟨hP.staked.one_le_bet, hP.staked.money_eq⟩
    intro i hi
    by_cases hih : i = h
    · subst hih
      have hv : ¬ handValuePlayer (setResult g i 1).player i > 21 := not_lt.mpr hP.value_le
      refine ⟨by simp [setResult, handValuePlayer], ?_⟩
      simp only [setResult, Function.update_self] at hv ⊢
      rw [resultOf, if_neg hv]
    · have hd := hP.done i (by omega)
      refine ⟨?_, ?_⟩
      · simpa [setResult, handValuePlayer, Function.update_of_ne hih] using hd.value_eq
      · simpa [setResult, Function.update_of_ne hih] using hd.result_eq

theorem inv_split {g : Game} (hI : Inv g) {h n : Nat} (hp : g.phase = .playing h n)
    (hs : splitAllowed g.player h n) :
    Inv { g with player := splitHand g.player h, phase := .playing h (n + 1) } := by
  have hP := hI.playing hp
  obtain ⟨hslot, _, hn3, hbet⟩ := hs
  have hbet' : g.player.betSize ≤ g.player.money := not_lt.mp hbet
  have hmax : g.player.handIndex + 1 < maxHands := by
    have hlt := hI.hands
    have h4 : maxHands = 4 := rfl
    have := hP.handIndex_eq
    omega
  have hT : Table { g with player := splitHand g.player h, phase := .playing h (n + 1) } :=
    hI.toTable.split hslot (hP.unplayed (h + 1) (by omega)) (hP.handIndex_eq ▸ hP.le) hmax _
  have hone : (splitHand g.player h).nextSlot h = 1 := by
    simp [splitHand, findAvailable_eq]
  refine { hT with money := ?_, phase := ?_ }
  · show 0 ≤ g.player.money - g.player.betSize
    omega
  · have hle := hP.le
    exact {
      handIndex_eq := congrArg (· + 1) hP.handIndex_eq
      le := by omega
      unsplit := fun hf => by simp [splitHand] at hf
      unplayed := by
        intro i hi
        simp only [splitHand, findAvailable_eq, Function.update_apply]
        split
        · exact le_refl 1
        · rw [if_neg hi.ne']
          exact hP.unplayed i hi
      value_le := (hT.filled h).value_le_of_two (by
        show (splitHand g.player h).nextSlot h ≤ 2
        rw [hone]
        decide)
      done := by
        intro i hi
        have hd := hP.done i hi
        have hne : i ≠ h + 1 := by omega
        refine ⟨?_, hd.result_eq⟩
        have hhand : (splitHand g.player h).hand i = g.player.hand i := by
          simp only [splitHand, findAvailable_eq]
          rw [setSlot_of_ne _ _ _ hi.ne, setSlot_of_ne _ _ _ hne]
        show g.player.value i = handValue ((splitHand g.player h).hand i)
        rw [hhand]
        exact hd.value_eq
      staked := by
        refine ⟨hP.staked.one_le_bet, ?_⟩
        have hmoney := hP.staked.money_eq
        show g.player.money - g.player.betSize =
          g.history.startMoney - g.player.betSize * (((g.player.handIndex + 1 : Nat) : Int) + 1)
        rw [hmoney]
        push_cast
        ring }

theorem inv_dealt {g : Game} (hI : Inv g) {amount : Int} {c₁ d₁ c₂ d₂ : Card} {shoe : Shoe}
    (hp : g.phase = .betting) (h1 : 1 ≤ amount) (h2 : amount ≤ g.player.money)
    (hc₁ : IsCard c₁) (hd₁ : IsCard d₁) (hc₂ : IsCard c₂) (hd₂ : IsCard d₂) (hs : shoe.Valid) :
    Inv (dealt g amount c₁ d₁ c₂ d₂ shoe) := by
  have hphase := hI.phase
  rw [PhaseInv, hp] at hphase
  obtain ⟨hslot, hindex, hsplit, hhouse, hhist⟩ := hphase
  have hT : Table (dealt g amount c₁ d₁ c₂ d₂ shoe) :=
    hI.toTable.dealt hslot hhouse (by rw [hhist]) hc₁ hd₁ hc₂ hd₂ hs
  refine { hT with money := ?_, phase := ?_ }
  · show 0 ≤ g.player.money - amount
    omega
  · exact {
      handIndex_eq := hindex
      le := le_refl 0
      unsplit := fun _ => rfl
      unplayed := by
        intro i hi
        have hne : i ≠ g.player.handIndex := by omega
        simp [dealt, Function.update_of_ne hne, hslot]
      value_le := (hT.filled 0).value_le_of_two (by simp [dealt, hindex, hslot])
      done := fun i hi => absurd hi (Nat.not_lt_zero i)
      staked := by
        refine ⟨h1, ?_⟩
        show g.player.money - amount = g.history.startMoney - amount * (g.player.handIndex + 1)
        rw [hhist, hindex]
        push_cast
        ring }

theorem payout_nonneg {p : Player} (hbet : 1 ≤ p.betSize) (h : House) (i : Nat) :
    0 ≤ payout p h i := by
  unfold payout
  repeat' split
  all_goals omega

/-- The settlement loop adds the payouts up. -/
theorem foldl_payout (p : Player) (h : House) (l : List Nat) (m : Int) :
    l.foldl (fun money i => money + payout p h i) m = m + (l.map (payout p h)).sum := by
  induction l generalizing m with
  | nil => simp
  | cons i l ih =>
    rw [List.foldl_cons, ih, List.map_cons, List.sum_cons]
    ring

theorem settle_money (g : Game) : (settle g).player.money =
    g.player.money + ((List.range (g.player.handIndex + 1)).map (payout g.player g.house)).sum :=
  foldl_payout g.player g.house _ _

/-- Every move keeps the invariant. -/
theorem inv_move {g g' : Game} {input : Input} (hI : Inv g) (hm : Move input g g') : Inv g' := by
  cases hm with
  | newRound hp hm =>
    refine { hI.toTable.roundBegun with money := hI.money, phase := ?_ }
    refine ⟨fun i => ?_, rfl, rfl, rfl, rfl⟩
    have hF := hI.toTable.roundBegun.beyond
    rcases Nat.eq_zero_or_pos i with rfl | hi
    · simp [roundBegun, resetHands, maxHands]
    · exact hF i hi
  | bankrupt hp hm =>
    refine { hI with phase := fun _ => ?_ }
    have := hI.money
    show g.player.money = 0
    omega
  | quit hp => exact { hI with phase := fun h => absurd h (by decide) }
  | stay hp => exact hI
  | placeBet hp h1 h2 hc₁ hd₁ hc₂ hd₂ hs => exact inv_dealt hI hp h1 h2 hc₁ hd₁ hc₂ hd₂ hs
  | hitOn hp hc hs hv => exact inv_hitOn hI hp hc hs hv
  | hitEnds hp hc hs => exact inv_hitEnds hI hp hc hs
  | doubleDown hp hsplit hslot hbet hc hs => exact inv_doubleDown hI hp hsplit hbet hc hs
  | stand hp => exact inv_stand hI hp
  | split hp hw ha hs => exact inv_split hI hp hs
  | dealerStarts hp =>
    have hphase := hI.phase
    rw [PhaseInv, hp] at hphase
    exact { hI with phase := ⟨⟨hphase.1.one_le_bet, hphase.1.money_eq⟩, hphase.2⟩ }
  | dealerSkipped hp =>
    have hphase := hI.phase
    rw [PhaseInv, hp] at hphase
    exact { hI with phase := ⟨⟨hphase.1.one_le_bet, hphase.1.money_eq⟩, hphase.2⟩ }
  | houseStops hp hv =>
    have hphase := hI.phase
    rw [PhaseInv, hp] at hphase
    exact { hI with phase := ⟨⟨hphase.1.one_le_bet, hphase.1.money_eq⟩, hphase.2⟩ }
  | @houseDraws d shoe hp hv hd hs =>
    have hphase := hI.phase
    rw [PhaseInv, hp] at hphase
    refine { hI.toTable.houseDrawn hd hs (hI.house_lt hv) with money := hI.money, phase := ?_ }
    have hp' : (houseDrawn g d shoe).phase = .housePlays := hp
    rw [PhaseInv, hp']
    exact ⟨⟨hphase.1.one_le_bet, hphase.1.money_eq⟩, hphase.2⟩
  | settle hp =>
    have hphase := hI.phase
    rw [PhaseInv, hp] at hphase
    refine { hI with money := ?_, phase := trivial }
    rw [settle_money]
    have hsum : 0 ≤ ((List.range (g.player.handIndex + 1)).map (payout g.player g.house)).sum := by
      refine List.sum_nonneg fun x hx => ?_
      obtain ⟨i, _, rfl⟩ := List.mem_map.mp hx
      exact payout_nonneg hphase.1.one_le_bet _ _
    have := hI.money
    omega

/-- The invariant holds after every step. -/
theorem inv_next {rand : Nat → Nat} {g : Game} (hI : Inv g) (input : Input) :
    Inv (next rand g input) :=
  inv_move hI (next_move input hI.shoe)

end Vmwos.Blackjack
