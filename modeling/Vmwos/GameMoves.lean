import Vmwos.Blackjack

/-!
# What one step of the game can do

`Move input g g'` lists every way the program gets from one point to the next, with
the cards it draws as parameters. `next_move` says that the list is complete, so an
invariant of the game is a case analysis over `Move` and never unfolds `next`.
-/

namespace Vmwos.Blackjack

/-! ## Moves -/

/-- Hand `h` got the card `c`. -/
def drawn (g : Game) (h : Nat) (c : Card) (shoe : Shoe) : Game :=
  { g with
    player := { g.player with
      hand := setSlot g.player.hand h (g.player.nextSlot h) c
      nextSlot := Function.update g.player.nextSlot h (g.player.nextSlot h + 1)
      value := Function.update g.player.value h
        (handValue (setSlot g.player.hand h (g.player.nextSlot h) c h)) }
    shoe := shoe
    history := { g.history with playerCards := g.history.playerCards ++ [c] } }

/-- The stake of the round is doubled. -/
def doubled (g : Game) : Game :=
  { g with player := { g.player with
    money := g.player.money - g.player.betSize
    betSize := g.player.betSize + g.player.betSize } }

/-- The bet `amount` is taken, and `c₁`, `c₂` go to the player, `d₁`, `d₂` to the
house. -/
def dealt (g : Game) (amount : Int) (c₁ d₁ c₂ d₂ : Card) (shoe : Shoe) : Game :=
  let h := g.player.handIndex
  { g with
    phase := .playing 0 0
    player := { g.player with
      money := g.player.money - amount
      betSize := amount
      hand := setSlot (setSlot g.player.hand h 0 c₁) h 1 c₂
      nextSlot := Function.update g.player.nextSlot h (g.player.nextSlot h + 2) }
    house := { g.house with
      hand := Function.update (Function.update g.house.hand 0 d₁) 1 d₂
      nextSlot := g.house.nextSlot + 2 }
    shoe := shoe
    history := { g.history with
      playerCards := g.history.playerCards ++ [c₁] ++ [c₂]
      houseCards := g.history.houseCards ++ [d₁] ++ [d₂] } }

/-- The house got the card `d`. -/
def houseDrawn (g : Game) (d : Card) (shoe : Shoe) : Game :=
  { g with
    house := { g.house with
      value := handValueHouse g.house
      hand := Function.update g.house.hand g.house.nextSlot d
      nextSlot := g.house.nextSlot + 1 }
    shoe := shoe
    history := { g.history with houseCards := g.history.houseCards ++ [d] } }

/-- A new round begins. -/
def roundBegun (g : Game) : Game :=
  { resetHands g with phase := .betting, history := ⟨g.player.money, [], []⟩ }

/-- The result of a hand of this value: 2 for a bust, 1 otherwise. -/
def resultOf (value : Int) : Int := if value > 21 then 2 else 1

/-- Every way from one point of the program to the next. -/
inductive Move (input : Input) : Game → Game → Prop
  | newRound {g : Game} : g.phase = .newRound → 0 < g.player.money → Move input g (roundBegun g)
  | bankrupt {g : Game} : g.phase = .newRound → ¬ 0 < g.player.money →
      Move input g { g with phase := .finished 0 }
  | quit {g : Game} : (g.phase = .betting ∨ ∃ h n, g.phase = .playing h n) →
      Move input g { g with phase := .finished 1 }
  | stay {g : Game} : g.phase ≠ .newRound → Move input g g
  | placeBet {g : Game} {amount : Int} {c₁ d₁ c₂ d₂ : Card} {shoe : Shoe} :
      g.phase = .betting → 1 ≤ amount → amount ≤ g.player.money →
      IsCard c₁ → IsCard d₁ → IsCard c₂ → IsCard d₂ → shoe.Valid →
      Move input g (dealt g amount c₁ d₁ c₂ d₂ shoe)
  | hitOn {g : Game} {h n : Nat} {c : Card} {shoe : Shoe} :
      g.phase = .playing h n → IsCard c → shoe.Valid →
      (drawn g h c shoe).player.value h ≤ 21 → Move input g (drawn g h c shoe)
  | hitEnds {g : Game} {h n : Nat} {c : Card} {shoe : Shoe} :
      g.phase = .playing h n → IsCard c → shoe.Valid →
      Move input g (endHand (setResult (drawn g h c shoe) h
        (resultOf ((drawn g h c shoe).player.value h))) h n)
  | doubleDown {g : Game} {h n : Nat} {c : Card} {shoe : Shoe} :
      g.phase = .playing h n → g.player.hasSplit = false → g.player.nextSlot h = 2 →
      g.player.betSize ≤ g.player.money → IsCard c → shoe.Valid →
      Move input g { setResult (drawn (doubled g) h c shoe) h
        (resultOf ((drawn (doubled g) h c shoe).player.value h)) with phase := .turnOver }
  | stand {g : Game} {h n : Nat} : g.phase = .playing h n → Move input g (stand g h n)
  | split {g : Game} {h n : Nat} {word : List Char} :
      g.phase = .playing h n → input.word = some word → parseAction word = .split →
      splitAllowed g.player h n →
      Move input g { g with player := splitHand g.player h, phase := .playing h (n + 1) }
  | dealerStarts {g : Game} : g.phase = .turnOver → Move input g { g with phase := .housePlays }
  | dealerSkipped {g : Game} : g.phase = .turnOver → Move input g { g with phase := .settling }
  | houseStops {g : Game} {r : Int} : g.phase = .housePlays → 17 ≤ handValueHouse g.house →
      Move input g { g with
        house := { g.house with value := handValueHouse g.house, result := r }
        phase := .settling }
  | houseDraws {g : Game} {d : Card} {shoe : Shoe} :
      g.phase = .housePlays → handValueHouse g.house < 17 → IsCard d → shoe.Valid →
      Move input g (houseDrawn g d shoe)
  | settle {g : Game} : g.phase = .settling → Move input g (settle g)

/-! ## The list is complete -/

theorem drawCard_eq (rand : Nat → Nat) (g : Game) (h : Nat) :
    drawCard rand g h = drawn g h (popShoe rand g.shoe).1 (popShoe rand g.shoe).2 := rfl

theorem placeBet_move {rand : Nat → Nat} {g : Game} {input : Input} {amount : Int}
    (hs : g.shoe.Valid) (hp : g.phase = .betting) (h1 : 1 ≤ amount)
    (h2 : amount ≤ g.player.money) : Move input g (placeBet rand g amount) := by
  obtain ⟨hc₁, hs₁⟩ := popShoe_spec rand hs
  obtain ⟨hd₁, hs₂⟩ := popShoe_spec rand hs₁
  obtain ⟨hc₂, hs₃⟩ := popShoe_spec rand hs₂
  obtain ⟨hd₂, hs₄⟩ := popShoe_spec rand hs₃
  exact .placeBet hp h1 h2 hc₁ hd₁ hc₂ hd₂ hs₄

theorem hit_move {rand : Nat → Nat} {g : Game} {input : Input} {h n : Nat}
    (hs : g.shoe.Valid) (hp : g.phase = .playing h n) : Move input g (hit rand g h n) := by
  obtain ⟨hc, hs'⟩ := popShoe_spec rand hs
  have hends : Move input g _ := .hitEnds hp hc hs'
  unfold hit
  rw [drawCard_eq]
  dsimp only
  split
  · next hv =>
    rwa [resultOf, if_pos hv] at hends
  · next hv =>
    rw [resultOf, if_neg hv] at hends
    split
    · exact hends
    · exact .hitOn hp hc hs' (not_lt.mp hv)

theorem doubleDown_move {rand : Nat → Nat} {g : Game} {input : Input} {h n : Nat}
    (hs : g.shoe.Valid) (hp : g.phase = .playing h n) :
    Move input g (doubleDown rand g h) := by
  have hstay : Move input g g := .stay (by rw [hp]; simp)
  obtain ⟨hc, hs'⟩ := popShoe_spec rand hs
  unfold doubleDown
  split
  · exact hstay
  next hsplit =>
  split
  · exact hstay
  split
  · exact hstay
  next hslot =>
  split
  · exact hstay
  next hbet =>
  exact .doubleDown hp (by simpa using hsplit) (by simpa using hslot) (by simpa using hbet) hc hs'

theorem playerAction_move {rand : Nat → Nat} {g : Game} {input : Input} {h n : Nat}
    {word : List Char} (hs : g.shoe.Valid) (hp : g.phase = .playing h n)
    (hw : input.word = some word) :
    Move input g (playerAction rand g h n (parseAction word)) := by
  have hstay : Move input g g := .stay (by rw [hp]; simp)
  cases ha : parseAction word with
  | hit => exact hit_move hs hp
  | doubleDown => exact doubleDown_move hs hp
  | stand => exact .stand hp
  | split =>
    simp only [playerAction, split]
    split
    · next hallowed => exact .split hp hw ha hallowed
    · exact hstay
  | invalid => exact hstay

theorem houseTurn_move {rand : Nat → Nat} {g : Game} {input : Input}
    (hs : g.shoe.Valid) (hp : g.phase = .housePlays) : Move input g (houseTurn rand g) := by
  obtain ⟨hd, hs'⟩ := popShoe_spec rand hs
  simp only [houseTurn]
  split
  · next hv => exact .houseStops hp (by omega)
  · split
    · next hv => exact .houseStops hp hv
    · next hv => exact .houseDraws hp (not_le.mp hv) hd hs'

/-- Every step of the program is one of the moves. -/
theorem next_move {rand : Nat → Nat} {g : Game} (input : Input) (hs : g.shoe.Valid) :
    Move input g (next rand g input) := by
  unfold next
  cases hp : g.phase with
  | newRound =>
    simp only
    split
    · next hm => exact .newRound hp hm
    · next hm => exact .bankrupt hp hm
  | betting =>
    simp only
    split
    · exact .quit (.inl hp)
    · next amount _ =>
      split
      · exact .stay (by rw [hp]; simp)
      · next hr => exact placeBet_move hs hp (by omega) (by omega)
  | playing h n =>
    simp only
    split
    · exact .quit (.inr ⟨h, n, hp⟩)
    · next word hw => exact playerAction_move hs hp hw
  | turnOver =>
    simp only
    split
    · exact .dealerStarts hp
    · exact .dealerSkipped hp
  | housePlays => exact houseTurn_move hs hp
  | settling => exact .settle hp
  | finished code => exact .stay (by rw [hp]; simp)

end Vmwos.Blackjack
