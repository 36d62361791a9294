import Mathlib.Logic.Function.Basic
import Vmwos.Cards
import Vmwos.Runs

/-!
# The game of `blackjack.c`

`main`, `player_turn`, `house_turn` and `reset_hands` as one state machine. A state
is a point where the program reads a line from the player or where one of its
loops starts over, with the global structs `player` and `house`, the shoe, and the
locals of `player_turn`. `next` runs the program from one such point to the next.

Money and values are exact integers. The arrays are functions on all indices; that
the indices used stay inside the C arrays is a fact about runs, not a premise.

`History` keeps what a specification talks about and the program forgets: the money
at the start of the round and the cards dealt in it. Nothing reads it.
-/

namespace Vmwos.Blackjack

/-! ## State -/

/-- `struct player`. -/
structure Player where
  value : Nat → Int
  result : Nat → Int
  money : Int
  betSize : Int
  hasSplit : Bool
  hand : Nat → Nat → Card
  handIndex : Nat
  nextSlot : Nat → Nat

/-- `struct house`. -/
structure House where
  value : Int
  result : Int
  nextSlot : Nat
  hand : Nat → Card

/-- Where the program is. -/
inductive Phase where
  /-- At the test of `while (player.money > 0)` in `main`. -/
  | newRound
  /-- At the `scanf` of the bet. -/
  | betting
  /-- At the `scanf` of `player_turn`, with its locals `hand_index` and `num_splits`. -/
  | playing (handIndex numSplits : Nat)
  /-- `player_turn` has returned 0. -/
  | turnOver
  /-- At the head of the loop of `house_turn`. -/
  | housePlays
  /-- Before the settlement loop of `main`. -/
  | settling
  /-- `main` has returned. -/
  | finished (code : Nat)
  deriving DecidableEq

/-- What a specification remembers of the current round. -/
structure History where
  startMoney : Int
  playerCards : List Card
  houseCards : List Card

structure Game where
  phase : Phase
  player : Player
  house : House
  shoe : Shoe
  history : History

/-- What the player types next: the result of `scanf("%d")` if a bet is read, and of
`scanf("%11s")` if an action is read. `none` is a failed conversion. -/
structure Input where
  number : Option Int
  word : Option (List Char)

/-- An input that answers the prompt for an action. -/
def act (word : List Char) : Input := ⟨none, some word⟩
/-- An input that answers the prompt for a bet. -/
def bet (amount : Int) : Input := ⟨some amount, none⟩
/-- An input of a step that reads nothing. -/
def idle : Input := ⟨none, none⟩

/-! ## Hands -/

/-- `hand[h][slot] = c`. -/
def setSlot (hand : Nat → Nat → Card) (h slot : Nat) (c : Card) : Nat → Nat → Card :=
  Function.update hand h (Function.update (hand h) slot c)

/-- `hand_value_player`. -/
def handValuePlayer (p : Player) (h : Nat) : Int := handValue (p.hand h)

/-- `hand_value_house`. -/
def handValueHouse (h : House) : Int := handValue h.hand

/-- `reset_hands`. For the house it clears `house.hand[i]` for `i < MAX_HANDS`. -/
def resetHands (g : Game) : Game :=
  { g with
    player := { g.player with
      value := fun i => if i < maxHands then 0 else g.player.value i
      result := fun i => if i < maxHands then 0 else g.player.result i
      hasSplit := false
      hand := fun i j => if i < maxHands ∧ j < handSize then [] else g.player.hand i j
      handIndex := 0
      nextSlot := fun i => if i < maxHands then 0 else g.player.nextSlot i }
    house := { g.house with
      value := 0
      result := 0
      nextSlot := 0
      hand := fun i => if i < maxHands then [] else g.house.hand i } }

section Rand

variable (rand : Nat → Nat)

/-- `strcpy(player.hand[h][slot], pop_shoe(shoe))`. -/
def dealPlayer (g : Game) (h slot : Nat) : Game :=
  let (c, shoe) := popShoe rand g.shoe
  { g with
    player := { g.player with hand := setSlot g.player.hand h slot c }
    shoe := shoe
    history := { g.history with playerCards := g.history.playerCards ++ [c] } }

/-- `strcpy(house.hand[slot], pop_shoe(shoe))`. -/
def dealHouse (g : Game) (slot : Nat) : Game :=
  let (c, shoe) := popShoe rand g.shoe
  { g with
    house := { g.house with hand := Function.update g.house.hand slot c }
    shoe := shoe
    history := { g.history with houseCards := g.history.houseCards ++ [c] } }

/-- The first cards of a round: two to the player and two to the house, in turn. -/
def dealRound (g : Game) : Game :=
  let h := g.player.handIndex
  let g := dealHouse rand (dealPlayer rand g h 0) 0
  let g := dealHouse rand (dealPlayer rand g h 1) 1
  { g with
    player := { g.player with
      nextSlot := Function.update g.player.nextSlot h (g.player.nextSlot h + 2) }
    house := { g.house with nextSlot := g.house.nextSlot + 2 } }

/-! ## `player_turn` -/

/-- A hand is over: return from `player_turn` if it was the last one, else go to the
next. -/
def endHand (g : Game) (h n : Nat) : Game :=
  if h = n then { g with phase := .turnOver } else { g with phase := .playing (h + 1) n }

/-- Deal the next card of hand `h` and update its value. -/
def drawCard (g : Game) (h : Nat) : Game :=
  let g := dealPlayer rand g h (g.player.nextSlot h)
  let p := { g.player with
    nextSlot := Function.update g.player.nextSlot h (g.player.nextSlot h + 1) }
  { g with player := { p with value := Function.update p.value h (handValuePlayer p h) } }

/-- `player.result[h] = r`. -/
def setResult (g : Game) (h : Nat) (r : Int) : Game :=
  { g with player := { g.player with result := Function.update g.player.result h r } }

/-- The action `hit`. -/
def hit (g : Game) (h n : Nat) : Game :=
  let g := drawCard rand g h
  if g.player.value h > 21 then endHand (setResult g h 2) h n
  else if g.player.nextSlot h = 2 ∧ strncmp (g.player.hand h 0) ['A'] 1 = 0 then
    endHand (setResult g h 1) h n
  else g

/-- The action `double_down`. -/
def doubleDown (g : Game) (h : Nat) : Game :=
  if g.player.hasSplit then g
  else if handValuePlayer g.player h = 21 then g
  else if g.player.nextSlot h ≠ 2 then g
  else if g.player.betSize > g.player.money then g
  else
    let g := { g with player := { g.player with
      money := g.player.money - g.player.betSize
      betSize := g.player.betSize + g.player.betSize } }
    let g := drawCard rand g h
    { setResult g h (if g.player.value h > 21 then 2 else 1) with phase := .turnOver }

/-- The action `stand`. -/
def stand (g : Game) (h n : Nat) : Game :=
  let g := setResult g h 1
  endHand { g with player := { g.player with
    value := Function.update g.player.value h (handValuePlayer g.player h) } } h n

/-- `while (strncmp(player.hand[hand_index+i][0], "", 0)) i++`, with at most `fuel`
turns. -/
def findAvailable (hand : Nat → Nat → Card) (h : Nat) : Nat → Nat → Nat
  | 0, i => i
  | fuel + 1, i =>
    if strncmp (hand (h + i) 0) [] 0 ≠ 0 then findAvailable hand h fuel (i + 1) else i

/-- The checks that let a `split` pass. -/
def splitAllowed (p : Player) (h n : Nat) : Prop :=
  p.nextSlot h = 2 ∧
    ¬ (strncmp (p.hand h 0) (p.hand h 1) 1 ≠ 0 ∧ handValuePlayer p h ≠ 20) ∧
    n ≠ 3 ∧ ¬ p.betSize > p.money

instance (p : Player) (h n : Nat) : Decidable (splitAllowed p h n) := by
  unfold splitAllowed
  infer_instance

/-- The body of a `split` that passed the checks. -/
def splitHand (p : Player) (h : Nat) : Player :=
  let p := { p with money := p.money - p.betSize }
  let i := findAvailable p.hand h maxHands 1
  let p := { p with hand := setSlot p.hand (h + i) 0 (p.hand h 1) }
  let p := { p with hand := setSlot p.hand h (p.nextSlot h - 1) [] }
  { p with
    handIndex := p.handIndex + 1
    nextSlot := Function.update (Function.update p.nextSlot h 1) (h + i) 1
    hasSplit := true }

/-- The action `split`. -/
def split (g : Game) (h n : Nat) : Game :=
  if splitAllowed g.player h n then
    { g with player := splitHand g.player h, phase := .playing h (n + 1) }
  else g

/-- The actions of `player_turn`. -/
inductive Action where
  | hit | doubleDown | stand | split | invalid
  deriving DecidableEq

/-- The chain of `strncmp` tests on the word the player typed. -/
def parseAction (word : List Char) : Action :=
  if strncmp word ['h', 'i', 't'] 3 = 0 then .hit
  else if strncmp word ['d', 'o', 'u', 'b', 'l', 'e', '_', 'd', 'o', 'w', 'n'] 11 = 0 then
    .doubleDown
  else if strncmp word ['s', 't', 'a', 'n', 'd'] 5 = 0 then .stand
  else if strncmp word ['s', 'p', 'l', 'i', 't'] 5 = 0 then .split
  else .invalid

/-- One turn of the loop of `player_turn`. -/
def playerAction (g : Game) (h n : Nat) : Action → Game
  | .hit => hit rand g h n
  | .doubleDown => doubleDown rand g h
  | .stand => stand g h n
  | .split => split g h n
  | .invalid => g

/-! ## `house_turn` and the settlement -/

/-- One turn of the loop of `house_turn`. -/
def houseTurn (g : Game) : Game :=
  let g := { g with house := { g.house with value := handValueHouse g.house } }
  if g.house.value > 21 then { g with house := { g.house with result := 2 }, phase := .settling }
  else if g.house.value ≥ 17 then
    { g with house := { g.house with result := 1 }, phase := .settling }
  else
    let g := dealHouse rand g g.house.nextSlot
    { g with house := { g.house with nextSlot := g.house.nextSlot + 1 } }

/-- What the settlement adds to `player.money` for hand `i`. -/
def payout (p : Player) (h : House) (i : Nat) : Int :=
  if p.value i > 21 then 0
  else if h.value > 21 then p.betSize * 2
  else if p.value i > h.value then p.betSize * 2
  else if p.value i = h.value then
    if p.nextSlot i = 2 ∧ h.nextSlot ≠ 2 ∧ p.value i = 21 then p.betSize * 2
    else if p.nextSlot i ≠ 2 ∧ h.nextSlot = 2 ∧ p.value i = 21 then 0
    else p.betSize
  else 0

/-- The settlement loop of `main`. -/
def settle (g : Game) : Game :=
  { g with
    phase := .newRound
    player := { g.player with
      money := (List.range (g.player.handIndex + 1)).foldl
        (fun money i => money + payout g.player g.house i) g.player.money } }

/-! ## `main` -/

/-- The bet is taken and the first cards are dealt. -/
def placeBet (g : Game) (amount : Int) : Game :=
  let g := { g with player := { g.player with
    betSize := amount
    money := g.player.money - amount } }
  { dealRound rand g with phase := .playing 0 0 }

/-- The program from one point to the next. -/
def next (g : Game) (input : Input) : Game :=
  match g.phase with
  | .newRound =>
    if g.player.money > 0 then
      let g := resetHands g
      { g with phase := .betting, history := ⟨g.player.money, [], []⟩ }
    else { g with phase := .finished 0 }
  | .betting =>
    match input.number with
    | none => { g with phase := .finished 1 }
    | some amount =>
      if amount < 1 ∨ amount > g.player.money then g else placeBet rand g amount
  | .playing h n =>
    match input.word with
    | none => { g with phase := .finished 1 }
    | some word => playerAction rand g h n (parseAction word)
  | .turnOver =>
    if ∃ i < maxHands, g.player.result i = 1 then { g with phase := .housePlays }
    else { g with phase := .settling }
  | .housePlays => houseTurn rand g
  | .settling => settle g
  | .finished _ => g

/-- `next` as a step of a run: it always completes. -/
def step (g : Game) (input : Input) : Option Game := some (next rand g input)

/-- Every step of a run completes. -/
theorem run_step (g : Game) (inputs : List Input) :
    Runs.run (step rand) g inputs = some (inputs.foldl (next rand) g) := by
  induction inputs generalizing g with
  | nil => rfl
  | cons i is ih => exact ih (next rand g i)

end Rand

/-- The state of `main` at its first `while` test, over a given shoe. The globals are
zero-initialised. -/
def start (shoe : Shoe) : Game where
  phase := .newRound
  player :=
    { value := fun _ => 0, result := fun _ => 0, money := 1500, betSize := 0, hasSplit := false,
      hand := fun _ _ => [], handIndex := 0, nextSlot := fun _ => 0 }
  house := { value := 0, result := 0, nextSlot := 0, hand := fun _ => [] }
  shoe := shoe
  history := ⟨1500, [], []⟩

/-- `main` at its first `while` test: the shoe is created and shuffled. -/
def mainStart (rand : Nat → Nat) : Game := start (newShoe rand 0)

end Vmwos.Blackjack
