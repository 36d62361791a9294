import Vmwos.Money

/-!
# The arrays of the game

`player.hand` is indexed by `MAX_HANDS` hands and `HAND_SIZE` slots, `house.hand` by
`HAND_SIZE` slots, and the program checks none of its indices. `handAccesses` lists the
elements of `player.hand` that one step reads or writes, in the order of the source,
and `houseWrites` the slots of the house that it deals to: a step changes no others
(`next_hand_frame`, `next_house_frame`). `accesses_in_bounds` says that all of them exist
in every run, and that the loop of `house_turn` ends.
-/

namespace Vmwos.Blackjack

open Runs

/-! ## What a step touches -/

/-- The element `player.hand[a.1][a.2]` exists. -/
def InArray (a : Nat × Nat) : Prop := a.1 < maxHands ∧ a.2 < handSize

/-- The slots that the loop of `hand_value_player` reads, up to the first empty one. -/
def slotsRead (hand : Nat → Card) : Nat → Nat → List Nat
  | 0, _ => []
  | k + 1, i => if strncmp (hand i) [] 1 = 0 then [i] else i :: slotsRead hand k (i + 1)

/-- The reads of `hand_value_player`. -/
def valueReads (p : Player) (h : Nat) : List (Nat × Nat) :=
  (slotsRead (p.hand h) handSize 0).map fun j => (h, j)

/-- The reads of `print_player_hand`. -/
def printReads (h : Nat) : List (Nat × Nat) := (List.range handSize).map fun j => (h, j)

/-- `print_player_hand` at the end of the loop of `player_turn`, unless it has returned. -/
def lastReads (g : Game) : List (Nat × Nat) :=
  match g.phase with
  | .playing h _ => printReads h
  | _ => []

/-- The loops over all hands and slots in `reset_hands` and at the start of `main`. -/
def allSlots : List (Nat × Nat) := (List.range maxHands).flatMap printReads

section Rand

variable (rand : Nat → Nat)

/-- The accesses of `hit`. -/
def hitAccesses (g : Game) (h n : Nat) : List (Nat × Nat) :=
  let g' := drawCard rand g h
  [(h, g.player.nextSlot h)] ++ valueReads g'.player h ++
    (if g'.player.value h > 21 then printReads h
    else if g'.player.nextSlot h = 2 then
      (h, 0) :: if strncmp (g'.player.hand h 0) ['A'] 1 = 0 then printReads h else []
    else []) ++
    lastReads (hit rand g h n)

/-- The accesses of `double_down`: every exit is a `continue` or a `return`. -/
def doubleDownAccesses (g : Game) (h : Nat) : List (Nat × Nat) :=
  if g.player.hasSplit then []
  else if handValuePlayer g.player h = 21 then valueReads g.player h
  else if g.player.nextSlot h ≠ 2 then valueReads g.player h
  else if g.player.betSize > g.player.money then valueReads g.player h
  else valueReads g.player h ++ [(h, g.player.nextSlot h)] ++ printReads h ++
    valueReads (doubleDown rand g h).player h

/-- The accesses of `split`. -/
def splitAccesses (g : Game) (h n : Nat) : List (Nat × Nat) :=
  let i := findAvailable g.player.hand h maxHands 1
  [(h, 0), (h, 1)] ++
    if g.player.nextSlot h ≠ 2 then []
    else [(h, 0), (h, 1)] ++
      (if strncmp (g.player.hand h 0) (g.player.hand h 1) 1 ≠ 0 then valueReads g.player h
      else []) ++
      if splitAllowed g.player h n then
        ((List.range' 1 i).map fun k => (h + k, 0)) ++
          [(h, 1), (h + i, 0), (h, g.player.nextSlot h - 1)] ++ lastReads (split g h n)
      else []

/-- The accesses of one turn of the loop of `player_turn`. -/
def actionAccesses (g : Game) (h n : Nat) : Action → List (Nat × Nat)
  | .hit => hitAccesses rand g h n
  | .doubleDown => doubleDownAccesses rand g h
  | .stand => valueReads g.player h ++ lastReads (stand g h n)
  | .split => splitAccesses g h n
  | .invalid => lastReads g

/-- The elements of `player.hand` that a step reads or writes. -/
def handAccesses (g : Game) (input : Input) : List (Nat × Nat) :=
  match g.phase with
  | .newRound => if g.player.money > 0 then allSlots else []
  | .betting =>
    match input.number with
    | none => []
    | some amount =>
      if amount < 1 ∨ amount > g.player.money then []
      else [(g.player.handIndex, 0), (g.player.handIndex, 1)] ++ printReads g.player.handIndex
  | .playing h n =>
    match input.word with
    | none => []
    | some word => actionAccesses rand g h n (parseAction word)
  | _ => []

/-- The slots of `house.hand` that a step deals a card to. -/
def houseWrites (g : Game) (input : Input) : List Nat :=
  match g.phase with
  | .betting =>
    match input.number with
    | none => []
    | some amount => if amount < 1 ∨ amount > g.player.money then [] else [0, 1]
  | .housePlays => if handValueHouse g.house < 17 then [g.house.nextSlot] else []
  | _ => []

/-- A step stays inside the arrays. -/
structure InBounds (g : Game) (input : Input) : Prop where
  hands : ∀ a ∈ handAccesses rand g input, InArray a
  house : ∀ j ∈ houseWrites g input, j < handSize

/-- The loop of `house_turn` ends: after some draws, each at the head of the loop, the
next turn returns. -/
def HouseReturns (g : Game) : Prop :=
  g.phase = .housePlays →
    ∃ draws, (∀ k ≤ draws, ((houseTurn rand)^[k] g).phase = .housePlays) ∧
      ((houseTurn rand)^[draws + 1] g).phase = .settling

end Rand

/-! ## What a step leaves as it is -/

section Frame

variable {rand : Nat → Nat} {g : Game} {input : Input} {h n i j : Nat}

theorem setSlot_frame {hand : Nat → Nat → Card} {slot : Nat} {c : Card} (hne : (i, j) ≠ (h, slot)) :
    setSlot hand h slot c i j = hand i j := by
  by_cases hi : i = h
  · subst hi
    rw [setSlot_self, Function.update_of_ne fun hj => hne (congrArg (Prod.mk i) hj)]
  · rw [setSlot_of_ne _ _ _ hi]

theorem endHand_player : (endHand g h n).player = g.player := by
  unfold endHand
  split <;> rfl

theorem drawCard_frame (hne : (i, j) ≠ (h, g.player.nextSlot h)) :
    (drawCard rand g h).player.hand i j = g.player.hand i j := setSlot_frame hne

theorem hit_frame (hno : (i, j) ∉ hitAccesses rand g h n) :
    (hit rand g h n).player.hand i j = g.player.hand i j := by
  have hne : (i, j) ≠ (h, g.player.nextSlot h) := fun heq => hno (heq ▸ by simp [hitAccesses])
  have hdrawn : (drawCard rand g h).player.hand i j = g.player.hand i j := drawCard_frame hne
  unfold hit
  simp only
  split
  · rw [endHand_player]
    exact hdrawn
  · split
    · rw [endHand_player]
      exact hdrawn
    · exact hdrawn

theorem doubleDown_frame (hno : (i, j) ∉ doubleDownAccesses rand g h) :
    (doubleDown rand g h).player.hand i j = g.player.hand i j := by
  unfold doubleDownAccesses at hno
  unfold doubleDown
  split
  · rfl
  · next hsplit =>
    rw [if_neg hsplit] at hno
    split
    · rfl
    · next h21 =>
      rw [if_neg h21] at hno
      split
      · rfl
      · next hslot =>
        rw [if_neg hslot] at hno
        split
        · rfl
        · next hmoney =>
          rw [if_neg hmoney] at hno
          exact setSlot_frame fun heq => hno (heq ▸ by simp)

theorem stand_frame : (stand g h n).player.hand i j = g.player.hand i j := by
  rw [stand, endHand_player]
  rfl

theorem split_frame (hno : (i, j) ∉ splitAccesses g h n) :
    (split g h n).player.hand i j = g.player.hand i j := by
  unfold split
  split
  · next hallowed =>
    simp only [splitAccesses, if_neg (not_not.mpr hallowed.1), if_pos hallowed] at hno
    have hnew : (i, j) ≠ (h + findAvailable g.player.hand h maxHands 1, 0) := fun heq =>
      hno (heq ▸ by simp)
    have hlast : (i, j) ≠ (h, g.player.nextSlot h - 1) := fun heq => hno (heq ▸ by simp)
    exact (setSlot_frame hlast).trans (setSlot_frame hnew)
  · rfl

theorem playerAction_frame {action : Action} (hno : (i, j) ∉ actionAccesses rand g h n action) :
    (playerAction rand g h n action).player.hand i j = g.player.hand i j := by
  cases action with
  | hit => exact hit_frame hno
  | doubleDown => exact doubleDown_frame hno
  | stand => exact stand_frame
  | split => exact split_frame hno
  | invalid => rfl

theorem endHand_house : (endHand g h n).house = g.house := by
  unfold endHand
  split <;> rfl

theorem playerAction_house (action : Action) : (playerAction rand g h n action).house = g.house := by
  cases action with
  | hit =>
    simp only [playerAction, hit]
    split
    · exact endHand_house
    · split
      · exact endHand_house
      · rfl
  | doubleDown =>
    simp only [playerAction, doubleDown]
    split_ifs <;> rfl
  | stand => exact endHand_house
  | split =>
    simp only [playerAction, split]
    split <;> rfl
  | invalid => rfl

/-- A step changes no other element of `player.hand`. -/
theorem next_hand_frame (hno : (i, j) ∉ handAccesses rand g input) :
    (next rand g input).player.hand i j = g.player.hand i j := by
  unfold handAccesses at hno
  unfold next
  cases hp : g.phase with
  | newRound =>
    simp only [hp] at hno ⊢
    split
    · next hmoney =>
      rw [if_pos hmoney] at hno
      refine if_neg fun hin => hno ?_
      exact List.mem_flatMap.mpr ⟨i, List.mem_range.mpr hin.1,
        List.mem_map.mpr ⟨j, List.mem_range.mpr hin.2, rfl⟩⟩
    · rfl
  | betting =>
    simp only [hp] at hno ⊢
    cases hnumber : input.number with
    | none => rfl
    | some amount =>
      simp only [hnumber] at hno ⊢
      split
      · rfl
      · next hbet =>
        rw [if_neg hbet] at hno
        have hfirst : (i, j) ≠ (g.player.handIndex, 0) := fun heq => hno (heq ▸ by simp)
        have hsecond : (i, j) ≠ (g.player.handIndex, 1) := fun heq => hno (heq ▸ by simp)
        exact (setSlot_frame hsecond).trans (setSlot_frame hfirst)
  | playing h n =>
    simp only [hp] at hno ⊢
    cases hword : input.word with
    | none => rfl
    | some word =>
      simp only [hword] at hno ⊢
      exact playerAction_frame hno
  | turnOver =>
    simp only
    split <;> rfl
  | housePlays =>
    simp only [houseTurn]
    split
    · rfl
    · split <;> rfl
  | settling => rfl
  | finished code => rfl

/-- A step deals a card to no other slot of the house: at most it clears one. -/
theorem next_house_frame (hno : j ∉ houseWrites g input) :
    (next rand g input).house.hand j = g.house.hand j ∨ (next rand g input).house.hand j = [] := by
  unfold houseWrites at hno
  unfold next
  cases hp : g.phase with
  | newRound =>
    simp only
    split
    · by_cases hj : j < maxHands
      · exact .inr (if_pos hj)
      · exact .inl (if_neg hj)
    · exact .inl rfl
  | betting =>
    simp only [hp] at hno ⊢
    cases hnumber : input.number with
    | none => exact .inl rfl
    | some amount =>
      simp only [hnumber] at hno ⊢
      split
      · exact .inl rfl
      · next hbet =>
        rw [if_neg hbet] at hno
        have hfirst : j ≠ 0 := fun heq => hno (heq ▸ by simp)
        have hsecond : j ≠ 1 := fun heq => hno (heq ▸ by simp)
        exact .inl ((Function.update_of_ne hsecond _ _).trans (Function.update_of_ne hfirst _ _))
  | playing h n =>
    simp only
    cases hword : input.word with
    | none => exact .inl rfl
    | some word => exact .inl (by rw [playerAction_house])
  | turnOver =>
    simp only
    split <;> exact .inl rfl
  | housePlays =>
    simp only [hp] at hno ⊢
    simp only [houseTurn]
    split
    · exact .inl rfl
    · split
      · exact .inl rfl
      · next hvalue =>
        rw [if_pos (not_le.mp hvalue)] at hno
        exact .inl (Function.update_of_ne (mt List.mem_singleton.mpr hno) _ _)
  | settling => exact .inl rfl
  | finished code => exact .inl rfl

end Frame

/-! ## Reads of a whole hand -/

theorem lt_of_mem_slotsRead {hand : Nat → Card} :
    ∀ {k i j : Nat}, j ∈ slotsRead hand k i → j < i + k
  | k + 1, i, j, hj => by
    rw [slotsRead] at hj
    split at hj
    · cases List.mem_singleton.mp hj
      omega
    · rcases List.mem_cons.mp hj with rfl | hj
      · omega
      · have := lt_of_mem_slotsRead hj
        omega

theorem inArray_valueReads {p : Player} {h : Nat} (hh : h < maxHands) :
    ∀ a ∈ valueReads p h, InArray a := by
  intro a ha
  obtain ⟨j, hj, rfl⟩ := List.mem_map.mp ha
  have hlt := lt_of_mem_slotsRead hj
  rw [Nat.zero_add] at hlt
  exact ⟨hh, hlt⟩

theorem inArray_printReads {h : Nat} (hh : h < maxHands) : ∀ a ∈ printReads h, InArray a := by
  intro a ha
  obtain ⟨j, hj, rfl⟩ := List.mem_map.mp ha
  exact ⟨hh, List.mem_range.mp hj⟩

theorem inArray_allSlots : ∀ a ∈ allSlots, InArray a := by
  intro a ha
  obtain ⟨h, hh, ha⟩ := List.mem_flatMap.mp ha
  exact inArray_printReads (List.mem_range.mp hh) a ha

/-- The hand being played is one of the array's. -/
theorem Inv.hand_lt {g : Game} (hI : Inv g) {h n : Nat} (hp : g.phase = .playing h n) :
    h < maxHands := by
  have hP := hI.playing hp
  have hn := hP.handIndex_eq
  exact Nat.lt_of_le_of_lt (hn ▸ hP.le) hI.hands

theorem inArray_lastReads {g : Game} (hI : Inv g) : ∀ a ∈ lastReads g, InArray a := by
  intro a ha
  unfold lastReads at ha
  split at ha
  · next h n hp => exact inArray_printReads (hI.hand_lt hp) a ha
  · cases ha

/-! ## The actions of the player -/

section Actions

variable {rand : Nat → Nat} {g : Game} {h n : Nat}

theorem inArray_slot (hI : Inv g) (hp : g.phase = .playing h n) {j : Nat} (hj : j < 2) :
    InArray (h, j) :=
  ⟨hI.hand_lt hp, hj.trans (by decide)⟩

/-- The slot that the next card of the hand goes to. -/
theorem inArray_nextSlot (hI : Inv g) (hp : g.phase = .playing h n) :
    InArray (h, g.player.nextSlot h) :=
  ⟨hI.hand_lt hp, hI.nextSlot_lt hp⟩

/-- What a turn of the loop of `player_turn` leaves. -/
theorem inv_playerAction (hI : Inv g) (hp : g.phase = .playing h n) {word : List Char} :
    Inv (playerAction rand g h n (parseAction word)) :=
  inv_move hI (playerAction_move hI.shoe hp (rfl : (act word).word = some word))

theorem inArray_hit (hI : Inv g) (hp : g.phase = .playing h n)
    (hI' : Inv (hit rand g h n)) : ∀ a ∈ hitAccesses rand g h n, InArray a := by
  have hh := hI.hand_lt hp
  intro a ha
  simp only [hitAccesses, List.mem_append, List.mem_singleton] at ha
  obtain ((rfl | ha) | ha) | ha := ha
  · exact inArray_nextSlot hI hp
  · exact inArray_valueReads hh a ha
  · split at ha
    · exact inArray_printReads hh a ha
    · split at ha
      · rcases List.mem_cons.mp ha with rfl | ha
        · exact inArray_slot hI hp (by decide)
        · split at ha
          · exact inArray_printReads hh a ha
          · cases ha
      · cases ha
  · exact inArray_lastReads hI' a ha

theorem inArray_doubleDown (hI : Inv g) (hp : g.phase = .playing h n) :
    ∀ a ∈ doubleDownAccesses rand g h, InArray a := by
  have hh := hI.hand_lt hp
  intro a ha
  unfold doubleDownAccesses at ha
  split at ha
  · cases ha
  split at ha
  · exact inArray_valueReads hh a ha
  split at ha
  · exact inArray_valueReads hh a ha
  split at ha
  · exact inArray_valueReads hh a ha
  simp only [List.mem_append, List.mem_singleton] at ha
  obtain ((ha | rfl) | ha) | ha := ha
  · exact inArray_valueReads hh a ha
  · exact inArray_nextSlot hI hp
  · exact inArray_printReads hh a ha
  · exact inArray_valueReads hh a ha

theorem inArray_split (hI : Inv g) (hp : g.phase = .playing h n)
    (hI' : Inv (split g h n)) : ∀ a ∈ splitAccesses g h n, InArray a := by
  have hh := hI.hand_lt hp
  have hcards : ∀ a ∈ [(h, 0), (h, 1)], InArray a := by
    intro a ha
    rcases List.mem_pair.mp ha with rfl | rfl
    · exact inArray_slot hI hp (by decide)
    · exact inArray_slot hI hp (by decide)
  intro a ha
  rcases List.mem_append.mp ha with ha | ha
  · exact hcards a ha
  split at ha
  · cases ha
  next hslot =>
  rw [List.mem_append, List.mem_append] at ha
  obtain (ha | ha) | ha := ha
  · exact hcards a ha
  · split at ha
    · exact inArray_valueReads hh a ha
    · cases ha
  split at ha
  · next hallowed =>
    have hsucc : h + 1 < maxHands := by
      -- at most two splits came before, so that hand `n + 1` exists
      have hlt := hI.hands
      have hP := hI.playing hp
      have hn := hP.handIndex_eq
      have hle := hP.le
      have hn3 := hallowed.2.2.1
      have h4 : maxHands = 4 := rfl
      omega
    simp only [findAvailable_eq, List.mem_append, List.mem_map, List.mem_cons, List.mem_range'_1,
      List.not_mem_nil, or_false] at ha
    obtain (⟨k, hk, rfl⟩ | rfl | rfl | rfl) | ha := ha
    · have hk1 : k = 1 := by omega
      rw [hk1]
      exact ⟨hsucc, Nat.zero_lt_succ _⟩
    · exact inArray_slot hI hp (by decide)
    · exact ⟨hsucc, Nat.zero_lt_succ _⟩
    · have hlt := hI.nextSlot_lt hp
      exact ⟨hh, by omega⟩
    · exact inArray_lastReads hI' a ha
  · cases ha

theorem inArray_action (hI : Inv g) (hp : g.phase = .playing h n) (word : List Char) :
    ∀ a ∈ actionAccesses rand g h n (parseAction word), InArray a := by
  have hI' : Inv (playerAction rand g h n (parseAction word)) := inv_playerAction hI hp
  cases ha : parseAction word with
  | hit =>
    rw [ha] at hI'
    exact inArray_hit hI hp hI'
  | doubleDown => exact inArray_doubleDown hI hp
  | stand =>
    rw [ha] at hI'
    intro a hmem
    rcases List.mem_append.mp hmem with hmem | hmem
    · exact inArray_valueReads (hI.hand_lt hp) a hmem
    · exact inArray_lastReads hI' a hmem
  | split =>
    rw [ha] at hI'
    exact inArray_split hI hp hI'
  | invalid => exact inArray_lastReads hI

end Actions

/-! ## The house -/

/-- One turn of the loop of `house_turn`: it returns, or one more slot is filled. -/
theorem houseTurn_cases (rand : Nat → Nat) {g : Game} (hp : g.phase = .housePlays) :
    (houseTurn rand g).phase = .settling ∨
      handValueHouse g.house < 17 ∧ (houseTurn rand g).phase = .housePlays ∧
        (houseTurn rand g).house.nextSlot = g.house.nextSlot + 1 := by
  simp only [houseTurn]
  split
  · exact .inl rfl
  · split
    · exact .inl rfl
    · next hv => exact .inr ⟨not_le.mp hv, hp, rfl⟩

theorem houseReturns_of_inv (rand : Nat → Nat) {g : Game} (hI : Inv g) : HouseReturns rand g := by
  -- induction on the number of free slots
  obtain ⟨free, hfree⟩ : ∃ free, free = handSize - g.house.nextSlot := ⟨_, rfl⟩
  induction free using Nat.strong_induction_on generalizing g with
  | _ free ih =>
    intro hp
    rcases houseTurn_cases rand hp with hstop | ⟨hv, hp', hslot⟩
    · refine ⟨0, fun k hk => ?_, hstop⟩
      rw [Nat.le_zero.mp hk]
      exact hp
    · have hlt := hI.house_lt hv
      have hI' : Inv (houseTurn rand g) := inv_move hI (houseTurn_move hI.shoe hp : Move idle g _)
      obtain ⟨draws, hplays, hends⟩ := ih _ (by omega) hI' rfl hp'
      refine ⟨draws + 1, fun k hk => ?_, hends⟩
      cases k with
      | zero => exact hp
      | succ k => exact hplays k (Nat.le_of_succ_le_succ hk)

/-! ## Every run stays inside the arrays -/

theorem inBounds_of_inv (rand : Nat → Nat) {g : Game} (hI : Inv g) (input : Input) :
    InBounds rand g input where
  hands := by
    intro a ha
    unfold handAccesses at ha
    split at ha
    · split at ha
      · exact inArray_allSlots a ha
      · cases ha
    · split at ha
      · cases ha
      · split at ha
        · cases ha
        · rcases List.mem_append.mp ha with ha | ha
          · rcases List.mem_pair.mp ha with rfl | rfl
            · exact ⟨hI.hands, Nat.zero_lt_succ _⟩
            · exact ⟨hI.hands, Nat.one_lt_succ_succ _⟩
          · exact inArray_printReads hI.hands a ha
    · next h n hp =>
      split at ha
      · cases ha
      · next word _ => exact inArray_action hI hp word a ha
    · cases ha
  house := by
    intro j hj
    unfold houseWrites at hj
    split at hj
    · split at hj
      · cases hj
      · split at hj
        · cases hj
        · rcases List.mem_pair.mp hj with rfl | rfl
          · decide
          · decide
    · split at hj
      · next hv =>
        cases List.mem_singleton.mp hj
        exact hI.house_lt hv
      · cases hj
    · cases hj

/-- For every stream of random numbers and every sequence of bets and actions, every
access to `player.hand` has a hand below `MAX_HANDS` and a slot below `HAND_SIZE`, the
house is dealt to slots below `HAND_SIZE` only, and `house_turn` returns. -/
theorem accesses_in_bounds (rand : Nat → Nat) (inputs : List Input) :
    AllSteps (step rand) (InBounds rand) (mainStart rand) inputs ∧
      AllStates (step rand) (HouseReturns rand) (mainStart rand) inputs := by
  have hany : AllSteps (step rand) (fun _ _ => True) (mainStart rand) inputs :=
    AllSteps.all fun _ _ => trivial
  constructor
  · exact AllSteps.imp_of_inv
      (fun _ i hI _ => ⟨inBounds_of_inv rand hI i, fun _ hs => inv_step hI hs⟩)
      (inv_mainStart rand) hany
  · exact AllStates.of_inv (fun _ _ _ hI _ hs => inv_step hI hs)
      (fun _ hI => houseReturns_of_inv rand hI) (inv_mainStart rand) hany

end Vmwos.Blackjack
