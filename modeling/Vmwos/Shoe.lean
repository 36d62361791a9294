import Vmwos.Cards

/-!
# Dealing from the shoe

`pop_shoe` over any number of calls, after the `create_shoe` and `shuffle` of `main`. The
shoe is an array that moves up by one with each pop and is filled with empty strings from
below; the pop that finds one on top shuffles a new shoe first.

Result: `shoe_deals_every_card`. Every 312 pops deal the 312 cards of `create_shoe`, in some
order, and the shoe is shuffled again at the pops 312, 624 and so on.
-/

namespace Vmwos.Blackjack

/-! ## Definitions -/

/-- The shoe after a number of pops. -/
def shoeAfter (rand : Nat → Nat) : Nat → Shoe
  | 0 => newShoe rand 0
  | n + 1 => (popShoe rand (shoeAfter rand n)).2

/-- The card of a pop. Pops are numbered from 0. -/
def popped (rand : Nat → Nat) (n : Nat) : Card := (popShoe rand (shoeAfter rand n)).1

/-- The test of `pop_shoe` for a shoe that has run out, and is shuffled again. -/
def Shoe.RunsOut (shoe : Shoe) : Prop := strncmp (shoe.cards.headD []) [] 1 = 0

variable {rand : Nat → Nat} {n : Nat}

/-! ## One shoe -/

theorem length_createShoe : createShoe.length = shoeSize := by decide +kernel

theorem not_runsOut_of_card {shoe : Shoe} {c : Card} {cs : List Card} (h : shoe.cards = c :: cs)
    (hc : IsCard c) : ¬shoe.RunsOut := by
  rw [Shoe.RunsOut, h]
  exact hc.strncmp_empty

/-- A shoe that has run out is popped like a new one. -/
theorem popShoe_runsOut {shoe : Shoe} (h : shoe.RunsOut) :
    popShoe rand shoe = popShoe rand (newShoe rand shoe.calls) := by
  obtain ⟨d, ds, hds, hcards⟩ := newShoe_cons rand shoe.calls
  have htop : ¬strncmp ((newShoe rand shoe.calls).cards.headD []) [] 1 = 0 :=
    not_runsOut_of_card hds (hcards d List.mem_cons_self)
  have hout : strncmp (shoe.cards.headD []) [] 1 = 0 := h
  simp only [popShoe, if_pos hout, if_neg htop]

/-- The pop number `n` is the first of a full shoe with the cards `cs`. -/
structure StartsShoe (rand : Nat → Nat) (n : Nat) (cs : List Card) : Prop where
  perm : cs.Perm createShoe
  pops : ∃ shoe : Shoe, shoe.cards = cs ∧ popShoe rand (shoeAfter rand n) = popShoe rand shoe

variable {cs : List Card} {i : Nat}

theorem StartsShoe.length (h : StartsShoe rand n cs) : cs.length = shoeSize := by
  rw [h.perm.length_eq, length_createShoe]

theorem StartsShoe.isCard (h : StartsShoe rand n cs) {c : Card} (hc : c ∈ cs) : IsCard c :=
  mem_createShoe.mp (h.perm.mem_iff.mp hc)

/-- After some pops the rest of the cards is on top of empty strings. -/
theorem StartsShoe.deals (h : StartsShoe rand n cs) (hi : i < cs.length) :
    (shoeAfter rand (n + i + 1)).cards = cs.drop (i + 1) ++ List.replicate (i + 1) [] ∧
      popped rand (n + i) = cs.get ⟨i, hi⟩ := by
  induction i with
  | zero =>
    obtain ⟨shoe, hshoe, hpop⟩ := h.pops
    have hs : shoe.cards = cs.get ⟨0, hi⟩ :: cs.drop 1 ++ List.replicate 0 [] := by
      rw [hshoe, List.replicate_zero, List.append_nil]
      exact List.drop_eq_getElem_cons hi
    have hfirst : popShoe rand shoe = _ := popShoe_of_card hs (h.isCard (List.get_mem _ _))
    constructor
    · show (popShoe rand (shoeAfter rand n)).2.cards = _
      rw [hpop, hfirst]
    · show (popShoe rand (shoeAfter rand n)).1 = _
      rw [hpop, hfirst]
  | succ i ih =>
    obtain ⟨hcards, _⟩ := ih (Nat.lt_of_succ_lt hi)
    rw [List.drop_eq_getElem_cons hi] at hcards
    have hnext : popShoe rand (shoeAfter rand (n + i + 1)) = _ :=
      popShoe_of_card hcards (h.isCard (List.getElem_mem hi))
    constructor
    · show (popShoe rand (shoeAfter rand (n + i + 1))).2.cards = _
      rw [hnext]
    · show (popShoe rand (shoeAfter rand (n + i + 1))).1 = _
      rw [hnext]
      rfl

/-- The shoe does not run out before its last card. -/
theorem StartsShoe.not_runsOut (h : StartsShoe rand n cs) (hi : i + 1 < cs.length) :
    ¬(shoeAfter rand (n + i + 1)).RunsOut := by
  obtain ⟨hcards, _⟩ := h.deals (Nat.lt_of_succ_lt hi)
  rw [List.drop_eq_getElem_cons hi] at hcards
  exact not_runsOut_of_card hcards (h.isCard (List.getElem_mem hi))

/-! ## Every shoe -/

/-- Every multiple of 312 pops starts a full shoe, shuffled by the pop after the first. -/
theorem startsShoe (rand : Nat → Nat) (m : Nat) :
    ∃ cs, StartsShoe rand (shoeSize * m) cs ∧ ((shoeAfter rand (shoeSize * m)).RunsOut ↔ 0 < m) := by
  induction m with
  | zero =>
    obtain ⟨d, ds, hds, hcards⟩ := newShoe_cons rand 0
    refine ⟨_, ⟨newShoe_perm rand 0, _, rfl, rfl⟩, iff_of_false ?_ (Nat.lt_irrefl 0)⟩
    exact not_runsOut_of_card hds (hcards d List.mem_cons_self)
  | succ m ih =>
    obtain ⟨cs, hstart, _⟩ := ih
    have hlen := hstart.length
    -- after its last card the shoe has only empty strings
    have hlast : shoeSize - 1 < cs.length := by
      rw [hlen]
      decide
    obtain ⟨hcards, _⟩ := hstart.deals hlast
    have hindex : shoeSize * m + (shoeSize - 1) + 1 = shoeSize * (m + 1) := by
      unfold shoeSize
      omega
    rw [hindex] at hcards
    have hout : (shoeAfter rand (shoeSize * (m + 1))).RunsOut := by
      rw [Shoe.RunsOut, hcards, List.drop_eq_nil_of_le (by rw [hlen]; decide)]
      rfl
    exact ⟨_, ⟨newShoe_perm rand _, _, rfl, popShoe_runsOut hout⟩,
      iff_of_true hout (Nat.succ_pos m)⟩

theorem count_createShoe {r s : Char} (hr : r ∈ ranks) (hs : s ∈ suits) :
    createShoe.count [r, s] = 6 := by
  have hall : (ranks.all fun r => suits.all fun s => createShoe.count [r, s] = 6) = true := by
    decide +kernel
  exact of_decide_eq_true (List.all_eq_true.mp (List.all_eq_true.mp hall r hr) s hs)

/-- Every 312 pops deal the cards of `create_shoe`, six of each, and exactly the pops whose
numbers are positive multiples of 312 shuffle again. -/
theorem shoe_deals_every_card (rand : Nat → Nat) :
    (∀ n, IsCard (popped rand n)) ∧
      (∀ m, ((List.range shoeSize).map fun i => popped rand (shoeSize * m + i)).Perm createShoe) ∧
      (∀ r ∈ ranks, ∀ s ∈ suits, createShoe.count [r, s] = 6) ∧
      ∀ n, (shoeAfter rand n).RunsOut ↔ 0 < n ∧ shoeSize ∣ n := by
  have hsize : 0 < shoeSize := by decide
  refine ⟨fun n => ?_, fun m => ?_, fun r hr s hs => count_createShoe hr hs, fun n => ?_⟩
  · obtain ⟨cs, hstart, _⟩ := startsShoe rand (n / shoeSize)
    have hlt : n % shoeSize < cs.length := by
      rw [hstart.length]
      exact Nat.mod_lt _ hsize
    obtain ⟨_, hpopped⟩ := hstart.deals hlt
    rw [Nat.div_add_mod] at hpopped
    rw [hpopped]
    exact hstart.isCard (List.get_mem _ _)
  · obtain ⟨cs, hstart, _⟩ := startsShoe rand m
    have hdealt : ((List.range shoeSize).map fun i => popped rand (shoeSize * m + i)) = cs := by
      refine List.ext_getElem (by rw [List.length_map, List.length_range, hstart.length])
        fun i hi hi' => ?_
      rw [List.getElem_map, List.getElem_range, (hstart.deals hi').2]
      rfl
    rw [hdealt]
    exact hstart.perm
  · obtain ⟨cs, hstart, hout⟩ := startsShoe rand (n / shoeSize)
    by_cases hdvd : shoeSize ∣ n
    · rw [Nat.mul_div_cancel' hdvd] at hout
      rw [hout, and_iff_left hdvd, Nat.div_pos_iff]
      exact ⟨fun h => Nat.lt_of_lt_of_le hsize h.2, fun h => ⟨hsize, Nat.le_of_dvd h hdvd⟩⟩
    · refine iff_of_false ?_ fun h => hdvd h.2
      have hlen := hstart.length
      have hmod := Nat.mod_lt n hsize
      have hpos : n % shoeSize ≠ 0 := fun hzero => hdvd (Nat.dvd_of_mod_eq_zero hzero)
      have hn : shoeSize * (n / shoeSize) + (n % shoeSize - 1) + 1 = n := by
        have hdiv := Nat.div_add_mod n shoeSize
        omega
      rw [← hn]
      exact hstart.not_runsOut (by omega)

end Vmwos.Blackjack
