import Mathlib.Algebra.BigOperators.Fin
import Mathlib.Data.Fintype.BigOperators
import Mathlib.Data.Nat.Factorial.BigOperators
import Mathlib.SetTheory.Cardinal.Finite
import Vmwos.Cards

/-!
# The shuffle is fair

`shuffle` makes one choice `0 ≤ j ≤ i` for each `i` from `n - 1` down to 1. The entry that is
swapped to `i` stays there, so the choice can be read off the result.

Result: `fair_shuffle`. On an array of distinct entries the choices and the arrangements of the
entries correspond one to one.
-/

namespace Vmwos.Blackjack

open Nat

/-! ## Definitions -/

/-- The choices of a shuffle of `n` entries, in the order of the calls of `rand()`. The call
number `k` is made at `i = n - 1 - k`. -/
abbrev Choices (n : Nat) := (k : Fin (n - 1)) → Fin (n - k)

/-- The choices that `shuffle` makes of a stream of random numbers, from call `k` on. -/
def choicesOf (rand : Nat → Nat) (k n : Nat) : Choices n := fun j =>
  ⟨rand (k + j) % (n - j), Nat.mod_lt _ (by have := j.isLt; omega)⟩

/-- A stream of random numbers that leads to the choices. -/
def Choices.stream {n : Nat} (c : Choices n) (k : Nat) : Nat :=
  if hk : k < n - 1 then c ⟨k, hk⟩ else 0

/-- The array after a shuffle with the choices. -/
def shuffled {α : Type} (l : List α) (c : Choices l.length) : List α :=
  shuffle c.stream 0 l l.length

variable {α : Type} {l l' : List α} {rand rand' : Nat → Nat} {i k k' : Nat}

/-! ## The loop -/

/-- Only the choices matter. -/
theorem shuffleLoop_congr
    (h : ∀ j < i, rand (k + j) % (i + 1 - j) = rand' (k' + j) % (i + 1 - j)) :
    shuffleLoop rand i k l = shuffleLoop rand' i k' l := by
  induction i generalizing k k' l with
  | zero => rfl
  | succ i ih =>
    have hfirst : rand k % (i + 2) = rand' k' % (i + 2) := h 0 (Nat.succ_pos i)
    rw [shuffleLoop, shuffleLoop, hfirst]
    refine ih fun j hj => ?_
    have hj' := h (j + 1) (Nat.succ_lt_succ hj)
    rwa [← Nat.add_assoc, Nat.add_right_comm, ← Nat.add_assoc, Nat.add_right_comm k' j 1,
      Nat.add_sub_add_right] at hj'

theorem getElem?_swap_of_ne {j m : Nat} (hi : m ≠ i) (hj : m ≠ j) :
    (l.swap i j)[m]? = l[m]? := by
  rcases Nat.lt_or_ge m l.length with hlt | hge
  · rw [List.getElem?_eq_getElem (by simpa using hlt), List.getElem?_eq_getElem hlt,
      List.getElem_swap_of_ne hi hj]
  · rw [List.getElem?_eq_none (by simpa using hge), List.getElem?_eq_none hge]

theorem getElem?_swap_left {j : Nat} (hi : i < l.length) (hj : j < l.length) :
    (l.swap i j)[i]? = l[j]? := by
  rw [List.getElem?_eq_getElem (by simpa using hi), List.getElem?_eq_getElem hj,
    List.getElem_swap_left_of_lt hj]

/-- The entries above `i` stay where they are. -/
theorem getElem?_shuffleLoop {m : Nat} (hm : i < m) :
    (shuffleLoop rand i k l)[m]? = l[m]? := by
  induction i generalizing k l with
  | zero => rfl
  | succ i ih =>
    have hj : rand k % (i + 2) < i + 2 := Nat.mod_lt _ (Nat.succ_pos _)
    rw [shuffleLoop, ih (Nat.lt_of_succ_lt hm), getElem?_swap_of_ne (by omega) (by omega)]

/-- The entry at `i + 1` after the loop is the one that was chosen first. -/
theorem getElem?_shuffleLoop_chosen (hi : i + 1 < l.length) :
    (shuffleLoop rand (i + 1) k l)[i + 1]? = l[rand k % (i + 2)]? := by
  have hj : rand k % (i + 2) < l.length := Nat.lt_of_lt_of_le (Nat.mod_lt _ (Nat.succ_pos _)) hi
  rw [shuffleLoop, getElem?_shuffleLoop (Nat.lt_succ_self i), getElem?_swap_left hi hj]

/-- Equal results come from equal choices. -/
theorem choices_eq_of_shuffleLoop_eq (hl : l.Nodup) (hi : i < l.length)
    (h : shuffleLoop rand i k l = shuffleLoop rand' i k' l) :
    ∀ j < i, rand (k + j) % (i + 1 - j) = rand' (k' + j) % (i + 1 - j) := by
  induction i generalizing k k' l with
  | zero => exact fun j hj => absurd hj (Nat.not_lt_zero j)
  | succ i ih =>
    have hfirst : rand k % (i + 2) = rand' k' % (i + 2) := by
      have hchosen := congrArg (fun r => r[i + 1]?) h
      simp only [getElem?_shuffleLoop_chosen hi] at hchosen
      exact (List.getElem?_inj (Nat.lt_of_lt_of_le (Nat.mod_lt _ (Nat.succ_pos _)) hi) hl).mp
        hchosen
    rw [shuffleLoop, shuffleLoop, hfirst] at h
    have hrest := ih ((List.swap_perm l _ _).nodup_iff.mpr hl)
      (by rw [List.length_swap]; exact Nat.lt_of_succ_lt hi) h
    intro j hj
    cases j with
    | zero => exact hfirst
    | succ j =>
      have hj' := hrest j (Nat.lt_of_succ_lt_succ hj)
      rwa [← Nat.add_assoc, Nat.add_right_comm, ← Nat.add_assoc, Nat.add_right_comm k' j 1,
        Nat.add_sub_add_right]

/-- Two arrangements that agree above `i` have the same entries up to `i`. -/
theorem take_perm (hperm : l'.Perm l) (habove : ∀ m, i < m → l'[m]? = l[m]?) :
    (l'.take (i + 1)).Perm (l.take (i + 1)) := by
  have hdrop : l'.drop (i + 1) = l.drop (i + 1) := by
    refine List.ext_getElem? fun m => ?_
    rw [List.getElem?_drop, List.getElem?_drop]
    exact habove _ (by omega)
  have happend : (l'.take (i + 1) ++ l'.drop (i + 1)).Perm (l.take (i + 1) ++ l.drop (i + 1)) := by
    simpa only [List.take_append_drop] using hperm
  rwa [hdrop, List.perm_append_right_iff] at happend

/-- Every arrangement that agrees above `i` is a result of the loop. -/
theorem exists_shuffleLoop_eq (hperm : l'.Perm l) (hi : i < l.length)
    (habove : ∀ m, i < m → l'[m]? = l[m]?) (k : Nat) : ∃ rand, shuffleLoop rand i k l = l' := by
  induction i generalizing k l with
  | zero =>
    obtain ⟨c, cs, rfl⟩ := List.exists_cons_of_ne_nil (List.ne_nil_of_length_pos hi)
    have hfirst : l'.take 1 = [c] :=
      List.perm_singleton.mp (by simpa using take_perm hperm habove)
    refine ⟨fun _ => 0, ?_⟩
    rw [shuffleLoop]
    refine List.ext_getElem? fun m => ?_
    cases m with
    | zero =>
      have hzero := congrArg (fun r => r[0]?) hfirst
      simpa using hzero.symm
    | succ m => exact (habove (m + 1) (Nat.succ_pos m)).symm
  | succ i ih =>
    have hi' : i + 1 < l'.length := by rwa [hperm.length_eq]
    -- the entry that belongs at `i + 1` is at some `j` of the front
    have hmem : l'[i + 1] ∈ l.take (i + 2) :=
      (take_perm hperm habove).mem_iff.mp
        (List.mem_take_iff_getElem.mpr ⟨i + 1, by omega, rfl⟩)
    obtain ⟨j, hj, hget⟩ := List.mem_take_iff_getElem.mp hmem
    have hperm' : l'.Perm (l.swap (i + 1) j) := hperm.trans (List.swap_perm l _ _).symm
    have habove' : ∀ m, i < m → l'[m]? = (l.swap (i + 1) j)[m]? := by
      intro m hm
      by_cases hchosen : m = i + 1
      · subst hchosen
        rw [getElem?_swap_left hi (by omega), List.getElem?_eq_getElem hi',
          List.getElem?_eq_getElem (by omega), hget]
      · rw [getElem?_swap_of_ne hchosen (by omega)]
        exact habove m (by omega)
    obtain ⟨rand, hrand⟩ := ih hperm' (by rw [List.length_swap]; omega) habove' (k + 1)
    refine ⟨Function.update rand k j, ?_⟩
    rw [shuffleLoop, Function.update_self, Nat.mod_eq_of_lt (by omega), ← hrand]
    refine shuffleLoop_congr fun m _ => ?_
    rw [Function.update_of_ne (by omega)]

/-! ## The choices -/

theorem choicesOf_stream {n : Nat} (c : Choices n) : choicesOf c.stream 0 n = c := by
  funext j
  refine Fin.ext ?_
  show (c.stream (0 + j)) % (n - j) = _
  rw [Nat.zero_add, Choices.stream, dif_pos j.isLt]
  exact Nat.mod_eq_of_lt (c j).isLt

/-- A shuffle is determined by its choices. -/
theorem shuffle_eq_shuffled (l : List α) (rand : Nat → Nat) (k : Nat) :
    shuffle rand k l l.length = shuffled l (choicesOf rand k l.length) := by
  refine shuffleLoop_congr fun j hj => ?_
  have hmod : rand (k + j) % (l.length - 1 + 1 - j) < l.length - 1 + 1 - j :=
    Nat.mod_lt _ (by omega)
  rw [Nat.zero_add, Choices.stream, dif_pos hj]
  show _ = rand (k + j) % (l.length - j) % _
  rw [show l.length - j = l.length - 1 + 1 - j by omega, Nat.mod_mod]

theorem shuffled_perm (l : List α) (c : Choices l.length) : (shuffled l c).Perm l :=
  shuffleLoop_perm _ _ _ _

theorem shuffled_injective (hl : l.Nodup) : Function.Injective (shuffled l) := by
  intro c d h
  rcases Nat.eq_zero_or_pos l.length with hzero | hpos
  · funext j
    exact absurd j.isLt (by omega)
  · have hchoices := choices_eq_of_shuffleLoop_eq hl (by omega) h
    rw [← choicesOf_stream c, ← choicesOf_stream d]
    funext j
    refine Fin.ext ?_
    have hj := hchoices j j.isLt
    rwa [Nat.sub_add_cancel hpos] at hj

/-- Every arrangement of an array is the result of a shuffle. -/
theorem exists_shuffle_eq (hperm : l'.Perm l) (k : Nat) :
    ∃ rand, shuffle rand k l l.length = l' := by
  rcases Nat.eq_zero_or_pos l.length with hzero | hpos
  · have hnil : l = [] := List.length_eq_zero_iff.mp hzero
    subst hnil
    exact ⟨fun _ => 0, hperm.eq_nil.symm⟩
  · refine exists_shuffleLoop_eq hperm (by omega) (fun m hm => ?_) k
    rw [List.getElem?_eq_none (by rw [hperm.length_eq]; omega), List.getElem?_eq_none (by omega)]

theorem card_choices (n : Nat) : Nat.card (Choices n) = n ! := by
  have hprod : ∏ k : Fin (n - 1), (n - k) = n.descFactorial (n - 1) := by
    rw [Nat.descFactorial_eq_prod_range, Finset.prod_range]
  have hfactor := Nat.factorial_mul_descFactorial (Nat.sub_le n 1)
  rw [Nat.card_eq_fintype_card, Fintype.card_pi]
  simp only [Fintype.card_fin, hprod]
  rcases Nat.eq_zero_or_pos n with rfl | hpos
  · rfl
  · rwa [Nat.sub_sub_self hpos, Nat.factorial_one, Nat.one_mul] at hfactor

/-- The result of a shuffle depends on the choices alone, and on distinct entries the choices
and the arrangements correspond one to one. There are `n!` of either. -/
theorem fair_shuffle (l : List α) (hl : l.Nodup) :
    (∀ rand k, shuffle rand k l l.length = shuffled l (choicesOf rand k l.length)) ∧
      Function.Bijective (fun c : Choices l.length =>
        (⟨shuffled l c, shuffled_perm l c⟩ : { l' : List α // l'.Perm l })) ∧
      Nat.card (Choices l.length) = l.length ! ∧
      Nat.card { l' : List α // l'.Perm l } = l.length ! := by
  have hbij : Function.Bijective (fun c : Choices l.length =>
      (⟨shuffled l c, shuffled_perm l c⟩ : { l' : List α // l'.Perm l })) := by
    constructor
    · intro c d h
      exact shuffled_injective hl (congrArg Subtype.val h)
    · rintro ⟨l', hperm⟩
      obtain ⟨rand, hrand⟩ := exists_shuffle_eq hperm 0
      exact ⟨choicesOf rand 0 l.length, Subtype.ext ((shuffle_eq_shuffled l rand 0).symm.trans hrand)⟩
  refine ⟨shuffle_eq_shuffled l, hbij, card_choices _, ?_⟩
  rw [← card_choices]
  exact (Nat.card_eq_of_bijective _ hbij).symm

/-- Three entries have six arrangements, one for each choice of `j₂ ≤ 2` and `j₁ ≤ 1`. -/
theorem fair_shuffle_three : Function.Bijective (fun c : Choices [1, 2, 3].length =>
      (⟨shuffled [1, 2, 3] c, shuffled_perm [1, 2, 3] c⟩ : { l : List Nat // l.Perm [1, 2, 3] })) ∧
    Nat.card { l : List Nat // l.Perm [1, 2, 3] } = 6 := by
  obtain ⟨_, hbij, _, hcard⟩ := fair_shuffle [1, 2, 3] (by decide)
  exact ⟨hbij, hcard⟩

end Vmwos.Blackjack
