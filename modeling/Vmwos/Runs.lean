import Mathlib.Data.List.Basic
import Mathlib.Tactic.Linarith

/-!
# Runs of a partial step function

A system is a step function `step : σ → ι → Option σ`: it takes the state and
one input, and `none` means that the step does not complete (the code faults or
never returns). A run feeds a list of inputs to the system, one step each.

* `run step s is`: the state after the inputs, if every step completes.
* `AllSteps step C s is`: `C` holds of the state and the input of every step.
* `AllStates step P s is`: `P` holds in every state of the run.

The rules turn a fact about one step into a fact about runs of any length:
`AllSteps.imp_of_inv`, `AllSteps.iff_of_inv`, `AllStates.of_inv`, `AllStates.iff_of_steps`,
`AllStates.iff_of_inv`, `run_completes`, `run_eq_of_inv` and `run_measure`.
-/

namespace Runs

universe u v

variable {σ : Type u} {ι : Type v}

/-! ## Definitions -/

/-- The state after the inputs `is`, one step each. -/
def run (step : σ → ι → Option σ) : σ → List ι → Option σ
  | s, [] => some s
  | s, i :: is => (step s i).bind fun s' => run step s' is

/-- `C` holds at every step of the run, of the state before it and its input. -/
def AllSteps (step : σ → ι → Option σ) (C : σ → ι → Prop) : σ → List ι → Prop
  | _, [] => True
  | s, i :: is =>
    C s i ∧
      match step s i with
      | none => True
      | some s' => AllSteps step C s' is

/-- `P` holds in every state of the run, the first and the last included. -/
def AllStates (step : σ → ι → Option σ) (P : σ → Prop) : σ → List ι → Prop
  | s, [] => P s
  | s, i :: is =>
    P s ∧
      match step s i with
      | none => True
      | some s' => AllStates step P s' is

/-! ## Unfolding -/

variable {step : σ → ι → Option σ} {C D : σ → ι → Prop} {P I : σ → Prop}

@[simp] theorem allSteps_nil (s : σ) : AllSteps step C s [] := trivial

theorem allSteps_cons {s : σ} {i : ι} {is : List ι} :
    AllSteps step C s (i :: is) ↔
      C s i ∧ ∀ s', step s i = some s' → AllSteps step C s' is := by
  cases h : step s i with
  | none => simp [AllSteps, h]
  | some s' => simp [AllSteps, h]

theorem allStates_cons {s : σ} {i : ι} {is : List ι} :
    AllStates step P s (i :: is) ↔
      P s ∧ ∀ s', step s i = some s' → AllStates step P s' is := by
  cases h : step s i with
  | none => simp [AllStates, h]
  | some s' => simp [AllStates, h]

instance AllSteps.decidable [∀ s i, Decidable (C s i)] :
    ∀ (s : σ) (is : List ι), Decidable (AllSteps step C s is)
  | _, [] => .isTrue trivial
  | s, i :: is =>
    match h : step s i with
    | none => decidable_of_iff (C s i) (by simp [AllSteps, h])
    | some s' =>
      have : Decidable (AllSteps step C s' is) := AllSteps.decidable s' is
      decidable_of_iff (C s i ∧ AllSteps step C s' is) (by simp [AllSteps, h])

theorem run_cons_some {s s' : σ} {i : ι} {is : List ι} (h : step s i = some s') :
    run step s (i :: is) = run step s' is := by
  simp [run, h]

/-! ## Rules -/

theorem AllSteps.all (h : ∀ s i, C s i) {s : σ} {is : List ι} : AllSteps step C s is := by
  induction is generalizing s with
  | nil => trivial
  | cons i is ih => exact allSteps_cons.mpr ⟨h s i, fun _ _ => ih⟩

theorem allSteps_and {s : σ} {is : List ι} :
    AllSteps step (fun s i => C s i ∧ D s i) s is ↔ AllSteps step C s is ∧ AllSteps step D s is := by
  induction is generalizing s with
  | nil => simp
  | cons i is ih =>
    simp only [allSteps_cons, ih]
    constructor
    · rintro ⟨⟨hC, hD⟩, h⟩
      exact ⟨⟨hC, fun s' hs' => (h s' hs').1⟩, hD, fun s' hs' => (h s' hs').2⟩
    · rintro ⟨⟨hC, h⟩, hD, h'⟩
      exact ⟨⟨hC, hD⟩, fun s' hs' => ⟨h s' hs', h' s' hs'⟩⟩

/-- A state predicate along a run: it holds at the start, and after every step. -/
theorem allStates_iff_allSteps {s : σ} {is : List ι} :
    AllStates step P s is ↔
      P s ∧ AllSteps step (fun s i => ∀ s', step s i = some s' → P s') s is := by
  induction is generalizing s with
  | nil => simp [AllStates]
  | cons i is ih =>
    simp only [allStates_cons, allSteps_cons, ih]
    constructor
    · rintro ⟨hP, h⟩
      exact ⟨hP, fun s' hs' => (h s' hs').1, fun s' hs' => (h s' hs').2⟩
    · rintro ⟨hP, h, h'⟩
      exact ⟨hP, fun s' hs' => ⟨h s' hs', h' s' hs'⟩⟩

/-- A state predicate along a run holds in its last state. -/
theorem AllStates.last {s t : σ} {is : List ι} (h : AllStates step P s is)
    (ht : run step s is = some t) : P t := by
  induction is generalizing s with
  | nil =>
    cases ht
    exact h
  | cons i is ih =>
    cases hi : step s i with
    | none => simp [run, hi] at ht
    | some s' =>
      rw [run_cons_some hi] at ht
      exact ih ((allStates_cons.mp h).2 s' hi) ht

/-- A condition on the steps of a run holds at its last step. -/
theorem AllSteps.last {s t : σ} {i : ι} {is : List ι} (h : AllSteps step C s (is ++ [i]))
    (ht : run step s is = some t) : C t i := by
  induction is generalizing s with
  | nil =>
    cases ht
    exact (allSteps_cons.mp h).1
  | cons j is ih =>
    cases hj : step s j with
    | none => simp [run, hj] at ht
    | some s' =>
      rw [run_cons_some hj] at ht
      exact ih ((allSteps_cons.mp h).2 s' hj) ht

/-- A weaker condition. -/
theorem AllSteps.mono (h : ∀ s i, C s i → D s i) {s : σ} {is : List ι} (hC : AllSteps step C s is) :
    AllSteps step D s is := by
  induction is generalizing s with
  | nil => trivial
  | cons i is ih =>
    rw [allSteps_cons] at hC ⊢
    exact ⟨h s i hC.1, fun s' hs' => ih (hC.2 s' hs')⟩

/-- A run whose steps all meet `C` meets `D` at every step, when one step from an
invariant state does and keeps the invariant. -/
theorem AllSteps.imp_of_inv
    (hstep : ∀ s i, I s → C s i → D s i ∧ ∀ s', step s i = some s' → I s')
    {s : σ} {is : List ι} (hs : I s) (h : AllSteps step C s is) : AllSteps step D s is := by
  induction is generalizing s with
  | nil => trivial
  | cons i is ih =>
    rw [allSteps_cons] at h ⊢
    obtain ⟨hD, hInv⟩ := hstep s i hs h.1
    exact ⟨hD, fun s' hs' => ih (hInv s' hs') (h.2 s' hs')⟩

/-- The exact form of `AllSteps.imp_of_inv`: the condition `C` is what `D` needs at
the first step that could break it, so the two hold of the same runs. -/
theorem AllSteps.iff_of_inv
    (hiff : ∀ s i, I s → (C s i ↔ D s i))
    (hstep : ∀ s i s', I s → C s i → step s i = some s' → I s')
    {s : σ} {is : List ι} (hs : I s) : AllSteps step C s is ↔ AllSteps step D s is := by
  constructor
  · exact AllSteps.imp_of_inv
      (fun s i hi hc => ⟨(hiff s i hi).mp hc, fun s' => hstep s i s' hi hc⟩) hs
  · exact AllSteps.imp_of_inv
      (fun s i hi hd =>
        ⟨(hiff s i hi).mpr hd, fun s' => hstep s i s' hi ((hiff s i hi).mpr hd)⟩) hs

/-- The same in runs whose steps all meet `A`. -/
theorem AllSteps.iff_within {A : σ → ι → Prop}
    (hiff : ∀ s i, I s → A s i → (C s i ↔ D s i))
    (hstep : ∀ s i s', I s → A s i → C s i → step s i = some s' → I s')
    {s : σ} {is : List ι} (hs : I s) (hA : AllSteps step A s is) :
    AllSteps step C s is ↔ AllSteps step D s is := by
  have hboth : AllSteps step (fun s i => A s i ∧ C s i) s is ↔
      AllSteps step (fun s i => A s i ∧ D s i) s is :=
    AllSteps.iff_of_inv (fun s i hi => and_congr_right (hiff s i hi))
      (fun s i s' hi hc => hstep s i s' hi hc.1 hc.2) hs
  rwa [allSteps_and, allSteps_and, and_iff_right hA, and_iff_right hA] at hboth

/-- An invariant of every step that meets `C` holds in every state of a run whose
steps all meet `C`. -/
theorem AllStates.of_inv
    (hstep : ∀ s i s', I s → C s i → step s i = some s' → I s')
    (hP : ∀ s, I s → P s)
    {s : σ} {is : List ι} (hs : I s) (h : AllSteps step C s is) : AllStates step P s is := by
  induction is generalizing s with
  | nil => exact hP s hs
  | cons i is ih =>
    rw [allSteps_cons] at h
    rw [allStates_cons]
    exact ⟨hP s hs, fun s' hs' => ih (hstep s i s' hs h.1 hs') (h.2 s' hs')⟩

theorem AllStates.head {s : σ} {is : List ι} (h : AllStates step P s is) : P s := by
  cases is with
  | nil => exact h
  | cons i is => exact (allStates_cons.mp h).1

/-- In runs whose steps all meet `A`, the condition `C` on the steps is exactly what `P` needs
in every state, when it is what `P` needs after one step and `P` brings back the invariant. At a
step that does not complete, `C` holds. -/
theorem AllStates.iff_of_steps {A : σ → ι → Prop} (hP : ∀ s, I s → P s)
    (hstep : ∀ s i s', I s → A s i → step s i = some s' → (C s i ↔ P s') ∧ (P s' → I s'))
    (hnone : ∀ s i, I s → A s i → step s i = none → C s i)
    {s : σ} {is : List ι} (hs : I s) (hA : AllSteps step A s is) :
    AllStates step P s is ↔ AllSteps step C s is := by
  induction is generalizing s with
  | nil => exact ⟨fun _ => trivial, fun _ => hP s hs⟩
  | cons i is ih =>
    rw [allSteps_cons] at hA
    rw [allStates_cons, allSteps_cons]
    cases hi : step s i with
    | none =>
      refine iff_of_true ⟨hP s hs, fun t ht => by cases ht⟩ ⟨hnone s i hs hA.1 hi, fun t ht => ?_⟩
      cases ht
    | some s' =>
      obtain ⟨hiff, hI⟩ := hstep s i s' hs hA.1 hi
      constructor
      · rintro ⟨_, h⟩
        have hs' := h s' rfl
        refine ⟨hiff.mpr hs'.head, fun t ht => ?_⟩
        cases ht
        exact (ih (hI hs'.head) (hA.2 s' hi)).mp hs'
      · rintro ⟨hC, h⟩
        refine ⟨hP s hs, fun t ht => ?_⟩
        cases ht
        exact (ih (hI (hiff.mp hC)) (hA.2 s' hi)).mpr (h s' rfl)

/-- The same, when every step completes. -/
theorem AllStates.iff_of_inv {A : σ → ι → Prop} (hP : ∀ s, I s → P s)
    (hstep : ∀ s i, I s → A s i → ∃ s', step s i = some s' ∧ (C s i ↔ P s') ∧ (P s' → I s'))
    {s : σ} {is : List ι} (hs : I s) (hA : AllSteps step A s is) :
    AllStates step P s is ↔ AllSteps step C s is := by
  refine AllStates.iff_of_steps hP (fun s i s' hi ha hs' => ?_) (fun s i hi ha hnone => ?_) hs hA
  · obtain ⟨t, ht, hiff⟩ := hstep s i hi ha
    cases ht.symm.trans hs'
    exact hiff
  · obtain ⟨t, ht, _⟩ := hstep s i hi ha
    cases ht.symm.trans hnone

/-- A run completes, when every step from an invariant state that meets `C` does. -/
theorem run_completes
    (hstep : ∀ s i, I s → C s i → ∃ s', step s i = some s' ∧ I s')
    {s : σ} {is : List ι} (hs : I s) (h : AllSteps step C s is) : ∃ t, run step s is = some t := by
  induction is generalizing s with
  | nil => exact ⟨s, rfl⟩
  | cons i is ih =>
    rw [allSteps_cons] at h
    obtain ⟨s', hi, hs'⟩ := hstep s i hs h.1
    rw [run_cons_some hi]
    exact ih hs' (h.2 s' hi)

/-- Two systems have the same run, when they agree on every step from an invariant state that
meets `C`. -/
theorem run_eq_of_inv {step' : σ → ι → Option σ}
    (hstep : ∀ s i, I s → C s i → step s i = step' s i ∧ ∀ s', step s i = some s' → I s')
    {s : σ} {is : List ι} (hs : I s) (h : AllSteps step C s is) :
    run step s is = run step' s is := by
  induction is generalizing s with
  | nil => rfl
  | cons i is ih =>
    rw [allSteps_cons] at h
    obtain ⟨heq, hInv⟩ := hstep s i hs h.1
    cases hi : step s i with
    | none => simp only [run, ← heq, hi, Option.bind_none]
    | some s' =>
      rw [run_cons_some hi, run_cons_some (heq.symm.trans hi)]
      exact ih (hInv s' hi) (h.2 s' hi)

/-- A measure that every step with `c` lowers, and no other step raises. Along a run it falls by the
number of these steps, or to 0. -/
theorem run_measure {m : σ → Nat} {c : ι → Bool}
    (hstep : ∀ s i s', I s → C s i → step s i = some s' →
      I s' ∧ m s' ≤ m s - if c i then 1 else 0)
    {s t : σ} {is : List ι} (hs : I s) (h : AllSteps step C s is) (ht : run step s is = some t) :
    I t ∧ m t ≤ m s - is.countP c := by
  induction is generalizing s with
  | nil =>
    cases ht
    exact ⟨hs, le_refl _⟩
  | cons i is ih =>
    rw [allSteps_cons] at h
    obtain ⟨s', hi, ht⟩ := Option.bind_eq_some_iff.mp ht
    obtain ⟨hs', hle⟩ := hstep s i s' hs h.1 hi
    obtain ⟨hInv, hle'⟩ := ih hs' (h.2 s' hi) ht
    refine ⟨hInv, hle'.trans ?_⟩
    rw [List.countP_cons]
    omega

end Runs
