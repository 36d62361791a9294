import Mathlib.Data.List.Nodup
import Mathlib.Data.List.Perm.Subperm
import Mathlib.Logic.Function.Basic
import Mathlib.Tactic.Linarith

/-!
# Chains of pointers

A link field `next : α → Option α` maps each cell to the cell it points to, or to the null
pointer. `Linked next p l` says that following it from `p` visits the cells `l`, in this
order, and then reaches the null pointer.

Such a chain is unique (`Linked.unique`) and never visits a cell twice (`Linked.nodup`).
It depends on the links of its own cells only (`Linked.congr`). `Linked.snoc` and
`Linked.remove` are the two changes of a link that append a cell and take one out.
`Backward` is the same for the links of a doubly linked list that lead back.

`Reach next p a` says that following the links from `p` leads to the cell `a`, for any links.
-/

namespace Chains

variable {α : Type*} {next : α → Option α} {p : Option α} {a : α} {l l₁ l₂ : List α}

/-- The cells from `p` on are `l`. -/
inductive Linked (next : α → Option α) : Option α → List α → Prop
  | nil : Linked next none []
  | cons {a : α} {l : List α} : Linked next (next a) l → Linked next (some a) (a :: l)

theorem Linked.unique (h₁ : Linked next p l₁) (h₂ : Linked next p l₂) : l₁ = l₂ := by
  induction h₁ generalizing l₂ with
  | nil =>
    cases h₂
    rfl
  | cons _ ih =>
    cases h₂ with
    | cons h₂ => rw [ih h₂]

/-- A cell of a chain starts a chain that is no longer. -/
theorem Linked.suffix (h : Linked next p l) (ha : a ∈ l) :
    ∃ l', Linked next (some a) l' ∧ l'.length ≤ l.length := by
  induction h with
  | nil => exact absurd ha List.not_mem_nil
  | @cons b l hb ih =>
    rcases List.mem_cons.mp ha with rfl | ha
    · exact ⟨_, .cons hb, Nat.le_refl _⟩
    · obtain ⟨l', hl', hle⟩ := ih ha
      exact ⟨l', hl', Nat.le_succ_of_le hle⟩

theorem Linked.nodup (h : Linked next p l) : l.Nodup := by
  induction h with
  | nil => exact .nil
  | @cons a l h ih =>
    refine List.nodup_cons.mpr ⟨fun ha => ?_, ih⟩
    -- the chain from the second visit is shorter than the one from the first
    obtain ⟨l', hl', hle⟩ := h.suffix ha
    have hlen := congrArg List.length ((Linked.cons h).unique hl')
    rw [List.length_cons] at hlen
    omega

theorem Linked.head (h : Linked next p (a :: l)) : p = some a ∧ Linked next (next a) l := by
  cases h with
  | cons h => exact ⟨rfl, h⟩

/-- A chain starts anywhere on its way. -/
theorem Linked.drop (h : Linked next p (l₁ ++ a :: l₂)) : Linked next (some a) (a :: l₂) := by
  induction l₁ generalizing p with
  | nil =>
    obtain ⟨rfl, _⟩ := h.head
    exact h
  | cons b l₁ ih => exact ih h.head.2

/-- The link between neighbours. -/
theorem Linked.next_eq {b : α} (h : Linked next p (l₁ ++ a :: b :: l₂)) : next a = some b :=
  h.drop.head.2.head.1

/-- The link of the last cell. -/
theorem Linked.last_eq (h : Linked next p (l ++ [a])) : next a = none := by
  have hnil := h.drop.head.2
  generalize next a = q at hnil
  cases hnil
  rfl

theorem Linked.congr {next' : α → Option α} (h : Linked next p l)
    (hnext : ∀ a ∈ l, next' a = next a) : Linked next' p l := by
  induction h with
  | nil => exact .nil
  | @cons a l _ ih =>
    refine .cons ?_
    rw [hnext a List.mem_cons_self]
    exact ih fun b hb => hnext b (List.mem_cons_of_mem _ hb)

section Update

variable [DecidableEq α]

instance Linked.decidable (next : α → Option α) :
    (p : Option α) → (l : List α) → Decidable (Linked next p l)
  | none, [] => .isTrue .nil
  | none, _ :: _ => .isFalse fun h => by cases h
  | some _, [] => .isFalse fun h => by cases h
  | some a, b :: l =>
    if hab : a = b then
      match Linked.decidable next (next a) l with
      | .isTrue h => .isTrue (hab ▸ .cons h)
      | .isFalse h => .isFalse fun hl => h (hab ▸ hl.head.2)
    else .isFalse fun h => hab (Option.some.inj h.head.1)

/-- Where a value of an updated function comes from. -/
theorem of_update_eq {β : Type*} {f : α → β} {b : α} {x y : β} (h : Function.update f a x b = y) :
    b = a ∧ x = y ∨ b ≠ a ∧ f b = y := by
  by_cases hba : b = a
  · rw [hba, Function.update_self] at h
    exact .inl ⟨hba, h⟩
  · rw [Function.update_of_ne hba] at h
    exact .inr ⟨hba, h⟩

theorem Linked.update (h : Linked next p l) (ha : a ∉ l) (v : Option α) :
    Linked (Function.update next a v) p l :=
  h.congr fun b hb => Function.update_of_ne (fun heq : b = a => ha (heq ▸ hb)) _ _

/-- A cell behind the last one. -/
theorem Linked.snoc {z : α} (h : Linked next p (l ++ [z])) (ha : a ∉ l ++ [z])
    (hnull : next a = none) : Linked (Function.update next z (some a)) p (l ++ [z, a]) := by
  have hne : a ≠ z := fun heq => ha (by simp [heq])
  have hz : z ∉ l := by
    have hnodup := h.nodup
    rw [List.nodup_append] at hnodup
    intro hz
    exact hnodup.2.2 z hz z List.mem_cons_self rfl
  induction l generalizing p with
  | nil =>
    obtain ⟨rfl, _⟩ := h.head
    refine .cons ?_
    rw [Function.update_self]
    refine .cons ?_
    rw [Function.update_of_ne hne, hnull]
    exact .nil
  | cons b l ih =>
    obtain ⟨rfl, htail⟩ := h.head
    have hb : b ≠ z := fun heq => hz (by simp [heq])
    refine .cons ?_
    rw [Function.update_of_ne hb]
    exact ih htail (fun hmem => ha (List.mem_cons_of_mem _ hmem))
      fun hmem => hz (List.mem_cons_of_mem _ hmem)

/-- The cell behind `a` is taken out. -/
theorem Linked.remove {b : α} (h : Linked next p (l₁ ++ a :: b :: l₂)) :
    Linked (Function.update next a (next b)) p (l₁ ++ a :: l₂) := by
  have hnodup := h.nodup
  induction l₁ generalizing p with
  | nil =>
    obtain ⟨rfl, htail⟩ := h.head
    obtain ⟨_, hrest⟩ := htail.head
    refine .cons ?_
    rw [Function.update_self]
    refine hrest.update ?_ _
    intro hmem
    exact (List.nodup_cons.mp hnodup).1 (List.mem_cons_of_mem _ hmem)
  | cons c l₁ ih =>
    obtain ⟨rfl, htail⟩ := h.head
    obtain ⟨hc, hnodup⟩ := List.nodup_cons.mp hnodup
    have hne : c ≠ a := fun heq => hc (by simp [heq])
    refine .cons ?_
    rw [Function.update_of_ne hne]
    exact ih htail hnodup

end Update

/-! ## Links back -/

/-- The link `prev` of every cell of `l` leads to the cell before it, and that of the first
one to `p`. -/
inductive Backward (prev : α → Option α) : Option α → List α → Prop
  | nil {p : Option α} : Backward prev p []
  | cons {p : Option α} {a : α} {l : List α} :
      prev a = p → Backward prev (some a) l → Backward prev p (a :: l)

section Backward

variable {prev : α → Option α}

theorem Backward.drop (h : Backward prev p (l₁ ++ a :: l₂)) : Backward prev (some a) l₂ := by
  induction l₁ generalizing p with
  | nil =>
    cases h with
    | cons _ h => exact h
  | cons b l₁ ih =>
    cases h with
    | cons _ h => exact ih h

theorem Backward.prev_eq {b : α} (h : Backward prev p (l₁ ++ a :: b :: l₂)) : prev b = some a := by
  cases h.drop with
  | cons hb _ => exact hb

theorem Backward.take (h : Backward prev p (l₁ ++ l₂)) : Backward prev p l₁ := by
  induction l₁ generalizing p with
  | nil => exact .nil
  | cons a l₁ ih =>
    cases h with
    | cons ha h => exact .cons ha (ih h)

theorem Backward.congr {prev' : α → Option α} (h : Backward prev p l)
    (hprev : ∀ a ∈ l, prev' a = prev a) : Backward prev' p l := by
  induction h with
  | nil => exact .nil
  | @cons p a l ha _ ih =>
    refine .cons ?_ (ih fun b hb => hprev b (List.mem_cons_of_mem _ hb))
    rw [hprev a List.mem_cons_self, ha]

variable [DecidableEq α]

instance Backward.decidable (prev : α → Option α) :
    (p : Option α) → (l : List α) → Decidable (Backward prev p l)
  | _, [] => .isTrue .nil
  | p, a :: l =>
    if ha : prev a = p then
      match Backward.decidable prev (some a) l with
      | .isTrue h => .isTrue (.cons ha h)
      | .isFalse h => .isFalse fun hl => by
        cases hl with
        | cons _ hl => exact h hl
    else .isFalse fun hl => by
      cases hl with
      | cons hp _ => exact ha hp

theorem Backward.update (h : Backward prev p l) (ha : a ∉ l) (v : Option α) :
    Backward (Function.update prev a v) p l :=
  h.congr fun b hb => Function.update_of_ne (fun heq : b = a => ha (heq ▸ hb)) _ _

theorem Backward.snoc {z : α} (h : Backward prev p (l ++ [z])) (ha : a ∉ l ++ [z]) :
    Backward (Function.update prev a (some z)) p (l ++ [z, a]) := by
  induction l generalizing p with
  | nil =>
    have hz : z ≠ a := fun heq => ha (by simp [heq])
    cases h with
    | cons hz' _ =>
      refine .cons ?_ (.cons (Function.update_self _ _ _) .nil)
      rw [Function.update_of_ne hz, hz']
  | cons b l ih =>
    have hb : b ≠ a := fun heq => ha (by simp [heq])
    cases h with
    | cons hb' h =>
      refine .cons ?_ (ih h fun hmem => ha (List.mem_cons_of_mem _ hmem))
      rw [Function.update_of_ne hb, hb']

/-- The cell behind `a` is taken out, and the one behind that leads back to `a`. -/
theorem Backward.remove {b c : α} (h : Backward prev p (l₁ ++ a :: b :: c :: l₂))
    (hnodup : (l₁ ++ a :: b :: c :: l₂).Nodup) :
    Backward (Function.update prev c (some a)) p (l₁ ++ a :: c :: l₂) := by
  induction l₁ generalizing p with
  | nil =>
    obtain ⟨ha, htail⟩ := List.nodup_cons.mp hnodup
    have hac : a ≠ c := fun heq => ha (by simp [heq])
    have hc : c ∉ l₂ := (List.nodup_cons.mp (List.nodup_cons.mp htail).2).1
    cases h with
    | cons ha' h =>
      cases h with
      | cons _ h =>
        cases h with
        | cons _ h =>
          refine .cons ?_ (.cons (Function.update_self _ _ _) (h.update hc _))
          rw [Function.update_of_ne hac, ha']
  | cons d l₁ ih =>
    obtain ⟨hd, hnodup⟩ := List.nodup_cons.mp hnodup
    have hdc : d ≠ c := fun heq => hd (by simp [heq])
    cases h with
    | cons hd' h =>
      refine .cons ?_ (ih h hnodup)
      rw [Function.update_of_ne hdc, hd']

end Backward

/-! ## Enumeration -/

/-- The cells that following the links visits, at most `fuel`. -/
def follow (next : α → Option α) : Nat → Option α → List α
  | _, none => []
  | 0, some _ => []
  | fuel + 1, some a => a :: follow next fuel (next a)

theorem Linked.follow_eq (h : Linked next p l) {fuel : Nat} (hf : l.length ≤ fuel) :
    follow next fuel p = l := by
  induction h generalizing fuel with
  | nil => cases fuel <;> rfl
  | @cons a l _ ih =>
    obtain ⟨fuel, rfl⟩ := Nat.exists_eq_succ_of_ne_zero
      (Nat.ne_of_gt (Nat.lt_of_lt_of_le (Nat.succ_pos _) hf))
    rw [follow, ih (Nat.le_of_succ_le_succ hf)]

/-- A chain of 32-bit addresses is not longer than there are addresses. -/
theorem Linked.length_le {next : UInt32 → Option UInt32} {p : Option UInt32} {l : List UInt32}
    (h : Linked next p l) : l.length ≤ 2 ^ 32 := by
  have hnat : (l.map UInt32.toNat).Nodup := h.nodup.map fun a b hab => UInt32.toNat_inj.mp hab
  have hsub : l.map UInt32.toNat ⊆ List.range (2 ^ 32) := by
    intro x hx
    obtain ⟨a, _, rfl⟩ := List.mem_map.mp hx
    exact List.mem_range.mpr a.toNat_lt
  have hle := (hnat.subperm hsub).length_le
  rwa [List.length_map, List.length_range] at hle

/-! ## Reachable cells

Links that may lead together, or in a circle. -/

/-- Following the links from `p` leads to the cell. -/
inductive Reach (next : α → Option α) : Option α → α → Prop
  | here {a : α} : Reach next (some a) a
  | next {a b : α} : Reach next (next a) b → Reach next (some a) b

section Reach

variable {next' : α → Option α} {b : α} {P : α → Prop}

theorem Reach.step (h : Reach next p a) (hab : next a = some b) : Reach next p b := by
  induction h with
  | here =>
    refine .next ?_
    rw [hab]
    exact .here
  | next _ ih => exact .next (ih hab)

/-- A reachable cell is the first one, or a reachable one links to it. -/
theorem Reach.last (h : Reach next p b) : p = some b ∨ ∃ a, Reach next p a ∧ next a = some b := by
  induction h with
  | here => exact .inl rfl
  | @next a b _ ih =>
    rcases ih with hab | ⟨c, hc, hcb⟩
    · exact .inr ⟨a, .here, hab⟩
    · exact .inr ⟨c, .next hc, hcb⟩

/-- What holds of the first cell and along every link holds of the reachable cells. -/
theorem Reach.of_closed (h : Reach next p b) (hfirst : ∀ a, p = some a → P a)
    (hstep : ∀ a b, P a → next a = some b → P b) : P b := by
  induction h with
  | here => exact hfirst _ rfl
  | @next a b _ ih => exact ih fun c hc => hstep a c (hfirst a rfl) hc

theorem Reach.mono (h : Reach next p b) (hlinks : ∀ a b, next a = some b → next' a = some b) :
    Reach next' p b := by
  induction h with
  | here => exact .here
  | @next a b h ih =>
    cases hnext : next a with
    | none =>
      rw [hnext] at h
      cases h
    | some c =>
      rw [hnext] at ih
      refine .next ?_
      rw [hlinks a c hnext]
      exact ih

/-- The links of the cells in `P`, which lead to `P` only, matter to no cell outside. -/
theorem Reach.avoid (h : Reach next p b) (hP : ∀ a b, P a → next a = some b → P b)
    (hlinks : ∀ a, ¬P a → next' a = next a) (hb : ¬P b) : Reach next' p b := by
  induction h with
  | here => exact .here
  | @next a b h ih =>
    have ha : ¬P a := fun ha => hb (h.of_closed (fun c hc => hP a c ha hc) hP)
    refine .next ?_
    rw [hlinks a ha]
    exact ih hb

/-- The links of the cells in `P` matter only, when the way stays among them. -/
theorem Reach.congr (h : Reach next p b) (hfirst : ∀ a, p = some a → P a)
    (hP : ∀ a b, P a → next a = some b → P b) (hlinks : ∀ a, P a → next' a = next a) :
    Reach next' p b := by
  induction h with
  | here => exact .here
  | @next a b _ ih =>
    have ha := hfirst a rfl
    refine .next ?_
    rw [hlinks a ha]
    exact ih fun c hc => hP a c ha hc

/-- Without the link of a cell the others are reachable as before, or from where it led. -/
theorem Reach.cut [DecidableEq α] (h : Reach next p b) (a : α) :
    Reach (Function.update next a none) p b ∨ Reach (Function.update next a none) (next a) b := by
  induction h with
  | here => exact .inl .here
  | @next c b _ ih =>
    rcases ih with hc | ha
    · by_cases hca : c = a
      · rw [hca] at hc
        exact .inr hc
      · refine .inl (.next ?_)
        rw [Function.update_of_ne hca]
        exact hc
    · exact .inr ha

theorem Reach.of_cut [DecidableEq α] (h : Reach (Function.update next a none) p b) :
    Reach next p b := by
  refine h.mono fun c d hcd => ?_
  by_cases hca : c = a
  · rw [hca, Function.update_self] at hcd
    cases hcd
  · rwa [Function.update_of_ne hca] at hcd

theorem reach_of_mem_follow {fuel : Nat} (h : b ∈ follow next fuel p) : Reach next p b := by
  induction fuel generalizing p with
  | zero => cases p <;> exact absurd h List.not_mem_nil
  | succ fuel ih =>
    cases p with
    | none => exact absurd h List.not_mem_nil
    | some a =>
      rcases List.mem_cons.mp h with rfl | h
      · exact .here
      · exact .next (ih h)

end Reach

end Chains
