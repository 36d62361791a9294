import Mathlib.Data.Set.Lattice
import Mathlib.Order.CompletePartialOrder

/-!
# Ownership of cells

A supply of cells of any type is handed out in blocks. A block `b` consists of the
cells `cells b`; `used` are the cells that are not free, `reserved` those that were
never free, and `live` the blocks that are out.

`Owned` is the invariant of such a supply. It is kept by taking a block of free cells
(`Owned.acquire`) and by giving a live block back (`Owned.release`).

`OwnedExactly` says more: only the reserved cells and those of the live blocks are used. Then
the supply is back to its reserved cells exactly when nothing is out
(`OwnedExactly.used_eq_iff`).
-/

namespace Ownership

variable {α β : Type*} {cells : β → Set α} {used reserved : Set α} {live : List β} {b : β}

/-- The live blocks are pairwise disjoint, lie in the used cells and outside the
reserved ones, which stay used. -/
structure Owned (cells : β → Set α) (used reserved : Set α) (live : List β) : Prop where
  marked : ∀ b ∈ live, cells b ⊆ used
  apart : live.Pairwise fun b c => Disjoint (cells b) (cells c)
  outside : ∀ b ∈ live, Disjoint (cells b) reserved
  reserved_marked : reserved ⊆ used

/-- Nothing is out. -/
theorem Owned.start (h : reserved ⊆ used) : Owned cells used reserved [] where
  marked := by simp
  apart := .nil
  outside := by simp
  reserved_marked := h

/-- A block of free cells is taken. -/
theorem Owned.acquire (h : Owned cells used reserved live) (hfree : Disjoint (cells b) used) :
    Owned cells (used ∪ cells b) reserved (b :: live) where
  marked := by
    intro c hc
    rcases List.mem_cons.mp hc with rfl | hc
    · exact Set.subset_union_right
    · exact (h.marked c hc).trans Set.subset_union_left
  apart := List.pairwise_cons.mpr ⟨fun c hc => hfree.mono_right (h.marked c hc), h.apart⟩
  outside := by
    intro c hc
    rcases List.mem_cons.mp hc with rfl | hc
    · exact hfree.mono_right h.reserved_marked
    · exact h.outside c hc
  reserved_marked := h.reserved_marked.trans Set.subset_union_left

/-- A live block is given back. -/
theorem Owned.release [DecidableEq β] (h : Owned cells used reserved live) (hb : b ∈ live) :
    Owned cells (used \ cells b) reserved (live.erase b) := by
  -- bring the block to the front, where pairwise disjointness speaks of it alone
  have hperm := List.perm_cons_erase hb
  have hapart : (b :: live.erase b).Pairwise fun b c => Disjoint (cells b) (cells c) :=
    (hperm.pairwise_iff fun hxy => hxy.symm).mp h.apart
  obtain ⟨hfirst, hrest⟩ := List.pairwise_cons.mp hapart
  exact {
    marked := fun c hc =>
      le_sdiff.mpr ⟨h.marked c (List.mem_of_mem_erase hc), (hfirst c hc).symm⟩
    apart := hrest
    outside := fun c hc => h.outside c (List.mem_of_mem_erase hc)
    reserved_marked := le_sdiff.mpr ⟨h.reserved_marked, (h.outside b hb).symm⟩ }

/-- `Owned`, where every used cell is reserved or in a live block. -/
structure OwnedExactly (cells : β → Set α) (used reserved : Set α) (live : List β) : Prop
    extends Owned cells used reserved live where
  covered : ∀ x ∈ used, x ∈ reserved ∨ ∃ b ∈ live, x ∈ cells b

theorem OwnedExactly.start : OwnedExactly cells reserved reserved [] where
  toOwned := .start (subset_refl reserved)
  covered := fun _ hx => .inl hx

theorem OwnedExactly.acquire (h : OwnedExactly cells used reserved live)
    (hfree : Disjoint (cells b) used) : OwnedExactly cells (used ∪ cells b) reserved (b :: live) where
  toOwned := h.toOwned.acquire hfree
  covered := by
    intro x hx
    rcases hx with hx | hx
    · rcases h.covered x hx with hreserved | ⟨c, hc, hxc⟩
      · exact .inl hreserved
      · exact .inr ⟨c, List.mem_cons_of_mem b hc, hxc⟩
    · exact .inr ⟨b, List.mem_cons_self, hx⟩

theorem OwnedExactly.release [DecidableEq β] (h : OwnedExactly cells used reserved live)
    (hb : b ∈ live) :
    OwnedExactly cells (used \ cells b) reserved (live.erase b) where
  toOwned := h.toOwned.release hb
  covered := by
    intro x ⟨hx, hxb⟩
    rcases h.covered x hx with hreserved | ⟨c, hc, hxc⟩
    · exact .inl hreserved
    · have hne : c ≠ b := fun heq => hxb (heq ▸ hxc)
      exact .inr ⟨c, (List.mem_erase_of_ne hne).mpr hc, hxc⟩

theorem OwnedExactly.used_eq_iff (h : OwnedExactly cells used reserved live)
    (hne : ∀ b, (cells b).Nonempty) : used = reserved ↔ live = [] := by
  constructor
  · intro heq
    refine List.eq_nil_iff_forall_not_mem.mpr fun b hb => ?_
    obtain ⟨x, hx⟩ := hne b
    have hused : x ∈ reserved := heq ▸ h.marked b hb hx
    exact Set.disjoint_left.mp (h.outside b hb) hx hused
  · rintro rfl
    refine Set.Subset.antisymm (fun x hx => ?_) h.reserved_marked
    rcases h.covered x hx with hreserved | ⟨b, hb, _⟩
    · exact hreserved
    · exact absurd hb List.not_mem_nil

end Ownership
