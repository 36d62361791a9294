import Mathlib.Data.Nat.Basic
import Mathlib.Logic.Function.Basic
import Vmwos.Bytes

/-!
# Stores at 32-bit addresses

A memory that is written through pointers of 32 bits, which wrap around, together with the
addresses that were written (`Store.log`). What was not written is as it was (`Logged`), so that
a bound on the addresses of the log (`Within`) gives back everything that was read outside it.

* `mem_log_setAll`: the addresses that a run of bytes is written to;
* `setAll_mem`: below the end of the address space it is one `Bytes.write`;
* `wordAt_congr`, `wordAt_of_read`: words from bytes.
-/

namespace Stores

open Bytes

/-! ## Definitions -/

/-- The byte at a pointer. -/
def byteAt (m : Mem) (p : UInt32) : UInt8 := m p.toNat

/-- The word at a pointer. -/
def wordAt (m : Mem) (p : UInt32) : UInt32 :=
  ofLe [byteAt m p, byteAt m (p + 1), byteAt m (p + 2), byteAt m (p + 3)]

/-- The memory, and the addresses that were written. -/
structure Store where
  mem : Mem
  log : List UInt32

/-- `*p=b` for a byte. -/
def Store.set (t : Store) (p : UInt32) (b : UInt8) : Store :=
  ⟨Function.update t.mem p.toNat b, p :: t.log⟩

/-- Bytes one after the other. -/
def Store.setAll (t : Store) (p : UInt32) : List UInt8 → Store
  | [] => t
  | b :: bs => (t.set p b).setAll (p + 1) bs

/-- `*p=v` for a word. -/
def Store.setWord (t : Store) (p v : UInt32) : Store := t.setAll p (toLe v)

/-- What changed in the memory since `m` was written through the store. -/
def Logged (m : Mem) (t : Store) : Prop := ∀ x, t.mem x ≠ m x → ∃ p ∈ t.log, p.toNat = x

/-- Every write of the store went to an address in `R`. -/
def Within (R : Nat → Prop) (t : Store) : Prop := ∀ p ∈ t.log, R p.toNat

/-- The store `t'` has written all that `t` has. -/
def Extends (t t' : Store) : Prop := ∀ p ∈ t.log, p ∈ t'.log

/-! ## Pointers -/

theorem toNat_add_ofNat {p : UInt32} {k : Nat} (h : p.toNat + k < 2 ^ 32) :
    (p + UInt32.ofNat k).toNat = p.toNat + k := by
  rw [UInt32.toNat_add, UInt32.toNat_ofNat']
  omega

theorem add_ofNat_succ (p : UInt32) (k : Nat) :
    p + UInt32.ofNat (k + 1) = p + 1 + UInt32.ofNat k := by
  rw [UInt32.ofNat_add, UInt32.add_assoc, UInt32.add_comm 1]
  rfl

theorem ofNat_add_one (k : Nat) : UInt32.ofNat k + 1 = UInt32.ofNat (k + 1) := by
  rw [UInt32.ofNat_add]
  rfl

/-- A pointer that moves on by one, below the end of the address space. -/
theorem toNat_add_add_one {p i : UInt32} (h : (p + i).toNat + 1 < 2 ^ 32) :
    (p + (i + 1)).toNat = (p + i).toNat + 1 := by
  rw [← UInt32.add_assoc]
  exact toNat_add_ofNat (k := 1) h

/-- The pointers to `a + b` bytes, in two parts. -/
theorem exists_offset_add {p q : UInt32} (a b : Nat) :
    (∃ k < a + b, q = p + UInt32.ofNat k) ↔
      (∃ k < a, q = p + UInt32.ofNat k) ∨ ∃ k < b, q = p + UInt32.ofNat a + UInt32.ofNat k := by
  have hpart : ∀ k, p + UInt32.ofNat a + UInt32.ofNat k = p + UInt32.ofNat (a + k) := by
    intro k
    rw [UInt32.add_assoc, ← UInt32.ofNat_add]
  simp only [hpart]
  constructor
  · rintro ⟨k, hk, rfl⟩
    rcases Nat.lt_or_ge k a with hlt | hge
    · exact .inl ⟨k, hlt, rfl⟩
    · exact .inr ⟨k - a, by omega, by rw [Nat.add_sub_cancel' hge]⟩
  · rintro (⟨k, hk, rfl⟩ | ⟨k, hk, rfl⟩)
    · exact ⟨k, by omega, rfl⟩
    · exact ⟨a + k, by omega, rfl⟩

/-! ## Writing -/

variable {m : Mem} {t t' : Store} {p q : UInt32} {b : UInt8} {bs : List UInt8} {R : Nat → Prop}

@[simp] theorem set_mem : (t.set p b).mem = Function.update t.mem p.toNat b := rfl

@[simp] theorem set_log : (t.set p b).log = p :: t.log := rfl

theorem Logged.set (h : Logged m t) (p : UInt32) (b : UInt8) : Logged m (t.set p b) := by
  intro x hx
  by_cases hp : x = p.toNat
  · exact ⟨p, List.mem_cons_self, hp.symm⟩
  · rw [set_mem, Function.update_of_ne hp] at hx
    obtain ⟨q, hq, hqx⟩ := h x hx
    exact ⟨q, List.mem_cons_of_mem p hq, hqx⟩

theorem Logged.setAll (h : Logged m t) (p : UInt32) (bs : List UInt8) :
    Logged m (t.setAll p bs) := by
  induction bs generalizing t p with
  | nil => exact h
  | cons b bs ih => exact ih (h.set p b) (p + 1)

theorem mem_log_setAll :
    q ∈ (t.setAll p bs).log ↔ q ∈ t.log ∨ ∃ k < bs.length, q = p + UInt32.ofNat k := by
  induction bs generalizing t p with
  | nil => simp [Store.setAll]
  | cons b bs ih =>
    rw [Store.setAll, ih, set_log, List.mem_cons]
    constructor
    · rintro ((rfl | hq) | ⟨k, hk, rfl⟩)
      · exact .inr ⟨0, by simp, by simp⟩
      · exact .inl hq
      · exact .inr ⟨k + 1, by simpa using hk, (add_ofNat_succ p k).symm⟩
    · rintro (hq | ⟨k, hk, rfl⟩)
      · exact .inl (.inr hq)
      · cases k with
        | zero => exact .inl (.inl (by simp))
        | succ k => exact .inr ⟨k, by simpa using hk, add_ofNat_succ p k⟩

/-- Bytes stored below the end of the address space. -/
theorem setAll_mem (h : p.toNat + bs.length ≤ 2 ^ 32) :
    (t.setAll p bs).mem = write t.mem p.toNat bs := by
  induction bs generalizing t p with
  | nil =>
    funext x
    simp [Store.setAll, write]
  | cons b bs ih =>
    have hone : write t.mem p.toNat [b] = (t.set p b).mem := by
      funext x
      rw [set_mem, Function.update_apply]
      split
      · next hx =>
        rw [hx]
        exact write_inside (k := 0) (by simp)
      · next hx => exact write_outside (by simp; omega)
    rw [List.length_cons] at h
    cases bs with
    | nil => exact hone.symm
    | cons b' bs =>
      have hnext : (p + 1).toNat = p.toNat + 1 := by
        rw [List.length_cons] at h
        exact toNat_add_ofNat (k := 1) (by omega)
      rw [Store.setAll, ih (by rw [hnext]; omega), hnext, ← hone]
      have hjoin : write t.mem p.toNat ([b] ++ b' :: bs) = _ := write_append
      exact hjoin.symm

/-- A store that has written `R` only has left the rest of the memory. -/
theorem Logged.outside (h : Logged m t) (hlog : Within R t) {x : Nat} (hx : ¬R x) :
    t.mem x = m x := by
  by_contra hne
  obtain ⟨p, hp, rfl⟩ := h x hne
  exact hx (hlog p hp)

theorem Extends.trans {t'' : Store} (h : Extends t t') (h' : Extends t' t'') : Extends t t'' :=
  fun p hp => h' p (h p hp)

theorem Extends.within (h : Extends t t') (hin : Within R t') : Within R t :=
  fun p hp => hin p (h p hp)

theorem extends_set (t : Store) (p : UInt32) (b : UInt8) : Extends t (t.set p b) :=
  fun _ hq => List.mem_cons_of_mem p hq

theorem extends_setAll (t : Store) (p : UInt32) (bs : List UInt8) : Extends t (t.setAll p bs) :=
  fun _ hq => mem_log_setAll.mpr (.inl hq)

/-! ## Reading -/

/-- A store of what is read does not change what is read again. -/
theorem byteAt_set_self (t : Store) (p q : UInt32) :
    byteAt (t.set p (byteAt t.mem q)).mem q = byteAt t.mem q := by
  rw [byteAt, set_mem, Function.update_apply]
  split <;> rfl

theorem wordAt_congr {m' : Mem} {p : UInt32} (hp : p.toNat + 4 ≤ 2 ^ 32)
    (h : ∀ k < 4, m' (p.toNat + k) = m (p.toNat + k)) : wordAt m' p = wordAt m p := by
  have hbyte : ∀ k < 4, byteAt m' (p + UInt32.ofNat k) = byteAt m (p + UInt32.ofNat k) := by
    intro k hk
    rw [byteAt, byteAt, toNat_add_ofNat (by omega)]
    exact h k hk
  have h0 := hbyte 0 (by decide)
  have h1 := hbyte 1 (by decide)
  have h2 := hbyte 2 (by decide)
  have h3 := hbyte 3 (by decide)
  simp only [UInt32.reduceOfNat, UInt32.add_zero] at h0 h1 h2 h3
  rw [wordAt, wordAt, h0, h1, h2, h3]

/-- A word whose bytes are known. -/
theorem wordAt_of_read {p v : UInt32} (hp : p.toNat + 4 ≤ 2 ^ 32)
    (h : read m p.toNat 4 = toLe v) : wordAt m p = v := by
  have hbyte : ∀ k < 4, byteAt m (p + UInt32.ofNat k) = m (p.toNat + k) := by
    intro k hk
    rw [byteAt, toNat_add_ofNat (by omega)]
  have h0 := hbyte 0 (by decide)
  have h1 := hbyte 1 (by decide)
  have h2 := hbyte 2 (by decide)
  have h3 := hbyte 3 (by decide)
  simp only [UInt32.reduceOfNat, UInt32.add_zero] at h0 h1 h2 h3
  have hread : read m p.toNat 4 = [m p.toNat, m (p.toNat + 1), m (p.toNat + 2), m (p.toNat + 3)] :=
    rfl
  rw [wordAt, h0, h1, h2, h3, Nat.add_zero, ← hread, h, ofLe_toLe]

end Stores
