import Vmwos.RomfsImage

/-!
# The bounds of the ramdisk

`ramdisk_read` compares `offset+length`, a 32-bit sum, with the length of the image. A sum that
wraps passes for a small one, and the copy then goes through all of the address space.

Result: `reads_within_iff`. A read stays within the image, and is refused if it does not lie in
it, exactly if the sum does not wrap or what is left of it is still beyond the end.
-/

namespace Vmwos.Romfs

open Bytes

variable {d : Ramdisk} {offset length : UInt32}

/-! ## Definitions -/

/-- `ramdisk_read` into the buffer at `dest`: its result and the memory after it. -/
def ramdiskReadTo (d : Ramdisk) (offset length : UInt32) (m : Mem) (dest : Nat) : UInt32 × Mem :=
  match ramdiskRead d offset length with
  | none => (eRANGE, m)
  | some bytes => (length, write m dest bytes)

/-- The offsets from `ramdisk_info.start` that `ramdisk_read` and so `romfs_read_noinc` reads, as
32-bit addresses wrap. -/
def touched (d : Ramdisk) (offset length : UInt32) : List Nat :=
  if offset + length > d.length then []
  else (List.range length.toNat).map fun k => (offset.toNat + k) % 2 ^ 32

/-- The bytes lie in the image. -/
def InImage (d : Ramdisk) (offset length : UInt32) : Prop :=
  offset.toNat + length.toNat ≤ d.length.toNat

/-- A read of bytes of the image copies them, any other read is refused, and nothing outside the
image is touched. -/
structure ReadsWithin (d : Ramdisk) (offset length : UInt32) : Prop where
  copies : InImage d offset length → ∀ m dest,
    ramdiskReadTo d offset length m dest =
      (length, write m dest (read d.start offset.toNat length.toNat))
  refuses : ¬InImage d offset length → ∀ m dest, ramdiskReadTo d offset length m dest = (eRANGE, m)
  buffer : ∀ buffer, romfsReadNoinc d buffer offset length = buffer ∨
    InImage d offset length ∧
      romfsReadNoinc d buffer offset length = some (read d.start offset.toNat length.toNat)
  inside : ∀ a ∈ touched d offset length, a < d.length.toNat

/-! ## The check -/

/-- Without a wrap the check is exact. -/
theorem check_iff (h : offset.toNat + length.toNat < 2 ^ 32) :
    offset + length > d.length ↔ ¬InImage d offset length := by
  rw [gt_iff_lt, UInt32.lt_iff_toNat_lt, UInt32.toNat_add, Nat.mod_eq_of_lt h, InImage, not_le]

/-- A sum that wraps is compared by what is left of it. -/
theorem check_wrapped_iff (h : 2 ^ 32 ≤ offset.toNat + length.toNat) :
    offset + length > d.length ↔ d.length.toNat + 2 ^ 32 < offset.toNat + length.toNat := by
  have hoffset := offset.toNat_lt
  have hlength := length.toNat_lt
  have hsum : (offset.toNat + length.toNat) % 2 ^ 32 = offset.toNat + length.toNat - 2 ^ 32 := by
    omega
  rw [gt_iff_lt, UInt32.lt_iff_toNat_lt, UInt32.toNat_add, hsum]
  omega

theorem ramdiskRead_refused (h : offset + length > d.length) : ramdiskRead d offset length = none :=
  if_pos h

/-- What a refused read does. -/
theorem ReadsWithin.of_refused (h : offset + length > d.length) (hout : ¬InImage d offset length) :
    ReadsWithin d offset length := by
  have hread := ramdiskRead_refused h
  refine ⟨fun hin => absurd hin hout, fun _ m dest => ?_, fun buffer => .inl ?_, fun a ha => ?_⟩
  · rw [ramdiskReadTo, hread]
  · rw [romfsReadNoinc, hread, Option.none_or]
  · rw [touched, if_pos h] at ha
    exact absurd ha List.not_mem_nil

/-- What a read inside the image does. -/
theorem ReadsWithin.of_inImage (h : InImage d offset length) : ReadsWithin d offset length := by
  have hread := ramdiskRead_of_le h
  refine ⟨fun _ m dest => ?_, fun hout => absurd h hout, fun buffer => .inr ⟨h, ?_⟩, fun a ha => ?_⟩
  · rw [ramdiskReadTo, hread]
  · rw [romfsReadNoinc, hread, Option.some_or]
  · rw [touched] at ha
    split at ha
    · exact absurd ha List.not_mem_nil
    · obtain ⟨k, hk, rfl⟩ := List.mem_map.mp ha
      rw [List.mem_range] at hk
      have hle : offset.toNat + length.toNat ≤ d.length.toNat := h
      exact Nat.lt_of_le_of_lt (Nat.mod_le _ _) (by omega)

/-- A read that passes the check by a wrap is not refused. -/
theorem not_readsWithin_of_wrapped (h : 2 ^ 32 ≤ offset.toNat + length.toNat)
    (hcheck : ¬offset + length > d.length) : ¬ReadsWithin d offset length := by
  intro hlaw
  have hout : ¬InImage d offset length := by
    intro hin
    have hlt := d.length.toNat_lt
    exact absurd (h.trans hin) (not_le.mpr hlt)
  have hpos : 0 < length.toNat := by
    have hlt := offset.toNat_lt
    omega
  -- a buffer whose first byte is not the one that is copied
  have hread := hlaw.refuses hout (fun _ => d.start (offset.toNat % 2 ^ 32) + 1) 0
  rw [ramdiskReadTo, ramdiskRead, if_neg hcheck] at hread
  have hbyte := congrFun (Prod.mk.inj hread).2 0
  simp [write, hpos] at hbyte

/-- When `ramdisk_read` keeps to the image, for every image length, offset and length. -/
theorem reads_within_iff (d : Ramdisk) (offset length : UInt32) :
    ReadsWithin d offset length ↔
      offset.toNat + length.toNat < 2 ^ 32 ∨
        d.length.toNat + 2 ^ 32 < offset.toNat + length.toNat := by
  rcases Nat.lt_or_ge (offset.toNat + length.toNat) (2 ^ 32) with hsum | hwrap
  · refine iff_of_true ?_ (.inl hsum)
    by_cases hin : InImage d offset length
    · exact .of_inImage hin
    · exact .of_refused ((check_iff hsum).mpr hin) hin
  · rw [or_iff_right (not_lt.mpr hwrap)]
    constructor
    · intro hlaw
      by_contra hleft
      exact not_readsWithin_of_wrapped hwrap (fun hcheck => hleft ((check_wrapped_iff hwrap).mp hcheck))
        hlaw
    · intro hleft
      refine .of_refused ((check_wrapped_iff hwrap).mpr hleft) fun hin => ?_
      have hlt := d.length.toNat_lt
      exact absurd (hwrap.trans hin) (not_le.mpr hlt)

/-- `-ENOENT` taken for an offset: four bytes are read, from the last two of the address space and
from the first two of the image. -/
theorem error_read_as_offset :
    touched ⟨fun _ => 0, 64⟩ eNOENT 4 = [2 ^ 32 - 2, 2 ^ 32 - 1, 0, 1] ∧
      ¬ReadsWithin ⟨fun _ => 0, 64⟩ eNOENT 4 := by
  refine ⟨by decide, not_readsWithin_of_wrapped (by decide) (by decide)⟩

end Vmwos.Romfs
