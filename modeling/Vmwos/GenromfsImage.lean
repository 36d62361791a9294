import Vmwos.GenromfsLayout

/-!
# The image of genromfs in the ramdisk

What `romfs.c` finds at the places that `genromfs.c` has written: a header with the fields of the
node, its name, its contents, and checksums that come out as 0.

* `Loaded`, `Holds`: the image in the ramdisk, and bytes of it at an offset;
* `romfsChecksum_fixsum`: the checksum after `fixsum`;
* `hasHeader_of_holds`: the header of a node;
* `flags_next`, `flags_low`: the offset and the low bits in the first word of a header.
-/

namespace Vmwos.Genromfs

open Bytes Romfs

variable {d : Ramdisk} {pos : Nat} {bs xs ys : List UInt8}

/-! ## Bytes at an offset -/

/-- The ramdisk has the image from its start on, and nothing else. -/
structure Loaded (d : Ramdisk) (image : List UInt8) : Prop where
  length : d.length.toNat = image.length
  bytes : read d.start 0 image.length = image

/-- The ramdisk has the bytes at an offset. -/
structure Holds (d : Ramdisk) (pos : Nat) (bs : List UInt8) : Prop where
  inside : pos + bs.length ≤ d.length.toNat
  bytes : read d.start pos bs.length = bs

theorem holds_append :
    Holds d pos (xs ++ ys) ↔ Holds d pos xs ∧ Holds d (pos + xs.length) ys := by
  constructor
  · rintro ⟨hin, hbytes⟩
    rw [List.length_append] at hin
    rw [List.length_append, read_add] at hbytes
    obtain ⟨hx, hy⟩ := List.append_inj hbytes length_read
    exact ⟨⟨by omega, hx⟩, by omega, hy⟩
  · rintro ⟨⟨_, hx⟩, hin, hy⟩
    refine ⟨?_, ?_⟩
    · rw [List.length_append]
      omega
    · rw [List.length_append, read_add, hx, hy]

theorem Loaded.holds {image : List UInt8} (h : Loaded d image) : Holds d 0 image :=
  ⟨by rw [Nat.zero_add, h.length], h.bytes⟩

theorem Holds.toNat_ofNat (h : Holds d pos bs) : (UInt32.ofNat pos).toNat = pos := by
  have hin := h.inside
  have hlt := d.length.toNat_lt
  exact UInt32.toNat_ofNat_of_lt' (Nat.lt_of_le_of_lt (Nat.le_of_add_right_le hin) hlt)

/-! ## Checksums -/

theorem ntohl_beBytes (v : UInt32) : ntohl (beBytes v) = v := ofLe_toLe v

theorem length_beBytes (v : UInt32) : (beBytes v).length = 4 := rfl

theorem romfsChecksum_add (a b : Nat) (data : List UInt8) :
    romfsChecksum (a + b) data = romfsChecksum a data + romfsChecksum b (data.drop (4 * a)) := by
  induction a generalizing data with
  | zero => simp [romfsChecksum]
  | succ a ih =>
    rw [Nat.succ_add, romfsChecksum, romfsChecksum, ih, List.drop_drop, Nat.mul_succ,
      Nat.add_comm 4, UInt32.add_assoc]

theorem romfsChecksum_append {words : Nat} (h : 4 * words ≤ xs.length) :
    romfsChecksum words (xs ++ ys) = romfsChecksum words xs := by
  induction words generalizing xs with
  | zero => rfl
  | succ words ih =>
    rw [romfsChecksum, romfsChecksum, List.take_append_of_le_length (by omega),
      List.drop_append_of_le_length (by omega), ih (by rw [List.length_drop]; omega)]

/-- The checksum of a header adds the word of the checksum itself. -/
theorem romfsChecksum_setChecksum (h : 16 ≤ bs.length) (checksum : UInt32) (words : Nat) :
    romfsChecksum (4 + words) (setChecksum bs checksum) =
      romfsChecksum 3 (bs.take 12) + checksum + romfsChecksum words (bs.drop 16) := by
  have hfront : (bs.take 12).length = 12 := by
    rw [List.length_take]
    omega
  have hword : romfsChecksum 1 (beBytes checksum) = checksum := by
    have hntohl := ntohl_beBytes checksum
    rw [romfsChecksum, romfsChecksum, List.take_of_length_le (length_beBytes checksum).le, hntohl,
      UInt32.add_zero]
  rw [setChecksum, List.append_assoc, show 4 + words = 3 + (1 + words) by omega,
    romfsChecksum_add, romfsChecksum_append (by omega), List.drop_left' (by omega),
    romfsChecksum_add, romfsChecksum_append (length_beBytes checksum).ge, hword,
    List.drop_left' (by rw [length_beBytes]), UInt32.add_assoc]

/-- After `fixsum` the checksum comes out as 0. -/
theorem romfsChecksum_fixsum (h : 16 ≤ bs.length) {size : Nat} (hsize : 16 ≤ size) :
    romfsChecksum (size / 4) (fixsum bs size) = 0 := by
  obtain ⟨words, hwords⟩ := Nat.exists_eq_add_of_le (show 4 ≤ size / 4 by omega)
  rw [fixsum, hwords, romfsChecksum_setChecksum h, romfsChecksum_setChecksum h, UInt32.add_zero,
    UInt32.add_assoc, UInt32.add_comm (-_), ← UInt32.add_assoc, ← UInt32.sub_eq_add_neg,
    UInt32.sub_self]

theorem setChecksum_append (h : 16 ≤ xs.length) (checksum : UInt32) :
    setChecksum (xs ++ ys) checksum = setChecksum xs checksum ++ ys := by
  rw [setChecksum, setChecksum, List.take_append_of_le_length (by omega),
    List.drop_append_of_le_length (by omega), List.append_assoc, List.append_assoc, List.append_assoc]

/-- The checksum of the volume is all that is changed in the first 512 bytes. -/
theorem volumeSummed_eq (bs : List UInt8) (h : 16 ≤ bs.length) :
    ∃ checksum, volumeSummed bs = setChecksum bs checksum := by
  have hset : ∀ checksum, setChecksum (bs.take 512) checksum ++ bs.drop 512 =
      setChecksum bs checksum := fun checksum => by
    rw [← setChecksum_append (by rw [List.length_take]; omega), List.take_append_drop]
  exact ⟨_, hset _⟩

/-! ## Headers -/

/-- The word of a header at an offset. -/
theorem Holds.word {v : UInt32} (h : Holds d pos (beBytes v)) : word d (UInt32.ofNat pos) = v := by
  have hbytes := h.bytes
  rw [length_beBytes] at hbytes
  rw [Romfs.word, h.toNat_ofNat, hbytes]
  exact ofLe_toLe v

theorem Holds.isString {s : List UInt8} (h : Holds d pos (padded s)) (hs : ∀ c ∈ s, c ≠ 0) :
    IsString d (UInt32.ofNat pos) s := by
  have hin := h.inside
  have hbytes := h.bytes
  rw [length_padded] at hin hbytes
  refine ⟨hs, ?_, ?_⟩
  · rwa [h.toNat_ofNat]
  · rw [h.toNat_ofNat, hbytes, padded]

theorem setChecksum_words (next spec size checksum checksum' : UInt32) (name : List UInt8) :
    setChecksum (beBytes next ++ (beBytes spec ++ (beBytes size ++ (beBytes checksum ++ name))))
      checksum' = beBytes next ++ (beBytes spec ++ (beBytes size ++ (beBytes checksum' ++ name))) :=
  rfl

theorem headBytes_eq (ri : Romfh) (n : Node) :
    ∃ checksum, headBytes ri n =
      beBytes ri.nextfh ++ (beBytes ri.spec ++ (beBytes ri.size ++ (beBytes checksum ++
        padded n.name))) := by
  have hbytes : ri.bytes ++ padded n.name = beBytes ri.nextfh ++ (beBytes ri.spec ++
      (beBytes ri.size ++ (beBytes ri.checksum ++ padded n.name))) := by
    simp only [Romfh.bytes, List.append_assoc]
  have hset : ∀ checksum, setChecksum (ri.bytes ++ padded n.name) checksum =
      beBytes ri.nextfh ++ (beBytes ri.spec ++ (beBytes ri.size ++ (beBytes checksum ++
        padded n.name))) := fun checksum => by
    rw [hbytes, setChecksum_words]
  unfold headBytes
  simp only
  split
  · exact ⟨_, hset _⟩
  · exact ⟨_, hbytes⟩

/-- The header of a node, as `romfs.c` sees it. -/
def fileHeader (node : Node) (dirlist rest : Nodes) : Header where
  info := (headerOf node dirlist rest).nextfh
  spec := (headerOf node dirlist rest).spec
  size := (headerOf node dirlist rest).size
  name := node.name

theorem hasHeader_of_bytes {next spec size checksum : UInt32} {name : List UInt8}
    (h : Holds d pos (beBytes next ++ (beBytes spec ++ (beBytes size ++ (beBytes checksum ++
      padded name))))) (hname : ∀ c ∈ name, c ≠ 0) :
    HasHeader d (UInt32.ofNat pos) ⟨next, spec, size, name⟩ := by
  have hin := h.inside
  simp only [List.length_append, length_beBytes, length_padded] at hin
  simp only [holds_append, length_beBytes, Nat.add_assoc, Nat.reduceAdd] at h
  obtain ⟨hnext, hspec, hsize, -, hpadded⟩ := h
  refine ⟨?_, hnext.word, ?_, ?_, ?_⟩
  · rw [hnext.toNat_ofNat]
    show pos + 16 + chunksLength name.length ≤ _
    omega
  · exact (UInt32.ofNat_add pos 4) ▸ hspec.word
  · exact (UInt32.ofNat_add pos 8) ▸ hsize.word
  · exact (UInt32.ofNat_add pos 16) ▸ hpadded.isString hname

theorem hasHeader_of_holds {ri : Romfh} {n : Node} (h : Holds d pos (headBytes ri n))
    (hname : ∀ c ∈ n.name, c ≠ 0) :
    HasHeader d (UInt32.ofNat pos) ⟨ri.nextfh, ri.spec, ri.size, n.name⟩ := by
  obtain ⟨checksum, heq⟩ := headBytes_eq ri n
  exact hasHeader_of_bytes (heq ▸ h) hname

/-! ## The first word -/

theorem or_and (x y z : UInt32) : (x ||| y) &&& z = x &&& z ||| y &&& z := by
  apply UInt32.toBitVec_inj.mp
  ext i hi
  simp [Bool.and_or_distrib_right]

theorem and_low {x : UInt32} (h : x.toNat % 16 = 0) : x &&& 15 = 0 := by
  apply UInt32.toNat_inj.mp
  rw [UInt32.toNat_and]
  exact (Nat.and_two_pow_sub_one_eq_mod x.toNat 4).trans h

theorem and_high (x : UInt32) (h : x.toNat % 16 = 0) : x &&& ~~~15 = x := by
  have hsplit : (~~~15 ||| 15 : UInt32) &&& x = x := by simp
  rw [or_and, UInt32.and_comm 15, and_low h, UInt32.or_zero, UInt32.and_comm] at hsplit
  exact hsplit

/-- Flags in the low bits of an offset leave the offset as it is. -/
theorem flags_next {x flags : UInt32} (hx : x.toNat % 16 = 0) (hflags : flags &&& ~~~15 = 0) :
    (x ||| flags) &&& ~~~15 = x := by
  rw [or_and, and_high x hx, hflags, UInt32.or_zero]

theorem flags_low {x flags mask : UInt32} (hx : x.toNat % 16 = 0) (hmask : 15 &&& mask = mask) :
    (x ||| flags) &&& mask = flags &&& mask := by
  have hzero : x &&& mask = 0 := by
    rw [← hmask, ← UInt32.and_assoc, and_low hx, UInt32.zero_and]
  rw [or_and, hzero, UInt32.zero_or]

end Vmwos.Genromfs
