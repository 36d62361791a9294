import Vmwos.Romfs

/-!
# The romfs format

What a romfs image holds, as predicates on its bytes: padded strings, file headers,
chains of directory entries. A file header at offset `inode` is

    inode +  0: next header, with type and exec bits in the low four bits
    inode +  4: spec.info
    inode +  8: size
    inode + 16: name, NUL-terminated and padded to 16 bytes
    then the data of a regular file

Each reader of `romfs.c` is specified on these predicates: `romfsStringLength_eq`,
`romfsStringLengthChunks_eq`, `romfsReadString_eq`, `readWord`.
-/

namespace Vmwos.Romfs

open Bytes

variable {d : Ramdisk} {off : UInt32} {s : List UInt8}

/-! ## The format -/

/-- The room of a string of length `n` with its NUL, in chunks of 16 bytes. -/
def chunksLength (n : Nat) : Nat := 16 * (n / 16 + 1)

/-- The string `s` is stored at `off`. -/
structure IsString (d : Ramdisk) (off : UInt32) (s : List UInt8) : Prop where
  nonzero : ∀ c ∈ s, c ≠ 0
  inside : off.toNat + chunksLength s.length ≤ d.length.toNat
  bytes : read d.start off.toNat (chunksLength s.length) =
    s ++ List.replicate (chunksLength s.length - s.length) 0

instance (d : Ramdisk) (off : UInt32) (s : List UInt8) : Decidable (IsString d off s) :=
  decidable_of_iff (0 ∉ s ∧ off.toNat + chunksLength s.length ≤ d.length.toNat ∧
      read d.start off.toNat (chunksLength s.length) =
        s ++ List.replicate (chunksLength s.length - s.length) 0)
    ⟨fun ⟨h₁, h₂, h₃⟩ => ⟨fun _ hc h₀ => h₁ (h₀ ▸ hc), h₂, h₃⟩,
      fun ⟨h₁, h₂, h₃⟩ => ⟨fun h₀ => h₁ 0 h₀ rfl, h₂, h₃⟩⟩

/-- The big-endian word at `off`. -/
def word (d : Ramdisk) (off : UInt32) : UInt32 := ofBe (read d.start off.toNat 4)

/-- A file header. -/
structure Header where
  info : UInt32
  spec : UInt32
  size : UInt32
  name : List UInt8

namespace Header

/-- The offset of the next header. -/
def next (h : Header) : UInt32 := h.info &&& ~~~0xf

/-- The type: 0 hard link, 1 directory, 2 regular file and so on. -/
def type (h : Header) : UInt32 := h.info &&& 7

end Header

/-- The header `h` is stored at `inode`. -/
structure HasHeader (d : Ramdisk) (inode : UInt32) (h : Header) : Prop where
  inside : inode.toNat + 16 + chunksLength h.name.length ≤ d.length.toNat
  info_eq : word d inode = h.info
  spec_eq : word d (inode + 4) = h.spec
  size_eq : word d (inode + 8) = h.size
  name_eq : IsString d (inode + 16) h.name

instance (d : Ramdisk) (inode : UInt32) (h : Header) : Decidable (HasHeader d inode h) :=
  decidable_of_iff (inode.toNat + 16 + chunksLength h.name.length ≤ d.length.toNat ∧
      word d inode = h.info ∧ word d (inode + 4) = h.spec ∧ word d (inode + 8) = h.size ∧
      IsString d (inode + 16) h.name)
    ⟨fun ⟨h₁, h₂, h₃, h₄, h₅⟩ => ⟨h₁, h₂, h₃, h₄, h₅⟩,
      fun ⟨h₁, h₂, h₃, h₄, h₅⟩ => ⟨h₁, h₂, h₃, h₄, h₅⟩⟩

/-- A directory entry: where its header is, and the header. -/
structure Entry where
  inode : UInt32
  header : Header

/-- The chain of entries from the header at an offset on. -/
inductive Chain (d : Ramdisk) : UInt32 → List Entry → Prop
  | nil : Chain d 0 []
  | cons {inode : UInt32} {h : Header} {es : List Entry} :
      inode ≠ 0 → inode.toNat % 16 = 0 → HasHeader d inode h → Chain d h.next es →
      Chain d inode (⟨inode, h⟩ :: es)

/-- The header at `inode` is that of a directory with the entries `es`. -/
def IsDirectory (d : Ramdisk) (inode : UInt32) (es : List Entry) : Prop :=
  ∃ h, HasHeader d inode h ∧ h.type = 1 ∧ Chain d h.spec es

/-- The volume header at offset 0, with the volume name at offset 16. -/
def HasVolume (d : Ramdisk) (volume : List UInt8) : Prop := IsString d 16 volume

/-- A word and a padded string, as an image has them. -/
def beBytes (v : UInt32) : List UInt8 := (toLe v).reverse
def padded (s : List UInt8) : List UInt8 :=
  s ++ List.replicate (chunksLength s.length - s.length) 0

/-- The bytes of a header. -/
def headerBytes (h : Header) : List UInt8 :=
  beBytes h.info ++ beBytes h.spec ++ beBytes h.size ++ beBytes 0 ++ padded h.name

/-! ## Reading words and chunks -/

theorem toNat_add_of_le {k : UInt32} (h : off.toNat + k.toNat ≤ d.length.toNat) :
    (off + k).toNat = off.toNat + k.toNat := by
  have := d.length.toNat_lt
  rw [UInt32.toNat_add]
  omega

theorem ramdiskRead_of_le {length : UInt32} (h : off.toNat + length.toNat ≤ d.length.toNat) :
    ramdiskRead d off length = some (read d.start off.toNat length.toNat) := by
  have hlt := d.length.toNat_lt
  have hcheck : ¬ off + length > d.length := by
    rw [gt_iff_lt, UInt32.lt_iff_toNat_lt, toNat_add_of_le h]
    omega
  rw [ramdiskRead, if_neg hcheck]
  congr 1
  refine List.map_congr_left fun k hk => ?_
  rw [Nat.mod_eq_of_lt]
  have := List.mem_range.mp hk
  omega

theorem readNoinc_of_le {length : UInt32} (temp : Option (List UInt8))
    (h : off.toNat + length.toNat ≤ d.length.toNat) :
    romfsReadNoinc d temp off length = some (read d.start off.toNat length.toNat) := by
  rw [romfsReadNoinc, ramdiskRead_of_le h, Option.some_or]

/-- The bytes of a word inside the image. -/
def wordBytes (d : Ramdisk) (off : UInt32) : List UInt8 := read d.start off.toNat 4

/-- A read of a word inside the image sets the variable, whatever it held. -/
theorem readWord (temp : Option (List UInt8)) (h : off.toNat + 4 ≤ d.length.toNat) :
    romfsReadNoinc d temp off 4 = some (wordBytes d off) :=
  readNoinc_of_le temp h

@[simp] theorem ntohl_wordBytes (off : UInt32) : ntohl (wordBytes d off) = word d off := rfl

namespace HasHeader

variable {inode : UInt32} {h : Header}

theorem sixteen_le (hh : HasHeader d inode h) : inode.toNat + 16 ≤ d.length.toNat := by
  have := hh.inside
  omega

theorem readInfo (hh : HasHeader d inode h) (temp : Option (List UInt8)) :
    romfsReadNoinc d temp inode 4 = some (wordBytes d inode) :=
  readWord temp (by have := hh.sixteen_le; omega)

theorem toNat_four (hh : HasHeader d inode h) : (inode + 4).toNat = inode.toNat + 4 :=
  toNat_add_of_le (k := 4) (d := d) (by
    have := hh.sixteen_le
    simp only [UInt32.reduceToNat]
    omega)

theorem toNat_eight (hh : HasHeader d inode h) : (inode + 8).toNat = inode.toNat + 8 :=
  toNat_add_of_le (k := 8) (d := d) (by
    have := hh.sixteen_le
    simp only [UInt32.reduceToNat]
    omega)

theorem toNat_sixteen (hh : HasHeader d inode h) : (inode + 16).toNat = inode.toNat + 16 :=
  toNat_add_of_le (k := 16) (d := d) hh.sixteen_le

theorem readSpec (hh : HasHeader d inode h) (temp : Option (List UInt8)) :
    romfsReadNoinc d temp (inode + 4) 4 = some (wordBytes d (inode + 4)) :=
  readWord temp (by have := hh.sixteen_le; rw [hh.toNat_four]; omega)

theorem readSize (hh : HasHeader d inode h) (temp : Option (List UInt8)) :
    romfsReadNoinc d temp (inode + 8) 4 = some (wordBytes d (inode + 8)) :=
  readWord temp (by have := hh.sixteen_le; rw [hh.toNat_eight]; omega)

theorem ntohl_info (hh : HasHeader d inode h) : ntohl (wordBytes d inode) = h.info := hh.info_eq

theorem ntohl_spec (hh : HasHeader d inode h) : ntohl (wordBytes d (inode + 4)) = h.spec :=
  hh.spec_eq

theorem ntohl_size (hh : HasHeader d inode h) : ntohl (wordBytes d (inode + 8)) = h.size :=
  hh.size_eq

end HasHeader

/-! ## Strings, chunk by chunk -/

/-- The last chunk of a string shorter than 16. -/
def lastChunk (s : List UInt8) : List UInt8 := s ++ List.replicate (16 - s.length) 0

theorem IsString.short (h : IsString d off s) (hs : s.length < 16) (temp : Option (List UInt8)) :
    romfsReadNoinc d temp off 16 = some (lastChunk s) := by
  have hlen : chunksLength s.length = 16 := by
    rw [chunksLength, Nat.div_eq_of_lt hs]
  have hin := h.inside
  have hbytes := h.bytes
  rw [hlen] at hin hbytes
  rw [readNoinc_of_le temp hin, lastChunk, ← hbytes]
  rfl

theorem IsString.long (h : IsString d off s) (hs : 16 ≤ s.length) :
    (∀ temp, romfsReadNoinc d temp off 16 = some (s.take 16)) ∧
      (off + 16).toNat = off.toNat + 16 ∧ IsString d (off + 16) (s.drop 16) := by
  have hlen : chunksLength s.length = 16 + chunksLength (s.length - 16) := by
    unfold chunksLength
    omega
  have hin := h.inside
  rw [hlen] at hin
  have hchunk : off.toNat + (16 : UInt32).toNat ≤ d.length.toNat := by
    simp only [UInt32.reduceToNat]
    omega
  have hoff : (off + 16).toNat = off.toNat + 16 := toNat_add_of_le hchunk
  have hsplit : ∀ t : List UInt8, s ++ t = s.take 16 ++ (s.drop 16 ++ t) := fun t => by
    rw [← List.append_assoc, List.take_append_drop]
  have hbytes := h.bytes
  rw [hlen, read_add, hsplit] at hbytes
  obtain ⟨hfirst, hrest⟩ := List.append_inj hbytes (by simp [hs])
  refine ⟨fun temp => ?_, hoff, ?_⟩
  · rw [readNoinc_of_le temp hchunk, ← hfirst]
    rfl
  · refine ⟨fun c hc => h.nonzero c (List.mem_of_mem_drop hc), ?_, ?_⟩
    · rw [hoff, List.length_drop]
      omega
    · rw [hoff, List.length_drop, hrest]
      congr 2
      omega

theorem lastOf_lastChunk (hs : s.length < 16) : lastOf (lastChunk s) = 0 := by
  rw [lastOf, lastChunk, List.getElem?_append_right (by omega), List.getElem?_replicate]
  split <;> rfl

theorem lastOf_take (hs : 16 ≤ s.length) (hz : ∀ c ∈ s, c ≠ 0) : lastOf (s.take 16) ≠ 0 := by
  have hlt : 15 < s.length := by omega
  rw [lastOf, List.getElem?_take_of_lt (by decide), List.getElem?_eq_getElem hlt, Option.getD_some]
  exact hz _ (List.getElem_mem hlt)

theorem takeWhile_nonzero (hz : ∀ c ∈ s, c ≠ 0) : s.takeWhile (· ≠ 0) = s :=
  List.takeWhile_eq_self_iff.mpr fun c hc => by simpa using hz c hc

theorem strlenOf_lastChunk (hs : s.length < 16) (hz : ∀ c ∈ s, c ≠ 0) :
    strlenOf (lastChunk s) = s.length := by
  obtain ⟨k, hk⟩ := Nat.exists_eq_succ_of_ne_zero (Nat.sub_ne_zero_of_lt hs)
  rw [strlenOf, lastChunk, hk, List.replicate_succ, List.takeWhile_append_of_pos
    (fun c hc => by simpa using hz c hc)]
  simp

theorem copied_lastChunk {n : Nat} (hz : ∀ c ∈ s, c ≠ 0) :
    copied (lastChunk s) n = s.take n := by
  rw [copied, lastChunk, List.take_append, List.takeWhile_append_of_pos
    (fun c hc => by simpa using hz c (List.mem_of_mem_take hc)), List.take_replicate]
  cases min (n - s.length) (16 - s.length) with
  | zero => simp
  | succ k => simp [List.replicate_succ]

theorem copied_take {n : Nat} (hn : n ≤ 16) (hz : ∀ c ∈ s, c ≠ 0) :
    copied (s.take 16) n = s.take n := by
  rw [copied, List.take_take, Nat.min_eq_left hn,
    takeWhile_nonzero fun c hc => hz c (List.mem_of_mem_take hc)]

/-! ## The three walkers over a string -/

theorem stringLengthLoop_eq {last : List UInt8 → Nat} {fuel n : Nat} {temp : Option (List UInt8)}
    (h : IsString d off s) (hf : s.length / 16 < fuel) :
    stringLengthLoop d last fuel temp off n =
      some (n + 16 * (s.length / 16) + last (lastChunk (s.drop (16 * (s.length / 16))))) := by
  induction fuel generalizing off s n temp with
  | zero => exact absurd hf (Nat.not_lt_zero _)
  | succ fuel ih =>
    rcases Nat.lt_or_ge s.length 16 with hs | hs
    · rw [stringLengthLoop, h.short hs temp, Option.bind_eq_bind, Option.bind_some,
        if_pos (lastOf_lastChunk hs), Nat.div_eq_of_lt hs]
      simp
    · obtain ⟨hread, _, hrest⟩ := h.long hs
      have hdiv : s.length / 16 = (s.length - 16) / 16 + 1 := by omega
      have hdrop : (s.drop 16).length = s.length - 16 := List.length_drop
      rw [stringLengthLoop, hread, Option.bind_eq_bind, Option.bind_some,
        if_neg (lastOf_take hs h.nonzero), ih hrest (by rw [hdrop]; omega), List.drop_drop, hdrop,
        hdiv]
      congr 2
      · omega
      · congr 3
        omega

theorem length_div_lt (h : IsString d off s) : s.length / 16 < allOffsets := by
  have hin := h.inside
  have hlt := d.length.toNat_lt
  have hall : 2 ^ 32 < allOffsets := by decide
  rw [chunksLength] at hin
  omega

/-- `romfs_string_length` returns the length of the string. -/
theorem romfsStringLength_eq (h : IsString d off s) : romfsStringLength d off = some s.length := by
  have hlen : (s.drop (16 * (s.length / 16))).length = s.length % 16 := by
    rw [List.length_drop]
    omega
  rw [romfsStringLength, stringLengthLoop_eq h (length_div_lt h), strlenOf_lastChunk (by omega)
    fun c hc => h.nonzero c (List.mem_of_mem_drop hc), hlen]
  congr 1
  omega

/-- `romfs_string_length_chunks` returns the room of the string. -/
theorem romfsStringLengthChunks_eq (h : IsString d off s) :
    romfsStringLengthChunks d off = some (chunksLength s.length) := by
  rw [romfsStringLengthChunks, stringLengthLoop_eq h (length_div_lt h), chunksLength]
  congr 1
  omega

/-- One turn of `romfs_read_string`: the chunk is appended as far as there is room. -/
theorem catChunk_eq {buffer : Nat} (max : Int) {m : Mem} {acc chunk : List UInt8}
    (hm : StringAt m buffer acc) (hacc : acc.length < allOffsets) (hlen : chunk.length = 16)
    (hcopy : ∀ n ≤ 16, copied chunk n = s.take n) :
    catChunk m buffer chunk max =
      some (write m (buffer + acc.length) (s.take (min 16 max.toNat) ++ [0])) := by
  unfold catChunk
  split
  · have hn : (if max > 16 then 16 else max.toNat) = min 16 max.toNat := by
      split
      · rw [Nat.min_eq_left (by omega)]
      · rw [Nat.min_eq_right (by omega)]
    rw [hn, strncat_eq hm hacc (by omega), hcopy _ (Nat.min_le_left _ _)]
  · next hmax =>
    have hzero : max.toNat = 0 := by omega
    rw [hzero, Nat.min_zero, List.take_zero, List.nil_append, write_self]
    simpa [Bytes.read] using hm.nul

/-- The loop of `romfs_read_string` with `acc` in the buffer: it appends what there is
room for. -/
theorem readStringLoop_eq {buffer fuel : Nat} {temp : Option (List UInt8)} {max : Int} {m : Mem}
    {acc : List UInt8} (h : IsString d off s) (hf : s.length / 16 < fuel)
    (hm : StringAt m buffer acc) (hacc : acc.length + s.length < allOffsets) :
    readStringLoop d buffer fuel temp off max m =
      some (off + UInt32.ofNat (chunksLength s.length),
        write m (buffer + acc.length) (s.take max.toNat ++ [0])) := by
  induction fuel generalizing off s temp max m acc with
  | zero => exact absurd hf (Nat.not_lt_zero _)
  | succ fuel ih =>
    rcases Nat.lt_or_ge s.length 16 with hs | hs
    · have happend := catChunk_eq max hm (by omega)
        (show (lastChunk s).length = 16 by simp [lastChunk]; omega)
        (fun n _ => copied_lastChunk h.nonzero)
      have htake : s.take (min 16 max.toNat) = s.take max.toNat := by
        rcases Nat.le_total 16 max.toNat with hle | hle
        · rw [Nat.min_eq_left hle, List.take_of_length_le (by omega),
            List.take_of_length_le (by omega)]
        · rw [Nat.min_eq_right hle]
      have hroom : chunksLength s.length = 16 := by rw [chunksLength, Nat.div_eq_of_lt hs]
      simp only [readStringLoop, h.short hs temp, Option.bind_eq_bind, Option.bind_some, happend,
        if_pos (lastOf_lastChunk hs), htake, hroom]
      rfl
    · obtain ⟨hread, _, hrest⟩ := h.long hs
      have happend := catChunk_eq max hm (by omega)
        (show (s.take 16).length = 16 by simp [hs]) (fun n hn => copied_take hn h.nonzero)
      have hm' : StringAt (write m (buffer + acc.length) (s.take (min 16 max.toNat) ++ [0])) buffer
          (acc ++ s.take (min 16 max.toNat)) :=
        hm.extend fun c hc => h.nonzero c (List.mem_of_mem_take hc)
      have hdrop : (s.drop 16).length = s.length - 16 := List.length_drop
      have hlen : (acc ++ s.take (min 16 max.toNat)).length = acc.length + min 16 max.toNat := by
        rw [List.length_append, List.length_take]
        omega
      have htake : s.take (min 16 max.toNat) ++ (s.drop 16).take (max - 16).toNat =
          s.take max.toNat := by
        rcases Nat.le_total 16 max.toNat with hle | hle
        · have hsum : max.toNat = 16 + (max - 16).toNat := by omega
          rw [Nat.min_eq_left hle, hsum, List.take_add]
        · have hzero : (max - 16).toNat = 0 := by omega
          rw [Nat.min_eq_right hle, hzero, List.take_zero, List.append_nil]
      have hroom : chunksLength s.length = 16 + chunksLength (s.length - 16) := by
        unfold chunksLength
        omega
      simp only [readStringLoop, hread, Option.bind_eq_bind, Option.bind_some, happend,
        if_neg (lastOf_take hs h.nonzero)]
      rw [ih hrest (by rw [hdrop]; omega) hm' (by rw [hdrop, hlen]; omega), hdrop, hroom, hlen,
        UInt32.ofNat_add, ← htake, List.append_assoc]
      congr 2
      · exact UInt32.add_assoc _ _ _
      · have hk : (s.take (min 16 max.toNat)).length = min 16 max.toNat := by
          rw [List.length_take]
          omega
        rw [← Nat.add_assoc]
        nth_rewrite 2 [← hk]
        exact write_extend (by simp)

/-- `romfs_read_string` leaves the string in the buffer, as far as there is room, and
returns the room it takes up in the image. -/
theorem romfsReadString_eq {m : Mem} {buffer : Nat} {size : Int} (h : IsString d off s) :
    romfsReadString d off m buffer size =
      some (UInt32.ofNat (chunksLength s.length), write m buffer (s.take size.toNat ++ [0])) := by
  have hm : StringAt (write m buffer [0]) buffer [] := stringAt_write (s := []) (by simp)
  have hlen : ([] : List UInt8).length + s.length < allOffsets := by
    have hin := h.inside
    have hlt := d.length.toNat_lt
    have hall : 2 ^ 32 < allOffsets := by decide
    rw [chunksLength] at hin
    simp only [List.length_nil]
    omega
  rw [romfsReadString, readStringLoop_eq h (length_div_lt h) hm hlen, Option.map_some,
    List.length_nil, Nat.add_zero, write_overlap (by simp)]
  have hroom : off + UInt32.ofNat (chunksLength s.length) - off =
      UInt32.ofNat (chunksLength s.length) := by
    rw [UInt32.add_comm, UInt32.add_sub_cancel]
  simp only [hroom]

end Vmwos.Romfs
