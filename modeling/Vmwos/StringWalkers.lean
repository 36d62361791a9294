import Vmwos.RomfsImage

/-!
# The string walkers of romfs

`romfs_string_length`, `romfs_string_length_chunks` and `romfs_read_string` find the end of a
string by the last byte of each chunk. Here the writes of `romfs_read_string` are listed: the
addresses that its `strncat` stores to, chunk by chunk, with the NUL behind each.

* `readStringLoopWrites_eq`: the writes end where the string or the room does.

Result: `string_walkers_agree`. The three agree on every string of an image, and the buffer gets
as much of it as it has room for.
-/

namespace Vmwos.Romfs

open Bytes

/-! ## The writes -/

/-- What the copying loop of `strncat` stores to, from the end of the destination on: `turns` are left
and `i` are done. -/
def strncatLoopWrites (src : List UInt8) : Nat → Nat → List Nat
  | 0, _ => []
  | turns + 1, i => i :: if src[i]?.getD 0 = 0 then [] else strncatLoopWrites src turns (i + 1)

/-- The writes of `strncat`, with the NUL at the end. -/
def strncatWrites (m : Mem) (fuel dest : Nat) (src : List UInt8) (n : Nat) : Option (List Nat) :=
  (strlen m fuel dest).map fun len =>
    (strncatLoopWrites src n 0 ++ [(strncatLoop m (dest + len) src n 0).2]).map (dest + len + ·)

/-- The writes of one turn of `romfs_read_string`. -/
def catChunkWrites (m : Mem) (buffer : Nat) (tempBuffer : List UInt8) (maxStringsize : Int) :
    Option (List Nat) :=
  if maxStringsize > 0 then
    strncatWrites m allOffsets buffer tempBuffer
      (if maxStringsize > 16 then 16 else maxStringsize.toNat)
  else some []

/-- The writes of the loop of `romfs_read_string`. -/
def readStringLoopWrites (d : Ramdisk) (buffer : Nat) :
    Nat → Option (List UInt8) → UInt32 → Int → Mem → Option (List Nat)
  | 0, _, _, _, _ => none
  | fuel + 1, tempBuffer, ourOffset, maxStringsize, m => do
    let tempBuffer ← romfsReadNoinc d tempBuffer ourOffset 16
    let ourOffset := ourOffset + 16
    let writes ← catChunkWrites m buffer tempBuffer maxStringsize
    let m ← catChunk m buffer tempBuffer maxStringsize
    if lastOf tempBuffer = 0 then some writes
    else
      (readStringLoopWrites d buffer fuel (some tempBuffer) ourOffset (maxStringsize - 16) m).map
        (writes ++ ·)

/-- The writes of `romfs_read_string`. -/
def romfsReadStringWrites (d : Ramdisk) (offset : UInt32) (m : Mem) (buffer : Nat) (size : Int) :
    Option (List Nat) :=
  (readStringLoopWrites d buffer allOffsets none offset size (write m buffer [0])).map (buffer :: ·)

/-- The writes lie from `buffer` to `last`, and if there was room the last of them is there. -/
structure WritesTo (writes : List Nat) (buffer last : Nat) (room : Prop) : Prop where
  inside : ∀ w ∈ writes, buffer ≤ w ∧ w ≤ last
  last : room → last ∈ writes

/-! ## One chunk -/

variable {d : Ramdisk} {off : UInt32} {s acc chunk : List UInt8} {m : Mem} {buffer : Nat}

theorem strncatLoopWrites_le {src : List UInt8} {turns i : Nat} (h : i + turns ≤ src.length) :
    ∀ w ∈ strncatLoopWrites src turns i, i ≤ w ∧ w ≤ i + (copied (src.drop i) turns).length := by
  induction turns generalizing i with
  | zero => simp [strncatLoopWrites]
  | succ turns ih =>
    have hlt : i < src.length := by omega
    have hget : src[i]?.getD 0 = src[i] := by simp [hlt]
    have hdrop : src.drop i = src[i] :: src.drop (i + 1) := List.drop_eq_getElem_cons hlt
    intro w hw
    rw [strncatLoopWrites, hget, List.mem_cons] at hw
    by_cases hc : src[i] = 0
    · rw [if_pos hc] at hw
      rcases hw with rfl | hw
      · omega
      · exact absurd hw List.not_mem_nil
    · have hcopy : copied (src.drop i) (turns + 1) = src[i] :: copied (src.drop (i + 1)) turns := by
        rw [copied, hdrop, List.take_succ_cons, List.takeWhile_cons_of_pos (by simp [hc])]
        rfl
      rw [if_neg hc] at hw
      rw [hcopy, List.length_cons]
      rcases hw with rfl | hw
      · omega
      · have hle := ih (by omega) w hw
        omega

/-- The NUL of `strncat` is its last write. -/
theorem strncatWrites_eq {src : List UInt8} {fuel n : Nat} (hs : StringAt m buffer acc)
    (hf : acc.length < fuel) (hn : n ≤ src.length) (room : Prop) :
    ∃ writes, strncatWrites m fuel buffer src n = some writes ∧
      WritesTo writes buffer (buffer + acc.length + (copied src n).length) room := by
  obtain ⟨i', h₁, h₂, _⟩ :=
    strncatLoop_eq m (buffer + acc.length) (show 0 + n ≤ src.length by simpa)
  rw [List.drop_zero, Nat.zero_add] at h₂
  refine ⟨_, by rw [strncatWrites, hs.strlen hf, Option.map_some], ⟨fun w hw => ?_, fun _ => ?_⟩⟩
  · obtain ⟨i, hi, rfl⟩ := List.mem_map.mp hw
    rcases List.mem_append.mp hi with hi | hi
    · have hle := strncatLoopWrites_le (show 0 + n ≤ src.length by simpa) i hi
      rw [List.drop_zero] at hle
      omega
    · rw [List.mem_singleton.mp hi, h₁]
      omega
  · refine List.mem_map.mpr ⟨i', List.mem_append_right _ ?_, by omega⟩
    rw [h₁]
    exact List.mem_singleton.mpr rfl

/-- The writes of one turn of `romfs_read_string`. -/
theorem catChunkWrites_eq (max : Int) (hm : StringAt m buffer acc) (hacc : acc.length < allOffsets)
    (hlen : chunk.length = 16) (hcopy : ∀ n ≤ 16, copied chunk n = s.take n) :
    ∃ writes, catChunkWrites m buffer chunk max = some writes ∧
      WritesTo writes buffer (buffer + acc.length + min 16 (min max.toNat s.length)) (0 < max) := by
  unfold catChunkWrites
  split
  next hmax =>
    have hn : (if max > 16 then 16 else max.toNat) = min 16 max.toNat := by
      split
      · rw [Nat.min_eq_left (by omega)]
      · rw [Nat.min_eq_right (by omega)]
    obtain ⟨writes, hwrites, hto⟩ :=
      strncatWrites_eq hm hacc (show min 16 max.toNat ≤ chunk.length by omega) (0 < max)
    rw [hcopy _ (Nat.min_le_left _ _), List.length_take, Nat.min_assoc] at hto
    rw [hn]
    exact ⟨writes, hwrites, hto⟩
  next hmax => exact ⟨[], rfl, ⟨fun w hw => absurd hw List.not_mem_nil, fun hpos => absurd hpos hmax⟩⟩

/-! ## All chunks -/

/-- The writes of the loop end where the string or the room does. -/
theorem readStringLoopWrites_eq {fuel : Nat} {temp : Option (List UInt8)} {max : Int}
    (h : IsString d off s) (hf : s.length / 16 < fuel) (hm : StringAt m buffer acc)
    (hacc : acc.length + s.length < allOffsets) :
    ∃ writes, readStringLoopWrites d buffer fuel temp off max m = some writes ∧
      WritesTo writes buffer (buffer + acc.length + min max.toNat s.length) (0 < max) := by
  induction fuel generalizing off s temp max m acc with
  | zero => exact absurd hf (Nat.not_lt_zero _)
  | succ fuel ih =>
    rcases Nat.lt_or_ge s.length 16 with hs | hs
    · have hlength : (lastChunk s).length = 16 := by
        simp only [lastChunk, List.length_append, List.length_replicate]
        omega
      have hcopy : ∀ n ≤ 16, copied (lastChunk s) n = s.take n :=
        fun n _ => copied_lastChunk h.nonzero
      obtain ⟨writes, hwrites, hto⟩ := catChunkWrites_eq max hm (by omega) hlength hcopy
      have happend := catChunk_eq max hm (by omega) hlength hcopy
      refine ⟨writes, ?_, ?_⟩
      · simp only [readStringLoopWrites, h.short hs temp, Option.bind_eq_bind, Option.bind_some,
          hwrites, happend, if_pos (lastOf_lastChunk hs)]
      · rwa [Nat.min_eq_right (by omega : min max.toNat s.length ≤ 16)] at hto
    · obtain ⟨hread, _, hrest⟩ := h.long hs
      have hlength : (s.take 16).length = 16 := by simp [hs]
      have hcopy : ∀ n ≤ 16, copied (s.take 16) n = s.take n := fun n hn => copied_take hn h.nonzero
      obtain ⟨writes, hwrites, hto⟩ := catChunkWrites_eq max hm (by omega) hlength hcopy
      have happend := catChunk_eq max hm (by omega) hlength hcopy
      have hm' : StringAt (write m (buffer + acc.length) (s.take (min 16 max.toNat) ++ [0])) buffer
          (acc ++ s.take (min 16 max.toNat)) :=
        hm.extend fun c hc => h.nonzero c (List.mem_of_mem_take hc)
      have hdrop : (s.drop 16).length = s.length - 16 := List.length_drop
      have hlen : (acc ++ s.take (min 16 max.toNat)).length = acc.length + min 16 max.toNat := by
        rw [List.length_append, List.length_take]
        omega
      obtain ⟨writes', hwrites', hto'⟩ :=
        @ih _ _ _ _ (some (s.take 16)) (max - 16) hrest (by rw [hdrop]; omega) hm'
          (by rw [hdrop, hlen]; omega)
      rw [hdrop, hlen] at hto'
      refine ⟨writes ++ writes', ?_, ⟨fun w hw => ?_, fun hroom => ?_⟩⟩
      · simp only [readStringLoopWrites, hread, Option.bind_eq_bind, Option.bind_some, hwrites,
          happend, if_neg (lastOf_take hs h.nonzero), hwrites', Option.map_some]
      · rcases List.mem_append.mp hw with hw | hw
        · have hle := hto.inside w hw
          omega
        · have hle := hto'.inside w hw
          omega
      · by_cases hmore : 0 < max - 16
        · have hlast := hto'.last hmore
          rw [show buffer + acc.length + min max.toNat s.length = buffer +
            (acc.length + min 16 max.toNat) + min (max - 16).toNat (s.length - 16) by omega]
          exact List.mem_append_right _ hlast
        · have hlast := hto.last hroom
          rw [show buffer + acc.length + min max.toNat s.length =
            buffer + acc.length + min 16 (min max.toNat s.length) by omega]
          exact List.mem_append_left _ hlast

/-- The writes of `romfs_read_string`, for a string of the image. -/
theorem romfsReadStringWrites_eq {size : Int} (h : IsString d off s) (m : Mem) (buffer : Nat) :
    ∃ writes, romfsReadStringWrites d off m buffer size = some writes ∧
      WritesTo writes buffer (buffer + min size.toNat s.length) (0 < size) := by
  have hm : StringAt (write m buffer [0]) buffer [] := stringAt_write (s := []) (by simp)
  have hlen : ([] : List UInt8).length + s.length < allOffsets := by
    have hin := h.inside
    have hlt := d.length.toNat_lt
    have hall : 2 ^ 32 < allOffsets := by decide
    rw [chunksLength] at hin
    simp only [List.length_nil]
    omega
  obtain ⟨writes, hwrites, hto⟩ :=
    @readStringLoopWrites_eq _ _ _ _ _ buffer allOffsets none size h (length_div_lt h) hm hlen
  refine ⟨buffer :: writes, ?_, ⟨fun w hw => ?_, fun hroom => List.mem_cons_of_mem _ (hto.last hroom)⟩⟩
  · rw [romfsReadStringWrites, hwrites, Option.map_some]
  · rcases List.mem_cons.mp hw with rfl | hw
    · exact ⟨le_refl _, Nat.le_add_right _ _⟩
    · exact hto.inside w hw

/-- For every string of an image and every size: `romfs_string_length` returns its length, the other
two return the length of its chunks, and `romfs_read_string` leaves in the buffer what there is
room for, with a NUL behind it, and writes nowhere else. -/
theorem string_walkers_agree {d : Ramdisk} {off : UInt32} {s : List UInt8} (h : IsString d off s)
    (m : Mem) (buffer n : Nat) :
    romfsStringLength d off = some s.length ∧
    romfsStringLengthChunks d off = some (16 * (s.length / 16 + 1)) ∧
    ∃ m' writes,
      romfsReadString d off m buffer n = some (UInt32.ofNat (16 * (s.length / 16 + 1)), m') ∧
      read m' buffer (min s.length n + 1) = s.take n ++ [0] ∧
      romfsReadStringWrites d off m buffer n = some writes ∧
      ∀ w ∈ writes, buffer ≤ w ∧ w ≤ buffer + min s.length n := by
  obtain ⟨writes, hwrites, hto⟩ := @romfsReadStringWrites_eq _ _ _ n h m buffer
  refine ⟨romfsStringLength_eq h, romfsStringLengthChunks_eq h, _, writes, romfsReadString_eq h, ?_,
    hwrites, fun w hw => ?_⟩
  · have hlength : min s.length n + 1 = (s.take n ++ [0]).length := by
      rw [List.length_append, List.length_take, List.length_singleton, Nat.min_comm]
    rw [hlength]
    exact read_write
  · have hle := hto.inside w hw
    rw [Int.toNat_natCast, Nat.min_comm] at hle
    exact hle

/-- The string `aaa` in a buffer with room for two characters. -/
theorem string_walkers_agree_short :
    romfsStringLength ⟨fun k => if k < 3 then 97 else 0, 16⟩ 0 = some 3 ∧
      ∃ m', romfsReadString ⟨fun k => if k < 3 then 97 else 0, 16⟩ 0 (fun _ => 1) 8 2 =
        some (16, m') ∧ read m' 8 3 = [97, 97, 0] := by
  have hstring : IsString ⟨fun k => if k < 3 then 97 else 0, 16⟩ 0 [97, 97, 97] := by
    decide +kernel
  obtain ⟨hlength, -, m', -, hread, hbuffer, -⟩ := string_walkers_agree hstring (fun _ => 1) 8 2
  exact ⟨hlength, m', hread, hbuffer⟩

end Vmwos.Romfs
