import Vmwos.Lookup
import Vmwos.Runs

/-!
# Reading files

A run is a sequence of `open` calls on paths of regular files and `read` calls on the
descriptors they return. Every descriptor is read by one reader, which has a path and the
bytes returned so far.

Results:
1. `romfsReadFile_eq`, `romfsStat_eq`: one read and one `stat` of a regular file.
2. `readers_get_their_files`: what every reader has got, over all runs.
-/

namespace Vmwos.Romfs

open Bytes

variable {d : Ramdisk} {inode : UInt32} {data : List UInt8}

/-! ## 1. Regular files -/

/-- The header at `inode` is that of a regular file with the contents `data`. -/
def IsFile (d : Ramdisk) (inode : UInt32) (data : List UInt8) : Prop :=
  ∃ h, HasHeader d inode h ∧ h.type = 2 ∧ h.size.toNat = data.length ∧
    inode.toNat + 16 + chunksLength h.name.length + data.length ≤ d.length.toNat ∧
    Bytes.read d.start (inode.toNat + 16 + chunksLength h.name.length) data.length = data

/-- `romfs_read_file` stores the bytes from the offset on, at most to the end of the file. -/
theorem romfsReadFile_eq {off n : Nat} {count : UInt32} (h : IsFile d inode data)
    (hoff : off ≤ data.length) (hn : n = min count.toNat (data.length - off)) :
    romfsReadFile d inode (UInt32.ofNat off) count =
      some (UInt32.ofNat n, (data.drop off).take n) := by
  obtain ⟨h, hh, _, hsize, hin, hdata⟩ := h
  have hnat : ∀ k ≤ d.length.toNat, (UInt32.ofNat k).toNat = k := fun k hk =>
    UInt32.toNat_ofNat_of_lt' (Nat.lt_of_le_of_lt hk d.length.toNat_lt)
  have hoff' := hnat off (by omega)
  have hn' := hnat n (by omega)
  have hleft : (h.size - UInt32.ofNat off).toNat = data.length - off := by
    rw [UInt32.toNat_sub_of_le _ _ (by rw [UInt32.le_iff_toNat_le]; omega), hsize, hoff']
  have hmax : (if count > h.size - UInt32.ofNat off then h.size - UInt32.ofNat off else count) =
      UInt32.ofNat n := by
    apply UInt32.toNat_inj.mp
    rw [hn', hn]
    simp only [gt_iff_lt, UInt32.lt_iff_toNat_lt]
    split
    · omega
    · omega
  have hstart : (inode + 16 + UInt32.ofNat (chunksLength h.name.length) + UInt32.ofNat off).toNat =
      inode.toNat + 16 + chunksLength h.name.length + off := by
    have hlt := d.length.toNat_lt
    have hchunks := hnat (chunksLength h.name.length) (by omega)
    rw [UInt32.toNat_add, UInt32.toNat_add, hh.toNat_sixteen, hchunks, hoff']
    omega
  have hread : ramdiskRead d
      (inode + 16 + UInt32.ofNat (chunksLength h.name.length) + UInt32.ofNat off) (UInt32.ofNat n) =
      some ((data.drop off).take n) := by
    rw [ramdiskRead_of_le (by rw [hstart, hn']; omega), hstart, hn',
      read_slice (by omega) hdata]
  simp only [romfsReadFile, hh.readSize, Option.bind_eq_bind, Option.bind_some, hh.ntohl_size,
    romfsStringLengthChunks_eq hh.name_eq, hmax, hread]

theorem statLoop_file (fuel : Nat) {temp : Option (List UInt8)} (h : IsFile d inode data) :
    ∃ buf, statLoop d (fuel + 1) temp inode = some buf ∧ buf.stSize.toNat = data.length := by
  obtain ⟨h, hh, htype, hsize, _⟩ := h
  have hinfo : ¬ h.info &&& 7 = 0 := fun hzero => absurd (htype.symm.trans hzero) (by decide)
  simp only [statLoop, hh.readInfo, hh.readSpec, hh.readSize, Option.bind_eq_bind,
    Option.bind_some, hh.ntohl_info, if_neg hinfo, hh.ntohl_size]
  exact ⟨_, rfl, hsize⟩

/-- `romfs_stat` reports the size of the file. -/
theorem romfsStat_eq (h : IsFile d inode data) :
    ∃ buf, romfsStat d inode = some buf ∧ buf.stSize.toNat = data.length :=
  statLoop_file (2 ^ 32) h

end Vmwos.Romfs

namespace Vmwos.Reading

open Runs Romfs Files

/-! ## 2. Readers -/

/-- A descriptor, the path it was opened with, the contents of the file at that path, and
the bytes returned on the descriptor so far. -/
structure Reader where
  fd : UInt32
  currentDir : UInt32
  pathname : List UInt8
  data : List UInt8
  returned : List UInt8

/-- The statics of `files.c`, and the readers of the open descriptors. -/
structure Session where
  files : State
  readers : List Reader

/-- A call. An `open` comes with the contents of the file that it opens, which the code
does not see. -/
inductive Call where
  | open (currentDir : UInt32) (pathname data : List UInt8)
  | read (fd count : UInt32)

/-- The reader after a read on `fd`: the bytes it got are the first `result` in the buffer. -/
def Reader.got (r : Reader) (fd result : UInt32) (bytes : List UInt8) : Reader :=
  if r.fd = fd ∧ ¬ isNeg result then
    { r with returned := r.returned ++ bytes.take result.toNat }
  else r

/-- One call. -/
def step (d : Ramdisk) (console : UInt32 × List UInt8) (s : Session) : Call → Option Session
  | .open currentDir pathname data =>
    (openFile d s.files currentDir pathname).map fun
      | (result, files) =>
        ⟨files, if isNeg result then s.readers
          else ⟨result, currentDir, pathname, data, []⟩ :: s.readers⟩
  | .read fd count =>
    (Files.read d s.files console fd count).map fun
      | (result, bytes, files) => ⟨files, s.readers.map (·.got fd result bytes)⟩

/-- The path leads to a regular file with the contents `data`. -/
def OpensFile (d : Ramdisk) (f : State) (currentDir : UInt32) (pathname data : List UInt8) : Prop :=
  ∃ inode, getInode d f currentDir pathname = some inode ∧ IsFile d inode data

/-- The calls: an `open` on the path of a regular file, a `read` on a descriptor that an
`open` returned. -/
def Allowed (d : Ramdisk) (s : Session) : Call → Prop
  | .open currentDir pathname data => OpensFile d s.files currentDir pathname data
  | .read fd _ => fd ∈ s.readers.map Reader.fd

/-- Every reader has got the first bytes of its file. -/
def GotPrefix (s : Session) : Prop := ∀ r ∈ s.readers, r.returned <+: r.data

/-- A call completes. A read with a count other than 0 returns 0 only at the end of the
file, and then the reader has as many bytes as `stat` reports. It does not fail on a file
shorter than 2^31 bytes. It leaves the other descriptors alone. -/
def ReadsOn (d : Ramdisk) (console : UInt32 × List UInt8) (s : Session) : Call → Prop
  | .open currentDir pathname _ => ∃ result files,
      openFile d s.files currentDir pathname = some (result, files)
  | .read fd count => ∃ result bytes files,
      Files.read d s.files console fd count = some (result, bytes, files) ∧
        (∀ r ∈ s.readers, r.fd = fd →
          (count ≠ 0 → result = 0 → r.returned = r.data ∧
            ∃ buf, stat d files r.currentDir r.pathname = some (0, some buf) ∧
              buf.stSize.toNat = r.returned.length) ∧
          (r.data.length < 2 ^ 31 → ¬ isNeg result)) ∧
        ∀ j, j ≠ fd.toNat → files.fdTable j = s.files.fdTable j

/-- The descriptor of a reader is at the end of what the reader has got. -/
structure Positioned (d : Ramdisk) (f : State) (r : Reader) (inode : UInt32) : Prop where
  path : getInode d f r.currentDir r.pathname = some inode
  found : ¬ isNeg inode
  file : IsFile d inode r.data
  got : r.returned <+: r.data
  openOn : OpenOn f r.fd inode (UInt32.ofNat r.returned.length)

/-- The invariant of a run. -/
structure Reads (d : Ramdisk) (s : Session) : Prop where
  standard : ∀ j < 3, (s.files.fdTable j).valid ≠ 0
  positioned : ∀ r ∈ s.readers, ∃ inode, Positioned d s.files r inode
  used : ∀ r ∈ s.readers, 3 ≤ r.fd.toNat
  apart : (s.readers.map Reader.fd).Nodup

variable {d : Ramdisk} {console : UInt32 × List UInt8} {s : Session} {r : Reader}

/-! ### One call -/

/-- How many bytes the next read of `count` gets. -/
def Reader.next (r : Reader) (count : UInt32) : Nat :=
  min count.toNat (r.data.length - r.returned.length)

theorem Reader.toNat_next (r : Reader) (count : UInt32) :
    (UInt32.ofNat (r.next count)).toNat = r.next count :=
  UInt32.toNat_ofNat_of_lt' (Nat.lt_of_le_of_lt (Nat.min_le_left _ _) count.toNat_lt)

theorem read_eq (console : UInt32 × List UInt8) (count : UInt32) {f : State} {inode : UInt32}
    (h : Positioned d f r inode) (hfd : 3 ≤ r.fd.toNat) :
    Files.read d f console r.fd count =
      some (UInt32.ofNat (r.next count), (r.data.drop r.returned.length).take (r.next count),
        if r.next count < 2 ^ 31 then
          moveTo f r.fd inode (UInt32.ofNat (r.returned.length + r.next count))
        else f) := by
  obtain ⟨hlt, hinfo⟩ := h.openOn
  have hne : ¬ r.fd = 0 := by
    intro hzero
    rw [hzero] at hfd
    exact absurd hfd (by decide)
  have hnat := r.toNat_next count
  have hread := romfsReadFile_eq h.file h.got.length_le (show r.next count = _ from rfl)
  simp only [Files.read, if_neg hne, if_neg (not_le.mpr hlt), hinfo,
    if_neg (show ¬ (1 : UInt32) = 0 by decide), hread, Option.bind_eq_bind, Option.bind_some]
  by_cases hsmall : r.next count < 2 ^ 31
  · by_cases hzero : UInt32.ofNat (r.next count) = 0
    · have hn : r.next count = 0 := by
        rw [← hnat, hzero]
        rfl
      rw [if_neg fun hmore => hmore.2 hzero, if_pos hsmall, hn, Nat.add_zero,
        moveTo_self h.openOn]
    · rw [if_pos ⟨by rw [isNeg, hnat]; omega, hzero⟩, if_pos hsmall, UInt32.ofNat_add]
      rfl
  · rw [if_neg fun hmore => hmore.1 (by rw [isNeg, hnat]; omega), if_neg hsmall]

theorem Positioned.moveTo_of_ne {f : State} {inode inode' fd filePtr : UInt32}
    (h : Positioned d f r inode) (hne : r.fd ≠ fd) :
    Positioned d (moveTo f fd inode' filePtr) r inode :=
  { h with openOn := openOn_moveTo_of_ne h.openOn hne, path := h.path }

theorem Positioned.got_next {f : State} {inode count : UInt32} (h : Positioned d f r inode)
    (hsmall : r.next count < 2 ^ 31) :
    Positioned d (moveTo f r.fd inode (UInt32.ofNat (r.returned.length + r.next count)))
      (r.got r.fd (UInt32.ofNat (r.next count))
        ((r.data.drop r.returned.length).take (r.next count))) inode := by
  have hnat := r.toNat_next count
  have hle : r.next count ≤ r.data.length - r.returned.length := Nat.min_le_right _ _
  have htake : r.returned ++ (r.data.drop r.returned.length).take (r.next count) =
      r.data.take (r.returned.length + r.next count) := by
    rw [List.take_add, ← List.prefix_iff_eq_take.mp h.got]
  have hlen : (r.data.take (r.returned.length + r.next count)).length =
      r.returned.length + r.next count := by
    have := h.got.length_le
    rw [List.length_take]
    omega
  rw [Reader.got, if_pos ⟨rfl, by rw [isNeg, hnat]; omega⟩, hnat, List.take_take, Nat.min_self,
    htake]
  refine ⟨h.path, h.found, h.file, List.take_prefix _ _, ?_⟩
  rw [hlen]
  exact openOn_moveTo h.openOn.1

theorem Reader.got_fd (r : Reader) (fd result : UInt32) (bytes : List UInt8) :
    (r.got fd result bytes).fd = r.fd := by
  unfold Reader.got
  split
  · rfl
  · rfl

theorem map_got_fd (readers : List Reader) (fd result : UInt32) (bytes : List UInt8) :
    (readers.map (·.got fd result bytes)).map Reader.fd = readers.map Reader.fd := by
  rw [List.map_map]
  exact List.map_congr_left fun r _ => r.got_fd _ _ _

theorem Reader.got_of_ne {fd result : UInt32} {bytes : List UInt8} (h : r.fd ≠ fd) :
    r.got fd result bytes = r :=
  if_neg fun hgot => h hgot.1

theorem Reader.got_of_isNeg {fd result : UInt32} {bytes : List UInt8} (h : isNeg result) :
    r.got fd result bytes = r :=
  if_neg fun hgot => hgot.2 h

theorem stat_eq {f : State} {currentDir inode : UInt32} {pathname data : List UInt8}
    (hpath : getInode d f currentDir pathname = some inode) (hfound : ¬ isNeg inode)
    (hfile : IsFile d inode data) :
    ∃ buf, stat d f currentDir pathname = some (0, some buf) ∧
      buf.stSize.toNat = data.length := by
  obtain ⟨buf, hstat, hsize⟩ := romfsStat_eq hfile
  refine ⟨buf, ?_, hsize⟩
  simp only [stat, hpath, Option.bind_eq_bind, Option.bind_some, if_neg hfound, hstat]

/-- A read returns 0 only at the end of the file. -/
theorem Positioned.at_end {f : State} {inode count : UInt32} (h : Positioned d f r inode)
    (hcount : count ≠ 0) (hzero : UInt32.ofNat (r.next count) = 0) : r.returned = r.data := by
  have hnat := r.toNat_next count
  rw [hzero, Reader.next] at hnat
  have hpos : count.toNat ≠ 0 := fun h0 => hcount (UInt32.toNat_inj.mp h0)
  have hle := h.got.length_le
  refine h.got.eq_of_length (Nat.le_antisymm hle ?_)
  rw [UInt32.toNat_zero] at hnat
  omega

theorem readsOn_of_reads (h : Reads d s) {call : Call} (hallowed : Allowed d s call) :
    ReadsOn d console s call := by
  cases call with
  | «open» currentDir pathname data =>
    obtain ⟨inode, hpath, _⟩ := hallowed
    simp only [ReadsOn, openFile, hpath, Option.bind_eq_bind, Option.bind_some]
    split
    · exact ⟨_, _, rfl⟩
    · exact ⟨_, _, rfl⟩
  | read fd count =>
    obtain ⟨r, hr, rfl⟩ := List.mem_map.mp hallowed
    obtain ⟨inode, hpos⟩ := h.positioned r hr
    refine ⟨_, _, _, read_eq console count hpos (h.used r hr), fun r' hr' heq => ?_,
      fun j hj => ?_⟩
    · cases List.inj_on_of_nodup_map h.apart hr' hr heq
      refine ⟨fun hcount hzero => ?_, fun hshort => ?_⟩
      · have hend := hpos.at_end hcount hzero
        refine ⟨hend, ?_⟩
        rw [hend]
        refine stat_eq ?_ hpos.found hpos.file
        split
        · exact hpos.path
        · exact hpos.path
      · have hle : r.next count ≤ r.data.length - r.returned.length := Nat.min_le_right _ _
        rw [isNeg, r.toNat_next]
        omega
    · split
      · exact Function.update_of_ne hj _ _
      · rfl

/-- An `open` adds a reader at the start of its file. -/
theorem reads_open (h : Reads d s) {currentDir inode fd : UInt32} {pathname data : List UInt8}
    {t : FdTable} (hpath : getInode d s.files currentDir pathname = some inode)
    (hfile : IsFile d inode data) (hfound : ¬ isNeg inode)
    (halloc : fdAllocate s.files.fdTable inode = (fd, t)) (hfd : ¬ isNeg fd) :
    Reads d ⟨{ s.files with fdTable := t }, ⟨fd, currentDir, pathname, data, []⟩ :: s.readers⟩ := by
  obtain ⟨hlt, hfree, rfl⟩ := fdAllocate_opened halloc hfd
  have hthree : 3 ≤ fd.toNat := by
    by_contra hlow
    exact h.standard fd.toNat (by omega) hfree
  have hother : ∀ r ∈ s.readers, r.fd ≠ fd := by
    rintro r hr rfl
    obtain ⟨_, hpos⟩ := h.positioned r hr
    rw [hpos.openOn.2] at hfree
    exact absurd hfree (show ¬ (1 : UInt32) = 0 by decide)
  refine ⟨fun j hj => ?_, fun r hr => ?_, fun r hr => ?_, ?_⟩
  · have hne : j ≠ fd.toNat := by omega
    simp only [Function.update_of_ne hne]
    exact h.standard j hj
  · rcases List.mem_cons.mp hr with rfl | hr
    · exact ⟨inode, hpath, hfound, hfile, List.nil_prefix, openOn_moveTo hlt⟩
    · obtain ⟨inode', hpos⟩ := h.positioned r hr
      exact ⟨inode', hpos.moveTo_of_ne (hother r hr)⟩
  · rcases List.mem_cons.mp hr with rfl | hr
    · exact hthree
    · exact h.used r hr
  · refine List.nodup_cons.mpr ⟨fun hmem => ?_, h.apart⟩
    obtain ⟨r, hr, heq⟩ := List.mem_map.mp hmem
    exact hother r hr heq

/-- A read moves one reader on. -/
theorem reads_read (h : Reads d s) (hr : r ∈ s.readers) {inode count : UInt32}
    (hpos : Positioned d s.files r inode) (hsmall : r.next count < 2 ^ 31) :
    Reads d ⟨moveTo s.files r.fd inode (UInt32.ofNat (r.returned.length + r.next count)),
      s.readers.map (·.got r.fd (UInt32.ofNat (r.next count))
        ((r.data.drop r.returned.length).take (r.next count)))⟩ := by
  refine ⟨fun j hj => ?_, fun r' hr' => ?_, fun r' hr' => ?_, ?_⟩
  · have hne : j ≠ r.fd.toNat := by
      have := h.used r hr
      omega
    simp only [moveTo, Function.update_of_ne hne]
    exact h.standard j hj
  · obtain ⟨r₀, hr₀, rfl⟩ := List.mem_map.mp hr'
    by_cases heq : r₀.fd = r.fd
    · cases List.inj_on_of_nodup_map h.apart hr₀ hr heq
      exact ⟨inode, hpos.got_next hsmall⟩
    · obtain ⟨inode', hpos'⟩ := h.positioned r₀ hr₀
      rw [Reader.got_of_ne heq]
      exact ⟨inode', hpos'.moveTo_of_ne heq⟩
  · obtain ⟨r₀, hr₀, rfl⟩ := List.mem_map.mp hr'
    rw [Reader.got_fd]
    exact h.used r₀ hr₀
  · rw [map_got_fd]
    exact h.apart

theorem reads_step (h : Reads d s) {call : Call} (hallowed : Allowed d s call) {s' : Session}
    (hs : step d console s call = some s') : Reads d s' := by
  cases call with
  | «open» currentDir pathname data =>
    obtain ⟨inode, hpath, hfile⟩ := hallowed
    by_cases hfound : isNeg inode
    · simp only [step, openFile, hpath, Option.bind_eq_bind, Option.bind_some, if_pos hfound,
        Option.map_some, if_pos (show isNeg eNOENT by decide)] at hs
      cases hs
      exact h
    · simp only [step, openFile, hpath, Option.bind_eq_bind, Option.bind_some, if_neg hfound,
        Option.map_some] at hs
      cases hs
      split
      · next hneg =>
        have hsame : (fdAllocate s.files.fdTable inode).2 = s.files.fdTable :=
          fdAllocate_failed rfl hneg
        rw [hsame]
        exact h
      · next hneg => exact reads_open h hpath hfile hfound rfl hneg
  | read fd count =>
    obtain ⟨r, hr, rfl⟩ := List.mem_map.mp hallowed
    obtain ⟨inode, hpos⟩ := h.positioned r hr
    rw [step, read_eq console count hpos (h.used r hr), Option.map_some] at hs
    cases hs
    by_cases hsmall : r.next count < 2 ^ 31
    · simp only [if_pos hsmall]
      exact reads_read h hr hpos hsmall
    · have hneg : isNeg (UInt32.ofNat (r.next count)) := by
        rw [isNeg, r.toNat_next]
        omega
      have hsame : s.readers.map (·.got r.fd (UInt32.ofNat (r.next count))
          ((r.data.drop r.returned.length).take (r.next count))) = s.readers :=
        (List.map_congr_left fun r' _ => Reader.got_of_isNeg hneg).trans (List.map_id _)
      simp only [if_neg hsmall, hsame]
      exact h

/-! ### Whole runs -/

theorem reads_init (d : Ramdisk) (t : FdTable) (rootDir : UInt32) :
    Reads d ⟨⟨fdTableInit t, rootDir⟩, []⟩ := by
  refine ⟨fun j hj => ?_, fun r hr => absurd hr List.not_mem_nil,
    fun r hr => absurd hr List.not_mem_nil, List.nodup_nil⟩
  simp only [fdTableInit, if_pos hj]
  decide

/-- File reads through descriptors. A path that names a file is one that `open` finds it
by. Along every run of opens of regular files and reads, every reader has got the first
bytes of its own file, and every call does what it should. -/
theorem readers_get_their_files (d : Ramdisk) (console : UInt32 × List UInt8) (t : FdTable)
    (rootDir : UInt32) (calls : List Call)
    (hallowed : AllSteps (step d console) (Allowed d) ⟨⟨fdTableInit t, rootDir⟩, []⟩ calls) :
    (∀ currentDir pathname inode data, Names d rootDir currentDir pathname inode →
        IsFile d inode data → ∀ t', OpensFile d ⟨t', rootDir⟩ currentDir pathname data) ∧
      AllStates (step d console) GotPrefix ⟨⟨fdTableInit t, rootDir⟩, []⟩ calls ∧
      AllSteps (step d console) (ReadsOn d console) ⟨⟨fdTableInit t, rootDir⟩, []⟩ calls := by
  have hstart := reads_init d t rootDir
  refine ⟨?_, ?_, ?_⟩
  · intro currentDir pathname inode data hnames hfile t'
    exact ⟨inode, getInode_eq hnames, hfile⟩
  · refine AllStates.of_inv (fun s call s' hs hc hstep => reads_step hs hc hstep)
      (fun s hs r hr => ?_) hstart hallowed
    obtain ⟨_, hpos⟩ := hs.positioned r hr
    exact hpos.got
  · exact AllSteps.imp_of_inv (fun s call hs hc =>
      ⟨readsOn_of_reads hs hc, fun s' hstep => reads_step hs hc hstep⟩) hstart hallowed

/-- A volume `vmwos` whose root directory has the file `a` with the two bytes `hi`. -/
def helloHeader : Header := ⟨2, 0, 2, [97]⟩
def helloImage : List UInt8 :=
  [45, 114, 111, 109, 49, 102, 115, 45] ++ beBytes 112 ++ beBytes 0 ++
    padded [118, 109, 119, 111, 115] ++ headerBytes ⟨1, 64, 0, [46]⟩ ++ headerBytes helloHeader ++
    padded [104, 105]
def helloDisk : Ramdisk := ⟨fun i => helloImage[i]?.getD 0, 112⟩

theorem hello_file : IsFile helloDisk 64 [104, 105] :=
  ⟨helloHeader, by decide +kernel, by decide, by decide, by decide, by decide +kernel⟩

/-- The file is read by one byte, then to its end, and once more. -/
def helloCalls : List Call := [.open 0 [47, 97] [104, 105], .read 3 1, .read 3 5, .read 3 1]
def helloStart : Session := ⟨⟨fdTableInit fun _ => ⟨0, 0, 0⟩, 32⟩, []⟩

theorem hello_allowed :
    AllSteps (step helloDisk (0, [])) (Allowed helloDisk) helloStart helloCalls := by
  have hreads : ∀ s : Session, s.readers.map Reader.fd = [3] → ∀ counts : List UInt32,
      AllSteps (step helloDisk (0, [])) (Allowed helloDisk) s (counts.map (Call.read 3)) := by
    intro s hs counts
    induction counts generalizing s with
    | nil => trivial
    | cons count counts ih =>
      refine allSteps_cons.mpr ⟨show 3 ∈ s.readers.map Reader.fd by simp [hs], fun s' hstep => ?_⟩
      obtain ⟨⟨result, bytes, files⟩, _, rfl⟩ := Option.map_eq_some_iff.mp hstep
      exact ih _ ((map_got_fd _ _ _ _).trans hs)
  refine allSteps_cons.mpr ⟨⟨64, by decide +kernel, hello_file⟩, fun s hstep => ?_⟩
  have hopen : (step helloDisk (0, []) helloStart (.open 0 [47, 97] [104, 105])).map
      (fun s => s.readers.map Reader.fd) = some [3] := by decide +kernel
  rw [hstep] at hopen
  exact hreads s (Option.some.inj hopen) [1, 5, 1]

theorem readers_get_their_files_hello :
    AllStates (step helloDisk (0, [])) GotPrefix helloStart helloCalls ∧
      AllSteps (step helloDisk (0, [])) (ReadsOn helloDisk (0, [])) helloStart helloCalls :=
  (readers_get_their_files helloDisk (0, []) (fun _ => ⟨0, 0, 0⟩) 32 helloCalls hello_allowed).2

end Vmwos.Reading
