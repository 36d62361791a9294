import Vmwos.Lookup
import Vmwos.StringWalkers

/-!
# The file name of `romfs_get_inode`

`romfs_get_inode` reads the name of each entry into `filename`, an array of `MAX_FILENAME_SIZE`
characters, and passes the size of the array as the number of characters to copy. `strncat` puts
its NUL behind them, so a name of that size or longer is ended outside the array.

Result: `get_inode_writes_iff`.
-/

namespace Vmwos.Romfs

open Bytes

/-! ## Definitions -/

/-- The indices of `filename` that the loop of `romfs_get_inode` writes. -/
def getInodeLoopWrites (d : Ramdisk) (name : Mem) :
    Nat → List UInt8 → UInt32 → Mem → Option (List Nat)
  | 0, _, _, _ => none
  | fuel + 1, tempInt, offset, filename => do
    let tempInt ← romfsReadNoinc d (some tempInt) offset 4
    let next := ntohl tempInt &&& ~~~0xf
    let writes ← romfsReadStringWrites d (offset + 16) filename 0 maxFilenameSize
    let (_, filename) ← romfsReadString d (offset + 16) filename 0 maxFilenameSize
    if strncmp name filename maxFilenameSize = 0 then some writes
    else if next = 0 then some writes
    else (getInodeLoopWrites d name fuel tempInt next filename).map (writes ++ ·)

/-- The indices of `filename` that `romfs_get_inode` writes. -/
def romfsGetInodeWrites (d : Ramdisk) (dirInode : UInt32) (name : Mem) : Option (List Nat) := do
  let tempInt ← romfsReadNoinc d none dirInode 4
  let next := ntohl tempInt
  let tempInt ← romfsReadNoinc d (some tempInt) (dirInode + 4) 4
  let spec := ntohl tempInt
  if next &&& 7 ≠ 1 then some []
  else getInodeLoopWrites d name allOffsets tempInt spec fun _ => 0

/-- The function writes to `filename`, and only inside the array. -/
def WritesInside (writes : Option (List Nat)) : Prop :=
  ∃ ws, writes = some ws ∧ ∀ w ∈ ws, w < maxFilenameSize

/-- An entry whose name has 256 characters or more comes behind one that has the name looked for. -/
def LongNamesBehind (es : List Entry) (name : List UInt8) : Prop :=
  ∀ before e after, es = before ++ e :: after → maxFilenameSize ≤ e.header.name.length →
    ∃ e' ∈ before, e'.header.name = name

/-! ## One entry -/

variable {d : Ramdisk} {inode : UInt32} {name : List UInt8} {m : Mem}

/-- One turn of the loop. The name is ended at its length, or at 256. -/
theorem getInodeLoopWrites_turn {h : Header} (fuel : Nat) (temp : List UInt8) (filename : Mem)
    (hh : HasHeader d inode h) :
    ∃ (ws : List Nat) (filename' : Mem),
      StringAt filename' 0 (h.name.take maxFilenameSize) ∧
      WritesTo ws 0 (min maxFilenameSize h.name.length) True ∧
      getInodeLoopWrites d m (fuel + 1) temp inode filename =
        if strncmp m filename' maxFilenameSize = 0 then some ws
        else if h.next = 0 then some ws
        else (getInodeLoopWrites d m fuel (wordBytes d inode) h.next filename').map (ws ++ ·) := by
  have hnonzero : ∀ c ∈ h.name.take maxFilenameSize, c ≠ 0 :=
    fun c hc => hh.name_eq.nonzero c (List.mem_of_mem_take hc)
  obtain ⟨ws, hws, hto⟩ :=
    @romfsReadStringWrites_eq _ _ _ (maxFilenameSize : Int) hh.name_eq filename 0
  rw [Int.toNat_natCast, Nat.zero_add] at hto
  refine ⟨ws, write filename 0 (h.name.take maxFilenameSize ++ [0]), stringAt_write hnonzero,
    ⟨hto.inside, fun _ => hto.last (by decide)⟩, ?_⟩
  simp only [getInodeLoopWrites, hh.readInfo, Option.bind_eq_bind, Option.bind_some,
    hh.ntohl_info, hws, romfsReadString_eq hh.name_eq, Int.toNat_natCast]
  rfl

/-- A long name is ended outside the array, whatever comes then. -/
theorem not_inside_of_long {h : Header} {fuel : Nat} {temp : List UInt8} {filename : Mem}
    (hh : HasHeader d inode h) (hlong : maxFilenameSize ≤ h.name.length) :
    ¬WritesInside (getInodeLoopWrites d m (fuel + 1) temp inode filename) := by
  obtain ⟨ws, filename', -, hto, hturn⟩ := getInodeLoopWrites_turn fuel temp filename hh (m := m)
  have hlast := hto.last trivial
  rw [Nat.min_eq_left hlong] at hlast
  have hws : ¬∀ w ∈ ws, w < maxFilenameSize := fun hall => Nat.lt_irrefl _ (hall _ hlast)
  rintro ⟨writes, hwrites, hall⟩
  rw [hturn] at hwrites
  split at hwrites
  · cases hwrites
    exact hws hall
  · split at hwrites
    · cases hwrites
      exact hws hall
    · obtain ⟨rest, -, rfl⟩ := Option.map_eq_some_iff.mp hwrites
      exact hws fun w hw => hall w (List.mem_append_left _ hw)

theorem longNamesBehind_cons {e : Entry} {es : List Entry}
    (hshort : e.header.name.length < maxFilenameSize) :
    LongNamesBehind (e :: es) name ↔ e.header.name = name ∨ LongNamesBehind es name := by
  constructor
  · intro h
    by_cases heq : e.header.name = name
    · exact .inl heq
    · refine .inr fun before e' after hes hlong => ?_
      obtain ⟨e'', he'', hname⟩ := h (e :: before) e' after (by rw [hes, List.cons_append]) hlong
      rcases List.mem_cons.mp he'' with rfl | hmem
      · exact absurd hname heq
      · exact ⟨e'', hmem, hname⟩
  · rintro h before e' after hes hlong
    cases before with
    | nil =>
      cases hes
      exact absurd hlong (Nat.not_le.mpr hshort)
    | cons b before =>
      obtain ⟨rfl, rfl⟩ := List.cons.inj hes
      rcases h with heq | h
      · exact ⟨e, List.mem_cons_self, heq⟩
      · obtain ⟨e'', hmem, hname⟩ := h before e' after rfl hlong
        exact ⟨e'', List.mem_cons_of_mem _ hmem, hname⟩

/-! ## All entries -/

theorem getInodeLoopWrites_iff {es : List Entry} {fuel : Nat} {temp : List UInt8} {filename : Mem}
    (hchain : Chain d inode es) (hes : es ≠ []) (hfuel : es.length ≤ fuel)
    (hm : StringAt m 0 name) :
    WritesInside (getInodeLoopWrites d m fuel temp inode filename) ↔ LongNamesBehind es name := by
  induction hchain generalizing fuel temp filename with
  | nil => exact absurd rfl hes
  | @cons inode h es _ _ hh hrest ih =>
    obtain ⟨fuel, rfl⟩ := Nat.exists_eq_succ_of_ne_zero
      (Nat.ne_of_gt (Nat.lt_of_lt_of_le (Nat.succ_pos _) hfuel))
    rcases Nat.lt_or_ge h.name.length maxFilenameSize with hshort | hlong
    · obtain ⟨ws, filename', hfilename, hto, hturn⟩ :=
        getInodeLoopWrites_turn fuel temp filename hh (m := m)
      rw [List.take_of_length_le hshort.le] at hfilename
      have hcmp := strncmp_eq_zero_iff' hm hfilename hshort
      have hws : ∀ w ∈ ws, w < maxFilenameSize := fun w hw =>
        (hto.inside w hw).2.trans_lt ((Nat.min_le_right _ _).trans_lt hshort)
      rw [hturn, longNamesBehind_cons hshort]
      by_cases hname : name = h.name
      · rw [if_pos (hcmp.mpr hname)]
        exact iff_of_true ⟨ws, rfl, hws⟩ (.inl hname.symm)
      · rw [if_neg (mt hcmp.mp hname), or_iff_right (Ne.symm hname)]
        by_cases hnext : h.next = 0
        · rw [if_pos hnext]
          rw [hrest.eq_nil_iff.mpr hnext]
          refine iff_of_true ⟨ws, rfl, hws⟩ fun before e after heq => ?_
          simp at heq
        · rw [if_neg hnext, ← ih (mt hrest.eq_nil_iff.mp hnext) (Nat.le_of_succ_le_succ hfuel)]
          constructor
          · rintro ⟨writes, hwrites, hall⟩
            obtain ⟨rest, hrest, rfl⟩ := Option.map_eq_some_iff.mp hwrites
            exact ⟨rest, hrest, fun w hw => hall w (List.mem_append_right _ hw)⟩
          · rintro ⟨rest, hrest, hall⟩
            refine ⟨ws ++ rest, by rw [hrest, Option.map_some], fun w hw => ?_⟩
            exact (List.mem_append.mp hw).elim (hws w) (hall w)
    · refine iff_of_false (not_inside_of_long hh hlong) fun hbehind => ?_
      obtain ⟨e', hmem, -⟩ := hbehind [] ⟨inode, h⟩ es rfl hlong
      exact absurd hmem List.not_mem_nil

theorem romfsGetInodeWrites_directory {dir : UInt32} {hd : Header} (hh : HasHeader d dir hd)
    (htype : hd.type = 1) (m : Mem) :
    romfsGetInodeWrites d dir m =
      getInodeLoopWrites d m allOffsets (wordBytes d (dir + 4)) hd.spec fun _ => 0 := by
  have hinfo : ¬ hd.info &&& 7 ≠ 1 := not_not.mpr htype
  simp only [romfsGetInodeWrites, hh.readInfo, hh.readSpec, Option.bind_eq_bind, Option.bind_some,
    hh.ntohl_info, if_neg hinfo, hh.ntohl_spec]

/-- For every directory of an image with its names inside, and every name, `romfs_get_inode` writes
only inside `filename` exactly when each entry with 256 characters or more comes behind one that
has the name looked for. -/
theorem get_inode_writes_iff {d : Ramdisk} {dir : UInt32} {es : List Entry} {name : List UInt8}
    {m : Mem} (h : IsDirectory d dir es) (hes : es ≠ []) (hm : StringAt m 0 name) :
    WritesInside (romfsGetInodeWrites d dir m) ↔ LongNamesBehind es name := by
  obtain ⟨hd, hh, htype, hchain⟩ := h
  rw [romfsGetInodeWrites_directory hh htype]
  exact getInodeLoopWrites_iff hchain hes (hchain.length_le.trans (by decide)) hm

/-- A directory at the start of the image, with one file whose name has `n` characters. -/
def oneFileDisk (n : Nat) : Ramdisk :=
  let headers := headerBytes ⟨1, 32, 0, []⟩ ++ beBytes 2
  ⟨fun i => if i < 48 then headers[i]?.getD 0 else if i < 48 + n then 97 else 0,
    UInt32.ofNat (48 + chunksLength n)⟩

/-- The file has a short name. -/
theorem get_inode_writes_short : WritesInside (romfsGetInodeWrites (oneFileDisk 3) 0 fun _ => 0) := by
  have hdirectory : IsDirectory (oneFileDisk 3) 0 [⟨32, ⟨2, 0, 0, List.replicate 3 97⟩⟩] :=
    ⟨⟨1, 32, 0, []⟩, by decide +kernel, by decide,
      .cons (by decide) (by decide) (by decide +kernel) .nil⟩
  have hname : StringAt (fun _ => 0) 0 [] := ⟨by simp, rfl, rfl⟩
  refine (get_inode_writes_iff hdirectory (by simp) hname).mpr ?_
  exact (longNamesBehind_cons (by decide)).mpr (.inr fun before e after hes => by simp at hes)

/-- The NUL behind a name of 256 characters is not written to the array. -/
theorem get_inode_writes_outside :
    ¬WritesInside (romfsGetInodeWrites (oneFileDisk 256) 0 fun _ => 0) := by
  have hdir : HasHeader (oneFileDisk 256) 0 ⟨1, 32, 0, []⟩ := by decide +kernel
  have hfile : HasHeader (oneFileDisk 256) 32 ⟨2, 0, 0, List.replicate 256 97⟩ := by decide +kernel
  have hlong : maxFilenameSize ≤ (List.replicate 256 (97 : UInt8)).length :=
    List.length_replicate.ge
  rw [romfsGetInodeWrites_directory hdir (by decide)]
  exact @not_inside_of_long _ _ _ _ (2 ^ 32) _ _ hfile hlong

end Vmwos.Romfs
