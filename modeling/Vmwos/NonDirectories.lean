import Vmwos.FileReads

/-!
# Directory reads on what is no directory

The field `file_ptr` of a descriptor is a byte position for `read` and an inode for
`getdents`. `romfs_getdents` looks at the type of the inode only if `file_ptr` is 0, and
takes any other value for the inode of the next entry.

Results:
1. `getdents_at_start`, `getdents_past_start`: one call on either side of the test.
2. `rejects_iff`: in every history of calls on a descriptor that is no directory, `getdents`
   rejects it exactly if each call finds `file_ptr` 0.
3. `listed_after_read`: one byte is read from a regular file, and then it is listed.
-/

namespace Vmwos.Files

open Bytes Romfs Runs

/-! ## Definitions -/

/-- A call on a descriptor. A `read` comes with what `console_read` would return, a
`getdents` with the buffer. -/
inductive FdCall where
  | read (console : UInt32 × List UInt8) (count : UInt32)
  | getdents (m : Mem) (size : UInt32)

/-- One call on `fd`. -/
def fdStep (d : Ramdisk) (fd : UInt32) (f : State) : FdCall → Option State
  | .read console count => (read d f console fd count).map fun (_, _, f') => f'
  | .getdents m size => (getdents d f fd m size).map fun (_, _, f') => f'

/-- A `getdents` returns the error and leaves the buffer and the position as they are. A `read`
returns. -/
def Rejects (d : Ramdisk) (fd : UInt32) (f : State) : FdCall → Prop
  | .read console count => ∃ result bytes f', read d f console fd count = some (result, bytes, f')
  | .getdents m size => ∃ f', getdents d f fd m size = some (eNOTDIR, m, f') ∧
      (f'.fdTable fd.toNat).filePtr = (f.fdTable fd.toNat).filePtr

/-- A `getdents` finds the position at 0. -/
def AtStart (fd : UInt32) (f : State) : FdCall → Prop
  | .read _ _ => True
  | .getdents _ _ => (f.fdTable fd.toNat).filePtr = 0

/-- The buffer of a call is shorter than 2^31 bytes. -/
def FdCall.Bounded : FdCall → Prop
  | .read _ _ => True
  | .getdents _ size => ¬ isNeg size

variable {d : Ramdisk} {f : State} {fd inode filePtr size : UInt32} {h : Header} {m : Mem}

/-! ## 1. One call -/

/-- The records of a call lie in the buffer. -/
theorem getdentsLoop_le {fuel total total' : Nat} {temp : Option (List UInt8)}
    {cursor cursor' : UInt32} {m m' : Mem} (hle : total ≤ size.toNat)
    (hloop : getdentsLoop d size fuel temp cursor total m = some (cursor', total', m')) :
    total' ≤ size.toNat := by
  induction fuel generalizing temp cursor total m with
  | zero => exact absurd hloop (by simp [getdentsLoop])
  | succ fuel ih =>
    unfold getdentsLoop at hloop
    simp only [Option.bind_eq_bind, Option.bind_eq_some_iff] at hloop
    obtain ⟨temp', _, nameLength, _, hloop⟩ := hloop
    split at hloop
    · cases hloop
      exact hle
    · next hfits =>
      split at hloop
      · cases hloop
        exact hle
      · obtain ⟨⟨_, m''⟩, _, hrest⟩ := Option.bind_eq_some_iff.mp hloop
        exact ih (by omega) hrest

/-- With the position at 0 the type is looked at. -/
theorem romfsGetdents_start (hh : HasHeader d inode h) (htype : h.type ≠ 1) (m : Mem)
    (size : UInt32) : romfsGetdents d inode 0 m size = some (eNOTDIR, 0, m) := by
  unfold romfsGetdents
  rw [if_neg (by decide), if_pos rfl]
  simp only [hh.readInfo, Option.bind_eq_bind, Option.bind_some, hh.ntohl_info]
  exact if_pos htype

/-- With any other position it is not, and the result is a length. -/
theorem romfsGetdents_past {result cursor : UInt32} {m' : Mem} (hpast : filePtr ≠ 0)
    (hsize : ¬ isNeg size)
    (hcall : romfsGetdents d inode filePtr m size = some (result, cursor, m')) :
    ¬ isNeg result := by
  unfold romfsGetdents at hcall
  split at hcall
  · cases hcall
    decide
  · obtain ⟨⟨cursor', total, m''⟩, hloop, heq⟩ := Option.bind_eq_some_iff.mp hcall
    have hle := getdentsLoop_le (Nat.zero_le _) hloop
    cases heq
    unfold isNeg at hsize ⊢
    rw [UInt32.toNat_ofNat_of_lt' (lt_of_le_of_lt hle size.toNat_lt)]
    omega

theorem getdents_at_start (hopen : OpenOn f fd inode 0) (hh : HasHeader d inode h)
    (htype : h.type ≠ 1) (m : Mem) (size : UInt32) :
    getdents d f fd m size = some (eNOTDIR, m, f) := by
  obtain ⟨hfd, hinfo⟩ := hopen
  unfold getdents
  rw [if_neg (not_le.mpr hfd), hinfo, if_neg (show ¬ (1 : UInt32) = 0 by decide)]
  simp only [romfsGetdents_start hh htype, Option.bind_eq_bind, Option.bind_some]
  rw [← hinfo, Function.update_eq_self]

theorem getdents_past_start (hopen : OpenOn f fd inode filePtr) (hpast : filePtr ≠ 0)
    (hsize : ¬ isNeg size) {result : UInt32} {m' : Mem} {f' : State}
    (hcall : getdents d f fd m size = some (result, m', f')) : ¬ isNeg result := by
  obtain ⟨hfd, hinfo⟩ := hopen
  unfold getdents at hcall
  rw [if_neg (not_le.mpr hfd), hinfo, if_neg (show ¬ (1 : UInt32) = 0 by decide)] at hcall
  obtain ⟨⟨result', cursor, m''⟩, hrom, heq⟩ := Option.bind_eq_some_iff.mp hcall
  cases heq
  exact romfsGetdents_past hpast hsize hrom

/-- A read of any header returns, and its descriptor stays open on it. -/
theorem read_stays_open (hopen : OpenOn f fd inode filePtr) (hh : HasHeader d inode h)
    (console : UInt32 × List UInt8) (count : UInt32) :
    ∃ result bytes f' filePtr', read d f console fd count = some (result, bytes, f') ∧
      OpenOn f' fd inode filePtr' := by
  obtain ⟨hfd, hinfo⟩ := hopen
  have hreturns : ∃ p, romfsReadFile d inode filePtr count = some p := by
    unfold romfsReadFile
    simp only [hh.readSize, romfsStringLengthChunks_eq hh.name_eq, Option.bind_eq_bind,
      Option.bind_some]
    split
    · exact ⟨_, rfl⟩
    · exact ⟨_, rfl⟩
  obtain ⟨⟨result, bytes⟩, hread⟩ := hreturns
  unfold read
  by_cases hconsole : fd = 0
  · rw [if_pos hconsole]
    exact ⟨_, _, _, filePtr, rfl, hfd, hinfo⟩
  · rw [if_neg hconsole, if_neg (not_le.mpr hfd), hinfo,
      if_neg (show ¬ (1 : UInt32) = 0 by decide)]
    simp only [hread, Option.bind_eq_bind, Option.bind_some]
    split
    · exact ⟨_, _, _, filePtr + result, rfl, openOn_moveTo hfd⟩
    · exact ⟨_, _, _, filePtr, rfl, hfd, hinfo⟩

/-! ## 2. All histories -/

/-- The descriptor is open on the header, at some position. -/
def OpenAt (fd inode : UInt32) (f : State) : Prop := ∃ filePtr, OpenOn f fd inode filePtr

theorem openOn_start (hopen : OpenOn f fd inode filePtr)
    (hstart : AtStart fd f (.getdents m size)) : OpenOn f fd inode 0 := by
  have hzero : filePtr = 0 := by
    rw [← hstart, hopen.2]
  rwa [hzero] at hopen

theorem rejects_of_atStart (hopen : OpenAt fd inode f) (hh : HasHeader d inode h)
    (htype : h.type ≠ 1) {call : FdCall} (hstart : AtStart fd f call) :
    Rejects d fd f call := by
  obtain ⟨filePtr, hopen⟩ := hopen
  cases call with
  | read console count =>
    obtain ⟨result, bytes, f', _, hread, _⟩ := read_stays_open hopen hh console count
    exact ⟨result, bytes, f', hread⟩
  | getdents m size =>
    exact ⟨f, getdents_at_start (openOn_start hopen hstart) hh htype m size, rfl⟩

theorem atStart_of_rejects (hopen : OpenAt fd inode f) {call : FdCall} (hbounded : call.Bounded)
    (hrejects : Rejects d fd f call) : AtStart fd f call := by
  obtain ⟨filePtr, hopen⟩ := hopen
  cases call with
  | read console count => trivial
  | getdents m size =>
    obtain ⟨f', hcall, _⟩ := hrejects
    unfold AtStart
    rw [hopen.2]
    by_contra hpast
    exact getdents_past_start hopen hpast hbounded hcall (by decide)

/-- The descriptor stays open on the header, as long as `getdents` rejects it. -/
theorem openAt_step (hopen : OpenAt fd inode f) (hh : HasHeader d inode h) (htype : h.type ≠ 1)
    {call : FdCall} (hstart : AtStart fd f call) {f' : State} (hs : fdStep d fd f call = some f') :
    OpenAt fd inode f' := by
  obtain ⟨filePtr, hopen⟩ := hopen
  cases call with
  | read console count =>
    obtain ⟨result, bytes, f'', filePtr', hread, hopen'⟩ := read_stays_open hopen hh console count
    rw [fdStep, hread] at hs
    cases hs
    exact ⟨filePtr', hopen'⟩
  | getdents m size =>
    rw [fdStep, getdents_at_start (openOn_start hopen hstart) hh htype] at hs
    cases hs
    exact ⟨filePtr, hopen⟩

/-- Every history of `read` and `getdents` calls on a descriptor open on a header that is no
directory's. If every `getdents` finds the position at 0, all of them are rejected. With buffers
shorter than 2^31 bytes this is needed as well: a longer one has room for a length that is the
same number as the error. -/
theorem rejects_iff (d : Ramdisk) (inode : UInt32) (h : Header) (hh : HasHeader d inode h)
    (htype : h.type ≠ 1) (f : State) (fd filePtr : UInt32) (hopen : OpenOn f fd inode filePtr)
    (calls : List FdCall) :
    (AllSteps (fdStep d fd) (AtStart fd) f calls → AllSteps (fdStep d fd) (Rejects d fd) f calls) ∧
      (AllSteps (fdStep d fd) (fun _ call => call.Bounded) f calls →
        AllSteps (fdStep d fd) (Rejects d fd) f calls →
        AllSteps (fdStep d fd) (AtStart fd) f calls) := by
  have hat : OpenAt fd inode f := ⟨filePtr, hopen⟩
  constructor
  · exact AllSteps.imp_of_inv (fun f call hf hstart =>
      ⟨rejects_of_atStart hf hh htype hstart, fun f' => openAt_step hf hh htype hstart⟩) hat
  · intro hbounded hrejects
    refine (AllSteps.iff_within (fun f call hf hbound => ?_)
      (fun f call f' hf _ hstart => openAt_step hf hh htype hstart) hat hbounded).mpr hrejects
    exact ⟨rejects_of_atStart hf hh htype, atStart_of_rejects hf hbound⟩

/-! ## 3. A file that is listed -/

/-- The file of `helloDisk`, open as descriptor 3. -/
def helloOpened : State := ⟨Function.update (fdTableInit fun _ => ⟨0, 0, 0⟩) 3 ⟨1, 64, 0⟩, 32⟩

theorem hello_opened : HasHeader Reading.helloDisk 64 Reading.helloHeader ∧
    Reading.helloHeader.type ≠ 1 ∧ OpenOn helloOpened 3 64 0 :=
  ⟨by decide +kernel, by decide, by decide, rfl⟩

/-- A `getdents` on the open file, then a read of it. -/
theorem rejects_iff_hello : AllSteps (fdStep Reading.helloDisk 3) (Rejects Reading.helloDisk 3)
    helloOpened [.getdents (fun _ => 0) 64, .read (0, []) 1] := by
  obtain ⟨hh, htype, hopen⟩ := hello_opened
  refine (rejects_iff Reading.helloDisk 64 Reading.helloHeader hh htype helloOpened 3 0 hopen
    _).1 ?_
  refine allSteps_cons.mpr ⟨rfl, fun f _ => allSteps_cons.mpr ⟨trivial, fun f' _ => trivial⟩⟩

/-- After one byte is read, the bytes at offset 1 of the image are taken for an entry. Its record
does not fit, and the result is 0 instead of the error. -/
theorem listed_after_read :
    (HasHeader Reading.helloDisk 64 Reading.helloHeader ∧ Reading.helloHeader.type ≠ 1 ∧
      OpenOn helloOpened 3 64 0) ∧
      ¬ AllSteps (fdStep Reading.helloDisk 3) (Rejects Reading.helloDisk 3) helloOpened
        [.read (0, []) 1, .getdents (fun _ => 0) 16] := by
  refine ⟨hello_opened, fun hall => ?_⟩
  have hruns : (fdStep Reading.helloDisk 3 helloOpened (.read (0, []) 1)).bind (fun f =>
      (getdents Reading.helloDisk f 3 (fun _ => 0) 16).map Prod.fst) = some 0 := by
    decide +kernel
  obtain ⟨f, hread, hresult⟩ := Option.bind_eq_some_iff.mp hruns
  obtain ⟨f', hcall, _⟩ := (allSteps_cons.mp ((allSteps_cons.mp hall).2 f hread)).1
  rw [hcall] at hresult
  exact absurd (Option.some.inj hresult) (show ¬ eNOTDIR = 0 by decide)

end Vmwos.Files
