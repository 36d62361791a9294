import Mathlib.Data.Nat.Find
import Mathlib.Logic.Function.Basic
import Vmwos.Romfs

/-!
# Files and descriptors

`files.c`: the table of open descriptors that all processes share, path lookup, and the
system calls `open`, `close`, `read`, `stat` and `getdents` on it. A pathname is the
list of its bytes without the NUL.

`fdAllocate_eq` and `fdAllocate_full` say what `fd_allocate` does.
-/

namespace Vmwos.Files

open Bytes Romfs

/-! ## Definitions -/

/-- `MAX_FD`. -/
def maxFd : Nat := 32

/-- `struct fd_info_t`. -/
structure FdInfo where
  valid : UInt32
  inode : UInt32
  filePtr : UInt32
  deriving DecidableEq

/-- `fd_table`. -/
abbrev FdTable := Nat → FdInfo

/-- The statics of `files.c`. -/
structure State where
  fdTable : FdTable
  rootDir : UInt32

/-- `fd_table_init`. -/
def fdTableInit (t : FdTable) : FdTable := fun fd =>
  if fd < 3 then { t fd with valid := 1 }
  else if fd < maxFd then { t fd with valid := 0 }
  else t fd

/-- `fd_free`. -/
def fdFree (_fd : UInt32) : UInt32 := eBADF

/-- The loop of `fd_allocate`, at descriptor `fd` with `turns` left. -/
def fdAllocateLoop (t : FdTable) (inode : UInt32) : Nat → Nat → UInt32 × FdTable
  | 0, _ => (eNFILE, t)
  | turns + 1, fd =>
    if (t fd).valid = 0 then (UInt32.ofNat fd, Function.update t fd ⟨1, inode, 0⟩)
    else fdAllocateLoop t inode turns (fd + 1)

/-- `fd_allocate`. -/
def fdAllocate (t : FdTable) (inode : UInt32) : UInt32 × FdTable :=
  fdAllocateLoop t inode maxFd 0

/-- `split_filename` for a buffer of `len` bytes, after `length` characters: the name,
and the rest behind the slash. -/
def splitFilename (len : Nat) : List UInt8 → Nat → List UInt8 × Option (List UInt8)
  | [], _ => ([], none)
  | c :: cs, length =>
    if length ≥ len - 1 then ([], none)
    else if c = 47 then ([], some cs)
    else
      let (name, rest) := splitFilename len cs (length + 1)
      (c :: name, rest)

/-- A string at the start of a memory. -/
def stringMem (s : List UInt8) : Mem := fun i => s[i]?.getD 0

/-- The loop of `get_inode`. Every turn but the last passes a slash. -/
def getInodeWalk (d : Ramdisk) : Nat → UInt32 → List UInt8 → Option UInt32
  | 0, _, _ => none
  | turns + 1, dirInode, ptr =>
    match splitFilename maxFilenameSize ptr 0 with
    | (name, none) => romfsGetInode d dirInode (stringMem name)
    | (name, some rest) => do
      let dirInode ← romfsGetInode d dirInode (stringMem name)
      getInodeWalk d turns dirInode rest

/-- `get_inode`, for a process in the directory `currentDir`. -/
def getInode (d : Ramdisk) (f : State) (currentDir : UInt32) (pathname : List UInt8) :
    Option UInt32 :=
  let (dirInode, ptr) :=
    if pathname.head? = some 47 then (f.rootDir, pathname.tail) else (currentDir, pathname)
  if ptr = [] then some dirInode else getInodeWalk d (ptr.length + 1) dirInode ptr

/-- `close`. -/
def close (f : State) (fd : UInt32) : UInt32 × State := (fdFree fd, f)

/-- `open`. -/
def openFile (d : Ramdisk) (f : State) (currentDir : UInt32) (pathname : List UInt8) :
    Option (UInt32 × State) := do
  let inode ← getInode d f currentDir pathname
  if isNeg inode then some (eNOENT, f)
  else
    let (result, t) := fdAllocate f.fdTable inode
    some (result, { f with fdTable := t })

/-- `read`: its result, the bytes stored at `buf`, and the statics after it. For descriptor
0 these are the result and bytes of `console_read`. -/
def read (d : Ramdisk) (f : State) (console : UInt32 × List UInt8) (fd count : UInt32) :
    Option (UInt32 × List UInt8 × State) :=
  if fd = 0 then some (console.1, console.2, f)
  else if fd.toNat ≥ maxFd then some (eNFILE, [], f)
  else if (f.fdTable fd.toNat).valid = 0 then some (eBADF, [], f)
  else do
    let info := f.fdTable fd.toNat
    let (result, bytes) ← romfsReadFile d info.inode info.filePtr count
    if ¬ isNeg result ∧ result ≠ 0 then
      some (result, bytes, { f with
        fdTable := Function.update f.fdTable fd.toNat
          { info with filePtr := info.filePtr + result } })
    else some (result, bytes, f)

/-- `stat`: its result, and what it stores. -/
def stat (d : Ramdisk) (f : State) (currentDir : UInt32) (pathname : List UInt8) :
    Option (UInt32 × Option Stat) := do
  let inode ← getInode d f currentDir pathname
  if isNeg inode then some (eNOENT, none)
  else
    let buf ← romfsStat d inode
    some (0, some buf)

/-- `getdents` into the buffer `m`: its result, the buffer and the statics after it. -/
def getdents (d : Ramdisk) (f : State) (fd : UInt32) (m : Mem) (count : UInt32) :
    Option (UInt32 × Mem × State) :=
  if fd.toNat ≥ maxFd then some (eNFILE, m, f)
  else if (f.fdTable fd.toNat).valid = 0 then some (eBADF, m, f)
  else do
    let info := f.fdTable fd.toNat
    let (result, filePtr, m) ← romfsGetdents d info.inode info.filePtr m count
    some (result, m, { f with
      fdTable := Function.update f.fdTable fd.toNat { info with filePtr := filePtr } })

/-- `-ENODEV`. -/
def eNODEV : UInt32 := -19

/-- `romfs`. -/
def romfsName : List UInt8 := [114, 111, 109, 102, 115]

/-- `mount`. -/
def mount (d : Ramdisk) (f : State) (filesystemtype : List UInt8) : Option (UInt32 × State) :=
  if strncmp (stringMem filesystemtype) (stringMem romfsName) 5 = 0 then do
    let result ← romfsMount d
    if isNeg result then some (result, f) else some (0, { f with rootDir := result })
  else some (eNODEV, f)

/-- `chdir`: its result, and `current_dir` after it. -/
def chdir (d : Ramdisk) (f : State) (currentDir : UInt32) (path : List UInt8) :
    Option (UInt32 × UInt32) := do
  let inode ← getInode d f currentDir path
  if isNeg inode then some (eNOENT, currentDir)
  else
    let buf ← romfsStat d inode
    if buf.stMode &&& 0xf000 ≠ 0x4000 then some (eNOTDIR, currentDir) else some (0, inode)

/-! ## `fd_allocate` -/

theorem fdAllocateLoop_eq {t : FdTable} {inode : UInt32} {turns fd k : Nat} (hk : fd ≤ k)
    (hlt : k < fd + turns) (hfree : (t k).valid = 0)
    (htaken : ∀ j, fd ≤ j → j < k → (t j).valid ≠ 0) :
    fdAllocateLoop t inode turns fd =
      (UInt32.ofNat k, Function.update t k ⟨1, inode, 0⟩) := by
  induction turns generalizing fd with
  | zero => omega
  | succ turns ih =>
    rw [fdAllocateLoop]
    by_cases hfd : fd = k
    · rw [hfd, if_pos hfree]
    · rw [if_neg (htaken fd (le_refl fd) (by omega))]
      exact ih (by omega) (by omega) fun j hj hj' => htaken j (by omega) hj'

theorem fdAllocateLoop_full {t : FdTable} {inode : UInt32} {turns fd : Nat}
    (htaken : ∀ j, fd ≤ j → j < fd + turns → (t j).valid ≠ 0) :
    fdAllocateLoop t inode turns fd = (eNFILE, t) := by
  induction turns generalizing fd with
  | zero => rfl
  | succ turns ih =>
    rw [fdAllocateLoop, if_neg (htaken fd (le_refl fd) (by omega))]
    exact ih fun j hj hj' => htaken j (by omega) (by omega)

/-- `fd_allocate` takes the first free slot. -/
theorem fdAllocate_eq {t : FdTable} {inode : UInt32} {k : Nat} (hlt : k < maxFd)
    (hfree : (t k).valid = 0) (htaken : ∀ j < k, (t j).valid ≠ 0) :
    fdAllocate t inode = (UInt32.ofNat k, Function.update t k ⟨1, inode, 0⟩) :=
  fdAllocateLoop_eq (Nat.zero_le k) (by omega) hfree fun j _ hj => htaken j hj

/-- `fd_allocate` fails when no slot is free. -/
theorem fdAllocate_full {t : FdTable} {inode : UInt32} (h : ∀ j < maxFd, (t j).valid ≠ 0) :
    fdAllocate t inode = (eNFILE, t) :=
  fdAllocateLoop_full fun j _ hj => h j (by omega)

/-- Either there is a first free slot, or none. -/
theorem exists_free (t : FdTable) :
    (∃ k < maxFd, (t k).valid = 0 ∧ ∀ j < k, (t j).valid ≠ 0) ∨
      ∀ j < maxFd, (t j).valid ≠ 0 := by
  by_cases h : ∃ k, k < maxFd ∧ (t k).valid = 0
  · obtain ⟨hlt, hfree⟩ := Nat.find_spec h
    exact .inl ⟨Nat.find h, hlt, hfree, fun j hj hz => Nat.find_min h hj ⟨by omega, hz⟩⟩
  · exact .inr fun j hj hz => h ⟨j, hj, hz⟩

theorem toNat_ofNat_fd {i : Nat} (hi : i < maxFd) : (UInt32.ofNat i).toNat = i :=
  UInt32.toNat_ofNat_of_lt' (lt_trans hi (by decide))

theorem not_isNeg_ofNat {i : Nat} (hi : i < maxFd) : ¬ isNeg (UInt32.ofNat i) := by
  rw [isNeg, toNat_ofNat_fd hi, not_le]
  exact lt_trans hi (by decide)

/-- An `fd_allocate` that succeeds takes a free slot. -/
theorem fdAllocate_opened {t t' : FdTable} {inode fd : UInt32} (h : fdAllocate t inode = (fd, t'))
    (hfd : ¬ isNeg fd) :
    fd.toNat < maxFd ∧ (t fd.toNat).valid = 0 ∧
      t' = Function.update t fd.toNat ⟨1, inode, 0⟩ := by
  rcases exists_free t with ⟨k, hk, hfree, htaken⟩ | hfull
  · cases h.symm.trans (fdAllocate_eq hk hfree htaken)
    rw [toNat_ofNat_fd hk]
    exact ⟨hk, hfree, rfl⟩
  · cases h.symm.trans (fdAllocate_full hfull)
    exact absurd (by decide) hfd

/-- An `fd_allocate` that fails changes nothing. -/
theorem fdAllocate_failed {t t' : FdTable} {inode fd : UInt32} (h : fdAllocate t inode = (fd, t'))
    (hfd : isNeg fd) : t' = t := by
  rcases exists_free t with ⟨k, hk, hfree, htaken⟩ | hfull
  · cases h.symm.trans (fdAllocate_eq hk hfree htaken)
    exact absurd hfd (not_isNeg_ofNat hk)
  · cases h.symm.trans (fdAllocate_full hfull)
    rfl

/-! ## Open descriptors -/

/-- Descriptor `fd` is open on the header at `inode` with the given position. -/
def OpenOn (f : State) (fd inode filePtr : UInt32) : Prop :=
  fd.toNat < maxFd ∧ f.fdTable fd.toNat = ⟨1, inode, filePtr⟩

/-- The state with `fd` at the given position. -/
def moveTo (f : State) (fd inode filePtr : UInt32) : State :=
  { f with fdTable := Function.update f.fdTable fd.toNat ⟨1, inode, filePtr⟩ }

theorem openOn_moveTo {f : State} {fd inode filePtr : UInt32} (h : fd.toNat < maxFd) :
    OpenOn (moveTo f fd inode filePtr) fd inode filePtr :=
  ⟨h, by simp [moveTo]⟩

theorem openOn_moveTo_of_ne {f : State} {fd fd' inode inode' filePtr filePtr' : UInt32}
    (h : OpenOn f fd inode filePtr) (hne : fd ≠ fd') :
    OpenOn (moveTo f fd' inode' filePtr') fd inode filePtr := by
  refine ⟨h.1, ?_⟩
  rw [← h.2]
  exact Function.update_of_ne (fun heq => hne (UInt32.toNat_inj.mp heq)) _ _

theorem moveTo_self {f : State} {fd inode filePtr : UInt32} (h : OpenOn f fd inode filePtr) :
    moveTo f fd inode filePtr = f := by
  rw [moveTo, ← h.2, Function.update_eq_self]

end Vmwos.Files
