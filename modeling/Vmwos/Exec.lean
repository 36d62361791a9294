import Vmwos.FileReads
import Vmwos.Machine
import Vmwos.Stores

/-!
# `execve`

`execve` of `exec.c` on the memory of the machine: it looks the file up, allocates memory for
the program and for its stack, loads the program, builds the argument vector at the end of the
stack and sets the fields of `*current_process`.

Pointers are 32-bit words and wrap around. `Store` keeps the addresses that the argument
vector is written to beside the memory. A loop that never ends, or a read of the image that
leaves a variable unset, does not complete (`none`).

Results:
1. `execve_atomic_iff`: an `execve` that fails leaves `memory_map` and `*current_process` as
   they were, exactly if the file is not found, or there is room for neither or for both of its
   blocks.
2. `execve_keeps_a_block`: a machine with one free chunk, where it does not.
-/

namespace Vmwos.Exec

open Bytes Romfs Stores
open Files (getInode stringMem)
open Memory (Allocator FirstFreeRun FreeRun chunksFor memoryAllocate searchOrder)
open Processes (Image loadProgram loadProgram_cases pointer userStackSize)

/-- `-ENOMEM`. -/
def eNOMEM : UInt32 := -12

/-! ## `string.c` -/

/-- `strlen`, after `i` characters. -/
def strlen (m : Mem) (s1 : UInt32) : Nat → UInt32 → Option UInt32
  | 0, _ => none
  | turns + 1, i => if byteAt m (s1 + i) ≠ 0 then strlen m s1 turns (i + 1) else some i

/-- The second loop of `strncpy`, with the number of turns left. -/
def strncpyPad (dest : UInt32) : Nat → UInt32 → Store → Store
  | 0, _, t => t
  | turns + 1, i, t => strncpyPad dest turns (i + 1) (t.set (dest + i) 0)

/-- The first loop of `strncpy`, and the second from where it ends. -/
def strncpyLoop (dest src : UInt32) : Nat → UInt32 → Store → Store
  | 0, _, t => t
  | turns + 1, i, t =>
    let t := t.set (dest + i) (byteAt t.mem (src + i))
    if byteAt t.mem (src + i) = 0 then strncpyPad dest (turns + 1) i t
    else strncpyLoop dest src turns (i + 1) t

/-- `strncpy`. -/
def strncpy (dest src n : UInt32) (t : Store) : Store := strncpyLoop dest src n.toNat 0 t

/-! ## The argument vector -/

/-- `while(argv[argc]!=0) argc++`. -/
def countArgs (m : Mem) (argv : UInt32) : Nat → UInt32 → Option UInt32
  | 0, _ => none
  | turns + 1, argc =>
    if wordAt m (argv + 4 * argc) ≠ 0 then countArgs m argv turns (argc + 1) else some argc

/-- `argv_length`: the last string is measured at `argv[argc]`. -/
def argvLength (m : Mem) (argv argc : UInt32) : Option UInt32 :=
  (strlen m (wordAt m (argv + 4 * argc)) allOffsets 0).map fun last =>
    (argc + 1) * 4 + (wordAt m (argv + 4 * (argc - 1)) - wordAt m argv) + last + 1

/-- `((argv_length/8)+1)*8` for an `int32_t`. -/
def align (argvLength : UInt32) : UInt32 := ((argvLength.toInt32 / 8 + 1) * 8).toUInt32

/-- The loop that copies the strings, with the number of turns left. -/
def copyArgs (argv stackArgv : UInt32) : Nat → UInt32 → UInt32 → Store → Option Store
  | 0, _, _, t => some t
  | turns + 1, i, argvPtr, t => do
    let t := t.setWord (stackArgv + 4 * i) argvPtr
    let length ← strlen t.mem (wordAt t.mem (argv + 4 * i)) allOffsets 0
    let t := strncpy argvPtr (wordAt t.mem (argv + 4 * i)) (length + 1) t
    let length ← strlen t.mem (wordAt t.mem (argv + 4 * i)) allOffsets 0
    copyArgs argv stackArgv turns (i + 1) (argvPtr + (length + 1)) t

/-- The command line arguments: `argc`, `argv_location` and the memory. -/
def setupArgv (t : Store) (argv stackPage : UInt32) : Option (UInt32 × UInt32 × Store) := do
  let argc ← countArgs t.mem argv allOffsets 0
  let length ← argvLength t.mem argv argc
  let argvLocation := stackPage + userStackSize - align length
  let argvPtr := argvLocation + 4 * (argc + 2)
  let t ← copyArgs argv argvLocation argc.toNat 0 argvPtr (t.set argvPtr 0)
  some (argc, argvLocation, t)

/-! ## `execve` -/

/-- `struct process_control_block_type`. -/
structure Pcb where
  userR : Nat → UInt32
  userPc : UInt32
  userSpsr : UInt32
  kernelR : Nat → UInt32
  kernelSpsr : UInt32
  next : UInt32
  prev : UInt32
  waitQueueNext : UInt32
  valid : UInt32
  running : UInt32
  status : UInt32
  startTime : UInt32
  lastScheduled : UInt32
  totalTime : UInt32
  pid : UInt32
  exitValue : UInt32
  parent : UInt32
  currentDir : UInt32
  stack : UInt32
  stacksize : UInt32
  text : UInt32
  textsize : UInt32
  name : Mem

/-- What `execve` works on: the allocator, `*current_process` and the rest of the memory. -/
structure Kernel where
  alloc : Allocator
  process : Pcb
  mem : Mem

/-- The fields of `*current_process` that a successful `execve` sets. -/
def setImage (p : Pcb) (filename : List UInt8) (image : Image) (argc argvLocation : UInt32) : Pcb :=
  { p with
    name := strlcpy p.name (stringMem filename) 0 32
    userR := Function.update (Function.update (Function.update p.userR 13 argvLocation) 0 argc) 1
      argvLocation
    stack := image.stack
    stacksize := image.stacksize
    userPc := image.text
    text := image.text
    textsize := image.textsize }

/-- `execve`. `romfs_stat` never fails. Without memory for one of the blocks nothing is set,
and nothing is given back. -/
def execve (d : Ramdisk) (f : Files.State) (k : Kernel) (filename : List UInt8) (argv : UInt32) :
    Option (UInt32 × Kernel) := do
  let inode ← getInode d f k.process.currentDir filename
  if isNeg inode then some (inode, k)
  else
    let statInfo ← romfsStat d inode
    let (image, alloc) ← loadProgram k.alloc statInfo.stSize
    match image with
    | none => some (eNOMEM, { k with alloc := alloc })
    | some image =>
      let (_, binary) ← romfsReadFile d inode 0 statInfo.stSize
      let t : Store := ⟨write k.mem image.text.toNat binary, []⟩
      let (argc, argvLocation, t) ←
        if argv = 0 then some (0, image.stack + userStackSize, t)
        else setupArgv t argv image.stack
      some (argc, ⟨alloc, setImage k.process filename image argc argvLocation, t.mem⟩)

/-! ## Room for the blocks -/

/-- No start that `find_free` tries has `n` free chunks. -/
def NoRoom (a : Allocator) (n : Nat) : Prop := ∀ i ∈ searchOrder a, ¬FreeRun a.map n i

/-- The chunks of a stack at `j` are free, beside a program of `n` chunks at `i`. -/
def StackRun (a : Allocator) (i n j : Nat) : Prop :=
  FreeRun a.map (chunksFor userStackSize) j ∧ (j + chunksFor userStackSize ≤ i ∨ i + n ≤ j)

/-- The first such start in the order of the search after the program has been placed. -/
def FirstStackRun (a : Allocator) (i n j : Nat) : Prop :=
  StackRun a i n j ∧ ∃ before after,
    searchOrder { a with previousBlock := i + 1 } = before ++ j :: after ∧
      ∀ k ∈ before, ¬StackRun a i n k

/-- There is room for the program, and beside it for the stack, and neither of the blocks
starts at address 0. -/
def RoomForBoth (a : Allocator) (size : UInt32) : Prop :=
  ∃ i j, FirstFreeRun a (chunksFor size) i ∧ i ≠ 0 ∧ FirstStackRun a i (chunksFor size) j ∧ j ≠ 0

/-- The path does not lead to a file. -/
def NotFound (d : Ramdisk) (f : Files.State) (k : Kernel) (filename : List UInt8) : Prop :=
  ∃ inode, getInode d f k.process.currentDir filename = some inode ∧ isNeg inode

/-- The path leads to a file of the given size. -/
def HasSize (d : Ramdisk) (f : Files.State) (k : Kernel) (filename : List UInt8) (size : UInt32) :
    Prop :=
  ∃ inode statInfo, getInode d f k.process.currentDir filename = some inode ∧ ¬isNeg inode ∧
    romfsStat d inode = some statInfo ∧ statInfo.stSize = size

/-- `memory_map` and every field of `*current_process` are as before. -/
structure Unchanged (k k' : Kernel) : Prop where
  map_eq : k'.alloc.map = k.alloc.map
  process_eq : k'.process = k.process

/-- The program is in memory, its arguments are laid out at the end of the stack, and
`*current_process` is set for both. -/
def Loaded (k : Kernel) (filename : List UInt8) (argv : UInt32) (image : Image) (alloc : Allocator)
    (argc : UInt32) (k' : Kernel) : Prop :=
  ∃ binary argvLocation t,
    (if argv = 0 then some (0, image.stack + userStackSize, ⟨write k.mem image.text.toNat binary, []⟩)
      else setupArgv ⟨write k.mem image.text.toNat binary, []⟩ argv image.stack) =
        some (argc, argvLocation, t) ∧
      k' = ⟨alloc, setImage k.process filename image argc argvLocation, t.mem⟩

theorem not_noRoom {a : Allocator} {n i : Nat} (h : FirstFreeRun a n i) : ¬NoRoom a n := by
  obtain ⟨hfree, before, after, horder, _⟩ := h
  refine fun hno => hno i ?_ hfree
  rw [horder]
  simp

/-- A free run after the program has been placed is a free run beside it. -/
theorem freeRun_taken {a a' : Allocator} {n i : Nat} (hn : 0 < n) (h : Memory.Taken a n i a')
    (k : Nat) : FreeRun a'.map (chunksFor userStackSize) k ↔ StackRun a i n k := by
  have hpos := Memory.chunksFor_pos userStackSize
  rw [StackRun, FreeRun, FreeRun]
  simp only [Memory.Free, h.used_iff, not_or]
  constructor
  · intro hfree
    refine ⟨fun c hc hc' => (hfree c hc hc').1, ?_⟩
    by_contra hmeet
    -- two runs that meet share the later of their starts
    rw [not_or] at hmeet
    exact (hfree (max i k) (le_max_right _ _) (by omega)).2 ⟨le_max_left _ _, by omega⟩
  · rintro ⟨hfree, hapart⟩ c hc hc'
    exact ⟨hfree c hc hc', by omega⟩

theorem firstFreeRun_taken {a a' : Allocator} {n i : Nat} (hn : 0 < n)
    (h : Memory.Taken a n i a') (j : Nat) :
    FirstFreeRun a' (chunksFor userStackSize) j ↔ FirstStackRun a i n j := by
  have horder : searchOrder a' = searchOrder { a with previousBlock := i + 1 } := by
    rw [searchOrder, searchOrder, h.previousBlock_eq, h.maxChunk_eq]
  simp only [FirstFreeRun, FirstStackRun, freeRun_taken hn h, horder]

theorem pointer_eq_none_iff {i : Nat} : pointer (some (i * Memory.chunkSize)) = none ↔ i = 0 := by
  rw [pointer]
  split
  · next h => exact ⟨fun _ => (Nat.mul_eq_zero.mp h).resolve_right (by decide), fun _ => rfl⟩
  · next h =>
    refine ⟨fun hnone => absurd hnone (by simp), fun h0 => ?_⟩
    rw [h0] at h
    exact absurd (Nat.zero_mul _) h

/-! ## The two allocations -/

section Load

variable {a a' : Allocator} {size : UInt32} {image : Option Image}

/-- The program is loaded exactly if there is room for both blocks. -/
theorem loadProgram_loads_iff (h : loadProgram a size = some (image, a')) :
    image ≠ none ↔ RoomForBoth a size := by
  obtain ⟨binaryStart, a₁, stackPage, h₁, h₂, himage⟩ := loadProgram_cases h
  have hn := Memory.chunksFor_pos size
  have hboth : image ≠ none ↔ pointer binaryStart ≠ none ∧ pointer stackPage ≠ none := by
    rw [himage]
    cases pointer binaryStart with
    | none => simp
    | some text => simp
  rw [hboth]
  constructor
  · rintro ⟨hbinary, hstack⟩
    obtain ⟨rfl, _⟩ | ⟨i, hi, _, rfl, htaken⟩ := Memory.memoryAllocate_cases h₁
    · exact absurd rfl hbinary
    obtain ⟨rfl, _⟩ | ⟨j, hj, _, rfl, _⟩ := Memory.memoryAllocate_cases h₂
    · exact absurd rfl hstack
    rw [ne_eq, pointer_eq_none_iff] at hbinary hstack
    exact ⟨i, j, hi, hbinary, (firstFreeRun_taken hn htaken j).mp hj, hstack⟩
  · rintro ⟨i, j, hi, hi0, hj, hj0⟩
    obtain ⟨_, rfl, htaken⟩ := Memory.memoryAllocate_first h₁ hi
    obtain ⟨_, rfl, _⟩ := Memory.memoryAllocate_first h₂ ((firstFreeRun_taken hn htaken j).mpr hj)
    rw [ne_eq, ne_eq, pointer_eq_none_iff, pointer_eq_none_iff]
    exact ⟨hi0, hj0⟩

/-- An allocation that gets memory marks a chunk that was free. -/
theorem map_ne_of_taken {n i : Nat} (hn : 0 < n) (hfree : FreeRun a.map n i) {a₁ : Allocator}
    (h : Memory.Taken a n i a₁) (hused : ∀ c, Bitmap.used a₁.map c → Bitmap.used a'.map c) :
    a'.map ≠ a.map := by
  intro heq
  have hmarked := hused i ((h.used_iff i).mpr (.inr ⟨le_refl i, by omega⟩))
  rw [heq] at hmarked
  exact hfree i (le_refl i) (by omega) hmarked

theorem used_of_memoryAllocate {r : Option Nat} (h : memoryAllocate a size = some (r, a')) (c : Nat)
    (hc : Bitmap.used a.map c) : Bitmap.used a'.map c := by
  obtain ⟨_, rfl, _⟩ | ⟨i, _, _, _, htaken⟩ := Memory.memoryAllocate_cases h
  · exact hc
  · exact (htaken.used_iff c).mpr (.inl hc)

/-- The two allocations leave `memory_map` exactly if there is room for neither block. -/
theorem loadProgram_unchanged_iff (h : loadProgram a size = some (image, a')) :
    a'.map = a.map ↔ NoRoom a (chunksFor size) ∧ NoRoom a (chunksFor userStackSize) := by
  obtain ⟨binaryStart, a₁, stackPage, h₁, h₂, _⟩ := loadProgram_cases h
  obtain ⟨_, rfl, hno⟩ | ⟨i, hi, _, _, htaken⟩ := Memory.memoryAllocate_cases h₁
  · rw [and_iff_right (show NoRoom a₁ (chunksFor size) from hno)]
    obtain ⟨_, rfl, hno'⟩ | ⟨j, hj, _, _, htaken⟩ := Memory.memoryAllocate_cases h₂
    · exact iff_of_true rfl hno'
    · exact iff_of_false (map_ne_of_taken (Memory.chunksFor_pos _) hj.1 htaken fun _ hc => hc)
        (not_noRoom hj)
  · exact iff_of_false
      (map_ne_of_taken (Memory.chunksFor_pos _) hi.1 htaken (used_of_memoryAllocate h₂))
      fun hno => not_noRoom hi hno.1

end Load

/-! ## The number of arguments -/

/-- Where the counting loop ends: at the first `NULL` from `argc` on. -/
theorem countArgs_spec {m : Mem} {argv : UInt32} {turns : Nat} {argc n : UInt32}
    (h : countArgs m argv turns argc = some n) :
    ∃ j : Nat, n = argc + UInt32.ofNat j ∧ wordAt m (argv + 4 * n) = 0 ∧
      ∀ i < j, wordAt m (argv + 4 * (argc + UInt32.ofNat i)) ≠ 0 := by
  induction turns generalizing argc with
  | zero => cases h
  | succ turns ih =>
    rw [countArgs] at h
    split at h
    · next hne =>
      obtain ⟨j, rfl, hend, hbefore⟩ := ih h
      refine ⟨j + 1, (add_ofNat_succ argc j).symm, hend, fun i hi => ?_⟩
      cases i with
      | zero => simpa using hne
      | succ i =>
        rw [add_ofNat_succ]
        exact hbefore i (by omega)
    · next heq =>
      cases h
      exact ⟨0, by simp, not_not.mp heq, fun i hi => absurd hi (Nat.not_lt_zero i)⟩

/-- There are fewer arguments than words in the address space: the loop would meet the words it
has passed. -/
theorem not_isNeg_countArgs {m : Mem} {argv : UInt32} {turns : Nat} {n : UInt32}
    (h : countArgs m argv turns 0 = some n) : ¬isNeg n := by
  obtain ⟨j, rfl, hend, hbefore⟩ := countArgs_spec h
  have hj : j < 2 ^ 30 := by
    by_contra hge
    refine hbefore (j - 2 ^ 30) (by omega) ?_
    have hwrap : 4 * (0 + UInt32.ofNat (j - 2 ^ 30)) = 4 * (0 + UInt32.ofNat j) := by
      apply UInt32.toNat_inj.mp
      rw [UInt32.zero_add, UInt32.zero_add, UInt32.toNat_mul, UInt32.toNat_mul,
        UInt32.toNat_ofNat', UInt32.toNat_ofNat', show (4 : UInt32).toNat = 4 from rfl]
      omega
    rw [hwrap]
    exact hend
  rw [isNeg, UInt32.zero_add, UInt32.toNat_ofNat']
  omega

/-! ## 1. Failed calls -/

section Failed

variable {d : Ramdisk} {f : Files.State} {k k' : Kernel} {filename : List UInt8}
  {argv result : UInt32}

/-- What an `execve` that completes has done: the file is not found, or there is no image, or
the program is loaded and its arguments are laid out. -/
theorem execve_cases (h : execve d f k filename argv = some (result, k')) :
    (NotFound d f k filename ∧ isNeg result ∧ k' = k) ∨
      ∃ size image alloc, HasSize d f k filename size ∧
        loadProgram k.alloc size = some (image, alloc) ∧
        (image = none ∧ result = eNOMEM ∧ k' = { k with alloc := alloc } ∨
          ∃ loaded, image = some loaded ∧
            Loaded k filename argv loaded alloc result k') := by
  rw [execve, Option.bind_eq_bind, Option.bind_eq_some_iff] at h
  obtain ⟨inode, hinode, h⟩ := h
  split at h
  · next hneg =>
    obtain ⟨rfl, rfl⟩ := Prod.mk.inj (Option.some.inj h)
    exact .inl ⟨⟨inode, hinode, hneg⟩, hneg, rfl⟩
  · next hfound =>
    simp only [Option.bind_eq_bind, Option.bind_eq_some_iff, Prod.exists] at h
    obtain ⟨statInfo, hstat, image, alloc, hload, h⟩ := h
    refine .inr ⟨statInfo.stSize, image, alloc, ⟨inode, statInfo, hinode, hfound, hstat, rfl⟩,
      hload, ?_⟩
    cases image with
    | none =>
      cases h
      exact .inl ⟨rfl, rfl, rfl⟩
    | some image =>
      simp only [Option.bind_eq_some_iff, Prod.exists] at h
      obtain ⟨_, binary, _, h⟩ := h
      refine .inr ⟨image, rfl, binary, ?_⟩
      split at h
      · next hargv =>
        obtain ⟨rfl, rfl⟩ := Prod.mk.inj (Option.some.inj h)
        exact ⟨_, _, if_pos hargv, rfl⟩
      · next hargv =>
        obtain ⟨⟨argc, argvLocation, t⟩, hargs, h⟩ := Option.bind_eq_some_iff.mp h
        obtain ⟨rfl, rfl⟩ := Prod.mk.inj (Option.some.inj h)
        exact ⟨argvLocation, t, (if_neg hargv).trans hargs, rfl⟩

/-- A loaded program gets a number of arguments, not an error. -/
theorem Loaded.not_isNeg {image : Image} {alloc : Allocator}
    (h : Loaded k filename argv image alloc result k') : ¬isNeg result := by
  obtain ⟨binary, argvLocation, t, hargs, _⟩ := h
  split at hargs
  · obtain ⟨rfl, _⟩ := Prod.mk.inj (Option.some.inj hargs)
    exact show ¬isNeg 0 by decide
  · simp only [setupArgv, Option.bind_eq_bind, Option.bind_eq_some_iff] at hargs
    obtain ⟨argc, hcount, _, _, _, _, hargs⟩ := hargs
    obtain ⟨rfl, _⟩ := Prod.mk.inj (Option.some.inj hargs)
    exact not_isNeg_countArgs hcount

theorem hasSize_unique {size size' : UInt32} (h : HasSize d f k filename size)
    (h' : HasSize d f k filename size') : size = size' := by
  obtain ⟨inode, statInfo, hinode, _, hstat, rfl⟩ := h
  obtain ⟨inode', statInfo', hinode', _, hstat', rfl⟩ := h'
  cases hinode.symm.trans hinode'
  cases hstat.symm.trans hstat'
  rfl

theorem not_notFound_of_hasSize {size : UInt32} (h : HasSize d f k filename size) :
    ¬NotFound d f k filename := by
  rintro ⟨inode', hinode', hneg⟩
  obtain ⟨inode, _, hinode, hpos, _⟩ := h
  cases hinode.symm.trans hinode'
  exact hpos hneg

end Failed

/-- For every file, argument vector and state of the allocator: if `execve` returns a negative
value then `memory_map` and `*current_process` are unchanged, exactly if the file is not found,
or there is room for neither the program nor the stack, or for both of them. -/
theorem execve_atomic_iff (d : Ramdisk) (f : Files.State) (k : Kernel) (filename : List UInt8)
    (argv result : UInt32) (k' : Kernel) (h : execve d f k filename argv = some (result, k')) :
    (isNeg result → Unchanged k k') ↔
      NotFound d f k filename ∨ ∃ size, HasSize d f k filename size ∧
        (NoRoom k.alloc (chunksFor size) ∧ NoRoom k.alloc (chunksFor userStackSize) ∨
          RoomForBoth k.alloc size) := by
  rcases execve_cases h with ⟨hno, _, rfl⟩ | ⟨size, image, alloc, hsize, hload, hend⟩
  · exact iff_of_true (fun _ => ⟨rfl, rfl⟩) (.inl hno)
  have hcond : (NotFound d f k filename ∨ ∃ size, HasSize d f k filename size ∧
      (NoRoom k.alloc (chunksFor size) ∧ NoRoom k.alloc (chunksFor userStackSize) ∨
        RoomForBoth k.alloc size)) ↔ alloc.map = k.alloc.map ∨ image ≠ none := by
    rw [loadProgram_unchanged_iff hload, loadProgram_loads_iff hload,
      or_iff_right (not_notFound_of_hasSize hsize)]
    constructor
    · rintro ⟨size', hsize', hroom⟩
      rwa [hasSize_unique hsize hsize']
    · exact fun hroom => ⟨size, hsize, hroom⟩
  rw [hcond]
  rcases hend with ⟨rfl, rfl, rfl⟩ | ⟨loaded, rfl, hloaded⟩
  · constructor
    · intro hfail
      exact .inl (hfail (by decide)).map_eq
    · rintro (hmap | himage) _
      · exact ⟨hmap, rfl⟩
      · exact absurd rfl himage
  · exact iff_of_true (fun hneg => absurd hneg hloaded.not_isNeg) (.inr (by simp))

/-- A process with all fields 0. -/
def blankProcess : Pcb where
  userR := fun _ => 0
  userPc := 0
  userSpsr := 0
  kernelR := fun _ => 0
  kernelSpsr := 0
  next := 0
  prev := 0
  waitQueueNext := 0
  valid := 0
  running := 0
  status := 0
  startTime := 0
  lastScheduled := 0
  totalTime := 0
  pid := 0
  exitValue := 0
  parent := 0
  currentDir := 0
  stack := 0
  stacksize := 0
  text := 0
  textsize := 0
  name := fun _ => 0

/-- A machine with 32 chunks, all used but number 30. -/
def oneChunkLeft : Kernel :=
  ⟨⟨0xbfffffff :: List.replicate (Memory.mapWords - 1) 0, 32, 32⟩, blankProcess, fun _ => 0⟩

/-- The root directory of the volume that holds the file `a`. -/
def helloFiles : Files.State := ⟨fun _ => ⟨0, 0, 0⟩, 32⟩

/-- There is no file `b`. -/
theorem execve_atomic_iff_not_found :
    ∃ result k', execve Reading.helloDisk helloFiles oneChunkLeft [47, 98] 0 = some (result, k') ∧
      isNeg result ∧ Unchanged oneChunkLeft k' := by
  have hrun : (execve Reading.helloDisk helloFiles oneChunkLeft [47, 98] 0).map Prod.fst =
      some (-1) := by
    decide +kernel
  obtain ⟨⟨result, k'⟩, hexec, hr⟩ := Option.map_eq_some_iff.mp hrun
  have hneg : isNeg result := by
    rw [show result = -1 from hr]
    decide
  have hno : NotFound Reading.helloDisk helloFiles oneChunkLeft [47, 98] :=
    ⟨-1, by decide +kernel, by decide⟩
  exact ⟨result, k', hexec, hneg,
    (execve_atomic_iff Reading.helloDisk helloFiles oneChunkLeft [47, 98] 0 result k' hexec).mpr
      (.inl hno) hneg⟩

/-! ## 2. A block is kept -/

/-- The program `a` takes the last free chunk, there is none for its stack, and `execve` returns
`-ENOMEM` with the chunk marked. -/
theorem execve_keeps_a_block :
    ∃ result k', execve Reading.helloDisk helloFiles oneChunkLeft [47, 97] 0 = some (result, k') ∧
      isNeg result ∧ ¬Unchanged oneChunkLeft k' := by
  have hrun : (execve Reading.helloDisk helloFiles oneChunkLeft [47, 97] 0).map
      (fun r => (r.1, r.2.alloc.map.head?)) = some (eNOMEM, some 0xffffffff) := by
    decide +kernel
  obtain ⟨⟨result, k'⟩, hexec, hr⟩ := Option.map_eq_some_iff.mp hrun
  obtain ⟨hresult, hmap⟩ := Prod.mk.inj hr
  refine ⟨result, k', hexec, ?_, fun h => ?_⟩
  · rw [show result = eNOMEM from hresult]
    decide
  · rw [h.map_eq] at hmap
    exact absurd hmap (by decide)

end Vmwos.Exec
