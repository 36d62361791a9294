import Vmwos.Allocator
import Vmwos.ProcessEvents

/-!
# The processes and their memory

`Machine` is the allocator together with the processes. `vfork` and `execve` get their memory
from `memory_allocate`, and `process_destroy` gives back what the PCB points to.

Result: `no_leak_iff`. When a process that `vfork` has created is reaped, `memory_map` is as it
was before the `vfork` exactly if the process has called `execve` at most once, and not with an
empty program: `execve` sets `text` and `stack` to the new program and its stack without a
`memory_free` of the old ones, and `memory_free` takes a size of 0 for 2^20 chunks.
-/

namespace Vmwos.Processes

open Runs Ownership
open Memory (Allocator Block Heap chunks chunksFor numChunks chunkSize mapWords memoryInit
  memoryAllocate memoryFree)

/-! ## Definitions -/

/-- The allocator and the processes. -/
structure Machine where
  alloc : Allocator
  sys : Sys

/-- `DEFAULT_USER_STACK_SIZE`. -/
def userStackSize : UInt32 := 8192

/-- The result of `memory_allocate` as a pointer: address 0 is `NULL`. -/
def pointer : Option Nat → Option Addr
  | none => none
  | some location => if location = 0 then none else some (UInt32.ofNat location)

/-- The allocations of `execve`, for a file of the given size. Without memory for the program
or for the stack there is no image, and what has been allocated stays so. -/
def loadProgram (a : Allocator) (size : UInt32) : Option (Option Image × Allocator) := do
  let (binaryStart, a) ← memoryAllocate a size
  let (stackPage, a) ← memoryAllocate a userStackSize
  let image := (pointer binaryStart).bind fun text =>
    (pointer stackPage).map fun stack => ⟨text, size, stack, userStackSize⟩
  some (image, a)

/-- Calls of `memory_free`, one after the other. -/
def freeBlocks (a : Allocator) : List (Addr × UInt32) → Option Allocator
  | [] => some a
  | (location, size) :: blocks =>
    (memoryFree a location.toNat size).bind fun a => freeBlocks a blocks

/-- The pointer that the event passes to `process_destroy`: the process that `waitpid` looks up,
or waits for, if it has exited. The null pointer is passed too, when no process has the number. -/
def destroyed (s : Sys) : Event → Option (Option Addr)
  | .waitpid pid _ =>
    let found :=
      if pid = -1 then (processLookupChild s s.currentProcess).filter Option.isSome
      else if 2 ^ 31 ≤ pid.toNat then none
      else processLookup s pid
    found.filter fun proc => statusOf s proc = .exited
  | .resume =>
    match s.kernel s.currentProcess with
    | .waitpid _ proc => if statusOf s proc = .exited then some proc else none
    | _ => none
  | _ => none

/-- The memory that the event frees. -/
def freedBy (s : Sys) (e : Event) : List (Addr × UInt32) :=
  ((destroyed s e).map (freedBlocks s)).getD []

/-- What happens on the machine: `vfork`, an `execve` of a file with the given size (none if
there is no such file), or another event. -/
inductive Act where
  | vfork
  | execve (size : Option UInt32)
  | call (e : Event)

/-- The event stands for the calls that allocate memory. -/
def Event.allocates : Event → Bool
  | .vfork _ => true
  | .execve _ => true
  | _ => false

/-- One step of the machine. -/
def machineStep (m : Machine) : Act → Option Machine
  | .vfork => do
    let (memory, a) ← memoryAllocate m.alloc pcbSize
    let s ← vfork m.sys (pointer memory)
    some ⟨a, s⟩
  | .execve none => do
    let s ← execve m.sys none
    some ⟨m.alloc, s⟩
  | .execve (some size) => do
    let (image, a) ← loadProgram m.alloc size
    let s ← execve m.sys image
    some ⟨a, s⟩
  | .call e =>
    if e.allocates then none
    else do
      let s ← step m.sys e
      let a ← freeBlocks m.alloc (freedBy m.sys e)
      some ⟨a, s⟩

/-- `kernel_main` from `memory_init` to the shell, with the address of `idle_task` and the size
of the shell. -/
def bootMachine (memory : Pcbs) (low : LowMemory) (memoryTotal memoryKernel : Nat)
    (idleTask : Addr) (shellSize : UInt32) : Option Machine := do
  let (_, a) ← memoryInit (Memory.boot mapWords) memoryTotal memoryKernel
  let (idle, a) ← memoryAllocate a pcbSize
  let (idleStack, a) ← memoryAllocate a 4096
  let (init, a) ← memoryAllocate a pcbSize
  let (image, a) ← loadProgram a shellSize
  let s ← boot memory low (← pointer idle) (← pointer init)
    ⟨idleTask, 0, ← pointer idleStack, 0⟩ (← image)
  some ⟨a, s⟩

/-- `vfork` gets memory for a PCB, at the given address. -/
def Forks (m : Machine) (child : Addr) : Prop :=
  ∃ location a, memoryAllocate m.alloc pcbSize = some (location, a) ∧ pointer location = some child

/-- The allocations of an `execve` succeed. -/
def Loads (a : Allocator) (size : UInt32) : Prop :=
  ∃ image a', loadProgram a size = some (some image, a')

/-- The only allocations are those of successful calls of `execve` by the child, nothing is
freed, and nothing else is written to the PCB of the child. -/
def Quiet (child : Addr) (m : Machine) : Act → Prop
  | .vfork => False
  | .execve none => True
  | .execve (some size) => m.sys.currentProcess = child ∧ Loads m.alloc size
  | .call e => destroyed m.sys e = none ∧
      ∀ memory, e = .reuse memory → SamePcb memory m.sys.toPcbs child

/-- The size of the program that `execve` loads. -/
def Act.program : Act → Option UInt32
  | .execve size => size
  | _ => none

/-- The sizes of the programs that are loaded. -/
def programs (acts : List Act) : List UInt32 := acts.filterMap Act.program

variable {s s' s₁ : Sys} {e : Event} {a child : Addr} {m m' : Machine}

/-! ## What an event destroys -/

theorem destroyed_eq_some_iff : destroyed s e = some (some a) ↔ Reaps s e a := by
  cases e with
  | waitpid pid options =>
    have hexited : decide (statusOf s (some a) = .exited) = true ↔ s.status a = .exited :=
      decide_eq_true_iff
    simp only [destroyed, Reaps, Option.filter_eq_some_iff, hexited, and_comm (a := s.status a = _)]
    by_cases hall : pid = -1
    · simp only [if_pos hall, Option.filter_eq_some_iff, Option.isSome_some, and_true]
    · simp only [if_neg hall]
      split <;> simp_all
  | resume =>
    cases hk : s.kernel s.currentProcess with
    | waitpid pid proc =>
      simp only [destroyed, Reaps, hk, Kernel.waitpid.injEq]
      by_cases hproc : proc = some a
      · simp [hproc, statusOf]
      · simp [hproc]
    | _ => simp [destroyed, Reaps, hk]
  | _ => simp [destroyed, Reaps]

theorem processDestroy_of_waitpidLoop {pid : UInt32} {r : Option WaitResult}
    (hexited : statusOf s (some a) = .exited) (h : waitpidLoop s pid (some a) = some (s', r)) :
    ∃ s₀, processDestroy s₀ (some a) = some (s', freedBlocks s (some a)) := by
  rw [waitpidLoop, if_pos hexited] at h
  obtain ⟨⟨s₁, blocks⟩, hdestroy, heq⟩ := Option.map_eq_some_iff.mp h
  obtain ⟨s₂, _, hblocks⟩ := Option.map_eq_some_iff.mp hdestroy
  cases heq
  cases hblocks
  exact ⟨_, hdestroy⟩

theorem processDestroy_of_waitpidOn {pid options : UInt32} {r : Option WaitResult}
    (hexited : statusOf s (some a) = .exited)
    (h : waitpidOn s pid options (some a) = some (s', r)) :
    ∃ s₀, processDestroy s₀ (some a) = some (s', freedBlocks s (some a)) := by
  rw [waitpidOn] at h
  split at h
  · obtain ⟨⟨s₁, blocks⟩, hdestroy, heq⟩ := Option.map_eq_some_iff.mp h
    obtain ⟨s₂, _, hblocks⟩ := Option.map_eq_some_iff.mp hdestroy
    cases heq
    cases hblocks
    exact ⟨s, hdestroy⟩
  · exact processDestroy_of_waitpidLoop hexited h

/-- An event that reaps a process ends with its `process_destroy`, and what that frees is what
the PCB points to before the event. -/
theorem processDestroy_of_reaps (hreaps : Reaps s e a) (h : step s e = some s') :
    ∃ s₀, processDestroy s₀ (some a) = some (s', freedBlocks s (some a)) := by
  cases e with
  | waitpid pid options =>
    obtain ⟨hexited, hfound⟩ := hreaps
    obtain ⟨⟨s₁, r⟩, hwait, rfl⟩ := Option.map_eq_some_iff.mp h
    rw [waitpid] at hwait
    split at hwait
    · next hall =>
      rw [if_pos hall] at hfound
      rw [hfound] at hwait
      exact processDestroy_of_waitpidOn hexited hwait
    · next hall =>
      rw [if_neg hall] at hfound
      rw [if_neg (not_le.mpr hfound.1), hfound.2] at hwait
      exact processDestroy_of_waitpidOn hexited hwait
  | resume =>
    obtain ⟨hexited, pid, hk⟩ := hreaps
    have hresume : resume s = some s' := h
    simp only [resume, hk] at hresume
    obtain ⟨⟨s₁, r⟩, hloop, rfl⟩ := Option.map_eq_some_iff.mp hresume
    exact processDestroy_of_waitpidLoop hexited hloop
  | _ => exact hreaps.elim

/-! ## The memory of a process

Only `vfork`, `execve` and a change of the memory from outside write `stack`, `stacksize`, `text`
and `textsize`. -/

/-- The memory of a process, as its PCB has it: the stack and the program with their sizes. -/
def imageOf (s : Sys) (a : Addr) : (Option Addr × UInt32) × Option Addr × UInt32 :=
  ((s.stack a, s.stacksize a), s.text a, s.textsize a)

theorem imageOf_schedule (h : schedule s = some s') : imageOf s' = imageOf s := by
  rw [schedule, Option.bind_eq_bind] at h
  obtain ⟨first, _, h⟩ := Option.bind_eq_some_iff.mp h
  split at h
  · split at h
    · cases h
      rfl
    · obtain ⟨_, _, rfl⟩ := Option.map_eq_some_iff.mp h
      rfl
  · obtain ⟨_, _, rfl⟩ := Option.map_eq_some_iff.mp h
    rfl

theorem imageOf_waitQueueAdd {q : Queue} (h : waitQueueAdd s q a = some s') :
    imageOf s' = imageOf s := by
  rw [waitQueueAdd, Option.bind_eq_bind] at h
  obtain ⟨s₁, henq, h⟩ := Option.bind_eq_some_iff.mp h
  refine (imageOf_schedule h).trans ?_
  rw [enqueue] at henq
  split at henq
  · cases henq
    rfl
  · obtain ⟨_, _, rfl⟩ := Option.map_eq_some_iff.mp henq
    rfl

theorem imageOf_waitQueueWake {q : Queue} (h : waitQueueWake s q = some s') :
    imageOf s' = imageOf s := by
  obtain ⟨_, _, rfl⟩ := Option.map_eq_some_iff.mp h
  rfl

theorem imageOf_exit {status : UInt32} (h : exit s status = some s') : imageOf s' = imageOf s := by
  simp only [exit, Option.bind_eq_bind] at h
  obtain ⟨s₁, hwake, h⟩ := Option.bind_eq_some_iff.mp h
  exact (imageOf_schedule h).trans (imageOf_waitQueueWake hwake :)

theorem imageOf_processRemove {proc : Option Addr} (h : processRemove s proc = some s') :
    imageOf s' = imageOf s := by
  cases proc with
  | none =>
    cases h
    rfl
  | some proc =>
    rw [processRemove] at h
    split at h
    · cases h
      rfl
    · rw [Option.bind_eq_bind] at h
      obtain ⟨found, _, h⟩ := Option.bind_eq_some_iff.mp h
      split at h
      · cases h
        rfl
      · cases h
        rfl

/-- `process_destroy` overwrites the PCB of the process that it destroys, and no other one. -/
theorem imageOf_processDestroy {proc : Option Addr} {blocks : List (Addr × UInt32)}
    (hother : proc ≠ some a) (h : processDestroy s proc = some (s', blocks)) :
    imageOf s' a = imageOf s a := by
  obtain ⟨s₁, hremove, heq⟩ := Option.map_eq_some_iff.mp h
  cases heq
  rw [← imageOf_processRemove hremove]
  cases proc with
  | none => rfl
  | some proc =>
    have hsame := samePcb_poisonPcb s₁.toPcbs fun heq : a = proc => hother (congrArg some heq.symm)
    exact Prod.ext (Prod.ext hsame.stack hsame.stacksize) (Prod.ext hsame.text hsame.textsize)

theorem imageOf_waitpidLoop {pid : UInt32} {proc : Option Addr} {r : Option WaitResult}
    (hother : statusOf s proc = .exited → proc ≠ some a)
    (h : waitpidLoop s pid proc = some (s', r)) : imageOf s' a = imageOf s a := by
  rw [waitpidLoop] at h
  split at h
  · next hexited =>
    obtain ⟨⟨s₁, blocks⟩, hdestroy, heq⟩ := Option.map_eq_some_iff.mp h
    cases heq
    exact (imageOf_processDestroy (hother hexited) hdestroy :)
  · obtain ⟨s₁, hadd, heq⟩ := Option.map_eq_some_iff.mp h
    cases heq
    exact congrFun (imageOf_waitQueueAdd hadd) a

theorem imageOf_waitpidOn {pid options : UInt32} {proc : Option Addr} {r : Option WaitResult}
    (hother : statusOf s proc = .exited → proc ≠ some a)
    (h : waitpidOn s pid options proc = some (s', r)) : imageOf s' a = imageOf s a := by
  rw [waitpidOn] at h
  split at h
  · split at h
    · next hexited =>
      obtain ⟨⟨s₁, blocks⟩, hdestroy, heq⟩ := Option.map_eq_some_iff.mp h
      cases heq
      exact imageOf_processDestroy (hother hexited) hdestroy
    · cases h
      rfl
  · exact imageOf_waitpidLoop hother h

theorem imageOf_waitpid {pid options : UInt32} {r : Option WaitResult}
    (hreaps : ¬Reaps s (.waitpid pid options) a) (h : waitpid s pid options = some (s', r)) :
    imageOf s' a = imageOf s a := by
  rw [waitpid] at h
  split at h
  · next hall =>
    rw [Option.bind_eq_bind] at h
    obtain ⟨found, hfound, h⟩ := Option.bind_eq_some_iff.mp h
    cases found with
    | none =>
      cases h
      rfl
    | some proc =>
      refine imageOf_waitpidOn (fun hexited heq => ?_) h
      cases heq
      exact hreaps ⟨hexited, by rw [if_pos hall, hfound]⟩
  · next hall =>
    split at h
    · cases h
      rfl
    · next hneg =>
      rw [Option.bind_eq_bind] at h
      obtain ⟨found, hfound, h⟩ := Option.bind_eq_some_iff.mp h
      refine imageOf_waitpidOn (fun hexited heq => ?_) h
      cases heq
      exact hreaps ⟨hexited, by rw [if_neg hall]; exact ⟨not_le.mp hneg, hfound⟩⟩

theorem imageOf_consoleRead {count : UInt32} {r : Option (List UInt8)}
    (h : consoleRead s count = some (s', r)) : imageOf s' = imageOf s := by
  rw [consoleRead] at h
  split at h
  · obtain ⟨s₁, hadd, heq⟩ := Option.map_eq_some_iff.mp h
    cases heq
    exact (imageOf_waitQueueAdd hadd :)
  · cases h
    rfl

theorem imageOf_nanosleepLoop {endTime : UInt32} (h : nanosleepLoop s endTime = some s') :
    imageOf s' = imageOf s := by
  rw [nanosleepLoop] at h
  split at h
  · rw [timerSleepUntil] at h
    exact (imageOf_waitQueueAdd h :)
  · cases h
    rfl

theorem imageOf_resume (hreaps : ¬Reaps s .resume a) (h : resume s = some s') :
    imageOf s' a = imageOf s a := by
  rw [resume] at h
  split at h
  · cases h
    rfl
  · next pid proc hk =>
    obtain ⟨⟨s₁, r⟩, hloop, rfl⟩ := Option.map_eq_some_iff.mp h
    refine imageOf_waitpidLoop (fun hexited heq => ?_) hloop
    cases heq
    exact hreaps ⟨hexited, pid, hk⟩
  · obtain ⟨⟨s₁, r⟩, hread, rfl⟩ := Option.map_eq_some_iff.mp h
    exact congrFun (imageOf_consoleRead hread) a
  · exact congrFun (imageOf_nanosleepLoop h) a

theorem imageOf_consoleInsertChar {ch : UInt8} (h : consoleInsertChar s ch = some s') :
    imageOf s' = imageOf s := by
  rw [consoleInsertChar] at h
  split at h
  · cases h
    rfl
  · exact (imageOf_waitQueueWake h :)

theorem imageOf_serialInterruptHandler {typed : List UInt8}
    (h : serialInterruptHandler s typed = some s') : imageOf s' = imageOf s := by
  induction typed generalizing s with
  | nil =>
    cases h
    rfl
  | cons ch typed ih =>
    rw [serialInterruptHandler] at h
    obtain ⟨s₁, hinsert, h⟩ := Option.bind_eq_some_iff.mp h
    exact (ih h).trans (imageOf_consoleInsertChar hinsert)

theorem imageOf_timerInterruptHandler (h : timerInterruptHandler s = some s') :
    imageOf s' = imageOf s := by
  simp only [timerInterruptHandler] at h
  split at h
  · exact (imageOf_waitQueueWake h :)
  · cases h
    rfl

theorem imageOf_interruptHandler {typed : List UInt8} {timer : Bool}
    (h : interruptHandler s typed timer = some s') : imageOf s' = imageOf s := by
  have hend : ∀ s₂, imageOf s₂ = imageOf s →
      (if s₂.schedulingEnabled then schedule s₂ else some s₂) = some s' → imageOf s' = imageOf s := by
    intro s₂ h₂ hsched
    split at hsched
    · exact (imageOf_schedule hsched).trans h₂
    · cases hsched
      exact h₂
  rw [interruptHandler, Option.bind_eq_bind] at h
  obtain ⟨s₁, hserial, h⟩ := Option.bind_eq_some_iff.mp h
  have h₁ : imageOf s₁ = imageOf s := imageOf_serialInterruptHandler hserial
  cases timer with
  | false => exact hend s₁ h₁ h
  | true =>
    obtain ⟨s₂, htimer, h⟩ := Option.bind_eq_some_iff.mp h
    exact hend s₂ ((imageOf_timerInterruptHandler htimer).trans h₁) h

/-- An event that allocates nothing leaves the memory of a process alone, unless it reaps it. -/
theorem imageOf_step (hallocates : e.allocates = false) (hreaps : ¬Reaps s e a)
    (hreuse : ∀ memory, e = .reuse memory → SamePcb memory s.toPcbs a) (h : step s e = some s') :
    imageOf s' a = imageOf s a := by
  cases e with
  | vfork _ => cases hallocates
  | execve _ => cases hallocates
  | exit status => exact congrFun (imageOf_exit h) a
  | waitpid pid options =>
    obtain ⟨⟨s₁, r⟩, hwait, rfl⟩ := Option.map_eq_some_iff.mp h
    exact imageOf_waitpid hreaps hwait
  | consoleRead count =>
    obtain ⟨⟨s₁, r⟩, hread, rfl⟩ := Option.map_eq_some_iff.mp h
    exact congrFun (imageOf_consoleRead hread) a
  | nanosleep seconds ns => exact congrFun (imageOf_nanosleepLoop h) a
  | resume => exact imageOf_resume hreaps h
  | interrupt typed timer => exact congrFun (imageOf_interruptHandler h) a
  | reuse memory =>
    cases h
    obtain hsame := hreuse memory rfl
    simp only [imageOf, hsame.stack, hsame.stacksize, hsame.text, hsame.textsize]

theorem imageOf_execve {image : Option Image} (h : execve s image = some s') :
    imageOf s' = imageOf (loaded s image) := by
  cases image with
  | none =>
    simp only [execve] at h
    split at h
    · exact (imageOf_schedule h :)
    · exact (imageOf_schedule h :)
  | some image =>
    simp only [execve] at h
    split at h
    · exact (imageOf_schedule h :)
    · exact (imageOf_schedule h :)

/-- A new child has no program and no stack. -/
theorem imageOf_vfork (h : vfork s (some child) = some s') :
    s'.stack child = none ∧ s'.text child = none := by
  rw [vfork, Option.bind_eq_bind] at h
  obtain ⟨s₁, _, h⟩ := Option.bind_eq_some_iff.mp h
  have himage := congrFun (imageOf_schedule h) child
  simp only [imageOf, copyPcb, Function.update_self, Prod.mk.injEq] at himage
  exact ⟨himage.1.1, himage.2.1⟩

/-! ## The ledger

The blocks allocated since a point in time, over the chunks that were used then. -/

/-- The used chunks are those of `base` and those of the live blocks. -/
structure Ledger (base : List (BitVec 32)) (h : Heap) : Prop where
  base_length : base.length = mapWords
  length_eq : h.alloc.map.length = mapWords
  owned : OwnedExactly chunks { c | Bitmap.used h.alloc.map c } { c | Bitmap.used base c } h.live

section Ledger

variable {base : List (BitVec 32)} {alloc alloc' : Allocator} {live : List Block} {size : UInt32}

theorem Ledger.start (hlen : alloc.map.length = mapWords) : Ledger alloc.map ⟨alloc, []⟩ :=
  ⟨hlen, hlen, .start⟩

/-- `memory_map` has a bit for each chunk of 1 GB. -/
theorem bits_of_length {map : List (BitVec 32)} (hlen : map.length = mapWords) :
    Bitmap.bits map = 2 ^ 18 := by
  rw [Bitmap.bits, hlen]
  rfl

theorem lt_of_used {map : List (BitVec 32)} (hlen : map.length = mapWords) {c : Nat}
    (hc : Bitmap.used map c) : c < 2 ^ 18 :=
  lt_of_lt_of_eq (Bitmap.used_lt (by decide) hc) (bits_of_length hlen)

/-- An allocation puts its block into the ledger. -/
theorem Ledger.allocate {location : Option Nat} (h : Ledger base ⟨alloc, live⟩)
    (halloc : memoryAllocate alloc size = some (location, alloc')) (hp : pointer location = some a) :
    Ledger base ⟨alloc', ⟨a.toNat, size⟩ :: live⟩ := by
  obtain ⟨rfl, _⟩ | ⟨i, hi, hin, rfl, htaken⟩ := Memory.memoryAllocate_cases halloc
  · cases hp
  have hbits : Bitmap.bits alloc.map = 2 ^ 18 := bits_of_length h.length_eq
  have haddr : a.toNat = i * chunkSize := by
    rw [pointer] at hp
    split at hp
    · cases hp
    · cases hp
      rw [UInt32.toNat_ofNat', Nat.mod_eq_of_lt]
      rw [chunkSize]
      omega
  rw [haddr]
  refine ⟨h.base_length, htaken.length_eq.trans h.length_eq, ?_⟩
  have hset : { c | Bitmap.used alloc'.map c } =
      { c | Bitmap.used alloc.map c } ∪ chunks ⟨i * chunkSize, size⟩ := by
    ext c
    rw [Set.mem_union, Memory.mem_chunks]
    exact htaken.used_iff c
  show OwnedExactly chunks { c | Bitmap.used alloc'.map c } _ _
  rw [hset]
  exact h.owned.acquire hi.disjoint

/-- A free of a block takes it out of the ledger. -/
theorem Ledger.free {location : Nat} (h : Ledger base ⟨alloc, live⟩)
    (hmem : ⟨location, size⟩ ∈ live) (hsize : size ≠ 0) :
    ∃ alloc', memoryFree alloc location size = some alloc' ∧
      Ledger base ⟨alloc', live.erase ⟨location, size⟩⟩ := by
  have hused : ∀ c, location / chunkSize ≤ c → c < location / chunkSize + numChunks size →
      Bitmap.used alloc.map c := by
    intro c hle hlt
    refine h.owned.marked _ hmem ⟨hle, ?_⟩
    rwa [Memory.chunksFor_of_ne_zero hsize]
  have hpos : location / chunkSize < location / chunkSize + numChunks size :=
    Nat.lt_add_of_pos_right (Memory.numChunks_pos size)
  have hfirst := lt_of_used h.length_eq (hused _ (le_refl _) hpos)
  have hlast := lt_of_used h.length_eq
    (hused _ (Nat.le_sub_one_of_lt hpos) (Nat.sub_one_lt_of_lt hpos))
  have hloc : location < 2 ^ 31 := by
    rw [chunkSize] at hfirst
    omega
  have hin : location / chunkSize + numChunks size ≤ Bitmap.bits alloc.map := by
    have hbits : Bitmap.bits alloc.map = 2 ^ 18 := bits_of_length h.length_eq
    omega
  obtain ⟨map, hfree, hlen, hiff⟩ := Memory.memoryFree_some hloc hin
  refine ⟨_, hfree, h.base_length, hlen.trans h.length_eq, ?_⟩
  show OwnedExactly chunks { c | Bitmap.used map c } _ _
  rw [Memory.used_freed hsize hiff]
  exact h.owned.release hmem

/-- The blocks of a list of calls of `memory_free`. -/
def blocksOf (blocks : List (Addr × UInt32)) : List Block :=
  blocks.map fun b => ⟨b.1.toNat, b.2⟩

/-- Freeing live blocks, each once, completes and takes them out of the ledger. -/
theorem Ledger.freeBlocks {blocks : List (Addr × UInt32)} (h : Ledger base ⟨alloc, live⟩)
    (hlive : (blocksOf blocks).Subperm live) (hsize : ∀ b ∈ blocks, b.2 ≠ 0) :
    ∃ alloc' live', freeBlocks alloc blocks = some alloc' ∧ Ledger base ⟨alloc', live'⟩ ∧
      live'.length + blocks.length = live.length := by
  induction blocks generalizing alloc live with
  | nil => exact ⟨alloc, live, rfl, h, rfl⟩
  | cons b blocks ih =>
    obtain ⟨location, size⟩ := b
    have hmem : ⟨location.toNat, size⟩ ∈ live := hlive.subset List.mem_cons_self
    obtain ⟨alloc₁, hfree, h₁⟩ := h.free hmem (hsize _ List.mem_cons_self)
    have hrest : (blocksOf blocks).Subperm (live.erase ⟨location.toNat, size⟩) := by
      have herase := hlive.erase ⟨location.toNat, size⟩
      rwa [blocksOf, List.map_cons, List.erase_cons_head] at herase
    obtain ⟨alloc₂, live₂, hblocks, h₂, hlen⟩ :=
      ih h₁ hrest fun b hb => hsize b (List.mem_cons_of_mem _ hb)
    refine ⟨alloc₂, live₂, ?_, h₂, ?_⟩
    · rw [Processes.freeBlocks, hfree, Option.bind_some, hblocks]
    · have hone := List.length_erase_add_one hmem
      rw [List.length_cons]
      omega

/-- Freeing a block of size 0 leaves `memory_map`. -/
theorem freeBlocks_faults {blocks : List (Addr × UInt32)} (hlen : alloc.map.length = mapWords)
    (hzero : ∃ b ∈ blocks, b.2 = 0) : Processes.freeBlocks alloc blocks = none := by
  induction blocks generalizing alloc with
  | nil =>
    obtain ⟨b, hb, _⟩ := hzero
    exact absurd hb List.not_mem_nil
  | cons b blocks ih =>
    obtain ⟨location, size⟩ := b
    cases hfree : memoryFree alloc location.toNat size with
    | none => rw [Processes.freeBlocks, hfree, Option.bind_none]
    | some alloc₁ =>
      have hstep : Memory.step ⟨alloc, []⟩ (.free location.toNat size) = some ⟨alloc₁, []⟩ := by
        rw [Memory.step, hfree, Option.map_some, List.erase_nil]
      obtain ⟨_, _, _, hlen₁, hin, _⟩ := Memory.step_free hstep
      rw [Processes.freeBlocks, hfree, Option.bind_some]
      refine ih (hlen₁.trans hlen) ?_
      obtain ⟨b, hb, hb0⟩ := hzero
      rcases List.mem_cons.mp hb with rfl | hb
      · rw [show size = 0 from hb0, show numChunks 0 = 2 ^ 20 from rfl] at hin
        have hle : 2 ^ 20 ≤ Bitmap.bits alloc.map := (Nat.le_add_left _ _).trans hin
        rw [bits_of_length hlen] at hle
        exact absurd hle (by decide)
      · exact ⟨b, hb, hb0⟩

/-- The map is back at the old one exactly when nothing is out. -/
theorem Ledger.map_eq_iff (h : Ledger base ⟨alloc, live⟩) : alloc.map = base ↔ live = [] := by
  rw [← h.owned.used_eq_iff fun b => ⟨_, Memory.chunks_nonempty b⟩]
  constructor
  · intro heq
    rw [heq]
  · intro hused
    exact Bitmap.eq_of_used (by decide) (h.length_eq.trans h.base_length.symm)
      (Set.ext_iff.mp hused)

/-- Freeing live blocks brings the old map back exactly when they are all that is out. -/
theorem Ledger.freeBlocks_iff {blocks : List (Addr × UInt32)} (h : Ledger base ⟨alloc, live⟩)
    (hlive : (blocksOf blocks).Subperm live) :
    (∃ alloc', Processes.freeBlocks alloc blocks = some alloc' ∧ alloc'.map = base) ↔
      (∀ b ∈ blocks, b.2 ≠ 0) ∧ blocks.length = live.length := by
  by_cases hsize : ∀ b ∈ blocks, b.2 ≠ 0
  · obtain ⟨alloc', live', hfree, h', hlen⟩ := h.freeBlocks hlive hsize
    rw [and_iff_right hsize]
    simp only [hfree, Option.some.injEq, exists_eq_left', h'.map_eq_iff,
      ← List.length_eq_zero_iff]
    omega
  · have hzero : ∃ b ∈ blocks, b.2 = 0 := by
      simpa only [not_forall, not_not, exists_prop] using hsize
    simp only [freeBlocks_faults h.length_eq hzero, reduceCtorEq, false_and, exists_false, hsize]

end Ledger

/-! ## The life of a child -/

/-- The child holds the program that it has loaded last, if any, and its stack. -/
def HoldsProgram (s : Sys) (child : Addr) (live : List Block) : List UInt32 → Prop
  | [] => s.stack child = none ∧ s.text child = none
  | size :: _ => ∃ stack text,
      imageOf s child = ((some stack, userStackSize), some text, size) ∧
      [⟨stack.toNat, userStackSize⟩, ⟨text.toNat, size⟩, ⟨child.toNat, pcbSize⟩].Subperm live

/-- After loading the programs `done`, the last one first, every block that was allocated for
the child is still live: its PCB, and a program and a stack for each `execve`. -/
structure Lives (base : List (BitVec 32)) (child : Addr) (done : List UInt32) (live : List Block)
    (m : Machine) : Prop where
  ledger : Ledger base ⟨m.alloc, live⟩
  count : live.length = 2 * done.length + 1
  pcb : ⟨child.toNat, pcbSize⟩ ∈ live
  program : HoldsProgram m.sys child live done

section Life

variable {base : List (BitVec 32)} {done : List UInt32} {live : List Block} {act : Act}

theorem HoldsProgram.congr (h : HoldsProgram s child live done)
    (himage : imageOf s' child = imageOf s child) : HoldsProgram s' child live done := by
  cases done with
  | nil =>
    simp only [imageOf, Prod.mk.injEq] at himage
    exact ⟨himage.1.1.trans h.1, himage.2.1.trans h.2⟩
  | cons size done =>
    obtain ⟨stack, text, hold, hlive⟩ := h
    exact ⟨stack, text, himage.trans hold, hlive⟩

/-- What `loadProgram` has done if it completes: the two allocations, and the image if both of
them got memory. -/
theorem loadProgram_cases {alloc alloc' : Allocator} {size : UInt32} {image : Option Image}
    (h : loadProgram alloc size = some (image, alloc')) :
    ∃ binaryStart alloc₁ stackPage, memoryAllocate alloc size = some (binaryStart, alloc₁) ∧
      memoryAllocate alloc₁ userStackSize = some (stackPage, alloc') ∧
      image = (pointer binaryStart).bind fun text =>
        (pointer stackPage).map fun stack => ⟨text, size, stack, userStackSize⟩ := by
  simp only [loadProgram, Option.bind_eq_bind, Option.bind_eq_some_iff, Prod.exists] at h
  obtain ⟨binaryStart, alloc₁, htext, stackPage, alloc₂, hstack, h⟩ := h
  obtain ⟨himage, rfl⟩ := Prod.mk.inj (Option.some.inj h)
  exact ⟨binaryStart, alloc₁, stackPage, htext, hstack, himage.symm⟩

theorem lives_vfork (hlen : m.alloc.map.length = mapWords) (hforks : Forks m child)
    (hm : machineStep m .vfork = some m') :
    Lives m.alloc.map child [] [⟨child.toNat, pcbSize⟩] m' := by
  obtain ⟨location, alloc, halloc, hchild⟩ := hforks
  simp only [machineStep, halloc, hchild, Option.bind_eq_bind, Option.bind_some] at hm
  obtain ⟨s', hs', heq⟩ := Option.bind_eq_some_iff.mp hm
  cases heq
  exact ⟨(Ledger.start hlen).allocate halloc hchild, rfl, List.mem_singleton_self _,
    imageOf_vfork hs'⟩

/-- A successful `execve` of the child. -/
theorem Lives.execve {size : UInt32} (h : Lives base child done live m)
    (hcurrent : m.sys.currentProcess = child) (hloads : Loads m.alloc size)
    (hm : machineStep m (.execve (some size)) = some m') :
    ∃ live', Lives base child (size :: done) live' m' := by
  obtain ⟨image, alloc, hload⟩ := hloads
  simp only [machineStep, hload, Option.bind_eq_bind, Option.bind_some] at hm
  obtain ⟨s', hs', heq⟩ := Option.bind_eq_some_iff.mp hm
  cases heq
  obtain ⟨binaryStart, alloc₁, stackPage, htext, hstack, himage⟩ := loadProgram_cases hload
  obtain ⟨text, hbinary, himage⟩ := Option.bind_eq_some_iff.mp himage.symm
  obtain ⟨stack, hpage, rfl⟩ := Option.map_eq_some_iff.mp himage
  have hledger := (h.ledger.allocate htext hbinary).allocate hstack hpage
  refine ⟨_, hledger, ?_, List.mem_cons_of_mem _ (List.mem_cons_of_mem _ h.pcb), stack, text, ?_, ?_⟩
  · have hcount := h.count
    simp only [List.length_cons]
    omega
  · rw [imageOf_execve hs', ← hcurrent]
    simp only [imageOf, loaded, loadImage, Function.update_self]
  · refine (List.subperm_cons _).mpr ((List.subperm_cons _).mpr ?_)
    exact List.singleton_subperm_iff.mpr h.pcb

theorem Lives.step (h : Lives base child done live m) (hquiet : Quiet child m act)
    (hm : machineStep m act = some m') :
    ∃ live', Lives base child (act.program.toList ++ done) live' m' := by
  cases act with
  | vfork => exact hquiet.elim
  | execve size =>
    cases size with
    | none =>
      obtain ⟨s', hs', heq⟩ := Option.bind_eq_some_iff.mp hm
      cases heq
      exact ⟨live, h.ledger, h.count, h.pcb, h.program.congr (congrFun (imageOf_execve hs') child)⟩
    | some size => exact h.execve hquiet.1 hquiet.2 hm
  | call e =>
    obtain ⟨hnone, hreuse⟩ := hquiet
    simp only [machineStep, freedBy, hnone, Option.map_none, Option.getD_none, freeBlocks,
      Option.bind_eq_bind] at hm
    split at hm
    · cases hm
    · next hallocates =>
      obtain ⟨s', hs', heq⟩ := Option.bind_eq_some_iff.mp hm
      cases heq
      have hreaps : ¬Reaps m.sys e child := fun hreaps => by
        cases hnone.symm.trans (destroyed_eq_some_iff.mpr hreaps)
      have himage := imageOf_step (Bool.eq_false_iff.mpr hallocates) hreaps hreuse hs'
      exact ⟨live, h.ledger, h.count, h.pcb, h.program.congr himage⟩

theorem Lives.run {acts : List Act} (h : Lives base child done live m)
    (hquiet : AllSteps machineStep (Quiet child) m acts) (hrun : run machineStep m acts = some m') :
    ∃ live', Lives base child ((programs acts).reverse ++ done) live' m' := by
  induction acts generalizing m done live with
  | nil =>
    cases hrun
    exact ⟨live, h⟩
  | cons act acts ih =>
    obtain ⟨hact, hrest⟩ := allSteps_cons.mp hquiet
    cases hm : machineStep m act with
    | none => simp [Runs.run, hm] at hrun
    | some m₁ =>
      rw [run_cons_some hm] at hrun
      obtain ⟨live₁, h₁⟩ := h.step hact hm
      obtain ⟨live', h'⟩ := ih h₁ (hrest m₁ hm) hrun
      refine ⟨live', ?_⟩
      have hprograms : (programs (act :: acts)).reverse ++ done =
          (programs acts).reverse ++ (act.program.toList ++ done) := by
        cases hact : act.program with
        | none => simp [programs, hact]
        | some size => simp [programs, hact]
      rwa [hprograms]

/-- What `process_destroy` of the child frees. -/
theorem HoldsProgram.freedBlocks_eq (h : HoldsProgram s child live done) :
    (done = [] ∧ freedBlocks s (some child) = [(child, pcbSize)]) ∨
      ∃ size rest stack text, done = size :: rest ∧
        freedBlocks s (some child) = [(stack, userStackSize), (text, size), (child, pcbSize)] ∧
        (blocksOf [(stack, userStackSize), (text, size), (child, pcbSize)]).Subperm live := by
  cases done with
  | nil =>
    refine .inl ⟨rfl, ?_⟩
    rw [freedBlocks, h.1, h.2]
    rfl
  | cons size rest =>
    obtain ⟨stack, text, himage, hlive⟩ := h
    simp only [imageOf, Prod.mk.injEq] at himage
    obtain ⟨⟨hstack, hstacksize⟩, htext, htextsize⟩ := himage
    refine .inr ⟨size, rest, stack, text, rfl, ?_, hlive⟩
    rw [freedBlocks, hstack, hstacksize, htext, htextsize]
    rfl

/-- `process_destroy` of the child brings `memory_map` back exactly if the child has loaded at
most one program, and no empty one. -/
theorem Lives.freeBlocks_iff (h : Lives base child done live m) :
    (∃ alloc, freeBlocks m.alloc (freedBlocks m.sys (some child)) = some alloc ∧
        alloc.map = base) ↔ done.length ≤ 1 ∧ ∀ size ∈ done, size ≠ 0 := by
  have hcount := h.count
  have hpcb : pcbSize ≠ 0 := by decide
  have hstack : userStackSize ≠ 0 := by decide
  rcases h.program.freedBlocks_eq with ⟨rfl, hblocks⟩ | ⟨size, rest, stack, text, rfl, hblocks, hlive⟩
  · have hlive : (blocksOf [(child, pcbSize)]).Subperm live :=
      List.singleton_subperm_iff.mpr h.pcb
    rw [hblocks, h.ledger.freeBlocks_iff hlive, hcount]
    simp [hpcb]
  · rw [hblocks, h.ledger.freeBlocks_iff hlive, hcount]
    have hrest : 3 = 2 * (rest.length + 1) + 1 ↔ rest = [] := by
      rw [← List.length_eq_zero_iff]
      omega
    simp only [List.length_cons, List.length_nil, Nat.reduceAdd, hrest]
    constructor
    · rintro ⟨hsizes, rfl⟩
      exact ⟨le_refl _, by simpa [hstack, hpcb] using hsizes⟩
    · rintro ⟨hle, hsizes⟩
      have hnil : rest = [] := List.length_eq_zero_iff.mp (by omega)
      exact ⟨by simp [hstack, hpcb, hsizes size List.mem_cons_self], hnil⟩

/-- Memory over the life of a process. A child is created by `vfork`, loads programs while
nothing else is allocated or freed, and is reaped by `waitpid`. The memory map is as it was
before the `vfork` exactly if the child has loaded at most one program, and no empty one. -/
theorem no_leak_iff (m m₁ m₂ : Machine) (child : Addr) (acts : List Act) (e : Event)
    (hlen : m.alloc.map.length = mapWords) (hforks : Forks m child)
    (hvfork : machineStep m .vfork = some m₁)
    (hquiet : AllSteps machineStep (Quiet child) m₁ acts)
    (hrun : Runs.run machineStep m₁ acts = some m₂) (hreaps : Reaps m₂.sys e child)
    (hwaitpid : (Processes.step m₂.sys e).isSome) :
    (∃ m₃, machineStep m₂ (.call e) = some m₃ ∧ m₃.alloc.map = m.alloc.map) ↔
      (programs acts).length ≤ 1 ∧ ∀ size ∈ programs acts, size ≠ 0 := by
  obtain ⟨live, hlives⟩ := (lives_vfork hlen hforks hvfork).run hquiet hrun
  rw [List.append_nil] at hlives
  have hiff := hlives.freeBlocks_iff
  simp only [List.length_reverse, List.mem_reverse] at hiff
  rw [← hiff]
  obtain ⟨s₃, hs₃⟩ := Option.isSome_iff_exists.mp hwaitpid
  have hallocates : ¬e.allocates = true := by
    intro hallocates
    cases e with
    | vfork _ => exact hreaps.elim
    | execve _ => exact hreaps.elim
    | _ => cases hallocates
  simp only [machineStep, if_neg hallocates, hs₃, freedBy, destroyed_eq_some_iff.mpr hreaps,
    Option.map_some, Option.getD_some, Option.bind_eq_bind, Option.bind_some,
    Option.bind_eq_some_iff, Option.some.injEq]
  constructor
  · rintro ⟨m₃, ⟨alloc, hfree, rfl⟩, hmap⟩
    exact ⟨alloc, hfree, hmap⟩
  · rintro ⟨alloc, hfree, hmap⟩
    exact ⟨_, ⟨alloc, hfree, rfl⟩, hmap⟩

end Life

/-! ## Two programs -/

/-- A test for `Quiet`. -/
def isQuiet (child : Addr) (m : Machine) : Act → Bool
  | .vfork => false
  | .execve none => true
  | .execve (some size) =>
    m.sys.currentProcess = child && (loadProgram m.alloc size).any fun r => r.1.isSome
  | .call (.reuse _) => false
  | .call e => destroyed m.sys e = none

theorem quiet_of_isQuiet {act : Act} (h : isQuiet child m act = true) : Quiet child m act := by
  cases act with
  | vfork => cases h
  | execve size =>
    cases size with
    | none => trivial
    | some size =>
      simp only [isQuiet, Bool.and_eq_true, decide_eq_true_eq, Option.any_eq_true] at h
      obtain ⟨hcurrent, ⟨image, alloc⟩, hload, himage⟩ := h
      obtain ⟨image, rfl⟩ := Option.isSome_iff_exists.mp himage
      exact ⟨hcurrent, image, alloc, hload⟩
  | call e =>
    have hnot : ∀ memory, e ≠ .reuse memory := by
      rintro memory rfl
      cases h
    refine ⟨?_, fun memory he => absurd he (hnot memory)⟩
    cases e with
    | reuse memory => exact absurd rfl (hnot memory)
    | _ => exact of_decide_eq_true h

/-- A machine with 1 MB, 64 kB of it the kernel's. -/
def smallBoot : Option Machine :=
  bootMachine clearMemory clearLow 1048576 65536 0x8000 4096

def smallMachine : Machine := smallBoot.get (by decide +kernel)

/-- The shell has called `vfork`. Its child is at 0x19000. -/
def smallForked : Machine := (machineStep smallMachine .vfork).get (by decide +kernel)

theorem smallForked_eq : machineStep smallMachine .vfork = some smallForked :=
  (Option.some_get _).symm

theorem smallMachine_forks : Forks smallMachine 0x19000 := by
  have hchild : ((memoryAllocate smallMachine.alloc pcbSize).map fun r => pointer r.1) =
      some (some 0x19000) := by decide +kernel
  obtain ⟨⟨location, alloc⟩, halloc, hp⟩ := Option.map_eq_some_iff.mp hchild
  exact ⟨location, alloc, halloc, hp⟩

/-- The child loads a program, the shell waits for it, and it exits. -/
def onceActs : List Act := [.execve (some 5000), .call (.waitpid 2 0), .call (.exit 7)]

def onceDone : Machine := (run machineStep smallForked onceActs).get (by decide +kernel)

theorem no_leak_iff_once :
    machineStep smallMachine .vfork = some smallForked ∧
      AllSteps machineStep (Quiet 0x19000) smallForked onceActs ∧
      run machineStep smallForked onceActs = some onceDone ∧
      ∃ m₃, machineStep onceDone (.call .resume) = some m₃ ∧
        m₃.alloc.map = smallMachine.alloc.map := by
  have hquiet : AllSteps machineStep (fun m act => isQuiet 0x19000 m act = true) smallForked
      onceActs := by decide +kernel
  have hquiet' := hquiet.mono fun _ _ => quiet_of_isQuiet
  have hrun : run machineStep smallForked onceActs = some onceDone := (Option.some_get _).symm
  -- one evaluation of the machine for both
  have hreaps : destroyed onceDone.sys .resume = some (some 0x19000) ∧
      (Processes.step onceDone.sys .resume).isSome := by decide +kernel
  refine ⟨smallForked_eq, hquiet', hrun, ?_⟩
  exact (no_leak_iff smallMachine smallForked onceDone 0x19000 onceActs .resume
    (by decide +kernel) smallMachine_forks smallForked_eq hquiet' hrun
    (destroyed_eq_some_iff.mp hreaps.1) hreaps.2).mpr (by simp [programs, onceActs, Act.program])

/-- The child loads a program, which loads another one, and exits. -/
def twiceActs : List Act :=
  [.execve (some 5000), .call (.interrupt [] true), .execve (some 5000), .call (.waitpid 2 0),
    .call (.exit 7)]

def twiceDone : Machine := (run machineStep smallForked twiceActs).get (by decide +kernel)

/-- After the reap the chunks of the first program and its stack are still used. -/
theorem second_execve_leaks :
    smallBoot = some smallMachine ∧ machineStep smallMachine .vfork = some smallForked ∧
      AllSteps machineStep (Quiet 0x19000) smallForked twiceActs ∧
      run machineStep smallForked twiceActs = some twiceDone ∧
      Reaps twiceDone.sys .resume 0x19000 ∧
      ∃ m₃, machineStep twiceDone (.call .resume) = some m₃ ∧
        m₃.alloc.map ≠ smallMachine.alloc.map := by
  have hquiet : AllSteps machineStep (fun m act => isQuiet 0x19000 m act = true) smallForked
      twiceActs := by decide +kernel
  have hdone : destroyed twiceDone.sys .resume = some (some 0x19000) ∧
      ((machineStep twiceDone (.call .resume)).map fun m => m.alloc.map[0]?) =
        some (some 0x79ffffff) := by decide +kernel
  obtain ⟨hreaps, hword⟩ := hdone
  refine ⟨(Option.some_get _).symm, smallForked_eq, hquiet.mono fun _ _ => quiet_of_isQuiet,
    (Option.some_get _).symm, destroyed_eq_some_iff.mp hreaps, ?_⟩
  obtain ⟨m₃, hm₃, hfirst⟩ := Option.map_eq_some_iff.mp hword
  refine ⟨m₃, hm₃, fun hmap => ?_⟩
  have hold : smallMachine.alloc.map[0]? = some 0x1ffffff := by decide +kernel
  rw [hmap, hold] at hfirst
  exact absurd hfirst (by decide)

end Vmwos.Processes
