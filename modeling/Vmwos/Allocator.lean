import Mathlib.Data.Set.Basic
import Vmwos.Memory
import Vmwos.Ownership
import Vmwos.Runs

/-!
# Runs of the allocator

`Heap` is the allocator together with the blocks that are out, which the code does not
record. A run is a sequence of calls of `memory_allocate` and `memory_free` after
`memory_init`.

Results:
1. `allocator_ownership`: for a `memory_map` of any length, the live blocks are apart
   from each other and from the kernel, and marked used, in every state of every run
   that frees live blocks; with a long enough `memory_map` every call completes.
2. `blocks_stay_in_ram`: every block lies below `max_chunk` and no access leaves
   `memory_map`, exactly if no allocation meets a free run that is too short, but goes
   up to `max_chunk`, before one that is long enough.
3. `allocate_leaves_ram`: one allocation on a machine with 1 MB.
-/

namespace Vmwos.Memory

open Runs Ownership

/-! ## Definitions -/

/-- What a caller of `memory_allocate` holds: the address, and the size asked for. -/
structure Block where
  addr : Nat
  size : UInt32
  deriving DecidableEq

/-- The chunks of a block. -/
def chunks (b : Block) : Set Nat :=
  { c | b.addr / chunkSize ≤ c ∧ c < b.addr / chunkSize + chunksFor b.size }

/-- The allocator and the live blocks. -/
structure Heap where
  alloc : Allocator
  live : List Block

inductive Call where
  | allocate (size : UInt32)
  | free (location : Nat) (size : UInt32)

/-- One call. -/
def step (h : Heap) : Call → Option Heap
  | .allocate size =>
    (memoryAllocate h.alloc size).map fun
      | (none, a) => { h with alloc := a }
      | (some addr, a) => ⟨a, ⟨addr, size⟩ :: h.live⟩
  | .free location size =>
    (memoryFree h.alloc location size).map fun a => ⟨a, h.live.erase ⟨location, size⟩⟩

/-- A free passes the address and the size of a live block. -/
def FreesLive (h : Heap) : Call → Prop
  | .allocate _ => True
  | .free location size => ⟨location, size⟩ ∈ h.live

/-- A free passes a size other than 0. -/
def FreesNonZero (_ : Heap) : Call → Prop
  | .allocate _ => True
  | .free _ size => size ≠ 0

/-- The live blocks own their chunks. The kernel area is what `memory_init` marked. -/
structure BlocksOwned (memoryKernel : Nat) (h : Heap) : Prop where
  apart : h.live.Pairwise fun b c => Disjoint (chunks b) (chunks c)
  kernel_apart : ∀ b ∈ h.live, ∀ c ∈ chunks b, ¬ c < memoryKernel / chunkSize + 1
  addr_ne_zero : ∀ b ∈ h.live, b.addr ≠ 0
  marked : ∀ b ∈ h.live, ∀ c ∈ chunks b, memoryTestUsed h.alloc.map c = some true

/-- The allocation completes, so every element it touches is inside `memory_map`, and
its block lies below `max_chunk`. -/
def InRam (h : Heap) : Call → Prop
  | .allocate size => ∃ r a, memoryAllocate h.alloc size = some (r, a) ∧
      ∀ addr, r = some addr → ∀ c ∈ chunks ⟨addr, size⟩, c < h.alloc.maxChunk
  | .free _ _ => True

/-- A start from which all chunks up to `max_chunk` are free, but fewer than asked for,
is tried only after a start with enough free chunks below `max_chunk`. -/
def EndRunLater (h : Heap) : Call → Prop
  | .allocate size => ∀ before i after, searchOrder h.alloc = before ++ i :: after →
      h.alloc.maxChunk < i + chunksFor size →
      FreeRun h.alloc.map (h.alloc.maxChunk - i) i →
      ∃ k ∈ before, k + chunksFor size ≤ h.alloc.maxChunk ∧
        FreeRun h.alloc.map (chunksFor size) k
  | .free _ _ => True

/-- The invariant of the runs: ownership, and the bounds of the search. -/
structure Sound (memoryKernel : Nat) (h : Heap) : Prop where
  owned : Owned chunks { c | Bitmap.used h.alloc.map c }
    { c | c < memoryKernel / chunkSize + 1 } h.live
  previousBlock_le : h.alloc.previousBlock ≤ h.alloc.maxChunk
  maxChunk_le : h.alloc.maxChunk ≤ maxMemory / chunkSize
  addr_eq : ∀ b ∈ h.live, b.addr < maxMemory

/-! ## `memory_init` -/

theorem bits_boot (words : Nat) : Bitmap.bits (boot words).map = 32 * words := by
  simp [Bitmap.bits, boot]

theorem not_used_boot (words c : Nat) : ¬ Bitmap.used (boot words).map c := by
  rintro ⟨word, hword, hbit⟩
  simp only [boot, List.getElem?_replicate] at hword
  split at hword
  · cases hword
    simp at hbit
  · cases hword

theorem clearWords_boot {words k turns : Nat} {map : List (BitVec 32)}
    (h : clearWords (boot words).map k turns = some map) : map = (boot words).map := by
  induction turns generalizing k with
  | zero => exact (Option.some.inj h).symm
  | succ turns ih =>
    rw [clearWords] at h
    split at h
    · exact ih (by simpa [boot] using h)
    · cases h

theorem clearWords_completes {words k turns : Nat} (h : k + turns ≤ words) :
    clearWords (boot words).map k turns = some (boot words).map := by
  induction turns generalizing k with
  | zero => rfl
  | succ turns ih =>
    have hk : k < (boot words).map.length := by
      simp only [boot, List.length_replicate]
      omega
    have hset : (boot words).map.set k 0 = (boot words).map := by simp [boot]
    rw [clearWords, if_pos hk, hset]
    exact ih (by omega)

/-- The state after a successful `memory_init`: the kernel area is marked. -/
structure Initialised (words memoryTotal memoryKernel : Nat) (a : Allocator) : Prop where
  length_eq : a.map.length = words
  maxChunk_eq : a.maxChunk = memoryTotal / chunkSize
  previousBlock_eq : a.previousBlock = 0
  used_iff : ∀ c, Bitmap.used a.map c ↔ c < memoryKernel / chunkSize + 1
  total_le : memoryTotal ≤ maxMemory

theorem initialised_of_memoryInit {words total kernel : Nat} {a : Allocator}
    (h : memoryInit (boot words) total kernel = some (0, a)) :
    Initialised words total kernel a := by
  rw [memoryInit] at h
  split at h
  · cases congrArg Prod.fst (Option.some.inj h)
  · next htotal =>
    simp only [Option.bind_eq_bind, Option.bind_eq_some_iff] at h
    obtain ⟨map, hclear, map', hmark, h⟩ := h
    cases clearWords_boot hclear
    cases h
    rcases Nat.lt_or_ge (Bitmap.bits (boot words).map) (0 + (kernel / chunkSize + 1)) with
      hout | hin
    · have hnone : Bitmap.each memoryMarkUsed (boot words).map 0 (kernel / chunkSize + 1) = none :=
        Bitmap.each_none (Bitmap.mark_some (by decide)) (Nat.succ_pos _) hout
      cases hmark.symm.trans hnone
    · obtain ⟨map₁, h₁, hlen, hused⟩ := Bitmap.each_mark (by decide) hin
      cases hmark.symm.trans h₁
      refine ⟨by simp [hlen, boot], rfl, rfl, fun c => ?_, not_lt.mp htotal⟩
      rw [hused]
      constructor
      · rintro (hboot | hc)
        · exact absurd hboot (not_used_boot words c)
        · omega
      · intro hc
        exact .inr ⟨Nat.zero_le c, by omega⟩

/-- `memory_map` has a bit for each chunk of 1 GB. -/
theorem bits_mapWords : 32 * mapWords = maxMemory / chunkSize := by decide

theorem div_chunkSize_lt {n : Nat} : n / chunkSize < maxMemory / chunkSize ↔ n < maxMemory := by
  unfold maxMemory chunkSize
  omega

theorem memoryInit_completes {total kernel : Nat} (htotal : total ≤ maxMemory) :
    (∃ a, memoryInit (boot mapWords) total kernel = some (0, a)) ↔ kernel < maxMemory := by
  constructor
  · rintro ⟨a, ha⟩
    have hI := initialised_of_memoryInit ha
    have hlt := Bitmap.used_lt (by decide) ((hI.used_iff (kernel / chunkSize)).mpr (by omega))
    rw [Bitmap.bits, hI.length_eq, bits_mapWords] at hlt
    exact div_chunkSize_lt.mp hlt
  · intro hkernel
    have hwords : 0 + total / chunkSize / 32 ≤ mapWords := by
      rw [Nat.zero_add]
      exact Nat.div_le_div_right (Nat.div_le_div_right htotal)
    have hin : 0 + (kernel / chunkSize + 1) ≤ Bitmap.bits (boot mapWords).map := by
      rw [bits_boot, bits_mapWords, Nat.zero_add]
      exact div_chunkSize_lt.mpr hkernel
    obtain ⟨map, hmark, _⟩ := Bitmap.each_mark (w := 32) (by decide) hin
    refine ⟨⟨map, total / chunkSize, 0⟩, ?_⟩
    rw [memoryInit, if_neg (not_lt.mpr htotal)]
    simp only [clearWords_completes hwords]
    show Option.bind (Bitmap.each Bitmap.mark _ _ _) _ = _
    rw [hmark]
    rfl

theorem sound_initialised {words total kernel : Nat} {a : Allocator}
    (hI : Initialised words total kernel a) : Sound kernel ⟨a, []⟩ where
  owned := Owned.start fun c hc => (hI.used_iff c).mpr hc
  previousBlock_le := by
    rw [hI.previousBlock_eq]
    exact Nat.zero_le _
  maxChunk_le := by
    rw [hI.maxChunk_eq]
    exact Nat.div_le_div_right hI.total_le
  addr_eq := by simp

/-! ## One call -/

theorem mul_chunkSize_div (i : Nat) : i * chunkSize / chunkSize = i :=
  Nat.mul_div_cancel i (by decide)

/-- The chunks of a block that starts at chunk `i`. -/
theorem mem_chunks {i c : Nat} {size : UInt32} :
    c ∈ chunks ⟨i * chunkSize, size⟩ ↔ i ≤ c ∧ c < i + chunksFor size := by
  rw [chunks, Set.mem_ofPred_eq, mul_chunkSize_div]

/-- What an allocation that completes does: nothing, or it takes the first free run. -/
theorem step_allocate {h h' : Heap} {size : UInt32} (hs : step h (.allocate size) = some h') :
    h' = h ∨ ∃ i, FirstFreeRun h.alloc (chunksFor size) i ∧
      h'.live = ⟨i * chunkSize, size⟩ :: h.live ∧
      h'.alloc.previousBlock = i + 1 ∧ h'.alloc.maxChunk = h.alloc.maxChunk ∧
      h'.alloc.map.length = h.alloc.map.length ∧
      ∀ c, Bitmap.used h'.alloc.map c ↔
        Bitmap.used h.alloc.map c ∨ c ∈ chunks ⟨i * chunkSize, size⟩ := by
  obtain ⟨⟨r, a⟩, halloc, rfl⟩ := Option.map_eq_some_iff.mp hs
  rcases memoryAllocate_cases halloc with ⟨rfl, rfl, _⟩ | ⟨i, hi, _, rfl, hprev, hmax, hlen, hused⟩
  · exact .inl rfl
  · refine .inr ⟨i, hi, rfl, hprev, hmax, hlen, fun c => ?_⟩
    rw [hused, mem_chunks]

/-- What a free that completes does. -/
theorem step_free {h h' : Heap} {location : Nat} {size : UInt32}
    (hs : step h (.free location size) = some h') :
    h'.live = h.live.erase ⟨location, size⟩ ∧
      h'.alloc.previousBlock = h.alloc.previousBlock ∧ h'.alloc.maxChunk = h.alloc.maxChunk ∧
      h'.alloc.map.length = h.alloc.map.length ∧
      location / chunkSize + numChunks size ≤ Bitmap.bits h.alloc.map ∧
      ∀ c, Bitmap.used h'.alloc.map c ↔ Bitmap.used h.alloc.map c ∧
        ¬ (location / chunkSize ≤ c ∧ c < location / chunkSize + numChunks size) := by
  rw [step] at hs
  obtain ⟨a', hfree, rfl⟩ := Option.map_eq_some_iff.mp hs
  obtain ⟨_, hin, map', rfl, hlen, hused⟩ := memoryFree_cases hfree
  exact ⟨rfl, rfl, rfl, hlen, hin, hused⟩

theorem chunksFor_of_ne_zero {size : UInt32} (h : size ≠ 0) : chunksFor size = numChunks size := by
  rw [chunksFor, if_neg h]

/-- A free run is a block that nobody has. -/
theorem FirstFreeRun.disjoint {a : Allocator} {i : Nat} {size : UInt32}
    (h : FirstFreeRun a (chunksFor size) i) :
    Disjoint (chunks ⟨i * chunkSize, size⟩) { c | Bitmap.used a.map c } := by
  rw [Set.disjoint_left]
  intro c hc hu
  obtain ⟨hle, hlt⟩ := mem_chunks.mp hc
  exact h.1 c hle hlt hu

/-- The bits that `memory_free` clears are the chunks of the block, if its size is not 0. -/
theorem used_freed {map map' : List (BitVec 32)} {location : Nat} {size : UInt32} (hne : size ≠ 0)
    (hused : ∀ c, Bitmap.used map' c ↔ Bitmap.used map c ∧
      ¬ (location / chunkSize ≤ c ∧ c < location / chunkSize + numChunks size)) :
    { c | Bitmap.used map' c } = { c | Bitmap.used map c } \ chunks ⟨location, size⟩ := by
  ext c
  simp only [Set.mem_ofPred_eq, Set.mem_sdiff, chunks, chunksFor_of_ne_zero hne]
  exact hused c

/-- A call keeps the length of the map and the limit. -/
theorem step_frame {h h' : Heap} {call : Call} (hs : step h call = some h') :
    h'.alloc.maxChunk = h.alloc.maxChunk ∧ h'.alloc.map.length = h.alloc.map.length := by
  cases call with
  | allocate size =>
    rcases step_allocate hs with rfl | ⟨i, _, _, _, hmax, hlen, _⟩
    · exact ⟨rfl, rfl⟩
    · exact ⟨hmax, hlen⟩
  | free location size =>
    obtain ⟨_, _, hmax, hlen, _⟩ := step_free hs
    exact ⟨hmax, hlen⟩

theorem sound_step {kernel : Nat} {h h' : Heap} {call : Call} (hS : Sound kernel h)
    (hlive : FreesLive h call) (hne : FreesNonZero h call) (hs : step h call = some h') :
    Sound kernel h' := by
  cases call with
  | allocate size =>
    rcases step_allocate hs with rfl | ⟨i, hi, hlive', hprev, hmax, _, hused⟩
    · exact hS
    · have hlt := hi.lt hS.previousBlock_le
      refine ⟨?_, by omega, by rw [hmax]; exact hS.maxChunk_le, ?_⟩
      · have hset : { c | Bitmap.used h'.alloc.map c } =
            { c | Bitmap.used h.alloc.map c } ∪ chunks ⟨i * chunkSize, size⟩ :=
          Set.ext hused
        rw [hlive', hset]
        exact hS.owned.acquire hi.disjoint
      · intro b hb
        rw [hlive'] at hb
        rcases List.mem_cons.mp hb with rfl | hb
        · exact div_chunkSize_lt.mp (by
            rw [mul_chunkSize_div]
            exact lt_of_lt_of_le hlt hS.maxChunk_le)
        · exact hS.addr_eq b hb
  | free location size =>
    obtain ⟨hlive', hprev, hmax, _, _, hused⟩ := step_free hs
    refine ⟨?_, by rw [hprev, hmax]; exact hS.previousBlock_le, by rw [hmax]; exact hS.maxChunk_le,
      ?_⟩
    · rw [hlive', used_freed hne hused]
      exact hS.owned.release hlive
    · intro b hb
      rw [hlive'] at hb
      exact hS.addr_eq b (List.mem_of_mem_erase hb)

/-- With a map that is long enough for any run from any chunk, every call completes. -/
theorem step_completes {kernel : Nat} {h : Heap} {call : Call} (hS : Sound kernel h)
    (hlive : FreesLive h call) (hne : FreesNonZero h call)
    (hlong : maxMemory / chunkSize + 2 ^ 20 ≤ Bitmap.bits h.alloc.map) :
    ∃ h', step h call = some h' := by
  cases call with
  | allocate size =>
    rcases exists_firstFreeRun h.alloc (chunksFor size) with hnone | ⟨i, hi⟩
    · exact ⟨_, by rw [step, memoryAllocate_none hnone]; rfl⟩
    · have hlt := hi.lt hS.previousBlock_le
      have hmax := hS.maxChunk_le
      have hn : chunksFor size ≤ 2 ^ 20 := numChunks_le _
      obtain ⟨map, hmap, _⟩ := memoryAllocate_some hi (by omega)
      exact ⟨_, by rw [step, hmap]; rfl⟩
  | free location size =>
    have haddr : location < maxMemory := hS.addr_eq _ hlive
    have hloc : location < 2 ^ 31 := lt_trans haddr (by decide)
    have hfirst := div_chunkSize_lt.mpr haddr
    have hn : numChunks size ≤ 2 ^ 20 := numChunks_le size
    obtain ⟨map, hmap, _⟩ := memoryFree_some (a := h.alloc) hloc
      (show location / chunkSize + numChunks size ≤ _ by omega)
    exact ⟨_, by rw [step, hmap]; rfl⟩

/-! ## 1. Ownership -/

theorem chunks_nonempty (b : Block) : b.addr / chunkSize ∈ chunks b :=
  ⟨le_refl _, Nat.lt_add_of_pos_right (chunksFor_pos b.size)⟩

theorem blocksOwned_of_sound {kernel : Nat} {h : Heap} (hS : Sound kernel h) :
    BlocksOwned kernel h where
  apart := hS.owned.apart
  kernel_apart := fun b hb _ hc => Set.disjoint_left.mp (hS.owned.outside b hb) hc
  addr_ne_zero := by
    intro b hb hzero
    -- chunk 0 belongs to the kernel
    have hout := Set.disjoint_left.mp (hS.owned.outside b hb) (chunks_nonempty b)
    exact hout (by rw [hzero]; exact Nat.succ_pos _)
  marked := fun b hb _ hc => memoryTestUsed_used (hS.owned.marked b hb hc)

/-- Allocator ownership. After a successful `memory_init`, in every state of every run
whose frees pass the address and the non-zero size of a live block, the live blocks own
their chunks. This holds for a `memory_map` of any length; when it has a bit for every
chunk that a search can look at, every call completes. -/
theorem allocator_ownership (words memoryTotal memoryKernel : Nat) (a : Allocator)
    (hinit : memoryInit (boot words) memoryTotal memoryKernel = some (0, a)) (calls : List Call)
    (hfree : AllSteps step (fun h call => FreesLive h call ∧ FreesNonZero h call) ⟨a, []⟩ calls) :
    AllStates step (BlocksOwned memoryKernel) ⟨a, []⟩ calls ∧
      (maxMemory / chunkSize + 2 ^ 20 ≤ 32 * words → ∃ h, run step ⟨a, []⟩ calls = some h) := by
  have hI := initialised_of_memoryInit hinit
  have hstart := sound_initialised hI
  constructor
  · exact AllStates.of_inv (fun _ _ _ hS hc hs => sound_step hS hc.1 hc.2 hs)
      (fun _ hS => blocksOwned_of_sound hS) hstart hfree
  · intro hlong
    refine run_completes (I := fun h => Sound memoryKernel h ∧ h.alloc.map.length = words)
      (fun h call hS hc => ?_) ⟨hstart, hI.length_eq⟩ hfree
    obtain ⟨h', hs⟩ := step_completes hS.1 hc.1 hc.2 (by rwa [Bitmap.bits, hS.2])
    exact ⟨h', hs, sound_step hS.1 hc.1 hc.2 hs, (step_frame hs).2.trans hS.2⟩

instance (h : Heap) (call : Call) : Decidable (FreesLive h call) :=
  match call with
  | .allocate _ => .isTrue trivial
  | .free location size => inferInstanceAs (Decidable ((⟨location, size⟩ : Block) ∈ h.live))

instance (h : Heap) (call : Call) : Decidable (FreesNonZero h call) :=
  match call with
  | .allocate _ => .isTrue trivial
  | .free _ size => inferInstanceAs (Decidable (size ≠ 0))

/-- A machine with 32 chunks, three of them the kernel's: two blocks are taken, the
first is freed, and a third is taken. -/
theorem allocator_ownership_small :
    ∃ a, memoryInit (boot 1) 131072 8192 = some (0, a) ∧
      AllStates step (BlocksOwned 8192) ⟨a, []⟩
        [.allocate 5000, .allocate 0, .free 12288 5000, .allocate 9000] := by
  let a : Allocator := ((memoryInit (boot 1) 131072 8192).getD (0, boot 1)).2
  have ha : memoryInit (boot 1) 131072 8192 = some (0, a) := by rfl
  exact ⟨a, ha, (allocator_ownership 1 131072 8192 a ha _ (by decide +kernel)).1⟩

/-! ## 2. Blocks in RAM -/

/-- The invariant of the runs on the real `memory_map`: unless the kernel fills all of
RAM, the bits behind `max_chunk` are clear. -/
structure Confined (memoryKernel : Nat) (h : Heap) : Prop extends Sound memoryKernel h where
  length_eq : h.alloc.map.length = mapWords
  behind : memoryKernel / chunkSize < h.alloc.maxChunk →
    ∀ c, h.alloc.maxChunk ≤ c → Free h.alloc.map c

theorem Confined.maxChunk_le_bits {kernel : Nat} {h : Heap} (hC : Confined kernel h) :
    h.alloc.maxChunk ≤ Bitmap.bits h.alloc.map := by
  rw [Bitmap.bits, hC.length_eq, bits_mapWords]
  exact hC.maxChunk_le

theorem confined_initialised {total kernel : Nat} {a : Allocator}
    (hI : Initialised mapWords total kernel a) : Confined kernel ⟨a, []⟩ where
  toSound := sound_initialised hI
  length_eq := hI.length_eq
  behind := by
    intro hkernel c hc hu
    have hlt := (hI.used_iff c).mp hu
    have hc' : a.maxChunk ≤ c := hc
    have hkernel' : kernel / chunkSize < a.maxChunk := hkernel
    omega

/-- A kernel that fills RAM leaves no start with a free chunk. -/
theorem not_free_of_kernel {kernel : Nat} {h : Heap} (hS : Sound kernel h)
    (hkernel : h.alloc.maxChunk ≤ kernel / chunkSize) {i : Nat} (hi : i < h.alloc.maxChunk) :
    ¬ Free h.alloc.map i := by
  intro hfree
  exact hfree (hS.owned.reserved_marked (show i < kernel / chunkSize + 1 by omega))

/-- Under the condition an allocation stays in RAM. -/
theorem inRam_of_endRunLater {kernel : Nat} {h : Heap} {size : UInt32} (hC : Confined kernel h)
    (hlater : EndRunLater h (.allocate size)) : InRam h (.allocate size) := by
  rcases exists_firstFreeRun h.alloc (chunksFor size) with hnone | ⟨i, hi⟩
  · exact ⟨none, h.alloc, memoryAllocate_none hnone, fun addr hr => by cases hr⟩
  · have hfit : i + chunksFor size ≤ h.alloc.maxChunk := by
      by_contra hout
      obtain ⟨hfree, before, after, horder, hbefore⟩ := hi
      obtain ⟨k, hk, _, hfreek⟩ := hlater before i after horder (not_le.mp hout)
        fun c hc hc' => hfree c hc (by omega)
      exact hbefore k hk hfreek
    obtain ⟨map, hmap, _⟩ := memoryAllocate_some hi (hfit.trans hC.maxChunk_le_bits)
    refine ⟨_, _, hmap, fun addr hr c hc => ?_⟩
    cases hr
    exact lt_of_lt_of_le (mem_chunks.mp hc).2 hfit

/-- Of two places in one list, the first that satisfies a property that holds at the
other is the other, or comes before it. -/
theorem mem_or_eq_of_append {before after before' after' : List Nat} {i j : Nat}
    (h : before ++ i :: after = before' ++ j :: after') (hi : i ∉ before') :
    j ∈ before ∨ j = i := by
  rcases List.append_eq_append_iff.mp h with ⟨l, hl, htail⟩ | ⟨l, hl, htail⟩
  · cases l with
    | nil => exact .inr (List.cons.inj htail).1.symm
    | cons x l =>
      refine absurd ?_ hi
      rw [hl, (List.cons.inj htail).1]
      simp
  · cases l with
    | nil => exact .inr (List.cons.inj htail).1
    | cons x l =>
      left
      rw [hl, (List.cons.inj htail).1]
      simp

/-- An allocation that stays in RAM has room there for the run it takes. -/
theorem fits_of_inRam {h : Heap} {size : UInt32} {i : Nat} (hram : InRam h (.allocate size))
    (hi : FirstFreeRun h.alloc (chunksFor size) i) : i + chunksFor size ≤ h.alloc.maxChunk := by
  obtain ⟨r, a, halloc, hbelow⟩ := hram
  obtain ⟨_, rfl, _⟩ := memoryAllocate_first halloc hi
  have hpos := chunksFor_pos size
  have hlast := hbelow _ rfl (i + chunksFor size - 1) (mem_chunks.mpr (by omega))
  omega

/-- The condition is needed: a short run at the end that comes first is taken, or
followed out of the map. -/
theorem endRunLater_of_inRam {kernel : Nat} {h : Heap} {size : UInt32} (hC : Confined kernel h)
    (hram : InRam h (.allocate size)) : EndRunLater h (.allocate size) := by
  intro before i after horder hover hend
  have hi : i < h.alloc.maxChunk := by
    rw [← mem_searchOrder hC.previousBlock_le, horder]
    simp
  have hkernel : kernel / chunkSize < h.alloc.maxChunk := by
    by_contra hfull
    exact not_free_of_kernel hC.toSound (not_lt.mp hfull) hi (hend i (le_refl i) (by omega))
  have hfree : FreeRun h.alloc.map (chunksFor size) i := by
    intro c hc _
    rcases Nat.lt_or_ge c h.alloc.maxChunk with hc' | hc'
    · exact hend c hc (by omega)
    · exact hC.behind hkernel c hc'
  rcases exists_firstFreeRun h.alloc (chunksFor size) with hnone | ⟨j, hj⟩
  · exact absurd hfree (hnone i (by rw [horder]; simp))
  · have hfit := fits_of_inRam hram hj
    obtain ⟨hfreej, before', after', horder', hbefore'⟩ := hj
    rcases mem_or_eq_of_append (horder.symm.trans horder') fun hmem => hbefore' i hmem hfree with
      hmem | rfl
    · exact ⟨j, hmem, hfit, hfreej⟩
    · omega

theorem inRam_iff_endRunLater {kernel : Nat} {h : Heap} (hC : Confined kernel h) (call : Call) :
    EndRunLater h call ↔ InRam h call := by
  cases call with
  | allocate size => exact ⟨inRam_of_endRunLater hC, endRunLater_of_inRam hC⟩
  | free location size => exact Iff.rfl

theorem confined_step {kernel : Nat} {h h' : Heap} {call : Call} (hC : Confined kernel h)
    (hlive : FreesLive h call) (hram : InRam h call) (hs : step h call = some h') :
    Confined kernel h' := by
  obtain ⟨hmax, hlen⟩ := step_frame hs
  have hne : FreesNonZero h call := by
    cases call with
    | allocate size => trivial
    | free location size =>
      -- a size of 0 counts as 2^20 chunks, which no map of 1 GB has
      rintro rfl
      obtain ⟨_, _, _, _, hin, _⟩ := step_free hs
      rw [Bitmap.bits, hC.length_eq] at hin
      exact absurd ((Nat.le_add_left _ _).trans hin) (by decide)
  refine ⟨sound_step hC.toSound hlive hne hs, hlen.trans hC.length_eq, fun hkernel c hc hu => ?_⟩
  rw [hmax] at hkernel hc
  have hfree := hC.behind hkernel c hc
  cases call with
  | allocate size =>
    rcases step_allocate hs with rfl | ⟨i, hi, _, _, _, _, hused⟩
    · exact hfree hu
    · rcases (hused c).mp hu with hold | hnew
      · exact hfree hold
      · have hlt := lt_of_lt_of_le (mem_chunks.mp hnew).2 (fits_of_inRam hram hi)
        exact absurd hlt (not_lt.mpr hc)
  | free location size =>
    obtain ⟨_, _, _, _, _, hused⟩ := step_free hs
    exact hfree ((hused c).mp hu).1

/-- The allocator stays inside RAM: `memory_init` and all allocations of the run stay
inside `memory_map`, and the blocks below `max_chunk`, exactly if the kernel ends below
1 GB and no allocation tries a short run at the end of memory first. -/
theorem blocks_stay_in_ram (memoryTotal memoryKernel : Nat) (htotal : memoryTotal ≤ maxMemory)
    (calls : List Call)
    (hfree : ∀ a, memoryInit (boot mapWords) memoryTotal memoryKernel = some (0, a) →
      AllSteps step FreesLive ⟨a, []⟩ calls) :
    (∃ a, memoryInit (boot mapWords) memoryTotal memoryKernel = some (0, a) ∧
        AllSteps step InRam ⟨a, []⟩ calls) ↔
      memoryKernel < maxMemory ∧
        ∀ a, memoryInit (boot mapWords) memoryTotal memoryKernel = some (0, a) →
          AllSteps step EndRunLater ⟨a, []⟩ calls := by
  have hiff : ∀ a, memoryInit (boot mapWords) memoryTotal memoryKernel = some (0, a) →
      (AllSteps step EndRunLater ⟨a, []⟩ calls ↔ AllSteps step InRam ⟨a, []⟩ calls) := by
    intro a ha
    refine AllSteps.iff_within (I := Confined memoryKernel) ?_ ?_
      (confined_initialised (initialised_of_memoryInit ha)) (hfree a ha)
    · intro h call hC _
      exact inRam_iff_endRunLater hC call
    · intro h call h' hC hlive hlater hs
      exact confined_step hC hlive ((inRam_iff_endRunLater hC call).mp hlater) hs
  constructor
  · rintro ⟨a, ha, hram⟩
    refine ⟨(memoryInit_completes htotal).mp ⟨a, ha⟩, fun a' ha' => (hiff a' ha').mpr ?_⟩
    cases ha.symm.trans ha'
    exact hram
  · rintro ⟨hkernel, hlater⟩
    obtain ⟨a, ha⟩ := (memoryInit_completes htotal).mpr hkernel
    exact ⟨a, ha, (hiff a ha).mp (hlater a ha)⟩

/-- A machine with 8 chunks, three of them the kernel's: a block of all others is taken
and freed. -/
theorem blocks_stay_in_ram_small :
    8192 < maxMemory ∧ ∀ a, memoryInit (boot mapWords) 32768 8192 = some (0, a) →
      AllSteps step EndRunLater ⟨a, []⟩ [.allocate 20480, .free 12288 20480] := by
  let a : Allocator := ((memoryInit (boot mapWords) 32768 8192).getD (0, boot 0)).2
  have ha : memoryInit (boot mapWords) 32768 8192 = some (0, a) := by
    obtain ⟨b, hb⟩ := (memoryInit_completes (show 32768 ≤ maxMemory by decide)).mpr
      (show 8192 < maxMemory by decide)
    simp only [a, hb, Option.getD_some]
  have hrun : (memoryAllocate a 20480).map Prod.fst = some (some (3 * chunkSize)) := by
    decide +kernel
  obtain ⟨⟨r, a'⟩, halloc, hr⟩ := Option.map_eq_some_iff.mp hrun
  refine (blocks_stay_in_ram 32768 8192 (by decide) _ fun b hb => ?_).mp ⟨a, ha, ?_⟩
  · cases ha.symm.trans hb
    decide +kernel
  · refine allSteps_cons.mpr ⟨⟨r, a', halloc, fun addr haddr c hc => ?_⟩,
      fun _ _ => allSteps_cons.mpr ⟨trivial, fun _ _ => trivial⟩⟩
    cases hr.symm.trans haddr
    have hmax : a.maxChunk = 8 := (initialised_of_memoryInit ha).maxChunk_eq
    exact lt_of_lt_of_eq (mem_chunks.mp hc).2 hmax.symm

/-! ## 3. An allocation that leaves RAM -/

/-- A machine with 1 MB, 17 chunks of it the kernel's, is asked for 1 MB: the block it
gives starts at chunk 17 of 256 and has 256 chunks. -/
theorem allocate_leaves_ram :
    ¬ ∃ a, memoryInit (boot mapWords) 1048576 65536 = some (0, a) ∧
      AllSteps step InRam ⟨a, []⟩ [.allocate 1048576] := by
  rintro ⟨a, ha, hram⟩
  obtain ⟨⟨r, a', halloc, hbelow⟩, _⟩ := allSteps_cons.mp hram
  have hrun : ((memoryInit (boot mapWords) 1048576 65536).bind fun s =>
      (memoryAllocate s.2 1048576).map Prod.fst) = some (some (17 * chunkSize)) := by
    decide +kernel
  rw [ha, Option.bind_some, show memoryAllocate a 1048576 = some (r, a') from halloc] at hrun
  cases hrun
  have hmax : a.maxChunk = 256 := (initialised_of_memoryInit ha).maxChunk_eq
  have hlast : 272 < a.maxChunk := hbelow _ rfl 272 (mem_chunks.mpr (by decide))
  omega

end Vmwos.Memory
