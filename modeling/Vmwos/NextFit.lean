import Vmwos.Allocator

/-!
# Searching, taking and giving back

`find_free` keeps `previous_block` from one call to the next and searches around it.
`memory_allocate` and `memory_free` both round a size up to chunks; `memory_allocate` takes a size
of 0 for 1 before, `memory_free` does not, so that the rounding wraps around to 2^20 chunks.

Results:
1. `next_fit_exhaustive`: every search of a sequence finds the first free run in the cyclic order
   from `previous_block` on, and fails only if there is none.
2. `free_undoes_allocate_iff`: a `memory_free` right after a `memory_allocate` of the same size
   undoes it exactly if the size is not 0.
3. `free_of_empty_block`: a block of size 0.
-/

namespace Vmwos.Memory

open Runs

/-! ## 1. The search -/

/-- A call of `find_free` with the number of chunks, at a time when `memory_map` is `map`. -/
structure Query where
  map : List (BitVec 32)
  numChunks : Nat

/-- The statics of `memory.c` when the call is made. -/
def Query.at (a : Allocator) (q : Query) : Allocator := { a with map := q.map }

/-- A call of `find_free`, after others. -/
def searchStep (a : Allocator) (q : Query) : Option Allocator :=
  (findFree (q.at a) q.numChunks).map Prod.snd

/-- At least one chunk is asked for, and every chunk that is tested has a bit in `memory_map`. -/
def MapLongEnough (a : Allocator) (q : Query) : Prop :=
  1 ≤ q.numChunks ∧ ∀ i < a.maxChunk, i + q.numChunks ≤ Bitmap.bits q.map

/-- The search returns the first free run, and -1 only if there is none below `max_chunk`. -/
def SearchesAll (a : Allocator) (q : Query) : Prop :=
  ∃ r a', findFree (q.at a) q.numChunks = some (r, a') ∧ a'.maxChunk = a.maxChunk ∧
    (∀ i, r = some i ↔ FirstFreeRun (q.at a) q.numChunks i) ∧
    (r = none ↔ ∀ i < a.maxChunk, ¬FreeRun q.map q.numChunks i) ∧
    a'.previousBlock ≤ a'.maxChunk

theorem searchesAll {a : Allocator} {q : Query} (hprev : a.previousBlock ≤ a.maxChunk)
    (hlong : MapLongEnough a q) : SearchesAll a q := by
  obtain ⟨hpos, hin⟩ := hlong
  have hprev' : (q.at a).previousBlock ≤ (q.at a).maxChunk := hprev
  have hin' : ∀ i < (q.at a).maxChunk, i + q.numChunks ≤ Bitmap.bits (q.at a).map := hin
  rcases exists_firstFreeRun (q.at a) q.numChunks with hnone | ⟨i, hi⟩
  · refine ⟨none, q.at a, findFree_none hpos hnone, rfl, fun i => ?_, ?_, hprev⟩
    · refine iff_of_false (by simp) fun hi => ?_
      exact hnone i ((mem_searchOrder hprev').mpr (hi.lt hprev')) hi.1
    · exact iff_of_true rfl fun i hi => hnone i ((mem_searchOrder hprev').mpr hi)
  · have hlt : i < (q.at a).maxChunk := hi.lt hprev'
    have hfind : ∀ {k}, FirstFreeRun (q.at a) q.numChunks k → findFree (q.at a) q.numChunks =
        some (some k, { q.at a with previousBlock := k + 1 }) := by
      intro k hk
      rw [findFree_first hpos hk, if_pos (hin' k (hk.lt hprev'))]
    refine ⟨some i, _, hfind hi, rfl, fun k => ⟨?_, fun hk => ?_⟩, ?_, hlt⟩
    · rintro ⟨⟩
      exact hi
    · exact congrArg Prod.fst (Option.some.inj ((hfind hi).symm.trans (hfind hk)))
    · exact iff_of_false (by simp) fun hnone => hnone i hlt hi.1

/-- Every search of a sequence of calls, whatever happens to `memory_map` between them, is
exhaustive, and `previous_block` stays at most `max_chunk`. -/
theorem next_fit_exhaustive (map : List (BitVec 32)) (maxChunk : Nat) (queries : List Query)
    (hlong : AllSteps searchStep MapLongEnough ⟨map, maxChunk, 0⟩ queries) :
    AllSteps searchStep SearchesAll ⟨map, maxChunk, 0⟩ queries ∧
      AllStates searchStep (fun a => a.previousBlock ≤ a.maxChunk) ⟨map, maxChunk, 0⟩ queries := by
  have hstart : (0 : Nat) ≤ maxChunk := Nat.zero_le _
  have hstep : ∀ a q a', a.previousBlock ≤ a.maxChunk → MapLongEnough a q →
      searchStep a q = some a' → a'.previousBlock ≤ a'.maxChunk := by
    intro a q a' hprev hlong hs
    obtain ⟨r, a₁, hfind, _, _, _, hprev₁⟩ := searchesAll hprev hlong
    rw [searchStep, hfind] at hs
    cases hs
    exact hprev₁
  constructor
  · exact AllSteps.imp_of_inv (I := fun a => a.previousBlock ≤ a.maxChunk)
      (fun a q hprev hlong => ⟨searchesAll hprev hlong, fun a' => hstep a q a' hprev hlong⟩)
      hstart hlong
  · exact AllStates.of_inv hstep (fun _ hprev => hprev) hstart hlong

/-- Eight chunks, of which 1 and 4 are used: a run of two is found at 2, the next one at 5. -/
theorem next_fit_exhaustive_eight :
    AllSteps searchStep SearchesAll ⟨[0], 8, 0⟩ [⟨[18], 2⟩, ⟨[30], 2⟩] :=
  (next_fit_exhaustive [0] 8 [⟨[18], 2⟩, ⟨[30], 2⟩]
    (allSteps_cons.mpr ⟨⟨by decide, by decide⟩, fun a ha => by
      cases ha
      exact allSteps_cons.mpr ⟨⟨by decide, by decide⟩, fun _ _ => trivial⟩⟩)).1

/-! ## 2. Free undoes allocate -/

/-- The chunks that `memory_free` passes to `memory_mark_free`. -/
def freedChunks (location : Nat) (size : UInt32) : List Nat :=
  List.range' (location / chunkSize) (numChunks size)

theorem each_eq_foldlM (access : List (BitVec 32) → Nat → Option (List (BitVec 32)))
    (map : List (BitVec 32)) (i n : Nat) :
    Bitmap.each access map i n = (List.range' i n).foldlM access map := by
  induction n generalizing map i with
  | zero => rfl
  | succ n ih =>
    rw [Bitmap.each, List.range'_succ, List.foldlM_cons]
    exact congrArg _ (funext fun map => ih map (i + 1))

/-- `memory_free` marks exactly these chunks, one after the other. -/
theorem memoryFree_eq_foldlM (a : Allocator) {location : Nat} (size : UInt32)
    (h : location < 2 ^ 31) :
    memoryFree a location size = ((freedChunks location size).foldlM memoryMarkFree a.map).map
      fun map => { a with map := map } := by
  rw [memoryFree, if_pos h, each_eq_foldlM, freedChunks]

/-- The bounds of the search, which every call keeps. -/
structure Bounded (h : Heap) : Prop where
  previousBlock_le : h.alloc.previousBlock ≤ h.alloc.maxChunk
  maxChunk_le : h.alloc.maxChunk ≤ maxMemory / chunkSize

theorem bounded_step {h h' : Heap} {call : Call} (hB : Bounded h) (hs : step h call = some h') :
    Bounded h' := by
  obtain ⟨hmax, _⟩ := step_frame hs
  refine ⟨?_, by rw [hmax]; exact hB.maxChunk_le⟩
  cases call with
  | allocate size =>
    rcases step_allocate hs with rfl | ⟨i, hi, _, hprev, _, _, _⟩
    · exact hB.previousBlock_le
    · rw [hprev, hmax]
      exact hi.lt hB.previousBlock_le
  | free location size =>
    obtain ⟨_, hprev, _, _, _, _⟩ := step_free hs
    rw [hprev, hmax]
    exact hB.previousBlock_le

theorem bounded_run {words memoryTotal memoryKernel : Nat} {a : Allocator} {calls : List Call}
    {h : Heap} (hinit : memoryInit (boot words) memoryTotal memoryKernel = some (0, a))
    (hrun : run step ⟨a, []⟩ calls = some h) : Bounded h := by
  have hS := sound_initialised (initialised_of_memoryInit hinit)
  have hall : AllStates step Bounded ⟨a, []⟩ calls :=
    AllStates.of_inv (C := fun _ _ => True) (fun _ _ _ hB _ hs => bounded_step hB hs)
      (fun _ hB => hB) ⟨hS.previousBlock_le, hS.maxChunk_le⟩ (AllSteps.all fun _ _ => trivial)
  exact hall.last hrun

/-- In every reachable state: a `memory_free` right after a `memory_allocate` restores
`memory_map`, and clears no bit outside the block, exactly if the size is not 0. -/
theorem free_undoes_allocate_iff (words memoryTotal memoryKernel : Nat) (a : Allocator)
    (hinit : memoryInit (boot words) memoryTotal memoryKernel = some (0, a)) (calls : List Call)
    (h : Heap) (hrun : run step ⟨a, []⟩ calls = some h) (size : UInt32) (location : Nat)
    (a' : Allocator) (halloc : memoryAllocate h.alloc size = some (some location, a')) :
    ((∃ a'', memoryFree a' location size = some a'' ∧ a''.map = h.alloc.map) ∧
        ∀ c ∈ freedChunks location size, c ∈ chunks ⟨location, size⟩) ↔ size ≠ 0 := by
  have hB := bounded_run hinit hrun
  obtain ⟨h0, _⟩ | ⟨i, hi, hin, hloc, _, _, hlen, hused⟩ := memoryAllocate_cases halloc
  · cases h0
  cases hloc
  constructor
  · rintro ⟨_, hinside⟩ rfl
    -- the block has one chunk, and 2^20 chunks are freed
    have hsecond : i + 1 ∈ freedChunks (i * chunkSize) 0 := by
      rw [freedChunks, mul_chunkSize_div, List.mem_range'_1]
      exact ⟨Nat.le_succ i, Nat.add_lt_add_left (by decide) i⟩
    have hlt := (mem_chunks.mp (hinside _ hsecond)).2
    rw [show chunksFor 0 = 1 from rfl] at hlt
    exact Nat.lt_irrefl _ hlt
  · intro hne
    have hchunks := chunksFor_of_ne_zero hne
    have hlt : i < maxMemory / chunkSize :=
      Nat.lt_of_lt_of_le (hi.lt hB.previousBlock_le) hB.maxChunk_le
    have hloc : i * chunkSize < 2 ^ 31 := by
      rw [maxMemory, chunkSize] at hlt
      rw [chunkSize]
      omega
    have hin' : i * chunkSize / chunkSize + numChunks size ≤ Bitmap.bits a'.map := by
      rwa [mul_chunkSize_div, Bitmap.bits_congr hlen, ← hchunks]
    obtain ⟨map, hfree, hlen', hused'⟩ := memoryFree_some hloc hin'
    refine ⟨⟨_, hfree, ?_⟩, fun c hc => ?_⟩
    · refine Bitmap.eq_of_used (by decide) (hlen'.trans hlen) fun c => ?_
      have hfreeRun : i ≤ c → c < i + numChunks size → ¬Bitmap.used h.alloc.map c := by
        rw [← hchunks]
        exact hi.1 c
      rw [hused', hused, mul_chunkSize_div, hchunks]
      constructor
      · rintro ⟨hold | hnew, hnot⟩
        · exact hold
        · exact absurd hnew hnot
      · exact fun hold => ⟨.inl hold, fun hnew => hfreeRun hnew.1 hnew.2 hold⟩
    · rw [freedChunks, mul_chunkSize_div, List.mem_range'_1, ← hchunks] at hc
      exact mem_chunks.mpr hc

/-- A machine with 1 MB, 17 chunks of it the kernel's, after `memory_init`. -/
def oneMegabyte : Allocator := ((memoryInit (boot mapWords) 1048576 65536).getD (0, boot 0)).2

theorem memoryInit_oneMegabyte :
    memoryInit (boot mapWords) 1048576 65536 = some (0, oneMegabyte) := by
  obtain ⟨b, hb⟩ := (memoryInit_completes (show 1048576 ≤ maxMemory by decide)).mpr
    (show 65536 < maxMemory by decide)
  rw [oneMegabyte, hb, Option.getD_some]

/-- A block of 5000 bytes is taken and given back. -/
theorem free_undoes_allocate_iff_small :
    ∃ a a', memoryAllocate oneMegabyte 5000 = some (some 69632, a) ∧
      memoryFree a 69632 5000 = some a' ∧ a'.map = oneMegabyte.map := by
  have hrun : (memoryAllocate oneMegabyte 5000).map Prod.fst = some (some 69632) := by
    decide +kernel
  obtain ⟨⟨r, a⟩, halloc, hr⟩ := Option.map_eq_some_iff.mp hrun
  rw [show r = some 69632 from hr] at halloc
  have hback := free_undoes_allocate_iff mapWords 1048576 65536 oneMegabyte
    memoryInit_oneMegabyte [] ⟨oneMegabyte, []⟩ rfl 5000 69632 a
  dsimp only at hback
  obtain ⟨⟨a', hfree, hmap⟩, _⟩ := (hback halloc).mpr (by decide)
  exact ⟨a, a', halloc, hfree, hmap⟩

/-! ## 3. A block of size 0 -/

/-- A block of size 0 has one chunk, number 17, and its release clears chunk 18 as well. -/
theorem free_of_empty_block :
    memoryInit (boot mapWords) 1048576 65536 = some (0, oneMegabyte) ∧
      ∃ a, memoryAllocate oneMegabyte 0 = some (some 69632, a) ∧
        ¬((∃ a', memoryFree a 69632 0 = some a' ∧ a'.map = oneMegabyte.map) ∧
          ∀ c ∈ freedChunks 69632 0, c ∈ chunks ⟨69632, 0⟩) := by
  have hrun : (memoryAllocate oneMegabyte 0).map Prod.fst = some (some 69632) := by
    decide +kernel
  obtain ⟨⟨r, a⟩, halloc, hr⟩ := Option.map_eq_some_iff.mp hrun
  rw [show r = some 69632 from hr] at halloc
  refine ⟨memoryInit_oneMegabyte, a, halloc, fun h => ?_⟩
  have hstart : 69632 / chunkSize = 17 := by decide
  have hsecond : 18 ∈ freedChunks 69632 0 := by
    rw [freedChunks, hstart, List.mem_range'_1]
    decide
  obtain ⟨_, hlt⟩ := h.2 18 hsecond
  rw [hstart, show chunksFor 0 = 1 from rfl] at hlt
  exact absurd hlt (by decide)

end Vmwos.Memory
