import Mathlib.Data.List.Range
import Vmwos.Bitmap

/-!
# The memory allocator of `memory.c`

Memory is handed out in chunks of 4096 bytes, tracked in the bitmap `memory_map` of
32-bit words. `find_free` searches for a run of free chunks from where it left off
(`previous_block`) to `max_chunk`, then from 0 to where it left off.

A function that touches an element outside `memory_map` does not complete (`none`).
The length of `memory_map` is that of the list, so that it can also be taken longer
than the source has it. The poisoning of freed memory is left out: the allocator
keeps nothing in the memory it hands out.

`findFree_eq` says what the search finds, `memoryAllocate_some` what an allocation
does, `memoryFree_some` what a free does.
-/

namespace Vmwos.Memory

/-! ## Definitions -/

/-- `CHUNK_SIZE`. -/
def chunkSize : Nat := 4096
/-- `MAX_MEMORY`. -/
def maxMemory : Nat := 1024 * 1024 * 1024
/-- The length of `memory_map`. -/
def mapWords : Nat := maxMemory / chunkSize / 32

/-- The statics of `memory.c`. -/
structure Allocator where
  map : List (BitVec 32)
  maxChunk : Nat
  previousBlock : Nat

/-- The statics at boot, for a `memory_map` of the given length. -/
def boot (words : Nat) : Allocator := ⟨List.replicate words 0, 0, 0⟩

/-- `memory_mark_used`. -/
def memoryMarkUsed (map : List (BitVec 32)) (chunk : Nat) : Option (List (BitVec 32)) :=
  Bitmap.mark map chunk

/-- `memory_mark_free`. -/
def memoryMarkFree (map : List (BitVec 32)) (chunk : Nat) : Option (List (BitVec 32)) :=
  Bitmap.clear map chunk

/-- `memory_test_used`. -/
def memoryTestUsed (map : List (BitVec 32)) (chunk : Nat) : Option Bool :=
  Bitmap.test map chunk

/-- `for(;i<..;i++) memory_map[i]=0`, with the number of turns left. -/
def clearWords (map : List (BitVec 32)) (i : Nat) : Nat → Option (List (BitVec 32))
  | 0 => some map
  | n + 1 => if i < map.length then clearWords (map.set i 0) (i + 1) n else none

/-- `memory_init`, with its return value. -/
def memoryInit (a : Allocator) (memoryTotal memoryKernel : Nat) : Option (Int × Allocator) :=
  if memoryTotal > maxMemory then some (-1, a)
  else do
    let maxChunk := memoryTotal / chunkSize
    let map ← clearWords a.map 0 (maxChunk / 32)
    let map ← Bitmap.each memoryMarkUsed map 0 (memoryKernel / chunkSize + 1)
    some (0, { a with map := map, maxChunk := maxChunk })

/-- The inner loop of `find_free`: it stops at the first used chunk `i + j`, or after
the turns left, and gives `j`. -/
def checkRun (map : List (BitVec 32)) (i : Nat) : Nat → Nat → Option Nat
  | 0, j => some j
  | turns + 1, j =>
    (memoryTestUsed map (i + j)).bind fun used =>
      if used then some j else checkRun map i turns (j + 1)

/-- One turn of the outer loops of `find_free`: whether it returns `i`. -/
def tryStart (map : List (BitVec 32)) (numChunks i : Nat) : Option Bool :=
  (memoryTestUsed map i).bind fun used =>
    if used then some false else (checkRun map i numChunks 0).map fun j => j = numChunks

/-- An outer loop of `find_free` over the given starts. -/
def search (map : List (BitVec 32)) (numChunks : Nat) : List Nat → Option (Option Nat)
  | [] => some none
  | i :: is =>
    (tryStart map numChunks i).bind fun found =>
      if found then some (some i) else search map numChunks is

/-- `find_free`. The result `none` inside is -1. -/
def findFree (a : Allocator) (numChunks : Nat) : Option (Option Nat × Allocator) :=
  (search a.map numChunks (List.range' a.previousBlock (a.maxChunk - a.previousBlock))).bind fun
    | some i => some (some i, { a with previousBlock := i + 1 })
    | none =>
      (search a.map numChunks (List.range a.previousBlock)).bind fun
        | some i => some (some i, { a with previousBlock := i + 1 })
        | none => some (none, a)

/-- `((size-1)/CHUNK_SIZE)+1` in 32-bit arithmetic. -/
def numChunks (size : UInt32) : Nat := ((size - 1) / 4096 + 1).toNat

/-- The number of chunks `memory_allocate` takes: a size of 0 counts as 1. -/
def chunksFor (size : UInt32) : Nat := numChunks (if size = 0 then 1 else size)

/-- `memory_allocate`. The result `none` inside is `NULL`. -/
def memoryAllocate (a : Allocator) (size : UInt32) : Option (Option Nat × Allocator) :=
  (findFree a (chunksFor size)).bind fun
    | (none, a) => some (none, a)
    | (some firstChunk, a) =>
      (Bitmap.each memoryMarkUsed a.map firstChunk (chunksFor size)).map fun map =>
        (some (firstChunk * chunkSize), { a with map := map })

/-- `memory_free`. A location with the top bit set gives a negative chunk. -/
def memoryFree (a : Allocator) (location : Nat) (size : UInt32) : Option Allocator :=
  if location < 2 ^ 31 then
    (Bitmap.each memoryMarkFree a.map (location / chunkSize) (numChunks size)).map fun map =>
      { a with map := map }
  else none

/-! ## The search -/

variable {map : List (BitVec 32)}

/-- The chunk is free in `memory_map`, or lies outside it. -/
def Free (map : List (BitVec 32)) (c : Nat) : Prop := ¬ Bitmap.used map c

/-- The chunks `i`, ..., `i + n - 1` are free. -/
def FreeRun (map : List (BitVec 32)) (n i : Nat) : Prop := ∀ c, i ≤ c → c < i + n → Free map c

/-- Inside the map the test tells used from free. -/
theorem memoryTestUsed_free {c : Nat} (hc : c < Bitmap.bits map) (h : Free map c) :
    memoryTestUsed map c = some false := by
  obtain ⟨b, hb, hiff⟩ := Bitmap.test_spec (by decide) hc
  rw [memoryTestUsed, hb, Bool.eq_false_iff.mpr fun ht => h (hiff.mp ht)]

theorem memoryTestUsed_used {c : Nat} (h : Bitmap.used map c) :
    memoryTestUsed map c = some true := by
  obtain ⟨b, hb, hiff⟩ := Bitmap.test_spec (by decide) (Bitmap.used_lt (by decide) h)
  rw [memoryTestUsed, hb, hiff.mpr h]

/-- The inner loop over free chunks goes on to its end, or out of the map. -/
theorem checkRun_free {i turns j : Nat} (h : ∀ c, i + j ≤ c → c < i + j + turns → Free map c) :
    (i + j + turns ≤ Bitmap.bits map → checkRun map i turns j = some (j + turns)) ∧
      (0 < turns → Bitmap.bits map < i + j + turns → checkRun map i turns j = none) := by
  induction turns generalizing j with
  | zero => exact ⟨fun _ => rfl, fun h => absurd h (Nat.lt_irrefl 0)⟩
  | succ turns ih =>
    obtain ⟨hin, hout⟩ := ih (j := j + 1) fun c hc hc' => h c (by omega) (by omega)
    have hfree : Free map (i + j) := h (i + j) (le_refl _) (by omega)
    constructor
    · intro hle
      rw [checkRun, memoryTestUsed_free (by omega) hfree, Option.bind_some, if_neg (by decide),
        hin (by omega)]
      congr 1
      omega
    · intro _ hlt
      rcases Nat.lt_or_ge (i + j) (Bitmap.bits map) with hij | hij
      · rw [checkRun, memoryTestUsed_free hij hfree, Option.bind_some, if_neg (by decide)]
        exact hout (by omega) (by omega)
      · rw [checkRun, memoryTestUsed, Bitmap.test_none (by decide) hij, Option.bind_none]

/-- The inner loop stops early at a used chunk. -/
theorem checkRun_used {i turns j c : Nat} (hc : i + j ≤ c) (hc' : c < i + j + turns)
    (h : Bitmap.used map c) : ∃ k < j + turns, checkRun map i turns j = some k := by
  induction turns generalizing j with
  | zero => omega
  | succ turns ih =>
    by_cases hu : Bitmap.used map (i + j)
    · exact ⟨j, by omega, by rw [checkRun, memoryTestUsed_used hu, Option.bind_some, if_pos rfl]⟩
    · have hne : c ≠ i + j := fun he => hu (he ▸ h)
      have hlt : i + j < Bitmap.bits map :=
        lt_of_le_of_lt hc (Bitmap.used_lt (by decide) h)
      obtain ⟨k, hk, hcheck⟩ := ih (j := j + 1) (by omega) (by omega)
      refine ⟨k, by omega, ?_⟩
      rw [checkRun, memoryTestUsed_free hlt hu, Option.bind_some, if_neg (by decide), hcheck]

/-! ### One start

A start is passed over exactly if the run of chunks from it has a used one. Otherwise
it is taken, unless the run leaves the map. -/

variable {n i : Nat}

theorem tryStart_used {c : Nat} (hc : i ≤ c) (hc' : c < i + n) (h : Bitmap.used map c) :
    tryStart map n i = some false := by
  by_cases hu : Bitmap.used map i
  · rw [tryStart, memoryTestUsed_used hu, Option.bind_some, if_pos rfl]
  · have hlt : i < Bitmap.bits map := lt_of_le_of_lt hc (Bitmap.used_lt (by decide) h)
    obtain ⟨k, hk, hcheck⟩ := checkRun_used (j := 0) hc hc' h
    rw [tryStart, memoryTestUsed_free hlt hu, Option.bind_some, if_neg (by decide), hcheck,
      Option.map_some]
    congr 1
    exact decide_eq_false (by omega)

theorem tryStart_free (hn : 0 < n) (h : FreeRun map n i) (hin : i + n ≤ Bitmap.bits map) :
    tryStart map n i = some true := by
  have hfree : Free map i := h i (le_refl i) (by omega)
  rw [tryStart, memoryTestUsed_free (by omega) hfree, Option.bind_some, if_neg (by decide),
    (checkRun_free (j := 0) h).1 hin, Option.map_some]
  congr 1
  exact decide_eq_true (by omega)

theorem tryStart_none (hn : 0 < n) (h : FreeRun map n i) (hout : Bitmap.bits map < i + n) :
    tryStart map n i = none := by
  rcases Nat.lt_or_ge i (Bitmap.bits map) with hi | hi
  · have hfree : Free map i := h i (le_refl i) (by omega)
    rw [tryStart, memoryTestUsed_free hi hfree, Option.bind_some, if_neg (by decide),
      (checkRun_free (j := 0) h).2 hn hout, Option.map_none]
  · rw [tryStart, memoryTestUsed, Bitmap.test_none (by decide) hi, Option.bind_none]

theorem tryStart_eq_false_iff (hn : 0 < n) : tryStart map n i = some false ↔ ¬ FreeRun map n i := by
  constructor
  · intro h hfree
    rcases Nat.lt_or_ge (Bitmap.bits map) (i + n) with hout | hin
    · cases h.symm.trans (tryStart_none hn hfree hout)
    · cases h.symm.trans (tryStart_free hn hfree hin)
  · intro h
    simp only [FreeRun, Free, not_forall, not_not] at h
    obtain ⟨c, hc, hc', hu⟩ := h
    exact tryStart_used hc hc' hu

/-! ### The search order -/

/-- The starts in the order in which `find_free` tries them. -/
def searchOrder (a : Allocator) : List Nat :=
  List.range' a.previousBlock (a.maxChunk - a.previousBlock) ++ List.range a.previousBlock

/-- `i` is the first start in the search order with `n` free chunks. -/
def FirstFreeRun (a : Allocator) (n i : Nat) : Prop :=
  FreeRun a.map n i ∧
    ∃ before after, searchOrder a = before ++ i :: after ∧ ∀ k ∈ before, ¬ FreeRun a.map n k

theorem search_append (l₁ l₂ : List Nat) :
    search map n (l₁ ++ l₂) = (search map n l₁).bind fun
      | some i => some (some i)
      | none => search map n l₂ := by
  induction l₁ with
  | nil => rfl
  | cons i l₁ ih =>
    rw [List.cons_append, search, search]
    cases tryStart map n i with
    | none => rfl
    | some found =>
      cases found with
      | true => rfl
      | false => exact ih

/-- The two loops of `find_free` are one search. -/
theorem findFree_eq (a : Allocator) (n : Nat) :
    findFree a n = (search a.map n (searchOrder a)).map fun
      | some i => (some i, { a with previousBlock := i + 1 })
      | none => (none, a) := by
  rw [searchOrder, search_append, findFree]
  cases search a.map n (List.range' a.previousBlock (a.maxChunk - a.previousBlock)) with
  | none => rfl
  | some r =>
    cases r with
    | some i => rfl
    | none =>
      cases search a.map n (List.range a.previousBlock) with
      | none => rfl
      | some r => cases r <;> rfl

theorem search_skip (hn : 0 < n) {before : List Nat} (h : ∀ k ∈ before, ¬ FreeRun map n k)
    (l : List Nat) : search map n (before ++ l) = search map n l := by
  induction before with
  | nil => rfl
  | cons k before ih =>
    rw [List.cons_append, search, (tryStart_eq_false_iff hn).mpr (h k (by simp)),
      Option.bind_some, if_neg (by decide)]
    exact ih fun k hk => h k (by simp [hk])

theorem findFree_none {a : Allocator} (hn : 0 < n)
    (h : ∀ i ∈ searchOrder a, ¬ FreeRun a.map n i) : findFree a n = some (none, a) := by
  rw [findFree_eq, ← List.append_nil (searchOrder a), search_skip hn h]
  rfl

theorem findFree_first {a : Allocator} (hn : 0 < n) (h : FirstFreeRun a n i) :
    findFree a n = if i + n ≤ Bitmap.bits a.map
      then some (some i, { a with previousBlock := i + 1 }) else none := by
  obtain ⟨hfree, before, after, horder, hbefore⟩ := h
  rw [findFree_eq, horder, search_skip hn hbefore, search]
  split
  · next hin =>
    rw [tryStart_free hn hfree hin]
    rfl
  · next hout =>
    rw [tryStart_none hn hfree (not_le.mp hout)]
    rfl

/-- Either the search finds no free run, or there is a first one. -/
theorem exists_firstFreeRun (a : Allocator) (n : Nat) :
    (∀ i ∈ searchOrder a, ¬ FreeRun a.map n i) ∨ ∃ i, FirstFreeRun a n i := by
  classical
  cases hfind : (searchOrder a).find? (fun i => FreeRun a.map n i) with
  | none => exact .inl fun i hi => by simpa using List.find?_eq_none.mp hfind i hi
  | some i =>
    obtain ⟨hfree, before, after, horder, hbefore⟩ := List.find?_eq_some_iff_append.mp hfind
    exact .inr ⟨i, by simpa using hfree, before, after, horder,
      fun k hk => by simpa using hbefore k hk⟩

theorem mem_searchOrder {a : Allocator} (hprev : a.previousBlock ≤ a.maxChunk) :
    i ∈ searchOrder a ↔ i < a.maxChunk := by
  simp only [searchOrder, List.mem_append, List.mem_range'_1, List.mem_range]
  omega

theorem FirstFreeRun.lt {a : Allocator} (hprev : a.previousBlock ≤ a.maxChunk)
    (h : FirstFreeRun a n i) : i < a.maxChunk := by
  obtain ⟨_, before, after, horder, _⟩ := h
  rw [← mem_searchOrder hprev, horder]
  simp

/-! ## Allocation and release -/

theorem numChunks_pos (size : UInt32) : 0 < numChunks size := by
  have h := (size - 1).toNat_lt
  rw [numChunks, UInt32.toNat_add, UInt32.toNat_div]
  simp only [UInt32.reduceToNat]
  omega

theorem numChunks_le (size : UInt32) : numChunks size ≤ 2 ^ 20 := by
  have h := (size - 1).toNat_lt
  rw [numChunks, UInt32.toNat_add, UInt32.toNat_div]
  simp only [UInt32.reduceToNat]
  omega

theorem chunksFor_pos (size : UInt32) : 0 < chunksFor size := numChunks_pos _

/-- An allocation that finds no free run changes nothing. -/
theorem memoryAllocate_none {a : Allocator} {size : UInt32}
    (h : ∀ i ∈ searchOrder a, ¬ FreeRun a.map (chunksFor size) i) :
    memoryAllocate a size = some (none, a) := by
  rw [memoryAllocate, findFree_none (chunksFor_pos size) h]
  rfl

/-- An allocation takes the first free run, if it lies inside the map. -/
theorem memoryAllocate_some {a : Allocator} {size : UInt32}
    (h : FirstFreeRun a (chunksFor size) i) (hin : i + chunksFor size ≤ Bitmap.bits a.map) :
    ∃ map', memoryAllocate a size = some (some (i * chunkSize),
        { a with map := map', previousBlock := i + 1 }) ∧
      map'.length = a.map.length ∧
      ∀ c, Bitmap.used map' c ↔ Bitmap.used a.map c ∨ (i ≤ c ∧ c < i + chunksFor size) := by
  obtain ⟨map', hmark, hlen, hused⟩ := Bitmap.each_mark (by decide) hin
  refine ⟨map', ?_, hlen, hused⟩
  rw [memoryAllocate, findFree_first (chunksFor_pos size) h, if_pos hin, Option.bind_some]
  show (Bitmap.each Bitmap.mark a.map i (chunksFor size)).map _ = _
  rw [hmark]
  rfl

theorem memoryAllocate_faults {a : Allocator} {size : UInt32}
    (h : FirstFreeRun a (chunksFor size) i) (hout : Bitmap.bits a.map < i + chunksFor size) :
    memoryAllocate a size = none := by
  rw [memoryAllocate, findFree_first (chunksFor_pos size) h, if_neg (not_le.mpr hout)]
  rfl

/-- The allocator has taken the run of `n` chunks at `i`. -/
structure Taken (a : Allocator) (n i : Nat) (a' : Allocator) : Prop where
  previousBlock_eq : a'.previousBlock = i + 1
  maxChunk_eq : a'.maxChunk = a.maxChunk
  length_eq : a'.map.length = a.map.length
  used_iff : ∀ c, Bitmap.used a'.map c ↔ Bitmap.used a.map c ∨ (i ≤ c ∧ c < i + n)

/-- An allocation that completes takes the first free run, if there is one. -/
theorem memoryAllocate_first {a a' : Allocator} {size : UInt32} {r : Option Nat}
    (h : memoryAllocate a size = some (r, a')) (hi : FirstFreeRun a (chunksFor size) i) :
    i + chunksFor size ≤ Bitmap.bits a.map ∧ r = some (i * chunkSize) ∧
      Taken a (chunksFor size) i a' := by
  rcases Nat.lt_or_ge (Bitmap.bits a.map) (i + chunksFor size) with hout | hin
  · cases h.symm.trans (memoryAllocate_faults hi hout)
  · obtain ⟨map, hmap, hlen, hused⟩ := memoryAllocate_some hi hin
    cases h.symm.trans hmap
    exact ⟨hin, rfl, rfl, rfl, hlen, hused⟩

/-- What an allocation that completes has done: nothing, or it has taken the first free run. -/
theorem memoryAllocate_cases {a a' : Allocator} {size : UInt32} {r : Option Nat}
    (h : memoryAllocate a size = some (r, a')) :
    (r = none ∧ a' = a ∧ ∀ i ∈ searchOrder a, ¬ FreeRun a.map (chunksFor size) i) ∨
      ∃ i, FirstFreeRun a (chunksFor size) i ∧ i + chunksFor size ≤ Bitmap.bits a.map ∧
        r = some (i * chunkSize) ∧ Taken a (chunksFor size) i a' := by
  rcases exists_firstFreeRun a (chunksFor size) with hnone | ⟨i, hi⟩
  · cases h.symm.trans (memoryAllocate_none hnone)
    exact .inl ⟨rfl, rfl, hnone⟩
  · exact .inr ⟨i, hi, memoryAllocate_first h hi⟩

/-- A free inside the map frees the chunks. -/
theorem memoryFree_some {a : Allocator} {location : Nat} {size : UInt32}
    (hloc : location < 2 ^ 31)
    (hin : location / chunkSize + numChunks size ≤ Bitmap.bits a.map) :
    ∃ map', memoryFree a location size = some { a with map := map' } ∧
      map'.length = a.map.length ∧
      ∀ c, Bitmap.used map' c ↔ Bitmap.used a.map c ∧
        ¬ (location / chunkSize ≤ c ∧ c < location / chunkSize + numChunks size) := by
  obtain ⟨map', hclear, hlen, hused⟩ := Bitmap.each_clear (by decide) hin
  refine ⟨map', ?_, hlen, hused⟩
  rw [memoryFree, if_pos hloc]
  show (Bitmap.each Bitmap.clear a.map _ _).map _ = _
  rw [hclear]
  rfl

theorem memoryFree_faults {a : Allocator} {location : Nat} {size : UInt32}
    (hout : Bitmap.bits a.map < location / chunkSize + numChunks size) :
    memoryFree a location size = none := by
  have hnone : Bitmap.each memoryMarkFree a.map (location / chunkSize) (numChunks size) = none :=
    Bitmap.each_none (Bitmap.clear_some (by decide)) (numChunks_pos size) hout
  rw [memoryFree, hnone]
  split <;> rfl

/-- What a free that completes does. -/
theorem memoryFree_cases {a a' : Allocator} {location : Nat} {size : UInt32}
    (h : memoryFree a location size = some a') :
    location < 2 ^ 31 ∧ location / chunkSize + numChunks size ≤ Bitmap.bits a.map ∧
      ∃ map', a' = { a with map := map' } ∧ map'.length = a.map.length ∧
        ∀ c, Bitmap.used map' c ↔ Bitmap.used a.map c ∧
          ¬ (location / chunkSize ≤ c ∧ c < location / chunkSize + numChunks size) := by
  rcases Nat.lt_or_ge (Bitmap.bits a.map) (location / chunkSize + numChunks size) with hout | hin
  · cases (memoryFree_faults hout).symm.trans h
  · by_cases hloc : location < 2 ^ 31
    · obtain ⟨map', hfree, hlen, hused⟩ := memoryFree_some hloc hin
      exact ⟨hloc, hin, map', Option.some.inj (h.symm.trans hfree), hlen, hused⟩
    · rw [memoryFree, if_neg hloc] at h
      cases h

end Vmwos.Memory
