import Vmwos.ArgvCopy

/-!
# The argument vector of `execve`

`execve` reserves room at the end of the stack page and lays out there the table of pointers,
two words more than there are strings, and behind it the strings. The size it reserves is
computed from pointer differences and, for the last string, from `strlen(argv[argc])`. But
`argv[argc]` is `NULL`: what is measured is the string at address 0.

Results:
1. `argv_built_iff`: the vector is built inside the stack page, with a `NULL` behind its
   pointers, exactly if the string at address 0 is about as long as the last argument, not too
   long for the stack, and the word that becomes `argv[argc]` was 0 before.
2. `argv_leaves_the_page`: the arguments of `blackjack`, copied beyond the end of the stack.
-/

namespace Vmwos.Exec

open Bytes Romfs Stores
open Memory (maxMemory)
open Processes (userStackSize)

/-! ## Definitions -/

/-- Entry `i` of a table of pointers. -/
def entry (table : UInt32) (i : Nat) : UInt32 := table + 4 * UInt32.ofNat i

/-- `argv` is a table of pointers to the strings, which lie one after the other in a buffer, and
`NULL`. -/
structure ArgvAt (m : Mem) (argv buffer : UInt32) (strs : List (List UInt8)) : Prop where
  ne_nil : strs ≠ []
  nonzero : ∀ s ∈ strs, ∀ c ∈ s, c ≠ 0
  bytes : read m buffer.toNat (joined strs).length = joined strs
  pointer : ∀ i < strs.length,
    (wordAt m (entry argv i)).toNat = buffer.toNat + offset strs i
  null : wordAt m (entry argv strs.length) = 0
  buffer_pos : 0 < buffer.toNat
  table_le : argv.toNat + 4 * (strs.length + 1) ≤ maxMemory
  buffer_le : buffer.toNat + (joined strs).length ≤ maxMemory

/-- The table and the buffer lie outside the stack, which has just been allocated. -/
structure Apart (argv buffer stackPage : UInt32) (strs : List (List UInt8)) : Prop where
  table : ∀ k < 4 * (strs.length + 1), ¬InPage stackPage (argv.toNat + k)
  buffer : ∀ k < (joined strs).length, ¬InPage stackPage (buffer.toNat + k)

/-- The addresses of `n` bytes. -/
def extent (a n : Nat) : Set Nat := { x | a ≤ x ∧ x < a + n }

/-- What `execve` promises a program: the vector lies in the stack, entry `i` points to a copy
of string `i`, the entry behind them is `NULL`, and nothing overlaps. -/
structure ArgvBuilt (strs : List (List UInt8)) (stackPage argvLocation : UInt32) (t : Store) :
    Prop where
  inside : ∀ p ∈ t.log, InPage stackPage p.toNat
  copies : ∀ i (hi : i < strs.length),
    StringAt t.mem (wordAt t.mem (entry argvLocation i)).toNat (strs.get ⟨i, hi⟩)
  null : wordAt t.mem (entry argvLocation strs.length) = 0
  table_apart : ∀ i (hi : i < strs.length),
    Disjoint (extent argvLocation.toNat (4 * (strs.length + 1)))
      (extent (wordAt t.mem (entry argvLocation i)).toNat ((strs.get ⟨i, hi⟩).length + 1))
  strings_apart : ∀ i j (hi : i < strs.length) (hj : j < strs.length), i ≠ j →
    Disjoint
      (extent (wordAt t.mem (entry argvLocation i)).toNat ((strs.get ⟨i, hi⟩).length + 1))
      (extent (wordAt t.mem (entry argvLocation j)).toNat ((strs.get ⟨j, hj⟩).length + 1))

/-- The length that `execve` computes when the string at address 0 has `low` characters. -/
def measured (strs : List (List UInt8)) (low : Nat) : Nat :=
  4 * (strs.length + 1) + offset strs (strs.length - 1) + low + 1

/-! ## Strings of the buffer -/

section Sources

variable {m : Mem} {argv buffer stackPage : UInt32} {strs : List (List UInt8)}

theorem toNat_entry {table : UInt32} {i : Nat} (h : table.toNat + 4 * i < 2 ^ 32) :
    (entry table i).toNat = table.toNat + 4 * i := by
  rw [entry, UInt32.toNat_add, UInt32.toNat_mul, UInt32.toNat_ofNat',
    show (4 : UInt32).toNat = 4 from rfl]
  omega

theorem ArgvAt.stringAt (h : ArgvAt m argv buffer strs) (i : Nat) (hi : i < strs.length) :
    StringAt m (wordAt m (entry argv i)).toNat (strs.get ⟨i, hi⟩) := by
  have hle := offset_add_le strs hi hi
  rw [offset_length] at hle
  rw [h.pointer i hi]
  refine stringAt_of_read (h.nonzero _ (List.get_mem _ _)) ?_
  rw [read_slice (by omega) h.bytes, joined_slice]

/-- The strings of the vector are what the loop copies from. -/
theorem ArgvAt.sources (h : ArgvAt m argv buffer strs) (hapart : Apart argv buffer stackPage strs) :
    Sources m argv stackPage 0 strs := by
  have hmax := maxMemory_eq
  have htable := h.table_le
  have hbuffer := h.buffer_le
  have hentry : ∀ j, argv + 4 * (0 + UInt32.ofNat j) = entry argv j := by
    intro j
    rw [UInt32.zero_add, entry]
  have hnat : ∀ j < strs.length, (entry argv j).toNat = argv.toNat + 4 * j :=
    fun j hj => toNat_entry (by omega)
  have hend : ∀ j (hj : j < strs.length),
      offset strs j + (strs.get ⟨j, hj⟩).length + 1 ≤ (joined strs).length := by
    intro j hj
    rw [← offset_length]
    exact offset_add_le strs hj hj
  constructor
  · intro j hj
    rw [hentry, hnat j hj]
    omega
  · intro j hj k hk
    rw [hentry, hnat j hj, Nat.add_assoc]
    exact hapart.table (4 * j + k) (by omega)
  · intro j hj
    rw [hentry]
    exact h.stringAt j hj
  · intro j hj
    rw [hentry, h.pointer j hj]
    have := hend j hj
    omega
  · intro j hj k hk
    have := hend j hj
    rw [hentry, h.pointer j hj, Nat.add_assoc]
    exact hapart.buffer (offset strs j + k) (by omega)

theorem ArgvAt.countArgs_eq (h : ArgvAt m argv buffer strs) :
    countArgs m argv allOffsets 0 = some (UInt32.ofNat strs.length) := by
  have hmax := maxMemory_eq
  have htable := h.table_le
  suffices hloop : ∀ left i turns, i + left = strs.length → left < turns →
      countArgs m argv turns (UInt32.ofNat i) = some (UInt32.ofNat strs.length) by
    exact hloop strs.length 0 allOffsets (Nat.zero_add _) (by rw [allOffsets]; omega)
  intro left
  induction left with
  | zero =>
    intro i turns hi hturns
    obtain ⟨turns, rfl⟩ := Nat.exists_eq_succ_of_ne_zero (Nat.ne_of_gt hturns)
    rw [Nat.add_zero] at hi
    rw [countArgs, if_neg, hi]
    rw [hi]
    exact not_not.mpr h.null
  | succ left ih =>
    intro i turns hi hturns
    obtain ⟨turns, rfl⟩ := Nat.exists_eq_succ_of_ne_zero (Nat.ne_of_gt (Nat.zero_lt_of_lt hturns))
    have hpos := h.buffer_pos
    have hpointer := h.pointer i (by omega)
    have hne : wordAt m (argv + 4 * UInt32.ofNat i) ≠ 0 := by
      intro hzero
      rw [entry, hzero, show (0 : UInt32).toNat = 0 from rfl] at hpointer
      omega
    rw [countArgs, if_pos hne, ofNat_add_one]
    exact ih (i + 1) turns (by omega) (by omega)

/-- There is a string at address 0: at the latest the first argument ends it. -/
theorem ArgvAt.exists_low (h : ArgvAt m argv buffer strs) : ∃ low, StringAt m 0 low := by
  have hpos : 0 < strs.length := List.length_pos_of_ne_nil h.ne_nil
  refine exists_stringAt (n := (wordAt m (entry argv 0)).toNat + (strs.get ⟨0, hpos⟩).length) ?_
  rw [Nat.zero_add]
  exact (h.stringAt 0 hpos).nul

/-- The string at address 0 ends before the first argument does. -/
theorem ArgvAt.low_lt (h : ArgvAt m argv buffer strs) {low : List UInt8}
    (hlow : StringAt m 0 low) : low.length < maxMemory := by
  have hpos : 0 < strs.length := List.length_pos_of_ne_nil h.ne_nil
  have hle := offset_add_le strs hpos hpos
  rw [offset_length] at hle
  have hend := h.buffer_le
  have hnul := (h.stringAt 0 hpos).nul
  rw [h.pointer 0 hpos] at hnul
  by_contra hge
  have hread := hlow.chars
  have hbyte : low[buffer.toNat + offset strs 0 + (strs.get ⟨0, hpos⟩).length]? = some 0 := by
    rw [← hread, getElem?_read (by omega), Nat.zero_add, hnul]
  exact hlow.nonzero 0 (List.mem_of_getElem? hbyte) rfl

/-- The length is computed as `measured`. -/
theorem ArgvAt.argvLength_eq (h : ArgvAt m argv buffer strs) {low : List UInt8}
    (hlow : StringAt m 0 low) :
    argvLength m argv (UInt32.ofNat strs.length) =
      some (UInt32.ofNat (measured strs low.length)) := by
  have hmax := maxMemory_eq
  have hpos : 0 < strs.length := List.length_pos_of_ne_nil h.ne_nil
  have htable := h.table_le
  have hbuffer := h.buffer_le
  have hlt := h.low_lt hlow
  have hlast : UInt32.ofNat strs.length - 1 = UInt32.ofNat (strs.length - 1) := by
    apply UInt32.toNat_inj.mp
    rw [UInt32.toNat_sub, UInt32.toNat_ofNat', UInt32.toNat_ofNat',
      show (1 : UInt32).toNat = 1 from rfl]
    omega
  have hfirst : (wordAt m argv).toNat = buffer.toNat + offset strs 0 := by
    have hzero : entry argv 0 = argv := UInt32.add_zero argv
    rw [← h.pointer 0 hpos, hzero]
  have hoffset : offset strs 0 = 0 := rfl
  have hend := offset_add_le strs (i := strs.length - 1) (by omega) (j := strs.length) (by omega)
  rw [offset_length] at hend
  have hpointer := h.pointer (strs.length - 1) (by omega)
  have hstrlen : strlen m (wordAt m (entry argv strs.length)) allOffsets 0 =
      some (UInt32.ofNat low.length) := by
    rw [h.null]
    refine strlen_eq hlow ?_
    rw [show (0 : UInt32).toNat = 0 from rfl]
    omega
  rw [entry] at hpointer hstrlen
  rw [argvLength, hstrlen, hlast, Option.map_some]
  congr 1
  apply UInt32.toNat_inj.mp
  rw [UInt32.toNat_add, UInt32.toNat_add, UInt32.toNat_add, UInt32.toNat_sub, UInt32.toNat_mul,
    UInt32.toNat_add, UInt32.toNat_ofNat', UInt32.toNat_ofNat', UInt32.toNat_ofNat', hpointer,
    hfirst, show (1 : UInt32).toNat = 1 from rfl, show (4 : UInt32).toNat = 4 from rfl, measured]
  omega

end Sources

/-! ## Where the vector goes -/

/-- What `execve` reserves: the next multiple of 8. -/
def reserved (strs : List (List UInt8)) (low : Nat) : Nat := 8 * (measured strs low / 8 + 1)

/-- `argv_location`. -/
def location (stackPage : UInt32) (strs : List (List UInt8)) (low : Nat) : UInt32 :=
  stackPage + userStackSize - UInt32.ofNat (reserved strs low)

theorem align_eq {x : UInt32} (h : x.toNat < 2 ^ 31) : align x = (x / 8 + 1) * 8 := by
  have hmsb : x.toBitVec.msb = false := by
    rw [BitVec.msb_eq_false_iff_two_mul_lt]
    have hnat : x.toBitVec.toNat = x.toNat := rfl
    omega
  apply UInt32.toBitVec_inj.mp
  rw [align]
  show (x.toBitVec.sdiv 8#32 + 1#32) * 8#32 = (x.toBitVec / 8#32 + 1#32) * 8#32
  rw [BitVec.sdiv_eq, hmsb]
  rfl

theorem align_ofNat {n : Nat} (h : n < 2 ^ 31 - 8) :
    align (UInt32.ofNat n) = UInt32.ofNat (8 * (n / 8 + 1)) := by
  have hn : (UInt32.ofNat n).toNat = n := UInt32.toNat_ofNat_of_lt' (by
    show n < 4294967296
    omega)
  rw [align_eq (by omega)]
  apply UInt32.toNat_inj.mp
  rw [UInt32.toNat_mul, UInt32.toNat_add, UInt32.toNat_div, hn, UInt32.toNat_ofNat',
    show (8 : UInt32).toNat = 8 from rfl, show (1 : UInt32).toNat = 1 from rfl]
  omega

section Built

variable {m : Mem} {argv buffer stackPage : UInt32} {strs : List (List UInt8)} {low : List UInt8}

/-- The strings go behind the table. -/
def stringsAt (stackArgv : UInt32) (strs : List (List UInt8)) : UInt32 :=
  stackArgv + 4 * (UInt32.ofNat strs.length + 2)

theorem userStackSize_eq : userStackSize.toNat = 8192 := rfl

theorem ArgvAt.measured_lt (h : ArgvAt m argv buffer strs) (hlow : StringAt m 0 low)
    (hneed : 4 * (strs.length + 1) + (joined strs).length < userStackSize.toNat) :
    measured strs low.length < 2 ^ 31 - 8 := by
  have hmax := maxMemory_eq
  have hsize := userStackSize_eq
  have hlt := h.low_lt hlow
  have hjoined := length_joined h.ne_nil
  rw [measured]
  omega

theorem setupArgv_eq (h : ArgvAt m argv buffer strs) (hlow : StringAt m 0 low)
    (hneed : 4 * (strs.length + 1) + (joined strs).length < userStackSize.toNat) :
    setupArgv ⟨m, []⟩ argv stackPage =
      (copyArgs argv (location stackPage strs low.length) strs.length 0
        (stringsAt (location stackPage strs low.length) strs)
        ((⟨m, []⟩ : Store).set (stringsAt (location stackPage strs low.length) strs) 0)).map
          fun t => (UInt32.ofNat strs.length, location stackPage strs low.length, t) := by
  have hmax := maxMemory_eq
  have hsize := userStackSize_eq
  have hmeasured := h.measured_lt hlow hneed
  have hcount : (UInt32.ofNat strs.length).toNat = strs.length := by
    rw [UInt32.toNat_ofNat']
    omega
  simp only [setupArgv, h.countArgs_eq, h.argvLength_eq hlow, align_ofNat hmeasured, hcount,
    Option.bind_eq_bind, Option.bind_some]
  rw [Option.map_eq_bind]
  rfl

/-- The place of the vector in the stack, if it has one there. -/
theorem toNat_location (hpage : stackPage.toNat + userStackSize.toNat ≤ maxMemory)
    (hres : reserved strs low.length ≤ userStackSize.toNat) :
    (location stackPage strs low.length).toNat =
      stackPage.toNat + userStackSize.toNat - reserved strs low.length := by
  have hmax := maxMemory_eq
  rw [location, UInt32.toNat_sub, UInt32.toNat_add, UInt32.toNat_ofNat']
  omega

/-- A vector of more than the stack begins outside it. -/
theorem reserved_le_of_inPage (hpage : stackPage.toNat + userStackSize.toNat ≤ maxMemory)
    (hres : reserved strs low.length ≤ 2 ^ 31)
    (hin : InPage stackPage (location stackPage strs low.length).toNat) :
    reserved strs low.length ≤ userStackSize.toNat := by
  have hmax := maxMemory_eq
  obtain ⟨hle, hlt⟩ := hin
  rw [location, UInt32.toNat_sub, UInt32.toNat_add, UInt32.toNat_ofNat'] at hle hlt
  omega

theorem toNat_stringsAt {stackArgv : UInt32} (h : stackArgv.toNat + 4 * (strs.length + 2) < 2 ^ 32) :
    (stringsAt stackArgv strs).toNat = stackArgv.toNat + 4 * (strs.length + 2) := by
  rw [stringsAt, UInt32.toNat_add, UInt32.toNat_mul, UInt32.toNat_add, UInt32.toNat_ofNat',
    show (4 : UInt32).toNat = 4 from rfl, show (2 : UInt32).toNat = 2 from rfl]
  omega

/-- The copy of the strings to `stackArgv`, as `execve` makes it. -/
def builtAt (m : Mem) (stackArgv : UInt32) (strs : List (List UInt8)) : Store :=
  copyAll stackArgv 0 (stringsAt stackArgv strs) strs
    ((⟨m, []⟩ : Store).set (stringsAt stackArgv strs) 0)

/-- Every write of the copy, at natural addresses. -/
theorem mem_log_builtAt {stackArgv q : UInt32} (hne : strs ≠ [])
    (hend : stackArgv.toNat + 4 * (strs.length + 2) + (joined strs).length ≤ 2 ^ 31) :
    q ∈ (builtAt m stackArgv strs).log ↔
      (∃ k < 4 * strs.length, q.toNat = stackArgv.toNat + k) ∨
        ∃ k < (joined strs).length, q.toNat = stackArgv.toNat + 4 * (strs.length + 2) + k := by
  have hpos : 0 < (joined strs).length := by
    rw [length_joined hne]
    omega
  have hstrings : ∀ k < (joined strs).length, q = stringsAt stackArgv strs + UInt32.ofNat k ↔
      q.toNat = stackArgv.toNat + 4 * (strs.length + 2) + k := by
    intro k hk
    have hbase : (stringsAt stackArgv strs).toNat = stackArgv.toNat + 4 * (strs.length + 2) :=
      toNat_stringsAt (by omega)
    rw [← UInt32.toNat_inj, toNat_add_ofNat (by omega), hbase]
  have hwords : ∀ j < strs.length, ∀ k < 4,
      q = stackArgv + 4 * (0 + UInt32.ofNat j) + UInt32.ofNat k ↔
        q.toNat = stackArgv.toNat + (4 * j + k) := by
    intro j hj k hk
    have hentry : (stackArgv + 4 * (0 + UInt32.ofNat j)).toNat = stackArgv.toNat + 4 * j := by
      rw [UInt32.zero_add]
      exact toNat_entry (by omega)
    rw [← UInt32.toNat_inj, toNat_add_ofNat (by omega), hentry, Nat.add_assoc]
  rw [builtAt, mem_log_copyAll, set_log, List.mem_singleton]
  constructor
  · rintro (rfl | ⟨j, hj, k, hk, hq⟩ | ⟨k, hk, hq⟩)
    · exact .inr ⟨0, hpos, toNat_stringsAt (by omega)⟩
    · exact .inl ⟨4 * j + k, by omega, (hwords j hj k hk).mp hq⟩
    · exact .inr ⟨k, hk, (hstrings k hk).mp hq⟩
  · rintro (⟨k, hk, hq⟩ | ⟨k, hk, hq⟩)
    · refine .inr (.inl ⟨k / 4, by omega, k % 4, by omega, (hwords _ (by omega) _ (by omega)).mpr ?_⟩)
      omega
    · exact .inr (.inr ⟨k, hk, (hstrings k hk).mpr hq⟩)

theorem logged_start (p : UInt32) : Logged m ((⟨m, []⟩ : Store).set p 0) :=
  Logged.set (fun _ hx => absurd rfl hx) p 0

/-- The entry behind the pointers is left as it was. -/
theorem builtAt_null {stackArgv : UInt32} (hne : strs ≠ [])
    (hend : stackArgv.toNat + 4 * (strs.length + 2) + (joined strs).length ≤ 2 ^ 31) :
    wordAt (builtAt m stackArgv strs).mem (entry stackArgv strs.length) =
      wordAt m (entry stackArgv strs.length) := by
  have hentry : (entry stackArgv strs.length).toNat = stackArgv.toNat + 4 * strs.length :=
    toNat_entry (by omega)
  refine wordAt_congr (by omega) fun k hk => ?_
  by_contra hchanged
  have hL : Logged m (builtAt m stackArgv strs) := logged_copyAll (logged_start _)
  obtain ⟨p, hp, hpx⟩ := hL _ hchanged
  rcases (mem_log_builtAt hne hend).mp hp with ⟨k', hk', hq⟩ | ⟨k', hk', hq⟩
  · omega
  · omega

/-- The vector lies in the stack exactly if its ends do. -/
theorem within_builtAt {stackArgv : UInt32} (hne : strs ≠ [])
    (hend : stackArgv.toNat + 4 * (strs.length + 2) + (joined strs).length ≤ 2 ^ 31) :
    Within (InPage stackPage) (builtAt m stackArgv strs) ↔
      stackPage.toNat ≤ stackArgv.toNat ∧ stackArgv.toNat + 4 * (strs.length + 2) +
        (joined strs).length ≤ stackPage.toNat + userStackSize.toNat := by
  have hpos : 0 < strs.length := List.length_pos_of_ne_nil hne
  have hjoined := length_joined hne
  constructor
  · intro hin
    have hfirst := hin stackArgv ((mem_log_builtAt hne hend).mpr (.inl ⟨0, by omega, rfl⟩))
    have hlast := hin (stackArgv + UInt32.ofNat (4 * (strs.length + 2) + (joined strs).length - 1))
      ((mem_log_builtAt hne hend).mpr (.inr ⟨(joined strs).length - 1, by omega, by
        rw [toNat_add_ofNat (by omega)]
        omega⟩))
    rw [toNat_add_ofNat (by omega)] at hlast
    exact ⟨hfirst.1, by have := hlast.2; omega⟩
  · rintro ⟨hle, hlast⟩ p hp
    rcases (mem_log_builtAt hne hend).mp hp with ⟨k, hk, hq⟩ | ⟨k, hk, hq⟩
    · exact ⟨by omega, by omega⟩
    · exact ⟨by omega, by omega⟩

/-- What the copy leaves: the pointers, and the strings they point to. -/
theorem builtAt_entry {stackArgv : UInt32}
    (hend : stackArgv.toNat + 4 * (strs.length + 2) + (joined strs).length ≤ maxMemory)
    (hnonzero : ∀ s ∈ strs, ∀ c ∈ s, c ≠ 0) (i : Nat) (hi : i < strs.length) :
    (wordAt (builtAt m stackArgv strs).mem (entry stackArgv i)).toNat =
        stackArgv.toNat + 4 * (strs.length + 2) + offset strs i ∧
      StringAt (builtAt m stackArgv strs).mem
        (stackArgv.toNat + 4 * (strs.length + 2) + offset strs i) (strs.get ⟨i, hi⟩) := by
  have hmax := maxMemory_eq
  have hbase : (stringsAt stackArgv strs).toNat = stackArgv.toNat + 4 * (strs.length + 2) :=
    toNat_stringsAt (by omega)
  have hzero : stackArgv + 4 * 0 = stackArgv := UInt32.add_zero stackArgv
  have hentry : (entry stackArgv i).toNat = stackArgv.toNat + 4 * i := toNat_entry (by omega)
  have hoffset := offset_add_le strs hi hi
  rw [offset_length] at hoffset
  have hmem : (builtAt m stackArgv strs).mem = layOut stackArgv.toNat
      (stackArgv.toNat + 4 * (strs.length + 2)) strs
      ((⟨m, []⟩ : Store).set (stringsAt stackArgv strs) 0).mem := by
    rw [builtAt, copyAll_mem (by rw [hzero]; omega) (by omega), hzero, hbase]
  obtain ⟨hpointer, hstring⟩ := layOut_inside
    (m := ((⟨m, []⟩ : Store).set (stringsAt stackArgv strs) 0).mem)
    (show stackArgv.toNat + 4 * strs.length ≤ stackArgv.toNat + 4 * (strs.length + 2) by omega) i hi
  rw [← hmem] at hpointer hstring
  constructor
  · rw [← hentry] at hpointer
    rw [wordAt_of_read (by omega) hpointer, UInt32.toNat_ofNat']
    omega
  · exact stringAt_of_read (hnonzero _ (List.get_mem _ _)) hstring

theorem disjoint_extent {a n b k : Nat} (h : a + n ≤ b ∨ b + k ≤ a) :
    Disjoint (extent a n) (extent b k) := by
  refine Set.disjoint_left.mpr ?_
  rintro x ⟨hx₁, hx₂⟩ ⟨hx₃, hx₄⟩
  omega

/-- A vector inside the stack, with a 0 behind its pointers, is built. -/
theorem argvBuilt_of_inside {stackArgv : UInt32} (h : ArgvAt m argv buffer strs)
    (hend : stackArgv.toNat + 4 * (strs.length + 2) + (joined strs).length ≤ maxMemory)
    (hin : Within (InPage stackPage) (builtAt m stackArgv strs))
    (hnull : wordAt m (entry stackArgv strs.length) = 0) :
    ArgvBuilt strs stackPage stackArgv (builtAt m stackArgv strs) where
  inside := hin
  copies := by
    intro i hi
    obtain ⟨hpointer, hstring⟩ := builtAt_entry hend h.nonzero i hi
    rwa [hpointer]
  null := by
    have hmax := maxMemory_eq
    rw [builtAt_null h.ne_nil (by omega)]
    exact hnull
  table_apart := by
    intro i hi
    rw [(builtAt_entry hend h.nonzero i hi).1]
    exact disjoint_extent (.inl (by omega))
  strings_apart := by
    intro i j hi hj hne
    rw [(builtAt_entry hend h.nonzero i hi).1, (builtAt_entry hend h.nonzero j hj).1]
    rcases Nat.lt_or_gt_of_ne hne with hij | hji
    · have := offset_add_le strs hi hij
      exact disjoint_extent (.inl (by omega))
    · have := offset_add_le strs hj hji
      exact disjoint_extent (.inr (by omega))

/-- The copy fits exactly if the string at address 0 makes up for the last one. -/
theorem needed_le_reserved_iff (hne : strs ≠ []) (low : Nat) :
    (4 * (strs.length + 2) + (joined strs).length ≤ reserved strs low ∧
        reserved strs low ≤ userStackSize.toNat) ↔
      (strs.getLastD []).length + measured strs low % 8 ≤ low + 4 ∧
        measured strs low < userStackSize.toNat := by
  have hsize := userStackSize_eq
  have hjoined := length_joined hne
  have hmeasured : measured strs low =
      4 * (strs.length + 1) + offset strs (strs.length - 1) + low + 1 := rfl
  rw [reserved]
  omega

end Built

/-! ## 1. When the vector is built -/

/-- The vector is built exactly if the copy fits, for the string at address 0. -/
theorem built_iff_of_low {m : Mem} {argv buffer stackPage : UInt32} {strs : List (List UInt8)}
    {low : List UInt8} (hargv : ArgvAt m argv buffer strs)
    (hneed : 4 * (strs.length + 1) + (joined strs).length < userStackSize.toNat)
    (hapart : Apart argv buffer stackPage strs)
    (hpage : stackPage.toNat + userStackSize.toNat ≤ maxMemory) (hlow : StringAt m 0 low) :
    (∃ argvLocation t,
        setupArgv ⟨m, []⟩ argv stackPage = some (UInt32.ofNat strs.length, argvLocation, t) ∧
          ArgvBuilt strs stackPage argvLocation t) ↔
      (strs.getLastD []).length + measured strs low.length % 8 ≤ low.length + 4 ∧
        measured strs low.length < userStackSize.toNat ∧
        wordAt m (entry (location stackPage strs low.length) strs.length) = 0 := by
  have hmax := maxMemory_eq
  have hsize := userStackSize_eq
  have hne := hargv.ne_nil
  have hpos : 0 < strs.length := List.length_pos_of_ne_nil hne
  have hsources : Sources m argv stackPage 0 strs := hargv.sources hapart
  have hfits := needed_le_reserved_iff hne low.length
  have hmeasured := hargv.measured_lt hlow hneed
  rw [← and_assoc, ← hfits, setupArgv_eq hargv hlow hneed]
  constructor
  · rintro ⟨argvLocation, t, hset, hbuilt⟩
    obtain ⟨t', hcopy, heq⟩ := Option.map_eq_some_iff.mp hset
    obtain ⟨rfl, rfl⟩ := Prod.mk.inj (Prod.mk.inj heq).2
    have hexpected := copyArgs_eq (logged_start _) hsources (.inl ⟨t', hcopy, hbuilt.inside⟩)
    have ht : t' = builtAt m (location stackPage strs low.length) strs :=
      Option.some.inj (hcopy.symm.trans hexpected)
    subst ht
    -- the first pointer is in the stack, and so the vector does not begin before it
    have hfirst : InPage stackPage (location stackPage strs low.length).toNat :=
      hbuilt.inside _ (mem_log_copyAll.mpr (.inr (.inl ⟨0, hpos, 0, by decide, by simp⟩)))
    have hres := reserved_le_of_inPage hpage (by rw [reserved]; omega) hfirst
    have hloc := toNat_location hpage hres
    have hend : (location stackPage strs low.length).toNat + 4 * (strs.length + 2) +
        (joined strs).length ≤ 2 ^ 31 := by omega
    have hlast := ((within_builtAt hne hend).mp hbuilt.inside).2
    have hnull := hbuilt.null
    rw [builtAt_null hne hend] at hnull
    exact ⟨⟨by omega, hres⟩, hnull⟩
  · rintro ⟨⟨hle, hres⟩, hnull⟩
    have hloc := toNat_location hpage hres
    have hend : (location stackPage strs low.length).toNat + 4 * (strs.length + 2) +
        (joined strs).length ≤ maxMemory := by omega
    have hin : Within (InPage stackPage) (builtAt m (location stackPage strs low.length) strs) :=
      (within_builtAt hne (by omega)).mpr ⟨by omega, by omega⟩
    refine ⟨_, _, ?_, argvBuilt_of_inside hargv hend hin hnull⟩
    rw [copyArgs_eq (logged_start _) hsources (.inr hin)]
    rfl

/-- For every argument vector whose strings lie one after the other in a buffer outside the
stack and need less than the stack, and whatever is at address 0: `execve` writes inside the
stack only and builds the vector there, exactly if the last string is at most `z + 4 - L % 8`
characters long, for the length `z` of the string at address 0 and the length `L` that is
computed with it, if `L` is less than the size of the stack, and if the word that becomes
`argv[argc]` was 0. -/
theorem argv_built_iff (m : Mem) (argv buffer stackPage : UInt32) (strs : List (List UInt8))
    (hargv : ArgvAt m argv buffer strs)
    (hneed : 4 * (strs.length + 1) + (joined strs).length < userStackSize.toNat)
    (hapart : Apart argv buffer stackPage strs)
    (hpage : stackPage.toNat + userStackSize.toNat ≤ maxMemory) :
    (∃ argvLocation t,
        setupArgv ⟨m, []⟩ argv stackPage = some (UInt32.ofNat strs.length, argvLocation, t) ∧
          ArgvBuilt strs stackPage argvLocation t) ↔
      ∃ low, StringAt m 0 low ∧
        (strs.getLastD []).length + measured strs low.length % 8 ≤ low.length + 4 ∧
        measured strs low.length < userStackSize.toNat ∧
        wordAt m (entry (location stackPage strs low.length) strs.length) = 0 := by
  constructor
  · intro hbuilt
    obtain ⟨low, hlow⟩ := hargv.exists_low
    exact ⟨low, hlow, (built_iff_of_low hargv hneed hapart hpage hlow).mp hbuilt⟩
  · rintro ⟨low, hlow, hfits⟩
    exact (built_iff_of_low hargv hneed hapart hpage hlow).mpr hfits

/-- A memory of zeros with the string in a buffer at 12288, and a vector of it at 8192. -/
def oneArgument (s : List UInt8) : Mem :=
  write (write (fun _ => 0) 8192 (toLe 12288)) 12288 (s ++ [0])

theorem argvAt_oneArgument {s : List UInt8} (hs : ∀ c ∈ s, c ≠ 0) (hlen : s.length < 4096) :
    ArgvAt (oneArgument s) 8192 12288 [s] := by
  have hjoined : joined [s] = s ++ [0] := by simp [joined]
  have hbelow : ∀ x < 12288, oneArgument s x = write (fun _ => 0) 8192 (toLe 12288) x :=
    fun x hx => write_outside (.inl hx)
  exact {
    ne_nil := by simp
    nonzero := by simpa using hs
    bytes := by
      rw [hjoined]
      exact read_write
    pointer := by
      intro i hi
      have hi0 : i = 0 := Nat.lt_one_iff.mp hi
      subst hi0
      have hword : wordAt (oneArgument s) (entry 8192 0) = 12288 := by
        refine wordAt_of_read (by decide) ?_
        have hread : read (write (fun _ => 0) 8192 (toLe 12288)) 8192 (toLe 12288).length =
            toLe 12288 := read_write
        have hentry : (entry 8192 0).toNat = 8192 := by decide
        rw [hentry]
        exact (read_congr fun k hk => hbelow _ (by omega)).trans hread
      rw [hword]
      rfl
    null := by
      have hword : wordAt (oneArgument s) (entry 8192 1) = wordAt (fun _ => 0) (entry 8192 1) := by
        refine wordAt_congr (by decide) fun k hk => ?_
        have hentry : (entry 8192 1).toNat = 8196 := by decide
        rw [hentry, hbelow _ (by omega)]
        exact write_outside (.inr (by rw [length_toLe]; omega))
      rw [List.length_singleton, hword]
      decide
    buffer_pos := by decide
    table_le := by
      rw [maxMemory_eq, List.length_singleton]
      decide
    buffer_le := by
      rw [maxMemory_eq, hjoined, List.length_append, List.length_singleton,
        show (12288 : UInt32).toNat = 12288 from rfl]
      omega }

theorem apart_oneArgument {s : List UInt8} (hlen : s.length < 4095) :
    Apart 8192 12288 16384 [s] where
  table := by
    rintro k hk ⟨hle, _⟩
    rw [List.length_singleton] at hk
    rw [show (16384 : UInt32).toNat = 16384 from rfl, show (8192 : UInt32).toNat = 8192 from rfl]
      at hle
    omega
  buffer := by
    rintro k hk ⟨hle, _⟩
    have hjoined : (joined [s]).length = s.length + 1 := by simp [joined]
    rw [show (16384 : UInt32).toNat = 16384 from rfl, show (12288 : UInt32).toNat = 12288 from rfl]
      at hle
    omega

/-- The string at address 0 is empty. -/
theorem low_oneArgument (s : List UInt8) : StringAt (oneArgument s) 0 [] where
  nonzero := by simp
  chars := rfl
  nul := by
    rw [oneArgument, write_outside (by simp), write_outside (by simp)]

/-- The vector of `ls` is built, in a page that was 0. -/
theorem argv_built_iff_ls :
    ∃ argvLocation t, setupArgv ⟨oneArgument [108, 115], []⟩ 8192 16384 =
        some (UInt32.ofNat 1, argvLocation, t) ∧
      ArgvBuilt [[108, 115]] 16384 argvLocation t :=
  (argv_built_iff (oneArgument [108, 115]) 8192 12288 16384 [[108, 115]]
    (argvAt_oneArgument (by simp) (by decide)) (by decide) (apart_oneArgument (by decide))
    (by rw [maxMemory_eq]; decide)).mpr ⟨[], low_oneArgument _, by decide⟩

/-- An `execve` with arguments that does not fail leaves in the memory what `setupArgv` makes of
it once the program is loaded, and its results in the registers of the process. -/
theorem execve_vector {d : Ramdisk} {f : Files.State} {k k' : Kernel} {filename : List UInt8}
    {argv result : UInt32} (h : execve d f k filename argv = some (result, k')) (hargv : argv ≠ 0)
    (hpos : ¬isNeg result) :
    ∃ (image : Processes.Image) (binary : List UInt8) (t : Store),
      setupArgv ⟨write k.mem image.text.toNat binary, []⟩ argv image.stack =
          some (k'.process.userR 0, k'.process.userR 1, t) ∧
        k'.process.userR 13 = k'.process.userR 1 ∧ k'.process.stack = image.stack ∧
        k'.mem = t.mem := by
  rcases execve_cases h with ⟨_, hneg, _⟩ | ⟨size, image, alloc, _, _, hend⟩
  · exact absurd hneg hpos
  · rcases hend with ⟨_, rfl, _⟩ | ⟨loaded, _, binary, argvLocation, t, hargs, rfl⟩
    · exact absurd (show isNeg eNOMEM by decide) hpos
    · rw [if_neg hargv] at hargs
      refine ⟨loaded, binary, t, ?_, by simp [setImage, Function.update], rfl, rfl⟩
      simpa [setImage, Function.update] using hargs

/-! ## 2. Beyond the stack -/

/-- For `blackjack` 16 bytes are reserved and 22 are needed: byte 24576, behind the stack, is
written. -/
theorem argv_leaves_the_page :
    ArgvAt (oneArgument [98, 108, 97, 99, 107, 106, 97, 99, 107]) 8192 12288
        [[98, 108, 97, 99, 107, 106, 97, 99, 107]] ∧
      4 * (1 + 1) + (joined [[98, 108, 97, 99, 107, 106, 97, 99, 107]]).length <
        userStackSize.toNat ∧
      Apart 8192 12288 16384 [[98, 108, 97, 99, 107, 106, 97, 99, 107]] ∧
      ¬∃ argvLocation t,
        setupArgv ⟨oneArgument [98, 108, 97, 99, 107, 106, 97, 99, 107], []⟩ 8192 16384 =
            some (UInt32.ofNat 1, argvLocation, t) ∧
          ArgvBuilt [[98, 108, 97, 99, 107, 106, 97, 99, 107]] 16384 argvLocation t := by
  refine ⟨argvAt_oneArgument (by simp) (by decide), by decide, apart_oneArgument (by decide), ?_⟩
  rintro ⟨argvLocation, t, hset, hbuilt⟩
  have hlog : (setupArgv ⟨oneArgument [98, 108, 97, 99, 107, 106, 97, 99, 107], []⟩ 8192 16384).map
      (fun r => r.2.2.log.contains 24576) = some true := by
    decide +kernel
  rw [hset, Option.map_some] at hlog
  have hwritten := List.contains_iff_mem.mp (Option.some.inj hlog)
  exact absurd (hbuilt.inside 24576 hwritten).2 (by decide)

end Vmwos.Exec
