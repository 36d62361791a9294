import Vmwos.Exec
import Vmwos.Strings

/-!
# Copying the arguments

`strncpy` and the loop of `execve` that copies the strings, in terms of what they write. Both
read the memory they write: the loop copies the strings as they are only while its writes stay
away from them. `copyAll` is the copy of strings that nothing changes.

`copyArgs_eq`: the loop makes that copy, if all its writes go to the stack, or if all writes of
the copy do; the strings and the table lie outside the stack. `mem_log_copyAll` says what is
written and `copyAll_mem` with which bytes.
-/

namespace Vmwos.Exec

open Bytes Romfs Stores
open Memory (maxMemory)
open Processes (userStackSize)

/-! ## Definitions -/

/-- The address lies in the stack. -/
def InPage (stackPage : UInt32) (x : Nat) : Prop :=
  stackPage.toNat ≤ x ∧ x < stackPage.toNat + userStackSize.toNat

/-- What `strncpy` does for a whole string: it writes the terminator twice. -/
def copyString (t : Store) (dest : UInt32) (s : List UInt8) : Store :=
  (t.setAll dest (s ++ [0])).set (dest + UInt32.ofNat s.length) 0

/-- What the loop of `execve` does while its sources stay as they are: it writes the pointers
from entry `i` on, and the strings from `argvPtr` on. -/
def copyAll (stackArgv : UInt32) : UInt32 → UInt32 → List (List UInt8) → Store → Store
  | _, _, [], t => t
  | i, argvPtr, s :: strs, t =>
    copyAll stackArgv (i + 1) (argvPtr + UInt32.ofNat (s.length + 1)) strs
      (copyString (t.setWord (stackArgv + 4 * i) argvPtr) argvPtr s)

/-- The strings from entry `i` of the table on, outside the stack. -/
structure Sources (m : Mem) (argv stackPage i : UInt32) (strs : List (List UInt8)) : Prop where
  table_end : ∀ j < strs.length, (argv + 4 * (i + UInt32.ofNat j)).toNat + 4 ≤ 2 ^ 32
  table_apart : ∀ j < strs.length, ∀ k < 4,
    ¬InPage stackPage ((argv + 4 * (i + UInt32.ofNat j)).toNat + k)
  string : ∀ j (hj : j < strs.length),
    StringAt m (wordAt m (argv + 4 * (i + UInt32.ofNat j))).toNat (strs.get ⟨j, hj⟩)
  string_end : ∀ j (hj : j < strs.length),
    (wordAt m (argv + 4 * (i + UInt32.ofNat j))).toNat + (strs.get ⟨j, hj⟩).length + 1 < 2 ^ 32
  string_apart : ∀ j (hj : j < strs.length), ∀ k ≤ (strs.get ⟨j, hj⟩).length,
    ¬InPage stackPage ((wordAt m (argv + 4 * (i + UInt32.ofNat j))).toNat + k)

/-! ## `string.c` -/

section Copying

variable {m : Mem} {t t' : Store} {stackPage dest src : UInt32}

/-- `strlen` of a string below the end of the address space. -/
theorem strlen_eq {p : UInt32} {s : List UInt8} (h : StringAt m p.toNat s)
    (hend : p.toNat + s.length < 2 ^ 32) : strlen m p allOffsets 0 = some (UInt32.ofNat s.length) := by
  suffices hloop : ∀ (rest : List UInt8) (i : UInt32) (turns : Nat),
      StringAt m (p + i).toNat rest → (p + i).toNat + rest.length < 2 ^ 32 → rest.length < turns →
      strlen m p turns i = some (i + UInt32.ofNat rest.length) by
    have := hloop s 0 allOffsets (by simpa using h) (by simpa using hend)
      (by rw [allOffsets]; omega)
    simpa using this
  intro rest
  induction rest with
  | nil =>
    intro i turns hs _ hturns
    obtain ⟨turns, rfl⟩ := Nat.exists_eq_succ_of_ne_zero (Nat.ne_of_gt hturns)
    have hnul : byteAt m (p + i) = 0 := hs.nul
    simp [strlen, hnul]
  | cons c rest ih =>
    intro i turns hs hlt hturns
    obtain ⟨turns, rfl⟩ := Nat.exists_eq_succ_of_ne_zero (Nat.ne_of_gt (Nat.zero_lt_of_lt hturns))
    obtain ⟨hc, hne, htail⟩ := hs.tail
    rw [List.length_cons] at hlt hturns
    have hnext : (p + (i + 1)).toNat = (p + i).toNat + 1 := toNat_add_add_one (by omega)
    have hbyte : byteAt m (p + i) ≠ 0 := by
      rw [byteAt, hc]
      exact hne
    rw [strlen, if_pos hbyte, ih (i + 1) turns (by rwa [hnext]) (by omega) (by omega),
      List.length_cons, add_ofNat_succ]

theorem extends_strncpyPad (dest : UInt32) (turns : Nat) (i : UInt32) (t : Store) :
    Extends t (strncpyPad dest turns i t) := by
  induction turns generalizing i t with
  | zero => exact fun _ hq => hq
  | succ turns ih => exact (extends_set t _ 0).trans (ih (i + 1) _)

theorem extends_strncpyLoop (dest src : UInt32) (turns : Nat) (i : UInt32) (t : Store) :
    Extends t (strncpyLoop dest src turns i t) := by
  induction turns generalizing i t with
  | zero => exact fun _ hq => hq
  | succ turns ih =>
    rw [strncpyLoop]
    split
    · exact (extends_set t _ _).trans (extends_strncpyPad dest _ i _)
    · exact (extends_set t _ _).trans (ih (i + 1) _)

theorem extends_copyString (t : Store) (dest : UInt32) (s : List UInt8) :
    Extends t (copyString t dest s) :=
  (extends_setAll t dest _).trans (extends_set _ _ 0)

/-- The loop of `strncpy` on the rest of a string outside the stack, as long as the writes of the
code, or the expected ones, go to the stack. -/
theorem strncpyLoop_eq {rest : List UInt8} {i : UInt32} (hL : Logged m t)
    (hs : StringAt m (src + i).toNat rest) (hend : (src + i).toNat + rest.length < 2 ^ 32)
    (hpage : ∀ k ≤ rest.length, ¬InPage stackPage ((src + i).toNat + k))
    (hin : Within (InPage stackPage) t)
    (hall : Within (InPage stackPage) (strncpyLoop dest src (rest.length + 1) i t) ∨
      Within (InPage stackPage) (copyString t (dest + i) rest)) :
    strncpyLoop dest src (rest.length + 1) i t = copyString t (dest + i) rest := by
  induction rest generalizing i t with
  | nil =>
    have hbyte : byteAt t.mem (src + i) = 0 :=
      (hL.outside hin (hpage 0 (le_refl _))).trans hs.nul
    have hagain := byteAt_set_self t (dest + i) (src + i)
    rw [hbyte] at hagain
    rw [List.length_nil, strncpyLoop, hbyte, hagain, if_pos rfl]
    simp [strncpyPad, copyString, Store.setAll]
  | cons c rest ih =>
    obtain ⟨hc, hne, htail⟩ := hs.tail
    rw [List.length_cons] at hend hpage hall ⊢
    have hbyte : byteAt t.mem (src + i) = c := (hL.outside hin (hpage 0 (by omega))).trans hc
    have hagain := byteAt_set_self t (dest + i) (src + i)
    rw [hbyte] at hagain
    have hnext : (src + (i + 1)).toNat = (src + i).toNat + 1 := toNat_add_add_one (by omega)
    have hloop : strncpyLoop dest src (rest.length + 1 + 1) i t =
        strncpyLoop dest src (rest.length + 1) (i + 1) (t.set (dest + i) c) := by
      rw [strncpyLoop, hbyte, hagain, if_neg hne]
    have hcopy : copyString t (dest + i) (c :: rest) =
        copyString (t.set (dest + i) c) (dest + (i + 1)) rest := by
      rw [copyString, copyString, List.length_cons, add_ofNat_succ, List.cons_append, Store.setAll,
        UInt32.add_assoc dest i 1]
    rw [hloop, hcopy] at hall ⊢
    have hset : Within (InPage stackPage) (t.set (dest + i) c) := by
      rcases hall with hall | hall
      · exact (extends_strncpyLoop _ _ _ _ _).within hall
      · exact (extends_copyString _ _ _).within hall
    refine ih (hL.set _ c) (by rwa [hnext]) (by omega) (fun k hk => ?_) hset hall
    rw [hnext, Nat.add_assoc, Nat.add_comm 1]
    exact hpage (k + 1) (by omega)

/-- The same for `strncpy` of the whole string. -/
theorem strncpy_eq {s : List UInt8} (hL : Logged m t) (hs : StringAt m src.toNat s)
    (hend : src.toNat + s.length + 1 < 2 ^ 32)
    (hpage : ∀ k ≤ s.length, ¬InPage stackPage (src.toNat + k)) (hin : Within (InPage stackPage) t)
    (hall : Within (InPage stackPage) (strncpy dest src (UInt32.ofNat s.length + 1) t) ∨
      Within (InPage stackPage) (copyString t dest s)) :
    strncpy dest src (UInt32.ofNat s.length + 1) t = copyString t dest s := by
  have hturns : (UInt32.ofNat s.length + 1).toNat = s.length + 1 := by
    rw [UInt32.toNat_add, UInt32.toNat_ofNat', show (1 : UInt32).toNat = 1 from rfl]
    omega
  rw [strncpy, hturns] at hall ⊢
  have hloop : strncpyLoop dest src (s.length + 1) 0 t = copyString t (dest + 0) s := by
    refine strncpyLoop_eq hL ?_ ?_ ?_ hin ?_
    · rwa [UInt32.add_zero]
    · rw [UInt32.add_zero]
      omega
    · rwa [UInt32.add_zero]
    · rwa [UInt32.add_zero]
  rwa [UInt32.add_zero] at hloop

/-! ## The loop -/

theorem extends_copyAll (stackArgv i argvPtr : UInt32) (strs : List (List UInt8)) (t : Store) :
    Extends t (copyAll stackArgv i argvPtr strs t) := by
  induction strs generalizing i argvPtr t with
  | nil => exact fun _ hq => hq
  | cons s strs ih =>
    exact ((extends_setAll t _ _).trans (extends_copyString _ _ s)).trans (ih _ _ _)

/-- One turn of the loop that completes: it writes the pointer and copies the string. -/
theorem copyArgs_succ {argv stackArgv i argvPtr : UInt32} {turns : Nat}
    (h : copyArgs argv stackArgv (turns + 1) i argvPtr t = some t') :
    ∃ length, strlen (t.setWord (stackArgv + 4 * i) argvPtr).mem
        (wordAt (t.setWord (stackArgv + 4 * i) argvPtr).mem (argv + 4 * i)) allOffsets 0 =
          some length ∧
      ∃ next, copyArgs argv stackArgv turns (i + 1) next
        (strncpy argvPtr (wordAt (t.setWord (stackArgv + 4 * i) argvPtr).mem (argv + 4 * i))
          (length + 1) (t.setWord (stackArgv + 4 * i) argvPtr)) = some t' := by
  simp only [copyArgs, Option.bind_eq_bind, Option.bind_eq_some_iff] at h
  obtain ⟨length, hlength, length', _, h⟩ := h
  exact ⟨length, hlength, argvPtr + (length' + 1), h⟩

theorem extends_copyArgs {argv stackArgv : UInt32} {turns : Nat} {i argvPtr : UInt32}
    (h : copyArgs argv stackArgv turns i argvPtr t = some t') : Extends t t' := by
  induction turns generalizing i argvPtr t with
  | zero =>
    cases h
    exact fun _ hq => hq
  | succ turns ih =>
    obtain ⟨_, _, _, h⟩ := copyArgs_succ h
    exact ((extends_setAll t _ _).trans (extends_strncpyLoop _ _ _ _ _)).trans (ih h)

theorem Sources.tail {argv i : UInt32} {s : List UInt8} {strs : List (List UInt8)}
    (h : Sources m argv stackPage i (s :: strs)) : Sources m argv stackPage (i + 1) strs := by
  have hj : ∀ j < strs.length, j + 1 < (s :: strs).length := fun j hj => Nat.succ_lt_succ hj
  constructor
  · intro j hlt
    rw [← add_ofNat_succ]
    exact h.table_end (j + 1) (hj j hlt)
  · intro j hlt
    rw [← add_ofNat_succ]
    exact h.table_apart (j + 1) (hj j hlt)
  · intro j hlt
    rw [← add_ofNat_succ]
    exact h.string (j + 1) (hj j hlt)
  · intro j hlt
    rw [← add_ofNat_succ]
    exact h.string_end (j + 1) (hj j hlt)
  · intro j hlt
    rw [← add_ofNat_succ]
    exact h.string_apart (j + 1) (hj j hlt)

/-- The first of the strings. -/
theorem Sources.head {argv i : UInt32} {s : List UInt8} {strs : List (List UInt8)}
    (h : Sources m argv stackPage i (s :: strs)) :
    StringAt m (wordAt m (argv + 4 * i)).toNat s ∧
      (wordAt m (argv + 4 * i)).toNat + s.length + 1 < 2 ^ 32 ∧
      ∀ k ≤ s.length, ¬InPage stackPage ((wordAt m (argv + 4 * i)).toNat + k) := by
  have hzero : i + UInt32.ofNat 0 = i := UInt32.add_zero i
  have hpos : 0 < (s :: strs).length := Nat.succ_pos _
  have hstring := h.string 0 hpos
  have hend := h.string_end 0 hpos
  have hapart := h.string_apart 0 hpos
  rw [hzero] at hstring hend hapart
  exact ⟨hstring, hend, hapart⟩

/-- What the loop reads of entry `i` while the stack is the only thing written: the string. -/
theorem Sources.read {argv i : UInt32} {s : List UInt8} {strs : List (List UInt8)}
    (h : Sources m argv stackPage i (s :: strs)) (hL : Logged m t) (hin : Within (InPage stackPage) t) :
    wordAt t.mem (argv + 4 * i) = wordAt m (argv + 4 * i) ∧
      strlen t.mem (wordAt m (argv + 4 * i)) allOffsets 0 = some (UInt32.ofNat s.length) := by
  have hzero : i + UInt32.ofNat 0 = i := UInt32.add_zero i
  have htend := h.table_end 0 (Nat.succ_pos _)
  have htapart := h.table_apart 0 (Nat.succ_pos _)
  rw [hzero] at htend htapart
  obtain ⟨hstring, hend, hapart⟩ := h.head
  refine ⟨wordAt_congr htend fun k hk => hL.outside hin (htapart k hk), ?_⟩
  exact strlen_eq (stringAt_congr hstring fun k hk => hL.outside hin (hapart k hk)) (by omega)

/-- The loop of `execve` copies the strings, as long as its writes, or the expected ones, go to
the stack. -/
theorem copyArgs_eq {argv stackArgv i argvPtr : UInt32} {strs : List (List UInt8)}
    (hL : Logged m t) (hS : Sources m argv stackPage i strs)
    (hall : (∃ t', copyArgs argv stackArgv strs.length i argvPtr t = some t' ∧
        Within (InPage stackPage) t') ∨
      Within (InPage stackPage) (copyAll stackArgv i argvPtr strs t)) :
    copyArgs argv stackArgv strs.length i argvPtr t = some (copyAll stackArgv i argvPtr strs t) := by
  induction strs generalizing i argvPtr t with
  | nil => rfl
  | cons s strs ih =>
    have hL₁ : Logged m (t.setWord (stackArgv + 4 * i) argvPtr) := hL.setAll _ _
    have hcopyL : Logged m
        (copyString (t.setWord (stackArgv + 4 * i) argvPtr) argvPtr s) := (hL₁.setAll _ _).set _ _
    -- whichever of the two stays in the stack, so does what it has written after this turn
    have hturn : (∃ length,
          strlen (t.setWord (stackArgv + 4 * i) argvPtr).mem
            (wordAt (t.setWord (stackArgv + 4 * i) argvPtr).mem (argv + 4 * i)) allOffsets 0 =
              some length ∧
          Within (InPage stackPage)
            (strncpy argvPtr (wordAt (t.setWord (stackArgv + 4 * i) argvPtr).mem (argv + 4 * i))
              (length + 1) (t.setWord (stackArgv + 4 * i) argvPtr))) ∨
        Within (InPage stackPage)
          (copyString (t.setWord (stackArgv + 4 * i) argvPtr) argvPtr s) := by
      rcases hall with ⟨t', h, hin⟩ | hin
      · obtain ⟨length, hlength, next, h⟩ := copyArgs_succ h
        exact .inl ⟨length, hlength, (extends_copyArgs h).within hin⟩
      · exact .inr ((extends_copyAll _ _ _ _ _).within hin)
    -- the pointer is written to the stack, so that the string is read as it was
    have hin₁ : Within (InPage stackPage) (t.setWord (stackArgv + 4 * i) argvPtr) := by
      rcases hturn with ⟨length, _, hin⟩ | hin
      · exact (extends_strncpyLoop _ _ _ _ _).within hin
      · exact (extends_copyString _ _ s).within hin
    obtain ⟨hword, hlen⟩ := hS.read hL₁ hin₁
    obtain ⟨hstring, hend, hapart⟩ := hS.head
    simp only [hword, hlen, Option.some.injEq, exists_eq_left'] at hturn
    have hcopy : strncpy argvPtr (wordAt m (argv + 4 * i)) (UInt32.ofNat s.length + 1)
        (t.setWord (stackArgv + 4 * i) argvPtr) =
          copyString (t.setWord (stackArgv + 4 * i) argvPtr) argvPtr s :=
      strncpy_eq hL₁ hstring hend hapart hin₁ hturn
    have hin₂ : Within (InPage stackPage)
        (copyString (t.setWord (stackArgv + 4 * i) argvPtr) argvPtr s) := by
      rwa [hcopy, or_self] at hturn
    obtain ⟨hword', hlen'⟩ := hS.read hcopyL hin₂
    have hstep : copyArgs argv stackArgv (s :: strs).length i argvPtr t =
        copyArgs argv stackArgv strs.length (i + 1) (argvPtr + UInt32.ofNat (s.length + 1))
          (copyString (t.setWord (stackArgv + 4 * i) argvPtr) argvPtr s) := by
      rw [← ofNat_add_one]
      simp only [List.length_cons, copyArgs, hword, hlen, hcopy, hword', hlen',
        Option.bind_eq_bind, Option.bind_some]
    rw [hstep] at hall ⊢
    exact ih hcopyL hS.tail hall

end Copying

/-! ## What is written -/

theorem mem_log_copyString {dest q : UInt32} {s : List UInt8} {t : Store} :
    q ∈ (copyString t dest s).log ↔ q ∈ t.log ∨ ∃ k < s.length + 1, q = dest + UInt32.ofNat k := by
  rw [copyString, set_log, List.mem_cons, mem_log_setAll, List.length_append,
    List.length_singleton]
  constructor
  · rintro (rfl | h)
    · exact .inr ⟨s.length, Nat.lt_succ_self _, rfl⟩
    · exact h
  · exact .inr

/-- The addresses that the copy writes: the pointers and the strings. -/
theorem mem_log_copyAll {stackArgv i argvPtr q : UInt32} {strs : List (List UInt8)} {t : Store} :
    q ∈ (copyAll stackArgv i argvPtr strs t).log ↔ q ∈ t.log ∨
      (∃ j < strs.length, ∃ k < 4, q = stackArgv + 4 * (i + UInt32.ofNat j) + UInt32.ofNat k) ∨
      ∃ k < (joined strs).length, q = argvPtr + UInt32.ofNat k := by
  induction strs generalizing i argvPtr t with
  | nil => simp [copyAll, joined]
  | cons s strs ih =>
    have htable : (∃ j < (s :: strs).length, ∃ k < 4,
          q = stackArgv + 4 * (i + UInt32.ofNat j) + UInt32.ofNat k) ↔
        (∃ k < 4, q = stackArgv + 4 * i + UInt32.ofNat k) ∨
          ∃ j < strs.length, ∃ k < 4,
            q = stackArgv + 4 * (i + 1 + UInt32.ofNat j) + UInt32.ofNat k := by
      constructor
      · rintro ⟨j, hj, k, hk, rfl⟩
        cases j with
        | zero => exact .inl ⟨k, hk, by simp⟩
        | succ j => exact .inr ⟨j, Nat.lt_of_succ_lt_succ hj, k, hk, by rw [add_ofNat_succ]⟩
      · rintro (⟨k, hk, rfl⟩ | ⟨j, hj, k, hk, rfl⟩)
        · exact ⟨0, Nat.succ_pos _, k, hk, by simp⟩
        · exact ⟨j + 1, Nat.succ_lt_succ hj, k, hk, by rw [add_ofNat_succ]⟩
    rw [copyAll, ih, mem_log_copyString, Store.setWord, mem_log_setAll, length_toLe,
      length_joined_cons, exists_offset_add (s.length + 1), htable]
    constructor
    · rintro (((h | h) | h) | h | h)
      · exact .inl h
      · exact .inr (.inl (.inl h))
      · exact .inr (.inr (.inl h))
      · exact .inr (.inl (.inr h))
      · exact .inr (.inr (.inr h))
    · rintro (h | (h | h) | h | h)
      · exact .inl (.inl (.inl h))
      · exact .inl (.inl (.inr h))
      · exact .inr (.inl h)
      · exact .inl (.inr h)
      · exact .inr (.inr h)

theorem logged_copyAll {m : Mem} {t : Store} {strs : List (List UInt8)}
    {stackArgv i argvPtr : UInt32} (h : Logged m t) :
    Logged m (copyAll stackArgv i argvPtr strs t) := by
  induction strs generalizing i argvPtr t with
  | nil => exact h
  | cons s strs ih => exact ih (((h.setAll _ _).setAll _ _).set _ _)

theorem copyString_mem {t : Store} {dest : UInt32} {s : List UInt8}
    (h : dest.toNat + s.length + 1 ≤ 2 ^ 32) :
    (copyString t dest s).mem = write t.mem dest.toNat (s ++ [0]) := by
  have hlen : (s ++ [0]).length = s.length + 1 := by simp
  have hnul : write t.mem dest.toNat (s ++ [0]) (dest.toNat + s.length) = 0 := by
    rw [write_inside (by omega)]
    simp
  rw [copyString, set_mem, setAll_mem (by omega), toNat_add_ofNat (by omega)]
  exact Function.update_eq_self_iff.mpr hnul.symm

theorem maxMemory_eq : maxMemory = 2 ^ 30 := by decide

theorem copyAll_mem {stackArgv i argvPtr : UInt32} {strs : List (List UInt8)} {t : Store}
    (htable : (stackArgv + 4 * i).toNat + 4 * strs.length ≤ maxMemory)
    (hstrings : argvPtr.toNat + (joined strs).length ≤ maxMemory) :
    (copyAll stackArgv i argvPtr strs t).mem =
      layOut (stackArgv + 4 * i).toNat argvPtr.toNat strs t.mem := by
  have hmax := maxMemory_eq
  induction strs generalizing i argvPtr t with
  | nil => rfl
  | cons s strs ih =>
    rw [List.length_cons] at htable
    rw [length_joined_cons] at hstrings
    have hentry : (stackArgv + 4 * (i + 1)).toNat = (stackArgv + 4 * i).toNat + 4 := by
      have hdist : stackArgv + 4 * (i + 1) = stackArgv + 4 * i + UInt32.ofNat 4 := by
        rw [UInt32.mul_add, UInt32.add_assoc]
        rfl
      rw [hdist]
      exact toNat_add_ofNat (by omega)
    have hptr : (argvPtr + UInt32.ofNat (s.length + 1)).toNat = argvPtr.toNat + (s.length + 1) :=
      toNat_add_ofNat (by omega)
    have hword : ((t.setWord (stackArgv + 4 * i) argvPtr)).mem =
        write t.mem (stackArgv + 4 * i).toNat (toLe argvPtr) := by
      refine setAll_mem ?_
      rw [length_toLe]
      omega
    rw [copyAll, ih (by rw [hentry]; omega) (by rw [hptr]; omega), layOut, hentry, hptr,
      copyString_mem (by omega), hword, UInt32.ofNat_toNat]

end Vmwos.Exec
