import Vmwos.Strings

/-!
# The argument table of the shell

`create_argv` cuts the input line at every space, in place, and puts the addresses of the
pieces into the static table `arguments`. A piece that starts with an ampersand ends the
command. The table has 16 entries, and the loop does not look at its size.

Results:

1. `createArgv_iff`: the table is not overflowed exactly when the line has at most 15 fields
   before its end or its ampersand;
2. `createArgv_fields`: the entries are the fields of the line, split at every space.
-/

namespace Vmwos.Shell

open Bytes

/-! ## Definitions -/

def maxArguments : Nat := 16

/-- The memory with the input line, the table of arguments (`none` is `NULL`) and the flag
`*background`. An entry from 16 on stands for the memory after the table. -/
structure State where
  mem : Mem
  arguments : Nat → Option Nat
  background : Nat

/-- `arguments[i] = p`. -/
def State.setArgument (sh : State) (i : Nat) (p : Option Nat) : State :=
  { sh with arguments := Function.update sh.arguments i p }

/-- The loop of `create_argv` to the next space or NUL, for a number of turns. -/
def skipField (m : Mem) (string : Nat) : Nat → Nat → Option Nat
  | 0, _ => none
  | turns + 1, ptr =>
    if m (string + ptr) ≠ 32 ∧ m (string + ptr) ≠ 0 then skipField m string turns (ptr + 1)
    else some ptr

/-- The main loop of `create_argv`. The ampersand is 38, the space 32. -/
def createArgvLoop (string : Nat) : Nat → State → Nat → Nat → Option (Nat × State)
  | 0, _, _, _ => none
  | turns + 1, sh, count, ptr =>
    let sh := sh.setArgument count (some (string + ptr))
    if sh.mem (string + ptr) = 38 then
      some (count, { sh.setArgument count none with background := 1 })
    else do
      let ptr ← skipField sh.mem string (turns + 1) ptr
      let count := count + 1
      if sh.mem (string + ptr) = 0 then some (count, sh.setArgument count none)
      else createArgvLoop string turns { sh with mem := write sh.mem (string + ptr) [0] } count (ptr + 1)

/-- `create_argv`, with its result as the signed number it is declared as. -/
def createArgv (turns string : Nat) (sh : State) : Option (Int × State) :=
  (createArgvLoop string turns { sh with background := 0 } 0 0).map fun r => ((r.1 : Int), r.2)

/-- A result within the table: `NULL` is its last entry, and no entry after it is written. -/
structure InTable (before after : State) (count : Int) : Prop where
  small : count ≤ maxArguments - 1
  last : after.arguments count.toNat = none
  others : ∀ i : Nat, count < i → after.arguments i = before.arguments i

/-- The pieces of a line that become arguments. -/
def kept (fields : List (List UInt8)) : List (List UInt8) :=
  fields.takeWhile fun field => field.head? ≠ some 38

/-- What is stored for fields from entry `count` on: a pointer to each that is kept, with the field
as a string behind it, and the flag. The memory before `start` is left alone. -/
structure Stored (before after : State) (start count : Nat) (fields : List (List UInt8)) : Prop where
  entries : ∀ i field, (kept fields)[i]? = some field →
    ∃ p, after.arguments (count + i) = some p ∧ StringAt after.mem p field
  others : ∀ i < count, after.arguments i = before.arguments i
  mem_before : ∀ x < start, after.mem x = before.mem x
  background : after.background =
    if ∃ field ∈ fields, field.head? = some 38 then 1 else before.background

/-! ## One field -/

variable {m : Mem} {string ptr turns count : Nat} {sh : State}

/-- The loop stops behind the field, at the space or the NUL. -/
theorem skipField_eq {field rest : List UInt8} (hs : StringAt m (string + ptr) (field ++ rest))
    (hfield : 32 ∉ field) (hrest : ∀ c ∈ rest.head?, c = 32) (hturns : field.length < turns) :
    skipField m string turns ptr = some (ptr + field.length) ∧
      StringAt m (string + (ptr + field.length)) rest := by
  obtain ⟨turns, rfl⟩ := Nat.exists_eq_succ_of_ne_zero (Nat.ne_of_gt (Nat.zero_lt_of_lt hturns))
  unfold skipField
  induction field generalizing ptr turns with
  | nil =>
    rw [if_neg]
    · exact ⟨rfl, hs⟩
    · rintro ⟨hspace, hnul⟩
      cases rest with
      | nil => exact hnul hs.nul
      | cons c rest => exact hspace (hs.tail.1.trans (hrest c rfl))
  | cons c field ih =>
    obtain ⟨hc, hne, htail⟩ := hs.tail
    obtain ⟨hspace, hfield⟩ := not_or.mp (List.mem_cons.not.mp hfield)
    have hlength : ptr + (c :: field).length = ptr + 1 + field.length := by
      rw [List.length_cons]
      omega
    rw [if_pos ⟨hc ▸ Ne.symm hspace, hc ▸ hne⟩, hlength]
    obtain ⟨turns, rfl⟩ := Nat.exists_eq_succ_of_ne_zero
      (Nat.ne_of_gt (Nat.zero_lt_of_lt (Nat.lt_of_succ_lt_succ hturns)))
    unfold skipField
    exact ih htail hfield turns (Nat.lt_of_succ_lt_succ hturns)

/-! ## The fields of a line -/

/-- What the loop has done from entry `count` on: the kept fields have their entries, `NULL`
is behind them, and the other entries are as before. -/
structure Entered (before after : State) (count n : Nat) : Prop where
  last : after.arguments (count + n) = none
  others : ∀ i, i < count ∨ count + n < i → after.arguments i = before.arguments i

theorem ampersand_iff {field rest : List UInt8} {a : Nat} (hs : StringAt m a (field ++ rest))
    (hrest : ∀ c ∈ rest.head?, c = 32) : m a = 38 ↔ field.head? = some 38 := by
  cases field with
  | nil =>
    have hstop : m a = 0 ∨ m a = 32 := by
      cases rest with
      | nil => exact .inl hs.nul
      | cons c rest => exact .inr (hs.tail.1.trans (hrest c rfl))
    refine ⟨fun h => ?_, fun h => by cases h⟩
    rw [h] at hstop
    exact absurd hstop (by decide)
  | cons c field => rw [hs.tail.1, List.head?_cons, Option.some_inj]

/-- The first character of the line is an ampersand exactly if it is that of the first field. -/
theorem ampersand_iff_of_fields {field : List UInt8} {fields : List (List UInt8)} {a : Nat}
    (hs : StringAt m a ([32].intercalate (field :: fields))) :
    m a = 38 ↔ field.head? = some 38 := by
  cases fields with
  | nil =>
    rw [List.intercalate_singleton, ← List.append_nil field] at hs
    exact ampersand_iff hs (by simp)
  | cons f fs =>
    rw [List.intercalate_cons_cons, List.append_assoc] at hs
    exact ampersand_iff hs (by simp)

theorem kept_ampersand {field : List UInt8} (fields : List (List UInt8))
    (h : field.head? = some 38) : kept (field :: fields) = [] :=
  List.takeWhile_cons_of_neg (by simp [h])

theorem kept_cons {field : List UInt8} (fields : List (List UInt8))
    (h : field.head? ≠ some 38) : kept (field :: fields) = field :: kept fields :=
  List.takeWhile_cons_of_pos (by simp [h])

/-- The turn of a field that starts with an ampersand. -/
theorem createArgvLoop_ampersand (h : sh.mem (string + ptr) = 38) :
    ∃ sh', createArgvLoop string (turns + 1) sh count ptr = some (count, sh') ∧
      Entered sh sh' count 0 ∧ sh'.mem = sh.mem ∧ sh'.background = 1 := by
  have hloop : createArgvLoop string (turns + 1) sh count ptr = some (count,
      { (sh.setArgument count (some (string + ptr))).setArgument count none with
        background := 1 }) := by
    rw [createArgvLoop]
    exact if_pos h
  refine ⟨_, hloop, ⟨Function.update_self _ _ _, ?_⟩, rfl, rfl⟩
  intro i hi
  have hne : i ≠ count := by omega
  exact (Function.update_of_ne hne _ _).trans (Function.update_of_ne hne _ _)

/-- The turn of any other field, which ends at `p`. -/
theorem createArgvLoop_field {p : Nat} (h : sh.mem (string + ptr) ≠ 38)
    (hskip : skipField sh.mem string (turns + 1) ptr = some p) :
    createArgvLoop string (turns + 1) sh count ptr =
      if sh.mem (string + p) = 0 then
        some (count + 1, (sh.setArgument count (some (string + ptr))).setArgument (count + 1) none)
      else createArgvLoop string turns
        { sh.setArgument count (some (string + ptr)) with mem := write sh.mem (string + p) [0] }
        (count + 1) (p + 1) := by
  conv_lhs => unfold createArgvLoop
  exact (if_neg h).trans (congrArg (Option.bind · _) hskip)

/-- The turn of the last field. -/
theorem createArgvLoop_last {field : List UInt8} (hs : StringAt sh.mem (string + ptr) field)
    (hfield : 32 ∉ field) (hkept : field.head? ≠ some 38) (hturns : field.length < turns + 1) :
    ∃ sh', createArgvLoop string (turns + 1) sh count ptr = some (count + 1, sh') ∧
      Entered sh sh' count 1 ∧ sh'.arguments count = some (string + ptr) ∧ sh'.mem = sh.mem ∧
      sh'.background = sh.background := by
  rw [← List.append_nil field] at hs
  obtain ⟨hskip, hnul⟩ := skipField_eq hs hfield (by simp) hturns
  have hchar := (ampersand_iff hs (by simp)).not.mpr hkept
  rw [createArgvLoop_field hchar hskip]
  refine ⟨_, if_pos hnul.nul, ?_⟩
  refine ⟨⟨?_, ?_⟩, ?_, rfl, rfl⟩
  · exact Function.update_self _ _ _
  · intro i hi
    exact (Function.update_of_ne (by omega) _ _).trans (Function.update_of_ne (by omega) _ _)
  · exact (Function.update_of_ne (by omega) _ _).trans (Function.update_self _ _ _)

/-- The state after the turn of a field before a space, which has become a NUL. -/
structure Passed (before after : State) (string ptr ptr' count : Nat) (field rest : List UInt8) :
    Prop where
  rest : StringAt after.mem (string + ptr') rest
  next : ptr' = ptr + field.length + 1
  field : StringAt after.mem (string + ptr) field
  entry : after.arguments count = some (string + ptr)
  others : ∀ i, i ≠ count → after.arguments i = before.arguments i
  mem_before : ∀ x < string + ptr, after.mem x = before.mem x
  background : after.background = before.background

/-- The turn of a field before a space. -/
theorem createArgvLoop_space {field rest : List UInt8} (count : Nat)
    (hs : StringAt sh.mem (string + ptr) (field ++ 32 :: rest)) (hfield : 32 ∉ field)
    (hkept : field.head? ≠ some 38) (hturns : field.length < turns + 1) :
    ∃ sh' ptr', createArgvLoop string (turns + 1) sh count ptr =
        createArgvLoop string turns sh' (count + 1) ptr' ∧
      Passed sh sh' string ptr ptr' count field rest := by
  have hhead : ∀ c ∈ (32 :: rest).head?, c = 32 := by simp
  obtain ⟨hskip, hrest⟩ := skipField_eq hs hfield hhead hturns
  obtain ⟨hspace, hne, htail⟩ := hrest.tail
  have hchar := (ampersand_iff hs hhead).not.mpr hkept
  have hafter : ∀ x, x ≠ string + (ptr + field.length) →
      write sh.mem (string + (ptr + field.length)) [0] x = sh.mem x := by
    intro x hx
    refine write_outside ?_
    rw [List.length_singleton]
    omega
  refine ⟨{ sh.setArgument count (some (string + ptr)) with
      mem := write sh.mem (string + (ptr + field.length)) [0] }, ptr + field.length + 1, ?_,
    ?_, rfl, ⟨?_, ?_, ?_⟩, Function.update_self _ _ _, ?_, ?_, rfl⟩
  · rw [createArgvLoop_field hchar hskip]
    exact if_neg (hspace ▸ hne)
  · exact stringAt_congr htail fun k _ => hafter _ (by omega)
  · exact fun c hc => hs.nonzero c (List.mem_append_left _ hc)
  · have hread := hs.chars
    rw [List.length_append, read_add] at hread
    refine (read_congr fun k hk => hafter _ (by omega)).trans (List.append_inj hread ?_).1
    exact length_read
  · have hlt : 0 < [(0 : UInt8)].length := by decide
    rw [Nat.add_assoc]
    exact write_inside hlt
  · intro i hi
    exact Function.update_of_ne hi _ _
  · intro x hx
    exact hafter x (by omega)

/-- The turn of a field comes before the turns of the rest. -/
theorem Passed.entered {before mid after : State} {ptr' n : Nat} {field rest : List UInt8}
    (h : Passed before mid string ptr ptr' count field rest)
    (hentered : Entered mid after (count + 1) n) : Entered before after count (n + 1) := by
  refine ⟨?_, fun i hi => ?_⟩
  · rw [← Nat.add_assoc, Nat.add_right_comm]
    exact hentered.last
  · exact (hentered.others i (by omega)).trans (h.others i (by omega))

/-- The rest of the line does not touch the field and its NUL. -/
theorem Passed.stored {before mid after : State} {ptr' : Nat} {field rest : List UInt8}
    {fields : List (List UInt8)} (h : Passed before mid string ptr ptr' count field rest)
    (hstored : Stored mid after (string + ptr') (count + 1) fields)
    (hkept : field.head? ≠ some 38) :
    Stored before after (string + ptr) count (field :: fields) := by
  have hnext := h.next
  refine ⟨fun i g hg => ?_, fun i hi => ?_, fun x hx => ?_, ?_⟩
  · rw [kept_cons fields hkept] at hg
    cases i with
    | zero =>
      cases hg
      refine ⟨string + ptr, ?_, stringAt_congr h.field fun k hk => ?_⟩
      · exact (hstored.others count (Nat.lt_succ_self _)).trans h.entry
      · exact hstored.mem_before _ (by omega)
    | succ i =>
      obtain ⟨p, hp, hstring⟩ := hstored.entries i g hg
      rw [Nat.add_right_comm] at hp
      exact ⟨p, hp, hstring⟩
  · exact (hstored.others i (by omega)).trans (h.others i (by omega))
  · exact (hstored.mem_before x (by omega)).trans (h.mem_before x hx)
  · rw [hstored.background, h.background]
    simp [hkept]

/-- The loop goes through the fields of the line, one turn each. -/
theorem createArgvLoop_eq {fields : List (List UInt8)} (hne : fields ≠ [])
    (hfields : ∀ field ∈ fields, 32 ∉ field)
    (hs : StringAt sh.mem (string + ptr) ([32].intercalate fields))
    (hturns : ([32].intercalate fields).length < turns) :
    ∃ sh', createArgvLoop string turns sh count ptr = some (count + (kept fields).length, sh') ∧
      Entered sh sh' count (kept fields).length ∧ Stored sh sh' (string + ptr) count fields := by
  induction fields generalizing sh turns count ptr with
  | nil => exact absurd rfl hne
  | cons field fields ih =>
    obtain ⟨turns, rfl⟩ := Nat.exists_eq_succ_of_ne_zero (Nat.ne_of_gt (Nat.zero_lt_of_lt hturns))
    have hfield := hfields field List.mem_cons_self
    obtain hamp | hkept := eq_or_ne field.head? (some 38)
    · -- the ampersand ends the command
      obtain ⟨sh', hloop, hentered, hmem, hbackground⟩ :=
        createArgvLoop_ampersand ((ampersand_iff_of_fields hs).mpr hamp)
      rw [kept_ampersand fields hamp]
      refine ⟨sh', hloop, hentered, ?_, ?_, fun x _ => by rw [hmem], ?_⟩
      · intro i f hf
        rw [kept_ampersand fields hamp] at hf
        cases hf
      · exact fun i hi => hentered.others i (.inl hi)
      · rw [if_pos ⟨field, List.mem_cons_self, hamp⟩, hbackground]
    · rw [kept_cons fields hkept, List.length_cons]
      cases fields with
      | nil =>
        rw [List.intercalate_singleton] at hs hturns
        obtain ⟨sh', hloop, hentered, hentry, hmem, hbackground⟩ :=
          createArgvLoop_last hs hfield hkept hturns
        refine ⟨sh', hloop, hentered, ?_, ?_, fun x _ => by rw [hmem], ?_⟩
        · intro i f hf
          rw [kept_cons [] hkept] at hf
          cases i with
          | zero =>
            cases hf
            exact ⟨string + ptr, hentry, hmem ▸ hs⟩
          | succ i => cases hf
        · exact fun i hi => hentered.others i (.inl hi)
        · rw [if_neg (by simp [hkept]), hbackground]
      | cons f fs =>
        rw [List.intercalate_cons_cons, List.append_assoc] at hs hturns
        simp only [List.length_append, List.length_singleton] at hturns
        have hturn : field.length < turns + 1 := by omega
        have hmore : ([32].intercalate (f :: fs)).length < turns := by omega
        obtain ⟨sh₁, ptr', hloop, hpassed⟩ := createArgvLoop_space count hs hfield hkept hturn
        obtain ⟨sh', hrec, hentered, hstored⟩ : ∃ sh',
            createArgvLoop string turns sh₁ (count + 1) ptr' =
              some (count + 1 + (kept (f :: fs)).length, sh') ∧
            Entered sh₁ sh' (count + 1) (kept (f :: fs)).length ∧
            Stored sh₁ sh' (string + ptr') (count + 1) (f :: fs) :=
          ih (List.cons_ne_nil f fs) (fun g hg => hfields g (List.mem_cons_of_mem _ hg))
            hpassed.rest hmore
        rw [Nat.add_assoc, Nat.add_comm 1] at hrec
        exact ⟨sh', hloop.trans hrec, hpassed.entered hentered, hpassed.stored hstored hkept⟩

/-! ## The table -/

theorem not_mem_of_mem_splitOn {s field : List UInt8} (h : field ∈ s.splitOn 32) : 32 ∉ field := by
  induction s generalizing field with
  | nil =>
    rw [List.splitOn_nil, List.mem_singleton] at h
    simp [h]
  | cons c s ih =>
    rw [List.splitOn_cons_eq_if_modifyHead] at h
    split at h
    next hc =>
      obtain rfl | hfield := List.mem_cons.mp h
      · simp
      · exact ih hfield
    next hc =>
      obtain ⟨f, fs, hfs⟩ := List.exists_cons_of_ne_nil (List.splitOn_ne_nil 32 s)
      rw [hfs] at h ih
      obtain rfl | hfield := List.mem_cons.mp h
      · have hf := ih List.mem_cons_self
        rw [List.mem_cons, not_or]
        exact ⟨fun heq => hc (by simp [heq]), hf⟩
      · exact ih (List.mem_cons_of_mem _ hfield)

/-- `create_argv` returns the number of kept fields, with `NULL` behind them. -/
theorem createArgv_eq {s : List UInt8} (hs : StringAt sh.mem string s) (hturns : s.length < turns) :
    ∃ sh', createArgv turns string sh = some (((kept (s.splitOn 32)).length : Int), sh') ∧
      Entered sh sh' 0 (kept (s.splitOn 32)).length ∧
      Stored { sh with background := 0 } sh' string 0 (s.splitOn 32) := by
  have hjoin : [32].intercalate (s.splitOn 32) = s := List.intercalate_splitOn 32
  rw [← hjoin] at hs hturns
  obtain ⟨sh', hloop, hentered, hstored⟩ : ∃ sh',
      createArgvLoop string turns { sh with background := 0 } 0 0 =
        some (0 + (kept (s.splitOn 32)).length, sh') ∧
      Entered { sh with background := 0 } sh' 0 (kept (s.splitOn 32)).length ∧
      Stored { sh with background := 0 } sh' (string + 0) 0 (s.splitOn 32) :=
    createArgvLoop_eq (List.splitOn_ne_nil 32 s) (fun _ => not_mem_of_mem_splitOn) hs hturns
  refine ⟨sh', ?_, ⟨hentered.last, hentered.others⟩, hstored⟩
  unfold createArgv
  rw [hloop, Option.map_some, Nat.zero_add]

theorem Entered.inTable {after : State} {n : Nat} (h : Entered sh after 0 n)
    (hn : n ≤ maxArguments - 1) : InTable sh after n := by
  refine ⟨?_, ?_, fun i hi => h.others i (.inr (by omega))⟩
  · unfold maxArguments at hn ⊢
    omega
  · simpa using h.last

/-- For every input line, `create_argv` returns a negative number or stays within the table
exactly when the line has at most 15 fields before its end or the first field that starts with
an ampersand. -/
theorem createArgv_iff (sh : State) (string turns : Nat) (s : List UInt8)
    (hs : StringAt sh.mem string s) (hturns : s.length < turns) :
    (∃ count sh', createArgv turns string sh = some (count, sh') ∧
      (count < 0 ∨ InTable sh sh' count)) ↔
      (kept (s.splitOn 32)).length ≤ maxArguments - 1 := by
  obtain ⟨after, hreturns, hentered, -⟩ := createArgv_eq hs hturns
  constructor
  · rintro ⟨count, sh', hcount, hlaw⟩
    cases hreturns.symm.trans hcount
    obtain hneg | htable := hlaw
    · omega
    · have hsmall := htable.small
      unfold maxArguments at hsmall ⊢
      omega
  · intro hfew
    exact ⟨_, after, hreturns, .inr (hentered.inTable hfew)⟩

/-- A line of a given text at address 0, before an empty table. -/
def lineOf (s : List UInt8) : State :=
  { mem := write (fun _ => 0) 0 s, arguments := fun _ => none, background := 0 }

/-- `ls -l &` has two arguments. -/
theorem createArgv_two : ∃ count sh',
    createArgv 9 0 (lineOf [108, 115, 32, 45, 108, 32, 38]) = some (count, sh') ∧
      (count < 0 ∨ InTable (lineOf [108, 115, 32, 45, 108, 32, 38]) sh' count) :=
  (createArgv_iff _ 0 9 [108, 115, 32, 45, 108, 32, 38] ⟨by simp, by decide, by decide⟩
    (by decide)).mpr (by decide)

/-- Sixteen words of one letter. -/
def sixteenWords : List UInt8 := (List.replicate 15 [97, 32]).flatten ++ [97]

/-- Sixteen words fill the table, and `NULL` is written behind it. -/
theorem createArgv_overflows : ¬ ∃ count sh',
    createArgv 32 0 (lineOf sixteenWords) = some (count, sh') ∧
      (count < 0 ∨ InTable (lineOf sixteenWords) sh' count) := by
  have hs : StringAt (lineOf sixteenWords).mem 0 sixteenWords :=
    ⟨by simp [sixteenWords], by decide, by decide⟩
  obtain ⟨after, hreturns, -, -⟩ := createArgv_eq hs (by decide : sixteenWords.length < 32)
  have hsixteen : (kept (sixteenWords.splitOn 32)).length = 16 := by decide
  rw [hsixteen] at hreturns
  rintro ⟨count, sh', hcount, hlaw⟩
  cases hreturns.symm.trans hcount
  obtain hneg | htable := hlaw
  · exact absurd hneg (by decide)
  · exact absurd htable.small (by decide)

/-! ## The fields -/

theorem length_kept_le (fields : List (List UInt8)) : (kept fields).length ≤ fields.length :=
  (List.takeWhile_prefix _).length_le

/-- For every input line with at most 15 fields, `create_argv` returns the number of fields before
the first that starts with an ampersand, stays within the table, leaves pointers to these fields
in order, and sets the flag exactly if there is such a field. -/
theorem createArgv_fields (sh : State) (string turns : Nat) (s : List UInt8)
    (hs : StringAt sh.mem string s) (hturns : s.length < turns)
    (hfew : (s.splitOn 32).length ≤ maxArguments - 1) :
    ∃ sh', createArgv turns string sh = some (((kept (s.splitOn 32)).length : Int), sh') ∧
      InTable sh sh' (kept (s.splitOn 32)).length ∧
      (∀ i field, (kept (s.splitOn 32))[i]? = some field →
        ∃ p, sh'.arguments i = some p ∧ StringAt sh'.mem p field) ∧
      sh'.background = if ∃ field ∈ s.splitOn (32 : UInt8), field.head? = some 38 then 1 else 0 := by
  obtain ⟨sh', hreturns, hentered, hstored⟩ := createArgv_eq hs hturns
  refine ⟨sh', hreturns, hentered.inTable ((length_kept_le _).trans hfew), ?_, hstored.background⟩
  intro i field hfield
  obtain ⟨p, hp, hstring⟩ := hstored.entries i field hfield
  rw [Nat.zero_add] at hp
  exact ⟨p, hp, hstring⟩

/-- ` ls  -l & x` has the fields of two spaces, and the ampersand in the middle. -/
theorem createArgv_fields_spaces : ∃ sh',
    createArgv 13 0 (lineOf [32, 108, 115, 32, 32, 45, 108, 32, 38, 32, 120]) = some (4, sh') ∧
      (∃ p, sh'.arguments 3 = some p ∧ StringAt sh'.mem p [45, 108]) ∧ sh'.background = 1 := by
  obtain ⟨sh', hreturns, -, hentries, hbackground⟩ := createArgv_fields
    (lineOf [32, 108, 115, 32, 32, 45, 108, 32, 38, 32, 120]) 0 13
    [32, 108, 115, 32, 32, 45, 108, 32, 38, 32, 120] ⟨by simp, by decide, by decide⟩ (by decide)
    (by decide)
  exact ⟨sh', hreturns, hentries 3 [45, 108] (by decide), hbackground.trans (by decide)⟩

end Vmwos.Shell
