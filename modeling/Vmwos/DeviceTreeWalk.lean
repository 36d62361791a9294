import Vmwos.DeviceTreeSearch

/-!
# The device tree walk in the blob

The only test of `totalsize` in the search stands between top-level nodes, behind the read of
the next word. The loops over a name, over the contents of a node and over a value run on
what they find in the blob.

The words that the functions read are listed beside the model, and the search depends on no others
(`devicetreeFindNodeProp_frame`). The walk goes through the structure block word after word, so it
stays in the blob when it comes to its end there: `Ends` follows the tokens of the block with the
nodes that are open.

Result: `walk_confined_iff`. For every blob with the right magic, the search terminates and
reads no word at or behind `totalsize` exactly when the tokens come to an end in the blob. In
a well-formed tree they do (`IsTree.endsInside`).
-/

namespace Vmwos.DeviceTree

open Bytes

/-! ## The words that are read -/

/-- The number of bytes that `strlcpy` reads, of which `k` have been read. -/
def copyCount (src : Mem) (a : Nat) : Nat → Nat → Nat
  | 0, k => k
  | turns + 1, k => if src (a + k) = 0 then k + 1 else copyCount src a turns (k + 1)

/-- The words from which the name of a node is copied. -/
def nameCopyReads (dt : DeviceTreeType) (i : Nat) : List Nat :=
  (List.range (copyCount dt.memory (wordAddr dt i) (dtStringMaxsize - 1) 0)).map fun k => i + k / 4

/-- The words of the loop to the end of the padding. -/
def skipNameReads (dt : DeviceTreeType) : Nat → Nat → List Nat
  | 0, _ => []
  | fuel + 1, i => i :: if word dt i &&& 0xff = 0 then [] else skipNameReads dt fuel (i + 1)

/-- The name that `dt_parse_node` copies from word `i` on. -/
def nameBuffer (dt : DeviceTreeType) (i : Nat) : Mem :=
  strlcpy (fun _ => 0) dt.memory (wordAddr dt i) dtStringMaxsize

/-- The tests of `dt_parse_prop` on the property with its length at word `i`. -/
def PropWanted (dt : DeviceTreeType) (nodeName : Mem) (node : Option Mem) (prop : Mem) (i : Nat) :
    Prop :=
  node.all (fun node => strncmp node nodeName dtStringMaxsize = 0) ∧
    strncmp (dtCopyString dt (word dt (i + 1)) dtStringMaxsize) prop dtStringMaxsize = 0

instance (dt : DeviceTreeType) (nodeName : Mem) (node : Option Mem) (prop : Mem) (i : Nat) :
    Decidable (PropWanted dt nodeName node prop i) := inferInstanceAs (Decidable (_ ∧ _))

/-- The words of a value with its length at word `i`. -/
def valueCount (dt : DeviceTreeType) (i : Nat) : Nat := ((word dt i + 3) / 4).toNat

/-- The words that `dt_parse_prop` reads: the length, the name and, unless the property is wanted,
the value. -/
def propReads (dt : DeviceTreeType) (nodeName : Mem) (node : Option Mem) (prop : Mem) (i : Nat) :
    List Nat :=
  i :: (i + 1) :: if PropWanted dt nodeName node prop i then []
    else (List.range (valueCount dt i)).map fun k => i + 2 + k

mutual

/-- The words that `dt_parse_node` reads. -/
def nodeReads (dt : DeviceTreeType) (node : Option Mem) (prop : Mem) : Nat → Nat → List Nat
  | 0, _ => []
  | fuel + 1, i =>
    i :: if word dt i ≠ fdtBeginNode then []
      else nameCopyReads dt (i + 1) ++ skipNameReads dt fuel (i + 1) ++
        (skipName dt fuel (i + 1)).elim [] fun j =>
          itemsReads dt node prop (nameBuffer dt (i + 1)) fuel j

/-- The words of the second loop of `dt_parse_node`. -/
def itemsReads (dt : DeviceTreeType) (node : Option Mem) (prop nodeName : Mem) :
    Nat → Nat → List Nat
  | 0, _ => []
  | fuel + 1, i =>
    i ::
      if word dt i = fdtNop then itemsReads dt node prop nodeName fuel (i + 1)
      else if word dt i = fdtProp then
        propReads dt nodeName node prop (i + 1) ++
          if (dtParseProp dt nodeName node prop (i + 1)).1 > 0 then []
          else itemsReads dt node prop nodeName fuel (dtParseProp dt nodeName node prop (i + 1)).2
      else if word dt i = fdtBeginNode then
        nodeReads dt node prop fuel i ++
          (dtParseNode dt node prop fuel i).elim [] fun r =>
            if r.1 > 0 then [] else itemsReads dt node prop nodeName fuel r.2
      else if word dt i = fdtEndNode then []
      else itemsReads dt node prop nodeName fuel (i + 1)

end

/-- The words of the loop of `devicetree_find_node_prop`. -/
def findLoopReads (dt : DeviceTreeType) (node : Option Mem) (prop : Mem) : Nat → Nat → List Nat
  | 0, _ => []
  | fuel + 1, i =>
    nodeReads dt node prop allWords i ++
      (dtParseNode dt node prop allWords i).elim [] fun r =>
        if r.1 > 0 then []
        else r.2 :: if word dt r.2 = fdtEnd then []
          else if dt.offStruct + UInt32.ofNat (r.2 * 4) > dt.totalsize then []
          else findLoopReads dt node prop fuel r.2

/-- The words that `devicetree_find_node_prop` reads. -/
def findReads (dt : DeviceTreeType) (node : Option Mem) (prop : Mem) : List Nat :=
  if dt.valid = 0 then [] else findLoopReads dt node prop allWords 0

/-- The word starts in the blob. -/
def Inside (dt : DeviceTreeType) (i : Nat) : Prop := wordAddr dt i < dt.totalsize.toNat

instance (dt : DeviceTreeType) (i : Nat) : Decidable (Inside dt i) :=
  inferInstanceAs (Decidable (_ < _))

/-- The search terminates, and every word that it reads starts in the blob. -/
def Confined (dt : DeviceTreeType) (node : Option Mem) (prop : Mem) : Prop :=
  (∃ r, devicetreeFindNodeProp dt node prop = some r) ∧ ∀ i ∈ findReads dt node prop, Inside dt i

/-! ## The tokens -/

/-- The padding of the name at word `i` ends before word `j`. -/
structure NameEnd (dt : DeviceTreeType) (i j : Nat) : Prop where
  lt : i < j
  last : word dt (j - 1) &&& 0xff = 0
  before : ∀ k, i ≤ k → k + 1 < j → word dt k &&& 0xff ≠ 0

/-- From word `i` on, inside nodes with their names at the given words, the innermost one first,
the tokens come to the end of the search, which reads no word behind `last`. -/
inductive Ends (dt : DeviceTreeType) (node : Option Mem) (prop : Mem) : List Nat → Nat → Nat → Prop
  /-- outside of all nodes, the first word that is not `FDT_BEGIN_NODE` -/
  | outside {i : Nat} : word dt i ≠ fdtBeginNode → Ends dt node prop [] i i
  | wanted {n i : Nat} {names : List Nat} : word dt i = fdtProp →
      PropWanted dt (nameBuffer dt n) node prop (i + 1) → Ends dt node prop (n :: names) i (i + 2)
  | prop {n i last : Nat} {names : List Nat} : word dt i = fdtProp →
      ¬PropWanted dt (nameBuffer dt n) node prop (i + 1) →
      Ends dt node prop (n :: names) (i + 3 + valueCount dt (i + 1)) last →
      Ends dt node prop (n :: names) i last
  | node {i j last : Nat} {names : List Nat} : word dt i = fdtBeginNode → NameEnd dt (i + 1) j →
      Ends dt node prop ((i + 1) :: names) j last → Ends dt node prop names i last
  | endNode {n i last : Nat} {names : List Nat} : word dt i = fdtEndNode →
      Ends dt node prop names (i + 1) last → Ends dt node prop (n :: names) i last
  /-- `FDT_NOP`, or a word that is no token -/
  | skip {n i last : Nat} {names : List Nat} : word dt i ≠ fdtProp → word dt i ≠ fdtBeginNode →
      word dt i ≠ fdtEndNode → Ends dt node prop (n :: names) (i + 1) last →
      Ends dt node prop (n :: names) i last

/-- The tokens come to the end of the search in the blob. -/
def EndsInside (dt : DeviceTreeType) (node : Option Mem) (prop : Mem) (names : List Nat)
    (i : Nat) : Prop :=
  ∃ last, Ends dt node prop names i last ∧ Inside dt last

variable {dt : DeviceTreeType} {node : Option Mem} {prop nodeName : Mem} {n i j last fuel : Nat}
  {names : List Nat}

theorem Inside.of_le (h : Inside dt last) (hle : i ≤ last) : Inside dt i := by
  unfold Inside wordAddr at *
  omega

theorem Inside.lt (h : Inside dt i) : i < 2 ^ 30 := by
  have htotal := dt.totalsize.toNat_lt
  unfold Inside wordAddr at h
  omega

/-- The search does not come to its end before where it is. -/
theorem Ends.le (h : Ends dt node prop names i last) : i ≤ last := by
  induction h with
  | outside => exact le_refl _
  | wanted => omega
  | prop _ _ _ ih => omega
  | node _ hname _ ih =>
    have hlt := hname.lt
    omega
  | endNode _ _ ih => omega
  | skip _ _ _ _ ih => omega

/-! ## Names -/

/-- The loop over the padding, one word further. -/
theorem nameEnd_iff : NameEnd dt i j ↔
    (word dt i &&& 0xff = 0 ∧ j = i + 1) ∨ (word dt i &&& 0xff ≠ 0 ∧ NameEnd dt (i + 1) j) := by
  constructor
  · rintro ⟨hlt, hlast, hbefore⟩
    rcases Nat.eq_or_lt_of_le (show i + 1 ≤ j from hlt) with rfl | hlt
    · exact .inl ⟨hlast, rfl⟩
    · exact .inr ⟨hbefore i (le_refl i) hlt, hlt, hlast,
        fun k hk => hbefore k (Nat.le_of_succ_le hk)⟩
  · rintro (⟨hlow, rfl⟩ | ⟨hlow, hlt, hlast, hbefore⟩)
    · exact ⟨Nat.lt_succ_self i, hlow, fun k hk hlt => absurd hlt (by omega)⟩
    · refine ⟨Nat.lt_of_succ_lt hlt, hlast, fun k hk hkj => ?_⟩
      rcases Nat.eq_or_lt_of_le hk with rfl | hk
      · exact hlow
      · exact hbefore k hk hkj

theorem nameEnd_of_skipName (h : skipName dt fuel i = some j) : NameEnd dt i j := by
  induction fuel generalizing i with
  | zero => exact absurd h (by simp [skipName])
  | succ fuel ih =>
    unfold skipName at h
    by_cases hlow : word dt i &&& 0xff = 0
    · rw [if_pos hlow] at h
      exact nameEnd_iff.mpr (.inl ⟨hlow, (Option.some.inj h).symm⟩)
    · rw [if_neg hlow] at h
      exact nameEnd_iff.mpr (.inr ⟨hlow, ih h⟩)

/-- The loop over the padding stops, and reads the words of the name only. -/
theorem NameEnd.skipName (h : NameEnd dt i j) (hfuel : j ≤ i + fuel) :
    skipName dt fuel i = some j ∧ ∀ k ∈ skipNameReads dt fuel i, k < j := by
  induction fuel generalizing i with
  | zero =>
    have hlt := h.lt
    omega
  | succ fuel ih =>
    unfold DeviceTree.skipName skipNameReads
    rcases nameEnd_iff.mp h with ⟨hlow, rfl⟩ | ⟨hlow, hrest⟩
    · rw [if_pos hlow, if_pos hlow]
      refine ⟨rfl, fun k hk => ?_⟩
      rw [List.mem_singleton.mp hk]
      exact Nat.lt_succ_self i
    · rw [if_neg hlow, if_neg hlow]
      obtain ⟨hskip, hreads⟩ := ih hrest (by omega)
      refine ⟨hskip, fun k hk => ?_⟩
      rcases List.mem_cons.mp hk with rfl | hk
      · exact h.lt
      · exact hreads k hk

/-- `strlcpy` stops at a NUL. -/
theorem copyCount_le {src : Mem} {a m k turns : Nat} (hnul : src (a + m) = 0) (hk : k ≤ m) :
    copyCount src a turns k ≤ m + 1 := by
  induction turns generalizing k with
  | zero =>
    unfold copyCount
    omega
  | succ turns ih =>
    unfold copyCount
    by_cases hzero : src (a + k) = 0
    · rw [if_pos hzero]
      omega
    · rw [if_neg hzero]
      have hne : k ≠ m := by
        rintro rfl
        exact hzero hnul
      exact ih (by omega)

/-- The copy of a name reads the words of the name only. -/
theorem NameEnd.copy (h : NameEnd dt i j) : ∀ k ∈ nameCopyReads dt i, k < j := by
  intro k hk
  obtain ⟨m, hm, rfl⟩ := List.mem_map.mp hk
  have hlt := h.lt
  have hnul : dt.memory (wordAddr dt i + (4 * (j - 1 - i) + 3)) = 0 := by
    have hlast := (word_low_eq_zero_iff dt (j - 1)).mp h.last
    have haddr : wordAddr dt i + (4 * (j - 1 - i) + 3) = wordAddr dt (j - 1) + 3 := by
      unfold wordAddr
      omega
    rw [haddr]
    exact hlast
  have hcount : m < 4 * (j - 1 - i) + 3 + 1 :=
    Nat.lt_of_lt_of_le (List.mem_range.mp hm) (copyCount_le hnul (Nat.zero_le _))
  omega

/-! ## Items -/

theorem dtParseProp_wanted (h : PropWanted dt nodeName node prop i) :
    dtParseProp dt nodeName node prop i = (UInt32.ofNat i, i + 1) := if_pos h

theorem dtParseProp_passed (h : ¬PropWanted dt nodeName node prop i) :
    dtParseProp dt nodeName node prop i = (0, i + 2 + valueCount dt i) := if_neg h

theorem dtParseItems_skip (hprop : word dt i ≠ fdtProp) (hbegin : word dt i ≠ fdtBeginNode)
    (hend : word dt i ≠ fdtEndNode) :
    dtParseItems dt node prop nodeName (fuel + 1) i =
        dtParseItems dt node prop nodeName fuel (i + 1) ∧
      itemsReads dt node prop nodeName (fuel + 1) i =
        i :: itemsReads dt node prop nodeName fuel (i + 1) := by
  rw [dtParseItems, itemsReads]
  by_cases hnop : word dt i = fdtNop
  · simp only [if_pos hnop, and_self]
  · simp only [if_neg hnop, if_neg hprop, if_neg hbegin, if_neg hend, and_self]

theorem dtParseItems_wanted (hprop : word dt i = fdtProp)
    (hwanted : PropWanted dt nodeName node prop (i + 1)) (hlt : i < 2 ^ 30) :
    dtParseItems dt node prop nodeName (fuel + 1) i = some (UInt32.ofNat (i + 1), i + 2) ∧
      itemsReads dt node prop nodeName (fuel + 1) i = [i, i + 1, i + 2] ∧
      UInt32.ofNat (i + 1) > 0 := by
  have hpos : UInt32.ofNat (i + 1) > 0 := by
    rw [gt_iff_lt, UInt32.lt_iff_toNat_lt,
      UInt32.toNat_ofNat_of_lt' (show i + 1 < 2 ^ 32 by omega)]
    exact Nat.succ_pos i
  have hnop : ¬fdtProp = fdtNop := by decide
  rw [dtParseItems, itemsReads, propReads]
  simp only [hprop, if_neg hnop, if_true, dtParseProp_wanted hwanted, if_pos hpos, if_pos hwanted]
  exact ⟨trivial, rfl, hpos⟩

theorem dtParseItems_passed (hprop : word dt i = fdtProp)
    (hwanted : ¬PropWanted dt nodeName node prop (i + 1)) :
    dtParseItems dt node prop nodeName (fuel + 1) i =
        dtParseItems dt node prop nodeName fuel (i + 3 + valueCount dt (i + 1)) ∧
      itemsReads dt node prop nodeName (fuel + 1) i =
        i :: propReads dt nodeName node prop (i + 1) ++
          itemsReads dt node prop nodeName fuel (i + 3 + valueCount dt (i + 1)) := by
  have hzero : ¬(0 : UInt32) > 0 := by decide
  have hnop : ¬fdtProp = fdtNop := by decide
  have hnext : i + 1 + 2 + valueCount dt (i + 1) = i + 3 + valueCount dt (i + 1) := by omega
  rw [dtParseItems, itemsReads]
  simp only [hprop, if_neg hnop, if_true, dtParseProp_passed hwanted, if_neg hzero, hnext]
  exact ⟨trivial, rfl⟩

theorem dtParseItems_node (hbegin : word dt i = fdtBeginNode) :
    dtParseItems dt node prop nodeName (fuel + 1) i =
        ((dtParseNode dt node prop fuel i).bind fun r =>
          if r.1 > 0 then some r else dtParseItems dt node prop nodeName fuel r.2) ∧
      itemsReads dt node prop nodeName (fuel + 1) i =
        i :: nodeReads dt node prop fuel i ++
          (dtParseNode dt node prop fuel i).elim [] fun r =>
            if r.1 > 0 then [] else itemsReads dt node prop nodeName fuel r.2 := by
  have hnop : ¬fdtBeginNode = fdtNop := by decide
  have hprop : ¬fdtBeginNode = fdtProp := by decide
  rw [dtParseItems, itemsReads]
  simp only [hbegin, if_neg hnop, if_neg hprop, if_true]
  exact ⟨trivial, rfl⟩

theorem dtParseItems_endNode (hend : word dt i = fdtEndNode) :
    dtParseItems dt node prop nodeName (fuel + 1) i = some (0, i + 1) ∧
      itemsReads dt node prop nodeName (fuel + 1) i = [i] := by
  have hnop : ¬fdtEndNode = fdtNop := by decide
  have hprop : ¬fdtEndNode = fdtProp := by decide
  have hbegin : ¬fdtEndNode = fdtBeginNode := by decide
  rw [dtParseItems, itemsReads]
  simp only [hend, if_neg hnop, if_neg hprop, if_neg hbegin, if_true, and_self]

theorem dtParseNode_begin (hbegin : word dt i = fdtBeginNode) :
    dtParseNode dt node prop (fuel + 1) i =
        ((skipName dt fuel (i + 1)).bind fun j =>
          dtParseItems dt node prop (nameBuffer dt (i + 1)) fuel j) ∧
      nodeReads dt node prop (fuel + 1) i =
        i :: nameCopyReads dt (i + 1) ++ skipNameReads dt fuel (i + 1) ++
          (skipName dt fuel (i + 1)).elim [] fun j =>
            itemsReads dt node prop (nameBuffer dt (i + 1)) fuel j := by
  rw [dtParseNode, nodeReads]
  rw [if_neg (not_not.mpr hbegin), if_neg (not_not.mpr hbegin)]
  exact ⟨rfl, rfl⟩

theorem dtParseNode_other (hbegin : word dt i ≠ fdtBeginNode) :
    dtParseNode dt node prop (fuel + 1) i = some (-1, i + 1) ∧
      nodeReads dt node prop (fuel + 1) i = [i] := by
  rw [dtParseNode, nodeReads]
  rw [if_pos hbegin, if_pos hbegin]
  exact ⟨rfl, rfl⟩

/-! ## The search depends on these words -/

section Frame

variable {m : Mem}

/-- The memory `m` has the same bytes at a word. -/
def SameWord (dt : DeviceTreeType) (m : Mem) (i : Nat) : Prop :=
  ∀ b < 4, m (wordAddr dt i + b) = dt.memory (wordAddr dt i + b)

/-- The memory `m` has the same names of properties. -/
def SameStrings (dt : DeviceTreeType) (m : Mem) : Prop :=
  ∀ offset, dtCopyString { dt with memory := m } offset dtStringMaxsize =
    dtCopyString dt offset dtStringMaxsize

theorem SameWord.word (h : SameWord dt m i) : word { dt with memory := m } i = word dt i := by
  have hread : read m (wordAddr dt i) 4 = read dt.memory (wordAddr dt i) 4 := by
    have hzero : m (wordAddr dt i) = dt.memory (wordAddr dt i) := h 0 (by decide)
    rw [read_four, read_four, hzero, h 1 (by decide), h 2 (by decide), h 3 (by decide)]
  rw [word_eq, word_eq]
  exact congrArg ofBe hread

theorem skipName_frame (h : ∀ k ∈ skipNameReads dt fuel i, SameWord dt m k) :
    skipName { dt with memory := m } fuel i = skipName dt fuel i := by
  induction fuel generalizing i with
  | zero => rfl
  | succ fuel ih =>
    rw [skipNameReads, List.forall_mem_cons] at h
    rw [skipName, skipName, h.1.word]
    split
    · rfl
    · next hlow =>
      rw [if_neg hlow] at h
      exact ih h.2

theorem le_copyCount (src : Mem) (a turns k : Nat) : k ≤ copyCount src a turns k := by
  induction turns generalizing k with
  | zero => exact le_refl k
  | succ turns ih =>
    rw [copyCount]
    split
    · exact Nat.le_succ k
    · exact Nat.le_of_succ_le (ih (k + 1))

theorem strlcpyLoop_frame {src src' : Mem} {a turns k : Nat} (dest : Mem)
    (h : ∀ l, k ≤ l → l < copyCount src a turns k → src' (a + l) = src (a + l)) :
    strlcpyLoop src' a turns k dest = strlcpyLoop src a turns k dest := by
  induction turns generalizing k dest with
  | zero => rfl
  | succ turns ih =>
    have hlt : k < copyCount src a (turns + 1) k := by
      rw [copyCount]
      split
      · exact Nat.lt_succ_self k
      · exact le_copyCount src a turns (k + 1)
    rw [strlcpyLoop, strlcpyLoop, h k (le_refl k) hlt]
    split
    · rfl
    · next hnul =>
      rw [copyCount, if_neg hnul] at h
      exact ih _ fun l hl => h l (Nat.le_of_succ_le hl)

theorem nameBuffer_frame (h : ∀ k ∈ nameCopyReads dt i, SameWord dt m k) :
    nameBuffer { dt with memory := m } i = nameBuffer dt i := by
  refine strlcpyLoop_frame _ fun l _ hl => ?_
  have hsame := h (i + l / 4) (List.mem_map.mpr ⟨l, List.mem_range.mpr hl, rfl⟩)
  have haddr : wordAddr dt i + l = wordAddr dt (i + l / 4) + l % 4 := by
    unfold wordAddr
    omega
  show m (wordAddr dt i + l) = dt.memory (wordAddr dt i + l)
  rw [haddr]
  exact hsame _ (Nat.mod_lt l (by decide))

theorem dtParseProp_frame (hstrings : SameStrings dt m)
    (h : ∀ k ∈ propReads dt nodeName node prop i, SameWord dt m k) :
    dtParseProp { dt with memory := m } nodeName node prop i =
      dtParseProp dt nodeName node prop i := by
  rw [propReads, List.forall_mem_cons, List.forall_mem_cons] at h
  have hname := hstrings (word dt (i + 1))
  unfold dtParseProp
  simp only [h.1.word, h.2.1.word, hname]

/-- Parsing a node, when parsing its items is known. -/
theorem dtParseNode_frame_succ
    (hitems : ∀ nodeName i, (∀ k ∈ itemsReads dt node prop nodeName fuel i, SameWord dt m k) →
      dtParseItems { dt with memory := m } node prop nodeName fuel i =
        dtParseItems dt node prop nodeName fuel i)
    (h : ∀ k ∈ nodeReads dt node prop (fuel + 1) i, SameWord dt m k) :
    dtParseNode { dt with memory := m } node prop (fuel + 1) i =
      dtParseNode dt node prop (fuel + 1) i := by
  have hword : word { dt with memory := m } i = word dt i :=
    (h i (by rw [nodeReads]; exact List.mem_cons_self)).word
  by_cases hbegin : word dt i = fdtBeginNode
  · rw [(dtParseNode_begin hbegin).2] at h
    rw [(dtParseNode_begin hbegin).1, (dtParseNode_begin (hword.trans hbegin)).1,
      skipName_frame fun k hk => h k (by simp [hk]),
      nameBuffer_frame fun k hk => h k (by simp [hk])]
    cases hskip : skipName dt fuel (i + 1) with
    | none => rw [Option.bind_none, Option.bind_none]
    | some j =>
      rw [hskip] at h
      exact hitems _ j fun k hk => h k (List.mem_append_right _ hk)
  · rw [(dtParseNode_other hbegin).1, (dtParseNode_other (hword.trans_ne hbegin)).1]

/-- Parsing the items of a node, when parsing the nodes in it and the items behind is known. -/
theorem dtParseItems_frame_succ (hstrings : SameStrings dt m)
    (hnodes : ∀ i, (∀ k ∈ nodeReads dt node prop fuel i, SameWord dt m k) →
      dtParseNode { dt with memory := m } node prop fuel i = dtParseNode dt node prop fuel i)
    (hitems : ∀ i, (∀ k ∈ itemsReads dt node prop nodeName fuel i, SameWord dt m k) →
      dtParseItems { dt with memory := m } node prop nodeName fuel i =
        dtParseItems dt node prop nodeName fuel i)
    (h : ∀ k ∈ itemsReads dt node prop nodeName (fuel + 1) i, SameWord dt m k) :
    dtParseItems { dt with memory := m } node prop nodeName (fuel + 1) i =
      dtParseItems dt node prop nodeName (fuel + 1) i := by
  have hword : word { dt with memory := m } i = word dt i :=
    (h i (by rw [itemsReads]; exact List.mem_cons_self)).word
  have hnop : ¬fdtProp = fdtNop := by decide
  by_cases hprop : word dt i = fdtProp
  · rw [itemsReads] at h
    rw [dtParseItems, dtParseItems, hword]
    simp only [hprop, if_neg hnop, if_true] at h ⊢
    rw [dtParseProp_frame hstrings fun k hk => h k (by simp [hk])]
    split
    · rfl
    · next hnot =>
      rw [if_neg hnot] at h
      exact hitems _ fun k hk => h k (by simp [hk])
  by_cases hbegin : word dt i = fdtBeginNode
  · rw [(dtParseItems_node hbegin).2] at h
    rw [(dtParseItems_node hbegin).1, (dtParseItems_node (hword.trans hbegin)).1,
      hnodes i fun k hk => h k (by simp [hk])]
    cases hinner : dtParseNode dt node prop fuel i with
    | none => rw [Option.bind_none, Option.bind_none]
    | some r =>
      rw [hinner] at h
      simp only [Option.bind_some]
      split
      · rfl
      · next hnot =>
        rw [Option.elim_some, if_neg hnot] at h
        exact hitems _ fun k hk => h k (List.mem_append_right _ hk)
  by_cases hend : word dt i = fdtEndNode
  · rw [(dtParseItems_endNode hend).1, (dtParseItems_endNode (hword.trans hend)).1]
  · rw [(dtParseItems_skip hprop hbegin hend).2, List.forall_mem_cons] at h
    rw [(dtParseItems_skip hprop hbegin hend).1, (dtParseItems_skip (hword.trans_ne hprop)
      (hword.trans_ne hbegin) (hword.trans_ne hend)).1]
    exact hitems _ h.2

/-- With the same words the functions return the same. -/
theorem parse_frame (hstrings : SameStrings dt m) (fuel : Nat) :
    (∀ i, (∀ k ∈ nodeReads dt node prop fuel i, SameWord dt m k) →
      dtParseNode { dt with memory := m } node prop fuel i = dtParseNode dt node prop fuel i) ∧
    ∀ nodeName i, (∀ k ∈ itemsReads dt node prop nodeName fuel i, SameWord dt m k) →
      dtParseItems { dt with memory := m } node prop nodeName fuel i =
        dtParseItems dt node prop nodeName fuel i := by
  induction fuel with
  | zero => exact ⟨fun _ _ => by rw [dtParseNode, dtParseNode],
      fun _ _ _ => by rw [dtParseItems, dtParseItems]⟩
  | succ fuel ih =>
    obtain ⟨ihNode, ihItems⟩ := ih
    exact ⟨fun i h => dtParseNode_frame_succ ihItems h,
      fun nodeName i h => dtParseItems_frame_succ hstrings ihNode (ihItems nodeName) h⟩

theorem findLoop_frame (hstrings : SameStrings dt m)
    (h : ∀ k ∈ findLoopReads dt node prop fuel i, SameWord dt m k) :
    findLoop { dt with memory := m } node prop fuel i = findLoop dt node prop fuel i := by
  induction fuel generalizing i with
  | zero => rfl
  | succ fuel ih =>
    have hparse : (∀ k ∈ nodeReads dt node prop allWords i, SameWord dt m k) →
        dtParseNode { dt with memory := m } node prop allWords i =
          dtParseNode dt node prop allWords i := (parse_frame hstrings allWords).1 i
    rw [findLoopReads] at h
    rw [findLoop, findLoop]
    generalize allWords = words at h hparse ⊢
    rw [hparse fun k hk => h k (List.mem_append_left _ hk)]
    cases hinner : dtParseNode dt node prop words i with
    | none => rw [Option.bind_none, Option.bind_none]
    | some r =>
      rw [hinner, Option.elim_some] at h
      simp only [Option.bind_some]
      by_cases hfound : r.1 > 0
      · rw [if_pos hfound, if_pos hfound]
      · rw [if_neg hfound] at h
        have hnext := fun k hk => h k (List.mem_append_right _ hk)
        rw [List.forall_mem_cons] at hnext
        rw [if_neg hfound, if_neg hfound, hnext.1.word]
        split
        · rfl
        · next hmore =>
          rw [if_neg hmore] at hnext
          split
          · rfl
          · next hinside =>
            rw [if_neg hinside] at hnext
            exact ih hnext.2

/-- The search reads nothing else: in any memory that has the same bytes at the words of the list,
and the same names of properties, its result is the same. -/
theorem devicetreeFindNodeProp_frame (hstrings : SameStrings dt m)
    (h : ∀ k ∈ findReads dt node prop, SameWord dt m k) :
    devicetreeFindNodeProp { dt with memory := m } node prop =
      devicetreeFindNodeProp dt node prop := by
  unfold findReads at h
  unfold devicetreeFindNodeProp
  simp only
  split
  · rfl
  · next hvalid =>
    rw [if_neg hvalid] at h
    exact findLoop_frame hstrings h

end Frame

/-- The words of a property that is passed lie before the next token. -/
theorem mem_propReads {k : Nat} (hwanted : ¬PropWanted dt nodeName node prop i)
    (hk : k ∈ propReads dt nodeName node prop i) : k < i + 2 + valueCount dt i := by
  unfold propReads at hk
  rw [if_neg hwanted] at hk
  rcases List.mem_cons.mp hk with rfl | hk
  · omega
  rcases List.mem_cons.mp hk with rfl | hk
  · omega
  obtain ⟨m, hm, rfl⟩ := List.mem_map.mp hk
  have hlt := List.mem_range.mp hm
  omega

/-! ## A block that comes to an end -/

/-- A function that is called at word `i` returns and reads nothing behind `last`. If it found
nothing, the search ends with `last` from behind the words that it passed. -/
def Follows (dt : DeviceTreeType) (node : Option Mem) (prop : Mem) (names : List Nat)
    (i last : Nat) (result : Option (UInt32 × Nat)) (reads : List Nat) : Prop :=
  ∃ r, result = some r ∧ (∀ k ∈ reads, k ≤ last) ∧
    (¬r.1 > 0 → i < r.2 ∧ Ends dt node prop names r.2 last)

/-- A call that follows words that it passes. -/
theorem Follows.after {result : Option (UInt32 × Nat)} {reads passed : List Nat}
    (h : Follows dt node prop names j last result reads) (hle : i ≤ j)
    (hpassed : ∀ k ∈ passed, k ≤ last) :
    Follows dt node prop names i last result (passed ++ reads) := by
  obtain ⟨r, hresult, hreads, hnext⟩ := h
  refine ⟨r, hresult, fun k hk => ?_, fun hr => ?_⟩
  · rcases List.mem_append.mp hk with hk | hk
    · exact hpassed k hk
    · exact hreads k hk
  · obtain ⟨hlt, hends⟩ := hnext hr
    exact ⟨by omega, hends⟩

/-- A node goes on behind its name. -/
theorem Ends.behind_name (h : Ends dt node prop names i last) (hbegin : word dt i = fdtBeginNode) :
    ∃ j, NameEnd dt (i + 1) j ∧ Ends dt node prop ((i + 1) :: names) j last := by
  cases h with
  | outside hword => exact absurd hbegin hword
  | wanted hword => exact absurd (hbegin.symm.trans hword) (by decide)
  | prop hword => exact absurd (hbegin.symm.trans hword) (by decide)
  | node _ hname hrest => exact ⟨_, hname, hrest⟩
  | endNode hword => exact absurd (hbegin.symm.trans hword) (by decide)
  | skip _ hword => exact absurd hbegin hword

section Following

variable (hitems : ∀ n names i, Ends dt node prop (n :: names) i last → last < i + fuel →
    Follows dt node prop names i last (dtParseItems dt node prop (nameBuffer dt n) fuel i)
      (itemsReads dt node prop (nameBuffer dt n) fuel i))
include hitems

/-- One call of `dt_parse_node`. -/
theorem follows_node (h : Ends dt node prop names i last) (hbegin : word dt i = fdtBeginNode)
    (hfuel : last < i + fuel + 2) :
    Follows dt node prop names i last (dtParseNode dt node prop (fuel + 1) i)
      (nodeReads dt node prop (fuel + 1) i) := by
  obtain ⟨j, hname, hrest⟩ := h.behind_name hbegin
  have hlt := hname.lt
  have hle := hrest.le
  obtain ⟨hskip, hskipReads⟩ := hname.skipName (show j ≤ i + 1 + fuel by omega)
  obtain ⟨hnode, hreads⟩ := dtParseNode_begin hbegin
  rw [hnode, hreads, hskip, Option.bind_some, Option.elim_some]
  refine (hitems _ _ _ hrest (by omega)).after (show i ≤ j by omega) fun k hk => ?_
  rcases List.mem_append.mp hk with hk | hk
  · rcases List.mem_cons.mp hk with rfl | hk
    · omega
    · have hcopy := hname.copy k hk
      omega
  · have hpadding := hskipReads k hk
    omega

/-- One turn of the loop over what a node contains. -/
theorem follows_item (hnode : ∀ names i, Ends dt node prop names i last →
      word dt i = fdtBeginNode → last < i + fuel + 1 →
      Follows dt node prop names i last (dtParseNode dt node prop fuel i)
        (nodeReads dt node prop fuel i))
    (hinside : Inside dt last) (h : Ends dt node prop (n :: names) i last)
    (hfuel : last < i + fuel + 1) :
    Follows dt node prop names i last
      (dtParseItems dt node prop (nameBuffer dt n) (fuel + 1) i)
      (itemsReads dt node prop (nameBuffer dt n) (fuel + 1) i) := by
  have hle := h.le
  have hfirst : ∀ k ∈ [i], k ≤ last := by
    intro k hk
    rw [List.mem_singleton.mp hk]
    exact hle
  have hbounds := hinside.lt
  have hends := h
  cases hends with
  | wanted hprop hwanted =>
    obtain ⟨hparse, hreads, hpos⟩ := dtParseItems_wanted hprop hwanted (by omega)
    rw [hparse, hreads]
    refine ⟨_, rfl, fun k hk => ?_, fun hr => absurd hpos hr⟩
    simp only [List.mem_cons, List.not_mem_nil, or_false] at hk
    omega
  | prop hprop hwanted hrest =>
    obtain ⟨hparse, hreads⟩ := dtParseItems_passed hprop hwanted
    have hend := hrest.le
    rw [hparse, hreads]
    refine (hitems _ _ _ hrest (by omega)).after (by omega) fun k hk => ?_
    rcases List.mem_cons.mp hk with rfl | hk
    · exact hle
    · have hvalue := mem_propReads hwanted hk
      omega
  | node hbegin =>
    obtain ⟨hparse, hreads⟩ := dtParseItems_node hbegin
    obtain ⟨r, hresult, hnodeReads, hnext⟩ := hnode _ _ h hbegin hfuel
    rw [hparse, hreads, hresult, Option.bind_some, Option.elim_some]
    have hpassed : ∀ k ∈ i :: nodeReads dt node prop fuel i, k ≤ last := by
      intro k hk
      rcases List.mem_cons.mp hk with rfl | hk
      · exact hle
      · exact hnodeReads k hk
    by_cases hr : r.1 > 0
    · rw [if_pos hr, if_pos hr, List.append_nil]
      exact ⟨r, rfl, hpassed, fun h => absurd hr h⟩
    · rw [if_neg hr, if_neg hr]
      obtain ⟨hlt, hrest⟩ := hnext hr
      exact (hitems _ _ _ hrest (by omega)).after (Nat.le_of_lt hlt) hpassed
  | endNode hend hrest =>
    obtain ⟨hparse, hreads⟩ := dtParseItems_endNode hend
    rw [hparse, hreads]
    exact ⟨_, rfl, hfirst, fun _ => ⟨Nat.lt_succ_self i, hrest⟩⟩
  | skip hprop hbegin hend hrest =>
    obtain ⟨hparse, hreads⟩ := dtParseItems_skip hprop hbegin hend
    rw [hparse, hreads]
    exact (hitems _ _ _ hrest (by omega)).after (Nat.le_succ i) hfirst

end Following

/-- The recursion of `dt_parse_node`. A call at word `i` has a turn for every word up to the
end. -/
theorem follows (hinside : Inside dt last) (fuel : Nat) :
    (∀ n names i, Ends dt node prop (n :: names) i last → last < i + fuel →
      Follows dt node prop names i last (dtParseItems dt node prop (nameBuffer dt n) fuel i)
        (itemsReads dt node prop (nameBuffer dt n) fuel i)) ∧
    ∀ names i, Ends dt node prop names i last → word dt i = fdtBeginNode →
      last < i + fuel + 1 →
      Follows dt node prop names i last (dtParseNode dt node prop fuel i)
        (nodeReads dt node prop fuel i) := by
  induction fuel with
  | zero =>
    refine ⟨fun n names i h hfuel => ?_, fun names i h hbegin hfuel => ?_⟩
    · exact absurd h.le (by omega)
    · obtain ⟨j, hname, hrest⟩ := h.behind_name hbegin
      have hlt := hname.lt
      exact absurd hrest.le (by omega)
  | succ fuel ih =>
    exact ⟨fun n names i h hfuel => follows_item ih.1 ih.2 hinside h hfuel,
      fun names i h hbegin hfuel => follows_node ih.1 h hbegin hfuel⟩

/-- The test of `totalsize` does not stop the search in the blob. -/
theorem Inside.not_past (h : Inside dt i) :
    ¬dt.offStruct + UInt32.ofNat (i * 4) > dt.totalsize := by
  have htotal := dt.totalsize.toNat_lt
  unfold Inside wordAddr at h
  rw [gt_iff_lt, UInt32.lt_iff_toNat_lt, UInt32.toNat_add,
    UInt32.toNat_ofNat_of_lt' (show i * 4 < 2 ^ 32 by omega)]
  omega

/-- The words that a search has read lie in the blob. -/
theorem findLoop_of_ends (hinside : Inside dt last) (h : Ends dt node prop [] i last)
    (hfuel : last < i + fuel) :
    (∃ r, findLoop dt node prop fuel i = some r) ∧
      ∀ k ∈ findLoopReads dt node prop fuel i, k ≤ last := by
  induction fuel generalizing i with
  | zero => exact absurd h.le (by omega)
  | succ fuel ih =>
    have hlast := hinside.lt
    rw [findLoop, findLoopReads]
    by_cases hbegin : word dt i = fdtBeginNode
    · have hallWords : last < i + allWords + 1 := by
        unfold allWords
        omega
      obtain ⟨r, hnode, hreads, hnext⟩ := (follows hinside allWords).2 _ _ h hbegin hallWords
      rw [hnode, Option.bind_some, Option.elim_some]
      by_cases hr : r.1 > 0
      · simp only [if_pos hr, List.append_nil]
        exact ⟨⟨_, rfl⟩, hreads⟩
      · obtain ⟨hlt, hrest⟩ := hnext hr
        have hle := hrest.le
        have hinsideNext : Inside dt r.2 := hinside.of_le hle
        have hpassed : ∀ k ∈ nodeReads dt node prop allWords i ++ [r.2], k ≤ last := by
          intro k hk
          rcases List.mem_append.mp hk with hk | hk
          · exact hreads k hk
          · rw [List.mem_singleton.mp hk]
            exact hle
        simp only [if_neg hr, if_neg hinsideNext.not_past]
        by_cases hend : word dt r.2 = fdtEnd
        · rw [if_pos hend, if_pos hend]
          exact ⟨⟨_, rfl⟩, hpassed⟩
        · rw [if_neg hend, if_neg hend]
          obtain ⟨hfinds, hloopReads⟩ := ih hrest (by omega)
          refine ⟨hfinds, fun k hk => ?_⟩
          rw [← List.singleton_append, ← List.append_assoc] at hk
          rcases List.mem_append.mp hk with hk | hk
          · exact hpassed k hk
          · exact hloopReads k hk
    · have hpos : (-1 : UInt32) > 0 := by decide
      obtain ⟨hnode, hreads⟩ := dtParseNode_other hbegin
      rw [allWords_eq, hnode, hreads, Option.bind_some,
        Option.elim_some]
      simp only [if_pos hpos, List.append_nil]
      refine ⟨⟨_, rfl⟩, fun k hk => ?_⟩
      rw [List.mem_singleton.mp hk]
      exact h.le

/-! ## A search that stays in the blob -/

/-- If a function that is called at word `i` inside the nodes `names` returns inside the nodes
`outer`, has read words of the blob only and found nothing, the tokens between are in order. -/
def Passes (dt : DeviceTreeType) (node : Option Mem) (prop : Mem) (names outer : List Nat)
    (i : Nat) (result : Option (UInt32 × Nat)) (reads : List Nat) : Prop :=
  ∀ r, result = some r → (∀ k ∈ reads, Inside dt k) →
    (¬r.1 > 0 → EndsInside dt node prop outer r.2) → EndsInside dt node prop names i

section Passing

variable (hitems : ∀ n names i, Passes dt node prop (n :: names) names i
    (dtParseItems dt node prop (nameBuffer dt n) fuel i)
    (itemsReads dt node prop (nameBuffer dt n) fuel i))
include hitems

theorem passes_node (hbegin : word dt i = fdtBeginNode) :
    Passes dt node prop names names i (dtParseNode dt node prop (fuel + 1) i)
      (nodeReads dt node prop (fuel + 1) i) := by
  intro r hresult hreads hnext
  obtain ⟨hnode, hnodeReads⟩ := dtParseNode_begin hbegin
  rw [hnode] at hresult
  rw [hnodeReads] at hreads
  obtain ⟨j, hskip, hresult⟩ := Option.bind_eq_some_iff.mp hresult
  rw [hskip, Option.elim_some] at hreads
  obtain ⟨last, hends, hinside⟩ := hitems _ _ _ r hresult
    (fun k hk => hreads k (List.mem_append_right _ hk)) hnext
  exact ⟨last, .node hbegin (nameEnd_of_skipName hskip) hends, hinside⟩

theorem passes_item (hnode : ∀ names i, word dt i = fdtBeginNode →
      Passes dt node prop names names i (dtParseNode dt node prop fuel i)
        (nodeReads dt node prop fuel i)) :
    Passes dt node prop (n :: names) names i
      (dtParseItems dt node prop (nameBuffer dt n) (fuel + 1) i)
      (itemsReads dt node prop (nameBuffer dt n) (fuel + 1) i) := by
  intro r hresult hreads hnext
  by_cases hprop : word dt i = fdtProp
  · by_cases hwanted : PropWanted dt (nameBuffer dt n) node prop (i + 1)
    · have hfirst : Inside dt i := hreads i (by rw [itemsReads]; exact List.mem_cons_self)
      obtain ⟨hparse, hitemReads, _⟩ := dtParseItems_wanted hprop hwanted hfirst.lt
      rw [hitemReads] at hreads
      exact ⟨i + 2, .wanted hprop hwanted, hreads _ (by simp)⟩
    · obtain ⟨hparse, hitemReads⟩ := dtParseItems_passed hprop hwanted
      rw [hparse] at hresult
      rw [hitemReads] at hreads
      obtain ⟨last, hends, hinside⟩ := hitems _ _ _ r hresult
        (fun k hk => hreads k (List.mem_append_right _ hk)) hnext
      exact ⟨last, .prop hprop hwanted hends, hinside⟩
  by_cases hbegin : word dt i = fdtBeginNode
  · obtain ⟨hparse, hitemReads⟩ := dtParseItems_node hbegin
    rw [hparse] at hresult
    rw [hitemReads] at hreads
    obtain ⟨r', hinner, hresult⟩ := Option.bind_eq_some_iff.mp hresult
    rw [hinner, Option.elim_some] at hreads
    -- what is not found in the inner node is looked for behind it
    refine hnode _ _ hbegin r' hinner (fun k hk => hreads k (List.mem_append_left _
      (List.mem_cons_of_mem _ hk))) fun hr => ?_
    rw [if_neg hr] at hresult hreads
    exact hitems _ _ _ r hresult (fun k hk => hreads k (List.mem_append_right _ hk)) hnext
  by_cases hend : word dt i = fdtEndNode
  · obtain ⟨hparse, _⟩ := dtParseItems_endNode hend
    rw [hparse] at hresult
    cases hresult
    obtain ⟨last, hends, hinside⟩ := hnext (by simp)
    exact ⟨last, .endNode hend hends, hinside⟩
  · obtain ⟨hparse, hitemReads⟩ := dtParseItems_skip hprop hbegin hend
    rw [hparse] at hresult
    rw [hitemReads] at hreads
    obtain ⟨last, hends, hinside⟩ := hitems _ _ _ r hresult
      (fun k hk => hreads k (List.mem_cons_of_mem _ hk)) hnext
    exact ⟨last, .skip hprop hbegin hend hends, hinside⟩

end Passing

theorem passes (fuel : Nat) :
    (∀ n names i, Passes dt node prop (n :: names) names i
      (dtParseItems dt node prop (nameBuffer dt n) fuel i)
      (itemsReads dt node prop (nameBuffer dt n) fuel i)) ∧
    ∀ names i, word dt i = fdtBeginNode →
      Passes dt node prop names names i (dtParseNode dt node prop fuel i)
        (nodeReads dt node prop fuel i) := by
  induction fuel with
  | zero =>
    refine ⟨fun n names i r hresult => ?_, fun names i _ r hresult => ?_⟩
    · exact absurd hresult (by simp [dtParseItems])
    · exact absurd hresult (by simp [dtParseNode])
  | succ fuel ih =>
    exact ⟨fun n names i => passes_item ih.1 ih.2, fun names i hbegin => passes_node ih.1 hbegin⟩

theorem endsInside_of_findLoop {r : UInt32} (h : findLoop dt node prop fuel i = some r)
    (hreads : ∀ k ∈ findLoopReads dt node prop fuel i, Inside dt k) :
    EndsInside dt node prop [] i := by
  induction fuel generalizing i with
  | zero => exact absurd h (by simp [findLoop])
  | succ fuel ih =>
    rw [findLoop] at h
    rw [findLoopReads] at hreads
    by_cases hbegin : word dt i = fdtBeginNode
    · obtain ⟨r', hnode, hrest⟩ := Option.bind_eq_some_iff.mp h
      rw [hnode, Option.elim_some] at hreads
      refine (passes allWords).2 _ _ hbegin r' hnode
        (fun k hk => hreads k (List.mem_append_left _ hk)) fun hr => ?_
      simp only [if_neg hr] at hrest hreads
      have hinside : Inside dt r'.2 := hreads _ (List.mem_append_right _ List.mem_cons_self)
      by_cases hend : word dt r'.2 = fdtEnd
      · have hother : word dt r'.2 ≠ fdtBeginNode := by
          rw [hend]
          decide
        exact ⟨r'.2, .outside hother, hinside⟩
      · rw [if_neg hend, if_neg hinside.not_past] at hrest hreads
        exact ih hrest fun k hk =>
          hreads k (List.mem_append_right _ (List.mem_cons_of_mem _ hk))
    · have hfirst : i ∈ nodeReads dt node prop allWords i := by
        rw [allWords_eq, nodeReads]
        exact List.mem_cons_self
      exact ⟨i, .outside hbegin, hreads i (List.mem_append_left _ hfirst)⟩

theorem confined_iff (hvalid : dt.valid ≠ 0) :
    Confined dt node prop ↔ EndsInside dt node prop [] 0 := by
  unfold Confined devicetreeFindNodeProp findReads
  rw [if_neg hvalid, if_neg hvalid]
  constructor
  · rintro ⟨⟨r, hfinds⟩, hreads⟩
    exact endsInside_of_findLoop hfinds hreads
  · rintro ⟨last, hends, hinside⟩
    have hlast := hinside.lt
    have hallWords : last < 0 + allWords := by
      unfold allWords
      omega
    obtain ⟨hfinds, hreads⟩ := findLoop_of_ends hinside hends hallWords
    exact ⟨hfinds, fun k hk => hinside.of_le (hreads k hk)⟩

/-! ## Device trees -/

/-- The items of a node are passed, or hold the property that is wanted. -/
theorem Encodes.endsInside {items : Items} (h : Encodes dt i items)
    (hinside : Inside dt (i + items.size))
    (hrest : EndsInside dt node prop (n :: names) (i + items.size)) :
    EndsInside dt node prop (n :: names) i := by
  induction items generalizing i n names with
  | nil => exact hrest
  | nop rest ih =>
    obtain ⟨hnop, hitems⟩ := h
    rw [Items.size, ← Nat.add_assoc] at hinside hrest
    obtain ⟨last, hends, hlast⟩ := ih hitems hinside hrest
    refine ⟨last, .skip ?_ ?_ ?_ hends, hlast⟩ <;> rw [hnop] <;> decide
  | prop name value rest ih =>
    obtain ⟨hprop, hproperty, hitems⟩ := h
    rw [Items.add_size_prop] at hinside hrest
    have hlt := hinside.lt
    by_cases hwanted : PropWanted dt (nameBuffer dt n) node prop (i + 1)
    · exact ⟨i + 2, .wanted hprop hwanted, hinside.of_le (by omega)⟩
    · have hcount : valueCount dt (i + 1) = valueWords value := by
        have hvalue : value.length ≤ 4 * valueWords value := by
          unfold valueWords
          omega
        exact hproperty.toNat_words (by omega)
      obtain ⟨last, hends, hlast⟩ := ih hitems hinside hrest
      rw [← hcount] at hends
      exact ⟨last, .prop hprop hwanted hends, hlast⟩
  | node name items rest ihItems ihRest =>
    obtain ⟨hbegin, ⟨hname, -⟩, hitems, hendNode, hafter⟩ := h
    rw [Items.add_size_node] at hinside hrest
    have hnameEnd : NameEnd dt (i + 1) (i + 1 + nameWords name) :=
      nameEnd_of_skipName (skipName_eq hname (le_refl _))
    -- behind the inner node
    obtain ⟨last, hends, hlast⟩ := ihRest hafter hinside hrest
    -- and in it
    obtain ⟨last', hends', hlast'⟩ :=
      ihItems hitems (hinside.of_le (by omega)) ⟨last, .endNode hendNode hends, hlast⟩
    exact ⟨last', .node hbegin hnameEnd hends', hlast'⟩

/-- The search ends in every well-formed tree. -/
theorem IsTree.endsInside {root : List UInt8} {items : Items} (htree : IsTree dt root items) :
    EndsInside dt node prop [] 0 := by
  obtain ⟨hbegin, ⟨hname, -⟩, hitems, hendNode, -⟩ := htree.encodes
  have hsize : (Items.node root items .nil).size = 0 + 1 + nameWords root + items.size + 1 := by
    simp only [Items.size]
  have hinside := htree.inside
  have hend := htree.end_eq
  rw [hsize] at hinside hend
  have hlast : Inside dt (0 + 1 + nameWords root + items.size + 1) := by
    unfold Inside
    rw [wordAddr_succ] at hinside
    omega
  have hother : word dt (0 + 1 + nameWords root + items.size + 1) ≠ fdtBeginNode := by
    rw [hend]
    decide
  obtain ⟨last, hends, hinner⟩ := hitems.endsInside (n := 0 + 1) (hlast.of_le (Nat.le_succ _))
    ⟨_, .endNode hendNode (.outside hother), hlast⟩
  exact ⟨last, .node hbegin (nameEnd_of_skipName (skipName_eq hname (le_refl _))) hends, hinner⟩

/-- For every blob with the right magic, the search terminates and reads words of the blob only,
exactly when the tokens come to its end in the blob. -/
theorem walk_confined_iff (dt : DeviceTreeType) (memory : Mem)
    (hmagic : bigToLittle (loadWord memory 0) = 0xd00dfeed) (node : Option Mem) (prop : Mem) :
    Confined (devicetreeSetup dt memory).2 node prop ↔
      EndsInside (devicetreeSetup dt memory).2 node prop [] 0 := by
  refine confined_iff ?_
  rw [devicetreeSetup, if_neg (not_not.mpr hmagic)]
  exact (by decide : (1 : UInt32) ≠ 0)

/-- The search for `reg` in `memory@0` of the small tree. -/
theorem walk_confined_small :
    Confined smallTree (some (bytesFrom [109, 101, 109, 111, 114, 121, 64, 48]))
      (bytesFrom [114, 101, 103]) :=
  (walk_confined_iff _ _ (by decide +kernel) _ _).mpr smallTree_isTree.endsInside

/-- A header, and a structure block that is cut off behind the name of the root node. -/
def cutBlob : List UInt8 :=
  ([0xd00dfeed, 48, 40, 48, 0, 17, 16, 0, 0, 8, 1, 0] : List UInt32).flatMap
    fun v => (toLe v).reverse

/-- The search goes on behind the blob. -/
theorem walk_leaves_cut_blob :
    bigToLittle (loadWord (bytesFrom cutBlob) 0) = 0xd00dfeed ∧
      ¬Confined (devicetreeSetup smallTree (bytesFrom cutBlob)).2 none
        (bytesFrom [114, 101, 103]) := by
  refine ⟨by decide +kernel, fun h => ?_⟩
  obtain ⟨last, hends, hinside⟩ := (confined_iff (by decide +kernel)).mp h
  obtain ⟨j, hname, hrest⟩ := hends.behind_name (by decide +kernel)
  have hlt := hname.lt
  have hle := hrest.le
  have hsecond : ¬Inside (devicetreeSetup smallTree (bytesFrom cutBlob)).2 2 := by
    decide +kernel
  exact hsecond (hinside.of_le (by omega))

end Vmwos.DeviceTree
