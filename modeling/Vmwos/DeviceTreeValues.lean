import Vmwos.DeviceTreeSearch

/-!
# Values of device tree properties

`devicetree_find_int`, `devicetree_find_int64` and `devicetree_find_string` look a property
up and copy its value, and the two `devicetree_get_memory` functions decode the `reg` value
of the memory node. All of them keep the result of the search in a `uint32_t` and ask
whether it is negative. A search that fails goes on with `-ENOENT` as the index of the
property, which is the word 8 bytes before the structure block.

Results:
1. `findValue_eq`: the error of a search is never returned.
2. `devicetreeGetMemory_returns`: the memory functions return on every tree.
   `memoryOldReads_inside_iff`, `memoryNewReads_inside_iff`: when what they read without a
   memory node lies in the blob.
3. `missing_never_reported`: a property that does not exist is never reported.
-/

namespace Vmwos.DeviceTree

open Bytes

/-! ## Definitions -/

/-- The address of `tree[i]` for a 32-bit index. -/
def treeAddr (dt : DeviceTreeType) (i : UInt32) : Nat := (dt.offStruct + 4 * i).toNat

/-- `tree[i]` -/
def treeAt (dt : DeviceTreeType) (i : UInt32) : UInt32 := loadWord dt.memory (treeAddr dt i)

/-- The `uint64_t` at `&tree[i]`. -/
def treeAt64 (dt : DeviceTreeType) (i : UInt32) : UInt64 :=
  (treeAt dt i).toUInt64 ||| (treeAt dt (i + 1)).toUInt64 <<< 32

/-- `big_to_little64`. -/
def bigToLittle64 (big : UInt64) : UInt64 :=
  ((big &&& 0xff00000000000000) >>> 48) ||| ((big &&& 0x00ff000000000000) >>> 32) |||
    ((big &&& 0x0000ff0000000000) >>> 16) ||| ((big &&& 0x000000ff00000000) >>> 8) |||
    ((big &&& 0x00000000ff000000) <<< 8) ||| ((big &&& 0x0000000000ff0000) <<< 16) |||
    ((big &&& 0x000000000000ff00) <<< 32) ||| ((big &&& 0x00000000000000ff) <<< 48)

/-- `devicetree_prop_int`: its result, and `*value` after it. -/
def devicetreePropInt (dt : DeviceTreeType) (startI value : UInt32) : UInt32 × UInt32 :=
  if dt.valid = 0 then (eNODEV, value) else (0, bigToLittle (treeAt dt (startI + 2)))

/-- `devicetree_prop_int64`: its result, and `*value` after it. -/
def devicetreePropInt64 (dt : DeviceTreeType) (startI : UInt32) (value : UInt64) :
    UInt32 × UInt64 :=
  if dt.valid = 0 then (eNODEV, value)
  else
    let value1 := (bigToLittle (treeAt dt (startI + 2))).toUInt64
    let value2 := (bigToLittle (treeAt dt (startI + 3))).toUInt64
    (0, value1 <<< 32 ||| value2)

/-- `devicetree_prop_string`: its result, and the buffer after it. It does not look at the
length of the buffer. -/
def devicetreePropString (dt : DeviceTreeType) (startI : UInt32) (string : Mem) (_len : UInt32) :
    UInt32 × Mem :=
  if dt.valid = 0 then (eNODEV, string)
  else
    let length := bigToLittle (treeAt dt startI)
    let ptr := treeAddr dt (startI + 2)
    (0, write string 0 ((List.range length.toNat).map fun j => dt.memory ((ptr + j) % 2 ^ 32)))

/-- The body of the `devicetree_find` functions: the result, and the output after it. -/
def findValue {α : Type} (copy : UInt32 → α → UInt32 × α) (dt : DeviceTreeType)
    (node : Option Mem) (prop : Mem) (out : α) : Option (UInt32 × α) := do
  let result ← devicetreeFindNodeProp dt node prop
  -- `result` is a `uint32_t`
  if result < 0 then some (result, out) else some (0, (copy result out).2)

/-- `devicetree_find_int`. -/
def devicetreeFindInt (dt : DeviceTreeType) (node : Option Mem) (prop : Mem) (value : UInt32) :
    Option (UInt32 × UInt32) :=
  findValue (devicetreePropInt dt) dt node prop value

/-- `devicetree_find_int64`. -/
def devicetreeFindInt64 (dt : DeviceTreeType) (node : Option Mem) (prop : Mem) (value : UInt64) :
    Option (UInt32 × UInt64) :=
  findValue (devicetreePropInt64 dt) dt node prop value

/-- `devicetree_find_string`. -/
def devicetreeFindString (dt : DeviceTreeType) (node : Option Mem) (prop string : Mem)
    (len : UInt32) : Option (UInt32 × Mem) :=
  findValue (fun startI string => devicetreePropString dt startI string len) dt node prop string

/-- The names `memory`, `memory@0`, `reg`, `#address-cells` and `#size-cells`. -/
def memoryName : List UInt8 := [109, 101, 109, 111, 114, 121]
def memoryAtName : List UInt8 := [109, 101, 109, 111, 114, 121, 64, 48]
def regName : List UInt8 := [114, 101, 103]
def addressCellsName : List UInt8 :=
  [35, 97, 100, 100, 114, 101, 115, 115, 45, 99, 101, 108, 108, 115]
def sizeCellsName : List UInt8 := [35, 115, 105, 122, 101, 45, 99, 101, 108, 108, 115]

/-- The value of a field of `cells` cells at `tree[i]`. -/
def cellsAt (dt : DeviceTreeType) (cells i : UInt32) : UInt64 :=
  if cells = 1 then (bigToLittle (treeAt dt i)).toUInt64
  else if cells = 2 then bigToLittle64 (treeAt64 dt i)
  else 0

/-- How far the cursor moves over the field. -/
def cellsRead (cells : UInt32) : Nat := if cells = 1 then 1 else if cells = 2 then 2 else 0

/-- `devicetree_get_memory_old`: its result, and `*return_address` after it. `addressCells` and
`sizeCells` are what these variables hold at first. -/
def devicetreeGetMemoryOld (dt : DeviceTreeType) (addressCells sizeCells : UInt32)
    (returnAddress : UInt64) : Option (UInt64 × UInt64) := do
  let (_, addressCells) ← devicetreeFindInt dt none (bytesFrom addressCellsName) addressCells
  let (_, sizeCells) ← devicetreeFindInt dt none (bytesFrom sizeCellsName) sizeCells
  let result ← devicetreeFindNodeProp dt (some (bytesFrom memoryName)) (bytesFrom regName)
  if result < 0 then some (result.toUInt64, returnAddress)
  else
    let i := result + 2
    let address := cellsAt dt addressCells i
    let length := cellsAt dt sizeCells (i + UInt32.ofNat (cellsRead addressCells))
    some (length, address)

/-- `devicetree_get_memory_new`: its result, and `*return_address` after it. -/
def devicetreeGetMemoryNew (dt : DeviceTreeType) (returnAddress : UInt64) :
    Option (UInt64 × UInt64) := do
  let result ← devicetreeFindNodeProp dt (some (bytesFrom memoryAtName)) (bytesFrom regName)
  if result < 0 then some (result.toUInt64, returnAddress)
  else
    let valLen := bigToLittle (treeAt dt result)
    let i := result + 2
    if valLen = 8 then
      some ((bigToLittle (treeAt dt (i + 1))).toUInt64, (bigToLittle (treeAt dt i)).toUInt64)
    else if valLen = 12 then
      some (bigToLittle64 (treeAt dt (i + 2)).toUInt64, bigToLittle64 (treeAt64 dt i))
    else if valLen = 24 then
      some ((bigToLittle (treeAt dt (i + 2))).toUInt64, bigToLittle64 (treeAt64 dt i))
    else some (0, 0)

/-- `devicetree_get_memory`: its result. The arguments are what the variables of the two functions
hold at first. -/
def devicetreeGetMemory (dt : DeviceTreeType) (addressCells sizeCells : UInt32) (address : UInt64) :
    Option UInt64 := do
  let (length, address) ← devicetreeGetMemoryOld dt addressCells sizeCells address
  let (length, _) ←
    if length < 1024 then devicetreeGetMemoryNew dt address else some (length, address)
  if length < 1024 then some (256 * 1024 * 1024) else some length

/-! ### What the memory functions read -/

/-- `n` words from `tree[i]` on. -/
def wordsFrom (i : UInt32) (n : Nat) : List UInt32 :=
  (List.range n).map fun k => i + UInt32.ofNat k

/-- The words that `devicetree_find_int` reads after the search. -/
def findIntReads (dt : DeviceTreeType) (node : Option Mem) (prop : Mem) : Option (List UInt32) := do
  let result ← devicetreeFindNodeProp dt node prop
  if result < 0 ∨ dt.valid = 0 then some [] else some (wordsFrom result 3)

/-- The words that `devicetree_get_memory_old` reads after its searches. -/
def memoryOldReads (dt : DeviceTreeType) (addressCells sizeCells : UInt32) :
    Option (List UInt32) := do
  let addressReads ← findIntReads dt none (bytesFrom addressCellsName)
  let (_, addressCells) ← devicetreeFindInt dt none (bytesFrom addressCellsName) addressCells
  let sizeReads ← findIntReads dt none (bytesFrom sizeCellsName)
  let (_, sizeCells) ← devicetreeFindInt dt none (bytesFrom sizeCellsName) sizeCells
  let result ← devicetreeFindNodeProp dt (some (bytesFrom memoryName)) (bytesFrom regName)
  if result < 0 then some (addressReads ++ sizeReads)
  else some (addressReads ++ sizeReads ++
    wordsFrom result (2 + cellsRead addressCells + cellsRead sizeCells))

/-- The words that `devicetree_get_memory_new` reads after its search. All branches read the words
of the value, whatever its length. -/
def memoryNewReads (dt : DeviceTreeType) : Option (List UInt32) := do
  let result ← devicetreeFindNodeProp dt (some (bytesFrom memoryAtName)) (bytesFrom regName)
  if result < 0 then some []
  else
    let valLen := bigToLittle (treeAt dt result)
    some (wordsFrom result (2 + valLen.toNat / 4))

/-! ### Missing properties -/

/-- The call returns an error, and leaves the output as it was. -/
def Reports {α : Type} (call : α → Option (UInt32 × α)) (out : α) : Prop :=
  ∃ r, call out = some (r, out) ∧ r ≠ 0

/-- All words that are read lie in the blob. -/
def ReadsInside (dt : DeviceTreeType) (reads : Option (List UInt32)) : Prop :=
  ∃ is, reads = some is ∧ ∀ i ∈ is, treeAddr dt i + 4 ≤ dt.totalsize.toNat

/-- The tree has no property of that name in a node of that name. -/
def Missing (root : List UInt8) (items : Items) (node : Option (List UInt8))
    (name : List UInt8) : Prop :=
  ∀ p ∈ document root items, ¬Wanted node name p

variable {dt : DeviceTreeType} {root : List UInt8} {items : Items} {node : Option Mem}
  {prop : Mem} {nodeName : Option (List UInt8)} {propName : List UInt8}

/-! ## 1. The lookups -/

/-- Whatever the search returns is taken for an index. -/
theorem findValue_eq {α : Type} {copy : UInt32 → α → UInt32 × α} {out : α} {result : UInt32}
    (hsearch : devicetreeFindNodeProp dt node prop = some result) :
    findValue copy dt node prop out = some (0, (copy result out).2) := by
  unfold findValue
  rw [hsearch, Option.bind_eq_bind, Option.bind_some, if_neg (UInt32.not_lt_zero)]

theorem not_reports {α : Type} {copy : UInt32 → α → UInt32 × α} {out : α} {result : UInt32}
    (hsearch : devicetreeFindNodeProp dt node prop = some result) :
    ¬Reports (findValue copy dt node prop) out := by
  rintro ⟨r, hcall, hne⟩
  rw [findValue_eq hsearch] at hcall
  exact hne (congrArg Prod.fst (Option.some.inj hcall)).symm

theorem stringAt_bytesFrom {s : List UInt8} (h : ∀ c ∈ s, c ≠ 0) : StringAt (bytesFrom s) 0 s where
  nonzero := h
  chars := by
    apply List.ext_getElem
    · simp
    · intro k _ hk
      simp [Bytes.read, bytesFrom, List.getElem?_eq_getElem hk]
  nul := by
    simp [bytesFrom]

/-! ## 2. The memory functions -/

theorem mem_wordsFrom {i j : UInt32} {n : Nat} :
    j ∈ wordsFrom i n ↔ ∃ k < n, i + UInt32.ofNat k = j := by
  unfold wordsFrom
  simp

/-- A word of the tree lies in the blob. -/
theorem IsTree.wordAddr_le (htree : IsTree dt root items) {k : Nat}
    (hk : k ≤ (Items.node root items .nil).size) : wordAddr dt k + 4 ≤ dt.totalsize.toNat := by
  have hinside := htree.inside
  unfold wordAddr at hinside ⊢
  omega

/-- The address of a word of the tree does not wrap. -/
theorem IsTree.treeAddr_eq (htree : IsTree dt root items) {k : Nat}
    (hk : k ≤ (Items.node root items .nil).size) :
    treeAddr dt (UInt32.ofNat k) = wordAddr dt k := by
  have hinside := htree.wordAddr_le hk
  have htotal := dt.totalsize.toNat_lt
  unfold wordAddr at hinside
  unfold treeAddr wordAddr
  rw [UInt32.toNat_add, UInt32.toNat_mul, UInt32.toNat_ofNat_of_lt' (show k < 2 ^ 32 by omega)]
  simp only [UInt32.reduceToNat]
  omega

/-- A word of the tree, as the code loads it. -/
theorem IsTree.treeAt_eq (htree : IsTree dt root items) {k : Nat}
    (hk : k ≤ (Items.node root items .nil).size) :
    treeAt dt (UInt32.ofNat k) = loadWord dt.memory (wordAddr dt k) := by
  unfold treeAt
  rw [htree.treeAddr_eq hk]

/-- The words from `tree[-2]` on. -/
theorem treeAddr_noent (dt : DeviceTreeType) {k : Nat} (hk : k < 2 ^ 32) :
    treeAddr dt (eNOENT + UInt32.ofNat k) = (dt.offStruct.toNat + (2 ^ 32 - 8) + 4 * k) % 2 ^ 32 := by
  have hnoent : eNOENT.toNat = 2 ^ 32 - 2 := rfl
  unfold treeAddr
  rw [UInt32.toNat_add, UInt32.toNat_mul, UInt32.toNat_add, UInt32.toNat_ofNat_of_lt' hk, hnoent]
  simp only [UInt32.reduceToNat]
  omega

/-- When the two words in front of the structure block and `n` words of it lie in the blob. -/
theorem wordsFrom_noent_inside_iff {n : Nat} (hn : n < 2 ^ 30)
    (hstruct : dt.offStruct.toNat ≤ dt.totalsize.toNat) :
    (∀ i ∈ wordsFrom eNOENT (2 + n), treeAddr dt i + 4 ≤ dt.totalsize.toNat) ↔
      8 ≤ dt.offStruct.toNat ∧ dt.offStruct.toNat + 4 * n ≤ dt.totalsize.toNat := by
  have htotal := dt.totalsize.toNat_lt
  have hword : ∀ k < 2 + n, treeAddr dt (eNOENT + UInt32.ofNat k) =
      (dt.offStruct.toNat + (2 ^ 32 - 8) + 4 * k) % 2 ^ 32 :=
    fun k hk => treeAddr_noent dt (by omega)
  constructor
  · intro h
    have hall : ∀ k < 2 + n,
        (dt.offStruct.toNat + (2 ^ 32 - 8) + 4 * k) % 2 ^ 32 + 4 ≤ dt.totalsize.toNat := by
      intro k hk
      rw [← hword k hk]
      exact h _ (mem_wordsFrom.mpr ⟨k, hk, rfl⟩)
    have hfirst := hall 0 (by omega)
    have hsecond := hall 1 (by omega)
    have height : 8 ≤ dt.offStruct.toNat := by omega
    refine ⟨height, ?_⟩
    by_contra hover
    -- the first word that does not end in the blob
    have hlast := hall (2 + (dt.totalsize.toNat - dt.offStruct.toNat) / 4) (by omega)
    omega
  · rintro ⟨height, hfits⟩ i hi
    obtain ⟨k, hk, rfl⟩ := mem_wordsFrom.mp hi
    rw [hword k hk]
    omega

/-- A tree has four words or more. -/
theorem IsTree.four_words (htree : IsTree dt root items) :
    dt.offStruct.toNat + 16 ≤ dt.totalsize.toNat := by
  have hinside := htree.inside
  have hwords : 0 < nameWords root := Nat.succ_pos _
  simp only [wordAddr, Items.size] at hinside
  omega

/-- `devicetree_find_int` on either kind of name. -/
theorem findIntReads_eq (htree : IsTree dt root items) (hnode : PointsTo node nodeName)
    (hprop : StringAt prop 0 propName) :
    ∃ result, devicetreeFindNodeProp dt node prop = some result ∧
      findIntReads dt node prop = some (wordsFrom result 3) ∧
      (8 ≤ dt.offStruct.toNat →
        ∀ i ∈ wordsFrom result 3, treeAddr dt i + 4 ≤ dt.totalsize.toNat) := by
  have hreads : ∀ result, devicetreeFindNodeProp dt node prop = some result →
      findIntReads dt node prop = some (wordsFrom result 3) := by
    intro result hsearch
    unfold findIntReads
    rw [hsearch, Option.bind_eq_bind, Option.bind_some, if_neg]
    rintro (hneg | hvalid)
    · exact UInt32.not_lt_zero hneg
    · exact htree.valid hvalid
  have hfour := htree.four_words
  rcases firstWanted_or_missing nodeName propName (document root items) with ⟨p, hp⟩ | hmissing
  · obtain ⟨hmem, hsearch⟩ := devicetreeFindNodeProp_first htree hnode hprop hp
    obtain ⟨hlt, _⟩ := htree.index_lt hmem
    refine ⟨_, hsearch, hreads _ hsearch, fun _ i hi => ?_⟩
    obtain ⟨k, hk, rfl⟩ := mem_wordsFrom.mp hi
    rw [← UInt32.ofNat_add, htree.treeAddr_eq (by omega)]
    exact htree.wordAddr_le (by omega)
  · have hsearch := devicetreeFindNodeProp_missing htree hnode hprop hmissing
    refine ⟨_, hsearch, hreads _ hsearch, fun height => ?_⟩
    exact (wordsFrom_noent_inside_iff (n := 1) (by decide) (by omega)).mpr ⟨height, by omega⟩

theorem cellsRead_le (cells : UInt32) : cellsRead cells ≤ 2 := by
  unfold cellsRead
  split
  · decide
  · split
    · decide
    · decide

theorem pointsTo_memory : PointsTo (some (bytesFrom memoryName)) (some memoryName) :=
  .some (stringAt_bytesFrom (by simp [memoryName]))

theorem pointsTo_memoryAt : PointsTo (some (bytesFrom memoryAtName)) (some memoryAtName) :=
  .some (stringAt_bytesFrom (by simp [memoryAtName]))

theorem stringAt_reg : StringAt (bytesFrom regName) 0 regName :=
  stringAt_bytesFrom (by simp [regName])

theorem search_returns (htree : IsTree dt root items) (hnode : PointsTo node nodeName)
    (hprop : StringAt prop 0 propName) :
    ∃ result, devicetreeFindNodeProp dt node prop = some result := by
  rcases firstWanted_or_missing nodeName propName (document root items) with ⟨p, hp⟩ | hmissing
  · exact ⟨_, (devicetreeFindNodeProp_first htree hnode hprop hp).2⟩
  · exact ⟨_, devicetreeFindNodeProp_missing htree hnode hprop hmissing⟩

/-- The memory functions return on every tree, with or without a memory node, and the memory has at
least 1024 bytes. -/
theorem devicetreeGetMemory_returns (htree : IsTree dt root items)
    (addressCells sizeCells : UInt32) (address : UInt64) :
    ∃ length, devicetreeGetMemory dt addressCells sizeCells address = some length ∧
      1024 ≤ length := by
  obtain ⟨a, ha⟩ := search_returns htree .none
    (stringAt_bytesFrom (s := addressCellsName) (by simp [addressCellsName]))
  obtain ⟨b, hb⟩ := search_returns htree .none
    (stringAt_bytesFrom (s := sizeCellsName) (by simp [sizeCellsName]))
  obtain ⟨old, hold⟩ := search_returns htree pointsTo_memory stringAt_reg
  obtain ⟨new, hnew⟩ := search_returns htree pointsTo_memoryAt stringAt_reg
  have hold' : ∃ r, devicetreeGetMemoryOld dt addressCells sizeCells address = some r := by
    unfold devicetreeGetMemoryOld devicetreeFindInt
    rw [findValue_eq ha, findValue_eq hb, hold]
    simp only [Option.bind_eq_bind, Option.bind_some, if_neg UInt32.not_lt_zero]
    exact ⟨_, rfl⟩
  have hnew' : ∀ address, ∃ r, devicetreeGetMemoryNew dt address = some r := by
    intro address
    unfold devicetreeGetMemoryNew
    rw [hnew, Option.bind_eq_bind, Option.bind_some, if_neg UInt32.not_lt_zero]
    dsimp only
    split
    · exact ⟨_, rfl⟩
    · split
      · exact ⟨_, rfl⟩
      · split
        · exact ⟨_, rfl⟩
        · exact ⟨_, rfl⟩
  obtain ⟨⟨length, address'⟩, hlength⟩ := hold'
  obtain ⟨⟨length', _⟩, hlength'⟩ := hnew' address'
  unfold devicetreeGetMemory
  simp only [hlength, Option.bind_eq_bind, Option.bind_some]
  split
  · simp only [hlength', Option.bind_some]
    split
    · exact ⟨_, rfl, by decide⟩
    · next hlarge => exact ⟨_, rfl, UInt64.not_lt.mp hlarge⟩
  · next hlarge => exact ⟨length, rfl, UInt64.not_lt.mp hlarge⟩

/-- Without a node `memory`, `devicetree_get_memory_old` reads the two words in front of the
structure block and the first ones of it. -/
theorem memoryOldReads_inside_iff (htree : IsTree dt root items)
    (hmissing : Missing root items (some memoryName) regName) (addressCells sizeCells : UInt32) :
    ReadsInside dt (memoryOldReads dt addressCells sizeCells) ↔ 8 ≤ dt.offStruct.toNat := by
  obtain ⟨a, haSearch, haReads, haInside⟩ := findIntReads_eq htree .none
    (stringAt_bytesFrom (s := addressCellsName) (by simp [addressCellsName]))
  obtain ⟨b, hbSearch, hbReads, hbInside⟩ := findIntReads_eq htree .none
    (stringAt_bytesFrom (s := sizeCellsName) (by simp [sizeCellsName]))
  have hsearch := devicetreeFindNodeProp_missing htree pointsTo_memory stringAt_reg hmissing
  have hfour := htree.four_words
  have hint : ∀ prop value result, devicetreeFindNodeProp dt none prop = some result →
      devicetreeFindInt dt none prop value = some (0, (devicetreePropInt dt result value).2) :=
    fun prop value result h => findValue_eq h
  unfold memoryOldReads
  rw [haReads, hbReads, hsearch, hint _ _ _ haSearch, hint _ _ _ hbSearch]
  simp only [Option.bind_eq_bind, Option.bind_some, if_neg UInt32.not_lt_zero]
  generalize (devicetreePropInt dt a addressCells).2 = cells
  generalize (devicetreePropInt dt b sizeCells).2 = cells'
  have hcells := cellsRead_le cells
  have hcells' := cellsRead_le cells'
  have hown := wordsFrom_noent_inside_iff (n := cellsRead cells + cellsRead cells') (by omega)
    (show dt.offStruct.toNat ≤ dt.totalsize.toNat by omega)
  rw [← Nat.add_assoc] at hown
  constructor
  · rintro ⟨is, heq, hinside⟩
    cases heq
    exact (hown.mp fun i hi => hinside i (List.mem_append_right _ hi)).1
  · intro height
    refine ⟨_, rfl, fun i hi => ?_⟩
    rcases List.mem_append.mp hi with hi | hi
    · rcases List.mem_append.mp hi with hi | hi
      · exact haInside height i hi
      · exact hbInside height i hi
    · exact hown.mpr ⟨height, by omega⟩ i hi

/-- Without a node `memory@0`, `devicetree_get_memory_new` takes the word 8 bytes before the
structure block for the length of the value. -/
theorem memoryNewReads_inside_iff (htree : IsTree dt root items)
    (hmissing : Missing root items (some memoryAtName) regName) :
    ReadsInside dt (memoryNewReads dt) ↔
      8 ≤ dt.offStruct.toNat ∧
        dt.offStruct.toNat + 4 * ((bigToLittle (treeAt dt eNOENT)).toNat / 4) ≤
          dt.totalsize.toNat := by
  have hsearch := devicetreeFindNodeProp_missing htree pointsTo_memoryAt stringAt_reg hmissing
  have hfour := htree.four_words
  have hlength := (bigToLittle (treeAt dt eNOENT)).toNat_lt
  unfold memoryNewReads
  rw [hsearch, Option.bind_eq_bind, Option.bind_some, if_neg UInt32.not_lt_zero]
  rw [← wordsFrom_noent_inside_iff (by omega) (by omega)]
  constructor
  · rintro ⟨is, heq, hinside⟩
    cases heq
    exact hinside
  · exact fun hinside => ⟨_, rfl, hinside⟩

/-! ## 3. Missing properties -/

/-- A property that does not exist, in any tree and whatever the output holds. None of the three
lookups reports it. Where the memory node does not exist, the last two parts say when the memory
functions stay in the blob. -/
theorem missing_never_reported (dt : DeviceTreeType) (root : List UInt8) (items : Items)
    (htree : IsTree dt root items) (node : Option Mem) (nodeName : Option (List UInt8))
    (hnode : PointsTo node nodeName) (prop : Mem) (propName : List UInt8)
    (hprop : StringAt prop 0 propName) (hmissing : Missing root items nodeName propName) :
    (∀ value, ¬Reports (devicetreeFindInt dt node prop) value) ∧
      (∀ value, ¬Reports (devicetreeFindInt64 dt node prop) value) ∧
      (∀ string len, ¬Reports (devicetreeFindString dt node prop · len) string) ∧
      (Missing root items (some memoryName) regName → ∀ addressCells sizeCells,
        (ReadsInside dt (memoryOldReads dt addressCells sizeCells) ↔ 8 ≤ dt.offStruct.toNat)) ∧
      (Missing root items (some memoryAtName) regName →
        (ReadsInside dt (memoryNewReads dt) ↔ 8 ≤ dt.offStruct.toNat ∧
          dt.offStruct.toNat + 4 * ((bigToLittle (treeAt dt eNOENT)).toNat / 4) ≤
            dt.totalsize.toNat)) := by
  have hsearch := devicetreeFindNodeProp_missing htree hnode hprop hmissing
  refine ⟨fun value => not_reports hsearch, fun value => not_reports hsearch,
    fun string len => not_reports hsearch, ?_, ?_⟩
  · exact fun hnone addressCells sizeCells =>
      memoryOldReads_inside_iff htree hnone addressCells sizeCells
  · exact fun hnone => memoryNewReads_inside_iff htree hnone

/-- The small tree has a node `memory@0` and no node `memory`. -/
theorem small_missing : Missing [] smallItems (some memoryName) regName := by
  unfold Missing
  decide

theorem missing_never_reported_small :
    ¬Reports (devicetreeFindInt smallTree (some (bytesFrom memoryName)) (bytesFrom regName)) 0 :=
  (missing_never_reported smallTree [] smallItems smallTree_isTree _ _ pointsTo_memory _ _
    stringAt_reg small_missing).1 0

/-- The lookup of `reg` in `memory` succeeds, and its value is the token of the root node. -/
theorem missing_property_found :
    IsTree smallTree [] smallItems ∧ Missing [] smallItems (some memoryName) regName ∧
      devicetreeFindInt smallTree (some (bytesFrom memoryName)) (bytesFrom regName) 0 =
        some (0, fdtBeginNode) ∧
      ¬Reports (devicetreeFindInt smallTree (some (bytesFrom memoryName)) (bytesFrom regName)) 0 := by
  have hsearch := devicetreeFindNodeProp_missing smallTree_isTree pointsTo_memory stringAt_reg
    small_missing
  refine ⟨smallTree_isTree, small_missing, ?_, not_reports hsearch⟩
  unfold devicetreeFindInt
  rw [findValue_eq hsearch]
  decide +kernel

end Vmwos.DeviceTree
