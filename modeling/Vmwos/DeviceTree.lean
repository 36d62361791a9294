import Vmwos.Bytes

/-!
# The device tree parser

`device_tree.c`: the search for a property in the flattened device tree that the bootloader
leaves in memory. The structure block is an array of big-endian words. A node is

    FDT_BEGIN_NODE, the name with its NUL padded to a word,
    FDT_NOP, properties and nodes,
    FDT_END_NODE

and a property is `FDT_PROP`, the length of its value, the offset of its name in the strings
block, and the value padded to a word.

The cursor `*i` is passed along and returned with the result. A pointer to a string is the
memory from there on. Messages are left out, and so are the fields of `device_tree` that the
search does not read. Every loop and every call of `dt_parse_node` has as many turns as there
are words in 16 GB.
-/

namespace Vmwos.DeviceTree

open Bytes

/-! ## Definitions -/

/-- `FDT_BEGIN_NODE` and so on. -/
def fdtBeginNode : UInt32 := 1
def fdtEndNode : UInt32 := 2
def fdtProp : UInt32 := 3
def fdtNop : UInt32 := 4
def fdtEnd : UInt32 := 9

/-- `DT_STRING_MAXSIZE`. -/
def dtStringMaxsize : Nat := 128

/-- `-ENOENT`. -/
def eNOENT : UInt32 := -2
/-- `-ENODEV`. -/
def eNODEV : UInt32 := -19

/-- Enough turns for any loop over words in memory. -/
def allWords : Nat := 2 ^ 32

/-- `struct device_tree_type`, and the memory from `device_tree.address` on. -/
structure DeviceTreeType where
  memory : Mem
  valid : UInt32
  totalsize : UInt32
  offStruct : UInt32
  offStrs : UInt32

/-- `big_to_little`. -/
def bigToLittle (big : UInt32) : UInt32 :=
  ((big &&& 0xff000000) >>> 24) ||| ((big &&& 0x00ff0000) >>> 8) |||
    ((big &&& 0x0000ff00) <<< 8) ||| ((big &&& 0x000000ff) <<< 24)

/-- The little-endian word at an address. -/
def loadWord (m : Mem) (a : Nat) : UInt32 := ofLe (read m a 4)

/-- `devicetree_setup`: its result, and `device_tree` after it. -/
def devicetreeSetup (dt : DeviceTreeType) (memory : Mem) : UInt32 × DeviceTreeType :=
  if bigToLittle (loadWord memory 0) ≠ 0xd00dfeed then (eNODEV, { dt with valid := 0 })
  else (0, {
    memory := memory
    valid := 1
    totalsize := bigToLittle (loadWord memory 4)
    offStruct := bigToLittle (loadWord memory 8)
    offStrs := bigToLittle (loadWord memory 12) })

/-- The address of `tree[i]`. -/
def wordAddr (dt : DeviceTreeType) (i : Nat) : Nat := dt.offStruct.toNat + 4 * i

/-- `big_to_little(tree[i])`. -/
def word (dt : DeviceTreeType) (i : Nat) : UInt32 :=
  bigToLittle (loadWord dt.memory (wordAddr dt i))

/-- `dt_copy_string`. What the buffer holds at first is not read. -/
def dtCopyString (dt : DeviceTreeType) (offset : UInt32) (len : Nat) : Mem :=
  strlcpy (fun _ => 0) dt.memory (dt.offStrs.toNat + offset.toNat) len

/-- `dt_parse_prop`: its result, and `*i` after it. The two loops over the value only move the
cursor. -/
def dtParseProp (dt : DeviceTreeType) (currentNodeName : Mem) (node : Option Mem) (prop : Mem)
    (i : Nat) : UInt32 × Nat :=
  let startI := i
  let length := word dt i
  let string := dtCopyString dt (word dt (i + 1)) dtStringMaxsize
  if node.all (fun node => strncmp node currentNodeName dtStringMaxsize = 0) ∧
      strncmp string prop dtStringMaxsize = 0 then (UInt32.ofNat startI, i + 1)
  else (0, i + 2 + ((length + 3) / 4).toNat)

/-- The loop of `dt_parse_node` to the end of the padding of the name. -/
def skipName (dt : DeviceTreeType) : Nat → Nat → Option Nat
  | 0, _ => none
  | fuel + 1, i => if word dt i &&& 0xff = 0 then some (i + 1) else skipName dt fuel (i + 1)

mutual

/-- `dt_parse_node`: its result, and `*i` after it. -/
def dtParseNode (dt : DeviceTreeType) (node : Option Mem) (prop : Mem) :
    Nat → Nat → Option (UInt32 × Nat)
  | 0, _ => none
  | fuel + 1, i =>
    if word dt i ≠ fdtBeginNode then some (-1, i + 1)
    else
      let nodeName := strlcpy (fun _ => 0) dt.memory (wordAddr dt (i + 1)) dtStringMaxsize
      (skipName dt fuel (i + 1)).bind fun i => dtParseItems dt node prop nodeName fuel i

/-- The second loop of `dt_parse_node`, over what the node contains. -/
def dtParseItems (dt : DeviceTreeType) (node : Option Mem) (prop nodeName : Mem) :
    Nat → Nat → Option (UInt32 × Nat)
  | 0, _ => none
  | fuel + 1, i =>
    if word dt i = fdtNop then dtParseItems dt node prop nodeName fuel (i + 1)
    else if word dt i = fdtProp then
      let (result, i) := dtParseProp dt nodeName node prop (i + 1)
      if result > 0 then some (result, i) else dtParseItems dt node prop nodeName fuel i
    else if word dt i = fdtBeginNode then
      (dtParseNode dt node prop fuel i).bind fun (result, i) =>
        if result > 0 then some (result, i) else dtParseItems dt node prop nodeName fuel i
    else if word dt i = fdtEndNode then some (0, i + 1)
    else dtParseItems dt node prop nodeName fuel (i + 1)

end

/-- The loop of `devicetree_find_node_prop`. -/
def findLoop (dt : DeviceTreeType) (node : Option Mem) (prop : Mem) : Nat → Nat → Option UInt32
  | 0, _ => none
  | fuel + 1, i =>
    (dtParseNode dt node prop allWords i).bind fun (result, i) =>
      if result > 0 then some result
      else if word dt i = fdtEnd then some eNOENT
      else if dt.offStruct + UInt32.ofNat (i * 4) > dt.totalsize then some eNOENT
      else findLoop dt node prop fuel i

/-- `devicetree_find_node_prop`. -/
def devicetreeFindNodeProp (dt : DeviceTreeType) (node : Option Mem) (prop : Mem) : Option UInt32 :=
  if dt.valid = 0 then some eNODEV else findLoop dt node prop allWords 0

theorem allWords_eq : allWords = 2 ^ 32 - 1 + 1 := rfl

/-! ## Words -/

/-- The bits of `n` under a shifted mask. -/
theorem and_shiftLeft (n mask k : Nat) : n &&& mask <<< k = ((n >>> k) &&& mask) <<< k := by
  refine Nat.eq_of_testBit_eq fun i => ?_
  simp only [Nat.testBit_and, Nat.testBit_shiftLeft, Nat.testBit_shiftRight]
  by_cases hi : i ≥ k
  · simp [hi, Nat.add_sub_cancel' hi]
  · simp [hi]

theorem byte_eq (n k : Nat) : (n >>> k) &&& 0xff = n / 2 ^ k % 256 := by
  rw [Nat.shiftRight_eq_div_pow]
  exact Nat.and_two_pow_sub_one_eq_mod _ 8

theorem or_eq_add {a b k : Nat} (hb : b < 2 ^ k) : b ||| a * 2 ^ k = a * 2 ^ k + b := by
  rw [Nat.or_comm, Nat.mul_comm]
  exact (Nat.two_pow_add_eq_or_of_lt hb a).symm

/-- `big_to_little` of a word that was read in little-endian order. -/
theorem bigToLittle_ofLe (b₀ b₁ b₂ b₃ : UInt8) :
    bigToLittle (ofLe [b₀, b₁, b₂, b₃]) = ofBe [b₀, b₁, b₂, b₃] := by
  have h₀ := b₀.toNat_lt
  have h₁ := b₁.toNat_lt
  have h₂ := b₂.toNat_lt
  have h₃ := b₃.toNat_lt
  have hn : (ofLe [b₀, b₁, b₂, b₃]).toNat = _ := toNat_ofBe b₃ b₂ b₁ b₀
  apply UInt32.toNat_inj.mp
  rw [toNat_ofBe]
  generalize ofLe [b₀, b₁, b₂, b₃] = big at hn
  -- each byte moves to its new place
  have e₃ : (big.toNat &&& 0xff000000) >>> 24 = b₃.toNat := by
    rw [show 0xff000000 = 0xff <<< 24 from rfl, and_shiftLeft, byte_eq, Nat.shiftLeft_shiftRight]
    omega
  have e₂ : (big.toNat &&& 0x00ff0000) >>> 8 = b₂.toNat * 2 ^ 8 := by
    rw [show 0x00ff0000 = 0xff <<< 16 from rfl, and_shiftLeft, byte_eq, Nat.shiftLeft_eq,
      Nat.shiftRight_eq_div_pow]
    omega
  have e₁ : (big.toNat &&& 0x0000ff00) <<< 8 = b₁.toNat * 2 ^ 16 := by
    rw [show 0x0000ff00 = 0xff <<< 8 from rfl, and_shiftLeft, byte_eq, Nat.shiftLeft_eq,
      Nat.shiftLeft_eq]
    omega
  have e₀ : (big.toNat &&& 0x000000ff) <<< 24 = b₀.toNat * 2 ^ 24 := by
    rw [show big.toNat &&& 0xff = big.toNat % 256 from Nat.and_two_pow_sub_one_eq_mod _ 8,
      Nat.shiftLeft_eq]
    omega
  have hor₁ : b₃.toNat ||| b₂.toNat * 2 ^ 8 = b₂.toNat * 2 ^ 8 + b₃.toNat := or_eq_add (by omega)
  have hor₂ : b₂.toNat * 2 ^ 8 + b₃.toNat ||| b₁.toNat * 2 ^ 16 =
      b₁.toNat * 2 ^ 16 + (b₂.toNat * 2 ^ 8 + b₃.toNat) := or_eq_add (by omega)
  have hor₃ : b₁.toNat * 2 ^ 16 + (b₂.toNat * 2 ^ 8 + b₃.toNat) ||| b₀.toNat * 2 ^ 24 =
      b₀.toNat * 2 ^ 24 + (b₁.toNat * 2 ^ 16 + (b₂.toNat * 2 ^ 8 + b₃.toNat)) :=
    or_eq_add (by omega)
  simp only [bigToLittle, UInt32.toNat_or, UInt32.toNat_and, UInt32.toNat_shiftRight,
    UInt32.toNat_shiftLeft, UInt32.reduceToNat, Nat.reduceMod, e₃, e₂, e₁, e₀]
  rw [Nat.mod_eq_of_lt (by omega), Nat.mod_eq_of_lt (by omega), hor₁, hor₂, hor₃]
  omega

theorem read_four (m : Mem) (a : Nat) : read m a 4 = [m a, m (a + 1), m (a + 2), m (a + 3)] := rfl

/-- `big_to_little(tree[i])` is the big-endian word. -/
theorem word_eq (dt : DeviceTreeType) (i : Nat) :
    word dt i = ofBe (read dt.memory (wordAddr dt i) 4) := by
  rw [word, loadWord, read_four, bigToLittle_ofLe]

/-- The low byte of a word is its last one in memory. -/
theorem word_low_eq_zero_iff (dt : DeviceTreeType) (i : Nat) :
    word dt i &&& 0xff = 0 ↔ dt.memory (wordAddr dt i + 3) = 0 := by
  have hlow : (word dt i &&& 0xff).toNat = (dt.memory (wordAddr dt i + 3)).toNat := by
    have hlt := (dt.memory (wordAddr dt i + 3)).toNat_lt
    rw [UInt32.toNat_and, word_eq, read_four, toNat_ofBe]
    show _ &&& 0xff = _
    rw [show ∀ n, n &&& 0xff = n % 256 from fun n => Nat.and_two_pow_sub_one_eq_mod n 8]
    omega
  rw [← UInt32.toNat_inj, ← UInt8.toNat_inj, hlow]
  rfl

end Vmwos.DeviceTree
