import Vmwos.DeviceTreeValues

/-!
# The size of the memory

`devicetree_get_memory_new` decodes the first value of `reg` in the node `memory@0`, which is
an address and a size in big-endian cells of 32 bits. A field of two cells goes through
`big_to_little64`, whose shifts do not move the bytes to their places: of the bytes `b₀` to
`b₇` of the field, with the highest first, it makes

    0, b₀, b₁, b₂ ||| b₃, b₄ ||| b₅, b₆, b₇, 0

Results:
1. `toNat_bigToLittle64`: what `big_to_little64` computes.
2. `address_decoded_iff`, `size_decoded_iff`: on which fields that is the value.
3. `memory_decoded_iff`: when the address and the size of the memory are decoded.
-/

namespace Vmwos.DeviceTree

open Bytes

/-! ## Definitions -/

/-- The bytes of a cell. -/
def cell (v : UInt32) : List UInt8 := (toLe v).reverse

/-- The two cells of a 64-bit field. -/
def highCell (v : UInt64) : UInt32 := (v >>> 32).toUInt32
def lowCell (v : UInt64) : UInt32 := v.toUInt32

/-- A value of `reg`: an address and a size of one cell each, an address of two cells and a size
of one, or two such pairs. -/
inductive Reg where
  | one (address size : UInt32)
  | two (address : UInt64) (size : UInt32)
  | pairs (address : UInt64) (size : UInt32) (address' : UInt64) (size' : UInt32)

namespace Reg

/-- The first address. -/
def address : Reg → UInt64
  | one address _ => address.toUInt64
  | two address _ => address
  | pairs address _ _ _ => address

/-- The first size. -/
def size : Reg → UInt64
  | one _ size => size.toUInt64
  | two _ size => size.toUInt64
  | pairs _ size _ _ => size.toUInt64

/-- The cells, in order. -/
def cells : Reg → List UInt32
  | one address size => [address, size]
  | two address size => [highCell address, lowCell address, size]
  | pairs address size address' size' =>
    [highCell address, lowCell address, size, highCell address', lowCell address', size']

/-- The value in memory. -/
def bytes (r : Reg) : List UInt8 := r.cells.flatMap cell

/-- The address has no bits set but those from 24 to 39. -/
def MiddleBits (address : UInt64) : Prop := address.toNat % 2 ^ 24 = 0 ∧ address.toNat < 2 ^ 40

/-- The fields that `big_to_little64` decodes. -/
def Decodable : Reg → Prop
  | one _ _ => True
  | two address size => MiddleBits address ∧ size = 0
  | pairs address _ _ _ => MiddleBits address

end Reg

/-! ## 1. The byte swap -/

/-- The byte of a number from bit `k` on. -/
def byteOf (n k : Nat) : Nat := n / 2 ^ k % 256

theorem byteOf_lt (n k : Nat) : byteOf n k < 2 ^ 8 := Nat.mod_lt _ (by decide)

theorem byteOf_div (n j k : Nat) : byteOf (n / 2 ^ j) k = byteOf n (j + k) := by
  unfold byteOf
  rw [Nat.div_div_eq_div_mul, ← Nat.pow_add]

theorem byteOf_mod {n j k : Nat} (h : k + 8 ≤ j) : byteOf (n % 2 ^ j) k = byteOf n k := by
  obtain ⟨l, rfl⟩ := Nat.exists_eq_add_of_le h
  unfold byteOf
  rw [Nat.add_assoc, Nat.pow_add, Nat.mod_mul_right_div_self, Nat.pow_add]
  exact Nat.mod_mul_right_mod _ _ _

/-- The bytes of a number that is given by its digits. -/
theorem byteOf_digits {n b₀ b₁ b₂ b₃ b₄ b₅ b₆ b₇ : Nat}
    (hn : n = b₇ * 2 ^ 56 + b₆ * 2 ^ 48 + b₅ * 2 ^ 40 + b₄ * 2 ^ 32 + b₃ * 2 ^ 24 + b₂ * 2 ^ 16 +
      b₁ * 2 ^ 8 + b₀)
    (h₀ : b₀ < 2 ^ 8) (h₁ : b₁ < 2 ^ 8) (h₂ : b₂ < 2 ^ 8) (h₃ : b₃ < 2 ^ 8) (h₄ : b₄ < 2 ^ 8)
    (h₅ : b₅ < 2 ^ 8) (h₆ : b₆ < 2 ^ 8) (h₇ : b₇ < 2 ^ 8) :
    byteOf n 0 = b₀ ∧ byteOf n 8 = b₁ ∧ byteOf n 16 = b₂ ∧ byteOf n 24 = b₃ ∧ byteOf n 32 = b₄ ∧
      byteOf n 40 = b₅ ∧ byteOf n 48 = b₆ ∧ byteOf n 56 = b₇ := by
  unfold byteOf
  omega

theorem byte_shiftRight {n k j : Nat} (hj : j ≤ k) :
    (n &&& 0xff <<< k) >>> j = byteOf n k * 2 ^ (k - j) := by
  have hpow : 2 ^ k = 2 ^ (k - j) * 2 ^ j := (Nat.pow_sub_mul_pow 2 hj).symm
  rw [and_shiftLeft, byte_eq, ← byteOf, Nat.shiftLeft_eq, Nat.shiftRight_eq_div_pow, hpow,
    ← Nat.mul_assoc, Nat.mul_div_cancel _ (Nat.two_pow_pos j)]

theorem byte_shiftLeft (n k j : Nat) : (n &&& 0xff <<< k) <<< j = byteOf n k * 2 ^ (k + j) := by
  rw [and_shiftLeft, byte_eq, Nat.shiftLeft_eq, Nat.shiftLeft_eq, Nat.mul_assoc, ← Nat.pow_add,
    byteOf]

/-- A byte that is shifted stays in 64 bits. -/
theorem byte_shiftLeft_mod {n k j : Nat} (h : k + j + 8 ≤ 64) :
    (n &&& 0xff <<< k) <<< j % 2 ^ 64 = byteOf n k * 2 ^ (k + j) := by
  rw [byte_shiftLeft]
  refine Nat.mod_eq_of_lt ?_
  calc byteOf n k * 2 ^ (k + j) < 2 ^ 8 * 2 ^ (k + j) :=
        Nat.mul_lt_mul_of_pos_right (byteOf_lt n k) (Nat.two_pow_pos _)
    _ = 2 ^ (k + j + 8) := by rw [← Nat.pow_add, Nat.add_comm]
    _ ≤ 2 ^ 64 := Nat.pow_le_pow_right (by decide) h

/-- Two bytes in one place. -/
theorem mul_or_mul (a b k : Nat) : a * 2 ^ k ||| b * 2 ^ k = (a ||| b) * 2 ^ k := by
  rw [← Nat.shiftLeft_eq, ← Nat.shiftLeft_eq, ← Nat.shiftLeft_eq, Nat.shiftLeft_or_distrib]

/-- `big_to_little64`, byte by byte. -/
theorem toNat_bigToLittle64 (big : UInt64) :
    (bigToLittle64 big).toNat =
      byteOf big.toNat 0 * 2 ^ 48 + (byteOf big.toNat 8 * 2 ^ 40 +
        ((byteOf big.toNat 24 ||| byteOf big.toNat 16) * 2 ^ 32 +
          ((byteOf big.toNat 40 ||| byteOf big.toNat 32) * 2 ^ 24 +
            (byteOf big.toNat 48 * 2 ^ 16 + byteOf big.toNat 56 * 2 ^ 8)))) := by
  simp only [bigToLittle64, UInt64.toNat_or, UInt64.toNat_and, UInt64.toNat_shiftRight,
    UInt64.toNat_shiftLeft, UInt64.reduceToNat, Nat.reduceMod]
  generalize big.toNat = n
  have e₇ : (n &&& 0xff00000000000000) >>> 48 = byteOf n 56 * 2 ^ 8 :=
    byte_shiftRight (k := 56) (by decide)
  have e₆ : (n &&& 0x00ff000000000000) >>> 32 = byteOf n 48 * 2 ^ 16 :=
    byte_shiftRight (k := 48) (by decide)
  have e₅ : (n &&& 0x0000ff0000000000) >>> 16 = byteOf n 40 * 2 ^ 24 :=
    byte_shiftRight (k := 40) (by decide)
  have e₄ : (n &&& 0x000000ff00000000) >>> 8 = byteOf n 32 * 2 ^ 24 :=
    byte_shiftRight (k := 32) (by decide)
  have e₃ : (n &&& 0x00000000ff000000) <<< 8 % 2 ^ 64 = byteOf n 24 * 2 ^ 32 :=
    byte_shiftLeft_mod (k := 24) (by decide)
  have e₂ : (n &&& 0x0000000000ff0000) <<< 16 % 2 ^ 64 = byteOf n 16 * 2 ^ 32 :=
    byte_shiftLeft_mod (k := 16) (by decide)
  have e₁ : (n &&& 0x000000000000ff00) <<< 32 % 2 ^ 64 = byteOf n 8 * 2 ^ 40 :=
    byte_shiftLeft_mod (k := 8) (by decide)
  have e₀ : (n &&& 0x00000000000000ff) <<< 48 % 2 ^ 64 = byteOf n 0 * 2 ^ 48 :=
    byte_shiftLeft_mod (k := 0) (by decide)
  rw [e₇, e₆, e₅, e₄, e₃, e₂, e₁, e₀]
  have h₇ := byteOf_lt n 56
  have h₆ := byteOf_lt n 48
  have h₁ := byteOf_lt n 8
  have h₄₅ := Nat.or_lt_two_pow (byteOf_lt n 40) (byteOf_lt n 32)
  have h₂₃ := Nat.or_lt_two_pow (byteOf_lt n 24) (byteOf_lt n 16)
  -- from the lowest byte up
  rw [or_eq_add (k := 16) (by omega), Nat.or_assoc _ (byteOf n 40 * _), mul_or_mul,
    or_eq_add (k := 24) (by omega), Nat.or_assoc _ (byteOf n 24 * _), mul_or_mul,
    or_eq_add (k := 32) (by omega), or_eq_add (k := 40) (by omega), or_eq_add (k := 48) (by omega)]

/-! ## 2. Fields -/

/-- A cell as the code loads it. -/
def loadedCell (v : UInt32) : UInt32 := ofLe (cell v)

/-- A field of two cells as the code loads it. -/
def loadedField (v : UInt64) : UInt64 :=
  (loadedCell (highCell v)).toUInt64 ||| (loadedCell (lowCell v)).toUInt64 <<< 32

theorem bigToLittle_loadedCell (v : UInt32) : bigToLittle (loadedCell v) = v := by
  unfold loadedCell cell toLe
  rw [List.reverse_cons, List.reverse_cons, List.reverse_cons, List.reverse_cons]
  exact (bigToLittle_ofLe _ _ _ _).trans (ofLe_toLe v)

theorem toNat_loadedCell (v : UInt32) :
    (loadedCell v).toNat = byteOf v.toNat 0 * 2 ^ 24 + byteOf v.toNat 8 * 2 ^ 16 +
      byteOf v.toNat 16 * 2 ^ 8 + byteOf v.toNat 24 := by
  unfold loadedCell cell ofLe
  rw [List.reverse_reverse]
  unfold toLe
  rw [toNat_ofBe]
  simp only [byteOf, UInt32.toNat_toUInt8, UInt32.toNat_div, UInt32.reduceToNat, Nat.reducePow,
    Nat.div_one]

/-- The bytes of a field are loaded in reverse. -/
theorem toNat_loadedField (v : UInt64) :
    (loadedField v).toNat =
      byteOf v.toNat 0 * 2 ^ 56 + byteOf v.toNat 8 * 2 ^ 48 + byteOf v.toNat 16 * 2 ^ 40 +
        byteOf v.toNat 24 * 2 ^ 32 + byteOf v.toNat 32 * 2 ^ 24 + byteOf v.toNat 40 * 2 ^ 16 +
        byteOf v.toNat 48 * 2 ^ 8 + byteOf v.toNat 56 := by
  have hv := v.toNat_lt
  have hhigh : (highCell v).toNat = v.toNat / 2 ^ 32 := by
    unfold highCell
    rw [UInt64.toNat_toUInt32, UInt64.toNat_shiftRight]
    simp only [UInt64.reduceToNat, Nat.reduceMod, Nat.shiftRight_eq_div_pow]
    omega
  have hlow : (lowCell v).toNat = v.toNat % 2 ^ 32 := UInt64.toNat_toUInt32 v
  have hloaded := (loadedCell (lowCell v)).toNat_lt
  have hloaded' := (loadedCell (highCell v)).toNat_lt
  have hor : (loadedField v).toNat =
      (loadedCell (lowCell v)).toNat * 2 ^ 32 + (loadedCell (highCell v)).toNat := by
    unfold loadedField
    rw [UInt64.toNat_or, UInt64.toNat_shiftLeft, UInt32.toNat_toUInt64, UInt32.toNat_toUInt64,
      Nat.shiftLeft_eq]
    simp only [UInt64.reduceToNat, Nat.reduceMod]
    rw [Nat.mod_eq_of_lt (by omega), or_eq_add (by omega)]
  rw [hor, toNat_loadedCell, toNat_loadedCell, hlow, hhigh, byteOf_mod (by decide),
    byteOf_mod (by decide), byteOf_mod (by decide), byteOf_mod (by decide), byteOf_div, byteOf_div,
    byteOf_div, byteOf_div]
  simp only [Nat.reduceAdd]
  omega

/-- What `big_to_little64` makes of a field. -/
theorem toNat_bigToLittle64_loadedField (v : UInt64) :
    (bigToLittle64 (loadedField v)).toNat =
      byteOf v.toNat 56 * 2 ^ 48 + (byteOf v.toNat 48 * 2 ^ 40 +
        ((byteOf v.toNat 32 ||| byteOf v.toNat 40) * 2 ^ 32 +
          ((byteOf v.toNat 16 ||| byteOf v.toNat 24) * 2 ^ 24 +
            (byteOf v.toNat 8 * 2 ^ 16 + byteOf v.toNat 0 * 2 ^ 8)))) := by
  obtain ⟨e₀, e₁, e₂, e₃, e₄, e₅, e₆, e₇⟩ := byteOf_digits (toNat_loadedField v) (byteOf_lt _ 56)
    (byteOf_lt _ 48) (byteOf_lt _ 40) (byteOf_lt _ 32) (byteOf_lt _ 24) (byteOf_lt _ 16)
    (byteOf_lt _ 8) (byteOf_lt _ 0)
  rw [toNat_bigToLittle64, e₀, e₁, e₂, e₃, e₄, e₅, e₆, e₇]

/-- The bytes that are 0 in an address with the middle bits only. -/
theorem middleBits_iff (v : UInt64) :
    Reg.MiddleBits v ↔
      (byteOf v.toNat 0 = 0 ∧ byteOf v.toNat 8 = 0 ∧ byteOf v.toNat 16 = 0) ∧
        byteOf v.toNat 40 = 0 ∧ byteOf v.toNat 48 = 0 ∧ byteOf v.toNat 56 = 0 := by
  have hv := v.toNat_lt
  unfold Reg.MiddleBits byteOf
  refine and_congr ?_ ?_
  · omega
  · omega

/-- The addresses that are decoded. -/
theorem address_decoded_iff (v : UInt64) :
    bigToLittle64 (loadedField v) = v ↔ Reg.MiddleBits v := by
  have hswap := toNat_bigToLittle64_loadedField v
  constructor
  · -- every byte of the address is the one next to it, and the last ones are 0
    intro heq
    rw [heq] at hswap
    have hdigits : v.toNat = 0 * 2 ^ 56 + byteOf v.toNat 56 * 2 ^ 48 +
        byteOf v.toNat 48 * 2 ^ 40 + (byteOf v.toNat 32 ||| byteOf v.toNat 40) * 2 ^ 32 +
        (byteOf v.toNat 16 ||| byteOf v.toNat 24) * 2 ^ 24 + byteOf v.toNat 8 * 2 ^ 16 +
        byteOf v.toNat 0 * 2 ^ 8 + 0 := by
      rw [Nat.zero_mul, Nat.zero_add, Nat.add_zero]
      simpa only [Nat.add_assoc] using hswap
    obtain ⟨e₀, e₁, e₂, _, _, e₅, e₆, e₇⟩ := byteOf_digits hdigits (by decide) (byteOf_lt _ 0)
      (byteOf_lt _ 8) (Nat.or_lt_two_pow (byteOf_lt _ 16) (byteOf_lt _ 24))
      (Nat.or_lt_two_pow (byteOf_lt _ 32) (byteOf_lt _ 40)) (byteOf_lt _ 48) (byteOf_lt _ 56)
      (by decide)
    refine (middleBits_iff v).mpr ⟨⟨e₀, e₁.trans e₀, ?_⟩, ?_, e₆.trans e₇, e₇⟩
    · exact e₂.trans (e₁.trans e₀)
    · exact e₅.trans (e₆.trans e₇)
  · intro hmiddle
    obtain ⟨⟨z₀, z₁, z₂⟩, z₅, z₆, z₇⟩ := (middleBits_iff v).mp hmiddle
    obtain ⟨hlow, hhigh⟩ := hmiddle
    apply UInt64.toNat_inj.mp
    rw [hswap, z₀, z₁, z₂, z₅, z₆, z₇, Nat.zero_or, Nat.or_zero]
    unfold byteOf
    omega

/-- The sizes that are decoded, when a cell goes through `big_to_little64`. -/
theorem size_decoded_iff (v : UInt32) :
    bigToLittle64 (loadedCell v).toUInt64 = v.toUInt64 ↔ v = 0 := by
  constructor
  · intro heq
    have hloaded := (loadedCell v).toNat_lt
    have hv := v.toNat_lt
    have hhigh : ∀ k, 32 ≤ k → byteOf (loadedCell v).toNat k = 0 := by
      intro k hk
      have hpow : 2 ^ 32 ≤ 2 ^ k := Nat.pow_le_pow_right (by decide) hk
      rw [byteOf, Nat.div_eq_of_lt (by omega)]
    have hswap := toNat_bigToLittle64 (loadedCell v).toUInt64
    rw [heq, UInt32.toNat_toUInt64, UInt32.toNat_toUInt64, hhigh 32 (by decide),
      hhigh 40 (by decide), hhigh 48 (by decide), hhigh 56 (by decide), Nat.or_zero] at hswap
    exact UInt32.toNat_inj.mp (show v.toNat = 0 by omega)
  · rintro rfl
    decide

/-! ## 3. The memory node -/

variable {dt : DeviceTreeType} {root : List UInt8} {items : Items} {i : Nat}

theorem length_flatMap_cell (cells : List UInt32) : (cells.flatMap cell).length = 4 * cells.length := by
  induction cells with
  | nil => rfl
  | cons v cells ih =>
    rw [List.flatMap_cons, List.length_append, ih, List.length_cons]
    show 4 + _ = _
    omega

/-- One of the cells of a value. -/
theorem cell_of_flatMap {cells : List UInt32} {k : Nat} {v : UInt32} (h : cells[k]? = some v) :
    ((cells.flatMap cell).drop (4 * k)).take 4 = cell v := by
  induction cells generalizing k with
  | nil => exact absurd h (by simp)
  | cons w cells ih =>
    cases k with
    | zero =>
      cases h
      rfl
    | succ k =>
      rw [List.flatMap_cons, Nat.mul_succ, Nat.add_comm, ← List.drop_drop]
      exact ih h

/-- What the code loads of a value of cells. -/
theorem treeAt_cell (htree : IsTree dt root items) {cells : List UInt32}
    (hvalue : Bytes.read dt.memory (wordAddr dt i) (cells.flatMap cell).length = cells.flatMap cell)
    {k : Nat} {v : UInt32} (hk : cells[k]? = some v)
    (hinside : i + k ≤ (Items.node root items .nil).size) :
    treeAt dt (UInt32.ofNat (i + k)) = loadedCell v := by
  have hlt : k < cells.length := (List.getElem?_eq_some_iff.mp hk).1
  have hlength := length_flatMap_cell cells
  have haddr : wordAddr dt (i + k) = wordAddr dt i + 4 * k := by
    unfold wordAddr
    omega
  rw [htree.treeAt_eq hinside, loadWord, loadedCell, haddr,
    read_slice (by omega) hvalue, cell_of_flatMap hk]

/-- What `devicetree_get_memory_new` makes of a value: the size and the address. -/
def Reg.decoded : Reg → UInt64 × UInt64
  | one address size => (size.toUInt64, address.toUInt64)
  | two address size => (bigToLittle64 (loadedCell size).toUInt64, bigToLittle64 (loadedField address))
  | pairs address size _ _ => (size.toUInt64, bigToLittle64 (loadedField address))

theorem Reg.decoded_eq_iff (r : Reg) : r.decoded = (r.size, r.address) ↔ r.Decodable := by
  cases r with
  | one address size => exact ⟨fun _ => trivial, fun _ => rfl⟩
  | two address size =>
    unfold decoded Reg.size Reg.address Decodable
    rw [Prod.mk.injEq, address_decoded_iff, size_decoded_iff, and_comm]
  | pairs address size address' size' =>
    unfold decoded Reg.size Reg.address Decodable
    rw [Prod.mk.injEq, address_decoded_iff]
    exact and_iff_right rfl

theorem devicetreeGetMemoryNew_eq {r : Reg} {result : UInt32} (returnAddress : UInt64)
    (hsearch : devicetreeFindNodeProp dt (some (bytesFrom memoryAtName)) (bytesFrom regName) =
      some result)
    (hlength : bigToLittle (treeAt dt result) = UInt32.ofNat (4 * r.cells.length))
    (hcells : ∀ k v, r.cells[k]? = some v →
      treeAt dt (result + 2 + UInt32.ofNat k) = loadedCell v) :
    devicetreeGetMemoryNew dt returnAddress = some r.decoded := by
  have hfirst : ∀ v, r.cells[0]? = some v → treeAt dt (result + 2) = loadedCell v := by
    intro v hv
    rw [← hcells 0 v hv]
    simp
  have hsecond : ∀ v, r.cells[1]? = some v → treeAt dt (result + 2 + 1) = loadedCell v := hcells 1
  have hthird : ∀ v, r.cells[2]? = some v → treeAt dt (result + 2 + 2) = loadedCell v := hcells 2
  have hfield : ∀ v, r.cells[0]? = some (highCell v) → r.cells[1]? = some (lowCell v) →
      treeAt64 dt (result + 2) = loadedField v := by
    intro v hhigh hlow
    rw [treeAt64, hfirst _ hhigh, hsecond _ hlow, loadedField]
  unfold devicetreeGetMemoryNew
  rw [hsearch, Option.bind_eq_bind, Option.bind_some, if_neg UInt32.not_lt_zero]
  cases r with
  | one address size =>
    have height : bigToLittle (treeAt dt result) = 8 := hlength
    simp only [height]
    rw [if_pos trivial, hfirst address rfl, hsecond size rfl, bigToLittle_loadedCell,
      bigToLittle_loadedCell, Reg.decoded]
  | two address size =>
    have htwelve : bigToLittle (treeAt dt result) = 12 := hlength
    simp only [htwelve]
    rw [if_neg (by decide), if_pos trivial, hthird size rfl, hfield address rfl rfl, Reg.decoded]
  | pairs address size address' size' =>
    have htwentyFour : bigToLittle (treeAt dt result) = 24 := hlength
    simp only [htwentyFour]
    rw [if_neg (by decide), if_neg (by decide), if_pos trivial, hthird size rfl,
      hfield address rfl rfl, bigToLittle_loadedCell, Reg.decoded]

/-- The value of the first `reg` in `memory@0` is the one that is decoded. -/
theorem IsTree.memory_eq (htree : IsTree dt root items) {p : Property}
    (hp : FirstWanted (some memoryAtName) regName (document root items) p) {r : Reg}
    (hvalue : IsProperty dt p.index regName r.bytes) (returnAddress : UInt64) :
    devicetreeGetMemoryNew dt returnAddress = some r.decoded := by
  obtain ⟨hmem, hsearch⟩ := devicetreeFindNodeProp_first htree pointsTo_memoryAt stringAt_reg hp
  obtain ⟨value, hvalue', hle⟩ := htree.encodes.property hmem
  have hlength : r.bytes.length = 4 * r.cells.length := length_flatMap_cell r.cells
  have hinside : p.index + 2 + r.cells.length ≤ (Items.node root items .nil).size := by
    have heq : value.length = r.bytes.length := hvalue'.length_eq.symm.trans hvalue.length_eq
    rw [valueWords, heq, hlength] at hle
    omega
  have hsize := htree.size_lt
  refine devicetreeGetMemoryNew_eq returnAddress hsearch ?_ fun k v hk => ?_
  · have hword : bigToLittle (treeAt dt (UInt32.ofNat p.index)) = word dt p.index := by
      rw [htree.treeAt_eq (by omega), word]
    apply UInt32.toNat_inj.mp
    rw [hword, hvalue.length_eq, hlength,
      UInt32.toNat_ofNat_of_lt' (show 4 * r.cells.length < 2 ^ 32 by omega)]
  · have hlt : k < r.cells.length := (List.getElem?_eq_some_iff.mp hk).1
    have hindex : UInt32.ofNat p.index + 2 + UInt32.ofNat k = UInt32.ofNat (p.index + 2 + k) := by
      rw [UInt32.ofNat_add, UInt32.ofNat_add]
      rfl
    rw [hindex]
    exact treeAt_cell htree hvalue.value_eq hk (by omega)

/-- The size and the address of the memory, for every device tree and every value of the first
`reg` in `memory@0`. -/
theorem memory_decoded_iff (dt : DeviceTreeType) (root : List UInt8) (items : Items)
    (htree : IsTree dt root items) (p : Property)
    (hp : FirstWanted (some memoryAtName) regName (document root items) p) (r : Reg)
    (hvalue : IsProperty dt p.index regName r.bytes) (returnAddress : UInt64) :
    devicetreeGetMemoryNew dt returnAddress = some (r.size, r.address) ↔ r.Decodable := by
  rw [htree.memory_eq hp hvalue returnAddress, Option.some.injEq, Reg.decoded_eq_iff]

/-! ### A board with two cells for the address -/

/-- The memory of the small tree has 4 KB at address 0. -/
theorem memory_decoded_iff_small :
    devicetreeGetMemoryNew smallTree 0 = some (0x1000, 0) := by
  have hp : FirstWanted (some memoryAtName) regName (document [] smallItems)
      ⟨memoryAtName, regName, 12⟩ :=
    ⟨by decide, [⟨[], [109, 111, 100, 101, 108], 3⟩], [], rfl, by decide⟩
  exact (memory_decoded_iff smallTree [] smallItems smallTree_isTree _ hp (.one 0 0x1000)
    ⟨by decide +kernel, ⟨by simp [regName], by decide +kernel, by decide +kernel⟩, by decide,
      by decide +kernel⟩ 0).mpr trivial

/-- The root node has the node `memory@0` with 0x3b400000 bytes at address 0, in 12 bytes. -/
def boardReg : Reg := .two 0 0x3b400000
def boardItems : Items := .node memoryAtName (.prop regName boardReg.bytes .nil) .nil
def boardBlob : List UInt8 :=
  ([0xd00dfeed, 104, 40, 100, 0, 17, 16, 0, 4, 60,
    1, 0, 1, 0x6d656d6f, 0x72794030, 0, 3, 12, 0, 0, 0, 0x3b400000, 2, 2,
    9] : List UInt32).flatMap (fun v => (toLe v).reverse) ++ [114, 101, 103, 0]
def boardTree : DeviceTreeType :=
  (devicetreeSetup ⟨bytesFrom [], 0, 0, 0, 0⟩ (bytesFrom boardBlob)).2

theorem board_reg : IsProperty boardTree 7 regName boardReg.bytes :=
  ⟨by decide +kernel, ⟨by simp [regName], by decide +kernel, by decide +kernel⟩, by decide,
    by decide +kernel⟩

theorem boardTree_isTree : IsTree boardTree [] boardItems := by
  refine ⟨by decide, ⟨by decide +kernel, ⟨⟨by simp, by decide +kernel⟩, by decide⟩, ?_,
    by decide +kernel, trivial⟩, by decide +kernel, by decide +kernel⟩
  refine ⟨by decide +kernel, ⟨⟨by simp [memoryAtName], by decide +kernel⟩, by decide⟩, ?_,
    by decide +kernel, trivial⟩
  exact ⟨by decide +kernel, board_reg, trivial⟩

/-- The size is decoded as 0x3b400000000000. -/
theorem board_memory_wrong :
    IsTree boardTree [] boardItems ∧
      FirstWanted (some memoryAtName) regName (document [] boardItems)
        ⟨memoryAtName, regName, 7⟩ ∧
      IsProperty boardTree 7 regName boardReg.bytes ∧
      devicetreeGetMemoryNew boardTree 0 = some (0x3b400000000000, 0) ∧
      devicetreeGetMemoryNew boardTree 0 ≠ some (boardReg.size, boardReg.address) := by
  have hp : FirstWanted (some memoryAtName) regName (document [] boardItems)
      ⟨memoryAtName, regName, 7⟩ := ⟨by decide, [], [], rfl, by simp⟩
  have hdecoded := boardTree_isTree.memory_eq hp board_reg 0
  refine ⟨boardTree_isTree, hp, board_reg, ?_, ?_⟩
  · rw [hdecoded]
    decide +kernel
  · rw [hdecoded]
    decide +kernel

end Vmwos.DeviceTree
