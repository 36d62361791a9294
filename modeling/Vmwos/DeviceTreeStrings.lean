import Vmwos.DeviceTreeValues

/-!
# String properties of the device tree

`devicetree_find_string` copies a value of the length the blob gives for it. The length of
the caller's buffer is passed on and not looked at, and no NUL is added.

Result: `findString_iff`. The buffer is respected exactly when the value fits and brings its
own NUL, or finds one in the buffer behind it. For a property that does not exist, the word
8 bytes before the structure block is the length that has to fit.
-/

namespace Vmwos.DeviceTree

open Bytes

/-! ## Definitions -/

/-- The number of bytes that `devicetree_find_string` writes. -/
def findStringWrites (dt : DeviceTreeType) (node : Option Mem) (prop : Mem) : Option Nat := do
  let result ← devicetreeFindNodeProp dt node prop
  if result < 0 ∨ dt.valid = 0 then some 0 else some (bigToLittle (treeAt dt result)).toNat

/-- The call writes no more than the buffer takes, and leaves a NUL-terminated prefix of a
value that exists. -/
def RespectsBuffer (dt : DeviceTreeType) (root : List UInt8) (items : Items) (node : Option Mem)
    (nodeName : Option (List UInt8)) (prop : Mem) (propName : List UInt8) (string : Mem)
    (len : UInt32) : Prop :=
  ∃ n r buffer, findStringWrites dt node prop = some n ∧ n ≤ len.toNat ∧
    devicetreeFindString dt node prop string len = some (r, buffer) ∧
    ∀ p value, FirstWanted nodeName propName (document root items) p →
      IsProperty dt p.index p.name value →
      ∃ s, StringAt buffer 0 s ∧ s <+: value ∧ s.length < len.toNat

/-- The value fits, with a NUL in it or in the buffer behind it. -/
def TextFits (string : Mem) (len : UInt32) (value : List UInt8) : Prop :=
  value.length ≤ len.toNat ∧ (0 ∈ value ∨ value.length < len.toNat ∧ string value.length = 0)

/-- The value of the property fits, or the word that is taken for its length when there is no such
property. -/
def StringFits (dt : DeviceTreeType) (root : List UInt8) (items : Items)
    (nodeName : Option (List UInt8)) (propName : List UInt8) (string : Mem) (len : UInt32) : Prop :=
  (∀ p value, FirstWanted nodeName propName (document root items) p →
      IsProperty dt p.index p.name value → TextFits string len value) ∧
    (Missing root items nodeName propName →
      (bigToLittle (treeAt dt eNOENT)).toNat ≤ len.toNat)

/-! ## A copied value -/

theorem stringAt_write_prefix {m : Mem} {s t : List UInt8} (hs : 0 ∉ s) :
    StringAt (write m 0 (s ++ 0 :: t)) 0 s := by
  have hread : read (write m 0 (s ++ 0 :: t)) 0 (s ++ 0 :: t).length = s ++ 0 :: t := read_write
  rw [List.length_append, read_add] at hread
  refine ⟨fun c hc h0 => hs (h0 ▸ hc), (List.append_inj hread (by simp)).1, ?_⟩
  have hlt : s.length < (s ++ 0 :: t).length := by simp
  rw [write_inside hlt]
  simp

/-- Where a value that fits is followed by a NUL. -/
theorem exists_prefix_iff {string : Mem} {len : Nat} {value : List UInt8}
    (hfits : value.length ≤ len) :
    (∃ s, StringAt (write string 0 value) 0 s ∧ s <+: value ∧ s.length < len) ↔
      0 ∈ value ∨ value.length < len ∧ string value.length = 0 := by
  constructor
  · rintro ⟨s, hs, ⟨t, rfl⟩, hlt⟩
    have hnul := hs.nul
    cases t with
    | nil =>
      rw [List.append_nil] at hnul ⊢
      rw [write_outside (.inr (le_refl _)), Nat.zero_add] at hnul
      exact .inr ⟨hlt, hnul⟩
    | cons c t =>
      have hinside : s.length < (s ++ c :: t).length := by simp
      rw [write_inside hinside] at hnul
      refine .inl ?_
      rw [← hnul]
      exact List.getElem_mem _
  · intro h
    by_cases h0 : 0 ∈ value
    · obtain ⟨s, t, rfl, hs⟩ := List.eq_append_cons_of_mem h0
      refine ⟨s, stringAt_write_prefix hs, List.prefix_append _ _, ?_⟩
      rw [List.length_append, List.length_cons] at hfits
      omega
    · obtain ⟨hlt, hnul⟩ := h.resolve_left h0
      refine ⟨value, ⟨fun c hc hz => h0 (hz ▸ hc), read_write, ?_⟩, List.prefix_refl _, hlt⟩
      rw [write_outside (.inr (le_refl _)), Nat.zero_add]
      exact hnul

/-! ## The copy of the code -/

variable {dt : DeviceTreeType} {root : List UInt8} {items : Items} {node : Option Mem}
  {prop : Mem} {nodeName : Option (List UInt8)} {propName value : List UInt8} {p : Property}

/-- The value of a property is determined by the blob. -/
theorem IsProperty.value_unique {i : Nat} {name name' value' : List UInt8}
    (h : IsProperty dt i name value) (h' : IsProperty dt i name' value') : value = value' := by
  have hlength : value.length = value'.length := h.length_eq.symm.trans h'.length_eq
  rw [← h.value_eq, hlength, h'.value_eq]

/-- The bytes that follow a search. -/
theorem findString_of_search {result : UInt32} (string : Mem) (len : UInt32) (hvalid : dt.valid ≠ 0)
    (hsearch : devicetreeFindNodeProp dt node prop = some result) :
    findStringWrites dt node prop = some (bigToLittle (treeAt dt result)).toNat ∧
      devicetreeFindString dt node prop string len = some (0, write string 0
        ((List.range (bigToLittle (treeAt dt result)).toNat).map fun j =>
          dt.memory ((treeAddr dt (result + 2) + j) % 2 ^ 32))) := by
  constructor
  · unfold findStringWrites
    rw [hsearch, Option.bind_eq_bind, Option.bind_some, if_neg]
    rintro (hneg | hinvalid)
    · exact UInt32.not_lt_zero hneg
    · exact hvalid hinvalid
  · unfold devicetreeFindString
    rw [findValue_eq hsearch]
    unfold devicetreePropString
    rw [if_neg hvalid]

/-- A property that exists is copied with all its bytes. -/
theorem findString_first (htree : IsTree dt root items) (hnode : PointsTo node nodeName)
    (hprop : StringAt prop 0 propName) (hp : FirstWanted nodeName propName (document root items) p)
    (hvalue : IsProperty dt p.index p.name value) (string : Mem) (len : UInt32) :
    findStringWrites dt node prop = some value.length ∧
      devicetreeFindString dt node prop string len = some (0, write string 0 value) := by
  obtain ⟨hmem, hsearch⟩ := devicetreeFindNodeProp_first htree hnode hprop hp
  obtain ⟨hlt, -⟩ := htree.index_lt hmem
  obtain ⟨value', hvalue', hinside⟩ := htree.encodes.property hmem
  cases hvalue.value_unique hvalue'
  rw [Nat.zero_add] at hinside
  have hlength : (bigToLittle (treeAt dt (UInt32.ofNat p.index))).toNat = value.length := by
    rw [htree.treeAt_eq (by omega)]
    exact hvalue.length_eq
  have haddr : treeAddr dt (UInt32.ofNat p.index + 2) = wordAddr dt (p.index + 2) := by
    rw [show UInt32.ofNat p.index + 2 = UInt32.ofNat (p.index + 2) from (UInt32.ofNat_add _ 2).symm]
    exact htree.treeAddr_eq (by omega)
  -- the value lies in the blob, so its addresses do not wrap
  have hend : wordAddr dt (p.index + 2) + value.length < 2 ^ 32 := by
    have hle := htree.wordAddr_le hinside
    have htotal := dt.totalsize.toNat_lt
    unfold wordAddr valueWords at hle
    unfold wordAddr
    omega
  have hbytes : ((List.range value.length).map fun j =>
      dt.memory ((wordAddr dt (p.index + 2) + j) % 2 ^ 32)) = value := by
    rw [← hvalue.value_eq, length_read]
    refine List.map_congr_left fun j hj => ?_
    rw [Nat.mod_eq_of_lt]
    have hj' := List.mem_range.mp hj
    omega
  obtain ⟨hwrites, hstring⟩ := findString_of_search string len htree.valid hsearch
  rw [hlength, haddr, hbytes] at hstring
  rw [hlength] at hwrites
  exact ⟨hwrites, hstring⟩

/-! ## The buffer -/

/-- For every device tree, node, property, buffer and length, `devicetree_find_string` respects
the buffer exactly when the value, or the word taken for its length, fits. -/
theorem findString_iff (dt : DeviceTreeType) (root : List UInt8) (items : Items)
    (htree : IsTree dt root items) (node : Option Mem) (nodeName : Option (List UInt8))
    (hnode : PointsTo node nodeName) (prop : Mem) (propName : List UInt8)
    (hprop : StringAt prop 0 propName) (string : Mem) (len : UInt32) :
    RespectsBuffer dt root items node nodeName prop propName string len ↔
      StringFits dt root items nodeName propName string len := by
  unfold RespectsBuffer StringFits
  rcases firstWanted_or_missing nodeName propName (document root items) with ⟨p, hp⟩ | hmissing
  · have hmem := (devicetreeFindNodeProp_first htree hnode hprop hp).1
    obtain ⟨value, hvalue, -⟩ := htree.encodes.property hmem
    obtain ⟨hwrites, hstring⟩ := findString_first htree hnode hprop hp hvalue string len
    -- there is one first property, and it has one value
    have hone : ∀ q value', FirstWanted nodeName propName (document root items) q →
        IsProperty dt q.index q.name value' → value' = value := by
      intro q value' hq hvalue'
      cases (find_of_firstWanted hp).symm.trans (find_of_firstWanted hq)
      exact hvalue'.value_unique hvalue
    constructor
    · rintro ⟨n, r, buffer, hn, hle, hcall, htext⟩
      cases hwrites.symm.trans hn
      cases hstring.symm.trans hcall
      refine ⟨fun q value' hq hvalue' => ?_, fun hnone => absurd hp.1 (hnone p hmem)⟩
      cases hone q value' hq hvalue'
      exact ⟨hle, (exists_prefix_iff hle).mp (htext p value hp hvalue)⟩
    · rintro ⟨hfits, -⟩
      obtain ⟨hle, htext⟩ := hfits p value hp hvalue
      refine ⟨_, _, _, hwrites, hle, hstring, fun q value' hq hvalue' => ?_⟩
      cases hone q value' hq hvalue'
      exact (exists_prefix_iff hle).mpr htext
  · have hsearch := devicetreeFindNodeProp_missing htree hnode hprop hmissing
    obtain ⟨hwrites, hstring⟩ := findString_of_search string len htree.valid hsearch
    have hnone : ∀ q, ¬ FirstWanted nodeName propName (document root items) q :=
      fun q hq => hmissing q (List.mem_of_find?_eq_some (find_of_firstWanted hq)) hq.1
    constructor
    · rintro ⟨n, r, buffer, hn, hle, -, -⟩
      cases hwrites.symm.trans hn
      exact ⟨fun q _ hq => absurd hq (hnone q), fun _ => hle⟩
    · rintro ⟨-, hle⟩
      exact ⟨_, _, _, hwrites, hle hmissing, hstring, fun q _ hq => absurd hq (hnone q)⟩

/-- The name `model`. -/
def modelName : List UInt8 := [109, 111, 100, 101, 108]

theorem stringAt_model : StringAt (bytesFrom modelName) 0 modelName :=
  stringAt_bytesFrom (by simp [modelName])

theorem small_model : IsProperty smallTree 3 modelName [112, 105, 0] :=
  ⟨by decide +kernel, ⟨by simp [modelName], by decide +kernel, by decide +kernel⟩, by decide,
    by decide +kernel⟩

theorem model_first : FirstWanted none modelName (document [] smallItems) ⟨[], modelName, 3⟩ :=
  ⟨by decide, [], _, rfl, by simp⟩

/-- The model of the small tree is `pi`, with its NUL. It fits into a buffer of 128 bytes. -/
theorem findString_small :
    RespectsBuffer smallTree [] smallItems none none (bytesFrom modelName) modelName
      (bytesFrom []) 128 := by
  refine (findString_iff smallTree [] smallItems smallTree_isTree none none .none _ _ stringAt_model
    (bytesFrom []) 128).mpr ⟨fun p value hp hvalue => ?_, fun hmissing => ?_⟩
  · cases (find_of_firstWanted model_first).symm.trans (find_of_firstWanted hp)
    cases hvalue.value_unique small_model
    exact ⟨by decide, .inl (by decide)⟩
  · have hmem := List.mem_of_find?_eq_some (find_of_firstWanted model_first)
    exact absurd model_first.1 (hmissing _ hmem)

/-- A buffer of two bytes is overrun by the same model. -/
theorem findString_overruns :
    IsTree smallTree [] smallItems ∧
      ¬RespectsBuffer smallTree [] smallItems none none (bytesFrom modelName) modelName
        (bytesFrom []) 2 := by
  refine ⟨smallTree_isTree, ?_⟩
  rintro ⟨n, r, buffer, hn, hle, -, -⟩
  have hwrites := (findString_first smallTree_isTree .none stringAt_model model_first small_model
    (bytesFrom []) 2).1
  cases hwrites.symm.trans hn
  exact absurd hle (by decide)

end Vmwos.DeviceTree
