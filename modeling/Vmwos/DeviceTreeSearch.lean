import Vmwos.DeviceTree

/-!
# Searching the device tree

The format of a flattened device tree as a predicate on the memory, and the properties of a
tree in the order of the document, each with the word index of its length field.

Result: `devicetree_search`. `devicetree_find_node_prop` returns the index of the first
property with the given name in a node of the given name, or `-ENOENT` if there is none.
-/

namespace Vmwos.DeviceTree

open Bytes

/-! ## The format -/

/-- What a node contains, in the order of the document. -/
inductive Items where
  | nil
  | nop (rest : Items)
  | prop (name value : List UInt8) (rest : Items)
  | node (name : List UInt8) (items rest : Items)

/-- The words of a name with its NUL. -/
def nameWords (name : List UInt8) : Nat := name.length / 4 + 1

/-- The words of a value. -/
def valueWords (value : List UInt8) : Nat := (value.length + 3) / 4

/-- The number of words. -/
def Items.size : Items → Nat
  | .nil => 0
  | .nop rest => 1 + rest.size
  | .prop _ value rest => 3 + valueWords value + rest.size
  | .node name items rest => 1 + nameWords name + items.size + 1 + rest.size

theorem Items.add_size_prop (i : Nat) (name value : List UInt8) (rest : Items) :
    i + (Items.prop name value rest).size = i + 3 + valueWords value + rest.size := by
  rw [Items.size]
  omega

theorem Items.add_size_node (i : Nat) (name : List UInt8) (items rest : Items) :
    i + (Items.node name items rest).size =
      i + 1 + nameWords name + items.size + 1 + rest.size := by
  rw [Items.size]
  omega

/-- The name stands at word `i`, padded with zeros. -/
structure IsName (dt : DeviceTreeType) (i : Nat) (name : List UInt8) : Prop where
  nonzero : ∀ c ∈ name, c ≠ 0
  bytes : read dt.memory (wordAddr dt i) (4 * nameWords name) =
    name ++ List.replicate (4 * nameWords name - name.length) 0

/-- A property with its length at word `i`. The padding of the value is arbitrary. -/
structure IsProperty (dt : DeviceTreeType) (i : Nat) (name value : List UInt8) : Prop where
  length_eq : (word dt i).toNat = value.length
  name_eq : StringAt dt.memory (dt.offStrs.toNat + (word dt (i + 1)).toNat) name
  short : name.length < dtStringMaxsize
  value_eq : read dt.memory (wordAddr dt (i + 2)) value.length = value

/-- The words from `i` on encode the items. -/
def Encodes (dt : DeviceTreeType) : Nat → Items → Prop
  | _, .nil => True
  | i, .nop rest => word dt i = fdtNop ∧ Encodes dt (i + 1) rest
  | i, .prop name value rest => word dt i = fdtProp ∧ IsProperty dt (i + 1) name value ∧
      Encodes dt (i + 3 + valueWords value) rest
  | i, .node name items rest => word dt i = fdtBeginNode ∧
      (IsName dt (i + 1) name ∧ name.length < dtStringMaxsize) ∧
      Encodes dt (i + 1 + nameWords name) items ∧
      word dt (i + 1 + nameWords name + items.size) = fdtEndNode ∧
      Encodes dt (i + 1 + nameWords name + items.size + 1) rest

/-- The device tree is that of the root node, `FDT_END` follows it, and it lies inside the
blob. -/
structure IsTree (dt : DeviceTreeType) (root : List UInt8) (items : Items) : Prop where
  valid : dt.valid ≠ 0
  encodes : Encodes dt 0 (.node root items .nil)
  end_eq : word dt (Items.node root items .nil).size = fdtEnd
  inside : wordAddr dt ((Items.node root items .nil).size + 1) ≤ dt.totalsize.toNat

/-! ## The document -/

/-- A property: the name of the node it belongs to, its name, and the index of its length. -/
structure Property where
  node : List UInt8
  name : List UInt8
  index : Nat

/-- The properties of the items from word `i` on, which belong to the node `owner` or to nodes
in it, depth first. -/
def Items.properties (owner : List UInt8) : Nat → Items → List Property
  | _, .nil => []
  | i, .nop rest => rest.properties owner (i + 1)
  | i, .prop name value rest =>
    ⟨owner, name, i + 1⟩ :: rest.properties owner (i + 3 + valueWords value)
  | i, .node name items rest =>
    items.properties name (i + 1 + nameWords name) ++
      rest.properties owner (i + 1 + nameWords name + items.size + 1)

/-- The properties of a tree. -/
def document (root : List UInt8) (items : Items) : List Property :=
  (Items.node root items .nil).properties [] 0

/-- The property has the name, and belongs to a node of the given name, if one is given. -/
def Wanted (node : Option (List UInt8)) (name : List UInt8) (p : Property) : Prop :=
  (node = none ∨ node = some p.node) ∧ p.name = name

instance (node : Option (List UInt8)) (name : List UInt8) : DecidablePred (Wanted node name) :=
  fun _ => inferInstanceAs (Decidable (_ ∧ _))

/-- The first property of a list that is wanted. -/
def FirstWanted (node : Option (List UInt8)) (name : List UInt8) (l : List Property)
    (p : Property) : Prop :=
  Wanted node name p ∧ ∃ before after, l = before ++ p :: after ∧ ∀ q ∈ before, ¬Wanted node name q

/-- A pointer that is `NULL`, or leads to the name. -/
def PointsTo (m : Option Mem) (name : Option (List UInt8)) : Prop :=
  Option.Rel (fun m s => StringAt m 0 s) m name

variable {dt : DeviceTreeType} {node : Option Mem} {prop nodeName : Mem} {i : Nat}
  {want : Option (List UInt8)} {name value owner wantName : List UInt8} {items : Items}

/-! ## Names and values -/

theorem IsName.stringAt (h : IsName dt i name) : StringAt dt.memory (wordAddr dt i) name where
  nonzero := h.nonzero
  chars := by
    have hbytes := h.bytes
    have hlen : 4 * nameWords name = name.length + (4 * nameWords name - name.length) := by
      rw [nameWords]
      omega
    rw [hlen, read_add] at hbytes
    exact (List.append_inj hbytes (by simp)).1
  nul := by
    have hbytes := congrArg (fun l => l[name.length]?) h.bytes
    have hlt : name.length < 4 * nameWords name := by
      rw [nameWords]
      omega
    simp only [getElem?_read hlt, List.getElem?_append_right (le_refl _), Nat.sub_self,
      List.getElem?_replicate] at hbytes
    rw [if_pos (by omega)] at hbytes
    exact Option.some.inj hbytes

/-- `node_name` after the `strlcpy`. -/
theorem IsName.copied (h : IsName dt i name) (hshort : name.length < dtStringMaxsize) :
    StringAt (strlcpy (fun _ => 0) dt.memory (wordAddr dt i) dtStringMaxsize) 0 name :=
  stringAt_strlcpy h.stringAt hshort

/-- The last byte of the first word of a name. -/
theorem IsName.last (h : IsName dt i name) :
    dt.memory (wordAddr dt i + 3) = name[3]?.getD 0 := by
  have hbytes := congrArg (fun l => l[3]?) h.bytes
  have hlt : 3 < 4 * nameWords name := by
    rw [nameWords]
    omega
  simp only [getElem?_read hlt] at hbytes
  rcases Nat.lt_or_ge 3 name.length with hlen | hlen
  · rw [List.getElem?_append_left hlen] at hbytes
    rw [← hbytes, Option.getD_some]
  · rw [List.getElem?_append_right hlen, List.getElem?_replicate, if_pos (by omega)] at hbytes
    rw [List.getElem?_eq_none hlen, Option.getD_none]
    exact Option.some.inj hbytes

theorem wordAddr_succ (dt : DeviceTreeType) (i : Nat) :
    wordAddr dt (i + 1) = wordAddr dt i + 4 := by
  rw [wordAddr, wordAddr]
  omega

/-- A long name goes on in the next word. -/
theorem IsName.drop (h : IsName dt i name) (hlen : 4 ≤ name.length) :
    IsName dt (i + 1) (name.drop 4) := by
  have hwords : 4 * nameWords name = 4 + 4 * nameWords (name.drop 4) := by
    rw [nameWords, nameWords, List.length_drop]
    omega
  refine ⟨fun c hc => h.nonzero c (List.mem_of_mem_drop hc), ?_⟩
  have hbytes := h.bytes
  rw [hwords, read_add] at hbytes
  have hrest := congrArg (List.drop 4) hbytes
  rw [List.drop_left' (by simp), List.drop_append_of_le_length hlen] at hrest
  rw [wordAddr_succ, hrest, List.length_drop]
  congr 2
  omega

/-- The loop over the padding stops behind the name. -/
theorem skipName_eq {fuel : Nat} (h : IsName dt i name) (hfuel : nameWords name ≤ fuel) :
    skipName dt fuel i = some (i + nameWords name) := by
  induction fuel generalizing i name with
  | zero => exact absurd hfuel (by rw [nameWords]; omega)
  | succ fuel ih =>
    rw [skipName]
    rcases Nat.lt_or_ge name.length 4 with hlen | hlen
    · have hlast : dt.memory (wordAddr dt i + 3) = 0 := by
        rw [h.last, List.getElem?_eq_none (by omega), Option.getD_none]
      rw [if_pos ((word_low_eq_zero_iff dt i).mpr hlast), nameWords, Nat.div_eq_of_lt hlen]
    · have hlast : dt.memory (wordAddr dt i + 3) ≠ 0 := by
        rw [h.last, List.getElem?_eq_getElem (by omega), Option.getD_some]
        exact h.nonzero _ (List.getElem_mem _)
      have hwords : nameWords name = nameWords (name.drop 4) + 1 := by
        rw [nameWords, nameWords, List.length_drop]
        omega
      rw [if_neg ((word_low_eq_zero_iff dt i).not.mpr hlast), ih (h.drop hlen) (by omega), hwords]
      congr 1
      omega

theorem node_all_iff (hnode : PointsTo node want) (howner : StringAt nodeName 0 owner)
    (hshort : owner.length < dtStringMaxsize) :
    node.all (fun node => strncmp node nodeName dtStringMaxsize = 0) = true ↔
      want = none ∨ want = some owner := by
  cases hnode with
  | none => simp
  | some hstring =>
    simp [strncmp_eq_zero_iff' hstring howner hshort]

/-- The words that `dt_parse_prop` counts for a value. -/
theorem IsProperty.toNat_words (h : IsProperty dt i name value)
    (hfits : value.length + 3 < 2 ^ 32) : ((word dt i + 3) / 4).toNat = valueWords value := by
  rw [UInt32.toNat_div, UInt32.toNat_add, h.length_eq, valueWords]
  show (value.length + 3) % 2 ^ 32 / 4 = _
  rw [Nat.mod_eq_of_lt hfits]

/-- `dt_parse_prop` returns the index of a property that is wanted, and passes any other. -/
theorem dtParseProp_eq (h : IsProperty dt i name value) (hfits : value.length + 3 < 2 ^ 32)
    (howner : StringAt nodeName 0 owner) (hshort : owner.length < dtStringMaxsize)
    (hnode : PointsTo node want) (hprop : StringAt prop 0 wantName) :
    dtParseProp dt nodeName node prop i =
      if Wanted want wantName ⟨owner, name, i⟩ then (UInt32.ofNat i, i + 1)
      else (0, i + 2 + valueWords value) := by
  have hstring : StringAt (dtCopyString dt (word dt (i + 1)) dtStringMaxsize) 0 name :=
    stringAt_strlcpy h.name_eq h.short
  have hwords := h.toNat_words hfits
  simp only [dtParseProp, node_all_iff hnode howner hshort,
    strncmp_eq_zero_iff hstring hprop h.short, hwords]
  rfl

/-! ## Nodes -/

/-- A property and its name lie in the words of the items. -/
theorem Items.index_mem {p : Property} (hp : p ∈ items.properties owner i) :
    i < p.index ∧ p.index + 2 ≤ i + items.size := by
  induction items generalizing owner i with
  | nil => exact absurd hp List.not_mem_nil
  | nop rest ih =>
    have hrest := ih hp
    rw [Items.size]
    omega
  | prop name value rest ih =>
    rw [Items.size]
    rcases List.mem_cons.mp hp with rfl | hp
    · show i < i + 1 ∧ i + 1 + 2 ≤ _
      omega
    · have hrest := ih hp
      omega
  | node name items rest ihItems ihRest =>
    rw [Items.size]
    rcases List.mem_append.mp hp with hp | hp
    · have hitems := ihItems hp
      omega
    · have hrest := ihRest hp
      omega

/-- A property of the document is one in memory, and lies in the words of the items. -/
theorem Encodes.property {p : Property} (h : Encodes dt i items)
    (hp : p ∈ items.properties owner i) :
    ∃ value, IsProperty dt p.index p.name value ∧
      p.index + 2 + valueWords value ≤ i + items.size := by
  induction items generalizing owner i with
  | nil => exact absurd hp List.not_mem_nil
  | nop rest ih =>
    obtain ⟨value, hvalue, hle⟩ := ih h.2 hp
    refine ⟨value, hvalue, ?_⟩
    rw [Items.size]
    omega
  | prop name value rest ih =>
    obtain ⟨_, hfirst, hrest⟩ := h
    rw [Items.size]
    rcases List.mem_cons.mp hp with rfl | hp
    · refine ⟨value, hfirst, ?_⟩
      show i + 1 + 2 + valueWords value ≤ _
      omega
    · obtain ⟨value', hvalue', hle⟩ := ih hrest hp
      exact ⟨value', hvalue', by omega⟩
  | node name items rest ihItems ihRest =>
    obtain ⟨_, _, hitems, _, hrest⟩ := h
    rw [Items.size]
    rcases List.mem_append.mp hp with hp | hp
    · obtain ⟨value, hvalue, hle⟩ := ihItems hitems hp
      exact ⟨value, hvalue, by omega⟩
    · obtain ⟨value, hvalue, hle⟩ := ihRest hrest hp
      exact ⟨value, hvalue, by omega⟩

/-- The result of a search: the index of the property that is found, or 0. -/
def found (p : Option Property) : UInt32 := (p.map fun p => UInt32.ofNat p.index).getD 0

theorem toNat_found {p : Property} (hp : p ∈ items.properties owner i)
    (hfits : i + items.size < 2 ^ 32) : (found (some p)).toNat = p.index := by
  have hindex := Items.index_mem hp
  exact UInt32.toNat_ofNat_of_lt' (show p.index < 2 ^ 32 by omega)

theorem found_pos {p : Property} (hp : p ∈ items.properties owner i)
    (hfits : i + items.size < 2 ^ 32) : found (some p) > 0 := by
  rw [gt_iff_lt, UInt32.lt_iff_toNat_lt, toNat_found hp hfits]
  exact Nat.zero_lt_of_lt (Items.index_mem hp).1

/-- Parsing what a node contains gives the first property in it that is wanted. Without one the
cursor ends behind the node. -/
def Finds (want : Option (List UInt8)) (wantName : List UInt8) (l : List Property) (after : Nat)
    (r : Option (UInt32 × Nat)) : Prop :=
  ∃ j, r = some (found (l.find? (Wanted want wantName ·)), j) ∧
    (l.find? (Wanted want wantName ·) = none → j = after)

theorem dtParseNode_eq {fuel : Nat} (hbegin : word dt i = fdtBeginNode)
    (hname : IsName dt (i + 1) name) (hfuel : nameWords name ≤ fuel) :
    dtParseNode dt node prop (fuel + 1) i =
      dtParseItems dt node prop
        (strlcpy (fun _ => 0) dt.memory (wordAddr dt (i + 1)) dtStringMaxsize) fuel
        (i + 1 + nameWords name) := by
  rw [dtParseNode, if_neg (not_not.mpr hbegin), skipName_eq hname hfuel, Option.bind_some]

theorem dtParseItems_finds {fuel : Nat} (hnode : PointsTo node want)
    (hprop : StringAt prop 0 wantName) (h : Encodes dt i items)
    (hend : word dt (i + items.size) = fdtEndNode) (howner : StringAt nodeName 0 owner)
    (hshort : owner.length < dtStringMaxsize) (hfits : 4 * (i + items.size) < 2 ^ 32)
    (hfuel : items.size < fuel) :
    Finds want wantName (items.properties owner i) (i + items.size + 1)
      (dtParseItems dt node prop nodeName fuel i) := by
  induction items generalizing i fuel owner nodeName with
  | nil =>
    obtain ⟨fuel, rfl⟩ := Nat.exists_eq_succ_of_ne_zero (Nat.ne_of_gt hfuel)
    have hend' : word dt i = fdtEndNode := hend
    refine ⟨i + 1, ?_, fun _ => rfl⟩
    rw [dtParseItems, hend', if_neg (by decide), if_neg (by decide), if_neg (by decide), if_pos rfl]
    rfl
  | nop rest ih =>
    obtain ⟨fuel, rfl⟩ := Nat.exists_eq_succ_of_ne_zero (Nat.ne_of_gt (Nat.zero_lt_of_lt hfuel))
    obtain ⟨hnop, hrest⟩ := h
    have hsize : i + (Items.nop rest).size = i + 1 + rest.size := by
      rw [Items.size]
      omega
    rw [hsize] at hend hfits ⊢
    rw [dtParseItems, if_pos hnop]
    exact ih hrest hend howner hshort hfits (by omega)
  | prop name value rest ih =>
    obtain ⟨fuel, rfl⟩ := Nat.exists_eq_succ_of_ne_zero (Nat.ne_of_gt (Nat.zero_lt_of_lt hfuel))
    obtain ⟨htoken, hp, hrest⟩ := h
    have hsize := Items.add_size_prop i name value rest
    have hvalue : value.length ≤ 4 * valueWords value := by
      rw [valueWords]
      omega
    have hparse := dtParseProp_eq hp (by omega) howner hshort hnode hprop
    have hfirst : (Items.prop name value rest).properties owner i =
        ⟨owner, name, i + 1⟩ :: rest.properties owner (i + 3 + valueWords value) := rfl
    rw [dtParseItems, htoken, if_neg (by decide), if_pos rfl, hparse, hfirst]
    by_cases hwanted : Wanted want wantName ⟨owner, name, i + 1⟩
    · have hmem : ⟨owner, name, i + 1⟩ ∈ (Items.prop name value rest).properties owner i :=
        List.mem_cons_self
      have hpos : found (some ⟨owner, name, i + 1⟩) > 0 := found_pos hmem (by omega)
      refine ⟨i + 1 + 1, ?_, ?_⟩
      · rw [if_pos hwanted, List.find?_cons_of_pos (by simpa using hwanted)]
        exact if_pos hpos
      · rw [List.find?_cons_of_pos (by simpa using hwanted)]
        exact fun h => absurd h (by simp)
    · rw [Finds, List.find?_cons_of_neg (by simpa using hwanted)]
      simp only [if_neg hwanted, gt_iff_lt, UInt32.lt_irrefl, if_false]
      rw [hsize] at hend hfits ⊢
      exact ih hrest hend howner hshort hfits (by omega)
  | node name items rest ihItems ihRest =>
    have hsize := Items.add_size_node i name items rest
    have hwords : 0 < nameWords name := Nat.succ_pos _
    obtain ⟨fuel, rfl⟩ := Nat.exists_eq_add_of_le (show 2 ≤ fuel by omega)
    rw [show 2 + fuel = fuel + 1 + 1 by omega] at hfuel ⊢
    obtain ⟨hbegin, ⟨hname, hnameShort⟩, hitems, hendNode, hrest⟩ := h
    have hinner := ihItems hitems hendNode (hname.copied hnameShort) hnameShort (by omega)
      (show items.size < fuel by omega)
    have hsplit : (Items.node name items rest).properties owner i =
        items.properties name (i + 1 + nameWords name) ++
          rest.properties owner (i + 1 + nameWords name + items.size + 1) := rfl
    rw [dtParseItems, hbegin, if_neg (by decide), if_neg (by decide), if_pos rfl,
      dtParseNode_eq hbegin hname (by omega), Finds, hsplit, List.find?_append]
    obtain ⟨j, hj, hafter⟩ := hinner
    rw [hj, Option.bind_some]
    cases hfind : (items.properties name (i + 1 + nameWords name)).find?
        (Wanted want wantName ·) with
    | some p =>
      have hpos : found (some p) > 0 := found_pos (List.mem_of_find?_eq_some hfind) (by omega)
      exact ⟨j, if_pos hpos, fun h => absurd h (by simp)⟩
    | none =>
      have hzero : ¬found none > 0 := by decide
      rw [hsize] at hend hfits ⊢
      rw [hafter hfind, Option.none_or]
      simp only [if_neg hzero]
      exact ihRest hrest hend howner hshort hfits (by omega)

/-! ## The search -/

theorem firstWanted_of_find {l : List Property} {p : Property}
    (h : l.find? (Wanted want wantName ·) = some p) : FirstWanted want wantName l p := by
  obtain ⟨hwanted, before, after, heq, hbefore⟩ := List.find?_eq_some_iff_append.mp h
  exact ⟨by simpa using hwanted, before, after, heq, fun q hq => by simpa using hbefore q hq⟩

theorem find_of_firstWanted {l : List Property} {p : Property} (h : FirstWanted want wantName l p) :
    l.find? (Wanted want wantName ·) = some p := by
  obtain ⟨hwanted, before, after, heq, hbefore⟩ := h
  exact List.find?_eq_some_iff_append.mpr ⟨by simpa using hwanted, before, after, heq,
    fun q hq => by simpa using hbefore q hq⟩

/-- A tree has fewer than 2^30 words. -/
theorem IsTree.size_lt {root : List UInt8} (htree : IsTree dt root items) :
    (Items.node root items .nil).size < 2 ^ 30 := by
  have hinside := htree.inside
  have htotal := dt.totalsize.toNat_lt
  rw [wordAddr] at hinside
  omega

/-- Parsing the root node. -/
theorem dtParseNode_root {root : List UInt8} (htree : IsTree dt root items)
    (hnode : PointsTo node want) (hprop : StringAt prop 0 wantName) :
    Finds want wantName (document root items) (Items.node root items .nil).size
      (dtParseNode dt node prop allWords 0) := by
  obtain ⟨hbegin, ⟨hname, hshort⟩, hitems, hend, _⟩ := htree.encodes
  have hlt := htree.size_lt
  have hsize : (Items.node root items .nil).size = 0 + 1 + nameWords root + items.size + 1 := by
    simp only [Items.size]
  have hdocument : document root items = items.properties root (0 + 1 + nameWords root) := by
    rw [document, Items.properties, Items.properties, List.append_nil]
  rw [hsize] at hlt
  rw [hsize, hdocument, allWords_eq,
    dtParseNode_eq hbegin hname (by omega)]
  exact dtParseItems_finds hnode hprop hitems hend (hname.copied hshort) hshort (by omega)
    (by omega)

variable {root : List UInt8}

/-- The index of a property, as the search returns it. -/
theorem IsTree.index_lt (htree : IsTree dt root items) {p : Property}
    (hp : p ∈ document root items) :
    p.index + 2 ≤ (Items.node root items .nil).size ∧ (UInt32.ofNat p.index).toNat = p.index := by
  have hsize := htree.size_lt
  have hlt := (Items.index_mem hp).2
  exact ⟨by omega, UInt32.toNat_ofNat_of_lt' (show p.index < 2 ^ 32 by omega)⟩

/-- The search finds the first property that is wanted. -/
theorem devicetreeFindNodeProp_first (htree : IsTree dt root items) (hnode : PointsTo node want)
    (hprop : StringAt prop 0 wantName) {p : Property}
    (hp : FirstWanted want wantName (document root items) p) :
    p ∈ document root items ∧ devicetreeFindNodeProp dt node prop = some (UInt32.ofNat p.index) := by
  obtain ⟨j, hparse, _⟩ := dtParseNode_root htree hnode hprop
  have hfind := find_of_firstWanted hp
  have hmem := List.mem_of_find?_eq_some hfind
  have hsize := htree.size_lt
  rw [hfind] at hparse
  rw [devicetreeFindNodeProp, if_neg htree.valid, allWords_eq, findLoop,
    hparse, Option.bind_some]
  exact ⟨hmem, if_pos (found_pos hmem (by omega))⟩

/-- The search finds nothing. -/
theorem devicetreeFindNodeProp_missing (htree : IsTree dt root items) (hnode : PointsTo node want)
    (hprop : StringAt prop 0 wantName)
    (hmissing : ∀ p ∈ document root items, ¬Wanted want wantName p) :
    devicetreeFindNodeProp dt node prop = some eNOENT := by
  obtain ⟨j, hparse, hafter⟩ := dtParseNode_root htree hnode hprop
  have hfind : (document root items).find? (Wanted want wantName ·) = none := by
    rw [List.find?_eq_none]
    intro p hp
    simpa using hmissing p hp
  have hzero : ¬found none > 0 := by decide
  rw [hfind] at hparse
  rw [devicetreeFindNodeProp, if_neg htree.valid, allWords_eq, findLoop,
    hparse, Option.bind_some]
  simp only [if_neg hzero, hafter hfind, if_pos htree.end_eq]

/-- A property is wanted, or none is. -/
theorem firstWanted_or_missing (want : Option (List UInt8)) (wantName : List UInt8)
    (l : List Property) :
    (∃ p, FirstWanted want wantName l p) ∨ ∀ p ∈ l, ¬Wanted want wantName p := by
  cases hfind : l.find? (Wanted want wantName ·) with
  | some p => exact .inl ⟨p, firstWanted_of_find hfind⟩
  | none => exact .inr fun p hp => by simpa using List.find?_eq_none.mp hfind p hp

/-- The search in a device tree ends, and gives the first property of the document that is
wanted. -/
theorem devicetree_search (dt : DeviceTreeType) (root : List UInt8) (items : Items)
    (htree : IsTree dt root items) (node : Option Mem) (nodeName : Option (List UInt8))
    (hnode : PointsTo node nodeName) (prop : Mem) (propName : List UInt8)
    (hprop : StringAt prop 0 propName) :
    ∃ r, devicetreeFindNodeProp dt node prop = some r ∧
      (∀ p, FirstWanted nodeName propName (document root items) p → r.toNat = p.index) ∧
      (r = eNOENT ↔ ∀ p ∈ document root items, ¬Wanted nodeName propName p) := by
  rcases firstWanted_or_missing nodeName propName (document root items) with ⟨p, hp⟩ | hmissing
  · obtain ⟨hmem, hresult⟩ := devicetreeFindNodeProp_first htree hnode hprop hp
    obtain ⟨hlt, hindex⟩ := htree.index_lt hmem
    have hsize := htree.size_lt
    refine ⟨_, hresult, fun q hq => ?_, ?_⟩
    · cases (find_of_firstWanted hp).symm.trans (find_of_firstWanted hq)
      exact hindex
    · constructor
      · intro heq
        rw [heq] at hindex
        have hnoent : eNOENT.toNat = 2 ^ 32 - 2 := rfl
        omega
      · exact fun hnone => absurd hp.1 (hnone p hmem)
  · refine ⟨_, devicetreeFindNodeProp_missing htree hnode hprop hmissing, fun q hq => ?_,
      fun _ => hmissing, fun _ => rfl⟩
    obtain ⟨hmem, _⟩ := devicetreeFindNodeProp_first htree hnode hprop hq
    exact absurd hq.1 (hmissing q hmem)

/-! ### A small tree -/

/-- The root node has the property `model`, a `FDT_NOP` and the node `memory@0`, which has the
property `reg`. -/
def smallItems : Items :=
  .prop [109, 111, 100, 101, 108] [112, 105, 0] (.nop
    (.node [109, 101, 109, 111, 114, 121, 64, 48]
      (.prop [114, 101, 103] [0, 0, 0, 0, 0, 0, 16, 0] .nil) .nil))

/-- The header, the structure block at 40 and the strings block at 116. -/
def smallBlob : List UInt8 :=
  ([0xd00dfeed, 126, 40, 116, 0, 17, 16, 0, 10, 76,
    1, 0, 3, 3, 0, 0x70690000, 4, 1, 0x6d656d6f, 0x72794030, 0, 3, 8, 6, 0, 0x1000, 2, 2,
    9] : List UInt32).flatMap (fun v => (toLe v).reverse) ++
      [109, 111, 100, 101, 108, 0, 114, 101, 103, 0]

/-- A pointer to a string, or to the blob. -/
def bytesFrom (bytes : List UInt8) : Mem := fun a => bytes[a]?.getD 0

def smallTree : DeviceTreeType :=
  (devicetreeSetup ⟨bytesFrom [], 0, 0, 0, 0⟩ (bytesFrom smallBlob)).2

theorem smallTree_isTree : IsTree smallTree [] smallItems := by
  refine ⟨by decide, ⟨by decide +kernel, ⟨⟨by simp, by decide +kernel⟩, by decide⟩, ?_,
    by decide +kernel, trivial⟩, by decide +kernel, by decide +kernel⟩
  refine ⟨by decide +kernel, ⟨by decide +kernel, ⟨by simp, by decide +kernel, by decide +kernel⟩,
    by decide, by decide +kernel⟩, by decide +kernel, ?_⟩
  refine ⟨by decide +kernel, ⟨⟨by simp, by decide +kernel⟩, by decide⟩, ?_, by decide +kernel,
    trivial⟩
  exact ⟨by decide +kernel, ⟨by decide +kernel, ⟨by simp, by decide +kernel, by decide +kernel⟩,
    by decide, by decide +kernel⟩, trivial⟩

/-- The length of `reg` in `memory@0` is word 12. -/
theorem devicetree_search_small :
    ∃ r, devicetreeFindNodeProp smallTree
        (some (bytesFrom [109, 101, 109, 111, 114, 121, 64, 48])) (bytesFrom [114, 101, 103]) =
      some r ∧ r.toNat = 12 := by
  have hnode : PointsTo (some (bytesFrom [109, 101, 109, 111, 114, 121, 64, 48]))
      (some [109, 101, 109, 111, 114, 121, 64, 48]) :=
    .some ⟨by simp, by decide, by decide⟩
  obtain ⟨r, hr, hfirst, _⟩ := devicetree_search smallTree [] smallItems smallTree_isTree _ _ hnode
    (bytesFrom [114, 101, 103]) [114, 101, 103] ⟨by simp, by decide, by decide⟩
  refine ⟨r, hr, hfirst ⟨[109, 101, 109, 111, 114, 121, 64, 48], [114, 101, 103], 12⟩ ?_⟩
  exact ⟨by decide, [⟨[], [109, 111, 100, 101, 108], 3⟩], [], rfl, by decide⟩

end Vmwos.DeviceTree
