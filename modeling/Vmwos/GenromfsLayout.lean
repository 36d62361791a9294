import Mathlib.Data.Nat.Bitwise
import Vmwos.Genromfs

/-!
# The two passes of genromfs

`processdir` computes the offsets before a byte is written, and `dumpall` writes without looking
at them. The passes agree when every file is written where the layout has put it.

Results:
1. `dumpnodes_dumps`: `dumpnode` appends the bytes of its nodes (`treeBytes`), whatever the pieces
   in which they are passed to `dumpdata`, if they fit `bigbuf` on the way (`Buffered`);
2. `Processed.fits`: each node gets the offset at which its bytes will be;
3. `genromfs_eq`: the image file of a directory without special names.
-/

namespace Vmwos.Genromfs

open Bytes Romfs

/-! ## Definitions -/

/-- The zeros behind `n` bytes, to the next multiple of 16. -/
def pad16 (n : Nat) : List UInt8 := if n % 16 ≠ 0 then List.replicate (16 - n % 16) 0 else []

/-- A header with its name. -/
def headBytes (ri : Romfh) (n : Node) : List UInt8 :=
  let bigbuf := ri.bytes ++ padded n.name
  if n.offset ≠ 0 then fixsum bigbuf bigbuf.length else bigbuf

/-- The contents behind the header of a node. -/
def contents (n : Node) : List UInt8 :=
  if n.origLink = none ∧ (n.stat.kind = .lnk ∨ n.stat.kind = .reg) then
    n.stat.data ++ pad16 n.stat.data.length
  else []

/-- The bytes of the nodes, each with its directory before the next sibling. -/
def treeBytes : Nodes → List UInt8
  | .nil => []
  | .cons node dirlist rest =>
    List.replicate node.pad 0 ++ headBytes (headerOf node dirlist rest) node ++ contents node ++
      treeBytes dirlist ++ treeBytes rest

/-- All nodes of a tree, each with its directory and the siblings behind it. -/
def Nodes.All (P : Node → Nodes → Nodes → Prop) : Nodes → Prop
  | .nil => True
  | .cons node dirlist rest => P node dirlist rest ∧ dirlist.All P ∧ rest.All P

/-- `bigbuf` has room for the zeros in front of the node, for its header with the name, and for what
`readlink` returns. -/
structure Buffered (n : Node) : Prop where
  pad : n.pad ≤ bigbufSize
  name : 16 + chunksLength n.name.length ≤ bigbufSize
  target : n.origLink = none → n.stat.kind = .lnk → n.stat.data.length ≤ bigbufSize

/-- The first 512 bytes with the checksum of the volume, and the rest. -/
def volumeSummed (bs : List UInt8) : List UInt8 :=
  let size := (ntohl (((bs.take 512).drop 8).take 4)).toNat
  fixsum (bs.take 512) (if 512 < size then 512 else size) ++ bs.drop 512

/-- The bytes that have been passed to `dumpdata` so far. -/
structure Dumped (f : Dump) (bs : List UInt8) : Prop where
  atoffs : f.atoffs = bs.length
  held : bs.length < 512 → f.fixbuf = bs ∧ f.file = []
  written : 512 ≤ bs.length → f.file = volumeSummed bs

/-- The program writes on, until these bytes have been passed to `dumpdata`. -/
def Dumps (r : Option Dump) (bs : List UInt8) : Prop := ∃ f, r = some f ∧ Dumped f bs

variable {f : Dump} {bs data : List UInt8}

/-! ## 1. The output -/

theorem Dumped.dumps (h : Dumped f bs) : Dumps (some f) bs := ⟨f, rfl, h⟩

theorem Dumps.bind {r : Option Dump} {next : Dump → Option Dump} {bs' : List UInt8}
    (h : Dumps r bs) (hnext : ∀ f, Dumped f bs → Dumps (next f) bs') : Dumps (r >>= next) bs' := by
  obtain ⟨f, rfl, hdumped⟩ := h
  exact hnext f hdumped

theorem dumped_start : Dumped ⟨0, [], []⟩ [] where
  atoffs := rfl
  held := fun _ => ⟨rfl, rfl⟩
  written := fun h => absurd h (by simp)

/-- `dumpdata` appends, in the buffer, in the file, or in both. -/
theorem Dumped.dumpdata (h : Dumped f bs) (data : List UInt8) :
    Dumped (dumpdata f data) (bs ++ data) := by
  have hatoffs := h.atoffs
  unfold Genromfs.dumpdata
  by_cases hnil : data = []
  · rw [if_pos hnil, hnil, List.append_nil]
    exact h
  rw [if_neg hnil]
  have hpos := List.length_pos_of_ne_nil hnil
  by_cases hflushed : f.atoffs ≥ 512
  · rw [if_pos hflushed]
    have hlen : 512 ≤ bs.length := hatoffs ▸ hflushed
    refine ⟨?_, fun hlt => ?_, fun _ => ?_⟩
    · simp [hatoffs]
    · rw [List.length_append] at hlt
      omega
    · show f.file ++ data = _
      rw [h.written hlen, volumeSummed, volumeSummed, List.take_append_of_le_length hlen,
        List.drop_append_of_le_length hlen, List.append_assoc]
  · rw [if_neg hflushed]
    have hlt : bs.length < 512 := by omega
    obtain ⟨hbuf, hfile⟩ := h.held hlt
    simp only [hatoffs, hbuf, hfile, List.nil_append]
    by_cases hshort : data.length < 512 - bs.length
    · have hroom : ¬bs.length + data.length = 512 := by omega
      rw [if_pos hshort, if_neg hroom, List.take_length]
      refine ⟨(List.length_append).symm, fun _ => ⟨rfl, rfl⟩, fun hle => ?_⟩
      rw [List.length_append] at hle
      omega
    · -- the buffer is full, and goes to the file
      have hfull : bs.length + (512 - bs.length) = 512 := by omega
      have htake : bs ++ data.take (512 - bs.length) = (bs ++ data).take 512 := by
        rw [List.take_append, List.take_of_length_le hlt.le]
      have hdrop : data.drop (512 - bs.length) = (bs ++ data).drop 512 := by
        rw [List.drop_append, List.drop_eq_nil_of_le hlt.le, List.nil_append]
      rw [if_neg hshort, if_pos hfull, htake, hdrop, hfull]
      refine ⟨?_, fun hlt' => ?_, fun _ => rfl⟩
      · show 512 + ((bs ++ data).drop 512).length = _
        rw [List.length_drop, List.length_append]
        omega
      · rw [List.length_append] at hlt'
        omega

theorem Dumped.dumpzero (h : Dumped f bs) {len : Nat} (hlen : len ≤ bigbufSize) :
    Dumps (dumpzero f len) (bs ++ List.replicate len 0) :=
  ⟨_, if_pos hlen, h.dumpdata _⟩

theorem Dumped.pieces (h : Dumped f bs) (pieces : List (List UInt8)) :
    Dumped (pieces.foldl Genromfs.dumpdata f) (bs ++ pieces.flatten) := by
  induction pieces generalizing f bs with
  | nil => simpa using h
  | cons piece pieces ih =>
    rw [List.foldl_cons, List.flatten_cons, ← List.append_assoc]
    exact ih (h.dumpdata piece)

theorem flatten_pieces (data : List UInt8) (n : Nat) :
    ((List.range n).map fun i => (data.drop (bigbufSize * i)).take bigbufSize).flatten =
      data.take (bigbufSize * n) := by
  induction n with
  | zero => simp
  | succ n ih =>
    rw [List.range_succ, List.map_append, List.flatten_append, ih, Nat.mul_succ, List.take_add]
    simp

/-- The zeros behind the contents. -/
theorem Dumped.pad (h : Dumped f (bs ++ data)) :
    Dumped (if data.length % 16 ≠ 0 then
        Genromfs.dumpdata f (List.replicate (16 - data.length % 16) 0) else f)
      (bs ++ (data ++ pad16 data.length)) := by
  rw [← List.append_assoc, pad16]
  split
  · exact h.dumpdata _
  · rw [List.append_nil]
    exact h

theorem Dumped.dumpdataa (h : Dumped f bs) (data : List UInt8) :
    Dumps (dumpdataa f data) (bs ++ (data ++ pad16 data.length)) := by
  refine ⟨_, ?_, (h.dumpdata data).pad⟩
  have hlen : 16 - data.length % 16 ≤ bigbufSize := Nat.le_trans (Nat.sub_le _ _) (by decide)
  unfold Genromfs.dumpdataa
  simp only [Genromfs.dumpzero, if_pos hlen]
  split <;> rfl

theorem Dumped.dumplink (h : Dumped f bs) (hlen : data.length ≤ bigbufSize) :
    Dumps (dumplink f data) (bs ++ (data ++ pad16 data.length)) := by
  rw [Genromfs.dumplink, if_pos hlen]
  exact h.dumpdataa data

theorem Dumped.dumpfile (h : Dumped f bs) (data : List UInt8) :
    Dumped (dumpfile f data) (bs ++ (data ++ pad16 data.length)) := by
  have hpieces := h.pieces ((List.range ((data.length + 4095) / bigbufSize)).map fun i =>
    (data.drop (bigbufSize * i)).take bigbufSize)
  have hall : data.length ≤ bigbufSize * ((data.length + 4095) / bigbufSize) := by
    unfold bigbufSize
    omega
  rw [flatten_pieces, List.take_of_length_le hall] at hpieces
  exact hpieces.pad

/-- The padding of a name, as `dumpri` computes it. -/
theorem name_padded (name : List UInt8) :
    name ++ [0] ++ (if (name.length + 1) % 16 ≠ 0 then
      List.replicate (16 - (name.length + 1) % 16) 0 else []) = padded name := by
  have hzeros : [0] ++ (if (name.length + 1) % 16 ≠ 0 then
      List.replicate (16 - (name.length + 1) % 16) 0 else []) =
        List.replicate (chunksLength name.length - name.length) (0 : UInt8) := by
    have hlen : chunksLength name.length - name.length =
        (if (name.length + 1) % 16 ≠ 0 then 16 - (name.length + 1) % 16 else 0) + 1 := by
      unfold chunksLength
      split <;> omega
    rw [hlen, List.replicate_succ]
    split <;> rfl
  rw [List.append_assoc, hzeros, padded]

theorem length_padded (s : List UInt8) : (padded s).length = chunksLength s.length := by
  have hle : s.length ≤ chunksLength s.length := by
    unfold chunksLength
    omega
  rw [padded, List.length_append, List.length_replicate]
  omega

theorem length_bytes_padded (ri : Romfh) (name : List UInt8) :
    (ri.bytes ++ padded name).length = 16 + chunksLength name.length := by
  rw [List.length_append, length_padded]
  rfl

theorem Dumped.dumpri (h : Dumped f bs) (ri : Romfh) {n : Node}
    (hname : 16 + chunksLength n.name.length ≤ bigbufSize) :
    Dumps (dumpri f ri n) (bs ++ headBytes ri n) := by
  refine ⟨_, ?_, h.dumpdata _⟩
  have hbytes := name_padded n.name
  rw [List.append_assoc] at hbytes
  unfold Genromfs.dumpri headBytes
  simp only [List.append_assoc]
  rw [hbytes, if_pos (by rw [length_bytes_padded]; exact hname)]

/-- The contents are written for a regular file and for a symbolic link. -/
theorem Dumped.contents (h : Dumped f bs) {node : Node}
    (htarget : node.origLink = none → node.stat.kind = .lnk →
      node.stat.data.length ≤ bigbufSize) :
    Dumps
      (if node.origLink = none then
        if node.stat.kind = .lnk then Genromfs.dumplink f node.stat.data
        else if node.stat.kind = .reg then some (Genromfs.dumpfile f node.stat.data)
        else some f
      else some f) (bs ++ contents node) := by
  unfold Genromfs.contents
  by_cases hlink : node.origLink = none
  · rw [if_pos hlink]
    by_cases hlnk : node.stat.kind = .lnk
    · rw [if_pos hlnk, if_pos ⟨hlink, .inl hlnk⟩]
      exact h.dumplink (htarget hlink hlnk)
    · rw [if_neg hlnk]
      by_cases hreg : node.stat.kind = .reg
      · rw [if_pos hreg, if_pos ⟨hlink, .inr hreg⟩]
        exact (h.dumpfile _).dumps
      · rw [if_neg hreg, if_neg (by simp [hlnk, hreg]), List.append_nil]
        exact h.dumps
  · rw [if_neg hlink, if_neg (by simp [hlink]), List.append_nil]
    exact h.dumps

/-- `dumpnode` appends the bytes of the nodes. -/
theorem dumpnodes_dumps (h : Dumped f bs) {nodes : Nodes}
    (hnodes : nodes.All fun node _ _ => Buffered node) :
    Dumps (dumpnodes f nodes) (bs ++ treeBytes nodes) := by
  induction nodes generalizing f bs with
  | nil => simpa [dumpnodes, treeBytes] using h.dumps
  | cons node dirlist rest ihDir ihRest =>
    obtain ⟨hnode, hdir, hrest⟩ := hnodes
    have hpad : Dumps (if node.pad ≠ 0 then dumpzero f node.pad else some f)
        (bs ++ List.replicate node.pad 0) := by
      split
      · exact h.dumpzero hnode.pad
      · next hzero => simpa [not_not.mp hzero] using h.dumps
    rw [dumpnodes, treeBytes]
    simp only [← List.append_assoc]
    exact hpad.bind fun _ hpad => (hpad.dumpri _ hnode.name).bind fun _ hhead =>
      (hhead.contents hnode.target).bind fun _ hcontents =>
        (ihDir hcontents hdir).bind fun _ hdirlist => ihRest hdirlist hrest

/-! ## 2. The layout -/

/-- An alignment that the command line accepts, and for the pads of which `bigbuf` has room. -/
def IsAlign (align : Nat) : Prop := ∃ k, 4 ≤ k ∧ k ≤ 12 ∧ align = 2 ^ k

/-- The options that `main` accepts, with such alignments, and with a volume name that `bigbuf` has
room for. -/
structure Options.Valid (o : Options) : Prop where
  align : IsAlign o.align
  alignlist : ∀ pa ∈ o.alignlist, IsAlign pa.1
  volname : o.volname.length ≤ 4079

/-- The listing without the names that are in the exclude list. They do not depend on the offset, if
it is not that of the volume. -/
def Listing.kept (o : Options) (base : List UInt8) : Listing → Listing
  | .nil => .nil
  | .cons name stat entries rest =>
    let n := newnode base name stat 1
    if Excluded o n then rest.kept o base
    else .cons name stat (entries.kept o n.realname) (rest.kept o base)

/-- There is no special name, and `bigbuf` has room for every name and for the target of every
symbolic link. -/
def Listing.Plain : Listing → Prop
  | .nil => True
  | .cons name stat entries rest =>
    ¬Special name stat ∧ name.length ≤ 4079 ∧ (stat.kind = .lnk → stat.data.length ≤ bigbufSize) ∧
      (name ≠ dot → name ≠ dotdot → stat.kind = .dir → entries.Plain) ∧ rest.Plain

variable {o : Options} {n : Node} {p : Progress}

theorem alignup16_mod (x : Nat) : alignup16 x % 16 = 0 := Nat.mul_mod_left _ _

theorem chunksLength_eq (n : Nat) : chunksLength n = alignup16 (n + 1) := by
  unfold chunksLength alignup16
  omega

theorem spaceneeded_mod (n : Node) : spaceneeded n % 16 = 0 := by
  have hname := alignup16_mod (n.name.length + 1)
  have hsize := alignup16_mod n.size
  unfold spaceneeded
  omega

theorem IsAlign.mod {align : Nat} (h : IsAlign align) : align % 16 = 0 := by
  obtain ⟨k, hk, -, rfl⟩ := h
  exact Nat.mod_eq_zero_of_dvd (Nat.pow_dvd_pow 2 hk)

theorem IsAlign.le {align : Nat} (h : IsAlign align) : align ≤ bigbufSize := by
  obtain ⟨k, -, hk, rfl⟩ := h
  exact Nat.pow_le_pow_right (by decide) hk

theorem isAlign_findalign (ho : o.Valid) (n : Node) : IsAlign (findalign o n) := by
  have hstart : IsAlign (if n.stat.kind = .reg then o.align else 16) := by
    split
    · exact ho.align
    · exact ⟨4, le_refl 4, by decide, rfl⟩
  unfold findalign
  generalize (if n.stat.kind = .reg then o.align else 16) = i at hstart
  have hlist := ho.alignlist
  generalize o.alignlist = alignlist at hlist
  induction alignlist generalizing i with
  | nil => exact hstart
  | cons pa alignlist ih =>
    obtain ⟨hpa, hrest⟩ := List.forall_mem_cons.mp hlist
    rw [List.foldl_cons]
    refine ih _ ?_ hrest
    split
    · exact hpa
    · exact hstart

/-- `alignnode` moves the node, so that the alignment holds behind the extra space. -/
theorem alignnode_eq (ho : o.Valid) (curroffset extraspace : Nat) (hpad : n.pad = 0) :
    ∃ k, alignnode o n curroffset extraspace =
        ({ n with offset := n.offset + k, pad := k }, curroffset + k) ∧
      (curroffset + k + extraspace) % findalign o n = 0 ∧
      ((curroffset + extraspace) % 16 = 0 → k % 16 = 0) ∧ k ≤ bigbufSize := by
  have hle := (isAlign_findalign ho n).le
  obtain ⟨j, hj, -, halign⟩ := isAlign_findalign ho n
  have hmod := (isAlign_findalign ho n).mod
  have hpos : 0 < findalign o n := halign ▸ Nat.two_pow_pos j
  unfold alignnode
  rw [halign, Nat.and_two_pow_sub_one_eq_mod, ← halign]
  have hlt := Nat.mod_lt (curroffset + extraspace) hpos
  by_cases hd : (curroffset + extraspace) % findalign o n = 0
  · refine ⟨0, ?_, ?_, fun _ => rfl, Nat.zero_le _⟩
    · rw [if_neg (not_not.mpr hd), Nat.add_zero, Nat.add_zero]
      cases n
      cases hpad
      rfl
    · rw [Nat.add_zero, hd]
  · refine ⟨findalign o n - (curroffset + extraspace) % findalign o n, if_pos hd, ?_, fun h16 => ?_,
      (Nat.sub_le _ _).trans hle⟩
    · have hsum : curroffset + (findalign o n - (curroffset + extraspace) % findalign o n) +
          extraspace = findalign o n * ((curroffset + extraspace) / findalign o n + 1) := by
        have hdiv := Nat.div_add_mod (curroffset + extraspace) (findalign o n)
        rw [Nat.mul_add, Nat.mul_one]
        omega
      rw [hsum, Nat.mul_mod_right]
    · have hd16 : (curroffset + extraspace) % findalign o n % 16 = 0 := by
        rw [Nat.mod_mod_of_dvd _ (Nat.dvd_of_mod_eq_zero hmod), h16]
      omega

theorem length_setChecksum {data : List UInt8} (h : 16 ≤ data.length) (checksum : UInt32) :
    (setChecksum data checksum).length = data.length := by
  simp [setChecksum, beBytes]
  omega

theorem length_fixsum {data : List UInt8} (h : 16 ≤ data.length) (size : Nat) :
    (fixsum data size).length = data.length := length_setChecksum h _

theorem length_headBytes (ri : Romfh) (n : Node) :
    (headBytes ri n).length = 16 + chunksLength n.name.length := by
  have hlen := length_bytes_padded ri n.name
  unfold headBytes
  split
  · rw [length_fixsum (by omega), hlen]
  · exact hlen

theorem length_pad16 (n : Nat) : n + (pad16 n).length = alignup16 n := by
  unfold pad16 alignup16
  split
  · rw [List.length_replicate]
    omega
  · rw [List.length_nil]
    omega

/-- The size of a node is that of its contents, and a link has none. -/
def Sized (n : Node) : Prop :=
  n.size = if n.origLink = none ∧ (n.stat.kind = .lnk ∨ n.stat.kind = .reg) then
    n.stat.data.length else 0

theorem length_contents (h : Sized n) : (contents n).length = alignup16 n.size := by
  unfold contents
  rw [h]
  split
  · rw [List.length_append, length_pad16]
  · rfl

theorem length_head_contents (h : Sized n) (ri : Romfh) :
    (headBytes ri n).length + (contents n).length = spaceneeded n := by
  rw [length_headBytes, length_contents h, chunksLength_eq, spaceneeded]

/-- Where the alignment of a node has to hold: at the contents of a regular file, and at the header
of any other. -/
def alignedAt (n : Node) : Nat :=
  n.offset + if n.origLink = none ∧ n.stat.kind = .reg then 16 + chunksLength n.name.length else 0

/-- A node at its place, behind `curroffset` bytes. -/
structure PlacedAt (o : Options) (curroffset : Nat) (n : Node) : Prop where
  offset : n.offset = curroffset + n.pad
  mod : n.offset % 16 = 0
  sized : Sized n
  aligned : alignedAt n % findalign o n = 0
  pad_le : n.pad ≤ bigbufSize

/-- Nodes at their places, each with its directory before the next sibling. -/
def Placed (o : Options) : Nat → Nodes → Prop
  | _, .nil => True
  | curroffset, .cons node dirlist rest =>
    PlacedAt o curroffset node ∧ Placed o (node.offset + spaceneeded node) dirlist ∧
      Placed o (node.offset + spaceneeded node + (treeBytes dirlist).length) rest

theorem PlacedAt.length {curroffset : Nat} (h : PlacedAt o curroffset n) (ri : Romfh) :
    (List.replicate n.pad (0 : UInt8) ++ headBytes ri n ++ contents n).length + curroffset =
      n.offset + spaceneeded n := by
  have hlen := length_head_contents h.sized ri
  have hoffset := h.offset
  simp only [List.length_append, List.length_replicate]
  omega

theorem placedAt_link (ho : o.Valid) (base name : List UInt8) (stat : HostStat) (link : Nat)
    {curroffset : Nat} (hmod : curroffset % 16 = 0) :
    PlacedAt o curroffset
        (placeLink o (newnode base name stat curroffset) link curroffset).1 ∧
      (placeLink o (newnode base name stat curroffset) link curroffset).2 =
        (placeLink o (newnode base name stat curroffset) link curroffset).1.offset := by
  obtain ⟨k, heq, halign, hk, hle⟩ := alignnode_eq ho curroffset 0
    (n := { newnode base name stat curroffset with origLink := some link }) rfl
  rw [placeLink, heq]
  refine ⟨⟨rfl, ?_, ?_, ?_, hle⟩, rfl⟩
  · show (curroffset + k) % 16 = 0
    have hk16 := hk (by omega)
    omega
  · simp [Sized, newnode]
  · rw [← halign]
    rfl

theorem placedAt_file (ho : o.Valid) (base name : List UInt8) (stat : HostStat) {curroffset : Nat}
    (hmod : curroffset % 16 = 0) :
    PlacedAt o curroffset (placeFile o (newnode base name stat curroffset) curroffset).1 ∧
      (placeFile o (newnode base name stat curroffset) curroffset).2 =
        (placeFile o (newnode base name stat curroffset) curroffset).1.offset := by
  have hspace : spaceneeded (newnode base name stat curroffset) = 16 + chunksLength name.length := by
    rw [chunksLength_eq]
    simp [spaceneeded, newnode, alignup16]
  have hspace16 := spaceneeded_mod (newnode base name stat curroffset)
  obtain ⟨k, heq, halign, hk, hle⟩ := alignnode_eq ho curroffset
    (if stat.kind = .reg then spaceneeded (newnode base name stat curroffset) else 0)
    (n := newnode base name stat curroffset) rfl
  have hk16 : k % 16 = 0 := hk (by split <;> omega)
  unfold placeFile
  simp only [show (newnode base name stat curroffset).stat = stat from rfl, heq]
  refine ⟨⟨rfl, ?_, ?_, ?_, hle⟩, rfl⟩
  · show (curroffset + k) % 16 = 0
    omega
  · simp only [Sized, newnode, true_and]
    exact if_congr Or.comm rfl rfl
  · rw [hspace] at halign
    show alignedAt _ % findalign o (newnode base name stat curroffset) = 0
    rw [← halign]
    simp [alignedAt, newnode]

theorem Progress.append_curroffset (p : Progress) {placed : Node × Nat}
    (h : placed.2 = placed.1.offset) :
    (p.append placed).curroffset = placed.1.offset + spaceneeded placed.1 := by
  rw [Progress.append, h]

theorem Progress.append_mod (p : Progress) {placed : Node × Nat} {curroffset : Nat}
    (hplaced : PlacedAt o curroffset placed.1) (h : placed.2 = placed.1.offset) :
    (p.append placed).curroffset % 16 = 0 := by
  have hspace := spaceneeded_mod placed.1
  have hmod := hplaced.mod
  rw [p.append_curroffset h]
  omega

section

variable (o : Options) (base name : List UInt8) (stat : HostStat) (curroffset link : Nat)

/-- What `alignnode` leaves of a node as it is. -/
theorem alignnode_node (n : Node) (extraspace : Nat) :
    (alignnode o n curroffset extraspace).1.name = n.name ∧
      (alignnode o n curroffset extraspace).1.stat = n.stat ∧
      (alignnode o n curroffset extraspace).1.origLink = n.origLink ∧
      (alignnode o n curroffset extraspace).1.realname = n.realname := by
  unfold alignnode
  simp only
  split
  · exact ⟨rfl, rfl, rfl, rfl⟩
  · exact ⟨rfl, rfl, rfl, rfl⟩

theorem placeLink_node : (placeLink o (newnode base name stat curroffset) link curroffset).1.name =
      name ∧
    (placeLink o (newnode base name stat curroffset) link curroffset).1.stat = stat ∧
    (placeLink o (newnode base name stat curroffset) link curroffset).1.origLink = some link :=
  have h := alignnode_node o curroffset
    { newnode base name stat curroffset with origLink := some link } 0
  ⟨h.1, h.2.1, h.2.2.1⟩

theorem placeFile_node : (placeFile o (newnode base name stat curroffset) curroffset).1.name = name ∧
    (placeFile o (newnode base name stat curroffset) curroffset).1.stat = stat ∧
    (placeFile o (newnode base name stat curroffset) curroffset).1.origLink = none ∧
    (placeFile o (newnode base name stat curroffset) curroffset).1.realname =
      (newnode base name stat curroffset).realname :=
  alignnode_node o _ _ _

end

variable {level self parent : Nat} {base name : List UInt8} {stat : HostStat}
  {entries rest listing : Listing} {nodes : Nodes} {p' : Progress}

/-- The loop passes over the `.` and `..` of the main directory, and over an excluded name. -/
def PassesOver (o : Options) (level : Nat) (n : Node) : Prop :=
  level ≤ 1 ∧ (n.name = dot ∨ n.name = dotdot) ∨ Excluded o n

/-- A run of the loop of `processdir`, turn by turn. -/
inductive Processed (o : Options) :
    Nat → List UInt8 → Nat → Nat → Listing → Progress → Nodes → Progress → Prop
  | nil {level self parent : Nat} {base : List UInt8} {p : Progress} :
      Processed o level base self parent .nil p .nil p
  | passed {level self parent : Nat} {base name : List UInt8} {stat : HostStat}
      {entries rest : Listing} {p p' : Progress} {nodes : Nodes} :
      PassesOver o level (newnode base name stat p.curroffset) →
      Processed o level base self parent rest p nodes p' →
      Processed o level base self parent (.cons name stat entries rest) p nodes p'
  | link {level self parent link : Nat} {base name : List UInt8} {stat : HostStat}
      {entries rest : Listing} {p p' : Progress} {placed : Node × Nat} {nodes : Nodes} :
      ¬PassesOver o level (newnode base name stat p.curroffset) →
      oldLink self parent p.nodes name stat = some link →
      placed = placeLink o (newnode base name stat p.curroffset) link p.curroffset →
      Processed o level base self parent rest (p.append placed) nodes p' →
      Processed o level base self parent (.cons name stat entries rest) p
        (.cons placed.1 .nil nodes) p'
  | dir {level self parent : Nat} {base name : List UInt8} {stat : HostStat}
      {entries rest : Listing} {p mid p' : Progress} {placed : Node × Nat} {dirlist nodes : Nodes} :
      ¬PassesOver o level (newnode base name stat p.curroffset) →
      oldLink self parent p.nodes name stat = none → stat.kind = .dir →
      placed = placeFile o (newnode base name stat p.curroffset) p.curroffset →
      Processed o (level + 1) placed.1.realname placed.1.offset self entries (p.append placed)
        dirlist mid →
      Processed o level base self parent rest mid nodes p' →
      Processed o level base self parent (.cons name stat entries rest) p
        (.cons placed.1 dirlist nodes) p'
  | file {level self parent : Nat} {base name : List UInt8} {stat : HostStat}
      {entries rest : Listing} {p p' : Progress} {placed : Node × Nat} {nodes : Nodes} :
      ¬PassesOver o level (newnode base name stat p.curroffset) →
      oldLink self parent p.nodes name stat = none → stat.kind ≠ .dir →
      placed = placeFile o (newnode base name stat p.curroffset) p.curroffset →
      Processed o level base self parent rest (p.append placed) nodes p' →
      Processed o level base self parent (.cons name stat entries rest) p
        (.cons placed.1 .nil nodes) p'

theorem processed_of_run {r : Nodes × Progress}
    (h : processEntries o level base self parent listing p = some r) :
    Processed o level base self parent listing p r.1 r.2 := by
  induction listing generalizing level base self parent p r with
  | nil =>
    cases h
    exact .nil
  | cons name stat entries rest ihDir ihRest =>
    rw [processEntries] at h
    by_cases hdots : level ≤ 1 ∧ (name = dot ∨ name = dotdot)
    · rw [if_pos hdots] at h
      exact .passed (.inl hdots) (ihRest h)
    rw [if_neg hdots] at h
    simp only at h
    by_cases hexcluded : Excluded o (newnode base name stat p.curroffset)
    · rw [if_pos hexcluded] at h
      exact .passed (.inr hexcluded) (ihRest h)
    rw [if_neg hexcluded] at h
    have hstays : ¬PassesOver o level (newnode base name stat p.curroffset) := fun hover =>
      hover.elim hdots hexcluded
    split at h
    · cases h
    cases hlink : oldLink self parent p.nodes name stat with
    | some link =>
      simp only [hlink] at h
      obtain ⟨r', hrest, heq⟩ := Option.bind_eq_some_iff.mp h
      cases heq
      exact .link hstays hlink rfl (ihRest hrest)
    | none =>
      simp only [hlink] at h
      obtain ⟨r', hdir, hbind⟩ := Option.bind_eq_some_iff.mp h
      obtain ⟨r'', hrest, heq⟩ := Option.bind_eq_some_iff.mp hbind
      cases heq
      by_cases hkind : stat.kind = .dir
      · rw [if_pos hkind] at hdir
        exact .dir hstays hlink hkind rfl (ihDir hdir) (ihRest hrest)
      · rw [if_neg hkind] at hdir
        cases hdir
        exact .file hstays hlink hkind rfl (ihRest hrest)

/-- Nodes that lie at their places behind `p.curroffset`, with all their bytes before the
`curroffset` after them. -/
def Fits (o : Options) (p : Progress) (nodes : Nodes) (p' : Progress) : Prop :=
  Placed o p.curroffset nodes ∧ p'.curroffset = p.curroffset + (treeBytes nodes).length ∧
    p'.curroffset % 16 = 0

theorem Fits.cons {placed : Node × Nat} {dirlist : Nodes} {mid : Progress}
    (hplaced : PlacedAt o p.curroffset placed.1) (hoffset : placed.2 = placed.1.offset)
    (hdir : Fits o (p.append placed) dirlist mid) (hrest : Fits o mid nodes p') :
    Fits o p (.cons placed.1 dirlist nodes) p' := by
  obtain ⟨hdirPlaced, hdirLen, -⟩ := hdir
  obtain ⟨hrestPlaced, hrestLen, hrestMod⟩ := hrest
  rw [p.append_curroffset hoffset] at hdirPlaced hdirLen
  rw [hdirLen] at hrestPlaced hrestLen
  refine ⟨⟨hplaced, hdirPlaced, hrestPlaced⟩, ?_, hrestMod⟩
  have hlen := hplaced.length (headerOf placed.1 dirlist nodes)
  simp only [treeBytes, List.length_append] at hlen ⊢
  omega

theorem Fits.nil (h : p.curroffset % 16 = 0) : Fits o p .nil p := ⟨trivial, rfl, h⟩

/-- `processdir` gives each node the offset at which its bytes will be, and counts them. -/
theorem Processed.fits (ho : o.Valid) (h : Processed o level base self parent listing p nodes p')
    (hmod : p.curroffset % 16 = 0) : Fits o p nodes p' := by
  induction h with
  | nil => exact .nil hmod
  | passed _ _ ih => exact ih hmod
  | @link _ _ _ link base name stat _ _ p _ placed _ _ _ hplaced _ ih =>
    obtain ⟨hat, hoffset⟩ := placedAt_link ho base name stat link hmod
    rw [← hplaced] at hat hoffset
    have hmod' := p.append_mod hat hoffset
    exact .cons hat hoffset (.nil hmod') (ih hmod')
  | @dir _ _ _ base name stat _ _ p _ _ placed _ _ _ _ _ hplaced _ _ ihDir ihRest =>
    obtain ⟨hat, hoffset⟩ := placedAt_file ho base name stat hmod
    rw [← hplaced] at hat hoffset
    have hdir := ihDir (p.append_mod hat hoffset)
    exact .cons hat hoffset hdir (ihRest hdir.2.2)
  | @file _ _ _ base name stat _ _ p _ placed _ _ _ _ hplaced _ ih =>
    obtain ⟨hat, hoffset⟩ := placedAt_file ho base name stat hmod
    rw [← hplaced] at hat hoffset
    have hmod' := p.append_mod hat hoffset
    exact .cons hat hoffset (.nil hmod') (ih hmod')

/-! ### Directories without special names -/

/-- An entry without an old link is neither `.` nor `..`. -/
theorem named_of_oldLink {nodes : List Node} (h : oldLink self parent nodes name stat = none) :
    name ≠ dot ∧ name ≠ dotdot := by
  unfold oldLink at h
  refine ⟨fun hdot => ?_, fun hdotdot => ?_⟩
  · rw [if_pos hdot] at h
    exact absurd h (Option.some_ne_none _)
  · subst hdotdot
    rw [if_neg (by decide), if_pos rfl] at h
    exact absurd h (Option.some_ne_none _)

/-- The offset of a node behind the volume says nothing about its names. -/
theorem newnode_eq {curroffset : Nat} (h : 0 < curroffset) :
    newnode base name stat curroffset =
      { newnode base name stat 1 with offset := curroffset } := by
  unfold newnode
  rw [if_neg h.ne', if_neg Nat.one_ne_zero]

theorem excluded_newnode {curroffset : Nat} (h : 0 < curroffset) :
    Excluded o (newnode base name stat curroffset) ↔ Excluded o (newnode base name stat 1) := by
  rw [newnode_eq h]
  rfl

theorem kept_excluded (h : Excluded o (newnode base name stat 1)) :
    (Listing.cons name stat entries rest).kept o base = rest.kept o base := if_pos h

theorem kept_cons (h : ¬Excluded o (newnode base name stat 1)) :
    (Listing.cons name stat entries rest).kept o base =
      .cons name stat (entries.kept o (newnode base name stat 1).realname) (rest.kept o base) :=
  if_neg h

theorem plain_rest (h : ((Listing.cons name stat entries rest).kept o base).Plain) :
    (rest.kept o base).Plain := by
  by_cases hexcluded : Excluded o (newnode base name stat 1)
  · rwa [kept_excluded hexcluded] at h
  · rw [kept_cons hexcluded] at h
    exact h.2.2.2.2

theorem Progress.append_pos (p : Progress) (placed : Node × Nat) :
    0 < (p.append placed).curroffset := by
  show 0 < placed.2 + spaceneeded placed.1
  unfold spaceneeded
  omega

/-- Where there is no special name, the loop comes to the end of the listing. -/
theorem processEntries_runs (hpos : 0 < p.curroffset) (hplain : (listing.kept o base).Plain) :
    ∃ r, processEntries o level base self parent listing p = some r ∧ 0 < r.2.curroffset := by
  induction listing generalizing level base self parent p with
  | nil => exact ⟨_, rfl, hpos⟩
  | cons name stat entries rest ihDir ihRest =>
    have hkept : Excluded o (newnode base name stat p.curroffset) ↔
        Excluded o (newnode base name stat 1) := excluded_newnode hpos
    have hrest := plain_rest hplain
    rw [processEntries]
    by_cases hdots : level ≤ 1 ∧ (name = dot ∨ name = dotdot)
    · rw [if_pos hdots]
      exact ihRest hpos hrest
    rw [if_neg hdots]
    by_cases hexcluded : Excluded o (newnode base name stat p.curroffset)
    · simp only [if_pos hexcluded]
      exact ihRest hpos hrest
    rw [kept_cons (mt hkept.mpr hexcluded)] at hplain
    obtain ⟨hspecial, -, -, hentries, -⟩ := hplain
    simp only [if_neg hexcluded, if_neg hspecial]
    cases hlink : oldLink self parent p.nodes name stat with
    | some link =>
      obtain ⟨r, hrun, hpos'⟩ : ∃ r, processEntries o level base self parent rest
          (p.append (placeLink o (newnode base name stat p.curroffset) link p.curroffset)) = some r ∧
          0 < r.2.curroffset := ihRest (p.append_pos _) hrest
      simp only [hrun]
      exact ⟨_, rfl, hpos'⟩
    | none =>
      obtain ⟨-, -, -, hrealname⟩ := placeFile_node o base name stat p.curroffset
      generalize placeFile o (newnode base name stat p.curroffset) p.curroffset = placed at *
      have hdir : ∃ r, (if stat.kind = .dir then
            processEntries o (level + 1) placed.1.realname placed.1.offset self entries
              (p.append placed)
          else some (.nil, p.append placed)) = some r ∧ 0 < r.2.curroffset := by
        by_cases hkind : stat.kind = .dir
        · rw [if_pos hkind, hrealname, newnode_eq hpos]
          obtain ⟨hdot, hdotdot⟩ := named_of_oldLink hlink
          exact ihDir (p.append_pos placed) (hentries hdot hdotdot hkind)
        · rw [if_neg hkind]
          exact ⟨_, rfl, p.append_pos placed⟩
      obtain ⟨r, hdir, hpos'⟩ := hdir
      obtain ⟨r', hrun, hpos''⟩ : ∃ r', processEntries o level base self parent rest r.2 = some r' ∧
          0 < r'.2.curroffset := ihRest hpos' hrest
      simp only [hdir, Option.bind_eq_bind, Option.bind_some, hrun]
      exact ⟨_, rfl, hpos''⟩

theorem chunksLength_le {n : Nat} (h : n ≤ 4079) : 16 + chunksLength n ≤ bigbufSize := by
  unfold chunksLength bigbufSize
  omega

theorem PlacedAt.buffered {curroffset : Nat} (h : PlacedAt o curroffset n) (hname : n.name = name)
    (hstat : n.stat = stat) (hshort : name.length ≤ 4079)
    (htarget : stat.kind = .lnk → stat.data.length ≤ bigbufSize) : Buffered n :=
  ⟨h.pad_le, chunksLength_le (hname ▸ hshort), fun _ => hstat ▸ htarget⟩

/-- The nodes that the loop makes of such a listing go through `bigbuf`. -/
theorem Processed.buffered (ho : o.Valid)
    (h : Processed o level base self parent listing p nodes p') (hmod : p.curroffset % 16 = 0)
    (hpos : 0 < p.curroffset) (hplain : (listing.kept o base).Plain) :
    nodes.All fun node _ _ => Buffered node := by
  induction h with
  | nil => trivial
  | passed _ _ ih => exact ih hmod hpos (plain_rest hplain)
  | @link _ _ _ link base name stat _ _ p _ placed _ hstays _ hplaced _ ih =>
    obtain ⟨hat, hoffset⟩ := placedAt_link ho base name stat link hmod
    obtain ⟨hname, hstat, -⟩ := placeLink_node o base name stat p.curroffset link
    rw [← hplaced] at hat hoffset hname hstat
    rw [kept_cons fun hexcluded => hstays (.inr ((excluded_newnode hpos).mpr hexcluded))] at hplain
    obtain ⟨-, hshort, htarget, -, hrest⟩ := hplain
    exact ⟨hat.buffered hname hstat hshort htarget, trivial,
      ih (p.append_mod hat hoffset) (p.append_pos placed) hrest⟩
  | @dir _ _ _ base name stat _ _ p mid _ placed _ _ hstays hlink hkind hplaced hrun _ ihDir ihRest =>
    obtain ⟨hat, hoffset⟩ := placedAt_file ho base name stat hmod
    obtain ⟨hname, hstat, -, hrealname⟩ := placeFile_node o base name stat p.curroffset
    rw [← hplaced] at hat hoffset hname hstat hrealname
    rw [kept_cons fun hexcluded => hstays (.inr ((excluded_newnode hpos).mpr hexcluded))] at hplain
    obtain ⟨-, hshort, htarget, hentries, hrest⟩ := hplain
    obtain ⟨hdot, hdotdot⟩ := named_of_oldLink hlink
    have hmod' := p.append_mod hat hoffset
    obtain ⟨-, hcurr, hmod''⟩ := hrun.fits ho hmod'
    have hpos' := p.append_pos placed
    rw [newnode_eq hpos] at hrealname
    exact ⟨hat.buffered hname hstat hshort htarget,
      ihDir hmod' hpos' (hrealname ▸ hentries hdot hdotdot hkind),
      ihRest hmod'' (hcurr ▸ Nat.add_pos_left hpos' _) hrest⟩
  | @file _ _ _ base name stat _ _ p _ placed _ hstays _ _ hplaced _ ih =>
    obtain ⟨hat, hoffset⟩ := placedAt_file ho base name stat hmod
    obtain ⟨hname, hstat, -⟩ := placeFile_node o base name stat p.curroffset
    rw [← hplaced] at hat hoffset hname hstat
    rw [kept_cons fun hexcluded => hstays (.inr ((excluded_newnode hpos).mpr hexcluded))] at hplain
    obtain ⟨-, hshort, htarget, -, hrest⟩ := hplain
    exact ⟨hat.buffered hname hstat hshort htarget, trivial,
      ih (p.append_mod hat hoffset) (p.append_pos placed) hrest⟩

/-! ### The main directory -/

/-- The state of `processdir` behind the volume. -/
def start (o : Options) : Progress := ⟨spaceneeded (rootnode o), [rootnode o]⟩

/-- The nodes for the `.` and the `..` of the main directory. -/
def mainDot (o : Options) (stat : HostStat) : Node × Nat :=
  placeFile o (newnode o.dir dot stat (start o).curroffset) (start o).curroffset
def mainDotdot (o : Options) (stat parentStat : HostStat) : Node × Nat :=
  let p := (start o).append (mainDot o stat)
  placeLink o (newnode o.dir dotdot parentStat p.curroffset) (mainDot o stat).1.offset p.curroffset

/-- The state of `processdir` before the first entry. -/
def mainStart (o : Options) (stat parentStat : HostStat) : Progress :=
  ((start o).append (mainDot o stat)).append (mainDotdot o stat parentStat)

/-- The node for the `.` of the main directory is placed like any directory, and that for its `..`
like any link. -/
theorem processdir_eq (ho : o.Valid) (parentStat : HostStat) (hdir : stat.kind = .dir)
    (listing : Listing) :
    processdir o stat parentStat listing =
      (processEntries o 1 o.dir (mainDot o stat).1.offset 0 listing
        (mainStart o stat parentStat)).map fun r =>
          (.cons (mainDot o stat).1 .nil (.cons (mainDotdot o stat parentStat).1 .nil r.1), r.2) := by
  have hlink : alignnode o (newnode o.dir dot stat (spaceneeded (rootnode o)))
      (spaceneeded (rootnode o)) 0 = mainDot o stat := by
    obtain ⟨k, heq, -⟩ := alignnode_eq ho (spaceneeded (rootnode o)) 0
      (n := newnode o.dir dot stat (spaceneeded (rootnode o))) rfl
    have hkind : (newnode o.dir dot stat (spaceneeded (rootnode o))).stat.kind = .dir := hdir
    simp only [mainDot, start, placeFile, hkind, reduceCtorEq, or_self, if_false, heq]
    rfl
  unfold processdir
  simp only [hlink]
  rw [Option.map_eq_bind]
  rfl

theorem placedAt_mainDot (ho : o.Valid) (stat : HostStat) :
    PlacedAt o (start o).curroffset (mainDot o stat).1 ∧
      (mainDot o stat).2 = (mainDot o stat).1.offset :=
  placedAt_file ho o.dir dot stat (spaceneeded_mod (rootnode o))

theorem placedAt_mainDotdot (ho : o.Valid) (stat parentStat : HostStat) :
    PlacedAt o ((start o).append (mainDot o stat)).curroffset (mainDotdot o stat parentStat).1 ∧
      (mainDotdot o stat parentStat).2 = (mainDotdot o stat parentStat).1.offset :=
  have hdot := placedAt_mainDot ho stat
  placedAt_link ho o.dir dotdot parentStat _ ((start o).append_mod hdot.1 hdot.2)

theorem mainDot_node (o : Options) (stat : HostStat) :
    (mainDot o stat).1.name = dot ∧ (mainDot o stat).1.stat = stat ∧
      (mainDot o stat).1.origLink = none :=
  have h := placeFile_node o o.dir dot stat (start o).curroffset
  ⟨h.1, h.2.1, h.2.2.1⟩

theorem mainDotdot_node (o : Options) (stat parentStat : HostStat) :
    (mainDotdot o stat parentStat).1.name = dotdot ∧
      (mainDotdot o stat parentStat).1.stat = parentStat ∧
      (mainDotdot o stat parentStat).1.origLink = some (mainDot o stat).1.offset :=
  placeLink_node o o.dir dotdot parentStat ((start o).append (mainDot o stat)).curroffset
    (mainDot o stat).1.offset

theorem mainStart_mod (ho : o.Valid) (stat parentStat : HostStat) :
    (mainStart o stat parentStat).curroffset % 16 = 0 :=
  have hdotdot := placedAt_mainDotdot ho stat parentStat
  Progress.append_mod _ hdotdot.1 hdotdot.2

theorem mainStart_pos (o : Options) (stat parentStat : HostStat) :
    0 < (mainStart o stat parentStat).curroffset := Progress.append_pos _ _

/-- What `processdir` returns for a main directory without special names: the nodes of the main
directory, at their places behind the volume. -/
structure MainProcessed (o : Options) (stat parentStat : HostStat) (listing : Listing)
    (r : Nodes × Progress) (nodes : Nodes) : Prop where
  eq : r.1 = .cons (mainDot o stat).1 .nil (.cons (mainDotdot o stat parentStat).1 .nil nodes)
  run : Processed o 1 o.dir (mainDot o stat).1.offset 0 listing (mainStart o stat parentStat) nodes r.2
  fits : Fits o (start o) r.1 r.2
  buffered : r.1.All fun node _ _ => Buffered node

theorem processdir_runs (ho : o.Valid) (parentStat : HostStat) (hdir : stat.kind = .dir)
    (hplain : (listing.kept o o.dir).Plain) :
    ∃ r nodes, processdir o stat parentStat listing = some r ∧
      MainProcessed o stat parentStat listing r nodes := by
  obtain ⟨hdot, hdotOffset⟩ := placedAt_mainDot ho stat
  obtain ⟨hdotdot, hdotdotOffset⟩ := placedAt_mainDotdot ho stat parentStat
  have hmod := mainStart_mod ho stat parentStat
  have hpos := mainStart_pos o stat parentStat
  obtain ⟨r, hrun, -⟩ : ∃ r, processEntries o 1 o.dir (mainDot o stat).1.offset 0 listing
      (mainStart o stat parentStat) = some r ∧ 0 < r.2.curroffset := processEntries_runs hpos hplain
  have hprocessed := processed_of_run hrun
  refine ⟨_, r.1, (processdir_eq ho parentStat hdir listing).trans (congrArg _ hrun), rfl,
    hprocessed, ?_, ?_⟩
  · exact .cons hdot hdotOffset (.nil ((start o).append_mod hdot hdotOffset))
      (.cons hdotdot hdotdotOffset (.nil hmod) (hprocessed.fits ho hmod))
  · obtain ⟨hdotName, hdotStat, -⟩ := mainDot_node o stat
    obtain ⟨hdotdotName, -, hdotdotLink⟩ := mainDotdot_node o stat parentStat
    refine ⟨hdot.buffered hdotName hdotStat (by decide) fun hkind => ?_, trivial,
      ⟨hdotdot.pad_le, ?_, fun hlink => ?_⟩, trivial, hprocessed.buffered ho hmod hpos hplain⟩
    · rw [hdir] at hkind
      cases hkind
    · rw [hdotdotName]
      exact chunksLength_le (by decide)
    · rw [hdotdotLink] at hlink
      cases hlink

/-! ## 3. The image -/

/-- The header of the volume, in the place of the header of a file. -/
def volumeHeader (lastoff : Nat) : Romfh :=
  ⟨0x2d726f6d, 0x3166732d, UInt32.ofNat lastoff, 0x55555555⟩

/-- The bytes of the image before the checksum of the volume is set. -/
def unsummed (o : Options) (nodes : Nodes) (lastoff : Nat) : List UInt8 :=
  headBytes (volumeHeader lastoff) (rootnode o) ++ treeBytes nodes ++
    List.replicate ((1024 - lastoff % 1024) % 1024) 0

theorem length_volume (lastoff : Nat) :
    (headBytes (volumeHeader lastoff) (rootnode o)).length = spaceneeded (rootnode o) := by
  have hsize : alignup16 (rootnode o).size = 0 := show alignup16 0 = 0 by decide
  rw [length_headBytes, spaceneeded, chunksLength_eq, hsize]
  exact (Nat.add_zero _).symm

theorem length_unsummed {nodes : Nodes} {lastoff : Nat}
    (h : lastoff = spaceneeded (rootnode o) + (treeBytes nodes).length) :
    (unsummed o nodes lastoff).length % 1024 = 0 ∧ 0 < (unsummed o nodes lastoff).length ∧
      lastoff ≤ (unsummed o nodes lastoff).length ∧
      (unsummed o nodes lastoff).length < lastoff + 1024 := by
  have hpos : 16 ≤ spaceneeded (rootnode o) := by
    unfold spaceneeded
    omega
  simp only [unsummed, List.length_append, length_volume, List.length_replicate]
  omega

theorem dumpall_dumps {nodes : Nodes} (ho : o.Valid)
    (hbuffered : nodes.All fun node _ _ => Buffered node) (lastoff : Nat) :
    Dumps (dumpall ⟨0, [], []⟩ o nodes lastoff) (unsummed o nodes lastoff) := by
  refine (dumped_start.dumpri (volumeHeader lastoff) (n := rootnode o)
    (chunksLength_le ho.volname)).bind fun _ hhead =>
      (dumpnodes_dumps hhead hbuffered).bind fun _ hnodes => ?_
  unfold unsummed
  by_cases hmod : lastoff % 1024 = 0
  · simpa [hmod] using hnodes.dumps
  · have hzeros : (1024 - lastoff % 1024) % 1024 = 1024 - lastoff % 1024 := by
      omega
    rw [hzeros, if_pos hmod]
    exact hnodes.dumpzero (Nat.le_trans (Nat.sub_le _ _) (by decide))

/-- The image file has the volume, the nodes, and zeros to the next multiple of 1024. -/
theorem genromfs_eq (ho : o.Valid) (parentStat : HostStat) (hdir : stat.kind = .dir)
    (hplain : (listing.kept o o.dir).Plain) :
    ∃ r nodes, processdir o stat parentStat listing = some r ∧
      MainProcessed o stat parentStat listing r nodes ∧
      genromfs o stat parentStat listing =
        some (volumeSummed (unsummed o r.1 r.2.curroffset)) := by
  obtain ⟨r, nodes, hrun, hmain⟩ := processdir_runs ho parentStat hdir hplain
  refine ⟨r, nodes, hrun, hmain, ?_⟩
  obtain ⟨-, hlastoff, -⟩ := hmain.fits
  have hlen := length_unsummed hlastoff
  obtain ⟨f, hdump, hdumped⟩ := dumpall_dumps ho hmain.buffered r.2.curroffset
  simp only [genromfs, hrun, hdump, Option.bind_eq_bind, Option.bind_some]
  rw [← hdumped.written (by omega)]

end Vmwos.Genromfs
