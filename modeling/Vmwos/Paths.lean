import Vmwos.Lookup

/-!
# Path resolution

What `get_inode` returns for a path whose components before the last one lead to a directory:
where the last component leads, or a negative value.

In the format `spec.info` of a directory is its first file's header, and every directory has its
`.` and `..` links, so `romfs_get_inode` starts its loop at the first entry without looking
whether there is one.

Results:
1. `path_resolution`: what a path names, or a negative value.
2. `getInode_empty`: outside of the format, a directory with `spec.info` 0. The loop starts at the
   header of the volume at offset 0.
-/

namespace Vmwos.Romfs

open Bytes

/-! ## Definitions -/

/-- A well-formed directory. There is a first file, at least the link `.`; the names fit the
buffer of `romfs_get_inode`, and hard links end. -/
structure WellFormed (d : Ramdisk) (dir : UInt32) (es : List Entry) : Prop where
  directory : IsDirectory d dir es
  ne_nil : es ≠ []
  short : ∀ e ∈ es, e.header.name.length < maxFilenameSize
  linked : ∀ e ∈ es, ∃ target, LinksTo d e.inode target

/-- The header of the volume: `-rom` and `1fs-` in the place of `next` and `spec.info`, and the
volume name in the place of the name. -/
def IsVolume (d : Ramdisk) (volume : List UInt8) : Prop :=
  ∃ size, HasHeader d 0 ⟨0x2d726f6d, 0x3166732d, size, volume⟩

variable {d : Ramdisk} {inode target dir : UInt32} {volume name : List UInt8} {es : List Entry}
  {m : Mem}

/-! ## In a directory -/

theorem LinksTo.header (h : LinksTo d inode target) : ∃ hd, HasHeader d target hd := by
  induction h with
  | here hh _ => exact ⟨_, hh⟩
  | link _ _ _ ih => exact ih

/-- The header at the end of a link lies in the image, so that its offset is not negative. -/
theorem LinksTo.not_isNeg (h : LinksTo d inode target) (hlen : d.length.toNat < 2 ^ 31) :
    ¬isNeg target := by
  obtain ⟨hd, hh⟩ := h.header
  have hin := hh.inside
  rw [isNeg]
  omega

/-- A directory has a first entry with the name, or none. -/
theorem finds_or_missing (es : List Entry) (name : List UInt8) :
    (∃ e, Finds es name e) ∨ ∀ e ∈ es, e.header.name ≠ name := by
  cases hfind : es.find? (fun e => e.header.name = name) with
  | none => exact .inr fun e he => by simpa using List.find?_eq_none.mp hfind e he
  | some e =>
    obtain ⟨hname, before, after, heq, hbefore⟩ := List.find?_eq_some_iff_append.mp hfind
    exact .inl ⟨e, before, after, heq, by simpa using hname, fun e' he' => by
      simpa using hbefore e' he'⟩

theorem Finds.mem {e : Entry} (h : Finds es name e) : e ∈ es ∧ e.header.name = name := by
  obtain ⟨before, after, rfl, hname, _⟩ := h
  exact ⟨by simp, hname⟩

/-! ## In a directory without a first file -/

/-- The offset behind the volume header is outside of an image of at most 727 MB: the string
there cannot be read. -/
theorem getInodeLoop_outside (hlen : d.length.toNat ≤ 0x2d726f60) (fuel : Nat)
    (temp : List UInt8) (filename : Mem) :
    getInodeLoop d m fuel temp 0x2d726f60 filename = none := by
  cases fuel with
  | zero => rfl
  | succ fuel =>
    have hword : ramdiskRead d 0x2d726f60 4 = none := by
      rw [ramdiskRead, if_pos]
      rw [gt_iff_lt, UInt32.lt_iff_toNat_lt]
      exact Nat.lt_of_le_of_lt hlen (by decide)
    have hchunk : ramdiskRead d (0x2d726f60 + 16) 16 = none := by
      rw [ramdiskRead, if_pos]
      rw [gt_iff_lt, UInt32.lt_iff_toNat_lt]
      exact Nat.lt_of_le_of_lt hlen (by decide)
    have hstring : romfsReadString d (0x2d726f60 + 16) filename 0 maxFilenameSize = none := by
      rw [romfsReadString]
      show (readStringLoop d 0 (2 ^ 32 + 1) none (0x2d726f60 + 16) _ _).map _ = none
      rw [readStringLoop, romfsReadNoinc, hchunk]
      rfl
    simp only [getInodeLoop, romfsReadNoinc, hword, Option.none_or, Option.bind_eq_bind,
      Option.bind_some, hstring, Option.bind_none]

/-- `romfs_get_inode` in an empty directory: it finds the volume under its own name, at offset
0, and leaves the image for any other name. -/
theorem romfsGetInode_empty (hvolume : IsVolume d volume) (hlen : d.length.toNat ≤ 0x2d726f60)
    (h : IsDirectory d dir []) (hm : StringAt m 0 name) (hname : name.length < maxFilenameSize) :
    romfsGetInode d dir m = if name = volume then some 0 else none := by
  obtain ⟨hd, hh, htype, hchain⟩ := h
  obtain ⟨size, hvol⟩ := hvolume
  have hspec : hd.spec = 0 := by
    generalize hd.spec = spec at hchain
    cases hchain
    rfl
  obtain ⟨filename, hturn⟩ := getInodeLoop_turn (2 ^ 32) (wordBytes d (dir + 4)) (fun _ => 0) hvol
    hm hname
  have hlinks : LinksTo d 0 0 := .here hvol (show (0x2d726f6d : UInt32) &&& 7 ≠ 0 by decide)
  have hnext : Header.next ⟨0x2d726f6d, 0x3166732d, size, volume⟩ = 0x2d726f60 :=
    show (0x2d726f6d : UInt32) &&& ~~~0xf = 0x2d726f60 by decide
  rw [romfsGetInode_directory hh htype, hspec]
  show getInodeLoop d m (2 ^ 32 + 1) _ _ _ = _
  rw [hturn, romfsInodeFollowLinks_eq hlinks]
  refine if_congr Iff.rfl rfl ?_
  rw [hnext, if_neg (by decide)]
  exact getInodeLoop_outside hlen _ _ _

end Vmwos.Romfs

namespace Vmwos.Files

open Bytes Romfs

/-! ## 1. Resolution -/

/-- `get_inode` returns what the first entry with the name leads to, and a negative value
exactly when there is no such entry. -/
def ResolvesName (d : Ramdisk) (f : State) (currentDir : UInt32) (path : List UInt8)
    (es : List Entry) (name : List UInt8) : Prop :=
  (∀ e target, Finds es name e → LinksTo d e.inode target →
      getInode d f currentDir path = some target) ∧
    ((∃ r, getInode d f currentDir path = some r ∧ isNeg r) ↔ ∀ e ∈ es, e.header.name ≠ name)

/-- Path resolution. The path is absolute or relative, and its components before the last one
lead to the directory at `last`, in which `get_inode` resolves the last component. An image lies
in RAM, so that no offset in it is negative. -/
theorem path_resolution (d : Ramdisk) (hlen : d.length.toNat < 2 ^ 31) (f : State)
    (currentDir : UInt32) (path : List UInt8) (last : UInt32) (name : List UInt8)
    (es : List Entry) (hpath : LooksIn d f.rootDir currentDir path last name)
    (hdir : WellFormed d last es) : ResolvesName d f currentDir path es name := by
  have hname := hpath.component
  have hfound : ∀ e target, Finds es name e → LinksTo d e.inode target →
      getInode d f currentDir path = some target := by
    intro e target hfinds hlinks
    rw [getInode_looksIn hpath]
    exact romfsGetInode_component hname ⟨es, e, hdir.directory, hdir.short, hfinds, hlinks⟩
  refine ⟨hfound, ?_⟩
  rcases finds_or_missing es name with ⟨e, hfinds⟩ | hmissing
  · obtain ⟨hmem, heq⟩ := hfinds.mem
    obtain ⟨target, hlinks⟩ := hdir.linked e hmem
    constructor
    · rintro ⟨r, hr, hneg⟩
      cases (hfound e target hfinds hlinks).symm.trans hr
      exact absurd hneg (hlinks.not_isNeg hlen)
    · exact fun hmissing => absurd heq (hmissing e hmem)
  · refine ⟨fun _ => hmissing, fun _ => ⟨-1, ?_, by decide⟩⟩
    rw [getInode_looksIn hpath]
    exact romfsGetInode_missing hdir.directory hdir.ne_nil (stringAt_stringMem hname.nonzero)
      (Nat.lt_of_le_of_lt hname.length_le (by decide)) hmissing

/-- A volume `vmwos` whose root directory has, besides `.` and `..`, the empty file `a`. -/
def treeRoot : Entry := ⟨32, 65, 32, 0, [46]⟩
def treeParent : Entry := ⟨64, 96, 32, 0, [46, 46]⟩
def treeA : Entry := ⟨96, 2, 0, 0, [97]⟩
def treeImage : List UInt8 :=
  [45, 114, 111, 109, 49, 102, 115, 45] ++ beBytes 128 ++ beBytes 0 ++
    padded [118, 109, 119, 111, 115] ++ headerBytes treeRoot.header ++
    headerBytes treeParent.header ++ headerBytes treeA.header
def treeDisk : Ramdisk := ⟨fun i => treeImage[i]?.getD 0, 128⟩
def treeFiles : State := ⟨fun _ => ⟨0, 0, 0⟩, 32⟩

theorem tree_root : WellFormed treeDisk 32 [treeRoot, treeParent, treeA] where
  directory := by
    refine ⟨treeRoot.header, by decide +kernel, by decide, ?_⟩
    refine .cons (by decide) (by decide) (by decide +kernel) ?_
    refine .cons (by decide) (by decide) (by decide +kernel) ?_
    exact .cons (by decide) (by decide) (by decide +kernel) .nil
  ne_nil := by simp
  short := by decide
  linked := by
    have hroot : LinksTo treeDisk 32 32 :=
      .here (h := treeRoot.header) (by decide +kernel) (by decide)
    simp only [List.mem_cons, List.not_mem_nil, or_false, forall_eq_or_imp, forall_eq]
    refine ⟨⟨32, hroot⟩, ⟨32, ?_⟩, ⟨96, ?_⟩⟩
    · exact .link (h := treeParent.header) (by decide +kernel) (by decide) hroot
    · exact .here (h := treeA.header) (by decide +kernel) (by decide)

theorem tree_leads : Leads treeDisk 32 [46, 46] 32 := by
  refine ⟨_, treeParent, tree_root.directory, tree_root.short, ?_, ?_⟩
  · exact ⟨[treeRoot], [treeA], rfl, rfl, by decide⟩
  · exact .link (h := treeParent.header) (by decide +kernel) (by decide)
      (.here (h := treeRoot.header) (by decide +kernel) (by decide))

/-- The path `/../a`. -/
theorem tree_looksIn : LooksIn treeDisk treeFiles.rootDir 32 [47, 46, 46, 47, 97] 32 [97] :=
  .absolute (.more ⟨by decide, by simp, by simp, by decide⟩ tree_leads
    (.last ⟨by decide, by simp, by simp, by decide⟩))

theorem path_resolution_file :
    getInode treeDisk treeFiles 32 [47, 46, 46, 47, 97] = some 96 := by
  have hresolves := path_resolution treeDisk (by decide) treeFiles 32 [47, 46, 46, 47, 97] 32 [97]
    _ tree_looksIn tree_root
  exact hresolves.1 treeA 96 ⟨[treeRoot, treeParent], [], rfl, rfl, by decide⟩
    (.here (h := treeA.header) (by decide +kernel) (by decide))

/-! ## 2. A directory without a first file -/

variable {d : Ramdisk} {f : State} {currentDir last : UInt32} {path name : List UInt8}

/-- `get_inode` finds the volume under its own name there, and any other name leads out of the
image, if it has at most 727 MB. -/
theorem getInode_empty {volume : List UInt8} (hvolume : IsVolume d volume)
    (hlen : d.length.toNat ≤ 0x2d726f60) (hpath : LooksIn d f.rootDir currentDir path last name)
    (hdir : IsDirectory d last []) :
    getInode d f currentDir path = if name = volume then some 0 else none := by
  have hname := hpath.component
  rw [getInode_looksIn hpath]
  exact romfsGetInode_empty hvolume hlen hdir (stringAt_stringMem hname.nonzero)
    (Nat.lt_of_le_of_lt hname.length_le (by decide))

end Vmwos.Files
