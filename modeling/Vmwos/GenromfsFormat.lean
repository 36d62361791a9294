import Vmwos.GenromfsMain

/-!
# Checksums and alignment

What the format promises about every image of `genromfs`, whatever the directory and the options:
the length, the checksums of the volume and of every header, and the alignments of `-a` and `-A`.

`image_format` has all of it, over all nodes of the tree.
-/

namespace Vmwos.Genromfs

open Bytes Romfs

variable {d : Ramdisk} {o : Options} {n : Node}

/-! ## Definitions -/

/-- A header at a multiple of 16 with its name, the checksum of which comes out as 0, the contents
behind it, and the alignments that are asked for: that of `-a` for a regular file, and that of every
`-A` with a pattern for the file. -/
structure NodeFormat (d : Ramdisk) (o : Options) (node : Node) (dirlist rest : Nodes) : Prop where
  mod : node.offset % 16 = 0
  head : Holds d node.offset (headBytes (headerOf node dirlist rest) node)
  checksum : romfsChecksum ((16 + chunksLength node.name.length) / 4)
    (read d.start node.offset (16 + chunksLength node.name.length)) = 0
  contents : Holds d (node.offset + 16 + chunksLength node.name.length) (contents node)
  align : node.stat.kind = .reg → alignedAt node % o.align = 0
  alignlist : ∀ pa ∈ o.alignlist, nodematch o pa.2 node → alignedAt node % pa.1 = 0

/-! ## Alignments -/

/-- Of two alignments the larger one is a multiple of the other. -/
theorem IsAlign.dvd {a b : Nat} (ha : IsAlign a) (hb : IsAlign b) (hle : a ≤ b) : a ∣ b := by
  obtain ⟨i, -, -, rfl⟩ := ha
  obtain ⟨j, -, -, rfl⟩ := hb
  exact Nat.pow_dvd_pow 2 ((Nat.pow_le_pow_iff_right (by decide)).mp hle)

/-- `findalign` is at least what it starts with and what every matching pattern asks for. -/
theorem foldl_align_le (o : Options) (n : Node) (alignlist : List (Nat × List UInt8)) (i : Nat) :
    i ≤ alignlist.foldl (fun i pa => if pa.1 > i ∧ nodematch o pa.2 n then pa.1 else i) i ∧
      ∀ pa ∈ alignlist, nodematch o pa.2 n → pa.1 ≤
        alignlist.foldl (fun i pa => if pa.1 > i ∧ nodematch o pa.2 n then pa.1 else i) i := by
  induction alignlist generalizing i with
  | nil => exact ⟨le_refl i, fun pa hpa => absurd hpa List.not_mem_nil⟩
  | cons pa alignlist ih =>
    rw [List.foldl_cons]
    obtain ⟨hstart, hrest⟩ := ih (if pa.1 > i ∧ nodematch o pa.2 n then pa.1 else i)
    have hi : i ≤ if pa.1 > i ∧ nodematch o pa.2 n then pa.1 else i := by
      split
      · next hmore => exact hmore.1.le
      · exact le_refl i
    refine ⟨hi.trans hstart, List.forall_mem_cons.mpr ⟨fun hmatch => le_trans ?_ hstart, hrest⟩⟩
    split
    · exact le_refl _
    · next hless => exact not_lt.mp fun hlt => hless ⟨hlt, hmatch⟩

theorem PlacedAt.nodeFormat {curroffset : Nat} {dirlist rest : Nodes} (ho : o.Valid)
    (h : PlacedAt o curroffset n) (hpos : 0 < curroffset)
    (hholds : Holds d curroffset (treeBytes (.cons n dirlist rest))) :
    NodeFormat d o n dirlist rest := by
  have hheld := h.held hholds
  have hoffset := h.offset
  have halign := isAlign_findalign ho n
  obtain ⟨hstart, hlist⟩ := foldl_align_le o n o.alignlist
    (if n.stat.kind = .reg then o.align else 16)
  have hdvd := Nat.dvd_of_mod_eq_zero h.aligned
  refine ⟨h.mod, hheld.head, ?_, hheld.contents, fun hreg => ?_, fun pa hpa hmatch => ?_⟩
  · have hbytes := hheld.head.bytes
    rw [length_headBytes] at hbytes
    have hlen : ((headerOf n dirlist rest).bytes ++ padded n.name).length =
        16 + chunksLength n.name.length := by
      rw [List.length_append, length_padded]
      rfl
    rw [hbytes, headBytes, if_pos (by omega), ← hlen]
    exact romfsChecksum_fixsum (by omega) (by omega)
  · have hle : o.align ≤ findalign o n := by
      calc o.align = if n.stat.kind = .reg then o.align else 16 := (if_pos hreg).symm
        _ ≤ findalign o n := hstart
    exact Nat.mod_eq_zero_of_dvd ((ho.align.dvd halign hle).trans hdvd)
  · exact Nat.mod_eq_zero_of_dvd
      (((ho.alignlist pa hpa).dvd halign (hlist pa hpa hmatch)).trans hdvd)

/-- Every node of a tree in the image. -/
theorem Placed.all {curroffset : Nat} {nodes : Nodes} (ho : o.Valid)
    (h : Placed o curroffset nodes) (hpos : 0 < curroffset)
    (hholds : Holds d curroffset (treeBytes nodes)) : nodes.All (NodeFormat d o) := by
  induction nodes generalizing curroffset with
  | nil => trivial
  | cons node dirlist rest ihDir ihRest =>
    obtain ⟨hnode, hdir, hrest⟩ := h
    have hheld := hnode.held hholds
    have hoffset := hnode.offset
    exact ⟨hnode.nodeFormat ho hpos hholds, ihDir hdir (by omega) hheld.below,
      ihRest hrest (by omega) hheld.behind⟩

/-! ## The volume -/

/-- The format of a whole image with the nodes of `processdir`. The size in the header of the volume
is that without the zeros at the end. -/
structure ImageFormat (d : Ramdisk) (o : Options) (nodes : Nodes) (lastoff : Nat) : Prop where
  length : d.length.toNat % 1024 = 0
  room : lastoff ≤ d.length.toNat ∧ d.length.toNat < lastoff + 1024
  magic : Holds d 0 magic
  size : word d 8 = UInt32.ofNat lastoff
  checksum : romfsChecksum (min 512 lastoff / 4) (read d.start 0 512) = 0
  nodes : nodes.All (NodeFormat d o)

/-- An image in the ramdisk has the format. -/
theorem MainProcessed.format {stat parentStat : HostStat} {listing : Listing}
    {r : Nodes × Progress} {nodes : Nodes} (ho : o.Valid)
    (h : MainProcessed o stat parentStat listing r nodes)
    (hloaded : Loaded d (volumeSummed (unsummed o r.1 r.2.curroffset))) :
    ImageFormat d o r.1 r.2.curroffset := by
  obtain ⟨hplaced, hlastoff, -⟩ := h.fits
  obtain ⟨⟨checksum, hvolume⟩, hnodes⟩ := image_holds hloaded
  obtain ⟨hmod, hpos, hle, hlt⟩ := length_unsummed hlastoff
  have hlength : d.length.toNat = (unsummed o r.1 r.2.curroffset).length := by
    obtain ⟨checksum', heq⟩ := volumeSummed_eq (unsummed o r.1 r.2.curroffset) (by omega)
    rw [hloaded.length, heq, length_setChecksum (by omega)]
  have hnat : (UInt32.ofNat r.2.curroffset).toNat = r.2.curroffset :=
    UInt32.toNat_ofNat_of_lt' (Nat.lt_of_le_of_lt (hlength ▸ hle) d.length.toNat_lt)
  have hspace : 32 ≤ spaceneeded (rootnode o) := by
    unfold spaceneeded alignup16
    omega
  obtain ⟨sum, heq⟩ := headBytes_eq (volumeHeader r.2.curroffset) (rootnode o)
  have hbytes : (ntohl ((((unsummed o r.1 r.2.curroffset).take 512).drop 8).take 4)).toNat =
      r.2.curroffset := by
    rw [unsummed, heq]
    exact (congrArg UInt32.toNat (ntohl_beBytes _)).trans hnat
  rw [heq, setChecksum_words] at hvolume
  simp only [holds_append, length_beBytes, Nat.zero_add, Nat.reduceAdd] at hvolume
  obtain ⟨hfirst, hsecond, hsize, -⟩ := hvolume
  refine ⟨by omega, by omega, magic_eq ▸ holds_append.mpr ⟨hfirst, hsecond⟩, hsize.word, ?_,
    hplaced.all ho (show 0 < spaceneeded (rootnode o) by omega) hnodes⟩
  have htake : ((unsummed o r.1 r.2.curroffset).take 512).length = 512 := by
    rw [List.length_take]
    omega
  have hfront := (holds_append.mp hloaded.holds).1.bytes
  rw [hbytes, length_fixsum (by omega), htake] at hfront
  have hmin : (if 512 < r.2.curroffset then 512 else r.2.curroffset) = min 512 r.2.curroffset := by
    split <;> omega
  rw [hfront, hmin]
  have hroom : 32 ≤ r.2.curroffset := by
    rw [hlastoff]
    exact Nat.le_add_right_of_le hspace
  exact romfsChecksum_fixsum (by omega) (by omega)

/-- Without special names `genromfs` makes an image of every directory, and if it is shorter than
2^31 bytes, so that an `int` has its offsets, it has the format. -/
theorem image_format (o : Options) (host : Host) (ho : o.Valid) (hdir : host.stat.kind = .dir)
    (hplain : (host.listing.kept o o.dir).Plain) :
    ∃ r image, processdir o host.stat host.parentStat host.listing = some r ∧
      genromfs o host.stat host.parentStat host.listing = some image ∧
      (image.length < 2 ^ 31 → ∀ d, Loaded d image → ImageFormat d o r.1 r.2.curroffset) := by
  obtain ⟨r, nodes, hrun, hmain, himage⟩ := genromfs_eq ho host.parentStat hdir hplain
  exact ⟨r, _, hrun, himage, fun _ d hloaded => hmain.format ho hloaded⟩

theorem image_format_sample :
    ∃ r, processdir sampleOptions sampleHost.stat sampleHost.parentStat sampleListing = some r ∧
      ImageFormat (diskOf sampleImage) sampleOptions r.1 r.2.curroffset := by
  obtain ⟨r, image, hrun, himage, hformat⟩ := image_format sampleOptions
    ⟨sampleHost.stat, sampleHost.parentStat, sampleListing⟩ sample_imaged.options rfl
    sample_imaged.plain
  have heq : image = sampleImage := Option.some.inj (himage.symm.trans sampleImage_eq)
  rw [heq] at hformat
  have hlength : sampleImage.length < 2 ^ 31 := by
    rw [length_sampleImage]
    decide
  exact ⟨r, hrun, hformat hlength _ (loaded_diskOf (by omega))⟩

end Vmwos.Genromfs
