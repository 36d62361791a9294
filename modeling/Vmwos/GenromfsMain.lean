import Vmwos.GenromfsTree

/-!
# The main directory

The directory of the command line becomes the root directory of the image: `romfs_mount` returns the
offset of its `.`, which is the first header behind that of the volume and a directory of its own,
and its `..` leads back to it.

Results:
1. `Host.Valid.fresh`: without its `.` and `..` the main directory is laid out as any directory is;
2. `Imaged.mainLaid`: the main directory in the image;
3. `mount_eq`: `mount` finds it.
-/

namespace Vmwos.Genromfs

open Bytes Romfs Files

variable {d : Ramdisk} {o : Options} {host : Host} {name : List UInt8} {listing : Listing}

/-! ## 1. The entries -/

theorem dropDots_isTree {here up : HostStat} (h : listing.IsTree here up) :
    listing.dropDots.IsTree here up := by
  induction listing with
  | nil => trivial
  | cons name stat entries rest _ ih =>
    obtain ⟨hnonzero, hshort, hdot, hdotdot, hdir, hrest⟩ := h
    rw [Listing.dropDots]
    split
    · exact ⟨hnonzero, hshort, hdot, hdotdot, hdir, ih hrest⟩
    · exact ih hrest

theorem mem_dropDots_stats {s : HostStat} (h : s ∈ listing.dropDots.stats) : s ∈ listing.stats := by
  induction listing with
  | nil => exact h
  | cons name stat entries rest _ ih =>
    rw [Listing.dropDots] at h
    rw [Listing.stats]
    split at h
    · rw [Listing.stats, List.mem_cons, List.mem_append] at h
      rw [List.mem_cons, List.mem_append]
      exact h.imp_right (Or.imp_right ih)
    · exact List.mem_cons_of_mem _ (List.mem_append_right _ (ih h))

theorem dropDots_dirs (listing : Listing) : listing.dropDots.dirs = listing.dirs := by
  induction listing with
  | nil => rfl
  | cons name stat entries rest _ ih =>
    rw [Listing.dropDots, Listing.dirs]
    by_cases hnamed : Named name
    · rw [if_pos hnamed, Listing.dirs, ih]
    · rw [if_neg hnamed, if_neg fun hdir => hnamed hdir.1, ih]

theorem dropDots_find? (hnamed : Named name) :
    listing.dropDots.find? name = listing.find? name := by
  induction listing with
  | nil => rfl
  | cons name' stat entries rest _ ih =>
    rw [Listing.dropDots, Listing.find?]
    by_cases heq : name' = name
    · rw [if_pos (heq ▸ hnamed), if_pos heq, Listing.find?, if_pos heq]
    · rw [if_neg heq]
      split
      · rw [Listing.find?, if_neg heq, ih]
      · exact ih

/-- The directories that are there before the first entry. -/
def Host.entered (host : Host) : List HostStat := [volumeStat, host.stat, host.parentStat]

theorem Host.Valid.fresh (h : host.Valid) :
    Fresh host.stats host.entered host.stat host.parentStat host.listing.dropDots where
  tree := dropDots_isTree h.tree
  hereDir := h.dir
  upDir := h.parentDir
  here_mem := by simp [Host.entered]
  up_mem := by simp [Host.entered]
  known := fun s hs => by simp [Host.stats, mem_dropDots_stats hs]
  nodup := (dropDots_dirs host.listing).symm ▸ h.distinct
  fresh := (dropDots_dirs host.listing).symm ▸ h.below

/-- In the main directory no entry has to do with the directory above. -/
theorem Processed.parent_eq {level self parent : Nat} {base : List UInt8} {p p' : Progress}
    {nodes : Nodes} (h : Processed o level base self parent listing p nodes p') (hlevel : level ≤ 1)
    (parent' : Nat) : Processed o level base self parent' listing p nodes p' := by
  have hold : ∀ {base name : List UInt8} {stat : HostStat} {p : Progress} {old : Option Nat},
      ¬PassesOver o level (newnode base name stat p.curroffset) →
      oldLink self parent p.nodes name stat = old → oldLink self parent' p.nodes name stat = old := by
    intro base name stat p old hstays hlink
    have hdotdot : name ≠ dotdot := fun hname => hstays (.inl ⟨hlevel, .inr hname⟩)
    unfold oldLink at hlink ⊢
    rwa [if_neg hdotdot] at hlink ⊢
  induction h with
  | nil => exact .nil
  | passed hover _ ih => exact .passed hover (ih hlevel hold)
  | link hstays hlink hplaced _ ih =>
    exact .link hstays (hold hstays hlink) hplaced (ih hlevel hold)
  | dir hstays hlink hkind hplaced hrun _ _ ih =>
    exact .dir hstays (hold hstays hlink) hkind hplaced hrun (ih hlevel hold)
  | file hstays hlink hkind hplaced _ ih =>
    exact .file hstays (hold hstays hlink) hkind hplaced (ih hlevel hold)

/-! ## 2. The main directory -/

/-- The entries of the main directory in the image. -/
def Host.mainListing (host : Host) : Listing :=
  .cons dot host.stat .nil (.cons dotdot host.parentStat .nil host.listing.dropDots)

/-- The offset of the node for the `.` of the main directory. -/
def mainOffset (o : Options) (host : Host) : Nat := (mainDot o host.stat).1.offset

/-- The header of the volume, but for its checksum, and the nodes behind it. -/
theorem image_holds {nodes : Nodes} {lastoff : Nat}
    (h : Loaded d (volumeSummed (unsummed o nodes lastoff))) :
    (∃ checksum,
      Holds d 0 (setChecksum (headBytes (volumeHeader lastoff) (rootnode o)) checksum)) ∧
    Holds d (spaceneeded (rootnode o)) (treeBytes nodes) := by
  have hloaded := h.holds
  have hlen := length_volume (o := o) lastoff
  have hspace : 16 ≤ spaceneeded (rootnode o) := by
    unfold spaceneeded
    omega
  obtain ⟨checksum, heq⟩ := volumeSummed_eq (unsummed o nodes lastoff) (by
    simp only [unsummed, List.length_append, hlen]
    omega)
  rw [heq, unsummed, List.append_assoc, setChecksum_append (by omega), holds_append,
    holds_append, length_setChecksum (by omega), hlen, Nat.zero_add] at hloaded
  exact ⟨⟨checksum, hloaded.1⟩, hloaded.2.1⟩

/-- The image of a directory of the host, with the files that the options do not exclude. There is
no special name among them. -/
structure Imaged (d : Ramdisk) (o : Options) (host : Host) : Prop where
  options : o.Valid
  volname : ∀ c ∈ o.volname, c ≠ 0
  valid : host.Valid
  plain : host.listing.Plain
  loaded : ∃ listing image, listing.kept o o.dir = host.listing ∧
    genromfs o host.stat host.parentStat listing = some image ∧ Loaded d image

/-- What `genromfs` has done for the image. -/
theorem Imaged.processed (h : Imaged d o host) :
    ∃ listing r nodes, listing.kept o o.dir = host.listing ∧
      MainProcessed o host.stat host.parentStat listing r nodes ∧
      Loaded d (volumeSummed (unsummed o r.1 r.2.curroffset)) := by
  obtain ⟨listing, image, hkept, himage, hloaded⟩ := h.loaded
  obtain ⟨r, nodes, -, hmain, heq⟩ := genromfs_eq h.options host.parentStat h.valid.dir
    (hkept.symm ▸ h.plain)
  cases heq.symm.trans himage
  exact ⟨listing, r, nodes, hkept, hmain, hloaded⟩

/-- The main directory is a directory of its own in the image, and above itself. -/
structure MainLaid (d : Ramdisk) (host : Host) (root : UInt32) : Prop where
  stored : ∃ hd, StoredAs d root hd host.stat ∧ hd.spec = root
  laid : Laid d root root host.mainListing root

/-- A ramdisk with an image and zeros behind it. -/
def diskOf (image : List UInt8) : Ramdisk :=
  ⟨fun i => image[i]?.getD 0, UInt32.ofNat image.length⟩

theorem loaded_diskOf {image : List UInt8} (h : image.length < 2 ^ 32) :
    Loaded (diskOf image) image where
  length := UInt32.toNat_ofNat_of_lt' h
  bytes := by
    refine List.ext_getElem length_read fun k hk hk' => ?_
    simp [Bytes.read, diskOf, hk']

/-- A directory with a program `a` and a directory `b`, in which `c` is a hard link to it. The
options exclude a file `x`. -/
def sampleStat (ino : UInt64) : HostStat := ⟨1, ino, .dir, true, 0, 0, []⟩
def sampleA : HostStat := ⟨1, 12, .reg, true, 0, 0, [104, 105]⟩
def sampleHost : Host where
  stat := sampleStat 10
  parentStat := sampleStat 9
  listing := .cons [97] sampleA .nil (.cons [98] (sampleStat 11)
    (.cons dot (sampleStat 11) .nil (.cons dotdot (sampleStat 10) .nil (.cons [99] sampleA .nil .nil)))
    (.cons dotdot (sampleStat 9) .nil (.cons dot (sampleStat 10) .nil .nil)))
def sampleOptions : Options :=
  ⟨[100], [86, 77], 32, [(64, [99])], [[120]], fun pattern s => pattern = s⟩
def sampleListing : Listing := .cons [120] sampleA .nil sampleHost.listing
def sampleImage : List UInt8 :=
  (genromfs sampleOptions sampleHost.stat sampleHost.parentStat sampleListing).getD []

theorem length_sampleImage : sampleImage.length = 1024 := by decide +kernel

theorem length_sampleDisk : (diskOf sampleImage).length.toNat < 2 ^ 31 := by
  rw [diskOf, length_sampleImage]
  decide

theorem sampleImage_eq :
    genromfs sampleOptions sampleHost.stat sampleHost.parentStat sampleListing =
      some sampleImage := by
  have hsome : (genromfs sampleOptions sampleHost.stat sampleHost.parentStat
      sampleListing).isSome := by decide +kernel
  obtain ⟨image, himage⟩ := Option.isSome_iff_exists.mp hsome
  rw [sampleImage, himage]
  rfl

theorem sample_imaged : Imaged (diskOf sampleImage) sampleOptions sampleHost where
  options := ⟨⟨5, by decide, by decide, rfl⟩,
    by simpa [sampleOptions] using ⟨6, by decide, by decide, rfl⟩, by decide⟩
  volname := by simp [sampleOptions]
  valid := ⟨rfl, rfl, by decide, by decide, by decide, by decide⟩
  plain := by simp [sampleHost, Listing.Plain, Special, sampleA, sampleStat, dot, dotdot]
  loaded := ⟨sampleListing, sampleImage, rfl, sampleImage_eq,
    loaded_diskOf (by rw [length_sampleImage]; decide)⟩

theorem records_start (host : Host) : Records d host.stats host.entered (start o).nodes where
  known := fun n hn hkind => by
    rw [start, List.mem_singleton] at hn
    exact absurd (hn ▸ rfl) hkind
  stats := fun n hn => by
    rw [start, List.mem_singleton] at hn
    rw [hn]
    exact List.mem_cons_self
  entered := fun n hn _ => by
    rw [start, List.mem_singleton] at hn
    rw [hn]
    exact List.mem_cons_self

theorem Imaged.mainLaid (h : Imaged d o host) :
    MainLaid d host (UInt32.ofNat (mainOffset o host)) := by
  obtain ⟨listing, r, nodes, hkept, hmain, hloaded⟩ := h.processed
  obtain ⟨-, hholds⟩ := image_holds hloaded
  have hplaced := hmain.fits.1
  have htaken : listing.taken o 1 o.dir = host.listing.dropDots :=
    (if_pos (le_refl 1)).trans (congrArg Listing.dropDots hkept)
  rw [hmain.eq] at hholds hplaced
  have hpos : 0 < (start o).curroffset := by
    show 0 < spaceneeded (rootnode o)
    unfold spaceneeded
    omega
  obtain ⟨hdot, hdotOffset⟩ := placedAt_mainDot h.options host.stat
  obtain ⟨hdotName, hdotStat, hdotLink⟩ := mainDot_node o host.stat
  obtain ⟨hup, hupOffset⟩ := placedAt_mainDotdot h.options host.stat host.parentStat
  obtain ⟨hupName, hupStat, hupLink⟩ := mainDotdot_node o host.stat host.parentStat
  have hcurr := (start o).append_curroffset hdotOffset
  have hcurr' := ((start o).append (mainDot o host.stat)).append_curroffset hupOffset
  have hdotNode := hdot.nodeOf hholds hdotName hdotStat (by simp [dot]) (by decide) hpos
    hplaced.2.2
  have hself := hdotNode.linksTo_self hdotLink
  have hbehind := hdotNode.held.behind
  rw [show (treeBytes .nil).length = 0 from rfl, Nat.add_zero, ← hcurr] at hbehind
  have hupNode := hup.nodeOf hbehind hupName hupStat (by simp [dotdot]) (by decide)
    ((start o).append_pos _) hplaced.2.2.2.2
  have hbehind' := hupNode.held.behind
  rw [show (treeBytes .nil).length = 0 from rfl, Nat.add_zero, ← hcurr'] at hbehind'
  have hold : OldLink d host.entered (mainDot o host.stat).1.offset (mainDot o host.stat).1.offset
      dotdot host.parentStat (mainDot o host.stat).1.offset :=
    .dotdot rfl h.valid.parentDir (by simp [Host.entered])
  have hrecords : Records d host.stats host.entered (mainStart o host.stat host.parentStat).nodes :=
    hupNode.records_link hupLink hold (by simp [Host.stats])
      (hdotNode.records_file hdotLink hdot.sized (by simp [Host.stats])
        (fun _ => by simp [Host.entered]) (records_start host))
  have hlaid := (hmain.run.parent_eq (le_refl 1) (mainDot o host.stat).1.offset).laid h.options
    h.valid.identified (le_refl 1) (mainStart_mod h.options _ _) (mainStart_pos o _ _) hself hself
    (htaken ▸ h.valid.fresh) hrecords hbehind'
  rw [htaken] at hlaid
  have hupLaid := hupNode.laid_link .nil hupLink hself hself hold hlaid.laid
  refine ⟨⟨_, hdotNode.storedAs hdotLink hdot.sized, ?_⟩, .dot hdotNode.isEntry hself ?_⟩
  · simp only [fileHeader, headerOf, hdotLink, hdotStat, h.valid.dir]
    rfl
  · rw [hdotNode.next_eq]
    exact hupLaid

/-! ## 3. Mounting -/

/-- No pattern of `-A` is for the main directory: its `.` is directly behind the volume. -/
def Options.KeepsMain (o : Options) (host : Host) : Prop :=
  ∀ pa ∈ o.alignlist, nodematch o pa.2 (newnode o.dir dot host.stat (start o).curroffset) = false

theorem mainOffset_eq (hdir : host.stat.kind = .dir) (h : o.KeepsMain host) :
    mainOffset o host = spaceneeded (rootnode o) := by
  have hstart : (newnode o.dir dot host.stat (spaceneeded (rootnode o))).stat.kind ≠ .reg := by
    show host.stat.kind ≠ .reg
    rw [hdir]
    decide
  have halign : findalign o (newnode o.dir dot host.stat (spaceneeded (rootnode o))) = 16 := by
    unfold findalign
    rw [if_neg hstart]
    refine List.foldlRecOn (motive := fun i => i = 16) o.alignlist _ rfl fun i hi pa hpa => ?_
    have hmatch : ¬nodematch o pa.2
        (newnode o.dir dot host.stat (spaceneeded (rootnode o))) = true := by
      rw [Bool.not_eq_true]
      exact h pa hpa
    rw [if_neg fun hboth => hmatch hboth.2]
    exact hi
  have hmod := spaceneeded_mod (rootnode o)
  have hzero : spaceneeded (rootnode o) + 0 &&& 16 - 1 = 0 :=
    (Nat.and_two_pow_sub_one_eq_mod _ 4).trans hmod
  show (placeFile o (newnode o.dir dot host.stat (spaceneeded (rootnode o)))
    (spaceneeded (rootnode o))).1.offset = _
  unfold placeFile alignnode
  rw [if_neg hstart, halign, hzero]
  rfl

/-- The magic number is in the place of the first two words of a header. -/
theorem magic_eq : magic = beBytes 0x2d726f6d ++ beBytes 0x3166732d := by decide

theorem sample_keepsMain : sampleOptions.KeepsMain sampleHost := by
  unfold Options.KeepsMain
  decide

/-- The volume header of the image. -/
theorem Imaged.volume (h : Imaged d o host) :
    Holds d 0 magic ∧ ∃ size, HasHeader d 0 ⟨0x2d726f6d, 0x3166732d, size, o.volname⟩ := by
  obtain ⟨_, r, _, -, -, hloaded⟩ := h.processed
  obtain ⟨⟨checksum, hvolume⟩, -⟩ := image_holds hloaded
  obtain ⟨checksum', heq⟩ := headBytes_eq (volumeHeader r.2.curroffset) (rootnode o)
  rw [heq, setChecksum_words] at hvolume
  refine ⟨?_, _, hasHeader_of_bytes hvolume h.volname⟩
  rw [← List.append_assoc] at hvolume
  rw [magic_eq]
  exact (holds_append.mp hvolume).1

theorem Imaged.hasVolume (h : Imaged d o host) : HasVolume d o.volname := by
  obtain ⟨-, size, hheader⟩ := h.volume
  have hname := hheader.name_eq
  rwa [UInt32.zero_add] at hname

/-- `mount` takes the `.` of the main directory for the root directory. -/
theorem mount_eq (h : Imaged d o host) (hkeeps : o.KeepsMain host)
    (hlength : d.length.toNat < 2 ^ 31) (f : State) :
    mount d f romfsName = some (0, { f with rootDir := UInt32.ofNat (mainOffset o host) }) := by
  obtain ⟨hmagic, size, hheader⟩ := h.volume
  have height : (0 : UInt32).toNat + (8 : UInt32).toNat ≤ d.length.toNat := hmagic.inside
  have hread : romfsReadNoinc d none 0 8 = some magic :=
    (readNoinc_of_le none height).trans (congrArg some hmagic.bytes)
  have hsixteen := hheader.sixteen_le
  rw [UInt32.toNat_zero] at hsixteen
  have hsize : romfsReadNoinc d none 8 4 = some (wordBytes d 8) := readWord none (by
    show 8 + 4 ≤ _
    omega)
  have hchecksum : romfsReadNoinc d (some (wordBytes d 8)) 12 4 = some (wordBytes d 12) :=
    readWord _ (by
      show 12 + 4 ≤ _
      omega)
  have hroot : 16 + UInt32.ofNat (chunksLength o.volname.length) =
      UInt32.ofNat (mainOffset o host) := by
    rw [mainOffset_eq h.valid.dir hkeeps, ← length_volume 0, length_headBytes, UInt32.ofNat_add]
    rfl
  have hmount : romfsMount d = some (UInt32.ofNat (mainOffset o host)) := by
    simp only [romfsMount, hread, hsize, hchecksum, Option.bind_eq_bind, Option.bind_some, ne_eq,
      not_true_eq_false, if_false, romfsReadString_eq h.hasVolume, hroot]
  have hfound : ¬isNeg (UInt32.ofNat (mainOffset o host)) := by
    obtain ⟨hd, hstored, -⟩ := h.mainLaid.stored
    have hroom := hstored.header.inside
    rw [isNeg]
    omega
  have hromfs : strncmp (stringMem romfsName) (stringMem romfsName) 5 = 0 := by decide
  rw [mount, if_pos hromfs, hmount]
  simp only [Option.bind_eq_bind, Option.bind_some, if_neg hfound]

end Vmwos.Genromfs
