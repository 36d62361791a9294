import Vmwos.GenromfsImage
import Vmwos.HostTree

/-!
# The tree in the image

The directories of the host, in the image: the chain of a directory has the names of its listing, in
their order, and each header leads to what `lstat` and `read` say about the file.

* `Stored`: the header and the contents of a file;
* `Laid`: the chain of a directory, with the directories below it;
* `Processed.laid`: `processdir` and `dumpnode` lay a listing out.
-/

namespace Vmwos.Genromfs

open Bytes Romfs

variable {d : Ramdisk} {o : Options} {inode : UInt32}

/-! ## Definitions -/

/-- The header of a file, and its contents behind it. -/
structure StoredAs (d : Ramdisk) (inode : UInt32) (h : Header) (stat : HostStat) : Prop where
  header : HasHeader d inode h
  type : h.type = stat.kind.romfh
  exec : h.info &&& 8 ≠ 0 ↔ stat.exec ∧ (stat.kind = .dir ∨ stat.kind = .reg)
  size : h.size.toNat = if stat.kind = .lnk ∨ stat.kind = .reg then stat.data.length else 0
  device : stat.kind = .blk ∨ stat.kind = .chr → h.spec = stat.major <<< 16 ||| stat.minor
  data : stat.kind = .lnk ∨ stat.kind = .reg →
    Holds d (inode.toNat + 16 + chunksLength h.name.length) stat.data

def Stored (d : Ramdisk) (inode : UInt32) (stat : HostStat) : Prop := ∃ h, StoredAs d inode h stat

/-- The header of an entry. -/
structure IsEntry (d : Ramdisk) (inode : UInt32) (h : Header) (name : List UInt8) : Prop where
  header : HasHeader d inode h
  name_eq : h.name = name
  short : name.length < maxFilenameSize
  ne_zero : inode ≠ 0
  mod : inode.toNat % 16 = 0
  apart : h.next = 0 ∨ inode.toNat + 16 + chunksLength name.length ≤ h.next.toNat

/-- The entries of a listing from the header at an offset on, in the directory `self` in the
directory `parent`. -/
inductive Laid (d : Ramdisk) : UInt32 → UInt32 → Listing → UInt32 → Prop
  | nil {self parent : UInt32} : Laid d self parent .nil 0
  | dot {self parent inode : UInt32} {h : Header} {stat : HostStat} {entries rest : Listing} :
      IsEntry d inode h dot → LinksTo d inode self → Laid d self parent rest h.next →
      Laid d self parent (.cons dot stat entries rest) inode
  | dotdot {self parent inode : UInt32} {h : Header} {stat : HostStat} {entries rest : Listing} :
      IsEntry d inode h dotdot → LinksTo d inode parent → Laid d self parent rest h.next →
      Laid d self parent (.cons dotdot stat entries rest) inode
  | dir {self parent inode : UInt32} {h : Header} {name : List UInt8} {stat : HostStat}
      {entries rest : Listing} :
      IsEntry d inode h name → Named name → stat.kind = .dir → StoredAs d inode h stat →
      entries.HasDots → Laid d inode self entries h.spec → Laid d self parent rest h.next →
      Laid d self parent (.cons name stat entries rest) inode
  | file {self parent inode target : UInt32} {h : Header} {name : List UInt8} {stat : HostStat}
      {entries rest : Listing} :
      IsEntry d inode h name → Named name → stat.kind ≠ .dir → LinksTo d inode target →
      Stored d target stat → Laid d self parent rest h.next →
      Laid d self parent (.cons name stat entries rest) inode

/-! ## One header -/

theorem Placed.offsetOr_mod {curroffset : Nat} {nodes : Nodes} (h : Placed o curroffset nodes) :
    nodes.offsetOr 0 % 16 = 0 := by
  cases nodes with
  | nil => rfl
  | cons node dirlist rest => exact h.1.mod

theorem toNat_ofNat_mod {x : Nat} (h : x % 16 = 0) : (UInt32.ofNat x).toNat % 16 = 0 := by
  rw [UInt32.toNat_ofNat']
  omega

/-- The flag for the mode of a node. -/
def execFlag (node : Node) : UInt32 :=
  if node.stat.exec ∧ (node.stat.kind = .dir ∨ node.stat.kind = .reg) then romfhExec else 0

theorem execFlag_cases (node : Node) : execFlag node = 8 ∨ execFlag node = 0 := by
  unfold execFlag
  split
  · exact .inl rfl
  · exact .inr rfl

theorem execFlag_eq_eight (node : Node) :
    execFlag node = 8 ↔ node.stat.exec ∧ (node.stat.kind = .dir ∨ node.stat.kind = .reg) := by
  unfold execFlag
  split
  · next h => exact iff_of_true rfl h
  · next h => exact iff_of_false (by decide) h

/-- The header of a link has the offset of the next one, and that of its target. -/
theorem fileHeader_link {node : Node} (dirlist : Nodes) {rest : Nodes} {link : Nat}
    (hlink : node.origLink = some link) (hmod : rest.offsetOr 0 % 16 = 0) :
    (fileHeader node dirlist rest).next = UInt32.ofNat (rest.offsetOr 0) ∧
      (fileHeader node dirlist rest).type = 0 ∧
      (fileHeader node dirlist rest).spec = UInt32.ofNat link := by
  have hinfo : (fileHeader node dirlist rest).info =
      (UInt32.ofNat (rest.offsetOr 0) ||| execFlag node) &&& ~~~8 := by
    simp only [fileHeader, headerOf, hlink]
    rfl
  have hoffset := toNat_ofNat_mod hmod
  have hflag : execFlag node &&& ~~~8 = 0 := by
    rcases execFlag_cases node with h | h
    · rw [h]
      decide
    · rw [h]
      decide
  have hclear : (fileHeader node dirlist rest).info = UInt32.ofNat (rest.offsetOr 0) := by
    rw [hinfo, or_and, hflag, UInt32.or_zero, ← and_high _ hoffset, UInt32.and_assoc]
    rfl
  refine ⟨?_, ?_, ?_⟩
  · rw [Header.next, hclear]
    exact and_high _ hoffset
  · rw [Header.type, hclear, ← UInt32.or_zero (a := UInt32.ofNat _), flags_low hoffset (by decide)]
    decide
  · simp only [fileHeader, headerOf, hlink]

/-- The header of any other file has its type, and its exec bit. -/
theorem fileHeader_file {node : Node} (dirlist : Nodes) {rest : Nodes} (hlink : node.origLink = none)
    (hmod : rest.offsetOr 0 % 16 = 0) :
    (fileHeader node dirlist rest).next = UInt32.ofNat (rest.offsetOr 0) ∧
      (fileHeader node dirlist rest).type = node.stat.kind.romfh ∧
      ((fileHeader node dirlist rest).info &&& 8 ≠ 0 ↔
        node.stat.exec ∧ (node.stat.kind = .dir ∨ node.stat.kind = .reg)) := by
  have hinfo : (fileHeader node dirlist rest).info =
      UInt32.ofNat (rest.offsetOr 0) ||| (execFlag node ||| node.stat.kind.romfh) := by
    rw [← UInt32.or_assoc]
    simp only [fileHeader, headerOf, hlink, execFlag]
    cases node.stat.kind <;> rfl
  have hoffset := toNat_ofNat_mod hmod
  have hflags : (execFlag node ||| node.stat.kind.romfh) &&& ~~~15 = 0 ∧
      (execFlag node ||| node.stat.kind.romfh) &&& 7 = node.stat.kind.romfh ∧
      ((execFlag node ||| node.stat.kind.romfh) &&& 8 ≠ 0 ↔ execFlag node = 8) := by
    rcases execFlag_cases node with h | h
    · rw [h]
      cases node.stat.kind <;> decide
    · rw [h]
      cases node.stat.kind <;> decide
  refine ⟨?_, ?_, ?_⟩
  · rw [Header.next, hinfo]
    exact flags_next hoffset hflags.1
  · rw [Header.type, hinfo, flags_low hoffset (by decide)]
    exact hflags.2.1
  · rw [hinfo, flags_low hoffset (by decide), ← execFlag_eq_eight]
    exact hflags.2.2

/-! ## The headers in the image -/

/-- The bytes of a node, of its directory and of its siblings. -/
structure NodeHeld (d : Ramdisk) (node : Node) (dirlist rest : Nodes) : Prop where
  head : Holds d node.offset (headBytes (headerOf node dirlist rest) node)
  contents : Holds d (node.offset + 16 + chunksLength node.name.length) (contents node)
  below : Holds d (node.offset + spaceneeded node) (treeBytes dirlist)
  behind : Holds d (node.offset + spaceneeded node + (treeBytes dirlist).length) (treeBytes rest)

theorem PlacedAt.held {curroffset : Nat} {node : Node} {dirlist rest : Nodes}
    (hplaced : PlacedAt o curroffset node)
    (h : Holds d curroffset (treeBytes (.cons node dirlist rest))) :
    NodeHeld d node dirlist rest := by
  have hspace := length_head_contents hplaced.sized (headerOf node dirlist rest)
  rw [length_headBytes] at hspace
  simp only [treeBytes, holds_append, List.length_append, List.length_replicate, length_headBytes,
    ← Nat.add_assoc] at h
  obtain ⟨⟨⟨⟨-, hhead⟩, hcontents⟩, hdirlist⟩, hrest⟩ := h
  have hdirAt : curroffset + node.pad + 16 + chunksLength node.name.length +
      (Genromfs.contents node).length = node.offset + spaceneeded node := by
    have hoffset := hplaced.offset
    omega
  rw [hdirAt] at hdirlist hrest
  rw [← hplaced.offset] at hhead hcontents
  exact ⟨hhead, hcontents, hdirlist, hrest⟩

namespace NodeHeld

variable {node : Node} {dirlist rest : Nodes}

theorem hasHeader (h : NodeHeld d node dirlist rest) (hname : ∀ c ∈ node.name, c ≠ 0) :
    HasHeader d (UInt32.ofNat node.offset) (fileHeader node dirlist rest) :=
  hasHeader_of_holds h.head hname

/-- A link leads to what its target leads to. -/
theorem linksTo (h : NodeHeld d node dirlist rest) (hname : ∀ c ∈ node.name, c ≠ 0) {link : Nat}
    {target : UInt32} (hlink : node.origLink = some link) (hmod : rest.offsetOr 0 % 16 = 0)
    (htarget : LinksTo d (UInt32.ofNat link) target) :
    LinksTo d (UInt32.ofNat node.offset) target := by
  obtain ⟨-, htype, hspec⟩ := fileHeader_link dirlist hlink hmod
  rw [← hspec] at htarget
  exact .link (h.hasHeader hname) htype htarget

/-- Any other file is stored with its contents. -/
theorem storedAs (h : NodeHeld d node dirlist rest) (hname : ∀ c ∈ node.name, c ≠ 0)
    (hlink : node.origLink = none) (hmod : rest.offsetOr 0 % 16 = 0) (hsized : Sized node) :
    StoredAs d (UInt32.ofNat node.offset) (fileHeader node dirlist rest) node.stat := by
  obtain ⟨-, htype, hexec⟩ := fileHeader_file dirlist hlink hmod
  have hcontents : ∀ hkind : node.stat.kind = .lnk ∨ node.stat.kind = .reg,
      Genromfs.contents node = node.stat.data ++ pad16 node.stat.data.length := fun hkind => by
    rw [Genromfs.contents, if_pos ⟨hlink, hkind⟩]
  have hdata : ∀ hkind : node.stat.kind = .lnk ∨ node.stat.kind = .reg,
      Holds d (node.offset + 16 + chunksLength node.name.length) node.stat.data := fun hkind =>
    (holds_append.mp (hcontents hkind ▸ h.contents)).1
  have hsize : (fileHeader node dirlist rest).size = UInt32.ofNat node.size := by
    simp only [fileHeader, headerOf, hlink]
    cases node.stat.kind <;> rfl
  refine ⟨h.hasHeader hname, htype, hexec, ?_, fun hkind => ?_, fun hkind => ?_⟩
  · rw [hsize, hsized]
    simp only [hlink, true_and]
    split
    · next hkind =>
      have hin := (hdata hkind).inside
      have hlt := d.length.toNat_lt
      exact UInt32.toNat_ofNat_of_lt' (Nat.lt_of_le_of_lt (Nat.le_of_add_left_le hin) hlt)
    · rfl
  · simp only [fileHeader, headerOf, hlink]
    rcases hkind with hkind | hkind
    · simp only [hkind]
    · simp only [hkind]
  · rw [h.head.toNat_ofNat]
    exact hdata hkind

/-- The header of a file that is no link is where it leads to. -/
theorem linksTo_self (h : NodeHeld d node dirlist rest) (hname : ∀ c ∈ node.name, c ≠ 0)
    (hlink : node.origLink = none) (hmod : rest.offsetOr 0 % 16 = 0) :
    LinksTo d (UInt32.ofNat node.offset) (UInt32.ofNat node.offset) := by
  obtain ⟨-, htype, -⟩ := fileHeader_file dirlist hlink hmod
  refine .here (h.hasHeader hname) ?_
  rw [htype]
  cases node.stat.kind <;> decide

end NodeHeld

/-! ## The listing of a directory -/

/-- What the nodes so far have to do with the image: a file that has been placed can be found again,
and a directory is among those that have been entered. -/
structure Records (d : Ramdisk) (stats entered : List HostStat) (nodes : List Node) : Prop where
  known : ∀ n ∈ nodes, n.stat.kind ≠ .dir →
    ∃ target, LinksTo d (UInt32.ofNat n.offset) target ∧ Stored d target n.stat
  stats : ∀ n ∈ nodes, n.stat ∈ stats
  entered : ∀ n ∈ nodes, n.stat.kind = .dir → n.stat ∈ entered

theorem Records.append {stats entered : List HostStat} {nodes : List Node} {n : Node}
    (h : Records d stats entered nodes) (hstats : n.stat ∈ stats)
    (hknown : n.stat.kind ≠ .dir →
      ∃ target, LinksTo d (UInt32.ofNat n.offset) target ∧ Stored d target n.stat)
    (hentered : n.stat.kind = .dir → n.stat ∈ entered) :
    Records d stats entered (nodes ++ [n]) where
  known := by
    simp only [List.mem_append, List.mem_singleton]
    rintro n' (hn | rfl)
    · exact h.known n' hn
    · exact hknown
  stats := by
    simp only [List.mem_append, List.mem_singleton]
    rintro n' (hn | rfl)
    · exact h.stats n' hn
    · exact hstats
  entered := by
    simp only [List.mem_append, List.mem_singleton]
    rintro n' (hn | rfl)
    · exact h.entered n' hn
    · exact hentered

theorem Records.mono {stats entered entered' : List HostStat} {nodes : List Node}
    (h : Records d stats entered nodes) (hsub : ∀ s ∈ entered, s ∈ entered') :
    Records d stats entered' nodes :=
  ⟨h.known, h.stats, fun n hn hdir => hsub _ (h.entered n hn hdir)⟩

/-- `findnode` finds a node with the same `lstat`. -/
theorem Records.findnode {stats entered : List HostStat} {nodes : List Node} {stat : HostStat}
    {link : Nat} (h : Records d stats entered nodes) (hstat : stat ∈ stats)
    (hidentified : ∀ s ∈ stats, ∀ t ∈ stats, s.dev = t.dev → s.ino = t.ino → s = t)
    (hfind : findnode nodes stat = some link) : ∃ n ∈ nodes, n.stat = stat ∧ n.offset = link := by
  obtain ⟨n, hn, hoffset⟩ := Option.map_eq_some_iff.mp hfind
  have hsame : n.stat.dev = stat.dev ∧ n.stat.ino = stat.ino := by
    simpa using List.find?_some hn
  have hmem := List.mem_of_find?_eq_some hn
  exact ⟨n, hmem, hidentified _ (h.stats n hmem) _ hstat hsame.1 hsame.2, hoffset⟩

/-- A listing of the directory `here` in the directory `up` that can be entered after the
directories `entered`. -/
structure Fresh (stats entered : List HostStat) (here up : HostStat) (listing : Listing) :
    Prop where
  tree : listing.IsTree here up
  hereDir : here.kind = .dir
  upDir : up.kind = .dir
  here_mem : here ∈ entered
  up_mem : up ∈ entered
  known : ∀ s ∈ listing.stats, s ∈ stats
  nodup : listing.dirs.Nodup
  fresh : ∀ s ∈ listing.dirs, s ∉ entered

namespace Fresh

variable {stats entered : List HostStat} {here up stat : HostStat} {name : List UInt8}
  {entries rest : Listing}

theorem stat_mem (h : Fresh stats entered here up (.cons name stat entries rest)) : stat ∈ stats :=
  h.known _ (List.mem_cons_self)

theorem next_known (h : Fresh stats entered here up (.cons name stat entries rest)) :
    ∀ s ∈ rest.stats, s ∈ stats := fun s hs =>
  h.known s (List.mem_cons_of_mem _ (List.mem_append_right _ hs))

/-- What comes behind an entry that is no directory. -/
theorem next (h : Fresh stats entered here up (.cons name stat entries rest))
    (hdir : ¬(Named name ∧ stat.kind = .dir)) : Fresh stats entered here up rest := by
  have hdirs : (Listing.cons name stat entries rest).dirs = rest.dirs := if_neg hdir
  exact ⟨h.tree.2.2.2.2.2, h.hereDir, h.upDir, h.here_mem, h.up_mem, h.next_known, hdirs ▸ h.nodup,
    hdirs ▸ h.fresh⟩

theorem dirs_eq (hdir : Named name ∧ stat.kind = .dir) :
    (Listing.cons name stat entries rest).dirs = stat :: (entries.dirs ++ rest.dirs) := if_pos hdir

/-- The entries of a directory. -/
theorem below (h : Fresh stats entered here up (.cons name stat entries rest))
    (hdir : Named name ∧ stat.kind = .dir) :
    Fresh stats (entered ++ [stat]) stat here entries := by
  have hnodup := dirs_eq hdir ▸ h.nodup
  have hfresh := dirs_eq hdir ▸ h.fresh
  obtain ⟨hstat, hbelow⟩ := List.nodup_cons.mp hnodup
  refine ⟨(h.tree.2.2.2.2.1 hdir.1 hdir.2).2, hdir.2, h.hereDir, by simp,
    List.mem_append_left _ h.here_mem, fun s hs => ?_, hbelow.of_append_left, fun s hs => ?_⟩
  · refine h.known s (List.mem_cons_of_mem _ (List.mem_append_left _ ?_))
    rwa [if_pos hdir]
  · simp only [List.mem_append, List.mem_singleton, not_or]
    refine ⟨hfresh s (by simp [hs]), ?_⟩
    rintro rfl
    exact hstat (List.mem_append_left _ hs)

/-- What comes behind a directory. -/
theorem next_dir (h : Fresh stats entered here up (.cons name stat entries rest))
    (hdir : Named name ∧ stat.kind = .dir) :
    Fresh stats (entered ++ [stat] ++ entries.dirs) here up rest := by
  have hnodup := dirs_eq hdir ▸ h.nodup
  have hfresh := dirs_eq hdir ▸ h.fresh
  obtain ⟨hstat, hbelow⟩ := List.nodup_cons.mp hnodup
  refine ⟨h.tree.2.2.2.2.2, h.hereDir, h.upDir, by simp [h.here_mem], by simp [h.up_mem],
    h.next_known, hbelow.of_append_right, fun s hs => ?_⟩
  simp only [List.mem_append, List.mem_singleton, not_or]
  refine ⟨⟨hfresh s (by simp [hs]), ?_⟩, ?_⟩
  · rintro rfl
    exact hstat (List.mem_append_right _ hs)
  · exact fun hs' => List.disjoint_of_nodup_append hbelow hs' hs

end Fresh

variable {stats entered : List HostStat} {here up stat : HostStat} {name : List UInt8}
  {entries rest : Listing} {p : Progress} {self parent link : Nat}

/-! ## One turn -/

/-- Where an old link of an entry leads. -/
inductive OldLink (d : Ramdisk) (entered : List HostStat) (self parent : Nat) (name : List UInt8)
    (stat : HostStat) : Nat → Prop
  | dot : name = dot → stat.kind = .dir → stat ∈ entered →
      OldLink d entered self parent name stat self
  | dotdot : name = dotdot → stat.kind = .dir → stat ∈ entered →
      OldLink d entered self parent name stat parent
  | file {link : Nat} {target : UInt32} : Named name → stat.kind ≠ .dir →
      LinksTo d (UInt32.ofNat link) target → Stored d target stat →
      OldLink d entered self parent name stat link

theorem Records.oldLink (h : Records d stats entered p.nodes)
    (hidentified : ∀ s ∈ stats, ∀ t ∈ stats, s.dev = t.dev → s.ino = t.ino → s = t)
    (hfresh : Fresh stats entered here up (.cons name stat entries rest))
    (hlink : oldLink self parent p.nodes name stat = some link) :
    OldLink d entered self parent name stat link := by
  obtain ⟨-, -, hself, hup, -⟩ := hfresh.tree
  unfold Genromfs.oldLink at hlink
  by_cases hdot : name = Genromfs.dot
  · rw [if_pos hdot] at hlink
    cases Option.some.inj hlink
    exact .dot hdot (hself hdot ▸ hfresh.hereDir) (hself hdot ▸ hfresh.here_mem)
  rw [if_neg hdot] at hlink
  by_cases hdotdot : name = Genromfs.dotdot
  · rw [if_pos hdotdot] at hlink
    cases Option.some.inj hlink
    exact .dotdot hdotdot (hup hdotdot ▸ hfresh.upDir) (hup hdotdot ▸ hfresh.up_mem)
  rw [if_neg hdotdot] at hlink
  obtain ⟨n, hn, hsame, rfl⟩ := h.findnode hfresh.stat_mem hidentified hlink
  have hkind : stat.kind ≠ .dir := fun hdir => by
    -- a directory is entered once
    have hentered := h.entered n hn (hsame ▸ hdir)
    refine hfresh.fresh stat ?_ (hsame ▸ hentered)
    rw [Fresh.dirs_eq ⟨⟨hdot, hdotdot⟩, hdir⟩]
    exact List.mem_cons_self
  obtain ⟨target, hlinks, hstored⟩ := h.known n hn (hsame ▸ hkind)
  exact .file ⟨hdot, hdotdot⟩ hkind hlinks (hsame ▸ hstored)

theorem OldLink.not_dir (h : OldLink d entered self parent name stat link) :
    ¬(Named name ∧ stat.kind = .dir) := by
  cases h with
  | dot hname => exact fun hdir => hdir.1.1 hname
  | dotdot hname => exact fun hdir => hdir.1.2 hname
  | file _ hkind => exact fun hdir => hkind hdir.2

/-- The header of a node with the name of an entry. -/
structure NodeOf (d : Ramdisk) (name : List UInt8) (stat : HostStat) (node : Node)
    (dirlist rest : Nodes) : Prop where
  held : NodeHeld d node dirlist rest
  name_eq : node.name = name
  stat_eq : node.stat = stat
  nonzero : ∀ c ∈ name, c ≠ 0
  short : name.length < 256
  pos : 0 < node.offset
  mod : node.offset % 16 = 0
  nextMod : rest.offsetOr 0 % 16 = 0
  apart : UInt32.ofNat (rest.offsetOr 0) = 0 ∨
    node.offset + 16 + chunksLength name.length ≤ (UInt32.ofNat (rest.offsetOr 0)).toNat

namespace NodeOf

variable {node : Node} {dirlist next : Nodes}

theorem next_eq (h : NodeOf d name stat node dirlist next) :
    (fileHeader node dirlist next).next = UInt32.ofNat (next.offsetOr 0) := by
  cases hlink : node.origLink with
  | none => exact (fileHeader_file dirlist hlink h.nextMod).1
  | some link => exact (fileHeader_link dirlist hlink h.nextMod).1

theorem isEntry (h : NodeOf d name stat node dirlist next) :
    IsEntry d (UInt32.ofNat node.offset) (fileHeader node dirlist next) name where
  header := h.held.hasHeader (h.name_eq ▸ h.nonzero)
  name_eq := h.name_eq
  short := h.short
  ne_zero := fun hzero => by
    have hnat := h.held.head.toNat_ofNat
    rw [hzero] at hnat
    exact h.pos.ne hnat
  mod := toNat_ofNat_mod h.mod
  apart := by
    rw [h.next_eq, h.held.head.toNat_ofNat]
    exact h.apart

theorem linksTo (h : NodeOf d name stat node dirlist next) (hlink : node.origLink = some link)
    {target : UInt32} (htarget : LinksTo d (UInt32.ofNat link) target) :
    LinksTo d (UInt32.ofNat node.offset) target :=
  h.held.linksTo (h.name_eq ▸ h.nonzero) hlink h.nextMod htarget

theorem linksTo_self (h : NodeOf d name stat node dirlist next) (hlink : node.origLink = none) :
    LinksTo d (UInt32.ofNat node.offset) (UInt32.ofNat node.offset) :=
  h.held.linksTo_self (h.name_eq ▸ h.nonzero) hlink h.nextMod

theorem storedAs (h : NodeOf d name stat node dirlist next) (hlink : node.origLink = none)
    (hsized : Sized node) :
    StoredAs d (UInt32.ofNat node.offset) (fileHeader node dirlist next) stat :=
  h.stat_eq ▸ h.held.storedAs (h.name_eq ▸ h.nonzero) hlink h.nextMod hsized

/-- An entry that is a link. -/
theorem laid_link (entries : Listing) (h : NodeOf d name stat node dirlist next)
    (hlink : node.origLink = some link)
    (hself : LinksTo d (UInt32.ofNat self) (UInt32.ofNat self))
    (hparent : LinksTo d (UInt32.ofNat parent) (UInt32.ofNat parent))
    (hold : OldLink d entered self parent name stat link)
    (hrest : Laid d (UInt32.ofNat self) (UInt32.ofNat parent) rest
      (UInt32.ofNat (next.offsetOr 0))) :
    Laid d (UInt32.ofNat self) (UInt32.ofNat parent) (.cons name stat entries rest)
      (UInt32.ofNat node.offset) := by
  have hentry := h.isEntry
  rw [← h.next_eq] at hrest
  cases hold with
  | dot hname => exact hname ▸ .dot (hname ▸ hentry) (h.linksTo hlink hself) hrest
  | dotdot hname => exact hname ▸ .dotdot (hname ▸ hentry) (h.linksTo hlink hparent) hrest
  | file hnamed hkind htarget hstored =>
    exact .file hentry hnamed hkind (h.linksTo hlink htarget) hstored hrest

/-- An entry that is a file of its own. -/
theorem laid_file (h : NodeOf d name stat node dirlist next) (hlink : node.origLink = none)
    (hsized : Sized node) (hnamed : Named name) (hkind : stat.kind ≠ .dir)
    (hrest : Laid d (UInt32.ofNat self) (UInt32.ofNat parent) rest
      (UInt32.ofNat (next.offsetOr 0))) :
    Laid d (UInt32.ofNat self) (UInt32.ofNat parent) (.cons name stat entries rest)
      (UInt32.ofNat node.offset) := by
  rw [← h.next_eq] at hrest
  exact .file h.isEntry hnamed hkind (h.linksTo_self hlink) ⟨_, h.storedAs hlink hsized⟩ hrest

/-- An entry that is a directory, with its entries. -/
theorem laid_dir (h : NodeOf d name stat node dirlist next) (hlink : node.origLink = none)
    (hsized : Sized node) (hnamed : Named name) (hkind : stat.kind = .dir)
    (hdots : entries.HasDots) (hfirst : dirlist ≠ .nil)
    (hentries : Laid d (UInt32.ofNat node.offset) (UInt32.ofNat self) entries
      (UInt32.ofNat (dirlist.offsetOr 0)))
    (hrest : Laid d (UInt32.ofNat self) (UInt32.ofNat parent) rest
      (UInt32.ofNat (next.offsetOr 0))) :
    Laid d (UInt32.ofNat self) (UInt32.ofNat parent) (.cons name stat entries rest)
      (UInt32.ofNat node.offset) := by
  have hspec : (fileHeader node dirlist next).spec = UInt32.ofNat (dirlist.offsetOr 0) := by
    have hoffset : dirlist.offsetOr node.offset = dirlist.offsetOr 0 := by
      cases dirlist with
      | nil => exact absurd rfl hfirst
      | cons first below siblings => rfl
    simp only [fileHeader, headerOf, hlink, h.stat_eq, hkind, hoffset]
  rw [← h.next_eq] at hrest
  rw [← hspec] at hentries
  exact .dir h.isEntry hnamed hkind (h.storedAs hlink hsized) hdots hentries hrest

/-- The records with a link. -/
theorem records_link (h : NodeOf d name stat node dirlist next) (hlink : node.origLink = some link)
    (hold : OldLink d entered self parent name stat link) (hstat : stat ∈ stats)
    (hrecords : Records d stats entered p.nodes) :
    Records d stats entered (p.nodes ++ [node]) := by
  refine hrecords.append (h.stat_eq ▸ hstat) ?_ ?_
  · rw [h.stat_eq]
    intro hkind
    cases hold with
    | dot _ hdir => exact absurd hdir hkind
    | dotdot _ hdir => exact absurd hdir hkind
    | file _ _ htarget hstored => exact ⟨_, h.linksTo hlink htarget, hstored⟩
  · rw [h.stat_eq]
    intro hdir
    cases hold with
    | dot _ _ hmem => exact hmem
    | dotdot _ _ hmem => exact hmem
    | file _ hkind => exact absurd hdir hkind

/-- The records with any other file. -/
theorem records_file (h : NodeOf d name stat node dirlist next) (hlink : node.origLink = none)
    (hsized : Sized node) (hstat : stat ∈ stats) (hentered : stat.kind = .dir → stat ∈ entered)
    (hrecords : Records d stats entered p.nodes) :
    Records d stats entered (p.nodes ++ [node]) := by
  refine hrecords.append (h.stat_eq ▸ hstat) (fun _ => ?_) (h.stat_eq ▸ hentered)
  rw [h.stat_eq]
  exact ⟨_, h.linksTo_self hlink, _, h.storedAs hlink hsized⟩

end NodeOf

theorem PlacedAt.nodeOf {node : Node} {dirlist next : Nodes} {curroffset : Nat}
    (hplaced : PlacedAt o curroffset node)
    (h : Holds d curroffset (treeBytes (.cons node dirlist next))) (hname : node.name = name)
    (hstat : node.stat = stat) (hnonzero : ∀ c ∈ name, c ≠ 0) (hshort : name.length < 256)
    (hpos : 0 < curroffset)
    (hnext : Placed o (node.offset + spaceneeded node + (treeBytes dirlist).length) next) :
    NodeOf d name stat node dirlist next := by
  have hoffset := hplaced.offset
  have hheld := hplaced.held h
  refine ⟨hheld, hname, hstat, hnonzero, hshort, by omega, hplaced.mod, hnext.offsetOr_mod, ?_⟩
  cases next with
  | nil => exact .inl rfl
  | cons node' dirlist' rest' =>
    have hoffset' := hnext.1.offset
    have hspace : 16 + chunksLength name.length ≤ spaceneeded node := by
      rw [← hname, spaceneeded, chunksLength_eq]
      exact Nat.le_add_right _ _
    refine .inr ?_
    show _ ≤ (UInt32.ofNat node'.offset).toNat
    rw [(hnext.1.held hheld.behind).head.toNat_ofNat]
    omega

/-! ## The run -/

variable {level : Nat} {base : List UInt8} {nodes : Nodes} {p' : Progress} {listing : Listing}

/-- The entries that the loop does not pass over. -/
def Listing.taken (o : Options) (level : Nat) (base : List UInt8) (listing : Listing) : Listing :=
  if level ≤ 1 then (listing.kept o base).dropDots else listing.kept o base

theorem taken_passed (hpos : 0 < p.curroffset)
    (h : PassesOver o level (newnode base name stat p.curroffset)) :
    (Listing.cons name stat entries rest).taken o level base = rest.taken o level base := by
  unfold Listing.taken
  by_cases hexcluded : Excluded o (newnode base name stat 1)
  · rw [kept_excluded hexcluded]
  · rcases h with ⟨hlevel, hdots⟩ | hover
    · rw [kept_cons hexcluded, if_pos hlevel, if_pos hlevel, Listing.dropDots,
        if_neg fun hnamed => hdots.elim hnamed.1 hnamed.2]
    · exact absurd ((excluded_newnode hpos).mp hover) hexcluded

theorem taken_cons (hpos : 0 < p.curroffset)
    (h : ¬PassesOver o level (newnode base name stat p.curroffset)) :
    (Listing.cons name stat entries rest).taken o level base =
      .cons name stat (entries.kept o (newnode base name stat p.curroffset).realname)
        (rest.taken o level base) := by
  have hexcluded : ¬Excluded o (newnode base name stat 1) := fun hexcluded =>
    h (.inr ((excluded_newnode hpos).mpr hexcluded))
  unfold Listing.taken
  rw [kept_cons hexcluded, newnode_eq hpos]
  split
  · next hlevel =>
    have hnamed : Named name := ⟨fun hdot => h (.inl ⟨hlevel, .inl hdot⟩),
      fun hdotdot => h (.inl ⟨hlevel, .inr hdotdot⟩)⟩
    rw [Listing.dropDots, if_pos hnamed]
  · rfl

/-- Below the main directory only excluded names are passed over. -/
theorem taken_below (listing : Listing) (base : List UInt8) (h : 1 ≤ level) :
    listing.taken o (level + 1) base = listing.kept o base := if_neg (by omega)

/-- What `processdir` and `dumpnode` do with a listing: its entries are laid out, and the records
know them. -/
structure LaysOut (d : Ramdisk) (stats entered : List HostStat) (dir parent : Nat)
    (listing : Listing) (nodes : Nodes) (p' : Progress) : Prop where
  laid : Laid d (UInt32.ofNat dir) (UInt32.ofNat parent) listing (UInt32.ofNat (nodes.offsetOr 0))
  records : Records d stats (entered ++ listing.dirs) p'.nodes

/-- A directory with an entry has a node for it. -/
theorem Processed.ne_nil (h : Processed o level base self parent listing p nodes p')
    (hpos : 0 < p.curroffset) (hfind : ((listing.taken o level base).find? name).isSome) :
    nodes ≠ .nil := by
  induction h with
  | nil =>
    unfold Listing.taken at hfind
    split at hfind
    · exact absurd hfind (by simp [Listing.kept, Listing.dropDots, Listing.find?])
    · exact absurd hfind (by simp [Listing.kept, Listing.find?])
  | passed hover _ ih => exact ih hpos (taken_passed hpos hover ▸ hfind)
  | link => exact Nodes.noConfusion
  | dir => exact Nodes.noConfusion
  | file => exact Nodes.noConfusion

theorem Processed.laid (ho : o.Valid)
    (hidentified : ∀ s ∈ stats, ∀ t ∈ stats, s.dev = t.dev → s.ino = t.ino → s = t)
    (hrun : Processed o level base self parent listing p nodes p') (hlevel : 1 ≤ level)
    (hmod : p.curroffset % 16 = 0) (hpos : 0 < p.curroffset)
    (hself : LinksTo d (UInt32.ofNat self) (UInt32.ofNat self))
    (hparent : LinksTo d (UInt32.ofNat parent) (UInt32.ofNat parent))
    (hfresh : Fresh stats entered here up (listing.taken o level base))
    (hrecords : Records d stats entered p.nodes) (h : Holds d p.curroffset (treeBytes nodes)) :
    LaysOut d stats entered self parent (listing.taken o level base) nodes p' := by
  induction hrun generalizing here up entered with
  | @nil level _ _ base =>
    have hnil : Listing.nil.taken o level base = .nil := by
      unfold Listing.taken
      split <;> rfl
    rw [hnil]
    exact ⟨.nil, hrecords.mono fun s hs => List.mem_append_left _ hs⟩
  | passed hover _ ih =>
    rw [taken_passed hpos hover] at hfresh ⊢
    exact ih hlevel hmod hpos hself hparent hfresh hrecords h
  | @link _ _ _ link base name stat entries _ p _ placed _ hstays hlink hplaced hrun ih =>
    rw [taken_cons hpos hstays] at hfresh ⊢
    obtain ⟨hnonzero, hshort, -⟩ := hfresh.tree
    have hold := hrecords.oldLink hidentified hfresh hlink
    obtain ⟨hat, hoffset⟩ := placedAt_link ho base name stat link hmod
    obtain ⟨hnodeName, hnodeStat, hnodeLink⟩ := placeLink_node o base name stat p.curroffset link
    rw [← hplaced] at hat hoffset hnodeName hnodeStat hnodeLink
    have hmod' := p.append_mod hat hoffset
    have hcurr := p.append_curroffset hoffset
    have hnode := hat.nodeOf h hnodeName hnodeStat hnonzero hshort hpos
      (hcurr ▸ (hrun.fits ho hmod').1)
    have hbehind := hnode.held.behind
    rw [show (treeBytes .nil).length = 0 from rfl, Nat.add_zero, ← hcurr] at hbehind
    have hrest := ih hlevel hmod' (p.append_pos placed) hself hparent (hfresh.next hold.not_dir)
      (hnode.records_link hnodeLink hold hfresh.stat_mem hrecords) hbehind
    refine ⟨hnode.laid_link _ hnodeLink hself hparent hold hrest.laid, ?_⟩
    rw [Listing.dirs, if_neg hold.not_dir]
    exact hrest.records
  | @dir level self _ base name stat entries _ p _ _ placed _ _ hstays hlink hkind hplaced hdirRun
      hrestRun ihDir ihRest =>
    obtain ⟨hnodeName, hnodeStat, hnodeLink, hrealname⟩ :=
      placeFile_node o base name stat p.curroffset
    rw [taken_cons hpos hstays, ← hrealname, ← hplaced, ← taken_below entries _ hlevel]
      at hfresh ⊢
    obtain ⟨hnonzero, hshort, -⟩ := hfresh.tree
    have hnamed : Named name := named_of_oldLink hlink
    obtain ⟨hat, hoffset⟩ := placedAt_file ho base name stat hmod
    rw [← hplaced] at hat hoffset hnodeName hnodeStat hnodeLink
    have hmod' := p.append_mod hat hoffset
    have hcurr := p.append_curroffset hoffset
    obtain ⟨-, hmid, hmod''⟩ := hdirRun.fits ho hmod'
    have hpos' := p.append_pos placed
    have hnode := hat.nodeOf h hnodeName hnodeStat hnonzero hshort hpos
      (hcurr ▸ hmid ▸ (hrestRun.fits ho hmod'').1)
    have hentries := ihDir (Nat.le_succ_of_le hlevel) hmod' hpos'
      (hnode.linksTo_self hnodeLink) hself (hfresh.below ⟨hnamed, hkind⟩)
      (hnode.records_file hnodeLink hat.sized hfresh.stat_mem (fun _ => by simp)
        (hrecords.mono fun s hs => List.mem_append_left _ hs)) (hcurr ▸ hnode.held.below)
    have hrest := ihRest hlevel hmod'' (by omega) hself hparent (hfresh.next_dir ⟨hnamed, hkind⟩)
      hentries.records (by rw [hmid, hcurr]; exact hnode.held.behind)
    have hdots := (hfresh.tree.2.2.2.2.1 hnamed hkind).1
    refine ⟨hnode.laid_dir hnodeLink hat.sized hnamed hkind hdots
      (hdirRun.ne_nil hpos' hdots.1) hentries.laid hrest.laid, ?_⟩
    rw [Fresh.dirs_eq ⟨hnamed, hkind⟩]
    simpa using hrest.records
  | @file _ _ _ base name stat entries _ p _ placed _ hstays hlink hkind hplaced hrun ih =>
    rw [taken_cons hpos hstays] at hfresh ⊢
    obtain ⟨hnonzero, hshort, -⟩ := hfresh.tree
    have hnamed : Named name := named_of_oldLink hlink
    obtain ⟨hat, hoffset⟩ := placedAt_file ho base name stat hmod
    obtain ⟨hnodeName, hnodeStat, hnodeLink, -⟩ := placeFile_node o base name stat p.curroffset
    rw [← hplaced] at hat hoffset hnodeName hnodeStat hnodeLink
    have hmod' := p.append_mod hat hoffset
    have hcurr := p.append_curroffset hoffset
    have hnode := hat.nodeOf h hnodeName hnodeStat hnonzero hshort hpos
      (hcurr ▸ (hrun.fits ho hmod').1)
    have hbehind := hnode.held.behind
    rw [show (treeBytes .nil).length = 0 from rfl, Nat.add_zero, ← hcurr] at hbehind
    have hnot : ¬(Named name ∧ stat.kind = .dir) := fun hboth => hkind hboth.2
    have hrest := ih hlevel hmod' (p.append_pos placed) hself hparent (hfresh.next hnot)
      (hnode.records_file hnodeLink hat.sized hfresh.stat_mem (fun hboth => absurd hboth hkind)
        hrecords) hbehind
    refine ⟨hnode.laid_file hnodeLink hat.sized hnamed hkind hrest.laid, ?_⟩
    rw [Listing.dirs, if_neg hnot]
    exact hrest.records

end Vmwos.Genromfs
