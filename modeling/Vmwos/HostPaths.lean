import Vmwos.GenromfsMain
import Vmwos.Listing
import Vmwos.PathErrors

/-!
# Host paths in the image

A directory of the host and its place in the image belong together (`At`), and a name leads from
there to places that belong together again. So `get_inode` finds the file of the host, or nothing
where there is nothing on the host.

* `Laid.entry`: what a chain has for a name;
* `At.lookup`, `At.descend`: one name, and a sequence of names;
* `getInode_path`: a path.
-/

namespace Vmwos.Genromfs

open Bytes Romfs Files

variable {d : Ramdisk} {self parent inode : UInt32} {name : List UInt8} {stat : HostStat}
  {listing entries : Listing}

/-! ## Definitions -/

/-- What an entry of a directory means. -/
inductive Means (d : Ramdisk) (self parent : UInt32) (name : List UInt8) (stat : HostStat)
    (entries : Listing) (inode : UInt32) : Prop
  | dot : name = dot → LinksTo d inode self → Means d self parent name stat entries inode
  | dotdot : name = dotdot → LinksTo d inode parent → Means d self parent name stat entries inode
  | dir {h : Header} : Named name → stat.kind = .dir → StoredAs d inode h stat → entries.HasDots →
      Laid d inode self entries h.spec → Means d self parent name stat entries inode
  | file {target : UInt32} : Named name → stat.kind ≠ .dir → LinksTo d inode target →
      Stored d target stat → Means d self parent name stat entries inode

/-- A directory of the host, with those above it, is at an offset of the image. Without a directory
it is a file. -/
inductive At (d : Ramdisk) : List Dir → UInt32 → Prop
  | file {inode : UInt32} {stat : HostStat} :
      Stored d inode stat → stat.kind ≠ .dir → At d [] inode
  | main {host : Host} {inode : UInt32} :
      MainLaid d host inode → host.stat.kind = .dir → At d [⟨host.stat, host.listing⟩] inode
  | inside {inode up : UInt32} {h : Header} {stat : HostStat} {entries : Listing} {dir : Dir}
      {above : List Dir} :
      StoredAs d inode h stat → stat.kind = .dir → entries.HasDots →
      Laid d inode up entries h.spec → At d (dir :: above) up →
      At d (⟨stat, entries⟩ :: dir :: above) inode

/-! ## One directory -/

theorem Laid.cons_inv {rest : Listing} (h : Laid d self parent (.cons name stat entries rest) inode) :
    ∃ hd, IsEntry d inode hd name ∧ Means d self parent name stat entries inode ∧
      Laid d self parent rest hd.next := by
  cases h with
  | dot hentry hlinks hrest => exact ⟨_, hentry, .dot rfl hlinks, hrest⟩
  | dotdot hentry hlinks hrest => exact ⟨_, hentry, .dotdot rfl hlinks, hrest⟩
  | dir hentry hnamed hkind hstored hdots hentries hrest =>
    exact ⟨_, hentry, .dir hnamed hkind hstored hdots hentries, hrest⟩
  | file hentry hnamed hkind hlinks hstored hrest =>
    exact ⟨_, hentry, .file hnamed hkind hlinks hstored, hrest⟩

/-- The chain of a directory has the names of the listing in their order, one header behind the
other, and for each name it has what the listing has. -/
structure Listed (d : Ramdisk) (here parent : UInt32) (listing : Listing) (inode : UInt32)
    (es : List Entry) : Prop where
  chain : Chain d inode es
  behind : ∀ e ∈ es, inode.toNat ≤ e.inode.toNat
  apart : Apart es
  names : es.map (fun e => e.header.name) = listing.names
  short : ∀ e ∈ es, e.header.name.length < maxFilenameSize
  missing : ∀ name, listing.find? name = none → ∀ e ∈ es, e.header.name ≠ name
  found : ∀ name stat entries, listing.find? name = some (stat, entries) →
    ∃ e, Finds es name e ∧ Means d here parent name stat entries e.inode

theorem Laid.listed (h : Laid d self parent listing inode) :
    ∃ es, Listed d self parent listing inode es := by
  induction listing generalizing inode with
  | nil =>
    cases h
    exact ⟨[], .nil, by simp, .nil, rfl, by simp, by simp, fun name stat entries hfind => by
      simp [Listing.find?] at hfind⟩
  | cons name stat entries rest _ ih =>
    obtain ⟨hd, hentry, hmeans, hrest⟩ := h.cons_inv
    obtain ⟨es, hlisted⟩ := ih hrest
    have hbehind : ∀ e ∈ es, inode.toNat + 16 + chunksLength hd.name.length ≤ e.inode.toNat := by
      intro e he
      have hle := hlisted.behind e he
      rcases hentry.apart with hzero | happart
      · rw [hlisted.chain.eq_nil_iff.mpr hzero] at he
        exact absurd he List.not_mem_nil
      · rw [hentry.name_eq]
        omega
    refine ⟨⟨inode, hd⟩ :: es, .cons hentry.ne_zero hentry.mod hentry.header hlisted.chain, ?_, ?_,
      ?_, ?_, ?_, ?_⟩
    · refine List.forall_mem_cons.mpr ⟨le_refl _, fun e he => ?_⟩
      have hle := hbehind e he
      omega
    · refine List.pairwise_cons.mpr ⟨fun e he => ?_, hlisted.apart⟩
      exact Finset.Ico_disjoint_Ico_consecutive _ _ _ |>.mono_right
        (Finset.Ico_subset_Ico_left (hbehind e he))
    · rw [List.map_cons, hlisted.names, Listing.names, hentry.name_eq]
    · exact List.forall_mem_cons.mpr ⟨hentry.name_eq.symm ▸ hentry.short, hlisted.short⟩
    · intro name' hfind
      rw [Listing.find?] at hfind
      split at hfind
      · exact absurd hfind (Option.some_ne_none _)
      · next hne =>
        exact List.forall_mem_cons.mpr
          ⟨fun heq => hne (hentry.name_eq.symm.trans heq), hlisted.missing name' hfind⟩
    · intro name' stat' entries' hfind
      rw [Listing.find?] at hfind
      split at hfind
      · next heq =>
        cases heq
        cases hfind
        exact ⟨_, ⟨[], es, rfl, hentry.name_eq, by simp⟩, hmeans⟩
      · next hne =>
        obtain ⟨e, ⟨before, after, rfl, hname, hbefore⟩, hmeans'⟩ := hlisted.found _ _ _ hfind
        refine ⟨e, ⟨⟨inode, hd⟩ :: before, after, rfl, hname, ?_⟩, hmeans'⟩
        exact List.forall_mem_cons.mpr
          ⟨fun heq => hne (hentry.name_eq.symm.trans heq), hbefore⟩

/-- The directory at an offset: its `lstat`, and the chain of its entries. -/
structure DirAt (d : Ramdisk) (dir : Dir) (above : List Dir) (here parent : UInt32)
    (listing : Listing) : Prop where
  stored : ∃ h, StoredAs d here h dir.stat ∧ Laid d here parent listing h.spec
  kind : dir.stat.kind = .dir
  dots : listing.HasDots
  names : listing.names = namesOf (dir :: above)
  named : ∀ name, Named name → listing.find? name = dir.entries.find? name

theorem At.dirAt {dir : Dir} {above : List Dir} (h : At d (dir :: above) inode) :
    ∃ parent listing, DirAt d dir above inode parent listing ∧
      At d (match above with | [] => [dir] | up :: above => up :: above) parent := by
  cases h with
  | @main host inode hmain hkind =>
    obtain ⟨⟨hd, hstored, hspec⟩, hlaid⟩ := id hmain
    refine ⟨inode, host.mainListing,
      ⟨⟨hd, hstored, hspec.symm ▸ hlaid⟩, hkind, ⟨rfl, rfl⟩, rfl, ?_⟩, .main hmain hkind⟩
    intro name hnamed
    rw [Host.mainListing, Listing.find?, if_neg hnamed.1.symm, Listing.find?,
      if_neg hnamed.2.symm, dropDots_find? hnamed]
  | @inside inode up hd stat entries dir above hstored hkind hdots hlaid hup =>
    exact ⟨up, entries, ⟨⟨hd, hstored, hlaid⟩, hkind, hdots, rfl, fun _ _ => rfl⟩, hup⟩

theorem At.stored {dir : Dir} {above : List Dir} (h : At d (dir :: above) inode) :
    Stored d inode dir.stat := by
  obtain ⟨_, _, hdir, -⟩ := h.dirAt
  obtain ⟨hd, hstored, -⟩ := hdir.stored
  exact ⟨hd, hstored⟩

theorem StoredAs.linksTo_self {h : Header} (hs : StoredAs d inode h stat) : LinksTo d inode inode := by
  refine .here hs.header ?_
  rw [hs.type]
  cases stat.kind <;> decide

theorem StoredAs.type_dir {h : Header} (hs : StoredAs d inode h stat) :
    h.type = 1 ↔ stat.kind = .dir := by
  rw [hs.type]
  cases stat.kind <;> decide

theorem Means.dot_target (h : Means d self parent Genromfs.dot stat entries inode) :
    LinksTo d inode self := by
  cases h with
  | dot _ hlinks => exact hlinks
  | dotdot hname => exact absurd hname (by decide)
  | dir hnamed => exact absurd rfl hnamed.1
  | file hnamed => exact absurd rfl hnamed.1

theorem Means.dotdot_target (h : Means d self parent Genromfs.dotdot stat entries inode) :
    LinksTo d inode parent := by
  cases h with
  | dot hname => exact absurd hname (by decide)
  | dotdot _ hlinks => exact hlinks
  | dir hnamed => exact absurd rfl hnamed.2
  | file hnamed => exact absurd rfl hnamed.2

/-! ## One name -/

/-- What a name leads to on the host, the code finds in the image. -/
structure LooksUp (d : Ramdisk) (dirs : List Dir) (inode : UInt32) (name : List UInt8) : Prop where
  found : ∀ stat dirs', lookup dirs name = some (stat, dirs') →
    ∃ target, Leads d inode name target ∧ Stored d target stat ∧ At d dirs' target
  missing : lookup dirs name = none → ∃ r, romfsGetInode d inode (stringMem name) = some r ∧ isNeg r

theorem At.lookup {dirs : List Dir} (h : At d dirs inode) (hname : IsComponent name) :
    LooksUp d dirs inode name := by
  cases dirs with
  | nil =>
    refine ⟨fun stat dirs' hfound => absurd hfound (by simp [Genromfs.lookup]), fun _ => ?_⟩
    cases h with
    | file hstored hkind =>
      obtain ⟨hd, hstored⟩ := hstored
      exact ⟨_, romfsGetInode_notDir hstored.header (mt hstored.type_dir.mp hkind), by decide⟩
  | cons dir above =>
    obtain ⟨parent, listing, hdir, hparent⟩ := h.dirAt
    obtain ⟨hd, hstored, hlaid⟩ := hdir.stored
    obtain ⟨es, hlisted⟩ := hlaid.listed
    have hdirectory : IsDirectory d inode es :=
      ⟨hd, hstored.header, hstored.type_dir.mpr hdir.kind, hlisted.chain⟩
    have hleads : ∀ {name stat entries}, listing.find? name = some (stat, entries) →
        ∃ e : Entry, Means d inode parent name stat entries e.inode ∧
          ∀ target, LinksTo d e.inode target → Leads d inode name target := by
      intro name stat entries hfind
      obtain ⟨e, hfinds, hmeans⟩ := hlisted.found _ _ _ hfind
      exact ⟨e, hmeans, fun target hlinks => ⟨es, e, hdirectory, hlisted.short, hfinds, hlinks⟩⟩
    by_cases hdot : name = dot
    · subst hdot
      obtain ⟨⟨stat, entries⟩, hfind⟩ := Option.isSome_iff_exists.mp hdir.dots.1
      obtain ⟨e, hmeans, hleads⟩ := hleads hfind
      refine ⟨fun stat dirs' hfound => ?_,
        fun hnone => absurd (lookup_dot.symm.trans hnone) (Option.some_ne_none _)⟩
      cases lookup_dot.symm.trans hfound
      exact ⟨inode, hleads inode hmeans.dot_target, h.stored, h⟩
    by_cases hdotdot : name = dotdot
    · subst hdotdot
      obtain ⟨⟨stat, entries⟩, hfind⟩ := Option.isSome_iff_exists.mp hdir.dots.2
      obtain ⟨e, hmeans, hleads⟩ := hleads hfind
      have hlinks := hleads parent hmeans.dotdot_target
      cases above with
      | nil =>
        refine ⟨fun stat dirs' hfound => ?_, fun hnone => absurd hnone (Option.some_ne_none _)⟩
        cases hfound
        exact ⟨parent, hlinks, hparent.stored, hparent⟩
      | cons up above =>
        refine ⟨fun stat dirs' hfound => ?_, fun hnone => absurd hnone (Option.some_ne_none _)⟩
        cases hfound
        exact ⟨parent, hlinks, hparent.stored, hparent⟩
    have hnamed : Named name := ⟨hdot, hdotdot⟩
    have hlookup := lookup_named dir above hnamed
    rw [← hdir.named name hnamed] at hlookup
    cases hfind : listing.find? name with
    | none =>
      rw [hfind] at hlookup
      refine ⟨fun stat dirs' hfound => absurd (hlookup.symm.trans hfound) (by simp), fun _ => ?_⟩
      have hne : es ≠ [] := by
        rintro rfl
        obtain ⟨⟨stat, entries⟩, hfind⟩ := Option.isSome_iff_exists.mp hdir.dots.1
        obtain ⟨e, ⟨before, after, heq, -⟩, -⟩ := hlisted.found _ _ _ hfind
        simp at heq
      exact ⟨-1, romfsGetInode_missing hdirectory hne (stringAt_stringMem hname.nonzero)
        (Nat.lt_of_le_of_lt hname.length_le (by decide)) (hlisted.missing name hfind), by decide⟩
    | some found =>
      obtain ⟨stat, entries⟩ := found
      rw [hfind, Option.map_some] at hlookup
      refine ⟨fun stat' dirs' hfound => ?_, fun hnone => absurd (hlookup.symm.trans hnone) (by simp)⟩
      cases hlookup.symm.trans hfound
      obtain ⟨e, hmeans, hleads⟩ := hleads hfind
      cases hmeans with
      | dot hname => exact absurd hname hdot
      | dotdot hname => exact absurd hname hdotdot
      | dir _ hkind hstored hdots hentries =>
        rw [if_pos hkind]
        exact ⟨e.inode, hleads _ hstored.linksTo_self, ⟨_, hstored⟩,
          .inside hstored hkind hdots hentries h⟩
      | file _ hkind hlinks hstored =>
        rw [if_neg hkind]
        exact ⟨_, hleads _ hlinks, hstored, .file hstored hkind⟩

/-! ## Paths -/

/-- A sequence of names leads to the directory in which `get_inode` looks up the last one. -/
theorem At.descend {dirs dirs' : List Dir} {names : List (List UInt8)} {last : List UInt8}
    (h : At d dirs inode) (hnames : ∀ name ∈ names, IsComponent name) (hlast : IsComponent last)
    (hdescend : descend dirs names = some dirs') :
    ∃ target, At d dirs' target ∧ Reaches d inode (pathOf names last) target last := by
  induction names generalizing dirs inode with
  | nil =>
    cases hdescend
    exact ⟨inode, h, .last hlast⟩
  | cons name names ih =>
    obtain ⟨hname, hrest⟩ := List.forall_mem_cons.mp hnames
    obtain ⟨⟨stat, dirs₁⟩, hlookup, hdescend⟩ := Option.bind_eq_some_iff.mp hdescend
    obtain ⟨mid, hleads, -, hmid⟩ := (h.lookup hname).found _ _ hlookup
    obtain ⟨target, htarget, hreaches⟩ := ih hmid hrest hdescend
    exact ⟨target, htarget, .more hname hleads hreaches⟩

variable {f : State} {currentDir : UInt32} {main : Dir} {cwd : List Dir} {path : Path}

/-- What the code finds at a path. -/
structure FindsPath (d : Ramdisk) (f : State) (currentDir : UInt32) (main : Dir) (cwd : List Dir)
    (path : Path) : Prop where
  found : ∀ stat dirs, path.resolve main cwd = some (stat, dirs) →
    ∃ target, getInode d f currentDir path.bytes = some target ∧ ¬isNeg target ∧
      Stored d target stat ∧ At d dirs target
  missing : path.resolve main cwd = none →
    ∃ r, getInode d f currentDir path.bytes = some r ∧ isNeg r

theorem Stored.not_isNeg (h : Stored d inode stat) (hlength : d.length.toNat < 2 ^ 31) :
    ¬isNeg inode := by
  obtain ⟨hd, hstored⟩ := h
  have hin := hstored.header.inside
  rw [isNeg]
  omega

/-- `get_inode` finds what is at the path on the host. -/
theorem getInode_path (hlength : d.length.toNat < 2 ^ 31) (hmain : At d [main] f.rootDir)
    (hcwd : At d cwd currentDir) (hvalid : path.Valid) {dirs : List Dir}
    (hdirs : path.dirs main cwd = some dirs) : FindsPath d f currentDir main cwd path := by
  have hstart : ∃ last, At d dirs last ∧
      LooksIn d f.rootDir currentDir path.bytes last path.last := by
    rw [Path.dirs] at hdirs
    rw [Path.bytes]
    split at hdirs
    · next habsolute =>
      obtain ⟨last, hat, hreaches⟩ := hmain.descend hvalid.1 hvalid.2 hdirs
      rw [if_pos habsolute]
      exact ⟨last, hat, .absolute hreaches⟩
    · next habsolute =>
      obtain ⟨last, hat, hreaches⟩ := hcwd.descend hvalid.1 hvalid.2 hdirs
      rw [if_neg habsolute]
      exact ⟨last, hat, .relative hreaches⟩
  obtain ⟨last, hat, hlooks⟩ := hstart
  have hlookup := hat.lookup hvalid.2
  have hresolve : path.resolve main cwd = lookup dirs path.last := by
    rw [Path.resolve, hdirs, Option.bind_some]
  refine ⟨fun stat dirs' hfound => ?_, fun hmissing => ?_⟩
  · obtain ⟨target, hleads, hstored, htarget⟩ := hlookup.found _ _ (hresolve.symm.trans hfound)
    refine ⟨target, ?_, hstored.not_isNeg hlength, hstored, htarget⟩
    rw [getInode_looksIn hlooks, romfsGetInode_component hvalid.2 hleads]
  · obtain ⟨r, hr, hneg⟩ := hlookup.missing (hresolve.symm.trans hmissing)
    exact ⟨r, (getInode_looksIn hlooks).trans hr, hneg⟩

end Vmwos.Genromfs
