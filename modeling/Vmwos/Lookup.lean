import Vmwos.Chains
import Vmwos.Files
import Vmwos.RomfsImage

/-!
# Path lookup

The meaning of a path in a romfs image: its components are looked up one by one, each in
the directory that the ones before lead to. A component leads to the first entry with its
name, and from there along hard links to a header that is none.

* `LinksTo`, `Finds`, `Resolves`, `Names`: the meaning, on the format of the image;
* `LooksIn`: the directory in which the last component is looked up;
* `romfsInodeFollowLinks_eq`, `romfsGetInode_eq`, `getInode_eq`: the code computes it.
-/

namespace Vmwos.Romfs

open Bytes Chains

variable {d : Ramdisk} {inode target : UInt32}

/-! ## Hard links -/

/-- Following hard links from the header at `inode` ends at the header at `target`. -/
inductive LinksTo (d : Ramdisk) : UInt32 → UInt32 → Prop
  | here {inode : UInt32} {h : Header} :
      HasHeader d inode h → h.type ≠ 0 → LinksTo d inode inode
  | link {inode target : UInt32} {h : Header} :
      HasHeader d inode h → h.type = 0 → LinksTo d h.spec target → LinksTo d inode target

/-- Where the header at an offset links to. -/
def linkOf (d : Ramdisk) (inode : UInt32) : Option UInt32 :=
  if word d inode &&& 7 = 0 then some (word d (inode + 4)) else none

/-- The headers on the way. -/
theorem LinksTo.linked (h : LinksTo d inode target) :
    ∃ l, Linked (linkOf d) (some inode) l ∧
      ∀ fuel temp, l.length ≤ fuel → followLinksLoop d fuel temp inode = some target := by
  induction h with
  | @here inode h hh htype =>
    have hinfo : ¬ h.info &&& 7 = 0 := htype
    refine ⟨[inode], .cons ?_, fun fuel temp hf => ?_⟩
    · rw [linkOf, hh.info_eq, if_neg hinfo]
      exact .nil
    · obtain ⟨fuel, rfl⟩ := Nat.exists_eq_succ_of_ne_zero (Nat.ne_of_gt hf)
      simp only [followLinksLoop, hh.readInfo, hh.readSpec, Option.bind_eq_bind, Option.bind_some,
        hh.ntohl_info, if_neg hinfo]
  | @link inode target h hh htype _ ih =>
    obtain ⟨l, hl, hloop⟩ := ih
    have hinfo : h.info &&& 7 = 0 := htype
    refine ⟨inode :: l, .cons ?_, fun fuel temp hf => ?_⟩
    · rw [linkOf, hh.info_eq, if_pos hinfo, hh.spec_eq]
      exact hl
    · obtain ⟨fuel, rfl⟩ := Nat.exists_eq_succ_of_ne_zero
        (Nat.ne_of_gt (Nat.lt_of_lt_of_le (Nat.succ_pos _) hf))
      simp only [followLinksLoop, hh.readInfo, hh.readSpec, Option.bind_eq_bind, Option.bind_some,
        hh.ntohl_info, if_pos hinfo, hh.ntohl_spec]
      exact hloop fuel _ (Nat.le_of_succ_le_succ hf)

/-- `romfs_inode_follow_links` ends where the links lead. -/
theorem romfsInodeFollowLinks_eq (h : LinksTo d inode target) :
    romfsInodeFollowLinks d inode = some target := by
  obtain ⟨l, hl, hloop⟩ := h.linked
  exact hloop _ _ (hl.length_le.trans (by decide))

/-! ## One component -/

/-- The first entry with the given name. -/
def Finds (es : List Entry) (name : List UInt8) (e : Entry) : Prop :=
  ∃ before after, es = before ++ e :: after ∧ e.header.name = name ∧
    ∀ e' ∈ before, e'.header.name ≠ name

/-- In the directory at `dir`, whose names fit the buffers of the code, the name leads to
the header at `target`. -/
def Leads (d : Ramdisk) (dir : UInt32) (name : List UInt8) (target : UInt32) : Prop :=
  ∃ es e, IsDirectory d dir es ∧ (∀ e' ∈ es, e'.header.name.length < maxFilenameSize) ∧
    Finds es name e ∧ LinksTo d e.inode target

/-- The header after the one at an offset. -/
def nextOf (d : Ramdisk) (inode : UInt32) : Option UInt32 :=
  if word d inode &&& ~~~0xf = 0 then none else some (word d inode &&& ~~~0xf)

theorem Chain.linked {es : List Entry} (h : Chain d inode es) :
    Linked (nextOf d) (if inode = 0 then none else some inode) (es.map Entry.inode) := by
  induction h with
  | nil => exact .nil
  | @cons inode h es hne _ hh _ ih =>
    rw [if_neg hne]
    refine .cons ?_
    rw [nextOf, hh.info_eq]
    exact ih

theorem Chain.length_le {es : List Entry} (h : Chain d inode es) : es.length ≤ 2 ^ 32 := by
  have hle := h.linked.length_le
  rwa [List.length_map] at hle

theorem Chain.eq_nil_iff {es : List Entry} (h : Chain d inode es) : es = [] ↔ inode = 0 := by
  cases h with
  | nil => exact iff_of_true rfl rfl
  | cons hne => exact iff_of_false (List.cons_ne_nil _ _) hne

theorem take_eq_iff {l name : List UInt8} {n : Nat} (h : name.length < n) :
    name = l.take n ↔ name = l := by
  constructor
  · intro heq
    have hlen : l.length ≤ n := by
      by_contra hlong
      rw [heq, List.length_take, Nat.min_eq_left (Nat.le_of_not_le hlong)] at h
      exact Nat.lt_irrefl n h
    rwa [List.take_of_length_le hlen] at heq
  · rintro rfl
    rw [List.take_of_length_le (Nat.le_of_lt h)]

/-- One turn of the loop of `romfs_get_inode`, at a header. -/
theorem getInodeLoop_turn {h : Header} {name : List UInt8} {m : Mem} (fuel : Nat)
    (temp : List UInt8) (filename : Mem) (hh : HasHeader d inode h) (hm : StringAt m 0 name)
    (hname : name.length < maxFilenameSize) :
    ∃ filename', getInodeLoop d m (fuel + 1) temp inode filename =
      if name = h.name then romfsInodeFollowLinks d inode
      else if h.next = 0 then some (-1)
      else getInodeLoop d m fuel (wordBytes d inode) h.next filename' := by
  have hnonzero : ∀ c ∈ h.name.take maxFilenameSize, c ≠ 0 :=
    fun c hc => hh.name_eq.nonzero c (List.mem_of_mem_take hc)
  have hcmp := strncmp_eq_zero_iff (n := maxFilenameSize) hm
    (stringAt_write (m := filename) (a := 0) hnonzero) hname
  refine ⟨write filename 0 (h.name.take maxFilenameSize ++ [0]), ?_⟩
  simp only [getInodeLoop, hh.readInfo, Option.bind_eq_bind, Option.bind_some,
    hh.ntohl_info, romfsReadString_eq hh.name_eq, Int.toNat_natCast, hcmp, take_eq_iff hname]
  rfl

/-- The loop of `romfs_get_inode` stops at the first entry with the name. -/
theorem getInodeLoop_eq {es : List Entry} {e : Entry} {name : List UInt8} {m filename : Mem}
    {fuel : Nat} {temp : List UInt8} (hchain : Chain d inode es) (hfuel : es.length ≤ fuel)
    (hm : StringAt m 0 name) (hname : name.length < maxFilenameSize) (hfinds : Finds es name e) :
    getInodeLoop d m fuel temp inode filename = romfsInodeFollowLinks d e.inode := by
  induction hchain generalizing fuel temp filename with
  | nil =>
    obtain ⟨before, after, heq, _⟩ := hfinds
    simp at heq
  | @cons inode h es _ _ hh hrest ih =>
    obtain ⟨fuel, rfl⟩ := Nat.exists_eq_succ_of_ne_zero
      (Nat.ne_of_gt (Nat.lt_of_lt_of_le (Nat.succ_pos _) hfuel))
    obtain ⟨filename', hturn⟩ := getInodeLoop_turn fuel temp filename hh hm hname
    rw [hturn]
    obtain ⟨before, after, heq, hehas, hbefore⟩ := hfinds
    cases before with
    | nil =>
      cases heq
      rw [if_pos hehas.symm]
    | cons b before =>
      obtain ⟨rfl, rfl⟩ := List.cons.inj heq
      have hnext : ¬ h.next = 0 := mt hrest.eq_nil_iff.mpr (by simp)
      rw [if_neg fun hn => hbefore _ List.mem_cons_self hn.symm, if_neg hnext]
      exact ih (Nat.le_of_succ_le_succ hfuel)
        ⟨before, after, rfl, hehas, fun e' he' => hbefore e' (List.mem_cons_of_mem _ he')⟩

/-- The loop of `romfs_get_inode` over entries with other names gives -1. -/
theorem getInodeLoop_missing {es : List Entry} {name : List UInt8} {m filename : Mem}
    {fuel : Nat} {temp : List UInt8} (hchain : Chain d inode es) (hes : es ≠ [])
    (hfuel : es.length ≤ fuel) (hm : StringAt m 0 name) (hname : name.length < maxFilenameSize)
    (hmissing : ∀ e ∈ es, e.header.name ≠ name) :
    getInodeLoop d m fuel temp inode filename = some (-1) := by
  induction hchain generalizing fuel temp filename with
  | nil => exact absurd rfl hes
  | @cons inode h es _ _ hh hrest ih =>
    obtain ⟨fuel, rfl⟩ := Nat.exists_eq_succ_of_ne_zero
      (Nat.ne_of_gt (Nat.lt_of_lt_of_le (Nat.succ_pos _) hfuel))
    obtain ⟨filename', hturn⟩ := getInodeLoop_turn fuel temp filename hh hm hname
    rw [hturn, if_neg fun hn => hmissing _ List.mem_cons_self hn.symm]
    by_cases hnext : h.next = 0
    · rw [if_pos hnext]
    · rw [if_neg hnext]
      exact ih (mt hrest.eq_nil_iff.mp hnext) (Nat.le_of_succ_le_succ hfuel)
        fun e he => hmissing e (List.mem_cons_of_mem _ he)

/-- `romfs_get_inode` on a directory runs the loop from its first entry. -/
theorem romfsGetInode_directory {dir : UInt32} {hd : Header} (hh : HasHeader d dir hd)
    (htype : hd.type = 1) (m : Mem) :
    romfsGetInode d dir m = getInodeLoop d m allOffsets (wordBytes d (dir + 4)) hd.spec fun _ => 0 := by
  have hinfo : ¬ hd.info &&& 7 ≠ 1 := not_not.mpr htype
  simp only [romfsGetInode, hh.readInfo, hh.readSpec, Option.bind_eq_bind, Option.bind_some,
    hh.ntohl_info, if_neg hinfo, hh.ntohl_spec]

/-- `romfs_get_inode` finds what the name leads to. -/
theorem romfsGetInode_eq {dir : UInt32} {name : List UInt8} {m : Mem}
    (h : Leads d dir name target) (hm : StringAt m 0 name)
    (hname : name.length < maxFilenameSize) : romfsGetInode d dir m = some target := by
  obtain ⟨es, e, ⟨hd, hh, htype, hchain⟩, _, hfinds, hlinks⟩ := h
  rw [romfsGetInode_directory hh htype, getInodeLoop_eq hchain
    (hchain.length_le.trans (by decide)) hm hname hfinds, romfsInodeFollowLinks_eq hlinks]

/-- `romfs_get_inode` in a directory with entries, none of which has the name. -/
theorem romfsGetInode_missing {dir : UInt32} {es : List Entry} {name : List UInt8} {m : Mem}
    (h : IsDirectory d dir es) (hes : es ≠ []) (hm : StringAt m 0 name)
    (hname : name.length < maxFilenameSize) (hmissing : ∀ e ∈ es, e.header.name ≠ name) :
    romfsGetInode d dir m = some (-1) := by
  obtain ⟨hd, hh, htype, hchain⟩ := h
  rw [romfsGetInode_directory hh htype, getInodeLoop_missing hchain hes
    (hchain.length_le.trans (by decide)) hm hname hmissing]

/-! ## Paths -/

/-- A component of a path: not empty, without a slash, and as short as the buffer of
`get_inode` needs it. -/
structure IsComponent (name : List UInt8) : Prop where
  ne_nil : name ≠ []
  nonzero : ∀ c ∈ name, c ≠ 0
  noSlash : ∀ c ∈ name, c ≠ 47
  length_le : name.length ≤ 254

/-- Following the components from the directory at `dir` leads to the header at `target`. -/
inductive Resolves (d : Ramdisk) : UInt32 → List UInt8 → UInt32 → Prop
  | last {dir target : UInt32} {name : List UInt8} :
      IsComponent name → Leads d dir name target → Resolves d dir name target
  | more {dir mid target : UInt32} {name path : List UInt8} :
      IsComponent name → Leads d dir name mid → Resolves d mid path target →
      Resolves d dir (name ++ 47 :: path) target

/-- What a path names for a process in the directory `currentDir`. -/
inductive Names (d : Ramdisk) (rootDir currentDir : UInt32) : List UInt8 → UInt32 → Prop
  | absolute {path : List UInt8} {target : UInt32} :
      Resolves d rootDir path target → Names d rootDir currentDir (47 :: path) target
  | relative {path : List UInt8} {target : UInt32} :
      Resolves d currentDir path target → Names d rootDir currentDir path target

/-- The components before the last one lead from the directory at `dir` to the directory at
`last`, where the last one, `name`, is looked up. -/
inductive Reaches (d : Ramdisk) : UInt32 → List UInt8 → UInt32 → List UInt8 → Prop
  | last {dir : UInt32} {name : List UInt8} : IsComponent name → Reaches d dir name dir name
  | more {dir mid last : UInt32} {name path final : List UInt8} :
      IsComponent name → Leads d dir name mid → Reaches d mid path last final →
      Reaches d dir (name ++ 47 :: path) last final

/-- The directory in which the last component of a path is looked up, for a process in the
directory `currentDir`. -/
inductive LooksIn (d : Ramdisk) (rootDir currentDir : UInt32) :
    List UInt8 → UInt32 → List UInt8 → Prop
  | absolute {path name : List UInt8} {last : UInt32} :
      Reaches d rootDir path last name → LooksIn d rootDir currentDir (47 :: path) last name
  | relative {path name : List UInt8} {last : UInt32} :
      Reaches d currentDir path last name → LooksIn d rootDir currentDir path last name

theorem Reaches.component {dir last : UInt32} {path name : List UInt8}
    (h : Reaches d dir path last name) : IsComponent name := by
  induction h with
  | last hname => exact hname
  | more _ _ _ ih => exact ih

theorem LooksIn.component {rootDir currentDir last : UInt32} {path name : List UInt8}
    (h : LooksIn d rootDir currentDir path last name) : IsComponent name := by
  cases h with
  | absolute hreaches => exact hreaches.component
  | relative hreaches => exact hreaches.component

theorem Resolves.reaches {dir : UInt32} {path : List UInt8} (h : Resolves d dir path target) :
    ∃ last name, Reaches d dir path last name ∧ Leads d last name target := by
  induction h with
  | last hname hleads => exact ⟨_, _, .last hname, hleads⟩
  | more hname hleads _ ih =>
    obtain ⟨last, final, hreaches, hfinal⟩ := ih
    exact ⟨last, final, .more hname hleads hreaches, hfinal⟩

theorem Names.looksIn {rootDir currentDir : UInt32} {path : List UInt8}
    (h : Names d rootDir currentDir path target) :
    ∃ last name, LooksIn d rootDir currentDir path last name ∧ Leads d last name target := by
  cases h with
  | absolute hres =>
    obtain ⟨last, name, hreaches, hleads⟩ := hres.reaches
    exact ⟨last, name, .absolute hreaches, hleads⟩
  | relative hres =>
    obtain ⟨last, name, hreaches, hleads⟩ := hres.reaches
    exact ⟨last, name, .relative hreaches, hleads⟩

end Vmwos.Romfs

namespace Vmwos.Files

open Bytes Romfs

variable {d : Ramdisk} {f : State} {path : List UInt8} {dir target : UInt32}

theorem stringAt_stringMem {s : List UInt8} (hs : ∀ c ∈ s, c ≠ 0) : StringAt (stringMem s) 0 s where
  nonzero := hs
  chars := by
    refine List.ext_getElem (by simp) fun k hk hk' => ?_
    simp [Bytes.read, stringMem, hk']
  nul := by simp [stringMem]

/-- `split_filename` copies the characters before a slash, as long as there is room. -/
theorem splitFilename_append {len n : Nat} {name : List UInt8} (cs : List UInt8)
    (hslash : ∀ c ∈ name, c ≠ 47) (hlen : n + name.length ≤ len - 1) :
    splitFilename len (name ++ cs) n =
      (name ++ (splitFilename len cs (n + name.length)).1,
        (splitFilename len cs (n + name.length)).2) := by
  induction name generalizing n with
  | nil => simp
  | cons c name ih =>
    rw [List.length_cons] at hlen
    rw [List.cons_append, splitFilename, if_neg (by omega), if_neg (hslash c List.mem_cons_self),
      ih (fun c hc => hslash c (List.mem_cons_of_mem _ hc)) (by omega), List.length_cons,
      Nat.add_right_comm, Nat.add_assoc]
    rfl

theorem splitFilename_last {name : List UInt8} (h : IsComponent name) :
    splitFilename maxFilenameSize name 0 = (name, none) := by
  have hlen := h.length_le
  have hmax : maxFilenameSize = 256 := rfl
  have hsplit := splitFilename_append [] h.noSlash
    (show 0 + name.length ≤ maxFilenameSize - 1 by omega)
  simpa [splitFilename] using hsplit

theorem splitFilename_more {name : List UInt8} (h : IsComponent name) :
    splitFilename maxFilenameSize (name ++ 47 :: path) 0 = (name, some path) := by
  have hlen := h.length_le
  have hmax : maxFilenameSize = 256 := rfl
  rw [splitFilename_append _ h.noSlash (by omega), splitFilename, if_neg (by omega), if_pos rfl,
    List.append_nil]

theorem romfsGetInode_component {name : List UInt8} (hname : IsComponent name)
    (h : Leads d dir name target) : romfsGetInode d dir (stringMem name) = some target :=
  romfsGetInode_eq h (stringAt_stringMem hname.nonzero)
    (Nat.lt_of_le_of_lt hname.length_le (by decide))

/-- The loop of `get_inode` comes to the last component. -/
theorem getInodeWalk_eq {turns : Nat} {last : UInt32} {name : List UInt8}
    (h : Reaches d dir path last name) (hturns : path.length < turns) :
    getInodeWalk d turns dir path = romfsGetInode d last (stringMem name) := by
  induction h generalizing turns with
  | last hname =>
    obtain ⟨turns, rfl⟩ := Nat.exists_eq_succ_of_ne_zero (Nat.ne_of_gt (Nat.zero_lt_of_lt hturns))
    simp only [getInodeWalk, splitFilename_last hname]
  | @more dir mid last name path final hname hleads _ ih =>
    obtain ⟨turns, rfl⟩ := Nat.exists_eq_succ_of_ne_zero (Nat.ne_of_gt (Nat.zero_lt_of_lt hturns))
    rw [List.length_append, List.length_cons] at hturns
    simp only [getInodeWalk, splitFilename_more hname, Option.bind_eq_bind,
      romfsGetInode_component hname hleads, Option.bind_some]
    exact ih (by omega)

theorem Reaches.head {last : UInt32} {name : List UInt8} (h : Reaches d dir path last name) :
    ∃ c cs, path = c :: cs ∧ c ≠ 47 := by
  cases h with
  | last hname =>
    obtain ⟨c, cs, rfl⟩ := List.exists_cons_of_ne_nil hname.ne_nil
    exact ⟨c, cs, rfl, hname.noSlash c List.mem_cons_self⟩
  | @more _ _ _ name path _ hname _ _ =>
    obtain ⟨c, cs, rfl⟩ := List.exists_cons_of_ne_nil hname.ne_nil
    exact ⟨c, cs ++ 47 :: path, rfl, hname.noSlash c List.mem_cons_self⟩

/-- `get_inode` looks the last component up in the directory that the others lead to. -/
theorem getInode_looksIn {currentDir last : UInt32} {name : List UInt8}
    (h : LooksIn d f.rootDir currentDir path last name) :
    getInode d f currentDir path = romfsGetInode d last (stringMem name) := by
  cases h with
  | @absolute path _ _ hreaches =>
    obtain ⟨c, cs, rfl, _⟩ := Reaches.head hreaches
    simp only [getInode, List.head?_cons, if_true, List.tail_cons, reduceCtorEq, if_false]
    exact getInodeWalk_eq hreaches (Nat.lt_succ_self _)
  | relative hreaches =>
    obtain ⟨c, cs, rfl, hc⟩ := Reaches.head hreaches
    simp only [getInode, List.head?_cons, Option.some.injEq, if_neg hc, reduceCtorEq, if_false]
    exact getInodeWalk_eq hreaches (Nat.lt_succ_self _)

/-- `get_inode` computes what a path names. -/
theorem getInode_eq {currentDir : UInt32} (h : Names d f.rootDir currentDir path target) :
    getInode d f currentDir path = some target := by
  obtain ⟨last, name, hlooks, hleads⟩ := h.looksIn
  rw [getInode_looksIn hlooks, romfsGetInode_component hlooks.component hleads]

end Vmwos.Files
