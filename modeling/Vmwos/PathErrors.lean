import Vmwos.Paths

/-!
# Errors on the way of a path

`get_inode` takes what `romfs_get_inode` returns for one component as the directory of the next,
and does not look whether it is an error. A negative inode then is an offset at the end of the
address space.

`split_filename` copies at most 255 characters of a component and then ends the path, whatever
follows. So a component of 255 characters or more counts as the last one.

`walkCalls` and `dirCalls` list the directories that are looked into (`getInode_frame`).

Result: `errors_propagate_iff`. No lookup is made in a negative directory, and a path with a bad
component before the last one gives an error, exactly if every component before the last one has
an entry (`Passable`).
-/

namespace Vmwos.Romfs

open Bytes

/-! ## Images -/

/-- The header is that of a directory. -/
def IsDir (d : Ramdisk) (inode : UInt32) : Prop := ∃ h, HasHeader d inode h ∧ h.type = 1

/-- The headers of an image that paths lead to. Its directories are well formed, and what they
have entries for is among the headers. An image lies in RAM, so that no offset is negative. -/
structure IsImage (d : Ramdisk) (nodes : UInt32 → Prop) : Prop where
  inRam : d.length.toNat < 2 ^ 31
  header : ∀ n, nodes n → ∃ h, HasHeader d n h
  directory : ∀ n, nodes n → IsDir d n →
    ∃ es, WellFormed d n es ∧ ∀ e ∈ es, ∀ target, LinksTo d e.inode target → nodes target

variable {d : Ramdisk} {nodes : UInt32 → Prop} {n target : UInt32} {name : List UInt8}

theorem IsImage.not_isNeg (h : IsImage d nodes) (hn : nodes n) : ¬isNeg n := by
  obtain ⟨hd, hh⟩ := h.header n hn
  have hin := hh.inside
  have hlen := h.inRam
  rw [isNeg]
  omega

theorem Leads.isDir (h : Leads d n name target) : IsDir d n := by
  obtain ⟨_, _, ⟨hd, hh, htype, _⟩, _⟩ := h
  exact ⟨hd, hh, htype⟩

/-- `romfs_get_inode` does not look in anything but a directory. -/
theorem romfsGetInode_notDir {hd : Header} {m : Mem} (hh : HasHeader d n hd) (htype : hd.type ≠ 1) :
    romfsGetInode d n m = some eNOTDIR := by
  have hinfo : hd.info &&& 7 ≠ 1 := htype
  simp only [romfsGetInode, hh.readInfo, hh.readSpec, Option.bind_eq_bind, Option.bind_some,
    hh.ntohl_info, if_pos hinfo]

/-- A lookup in an image returns a header of the image, or an error if there is no entry. -/
theorem IsImage.lookup {m : Mem} (h : IsImage d nodes) (hn : nodes n) (hm : StringAt m 0 name)
    (hname : name.length < maxFilenameSize) :
    (∃ target, Leads d n name target ∧ nodes target ∧ romfsGetInode d n m = some target) ∨
      (¬∃ target, Leads d n name target) ∧ ∃ r, romfsGetInode d n m = some r ∧ isNeg r := by
  obtain ⟨hd, hh⟩ := h.header n hn
  by_cases htype : hd.type = 1
  · obtain ⟨es, hwf, hclosed⟩ := h.directory n hn ⟨hd, hh, htype⟩
    rcases finds_or_missing es name with ⟨e, hfinds⟩ | hmissing
    · obtain ⟨target, hlinks⟩ := hwf.linked e hfinds.mem.1
      have hleads : Leads d n name target := ⟨es, e, hwf.directory, hwf.short, hfinds, hlinks⟩
      exact .inl ⟨target, hleads, hclosed e hfinds.mem.1 target hlinks,
        romfsGetInode_eq hleads hm hname⟩
    · have hcall := romfsGetInode_missing hwf.directory hwf.ne_nil hm hname hmissing
      refine .inr ⟨?_, -1, hcall, by decide⟩
      rintro ⟨target, hleads⟩
      cases hcall.symm.trans (romfsGetInode_eq hleads hm hname)
      obtain ⟨_, _, _, _, _, hlinks⟩ := hleads
      exact hlinks.not_isNeg h.inRam (by decide)
  · refine .inr ⟨?_, eNOTDIR, romfsGetInode_notDir hh htype, by decide⟩
    rintro ⟨target, hleads⟩
    obtain ⟨hd', hh', htype'⟩ := hleads.isDir
    rw [Header.type, ← hh'.info_eq, hh.info_eq] at htype'
    exact htype htype'

end Vmwos.Romfs

namespace Vmwos.Files

open Bytes Romfs

/-! ## Definitions -/

/-- The parts of a path between its slashes. -/
def components (path : List UInt8) : List (List UInt8) := path.splitOn 47

/-- The directory that a path starts from, and the path from there. -/
def startOf (f : State) (currentDir : UInt32) (pathname : List UInt8) : UInt32 × List UInt8 :=
  if pathname.head? = some 47 then (f.rootDir, pathname.tail) else (currentDir, pathname)

/-- The directories that the loop of `get_inode` passes to `romfs_get_inode`. -/
def walkCalls (d : Ramdisk) : Nat → UInt32 → List UInt8 → List UInt32
  | 0, _, _ => []
  | turns + 1, dirInode, ptr =>
    match splitFilename maxFilenameSize ptr 0 with
    | (_, none) => [dirInode]
    | (name, some rest) =>
      dirInode :: match romfsGetInode d dirInode (stringMem name) with
        | none => []
        | some dirInode => walkCalls d turns dirInode rest

/-- The directories that `get_inode` passes to `romfs_get_inode`. -/
def dirCalls (d : Ramdisk) (f : State) (currentDir : UInt32) (pathname : List UInt8) :
    List UInt32 :=
  let (dirInode, ptr) := startOf f currentDir pathname
  if ptr = [] then [] else walkCalls d (ptr.length + 1) dirInode ptr

/-- A component before the last one has no entry in the directory that the ones before lead to,
or its entry leads to no directory. -/
def BadMiddle (d : Ramdisk) : UInt32 → List (List UInt8) → Prop
  | dir, name :: next :: rest =>
    (¬∃ mid, Leads d dir name mid) ∨
      ∃ mid, Leads d dir name mid ∧ (¬IsDir d mid ∨ BadMiddle d mid (next :: rest))
  | _, _ => False

/-- No lookup is made in a negative directory, and a path with a bad component before the last one
gives a negative value. -/
structure ErrorsPropagate (d : Ramdisk) (f : State) (currentDir : UInt32) (path : List UInt8) :
    Prop where
  calls : ∀ dir ∈ dirCalls d f currentDir path, ¬isNeg dir
  result : BadMiddle d (startOf f currentDir path).1 (components (startOf f currentDir path).2) →
    ∃ r, getInode d f currentDir path = some r ∧ isNeg r

/-- Every component before the last one has an entry. A component with 255 characters or more
ends the way: no entry has its first 255 characters for a name, or nothing is bad from there on. -/
def Passable (d : Ramdisk) : UInt32 → List (List UInt8) → Prop
  | dir, name :: next :: rest =>
    if name.length < 255 then ∃ mid, Leads d dir name mid ∧ Passable d mid (next :: rest)
    else (¬∃ target, Leads d dir (name.take 255) target) ∨ ¬BadMiddle d dir (name :: next :: rest)
  | _, _ => True

/-! ## Components -/

variable {d : Ramdisk} {f : State} {nodes : UInt32 → Prop} {dir mid currentDir : UInt32}
  {path name next rest : List UInt8} {names : List (List UInt8)} {turns : Nat}

/-- A path is one component, or one and a path behind its slash. -/
theorem components_cases (path : List UInt8) :
    (47 ∉ path ∧ components path = [path]) ∨
      ∃ name rest, path = name ++ 47 :: rest ∧ 47 ∉ name ∧
        components path = name :: components rest := by
  by_cases hslash : (47 : UInt8) ∈ path
  · obtain ⟨name, rest, hpath, hname⟩ := List.eq_append_cons_of_mem hslash
    refine .inr ⟨name, rest, hpath, hname, ?_⟩
    rw [components, hpath, List.splitOn_append_cons_self, List.splitOn_eq_singleton hname]
    rfl
  · exact .inl ⟨hslash, List.splitOn_eq_singleton hslash⟩

theorem splitFilename_full (cs : List UInt8) (len : Nat) :
    splitFilename len cs (len - 1) = ([], none) := by
  cases cs with
  | nil => rfl
  | cons c cs => rw [splitFilename, if_pos (le_refl _)]

/-- A component that fills the buffer ends the path. -/
theorem splitFilename_cut (hname : 47 ∉ name) (hlen : 255 ≤ name.length) (cs : List UInt8) :
    splitFilename maxFilenameSize (name ++ cs) 0 = (name.take 255, none) := by
  have hslash : ∀ c ∈ name.take 255, c ≠ 47 := fun c hc heq => hname (heq ▸ List.mem_of_mem_take hc)
  have htake : (name.take 255).length = 255 := by rw [List.length_take, Nat.min_eq_left hlen]
  have hroom : 0 + (name.take 255).length ≤ maxFilenameSize - 1 := by
    rw [htake]
    decide
  have hsplit := splitFilename_append (name.drop 255 ++ cs) hslash hroom
  rw [← List.append_assoc, List.take_append_drop, htake] at hsplit
  rw [hsplit, show (0 + 255 : Nat) = maxFilenameSize - 1 from rfl, splitFilename_full,
    List.append_nil]

/-- The last component, cut to the buffer. -/
theorem splitFilename_end (hpath : 47 ∉ path) :
    splitFilename maxFilenameSize path 0 = (path.take 255, none) := by
  rcases Nat.lt_or_ge path.length 255 with hlen | hlen
  · have hroom : 0 + path.length ≤ maxFilenameSize - 1 := by
      rw [Nat.zero_add]
      exact Nat.le_of_lt hlen
    have hsplit := splitFilename_append [] (fun c hc heq => hpath (heq ▸ hc)) hroom
    rw [List.append_nil] at hsplit
    rw [hsplit, List.take_of_length_le (Nat.le_of_lt hlen), splitFilename, List.append_nil]
  · have hcut := splitFilename_cut hpath hlen []
    rwa [List.append_nil] at hcut

theorem splitFilename_slash (hname : 47 ∉ name) (hlen : name.length < 255) :
    splitFilename maxFilenameSize (name ++ 47 :: rest) 0 = (name, some rest) := by
  have hmax : maxFilenameSize = 256 := rfl
  rw [splitFilename_append _ (fun c hc heq => hname (heq ▸ hc)) (by omega), splitFilename,
    if_neg (by omega), if_pos rfl, List.append_nil]

theorem components_ne_nil (path : List UInt8) : components path ≠ [] :=
  List.splitOn_ne_nil 47 path

theorem badMiddle_cons (hnames : names ≠ []) :
    BadMiddle d dir (name :: names) ↔ (¬∃ mid, Leads d dir name mid) ∨
      ∃ mid, Leads d dir name mid ∧ (¬IsDir d mid ∨ BadMiddle d mid names) := by
  obtain ⟨next, rest, rfl⟩ := List.exists_cons_of_ne_nil hnames
  rfl

theorem passable_cons (hnames : names ≠ []) :
    Passable d dir (name :: names) ↔
      if name.length < 255 then ∃ mid, Leads d dir name mid ∧ Passable d mid names
      else (¬∃ target, Leads d dir (name.take 255) target) ∨ ¬BadMiddle d dir (name :: names) := by
  obtain ⟨next, rest, rfl⟩ := List.exists_cons_of_ne_nil hnames
  rfl

/-! ## The lookups -/

/-- Two disks have the same directory at an inode: every lookup in it has the same result. -/
def SameLookups (d d' : Ramdisk) (dir : UInt32) : Prop :=
  ∀ name, romfsGetInode d' dir name = romfsGetInode d dir name

theorem getInodeWalk_frame {d' : Ramdisk}
    (h : ∀ x ∈ walkCalls d turns dir path, SameLookups d d' x) :
    getInodeWalk d' turns dir path = getInodeWalk d turns dir path := by
  induction turns generalizing dir path with
  | zero => rfl
  | succ turns ih =>
    rw [walkCalls] at h
    rw [getInodeWalk, getInodeWalk]
    generalize splitFilename maxFilenameSize path 0 = split at h ⊢
    obtain ⟨name, tail⟩ := split
    cases tail with
    | none => exact h dir List.mem_cons_self (stringMem name)
    | some rest =>
      rw [List.forall_mem_cons] at h
      simp only [h.1 (stringMem name), Option.bind_eq_bind]
      cases hlookup : romfsGetInode d dir (stringMem name) with
      | none => rw [Option.bind_none, Option.bind_none]
      | some mid =>
        rw [hlookup] at h
        rw [Option.bind_some, Option.bind_some]
        exact ih h.2

/-- `get_inode` looks nothing up in any other directory: on a disk with the same directories it has
the same result. -/
theorem getInode_frame {d' : Ramdisk}
    (h : ∀ x ∈ dirCalls d f currentDir path, SameLookups d d' x) :
    getInode d' f currentDir path = getInode d f currentDir path := by
  have hget : ∀ d : Ramdisk, getInode d f currentDir path =
      if (startOf f currentDir path).2 = [] then some (startOf f currentDir path).1
      else getInodeWalk d ((startOf f currentDir path).2.length + 1) (startOf f currentDir path).1
        (startOf f currentDir path).2 := fun _ => rfl
  have hcalls : dirCalls d f currentDir path =
      if (startOf f currentDir path).2 = [] then []
      else walkCalls d ((startOf f currentDir path).2.length + 1) (startOf f currentDir path).1
        (startOf f currentDir path).2 := rfl
  rw [hcalls] at h
  rw [hget, hget]
  split
  · rfl
  · next hne =>
    rw [if_neg hne] at h
    exact getInodeWalk_frame h

/-! ## The loop -/

/-- The law for the loop of `get_inode`. -/
structure WalkLaw (d : Ramdisk) (turns : Nat) (dir : UInt32) (path : List UInt8) : Prop where
  calls : ∀ x ∈ walkCalls d turns dir path, ¬isNeg x
  result : BadMiddle d dir (components path) →
    ∃ r, getInodeWalk d turns dir path = some r ∧ isNeg r

theorem lookup_component (h : IsImage d nodes) (hdir : nodes dir) (name : List UInt8)
    (hzero : ∀ c ∈ name, c ≠ 0) (hlen : name.length ≤ 255) :
    (∃ mid, Leads d dir name mid ∧ nodes mid ∧ romfsGetInode d dir (stringMem name) = some mid) ∨
      (¬∃ mid, Leads d dir name mid) ∧
        ∃ r, romfsGetInode d dir (stringMem name) = some r ∧ isNeg r :=
  h.lookup hdir (stringAt_stringMem hzero) (Nat.lt_succ_of_le hlen)

/-- A path from something that is no directory gives an error, if the law holds. -/
theorem WalkLaw.of_not_isDir (h : IsImage d nodes) (hlaw : WalkLaw d (turns + 1) mid path)
    (hmid : nodes mid) (hzero : ∀ c ∈ path, c ≠ 0) (hdir : ¬IsDir d mid) :
    ∃ r, getInodeWalk d (turns + 1) mid path = some r ∧ isNeg r := by
  rcases components_cases path with ⟨hslash, _⟩ | ⟨name, rest, _, _, hcomponents⟩
  · rcases lookup_component h hmid (path.take 255)
      (fun c hc => hzero c (List.mem_of_mem_take hc)) (List.length_take_le _ _) with
      ⟨_, hleads, _⟩ | ⟨_, r, hr, hneg⟩
    · exact absurd hleads.isDir hdir
    · refine ⟨r, ?_, hneg⟩
      simp only [getInodeWalk, splitFilename_end hslash, hr]
  · refine hlaw.result ?_
    rw [hcomponents, badMiddle_cons (components_ne_nil rest)]
    refine .inl ?_
    rintro ⟨_, hleads⟩
    exact hdir hleads.isDir

/-- The law for a component with an entry and the path behind it. -/
theorem walkLaw_more (h : IsImage d nodes) (hzero : ∀ c ∈ rest, c ≠ 0) (hname : 47 ∉ name)
    (hlen : name.length < 255) (hleads : Leads d dir name mid) (hdir : nodes dir)
    (hmid : nodes mid) (hcall : romfsGetInode d dir (stringMem name) = some mid)
    (hunique : ∀ mid', Leads d dir name mid' → mid' = mid) :
    WalkLaw d (turns + 2) dir (name ++ 47 :: rest) ↔ WalkLaw d (turns + 1) mid rest := by
  have hcomponents : components (name ++ 47 :: rest) = name :: components rest := by
    rw [components, List.splitOn_append_cons_self, List.splitOn_eq_singleton hname]
    rfl
  have hcalls : walkCalls d (turns + 2) dir (name ++ 47 :: rest) =
      dir :: walkCalls d (turns + 1) mid rest := by
    rw [walkCalls, splitFilename_slash hname hlen]
    simp only [hcall]
  have hwalk : getInodeWalk d (turns + 2) dir (name ++ 47 :: rest) =
      getInodeWalk d (turns + 1) mid rest := by
    rw [getInodeWalk, splitFilename_slash hname hlen]
    simp only [hcall, Option.bind_eq_bind, Option.bind_some]
  have hbad : BadMiddle d dir (components (name ++ 47 :: rest)) ↔
      ¬IsDir d mid ∨ BadMiddle d mid (components rest) := by
    rw [hcomponents, badMiddle_cons (components_ne_nil rest)]
    constructor
    · rintro (hnone | ⟨mid', hleads', hbad⟩)
      · exact absurd ⟨mid, hleads⟩ hnone
      · rwa [← hunique mid' hleads']
    · exact fun hbad => .inr ⟨mid, hleads, hbad⟩
  constructor
  · intro hlaw
    refine ⟨fun x hx => hlaw.calls x (by rw [hcalls]; exact List.mem_cons_of_mem _ hx), fun hrest => ?_⟩
    rw [← hwalk]
    exact hlaw.result (hbad.mpr (.inr hrest))
  · intro hlaw
    refine ⟨fun x hx => ?_, fun hpath => ?_⟩
    · rw [hcalls] at hx
      rcases List.mem_cons.mp hx with rfl | hx
      · exact h.not_isNeg hdir
      · exact hlaw.calls x hx
    · rw [hwalk]
      rcases hbad.mp hpath with hfile | hrest
      · exact hlaw.of_not_isDir h hmid hzero hfile
      · exact hlaw.result hrest

/-- Without an entry, the error is the directory of the next lookup. -/
theorem not_walkLaw_of_missing (hname : 47 ∉ name) (hlen : name.length < 255) {r : UInt32}
    (hcall : romfsGetInode d dir (stringMem name) = some r) (hneg : isNeg r) :
    ¬WalkLaw d (turns + 2) dir (name ++ 47 :: rest) := by
  intro hlaw
  refine hlaw.calls r ?_ hneg
  rw [walkCalls, splitFilename_slash hname hlen]
  simp only [hcall]
  refine List.mem_cons_of_mem _ ?_
  rw [walkCalls]
  split
  · exact List.mem_singleton_self _
  · exact List.mem_cons_self

/-- A component that is cut is looked up as the last one. -/
theorem walkLaw_cut_iff (h : IsImage d nodes) (hdir : nodes dir) (hzero : ∀ c ∈ name, c ≠ 0)
    (hname : 47 ∉ name) (hlen : 255 ≤ name.length) :
    WalkLaw d (turns + 1) dir (name ++ 47 :: rest) ↔
      (¬∃ target, Leads d dir (name.take 255) target) ∨
        ¬BadMiddle d dir (components (name ++ 47 :: rest)) := by
  have hwalk : getInodeWalk d (turns + 1) dir (name ++ 47 :: rest) =
      romfsGetInode d dir (stringMem (name.take 255)) := by
    rw [getInodeWalk, splitFilename_cut hname hlen]
  have hsafe : ∀ x ∈ walkCalls d (turns + 1) dir (name ++ 47 :: rest), ¬isNeg x := by
    intro x hx
    rw [walkCalls, splitFilename_cut hname hlen] at hx
    rw [List.mem_singleton.mp hx]
    exact h.not_isNeg hdir
  rcases lookup_component h hdir (name.take 255) (fun c hc => hzero c (List.mem_of_mem_take hc))
    (List.length_take_le _ _) with ⟨mid, hleads, hmid, hcall⟩ | ⟨hnone, r, hcall, hneg⟩
  · rw [or_iff_right (not_not.mpr ⟨mid, hleads⟩)]
    constructor
    · intro hlaw hbad
      obtain ⟨r, hr, hneg⟩ := hlaw.result hbad
      rw [hwalk, hcall] at hr
      cases hr
      exact h.not_isNeg hmid hneg
    · exact fun hgood => ⟨hsafe, fun hbad => absurd hbad hgood⟩
  · exact iff_of_true ⟨hsafe, fun _ => ⟨r, hwalk.trans hcall, hneg⟩⟩ (.inl hnone)

theorem walkLaw_last (h : IsImage d nodes) (hdir : nodes dir) (hslash : 47 ∉ path)
    (hsingle : components path = [path]) : WalkLaw d (turns + 1) dir path := by
  refine ⟨fun x hx => ?_, fun hbad => ?_⟩
  · rw [walkCalls, splitFilename_end hslash] at hx
    rw [List.mem_singleton.mp hx]
    exact h.not_isNeg hdir
  · rw [hsingle] at hbad
    exact hbad.elim

/-- The loop meets the law exactly if the path is passable. -/
theorem walkLaw_iff (h : IsImage d nodes) (hdir : nodes dir) (hzero : ∀ c ∈ path, c ≠ 0)
    (hturns : path.length < turns) :
    WalkLaw d turns dir path ↔ Passable d dir (components path) := by
  induction turns generalizing dir path with
  | zero => exact absurd hturns (Nat.not_lt_zero _)
  | succ turns ih =>
    rcases components_cases path with ⟨hslash, hsingle⟩ | ⟨name, rest, rfl, hname, hcomponents⟩
    · refine iff_of_true (walkLaw_last h hdir hslash hsingle) ?_
      rw [hsingle]
      trivial
    · have hzeroName : ∀ c ∈ name, c ≠ 0 := fun c hc => hzero c (List.mem_append_left _ hc)
      have hzeroRest : ∀ c ∈ rest, c ≠ 0 :=
        fun c hc => hzero c (List.mem_append_right _ (List.mem_cons_of_mem _ hc))
      rw [List.length_append, List.length_cons] at hturns
      obtain ⟨turns, rfl⟩ : ∃ k, turns = k + 1 := Nat.exists_eq_succ_of_ne_zero (by omega)
      rw [hcomponents, passable_cons (components_ne_nil rest)]
      split
      · next hlen =>
        rcases lookup_component h hdir name hzeroName (Nat.le_of_lt hlen) with
          ⟨mid, hleads, hmid, hcall⟩ | ⟨hnone, r, hcall, hneg⟩
        · have hunique : ∀ mid', Leads d dir name mid' → mid' = mid := by
            intro mid' hleads'
            have hcall' := romfsGetInode_eq hleads' (stringAt_stringMem hzeroName)
              (Nat.lt_of_lt_of_le hlen (by decide))
            exact Option.some.inj (hcall'.symm.trans hcall)
          rw [walkLaw_more h hzeroRest hname hlen hleads hdir hmid hcall hunique,
            ih hmid hzeroRest (by omega)]
          constructor
          · exact fun hrest => ⟨mid, hleads, hrest⟩
          · rintro ⟨mid', hleads', hrest⟩
            rwa [hunique mid' hleads'] at hrest
        · refine iff_of_false (not_walkLaw_of_missing hname hlen hcall hneg) ?_
          exact fun ⟨mid, hleads, _⟩ => hnone ⟨mid, hleads⟩
      · next hlen =>
        rw [walkLaw_cut_iff h hdir hzeroName hname (not_lt.mp hlen), hcomponents]

/-! ## Whole paths -/

/-- When errors on the way of a path are passed on, for every image, every path and every
directory to start from. -/
theorem errors_propagate_iff (d : Ramdisk) (nodes : UInt32 → Prop) (f : State)
    (currentDir : UInt32) (path : List UInt8) (h : IsImage d nodes) (hroot : nodes f.rootDir)
    (hcurrent : nodes currentDir) (hzero : ∀ c ∈ path, c ≠ 0) :
    ErrorsPropagate d f currentDir path ↔
      Passable d (startOf f currentDir path).1 (components (startOf f currentDir path).2) := by
  have hstart : nodes (startOf f currentDir path).1 ∧
      ∀ c ∈ (startOf f currentDir path).2, c ≠ 0 := by
    rw [startOf]
    split
    · exact ⟨hroot, fun c hc => hzero c (List.mem_of_mem_tail hc)⟩
    · exact ⟨hcurrent, hzero⟩
  by_cases hnil : (startOf f currentDir path).2 = []
  · -- the root or the current directory itself
    have hcalls : dirCalls d f currentDir path = [] := if_pos hnil
    rw [hnil]
    refine iff_of_true ⟨fun dir hdir => ?_, fun hbad => ?_⟩ trivial
    · rw [hcalls] at hdir
      exact absurd hdir List.not_mem_nil
    · rw [hnil] at hbad
      exact hbad.elim
  · have hcalls : dirCalls d f currentDir path =
        walkCalls d ((startOf f currentDir path).2.length + 1) (startOf f currentDir path).1
          (startOf f currentDir path).2 := if_neg hnil
    have hresult : getInode d f currentDir path =
        getInodeWalk d ((startOf f currentDir path).2.length + 1) (startOf f currentDir path).1
          (startOf f currentDir path).2 := if_neg hnil
    rw [← walkLaw_iff h hstart.1 hstart.2 (Nat.lt_succ_self _)]
    constructor
    · intro hlaw
      exact ⟨by rw [← hcalls]; exact hlaw.calls, by rw [← hresult]; exact hlaw.result⟩
    · intro hlaw
      exact ⟨by rw [hcalls]; exact hlaw.calls, by rw [hresult]; exact hlaw.result⟩

/-- The root directory and the file `a`. -/
def treeNodes (n : UInt32) : Prop := n = 32 ∨ n = 96

theorem tree_isImage : IsImage treeDisk treeNodes where
  inRam := by decide
  header := by
    rintro n (rfl | rfl)
    · exact ⟨treeRoot.header, by decide +kernel⟩
    · exact ⟨treeA.header, by decide +kernel⟩
  directory := by
    have hroot : LinksTo treeDisk 32 32 :=
      .here (h := treeRoot.header) (by decide +kernel) (by decide)
    have hparent : LinksTo treeDisk 64 32 :=
      .link (h := treeParent.header) (by decide +kernel) (by decide) hroot
    have ha : LinksTo treeDisk 96 96 :=
      .here (h := treeA.header) (by decide +kernel) (by decide)
    have hends : ∀ {inode target target'}, LinksTo treeDisk inode target →
        LinksTo treeDisk inode target' → target' = target := fun h h' =>
      Option.some.inj ((romfsInodeFollowLinks_eq h').symm.trans (romfsInodeFollowLinks_eq h))
    rintro n (rfl | rfl) ⟨hd, hh, htype⟩
    · refine ⟨_, tree_root, ?_⟩
      simp only [List.mem_cons, List.not_mem_nil, or_false, forall_eq_or_imp, forall_eq]
      exact ⟨fun _ h => .inl (hends hroot h), fun _ h => .inl (hends hparent h),
        fun _ h => .inr (hends ha h)⟩
    · -- `a` is no directory
      rw [Header.type, ← hh.info_eq] at htype
      exact absurd htype (by decide +kernel)

/-- The path `/../a`. -/
theorem errors_propagate_iff_parent :
    IsImage treeDisk treeNodes ∧
      ErrorsPropagate treeDisk treeFiles 32 [47, 46, 46, 47, 97] := by
  refine ⟨tree_isImage, (errors_propagate_iff treeDisk treeNodes treeFiles 32 _ tree_isImage (.inl rfl)
    (.inl rfl) (by simp)).mpr ?_⟩
  exact ⟨32, tree_leads, trivial⟩

/-- The path `x/a`, where there is no `x`: the second lookup is made in the directory -1. -/
theorem lookup_in_error :
    IsImage treeDisk treeNodes ∧ dirCalls treeDisk treeFiles 32 [120, 47, 97] = [32, -1] ∧
      ¬ErrorsPropagate treeDisk treeFiles 32 [120, 47, 97] := by
  have hcall : romfsGetInode treeDisk 32 (stringMem [120]) = some (-1) :=
    romfsGetInode_missing tree_root.directory tree_root.ne_nil (stringAt_stringMem (by simp))
      (by decide) (by decide)
  have hcalls : dirCalls treeDisk treeFiles 32 [120, 47, 97] = [32, -1] := by
    show walkCalls treeDisk 4 32 [120, 47, 97] = _
    rw [walkCalls, show splitFilename maxFilenameSize [120, 47, 97] 0 = ([120], some [97]) from rfl]
    simp only [hcall]
    rfl
  refine ⟨tree_isImage, hcalls, fun hlaw => hlaw.calls (-1) ?_ (by decide)⟩
  rw [hcalls]
  simp

end Vmwos.Files
