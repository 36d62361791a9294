import Vmwos.Genromfs
import Vmwos.Lookup

/-!
# The directories of the host

What the directory that `genromfs` reads means to a program of the host: a path is looked up name
by name from a directory, `.` and `..` lead to the directory itself and to the one above it, and the
main directory is above itself, as the root directory of a file system is. A symbolic link is not
followed: it is the file that `lstat` sees.

* `lookup`, `descend`: where a name and a sequence of names lead;
* `Listing.IsTree`, `Host.Valid`: what `readdir` and `lstat` promise about a tree of directories.
-/

namespace Vmwos.Genromfs

/-! ## Looking up names -/

/-- The first entry with a name. -/
def Listing.find? (name : List UInt8) : Listing → Option (HostStat × Listing)
  | .nil => none
  | .cons name' stat entries rest => if name' = name then some (stat, entries) else rest.find? name

/-- A directory with its entries. -/
structure Dir where
  stat : HostStat
  entries : Listing

/-- A name in the first of the directories, each of which has the one behind it for its parent.
With the file there are the directories for the next lookup, none if it is not a directory. -/
def lookup : List Dir → List UInt8 → Option (HostStat × List Dir)
  | [], _ => none
  | dir :: above, name =>
    if name = dot then some (dir.stat, dir :: above)
    else if name = dotdot then
      match above with
      | [] => some (dir.stat, [dir])
      | up :: above => some (up.stat, up :: above)
    else (dir.entries.find? name).map fun
      | (stat, entries) => (stat, if stat.kind = .dir then ⟨stat, entries⟩ :: dir :: above else [])

/-- The directories after a sequence of names. -/
def descend : List Dir → List (List UInt8) → Option (List Dir)
  | dirs, [] => some dirs
  | dirs, name :: names => (lookup dirs name).bind fun r => descend r.2 names

/-- A path: the names of the directories on the way, and the last name. -/
structure Path where
  absolute : Bool
  names : List (List UInt8)
  last : List UInt8

/-- The names with slashes between them. -/
def pathOf (names : List (List UInt8)) (last : List UInt8) : List UInt8 :=
  names.foldr (fun name path => name ++ 47 :: path) last

def Path.bytes (path : Path) : List UInt8 :=
  if path.absolute then 47 :: pathOf path.names path.last else pathOf path.names path.last

/-- Every name of the path fits the buffers of the code. No name is empty: there are no slashes side
by side or at the end, and `/` is no path. -/
def Path.Valid (path : Path) : Prop :=
  (∀ name ∈ path.names, Romfs.IsComponent name) ∧ Romfs.IsComponent path.last

/-- The directories in which the last name is looked up, with the working directory `cwd`. -/
def Path.dirs (main : Dir) (cwd : List Dir) (path : Path) : Option (List Dir) :=
  descend (if path.absolute then [main] else cwd) path.names

/-- Where the path leads. -/
def Path.resolve (main : Dir) (cwd : List Dir) (path : Path) : Option (HostStat × List Dir) :=
  (path.dirs main cwd).bind fun dirs => lookup dirs path.last

/-- A name that is no link. -/
def Named (name : List UInt8) : Prop := name ≠ dot ∧ name ≠ dotdot

instance (name : List UInt8) : Decidable (Named name) := inferInstanceAs (Decidable (_ ∧ _))

theorem lookup_dot {dir : Dir} {above : List Dir} :
    lookup (dir :: above) dot = some (dir.stat, dir :: above) := by
  simp [lookup]

theorem lookup_named (dir : Dir) (above : List Dir) {name : List UInt8} (h : Named name) :
    lookup (dir :: above) name = (dir.entries.find? name).map fun
      | (stat, entries) =>
        (stat, if stat.kind = .dir then ⟨stat, entries⟩ :: dir :: above else []) := by
  simp only [lookup, if_neg h.1, if_neg h.2]

/-- A lookup that finds a directory goes on in it. -/
theorem lookup_dir {dirs dirs' : List Dir} {name : List UInt8} {stat : HostStat}
    (hdir : stat.kind = .dir) (h : lookup dirs name = some (stat, dirs')) : dirs' ≠ [] := by
  cases dirs with
  | nil => simp [lookup] at h
  | cons dir above =>
    by_cases hdot : name = dot
    · rw [hdot, lookup_dot] at h
      cases h
      exact List.cons_ne_nil _ _
    by_cases hdotdot : name = dotdot
    · subst hdotdot
      cases above with
      | nil =>
        cases h
        exact List.cons_ne_nil _ _
      | cons up above =>
        cases h
        exact List.cons_ne_nil _ _
    rw [lookup_named dir above ⟨hdot, hdotdot⟩] at h
    obtain ⟨⟨stat', entries⟩, -, heq⟩ := Option.map_eq_some_iff.mp h
    cases heq
    rw [if_pos hdir]
    exact List.cons_ne_nil _ _

/-! ## Trees -/

/-- The entries without `.` and `..`. -/
def Listing.dropDots : Listing → Listing
  | .nil => .nil
  | .cons name stat entries rest =>
    if Named name then .cons name stat entries rest.dropDots else rest.dropDots

/-- The names of a listing. -/
def Listing.names : Listing → List (List UInt8)
  | .nil => []
  | .cons name _ _ rest => name :: rest.names

/-- The names of the first directory in the image. The main directory has its `.` and `..` first. -/
def namesOf : List Dir → List (List UInt8)
  | [] => []
  | [main] => dot :: dotdot :: main.entries.dropDots.names
  | dir :: _ :: _ => dir.entries.names

/-- The files of a listing, with those of its directories. -/
def Listing.stats : Listing → List HostStat
  | .nil => []
  | .cons name stat entries rest =>
    stat :: ((if Named name ∧ stat.kind = .dir then entries.stats else []) ++ rest.stats)

/-- The directories of a listing, with those below them. -/
def Listing.dirs : Listing → List HostStat
  | .nil => []
  | .cons name stat entries rest =>
    if Named name ∧ stat.kind = .dir then stat :: (entries.dirs ++ rest.dirs) else rest.dirs

/-- A directory has its `.` and its `..`. -/
def Listing.HasDots (listing : Listing) : Prop :=
  (listing.find? dot).isSome ∧ (listing.find? dotdot).isSome

/-- The entries of the directory `self` in the directory `up`. The names have at most 255
characters, and every directory in it has its `.` and `..`. -/
def Listing.IsTree (self up : HostStat) : Listing → Prop
  | .nil => True
  | .cons name stat entries rest =>
    (∀ c ∈ name, c ≠ 0) ∧ name.length < 256 ∧ (name = dot → stat = self) ∧
      (name = dotdot → stat = up) ∧
      (Named name → stat.kind = .dir → entries.HasDots ∧ entries.IsTree stat self) ∧
      rest.IsTree self up

instance Listing.decidableIsTree : ∀ (self up : HostStat) (listing : Listing),
    Decidable (listing.IsTree self up)
  | _, _, .nil => .isTrue trivial
  | self, up, .cons name stat entries rest =>
    have : Decidable (∀ c ∈ name, c ≠ 0) := List.decidableBAll (fun c => c ≠ 0) name
    have := decidableIsTree stat self entries
    have := decidableIsTree self up rest
    inferInstanceAs (Decidable ((∀ c ∈ name, c ≠ 0) ∧ name.length < 256 ∧ (name = dot → stat = self) ∧
      (name = dotdot → stat = up) ∧
      (Named name → stat.kind = .dir → ((entries.find? dot).isSome ∧ (entries.find? dotdot).isSome) ∧
        entries.IsTree stat self) ∧
      rest.IsTree self up))

/-- The directory of the command line: its `lstat`, that of its `..`, and its entries. -/
structure Host where
  stat : HostStat
  parentStat : HostStat
  listing : Listing

/-- All that `lstat` says. -/
def Host.stats (host : Host) : List HostStat :=
  volumeStat :: host.stat :: host.parentStat :: host.listing.stats

/-- A tree of directories: `dev` and `ino` belong to one file, and a directory is in one place. -/
structure Host.Valid (host : Host) : Prop where
  dir : host.stat.kind = .dir
  parentDir : host.parentStat.kind = .dir
  tree : host.listing.IsTree host.stat host.parentStat
  identified : ∀ s ∈ host.stats, ∀ t ∈ host.stats, s.dev = t.dev → s.ino = t.ino → s = t
  distinct : host.listing.dirs.Nodup
  below : ∀ s ∈ host.listing.dirs, s ∉ [volumeStat, host.stat, host.parentStat]

end Vmwos.Genromfs
