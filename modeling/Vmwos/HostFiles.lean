import Vmwos.FileReads
import Vmwos.HostPaths

/-!
# The files of the host

The kernel is booted with an image of `genromfs`, and processes call `chdir`, `stat`, `open`,
`read`, `getdents` and `vfork` in any order. Each call does what it would do in the directory of the
host, with the working directories and the files that are there.

Results:
1. `processes_see_the_host`: `chdir` and `stat`;
2. `readers_get_the_host_files`: the bytes of the files;
3. `listing_of_host_directory`: the names of a directory.
-/

namespace Vmwos.Genromfs

open Bytes Romfs Files Reading Runs

/-! ## Definitions -/

/-- The directory of the command line. -/
def Host.main (host : Host) : Dir := ⟨host.stat, host.listing⟩

/-- The mode that `stat` reports for a file. Of the permissions romfs keeps that to execute it. -/
def modeOf (stat : HostStat) : UInt32 :=
  (0o666 ||| if stat.exec ∧ (stat.kind = .dir ∨ stat.kind = .reg) then 0o111 else 0) |||
    typeMode stat.kind.romfh

/-- What `stat` reports for a file of the host. -/
structure Shows (buf : Stat) (stat : HostStat) : Prop where
  mode : buf.stMode = modeOf stat
  rdev : buf.stRdev =
    if stat.kind = .blk ∨ stat.kind = .chr then stat.major <<< 16 ||| stat.minor else 0
  size : buf.stSize.toNat = if stat.kind = .lnk ∨ stat.kind = .reg then stat.data.length else 0

/-- `chdir` on the host: the result, and the working directory after it. -/
def hostChdir (main : Dir) (cwd : List Dir) (path : Path) : UInt32 × List Dir :=
  match path.resolve main cwd with
  | none => (eNOENT, cwd)
  | some (stat, dirs) => if stat.kind = .dir then (0, dirs) else (eNOTDIR, cwd)

/-- The kernel with its readers and the `current_dir` of each process, and the working directories
that the processes have on the host. -/
structure World where
  session : Reading.Session
  currentDir : Nat → UInt32
  cwd : Nat → List Dir

/-- A call of a process. -/
inductive HostCall where
  | chdir (pid : Nat) (path : Path)
  | stat (pid : Nat) (path : Path)
  | open (pid : Nat) (path : Path)
  | read (fd count : UInt32)
  | vfork (parent child : Nat)

/-- The contents of the file at a path of the host. -/
def hostData (main : Dir) (cwd : List Dir) (path : Path) : List UInt8 :=
  ((path.resolve main cwd).map fun r => r.1.data).getD []

/-- One call. `vfork` copies the process, `current_dir` included. -/
def hostStep (d : Ramdisk) (console : UInt32 × List UInt8) (main : Dir) (w : World) :
    HostCall → Option World
  | .chdir pid path =>
    (chdir d w.session.files (w.currentDir pid) path.bytes).map fun
      | (_, dir) => { w with
          currentDir := Function.update w.currentDir pid dir
          cwd := Function.update w.cwd pid (hostChdir main (w.cwd pid) path).2 }
  | .stat pid path =>
    (stat d w.session.files (w.currentDir pid) path.bytes).map fun _ => w
  | .open pid path =>
    (Reading.step d console w.session
      (.open (w.currentDir pid) path.bytes (hostData main (w.cwd pid) path))).map fun
      | session => { w with session := session }
  | .read fd count =>
    (Reading.step d console w.session (.read fd count)).map fun
      | session => { w with session := session }
  | .vfork parent child =>
    some { w with
      currentDir := Function.update w.currentDir child (w.currentDir parent)
      cwd := Function.update w.cwd child (w.cwd parent) }

/-- The calls: a path whose directories on the way exist, one of a regular file for `open`, and a
descriptor that an `open` returned for `read`. -/
def HostAllowed (main : Dir) (w : World) : HostCall → Prop
  | .chdir pid path => path.Valid ∧ (path.dirs main (w.cwd pid)).isSome
  | .stat pid path => path.Valid ∧ (path.dirs main (w.cwd pid)).isSome
  | .open pid path => path.Valid ∧
      ∃ stat dirs, path.resolve main (w.cwd pid) = some (stat, dirs) ∧ stat.kind = .reg
  | .read fd _ => fd ∈ w.session.readers.map Reader.fd
  | .vfork _ _ => True

/-- A call that returns what it would return on the host. -/
def LikeHost (d : Ramdisk) (main : Dir) (w : World) : HostCall → Prop
  | .chdir pid path => ∃ dir, chdir d w.session.files (w.currentDir pid) path.bytes =
      some ((hostChdir main (w.cwd pid) path).1, dir)
  | .stat pid path =>
    match path.resolve main (w.cwd pid) with
    | none => stat d w.session.files (w.currentDir pid) path.bytes = some (eNOENT, none)
    | some (hostStat, _) => ∃ buf,
        stat d w.session.files (w.currentDir pid) path.bytes = some (0, some buf) ∧
          Shows buf hostStat
  | _ => True

/-- The kernel after booting with an image. -/
def booted (t : FdTable) (root : UInt32) (main : Dir) : World where
  session := ⟨⟨fdTableInit t, root⟩, []⟩
  currentDir := fun _ => root
  cwd := fun _ => [main]

variable {d : Ramdisk} {o : Options} {host : Host} {main : Dir} {w : World}
  {console : UInt32 × List UInt8} {inode : UInt32} {hostStat : HostStat}

/-! ## One file -/

/-- `romfs_stat` reports what `lstat` did. -/
theorem romfsStat_stored (h : Stored d inode hostStat) :
    ∃ buf, romfsStat d inode = some buf ∧ Shows buf hostStat := by
  obtain ⟨hd, hs⟩ := h
  have hh := hs.header
  have htype : hd.info &&& 7 = hostStat.kind.romfh := hs.type
  have hzero : ¬hostStat.kind.romfh = 0 := by cases hostStat.kind <;> decide
  have hexec : (if hd.info &&& 8 ≠ 0 then 0o111 else 0 : UInt32) =
      if hostStat.exec ∧ (hostStat.kind = .dir ∨ hostStat.kind = .reg) then 0o111 else 0 :=
    if_congr hs.exec rfl rfl
  refine ⟨⟨inode, modeOf hostStat,
    if hostStat.kind.romfh = 4 ∨ hostStat.kind.romfh = 5 then hd.spec else 0, hd.size⟩, ?_,
    rfl, ?_, hs.size⟩
  · show statLoop d (2 ^ 32 + 1) none inode = _
    simp only [statLoop, hh.readInfo, hh.readSpec, hh.readSize, Option.bind_eq_bind,
      Option.bind_some, hh.ntohl_info, hh.ntohl_spec, hh.ntohl_size, htype, if_neg hzero, hexec]
    rfl
  · have hdevice : hostStat.kind.romfh = 4 ∨ hostStat.kind.romfh = 5 ↔
        hostStat.kind = .blk ∨ hostStat.kind = .chr := by cases hostStat.kind <;> decide
    simp only [hdevice]
    split
    · next hkind => exact hs.device hkind
    · rfl

/-- The bits for the type tell a directory from any other file. -/
theorem modeOf_dir (stat : HostStat) : modeOf stat &&& 0xf000 = 0x4000 ↔ stat.kind = .dir := by
  unfold modeOf
  cases stat.kind with
  | dir => split <;> decide
  | reg => split <;> decide
  | lnk => split <;> decide
  | blk => split <;> decide
  | chr => split <;> decide
  | sock => split <;> decide
  | fifo => split <;> decide

theorem Stored.isFile (h : Stored d inode hostStat) (hreg : hostStat.kind = .reg) :
    IsFile d inode hostStat.data := by
  obtain ⟨hd, hs⟩ := h
  have hdata := hs.data (.inr hreg)
  refine ⟨hd, hs.header, ?_, ?_, hdata.inside, hdata.bytes⟩
  · rw [hs.type, hreg]
    rfl
  · rw [hs.size, if_pos (.inr hreg)]

/-! ## One call -/

/-- The kernel is where the host says. -/
structure Follows (d : Ramdisk) (main : Dir) (w : World) : Prop where
  root : At d [main] w.session.files.rootDir
  cwd : ∀ pid, At d (w.cwd pid) (w.currentDir pid)
  reads : Reads d w.session

theorem Follows.path (h : Follows d main w) (hlength : d.length.toNat < 2 ^ 31) {path : Path}
    {pid : Nat} (hvalid : path.Valid) (hdirs : (path.dirs main (w.cwd pid)).isSome) :
    FindsPath d w.session.files (w.currentDir pid) main (w.cwd pid) path := by
  obtain ⟨dirs, hdirs⟩ := Option.isSome_iff_exists.mp hdirs
  exact getInode_path hlength h.root (h.cwd pid) hvalid hdirs

/-- `chdir` goes where it would go on the host. -/
theorem Follows.chdir (h : Follows d main w) (hlength : d.length.toNat < 2 ^ 31) {path : Path}
    {pid : Nat} (hvalid : path.Valid) (hdirs : (path.dirs main (w.cwd pid)).isSome) :
    ∃ dir, chdir d w.session.files (w.currentDir pid) path.bytes =
        some ((hostChdir main (w.cwd pid) path).1, dir) ∧
      At d (hostChdir main (w.cwd pid) path).2 dir := by
  have hfinds := h.path hlength hvalid hdirs
  unfold hostChdir
  cases hresolve : path.resolve main (w.cwd pid) with
  | none =>
    obtain ⟨r, hr, hneg⟩ := hfinds.missing hresolve
    refine ⟨w.currentDir pid, ?_, h.cwd pid⟩
    simp only [Files.chdir, hr, Option.bind_eq_bind, Option.bind_some, if_pos hneg]
  | some found =>
    obtain ⟨hostStat, dirs⟩ := found
    obtain ⟨target, htarget, hpos, hstored, hat⟩ := hfinds.found _ _ hresolve
    obtain ⟨buf, hbuf, hshows⟩ := romfsStat_stored hstored
    have hdir : buf.stMode &&& 0xf000 ≠ 0x4000 ↔ ¬hostStat.kind = .dir := by
      rw [hshows.mode, ne_eq, modeOf_dir]
    simp only [Files.chdir, htarget, Option.bind_eq_bind, Option.bind_some, if_neg hpos, hbuf, hdir]
    by_cases hkind : hostStat.kind = .dir
    · rw [if_neg (not_not.mpr hkind), if_pos hkind]
      exact ⟨target, rfl, hat⟩
    · rw [if_pos hkind, if_neg hkind]
      exact ⟨w.currentDir pid, rfl, h.cwd pid⟩

/-- `stat` reports what `lstat` does on the host. -/
theorem Follows.stat (h : Follows d main w) (hlength : d.length.toNat < 2 ^ 31) {path : Path}
    {pid : Nat} (hvalid : path.Valid) (hdirs : (path.dirs main (w.cwd pid)).isSome) :
    LikeHost d main w (.stat pid path) := by
  have hfinds := h.path hlength hvalid hdirs
  rw [LikeHost]
  split
  · next hresolve =>
    obtain ⟨r, hr, hneg⟩ := hfinds.missing hresolve
    simp only [Files.stat, hr, Option.bind_eq_bind, Option.bind_some, if_pos hneg]
  · next hostStat dirs hresolve =>
    obtain ⟨target, htarget, hpos, hstored, -⟩ := hfinds.found _ _ hresolve
    obtain ⟨buf, hbuf, hshows⟩ := romfsStat_stored hstored
    refine ⟨buf, ?_, hshows⟩
    simp only [Files.stat, htarget, Option.bind_eq_bind, Option.bind_some, if_neg hpos, hbuf]

/-- `open` of a regular file finds its contents. -/
theorem Follows.opensFile (h : Follows d main w) (hlength : d.length.toNat < 2 ^ 31) {pid : Nat}
    {path : Path} (hallowed : HostAllowed main w (.open pid path)) :
    Reading.Allowed d w.session
      (.open (w.currentDir pid) path.bytes (hostData main (w.cwd pid) path)) := by
  obtain ⟨hvalid, hostStat, dirs, hresolve, hreg⟩ := hallowed
  obtain ⟨dirs', hdirs, -⟩ := Option.bind_eq_some_iff.mp hresolve
  have hfinds := h.path hlength hvalid (Option.isSome_iff_exists.mpr ⟨_, hdirs⟩)
  obtain ⟨target, htarget, -, hstored, -⟩ := hfinds.found _ _ hresolve
  refine ⟨target, htarget, ?_⟩
  rw [hostData, hresolve]
  exact hstored.isFile hreg

/-- A call leaves the root directory alone. -/
theorem step_rootDir {s s' : Reading.Session} {call : Reading.Call}
    (h : Reading.step d console s call = some s') : s'.files.rootDir = s.files.rootDir := by
  cases call with
  | «open» currentDir pathname data =>
    obtain ⟨⟨result, files⟩, hopen, rfl⟩ := Option.map_eq_some_iff.mp h
    obtain ⟨inode, -, hopen⟩ := Option.bind_eq_some_iff.mp hopen
    split at hopen
    · cases hopen
      rfl
    · cases hopen
      rfl
  | read fd count =>
    obtain ⟨⟨result, bytes, files⟩, hread, rfl⟩ := Option.map_eq_some_iff.mp h
    unfold Files.read at hread
    split at hread
    · cases hread
      rfl
    split at hread
    · cases hread
      rfl
    split at hread
    · cases hread
      rfl
    obtain ⟨⟨result', bytes'⟩, -, hread⟩ := Option.bind_eq_some_iff.mp hread
    simp only at hread
    split at hread
    · cases hread
      rfl
    · cases hread
      rfl

theorem Follows.session (h : Follows d main w) {call : Reading.Call}
    (hallowed : Reading.Allowed d w.session call) {session : Reading.Session}
    (hstep : Reading.step d console w.session call = some session) :
    Follows d main { w with session := session } :=
  ⟨(step_rootDir hstep).symm ▸ h.root, h.cwd, reads_step h.reads hallowed hstep⟩

/-- A call keeps the kernel where the host says. -/
theorem Follows.step (h : Follows d main w) (hlength : d.length.toNat < 2 ^ 31) {call : HostCall}
    (hallowed : HostAllowed main w call) {w' : World}
    (hstep : hostStep d console main w call = some w') : Follows d main w' := by
  cases call with
  | chdir pid path =>
    obtain ⟨dir, hchdir, hat⟩ := h.chdir hlength hallowed.1 hallowed.2
    rw [hostStep, hchdir] at hstep
    cases hstep
    refine ⟨h.root, fun pid' => ?_, h.reads⟩
    by_cases heq : pid' = pid
    · subst heq
      simpa using hat
    · simpa [heq] using h.cwd pid'
  | stat pid path =>
    obtain ⟨_, -, rfl⟩ := Option.map_eq_some_iff.mp hstep
    exact h
  | «open» pid path =>
    obtain ⟨session, hsession, rfl⟩ := Option.map_eq_some_iff.mp hstep
    exact h.session (h.opensFile hlength hallowed) hsession
  | read fd count =>
    obtain ⟨session, hsession, rfl⟩ := Option.map_eq_some_iff.mp hstep
    exact h.session (show Reading.Allowed d w.session (.read fd count) from hallowed) hsession
  | vfork parent child =>
    cases hstep
    refine ⟨h.root, fun pid' => ?_, h.reads⟩
    by_cases heq : pid' = child
    · subst heq
      simpa using h.cwd parent
    · simpa [heq] using h.cwd pid'

/-! ## Booting -/

/-- `mount` and `get_inode` at boot. -/
structure Boots (d : Ramdisk) (t : FdTable) (root : UInt32) : Prop where
  mount : mount d ⟨fdTableInit t, 0⟩ romfsName = some (0, ⟨fdTableInit t, root⟩)
  rootInode : getInode d ⟨fdTableInit t, root⟩ 0 [47] = some root

theorem boots (h : Imaged d o host) (hkeeps : o.KeepsMain host)
    (hlength : d.length.toNat < 2 ^ 31) (t : FdTable) :
    Boots d t (UInt32.ofNat (mainOffset o host)) :=
  ⟨mount_eq h hkeeps hlength _, rfl⟩

theorem follows_booted (h : Imaged d o host) (t : FdTable) :
    Follows d host.main (booted t (UInt32.ofNat (mainOffset o host)) host.main) :=
  have hmain : At d [host.main] (UInt32.ofNat (mainOffset o host)) := .main h.mainLaid h.valid.dir
  ⟨hmain, fun _ => hmain, reads_init d t _⟩

/-! ## 1. Paths -/

/-- The kernel boots with the image of a directory of the host. In every run of `chdir`, `stat`,
`open`, `read` and `vfork` of its processes, `chdir` and `stat` do what they do on the host: they
fail where there is nothing at the path, `chdir` fails where there is no directory, and `stat`
reports the type, the device and the size of the file, with the permissions that romfs has for it. -/
theorem processes_see_the_host (d : Ramdisk) (o : Options) (host : Host) (h : Imaged d o host)
    (hkeeps : o.KeepsMain host) (hlength : d.length.toNat < 2 ^ 31)
    (console : UInt32 × List UInt8) (t : FdTable) :
    ∃ root, Boots d t root ∧ ∀ calls,
      AllSteps (hostStep d console host.main) (HostAllowed host.main) (booted t root host.main)
        calls →
      AllSteps (hostStep d console host.main) (LikeHost d host.main) (booted t root host.main)
        calls := by
  refine ⟨_, boots h hkeeps hlength t, fun calls hcalls => ?_⟩
  refine AllSteps.imp_of_inv (fun w call hw hallowed => ⟨?_, fun w' hstep =>
    hw.step hlength hallowed hstep⟩) (follows_booted h t) hcalls
  cases call with
  | chdir pid path =>
    obtain ⟨dir, hchdir, -⟩ := hw.chdir hlength hallowed.1 hallowed.2
    exact ⟨dir, hchdir⟩
  | stat pid path => exact hw.stat hlength hallowed.1 hallowed.2
  | «open» pid path => trivial
  | read fd count => trivial
  | vfork parent child => trivial

/-- A process enters `b`, asks for `../a` and opens `c`. -/
def samplePath (names : List (List UInt8)) (last : List UInt8) : Path := ⟨false, names, last⟩
def sampleCalls : List HostCall :=
  [.chdir 1 (samplePath [] [98]), .stat 1 (samplePath [dotdot] [97]), .open 1 (samplePath [] [99])]

theorem samplePath_valid {names : List (List UInt8)} {last : List UInt8}
    (h : ∀ name ∈ last :: names, name ∈ [dotdot, [97], [98], [99]]) :
    (samplePath names last).Valid := by
  have hall : ∀ name ∈ [dotdot, [97], [98], [99]], IsComponent name := by
    intro name hname
    have hbytes : name ≠ [] ∧ (∀ c ∈ name, c ≠ 0 ∧ c ≠ 47) ∧ name.length ≤ 254 := by
      revert name
      simp [dotdot]
    exact ⟨hbytes.1, fun c hc => (hbytes.2.1 c hc).1, fun c hc => (hbytes.2.1 c hc).2, hbytes.2.2⟩
  exact ⟨fun name hname => hall name (h name (List.mem_cons_of_mem _ hname)),
    hall last (h last List.mem_cons_self)⟩

theorem sample_allowed (d : Ramdisk) (t : FdTable) (root : UInt32) :
    AllSteps (hostStep d (0, []) sampleHost.main) (HostAllowed sampleHost.main)
      (booted t root sampleHost.main) sampleCalls := by
  refine allSteps_cons.mpr ⟨⟨samplePath_valid (by decide), rfl⟩, fun w hstep => ?_⟩
  obtain ⟨_, -, rfl⟩ := Option.map_eq_some_iff.mp hstep
  refine allSteps_cons.mpr ⟨⟨samplePath_valid (by decide), rfl⟩, fun w hstep => ?_⟩
  obtain ⟨_, -, rfl⟩ := Option.map_eq_some_iff.mp hstep
  exact allSteps_cons.mpr ⟨⟨samplePath_valid (by decide), _, _, rfl, rfl⟩, fun w hstep => trivial⟩

theorem processes_see_the_host_sample :
    ∃ root, Boots (diskOf sampleImage) (fun _ => ⟨0, 0, 0⟩) root ∧
      AllSteps (hostStep (diskOf sampleImage) (0, []) sampleHost.main)
        (LikeHost (diskOf sampleImage) sampleHost.main)
        (booted (fun _ => ⟨0, 0, 0⟩) root sampleHost.main) sampleCalls := by
  obtain ⟨root, hboots, hruns⟩ := processes_see_the_host (diskOf sampleImage) sampleOptions
    sampleHost sample_imaged sample_keepsMain length_sampleDisk (0, []) fun _ => ⟨0, 0, 0⟩
  exact ⟨root, hboots, hruns _ (sample_allowed _ _ _)⟩

/-! ## 2. Contents -/

/-- A call that completes, with a read that returns 0 at the end of the file only and does not fail
on a file shorter than 2^31 bytes. -/
def ReadsLikeHost (d : Ramdisk) (console : UInt32 × List UInt8) (main : Dir) (w : World) :
    HostCall → Prop
  | .open pid path => ReadsOn d console w.session
      (.open (w.currentDir pid) path.bytes (hostData main (w.cwd pid) path))
  | .read fd count => ReadsOn d console w.session (.read fd count)
  | _ => True

/-- In the same runs, every descriptor returns the bytes of the file that is on the host at the path
it was opened with: every reader has got the first bytes of it, and it gets all of them. -/
theorem readers_get_the_host_files (d : Ramdisk) (o : Options) (host : Host) (h : Imaged d o host)
    (hkeeps : o.KeepsMain host) (hlength : d.length.toNat < 2 ^ 31)
    (console : UInt32 × List UInt8) (t : FdTable) :
    ∃ root, Boots d t root ∧ ∀ calls,
      AllSteps (hostStep d console host.main) (HostAllowed host.main) (booted t root host.main)
        calls →
      AllStates (hostStep d console host.main) (fun w => GotPrefix w.session)
          (booted t root host.main) calls ∧
        AllSteps (hostStep d console host.main) (ReadsLikeHost d console host.main)
          (booted t root host.main) calls := by
  refine ⟨_, boots h hkeeps hlength t, fun calls hcalls => ⟨?_, ?_⟩⟩
  · refine AllStates.of_inv (fun w call w' hw hallowed hstep => hw.step hlength hallowed hstep)
      (fun w hw r hr => ?_) (follows_booted h t) hcalls
    obtain ⟨_, hpos⟩ := hw.reads.positioned r hr
    exact hpos.got
  · refine AllSteps.imp_of_inv (fun w call hw hallowed => ⟨?_, fun w' hstep =>
      hw.step hlength hallowed hstep⟩) (follows_booted h t) hcalls
    cases call with
    | chdir pid path => trivial
    | stat pid path => trivial
    | «open» pid path =>
      unfold ReadsLikeHost
      exact readsOn_of_reads hw.reads (hw.opensFile hlength hallowed)
    | read fd count =>
      unfold ReadsLikeHost
      exact readsOn_of_reads hw.reads (show Reading.Allowed d w.session (.read fd count) from hallowed)
    | vfork parent child => trivial

/-- The descriptor of the first `open` is 3, and it can be read. -/
def sampleReads : List HostCall := [.open 1 (samplePath [[98]] [99]), .read 3 5]

theorem sample_read {root : UInt32} (hlength : d.length.toNat < 2 ^ 31)
    (h : Follows d sampleHost.main (booted (fun _ => ⟨0, 0, 0⟩) root sampleHost.main)) :
    AllSteps (hostStep d (0, []) sampleHost.main) (HostAllowed sampleHost.main)
      (booted (fun _ => ⟨0, 0, 0⟩) root sampleHost.main) sampleReads := by
  have hvalid : (samplePath [[98]] [99]).Valid := samplePath_valid (by decide)
  have hresolve : (samplePath [[98]] [99]).resolve sampleHost.main [sampleHost.main] =
      some (sampleA, []) := rfl
  refine allSteps_cons.mpr ⟨⟨hvalid, _, _, hresolve, rfl⟩, fun w hstep => ?_⟩
  obtain ⟨session, hsession, rfl⟩ := Option.map_eq_some_iff.mp hstep
  obtain ⟨dirs, hdirs, -⟩ := Option.bind_eq_some_iff.mp hresolve
  obtain ⟨target, htarget, hpos, -⟩ := (getInode_path hlength h.root (h.cwd 1) hvalid hdirs).found
    _ _ hresolve
  have halloc : fdAllocate (fdTableInit fun _ => ⟨0, 0, 0⟩) target =
      (UInt32.ofNat 3, Function.update (fdTableInit fun _ => ⟨0, 0, 0⟩) 3 ⟨1, target, 0⟩) :=
    fdAllocate_eq (show 3 < maxFd by decide) rfl (by decide)
  rw [Reading.step, openFile, htarget] at hsession
  simp only [Option.bind_eq_bind, Option.bind_some, if_neg hpos, booted, halloc, Option.map_some]
    at hsession
  cases hsession
  exact allSteps_cons.mpr ⟨List.mem_cons_self, fun w hstep => trivial⟩

theorem readers_get_the_host_files_sample :
    ∃ root, Boots (diskOf sampleImage) (fun _ => ⟨0, 0, 0⟩) root ∧
      AllStates (hostStep (diskOf sampleImage) (0, []) sampleHost.main)
        (fun w => GotPrefix w.session) (booted (fun _ => ⟨0, 0, 0⟩) root sampleHost.main)
        sampleReads := by
  obtain ⟨root, hboots, hruns⟩ := readers_get_the_host_files (diskOf sampleImage) sampleOptions
    sampleHost sample_imaged sample_keepsMain length_sampleDisk (0, []) fun _ => ⟨0, 0, 0⟩
  have hmount := hboots.mount.symm.trans
    (boots sample_imaged sample_keepsMain length_sampleDisk fun _ => ⟨0, 0, 0⟩).mount
  have hroot : root = UInt32.ofNat (mainOffset sampleOptions sampleHost) := by simpa using hmount
  have hfollows := follows_booted sample_imaged fun _ => ⟨0, 0, 0⟩
  rw [← hroot] at hfollows
  exact ⟨root, hboots, (hruns _ (sample_read length_sampleDisk hfollows)).1⟩

/-! ## 3. Directories -/

/-- The calls of `getdents` on a descriptor that `open` returned for a directory list the names of
the directory in the order of `readdir` (`namesOf`), whatever the buffers, if each has room for
one entry and the one with the last entry for the volume name behind it. -/
def ListsHost (d : Ramdisk) (o : Options) (main : Dir) (w : World) : Prop :=
  ∀ pid path hostStat dirs, Path.Valid path →
    path.resolve main (w.cwd pid) = some (hostStat, dirs) → hostStat.kind = .dir →
    ∃ es : List Entry, es.map (fun e => e.header.name) = namesOf dirs ∧
      ∀ fd files, openFile d w.session.files (w.currentDir pid) path.bytes = some (fd, files) →
        ¬isNeg fd → ∀ bufs, (∀ k, ∀ e ∈ es, e.recLen ≤ (bufs k).size.toNat) →
          RoomAtEnd (recordLength o.volname.length) bufs es →
          Lists d fd bufs files (es.map Entry.record)

/-- In a directory of the image the entries are apart, so that their records have less than 2^31
bytes. -/
theorem At.directory {dir : Dir} {above : List Dir} (h : At d (dir :: above) inode)
    (hlength : d.length.toNat < 2 ^ 31) :
    ∃ es, IsDirectory d inode es ∧ Listable d es ∧
      es.map (fun e => e.header.name) = namesOf (dir :: above) := by
  obtain ⟨parent, listing, hdir, -⟩ := h.dirAt
  obtain ⟨hd, hstored, hlaid⟩ := hdir.stored
  obtain ⟨es, hlisted⟩ := hlaid.listed
  refine ⟨es, ⟨hd, hstored.header, hstored.type_dir.mpr hdir.kind, hlisted.chain⟩,
    ⟨fun e he => (chain_mem hlisted.chain he).1, ?_⟩, hlisted.names.trans hdir.names⟩
  exact lt_of_le_of_lt (total_le_length hlisted.chain hlisted.apart) hlength

/-- The names are those of the host, over any run. -/
theorem listing_of_host_directory (d : Ramdisk) (o : Options) (host : Host) (h : Imaged d o host)
    (hkeeps : o.KeepsMain host) (hlength : d.length.toNat < 2 ^ 31)
    (console : UInt32 × List UInt8) (t : FdTable) :
    ∃ root, Boots d t root ∧ ∀ calls,
      AllSteps (hostStep d console host.main) (HostAllowed host.main) (booted t root host.main)
        calls →
      AllStates (hostStep d console host.main) (ListsHost d o host.main) (booted t root host.main)
        calls := by
  refine ⟨_, boots h hkeeps hlength t, fun calls hcalls => ?_⟩
  refine AllStates.of_inv (fun w call w' hw hallowed hstep => hw.step hlength hallowed hstep)
    (fun w hw => ?_) (follows_booted h t) hcalls
  intro pid path hostStat dirs hvalid hresolve hdir
  obtain ⟨dirs₀, hdirs, hlookup⟩ := Option.bind_eq_some_iff.mp hresolve
  have hfinds := hw.path hlength hvalid (Option.isSome_iff_exists.mpr ⟨_, hdirs⟩)
  obtain ⟨target, htarget, hpos, -, hat⟩ := hfinds.found _ _ hresolve
  obtain ⟨dir, above, rfl⟩ := List.exists_cons_of_ne_nil (lookup_dir hdir hlookup)
  obtain ⟨es, hdirectory, hlist, hnames⟩ := hat.directory hlength
  refine ⟨es, hnames, fun fd files hopen hfd bufs hsize hroom => ?_⟩
  simp only [openFile, htarget, Option.bind_eq_bind, Option.bind_some, if_neg hpos] at hopen
  obtain ⟨fd', t', halloc⟩ : ∃ fd' t', fdAllocate w.session.files.fdTable target = (fd', t') :=
    ⟨_, _, rfl⟩
  rw [halloc] at hopen
  cases hopen
  obtain ⟨hlt, -, rfl⟩ := fdAllocate_opened halloc hfd
  exact lists_of_roomAtEnd h.hasVolume hroom
    (openOn_moveTo (f := w.session.files) hlt) (.inl ⟨rfl, hdirectory⟩) hlist hsize

theorem listing_of_host_directory_sample :
    ∃ root, Boots (diskOf sampleImage) (fun _ => ⟨0, 0, 0⟩) root ∧
      AllStates (hostStep (diskOf sampleImage) (0, []) sampleHost.main)
        (ListsHost (diskOf sampleImage) sampleOptions sampleHost.main)
        (booted (fun _ => ⟨0, 0, 0⟩) root sampleHost.main) sampleCalls := by
  obtain ⟨root, hboots, hruns⟩ := listing_of_host_directory (diskOf sampleImage) sampleOptions
    sampleHost sample_imaged sample_keepsMain length_sampleDisk (0, []) fun _ => ⟨0, 0, 0⟩
  exact ⟨root, hboots, hruns _ (sample_allowed _ _ _)⟩

end Vmwos.Genromfs
