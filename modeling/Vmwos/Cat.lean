import Vmwos.HostFiles
import Vmwos.Serial
import Vmwos.TimePretty

/-!
# `cat`

Any number of processes run `cat` on files of the host directory, each a system call at a time, in
any order, while other programs write as well. No interrupt is served inside a system call, so that
a call is one step. The table of open files is one for all processes.

Result: `cat_prints_the_host_files`. What goes over the serial line is one write after the other, and
every `cat` writes the contents of its files, each of them whole and in order, whatever the others
do. It ends after a number of calls that only its own files give; it gives up only when all
descriptors are in use.
-/

namespace Vmwos.Cat

open Bytes Romfs Files Reading Genromfs Runs Serial Printf TimePretty

/-! ## The program -/

/-- `BUF_SIZE` -/
def bufSize : UInt32 := 128

/-- Where a `cat` is, before its next system call. The arguments that are left come with it; they are
`none` if it reads from descriptor 0. -/
inductive Stage
  | opening (pathname : List UInt8) (rest : List (List UInt8))
  | reading (fd : UInt32) (rest : Option (List (List UInt8)))
  | writing (fd : UInt32) (rest : Option (List (List UInt8))) (buffer : List UInt8)
  | closing (fd : UInt32) (rest : List (List UInt8))
  | failing (pathname : List UInt8)
  | exited (status : Int)

/-- The next turn of the loop over the arguments. -/
def nextArgument : List (List UInt8) → Stage
  | [] => .exited 0
  | pathname :: rest => .opening pathname rest

/-- `main`, for the arguments behind the name of the program. -/
def main : List (List UInt8) → Stage
  | [] => .reading 0 none
  | pathname :: rest => .opening pathname rest

/-- Behind the loop of `cat`. -/
def afterCat (fd : UInt32) : Option (List (List UInt8)) → Stage
  | none => .exited 0
  | some rest => .closing fd rest

/-- What is printed when a file cannot be opened. -/
def errorText (pathname : List UInt8) : Option (List UInt8) :=
  vsprintf (chars "Error opening %s\n" ++ [0]) fun _ => ⟨0, 0, pathname⟩

/-! ## The system -/

/-- The statics of `files.c`, the UART, where every `cat` is, and the `write` calls so far, each with
its process. -/
structure World where
  files : State
  uart : Uart
  stage : Nat → Stage
  written : List (Nat × List UInt8)

/-- A turn: the next system call of a `cat`, with what the console returns if it reads from there, or
a `write` of another program. The UART has its pace. -/
inductive Turn
  | run (pid : Nat) (console : UInt32 × List UInt8) (polls : List Nat)
  | other (pid : Nat) (buffer : List UInt8) (polls : List Nat)

def World.move (w : World) (pid : Nat) (stage : Stage) : World :=
  { w with stage := Function.update w.stage pid stage }

/-- A `write` on descriptor 1. -/
def World.write (w : World) (pid : Nat) (polls : List Nat) (buffer : List UInt8) :
    Option (UInt32 × World) :=
  (Serial.write polls w.uart 1 buffer).map fun
    | (result, uart) => (result, { w with uart, written := w.written ++ [(pid, buffer)] })

/-- One system call. -/
def step (d : Ramdisk) (currentDir : Nat → UInt32) (w : World) : Turn → Option World
  | .run pid console polls =>
    match w.stage pid with
    | .opening pathname rest =>
      (openFile d w.files (currentDir pid) pathname).map fun
        | (fd, files) => { w with files }.move pid
            (if isNeg fd then .failing pathname else .reading fd (some rest))
    | .reading fd rest =>
      (Files.read d w.files console fd bufSize).map fun
        | (result, bytes, files) => { w with files }.move pid
            (if isNeg result ∨ result = 0 then afterCat fd rest
              else .writing fd rest (bytes.take result.toNat))
    | .writing fd rest buffer =>
      (w.write pid polls buffer).map fun
        | (result, w) => w.move pid
            (if isNeg result ∨ result = 0 then afterCat fd rest else .reading fd rest)
    | .closing fd rest => some ({ w with files := (close w.files fd).2 }.move pid (nextArgument rest))
    | .failing pathname =>
      (errorText pathname).bind fun message => (w.write pid polls message).map fun
        | (_, w) => w.move pid (.exited (-1))
    | .exited _ => some w
  | .other pid buffer polls => (w.write pid polls buffer).map fun
      | (_, w) => w

/-- The start of the programs. -/
def start (files : State) (uart : Uart) (argv : Nat → List (List UInt8)) : World where
  files := files
  uart := uart
  stage := fun pid => main (argv pid)
  written := []

/-! ## What should come out -/

/-- What a process has written. -/
def World.output (w : World) (pid : Nat) : List UInt8 :=
  (w.written.filter fun call => call.1 = pid).flatMap Prod.snd

/-- The bytes that all `write` calls have put on the line. -/
def World.line (w : World) : List UInt8 := w.written.flatMap fun call => crlf call.2

/-- The contents of the files at the paths, one behind the other. -/
def text (main : Dir) (cwd : List Dir) (paths : List Path) : List UInt8 :=
  paths.flatMap fun path => hostData main cwd path

/-- The path of a regular file. -/
def IsRegular (main : Dir) (cwd : List Dir) (path : Path) : Prop :=
  path.Valid ∧ ∃ stat dirs, path.resolve main cwd = some (stat, dirs) ∧ stat.kind = .reg

/-- All descriptors are in use. -/
def Full (f : State) : Prop := ∀ j < maxFd, (f.fdTable j).valid ≠ 0

/-- Where a `cat` is against the files on the host: it has put out the files before, and what it has
read of the present one. -/
def Progress (main : Dir) (cwd : List Dir) (f : State) (readers : List Reader) (paths : List Path)
    (out : List UInt8) : Stage → Prop
  | .opening pathname rest => ∃ before path after, paths = before ++ path :: after ∧
      pathname = path.bytes ∧ rest = after.map Path.bytes ∧ out = text main cwd before
  | .reading fd rest => ∃ before path after, paths = before ++ path :: after ∧
      rest = some (after.map Path.bytes) ∧ ∃ r ∈ readers, r.fd = fd ∧
        r.data = hostData main cwd path ∧ out = text main cwd before ++ r.returned
  | .writing fd rest buffer => ∃ before path after, paths = before ++ path :: after ∧
      rest = some (after.map Path.bytes) ∧ (buffer ≠ [] ∧ buffer.length ≤ bufSize.toNat) ∧
      ∃ r ∈ readers, r.fd = fd ∧ r.data = hostData main cwd path ∧
        out ++ buffer = text main cwd before ++ r.returned
  | .closing _ rest => ∃ before after, paths = before ++ after ∧ rest = after.map Path.bytes ∧
      out = text main cwd before
  | .failing pathname => ∃ before path after, paths = before ++ path :: after ∧
      pathname = path.bytes ∧ out = text main cwd before ∧ Full f
  | .exited status => (status = 0 ∧ out = text main cwd paths) ∨
      status = -1 ∧ Full f ∧ ∃ before path after message, paths = before ++ path :: after ∧
        errorText path.bytes = some message ∧ out = text main cwd before ++ message

/-- What can be seen of it: the first bytes of its files, all of them when it has ended, or an error
message when there was no descriptor left. -/
def Shown (main : Dir) (cwd : List Dir) (f : State) (paths : List Path) (out : List UInt8) :
    Stage → Prop
  | .exited status => (status = 0 ∧ out = text main cwd paths) ∨
      status = -1 ∧ Full f ∧ ∃ before path after message, paths = before ++ path :: after ∧
        errorText path.bytes = some message ∧ out = text main cwd before ++ message
  | _ => out <+: text main cwd paths

/-- The serial line has got one `write` after the other behind what it had, and every `cat` with
files shows them. -/
structure Prints (main : Dir) (cwd : Nat → List Dir) (argv : Nat → List Path) (sent : List UInt8)
    (w : World) : Prop where
  serial : w.uart.accepted = sent ++ w.line
  room : w.uart.fifo.length ≤ fifoSize
  cats : ∀ pid, argv pid ≠ [] →
    Shown main (cwd pid) w.files (argv pid) (w.output pid) (w.stage pid)

/-- The UART sends as much during a turn as the turn writes. -/
def Paced (w : World) : Turn → Prop
  | .run pid _ polls =>
    match w.stage pid with
    | .writing _ _ buffer => 2 * buffer.length ≤ drains polls
    | .failing pathname => ∀ message, errorText pathname = some message →
        2 * message.length ≤ drains polls
    | _ => True
  | .other _ buffer polls => 2 * buffer.length ≤ drains polls

/-- The system calls that are left at most, for files of `total` bytes of which `out` are out. -/
def turnsLeft (total out : Nat) : Stage → Nat
  | .opening _ rest => 2 * (total - out) + 4 * rest.length + 4
  | .reading _ rest => 2 * (total - out) + 4 * (rest.getD []).length + 3
  | .writing _ rest buffer => 2 * (total - (out + buffer.length)) + 4 * (rest.getD []).length + 4
  | .closing _ rest => 2 * (total - out) + 4 * rest.length + 2
  | .failing _ => 1
  | .exited _ => 0

/-- A turn of the process. -/
def Turn.runs (pid : Nat) : Turn → Bool
  | .run pid' _ _ => pid' = pid
  | .other _ _ _ => false

/-- The descriptor that a `cat` reads from. -/
def Stage.uses (fd : UInt32) : Stage → Prop
  | .reading fd' _ => fd' = fd
  | .writing fd' _ _ => fd' = fd
  | _ => False

/-- A `cat` without arguments. -/
def Stdin : Stage → Prop
  | .reading fd rest => fd = 0 ∧ rest = none
  | .writing fd rest _ => fd = 0 ∧ rest = none
  | .exited _ => True
  | _ => False

/-- The invariant, with the readers of all descriptors. -/
structure Inv (d : Ramdisk) (main : Dir) (cwd : Nat → List Dir) (currentDir : Nat → UInt32)
    (argv : Nat → List Path) (sent : List UInt8) (w : World) (readers : List Reader) : Prop where
  root : At d [main] w.files.rootDir
  dirs : ∀ pid, At d (cwd pid) (currentDir pid)
  reads : Reads d ⟨w.files, readers⟩
  room : w.uart.fifo.length ≤ fifoSize
  serial : w.uart.accepted = sent ++ w.line
  progress : ∀ pid, argv pid ≠ [] →
    Progress main (cwd pid) w.files readers (argv pid) (w.output pid) (w.stage pid)
  stdin : ∀ pid, argv pid = [] → Stdin (w.stage pid)
  apart : ∀ pid pid' fd, pid ≠ pid' → 3 ≤ fd.toNat → (w.stage pid).uses fd →
    ¬(w.stage pid').uses fd

variable {d : Ramdisk} {main : Dir} {cwd : Nat → List Dir} {currentDir : Nat → UInt32}
  {argv : Nat → List Path} {sent : List UInt8} {w w' : World} {readers readers' : List Reader}
  {pid pid' : Nat} {polls : List Nat} {buffer : List UInt8} {result fd : UInt32} {f f' : State}

/-! ## Writes -/

/-- What a `write` changes. -/
theorem write_eq (hroom : w.uart.fifo.length ≤ fifoSize)
    (h : w.write pid polls buffer = some (result, w')) :
    result = UInt32.ofNat buffer.length ∧ w'.files = w.files ∧ w'.stage = w.stage ∧
      w'.written = w.written ++ [(pid, buffer)] ∧ w'.uart.accepted = w.uart.accepted ++ crlf buffer ∧
      w'.uart.fifo.length ≤ fifoSize := by
  obtain ⟨⟨result', uart⟩, hwrite, h⟩ := Option.map_eq_some_iff.mp h
  cases h
  obtain ⟨hresult, haccepted, hroom'⟩ := write_sends (.inl rfl) hroom hwrite
  exact ⟨hresult, rfl, rfl, rfl, haccepted, hroom'⟩

theorem output_append (h : w'.written = w.written ++ [(pid, buffer)]) (pid' : Nat) :
    w'.output pid' = w.output pid' ++ if pid = pid' then buffer else [] := by
  rw [World.output, World.output, h, List.filter_append, List.flatMap_append]
  by_cases heq : pid = pid' <;> simp [heq]

theorem line_append (h : w'.written = w.written ++ [(pid, buffer)]) :
    w'.line = w.line ++ crlf buffer := by
  rw [World.line, World.line, h, List.flatMap_append, List.flatMap_singleton]

/-! ## Descriptors -/

theorem read_valid {d : Ramdisk} {console : UInt32 × List UInt8} {count : UInt32} {bytes : List UInt8}
    (h : Files.read d f console fd count = some (result, bytes, f')) (j : Nat) :
    (f'.fdTable j).valid = (f.fdTable j).valid := by
  unfold Files.read at h
  split at h
  · cases h
    rfl
  split at h
  · cases h
    rfl
  split at h
  · cases h
    rfl
  obtain ⟨⟨result', bytes'⟩, -, h⟩ := Option.bind_eq_some_iff.mp h
  simp only at h
  split at h
  · cases h
    by_cases hj : j = fd.toNat
    · simp [hj]
    · simp [Function.update_of_ne hj]
  · cases h
    rfl

/-- `open` on a file that is there fails only when all descriptors are in use, and then changes
nothing. -/
theorem openFile_full {dir inode : UInt32} {pathname : List UInt8}
    (hpath : getInode d f dir pathname = some inode) (hfound : ¬isNeg inode)
    (h : openFile d f dir pathname = some (fd, f')) :
    (isNeg fd → Full f) ∧ (Full f → f' = f) := by
  simp only [openFile, hpath, Option.bind_eq_bind, Option.bind_some, if_neg hfound] at h
  cases h
  constructor
  · intro hneg
    rcases exists_free f.fdTable with ⟨k, hk, hfree, htaken⟩ | hfull
    · rw [fdAllocate_eq hk hfree htaken] at hneg
      exact absurd hneg (not_isNeg_ofNat hk)
    · exact hfull
  · intro hfull
    rw [fdAllocate_full hfull]

/-! ## The other processes -/

/-- A `cat` goes on as long as its own descriptor is left alone. -/
theorem Progress.mono {cwd : List Dir} {paths : List Path} {out : List UInt8} {stage : Stage}
    (h : Progress main cwd f readers paths out stage) (hfull : Full f → Full f')
    (hreaders : ∀ r ∈ readers, stage.uses r.fd → r ∈ readers') :
    Progress main cwd f' readers' paths out stage := by
  cases stage with
  | opening pathname rest => exact h
  | reading fd rest =>
    obtain ⟨before, path, after, hpaths, hrest, r, hr, hfd, hdata, hout⟩ := h
    exact ⟨before, path, after, hpaths, hrest, r, hreaders r hr hfd.symm, hfd, hdata, hout⟩
  | writing fd rest buffer =>
    obtain ⟨before, path, after, hpaths, hrest, hbuffer, r, hr, hfd, hdata, hout⟩ := h
    exact ⟨before, path, after, hpaths, hrest, hbuffer, r, hreaders r hr hfd.symm, hfd, hdata, hout⟩
  | closing fd rest => exact h
  | failing pathname =>
    obtain ⟨before, path, after, hpaths, hpathname, hout, hf⟩ := h
    exact ⟨before, path, after, hpaths, hpathname, hout, hfull hf⟩
  | exited status =>
    rcases h with h | ⟨hstatus, hf, h⟩
    · exact .inl h
    · exact .inr ⟨hstatus, hfull hf, h⟩

/-- A `cat` with files uses a descriptor of a reader. -/
theorem Progress.reader {cwd : List Dir} {paths : List Path} {out : List UInt8} {stage : Stage}
    (h : Progress main cwd f readers paths out stage) (huses : stage.uses fd) :
    fd ∈ readers.map Reader.fd := by
  cases stage with
  | reading fd' rest =>
    obtain ⟨before, path, after, -, -, r, hr, hfd, -⟩ := h
    exact List.mem_map.mpr ⟨r, hr, hfd.trans huses⟩
  | writing fd' rest buffer =>
    obtain ⟨before, path, after, -, -, -, r, hr, hfd, -⟩ := h
    exact List.mem_map.mpr ⟨r, hr, hfd.trans huses⟩
  | opening pathname rest => exact huses.elim
  | closing fd' rest => exact huses.elim
  | failing pathname => exact huses.elim
  | exited status => exact huses.elim

theorem Stdin.uses_lt {stage : Stage} (h : Stdin stage) (huses : stage.uses fd) : fd.toNat < 3 := by
  cases stage with
  | reading fd' rest => exact (h.1.symm.trans huses) ▸ by decide
  | writing fd' rest buffer => exact (h.1.symm.trans huses) ▸ by decide
  | opening pathname rest => exact huses.elim
  | closing fd' rest => exact huses.elim
  | failing pathname => exact huses.elim
  | exited status => exact huses.elim

/-- The descriptors above 2 that a process uses have readers. -/
theorem Inv.reader (h : Inv d main cwd currentDir argv sent w readers) (hfd : 3 ≤ fd.toNat)
    (huses : (w.stage pid).uses fd) : fd ∈ readers.map Reader.fd := by
  by_cases hargv : argv pid = []
  · exact absurd ((h.stdin pid hargv).uses_lt huses) (by omega)
  · exact (h.progress pid hargv).reader huses

/-- One process has a step, and the others stay as they are. -/
theorem Inv.step_of (h : Inv d main cwd currentDir argv sent w readers)
    (hroot : w'.files.rootDir = w.files.rootDir) (hreads : Reads d ⟨w'.files, readers'⟩)
    (hroom : w'.uart.fifo.length ≤ fifoSize) (hserial : w'.uart.accepted = sent ++ w'.line)
    (hstage : ∀ pid' ≠ pid, w'.stage pid' = w.stage pid')
    (houtput : ∀ pid' ≠ pid, w'.output pid' = w.output pid')
    (hfull : Full w.files → Full w'.files)
    (hreaders : ∀ r ∈ readers, ¬(w.stage pid).uses r.fd → r ∈ readers')
    (hprogress : argv pid ≠ [] →
      Progress main (cwd pid) w'.files readers' (argv pid) (w'.output pid) (w'.stage pid))
    (hstdin : argv pid = [] → Stdin (w'.stage pid))
    (huses : ∀ fd, (w'.stage pid).uses fd → (w.stage pid).uses fd ∨ fd ∉ readers.map Reader.fd) :
    Inv d main cwd currentDir argv sent w' readers' where
  root := hroot ▸ h.root
  dirs := h.dirs
  reads := hreads
  room := hroom
  serial := hserial
  progress pid' hargv := by
    by_cases heq : pid' = pid
    · exact heq ▸ hprogress (heq ▸ hargv)
    · rw [hstage pid' heq, houtput pid' heq]
      exact (h.progress pid' hargv).mono hfull fun r hr hr' => hreaders r hr fun hown =>
        h.apart pid' pid r.fd heq (h.reads.used r hr) hr' hown
  stdin pid' hargv := by
    by_cases heq : pid' = pid
    · exact heq ▸ hstdin (heq ▸ hargv)
    · rw [hstage pid' heq]
      exact h.stdin pid' hargv
  apart pid₁ pid₂ fd hne hfd h₁ h₂ := by
    -- a descriptor that the process starts to use is a new one
    have hfresh : ∀ pid', pid' ≠ pid → (w'.stage pid).uses fd → ¬(w.stage pid').uses fd := by
      intro pid' hpid' hnew hold
      rcases huses fd hnew with hsame | hfresh
      · exact h.apart pid pid' fd hpid'.symm hfd hsame hold
      · exact hfresh (h.reader hfd hold)
    by_cases heq₁ : pid₁ = pid
    · subst heq₁
      rw [hstage pid₂ hne.symm] at h₂
      exact hfresh pid₂ hne.symm h₁ h₂
    · rw [hstage pid₁ heq₁] at h₁
      by_cases heq₂ : pid₂ = pid
      · subst heq₂
        exact hfresh pid₁ heq₁ h₂ h₁
      · rw [hstage pid₂ heq₂] at h₂
        exact h.apart pid₁ pid₂ fd hne hfd h₁ h₂

/-! ## One call of one process -/

theorem stage_move (w : World) (pid : Nat) (stage : Stage) : (w.move pid stage).stage pid = stage :=
  Function.update_self _ _ _

theorem stage_move_of_ne (w : World) (stage : Stage) (h : pid' ≠ pid) :
    (w.move pid stage).stage pid' = w.stage pid' :=
  Function.update_of_ne h _ _

theorem text_append (cwd : List Dir) (before after : List Path) :
    text main cwd (before ++ after) = text main cwd before ++ text main cwd after :=
  List.flatMap_append

theorem text_concat (cwd : List Dir) (before : List Path) (path : Path) :
    text main cwd (before ++ [path]) = text main cwd before ++ hostData main cwd path := by
  rw [text_append]
  exact congrArg _ (List.flatMap_singleton _ _)

/-- `open` finds the file of the host. -/
theorem Inv.opensFile (h : Inv d main cwd currentDir argv sent w readers)
    (hlength : d.length.toNat < 2 ^ 31) {path : Path} (hregular : IsRegular main (cwd pid) path) :
    ∃ inode, getInode d w.files (currentDir pid) path.bytes = some inode ∧ ¬isNeg inode ∧
      IsFile d inode (hostData main (cwd pid) path) := by
  obtain ⟨hvalid, hostStat, dirs, hresolve, hreg⟩ := hregular
  obtain ⟨dirs', hdirs, -⟩ := Option.bind_eq_some_iff.mp hresolve
  have hfinds := getInode_path hlength h.root (h.dirs pid) hvalid hdirs
  obtain ⟨target, htarget, hpos, hstored, -⟩ := hfinds.found _ _ hresolve
  refine ⟨target, htarget, hpos, ?_⟩
  rw [hostData, hresolve]
  exact hstored.isFile hreg

theorem Inv.opening (h : Inv d main cwd currentDir argv sent w readers)
    (hlength : d.length.toNat < 2 ^ 31)
    (hargs : ∀ pid, ∀ path ∈ argv pid, IsRegular main (cwd pid) path) {pathname : List UInt8}
    {rest : List (List UInt8)} (hstage : w.stage pid = .opening pathname rest)
    {console : UInt32 × List UInt8} (hstep : step d currentDir w (.run pid console polls) = some w') :
    ∃ readers', Inv d main cwd currentDir argv sent w' readers' := by
  have hargv : argv pid ≠ [] := fun hargv => by
    have hstdin := h.stdin pid hargv
    rw [hstage] at hstdin
    exact hstdin
  have hprogress := h.progress pid hargv
  rw [hstage] at hprogress
  obtain ⟨before, path, after, hpaths, rfl, rfl, hout⟩ := hprogress
  obtain ⟨inode, hpath, hfound, hfile⟩ := h.opensFile hlength
    (hargs pid path (hpaths ▸ List.mem_append_right _ List.mem_cons_self))
  simp only [step, hstage] at hstep
  obtain ⟨⟨fd, files⟩, hopen, rfl⟩ := Option.map_eq_some_iff.mp hstep
  have hsession : Reading.step d console ⟨w.files, readers⟩
      (.open (currentDir pid) path.bytes (hostData main (cwd pid) path)) = some ⟨files,
        if isNeg fd then readers
        else ⟨fd, currentDir pid, path.bytes, hostData main (cwd pid) path, []⟩ :: readers⟩ := by
    rw [Reading.step, hopen, Option.map_some]
  have hallowed : Reading.Allowed d ⟨w.files, readers⟩
      (.open (currentDir pid) path.bytes (hostData main (cwd pid) path)) := ⟨inode, hpath, hfile⟩
  have hreads := reads_step h.reads hallowed hsession
  obtain ⟨hneg, hfull⟩ := openFile_full hpath hfound hopen
  have hfiles : Full w.files → Full files := fun hf => (hfull hf).symm ▸ hf
  refine ⟨_, h.step_of (step_rootDir hsession) hreads h.room h.serial
    (fun pid' hne => stage_move_of_ne _ _ hne) (fun _ _ => rfl) hfiles (fun r hr _ => ?_)
    (fun _ => ?_) (fun hnone => absurd hnone hargv) fun fd' huses => ?_⟩
  · split
    · exact hr
    · exact List.mem_cons_of_mem _ hr
  · rw [stage_move]
    split
    · next hfd => exact ⟨before, path, after, hpaths, rfl, hout, hfiles (hneg hfd)⟩
    · exact ⟨before, path, after, hpaths, rfl, _, List.mem_cons_self, rfl, rfl,
        hout.trans (List.append_nil _).symm⟩
  · rw [stage_move] at huses
    split at huses
    · exact huses.elim
    · next hfd =>
      rw [if_neg hfd] at hreads
      have hsame : fd = fd' := huses
      exact .inr fun hmem => (List.nodup_cons.mp hreads.apart).1 (hsame ▸ hmem)

theorem Inv.reading (h : Inv d main cwd currentDir argv sent w readers)
    {rest : Option (List (List UInt8))} (hstage : w.stage pid = .reading fd rest)
    {console : UInt32 × List UInt8} (hstep : step d currentDir w (.run pid console polls) = some w') :
    ∃ readers', Inv d main cwd currentDir argv sent w' readers' := by
  simp only [step, hstage] at hstep
  obtain ⟨⟨result, bytes, files⟩, hread, rfl⟩ := Option.map_eq_some_iff.mp hstep
  have huses : ∀ fd', (if isNeg result ∨ result = 0 then afterCat fd rest
      else Stage.writing fd rest (bytes.take result.toNat)).uses fd' → (w.stage pid).uses fd' := by
    intro fd' huses
    rw [hstage]
    split at huses
    · cases rest with
      | none => exact huses.elim
      | some rest => exact huses.elim
    · exact huses
  have hfull : Full w.files → Full files := fun hf j hj => read_valid hread j ▸ hf j hj
  by_cases hargv : argv pid = []
  · have hstdin := h.stdin pid hargv
    rw [hstage] at hstdin
    obtain ⟨rfl, rfl⟩ := hstdin
    rw [Files.read, if_pos rfl] at hread
    cases hread
    refine ⟨readers, h.step_of rfl h.reads h.room h.serial
      (fun pid' hne => stage_move_of_ne _ _ hne) (fun _ _ => rfl) id (fun r hr _ => hr)
      (fun hsome => absurd hargv hsome) (fun _ => ?_) fun fd' huses' => .inl (huses fd' ?_)⟩
    · rw [stage_move]
      split
      · trivial
      · exact ⟨rfl, rfl⟩
    · rwa [stage_move] at huses'
  · have hprogress := h.progress pid hargv
    rw [hstage] at hprogress
    obtain ⟨before, path, after, hpaths, rfl, r, hr, rfl, hdata, hout⟩ := hprogress
    obtain ⟨inode, hpos⟩ := h.reads.positioned r hr
    have hsession : Reading.step d console ⟨w.files, readers⟩ (.read r.fd bufSize) =
        some ⟨files, readers.map (·.got r.fd result bytes)⟩ := by
      rw [Reading.step, hread, Option.map_some]
    have hreads := reads_step h.reads (List.mem_map_of_mem hr) hsession
    have hresult := (read_eq console bufSize hpos (h.reads.used r hr)).symm.trans hread
    obtain ⟨hresult, hbytes, -⟩ : UInt32.ofNat (r.next bufSize) = result ∧
        (r.data.drop r.returned.length).take (r.next bufSize) = bytes ∧ _ := by simpa using hresult
    have hnat : result.toNat = r.next bufSize := hresult ▸ r.toNat_next bufSize
    have hnext : r.next bufSize ≤ 128 := Nat.min_le_left _ _
    have hnotneg : ¬isNeg result := by
      rw [isNeg, hnat]
      omega
    refine ⟨_, h.step_of (step_rootDir hsession) hreads h.room h.serial
      (fun pid' hne => stage_move_of_ne _ _ hne) (fun _ _ => rfl) hfull (fun r' hr' hother => ?_)
      (fun _ => ?_) (fun hnone => absurd hnone hargv) fun fd' huses' => .inl (huses fd' ?_)⟩
    · rw [hstage] at hother
      exact List.mem_map.mpr ⟨r', hr', Reader.got_of_ne fun heq => hother heq.symm⟩
    · rw [stage_move]
      by_cases hzero : result = 0
      · have hend : r.returned = r.data := hpos.at_end (by decide) (hresult.trans hzero)
        rw [if_pos (.inr hzero)]
        refine ⟨before ++ [path], after, by rw [hpaths, List.append_assoc]; rfl, rfl, ?_⟩
        rw [text_concat, ← hdata, ← hend]
        exact hout
      · have hle : r.next bufSize ≤ r.data.length - r.returned.length := Nat.min_le_right _ _
        have hlen : (bytes.take result.toNat).length = r.next bufSize := by
          rw [← hbytes, hnat, List.length_take, List.length_take, List.length_drop]
          omega
        rw [if_neg fun hor => hor.elim hnotneg hzero]
        refine ⟨before, path, after, hpaths, rfl, ⟨fun hnil => hzero ?_, ?_⟩, _,
          List.mem_map_of_mem hr, r.got_fd _ _ _, ?_, ?_⟩
        · rw [← UInt32.toNat_inj, hnat, ← hlen, hnil]
          rfl
        · rw [hlen]
          exact hnext
        · rw [Reader.got, if_pos ⟨rfl, hnotneg⟩]
          exact hdata
        · rw [Reader.got, if_pos ⟨rfl, hnotneg⟩, ← List.append_assoc]
          exact congrArg (· ++ bytes.take result.toNat) hout
    · rwa [stage_move] at huses'

/-- A `write`, with the stage behind it. The descriptors are left alone. -/
theorem Inv.write (h : Inv d main cwd currentDir argv sent w readers) {w₁ : World}
    (hwrite : w.write pid polls buffer = some (result, w₁)) (stage : Stage)
    (hprogress : argv pid ≠ [] →
      Progress main (cwd pid) w.files readers (argv pid) (w.output pid ++ buffer) stage)
    (hstdin : argv pid = [] → Stdin stage)
    (huses : ∀ fd, stage.uses fd → (w.stage pid).uses fd) :
    Inv d main cwd currentDir argv sent (w₁.move pid stage) readers := by
  obtain ⟨-, hfiles, hstage, hwritten, haccepted, hroom⟩ := write_eq h.room hwrite
  have hsame : (w₁.move pid stage).files = w.files := hfiles
  have hmoved : (w₁.move pid stage).written = w.written ++ [(pid, buffer)] := hwritten
  have houtput := output_append hmoved
  refine h.step_of (hsame ▸ rfl) (hsame ▸ h.reads) hroom ?_ (fun pid' hne => ?_) (fun pid' hne => ?_)
    (fun hf => hsame ▸ hf) (fun r hr _ => hr) (fun hargv => ?_) (fun hargv => ?_)
    fun fd hnew => .inl (huses fd ?_)
  · rw [line_append hmoved, ← List.append_assoc, ← h.serial]
    exact haccepted
  · rw [stage_move_of_ne _ _ hne, hstage]
  · rw [houtput, if_neg hne.symm, List.append_nil]
  · rw [stage_move, houtput, if_pos rfl, hsame]
    exact hprogress hargv
  · rw [stage_move]
    exact hstdin hargv
  · rwa [stage_move] at hnew

theorem Inv.writing (h : Inv d main cwd currentDir argv sent w readers)
    {rest : Option (List (List UInt8))} (hstage : w.stage pid = .writing fd rest buffer)
    {console : UInt32 × List UInt8} (hstep : step d currentDir w (.run pid console polls) = some w') :
    Inv d main cwd currentDir argv sent w' readers := by
  simp only [step, hstage] at hstep
  obtain ⟨⟨result, w₁⟩, hwrite, rfl⟩ := Option.map_eq_some_iff.mp hstep
  obtain ⟨hresult, -⟩ := write_eq h.room hwrite
  refine h.write hwrite _ (fun hargv => ?_) (fun hargv => ?_) fun fd' huses => ?_
  · have hprogress := h.progress pid hargv
    rw [hstage] at hprogress
    obtain ⟨before, path, after, hpaths, hrest, ⟨hne, hlen⟩, r, hr, hfd, hdata, hout⟩ := hprogress
    have hpos := List.length_pos_iff.mpr hne
    have hbuf : bufSize.toNat = 128 := rfl
    have hnat : result.toNat = buffer.length :=
      hresult ▸ UInt32.toNat_ofNat_of_lt' (show buffer.length < 2 ^ 32 by omega)
    have hnotneg : ¬isNeg result := by
      rw [isNeg, hnat]
      omega
    have hnonzero : result ≠ 0 := fun hzero => by
      rw [hzero, UInt32.toNat_zero] at hnat
      omega
    rw [if_neg (not_or.mpr ⟨hnotneg, hnonzero⟩)]
    exact ⟨before, path, after, hpaths, hrest, r, hr, hfd, hdata, hout⟩
  · have hstdin := h.stdin pid hargv
    rw [hstage] at hstdin
    obtain ⟨rfl, rfl⟩ := hstdin
    split
    · trivial
    · exact ⟨rfl, rfl⟩
  · rw [hstage]
    split at huses
    · cases rest with
      | none => exact huses.elim
      | some rest => exact huses.elim
    · exact huses

theorem Inv.closing (h : Inv d main cwd currentDir argv sent w readers)
    {rest : List (List UInt8)} (hstage : w.stage pid = .closing fd rest)
    {console : UInt32 × List UInt8} (hstep : step d currentDir w (.run pid console polls) = some w') :
    Inv d main cwd currentDir argv sent w' readers := by
  simp only [step, hstage] at hstep
  cases hstep
  have huses : ∀ fd', ¬(nextArgument rest).uses fd' := by
    intro fd' huses
    cases rest with
    | nil => exact huses.elim
    | cons pathname rest => exact huses.elim
  refine h.step_of rfl h.reads h.room h.serial (fun pid' hne => stage_move_of_ne _ _ hne)
    (fun _ _ => rfl) id (fun r hr _ => hr) (fun hargv => ?_) (fun hargv => ?_)
    fun fd' hnew => absurd hnew ?_
  · have hprogress := h.progress pid hargv
    rw [hstage] at hprogress
    obtain ⟨before, after, hpaths, rfl, hout⟩ := hprogress
    rw [stage_move]
    cases after with
    | nil => exact .inl ⟨rfl, by rw [hpaths, List.append_nil]; exact hout⟩
    | cons path after => exact ⟨before, path, after, hpaths, rfl, rfl, hout⟩
  · have hstdin := h.stdin pid hargv
    rw [hstage] at hstdin
    exact hstdin.elim
  · rw [stage_move]
    exact huses fd'

theorem Inv.failing (h : Inv d main cwd currentDir argv sent w readers) {pathname : List UInt8}
    (hstage : w.stage pid = .failing pathname)
    {console : UInt32 × List UInt8} (hstep : step d currentDir w (.run pid console polls) = some w') :
    Inv d main cwd currentDir argv sent w' readers := by
  simp only [step, hstage] at hstep
  obtain ⟨message, hmessage, hstep⟩ := Option.bind_eq_some_iff.mp hstep
  obtain ⟨⟨result, w₁⟩, hwrite, rfl⟩ := Option.map_eq_some_iff.mp hstep
  refine h.write hwrite _ (fun hargv => ?_) (fun _ => trivial) fun _ huses => huses.elim
  have hprogress := h.progress pid hargv
  rw [hstage] at hprogress
  obtain ⟨before, path, after, hpaths, rfl, hout, hfull⟩ := hprogress
  exact .inr ⟨rfl, hfull, before, path, after, message, hpaths, hmessage, hout ▸ rfl⟩

/-- The turns: no other program writes under the number of a `cat` with files. -/
def Allowed (argv : Nat → List Path) (_ : World) : Turn → Prop
  | .run _ _ _ => True
  | .other pid _ _ => argv pid = []

theorem Inv.step (h : Inv d main cwd currentDir argv sent w readers)
    (hlength : d.length.toNat < 2 ^ 31)
    (hargs : ∀ pid, ∀ path ∈ argv pid, IsRegular main (cwd pid) path) {turn : Turn}
    (hallowed : Allowed argv w turn) (hstep : step d currentDir w turn = some w') :
    ∃ readers', Inv d main cwd currentDir argv sent w' readers' := by
  cases turn with
  | run pid console polls =>
    cases hstage : w.stage pid with
    | opening pathname rest => exact h.opening hlength hargs hstage hstep
    | reading fd rest => exact h.reading hstage hstep
    | writing fd rest buffer => exact ⟨readers, h.writing hstage hstep⟩
    | closing fd rest => exact ⟨readers, h.closing hstage hstep⟩
    | failing pathname => exact ⟨readers, h.failing hstage hstep⟩
    | exited status =>
      simp only [Cat.step, hstage] at hstep
      cases hstep
      exact ⟨readers, h⟩
  | other pid buffer polls =>
    obtain ⟨⟨result, w₁⟩, hwrite, rfl⟩ := Option.map_eq_some_iff.mp hstep
    obtain ⟨-, -, hstage, -⟩ := write_eq h.room hwrite
    have hmove := h.write hwrite (w.stage pid) (fun hargv => absurd hallowed hargv)
      (fun hargv => h.stdin pid hargv) fun _ huses => huses
    rw [World.move, ← hstage, Function.update_eq_self] at hmove
    exact ⟨readers, hmove⟩

/-! ## What comes out -/

theorem text_begins (cwd : List Dir) (before : List Path) (path : Path) (after : List Path)
    {read : List UInt8} (h : read <+: hostData main cwd path) :
    text main cwd before ++ read <+: text main cwd (before ++ path :: after) := by
  rw [text_append]
  exact (List.prefix_append_right_inj _).mpr (h.trans (List.prefix_append _ _))

theorem Progress.shown {cwd : List Dir} {paths : List Path} {out : List UInt8} {stage : Stage}
    (h : Progress main cwd f readers paths out stage) (hreads : Reads d ⟨f, readers⟩) :
    Shown main cwd f paths out stage := by
  cases stage with
  | opening pathname rest =>
    obtain ⟨before, path, after, rfl, -, -, rfl⟩ := h
    show text main cwd before <+: _
    rw [text_append]
    exact List.prefix_append _ _
  | reading fd rest =>
    obtain ⟨before, path, after, rfl, -, r, hr, -, hdata, rfl⟩ := h
    obtain ⟨inode, hpos⟩ := hreads.positioned r hr
    exact text_begins cwd before path after (hdata ▸ hpos.got)
  | writing fd rest buffer =>
    obtain ⟨before, path, after, rfl, -, -, r, hr, -, hdata, hout⟩ := h
    obtain ⟨inode, hpos⟩ := hreads.positioned r hr
    exact (hout ▸ List.prefix_append out buffer).trans
      (text_begins cwd before path after (hdata ▸ hpos.got))
  | closing fd rest =>
    obtain ⟨before, after, rfl, -, rfl⟩ := h
    show text main cwd before <+: _
    rw [text_append]
    exact List.prefix_append _ _
  | failing pathname =>
    obtain ⟨before, path, after, rfl, -, rfl, -⟩ := h
    show text main cwd before <+: _
    rw [text_append]
    exact List.prefix_append _ _
  | exited status => exact h

theorem Inv.prints (h : Inv d main cwd currentDir argv sent w readers) :
    Prints main cwd argv sent w :=
  ⟨h.serial, h.room, fun pid hargv => (h.progress pid hargv).shown h.reads⟩

/-! ## Completion -/

theorem write_isSome (hroom : w.uart.fifo.length ≤ fifoSize) (h : 2 * buffer.length ≤ drains polls) :
    (w.write pid polls buffer).isSome := by
  rw [World.write, Option.isSome_map]
  exact write_completes 1 hroom h

/-- A system call completes if the UART goes on sending. -/
theorem Inv.completes (h : Inv d main cwd currentDir argv sent w readers)
    (hlength : d.length.toNat < 2 ^ 31)
    (hargs : ∀ pid, ∀ path ∈ argv pid, IsRegular main (cwd pid) path) {turn : Turn}
    (hpaced : Paced w turn) : (Cat.step d currentDir w turn).isSome := by
  cases turn with
  | run pid console polls =>
    cases hstage : w.stage pid with
    | opening pathname rest =>
      simp only [Cat.step, hstage, Option.isSome_map]
      by_cases hargv : argv pid = []
      · have hstdin := h.stdin pid hargv
        rw [hstage] at hstdin
        exact hstdin.elim
      · have hprogress := h.progress pid hargv
        rw [hstage] at hprogress
        obtain ⟨before, path, after, hpaths, rfl, -⟩ := hprogress
        obtain ⟨inode, hpath, hfound, -⟩ := h.opensFile hlength
          (hargs pid path (hpaths ▸ List.mem_append_right _ List.mem_cons_self))
        simp only [openFile, hpath, Option.bind_eq_bind, Option.bind_some, if_neg hfound,
          Option.isSome_some]
    | reading fd rest =>
      simp only [Cat.step, hstage, Option.isSome_map]
      by_cases hargv : argv pid = []
      · have hstdin := h.stdin pid hargv
        rw [hstage] at hstdin
        rw [hstdin.1, Files.read, if_pos rfl]
        rfl
      · have hprogress := h.progress pid hargv
        rw [hstage] at hprogress
        obtain ⟨-, -, -, -, -, r, hr, rfl, -⟩ := hprogress
        obtain ⟨inode, hpos⟩ := h.reads.positioned r hr
        rw [read_eq console bufSize hpos (h.reads.used r hr)]
        rfl
    | writing fd rest buffer =>
      rw [Paced, hstage] at hpaced
      simp only [Cat.step, hstage, Option.isSome_map]
      exact write_isSome h.room hpaced
    | closing fd rest => simp only [Cat.step, hstage, Option.isSome_some]
    | failing pathname =>
      rw [Paced, hstage] at hpaced
      have hmessage : ∃ message, errorText pathname = some message := ⟨_, vsprintf_eq _ _⟩
      obtain ⟨message, hmessage⟩ := hmessage
      simp only [Cat.step, hstage, hmessage, Option.bind_some, Option.isSome_map]
      exact write_isSome h.room (hpaced message hmessage)
    | exited status => simp only [Cat.step, hstage, Option.isSome_some]
  | other pid buffer polls =>
    rw [Cat.step, Option.isSome_map]
    exact write_isSome h.room hpaced

/-! ## Termination -/

/-- The system calls that are left for a process. -/
def World.left (main : Dir) (cwd : Nat → List Dir) (argv : Nat → List Path) (w : World) (pid : Nat) :
    Nat :=
  turnsLeft (text main (cwd pid) (argv pid)).length (w.output pid).length (w.stage pid)

/-- The bytes in the buffer are still to come. -/
theorem Progress.pending {cwd : List Dir} {paths : List Path} {out : List UInt8}
    {rest : Option (List (List UInt8))}
    (h : Progress main cwd f readers paths out (.writing fd rest buffer))
    (hreads : Reads d ⟨f, readers⟩) :
    0 < buffer.length ∧ out.length + buffer.length ≤ (text main cwd paths).length := by
  obtain ⟨before, path, after, rfl, -, ⟨hne, -⟩, r, hr, -, hdata, hout⟩ := h
  obtain ⟨inode, hpos⟩ := hreads.positioned r hr
  refine ⟨List.length_pos_iff.mpr hne, ?_⟩
  rw [← List.length_append, hout]
  exact (text_begins cwd before path after (hdata ▸ hpos.got)).length_le

/-- The turn of a process leaves it with fewer calls. -/
theorem Inv.left_run (h : Inv d main cwd currentDir argv sent w readers)
    (h' : Inv d main cwd currentDir argv sent w' readers') (hargv : argv pid ≠ [])
    {console : UInt32 × List UInt8}
    (hstep : Cat.step d currentDir w (.run pid console polls) = some w') :
    w'.left main cwd argv pid ≤ w.left main cwd argv pid - 1 := by
  have hprogress := h.progress pid hargv
  have hprogress' := h'.progress pid hargv
  unfold World.left
  cases hstage : w.stage pid with
  | opening pathname rest =>
    simp only [Cat.step, hstage] at hstep
    obtain ⟨⟨fd, files⟩, -, rfl⟩ := Option.map_eq_some_iff.mp hstep
    rw [stage_move]
    change turnsLeft _ (w.output pid).length _ ≤ _
    split
    · simp only [turnsLeft]
      omega
    · simp only [turnsLeft, Option.getD_some]
      omega
  | reading fd rest =>
    rw [hstage] at hprogress
    obtain ⟨before, path, after, -, rfl, -⟩ := hprogress
    simp only [Cat.step, hstage] at hstep
    obtain ⟨⟨result, bytes, files⟩, -, rfl⟩ := Option.map_eq_some_iff.mp hstep
    rw [stage_move] at hprogress' ⊢
    change turnsLeft _ (w.output pid).length _ ≤ _
    split
    · simp only [afterCat, turnsLeft, Option.getD_some]
      omega
    · next hfound =>
      rw [if_neg hfound] at hprogress'
      obtain ⟨hpos, hle⟩ := hprogress'.pending h'.reads
      change (w.output pid).length + (bytes.take result.toNat).length ≤ _ at hle
      change 0 < (bytes.take result.toNat).length at hpos
      simp only [turnsLeft, Option.getD_some]
      omega
  | writing fd rest buffer =>
    rw [hstage] at hprogress
    obtain ⟨before, path, after, -, rfl, -⟩ := hprogress
    simp only [Cat.step, hstage] at hstep
    obtain ⟨⟨result, w₁⟩, hwrite, rfl⟩ := Option.map_eq_some_iff.mp hstep
    obtain ⟨-, -, -, hwritten, -⟩ := write_eq h.room hwrite
    rw [stage_move]
    change turnsLeft _ (w₁.output pid).length _ ≤ _
    rw [output_append hwritten, if_pos rfl, List.length_append]
    split
    · simp only [afterCat, turnsLeft, Option.getD_some]
      omega
    · simp only [turnsLeft, Option.getD_some]
      omega
  | closing fd rest =>
    simp only [Cat.step, hstage] at hstep
    cases hstep
    rw [stage_move]
    change turnsLeft _ (w.output pid).length _ ≤ _
    cases rest with
    | nil => exact Nat.zero_le _
    | cons pathname rest =>
      simp only [nextArgument, turnsLeft, List.length_cons]
      omega
  | failing pathname =>
    simp only [Cat.step, hstage] at hstep
    obtain ⟨message, -, hstep⟩ := Option.bind_eq_some_iff.mp hstep
    obtain ⟨⟨result, w₁⟩, -, rfl⟩ := Option.map_eq_some_iff.mp hstep
    rw [stage_move]
    exact Nat.zero_le _
  | exited status =>
    simp only [Cat.step, hstage] at hstep
    cases hstep
    rw [hstage]
    exact Nat.zero_le _

/-- The turn of another process changes neither the output nor the stage. -/
theorem step_other (hroom : w.uart.fifo.length ≤ fifoSize) (hargv : argv pid ≠ []) {turn : Turn}
    (hallowed : Allowed argv w turn) (hruns : ¬turn.runs pid)
    (hstep : Cat.step d currentDir w turn = some w') :
    w'.stage pid = w.stage pid ∧ w'.output pid = w.output pid := by
  have hwrite : ∀ {pid' buffer polls result w₁}, pid' ≠ pid →
      w.write pid' polls buffer = some (result, w₁) →
      w₁.stage pid = w.stage pid ∧ w₁.output pid = w.output pid := by
    intro pid' buffer polls result w₁ hne hwrite
    obtain ⟨-, -, hstage, hwritten, -⟩ := write_eq hroom hwrite
    rw [hstage, output_append hwritten, if_neg hne, List.append_nil]
    exact ⟨rfl, rfl⟩
  cases turn with
  | run pid' console polls =>
    have hne : pid ≠ pid' := fun heq => hruns (by simp [Turn.runs, heq])
    cases hstage : w.stage pid' with
    | opening pathname rest =>
      simp only [Cat.step, hstage] at hstep
      obtain ⟨⟨fd, files⟩, -, rfl⟩ := Option.map_eq_some_iff.mp hstep
      exact ⟨stage_move_of_ne _ _ hne, rfl⟩
    | reading fd rest =>
      simp only [Cat.step, hstage] at hstep
      obtain ⟨⟨result, bytes, files⟩, -, rfl⟩ := Option.map_eq_some_iff.mp hstep
      exact ⟨stage_move_of_ne _ _ hne, rfl⟩
    | writing fd rest buffer =>
      simp only [Cat.step, hstage] at hstep
      obtain ⟨⟨result, w₁⟩, hw₁, rfl⟩ := Option.map_eq_some_iff.mp hstep
      obtain ⟨hsame, houtput⟩ := hwrite hne.symm hw₁
      exact ⟨(stage_move_of_ne _ _ hne).trans hsame, houtput⟩
    | closing fd rest =>
      simp only [Cat.step, hstage] at hstep
      cases hstep
      exact ⟨stage_move_of_ne _ _ hne, rfl⟩
    | failing pathname =>
      simp only [Cat.step, hstage] at hstep
      obtain ⟨message, -, hstep⟩ := Option.bind_eq_some_iff.mp hstep
      obtain ⟨⟨result, w₁⟩, hw₁, rfl⟩ := Option.map_eq_some_iff.mp hstep
      obtain ⟨hsame, houtput⟩ := hwrite hne.symm hw₁
      exact ⟨(stage_move_of_ne _ _ hne).trans hsame, houtput⟩
    | exited status =>
      simp only [Cat.step, hstage] at hstep
      cases hstep
      exact ⟨rfl, rfl⟩
  | other pid' buffer polls =>
    obtain ⟨⟨result, w₁⟩, hw₁, rfl⟩ := Option.map_eq_some_iff.mp hstep
    exact hwrite (fun heq => hargv (heq ▸ hallowed)) hw₁

/-- Every turn of a process counts. -/
theorem Inv.left_step (h : Inv d main cwd currentDir argv sent w readers)
    (h' : Inv d main cwd currentDir argv sent w' readers') (hargv : argv pid ≠ []) {turn : Turn}
    (hallowed : Allowed argv w turn) (hstep : Cat.step d currentDir w turn = some w') :
    w'.left main cwd argv pid ≤ w.left main cwd argv pid - if turn.runs pid then 1 else 0 := by
  split
  · next hruns =>
    cases turn with
    | run pid' console polls =>
      have heq : pid' = pid := by simpa [Turn.runs] using hruns
      subst heq
      exact h.left_run h' hargv hstep
    | other pid' buffer polls => simp [Turn.runs] at hruns
  · next hruns =>
    obtain ⟨hstage, houtput⟩ := step_other h.room hargv hallowed hruns hstep
    rw [World.left, World.left, hstage, houtput]
    exact le_refl _

/-! ## Runs -/

/-- The invariant, for some readers. -/
def Kept (d : Ramdisk) (main : Dir) (cwd : Nat → List Dir) (currentDir : Nat → UInt32)
    (argv : Nat → List Path) (sent : List UInt8) (w : World) : Prop :=
  ∃ readers, Inv d main cwd currentDir argv sent w readers

theorem Kept.step (h : Kept d main cwd currentDir argv sent w) (hlength : d.length.toNat < 2 ^ 31)
    (hargs : ∀ pid, ∀ path ∈ argv pid, IsRegular main (cwd pid) path) {turn : Turn}
    (hallowed : Allowed argv w turn) (hstep : Cat.step d currentDir w turn = some w') :
    Kept d main cwd currentDir argv sent w' := by
  obtain ⟨readers, h⟩ := h
  exact h.step hlength hargs hallowed hstep

theorem Kept.left_step (h : Kept d main cwd currentDir argv sent w)
    (hlength : d.length.toNat < 2 ^ 31)
    (hargs : ∀ pid, ∀ path ∈ argv pid, IsRegular main (cwd pid) path) (hargv : argv pid ≠ [])
    {turn : Turn} (hallowed : Allowed argv w turn)
    (hstep : Cat.step d currentDir w turn = some w') :
    w'.left main cwd argv pid ≤ w.left main cwd argv pid - if turn.runs pid then 1 else 0 := by
  obtain ⟨readers, hw⟩ := h
  obtain ⟨readers', hw'⟩ := hw.step hlength hargs hallowed hstep
  exact hw.left_step hw' hargv hallowed hstep

/-- The invariant at the start, with the readers that the descriptors had before. -/
theorem inv_start {w₀ : Genromfs.World} (h : Follows d main w₀) {uart : Uart}
    (hroom : uart.fifo.length ≤ fifoSize) (argv : Nat → List Path) :
    Inv d main w₀.cwd w₀.currentDir argv uart.accepted
      (start w₀.session.files uart fun pid => (argv pid).map Path.bytes) w₀.session.readers where
  root := h.root
  dirs := h.cwd
  reads := h.reads
  room := hroom
  serial := (List.append_nil _).symm
  progress pid hargv := by
    obtain ⟨path, after, hpaths⟩ := List.exists_cons_of_ne_nil hargv
    simp only [start, hpaths]
    exact ⟨[], path, after, rfl, rfl, rfl, rfl⟩
  stdin pid hargv := by
    simp only [start, hargv]
    exact ⟨rfl, rfl⟩
  apart pid pid' fd _ hfd huses _ := by
    simp only [start] at huses
    cases hargv : argv pid with
    | nil =>
      rw [hargv] at huses
      have hzero : 0 = fd := huses
      subst hzero
      exact absurd hfd (by decide)
    | cons path after =>
      rw [hargv] at huses
      exact huses

theorem left_start {path : Path} {after : List Path} (hargv : argv pid = path :: after) (uart : Uart) :
    (start f uart fun pid => (argv pid).map Path.bytes).left main cwd argv pid =
      2 * (text main (cwd pid) (argv pid)).length + 4 * (argv pid).length := by
  simp only [World.left, start, World.output, hargv, List.map_cons, Cat.main, turnsLeft,
    List.length_map, List.length_cons]
  rfl

theorem exited_of_turnsLeft {total out : Nat} {stage : Stage} (h : turnsLeft total out stage = 0) :
    ∃ status, stage = .exited status := by
  cases stage with
  | exited status => exact ⟨status, rfl⟩
  | opening pathname rest => simp [turnsLeft] at h
  | reading fd rest => simp [turnsLeft] at h
  | writing fd rest buffer => simp [turnsLeft] at h
  | closing fd rest => simp [turnsLeft] at h
  | failing pathname => simp [turnsLeft] at h

/-- The kernel is booted with an image of `genromfs`, processes call `chdir`, `open`, `read` and the
like, and then any number of them run `cat`, with other programs that write. In every order of the
system calls, for every pace of the UART:
* the serial line gets one write after the other, and its buffer does not overflow; every `cat`
  writes the first bytes of its files on the host, all of them when it has ended with 0, and it ends
  with -1 only when all descriptors are in use;
* a system call completes if the UART goes on sending;
* a `cat` ends after two calls for each byte and four for each file, at most. -/
theorem cat_prints_the_host_files (d : Ramdisk) (o : Options) (host : Host) (h : Imaged d o host)
    (hkeeps : o.KeepsMain host) (hlength : d.length.toNat < 2 ^ 31)
    (console : UInt32 × List UInt8) (t : FdTable) :
    ∃ root, Boots d t root ∧ ∀ calls w₀,
      AllSteps (hostStep d console host.main) (HostAllowed host.main) (booted t root host.main)
        calls →
      run (hostStep d console host.main) (booted t root host.main) calls = some w₀ →
      ∀ (argv : Nat → List Path) (uart : Uart),
        (∀ pid, ∀ path ∈ argv pid, IsRegular host.main (w₀.cwd pid) path) →
        uart.fifo.length ≤ fifoSize →
        ∀ w turns, w = start w₀.session.files uart (fun pid => (argv pid).map Path.bytes) →
          AllSteps (Cat.step d w₀.currentDir) (Allowed argv) w turns →
          AllStates (Cat.step d w₀.currentDir) (Prints host.main w₀.cwd argv uart.accepted) w
              turns ∧
            AllSteps (Cat.step d w₀.currentDir)
              (fun w turn => Paced w turn → (Cat.step d w₀.currentDir w turn).isSome) w turns ∧
            ∀ w', run (Cat.step d w₀.currentDir) w turns = some w' → ∀ pid, argv pid ≠ [] →
              2 * (text host.main (w₀.cwd pid) (argv pid)).length + 4 * (argv pid).length ≤
                turns.countP (Turn.runs pid) →
              ∃ status, w'.stage pid = .exited status := by
  refine ⟨_, boots h hkeeps hlength t, fun calls w₀ hcalls hrun argv uart hargs hroom w turns hw
    hallowed => ?_⟩
  have hfollows : Follows d host.main w₀ :=
    (AllStates.of_inv (P := Follows d host.main)
      (fun w call w' hw hallowed hstep => hw.step hlength hallowed hstep) (fun _ hw => hw)
      (follows_booted h t) hcalls).last hrun
  have hkept : Kept d host.main w₀.cwd w₀.currentDir argv uart.accepted w :=
    ⟨_, hw ▸ inv_start hfollows hroom argv⟩
  refine ⟨?_, ?_, fun w' hw' pid hargv hturns => ?_⟩
  · refine AllStates.of_inv (fun w turn w' hI hallowed hturn => hI.step hlength hargs hallowed hturn)
      (fun w hI => ?_) hkept hallowed
    obtain ⟨readers, hI⟩ := hI
    exact hI.prints
  · refine AllSteps.imp_of_inv (I := Kept d host.main w₀.cwd w₀.currentDir argv uart.accepted)
      (fun w turn hI hallowed => ⟨fun hpaced => ?_, fun w' hturn =>
        hI.step hlength hargs hallowed hturn⟩) hkept hallowed
    obtain ⟨readers, hI⟩ := hI
    exact hI.completes hlength hargs hpaced
  · obtain ⟨path, after, hpaths⟩ := List.exists_cons_of_ne_nil hargv
    have hleft := (run_measure (m := fun w => w.left host.main w₀.cwd argv pid) (c := Turn.runs pid)
      (fun w turn w' hI hallowed hturn => ⟨hI.step hlength hargs hallowed hturn,
        hI.left_step hlength hargs hargv hallowed hturn⟩) hkept hallowed hw').2
    rw [hw, left_start hpaths] at hleft
    exact exited_of_turnsLeft (Nat.eq_zero_of_le_zero (hleft.trans (by omega)))

/-- `cat b/c a`, alone. -/
def sampleArgv (pid : Nat) : List Path :=
  if pid = 1 then [samplePath [[98]] [99], samplePath [] [97]] else []
def sampleTurns : List Turn := List.replicate 20 (.run 1 (0, []) [1, 1, 1, 1])
def sampleStart (root : UInt32) : World :=
  start ⟨fdTableInit fun _ => ⟨0, 0, 0⟩, root⟩ ⟨[], []⟩ fun pid => (sampleArgv pid).map Path.bytes

theorem sampleArgv_regular (pid : Nat) :
    ∀ path ∈ sampleArgv pid, IsRegular sampleHost.main [sampleHost.main] path := by
  intro path hpath
  unfold sampleArgv at hpath
  split at hpath
  · rcases List.mem_pair.mp hpath with rfl | rfl
    · exact ⟨samplePath_valid (by decide), _, _, rfl, rfl⟩
    · exact ⟨samplePath_valid (by decide), _, _, rfl, rfl⟩
  · cases hpath

theorem sampleTurns_allowed (root : UInt32) (n : Nat) (w : World) :
    AllSteps (Cat.step (diskOf sampleImage) fun _ => root) (Allowed sampleArgv) w
      (List.replicate n (.run 1 (0, []) [1, 1, 1, 1])) := by
  induction n generalizing w with
  | zero => trivial
  | succ n ih => exact allSteps_cons.mpr ⟨trivial, fun w' _ => ih w'⟩

theorem cat_prints_the_host_files_sample :
    ∃ root, Boots (diskOf sampleImage) (fun _ => ⟨0, 0, 0⟩) root ∧
      AllStates (Cat.step (diskOf sampleImage) fun _ => root)
        (Prints sampleHost.main (fun _ => [sampleHost.main]) sampleArgv []) (sampleStart root)
        sampleTurns ∧
      ∀ w', run (Cat.step (diskOf sampleImage) fun _ => root) (sampleStart root) sampleTurns =
        some w' → ∃ status, w'.stage 1 = .exited status := by
  obtain ⟨root, hboots, hruns⟩ := cat_prints_the_host_files (diskOf sampleImage) sampleOptions
    sampleHost sample_imaged sample_keepsMain length_sampleDisk (0, []) fun _ => ⟨0, 0, 0⟩
  obtain ⟨hprints, -, hexits⟩ := hruns [] _ trivial rfl sampleArgv ⟨[], []⟩ sampleArgv_regular
    (by decide) (sampleStart root) sampleTurns rfl
    (sampleTurns_allowed _ 20 _)
  refine ⟨root, hboots, hprints, fun w' hw' => hexits w' hw' 1 (by simp [sampleArgv]) ?_⟩
  show 2 * (text sampleHost.main [sampleHost.main] (sampleArgv 1)).length +
    4 * (sampleArgv 1).length ≤ sampleTurns.countP (Turn.runs 1)
  decide

end Vmwos.Cat
