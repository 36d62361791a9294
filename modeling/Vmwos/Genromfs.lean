import Vmwos.RomfsImage

/-!
# genromfs

`genromfs.c`, the program of the build that makes the image of the ramdisk from a directory of
the host: `processdir` gives every file its offset in the image, and `dumpall` writes headers,
names and contents from the first byte to the last.

The host directory is given by what the system calls say about it (`readdir`, `lstat`, `readlink`
and `read`). A file for which `lstat` or `access` fails is not part of it. There is no image (`none`)
where the program stores behind the end of `bigbuf`, and none with a special name, of a link to follow
or of a device: what it stands for is not followed here. Offsets and sizes are natural numbers, and an
`int` of the program has them in images shorter than 2^31 bytes.
-/

namespace Vmwos.Genromfs

open Bytes Romfs

/-! ## The host -/

/-- `S_IFMT` of a mode. -/
inductive Kind where
  | dir | reg | lnk | blk | chr | sock | fifo
  deriving DecidableEq

/-- What `lstat` says about a file, with its contents: the bytes of a regular file, the target of
a symbolic link. `exec` is `st_mode & 0111`; `major` and `minor` are those of `st_rdev`. -/
structure HostStat where
  dev : UInt64
  ino : UInt64
  kind : Kind
  exec : Bool
  major : UInt32
  minor : UInt32
  data : List UInt8
  deriving DecidableEq

/-- The entries of a directory, in the order of `readdir`, each with its own entries if it is a
directory. -/
inductive Listing where
  | nil
  | cons (name : List UInt8) (stat : HostStat) (entries rest : Listing)

/-- `.` and `..`. -/
def dot : List UInt8 := [46]
def dotdot : List UInt8 := [46, 46]

/-! ## Nodes -/

/-- `struct filenode` without its links. For `orig_link` there is the offset of the node. -/
structure Node where
  name : List UInt8
  realname : List UInt8
  stat : HostStat
  origLink : Option Nat
  offset : Nat
  size : Nat
  pad : Nat

/-- The nodes of a `dirlist`, each with its own `dirlist`. -/
inductive Nodes where
  | nil
  | cons (node : Node) (dirlist rest : Nodes)

/-- The command line: `align` is the number of `-a`, `alignlist` has the numbers of `-A` with their
patterns, and `excludelist` the patterns of `-x`. `fnmatch` is that of the library: whether it returns
0 for a pattern and a string. -/
structure Options where
  dir : List UInt8
  volname : List UInt8
  align : Nat
  alignlist : List (Nat × List UInt8)
  excludelist : List (List UInt8)
  fnmatch : List UInt8 → List UInt8 → Bool

/-- `newnode`. At offset 0 it is the volume, whose file is the directory itself. -/
def newnode (base name : List UInt8) (stat : HostStat) (curroffset : Nat) : Node where
  name := name
  realname :=
    let file := if curroffset = 0 then dot else name
    if base = [] then file else base ++ 47 :: file
  stat := stat
  origLink := none
  offset := curroffset
  size := 0
  pad := 0

/-- `ALIGNUP16`. -/
def alignup16 (x : Nat) : Nat := (x + 15) / 16 * 16

/-- `nodematch`: whether it returns 0. A pattern with a slash in front is for the path below the
directory of the command line, whose length is `realbase`. -/
def nodematch (o : Options) (pattern : List UInt8) (node : Node) : Bool :=
  o.fnmatch pattern (if pattern.head? = some 47 then node.realname.drop o.dir.length else node.name)

/-- The exclude list has a pattern for the file. -/
def Excluded (o : Options) (node : Node) : Prop :=
  ∃ pattern ∈ o.excludelist, nodematch o pattern node

instance (o : Options) (node : Node) : Decidable (Excluded o node) :=
  inferInstanceAs (Decidable (∃ pattern ∈ o.excludelist, _))

/-- A special name: a symbolic link or an empty file with an `@` in front. -/
def Special (name : List UInt8) (stat : HostStat) : Prop :=
  name.head? = some 64 ∧ (stat.kind = .lnk ∨ stat.kind = .reg ∧ stat.data = [])

instance (name : List UInt8) (stat : HostStat) : Decidable (Special name stat) :=
  inferInstanceAs (Decidable (_ ∧ _))

/-- `findalign`. -/
def findalign (o : Options) (node : Node) : Nat :=
  o.alignlist.foldl (fun i pa => if pa.1 > i ∧ nodematch o pa.2 node then pa.1 else i)
    (if node.stat.kind = .reg then o.align else 16)

/-- `spaceneeded`. -/
def spaceneeded (node : Node) : Nat :=
  16 + alignup16 (node.name.length + 1) + alignup16 node.size

/-- `alignnode`: the node after it, and its result. -/
def alignnode (o : Options) (node : Node) (curroffset extraspace : Nat) : Node × Nat :=
  let d := (curroffset + extraspace) &&& (findalign o node - 1)
  if d ≠ 0 then
    let align := findalign o node - d
    ({ node with offset := node.offset + align, pad := align }, curroffset + align)
  else (node, curroffset)

/-- The nodes so far, in the order in which `append` was called. `findnode`, which goes through a
directory before its siblings, comes to them in this order. -/
def findnode (nodes : List Node) (stat : HostStat) : Option Nat :=
  (nodes.find? fun n => n.stat.dev = stat.dev ∧ n.stat.ino = stat.ino).map Node.offset

/-! ## The layout -/

/-- `curroffset`, and the nodes so far. -/
structure Progress where
  curroffset : Nat
  nodes : List Node

/-- A node that has been given its place. -/
def Progress.append (p : Progress) (placed : Node × Nat) : Progress :=
  ⟨placed.2 + spaceneeded placed.1, p.nodes ++ [placed.1]⟩

/-- The node of a link. -/
def placeLink (o : Options) (n : Node) (link curroffset : Nat) : Node × Nat :=
  alignnode o { n with origLink := some link } curroffset 0

/-- The node of any other file. The contents of a regular file are aligned, not its header: the
space for them is not counted yet. -/
def placeFile (o : Options) (n : Node) (curroffset : Nat) : Node × Nat :=
  let r := alignnode o n curroffset (if n.stat.kind = .reg then spaceneeded n else 0)
  ({ r.1 with size := if n.stat.kind = .reg ∨ n.stat.kind = .lnk then n.stat.data.length else 0 },
    r.2)

/-- The old link of an entry. `self` and `parent` are the offsets of `n->parent` and of
`n->parent->parent`. -/
def oldLink (self parent : Nat) (nodes : List Node) (name : List UInt8) (stat : HostStat) :
    Option Nat :=
  if name = dot then some self else if name = dotdot then some parent else findnode nodes stat

/-- The loop of `processdir`. -/
def processEntries (o : Options) (level : Nat) (base : List UInt8) (self parent : Nat) :
    Listing → Progress → Option (Nodes × Progress)
  | .nil, p => some (.nil, p)
  | .cons name stat entries rest, p =>
    -- the main . and .. have been added before
    if level ≤ 1 ∧ (name = dot ∨ name = dotdot) then processEntries o level base self parent rest p
    else
      let n := newnode base name stat p.curroffset
      if Excluded o n then processEntries o level base self parent rest p
      else if Special name stat then none
      else
        match oldLink self parent p.nodes name stat with
        | some link => do
          let placed := placeLink o n link p.curroffset
          let r ← processEntries o level base self parent rest (p.append placed)
          some (.cons placed.1 .nil r.1, r.2)
        | none => do
          let placed := placeFile o n p.curroffset
          let r ← (
            if stat.kind = .dir then
              processEntries o (level + 1) placed.1.realname placed.1.offset self entries
                (p.append placed)
            else some (.nil, p.append placed))
          let r' ← processEntries o level base self parent rest r.2
          some (.cons placed.1 r.1 r'.1, r'.2)

/-- What the node of the volume has for an `lstat`. No file has its `dev` and `ino`. -/
def volumeStat : HostStat := ⟨-1, -1, .dir, true, 0, 0, []⟩

/-- The node of the volume. -/
def rootnode (o : Options) : Node := newnode o.dir o.volname volumeStat 0

/-- `processdir` for the directory of the command line, after `newnode` for the volume. The
subdirectories take the first node, `.`, for their parent. -/
def processdir (o : Options) (stat parentStat : HostStat) (listing : Listing) :
    Option (Nodes × Progress) := do
  let p : Progress := ⟨spaceneeded (rootnode o), [rootnode o]⟩
  let link := alignnode o (newnode o.dir dot stat p.curroffset) p.curroffset 0
  let p := p.append link
  let n := newnode o.dir dotdot parentStat p.curroffset
  let up := alignnode o { n with origLink := some link.1.offset } p.curroffset 0
  let p := p.append up
  let r ← processEntries o 1 o.dir link.1.offset 0 listing p
  some (.cons link.1 .nil (.cons up.1 .nil r.1), r.2)

/-! ## The output -/

/-- `struct romfh`, in the byte order of the host. -/
structure Romfh where
  nextfh : UInt32
  spec : UInt32
  size : UInt32
  checksum : UInt32

/-- The bytes of a `romfh` in the image. -/
def Romfh.bytes (ri : Romfh) : List UInt8 :=
  beBytes ri.nextfh ++ beBytes ri.spec ++ beBytes ri.size ++ beBytes ri.checksum

/-- `romfs_checksum`, for a number of words. -/
def romfsChecksum : Nat → List UInt8 → UInt32
  | 0, _ => 0
  | words + 1, data => ntohl (data.take 4) + romfsChecksum words (data.drop 4)

/-- The header at the start of `data`, with another checksum. -/
def setChecksum (data : List UInt8) (checksum : UInt32) : List UInt8 :=
  data.take 12 ++ beBytes checksum ++ data.drop 16

/-- `fixsum`. -/
def fixsum (data : List UInt8) (size : Nat) : List UInt8 :=
  setChecksum data (-romfsChecksum (size / 4) (setChecksum data 0))

/-- `atoffs`, what `fixbuf` holds so far, and what has been written to the file. -/
structure Dump where
  atoffs : Nat
  fixbuf : List UInt8
  file : List UInt8

/-- `dumpdata`. The first 512 bytes are held back for the checksum of the volume. -/
def dumpdata (f : Dump) (data : List UInt8) : Dump :=
  if data = [] then f
  else if f.atoffs ≥ 512 then
    { f with file := f.file ++ data, atoffs := f.atoffs + data.length }
  else
    let tocopy := if data.length < 512 - f.atoffs then data.length else 512 - f.atoffs
    let fixbuf := f.fixbuf ++ data.take tocopy
    let atoffs := f.atoffs + tocopy
    let rest := data.drop tocopy
    if atoffs = 512 then
      let size := (ntohl ((fixbuf.drop 8).take 4)).toNat
      let fixbuf := fixsum fixbuf (if atoffs < size then atoffs else size)
      ⟨atoffs + rest.length, fixbuf, f.file ++ fixbuf ++ rest⟩
    else ⟨atoffs, fixbuf, f.file⟩

/-- `sizeof(bigbuf)`. -/
def bigbufSize : Nat := 4096

/-- `dumpzero`. It clears the bytes in `bigbuf`. -/
def dumpzero (f : Dump) (len : Nat) : Option Dump :=
  if len ≤ bigbufSize then some (dumpdata f (List.replicate len 0)) else none

/-- `dumpdataa`. -/
def dumpdataa (f : Dump) (data : List UInt8) : Option Dump :=
  let f := dumpdata f data
  if data.length % 16 ≠ 0 then dumpzero f (16 - data.length % 16) else some f

/-- `dumpri`. The header and the name go to `bigbuf`. -/
def dumpri (f : Dump) (ri : Romfh) (n : Node) : Option Dump :=
  let len := n.name.length + 1
  let bigbuf := ri.bytes ++ n.name ++ [0] ++
    (if len % 16 ≠ 0 then List.replicate (16 - len % 16) 0 else [])
  if bigbuf.length ≤ bigbufSize then
    some (dumpdata f (if n.offset ≠ 0 then fixsum bigbuf bigbuf.length else bigbuf))
  else none

/-- `readlink` to `bigbuf`, and `dumpdataa`. -/
def dumplink (f : Dump) (data : List UInt8) : Option Dump :=
  if data.length ≤ bigbufSize then dumpdataa f data else none

/-- The loops of `dumpnode` over the contents of a regular file, in pieces that `bigbuf` has room
for, and over the zeros behind them. -/
def dumpfile (f : Dump) (data : List UInt8) : Dump :=
  let pieces := (List.range ((data.length + 4095) / bigbufSize)).map fun i =>
    (data.drop (bigbufSize * i)).take bigbufSize
  let f := pieces.foldl dumpdata f
  if data.length % 16 ≠ 0 then dumpdata f (List.replicate (16 - data.length % 16) 0) else f

/-- The offset of the first node, if there is one. -/
def Nodes.offsetOr (default : Nat) : Nodes → Nat
  | .nil => default
  | .cons node _ _ => node.offset

/-- `ROMFH_EXEC` and the types of a header. -/
def romfhExec : UInt32 := 8
def Kind.romfh : Kind → UInt32
  | .dir => 1
  | .reg => 2
  | .lnk => 3
  | .blk => 4
  | .chr => 5
  | .sock => 6
  | .fifo => 7

/-- The header that `dumpnode` writes for a node, with the siblings behind it. -/
def headerOf (node : Node) (dirlist rest : Nodes) : Romfh :=
  let nextfh := UInt32.ofNat (rest.offsetOr 0) |||
    if node.stat.exec ∧ (node.stat.kind = .dir ∨ node.stat.kind = .reg) then romfhExec else 0
  let ri : Romfh := ⟨nextfh, 0, UInt32.ofNat node.size, 0x55555555⟩
  match node.origLink with
  | some link => { ri with nextfh := nextfh &&& ~~~romfhExec, spec := UInt32.ofNat link }
  | none =>
    let ri := { ri with nextfh := nextfh ||| node.stat.kind.romfh }
    match node.stat.kind with
    | .dir => { ri with spec := UInt32.ofNat (dirlist.offsetOr node.offset) }
    | .chr => { ri with spec := node.stat.major <<< 16 ||| node.stat.minor }
    | .blk => { ri with spec := node.stat.major <<< 16 ||| node.stat.minor }
    | _ => ri

/-- `dumpnode`, for a node and the siblings behind it. -/
def dumpnodes : Dump → Nodes → Option Dump
  | f, .nil => some f
  | f, .cons node dirlist rest => do
    let f ← (if node.pad ≠ 0 then dumpzero f node.pad else some f)
    let f ← dumpri f (headerOf node dirlist rest) node
    let f ← (
      if node.origLink = none then
        if node.stat.kind = .lnk then dumplink f node.stat.data
        else if node.stat.kind = .reg then some (dumpfile f node.stat.data)
        else some f
      else some f)
    let f ← dumpnodes f dirlist
    dumpnodes f rest

/-- `dumpall`. -/
def dumpall (f : Dump) (o : Options) (nodes : Nodes) (lastoff : Nat) : Option Dump := do
  let ri : Romfh := ⟨0x2d726f6d, 0x3166732d, UInt32.ofNat lastoff, 0x55555555⟩
  let f ← dumpri f ri (rootnode o)
  let f ← dumpnodes f nodes
  if lastoff % 1024 ≠ 0 then dumpzero f (1024 - lastoff % 1024) else some f

/-- The image file. -/
def genromfs (o : Options) (stat parentStat : HostStat) (listing : Listing) :
    Option (List UInt8) := do
  let r ← processdir o stat parentStat listing
  let f ← dumpall ⟨0, [], []⟩ o r.1 r.2.curroffset
  some f.file

end Vmwos.Genromfs
