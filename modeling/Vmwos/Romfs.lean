import Vmwos.Bytes

/-!
# The ramdisk and romfs

`ramdisk.c` and `romfs.c`. Both `int32_t` and `uint32_t` values are 32-bit patterns; a
pattern with the top bit set is a negative `int32_t` (`isNeg`). Lengths of strings and
records are natural numbers: each counts bytes of the image.

A local variable that a failed read leaves unset is `none`, and a function that goes
on to use it does not complete. Neither does one whose loop never ends: every loop has
as many turns as there are 32-bit offsets, and one that comes back to an offset never
ends.
-/

namespace Vmwos.Romfs

open Bytes

/-! ## Constants -/

/-- `-ENOENT`. -/
def eNOENT : UInt32 := -2
/-- `-EBADF`. -/
def eBADF : UInt32 := -9
/-- `-ENOTDIR`. -/
def eNOTDIR : UInt32 := -20
/-- `-ENFILE`. -/
def eNFILE : UInt32 := -23
/-- `-ERANGE`. -/
def eRANGE : UInt32 := -34

/-- `MAX_FILENAME_SIZE`. -/
def maxFilenameSize : Nat := 256

/-- `x<0` for an `int32_t`. -/
def isNeg (x : UInt32) : Prop := 2 ^ 31 ≤ x.toNat

instance (x : UInt32) : Decidable (isNeg x) := inferInstanceAs (Decidable (_ ≤ _))

/-- Enough turns for any loop that ends. -/
def allOffsets : Nat := 2 ^ 32 + 1

/-! ## The ramdisk -/

/-- `ramdisk_info`, and the memory from `ramdisk_info.start` on. -/
structure Ramdisk where
  start : Nat → UInt8
  length : UInt32

/-- `ramdisk_read`: the bytes it copies, or `none` when it returns `-ERANGE`. The range
check and the address are computed in 32 bits. -/
def ramdiskRead (d : Ramdisk) (offset length : UInt32) : Option (List UInt8) :=
  if offset + length > d.length then none
  else some ((List.range length.toNat).map fun k => d.start ((offset.toNat + k) % 2 ^ 32))

/-- `romfs_read_noinc`: what the buffer holds after it. -/
def romfsReadNoinc (d : Ramdisk) (buffer : Option (List UInt8)) (offset size : UInt32) :
    Option (List UInt8) :=
  (ramdiskRead d offset size).or buffer

/-- `ntohl` of a word read from the image. -/
def ntohl (temp : List UInt8) : UInt32 := ofBe temp

/-! ## Strings -/

/-- `temp_buffer[15]`. -/
def lastOf (chunk : List UInt8) : UInt8 := chunk[15]?.getD 0

/-- `strlen(temp_buffer)`. -/
def strlenOf (chunk : List UInt8) : Nat := (chunk.takeWhile (· ≠ 0)).length

/-- The `strncat` of `romfs_read_string`, as long as there is room. -/
def catChunk (m : Mem) (buffer : Nat) (tempBuffer : List UInt8) (maxStringsize : Int) :
    Option Mem :=
  if maxStringsize > 0 then
    strncat m allOffsets buffer tempBuffer (if maxStringsize > 16 then 16 else maxStringsize.toNat)
  else some m

/-- The loop of `romfs_read_string` into the buffer at `buffer`. -/
def readStringLoop (d : Ramdisk) (buffer : Nat) :
    Nat → Option (List UInt8) → UInt32 → Int → Mem → Option (UInt32 × Mem)
  | 0, _, _, _, _ => none
  | fuel + 1, tempBuffer, ourOffset, maxStringsize, m => do
    let tempBuffer ← romfsReadNoinc d tempBuffer ourOffset 16
    let ourOffset := ourOffset + 16
    let m ← catChunk m buffer tempBuffer maxStringsize
    if lastOf tempBuffer = 0 then some (ourOffset, m)
    else readStringLoop d buffer fuel (some tempBuffer) ourOffset (maxStringsize - 16) m

/-- `romfs_read_string`: its result and the memory after it. -/
def romfsReadString (d : Ramdisk) (offset : UInt32) (m : Mem) (buffer : Nat) (size : Int) :
    Option (UInt32 × Mem) :=
  (readStringLoop d buffer allOffsets none offset size (write m buffer [0])).map fun
    | (ourOffset, m) => (ourOffset - offset, m)

/-- The loop of `romfs_string_length` and `romfs_string_length_chunks`, which differ in
what they add for the last chunk. -/
def stringLengthLoop (d : Ramdisk) (last : List UInt8 → Nat) :
    Nat → Option (List UInt8) → UInt32 → Nat → Option Nat
  | 0, _, _, _ => none
  | fuel + 1, tempBuffer, ourOffset, maxLength => do
    let tempBuffer ← romfsReadNoinc d tempBuffer ourOffset 16
    if lastOf tempBuffer = 0 then some (maxLength + last tempBuffer)
    else stringLengthLoop d last fuel (some tempBuffer) (ourOffset + 16) (maxLength + 16)

/-- `romfs_string_length`. -/
def romfsStringLength (d : Ramdisk) (offset : UInt32) : Option Nat :=
  stringLengthLoop d strlenOf allOffsets none offset 0

/-- `romfs_string_length_chunks`. -/
def romfsStringLengthChunks (d : Ramdisk) (offset : UInt32) : Option Nat :=
  stringLengthLoop d (fun _ => 16) allOffsets none offset 0

/-! ## Headers -/

/-- The loop of `romfs_inode_follow_links`. -/
def followLinksLoop (d : Ramdisk) : Nat → Option (List UInt8) → UInt32 → Option UInt32
  | 0, _, _ => none
  | fuel + 1, tempInt, inode => do
    let tempInt ← romfsReadNoinc d tempInt inode 4
    let type := ntohl tempInt &&& 7
    let tempInt ← romfsReadNoinc d (some tempInt) (inode + 4) 4
    let specInfo := ntohl tempInt
    if type = 0 then followLinksLoop d fuel (some tempInt) specInfo else some inode

/-- `romfs_inode_follow_links`. -/
def romfsInodeFollowLinks (d : Ramdisk) (inode : UInt32) : Option UInt32 :=
  followLinksLoop d allOffsets none inode

/-- The fields of `struct stat` that `romfs_stat` sets. -/
structure Stat where
  stIno : UInt32
  stMode : UInt32
  stRdev : UInt32
  stSize : UInt32

/-- The `switch` of `romfs_stat`: the bits it adds to the mode. -/
def typeMode (type : UInt32) : UInt32 :=
  if type = 1 then 0x4000
  else if type = 2 then 0x8000
  else if type = 3 then 0xa000
  else if type = 4 then 0x6000
  else if type = 5 then 0x2000
  else if type = 6 then 0xc000
  else if type = 7 then 0x1000
  else 0

/-- The loop of `romfs_stat`. -/
def statLoop (d : Ramdisk) : Nat → Option (List UInt8) → UInt32 → Option Stat
  | 0, _, _ => none
  | fuel + 1, tempInt, inode => do
    let tempInt ← romfsReadNoinc d tempInt inode 4
    let exec := ntohl tempInt &&& 8
    let type := ntohl tempInt &&& 7
    let tempInt ← romfsReadNoinc d (some tempInt) (inode + 4) 4
    let specInfo := ntohl tempInt
    if type = 0 then statLoop d fuel (some tempInt) specInfo
    else
      let tempInt ← romfsReadNoinc d (some tempInt) (inode + 8) 4
      some {
        stIno := inode
        stMode := (0o666 ||| if exec ≠ 0 then 0o111 else 0) ||| typeMode type
        stRdev := if type = 4 ∨ type = 5 then specInfo else 0
        stSize := ntohl tempInt }

/-- `romfs_stat`. It always returns 0. -/
def romfsStat (d : Ramdisk) (inode : UInt32) : Option Stat := statLoop d allOffsets none inode

/-- The loop of `romfs_get_inode` over the entries of a directory. -/
def getInodeLoop (d : Ramdisk) (name : Mem) :
    Nat → List UInt8 → UInt32 → Mem → Option UInt32
  | 0, _, _, _ => none
  | fuel + 1, tempInt, offset, filename => do
    let inode := offset
    let tempInt ← romfsReadNoinc d (some tempInt) offset 4
    let next := ntohl tempInt &&& ~~~0xf
    let (_, filename) ← romfsReadString d (offset + 16) filename 0 maxFilenameSize
    if strncmp name filename maxFilenameSize = 0 then romfsInodeFollowLinks d inode
    else if next = 0 then some (-1)
    else getInodeLoop d name fuel tempInt next filename

/-- `romfs_get_inode`, for the string in the memory `name`. What `filename` holds at first
is not read. -/
def romfsGetInode (d : Ramdisk) (dirInode : UInt32) (name : Mem) : Option UInt32 := do
  let tempInt ← romfsReadNoinc d none dirInode 4
  let next := ntohl tempInt
  let tempInt ← romfsReadNoinc d (some tempInt) (dirInode + 4) 4
  let spec := ntohl tempInt
  if next &&& 7 ≠ 1 then some eNOTDIR
  else getInodeLoop d name allOffsets tempInt spec fun _ => 0

/-- `romfs_read_file`: its result, and the bytes it stores at `buf`. -/
def romfsReadFile (d : Ramdisk) (inode fileOffset count : UInt32) :
    Option (UInt32 × List UInt8) := do
  let tempInt ← romfsReadNoinc d none (inode + 8) 4
  let size := ntohl tempInt
  let nameLength ← romfsStringLengthChunks d (inode + 16)
  let headerOffset := inode + 16 + UInt32.ofNat nameLength
  let maxCount := if count > size - fileOffset then size - fileOffset else count
  match ramdiskRead d (headerOffset + fileOffset) maxCount with
  | none => some (eRANGE, [])
  | some bytes => some (maxCount, bytes)

/-! ## Directories -/

/-- The padded length of a directory record for a name of the given length. -/
def recordLength (nameLength : Nat) : Nat :=
  let currentLength := 12 + nameLength + 1
  if currentLength % 4 ≠ 0 then currentLength + (4 - currentLength % 4) else currentLength

/-- The loop of `romfs_getdents` over the buffer `m`: the inode it stops at, the total
length and the buffer after it. -/
def getdentsLoop (d : Ramdisk) (size : UInt32) :
    Nat → Option (List UInt8) → UInt32 → Nat → Mem → Option (UInt32 × Nat × Mem)
  | 0, _, _, _, _ => none
  | fuel + 1, tempInt, inode, totalLength, m => do
    let tempInt ← romfsReadNoinc d tempInt inode 4
    let nextHeader := ntohl tempInt &&& ~~~0xf
    let nameLength ← romfsStringLength d (inode + 16)
    let currentLength := recordLength nameLength
    if currentLength + totalLength > size.toNat then some (inode, totalLength, m)
    else if inode = 0 then some (0xffffffff, totalLength, m)
    else
      let m := write m totalLength (toLe inode)
      let m := write m (totalLength + 4) (toLe (UInt32.ofNat currentLength))
      let m := write m (totalLength + 8) (toLe (UInt32.ofNat currentLength))
      let (_, m) ← romfsReadString d (inode + 16) m (totalLength + 12) nameLength
      let m := write m (totalLength + 12 + nameLength) [0]
      getdentsLoop d size fuel (some tempInt) nextHeader (totalLength + currentLength) m

/-- `romfs_getdents`: its result, `*current_inode` and the buffer after it. Every turn of
the loop takes up room in the buffer. -/
def romfsGetdents (d : Ramdisk) (dirInode currentInode : UInt32) (m : Mem) (size : UInt32) :
    Option (UInt32 × UInt32 × Mem) := do
  if currentInode = 0xffffffff then some (0, currentInode, m)
  else if currentInode = 0 then
    let tempInt ← romfsReadNoinc d none dirInode 4
    if ntohl tempInt &&& 7 ≠ 1 then some (eNOTDIR, currentInode, m)
    else
      let tempInt ← romfsReadNoinc d (some tempInt) (dirInode + 4) 4
      let (inode, totalLength, m) ←
        getdentsLoop d size (size.toNat + 1) (some tempInt) (ntohl tempInt) 0 m
      some (UInt32.ofNat totalLength, inode, m)
  else
    let (inode, totalLength, m) ← getdentsLoop d size (size.toNat + 1) none currentInode 0 m
    some (UInt32.ofNat totalLength, inode, m)

/-! ## The volume -/

/-- `-rom1fs-`. -/
def magic : List UInt8 := [45, 114, 111, 109, 49, 102, 115, 45]

/-- `romfs_mount`: `file_headers_start`, or -1. -/
def romfsMount (d : Ramdisk) : Option UInt32 := do
  let header ← romfsReadNoinc d none 0 8
  if header ≠ magic then some (-1)
  else
    let size ← romfsReadNoinc d none 8 4
    let _checksum ← romfsReadNoinc d (some size) 12 4
    let (result, _volumeName) ← romfsReadString d 16 (fun _ => 0) 0 16
    some (16 + result)

end Vmwos.Romfs
