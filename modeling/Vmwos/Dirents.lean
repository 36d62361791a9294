import Vmwos.Files
import Vmwos.RomfsImage

/-!
# One `getdents` call

The records of a directory are packed into the buffer one after the other, as many as
fit. `walkRecords` reads them back the way `ls` does.

* `romfsGetdents_eq`: what one call writes and returns, and where it leaves the cursor;
* `walkPlaces_putRecords`, `walkRecords_putRecords`: a reader finds exactly the records that
  were written, where they were written, and ends behind the last one.
-/

namespace Vmwos.Romfs

open Bytes

/-! ## Records -/

/-- What a reader of the directory gets: the inode and the name. -/
abbrev Record := UInt32 × List UInt8

namespace Entry

def record (e : Entry) : Record := (e.inode, e.header.name)

/-- The padded length of the record of an entry. -/
def recLen (e : Entry) : Nat := recordLength e.header.name.length

/-- The bytes written for an entry, without the padding. -/
def bytes (e : Entry) : List UInt8 :=
  toLe e.inode ++ (toLe (UInt32.ofNat e.recLen) ++ (toLe (UInt32.ofNat e.recLen) ++
    (e.header.name ++ [0])))

end Entry

/-- The room that the records of the entries take up. -/
def total (es : List Entry) : Nat := (es.map Entry.recLen).sum

/-- The buffer with the records of the entries from `p` on. -/
def putRecords (m : Mem) (p : Nat) : List Entry → Mem
  | [] => m
  | e :: es => putRecords (write m p e.bytes) (p + e.recLen) es

/-- The entries that fit in `room`, and the others. -/
def fitting (room : Nat) : List Entry → List Entry × List Entry
  | [] => ([], [])
  | e :: es =>
    if e.recLen ≤ room then
      let (taken, rest) := fitting (room - e.recLen) es
      (e :: taken, rest)
    else ([], e :: es)

/-- The loop over the records in `ls`: `offset<nread`, then on by `d_reclen`. -/
def walkRecords (m : Mem) (nread : Nat) : Nat → Nat → Option (List Record)
  | 0, _ => none
  | fuel + 1, offset =>
    if offset < nread then do
      let dIno := ofLe (read m offset 4)
      let dReclen := ofLe (read m (offset + 8) 4)
      let length ← strlen m allOffsets (offset + 12)
      let rest ← walkRecords m nread fuel (offset + dReclen.toNat)
      some ((dIno, read m (offset + 12) length) :: rest)
    else some []

/-- The same loop with the offset of each record, and the offset at which it ends. -/
def walkPlaces (m : Mem) (nread : Nat) : Nat → Nat → Option (List (Nat × Record) × Nat)
  | 0, _ => none
  | fuel + 1, offset =>
    if offset < nread then do
      let dIno := ofLe (read m offset 4)
      let dReclen := ofLe (read m (offset + 8) 4)
      let length ← strlen m allOffsets (offset + 12)
      let (rest, last) ← walkPlaces m nread fuel (offset + dReclen.toNat)
      some ((offset, dIno, read m (offset + 12) length) :: rest, last)
    else some ([], offset)

/-- Where the records of the entries are, from `p` on. -/
def placesOf (p : Nat) : List Entry → List (Nat × Record)
  | [] => []
  | e :: es => (p, e.record) :: placesOf (p + e.recLen) es

/-! ## Lengths -/

theorem recordLength_bounds (n : Nat) : n + 13 ≤ recordLength n ∧ recordLength n ≤ n + 16 := by
  unfold recordLength
  simp only
  split <;> omega

theorem recordLength_aligned (n : Nat) : recordLength n % 4 = 0 := by
  unfold recordLength
  simp only
  split <;> omega

theorem Entry.length_bytes (e : Entry) : e.bytes.length = e.header.name.length + 13 := by
  simp only [bytes, List.length_append, length_toLe, List.length_singleton]
  omega

theorem Entry.length_bytes_le (e : Entry) : e.bytes.length ≤ e.recLen := by
  rw [e.length_bytes]
  exact (recordLength_bounds _).1

theorem Entry.recLen_pos (e : Entry) : 0 < e.recLen := by
  have hle := e.length_bytes_le
  have hlen := e.length_bytes
  omega

theorem total_cons (e : Entry) (es : List Entry) : total (e :: es) = e.recLen + total es := by
  simp [total]

theorem total_append (es₁ es₂ : List Entry) : total (es₁ ++ es₂) = total es₁ + total es₂ := by
  simp [total]

/-- A header inside the image has a record of less than 2^32 bytes. -/
theorem HasHeader.recordLength_lt {d : Ramdisk} {inode : UInt32} {h : Header}
    (hh : HasHeader d inode h) : recordLength h.name.length < 2 ^ 32 := by
  have hin := hh.inside
  have hlt := d.length.toNat_lt
  have hle := (recordLength_bounds h.name.length).2
  rw [chunksLength] at hin
  omega

/-! ## The greedy split -/

theorem fitting_append (room : Nat) (es : List Entry) :
    (fitting room es).1 ++ (fitting room es).2 = es := by
  induction es generalizing room with
  | nil => rfl
  | cons e es ih =>
    rw [fitting]
    split
    · simpa using ih (room - e.recLen)
    · rfl

theorem fitting_le (room : Nat) (es : List Entry) : total (fitting room es).1 ≤ room := by
  induction es generalizing room with
  | nil => exact Nat.zero_le _
  | cons e es ih =>
    rw [fitting]
    split
    · next hle =>
      have hih := ih (room - e.recLen)
      simp only [total_cons]
      omega
    · exact Nat.zero_le _

theorem fitting_all {room : Nat} {es : List Entry} (h : total es ≤ room) :
    fitting room es = (es, []) := by
  induction es generalizing room with
  | nil => rfl
  | cons e es ih =>
    rw [total_cons] at h
    rw [fitting, if_pos (by omega), ih (by omega)]

theorem fitting_rest_ne_nil {room : Nat} {es : List Entry} (h : room < total es) :
    (fitting room es).2 ≠ [] := by
  intro hnil
  have happend := fitting_append room es
  rw [hnil, List.append_nil] at happend
  have hle := fitting_le room es
  rw [happend] at hle
  omega

theorem fitting_taken_ne_nil {room : Nat} {e : Entry} {es : List Entry} (h : e.recLen ≤ room) :
    (fitting room (e :: es)).1 ≠ [] := by
  rw [fitting, if_pos h]
  simp

/-- No longer run of entries from the first one on fits. -/
theorem fitting_longest {room : Nat} {es es' : List Entry} (h : es' <+: es)
    (hfit : total es' ≤ room) : es'.length ≤ (fitting room es).1.length := by
  induction es generalizing room es' with
  | nil => rw [List.prefix_nil.mp h, fitting]
  | cons e es ih =>
    cases es' with
    | nil => exact Nat.zero_le _
    | cons e' es' =>
      obtain ⟨rfl, hrest⟩ := List.cons_prefix_cons.mp h
      rw [total_cons] at hfit
      rw [fitting, if_pos (Nat.le_of_add_right_le hfit)]
      exact Nat.succ_le_succ (ih hrest (Nat.le_sub_of_add_le' hfit))

/-! ## Reading the records back -/

variable {m : Mem} {p : Nat}

theorem putRecords_outside {es : List Entry} {x : Nat} (hx : x < p) :
    putRecords m p es x = m x := by
  induction es generalizing m p with
  | nil => rfl
  | cons e es ih =>
    rw [putRecords, ih (by omega), write_outside (.inl hx)]

/-- What stands at the place of the first record. -/
theorem read_putRecords_cons (e : Entry) (es : List Entry) :
    read (putRecords m p (e :: es)) p e.bytes.length = e.bytes := by
  have hle := e.length_bytes_le
  rw [putRecords]
  refine (read_congr fun k hk => ?_).trans (read_write (m := m))
  exact putRecords_outside (by omega)

/-- The fields of a record, from the bytes of it. -/
theorem fields_of_bytes {e : Entry} (hz : ∀ c ∈ e.header.name, c ≠ 0)
    (h : read m p e.bytes.length = e.bytes) :
    read m p 4 = toLe e.inode ∧ read m (p + 8) 4 = toLe (UInt32.ofNat e.recLen) ∧
      StringAt m (p + 12) e.header.name := by
  rw [e.length_bytes, Entry.bytes,
    show e.header.name.length + 13 = 4 + (4 + (4 + (e.header.name.length + 1))) by omega,
    read_add, read_add, read_add, read_add] at h
  obtain ⟨hino, h⟩ := List.append_inj h (by simp)
  obtain ⟨_, h⟩ := List.append_inj h (by simp)
  obtain ⟨hlen, h⟩ := List.append_inj h (by simp)
  obtain ⟨hname, hnul⟩ := List.append_inj h (by simp)
  refine ⟨hino, hlen, hz, hname, ?_⟩
  simpa [Bytes.read, Nat.add_assoc] using hnul

theorem putRecords_above {es : List Entry} {x : Nat} (hx : p + total es ≤ x) :
    putRecords m p es x = m x := by
  induction es generalizing m p with
  | nil => rfl
  | cons e es ih =>
    have hle := e.length_bytes_le
    rw [total_cons, ← Nat.add_assoc] at hx
    rw [putRecords, ih hx, write_outside (.inr (by omega))]

/-- A reader finds the records that were written, each in its place. -/
theorem walkPlaces_putRecords {es : List Entry} {fuel : Nat} (hf : es.length < fuel)
    (hz : ∀ e ∈ es, ∀ c ∈ e.header.name, c ≠ 0) (hlt : ∀ e ∈ es, e.recLen < 2 ^ 32) :
    walkPlaces (putRecords m p es) (p + total es) fuel p = some (placesOf p es, p + total es) := by
  induction es generalizing m p fuel with
  | nil =>
    obtain ⟨fuel, rfl⟩ := Nat.exists_eq_succ_of_ne_zero (Nat.ne_of_gt hf)
    rw [walkPlaces, if_neg (by simp [total])]
    rfl
  | cons e es ih =>
    obtain ⟨fuel, rfl⟩ := Nat.exists_eq_succ_of_ne_zero (Nat.ne_of_gt (Nat.zero_lt_of_lt hf))
    have he : e ∈ e :: es := List.mem_cons_self
    have hpos := e.recLen_pos
    obtain ⟨hino, hlen, hname⟩ := fields_of_bytes (hz e he) (read_putRecords_cons (m := m) (p := p)
      e es)
    have hreclen : (UInt32.ofNat e.recLen).toNat = e.recLen :=
      UInt32.toNat_ofNat_of_lt' (hlt e he)
    have hfuel : e.header.name.length < allOffsets := by
      have hle := (recordLength_bounds e.header.name.length).1
      have hrec : recordLength e.header.name.length < 2 ^ 32 := hlt e he
      have hall : 2 ^ 32 < allOffsets := by decide
      omega
    have hrest : walkPlaces (putRecords (write m p e.bytes) (p + e.recLen) es)
        (p + e.recLen + total es) fuel (p + e.recLen) =
        some (placesOf (p + e.recLen) es, p + e.recLen + total es) :=
      ih (by simpa using hf) (fun e' he' => hz e' (by simp [he']))
        (fun e' he' => hlt e' (by simp [he']))
    rw [walkPlaces, if_pos (by rw [total_cons]; omega)]
    simp only [hname.strlen hfuel, hlen, hino, ofLe_toLe, hreclen, hname.chars, total_cons,
      ← Nat.add_assoc, Option.bind_eq_bind, Option.bind_some]
    rw [putRecords, hrest]
    rfl

theorem walkRecords_eq_places (m : Mem) (nread fuel offset : Nat) :
    walkRecords m nread fuel offset =
      (walkPlaces m nread fuel offset).map fun r => r.1.map Prod.snd := by
  induction fuel generalizing offset with
  | zero => rfl
  | succ fuel ih =>
    rw [walkRecords, walkPlaces]
    split
    · cases strlen m allOffsets (offset + 12) with
      | none => rfl
      | some length =>
        simp only [Option.bind_eq_bind, Option.bind_some, ih]
        cases walkPlaces m nread fuel (offset + (ofLe (read m (offset + 8) 4)).toNat) with
        | none => rfl
        | some r => rfl
    · rfl

theorem map_snd_placesOf (p : Nat) (es : List Entry) :
    (placesOf p es).map Prod.snd = es.map Entry.record := by
  induction es generalizing p with
  | nil => rfl
  | cons e es ih => rw [placesOf, List.map_cons, ih, List.map_cons]

/-- A reader finds the records that were written. -/
theorem walkRecords_putRecords {es : List Entry} {fuel : Nat} (hf : es.length < fuel)
    (hz : ∀ e ∈ es, ∀ c ∈ e.header.name, c ≠ 0) (hlt : ∀ e ∈ es, e.recLen < 2 ^ 32) :
    walkRecords (putRecords m p es) (p + total es) fuel p = some (es.map Entry.record) := by
  rw [walkRecords_eq_places, walkPlaces_putRecords hf hz hlt, Option.map_some, map_snd_placesOf]

/-- A record lies below the end, at a multiple of 4 from the start, and its name has a NUL. -/
theorem place_of_mem {es : List Entry} {o : Nat} {ino : UInt32} {name : List UInt8}
    (hz : ∀ e ∈ es, ∀ c ∈ e.header.name, c ≠ 0) (h : (o, ino, name) ∈ placesOf p es) :
    o % 4 = p % 4 ∧ o + 12 + name.length < p + total es ∧
      StringAt (putRecords m p es) (o + 12) name := by
  induction es generalizing m p with
  | nil => exact absurd h List.not_mem_nil
  | cons e es ih =>
    have hbytes := e.length_bytes
    have hle := e.length_bytes_le
    rw [placesOf] at h
    rw [total_cons]
    rcases List.mem_cons.mp h with heq | hmem
    · obtain ⟨rfl, hrecord⟩ := Prod.mk.inj heq
      obtain ⟨rfl, rfl⟩ := Prod.mk.inj hrecord
      refine ⟨rfl, by omega, ?_⟩
      exact (fields_of_bytes (hz e List.mem_cons_self) (read_putRecords_cons e es)).2.2
    · obtain ⟨haligned, hbelow, hstring⟩ := ih (m := write m p e.bytes)
        (fun e' he' => hz e' (List.mem_cons_of_mem _ he')) hmem
      have hfour : e.recLen % 4 = 0 := recordLength_aligned _
      exact ⟨by omega, by omega, hstring⟩

/-! ## The call -/

/-- Where a call leaves the cursor, when it stops before `rest` with `used` bytes written:
at the next entry, or else behind the last one. There it depends on whether a record for
the volume name, which stands where the null offset leads, would fit. -/
def cursorAfter (volume : List UInt8) (size : UInt32) (used : Nat) : List Entry → UInt32
  | e :: _ => e.inode
  | [] => if recordLength volume.length + used > size.toNat then 0 else 0xffffffff

variable {d : Ramdisk} {volume : List UInt8}

/-- The writes for one entry are one write of its record. -/
theorem writes_eq (e : Entry) :
    write (write (write (write (write m p (toLe e.inode))
      (p + 4) (toLe (UInt32.ofNat e.recLen))) (p + 8) (toLe (UInt32.ofNat e.recLen)))
      (p + 12) (e.header.name ++ [0])) (p + 12 + e.header.name.length) [0] =
      write m p e.bytes := by
  rw [write_extend (by simp)]
  simp only [Entry.bytes, write_append, length_toLe, Nat.add_assoc, Nat.reduceAdd]

theorem getdentsLoop_eq (hvol : HasVolume d volume) {size inode : UInt32} {es : List Entry}
    (hchain : Chain d inode es) {fuel used : Nat} {temp : Option (List UInt8)} {m : Mem}
    (hused : used ≤ size.toNat) (hf : size.toNat < used + fuel) :
    getdentsLoop d size fuel temp inode used m =
      some (cursorAfter volume size (used + total (fitting (size.toNat - used) es).1)
          (fitting (size.toNat - used) es).2,
        used + total (fitting (size.toNat - used) es).1,
        putRecords m used (fitting (size.toNat - used) es).1) := by
  induction hchain generalizing fuel used temp m with
  | nil =>
    obtain ⟨fuel, rfl⟩ : ∃ k, fuel = k + 1 := ⟨fuel - 1, by omega⟩
    have hread : romfsReadNoinc d temp 0 4 = some (wordBytes d 0) := readWord temp (by
      have hin := hvol.inside
      rw [chunksLength] at hin
      simp only [UInt32.reduceToNat] at hin ⊢
      omega)
    have hlen : romfsStringLength d (0 + 16) = some volume.length := romfsStringLength_eq hvol
    simp only [getdentsLoop, hread, hlen, Option.bind_eq_bind, Option.bind_some, fitting,
      cursorAfter, total, putRecords, List.map_nil, List.sum_nil, Nat.add_zero]
    split
    · rfl
    · rw [if_pos trivial]
  | @cons inode h es hne haligned hh hchain ih =>
    obtain ⟨fuel, rfl⟩ : ∃ k, fuel = k + 1 := ⟨fuel - 1, by omega⟩
    have hinfo : ntohl (wordBytes d inode) &&& ~~~0xf = h.next := by
      rw [ntohl_wordBytes, hh.info_eq]
      rfl
    have hlen := romfsStringLength_eq hh.name_eq
    have hstring : ∀ (m : Mem) (buffer : Nat),
        romfsReadString d (inode + 16) m buffer h.name.length =
          some (UInt32.ofNat (chunksLength h.name.length), write m buffer (h.name ++ [0])) := by
      intro m buffer
      rw [romfsReadString_eq hh.name_eq, Int.toNat_natCast, List.take_length]
    have hpos := (⟨inode, h⟩ : Entry).recLen_pos
    have hrec : recordLength h.name.length = (⟨inode, h⟩ : Entry).recLen := rfl
    simp only [getdentsLoop, hh.readInfo temp, hlen, hinfo, hstring, Option.bind_eq_bind,
      Option.bind_some, if_neg hne, fitting, hrec]
    by_cases hfit : (⟨inode, h⟩ : Entry).recLen ≤ size.toNat - used
    · have hsub : size.toNat - (used + (⟨inode, h⟩ : Entry).recLen) =
          size.toNat - used - (⟨inode, h⟩ : Entry).recLen := by omega
      rw [if_neg (by omega), if_pos hfit, writes_eq ⟨inode, h⟩,
        ih (by omega) (by omega), hsub, total_cons, Nat.add_assoc]
      rfl
    · rw [if_pos (by omega), if_neg hfit]
      rfl

theorem getdentsLoop_start (hvol : HasVolume d volume) {inode : UInt32} {es : List Entry}
    (hchain : Chain d inode es) (size : UInt32) (temp : Option (List UInt8)) (m : Mem) :
    getdentsLoop d size (size.toNat + 1) temp inode 0 m =
      some (cursorAfter volume size (total (fitting size.toNat es).1) (fitting size.toNat es).2,
        total (fitting size.toNat es).1, putRecords m 0 (fitting size.toNat es).1) := by
  rw [getdentsLoop_eq hvol hchain (Nat.zero_le _) (by omega), Nat.sub_zero, Nat.zero_add]

/-- The entries that the next call of a descriptor on the directory `dir` lists: those from
the cursor on, or all of them at the start. -/
def Remaining (d : Ramdisk) (dir cursor : UInt32) (es : List Entry) : Prop :=
  (cursor = 0 ∧ IsDirectory d dir es) ∨ (cursor ≠ 0 ∧ cursor ≠ 0xffffffff ∧ Chain d cursor es)

/-- One call of `romfs_getdents`. -/
theorem romfsGetdents_eq (hvol : HasVolume d volume) {dir cursor size : UInt32}
    {es : List Entry} (h : Remaining d dir cursor es) (m : Mem) :
    romfsGetdents d dir cursor m size =
      some (UInt32.ofNat (total (fitting size.toNat es).1),
        cursorAfter volume size (total (fitting size.toNat es).1) (fitting size.toNat es).2,
        putRecords m 0 (fitting size.toNat es).1) := by
  rcases h with ⟨rfl, hd, hh, htype, hchain⟩ | ⟨hne, hlast, hchain⟩
  · have hinfo : ¬ hd.info &&& 7 ≠ 1 := not_not.mpr htype
    simp only [romfsGetdents, if_neg (show ¬ (0 : UInt32) = 0xffffffff by decide), if_true,
      hh.readInfo, hh.readSpec, Option.bind_eq_bind, Option.bind_some, hh.ntohl_info,
      if_neg hinfo, hh.ntohl_spec, getdentsLoop_start hvol hchain]
  · simp only [romfsGetdents, if_neg hlast, if_neg hne, Option.bind_eq_bind, Option.bind_some,
      getdentsLoop_start hvol hchain]

end Vmwos.Romfs
