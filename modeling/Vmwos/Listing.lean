import Mathlib.Data.Finset.Card
import Mathlib.Order.Interval.Finset.Nat
import Vmwos.Dirents

/-!
# Listing a directory

A directory is listed by calls of `getdents` until one returns 0. The cursor of the
descriptor is an inode, with 0 for "not started" and 0xffffffff for "finished". When the
last entry has been returned the chain ends in 0, and `romfs_getdents` tests whether the
record of the header at offset 0 fits before it looks at the end of the chain. That
header is the volume's. If the test fails the cursor stays at 0, and the next call starts
over.

Results:
1. `one_call_encodes`: what one call writes is what a reader gets from the buffer, the longest run
   of entries whose records fit.
2. `listing_complete_iff`: the calls list every entry once, in order, and then end,
   exactly if the call that returns the last entry has room for a record with the volume
   name behind it.
3. `listing_starts_over`: an image and a sequence of buffers for which they do not.
-/

namespace Vmwos.Files

open Bytes Romfs

/-! ## Definitions -/

/-- A buffer passed to `getdents`. -/
structure Buffer where
  contents : Mem
  size : UInt32

/-- The calls with these buffers, one after the other, return these records in all and
then 0. -/
inductive Lists (d : Ramdisk) (fd : UInt32) : (Nat → Buffer) → State → List Record → Prop
  | done {bufs : Nat → Buffer} {f f' : State} {m : Mem} :
      getdents d f fd (bufs 0).contents (bufs 0).size = some (0, m, f') → Lists d fd bufs f []
  | more {bufs : Nat → Buffer} {f f' : State} {n : UInt32} {m : Mem} {records rest : List Record} :
      getdents d f fd (bufs 0).contents (bufs 0).size = some (n, m, f') →
      n ≠ 0 → ¬ isNeg n → walkRecords m n.toNat (n.toNat + 1) 0 = some records →
      Lists d fd (fun k => bufs (k + 1)) f' rest → Lists d fd bufs f (records ++ rest)

/-- The call that returns the last of the entries has room behind it for a record of the
given length. -/
inductive RoomAtEnd (length : Nat) : (Nat → Buffer) → List Entry → Prop
  | empty {bufs : Nat → Buffer} : RoomAtEnd length bufs []
  | last {bufs : Nat → Buffer} {es : List Entry} :
      total es + length ≤ (bufs 0).size.toNat → RoomAtEnd length bufs es
  | more {bufs : Nat → Buffer} {es : List Entry} :
      (bufs 0).size.toNat < total es →
      RoomAtEnd length (fun k => bufs (k + 1)) (fitting (bufs 0).size.toNat es).2 →
      RoomAtEnd length bufs es

/-- A call with a result and a buffer after it: the result is no error and no more than the size,
nothing is written from there on, and a reader of the buffer gets the records `es`, with their
names ended by a NUL and at multiples of 4, and stops at the result. -/
structure Encodes (size : UInt32) (m : Mem) (es : List Entry) (result : UInt32) (m' : Mem) :
    Prop where
  result_le : ¬ isNeg result ∧ result ≤ size
  below : ∀ x, result.toNat ≤ x → m' x = m x
  walk : ∃ places, walkPlaces m' result.toNat (result.toNat + 1) 0 = some (places, result.toNat) ∧
    places.map Prod.snd = es.map Entry.record ∧
    ∀ o ino name, (o, ino, name) ∈ places →
      o % 4 = 0 ∧ o + 12 + name.length < result.toNat ∧ StringAt m' (o + 12) name

/-- The longest run of entries from the first one on whose records fit. -/
structure LongestRun (room : Nat) (es taken : List Entry) : Prop where
  run : taken <+: es
  fits : total taken ≤ room
  longest : ∀ taken', taken' <+: es → total taken' ≤ room → taken'.length ≤ taken.length

/-- The bytes of the image that hold the header of an entry. -/
def extent (e : Entry) : Finset Nat :=
  Finset.Ico e.inode.toNat (e.inode.toNat + 16 + chunksLength e.header.name.length)

/-- The headers do not overlap. -/
def Apart (es : List Entry) : Prop := es.Pairwise fun e e' => Disjoint (extent e) (extent e')

instance (es : List Entry) : Decidable (Apart es) := inferInstanceAs (Decidable (List.Pairwise _ es))

/-! ## Records and the image -/

variable {d : Ramdisk} {inode : UInt32} {es : List Entry}

theorem chain_mem (h : Chain d inode es) {e : Entry} (he : e ∈ es) :
    HasHeader d e.inode e.header ∧ e.inode ≠ 0 ∧ e.inode.toNat % 16 = 0 := by
  induction h with
  | nil => exact absurd he List.not_mem_nil
  | cons hne haligned hh _ ih =>
    rcases List.mem_cons.mp he with rfl | he
    · exact ⟨hh, hne, haligned⟩
    · exact ih he

theorem chain_drop {before : List Entry} {e : Entry} (h : Chain d inode (before ++ e :: es)) :
    Chain d e.inode (e :: es) := by
  induction before generalizing inode with
  | nil =>
    cases h with
    | cons hne haligned hh hrest => exact .cons hne haligned hh hrest
  | cons e' before ih =>
    cases h with
    | cons _ _ _ hrest => exact ih hrest

theorem recLen_le_card (e : Entry) : e.recLen ≤ (extent e).card := by
  have hle := (recordLength_bounds e.header.name.length).2
  have hchunks : e.header.name.length ≤ chunksLength e.header.name.length := by
    rw [chunksLength]
    omega
  rw [extent, Nat.card_Ico, Entry.recLen]
  omega

/-- The bytes of the headers of all entries. -/
def extents : List Entry → Finset Nat
  | [] => ∅
  | e :: es => extent e ∪ extents es

theorem mem_extents {x : Nat} : x ∈ extents es ↔ ∃ e ∈ es, x ∈ extent e := by
  induction es with
  | nil => simp [extents]
  | cons e es ih => simp [extents, ih]

theorem total_le_card (h : Apart es) : total es ≤ (extents es).card := by
  induction es with
  | nil => exact Nat.zero_le _
  | cons e es ih =>
    obtain ⟨hfirst, hrest⟩ := List.pairwise_cons.mp h
    have hdisjoint : Disjoint (extent e) (extents es) := by
      rw [Finset.disjoint_left]
      intro x hx hx'
      obtain ⟨e', he', hxe'⟩ := mem_extents.mp hx'
      exact Finset.disjoint_left.mp (hfirst e' he') hx hxe'
    have hle := recLen_le_card e
    have htail := ih hrest
    rw [total_cons, extents, Finset.card_union_of_disjoint hdisjoint]
    omega

/-- Headers that do not overlap leave no room for more records than the image has bytes. -/
theorem total_le_length (hchain : Chain d inode es) (h : Apart es) :
    total es ≤ d.length.toNat := by
  have hsub : extents es ⊆ Finset.range d.length.toNat := by
    intro x hx
    obtain ⟨e, he, hxe⟩ := mem_extents.mp hx
    have hin := (chain_mem hchain he).1.inside
    rw [extent, Finset.mem_Ico] at hxe
    rw [Finset.mem_range]
    omega
  calc total es ≤ (extents es).card := total_le_card h
    _ ≤ (Finset.range d.length.toNat).card := Finset.card_le_card hsub
    _ = d.length.toNat := Finset.card_range _

/-! ## One call on a descriptor -/

variable {volume : List UInt8} {f : State} {fd dir cursor : UInt32}

/-- A call that lists the entries from the cursor on. -/
theorem getdents_eq (hvol : HasVolume d volume) (hopen : OpenOn f fd dir cursor)
    (hrem : Remaining d dir cursor es) (m : Mem) (size : UInt32) :
    getdents d f fd m size = some (UInt32.ofNat (total (fitting size.toNat es).1),
      putRecords m 0 (fitting size.toNat es).1,
      moveTo f fd dir (cursorAfter volume size (total (fitting size.toNat es).1)
        (fitting size.toNat es).2)) := by
  obtain ⟨hfd, hinfo⟩ := hopen
  rw [getdents, if_neg (not_le.mpr hfd), hinfo, if_neg (show ¬ (1 : UInt32) = 0 by decide)]
  simp only [romfsGetdents_eq hvol hrem, Option.bind_eq_bind, Option.bind_some]
  rfl

/-- A call after the end. -/
theorem getdents_finished (hopen : OpenOn f fd dir 0xffffffff) (m : Mem) (size : UInt32) :
    getdents d f fd m size = some (0, m, moveTo f fd dir 0xffffffff) := by
  obtain ⟨hfd, hinfo⟩ := hopen
  rw [getdents, if_neg (not_le.mpr hfd), hinfo, if_neg (show ¬ (1 : UInt32) = 0 by decide)]
  simp only [romfsGetdents, if_true, Option.bind_eq_bind, Option.bind_some]
  rfl

/-- What the entries of a directory listing need: no record is too long for the arithmetic
of a call. -/
structure Listable (d : Ramdisk) (es : List Entry) : Prop where
  header : ∀ e ∈ es, HasHeader d e.inode e.header
  small : total es < 2 ^ 31

theorem Listable.of_append {es₁ es₂ : List Entry} (h : Listable d (es₁ ++ es₂)) :
    Listable d es₁ ∧ Listable d es₂ := by
  have hsmall := h.small
  rw [total_append] at hsmall
  constructor
  · exact ⟨fun e he => h.header e (by simp [he]), by omega⟩
  · exact ⟨fun e he => h.header e (by simp [he]), by omega⟩

theorem Listable.result {taken : List Entry} (h : Listable d taken) :
    (UInt32.ofNat (total taken)).toNat = total taken ∧ ¬ isNeg (UInt32.ofNat (total taken)) := by
  have hsmall := h.small
  have hnat : (UInt32.ofNat (total taken)).toNat = total taken :=
    UInt32.toNat_ofNat_of_lt' (lt_trans hsmall (by decide))
  refine ⟨hnat, ?_⟩
  rw [isNeg, hnat]
  omega

theorem length_le_total (taken : List Entry) : taken.length ≤ total taken := by
  induction taken with
  | nil => exact Nat.zero_le _
  | cons e taken ih =>
    have hpos := e.recLen_pos
    rw [total_cons, List.length_cons]
    omega

/-- A reader of the buffer of a call finds the records of the entries that fitted. -/
theorem Listable.walk {taken : List Entry} (h : Listable d taken) (m : Mem) :
    walkRecords (putRecords m 0 taken) (UInt32.ofNat (total taken)).toNat
      ((UInt32.ofNat (total taken)).toNat + 1) 0 = some (taken.map Entry.record) := by
  have hlen := length_le_total taken
  have hwalk : walkRecords (putRecords m 0 taken) (0 + total taken) (total taken + 1) 0 =
      some (taken.map Entry.record) :=
    walkRecords_putRecords (by omega) (fun e he => (h.header e he).name_eq.nonzero)
      (fun e he => (h.header e he).recordLength_lt)
  rw [Nat.zero_add] at hwalk
  rw [h.result.1, hwalk]

theorem total_pos {taken : List Entry} (h : taken ≠ []) : 0 < total taken := by
  obtain ⟨e, es, rfl⟩ := List.exists_cons_of_ne_nil h
  have hpos := e.recLen_pos
  rw [total_cons]
  omega

theorem Listable.result_ne_zero {taken : List Entry} (h : Listable d taken) (hne : taken ≠ []) :
    UInt32.ofNat (total taken) ≠ 0 := by
  intro hzero
  have hnat := h.result.1
  rw [hzero] at hnat
  exact (total_pos hne).ne hnat

/-- The cursor at an entry of the chain is neither of the two special values. -/
theorem remaining_of_chain {e : Entry} {dir : UInt32} (hchain : Chain d e.inode (e :: es)) :
    Remaining d dir e.inode (e :: es) := by
  obtain ⟨_, hne, haligned⟩ := chain_mem hchain List.mem_cons_self
  refine .inr ⟨hne, fun hlast => ?_, hchain⟩
  rw [hlast] at haligned
  exact absurd haligned (by decide)

theorem chain_of_remaining (h : Remaining d dir cursor es) : ∃ i, Chain d i es := by
  rcases h with ⟨_, hd, _, _, hchain⟩ | ⟨_, _, hchain⟩
  · exact ⟨_, hchain⟩
  · exact ⟨_, hchain⟩

/-- After a call that does not get to the end, the next one goes on at the cursor. -/
theorem remaining_rest (h : Remaining d dir cursor es) (volume : List UInt8) {size : UInt32}
    (used : Nat) (hrest : (fitting size.toNat es).2 ≠ []) :
    Remaining d dir (cursorAfter volume size used (fitting size.toNat es).2)
      (fitting size.toNat es).2 := by
  obtain ⟨i, hchain⟩ := chain_of_remaining h
  obtain ⟨e, rest, hcons⟩ := List.exists_cons_of_ne_nil hrest
  rw [← fitting_append size.toNat es, hcons] at hchain
  rw [hcons]
  exact remaining_of_chain (chain_drop hchain)

/-! ## 1. One call -/

theorem longestRun_fitting (room : Nat) (es : List Entry) :
    LongestRun room es (fitting room es).1 :=
  ⟨⟨_, fitting_append room es⟩, fitting_le room es, fun _ hrun hfits => fitting_longest hrun hfits⟩

theorem Listable.encodes {taken : List Entry} (h : Listable d taken) {size : UInt32}
    (hfits : total taken ≤ size.toNat) (m : Mem) :
    Encodes size m taken (UInt32.ofNat (total taken)) (putRecords m 0 taken) := by
  have hlen := length_le_total taken
  have hz : ∀ e ∈ taken, ∀ c ∈ e.header.name, c ≠ 0 := fun e he => (h.header e he).name_eq.nonzero
  have hlt : ∀ e ∈ taken, e.recLen < 2 ^ 32 := fun e he => (h.header e he).recordLength_lt
  have hwalk := walkPlaces_putRecords (m := m) (p := 0) (Nat.lt_succ_of_le hlen) hz hlt
  obtain ⟨hnat, hneg⟩ := h.result
  rw [Nat.zero_add] at hwalk
  refine ⟨⟨hneg, ?_⟩, fun x hx => ?_, placesOf 0 taken, ?_, map_snd_placesOf 0 taken,
    fun o ino name hmem => ?_⟩
  · rwa [UInt32.le_iff_toNat_le, hnat]
  · rw [hnat] at hx
    exact putRecords_above (by rwa [Nat.zero_add])
  · rw [hnat]
    exact hwalk
  · obtain ⟨haligned, hbelow, hstring⟩ := place_of_mem (m := m) hz hmem
    rw [Nat.zero_add] at hbelow
    rw [hnat]
    exact ⟨haligned, hbelow, hstring⟩

/-- One call, on a well-formed image below 2 GB, from the start of a directory or a cursor at one of
its entries on, for every buffer. -/
theorem one_call_encodes (d : Ramdisk) (hlength : d.length.toNat < 2 ^ 31) (volume : List UInt8)
    (hvol : HasVolume d volume) (dir cursor : UInt32) (es : List Entry)
    (hrem : Remaining d dir cursor es) (hapart : Apart es) (m : Mem) (size : UInt32) :
    ∃ result cursor' m' taken, romfsGetdents d dir cursor m size = some (result, cursor', m') ∧
      Encodes size m taken result m' ∧ LongestRun size.toNat es taken := by
  obtain ⟨i, hchain⟩ := chain_of_remaining hrem
  have hlist : Listable d es :=
    ⟨fun e he => (chain_mem hchain he).1,
      lt_of_le_of_lt (total_le_length hchain hapart) hlength⟩
  have htaken := (Listable.of_append ((fitting_append size.toNat es).symm ▸ hlist)).1
  exact ⟨_, _, _, _, romfsGetdents_eq hvol hrem m, htaken.encodes (fitting_le _ _) m,
    longestRun_fitting _ _⟩

/-! ## 2. All calls -/

theorem lists_of_roomAtEnd (hvol : HasVolume d volume) {bufs : Nat → Buffer}
    (hroom : RoomAtEnd (recordLength volume.length) bufs es) {f : State} {cursor : UInt32}
    (hopen : OpenOn f fd dir cursor) (hrem : Remaining d dir cursor es) (hlist : Listable d es)
    (hsize : ∀ k, ∀ e ∈ es, e.recLen ≤ (bufs k).size.toNat) :
    Lists d fd bufs f (es.map Entry.record) := by
  induction hroom generalizing f cursor with
  | @empty bufs => exact .done (getdents_eq hvol hopen hrem _ _)
  | @last bufs es hlast =>
    have hcall := getdents_eq hvol hopen hrem (bufs 0).contents (bufs 0).size
    rw [fitting_all (Nat.le_of_add_right_le hlast)] at hcall
    by_cases hne : es = []
    · subst hne
      exact .done hcall
    · have hcursor : cursorAfter volume (bufs 0).size (total es) [] = 0xffffffff := by
        rw [cursorAfter, if_neg (by omega)]
      rw [hcursor] at hcall
      rw [← List.append_nil (es.map Entry.record)]
      exact .more hcall (hlist.result_ne_zero hne) hlist.result.2 (hlist.walk _)
        (.done (getdents_finished (openOn_moveTo hopen.1) _ _))
  | @more bufs es hover _ ih =>
    have hcall := getdents_eq hvol hopen hrem (bufs 0).contents (bufs 0).size
    have happend := fitting_append (bufs 0).size.toNat es
    obtain ⟨htaken, hrest⟩ := Listable.of_append (happend.symm ▸ hlist)
    have hne : (fitting (bufs 0).size.toNat es).1 ≠ [] := by
      cases es with
      | nil => exact absurd hover (Nat.not_lt_zero _)
      | cons e es => exact fitting_taken_ne_nil (hsize 0 e List.mem_cons_self)
    have hnext := ih (openOn_moveTo (f := f) hopen.1)
      (remaining_rest hrem volume (total (fitting (bufs 0).size.toNat es).1)
        (fitting_rest_ne_nil hover)) hrest
      fun k e he => hsize (k + 1) e (by rw [← happend]; exact List.mem_append_right _ he)
    have hmap : es.map Entry.record = (fitting (bufs 0).size.toNat es).1.map Entry.record ++
        (fitting (bufs 0).size.toNat es).2.map Entry.record := by
      rw [← List.map_append, happend]
    rw [hmap]
    exact .more hcall (htaken.result_ne_zero hne) htaken.result.2 (htaken.walk _) hnext

/-- What a listing starts with, when its first call returns some entries. -/
theorem lists_inv (hvol : HasVolume d volume) {bufs : Nat → Buffer} {f : State} {cursor : UInt32}
    {records : List Record} (hopen : OpenOn f fd dir cursor) (hrem : Remaining d dir cursor es)
    (hlist : Listable d es) (hne : (fitting (bufs 0).size.toNat es).1 ≠ [])
    (h : Lists d fd bufs f records) :
    ∃ rest, records = (fitting (bufs 0).size.toNat es).1.map Entry.record ++ rest ∧
      Lists d fd (fun k => bufs (k + 1)) (moveTo f fd dir (cursorAfter volume (bufs 0).size
        (total (fitting (bufs 0).size.toNat es).1) (fitting (bufs 0).size.toNat es).2)) rest := by
  have hcall := getdents_eq hvol hopen hrem (bufs 0).contents (bufs 0).size
  have htaken := (Listable.of_append ((fitting_append (bufs 0).size.toNat es).symm ▸ hlist)).1
  cases h with
  | done hdone =>
    have heq := Option.some.inj (hdone.symm.trans hcall)
    exact absurd (congrArg Prod.fst heq).symm (htaken.result_ne_zero hne)
  | more hmore _ _ hwalk hrest =>
    cases Option.some.inj (hmore.symm.trans hcall)
    cases Option.some.inj (hwalk.symm.trans (htaken.walk _))
    exact ⟨_, rfl, hrest⟩

/-- The condition is needed: from the start of the directory, or from any later entry. -/
theorem roomAtEnd_of_lists (hvol : HasVolume d volume) {all : List Entry}
    (hdir : IsDirectory d dir all) (hall : Listable d all) :
    ∀ (n : Nat) {es : List Entry} {bufs : Nat → Buffer} {f : State} {cursor : UInt32},
      es.length ≤ n → (∀ e ∈ es, e ∈ all) → OpenOn f fd dir cursor →
      Remaining d dir cursor es → Listable d es →
      (∀ k, ∀ e ∈ all, e.recLen ≤ (bufs k).size.toNat) →
      Lists d fd bufs f (es.map Entry.record) →
      RoomAtEnd (recordLength volume.length) bufs es := by
  intro n
  induction n with
  | zero =>
    intro es _ _ _ hlen _ _ _ _ _ _
    rw [List.length_eq_zero_iff.mp (Nat.le_zero.mp hlen)]
    exact .empty
  | succ n ih =>
    intro es bufs f cursor hlen hsub hopen hrem hlist hsize hlists
    cases es with
    | nil => exact .empty
    | cons e es =>
      have hne : (fitting (bufs 0).size.toNat (e :: es)).1 ≠ [] :=
        fitting_taken_ne_nil (hsize 0 e (hsub e List.mem_cons_self))
      obtain ⟨rest, heq, hrest⟩ := lists_inv hvol hopen hrem hlist hne hlists
      have happend := fitting_append (bufs 0).size.toNat (e :: es)
      rcases Nat.lt_or_ge (bufs 0).size.toNat (total (e :: es)) with hover | hfit
      · -- entries are left: the listing goes on with them
        have hnext : rest = (fitting (bufs 0).size.toNat (e :: es)).2.map Entry.record := by
          rw [← happend, List.map_append, happend] at heq
          exact (List.append_cancel_left heq).symm
        rw [hnext] at hrest
        refine .more hover (ih ?_ (fun e' he' => hsub e' ?_) (openOn_moveTo hopen.1)
          (remaining_rest hrem _ _ (fitting_rest_ne_nil hover))
          (Listable.of_append (happend.symm ▸ hlist)).2 (fun k => hsize (k + 1)) hrest)
        · have hpos := List.length_pos_of_ne_nil hne
          have hsum := congrArg List.length happend
          rw [List.length_append] at hsum
          omega
        · rw [← happend]
          exact List.mem_append_right _ he'
      · -- the last entry was returned
        rw [fitting_all hfit] at heq hrest
        have hnil : rest = [] := List.self_eq_append_right.mp heq
        by_contra hno
        have hcursor : cursorAfter volume (bufs 0).size (total (e :: es)) [] = 0 := by
          rw [cursorAfter, if_pos]
          by_contra hroom
          exact hno (.last (by omega))
        rw [hcursor, hnil] at hrest
        have hne' : (fitting (bufs 1).size.toNat all).1 ≠ [] := by
          cases all with
          | nil => exact absurd (hsub e List.mem_cons_self) List.not_mem_nil
          | cons a all => exact fitting_taken_ne_nil (hsize 1 a List.mem_cons_self)
        obtain ⟨rest', heq', _⟩ := lists_inv hvol (openOn_moveTo hopen.1) (.inl ⟨rfl, hdir⟩) hall
          hne' hrest
        exact hne' (List.map_eq_nil_iff.mp (List.append_eq_nil_iff.mp heq'.symm).1)

/-- Directory listing over any sequence of calls on a freshly opened descriptor. Every
image in memory is shorter than 2^31 bytes. -/
theorem listing_complete_iff (d : Ramdisk) (hlength : d.length.toNat < 2 ^ 31)
    (volume : List UInt8) (hvol : HasVolume d volume) (dir : UInt32) (es : List Entry)
    (hdir : IsDirectory d dir es) (hapart : Apart es) (f : State) (fd : UInt32) (t : FdTable)
    (hfd : fdAllocate f.fdTable dir = (fd, t)) (hopened : ¬ isNeg fd) (bufs : Nat → Buffer)
    (hsize : ∀ k, ∀ e ∈ es, e.recLen ≤ (bufs k).size.toNat) :
    Lists d fd bufs { f with fdTable := t } (es.map Entry.record) ↔
      RoomAtEnd (recordLength volume.length) bufs es := by
  obtain ⟨hlt, _, rfl⟩ := fdAllocate_opened hfd hopened
  have hopen : OpenOn (moveTo f fd dir 0) fd dir 0 := openOn_moveTo hlt
  obtain ⟨hd, hh, htype, hchain⟩ := hdir
  have hlist : Listable d es :=
    ⟨fun e he => (chain_mem hchain he).1,
      lt_of_le_of_lt (total_le_length hchain hapart) hlength⟩
  have hdir : IsDirectory d dir es := ⟨hd, hh, htype, hchain⟩
  constructor
  · exact roomAtEnd_of_lists hvol hdir hlist es.length (le_refl _) (fun _ he => he) hopen
      (.inl ⟨rfl, hdir⟩) hlist hsize
  · exact fun hroom => lists_of_roomAtEnd hvol hroom hopen (.inl ⟨rfl, hdir⟩) hlist hsize

/-! ## 3. A listing that starts over -/

/-- A volume `vmwos` whose root directory has the empty files `a` and `b`. -/
def smallVolume : List UInt8 := [118, 109, 119, 111, 115]
def smallRoot : Header := ⟨1, 64, 0, [46]⟩
def smallA : Entry := ⟨64, 98, 0, 0, [97]⟩
def smallB : Entry := ⟨96, 2, 0, 0, [98]⟩
def smallImage : List UInt8 :=
  [45, 114, 111, 109, 49, 102, 115, 45] ++ beBytes 128 ++ beBytes 0 ++ padded smallVolume ++
    headerBytes smallRoot ++ headerBytes smallA.header ++ headerBytes smallB.header
def smallDisk : Ramdisk := ⟨fun i => smallImage[i]?.getD 0, 128⟩

theorem small_volume : HasVolume smallDisk smallVolume :=
  show IsString smallDisk 16 smallVolume by decide +kernel

theorem small_directory : IsDirectory smallDisk 32 [smallA, smallB] := by
  refine ⟨smallRoot, by decide +kernel, by decide, ?_⟩
  refine .cons (by decide) (by decide) (by decide +kernel) ?_
  exact .cons (by decide) (by decide) (by decide +kernel) .nil

/-- The descriptor table at boot, and with the root directory open as descriptor 3. -/
def bootFiles : State := ⟨fdTableInit fun _ => ⟨0, 0, 0⟩, 32⟩
def rootOpened : State := { bootFiles with fdTable := (fdAllocate bootFiles.fdTable 32).2 }

/-- Buffers of one size. -/
def buffersOf (size : UInt32) : Nat → Buffer := fun _ => ⟨fun _ => 0, size⟩

theorem small_listable : Listable smallDisk [smallA, smallB] := by
  obtain ⟨_, _, _, hchain⟩ := small_directory
  exact ⟨fun e he => (chain_mem hchain he).1, by decide⟩

/-- A buffer of 16 bytes holds the first file. -/
theorem one_call_encodes_first :
    ∃ result cursor' m' taken,
      romfsGetdents smallDisk 32 0 (fun _ => 0) 16 = some (result, cursor', m') ∧
        Encodes 16 (fun _ => 0) taken result m' ∧ LongestRun 16 [smallA, smallB] taken :=
  one_call_encodes smallDisk (by decide) smallVolume small_volume 32 0 [smallA, smallB]
    (.inl ⟨rfl, small_directory⟩) (by decide) (fun _ => 0) 16

/-- With buffers of 64 bytes both files are listed. -/
theorem listing_complete_iff_small :
    Lists smallDisk 3 (buffersOf 64) rootOpened [smallA.record, smallB.record] := by
  refine (listing_complete_iff smallDisk (by decide) smallVolume small_volume 32 [smallA, smallB]
    small_directory (by decide) bootFiles 3 _ rfl (by decide) (buffersOf 64)
    fun k => by simp only [buffersOf]; decide).mpr ?_
  exact .last (by decide)

/-- Buffers of 32 bytes hold the two records and not the 20 bytes more for the volume name:
the listing starts over. -/
theorem listing_starts_over :
    (∀ k, ∀ e ∈ [smallA, smallB], e.recLen ≤ (buffersOf 32 k).size.toNat) ∧
      ¬ Lists smallDisk 3 (buffersOf 32) rootOpened [smallA.record, smallB.record] := by
  have hsize : ∀ k, ∀ e ∈ [smallA, smallB], e.recLen ≤ (buffersOf 32 k).size.toNat := by
    intro k
    simp only [buffersOf]
    decide
  refine ⟨hsize, fun hlists => ?_⟩
  have hroom := roomAtEnd_of_lists small_volume small_directory small_listable 2 (le_refl 2)
    (fun _ he => he) (show OpenOn rootOpened 3 32 0 from ⟨by decide, by decide⟩)
    (.inl ⟨rfl, small_directory⟩) small_listable hsize hlists
  cases hroom with
  | last hlast => exact absurd hlast (by decide)
  | more hover => exact absurd hover (by decide)

end Vmwos.Files
