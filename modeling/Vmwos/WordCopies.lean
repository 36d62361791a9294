import Vmwos.Bytes
import Vmwos.Memset

/-!
# Copies by words

`memcpy_4byte` and `memset_4byte` go over memory in words, and over what is left in bytes. The
tail loop of `memcpy_4byte` starts at the first byte again. `memset_4byte` has a head of its own
for a start that is not a multiple of 4, and counts the words and the tail from the wrong places.
A word is its four bytes, the low one first, and indices are 32 bits wide and wrap.

Result: `word_copies_iff`. Each of the two has the effect of its byte loop exactly when the bytes
that only one of the loops writes hold the right values before.
-/

namespace Vmwos.WordCopies

open Arm Bytes Memset

/-! ## Definitions -/

def copyByte (dest src : UInt32) (m : Memory) (i : Nat) : Memory :=
  Function.update m (dest + UInt32.ofNat i) (m (src + UInt32.ofNat i))

/-- `memcpy`: the memory after it. -/
def memcpy (mem : Memory) (dest src n : UInt32) : Memory :=
  (List.range n.toNat).foldl (copyByte dest src) mem

def loadWord (m : Memory) (a : UInt32) : UInt32 := ofLe [m a, m (a + 1), m (a + 2), m (a + 3)]

def copyWord (dest src : UInt32) (m : Memory) (i : Nat) : Memory :=
  Cpu.storeWord m (dest + 4 * UInt32.ofNat i) (loadWord m (src + 4 * UInt32.ofNat i))

/-- `memcpy_4byte`. -/
def memcpy4byte (mem : Memory) (dest src n : UInt32) : Memory :=
  let tail := n % 4
  let m := (List.range ((n - tail) / 4).toNat).foldl (copyWord dest src) mem
  (List.range tail.toNat).foldl (copyByte dest src) m

/-- `memset_4byte`. -/
def memset4byte (mem : Memory) (s c n : UInt32) : Memory :=
  let pattern := c &&& 0xff
  let pattern := pattern ||| pattern <<< 8 ||| pattern <<< 16 ||| pattern <<< 24
  let offset := s % 4
  let head := if offset ≠ 0 then 4 - offset else 0
  let m := (List.range head.toNat).foldl
    (fun m i => Function.update m (s + UInt32.ofNat i) c.toUInt8) mem
  let b := s + head
  let count := if offset ≠ 0 then n - 1 else n
  let m := (List.range (count / 4).toNat).foldl
    (fun m i => Cpu.storeWord m (b + 4 * UInt32.ofNat i) pattern) m
  (List.range offset.toNat).foldl
    (fun m i => Function.update m (s + ((n - offset) + UInt32.ofNat i)) c.toUInt8) m

/-- No byte belongs to both buffers. -/
def NoOverlap (dest src n : UInt32) : Prop :=
  ∀ i < n.toNat, ∀ j < n.toNat, dest + UInt32.ofNat i ≠ src + UInt32.ofNat j

/-- What the destination must hold, for `memcpy_4byte` to leave what `memcpy` does. -/
def CopyHeld (mem : Memory) (dest src n : UInt32) : Prop :=
  n.toNat < 4 ∨ ∀ i, n.toNat / 4 * 4 ≤ i → i < n.toNat →
    mem (dest + UInt32.ofNat i) = mem (src + UInt32.ofNat i)

/-- What memory must hold, for `memset_4byte` to leave what `memset_byte` does: from an aligned start
the bytes behind the last word; else what is written behind the end and, by a tail longer than the
buffer, in front of the start. A count of 0 wraps. -/
def SetHeld (mem : Memory) (s c n : UInt32) : Prop :=
  if s.toNat % 4 = 0 then
    ∀ i, n.toNat / 4 * 4 ≤ i → i < n.toNat → mem (s + UInt32.ofNat i) = c.toUInt8
  else if n.toNat = 0 then ∀ x, mem x = c.toUInt8
  else
    (∀ i, n.toNat ≤ i → i < n.toNat + (3 - s.toNat % 4 - (n.toNat - 1) % 4) →
      mem (s + UInt32.ofNat i) = c.toUInt8) ∧
    ∀ j, 0 < j → j ≤ s.toNat % 4 - n.toNat → mem (s - UInt32.ofNat j) = c.toUInt8

/-! ## Copying -/

variable {mem m : Memory} {dest src s n a : UInt32} {c : UInt8} {k q : Nat}

/-- The memory with `k` bytes from `src` at `dest`. -/
def copied (mem : Memory) (dest src : UInt32) (k : Nat) : Memory := fun x =>
  if (x - dest).toNat < k then mem (src + (x - dest)) else mem x

theorem add_offset (a x : UInt32) : a + (x - a) = x := by
  rw [UInt32.add_comm, UInt32.sub_add_cancel]

theorem offset_add (a d : UInt32) : a + d - a = d := by
  rw [UInt32.add_comm, UInt32.add_sub_cancel]

theorem toUInt8_loadWord (m : Memory) (a : UInt32) :
    (loadWord m a).toUInt8 = m a ∧ (loadWord m a >>> 8).toUInt8 = m (a + 1) ∧
      (loadWord m a >>> 16).toUInt8 = m (a + 2) ∧ (loadWord m a >>> 24).toUInt8 = m (a + 3) := by
  have h₀ := (m a).toNat_lt
  have h₁ := (m (a + 1)).toNat_lt
  have h₂ := (m (a + 2)).toNat_lt
  have h₃ := (m (a + 3)).toNat_lt
  have hword : (loadWord m a).toNat = (m (a + 3)).toNat * 2 ^ 24 + (m (a + 2)).toNat * 2 ^ 16 +
      (m (a + 1)).toNat * 2 ^ 8 + (m a).toNat := by
    simp only [loadWord, ofLe, List.reverse_cons, List.reverse_nil, List.nil_append,
      List.cons_append, toNat_ofBe]
  have hbyte : ∀ {e : UInt32} {b : UInt8}, e.toNat < 32 →
      (loadWord m a).toNat / 2 ^ e.toNat % 2 ^ 8 = b.toNat → (loadWord m a >>> e).toUInt8 = b := by
    intro e b he hb
    apply UInt8.toNat_inj.mp
    rw [UInt32.toNat_toUInt8, UInt32.toNat_shiftRight, Nat.mod_eq_of_lt he,
      Nat.shiftRight_eq_div_pow, hb]
  refine ⟨?_, hbyte (by decide) ?_, hbyte (by decide) ?_, hbyte (by decide) ?_⟩
  · apply UInt8.toNat_inj.mp
    rw [UInt32.toNat_toUInt8, hword]
    omega
  · rw [hword]
    show _ / 2 ^ 8 % 2 ^ 8 = _
    omega
  · rw [hword]
    show _ / 2 ^ 16 % 2 ^ 8 = _
    omega
  · rw [hword]
    show _ / 2 ^ 24 % 2 ^ 8 = _
    omega

/-- A byte of the source is not in the part of the destination that has been written. -/
theorem NoOverlap.copied_src (h : NoOverlap dest src n) {i : Nat} (hi : i < n.toNat)
    (hk : k ≤ n.toNat) : copied mem dest src k (src + UInt32.ofNat i) = mem (src + UInt32.ofNat i) := by
  refine if_neg fun hlt => ?_
  refine h (src + UInt32.ofNat i - dest).toNat (hlt.trans_le hk) i hi ?_
  rw [UInt32.ofNat_toNat, add_offset]

/-- A byte of the destination that has been written. -/
theorem copied_dest {i : Nat} (hi : i < k) (hk : k ≤ 2 ^ 32) :
    copied mem dest src k (dest + UInt32.ofNat i) = mem (src + UInt32.ofNat i) := by
  have hto : (UInt32.ofNat i).toNat = i := UInt32.toNat_ofNat_of_lt' (hi.trans_le hk)
  unfold copied
  rw [offset_add, hto, if_pos hi]

/-- One more byte. -/
theorem update_copied (hk : k < 2 ^ 32) :
    Function.update (copied mem dest src k) (dest + UInt32.ofNat k) (mem (src + UInt32.ofNat k)) =
      copied mem dest src (k + 1) := by
  have hto : (UInt32.ofNat k).toNat = k := UInt32.toNat_ofNat_of_lt' hk
  funext x
  by_cases heq : x = dest + UInt32.ofNat k
  · have hoffset : x - dest = UInt32.ofNat k := by rw [heq, offset_add]
    unfold copied
    rw [heq, Function.update_self, ← heq, hoffset, hto, if_pos (Nat.lt_succ_self k)]
  · have hne : (x - dest).toNat ≠ k := by
      intro hk'
      refine heq ?_
      rw [← hk', UInt32.ofNat_toNat, add_offset]
    have hiff : (x - dest).toNat < k + 1 ↔ (x - dest).toNat < k := by omega
    unfold copied
    rw [Function.update_of_ne heq]
    simp only [hiff]

theorem NoOverlap.copyByte_copied (h : NoOverlap dest src n) (hk : k < n.toNat) :
    copyByte dest src (copied mem dest src k) k = copied mem dest src (k + 1) := by
  unfold copyByte
  rw [h.copied_src hk hk.le, update_copied (hk.trans n.toNat_lt)]

theorem NoOverlap.memcpy_eq (h : NoOverlap dest src n) :
    memcpy mem dest src n = copied mem dest src n.toNat := by
  have hfirst : ∀ k ≤ n.toNat,
      (List.range k).foldl (copyByte dest src) mem = copied mem dest src k := by
    intro k hk
    induction k with
    | zero => rfl
    | succ k ih =>
      rw [List.range_succ, List.foldl_append, ih (Nat.le_of_succ_le hk), List.foldl_cons,
        List.foldl_nil, h.copyByte_copied hk]
  exact hfirst n.toNat (le_refl _)

/-- One more word. -/
theorem NoOverlap.copyWord_copied (h : NoOverlap dest src n) (hq : 4 * q + 4 ≤ n.toNat) :
    copyWord dest src (copied mem dest src (4 * q)) q = copied mem dest src (4 * q + 4) := by
  have hn := n.toNat_lt
  have hword : ∀ a : UInt32, a + 4 * UInt32.ofNat q = a + UInt32.ofNat (4 * q) := fun a => by
    rw [UInt32.ofNat_mul]
    rfl
  have hbyte : ∀ (a : UInt32) (j : Nat),
      a + UInt32.ofNat (4 * q) + UInt32.ofNat j = a + UInt32.ofNat (4 * q + j) := fun a j => by
    rw [UInt32.ofNat_add, UInt32.add_assoc]
  have hbyte₁ : ∀ a : UInt32, a + UInt32.ofNat (4 * q) + 1 = a + UInt32.ofNat (4 * q + 1) :=
    fun a => hbyte a 1
  have hbyte₂ : ∀ a : UInt32, a + UInt32.ofNat (4 * q) + 2 = a + UInt32.ofNat (4 * q + 2) :=
    fun a => hbyte a 2
  have hbyte₃ : ∀ a : UInt32, a + UInt32.ofNat (4 * q) + 3 = a + UInt32.ofNat (4 * q + 3) :=
    fun a => hbyte a 3
  have hsrc : ∀ j < 4, copied mem dest src (4 * q) (src + UInt32.ofNat (4 * q + j)) =
      mem (src + UInt32.ofNat (4 * q + j)) := fun j hj => h.copied_src (by omega) (by omega)
  have hnext : ∀ j < 4, Function.update (copied mem dest src (4 * q + j))
      (dest + UInt32.ofNat (4 * q + j)) (mem (src + UInt32.ofNat (4 * q + j))) =
        copied mem dest src (4 * q + j + 1) := fun j hj => update_copied (by omega)
  obtain ⟨h₀, h₁, h₂, h₃⟩ :=
    toUInt8_loadWord (copied mem dest src (4 * q)) (src + 4 * UInt32.ofNat q)
  unfold copyWord Cpu.storeWord
  rw [h₀, h₁, h₂, h₃, hword, hword]
  have hsrc₀ := hsrc 0 (by decide)
  have hnext₀ := hnext 0 (by decide)
  rw [Nat.add_zero] at hsrc₀ hnext₀
  simp only [hbyte₁, hbyte₂, hbyte₃]
  rw [hsrc₀, hsrc 1 (by decide), hsrc 2 (by decide), hsrc 3 (by decide), hnext₀,
    hnext 1 (by decide), hnext 2 (by decide), hnext 3 (by decide)]

theorem NoOverlap.wordLoop_eq (h : NoOverlap dest src n) (hq : 4 * q ≤ n.toNat) :
    (List.range q).foldl (copyWord dest src) mem = copied mem dest src (4 * q) := by
  induction q with
  | zero => rfl
  | succ q ih =>
    rw [List.range_succ, List.foldl_append, ih (by omega), List.foldl_cons, List.foldl_nil,
      h.copyWord_copied hq]
    rfl

/-- The tail loop starts at the first byte. -/
theorem NoOverlap.tailLoop_eq (h : NoOverlap dest src n) {t : Nat} (hk : k ≤ n.toNat)
    (ht : t ≤ n.toNat) :
    (List.range t).foldl (copyByte dest src) (copied mem dest src k) =
      copied mem dest src (max k t) := by
  induction t with
  | zero => rw [Nat.max_zero]; rfl
  | succ t ih =>
    rw [List.range_succ, List.foldl_append, ih (Nat.le_of_succ_le ht), List.foldl_cons,
      List.foldl_nil]
    rcases Nat.lt_or_ge t k with hlt | hge
    · -- the byte is written with its value again
      have hdest : copied mem dest src k (dest + UInt32.ofNat t) = mem (src + UInt32.ofNat t) :=
        copied_dest hlt (hk.trans n.toNat_lt.le)
      rw [Nat.max_eq_left hlt.le, Nat.max_eq_left hlt]
      unfold copyByte
      rw [h.copied_src ht hk, ← hdest, Function.update_eq_self]
    · rw [Nat.max_eq_right hge, h.copyByte_copied ht, Nat.max_eq_right (Nat.le_succ_of_le hge)]

theorem NoOverlap.memcpy4byte_eq (h : NoOverlap dest src n) :
    memcpy4byte mem dest src n =
      copied mem dest src (max (4 * (n.toNat / 4)) (n.toNat % 4)) := by
  have hn := n.toNat_lt
  have htail : (n % 4).toNat = n.toNat % 4 := UInt32.toNat_mod n 4
  have hle : n % 4 ≤ n := by
    rw [UInt32.le_iff_toNat_le, htail]
    exact Nat.mod_le _ _
  have hwords : ((n - n % 4) / 4).toNat = n.toNat / 4 := by
    rw [UInt32.toNat_div, UInt32.toNat_sub_of_le _ _ hle, htail]
    show (n.toNat - n.toNat % 4) / 4 = _
    omega
  unfold memcpy4byte
  simp only [htail, hwords]
  rw [h.wordLoop_eq (by omega), h.tailLoop_eq (by omega) (by omega)]

/-- Two copies of different lengths are the same when the bytes between them were. -/
theorem copied_eq_copied_iff {l : Nat} (hkl : k ≤ l) (hl : l ≤ 2 ^ 32) :
    copied mem dest src k = copied mem dest src l ↔
      ∀ i, k ≤ i → i < l → mem (dest + UInt32.ofNat i) = mem (src + UInt32.ofNat i) := by
  constructor
  · intro heq i hk hi
    have hto : (UInt32.ofNat i).toNat = i := UInt32.toNat_ofNat_of_lt' (hi.trans_le hl)
    have hshort : copied mem dest src k (dest + UInt32.ofNat i) = mem (dest + UInt32.ofNat i) := by
      unfold copied
      rw [offset_add, hto, if_neg (Nat.not_lt.mpr hk)]
    rw [← hshort, heq, copied_dest hi hl]
  · intro h
    funext x
    have hx : dest + UInt32.ofNat (x - dest).toNat = x := by rw [UInt32.ofNat_toNat, add_offset]
    by_cases hk : (x - dest).toNat < k
    · unfold copied
      rw [if_pos hk, if_pos (hk.trans_le hkl)]
    · by_cases hl : (x - dest).toNat < l
      · have hsame := h (x - dest).toNat (Nat.not_lt.mp hk) hl
        rw [hx, UInt32.ofNat_toNat] at hsame
        unfold copied
        rw [if_neg hk, if_pos hl, hsame]
      · unfold copied
        rw [if_neg hk, if_neg hl]

theorem NoOverlap.memcpy4byte_eq_iff (h : NoOverlap dest src n) :
    memcpy4byte mem dest src n = memcpy mem dest src n ↔ CopyHeld mem dest src n := by
  unfold CopyHeld
  rw [h.memcpy4byte_eq, h.memcpy_eq]
  rcases Nat.lt_or_ge n.toNat 4 with hlt | hge
  · have hlength : max (4 * (n.toNat / 4)) (n.toNat % 4) = n.toNat := by omega
    rw [hlength]
    exact iff_of_true rfl (.inl hlt)
  · have hlength : max (4 * (n.toNat / 4)) (n.toNat % 4) = n.toNat / 4 * 4 := by omega
    rw [hlength, copied_eq_copied_iff (Nat.div_mul_le_self _ _) n.toNat_lt.le,
      or_iff_right (Nat.not_lt.mpr hge)]

/-! ## Filling -/

theorem pattern_or {x : UInt32} (hx : x.toNat ≤ 255) :
    Pattern (x ||| x <<< 8 ||| x <<< 16 ||| x <<< 24) x.toUInt8 := by
  have hshift : x <<< 8 <<< 16 = x <<< 24 :=
    (UInt32.shiftLeft_add (by decide) (by decide) (by decide)).symm
  have hpattern := pattern_orr hx
  rwa [UInt32.shiftLeft_or, hshift, ← UInt32.or_assoc] at hpattern

theorem toNat_and_byte (c : UInt32) : (c &&& 0xff).toNat = c.toNat % 2 ^ 8 := by
  rw [UInt32.toNat_and]
  exact Nat.and_two_pow_sub_one_eq_mod c.toNat 8

theorem toUInt8_and_byte (c : UInt32) : (c &&& 0xff).toUInt8 = c.toUInt8 := by
  apply UInt8.toNat_inj.mp
  rw [UInt32.toNat_toUInt8, UInt32.toNat_toUInt8, toNat_and_byte, Nat.mod_mod]

theorem foldl_storeWord_eq {w : UInt32} (hw : Pattern w c) (hq : 4 * q ≤ 2 ^ 32) :
    (List.range q).foldl (fun m i => Cpu.storeWord m (a + 4 * UInt32.ofNat i) w) m =
      fill m a (4 * q) c := by
  induction q with
  | zero => rfl
  | succ q ih =>
    have hword : a + 4 * UInt32.ofNat q = a + UInt32.ofNat (4 * q) := by
      rw [UInt32.ofNat_mul]
      rfl
    rw [List.range_succ, List.foldl_append, ih (by omega), List.foldl_cons, List.foldl_nil,
      storeWord_eq hw, hword, fill_fill (by omega)]
    rfl

/-- From an aligned start the words are all. -/
theorem memset4byte_aligned {c : UInt32} (hs : s.toNat % 4 = 0) :
    memset4byte mem s c n = fill mem s (4 * (n.toNat / 4)) c.toUInt8 := by
  have hoffset : s % 4 = 0 := aligned_iff.mpr hs
  have hn := n.toNat_lt
  have hcount : (n / 4).toNat = n.toNat / 4 := UInt32.toNat_div n 4
  have hpattern := @pattern_or (c &&& 0xff) (by rw [toNat_and_byte]; omega)
  rw [toUInt8_and_byte] at hpattern
  unfold memset4byte
  simp only [hoffset, ne_eq, not_true_eq_false, if_false, hcount]
  rw [foldl_storeWord_eq hpattern (by omega)]
  show fill mem (s + 0) _ _ = _
  rw [UInt32.add_zero]

/-- From any other start there is a head in front of the words, and a tail. -/
theorem memset4byte_unaligned {c : UInt32} (hs : s.toNat % 4 ≠ 0) :
    memset4byte mem s c n =
      fill (fill mem s (4 - s.toNat % 4 + 4 * ((n - 1).toNat / 4)) c.toUInt8)
        (s + (n - s % 4)) (s.toNat % 4) c.toUInt8 := by
  have hoffset : s % 4 ≠ 0 := fun h => hs (aligned_iff.mp h)
  have hto : (s % 4).toNat = s.toNat % 4 := UInt32.toNat_mod s 4
  have hn := (n - 1).toNat_lt
  have hle : s % 4 ≤ 4 := by
    rw [UInt32.le_iff_toNat_le, hto]
    show s.toNat % 4 ≤ 4
    omega
  have hhead : (4 - s % 4).toNat = 4 - s.toNat % 4 := by
    rw [UInt32.toNat_sub_of_le _ _ hle, hto]
    rfl
  have hcount : ((n - 1) / 4).toNat = (n - 1).toNat / 4 := UInt32.toNat_div (n - 1) 4
  have hpattern := @pattern_or (c &&& 0xff) (by rw [toNat_and_byte]; omega)
  have hbase : s + (4 - s % 4) = s + UInt32.ofNat (4 - s.toNat % 4) := by
    rw [← hhead, UInt32.ofNat_toNat]
  rw [toUInt8_and_byte] at hpattern
  unfold memset4byte
  simp only [if_pos hoffset, hhead, hcount, hto, ← UInt32.add_assoc]
  rw [foldl_update_eq _ _ _ (by omega), foldl_update_eq _ _ _ (by omega), hbase,
    foldl_storeWord_eq hpattern (by omega), fill_fill (by omega)]

/-- Two fillings are the same when the bytes that only one of them fills were right before. -/
theorem filled_eq_iff {P Q : Nat → Prop} [DecidablePred P] [DecidablePred Q] :
    ((fun x => if P (x - s).toNat then c else mem x) = fun x => if Q (x - s).toNat then c else mem x) ↔
      ∀ i < 2 ^ 32, ¬(P i ↔ Q i) → mem (s + UInt32.ofNat i) = c := by
  constructor
  · intro heq i hi hne
    have hto : (s + UInt32.ofNat i - s).toNat = i := by
      rw [offset_add]
      exact UInt32.toNat_ofNat_of_lt' hi
    have hbyte := congrFun heq (s + UInt32.ofNat i)
    simp only [hto] at hbyte
    by_cases hP : P i
    · have hQ : ¬Q i := fun hQ => hne (iff_of_true hP hQ)
      rw [if_pos hP, if_neg hQ] at hbyte
      exact hbyte.symm
    · have hQ : Q i := by
        by_contra hQ
        exact hne (iff_of_false hP hQ)
      rwa [if_neg hP, if_pos hQ] at hbyte
  · intro h
    funext x
    have hx : s + UInt32.ofNat (x - s).toNat = x := by rw [UInt32.ofNat_toNat, add_offset]
    by_cases hiff : P (x - s).toNat ↔ Q (x - s).toNat
    · simp only [hiff]
    · have hbyte := h _ (x - s).toNat_lt hiff
      rw [hx] at hbyte
      simp only [hbyte, ite_self]

/-- The bytes of the tail. It reaches in front of the start when it is longer than the buffer. -/
def InTail (o n i : Nat) : Prop :=
  (o ≤ n ∧ n - o ≤ i ∧ i < n) ∨ (n < o ∧ (i < n ∨ 2 ^ 32 - (o - n) ≤ i))

instance (o n : Nat) : DecidablePred (InTail o n) := fun _ => inferInstanceAs (Decidable (_ ∨ _))

theorem inTail_iff {x : UInt32} :
    (x - (s + (n - s % 4))).toNat < s.toNat % 4 ↔ InTail (s.toNat % 4) n.toNat (x - s).toNat := by
  have hto : (s % 4).toNat = s.toNat % 4 := UInt32.toNat_mod s 4
  have hsub : x - (s + (n - s % 4)) = x - s - (n - s % 4) := by
    rw [UInt32.sub_eq_add_neg x, UInt32.neg_add, UInt32.sub_eq_add_neg (-s), ← UInt32.add_assoc,
      ← UInt32.sub_eq_add_neg, ← UInt32.sub_eq_add_neg]
  have hlt := (x - s).toNat_lt
  have hn := n.toNat_lt
  unfold InTail
  rw [hsub]
  generalize x - s = y at *
  rw [UInt32.toNat_sub, UInt32.toNat_sub, hto]
  omega

theorem memset4byte_unaligned_eq {c : UInt32} (hs : s.toNat % 4 ≠ 0) :
    memset4byte mem s c n = fun x =>
      if (x - s).toNat < 4 - s.toNat % 4 + 4 * ((n - 1).toNat / 4) ∨
          InTail (s.toNat % 4) n.toNat (x - s).toNat then c.toUInt8
      else mem x := by
  rw [memset4byte_unaligned hs]
  funext x
  by_cases htail : InTail (s.toNat % 4) n.toNat (x - s).toNat
  · unfold fill
    rw [if_pos (inTail_iff.mpr htail), if_pos (.inr htail)]
  · unfold fill
    rw [if_neg (mt inTail_iff.mp htail)]
    simp only [htail, or_false]

/-- A byte in front of the start. -/
theorem address_before {j : Nat} (hj : j ≤ 2 ^ 32) :
    s + UInt32.ofNat (2 ^ 32 - j) = s - UInt32.ofNat j := by
  have hs := s.toNat_lt
  apply UInt32.toNat_inj.mp
  rw [UInt32.toNat_add, UInt32.toNat_sub, UInt32.toNat_ofNat', UInt32.toNat_ofNat']
  omega

theorem memset4byte_eq_iff {c : UInt32} :
    memset4byte mem s c n = memsetByte mem s c n ↔ SetHeld mem s c n := by
  have hn := n.toNat_lt
  unfold SetHeld
  rw [memsetByte_eq]
  by_cases hs : s.toNat % 4 = 0
  · rw [if_pos hs, memset4byte_aligned hs]
    refine (@filled_eq_iff mem s c.toUInt8 (· < 4 * (n.toNat / 4)) (· < n.toNat) _ _).trans ?_
    constructor
    · exact fun h i hle hlt => h i (by omega) (by omega)
    · exact fun h i _ hne => h i (by omega) (by omega)
  · rw [if_neg hs, memset4byte_unaligned_eq hs]
    refine (@filled_eq_iff mem s c.toUInt8
      (fun i => i < 4 - s.toNat % 4 + 4 * ((n - 1).toNat / 4) ∨ InTail (s.toNat % 4) n.toNat i)
      (· < n.toNat) _ _).trans ?_
    have hone : (n - 1).toNat = if n.toNat = 0 then 2 ^ 32 - 1 else n.toNat - 1 := by
      rw [UInt32.toNat_sub]
      show (2 ^ 32 - 1 + n.toNat) % 2 ^ 32 = _
      split <;> omega
    rw [hone]
    by_cases hzero : n.toNat = 0
    · -- the count of words wraps, and all memory is filled
      rw [if_pos hzero, if_pos hzero]
      refine ⟨fun h x => ?_, fun h i _ _ => h _⟩
      have hx := (x - s).toNat_lt
      have hbyte := h (x - s).toNat hx (by unfold InTail; omega)
      rwa [UInt32.ofNat_toNat, add_offset] at hbyte
    · rw [if_neg hzero, if_neg hzero]
      constructor
      · intro h
        refine ⟨fun i hle hlt => h i (by omega) (by unfold InTail; omega), fun j hpos hle => ?_⟩
        rw [← address_before (by omega)]
        exact h _ (by omega) (by unfold InTail; omega)
      · rintro ⟨hend, hstart⟩ i hi hne
        unfold InTail at hne
        by_cases hfront : 2 ^ 32 - (s.toNat % 4 - n.toNat) ≤ i ∧ n.toNat < s.toNat % 4
        · have hbyte := hstart (2 ^ 32 - i) (by omega) (by omega)
          rwa [← address_before (by omega), Nat.sub_sub_self hi.le] at hbyte
        · exact hend i (by omega) (by omega)

/-! ## Both -/

/-- For all buffers without overlap, all contents and counts, `memcpy_4byte` leaves memory as `memcpy`
does exactly when the count is below 4 or the last bytes were equal before; and for every start,
byte and count, `memset_4byte` leaves it as `memset_byte` does exactly when `SetHeld`. -/
theorem word_copies_iff (mem : Memory) (dest src n s c k : UInt32) :
    (NoOverlap dest src n →
      (memcpy4byte mem dest src n = memcpy mem dest src n ↔ CopyHeld mem dest src n)) ∧
    (memset4byte mem s c k = memsetByte mem s c k ↔ SetHeld mem s c k) :=
  ⟨fun h => h.memcpy4byte_eq_iff, memset4byte_eq_iff⟩

/-- Eight bytes are copied by two words, and set by two words. -/
theorem word_copies_eight :
    memcpy4byte (fun x => x.toUInt8) 0x1000 0x2000 8 =
        memcpy (fun x => x.toUInt8) 0x1000 0x2000 8 ∧
      memset4byte (fun x => x.toUInt8) 0x1000 0xa5 8 =
        memsetByte (fun x => x.toUInt8) 0x1000 0xa5 8 := by
  obtain ⟨hcopy, hset⟩ := word_copies_iff (fun x => x.toUInt8) 0x1000 0x2000 8 0x1000 0xa5 8
  have hoverlap : NoOverlap 0x1000 0x2000 8 := by
    unfold NoOverlap
    decide
  refine ⟨(hcopy hoverlap).mpr (.inr fun i hle hlt => ?_), hset.mpr fun i hle hlt => ?_⟩
  · exact absurd hlt (Nat.not_lt.mpr hle)
  · exact absurd hlt (Nat.not_lt.mpr hle)

/-- The fifth byte is neither copied nor, from an aligned start, set. -/
theorem word_copies_five :
    memcpy4byte (fun x => x.toUInt8) 0x1000 0x2010 5 ≠ memcpy (fun x => x.toUInt8) 0x1000 0x2010 5 ∧
      memset4byte (fun _ => 0) 0x1000 0xa5 5 ≠ memsetByte (fun _ => 0) 0x1000 0xa5 5 := by
  constructor
  · exact fun hcopy => absurd (congrFun hcopy 0x1004) (by decide +kernel)
  · exact fun hset => absurd (congrFun hset 0x1004) (by decide +kernel)

end Vmwos.WordCopies
