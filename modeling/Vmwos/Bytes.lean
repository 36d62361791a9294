import Mathlib.Data.List.Basic
import Mathlib.Data.List.TakeWhile
import Mathlib.Data.Nat.Basic
import Mathlib.Tactic.Linarith

/-!
# Byte memory

Memory is a function from addresses to bytes. `write` puts a list of bytes at an
address, `read` takes a number of them back.

* `read_write`, `read_write_of_disjoint`, `write_outside`: reading after writing;
* `write_append`, `write_overlap`: writes that continue where an earlier one ended;
* `ofBe`, `ofLe`, `toLe`: 32-bit words in either byte order;
* `strlen`, `strncat`, `strlcpy`, `strncmp`: the C functions, with `strncat_eq` and
  `strlcpyLoop_eq` as the one write that a copy makes.
-/

namespace Bytes

/-- A memory. -/
abbrev Mem := Nat → UInt8

/-! ## Reading and writing -/

/-- The memory with `bytes` at `a`. -/
def write (m : Mem) (a : Nat) (bytes : List UInt8) : Mem := fun x =>
  if a ≤ x then bytes[x - a]?.getD (m x) else m x

/-- The `n` bytes at `a`. -/
def read (m : Mem) (a n : Nat) : List UInt8 := (List.range n).map fun k => m (a + k)

variable {m : Mem} {a b n : Nat} {xs ys : List UInt8}

@[simp] theorem length_read : (read m a n).length = n := by simp [read]

theorem getElem?_read {k : Nat} (hk : k < n) : (read m a n)[k]? = some (m (a + k)) := by
  simp [read, hk]

theorem write_inside {k : Nat} (hk : k < xs.length) : write m a xs (a + k) = xs[k] := by
  simp [write, hk]

theorem write_outside {x : Nat} (h : x < a ∨ a + xs.length ≤ x) : write m a xs x = m x := by
  unfold write
  split
  · next hle =>
    have hlen : xs.length ≤ x - a := by omega
    rw [List.getElem?_eq_none hlen, Option.getD_none]
  · rfl

theorem read_congr {m' : Mem} (h : ∀ k < n, m (a + k) = m' (a + k)) : read m a n = read m' a n :=
  List.map_congr_left fun k hk => h k (List.mem_range.mp hk)

theorem read_write : read (write m a xs) a xs.length = xs := by
  refine List.ext_getElem (by simp) fun k hk hk' => ?_
  simp [read, write_inside hk']

theorem read_write_of_disjoint (h : b + n ≤ a ∨ a + xs.length ≤ b) :
    read (write m a xs) b n = read m b n :=
  read_congr fun k hk => write_outside (by omega)

theorem read_add (k : Nat) : read m a (n + k) = read m a n ++ read m (a + n) k := by
  simp [read, List.range_add, Nat.add_assoc]

theorem read_slice {k : Nat} (h : k + n ≤ xs.length) (hx : read m a xs.length = xs) :
    read m (a + k) n = (xs.drop k).take n := by
  obtain ⟨rest, hrest⟩ := Nat.le.dest h
  rw [← hrest, read_add, read_add, List.append_assoc] at hx
  rw [← hx, List.drop_left' length_read, List.take_left' length_read]

theorem write_append : write m a (xs ++ ys) = write (write m a xs) (a + xs.length) ys := by
  funext x
  unfold write
  by_cases hx : a ≤ x
  · by_cases hy : a + xs.length ≤ x
    · have hlen : xs.length ≤ x - a := by omega
      have hsub : x - a - xs.length = x - (a + xs.length) := by omega
      rw [if_pos hx, if_pos hy, if_pos hx, List.getElem?_append_right hlen, hsub,
        List.getElem?_eq_none hlen, Option.getD_none]
    · have hlen : x - a < xs.length := by omega
      rw [if_pos hx, if_neg hy, if_pos hx, List.getElem?_append_left hlen]
  · have hy : ¬ a + xs.length ≤ x := by omega
    rw [if_neg hx, if_neg hy, if_neg hx]

/-- A write that covers the end of an earlier one. -/
theorem write_overlap (h : xs.length ≤ ys.length) : write (write m a xs) a ys = write m a ys := by
  funext x
  unfold write
  by_cases hx : a ≤ x
  · simp only [if_pos hx]
    rcases Nat.lt_or_ge (x - a) ys.length with hlt | hge
    · rw [List.getElem?_eq_getElem hlt, Option.getD_some, Option.getD_some]
    · rw [List.getElem?_eq_none hge, List.getElem?_eq_none (h.trans hge)]
      rfl
  · simp only [if_neg hx]

/-- A write that ends in a terminator, continued over the terminator. -/
theorem write_extend {c : UInt8} (hy : ys ≠ []) :
    write (write m a (xs ++ [c])) (a + xs.length) ys = write m a (xs ++ ys) := by
  have hlen : [c].length ≤ ys.length := List.length_pos_of_ne_nil hy
  rw [write_append, write_overlap hlen, ← write_append]

/-- Writing what is there changes nothing. -/
theorem write_self (h : read m a xs.length = xs) : write m a xs = m := by
  funext x
  unfold write
  split
  · next hx =>
    rcases Nat.lt_or_ge (x - a) xs.length with hlt | hge
    · have hget : xs[x - a]? = some (m x) := by
        rw [← h]
        simp [read, hlt, Nat.add_sub_cancel' hx]
      rw [hget, Option.getD_some]
    · rw [List.getElem?_eq_none hge, Option.getD_none]
  · rfl

/-! ## Words -/

/-- A big-endian word. -/
def ofBe (bytes : List UInt8) : UInt32 :=
  bytes.foldl (fun acc b => acc * 256 + b.toUInt32) 0

/-- A little-endian word. -/
def ofLe (bytes : List UInt8) : UInt32 := ofBe bytes.reverse

/-- The bytes of a little-endian word. -/
def toLe (v : UInt32) : List UInt8 :=
  [v.toUInt8, (v / 256).toUInt8, (v / 65536).toUInt8, (v / 16777216).toUInt8]

@[simp] theorem length_toLe (v : UInt32) : (toLe v).length = 4 := rfl

@[simp] theorem ofLe_toLe (v : UInt32) : ofLe (toLe v) = v := by
  have hv := v.toNat_lt
  apply UInt32.toNat_inj.mp
  simp only [ofLe, ofBe, toLe, List.reverse_cons, List.reverse_nil, List.nil_append,
    List.cons_append, List.foldl_cons, List.foldl_nil, UInt32.toNat_add, UInt32.toNat_mul,
    UInt8.toNat_toUInt32, UInt32.toNat_toUInt8, UInt32.toNat_div, UInt32.reduceToNat]
  omega

theorem toNat_ofBe (b₀ b₁ b₂ b₃ : UInt8) :
    (ofBe [b₀, b₁, b₂, b₃]).toNat =
      b₀.toNat * 2 ^ 24 + b₁.toNat * 2 ^ 16 + b₂.toNat * 2 ^ 8 + b₃.toNat := by
  have h₀ := b₀.toNat_lt
  have h₁ := b₁.toNat_lt
  have h₂ := b₂.toNat_lt
  have h₃ := b₃.toNat_lt
  simp only [ofBe, List.foldl_cons, List.foldl_nil, UInt32.toNat_add, UInt32.toNat_mul,
    UInt8.toNat_toUInt32, UInt32.reduceToNat]
  omega

/-- The signed number of a word, in two's complement. -/
theorem toInt_toInt32 (x : UInt32) :
    x.toInt32.toInt = if x.toNat < 2 ^ 31 then (x.toNat : Int) else x.toNat - 2 ^ 32 := by
  have hlt := x.toNat_lt
  rw [← Int32.toInt_toBitVec, UInt32.toBitVec_toInt32, BitVec.toInt_eq_toNat_cond,
    UInt32.toNat_toBitVec]
  split <;> split <;> first | rfl | omega

/-! ## Strings -/

/-- `strlen`, with at most `fuel` turns. -/
def strlen (m : Mem) : Nat → Nat → Option Nat
  | 0, _ => none
  | fuel + 1, a => if m a = 0 then some 0 else (strlen m fuel (a + 1)).map (· + 1)

/-- The copying loop of `strncat`: `turns` are left and `i` are done. It gives the
memory and the final `i`. -/
def strncatLoop (m : Mem) (dest : Nat) (src : List UInt8) : Nat → Nat → Mem × Nat
  | 0, i => (m, i)
  | turns + 1, i =>
    let c := src[i]?.getD 0
    let m := write m (dest + i) [c]
    if c = 0 then (m, i) else strncatLoop m dest src turns (i + 1)

/-- `strncat(dest, src, n)` for a source buffer `src`. -/
def strncat (m : Mem) (fuel dest : Nat) (src : List UInt8) (n : Nat) : Option Mem :=
  (strlen m fuel dest).map fun len =>
    let (m, i) := strncatLoop m (dest + len) src n 0
    write m (dest + len + i) [0]

/-- `strncmp(s, t, n)` of the strings at the start of two memories: `turns` are left. -/
def strncmpLoop (s t : Mem) : Nat → Nat → Int
  | 0, _ => 0
  | turns + 1, i =>
    let r : Int := (s i).toNat - (t i).toNat
    if r ≠ 0 then r else if s i = 0 then 0 else strncmpLoop s t turns (i + 1)

/-- `strncmp`. -/
def strncmp (s t : Mem) (n : Nat) : Int := strncmpLoop s t n 0

/-- The string `s` stands at `a`. -/
structure StringAt (m : Mem) (a : Nat) (s : List UInt8) : Prop where
  nonzero : ∀ c ∈ s, c ≠ 0
  chars : read m a s.length = s
  nul : m (a + s.length) = 0

theorem StringAt.tail {c : UInt8} {s : List UInt8} (h : StringAt m a (c :: s)) :
    m a = c ∧ c ≠ 0 ∧ StringAt m (a + 1) s := by
  have hsplit : read m a (s.length + 1) = m a :: read m (a + 1) s.length := by
    rw [Nat.add_comm, read_add]
    simp [read]
  have hchars := h.chars
  rw [List.length_cons, hsplit] at hchars
  obtain ⟨hc, hs⟩ := List.cons.inj hchars
  refine ⟨hc, h.nonzero c List.mem_cons_self, fun c hc => h.nonzero c (by simp [hc]), hs, ?_⟩
  have hnul := h.nul
  rwa [List.length_cons, Nat.add_comm s.length, ← Nat.add_assoc] at hnul

theorem StringAt.strlen {s : List UInt8} (h : StringAt m a s) {fuel : Nat}
    (hf : s.length < fuel) : strlen m fuel a = some s.length := by
  induction s generalizing a fuel with
  | nil =>
    obtain ⟨fuel, rfl⟩ := Nat.exists_eq_succ_of_ne_zero (Nat.ne_of_gt hf)
    simpa [Bytes.strlen] using h.nul
  | cons c s ih =>
    obtain ⟨fuel, rfl⟩ := Nat.exists_eq_succ_of_ne_zero (Nat.ne_of_gt (Nat.zero_lt_of_lt hf))
    obtain ⟨hc, hne, htail⟩ := h.tail
    rw [Bytes.strlen, if_neg (hc ▸ hne), ih htail (by simpa using hf)]
    rfl

theorem strncmpLoop_eq_zero_iff {m' : Mem} {s t : List UInt8} {turns : Nat} (hs : StringAt m a s)
    (ht : StringAt m' a t) (hlen : s.length < turns) :
    strncmpLoop m m' turns a = 0 ↔ s = t := by
  induction turns generalizing a s t with
  | zero => exact absurd hlen (Nat.not_lt_zero _)
  | succ turns ih =>
    have hdiff : ((m a).toNat : Int) - (m' a).toNat = 0 ↔ m a = m' a := by
      rw [← UInt8.toNat_inj]
      omega
    by_cases heq : m a = m' a
    · -- the same character: both strings end here, or both go on
      simp only [strncmpLoop, if_neg (not_not.mpr (hdiff.mpr heq))]
      cases s with
      | nil =>
        cases t with
        | nil => simp [show m a = 0 from hs.nul]
        | cons c t => exact absurd (heq.symm.trans hs.nul) (ht.tail.1 ▸ ht.tail.2.1)
      | cons b s =>
        cases t with
        | nil => exact absurd (heq.trans ht.nul) (hs.tail.1 ▸ hs.tail.2.1)
        | cons c t =>
          obtain ⟨hb, hne, hs'⟩ := hs.tail
          obtain ⟨hc, _, ht'⟩ := ht.tail
          rw [if_neg (hb ▸ hne), ih hs' ht' (by simpa using hlen), ← hb, ← hc, heq]
          simp
    · simp only [strncmpLoop, if_pos (hdiff.not.mpr heq)]
      refine iff_of_false (hdiff.not.mpr heq) ?_
      rintro rfl
      cases s with
      | nil => exact heq (hs.nul.trans ht.nul.symm)
      | cons c s => exact heq (hs.tail.1.trans ht.tail.1.symm)

/-- Two strings within the bound compare as equal exactly if they are. -/
theorem strncmp_eq_zero_iff {m' : Mem} {s t : List UInt8} (hs : StringAt m 0 s)
    (ht : StringAt m' 0 t) (hlen : s.length < n) : strncmp m m' n = 0 ↔ s = t :=
  strncmpLoop_eq_zero_iff hs ht hlen

theorem stringAt_write {s : List UInt8} (hs : ∀ c ∈ s, c ≠ 0) :
    StringAt (write m a (s ++ [0])) a s where
  nonzero := hs
  chars := by
    have hread : read (write m a (s ++ [0])) a (s ++ [0]).length = s ++ [0] := read_write
    rw [List.length_append, List.length_singleton, read_add] at hread
    exact (List.append_inj hread (by simp)).1
  nul := by
    have hlt : s.length < (s ++ [0]).length := by simp
    rw [write_inside hlt]
    simp

/-- A string grows at its end. -/
theorem StringAt.extend {s : List UInt8} (h : StringAt m a s) (hx : ∀ c ∈ xs, c ≠ 0) :
    StringAt (write m (a + s.length) (xs ++ [0])) a (s ++ xs) where
  nonzero := by
    intro c hc
    rcases List.mem_append.mp hc with hc | hc
    · exact h.nonzero c hc
    · exact hx c hc
  chars := by
    have htail := stringAt_write (m := m) (a := a + s.length) hx
    rw [List.length_append, read_add, htail.chars, read_write_of_disjoint (.inl (le_refl _)),
      h.chars]
  nul := by
    have htail := stringAt_write (m := m) (a := a + s.length) hx
    rw [List.length_append, ← Nat.add_assoc]
    exact htail.nul

/-- What `strncat` copies: the characters before a NUL, at most `n`. -/
def copied (src : List UInt8) (n : Nat) : List UInt8 := (src.take n).takeWhile (· ≠ 0)

theorem strncatLoop_eq {src : List UInt8} {turns i : Nat} (m : Mem) (dest : Nat)
    (h : i + turns ≤ src.length) :
    ∃ i', (strncatLoop m dest src turns i).2 = i' ∧
      i' = i + (copied (src.drop i) turns).length ∧
      write (strncatLoop m dest src turns i).1 (dest + i') [0] =
        write m (dest + i) (copied (src.drop i) turns ++ [0]) := by
  induction turns generalizing m i with
  | zero => exact ⟨i, rfl, by simp [copied], by simp [strncatLoop, copied]⟩
  | succ turns ih =>
    have hlt : i < src.length := by omega
    have hget : src[i]?.getD 0 = src[i] := by simp [hlt]
    have hdrop : src.drop i = src[i] :: src.drop (i + 1) := List.drop_eq_getElem_cons hlt
    by_cases hc : src[i] = 0
    · have hcopy : copied (src.drop i) (turns + 1) = [] := by
        rw [copied, hdrop, List.take_succ_cons, List.takeWhile_cons_of_neg (by simp [hc])]
      refine ⟨i, by simp [strncatLoop, hget, hc], by simp [hcopy], ?_⟩
      simp only [strncatLoop, hget, hc, if_true, hcopy, List.nil_append]
      exact write_overlap (by simp)
    · have hcopy : copied (src.drop i) (turns + 1) = src[i] :: copied (src.drop (i + 1)) turns := by
        rw [copied, hdrop, List.take_succ_cons, List.takeWhile_cons_of_pos (by simp [hc])]
        rfl
      obtain ⟨i', h₁, h₂, h₃⟩ := ih (write m (dest + i) [src[i]]) (show i + 1 + turns ≤ _ by omega)
      refine ⟨i', ?_, ?_, ?_⟩
      · simpa [strncatLoop, hget, hc] using h₁
      · rw [hcopy, h₂, List.length_cons]
        omega
      · simp only [strncatLoop, hget, if_neg hc]
        rw [h₃, hcopy, ← Nat.add_assoc, show dest + i + 1 = dest + i + [src[i]].length from rfl,
          ← write_append]
        rfl

/-- One `strncat` is one write behind the string in the destination. -/
theorem strncat_eq {s src : List UInt8} {fuel dest : Nat} (hs : StringAt m dest s)
    (hf : s.length < fuel) (hn : n ≤ src.length) :
    strncat m fuel dest src n = some (write m (dest + s.length) (copied src n ++ [0])) := by
  obtain ⟨i', h₁, _, h₃⟩ := strncatLoop_eq m (dest + s.length) (show 0 + n ≤ src.length by simpa)
  rw [strncat, hs.strlen hf, Option.map_some]
  congr 1
  simpa [h₁] using h₃

/-- The copying loop of `strlcpy` from the string at `a`: `turns` are left and `i` are done. -/
def strlcpyLoop (src : Mem) (a : Nat) : Nat → Nat → Mem → Mem
  | 0, i, dest => write dest i [0]
  | turns + 1, i, dest =>
    let dest := write dest i [src (a + i)]
    if src (a + i) = 0 then write dest i [0] else strlcpyLoop src a turns (i + 1) dest

/-- `strlcpy(dest, src, n)` for a buffer `dest` and the string at `a` in the memory `src`. -/
def strlcpy (dest src : Mem) (a n : Nat) : Mem := strlcpyLoop src a (n - 1) 0 dest

theorem strlcpyLoop_eq {src dest : Mem} {s : List UInt8} {turns i : Nat}
    (h : StringAt src (a + i) s) (hlen : s.length ≤ turns) :
    strlcpyLoop src a turns i dest = write dest i (s ++ [0]) := by
  induction turns generalizing i s dest with
  | zero =>
    rw [List.length_eq_zero_iff.mp (Nat.le_zero.mp hlen)]
    rfl
  | succ turns ih =>
    cases s with
    | nil =>
      have hnul : src (a + i) = 0 := h.nul
      rw [strlcpyLoop, hnul, if_pos rfl]
      exact write_overlap (le_refl _)
    | cons c s =>
      obtain ⟨hc, hne, htail⟩ := h.tail
      rw [strlcpyLoop, hc, if_neg hne, ih htail (Nat.le_of_succ_le_succ hlen)]
      have hjoin : write dest i ([c] ++ (s ++ [0])) = _ := write_append
      exact hjoin.symm

/-- `strlcpy` copies a string that the buffer has room for. -/
theorem stringAt_strlcpy {src dest : Mem} {s : List UInt8} (h : StringAt src a s)
    (hlen : s.length < n) : StringAt (strlcpy dest src a n) 0 s := by
  rw [strlcpy, strlcpyLoop_eq (i := 0) h (by omega)]
  exact stringAt_write h.nonzero

theorem strncmpLoop_comm {m' : Mem} {turns : Nat} :
    strncmpLoop m m' turns a = 0 ↔ strncmpLoop m' m turns a = 0 := by
  induction turns generalizing a with
  | zero => rfl
  | succ turns ih =>
    by_cases heq : m a = m' a
    · simp only [strncmpLoop, heq, sub_self, ne_eq, not_true_eq_false, if_false]
      split
      · rfl
      · exact ih
    · have hdiff : (m a).toNat ≠ (m' a).toNat := fun h => heq (UInt8.toNat_inj.mp h)
      have hne : ((m a).toNat : Int) - (m' a).toNat ≠ 0 := by omega
      have hne' : ((m' a).toNat : Int) - (m a).toNat ≠ 0 := by omega
      simp only [strncmpLoop, if_pos hne, if_pos hne']
      exact iff_of_false hne hne'

/-- The same with the bound on the second string. -/
theorem strncmp_eq_zero_iff' {m' : Mem} {s t : List UInt8} (hs : StringAt m 0 s)
    (ht : StringAt m' 0 t) (hlen : t.length < n) : strncmp m m' n = 0 ↔ s = t := by
  rw [strncmp, strncmpLoop_comm, eq_comm (a := s)]
  exact strncmp_eq_zero_iff ht hs hlen

end Bytes
