import Mathlib.Data.List.Nodup
import Mathlib.Logic.Function.Iterate
import Vmwos.Files
import Vmwos.Runs

/-!
# Descriptors over the life of the system

A run is a sequence of `open` calls on existing paths and `close` calls on open
descriptors. `fd_free` gives no slot back and reports `-EBADF`, so a run recycles its
descriptors exactly if it has no `close`.

Results:
1. `descriptors_recycled_iff`: the exact condition, over all runs with at most 29 open
   descriptors.
2. `close_keeps_the_slot`: one `open` and one `close`.
-/

namespace Vmwos.Files

open Runs Romfs

/-! ## Definitions -/

/-- The descriptor table, and the descriptors that are open as far as the callers are
concerned. -/
structure Session where
  files : State
  opened : List UInt32

inductive Call where
  | open (currentDir : UInt32) (pathname : List UInt8)
  | close (fd : UInt32)

/-- One call. -/
def step (d : Ramdisk) (s : Session) : Call → Option Session
  | .open currentDir pathname =>
    (openFile d s.files currentDir pathname).map fun
      | (result, files) => ⟨files, if isNeg result then s.opened else result :: s.opened⟩
  | .close fd => some ⟨(close s.files fd).2, s.opened.erase fd⟩

/-- An `open` names an existing file and leaves at most 29 descriptors open, a `close` is on an open
descriptor. -/
def Allowed (d : Ramdisk) (s : Session) : Call → Prop
  | .open currentDir pathname => s.opened.length < 29 ∧
      ∃ inode, getInode d s.files currentDir pathname = some inode ∧ ¬ isNeg inode
  | .close fd => fd ∈ s.opened

/-- Some later `open` on the table returns `fd`. -/
def Reusable (t : FdTable) (fd : UInt32) : Prop :=
  ∃ inode n, (fdAllocate ((fun t => (fdAllocate t inode).2)^[n] t) inode).1 = fd

/-- An `open` does not run out of descriptors and returns one that is not open. A `close`
returns 0, and its slot can be used again. -/
def Recycles (d : Ramdisk) (s : Session) : Call → Prop
  | .open currentDir pathname => ∃ result files,
      openFile d s.files currentDir pathname = some (result, files) ∧
        result ≠ eNFILE ∧ ¬ isNeg result ∧ result ∉ s.opened
  | .close fd => (close s.files fd).1 = 0 ∧ Reusable (close s.files fd).2.fdTable fd

/-- The call is no `close`. -/
def NoClose (_ : Session) : Call → Prop
  | .open _ _ => True
  | .close _ => False

/-- Without a `close`, the open descriptors are 3, 4, ... and the slots below are taken. -/
structure Stacked (s : Session) (k : Nat) : Prop where
  opened_eq : s.opened = (List.range k).reverse.map fun i => UInt32.ofNat (3 + i)
  taken : ∀ j < maxFd, (s.files.fdTable j).valid = 0 ↔ 3 + k ≤ j

/-! ## One call -/

theorem Stacked.length {s : Session} {k : Nat} (h : Stacked s k) : s.opened.length = k := by
  simp [h.opened_eq]

theorem Stacked.nodup {s : Session} {k : Nat} (h : Stacked s k) (hk : k ≤ 29) :
    s.opened.Nodup := by
  rw [h.opened_eq]
  refine List.Nodup.map_on (fun i hi j hj hij => ?_) (List.nodup_reverse.mpr List.nodup_range)
  have hi' := List.mem_range.mp (List.mem_reverse.mp hi)
  have hj' := List.mem_range.mp (List.mem_reverse.mp hj)
  have hmax : maxFd = 32 := rfl
  have hnat := congrArg UInt32.toNat hij
  rw [toNat_ofNat_fd (by omega), toNat_ofNat_fd (by omega)] at hnat
  omega

/-- An `open` on an existing path takes the next descriptor. -/
theorem openFile_stacked {d : Ramdisk} {s : Session} {k : Nat} {currentDir : UInt32}
    {pathname : List UInt8} {inode : UInt32} (h : Stacked s k) (hk : k < 29)
    (hpath : getInode d s.files currentDir pathname = some inode) (hinode : ¬ isNeg inode) :
    openFile d s.files currentDir pathname = some (UInt32.ofNat (3 + k),
      { s.files with fdTable := Function.update s.files.fdTable (3 + k) ⟨1, inode, 0⟩ }) := by
  have hmax : maxFd = 32 := rfl
  have halloc : fdAllocate s.files.fdTable inode =
      (UInt32.ofNat (3 + k), Function.update s.files.fdTable (3 + k) ⟨1, inode, 0⟩) :=
    fdAllocate_eq (by omega) ((h.taken (3 + k) (by omega)).mpr (le_refl _))
      fun j hj hz => absurd ((h.taken j (by omega)).mp hz) (by omega)
  simp only [openFile, hpath, Option.bind_eq_bind, Option.bind_some, if_neg hinode, halloc]

theorem Stacked.push {s : Session} {k : Nat} (h : Stacked s k) (inode : UInt32) :
    Stacked ⟨{ s.files with fdTable := Function.update s.files.fdTable (3 + k) ⟨1, inode, 0⟩ },
      UInt32.ofNat (3 + k) :: s.opened⟩ (k + 1) where
  opened_eq := by
    rw [h.opened_eq, List.range_succ, List.reverse_append]
    rfl
  taken := by
    intro j hj
    by_cases hjk : j = 3 + k
    · subst hjk
      simp
    · simp only [Function.update_of_ne hjk]
      rw [h.taken j hj]
      omega

/-- The condition is exactly what one call needs. -/
theorem recycles_iff {d : Ramdisk} {s : Session} {k : Nat} {call : Call} (h : Stacked s k)
    (hk : k ≤ 29) (hallowed : Allowed d s call) : NoClose s call ↔ Recycles d s call := by
  cases call with
  | «open» currentDir pathname =>
    obtain ⟨hlt, inode, hpath, hinode⟩ := hallowed
    rw [h.length] at hlt
    have hopen := openFile_stacked h hlt hpath hinode
    have hneg := not_isNeg_ofNat (i := 3 + k) (by have : maxFd = 32 := rfl; omega)
    refine iff_of_true trivial ⟨_, _, hopen, ?_, hneg, ?_⟩
    · intro heq
      rw [heq] at hneg
      exact hneg (by decide)
    · have hnodup := (h.push inode).nodup (by omega)
      exact (List.nodup_cons.mp hnodup).1
  | close fd =>
    exact iff_of_false id fun hclose => absurd (show eBADF = 0 from hclose.1) (by decide)

theorem stacked_step {d : Ramdisk} {s s' : Session} {k : Nat} {call : Call} (h : Stacked s k)
    (hallowed : Allowed d s call) (hno : NoClose s call) (hs : step d s call = some s') :
    ∃ k' ≤ 29, Stacked s' k' := by
  cases call with
  | «open» currentDir pathname =>
    obtain ⟨hlt, inode, hpath, hinode⟩ := hallowed
    rw [h.length] at hlt
    have hneg := not_isNeg_ofNat (i := 3 + k) (by have : maxFd = 32 := rfl; omega)
    rw [step, openFile_stacked h hlt hpath hinode, Option.map_some] at hs
    cases hs
    simp only [if_neg hneg]
    exact ⟨k + 1, hlt, h.push inode⟩
  | close fd => exact hno.elim

/-! ## 1. Whole runs -/

theorem stacked_init (t : FdTable) (rootDir : UInt32) :
    Stacked ⟨⟨fdTableInit t, rootDir⟩, []⟩ 0 where
  opened_eq := rfl
  taken := by
    intro j hj
    simp only [fdTableInit]
    split
    · next hlt => exact iff_of_false (show ¬ (1 : UInt32) = 0 by decide) (by omega)
    · next hge => exact iff_of_true rfl (by omega)

/-- Descriptors are recycled along a run of opens on existing paths and closes of open
descriptors, with at most 29 open at any time, exactly if the run closes nothing. -/
theorem descriptors_recycled_iff (d : Ramdisk) (t : FdTable) (rootDir : UInt32)
    (calls : List Call)
    (hallowed : AllSteps (step d) (Allowed d) ⟨⟨fdTableInit t, rootDir⟩, []⟩ calls) :
    (AllStates (step d) (fun s => s.opened.Nodup) ⟨⟨fdTableInit t, rootDir⟩, []⟩ calls ∧
        AllSteps (step d) (Recycles d) ⟨⟨fdTableInit t, rootDir⟩, []⟩ calls) ↔
      AllSteps (step d) NoClose ⟨⟨fdTableInit t, rootDir⟩, []⟩ calls := by
  have hstart : ∃ k ≤ 29, Stacked ⟨⟨fdTableInit t, rootDir⟩, []⟩ k :=
    ⟨0, by decide, stacked_init t rootDir⟩
  have hone : ∀ s call, (∃ k ≤ 29, Stacked s k) → Allowed d s call →
      (NoClose s call ↔ Recycles d s call) := by
    rintro s call ⟨k, hk, hS⟩ ha
    exact recycles_iff hS hk ha
  have hstep : ∀ s call s', (∃ k ≤ 29, Stacked s k) → Allowed d s call → NoClose s call →
      step d s call = some s' → ∃ k ≤ 29, Stacked s' k := by
    rintro s call s' ⟨k, hk, hS⟩ ha hno hs
    exact stacked_step hS ha hno hs
  rw [AllSteps.iff_within hone hstep hstart hallowed]
  refine and_iff_right_of_imp fun hrec => ?_
  have hno := (AllSteps.iff_within hone hstep hstart hallowed).mpr hrec
  refine AllStates.of_inv (fun s call s' hS hc => hstep s call s' hS hc.1 hc.2) ?_ hstart
    (allSteps_and.mpr ⟨hallowed, hno⟩)
  rintro s ⟨k, hk, hS⟩
  exact hS.nodup hk

/-- An empty disk. The path `/` needs none. -/
def noDisk : Ramdisk := ⟨fun _ => 0, 0⟩

/-- A table whose root directory is at offset 32. -/
def freshSession : Session := ⟨⟨fdTableInit fun _ => ⟨0, 0, 0⟩, 32⟩, []⟩

/-- Two opens of the root directory. -/
theorem descriptors_recycled_iff_two :
    (AllStates (step noDisk) (fun s => s.opened.Nodup) freshSession [.open 0 [47], .open 0 [47]] ∧
        AllSteps (step noDisk) (Recycles noDisk) freshSession [.open 0 [47], .open 0 [47]]) ↔
      AllSteps (step noDisk) NoClose freshSession [.open 0 [47], .open 0 [47]] := by
  refine descriptors_recycled_iff noDisk _ 32 _ (allSteps_cons.mpr ⟨?_, ?_⟩)
  · exact ⟨by decide, 32, rfl, by decide⟩
  · intro s hs
    cases hs
    exact allSteps_cons.mpr ⟨⟨by decide, 32, rfl, by decide⟩, fun _ _ => trivial⟩

/-! ## 2. A descriptor is closed -/

/-- The root directory is opened as descriptor 3, which is then closed: `close` reports an
error. -/
theorem close_keeps_the_slot :
    AllSteps (step noDisk) (Allowed noDisk) freshSession [.open 0 [47], .close 3] ∧
    ¬ (AllStates (step noDisk) (fun s => s.opened.Nodup) freshSession [.open 0 [47], .close 3] ∧
      AllSteps (step noDisk) (Recycles noDisk) freshSession [.open 0 [47], .close 3]) := by
  constructor
  · refine allSteps_cons.mpr ⟨⟨by decide, 32, rfl, by decide⟩, fun s hs => ?_⟩
    cases hs
    exact allSteps_cons.mpr ⟨show (3 : UInt32) ∈ [3] by decide, fun _ _ => trivial⟩
  · rintro ⟨_, hrec⟩
    obtain ⟨_, hrest⟩ := allSteps_cons.mp hrec
    obtain ⟨hclose, _⟩ := allSteps_cons.mp (hrest _ rfl)
    exact absurd (show eBADF = 0 from hclose.1) (by decide)

end Vmwos.Files
