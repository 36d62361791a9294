import Vmwos.Machine

/-!
# Waiting for children

What `waitpid` is for, and when it does it.

1. Any child. `process_lookup_child` takes the first child of the list, whether or not it has
   exited, and the blocking call returns the -1 that it was called with. So with `WNOHANG` the
   caller gets an exited child exactly if the first child has exited, or none has
   (`waits_any_iff`).
2. A given process. `process_lookup` takes any process, or none, and nothing asks whether it is
   a child (`waits_given_iff`).

The caller is the current process. A call that waits goes on with `Event.resume`, where the
pointer to the process is the one of the lookup.
-/

namespace Vmwos.Processes

open Chains Runs

variable {s s' : Sys} {procs : List Addr} {a c : Addr} {e : Event} {pid options : UInt32}
  {proc : Option Addr} {r : WaitResult}

/-! ## Definitions -/

/-- A child of the caller. Init is its own parent, and no child of its own. -/
def IsChild (s : Sys) (a : Addr) : Prop :=
  a ≠ s.currentProcess ∧ s.parent a = some s.currentProcess

instance (s : Sys) (a : Addr) : Decidable (IsChild s a) :=
  inferInstanceAs (Decidable (_ ∧ _))

/-- A child that has exited. -/
def IsZombie (s : Sys) (a : Addr) : Prop := IsChild s a ∧ s.status a = .exited

/-- The call has reaped the child `c`: it returns its number, stores its exit value, and takes
this process out of the list. -/
structure Reaped (s : Sys) (procs : List Addr) (s' : Sys) (r : WaitResult) (c : Addr) : Prop where
  mem : c ∈ procs
  zombie : IsZombie s c
  value : r = ⟨s.pid c, some (s.exitValue c)⟩
  removed : Listed s' (procs.erase c)

/-- `waitpid(-1, ws, WNOHANG)` reaps an exited child if there is one. It returns 0 if there are
only other children, and `-ECHILD` if there are none. -/
def PollsAny (s : Sys) (procs : List Addr) : Prop :=
  ∃ s' r, waitpid s (-1) wNOHANG = some (s', some r) ∧
    ((∃ c ∈ procs, IsZombie s c) → ∃ c, Reaped s procs s' r c) ∧
    ((∃ c ∈ procs, IsChild s c) → (∀ c ∈ procs, ¬IsZombie s c) → s' = s ∧ r = ⟨0, none⟩) ∧
    ((∀ c ∈ procs, ¬IsChild s c) → s' = s ∧ r = ⟨eCHILD, none⟩)

/-- A blocking call that returns has reaped a child, or there is none. -/
def ReturnsAny (s : Sys) (procs : List Addr) (call : Option (Sys × Option WaitResult)) : Prop :=
  ∀ s' r, call = some (s', some r) →
    (∃ c, Reaped s procs s' r c) ∨ (∀ c ∈ procs, ¬IsChild s c) ∧ s' = s ∧ r = ⟨eCHILD, none⟩

/-- The law of waiting for any child, for a call with `WNOHANG`, for a blocking call, and for
one that goes on. -/
def WaitsAny (s : Sys) (procs : List Addr) : Event → Prop
  | .waitpid pid options => pid = -1 →
      (options = wNOHANG → PollsAny s procs) ∧
      (options = 0 → ReturnsAny s procs (waitpid s (-1) 0))
  | .resume => ∀ proc, s.kernel s.currentProcess = .waitpid (-1) proc →
      ReturnsAny s procs (waitpidLoop s (-1) proc)
  | _ => True

/-- The first child in the list. -/
def firstChild (s : Sys) (procs : List Addr) : Option Addr := procs.find? fun a => IsChild s a

/-- With `WNOHANG` the first child has exited, or none has. A blocking call meets an exited
child only where this is the first in the list, or the child that it has slept for, and has the
number -1. -/
def FirstHasExited (s : Sys) (procs : List Addr) : Event → Prop
  | .waitpid pid options => pid = -1 →
      (options = wNOHANG → (∀ c ∈ procs, ¬IsZombie s c) ∨
        ∃ c, firstChild s procs = some c ∧ s.status c = .exited) ∧
      (options = 0 → ∀ c, firstChild s procs = some c → s.status c = .exited → s.pid c = -1)
  | .resume => ∀ proc, s.kernel s.currentProcess = .waitpid (-1) proc →
      statusOf s proc = .exited → ∃ c ∈ procs, proc = some c ∧ IsChild s c ∧ s.pid c = -1
  | _ => True

/-! ## Lookup and removal -/

theorem Listed.unique {procs' : List Addr} (h : Listed s procs) (h' : Listed s procs') :
    procs = procs' :=
  h.linked.unique h'.linked

theorem processLookupChild_eq (h : Listed s procs) :
    processLookupChild s s.currentProcess = some (firstChild s procs) :=
  lookupLoop_eq h.linked _ (length_le_allAddrs h.linked)

theorem firstChild_eq_none_iff : firstChild s procs = none ↔ ∀ c ∈ procs, ¬IsChild s c := by
  simp [firstChild, List.find?_eq_none]

theorem mem_of_firstChild (h : firstChild s procs = some c) : c ∈ procs :=
  List.mem_of_find?_eq_some h

theorem isChild_of_firstChild (h : firstChild s procs = some c) : IsChild s c := by
  have hchild := List.find?_some h
  exact of_decide_eq_true hchild

/-- `process_destroy` takes a process of the list out of it, and does nothing to the list for any
other pointer. -/
theorem Listed.destroy (h : Listed s procs) (proc : Option Addr) :
    (∃ c ∈ procs, proc = some c ∧ ∃ s', processDestroy s proc = some (s', freedBlocks s proc) ∧
        Listed s' (procs.erase c)) ∨
      (∀ c ∈ procs, proc ≠ some c) ∧
        processDestroy s proc = some (Processes.poison s proc, freedBlocks s proc) := by
  cases proc with
  | none => exact .inr ⟨fun c _ hc => (by cases hc), rfl⟩
  | some c =>
    by_cases hc : c ∈ procs
    · obtain ⟨s₁, hremove, _, hlisted, _⟩ := h.remove hc
      refine .inl ⟨c, hc, rfl, Processes.poison s₁ (some c), ?_, hlisted.poison fun d hd heq => ?_⟩
      · rw [processDestroy, hremove, Option.map_some]
      · cases heq
        exact (h.linked.nodup.mem_erase_iff.mp hd).1 rfl
    · refine .inr ⟨fun d hd heq => ?_, ?_⟩
      · cases heq
        exact hc hd
      · rw [processDestroy, processRemove_notMem h hc, Option.map_some]

theorem Listed.setKernel (h : Listed s procs) (a : Addr) (k : Kernel) :
    Listed (setKernel s a k) procs :=
  h.congr rfl fun _ _ => ⟨rfl, rfl⟩

/-- The process that is taken out is known by the list without it. -/
theorem Listed.erase_inj (h : Listed s procs) (ha : a ∈ procs)
    (heq : procs.erase a = procs.erase c) : a = c := by
  have hnodup := h.linked.nodup
  by_contra hne
  have hmem : a ∈ procs.erase c := hnodup.mem_erase_iff.mpr ⟨hne, ha⟩
  rw [← heq, hnodup.mem_erase_iff] at hmem
  exact hmem.1 rfl

/-- A child is not reaped while the list stays as it is. -/
theorem Listed.not_reaped (h : Listed s procs) (h' : Listed s' procs) : ¬Reaped s procs s' r c := by
  intro hc
  have hmem := hc.mem
  rw [h'.unique hc.removed, h.linked.nodup.mem_erase_iff] at hmem
  exact hmem.1 rfl

/-! ## Any child -/

/-- The call with `WNOHANG` looks at the first child. -/
theorem waitpid_nohang (h : Listed s procs) (hc : firstChild s procs = some c) :
    (s.status c ≠ .exited → waitpid s (-1) wNOHANG = some (s, some ⟨0, none⟩)) ∧
      (s.status c = .exited → ∃ s', Listed s' (procs.erase c) ∧
        waitpid s (-1) wNOHANG = some (s', some ⟨s.pid c, some (s.exitValue c)⟩)) := by
  have hcall : waitpid s (-1) wNOHANG = waitpidOn s (-1) wNOHANG (some c) := by
    rw [waitpid, if_pos rfl, processLookupChild_eq h, hc]
    rfl
  rw [hcall, waitpidOn, if_pos rfl]
  constructor
  · intro hstatus
    rw [if_neg (show statusOf s (some c) ≠ .exited from hstatus)]
  · intro hstatus
    rcases h.destroy (some c) with ⟨_, _, ⟨rfl⟩, s', hdestroy, hlisted⟩ | ⟨hnot, _⟩
    · refine ⟨s', hlisted, ?_⟩
      rw [if_pos (show statusOf s (some c) = .exited from hstatus), hdestroy]
      rfl
    · exact absurd rfl (hnot c (mem_of_firstChild hc))

theorem waitpid_childless (h : Listed s procs) (hc : firstChild s procs = none) :
    waitpid s (-1) options = some (s, some ⟨eCHILD, none⟩) := by
  rw [waitpid, if_pos rfl, processLookupChild_eq h, hc]
  rfl

theorem pollsAny_iff (h : Listed s procs) :
    PollsAny s procs ↔ (∀ c ∈ procs, ¬IsZombie s c) ∨
      ∃ c, firstChild s procs = some c ∧ s.status c = .exited := by
  cases hc : firstChild s procs with
  | none =>
    have hnone := firstChild_eq_none_iff.mp hc
    have hzombie : ∀ c ∈ procs, ¬IsZombie s c := fun c hmem hz => hnone c hmem hz.1
    refine iff_of_true ⟨s, _, waitpid_childless h hc, ?_, ?_, fun _ => ⟨rfl, rfl⟩⟩ (.inl hzombie)
    · rintro ⟨c, hmem, hz⟩
      exact absurd hz (hzombie c hmem)
    · rintro ⟨c, hmem, hchild⟩
      exact absurd hchild (hnone c hmem)
  | some c =>
    have hmem := mem_of_firstChild hc
    have hchild := isChild_of_firstChild hc
    obtain ⟨hwaits, hreaps⟩ := waitpid_nohang h hc
    by_cases hstatus : s.status c = .exited
    · obtain ⟨s', hlisted, hcall⟩ := hreaps hstatus
      refine iff_of_true ⟨s', _, hcall, fun _ => ⟨c, hmem, ⟨hchild, hstatus⟩, rfl, hlisted⟩,
        fun _ hnone => ?_, fun hnone => ?_⟩ (.inr ⟨c, rfl, hstatus⟩)
      · exact absurd ⟨hchild, hstatus⟩ (hnone c hmem)
      · exact absurd hchild (hnone c hmem)
    · have hcall := hwaits hstatus
      have hother : ¬∃ c', some c = some c' ∧ s.status c' = .exited := by
        rintro ⟨_, ⟨rfl⟩, hexited⟩
        exact hstatus hexited
      rw [or_iff_left hother]
      constructor
      · rintro ⟨s', r, hcall', hzombie, _⟩ z hz hexited
        -- the call returns 0, and nothing is taken out
        rw [hcall] at hcall'
        obtain ⟨rfl, _⟩ := Prod.mk.inj (Option.some.inj hcall')
        obtain ⟨d, hd⟩ := hzombie ⟨z, hz, hexited⟩
        exact h.not_reaped h hd
      · intro hzombie
        refine ⟨s, _, hcall, ?_, fun _ _ => ⟨rfl, rfl⟩, fun hnone => absurd hchild (hnone c hmem)⟩
        rintro ⟨z, hz, hexited⟩
        exact absurd hexited (hzombie z hz)

/-- The waiting loop returns -1 when the process has exited. -/
theorem returnsAny_loop_iff (h : Listed s procs) :
    ReturnsAny s procs (waitpidLoop s (-1) proc) ↔
      (statusOf s proc = .exited → ∃ c ∈ procs, proc = some c ∧ IsChild s c ∧ s.pid c = -1) := by
  by_cases hexited : statusOf s proc = .exited
  · rw [imp_iff_right hexited, waitpidLoop, if_pos hexited]
    rcases (h.setKernel s.currentProcess .user).destroy proc with
      ⟨c, hc, rfl, s', hdestroy, hlisted⟩ | ⟨hnot, hdestroy⟩
    · rw [hdestroy, Option.map_some]
      constructor
      · intro hreturns
        obtain ⟨d, hd⟩ | ⟨_, _, hr⟩ := hreturns _ _ rfl
        · cases h.erase_inj hc (hlisted.unique hd.removed)
          exact ⟨c, hc, rfl, hd.zombie.1, (congrArg WaitResult.value hd.value).symm⟩
        · exact absurd (congrArg WaitResult.wstatus hr) (by simp)
      · rintro ⟨_, _, ⟨rfl⟩, hchild, hpid⟩ s₁ r heq
        obtain ⟨rfl, hr⟩ := Prod.mk.inj (Option.some.inj heq)
        cases hr
        exact .inl ⟨c, hc, ⟨hchild, hexited⟩, by rw [hpid]; rfl, hlisted⟩
    · -- what it waited for is no process any more
      rw [hdestroy, Option.map_some]
      constructor
      · intro hreturns
        obtain ⟨d, hd⟩ | ⟨_, _, hr⟩ := hreturns _ _ rfl
        · exact absurd hd (h.not_reaped ((h.setKernel _ _).poison hnot))
        · exact absurd (congrArg WaitResult.wstatus hr) (by simp)
      · rintro ⟨c, hc, hproc, _⟩
        exact absurd hproc (hnot c hc)
  · refine iff_of_true (fun s₁ r hloop => ?_) fun hstatus => absurd hstatus hexited
    rw [waitpidLoop, if_neg hexited] at hloop
    obtain ⟨s₂, _, heq⟩ := Option.map_eq_some_iff.mp hloop
    cases (Prod.mk.inj heq).2

/-- The blocking call waits for the first child. -/
theorem returnsAny_call_iff (h : Listed s procs) :
    ReturnsAny s procs (waitpid s (-1) 0) ↔
      ∀ c, firstChild s procs = some c → s.status c = .exited → s.pid c = -1 := by
  cases hc : firstChild s procs with
  | none =>
    refine iff_of_true (fun s' r hcall => ?_) fun c hc => by cases hc
    rw [waitpid_childless h hc] at hcall
    obtain ⟨rfl, hr⟩ := Prod.mk.inj (Option.some.inj hcall)
    exact .inr ⟨firstChild_eq_none_iff.mp hc, rfl, (Option.some.inj hr).symm⟩
  | some c =>
    have hcall : waitpid s (-1) 0 = waitpidLoop s (-1) (some c) := by
      rw [waitpid, if_pos rfl, processLookupChild_eq h, hc]
      rfl
    rw [hcall, returnsAny_loop_iff h]
    constructor
    · rintro hloop _ ⟨rfl⟩ hexited
      obtain ⟨_, _, ⟨rfl⟩, _, hpid⟩ := hloop hexited
      exact hpid
    · intro hpid hexited
      exact ⟨c, mem_of_firstChild hc, rfl, isChild_of_firstChild hc, hpid c rfl hexited⟩

/-- When waiting for any child does what it is for, for every process list, caller and call. -/
theorem waits_any_iff (s : Sys) (procs : List Addr) (e : Event) (h : Listed s procs) :
    WaitsAny s procs e ↔ FirstHasExited s procs e := by
  cases e with
  | waitpid pid options =>
    refine imp_congr_right fun _ => and_congr ?_ ?_
    · exact imp_congr_right fun _ => pollsAny_iff h
    · exact imp_congr_right fun _ => returnsAny_call_iff h
  | resume => exact forall_congr' fun proc => imp_congr_right fun _ => returnsAny_loop_iff h
  | _ => exact Iff.rfl

/-- The shell starts a program, which exits. -/
def oneChild : Sys :=
  (run step shell [.vfork (some 0x300000), .execve (some smallImage), .interrupt [] true,
    .exit 7]).get (by decide +kernel)

theorem oneChild_listed : Listed oneChild [0x100000, 0x200000, 0x300000] :=
  ⟨by decide +kernel, none, by decide +kernel⟩

theorem oneChild_first : firstChild oneChild [0x100000, 0x200000, 0x300000] = some 0x300000 := by
  decide +kernel

theorem waits_any_iff_one_child :
    Listed oneChild [0x100000, 0x200000, 0x300000] ∧
      WaitsAny oneChild [0x100000, 0x200000, 0x300000] (.waitpid (-1) wNOHANG) := by
  refine ⟨oneChild_listed, (waits_any_iff _ _ _ oneChild_listed).mpr fun _ =>
    ⟨fun _ => .inr ⟨_, oneChild_first, ?_⟩, ?_⟩⟩
  · decide +kernel
  · intro h
    cases h

/-- The shell starts two programs, and the second one exits first. -/
def twoChildrenEvents : List Event :=
  [.vfork (some 0x300000), .execve (some smallImage), .vfork (some 0x400000), .interrupt [] true,
    .execve (some smallImage), .interrupt [] true, .interrupt [] true, .exit 3]

def twoChildren : Sys := (run step shell twoChildrenEvents).get (by decide +kernel)

/-- The exited child is not reaped while the first one runs: the call returns 0. And a blocking
call returns -1 for the child that it reaps. -/
theorem second_child_missed :
    shellBoot = some shell ∧ run step shell twoChildrenEvents = some twoChildren ∧
      Listed twoChildren [0x100000, 0x200000, 0x300000, 0x400000] ∧
      IsZombie twoChildren 0x400000 ∧
      ¬WaitsAny twoChildren [0x100000, 0x200000, 0x300000, 0x400000] (.waitpid (-1) wNOHANG) ∧
      Listed oneChild [0x100000, 0x200000, 0x300000] ∧
      ¬WaitsAny oneChild [0x100000, 0x200000, 0x300000] (.waitpid (-1) 0) := by
  have htwo : Listed twoChildren [0x100000, 0x200000, 0x300000, 0x400000] :=
    ⟨by decide +kernel, none, by decide +kernel⟩
  have hzombie : IsZombie twoChildren 0x400000 := ⟨by decide +kernel, by decide +kernel⟩
  have hfirst : firstChild twoChildren [0x100000, 0x200000, 0x300000, 0x400000] =
      some 0x300000 := by decide +kernel
  refine ⟨shellBoot_eq, (Option.some_get _).symm, htwo, hzombie, fun hlaw => ?_, oneChild_listed,
    fun hlaw => ?_⟩
  · rcases (pollsAny_iff htwo).mp ((hlaw rfl).1 rfl) with hnone | ⟨c, hc, hexited⟩
    · exact hnone 0x400000 (by simp) hzombie
    · cases hfirst.symm.trans hc
      exact absurd hexited (by decide +kernel)
  · have hpid := (returnsAny_call_iff oneChild_listed).mp ((hlaw rfl).2 rfl) 0x300000 oneChild_first
      (by decide +kernel)
    exact absurd hpid (by decide +kernel)

/-! ## A given process -/

open Memory (Allocator numChunks chunkSize FreeRun)

/-- The number that the call waits for. -/
def calledFor (s : Sys) : Event → Option UInt32
  | .waitpid pid _ => some pid
  | .resume =>
    match s.kernel s.currentProcess with
    | .waitpid pid _ => some pid
    | _ => none
  | _ => none

/-- The state in which the call returns or sleeps, with its result if it returns. -/
def outcome (s : Sys) : Event → Option (Sys × Option WaitResult)
  | .waitpid pid options => waitpid s pid options
  | .resume =>
    match s.kernel s.currentProcess with
    | .waitpid pid proc => waitpidLoop s pid proc
    | _ => none
  | _ => none

/-- The process with the number, the first one of the list. -/
def named (s : Sys) (procs : List Addr) (pid : UInt32) : Option Addr :=
  procs.find? fun a => s.pid a = pid

/-- The call returns `-ECHILD`, and the process list, the wait queues and `memory_map` are as
before. -/
def Refuses (m : Machine) (procs : List Addr) (e : Event) : Prop :=
  ∃ m' r, machineStep m (.call e) = some m' ∧ outcome m.sys e = some (m'.sys, some r) ∧
    r.value = eCHILD ∧ Listed m'.sys procs ∧ m'.sys.waitQueue = m.sys.waitQueue ∧
    m'.sys.waitQueueNext = m.sys.waitQueueNext ∧ m'.alloc.map = m.alloc.map

/-- What the call sleeps for, and what it destroys, is a child of the caller. -/
structure OnlyChildren (s : Sys) (procs : List Addr) (e : Event) : Prop where
  sleeps : ∀ s', outcome s e = some (s', none) →
    ∃ pid, ∃ c ∈ procs, IsChild s c ∧ s'.kernel s.currentProcess = .waitpid pid (some c)
  reaps : ∀ proc, destroyed s e = some proc → ∃ c ∈ procs, proc = some c ∧ IsChild s c

/-- The law of waiting for the process with a given number. -/
def WaitsGiven (m : Machine) (procs : List Addr) (e : Event) : Prop :=
  ∀ pid, calledFor m.sys e = some pid → pid.toNat < 2 ^ 31 →
    ((∃ a, named m.sys procs pid = some a ∧ IsChild m.sys a) → OnlyChildren m.sys procs e) ∧
    ((∀ a, named m.sys procs pid = some a → ¬IsChild m.sys a) → Refuses m procs e)

/-- The blocks lie inside the memory map, and all their chunks are free. -/
def AllFree (map : List (BitVec 32)) (blocks : List (Addr × UInt32)) : Prop :=
  ∀ b ∈ blocks, b.1.toNat < 2 ^ 31 ∧
    b.1.toNat / chunkSize + numChunks b.2 ≤ Bitmap.bits map ∧
    FreeRun map (numChunks b.2) (b.1.toNat / chunkSize)

/-- Low memory reads as an exited process with the number `-ECHILD`, whose memory is free. -/
def LooksRefused (m : Machine) : Prop :=
  m.sys.low.status = .exited ∧ m.sys.low.pid = eCHILD ∧
    AllFree m.alloc.map (freedBlocks m.sys none)

/-- The number is that of a child, and so is the process that a call goes on waiting for. A call
with `WNOHANG` for a number that no process has is right by chance (`LooksRefused`). -/
def NamesChild (m : Machine) (procs : List Addr) : Event → Prop
  | .waitpid pid options => pid.toNat < 2 ^ 31 →
      (∃ a, named m.sys procs pid = some a ∧ IsChild m.sys a) ∨
        named m.sys procs pid = none ∧ options = wNOHANG ∧ LooksRefused m
  | .resume => ∀ pid proc, m.sys.kernel m.sys.currentProcess = .waitpid pid proc →
      pid.toNat < 2 ^ 31 →
      (∃ a, named m.sys procs pid = some a ∧ IsChild m.sys a) ∧
        ∃ c ∈ procs, proc = some c ∧ IsChild m.sys c
  | _ => True

/-! ### Freeing what is free -/

/-- Frees that complete lie inside the map, and leave their chunks free. -/
theorem freeBlocks_free {alloc alloc' : Allocator} {blocks : List (Addr × UInt32)}
    (h : freeBlocks alloc blocks = some alloc') :
    alloc'.map.length = alloc.map.length ∧
      (∀ c, Bitmap.used alloc'.map c → Bitmap.used alloc.map c) ∧
      AllFree alloc'.map blocks := by
  induction blocks generalizing alloc with
  | nil =>
    cases h
    exact ⟨rfl, fun _ hc => hc, fun b hb => absurd hb List.not_mem_nil⟩
  | cons b blocks ih =>
    obtain ⟨location, size⟩ := b
    obtain ⟨alloc₁, hfree, hrest⟩ := Option.bind_eq_some_iff.mp h
    obtain ⟨hloc, hin, map, rfl, hlen, hused⟩ := Memory.memoryFree_cases hfree
    obtain ⟨hlen', hmono, hfree'⟩ := ih hrest
    refine ⟨hlen'.trans hlen, fun c hc => ((hused c).mp (hmono c hc)).1, fun b hb => ?_⟩
    rcases List.mem_cons.mp hb with rfl | hb
    · refine ⟨hloc, ?_, fun c hle hlt hc => ((hused c).mp (hmono c hc)).2 ⟨hle, hlt⟩⟩
      rwa [Bitmap.bits, hlen', hlen]
    · exact hfree' b hb

/-- Freeing blocks leaves the memory map as it is exactly if they are free. -/
theorem freeBlocks_unchanged_iff {alloc : Allocator} {blocks : List (Addr × UInt32)} :
    (∃ alloc', freeBlocks alloc blocks = some alloc' ∧ alloc'.map = alloc.map) ↔
      AllFree alloc.map blocks := by
  constructor
  · rintro ⟨alloc', hfree, hmap⟩
    have hall := (freeBlocks_free hfree).2.2
    rwa [hmap] at hall
  · intro hall
    induction blocks generalizing alloc with
    | nil => exact ⟨alloc, rfl, rfl⟩
    | cons b blocks ih =>
      obtain ⟨location, size⟩ := b
      obtain ⟨hloc, hin, hrun⟩ := hall _ List.mem_cons_self
      obtain ⟨map, hfree, hlen, hused⟩ := Memory.memoryFree_some hloc hin
      have hmap : map = alloc.map := by
        refine Bitmap.eq_of_used (by decide) hlen fun c => ?_
        rw [hused c, and_iff_left_iff_imp]
        intro hc hmem
        exact hrun c hmem.1 hmem.2 hc
      cases hmap
      obtain ⟨alloc', hrest, hmap⟩ := ih fun b hb => hall b (List.mem_cons_of_mem _ hb)
      refine ⟨alloc', ?_, hmap⟩
      rw [freeBlocks, hfree, Option.bind_some]
      exact hrest

/-! ### What the call returns -/

theorem processLookup_eq (h : Listed s procs) :
    processLookup s pid = some (named s procs pid) :=
  lookupLoop_eq h.linked _ (length_le_allAddrs h.linked)

theorem pid_of_named (h : named s procs pid = some a) : s.pid a = pid :=
  of_decide_eq_true (List.find?_some h :)

theorem ne_eCHILD (hpid : pid.toNat < 2 ^ 31) : pid ≠ eCHILD := by
  rintro rfl
  exact absurd hpid (by decide)

theorem waitpid_given (h : Listed s procs) (hpid : pid.toNat < 2 ^ 31) :
    waitpid s pid options = waitpidOn s pid options (named s procs pid) := by
  have hany : pid ≠ -1 := by
    rintro rfl
    exact absurd hpid (by decide)
  rw [waitpid, if_neg hany, if_neg (not_le.mpr hpid), processLookup_eq h]
  rfl

theorem destroyed_given (h : Listed s procs) (hpid : pid.toNat < 2 ^ 31) :
    destroyed s (.waitpid pid options) =
      if statusOf s (named s procs pid) = .exited then some (named s procs pid) else none := by
  have hany : pid ≠ -1 := by
    rintro rfl
    exact absurd hpid (by decide)
  simp only [destroyed, if_neg hany, if_neg (not_le.mpr hpid), processLookup_eq h,
    Option.filter_some, decide_eq_true_eq]

/-- Sleeping on a queue does not change what a process goes on with. -/
theorem kernel_waitQueueAdd {q : Queue} (h : waitQueueAdd s q a = some s') :
    s'.kernel = s.kernel := by
  rw [waitQueueAdd, Option.bind_eq_bind] at h
  obtain ⟨s₁, henq, hsched⟩ := Option.bind_eq_some_iff.mp h
  have hkernel : s₁.kernel = s.kernel := by
    rw [enqueue] at henq
    split at henq
    · cases henq
      rfl
    · obtain ⟨_, _, rfl⟩ := Option.map_eq_some_iff.mp henq
      rfl
  rcases schedule_switches hsched with rfl | ⟨proc, rfl⟩
  · exact hkernel
  · exact hkernel

/-- A call that sleeps goes on with the process that it has looked up. -/
theorem waitpidLoop_sleeps (h : waitpidLoop s pid proc = some (s', none)) :
    s'.kernel s.currentProcess = .waitpid pid proc := by
  rw [waitpidLoop] at h
  split at h
  · obtain ⟨_, _, heq⟩ := Option.map_eq_some_iff.mp h
    cases (Prod.mk.inj heq).2
  · obtain ⟨s₁, hadd, heq⟩ := Option.map_eq_some_iff.mp h
    obtain ⟨rfl, _⟩ := Prod.mk.inj heq
    rw [kernel_waitQueueAdd hadd]
    exact Function.update_self _ _ _

/-- A blocking call returns the number that it was called with. -/
theorem waitpidLoop_returns (h : waitpidLoop s pid proc = some (s', some r)) : r.value = pid := by
  rw [waitpidLoop] at h
  split at h
  · obtain ⟨_, _, heq⟩ := Option.map_eq_some_iff.mp h
    rw [← Option.some.inj (Prod.mk.inj heq).2]
  · obtain ⟨_, _, heq⟩ := Option.map_eq_some_iff.mp h
    cases (Prod.mk.inj heq).2

theorem waitpidOn_sleeps (h : waitpidOn s pid options proc = some (s', none)) :
    s'.kernel s.currentProcess = .waitpid pid proc := by
  rw [waitpidOn] at h
  split at h
  · split at h
    · obtain ⟨_, _, heq⟩ := Option.map_eq_some_iff.mp h
      cases (Prod.mk.inj heq).2
    · cases (Prod.mk.inj (Option.some.inj h)).2
  · exact waitpidLoop_sleeps h

/-- The only other values are 0, and the number in the PCB of an exited process. -/
theorem waitpidOn_returns (h : waitpidOn s pid options proc = some (s', some r)) :
    r.value = pid ∨ r.value = 0 ∨
      options = wNOHANG ∧ statusOf s proc = .exited ∧ r.value = pidOf s proc := by
  rw [waitpidOn] at h
  split at h
  · next hnohang =>
    split at h
    · next hexited =>
      obtain ⟨_, _, heq⟩ := Option.map_eq_some_iff.mp h
      rw [← Option.some.inj (Prod.mk.inj heq).2]
      exact .inr (.inr ⟨hnohang, hexited, rfl⟩)
    · rw [← Option.some.inj (Prod.mk.inj (Option.some.inj h)).2]
      exact .inr (.inl rfl)
  · exact .inl (waitpidLoop_returns h)

/-! ### When only children are waited for -/

variable {m : Machine}

theorem machineStep_waitpid {m' : Machine} :
    machineStep m (.call (.waitpid pid options)) = some m' ↔
      (∃ r, waitpid m.sys pid options = some (m'.sys, r)) ∧
        freeBlocks m.alloc (freedBy m.sys (.waitpid pid options)) = some m'.alloc := by
  simp only [machineStep, Event.allocates, step, Bool.false_eq_true, if_false, Option.bind_eq_bind,
    Option.bind_eq_some_iff, Option.map_eq_some_iff, Option.some.injEq]
  constructor
  · rintro ⟨_, ⟨⟨s', r⟩, hcall, rfl⟩, alloc', hfree, rfl⟩
    exact ⟨⟨r, hcall⟩, hfree⟩
  · rintro ⟨⟨r, hcall⟩, hfree⟩
    exact ⟨m'.sys, ⟨_, hcall, rfl⟩, m'.alloc, hfree, rfl⟩

/-- A call for a number that no child has is refused only by chance. -/
theorem refuses_given_iff (h : Listed m.sys procs) (hpid : pid.toNat < 2 ^ 31) :
    Refuses m procs (.waitpid pid options) ↔
      named m.sys procs pid = none ∧ options = wNOHANG ∧ LooksRefused m := by
  constructor
  · rintro ⟨m', r, hstep, hcall, hvalue, _, _, _, hmap⟩
    rw [outcome, waitpid_given h hpid] at hcall
    rcases waitpidOn_returns hcall with hr | hr | ⟨hnohang, hexited, hr⟩
    · exact absurd (hr.symm.trans hvalue) (ne_eCHILD hpid)
    · exact absurd (hr.symm.trans hvalue) (by decide)
    · cases hnamed : named m.sys procs pid with
      | some a =>
        rw [hnamed] at hr
        exact absurd ((pid_of_named hnamed).symm.trans (hr.symm.trans hvalue)) (ne_eCHILD hpid)
      | none =>
        rw [hnamed] at hr hexited
        refine ⟨rfl, hnohang, hexited, hr.symm.trans hvalue, ?_⟩
        have hfreed : freedBy m.sys (.waitpid pid options) = freedBlocks m.sys none := by
          rw [freedBy, destroyed_given h hpid, hnamed, if_pos hexited]
          rfl
        have hfree := (machineStep_waitpid.mp hstep).2
        rw [hfreed] at hfree
        exact freeBlocks_unchanged_iff.mp ⟨_, hfree, hmap⟩
  · rintro ⟨hnamed, rfl, hexited, hlow, hfree⟩
    have hcall : waitpid m.sys pid wNOHANG =
        some (poison m.sys none, some ⟨m.sys.low.pid, some m.sys.low.exitValue⟩) := by
      rw [waitpid_given h hpid, hnamed, waitpidOn, if_pos rfl,
        if_pos (show statusOf m.sys none = .exited from hexited)]
      rfl
    have hfreed : freedBy m.sys (.waitpid pid wNOHANG) = freedBlocks m.sys none := by
      rw [freedBy, destroyed_given h hpid, hnamed,
        if_pos (show statusOf m.sys none = .exited from hexited)]
      rfl
    have hlisted : Listed (poison m.sys none) procs := h.poison fun _ _ hsome => by cases hsome
    obtain ⟨alloc', hblocks, hmap⟩ := freeBlocks_unchanged_iff.mpr hfree
    refine ⟨⟨alloc', poison m.sys none⟩, _, machineStep_waitpid.mpr ⟨⟨_, hcall⟩, ?_⟩, hcall, hlow,
      hlisted, rfl, rfl, hmap⟩
    rw [hfreed, hblocks]

/-- A call that goes on is never refused. -/
theorem not_refuses_resume (hkernel : m.sys.kernel m.sys.currentProcess = .waitpid pid proc)
    (hpid : pid.toNat < 2 ^ 31) : ¬Refuses m procs .resume := by
  rintro ⟨m', r, _, hcall, hvalue, _⟩
  simp only [outcome, hkernel] at hcall
  exact ne_eCHILD hpid ((waitpidLoop_returns hcall).symm.trans hvalue)

theorem onlyChildren_given (h : Listed m.sys procs) (hpid : pid.toNat < 2 ^ 31)
    (hnamed : named m.sys procs pid = some a) (hchild : IsChild m.sys a) :
    OnlyChildren m.sys procs (.waitpid pid options) := by
  have hmem : a ∈ procs := List.mem_of_find?_eq_some hnamed
  constructor
  · intro s' hcall
    rw [outcome, waitpid_given h hpid, hnamed] at hcall
    exact ⟨pid, a, hmem, hchild, waitpidOn_sleeps hcall⟩
  · intro proc hdestroyed
    rw [destroyed_given h hpid, hnamed] at hdestroyed
    split at hdestroyed
    · exact ⟨a, hmem, (Option.some.inj hdestroyed).symm, hchild⟩
    · cases hdestroyed

theorem onlyChildren_resume_iff
    (hkernel : m.sys.kernel m.sys.currentProcess = .waitpid pid proc)
    (hends : (step m.sys .resume).isSome) :
    OnlyChildren m.sys procs .resume ↔ ∃ c ∈ procs, proc = some c ∧ IsChild m.sys c := by
  have hcall : outcome m.sys .resume = waitpidLoop m.sys pid proc := by
    simp only [outcome, hkernel]
  have hdestroyed : destroyed m.sys .resume =
      if statusOf m.sys proc = .exited then some proc else none := by
    simp only [destroyed, hkernel]
  constructor
  · intro honly
    by_cases hexited : statusOf m.sys proc = .exited
    · exact honly.reaps proc (by rw [hdestroyed, if_pos hexited])
    · have hloop : (waitpidLoop m.sys pid proc).isSome := by
        simpa [step, resume, hkernel] using hends
      obtain ⟨⟨s', r⟩, hloop⟩ := Option.isSome_iff_exists.mp hloop
      have hnone : r = none := by
        rw [waitpidLoop, if_neg hexited] at hloop
        obtain ⟨_, _, heq⟩ := Option.map_eq_some_iff.mp hloop
        exact (Prod.mk.inj heq).2.symm
      rw [hnone] at hloop
      obtain ⟨pid', c, hc, hchild, hsleeps⟩ := honly.sleeps s' (hcall.trans hloop)
      rw [waitpidLoop_sleeps hloop] at hsleeps
      exact ⟨c, hc, (Kernel.waitpid.inj hsleeps).2, hchild⟩
  · rintro ⟨c, hc, rfl, hchild⟩
    constructor
    · intro s' hsleeps
      exact ⟨pid, c, hc, hchild, waitpidLoop_sleeps (hcall.symm.trans hsleeps)⟩
    · intro proc hproc
      rw [hdestroyed] at hproc
      split at hproc
      · exact ⟨c, hc, (Option.some.inj hproc).symm, hchild⟩
      · cases hproc

/-- When waiting for a given process does what it is for, for every process list, caller and call
that returns or goes to sleep. -/
theorem waits_given_iff (m : Machine) (procs : List Addr) (e : Event) (h : Listed m.sys procs)
    (hends : (step m.sys e).isSome) : WaitsGiven m procs e ↔ NamesChild m procs e := by
  have hnone : ∀ pid, (¬∃ a, named m.sys procs pid = some a ∧ IsChild m.sys a) ↔
      ∀ a, named m.sys procs pid = some a → ¬IsChild m.sys a := by
    intro pid
    simp only [not_exists, not_and]
  cases e with
  | waitpid pid options =>
    constructor
    · intro hlaw hpid
      obtain ⟨_, hrefuses⟩ := hlaw pid rfl hpid
      rw [or_iff_not_imp_left, hnone]
      intro hother
      exact (refuses_given_iff h hpid).mp (hrefuses hother)
    · rintro hcond _ ⟨rfl⟩ hpid
      rcases hcond hpid with ⟨a, hnamed, hchild⟩ | hlow
      · exact ⟨fun _ => onlyChildren_given h hpid hnamed hchild,
          fun hother => absurd hchild (hother a hnamed)⟩
      · refine ⟨fun ⟨a, hnamed, _⟩ => ?_, fun _ => (refuses_given_iff h hpid).mpr hlow⟩
        cases hlow.1.symm.trans hnamed
  | resume =>
    constructor
    · intro hlaw pid proc hkernel hpid
      obtain ⟨honly, hrefuses⟩ := hlaw pid (by simp only [calledFor, hkernel]) hpid
      have hnamed : ∃ a, named m.sys procs pid = some a ∧ IsChild m.sys a := by
        by_contra hother
        exact not_refuses_resume hkernel hpid (hrefuses ((hnone pid).mp hother))
      exact ⟨hnamed, (onlyChildren_resume_iff hkernel hends).mp (honly hnamed)⟩
    · intro hcond pid hcalled hpid
      cases hkernel : m.sys.kernel m.sys.currentProcess with
      | waitpid pid' proc =>
        simp only [calledFor, hkernel, Option.some.injEq] at hcalled
        cases hcalled
        obtain ⟨⟨a, hnamed, hchild⟩, hproc⟩ := hcond _ proc hkernel hpid
        exact ⟨fun _ => (onlyChildren_resume_iff hkernel hends).mpr hproc,
          fun hother => absurd hchild (hother a hnamed)⟩
      | _ =>
        simp only [calledFor, hkernel] at hcalled
        cases hcalled
  | _ =>
    refine iff_of_true (fun pid hcalled => ?_) trivial
    cases hcalled

theorem waits_given_iff_once :
    Listed onceDone.sys [0x11000, 0x14000, 0x19000] ∧ (step onceDone.sys .resume).isSome ∧
      WaitsGiven onceDone [0x11000, 0x14000, 0x19000] .resume := by
  -- one evaluation of the machine for all of them
  have hstate : Linked onceDone.sys.next onceDone.sys.procFirst [0x11000, 0x14000, 0x19000] ∧
      Backward onceDone.sys.prev none [0x11000, 0x14000, 0x19000] ∧
      (step onceDone.sys .resume).isSome ∧
      onceDone.sys.kernel onceDone.sys.currentProcess = .waitpid 2 (some 0x19000) ∧
      named onceDone.sys [0x11000, 0x14000, 0x19000] 2 = some 0x19000 ∧
      IsChild onceDone.sys 0x19000 := by
    decide +kernel
  obtain ⟨hlinked, hback, hends, hkernel, hnamed, hchild⟩ := hstate
  have hlisted : Listed onceDone.sys [0x11000, 0x14000, 0x19000] := ⟨hlinked, none, hback⟩
  refine ⟨hlisted, hends, (waits_given_iff _ _ _ hlisted hends).mpr fun pid proc hk _ => ?_⟩
  obtain ⟨rfl, rfl⟩ := Kernel.waitpid.inj (hkernel.symm.trans hk)
  exact ⟨⟨_, hnamed, hchild⟩, _, by simp, rfl, hchild⟩

/-- The shell waits for a number that no process has: it sleeps, and is put on the wait queue. A
child that waits for the shell sleeps as well. -/
theorem waits_for_no_child :
    smallBoot = some smallMachine ∧ Listed smallMachine.sys [0x11000, 0x14000] ∧
      (step smallMachine.sys (.waitpid 7 0)).isSome ∧
      ¬WaitsGiven smallMachine [0x11000, 0x14000] (.waitpid 7 0) ∧
      machineStep smallMachine .vfork = some smallForked ∧
      Listed smallForked.sys [0x11000, 0x14000, 0x19000] ∧
      (step smallForked.sys (.waitpid 1 0)).isSome ∧
      ¬WaitsGiven smallForked [0x11000, 0x14000, 0x19000] (.waitpid 1 0) := by
  have hshell : Linked smallMachine.sys.next smallMachine.sys.procFirst [0x11000, 0x14000] ∧
      Backward smallMachine.sys.prev none [0x11000, 0x14000] ∧
      (step smallMachine.sys (.waitpid 7 0)).isSome ∧
      named smallMachine.sys [0x11000, 0x14000] 7 = none := by
    decide +kernel
  obtain ⟨hlinked, hback, hsleeps, hunknown⟩ := hshell
  have hforked : Linked smallForked.sys.next smallForked.sys.procFirst
        [0x11000, 0x14000, 0x19000] ∧
      Backward smallForked.sys.prev none [0x11000, 0x14000, 0x19000] ∧
      (step smallForked.sys (.waitpid 1 0)).isSome ∧
      named smallForked.sys [0x11000, 0x14000, 0x19000] 1 = some 0x14000 ∧
      ¬IsChild smallForked.sys 0x14000 := by
    decide +kernel
  obtain ⟨hlinked', hback', hsleeps', hparent, hnochild⟩ := hforked
  have hshell : Listed smallMachine.sys [0x11000, 0x14000] := ⟨hlinked, none, hback⟩
  have hforked : Listed smallForked.sys [0x11000, 0x14000, 0x19000] := ⟨hlinked', none, hback'⟩
  refine ⟨(Option.some_get _).symm, hshell, hsleeps, fun hlaw => ?_, smallForked_eq,
    hforked, hsleeps', fun hlaw => ?_⟩
  · obtain ⟨_, hrefuses⟩ := hlaw 7 rfl (by decide)
    have hcall := (refuses_given_iff hshell (by decide)).mp
      (hrefuses fun a ha => by cases hunknown.symm.trans ha)
    exact absurd hcall.2.1 (by decide)
  · obtain ⟨_, hrefuses⟩ := hlaw 1 rfl (by decide)
    have hcall := (refuses_given_iff hforked (by decide)).mp (hrefuses fun a ha => ?_)
    · exact absurd hcall.2.1 (by decide)
    · cases hparent.symm.trans ha
      exact hnochild

end Vmwos.Processes
