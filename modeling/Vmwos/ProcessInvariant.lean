import Vmwos.WaitQueues

/-!
# Invariants of the process system

`Lists` ties the pointers to lists: the process list, whose first process is the idle task
and which has others, and the three wait queues. A queue holds processes that wait in the loop of
a system call on this queue; every other process has a null link.

`Waits` says what the waiting loops rely on. A process that has exited is in no loop. A
process on the `waitpid` queue waits for one that has not exited, one on the console queue
finds the buffer empty, and the next wake-up of the timer is no later than any deadline on
the timer queue (`Sleeps`). The wake-up is not over, and no deadline is the 0 that stands
for no wake-up.

Each operation keeps them: `inv_schedule`, `Lists.wake`, `Lists.enqueue`, `Lists.create`,
`Lists.remove`.
-/

namespace Vmwos.Processes

open Chains
open Console (Input)

/-! ## Definitions -/

/-- The pointers are those of the process list `procs` and of the wait queues `queue`. -/
structure Lists (s : Sys) (procs : List Addr) (queue : Queue → List Addr) : Prop extends
    Listed s procs where
  others : 2 ≤ procs.length
  idleUser : ∀ first, s.procFirst = some first → s.kernel first = .user
  current : s.currentProcess ∈ procs
  chain : ∀ q, Linked s.waitQueueNext (s.waitQueue q) (queue q)
  member : ∀ q, ∀ a ∈ queue q, a ∈ procs ∧ (s.kernel a).queue = some q
  unlinked : ∀ a ∈ procs, (∀ q, a ∉ queue q) → s.waitQueueNext a = none

/-- A process that waits in a loop has nothing to go on for, and will be woken when it
has. -/
def Sleeps (s : Sys) : Kernel → Prop
  | .user => False
  | .waitpid _ proc => statusOf s proc ≠ .exited
  | .consoleRead _ => s.input.Empty
  | .nanosleep endTime => s.timerNextWakeup ≠ 0 ∧ s.timerNextWakeup ≤ endTime

/-- What the waiting loops rely on. -/
structure Waits (s : Sys) (procs : List Addr) (queue : Queue → List Addr) : Prop where
  idleAlive : ∀ first, s.procFirst = some first → s.status first ≠ .exited
  zombie : ∀ a ∈ procs, s.status a = .exited → s.kernel a = .user
  asleep : ∀ q, ∀ a ∈ queue q, Sleeps s (s.kernel a)
  deadline : ∀ a endTime, s.kernel a = .nanosleep endTime → endTime ≠ 0
  wakeup : s.timerNextWakeup ≠ 0 → s.tickCounter ≤ s.timerNextWakeup

/-- The invariant of every state between two steps. -/
structure Inv (s : Sys) (procs : List Addr) (queue : Queue → List Addr) : Prop extends
    Lists s procs queue, Waits s procs queue where
  running : s.procFirst = some s.currentProcess ∨ s.status s.currentProcess = .ready

variable {s s' : Sys} {procs : List Addr} {queue : Queue → List Addr} {a : Addr} {q : Queue}

/-! ## Membership -/

theorem Lists.kernel_ne_user (h : Lists s procs queue) (ha : a ∈ queue q) : s.kernel a ≠ .user := by
  intro huser
  have hq := (h.member q a ha).2
  rw [huser] at hq
  cases hq

theorem Lists.notMem_of_user (h : Lists s procs queue) (ha : s.kernel a = .user) : a ∉ queue q :=
  fun hmem => h.kernel_ne_user hmem ha

/-- A process is on one queue at most. -/
theorem Lists.queue_unique (h : Lists s procs queue) {q' : Queue} (ha : a ∈ queue q)
    (ha' : a ∈ queue q') : q = q' :=
  Option.some.inj ((h.member q a ha).2.symm.trans (h.member q' a ha').2)

/-- The idle task and the process behind it. -/
theorem Listed.two (h : Listed s procs) (hlen : 2 ≤ procs.length) :
    ∃ first second rest, procs = first :: second :: rest ∧ s.procFirst = some first := by
  cases hprocs : procs with
  | nil =>
    rw [hprocs] at hlen
    exact absurd hlen (by decide)
  | cons first rest =>
    cases hrest : rest with
    | nil =>
      rw [hprocs, hrest] at hlen
      exact absurd hlen (by simp)
    | cons second rest =>
      have hlinked := h.linked
      rw [hprocs] at hlinked
      exact ⟨first, second, rest, rfl, hlinked.head.1⟩

/-- Without another process, the list still has the idle task and the current process. -/
theorem Listed.two_le_erase (h : Listed s procs) (hlen : 2 ≤ procs.length)
    (hmem : s.currentProcess ∈ procs) (hidle : s.procFirst ≠ some a)
    (hcurrent : s.currentProcess ≠ a) (hcaller : s.procFirst ≠ some s.currentProcess) :
    2 ≤ (procs.erase a).length := by
  have hnodup := h.linked.nodup
  obtain ⟨first, second, rest, rfl, hfirst⟩ := h.two hlen
  have hkept := hnodup.mem_erase_iff.mpr ⟨hcurrent, hmem⟩
  have hne : first ≠ a := fun heq => hidle (heq ▸ hfirst)
  have hfirstKept := hnodup.mem_erase_iff.mpr ⟨hne, List.mem_cons_self⟩
  have hpair : [first, s.currentProcess].Nodup := by
    have hdiff : first ≠ s.currentProcess := fun heq => hcaller (heq ▸ hfirst)
    simp [hdiff]
  refine (hpair.subperm ?_).length_le
  intro b hb
  rcases List.mem_cons.mp hb with rfl | hb
  · exact hfirstKept
  · rw [List.mem_singleton.mp hb]
    exact hkept

theorem Lists.first_cons (h : Lists s procs queue) :
    ∃ first second rest, procs = first :: second :: rest ∧ s.procFirst = some first :=
  h.toListed.two h.others

theorem Sleeps.mono {k : Kernel} (h : Sleeps s k)
    (hstatus : ∀ pid proc, k = .waitpid pid proc → statusOf s proc ≠ .exited →
      statusOf s' proc ≠ .exited)
    (hinput : s'.input = s.input) (hwakeup : s'.timerNextWakeup = s.timerNextWakeup) :
    Sleeps s' k := by
  cases k with
  | user => exact h.elim
  | waitpid pid proc => exact hstatus pid proc rfl h
  | consoleRead count =>
    show s'.input.Empty
    rw [hinput]
    exact h
  | nanosleep endTime =>
    show s'.timerNextWakeup ≠ 0 ∧ s'.timerNextWakeup ≤ endTime
    rw [hwakeup]
    exact h

/-! ## `schedule` -/

/-- `schedule` re-establishes that the current process is ready, or the idle task. -/
theorem inv_schedule (hL : Lists s procs queue) (hW : Waits s procs queue) :
    ∃ proc, schedule s = some (switchTo s proc) ∧ Inv (switchTo s proc) procs queue := by
  obtain ⟨first, second, rest, rfl, hfirst⟩ := hL.first_cons
  have hlinked := hL.linked
  rw [hfirst] at hlinked
  obtain ⟨proc, hproc, hready, hsched⟩ := schedule_spec hfirst hlinked hL.current
  refine ⟨proc, hsched, ⟨{ hL with current := hproc }, { hW with }, ?_⟩⟩
  rcases hready with rfl | hready
  · exact .inl hfirst
  · exact .inr hready

theorem Inv.alive (h : Inv s procs queue) : s.status s.currentProcess ≠ .exited := by
  rcases h.running with hidle | hready
  · exact h.idleAlive _ hidle
  · rw [hready]
    decide

/-! ## Wait queues -/

/-- The state after waking a queue with the processes `l`. -/
def woken (s : Sys) (q : Queue) (l : List Addr) : Sys :=
  { s with
    waitQueueNext := wokenLinks s.waitQueueNext l
    status := wokenStatus s.status l
    waitQueue := Function.update s.waitQueue q none }

theorem Lists.isQueued (h : Lists s procs queue) :
    Queued (· ∈ procs) s.waitQueueNext s.waitQueue queue :=
  ⟨h.chain, fun _ _ _ ha ha' => h.queue_unique ha ha', h.unlinked⟩

theorem Lists.wake (h : Lists s procs queue) (q : Queue) :
    waitQueueWake s q = some (woken s q (queue q)) ∧
      Lists (woken s q (queue q)) procs (Function.update queue q []) := by
  obtain ⟨hloop, hqueued⟩ := h.isQueued.wake s.status q
  constructor
  · rw [waitQueueWake, hloop, Option.map_some]
    rfl
  · refine { h with
      chain := hqueued.chain
      member := fun q' a ha => ?_
      unlinked := hqueued.unlinked }
    by_cases hq : q' = q
    · subst hq
      rw [Function.update_self] at ha
      exact absurd ha List.not_mem_nil
    · rw [Function.update_of_ne hq] at ha
      exact h.member q' a ha

/-- The two states differ in the links and the first processes of the queues. -/
def Relinked (s s' : Sys) : Prop :=
  ∃ links first, s' = { s with waitQueueNext := links, waitQueue := first }

theorem Lists.enqueue (h : Lists s procs queue) (ha : a ∈ procs)
    (hkernel : (s.kernel a).queue = some q) :
    ∃ s', enqueue s q a = some s' ∧ Relinked s s' ∧ Lists s' procs (joinQueue queue q a) := by
  have hone : ∀ q', a ∈ queue q' → q' = q := fun q' ha' =>
    Option.some.inj ((h.member q' a ha').2.symm.trans hkernel)
  obtain ⟨links, first, hadd, hqueued⟩ := h.isQueued.add ha hone
  refine ⟨{ s with waitQueueNext := links, waitQueue := Function.update s.waitQueue q first }, ?_,
    ⟨_, _, rfl⟩, { h with
      chain := hqueued.chain
      member := fun q' b hb => ?_
      unlinked := hqueued.unlinked }⟩
  · rw [enqueue_eq, hadd]
    rfl
  · rcases mem_joinQueue.mp hb with hb | ⟨rfl, rfl⟩
    · exact h.member q' b hb
    · exact ⟨ha, hkernel⟩

/-! ## The process list -/

/-- Only the fields of the listed PCBs matter. -/
theorem Lists.congr (h : Lists s procs queue) (hfirst : s'.procFirst = s.procFirst)
    (hqueue : s'.waitQueue = s.waitQueue) (hcurrent : s'.currentProcess ∈ procs)
    (hagree : ∀ a ∈ procs, s'.next a = s.next a ∧ s'.prev a = s.prev a ∧
      s'.waitQueueNext a = s.waitQueueNext a ∧ s'.kernel a = s.kernel a) :
    Lists s' procs queue where
  toListed := h.toListed.congr hfirst fun a ha => ⟨(hagree a ha).1, (hagree a ha).2.1⟩
  others := h.others
  idleUser := by
    intro first hfirst'
    rw [hfirst] at hfirst'
    obtain ⟨first', second, rest, rfl, heq⟩ := h.first_cons
    cases hfirst'.symm.trans heq
    rw [(hagree first List.mem_cons_self).2.2.2]
    exact h.idleUser first heq
  current := hcurrent
  chain := by
    intro q
    rw [hqueue]
    exact (h.chain q).congr fun a ha => (hagree a (h.member q a ha).1).2.2.1
  member := by
    intro q a ha
    obtain ⟨hmem, hkernel⟩ := h.member q a ha
    rw [(hagree a hmem).2.2.2]
    exact ⟨hmem, hkernel⟩
  unlinked := by
    intro a ha hq
    rw [(hagree a ha).2.2.1]
    exact h.unlinked a ha hq

theorem Lists.create (h : Lists s procs queue) (ha : a ∉ procs) :
    ∃ s', processCreate s a = some s' ∧ Relisted (initPcb s a) s' ∧ s'.procFirst = s.procFirst ∧
      Lists s' (procs ++ [a]) queue := by
  obtain ⟨first, second, rest, hprocs, hfirst⟩ := h.first_cons
  have hne : ∀ b ∈ procs, b ≠ a := fun b hb heq => ha (heq ▸ hb)
  obtain ⟨_, hcreate, hrelisted, hlisted, hkeeps⟩ := h.toListed.create ha
  have hfirst' := hkeeps (by simp [hprocs])
  refine ⟨_, hcreate, hrelisted, hfirst', hlisted, ?_, ?_, ?_, ?_, ?_, ?_⟩
  · rw [List.length_append]
    exact Nat.le_add_right_of_le h.others
  · intro idle hidle
    rw [hfirst', hfirst] at hidle
    cases hidle
    obtain ⟨_, _, _, rfl⟩ := hrelisted
    show Function.update s.kernel a .user first = .user
    rw [Function.update_of_ne (hne first (by simp [hprocs]))]
    exact h.idleUser first hfirst
  · obtain ⟨_, _, _, rfl⟩ := hrelisted
    exact List.mem_append_left _ h.current
  · obtain ⟨_, _, _, rfl⟩ := hrelisted
    intro q
    exact (h.chain q).update (fun hq => ha (h.member q a hq).1) none
  · obtain ⟨_, _, _, rfl⟩ := hrelisted
    intro q b hb
    obtain ⟨hmem, hkernel⟩ := h.member q b hb
    refine ⟨List.mem_append_left _ hmem, ?_⟩
    show (Function.update s.kernel a .user b).queue = some q
    rwa [Function.update_of_ne (hne b hmem)]
  · obtain ⟨_, _, _, rfl⟩ := hrelisted
    intro b hb hq
    show Function.update s.waitQueueNext a none b = none
    by_cases hba : b = a
    · rw [hba, Function.update_self]
    · rw [Function.update_of_ne hba]
      have hmem : b ∈ procs := by
        rcases List.mem_append.mp hb with hb | hb
        · exact hb
        · exact absurd (List.mem_singleton.mp hb) hba
      exact h.unlinked b hmem hq

/-- A process that is not current and on no queue is taken out of the list. The current one
is not the idle task, so it is left next to that. -/
theorem Lists.remove (h : Lists s procs queue) (ha : a ∈ procs) (hidle : s.procFirst ≠ some a)
    (hcurrent : s.currentProcess ≠ a) (hcaller : s.procFirst ≠ some s.currentProcess)
    (hqueue : ∀ q, a ∉ queue q) :
    ∃ s', processRemove s (some a) = some s' ∧ Relisted s s' ∧ s'.procFirst = s.procFirst ∧
      Lists s' (procs.erase a) queue := by
  have hnodup := h.linked.nodup
  obtain ⟨_, hremove, hrelisted, hlisted, hkeeps⟩ := h.toListed.remove ha
  have hfirst' := hkeeps hidle
  have hmem : ∀ b, b ∈ procs.erase a ↔ b ≠ a ∧ b ∈ procs := fun b => hnodup.mem_erase_iff
  refine ⟨_, hremove, hrelisted, hfirst', hlisted, ?_, ?_, ?_, ?_, ?_, ?_⟩
  · exact h.toListed.two_le_erase h.others h.current hidle hcurrent hcaller
  · intro idle hfirst
    rw [hfirst'] at hfirst
    obtain ⟨_, _, _, rfl⟩ := hrelisted
    exact h.idleUser idle hfirst
  · obtain ⟨_, _, _, rfl⟩ := hrelisted
    exact (hmem s.currentProcess).mpr ⟨hcurrent, h.current⟩
  · obtain ⟨_, _, _, rfl⟩ := hrelisted
    exact h.chain
  · obtain ⟨_, _, _, rfl⟩ := hrelisted
    intro q b hb
    have hne : b ≠ a := fun heq => hqueue q (heq ▸ hb)
    exact ⟨(hmem b).mpr ⟨hne, (h.member q b hb).1⟩, (h.member q b hb).2⟩
  · obtain ⟨_, _, _, rfl⟩ := hrelisted
    exact fun b hb => h.unlinked b ((hmem b).mp hb).2

end Vmwos.Processes
