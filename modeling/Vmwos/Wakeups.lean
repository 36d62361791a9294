import Vmwos.LooseWaits

/-!
# Wake-ups

What the processes on the three wait queues wait for has not happened yet, told about the queues
as the kernel reaches them.

Results:
1. `no_lost_wakeup`: when a process is on the console queue, the input buffer is empty, and
   no process on the `waitpid` queue waits for one of the list that has exited. This needs no more
   than `LooseWaits`: it also holds where memory that a process waits in reads `EXITED` again.
2. `sleepers_on_time`: no process stays on the timer queue after its deadline, as long as no
   deadline is tick 0. Such a deadline is taken for no wake-up at all (`sleeper_overslept`).
-/

namespace Vmwos.Processes

open Chains Runs
open Console (Input)

variable {s s' : Sys} {procs : List Addr} {queue : Queue → List Addr} {q : Queue}

/-- The processes on a wait queue. -/
def queued (s : Sys) (q : Queue) : List Addr := follow s.waitQueueNext allAddrs (s.waitQueue q)

theorem Lists.queued_eq (h : Lists s procs queue) (q : Queue) : queued s q = queue q :=
  (h.chain q).follow_eq (length_le_allAddrs (h.chain q))

/-- An invariant state stays one along a run of possible events. -/
theorem allStates_of_sysInv {P : Sys → Prop} (hP : ∀ s, SysInv s → P s) (hs : SysInv s)
    {events : List Event} (hpossible : AllSteps step Possible s events) :
    AllStates step P s events ∧ ∃ t, run step s events = some t := by
  constructor
  · refine AllStates.of_inv (I := SysInv) (fun s e s' hs hp hs' => ?_) hP hs hpossible
    obtain ⟨s'', hstep, hsys, _⟩ := step_spec hs hp.1 hp.2
    cases hstep.symm.trans hs'
    exact hsys
  · refine run_completes (I := SysInv) (fun s e hs hp => ?_) hs hpossible
    obtain ⟨s', hstep, hsys, _⟩ := step_spec hs hp.1 hp.2
    exact ⟨s', hstep, hsys⟩

/-! ## Console and `waitpid` -/

/-- Nobody waits for a character or an exit that has come. -/
structure NoLostWakeup (s : Sys) : Prop where
  console : s.waitQueue .console ≠ none → s.input.Empty
  waitpid : ∀ b ∈ queued s .waitpid, ∀ pid a, s.kernel b = .waitpid pid (some a) →
    a ∈ processes s → s.status a ≠ .exited

theorem noLostWakeup_of_looseWaits (h : LooseWaits s (· ∈ processes s)) : NoLostWakeup s := by
  refine ⟨h.input, fun b hb pid a hk ha => h.waited b ?_ pid a hk ha⟩
  rcases (reach_of_mem_follow hb).last with hhead | ⟨p, hp, hlink⟩
  · exact .inl hhead
  · exact .inr ⟨p, h.mem hp, hlink⟩

/-- Nobody waits when the shell enters user space. -/
theorem Booted.looseWaits {idle init : Addr} (h : Booted s idle init) :
    LooseWaits s (· ∈ [idle, init]) := by
  have hhead : ∀ q a, s.waitQueue q ≠ some a := by
    intro q a hq
    have hchain := h.inv.chain q
    rw [hq] at hchain
    cases hchain
  have hlink : ∀ p ∈ [idle, init], ∀ a, s.waitQueueNext p ≠ some a := by
    intro p hp a ha
    cases (h.inv.unlinked p hp fun q => List.not_mem_nil).symm.trans ha
  refine ⟨⟨fun p hp a ha => absurd ha (hlink p hp a), fun q a ha => absurd ha (hhead q a),
    fun q a ha => absurd ha (hhead q a), fun p hp a ha => absurd ha (hlink p hp a)⟩,
    fun a ha => ?_, fun a _ _ => ⟨fun q => hhead q a, fun p hp => hlink p hp a⟩, fun hne => ?_,
    fun a t _ ha => ?_, h.inv.deadline, h.inv.wakeup⟩
  · rcases ha with ha | ⟨p, hp, ha⟩
    · exact absurd ha (hhead _ a)
    · exact absurd ha (hlink p hp a)
  · obtain ⟨a, ha⟩ := Option.ne_none_iff_exists'.mp hne
    exact absurd ha (hhead _ a)
  · rcases ha with ha | ⟨p, hp, ha, _⟩
    · exact absurd ha (hhead _ a)
    · exact absurd ha (hlink p hp a)

/-- A process that forks is on no queue, where no memory reads `EXITED` falsely. -/
theorem forksUnlinked_of_possible (h : SysInv s) {e : Event} (hpossible : Possible s e) :
    ForksUnlinked s e := by
  obtain ⟨queue, hinv⟩ := h
  cases e with
  | vfork memory =>
    cases memory with
    | none => trivial
    | some child =>
      exact hinv.unlinked _ hinv.current fun q => hinv.toLists.notMem_of_user hpossible.1.1.1.1
  | _ => trivial

/-- No wake-up of the console or of `waitpid` is lost in any run. The memory of a process that is
destroyed is overwritten, and may read as anything when it is used again. Should it read `EXITED`
while a process still waits there, the processes that fork must not be left on a queue. -/
theorem no_lost_wakeup (memory : Pcbs) (low : LowMemory) (idle init : Addr)
    (idleImage initImage : Image) (hne : idle ≠ init)
    (hboot : boot memory low idle init idleImage initImage = some s) (events : List Event)
    (hcan : AllSteps step (fun s e => CanHappen s e ∧ HasDeadline s e) s events)
    (hforks : AllSteps step NoFalseExit s events ∨ AllSteps step ForksUnlinked s events) :
    AllStates step NoLostWakeup s events ∧
      (AllSteps step NoFalseExit s events → ∃ t, run step s events = some t) := by
  have hbooted := booted_of_boot hne hboot
  have hpossible : AllSteps step NoFalseExit s events → AllSteps step Possible s events := by
    intro hno
    exact (allSteps_and.mpr ⟨hcan, hno⟩).mono fun _ _ h => ⟨⟨h.1.1, h.2⟩, h.1.2⟩
  have hunlinked : AllSteps step ForksUnlinked s events := by
    rcases hforks with hno | hunlinked
    · refine AllSteps.imp_of_inv (I := SysInv) (fun s e hs hp => ?_) hbooted.inv.sysInv (hpossible hno)
      refine ⟨forksUnlinked_of_possible hs hp, fun s' hs' => ?_⟩
      obtain ⟨s'', hstep, hsys, _⟩ := step_spec hs hp.1 hp.2
      cases hstep.symm.trans hs'
      exact hsys
    · exact hunlinked
  constructor
  · refine AllStates.of_inv (I := fun s => LiveRoster s (processes s) ∧ LooseWaits s (· ∈ processes s))
      (fun s e s' hs hp hs' => ?_) (fun s hs => noLostWakeup_of_looseWaits hs.2) ?_
      (allSteps_and.mpr ⟨hcan, hunlinked⟩)
    · obtain ⟨procs', hroster, hloose⟩ := loose_step hs.1 hs.2 hp.1.1 hp.1.2 hp.2 hs'
      rw [hroster.toListed.processes_eq]
      exact ⟨hroster, hloose⟩
    · rw [hbooted.inv.toLists.processes_eq]
      exact ⟨hbooted.inv.liveRoster, hbooted.looseWaits⟩
  · exact fun hno => (allStates_of_sysInv (P := fun _ => True) (fun _ _ => trivial)
      hbooted.inv.sysInv (hpossible hno)).2

/-- A program waits for input while the shell waits for the program. Two characters arrive,
and the program reads them and exits. -/
def readerEvents : List Event :=
  [.vfork (some 0x300000), .execve (some smallImage), .waitpid 2 0, .consoleRead 2,
    .interrupt [104, 105] false, .resume, .exit 0, .resume]

theorem no_lost_wakeup_reader :
    shellBoot = some shell ∧
      AllSteps step (fun s e => CanHappen s e ∧ HasDeadline s e) shell readerEvents ∧
      AllSteps step NoFalseExit shell readerEvents ∧
      AllStates step NoLostWakeup shell readerEvents := by
  have hpossible : AllSteps step (fun s e => isPossible s e = true) shell readerEvents := by
    decide +kernel
  have hcan : AllSteps step (fun s e => CanHappen s e ∧ HasDeadline s e) shell readerEvents :=
    hpossible.mono fun _ _ h => ⟨(possible_of_isPossible h).1.1, (possible_of_isPossible h).2⟩
  have hno : AllSteps step NoFalseExit shell readerEvents :=
    hpossible.mono fun _ _ h => (possible_of_isPossible h).1.2
  exact ⟨shellBoot_eq, hcan, hno, (no_lost_wakeup clearMemory clearLow 0x100000
    0x200000 smallImage smallImage (by decide) shellBoot_eq readerEvents hcan (.inl hno)).1⟩

/-- The shell and a program wait for the same process. The shell reaps it, and the program finds
overwritten memory and sleeps again. -/
example : (run step shell [.vfork (some 0x300000), .execve (some smallImage), .vfork (some 0x400000),
      .interrupt [] true, .execve (some smallImage), .waitpid 3 0, .waitpid 3 0, .exit 7, .resume,
      .interrupt [] true, .resume]).map (fun s =>
        (processes s, queued s .waitpid, s.kernel 0x300000, s.status 0x400000)) =
    some ([0x100000, 0x200000, 0x300000], [0x300000], .waitpid 3 (some 0x400000), .other) := by
  decide +kernel

/-! ## Timer -/

/-- The deadlines on the timer queue are not over. -/
def OnTime (s : Sys) : Prop :=
  ∀ b ∈ queued s .timer, ∃ endTime, s.kernel b = .nanosleep endTime ∧ s.tickCounter ≤ endTime

theorem onTime_of_sysInv (h : SysInv s) : OnTime s := by
  obtain ⟨queue, hinv⟩ := h
  intro b hb
  rw [hinv.toLists.queued_eq] at hb
  have hkernel := (hinv.member .timer b hb).2
  have hsleeps := hinv.asleep .timer b hb
  cases hk : s.kernel b with
  | nanosleep endTime =>
    rw [hk] at hsleeps
    exact ⟨endTime, rfl, UInt32.le_trans (hinv.wakeup hsleeps.1) hsleeps.2⟩
  | user =>
    rw [hk] at hkernel
    cases hkernel
  | waitpid _ _ =>
    rw [hk] at hkernel
    cases hkernel
  | consoleRead _ =>
    rw [hk] at hkernel
    cases hkernel

/-- No sleeper misses its deadline, in a run without deadlines at tick 0. -/
theorem sleepers_on_time (memory : Pcbs) (low : LowMemory) (idle init : Addr)
    (idleImage initImage : Image) (hne : idle ≠ init)
    (hboot : boot memory low idle init idleImage initImage = some s) (events : List Event)
    (hallowed : AllSteps step Allowed s events) (hdeadline : AllSteps step HasDeadline s events) :
    AllStates step OnTime s events ∧ ∃ t, run step s events = some t := by
  have hbooted := booted_of_boot hne hboot
  exact allStates_of_sysInv (fun _ => onTime_of_sysInv) hbooted.inv.sysInv
    (allSteps_and.mpr ⟨hallowed, hdeadline⟩)

/-- The shell sleeps for one tick and a program for two. Both are woken after the first
deadline, and the program goes back to sleep. -/
def sleeperEvents : List Event :=
  [.interrupt [] true, .vfork (some 0x300000), .execve (some smallImage), .nanosleep 0 16000000,
    .nanosleep 0 32000000, .interrupt [] true, .interrupt [] true, .resume, .resume,
    .interrupt [] true, .resume]

theorem sleepers_on_time_two :
    shellBoot = some shell ∧ AllSteps step Allowed shell sleeperEvents ∧
      AllSteps step HasDeadline shell sleeperEvents ∧ AllStates step OnTime shell sleeperEvents := by
  have hallowed : AllSteps step (fun s e => isAllowed s e = true) shell sleeperEvents := by
    decide +kernel
  have hallowed' := hallowed.mono fun _ _ => allowed_of_isAllowed
  have hdeadline : AllSteps step HasDeadline shell sleeperEvents := by decide +kernel
  exact ⟨shellBoot_eq, hallowed', hdeadline, (sleepers_on_time clearMemory clearLow
    0x100000 0x200000 smallImage smallImage (by decide) shellBoot_eq sleeperEvents hallowed'
    hdeadline).1⟩

/-- The shell sleeps for no time in the first tick, and the timer fires. -/
def oversleepEvents : List Event := [.nanosleep 0 0, .interrupt [] true]

theorem sleeper_overslept :
    shellBoot = some shell ∧ AllSteps step Allowed shell oversleepEvents ∧
      ¬AllStates step OnTime shell oversleepEvents := by
  have hallowed : AllSteps step (fun s e => isAllowed s e = true) shell oversleepEvents := by
    decide +kernel
  refine ⟨shellBoot_eq, hallowed.mono fun _ _ => allowed_of_isAllowed, fun hontime => ?_⟩
  have hrun : (run step shell oversleepEvents).map (fun s =>
      (queued s .timer, s.kernel 0x200000, s.tickCounter)) =
        some ([0x200000], .nanosleep 0, 1) := by decide +kernel
  obtain ⟨s, hs, heq⟩ := Option.map_eq_some_iff.mp hrun
  simp only [Prod.mk.injEq] at heq
  obtain ⟨hqueued, hkernel, htick⟩ := heq
  obtain ⟨endTime, hk, hle⟩ := hontime.last hs 0x200000 (by rw [hqueued]; exact List.mem_cons_self)
  cases hkernel.symm.trans hk
  rw [htick] at hle
  exact absurd hle (by decide)

end Vmwos.Processes
