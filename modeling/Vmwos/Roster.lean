import Vmwos.ProcessEvents

/-!
# The process list in any run

`Inv` needs that no process waits in memory that comes to read `EXITED` again (`NoFalseExit`).
The process list does not. `LiveRoster` says that the list is as it should be, that its first
process, the idle task, makes no system calls, and that neither this nor the current process has
exited.

An event may not complete without `NoFalseExit`. If it completes, it keeps the list, and has the
effects `ListEffect` on it (`roster_step`). The system calls that wait end in one of four ways
(`CallEnd`).
-/

namespace Vmwos.Processes

open Chains
open Console (Input)

/-! ## Definitions -/

/-- The process list is `procs`. -/
structure Roster (s : Sys) (procs : List Addr) : Prop extends Listed s procs where
  others : 2 ≤ procs.length
  idleUser : ∀ first, s.procFirst = some first → s.kernel first = .user
  idleAlive : ∀ first, s.procFirst = some first → s.status first ≠ .exited
  current : s.currentProcess ∈ procs

/-- And the current process has not exited. -/
structure LiveRoster (s : Sys) (procs : List Addr) : Prop extends Roster s procs where
  alive : s.status s.currentProcess ≠ .exited

/-- What an event does to the list and to the families. -/
structure ListEffect (s : Sys) (e : Event) (s' : Sys) (procs procs' : List Addr) : Prop where
  members : ∀ a, a ∈ procs' ↔ Stays s e procs a ∨ e = .vfork (some a)
  first : s'.procFirst = s.procFirst
  parent : ∀ a, Stays s e procs a → s'.parent a = s.parent a
  child : ∀ a, e = .vfork (some a) → s'.parent a = some s.currentProcess

/-- The state after the event has a live list, with only these effects. -/
def KeepsRoster (s : Sys) (e : Event) (procs : List Addr) (s' : Sys) : Prop :=
  ∃ procs', LiveRoster s' procs' ∧ ListEffect s e s' procs procs'

/-- The two states have the same list and families, and the same idle task. -/
structure SameList (s s' : Sys) (procs : List Addr) : Prop where
  first : s'.procFirst = s.procFirst
  current : s'.currentProcess = s.currentProcess
  links : ∀ a ∈ procs, s'.next a = s.next a ∧ s'.prev a = s.prev a
  parent : ∀ a ∈ procs, s'.parent a = s.parent a
  idleKernel : ∀ first, s.procFirst = some first → s'.kernel first = s.kernel first
  idleStatus : ∀ first, s.procFirst = some first → s'.status first = .exited →
    s.status first = .exited

/-- A process goes to sleep in the loop, with this next wake-up of the timer. -/
def FallsAsleep (s : Sys) (wakeup : UInt32) : Kernel → Prop
  | .user => False
  | .waitpid _ proc => statusOf s proc ≠ .exited ∧ wakeup = s.timerNextWakeup
  | .consoleRead _ => s.input.Empty ∧ wakeup = s.timerNextWakeup
  | .nanosleep endTime => s.tickCounter ≤ endTime ∧ wakeup = wakeupBy s endTime

/-- A process returns from the loop and destroys nothing, with this input left. -/
def Returns (s : Sys) (input : Input) : Kernel → Prop
  | .consoleRead _ => ¬s.input.Empty
  | .nanosleep endTime => ¬s.tickCounter ≤ endTime ∧ input = s.input
  | _ => False

/-- The current process is in the loop, or the event is the system call that enters it. -/
def InLoop (s : Sys) (e : Event) (k : Kernel) : Prop :=
  s.kernel s.currentProcess = k ∨ s.kernel s.currentProcess = .user ∧
    ∀ endTime, k = .nanosleep endTime →
      ∃ seconds ns, e = .nanosleep seconds ns ∧ endTime = endTimeOf s seconds ns

/-- How a system call that may wait ends, or a loop that goes on. -/
inductive CallEnd (s : Sys) (e : Event) (s' : Sys) : Prop
  | unchanged : (∀ a, ¬Reaps s e a) → s' = s → CallEnd s e s'
  | sleeps {k : Kernel} {q : Queue} {wakeup : UInt32} {s₁ : Sys} :
      (∀ a, ¬Reaps s e a) → InLoop s e k → k.queue = some q → FallsAsleep s wakeup k →
      enqueue (setKernel { s with timerNextWakeup := wakeup } s.currentProcess k) q
        s.currentProcess = some s₁ →
      schedule (setStatus s₁ s.currentProcess .sleeping) = some s' → CallEnd s e s'
  | returns {k : Kernel} {input : Input} :
      (∀ a, ¬Reaps s e a) → InLoop s e k → Returns s input k →
      s' = { setKernel s s.currentProcess .user with input := input } → CallEnd s e s'
  | destroys {pid : UInt32} {proc : Option Addr} :
      (∀ a, Reaps s e a ↔ proc = some a) → InLoop s e (.waitpid pid proc) →
      statusOf s proc = .exited →
      (processDestroy (setKernel s s.currentProcess .user) proc).map Prod.fst = some s' →
      CallEnd s e s'

variable {s s' s₁ : Sys} {e : Event} {procs procs' : List Addr} {a : Addr}

/-! ## How system calls end -/

theorem waitQueueAdd_cases {q : Queue} (h : waitQueueAdd s q a = some s') :
    ∃ s₁, enqueue s q a = some s₁ ∧ schedule (setStatus s₁ a .sleeping) = some s' := by
  rw [waitQueueAdd, Option.bind_eq_bind] at h
  exact Option.bind_eq_some_iff.mp h

theorem callEnd_waitpidLoop {pid : UInt32} {proc : Option Addr} {r : Option WaitResult}
    (hreaps : ∀ a, Reaps s e a ↔ s.status a = .exited ∧ proc = some a)
    (hloop : InLoop s e (.waitpid pid proc)) (h : waitpidLoop s pid proc = some (s', r)) :
    CallEnd s e s' := by
  rw [waitpidLoop] at h
  split at h
  · next hexited =>
    refine .destroys (fun a => ?_) hloop hexited ?_
    · rw [hreaps a]
      constructor
      · exact And.right
      · rintro rfl
        exact ⟨hexited, rfl⟩
    · obtain ⟨⟨s₁, blocks⟩, hdestroy, heq⟩ := Option.map_eq_some_iff.mp h
      cases heq
      rw [hdestroy]
      rfl
  · next halive =>
    obtain ⟨s₂, hadd, heq⟩ := Option.map_eq_some_iff.mp h
    cases heq
    obtain ⟨s₁, henq, hsched⟩ := waitQueueAdd_cases hadd
    refine .sleeps (fun a ha => ?_) hloop rfl ⟨halive, rfl⟩ henq hsched
    obtain ⟨hexited, rfl⟩ := (hreaps a).mp ha
    exact halive hexited

theorem callEnd_waitpidOn {pid options : UInt32} {proc : Option Addr} {r : Option WaitResult}
    (huser : s.kernel s.currentProcess = .user)
    (hreaps : ∀ a, Reaps s e a ↔ s.status a = .exited ∧ proc = some a)
    (h : waitpidOn s pid options proc = some (s', r)) : CallEnd s e s' := by
  have hloop : InLoop s e (.waitpid pid proc) := .inr ⟨huser, fun t ht => by cases ht⟩
  rw [waitpidOn] at h
  split at h
  · split at h
    · next hexited =>
      refine .destroys (fun a => ?_) hloop hexited ?_
      · rw [hreaps a]
        constructor
        · exact And.right
        · rintro rfl
          exact ⟨hexited, rfl⟩
      · obtain ⟨⟨s₁, blocks⟩, hdestroy, heq⟩ := Option.map_eq_some_iff.mp h
        cases heq
        rw [setKernel_self huser, hdestroy]
        rfl
    · next halive =>
      cases h
      refine .unchanged (fun a ha => ?_) rfl
      obtain ⟨hexited, rfl⟩ := (hreaps a).mp ha
      exact halive hexited
  · exact callEnd_waitpidLoop hreaps hloop h

theorem callEnd_waitpid {pid options : UInt32} {r : Option WaitResult}
    (huser : s.kernel s.currentProcess = .user) (h : waitpid s pid options = some (s', r)) :
    CallEnd s (.waitpid pid options) s' := by
  rw [waitpid] at h
  split at h
  · next hany =>
    rw [Option.bind_eq_bind] at h
    obtain ⟨found, hfound, h⟩ := Option.bind_eq_some_iff.mp h
    have hreaps : ∀ a, Reaps s (.waitpid pid options) a ↔ s.status a = .exited ∧ found = some a := by
      intro a
      show s.status a = .exited ∧ _ ↔ _
      rw [if_pos hany, hfound, Option.some.injEq]
    cases found with
    | none =>
      cases h
      exact .unchanged (fun a ha => by cases ((hreaps a).mp ha).2) rfl
    | some proc => exact callEnd_waitpidOn huser hreaps h
  · next hany =>
    split at h
    · next hneg =>
      cases h
      refine .unchanged (fun a ha => ?_) rfl
      have hlt : s.status a = .exited ∧ _ := ha
      rw [if_neg hany] at hlt
      exact absurd hlt.2.1 (Nat.not_lt.mpr hneg)
    · next hneg =>
      rw [Option.bind_eq_bind] at h
      obtain ⟨found, hfound, h⟩ := Option.bind_eq_some_iff.mp h
      refine callEnd_waitpidOn huser (fun a => ?_) h
      show s.status a = .exited ∧ _ ↔ _
      rw [if_neg hany, hfound, Option.some.injEq, and_iff_right (Nat.not_le.mp hneg)]

theorem callEnd_consoleRead {count : UInt32} {r : Option (List UInt8)}
    (hreaps : ∀ a, ¬Reaps s e a) (hloop : InLoop s e (.consoleRead count))
    (h : consoleRead s count = some (s', r)) : CallEnd s e s' := by
  rw [consoleRead] at h
  split at h
  · next hempty =>
    obtain ⟨s₂, hadd, heq⟩ := Option.map_eq_some_iff.mp h
    cases heq
    obtain ⟨s₁, henq, hsched⟩ := waitQueueAdd_cases hadd
    exact .sleeps hreaps hloop rfl ⟨hempty, rfl⟩ henq hsched
  · next hfull =>
    cases h
    exact .returns hreaps hloop hfull rfl

theorem callEnd_nanosleepLoop {endTime : UInt32} (hreaps : ∀ a, ¬Reaps s e a)
    (hloop : InLoop s e (.nanosleep endTime)) (h : nanosleepLoop s endTime = some s') :
    CallEnd s e s' := by
  rw [nanosleepLoop] at h
  split at h
  · next hearly =>
    obtain ⟨s₁, henq, hsched⟩ := waitQueueAdd_cases h
    exact .sleeps hreaps hloop rfl ⟨hearly, rfl⟩ henq hsched
  · next hlate =>
    cases h
    exact .returns hreaps hloop ⟨hlate, rfl⟩ rfl

theorem callEnd_resume (h : resume s = some s') (hkernel : s.kernel s.currentProcess ≠ .user) :
    CallEnd s .resume s' := by
  cases hk : s.kernel s.currentProcess with
  | user => exact absurd hk hkernel
  | waitpid pid proc =>
    simp only [resume, hk] at h
    obtain ⟨⟨s₁, r⟩, hloop, rfl⟩ := Option.map_eq_some_iff.mp h
    refine callEnd_waitpidLoop (fun a => ?_) (.inl hk) hloop
    show s.status a = .exited ∧ _ ↔ _
    rw [hk]
    simp
  | consoleRead count =>
    simp only [resume, hk] at h
    obtain ⟨⟨s₁, r⟩, hread, rfl⟩ := Option.map_eq_some_iff.mp h
    refine callEnd_consoleRead (fun a ha => ?_) (.inl hk) hread
    obtain ⟨pid, hpid⟩ := ha.2
    cases hk.symm.trans hpid
  | nanosleep endTime =>
    simp only [resume, hk] at h
    refine callEnd_nanosleepLoop (fun a ha => ?_) (.inl hk) h
    obtain ⟨pid, hpid⟩ := ha.2
    cases hk.symm.trans hpid

/-- The system calls that may wait, and their loops. -/
def Event.mayWait : Event → Prop
  | .waitpid _ _ => True
  | .consoleRead _ => True
  | .nanosleep _ _ => True
  | .resume => True
  | _ => False

theorem callEnd_of_step (hwait : e.mayWait) (hcan : CanHappen s e) (h : step s e = some s') :
    CallEnd s e s' := by
  cases e with
  | waitpid pid options =>
    obtain ⟨⟨s₁, r⟩, hcall, rfl⟩ := Option.map_eq_some_iff.mp h
    exact callEnd_waitpid hcan.1 hcall
  | consoleRead count =>
    obtain ⟨⟨s₁, r⟩, hcall, rfl⟩ := Option.map_eq_some_iff.mp h
    exact callEnd_consoleRead (fun _ => id) (.inr ⟨hcan.1, fun t ht => by cases ht⟩) hcall
  | nanosleep seconds ns =>
    refine callEnd_nanosleepLoop (fun _ => id) (.inr ⟨hcan.1, fun t ht => ?_⟩) h
    cases ht
    exact ⟨seconds, ns, rfl, rfl⟩
  | resume => exact callEnd_resume h hcan
  | _ => exact hwait.elim

/-- The idle task makes no such calls. -/
theorem Roster.not_idle (h : Roster s procs) (hwait : e.mayWait) (hcan : CanHappen s e) :
    s.procFirst ≠ some s.currentProcess := by
  cases e with
  | waitpid _ _ => exact hcan.2
  | consoleRead _ => exact hcan.2
  | nanosleep _ _ => exact hcan.2
  | resume => exact fun hfirst => hcan (h.idleUser _ hfirst)
  | _ => exact hwait.elim

theorem Event.mayWait.forks (h : e.mayWait) : e ≠ .vfork (some a) := by
  rintro rfl
  exact h

/-! ## What keeps the list -/

theorem Listed.processes_eq (h : Listed s procs) : processes s = procs :=
  h.linked.follow_eq (length_le_allAddrs h.linked)

theorem Roster.first_mem (h : Roster s procs) {first : Addr} (hfirst : s.procFirst = some first) :
    first ∈ procs := by
  obtain ⟨first', second, rest, rfl, heq⟩ := h.toListed.two h.others
  cases hfirst.symm.trans heq
  exact List.mem_cons_self

theorem Roster.same (h : Roster s procs) (hsame : SameList s s' procs) : Roster s' procs where
  toListed := h.toListed.congr hsame.first hsame.links
  others := h.others
  idleUser first hfirst := by
    rw [hsame.first] at hfirst
    rw [hsame.idleKernel first hfirst]
    exact h.idleUser first hfirst
  idleAlive first hfirst hexited := by
    rw [hsame.first] at hfirst
    exact h.idleAlive first hfirst (hsame.idleStatus first hfirst hexited)
  current := by
    rw [hsame.current]
    exact h.current

/-- `schedule` takes up a process of the list that has not exited. -/
theorem Roster.schedule (h : Roster s procs) (hsched : Processes.schedule s = some s') :
    ∃ proc, s' = switchTo s proc ∧ LiveRoster (switchTo s proc) procs := by
  obtain ⟨first, second, rest, rfl, hfirst⟩ := h.toListed.two h.others
  have hlinked := h.linked
  rw [hfirst] at hlinked
  obtain ⟨proc, hproc, hready, hsched'⟩ := schedule_spec hfirst hlinked h.current
  cases hsched.symm.trans hsched'
  refine ⟨proc, rfl, ⟨⟨h.linked, h.back⟩, h.others, h.idleUser, h.idleAlive, hproc⟩, ?_⟩
  rcases hready with rfl | hready
  · exact h.idleAlive proc hfirst
  · show s.status proc ≠ .exited
    rw [hready]
    decide

/-- An event that reaps and creates nothing. -/
theorem SameList.effect (h : SameList s s' procs) (hreaps : ∀ a ∈ procs, ¬Reaps s e a)
    (hforks : ∀ a, e ≠ .vfork (some a)) : ListEffect s e s' procs procs where
  members a := by
    constructor
    · exact fun ha => .inl ⟨ha, hreaps a ha⟩
    · rintro (ha | hfork)
      · exact ha.1
      · exact absurd hfork (hforks a)
  first := h.first
  parent a ha := h.parent a ha.1
  child a hfork := absurd hfork (hforks a)

theorem keepsRoster_same (h : LiveRoster s procs) (hsame : SameList s s' procs)
    (halive : s'.status s.currentProcess ≠ .exited) (hreaps : ∀ a ∈ procs, ¬Reaps s e a)
    (hforks : ∀ a, e ≠ .vfork (some a)) : KeepsRoster s e procs s' := by
  refine ⟨procs, ⟨h.toRoster.same hsame, ?_⟩, hsame.effect hreaps hforks⟩
  rw [hsame.current]
  exact halive

theorem keepsRoster_schedule (h : Roster s₁ procs') (heffect : ListEffect s e s₁ procs procs')
    (hsched : schedule s₁ = some s') : KeepsRoster s e procs s' := by
  obtain ⟨proc, rfl, hlive⟩ := h.schedule hsched
  exact ⟨procs', hlive, { heffect with }⟩

theorem keepsRoster_same_schedule (h : Roster s procs) (hsame : SameList s s₁ procs)
    (hreaps : ∀ a ∈ procs, ¬Reaps s e a) (hforks : ∀ a, e ≠ .vfork (some a))
    (hsched : schedule s₁ = some s') : KeepsRoster s e procs s' :=
  keepsRoster_schedule (h.same hsame) (hsame.effect hreaps hforks) hsched

theorem LiveRoster.not_reaps_current (h : LiveRoster s procs) : ¬Reaps s e s.currentProcess :=
  fun hreaps => h.alive hreaps.exited

theorem Inv.liveRoster {queue : Queue → List Addr} (h : Inv s procs queue) : LiveRoster s procs :=
  ⟨⟨h.toListed, h.others, h.idleUser, h.idleAlive, h.current⟩, h.alive⟩

/-! ## Events -/

theorem enqueue_cases {q : Queue} (h : enqueue s q a = some s₁) : Relinked s s₁ := by
  rw [enqueue] at h
  split at h
  · cases h
    exact ⟨_, _, rfl⟩
  · obtain ⟨links, _, rfl⟩ := Option.map_eq_some_iff.mp h
    exact ⟨_, _, rfl⟩

/-- The current process leaves its loop, or goes to another one. -/
theorem sameList_setKernel (hidle : s.procFirst ≠ some s.currentProcess) (k : Kernel) :
    SameList s (setKernel s s.currentProcess k) procs where
  first := rfl
  current := rfl
  links _ _ := ⟨rfl, rfl⟩
  parent _ _ := rfl
  idleKernel first hfirst := by
    refine Function.update_of_ne (fun heq => hidle ?_) _ _
    rw [hfirst, heq]
  idleStatus _ _ := id

/-- Memory that holds no process of the list is overwritten. -/
theorem Roster.sameList_poison (h : Roster s procs) {proc : Option Addr}
    (hproc : ∀ a ∈ procs, proc ≠ some a) : SameList s (poison s proc) procs := by
  cases proc with
  | none => exact ⟨rfl, rfl, fun _ _ => ⟨rfl, rfl⟩, fun _ _ => rfl, fun _ _ => rfl, fun _ _ => id⟩
  | some a =>
    have hsame : ∀ b ∈ procs, SamePcb (poisonPcb s.toPcbs a) s.toPcbs b := fun b hb =>
      samePcb_poisonPcb _ fun heq => hproc b hb (congrArg some heq.symm)
    refine ⟨rfl, rfl, fun b hb => ⟨(hsame b hb).next, (hsame b hb).prev⟩,
      fun b hb => (hsame b hb).parent, fun _ _ => rfl, fun first hfirst hexited => ?_⟩
    exact (hsame first (h.first_mem hfirst)).status.symm.trans hexited

/-- The current process has not exited if another PCB is overwritten. -/
theorem LiveRoster.alive_poison (h : LiveRoster s procs) {proc : Option Addr}
    (hne : proc ≠ some s.currentProcess) :
    (poison s proc).status s.currentProcess ≠ .exited := by
  cases proc with
  | none => exact h.alive
  | some a =>
    have hcurrent : s.currentProcess ≠ a := fun heq => hne (congrArg some heq.symm)
    show (poisonPcb s.toPcbs a).status s.currentProcess ≠ .exited
    rw [(samePcb_poisonPcb _ hcurrent).status]
    exact h.alive

theorem SameList.trans (h : SameList s s₁ procs) (h' : SameList s₁ s' procs) :
    SameList s s' procs where
  first := h'.first.trans h.first
  current := h'.current.trans h.current
  links a ha := ⟨(h'.links a ha).1.trans (h.links a ha).1, (h'.links a ha).2.trans (h.links a ha).2⟩
  parent a ha := (h'.parent a ha).trans (h.parent a ha)
  idleKernel first hfirst :=
    (h'.idleKernel first (h.first ▸ hfirst)).trans (h.idleKernel first hfirst)
  idleStatus first hfirst hexited :=
    h.idleStatus first hfirst (h'.idleStatus first (h.first ▸ hfirst) hexited)

/-- A process that has exited is taken out of the list. -/
theorem LiveRoster.remove (h : LiveRoster s procs) (ha : a ∈ procs) (hexited : s.status a = .exited)
    (hcaller : s.procFirst ≠ some s.currentProcess) :
    ∃ s₁, processRemove s (some a) = some s₁ ∧ Relisted s s₁ ∧ s₁.procFirst = s.procFirst ∧
      LiveRoster s₁ (procs.erase a) := by
  have hidle : s.procFirst ≠ some a := fun heq => h.idleAlive a heq hexited
  have hcurrent : s.currentProcess ≠ a := fun heq => h.alive (heq ▸ hexited)
  obtain ⟨s₁, hremove, hrelisted, hlisted, hfirst⟩ := h.toListed.remove ha
  have hfirst' := hfirst hidle
  refine ⟨s₁, hremove, hrelisted, hfirst', ⟨hlisted,
    h.toListed.two_le_erase h.others h.current hidle hcurrent hcaller, ?_, ?_, ?_⟩, ?_⟩
  · rw [hfirst']
    obtain ⟨_, _, _, rfl⟩ := hrelisted
    exact h.idleUser
  · rw [hfirst']
    obtain ⟨_, _, _, rfl⟩ := hrelisted
    exact h.idleAlive
  · obtain ⟨_, _, _, rfl⟩ := hrelisted
    exact h.linked.nodup.mem_erase_iff.mpr ⟨hcurrent, h.current⟩
  · obtain ⟨_, _, _, rfl⟩ := hrelisted
    exact h.alive

/-- `process_destroy` by the current process, which leaves its loop. -/
theorem LiveRoster.destroy (h : LiveRoster s procs) (hidle : s.procFirst ≠ some s.currentProcess)
    {proc : Option Addr} (hreaps : ∀ a, Reaps s e a ↔ proc = some a)
    (hexited : statusOf s proc = .exited) (hforks : ∀ a, e ≠ .vfork (some a))
    (hdestroy : (processDestroy (setKernel s s.currentProcess .user) proc).map Prod.fst = some s') :
    KeepsRoster s e procs s' := by
  have hsame : SameList s (setKernel s s.currentProcess .user) procs := sameList_setKernel hidle _
  have hleft : LiveRoster (setKernel s s.currentProcess .user) procs := ⟨h.toRoster.same hsame, h.alive⟩
  by_cases hproc : ∃ a ∈ procs, proc = some a
  · obtain ⟨a, ha, rfl⟩ := hproc
    obtain ⟨s₁, hremove, hrelisted, hfirst, hroster⟩ := hleft.remove ha hexited hidle
    rw [processDestroy, hremove] at hdestroy
    cases hdestroy
    have hgone : ∀ b, ¬Reaps s e b ↔ b ≠ a := fun b => by
      rw [hreaps b, Option.some.injEq, eq_comm]
    have hmem : ∀ b, b ∈ procs.erase a ↔ b ≠ a ∧ b ∈ procs := fun b =>
      h.linked.nodup.mem_erase_iff
    have hne : ∀ b ∈ procs.erase a, some a ≠ some b := fun b hb heq =>
      ((hmem b).mp hb).1 (Option.some.inj heq).symm
    have hpoison := hroster.sameList_poison hne
    refine ⟨procs.erase a, ⟨hroster.toRoster.same hpoison,
      hroster.alive_poison (hne _ hroster.current)⟩, fun b => ?_, hfirst, fun b hb => ?_,
      fun b hfork => absurd hfork (hforks b)⟩
    · rw [hmem b, Stays, hgone b]
      constructor
      · exact fun hb => .inl ⟨hb.2, hb.1⟩
      · rintro (hb | hfork)
        · exact ⟨hb.2, hb.1⟩
        · exact absurd hfork (hforks b)
    · obtain ⟨_, _, _, rfl⟩ := hrelisted
      exact hpoison.parent b ((hmem b).mpr ⟨(hgone b).mp hb.2, hb.1⟩)
  · -- no process of the list is destroyed
    have hother : ∀ a ∈ procs, proc ≠ some a := fun a ha heq => hproc ⟨a, ha, heq⟩
    have hs' : s' = poison (setKernel s s.currentProcess .user) proc := by
      cases proc with
      | none => exact (Option.some.inj hdestroy).symm
      | some a =>
        rw [processDestroy, processRemove_notMem hleft.toListed fun ha => hother a ha rfl] at hdestroy
        exact (Option.some.inj hdestroy).symm
    subst hs'
    exact keepsRoster_same h (hsame.trans (hleft.sameList_poison hother))
      (hleft.alive_poison (hother _ hleft.current))
      (fun a ha hr => hother a ha ((hreaps a).mp hr)) hforks

/-- A system call that may wait, or its loop. -/
theorem LiveRoster.callEnd (h : LiveRoster s procs) (hidle : s.procFirst ≠ some s.currentProcess)
    (hforks : ∀ a, e ≠ .vfork (some a)) (hend : CallEnd s e s') : KeepsRoster s e procs s' := by
  cases hend with
  | unchanged hreaps hs' =>
    subst hs'
    exact keepsRoster_same h ⟨rfl, rfl, fun _ _ => ⟨rfl, rfl⟩, fun _ _ => rfl, fun _ _ => rfl,
      fun _ _ => id⟩ h.alive (fun a _ => hreaps a) hforks
  | @sleeps k q wakeup s₁ hreaps _ _ _ henq hsched =>
    obtain ⟨links, first, rfl⟩ := enqueue_cases henq
    have hkernel : SameList s (setKernel s s.currentProcess k) procs := sameList_setKernel hidle k
    refine keepsRoster_same_schedule h.toRoster ?_ (fun a _ => hreaps a) hforks hsched
    refine ⟨rfl, rfl, fun _ _ => ⟨rfl, rfl⟩, fun _ _ => rfl, hkernel.idleKernel,
      fun idle hfirst hexited => ?_⟩
    have hne : idle ≠ s.currentProcess := fun heq => hidle (heq ▸ hfirst)
    have hexited' : Function.update s.status s.currentProcess .sleeping idle = .exited := hexited
    rwa [Function.update_of_ne hne] at hexited'
  | @returns k input hreaps _ _ hs' =>
    subst hs'
    have hkernel : SameList s (setKernel s s.currentProcess .user) procs := sameList_setKernel hidle _
    exact keepsRoster_same h { hkernel with } h.alive (fun a _ => hreaps a) hforks
  | destroys hreaps _ hexited hdestroy => exact h.destroy hidle hreaps hexited hforks hdestroy

theorem Effect.list (h : Effect s e s' procs procs') : ListEffect s e s' procs procs' where
  members := h.members
  first := h.first
  parent := h.parent
  child a hfork := by
    subst hfork
    exact h.sets.2.2.1

/-- The list with the child, in the state in which `vfork` calls `schedule`. -/
theorem Roster.forked (h : Roster s procs) (ha : a ∉ procs) :
    ∃ next prev first, processCreate s a =
        some { initPcb s a with next := next, prev := prev, procFirst := first } ∧
      first = s.procFirst ∧ Roster (forked s a next prev first) (procs ++ [a]) := by
  have hne : ∀ b ∈ procs, b ≠ a := fun b hb heq => ha (heq ▸ hb)
  obtain ⟨_, hcreate, ⟨next, prev, first, rfl⟩, hlisted, hkeeps⟩ := h.toListed.create ha
  have hfirst : first = s.procFirst := hkeeps (List.ne_nil_of_mem h.current)
  refine ⟨next, prev, first, hcreate, hfirst, ⟨hlisted.1, hlisted.2⟩, ?_, fun idle hidle => ?_,
    fun idle hidle => ?_, List.mem_append_left _ h.current⟩
  · rw [List.length_append]
    exact Nat.le_add_right_of_le h.others
  · have hidle' : first = some idle := hidle
    rw [hfirst] at hidle'
    rw [forked_kernel_other (hne idle (h.first_mem hidle'))]
    exact h.idleUser idle hidle'
  · have hidle' : first = some idle := hidle
    rw [hfirst] at hidle'
    exact forked_status_ne_exited (hne _ h.current) fun _ _ => h.idleAlive idle hidle'

theorem vfork_cases {next prev : Addr → Option Addr} {first : Option Addr}
    (hcreate : processCreate s a =
      some { initPcb s a with next := next, prev := prev, procFirst := first })
    (h : vfork s (some a) = some s') : schedule (forked s a next prev first) = some s' := by
  rw [vfork, hcreate] at h
  exact h

theorem LiveRoster.vfork (h : LiveRoster s procs) (hcalls : Calls s) (ha : a ∉ procs)
    (hfork : Processes.vfork s (some a) = some s') : KeepsRoster s (.vfork (some a)) procs s' := by
  have hne : ∀ b ∈ procs, b ≠ a := fun b hb heq => ha (heq ▸ hb)
  obtain ⟨next, prev, first, hcreate, hfirst, hroster⟩ := h.toRoster.forked ha
  have heffect : Effect s (.vfork (some a)) (Processes.forked s a next prev first) procs
      (procs ++ [a]) := effect_forked hne (hne _ h.current) hcalls.1 hfirst
  exact keepsRoster_schedule hroster heffect.list (vfork_cases hcreate hfork)

/-- The state in which `execve` calls `schedule`. -/
theorem execve_cases {image : Option Image} (h : execve s image = some s') :
    ∃ status low, schedule { loaded s image with status := status, low := low } = some s' ∧
      ∀ b, status b = .exited → s.status b = .exited := by
  have hstatus : ∀ parent b, Function.update s.status parent .ready b = .exited →
      s.status b = .exited := by
    intro parent b hb
    by_cases hbp : b = parent
    · rw [hbp, Function.update_self] at hb
      cases hb
    · rwa [Function.update_of_ne hbp] at hb
  cases image with
  | none =>
    rw [execve] at h
    split at h
    · exact ⟨_, _, h, fun _ => id⟩
    · next parent _ => exact ⟨_, _, h, hstatus parent⟩
  | some image =>
    rw [execve] at h
    split at h
    · exact ⟨_, _, h, fun _ => id⟩
    · next parent _ => exact ⟨_, _, h, hstatus parent⟩

theorem LiveRoster.execve (h : LiveRoster s procs) {image : Option Image}
    (hexecve : Processes.execve s image = some s') : KeepsRoster s (.execve image) procs s' := by
  obtain ⟨status, low, hsched, hstatus⟩ := execve_cases hexecve
  refine keepsRoster_same_schedule h.toRoster ?_ (fun _ _ => id) (fun _ hfork => by cases hfork) hsched
  cases image with
  | none =>
    exact ⟨rfl, rfl, fun _ _ => ⟨rfl, rfl⟩, fun _ _ => rfl, fun _ _ => rfl, fun b _ => hstatus b⟩
  | some image =>
    exact ⟨rfl, rfl, fun _ _ => ⟨rfl, rfl⟩, fun _ _ => rfl, fun _ _ => rfl, fun b _ => hstatus b⟩

/-- Waking a queue, for any links: the processes that the queue leads to are ready. -/
theorem waitQueueWake_cases {q : Queue} (h : waitQueueWake s q = some s') :
    ∃ links status, s' = { s with
        waitQueueNext := links
        status := status
        waitQueue := Function.update s.waitQueue q none } ∧
      ∀ b, (Reach s.waitQueueNext (s.waitQueue q) b → links b = none ∧ status b = .ready) ∧
        (¬Reach s.waitQueueNext (s.waitQueue q) b →
          links b = s.waitQueueNext b ∧ status b = s.status b) := by
  obtain ⟨⟨links, status⟩, hloop, rfl⟩ := Option.map_eq_some_iff.mp h
  exact ⟨links, status, rfl, wakeLoop_cases hloop⟩

/-- No process exits by being woken. -/
theorem exited_of_woken {p : Option Addr} {links links' : Addr → Option Addr}
    {status status' : Addr → Status} {b : Addr}
    (h : (Reach links p b → links' b = none ∧ status' b = .ready) ∧
      (¬Reach links p b → links' b = links b ∧ status' b = status b))
    (hexited : status' b = .exited) : status b = .exited := by
  by_cases hb : Reach links p b
  · cases (h.1 hb).2.symm.trans hexited
  · exact (h.2 hb).2.symm.trans hexited

theorem exit_cases {value : UInt32} (h : exit s value = some s') :
    ∃ s₁, waitQueueWake (exiting s value) .waitpid = some s₁ ∧ schedule s₁ = some s' :=
  Option.bind_eq_some_iff.mp h

theorem LiveRoster.exit (h : LiveRoster s procs) (hcalls : Calls s) {value : UInt32}
    (hexit : Processes.exit s value = some s') : KeepsRoster s (.exit value) procs s' := by
  obtain ⟨s₁, hwake, hsched⟩ := exit_cases hexit
  obtain ⟨links, status, rfl, hwoken⟩ := waitQueueWake_cases hwake
  refine keepsRoster_same_schedule h.toRoster ?_ (fun _ _ => id) (fun _ hfork => by cases hfork) hsched
  refine ⟨rfl, rfl, fun _ _ => ⟨rfl, rfl⟩, fun _ _ => rfl, fun _ _ => rfl,
    fun idle hfirst hexited => ?_⟩
  have hne : idle ≠ s.currentProcess := fun heq => hcalls.2 (heq ▸ hfirst)
  rw [← exiting_status_other hne]
  exact exited_of_woken (hwoken idle) hexited

/-- An interrupt does not stop what inserting a character and the timer keep. -/
theorem interrupt_cases {J : Sys → Prop} {typed : List UInt8} {timer : Bool} (hs : J s)
    (hinsert : ∀ s ch s', J s → consoleInsertChar s ch = some s' → J s')
    (htimer : ∀ s s', J s → timerInterruptHandler s = some s' → J s')
    (h : interruptHandler s typed timer = some s') :
    ∃ s₁, J s₁ ∧ (s' = s₁ ∨ schedule s₁ = some s') := by
  have hserial : ∀ typed s s', J s → serialInterruptHandler s typed = some s' → J s' := by
    intro typed
    induction typed with
    | nil =>
      intro s s' hs h
      cases h
      exact hs
    | cons ch typed ih =>
      intro s s' hs h
      obtain ⟨s₁, hch, hrest⟩ := Option.bind_eq_some_iff.mp h
      exact ih s₁ s' (hinsert s ch s₁ hs hch) hrest
  have hend : ∀ s₂, J s₂ → (if s₂.schedulingEnabled then schedule s₂ else some s₂) = some s' →
      ∃ s₁, J s₁ ∧ (s' = s₁ ∨ schedule s₁ = some s') := by
    intro s₂ hs₂ h
    split at h
    · exact ⟨s₂, hs₂, .inr h⟩
    · cases h
      exact ⟨s', hs₂, .inl rfl⟩
  rw [interruptHandler, Option.bind_eq_bind] at h
  obtain ⟨s₁, hs₁, h⟩ := Option.bind_eq_some_iff.mp h
  have hJ := hserial typed s s₁ hs hs₁
  cases timer with
  | false => exact hend s₁ hJ h
  | true =>
    obtain ⟨s₂, hs₂, h⟩ := Option.bind_eq_some_iff.mp h
    exact hend s₂ (htimer s₁ s₂ hJ hs₂) h

/-- The list is the same, and no process has exited. -/
structure SameAlive (s s' : Sys) (procs : List Addr) : Prop extends SameList s s' procs where
  status : ∀ a, s'.status a = .exited → s.status a = .exited

theorem SameAlive.refl : SameAlive s s procs :=
  ⟨⟨rfl, rfl, fun _ _ => ⟨rfl, rfl⟩, fun _ _ => rfl, fun _ _ => rfl, fun _ _ => id⟩, fun _ => id⟩

theorem SameAlive.wake (h : SameAlive s s₁ procs) {q : Queue} (hwake : waitQueueWake s₁ q = some s') :
    SameAlive s s' procs := by
  obtain ⟨links, status, rfl, hwoken⟩ := waitQueueWake_cases hwake
  have hstatus : ∀ a, status a = .exited → s₁.status a = .exited := fun a =>
    exited_of_woken (hwoken a)
  exact ⟨⟨h.first, h.current, h.links, h.parent, h.idleKernel,
    fun first hfirst hexited => h.idleStatus first hfirst (hstatus first hexited)⟩,
    fun a hexited => h.status a (hstatus a hexited)⟩

theorem SameAlive.insertChar (h : SameAlive s s₁ procs) {ch : UInt8}
    (hinsert : consoleInsertChar s₁ ch = some s') : SameAlive s s' procs := by
  rw [consoleInsertChar] at hinsert
  split at hinsert
  · cases hinsert
    exact h
  · next input _ =>
    have hsame : SameAlive s { s₁ with
        input := input
        schedulingEnabled := if ch = 26 then !s₁.schedulingEnabled else s₁.schedulingEnabled }
        procs := ⟨{ h.toSameList with }, h.status⟩
    exact hsame.wake hinsert

theorem SameAlive.timer (h : SameAlive s s₁ procs)
    (htimer : timerInterruptHandler s₁ = some s') : SameAlive s s' procs := by
  simp only [timerInterruptHandler] at htimer
  split at htimer
  · have hsame : SameAlive s { s₁ with tickCounter := s₁.tickCounter + 1, timerNextWakeup := 0 }
        procs := ⟨{ h.toSameList with }, h.status⟩
    exact hsame.wake htimer
  · cases htimer
    exact ⟨{ h.toSameList with }, h.status⟩

theorem LiveRoster.interrupt (h : LiveRoster s procs) {typed : List UInt8} {timer : Bool}
    (hinterrupt : interruptHandler s typed timer = some s') :
    KeepsRoster s (.interrupt typed timer) procs s' := by
  obtain ⟨s₁, hsame, hs'⟩ := interrupt_cases (J := fun s₁ => SameAlive s s₁ procs) .refl
    (fun _ _ _ h hinsert => h.insertChar hinsert) (fun _ _ h htimer => h.timer htimer) hinterrupt
  have hforks : ∀ a, Event.interrupt typed timer ≠ .vfork (some a) := fun _ hfork => by cases hfork
  rcases hs' with rfl | hsched
  · exact keepsRoster_same h hsame.toSameList (fun hexited => h.alive (hsame.status _ hexited))
      (fun _ _ => id) hforks
  · exact keepsRoster_same_schedule h.toRoster hsame.toSameList (fun _ _ => id) hforks hsched

theorem LiveRoster.reuse (h : LiveRoster s procs) {memory : Pcbs}
    (hsame : ∀ a ∈ procs, SamePcb memory s.toPcbs a) :
    KeepsRoster s (.reuse memory) procs { s with toPcbs := memory } := by
  refine keepsRoster_same h ⟨rfl, rfl, fun a ha => ⟨(hsame a ha).next, (hsame a ha).prev⟩,
    fun a ha => (hsame a ha).parent, fun _ _ => rfl, fun first hfirst hexited => ?_⟩ ?_
    (fun _ _ => id) fun _ hfork => by cases hfork
  · exact (hsame first (h.first_mem hfirst)).status.symm.trans hexited
  · show memory.status s.currentProcess ≠ .exited
    rw [(hsame _ h.current).status]
    exact h.alive

/-! ## Steps -/

/-- Every event that can happen keeps the list, if it completes. -/
theorem roster_step (h : LiveRoster s procs) (hcan : CanHappen s e) (hstep : step s e = some s') :
    KeepsRoster s e procs s' := by
  have hprocs := h.toListed.processes_eq
  have hwait : e.mayWait → KeepsRoster s e procs s' := fun hwait =>
    h.callEnd (h.not_idle hwait hcan) (fun _ => hwait.forks) (callEnd_of_step hwait hcan hstep)
  cases e with
  | vfork memory =>
    cases memory with
    | none =>
      cases hstep
      exact keepsRoster_same h SameAlive.refl.toSameList h.alive (fun _ _ => id)
        fun _ hfork => by cases hfork
    | some a => exact h.vfork hcan.1 (hprocs ▸ hcan.2 a rfl) hstep
  | execve image => exact h.execve hstep
  | exit value => exact h.exit hcan hstep
  | interrupt typed timer => exact h.interrupt hstep
  | reuse memory =>
    cases hstep
    exact h.reuse fun a ha => hcan a (hprocs ▸ ha)
  | _ => exact hwait trivial

end Vmwos.Processes
