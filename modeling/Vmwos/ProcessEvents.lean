import Vmwos.ProcessSteps

/-!
# The events of the process system

Each event completes and keeps the invariant, one lemma per event, and `step_effect` and
`step_spec` put them together. `boot_spec` says that the invariant holds when the shell
enters user space.
-/

namespace Vmwos.Processes

open Chains Runs
open Console (Input)

variable {s s' s₁ : Sys} {e : Event} {procs procs' : List Addr} {queue : Queue → List Addr}
  {a : Addr} {q : Queue}

/-! ## `vfork` -/

/-- The state in which `vfork` calls `schedule`. -/
def forked (s : Sys) (a : Addr) (next prev : Addr → Option Addr) (first : Option Addr) : Sys :=
  copyPcb { initPcb s a with next := next, prev := prev, procFirst := first } a s.currentProcess

section Forked

variable {next prev : Addr → Option Addr} {first : Option Addr} {b : Addr}

theorem forked_status_child : (forked s a next prev first).status a = .ready :=
  Function.update_self _ _ _

theorem forked_status_parent (ha : s.currentProcess ≠ a) :
    (forked s a next prev first).status s.currentProcess = .sleeping := by
  show Function.update (Function.update (Function.update s.status a .sleeping) _ _) a .ready _ = _
  rw [Function.update_of_ne ha, Function.update_self]

theorem forked_status_other (ha : b ≠ a) (hb : b ≠ s.currentProcess) :
    (forked s a next prev first).status b = s.status b := by
  show Function.update (Function.update (Function.update s.status a .sleeping) _ _) a .ready b = _
  rw [Function.update_of_ne ha, Function.update_of_ne hb, Function.update_of_ne ha]

/-- The parent and the child have not exited, and the others are as before. -/
theorem forked_status_ne_exited (ha : s.currentProcess ≠ a)
    (hb : b ≠ a → b ≠ s.currentProcess → s.status b ≠ .exited) :
    (forked s a next prev first).status b ≠ .exited := by
  by_cases hba : b = a
  · rw [hba, forked_status_child]
    decide
  · by_cases hbp : b = s.currentProcess
    · rw [hbp, forked_status_parent ha]
      decide
    · rw [forked_status_other hba hbp]
      exact hb hba hbp

theorem forked_parent_other (ha : b ≠ a) :
    (forked s a next prev first).parent b = s.parent b := by
  show Function.update (Function.update s.parent a none) a _ b = _
  rw [Function.update_of_ne ha, Function.update_of_ne ha]

theorem forked_kernel_child : (forked s a next prev first).kernel a = .user :=
  Function.update_self _ _ _

theorem forked_kernel_other (ha : b ≠ a) :
    (forked s a next prev first).kernel b = s.kernel b :=
  Function.update_of_ne ha _ _

theorem forked_totalTime_other (ha : b ≠ a) :
    (forked s a next prev first).totalTime b = s.totalTime b := by
  show Function.update (Function.update s.totalTime a 0) a _ b = _
  rw [Function.update_of_ne ha, Function.update_of_ne ha]

theorem forked_lastScheduled_other (ha : b ≠ a) :
    (forked s a next prev first).lastScheduled b = s.lastScheduled b := by
  show Function.update (Function.update s.lastScheduled a _) a _ b = _
  rw [Function.update_of_ne ha, Function.update_of_ne ha]

/-- No process waits in another way than before, and the child does not wait. -/
theorem Waits.forked (h : Waits s procs queue) (hcur : s.currentProcess ≠ a)
    (huser : s.kernel s.currentProcess = .user) (hfirst : first = s.procFirst)
    (hqueue : ∀ q, ∀ b ∈ queue q, b ≠ a) :
    Waits (forked s a next prev first) (procs ++ [a]) queue := by
  refine ⟨fun idle hidle => ?_, fun b hb hexited => ?_, fun q b hb => ?_, fun b t hk => ?_, h.wakeup⟩
  · have hidle' : first = some idle := hidle
    rw [hfirst] at hidle'
    exact forked_status_ne_exited hcur fun _ _ => h.idleAlive idle hidle'
  · by_cases hba : b = a
    · rw [hba, forked_kernel_child]
    · rw [forked_kernel_other hba]
      by_cases hbp : b = s.currentProcess
      · rw [hbp, huser]
      · rw [forked_status_other hba hbp] at hexited
        have hmem : b ∈ procs := by
          rcases List.mem_append.mp hb with hb | hb
          · exact hb
          · exact absurd (List.mem_singleton.mp hb) hba
        exact h.zombie b hmem hexited
  · rw [forked_kernel_other (hqueue q b hb)]
    refine (h.asleep q b hb).mono (fun _ proc _ halive => ?_) rfl rfl
    cases proc with
    | none => exact halive
    | some c => exact forked_status_ne_exited hcur fun _ _ => halive
  · by_cases hba : b = a
    · rw [hba, forked_kernel_child] at hk
      cases hk
    · rw [forked_kernel_other hba] at hk
      exact h.deadline b t hk

theorem goesOn_forked (hne : ∀ b ∈ procs, b ≠ a) :
    GoesOn s (forked s a next prev first) (· ∈ procs) :=
  ⟨rfl, fun b hb => ⟨forked_totalTime_other (hne b hb), forked_lastScheduled_other (hne b hb)⟩⟩

/-- The child is behind the other processes, and the parent sleeps. -/
theorem effect_forked (hne : ∀ b ∈ procs, b ≠ a) (hcur : s.currentProcess ≠ a)
    (huser : s.kernel s.currentProcess = .user) (hfirst : first = s.procFirst) :
    Effect s (.vfork (some a)) (forked s a next prev first) procs (procs ++ [a]) := by
  refine ⟨fun b => ?_, hfirst, fun b hb => forked_parent_other (hne b hb.1),
    fun b hb _ => forked_kernel_other (hne b hb), fun b hb => ?_, ?_, .inl (goesOn_forked hne).stays,
    forked_status_parent hcur, forked_status_child, ?_, forked_kernel_child, ?_, ?_⟩
  · rw [List.mem_append, List.mem_singleton]
    constructor
    · rintro (hb | rfl)
      · exact .inl ⟨hb, id⟩
      · exact .inr rfl
    · rintro (⟨hb, _⟩ | heq)
      · exact .inl hb
      · cases heq
        exact .inr rfl
  · by_cases hbp : b = s.currentProcess
    · rw [hbp, forked_status_parent hcur]
      exact .sleeps rfl
    · rw [forked_status_other (hne b hb.1) hbp]
      exact .same
  · exact (UInt32.add_zero _).symm
  · exact Function.update_self _ _ _
  · rw [forked_kernel_other hcur, huser]
  · show Function.update (Function.update s.totalTime a 0) a
      (Function.update s.totalTime a 0 s.currentProcess) a = _
    rw [Function.update_self, Function.update_of_ne hcur]

end Forked

theorem completes_vfork (h : Inv s procs queue) (hcalls : Calls s) (ha : a ∉ procs) :
    Completes s (.vfork (some a)) procs (vfork s (some a)) := by
  have hne : ∀ b ∈ procs, b ≠ a := fun b hb heq => ha (heq ▸ hb)
  have hcur := hne s.currentProcess h.current
  have hnull : s.waitQueueNext s.currentProcess = none :=
    h.unlinked _ h.current fun q => h.toLists.notMem_of_user hcalls.1
  obtain ⟨_, hcreate, ⟨next, prev, first, rfl⟩, hfirst, hlists⟩ := h.toLists.create ha
  have hfirst' : first = s.procFirst := hfirst
  have hvfork : vfork s (some a) = schedule (forked s a next prev first) := by
    rw [vfork, hcreate]
    rfl
  -- the copied wait queue link is null, like the one it replaces
  have hL : Lists (forked s a next prev first) (procs ++ [a]) queue := by
    refine hlists.congr rfl rfl hlists.current fun b _ => ⟨rfl, rfl, ?_, rfl⟩
    show Function.update (Function.update s.waitQueueNext a none) a
      (Function.update s.waitQueueNext a none s.currentProcess) b =
        Function.update s.waitQueueNext a none b
    rw [Function.update_idem, Function.update_of_ne hcur, hnull]
  have hW : Waits (forked s a next prev first) (procs ++ [a]) queue :=
    h.toWaits.forked hcur hcalls.1 hfirst' fun q b hb => hne b (h.member q b hb).1
  have hE : Effect s (.vfork (some a)) (forked s a next prev first) procs (procs ++ [a]) :=
    effect_forked hne hcur hcalls.1 hfirst'
  rw [hvfork]
  refine completes_schedule hL hW hE (goesOn_forked hne).stays ⟨h.current, id⟩ fun b hb => ?_
  cases hb
  exact ha

/-! ## `execve` -/

/-- A status other than `exited` keeps the waiting loops right. -/
theorem Waits.setStatus {status : Status} (h : Waits s procs queue) (hstatus : status ≠ .exited) :
    Waits (setStatus s a status) procs queue := by
  refine ⟨fun idle hidle => ?_, fun b hb hexited => ?_,
    fun q b hb => (h.asleep q b hb).setStatus hstatus, h.deadline, h.wakeup⟩
  · show Function.update s.status a status idle ≠ .exited
    by_cases hia : idle = a
    · rw [hia, Function.update_self]
      exact hstatus
    · rw [Function.update_of_ne hia]
      exact h.idleAlive idle hidle
  · have hexited' : Function.update s.status a status b = .exited := hexited
    by_cases hba : b = a
    · rw [hba, Function.update_self] at hexited'
      exact absurd hexited' hstatus
    · rw [Function.update_of_ne hba] at hexited'
      exact h.zombie b hb hexited'

/-- The PCB after an `execve`, or as it was. -/
def loaded (s : Sys) : Option Image → Sys
  | none => s
  | some image => loadImage s image

theorem lists_loaded (h : Lists s procs queue) (image : Option Image) :
    Lists (loaded s image) procs queue := by
  cases image with
  | none => exact h
  | some image => exact { h with }

theorem waits_loaded (h : Waits s procs queue) (image : Option Image) :
    Waits (loaded s image) procs queue := by
  cases image with
  | none => exact h
  | some image =>
    refine { h with asleep := fun q b hb => ?_ }
    refine (h.asleep q b hb).mono (fun _ proc _ halive => ?_) rfl rfl
    cases proc <;> exact halive

theorem loaded_status (image : Option Image) : (loaded s image).status = s.status := by
  cases image <;> rfl

/-- What loading a program and writing statuses leaves as it is. -/
theorem effect_execve {image : Option Image} {status : Addr → Status} {low : LowMemory}
    (hstatus : ∀ b ∈ procs, Change s (.execve image) b (status b))
    (hready : ∀ b ∈ procs, s.parent s.currentProcess = some b → status b = .ready) :
    Effect s (.execve image) { loaded s image with status := status, low := low } procs procs ∧
      GoesOn s { loaded s image with status := status, low := low }
        (Stays s (.execve image) procs) := by
  have hgoes : GoesOn s { loaded s image with status := status, low := low }
      (Stays s (.execve image) procs) := by
    cases image <;> exact ⟨rfl, fun _ _ => ⟨rfl, rfl⟩⟩
  refine ⟨⟨fun b => ?_, ?_, fun b _ => ?_, fun b _ _ => ?_, fun b hb => hstatus b hb.1, ?_,
    .inl hgoes, hready⟩, hgoes⟩
  · constructor
    · exact fun hb => .inl ⟨hb, id⟩
    · rintro (⟨hb, _⟩ | hfork)
      · exact hb
      · cases hfork
  · cases image <;> rfl
  · cases image <;> rfl
  · cases image <;> rfl
  · cases image <;> exact (UInt32.add_zero _).symm

theorem completes_execve (h : Inv s procs queue) (image : Option Image) :
    Completes s (.execve image) procs (execve s image) := by
  have hL := lists_loaded h.toLists image
  have hW := waits_loaded h.toWaits image
  cases hparent : s.parent s.currentProcess with
  | none =>
    have hexecve : execve s image = schedule { loaded s image with
        low := { (loaded s image).low with status := .ready } } := by
      cases image <;> simp only [execve, loadImage, hparent, loaded]
    rw [hexecve]
    obtain ⟨heffect, hgoes⟩ : Effect s (.execve image)
          { loaded s image with low := { (loaded s image).low with status := .ready } } procs procs ∧
        GoesOn s { loaded s image with low := { (loaded s image).low with status := .ready } }
          (Stays s (.execve image) procs) :=
      effect_execve (fun b _ => by rw [loaded_status]; exact .same)
        (fun b _ hb => by rw [hparent] at hb; cases hb)
    refine completes_schedule { hL with } { hW with asleep := fun q b hb => ?_ } heffect hgoes
      ⟨h.current, id⟩ fun b hb => by cases hb
    refine (hW.asleep q b hb).mono (fun _ proc _ halive => ?_) rfl rfl
    cases proc with
    | none => exact Status.noConfusion
    | some c => exact halive
  | some parent =>
    have hexecve : execve s image = schedule (setStatus (loaded s image) parent .ready) := by
      cases image <;> simp only [execve, loadImage, hparent, loaded]
    rw [hexecve]
    obtain ⟨heffect, hgoes⟩ : Effect s (.execve image)
          (setStatus (loaded s image) parent .ready) procs procs ∧
        GoesOn s (setStatus (loaded s image) parent .ready) (Stays s (.execve image) procs) := by
      refine effect_execve (fun b _ => ?_) (fun b _ hb => ?_)
      · rw [loaded_status]
        by_cases hb : b = parent
        · rw [hb, Function.update_self]
          exact .released rfl hparent
        · rw [Function.update_of_ne hb]
          exact .same
      · rw [hparent] at hb
        cases hb
        exact Function.update_self _ _ _
    exact completes_schedule { hL with } (hW.setStatus (by decide)) heffect hgoes ⟨h.current, id⟩
      fun b hb => by cases hb

/-! ## `exit` -/

/-- Waking a queue keeps the loops on the other queues right. -/
theorem waits_woken (hidle : ∀ first, s.procFirst = some first → s.status first ≠ .exited)
    (hzombie : ∀ a ∈ procs, s.status a = .exited → s.kernel a = .user)
    (hasleep : ∀ q', q' ≠ q → ∀ a ∈ queue q', Sleeps s (s.kernel a))
    (hdeadline : ∀ a endTime, s.kernel a = .nanosleep endTime → endTime ≠ 0)
    (hwakeup : s.timerNextWakeup ≠ 0 → s.tickCounter ≤ s.timerNextWakeup) :
    Waits (woken s q (queue q)) procs (Function.update queue q []) := by
  have hready : ∀ b, s.status b ≠ .exited → (woken s q (queue q)).status b ≠ .exited := by
    intro b hb
    show wokenStatus s.status (queue q) b ≠ .exited
    unfold wokenStatus
    split
    · exact Status.noConfusion
    · exact hb
  refine ⟨fun idle hfirst => hready idle (hidle idle hfirst), fun b hb hexited => ?_,
    fun q' b hb => ?_, hdeadline, hwakeup⟩
  · refine hzombie b hb ?_
    by_contra halive
    exact hready b halive hexited
  · by_cases hq : q' = q
    · subst hq
      rw [Function.update_self] at hb
      exact absurd hb List.not_mem_nil
    · rw [Function.update_of_ne hq] at hb
      refine (hasleep q' hq b hb).mono (fun _ proc _ halive => ?_) rfl rfl
      cases proc with
      | none => exact halive
      | some c => exact hready c halive

/-- The state in which `exit` wakes the `waitpid` queue. -/
def exiting (s : Sys) (value : UInt32) : Sys :=
  { setStatus s s.currentProcess .exited with
    exitValue := Function.update s.exitValue s.currentProcess value }

theorem exiting_status_other {value : UInt32} {b : Addr} (hb : b ≠ s.currentProcess) :
    (exiting s value).status b = s.status b :=
  Function.update_of_ne hb _ _

/-- The current process is a zombie, and no loop on another queue looks at a status. -/
theorem waits_exited (h : Inv s procs queue) (hcalls : Calls s) (value : UInt32) :
    Waits (woken (exiting s value) .waitpid (queue .waitpid)) procs
      (Function.update queue .waitpid []) := by
  refine waits_woken (fun idle hidle => ?_) (fun b hb hexited => ?_) (fun q hq b hb => ?_) h.deadline
    h.wakeup
  · have hne : idle ≠ s.currentProcess := fun heq => hcalls.2 (heq ▸ hidle)
    rw [exiting_status_other hne]
    exact h.idleAlive idle hidle
  · show s.kernel b = .user
    by_cases hbc : b = s.currentProcess
    · rw [hbc]
      exact hcalls.1
    · rw [exiting_status_other hbc] at hexited
      exact h.zombie b hb hexited
  · refine (h.asleep q b hb).mono (fun pid proc hk _ => ?_) rfl rfl
    have hkq := (h.member q b hb).2
    rw [hk] at hkq
    exact absurd (Option.some.inj hkq).symm hq

theorem completes_exit (h : Inv s procs queue) (hcalls : Calls s) (value : UInt32) :
    Completes s (.exit value) procs (exit s value) := by
  have hlists : Lists (exiting s value) procs queue := { h.toLists with }
  obtain ⟨hwake, hL⟩ := hlists.wake .waitpid
  have hexit : exit s value = schedule (woken (exiting s value) .waitpid (queue .waitpid)) := by
    show (waitQueueWake (exiting s value) .waitpid).bind schedule = _
    rw [hwake]
    rfl
  have hcur : s.currentProcess ∉ queue .waitpid := h.toLists.notMem_of_user hcalls.1
  have hzombie : wokenStatus (exiting s value).status (queue .waitpid) s.currentProcess = .exited := by
    rw [wokenStatus, if_neg hcur]
    exact Function.update_self _ _ _
  have hgoes : GoesOn s (woken (exiting s value) .waitpid (queue .waitpid))
      (Stays s (.exit value) procs) := ⟨rfl, fun _ _ => ⟨rfl, rfl⟩⟩
  have hE : Effect s (.exit value) (woken (exiting s value) .waitpid (queue .waitpid)) procs procs := by
    refine ⟨fun b => ?_, rfl, fun _ _ => rfl, fun _ _ _ => rfl, fun b hb => ?_,
      (UInt32.add_zero _).symm, .inl hgoes, hzombie, hcalls.1⟩
    · constructor
      · exact fun hb => .inl ⟨hb, id⟩
      · rintro (⟨hb, _⟩ | hfork)
        · exact hb
        · cases hfork
    · show Change s _ b (wokenStatus (exiting s value).status (queue .waitpid) b)
      by_cases hbc : b = s.currentProcess
      · rw [hbc, hzombie]
        exact .exits rfl rfl
      · by_cases hbq : b ∈ queue .waitpid
        · rw [wokenStatus, if_pos hbq]
          exact .woken (h.toLists.kernel_ne_user hbq)
        · rw [wokenStatus, if_neg hbq, exiting_status_other hbc]
          exact .same
  rw [hexit]
  exact completes_schedule hL (waits_exited h hcalls value) hE hgoes ⟨h.current, id⟩
    fun b hb => by cases hb

/-! ## `waitpid` -/

/-- A process in the loop of a system call is on no other queue. -/
theorem Lists.queue_of_kernel (h : Lists s procs queue) {k : Kernel} (hk : k.queue = some q)
    (hkernel : s.kernel a = .user ∨ s.kernel a = k) : ∀ q', a ∈ queue q' → q' = q := by
  intro q' ha
  rcases hkernel with huser | hkernel
  · exact absurd huser (h.kernel_ne_user ha)
  · have hq := (h.member q' a ha).2
    rw [hkernel, hk] at hq
    exact (Option.some.inj hq).symm

/-- A process that leaves a loop is on no queue. -/
theorem Inv.notMem_of_leaves (h : Inv s procs queue) {k : Kernel} (hleaves : ¬Sleeps s k)
    (hkernel : s.kernel a = .user ∨ s.kernel a = k) : ∀ q, a ∉ queue q := by
  intro q ha
  have hsleeps := h.asleep q a ha
  rcases hkernel with huser | hkernel
  · rw [huser] at hsleeps
    exact hsleeps
  · rw [hkernel] at hsleeps
    exact hleaves hsleeps

/-- Leaving the kernel has no effect on the other processes. -/
theorem Plain.effect_user (hplain : Plain e) (hreaps : ∀ a, ¬Reaps s e a) :
    Effect s e (setKernel s s.currentProcess .user) procs procs :=
  hplain.effect hreaps rfl (fun _ _ => rfl) (fun _ _ hb => Function.update_of_ne hb _ _)
    (fun _ _ => .same) rfl ⟨rfl, fun _ _ => ⟨rfl, rfl⟩⟩

/-- Destroying `a` has no effect on the others, whose PCBs are not overwritten. -/
theorem Plain.effect_destroys (hplain : Plain e) (hgone : ∀ b, ¬Reaps s e b ↔ b ≠ a)
    (hmem : ∀ b, b ∈ procs' ↔ b ∈ procs ∧ b ≠ a)
    (hrelisted : Relisted (setKernel s s.currentProcess .user) s₁)
    (hfirst : s₁.procFirst = s.procFirst) : Effect s e (poison s₁ (some a)) procs procs' := by
  obtain ⟨_, _, _, rfl⟩ := hrelisted
  have hsame : ∀ b, Stays s e procs b → SamePcb (poisonPcb s.toPcbs a) s.toPcbs b :=
    fun b hb => samePcb_poisonPcb _ ((hgone b).mp hb.2)
  refine ⟨fun b => ?_, hfirst, fun b hb => (hsame b hb).parent,
    fun _ _ hb => Function.update_of_ne hb _ _, fun b hb => ?_, ?_,
    .inl ⟨rfl, fun b hb => ⟨(hsame b hb).totalTime, (hsame b hb).lastScheduled⟩⟩, hplain.sets⟩
  · rw [hmem, Stays, hgone b]
    constructor
    · exact .inl
    · rintro (hb | hfork)
      · exact hb
      · exact absurd hfork hplain.forks
  · show Change s e b ((poisonPcb s.toPcbs a).status b)
    rw [(hsame b hb).status]
    exact .same
  · rw [hplain.ticks, UInt32.add_zero]
    rfl

/-- The process `proc` is destroyed, if it is one, and the caller leaves the kernel. -/
theorem completes_destroy (hplain : Plain e) {proc : Option Addr}
    (hreaps : ∀ a, Reaps s e a ↔ proc = some a) (h : Inv s procs queue)
    (hidle : s.procFirst ≠ some s.currentProcess) (hexited : statusOf s proc = .exited)
    (hqueue : ∀ q, s.currentProcess ∉ queue q) :
    Completes s e procs
      ((processDestroy (setKernel s s.currentProcess .user) proc).map Prod.fst) := by
  have hinv := inv_user h hidle hqueue
  cases proc with
  | none =>
    have hnone : ∀ a, ¬Reaps s e a := fun a ha => by cases (hreaps a).mp ha
    exact ⟨poison (setKernel s s.currentProcess .user) none, procs, queue, rfl,
      inv_poison hinv fun _ _ hsome => (by cases hsome), hplain.effect hnone rfl (fun _ _ => rfl)
        (fun _ _ hb => Function.update_of_ne hb _ _) (fun _ _ => .same) rfl
        ⟨rfl, fun _ _ => ⟨rfl, rfl⟩⟩⟩
  | some a =>
    have hgone : ∀ b, ¬Reaps s e b ↔ b ≠ a := fun b => by
      rw [hreaps b, Option.some.injEq, eq_comm]
    by_cases ha : a ∈ procs
    · obtain ⟨s₁, hdestroy, hrelisted, hfirst, hinv'⟩ := inv_destroy hinv ha hexited hidle
      have hmem : ∀ b, b ∈ procs.erase a ↔ b ∈ procs ∧ b ≠ a := fun b => by
        rw [h.linked.nodup.mem_erase_iff, and_comm]
      exact ⟨_, procs.erase a, queue, by rw [hdestroy]; rfl, hinv',
        hplain.effect_destroys hgone hmem hrelisted hfirst⟩
    · -- the PCB of a process that another caller has destroyed
      have hne : ∀ b ∈ procs, b ≠ a := fun b hb heq => ha (heq ▸ hb)
      have hdestroy : processDestroy (setKernel s s.currentProcess .user) (some a) =
          some (poison (setKernel s s.currentProcess .user) (some a),
            freedBlocks (setKernel s s.currentProcess .user) (some a)) := by
        rw [processDestroy, processRemove_notMem hinv.toListed ha]
        rfl
      exact ⟨_, procs, queue, by rw [hdestroy]; rfl,
        inv_poison hinv fun b hb heq => hne b hb (Option.some.inj heq).symm,
        hplain.effect_destroys hgone (fun b => ⟨fun hb => ⟨hb, hne b hb⟩, And.left⟩)
          ⟨_, _, _, rfl⟩ rfl⟩

theorem setKernel_self {k : Kernel} (hk : s.kernel a = k) : setKernel s a k = s := by
  rw [setKernel, ← hk, Function.update_eq_self]

theorem completes_waitpidLoop (hplain : Plain e) {pid : UInt32} {proc : Option Addr}
    (hreaps : ∀ a, Reaps s e a ↔ s.status a = .exited ∧ proc = some a) (h : Inv s procs queue)
    (hidle : s.procFirst ≠ some s.currentProcess)
    (hkernel : s.kernel s.currentProcess = .user ∨
      s.kernel s.currentProcess = .waitpid pid proc) :
    Completes s e procs ((waitpidLoop s pid proc).map Prod.fst) := by
  by_cases hexited : statusOf s proc = .exited
  · have hqueue := h.notMem_of_leaves (k := .waitpid pid proc) (fun hne => hne hexited) hkernel
    have hreaps' : ∀ a, Reaps s e a ↔ proc = some a := by
      intro a
      rw [hreaps a]
      constructor
      · exact And.right
      · rintro rfl
        exact ⟨hexited, rfl⟩
    rw [waitpidLoop, if_pos hexited, Option.map_map]
    exact completes_destroy hplain hreaps' h hidle hexited hqueue
  · have hnone : ∀ a, ¬Reaps s e a := by
      intro a ha
      obtain ⟨hexited', rfl⟩ := (hreaps a).mp ha
      exact hexited hexited'
    rw [waitpidLoop, if_neg hexited, Option.map_map]
    have hwait := completes_wait (w := s.timerNextWakeup) (k := .waitpid pid proc) hplain hnone
      h.toLists h.toWaits hidle rfl (h.toLists.queue_of_kernel rfl hkernel) hexited
      fun t ht => by cases ht
    show Completes s e procs ((waitQueueAdd _ .waitpid _).map id)
    rw [Option.map_id]
    exact hwait

theorem completes_waitpidOn (hplain : Plain e) {pid options : UInt32} {proc : Option Addr}
    (hreaps : ∀ a, Reaps s e a ↔ s.status a = .exited ∧ proc = some a) (h : Inv s procs queue)
    (hcalls : Calls s) : Completes s e procs ((waitpidOn s pid options proc).map Prod.fst) := by
  by_cases hnohang : options = wNOHANG
  · rw [waitpidOn, if_pos hnohang]
    by_cases hexited : statusOf s proc = .exited
    · have hreaps' : ∀ a, Reaps s e a ↔ proc = some a := by
        intro a
        rw [hreaps a]
        constructor
        · exact And.right
        · rintro rfl
          exact ⟨hexited, rfl⟩
      have hdestroy := completes_destroy hplain hreaps' h hcalls.2 hexited
        fun q => h.toLists.notMem_of_user hcalls.1
      rw [setKernel_self hcalls.1] at hdestroy
      rw [if_pos hexited, Option.map_map]
      exact hdestroy
    · rw [if_neg hexited]
      refine hplain.completes_same h fun a ha => ?_
      obtain ⟨hexited', rfl⟩ := (hreaps a).mp ha
      exact hexited hexited'
  · rw [waitpidOn, if_neg hnohang]
    exact completes_waitpidLoop hplain hreaps h hcalls.2 (.inl hcalls.1)

theorem completes_waitpid (h : Inv s procs queue) (hcalls : Calls s) (pid options : UInt32) :
    Completes s (.waitpid pid options) procs ((waitpid s pid options).map Prod.fst) := by
  have hle := length_le_allAddrs h.linked
  have hplain : Plain (.waitpid pid options) := trivial
  by_cases hany : pid = -1
  · have hlookup : processLookupChild s s.currentProcess = some _ := lookupLoop_eq h.linked _ hle
    have hreaps : ∀ proc, processLookupChild s s.currentProcess = some proc →
        ∀ a, Reaps s (.waitpid pid options) a ↔ s.status a = .exited ∧ proc = some a := by
      intro proc hproc a
      show s.status a = .exited ∧ _ ↔ _
      rw [if_pos hany, hproc, Option.some.injEq]
    simp only [waitpid, if_pos hany, hlookup, Option.bind_eq_bind, Option.bind_some]
    cases hfind : procs.find? _ with
    | none =>
      refine hplain.completes_same h fun a ha => ?_
      rw [hfind] at hlookup
      cases ((hreaps none hlookup a).mp ha).2
    | some proc =>
      rw [hfind] at hlookup
      exact completes_waitpidOn hplain (hreaps _ hlookup) h hcalls
  · by_cases hneg : 2 ^ 31 ≤ pid.toNat
    · simp only [waitpid, if_neg hany, if_pos hneg, Option.map_some]
      refine hplain.completes_same h fun a ha => ?_
      have hlt : s.status a = .exited ∧ _ := ha
      rw [if_neg hany] at hlt
      omega
    · have hlookup : processLookup s pid = some _ := lookupLoop_eq h.linked _ hle
      simp only [waitpid, if_neg hany, if_neg hneg, hlookup, Option.bind_eq_bind, Option.bind_some]
      refine completes_waitpidOn hplain (fun a => ?_) h hcalls
      show s.status a = .exited ∧ _ ↔ _
      rw [if_neg hany, hlookup, Option.some.injEq]
      constructor
      · exact fun ha => ⟨ha.1, ha.2.2⟩
      · exact fun ha => ⟨ha.1, by omega, ha.2⟩

/-! ## `console_read` and `nanosleep` -/

/-- Taking characters out of a buffer that is not empty: no process waits for them. -/
theorem Inv.read (h : Inv s procs queue) (hfull : ¬s.input.Empty) (input : Input) :
    Inv { s with input := input } procs queue := by
  refine ⟨{ h.toLists with }, { h.toWaits with asleep := fun q b hb => ?_ }, h.running⟩
  have hsleeps := h.asleep q b hb
  show Sleeps _ (s.kernel b)
  cases hk : s.kernel b with
  | consoleRead count =>
    rw [hk] at hsleeps
    exact absurd hsleeps hfull
  | user =>
    rw [hk] at hsleeps
    exact hsleeps
  | waitpid pid proc =>
    rw [hk] at hsleeps
    cases proc <;> exact hsleeps
  | nanosleep endTime =>
    rw [hk] at hsleeps
    exact hsleeps

theorem completes_consoleRead (hplain : Plain e) (hreaps : ∀ a, ¬Reaps s e a) {count : UInt32}
    (h : Inv s procs queue) (hidle : s.procFirst ≠ some s.currentProcess)
    (hkernel : s.kernel s.currentProcess = .user ∨
      s.kernel s.currentProcess = .consoleRead count) :
    Completes s e procs ((consoleRead s count).map Prod.fst) := by
  by_cases hempty : s.input.Empty
  · rw [consoleRead, if_pos hempty, Option.map_map]
    have hwait := completes_wait (w := s.timerNextWakeup) (k := .consoleRead count) hplain hreaps
      h.toLists h.toWaits hidle rfl (h.toLists.queue_of_kernel rfl hkernel) hempty
      fun t ht => by cases ht
    show Completes s e procs ((waitQueueAdd _ .console _).map id)
    rw [Option.map_id]
    exact hwait
  · have hqueue := h.notMem_of_leaves (k := .consoleRead count) hempty hkernel
    have hinv := (inv_user h hidle hqueue).read hempty (s.input.getChars count.toNat).2
    rw [consoleRead, if_neg hempty]
    exact ⟨_, procs, queue, rfl, hinv, hplain.effect hreaps rfl (fun _ _ => rfl)
      (fun _ _ hb => Function.update_of_ne hb _ _) (fun _ _ => .same) rfl
      ⟨rfl, fun _ _ => ⟨rfl, rfl⟩⟩⟩

/-- The next wake-up after `timer_sleep_until`. -/
def wakeupBy (s : Sys) (time : UInt32) : UInt32 :=
  if s.timerNextWakeup = 0 then time
  else if time < s.timerNextWakeup then time
  else s.timerNextWakeup

/-- It is no later than the time and than the wake-up before, and not over. -/
theorem wakeupBy_spec {time : UInt32} (htime : time ≠ 0) (hnow : s.tickCounter ≤ time)
    (hwakeup : s.timerNextWakeup ≠ 0 → s.tickCounter ≤ s.timerNextWakeup) :
    wakeupBy s time ≠ 0 ∧ wakeupBy s time ≤ time ∧ s.tickCounter ≤ wakeupBy s time ∧
      (s.timerNextWakeup ≠ 0 → wakeupBy s time ≤ s.timerNextWakeup) := by
  unfold wakeupBy
  split
  · next hzero => exact ⟨htime, UInt32.le_refl _, hnow, fun hne => absurd hzero hne⟩
  · next hne =>
    split
    · next hlt => exact ⟨htime, UInt32.le_refl _, hnow, fun _ => UInt32.le_of_lt hlt⟩
    · next hge =>
      exact ⟨hne, UInt32.not_lt.mp hge, hwakeup hne, fun _ => UInt32.le_refl _⟩

theorem completes_nanosleepLoop (hplain : Plain e) (hreaps : ∀ a, ¬Reaps s e a) {endTime : UInt32}
    (h : Inv s procs queue) (hidle : s.procFirst ≠ some s.currentProcess)
    (hkernel : s.kernel s.currentProcess = .user ∨
      s.kernel s.currentProcess = .nanosleep endTime)
    (hdeadline : s.tickCounter ≤ endTime → endTime ≠ 0) :
    Completes s e procs (nanosleepLoop s endTime) := by
  by_cases hnow : s.tickCounter ≤ endTime
  · obtain ⟨hne, hle, htick, hearlier⟩ := wakeupBy_spec (hdeadline hnow) hnow h.wakeup
    have hW : Waits { s with timerNextWakeup := wakeupBy s endTime } procs queue := by
      refine { h.toWaits with asleep := fun q b hb => ?_, wakeup := fun _ => htick }
      have hsleeps := h.asleep q b hb
      show Sleeps _ (s.kernel b)
      cases hk : s.kernel b with
      | nanosleep t =>
        rw [hk] at hsleeps
        exact ⟨hne, UInt32.le_trans (hearlier hsleeps.1) hsleeps.2⟩
      | user =>
        rw [hk] at hsleeps
        exact hsleeps
      | waitpid pid proc =>
        rw [hk] at hsleeps
        cases proc <;> exact hsleeps
      | consoleRead count =>
        rw [hk] at hsleeps
        exact hsleeps
    have hwait := completes_wait (k := .nanosleep endTime) hplain hreaps h.toLists hW hidle rfl
      (h.toLists.queue_of_kernel rfl hkernel) ⟨hne, hle⟩
      fun t ht => by cases ht; exact hdeadline hnow
    rw [nanosleepLoop, if_pos hnow]
    exact hwait
  · have hleaves : ¬Sleeps s (.nanosleep endTime) := by
      rintro ⟨hne, hle⟩
      exact hnow (UInt32.le_trans (h.wakeup hne) hle)
    have hqueue := h.notMem_of_leaves hleaves hkernel
    rw [nanosleepLoop, if_neg hnow]
    exact ⟨_, procs, queue, rfl, inv_user h hidle hqueue, hplain.effect_user hreaps⟩

/-- The loop of the current process goes on. -/
theorem completes_resume (h : Inv s procs queue) (hloop : s.kernel s.currentProcess ≠ .user) :
    Completes s .resume procs (resume s) := by
  have hidle : s.procFirst ≠ some s.currentProcess := fun heq => hloop (h.idleUser _ heq)
  have hplain : Plain .resume := trivial
  cases hk : s.kernel s.currentProcess with
  | user => exact absurd hk hloop
  | waitpid pid proc =>
    rw [resume, hk]
    refine completes_waitpidLoop hplain (fun a => ?_) h hidle (.inr hk)
    show s.status a = .exited ∧ _ ↔ _
    rw [hk]
    simp
  | consoleRead count =>
    rw [resume, hk]
    refine completes_consoleRead hplain (fun a ha => ?_) h hidle (.inr hk)
    obtain ⟨pid, hpid⟩ := ha.2
    rw [hk] at hpid
    cases hpid
  | nanosleep endTime =>
    rw [resume, hk]
    refine completes_nanosleepLoop hplain (fun a ha => ?_) h hidle (.inr hk)
      fun _ => h.deadline _ _ hk
    obtain ⟨pid, hpid⟩ := ha.2
    rw [hk] at hpid
    cases hpid

/-! ## Interrupts -/

/-- What an interrupt changes before `schedule`: it wakes processes that wait in a loop. -/
def Wakes (s s' : Sys) : Prop :=
  ∃ links status first input enabled tick wakeup,
    s' = { s with
      waitQueueNext := links, status := status, waitQueue := first, input := input
      schedulingEnabled := enabled, tickCounter := tick, timerNextWakeup := wakeup } ∧
    ∀ a, status a = s.status a ∨ (status a = .ready ∧ s.kernel a ≠ .user)

theorem Wakes.trans (h : Wakes s s₁) (h' : Wakes s₁ s') : Wakes s s' := by
  obtain ⟨_, status, _, _, _, _, _, rfl, hstatus⟩ := h
  obtain ⟨_, status', _, _, _, _, _, rfl, hstatus'⟩ := h'
  refine ⟨_, status', _, _, _, _, _, rfl, fun a => ?_⟩
  rcases hstatus' a with hsame | hwoken
  · rcases hstatus a with hsame' | hwoken
    · exact .inl (hsame.trans hsame')
    · exact .inr ⟨hsame.trans hwoken.1, hwoken.2⟩
  · exact .inr hwoken

/-- A queue is woken after new input or a tick, which matters to no other queue. -/
theorem inv_wake (h : Inv s procs queue) {input : Input} {enabled : Bool} {tick wakeup : UInt32}
    (hasleep : ∀ q', q' ≠ q → ∀ a ∈ queue q', Sleeps { s with
      input := input, schedulingEnabled := enabled, tickCounter := tick
      timerNextWakeup := wakeup } (s.kernel a))
    (hwakeup : wakeup ≠ 0 → tick ≤ wakeup) :
    ∃ s', waitQueueWake { s with
        input := input, schedulingEnabled := enabled, tickCounter := tick
        timerNextWakeup := wakeup } q = some s' ∧
      Inv s' procs (Function.update queue q []) ∧ Wakes s s' ∧ s'.tickCounter = tick := by
  have hlists : Lists { s with
      input := input, schedulingEnabled := enabled, tickCounter := tick
      timerNextWakeup := wakeup } procs queue := { h.toLists with }
  obtain ⟨hwake, hL⟩ := hlists.wake q
  have hstatus : ∀ a, wokenStatus s.status (queue q) a = s.status a ∨
      (wokenStatus s.status (queue q) a = .ready ∧ s.kernel a ≠ .user) := by
    intro a
    unfold wokenStatus
    split
    · next ha => exact .inr ⟨rfl, h.toLists.kernel_ne_user ha⟩
    · exact .inl rfl
  refine ⟨_, hwake, ⟨hL, waits_woken h.idleAlive h.zombie hasleep h.deadline hwakeup, ?_⟩,
    ⟨_, _, _, _, _, _, _, rfl, hstatus⟩, rfl⟩
  rcases h.running with hidle | hready
  · exact .inl hidle
  · right
    rcases hstatus s.currentProcess with hsame | hwoken
    · exact hsame.trans hready
    · exact hwoken.1

theorem inv_consoleInsertChar (h : Inv s procs queue) (ch : UInt8) :
    ∃ s' queue', consoleInsertChar s ch = some s' ∧ Inv s' procs queue' ∧ Wakes s s' ∧
      s'.tickCounter = s.tickCounter := by
  cases hinsert : s.input.insertChar ch with
  | none =>
    rw [consoleInsertChar, hinsert]
    exact ⟨s, queue, rfl, h, ⟨_, _, _, _, _, _, _, rfl, fun _ => .inl rfl⟩, rfl⟩
  | some input =>
    rw [consoleInsertChar, hinsert]
    have hasleep : ∀ q', q' ≠ .console → ∀ a ∈ queue q', Sleeps { s with
        input := input
        schedulingEnabled := if ch = 26 then !s.schedulingEnabled else s.schedulingEnabled }
        (s.kernel a) := by
      -- only the console queue looks at the buffer
      intro q' hq a ha
      have hk := (h.member q' a ha).2
      have hsleeps := h.asleep q' a ha
      cases hkernel : s.kernel a with
      | consoleRead count =>
        rw [hkernel] at hk
        exact absurd (Option.some.inj hk).symm hq
      | user =>
        rw [hkernel] at hk
        cases hk
      | waitpid pid proc =>
        rw [hkernel] at hsleeps
        cases proc <;> exact hsleeps
      | nanosleep t =>
        rw [hkernel] at hsleeps
        exact hsleeps
    obtain ⟨s', hwake, hinv, hwakes, htick⟩ := inv_wake h hasleep h.wakeup
    exact ⟨s', _, hwake, hinv, hwakes, htick⟩

theorem inv_serialInterruptHandler (h : Inv s procs queue) (typed : List UInt8) :
    ∃ s' queue', serialInterruptHandler s typed = some s' ∧ Inv s' procs queue' ∧ Wakes s s' ∧
      s'.tickCounter = s.tickCounter := by
  induction typed generalizing s queue with
  | nil => exact ⟨s, queue, rfl, h, ⟨_, _, _, _, _, _, _, rfl, fun _ => .inl rfl⟩, rfl⟩
  | cons ch typed ih =>
    obtain ⟨s₁, queue₁, hinsert, hinv, hwakes, htick⟩ := inv_consoleInsertChar h ch
    obtain ⟨s', queue', hrest, hinv', hwakes', htick'⟩ := ih hinv
    refine ⟨s', queue', ?_, hinv', hwakes.trans hwakes', htick'.trans htick⟩
    rw [serialInterruptHandler, hinsert, Option.bind_some, hrest]

theorem inv_timerInterruptHandler (h : Inv s procs queue) :
    ∃ s' queue', timerInterruptHandler s = some s' ∧ Inv s' procs queue' ∧ Wakes s s' ∧
      s'.tickCounter = s.tickCounter + 1 := by
  by_cases hdue : s.timerNextWakeup ≠ 0 ∧ s.tickCounter + 1 > s.timerNextWakeup
  · have hasleep : ∀ q', q' ≠ .timer → ∀ a ∈ queue q', Sleeps { s with
        tickCounter := s.tickCounter + 1, timerNextWakeup := 0 } (s.kernel a) := by
      -- only the timer queue looks at the wake-up
      intro q' hq a ha
      have hk := (h.member q' a ha).2
      have hsleeps := h.asleep q' a ha
      cases hkernel : s.kernel a with
      | nanosleep t =>
        rw [hkernel] at hk
        exact absurd (Option.some.inj hk).symm hq
      | user =>
        rw [hkernel] at hk
        cases hk
      | waitpid pid proc =>
        rw [hkernel] at hsleeps
        cases proc <;> exact hsleeps
      | consoleRead count =>
        rw [hkernel] at hsleeps
        exact hsleeps
    obtain ⟨s', hwake, hinv, hwakes, htick⟩ := inv_wake h hasleep fun hne => absurd rfl hne
    refine ⟨s', _, ?_, hinv, hwakes, htick⟩
    simp only [timerInterruptHandler, if_pos hdue]
    exact hwake
  · refine ⟨{ s with tickCounter := s.tickCounter + 1 }, queue, ?_,
      ⟨{ h.toLists with }, { h.toWaits with asleep := fun q a ha => ?_, wakeup := fun hne => ?_ },
        h.running⟩, ⟨_, _, _, _, _, _, _, rfl, fun _ => .inl rfl⟩, rfl⟩
    · simp only [timerInterruptHandler, if_neg hdue]
    · refine (h.asleep q a ha).mono (fun _ proc _ halive => ?_) rfl rfl
      cases proc <;> exact halive
    · exact UInt32.not_lt.mp fun hlt => hdue ⟨hne, hlt⟩

/-- The effect of an interrupt before `schedule`. -/
theorem Wakes.effect (h : Wakes s s') {typed : List UInt8} {timer : Bool}
    (htick : s'.tickCounter = s.tickCounter + (Event.interrupt typed timer).ticks) :
    Effect s (.interrupt typed timer) s' procs procs ∧
      GoesOn s s' (Stays s (.interrupt typed timer) procs) := by
  obtain ⟨_, status, _, _, _, _, _, rfl, hstatus⟩ := h
  have hgoes : GoesOn s _ (Stays s (.interrupt typed timer) procs) :=
    ⟨rfl, fun _ _ => ⟨rfl, rfl⟩⟩
  refine ⟨⟨fun b => ?_, rfl, fun _ _ => rfl, fun _ _ _ => rfl, fun b _ => ?_, htick, .inl hgoes,
    trivial⟩, hgoes⟩
  · constructor
    · exact fun hb => .inl ⟨hb, id⟩
    · rintro (⟨hb, _⟩ | hfork)
      · exact hb
      · cases hfork
  · show Change s _ b (status b)
    rcases hstatus b with hsame | hwoken
    · rw [hsame]
      exact .same
    · rw [hwoken.1]
      exact .woken hwoken.2

theorem completes_interrupt (h : Inv s procs queue) (typed : List UInt8) (timer : Bool) :
    Completes s (.interrupt typed timer) procs (interruptHandler s typed timer) := by
  obtain ⟨s₁, queue₁, hserial, hinv₁, hwakes₁, htick₁⟩ := inv_serialInterruptHandler h typed
  obtain ⟨s₂, queue₂, htimer, hinv, hwakes, htick⟩ :
      ∃ s₂ queue₂, (if timer then timerInterruptHandler s₁ else some s₁) = some s₂ ∧
        Inv s₂ procs queue₂ ∧ Wakes s s₂ ∧
        s₂.tickCounter = s.tickCounter + (Event.interrupt typed timer).ticks := by
    cases timer with
    | false =>
      refine ⟨s₁, queue₁, rfl, hinv₁, hwakes₁, ?_⟩
      rw [htick₁]
      exact (UInt32.add_zero _).symm
    | true =>
      obtain ⟨s₂, queue₂, htimer, hinv, hwakes, htick⟩ := inv_timerInterruptHandler hinv₁
      refine ⟨s₂, queue₂, htimer, hinv, hwakes₁.trans hwakes, ?_⟩
      rw [htick, htick₁]
      rfl
  obtain ⟨heffect, hgoes⟩ : Effect s (.interrupt typed timer) s₂ procs procs ∧
      GoesOn s s₂ (Stays s (.interrupt typed timer) procs) := hwakes.effect htick
  have hhandler : interruptHandler s typed timer =
      if s₂.schedulingEnabled then schedule s₂ else some s₂ := by
    cases timer with
    | false =>
      cases htimer
      simp only [interruptHandler, hserial, Option.bind_eq_bind, Option.bind_some,
        Bool.false_eq_true, if_false]
    | true =>
      rw [if_pos rfl] at htimer
      simp only [interruptHandler, hserial, Option.bind_eq_bind, Option.bind_some, if_true, htimer]
  rw [hhandler]
  split
  · exact completes_schedule hinv.toLists hinv.toWaits heffect hgoes ⟨h.current, id⟩
      fun b hb => by cases hb
  · exact ⟨s₂, procs, queue₂, rfl, hinv, heffect⟩

/-! ## Other memory -/

/-- Memory in which no process is matters to no process. -/
theorem completes_reuse (h : Inv s procs queue) {memory : Pcbs}
    (hallowed : Allowed s (.reuse memory)) :
    Completes s (.reuse memory) procs (some { s with toPcbs := memory }) := by
  obtain ⟨hsame, hexits⟩ := hallowed
  have hprocs := h.toLists.processes_eq
  have hpcb : ∀ a ∈ procs, SamePcb memory s.toPcbs a := fun a ha => hsame a (hprocs ▸ ha)
  refine ⟨_, procs, queue, rfl, h.memory hpcb fun b hb pid a hk ha _ => ?_,
    Plain.effect trivial (fun _ => id) rfl (fun a ha => (hpcb a ha).parent) (fun _ _ _ => rfl)
      (fun a ha => ?_) rfl
      ⟨rfl, fun a ha => ⟨(hpcb a ha).totalTime, (hpcb a ha).lastScheduled⟩⟩⟩
  · exact hexits b (hprocs ▸ hb) pid a hk (hprocs ▸ ha)
  · show Change s _ a (memory.status a)
    rw [(hpcb a ha).status]
    exact .same

/-! ## All events -/

/-- Every event that can happen completes, keeps the invariant and has only the effects
above. -/
theorem step_effect (h : Inv s procs queue) (hallowed : Allowed s e) (hdeadline : HasDeadline s e) :
    Completes s e procs (step s e) := by
  have hprocs := h.toLists.processes_eq
  cases e with
  | vfork memory =>
    obtain ⟨hcalls, hnew⟩ := hallowed.1
    cases memory with
    | none => exact Plain.completes_same trivial h fun _ => id
    | some a => exact completes_vfork h hcalls (hprocs ▸ hnew a rfl)
  | execve image => exact completes_execve h image
  | exit value => exact completes_exit h hallowed.1 value
  | waitpid pid options => exact completes_waitpid h hallowed.1 pid options
  | consoleRead count =>
    have hplain : Plain (.consoleRead count) := trivial
    exact completes_consoleRead hplain (fun _ => id) h hallowed.1.2 (.inl hallowed.1.1)
  | nanosleep seconds ns =>
    have hplain : Plain (.nanosleep seconds ns) := trivial
    refine completes_nanosleepLoop hplain (fun _ => id) h hallowed.1.2 (.inl hallowed.1.1) ?_
    intro hle hzero
    rcases hdeadline with htick | hne
    · rw [hzero] at hle
      exact htick (UInt32.le_zero_iff.mp hle)
    · exact hne hzero
  | resume => exact completes_resume h hallowed.1
  | interrupt typed timer => exact completes_interrupt h typed timer
  | reuse memory => exact completes_reuse h hallowed

/-- The invariant, for some wait queues. -/
def SysInv (s : Sys) : Prop := ∃ queue, Inv s (processes s) queue

theorem Inv.sysInv (h : Inv s procs queue) : SysInv s := by
  refine ⟨queue, ?_⟩
  rw [h.toLists.processes_eq]
  exact h

theorem step_spec (h : SysInv s) (hallowed : Allowed s e) (hdeadline : HasDeadline s e) :
    ∃ s', step s e = some s' ∧ SysInv s' ∧ Effect s e s' (processes s) (processes s') := by
  obtain ⟨queue, hinv⟩ := h
  obtain ⟨s', procs', queue', hstep, hinv', heffect⟩ := step_effect hinv hallowed hdeadline
  refine ⟨s', hstep, hinv'.sysInv, ?_⟩
  rw [hinv'.toLists.processes_eq]
  exact heffect

theorem Reaps.exited (h : Reaps s e a) : s.status a = .exited := by
  cases e with
  | waitpid _ _ => exact h.1
  | resume => exact h.1
  | _ => exact h.elim

theorem SysInv.current_mem (h : SysInv s) : s.currentProcess ∈ processes s := by
  obtain ⟨queue, hinv⟩ := h
  exact hinv.current

/-- The current process is not reaped. -/
theorem SysInv.not_reaps_current (h : SysInv s) : ¬Reaps s e s.currentProcess := by
  obtain ⟨queue, hinv⟩ := h
  exact fun hreaps => hinv.alive hreaps.exited

theorem SysInv.first_mem (h : SysInv s) {first : Addr} (hfirst : s.procFirst = some first) :
    first ∈ processes s ∧ s.status first ≠ .exited := by
  obtain ⟨queue, hinv⟩ := h
  obtain ⟨first', second, rest, hprocs, hfirst'⟩ := hinv.toLists.first_cons
  cases hfirst'.symm.trans hfirst
  exact ⟨by simp [hprocs], hinv.idleAlive first hfirst⟩

/-! ## Possible events -/

/-- An event that can happen, and is no `nanosleep` at tick 0 until tick 0. -/
def Possible (s : Sys) (e : Event) : Prop := Allowed s e ∧ HasDeadline s e

instance : Decidable (Calls s) := inferInstanceAs (Decidable (_ ∧ _))

/-- A test for the allowed events that change no other memory. -/
def isAllowed (s : Sys) : Event → Bool
  | .vfork none => Calls s
  | .vfork (some a) => Calls s ∧ a ∉ processes s
  | .execve _ => Calls s
  | .exit _ => Calls s
  | .waitpid _ _ => Calls s
  | .consoleRead _ => Calls s
  | .nanosleep _ _ => Calls s
  | .resume => s.kernel s.currentProcess ≠ .user
  | .interrupt _ _ => s.kernel s.currentProcess = .user
  | .reuse _ => false

instance : ∀ e, Decidable (HasDeadline s e)
  | .nanosleep _ _ => inferInstanceAs (Decidable (_ ∨ _))
  | .vfork _ | .execve _ | .exit _ | .waitpid _ _ | .consoleRead _ | .resume | .interrupt _ _
  | .reuse _ => inferInstanceAs (Decidable True)

theorem allowed_of_isAllowed (h : isAllowed s e = true) : Allowed s e := by
  cases e with
  | vfork memory =>
    cases memory with
    | none =>
      have hcalls := of_decide_eq_true h
      exact ⟨⟨hcalls, fun a ha => by cases ha⟩, trivial⟩
    | some a =>
      obtain ⟨hcalls, hnew⟩ := of_decide_eq_true h
      refine ⟨⟨hcalls, fun b hb => ?_⟩, trivial⟩
      cases hb
      exact hnew
  | reuse _ => cases h
  | _ =>
    have hallowed := of_decide_eq_true h
    exact ⟨hallowed, trivial⟩

/-- A test for the possible events that change no other memory. -/
def isPossible (s : Sys) (e : Event) : Bool := isAllowed s e && decide (HasDeadline s e)

theorem possible_of_isPossible (h : isPossible s e = true) : Possible s e := by
  obtain ⟨hallowed, hdeadline⟩ := (Bool.and_eq_true _ _ ▸ h)
  exact ⟨allowed_of_isAllowed hallowed, of_decide_eq_true hdeadline⟩

/-! ## Boot -/

/-- The state in which the shell `init` enters user space, next to the idle task. -/
structure Booted (s : Sys) (idle init : Addr) : Prop where
  inv : Inv s [idle, init] fun _ => []
  current : s.currentProcess = init
  first : s.procFirst = some idle
  parentIdle : s.parent idle = none
  parentInit : s.parent init = some init
  tick : s.tickCounter = 0
  times : ∀ a ∈ [idle, init], s.totalTime a = 0 ∧ s.lastScheduled a = 0
  input : s.input = ⟨fun _ => 0, 0, 0⟩

/-- Both processes are alive. -/
theorem Booted.alive {idle init : Addr} (h : Booted s idle init) (ha : a ∈ processes s) :
    s.status a ≠ .exited := by
  rw [h.inv.toLists.processes_eq] at ha
  rcases List.mem_cons.mp ha with rfl | ha
  · exact h.inv.idleAlive a h.first
  · rw [List.mem_singleton.mp ha, ← h.current]
    exact h.inv.alive

theorem boot_spec (memory : Pcbs) (low : LowMemory) {idle init : Addr} (hne : idle ≠ init)
    (idleImage initImage : Image) :
    ∃ s, boot memory low idle init idleImage initImage = some s ∧ Booted s idle init := by
  have hreset : Listed (atReset memory low) [] := ⟨.nil, none, .nil⟩
  obtain ⟨_, hidle, ⟨next, prev, first, rfl⟩, hlisted, _⟩ := hreset.create List.not_mem_nil
  -- the state after `create_idle_task`
  obtain ⟨s₁, hcreate, hlisted₁, hs₁⟩ : ∃ s₁,
      createIdleTask (atReset memory low) idle idleImage = some s₁ ∧ Listed s₁ [idle] ∧
      s₁ = { setStatus { initPcb (atReset memory low) idle with
          next := next, prev := prev, procFirst := first } idle .ready with
        text := Function.update (Function.update memory.text idle none) idle (some idleImage.text)
        stack := Function.update (Function.update memory.stack idle none) idle
          (some idleImage.stack) } := by
    refine ⟨_, ?_, ?_, rfl⟩
    · rw [createIdleTask, hidle]
      rfl
    · exact ⟨hlisted.1, hlisted.2⟩
  have hinit : init ∉ [idle] := fun hmem => hne (List.mem_singleton.mp hmem).symm
  obtain ⟨_, hinit', ⟨next', prev', first', rfl⟩, hlisted', hfirst'⟩ := hlisted₁.create hinit
  have hfirst : first' = some idle := hlisted'.first_cons
  obtain ⟨s, hboot, hs⟩ : ∃ s, boot memory low idle init idleImage initImage = some s ∧
      s = setStatus (loadImage { initPcb s₁ init with
        next := next', prev := prev', procFirst := first', currentProcess := init
        parent := Function.update (Function.update s₁.parent init none) init (some init) }
        initImage) init .ready := by
    refine ⟨_, ?_, rfl⟩
    rw [boot, hcreate]
    show startUserspace s₁ init initImage = _
    rw [startUserspace, hinit']
    rfl
  subst hs₁ hs
  refine ⟨_, hboot, ⟨⟨⟨⟨hlisted'.1, hlisted'.2⟩, ?_, ?_, ?_, ?_, ?_, ?_⟩, ⟨?_, ?_, ?_, ?_, ?_⟩, ?_⟩,
    rfl, hfirst, ?_, ?_, ?_, ?_, ?_⟩⟩
  · exact Nat.le_refl 2
  · intro idle' _
    show Function.update (Function.update (fun _ => Kernel.user) idle .user) init .user idle' = .user
    simp [Function.update_apply]
  · exact List.mem_cons_of_mem _ List.mem_cons_self
  · exact fun _ => .nil
  · intro q a ha
    exact absurd ha List.not_mem_nil
  · intro a ha _
    show Function.update (Function.update memory.waitQueueNext idle none) init none a = none
    rcases List.mem_cons.mp ha with rfl | ha
    · rw [Function.update_of_ne hne, Function.update_self]
    · rw [List.mem_singleton.mp ha, Function.update_self]
  · intro idle' hidle'
    cases hfirst.symm.trans hidle'
    show Function.update (Function.update (Function.update (Function.update memory.status idle
      .sleeping) idle .ready) init .sleeping) init .ready idle ≠ .exited
    rw [Function.update_of_ne hne, Function.update_of_ne hne, Function.update_self]
    decide
  · intro a ha _
    show Function.update (Function.update (fun _ => Kernel.user) idle .user) init .user a = .user
    simp [Function.update_apply]
  · intro q a ha
    exact absurd ha List.not_mem_nil
  · intro a endTime hk
    have hk' : Function.update (Function.update (fun _ => Kernel.user) idle .user) init .user a =
      .nanosleep endTime := hk
    simp [Function.update_apply] at hk'
  · exact fun hne => absurd rfl hne
  · exact .inr (Function.update_self _ _ _)
  · show Function.update (Function.update (Function.update memory.parent idle none) init none) init
      (some init) idle = none
    rw [Function.update_of_ne hne, Function.update_of_ne hne, Function.update_self]
  · exact Function.update_self _ _ _
  · rfl
  · intro a ha
    have hzero : ∀ f : Addr → UInt32, Function.update (Function.update f idle 0) init 0 a = 0 := by
      intro f
      rcases List.mem_cons.mp ha with rfl | ha
      · rw [Function.update_of_ne hne, Function.update_self]
      · rw [List.mem_singleton.mp ha, Function.update_self]
    exact ⟨hzero _, hzero _⟩
  · rfl

theorem booted_of_boot {memory : Pcbs} {low : LowMemory} {idle init : Addr}
    {idleImage initImage : Image} {s : Sys} (hne : idle ≠ init)
    (hboot : boot memory low idle init idleImage initImage = some s) : Booted s idle init := by
  obtain ⟨s', hboot', hbooted⟩ := boot_spec memory low hne idleImage initImage
  cases hboot.symm.trans hboot'
  exact hbooted

/-- The memory of a small program. -/
def smallImage : Image := ⟨0x500000, 4096, 0x600000, 8192⟩

/-- A system whose idle task is at `0x100000` and whose shell is at `0x200000`. -/
def shellBoot : Option Sys :=
  boot clearMemory clearLow 0x100000 0x200000 smallImage smallImage

def shell : Sys := shellBoot.get (by decide +kernel)

theorem shellBoot_eq : shellBoot = some shell := (Option.some_get _).symm

end Vmwos.Processes
