import Vmwos.Roster

/-!
# Waiters that have left their queue behind

A process can wait for one that another caller has destroyed. When the memory of that one is used
again and comes to read `EXITED`, the waiter leaves its loop although no `wait_queue_wake` has taken
it off the queue. It may wait again on another queue then, so that the queues lead into each other,
or in a circle.

`LooseQueues` and `LooseWaits` say what is left of the invariant in such runs. A link to a process
comes from the `waitpid` queue or from the queue of its own loop. So waking a queue still takes all
those off it that wait there, and nobody who is linked to waits for an exited process of the list.

Result: `loose_step`. Every event that completes keeps this, when the caller of a `vfork`, whose
link the child copies, has none (`ForksUnlinked`).
-/

namespace Vmwos.Processes

open Chains
open Console (Input)

/-! ## Definitions -/

/-- The queue leads to the process. -/
def OnQueue (s : Sys) (q : Queue) (a : Addr) : Prop := Reach s.waitQueueNext (s.waitQueue q) a

/-- What the links of the processes `P` keep. -/
structure LooseQueues (s : Sys) (P : Addr → Prop) : Prop where
  closed : ∀ p, P p → ∀ a, s.waitQueueNext p = some a → P a
  heads : ∀ q a, s.waitQueue q = some a → P a
  headKernel : ∀ q a, s.waitQueue q = some a → q ≠ .waitpid → (s.kernel a).queue = some q
  behind : ∀ p, P p → ∀ a, s.waitQueueNext p = some a →
    OnQueue s .waitpid p ∨ ∃ q, (s.kernel a).queue = some q ∧ OnQueue s q p

/-- What the waiting loops of the processes `P` keep. -/
structure LooseWaits (s : Sys) (P : Addr → Prop) : Prop extends LooseQueues s P where
  waited : ∀ a, (s.waitQueue .waitpid = some a ∨ ∃ p, P p ∧ s.waitQueueNext p = some a) →
    ∀ pid c, s.kernel a = .waitpid pid (some c) → P c → s.status c ≠ .exited
  zombies : ∀ a, P a → s.status a = .exited →
    (∀ q, s.waitQueue q ≠ some a) ∧ ∀ p, P p → s.waitQueueNext p ≠ some a
  input : s.waitQueue .console ≠ none → s.input.Empty
  sleepers : ∀ a endTime, s.kernel a = .nanosleep endTime →
    (s.waitQueue .timer = some a ∨
      ∃ p, P p ∧ s.waitQueueNext p = some a ∧ ¬OnQueue s .waitpid p) →
    s.timerNextWakeup ≠ 0 ∧ s.timerNextWakeup ≤ endTime
  deadline : ∀ a endTime, s.kernel a = .nanosleep endTime → endTime ≠ 0
  wakeup : s.timerNextWakeup ≠ 0 → s.tickCounter ≤ s.timerNextWakeup

/-- A process that forks has no wait queue link that its child could copy. -/
def ForksUnlinked (s : Sys) : Event → Prop
  | .vfork (some _) => s.waitQueueNext s.currentProcess = none
  | _ => True

variable {s s' s₁ : Sys} {e : Event} {procs : List Addr} {P : Addr → Prop} {a : Addr} {q : Queue}

/-! ## The links -/

theorem OnQueue.step {b : Addr} (h : OnQueue s q a) (hab : s.waitQueueNext a = some b) :
    OnQueue s q b :=
  Reach.step h hab

theorem not_onQueue (h : s.waitQueue q = none) : ¬OnQueue s q a := by
  intro ha
  rw [OnQueue, h] at ha
  cases ha

theorem LooseQueues.mem (h : LooseQueues s P) (ha : OnQueue s q a) : P a :=
  Reach.of_closed ha (h.heads q) fun _ _ hb => h.closed _ hb _

/-- A process in no loop is linked to by the `waitpid` queue only. -/
theorem LooseQueues.behind_user (h : LooseQueues s P) (huser : s.kernel a = .user) {p : Addr}
    (hp : P p) (hlink : s.waitQueueNext p = some a) : OnQueue s .waitpid p := by
  rcases h.behind p hp a hlink with hwaitpid | ⟨q, hq, _⟩
  · exact hwaitpid
  · rw [huser] at hq
    cases hq

/-- Only the links and the loops of the processes `P` matter. -/
theorem LooseQueues.congr (h : LooseQueues s P) (hfirst : s'.waitQueue = s.waitQueue)
    (hagree : ∀ a, P a → s'.waitQueueNext a = s.waitQueueNext a ∧ s'.kernel a = s.kernel a) :
    LooseQueues s' P ∧ ∀ q a, OnQueue s' q a ↔ OnQueue s q a := by
  have hiff : ∀ q a, OnQueue s' q a ↔ OnQueue s q a := by
    intro q a
    rw [OnQueue, OnQueue, hfirst]
    constructor
    · refine fun ha => ha.congr (h.heads q) (fun b c hb hbc => ?_) fun b hb => (hagree b hb).1.symm
      rw [(hagree b hb).1] at hbc
      exact h.closed b hb c hbc
    · exact fun ha => ha.congr (h.heads q) (fun b c hb => h.closed b hb c) fun b hb =>
        (hagree b hb).1
  refine ⟨⟨fun p hp a hlink => ?_, fun q a ha => ?_, fun q a ha hq => ?_, fun p hp a hlink => ?_⟩,
    hiff⟩
  · rw [(hagree p hp).1] at hlink
    exact h.closed p hp a hlink
  · rw [hfirst] at ha
    exact h.heads q a ha
  · rw [hfirst] at ha
    rw [(hagree a (h.heads q a ha)).2]
    exact h.headKernel q a ha hq
  · rw [(hagree p hp).1] at hlink
    rw [(hagree a (h.closed p hp a hlink)).2]
    simp only [hiff]
    exact h.behind p hp a hlink

/-- A process goes into a loop or leaves it, when its links are those of the new one. -/
theorem LooseQueues.setKernel (h : LooseQueues s P) {k : Kernel}
    (hhead : ∀ q, s.waitQueue q = some a → q ≠ .waitpid → k.queue = some q)
    (hbehind : ∀ p, P p → s.waitQueueNext p = some a →
      OnQueue s .waitpid p ∨ ∃ q, k.queue = some q ∧ OnQueue s q p) :
    LooseQueues (setKernel s a k) P := by
  refine ⟨h.closed, h.heads, fun q b hb hq => ?_, fun p hp b hlink => ?_⟩
  · show (Function.update s.kernel a k b).queue = some q
    by_cases hba : b = a
    · subst hba
      rw [Function.update_self]
      exact hhead q hb hq
    · rw [Function.update_of_ne hba]
      exact h.headKernel q b hb hq
  · show _ ∨ ∃ q, (Function.update s.kernel a k b).queue = some q ∧ _
    by_cases hba : b = a
    · subst hba
      rw [Function.update_self]
      exact hbehind p hp hlink
    · rw [Function.update_of_ne hba]
      exact h.behind p hp b hlink

/-- It goes into a loop from outside, or stays in it. -/
theorem LooseQueues.enter (h : LooseQueues s P) {k : Kernel}
    (hkernel : s.kernel a = k ∨ s.kernel a = .user) : LooseQueues (Processes.setKernel s a k) P := by
  rcases hkernel with hsame | huser
  · refine h.setKernel (fun q hq hne => ?_) fun p hp hlink => ?_
    · rw [← hsame]
      exact h.headKernel q a hq hne
    · rw [← hsame]
      exact h.behind p hp a hlink
  · refine h.setKernel (fun q hq hne => ?_) fun p hp hlink => .inl (h.behind_user huser hp hlink)
    have hqueue := h.headKernel q a hq hne
    rw [huser] at hqueue
    cases hqueue

/-- The links and the first processes after a process has been put on a queue: the old ones, and
possibly one more that leads from the queue to it. -/
structure Added (s s₁ : Sys) (q : Queue) (a : Addr) : Prop where
  relinked : Relinked s s₁
  links : ∀ p b, s₁.waitQueueNext p = some b → s.waitQueueNext p = some b ∨ OnQueue s q p ∧ b = a
  heads : ∀ q' b, s₁.waitQueue q' = some b → s.waitQueue q' = some b ∨ q' = q ∧ b = a
  onQueue : ∀ q' b, OnQueue s q' b → OnQueue s₁ q' b

/-- The first process on an empty queue. -/
theorem added_first (hfirst : s.waitQueue q = none) :
    Added s { s with waitQueue := Function.update s.waitQueue q (some a) } q a where
  relinked := ⟨_, _, rfl⟩
  links _ _ := .inl
  heads q' b hb := by
    rcases of_update_eq hb with ⟨rfl, hab⟩ | ⟨_, hold⟩
    · exact .inr ⟨rfl, (Option.some.inj hab).symm⟩
    · exact .inl hold
  onQueue q' b hb := by
    have hne : q' ≠ q := fun heq => not_onQueue hfirst (heq ▸ hb)
    show Reach s.waitQueueNext (Function.update s.waitQueue q (some a) q') b
    rw [Function.update_of_ne hne]
    exact hb

/-- A process behind the null link of `z`, to which the queue leads. -/
theorem added_behind {z : Addr} (hz : OnQueue s q z) (hnull : s.waitQueueNext z = none) :
    Added s { s with waitQueueNext := Function.update s.waitQueueNext z (some a) } q a where
  relinked := ⟨_, _, rfl⟩
  links p b hb := by
    rcases of_update_eq hb with ⟨rfl, hab⟩ | ⟨_, hold⟩
    · exact .inr ⟨hz, (Option.some.inj hab).symm⟩
    · exact .inl hold
  heads _ _ := .inl
  onQueue q' b hb := by
    refine Reach.mono hb fun c d hcd => ?_
    have hne : c ≠ z := fun heq => by
      rw [heq, hnull] at hcd
      cases hcd
    exact (Function.update_of_ne hne _ _).trans hcd

theorem added_of_enqueue (h : enqueue s q a = some s₁) : Added s s₁ q a := by
  rw [enqueue] at h
  cases hfirst : s.waitQueue q with
  | none =>
    rw [hfirst] at h
    cases h
    exact added_first hfirst
  | some first =>
    rw [hfirst] at h
    obtain ⟨links, hadd, rfl⟩ := Option.map_eq_some_iff.mp h
    rcases addLoop_cases hadd with rfl | ⟨z, hz, hnull, rfl⟩
    · exact ⟨⟨_, _, rfl⟩, fun _ _ => .inl, fun _ _ => .inl, fun _ _ => id⟩
    · refine added_behind ?_ hnull
      rw [OnQueue, hfirst]
      exact hz

theorem LooseQueues.added (h : LooseQueues s P) (ha : P a) (hq : (s.kernel a).queue = some q)
    (hadded : Added s s₁ q a) : LooseQueues s₁ P := by
  obtain ⟨⟨_, _, rfl⟩, hlinks, hheads, honQueue⟩ := hadded
  refine ⟨fun p hp b hlink => ?_, fun q' b hb => ?_, fun q' b hb hne => ?_, fun p hp b hlink => ?_⟩
  · rcases hlinks p b hlink with hold | ⟨_, rfl⟩
    · exact h.closed p hp b hold
    · exact ha
  · rcases hheads q' b hb with hold | ⟨_, rfl⟩
    · exact h.heads q' b hold
    · exact ha
  · rcases hheads q' b hb with hold | ⟨rfl, rfl⟩
    · exact h.headKernel q' b hold hne
    · exact hq
  · rcases hlinks p b hlink with hold | ⟨hon, rfl⟩
    · rcases h.behind p hp b hold with hwaitpid | ⟨q', hq', hp'⟩
      · exact .inl (honQueue _ _ hwaitpid)
      · exact .inr ⟨q', hq', honQueue _ _ hp'⟩
    · exact .inr ⟨q, hq, honQueue _ _ hon⟩

/-- The state after waking a queue: the links of the processes that it led to are gone. -/
structure Cut (s s₁ : Sys) (q : Queue) : Prop where
  first : s₁.waitQueue = Function.update s.waitQueue q none
  links : ∀ p b, s₁.waitQueueNext p = some b → s.waitQueueNext p = some b ∧ ¬OnQueue s q p
  onQueue : ∀ q' p, q' ≠ q → ¬OnQueue s q p → OnQueue s q' p → OnQueue s₁ q' p
  status : ∀ b, s₁.status b = .exited → s.status b = .exited

theorem cut_of_wake (h : waitQueueWake s q = some s₁) : Cut s s₁ q := by
  obtain ⟨links, status, rfl, hwoken⟩ := waitQueueWake_cases h
  refine ⟨rfl, fun p b hlink => ?_, fun q' p hne hnot hp => ?_, fun b => exited_of_woken (hwoken b)⟩
  · by_cases hp : OnQueue s q p
    · cases ((hwoken p).1 hp).1.symm.trans hlink
    · exact ⟨((hwoken p).2 hp).1.symm.trans hlink, hp⟩
  · have hq' : Function.update s.waitQueue q none q' = s.waitQueue q' := Function.update_of_ne hne _ _
    show Reach links (Function.update s.waitQueue q none q') p
    rw [hq']
    exact Reach.avoid hp (fun b c hb hbc => OnQueue.step hb hbc) (fun b hb => ((hwoken b).2 hb).1) hnot

theorem Cut.heads (h : Cut s s₁ q) {q' : Queue} (ha : s₁.waitQueue q' = some a) :
    q' ≠ q ∧ s.waitQueue q' = some a := by
  rw [h.first] at ha
  exact (of_update_eq ha).resolve_left fun h => (by cases h.2)

theorem Cut.not_onQueue (h : Cut s s₁ q) : ¬OnQueue s₁ q a :=
  Processes.not_onQueue (by rw [h.first, Function.update_self])

/-- What is left of the `waitpid` queue. -/
theorem Cut.waitpid (h : Cut s s₁ q) {p b : Addr} (hlink : s₁.waitQueueNext p = some b)
    (hp : OnQueue s .waitpid p) : OnQueue s₁ .waitpid p := by
  obtain ⟨_, hnot⟩ := h.links p b hlink
  exact h.onQueue .waitpid p (fun heq => hnot (heq ▸ hp)) hnot hp

theorem LooseQueues.cut (h : LooseQueues s P) (hcut : Cut s s₁ q) (hkernel : s₁.kernel = s.kernel) :
    LooseQueues s₁ P := by
  refine ⟨fun p hp b hlink => h.closed p hp b (hcut.links p b hlink).1,
    fun q' b hb => h.heads q' b (hcut.heads hb).2, fun q' b hb hne => ?_, fun p hp b hlink => ?_⟩
  · rw [hkernel]
    exact h.headKernel q' b (hcut.heads hb).2 hne
  · obtain ⟨hold, hnot⟩ := hcut.links p b hlink
    rw [hkernel]
    rcases h.behind p hp b hold with hwaitpid | ⟨q', hq', hp'⟩
    · exact .inl (hcut.waitpid hlink hwaitpid)
    · have hne : q' ≠ q := fun heq => hnot (heq ▸ hp')
      exact .inr ⟨q', hq', hcut.onQueue q' p hne hnot hp'⟩

/-- Nobody who is still linked to waits on the queue that was woken, except behind `waitpid`. -/
theorem LooseQueues.woken (h : LooseQueues s₁ P) (hcut : Cut s s₁ q) {p : Addr} (hp : P p)
    (hlink : s₁.waitQueueNext p = some a) (hq : (s₁.kernel a).queue = some q) :
    OnQueue s₁ .waitpid p := by
  rcases h.behind p hp a hlink with hwaitpid | ⟨q', hq', hp'⟩
  · exact hwaitpid
  · cases hq.symm.trans hq'
    exact absurd hp' hcut.not_onQueue

/-! ## The waiting loops -/

theorem LooseWaits.congr_pred {P' : Addr → Prop} (h : LooseWaits s P) (hiff : ∀ a, P a ↔ P' a) :
    LooseWaits s P' := by
  have heq : P = P' := funext fun a => propext (hiff a)
  rwa [← heq]

/-- Memory in which none of the processes is may change, and of the statuses those that do not
become `EXITED`. -/
theorem LooseWaits.memory (h : LooseWaits s P) {memory : Pcbs}
    (hlinks : ∀ a, P a → memory.waitQueueNext a = s.waitQueueNext a)
    (hstatus : ∀ a, P a → memory.status a = .exited → s.status a = .exited) :
    LooseWaits { s with toPcbs := memory } P := by
  obtain ⟨hqueues, hiff⟩ : LooseQueues { s with toPcbs := memory } P ∧
      ∀ q a, OnQueue { s with toPcbs := memory } q a ↔ OnQueue s q a :=
    h.toLooseQueues.congr rfl fun a ha => ⟨hlinks a ha, rfl⟩
  have hold : ∀ p a, P p → memory.waitQueueNext p = some a → s.waitQueueNext p = some a :=
    fun p a hp hlink => (hlinks p hp).symm.trans hlink
  refine ⟨hqueues, fun a ha pid c hk hc hexited => ?_, fun a ha hexited => ?_, h.input,
    fun a t hk ha => ?_, h.deadline, h.wakeup⟩
  · refine h.waited a ?_ pid c hk hc (hstatus c hc hexited)
    rcases ha with hhead | ⟨p, hp, hlink⟩
    · exact .inl hhead
    · exact .inr ⟨p, hp, hold p a hp hlink⟩
  · obtain ⟨hhead, hlink⟩ := h.zombies a ha (hstatus a ha hexited)
    exact ⟨hhead, fun p hp heq => hlink p hp (hold p a hp heq)⟩
  · refine h.sleepers a t hk ?_
    rcases ha with hhead | ⟨p, hp, hlink, hnot⟩
    · exact .inl hhead
    · exact .inr ⟨p, hp, hold p a hp hlink, fun hon => hnot ((hiff _ _).mpr hon)⟩

/-- A process that has exited is taken out of the list. -/
theorem LooseWaits.erase (h : LooseWaits s P) (ha : P a) (hexited : s.status a = .exited) :
    LooseWaits s fun b => P b ∧ b ≠ a := by
  obtain ⟨hhead, hlink⟩ := h.zombies a ha hexited
  have hpast : ∀ b, (∃ p, (P p ∧ p ≠ a) ∧ s.waitQueueNext p = some b) →
      ∃ p, P p ∧ s.waitQueueNext p = some b := fun b ⟨p, hp, hb⟩ => ⟨p, hp.1, hb⟩
  refine ⟨⟨fun p hp b hb => ⟨h.closed p hp.1 b hb, fun heq => hlink p hp.1 (heq ▸ hb)⟩,
    fun q b hb => ⟨h.heads q b hb, fun heq => hhead q (heq ▸ hb)⟩, h.headKernel,
    fun p hp => h.behind p hp.1⟩, fun b hb pid c hk hc => ?_, fun b hb hexited => ?_, h.input,
    fun b t hk hb => ?_, h.deadline, h.wakeup⟩
  · exact h.waited b (hb.imp id (hpast b)) pid c hk hc.1
  · obtain ⟨hhead', hlink'⟩ := h.zombies b hb.1 hexited
    exact ⟨hhead', fun p hp => hlink' p hp.1⟩
  · refine h.sleepers b t hk ?_
    rcases hb with hb | ⟨p, hp, hb⟩
    · exact .inl hb
    · exact .inr ⟨p, hp.1, hb⟩

/-- A process leaves its loop, when only the `waitpid` queue may still lead to it. -/
theorem LooseWaits.leave (h : LooseWaits s P) (hhead : ∀ q, q ≠ .waitpid → s.waitQueue q ≠ some a)
    (hbehind : ∀ p, P p → s.waitQueueNext p = some a → OnQueue s .waitpid p) :
    LooseWaits (setKernel s a .user) P := by
  have hold : ∀ {b : Addr} {k : Kernel}, Function.update s.kernel a .user b = k → k ≠ .user →
      s.kernel b = k := fun hk hne =>
    ((of_update_eq hk).resolve_left fun h => hne h.2.symm).2
  refine ⟨h.toLooseQueues.setKernel (fun q hq hne => absurd hq (hhead q hne)) fun p hp hlink =>
      .inl (hbehind p hp hlink),
    fun b hb pid c hk => h.waited b hb pid c (hold hk (by simp)), h.zombies, h.input,
    fun b t hk => h.sleepers b t (hold hk (by simp)), fun b t hk => h.deadline b t (hold hk (by simp)),
    h.wakeup⟩

/-- A wake-up keeps what it does not end. -/
theorem LooseWaits.sleepers_cut (h : LooseWaits s P) (hcut : Cut s s₁ q) (endTime : UInt32)
    (hkernel : s.kernel a = .nanosleep endTime)
    (ha : s₁.waitQueue .timer = some a ∨
      ∃ p, P p ∧ s₁.waitQueueNext p = some a ∧ ¬OnQueue s₁ .waitpid p) :
    s.timerNextWakeup ≠ 0 ∧ s.timerNextWakeup ≤ endTime := by
  refine h.sleepers a endTime hkernel ?_
  rcases ha with hhead | ⟨p, hp, hlink, hnot⟩
  · exact .inl (hcut.heads hhead).2
  · exact .inr ⟨p, hp, (hcut.links p a hlink).1, fun hon => hnot (hcut.waitpid hlink hon)⟩

/-- A queue other than `waitpid` is woken. -/
theorem LooseWaits.wake (h : LooseWaits s P) (hcut : Cut s s₁ q) (hkernel : s₁.kernel = s.kernel)
    (hinput : s₁.waitQueue .console ≠ none → s₁.input.Empty)
    (hsleepers : ∀ a endTime, s₁.kernel a = .nanosleep endTime →
      (s₁.waitQueue .timer = some a ∨
        ∃ p, P p ∧ s₁.waitQueueNext p = some a ∧ ¬OnQueue s₁ .waitpid p) →
      s₁.timerNextWakeup ≠ 0 ∧ s₁.timerNextWakeup ≤ endTime)
    (hwakeup : s₁.timerNextWakeup ≠ 0 → s₁.tickCounter ≤ s₁.timerNextWakeup) :
    LooseWaits s₁ P := by
  refine ⟨h.toLooseQueues.cut hcut hkernel, fun a ha pid c hk hc hexited => ?_,
    fun a ha hexited => ?_, hinput, hsleepers, ?_, hwakeup⟩
  · rw [hkernel] at hk
    refine h.waited a ?_ pid c hk hc (hcut.status c hexited)
    rcases ha with hhead | ⟨p, hp, hlink⟩
    · exact .inl (hcut.heads hhead).2
    · exact .inr ⟨p, hp, (hcut.links p a hlink).1⟩
  · obtain ⟨hhead, hlink⟩ := h.zombies a ha (hcut.status a hexited)
    exact ⟨fun q' hq => hhead q' (hcut.heads hq).2, fun p hp heq => hlink p hp (hcut.links p a heq).1⟩
  · rw [hkernel]
    exact h.deadline

/-- `schedule` changes nothing of it. -/
theorem LooseWaits.schedule (h : LooseWaits s P) (hsched : Processes.schedule s = some s') :
    LooseWaits s' P := by
  rcases schedule_switches hsched with rfl | ⟨proc, rfl⟩
  · exact h
  · exact { h with }

/-! ## Events -/

/-- No deadline of a sleeper is the 0 that stands for no wake-up. -/
theorem LooseWaits.deadline_ne (h : LooseWaits s P) {k : Kernel} {wakeup : UInt32}
    (hdeadline : HasDeadline s e) (hloop : InLoop s e k) (hfalls : FallsAsleep s wakeup k)
    (endTime : UInt32) (hk : k = .nanosleep endTime) : endTime ≠ 0 := by
  subst hk
  rcases hloop with hkernel | ⟨_, hcall⟩
  · exact h.deadline _ endTime hkernel
  · obtain ⟨seconds, ns, rfl, rfl⟩ := hcall endTime rfl
    intro hzero
    rcases hdeadline with htick | hne
    · have hle := hfalls.1
      rw [hzero] at hle
      exact htick (UInt32.le_zero_iff.mp hle)
    · exact hne hzero

/-- The next wake-up that a sleeper sets is not over, and not later than any before. -/
theorem LooseWaits.wakeup_spec (h : LooseWaits s P) {k : Kernel} {wakeup : UInt32}
    (hdeadline : HasDeadline s e) (hloop : InLoop s e k) (hfalls : FallsAsleep s wakeup k) :
    (∀ endTime, k = .nanosleep endTime → wakeup ≠ 0 ∧ wakeup ≤ endTime) ∧
      (wakeup ≠ 0 → s.tickCounter ≤ wakeup) ∧
      (s.timerNextWakeup ≠ 0 → wakeup ≠ 0 ∧ wakeup ≤ s.timerNextWakeup) := by
  have hdeadlines := h.deadline_ne hdeadline hloop hfalls
  cases k with
  | user => exact hfalls.elim
  | waitpid pid proc =>
    obtain ⟨_, rfl⟩ := hfalls
    exact ⟨fun t ht => (by cases ht), h.wakeup, fun hne => ⟨hne, UInt32.le_refl _⟩⟩
  | consoleRead count =>
    obtain ⟨_, rfl⟩ := hfalls
    exact ⟨fun t ht => (by cases ht), h.wakeup, fun hne => ⟨hne, UInt32.le_refl _⟩⟩
  | nanosleep endTime =>
    obtain ⟨hnow, rfl⟩ := hfalls
    obtain ⟨hne, hle, htick, hearlier⟩ := wakeupBy_spec (hdeadlines endTime rfl) hnow h.wakeup
    refine ⟨fun t ht => ?_, fun _ => htick, fun hold => ⟨hne, hearlier hold⟩⟩
    cases ht
    exact ⟨hne, hle⟩

/-- The current process goes to sleep on a queue. -/
theorem LooseWaits.sleep (h : LooseWaits s P) {k : Kernel} {wakeup : UInt32}
    (hcurrent : P s.currentProcess) (hdeadline : HasDeadline s e) (hloop : InLoop s e k)
    (hq : k.queue = some q) (hfalls : FallsAsleep s wakeup k)
    (henq : enqueue (setKernel { s with timerNextWakeup := wakeup } s.currentProcess k) q
      s.currentProcess = some s₁) :
    LooseWaits (setStatus s₁ s.currentProcess .sleeping) P := by
  obtain ⟨hown, htick, hsooner⟩ := h.wakeup_spec hdeadline hloop hfalls
  have hdeadlines := h.deadline_ne hdeadline hloop hfalls
  -- the queues, in the state before and after `wait_queue_add`
  have hqueues : LooseQueues { s with timerNextWakeup := wakeup } P :=
    ⟨h.closed, h.heads, h.headKernel, h.behind⟩
  have hset : LooseQueues (setKernel { s with timerNextWakeup := wakeup } s.currentProcess k) P :=
    hqueues.enter (hloop.imp id And.left)
  have hkernel : ((setKernel { s with timerNextWakeup := wakeup } s.currentProcess k).kernel
      s.currentProcess).queue = some q := by
    simp [setKernel, hq]
  have hadd := added_of_enqueue henq
  have hadded := hset.added hcurrent hkernel hadd
  obtain ⟨⟨links, first, rfl⟩, hlinks, hheads, honQueue⟩ := hadd
  have halive : ∀ b, Function.update s.status s.currentProcess .sleeping b = .exited →
      b ≠ s.currentProcess ∧ s.status b = .exited := fun b hb =>
    (of_update_eq hb).resolve_left fun h => (by cases h.2)
  refine ⟨⟨hadded.closed, hadded.heads, hadded.headKernel, hadded.behind⟩,
    fun b hb pid c hk hc hexited => ?_, fun b hb hexited => ?_, fun hne => ?_, fun b t hk hb => ?_,
    fun b t hk => ?_, htick⟩
  · obtain ⟨_, hexited'⟩ := halive c hexited
    rcases of_update_eq hk with ⟨_, rfl⟩ | ⟨hbc, hk'⟩
    · -- the loop was entered because the process has not exited
      exact hfalls.1 hexited'
    · refine h.waited b ?_ pid c hk' hc hexited'
      rcases hb with hhead | ⟨p, hp, hlink⟩
      · exact .inl ((hheads _ _ hhead).resolve_right fun heq => hbc heq.2)
      · exact .inr ⟨p, hp, (hlinks p b hlink).resolve_right fun heq => hbc heq.2⟩
  · obtain ⟨hne, hexited'⟩ := halive b hexited
    obtain ⟨hhead, hlink⟩ := h.zombies b hb hexited'
    refine ⟨fun q' hq' => ?_, fun p hp heq => ?_⟩
    · exact hhead q' ((hheads q' b hq').resolve_right fun heq => hne heq.2)
    · exact hlink p hp ((hlinks p b heq).resolve_right fun heq => hne heq.2)
  · show s.input.Empty
    obtain ⟨b, hb⟩ := Option.ne_none_iff_exists'.mp hne
    rcases hheads .console b hb with hold | ⟨rfl, _⟩
    · exact h.input fun hnone => by cases hold.symm.trans hnone
    · cases k with
      | consoleRead count => exact hfalls.1
      | _ => cases hq
  · rcases of_update_eq hk with ⟨_, hk'⟩ | ⟨hbc, hk'⟩
    · exact hown t hk'
    · obtain ⟨hne, hle⟩ := h.sleepers b t hk' (by
        rcases hb with hhead | ⟨p, hp, hlink, hnot⟩
        · exact .inl ((hheads _ _ hhead).resolve_right fun heq => hbc heq.2)
        · exact .inr ⟨p, hp, (hlinks p b hlink).resolve_right fun heq => hbc heq.2,
            fun hon => hnot (honQueue .waitpid p hon)⟩)
      exact ⟨(hsooner hne).1, UInt32.le_trans (hsooner hne).2 hle⟩
  · rcases of_update_eq hk with ⟨_, hk'⟩ | ⟨_, hk'⟩
    · exact hdeadlines t hk'
    · exact h.deadline b t hk'

/-- A process leaves its loop, when the queue of this does not lead to it, or is `waitpid`. -/
theorem LooseWaits.leaves (h : LooseWaits s P) {k : Kernel}
    (hkernel : s.kernel a = k ∨ s.kernel a = .user)
    (hfree : s.kernel a = k → ∀ q, k.queue = some q → q ≠ .waitpid → s.waitQueue q ≠ some a ∧
      ∀ p, P p → s.waitQueueNext p = some a → OnQueue s .waitpid p) :
    LooseWaits (setKernel s a .user) P := by
  refine h.leave (fun q hne hhead => ?_) fun p hp hlink => ?_
  · have hqueue := h.headKernel q a hhead hne
    rcases hkernel with hsame | huser
    · exact (hfree hsame q (hsame ▸ hqueue) hne).1 hhead
    · rw [huser] at hqueue
      cases hqueue
  · rcases hkernel with hsame | huser
    · rcases h.behind p hp a hlink with hwaitpid | ⟨q, hq, hon⟩
      · exact hwaitpid
      · by_cases hne : q = .waitpid
        · exact hne ▸ hon
        · exact (hfree hsame q (hsame ▸ hq) hne).2 p hp hlink
    · exact h.behind_user huser hp hlink

/-- The current process returns from `console_read` or `nanosleep`. -/
theorem LooseWaits.returns (h : LooseWaits s P) {k : Kernel} {input : Input}
    (hloop : InLoop s e k) (hreturns : Returns s input k) :
    LooseWaits { setKernel s s.currentProcess .user with input := input } P := by
  have hkernel := hloop.imp id And.left
  cases k with
  | consoleRead count =>
    have hempty : s.waitQueue .console = none := by
      by_contra hne
      exact hreturns (h.input hne)
    have hleft : LooseWaits (setKernel s s.currentProcess .user) P := by
      refine h.leaves hkernel fun hk q hq _ => ?_
      cases hq
      refine ⟨fun hhead => (by cases hempty.symm.trans hhead), fun p hp hlink => ?_⟩
      rcases h.behind p hp _ hlink with hwaitpid | ⟨q, hq, hon⟩
      · exact hwaitpid
      · rw [hk] at hq
        cases hq
        exact absurd hon (not_onQueue hempty)
    exact ⟨⟨hleft.closed, hleft.heads, hleft.headKernel, hleft.behind⟩, hleft.waited, hleft.zombies,
      fun hne => absurd hempty hne, hleft.sleepers, hleft.deadline, hleft.wakeup⟩
  | nanosleep endTime =>
    obtain ⟨hlate, rfl⟩ := hreturns
    refine h.leaves hkernel fun hk q hq _ => ?_
    cases hq
    -- a sleeper that the timer still has to wake is not late
    have hwoken : ¬(s.waitQueue .timer = some s.currentProcess ∨
        ∃ p, P p ∧ s.waitQueueNext p = some s.currentProcess ∧ ¬OnQueue s .waitpid p) := by
      intro ha
      obtain ⟨hne, hle⟩ := h.sleepers _ endTime hk ha
      exact hlate (UInt32.le_trans (h.wakeup hne) hle)
    refine ⟨fun hhead => hwoken (.inl hhead), fun p hp hlink => ?_⟩
    by_contra hnot
    exact hwoken (.inr ⟨p, hp, hlink, hnot⟩)
  | user => exact hreturns.elim
  | waitpid pid proc => exact hreturns.elim

/-- The current process returns from `waitpid`, which destroys a process. -/
theorem LooseWaits.destroys (h : LooseWaits s P) (hlisted : Listed s procs)
    (hP : ∀ a, P a ↔ a ∈ procs) {pid : UInt32} {proc : Option Addr}
    (hloop : InLoop s e (.waitpid pid proc)) (hexited : statusOf s proc = .exited)
    (hdestroy : (processDestroy (setKernel s s.currentProcess .user) proc).map Prod.fst = some s') :
    LooseWaits s' fun a => P a ∧ proc ≠ some a := by
  have hleft : LooseWaits (setKernel s s.currentProcess .user) P :=
    h.leaves (hloop.imp id And.left) fun _ q hq hne => absurd (Option.some.inj hq).symm hne
  have hlisted' : Listed (setKernel s s.currentProcess .user) procs :=
    hlisted.congr rfl fun _ _ => ⟨rfl, rfl⟩
  cases proc with
  | none =>
    cases hdestroy
    refine LooseWaits.congr_pred ?_ (fun a => (and_iff_left (by simp)).symm)
    exact { hleft with }
  | some a =>
    have hpoison : ∀ {s₁ : Sys} {P₁ : Addr → Prop}, LooseWaits s₁ P₁ → (∀ b, P₁ b → b ≠ a) →
        LooseWaits (poison s₁ (some a)) P₁ := by
      intro s₁ P₁ h₁ hne
      refine h₁.memory (fun b hb => ?_) fun b hb hexited => ?_
      · exact (samePcb_poisonPcb s₁.toPcbs (hne b hb)).waitQueueNext
      · exact (samePcb_poisonPcb s₁.toPcbs (hne b hb)).status.symm.trans hexited
    by_cases ha : a ∈ procs
    · obtain ⟨s₁, hremove, ⟨_, _, _, rfl⟩, _⟩ := hlisted'.remove ha
      rw [processDestroy, hremove] at hdestroy
      cases hdestroy
      have herase := hleft.erase ((hP a).mpr ha) hexited
      refine LooseWaits.congr_pred (hpoison { herase with } fun b hb => hb.2) fun b => ?_
      rw [ne_eq, ne_eq, Option.some.injEq, eq_comm]
    · rw [processDestroy, processRemove_notMem hlisted' ha] at hdestroy
      cases hdestroy
      have hne : ∀ b, P b → b ≠ a := fun b hb heq => ha ((hP a).mp (heq ▸ hb))
      refine LooseWaits.congr_pred (hpoison hleft hne) fun b => ?_
      rw [iff_self_and]
      exact fun hb heq => hne b hb (Option.some.inj heq).symm

/-- A system call that may wait, or its loop. -/
theorem LooseWaits.callEnd (h : LooseWaits s (· ∈ procs)) (hroster : LiveRoster s procs)
    (hdeadline : HasDeadline s e) (hend : CallEnd s e s') :
    LooseWaits s' fun a => Stays s e procs a := by
  have hstay : (∀ a, ¬Reaps s e a) → ∀ a, a ∈ procs ↔ Stays s e procs a := fun hreaps a =>
    (and_iff_left (hreaps a)).symm
  cases hend with
  | unchanged hreaps hs' =>
    subst hs'
    exact h.congr_pred (hstay hreaps)
  | sleeps hreaps hloop hq hfalls henq hsched =>
    exact ((h.sleep hroster.current hdeadline hloop hq hfalls henq).schedule hsched).congr_pred
      (hstay hreaps)
  | returns hreaps hloop hreturns hs' =>
    subst hs'
    exact (h.returns hloop hreturns).congr_pred (hstay hreaps)
  | destroys hreaps hloop hexited hdestroy =>
    refine (h.destroys hroster.toListed (fun _ => Iff.rfl) hloop hexited hdestroy).congr_pred
      fun a => ?_
    rw [Stays, hreaps a]

/-- The current process exits, and the `waitpid` queue is woken. -/
theorem LooseWaits.exit (h : LooseWaits s P) (huser : s.kernel s.currentProcess = .user)
    {value : UInt32} (hexit : Processes.exit s value = some s') : LooseWaits s' P := by
  obtain ⟨s₁, hwake, hsched⟩ := exit_cases hexit
  have hcut := cut_of_wake hwake
  obtain ⟨links, status, rfl, _⟩ := waitQueueWake_cases hwake
  have hqueues : LooseQueues (exiting s value) P := ⟨h.closed, h.heads, h.headKernel, h.behind⟩
  have hafter := hqueues.cut hcut rfl
  refine LooseWaits.schedule ⟨hafter, fun b hb pid c hk _ _ => ?_, fun b hb hexited => ?_,
    fun hne => ?_, fun b t hk hb => ?_, h.deadline, h.wakeup⟩ hsched
  · -- nobody who is linked to waits for a process any more
    have hqueue : (s.kernel b).queue = some .waitpid := by
      have hk' : s.kernel b = .waitpid pid (some c) := hk
      rw [hk']
      rfl
    rcases hb with hhead | ⟨p, hp, hlink⟩
    · exact absurd rfl (hcut.heads hhead).1
    · exact absurd (hafter.woken hcut hp hlink hqueue) hcut.not_onQueue
  · by_cases hbc : b = s.currentProcess
    · subst hbc
      refine ⟨fun q hq => ?_, fun p hp hlink => ?_⟩
      · obtain ⟨hne, hold⟩ := hcut.heads hq
        have hqueue := h.headKernel q _ hold hne
        rw [huser] at hqueue
        cases hqueue
      · exact absurd (hafter.behind_user huser hp hlink) hcut.not_onQueue
    · have hold := hcut.status b hexited
      rw [exiting_status_other hbc] at hold
      obtain ⟨hhead, hlink⟩ := h.zombies b hb hold
      exact ⟨fun q hq => hhead q (hcut.heads hq).2, fun p hp heq => hlink p hp (hcut.links p b heq).1⟩
  · obtain ⟨b, hb⟩ := Option.ne_none_iff_exists'.mp hne
    obtain ⟨_, hold⟩ := hcut.heads hb
    exact h.input fun hnone => by cases Eq.trans (Eq.symm hold) hnone
  · refine h.sleepers b t hk ?_
    rcases hb with hhead | ⟨p, hp, hlink, hnot⟩
    · exact .inl (hcut.heads hhead).2
    · exact .inr ⟨p, hp, (hcut.links p b hlink).1, fun hon => hnot (hcut.waitpid hlink hon)⟩

/-- A character arrives, and the console queue is woken. -/
theorem LooseWaits.insertChar (h : LooseWaits s P) {ch : UInt8}
    (hinsert : consoleInsertChar s ch = some s') : LooseWaits s' P := by
  rw [consoleInsertChar] at hinsert
  split at hinsert
  · cases hinsert
    exact h
  · have hcut := cut_of_wake hinsert
    obtain ⟨links, status, rfl, _⟩ := waitQueueWake_cases hinsert
    have hcut' : Cut s _ .console := ⟨hcut.first, hcut.links, hcut.onQueue, hcut.status⟩
    refine h.wake hcut' rfl (fun hne => absurd ?_ hne) (fun a t => h.sleepers_cut hcut' t) h.wakeup
    rw [hcut.first, Function.update_self]

/-- The timer fires, and its queue is woken when the next wake-up is over. -/
theorem LooseWaits.timer (h : LooseWaits s P) (htimer : timerInterruptHandler s = some s') :
    LooseWaits s' P := by
  simp only [timerInterruptHandler] at htimer
  split at htimer
  · have hcut := cut_of_wake htimer
    obtain ⟨links, status, rfl, _⟩ := waitQueueWake_cases htimer
    have hcut' : Cut s _ .timer := ⟨hcut.first, hcut.links, hcut.onQueue, hcut.status⟩
    have hafter := h.toLooseQueues.cut hcut' rfl
    refine h.wake hcut' rfl (fun hne => ?_) (fun a t hk ha => ?_) (fun hne => absurd rfl hne)
    · obtain ⟨b, hb⟩ := Option.ne_none_iff_exists'.mp hne
      obtain ⟨_, hold⟩ := hcut'.heads hb
      exact h.input fun hnone => by cases hold.symm.trans hnone
    · -- no sleeper is left on the timer queue
      rcases ha with hhead | ⟨p, hp, hlink, hnot⟩
      · exact absurd rfl (hcut.heads hhead).1
      · refine absurd (hafter.woken hcut' hp hlink ?_) hnot
        have hk' : s.kernel a = .nanosleep t := hk
        show (s.kernel a).queue = some .timer
        rw [hk']
        rfl
  · next hdue =>
    cases htimer
    exact ⟨⟨h.closed, h.heads, h.headKernel, h.behind⟩, h.waited, h.zombies, h.input, h.sleepers,
      h.deadline, fun hne => UInt32.not_lt.mp fun hlt => hdue ⟨hne, hlt⟩⟩

theorem LooseWaits.interrupt (h : LooseWaits s P) {typed : List UInt8} {timer : Bool}
    (hinterrupt : interruptHandler s typed timer = some s') : LooseWaits s' P := by
  obtain ⟨s₁, hs₁, hs'⟩ := interrupt_cases (J := fun s => LooseWaits s P) h
    (fun _ _ _ h hinsert => h.insertChar hinsert) (fun _ _ h htimer => h.timer htimer) hinterrupt
  rcases hs' with rfl | hsched
  · exact hs₁
  · exact hs₁.schedule hsched

theorem LooseWaits.execve (h : LooseWaits s P) {image : Option Image}
    (hexecve : Processes.execve s image = some s') : LooseWaits s' P := by
  obtain ⟨status, low, hsched, hstatus⟩ := execve_cases hexecve
  refine LooseWaits.schedule ?_ hsched
  cases image <;>
    exact ⟨⟨h.closed, h.heads, h.headKernel, h.behind⟩,
      fun a ha pid c hk hc hexited => h.waited a ha pid c hk hc (hstatus c hexited),
      fun a ha hexited => h.zombies a ha (hstatus a hexited), h.input, h.sleepers, h.deadline, h.wakeup⟩

/-- The child is linked to by nobody, and to nobody. -/
theorem LooseWaits.forked (h : LooseWaits s P) {next prev : Addr → Option Addr} {first : Option Addr}
    (ha : ¬P a) (hcurrent : P s.currentProcess) (hnull : s.waitQueueNext s.currentProcess = none) :
    LooseWaits (forked s a next prev first) fun b => P b ∨ b = a := by
  have hne : ∀ b, P b → b ≠ a := fun b hb heq => ha (heq ▸ hb)
  have hcur := hne _ hcurrent
  have hlink : ∀ b, b ≠ a → (Processes.forked s a next prev first).waitQueueNext b =
      s.waitQueueNext b := by
    intro b hb
    show Function.update (Function.update s.waitQueueNext a none) a _ b = _
    rw [Function.update_of_ne hb, Function.update_of_ne hb]
  have hchild : (Processes.forked s a next prev first).waitQueueNext a = none := by
    show Function.update (Function.update s.waitQueueNext a none) a
      (Function.update s.waitQueueNext a none s.currentProcess) a = none
    rw [Function.update_self, Function.update_of_ne hcur, hnull]
  obtain ⟨hqueues, hiff⟩ : LooseQueues (Processes.forked s a next prev first) P ∧
      ∀ q b, OnQueue (Processes.forked s a next prev first) q b ↔ OnQueue s q b :=
    h.toLooseQueues.congr rfl fun b hb => ⟨hlink b (hne b hb), forked_kernel_other (hne b hb)⟩
  have hold : ∀ {p b : Addr}, P p ∨ p = a →
      (Processes.forked s a next prev first).waitQueueNext p = some b →
      P p ∧ s.waitQueueNext p = some b := by
    rintro p b (hp | rfl) hpb
    · exact ⟨hp, (hlink p (hne p hp)).symm.trans hpb⟩
    · cases hchild.symm.trans hpb
  -- a process that waits is not the child
  have hwaits : ∀ {b : Addr} {k : Kernel}, (Processes.forked s a next prev first).kernel b = k →
      k ≠ .user → s.kernel b = k := by
    intro b k hk hne'
    by_cases hba : b = a
    · rw [hba, forked_kernel_child] at hk
      exact absurd hk.symm hne'
    · rwa [forked_kernel_other hba] at hk
  have hlinked : ∀ b, (∃ p, (P p ∨ p = a) ∧
      (Processes.forked s a next prev first).waitQueueNext p = some b) →
      ∃ p, P p ∧ s.waitQueueNext p = some b := fun b ⟨p, hp, hpb⟩ => ⟨p, hold hp hpb⟩
  refine ⟨⟨fun p hp b hpb => ?_, fun q b hb => .inl (h.heads q b hb), hqueues.headKernel,
    fun p hp b hpb => hqueues.behind p (hold hp hpb).1 b hpb⟩, fun b hb pid c hk hc hexited => ?_,
    fun b hb hexited => ?_, h.input, fun b t hk hb => ?_, fun b t hk => ?_, h.wakeup⟩
  · obtain ⟨hp', hpb'⟩ := hold hp hpb
    exact .inl (h.closed p hp' b hpb')
  · refine absurd hexited (forked_status_ne_exited hcur fun hca _ => ?_)
    exact h.waited b (hb.imp id (hlinked b)) pid c (hwaits hk (by simp)) (hc.resolve_right hca)
  · by_cases hlive : b ≠ a ∧ b ≠ s.currentProcess
    · rw [forked_status_other hlive.1 hlive.2] at hexited
      obtain ⟨hhead, hlinks⟩ := h.zombies b (hb.resolve_right hlive.1) hexited
      exact ⟨hhead, fun p hp hpb => hlinks p (hold hp hpb).1 (hold hp hpb).2⟩
    · exact absurd hexited (forked_status_ne_exited hcur fun hba hbc => absurd ⟨hba, hbc⟩ hlive)
  · refine h.sleepers b t (hwaits hk (by simp)) ?_
    rcases hb with hhead | ⟨p, hp, hpb, hnot⟩
    · exact .inl hhead
    · exact .inr ⟨p, (hold hp hpb).1, (hold hp hpb).2, fun hon => hnot ((hiff _ _).mpr hon)⟩
  · exact h.deadline b t (hwaits hk (by simp))

/-! ## Steps -/

/-- Every event that completes keeps the list and what is left of the queues. -/
theorem loose_step (hroster : LiveRoster s procs) (h : LooseWaits s (· ∈ procs))
    (hcan : CanHappen s e) (hdeadline : HasDeadline s e) (hunlinked : ForksUnlinked s e)
    (hstep : step s e = some s') :
    ∃ procs', LiveRoster s' procs' ∧ LooseWaits s' (· ∈ procs') := by
  obtain ⟨procs', hroster', hE⟩ := roster_step hroster hcan hstep
  refine ⟨procs', hroster', LooseWaits.congr_pred ?_ fun a => (hE.members a).symm⟩
  have hprocs := hroster.toListed.processes_eq
  -- the events that neither reap nor create a process
  have hsame : (∀ a, ¬Reaps s e a) → (∀ a, e ≠ .vfork (some a)) → LooseWaits s' (· ∈ procs) →
      LooseWaits s' fun a => Stays s e procs a ∨ e = .vfork (some a) := by
    intro hreaps hforks hs'
    refine hs'.congr_pred fun a => ?_
    rw [or_iff_left (hforks a), Stays, and_iff_left (hreaps a)]
  have hwait : e.mayWait → LooseWaits s' fun a => Stays s e procs a ∨ e = .vfork (some a) := by
    intro hwait
    refine (h.callEnd hroster hdeadline (callEnd_of_step hwait hcan hstep)).congr_pred fun a => ?_
    rw [or_iff_left hwait.forks]
  cases e with
  | vfork memory =>
    cases memory with
    | none =>
      cases hstep
      exact hsame (fun _ => id) (fun _ hfork => by cases hfork) h
    | some child =>
      have hchild : child ∉ procs := hprocs ▸ hcan.2 child rfl
      obtain ⟨next, prev, first, hcreate, _⟩ := hroster.toRoster.forked hchild
      have hforked := (h.forked hchild hroster.current hunlinked).schedule (vfork_cases hcreate hstep)
      refine hforked.congr_pred fun a => ?_
      rw [Event.vfork.injEq, Option.some.injEq, eq_comm (a := child)]
      exact or_congr (and_iff_left id).symm Iff.rfl
  | execve image => exact hsame (fun _ => id) (fun _ hfork => by cases hfork) (h.execve hstep)
  | exit value =>
    exact hsame (fun _ => id) (fun _ hfork => by cases hfork) (h.exit hcan.1 hstep)
  | interrupt typed timer =>
    exact hsame (fun _ => id) (fun _ hfork => by cases hfork) (h.interrupt hstep)
  | reuse memory =>
    cases hstep
    have hpcb : ∀ a ∈ procs, SamePcb memory s.toPcbs a := fun a ha => hcan a (hprocs ▸ ha)
    refine hsame (fun _ => id) (fun _ hfork => by cases hfork) (h.memory (fun a ha => ?_) ?_)
    · exact (hpcb a ha).waitQueueNext
    · exact fun a ha hexited => (hpcb a ha).status.symm.trans hexited
  | _ => exact hwait trivial

end Vmwos.Processes
