import Mathlib.Data.Fintype.Basic
import Vmwos.Scheduling

/-!
# Wait queues

All wait queues share the field `wait_queue_next` of the processes, and `wait_queue_add` does
not clear it. `Queued` says what keeps them apart: each queue is a chain, no process is on two
of them, and a process on none has a null link.

The queues are any number of `struct wait_queue_t`, known by their names `Q`. With the three
queues of the kernel the calls are those of the process system (`waitQueueAdd_eq_queueStep`,
`waitQueueWake_eq_queueStep`).

Result: `wait_queues_intact`. In every sequence of calls that adds a process again only to the
queue it is on, the calls end, and each queue is the list of the processes added since its last
wake, in the order of their first call.
-/

namespace Vmwos.Processes

open Chains Runs

variable {Q : Type} [DecidableEq Q] {P : Addr → Prop} {links : Addr → Option Addr}
  {first : Q → Option Addr} {queue : Q → List Addr} {q : Q} {a : Addr}

/-! ## Definitions -/

/-- `wait_queue_add` up to its `schedule`, for a queue with the given first process: the links and
the first process after it. -/
def addTo (links : Addr → Option Addr) (proc : Addr) :
    Option Addr → Option ((Addr → Option Addr) × Option Addr)
  | none => some (links, some proc)
  | some first => (addLoop links proc allAddrs first).map fun links => (links, some first)

/-- A queue with the process on it. -/
def joined (l : List Addr) (a : Addr) : List Addr := if a ∈ l then l else l ++ [a]

/-- The queues with the process on queue `q`. -/
def joinQueue (queue : Q → List Addr) (q : Q) (a : Addr) : Q → List Addr :=
  Function.update queue q (joined (queue q) a)

/-- The links and the first processes are those of the queues `queue`, for the processes `P`. -/
structure Queued (P : Addr → Prop) (links : Addr → Option Addr) (first : Q → Option Addr)
    (queue : Q → List Addr) : Prop where
  chain : ∀ q, Linked links (first q) (queue q)
  apart : ∀ q q' a, a ∈ queue q → a ∈ queue q' → q = q'
  unlinked : ∀ a, P a → (∀ q, a ∉ queue q) → links a = none

/-- The process system with any number of queues, and for each queue the processes added to it
since it was woken last, in the order of the first call. -/
structure Queues (Q : Type) where
  sys : Sys
  first : Q → Option Addr
  order : Q → List Addr

/-- A call of `wait_queue_add` or `wait_queue_wake`. -/
inductive QueueCall (Q : Type) where
  | add (q : Q) (proc : Addr)
  | wake (q : Q)

/-- One call. -/
def queueStep (x : Queues Q) : QueueCall Q → Option (Queues Q)
  | .add q proc => do
    let (links, first) ← addTo x.sys.waitQueueNext proc (x.first q)
    let s ← schedule (setStatus { x.sys with waitQueueNext := links } proc .sleeping)
    some ⟨s, Function.update x.first q first, joinQueue x.order q proc⟩
  | .wake q => do
    let (links, status) ← wakeLoop allAddrs x.sys.waitQueueNext x.sys.status (x.first q)
    some ⟨{ x.sys with waitQueueNext := links, status := status },
      Function.update x.first q none, Function.update x.order q []⟩

/-- The added process is one of `P`, and on no other queue. -/
def OneQueue (P : Addr → Prop) (x : Queues Q) : QueueCall Q → Prop
  | .add q a => P a ∧ ∀ q', a ∈ x.order q' → q' = q
  | .wake _ => True

instance [Fintype Q] [DecidablePred P] (x : Queues Q) : ∀ call, Decidable (OneQueue P x call)
  | .add q a => inferInstanceAs (Decidable (P a ∧ ∀ q', a ∈ x.order q' → q' = q))
  | .wake _ => .isTrue trivial

/-- The queues are proper chains of the processes added to them, in this order. -/
structure QueuesIntact (P : Addr → Prop) (x : Queues Q) : Prop extends
    Queued P x.sys.waitQueueNext x.first x.order where
  nodup : ∀ q, (x.order q).Nodup

/-- A wake empties the queue, and its processes are ready and have a null link. -/
def WakesAll (x : Queues Q) (call : QueueCall Q) : Prop :=
  ∀ q, call = .wake q → ∃ x', queueStep x call = some x' ∧ x'.first q = none ∧
    ∀ a ∈ x.order q, x'.sys.status a = .ready ∧ x'.sys.waitQueueNext a = none

/-! ## Joining a queue -/

theorem mem_joined {l : List Addr} {b : Addr} : b ∈ joined l a ↔ b ∈ l ∨ b = a := by
  unfold joined
  split
  · next ha =>
    constructor
    · exact .inl
    · rintro (hb | rfl)
      · exact hb
      · exact ha
  · simp

theorem mem_joinQueue {b : Addr} {q' : Q} :
    b ∈ joinQueue queue q a q' ↔ b ∈ queue q' ∨ q' = q ∧ b = a := by
  by_cases hq : q' = q
  · subst hq
    rw [joinQueue, Function.update_self, mem_joined]
    simp
  · rw [joinQueue, Function.update_of_ne hq]
    simp [hq]

/-- New links and first processes, when they are those of the queues with the process on. -/
theorem Queued.relink (h : Queued P links first queue) (hone : ∀ q', a ∈ queue q' → q' = q)
    {links' : Addr → Option Addr} {first' : Q → Option Addr}
    (hchain : ∀ q', Linked links' (first' q') (joinQueue queue q a q'))
    (hlinks : ∀ b, b ∉ queue q → b ≠ a → links' b = links b) :
    Queued P links' first' (joinQueue queue q a) := by
  refine ⟨hchain, fun q₁ q₂ b h₁ h₂ => ?_, fun b hb hnone => ?_⟩
  · rcases mem_joinQueue.mp h₁ with hold₁ | ⟨hq₁, hb⟩
    · rcases mem_joinQueue.mp h₂ with hold₂ | ⟨hq₂, hb⟩
      · exact h.apart q₁ q₂ b hold₁ hold₂
      · exact (hone q₁ (hb ▸ hold₁)).trans hq₂.symm
    · rcases mem_joinQueue.mp h₂ with hold₂ | ⟨hq₂, _⟩
      · exact hq₁.trans (hone q₂ (hb ▸ hold₂)).symm
      · exact hq₁.trans hq₂.symm
  · have hold : ∀ q', b ∉ queue q' := fun q' hq' => hnone q' (mem_joinQueue.mpr (.inl hq'))
    have hne : b ≠ a := fun heq => hnone q (mem_joinQueue.mpr (.inr ⟨rfl, heq⟩))
    rw [hlinks b (hold q) hne]
    exact h.unlinked b hb hold

/-- `wait_queue_add` ends, and the process is on the queue. -/
theorem Queued.add (h : Queued P links first queue) (ha : P a)
    (hone : ∀ q', a ∈ queue q' → q' = q) :
    ∃ links' first', addTo links a (first q) = some (links', first') ∧
      Queued P links' (Function.update first q first') (joinQueue queue q a) := by
  have hchain := h.chain q
  cases hfirst : first q with
  | none =>
    -- the first on an empty queue
    rw [hfirst] at hchain
    have hempty : queue q = [] := by
      cases hqueue : queue q with
      | nil => rfl
      | cons b l =>
        rw [hqueue] at hchain
        cases hchain
    have hnull : links a = none := by
      refine h.unlinked a ha fun q' ha' => ?_
      rw [hone q' ha', hempty] at ha'
      exact absurd ha' List.not_mem_nil
    refine ⟨_, _, rfl, h.relink hone (fun q' => ?_) fun b _ _ => rfl⟩
    by_cases hq : q' = q
    · subst hq
      rw [joinQueue, Function.update_self, Function.update_self, hempty]
      refine .cons ?_
      rw [hnull]
      exact .nil
    · rw [joinQueue, Function.update_of_ne hq, Function.update_of_ne hq]
      exact h.chain q'
  | some b =>
    rw [hfirst] at hchain
    have hkeep : Function.update first q (some b) = first := by
      rw [← hfirst, Function.update_eq_self]
    by_cases hmem : a ∈ queue q
    · -- on the queue already
      have hadd := addLoop_mem hchain hmem (length_le_allAddrs hchain)
      have hsame : joinQueue queue q a = queue := by
        rw [joinQueue, joined, if_pos hmem, Function.update_eq_self]
      refine ⟨links, some b, by rw [addTo, hadd, Option.map_some], ?_⟩
      rw [hkeep, hsame]
      exact h
    · -- behind the last
      obtain ⟨l, z, hqueue⟩ : ∃ l z, queue q = l ++ [z] := by
        rcases List.eq_nil_or_concat (queue q) with hnil | ⟨l, z, hl⟩
        · rw [hnil] at hchain
          cases hchain
        · exact ⟨l, z, by rw [hl, List.concat_eq_append]⟩
      have hz : z ∈ queue q := by simp [hqueue]
      have hnull : links a = none := h.unlinked a ha fun q' ha' => hmem (hone q' ha' ▸ ha')
      rw [hqueue] at hchain hmem
      have hadd := addLoop_notMem hchain hmem (Nat.lt_of_lt_of_le (by simp)
        (length_le_allAddrs hchain))
      refine ⟨_, some b, by rw [addTo, hadd, Option.map_some], ?_⟩
      rw [hkeep]
      refine h.relink hone (fun q' => ?_) fun c hc _ => ?_
      · by_cases hq : q' = q
        · subst hq
          rw [joinQueue, Function.update_self, joined, hqueue, if_neg hmem, List.append_assoc,
            hfirst]
          exact hchain.snoc hmem hnull
        · rw [joinQueue, Function.update_of_ne hq]
          exact (h.chain q').update (fun hz' => hq (h.apart q' q z hz' hz)) _
      · exact Function.update_of_ne (fun heq : c = z => hc (heq ▸ hz)) _ _

/-! ## Waking a queue -/

/-- `wait_queue_wake` ends, and the queue is empty. -/
theorem Queued.wake (h : Queued P links first queue) (status : Addr → Status) (q : Q) :
    wakeLoop allAddrs links status (first q) =
        some (wokenLinks links (queue q), wokenStatus status (queue q)) ∧
      Queued P (wokenLinks links (queue q)) (Function.update first q none)
        (Function.update queue q []) := by
  have hchain := h.chain q
  refine ⟨wakeLoop_eq hchain (length_le_allAddrs hchain), fun q' => ?_, fun q₁ q₂ a h₁ h₂ => ?_,
    fun a ha hnone => ?_⟩
  · by_cases hq : q' = q
    · subst hq
      rw [Function.update_self, Function.update_self]
      exact .nil
    · rw [Function.update_of_ne hq, Function.update_of_ne hq]
      refine (h.chain q').congr fun a ha => ?_
      rw [wokenLinks, if_neg fun ha' => hq (h.apart q' q a ha ha')]
  · have hold : ∀ q', a ∈ Function.update queue q [] q' → a ∈ queue q' := by
      intro q' ha
      by_cases hq : q' = q
      · subst hq
        rw [Function.update_self] at ha
        exact absurd ha List.not_mem_nil
      · rwa [Function.update_of_ne hq] at ha
    exact h.apart q₁ q₂ a (hold q₁ h₁) (hold q₂ h₂)
  · by_cases hmem : a ∈ queue q
    · rw [wokenLinks, if_pos hmem]
    · rw [wokenLinks, if_neg hmem]
      refine h.unlinked a ha fun q' hq' => hnone q' ?_
      have hne : q' ≠ q := fun heq => hmem (heq ▸ hq')
      rwa [Function.update_of_ne hne]

/-! ## The queues of the kernel -/

theorem enqueue_eq (s : Sys) (q : Queue) (a : Addr) :
    enqueue s q a = (addTo s.waitQueueNext a (s.waitQueue q)).map fun
      | (links, first) => { s with
          waitQueueNext := links
          waitQueue := Function.update s.waitQueue q first } := by
  cases hfirst : s.waitQueue q with
  | none => simp only [enqueue, hfirst, addTo, Option.map_some]
  | some b =>
    have hkeep : Function.update s.waitQueue q (some b) = s.waitQueue := by
      rw [← hfirst, Function.update_eq_self]
    simp only [enqueue, hfirst, addTo, Option.map_map, Function.comp_def, hkeep]

/-- The scheduler does not look at the queues. -/
theorem schedule_waitQueue (s : Sys) (w : Queue → Option Addr) :
    schedule { s with waitQueue := w } =
      (schedule s).map fun s' => { s' with waitQueue := w } := by
  have hloop : ∀ first orig turns proc, scheduleLoop { s with waitQueue := w } first orig turns proc =
      scheduleLoop s first orig turns proc := by
    intro first orig turns
    induction turns with
    | zero => exact fun _ => rfl
    | succ turns ih =>
      intro proc
      simp only [scheduleLoop, ih]
  simp only [schedule, Option.bind_eq_bind, hloop, Option.map_bind]
  congr 1
  funext first
  by_cases hidle : s.currentProcess = first
  · simp only [if_pos hidle, Function.comp_apply]
    cases s.next first with
    | none => rfl
    | some proc =>
      rw [Option.map_map]
      rfl
  · simp only [if_neg hidle, Function.comp_apply, Option.map_map]
    rfl

theorem waitQueueAdd_eq_queueStep (s : Sys) (order : Queue → List Addr) (q : Queue) (a : Addr) :
    waitQueueAdd s q a = (queueStep ⟨s, s.waitQueue, order⟩ (.add q a)).map
      fun x => { x.sys with waitQueue := x.first } := by
  simp only [waitQueueAdd, queueStep, enqueue_eq, Option.bind_eq_bind]
  cases addTo s.waitQueueNext a (s.waitQueue q) with
  | none => rfl
  | some r =>
    obtain ⟨links, first⟩ := r
    simp only [Option.map_some, Option.bind_some]
    show schedule { setStatus { s with waitQueueNext := links } a .sleeping with
      waitQueue := Function.update s.waitQueue q first } = _
    rw [schedule_waitQueue]
    cases schedule (setStatus { s with waitQueueNext := links } a .sleeping) with
    | none => rfl
    | some s' => rfl

theorem waitQueueWake_eq_queueStep (s : Sys) (order : Queue → List Addr) (q : Queue) :
    waitQueueWake s q = (queueStep ⟨s, s.waitQueue, order⟩ (.wake q)).map
      fun x => { x.sys with waitQueue := x.first } := by
  simp only [waitQueueWake, queueStep, Option.bind_eq_bind]
  cases wakeLoop allAddrs s.waitQueueNext s.status (s.waitQueue q) with
  | none => rfl
  | some r => rfl

/-! ## Sequences of calls -/

/-- The queues are proper, and the scheduler has a process list to search. -/
structure QueuesInv (P : Addr → Prop) (procs : List Addr) (x : Queues Q) : Prop where
  queued : Queued P x.sys.waitQueueNext x.first x.order
  listed : Linked x.sys.next x.sys.procFirst procs
  current : x.sys.currentProcess ∈ procs

variable {procs : List Addr} {x : Queues Q} {call : QueueCall Q}

omit [DecidableEq Q] in
theorem QueuesInv.intact (h : QueuesInv P procs x) : QueuesIntact P x :=
  ⟨h.queued, fun q => (h.queued.chain q).nodup⟩

theorem QueuesInv.add (h : QueuesInv P procs x) (ha : P a) (hone : ∀ q', a ∈ x.order q' → q' = q) :
    ∃ x', queueStep x (.add q a) = some x' ∧ QueuesInv P procs x' := by
  obtain ⟨links, first, hadd, hqueued⟩ := h.queued.add ha hone
  have hcurrent := h.current
  have hlisted := h.listed
  cases procs with
  | nil => exact absurd hcurrent List.not_mem_nil
  | cons idle rest =>
    obtain ⟨s', hsched, hselected⟩ := schedule_current
      (s := setStatus { x.sys with waitQueueNext := links } a .sleeping) hlisted hcurrent
    have hmem : s'.currentProcess ∈ idle :: rest := by
      rw [hselected]
      exact selected_mem
    refine ⟨⟨s', Function.update x.first q first, joinQueue x.order q a⟩, ?_, ?_⟩
    · simp only [queueStep, hadd, Option.bind_eq_bind, Option.bind_some, hsched]
    · rcases schedule_switches hsched with rfl | ⟨proc, rfl⟩
      · exact ⟨hqueued, hlisted, hmem⟩
      · exact ⟨hqueued, hlisted, hmem⟩

/-- What a wake does. -/
theorem QueuesInv.wake (h : QueuesInv P procs x) (q : Q) :
    ∃ x', queueStep x (.wake q) = some x' ∧ QueuesInv P procs x' ∧ x'.first q = none ∧
      ∀ a ∈ x.order q, x'.sys.status a = .ready ∧ x'.sys.waitQueueNext a = none := by
  obtain ⟨hloop, hqueued⟩ := h.queued.wake x.sys.status q
  refine ⟨⟨{ x.sys with
      waitQueueNext := wokenLinks x.sys.waitQueueNext (x.order q)
      status := wokenStatus x.sys.status (x.order q) },
    Function.update x.first q none, Function.update x.order q []⟩,
    ?_, ⟨hqueued, h.listed, h.current⟩, Function.update_self _ _ _, fun a ha => ?_⟩
  · simp only [queueStep, hloop, Option.bind_eq_bind, Option.bind_some]
  · exact ⟨if_pos ha, if_pos ha⟩

theorem QueuesInv.step (h : QueuesInv P procs x) (hcall : OneQueue P x call) :
    ∃ x', queueStep x call = some x' ∧ QueuesInv P procs x' := by
  cases call with
  | add q a => exact h.add hcall.1 hcall.2
  | wake q =>
    obtain ⟨x', hstep, hinv, _⟩ := h.wake q
    exact ⟨x', hstep, hinv⟩

/-- From empty queues, for processes with null links: as long as a process on a queue is added
again to this queue only, every call ends, the queues are intact in every state, and every wake
wakes all. -/
theorem wait_queues_intact (s : Sys) (procs : List Addr) (P : Addr → Prop)
    (calls : List (QueueCall Q)) (hlisted : Linked s.next s.procFirst procs)
    (hcurrent : s.currentProcess ∈ procs) (hnull : ∀ a, P a → s.waitQueueNext a = none)
    (hcalls : AllSteps queueStep (OneQueue P) ⟨s, fun _ => none, fun _ => []⟩ calls) :
    (∃ x, run queueStep ⟨s, fun _ => none, fun _ => []⟩ calls = some x) ∧
      AllStates queueStep (QueuesIntact P) ⟨s, fun _ => none, fun _ => []⟩ calls ∧
      AllSteps queueStep WakesAll ⟨s, fun _ => none, fun _ => []⟩ calls := by
  have hstart : QueuesInv P procs (⟨s, fun _ => none, fun _ => []⟩ : Queues Q) :=
    ⟨⟨fun _ => .nil, fun _ _ _ ha => absurd ha List.not_mem_nil, fun a ha _ => hnull a ha⟩,
      hlisted, hcurrent⟩
  have hkeeps : ∀ (x : Queues Q) call x', QueuesInv P procs x → OneQueue P x call →
      queueStep x call = some x' → QueuesInv P procs x' := by
    intro x call x' hx hcall hstep
    obtain ⟨x₁, hstep₁, hx₁⟩ := hx.step hcall
    cases hstep.symm.trans hstep₁
    exact hx₁
  refine ⟨?_, ?_, ?_⟩
  · exact run_completes (I := QueuesInv P procs) (fun x call hx hcall => hx.step hcall) hstart hcalls
  · exact AllStates.of_inv hkeeps (fun x hx => hx.intact) hstart hcalls
  · refine AllSteps.imp_of_inv (fun x call hx hcall => ⟨?_, fun x' => hkeeps x call x' hx hcall⟩)
      hstart hcalls
    rintro q rfl
    obtain ⟨x', hstep, _, hwoken⟩ := hx.wake q
    exact ⟨x', hstep, hwoken⟩

/-- Two queues. A process is added twice to the first one, which is woken while another process is
on the second. -/
def twoQueues : List (QueueCall Bool) :=
  [.add false 0x300000, .add true 0x200000, .add false 0x300000, .wake false, .add true 0x300000]

theorem wait_queues_intact_two :
    AllSteps queueStep (OneQueue (· ∈ [0x200000, 0x300000]))
        ⟨twoProcesses, fun _ => none, fun _ => []⟩ twoQueues ∧
      ∃ x, run queueStep ⟨twoProcesses, fun _ => none, fun _ => []⟩ twoQueues = some x := by
  have hcalls : AllSteps queueStep (OneQueue (· ∈ [0x200000, 0x300000]))
      ⟨twoProcesses, fun _ => none, fun _ => []⟩ twoQueues := by decide +kernel
  have hlinked : Linked twoProcesses.next twoProcesses.procFirst
      [0x100000, 0x200000, 0x300000] := by decide
  exact ⟨hcalls, (wait_queues_intact twoProcesses [0x100000, 0x200000, 0x300000] _ twoQueues
    hlinked (by simp [twoProcesses]) (fun _ _ => rfl) hcalls).1⟩

end Vmwos.Processes
