import Vmwos.Chains
import Vmwos.Processes

/-!
# The loops over processes

What the loops of the process code do on proper chains. Each lemma says that the loop ends
and gives its result in terms of the list of cells:

* `lookupLoop_eq`, `lastLoop_eq`: the searches in the process list;
* `addLoop_mem`, `addLoop_notMem`, `wakeLoop_eq`: the two loops over a wait queue, and
  `addLoop_cases`, `wakeLoop_cases` on any links;
* `scheduleLoop_eq`: the search for the next process to run.
-/

namespace Vmwos.Processes

open Chains

variable {s : Sys} {p : Option Addr} {a z proc first orig : Addr} {l : List Addr} {turns : Nat}
  {links : Addr → Option Addr} {status : Addr → Status}

theorem length_le_allAddrs {next : Addr → Option Addr} (h : Linked next p l) :
    l.length ≤ allAddrs :=
  h.length_le.trans (by decide)

/-! ## The process list -/

/-- A search finds the first process that meets the test. -/
theorem lookupLoop_eq (h : Linked s.next p l) (test : Addr → Bool) (hturns : l.length ≤ turns) :
    lookupLoop s test turns p = some (l.find? test) := by
  induction h generalizing turns with
  | nil => cases turns <;> rfl
  | @cons a l _ ih =>
    obtain ⟨turns, rfl⟩ := Nat.exists_eq_succ_of_ne_zero
      (Nat.ne_of_gt (Nat.lt_of_lt_of_le (Nat.succ_pos _) hturns))
    rw [lookupLoop, List.find?_cons]
    cases htest : test a with
    | true => rfl
    | false => exact ih (Nat.le_of_succ_le_succ hturns)

theorem lastLoop_eq (h : Linked s.next (some a) (l ++ [z])) (hturns : l.length < turns) :
    lastLoop s turns a = some z := by
  induction l generalizing a turns with
  | nil =>
    obtain ⟨turns, rfl⟩ := Nat.exists_eq_succ_of_ne_zero (Nat.ne_of_gt hturns)
    obtain ⟨heq, _⟩ := h.head
    cases heq
    rw [lastLoop, Linked.last_eq (l := []) h]
  | cons b l ih =>
    obtain ⟨turns, rfl⟩ := Nat.exists_eq_succ_of_ne_zero (Nat.ne_of_gt (Nat.zero_lt_of_lt hturns))
    obtain ⟨heq, htail⟩ := h.head
    cases heq
    rw [lastLoop]
    cases hnext : s.next b with
    | none =>
      rw [hnext] at htail
      cases l <;> cases htail
    | some c =>
      rw [hnext] at htail
      exact ih htail (Nat.lt_of_succ_lt_succ hturns)

/-! ## Wait queues -/

/-- A process that is on the queue stays where it is. -/
theorem addLoop_mem (h : Linked links (some a) l) (hproc : proc ∈ l) (hturns : l.length ≤ turns) :
    addLoop links proc turns a = some links := by
  induction l generalizing a turns with
  | nil => exact absurd hproc List.not_mem_nil
  | cons b l ih =>
    obtain ⟨turns, rfl⟩ := Nat.exists_eq_succ_of_ne_zero
      (Nat.ne_of_gt (Nat.lt_of_lt_of_le (Nat.succ_pos _) hturns))
    obtain ⟨heq, htail⟩ := h.head
    cases heq
    rw [addLoop]
    by_cases hab : b = proc
    · rw [if_pos hab]
    · have hmem : proc ∈ l := (List.mem_cons.mp hproc).resolve_left fun heq => hab heq.symm
      rw [if_neg hab]
      cases hnext : links b with
      | none =>
        rw [hnext] at htail
        cases htail
        exact absurd hmem List.not_mem_nil
      | some c =>
        rw [hnext] at htail
        exact ih htail hmem (Nat.le_of_succ_le_succ hturns)

/-- Another process is linked behind the last one. -/
theorem addLoop_notMem (h : Linked links (some a) (l ++ [z])) (hproc : proc ∉ l ++ [z])
    (hturns : l.length < turns) :
    addLoop links proc turns a = some (Function.update links z (some proc)) := by
  induction l generalizing a turns with
  | nil =>
    obtain ⟨turns, rfl⟩ := Nat.exists_eq_succ_of_ne_zero (Nat.ne_of_gt hturns)
    obtain ⟨heq, _⟩ := h.head
    cases heq
    rw [addLoop, if_neg fun heq => hproc (by simp [heq]), Linked.last_eq (l := []) h]
  | cons b l ih =>
    obtain ⟨turns, rfl⟩ := Nat.exists_eq_succ_of_ne_zero (Nat.ne_of_gt (Nat.zero_lt_of_lt hturns))
    obtain ⟨heq, htail⟩ := h.head
    cases heq
    rw [addLoop, if_neg fun heq => hproc (by simp [heq])]
    cases hnext : links b with
    | none =>
      rw [hnext] at htail
      cases l <;> cases htail
    | some c =>
      rw [hnext] at htail
      exact ih htail (fun hmem => hproc (List.mem_cons_of_mem _ hmem))
        (Nat.lt_of_succ_lt_succ hturns)

/-- The links and the statuses after waking the processes of a queue. -/
def wokenLinks (links : Addr → Option Addr) (l : List Addr) : Addr → Option Addr := fun a =>
  if a ∈ l then none else links a

def wokenStatus (status : Addr → Status) (l : List Addr) : Addr → Status := fun a =>
  if a ∈ l then .ready else status a

theorem wakeLoop_eq (h : Linked links p l) (hturns : l.length ≤ turns) :
    wakeLoop turns links status p = some (wokenLinks links l, wokenStatus status l) := by
  induction l generalizing links status p turns with
  | nil =>
    cases h
    have hlinks : wokenLinks links [] = links := by
      funext a
      simp [wokenLinks]
    have hstatus : wokenStatus status [] = status := by
      funext a
      simp [wokenStatus]
    rw [hlinks, hstatus]
    cases turns <;> rfl
  | cons b l ih =>
    obtain ⟨turns, rfl⟩ := Nat.exists_eq_succ_of_ne_zero
      (Nat.ne_of_gt (Nat.lt_of_lt_of_le (Nat.succ_pos _) hturns))
    have hb := (List.nodup_cons.mp h.nodup).1
    obtain ⟨rfl, htail⟩ := h.head
    rw [wakeLoop, ih (htail.update hb none) (Nat.le_of_succ_le_succ hturns)]
    congr 2
    · funext a
      by_cases hab : a = b
      · simp [wokenLinks, hab]
      · simp [wokenLinks, hab]
    · funext a
      by_cases hab : a = b
      · simp [wokenStatus, hab]
      · simp [wokenStatus, hab]

/-! ### Any links -/

/-- If the search ends, at most a null link that the queue leads to has changed. -/
theorem addLoop_cases {links' : Addr → Option Addr} (h : addLoop links proc turns a = some links') :
    links' = links ∨ ∃ z, Reach links (some a) z ∧ links z = none ∧
      links' = Function.update links z (some proc) := by
  induction turns generalizing a with
  | zero => cases h
  | succ turns ih =>
    rw [addLoop] at h
    split at h
    · exact .inl (Option.some.inj h).symm
    · cases hnext : links a with
      | none =>
        rw [hnext] at h
        exact .inr ⟨a, .here, hnext, (Option.some.inj h).symm⟩
      | some b =>
        rw [hnext] at h
        rcases ih h with hsame | ⟨z, hz, hnull, hlinks⟩
        · exact .inl hsame
        · refine .inr ⟨z, .next ?_, hnull, hlinks⟩
          rwa [hnext]

/-- If the loop ends, it has woken the processes that the queue leads to, and no others. -/
theorem wakeLoop_cases {links' : Addr → Option Addr} {status' : Addr → Status}
    (h : wakeLoop turns links status p = some (links', status')) (b : Addr) :
    (Reach links p b → links' b = none ∧ status' b = .ready) ∧
      (¬Reach links p b → links' b = links b ∧ status' b = status b) := by
  induction turns generalizing p links status with
  | zero =>
    cases p with
    | none =>
      cases h
      exact ⟨fun hb => (by cases hb), fun _ => ⟨rfl, rfl⟩⟩
    | some c => cases h
  | succ turns ih =>
    cases p with
    | none =>
      cases h
      exact ⟨fun hb => (by cases hb), fun _ => ⟨rfl, rfl⟩⟩
    | some c =>
      obtain ⟨hwoken, hother⟩ := ih h
      -- the processes behind `c`, with the link of `c` gone
      by_cases hbc : b = c
      · subst hbc
        refine ⟨fun _ => ?_, fun hnot => absurd .here hnot⟩
        by_cases hb : Reach (Function.update links b none) (links b) b
        · exact hwoken hb
        · obtain ⟨hlink, hstatus⟩ := hother hb
          rw [hlink, hstatus, Function.update_self, Function.update_self]
          exact ⟨rfl, rfl⟩
      · have hiff : Reach links (some c) b ↔ Reach (Function.update links c none) (links c) b := by
          constructor
          · intro hb
            cases hb with
            | here => exact absurd rfl hbc
            | next hb => exact (hb.cut c).elim id id
          · exact fun hb => .next hb.of_cut
        rw [hiff]
        rw [Function.update_of_ne hbc, Function.update_of_ne hbc] at hother
        exact ⟨hwoken, hother⟩

/-! ## The scheduler -/

/-- The order in which `schedule` looks at the processes, from `proc` on. -/
inductive Walk (s : Sys) (first : Addr) : Addr → List Addr → Prop
  | nil {proc : Addr} : Walk s first proc []
  | cons {proc next : Addr} {l : List Addr} :
      (s.next proc).or (s.next first) = some next → Walk s first next l →
      Walk s first proc (next :: l)

/-- The search takes the first process that is ready, and the idle task when it comes back
to the process it started from. -/
theorem scheduleLoop_eq (h : Walk s first proc (l ++ [orig])) (horig : orig ∉ l)
    (hturns : l.length < turns) :
    scheduleLoop s first orig turns proc =
      some (((l ++ [orig]).find? fun a => s.status a = .ready).getD first) := by
  induction l generalizing proc turns with
  | nil =>
    obtain ⟨turns, rfl⟩ := Nat.exists_eq_succ_of_ne_zero (Nat.ne_of_gt hturns)
    cases h with
    | cons hnext _ =>
      rw [scheduleLoop, hnext]
      by_cases hready : s.status orig = .ready
      · simp [hready]
      · simp [hready]
  | cons b l ih =>
    obtain ⟨turns, rfl⟩ := Nat.exists_eq_succ_of_ne_zero (Nat.ne_of_gt (Nat.zero_lt_of_lt hturns))
    cases h with
    | cons hnext hrest =>
      have hne : b ≠ orig := fun heq => horig (by simp [heq])
      rw [scheduleLoop, hnext]
      by_cases hready : s.status b = .ready
      · simp [hready]
      · have htail := ih hrest (fun hmem => horig (List.mem_cons_of_mem _ hmem))
          (Nat.lt_of_succ_lt_succ hturns)
        simp [hready, hne, htail]

theorem Walk.append {l' : List Addr} (h : Walk s first proc l)
    (h' : Walk s first (l.getLast?.getD proc) l') : Walk s first proc (l ++ l') := by
  induction h with
  | nil => exact h'
  | @cons proc next l hnext _ ih =>
    rw [List.getLast?_cons, Option.getD_some] at h'
    exact .cons hnext (ih h')

theorem Walk.take {l' : List Addr} (h : Walk s first proc (l ++ l')) : Walk s first proc l := by
  induction l generalizing proc with
  | nil => exact .nil
  | cons b l ih =>
    cases h with
    | cons hnext hrest => exact .cons hnext (ih hrest)

/-- Along the process list the walk follows its links. -/
theorem walk_of_linked (h : Linked s.next (some proc) (proc :: l)) : Walk s first proc l := by
  induction l generalizing proc with
  | nil => exact .nil
  | cons b l ih =>
    obtain ⟨_, htail⟩ := h.head
    have hnext := htail.head.1
    refine .cons (by rw [hnext, Option.some_or]) (ih ?_)
    rw [hnext] at htail
    exact htail

theorem next_last (h : Linked s.next (some proc) (proc :: l)) :
    s.next (l.getLast?.getD proc) = none := by
  rcases List.eq_nil_or_concat l with rfl | ⟨l, z, rfl⟩
  · exact h.last_eq (l := [])
  · rw [List.concat_eq_append] at h
    rw [List.concat_eq_append, List.getLast?_concat, Option.getD_some]
    exact h.last_eq (l := proc :: l)

/-- The walk from a process comes back to it, by the end of the list and the process behind
the idle task. -/
theorem walk_around {before after : List Addr}
    (h : Linked s.next (some first) (first :: (before ++ orig :: after))) :
    Walk s first orig (after ++ before ++ [orig]) := by
  have hrest : Linked s.next (some orig) (orig :: after) :=
    (show Linked s.next (some first) ((first :: before) ++ orig :: after) from h).drop
  rw [List.append_assoc]
  refine Walk.append (walk_of_linked hrest) ?_
  have hlast := next_last hrest
  have hwalk : Walk s first first (before ++ [orig]) := by
    have hall : Walk s first first ((before ++ [orig]) ++ after) := by
      rw [List.append_assoc]
      exact walk_of_linked h
    exact hall.take
  -- the end of the list and the idle task have the same successor
  cases hb : before ++ [orig] with
  | nil => simp at hb
  | cons b l =>
    rw [hb] at hwalk
    cases hwalk with
    | cons hnext hmore =>
      refine .cons ?_ hmore
      rw [hlast, Option.none_or]
      rwa [Option.or_self] at hnext

/-- `schedule` takes the first process that is ready, in the order behind `orig`: the
current process, or the one behind the idle task when that is current. -/
theorem schedule_eq {before after : List Addr} (hfirst : s.procFirst = some first)
    (h : Linked s.next (some first) (first :: (before ++ orig :: after)))
    (hcurrent : s.currentProcess = orig ∨ s.currentProcess = first ∧ before = []) :
    schedule s = some (switchTo s
      (((after ++ before ++ [orig]).find? fun a => s.status a = .ready).getD first)) := by
  have hnodup := h.nodup
  have horig : orig ∉ after ++ before := by
    rw [List.nodup_cons, List.nodup_append, List.nodup_cons] at hnodup
    intro hmem
    rcases List.mem_append.mp hmem with hmem | hmem
    · exact hnodup.2.2.1.1 hmem
    · exact hnodup.2.2.2 orig hmem orig List.mem_cons_self rfl
  have hlen : (after ++ before).length < allAddrs := by
    have hle := h.length_le
    have hall : 2 ^ 32 < allAddrs := by decide
    simp only [List.length_cons, List.length_append] at hle ⊢
    omega
  have hloop := scheduleLoop_eq (walk_around h) horig hlen
  rcases hcurrent with rfl | ⟨hcurrent, rfl⟩
  · have hne : s.currentProcess ≠ first := by
      intro heq
      rw [List.nodup_cons, heq] at hnodup
      exact hnodup.1 (by simp)
    simp only [schedule, hfirst, Option.bind_eq_bind, Option.bind_some, if_neg hne, hloop,
      Option.map_some]
  · have hnext : s.next first = some orig := h.head.2.head.1
    simp only [schedule, hfirst, Option.bind_eq_bind, Option.bind_some, hcurrent, if_true, hnext,
      hloop, Option.map_some]

/-- What `schedule` does: it takes up a process of the list that is ready, or the idle
task. -/
theorem schedule_spec {second : Addr} (hfirst : s.procFirst = some first)
    (h : Linked s.next (some first) (first :: second :: l))
    (hcurrent : s.currentProcess ∈ first :: second :: l) :
    ∃ proc ∈ first :: second :: l, (proc = first ∨ s.status proc = .ready) ∧
      schedule s = some (switchTo s proc) := by
  have hpick : ∀ (before after : List Addr) (orig : Addr), second :: l = before ++ orig :: after →
      (s.currentProcess = orig ∨ s.currentProcess = first ∧ before = []) →
      ∃ proc ∈ first :: second :: l, (proc = first ∨ s.status proc = .ready) ∧
        schedule s = some (switchTo s proc) := by
    intro before after orig hl horig
    rw [hl] at h ⊢
    rw [schedule_eq hfirst h horig]
    cases hfind : (after ++ before ++ [orig]).find? fun a => s.status a = .ready with
    | none => exact ⟨first, List.mem_cons_self, .inl rfl, rfl⟩
    | some proc =>
      have hmem := List.mem_of_find?_eq_some hfind
      have hready := List.find?_some hfind
      refine ⟨proc, ?_, .inr (by simpa using hready), rfl⟩
      simp only [List.mem_append, List.mem_cons] at hmem ⊢
      tauto
  rcases List.mem_cons.mp hcurrent with hidle | hother
  · exact hpick [] l second rfl (.inr ⟨hidle, rfl⟩)
  · obtain ⟨before, after, heq⟩ := List.append_of_mem hother
    exact hpick before after _ heq (.inl rfl)

end Vmwos.Processes
