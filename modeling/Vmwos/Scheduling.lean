import Mathlib.Data.List.Rotate
import Vmwos.ProcessList

/-!
# The choice of the scheduler

`schedule` goes round the processes behind the idle task. `searchOrder` is the order in which
it looks at them: from the one behind the current process round to the current process itself.
From the idle task it goes as if the process behind the idle task were the current one.

Result: `schedule_selects`. The search ends, and the process that runs next is the first one in
this order that is ready. It is the idle task exactly if no other process is ready.
-/

namespace Vmwos.Processes

open Chains

variable {s : Sys} {idle orig : Addr} {rest : List Addr}

/-! ## Definitions -/

/-- The process that the search ends with: the current one, or the one behind the idle task. -/
def searchEnd (current idle : Addr) (rest : List Addr) : Addr :=
  if current = idle then rest.headD idle else current

/-- The processes in the order of the search, which ends with the given one. -/
def searchOrder (rest : List Addr) (orig : Addr) : List Addr :=
  rest.rotate (rest.idxOf orig + 1)

/-- The process to run next: the first in the order that is ready, or the idle task. -/
def selected (s : Sys) (idle : Addr) (rest : List Addr) : Addr :=
  ((searchOrder rest (searchEnd s.currentProcess idle rest)).find?
    fun a => s.status a = .ready).getD idle

/-! ## The order -/

theorem searchOrder_eq {before after : List Addr} (h : (before ++ orig :: after).Nodup) :
    searchOrder (before ++ orig :: after) orig = after ++ before ++ [orig] := by
  have hnot : orig ∉ before := by
    intro hmem
    exact (List.nodup_append.mp h).2.2 orig hmem orig List.mem_cons_self rfl
  have hidx : (before ++ orig :: after).idxOf orig + 1 = (before ++ [orig]).length := by
    rw [List.idxOf_append_of_notMem hnot, List.idxOf_cons_self, List.length_append]
    rfl
  have hsplit : before ++ orig :: after = (before ++ [orig]) ++ after := by simp
  rw [searchOrder, hidx, hsplit, List.rotate_append_length_eq, List.append_assoc]

/-- The search looks at every process but the idle task. -/
theorem mem_searchOrder {a : Addr} : a ∈ searchOrder rest orig ↔ a ∈ rest :=
  List.mem_rotate

theorem selected_eq_idle_iff (hidle : idle ∉ rest) :
    selected s idle rest = idle ↔ ∀ a ∈ rest, s.status a ≠ .ready := by
  rw [selected]
  cases hfind : (searchOrder rest (searchEnd s.currentProcess idle rest)).find?
      fun a => s.status a = .ready with
  | none =>
    refine iff_of_true rfl fun a ha hready => ?_
    have hnot := List.find?_eq_none.mp hfind a (mem_searchOrder.mpr ha)
    exact hnot (decide_eq_true hready)
  | some a =>
    have ha := mem_searchOrder.mp (List.mem_of_find?_eq_some hfind)
    have hready : s.status a = .ready := of_decide_eq_true (List.find?_some hfind :)
    refine iff_of_false (fun heq => hidle ?_) fun hnone => hnone a ha hready
    rw [Option.getD_some] at heq
    exact heq ▸ ha

/-! ## The choice -/

/-- `schedule` ends and takes up the selected process. -/
theorem schedule_current (h : Linked s.next s.procFirst (idle :: rest))
    (hcurrent : s.currentProcess ∈ idle :: rest) :
    ∃ s', schedule s = some s' ∧ s'.currentProcess = selected s idle rest := by
  have hfirst := h.head.1
  rw [hfirst] at h
  have hnodup := List.nodup_cons.mp h.nodup
  by_cases hidle : s.currentProcess = idle
  · cases rest with
    | nil =>
      -- there is nothing behind the idle task, and `schedule` returns at once
      have hnext : s.next idle = none := h.last_eq (l := [])
      refine ⟨s, ?_, hidle⟩
      simp only [schedule, hfirst, Option.bind_eq_bind, Option.bind_some, if_pos hidle, hnext]
    | cons second more =>
      have hnil : second :: more = [] ++ second :: more := rfl
      have hend : searchEnd s.currentProcess idle ([] ++ second :: more) = second := if_pos hidle
      rw [hnil] at h hnodup ⊢
      refine ⟨_, schedule_eq hfirst h (.inr ⟨hidle, rfl⟩), ?_⟩
      rw [selected, hend, searchOrder_eq hnodup.2]
      rfl
  · have hmem := (List.mem_cons.mp hcurrent).resolve_left hidle
    have hend : searchEnd s.currentProcess idle rest = s.currentProcess := if_neg hidle
    obtain ⟨before, after, rfl⟩ := List.append_of_mem hmem
    refine ⟨_, schedule_eq hfirst h (.inl rfl), ?_⟩
    rw [selected, hend, searchOrder_eq hnodup.2]
    rfl

theorem selected_mem : selected s idle rest ∈ idle :: rest := by
  rw [selected]
  cases hfind : (searchOrder rest (searchEnd s.currentProcess idle rest)).find?
      fun a => s.status a = .ready with
  | none => exact List.mem_cons_self
  | some a =>
    exact List.mem_cons_of_mem _ (mem_searchOrder.mp (List.mem_of_find?_eq_some hfind))

/-- For every process list behind an idle task, every current process of the list and all
statuses, `schedule` ends and takes up the selected process. -/
theorem schedule_selects (s : Sys) (idle : Addr) (rest : List Addr)
    (h : Linked s.next s.procFirst (idle :: rest)) (hcurrent : s.currentProcess ∈ idle :: rest) :
    ∃ s', schedule s = some s' ∧ s'.currentProcess = selected s idle rest ∧
      (s'.currentProcess = idle ↔ ∀ a ∈ rest, s.status a ≠ .ready) := by
  obtain ⟨s', hsched, hselected⟩ := schedule_current h hcurrent
  refine ⟨s', hsched, hselected, ?_⟩
  rw [hselected]
  exact selected_eq_idle_iff (List.nodup_cons.mp h.nodup).1

/-- The idle task and two processes. The last one is current and goes to sleep, the other one is
ready. -/
def twoProcesses : Sys :=
  { atReset clearMemory clearLow with
    procFirst := some 0x100000
    next := fun a =>
      if a = 0x100000 then some 0x200000 else if a = 0x200000 then some 0x300000 else none
    status := fun a => if a = 0x200000 then .ready else .sleeping
    currentProcess := 0x300000 }

theorem schedule_selects_two :
    Linked twoProcesses.next twoProcesses.procFirst [0x100000, 0x200000, 0x300000] ∧
      ∃ s', schedule twoProcesses = some s' ∧ s'.currentProcess = 0x200000 := by
  have hlinked : Linked twoProcesses.next twoProcesses.procFirst
      [0x100000, 0x200000, 0x300000] := by decide
  have hselected : selected twoProcesses 0x100000 [0x200000, 0x300000] = 0x200000 := by decide
  obtain ⟨s', hsched, hcurrent, _⟩ := schedule_selects twoProcesses 0x100000
    [0x200000, 0x300000] hlinked (by simp [twoProcesses])
  exact ⟨hlinked, s', hsched, hcurrent.trans hselected⟩

end Vmwos.Processes
