import Mathlib.Algebra.Order.BigOperators.Group.List
import Vmwos.ProcessEvents

/-!
# Time accounting

`schedule` adds the ticks since `last_scheduled` to the `total_time` of the current process,
and starts the clock of the next one. Beside the state, `Clocks` counts the ticks in which
each process is the current one.

Result: `cpu_time_iff`. The `total_time` of every process is the number of its ticks, up to
the last `schedule` when it is the current process, and the times of all processes sum to no
more than the ticks since boot, exactly when every `vfork` is called by a process without
accounted time: the child starts with the `total_time` of its parent (`child_inherits_time`).
-/

namespace Vmwos.Processes

open Runs

variable {s s' : Sys} {e : Event} {a : Addr}

/-! ## Definitions -/

/-- The processes, with the number of ticks in which each has been current, the sum of the
`total_time` of destroyed processes, and the ticks since boot. -/
structure Clocks where
  sys : Sys
  ran : Addr → Nat
  past : Nat
  ticks : Nat

/-- A tick of the timer is one of the current process. A new process has none. -/
def ranAfter (x : Clocks) : Event → Addr → Nat
  | .vfork (some child) => Function.update x.ran child 0
  | .interrupt _ true => Function.update x.ran x.sys.currentProcess (x.ran x.sys.currentProcess + 1)
  | _ => x.ran

/-- The `total_time` of processes, added up. -/
def timeOf (s : Sys) (l : List Addr) : Nat := (l.map fun a => (s.totalTime a).toNat).sum

def clocksStep (x : Clocks) (e : Event) : Option Clocks :=
  (step x.sys e).map fun s =>
    { sys := s
      ran := ranAfter x e
      past := x.past + timeOf x.sys ((processes x.sys).filter (· ∉ processes s))
      ticks := x.ticks + e.ticks.toNat }

/-- The time of a process is that of its ticks: of all ticks, when it is not current, and of
those before `last_scheduled`, when it is. -/
structure Timed (s : Sys) (ran : Addr → Nat) : Prop where
  others : ∀ a ∈ processes s, a ≠ s.currentProcess → s.totalTime a = UInt32.ofNat (ran a)
  current : ∃ since ≤ ran s.currentProcess,
    s.tickCounter - s.lastScheduled s.currentProcess = UInt32.ofNat since ∧
      s.totalTime s.currentProcess = UInt32.ofNat (ran s.currentProcess - since)

/-- The times are right, and they are no more than all ticks together. -/
structure Accounts (x : Clocks) : Prop extends Timed x.sys x.ran where
  total : x.past + timeOf x.sys (processes x.sys) ≤ x.ticks

/-- A process that forks has no accounted time. -/
def ForksUntimed (x : Clocks) : Event → Prop
  | .vfork (some _) => x.sys.totalTime x.sys.currentProcess = 0
  | _ => True

/-- The ticks of all processes are among the ticks since boot. -/
structure ClocksInv (x : Clocks) : Prop extends Accounts x where
  sys : SysInv x.sys
  sum : x.past + ((processes x.sys).map x.ran).sum ≤ x.ticks

/-! ## Ticks of processes -/

theorem ofNat_toNat_le (n : Nat) : (UInt32.ofNat n).toNat ≤ n := by
  rw [UInt32.toNat_ofNat']
  exact Nat.mod_le _ _

/-- A process has no more accounted time than ticks. -/
theorem Timed.time_le {ran : Addr → Nat} (h : Timed s ran) (ha : a ∈ processes s) :
    (s.totalTime a).toNat ≤ ran a := by
  by_cases hcurrent : a = s.currentProcess
  · obtain ⟨since, hle, _, htotal⟩ := h.current
    rw [hcurrent, htotal]
    exact (ofNat_toNat_le _).trans (Nat.sub_le _ _)
  · rw [h.others a ha hcurrent]
    exact ofNat_toNat_le _

theorem sum_single_le {l : List Addr} (hl : l.Nodup) (c : Addr) (n : Nat) :
    (l.map fun a => if a = c then n else 0).sum ≤ n := by
  induction l with
  | nil => exact Nat.zero_le _
  | cons b l ih =>
    obtain ⟨hb, hl⟩ := List.nodup_cons.mp hl
    rw [List.map_cons, List.sum_cons]
    by_cases hbc : b = c
    · have hzero : (l.map fun a => if a = c then n else 0).sum = 0 := by
        refine List.sum_eq_zero fun k hk => ?_
        obtain ⟨a, ha, rfl⟩ := List.mem_map.mp hk
        have hac : a ≠ c := fun heq => hb (heq.trans hbc.symm ▸ ha)
        rw [if_neg hac]
      rw [if_pos hbc, hzero]
      exact Nat.le_refl _
    · rw [if_neg hbc, Nat.zero_add]
      exact ih hl

theorem sum_split (l l' : List Addr) (f : Addr → Nat) :
    (l.map f).sum = ((l.filter (· ∈ l')).map f).sum + ((l.filter (· ∉ l')).map f).sum := by
  have hperm := List.filter_append_perm (fun a => decide (a ∈ l')) l
  rw [← (hperm.map f).sum_eq, List.map_append, List.sum_append]
  simp only [decide_not]

/-- An event adds its tick to the current process. -/
theorem ranAfter_eq (x : Clocks) (hnew : ∀ child, e = .vfork (some child) → child ∉ processes x.sys)
    (ha : a ∈ processes x.sys) :
    ranAfter x e a = x.ran a + if a = x.sys.currentProcess then e.ticks.toNat else 0 := by
  have hquiet : e.ticks = 0 → ranAfter x e = x.ran →
      ranAfter x e a = x.ran a + if a = x.sys.currentProcess then e.ticks.toNat else 0 := by
    intro hticks hran
    rw [hran, hticks]
    split <;> rfl
  cases e with
  | vfork memory =>
    cases memory with
    | none => exact hquiet rfl rfl
    | some child =>
      have hne : a ≠ child := fun heq => hnew child rfl (heq ▸ ha)
      show Function.update x.ran child 0 a = _
      rw [Function.update_of_ne hne]
      show _ = x.ran a + if a = x.sys.currentProcess then 0 else 0
      rw [ite_self]
      rfl
  | interrupt typed timer =>
    cases timer with
    | false => exact hquiet rfl rfl
    | true =>
      show Function.update x.ran x.sys.currentProcess _ a = _
      by_cases hcurrent : a = x.sys.currentProcess
      · rw [hcurrent, Function.update_self, if_pos rfl]
        rfl
      · rw [Function.update_of_ne hcurrent, if_neg hcurrent]
        rfl
  | _ => exact hquiet rfl rfl

/-- The ticks of all processes, those destroyed by the event included, grow by its tick. -/
theorem sum_step {x : Clocks} (h : ClocksInv x) (hsys : SysInv s')
    (hE : Effect x.sys e s' (processes x.sys) (processes s'))
    (hnew : ∀ child, e = .vfork (some child) → child ∉ processes x.sys) :
    x.past + timeOf x.sys ((processes x.sys).filter (· ∉ processes s')) +
        ((processes s').map (ranAfter x e)).sum ≤ x.ticks + e.ticks.toNat := by
  obtain ⟨_, hinv⟩ := h.sys
  obtain ⟨_, hinv'⟩ := hsys
  have hnodup := hinv.linked.nodup
  have hnodup' := hinv'.linked.nodup
  -- the processes of before, destroyed or kept
  have hsplit := sum_split (processes x.sys) (processes s') x.ran
  have hgone : timeOf x.sys ((processes x.sys).filter (· ∉ processes s')) ≤
      (((processes x.sys).filter (· ∉ processes s')).map x.ran).sum :=
    List.sum_le_sum fun a ha => h.time_le (List.mem_of_mem_filter ha)
  -- the processes of after, kept or new
  have hsplit' := sum_split (processes s') (processes x.sys) (ranAfter x e)
  have hkept : ((processes s').filter (· ∈ processes x.sys)).Perm
      ((processes x.sys).filter (· ∈ processes s')) := by
    rw [List.perm_ext_iff_of_nodup (hnodup'.filter _) (hnodup.filter _)]
    intro a
    simp only [List.mem_filter, decide_eq_true_eq, and_comm]
  have hfresh : (((processes s').filter (· ∉ processes x.sys)).map (ranAfter x e)).sum = 0 := by
    refine List.sum_eq_zero fun k hk => ?_
    obtain ⟨a, ha, rfl⟩ := List.mem_map.mp hk
    obtain ⟨ha', hold⟩ := List.mem_filter.mp ha
    rcases (hE.members a).mp ha' with ⟨hold', _⟩ | rfl
    · exact absurd hold' (of_decide_eq_true hold)
    · exact Function.update_self _ _ _
  have hran : (((processes x.sys).filter (· ∈ processes s')).map (ranAfter x e)).sum =
      (((processes x.sys).filter (· ∈ processes s')).map x.ran).sum +
        (((processes x.sys).filter (· ∈ processes s')).map fun a =>
          if a = x.sys.currentProcess then e.ticks.toNat else 0).sum := by
    rw [← List.sum_map_add]
    congr 1
    exact List.map_congr_left fun a ha => ranAfter_eq x hnew (List.mem_of_mem_filter ha)
  have hcurrent := sum_single_le (hnodup.filter (· ∈ processes s')) x.sys.currentProcess
    e.ticks.toNat
  have hsum := h.sum
  rw [(hkept.map _).sum_eq] at hsplit'
  omega

/-! ## One event -/

theorem ofNat_ticks (e : Event) : UInt32.ofNat e.ticks.toNat = e.ticks := UInt32.ofNat_toNat

/-- The ticks of the current process that are not accounted yet, after the event. -/
theorem since_step {x : Clocks} {since : Nat}
    (hsince : x.sys.tickCounter - x.sys.lastScheduled x.sys.currentProcess = UInt32.ofNat since)
    (htick : s'.tickCounter = x.sys.tickCounter + e.ticks) :
    s'.tickCounter - x.sys.lastScheduled x.sys.currentProcess =
      UInt32.ofNat (since + e.ticks.toNat) := by
  rw [htick, UInt32.ofNat_add, ofNat_ticks, ← hsince]
  simp only [UInt32.sub_eq_add_neg, UInt32.add_assoc, UInt32.add_comm (-_)]

/-- The times of the processes after the event, when a new process starts at zero. -/
theorem timed_step {x : Clocks} (h : ClocksInv x) (hsys : SysInv s')
    (hE : Effect x.sys e s' (processes x.sys) (processes s'))
    (hnew : ∀ child, e = .vfork (some child) → child ∉ processes x.sys)
    (hzero : ∀ child, e = .vfork (some child) → s'.totalTime child = 0) :
    Timed s' (ranAfter x e) := by
  have hcurrent := h.sys.current_mem
  have hran : ranAfter x e x.sys.currentProcess = x.ran x.sys.currentProcess + e.ticks.toNat := by
    rw [ranAfter_eq x hnew hcurrent, if_pos rfl]
  have hother : ∀ a ∈ processes x.sys, a ≠ x.sys.currentProcess → ranAfter x e a = x.ran a := by
    intro a ha hne
    rw [ranAfter_eq x hnew ha, if_neg hne, Nat.add_zero]
  have hchild : ∀ child, e = .vfork (some child) →
      s'.totalTime child = UInt32.ofNat (ranAfter x e child) := by
    rintro child rfl
    rw [hzero child rfl]
    show 0 = UInt32.ofNat (Function.update x.ran child 0 child)
    rw [Function.update_self]
    rfl
  obtain ⟨since, hle, hsince, htotal⟩ := h.current
  have hsince' := since_step hsince hE.tick
  rcases hE.time with ⟨hsame, htimes⟩ | haccounted
  · constructor
    · intro a ha hne
      rw [hsame] at hne
      rcases (hE.members a).mp ha with hold | hfork
      · rw [(htimes a hold).1, h.others a hold.1 hne, hother a hold.1 hne]
      · exact hchild a hfork
    · have hstays : Stays x.sys e (processes x.sys) x.sys.currentProcess :=
        ⟨hcurrent, h.sys.not_reaps_current⟩
      rw [hsame, (htimes _ hstays).1, (htimes _ hstays).2, hran]
      refine ⟨since + e.ticks.toNat, Nat.add_le_add_right hle _, hsince', ?_⟩
      rw [htotal, Nat.add_sub_add_right]
  · have hall : ∀ a ∈ processes s', s'.totalTime a = UInt32.ofNat (ranAfter x e a) := by
      intro a ha
      rcases (hE.members a).mp ha with hold | hfork
      · by_cases hne : a = x.sys.currentProcess
        · rw [hne, haccounted.current, htotal, hsince', hran, ← UInt32.ofNat_add]
          congr 1
          omega
        · rw [haccounted.others a hold hne, h.others a hold.1 hne, hother a hold.1 hne]
      · exact hchild a hfork
    refine ⟨fun a ha _ => hall a ha, 0, Nat.zero_le _, ?_, ?_⟩
    · rw [haccounted.started, UInt32.sub_self]
      rfl
    · exact hall _ hsys.current_mem

/-- The condition is what the new process needs, and it keeps the times right. -/
theorem clocksStep_spec {x : Clocks} (h : ClocksInv x) (hpossible : Possible x.sys e) :
    ∃ x', clocksStep x e = some x' ∧ (ForksUntimed x e ↔ Accounts x') ∧
      (Accounts x' → ClocksInv x') := by
  obtain ⟨s', hstep, hsys, hE⟩ := step_spec h.sys hpossible.1 hpossible.2
  have hnew : ∀ child, e = .vfork (some child) → child ∉ processes x.sys := by
    rintro child rfl
    exact hpossible.1.1.2 child rfl
  have hsum := sum_step h hsys hE hnew
  refine ⟨_, by rw [clocksStep, hstep, Option.map_some], ⟨fun hfork => ?_, fun haccounts => ?_⟩,
    fun haccounts => ⟨haccounts, hsys, hsum⟩⟩
  · have hzero : ∀ child, e = .vfork (some child) → s'.totalTime child = 0 := by
      rintro child rfl
      exact hE.sets.2.2.2.2.2.trans hfork
    have htimed := timed_step h hsys hE hnew hzero
    have hle : timeOf s' (processes s') ≤ ((processes s').map (ranAfter x e)).sum :=
      List.sum_le_sum fun a ha => htimed.time_le ha
    exact ⟨htimed, Nat.le_trans (Nat.add_le_add_left hle _) hsum⟩
  · cases e with
    | vfork memory =>
      cases memory with
      | none => trivial
      | some child =>
        -- the child has run for no tick, whether it is the current process or not
        have hran : ranAfter x (.vfork (some child)) child = 0 := Function.update_self _ _ _
        show x.sys.totalTime x.sys.currentProcess = 0
        rw [← hE.sets.2.2.2.2.2]
        have htimed : Timed s' (ranAfter x (.vfork (some child))) := haccounts.toTimed
        by_cases hcurrent : child = s'.currentProcess
        · obtain ⟨since, _, _, htotal⟩ := htimed.current
          rw [← hcurrent, hran, Nat.zero_sub] at htotal
          exact htotal
        · have hmem : child ∈ processes s' := (hE.members child).mpr (.inr rfl)
          have htotal := htimed.others child hmem hcurrent
          rw [hran] at htotal
          exact htotal
    | _ => trivial

/-! ## Runs -/

/-- The accounting is right exactly when no process forks that has accounted time. -/
theorem cpu_time_iff (memory : Pcbs) (low : LowMemory) (idle init : Addr)
    (idleImage initImage : Image) (hne : idle ≠ init)
    (hboot : boot memory low idle init idleImage initImage = some s) (events : List Event)
    (hpossible : AllSteps clocksStep (fun x e => Possible x.sys e) ⟨s, fun _ => 0, 0, 0⟩ events) :
    (∃ x, run clocksStep ⟨s, fun _ => 0, 0, 0⟩ events = some x) ∧
      (AllStates clocksStep Accounts ⟨s, fun _ => 0, 0, 0⟩ events ↔
        AllSteps clocksStep ForksUntimed ⟨s, fun _ => 0, 0, 0⟩ events) := by
  have hbooted := booted_of_boot hne hboot
  have hsys : SysInv s := hbooted.inv.sysInv
  have hprocs := hbooted.inv.toLists.processes_eq
  have hzero : ∀ a ∈ processes s, s.totalTime a = 0 ∧ s.lastScheduled a = 0 := by
    rw [hprocs]
    exact hbooted.times
  have hstart : ClocksInv ⟨s, fun _ => 0, 0, 0⟩ := by
    refine ⟨⟨⟨fun a ha _ => (hzero a ha).1, 0, Nat.le_refl _, ?_, (hzero _ hsys.current_mem).1⟩, ?_⟩,
      hsys, ?_⟩
    · show s.tickCounter - s.lastScheduled s.currentProcess = 0
      rw [hbooted.tick, (hzero _ hsys.current_mem).2]
      rfl
    · show 0 + timeOf s (processes s) ≤ 0
      have hsum : timeOf s (processes s) = 0 := by
        refine List.sum_eq_zero fun k hk => ?_
        obtain ⟨a, ha, rfl⟩ := List.mem_map.mp hk
        rw [(hzero a ha).1]
        rfl
      rw [hsum]
    · show 0 + ((processes s).map fun _ => 0).sum ≤ 0
      simp
  constructor
  · refine run_completes (I := fun x => SysInv x.sys) (fun x e hx hp => ?_) hsys hpossible
    obtain ⟨s', hstep, hsys', _⟩ := step_spec hx hp.1 hp.2
    exact ⟨_, by rw [clocksStep, hstep, Option.map_some], hsys'⟩
  · exact AllStates.iff_of_inv (fun x hx => hx.toAccounts) (fun x e hx hp => clocksStep_spec hx hp)
      hstart hpossible

/-- The shell forks before its first tick. -/
def earlyForkEvents : List Event :=
  [.vfork (some 0x300000), .execve (some smallImage), .interrupt [] true, .interrupt [] true]

theorem cpu_time_iff_early :
    shellBoot = some shell ∧
      AllSteps clocksStep (fun x e => Possible x.sys e) ⟨shell, fun _ => 0, 0, 0⟩ earlyForkEvents ∧
      (AllStates clocksStep Accounts ⟨shell, fun _ => 0, 0, 0⟩ earlyForkEvents ↔
        AllSteps clocksStep ForksUntimed ⟨shell, fun _ => 0, 0, 0⟩ earlyForkEvents) := by
  have hpossible : AllSteps clocksStep (fun x e => isPossible x.sys e = true)
      ⟨shell, fun _ => 0, 0, 0⟩ earlyForkEvents := by decide +kernel
  have hpossible' := hpossible.mono fun _ _ => possible_of_isPossible
  exact ⟨shellBoot_eq, hpossible', (cpu_time_iff clearMemory clearLow 0x100000 0x200000
    smallImage smallImage (by decide) shellBoot_eq earlyForkEvents hpossible').2⟩

/-- The shell forks after one tick, and its child starts with this tick. -/
theorem child_inherits_time :
    shellBoot = some shell ∧
      AllSteps clocksStep (fun x e => Possible x.sys e) ⟨shell, fun _ => 0, 0, 0⟩
        [.interrupt [] true, .vfork (some 0x300000)] ∧
      ¬AllStates clocksStep Accounts ⟨shell, fun _ => 0, 0, 0⟩
        [.interrupt [] true, .vfork (some 0x300000)] := by
  have hpossible : AllSteps clocksStep (fun x e => isPossible x.sys e = true)
      ⟨shell, fun _ => 0, 0, 0⟩ [.interrupt [] true, .vfork (some 0x300000)] := by decide +kernel
  refine ⟨shellBoot_eq, hpossible.mono fun _ _ => possible_of_isPossible, fun haccounts => ?_⟩
  have hrun : (run clocksStep ⟨shell, fun _ => 0, 0, 0⟩
      [.interrupt [] true, .vfork (some 0x300000)]).map (fun x =>
        (x.past + timeOf x.sys (processes x.sys), x.ticks)) = some (2, 1) := by decide +kernel
  obtain ⟨x, hx, heq⟩ := Option.map_eq_some_iff.mp hrun
  simp only [Prod.mk.injEq] at heq
  have htotal := (haccounts.last hx).total
  rw [heq.1, heq.2] at htotal
  exact absurd htotal (by decide)

end Vmwos.Processes
