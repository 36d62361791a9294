import Vmwos.ProcessLoops
import Vmwos.Runs

/-!
# The process list

`Listed s procs` says that the `next` fields lead from `proc_first` through the processes
`procs`, and that the `prev` fields lead back. `process_insert` puts a process behind the
last one (`Listed.insert`), `process_remove` takes out any process of the list
(`Listed.remove`).

Result: `process_list_integrity`. After any sequence of creations, forks and destructions
the list has the processes that have been created and not destroyed, in this order, and
their process numbers differ. The `prev` field of the first process is not used and may be
left over from an earlier first process.
-/

namespace Vmwos.Processes

open Chains Runs

variable {s s' : Sys} {procs : List Addr} {a : Addr}

/-! ## Definitions -/

/-- The process list is `procs`. -/
structure Listed (s : Sys) (procs : List Addr) : Prop where
  linked : Linked s.next s.procFirst procs
  back : ∃ p, Backward s.prev p procs

/-- Two memories have the same PCB at an address. -/
structure SamePcb (m m' : Pcbs) (a : Addr) : Prop where
  next : m.next a = m'.next a
  prev : m.prev a = m'.prev a
  waitQueueNext : m.waitQueueNext a = m'.waitQueueNext a
  status : m.status a = m'.status a
  startTime : m.startTime a = m'.startTime a
  lastScheduled : m.lastScheduled a = m'.lastScheduled a
  totalTime : m.totalTime a = m'.totalTime a
  pid : m.pid a = m'.pid a
  exitValue : m.exitValue a = m'.exitValue a
  parent : m.parent a = m'.parent a
  stack : m.stack a = m'.stack a
  stacksize : m.stacksize a = m'.stacksize a
  text : m.text a = m'.text a
  textsize : m.textsize a = m'.textsize a

/-- The states differ in the links of the process list. -/
def Relisted (s s' : Sys) : Prop :=
  ∃ next prev procFirst, s' = { s with next := next, prev := prev, procFirst := procFirst }

theorem Listed.congr (h : Listed s procs) (hfirst : s'.procFirst = s.procFirst)
    (hagree : ∀ a ∈ procs, s'.next a = s.next a ∧ s'.prev a = s.prev a) : Listed s' procs := by
  obtain ⟨p, hback⟩ := h.back
  refine ⟨?_, p, hback.congr fun a ha => (hagree a ha).2⟩
  rw [hfirst]
  exact h.linked.congr fun a ha => (hagree a ha).1

theorem Listed.first_cons {first : Addr} {rest : List Addr} (h : Listed s (first :: rest)) :
    s.procFirst = some first :=
  h.linked.head.1

/-! ## Freed memory -/

/-- The memory of another PCB is not overwritten. -/
theorem samePcb_poisonPcb (m : Pcbs) {b : Addr} (hb : b ≠ a) : SamePcb (poisonPcb m a) m b := by
  constructor <;> exact Function.update_of_ne hb _ _

theorem Listed.poison (h : Listed s procs) {proc : Option Addr} (hproc : ∀ a ∈ procs, proc ≠ some a) :
    Listed (poison s proc) procs := by
  cases proc with
  | none => exact ⟨h.linked, h.back⟩
  | some a =>
    refine h.congr rfl fun b hb => ?_
    have hsame := samePcb_poisonPcb s.toPcbs fun heq : b = a => hproc b hb (congrArg some heq.symm)
    exact ⟨hsame.next, hsame.prev⟩

/-! ## Insertion -/

theorem Listed.insert (h : Listed s procs) (ha : a ∉ procs) (hnext : s.next a = none) :
    ∃ s', processInsert s a = some s' ∧ Relisted s s' ∧ Listed s' (procs ++ [a]) ∧
      (procs ≠ [] → s'.procFirst = s.procFirst) := by
  obtain ⟨p, hback⟩ := h.back
  have hlinked := h.linked
  rcases List.eq_nil_or_concat procs with rfl | ⟨l, z, rfl⟩
  · -- the first process
    have hfirst : s.procFirst = none := by
      generalize s.procFirst = first at hlinked
      cases hlinked
      rfl
    refine ⟨_, by rw [processInsert, hfirst], ⟨_, _, _, rfl⟩, ⟨?_, none, ?_⟩,
      fun hnil => absurd rfl hnil⟩
    · refine .cons ?_
      show Linked (Function.update s.next a none) (Function.update s.next a none a) []
      rw [Function.update_self]
      exact .nil
    · exact .cons (Function.update_self _ _ _) .nil
  · -- behind the last process
    rw [List.concat_eq_append] at ha hlinked hback ⊢
    obtain ⟨first, hfirst⟩ : ∃ first, s.procFirst = some first := by
      cases l with
      | nil => exact ⟨z, hlinked.head.1⟩
      | cons b l => exact ⟨b, hlinked.head.1⟩
    have hne : a ≠ z := fun heq => ha (by simp [heq])
    have hlast : lastLoop s allAddrs first = some z := by
      have hle := length_le_allAddrs hlinked
      rw [hfirst] at hlinked
      exact lastLoop_eq hlinked (Nat.lt_of_lt_of_le (by simp) hle)
    have hinsert : processInsert s a = some { s with
        next := Function.update (Function.update s.next z (some a)) a none
        prev := Function.update s.prev a (some z) } := by
      unfold processInsert
      split
      · next hnone =>
        rw [hfirst] at hnone
        cases hnone
      · next first' hfirst' =>
        cases hfirst.symm.trans hfirst'
        rw [hlast, Option.map_some]
    refine ⟨_, hinsert, ⟨_, _, _, rfl⟩, ⟨?_, p, ?_⟩, fun _ => rfl⟩
    · rw [List.append_assoc]
      have hsnoc := hlinked.snoc ha hnext
      have hsame : Function.update (Function.update s.next z (some a)) a none =
          Function.update s.next z (some a) := by
        rw [Function.update_eq_self_iff, Function.update_of_ne hne, hnext]
      show Linked (Function.update (Function.update s.next z (some a)) a none) s.procFirst _
      rw [hsame]
      exact hsnoc
    · rw [List.append_assoc]
      exact hback.snoc ha

/-- `process_create` sets the new PCB to its initial conditions and inserts it. -/
theorem Listed.create (h : Listed s procs) (ha : a ∉ procs) :
    ∃ s', processCreate s a = some s' ∧ Relisted (initPcb s a) s' ∧ Listed s' (procs ++ [a]) ∧
      (procs ≠ [] → s'.procFirst = s.procFirst) := by
  have hne : ∀ b ∈ procs, b ≠ a := fun b hb heq => ha (heq ▸ hb)
  have hinit : Listed (initPcb s a) procs :=
    h.congr rfl fun b hb => ⟨Function.update_of_ne (hne b hb) _ _,
      Function.update_of_ne (hne b hb) _ _⟩
  exact hinit.insert ha (Function.update_self _ _ _)

/-! ## Removal -/

theorem processRemove_notMem (h : Listed s procs) (ha : a ∉ procs) :
    processRemove s (some a) = some s := by
  have hfirst : s.procFirst ≠ some a := by
    intro heq
    cases procs with
    | nil =>
      have hlinked := h.linked
      rw [heq] at hlinked
      cases hlinked
    | cons first rest =>
      cases h.first_cons.symm.trans heq
      exact ha List.mem_cons_self
  have hfind := lookupLoop_eq h.linked (fun current => decide (current = a))
    (length_le_allAddrs h.linked)
  have hnone : (procs.find? fun current => decide (current = a)) = none := by
    rw [List.find?_eq_none]
    intro b hb heq
    exact ha (of_decide_eq_true heq ▸ hb)
  rw [hnone] at hfind
  rw [processRemove, if_neg hfirst, hfind]
  rfl

/-- The process behind `x` is taken out. -/
theorem Listed.remove_behind {before after : List Addr} {x : Addr}
    (h : Listed s (before ++ x :: a :: after)) :
    processRemove s (some a) = some (unlinkProcess s a) ∧
      Listed (unlinkProcess s a) (before ++ x :: after) := by
  obtain ⟨p, hback⟩ := h.back
  have hnodup := h.linked.nodup
  have hprev := hback.prev_eq
  constructor
  · have hne : s.procFirst ≠ some a := by
      intro heq
      cases before with
      | nil =>
        cases h.first_cons.symm.trans heq
        exact (List.nodup_cons.mp hnodup).1 List.mem_cons_self
      | cons b before =>
        cases h.first_cons.symm.trans heq
        exact (List.nodup_cons.mp hnodup).1 (by simp)
    have hfind := lookupLoop_eq h.linked (fun current => decide (current = a))
      (length_le_allAddrs h.linked)
    have hfound : ((before ++ x :: a :: after).find? fun current => decide (current = a)).isSome := by
      rw [List.find?_isSome]
      exact ⟨a, by simp, by simp⟩
    rw [processRemove, if_neg hne, hfind]
    simp only [Option.bind_eq_bind, Option.bind_some, if_pos hfound]
  · refine ⟨?_, p, ?_⟩
    · simp only [unlinkProcess, hprev]
      exact h.linked.remove
    · cases after with
      | nil =>
        have hassoc : before ++ [x, a] = (before ++ [x]) ++ [a] := by simp
        have hlinked := h.linked
        rw [hassoc] at hlinked hback
        have hlast : s.next a = none := hlinked.last_eq
        simp only [unlinkProcess, hlast]
        exact hback.take
      | cons c after =>
        have hlinked := h.linked
        rw [show before ++ x :: a :: c :: after = (before ++ [x]) ++ a :: c :: after by simp]
          at hlinked
        have hnext : s.next a = some c := hlinked.next_eq
        simp only [unlinkProcess, hnext, hprev]
        exact hback.remove hnodup

theorem erase_behind {before after : List Addr} {x : Addr}
    (hnodup : (before ++ x :: a :: after).Nodup) :
    (before ++ x :: a :: after).erase a = before ++ x :: after := by
  have hsplit : before ++ x :: a :: after = (before ++ [x]) ++ a :: after := by simp
  rw [hsplit] at hnodup ⊢
  have ha : a ∉ before ++ [x] := by
    intro hmem
    rw [List.nodup_append] at hnodup
    exact hnodup.2.2 a hmem a List.mem_cons_self rfl
  rw [List.erase_append_right _ ha, List.erase_cons_head, List.append_assoc]
  rfl

/-- `process_remove` takes out a process of the list: the first, or one behind another. -/
theorem Listed.remove (h : Listed s procs) (ha : a ∈ procs) :
    ∃ s', processRemove s (some a) = some s' ∧ Relisted s s' ∧ Listed s' (procs.erase a) ∧
      (s.procFirst ≠ some a → s'.procFirst = s.procFirst) := by
  by_cases hfirst : s.procFirst = some a
  · obtain ⟨p, hback⟩ := h.back
    cases procs with
    | nil => exact absurd ha List.not_mem_nil
    | cons first rest =>
      cases h.first_cons.symm.trans hfirst
      refine ⟨_, by rw [processRemove, if_pos hfirst], ⟨_, _, _, rfl⟩, ⟨?_, ?_⟩,
        fun hne => absurd hfirst hne⟩
      · rw [List.erase_cons_head]
        exact h.linked.head.2
      · rw [List.erase_cons_head]
        cases hback with
        | cons _ hrest => exact ⟨_, hrest⟩
  · obtain ⟨before, x, after, rfl⟩ : ∃ before x after, procs = before ++ x :: a :: after := by
      obtain ⟨l, after, rfl⟩ := List.append_of_mem ha
      rcases List.eq_nil_or_concat l with rfl | ⟨before, x, rfl⟩
      · exact absurd h.first_cons hfirst
      · exact ⟨before, x, after, by simp⟩
    obtain ⟨hremove, hlisted⟩ := h.remove_behind
    refine ⟨_, hremove, ⟨_, _, _, rfl⟩, ?_, fun _ => rfl⟩
    rw [erase_behind h.linked.nodup]
    exact hlisted

/-! ## Sequences of calls -/

/-- A call that changes the process list. For `vfork` the caller is the current process, and
the memory is what the allocator returns. -/
inductive ListCall where
  | processCreate (memory : Option Addr)
  | vfork (caller : Addr) (memory : Option Addr)
  | processDestroy (proc : Addr)

/-- The processes, with the PCBs created and not destroyed so far, in the order of their
creation, and the number of creations. -/
structure Book where
  sys : Sys
  live : List Addr
  creations : Nat

/-- The record after a creation that ends in the state `s`. -/
def Book.enter (b : Book) (a : Addr) (s : Sys) : Book := ⟨s, b.live ++ [a], b.creations + 1⟩

/-- One call. -/
def listStep (b : Book) : ListCall → Option Book
  | .processCreate none => some b
  | .processCreate (some a) => (processCreate b.sys a).map (b.enter a)
  | .vfork caller none => (vfork { b.sys with currentProcess := caller } none).map
      fun s => { b with sys := s }
  | .vfork caller (some a) => (vfork { b.sys with currentProcess := caller } (some a)).map
      (b.enter a)
  | .processDestroy a => (processDestroy b.sys (some a)).map
      fun | (s, _) => { b with sys := s, live := b.live.erase a }

/-- The memory for a PCB holds none, a destroyed process is in the list, and there are fewer
than `2 ^ 31` creations. -/
def CanCall (b : Book) : ListCall → Prop
  | .processCreate memory => ∀ a ∈ memory, a ∉ b.live ∧ b.creations + 1 < 2 ^ 31
  | .vfork _ memory => ∀ a ∈ memory, a ∉ b.live ∧ b.creations + 1 < 2 ^ 31
  | .processDestroy a => a ∈ b.live

instance (b : Book) : ∀ call, Decidable (CanCall b call)
  | .processCreate none | .vfork _ none => .isTrue fun a ha => by cases ha
  | .processCreate (some a) | .vfork _ (some a) =>
    decidable_of_iff (a ∉ b.live ∧ b.creations + 1 < 2 ^ 31) (by simp [CanCall])
  | .processDestroy a => inferInstanceAs (Decidable (a ∈ b.live))

/-- The caller of a `vfork` has not been destroyed. -/
def CallerLives (b : Book) : ListCall → Prop
  | .vfork caller _ => caller ∈ b.live
  | _ => True

/-- Following `next` enumerates the live processes, `prev` leads back to the process before,
and no two have the same number. -/
structure Intact (b : Book) : Prop where
  next : Linked b.sys.next b.sys.procFirst b.live
  prev : ∀ p ∈ b.live, b.sys.procFirst ≠ some p →
    ∃ q, b.sys.prev p = some q ∧ b.sys.next q = some p
  pids : (b.live.map b.sys.pid).Nodup

/-- The numbers in use are those of earlier creations. -/
structure BookInv (b : Book) : Prop where
  listed : Listed b.sys b.live
  avail : b.sys.availPid = UInt32.ofNat b.creations
  few : b.creations < 2 ^ 31
  given : ∀ p ∈ b.live, (b.sys.pid p).toNat < b.creations
  pids : (b.live.map b.sys.pid).Nodup

/-! ## One call -/

theorem Listed.prev_next (h : Listed s procs) {p : Addr} (hp : p ∈ procs)
    (hfirst : s.procFirst ≠ some p) : ∃ q, s.prev p = some q ∧ s.next q = some p := by
  obtain ⟨_, hback⟩ := h.back
  obtain ⟨l, after, rfl⟩ := List.append_of_mem hp
  rcases List.eq_nil_or_concat l with rfl | ⟨before, x, rfl⟩
  · exact absurd h.first_cons hfirst
  · have hsplit : before.concat x ++ p :: after = before ++ x :: p :: after := by simp
    have hlinked := h.linked
    rw [hsplit] at hback hlinked
    exact ⟨x, hback.prev_eq, hlinked.next_eq⟩

theorem BookInv.intact {b : Book} (h : BookInv b) : Intact b :=
  ⟨h.listed.linked, fun _ hp hfirst => h.listed.prev_next hp hfirst, h.pids⟩

/-- `schedule` changes the current process and the time stats. -/
theorem schedule_switches (h : schedule s = some s') : s' = s ∨ ∃ proc, s' = switchTo s proc := by
  unfold schedule at h
  cases hfirst : s.procFirst with
  | none => simp [hfirst] at h
  | some first =>
    simp only [hfirst, Option.bind_eq_bind, Option.bind_some] at h
    split at h
    · split at h
      · exact .inl (Option.some.inj h).symm
      · obtain ⟨proc, _, rfl⟩ := Option.map_eq_some_iff.mp h
        exact .inr ⟨proc, rfl⟩
    · obtain ⟨proc, _, rfl⟩ := Option.map_eq_some_iff.mp h
      exact .inr ⟨proc, rfl⟩

/-- A new process gets the next number. -/
theorem BookInv.enter {b : Book} (h : BookInv b) (ha : a ∉ b.live) (hfew : b.creations + 1 < 2 ^ 31)
    (hlisted : Listed s (b.live ++ [a])) (havail : s.availPid = b.sys.availPid + 1)
    (hpid : s.pid = Function.update b.sys.pid a b.sys.availPid) : BookInv (b.enter a s) := by
  have hold : ∀ p ∈ b.live, s.pid p = b.sys.pid p := fun p hp => by
    rw [hpid, Function.update_of_ne fun heq : p = a => ha (heq ▸ hp)]
  have hnew : s.pid a = UInt32.ofNat b.creations := by rw [hpid, Function.update_self, h.avail]
  have hnat : (s.pid a).toNat = b.creations := by
    rw [hnew, UInt32.toNat_ofNat', Nat.mod_eq_of_lt (by omega)]
  refine ⟨hlisted, ?_, hfew, fun p hp => ?_, ?_⟩
  · show s.availPid = UInt32.ofNat (b.creations + 1)
    rw [havail, h.avail, UInt32.ofNat_add]
    rfl
  · rcases List.mem_append.mp hp with hp | hp
    · rw [Book.enter, hold p hp]
      exact Nat.lt_succ_of_lt (h.given p hp)
    · rw [List.mem_singleton.mp hp, Book.enter, hnat]
      exact Nat.lt_succ_self _
  · show ((b.live ++ [a]).map s.pid).Nodup
    have hmap : b.live.map s.pid = b.live.map b.sys.pid := List.map_congr_left hold
    rw [List.map_append, hmap, List.map_singleton, List.nodup_append]
    refine ⟨h.pids, List.nodup_singleton _, fun x hx y hy heq => ?_⟩
    -- the new number is not below itself
    obtain ⟨p, hp, rfl⟩ := List.mem_map.mp hx
    have hlt := h.given p hp
    rw [heq, List.mem_singleton.mp hy, hnat] at hlt
    exact absurd hlt (Nat.lt_irrefl _)

/-- A `vfork` enters its child, if its `schedule` returns. It does when the caller is live. -/
theorem BookInv.vfork {b : Book} (h : BookInv b) (ha : a ∉ b.live)
    (hfew : b.creations + 1 < 2 ^ 31) (caller : Addr) :
    (∀ s, vfork { b.sys with currentProcess := caller } (some a) = some s → BookInv (b.enter a s)) ∧
      (caller ∈ b.live → ∃ s, vfork { b.sys with currentProcess := caller } (some a) = some s) := by
  have hlisted : Listed { b.sys with currentProcess := caller } b.live := ⟨h.listed.1, h.listed.2⟩
  obtain ⟨s₁, hcreate, ⟨next, prev, first, rfl⟩, hs₁, _⟩ := hlisted.create ha
  have hvfork : Processes.vfork { b.sys with currentProcess := caller } (some a) =
      schedule (copyPcb { initPcb { b.sys with currentProcess := caller } a with
        next := next, prev := prev, procFirst := first } a caller) := by
    rw [Processes.vfork, hcreate]
    rfl
  rw [hvfork]
  constructor
  · intro s hs
    rcases schedule_switches hs with rfl | ⟨proc, rfl⟩
    · exact h.enter ha hfew ⟨hs₁.1, hs₁.2⟩ rfl rfl
    · exact h.enter ha hfew ⟨hs₁.1, hs₁.2⟩ rfl rfl
  · intro hcaller
    have hlinked := hs₁.linked
    cases hlive : b.live with
    | nil =>
      rw [hlive] at hcaller
      exact absurd hcaller List.not_mem_nil
    | cons p rest =>
      -- the caller and the child are in the list
      obtain ⟨second, l, hl⟩ : ∃ second l, rest ++ [a] = second :: l := by
        cases rest with
        | nil => exact ⟨a, [], rfl⟩
        | cons q rest => exact ⟨q, rest ++ [a], rfl⟩
      rw [hlive, List.cons_append, hl] at hlinked
      have hfirst := hlinked.head.1
      have hmem : caller ∈ p :: second :: l := by
        rw [← hl, ← List.cons_append, ← hlive]
        exact List.mem_append_left _ hcaller
      obtain ⟨proc, _, _, hsched⟩ := schedule_spec (s := copyPcb
        { initPcb { b.sys with currentProcess := caller } a with
          next := next, prev := prev, procFirst := first } a caller) hfirst
        (hfirst ▸ hlinked) hmem
      exact ⟨_, hsched⟩

/-- One call keeps the record right, and it returns. -/
theorem bookInv_step {b : Book} (h : BookInv b) (call : ListCall) (hcan : CanCall b call) :
    (∀ b', listStep b call = some b' → BookInv b') ∧
      (CallerLives b call → ∃ b', listStep b call = some b') := by
  cases call with
  | processCreate memory =>
    cases memory with
    | none =>
      refine ⟨fun b' hb' => ?_, fun _ => ⟨b, rfl⟩⟩
      cases hb'
      exact h
    | some a =>
      obtain ⟨ha, hfew⟩ := hcan a rfl
      obtain ⟨s, hcreate, hrelisted, hlisted, _⟩ := h.listed.create ha
      have hstep : listStep b (.processCreate (some a)) = some (b.enter a s) := by
        rw [listStep, hcreate, Option.map_some]
      refine ⟨fun b' hb' => ?_, fun _ => ⟨_, hstep⟩⟩
      cases hstep.symm.trans hb'
      obtain ⟨_, _, _, rfl⟩ := hrelisted
      exact h.enter ha hfew hlisted rfl rfl
  | vfork caller memory =>
    cases memory with
    | none =>
      refine ⟨fun b' hb' => ?_, fun _ => ⟨_, rfl⟩⟩
      cases hb'
      exact ⟨⟨h.listed.1, h.listed.2⟩, h.avail, h.few, h.given, h.pids⟩
    | some a =>
      obtain ⟨ha, hfew⟩ := hcan a rfl
      obtain ⟨hafter, hreturns⟩ := h.vfork ha hfew caller
      constructor
      · intro b' hb'
        obtain ⟨s, hs, rfl⟩ := Option.map_eq_some_iff.mp hb'
        exact hafter s hs
      · intro hcaller
        obtain ⟨s, hs⟩ := hreturns hcaller
        exact ⟨_, by rw [listStep, hs, Option.map_some]⟩
  | processDestroy a =>
    obtain ⟨s, hremove, hrelisted, hlisted, _⟩ := h.listed.remove hcan
    have hstep : listStep b (.processDestroy a) =
        some { b with sys := poison s (some a), live := b.live.erase a } := by
      rw [listStep, processDestroy, hremove]
      rfl
    refine ⟨fun b' hb' => ?_, fun _ => ⟨_, hstep⟩⟩
    cases hstep.symm.trans hb'
    obtain ⟨_, _, _, rfl⟩ := hrelisted
    have hne : ∀ p ∈ b.live.erase a, p ≠ a := fun p hp =>
      (h.listed.linked.nodup.mem_erase_iff.mp hp).1
    have hpid : ∀ p ∈ b.live.erase a, Function.update b.sys.pid a poisonWord p = b.sys.pid p :=
      fun p hp => Function.update_of_ne (hne p hp) _ _
    refine ⟨hlisted.poison fun p hp heq => hne p hp (Option.some.inj heq).symm, h.avail, h.few,
      fun p hp => ?_, ?_⟩
    · show (Function.update b.sys.pid a poisonWord p).toNat < b.creations
      rw [hpid p hp]
      exact h.given p (List.mem_of_mem_erase hp)
    · show ((b.live.erase a).map (Function.update b.sys.pid a poisonWord)).Nodup
      rw [List.map_congr_left hpid]
      exact h.pids.sublist (List.erase_sublist.map _)

/-! ## Whole sequences -/

/-- In every state the process list is intact, and the calls return as long as `vfork` is
called by live processes. -/
theorem process_list_integrity (memory : Pcbs) (low : LowMemory) (calls : List ListCall)
    (hcalls : AllSteps listStep CanCall ⟨atReset memory low, [], 0⟩ calls) :
    AllStates listStep Intact ⟨atReset memory low, [], 0⟩ calls ∧
      (AllSteps listStep CallerLives ⟨atReset memory low, [], 0⟩ calls →
        ∃ b, run listStep ⟨atReset memory low, [], 0⟩ calls = some b) := by
  have hstart : BookInv ⟨atReset memory low, [], 0⟩ :=
    ⟨⟨.nil, none, .nil⟩, rfl, Nat.two_pow_pos 31, by simp, List.nodup_nil⟩
  constructor
  · exact AllStates.of_inv (fun b call b' hb hcan => (bookInv_step hb call hcan).1 b')
      (fun b hb => hb.intact) hstart hcalls
  · intro hcallers
    refine run_completes (I := BookInv) (fun b call hb hcan => ?_) hstart
      (allSteps_and.mpr ⟨hcalls, hcallers⟩)
    obtain ⟨hafter, hreturns⟩ := bookInv_step hb call hcan.1
    obtain ⟨b', hb'⟩ := hreturns hcan.2
    exact ⟨b', hb', hafter b' hb'⟩

/-- Memory that is all zero. -/
def clearMemory : Pcbs where
  next _ := none
  prev _ := none
  waitQueueNext _ := none
  status _ := .sleeping
  startTime _ := 0
  lastScheduled _ := 0
  totalTime _ := 0
  pid _ := 0
  exitValue _ := 0
  parent _ := none
  stack _ := none
  stacksize _ := 0
  text _ := none
  textsize _ := 0

def clearLow : LowMemory := ⟨.sleeping, 0, 0, none, 0, none, 0⟩

/-- A process forks twice, and is destroyed before its first child. -/
def familyCalls : List ListCall :=
  [.processCreate (some 0x100000), .vfork 0x100000 (some 0x200000), .vfork 0x100000 (some 0x300000),
    .processDestroy 0x100000, .processDestroy 0x200000]

theorem process_list_integrity_family :
    AllSteps listStep CanCall ⟨atReset clearMemory clearLow, [], 0⟩ familyCalls ∧
      AllStates listStep Intact ⟨atReset clearMemory clearLow, [], 0⟩ familyCalls := by
  have hcalls : AllSteps listStep CanCall ⟨atReset clearMemory clearLow, [], 0⟩
      familyCalls := by decide +kernel
  exact ⟨hcalls, (process_list_integrity clearMemory clearLow familyCalls hcalls).1⟩

end Vmwos.Processes
