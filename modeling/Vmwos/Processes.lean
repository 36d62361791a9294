import Mathlib.Tactic.Linarith
import Vmwos.Console

/-!
# Processes

The process control blocks and everything that changes their state: `process.c`,
`scheduler.c`, `waitqueue.c`, `waitpid.c`, `vfork.c`, `exit.c`, the system call dispatcher
around `execve`, `nanosleep.c`, the timer of `sp804_timer.c` and the reading side of
`console_io.c`.

A PCB is known by its address; the null pointer is `none`. Every field of
`struct process_control_block_type` is a function of the address. PCBs of destroyed
processes are part of these functions too: `memory_free` overwrites them (`poison`), and their
memory may change at any time after that (`Event.reuse`). The programs and the stacks that are
freed with them hold no PCB.

A system call runs to the `schedule` in it and leaves the processor to another process.
What a process does when it runs again is kept in `kernel`: it returns to the user program,
or it goes on in the loop it waits in (`Event.resume`). Memory for a PCB or a program
comes from the allocator, whose answer is part of the event. A loop over a chain of
pointers has as many turns as there are addresses, and one that needs more never ends.
-/

namespace Vmwos.Processes

open Console (Input)

/-! ## State -/

/-- The address of a PCB. -/
abbrev Addr := UInt32

/-- Enough turns for any loop that ends. -/
def allAddrs : Nat := 2 ^ 33

/-- `PROCESS_STATUS_SLEEPING` and so on. Memory that holds no process can read as any other
word. -/
inductive Status where
  | sleeping
  | ready
  | exited
  | other
  deriving DecidableEq

/-- The fields of `struct process_control_block_type`. -/
structure Pcbs where
  next : Addr → Option Addr
  prev : Addr → Option Addr
  waitQueueNext : Addr → Option Addr
  status : Addr → Status
  startTime : Addr → UInt32
  lastScheduled : Addr → UInt32
  totalTime : Addr → UInt32
  pid : Addr → UInt32
  exitValue : Addr → UInt32
  parent : Addr → Option Addr
  stack : Addr → Option Addr
  stacksize : Addr → UInt32
  text : Addr → Option Addr
  textsize : Addr → UInt32

/-- The wait queues: `waitpid_wait_queue`, `console_wait_queue`, `timer_wait_queue`. -/
inductive Queue where
  | waitpid
  | console
  | timer
  deriving DecidableEq

/-- What a process does when it runs next: the user program, or the waiting loop of a
system call with its local variables. -/
inductive Kernel where
  | user
  | waitpid (pid : UInt32) (proc : Option Addr)
  | consoleRead (count : UInt32)
  | nanosleep (endTime : UInt32)
  deriving DecidableEq

/-- The queue that the loop waits on. -/
def Kernel.queue : Kernel → Option Queue
  | .user => none
  | .waitpid _ _ => some .waitpid
  | .consoleRead _ => some .console
  | .nanosleep _ => some .timer

/-- The fields that a null pointer to a PCB leads to, in low memory. -/
structure LowMemory where
  status : Status
  pid : UInt32
  exitValue : UInt32
  stack : Option Addr
  stacksize : UInt32
  text : Option Addr
  textsize : UInt32

/-- The PCBs and the variables of the kernel. -/
structure Sys extends Pcbs where
  procFirst : Option Addr
  currentProcess : Addr
  availPid : UInt32
  waitQueue : Queue → Option Addr
  input : Input
  schedulingEnabled : Bool
  tickCounter : UInt32
  timerNextWakeup : UInt32
  kernel : Addr → Kernel
  low : LowMemory

/-- `proc->status`. -/
def statusOf (s : Sys) : Option Addr → Status
  | none => s.low.status
  | some a => s.status a

/-- `proc->pid`. -/
def pidOf (s : Sys) : Option Addr → UInt32
  | none => s.low.pid
  | some a => s.pid a

/-- `proc->exit_value`. -/
def exitValueOf (s : Sys) : Option Addr → UInt32
  | none => s.low.exitValue
  | some a => s.exitValue a

/-- Setting `proc->status`. -/
def setStatus (s : Sys) (proc : Addr) (status : Status) : Sys :=
  { s with status := Function.update s.status proc status }

/-- The process goes on with the given code when it runs next. -/
def setKernel (s : Sys) (proc : Addr) (k : Kernel) : Sys :=
  { s with kernel := Function.update s.kernel proc k }

/-! ## The scheduler -/

/-- The search of `schedule` from `proc` on. -/
def scheduleLoop (s : Sys) (first orig : Addr) : Nat → Addr → Option Addr
  | 0, _ => none
  | turns + 1, proc =>
    -- off the end the search goes on behind the idle task
    match (s.next proc).or (s.next first) with
    | none => some first
    | some proc =>
      if s.status proc = .ready then some proc
      else if proc = orig then some first
      else scheduleLoop s first orig turns proc

/-- The time stats of `schedule`, and `process_switch`. -/
def switchTo (s : Sys) (proc : Addr) : Sys :=
  let current := s.currentProcess
  { s with
    totalTime := Function.update s.totalTime current
      (s.totalTime current + (s.tickCounter - s.lastScheduled current))
    lastScheduled := Function.update s.lastScheduled proc s.tickCounter
    currentProcess := proc }

/-- `schedule`. -/
def schedule (s : Sys) : Option Sys := do
  let first ← s.procFirst
  if s.currentProcess = first then
    match s.next first with
    | none => some s
    | some proc => (scheduleLoop s first proc allAddrs proc).map (switchTo s)
  else
    (scheduleLoop s first s.currentProcess allAddrs s.currentProcess).map (switchTo s)

/-! ## Wait queues -/

/-- The search of `wait_queue_add` for the end of the queue: the links after it. -/
def addLoop (links : Addr → Option Addr) (proc : Addr) : Nat → Addr → Option (Addr → Option Addr)
  | 0, _ => none
  | turns + 1, next =>
    if next = proc then some links
    else
      match links next with
      | none => some (Function.update links next (some proc))
      | some next => addLoop links proc turns next

/-- `wait_queue_add` up to its `schedule`. -/
def enqueue (s : Sys) (queue : Queue) (proc : Addr) : Option Sys :=
  match s.waitQueue queue with
  | none => some { s with waitQueue := Function.update s.waitQueue queue (some proc) }
  | some first => (addLoop s.waitQueueNext proc allAddrs first).map fun links =>
      { s with waitQueueNext := links }

/-- `wait_queue_add`. -/
def waitQueueAdd (s : Sys) (queue : Queue) (proc : Addr) : Option Sys := do
  let s ← enqueue s queue proc
  schedule (setStatus s proc .sleeping)

/-- The loop of `wait_queue_wake`: the links and the statuses after it. -/
def wakeLoop : Nat → (Addr → Option Addr) → (Addr → Status) → Option Addr →
    Option ((Addr → Option Addr) × (Addr → Status))
  | _, links, status, none => some (links, status)
  | 0, _, _, some _ => none
  | turns + 1, links, status, some proc =>
    wakeLoop turns (Function.update links proc none) (Function.update status proc .ready)
      (links proc)

/-- `wait_queue_wake`. -/
def waitQueueWake (s : Sys) (queue : Queue) : Option Sys :=
  (wakeLoop allAddrs s.waitQueueNext s.status (s.waitQueue queue)).map fun
    | (links, status) => { s with
        waitQueueNext := links
        status := status
        waitQueue := Function.update s.waitQueue queue none }

/-! ## The process list -/

/-- The first process from a pointer on that meets the test. -/
def lookupLoop (s : Sys) (test : Addr → Bool) : Nat → Option Addr → Option (Option Addr)
  | _, none => some none
  | 0, some _ => none
  | turns + 1, some proc =>
    if test proc then some (some proc) else lookupLoop s test turns (s.next proc)

/-- `process_lookup`. -/
def processLookup (s : Sys) (pid : UInt32) : Option (Option Addr) :=
  lookupLoop s (fun proc => s.pid proc = pid) allAddrs s.procFirst

/-- `process_lookup_child`. -/
def processLookupChild (s : Sys) (caller : Addr) : Option (Option Addr) :=
  lookupLoop s (fun proc => proc ≠ caller ∧ s.parent proc = some caller) allAddrs s.procFirst

/-- The search of `process_insert` for the last process. -/
def lastLoop (s : Sys) : Nat → Addr → Option Addr
  | 0, _ => none
  | turns + 1, last =>
    match s.next last with
    | none => some last
    | some next => lastLoop s turns next

/-- `process_insert`. -/
def processInsert (s : Sys) (proc : Addr) : Option Sys :=
  match s.procFirst with
  | none => some { s with
      procFirst := some proc
      next := Function.update s.next proc none
      prev := Function.update s.prev proc none }
  | some first => (lastLoop s allAddrs first).map fun last => { s with
      next := Function.update (Function.update s.next last (some proc)) proc none
      prev := Function.update s.prev proc (some last) }

/-- What `process_remove` does when it has found the process. -/
def unlinkProcess (s : Sys) (proc : Addr) : Sys :=
  let next := match s.prev proc with
    | none => s.next
    | some prev => Function.update s.next prev (s.next proc)
  let prev := match s.next proc with
    | none => s.prev
    | some next => Function.update s.prev next (s.prev proc)
  { s with next := next, prev := prev }

/-- `process_remove`. The null pointer is never found. -/
def processRemove (s : Sys) : Option Addr → Option Sys
  | none => some s
  | some proc =>
    if s.procFirst = some proc then some { s with procFirst := s.next proc }
    else do
      let found ← lookupLoop s (fun current => current = proc) allAddrs s.procFirst
      if found.isSome then some (unlinkProcess s proc) else some s

/-- A new PCB: cleared to zero, and set to its initial conditions. -/
def initPcb (s : Sys) (proc : Addr) : Sys :=
  { s with
    next := Function.update s.next proc none
    prev := Function.update s.prev proc none
    waitQueueNext := Function.update s.waitQueueNext proc none
    exitValue := Function.update s.exitValue proc 0
    parent := Function.update s.parent proc none
    status := Function.update s.status proc .sleeping
    startTime := Function.update s.startTime proc s.tickCounter
    lastScheduled := Function.update s.lastScheduled proc s.tickCounter
    totalTime := Function.update s.totalTime proc 0
    pid := Function.update s.pid proc s.availPid
    availPid := s.availPid + 1
    stack := Function.update s.stack proc none
    stacksize := Function.update s.stacksize proc 0
    text := Function.update s.text proc none
    textsize := Function.update s.textsize proc 0
    kernel := Function.update s.kernel proc .user }

/-- `process_create` at the address that the allocator returns. -/
def processCreate (s : Sys) (proc : Addr) : Option Sys := processInsert (initPcb s proc) proc

/-- `sizeof(struct process_control_block_type)`. -/
def pcbSize : UInt32 := 8192

/-- The calls of `memory_free` that `process_destroy` makes. -/
def freedBlocks (s : Sys) : Option Addr → List (Addr × UInt32)
  | none =>
    (s.low.stack.map fun stack => (stack, s.low.stacksize)).toList ++
      (s.low.text.map fun text => (text, s.low.textsize)).toList ++ [(0, pcbSize)]
  | some proc =>
    ((s.stack proc).map fun stack => (stack, s.stacksize proc)).toList ++
      ((s.text proc).map fun text => (text, s.textsize proc)).toList ++ [(proc, pcbSize)]

/-- A word of the memory that `memory_free` has overwritten with `'V'`. -/
def poisonWord : UInt32 := 0x56565656

/-- The `memset` of `memory_free`, for a PCB. -/
def poisonPcb (m : Pcbs) (proc : Addr) : Pcbs where
  next := Function.update m.next proc (some poisonWord)
  prev := Function.update m.prev proc (some poisonWord)
  waitQueueNext := Function.update m.waitQueueNext proc (some poisonWord)
  status := Function.update m.status proc .other
  startTime := Function.update m.startTime proc poisonWord
  lastScheduled := Function.update m.lastScheduled proc poisonWord
  totalTime := Function.update m.totalTime proc poisonWord
  pid := Function.update m.pid proc poisonWord
  exitValue := Function.update m.exitValue proc poisonWord
  parent := Function.update m.parent proc (some poisonWord)
  stack := Function.update m.stack proc (some poisonWord)
  stacksize := Function.update m.stacksize proc poisonWord
  text := Function.update m.text proc (some poisonWord)
  textsize := Function.update m.textsize proc poisonWord

/-- The same for low memory. -/
def poisonLow : LowMemory :=
  ⟨.other, poisonWord, poisonWord, some poisonWord, poisonWord, some poisonWord, poisonWord⟩

/-- The `memory_free` of the PCB in `process_destroy`. -/
def poison (s : Sys) : Option Addr → Sys
  | none => { s with low := poisonLow }
  | some proc => { s with toPcbs := poisonPcb s.toPcbs proc }

/-- `process_destroy`: the processes after it, and the memory that it frees. -/
def processDestroy (s : Sys) (proc : Option Addr) : Option (Sys × List (Addr × UInt32)) :=
  (processRemove s proc).map fun s' => (poison s' proc, freedBlocks s proc)

/-! ## System calls -/

/-- What `vfork` does to the new PCB: it is a copy of the parent's, all but `pid`, `prev`,
`next` and what is set again. -/
def copyPcb (s : Sys) (child parent : Addr) : Sys :=
  { s with
    waitQueueNext := Function.update s.waitQueueNext child (s.waitQueueNext parent)
    startTime := Function.update s.startTime child (s.startTime parent)
    lastScheduled := Function.update s.lastScheduled child (s.lastScheduled parent)
    totalTime := Function.update s.totalTime child (s.totalTime parent)
    exitValue := Function.update s.exitValue child (s.exitValue parent)
    stacksize := Function.update s.stacksize child (s.stacksize parent)
    textsize := Function.update s.textsize child (s.textsize parent)
    parent := Function.update s.parent child (some parent)
    stack := Function.update s.stack child none
    text := Function.update s.text child none
    status := Function.update (Function.update s.status parent .sleeping) child .ready }

/-- `vfork`. Without memory for a PCB it returns -1. -/
def vfork (s : Sys) : Option Addr → Option Sys
  | none => some s
  | some child => do
    let s' ← processCreate s child
    schedule (copyPcb s' child s.currentProcess)

/-- The memory that `execve` gets for a program and its stack. -/
structure Image where
  text : Addr
  textsize : UInt32
  stack : Addr
  stacksize : UInt32

/-- What a successful `execve` sets in the PCB. -/
def loadImage (s : Sys) (image : Image) : Sys :=
  let current := s.currentProcess
  { s with
    text := Function.update s.text current (some image.text)
    textsize := Function.update s.textsize current image.textsize
    stack := Function.update s.stack current (some image.stack)
    stacksize := Function.update s.stacksize current image.stacksize }

/-- `SYSCALL_EXECVE`, for an `execve` that loads the image or fails: in both cases the
parent is woken. -/
def execve (s : Sys) (image : Option Image) : Option Sys :=
  let s := match image with
    | none => s
    | some image => loadImage s image
  match s.parent s.currentProcess with
  | none => schedule { s with low := { s.low with status := .ready } }
  | some parent => schedule (setStatus s parent .ready)

/-- `exit`. -/
def exit (s : Sys) (status : UInt32) : Option Sys := do
  let current := s.currentProcess
  let s := { setStatus s current .exited with
    exitValue := Function.update s.exitValue current status }
  let s ← waitQueueWake s .waitpid
  schedule s

/-- `WNOHANG`. -/
def wNOHANG : UInt32 := 1
/-- `-ECHILD`. -/
def eCHILD : UInt32 := -10
/-- `-ENODEV`. -/
def eNODEV : UInt32 := -19

/-- What `waitpid` returns, and the exit value that it stores. -/
structure WaitResult where
  value : UInt32
  wstatus : Option UInt32

/-- The loop of `waitpid` and what follows it. There is no result while it waits. -/
def waitpidLoop (s : Sys) (pid : UInt32) (proc : Option Addr) :
    Option (Sys × Option WaitResult) :=
  if statusOf s proc = .exited then
    (processDestroy (setKernel s s.currentProcess .user) proc).map fun
      | (s', _) => (s', some ⟨pid, some (exitValueOf s proc)⟩)
  else
    (waitQueueAdd (setKernel s s.currentProcess (.waitpid pid proc)) .waitpid
      s.currentProcess).map fun s' => (s', none)

/-- What `waitpid` does with the process that it has found, or not. -/
def waitpidOn (s : Sys) (pid options : UInt32) (proc : Option Addr) :
    Option (Sys × Option WaitResult) :=
  if options = wNOHANG then
    if statusOf s proc = .exited then
      (processDestroy s proc).map fun
        | (s', _) => (s', some ⟨pidOf s proc, some (exitValueOf s proc)⟩)
    else some (s, some ⟨0, none⟩)
  else waitpidLoop s pid proc

/-- `waitpid`. -/
def waitpid (s : Sys) (pid options : UInt32) : Option (Sys × Option WaitResult) := do
  if pid = -1 then
    match ← processLookupChild s s.currentProcess with
    | none => some (s, some ⟨eCHILD, none⟩)
    | some proc => waitpidOn s pid options (some proc)
  else if 2 ^ 31 ≤ pid.toNat then some (s, some ⟨eNODEV, none⟩)
  else waitpidOn s pid options (← processLookup s pid)

/-- `console_read`: the characters that it stores, none while it waits. -/
def consoleRead (s : Sys) (count : UInt32) : Option (Sys × Option (List UInt8)) :=
  if s.input.Empty then
    (waitQueueAdd (setKernel s s.currentProcess (.consoleRead count)) .console
      s.currentProcess).map fun s' => (s', none)
  else
    let (chs, input) := s.input.getChars count.toNat
    some ({ setKernel s s.currentProcess .user with input := input }, some chs)

/-- `timer_sleep_until`. -/
def timerSleepUntil (s : Sys) (time : UInt32) : Option Sys :=
  let wakeup :=
    if s.timerNextWakeup = 0 then time
    else if time < s.timerNextWakeup then time
    else s.timerNextWakeup
  waitQueueAdd { s with timerNextWakeup := wakeup } .timer s.currentProcess

/-- The loop of `nanosleep`. -/
def nanosleepLoop (s : Sys) (endTime : UInt32) : Option Sys :=
  if s.tickCounter ≤ endTime then
    timerSleepUntil (setKernel s s.currentProcess (.nanosleep endTime)) endTime
  else some (setKernel s s.currentProcess .user)

/-- `end_time` of `nanosleep`. -/
def endTimeOf (s : Sys) (seconds ns : UInt32) : UInt32 :=
  s.tickCounter + ((ns / 1000000) * 64 / 1000 + seconds * 64)

/-! ## Interrupts -/

/-- `console_insert_char`. -/
def consoleInsertChar (s : Sys) (ch : UInt8) : Option Sys :=
  match s.input.insertChar ch with
  | none => some s
  | some input =>
    waitQueueWake { s with
      input := input
      schedulingEnabled := if ch = 26 then !s.schedulingEnabled else s.schedulingEnabled } .console

/-- The serial interrupt: the characters that have arrived. -/
def serialInterruptHandler (s : Sys) : List UInt8 → Option Sys
  | [] => some s
  | ch :: chs => (consoleInsertChar s ch).bind fun s => serialInterruptHandler s chs

/-- `timer_interrupt_handler`. -/
def timerInterruptHandler (s : Sys) : Option Sys :=
  let s := { s with tickCounter := s.tickCounter + 1 }
  if s.timerNextWakeup ≠ 0 ∧ s.tickCounter > s.timerNextWakeup then
    waitQueueWake { s with timerNextWakeup := 0 } .timer
  else some s

/-- `interrupt_handler_c`, with the characters that have arrived and whether the timer has
fired. -/
def interruptHandler (s : Sys) (typed : List UInt8) (timer : Bool) : Option Sys := do
  let s ← serialInterruptHandler s typed
  let s ← if timer then timerInterruptHandler s else some s
  if s.schedulingEnabled then schedule s else some s

/-! ## Steps -/

/-- A system call of the current process, the loop that it goes on with, an interrupt, or
a change of the memory that holds no process. -/
inductive Event where
  | vfork (memory : Option Addr)
  | execve (image : Option Image)
  | exit (status : UInt32)
  | waitpid (pid options : UInt32)
  | consoleRead (count : UInt32)
  | nanosleep (seconds ns : UInt32)
  | resume
  | interrupt (typed : List UInt8) (timer : Bool)
  | reuse (memory : Pcbs)

/-- The current process goes on in the loop it waits in. -/
def resume (s : Sys) : Option Sys :=
  match s.kernel s.currentProcess with
  | .user => some s
  | .waitpid pid proc => (waitpidLoop s pid proc).map Prod.fst
  | .consoleRead count => (consoleRead s count).map Prod.fst
  | .nanosleep endTime => nanosleepLoop s endTime

/-- One step. -/
def step (s : Sys) : Event → Option Sys
  | .vfork memory => vfork s memory
  | .execve image => execve s image
  | .exit status => exit s status
  | .waitpid pid options => (waitpid s pid options).map Prod.fst
  | .consoleRead count => (consoleRead s count).map Prod.fst
  | .nanosleep seconds ns => nanosleepLoop s (endTimeOf s seconds ns)
  | .resume => resume s
  | .interrupt typed timer => interruptHandler s typed timer
  | .reuse memory => some { s with toPcbs := memory }

/-! ## Boot -/

/-- Before the first process. -/
def atReset (memory : Pcbs) (low : LowMemory) : Sys :=
  { memory with
    procFirst := none
    currentProcess := 0
    availPid := 0
    waitQueue := fun _ => none
    input := ⟨fun _ => 0, 0, 0⟩
    schedulingEnabled := true
    tickCounter := 0
    timerNextWakeup := 0
    kernel := fun _ => .user
    low := low }

/-- `create_idle_task`. -/
def createIdleTask (s : Sys) (idle : Addr) (image : Image) : Option Sys :=
  (processCreate s idle).map fun s => { setStatus s idle .ready with
    text := Function.update s.text idle (some image.text)
    stack := Function.update s.stack idle (some image.stack) }

/-- `start_userspace`, for an `execve` of the shell that succeeds. -/
def startUserspace (s : Sys) (init : Addr) (image : Image) : Option Sys :=
  (processCreate s init).map fun s =>
    let s := { s with
      currentProcess := init
      parent := Function.update s.parent init (some init) }
    setStatus (loadImage s image) init .ready

/-- The state in which the shell enters user space. -/
def boot (memory : Pcbs) (low : LowMemory) (idle init : Addr) (idleImage initImage : Image) :
    Option Sys := do
  let s ← createIdleTask (atReset memory low) idle idleImage
  startUserspace s init initImage

end Vmwos.Processes
