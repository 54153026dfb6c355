import Larva.Lib.TailQ

/-!
# The kernel: tasks, the scheduler's lists, and what tasks wait on

The state is the kernel's memory. A task is named by a number, which stands
for the address of its `struct os_task`; memory that no `os_task_init` has
written yet is zero, so that a task's state is neither ready nor asleep then.
The run list and the sleep list are tail queues that share one entry per task.
They are kept as pointers, because a task that is removed under the head of
the list it is not on damages that list, and whether this can happen is part
of what is asked of the kernel. The chains of waiters (`SLIST`) are walked
before anything is taken off them, so they are kept as lists, and taking off a
task that is not there is the run past the end that the macro makes.

A function here is what runs with interrupts off: the body of a critical
section, or a kernel function that is only called from one. Where a call goes
on after `os_sched` returns, or does something between two critical sections,
it is in several pieces, and `Threads` says how they follow each other. The
answer of a piece says whether `os_sched` is called and with what.

`os_task_init` is the part that concerns the scheduler; a stack, a name, the
sanity timer and the counters of `os_sched_ctx_sw_hook` decide nothing here.
Two fields are no part of the memory. `inserted` and `insertions` number the
insertions into the run list, so that the order of tasks of one priority can
be spoken of.
-/

namespace Larva.Os

open Crash Function

/-- `t_state`; memory that was never written is `clear`. -/
inductive TaskState where
  | clear
  | ready
  | sleep
  deriving DecidableEq, Repr

/-- `g_os_run_list` and `g_os_sleep_list`. -/
inductive ListId where
  | run
  | sleep
  deriving DecidableEq, Repr

/-- What `t_obj` can point to. -/
inductive Obj where
  | mutex (m : Nat)
  | sem (n : Nat)
  deriving DecidableEq, Repr

/-- An event: the one inside a callout, or another. -/
inductive Ev where
  | timer (c : Nat)
  | other (n : Nat)
  deriving DecidableEq, Repr

inductive OsError where
  | ok
  | einval
  | timeout
  | badMutex
  deriving DecidableEq, Repr

/-- `struct os_task`. The flags `OS_TASK_FLAG_NO_TIMEOUT`, `_SEM_WAIT` and
`_MUTEX_WAIT` are a field each. -/
structure Task where
  tPrio : Nat
  tState : TaskState
  noTimeout : Bool
  semWait : Bool
  mutexWait : Bool
  tObj : Option Obj
  tNextWakeup : Nat
  deriving DecidableEq, Repr

/-- `struct os_mutex`, without the chain of waiters. -/
structure Mutex where
  muPrio : Nat
  muLevel : Nat
  muOwner : Option Nat
  deriving DecidableEq, Repr

structure Kernel where
  tasks : Nat → Task
  /-- `g_os_task_list`. -/
  taskList : List Nat
  /-- The two heads, and `t_os_list` of every task. -/
  lists : TailQ ListId Nat
  /-- `mu_head` and `sem_head`. -/
  waiters : Obj → List Nat
  mutexes : Nat → Mutex
  semTokens : Nat → Nat
  evqTask : Nat → Option Nat
  evqList : Nat → List Ev
  evQueued : Ev → Bool
  /-- `g_callout_list`, and `c_next` of every callout. -/
  callouts : TailQ Unit Nat
  cTicks : Nat → Nat
  cEvq : Nat → Nat
  /-- `g_os_time`. -/
  time : Nat
  /-- `g_current_task`. -/
  current : Nat
  inserted : Nat → Nat
  insertions : Nat

abbrev OsM := Prog Kernel Empty

/-! ## Time -/

def osTimeoutNever : Nat := 2 ^ 32 - 1

/-- The difference of two tick counts as an `os_time_t`. -/
def tickSub (t₁ t₂ : Nat) : Nat := (t₁ + (2 ^ 32 - t₂ % 2 ^ 32)) % 2 ^ 32

/-! `OS_TIME_TICK_LT`, `_GT` and `_GEQ`: the sign of the difference taken as
an `int32_t`. -/

def tickLt (t₁ t₂ : Nat) : Bool := decide (2 ^ 31 ≤ tickSub t₁ t₂)

def tickGt (t₁ t₂ : Nat) : Bool :=
  decide (0 < tickSub t₁ t₂ ∧ tickSub t₁ t₂ < 2 ^ 31)

def tickGeq (t₁ t₂ : Nat) : Bool := decide (tickSub t₁ t₂ < 2 ^ 31)

def osTimeTick : OsM Unit :=
  Prog.modify fun k => { k with time := (k.time + 1) % 2 ^ 32 }

/-! ## Tasks and the two lists -/

def setTask (t : Nat) (f : Task → Task) (k : Kernel) : Kernel :=
  { k with tasks := update k.tasks t (f (k.tasks t)) }

def setWaiters (o : Obj) (f : List Nat → List Nat) (k : Kernel) : Kernel :=
  { k with waiters := update k.waiters o (f (k.waiters o)) }

def setMutex (m : Nat) (f : Mutex → Mutex) (k : Kernel) : Kernel :=
  { k with mutexes := update k.mutexes m (f (k.mutexes m)) }

def setTokens (n : Nat) (f : Nat → Nat) (k : Kernel) : Kernel :=
  { k with semTokens := update k.semTokens n (f (k.semTokens n)) }

def setEvqTask (e : Nat) (t : Option Nat) (k : Kernel) : Kernel :=
  { k with evqTask := update k.evqTask e t }

def onLists {α : Type} (m : Prog (TailQ ListId Nat) Empty α) : OsM α :=
  Prog.zoom Kernel.lists (fun q k => { k with lists := q }) m

/-- More rounds than a walk along a list of tasks can take. -/
def Kernel.rounds (k : Kernel) : Nat := k.taskList.length + 1

/-- Numbers an insertion. -/
def Kernel.noteInsert (t : Nat) (k : Kernel) : Kernel :=
  { k with
    inserted := update k.inserted t k.insertions
    insertions := k.insertions + 1 }

def osSchedInsert (t : Nat) : OsM OsError := do
  let k ← Prog.get
  if (k.tasks t).tState = .ready then
    onLists (TailQ.insertWhere .run
      (fun e => decide ((k.tasks t).tPrio < (k.tasks e).tPrio)) k.rounds t)
    Prog.modify (Kernel.noteInsert t)
    return .ok
  else
    return .einval

def osSchedSleep (t nticks : Nat) : OsM Unit := do
  onLists (TailQ.remove .run t)
  Prog.modify fun k => setTask t (fun τ => { τ with
    tState := .sleep, tNextWakeup := (k.time + nticks) % 2 ^ 32 }) k
  if nticks = osTimeoutNever then
    Prog.modify (setTask t fun τ => { τ with noTimeout := true })
    onLists (TailQ.insertTail .sleep t)
  else
    let k ← Prog.get
    onLists (TailQ.insertWhere .sleep (fun e => (k.tasks e).noTimeout ||
        tickGt (k.tasks e).tNextWakeup (k.tasks t).tNextWakeup) k.rounds t)

/-- `os_sched_wakeup` takes the task off the chain of what it waits on. -/
def leaveObj (t : Nat) : OsM Unit := do
  let k ← Prog.get
  match (k.tasks t).tObj with
  | some o =>
    -- An empty chain fails the assertion, any other without `t` is run off.
    Prog.assert (decide (t ∈ k.waiters o))
    Prog.modify (setWaiters o fun l => l.erase t)
    Prog.modify (setTask t fun τ => { τ with tObj := none })
  | none => pure ()

def osSchedWakeup (t : Nat) : OsM Unit := do
  let k ← Prog.get
  Prog.assert (decide ((k.tasks t).tState = .sleep))
  leaveObj t
  Prog.modify (setTask t fun τ =>
    { τ with tState := .ready, tNextWakeup := 0, noTimeout := false })
  onLists (TailQ.remove .sleep t)
  let _ ← osSchedInsert t

/-- The loop of `os_sched_os_timer_exp`. -/
def timerExpLoop (now : Nat) : Nat → Option Nat → OsM Unit
  | 0, _ => Prog.spin
  | _ + 1, none => pure ()
  | n + 1, some t => do
      let k ← Prog.get
      if (k.tasks t).noTimeout then
        pure ()
      else if tickGeq now (k.tasks t).tNextWakeup then
        osSchedWakeup t
        timerExpLoop now n (k.lists.next t)
      else
        pure ()

def osSchedOsTimerExp : OsM Unit := do
  let k ← Prog.get
  timerExpLoop k.time k.rounds (k.lists.first .sleep)

def osSchedNextTask : OsM (Option Nat) := do
  let k ← Prog.get
  return k.lists.first .run

def osSchedResort (t : Nat) : OsM Unit := do
  let k ← Prog.get
  if (k.tasks t).tState = .ready then
    onLists (TailQ.remove .run t)
    let _ ← osSchedInsert t
  else
    pure ()

/-- The choice `os_sched` makes with interrupts off: the task to switch to,
or none when it is the running one. -/
def osSched (nextT : Option Nat) : OsM (Option Nat) := do
  let k ← Prog.get
  match nextT.orElse fun _ => k.lists.first .run with
  | none => Prog.abort
  | some t => return (if t = k.current then none else some t)

def osTaskInit (t prio : Nat) : OsM Unit := do
  Prog.modify fun k => { k with
    tasks := update k.tasks t ⟨prio, .ready, false, false, false, none, 0⟩
    taskList := k.taskList ++ [t] }
  let _ ← osSchedInsert t

/-! ## Semaphores -/

/-- What a pend finds when it is called: an answer at once, or the caller was
put to sleep. -/
inductive Entry where
  | ret (rc : OsError)
  | block
  deriving DecidableEq, Repr

/-- A call of `os_sched` that follows a critical section, and its argument. -/
abbrev Resched := Option (Option Nat)

/-- The waiting task goes behind those that are as urgent. -/
def enqueue (o : Obj) (t : Nat) (k : Kernel) : Kernel :=
  setWaiters o (TailQ.insertAt (fun e => decide ((k.tasks t).tPrio < (k.tasks e).tPrio)) t) k

def osSemPend (n timeout : Nat) : OsM Entry := do
  let k ← Prog.get
  if k.semTokens n ≠ 0 then
    Prog.modify (setTokens n fun tokens => tokens - 1)
    return .ret .ok
  else if timeout = 0 then
    return .ret .timeout
  else
    Prog.modify (setTask k.current fun τ =>
      { τ with tObj := some (.sem n), semWait := true })
    Prog.modify (enqueue (.sem n) k.current)
    osSchedSleep k.current timeout
    return .block

/-- `os_sem_pend` after its critical section for a timeout. -/
def osSemPendClear : OsM Unit :=
  Prog.modify fun k => setTask k.current (fun τ => { τ with semWait := false }) k

def osSemRelease (n : Nat) : OsM Resched := do
  let k ← Prog.get
  match k.waiters (.sem n) with
  | rdy :: _ =>
    Prog.modify (setTask rdy fun τ => { τ with semWait := false })
    osSchedWakeup rdy
    let k ← Prog.get
    if (k.tasks rdy).tPrio < (k.tasks k.current).tPrio then
      return some (some rdy)
    else
      return none
  | [] =>
    Prog.modify (setTokens n fun tokens => (tokens + 1) % 2 ^ 16)
    return none

/-- The loop of the two delete calls: the waiters are woken one after the
other. That of a mutex asserts that they wait. -/
def wakeAll (o : Obj) (asserted : Bool) : Nat → OsM Unit
  | 0 => Prog.spin
  | n + 1 => do
      let k ← Prog.get
      match k.waiters o with
      | [] => pure ()
      | rdy :: _ =>
        Prog.assert (!asserted || decide ((k.tasks rdy).tObj ≠ none))
        osSchedWakeup rdy
        wakeAll o asserted n

def osSemDelete (n : Nat) : OsM Resched := do
  Prog.modify (setTokens n fun _ => 0)
  let k ← Prog.get
  match k.waiters (.sem n) with
  | rdy :: _ =>
    let resched := decide ((k.tasks rdy).tPrio < (k.tasks k.current).tPrio)
    wakeAll (.sem n) false k.rounds
    -- `rdy` is `NULL` when the loop ends, and that is what is passed on.
    return (if resched then some none else none)
  | [] => return none

/-! ## Mutexes -/

/-- A new priority, and the place in the run list that goes with it. -/
def changePrio (t prio : Nat) : OsM Unit := do
  Prog.modify (setTask t fun τ => { τ with tPrio := prio })
  osSchedResort t

/-- `os_mutex_pend` changes the priority of the owner if needed. -/
def boostOwner (owner : Nat) : OsM Unit := do
  let k ← Prog.get
  if (k.tasks k.current).tPrio < (k.tasks owner).tPrio then
    changePrio owner (k.tasks k.current).tPrio
  else
    pure ()

/-- The owner gets back the priority the mutex has kept. -/
def restorePrio (m owner : Nat) : OsM Unit := do
  let k ← Prog.get
  if (k.tasks owner).tPrio ≠ (k.mutexes m).muPrio then
    changePrio owner (k.mutexes m).muPrio
  else
    pure ()

def osMutexPend (m timeout : Nat) : OsM Entry := do
  let k ← Prog.get
  let mu := k.mutexes m
  if mu.muLevel = 0 then
    Prog.modify (setMutex m fun _ =>
      ⟨(k.tasks k.current).tPrio, 1, some k.current⟩)
    return .ret .ok
  else if mu.muOwner = some k.current then
    Prog.modify (setMutex m fun mu =>
      { mu with muLevel := (mu.muLevel + 1) % 2 ^ 16 })
    return .ret .ok
  else if timeout = 0 then
    return .ret .timeout
  else
    match mu.muOwner with
    | none => Prog.abort
    | some owner =>
      boostOwner owner
      Prog.modify (enqueue (.mutex m) k.current)
      Prog.modify (setTask k.current fun τ =>
        { τ with tObj := some (.mutex m), mutexWait := true })
      osSchedSleep k.current timeout
      return .block

/-- `os_mutex_pend` in its second critical section. -/
def osMutexPendClear : OsM Unit :=
  Prog.modify fun k =>
    setTask k.current (fun τ => { τ with mutexWait := false }) k

/-- `os_mutex_pend` reads its answer. -/
def osMutexPendResult (m : Nat) : OsM OsError := do
  let k ← Prog.get
  return (if (k.mutexes m).muOwner = some k.current then .ok else .timeout)

/-- `os_mutex_release` tests whether the caller holds the mutex. -/
def osMutexReleaseOwned (m : Nat) : OsM Bool := do
  let k ← Prog.get
  return !(decide ((k.mutexes m).muLevel = 0) || decide ((k.mutexes m).muOwner ≠ some k.current))

/-- `os_mutex_release` takes one off the level; true when others are left. -/
def osMutexReleaseLevel (m : Nat) : OsM Bool := do
  Prog.modify (setMutex m fun mu =>
    { mu with muLevel := (mu.muLevel + (2 ^ 16 - 1)) % 2 ^ 16 })
  let k ← Prog.get
  return decide ((k.mutexes m).muLevel ≠ 0)

/-- The mutex goes to the first of its waiters, or to nobody. -/
def handOver (m : Nat) : OsM Unit := do
  let k ← Prog.get
  match k.waiters (.mutex m) with
  | rdy :: _ =>
    Prog.assert (decide ((k.tasks rdy).tObj ≠ none))
    osSchedWakeup rdy
    let k ← Prog.get
    Prog.modify (setMutex m fun _ => ⟨(k.tasks rdy).tPrio, 1, some rdy⟩)
  | [] =>
    Prog.modify (setMutex m fun mu => { mu with muOwner := none })

/-- Whether the running task is still the first of the run list. -/
def reschedIfBehind : OsM Resched := do
  let k ← Prog.get
  let rdy ← osSchedNextTask
  if rdy ≠ some k.current then
    return some rdy
  else
    return none

/-- The critical section of `os_mutex_release`. -/
def osMutexReleaseHand (m : Nat) : OsM Resched := do
  let k ← Prog.get
  restorePrio m k.current
  handOver m
  reschedIfBehind

/-- `os_mutex_release` from the level on. -/
def osMutexReleaseRest (m : Nat) : OsM Resched := do
  let nested ← osMutexReleaseLevel m
  if nested then return none else osMutexReleaseHand m

/-- `os_mutex_delete` restores the priority of an owner. -/
def restoreOwner (m : Nat) : OsM Unit := do
  let k ← Prog.get
  if (k.mutexes m).muLevel ≠ 0 then
    match (k.mutexes m).muOwner with
    | none => Prog.abort
    | some owner => restorePrio m owner
  else
    pure ()

def osMutexDelete (m : Nat) : OsM Resched := do
  restoreOwner m
  let k ← Prog.get
  wakeAll (.mutex m) true k.rounds
  reschedIfBehind

/-! ## Event queues -/

/-- `os_eventq_put2`; true when a task was woken. -/
def osEventqPut2 (e : Nat) (ev : Ev) : OsM Bool := do
  let k ← Prog.get
  if k.evQueued ev then
    return false
  else
    Prog.modify fun k => { k with
      evQueued := update k.evQueued ev true
      evqList := update k.evqList e (k.evqList e ++ [ev]) }
    match k.evqTask e with
    | some t =>
      osSchedWakeup t
      Prog.modify (setEvqTask e none)
      return true
    | none => return false

/-- `os_eventq_get` from `pull_one` on: the event, or none when the caller
was put to sleep. -/
def osEventqGet (e : Nat) : OsM (Option Ev) := do
  let k ← Prog.get
  match k.evqList e with
  | ev :: evs =>
    Prog.modify fun k => { k with
      evqList := update k.evqList e evs
      evQueued := update k.evQueued ev false }
    return some ev
  | [] =>
    Prog.modify (setEvqTask e (some k.current))
    osSchedSleep k.current osTimeoutNever
    return none

/-- `os_eventq_get` when `os_sched` has returned. -/
def osEventqGetAgain (e : Nat) : OsM (Option Ev) := do
  Prog.modify (setEvqTask e none)
  osEventqGet e

/-- `os_eventq_remove` takes a queued event off the queue. -/
def dequeue (e : Nat) (ev : Ev) : OsM Unit := do
  let k ← Prog.get
  if k.evQueued ev then
    -- The walk of `STAILQ_REMOVE` ends at the event or runs off the queue.
    Prog.assert (decide (ev ∈ k.evqList e))
    Prog.modify fun k => { k with
      evqList := update k.evqList e ((k.evqList e).erase ev) }
  else
    pure ()

def osEventqRemove (e : Nat) (ev : Ev) : OsM Unit := do
  dequeue e ev
  Prog.modify fun k => { k with
    evQueued := update k.evQueued ev false }

/-! ## Delays -/

/-- `os_time_delay`; true when the caller was put to sleep. -/
def osTimeDelay (osticks : Int) : OsM Bool := do
  if 0 < osticks then
    let k ← Prog.get
    osSchedSleep k.current osticks.toNat
    return true
  else
    return false

end Larva.Os
