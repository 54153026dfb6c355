import Larva.Os.Kernel

/-!
# Tasks that interrupt each other

The pieces of `Kernel` run with interrupts off. Here they are put together to
the calls, and the calls of all tasks to one system. A step is what happens
between two points where an interrupt can come in: the running task makes a
call up to the end of its first critical section, or goes on from where it
was, or an interrupt handler runs. After every step any of the three may
follow, so the runs of the system are all interleavings.

Where a task is inside a call is its `Pc`. The points that matter are those
at which a call has left a critical section and still relies on what it saw
there: the task that `os_sched` is to switch to has been chosen but the switch
is still to come (`sched`, `switch`), the level of a mutex has been taken to
zero but the mutex has not been passed on (`relWindow`), a waiter has been
woken but has not read its answer.

An interrupt handler may count a tick and expire timeouts, post an event, or
end in `os_sched(NULL, 1)`. The last is the step `preempt`. The handler of
the simulator switches to the first task of the run list, but nothing here is
tied to that: the step is allowed for every ready task.

The remaining fields are history: how often a task has been given each mutex
and not released it, the releases of each semaphore and the pends that came
back with a token, and the priority each task was created with.
-/

namespace Larva.Os

open Crash Function

/-- What a task is in the middle of while it does not run. -/
inductive Cont where
  /-- `os_sem_release`, `os_sem_delete`, `os_mutex_release` or
  `os_mutex_delete`, which have nothing left to do. -/
  | returned
  /-- `os_time_delay`. -/
  | delayed
  /-- `os_eventq_put`. -/
  | posted
  | semPend (n : Nat)
  | mutexPend (m : Nat)
  | evqGet (e : Nat)
  deriving DecidableEq, Repr

/-- Where a task is. -/
inductive Pc where
  /-- In its own code. -/
  | user
  /-- `os_mutex_release` has seen that the caller is the owner. -/
  | relChecked (m : Nat)
  /-- `os_mutex_release` has taken the level to zero. -/
  | relWindow (m : Nat)
  /-- About to call `os_sched`. -/
  | sched (next : Option Nat) (c : Cont)
  /-- `os_sched` is about to switch. -/
  | switch (next : Nat) (c : Cont)
  /-- Back from `os_sched`. -/
  | resume (c : Cont)
  /-- `os_sem_pend` has found its flag set. -/
  | semTimedOut (n : Nat)
  /-- `os_mutex_pend` has cleared its flag. -/
  | mutexWoken (m : Nat)
  deriving DecidableEq, Repr

structure Sys where
  k : Kernel
  pc : Nat → Pc
  /-- By mutex and task. -/
  held : Nat → Nat → Nat
  /-- By semaphore. -/
  releases : Nat → Nat
  grants : Nat → Nat
  initPrio : Nat → Nat

inductive Call where
  | semPend (n timeout : Nat)
  | semRelease (n : Nat)
  | semDelete (n : Nat)
  | mutexPend (m timeout : Nat)
  | mutexRelease (m : Nat)
  | mutexDelete (m : Nat)
  | evqGet (e : Nat)
  | evqPut (e : Nat) (ev : Ev)
  | delay (osticks : Int)
  | taskInit (t prio : Nat)
  deriving DecidableEq, Repr

inductive Label where
  /-- The running task makes a call. -/
  | call (c : Call)
  /-- It calls `os_mutex_release` and is interrupted behind the test. -/
  | checkRelease (m : Nat)
  /-- It goes on. -/
  | go
  /-- It goes on behind that test, and is interrupted before the critical
  section. -/
  | goCut
  | tick
  | post (e : Nat) (ev : Ev)
  | preempt (t : Nat)
  deriving DecidableEq, Repr

/-- What a piece answers, and the state it leaves. -/
def exec {α : Type} (m : OsM α) (k : Kernel) : Option (α × Kernel) :=
  match m k none with
  | .ok a k' _ => some (a, k')
  | _ => none

namespace Sys

def withK (k : Kernel) (s : Sys) : Sys := { s with k := k }

def goto (t : Nat) (p : Pc) (s : Sys) : Sys :=
  { s with pc := update s.pc t p }

def setHeld (m t : Nat) (f : Nat → Nat) (s : Sys) : Sys :=
  { s with
    held := update s.held m (update (s.held m) t (f (s.held m t))) }

def countRelease (n : Nat) (s : Sys) : Sys :=
  { s with releases := update s.releases n (s.releases n + 1) }

def countGrant (n : Nat) (s : Sys) : Sys :=
  { s with grants := update s.grants n (s.grants n + 1) }

/-- The task that runs. -/
def cur (s : Sys) : Nat := s.k.current

/-- A call ends with `os_sched`, or without it. -/
def finish (t : Nat) (r : Resched) (c : Cont) (s : Sys) : Sys :=
  s.goto t (match r with | none => .user | some next => .sched next c)

/-- `os_mutex_release` behind its test. -/
def release (m : Nat) (s : Sys) : Option Sys := do
  let (r, k) ← exec (osMutexReleaseRest m) s.k
  return ((s.withK k).setHeld m s.cur (· - 1)).finish s.cur r .returned

/-- `os_eventq_get` has its event, or its caller sleeps. -/
def pulled (e : Nat) (r : Option Ev) (k : Kernel) (s : Sys) : Sys :=
  (s.withK k).goto s.cur (if r.isSome then .user else .sched none (.evqGet e))

/-- A call, up to the end of its first critical section. -/
def call (s : Sys) : Call → Option Sys
  | .semPend n timeout => do
      let (r, k) ← exec (osSemPend n timeout) s.k
      match r with
      | .ret .ok => return (s.withK k).countGrant n
      | .ret _ => return s.withK k
      | .block => return (s.withK k).goto s.cur (.sched none (.semPend n))
  | .semRelease n => do
      let (r, k) ← exec (osSemRelease n) s.k
      return ((s.withK k).countRelease n).finish s.cur r .returned
  | .semDelete n => do
      let (r, k) ← exec (osSemDelete n) s.k
      return (s.withK k).finish s.cur r .returned
  | .mutexPend m timeout => do
      let (r, k) ← exec (osMutexPend m timeout) s.k
      match r with
      | .ret .ok => return (s.withK k).setHeld m s.cur (· + 1)
      | .ret _ => return s.withK k
      | .block => return (s.withK k).goto s.cur (.sched none (.mutexPend m))
  | .mutexRelease m => do
      let (owned, _) ← exec (osMutexReleaseOwned m) s.k
      if owned then s.release m else return s
  | .mutexDelete m => do
      let (r, k) ← exec (osMutexDelete m) s.k
      return (s.withK k).finish s.cur r .returned
  | .evqGet e => do
      let (r, k) ← exec (osEventqGet e) s.k
      return s.pulled e r k
  | .evqPut e ev => do
      let (woke, k) ← exec (osEventqPut2 e ev) s.k
      return (s.withK k).finish s.cur (if woke then some none else none) .posted
  | .delay osticks => do
      let (slept, k) ← exec (osTimeDelay osticks) s.k
      return (s.withK k).finish s.cur (if slept then some none else none) .delayed
  | .taskInit t prio =>
    -- Memory that is in use is not given to `os_task_init` again.
    if (s.k.tasks t).tState = .clear then do
      let (_, k) ← exec (osTaskInit t prio) s.k
      return { (s.withK k).goto t .user with
        initPrio := update s.initPrio t prio }
    else
      none

/-- The running task goes on from where it is. -/
def go (s : Sys) : Option Sys :=
  match s.pc s.cur with
  | .user => none
  | .relChecked m => s.release m
  | .relWindow m => do
      let (r, k) ← exec (osMutexReleaseHand m) s.k
      return (s.withK k).finish s.cur r .returned
  | .sched next c => do
      let (r, k) ← exec (osSched next) s.k
      match r with
      | none => return (s.withK k).goto s.cur (.resume c)
      | some t => return (s.withK k).goto s.cur (.switch t c)
  | .switch next c =>
    return (s.withK { s.k with current := next }).goto s.cur (.resume c)
  | .resume (.semPend n) =>
    if (s.k.tasks s.cur).semWait then
      return s.goto s.cur (.semTimedOut n)
    else
      return (s.countGrant n).goto s.cur .user
  | .semTimedOut _ => do
      let (_, k) ← exec osSemPendClear s.k
      return (s.withK k).goto s.cur .user
  | .resume (.mutexPend m) => do
      let (_, k) ← exec osMutexPendClear s.k
      return (s.withK k).goto s.cur (.mutexWoken m)
  | .mutexWoken m => do
      let (rc, _) ← exec (osMutexPendResult m) s.k
      if rc = .ok then
        return (s.setHeld m s.cur (· + 1)).goto s.cur .user
      else
        return s.goto s.cur .user
  | .resume (.evqGet e) => do
      let (r, k) ← exec (osEventqGetAgain e) s.k
      return s.pulled e r k
  | .resume _ => return s.goto s.cur .user

def step (l : Label) (s : Sys) : Option Sys :=
  match l with
  | .call c => if s.pc s.cur = .user then s.call c else none
  | .checkRelease m =>
    if s.pc s.cur = .user then do
      let (owned, _) ← exec (osMutexReleaseOwned m) s.k
      if owned then return s.goto s.cur (.relChecked m) else return s
    else
      none
  | .go => s.go
  | .goCut =>
    match s.pc s.cur with
    | .relChecked m => do
        let (nested, k) ← exec (osMutexReleaseLevel m) s.k
        let s := (s.withK k).setHeld m s.cur (· - 1)
        return s.goto s.cur (if nested then .user else .relWindow m)
    | _ => none
  | .tick => do
      let (_, k) ← exec (do osTimeTick; osSchedOsTimerExp) s.k
      return s.withK k
  | .post e ev => do
      let (_, k) ← exec (osEventqPut2 e ev) s.k
      return s.withK k
  | .preempt t =>
    if (s.k.tasks t).tState = .ready then
      return s.withK { s.k with current := t }
    else
      none

/-- The memory before anything has run. -/
def zero (tokens : Nat → Nat) (time : Nat) : Sys where
  k := {
    tasks := fun _ => ⟨0, .clear, false, false, false, none, 0⟩
    taskList := []
    lists := TailQ.init
    waiters := fun _ => []
    mutexes := fun _ => ⟨0, 0, none⟩
    semTokens := tokens
    evqTask := fun _ => none
    evqList := fun _ => []
    evQueued := fun _ => false
    callouts := TailQ.init
    cTicks := fun _ => 0
    cEvq := fun _ => 0
    time := time
    current := 0
    inserted := fun _ => 0
    insertions := 0 }
  pc _ := .user
  held _ _ := 0
  releases _ := 0
  grants _ := 0
  initPrio _ := 0

end Sys

/-- Before the start: the semaphores have been given their tokens, and tasks
are created one by one. -/
inductive Boots : Sys → Prop
  | zero {tokens : Nat → Nat} {time : Nat} (hn : ∀ n, tokens n < 2 ^ 16)
      (ht : time < 2 ^ 32) : Boots (Sys.zero tokens time)
  | task {s : Sys} {t prio : Nat} {k : Kernel} (h : Boots s) (hc : (s.k.tasks t).tState = .clear)
      (he : exec (osTaskInit t prio) s.k = some ((), k)) :
      Boots { s.withK k with
        initPrio := update s.initPrio t prio }

/-- `os_start` has picked the first task. -/
def Started (s : Sys) : Prop :=
  ∃ s₀ t, Boots s₀ ∧ s₀.k.lists.first .run = some t ∧ s = s₀.withK { s₀.k with current := t }

/-- The states that are reached by steps of a kind. -/
inductive Runs (P : Sys → Label → Prop) (s₀ : Sys) : Sys → Prop
  | start : Runs P s₀ s₀
  | step {s s' : Sys} {l : Label} (h : Runs P s₀ s) (hp : P s l)
      (hst : s.step l = some s') : Runs P s₀ s'

/-! Starts and runs that are written out. -/

/-- The tasks of a list, with their priorities, are created and started. -/
def boot (tokens : Nat → Nat) (time : Nat) (tasks : List (Nat × Nat)) : Option Sys := do
  let s ← tasks.foldlM (fun s p =>
    if (s.k.tasks p.1).tState = .clear then do
      let (_, k) ← exec (osTaskInit p.1 p.2) s.k
      return { s.withK k with
        initPrio := update s.initPrio p.1 p.2 }
    else
      none) (Sys.zero tokens time)
  let t ← s.k.lists.first .run
  return s.withK { s.k with current := t }

/-- The steps of a list, as long as each is of a kind. -/
def Sys.steps (ok : Sys → Label → Bool) : List Label → Sys → Option Sys
  | [], s => some s
  | l :: ls, s =>
    if ok s l then (s.step l).bind (Sys.steps ok ls) else none

variable {tasks : List (Nat × Nat)} {s s' : Sys}

theorem boots_foldlM (h : Boots s) (hf : tasks.foldlM (fun s p =>
      if (s.k.tasks p.1).tState = .clear then do
        let (_, k) ← exec (osTaskInit p.1 p.2) s.k
        return { s.withK k with
          initPrio := update s.initPrio p.1 p.2 }
      else
        none) s = some s') : Boots s' := by
  induction tasks generalizing s with
  | nil =>
    cases hf
    exact h
  | cons p tasks ih =>
    rw [List.foldlM_cons] at hf
    obtain ⟨s1, h1, hf⟩ := Option.bind_eq_some_iff.mp hf
    refine ih ?_ hf
    split at h1
    · next hc =>
      obtain ⟨⟨_, k⟩, he, h1⟩ := Option.bind_eq_some_iff.mp h1
      cases h1
      exact h.task hc he
    · cases h1

theorem started_of_boot {tokens : Nat → Nat} {time : Nat} (hn : ∀ n, tokens n < 2 ^ 16)
    (ht : time < 2 ^ 32) (h : boot tokens time tasks = some s) : Started s := by
  obtain ⟨s0, hf, h⟩ := Option.bind_eq_some_iff.mp h
  obtain ⟨t, hfirst, h⟩ := Option.bind_eq_some_iff.mp h
  cases h
  exact ⟨s0, t, boots_foldlM (.zero hn ht) hf, hfirst, rfl⟩

theorem runs_of_steps {P : Sys → Label → Prop} {ok : Sys → Label → Bool} {ls : List Label}
    {s0 : Sys} (hok : ∀ s l, ok s l = true → P s l) (hr : Runs P s0 s)
    (h : s.steps ok ls = some s') : Runs P s0 s' := by
  induction ls generalizing s with
  | nil =>
    cases h
    exact hr
  | cons l ls ih =>
    simp only [Sys.steps] at h
    split at h
    · next hl =>
      obtain ⟨s1, h1, h⟩ := Option.bind_eq_some_iff.mp h
      exact ih (hr.step (hok s l hl) h1) h
    · cases h

end Larva.Os
