import Larva.Os.Calls
import Larva.Os.Threads

/-!
# What a step can do

`Does s L l s' L'` lists everything a step of the system can do to a state
whose lists are `L`, without the programs and without the pointers: one case
for every way a call can end, one for every way a task can go on, one for each
interrupt. Every later invariant is a case analysis of this relation, and
`step_does` is the only place where the programs are run.

The connection needs two things of the state before. The lists and chains
have to be in order, and a task that runs and is asleep has to be on its way
out, between `os_sched_sleep` and the switch. `Sane` collects them, and a step
keeps them as long as no switch goes to a task that is not ready
(`SwitchesToReady`). That condition is not idle: the task to switch to was
chosen before, and `os_sched` does not look again.
-/

namespace Larva.Os

open Crash TailQ Option

/-- The call a task is in while it is parked in `os_sched`. -/
def Pc.cont : Pc → Option Cont
  | .sched _ c => some c
  | .switch _ c => some c
  | .resume c => some c
  | _ => none

/-- What a task in the middle of this call waits on. -/
def Cont.obj : Cont → Option Obj
  | .semPend n => some (.sem n)
  | .mutexPend m => some (.mutex m)
  | _ => none

/-- The calls that put the caller to sleep. -/
def Cont.Sleeps : Cont → Prop
  | .returned => False
  | .posted => False
  | _ => True

structure Sane (s : Sys) (L : Lists) : Prop where
  listed : Listed s.k L
  waits : Waits s.k
  evq : ∀ e t, s.k.evqTask e = some t → (s.k.tasks t).tState = .sleep ∧
    (s.k.tasks t).noTimeout = true ∧ (s.k.tasks t).tObj = none
  evqOnce : ∀ e e' t, s.k.evqTask e = some t → s.k.evqTask e' = some t → e = e'
  alive : (s.k.tasks s.cur).tState ≠ .clear
  running : (s.k.tasks s.cur).tState = .sleep → ∃ c,
    s.pc s.cur = .sched none c ∨ ∃ next, s.pc s.cur = .switch next c
  parked : ∀ t, (s.k.tasks t).tState = .sleep → ∃ c,
    (s.pc t).cont = some c ∧ c.obj = (s.k.tasks t).tObj ∧ c.Sleeps

/-- A switch that this step makes goes to a ready task. -/
def SwitchesToReady (s : Sys) (l : Label) : Prop :=
  ∀ next c, l = .go → s.pc s.cur = .switch next c → (s.k.tasks next).tState = .ready

/-! ## The pieces -/

section Exec

variable {α : Type} {m : OsM α} {k : Kernel} {Q : Post Kernel Empty α}

/-- A piece that ends well ends as its rule says. -/
theorem exec_sound {a : α} {k' : Kernel} (h : Wp m Q k)
    (he : exec m k = some (a, k')) : Q.ok a k' := by
  have hw := h none
  unfold exec at he
  cases ho : m k none with
  | ok b k'' left =>
    rw [ho] at he hw
    obtain ⟨rfl, rfl⟩ : b = a ∧ k'' = k' := by simpa using he
    exact hw.1
  | err e k'' left => exact e.elim
  | _ => rw [ho] at he; cases he

/-- A step goes on from a piece that ended as its rule says. -/
theorem exec_bind_sound {f : α × Kernel → Option Sys} {s' : Sys} {P : Prop}
    (hst : (exec m k).bind f = some s')
    (h : Wp m ⟨fun a k' => f (a, k') = some s' → P, fun _ _ => True,
      fun _ => True, True⟩ k) : P := by
  obtain ⟨⟨a, k'⟩, he, hs⟩ := bind_eq_some_iff.mp hst
  exact exec_sound h he hs

/-- A piece whose rule rules out failure ends well. -/
theorem exec_isSome (h : Wp m Q k) (hs : ¬ Q.stuck) :
    ∃ a k', exec m k = some (a, k') ∧ Q.ok a k' := by
  have hw := h none
  unfold exec
  cases ho : m k none with
  | ok b k' left =>
    rw [ho] at hw
    exact ⟨b, k', rfl, hw.1⟩
  | err e k' left => exact e.elim
  | cut k' => rw [ho] at hw; exact (hw.2 rfl).elim
  | abort => rw [ho] at hw; exact (hs hw).elim
  | spin => rw [ho] at hw; exact hw.elim

end Exec

section Ready

variable {s : Sys} {L : Lists}

theorem Sane.ready_of (h : Sane s L) (hs : ∀ c, s.pc s.cur ≠ .sched none c)
    (hw : ∀ next c, s.pc s.cur ≠ .switch next c) : (s.k.tasks s.cur).tState = .ready := by
  cases hst : (s.k.tasks s.cur).tState with
  | clear => exact (h.alive hst).elim
  | ready => rfl
  | sleep =>
    obtain ⟨c, hc | ⟨next, hc⟩⟩ := h.running hst
    · exact (hs c hc).elim
    · exact (hw next c hc).elim

/-- The points of a call at which the caller is awake. -/
def Pc.awake : Pc → Bool
  | .sched none _ => false
  | .switch _ _ => false
  | _ => true

theorem Sane.ready_at (h : Sane s L) {p : Pc} (hpc : s.pc s.cur = p)
    (hp : p.awake = true) : (s.k.tasks s.cur).tState = .ready := by
  subst hpc
  refine h.ready_of (fun c hc => ?_) fun next c hc => ?_ <;>
  · rw [hc] at hp
    cases hp

theorem Sane.ready_user (h : Sane s L) (hpc : s.pc s.cur = .user) :
    (s.k.tasks s.cur).tState = .ready :=
  h.ready_at hpc rfl

theorem Sane.ready_resume {c : Cont} (h : Sane s L)
    (hpc : s.pc s.cur = .resume c) : (s.k.tasks s.cur).tState = .ready :=
  h.ready_at hpc rfl

end Ready

/-! The rules of `Calls`, as what the pieces can answer. A state that failed
an assertion or followed a `NULL` pointer has no next state. -/

/-- What `os_eventq_put2` does. -/
inductive Puts (k : Kernel) (L : Lists) (e : Nat) (ev : Ev) : Bool → Kernel → Lists → Prop
  | nop (hq : k.evQueued ev = true) : Puts k L e ev false k L
  | add (hq : k.evQueued ev = false) (ht : k.evqTask e = none) :
      Puts k L e ev false (k.queued e ev) L
  | wake {t : Nat} {q : TailQ ListId Nat} (hq : k.evQueued ev = false) (ht : k.evqTask e = some t) :
      Puts k L e ev true (setEvqTask e none (((k.queued e ev).woken t).withLists q)) (L.woken k t)

/-- What `os_eventq_get` does from `pull_one` on. -/
inductive Gets (k : Kernel) (L : Lists) (e : Nat) : Bool → Kernel → Lists → Prop
  | got {ev : Ev} {evs : List Ev} (hl : k.evqList e = ev :: evs) :
      Gets k L e true (k.pulled e ev evs) L
  | block {q : TailQ ListId Nat} (hl : k.evqList e = []) : Gets k L e false
        (((setEvqTask e (some k.current) k).slept k.current osTimeoutNever).withLists q)
        (L.slept ((setEvqTask e (some k.current) k).slept k.current osTimeoutNever) k.current)

section Pieces

variable {s : Sys} {L : Lists} {k : Kernel} {e : Nat}

/-- What a rule is asked for here. -/
def Answers {α : Type} (P : α → Kernel → Prop) : Post Kernel Empty α :=
  ⟨P, fun _ _ => True, fun _ => True, True⟩

theorem Waits.granted (w : Waits k) (rdy : Nat) (q : TailQ ListId Nat) :
    Waits ((k.granted rdy).withLists q) := by
  have hw : Waits (setTask rdy (fun τ => { τ with semWait := false }) k) :=
    w.congr (fun b => setTask_field Task.tState _ rdy b k rfl)
      (fun b => setTask_field Task.tObj _ rdy b k rfl)
      (fun b => setTask_field Task.noTimeout _ rdy b k rfl) rfl
  exact hw.woken q

variable {k' : Kernel}

/-- The test at the start of `os_mutex_release`. -/
theorem exec_owned {m : Nat} {owned : Bool}
    (he : exec (osMutexReleaseOwned m) k = some (owned, k')) : owned = true ↔
      (k.mutexes m).muLevel ≠ 0 ∧ (k.mutexes m).muOwner = some k.current := by
  cases he
  simp

theorem Waits.slept (w : Waits k) (t nticks : Nat) (q : TailQ ListId Nat) :
    Waits ((k.slept t nticks).withLists q) := by
  refine w.of_task (fun b => slept_rest k nticks) (fun _ _ _ => Iff.rfl) (fun o => ?_)
    w.nodup (.inl (congrArg Task.tState (slept_self k t nticks)))
  have hobj : ((k.slept t nticks).tasks t).tObj = (k.tasks t).tObj :=
    setTask_field Task.tObj _ t t k rfl
  exact (w.chain o t).trans (by rw [← hobj]; rfl)

/-- `os_eventq_get`, from a state in which only `evq_task` may differ. -/
theorem gets_of_exec {r : Option Ev} (hl : Listed k L) (hw : Waits k)
    (hc : (k.tasks k.current).tState = .ready) (he : exec (osEventqGet e) k = some (r, k')) :
    ∃ L', Gets k L e r.isSome k' L' ∧ Listed k' L' ∧ Waits k' := by
  refine exec_sound (Q := Answers fun r k' =>
    ∃ L', Gets k L e r.isSome k' L' ∧ Listed k' L' ∧ Waits k') ?_ he
  refine wp_osEventqGet hl hw hc ?_ ?_
  · intro ev evs hq
    exact ⟨L, .got hq, hl.congr, hw.congr⟩
  · intro q hq hl'
    have hw1 : Waits (setEvqTask e (some k.current) k) := hw.congr
    exact ⟨_, .block hq, hl', hw1.slept _ _ q⟩

theorem puts_of_exec {ev : Ev} {woke : Bool} (h : Sane s L)
    (he : exec (osEventqPut2 e ev) s.k = some (woke, k')) :
    ∃ L', Puts s.k L e ev woke k' L' ∧ Listed k' L' ∧ Waits k' := by
  have hl := h.listed
  have hw := h.waits
  refine exec_sound (Q := Answers fun woke k' =>
    ∃ L', Puts s.k L e ev woke k' L' ∧ Listed k' L' ∧ Waits k') ?_ he
  refine wp_osEventqPut2 hl hw (fun t ht => (h.evq e t ht).1) ?_ ?_ ?_
  · exact fun hq => ⟨L, .nop hq, hl, hw⟩
  · exact fun hq ht => ⟨L, .add hq ht, hl.congr, hw.congr⟩
  · intro t q hq ht hl'
    refine ⟨_, .wake hq ht, hl', ?_⟩
    have hw1 : Waits (s.k.queued e ev) := hw.congr
    exact (hw1.woken q).congr

end Pieces

/-! ## The cases -/

/-- `os_mutex_release` has taken one off the level. -/
def Kernel.lowered (m : Nat) (k : Kernel) : Kernel :=
  setMutex m (fun mu =>
    { mu with muLevel := (mu.muLevel + (2 ^ 16 - 1)) % 2 ^ 16 }) k

def Kernel.ticked (k : Kernel) : Kernel :=
  { k with time := (k.time + 1) % 2 ^ 32 }

/-- The step takes a mutex release behind its test. -/
def Sys.Releases (s : Sys) (l : Label) (m : Nat) : Prop :=
  (l = .call (.mutexRelease m) ∧ s.pc s.cur = .user ∧
    (s.k.mutexes m).muLevel ≠ 0 ∧ (s.k.mutexes m).muOwner = some s.cur) ∨
  (l = .go ∧ s.pc s.cur = .relChecked m)

inductive Does (s : Sys) (L : Lists) : Label → Sys → Lists → Prop
  | semTake {n timeout : Nat} (hpc : s.pc s.cur = .user) (ht : s.k.semTokens n ≠ 0) :
      Does s L (.call (.semPend n timeout))
        ((s.withK (setTokens n (fun tokens => tokens - 1) s.k)).countGrant n) L
  | semBusy {n : Nat} (hpc : s.pc s.cur = .user) (ht : s.k.semTokens n = 0) :
      Does s L (.call (.semPend n 0)) s L
  | semBlock {n timeout : Nat} {q : TailQ ListId Nat}
      (hpc : s.pc s.cur = .user) (ht : s.k.semTokens n = 0) (hto : timeout ≠ 0) :
      Does s L (.call (.semPend n timeout))
        ((s.withK ((s.k.waiting (.sem n) timeout).withLists q)).goto s.cur
          (.sched none (.semPend n))) (L.slept (s.k.waiting (.sem n) timeout) s.cur)
  | semGrant {n rdy : Nat} {W : List Nat} {q : TailQ ListId Nat}
      (hpc : s.pc s.cur = .user) (hW : s.k.waiters (.sem n) = rdy :: W) :
      Does s L (.call (.semRelease n))
        (((s.withK ((s.k.granted rdy).withLists q)).countRelease n).finish s.cur
          (if (s.k.tasks rdy).tPrio < (s.k.tasks s.cur).tPrio
            then some (some rdy) else none) .returned) (L.woken s.k rdy)
  | semAdd {n : Nat} (hpc : s.pc s.cur = .user) (hW : s.k.waiters (.sem n) = []) :
      Does s L (.call (.semRelease n)) (((s.withK (setTokens n (fun tokens => (tokens + 1) % 2 ^ 16)
          s.k)).countRelease n).finish s.cur none .returned) L
  | semDelete {n : Nat} {r : Resched} {k' : Kernel} {L' : Lists} (hpc : s.pc s.cur = .user)
      (hall : WokenAll (setTokens n (fun _ => 0) s.k) L
        (s.k.waiters (.sem n)) k' L') (hr : r = none ∨ r = some none) :
      Does s L (.call (.semDelete n)) ((s.withK k').finish s.cur r .returned) L'
  | mutexTake {m timeout : Nat} (hpc : s.pc s.cur = .user) (hlv : (s.k.mutexes m).muLevel = 0) :
      Does s L (.call (.mutexPend m timeout)) ((s.withK (setMutex m
          (fun _ => ⟨(s.k.tasks s.cur).tPrio, 1, some s.cur⟩) s.k)).setHeld m s.cur (· + 1)) L
  | mutexNest {m timeout : Nat} (hpc : s.pc s.cur = .user) (hlv : (s.k.mutexes m).muLevel ≠ 0)
      (ho : (s.k.mutexes m).muOwner = some s.cur) : Does s L (.call (.mutexPend m timeout))
        ((s.withK (setMutex m (fun mu =>
          { mu with muLevel := (mu.muLevel + 1) % 2 ^ 16 }) s.k)).setHeld m s.cur (· + 1)) L
  | mutexBusy {m : Nat} (hpc : s.pc s.cur = .user) (hlv : (s.k.mutexes m).muLevel ≠ 0)
      (ho : (s.k.mutexes m).muOwner ≠ some s.cur) : Does s L (.call (.mutexPend m 0)) s L
  | mutexBlock {m timeout owner : Nat} {q : TailQ ListId Nat} {L₁ : Lists}
      (hpc : s.pc s.cur = .user) (hlv : (s.k.mutexes m).muLevel ≠ 0)
      (ho : (s.k.mutexes m).muOwner = some owner) (hne : owner ≠ s.cur)
      (hto : timeout ≠ 0) (hL : L₁ .sleep = L .sleep) : Does s L (.call (.mutexPend m timeout))
        ((s.withK (((s.k.boosted owner).waiting (.mutex m)
          timeout).withLists q)).goto s.cur (.sched none (.mutexPend m)))
        (L₁.slept ((s.k.boosted owner).waiting (.mutex m) timeout) s.cur)
  | notOwned {l : Label} {m : Nat} (hpc : s.pc s.cur = .user)
      (hl : l = .call (.mutexRelease m) ∨ l = .checkRelease m) : Does s L l s L
  | checked {m : Nat} (hpc : s.pc s.cur = .user) (hlv : (s.k.mutexes m).muLevel ≠ 0)
      (ho : (s.k.mutexes m).muOwner = some s.cur) :
      Does s L (.checkRelease m) (s.goto s.cur (.relChecked m)) L
  | unnest {l : Label} {m : Nat} (hr : s.Releases l m)
      (hlv : ((s.k.lowered m).mutexes m).muLevel ≠ 0) : Does s L l
        (((s.withK (s.k.lowered m)).setHeld m s.cur (· - 1)).finish s.cur none .returned) L
  | hand {l : Label} {m rdy : Nat} {W : List Nat} {q : TailQ ListId Nat}
      {L' : Lists} (hr : s.Releases l m) (hlv : ((s.k.lowered m).mutexes m).muLevel = 0)
      (hW : s.k.waiters (.mutex m) = rdy :: W) (hL : (L' .sleep).Sublist (L .sleep)) : Does s L l
        (((s.withK (((s.k.lowered m).handed m rdy).withLists q)).setHeld
          m s.cur (· - 1)).finish s.cur (reschedTo s.cur L') .returned) L'
  | free {l : Label} {m : Nat} {q : TailQ ListId Nat} {L' : Lists} (hr : s.Releases l m)
      (hlv : ((s.k.lowered m).mutexes m).muLevel = 0) (hW : s.k.waiters (.mutex m) = [])
      (hL : (L' .sleep).Sublist (L .sleep)) : Does s L l
        (((s.withK (((s.k.lowered m).freed m).withLists q)).setHeld
          m s.cur (· - 1)).finish s.cur (reschedTo s.cur L') .returned) L'
  | cutNested {m : Nat} (hpc : s.pc s.cur = .relChecked m)
      (hlv : ((s.k.lowered m).mutexes m).muLevel ≠ 0) : Does s L .goCut
        (((s.withK (s.k.lowered m)).setHeld m s.cur (· - 1)).goto s.cur .user) L
  | cut {m : Nat} (hpc : s.pc s.cur = .relChecked m)
      (hlv : ((s.k.lowered m).mutexes m).muLevel = 0) : Does s L .goCut
        (((s.withK (s.k.lowered m)).setHeld m s.cur (· - 1)).goto s.cur (.relWindow m)) L
  | windowHand {m rdy : Nat} {W : List Nat} {q : TailQ ListId Nat}
      {L' : Lists} (hpc : s.pc s.cur = .relWindow m) (hW : s.k.waiters (.mutex m) = rdy :: W)
      (hL : (L' .sleep).Sublist (L .sleep)) : Does s L .go
        ((s.withK ((s.k.handed m rdy).withLists q)).finish s.cur (reschedTo s.cur L') .returned) L'
  | windowFree {m : Nat} {q : TailQ ListId Nat} {L' : Lists} (hpc : s.pc s.cur = .relWindow m)
      (hW : s.k.waiters (.mutex m) = []) (hL : (L' .sleep).Sublist (L .sleep)) : Does s L .go
        ((s.withK ((s.k.freed m).withLists q)).finish s.cur (reschedTo s.cur L') .returned) L'
  | mutexDelete {m : Nat} {q : TailQ ListId Nat} {k' : Kernel}
      {L₁ L' : Lists} (hpc : s.pc s.cur = .user) (hL : L₁ .sleep = L .sleep)
      (hall : WokenAll ((s.k.ownerRestored m).withLists q) L₁ (s.k.waiters (.mutex m)) k' L') :
      Does s L (.call (.mutexDelete m))
        ((s.withK k').finish s.cur (reschedTo s.cur L') .returned) L'
  | evqGet {e : Nat} {got : Bool} {k' : Kernel} {L' : Lists}
      (hpc : s.pc s.cur = .user) (hg : Gets s.k L e got k' L') : Does s L (.call (.evqGet e))
        ((s.withK k').goto s.cur (if got then .user else .sched none (.evqGet e))) L'
  | evqAgain {e : Nat} {got : Bool} {k' : Kernel} {L' : Lists}
      (hpc : s.pc s.cur = .resume (.evqGet e)) (hg : Gets (setEvqTask e none s.k) L e got k' L') :
      Does s L .go ((s.withK k').goto s.cur (if got then .user else .sched none (.evqGet e))) L'
  | evqPut {e : Nat} {ev : Ev} {woke : Bool} {k' : Kernel} {L' : Lists}
      (hpc : s.pc s.cur = .user) (hp : Puts s.k L e ev woke k' L') : Does s L (.call (.evqPut e ev))
        ((s.withK k').finish s.cur (if woke then some none else none) .posted) L'
  | post {e : Nat} {ev : Ev} {woke : Bool} {k' : Kernel} {L' : Lists}
      (hp : Puts s.k L e ev woke k' L') : Does s L (.post e ev) (s.withK k') L'
  | noDelay {osticks : Int} (hpc : s.pc s.cur = .user) (hn : ¬ 0 < osticks) :
      Does s L (.call (.delay osticks)) (s.finish s.cur none .delayed) L
  | delay {osticks : Int} {q : TailQ ListId Nat} (hpc : s.pc s.cur = .user) (hn : 0 < osticks) :
      Does s L (.call (.delay osticks))
        ((s.withK ((s.k.slept s.cur osticks.toNat).withLists q)).goto s.cur (.sched none .delayed))
        (L.slept (s.k.slept s.cur osticks.toNat) s.cur)
  | taskInit {t prio : Nat} {q : TailQ ListId Nat} {L' : Lists}
      (hpc : s.pc s.cur = .user) (ht : (s.k.tasks t).tState = .clear) (hL : L' .sleep = L .sleep) :
      Does s L (.call (.taskInit t prio))
        { (s.withK ((s.k.newTask t prio).withLists q)).goto t .user with
          initPrio := Function.update s.initPrio t prio } L'
  | schedSelf {next : Option Nat} {c : Cont} (hpc : s.pc s.cur = .sched next c)
      (hn : (next.orElse fun _ => (L .run).head?) = some s.cur) :
      Does s L .go (s.goto s.cur (.resume c)) L
  | schedOther {next : Option Nat} {c : Cont} {t : Nat} (hpc : s.pc s.cur = .sched next c)
      (hn : (next.orElse fun _ => (L .run).head?) = some t) (hne : t ≠ s.cur) :
      Does s L .go (s.goto s.cur (.switch t c)) L
  | switch {next : Nat} {c : Cont} (hpc : s.pc s.cur = .switch next c)
      (hr : (s.k.tasks next).tState = .ready) : Does s L .go
        ((s.withK { s.k with current := next }).goto s.cur (.resume c)) L
  | semGot {n : Nat} (hpc : s.pc s.cur = .resume (.semPend n))
      (hw : (s.k.tasks s.cur).semWait = false) : Does s L .go ((s.countGrant n).goto s.cur .user) L
  | semLate {n : Nat} (hpc : s.pc s.cur = .resume (.semPend n))
      (hw : (s.k.tasks s.cur).semWait = true) : Does s L .go (s.goto s.cur (.semTimedOut n)) L
  | semClear {n : Nat} (hpc : s.pc s.cur = .semTimedOut n) : Does s L .go
        ((s.withK (setTask s.cur (fun τ => { τ with semWait := false }) s.k)).goto s.cur .user) L
  | mutexClear {m : Nat} (hpc : s.pc s.cur = .resume (.mutexPend m)) : Does s L .go
        ((s.withK (setTask s.cur (fun τ => { τ with mutexWait := false })
          s.k)).goto s.cur (.mutexWoken m)) L
  | mutexGot {m : Nat} (hpc : s.pc s.cur = .mutexWoken m)
      (ho : (s.k.mutexes m).muOwner = some s.cur) :
      Does s L .go ((s.setHeld m s.cur (· + 1)).goto s.cur .user) L
  | mutexLate {m : Nat} (hpc : s.pc s.cur = .mutexWoken m)
      (ho : (s.k.mutexes m).muOwner ≠ some s.cur) : Does s L .go (s.goto s.cur .user) L
  | done {c : Cont} (hpc : s.pc s.cur = .resume c) (hc : c.obj = none) (he : ∀ e, c ≠ .evqGet e) :
      Does s L .go (s.goto s.cur .user) L
  | tick {k' : Kernel} {L' : Lists} (hall : WokenAll s.k.ticked L
        ((L .sleep).takeWhile (s.k.ticked.expired s.k.ticked.time)) k' L') :
      Does s L .tick (s.withK k') L'
  | preempt {t : Nat} (hr : (s.k.tasks t).tState = .ready) :
      Does s L (.preempt t) (s.withK { s.k with current := t }) L

/-! ## A step does one of them -/

/-- What is shown of every step. -/
def Reaches (s : Sys) (L : Lists) (l : Label) (s' : Sys) : Prop :=
  ∃ L', Does s L l s' L' ∧ Listed s'.k L' ∧ Waits s'.k

section Each

variable {s : Sys} {L : Lists}

variable {n e : Nat} {s' : Sys}

variable (h : Sane s L) {m : Nat} {l : Label}
include h

section

variable (hpc : s.pc s.cur = .user) {timeout : Nat}
include hpc

theorem semPend_does (hst : s.call (.semPend n timeout) = some s') :
    Reaches s L (.call (.semPend n timeout)) s' := by
  have hc := h.ready_user hpc
  refine exec_bind_sound hst ?_
  refine wp_osSemPend h.listed h.waits hc ?_ ?_ ?_
  · intro ht hs
    cases hs
    exact ⟨L, .semTake hpc ht, h.listed.congr, h.waits.congr⟩
  · intro ht hz hs
    cases hs
    subst hz
    exact ⟨L, .semBusy hpc ht, h.listed, h.waits⟩
  · intro ht hz q hl hs
    cases hs
    exact ⟨_, .semBlock hpc ht hz, hl, h.waits.waiting hc _ _ _⟩

theorem semRelease_does (hst : s.call (.semRelease n) = some s') :
    Reaches s L (.call (.semRelease n)) s' := by
  refine exec_bind_sound hst ?_
  refine wp_osSemRelease h.listed h.waits ?_ ?_
  · intro rdy W q hW hl hs
    cases hs
    exact ⟨_, .semGrant hpc hW, hl, h.waits.granted rdy q⟩
  · intro hW hs
    cases hs
    exact ⟨L, .semAdd hpc hW, h.listed.congr, h.waits.congr⟩

theorem semDelete_does (hst : s.call (.semDelete n) = some s') :
    Reaches s L (.call (.semDelete n)) s' := by
  refine exec_bind_sound hst ?_
  refine wp_osSemDelete h.listed h.waits ?_
  intro r k' L' hall hr hl hw hs
  cases hs
  exact ⟨L', .semDelete hpc hall hr, hl, hw⟩

theorem mutexPend_does (hst : s.call (.mutexPend m timeout) = some s') :
    Reaches s L (.call (.mutexPend m timeout)) s' := by
  have hc := h.ready_user hpc
  refine exec_bind_sound hst ?_
  refine wp_osMutexPend h.listed h.waits hc ?_ ?_ ?_ (fun _ _ => trivial) ?_
  · intro hlv hs
    cases hs
    exact ⟨L, .mutexTake hpc hlv, h.listed.congr, h.waits.congr⟩
  · intro hlv ho hs
    cases hs
    exact ⟨L, .mutexNest hpc hlv ho, h.listed.congr, h.waits.congr⟩
  · intro hlv ho hz hs
    cases hs
    subst hz
    exact ⟨L, .mutexBusy hpc hlv ho, h.listed, h.waits⟩
  · intro owner q L1 L' hlv ho hne hz hsl hL hl hs
    cases hs
    subst hL
    have hk1 := alike_boosted s.k owner
    have hcb : ((s.k.boosted owner).tasks (s.k.boosted owner).current).tState =
        .ready := by
      rw [hk1.current, hk1.state]
      exact hc
    have hw := (h.waits.alike hk1 s.k.lists).waiting hcb (.mutex m) timeout q
    exact ⟨_, .mutexBlock hpc hlv ho hne hz hsl, hl, hw⟩

end

/-- Both ways into `os_mutex_release` lead here. -/
theorem release_does (hr : s.Releases l m) (hc : (s.k.tasks s.cur).tState = .ready)
    (hst : s.release m = some s') : Reaches s L l s' := by
  have hl1 : Listed (s.k.lowered m) L := h.listed.congr
  have hw1 : Waits (s.k.lowered m) := h.waits.congr
  refine exec_bind_sound hst ?_
  refine .bind (.modify_bind (.get_bind (.pure ?_)))
  show Wp (if decide (((s.k.lowered m).mutexes m).muLevel ≠ 0) = true then _
    else _) _ _
  split
  · next hlv =>
    refine .pure fun hs => ?_
    cases hs
    exact ⟨L, .unnest hr (by simpa using hlv), hl1, hw1⟩
  · next hlv =>
    have hlv : ((s.k.lowered m).mutexes m).muLevel = 0 := by simpa using hlv
    refine wp_osMutexReleaseHand hl1 hw1 hc ?_ ?_
    · intro rdy W q L' hW hsub hl hs
      cases hs
      exact ⟨L', .hand hr hlv hW hsub, hl, ((hw1.alike (alike_restored _ m s.cur) q).woken q).congr⟩
    · intro q L' hW hsub hl hs
      cases hs
      exact ⟨L', .free hr hlv hW hsub, hl, (hw1.alike (alike_restored _ m s.cur) q).congr⟩

theorem mutexRelease_does (hpc : s.pc s.cur = .user) (hst : s.call (.mutexRelease m) = some s') :
    Reaches s L (.call (.mutexRelease m)) s' := by
  simp only [Sys.call] at hst
  obtain ⟨⟨owned, k'⟩, he, hs⟩ := bind_eq_some_iff.mp hst
  have ho := exec_owned he
  cases owned with
  | true =>
    obtain ⟨hlv, hown⟩ := ho.mp rfl
    exact release_does h (.inl ⟨rfl, hpc, hlv, hown⟩) (h.ready_user hpc) hs
  | false =>
    cases hs
    exact ⟨L, .notOwned hpc (.inl rfl), h.listed, h.waits⟩

theorem mutexDelete_does (hpc : s.pc s.cur = .user) (hst : s.call (.mutexDelete m) = some s') :
    Reaches s L (.call (.mutexDelete m)) s' := by
  refine exec_bind_sound hst ?_
  refine wp_osMutexDelete h.listed h.waits (fun _ _ => trivial) ?_
  intro q k' L1 L' hsl hall hl hw hs
  cases hs
  exact ⟨L', .mutexDelete hpc hsl hall, hl, hw⟩

theorem evqGet_does (hpc : s.pc s.cur = .user) (hst : s.call (.evqGet e) = some s') :
    Reaches s L (.call (.evqGet e)) s' := by
  obtain ⟨⟨r, k'⟩, he, hs⟩ := bind_eq_some_iff.mp hst
  obtain ⟨L', hg, hl, hw⟩ := gets_of_exec h.listed h.waits (h.ready_user hpc) he
  cases hs
  exact ⟨L', .evqGet hpc hg, hl, hw⟩

theorem evqAgain_does
    (hpc : s.pc s.cur = .resume (.evqGet e)) (hst : s.go = some s') : Reaches s L .go s' := by
  simp only [Sys.go, hpc] at hst
  obtain ⟨⟨r, k'⟩, he, hs⟩ := bind_eq_some_iff.mp hst
  obtain ⟨L', hg, hl, hw⟩ := gets_of_exec (k := setEvqTask e none s.k) (h.listed.congr)
    (h.waits.congr) (h.ready_resume hpc) he
  cases hs
  exact ⟨L', .evqAgain hpc hg, hl, hw⟩

section

variable (hpc : s.pc s.cur = .user)
include hpc

theorem evqPut_does {ev : Ev} (hst : s.call (.evqPut e ev) = some s') :
    Reaches s L (.call (.evqPut e ev)) s' := by
  obtain ⟨⟨woke, k'⟩, he, hs⟩ := bind_eq_some_iff.mp hst
  obtain ⟨L', hp, hl, hw⟩ := puts_of_exec h he
  cases hs
  exact ⟨L', .evqPut hpc hp, hl, hw⟩

theorem delay_does {osticks : Int} (hst : s.call (.delay osticks) = some s') :
    Reaches s L (.call (.delay osticks)) s' := by
  refine exec_bind_sound hst ?_
  refine wp_osTimeDelay h.listed h.waits (h.ready_user hpc) ?_ ?_
  · intro hn hs
    cases hs
    exact ⟨L, .noDelay hpc hn, h.listed, h.waits⟩
  · intro q hn hl hs
    cases hs
    exact ⟨_, .delay hpc hn, hl, h.waits.slept _ _ q⟩

theorem taskInit_does {t prio : Nat} (hst : s.call (.taskInit t prio) = some s') :
    Reaches s L (.call (.taskInit t prio)) s' := by
  simp only [Sys.call] at hst
  split at hst
  · next ht =>
    refine exec_bind_sound hst ?_
    refine wp_osTaskInit h.listed ht fun q L' hsl hl hs => ?_
    cases hs
    exact ⟨L', .taskInit hpc ht hsl, hl, h.waits.newTask ht q⟩
  · cases hst

theorem call_does {c : Call} (hst : s.call c = some s') : Reaches s L (.call c) s' := by
  cases c with
  | semPend n timeout => exact semPend_does h hpc hst
  | semRelease n => exact semRelease_does h hpc hst
  | semDelete n => exact semDelete_does h hpc hst
  | mutexPend m timeout => exact mutexPend_does h hpc hst
  | mutexRelease m => exact mutexRelease_does h hpc hst
  | mutexDelete m => exact mutexDelete_does h hpc hst
  | evqGet e => exact evqGet_does h hpc hst
  | evqPut e ev => exact evqPut_does h hpc hst
  | delay osticks => exact delay_does h hpc hst
  | taskInit t prio => exact taskInit_does h hpc hst

end

theorem sched_does {next : Option Nat} {c : Cont}
    (hpc : s.pc s.cur = .sched next c) (hst : s.go = some s') : Reaches s L .go s' := by
  simp only [Sys.go, hpc] at hst
  refine exec_bind_sound hst ?_
  refine .get_bind ?_
  rw [h.listed.queues.first_eq]
  cases hn : (next.orElse fun _ => (L .run).head?) with
  | none => exact fun _ => trivial
  | some t =>
    refine .pure fun hs => ?_
    by_cases ht : t = s.cur
    · subst ht
      rw [show s.k.current = s.cur from rfl, if_pos rfl] at hs
      cases hs
      exact ⟨L, .schedSelf hpc hn, h.listed, h.waits⟩
    · rw [show s.k.current = s.cur from rfl, if_neg ht] at hs
      cases hs
      exact ⟨L, .schedOther hpc hn ht, h.listed, h.waits⟩

theorem window_does (hpc : s.pc s.cur = .relWindow m) (hst : s.go = some s') :
    Reaches s L .go s' := by
  simp only [Sys.go, hpc] at hst
  refine exec_bind_sound hst ?_
  refine wp_osMutexReleaseHand h.listed h.waits (h.ready_at hpc rfl) ?_ ?_
  · intro rdy W q L' hW hsub hl hs
    cases hs
    exact ⟨L', .windowHand hpc hW hsub, hl,
      ((h.waits.alike (alike_restored _ m s.cur) q).woken q).congr⟩
  · intro q L' hW hsub hl hs
    cases hs
    exact ⟨L', .windowFree hpc hW hsub, hl, (h.waits.alike (alike_restored _ m s.cur) q).congr⟩

theorem go_does (hsw : SwitchesToReady s .go) (hst : s.go = some s') : Reaches s L .go s' := by
  cases hpc : s.pc s.cur with
  | user =>
    simp only [Sys.go, hpc] at hst
    cases hst
  | relChecked m =>
    have hc := h.ready_at hpc rfl
    simp only [Sys.go, hpc] at hst
    exact release_does h (.inr ⟨rfl, hpc⟩) hc hst
  | relWindow m => exact window_does h hpc hst
  | sched next c => exact sched_does h hpc hst
  | switch next c =>
    have hr := hsw next c rfl hpc
    simp only [Sys.go, hpc] at hst
    cases hst
    exact ⟨L, .switch hpc hr, h.listed.congr, h.waits.congr⟩
  | semTimedOut n =>
    have hk := flag_kept (f := fun τ => { τ with semWait := false }) s.cur
      h.listed h.waits (fun _ => rfl) (fun _ => rfl) (fun _ => rfl) fun _ => rfl
    simp only [Sys.go, hpc] at hst
    cases hst
    exact ⟨L, .semClear hpc, hk.1, hk.2⟩
  | mutexWoken m =>
    simp only [Sys.go, hpc] at hst
    obtain ⟨⟨rc, k'⟩, he, hs⟩ := bind_eq_some_iff.mp hst
    cases he
    by_cases ho : (s.k.mutexes m).muOwner = some s.cur
    · rw [show s.k.current = s.cur from rfl, if_pos ho] at hs
      cases hs
      exact ⟨L, .mutexGot hpc ho, h.listed, h.waits⟩
    · rw [show s.k.current = s.cur from rfl, if_neg ho] at hs
      cases hs
      exact ⟨L, .mutexLate hpc ho, h.listed, h.waits⟩
  | resume c =>
    cases c with
    | semPend n =>
      simp only [Sys.go, hpc] at hst
      cases hw : (s.k.tasks s.cur).semWait with
      | true =>
        rw [hw] at hst
        cases hst
        exact ⟨L, .semLate hpc hw, h.listed, h.waits⟩
      | false =>
        rw [hw] at hst
        cases hst
        exact ⟨L, .semGot hpc hw, h.listed, h.waits⟩
    | mutexPend m =>
      have hk := flag_kept (f := fun τ => { τ with mutexWait := false })
        s.cur h.listed h.waits (fun _ => rfl) (fun _ => rfl) (fun _ => rfl) fun _ => rfl
      simp only [Sys.go, hpc] at hst
      cases hst
      exact ⟨L, .mutexClear hpc, hk.1, hk.2⟩
    | evqGet e => exact evqAgain_does h hpc hst
    | returned | delayed | posted =>
      simp only [Sys.go, hpc] at hst
      cases hst
      exact ⟨L, .done hpc rfl nofun, h.listed, h.waits⟩

theorem goCut_does (hst : s.step .goCut = some s') : Reaches s L .goCut s' := by
  simp only [Sys.step] at hst
  split at hst
  · next m hpc =>
    have hl1 : Listed (s.k.lowered m) L := h.listed.congr
    have hw1 : Waits (s.k.lowered m) := h.waits.congr
    obtain ⟨⟨nested, k'⟩, he, hs⟩ := bind_eq_some_iff.mp hst
    cases he
    have hs' : some (((s.withK (s.k.lowered m)).setHeld m s.cur (· - 1)).goto s.cur
          (if decide (((s.k.lowered m).mutexes m).muLevel ≠ 0) = true
            then .user else .relWindow m)) = some s' := hs
    by_cases hlv : ((s.k.lowered m).mutexes m).muLevel = 0
    · rw [if_neg (by simp [hlv])] at hs'
      cases hs'
      exact ⟨L, .cut hpc hlv, hl1, hw1⟩
    · rw [if_pos (by simp [hlv])] at hs'
      cases hs'
      exact ⟨L, .cutNested hpc hlv, hl1, hw1⟩
  · cases hst

/-- Everything a step can do. -/
theorem step_does (hsw : SwitchesToReady s l) (hst : s.step l = some s') : Reaches s L l s' := by
  cases l with
  | call c =>
    simp only [Sys.step] at hst
    split at hst
    · next hpc => exact call_does h hpc hst
    · cases hst
  | checkRelease m =>
    simp only [Sys.step] at hst
    split at hst
    · next hpc =>
      obtain ⟨⟨owned, k'⟩, he, hs⟩ := bind_eq_some_iff.mp hst
      have ho := exec_owned he
      cases owned with
      | true =>
        cases hs
        exact ⟨L, .checked hpc (ho.mp rfl).1 (ho.mp rfl).2, h.listed, h.waits⟩
      | false =>
        cases hs
        exact ⟨L, .notOwned hpc (.inr rfl), h.listed, h.waits⟩
    · cases hst
  | go => exact go_does h hsw hst
  | goCut => exact goCut_does h hst
  | tick =>
    obtain ⟨⟨_, k'⟩, he, hs⟩ := bind_eq_some_iff.mp hst
    refine exec_sound (Q := Answers fun _ k' => some (s.withK k') = some s' → _) ?_ he hs
    have hl1 : Listed s.k.ticked L := h.listed.congr
    have hw1 : Waits s.k.ticked := h.waits.congr
    refine .modify_bind (wp_osSchedOsTimerExp hl1 hw1 ?_)
    intro k' L' hall hl hw hs
    cases hs
    exact ⟨L', .tick hall, hl, hw⟩
  | post e ev =>
    obtain ⟨⟨woke, k'⟩, he, hs⟩ := bind_eq_some_iff.mp hst
    obtain ⟨L', hp, hl, hw⟩ := puts_of_exec h he
    cases hs
    exact ⟨L', .post hp, hl, hw⟩
  | preempt t =>
    simp only [Sys.step] at hst
    split at hst
    · next hr =>
      cases hst
      exact ⟨L, .preempt hr, h.listed.congr, h.waits.congr⟩
    · cases hst

end Each

end Larva.Os
