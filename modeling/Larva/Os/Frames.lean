import Larva.Os.Runs

/-!
# What a step leaves alone

Most steps are about one mutex or one semaphore, or about neither.
`Sys.touches` names the object of a step. A step that is not about a mutex
leaves its owner, its level and what is held of it as they are, and it can
only take tasks off its chain (`Does.mutexKept`); a step that is about no
semaphore leaves the tokens, the counts and the flags of the waiting tasks
(`Does.semKept`). So an invariant of a mutex has to look at the steps of that
mutex only, and one of semaphores at those of semaphores.

Both speak of the point a task has reached up to the moves inside `os_sched`,
which are the same for every call: `Pc.onMutex` and `Pc.onSem`. Memory that no
`os_task_init` has written yet is the exception everywhere.
-/

namespace Larva.Os

open TailQ Function

/-- The object a task that goes on from here is about. -/
def Pc.touched : Pc → Option Obj
  | .relChecked m | .relWindow m | .mutexWoken m => some (.mutex m)
  | .resume (.mutexPend m) => some (.mutex m)
  | .semTimedOut n => some (.sem n)
  | .resume (.semPend n) => some (.sem n)
  | _ => none

/-- The object a step is about. -/
def Sys.touches (s : Sys) : Label → Option Obj
  | .call (.semPend n _) | .call (.semRelease n) | .call (.semDelete n) =>
    some (.sem n)
  | .call (.mutexPend m _) | .call (.mutexRelease m) | .call (.mutexDelete m)
  | .checkRelease m => some (.mutex m)
  | .go | .goCut => (s.pc s.cur).touched
  | _ => none

/-- A point a task can have reached in a call on a mutex. -/
inductive Within where
  | pend
  | woken
  | checked
  | window
  deriving DecidableEq, Repr

/-- The point a task has reached in a call on this mutex. -/
def Pc.onMutex (m : Nat) : Pc → Option Within
  | .sched _ (.mutexPend m') | .switch _ (.mutexPend m')
  | .resume (.mutexPend m') => if m' = m then some .pend else none
  | .mutexWoken m' => if m' = m then some .woken else none
  | .relChecked m' => if m' = m then some .checked else none
  | .relWindow m' => if m' = m then some .window else none
  | _ => none

/-- The semaphore a task waits for or has just been given. -/
def Pc.onSem : Pc → Option Nat
  | .sched _ (.semPend n) | .switch _ (.semPend n) | .resume (.semPend n) =>
    some n
  | _ => none

/-! ## Waking tasks -/

/-- Tasks are woken, and nothing else happens to them. -/
structure Moved (k k' : Kernel) : Prop where
  prio : ∀ b, (k'.tasks b).tPrio = (k.tasks b).tPrio
  flag : ∀ b, (k'.tasks b).semWait = (k.tasks b).semWait
  state : ∀ b, (k'.tasks b).tState = (k.tasks b).tState ∨
    (k'.tasks b).tState = .ready ∧ (k.tasks b).tState = .sleep
  chain : ∀ o, (k'.waiters o).Sublist (k.waiters o)
  mutexes : k'.mutexes = k.mutexes
  tokens : k'.semTokens = k.semTokens
  taskList : k'.taskList = k.taskList

theorem Moved.refl (k : Kernel) : Moved k k :=
  ⟨fun _ => rfl, fun _ => rfl, fun _ => .inl rfl, fun _ => .refl _, rfl, rfl, rfl⟩

theorem Moved.trans {k k1 k' : Kernel} (h : Moved k k1) (h' : Moved k1 k') : Moved k k' := by
  refine ⟨fun b => (h'.prio b).trans (h.prio b), fun b => (h'.flag b).trans (h.flag b), fun b => ?_,
    fun o => (h'.chain o).trans (h.chain o), h'.mutexes.trans h.mutexes,
    h'.tokens.trans h.tokens, h'.taskList.trans h.taskList⟩
  rcases h'.state b with hs | ⟨hs, hs'⟩
  · rw [hs]
    exact h.state b
  · rcases h.state b with hs1 | ⟨hs1, _⟩
    · exact .inr ⟨hs, hs1.symm.trans hs'⟩
    · rw [hs1] at hs'
      cases hs'

theorem moved_woken {k : Kernel} {t : Nat} (q : TailQ ListId Nat)
    (ht : (k.tasks t).tState = .sleep) : Moved k ((k.woken t).withLists q) := by
  refine ⟨fun b => setTask_field Task.tPrio Task.woken t b k rfl,
    fun b => setTask_field Task.semWait Task.woken t b k rfl, fun b => ?_, fun o => ?_, rfl, rfl, rfl⟩
  · rw [woken_tasks]
    by_cases hb : b = t
    · rw [hb, update_self]
      exact .inr ⟨rfl, ht⟩
    · rw [update_of_ne hb]
      exact .inl rfl
  · show (if (k.tasks t).tObj = some o then (k.waiters o).erase t
      else k.waiters o).Sublist (k.waiters o)
    split
    · exact List.erase_sublist
    · exact .refl _

theorem WokenAll.moved {k k' : Kernel} {L L' : Lists} {ts : List Nat}
    (h : WokenAll k L ts k' L') : Moved k k' := by
  induction h with
  | nil => exact .refl _
  | cons ht _ ih => exact (moved_woken _ ht).trans ih

theorem Puts.moved {s : Sys} {k' : Kernel} {L L' : Lists} {e : Nat} {ev : Ev}
    {woke : Bool} (h : Puts s.k L e ev woke k' L') (hs : Sane s L) : Moved s.k k' := by
  cases h with
  | nop => exact .refl _
  | add =>
    exact ⟨fun _ => rfl, fun _ => rfl, fun _ => .inl rfl, fun _ => .refl _, rfl, rfl, rfl⟩
  | @wake t q _ ht =>
    have hw : Moved (s.k.queued e ev) (((s.k.queued e ev).woken t).withLists q) :=
      moved_woken q (hs.evq e t ht).1
    exact ⟨hw.prio, hw.flag, hw.state, hw.chain, rfl, rfl, rfl⟩

/-- The running task gives a mutex up and gets its priority back, and the
first that waits is woken. -/
def Shed (m : Nat) (k k' : Kernel) : Prop :=
  ∃ g q, Moved ((setMutex m g (k.restored m k.current)).withLists q) k'

theorem shed_handed {k : Kernel} {m rdy : Nat} (q : TailQ ListId Nat)
    (ht : (k.tasks rdy).tState = .sleep) : Shed m k ((k.handed m rdy).withLists q) :=
  ⟨fun _ => _, _, moved_woken q (((alike_restored k m k.current).state rdy).trans ht)⟩

theorem shed_freed (k : Kernel) (m : Nat) (q : TailQ ListId Nat) :
    Shed m k ((k.freed m).withLists q) :=
  ⟨_, q, .refl _⟩

/-! ## Going to sleep -/

/-- A field that `os_sched_sleep` does not write. -/
theorem slept_field {β : Type} (g : Task → β)
    (hg : ∀ (τ : Task) w (n : Bool), g { τ with
      tState := .sleep, tNextWakeup := w, noTimeout := n } = g τ) (k : Kernel) (t nticks b : Nat) :
    g ((k.slept t nticks).tasks b) = g (k.tasks b) :=
  setTask_field g _ t b k (hg _ _ _)

theorem waiting_flag (k : Kernel) (m timeout b : Nat) :
    ((k.waiting (.mutex m) timeout).tasks b).semWait = (k.tasks b).semWait :=
  (slept_field Task.semWait (fun _ _ _ => rfl) _ _ _ b).trans
    (setTask_field Task.semWait _ k.current b k rfl)

theorem Sane.head_asleep {s : Sys} {L : Lists} {o : Obj} {rdy : Nat}
    {W : List Nat} (h : Sane s L) (hW : s.k.waiters o = rdy :: W) :
    (s.k.tasks rdy).tState = .sleep := by
  refine h.waits.asleep rdy o ((h.waits.chain o rdy).mp ?_)
  rw [hW]
  exact List.mem_cons_self

theorem Releases.onSem {s : Sys} {l : Label} {m : Nat}
    (h : s.Releases l m) : (s.pc s.cur).onSem = none := by
  rcases h with ⟨_, hpc, _⟩ | ⟨_, hpc⟩ <;> rw [hpc] <;> rfl

/-! ## Points

`f` is what is read off the point of a task. -/

section Points

variable {s s' : Sys} {β : Type}

/-- The running task goes on. -/
theorem point_goto (f : Pc → β) {p : Pc} (hp : f p = f (s.pc s.cur)) (t : Nat)
    (hpc : s'.pc = update s.pc s.cur p) : f (s'.pc t) = f (s.pc t) := by
  rw [hpc]
  by_cases ht : t = s.cur
  · rw [ht, update_self, hp]
  · rw [update_of_ne ht]

/-- It comes to the end of its call. -/
theorem point_finish (f : Pc → β) {r : Resched} {c : Cont} (hu : f .user = f (s.pc s.cur))
    (hpc : s'.pc = (s.finish s.cur r c).pc := by rfl)
    (hc : ∀ next, f (.sched next c) = f .user := by exact fun _ => rfl) (t : Nat) :
    f (s'.pc t) = f (s.pc t) := by
  cases r with
  | none => exact point_goto f hu t hpc
  | some next => exact point_goto f ((hc next).trans hu) t hpc

end Points

/-! ## Steps that are not about a mutex -/

structure MutexKept (m : Nat) (s s' : Sys) : Prop where
  mutexes : s'.k.mutexes m = s.k.mutexes m
  held : s'.held m = s.held m
  chain : (s'.k.waiters (.mutex m)).Sublist (s.k.waiters (.mutex m))
  alive : ∀ t, (s.k.tasks t).tState ≠ .clear → (s'.k.tasks t).tState ≠ .clear
  pc : ∀ t, (s'.pc t).onMutex m = (s.pc t).onMutex m ∨
    (s.k.tasks t).tState = .clear ∧ (s'.pc t).onMutex m = none
  asleep : ∀ t, (s'.k.tasks t).tState = .sleep →
    (s.k.tasks t).tState = .sleep ∨ (s'.pc t).onMutex m = none

section Mutexes

variable {m m₀ : Nat} {s s' : Sys} {L L' : Lists} {p : Pc} {l : Label}

/-- Tasks are woken, after a change that the mutex does not see. -/
theorem MutexKept.of_moved {k : Kernel} (hk : Moved k s'.k)
    (hpc : ∀ t, (s'.pc t).onMutex m = (s.pc t).onMutex m)
    (hm : k.mutexes m = s.k.mutexes m := by rfl) (hw : k.waiters = s.k.waiters := by rfl)
    (hst : ∀ b, (k.tasks b).tState = (s.k.tasks b).tState := by exact fun _ => rfl)
    (hh : s'.held m = s.held m := by rfl) : MutexKept m s s' := by
  refine ⟨(congrFun hk.mutexes m).trans hm, hh, hw ▸ hk.chain _,
    fun t ht => ?_, fun t => .inl (hpc t), fun t ht => .inl ?_⟩
  · rcases hk.state t with hs | ⟨hs, _⟩ <;> rw [hs]
    · rw [hst]
      exact ht
    · decide
  · rcases hk.state t with hs | ⟨hs, _⟩
    · rw [← hst]
      exact hs.symm.trans ht
    · rw [hs] at ht
      cases ht

/-- The running task goes on, as far as the mutex is concerned. -/
theorem MutexKept.of_goto (hpc : s'.pc = update s.pc s.cur p)
    (hp : p.onMutex m = (s.pc s.cur).onMutex m) (hm : s'.k.mutexes m = s.k.mutexes m := by rfl)
    (hh : s'.held m = s.held m := by rfl) (hw : s'.k.waiters = s.k.waiters := by rfl)
    (hst : ∀ b, (s'.k.tasks b).tState = (s.k.tasks b).tState := by exact fun _ => rfl) :
    MutexKept m s s' :=
  .of_moved (.refl _) (fun t => point_goto (Pc.onMutex m) hp t hpc) hm hw hst hh

/-- The running task goes to sleep in a call that is not about the mutex. -/
theorem MutexKept.of_slept (hm : s'.k.mutexes m = s.k.mutexes m) (hh : s'.held m = s.held m)
    (hchain : s'.k.waiters (.mutex m) = s.k.waiters (.mutex m))
    (hrest : ∀ t, t ≠ s.cur → (s'.k.tasks t).tState = (s.k.tasks t).tState)
    (hst : (s'.k.tasks s.cur).tState = .sleep) (hpc : s'.pc = update s.pc s.cur p)
    (hno : p.onMutex m = none) (hno' : (s.pc s.cur).onMutex m = none) : MutexKept m s s' := by
  refine ⟨hm, hh, by rw [hchain], fun t ht => ?_, fun t => .inl
    (point_goto (Pc.onMutex m) (hno.trans hno'.symm) t hpc), fun t ht => ?_⟩
  · by_cases htc : t = s.cur
    · rw [htc, hst]
      decide
    · rw [hrest t htc]
      exact ht
  · by_cases htc : t = s.cur
    · right
      rw [htc, hpc, update_self]
      exact hno
    · left
      rw [← hrest t htc]
      exact ht

/-- Another mutex is given up. -/
theorem MutexKept.of_shed {k : Kernel} (hk : Shed m₀ k s'.k) (hm : m₀ ≠ m)
    (hpc : ∀ t, (s'.pc t).onMutex m = (s.pc t).onMutex m)
    (hmu : k.mutexes m = s.k.mutexes m := by rfl) (hh : s'.held m = s.held m := by rfl)
    (h0 : k = { s.k with mutexes := k.mutexes } := by rfl) : MutexKept m s s' := by
  obtain ⟨g, q, hk⟩ := hk
  have ha := alike_restored k m₀ k.current
  refine .of_moved hk hpc ?_ (ha.waiters.trans (by rw [h0]))
    (fun b => (ha.state b).trans (by rw [h0])) hh
  exact (update_of_ne hm.symm _ _).trans ((congrFun ha.mutexes m).trans hmu)

theorem Releases.onMutex (h : s.Releases l m₀) (hm : m₀ ≠ m) : (s.pc s.cur).onMutex m = none := by
  rcases h with ⟨_, hpc, _⟩ | ⟨_, hpc⟩ <;> rw [hpc]
  · rfl
  · exact if_neg hm

theorem Releases.touches (h : s.Releases l m₀) : s.touches l = some (.mutex m₀) := by
  rcases h with ⟨rfl, _⟩ | ⟨rfl, hpc⟩
  · rfl
  · exact congrArg Pc.touched hpc

/-- What a release does to the level of its mutex, seen from another one. -/
theorem lowered_mutexes (hm : m₀ ≠ m) (k : Kernel) :
    (k.lowered m₀).mutexes m = k.mutexes m :=
  update_of_ne hm.symm _ _

theorem setHeld_other (hm : m₀ ≠ m) (t : Nat) (f : Nat → Nat) :
    (s.setHeld m₀ t f).held m = s.held m :=
  update_of_ne hm.symm _ _

/-- `os_mutex_delete` takes the mutex from nobody. -/
theorem MutexKept.of_delete {r : Resched} {q : TailQ ListId Nat} {k' : Kernel} {L1 : Lists}
    {ts : List Nat} (hpc : s.pc s.cur = .user)
    (hall : WokenAll ((s.k.ownerRestored m₀).withLists q) L1 ts k' L') :
    MutexKept m s ((s.withK k').finish s.cur r .returned) := by
  have hk := alike_ownerRestored s.k m₀
  exact .of_moved hall.moved (point_finish (Pc.onMutex m) (by rw [hpc]))
    (congrFun hk.mutexes m) hk.waiters hk.state

theorem Does.mutexKept (h : Sane s L) (hd : Does s L l s' L') (ht : s.touches l ≠ some (.mutex m)) :
    MutexKept m s s' := by
  have hne : ∀ m0, s.touches l = some (.mutex m0) → m0 ≠ m := by
    rintro m0 hm0 rfl
    exact ht hm0
  cases hd with
  | semBusy | semTake | mutexBusy | notOwned | preempt =>
    exact .of_moved (.refl _) fun _ => rfl
  | @semBlock n timeout q hpc =>
    refine .of_slept rfl rfl ?_ (fun b hb => congrArg Task.tState
      (waiting_rest s.k (.sem n) timeout hb)) ?_ rfl rfl (by rw [hpc]; rfl)
    · simp [Kernel.waiting, Kernel.slept, setTask, enqueue, setWaiters,
        Sys.goto, Sys.withK, Kernel.withLists]
    · exact congrArg Task.tState (waiting_self s.k (.sem n) timeout)
  | @semGrant n rdy W q hpc hW =>
    have hst := fun b => setTask_field Task.tState
      (fun τ => { τ with semWait := false }) rdy b s.k rfl
    exact .of_moved (moved_woken q ((hst rdy).trans (h.head_asleep hW)))
      (point_finish (Pc.onMutex m) (by rw [hpc])) rfl rfl hst
  | semAdd hpc | noDelay hpc => exact .of_goto rfl (by rw [hpc])
  | semDelete hpc hall =>
    exact .of_moved hall.moved (point_finish (Pc.onMutex m) (by rw [hpc]))
  | @mutexTake m0 | @mutexNest m0 =>
    have hm := hne m0 rfl
    exact .of_moved (.refl _) (fun _ => rfl) (update_of_ne hm.symm _ _) rfl
      (fun _ => rfl) (setHeld_other hm _ _)
  | @mutexBlock m0 timeout owner q L1 hpc =>
    have hm := hne m0 rfl
    have hk := alike_boosted s.k owner
    have hcur : (s.k.boosted owner).current = s.cur := hk.current
    refine .of_slept (congrFun hk.mutexes m) rfl ?_ (fun b hb => ?_) ?_ rfl
      (if_neg hm) (by rw [hpc]; rfl)
    · rw [← hk.waiters]
      simp [Kernel.waiting, Kernel.slept, setTask, enqueue, setWaiters,
        Sys.goto, Sys.withK, Kernel.withLists, hm.symm]
    · rw [← hcur] at hb
      exact (congrArg Task.tState (waiting_rest _ (.mutex m0) timeout hb)).trans
        (hk.state b)
    · rw [← hcur]
      exact congrArg Task.tState (waiting_self _ (.mutex m0) timeout)
  | @checked m0 hpc =>
    refine .of_goto rfl ?_
    rw [hpc]
    exact if_neg (hne m0 rfl)
  | @unnest l m0 hr =>
    have hm := hne m0 (Releases.touches hr)
    exact .of_goto rfl (Releases.onMutex hr hm).symm (lowered_mutexes hm s.k)
      (setHeld_other hm s.cur (· - 1))
  | @hand l m0 rdy W q _ hr hlv hW =>
    have hm := hne m0 (Releases.touches hr)
    exact .of_shed (shed_handed q (h.head_asleep hW)) hm
      (point_finish (Pc.onMutex m) (Releases.onMutex hr hm).symm) (lowered_mutexes hm s.k)
      (setHeld_other hm s.cur (· - 1))
  | @free l m0 q _ hr =>
    have hm := hne m0 (Releases.touches hr)
    exact .of_shed (shed_freed ..) hm
      (point_finish (Pc.onMutex m) (Releases.onMutex hr hm).symm) (lowered_mutexes hm s.k)
      (setHeld_other hm s.cur (· - 1))
  | @cutNested m0 hpc | @cut m0 hpc =>
    have hm := hne m0 (congrArg Pc.touched hpc)
    refine .of_goto rfl ?_ (lowered_mutexes hm s.k) (setHeld_other hm s.cur (· - 1))
    rw [hpc]
    simp [Pc.onMutex, hm]
  | @windowHand m0 rdy W q _ hpc hW =>
    have hm := hne m0 (congrArg Pc.touched hpc)
    refine .of_shed (shed_handed q (h.head_asleep hW)) hm (point_finish (Pc.onMutex m) ?_)
    rw [hpc]
    exact (if_neg hm).symm
  | @windowFree m0 q _ hpc =>
    have hm := hne m0 (congrArg Pc.touched hpc)
    refine .of_shed (shed_freed ..) hm (point_finish (Pc.onMutex m) ?_)
    rw [hpc]
    exact (if_neg hm).symm
  | mutexDelete hpc hL hall => exact .of_delete hpc hall
  | @evqGet e got k' _ hpc hg | @evqAgain e got k' _ hpc hg =>
    cases hg with
    | got => exact .of_goto rfl (by rw [hpc]; rfl)
    | block =>
      exact .of_slept rfl rfl rfl
        (fun b hb => congrArg Task.tState (slept_rest _ osTimeoutNever hb))
        (congrArg Task.tState (slept_self _ s.cur osTimeoutNever)) rfl rfl (by rw [hpc]; rfl)
  | evqPut hpc hp =>
    exact .of_moved (hp.moved h) (point_finish (Pc.onMutex m) (by rw [hpc]))
  | post hp => exact .of_moved (hp.moved h) fun t => rfl
  | @delay osticks q hpc =>
    exact .of_slept rfl rfl rfl (fun b hb => congrArg Task.tState (slept_rest s.k osticks.toNat hb))
      (congrArg Task.tState (slept_self s.k s.cur osticks.toNat)) rfl rfl (by rw [hpc]; rfl)
  | @taskInit t prio q _ hpc ht' hL =>
    refine ⟨rfl, rfl, .refl _, fun b hb => ?_, fun b => ?_,
      fun b hb => .inl (newTask_asleep hb).2⟩
    · have hbt : b ≠ t := fun he => hb (he ▸ ht')
      exact fun hc => hb ((congrArg Task.tState (newTask_rest s.k prio q hbt)).symm.trans hc)
    · by_cases hbt : b = t
      · subst hbt
        right
        show _ ∧ (update s.pc b .user b).onMutex m = none
        rw [update_self]
        exact ⟨ht', rfl⟩
      · exact .inl (congrArg (Pc.onMutex m) (update_of_ne hbt _ _))
  | @schedSelf next c hpc | @schedOther next c t hpc | @switch next c hpc =>
    exact .of_goto rfl (by rw [hpc]; cases c <;> rfl)
  | semGot hpc | semLate hpc => exact .of_goto rfl (by rw [hpc]; rfl)
  | semClear hpc =>
    exact .of_goto rfl (by rw [hpc]; rfl) rfl rfl rfl fun b => setTask_field Task.tState
      (fun τ => { τ with semWait := false }) _ b s.k rfl
  | @mutexClear m0 hpc =>
    have hm := hne m0 (congrArg Pc.touched hpc)
    refine .of_goto rfl ?_ rfl rfl rfl fun b => setTask_field Task.tState
      (fun τ => { τ with mutexWait := false }) _ b s.k rfl
    rw [hpc]
    simp [Pc.onMutex, hm]
  | @mutexGot m0 hpc =>
    have hm := hne m0 (congrArg Pc.touched hpc)
    refine .of_goto rfl ?_ rfl (setHeld_other hm s.cur (· + 1))
    rw [hpc]
    simp [Pc.onMutex, hm]
  | @mutexLate m0 hpc =>
    have hm := hne m0 (congrArg Pc.touched hpc)
    refine .of_goto rfl ?_
    rw [hpc]
    simp [Pc.onMutex, hm]
  | @done c hpc hc =>
    refine .of_goto rfl ?_
    rw [hpc]
    cases c with
    | mutexPend m => cases hc
    | _ => rfl
  | tick hall => exact .of_moved hall.moved fun _ => rfl

end Mutexes

/-! ## Steps that change no priority -/

/-- The priorities are as they were. A task that is created gets the one it is
created with. -/
structure PrioKept (s s' : Sys) : Prop where
  alive : ∀ t, (s.k.tasks t).tState ≠ .clear → (s'.k.tasks t).tPrio = (s.k.tasks t).tPrio
  fresh : ∀ t, (s.k.tasks t).tPrio = s.initPrio t → (s'.k.tasks t).tPrio = s'.initPrio t

section Prio

variable {s s' : Sys} {L L' : Lists}

theorem PrioKept.of_eq (hi : s'.initPrio = s.initPrio)
    (hp : ∀ t, (s'.k.tasks t).tPrio = (s.k.tasks t).tPrio) : PrioKept s s' :=
  ⟨fun t _ => hp t, fun t ht => by rw [hp, hi, ht]⟩

theorem waiting_prio (k : Kernel) (o : Obj) (timeout b : Nat) :
    ((k.waiting o timeout).tasks b).tPrio = (k.tasks b).tPrio :=
  (slept_field Task.tPrio (fun _ _ _ => rfl) _ _ _ b).trans
    (setTask_field Task.tPrio (Task.waitOn o) k.current b k (waitOn_prio o _))

theorem Gets.prio {k k' : Kernel} {e : Nat} {got : Bool} (h : Gets k L e got k' L') (b : Nat) :
    (k'.tasks b).tPrio = (k.tasks b).tPrio := by
  cases h with
  | got => rfl
  | block => exact slept_field Task.tPrio (fun _ _ _ => rfl) _ _ _ b

theorem Does.prioKept {l : Label} (h : Sane s L) (hd : Does s L l s' L')
    (ht : ∀ m, s.touches l ≠ some (.mutex m)) : PrioKept s s' := by
  cases hd with
  | semBlock => exact .of_eq rfl fun b => waiting_prio s.k _ _ b
  | @semGrant n rdy W q hpc hW =>
    refine .of_eq rfl fun b => ?_
    have hst := setTask_field Task.tState (fun τ => { τ with semWait := false }) rdy rdy s.k rfl
    exact ((moved_woken q (hst.trans (h.head_asleep hW))).prio b).trans
      (setTask_field Task.tPrio (fun τ => { τ with semWait := false }) rdy b s.k rfl)
  | semDelete _ hall | tick hall => exact .of_eq rfl hall.moved.prio
  | evqGet _ hg | evqAgain _ hg => exact .of_eq rfl hg.prio
  | evqPut _ hp | post hp => exact .of_eq rfl (hp.moved h).prio
  | delay =>
    exact .of_eq rfl fun b =>
      slept_field Task.tPrio (fun _ _ _ => rfl) s.k _ _ b
  | semClear =>
    exact .of_eq rfl fun b => setTask_field Task.tPrio
      (fun τ => { τ with semWait := false }) _ b s.k rfl
  | @taskInit t prio q _ hpc ht' hL =>
    have hrest : ∀ b, b ≠ t → _ := fun b hb => newTask_rest s.k prio q hb
    have hself := newTask_self s.k t prio q
    refine ⟨fun b hb => ?_, fun b hb => ?_⟩
    · have hbt : b ≠ t := fun he => hb (he ▸ ht')
      exact congrArg Task.tPrio (hrest b hbt)
    · by_cases hbt : b = t
      · subst hbt
        exact (congrArg Task.tPrio hself).trans (update_self b prio s.initPrio).symm
      · exact (congrArg Task.tPrio (hrest b hbt)).trans (hb.trans (update_of_ne hbt _ _).symm)
  | unnest hr | hand hr | free hr => exact (ht _ (Releases.touches hr)).elim
  | mutexTake | mutexNest | mutexBusy | mutexBlock | checked | mutexDelete =>
    exact (ht _ rfl).elim
  | cutNested hpc | cut hpc | windowHand hpc | windowFree hpc
  | mutexClear hpc =>
    exact (ht _ (congrArg Pc.touched hpc)).elim
  | _ => exact .of_eq rfl fun _ => rfl

end Prio

/-! ## Steps that are about no semaphore -/

structure SemKept (s s' : Sys) : Prop where
  tokens : s'.k.semTokens = s.k.semTokens
  releases : s'.releases = s.releases
  grants : s'.grants = s.grants
  chain : ∀ n, (s'.k.waiters (.sem n)).Sublist (s.k.waiters (.sem n))
  task : ∀ t, t ∈ s.k.taskList → t ∈ s'.k.taskList ∧
    (s'.k.tasks t).semWait = (s.k.tasks t).semWait ∧ (s'.pc t).onSem = (s.pc t).onSem
  fresh : ∀ t, t ∈ s'.k.taskList → t ∈ s.k.taskList ∨ (s'.pc t).onSem = none
  asleep : ∀ t, (s'.k.tasks t).tState = .sleep →
    (s.k.tasks t).tState = .sleep ∨ (s'.pc t).onSem = none

section Sems

variable {s s' : Sys} {L L' : Lists} {k : Kernel} {p : Pc}

/-- Tasks are woken, after a change that no semaphore sees. -/
theorem SemKept.of_moved (hk : Moved k s'.k) (hpc : ∀ t, (s'.pc t).onSem = (s.pc t).onSem)
    (ht : k.semTokens = s.k.semTokens := by rfl) (hl : k.taskList = s.k.taskList := by rfl)
    (hw : k.waiters = s.k.waiters := by rfl)
    (hf : ∀ b, (k.tasks b).semWait = (s.k.tasks b).semWait := by exact fun _ => rfl)
    (hst : ∀ b, (k.tasks b).tState = (s.k.tasks b).tState := by exact fun _ => rfl)
    (hr : s'.releases = s.releases := by rfl) (hg : s'.grants = s.grants := by rfl) :
    SemKept s s' := by
  have hlist := hk.taskList.trans hl
  refine ⟨hk.tokens.trans ht, hr, hg, fun n => hw ▸ hk.chain _,
    fun t hm => ⟨hlist ▸ hm, (hk.flag t).trans (hf t), hpc t⟩,
    fun t hm => .inl (hlist ▸ hm), fun t hs => .inl ?_⟩
  rcases hk.state t with hs' | ⟨hs', _⟩
  · rw [← hst]
    exact hs'.symm.trans hs
  · rw [hs'] at hs
    cases hs

/-- Tasks are woken after the owner of a mutex gets its priority back. -/
theorem SemKept.of_alike {k0 k1 : Kernel} (hk : Moved k s'.k) (h1 : Alike k0 k1)
    (hpc : ∀ t, (s'.pc t).onSem = (s.pc t).onSem)
    (h0 : k0 = { s.k with mutexes := k0.mutexes } := by rfl)
    (hk1 : k = { k1 with mutexes := k.mutexes, lists := k.lists } := by rfl)
    (hr : s'.releases = s.releases := by rfl) (hg : s'.grants = s.grants := by rfl) :
    SemKept s s' := by
  refine .of_moved hk hpc ?_ ?_ ?_ (fun b => ?_) (fun b => ?_) hr hg <;> rw [hk1]
  · exact h1.semTokens.trans (by rw [h0])
  · exact h1.taskList.trans (by rw [h0])
  · exact h1.waiters.trans (by rw [h0])
  · exact (h1.field Task.semWait (fun _ _ => rfl) b).trans (by rw [h0])
  · exact (h1.state b).trans (by rw [h0])

theorem SemKept.of_shed {m : Nat} (hk : Shed m k s'.k) (hpc : ∀ t, (s'.pc t).onSem = (s.pc t).onSem)
    (h0 : k = { s.k with mutexes := k.mutexes } := by rfl)
    (hr : s'.releases = s.releases := by rfl) (hg : s'.grants = s.grants := by rfl) :
    SemKept s s' := by
  obtain ⟨g, q, hk⟩ := hk
  exact .of_alike hk (alike_restored k m k.current) hpc h0 rfl hr hg

/-- The running task goes on, and not with a semaphore. -/
theorem SemKept.of_goto (hpc : s'.pc = update s.pc s.cur p) (hp : p.onSem = (s.pc s.cur).onSem)
    (ht : s'.k.semTokens = s.k.semTokens := by rfl) (hl : s'.k.taskList = s.k.taskList := by rfl)
    (hw : s'.k.waiters = s.k.waiters := by rfl)
    (hf : ∀ b, (s'.k.tasks b).semWait = (s.k.tasks b).semWait := by exact fun _ => rfl)
    (hst : ∀ b, (s'.k.tasks b).tState = (s.k.tasks b).tState := by exact fun _ => rfl)
    (hr : s'.releases = s.releases := by rfl) (hg : s'.grants = s.grants := by rfl) :
    SemKept s s' :=
  .of_moved (.refl _) (fun t => point_goto Pc.onSem hp t hpc) ht hl hw hf hst hr hg

/-- The running task goes to sleep in a call that is not about a
semaphore. -/
theorem SemKept.of_slept (ht : s'.k.semTokens = s.k.semTokens) (hl : s'.k.taskList = s.k.taskList)
    (hr : s'.releases = s.releases) (hg : s'.grants = s.grants)
    (hchain : ∀ n, s'.k.waiters (.sem n) = s.k.waiters (.sem n))
    (hf : ∀ t, (s'.k.tasks t).semWait = (s.k.tasks t).semWait)
    (hst : ∀ t, t ≠ s.cur → (s'.k.tasks t).tState = (s.k.tasks t).tState)
    (hpc : s'.pc = update s.pc s.cur p) (hno : p.onSem = none) (hno' : (s.pc s.cur).onSem = none) :
    SemKept s s' := by
  refine ⟨ht, hr, hg, fun n => by rw [hchain], fun t hm => ⟨hl ▸ hm, hf t,
    point_goto Pc.onSem (hno.trans hno'.symm) t hpc⟩, fun t hm => .inl (hl ▸ hm), fun t hs => ?_⟩
  by_cases htc : t = s.cur
  · right
    rw [htc, hpc, update_self]
    exact hno
  · left
    rw [← hst t htc]
    exact hs

theorem Does.semKept {l : Label} (h : Sane s L) (hd : Does s L l s' L')
    (ht : ∀ n, s.touches l ≠ some (.sem n)) : SemKept s s' := by
  cases hd with
  | semTake | semBusy | semBlock | semGrant | semAdd | semDelete =>
    exact (ht _ rfl).elim
  | semGot hpc | semLate hpc | semClear hpc =>
    exact (ht _ (congrArg Pc.touched hpc)).elim
  | mutexTake | mutexNest | mutexBusy | notOwned | preempt =>
    exact .of_moved (.refl _) fun _ => rfl
  | @mutexBlock m timeout owner q L1 hpc hlv ho hne hto hL =>
    have hk := alike_boosted s.k owner
    have hcur : (s.k.boosted owner).current = s.cur := hk.current
    refine .of_slept hk.semTokens hk.taskList rfl rfl (fun n => ?_)
      (fun b => ?_) (fun b hb => ?_) rfl rfl (by rw [hpc]; rfl)
    · rw [← hk.waiters]
      simp [Kernel.waiting, Kernel.slept, setTask, enqueue, setWaiters,
        Sys.goto, Sys.withK, Kernel.withLists]
    · exact (waiting_flag _ m timeout b).trans
        (hk.field Task.semWait (fun _ _ => rfl) b)
    · rw [← hcur] at hb
      exact (congrArg Task.tState (waiting_rest _ (.mutex m) timeout hb)).trans
        (hk.state b)
  | checked hpc | cutNested hpc | cut hpc | mutexGot hpc | mutexLate hpc =>
    exact .of_goto rfl (by rw [hpc]; rfl)
  | unnest hr => exact .of_goto rfl (Releases.onSem hr).symm
  | hand hr _ hW =>
    exact .of_shed (shed_handed _ (h.head_asleep hW))
      (point_finish Pc.onSem (Releases.onSem hr).symm)
  | free hr => exact .of_shed (shed_freed ..) (point_finish Pc.onSem (Releases.onSem hr).symm)
  | windowHand hpc hW =>
    exact .of_shed (shed_handed _ (h.head_asleep hW)) (point_finish Pc.onSem (by rw [hpc]; rfl))
  | windowFree hpc =>
    exact .of_shed (shed_freed ..) (point_finish Pc.onSem (by rw [hpc]; rfl))
  | @mutexDelete m q k' L1 _ hpc hL hall =>
    exact .of_alike hall.moved (alike_ownerRestored s.k m) (point_finish Pc.onSem (by rw [hpc]))
  | @evqGet e got k' _ hpc hg | @evqAgain e got k' _ hpc hg =>
    cases hg with
    | got => exact .of_goto rfl (by rw [hpc]; rfl)
    | block =>
      exact .of_slept rfl rfl rfl rfl (fun _ => rfl)
        (fun b => slept_field Task.semWait (fun _ _ _ => rfl) _ _ _ b)
        (fun b hb => congrArg Task.tState (slept_rest _ osTimeoutNever hb))
        rfl rfl (by rw [hpc]; rfl)
  | evqPut hpc hp => exact .of_moved (hp.moved h) (point_finish Pc.onSem (by rw [hpc]))
  | post hp => exact .of_moved (hp.moved h) fun t => rfl
  | noDelay hpc => exact .of_goto rfl (by rw [hpc])
  | @delay osticks q hpc =>
    exact .of_slept rfl rfl rfl rfl (fun _ => rfl)
      (fun b => slept_field Task.semWait (fun _ _ _ => rfl) _ _ _ b)
      (fun b hb => congrArg Task.tState (slept_rest s.k osticks.toNat hb))
      rfl rfl (by rw [hpc]; rfl)
  | @taskInit t prio q _ hpc ht' hL =>
    have hrest : ∀ b, b ∈ s.k.taskList → b ≠ t := by
      rintro b hb rfl
      exact (h.listed.known b).mp hb ht'
    refine ⟨rfl, rfl, rfl, fun _ => .refl _, fun b hb => ?_, fun b hb => ?_,
      fun b hb => .inl (newTask_asleep hb).2⟩
    · exact ⟨List.mem_append_left _ hb, congrArg Task.semWait (update_of_ne (hrest b hb) _ _),
        congrArg Pc.onSem (update_of_ne (hrest b hb) _ _)⟩
    · rcases List.mem_append.mp hb with hb | hb
      · exact .inl hb
      · obtain rfl := List.mem_singleton.mp hb
        right
        show (update s.pc b .user b).onSem = none
        rw [update_self]
        rfl
  | @schedSelf next c hpc | @schedOther next c t hpc | @switch next c hpc =>
    exact .of_goto rfl (by rw [hpc]; cases c <;> rfl)
  | mutexClear hpc =>
    exact .of_goto rfl (by rw [hpc]; rfl) rfl rfl rfl
      (fun b => setTask_field Task.semWait (fun τ => { τ with mutexWait := false }) _ b s.k rfl)
      fun b => setTask_field Task.tState (fun τ => { τ with mutexWait := false }) _ b s.k rfl
  | @done c hpc hc =>
    refine .of_goto rfl ?_
    rw [hpc]
    cases c with
    | semPend n => cases hc
    | _ => rfl
  | tick hall => exact .of_moved hall.moved fun _ => rfl

end Sems

end Larva.Os
