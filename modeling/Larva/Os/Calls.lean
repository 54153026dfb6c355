import Larva.Os.Sched

/-!
# What the calls do

One rule for each piece of `Kernel` that a task or an interrupt handler runs.
A rule assumes that the lists and chains are in order and that the task that
runs is ready, and it lists the ways the piece can end: the answer, the state,
and that the lists are in order again. The states are written with a few
updates (`waiting`, `boosted`, `restored`, `handed`, `freed`), so that what
comes after needs none of the programs.

A piece that follows a `NULL` owner fails here as it does in the source; the
rule then asks for nothing but that the reader allows for it.
-/

namespace Larva.Os

open Crash TailQ Function List

def Task.waitOn (o : Obj) (τ : Task) : Task :=
  match o with
  | .sem n => { τ with tObj := some (.sem n), semWait := true }
  | .mutex m => { τ with tObj := some (.mutex m), mutexWait := true }

/-- The running task goes on the chain of an object and to sleep. -/
def Kernel.waiting (o : Obj) (timeout : Nat) (k : Kernel) : Kernel :=
  Kernel.slept k.current timeout (enqueue o k.current (setTask k.current (Task.waitOn o) k))

/-- The owner becomes as urgent as the running task. -/
def Kernel.boosted (owner : Nat) (k : Kernel) : Kernel :=
  if (k.tasks k.current).tPrio < (k.tasks owner).tPrio then
    k.reprio owner (k.tasks k.current).tPrio
  else k

/-- The owner gets back what the mutex has kept. -/
def Kernel.restored (m owner : Nat) (k : Kernel) : Kernel :=
  if (k.tasks owner).tPrio ≠ (k.mutexes m).muPrio then
    k.reprio owner (k.mutexes m).muPrio
  else k

/-- The running task passes the mutex on. -/
def Kernel.handed (m rdy : Nat) (k : Kernel) : Kernel :=
  setMutex m (fun _ => ⟨(k.tasks rdy).tPrio, 1, some rdy⟩) ((k.restored m k.current).woken rdy)

/-- The running task gives the mutex up, and nobody waits. -/
def Kernel.freed (m : Nat) (k : Kernel) : Kernel :=
  setMutex m (fun mu => { mu with muOwner := none }) (k.restored m k.current)

/-- What a call asks of `os_sched` that compares the running task with the
first of the run list. -/
def reschedTo (t : Nat) (L : Lists) : Resched :=
  if (L .run).head? = some t then none else some (L .run).head?

/-- The event is on the queue. -/
def Kernel.queued (e : Nat) (ev : Ev) (k : Kernel) : Kernel := { k with
  evQueued := update k.evQueued ev true
  evqList := update k.evqList e (k.evqList e ++ [ev]) }

/-- The event `ev` is off the queue, and `evs` is left. -/
def Kernel.pulled (e : Nat) (ev : Ev) (evs : List Ev) (k : Kernel) : Kernel :=
  { k with
    evqList := update k.evqList e evs
    evQueued := update k.evQueued ev false }

def Kernel.newTask (t prio : Nat) (k : Kernel) : Kernel :=
  Kernel.noteInsert t { k with
    tasks := update k.tasks t ⟨prio, .ready, false, false, false, none, 0⟩
    taskList := k.taskList ++ [t] }

section Frames

variable {k k' : Kernel} {L : Lists} {t : Nat}

/-- The lists speak of states, priorities and timeouts only. -/
theorem Listed.congr (h : Listed k L)
    (hs : ∀ b, (k'.tasks b).tState = (k.tasks b).tState := by exact fun _ => rfl)
    (hp : ∀ b, (k'.tasks b).tPrio = (k.tasks b).tPrio := by exact fun _ => rfl)
    (hn : ∀ b, (k'.tasks b).noTimeout = (k.tasks b).noTimeout := by exact fun _ => rfl)
    (hl : k'.lists = k.lists := by rfl) (ht : k'.taskList = k.taskList := by rfl)
    (hi : k'.inserted = k.inserted := by rfl) (hc : k'.insertions = k.insertions := by rfl) :
    Listed k' L := by
  have hb : k'.Before = k.Before := by
    funext a b
    simp only [Kernel.Before, hp, hi]
  refine ⟨hl ▸ h.queues, fun x => ?_, fun x => ?_, fun x => ?_, hb ▸ h.sorted, ?_, ?_⟩
  · rw [hs]
    exact h.run x
  · rw [hs]
    exact h.sleep x
  · rw [hs, ht]
    exact h.known x
  · rw [hi, hc]
    exact h.numbered
  · simpa only [hn] using h.timed

/-- The chains speak of the objects waited on, and of states. -/
theorem Waits.congr (w : Waits k)
    (hs : ∀ b, (k'.tasks b).tState = (k.tasks b).tState := by exact fun _ => rfl)
    (ho : ∀ b, (k'.tasks b).tObj = (k.tasks b).tObj := by exact fun _ => rfl)
    (hn : ∀ b, (k'.tasks b).noTimeout = (k.tasks b).noTimeout := by exact fun _ => rfl)
    (hw : k'.waiters = k.waiters := by rfl) : Waits k' := by
  refine ⟨fun o t => ?_, fun o => ?_, fun t o => ?_, fun t => ?_⟩
  · rw [hw, ho]
    exact w.chain o t
  · rw [hw]
    exact w.nodup o
  · rw [ho, hs]
    exact w.asleep t o
  · rw [hn, hs]
    exact w.forever t

/-- A change to one task that no clause speaks of. -/
theorem setTask_field {β : Type} (g : Task → β) (f : Task → Task) (t b : Nat)
    (k : Kernel) (hg : g (f (k.tasks t)) = g (k.tasks t)) :
    g ((setTask t f k).tasks b) = g (k.tasks b) := by
  by_cases hb : b = t
  · subst hb
    simp [setTask, hg]
  · simp [setTask, hb]

/-- A flag of one task, which the lists and chains do not look at. -/
theorem flag_kept {f : Task → Task} (t : Nat) (hl : Listed k L)
    (hw : Waits k) (hs : ∀ τ, (f τ).tState = τ.tState) (hp : ∀ τ, (f τ).tPrio = τ.tPrio)
    (hn : ∀ τ, (f τ).noTimeout = τ.noTimeout) (ho : ∀ τ, (f τ).tObj = τ.tObj) :
    Listed (setTask t f k) L ∧ Waits (setTask t f k) :=
  ⟨hl.congr (fun b => setTask_field Task.tState _ t b k (hs _))
      (fun b => setTask_field Task.tPrio _ t b k (hp _))
      (fun b => setTask_field Task.noTimeout _ t b k (hn _)) rfl rfl rfl rfl,
    hw.congr (fun b => setTask_field Task.tState _ t b k (hs _))
      (fun b => setTask_field Task.tObj _ t b k (ho _))
      (fun b => setTask_field Task.noTimeout _ t b k (hn _)) rfl⟩

theorem Waits.length_lt (w : Waits k) (h : Listed k L) (o : Obj) :
    (k.waiters o).length < k.rounds := by
  have hsub : k.waiters o ⊆ k.taskList := by
    intro t ht
    rw [h.known, w.asleep t o ((w.chain o t).mp ht)]
    decide
  exact Nat.lt_succ_of_le (List.subperm_of_subset (w.nodup o) hsub).length_le

theorem waitOn_state (o : Obj) (τ : Task) : (τ.waitOn o).tState = τ.tState := by
  cases o <;> rfl

theorem waitOn_prio (o : Obj) (τ : Task) : (τ.waitOn o).tPrio = τ.tPrio := by
  cases o <;> rfl

theorem waitOn_noTimeout (o : Obj) (τ : Task) : (τ.waitOn o).noTimeout = τ.noTimeout := by
  cases o <;> rfl

theorem waitOn_obj (o : Obj) (τ : Task) : (τ.waitOn o).tObj = some o := by
  cases o <;> rfl

/-- On the chain, still awake. -/
theorem Listed.enqueued (h : Listed k L) (o : Obj) (t : Nat) :
    Listed (enqueue o t (setTask t (Task.waitOn o) k)) L :=
  h.congr (fun b => setTask_field Task.tState _ t b k (waitOn_state o _))
    (fun b => setTask_field Task.tPrio _ t b k (waitOn_prio o _))
    (fun b => setTask_field Task.noTimeout _ t b k (waitOn_noTimeout o _)) rfl rfl rfl rfl

theorem waiting_self (k : Kernel) (o : Obj) (timeout : Nat) :
    (k.waiting o timeout).tasks k.current = { (k.tasks k.current).waitOn o with
        tState := .sleep
        tNextWakeup := (k.time + timeout) % 2 ^ 32
        noTimeout := ((k.tasks k.current).waitOn o).noTimeout ||
          decide (timeout = osTimeoutNever) } := by
  simp [Kernel.waiting, Kernel.slept, setTask, enqueue, setWaiters]

theorem waiting_rest (k : Kernel) (o : Obj) (timeout : Nat) {b : Nat}
    (hb : b ≠ k.current) : (k.waiting o timeout).tasks b = k.tasks b := by
  simp [Kernel.waiting, Kernel.slept, setTask, enqueue, setWaiters, hb]

theorem Waits.waiting (w : Waits k) (hc : (k.tasks k.current).tState = .ready)
    (o : Obj) (timeout : Nat) (q : TailQ ListId Nat) :
    Waits ((k.waiting o timeout).withLists q) := by
  have hoff := w.notMem hc
  have hself := waiting_self k o timeout
  have hw : ∀ o' x, x ∈ (k.waiting o timeout).waiters o' ↔
      (o' = o ∧ x = k.current) ∨ x ∈ k.waiters o' := by
    intro o' x
    by_cases ho : o' = o
    · subst ho
      simp [Kernel.waiting, Kernel.slept, setTask, enqueue, setWaiters]
    · simp [Kernel.waiting, Kernel.slept, setTask, enqueue, setWaiters, ho]
  refine w.of_task (fun b => waiting_rest k o timeout) (fun o' x hx => ?_)
    (fun o' => ?_) (fun o' => ?_) (.inl (congrArg Task.tState hself))
  · exact (hw o' x).trans (by simp [hx])
  · refine (hw o' k.current).trans ?_
    show _ ↔ ((k.waiting o timeout).tasks k.current).tObj = some o'
    simp [hself, waitOn_obj, hoff, eq_comm]
  · show ((k.waiting o timeout).waiters o').Nodup
    by_cases ho : o' = o
    · subst ho
      simp only [Kernel.waiting, Kernel.slept, setTask, enqueue, setWaiters, update_self]
      exact nodup_insertAt (w.nodup o') (hoff o')
    · simp only [Kernel.waiting, Kernel.slept, setTask, enqueue, setWaiters, update_of_ne ho]
      exact w.nodup o'

end Frames

/-! ## Semaphores -/

section Sem

variable {k : Kernel} {L : Lists} {n timeout : Nat} {Q : Post Kernel Empty Resched}

theorem wp_osSemPend {Q : Post Kernel Empty Entry} (h : Listed k L)
    (w : Waits k) (hc : (k.tasks k.current).tState = .ready) (htake : k.semTokens n ≠ 0 →
      Q.ok (.ret .ok) (setTokens n (fun tokens => tokens - 1) k))
    (hbusy : k.semTokens n = 0 → timeout = 0 → Q.ok (.ret .timeout) k)
    (hblock : k.semTokens n = 0 → timeout ≠ 0 → ∀ q,
      Listed ((k.waiting (.sem n) timeout).withLists q)
        (L.slept (k.waiting (.sem n) timeout) k.current) →
      Q.ok .block ((k.waiting (.sem n) timeout).withLists q)) : Wp (osSemPend n timeout) Q k := by
  refine .get_bind ?_
  split
  · next ht => exact .modify_bind (.pure (htake ht))
  · next ht =>
    rw [ne_eq, not_not] at ht
    split
    · next hz => exact .pure (hbusy ht hz)
    · next hz =>
      refine .modify_bind (.modify_bind (.bind ?_))
      refine wp_osSchedSleep (h.enqueued (.sem n) k.current) ?_ ?_
        fun q hl => .pure (hblock ht hz q hl)
      · simpa [enqueue, setWaiters, setTask, waitOn_state] using hc
      · simpa [enqueue, setWaiters, setTask, waitOn_noTimeout] using w.noTimeout_eq hc

/-- The waiter that a release of the semaphore wakes. -/
def Kernel.granted (rdy : Nat) (k : Kernel) : Kernel :=
  (setTask rdy (fun τ => { τ with semWait := false }) k).woken rdy

theorem granted_self (k : Kernel) (rdy : Nat) (q : TailQ ListId Nat) :
    ((k.granted rdy).withLists q).tasks rdy = { (k.tasks rdy).woken with semWait := false } := by
  simp [Kernel.granted, setTask, Task.woken]

theorem granted_rest (k : Kernel) {rdy b : Nat} (q : TailQ ListId Nat) (hb : b ≠ rdy) :
    ((k.granted rdy).withLists q).tasks b = k.tasks b := by
  simp [Kernel.granted, setTask, hb]

theorem wp_osSemRelease (h : Listed k L) (w : Waits k)
    (hgrant : ∀ rdy W q, k.waiters (.sem n) = rdy :: W →
      Listed ((k.granted rdy).withLists q) (L.woken k rdy) →
      Q.ok (if (k.tasks rdy).tPrio < (k.tasks k.current).tPrio
          then some (some rdy) else none) ((k.granted rdy).withLists q))
    (hfree : k.waiters (.sem n) = [] →
      Q.ok none (setTokens n (fun tokens => (tokens + 1) % 2 ^ 16) k)) :
    Wp (osSemRelease n) Q k := by
  refine .get_bind ?_
  cases hW : k.waiters (.sem n) with
  | nil => exact .modify_bind (.pure (hfree hW))
  | cons rdy W =>
    have hobj := (w.chain (.sem n) rdy).mp (by simp [hW])
    have ht := w.asleep rdy _ hobj
    obtain ⟨hl1, hw1⟩ := flag_kept (f := fun τ => { τ with semWait := false }) rdy h w
      (fun _ => rfl) (fun _ => rfl) (fun _ => rfl) fun _ => rfl
    refine .modify_bind (.bind ?_)
    refine wp_osSchedWakeup hl1 hw1 ?_ fun q hl => .get_bind ?_
    · exact (setTask_field Task.tState _ rdy rdy k rfl).trans ht
    have hL : L.woken (setTask rdy (fun τ => { τ with semWait := false }) k)
        rdy = L.woken k rdy :=
      toRun_congr fun b => setTask_field Task.tPrio _ rdy b k rfl
    rw [hL] at hl
    have hQ := hgrant rdy W q hW hl
    have hp : ∀ b, (((k.granted rdy).withLists q).tasks b).tPrio = (k.tasks b).tPrio := by
      intro b
      by_cases hb : b = rdy
      · subst hb
        rw [granted_self]
        rfl
      · rw [granted_rest k q hb]
    show Wp (if (((k.granted rdy).withLists q).tasks rdy).tPrio <
      (((k.granted rdy).withLists q).tasks k.current).tPrio then
        pure _ else pure none) Q _
    rw [hp, hp, ← apply_ite Pure.pure]
    exact .pure hQ

theorem wp_osSemDelete (h : Listed k L) (w : Waits k)
    (hok : ∀ r k' L', WokenAll (setTokens n (fun _ => 0) k) L
        (k.waiters (.sem n)) k' L' → r = none ∨ r = some none →
      Listed k' L' → Waits k' → Q.ok r k') : Wp (osSemDelete n) Q k := by
  have hl1 : Listed (setTokens n (fun _ => 0) k) L := h.congr
  have hw1 : Waits (setTokens n (fun _ => 0) k) := w.congr
  refine .modify_bind (.get_bind ?_)
  rw [show (setTokens n (fun _ => 0) k).waiters (.sem n) = k.waiters (.sem n) from rfl]
  cases hW : k.waiters (.sem n) with
  | nil =>
    rw [hW] at hok
    exact .pure (hok none _ L (.nil _ L) (.inl rfl) hl1 hw1)
  | cons rdy W =>
    refine .bind (wp_wakeAll hl1 hw1 hW ?_ fun k' L' hall hl hw => ?_)
    · exact hW ▸ w.length_lt h (.sem n)
    · rw [hW] at hok
      split
      · exact .pure (hok _ k' L' hall (.inr rfl) hl hw)
      · exact .pure (hok _ k' L' hall (.inl rfl) hl hw)

end Sem

/-! ## Mutexes -/

section Mutexes

variable {k k' : Kernel} {L : Lists} {m timeout owner : Nat} {Q : Post Kernel Empty Resched}

/-- The same up to priorities, the order of the run list and pointers. -/
structure Alike (k k' : Kernel) : Prop where
  task : ∀ b, ∃ p, k'.tasks b = { k.tasks b with tPrio := p }
  waiters : k'.waiters = k.waiters
  mutexes : k'.mutexes = k.mutexes
  semTokens : k'.semTokens = k.semTokens
  evqTask : k'.evqTask = k.evqTask
  time : k'.time = k.time
  current : k'.current = k.current
  taskList : k'.taskList = k.taskList

theorem Alike.refl (k : Kernel) : Alike k k :=
  ⟨fun b => ⟨(k.tasks b).tPrio, rfl⟩, rfl, rfl, rfl, rfl, rfl, rfl, rfl⟩

/-- A field that is not the priority. -/
theorem Alike.field (h : Alike k k') {β : Type} (g : Task → β)
    (hg : ∀ τ p, g { τ with tPrio := p } = g τ) (b : Nat) : g (k'.tasks b) = g (k.tasks b) := by
  obtain ⟨p, hp⟩ := h.task b
  rw [hp, hg]

theorem Alike.state (h : Alike k k') : ∀ b, (k'.tasks b).tState = (k.tasks b).tState :=
  h.field Task.tState fun _ _ => rfl

theorem Alike.obj (h : Alike k k') : ∀ b, (k'.tasks b).tObj = (k.tasks b).tObj :=
  h.field Task.tObj fun _ _ => rfl

theorem alike_reprio (k : Kernel) (t prio : Nat) : Alike k (k.reprio t prio) := by
  refine ⟨fun b => ?_, ?_, ?_, ?_, ?_, ?_, ?_, ?_⟩
  · rw [reprio_tasks]
    by_cases hb : b = t
    · subst hb
      exact ⟨prio, update_self _ _ _⟩
    · exact ⟨(k.tasks b).tPrio, update_of_ne hb _ _⟩
  all_goals
    unfold Kernel.reprio
    split <;> rfl

theorem alike_ite {c : Prop} [Decidable c] (k : Kernel) (t prio : Nat) :
    Alike k (if c then k.reprio t prio else k) := by
  split
  · exact alike_reprio k t prio
  · exact .refl k

theorem alike_boosted (k : Kernel) (owner : Nat) : Alike k (k.boosted owner) :=
  alike_ite k owner _

theorem alike_restored (k : Kernel) (m owner : Nat) : Alike k (k.restored m owner) :=
  alike_ite k owner _

theorem Waits.alike (w : Waits k) (h : Alike k k') (q : TailQ ListId Nat) :
    Waits (k'.withLists q) :=
  w.congr h.state h.obj (h.field Task.noTimeout fun _ _ => rfl) h.waiters

theorem wp_boostOwner {Q : Post Kernel Empty Unit} (h : Listed k L)
    (hok : ∀ q L', L' .sleep = L .sleep → Listed ((k.boosted owner).withLists q) L' →
      Q.ok () ((k.boosted owner).withLists q)) : Wp (boostOwner owner) Q k := by
  refine .get_bind ?_
  unfold Kernel.boosted at hok
  split
  · next hlt =>
    rw [if_pos hlt] at hok
    exact wp_changePrio h hok
  · next hlt =>
    rw [if_neg hlt] at hok
    exact .pure (hok k.lists L rfl h)

theorem wp_restorePrio {Q : Post Kernel Empty Unit} (h : Listed k L)
    (hok : ∀ q L', L' .sleep = L .sleep → Listed ((k.restored m owner).withLists q) L' →
      Q.ok () ((k.restored m owner).withLists q)) : Wp (restorePrio m owner) Q k := by
  refine .get_bind ?_
  unfold Kernel.restored at hok
  split
  · next hne =>
    rw [if_pos hne] at hok
    exact wp_changePrio h hok
  · next hne =>
    rw [if_neg hne] at hok
    exact .pure (hok k.lists L rfl h)

/-- The source links the task to the chain before it sets `t_obj`; the state
is the same. -/
theorem enqueue_setTask (o : Obj) (t : Nat) (k : Kernel) :
    setTask t (Task.waitOn o) (enqueue o t k) = enqueue o t (setTask t (Task.waitOn o) k) := by
  have hp : ∀ b, ((setTask t (Task.waitOn o) k).tasks b).tPrio = (k.tasks b).tPrio := fun b =>
    setTask_field Task.tPrio _ t b k (waitOn_prio o _)
  simp only [enqueue, hp]
  rfl

theorem wp_osMutexPend {Q : Post Kernel Empty Entry} (h : Listed k L)
    (w : Waits k) (hc : (k.tasks k.current).tState = .ready)
    (htake : (k.mutexes m).muLevel = 0 → Q.ok (.ret .ok) (setMutex m
      (fun _ => ⟨(k.tasks k.current).tPrio, 1, some k.current⟩) k))
    (hnest : (k.mutexes m).muLevel ≠ 0 →
      (k.mutexes m).muOwner = some k.current → Q.ok (.ret .ok) (setMutex m
        (fun mu => { mu with muLevel := (mu.muLevel + 1) % 2 ^ 16 }) k))
    (hbusy : (k.mutexes m).muLevel ≠ 0 → (k.mutexes m).muOwner ≠ some k.current → timeout = 0 →
      Q.ok (.ret .timeout) k) (hnull : (k.mutexes m).muLevel ≠ 0 → (k.mutexes m).muOwner = none →
      Q.stuck) (hblock : ∀ owner q (L1 L' : Lists), (k.mutexes m).muLevel ≠ 0 →
      (k.mutexes m).muOwner = some owner → owner ≠ k.current → timeout ≠ 0 → L1 .sleep = L .sleep →
      L' = L1.slept ((k.boosted owner).waiting (.mutex m) timeout) k.current →
      Listed (((k.boosted owner).waiting (.mutex m) timeout).withLists q) L' → Q.ok .block
        (((k.boosted owner).waiting (.mutex m) timeout).withLists q)) :
    Wp (osMutexPend m timeout) Q k := by
  refine .get_bind ?_
  show Wp (if (k.mutexes m).muLevel = 0 then _ else _) Q k
  split
  · next hl => exact .modify_bind (.pure (htake hl))
  · next hl =>
    split
    · next ho => exact .modify_bind (.pure (hnest hl ho))
    · next ho =>
      split
      · next hz => exact .pure (hbusy hl ho hz)
      · next hz =>
        cases hown : (k.mutexes m).muOwner with
        | none => exact fun _ => hnull hl hown
        | some owner =>
          have hne : owner ≠ k.current := by
            rintro rfl
            exact ho hown
          refine .bind (wp_boostOwner h fun q1 L1 hs hl1 => ?_)
          refine .modify_bind (.modify_bind (.bind ?_))
          have hst := enqueue_setTask (.mutex m) k.current ((k.boosted owner).withLists q1)
          refine cast (congrArg (Wp _ _) hst.symm) ?_
          refine wp_osSchedSleep (hl1.enqueued (.mutex m) k.current) ?_ ?_ fun q hl' => ?_
          · simp only [enqueue, setWaiters, setTask, update_self, waitOn_state]
            exact ((alike_boosted k owner).state _).trans hc
          · simp only [enqueue, setWaiters, setTask, update_self, waitOn_noTimeout]
            exact ((alike_boosted k owner).field Task.noTimeout
              (fun _ _ => rfl) _).trans (w.noTimeout_eq hc)
          · have hQ := hblock owner q L1 _ hl hown hne hz hs rfl
            unfold Kernel.waiting at hQ
            rw [(alike_boosted k owner).current] at hQ
            exact .pure (hQ hl')

theorem restored_tasks (k : Kernel) (m : Nat) {b : Nat} (hb : b ≠ owner) :
    (k.restored m owner).tasks b = k.tasks b := by
  unfold Kernel.restored
  split
  · rw [reprio_tasks]
    exact update_of_ne hb _ _
  · rfl

theorem wp_reschedIfBehind (h : Listed k L) (hok : Q.ok (reschedTo k.current L) k) :
    Wp reschedIfBehind Q k := by
  refine .get_bind (.bind (.get_bind (.pure ?_)))
  rw [h.queues.first_eq]
  unfold reschedTo at hok
  show Wp (if (L .run).head? ≠ some k.current then _ else _) Q k
  rw [ite_not, ← apply_ite Pure.pure]
  exact .pure hok

theorem wp_osMutexReleaseHand (h : Listed k L) (w : Waits k)
    (hc : (k.tasks k.current).tState = .ready)
    (hhand : ∀ rdy W q L', k.waiters (.mutex m) = rdy :: W →
      (L' .sleep).Sublist (L .sleep) → Listed ((k.handed m rdy).withLists q) L' →
      Q.ok (reschedTo k.current L') ((k.handed m rdy).withLists q))
    (hfree : ∀ q L', k.waiters (.mutex m) = [] →
      (L' .sleep).Sublist (L .sleep) → Listed ((k.freed m).withLists q) L' →
      Q.ok (reschedTo k.current L') ((k.freed m).withLists q)) : Wp (osMutexReleaseHand m) Q k := by
  refine .get_bind (.bind (wp_restorePrio h fun q1 L1 hs hl1 => ?_))
  have hk1 := alike_restored k m k.current
  have hw1 := w.alike hk1 q1
  refine .bind (.get_bind ?_)
  rw [show ((k.restored m k.current).withLists q1).waiters (.mutex m) =
    k.waiters (.mutex m) by exact congrFun hk1.waiters _]
  cases hW : k.waiters (.mutex m) with
  | nil =>
    refine .modify ?_
    have hl2 : Listed ((k.freed m).withLists q1) L1 := hl1.congr
    have hQ := hfree q1 L1 hW (hs ▸ List.Sublist.refl _) hl2
    refine wp_reschedIfBehind hl2 ?_
    show Q.ok (reschedTo (k.restored m k.current).current L1) _
    rw [hk1.current]
    exact hQ
  | cons rdy W =>
    have hobj := (w.chain (.mutex m) rdy).mp (by simp [hW])
    have ht := w.asleep rdy _ hobj
    have hne : rdy ≠ k.current := by
      rintro rfl
      rw [hc] at ht
      cases ht
    refine .bind (.assert ?_ ?_)
    · show decide (((k.restored m k.current).tasks rdy).tObj ≠ none) = true
      rw [restored_tasks k m hne, hobj]
      rfl
    refine .bind (wp_osSchedWakeup hl1 hw1 ?_ fun q hl => ?_)
    · exact (hk1.state rdy).trans ht
    refine .get_bind (.modify ?_)
    have hp : ((((k.restored m k.current).withLists q1).woken rdy).withLists
        q |>.tasks rdy).tPrio = (k.tasks rdy).tPrio := by
      rw [woken_tasks, update_self]
      show ((k.restored m k.current).tasks rdy).tPrio = _
      rw [restored_tasks k m hne]
    rw [hp]
    have hl2 : Listed ((k.handed m rdy).withLists q) _ := hl.congr
    have hsub : (Lists.woken ((k.restored m k.current).withLists q1) rdy L1
        .sleep).Sublist (L .sleep) := by
      rw [woken_sleep, hs]
      exact erase_sublist
    have hQ := hhand rdy W q _ hW hsub hl2
    refine wp_reschedIfBehind hl2 ?_
    show Q.ok (reschedTo (k.restored m k.current).current _) _
    rw [hk1.current]
    exact hQ

/-- What `os_mutex_delete` does to an owner. -/
def Kernel.ownerRestored (m : Nat) (k : Kernel) : Kernel :=
  match (k.mutexes m).muLevel, (k.mutexes m).muOwner with
  | _ + 1, some owner => k.restored m owner
  | _, _ => k

theorem alike_ownerRestored (k : Kernel) (m : Nat) : Alike k (k.ownerRestored m) := by
  unfold Kernel.ownerRestored
  split
  · exact alike_restored k m _
  · exact .refl k

theorem wp_restoreOwner {Q : Post Kernel Empty Unit} (h : Listed k L)
    (hnull : (k.mutexes m).muLevel ≠ 0 → (k.mutexes m).muOwner = none → Q.stuck)
    (hok : ∀ q L', L' .sleep = L .sleep → Listed ((k.ownerRestored m).withLists q) L' →
      Q.ok () ((k.ownerRestored m).withLists q)) : Wp (restoreOwner m) Q k := by
  refine .get_bind ?_
  unfold Kernel.ownerRestored at hok
  cases hl : (k.mutexes m).muLevel with
  | zero =>
    rw [hl] at hok
    exact .pure (hok k.lists L rfl h)
  | succ l =>
    cases ho : (k.mutexes m).muOwner with
    | none => exact fun _ => hnull (by simp [hl]) ho
    | some owner =>
      rw [hl, ho] at hok
      exact wp_restorePrio h hok

theorem wp_osMutexDelete (h : Listed k L) (w : Waits k)
    (hnull : (k.mutexes m).muLevel ≠ 0 → (k.mutexes m).muOwner = none → Q.stuck)
    (hok : ∀ q k' L1 L', L1 .sleep = L .sleep → WokenAll ((k.ownerRestored m).withLists q) L1
        (k.waiters (.mutex m)) k' L' → Listed k' L' → Waits k' →
      Q.ok (reschedTo k.current L') k') : Wp (osMutexDelete m) Q k := by
  refine .bind (wp_restoreOwner h hnull fun q L1 hs hl1 => ?_)
  have hk1 := alike_ownerRestored k m
  have hw1 := w.alike hk1 q
  refine .get_bind (.bind ?_)
  refine wp_wakeAll hl1 hw1 rfl (hw1.length_lt hl1 _) fun k' L' hall hl hw => ?_
  refine wp_reschedIfBehind hl ?_
  have hcur : k'.current = k.current :=
    hall.rest.2.2.2.2.trans hk1.current
  rw [hcur]
  refine hok q k' L1 L' hs ?_ hl hw
  rw [← hk1.waiters]
  exact hall

end Mutexes

/-! ## Event queues, delays, new tasks -/

section Others

variable {k : Kernel} {L : Lists} {e t prio : Nat} {ev : Ev} {Q : Post Kernel Empty Bool}

theorem wp_osEventqPut2 (h : Listed k L) (w : Waits k)
    (hs : ∀ t, k.evqTask e = some t → (k.tasks t).tState = .sleep)
    (hnop : k.evQueued ev = true → Q.ok false k)
    (hput : k.evQueued ev = false → k.evqTask e = none → Q.ok false (k.queued e ev))
    (hwake : ∀ t q, k.evQueued ev = false → k.evqTask e = some t →
      Listed (setEvqTask e none (((k.queued e ev).woken t).withLists q)) (L.woken k t) →
      Q.ok true (setEvqTask e none (((k.queued e ev).woken t).withLists q))) :
    Wp (osEventqPut2 e ev) Q k := by
  refine .get_bind ?_
  split
  · next hq => exact .pure (hnop hq)
  · next hq =>
    rw [Bool.not_eq_true] at hq
    refine .modify_bind ?_
    cases ht : k.evqTask e with
    | none => exact .pure (hput hq ht)
    | some t =>
      have hl1 : Listed (k.queued e ev) L := h.congr
      have hw1 : Waits (k.queued e ev) := w.congr
      refine .bind (wp_osSchedWakeup hl1 hw1 (hs t ht) fun q hl => ?_)
      refine .modify_bind (.pure (hwake t q hq ht ?_))
      exact hl.congr

theorem wp_osEventqGet {Q : Post Kernel Empty (Option Ev)} (h : Listed k L)
    (w : Waits k) (hc : (k.tasks k.current).tState = .ready)
    (hgot : ∀ ev evs, k.evqList e = ev :: evs → Q.ok (some ev) (k.pulled e ev evs))
    (hblock : ∀ q, k.evqList e = [] → Listed (((setEvqTask e (some k.current) k).slept k.current
          osTimeoutNever).withLists q) (L.slept ((setEvqTask e (some k.current) k).slept k.current
          osTimeoutNever) k.current) → Q.ok none (((setEvqTask e (some k.current) k).slept k.current
        osTimeoutNever).withLists q)) : Wp (osEventqGet e) Q k := by
  refine .get_bind ?_
  cases hl : k.evqList e with
  | cons ev evs => exact .modify_bind (.pure (hgot ev evs hl))
  | nil =>
    refine .modify_bind (.bind ?_)
    have hl1 : Listed (setEvqTask e (some k.current) k) L := h.congr
    exact wp_osSchedSleep hl1 hc (w.noTimeout_eq hc) fun q hl' =>
      Wp.pure (hblock q hl hl')

theorem wp_osTimeDelay {osticks : Int} (h : Listed k L) (w : Waits k)
    (hc : (k.tasks k.current).tState = .ready) (hno : ¬ 0 < osticks → Q.ok false k)
    (hyes : ∀ q, 0 < osticks → Listed ((k.slept k.current osticks.toNat).withLists q)
        (L.slept (k.slept k.current osticks.toNat) k.current) →
      Q.ok true ((k.slept k.current osticks.toNat).withLists q)) :
    Wp (osTimeDelay osticks) Q k := by
  unfold osTimeDelay
  split
  · next hp =>
    refine .get_bind (.bind ?_)
    exact wp_osSchedSleep h hc (w.noTimeout_eq hc) fun q hl =>
      Wp.pure (hyes q hp hl)
  · next hp => exact .pure (hno hp)

/-- The new task as `os_sched_insert` finds it. -/
def Kernel.made (t prio : Nat) (k : Kernel) : Kernel := { k with
  tasks := update k.tasks t ⟨prio, .ready, false, false, false, none, 0⟩
  taskList := k.taskList ++ [t] }

theorem Listed.notMem_of_clear (h : Listed k L)
    (ht : (k.tasks t).tState = .clear) (i : ListId) : t ∉ L i := by
  cases i with
  | run => rw [h.run, ht]; decide
  | sleep => rw [h.sleep, ht]; decide

theorem newTask_self (k : Kernel) (t prio : Nat) (q : TailQ ListId Nat) :
    ((k.newTask t prio).withLists q).tasks t = ⟨prio, .ready, false, false, false, none, 0⟩ :=
  update_self _ _ _

theorem newTask_rest (k : Kernel) (prio : Nat) (q : TailQ ListId Nat) {b : Nat} (hb : b ≠ t) :
    ((k.newTask t prio).withLists q).tasks b = k.tasks b :=
  update_of_ne hb _ _

theorem newTask_asleep {q : TailQ ListId Nat} {b : Nat}
    (hb : (((k.newTask t prio).withLists q).tasks b).tState = .sleep) :
    b ≠ t ∧ (k.tasks b).tState = .sleep := by
  have hbt : b ≠ t := by
    rintro rfl
    rw [newTask_self] at hb
    cases hb
  rw [newTask_rest k prio q hbt] at hb
  exact ⟨hbt, hb⟩

theorem Listed.newTask {q : TailQ ListId Nat} (h : Listed k L) (ht : (k.tasks t).tState = .clear)
    (hq : Queues q (L.toRun (k.made t prio) t)) :
    Listed ((k.newTask t prio).withLists q) (L.toRun (k.made t prio) t) := by
  have hoff := h.notMem_of_clear ht
  have hself := newTask_self k t prio q
  have hrest : ∀ b, b ≠ t → _ := fun b hb => newTask_rest k prio q hb
  have hrun : ∀ x, x ∈ L.toRun (k.made t prio) t .run ↔
      x = t ∨ x ∈ L .run := fun x => by simp [Lists.toRun]
  refine ⟨hq, fun x => ?_, fun x => ?_, fun x => ?_, ?_, fun x hx => ?_, ?_⟩
  · rw [hrun, h.run]
    by_cases hx : x = t
    · subst hx
      simp [hself]
    · simp [hrest x hx, hx]
  · show x ∈ L .sleep ↔ _
    rw [h.sleep]
    by_cases hx : x = t
    · subst hx
      simp [hself, ht]
    · rw [hrest x hx]
  · show x ∈ k.taskList ++ [t] ↔ _
    rw [mem_append, mem_singleton, h.known]
    by_cases hx : x = t
    · subst hx
      simp [hself]
    · simp [hrest x hx, hx]
  · refine pairwise_toRun ?_ (hoff .run) h.numbered (fun b => rfl) rfl
    refine h.sorted.imp_of_mem fun {a b} ha hb hab => ?_
    have hat : a ≠ t := fun he => hoff .run (he ▸ ha)
    have hbt : b ≠ t := fun he => hoff .run (he ▸ hb)
    simpa only [Kernel.Before, Kernel.made, update_of_ne hat, update_of_ne hbt] using hab
  · exact lt_insertions fun hxt => h.numbered x (((hrun x).mp hx).resolve_left hxt)
  · refine h.timed.imp_of_mem fun {a b} ha hb hab => ?_
    have hat : a ≠ t := fun he => hoff .sleep (he ▸ ha)
    have hbt : b ≠ t := fun he => hoff .sleep (he ▸ hb)
    rw [hrest a hat, hrest b hbt]
    exact hab

theorem Waits.newTask (w : Waits k) (ht : (k.tasks t).tState = .clear)
    (q : TailQ ListId Nat) : Waits ((k.newTask t prio).withLists q) := by
  have hself := newTask_self k t prio q
  refine w.of_task (fun b hb => newTask_rest k prio q hb) (fun _ _ _ => Iff.rfl)
    (fun o => ?_) w.nodup (.inr (by simp [hself]))
  rw [hself]
  refine ⟨fun hm => ?_, fun ho => by cases ho⟩
  have hs := w.asleep t o ((w.chain o t).mp hm)
  rw [ht] at hs
  cases hs

theorem wp_osTaskInit {Q : Post Kernel Empty Unit} (h : Listed k L)
    (ht : (k.tasks t).tState = .clear) (hok : ∀ q L', L' .sleep = L .sleep →
      Listed ((k.newTask t prio).withLists q) L' → Q.ok () ((k.newTask t prio).withLists q)) :
    Wp (osTaskInit t prio) Q k := by
  refine .modify_bind (.bind ?_)
  refine wp_osSchedInsert (L := L) ?_ fun q hq => .pure ?_
  · refine ⟨h.queues, h.notMem_of_clear ht, ?_, ?_⟩
    · show _ < (k.taskList ++ [t]).length + 1
      have hlen : (L .run).length < k.taskList.length + 1 := h.length_lt .run
      rw [length_append, length_singleton]
      omega
    · simp
  · exact hok q (L.toRun _ t) rfl (h.newTask ht hq)

end Others

end Larva.Os
