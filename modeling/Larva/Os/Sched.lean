import Larva.Os.Kernel
import Mathlib.Data.List.Perm.Subperm

/-!
# The scheduler keeps its lists

`Listed k L` is what the run list and the sleep list are for: the tail queues
represent two lists `L`, a task is on the one that its `t_state` names, the
run list is in the order of `t_prio`, first come first served among equals,
and whoever sleeps without a timeout stands behind everybody with one.
`Waits k` is the other half of the same discipline: a task is on the chain of
the object that its `t_obj` names, and only sleeping tasks wait.

Every kernel function that moves a task has one rule here. It assumes the two
and gives the state the function leaves behind: a plain update of the tasks
and chains (`woken`, `slept`, `reprio`), with new pointers that represent the
new lists. What the calls built on these functions do to the rest of the
state can then be said without the pointers.
-/

namespace Larva.Os

open Crash TailQ Function List

/-- Ahead in the run list. -/
def Kernel.Before (k : Kernel) (a b : Nat) : Prop :=
  (k.tasks a).tPrio < (k.tasks b).tPrio ∨
    (k.tasks a).tPrio = (k.tasks b).tPrio ∧ k.inserted a < k.inserted b

/-- The lists hold the tasks as their states say, in their order. -/
structure Listed (k : Kernel) (L : ListId → List Nat) : Prop where
  queues : Queues k.lists L
  run : ∀ t, t ∈ L .run ↔ (k.tasks t).tState = .ready
  sleep : ∀ t, t ∈ L .sleep ↔ (k.tasks t).tState = .sleep
  known : ∀ t, t ∈ k.taskList ↔ (k.tasks t).tState ≠ .clear
  sorted : (L .run).Pairwise k.Before
  numbered : ∀ t ∈ L .run, k.inserted t < k.insertions
  timed : (L .sleep).Pairwise fun a b =>
    (k.tasks a).noTimeout → (k.tasks b).noTimeout

/-- A waiting task sleeps and is on the chain of what it waits on. -/
structure Waits (k : Kernel) : Prop where
  chain : ∀ o t, t ∈ k.waiters o ↔ (k.tasks t).tObj = some o
  nodup : ∀ o, (k.waiters o).Nodup
  asleep : ∀ t o, (k.tasks t).tObj = some o → (k.tasks t).tState = .sleep
  forever : ∀ t, (k.tasks t).noTimeout → (k.tasks t).tState = .sleep

/-! ## What the functions do, apart from the pointers -/

def Kernel.withLists (q : TailQ ListId Nat) (k : Kernel) : Kernel :=
  { k with lists := q }

def Task.woken (τ : Task) : Task :=
  { τ with tState := .ready, tNextWakeup := 0, noTimeout := false, tObj := none }

def Kernel.woken (t : Nat) (k : Kernel) : Kernel :=
  Kernel.noteInsert t { k with
    tasks := update k.tasks t (k.tasks t).woken
    waiters := fun o =>
      if (k.tasks t).tObj = some o then (k.waiters o).erase t else k.waiters o }

def Kernel.slept (t nticks : Nat) (k : Kernel) : Kernel :=
  setTask t (fun τ => { τ with
    tState := .sleep
    tNextWakeup := (k.time + nticks) % 2 ^ 32
    noTimeout := τ.noTimeout || decide (nticks = osTimeoutNever) }) k

def Kernel.reprio (t prio : Nat) (k : Kernel) : Kernel :=
  if (k.tasks t).tState = .ready then
    Kernel.noteInsert t (setTask t (fun τ => { τ with tPrio := prio }) k)
  else
    setTask t (fun τ => { τ with tPrio := prio }) k

/-! The lists that go with them. -/

abbrev Lists := ListId → List Nat

def Lists.toRun (k : Kernel) (t : Nat) (L : Lists) : Lists :=
  update L .run (insertAt (fun e => decide ((k.tasks t).tPrio < (k.tasks e).tPrio)) t (L .run))

def Lists.leave (i : ListId) (t : Nat) (L : Lists) : Lists :=
  update L i ((L i).erase t)

def Lists.woken (k : Kernel) (t : Nat) (L : Lists) : Lists :=
  (L.leave .sleep t).toRun k t

def Lists.toSleep (k : Kernel) (t : Nat) (L : Lists) : Lists :=
  update L .sleep (if (k.tasks t).noTimeout then L .sleep ++ [t]
    else insertAt (fun e => (k.tasks e).noTimeout ||
        tickGt (k.tasks e).tNextWakeup (k.tasks t).tNextWakeup) t (L .sleep))

def Lists.slept (k : Kernel) (t : Nat) (L : Lists) : Lists :=
  (L.leave .run t).toSleep k t

section Facts

variable {k : Kernel} {L : Lists} {t : Nat}

theorem Listed.length_lt (h : Listed k L) (i : ListId) : (L i).length < k.rounds := by
  have hsub : L i ⊆ k.taskList := by
    intro t ht
    rw [h.known]
    cases i with
    | run => rw [(h.run t).mp ht]; decide
    | sleep => rw [(h.sleep t).mp ht]; decide
  exact Nat.lt_succ_of_le (subperm_of_subset (h.queues.nodup i) hsub).length_le

theorem Listed.notMem_sleep (h : Listed k L) (ht : (k.tasks t).tState = .ready) : t ∉ L .sleep := by
  intro hm
  rw [h.sleep, ht] at hm
  cases hm

theorem Listed.notMem_run (h : Listed k L) (ht : (k.tasks t).tState = .sleep) : t ∉ L .run := by
  intro hm
  rw [h.run, ht] at hm
  cases hm

variable (w : Waits k) (ht : (k.tasks t).tState = .ready)
include w ht

theorem Waits.notMem (o : Obj) : t ∉ k.waiters o := by
  intro hm
  have hs := w.asleep t o ((w.chain o t).mp hm)
  rw [ht] at hs
  cases hs

theorem Waits.obj_eq_none : (k.tasks t).tObj = none := by
  cases ho : (k.tasks t).tObj with
  | none => rfl
  | some o =>
    have hs := w.asleep t o ho
    rw [ht] at hs
    cases hs

theorem Waits.noTimeout_eq : (k.tasks t).noTimeout = false := by
  cases hn : (k.tasks t).noTimeout with
  | false => rfl
  | true =>
    have hs := w.forever t hn
    rw [ht] at hs
    cases hs

end Facts

/-! ## `os_sched_insert` -/

section Insert

variable {k k' : Kernel} {L : Lists} {t : Nat}

/-- The order of the run list when a task that is on no list comes to it. The
state may be in the middle of a change: only what the walk reads counts. -/
structure Inserting (k : Kernel) (L : Lists) (t : Nat) : Prop where
  queues : Queues k.lists L
  off : ∀ i, t ∉ L i
  short : (L .run).length < k.rounds
  ready : (k.tasks t).tState = .ready

theorem wp_osSchedInsert {Q : Post Kernel Empty OsError} (h : Inserting k L t)
    (hok : ∀ q, Queues q (L.toRun k t) → Q.ok .ok ((Kernel.noteInsert t k).withLists q)) :
    Wp (osSchedInsert t) Q k := by
  refine .get_bind ?_
  rw [if_pos h.ready]
  refine .bind (.zoom ?_)
  refine wp_insertWhere h.queues h.off h.short fun q hq => ?_
  exact .bind (.modify (.pure (hok q hq)))

/-- Only the priorities decide the place. -/
theorem toRun_congr (hp : ∀ b, (k'.tasks b).tPrio = (k.tasks b).tPrio) :
    L.toRun k' t = L.toRun k t := by
  simp only [Lists.toRun, hp]

/-- What the insertion does to the order. -/
theorem pairwise_toRun (hs : (L .run).Pairwise k.Before) (ht : t ∉ L .run)
    (hn : ∀ b ∈ L .run, k.inserted b < k.insertions)
    (hp : ∀ b, (k'.tasks b).tPrio = (k.tasks b).tPrio)
    (hi : k'.inserted = update k.inserted t k.insertions) :
    ((L.toRun k t) .run).Pairwise k'.Before := by
  have hold : ∀ b ∈ L .run, k'.inserted b = k.inserted b := by
    intro b hb
    rw [hi]
    exact update_of_ne (fun he : b = t => ht (he ▸ hb)) _ _
  have hnew : k'.inserted t = k.insertions := by
    rw [hi]
    exact update_self _ _ _
  have hs' : (L .run).Pairwise k'.Before := by
    refine hs.imp_of_mem fun {a b} ha hb hab => ?_
    simpa only [Kernel.Before, hp, hold a ha, hold b hb] using hab
  refine pairwise_insertAt hs' (fun b hb hlow => ?_) fun b hb => ?_
  · have hb' := hn b hb
    simp only [decide_eq_false_iff_not] at hlow
    simp only [Kernel.Before, hnew, hold b hb, hp]
    omega
  · have hup := picked_of_mem_dropWhile hs' (fun b _ c _ hbc hb => ?_) hb
    · simp only [decide_eq_true_eq] at hup
      exact .inl (by rw [hp, hp]; exact hup)
    · simp only [Kernel.Before, hp, decide_eq_true_eq] at hbc hb ⊢
      omega

end Insert

/-! ## `os_sched_wakeup` -/

section Wakeup

variable {k : Kernel} {L : Lists} {t : Nat} {Q : Post Kernel Empty Unit}

/-- After the task has left the chain. -/
def Kernel.left (t : Nat) (k : Kernel) : Kernel := { k with
  tasks := update k.tasks t { k.tasks t with tObj := none }
  waiters := fun o =>
    if (k.tasks t).tObj = some o then (k.waiters o).erase t else k.waiters o }

theorem wp_leaveObj (w : Waits k) (hok : Q.ok () (k.left t)) : Wp (leaveObj t) Q k := by
  refine .get_bind ?_
  cases ho : (k.tasks t).tObj with
  | none =>
    have hl : k.left t = k := by
      have hτ : { k.tasks t with tObj := none } = k.tasks t := by rw [← ho]
      simp [Kernel.left, ho, hτ]
    rw [hl] at hok
    exact .pure hok
  | some o =>
    refine .bind (.assert (by simpa using (w.chain o t).mpr ho) ?_)
    refine .bind (.modify (.modify ?_))
    have hl : setTask t (fun τ => { τ with tObj := none })
        (setWaiters o (fun l => l.erase t) k) = k.left t := by
      simp only [setTask, setWaiters, Kernel.left, ho, Option.some.injEq]
      congr 1
      funext o'
      by_cases he : o = o'
      · subst he
        simp
      · simp [he, update_of_ne (Ne.symm he)]
    rw [hl]
    exact hok

/-- The task inserted last has the highest number. -/
theorem lt_insertions {x : Nat} (hx : x ≠ t → k.inserted x < k.insertions) :
    update k.inserted t k.insertions x < k.insertions + 1 := by
  by_cases hxt : x = t
  · rw [hxt, update_self]
    omega
  · rw [update_of_ne hxt]
    exact Nat.lt_succ_of_lt (hx hxt)

theorem Listed.woken {q : TailQ ListId Nat} (h : Listed k L)
    (ht : (k.tasks t).tState = .sleep) (hq : Queues q (L.woken k t)) :
    Listed ((k.woken t).withLists q) (L.woken k t) := by
  have hoff := h.notMem_run ht
  have htasks : ∀ b, b ≠ t → ((k.woken t).withLists q).tasks b = k.tasks b := fun b hb =>
    update_of_ne hb _ _
  have hself : ((k.woken t).withLists q).tasks t = (k.tasks t).woken :=
    update_self _ _ _
  have hrun : ∀ x, x ∈ L.woken k t .run ↔ x = t ∨ x ∈ L .run := fun x => by
    simp [Lists.woken, Lists.toRun, Lists.leave]
  have hsl : L.woken k t .sleep = (L .sleep).erase t := rfl
  have hmem : ∀ x, x ∈ (L .sleep).erase t ↔ x ≠ t ∧ x ∈ L .sleep := fun x =>
    (h.queues.nodup .sleep).mem_erase_iff
  refine ⟨hq, fun x => ?_, fun x => ?_, fun x => ?_, ?_, fun x hx => ?_, ?_⟩
  · rw [hrun, h.run]
    by_cases hx : x = t
    · subst hx
      simp [hself, Task.woken]
    · simp [htasks x hx, hx]
  · rw [hsl, hmem, h.sleep]
    by_cases hx : x = t
    · subst hx
      simp [hself, Task.woken]
    · simp [htasks x hx, hx]
  · show x ∈ k.taskList ↔ _
    rw [h.known]
    by_cases hx : x = t
    · subst hx
      simp [hself, Task.woken, ht]
    · simp [htasks x hx]
  · refine pairwise_toRun h.sorted hoff h.numbered (fun b => ?_) rfl
    by_cases hb : b = t
    · subst hb
      rw [hself]
      rfl
    · rw [htasks b hb]
  · exact lt_insertions fun hxt => h.numbered x (((hrun x).mp hx).resolve_left hxt)
  · refine (h.timed.sublist erase_sublist).imp_of_mem fun {a b} ha hb hab => ?_
    rw [htasks a ((hmem a).mp ha).1, htasks b ((hmem b).mp hb).1]
    exact hab

theorem wp_osSchedWakeup (h : Listed k L) (w : Waits k) (ht : (k.tasks t).tState = .sleep)
    (hok : ∀ q, Listed ((k.woken t).withLists q) (L.woken k t) →
      Q.ok () ((k.woken t).withLists q)) : Wp (osSchedWakeup t) Q k := by
  refine .bind (.get (.bind (.assert (decide_eq_true ht) ?_)))
  refine .bind (wp_leaveObj w (.bind (.modify ?_)))
  refine .bind (.zoom ?_)
  refine wp_remove h.queues ((h.sleep t).mpr ht) fun q1 hq1 => ?_
  refine .bind (wp_osSchedInsert (L := L.leave .sleep t) ?_ fun q hq => ?_)
  · refine ⟨hq1, fun i => ?_, ?_, ?_⟩
    · cases i with
      | run => exact h.notMem_run ht
      | sleep =>
        intro hm
        exact ((h.queues.nodup .sleep).mem_erase_iff.mp hm).1 rfl
    · exact h.length_lt .run
    · simp [setTask, Kernel.left]
  · rw [toRun_congr (k := k) fun b => ?prio] at hq
    case prio =>
      by_cases hb : b = t
      · subst hb
        simp [setTask, Kernel.left]
      · simp [setTask, Kernel.left, hb]
    have hk := hok q (h.woken ht hq)
    refine .pure (cast (congrArg (Q.ok ()) ?_) hk)
    simp [Kernel.woken, Kernel.noteInsert, Kernel.withLists, setTask, Kernel.left, Task.woken]

end Wakeup

/-! ## `os_sched_sleep` -/

section Sleep

variable {k : Kernel} {L : Lists} {t nticks : Nat}

theorem slept_self (k : Kernel) (t nticks : Nat) :
    (k.slept t nticks).tasks t = { k.tasks t with
      tState := .sleep
      tNextWakeup := (k.time + nticks) % 2 ^ 32
      noTimeout := (k.tasks t).noTimeout ||
        decide (nticks = osTimeoutNever) } :=
  update_self _ _ _

theorem slept_rest (k : Kernel) {b : Nat} (nticks : Nat) (hb : b ≠ t) :
    (k.slept t nticks).tasks b = k.tasks b :=
  update_of_ne hb _ _

theorem Listed.slept {q : TailQ ListId Nat} (h : Listed k L) (ht : (k.tasks t).tState = .ready)
    (hq : Queues q (L.slept (k.slept t nticks) t)) :
    Listed ((k.slept t nticks).withLists q) (L.slept (k.slept t nticks) t) := by
  have hoff := h.notMem_sleep ht
  have htasks := fun b => slept_rest k (t := t) (b := b) nticks
  have hself : ((k.slept t nticks).tasks t).tState = .sleep := by
    rw [slept_self]
  have hrun : L.slept (k.slept t nticks) t .run = (L .run).erase t := by
    simp [Lists.slept, Lists.toSleep, Lists.leave]
  have hmem : ∀ x, x ∈ (L .run).erase t ↔ x ≠ t ∧ x ∈ L .run := fun x =>
    (h.queues.nodup .run).mem_erase_iff
  have hsl : ∀ x, x ∈ L.slept (k.slept t nticks) t .sleep ↔ x = t ∨ x ∈ L .sleep := by
    simp only [Lists.slept, Lists.toSleep, Lists.leave, update_self]
    split
    · simp [or_comm]
    · simp
  refine ⟨hq, fun x => ?_, fun x => ?_, fun x => ?_, ?_, fun x hx => ?_, ?_⟩
  · rw [hrun, hmem, h.run]
    show _ ↔ ((k.slept t nticks).tasks x).tState = _
    by_cases hx : x = t
    · subst hx
      simp [hself]
    · simp [htasks x hx, hx]
  · rw [hsl, h.sleep]
    show _ ↔ ((k.slept t nticks).tasks x).tState = _
    by_cases hx : x = t
    · subst hx
      simp [hself]
    · simp [htasks x hx, hx]
  · show x ∈ k.taskList ↔ ((k.slept t nticks).tasks x).tState ≠ _
    rw [h.known]
    by_cases hx : x = t
    · subst hx
      simp [hself, ht]
    · rw [htasks x hx]
  · refine (h.sorted.sublist erase_sublist).imp_of_mem fun {a b} ha hb hab => ?_
    show Kernel.Before (k.slept t nticks) a b
    simp only [Kernel.Before, htasks a ((hmem a).mp ha).1, htasks b ((hmem b).mp hb).1]
    exact hab
  · rw [hrun, hmem] at hx
    exact h.numbered x hx.2
  · show Pairwise (fun a b => ((k.slept t nticks).tasks a).noTimeout →
      ((k.slept t nticks).tasks b).noTimeout) _
    have hold : (L .sleep).Pairwise fun a b =>
        ((k.slept t nticks).tasks a).noTimeout → ((k.slept t nticks).tasks b).noTimeout := by
      refine h.timed.imp_of_mem fun {a b} ha hb hab => ?_
      have hat : a ≠ t := fun he => hoff (he ▸ ha)
      have hbt : b ≠ t := fun he => hoff (he ▸ hb)
      rw [htasks a hat, htasks b hbt]
      exact hab
    have hleave : L.leave .run t .sleep = L .sleep := rfl
    simp only [Lists.slept, Lists.toSleep, update_self, hleave]
    split
    · next hn =>
      refine pairwise_append.mpr ⟨hold, pairwise_singleton _ _, fun a _ b hb _ => ?_⟩
      rw [mem_singleton.mp hb]
      exact hn
    · next hn =>
      refine pairwise_insertAt hold (fun b _ hb hn' => ?_) fun b _ hn' => absurd hn' hn
      simp [hn'] at hb

theorem wp_osSchedSleep {Q : Post Kernel Empty Unit} (h : Listed k L)
    (ht : (k.tasks t).tState = .ready) (hn : (k.tasks t).noTimeout = false)
    (hok : ∀ q, Listed ((k.slept t nticks).withLists q) (L.slept (k.slept t nticks) t) →
      Q.ok () ((k.slept t nticks).withLists q)) : Wp (osSchedSleep t nticks) Q k := by
  have hoff : ∀ i, t ∉ L.leave .run t i := by
    intro i
    cases i with
    | run => exact fun hm => ((h.queues.nodup .run).mem_erase_iff.mp hm).1 rfl
    | sleep => exact h.notMem_sleep ht
  refine .bind (.zoom ?_)
  refine wp_remove h.queues ((h.run t).mpr ht) fun q1 hq1 => ?_
  refine .bind (.modify ?_)
  split
  · next hnt =>
    refine .bind (.modify (.zoom ?_))
    refine wp_insertTail (L := L.leave .run t) hq1 hoff fun q hq => ?_
    have hnew : ((k.slept t nticks).tasks t).noTimeout = true := by
      simp [Kernel.slept, setTask, hnt]
    have hk := hok q (h.slept ht (by
      simpa only [Lists.slept, Lists.toSleep, hnew, if_true] using hq))
    refine cast (congrArg (Q.ok ()) ?_) hk
    simp [Kernel.slept, Kernel.withLists, setTask, hnt]
  · next hnt =>
    have hnew : ((k.slept t nticks).tasks t).noTimeout = false := by
      simp [Kernel.slept, setTask, hnt, hn]
    have hst : setTask t (fun τ => { τ with
        tState := .sleep, tNextWakeup := (k.time + nticks) % 2 ^ 32 }) k =
        k.slept t nticks := by
      simp [Kernel.slept, setTask, hnt]
    refine .bind (.get (.zoom ?_))
    refine wp_insertWhere hq1 hoff (h.length_lt .sleep) fun q hq => ?_
    show Q.ok () ((setTask t (fun τ => { τ with
        tState := .sleep, tNextWakeup := (k.time + nticks) % 2 ^ 32 }) k).withLists q)
    rw [hst]
    refine hok q (h.slept ht ?_)
    simp only [Lists.slept, Lists.toSleep, hnew]
    rw [← hst]
    exact hq

end Sleep

/-! ## `os_sched_resort` -/

section Resort

variable {k : Kernel} {L : Lists} {t prio : Nat}

theorem reprio_tasks (k : Kernel) (t prio : Nat) : (k.reprio t prio).tasks =
      update k.tasks t { k.tasks t with tPrio := prio } := by
  unfold Kernel.reprio
  split <;> rfl

theorem reprio_state (k : Kernel) (t prio b : Nat) :
    ((k.reprio t prio).tasks b).tState = (k.tasks b).tState := by
  rw [reprio_tasks]
  by_cases hb : b = t
  · subst hb
    simp
  · simp [hb]

theorem reprio_noTimeout (k : Kernel) (t prio b : Nat) :
    ((k.reprio t prio).tasks b).noTimeout = (k.tasks b).noTimeout := by
  rw [reprio_tasks]
  by_cases hb : b = t
  · subst hb
    simp
  · simp [hb]

theorem reprio_taskList (k : Kernel) (t prio : Nat) : (k.reprio t prio).taskList = k.taskList := by
  unfold Kernel.reprio
  split <;> rfl

/-- A task that is not ready has no place to change. -/
theorem Listed.reprio_asleep (h : Listed k L) (prio : Nat)
    (ht : (k.tasks t).tState ≠ .ready) : Listed (k.reprio t prio) L := by
  have hk : k.reprio t prio = setTask t (fun τ => { τ with tPrio := prio }) k :=
    if_neg ht
  have hrest : ∀ x ∈ L .run, (k.reprio t prio).tasks x = k.tasks x := by
    intro x hx
    rw [reprio_tasks]
    refine update_of_ne (fun he : x = t => ht ?_) _ _
    rw [← he]
    exact (h.run x).mp hx
  refine ⟨?_, fun x => ?_, fun x => ?_, fun x => ?_, ?_, fun x hx => ?_, ?_⟩
  · rw [hk]
    exact h.queues
  · rw [reprio_state]
    exact h.run x
  · rw [reprio_state]
    exact h.sleep x
  · rw [reprio_state, reprio_taskList]
    exact h.known x
  · refine h.sorted.imp_of_mem fun {a b} ha hb hab => ?_
    have hi : (k.reprio t prio).inserted = k.inserted := by rw [hk]; rfl
    simpa only [Kernel.Before, hrest a ha, hrest b hb, hi] using hab
  · rw [hk]
    exact h.numbered x hx
  · simpa only [reprio_noTimeout] using h.timed

theorem Listed.reprio_ready {q : TailQ ListId Nat} (h : Listed k L)
    (prio : Nat) (ht : (k.tasks t).tState = .ready)
    (hq : Queues q ((L.leave .run t).toRun (k.reprio t prio) t)) :
    Listed ((k.reprio t prio).withLists q) ((L.leave .run t).toRun (k.reprio t prio) t) := by
  have hk : k.reprio t prio = Kernel.noteInsert t
      (setTask t (fun τ => { τ with tPrio := prio }) k) := if_pos ht
  have hmem : ∀ x, x ∈ (L .run).erase t ↔ x ≠ t ∧ x ∈ L .run := fun x =>
    (h.queues.nodup .run).mem_erase_iff
  have hrun : ∀ x, x ∈ (L.leave .run t).toRun (k.reprio t prio) t .run ↔ x ∈ L .run := by
    intro x
    simp only [Lists.toRun, Lists.leave, update_self, mem_insertAt, hmem]
    by_cases hx : x = t
    · subst hx
      simp [(h.run x).mpr ht]
    · simp [hx]
  refine ⟨hq, fun x => ?_, fun x => ?_, fun x => ?_, ?_, fun x hx => ?_, ?_⟩
  · rw [hrun]
    show _ ↔ ((k.reprio t prio).tasks x).tState = _
    rw [reprio_state]
    exact h.run x
  · show x ∈ L .sleep ↔ ((k.reprio t prio).tasks x).tState = _
    rw [reprio_state]
    exact h.sleep x
  · show x ∈ (k.reprio t prio).taskList ↔ ((k.reprio t prio).tasks x).tState ≠ _
    rw [reprio_state, reprio_taskList]
    exact h.known x
  · rw [hk]
    refine pairwise_toRun (k := setTask t (fun τ => { τ with tPrio := prio }) k) ?_ ?_ ?_
      (fun b => rfl) rfl
    · refine (h.sorted.sublist erase_sublist).imp_of_mem fun {a b} ha hb hab => ?_
      have hta := update_of_ne ((hmem a).mp ha).1 { k.tasks t with tPrio := prio } k.tasks
      have htb := update_of_ne ((hmem b).mp hb).1 { k.tasks t with tPrio := prio } k.tasks
      simpa only [Kernel.Before, setTask, hta, htb] using hab
    · exact fun hm => ((hmem t).mp hm).1 rfl
    · exact fun b hb => h.numbered b ((hmem b).mp hb).2
  · rw [hk]
    exact lt_insertions fun _ => h.numbered x ((hrun x).mp hx)
  · show Pairwise (fun a b => ((k.reprio t prio).tasks a).noTimeout →
      ((k.reprio t prio).tasks b).noTimeout) (L .sleep)
    simpa only [reprio_noTimeout] using h.timed

theorem wp_changePrio {Q : Post Kernel Empty Unit} (h : Listed k L)
    (hok : ∀ q L', L' .sleep = L .sleep → Listed ((k.reprio t prio).withLists q) L' →
      Q.ok () ((k.reprio t prio).withLists q)) : Wp (changePrio t prio) Q k := by
  refine .modify_bind (.get_bind ?_)
  have hst : ((setTask t (fun τ => { τ with tPrio := prio }) k).tasks
      t).tState = (k.tasks t).tState := by
    simp [setTask]
  by_cases ht : (k.tasks t).tState = .ready
  · rw [if_pos (hst.trans ht)]
    refine .bind (.zoom ?_)
    refine wp_remove h.queues ((h.run t).mpr ht) fun q1 hq1 => ?_
    have hk : k.reprio t prio = Kernel.noteInsert t
        (setTask t (fun τ => { τ with tPrio := prio }) k) := if_pos ht
    refine .bind (wp_osSchedInsert (L := L.leave .run t) ?_ fun q hq => ?_)
    · refine ⟨hq1, fun i => ?_, ?_, hst.trans ht⟩
      · cases i with
        | run =>
          exact fun hm => ((h.queues.nodup .run).mem_erase_iff.mp hm).1 rfl
        | sleep => exact h.notMem_sleep ht
      · exact lt_of_le_of_lt erase_sublist.length_le (h.length_lt .run)
    · have hl := h.reprio_ready prio ht (by rw [hk]; exact hq)
      have hQ := hok q ((L.leave .run t).toRun _ t) rfl hl
      rw [hk] at hQ
      exact .pure hQ
  · rw [if_neg (by rw [hst]; exact ht)]
    have hl := h.reprio_asleep prio ht
    have hQ := hok k.lists L rfl
    have hk : k.reprio t prio = setTask t (fun τ => { τ with tPrio := prio }) k := if_neg ht
    rw [hk] at hl hQ
    exact .pure (hQ hl)

end Resort

/-! ## Several tasks woken in a row -/

/-- The tasks are woken one after the other, the pointers apart. -/
inductive WokenAll : Kernel → Lists → List Nat → Kernel → Lists → Prop
  | nil (k : Kernel) (L : Lists) : WokenAll k L [] k L
  | cons {k k' : Kernel} {L L' : Lists} {t : Nat} {ts : List Nat}
      {q : TailQ ListId Nat} (ht : (k.tasks t).tState = .sleep)
      (h : WokenAll ((k.woken t).withLists q) (L.woken k t) ts k' L') : WokenAll k L (t :: ts) k' L'

theorem woken_sleep (k : Kernel) (t : Nat) (L : Lists) :
    L.woken k t .sleep = (L .sleep).erase t := by
  simp [Lists.woken, Lists.toRun, Lists.leave]

/-- Whoever still sleeps keeps the order. -/
theorem WokenAll.sublist {k k' : Kernel} {L L' : Lists} {ts : List Nat}
    (h : WokenAll k L ts k' L') : (L' .sleep).Sublist (L .sleep) := by
  induction h with
  | nil => exact Sublist.refl _
  | cons _ _ ih =>
    exact ih.trans erase_sublist

section Many

variable {k k' : Kernel} {L L' : Lists} {t n : Nat} {ts : List Nat} {Q : Post Kernel Empty Unit}

@[simp] theorem woken_tasks (k : Kernel) (t : Nat) (q : TailQ ListId Nat) :
    ((k.woken t).withLists q).tasks = update k.tasks t (k.tasks t).woken := rfl

theorem WokenAll.tasks (h : WokenAll k L ts k' L') (b : Nat) :
    k'.tasks b = if b ∈ ts then (k.tasks b).woken else k.tasks b := by
  induction h with
  | nil => simp
  | @cons k k' L L' t ts q ht _ ih =>
    rw [ih, woken_tasks]
    by_cases hbt : b = t
    · subst hbt
      simp [Task.woken]
    · simp [hbt]

/-- Nothing else changes. -/
theorem WokenAll.rest (h : WokenAll k L ts k' L') :
    k'.mutexes = k.mutexes ∧ k'.semTokens = k.semTokens ∧
      k'.evqTask = k.evqTask ∧ k'.time = k.time ∧ k'.current = k.current := by
  induction h with
  | nil => exact ⟨rfl, rfl, rfl, rfl, rfl⟩
  | cons _ _ ih => exact ih

/-- One task changes, and the chains with it. -/
theorem Waits.of_task (w : Waits k) (hrest : ∀ b, b ≠ t → k'.tasks b = k.tasks b)
    (hw : ∀ o x, x ≠ t → (x ∈ k'.waiters o ↔ x ∈ k.waiters o))
    (hself : ∀ o, t ∈ k'.waiters o ↔ (k'.tasks t).tObj = some o)
    (hnd : ∀ o, (k'.waiters o).Nodup) (hs : (k'.tasks t).tState = .sleep ∨
      (k'.tasks t).tObj = none ∧ (k'.tasks t).noTimeout = false) : Waits k' := by
  refine ⟨fun o x => ?_, hnd, fun x o ho => ?_, fun x hn => ?_⟩ <;> by_cases hx : x = t
  · exact hx ▸ hself o
  · rw [hw o x hx, hrest x hx]
    exact w.chain o x
  · subst hx
    exact hs.resolve_right (by simp [ho])
  · rw [hrest x hx] at ho ⊢
    exact w.asleep x o ho
  · subst hx
    exact hs.resolve_right (by simp [hn])
  · rw [hrest x hx] at hn ⊢
    exact w.forever x hn

theorem Waits.woken (w : Waits k) (q : TailQ ListId Nat) : Waits ((k.woken t).withLists q) := by
  have hw : ∀ o, ((k.woken t).withLists q).waiters o =
      if (k.tasks t).tObj = some o then (k.waiters o).erase t
      else k.waiters o := fun o => rfl
  refine w.of_task (fun b hb => update_of_ne hb _ _) (fun o x hx => ?_) (fun o => ?_)
    (fun o => ?_) (.inr (by simp [Task.woken]))
  · rw [hw]
    split
    · simp [hx]
    · rfl
  · rw [hw, woken_tasks, update_self]
    simp only [Task.woken, reduceCtorEq, iff_false]
    split
    · exact fun hm => ((w.nodup o).mem_erase_iff.mp hm).1 rfl
    · next ho => exact fun hm => ho ((w.chain o t).mp hm)
  · rw [hw]
    split
    · exact (w.nodup o).erase t
    · exact w.nodup o

/-- Whether the expiry loop goes on behind this task. -/
def Kernel.expired (k : Kernel) (now t : Nat) : Bool :=
  !(k.tasks t).noTimeout && tickGeq now (k.tasks t).tNextWakeup

theorem wp_timerExpLoop {now : Nat} {S : List Nat} (h : Listed k L) (w : Waits k)
    (hS : L .sleep = S) (hn : S.length < n)
    (hok : ∀ k' L', WokenAll k L (S.takeWhile (k.expired now)) k' L' →
      Listed k' L' → Waits k' → Q.ok () k') : Wp (timerExpLoop now n S.head?) Q k := by
  -- The pointer to the next task is read before the task leaves the list.
  induction S generalizing k L n with
  | nil =>
    obtain _ | n := n
    · omega
    exact .pure (hok k L (.nil k L) h w)
  | cons t S ih =>
    simp only [length_cons] at hn
    obtain _ | n := n
    · omega
    have ht : (k.tasks t).tState = .sleep := (h.sleep t).mp (by simp [hS])
    have hnodup := h.queues.nodup .sleep
    rw [hS, nodup_cons] at hnodup
    have hnext : k.lists.next t = S.head? :=
      h.queues.next_eq (A := []) (by simpa using hS)
    refine .get_bind ?_
    split
    · next hnt =>
      have he : k.expired now t = false := by simp [Kernel.expired, hnt]
      simp only [takeWhile_cons, he] at hok
      exact .pure (hok k L (.nil k L) h w)
    · next hnt =>
      split
      · next hge =>
        have he : k.expired now t = true := by
          simp [Kernel.expired, hnt, hge]
        simp only [takeWhile_cons, he, if_true] at hok
        refine .bind (wp_osSchedWakeup h w ht fun q hl => ?_)
        rw [hnext]
        have hsame : S.takeWhile (((k.woken t).withLists q).expired now) =
            S.takeWhile (k.expired now) := by
          refine takeWhile_congr fun x hx => ?_
          have hxt : x ≠ t := fun he => hnodup.1 (he ▸ hx)
          simp [Kernel.expired, hxt]
        refine ih hl (w.woken q) ?_ (by omega) fun k' L' hall => ?_
        · simp [woken_sleep, hS]
        · rw [hsame] at hall
          exact hok k' L' (.cons ht hall)
      · next hge =>
        have he : k.expired now t = false := by
          simp [Kernel.expired, hge]
        simp only [takeWhile_cons, he] at hok
        exact .pure (hok k L (.nil k L) h w)

theorem wp_osSchedOsTimerExp (h : Listed k L) (w : Waits k)
    (hok : ∀ k' L', WokenAll k L ((L .sleep).takeWhile (k.expired k.time)) k' L' →
      Listed k' L' → Waits k' → Q.ok () k') : Wp osSchedOsTimerExp Q k := by
  refine .get_bind ?_
  rw [h.queues.first_eq]
  exact wp_timerExpLoop h w rfl (h.length_lt .sleep) hok

theorem wp_wakeAll {o : Obj} {b : Bool} {W : List Nat} (h : Listed k L) (w : Waits k)
    (hW : k.waiters o = W) (hn : W.length < n)
    (hok : ∀ k' L', WokenAll k L W k' L' → Listed k' L' → Waits k' → Q.ok () k') :
    Wp (wakeAll o b n) Q k := by
  induction W generalizing k L n with
  | nil =>
    obtain _ | n := n
    · omega
    refine .get_bind ?_
    rw [hW]
    exact .pure (hok k L (.nil k L) h w)
  | cons t W ih =>
    simp only [length_cons] at hn
    obtain _ | n := n
    · omega
    have hobj : (k.tasks t).tObj = some o :=
      (w.chain o t).mp (by simp [hW])
    have ht := w.asleep t o hobj
    refine .get_bind ?_
    rw [hW]
    refine .bind (.assert (by simp [hobj]) ?_)
    refine .bind (wp_osSchedWakeup h w ht fun q hl => ?_)
    refine ih hl (w.woken q) ?_ (by omega) fun k' L' hall =>
      hok k' L' (.cons ht hall)
    show (if (k.tasks t).tObj = some o then (k.waiters o).erase t
      else k.waiters o) = W
    simp [hobj, hW]

end Many

end Larva.Os
