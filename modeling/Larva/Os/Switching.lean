import Larva.Os.Runs

/-!
# Who may run

Two questions about `os_sched`. What does it take for the scheduler's lists to
stay in order, and when does a switch go to the right task?

The first has a short answer. Every kernel function keeps the lists, as long
as the task that calls it is ready; so the lists are in order in every state
that is reached by switches to ready tasks. Nothing else is asked: not where
interrupts come in, not how mutexes are used.

The second is about the calls that end with `os_sched`. They choose the task
inside a critical section. Between its end and the switch an interrupt may run
that task, and the task may go to sleep; `os_sched` is told a name and does
not look at the state again. The run `stale` does this with two tasks and a
semaphore, and `staleList` goes on from there until a task that is asleep is
taken off the run list it is not on.

Without such an interrupt the choice still stands at the switch, and it is the
head of the run list in all cases but one. `os_sem_release` compares the task
it wakes with its caller and not with the head. The two differ when the caller
has created a task that is more urgent than itself, because `os_task_init`
does not reschedule. The second half of `ChoiceStands` asks that the woken
task is ahead of the head as well.
-/

namespace Larva.Os

open TailQ Function

/-! ## The lists -/

/-- Every task is on the list that its state says and on no other, the run
list is in the order of priority and of insertion, and tasks without a
timeout are behind those with one. -/
def Sys.ListsInOrder (s : Sys) : Prop :=
  ∃ L : Lists, Queues s.k.lists L ∧ (∀ t ∈ s.k.taskList,
      (s.k.tasks t).tState = .ready ∧ t ∈ L .run ∧ t ∉ L .sleep ∨
      (s.k.tasks t).tState = .sleep ∧ t ∈ L .sleep ∧ t ∉ L .run) ∧
    (∀ i, ∀ t ∈ L i, t ∈ s.k.taskList) ∧ (L .run).Pairwise s.k.Before ∧
    (L .sleep).Pairwise fun a b =>
      (s.k.tasks a).noTimeout → (s.k.tasks b).noTimeout

theorem Listed.inOrder {s : Sys} {L : Lists} (h : Listed s.k L) :
    s.ListsInOrder := by
  refine ⟨L, h.queues, fun t ht => ?_, fun i t ht => ?_, h.sorted, h.timed⟩
  · rw [h.known] at ht
    cases hs : (s.k.tasks t).tState with
    | clear => exact (ht hs).elim
    | ready => exact .inl ⟨rfl, (h.run t).mpr hs, h.notMem_sleep hs⟩
    | sleep => exact .inr ⟨rfl, (h.sleep t).mpr hs, h.notMem_run hs⟩
  · rw [h.known]
    cases i with
    | run => rw [(h.run t).mp ht]; decide
    | sleep => rw [(h.sleep t).mp ht]; decide

/-- The lists are in order in every state that is reached without a switch to
a task that is not ready. -/
theorem lists_follow_states {s₀ s : Sys} (h₀ : Started s₀)
    (hr : Runs SwitchesToReady s₀ s) : s.ListsInOrder := by
  obtain ⟨L, hs, _⟩ := hr.invariant h₀
    (fun _ _ _ _ _ => id) (fun _ _ _ => trivial) (fun _ _ _ _ _ _ _ _ _ _ => trivial)
  exact hs.listed.inOrder

/-! ### Two tasks and a semaphore -/

theorem eq_some_getD {α : Type} {o : Option α} (d : α) (h : o.isSome = true) :
    o = some (o.getD d) := by
  cases o with
  | none => cases h
  | some a => rfl

def noTokens : Nat → Nat := fun _ => 0

/-- Task 1 is the more urgent one. -/
def twoTasks : Sys := (boot noTokens 0 [(0, 5), (1, 1)]).getD (.zero noTokens 0)

theorem started_getD {tokens : Nat → Nat} {time : Nat} {tasks : List (Nat × Nat)} {d : Sys}
    (h : (boot tokens time tasks).isSome = true) (hn : ∀ n, tokens n < 2 ^ 16)
    (ht : time < 2 ^ 32) : Started ((boot tokens time tasks).getD d) :=
  started_of_boot hn ht (eq_some_getD d h)

theorem twoTasks_started : Started twoTasks :=
  started_getD (by decide +kernel) (by simp [noTokens]) (by decide)

/-- `SwitchesToReady`, as a test. -/
def switchReady (s : Sys) (l : Label) : Bool :=
  match l, s.pc s.cur with
  | .go, .switch next _ => decide ((s.k.tasks next).tState = .ready)
  | _, _ => true

theorem switchReady_sound (s : Sys) (l : Label) (h : switchReady s l = true) :
    SwitchesToReady s l := by
  intro next c hl hpc
  subst hl
  simpa [switchReady, hpc] using h

/-- Task 1 waits and is woken. Before the switch to it a tick comes in, which
runs it, and it waits again. Then task 0 goes on with the switch. -/
def stale : List Label :=
  [.call (.semPend 0 osTimeoutNever), .go, .go, .call (.semRelease 0), .tick,
    .preempt 1, .go, .call (.semPend 0 osTimeoutNever), .go, .go, .go]

/-- The switch, and what task 1 does then. -/
def staleList : List Label := stale ++ [.go, .go, .go, .call (.delay 5)]

/-- The state after the steps of a list, as long as each is of a kind. -/
def Sys.after (ok : Sys → Label → Bool) (ls : List Label) (s : Sys) : Sys :=
  (s.steps ok ls).getD s

theorem runs_after {P : Sys → Label → Prop} {ok : Sys → Label → Bool}
    {ls : List Label} {s : Sys} (hok : ∀ s l, ok s l = true → P s l)
    (h : (s.steps ok ls).isSome = true) : Runs P s (s.after ok ls) :=
  runs_of_steps hok .start (eq_some_getD s h)

/-- Every step but the switch goes well so far. -/
theorem lists_follow_states_stale :
    Runs SwitchesToReady twoTasks (twoTasks.after switchReady stale) ∧
      (twoTasks.after switchReady stale).ListsInOrder := by
  have hr : Runs SwitchesToReady twoTasks
      (twoTasks.after switchReady stale) :=
    runs_after switchReady_sound (by decide +kernel)
  exact ⟨hr, lists_follow_states twoTasks_started hr⟩

/-- In the end task 1 sleeps and is on no list. -/
theorem staleList_loses_task : Started twoTasks ∧
      ∃ s, Runs (fun _ _ => True) twoTasks s ∧ ¬ s.ListsInOrder := by
  refine ⟨twoTasks_started, twoTasks.after (fun _ _ => true) staleList,
    runs_after (fun _ _ _ => trivial) (by decide +kernel), ?_⟩
  rintro ⟨L, hq, hon, _⟩
  have hstate : ((twoTasks.after (fun _ _ => true) staleList).k.tasks
      1).tState = .sleep := by decide +kernel
  have hknown : 1 ∈ (twoTasks.after (fun _ _ => true) staleList).k.taskList := by
    decide +kernel
  have hempty : (twoTasks.after (fun _ _ => true) staleList).k.lists.first
      .sleep = none := by decide +kernel
  rw [hq.first_eq, List.head?_eq_none_iff] at hempty
  rcases hon 1 hknown with ⟨hr, _⟩ | ⟨_, hm, _⟩
  · cases hstate.symm.trans hr
  · rw [hempty] at hm
    cases hm

/-! ## The switch -/

/-- The task `os_sched` is to switch to, when it has been chosen. -/
def Pc.chosen : Pc → Option Nat
  | .sched next _ => next
  | .switch next _ => some next
  | _ => none

/-- No interrupt comes between the choice of a task and the switch, and
`os_sem_release` wakes nobody who is ahead of its caller but behind the head
of the run list. -/
def ChoiceStands (s : Sys) (l : Label) : Prop :=
  ((s.pc s.cur).chosen ≠ none → l = .go) ∧
  ∀ n rdy t, l = .call (.semRelease n) → (s.k.waiters (.sem n)).head? = some rdy →
    (s.k.tasks rdy).tPrio < (s.k.tasks s.cur).tPrio →
    s.k.lists.first .run = some t → (s.k.tasks rdy).tPrio < (s.k.tasks t).tPrio

/-- Only the running task has chosen, and it chose the head. -/
def Chosen (s : Sys) (L : Lists) : Prop :=
  ∀ t next, (s.pc t).chosen = some next → t = s.cur ∧ (L .run).head? = some next

section Choice

variable {s s' : Sys} {L L' : Lists}

/-- The running task goes on to a point at which it may have chosen. -/
theorem Chosen.of_cur (h : Chosen s L) (hpc : ∀ t, t ≠ s.cur → s'.pc t = s.pc t)
    (hp : ∀ next, (s'.pc s.cur).chosen = some next →
      s'.cur = s.cur ∧ (L' .run).head? = some next) : Chosen s' L' := by
  intro t next ht
  by_cases htc : t = s.cur
  · rw [htc] at ht
    exact ⟨htc.trans (hp next ht).1.symm, (hp next ht).2⟩
  · rw [hpc t htc] at ht
    exact (htc (h t next ht).1).elim

/-- It goes on to a point at which it has not. -/
theorem Chosen.of_goto {p : Pc} (h : Chosen s L)
    (hpc : s'.pc = update s.pc s.cur p) (hp : p.chosen = none) : Chosen s' L' := by
  refine h.of_cur (fun t ht => ?_) fun next hn => ?_
  · rw [hpc]
    exact update_of_ne ht _ _
  · rw [hpc, update_self, hp] at hn
    cases hn

/-- It has not chosen, and an interrupt changes no point. -/
theorem Chosen.of_pc (h : Chosen s L) (hno : (s.pc s.cur).chosen = none)
    (hpc : ∀ t, s'.pc t = s.pc t ∨ (s'.pc t).chosen = none) : Chosen s' L' := by
  intro t next ht
  rcases hpc t with hp | hp
  · rw [hp] at ht
    have hcur := (h t next ht).1
    rw [hcur, hno] at ht
    cases ht
  · rw [hp] at ht
    cases ht

/-- The calls that compare with the head pass the head on. -/
theorem Chosen.of_resched (h : Chosen s L) (hcur : s'.cur = s.cur)
    (hpc : s'.pc = (s.finish s.cur (reschedTo s.cur L') .returned).pc) : Chosen s' L' := by
  refine h.of_cur (fun t ht => ?_) fun next hn => ⟨hcur, ?_⟩
  · rw [hpc]
    exact finish_pc t ht
  · rw [hpc] at hn
    by_cases hh : (L' .run).head? = some s.cur
    · simp [Sys.finish, Sys.goto, reschedTo, hh, Pc.chosen] at hn
    · simpa [Sys.finish, Sys.goto, reschedTo, hh, Pc.chosen] using hn

theorem head_woken {rdy : Nat} (h : ∀ t, (L .run).head? = some t →
      (s.k.tasks rdy).tPrio < (s.k.tasks t).tPrio) : (L.woken s.k rdy .run).head? = some rdy := by
  show (insertAt _ rdy (L .run)).head? = _
  cases hl : L .run with
  | nil => rfl
  | cons t l =>
    have ht := h t (by rw [hl]; rfl)
    simp [insertAt, ht]

theorem Does.chosen {l : Label} (h : Sane s L) (hc : Chosen s L)
    (hp : ChoiceStands s l) (hd : Does s L l s' L') : Chosen s' L' := by
  have hint : l ≠ .go → (s.pc s.cur).chosen = none := by
    intro hl
    cases hch : (s.pc s.cur).chosen with
    | none => rfl
    | some next => exact (hl (hp.1 (by rw [hch]; simp))).elim
  cases hd with
  | semBusy | mutexBusy | notOwned => exact hc
  | semTake hpc | mutexTake hpc | mutexNest hpc =>
    exact hc.of_pc (by rw [hpc]; rfl) fun _ => .inl rfl
  | semBlock | semAdd | mutexBlock | checked | unnest | cutNested | cut
  | noDelay | delay | schedSelf | semGot | semLate | semClear | mutexClear
  | mutexGot | mutexLate | done | switch =>
    exact hc.of_goto rfl rfl
  | semDelete _ _ hr =>
    rcases hr with rfl | rfl <;> exact hc.of_goto rfl rfl
  | @semGrant n rdy W q hpc hW =>
    refine hc.of_cur finish_pc fun next hn => ⟨rfl, ?_⟩
    by_cases hlt : (s.k.tasks rdy).tPrio < (s.k.tasks s.cur).tPrio
    · have hnext : rdy = next := by
        simpa [Sys.finish, Sys.goto, hlt, Pc.chosen] using hn
      subst hnext
      refine head_woken fun t ht => ?_
      refine hp.2 n rdy t rfl (by rw [hW]; rfl) hlt ?_
      rw [h.listed.queues.first_eq]
      exact ht
    · simp [Sys.finish, Sys.goto, hlt, Pc.chosen] at hn
  | @hand l m =>
    exact hc.of_resched (alike_restored _ m s.cur).current rfl
  | @free l m =>
    exact hc.of_resched (alike_restored _ m s.cur).current rfl
  | @windowHand m => exact hc.of_resched (alike_restored s.k m s.cur).current rfl
  | @windowFree m => exact hc.of_resched (alike_restored s.k m s.cur).current rfl
  | @mutexDelete m q k' L1 _ hpc hL hall =>
    exact hc.of_resched (hall.rest.2.2.2.2.trans (alike_ownerRestored s.k m).current) rfl
  | @evqGet e got => cases got <;> exact hc.of_goto rfl rfl
  | @evqAgain e got => cases got <;> exact hc.of_goto rfl rfl
  | @evqPut e ev woke => cases woke <;> exact hc.of_goto rfl rfl
  | post | tick | preempt =>
    exact hc.of_pc (hint (by simp)) fun _ => .inl rfl
  | @taskInit t prio q _ hpc =>
    refine hc.of_pc (by rw [hpc]; rfl) fun b => ?_
    by_cases hb : b = t
    · right
      show (update s.pc t .user b).chosen = none
      rw [hb, update_self]
      rfl
    · exact .inl (update_of_ne hb _ _)
  | @schedOther next c t hpc hn hne =>
    refine hc.of_cur (fun t ht => update_of_ne ht _ _) fun next' hn' => ⟨rfl, ?_⟩
    have ht : t = next' := by
      simpa [Sys.goto, Pc.chosen] using hn'
    subst ht
    cases next with
    | none => exact hn
    | some nx =>
      obtain rfl : nx = t := Option.some.inj hn
      exact (hc s.cur nx (by rw [hpc]; rfl)).2

end Choice

/-- At every switch the task that was chosen is ready and the head of the run
list. -/
theorem switches_to_head {s₀ s : Sys} (h₀ : Started s₀)
    (hr : Runs ChoiceStands s₀ s) {next : Nat} {c : Cont} (hpc : s.pc s.cur = .switch next c) :
    (s.k.tasks next).tState = .ready ∧ s.k.lists.first .run = some next := by
  have hready : ∀ s L, Sane s L → Chosen s L → ∀ next c,
      s.pc s.cur = .switch next c → (s.k.tasks next).tState = .ready ∧
        s.k.lists.first .run = some next := by
    intro s L hs hc next c hpc
    have hh := (hc s.cur next (by rw [hpc]; rfl)).2
    refine ⟨(hs.listed.run next).mp (List.mem_of_mem_head? hh), ?_⟩
    rw [hs.listed.queues.first_eq]
    exact hh
  have hbase : ∀ L, Chosen s₀ L := by
    intro L t nx ht
    rw [h₀.fresh.1.pc t] at ht
    cases ht
  obtain ⟨L, hs, hc⟩ := hr.invariant h₀
    (fun s L l hs hj _ next c _ hpc => (hready s L hs hj next c hpc).1) (fun L _ _ => hbase L)
    (fun s L l s' L' hs hj hp hd _ => hd.chosen hs hj hp)
  exact hready s L hs hc next c hpc

/-- `ChoiceStands`, as a test. -/
def choiceStands (s : Sys) (l : Label) : Bool :=
  ((s.pc s.cur).chosen.isNone || decide (l = .go)) &&
  match l with
  | .call (.semRelease n) =>
    match (s.k.waiters (.sem n)).head?, s.k.lists.first .run with
    | some rdy, some t =>
      !decide ((s.k.tasks rdy).tPrio < (s.k.tasks s.cur).tPrio) ||
        decide ((s.k.tasks rdy).tPrio < (s.k.tasks t).tPrio)
    | _, _ => true
  | _ => true

theorem choiceStands_sound (s : Sys) (l : Label)
    (h : choiceStands s l = true) : ChoiceStands s l := by
  simp only [choiceStands, Bool.and_eq_true, Bool.or_eq_true,
    Option.isNone_iff_eq_none, decide_eq_true_eq] at h
  refine ⟨h.1.resolve_left, ?_⟩
  rintro n rdy t rfl hW hlt hf
  have h2 := h.2
  simp only [hW, hf, hlt, decide_true, Bool.not_true, Bool.false_or, decide_eq_true_eq] at h2
  exact h2

/-- Task 1 waits and is woken, and nothing comes in between. -/
def direct : List Label :=
  [.call (.semPend 0 osTimeoutNever), .go, .go, .call (.semRelease 0), .go]

theorem switches_to_head_direct : (twoTasks.after choiceStands direct).pc 0 = .switch 1 .returned ∧
      ((twoTasks.after choiceStands direct).k.tasks 1).tState = .ready ∧
      (twoTasks.after choiceStands direct).k.lists.first .run = some 1 := by
  have hr : Runs ChoiceStands twoTasks (twoTasks.after choiceStands direct) :=
    runs_after choiceStands_sound (by decide +kernel)
  have hcur : (twoTasks.after choiceStands direct).cur = 0 := by
    decide +kernel
  have hpc : (twoTasks.after choiceStands direct).pc 0 = .switch 1 .returned := by decide +kernel
  exact ⟨hpc, switches_to_head twoTasks_started hr (by rw [hcur]; exact hpc)⟩

/-- Task 0 is about to switch to task 1, which sleeps. -/
theorem stale_switches_to_sleeper : Started twoTasks ∧ ∃ s, Runs (fun _ _ => True) twoTasks s ∧
      s.pc s.cur = .switch 1 .returned ∧ (s.k.tasks 1).tState = .sleep ∧
      s.k.lists.first .run = some 0 :=
  ⟨twoTasks_started, twoTasks.after (fun _ _ => true) stale,
    runs_after (fun _ _ _ => trivial) (by decide +kernel), by decide +kernel,
    by decide +kernel, by decide +kernel⟩

end Larva.Os
