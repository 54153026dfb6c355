import Larva.Lib.Account
import Larva.Os.Callouts

/-!
# Event queues lose nothing

One task takes events off a queue with `os_eventq_get`. Tasks and interrupt
handlers put events on it and remove events from it, whenever interrupts are
on. What was queued, returned and removed is kept in an account, and the
account settles with the queue in every state that is reached.

The consumer sleeps only when the queue is empty, with its name in `evq_task`,
and the put that ends the emptiness wakes it. That much is read off the
critical sections. What is less plain is that the wakeup always goes through.
`os_sched` can switch to the consumer after it went back to sleep (the run
`stale` of `Switching`), the consumer then finds the queue empty and goes to
sleep a second time, and the removal from the run list, on which it is not,
damages the two lists. The damage does no harm here. For the switch to be
chosen the consumer has to be more urgent than every other ready task, and as
the others never sleep, this stays so: the consumer is only ever put in front
of the first task of the run list, and what this reads is in order
(`Damaged`).
-/

namespace Larva.Os

open Crash TailQ Function List Option

/-! ## The lists -/

/-- There are other ready tasks, and all are less urgent. -/
structure Leads (c : Nat) (k : Kernel) : Prop where
  known : (k.tasks c).tState ≠ .clear
  other : ∃ t, t ≠ c ∧ (k.tasks t).tState = .ready
  first : ∀ t, t ≠ c → (k.tasks t).tState = .ready → (k.tasks c).tPrio < (k.tasks t).tPrio

/-- The lists after the consumer has gone to sleep twice: it is the first of
the run list, or its entry names itself and it is on no list. -/
structure Damaged (c : Nat) (k : Kernel) : Prop where
  leads : Leads c k
  firstAsleep : k.lists.first .sleep = none
  lastAsleep : k.lists.last .sleep = .next c
  place : ∃ t, t ≠ c ∧ (k.tasks t).tState = .ready ∧
    ((k.tasks c).tState = .ready ∧ k.lists.first .run = some c ∧
        k.lists.prev c = some (.head .run) ∧ k.lists.next c = some t ∨
      (k.tasks c).tState = .sleep ∧ k.lists.first .run = some t ∧
        k.lists.prev t = some (.head .run) ∧ k.lists.next c = some c ∧
        k.lists.prev c = some (.next c))

def Kept (c : Nat) (k : Kernel) : Prop := (∃ L, Listed k L) ∨ Damaged c k

section Lists

variable {c t a : Nat} {k k' : Kernel} {q : TailQ ListId Nat} {Q : Post Kernel Empty Unit}

/-- Of the tasks, only `c` has another state. -/
structure Turns (c : Nat) (k k' : Kernel) : Prop where
  clear : (k'.tasks c).tState = .clear → (k.tasks c).tState = .clear
  state : ∀ b, b ≠ c → (k'.tasks b).tState = (k.tasks b).tState
  prio : ∀ b, (k'.tasks b).tPrio = (k.tasks b).tPrio

theorem turns_same (ht : k'.tasks = k.tasks := by rfl) : Turns c k k' := by
  refine ⟨fun h => ?_, fun b _ => ?_, fun b => ?_⟩
  · rwa [ht] at h
  all_goals rw [ht]

theorem turns_update {τ : Task} (ht : k'.tasks = update k.tasks c τ)
    (hs : τ.tState ≠ .clear) (hp : τ.tPrio = (k.tasks c).tPrio) : Turns c k k' := by
  refine ⟨fun h => ?_, fun b hb => ?_, fun b => ?_⟩
  · rw [ht, update_self] at h
    exact (hs h).elim
  · rw [ht, update_of_ne hb]
  · rw [ht]
    by_cases hb : b = c
    · rw [hb, update_self, hp]
    · rw [update_of_ne hb]

theorem Leads.congr (h : Leads c k) (ht : Turns c k k') : Leads c k' := by
  obtain ⟨hk, ⟨t, hne, hr⟩, hlt⟩ := h
  refine ⟨fun h => hk (ht.clear h), ⟨t, hne, (ht.state t hne).trans hr⟩, fun b hb hr => ?_⟩
  rw [ht.prio, ht.prio]
  exact hlt b hb ((ht.state b hb).symm.trans hr)

theorem Kept.congr (h : Kept c k)
    (hk : ∀ L, Listed k L → Listed k' L := by exact fun _ h => h.congr)
    (ht : k'.tasks = k.tasks := by rfl) (hl : k'.lists = k.lists := by rfl) : Kept c k' := by
  rcases h with ⟨L, h⟩ | ⟨hlead, hf, hla, t, hne, hr, hpl⟩
  · exact .inl ⟨L, hk L h⟩
  · refine .inr ⟨hlead.congr (turns_same ht), hl ▸ hf, hl ▸ hla, t, hne, ht ▸ hr, ?_⟩
    rw [hl, ht]
    exact hpl

/-- Who is first on the run list is ready. -/
theorem Kept.ready_first (h : Kept c k) (hf : k.lists.first .run = some t) :
    (k.tasks t).tState = .ready := by
  rcases h with ⟨L, h⟩ | ⟨-, -, -, o, -, ho, ⟨hc, hf', -⟩ | ⟨-, hf', -⟩⟩
  · rw [h.queues.first_eq] at hf
    exact (h.run t).mp (mem_of_mem_head? hf)
  all_goals
    obtain rfl := some.inj (hf'.symm.trans hf)
    assumption

/-- Taking off an element whose entry names itself changes nothing. -/
theorem unlink_loop (i : ListId) (hn : q.next a = some a) (hp : q.prev a = some (.next a)) :
    q.unlink i a (.next a) = q := by
  simp only [unlink, hn, write]
  rw [← hn, update_eq_self, ← hp, update_eq_self]

/-- An element that is put behind itself. -/
theorem linkTail_loop (hl : q.last .sleep = .next a) :
    q.linkTail .sleep a = { q with
      next := update q.next a (some a)
      prev := update q.prev a (some (.next a)) } := by
  simp only [linkTail, write, hl, update_idem]
  rw [← hl, update_eq_self]

/-- The consumer's second sleep, and every one after the damage. -/
theorem wp_sleepDamaged {q1 : TailQ ListId Nat} {r : Ref ListId Nat} {n : Nat} (hlead : Leads c k)
    (hn : n = osTimeoutNever) (hr : k.lists.prev c = some r) (hq : k.lists.unlink .run c r = q1)
    (hsl : q1.first .sleep = none) (hla : q1.last .sleep = .next c) (hne : t ≠ c)
    (ht : (k.tasks t).tState = .ready) (hf : q1.first .run = some t)
    (hp : q1.prev t = some (.head .run))
    (hok : ∀ q, Kept c ((k.slept c n).withLists q) → Q.ok () ((k.slept c n).withLists q)) :
    Wp (osSchedSleep c n) Q k := by
  refine .bind (.zoom (.get_bind ?_))
  rw [hr]
  refine .modify (.bind (.modify ?_))
  rw [if_pos hn, hq]
  refine .bind (.modify (.zoom (.modify ?_)))
  have hk := hok (q1.linkTail .sleep c) (.inr ⟨?_, ?_, ?_, t, hne, ?_, .inr ?_⟩)
  · refine cast (congrArg (Q.ok ()) ?_) hk
    simp [Kernel.slept, Kernel.withLists, setTask, hn]
  · exact hlead.congr (turns_update rfl (by rintro ⟨⟩) rfl)
  · rw [Kernel.withLists, linkTail_loop hla]
    exact hsl
  · rw [Kernel.withLists, linkTail_loop hla]
    exact hla
  · simpa [Kernel.slept, Kernel.withLists, setTask, hne] using ht
  · rw [Kernel.withLists, linkTail_loop hla]
    refine ⟨by simp [Kernel.slept, setTask], hf, ?_, by simp, by simp⟩
    simpa [hne] using hp

/-- The consumer goes to sleep. It is ready, or it sleeps already and has been
switched to. -/
theorem Kept.wp_sleep (h : Kept c k) (w : Waits k) (ho : ∀ t, t ≠ c → (k.tasks t).tState ≠ .sleep)
    (hc : (k.tasks c).tState = .ready ∨ (k.tasks c).tState = .sleep ∧ Leads c k)
    (hok : ∀ q, Kept c ((k.slept c osTimeoutNever).withLists q) →
      Q.ok () ((k.slept c osTimeoutNever).withLists q)) :
    Wp (osSchedSleep c osTimeoutNever) Q k := by
  rcases h with ⟨L, h⟩ | ⟨hlead, hf, hla, t, hne, ht, hpl⟩
  · rcases hc with hc | ⟨hc, hlead⟩
    · exact wp_osSchedSleep h hc (w.noTimeout_eq hc) fun q hl =>
        hok q (.inl ⟨_, hl⟩)
    -- The consumer is alone on the sleep list.
    · have hS : L .sleep = [c] := by
        have hmem := (h.sleep c).mpr hc
        have hall : ∀ x ∈ L .sleep, x = c := fun x hx =>
          Classical.not_not.mp fun hx' => ho x hx' ((h.sleep x).mp hx)
        have hnd := h.queues.nodup .sleep
        match hL : L .sleep, hmem, hall, hnd with
        | [a], hmem, _, _ => rw [mem_singleton.mp hmem]
        | a :: b :: l, _, hall, hnd =>
          have ha := hall a (by simp)
          have hb := hall b (by simp)
          rw [ha, hb] at hnd
          simp at hnd
      obtain ⟨o, _, hor⟩ := hlead.other
      obtain ⟨t, R, hR⟩ : ∃ t R, L .run = t :: R := by
        cases hL : L .run with
        | nil =>
          have hm := (h.run o).mpr hor
          rw [hL] at hm
          cases hm
        | cons t R => exact ⟨t, R, rfl⟩
      have htr : (k.tasks t).tState = .ready := (h.run t).mp (by simp [hR])
      have hne : t ≠ c := by
        rintro rfl
        rw [hc] at htr
        cases htr
      have hprev : k.lists.prev c = some (.head .sleep) :=
        h.queues.prev_eq (A := []) hS
      have hnext : k.lists.next c = none :=
        h.queues.next_eq (A := []) hS
      have hlast := h.queues.last .sleep
      rw [hS] at hlast
      refine wp_sleepDamaged hlead rfl hprev rfl ?_ ?_ hne htr ?_ ?_ hok
      · simp [unlink, hnext, write]
      · simpa [unlink, hnext, write, stop] using hlast
      · have hfirst := h.queues.first_eq .run
        simpa [unlink, hnext, write, hR] using hfirst
      · have hp := h.queues.prev_eq (A := []) hR
        simpa [unlink, hnext, write, stop] using hp
  · rcases hpl with ⟨-, hfr, hp, hn⟩ | ⟨-, hfr, hpt, hn, hp⟩
    · refine wp_sleepDamaged hlead rfl hp rfl ?_ ?_ hne ht ?_ ?_ hok
      · simpa [unlink, hn, write] using hf
      · simpa [unlink, hn, write] using hla
      · simp [unlink, hn, write]
      · simp [unlink, hn, write]
    · exact wp_sleepDamaged hlead rfl hp (unlink_loop .run hn hp) hf hla hne ht hfr hpt hok

theorem Kept.wp_wakeup (h : Kept c k) (w : Waits k) (hc : (k.tasks c).tState = .sleep)
    (hok : ∀ q, Kept c ((k.woken c).withLists q) →
      Q.ok () ((k.woken c).withLists q)) : Wp (osSchedWakeup c) Q k := by
  rcases h with ⟨L, h⟩ | ⟨hlead, hf, hla, t, hne, ht, hpl⟩
  · exact wp_osSchedWakeup h w hc fun q hl => hok q (.inl ⟨_, hl⟩)
  obtain ⟨-, hfr, hpt, hn, hp⟩ := hpl.resolve_left fun h => by
    rw [hc] at h
    cases h.1
  refine .bind (.get (.bind (.assert (decide_eq_true hc) ?_)))
  refine .bind (wp_leaveObj w (.bind (.modify ?_)))
  generalize hk1 : setTask c _ (k.left c) = k1
  have hlists : k1.lists = k.lists := by rw [← hk1]; rfl
  have hprio : ∀ b, (k1.tasks b).tPrio = (k.tasks b).tPrio := by
    intro b
    rw [← hk1]
    by_cases hb : b = c
    · simp [setTask, Kernel.left, hb]
    · simp [setTask, Kernel.left, hb]
  have hready : (k1.tasks c).tState = .ready := by
    rw [← hk1]
    simp [setTask, Kernel.left]
  refine .bind (.zoom (.get_bind ?_))
  rw [hlists, hp]
  refine .modify ?_
  rw [unlink_loop .sleep hn hp, ← hlists]
  refine .bind (.get_bind ?_)
  rw [if_pos hready]
  refine .bind (.zoom (.get_bind ?_))
  -- The walk ends at once: the first task is less urgent.
  have hsearch : k1.lists.search
      (fun e => decide ((k1.tasks c).tPrio < (k1.tasks e).tPrio)) k1.rounds
      (k1.lists.first .run) = some (some t) := by
    rw [hlists, hfr, Kernel.rounds, TailQ.search, hprio, hprio,
      if_pos (decide_eq_true (hlead.first t hne ht))]
  rw [show Kernel.rounds { k1 with lists := k1.lists } = k1.rounds from rfl, hsearch]
  refine .get_bind ?_
  rw [hlists, hpt]
  refine .modify (.bind (.modify (.pure (.pure ?_))))
  have hk := hok (k.lists.linkBefore t c (.head .run)) (.inr ⟨?_, ?_, ?_, t, hne, ?_, .inl ?_⟩)
  · refine cast (congrArg (Q.ok ()) ?_) hk
    rw [← hk1]
    simp [Kernel.woken, Kernel.noteInsert, Kernel.withLists, setTask, Kernel.left, Task.woken]
  · exact hlead.congr (turns_update rfl (by rintro ⟨⟩) rfl)
  · simpa [Kernel.withLists, linkBefore, write] using hf
  · simpa [Kernel.withLists, linkBefore, write] using hla
  · simpa [Kernel.woken, Kernel.noteInsert, Kernel.withLists, hne] using ht
  · refine ⟨?_, ?_, ?_, ?_⟩
    · simp [Kernel.woken, Kernel.noteInsert, Kernel.withLists, Task.woken]
    · simp [Kernel.withLists, linkBefore, write]
    · simp [Kernel.withLists, linkBefore, write, hne.symm]
    · simp [Kernel.withLists, linkBefore, write]

end Lists

/-! ## The queue and its consumer -/

/-- An event is on the queue once when its flag is set, and otherwise not. -/
structure Flagged (e : Nat) (k : Kernel) : Prop where
  nodup : (k.evqList e).Nodup
  queued : ∀ ev, k.evQueued ev = true ↔ ev ∈ k.evqList e

/-- The consumer `c` of the queue `e` is the only task that ever sleeps, and
it sleeps when the queue is empty. -/
structure Attended (e c : Nat) (k : Kernel) : Prop where
  waits : Waits k
  others : ∀ t, t ≠ c → (k.tasks t).tState ≠ .sleep
  asleep : (k.tasks c).tState = .sleep →
    k.evqTask e = some c ∧ k.evqList e = [] ∧ (k.tasks c).noTimeout = true
  task : ∀ t, k.evqTask e = some t → t = c ∧ (k.tasks c).tState = .sleep
  flags : Flagged e k
  numbered : ∀ t, (k.tasks t).tState = .ready → k.inserted t < k.insertions
  lists : Kept c k

/-- What `os_eventq_put2` does. -/
inductive Accepts (e c : Nat) (ev : Ev) (k : Kernel) : Bool → Kernel → Prop
  | nop (hq : k.evQueued ev = true) : Accepts e c ev k false k
  | add (hq : k.evQueued ev = false) (ht : k.evqTask e = none) :
      Accepts e c ev k false (k.queued e ev)
  | wake {q : TailQ ListId Nat} (hq : k.evQueued ev = false) (ht : k.evqTask e = some c) :
      Accepts e c ev k true (setEvqTask e none (((k.queued e ev).woken c).withLists q))

/-- What `os_eventq_get` does from `pull_one` on. -/
inductive Pulls (e c : Nat) (k : Kernel) : Option Ev → Kernel → Prop
  | got {ev : Ev} {evs : List Ev} (hl : k.evqList e = ev :: evs) :
      Pulls e c k (some ev) (k.pulled e ev evs)
  | block {q : TailQ ListId Nat} (hl : k.evqList e = []) : Pulls e c k none
        (((setEvqTask e (some c) k).slept c osTimeoutNever).withLists q)

/-- The event is not on the queue any more. -/
def Kernel.without (e : Nat) (ev : Ev) (k : Kernel) : Kernel := { k with
  evqList := update k.evqList e ((k.evqList e).erase ev)
  evQueued := update k.evQueued ev false }

section Consumer

variable {e c : Nat} {ev : Ev} {k k' : Kernel}

theorem Flagged.put (h : Flagged e k) (hq : k.evQueued ev = false) : Flagged e (k.queued e ev) := by
  have hnot : ev ∉ k.evqList e := by
    rw [← h.queued, hq]
    exact Bool.false_ne_true
  refine ⟨?_, fun ev' => ?_⟩
  · simp only [Kernel.queued, update_self]
    exact nodup_append.mpr ⟨h.nodup, nodup_singleton ev, fun a ha b hb => by
        rw [mem_singleton.mp hb]
        exact fun he => hnot (he ▸ ha)⟩
  · simp only [Kernel.queued, update_self, mem_append, mem_singleton]
    by_cases he : ev' = ev
    · simp [he]
    · simp [he, h.queued]

theorem Flagged.without (h : Flagged e k) : Flagged e (k.without e ev) := by
  refine ⟨?_, fun ev' => ?_⟩
  · simp only [Kernel.without, update_self]
    exact h.nodup.erase ev
  · simp only [Kernel.without, update_self, h.nodup.mem_erase_iff]
    by_cases he : ev' = ev
    · simp [he]
    · simp [he, h.queued]

/-- To take the first event is to take it out. -/
theorem pulled_eq {evs : List Ev} (hl : k.evqList e = ev :: evs) :
    k.pulled e ev evs = k.without e ev := by
  simp [Kernel.pulled, Kernel.without, hl]

variable (h : Attended e c k) {q : TailQ ListId Nat}
include h

/-- A change that only concerns the events. -/
theorem Attended.events {list : Nat → List Ev} {flag : Ev → Bool}
    (hf : Flagged e { k with evqList := list, evQueued := flag })
    (ha : (k.tasks c).tState = .sleep → list e = []) :
    Attended e c { k with evqList := list, evQueued := flag } where
  waits := h.waits.congr
  others := h.others
  asleep hs := ⟨(h.asleep hs).1, ha hs, (h.asleep hs).2.2⟩
  task := h.task
  flags := hf
  numbered := h.numbered
  lists := h.lists.congr

theorem Attended.wake (hq : k.evQueued ev = false)
    (hl : Kept c (((k.queued e ev).woken c).withLists q)) : Attended e c
      (setEvqTask e none (((k.queued e ev).woken c).withLists q)) := by
  have hw : Waits (k.queued e ev) := h.waits.congr
  have hwaits := hw.woken (t := c) q
  set k' := ((k.queued e ev).woken c).withLists q
  have hself : k'.tasks c = (k.tasks c).woken := update_self _ _ _
  have hrest : ∀ b, b ≠ c → k'.tasks b = k.tasks b := fun b hb => update_of_ne hb _ _
  refine ⟨hwaits.congr, fun t ht => ?_, fun hs => ?_, fun t ht => ?_, { h.flags.put hq with },
    fun t ht => ?_, hl.congr⟩
  · show (k'.tasks t).tState ≠ _
    rw [hrest t ht]
    exact h.others t ht
  · have hs : (k'.tasks c).tState = .sleep := hs
    rw [hself] at hs
    cases hs
  · simp [setEvqTask] at ht
  · refine lt_insertions fun htc => h.numbered t ?_
    rw [← hrest t htc]
    exact ht

/-- A put goes through, and wakes the consumer if it sleeps. -/
theorem Attended.put (ev : Ev) : ∃ woke k', exec (osEventqPut2 e ev) k = some (woke, k') ∧
      Accepts e c ev k woke k' ∧ Attended e c k' := by
  suffices hwp : Wp (osEventqPut2 e ev) (.total fun woke k' =>
      Accepts e c ev k woke k' ∧ Attended e c k') k from exec_isSome hwp id
  refine .get_bind ?_
  split
  · next hq => exact .pure ⟨.nop hq, h⟩
  · next hq =>
    rw [Bool.not_eq_true] at hq
    refine .modify_bind ?_
    cases ht : k.evqTask e with
    | none =>
      refine .pure ⟨.add hq ht, h.events (h.flags.put hq) fun hs => ?_⟩
      rw [(h.asleep hs).1] at ht
      cases ht
    | some t =>
      obtain ⟨rfl, hs⟩ := h.task t ht
      have hk : Kept t (k.queued e ev) := h.lists.congr
      have hw : Waits (k.queued e ev) := h.waits.congr
      refine .bind (hk.wp_wakeup hw hs fun q hl => ?_)
      exact .modify_bind (.pure ⟨.wake hq ht, h.wake hq hl⟩)

theorem Attended.block (he : k.evqList e = [])
    (hl : Kept c (((setEvqTask e (some c) k).slept c osTimeoutNever).withLists q)) : Attended e c
      (((setEvqTask e (some c) k).slept c osTimeoutNever).withLists q) := by
  have hself := slept_self (setEvqTask e (some c) k) c osTimeoutNever
  have hrest := fun b => slept_rest (setEvqTask e (some c) k) (t := c) (b := b) osTimeoutNever
  have hw : Waits (setEvqTask e (some c) k) := h.waits.congr
  have hwaits := hw.slept c osTimeoutNever q
  set k' := (setEvqTask e (some c) k).slept c osTimeoutNever
  refine ⟨hwaits, fun t ht => ?_, fun _ => ⟨?_, he, ?_⟩, fun t ht => ?_,
    { h.flags with }, fun t ht => ?_, hl⟩
  · show (k'.tasks t).tState ≠ _
    rw [hrest t ht]
    exact h.others t ht
  · exact update_self _ _ _
  · show (k'.tasks c).noTimeout = _
    rw [hself]
    simp
  · have ht : update k.evqTask e (some c) e = some t := ht
    rw [update_self] at ht
    refine ⟨(some.inj ht).symm, ?_⟩
    show (k'.tasks c).tState = _
    rw [hself]
  · have ht : (k'.tasks t).tState = .ready := ht
    by_cases htc : t = c
    · rw [htc, hself] at ht
      cases ht
    · rw [hrest t htc] at ht
      exact h.numbered t ht

/-- As long as the consumer is awake, nobody waits. -/
theorem Attended.evqTask_eq (hc : (k.tasks c).tState ≠ .sleep) : k.evqTask e = none := by
  cases ht : k.evqTask e with
  | none => rfl
  | some t => exact (hc (h.task t ht).2).elim

/-- The consumer pulls an event, or goes to sleep. -/
theorem Attended.pull (hcur : k.current = c)
    (hc : (k.tasks c).tState = .ready ∨ (k.tasks c).tState = .sleep ∧ Leads c k) :
    ∃ r k', exec (osEventqGetAgain e) k = some (r, k') ∧ Pulls e c k r k' ∧ Attended e c k' := by
  suffices hwp : Wp (osEventqGetAgain e) (.total fun r k' =>
      Pulls e c k r k' ∧ Attended e c k') k from exec_isSome hwp id
  refine .modify_bind (.get_bind ?_)
  cases hl : k.evqList e with
  | cons ev evs =>
    rw [show (setEvqTask e none k).evqList e = k.evqList e from rfl, hl]
    have hawake : (k.tasks c).tState ≠ .sleep := by
      intro hs
      rw [(h.asleep hs).2.1] at hl
      cases hl
    have hnone : setEvqTask e none k = k := by
      rw [setEvqTask, ← h.evqTask_eq hawake, update_eq_self]
    rw [hnone]
    refine .modify_bind (.pure ⟨.got hl, ?_⟩)
    have hf : Flagged e (k.pulled e ev evs) := by
      rw [pulled_eq hl]
      exact h.flags.without
    exact h.events hf fun hs => (hawake hs).elim
  | nil =>
    rw [show (setEvqTask e none k).evqList e = k.evqList e from rfl, hl,
      show (setEvqTask e none k).current = k.current from rfl, hcur]
    refine .modify_bind ?_
    have hidem : setEvqTask e (some c) (setEvqTask e none k) = setEvqTask e (some c) k := by
      simp [setEvqTask]
    rw [hidem]
    have hk : Kept c (setEvqTask e (some c) k) := h.lists.congr
    have hw : Waits (setEvqTask e (some c) k) := h.waits.congr
    have hc' : (k.tasks c).tState = .ready ∨ (k.tasks c).tState = .sleep ∧
        Leads c (setEvqTask e (some c) k) :=
      hc.imp_right fun hc => ⟨hc.1, hc.2.congr turns_same⟩
    refine .bind (hk.wp_sleep hw h.others hc' fun q hq => ?_)
    exact .pure ⟨.block hl, h.block hl hq⟩

/-- `os_eventq_get` when it is called is what it is when it goes on. -/
theorem Attended.exec_get (hc : (k.tasks c).tState = .ready) :
    exec (osEventqGet e) k = exec (osEventqGetAgain e) k := by
  have hnone : setEvqTask e none k = k := by
    rw [setEvqTask, ← h.evqTask_eq (by rw [hc]; decide), update_eq_self]
  show _ = exec (osEventqGet e) (setEvqTask e none k)
  rw [hnone]

theorem Attended.remove (ev : Ev) :
    exec (osEventqRemove e ev) k = some ((), k.without e ev) ∧ Attended e c (k.without e ev) := by
  refine ⟨?_, h.events h.flags.without fun hs => ?_⟩
  · suffices hwp : Wp (osEventqRemove e ev) (.total fun _ k' =>
        k' = k.without e ev) k by
      obtain ⟨_, k', he, rfl⟩ := exec_isSome hwp id
      exact he
    refine .bind (.get_bind ?_)
    split
    · next hq =>
      refine .bind (.assert (decide_eq_true ((h.flags.queued ev).mp hq)) ?_)
      exact .modify (.modify rfl)
    · next hq =>
      refine .pure (.modify ?_)
      have hnot : ev ∉ k.evqList e := fun hm => hq ((h.flags.queued ev).mpr hm)
      show _ = k.without e ev
      simp [Kernel.without, erase_of_not_mem hnot]
  · rw [update_self, (h.asleep hs).2.1]
    rfl

/-- The time and the running task do not matter. -/
theorem Attended.clock (time t : Nat) : Attended e c { k with time := time, current := t } where
  waits := h.waits.congr
  others := h.others
  asleep := h.asleep
  task := h.task
  flags := { h.flags with }
  numbered := h.numbered
  lists := h.lists.congr

/-- A tick wakes nobody. -/
theorem Attended.tick :
    exec (do osTimeTick; osSchedOsTimerExp) k = some ((), k.ticked) ∧ Attended e c k.ticked := by
  have hfirst : k.lists.first .sleep = none ∨
      k.lists.first .sleep = some c ∧ (k.tasks c).tState = .sleep := by
    rcases h.lists with ⟨L, hl⟩ | hd
    · rw [hl.queues.first_eq]
      cases hL : L .sleep with
      | nil => exact .inl rfl
      | cons t S =>
        have ht := (hl.sleep t).mp (by simp [hL])
        obtain rfl : t = c := Classical.not_not.mp fun hne =>
          h.others t hne ht
        exact .inr ⟨rfl, ht⟩
    · exact .inl hd.firstAsleep
  refine ⟨?_, ?_⟩
  · suffices hwp : Wp (do osTimeTick; osSchedOsTimerExp) (.total fun _ k' =>
        k' = k.ticked) k by
      obtain ⟨_, k', he, rfl⟩ := exec_isSome hwp id
      exact he
    refine .modify_bind (.get_bind ?_)
    show Wp (timerExpLoop k.ticked.time (k.taskList.length + 1) (k.lists.first .sleep)) _ k.ticked
    rcases hfirst with hf | ⟨hf, hs⟩
    · rw [hf]
      exact .pure rfl
    · have hnt : (k.ticked.tasks c).noTimeout = true := (h.asleep hs).2.2
      rw [hf]
      refine .get_bind ?_
      rw [if_pos hnt]
      exact .pure rfl
  · exact h.clock _ _

end Consumer

/-! ## All interleavings -/

inductive EvLabel where
  /-- A step of the running task, or of an interrupt handler. -/
  | os (l : Label)
  /-- Either of them calls `os_eventq_remove`. -/
  | remove (ev : Ev)
  deriving DecidableEq, Repr

def Sys.evStep (e : Nat) (l : EvLabel) (s : Sys) : Option Sys :=
  match l with
  | .os l => s.step l
  | .remove ev => do
      let (_, k) ← exec (osEventqRemove e ev) s.k return s.withK k

/-- The calls are those of the queue `e`, and only `c` takes events off it.
Interrupts may come in at any time, and may run any ready task. -/
def onQueue (e c : Nat) (s : Sys) : EvLabel → Bool
  | .os (.call (.evqGet e')) => decide (e' = e ∧ s.cur = c)
  | .os (.call (.evqPut e' _)) | .os (.post e' _) => decide (e' = e)
  | .os .go | .os .tick | .os (.preempt _) | .remove _ => true
  | .os _ => false

/-- The event that the step queues. -/
def Sys.queues (s : Sys) : Label → Option Ev
  | .call (.evqPut _ ev) | .post _ ev =>
    if s.k.evQueued ev then none else some ev
  | _ => none

/-- The event that `os_eventq_get` returns with the step. -/
def Sys.returns (s : Sys) : Label → Option Ev
  | .call (.evqGet e) => (exec (osEventqGet e) s.k).bind Prod.fst
  | .go =>
    match s.pc s.cur with
    | .resume (.evqGet e) => (exec (osEventqGetAgain e) s.k).bind Prod.fst
    | _ => none
  | _ => none

/-- The step is entered in the account. -/
def Sys.booked (s : Sys) (l : EvLabel) (H : Account Ev) : Account Ev :=
  match l with
  | .os l =>
    match s.queues l, s.returns l with
    | some ev, _ => H.put ev
    | none, some ev => H.take ev
    | none, none => H
  | .remove ev => H.drop ev

/-- The runs of the consumer and the others, with their accounts. -/
inductive EvRuns (e c : Nat) (s₀ : Sys) : Sys → Account Ev → Prop
  | start : EvRuns e c s₀ s₀ .empty
  | step {s s' : Sys} {H : Account Ev} {l : EvLabel} (h : EvRuns e c s₀ s H)
      (hp : onQueue e c s l = true) (hst : s.evStep e l = some s') : EvRuns e c s₀ s' (s.booked l H)

/-! ## Where the tasks are -/

/-- A task is inside a call, between its critical sections. -/
inductive AtCall (x : Cont) : Pc → Prop
  | sched : AtCall x (.sched none x)
  | switch (t : Nat) : AtCall x (.switch t x)
  | resume : AtCall x (.resume x)

/-- A task that another one has chosen to switch to is the consumer, when it
leads, or it is ready. The consumer, once a put has woken it, was inserted
after all others. -/
structure Placed (e c : Nat) (s : Sys) : Prop where
  pcs : ∀ t, s.pc t = .user ∨ AtCall .posted (s.pc t) ∨ t = c ∧ AtCall (.evqGet e) (s.pc t)
  inGet : (s.k.tasks c).tState = .sleep → AtCall (.evqGet e) (s.pc c)
  running : (s.k.tasks s.cur).tState ≠ .clear
  target : ∀ t t' x, s.pc t = .switch t' x →
    t' = c ∧ Leads c s.k ∨ (s.k.tasks t').tState = .ready ∧ t' ≠ c
  late : ∀ t, t ≠ c → s.pc t ≠ .user → ∀ b, b ≠ c →
    (s.k.tasks b).tState = .ready → s.k.inserted b < s.k.inserted c
  stale : s.cur = c → (s.k.tasks c).tState = .sleep → s.pc c = .resume (.evqGet e) → Leads c s.k

section Places

variable {e c t : Nat} {s : Sys} {k' : Kernel} {p : Pc}

variable (h : Placed e c s)
include h

section Kernel

variable (hcur : k'.current = s.k.current) (ht : Turns c s.k k')
  (hi : k'.inserted = s.k.inserted ∨ ∀ b, b ≠ c →
    (s.k.tasks b).tState = .ready → k'.inserted b < k'.inserted c)
include hcur ht hi

/-- The kernel changes under the tasks. -/
theorem Placed.kernel (hget : (k'.tasks c).tState = .sleep → AtCall (.evqGet e) (s.pc c))
    (hstale : s.cur = c → (k'.tasks c).tState = .sleep → s.pc c = .resume (.evqGet e) →
      Leads c s.k) : Placed e c (s.withK k') where
  pcs := h.pcs
  inGet := hget
  running := by
    show (k'.tasks k'.current).tState ≠ .clear
    rw [hcur]
    by_cases he : s.k.current = c
    · rw [he]
      exact fun hk => h.running (by rw [Sys.cur, he]; exact ht.clear hk)
    · rw [ht.state _ he]
      exact h.running
  target t t' x hpc := (h.target t t' x hpc).imp
    (fun hl => ⟨hl.1, hl.2.congr ht⟩) fun hr => ⟨(ht.state t' hr.2).trans hr.1, hr.2⟩
  late t htc hpc b hb hr := by
    show k'.inserted b < k'.inserted c
    have hr : (s.k.tasks b).tState = .ready := (ht.state b hb).symm.trans hr
    rcases hi with hi | hi
    · rw [hi]
      exact h.late t htc hpc b hb hr
    · exact hi b hb hr
  stale he hsl hpc := (hstale (hcur.symm.trans he) hsl hpc).congr ht

/-- Of the tasks, only the consumer may be woken. -/
theorem Placed.withK (hc : (k'.tasks c).tState = .sleep → (s.k.tasks c).tState = .sleep) :
    Placed e c (s.withK k') :=
  h.kernel hcur ht hi (fun hsl => h.inGet (hc hsl)) fun he hsl hpc => h.stale he (hc hsl) hpc

end Kernel

/-- A task moves on. -/
theorem Placed.goto (hpc : p = .user ∨ AtCall .posted p ∨ t = c ∧ AtCall (.evqGet e) p)
    (hget : t = c → (s.k.tasks c).tState = .sleep → AtCall (.evqGet e) p)
    (hlate : t ≠ c → p ≠ .user → ∀ b, b ≠ c →
      (s.k.tasks b).tState = .ready → s.k.inserted b < s.k.inserted c)
    (hstale : t = c → s.cur = c → (s.k.tasks c).tState = .sleep →
      p = .resume (.evqGet e) → Leads c s.k := by rintro _ _ _ ⟨⟩)
    (htar : ∀ t' x, p = .switch t' x →
      t' = c ∧ Leads c s.k ∨ (s.k.tasks t').tState = .ready ∧ t' ≠ c := by rintro _ _ ⟨⟩) :
    Placed e c (s.goto t p) := by
  have hself : (s.goto t p).pc t = p := update_self _ _ _
  have hrest : ∀ b, b ≠ t → (s.goto t p).pc b = s.pc b := fun b hb =>
    update_of_ne hb _ _
  refine ⟨fun b => ?_, fun hsl => ?_, h.running, fun b t' x hb => ?_,
    fun b hbc hb => ?_, fun he hsl hc => ?_⟩
  · by_cases hb : b = t
    · rw [hb, hself]
      exact hpc
    · rw [hrest b hb]
      exact h.pcs b
  · by_cases hct : c = t
    · rw [hct, hself]
      exact hget hct.symm hsl
    · rw [hrest c hct]
      exact h.inGet hsl
  · by_cases hbt : b = t
    · rw [hbt, hself] at hb
      exact htar t' x hb
    · rw [hrest b hbt] at hb
      exact h.target b t' x hb
  · by_cases hbt : b = t
    · rw [hbt, hself] at hb
      exact hlate (hbt ▸ hbc) hb
    · rw [hrest b hbt] at hb
      exact h.late b hbc hb
  · by_cases hct : c = t
    · rw [hct, hself] at hc
      exact hstale hct.symm he hsl hc
    · rw [hrest c hct] at hc
      exact h.stale he hsl hc

theorem Placed.inGet_at (hpc : s.pc s.cur = p) (hc : s.cur = c)
    (hs : (s.k.tasks c).tState = .sleep) : AtCall (.evqGet e) p := by
  rw [← hpc, hc]
  exact h.inGet hs

/-- Another task runs. -/
theorem Placed.switched (hr : t = c ∧ Leads c s.k ∨ (s.k.tasks t).tState = .ready) :
    Placed e c (s.withK { s.k with current := t }) := by
  refine ⟨h.pcs, h.inGet, ?_, fun b t' x hb => (h.target b t' x hb).imp_left
    fun hl => ⟨hl.1, hl.2.congr turns_same⟩, h.late, fun he hsl _ => ?_⟩
  · show (s.k.tasks t).tState ≠ .clear
    rcases hr with ⟨rfl, hl⟩ | hr
    · exact hl.known
    · rw [hr]
      decide
  rcases hr with ⟨-, hl⟩ | hr
  · exact hl.congr turns_same
  · have he : t = c := he
    have hsl : (s.k.tasks c).tState = .sleep := hsl
    rw [he, hsl] at hr
    cases hr

/-- The task that `os_sched` chooses may be run. -/
theorem Placed.chosen (hk : Attended e c s.k)
    (hf : s.k.lists.first .run = some t) (hne : t ≠ s.cur) (hu : s.pc s.cur ≠ .user) :
    t = c ∧ Leads c s.k ∨ (s.k.tasks t).tState = .ready ∧ t ≠ c := by
  have ht := hk.lists.ready_first hf
  by_cases htc : t = c
  · subst htc
    refine .inl ⟨rfl, ?_⟩
    rcases hk.lists with ⟨L, hl⟩ | hd
    · have hcur : (s.k.tasks s.cur).tState = .ready := by
        cases hst : (s.k.tasks s.cur).tState with
        | clear => exact (h.running hst).elim
        | ready => rfl
        | sleep => exact (hk.others s.cur (Ne.symm hne) hst).elim
      refine ⟨by rw [ht]; decide, ⟨s.cur, Ne.symm hne, hcur⟩, fun b hb hr => ?_⟩
      -- The others were inserted before, so the first is more urgent.
      have hlt := h.late s.cur (Ne.symm hne) hu b hb hr
      obtain ⟨R, hR⟩ : ∃ R, L .run = t :: R := by
        rw [hl.queues.first_eq] at hf
        exact head?_eq_some_iff.mp hf
      have hs := hl.sorted
      have hm := (hl.run b).mpr hr
      rw [hR] at hs hm
      have hbR := (mem_cons.mp hm).resolve_left hb
      have hbef := (pairwise_cons.mp hs).1 b hbR
      simp only [Kernel.Before] at hbef
      omega
    · exact hd.leads
  · exact .inr ⟨ht, htc⟩

end Places

/-! ## A step -/

structure Served (e c : Nat) (s : Sys) (H : Account Ev) : Prop where
  attended : Attended e c s.k
  placed : Placed e c s
  settles : H.Settles (s.k.evqList e)

section Step

variable {e c : Nat} {ev : Ev} {s s' : Sys} {H : Account Ev} {k' : Kernel}
  {woke : Bool} {r : Option Ev}

theorem Accepts.settles (ha : Accepts e c ev s.k woke k') (h : H.Settles (s.k.evqList e)) :
    (if s.k.evQueued ev then H else H.put ev).Settles (k'.evqList e) := by
  cases ha with
  | nop hq =>
    rw [if_pos hq]
    exact h
  | add hq _ | wake hq _ =>
    rw [if_neg (by rw [hq]; exact Bool.false_ne_true)]
    have hput := h.put ev
    simpa [Kernel.queued, setEvqTask, Kernel.withLists, Kernel.woken, Kernel.noteInsert] using hput

theorem Accepts.placed (ha : Accepts e c ev s.k woke k')
    (hk : Attended e c s.k) (h : Placed e c s) : Placed e c (s.withK k') := by
  cases ha with
  | nop => exact h
  | add =>
    exact h.withK rfl turns_same (.inl rfl) id
  | @wake q hq ht =>
    refine h.withK rfl (turns_update rfl (by rintro ⟨⟩) rfl) (.inr fun b hb hr => ?_)
      fun _ => (hk.task c ht).2
    show update s.k.inserted c s.k.insertions b < update s.k.inserted c s.k.insertions c
    rw [update_self, update_of_ne hb]
    exact hk.numbered b hr

theorem osSched_run (k : Kernel) : osSched none k none = (match k.lists.first .run with
      | none => Prog.abort
      | some t => pure (if t = k.current then none else some t) : OsM (Option Nat)) k none :=
  rfl

theorem exec_osSched (k : Kernel) : exec (osSched none) k = (k.lists.first .run).map fun t =>
      (if t = k.current then none else some t, k) := by
  rw [exec, osSched_run]
  cases k.lists.first .run <;> rfl

/-- The consumer has pulled an event, or sleeps. -/
theorem Served.pulled (h : Served e c s H) (hcur : s.cur = c)
    (hp : Pulls e c s.k r k') (hk : Attended e c k') : Served e c (s.pulled e r k')
      (r.elim H fun ev => H.take ev) := by
  cases hp with
  | @got ev evs hl =>
    have hset := h.settles
    rw [hl] at hset
    refine ⟨hk, ?_, ?_⟩
    · refine Placed.goto (h.placed.withK rfl turns_same (.inl rfl) id) (.inl rfl) (fun _ hs => ?_)
        fun _ hu => (hu rfl).elim
      have hnil := (h.attended.asleep hs).2.1
      rw [hl] at hnil
      cases hnil
    · have htake := hset.take
      simpa [Sys.pulled, Sys.goto, Sys.withK, Kernel.pulled] using htake
  | @block q hl =>
    refine ⟨hk, ?_, h.settles⟩
    have hgo : Placed e c (s.goto s.cur (.sched none (.evqGet e))) :=
      h.placed.goto (.inr (.inr ⟨hcur, .sched⟩)) (fun _ _ => .sched) fun hne => (hne hcur).elim
    have hpc : (s.goto s.cur (.sched none (.evqGet e))).pc c = .sched none (.evqGet e) := by
      rw [← hcur]
      exact update_self _ _ _
    refine hgo.kernel rfl (turns_update rfl (by rintro ⟨⟩) rfl) (.inl rfl) (fun _ => ?_)
      fun _ _ hr => ?_
    · rw [hpc]
      exact .sched
    · rw [hpc] at hr
      cases hr

theorem booked_put {l : Label} (hq : s.queues l =
      if s.k.evQueued ev then none else some ev) (hr : s.returns l = none) :
    s.booked (.os l) H = if s.k.evQueued ev then H else H.put ev := by
  simp only [Sys.booked, hq, hr]
  cases s.k.evQueued ev <;> rfl

variable {x : Cont}

theorem placed_call {p : Pc} (hx : x = .posted ∨ s.cur = c ∧ x = .evqGet e) (hp : AtCall x p) :
    p = .user ∨ AtCall .posted p ∨ s.cur = c ∧ AtCall (.evqGet e) p := by
  rcases hx with rfl | ⟨hc, rfl⟩
  · exact .inr (.inl hp)
  · exact .inr (.inr ⟨hc, hp⟩)

variable (h : Served e c s H)
include h

/-- The running task leaves `os_sched`, without a switch or with one. -/
theorem Served.sched (hx : x = .posted ∨ s.cur = c ∧ x = .evqGet e)
    (hpc : s.pc s.cur = .sched none x) (hst : s.go = some s') : Served e c s' H := by
  have hget : ∀ {p}, AtCall x p → s.cur = c →
      (s.k.tasks c).tState = .sleep → AtCall (.evqGet e) p := by
    intro p hp hc hs
    cases h.placed.inGet_at hpc hc hs
    exact hp
  have hu : s.pc s.cur ≠ .user := by
    rw [hpc]
    rintro ⟨⟩
  have hlate : s.cur ≠ c → ∀ b, b ≠ c → (s.k.tasks b).tState = .ready →
      s.k.inserted b < s.k.inserted c := fun hne => h.placed.late s.cur hne hu
  simp only [Sys.go, hpc, exec_osSched] at hst
  cases hf : s.k.lists.first .run with
  | none =>
    rw [hf] at hst
    cases hst
  | some t =>
    rw [hf] at hst
    by_cases ht : t = s.k.current
    · simp only [map_some, bind_eq_bind, bind_some, if_pos ht] at hst
      cases hst
      have hready := h.attended.lists.ready_first hf
      refine ⟨h.attended, h.placed.goto (placed_call hx .resume) (hget .resume) (fun hne _ => hlate hne)
        (fun hc _ hs _ => ?_), h.settles⟩
      rw [ht, show s.k.current = c from hc, hs] at hready
      cases hready
    · simp only [map_some, bind_eq_bind, bind_some, if_neg ht] at hst
      cases hst
      have htar := h.placed.chosen h.attended hf ht hu
      refine ⟨h.attended, h.placed.goto (placed_call hx (.switch t)) (hget (.switch t))
        (fun hne _ => hlate hne) (by rintro _ _ _ ⟨⟩) ?_, h.settles⟩
      rintro t' x ⟨⟩
      exact htar

theorem Served.switch {t : Nat} (hx : x = .posted ∨ s.cur = c ∧ x = .evqGet e)
    (hpc : s.pc s.cur = .switch t x) (hst : s.go = some s') : Served e c s' H := by
  simp only [Sys.go, hpc] at hst
  cases hst
  have htar := h.placed.target s.cur t x hpc
  have hu : s.pc s.cur ≠ .user := by
    rw [hpc]
    rintro ⟨⟩
  have hgo : Placed e c ((s.withK { s.k with current := t }).goto s.cur (.resume x)) := by
    refine (h.placed.switched (htar.imp_right And.left)).goto (placed_call hx .resume)
      (fun hc hs => ?_) (fun hne _ => h.placed.late s.cur hne hu) (fun hc ht _ _ => ?_)
    · cases h.placed.inGet_at hpc hc hs
      exact .resume
    · rcases htar with ⟨-, hl⟩ | ⟨-, hne⟩
      · exact hl.congr turns_same
      · exact (hne ht).elim
  exact ⟨h.attended.clock s.k.time t, hgo, h.settles⟩

section

variable (hcur : s.cur = c)
include hcur

/-- The consumer that runs is ready, unless it was switched to asleep. -/
theorem Served.ready_or : (s.k.tasks c).tState = .ready ∨ (s.k.tasks c).tState = .sleep := by
  cases hst : (s.k.tasks c).tState with
  | clear => exact (h.placed.running (by rw [hcur]; exact hst)).elim
  | ready => exact .inl rfl
  | sleep => exact .inr rfl

theorem Served.ready_user (hpc : s.pc s.cur = .user) : (s.k.tasks c).tState = .ready := by
  refine (h.ready_or hcur).resolve_right fun hs => ?_
  cases h.placed.inGet_at hpc hcur hs

theorem Served.pull (hpc : s.pc s.cur = .resume (.evqGet e)) :
    ∃ r k', exec (osEventqGetAgain e) s.k = some (r, k') ∧ Pulls e c s.k r k' ∧ Attended e c k' :=
  h.attended.pull hcur ((h.ready_or hcur).imp_right fun hs =>
    ⟨hs, h.placed.stale hcur hs (hcur ▸ hpc)⟩)

/-- The consumer goes on in `os_eventq_get`. -/
theorem Served.again (hpc : s.pc s.cur = .resume (.evqGet e)) (hst : s.go = some s') :
    Served e c s' (s.booked (.os .go) H) := by
  obtain ⟨r, k', he, hp, hk⟩ := h.pull hcur hpc
  simp only [Sys.go, hpc, he] at hst
  cases hst
  have hbook : s.booked (.os .go) H = (r.elim H H.take) := by
    simp only [Sys.booked, Sys.queues, Sys.returns, hpc, he, bind_some]
    cases r <;> rfl
  rw [hbook]
  exact h.pulled hcur hp hk

/-- The consumer calls `os_eventq_get`. -/
theorem Served.get (hpc : s.pc s.cur = .user) (hst : s.call (.evqGet e) = some s') :
    Served e c s' (s.booked (.os (.call (.evqGet e))) H) := by
  have hready := h.ready_user hcur hpc
  obtain ⟨r, k', he, hp, hk⟩ := h.attended.pull hcur (.inl hready)
  rw [← h.attended.exec_get hready] at he
  simp only [Sys.call, he] at hst
  cases hst
  have hbook : s.booked (.os (.call (.evqGet e))) H = r.elim H fun ev => H.take ev := by
    simp only [Sys.booked, Sys.queues, Sys.returns, he, bind_some]
    cases r <;> rfl
  rw [hbook]
  exact h.pulled hcur hp hk

end

/-- A task calls `os_eventq_put`. -/
theorem Served.put (hpc : s.pc s.cur = .user) (hst : s.call (.evqPut e ev) = some s') :
    Served e c s' (s.booked (.os (.call (.evqPut e ev))) H) := by
  obtain ⟨woke, k', he, ha, hk⟩ := h.attended.put ev
  simp only [Sys.call, he] at hst
  cases hst
  rw [booked_put rfl rfl]
  refine ⟨hk, ?_, ha.settles h.settles⟩
  have hpl := ha.placed h.attended h.placed
  cases woke with
  | false =>
    have hsame : (s.withK k').finish s.cur none .posted = s.withK k' := by
      simp [Sys.finish, Sys.goto, Sys.withK, ← hpc]
    show Placed e c ((s.withK k').finish s.cur none .posted)
    rw [hsame]
    exact hpl
  | true =>
    cases ha with
    | @wake q hq ht =>
      refine hpl.goto (.inr (.inl .sched)) (fun _ hs => ?_) fun _ _ b hb hr => ?_
      · have hself : (((s.k.queued e ev).woken c).withLists q).tasks c =
          (s.k.tasks c).woken := update_self _ _ _
        cases (congrArg Task.tState hself).symm.trans hs
      · have hrest : (((s.k.queued e ev).woken c).withLists q).tasks b =
          s.k.tasks b := update_of_ne hb _ _
        show update s.k.inserted c s.k.insertions b < update s.k.inserted c s.k.insertions c
        rw [update_self, update_of_ne hb]
        exact h.attended.numbered b ((congrArg Task.tState hrest).symm.trans hr)

theorem Served.go (hst : s.go = some s') : Served e c s' (s.booked (.os .go) H) := by
  have hbook : (∀ e, s.pc s.cur ≠ .resume (.evqGet e)) → s.booked (.os .go) H = H := by
    intro hne
    have hret : s.returns .go = none := by
      simp only [Sys.returns]
    simp only [Sys.booked, Sys.queues, hret]
  rcases h.placed.pcs s.cur with hu | hat | ⟨hc, hat⟩
  · simp only [Sys.go, hu] at hst
    cases hst
  · generalize hpc : s.pc s.cur = p at hat
    rw [hbook fun e' he => by rw [hpc] at he; subst he; cases hat]
    cases hat with
    | sched => exact h.sched (.inl rfl) hpc hst
    | switch t => exact h.switch (.inl rfl) hpc hst
    | resume =>
      simp only [Sys.go, hpc] at hst
      cases hst
      refine { h with
        placed := h.placed.goto (.inl rfl) (fun hc hs => ?_) fun _ hu => (hu rfl).elim }
      cases h.placed.inGet_at hpc hc hs
  · generalize hpc : s.pc s.cur = p at hat
    cases hat with
    | sched =>
      rw [hbook fun e' he => by rw [hpc] at he; cases he]
      exact h.sched (.inr ⟨hc, rfl⟩) hpc hst
    | switch t =>
      rw [hbook fun e' he => by rw [hpc] at he; cases he]
      exact h.switch (.inr ⟨hc, rfl⟩) hpc hst
    | resume => exact h.again hc hpc hst

theorem Served.step {l : EvLabel} (hl : onQueue e c s l = true) (hst : s.evStep e l = some s') :
    Served e c s' (s.booked l H) := by
  cases l with
  | remove ev =>
    obtain ⟨he, hk⟩ := h.attended.remove ev
    simp only [Sys.evStep, he] at hst
    cases hst
    refine ⟨hk, h.placed.withK rfl turns_same (.inl rfl) id, ?_⟩
    have hdrop := h.settles.drop ev
    simpa [Sys.withK, Kernel.without, Sys.booked] using hdrop
  | os l =>
    cases l with
    | go => exact h.go hst
    | tick =>
      obtain ⟨he, hk⟩ := h.attended.tick
      simp only [Sys.evStep, Sys.step, he] at hst
      cases hst
      exact ⟨hk, h.placed.withK rfl turns_same (.inl rfl) id, h.settles⟩
    | preempt t =>
      simp only [Sys.evStep, Sys.step] at hst
      split at hst
      · next hr =>
        cases hst
        exact ⟨h.attended.clock s.k.time t, h.placed.switched (.inr hr), h.settles⟩
      · cases hst
    | post e' ev =>
      obtain rfl : e' = e := by simpa [onQueue] using hl
      obtain ⟨woke, k', he, ha, hk⟩ := h.attended.put ev
      simp only [Sys.evStep, Sys.step, he] at hst
      cases hst
      refine ⟨hk, ha.placed h.attended h.placed, ?_⟩
      have hset := ha.settles h.settles
      rw [booked_put rfl rfl]
      exact hset
    | call x =>
      simp only [Sys.evStep, Sys.step] at hst
      split at hst
      · next hpc =>
        cases x with
        | evqGet e' =>
          obtain ⟨rfl, hcur⟩ : e' = e ∧ s.cur = c := by
            simpa [onQueue] using hl
          exact h.get hcur hpc hst
        | evqPut e' ev =>
          obtain rfl : e' = e := by simpa [onQueue] using hl
          exact h.put hpc hst
        | _ => cases hl
      · cases hst
    | _ => cases hl

end Step

/-! ## Whole runs -/

theorem Started.served {s : Sys} (h : Started s) (e c : Nat) : Served e c s .empty := by
  obtain ⟨hfr, hrdy⟩ := h.fresh
  obtain ⟨L, hs, _⟩ := h.sane
  have hnone : (∀ ev, s.k.evQueued ev = false) ∧ ∀ e, s.k.evqList e = [] := by
    obtain ⟨s0, t, hb, -, rfl⟩ := h
    exact hb.noCallouts.2
  obtain ⟨hflag, hlist⟩ := hnone
  have hawake := (hfr.task c).1
  refine ⟨⟨hs.waits, fun t _ => (hfr.task t).1, fun hsl => absurd hsl hawake, fun t ht => ?_,
    ⟨?_, fun ev => ?_⟩, fun t ht => ?_, .inl ⟨L, hs.listed⟩⟩,
    ⟨fun t => .inl (hfr.pc t), fun hsl => absurd hsl hawake, ?_, fun t t' x hpc => ?_,
      fun t _ hpc => ?_, fun _ hsl => absurd hsl hawake⟩, ?_⟩
  · rw [hfr.evqTask] at ht
    cases ht
  · rw [hlist]
    exact nodup_nil
  · rw [hlist, hflag]
    simp
  · exact hs.listed.numbered t ((hs.listed.run t).mpr ht)
  · rw [hrdy]
    decide
  · rw [hfr.pc] at hpc
    cases hpc
  · exact (hpc (hfr.pc t)).elim
  · rw [hlist]
    exact Account.settles_empty

theorem EvRuns.served {e c : Nat} {s0 s : Sys} {H : Account Ev}
    (h0 : Started s0) (h : EvRuns e c s0 s H) : Served e c s H := by
  induction h with
  | start => exact h0.served e c
  | step _ hp hst ih => exact ih.step hp hst

theorem exec_get_cons {e : Nat} {k : Kernel} {ev : Ev} {evs : List Ev}
    (hl : k.evqList e = ev :: evs) :
    exec (osEventqGet e) k = some (some ev, k.pulled e ev evs) := by
  suffices hwp : Wp (osEventqGet e) (.total fun r k' =>
      r = some ev ∧ k' = k.pulled e ev evs) k by
    obtain ⟨r, k', he, rfl, rfl⟩ := exec_isSome hwp id
    exact he
  refine .get_bind ?_
  rw [hl]
  exact .modify_bind (.pure ⟨rfl, rfl⟩)

/-- The run list leads to the task. -/
def Kernel.OnRunList (t : Nat) (k : Kernel) : Prop :=
  ∃ n, (fun o => o.bind k.lists.next)^[n] (k.lists.first .run) = some t

theorem exists_iterate_of_seg {q : TailQ ListId Nat} {l : List Nat} {t : Nat}
    (hm : t ∈ l) {r : Ref ListId Nat} (h : Seg q r l) :
    ∃ n, (fun o => o.bind q.next)^[n] (q.read r) = some t := by
  induction l generalizing r with
  | nil => cases hm
  | cons a l ih =>
    rcases mem_cons.mp hm with rfl | hm
    · exact ⟨0, h.1⟩
    · obtain ⟨n, hn⟩ := ih hm h.2.2
      refine ⟨n + 1, ?_⟩
      rw [iterate_succ_apply, h.1]
      exact hn

theorem Kept.onRunList {c : Nat} {k : Kernel} (h : Kept c k)
    (hc : (k.tasks c).tState = .ready) : k.OnRunList c := by
  rcases h with ⟨L, h⟩ | ⟨-, -, -, t, -, -, ⟨-, hf, -⟩ | ⟨hs, -⟩⟩
  · exact exists_iterate_of_seg ((h.run c).mpr hc) (h.queues.seg .run)
  · exact ⟨0, hf⟩
  · rw [hc] at hs
    cases hs

/-- What is said of the queue `e` and its consumer `c`, and of the account of
what was queued, returned and removed. -/
structure LosesNothing (e c : Nat) (s : Sys) (H : Account Ev) : Prop where
  /-- What was returned was queued earlier than what was returned later, and
  than all that is pending. -/
  inOrder : ((H.returned ++ H.pending).map Prod.fst).Pairwise (· < ·)
  /-- What was queued was returned or removed once, or is pending. -/
  complete : (H.returned ++ H.removed ++ H.pending).Perm H.queued
  onQueue : H.pending.map Prod.snd = s.k.evqList e
  once : ∀ ev, (s.k.evqList e).count ev = if s.k.evQueued ev then 1 else 0
  awake : s.k.evqList e ≠ [] → (s.k.tasks c).tState ≠ .sleep
  listed : (s.k.tasks c).tState = .ready → s.k.OnRunList c
  /-- A consumer that calls `os_eventq_get`, or goes on in it, is given the
  first event. -/
  answered : ∀ ev evs, s.k.evqList e = ev :: evs → s.returns (.call (.evqGet e)) = some ev ∧
      (s.pc s.cur = .resume (.evqGet e) → s.returns .go = some ev)
  /-- Nobody is stuck in a call. -/
  goesOn : (∀ ev, (s.evStep e (.remove ev)).isSome ∧ (s.step (.post e ev)).isSome ∧
      (s.pc s.cur = .user → (s.step (.call (.evqPut e ev))).isSome)) ∧
    (s.cur = c → s.pc c = .user → (s.step (.call (.evqGet e))).isSome) ∧
    (s.cur = c → s.pc c = .resume (.evqGet e) → (s.step .go).isSome)

/-- In every interleaving of a consumer with tasks and interrupts that put and
remove events, the queue loses nothing. -/
theorem eventq_loses_nothing {e c : Nat} {s₀ s : Sys} {H : Account Ev}
    (h₀ : Started s₀) (hr : EvRuns e c s₀ s H) : LosesNothing e c s H := by
  have h := hr.served h₀
  have hk := h.attended
  refine ⟨h.settles.inOrder, h.settles.complete, h.settles.onQueue,
    fun ev => ?_, fun hne hs => hne (hk.asleep hs).2.1, hk.lists.onRunList,
    fun ev evs hl => ?_, fun ev => ?_, fun hcur hpc => ?_, fun hcur hpc => ?_⟩
  · split
    · next hq =>
      exact count_eq_one_of_mem hk.flags.nodup ((hk.flags.queued ev).mp hq)
    · next hq =>
      exact count_eq_zero_of_not_mem fun hm =>
        hq ((hk.flags.queued ev).mpr hm)
  · refine ⟨?_, fun hpc => ?_⟩
    · simp only [Sys.returns, exec_get_cons hl, bind_some]
    · have hagain : exec (osEventqGetAgain e) s.k =
          exec (osEventqGet e) _ := rfl
      have hl' : (setEvqTask e none s.k).evqList e = ev :: evs := hl
      simp only [Sys.returns, hpc, hagain, exec_get_cons hl', bind_some]
  · obtain ⟨woke, k', he, -, -⟩ := hk.put ev
    refine ⟨?_, ?_, fun hpc => ?_⟩
    · simp [Sys.evStep, (hk.remove ev).1]
    · simp [Sys.step, he]
    · simp [Sys.step, Sys.call, hpc, he]
  · have hpc : s.pc s.cur = .user := by rw [hcur]; exact hpc
    have hready := h.ready_user hcur hpc
    obtain ⟨r, k', he, -, -⟩ := hk.pull hcur (.inl hready)
    rw [← hk.exec_get hready] at he
    simp [Sys.step, Sys.call, hpc, he]
  · have hpc : s.pc s.cur = .resume (.evqGet e) := by rw [hcur]; exact hpc
    obtain ⟨r, k', he, -, -⟩ := h.pull hcur hpc
    simp [Sys.step, Sys.go, hpc, he]

/-! ### Switched to asleep -/

/-- The steps of a list, and the account. -/
def Sys.evSteps (e c : Nat) : List EvLabel → Sys × Account Ev → Option (Sys × Account Ev)
  | [], p => some p
  | l :: ls, (s, H) =>
    if onQueue e c s l then
      (s.evStep e l).bind fun s' => Sys.evSteps e c ls (s', s.booked l H)
    else
      none

variable {ls : List EvLabel}

theorem evRuns_of_steps {e c : Nat} {s0 s s' : Sys} {H H' : Account Ev} (hr : EvRuns e c s0 s H)
    (h : Sys.evSteps e c ls (s, H) = some (s', H')) : EvRuns e c s0 s' H' := by
  induction ls generalizing s H with
  | nil =>
    cases h
    exact hr
  | cons l ls ih =>
    simp only [Sys.evSteps] at h
    split at h
    · next hl =>
      obtain ⟨s1, h1, h⟩ := bind_eq_some_iff.mp h
      exact ih (hr.step hl h1) h
    · cases h

/-- The state and the account after the steps of a list. -/
def Sys.evAfter (e c : Nat) (ls : List EvLabel) (s : Sys) : Sys × Account Ev :=
  (Sys.evSteps e c ls (s, .empty)).getD (s, .empty)

theorem evRuns_after {e c : Nat} {s : Sys} (h : (Sys.evSteps e c ls (s, .empty)).isSome = true) :
    EvRuns e c s (s.evAfter e c ls).1 (s.evAfter e c ls).2 :=
  evRuns_of_steps .start (eq_some_getD (s, .empty) h)

/-- Task 1 waits for an event, and task 0 puts one. Before the switch to task
1 a tick comes in, which runs it, and it waits again. Then task 0 goes on with
the switch, task 1 goes to sleep a second time, and task 0 puts two more. -/
def staleConsumer : List EvLabel :=
  [.os (.call (.evqGet 0)), .os .go, .os .go,
    .os (.call (.evqPut 0 (.other 7))), .os .go, .os .tick, .os (.preempt 1),
    .os .go, .os (.call (.evqGet 0)), .os .go, .os .go, .os .go, .os .go,
    .os .go, .os .go, .os .go, .os (.post 0 (.other 8)),
    .os (.call (.evqPut 0 (.other 9))), .os (.preempt 1), .os .go]

theorem eventq_loses_nothing_stale : (twoTasks.evAfter 0 1 staleConsumer).2.returned =
        [(0, .other 7), (1, .other 8)] ∧ LosesNothing 0 1 (twoTasks.evAfter 0 1 staleConsumer).1
        (twoTasks.evAfter 0 1 staleConsumer).2 :=
  ⟨by decide +kernel, eventq_loses_nothing twoTasks_started (evRuns_after (by decide +kernel))⟩

end Larva.Os
