import Larva.Os.Switching
import Larva.Os.Ticks

/-!
# Timed waits end on time

`os_sched_sleep` writes down the tick at which a task is due and puts the task
into the sleep list where it belongs; `os_sched_os_timer_exp` takes tasks off
the front as long as they are due. Both compare ticks by the sign of their
difference, over a counter that wraps. That is an order only for ticks that
are less than half the range apart, so what carries the argument is a bound on
how far ahead of the clock a sleeping task can be due: `Deadlines` says that
it is at least one tick and at most `2 ^ 31`, and that the list is in the
order of what remains.

With the bound, a tick wakes exactly the tasks that had one tick left, and
everybody else has one less. Without it the wait is as good as over: a timeout
beyond the bound looks like one that has passed, and the first tick ends it.

A wait can end otherwise, by a release or a deletion. So the theorem follows
a task for as long as it sleeps (`SleepsThrough`) and says what the next tick
does to it.
-/

namespace Larva.Os

open Crash TailQ Function List

/-- The ticks a sleeping task has left. -/
def Kernel.remaining (k : Kernel) (t : Nat) : Nat :=
  tickSub (k.tasks t).tNextWakeup k.time

structure Deadlines (k : Kernel) (L : Lists) : Prop where
  ahead : ∀ t ∈ L .sleep, (k.tasks t).noTimeout = false → 0 < k.remaining t ∧ k.remaining t ≤ 2 ^ 31
  sorted : (L .sleep).Pairwise fun a b => (k.tasks b).noTimeout = false →
    k.remaining a ≤ k.remaining b

/-- The timeout of the call a step makes. -/
def Label.nticks : Label → Nat
  | .call (.semPend _ timeout) => timeout
  | .call (.mutexPend _ timeout) => timeout
  | .call (.delay osticks) => osticks.toNat
  | _ => osTimeoutNever

/-- Timeouts are at most half the range. -/
def Timely (s : Sys) (l : Label) : Prop :=
  SwitchesToReady s l ∧ (l.nticks ≤ 2 ^ 31 ∨ l.nticks = osTimeoutNever)

/-! ## What a step does to the clock and the sleep list -/

/-- What decides when a sleeping task is due. -/
def Task.due (τ : Task) : Nat × Bool := (τ.tNextWakeup, τ.noTimeout)

/-- Nobody falls asleep, and no time goes by. -/
structure ClockKept (k : Kernel) (L : Lists) (k' : Kernel) (L' : Lists) : Prop where
  time : k'.time = k.time
  sub : (L' .sleep).Sublist (L .sleep)
  due : ∀ t ∈ L' .sleep, (k'.tasks t).due = (k.tasks t).due

/-- The task `t` falls asleep. -/
structure Dozes (k : Kernel) (L : Lists) (t n : Nat) (k' : Kernel) (L' : Lists) : Prop where
  time : k'.time = k.time
  pos : n ≠ 0
  off : t ∉ L .sleep
  list : L' .sleep = L.toSleep k' t .sleep
  self : (k'.tasks t).due = ((k.time + n) % 2 ^ 32, decide (n = osTimeoutNever))
  rest : ∀ b, b ≠ t → (k'.tasks b).due = (k.tasks b).due

inductive Clock (s : Sys) (L : Lists) : Label → Sys → Lists → Prop
  | keep {l : Label} {s' : Sys} {L' : Lists} (hl : l ≠ .tick)
      (h : ClockKept s.k L s'.k L') : Clock s L l s' L'
  | doze {l : Label} {s' : Sys} {L' : Lists} (hl : l ≠ .tick)
      (h : Dozes s.k L s.cur l.nticks s'.k L') : Clock s L l s' L'
  | tick {k' : Kernel} {L' : Lists} (hall : WokenAll s.k.ticked L
        ((L .sleep).takeWhile (s.k.ticked.expired s.k.ticked.time)) k' L') :
      Clock s L .tick (s.withK k') L'

section Steps

variable {s s' : Sys} {L L' L₁ : Lists} {k k' k₁ : Kernel} {t m e n : Nat} {l : Label}
  {q : TailQ ListId Nat}

theorem ClockKept.of_same (hs : (L' .sleep).Sublist (L .sleep)) (ht : k'.time = k.time := by rfl)
    (hd : ∀ b, (k'.tasks b).due = (k.tasks b).due := by exact fun _ => rfl) : ClockKept k L k' L' :=
  ⟨ht, hs, fun t _ => hd t⟩

/-- One task is made ready. -/
theorem ClockKept.of_ready (hl : Listed k' L') (ht : k'.time = k.time)
    (hs : (L' .sleep).Sublist (L .sleep)) (hself : (k'.tasks t).tState = .ready)
    (hrest : ∀ b, b ≠ t → (k'.tasks b).due = (k.tasks b).due) : ClockKept k L k' L' := by
  refine ⟨ht, hs, fun b hb => hrest b fun he => ?_⟩
  rw [hl.sleep, he, hself] at hb
  cases hb

/-- Tasks are woken, after a change that the clock does not see. -/
theorem WokenAll.clockKept {ts : List Nat} (h : WokenAll k₁ L₁ ts k' L') (hl : Listed k' L')
    (hk : ClockKept k L k₁ L₁) : ClockKept k L k' L' := by
  refine ⟨h.rest.2.2.2.1.trans hk.time, h.sublist.trans hk.sub, fun t ht => ?_⟩
  have hts : t ∉ ts := by
    intro hm
    have hs := (hl.sleep t).mp ht
    rw [h.tasks, if_pos hm] at hs
    cases hs
  rw [h.tasks, if_neg hts]
  exact hk.due t (h.sublist.subset ht)

theorem Releases.ne_tick (h : s.Releases l m) : l ≠ .tick := by
  rcases h with ⟨rfl, _⟩ | ⟨rfl, _⟩ <;> nofun

theorem handed_clockKept {rdy : Nat} (hl : Listed ((k.handed m rdy).withLists q) L')
    (hs : (L' .sleep).Sublist (L .sleep)) : ClockKept k L ((k.handed m rdy).withLists q) L' := by
  have hk := alike_restored k m k.current
  refine .of_ready hl hk.time hs (handed_self k m rdy) fun b hb => ?_
  have hb' : (k.handed m rdy).tasks b = (k.restored m k.current).tasks b :=
    update_of_ne hb _ _
  exact (congrArg Task.due hb').trans (hk.field Task.due (fun _ _ => rfl) b)

theorem Puts.clockKept {ev : Ev} {woke : Bool} (h : Puts k L e ev woke k' L') (hl : Listed k' L') :
    ClockKept k L k' L' := by
  cases h with
  | nop | add => exact .of_same (.refl _)
  | @wake t q hq ht =>
    refine .of_ready (t := t) hl rfl ?_ ?_ fun b hb => ?_
    · exact erase_sublist
    · exact congrArg Task.tState (update_self t _ k.tasks)
    · exact congrArg Task.due (update_of_ne hb _ k.tasks)

theorem slept_dozes (hl : Listed k L) (hw : Waits k) (ht : (k.tasks t).tState = .ready)
    (hn : n ≠ 0) : Dozes k L t n ((k.slept t n).withLists q) (L.slept (k.slept t n) t) := by
  refine ⟨rfl, hn, hl.notMem_sleep ht, rfl, ?_, fun b hb => ?_⟩
  · show ((k.slept t n).tasks t).due = _
    rw [slept_self, hw.noTimeout_eq ht]
    simp [Task.due]
  · exact congrArg Task.due (slept_rest k n hb)

theorem waiting_dozes {o : Obj} (hoff : k.current ∉ L .sleep)
    (ht : (k.tasks k.current).noTimeout = false) (hn : n ≠ 0) :
    Dozes k L k.current n ((k.waiting o n).withLists q) (L.slept (k.waiting o n) k.current) := by
  refine ⟨rfl, hn, hoff, rfl, ?_, fun b hb => ?_⟩
  · show ((k.waiting o n).tasks k.current).due = _
    rw [waiting_self, waitOn_noTimeout, ht]
    simp [Task.due]
  · exact congrArg Task.due (waiting_rest k o n hb)

theorem Dozes.of_alike (h : Dozes k₁ L₁ t n k' L') (hk : Alike k k₁) (hL : L₁ .sleep = L .sleep) :
    Dozes k L t n k' L' := by
  refine ⟨h.time.trans hk.time, h.pos, hL ▸ h.off, ?_, hk.time ▸ h.self,
    fun b hb => (h.rest b hb).trans (hk.field Task.due (fun _ _ => rfl) b)⟩
  rw [h.list]
  simp only [Lists.toSleep, update_self, hL]

theorem Gets.clock {got : Bool} (h : Gets k L e got k' L') (hl : Listed k L) (hw : Waits k)
    (ht : (k.tasks k.current).tState = .ready) :
    ClockKept k L k' L' ∨ Dozes k L k.current osTimeoutNever k' L' := by
  cases h with
  | got => exact .inl (.of_same (.refl _))
  | @block q =>
    have hl' : Listed (setEvqTask e (some k.current) k) L := hl.congr
    have hw' : Waits (setEvqTask e (some k.current) k) := hw.congr
    have hn : osTimeoutNever ≠ 0 := by decide
    have hd := slept_dozes (q := q) hl' hw' ht hn
    exact .inr { hd with }

theorem Does.clock (h : Sane s L) (hl : Listed s'.k L') (hd : Does s L l s' L') :
    Clock s L l s' L' := by
  cases hd with
  | semBlock hpc ht hto =>
    have hrdy := h.ready_user hpc
    exact .doze nofun (waiting_dozes (h.listed.notMem_sleep hrdy) (h.waits.noTimeout_eq hrdy) hto)
  | @semGrant n rdy W q hpc hW =>
    refine .keep nofun (.of_ready (t := rdy) hl rfl ?_ ?_ fun b hb => ?_)
    · exact erase_sublist
    · exact congrArg Task.tState (granted_self s.k rdy q)
    · exact congrArg Task.due (granted_rest s.k q hb)
  | semDelete hpc hall =>
    exact .keep nofun (hall.clockKept hl (.of_same (.refl _)))
  | @mutexBlock m timeout owner q L1 hpc hlv ho hne hto hL =>
    have hk := alike_boosted s.k owner
    have hrdy := h.ready_user hpc
    have hcur : (s.k.boosted owner).current = s.cur := hk.current
    have hd : Dozes (s.k.boosted owner) L1 s.cur timeout
        (((s.k.boosted owner).waiting (.mutex m) timeout).withLists q)
        (L1.slept ((s.k.boosted owner).waiting (.mutex m) timeout) s.cur) := by
      rw [← hcur]
      refine waiting_dozes ?_ ?_ hto
      · rw [hL, hcur]
        exact h.listed.notMem_sleep hrdy
      · rw [hcur, hk.field Task.noTimeout fun _ _ => rfl]
        exact h.waits.noTimeout_eq hrdy
    exact .doze nofun (hd.of_alike hk hL)
  | notOwned hpc hl' =>
    exact .keep (by rcases hl' with rfl | rfl <;> nofun) (.of_same (.refl _))
  | unnest hr =>
    exact .keep (Releases.ne_tick hr) (.of_same (.refl _))
  | hand hr hlv hW hL =>
    have hk := handed_clockKept hl hL
    exact .keep (Releases.ne_tick hr) { hk with }
  | @free l m q _ hr hlv hW hL =>
    have hk := alike_restored (s.k.lowered m) m s.cur
    exact .keep (Releases.ne_tick hr) (.of_same hL hk.time (hk.field Task.due fun _ _ => rfl))
  | windowHand hpc hW hL => exact .keep nofun (handed_clockKept hl hL)
  | @windowFree m q _ hpc hW hL =>
    have hk := alike_restored s.k m s.cur
    exact .keep nofun (.of_same hL hk.time (hk.field Task.due fun _ _ => rfl))
  | @mutexDelete m q k' L1 _ hpc hL hall =>
    have hk := alike_ownerRestored s.k m
    exact .keep nofun (hall.clockKept hl
      (.of_same (by rw [hL]) hk.time (hk.field Task.due fun _ _ => rfl)))
  | evqGet hpc hg =>
    rcases hg.clock h.listed h.waits (h.ready_user hpc) with hk | hk
    · exact .keep nofun hk
    · exact .doze nofun hk
  | @evqAgain e got k' _ hpc hg =>
    rcases hg.clock (h.listed.congr) (h.waits.congr) (h.ready_resume hpc) with hk | hk
    · exact .keep nofun { hk with }
    · exact .doze nofun { hk with }
  | evqPut hpc hp | post hp => exact .keep nofun (hp.clockKept hl)
  | delay hpc hn =>
    exact .doze nofun (slept_dozes h.listed h.waits (h.ready_user hpc)
      (by show Int.toNat _ ≠ 0; omega))
  | @taskInit t prio q _ hpc ht hL =>
    refine .keep nofun (.of_ready (t := t) hl rfl (hL ▸ .refl _) ?_ fun b hb => ?_)
    · exact congrArg Task.tState (update_self t _ s.k.tasks)
    · exact congrArg Task.due (update_of_ne hb _ s.k.tasks)
  | semClear =>
    exact .keep nofun (.of_same (.refl _) rfl fun b => setTask_field Task.due
      (fun τ => { τ with semWait := false }) _ b s.k rfl)
  | mutexClear =>
    exact .keep nofun (.of_same (.refl _) rfl fun b => setTask_field Task.due
      (fun τ => { τ with mutexWait := false }) _ b s.k rfl)
  | tick hall => exact .tick hall
  | _ => exact .keep nofun (.of_same (.refl _))

end Steps

/-! ## The deadlines stay in order -/

section Order

variable {k k' : Kernel} {L L' : Lists} {t n : Nat}

theorem remaining_of_due (ht : k'.time = k.time) (hd : (k'.tasks t).due = (k.tasks t).due) :
    k'.remaining t = k.remaining t := by
  have hw : (k'.tasks t).tNextWakeup = (k.tasks t).tNextWakeup :=
    congrArg Prod.fst hd
  rw [Kernel.remaining, hw, ht, Kernel.remaining]

theorem noTimeout_of_due (hd : (k'.tasks t).due = (k.tasks t).due) :
    (k'.tasks t).noTimeout = (k.tasks t).noTimeout :=
  congrArg Prod.snd hd

/-- A part of the list, with the same deadlines. -/
theorem Deadlines.kept (h : Deadlines k L) (hk : ClockKept k L k' L') : Deadlines k' L' := by
  have hr := fun t ht => remaining_of_due hk.time (hk.due t ht)
  refine ⟨fun t ht hn => ?_, ?_⟩
  · rw [hr t ht]
    rw [noTimeout_of_due (hk.due t ht)] at hn
    exact h.ahead t (hk.sub.subset ht) hn
  · refine (h.sorted.sublist hk.sub).imp_of_mem fun {a b} ha hb hab hn => ?_
    rw [hr a ha, hr b hb]
    rw [noTimeout_of_due (hk.due b hb)] at hn
    exact hab hn

theorem Dozes.remaining (h : Dozes k L t n k' L') (hn : n < 2 ^ 32) : k'.remaining t = n := by
  have hw : (k'.tasks t).tNextWakeup = (k.time + n) % 2 ^ 32 :=
    congrArg Prod.fst h.self
  rw [Kernel.remaining, hw, h.time]
  exact tickSub_add hn

/-- The comparison that finds the place is one of what remains. -/
theorem tickGt_remaining {b : Nat} (hb : k.remaining b ≤ 2 ^ 31)
    (hb' : 0 < k.remaining b) (ht : k.remaining t ≤ 2 ^ 31) (ht' : 0 < k.remaining t) :
    tickGt (k.tasks b).tNextWakeup (k.tasks t).tNextWakeup = true ↔
      k.remaining t < k.remaining b := by
  unfold Kernel.remaining at *
  exact tickGt_iff (by omega) (by omega)

variable (h : Deadlines k L)
include h

theorem Deadlines.dozes (hl : Listed k L) (hd : Dozes k L t n k' L')
    (hn : n ≤ 2 ^ 31 ∨ n = osTimeoutNever) : Deadlines k' L' := by
  have hne : ∀ b ∈ L .sleep, b ≠ t := fun b hb he => hd.off (he ▸ hb)
  have hr := fun b hb => remaining_of_due hd.time (hd.rest b (hne b hb))
  have hno := fun b hb => noTimeout_of_due (hd.rest b (hne b hb))
  have hold : (L .sleep).Pairwise fun a b => (k'.tasks b).noTimeout = false →
      k'.remaining a ≤ k'.remaining b := by
    refine h.sorted.imp_of_mem fun {a b} ha hb hab hn => ?_
    rw [hr a ha, hr b hb]
    exact hab (hno b hb ▸ hn)
  have hahead : ∀ b ∈ L .sleep, (k'.tasks b).noTimeout = false →
      0 < k'.remaining b ∧ k'.remaining b ≤ 2 ^ 31 := by
    intro b hb hn
    rw [hr b hb]
    exact h.ahead b hb (hno b hb ▸ hn)
  have hself : (k'.tasks t).noTimeout = decide (n = osTimeoutNever) :=
    congrArg Prod.snd hd.self
  rcases hn with hn | rfl
  · have hnt : (k'.tasks t).noTimeout = false := by
      rw [hself]
      exact decide_eq_false (by unfold osTimeoutNever; omega)
    have hrem := hd.remaining (by omega)
    have hpos := hd.pos
    have hgt : ∀ b ∈ L .sleep, (k'.tasks b).noTimeout = false →
        (tickGt (k'.tasks b).tNextWakeup (k'.tasks t).tNextWakeup = true ↔
          k'.remaining t < k'.remaining b) := by
      intro b hb hnb
      obtain ⟨h1, h2⟩ := hahead b hb hnb
      exact tickGt_remaining h2 h1 (by omega) (by omega)
    have hlist : L' .sleep = insertAt (fun e => (k'.tasks e).noTimeout ||
        tickGt (k'.tasks e).tNextWakeup (k'.tasks t).tNextWakeup) t (L .sleep) := by
      rw [hd.list]
      simp [Lists.toSleep, hnt]
    refine ⟨fun b hb hnb => ?_, ?_⟩
    · rw [hlist, mem_insertAt] at hb
      rcases hb with rfl | hb
      · omega
      · exact hahead b hb hnb
    rw [hlist]
    refine pairwise_insertAt hold (fun b hb hlow _ => ?_) fun b hb hnb => ?_
    · simp only [Bool.or_eq_false_iff] at hlow
      have hle := mt (hgt b hb hlow.1).mpr (by simp [hlow.2])
      omega
    -- Behind the place everybody has more left, or no timeout.
    have hmem := (List.dropWhile_sublist _).subset hb
    have hup := picked_of_mem_dropWhile (hold.and hl.timed) (fun a ha c hc hac hpa => ?_) hb
    · simp only [hnb, Bool.false_or] at hup
      exact ((hgt b hmem hnb).mp hup).le
    simp only [Bool.or_eq_true] at hpa ⊢
    by_cases hnc : (k'.tasks c).noTimeout = true
    · exact .inl hnc
    have hnc : (k'.tasks c).noTimeout = false := by simpa using hnc
    have hna : (k'.tasks a).noTimeout = false := by
      have := hac.2
      rw [← hno a ha, ← hno c hc, hnc] at this
      simpa using this
    have hlt := (hgt a ha hna).mp (hpa.resolve_left (by simp [hna]))
    exact .inr ((hgt c hc hnc).mpr (hlt.trans_le (hac.1 hnc)))
  · have hnt : (k'.tasks t).noTimeout = true := by
      rw [hself]
      exact decide_eq_true rfl
    have hlist : L' .sleep = L .sleep ++ [t] := by
      rw [hd.list]
      simp [Lists.toSleep, hnt]
    refine ⟨fun b hb hnb => ?_, ?_⟩
    · rw [hlist, mem_append, mem_singleton] at hb
      rcases hb with hb | rfl
      · exact hahead b hb hnb
      · cases hnt.symm.trans hnb
    · rw [hlist]
      refine List.pairwise_append.mpr ⟨hold, pairwise_singleton _ _, fun a _ b hb hnb => ?_⟩
      rw [List.mem_singleton.mp hb, hnt] at hnb
      cases hnb

/-- Due at the next tick is who has one tick left. -/
theorem Deadlines.expired_iff (ht : t ∈ L .sleep) : k.ticked.expired k.ticked.time t = true ↔
      (k.tasks t).noTimeout = false ∧ k.remaining t = 1 := by
  show (!(k.tasks t).noTimeout &&
    tickGeq ((k.time + 1) % 2 ^ 32) (k.tasks t).tNextWakeup) = true ↔ _
  simp only [Bool.and_eq_true, Bool.not_eq_true']
  refine and_congr_right fun hn => ?_
  obtain ⟨hpos, hle⟩ := h.ahead t ht hn
  unfold Kernel.remaining at *
  have hs := tickSub_succ hpos
  rw [tickGeq_iff (by omega), hs]
  omega

theorem Deadlines.mem_expired (hl : Listed k L) :
    t ∈ (L .sleep).takeWhile (k.ticked.expired k.ticked.time) ↔
      t ∈ L .sleep ∧ (k.tasks t).noTimeout = false ∧ k.remaining t = 1 := by
  rw [mem_takeWhile_iff]
  · exact and_congr_right h.expired_iff
  refine (h.sorted.and hl.timed).imp_of_mem fun {a b} ha hb hab hexp => ?_
  rw [h.expired_iff hb] at hexp
  rw [h.expired_iff ha]
  have hna : (k.tasks a).noTimeout = false := by
    have := hab.2
    rw [hexp.1] at this
    simpa using this
  have hle := hab.1 hexp.1
  have hpos := (h.ahead a ha hna).1
  exact ⟨hna, by omega⟩

variable (hall : WokenAll k.ticked L ((L .sleep).takeWhile (k.ticked.expired k.ticked.time)) k' L')
include hall

/-- A tick wakes who had one tick left. -/
theorem Deadlines.tick_state (hl : Listed k L) (ht : t ∈ L .sleep)
    (hn : (k.tasks t).noTimeout = false) :
    (k'.tasks t).tState = if k.remaining t = 1 then .ready else .sleep := by
  have hmem := h.mem_expired (t := t) hl
  simp only [ht, hn, true_and] at hmem
  rw [hall.tasks]
  by_cases h1 : k.remaining t = 1
  · rw [if_pos (hmem.mpr h1), if_pos h1]
    rfl
  · rw [if_neg (mt hmem.mp h1), if_neg h1]
    exact (hl.sleep t).mp ht

/-- Whoever sleeps on has one tick less. -/
theorem Deadlines.tick_remaining (hl' : Listed k' L') (ht : t ∈ L' .sleep) :
    (k'.tasks t).noTimeout = (k.tasks t).noTimeout ∧
      ((k.tasks t).noTimeout = false → k'.remaining t + 1 = k.remaining t) := by
  have hk := hall.clockKept hl' (.of_same (.refl _))
  have hdue := hk.due t ht
  refine ⟨noTimeout_of_due hdue, fun hn => ?_⟩
  have hpos := (h.ahead t (hall.sublist.subset ht) hn).1
  rw [remaining_of_due hk.time hdue]
  have hs : k.ticked.remaining t = k.remaining t - 1 := tickSub_succ hpos
  omega

theorem Deadlines.tick (hl : Listed k L) (hl' : Listed k' L') : Deadlines k' L' := by
  have hrem := fun t => h.tick_remaining (t := t) hall hl'
  refine ⟨fun t ht hn => ?_, ?_⟩
  · obtain ⟨hnt, hr⟩ := hrem t ht
    rw [hnt] at hn
    have hm := hall.sublist.subset ht
    have hst := h.tick_state hall hl hm hn
    rw [(hl'.sleep t).mp ht] at hst
    have hne : k.remaining t ≠ 1 := by
      intro h1
      rw [if_pos h1] at hst
      cases hst
    have := h.ahead t hm hn
    have := hr hn
    omega
  · refine ((h.sorted.and hl.timed).sublist hall.sublist).imp_of_mem fun {a b} ha hb hab hnb => ?_
    rw [(hrem b hb).1] at hnb
    have hna : (k.tasks a).noTimeout = false := by
      have := hab.2
      rw [hnb] at this
      simpa using this
    have := hab.1 hnb
    have := (hrem a ha).2 hna
    have := (hrem b hb).2 hnb
    omega

end Order

/-! ## Whole runs -/

section Whole

variable {s s' s₀ : Sys} {L L' : Lists} {l : Label} {t j n : Nat} {c : Call}

theorem Deadlines.step (h : Deadlines s.k L) (hl : Listed s.k L)
    (hl' : Listed s'.k L') (hc : Clock s L l s' L')
    (hn : l.nticks ≤ 2 ^ 31 ∨ l.nticks = osTimeoutNever) : Deadlines s'.k L' := by
  cases hc with
  | keep _ hk => exact h.kept hk
  | doze _ hd => exact h.dozes hl hd hn
  | tick hall => exact h.tick hall hl hl'

theorem Runs.deadlines (h0 : Started s₀) (hr : Runs Timely s₀ s) :
    ∃ L, Sane s L ∧ Deadlines s.k L := by
  refine hr.invariant (J := fun s L => Deadlines s.k L) h0
    (fun _ _ _ _ _ hp => hp.1) (fun L hs hsl => ?_) fun s L l s' L' hs hj hp hd hs' =>
      hj.step hs.listed hs'.listed (hd.clock hs hs'.listed) hp.2
  refine ⟨fun t ht => ?_, ?_⟩
  · rw [hsl] at ht
    cases ht
  · rw [hsl]
    exact .nil

/-- The ticks of a step. -/
def Label.ticks : Label → Nat
  | .tick => 1
  | _ => 0

/-- From one state on the task `t` sleeps, while the clock ticks so many
times. -/
inductive SleepsThrough (P : Sys → Label → Prop) (t : Nat) (s₀ : Sys) : Nat → Sys → Prop
  | start (ht : (s₀.k.tasks t).tState = .sleep) : SleepsThrough P t s₀ 0 s₀
  | step {j : Nat} {s s' : Sys} {l : Label} (h : SleepsThrough P t s₀ j s)
      (hp : P s l) (hst : s.step l = some s') (ht : (s'.k.tasks t).tState = .sleep) :
      SleepsThrough P t s₀ (j + l.ticks) s'

/-- A step takes its ticks off what a sleeping task has left. -/
theorem Clock.remaining (hc : Clock s L l s' L') (h : Deadlines s.k L) (hl' : Listed s'.k L')
    (ht : t ∈ L .sleep) (ht' : t ∈ L' .sleep) :
    (s'.k.tasks t).noTimeout = (s.k.tasks t).noTimeout ∧ ((s.k.tasks t).noTimeout = false →
        s'.k.remaining t + l.ticks = s.k.remaining t) := by
  have hzero : l ≠ .tick → l.ticks = 0 := by
    cases l <;> first | exact fun _ => rfl | exact fun hne => (hne rfl).elim
  cases hc with
  | keep hl hk =>
    have hdue := hk.due t ht'
    refine ⟨noTimeout_of_due hdue, fun _ => ?_⟩
    rw [hzero hl, remaining_of_due hk.time hdue, add_zero]
  | doze hl hd =>
    have hdue := hd.rest t fun he => hd.off (he ▸ ht)
    refine ⟨noTimeout_of_due hdue, fun _ => ?_⟩
    rw [hzero hl, remaining_of_due hd.time hdue, add_zero]
  | tick hall => exact h.tick_remaining hall hl' ht'

/-- The tick always goes through. -/
theorem Sane.tick (h : Sane s L) : ∃ k' L', s.step .tick = some (s.withK k') ∧ WokenAll s.k.ticked L
      ((L .sleep).takeWhile (s.k.ticked.expired s.k.ticked.time)) k' L' := by
  have hl : Listed s.k.ticked L := h.listed.congr
  have hw : Waits s.k.ticked := h.waits.congr
  have hwp : Wp (do osTimeTick; osSchedOsTimerExp) ⟨fun _ k' => ∃ L', WokenAll s.k.ticked L
          ((L .sleep).takeWhile _) k' L',
        fun _ _ => True, fun _ => True, False⟩ s.k :=
    Wp.modify_bind (wp_osSchedOsTimerExp hl hw fun k' L' hall _ _ =>
      ⟨L', hall⟩)
  obtain ⟨a, k', he, L', hall⟩ := exec_isSome hwp id
  refine ⟨k', L', ?_, hall⟩
  show (exec (do osTimeTick; osSchedOsTimerExp) s.k).bind _ = _
  rw [he]
  rfl

theorem SleepsThrough.asleep {P : Sys → Label → Prop} (h : SleepsThrough P t s₀ j s) :
    (s₀.k.tasks t).tState = .sleep := by
  induction h with
  | start ht => exact ht
  | step _ _ _ _ ih => exact ih

theorem user_of_call (h : s.step (.call c) = some s') : s.pc s.cur = .user := by
  simp only [Sys.step] at h
  split at h
  · next hpc => exact hpc
  · cases h

/-- What a sleeping task has left, and the ticks gone by, add up. -/
theorem SleepsThrough.left {L0 : Lists} (h : SleepsThrough Timely t s₀ j s) (hs0 : Sane s₀ L0)
    (hd0 : Deadlines s₀.k L0) (hn : (s₀.k.tasks t).noTimeout = false) (hr : s₀.k.remaining t = n) :
    ∃ L, Sane s L ∧ Deadlines s.k L ∧ t ∈ L .sleep ∧
      (s.k.tasks t).noTimeout = false ∧ s.k.remaining t + j = n := by
  induction h with
  | start ht =>
    exact ⟨L0, hs0, hd0, (hs0.listed.sleep t).mpr ht, hn, by omega⟩
  | @step j s s' l _ hp hst ht ih =>
    obtain ⟨L, hs, hd, hm, hnt, hj⟩ := ih
    obtain ⟨L', hdoes, hl, hw⟩ := step_does hs hp.1 hst
    have hc := hdoes.clock hs hl
    have hm' := (hl.sleep t).mpr ht
    obtain ⟨hno, hrem⟩ := hc.remaining hd hl hm hm'
    have := hrem hnt
    exact ⟨L', hdoes.sane hs hl hw, hd.step hs.listed hl hc hp.2, hm', hno.trans hnt, by omega⟩

/-- The timeout of a call that waits no longer than that. -/
def Call.timeout : Call → Option Nat
  | .semPend _ timeout => some timeout
  | .mutexPend _ timeout => some timeout
  | .delay osticks => some osticks.toNat
  | _ => none

theorem Call.nticks_eq (h : c.timeout = some n) : Label.nticks (.call c) = n := by
  cases c <;> first | exact Option.some.inj h | cases h

/-- A task that goes to sleep in a call with timeout `n`, and sleeps through
`j` ticks, sleeps on or is woken at the next tick, and it is woken if and only
if that is the `n`-th. -/
theorem timed_wait_on_time {s₀ s₁ s₂ : Sys} {c : Call} {n j : Nat}
    (h₀ : Started s₀) (h₁ : Runs Timely s₀ s₁) (hc : c.timeout = some n)
    (hn : n < osTimeoutNever) (hp : Timely s₁ (.call c)) (hst : s₁.step (.call c) = some s₂)
    (hz : SleepsThrough Timely s₁.cur s₂ j s) : j < n ∧ ∃ s', s.step .tick = some s' ∧
      (s'.k.tasks s₁.cur).tState = if j + 1 = n then .ready else .sleep := by
  have hnt := Call.nticks_eq hc
  obtain ⟨L1, hs1, hd1⟩ := h₁.deadlines h₀
  obtain ⟨L2, hdoes, hl2, hw2⟩ := step_does hs1 hp.1 hst
  have hclk := hdoes.clock hs1 hl2
  have hs2 := hdoes.sane hs1 hl2 hw2
  have hd2 := hd1.step hs1.listed hl2 hclk hp.2
  have hm := (hl2.sleep s₁.cur).mpr hz.asleep
  have hpc := user_of_call hst
  have hdz : Dozes s₁.k L1 s₁.cur n s₂.k L2 := by
    cases hclk with
    | keep _ hk =>
      have hoff := hs1.listed.notMem_sleep (hs1.ready_user hpc)
      exact (hoff (hk.sub.subset hm)).elim
    | doze _ hd => exact hnt ▸ hd
  have hno : (s₂.k.tasks s₁.cur).noTimeout = false :=
    (congrArg Prod.snd hdz.self).trans (decide_eq_false hn.ne)
  have hrem := hdz.remaining (by unfold osTimeoutNever at hn; omega)
  obtain ⟨L, hs, hd, hm, hno, hj⟩ := hz.left hs2 hd2 hno hrem
  obtain ⟨k', L', htick, hall⟩ := hs.tick
  have hpos := (hd.ahead s₁.cur hm hno).1
  refine ⟨by omega, s.withK k', htick, ?_⟩
  have hone : s.k.remaining s₁.cur = 1 ↔ j + 1 = n := by omega
  show (k'.tasks s₁.cur).tState = _
  simpa only [hone] using hd.tick_state hall hs.listed hm hno

/-- `Timely`, as a test. -/
def timely (s : Sys) (l : Label) : Bool :=
  switchReady s l && (decide (l.nticks ≤ 2 ^ 31) || decide (l.nticks = osTimeoutNever))

theorem timely_sound (s : Sys) (l : Label) (h : timely s l = true) : Timely s l := by
  simp only [timely, Bool.and_eq_true, Bool.or_eq_true, decide_eq_true_eq] at h
  exact ⟨switchReady_sound s l h.1, h.2⟩

/-- The clock is about to wrap. -/
def lateTasks : Sys :=
  (boot noTokens (2 ^ 32 - 2) [(0, 5), (1, 1)]).getD (.zero noTokens 0)

theorem lateTasks_started : Started lateTasks :=
  started_getD (by decide +kernel) (by simp [noTokens]) (by decide)

/-- The state after a step that can be made. -/
def Sys.did (l : Label) (s : Sys) : Sys := (s.step l).getD s

/-- Task 1 sleeps for three ticks, and two have gone by. -/
def overWrap : Sys :=
  ((lateTasks.did (.call (.delay 3))).did .tick).did .tick

theorem timed_wait_on_time_overWrap :
    SleepsThrough Timely lateTasks.cur (lateTasks.did (.call (.delay 3))) 2 overWrap ∧
      ∃ s', overWrap.step .tick = some s' ∧ (s'.k.tasks lateTasks.cur).tState = .ready := by
  have h1 : SleepsThrough Timely lateTasks.cur (lateTasks.did (.call (.delay 3))) 0
      (lateTasks.did (.call (.delay 3))) := .start (by decide +kernel)
  have h2 := h1.step (timely_sound _ .tick (by decide +kernel))
    (eq_some_getD (lateTasks.did (.call (.delay 3))) (by decide +kernel)) (by decide +kernel)
  have h3 := h2.step (timely_sound _ .tick (by decide +kernel))
    (eq_some_getD ((lateTasks.did (.call (.delay 3))).did .tick) (by decide +kernel))
    (by decide +kernel)
  obtain ⟨_, s', hst, hrdy⟩ := timed_wait_on_time
    lateTasks_started .start rfl (by decide) (timely_sound _ _ (by decide +kernel))
    (eq_some_getD lateTasks (by decide +kernel)) h3
  exact ⟨h3, s', hst, hrdy⟩

/-- The sleeping task 1 has been switched to. -/
def lost : Sys := twoTasks.after (fun _ _ => true) (stale ++ [.go, .go, .go])

/-- A timeout of more than half the range ends at the first tick, and a task
that was switched to while it was asleep misses the end of its next wait. -/
theorem long_wait_ends_early : (Started twoTasks ∧ ∃ s s',
      twoTasks.step (.call (.semPend 0 (2 ^ 31 + 2))) = some s ∧
      (s.k.tasks twoTasks.cur).tState = .sleep ∧ s.step .tick = some s' ∧
      (s'.k.tasks twoTasks.cur).tState = .ready) ∧ ∃ s s' s'', Runs (fun _ _ => True) twoTasks s ∧
      s.step (.call (.delay 5)) = some s' ∧
      s'.steps (fun _ _ => true) (List.replicate 6 .tick) = some s'' ∧
      (s''.k.tasks s.cur).tState = .sleep := by
  refine ⟨⟨twoTasks_started, twoTasks.did (.call (.semPend 0 (2 ^ 31 + 2))),
    (twoTasks.did (.call (.semPend 0 (2 ^ 31 + 2)))).did .tick,
    eq_some_getD twoTasks (by decide +kernel), by decide +kernel,
    eq_some_getD (twoTasks.did (.call (.semPend 0 (2 ^ 31 + 2))))
      (by decide +kernel), by decide +kernel⟩, ?_⟩
  exact ⟨lost, lost.did (.call (.delay 5)), (lost.did (.call (.delay 5))).after (fun _ _ => true)
      (List.replicate 6 .tick), runs_after (fun _ _ _ => trivial) (by decide +kernel),
    eq_some_getD lost (by decide +kernel),
    eq_some_getD (lost.did (.call (.delay 5))) (by decide +kernel), by decide +kernel⟩

end Whole

end Larva.Os
