import Larva.Os.Steps

/-!
# Whole runs

The first half shows that a step keeps a state sane. Almost every case is one
of three: nothing that sanity speaks of changes, tasks are woken, or the
running task goes to sleep in a call and is left with the `Pc` of that call.
The cases that remain are the moves inside `os_sched`, where a sleeping task
may be the one that runs.

The second half starts from the memory the system boots with. `Runs.invariant`
is the induction that the other modules use: a property of the states and
their lists that holds at the start and is kept by what a step does, holds in
every state that is reached by switches to ready tasks.
-/

namespace Larva.Os

open Crash TailQ Function List

/-! ## A step keeps a state sane -/

section Kept

variable {s s' : Sys} {L L' : Lists}

/-- Nobody falls asleep, and whoever sleeps is still in the same call. -/
theorem Sane.of_kept (h : Sane s L) (hl : Listed s'.k L') (hw : Waits s'.k)
    (hk : ∀ b, (s'.k.tasks b).tState = .sleep →
      (s'.pc b).cont = (s.pc b).cont ∧ (s.k.tasks b).tState = .sleep ∧
      (s'.k.tasks b).tObj = (s.k.tasks b).tObj ∧ (s'.k.tasks b).noTimeout = (s.k.tasks b).noTimeout)
    (he : ∀ e t, s'.k.evqTask e = some t → s.k.evqTask e = some t ∧ (s'.k.tasks t).tState = .sleep)
    (ha : (s'.k.tasks s'.cur).tState ≠ .clear) (hr : (s'.k.tasks s'.cur).tState = .sleep → ∃ c,
      s'.pc s'.cur = .sched none c ∨ ∃ next, s'.pc s'.cur = .switch next c) : Sane s' L' := by
  refine ⟨hl, hw, fun e t ht => ?_, fun e e' t ht ht' => ?_, ha, hr, fun b hb => ?_⟩
  · obtain ⟨hold, hsl⟩ := he e t ht
    obtain ⟨_, _, ho, hn⟩ := hk t hsl
    rw [ho, hn]
    exact ⟨hsl, (h.evq e t hold).2⟩
  · exact h.evqOnce e e' t (he e t ht).1 (he e' t ht').1
  · obtain ⟨hpc, hsl, ho, _⟩ := hk b hb
    rw [hpc, ho]
    exact h.parked b hsl

/-- The parts of a task that sanity speaks of are as they were. -/
abbrev Task.Same (τ' τ : Task) : Prop :=
  τ'.tState = τ.tState ∧ τ'.tObj = τ.tObj ∧ τ'.noTimeout = τ.noTimeout

/-- They are, or the task has been woken. -/
def Lively (k k' : Kernel) (b : Nat) : Prop :=
  (k'.tasks b).Same (k.tasks b) ∨ (k'.tasks b).tState = .ready

variable {k k' : Kernel} {b t e : Nat} {o : Obj} {p : Pc} {l : Label}

theorem Lively.of_eq (he : k'.tasks b = k.tasks b) :
    Lively k k' b :=
  .inl (by rw [he]; exact ⟨rfl, rfl, rfl⟩)

theorem Lively.asleep (h : Lively k k' b)
    (hb : (k'.tasks b).tState = .sleep) : (k.tasks b).tState = .sleep ∧
      (k'.tasks b).tObj = (k.tasks b).tObj ∧ (k'.tasks b).noTimeout = (k.tasks b).noTimeout := by
  rcases h with ⟨hs, ho, hn⟩ | hs
  · exact ⟨hs.symm.trans hb, ho, hn⟩
  · rw [hs] at hb
    cases hb

theorem Lively.ready (h : Lively k k' b)
    (hb : (k.tasks b).tState = .ready) : (k'.tasks b).tState = .ready := by
  rcases h with ⟨hs, _⟩ | hs
  · rw [hs]
    exact hb
  · exact hs

section

variable (h : Sane s L)
include h

/-- The running task is awake and moves on. -/
theorem Sane.of_awake (hl : Listed s'.k L') (hw : Waits s'.k)
    (hc : (s.k.tasks s.cur).tState = .ready) (hcur : s'.cur = s.cur)
    (hpc : ∀ b, b ≠ s.cur → s'.pc b = s.pc b) (hk : ∀ b, Lively s.k s'.k b)
    (he : ∀ e t, s'.k.evqTask e = some t →
      s.k.evqTask e = some t ∧ (s'.k.tasks t).tState = .sleep) : Sane s' L' := by
  have hrdy : (s'.k.tasks s'.cur).tState = .ready := by
    rw [hcur]
    exact (hk s.cur).ready hc
  refine h.of_kept hl hw (fun b hb => ?_) he ?_ ?_
  · obtain ⟨hsl, ho, hn⟩ := (hk b).asleep hb
    have hbc : b ≠ s.cur := by
      rintro rfl
      rw [hc] at hsl
      cases hsl
    exact ⟨by rw [hpc b hbc], hsl, ho, hn⟩
  · rw [hrdy]
    decide
  · rw [hrdy]
    exact fun hs => by cases hs

/-- An interrupt handler wakes tasks. -/
theorem Sane.of_interrupt (hl : Listed k' L')
    (hw : Waits k') (hcur : k'.current = s.cur) (hk : ∀ b, Lively s.k k' b)
    (he : ∀ e t, k'.evqTask e = some t → s.k.evqTask e = some t ∧ (k'.tasks t).tState = .sleep) :
    Sane (s.withK k') L' := by
  refine h.of_kept hl hw (fun b hb => ?_) he ?_ fun hb => ?_
  · exact ⟨rfl, (hk b).asleep hb⟩
  · show (k'.tasks k'.current).tState ≠ .clear
    rw [hcur]
    rcases hk s.cur with ⟨hs, _⟩ | hs <;> rw [hs]
    · exact h.alive
    · decide
  · have hb' : (k'.tasks s.cur).tState = .sleep := by
      rw [← hcur]
      exact hb
    obtain ⟨c, hc⟩ := h.running ((hk s.cur).asleep hb').1
    rw [← hcur] at hc
    exact ⟨c, hc⟩

/-- Event queues do not notice that others are woken. -/
theorem Sane.evq_kept (hk : ∀ b e, s.k.evqTask e = some b →
      (k'.tasks b).tState = (s.k.tasks b).tState)
    (he : ∀ e t, k'.evqTask e = some t → s.k.evqTask e = some t) (e t : Nat)
    (ht : k'.evqTask e = some t) : s.k.evqTask e = some t ∧ (k'.tasks t).tState = .sleep :=
  ⟨he e t ht, (hk t e (he e t ht)).trans (h.evq e t (he e t ht)).1⟩

/-- The running task goes to sleep in a call. -/
theorem Sane.of_block {c : Cont} (hl : Listed s'.k L')
    (hw : Waits s'.k) (hc : (s.k.tasks s.cur).tState = .ready)
    (hcur : s'.cur = s.cur) (hpc : s'.pc = update s.pc s.cur (.sched none c))
    (hk : ∀ b, b ≠ s.cur → (s'.k.tasks b).Same (s.k.tasks b))
    (hsl : (s'.k.tasks s.cur).tState = .sleep)
    (hobj : c.obj = (s'.k.tasks s.cur).tObj) (hsleeps : c.Sleeps)
    (he : ∀ e t, s'.k.evqTask e = some t → s.k.evqTask e = some t ∨ (c = .evqGet e ∧ t = s.cur ∧
        (s'.k.tasks s.cur).noTimeout = true)) : Sane s' L' := by
  have hnew : ∀ e, s.k.evqTask e ≠ some s.cur := by
    intro e ht
    have hs := (h.evq e s.cur ht).1
    rw [hc] at hs
    cases hs
  refine ⟨hl, hw, fun e t ht => ?_, fun e e' t ht ht' => ?_, ?_, fun _ => ?_, fun b hb => ?_⟩
  · rcases he e t ht with ht | ⟨rfl, rfl, hn⟩
    · have htc : t ≠ s.cur := by
        rintro rfl
        exact hnew e ht
      obtain ⟨hs, ho, hn⟩ := hk t htc
      rw [hs, ho, hn]
      exact h.evq e t ht
    · exact ⟨hsl, hn, hobj.symm⟩
  · rcases he e t ht with h1 | ⟨hc1, rfl, _⟩ <;> rcases he e' _ ht' with h2 | ⟨hc2, ht2, _⟩
    · exact h.evqOnce e e' t h1 h2
    · subst ht2
      exact (hnew e h1).elim
    · exact (hnew e' h2).elim
    · rw [hc1] at hc2
      cases hc2
      rfl
  · rw [hcur, hsl]
    decide
  · refine ⟨c, .inl ?_⟩
    rw [hcur, hpc, update_self]
  · by_cases hbc : b = s.cur
    · subst hbc
      refine ⟨c, ?_, hobj, hsleeps⟩
      rw [hpc, update_self]
      rfl
    · obtain ⟨hs, ho, _⟩ := hk b hbc
      rw [hpc, update_of_ne hbc, ho]
      exact h.parked b (hs.symm.trans hb)

/-- Tasks woken out of a chain, or by the timer, are in no event queue. -/
theorem Sane.evq_ne (hb : (s.k.tasks b).tObj ≠ none ∨ (s.k.tasks b).noTimeout = false) (e : Nat) :
    s.k.evqTask e ≠ some b := by
  intro ht
  obtain ⟨_, hn, ho⟩ := h.evq e b ht
  rcases hb with hb | hb
  · exact hb ho
  · rw [hn] at hb
    cases hb

theorem Sane.waiter_ne (hb : b ∈ s.k.waiters o) (e : Nat) : s.k.evqTask e ≠ some b :=
  h.evq_ne (.inl (by rw [(h.waits.chain o b).mp hb]; simp)) e

end

theorem same_of_eq {τ τ' : Task} (he : τ' = τ) : τ'.Same τ := by
  subst he
  exact ⟨rfl, rfl, rfl⟩

theorem same_setTask (k : Kernel) (t : Nat) {f : Task → Task}
    (hf : ∀ τ, (f τ).Same τ) (b : Nat) : ((setTask t f k).tasks b).Same (k.tasks b) :=
  ⟨setTask_field Task.tState f t b k (hf _).1, setTask_field Task.tObj f t b k (hf _).2.1,
    setTask_field Task.noTimeout f t b k (hf _).2.2⟩

theorem Alike.same (h : Alike k k') (b : Nat) :
    (k'.tasks b).Same (k.tasks b) :=
  ⟨h.state b, h.obj b, h.field Task.noTimeout (fun _ _ => rfl) b⟩

section

variable (h : Sane s L) (hl : Listed s'.k L') (hw : Waits s'.k)
  (hc : (s.k.tasks s.cur).tState = .ready) (hpc : ∀ b, b ≠ s.cur → s'.pc b = s.pc b)
include h hl hw hc hpc

/-- Waiters of one object are woken. -/
theorem Sane.of_wokenAll {k1 : Kernel} {L1 : Lists} (hall : WokenAll k1 L1 (s.k.waiters o) s'.k L')
    (h1 : ∀ b, (k1.tasks b).Same (s.k.tasks b))
    (he1 : k1.evqTask = s.k.evqTask) (hc1 : k1.current = s.k.current) : Sane s' L' := by
  have ht := hall.tasks
  refine h.of_awake hl hw hc (hall.rest.2.2.2.2.trans hc1) hpc (fun b => ?_)
    (h.evq_kept (fun b e hb => ?_) fun e t hb => ?_)
  · by_cases hb : b ∈ s.k.waiters o
    · exact .inr (by rw [ht, if_pos hb]; rfl)
    · exact .inl (by rw [ht, if_neg hb]; exact h1 b)
  · rw [ht, if_neg fun hm => h.waiter_ne hm e hb]
    exact (h1 b).1
  · rw [← he1, ← hall.rest.2.2.1]
    exact hb

/-- One waiter is woken. -/
theorem Sane.of_wake {rdy : Nat} {W : List Nat} (hcur : s'.cur = s.cur)
    (hW : s.k.waiters o = rdy :: W) (hr : (s'.k.tasks rdy).tState = .ready)
    (hk : ∀ b, b ≠ rdy → (s'.k.tasks b).Same (s.k.tasks b))
    (he : s'.k.evqTask = s.k.evqTask) : Sane s' L' := by
  refine h.of_awake hl hw hc hcur hpc (fun b => ?_) (h.evq_kept (fun b e hb => ?_) fun e t hb => ?_)
  · by_cases hb : b = rdy
    · exact .inr (by rw [hb]; exact hr)
    · exact .inl (hk b hb)
  · have hne : b ≠ rdy := by
      rintro rfl
      exact h.waiter_ne (hW ▸ mem_cons_self) e hb
    exact (hk b hne).1
  · rw [← he]
    exact hb

/-- Nothing of it changes, as a rule because nothing is written. -/
theorem Sane.of_same (hcur : s'.cur = s.cur := by rfl)
    (hk : ∀ b, (s'.k.tasks b).Same (s.k.tasks b) := by exact fun _ => ⟨rfl, rfl, rfl⟩)
    (he : ∀ e t, s'.k.evqTask e = some t → s.k.evqTask e = some t := by exact fun _ _ => id) :
    Sane s' L' :=
  h.of_awake hl hw hc hcur hpc (fun b => .inl (hk b)) (h.evq_kept (fun b _ _ => (hk b).1) he)

end

theorem handed_self (k : Kernel) (m rdy : Nat) :
    ((k.handed m rdy).tasks rdy).tState = .ready :=
  congrArg Task.tState (show (k.handed m rdy).tasks rdy =
    ((k.restored m k.current).tasks rdy).woken from update_self _ _ _)

theorem handed_rest (k : Kernel) (m : Nat) {rdy : Nat} (hb : b ≠ rdy) :
    ((k.handed m rdy).tasks b).Same (k.tasks b) := by
  have hr : (k.handed m rdy).tasks b = (k.restored m k.current).tasks b :=
    update_of_ne hb _ _
  rw [hr]
  exact (alike_restored k m k.current).same b

/-- A move inside a call leaves the call. -/
theorem goto_cont {p0 : Pc} (hp0 : s.pc t = p0) (hp : p.cont = p0.cont) (b : Nat) :
    ((s.goto t p).pc b).cont = (s.pc b).cont := by
  by_cases hb : b = t
  · subst hb
    rw [hp0, ← hp]
    exact congrArg Pc.cont (update_self _ _ _)
  · exact congrArg Pc.cont (update_of_ne hb _ _)

theorem goto_pc (b : Nat) (hb : b ≠ t) : (s.goto t p).pc b = s.pc b :=
  update_of_ne hb _ _

theorem finish_pc {r : Resched} {c : Cont} (b : Nat) (hb : b ≠ t) :
    (s.finish t r c).pc b = s.pc b := by
  cases r <;> exact update_of_ne hb _ _

theorem Releases.ready {m : Nat} (h : Sane s L) (hr : s.Releases l m) :
    (s.k.tasks s.cur).tState = .ready := by
  rcases hr with ⟨_, hpc, _⟩ | ⟨_, hpc⟩
  · exact h.ready_at hpc rfl
  · exact h.ready_at hpc rfl

theorem Gets.sane {got : Bool} {k1 : Kernel} (hg : Gets k1 L e got k' L') (h : Sane s L)
    (hl : Listed k' L') (hw : Waits k') (hc : (s.k.tasks s.cur).tState = .ready)
    (ht1 : k1.tasks = s.k.tasks) (hc1 : k1.current = s.cur)
    (he1 : ∀ e t, k1.evqTask e = some t → s.k.evqTask e = some t) : Sane ((s.withK k').goto s.cur
      (if got then .user else .sched none (.evqGet e))) L' := by
  cases hg with
  | @got ev evs hq =>
    refine h.of_same hl hw hc goto_pc hc1 (fun b => same_of_eq ?_) he1
    show k1.tasks b = _
    rw [ht1]
  | @block q hq =>
    have hself := slept_self (setEvqTask e (some k1.current) k1) k1.current osTimeoutNever
    have hrest : ∀ b, b ≠ s.cur → ((setEvqTask e (some k1.current) k1).slept
        k1.current osTimeoutNever).tasks b = s.k.tasks b := by
      intro b hb
      rw [← hc1] at hb
      rw [slept_rest _ _ hb, ← ht1]
      rfl
    refine h.of_block hl hw hc hc1 rfl (fun b hb => same_of_eq (hrest b hb))
      ?_ ?_ trivial fun e' t ht => ?_
    · rw [← hc1]
      exact congrArg Task.tState hself
    · have ho := congrArg Task.tObj hself
      have hnone : (k1.tasks k1.current).tObj = none := by
        rw [ht1, hc1]
        exact h.waits.obj_eq_none hc
      rw [← hc1]
      exact (ho.trans hnone).symm
    · by_cases he : e' = e
      · subst he
        have hx : some k1.current = some t := by
          simpa [Sys.withK, Sys.goto, Kernel.withLists, Kernel.slept, setTask, setEvqTask] using ht
        refine .inr ⟨rfl, by rw [← hc1]; exact (Option.some.inj hx).symm, ?_⟩
        rw [← hc1]
        exact (congrArg Task.noTimeout hself).trans (by simp)
      · refine .inl (he1 e' t ?_)
        simpa [Sys.withK, Sys.goto, Kernel.withLists, Kernel.slept, setTask,
          setEvqTask, he] using ht

theorem Puts.kept {ev : Ev} {woke : Bool} (hp : Puts s.k L e ev woke k' L') (h : Sane s L) :
    k'.current = s.cur ∧ (∀ b, Lively s.k k' b) ∧
      ∀ e t, k'.evqTask e = some t → s.k.evqTask e = some t ∧ (k'.tasks t).tState = .sleep := by
  cases hp with
  | nop | add =>
    exact ⟨rfl, fun b => .of_eq rfl, h.evq_kept (fun _ _ _ => rfl) fun _ _ => id⟩
  | @wake t q hq ht =>
    have hself : ((setEvqTask e none (((s.k.queued e ev).woken t).withLists q)).tasks t).tState =
        .ready := congrArg Task.tState (show _ = (s.k.tasks t).woken from update_self _ _ _)
    have hrest : ∀ b, b ≠ t → (setEvqTask e none
        (((s.k.queued e ev).woken t).withLists q)).tasks b = s.k.tasks b :=
      fun b hb => update_of_ne hb _ _
    refine ⟨rfl, fun b => ?_, fun e' x hx => ?_⟩
    · by_cases hb : b = t
      · exact .inr (hb ▸ hself)
      · exact .of_eq (hrest b hb)
    have he : e' ≠ e := by
      rintro rfl
      simp [setEvqTask] at hx
    have hx' : s.k.evqTask e' = some x := by
      simp only [setEvqTask, update_of_ne he] at hx
      exact hx
    have hxt : x ≠ t := by
      rintro rfl
      exact he (h.evqOnce e' e x hx' ht)
    refine ⟨hx', ?_⟩
    rw [hrest x hxt]
    exact (h.evq e' x hx').1

theorem Does.sane (h : Sane s L) (hd : Does s L l s' L') (hl : Listed s'.k L') (hw : Waits s'.k) :
    Sane s' L' := by
  cases hd with
  | semTake hpc | mutexTake hpc | mutexNest hpc =>
    exact h.of_same hl hw (h.ready_user hpc) fun _ _ => rfl
  | semBusy | mutexBusy | notOwned => exact h
  | @semBlock n timeout q hpc ht hto =>
    refine h.of_block hl hw (h.ready_user hpc) rfl rfl (fun b hb => ?_) ?_ ?_
      trivial fun e t ht => .inl ht
    · exact same_of_eq (waiting_rest s.k (.sem n) timeout hb)
    · exact congrArg Task.tState (waiting_self s.k (.sem n) timeout)
    · exact (congrArg Task.tObj (waiting_self s.k (.sem n) timeout)).symm
  | @semGrant n rdy W q hpc hW =>
    exact h.of_wake hl hw (h.ready_user hpc) finish_pc rfl hW
      (congrArg Task.tState (granted_self s.k rdy q))
      (fun b hb => same_of_eq (granted_rest s.k q hb)) rfl
  | semAdd hpc | noDelay hpc =>
    exact h.of_same hl hw (h.ready_user hpc) finish_pc
  | semDelete hpc hall hr =>
    exact h.of_wokenAll hl hw (h.ready_user hpc) finish_pc hall (fun _ => ⟨rfl, rfl, rfl⟩) rfl rfl
  | @mutexBlock m timeout owner q L1 hpc hlv ho hne hto hL =>
    have hk := alike_boosted s.k owner
    have hcur : (s.k.boosted owner).current = s.cur := hk.current
    refine h.of_block hl hw (h.ready_user hpc) hcur rfl (fun b hb => ?_) ?_
      ?_ trivial fun e t ht => .inl (by rw [← hk.evqTask]; exact ht)
    · rw [← hcur] at hb
      have hb' := same_of_eq (waiting_rest _ (.mutex m) timeout hb)
      exact ⟨hb'.1.trans (hk.same b).1, hb'.2.1.trans (hk.same b).2.1,
        hb'.2.2.trans (hk.same b).2.2⟩
    · rw [← hcur]
      exact congrArg Task.tState (waiting_self _ (.mutex m) timeout)
    · rw [← hcur]
      exact (congrArg Task.tObj (waiting_self _ (.mutex m) timeout)).symm
  | checked hpc =>
    exact h.of_same hl hw (h.ready_user hpc) goto_pc
  | unnest hr =>
    exact h.of_same hl hw (Releases.ready h hr) finish_pc
  | @hand l m rdy W q _ hr hlv hW hL =>
    have hk := alike_restored (s.k.lowered m) m s.cur
    exact h.of_wake hl hw (Releases.ready h hr) finish_pc hk.current hW
      (handed_self _ m rdy) (fun b hb => handed_rest _ m hb) hk.evqTask
  | @free l m q _ hr hlv hW hL =>
    have hk := alike_restored (s.k.lowered m) m s.cur
    exact h.of_same hl hw (Releases.ready h hr) finish_pc hk.current hk.same
      fun e t ht => (congrFun hk.evqTask e).symm.trans ht
  | cutNested hpc | cut hpc =>
    exact h.of_same hl hw (Releases.ready h (.inr ⟨rfl, hpc⟩)) goto_pc
  | @windowHand m rdy W q _ hpc hW hL =>
    have hk := alike_restored s.k m s.cur
    exact h.of_wake hl hw (h.ready_at hpc rfl) finish_pc hk.current hW
      (handed_self s.k m rdy) (fun b hb => handed_rest s.k m hb) hk.evqTask
  | @windowFree m q _ hpc hW hL =>
    have hk := alike_restored s.k m s.cur
    exact h.of_same hl hw (h.ready_at hpc rfl) finish_pc hk.current hk.same
      fun e t ht => (congrFun hk.evqTask e).symm.trans ht
  | @mutexDelete m q k' L1 _ hpc hL hall =>
    have hk := alike_ownerRestored s.k m
    exact h.of_wokenAll hl hw (h.ready_user hpc) finish_pc hall hk.same hk.evqTask hk.current
  | evqGet hpc hg =>
    exact hg.sane h hl hw (h.ready_user hpc) rfl rfl fun _ _ => id
  | @evqAgain e got k' _ hpc hg =>
    refine hg.sane h hl hw (h.ready_resume hpc) rfl rfl fun e' t ht => ?_
    by_cases he : e' = e
    · subst he
      simp [setEvqTask] at ht
    · simpa [setEvqTask, he] using ht
  | evqPut hpc hp =>
    obtain ⟨hcur, hk, he⟩ := hp.kept h
    exact h.of_awake hl hw (h.ready_user hpc) hcur finish_pc hk he
  | post hp =>
    obtain ⟨hcur, hk, he⟩ := hp.kept h
    exact h.of_interrupt hl hw hcur hk he
  | @delay osticks q hpc hn =>
    refine h.of_block hl hw (h.ready_user hpc) rfl rfl (fun b hb => ?_) ?_ ?_
      trivial fun e t ht => .inl ht
    · exact same_of_eq (slept_rest s.k osticks.toNat hb)
    · exact congrArg Task.tState (slept_self s.k s.cur osticks.toNat)
    · exact ((congrArg Task.tObj (slept_self s.k s.cur osticks.toNat)).trans
        (h.waits.obj_eq_none (h.ready_user hpc))).symm
  | @taskInit t prio q _ hpc ht hL =>
    have hrest : ∀ b, b ≠ t → _ := fun b hb => newTask_rest s.k prio q hb
    have hc := h.ready_user hpc
    have hct : s.cur ≠ t := by
      rintro he
      rw [he, ht] at hc
      cases hc
    have hrdy : (((s.k.newTask t prio).withLists q).tasks s.cur).tState =
        .ready := by
      rw [hrest _ hct]
      exact hc
    refine h.of_kept hl hw (fun b hb => ?_) (fun e x hx => ⟨hx, ?_⟩) ?_ ?_
    · obtain ⟨hbt, hb'⟩ := newTask_asleep hb
      refine ⟨?_, hb', same_of_eq (hrest b hbt) |>.2⟩
      exact congrArg Pc.cont (update_of_ne hbt _ _)
    · have hxs := (h.evq e x hx).1
      have hxt : x ≠ t := by
        rintro rfl
        rw [ht] at hxs
        cases hxs
      exact (congrArg Task.tState (hrest x hxt)).trans hxs
    · exact fun hcl => by cases hrdy.symm.trans hcl
    · exact fun hsl => by cases hrdy.symm.trans hsl
  | @schedSelf next c hpc hn =>
    -- A task that sleeps is not on the run list, so it is not chosen.
    have hc : (s.k.tasks s.cur).tState = .ready := by
      cases hst : (s.k.tasks s.cur).tState with
      | clear => exact (h.alive hst).elim
      | ready => rfl
      | sleep =>
        obtain ⟨c', hc' | ⟨next', hc'⟩⟩ := h.running hst
        · rw [hpc] at hc'
          cases hc'
          rw [← hst]
          exact (h.listed.run s.cur).mp (mem_of_mem_head? hn)
        · rw [hpc] at hc'
          cases hc'
    exact h.of_same hl hw hc goto_pc
  | @schedOther next c t hpc hn hne =>
    refine h.of_kept hl hw (fun b hb => ⟨?_, hb, rfl, rfl⟩)
      (h.evq_kept (fun _ _ _ => rfl) fun _ _ => id) h.alive
      fun _ => ⟨c, .inr ⟨t, update_self _ _ _⟩⟩
    exact goto_cont (p := .switch t c) hpc rfl b
  | @switch next c hpc hr =>
    refine h.of_kept hl hw (fun b hb => ⟨?_, hb, rfl, rfl⟩)
      (h.evq_kept (fun _ _ _ => rfl) fun _ _ => id) ?_ ?_
    · exact goto_cont (p := .resume c) hpc rfl b
    · exact fun hcl => by cases hr.symm.trans hcl
    · exact fun hsl => by cases hr.symm.trans hsl
  | semGot hpc | semLate hpc | done hpc =>
    exact h.of_same hl hw (h.ready_resume hpc) goto_pc
  | semClear hpc =>
    exact h.of_same hl hw (h.ready_at hpc rfl) goto_pc rfl
      (same_setTask s.k s.cur (f := fun τ => { τ with semWait := false }) fun _ => ⟨rfl, rfl, rfl⟩)
  | mutexClear hpc =>
    exact h.of_same hl hw (h.ready_resume hpc) goto_pc rfl
      (same_setTask s.k s.cur (f := fun τ => { τ with mutexWait := false })
        fun _ => ⟨rfl, rfl, rfl⟩)
  | mutexGot hpc | mutexLate hpc =>
    exact h.of_same hl hw (h.ready_at hpc rfl) goto_pc
  | @tick k' _ hall =>
    have ht := hall.tasks
    have hnt : ∀ b ∈ (L .sleep).takeWhile (s.k.ticked.expired s.k.ticked.time),
        (s.k.tasks b).noTimeout = false := by
      intro b hb
      have hexp := mem_takeWhile_imp hb
      simp only [Kernel.expired, Bool.and_eq_true, Bool.not_eq_true'] at hexp
      exact hexp.1
    refine h.of_interrupt hl hw hall.rest.2.2.2.2 (fun b => ?_)
      (h.evq_kept (fun b e hb => ?_) fun e t hb => ?_)
    · by_cases hb : b ∈ (L .sleep).takeWhile (s.k.ticked.expired s.k.ticked.time)
      · exact .inr (by rw [ht, if_pos hb]; rfl)
      · exact .of_eq (by rw [ht, if_neg hb]; rfl)
    · rw [ht, if_neg fun hm => h.evq_ne (.inr (hnt b hm)) e hb]
      rfl
    · exact (congrFun hall.rest.2.2.1 e).symm.trans hb
  | @preempt t hr =>
    refine h.of_kept hl hw (fun b hb => ⟨rfl, hb, rfl, rfl⟩)
      (h.evq_kept (fun _ _ _ => rfl) fun _ _ => id) ?_ ?_
    · exact fun hcl => by cases hr.symm.trans hcl
    · exact fun hsl => by cases hr.symm.trans hsl

end Kept

/-! ## From the start on -/

section Whole

/-- What `Boots` leaves: every task is ready and has done nothing. -/
structure Fresh (s : Sys) : Prop where
  listed : ∃ L, Listed s.k L ∧ L .sleep = []
  task : ∀ t, (s.k.tasks t).tState ≠ .sleep ∧ (s.k.tasks t).tObj = none ∧
    (s.k.tasks t).noTimeout = false ∧ (s.k.tasks t).semWait = false ∧
    (s.k.tasks t).tPrio = s.initPrio t
  waiters : ∀ o, s.k.waiters o = []
  mutexes : ∀ m, s.k.mutexes m = ⟨0, 0, none⟩
  tokens : ∀ n, s.k.semTokens n < 2 ^ 16
  evqTask : ∀ e, s.k.evqTask e = none
  time : s.k.time < 2 ^ 32
  pc : ∀ t, s.pc t = .user
  held : ∀ m t, s.held m t = 0
  counts : ∀ n, s.releases n = 0 ∧ s.grants n = 0

variable {s : Sys}

theorem Boots.fresh (h : Boots s) : Fresh s := by
  induction h with
  | @zero tokens time hn ht =>
    refine ⟨⟨fun _ => [], ?_, rfl⟩, fun t => ⟨nofun, rfl, rfl, rfl, rfl⟩,
      fun _ => rfl, fun _ => rfl, hn, fun _ => rfl, ht, fun _ => rfl,
      fun _ _ => rfl, fun _ => ⟨rfl, rfl⟩⟩
    exact ⟨queues_init, fun t => ⟨nofun, nofun⟩, fun t => ⟨nofun, nofun⟩,
      fun t => ⟨nofun, fun hne => (hne rfl).elim⟩, .nil, nofun, .nil⟩
  | @task s t prio k h hc he ih =>
    obtain ⟨L, hl, hs⟩ := ih.listed
    refine exec_sound (Q := Answers fun _ k => Fresh { s.withK k with
      initPrio := update s.initPrio t prio }) ?_ he
    refine wp_osTaskInit hl hc fun q L' hsl hl' => ?_
    refine { ih with listed := ⟨L', hl', hsl.trans hs⟩, task := fun b => ?_ }
    by_cases hb : b = t
    · subst hb
      simp [Sys.withK, newTask_self]
    · simpa [Sys.withK, newTask_rest s.k prio q hb, hb] using ih.task b

theorem Started.fresh (h : Started s) : Fresh s ∧ (s.k.tasks s.cur).tState = .ready := by
  obtain ⟨s0, t, hb, hf, rfl⟩ := h
  have hfr := hb.fresh
  obtain ⟨L, hl, hs⟩ := hfr.listed
  refine ⟨{ hfr with listed := ⟨L, ?_, hs⟩ }, ?_⟩
  · exact hl.congr
  · rw [hl.queues.first_eq] at hf
    exact (hl.run t).mp (mem_of_mem_head? hf)

theorem Started.sane (h : Started s) : ∃ L, Sane s L ∧ L .sleep = [] := by
  obtain ⟨hfr, hrdy⟩ := h.fresh
  obtain ⟨L, hl, hs⟩ := hfr.listed
  refine ⟨L, ⟨hl, ⟨fun o t => ?_, fun o => ?_, fun t o => ?_, fun t => ?_⟩,
    fun e t => ?_, fun e e' t => ?_, ?_, fun hsl => ?_, fun t hsl => ?_⟩, hs⟩
  · rw [hfr.waiters, (hfr.task t).2.1]
    exact ⟨nofun, nofun⟩
  · rw [hfr.waiters]
    exact nodup_nil
  · rw [(hfr.task t).2.1]
    exact nofun
  · rw [(hfr.task t).2.2.1]
    exact nofun
  · rw [hfr.evqTask]
    exact nofun
  · rw [hfr.evqTask]
    exact nofun
  · rw [hrdy]
    decide
  · rw [hrdy] at hsl
    cases hsl
  · exact ((hfr.task t).1 hsl).elim

/-- An invariant of the states and their lists holds in every state that sane
steps reach. -/
theorem Runs.invariant {P : Sys → Label → Prop} {J : Sys → Lists → Prop} {s0 : Sys}
    (h0 : Started s0) (hr : Runs P s0 s)
    (hP : ∀ s L l, Sane s L → J s L → P s l → SwitchesToReady s l)
    (hbase : ∀ L, Sane s0 L → L .sleep = [] → J s0 L)
    (hstep : ∀ s L l s' L', Sane s L → J s L → P s l → Does s L l s' L' →
      Sane s' L' → J s' L') : ∃ L, Sane s L ∧ J s L := by
  induction hr with
  | start =>
    obtain ⟨L, hs, hsl⟩ := h0.sane
    exact ⟨L, hs, hbase L hs hsl⟩
  | step _ hp hst ih =>
    obtain ⟨L, hs, hj⟩ := ih
    obtain ⟨L', hd, hl, hw⟩ := step_does hs (hP _ L _ hs hj hp) hst
    have hs' := hd.sane hs hl hw
    exact ⟨L', hs', hstep _ L _ _ L' hs hj hp hd hs'⟩

end Whole

end Larva.Os
