import Larva.Os.Priorities

/-!
# Who is woken

`os_mutex_release` and `os_sem_release` wake the first task of a chain of
waiters. It is the most urgent of them, and among equally urgent ones the one
that has waited longest, if the chain is in that order. A task that begins to
wait goes to its place by the priorities of that moment, and a chain that only
loses tasks stays in order. What can break the order is a change of the
priority of a task while it waits: priority inheritance gives an owner a new
priority wherever the owner is, and so does the deletion of a mutex.

How long a task has waited is not in the kernel's memory. `WaitRuns` is a run
that notes the number of the step with which each task began to wait for a
semaphore or a mutex, as can be seen from the tasks before and after.
-/

namespace Larva.Os

open TailQ Function List Option

/-- What a task waits on. -/
def Sys.obj (s : Sys) (t : Nat) : Option Obj := (s.k.tasks t).tObj

/-- The step that gives `t` the priority `p`, apart from a release: somebody
more urgent waits for a mutex of `t`, or a mutex of `t` is deleted. -/
def Sys.Reprio (s : Sys) (l : Label) (t p : Nat) : Prop :=
  (∃ m timeout, l = .call (.mutexPend m timeout) ∧ timeout ≠ 0 ∧
    s.pc s.cur = .user ∧ (s.k.mutexes m).muLevel ≠ 0 ∧ s.owner m = some t ∧
    s.prio s.cur < s.prio t ∧ p = s.prio s.cur) ∨
  (∃ m, l = .call (.mutexDelete m) ∧ s.pc s.cur = .user ∧
    (s.k.mutexes m).muLevel ≠ 0 ∧ s.owner m = some t ∧ p = s.kept m)

/-! ## What a step does to the chains -/

/-- The chains lose tasks, or the running task joins one of them. The tasks
that wait keep their priorities or are given one. -/
inductive Chained (s : Sys) (l : Label) (s' : Sys) : Prop
  | shrink (hc : ∀ o, (s'.k.waiters o).Sublist (s.k.waiters o))
      (hp : ∀ t, (s.k.tasks t).tState = .sleep → s'.prio t = s.prio t ∨ s.Reprio l t (s'.prio t))
  | join {o : Obj} (hcur : (s.k.tasks s.cur).tState = .ready)
      (hc : ∀ o', s'.k.waiters o' = if o' = o then
        insertAt (fun e => decide (s'.prio s.cur < s'.prio e)) s.cur
          (s.k.waiters o) else s.k.waiters o') (hp : ∀ t, (s.k.tasks t).tState = .sleep →
        s'.prio t = s.prio t ∨ s.Reprio l t (s'.prio t))

section Chains

variable {s s' : Sys} {L L' : Lists} {l : Label} {k : Kernel}

/-- Tasks are woken, after a change that waiting tasks do not see. -/
theorem chained_of_moved (hk : Moved k s'.k) (hw : k.waiters = s.k.waiters)
    (hp : ∀ t, (s.k.tasks t).tState = .sleep →
      (k.tasks t).tPrio = (s.k.tasks t).tPrio) : Chained s l s' := by
  refine .shrink (fun o => ?_) fun t ht => .inl ((hk.prio t).trans (hp t ht))
  rw [← hw]
  exact hk.chain o

/-- Nobody is woken. -/
theorem chained_of_eq (hw : s'.k.waiters = s.k.waiters) (hp : ∀ t, (s.k.tasks t).tState = .sleep →
      (s'.k.tasks t).tPrio = (s.k.tasks t).tPrio) : Chained s l s' :=
  chained_of_moved (.refl _) hw hp

/-- The running task gets its priority back. Nobody sees it that waits. -/
theorem chained_of_shed {m : Nat} (h : Shed m k s'.k) (hc : (k.tasks k.current).tState = .ready)
    (h0 : k = { s.k with mutexes := k.mutexes } := by rfl) : Chained s l s' := by
  obtain ⟨g, q, hk⟩ := h
  refine chained_of_moved hk ((alike_restored k m k.current).waiters.trans (by rw [h0]))
    fun t ht => ?_
  rw [h0] at hc ⊢
  refine (restored_prio ..).trans (if_neg ?_)
  rintro rfl
  cases hc.symm.trans ht

theorem waiting_waiters (k : Kernel) (o o' : Obj) (timeout : Nat) :
    (k.waiting o timeout).waiters o' = if o' = o then
      insertAt (fun e => decide ((k.tasks k.current).tPrio <
        (k.tasks e).tPrio)) k.current (k.waiters o) else k.waiters o' := by
  have hp : ∀ t, ((setTask k.current (Task.waitOn o) k).tasks t).tPrio =
      (k.tasks t).tPrio := fun t =>
    setTask_field Task.tPrio _ k.current t k (waitOn_prio o _)
  by_cases ho : o' = o
  · subst ho
    show update _ o' _ o' = _
    rw [update_self]
    simp only [hp]
    rfl
  · rw [if_neg ho]
    exact update_of_ne ho _ _

theorem Does.chained (hs : Sane s L) (hd : Does s L l s' L') : Chained s l s' := by
  cases hd with
  | @semBlock n timeout q hpc ht hto =>
    have hp : ∀ t, ((s.k.waiting (.sem n) timeout).tasks t).tPrio =
        (s.k.tasks t).tPrio := waiting_prio s.k (.sem n) timeout
    refine .join (o := .sem n) (hs.ready_user hpc) (fun o' => ?_) fun t _ => .inl (hp t)
    refine (waiting_waiters s.k (.sem n) o' timeout).trans ?_
    simp only [Sys.prio, Sys.goto, Sys.withK, Kernel.withLists, hp]
    rfl
  | @semGrant n rdy W q hpc hW =>
    have hst := setTask_field Task.tState (fun τ => { τ with semWait := false }) rdy rdy s.k rfl
    exact chained_of_moved (moved_woken q (hst.trans (hs.head_asleep hW)))
      rfl fun t _ => setTask_field Task.tPrio (fun τ => { τ with semWait := false }) rdy t s.k rfl
  | semDelete hpc hall => exact chained_of_moved hall.moved rfl fun _ _ => rfl
  | @mutexBlock m timeout owner q L1 hpc hlv ho hne hto hL =>
    have hk := alike_boosted s.k owner
    have hcur : (s.k.boosted owner).current = s.cur := hk.current
    have hp : ∀ t, (((s.k.boosted owner).waiting (.mutex m)
        timeout).tasks t).tPrio = ((s.k.boosted owner).tasks t).tPrio :=
      waiting_prio _ (.mutex m) timeout
    refine .join (o := .mutex m) (hs.ready_user hpc) (fun o' => ?_) fun t _ => ?_
    · refine (waiting_waiters _ (.mutex m) o' timeout).trans ?_
      simp only [Sys.prio, Sys.goto, Sys.withK, Kernel.withLists, hp, hcur, hk.waiters]
    have hpt : (((s.k.boosted owner).waiting (.mutex m)
        timeout).tasks t).tPrio = _ := (hp t).trans (boosted_prio s.k owner t)
    by_cases hb : t = owner ∧ (s.k.tasks s.k.current).tPrio < (s.k.tasks owner).tPrio
    · rw [if_pos hb] at hpt
      obtain ⟨rfl, hlt⟩ := hb
      exact .inr (.inl ⟨m, timeout, rfl, hto, hpc, hlv, ho, hlt, hpt⟩)
    · rw [if_neg hb] at hpt
      exact .inl hpt
  | hand hr _ hW =>
    exact chained_of_shed (shed_handed _ (hs.head_asleep hW)) (Releases.ready hs hr)
  | free hr => exact chained_of_shed (shed_freed ..) (Releases.ready hs hr)
  | windowHand hpc hW =>
    exact chained_of_shed (shed_handed _ (hs.head_asleep hW)) (hs.ready_at hpc rfl)
  | windowFree hpc => exact chained_of_shed (shed_freed ..) (hs.ready_at hpc rfl)
  | @mutexDelete m q k' L1 _ hpc hL hall =>
    have hk := alike_ownerRestored s.k m
    have hmv := hall.moved
    refine .shrink (fun o => ?_) fun t _ => ?_
    · have hc := hmv.chain o
      rwa [show ((s.k.ownerRestored m).withLists q).waiters o =
        s.k.waiters o from congrFun hk.waiters o] at hc
    have hpt : (k'.tasks t).tPrio = ((s.k.ownerRestored m).tasks t).tPrio :=
      hmv.prio t
    unfold Kernel.ownerRestored at hpt
    split at hpt
    · next n o hl ho =>
      rw [restored_prio] at hpt
      split at hpt
      · next hto =>
        subst hto
        exact .inr (.inr ⟨m, rfl, hpc, by rw [hl]; omega, ho, hpt⟩)
      · exact .inl hpt
    · exact .inl hpt
  | @evqGet e got k' _ hpc hg | @evqAgain e got k' _ hpc hg =>
    refine chained_of_eq ?_ fun t _ => hg.prio t
    cases hg <;> rfl
  | evqPut _ hp | post hp => exact chained_of_moved (hp.moved hs) rfl fun _ _ => rfl
  | delay =>
    exact chained_of_eq rfl fun t _ =>
      slept_field Task.tPrio (fun _ _ _ => rfl) s.k _ _ t
  | @taskInit t prio q _ hpc ht =>
    refine chained_of_eq rfl fun b hb => ?_
    have hbt : b ≠ t := by
      rintro rfl
      cases ht.symm.trans hb
    exact congrArg Task.tPrio (update_of_ne hbt _ _)
  | semClear =>
    exact chained_of_eq rfl fun t _ => setTask_field Task.tPrio
      (fun τ => { τ with semWait := false }) _ t s.k rfl
  | mutexClear =>
    exact chained_of_eq rfl fun t _ => setTask_field Task.tPrio
      (fun τ => { τ with mutexWait := false }) _ t s.k rfl
  | tick hall => exact chained_of_moved hall.moved rfl fun _ _ => rfl
  | _ => exact chained_of_eq rfl fun _ _ => rfl

end Chains

/-! ## Waiting, and for how long -/

/-- The tasks that begin to wait with step `n` are noted. -/
def noted (s s' : Sys) (n : Nat) (since : Nat → Nat) (t : Nat) : Nat :=
  if s.obj t = none ∧ s'.obj t ≠ none then n else since t

/-- Runs with the step at which each task began to wait, and the number of
steps. -/
inductive WaitRuns (P : Sys → (Nat → Nat) → Label → Prop) (s₀ : Sys) :
    Sys → (Nat → Nat) → Nat → Prop
  | start : WaitRuns P s₀ s₀ (fun _ => 0) 0
  | step {s s' : Sys} {since : Nat → Nat} {n : Nat} {l : Label}
      (h : WaitRuns P s₀ s since n) (hp : P s since l) (hst : s.step l = some s') :
      WaitRuns P s₀ s' (noted s s' n since) (n + 1)

/-- `a` is more urgent than `b`, or as urgent and waits longer. -/
def Sys.Ahead (s : Sys) (since : Nat → Nat) (a b : Nat) : Prop :=
  s.prio a < s.prio b ∨ s.prio a = s.prio b ∧ since a < since b

/-- A task that is given another priority while it waits keeps its place
among the others that wait with it. -/
def KeepsOrder (s : Sys) (since : Nat → Nat) (l : Label) : Prop :=
  SwitchesToReady s l ∧ ∀ t p o A B, s.Reprio l t p → s.k.waiters o = A ++ t :: B →
    (∀ a ∈ A, s.prio a < p ∨ s.prio a = p ∧ since a < since t) ∧
    ∀ b ∈ B, p < s.prio b ∨ p = s.prio b ∧ since t < since b

structure Ordered (s : Sys) (since : Nat → Nat) (n : Nat) : Prop where
  chain : ∀ o, (s.k.waiters o).Pairwise (s.Ahead since)
  past : ∀ t o, s.obj t = some o → since t < n

section Order

variable {s s' : Sys} {L L' : Lists} {l : Label} {since : Nat → Nat} {n t : Nat} {o : Obj}

theorem Sys.Reprio.unique {t' p p' : Nat} (h : s.Reprio l t p)
    (h' : s.Reprio l t' p') : t = t' := by
  rcases h with ⟨m, _, rfl, -, -, -, ho, -⟩ | ⟨m, rfl, -, -, ho, -⟩
  · rcases h' with ⟨m', _, he, -, -, -, ho', -⟩ | ⟨m', he, -⟩
    · cases he
      exact some.inj (ho.symm.trans ho')
    · cases he
  · rcases h' with ⟨m', _, he, -⟩ | ⟨m', he, -, -, ho', -⟩
    · cases he
    · cases he
      exact some.inj (ho.symm.trans ho')

theorem Sane.mem_waiters (hs : Sane s L) :
    t ∈ s.k.waiters o ↔ s.obj t = some o := hs.waits.chain o t

/-- The chain is in order by the new priorities. -/
theorem Ordered.reprio (h : Ordered s since n) (hs : Sane s L) (hk : KeepsOrder s since l)
    (hp : ∀ t, (s.k.tasks t).tState = .sleep →
      s'.prio t = s.prio t ∨ s.Reprio l t (s'.prio t)) (o : Obj) :
    (s.k.waiters o).Pairwise (s'.Ahead since) := by
  have hsleep : ∀ t ∈ s.k.waiters o, (s.k.tasks t).tState = .sleep :=
    fun t ht => hs.waits.asleep t o (hs.mem_waiters.mp ht)
  by_cases hex : ∃ t ∈ s.k.waiters o, s.Reprio l t (s'.prio t)
  · obtain ⟨t, ht, hre⟩ := hex
    obtain ⟨A, B, hAB⟩ := append_of_mem ht
    obtain ⟨hA, hB⟩ := hk.2 t _ o A B hre hAB
    have hnd := hs.waits.nodup o
    have hc := h.chain o
    have hsame : ∀ a ∈ A ++ B, s'.prio a = s.prio a := by
      intro a ha
      have hmem : a ∈ s.k.waiters o := by
        rw [hAB]
        rcases mem_append.mp ha with ha | ha
        · exact mem_append_left _ ha
        · exact mem_append_right A (mem_cons_of_mem t ha)
      refine (hp a (hsleep a hmem)).resolve_right fun hra => ?_
      obtain rfl := hra.unique hre
      rw [hAB] at hnd
      exact (nodup_cons.mp (nodup_middle.mp hnd)).1 ha
    have hleft : ∀ a ∈ A, s'.prio a = s.prio a := fun a ha =>
      hsame a (mem_append_left B ha)
    have hright : ∀ b ∈ B, s'.prio b = s.prio b := fun b hb =>
      hsame b (mem_append_right A hb)
    rw [hAB] at hc ⊢
    obtain ⟨hcA, hcB, hcross⟩ := pairwise_append.mp hc
    obtain ⟨-, hcB⟩ := pairwise_cons.mp hcB
    refine pairwise_append.mpr ⟨?_, pairwise_cons.mpr ⟨?_, ?_⟩, ?_⟩
    · refine hcA.imp_of_mem fun {a b} ha hb hab => ?_
      rw [Sys.Ahead, hleft a ha, hleft b hb]
      exact hab
    · intro b hb
      rw [Sys.Ahead, hright b hb]
      exact hB b hb
    · refine hcB.imp_of_mem fun {a b} ha hb hab => ?_
      rw [Sys.Ahead, hright a ha, hright b hb]
      exact hab
    · intro a ha b hb
      rcases mem_cons.mp hb with rfl | hb
      · rw [Sys.Ahead, hleft a ha]
        exact hA a ha
      · rw [Sys.Ahead, hleft a ha, hright b hb]
        exact hcross a ha b (mem_cons_of_mem t hb)
  · have hsame : ∀ t ∈ s.k.waiters o, s'.prio t = s.prio t := fun t ht =>
      (hp t (hsleep t ht)).resolve_right fun hre => hex ⟨t, ht, hre⟩
    refine (h.chain o).imp_of_mem fun {a b} ha hb hab => ?_
    rw [Sys.Ahead, hsame a ha, hsame b hb]
    exact hab

theorem noted_waiting (h : s.obj t ≠ none) : noted s s' n since t = since t :=
  if_neg fun hc => h hc.1

/-- A step that keeps the places keeps the order. -/
theorem Ordered.step (h : Ordered s since n) (hs : Sane s L)
    (hk : KeepsOrder s since l) (hd : Does s L l s' L') (hs' : Sane s' L') :
    Ordered s' (noted s s' n since) (n + 1) := by
  have hold : ∀ o, ∀ t ∈ s.k.waiters o, noted s s' n since t = since t := by
    intro o t ht
    refine noted_waiting ?_
    rw [hs.mem_waiters.mp ht]
    exact some_ne_none o
  have hpast : ∀ t o, s'.obj t = some o → noted s s' n since t < n + 1 := by
    intro t o ho
    unfold noted
    split
    · omega
    · next hn =>
      cases hobj : s.obj t with
      | none => exact (hn ⟨hobj, by rw [ho]; simp⟩).elim
      | some o' => exact Nat.lt_succ_of_lt (h.past t o' hobj)
  have hchain : ∀ o, (∀ t, (s.k.tasks t).tState = .sleep →
      s'.prio t = s.prio t ∨ s.Reprio l t (s'.prio t)) →
      (s.k.waiters o).Pairwise (s'.Ahead (noted s s' n since)) := by
    intro o hp
    refine (h.reprio hs hk hp o).imp_of_mem fun {a b} ha hb hab => ?_
    rw [Sys.Ahead, hold o a ha, hold o b hb]
    exact hab
  refine ⟨fun o => ?_, hpast⟩
  cases hd.chained hs with
  | shrink hc hp => exact (hchain o hp).sublist (hc o)
  | @join o0 hcur hc hp =>
    rw [hc o]
    split
    · next ho =>
      subst ho
      have hord := hchain o hp
      have hobj : s.obj s.cur = none := by
        cases hobj : s.obj s.cur with
        | none => rfl
        | some o' => cases hcur.symm.trans (hs.waits.asleep s.cur o' hobj)
      have hobj' : s'.obj s.cur = some o := by
        rw [← hs'.mem_waiters, hc o, if_pos rfl, mem_insertAt]
        exact .inl rfl
      have hnow : noted s s' n since s.cur = n :=
        if_pos ⟨hobj, by rw [hobj']; simp⟩
      refine pairwise_insertAt hord (fun b hb hlow => ?_) fun b hb => ?_
      · have hle := of_decide_eq_false hlow
        have hb' := h.past b o (hs.mem_waiters.mp hb)
        rw [Sys.Ahead, hnow, hold o b hb]
        omega
      · have hlt := picked_of_mem_dropWhile hord (fun b _ c _ hbc hb => ?_) hb
        · exact .inl (of_decide_eq_true hlt)
        · have hb := of_decide_eq_true hb
          refine decide_eq_true ?_
          rcases hbc with hbc | hbc <;> omega
    · exact hchain o hp

theorem WaitRuns.ordered {s0 : Sys} (h0 : Started s0) (hr : WaitRuns KeepsOrder s0 s since n) :
    ∃ L, Sane s L ∧ Ordered s since n := by
  induction hr with
  | start =>
    obtain ⟨L, hs, -⟩ := h0.sane
    have hfr := h0.fresh.1
    refine ⟨L, hs, fun o => ?_, fun t o ht => ?_⟩
    · rw [hfr.waiters o]
      exact .nil
    · rw [← hs.mem_waiters, hfr.waiters o] at ht
      cases ht
  | step _ hp hst ih =>
    obtain ⟨L, hs, hj⟩ := ih
    obtain ⟨L', hd, hl, hw⟩ := step_does hs hp.1 hst
    have hs' := hd.sane hs hl hw
    exact ⟨L', hs', hj.step hs hp hd hs'⟩

end Order

/-! ## The task that is woken -/

/-- The step is `os_mutex_release` or `os_sem_release` on the object. -/
def Sys.Frees (s : Sys) (l : Label) (o : Obj) : Prop :=
  (∃ n, l = .call (.semRelease n) ∧ o = .sem n) ∨ ∃ m, o = .mutex m ∧
    (s.Releases l m ∨ l = .go ∧ s.pc s.cur = .relWindow m)

section Woken

variable {s s' : Sys} {L L' : Lists} {l : Label} {t m : Nat} {o : Obj}

theorem Sys.Frees.ready (h : s.Frees l o) : SwitchesToReady s l := by
  intro next c hl hpc
  rcases h with ⟨n, hl', -⟩ | ⟨m, -, (⟨hl', -⟩ | ⟨-, hpc'⟩) | ⟨-, hpc'⟩⟩
  · rw [hl] at hl'
    cases hl'
  · rw [hl] at hl'
    cases hl'
  all_goals
    rw [hpc] at hpc'
    cases hpc'

/-- A task that stops waiting when another one is woken is that one. -/
theorem eq_of_woken {k : Kernel} {rdy : Nat}
    (ht : (k.tasks t).tObj = some o) (hw : ((k.woken rdy).tasks t).tObj ≠ some o) : t = rdy := by
  by_contra hne
  refine hw ?_
  show (update k.tasks rdy _ t).tObj = _
  rw [update_of_ne hne]
  exact ht

theorem Sys.Frees.eq_mutex (h : s.Frees l o) (hr : s.Releases l m) : o = .mutex m := by
  rcases h with ⟨n, rfl, -⟩ | ⟨m', rfl, h⟩
  · rcases hr with ⟨hl, -⟩ | ⟨hl, -⟩ <;> cases hl
  rcases hr with ⟨rfl, hpc, -⟩ | ⟨rfl, hpc⟩
  · rcases h with (⟨hl, -⟩ | ⟨hl, -⟩) | ⟨hl, -⟩ <;> cases hl
    rfl
  rcases h with (⟨hl, -⟩ | ⟨-, hpc'⟩) | ⟨-, hpc'⟩
  · cases hl
  all_goals
    rw [hpc] at hpc'
    cases hpc'
  rfl

theorem Sys.Frees.eq_window (h : s.Frees .go o) (hpc : s.pc s.cur = .relWindow m) :
    o = .mutex m := by
  rcases h with ⟨n, hl, -⟩ | ⟨m', rfl, (⟨hl, -⟩ | ⟨-, hpc'⟩) | ⟨-, hpc'⟩⟩
  · cases hl
  · cases hl
  all_goals
    rw [hpc] at hpc'
    cases hpc'
  rfl

/-- The calls of a release, and the points from which it goes on. -/
theorem Sys.Frees.label (h : s.Frees l o) :
    (∃ n, l = .call (.semRelease n)) ∨ (∃ m, l = .call (.mutexRelease m)) ∨
    l = .go ∧ ∃ m, s.pc s.cur = .relChecked m ∨ s.pc s.cur = .relWindow m := by
  rcases h with ⟨n, hl, -⟩ | ⟨m, -, (⟨hl, -⟩ | ⟨hl, hpc⟩) | ⟨hl, hpc⟩⟩
  · exact .inl ⟨n, hl⟩
  · exact .inr (.inl ⟨m, hl⟩)
  · exact .inr (.inr ⟨hl, m, .inl hpc⟩)
  · exact .inr (.inr ⟨hl, m, .inr hpc⟩)

theorem Does.woken_head (hd : Does s L l s' L') (hf : s.Frees l o)
    (ht : s.obj t = some o) (hw : s'.obj t ≠ some o) : (s.k.waiters o).head? = some t := by
  cases hd with
  | @semGrant n rdy W q hpc hW =>
    obtain rfl : o = .sem n := by
      rcases hf with ⟨_, hl, rfl⟩ | ⟨m, -, (⟨hl, -⟩ | ⟨hl, -⟩) | ⟨hl, -⟩⟩ <;> cases hl
      rfl
    have hobj : ((setTask rdy (fun τ => { τ with semWait := false })
        s.k).tasks t).tObj = some (.sem n) :=
      (setTask_field Task.tObj (fun τ => { τ with semWait := false }) rdy t s.k rfl).trans ht
    rw [eq_of_woken hobj hw, hW]
    rfl
  | @hand _ m rdy W q _ hr hlv hW =>
    obtain rfl := hf.eq_mutex hr
    have hk := alike_restored (s.k.lowered m) m s.cur
    rw [eq_of_woken ((hk.obj t).trans ht) hw, hW]
    rfl
  | @windowHand m rdy W q _ hpc hW =>
    obtain rfl := hf.eq_window hpc
    have hk := alike_restored s.k m s.cur
    rw [eq_of_woken ((hk.obj t).trans ht) hw, hW]
    rfl
  | @free _ m q _ hr =>
    have hk := alike_restored (s.k.lowered m) m s.cur
    exact (hw ((hk.obj t).trans ht)).elim
  | @windowFree m q _ hpc =>
    have hk := alike_restored s.k m s.cur
    exact (hw ((hk.obj t).trans ht)).elim
  | semAdd | notOwned | unnest => exact (hw ht).elim
  | _ =>
    rcases hf.label with ⟨n, hl⟩ | ⟨m, hl⟩ | ⟨hl, m, hp | hp⟩ <;> cases hl <;> simp_all

end Woken

/-- In every run in which no waiting task is moved past others by a change of
its priority, the task that a release wakes is the most urgent of those that
wait for the mutex or the semaphore, and among equally urgent ones the one
that has waited longest. -/
theorem wakes_most_urgent {s₀ s s' : Sys} {since : Nat → Nat} {n t w : Nat}
    {l : Label} {o : Obj} (h₀ : Started s₀)
    (hr : WaitRuns KeepsOrder s₀ s since n) (hf : s.Frees l o)
    (hst : s.step l = some s') (ht : (s.k.tasks t).tObj = some o)
    (hwoken : (s'.k.tasks t).tObj ≠ some o) (hw : (s.k.tasks w).tObj = some o) :
    (s.k.tasks t).tPrio < (s.k.tasks w).tPrio ∨
      (s.k.tasks t).tPrio = (s.k.tasks w).tPrio ∧ since t ≤ since w := by
  obtain ⟨L, hs, hord⟩ := hr.ordered h₀
  obtain ⟨L', hd, -, -⟩ := step_does hs hf.ready hst
  have hhead := hd.woken_head hf ht hwoken
  obtain ⟨W, hW⟩ : ∃ W, s.k.waiters o = t :: W := by
    cases hl : s.k.waiters o with
    | nil =>
      rw [hl] at hhead
      cases hhead
    | cons a W =>
      rw [hl] at hhead
      exact ⟨W, by rw [some.inj hhead]⟩
  have hmem : w ∈ s.k.waiters o := hs.mem_waiters.mpr hw
  have hc := hord.chain o
  rw [hW] at hmem hc
  rcases mem_cons.mp hmem with rfl | hmem
  · exact .inr ⟨rfl, le_refl _⟩
  · exact ((pairwise_cons.mp hc).1 w hmem).imp_right fun h =>
      ⟨h.1, le_of_lt h.2⟩

/-! ## Written out -/

/-- A run, with the waiting times noted. -/
theorem Runs.noted {P : Sys → Label → Prop}
    {Q : Sys → (Nat → Nat) → Label → Prop} {s0 s : Sys} (h : Runs P s0 s)
    (hPQ : ∀ s since l, P s l → Q s since l) : ∃ since n, WaitRuns Q s0 s since n := by
  induction h with
  | start => exact ⟨_, _, .start⟩
  | step _ hp hst ih =>
    obtain ⟨since, n, ih⟩ := ih
    exact ⟨_, _, ih.step (hPQ _ since _ hp) hst⟩

/-- A test that is enough for `KeepsOrder`: no mutex lends a priority. -/
def lendsNone (s : Sys) (l : Label) : Bool :=
  switchReady s l &&
    match l with
    | .call (.mutexPend m _) =>
      (s.owner m).all fun t => decide (s.prio t ≤ s.prio s.cur)
    | .call (.mutexDelete _) => false
    | _ => true

theorem lendsNone_sound (s : Sys) (since : Nat → Nat) (l : Label)
    (h : lendsNone s l = true) : KeepsOrder s since l := by
  simp only [lendsNone, Bool.and_eq_true] at h
  refine ⟨switchReady_sound s l h.1, fun t p o A B hp _ => ?_⟩
  rcases hp with ⟨m, timeout, rfl, -, -, -, ho, hlt, -⟩ | ⟨m, rfl, -⟩
  · have h2 := h.2
    simp only [ho, all_some, decide_eq_true_eq] at h2
    omega
  · simp at h

/-- Tasks 1 and 2 wait for a semaphore, which task 0 is about to release. -/
def queuedUp : List Label :=
  [.call (.semPend 0 osTimeoutNever), .go, .go, .call (.semPend 0 osTimeoutNever), .go, .go]

theorem wakes_most_urgent_queuedUp : ∃ since n, WaitRuns KeepsOrder threeTasks
        (threeTasks.after lendsNone queuedUp) since n ∧
      (((threeTasks.after lendsNone queuedUp).k.tasks 1).tPrio <
          ((threeTasks.after lendsNone queuedUp).k.tasks 2).tPrio ∨
        ((threeTasks.after lendsNone queuedUp).k.tasks 1).tPrio =
            ((threeTasks.after lendsNone queuedUp).k.tasks 2).tPrio ∧ since 1 ≤ since 2) := by
  have hr : Runs (fun s l => lendsNone s l = true) threeTasks
      (threeTasks.after lendsNone queuedUp) :=
    runs_after (fun _ _ h => h) (by decide +kernel)
  obtain ⟨since, n, hw⟩ := hr.noted lendsNone_sound
  exact ⟨since, n, hw, wakes_most_urgent threeTasks_started hw (.inl ⟨0, rfl, rfl⟩)
    (eq_some_getD (threeTasks.after lendsNone queuedUp) (by decide +kernel))
    (by decide +kernel) (by decide +kernel) (by decide +kernel)⟩

/-- Task 2 is the most urgent one, then task 1, then task 0. -/
def fourTasks : Sys :=
  (boot noTokens 0 [(0, 9), (1, 5), (2, 1), (3, 12)]).getD (.zero noTokens 0)

theorem fourTasks_started : Started fourTasks :=
  started_getD (by decide +kernel) (by simp [noTokens]) (by decide)

/-- Task 2 sleeps for two ticks. Task 1 waits for the semaphore, then task 0
takes the mutex and waits for the semaphore behind task 1. Task 2 wakes up
and waits for the mutex, which lends its priority to task 0. -/
def lentAsleep : List Label :=
  [.call (.delay 2), .go, .go, .call (.semPend 0 osTimeoutNever), .go, .go,
    .call (.mutexPend 1 osTimeoutNever), .call (.semPend 0 osTimeoutNever),
    .go, .go, .tick, .tick, .preempt 2, .go, .call (.mutexPend 1 osTimeoutNever), .go, .go]

/-- Task 3 releases the semaphore and wakes task 1, while task 0 has the most
urgent priority of all and goes on waiting. -/
theorem lentAsleep_wakes_other : Started fourTasks ∧ ∃ s s', Runs (fun _ _ => True) fourTasks s ∧
      s.step (.call (.semRelease 0)) = some s' ∧
      (s.k.tasks 1).tObj = some (.sem 0) ∧ (s'.k.tasks 1).tObj = none ∧
      (s.k.tasks 0).tObj = some (.sem 0) ∧ (s.k.tasks 0).tPrio = 1 ∧ (s.k.tasks 1).tPrio = 5 :=
  ⟨fourTasks_started, fourTasks.after (fun _ _ => true) lentAsleep, _,
    runs_after (fun _ _ _ => trivial) (by decide +kernel),
    eq_some_getD (fourTasks.after (fun _ _ => true) lentAsleep) (by decide +kernel),
    by decide +kernel, by decide +kernel, by decide +kernel, by decide +kernel, by decide +kernel⟩

end Larva.Os
