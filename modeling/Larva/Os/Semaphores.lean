import Larva.Os.Frames
import Larva.Os.Switching
import Mathlib.Data.Finset.Card

/-!
# Tokens are conserved

A release puts a token into the semaphore or hands it to the first waiter, by
clearing the flag of the waiter and waking it. The waiter takes notice when it
runs again, so at any time there are tokens in flight: those of tasks that are
in `os_sem_pend` and have their flag cleared. A timeout wakes a task without
clearing the flag.

The balance is kept by every step but two. A switch to a task that sleeps lets
that task find its flag set and leave `os_sem_pend` while it is still on the
chain of waiters; the next release hands it a token that nobody takes. And the
tokens are counted in 16 bits, so a release can lose all of them. The first is
ruled out by `SwitchesToReady`, the second by a bound on the tokens before a
release that nobody waits for.
-/

namespace Larva.Os

open TailQ Function

/-- The task has been handed a token and has not returned from
`os_sem_pend`. -/
def Sys.Granted (s : Sys) (n t : Nat) : Prop :=
  (s.pc t).onSem = some n ∧ (s.k.tasks t).semWait = false

instance (s : Sys) (n : Nat) : DecidablePred (s.Granted n) :=
  fun _ => inferInstanceAs (Decidable (_ ∧ _))

/-- How many pends will return `OS_OK` for a grant already made. -/
def Sys.pending (s : Sys) (n : Nat) : Nat :=
  (s.k.taskList.toFinset.filter (s.Granted n)).card

/-- A step by which a pend times out: it is not to wait and there is no token,
or it finds its flag set, or it returns for that reason. -/
def Sys.TimesOut (s : Sys) (n : Nat) (l : Label) : Prop :=
  (l = .call (.semPend n 0) ∧ s.k.semTokens n = 0) ∨
  (l = .go ∧ s.pc s.cur = .resume (.semPend n) ∧ (s.k.tasks s.cur).semWait = true) ∨
  (l = .go ∧ s.pc s.cur = .semTimedOut n)

/-- The semaphore is not deleted, and a release that nobody waits for finds
room in the counter. -/
def TokensFit (n : Nat) (s : Sys) (l : Label) : Prop :=
  SwitchesToReady s l ∧ l ≠ .call (.semDelete n) ∧
  (l = .call (.semRelease n) → s.k.waiters (.sem n) = [] → s.k.semTokens n + 1 < 2 ^ 16)

/-- The balance, and what carries it: a task that sleeps in `os_sem_pend` has
its flag set. -/
structure Balanced (c n : Nat) (s : Sys) : Prop where
  sum : c + s.releases n = s.k.semTokens n + s.grants n + s.pending n
  apart : s.k.waiters (.sem n) = [] ∨ s.k.semTokens n = 0
  flagged : ∀ t n', (s.k.tasks t).tState = .sleep →
    (s.pc t).onSem = some n' → (s.k.tasks t).semWait = true

/-! ## Counting -/

section Count

variable {s s' : Sys} {n : Nat}

theorem pending_congr (hl : ∀ t, t ∈ s.k.taskList ∧ s.Granted n t ↔
      t ∈ s'.k.taskList ∧ s'.Granted n t) : s'.pending n = s.pending n := by
  unfold Sys.pending
  congr 1
  ext t
  simp only [Finset.mem_filter, List.mem_toFinset]
  exact (hl t).symm

/-- One task is granted a token. -/
theorem pending_succ {t : Nat} (hl : s'.k.taskList = s.k.taskList)
    (ht : t ∈ s.k.taskList) (hno : ¬ s.Granted n t) (hyes : s'.Granted n t)
    (hrest : ∀ b, b ≠ t → (s'.Granted n b ↔ s.Granted n b)) : s'.pending n = s.pending n + 1 := by
  have hins : s'.k.taskList.toFinset.filter (s'.Granted n) =
      insert t (s.k.taskList.toFinset.filter (s.Granted n)) := by
    ext b
    simp only [Finset.mem_filter, Finset.mem_insert, List.mem_toFinset, hl]
    by_cases hb : b = t
    · subst hb
      simp [ht, hyes]
    · simp [hb, hrest b hb]
  unfold Sys.pending
  rw [hins]
  exact Finset.card_insert_of_notMem (by simp [hno])

end Count

section Step

variable {c n t n₀ : Nat} {s s' : Sys} {L L' : Lists} {q : TailQ ListId Nat} {p : Pc}

theorem Balanced.of_kept (hb : Balanced c n s)
    (hknown : ∀ t, (s.k.tasks t).tState = .sleep → t ∈ s.k.taskList)
    (hk : SemKept s s') : Balanced c n s' := by
  have hpend : s'.pending n = s.pending n := by
    refine pending_congr fun t => ?_
    constructor
    · rintro ⟨ht, hg⟩
      obtain ⟨ht', hf, hpc⟩ := hk.task t ht
      exact ⟨ht', by rw [Sys.Granted, hpc, hf]; exact hg⟩
    rintro ⟨ht', hg⟩
    rcases hk.fresh t ht' with ht | hno
    · obtain ⟨_, hf, hpc⟩ := hk.task t ht
      exact ⟨ht, by rw [Sys.Granted, ← hpc, ← hf]; exact hg⟩
    · rw [Sys.Granted, hno] at hg
      cases hg.1
  refine ⟨?_, ?_, fun t n' hs hpc => ?_⟩
  · rw [hk.releases, hk.tokens, hk.grants, hpend]
    exact hb.sum
  · rw [hk.tokens]
    refine hb.apart.imp_left fun hW => ?_
    have hsub := hk.chain n
    rw [hW] at hsub
    exact List.sublist_nil.mp hsub
  · rcases hk.asleep t hs with hs' | hno
    · obtain ⟨_, hf, hpc'⟩ := hk.task t (hknown t hs')
      rw [hf]
      exact hb.flagged t n' hs' (hpc'.symm.trans hpc)
    · rw [hno] at hpc
      cases hpc

/-- The chain a waiter is on names the call it is in. -/
theorem Sane.onSem_of_waiter (h : Sane s L) (ht : t ∈ s.k.waiters (.sem n)) :
    (s.pc t).onSem = some n := by
  have ho := (h.waits.chain _ _).mp ht
  obtain ⟨c, hc, hobj, _⟩ := h.parked t (h.waits.asleep t _ ho)
  rw [ho] at hobj
  cases c with
  | semPend n' =>
    obtain rfl : n' = n := by simpa [Cont.obj] using hobj
    cases hpc : s.pc t <;> rw [hpc] at hc <;> cases hc <;> rfl
  | _ => cases hobj

/-- Granted tasks are told apart by their point and their flag. -/
theorem granted_congr (hpc : (s'.pc t).onSem = (s.pc t).onSem)
    (hf : (s'.k.tasks t).semWait = (s.k.tasks t).semWait) : s'.Granted n t ↔ s.Granted n t := by
  rw [Sys.Granted, hpc, hf]
  rfl

theorem not_granted (hpc : (s.pc t).onSem = none) : ¬ s.Granted n t := by
  rintro ⟨hn, _⟩
  rw [hpc] at hn
  cases hn

theorem not_granted_of_flag (hf : (s.k.tasks t).semWait = true) : ¬ s.Granted n t := by
  rintro ⟨_, hn⟩
  rw [hf] at hn
  cases hn

/-- Nobody is granted a token, and nobody takes one. -/
theorem pending_same (hl : s'.k.taskList = s.k.taskList)
    (hg : ∀ t, s'.Granted n t ↔ s.Granted n t) :
    s'.pending n = s.pending n :=
  pending_congr fun t => by rw [hl, hg]

/-- A task that is granted none before and after does not count. -/
theorem pending_but (t₀ : Nat) (hl : s'.k.taskList = s.k.taskList) (h' : ¬ s'.Granted n t₀)
    (h : ¬ s.Granted n t₀) (hg : ∀ t, t ≠ t₀ → (s'.Granted n t ↔ s.Granted n t)) :
    s'.pending n = s.pending n := by
  refine pending_same hl fun t => ?_
  by_cases ht : t = t₀
  · subst ht
    exact iff_of_false h' h
  · exact hg t ht

theorem Balanced.semBlock {timeout : Nat} (hb : Balanced c n s) (hpc : s.pc s.cur = .user)
    (htok : s.k.semTokens n₀ = 0) :
    Balanced c n ((s.withK ((s.k.waiting (.sem n₀) timeout).withLists q)).goto
      s.cur (.sched none (.semPend n₀))) := by
  have hself := waiting_self s.k (.sem n₀) timeout
  have hrest := fun b => waiting_rest s.k (.sem n₀) timeout (b := b)
  have hpcr : ∀ b, b ≠ s.cur → update s.pc s.cur
      (.sched none (.semPend n₀)) b = s.pc b := fun b hb =>
    update_of_ne hb _ _
  have hflag := congrArg Task.semWait hself
  have hpend : ((s.withK ((s.k.waiting (.sem n₀) timeout).withLists q)).goto
      s.cur (.sched none (.semPend n₀))).pending n = s.pending n :=
    pending_but s.cur rfl (not_granted_of_flag hflag) (not_granted (by rw [hpc]; rfl)) fun t ht =>
      granted_congr (congrArg Pc.onSem (hpcr t ht)) (congrArg Task.semWait (hrest t ht))
  refine ⟨?_, ?_, fun t n' hs hp => ?_⟩
  · rw [hpend]
    exact hb.sum
  · by_cases hn : n = n₀
    · subst hn
      exact .inr htok
    · refine hb.apart.imp_left fun hW => ?_
      simpa [Sys.goto, Sys.withK, Kernel.withLists, Kernel.waiting,
        Kernel.slept, setTask, enqueue, setWaiters, hn] using hW
  · by_cases ht : t = s.cur
    · subst ht
      exact hflag
    · have hs' := (congrArg Task.tState (hrest t ht)).symm.trans hs
      have hp' := (congrArg Pc.onSem (hpcr t ht)).symm.trans hp
      exact (congrArg Task.semWait (hrest t ht)).trans (hb.flagged t n' hs' hp')

theorem Balanced.semGrant {rdy : Nat} {W : List Nat} {r : Resched} (hb : Balanced c n s)
    (h : Sane s L) (hpc : s.pc s.cur = .user) (hW : s.k.waiters (.sem n₀) = rdy :: W) :
    Balanced c n (((s.withK ((s.k.granted rdy).withLists q)).countRelease
      n₀).finish s.cur r .returned) := by
  have hm : rdy ∈ s.k.waiters (.sem n₀) := by rw [hW]; exact List.mem_cons_self
  have hself := granted_self s.k rdy q
  have hrest : ∀ b, b ≠ rdy → ((s.k.granted rdy).withLists q).tasks b =
      s.k.tasks b := fun b => granted_rest s.k q
  have hpoint : ∀ t, (((s.withK ((s.k.granted rdy).withLists q)).finish s.cur r
      .returned).pc t).onSem = (s.pc t).onSem :=
    point_finish Pc.onSem (by rw [hpc])
  have hg : ∀ b, b ≠ rdy → (((s.withK ((s.k.granted rdy).withLists q)).finish
      s.cur r .returned).Granted n b ↔ s.Granted n b) := fun b hbr =>
    granted_congr (hpoint b) (congrArg Task.semWait (hrest b hbr))
  have hsem := h.onSem_of_waiter hm
  have hsl := h.head_asleep hW
  have hno : ¬ s.Granted n rdy :=
    not_granted_of_flag (hb.flagged rdy n₀ hsl hsem)
  have hpend : ((s.withK ((s.k.granted rdy).withLists q)).finish s.cur r
      .returned).pending n = s.pending n + if n = n₀ then 1 else 0 := by
    split
    · next hn =>
      subst hn
      exact pending_succ rfl ((h.listed.known rdy).mpr (by simp [hsl])) hno
        ⟨(hpoint rdy).trans hsem, congrArg Task.semWait hself⟩ hg
    · next hn =>
      refine pending_but rdy rfl (fun hgt => ?_) hno hg
      exact hn (Option.some.inj (hgt.1.symm.trans ((hpoint rdy).trans hsem)))
  refine ⟨?_, ?_, fun t n' hs hp => ?_⟩
  · have hsum := hb.sum
    show c + update s.releases n₀ (s.releases n₀ + 1) n = s.k.semTokens n + s.grants n +
        ((s.withK ((s.k.granted rdy).withLists q)).finish s.cur r .returned).pending n
    rw [hpend]
    by_cases hn : n = n₀
    · subst hn
      rw [update_self, if_pos rfl]
      omega
    · rw [update_of_ne hn, if_neg hn]
      exact hsum
  · refine hb.apart.imp_left fun h0 => ?_
    have hsub := (moved_woken (k := setTask rdy (fun τ => { τ with semWait := false }) s.k) q (by
        rw [setTask_field Task.tState _ rdy rdy s.k rfl]
        exact hsl)).chain (.sem n)
    exact List.sublist_nil.mp (h0 ▸ hsub)
  · by_cases ht : t = rdy
    · subst ht
      cases (congrArg Task.tState hself).symm.trans hs
    · have hs' := (congrArg Task.tState (hrest t ht)).symm.trans hs
      exact (congrArg Task.semWait (hrest t ht)).trans
        (hb.flagged t n' hs' ((hpoint t).symm.trans hp))

/-- The running task leaves `os_sem_pend`. -/
theorem left_point (hpc : s'.pc = update s.pc s.cur p) {b : Nat} (hb : b ≠ s.cur) :
    (s'.pc b).onSem = (s.pc b).onSem := by
  rw [hpc, update_of_ne hb]

theorem left_not_granted (hpc : s'.pc = update s.pc s.cur p) (hp : p.onSem = none) :
    ¬ s'.Granted n s.cur := by
  refine not_granted ?_
  rw [hpc, update_self]
  exact hp

theorem Balanced.left_flagged (hb : Balanced c n s) (hc : (s.k.tasks s.cur).tState = .ready)
    (hpc : s'.pc = update s.pc s.cur p) (hst : ∀ t, (s'.k.tasks t).tState = (s.k.tasks t).tState)
    (hf : ∀ t, t ≠ s.cur → (s'.k.tasks t).semWait = (s.k.tasks t).semWait) (t n' : Nat)
    (hs : (s'.k.tasks t).tState = .sleep) (hp : (s'.pc t).onSem = some n') :
    (s'.k.tasks t).semWait = true := by
  rw [hst] at hs
  have ht : t ≠ s.cur := by
    rintro rfl
    cases hc.symm.trans hs
  rw [hf t ht]
  exact hb.flagged t n' hs ((left_point hpc ht).symm.trans hp)

theorem Balanced.step {l : Label} (hb : Balanced c n s) (h : Sane s L)
    (hp : TokensFit n s l) (hd : Does s L l s' L') : Balanced c n s' := by
  have hknown : ∀ t, (s.k.tasks t).tState = .sleep → t ∈ s.k.taskList := by
    intro t hs
    rw [h.listed.known, hs]
    decide
  by_cases ht : ∀ n, s.touches l ≠ some (.sem n)
  · exact hb.of_kept hknown (hd.semKept h ht)
  have hcur : s.cur ∈ s.k.taskList := (h.listed.known _).mpr h.alive
  have hsum := hb.sum
  cases hd with
  | @semTake n0 timeout hpc htok =>
    refine ⟨?_, ?_, hb.flagged⟩
    · show c + s.releases n = update s.k.semTokens n0
        (s.k.semTokens n0 - 1) n + update s.grants n0 (s.grants n0 + 1) n + s.pending n
      by_cases hn : n = n0
      · subst hn
        rw [update_self, update_self]
        omega
      · rw [update_of_ne hn, update_of_ne hn]
        exact hsum
    · refine hb.apart.imp_right fun h0 => ?_
      show update s.k.semTokens n0 (s.k.semTokens n0 - 1) n = 0
      by_cases hn : n = n0
      · subst hn
        exact (htok h0).elim
      · rw [update_of_ne hn]
        exact h0
  | semBusy => exact hb
  | semBlock hpc htok => exact hb.semBlock hpc htok
  | semGrant hpc hW => exact hb.semGrant h hpc hW
  | @semAdd n0 hpc hW =>
    have hpend : ((s.countRelease n0).goto s.cur .user).pending n =
        s.pending n := pending_same rfl fun t =>
      granted_congr (point_goto Pc.onSem (by rw [hpc]) t rfl) rfl
    refine ⟨?_, ?_, fun t n' hs hp' => hb.flagged t n' hs
      ((point_goto Pc.onSem (by rw [hpc]) t rfl).symm.trans hp')⟩
    · show c + update s.releases n0 (s.releases n0 + 1) n =
        update s.k.semTokens n0 ((s.k.semTokens n0 + 1) % 2 ^ 16) n +
          s.grants n + ((s.countRelease n0).goto s.cur .user).pending n
      rw [hpend]
      by_cases hn : n = n0
      · subst hn
        have hlt := hp.2.2 rfl hW
        rw [update_self, update_self, Nat.mod_eq_of_lt hlt]
        omega
      · rw [update_of_ne hn, update_of_ne hn]
        exact hsum
    · by_cases hn : n = n0
      · subst hn
        exact .inl hW
      · refine hb.apart.imp_right fun h0 => ?_
        show update s.k.semTokens n0 _ n = 0
        rw [update_of_ne hn]
        exact h0
  | @semDelete n0 r k' _ hpc hall =>
    have hn : n ≠ n0 := by
      rintro rfl
      exact hp.2.1 rfl
    have hb1 : Balanced c n (s.withK (setTokens n0 (fun _ => 0) s.k)) := by
      have htok : (setTokens n0 (fun _ => 0) s.k).semTokens n =
          s.k.semTokens n := update_of_ne hn _ _
      refine ⟨?_, ?_, hb.flagged⟩
      · show _ = (setTokens n0 (fun _ => 0) s.k).semTokens n + _ + _
        rw [htok]
        exact hsum
      · show _ ∨ (setTokens n0 (fun _ => 0) s.k).semTokens n = 0
        rw [htok]
        exact hb.apart
    exact hb1.of_kept hknown (.of_moved hall.moved (point_finish (s := s) Pc.onSem (by rw [hpc])))
  | @semGot n0 hpc hw =>
    have hg : s.Granted n s.cur ↔ n = n0 := by
      rw [Sys.Granted, hpc, hw]
      exact ⟨fun he => (Option.some.inj he.1).symm, fun he => ⟨he ▸ rfl, rfl⟩⟩
    have hother : ∀ b, b ≠ s.cur → (s.Granted n b ↔
        ((s.countGrant n0).goto s.cur .user).Granted n b) := fun b hbc =>
      Iff.symm (granted_congr (left_point rfl hbc) rfl)
    have hpend : s.pending n = ((s.countGrant n0).goto s.cur .user).pending n
        + if n = n0 then 1 else 0 := by
      split
      · next hn =>
        exact pending_succ rfl hcur (left_not_granted rfl rfl) (hg.mpr hn) hother
      · next hn =>
        exact pending_but s.cur rfl (fun he => hn (hg.mp he)) (left_not_granted rfl rfl) hother
    refine ⟨?_, hb.apart, hb.left_flagged (h.ready_resume hpc) rfl (fun _ => rfl) fun _ _ => rfl⟩
    show c + s.releases n = s.k.semTokens n + update s.grants n0
      (s.grants n0 + 1) n + ((s.countGrant n0).goto s.cur .user).pending n
    rw [hsum, hpend]
    by_cases hn : n = n0
    · subst hn
      rw [update_self, if_pos rfl]
      omega
    · rw [update_of_ne hn, if_neg hn]
      omega
  | @semLate n0 hpc hw =>
    have hpend : (s.goto s.cur (.semTimedOut n0)).pending n = s.pending n :=
      pending_but s.cur rfl (left_not_granted rfl rfl) (not_granted_of_flag hw) fun t ht =>
        granted_congr (left_point rfl ht) rfl
    refine ⟨?_, hb.apart, hb.left_flagged (h.ready_resume hpc) rfl (fun _ => rfl) fun _ _ => rfl⟩
    rw [hpend]
    exact hsum
  | @semClear n0 hpc =>
    have hf : ∀ t, t ≠ s.cur → ((setTask s.cur
        (fun τ => { τ with semWait := false }) s.k).tasks t).semWait =
        (s.k.tasks t).semWait := fun t ht =>
      congrArg Task.semWait (update_of_ne ht _ _)
    have hpend : ((s.withK (setTask s.cur (fun τ => { τ with semWait := false }) s.k)).goto s.cur
        .user).pending n = s.pending n :=
      pending_but s.cur rfl (left_not_granted rfl rfl) (not_granted (by rw [hpc]; rfl)) fun t ht =>
        granted_congr (left_point rfl ht) (hf t ht)
    refine ⟨?_, hb.apart, hb.left_flagged (h.ready_at hpc rfl) rfl
      (fun t => setTask_field Task.tState
        (fun τ => { τ with semWait := false }) s.cur t s.k rfl) hf⟩
    rw [hpend]
    exact hsum
  | @done c hpc hc =>
    cases c <;> grind [Sys.touches, Pc.touched, Cont.obj]
  | _ => grind [Sys.touches, Pc.touched, Sys.Releases]

end Step

/-! ## Over a run -/

theorem Started.balanced {s : Sys} (h : Started s) (n : Nat) : Balanced (s.k.semTokens n) n s := by
  have hfr := h.fresh.1
  have hpend : s.pending n = 0 := by
    refine Finset.card_eq_zero.mpr (Finset.filter_eq_empty_iff.mpr fun t _ => ?_)
    exact not_granted (by rw [hfr.pc]; rfl)
  refine ⟨?_, .inl (hfr.waiters _), fun t n' hs => ((hfr.task t).1 hs).elim⟩
  rw [hpend, (hfr.counts n).1, (hfr.counts n).2]

theorem timesOut_keeps {s s' : Sys} {L L' : Lists} {l : Label} {n : Nat}
    (ht : s.TimesOut n l) (hd : Does s L l s' L') :
    s'.k.semTokens n = s.k.semTokens n ∧ s'.grants n = s.grants n ∧
      s'.releases n = s.releases n := by
  rcases ht with ⟨rfl, h0⟩ | ⟨rfl, hpc, hw⟩ | ⟨rfl, hpc⟩
  · cases hd with
    | semTake _ hne => exact (hne h0).elim
    | semBusy | semBlock => exact ⟨rfl, rfl, rfl⟩
    | notOwned _ hl => simp at hl
    | unnest hr | hand hr | free hr => simp [Sys.Releases] at hr
  · cases hd with
    | semLate => exact ⟨rfl, rfl, rfl⟩
    | _ => grind [Sys.Releases, Cont.obj]
  · cases hd with
    | semClear => exact ⟨rfl, rfl, rfl⟩
    | _ => grind [Sys.Releases]

/-- The initial count and the releases are in the semaphore, were given to
pends that have returned, or are in flight; tokens and waiters are never both
present; and a pend that times out takes nothing. -/
theorem tokens_conserved {s₀ s : Sys} (n : Nat) (h₀ : Started s₀) (hr : Runs (TokensFit n) s₀ s) :
    s₀.k.semTokens n + s.releases n = s.k.semTokens n + s.grants n + s.pending n ∧
      (s.k.waiters (.sem n) = [] ∨ s.k.semTokens n = 0) ∧
      ∀ l s', TokensFit n s l → s.TimesOut n l → s.step l = some s' →
        s'.k.semTokens n = s.k.semTokens n ∧ s'.grants n = s.grants n ∧
        s'.pending n = s.pending n := by
  obtain ⟨L, hs, hb⟩ := hr.invariant (J := fun s _ => Balanced _ n s) h₀
    (fun _ _ _ _ _ hp => hp.1) (fun _ _ _ => h₀.balanced n)
    (fun _ _ _ _ _ hs hj hp hd _ => hj.step hs hp hd)
  refine ⟨hb.sum, hb.apart, fun l s' hp ht hst => ?_⟩
  obtain ⟨L', hd, _, _⟩ := step_does hs hp.1 hst
  obtain ⟨htok, hgr, hrel⟩ := timesOut_keeps ht hd
  have hsum := hb.sum
  have hsum' := (hb.step hs hp hd).sum
  exact ⟨htok, hgr, by omega⟩

/-- `TokensFit`, as a test. -/
def tokensFit (n : Nat) (s : Sys) (l : Label) : Bool :=
  switchReady s l && decide (l ≠ .call (.semDelete n)) && (decide (l ≠ .call (.semRelease n)) ||
      decide (s.k.waiters (.sem n) ≠ []) || decide (s.k.semTokens n + 1 < 2 ^ 16))

theorem tokensFit_sound {n : Nat} (s : Sys) (l : Label)
    (h : tokensFit n s l = true) : TokensFit n s l := by
  simp only [tokensFit, Bool.and_eq_true, Bool.or_eq_true, decide_eq_true_eq] at h
  refine ⟨switchReady_sound s l h.1.1, h.1.2, fun hl hW => ?_⟩
  rcases h.2 with (hne | hne) | hlt
  · exact (hne hl).elim
  · exact (hne hW).elim
  · exact hlt

/-- Task 1 is handed the token of the release and has not run yet. -/
theorem tokens_conserved_direct : noTokens 0 + (twoTasks.after (tokensFit 0) direct).releases 0 =
        (twoTasks.after (tokensFit 0) direct).k.semTokens 0 +
        (twoTasks.after (tokensFit 0) direct).grants 0 +
        (twoTasks.after (tokensFit 0) direct).pending 0 ∧
      (twoTasks.after (tokensFit 0) direct).pending 0 = 1 := by
  have hr : Runs (TokensFit 0) twoTasks
      (twoTasks.after (tokensFit 0) direct) :=
    runs_after tokensFit_sound (by decide +kernel)
  exact ⟨(tokens_conserved 0 twoTasks_started hr).1, by decide +kernel⟩

/-- A system with one task whose semaphores are full. -/
def fullTokens : Sys := (boot (fun _ => 65535) 0 [(0, 5)]).getD (.zero noTokens 0)

theorem fullTokens_started : Started fullTokens :=
  started_getD (by decide +kernel) (by simp) (by decide)

/-- After the stale switch task 1 leaves `os_sem_pend` without a token. It is
still on the chain and is handed the token of its own release, which nobody
takes. With a full counter one release loses all tokens. -/
theorem tokens_lost : (Started twoTasks ∧ ∃ s, Runs (fun _ _ => True) twoTasks s ∧
      twoTasks.k.semTokens 0 + s.releases 0 ≠ s.k.semTokens 0 + s.grants 0 + s.pending 0) ∧
    Started fullTokens ∧ ∃ s, Runs (fun _ _ => True) fullTokens s ∧
      fullTokens.k.semTokens 0 + s.releases 0 ≠ s.k.semTokens 0 + s.grants 0 + s.pending 0 := by
  constructor
  · exact ⟨twoTasks_started, twoTasks.after (fun _ _ => true)
        (stale ++ [.go, .go, .go, .call (.semRelease 0)]),
      runs_after (fun _ _ _ => trivial) (by decide +kernel), by decide +kernel⟩
  · exact ⟨fullTokens_started, fullTokens.after (fun _ _ => true) [.call (.semRelease 0)],
      runs_after (fun _ _ _ => trivial) (by decide +kernel), by decide +kernel⟩

end Larva.Os
