import Larva.Os.Frames
import Larva.Os.Switching

/-!
# One holder at a time

`held m t` counts how often task `t` was told `OS_OK` by `os_mutex_pend` and
has not released since. The claim of a mutex is that at most one task has a
count above zero, and that `mu_owner` and `mu_level` say which one and how
much. The only other thing they can say is that the mutex was handed over:
the new owner has been woken, and its `os_mutex_pend` is about to return.

What breaks this is in `os_mutex_release`. The level is taken to zero outside
the critical section that passes the mutex on. A task that is preempted in
between leaves behind a mutex that looks free: another task takes it, and the
first one then gives it away. The run `gap` does so. The other way to break
the count is to nest `2 ^ 16` times, since the level has 16 bits.
-/

namespace Larva.Os

open TailQ Function Option

/-- No interrupt comes in after a release has taken the level to zero and
before it passes the mutex on, and the level is not nested to overflow. -/
def NoGap (m : Nat) (s : Sys) (l : Label) : Prop :=
  SwitchesToReady s l ∧
  (l = .goCut → s.pc s.cur = .relChecked m → (s.k.mutexes m).muLevel ≠ 1) ∧
  ∀ timeout, l = .call (.mutexPend m timeout) → (s.k.mutexes m).muOwner = some s.cur →
    (s.k.mutexes m).muLevel + 1 ≠ 2 ^ 16

/-- The task was handed the mutex and its pend has not returned. -/
def Sys.HandedTo (s : Sys) (m t : Nat) : Prop :=
  ((s.pc t).onMutex m = some .pend ∨ (s.pc t).onMutex m = some .woken) ∧
    (s.k.tasks t).tState ≠ .sleep

structure Owned (m : Nat) (s : Sys) : Prop where
  bound : (s.k.mutexes m).muLevel < 2 ^ 16
  free : (s.k.mutexes m).muLevel = 0 ↔ (s.k.mutexes m).muOwner = none
  alive : ∀ t, (s.k.mutexes m).muOwner = some t → (s.k.tasks t).tState ≠ .clear
  others : ∀ t, (s.k.mutexes m).muOwner ≠ some t → s.held m t = 0
  owner : ∀ t, (s.k.mutexes m).muOwner = some t → s.held m t = (s.k.mutexes m).muLevel ∧
      ((s.pc t).onMutex m = none ∨ (s.pc t).onMutex m = some .checked) ∨
    s.held m t = 0 ∧ (s.k.mutexes m).muLevel = 1 ∧ s.HandedTo m t
  checked : ∀ t, (s.pc t).onMutex m = some .checked → (s.k.mutexes m).muOwner = some t
  window : ∀ t, (s.pc t).onMutex m ≠ some .window

section Step

variable {m : Nat} {s s' : Sys} {L L' : Lists}

theorem Owned.of_kept (h : Owned m s) (hk : MutexKept m s s') : Owned m s' := by
  have hpc : ∀ t, (s.k.tasks t).tState ≠ .clear →
      (s'.pc t).onMutex m = (s.pc t).onMutex m := fun t ht =>
    (hk.pc t).resolve_right fun hc => ht hc.1
  have hin : ∀ t p, (s'.pc t).onMutex m = some p → (s.pc t).onMutex m = some p := by
    intro t p hp
    rcases hk.pc t with hs | ⟨_, hn⟩
    · exact hs.symm.trans hp
    · rw [hn] at hp
      cases hp
  constructor
  · rw [hk.mutexes]
    exact h.bound
  · rw [hk.mutexes]
    exact h.free
  · intro t ho
    rw [hk.mutexes] at ho
    exact hk.alive t (h.alive t ho)
  · intro t ho
    rw [hk.mutexes] at ho
    rw [hk.held]
    exact h.others t ho
  · intro t ho
    rw [hk.mutexes] at ho ⊢
    rw [hk.held, Sys.HandedTo, hpc t (h.alive t ho)]
    refine (h.owner t ho).imp_right fun ⟨hh, hl, hp, hs⟩ =>
      ⟨hh, hl, hp, fun hs' => ?_⟩
    rcases hk.asleep t hs' with hsl | hn
    · exact hs hsl
    · rw [hpc t (h.alive t ho)] at hn
      rw [hn] at hp
      rcases hp with hp | hp <;> cases hp
  · intro t hp
    rw [hk.mutexes]
    exact h.checked t (hin t _ hp)
  · exact fun t hp => h.window t (hin t _ hp)

/-- Nothing happens to the other tasks. -/
structure OthersKept (m : Nat) (s s' : Sys) : Prop where
  pc : ∀ t, t ≠ s.cur → s'.pc t = s.pc t
  held : ∀ t, t ≠ s.cur → s'.held m t = s.held m t
  state : ∀ t, t ≠ s.cur → (s'.k.tasks t).tState = (s.k.tasks t).tState

/-- The running task moves on, and the owner stays. -/
theorem Owned.of_cur (h : Owned m s) (ho : OthersKept m s s')
    (howner : (s'.k.mutexes m).muOwner = (s.k.mutexes m).muOwner)
    (hbound : (s'.k.mutexes m).muLevel < 2 ^ 16)
    (hfree : (s'.k.mutexes m).muLevel = 0 ↔ (s.k.mutexes m).muLevel = 0)
    (hcur : (s'.k.tasks s.cur).tState ≠ .clear) (hmine : (s.k.mutexes m).muOwner = some s.cur →
      s'.held m s.cur = (s'.k.mutexes m).muLevel ∧ ((s'.pc s.cur).onMutex m = none ∨
          (s'.pc s.cur).onMutex m = some .checked) ∨
      s'.held m s.cur = 0 ∧ (s'.k.mutexes m).muLevel = 1 ∧ s'.HandedTo m s.cur)
    (htheirs : (s.k.mutexes m).muOwner ≠ some s.cur →
      (s'.k.mutexes m).muLevel = (s.k.mutexes m).muLevel ∧
      s'.held m s.cur = 0 ∧ (s'.pc s.cur).onMutex m ≠ some .checked)
    (hwin : (s'.pc s.cur).onMutex m ≠ some .window) : Owned m s' := by
  constructor
  · exact hbound
  · rw [howner, hfree]
    exact h.free
  · intro t ht
    rw [howner] at ht
    by_cases htc : t = s.cur
    · rw [htc]
      exact hcur
    · rw [ho.state t htc]
      exact h.alive t ht
  · intro t ht
    rw [howner] at ht
    by_cases htc : t = s.cur
    · subst htc
      exact (htheirs ht).2.1
    · rw [ho.held t htc]
      exact h.others t ht
  · intro t ht
    rw [howner] at ht
    by_cases htc : t = s.cur
    · subst htc
      exact hmine ht
    · have hne : (s.k.mutexes m).muOwner ≠ some s.cur := by
        rw [ht]
        exact fun he => htc (some.inj he)
      rw [(htheirs hne).1, ho.held t htc, Sys.HandedTo, ho.pc t htc, ho.state t htc]
      exact h.owner t ht
  · intro t hp
    rw [howner]
    by_cases htc : t = s.cur
    · subst htc
      by_contra hne
      exact (htheirs hne).2.2 hp
    · rw [ho.pc t htc] at hp
      exact h.checked t hp
  · intro t
    by_cases htc : t = s.cur
    · rw [htc]
      exact hwin
    · rw [ho.pc t htc]
      exact h.window t

variable {t : Nat} {l : Label} {r : Resched} {q : TailQ ListId Nat}

theorem Owned.level_ne_zero (h : Owned m s) (ho : (s.k.mutexes m).muOwner = some t) :
    (s.k.mutexes m).muLevel ≠ 0 := by
  intro h0
  rw [h.free.mp h0] at ho
  cases ho

/-- An owner that is not in `os_mutex_pend` holds what the level says. -/
theorem Owned.held_eq (h : Owned m s) (ho : (s.k.mutexes m).muOwner = some t)
    (hp : (s.pc t).onMutex m = none ∨ (s.pc t).onMutex m = some .checked) :
    s.held m t = (s.k.mutexes m).muLevel := by
  rcases h.owner t ho with ⟨hh, _⟩ | ⟨_, _, hp', _⟩
  · exact hh
  · rcases hp with hp | hp <;> rw [hp] at hp' <;> simp at hp'

/-- A task that releases is the owner. -/
theorem Owned.releases (h : Owned m s) (hr : s.Releases l m) :
    (s.k.mutexes m).muOwner = some s.cur ∧ s.held m s.cur = (s.k.mutexes m).muLevel := by
  rcases hr with ⟨_, hpc, _, ho⟩ | ⟨_, hpc⟩
  · exact ⟨ho, h.held_eq ho (.inl (by rw [hpc]; rfl))⟩
  · have hp : (s.pc s.cur).onMutex m = some .checked := by
      rw [hpc]
      exact if_pos rfl
    exact ⟨h.checked _ hp, h.held_eq (h.checked _ hp) (.inr hp)⟩

/-- What a release does to the level. -/
theorem lowered_level (k : Kernel) (hb : (k.mutexes m).muLevel < 2 ^ 16)
    (h0 : (k.mutexes m).muLevel ≠ 0) :
    ((k.lowered m).mutexes m).muLevel = (k.mutexes m).muLevel - 1 := by
  have hl : ((k.lowered m).mutexes m).muLevel =
      ((k.mutexes m).muLevel + (2 ^ 16 - 1)) % 2 ^ 16 := by
    simp [Kernel.lowered, setMutex]
  omega

theorem lowered_owner (k : Kernel) : ((k.lowered m).mutexes m).muOwner = (k.mutexes m).muOwner := by
  simp [Kernel.lowered, setMutex]

theorem setHeld_self (t : Nat) (f : Nat → Nat) : (s.setHeld m t f).held m t = f (s.held m t) := by
  simp [Sys.setHeld]

theorem setHeld_rest {b : Nat} (f : Nat → Nat) (hb : b ≠ t) :
    (s.setHeld m t f).held m b = s.held m b := by
  simp [Sys.setHeld, hb]

theorem Owned.take (h : Owned m s) (hs : Sane s L)
    (hpc : s.pc s.cur = .user) (hlv : (s.k.mutexes m).muLevel = 0) : Owned m ((s.withK (setMutex m
      (fun _ => ⟨(s.k.tasks s.cur).tPrio, 1, some s.cur⟩) s.k)).setHeld m s.cur (· + 1)) := by
  have hnone := h.free.mp hlv
  have hmu : ((s.withK (setMutex m
      (fun _ => ⟨(s.k.tasks s.cur).tPrio, 1, some s.cur⟩) s.k)).setHeld m s.cur
        (· + 1)).k.mutexes m = ⟨(s.k.tasks s.cur).tPrio, 1, some s.cur⟩ :=
    update_self _ _ _
  have h0 : ∀ t, s.held m t = 0 := fun t => h.others t (by rw [hnone]; simp)
  have hself : s.held m s.cur + 1 = 1 := by rw [h0]
  refine ⟨?_, ?_, fun t ht => ?_, fun t ht => ?_, fun t ht => ?_, fun t hp => ?_, h.window⟩
  · rw [hmu]
    exact Nat.one_lt_two_pow (by decide)
  · rw [hmu]
    simp
  · have ht' := (congrArg Mutex.muOwner hmu).symm.trans ht
    rw [← some.inj ht']
    exact hs.alive
  · have htc : t ≠ s.cur := by
      rintro rfl
      exact ht (congrArg Mutex.muOwner hmu)
    exact (setHeld_rest (· + 1) htc).trans (h0 t)
  · have ht' := (congrArg Mutex.muOwner hmu).symm.trans ht
    obtain rfl := some.inj ht'
    refine .inl ⟨?_, .inl (by show (s.pc s.cur).onMutex m = none; rw [hpc]; rfl)⟩
    exact ((setHeld_self s.cur (· + 1)).trans hself).trans (congrArg Mutex.muLevel hmu).symm
  · have ho := h.checked t hp
    rw [hnone] at ho
    cases ho

theorem goto_user_onMutex (m : Nat) (s : Sys) :
    (update s.pc s.cur .user s.cur).onMutex m = none := by
  rw [update_self]
  rfl

/-- The level drops and is not zero yet. -/
theorem Owned.unnest (h : Owned m s) (hs : Sane s L)
    (hr : s.Releases l m) (hlv : ((s.k.lowered m).mutexes m).muLevel ≠ 0) :
    Owned m (((s.withK (s.k.lowered m)).setHeld m s.cur (· - 1)).goto s.cur .user) := by
  obtain ⟨ho, hh⟩ := h.releases hr
  have hne := h.level_ne_zero ho
  have hlow := lowered_level s.k h.bound hne
  have hb := h.bound
  have hheld := setHeld_self (m := m) (s := s) s.cur (· - 1)
  have hpt := goto_user_onMutex m s
  refine h.of_cur ⟨fun t ht => update_of_ne ht _ _, fun t ht =>
    setHeld_rest (· - 1) ht, fun _ _ => rfl⟩ (lowered_owner s.k) ?_ ?_
    hs.alive (fun _ => .inl ⟨?_, .inl hpt⟩) (fun hn => (hn ho).elim) ?_
  · show ((s.k.lowered m).mutexes m).muLevel < _
    omega
  · exact iff_of_false hlv hne
  · refine hheld.trans ?_
    show s.held m s.cur - 1 = ((s.k.lowered m).mutexes m).muLevel
    rw [hlow, hh]
  · exact fun he => by cases hpt.symm.trans he

/-- After a release that leaves the mutex, nobody is behind its test. -/
theorem Owned.none_checked (h : Owned m s)
    (ho : (s.k.mutexes m).muOwner = some s.cur) (ht : t ≠ s.cur) :
    (s.pc t).onMutex m ≠ some .checked := by
  intro hp
  rw [h.checked t hp] at ho
  exact ht (some.inj ho)

theorem finish_onMutex : ((s.finish s.cur r .returned).pc s.cur).onMutex m = none := by
  cases r with
  | none => exact goto_user_onMutex m s
  | some next =>
    show (update s.pc s.cur (.sched next .returned) s.cur).onMutex m = none
    rw [update_self]
    rfl

/-- The mutex passes from the running task to another one or to nobody. -/
theorem Owned.passed (h : Owned m s) {k' : Kernel} {prio : Nat}
    {o : Option Nat} (ho : (s.k.mutexes m).muOwner = some s.cur) (hh : s.held m s.cur = 1)
    (hmu : k'.mutexes m = ⟨prio, if o = none then 0 else 1, o⟩)
    (hnew : ∀ t, o = some t → t ≠ s.cur ∧ (k'.tasks t).tState = .ready ∧
      (s.pc t).onMutex m = some .pend) :
    Owned m (((s.withK k').setHeld m s.cur (· - 1)).finish s.cur r .returned) := by
  have hmu' : (((s.withK k').setHeld m s.cur (· - 1)).finish s.cur r
      .returned).k.mutexes m = ⟨prio, if o = none then 0 else 1, o⟩ := hmu
  have hpc : ∀ t, t ≠ s.cur → (((s.withK k').setHeld m s.cur (· - 1)).finish
      s.cur r .returned).pc t = s.pc t := finish_pc
  have hcur : ((((s.withK k').setHeld m s.cur (· - 1)).finish s.cur r
      .returned).pc s.cur).onMutex m = none := finish_onMutex
  refine ⟨?_, ?_, fun t ht => ?_, fun t ht => ?_, fun t ht => ?_, fun t hp => ?_, fun t hp => ?_⟩
  · rw [hmu']
    cases o <;> simp
  · rw [hmu']
    cases o <;> simp
  · rw [hmu'] at ht
    have hst := (hnew t ht).2.1
    show (k'.tasks t).tState ≠ _
    rw [hst]
    decide
  · by_cases htc : t = s.cur
    · rw [htc]
      exact (setHeld_self (s := s) s.cur (· - 1)).trans (by rw [hh])
    · refine (setHeld_rest (· - 1) htc).trans (h.others t ?_)
      rw [ho]
      exact fun he => htc (some.inj he).symm
  · rw [hmu'] at ht ⊢
    obtain ⟨htc, hst, hp⟩ := hnew t ht
    have ht' : o = some t := ht
    have hold : (s.k.mutexes m).muOwner ≠ some t := by
      rw [ho]
      exact fun he => htc (some.inj he).symm
    refine .inr ⟨?_, by simp [ht'], .inl (by rw [hpc t htc]; exact hp), ?_⟩
    · exact (setHeld_rest (· - 1) htc).trans (h.others t hold)
    · show (k'.tasks t).tState ≠ _
      rw [hst]
      decide
  · by_cases htc : t = s.cur
    · rw [htc, hcur] at hp
      cases hp
    · rw [hpc t htc] at hp
      exact (h.none_checked ho htc hp).elim
  · by_cases htc : t = s.cur
    · rw [htc, hcur] at hp
      cases hp
    · rw [hpc t htc] at hp
      exact h.window t hp

/-- The chain of a mutex names the call its waiters are in. -/
theorem Sane.onMutex_of_waiter (h : Sane s L)
    (ht : t ∈ s.k.waiters (.mutex m)) : (s.pc t).onMutex m = some .pend := by
  have ho := (h.waits.chain _ _).mp ht
  obtain ⟨c, hc, hobj, _⟩ := h.parked t (h.waits.asleep t _ ho)
  rw [ho] at hobj
  cases c with
  | mutexPend m' =>
    obtain rfl : m' = m := by simpa [Cont.obj] using hobj
    cases hpc : s.pc t <;> rw [hpc] at hc <;> cases hc <;> exact if_pos rfl
  | _ => cases hobj

variable (h : Owned m s)
include h

section Last

variable (hr : s.Releases l m) (hlv : ((s.k.lowered m).mutexes m).muLevel = 0)
include hr hlv

theorem Owned.last_release : (s.k.mutexes m).muOwner = some s.cur ∧ s.held m s.cur = 1 := by
  obtain ⟨ho, hh⟩ := h.releases hr
  have hne := h.level_ne_zero ho
  have hlow := lowered_level s.k h.bound hne
  exact ⟨ho, by omega⟩

theorem Owned.hand (hs : Sane s L) {rdy : Nat} {W : List Nat}
    (hW : s.k.waiters (.mutex m) = rdy :: W) : Owned m (((s.withK (((s.k.lowered m).handed m rdy).withLists q)).setHeld
      m s.cur (· - 1)).finish s.cur r .returned) := by
  obtain ⟨ho, hh⟩ := h.last_release hr hlv
  have hm : rdy ∈ s.k.waiters (.mutex m) := by rw [hW]; exact List.mem_cons_self
  refine h.passed (o := some rdy) ho hh (update_self _ _ _) fun t ht => ?_
  obtain rfl := some.inj ht
  refine ⟨fun he => ?_, handed_self _ m rdy, hs.onMutex_of_waiter hm⟩
  have hsl := hs.head_asleep hW
  rw [he, Releases.ready hs hr] at hsl
  cases hsl

theorem Owned.freed : Owned m (((s.withK (((s.k.lowered m).freed m).withLists q)).setHeld
      m s.cur (· - 1)).finish s.cur r .returned) := by
  obtain ⟨ho, hh⟩ := h.last_release hr hlv
  have hmu : (((s.k.lowered m).freed m).withLists q).mutexes m =
      ⟨((s.k.lowered m).mutexes m).muPrio,
        if (none : Option Nat) = none then 0 else 1, none⟩ := by
    rw [if_pos rfl, ← hlv]
    have hk := alike_restored (s.k.lowered m) m s.cur
    rw [← congrFun hk.mutexes m]
    exact update_self _ _ _
  exact h.passed ho hh hmu fun t ht => by cases ht

end Last

theorem Owned.nest (hs : Sane s L) (hpc : s.pc s.cur = .user)
    (ho : (s.k.mutexes m).muOwner = some s.cur) (hlt : (s.k.mutexes m).muLevel + 1 ≠ 2 ^ 16) :
    Owned m ((s.withK (setMutex m (fun mu =>
      { mu with muLevel := (mu.muLevel + 1) % 2 ^ 16 }) s.k)).setHeld m s.cur (· + 1)) := by
  have hb := h.bound
  have hlv : ((setMutex m (fun mu => { mu with
      muLevel := (mu.muLevel + 1) % 2 ^ 16 }) s.k).mutexes m).muLevel =
      (s.k.mutexes m).muLevel + 1 := by
    rw [← Nat.mod_eq_of_lt (show (s.k.mutexes m).muLevel + 1 < 2 ^ 16 by omega)]
    simp [setMutex]
  have hpt : (s.pc s.cur).onMutex m = none := by
    rw [hpc]
    rfl
  have hh := h.held_eq ho (.inl hpt)
  refine h.of_cur ⟨fun _ _ => rfl, fun t ht => setHeld_rest (· + 1) ht,
    fun _ _ => rfl⟩ ?_ ?_ ?_ hs.alive (fun _ => .inl ⟨?_, .inl hpt⟩)
    (fun hn => (hn ho).elim) (h.window s.cur)
  · simp [Sys.setHeld, Sys.withK, setMutex]
  · exact lt_of_eq_of_lt hlv (by omega)
  · exact iff_of_false (ne_of_eq_of_ne hlv (by omega)) (h.level_ne_zero ho)
  · rw [hh.symm] at hlv
    exact (setHeld_self s.cur (· + 1)).trans hlv.symm

theorem Owned.block {timeout owner : Nat}
    (ho : (s.k.mutexes m).muOwner = some owner) (hne : owner ≠ s.cur) :
    Owned m ((s.withK (((s.k.boosted owner).waiting (.mutex m)
      timeout).withLists q)).goto s.cur (.sched none (.mutexPend m))) := by
  have hk := alike_boosted s.k owner
  have hcur : (s.k.boosted owner).current = s.cur := hk.current
  have hmu := congrFun hk.mutexes m
  have hself := waiting_self (s.k.boosted owner) (.mutex m) timeout
  rw [hcur] at hself
  have hoc : (s.k.mutexes m).muOwner ≠ some s.cur := by
    rw [ho]
    exact fun he => hne (some.inj he)
  have hpt : (update s.pc s.cur (.sched none (.mutexPend m)) s.cur).onMutex m = some .pend := by
    rw [update_self]
    exact if_pos rfl
  refine h.of_cur ⟨fun t ht => update_of_ne ht _ _, fun _ _ => rfl,
    fun t ht => ?_⟩ (congrArg Mutex.muOwner hmu)
    (lt_of_eq_of_lt (congrArg Mutex.muLevel hmu) h.bound) ?_ ?_
    (fun he => (hoc he).elim) (fun _ => ⟨congrArg Mutex.muLevel hmu,
      h.others _ hoc, fun he => ?_⟩) fun he => ?_
  · rw [← hcur] at ht
    exact (congrArg Task.tState (waiting_rest _ (.mutex m) timeout ht)).trans
      (hk.state t)
  · exact Eq.congr (congrArg Mutex.muLevel hmu) rfl
  · exact fun hc => by cases (congrArg Task.tState hself).symm.trans hc
  · cases hpt.symm.trans he
  · cases hpt.symm.trans he

/-- The running task goes to another point, and nothing else happens. -/
theorem Owned.of_goto (hs : Sane s L) {p : Pc}
    (hk : s'.k.mutexes m = s.k.mutexes m) (hheld : s'.held m = s.held m)
    (hst : ∀ t, (s'.k.tasks t).tState = (s.k.tasks t).tState)
    (hpc : s'.pc = update s.pc s.cur p) (hmine : (s.k.mutexes m).muOwner = some s.cur →
      s.held m s.cur = (s.k.mutexes m).muLevel ∧
        (p.onMutex m = none ∨ p.onMutex m = some .checked) ∨
      s.held m s.cur = 0 ∧ (s.k.mutexes m).muLevel = 1 ∧
        (p.onMutex m = some .pend ∨ p.onMutex m = some .woken) ∧ (s.k.tasks s.cur).tState ≠ .sleep)
    (htheirs : (s.k.mutexes m).muOwner ≠ some s.cur → p.onMutex m ≠ some .checked)
    (hwin : p.onMutex m ≠ some .window) : Owned m s' := by
  have hp : s'.pc s.cur = p := by rw [hpc, update_self]
  refine h.of_cur ⟨fun t ht => by rw [hpc, update_of_ne ht],
    fun t _ => by rw [hheld], fun t _ => hst t⟩ (by rw [hk]) (by rw [hk]; exact
    h.bound) (by rw [hk]) (by rw [hst]; exact hs.alive) (fun ho => ?_)
    (fun ho => ?_) (by rw [hp]; exact hwin)
  · rw [hk, hheld, Sys.HandedTo, hp, hst]
    exact hmine ho
  · rw [hk, hheld, hp]
    exact ⟨rfl, h.others _ ho, htheirs ho⟩

/-- A pend returns with the mutex it was handed. -/
theorem Owned.got (hs : Sane s L) (hpc : s.pc s.cur = .mutexWoken m)
    (ho : (s.k.mutexes m).muOwner = some s.cur) :
    Owned m ((s.setHeld m s.cur (· + 1)).goto s.cur .user) := by
  have hpt : (s.pc s.cur).onMutex m = some .woken := by
    rw [hpc]
    exact if_pos rfl
  have hnew := goto_user_onMutex m s
  refine h.of_cur ⟨fun t ht => update_of_ne ht _ _,
    fun t ht => setHeld_rest (· + 1) ht, fun _ _ => rfl⟩ rfl h.bound
    Iff.rfl hs.alive (fun _ => .inl ⟨?_, .inl hnew⟩) (fun hn => (hn ho).elim) fun he => ?_
  · rcases h.owner _ ho with ⟨_, hp | hp⟩ | ⟨hh, hl, _, _⟩
    · cases hpt.symm.trans hp
    · cases hpt.symm.trans hp
    · refine (setHeld_self s.cur (· + 1)).trans ?_
      rw [hh]
      exact hl.symm
  · cases hnew.symm.trans he

/-- The level is not taken to zero with interrupts on. -/
theorem Owned.not_cut (hp : NoGap m s .goCut) (hpc : s.pc s.cur = .relChecked m) :
    ((s.k.lowered m).mutexes m).muLevel ≠ 0 := by
  have hr : s.Releases .go m := .inr ⟨rfl, hpc⟩
  have hne := h.level_ne_zero (h.releases hr).1
  have hlow := lowered_level s.k h.bound hne
  have h1 := hp.2.1 rfl hpc
  omega

theorem Owned.not_window (t : Nat) : s.pc t ≠ .relWindow m := by
  intro hpc
  exact h.window t (by rw [hpc]; exact if_pos rfl)

theorem Owned.step (hs : Sane s L) (hp : NoGap m s l) (hd : Does s L l s' L') : Owned m s' := by
  by_cases ht : s.touches l = some (.mutex m)
  case neg => exact h.of_kept (hd.mutexKept hs ht)
  cases hd with
  | mutexTake hpc hlv =>
    cases ht
    exact h.take hs hpc hlv
  | mutexNest hpc hlv ho =>
    cases ht
    exact h.nest hs hpc ho (hp.2.2 _ rfl ho)
  | mutexBusy | notOwned => exact h
  | mutexBlock hpc hlv ho hne =>
    cases ht
    exact h.block ho hne
  | checked hpc hlv ho =>
    cases ht
    have hpt : (s.pc s.cur).onMutex m = none := by
      rw [hpc]
      rfl
    exact h.of_goto hs rfl rfl (fun _ => rfl) rfl
      (fun _ => .inl ⟨h.held_eq ho (.inl hpt), .inr (if_pos rfl)⟩)
      (fun hn => (hn ho).elim) (by simp [Pc.onMutex])
  | unnest hr hlv =>
    cases (Releases.touches hr).symm.trans ht
    exact h.unnest hs hr hlv
  | hand hr hlv hW =>
    cases (Releases.touches hr).symm.trans ht
    exact h.hand hr hlv hs hW
  | free hr hlv =>
    cases (Releases.touches hr).symm.trans ht
    exact h.freed hr hlv
  | cutNested hpc hlv =>
    cases (congrArg Pc.touched hpc).symm.trans ht
    exact h.unnest hs (.inr ⟨rfl, hpc⟩) hlv
  | cut hpc hlv =>
    cases (congrArg Pc.touched hpc).symm.trans ht
    exact (h.not_cut hp hpc hlv).elim
  | windowHand hpc | windowFree hpc =>
    cases (congrArg Pc.touched hpc).symm.trans ht
    exact (h.not_window s.cur hpc).elim
  | mutexDelete hpc hL hall => exact h.of_kept (.of_delete hpc hall)
  | mutexClear hpc =>
    cases (congrArg Pc.touched hpc).symm.trans ht
    have hpt : (s.pc s.cur).onMutex m = some .pend := by
      rw [hpc]
      exact if_pos rfl
    refine h.of_goto hs rfl rfl (fun t => setTask_field Task.tState
      (fun τ => { τ with mutexWait := false }) s.cur t s.k rfl) rfl
      (fun ho => .inr ?_) (fun _ => by simp [Pc.onMutex]) (by simp [Pc.onMutex])
    rcases h.owner _ ho with ⟨_, hp' | hp'⟩ | ⟨hh, hl, _, hst⟩
    · cases hpt.symm.trans hp'
    · cases hpt.symm.trans hp'
    · exact ⟨hh, hl, .inr (if_pos rfl), hst⟩
  | mutexGot hpc ho =>
    cases (congrArg Pc.touched hpc).symm.trans ht
    exact h.got hs hpc ho
  | mutexLate hpc ho =>
    cases (congrArg Pc.touched hpc).symm.trans ht
    exact h.of_goto hs rfl rfl (fun _ => rfl) rfl (fun he => (ho he).elim)
      (fun _ => by simp [Pc.onMutex]) (by simp [Pc.onMutex])
  | @done c hpc hc =>
    cases c <;> grind [Sys.touches, Pc.touched, Cont.obj]
  | _ => grind [Sys.touches, Pc.touched]

end Step

/-! ## Over a run -/

theorem Started.owned {s : Sys} (h : Started s) (m : Nat) : Owned m s := by
  have hfr := h.fresh.1
  have hpt : ∀ t, (s.pc t).onMutex m = none := fun t => by rw [hfr.pc]; rfl
  constructor
  · rw [hfr.mutexes]
    exact Nat.two_pow_pos 16
  · rw [hfr.mutexes]
    exact iff_of_true rfl rfl
  · intro t ho
    rw [hfr.mutexes] at ho
    cases ho
  · exact fun t _ => hfr.held m t
  · intro t ho
    rw [hfr.mutexes] at ho
    cases ho
  · intro t hp
    rw [hpt] at hp
    cases hp
  · intro t hp
    rw [hpt] at hp
    cases hp

/-- At most one task holds the mutex, `mu_owner` names it and `mu_level` is
its count. When nobody does, the mutex is free or on its way to the task it
was handed to. -/
theorem mutex_excludes {s₀ s : Sys} (m : Nat) (h₀ : Started s₀) (hr : Runs (NoGap m) s₀ s) :
    (∀ t t', 0 < s.held m t → 0 < s.held m t' → t = t') ∧
      (∀ t, 0 < s.held m t → (s.k.mutexes m).muOwner = some t ∧
        (s.k.mutexes m).muLevel = s.held m t) ∧ ((∀ t, s.held m t = 0) →
        ((s.k.mutexes m).muLevel = 0 ∧ (s.k.mutexes m).muOwner = none) ∨
        ∃ t, (s.k.mutexes m).muOwner = some t ∧ (s.k.mutexes m).muLevel = 1 ∧ s.HandedTo m t) := by
  obtain ⟨L, hs, hj⟩ := hr.invariant (J := fun s _ => Owned m s) h₀
    (fun _ _ _ _ _ hp => hp.1) (fun _ _ _ => h₀.owned m)
    (fun _ _ _ _ _ hs hj hp hd _ => hj.step hs hp hd)
  have howner : ∀ t, 0 < s.held m t → (s.k.mutexes m).muOwner = some t := by
    intro t ht
    by_contra hne
    rw [hj.others t hne] at ht
    cases ht
  refine ⟨fun t t' ht ht' => ?_, fun t ht => ⟨howner t ht, ?_⟩, fun h0 => ?_⟩
  · exact some.inj ((howner t ht).symm.trans (howner t' ht'))
  · rcases hj.owner t (howner t ht) with ⟨hh, _⟩ | ⟨hh, _⟩
    · exact hh.symm
    · omega
  · cases ho : (s.k.mutexes m).muOwner with
    | none => exact .inl ⟨hj.free.mpr ho, rfl⟩
    | some t =>
      rcases hj.owner t ho with ⟨hh, _⟩ | ⟨_, hl, hg⟩
      · exact (hj.level_ne_zero ho (hh.symm.trans (h0 t))).elim
      · exact .inr ⟨t, rfl, hl, hg⟩

/-- A mutex that no step is about stays free. -/
theorem untouched_free {s0 s : Sys} (m : Nat) (h0 : Started s0)
    (hr : Runs (fun s l => SwitchesToReady s l ∧ s.touches l ≠ some (.mutex m)) s0 s) :
    (s.k.mutexes m).muOwner = none ∧ ∀ t, s.held m t = 0 := by
  obtain ⟨L, _, hj⟩ := hr.invariant
    (J := fun s _ => (s.k.mutexes m).muOwner = none ∧ ∀ t, s.held m t = 0) h0
    (fun _ _ _ _ _ hp => hp.1) (fun _ _ _ => ⟨by rw [h0.fresh.1.mutexes], h0.fresh.1.held m⟩)
    (fun _ _ _ _ _ hs hj hp hd _ => by
      have hk := hd.mutexKept hs hp.2
      rw [hk.mutexes, hk.held]
      exact hj)
  exact hj

/-- The step is about one of the first mutexes, or about none. -/
def touchesBelow (n : Nat) (s : Sys) (l : Label) : Bool :=
  switchReady s l &&
    match s.touches l with
    | some (.mutex m) => decide (m < n)
    | _ => true

theorem touchesBelow_sound {n m : Nat} (hm : n ≤ m) (s : Sys) (l : Label)
    (h : touchesBelow n s l = true) : SwitchesToReady s l ∧ s.touches l ≠ some (.mutex m) := by
  simp only [touchesBelow, Bool.and_eq_true] at h
  refine ⟨switchReady_sound s l h.1, fun ht => ?_⟩
  have h2 := h.2
  simp only [ht, decide_eq_true_eq] at h2
  omega

/-- `NoGap`, as a test. -/
def noGap (m : Nat) (s : Sys) (l : Label) : Bool :=
  switchReady s l && (decide (l ≠ .goCut) || decide (s.pc s.cur ≠ .relChecked m) ||
      decide ((s.k.mutexes m).muLevel ≠ 1)) &&
    match l with
    | .call (.mutexPend m' _) => decide (m' ≠ m) || decide ((s.k.mutexes m).muOwner ≠ some s.cur) ||
        decide ((s.k.mutexes m).muLevel + 1 ≠ 2 ^ 16)
    | _ => true

theorem noGap_sound {m : Nat} (s : Sys) (l : Label) (h : noGap m s l = true) : NoGap m s l := by
  simp only [noGap, Bool.and_eq_true, Bool.or_eq_true, decide_eq_true_eq] at h
  refine ⟨switchReady_sound s l h.1.1, fun hl hpc => ?_, ?_⟩
  · rcases h.1.2 with (hne | hne) | hlv
    · exact (hne hl).elim
    · exact (hne hpc).elim
    · exact hlv
  · rintro timeout rfl ho
    have h2 := h.2
    simp only [Bool.or_eq_true, decide_eq_true_eq] at h2
    rcases h2 with (hne | hne) | hlv
    · exact (hne rfl).elim
    · exact (hne ho).elim
    · exact hlv

/-- Task 1 sleeps, task 0 takes the mutex, task 1 waits for it and is handed
it. -/
def handOn : List Label :=
  [.call (.delay 1), .go, .go, .call (.mutexPend 0 osTimeoutNever), .tick,
    .preempt 1, .go, .call (.mutexPend 0 osTimeoutNever), .go, .go, .call (.mutexRelease 0)]

theorem mutex_excludes_handOn : (twoTasks.after (noGap 0) handOn).held 0 0 = 0 ∧
      ((twoTasks.after (noGap 0) handOn).k.mutexes 0).muOwner = some 1 ∧
      ∀ t, 0 < (twoTasks.after (noGap 0) handOn).held 0 t →
        ((twoTasks.after (noGap 0) handOn).k.mutexes 0).muOwner = some t := by
  have hr : Runs (NoGap 0) twoTasks (twoTasks.after (noGap 0) handOn) :=
    runs_after noGap_sound (by decide +kernel)
  exact ⟨by decide +kernel, by decide +kernel, fun t ht =>
    ((mutex_excludes 0 twoTasks_started hr).2.1 t ht).1⟩

/-- Task 1 is the most urgent one, then task 2. -/
def threeTasks : Sys :=
  (boot noTokens 0 [(0, 5), (1, 1), (2, 2)]).getD (.zero noTokens 0)

theorem threeTasks_started : Started threeTasks :=
  started_getD (by decide +kernel) (by simp [noTokens]) (by decide)

/-- Tasks 1 and 2 sleep for a tick. Task 0 takes the mutex, takes the level
back to zero and is preempted. Task 1 takes the mutex and goes to sleep with
it, task 2 waits for it, and task 0 goes on and hands it to task 2. -/
def gap : List Label :=
  [.call (.delay 1), .go, .go, .call (.delay 1), .go, .go,
    .call (.mutexPend 0 osTimeoutNever), .checkRelease 0, .goCut, .tick,
    .preempt 1, .go, .call (.mutexPend 0 osTimeoutNever), .call (.delay 5),
    .go, .go, .go, .call (.mutexPend 0 osTimeoutNever), .go, .go, .go,
    .call (.delay 5), .go, .go, .go, .go]

/-- Tasks 1 and 2 both hold the mutex. -/
theorem gap_breaks_exclusion : Started threeTasks ∧ ∃ s, Runs (fun _ _ => True) threeTasks s ∧
      s.held 0 1 = 1 ∧ s.held 0 2 = 1 :=
  ⟨threeTasks_started, threeTasks.after (fun _ _ => true) gap,
    runs_after (fun _ _ _ => trivial) (by decide +kernel), by decide +kernel, by decide +kernel⟩

end Larva.Os
