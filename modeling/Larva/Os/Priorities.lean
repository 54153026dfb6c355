import Larva.Os.Mutexes

/-!
# Priority inheritance

A task that waits for a mutex lends its priority to the owner, and the owner
gives it back when it releases. Each mutex keeps one priority for that, the
one its owner had when it took the mutex.

`Ranks` is the protocol without the kernel: who owns what, who waits for what,
and the priorities. A step of the system takes a mutex, waits for one, passes
one on, deletes one, or does nothing to the ranks, and `Does.ranks` shows that
these are the cases. Two properties are then asked of a run.

*No inversion*: an owner is at least as urgent as everybody who waits for what
it owns. The protocol looks at one mutex at a time, so this fails as soon as
two are involved. A release gives back the priority of one mutex although
another one still has an urgent waiter; a boost goes to an owner that itself
waits, and does not go on to the owner it waits for; a boost of a waiting task
leaves it at its place in the chain, so that the mutex is later handed past a
more urgent waiter. `Inherits` says what a step has to find for none of these
to happen.

*Restoration*: a task that owns nothing has the priority it was created with.
This fails when a mutex was taken while its owner was boosted, and is the last
one to be released.
-/

namespace Larva.Os

open TailQ Function List

/-- `mu_owner`. -/
def Sys.owner (s : Sys) (m : Nat) : Option Nat := (s.k.mutexes m).muOwner

/-- `mu_head`. -/
def Sys.queue (s : Sys) (m : Nat) : List Nat := s.k.waiters (.mutex m)

/-- `t_prio`. -/
def Sys.prio (s : Sys) (t : Nat) : Nat := (s.k.tasks t).tPrio

/-- `mu_prio`. -/
def Sys.kept (s : Sys) (m : Nat) : Nat := (s.k.mutexes m).muPrio

/-! ## The protocol -/

inductive Ranks (s : Sys) : Label → Sys → Prop
  | keep {l : Label} {s' : Sys} (hown : s'.owner = s.owner)
      (hq : ∀ m, s'.queue m ⊆ s.queue m) (hp : PrioKept s s') : Ranks s l s'
  | take {m timeout : Nat} {s' : Sys} (hfree : s.owner m = none) (hempty : s.queue m = [])
      (hown : s'.owner = update s.owner m (some s.cur))
      (hq : s'.queue = s.queue) (hp : s'.prio = s.prio) (hi : s'.initPrio = s.initPrio) :
      Ranks s (.call (.mutexPend m timeout)) s'
  | wait {m timeout o : Nat} {s' : Sys} (ho : s.owner m = some o)
      (hne : o ≠ s.cur) (hto : timeout ≠ 0) (hown : s'.owner = s.owner)
      (hq : ∀ m' w, w ∈ s'.queue m' → w ∈ s.queue m' ∨ m' = m ∧ w = s.cur) (hp : ∀ t, s'.prio t =
        if t = o ∧ s.prio s.cur < s.prio o then s.prio s.cur else s.prio t)
      (hi : s'.initPrio = s.initPrio) : Ranks s (.call (.mutexPend m timeout)) s'
  | pass {l : Label} {m : Nat} {s' : Sys} (hr : s.Releases l m)
      (hlv : (s.k.mutexes m).muLevel = 1) (ho : s.owner m = some s.cur)
      (hown : s'.owner = update s.owner m (s.queue m).head?)
      (hq : ∀ m', s'.queue m' ⊆ s.queue m') (htail : s'.queue m ⊆ (s.queue m).tail)
      (hp : ∀ t, s'.prio t = if t = s.cur then s.kept m else s.prio t)
      (hi : s'.initPrio = s.initPrio) : Ranks s l s'
  | delete {m : Nat} {s' : Sys} (hown : s'.owner = s.owner)
      (hempty : s'.queue m = []) (hq : ∀ m', s'.queue m' ⊆ s.queue m') (hp : ∀ t, s'.prio t =
        if s.owner m = some t then s.kept m else s.prio t) (hi : s'.initPrio = s.initPrio) :
      Ranks s (.call (.mutexDelete m)) s'

/-! ## The steps of the system follow it -/

section Steps

variable {s s' : Sys} {L L' : Lists} {m timeout : Nat} {l : Label} {q : TailQ ListId Nat}

theorem reprio_prio (k : Kernel) (t prio b : Nat) : ((k.reprio t prio).tasks b).tPrio =
      if b = t then prio else (k.tasks b).tPrio := by
  rw [reprio_tasks]
  by_cases hb : b = t
  · rw [if_pos hb, hb, update_self]
  · rw [if_neg hb, update_of_ne hb]

theorem boosted_prio (k : Kernel) (o b : Nat) : ((k.boosted o).tasks b).tPrio =
      if b = o ∧ (k.tasks k.current).tPrio < (k.tasks o).tPrio
        then (k.tasks k.current).tPrio else (k.tasks b).tPrio := by
  unfold Kernel.boosted
  split
  · next hlt =>
    rw [reprio_prio]
    simp [hlt]
  · next hlt => simp [hlt]

theorem restored_prio (k : Kernel) (m o b : Nat) : ((k.restored m o).tasks b).tPrio =
      if b = o then (k.mutexes m).muPrio else (k.tasks b).tPrio := by
  unfold Kernel.restored
  split
  · exact reprio_prio k o _ b
  · next he =>
    by_cases hb : b = o
    · rw [if_pos hb, hb]
      exact not_not.mp he
    · rw [if_neg hb]

theorem owner_eq_of_mutexes (h : s'.k.mutexes = s.k.mutexes) : s'.owner = s.owner := by
  funext m
  simp only [Sys.owner, h]

/-- A step about one mutex keeps its owner and its chain. -/
theorem ranks_keep (hown : s'.owner m = s.owner m) (hq : s'.queue m = s.queue m)
    (hkept : ∀ m', m' ≠ m → MutexKept m' s s') (hp : PrioKept s s') : Ranks s l s' := by
  refine .keep (funext fun m' => ?_) (fun m' => ?_) hp
  · by_cases hm : m' = m
    · rw [hm]
      exact hown
    · exact congrArg Mutex.muOwner (hkept m' hm).mutexes
  · by_cases hm : m' = m
    · rw [hm, hq]
      exact Subset.refl _
    · exact (hkept m' hm).chain.subset

theorem Ranks.refl : Ranks s l s :=
  .keep rfl (fun _ => Subset.refl _) (.of_eq rfl fun _ => rfl)

theorem ranks_of_kept (hs : Sane s L) (hd : Does s L l s' L')
    (ht : ∀ m, s.touches l ≠ some (.mutex m)) : Ranks s l s' :=
  .keep (funext fun m => congrArg Mutex.muOwner (hd.mutexKept hs (ht m)).mutexes)
    (fun m => (hd.mutexKept hs (ht m)).chain.subset) (hd.prioKept hs ht)

theorem ranks_take (hfree : s.owner m = none) (hempty : s.queue m = []) :
    Ranks s (.call (.mutexPend m timeout)) ((s.withK (setMutex m
      (fun _ => ⟨(s.k.tasks s.cur).tPrio, 1, some s.cur⟩) s.k)).setHeld m s.cur (· + 1)) := by
  refine .take hfree hempty (funext fun m' => ?_) rfl rfl rfl
  by_cases hm : m' = m
  · subst hm
    simp [Sys.owner, Sys.setHeld, Sys.withK, setMutex]
  · simp [Sys.owner, Sys.setHeld, Sys.withK, setMutex, hm]

theorem ranks_wait {o : Nat} (ho : s.owner m = some o) (hne : o ≠ s.cur) (hto : timeout ≠ 0) :
    Ranks s (.call (.mutexPend m timeout)) ((s.withK
      (((s.k.boosted o).waiting (.mutex m) timeout).withLists q)).goto s.cur
        (.sched none (.mutexPend m))) := by
  have hk := alike_boosted s.k o
  refine .wait ho hne hto (owner_eq_of_mutexes hk.mutexes) (fun m' w hw => ?_) (fun t => ?_) rfl
  · have hcur : (s.k.boosted o).current = s.cur := hk.current
    have hw' : w ∈ ((s.k.boosted o).waiting (.mutex m) timeout).waiters (.mutex m') := hw
    simp only [Kernel.waiting, Kernel.slept, setTask, enqueue, setWaiters] at hw'
    by_cases hm : m' = m
    · subst hm
      rw [update_self, mem_insertAt, hcur, hk.waiters] at hw'
      exact hw'.symm.imp_right fun he => ⟨rfl, he⟩
    · rw [update_of_ne (by simpa using hm), hk.waiters] at hw'
      exact .inl hw'
  · exact (waiting_prio _ (.mutex m) timeout t).trans (boosted_prio s.k o t)

theorem lowered_prio (k : Kernel) (m : Nat) :
    ((k.lowered m).mutexes m).muPrio = (k.mutexes m).muPrio := by
  simp [Kernel.lowered, setMutex]

/-- A release that leaves the mutex. Other mutexes do not notice. -/
theorem ranks_pass (h : Owned m s) (hr : s.Releases l m)
    (hlv : ((s.k.lowered m).mutexes m).muLevel = 0) (hkept : ∀ m', m' ≠ m → MutexKept m' s s')
    (hown : s'.owner m = (s.queue m).head?) (hq : s'.queue m ⊆ (s.queue m).tail)
    (hp : ∀ t, s'.prio t = if t = s.cur then s.kept m else s.prio t)
    (hi : s'.initPrio = s.initPrio) : Ranks s l s' := by
  have ho := (h.releases hr).1
  have hne := h.level_ne_zero ho
  have hlow := lowered_level s.k h.bound hne
  refine .pass hr (by omega) ho (funext fun m' => ?_) (fun m' => ?_) hq hp hi
  · by_cases hm : m' = m
    · rw [hm, update_self]
      exact hown
    · rw [update_of_ne hm]
      exact congrArg Mutex.muOwner (hkept m' hm).mutexes
  · by_cases hm : m' = m
    · rw [hm]
      exact Subset.trans hq (tail_sublist _).subset
    · exact (hkept m' hm).chain.subset

theorem handed_prio (k : Kernel) (m rdy t : Nat) (hrdy : (k.tasks rdy).tState = .sleep) :
    ((k.handed m rdy).tasks t).tPrio =
      if t = k.current then (k.mutexes m).muPrio else (k.tasks t).tPrio := by
  have hk := alike_restored k m k.current
  have hmv := moved_woken k.lists ((hk.state rdy).trans hrdy)
  exact (hmv.prio t).trans (restored_prio k m k.current t)

/-- The first waiter leaves the chain. -/
theorem handed_queue {k : Kernel} {rdy : Nat} {W : List Nat} (w : Waits k)
    (hW : k.waiters (.mutex m) = rdy :: W) : (k.handed m rdy).waiters (.mutex m) = W := by
  have hk := alike_restored k m k.current
  have hobj : ((k.restored m k.current).tasks rdy).tObj = some (.mutex m) := by
    rw [hk.obj rdy]
    exact (w.chain _ _).mp (by rw [hW]; exact mem_cons_self)
  show (if ((k.restored m k.current).tasks rdy).tObj = some (.mutex m) then
    ((k.restored m k.current).waiters (.mutex m)).erase rdy else _) = W
  rw [if_pos hobj, hk.waiters, hW, erase_cons_head]

theorem ranks_delete {k' : Kernel} {r : Resched} {L1 : Lists} (h : Owned m s)
    (hall : WokenAll ((s.k.ownerRestored m).withLists q) L1
      (s.k.waiters (.mutex m)) k' L') (hw : Waits k') : Ranks s (.call (.mutexDelete m))
      ((s.withK k').finish s.cur r .returned) := by
  have hk := alike_ownerRestored s.k m
  have hmv := hall.moved
  have hsub : ∀ m', k'.waiters (.mutex m') ⊆ s.k.waiters (.mutex m') := by
    intro m'
    have hc := (hmv.chain (.mutex m')).subset
    rwa [show ((s.k.ownerRestored m).withLists q).waiters (.mutex m') =
      s.k.waiters (.mutex m') from congrFun hk.waiters _] at hc
  refine .delete (owner_eq_of_mutexes (hmv.mutexes.trans hk.mutexes)) ?_ hsub
    (fun t => (hmv.prio t).trans ?_) rfl
  · -- Whoever was on the chain has been woken, and waits for nothing.
    refine eq_nil_iff_forall_not_mem.mpr fun w hm => ?_
    have hobj := (hw.chain _ _).mp hm
    rw [hall.tasks, if_pos (hsub m hm)] at hobj
    cases hobj
  show ((s.k.ownerRestored m).tasks t).tPrio = _
  unfold Kernel.ownerRestored
  split
  · next l o hl ho =>
    rw [restored_prio]
    simp only [Sys.owner, ho, Option.some.injEq, eq_comm]
    rfl
  · next hn =>
    have hnone : s.owner m = none := by
      cases ho : (s.k.mutexes m).muOwner with
      | none => exact ho
      | some o =>
        obtain ⟨l, hl⟩ :=
          Nat.exists_eq_succ_of_ne_zero (h.level_ne_zero ho)
        exact (hn l o hl ho).elim
    rw [hnone, if_neg (by simp)]
    rfl

theorem Does.ranks (hs : Sane s L) (ho : ∀ m, Owned m s)
    (hidle : ∀ m, s.owner m = none → s.queue m = []) (hp : ∀ m, NoGap m s l) (hd : Does s L l s' L')
    (hs' : Sane s' L') : Ranks s l s' := by
  by_cases ht : ∀ m, s.touches l ≠ some (.mutex m)
  · exact ranks_of_kept hs hd ht
  have hkept : ∀ m, s.touches l = some (.mutex m) → ∀ m', m' ≠ m → MutexKept m' s s' := by
    intro m ht m' hm
    refine hd.mutexKept hs ?_
    rw [ht]
    simpa using hm.symm
  cases hd with
  | @mutexTake m timeout hpc hlv =>
    have hfree := (ho m).free.mp hlv
    exact ranks_take hfree (hidle m hfree)
  | @mutexNest m =>
    refine ranks_keep ?_ rfl (hkept m rfl) (.of_eq rfl fun _ => rfl)
    simp [Sys.owner, Sys.setHeld, Sys.withK, setMutex]
  | mutexBusy | notOwned => exact .refl
  | mutexBlock hpc hlv ho hne hto => exact ranks_wait ho hne hto
  | checked | mutexGot | mutexLate =>
    exact .keep rfl (fun _ => Subset.refl _) (.of_eq rfl fun _ => rfl)
  | mutexClear =>
    exact .keep rfl (fun _ => Subset.refl _) (.of_eq rfl fun b =>
      setTask_field Task.tPrio (fun τ => { τ with mutexWait := false }) _ b s.k rfl)
  | @unnest _ m hr =>
    exact ranks_keep (lowered_owner s.k) rfl (hkept m (Releases.touches hr))
      (.of_eq rfl fun _ => rfl)
  | @cutNested m hpc =>
    have ht : s.touches .goCut = some (.mutex m) := by
      rw [Sys.touches, hpc]
      rfl
    exact ranks_keep (lowered_owner s.k) rfl (hkept m ht) (.of_eq rfl fun _ => rfl)
  | @hand _ m rdy W q _ hr hlv hW =>
    refine ranks_pass (ho m) hr hlv (hkept m (Releases.touches hr)) ?_ ?_ (fun t => ?_) rfl
    · rw [Sys.queue, hW]
      show (((s.k.lowered m).handed m rdy).mutexes m).muOwner = some rdy
      simp [Kernel.handed, setMutex]
    · have hw : Waits (s.k.lowered m) := hs.waits.congr
      show ((s.k.lowered m).handed m rdy).waiters _ ⊆ (s.k.waiters (.mutex m)).tail
      rw [handed_queue hw hW, hW]
      exact Subset.refl _
    · refine (handed_prio (s.k.lowered m) m rdy t (hs.head_asleep hW)).trans ?_
      rw [lowered_prio]
      rfl
  | @free _ m q _ hr hlv hW =>
    have hk := alike_restored (s.k.lowered m) m s.cur
    refine ranks_pass (ho m) hr hlv (hkept m (Releases.touches hr)) ?_ ?_ (fun t => ?_) rfl
    · rw [Sys.queue, hW]
      show (((s.k.lowered m).freed m).mutexes m).muOwner = none
      simp [Kernel.freed, setMutex]
    · show ((s.k.lowered m).restored m s.cur).waiters _ ⊆ (s.k.waiters (.mutex m)).tail
      rw [hk.waiters]
      show s.k.waiters _ ⊆ _
      rw [hW]
      exact Subset.refl _
    · refine (restored_prio _ m s.cur t).trans ?_
      rw [lowered_prio]
      rfl
  | @cut m hpc hlv => exact ((ho m).not_cut (hp m) hpc hlv).elim
  | @windowHand m _ _ _ _ hpc => exact ((ho m).not_window s.cur hpc).elim
  | @windowFree m _ _ hpc => exact ((ho m).not_window s.cur hpc).elim
  | @mutexDelete m _ _ _ _ _ _ hall => exact ranks_delete (ho m) hall hs'.waits
  | @done c hpc hc =>
    cases c <;> grind [Sys.touches, Pc.touched, Cont.obj]
  | _ => grind [Sys.touches, Pc.touched]

end Steps

/-! ## No inversion -/

def Sys.NoInversion (s : Sys) : Prop :=
  ∀ m o w, s.owner m = some o → w ∈ s.queue m → s.prio o ≤ s.prio w

/-- What a step has to find so that no inversion comes of it. A release must
not take away a priority that another mutex of the task still asks for, and
the mutex must go to the most urgent waiter. A delete must not do so to the
owner, and if the owner waits itself it must not overtake the one it waits
for. Neither must an owner that a pend boosts. -/
def Inherits (s : Sys) (l : Label) : Prop :=
  (∀ m, NoGap m s l) ∧
  (∀ m, s.Releases l m → (s.k.mutexes m).muLevel = 1 →
    (∀ m' w, m' ≠ m → s.owner m' = some s.cur → w ∈ s.queue m' → s.kept m ≤ s.prio w) ∧
    ∀ rdy w, (s.queue m).head? = some rdy → w ∈ (s.queue m).tail → s.prio rdy ≤ s.prio w) ∧
  (∀ m o, l = .call (.mutexDelete m) → s.owner m = some o →
    (∀ m' w, m' ≠ m → s.owner m' = some o → w ∈ s.queue m' → s.kept m ≤ s.prio w) ∧
    ∀ m' o', o ∈ s.queue m' → s.owner m' = some o' → s.prio o' ≤ s.kept m) ∧
  ∀ m o timeout, l = .call (.mutexPend m timeout) → timeout ≠ 0 →
    s.owner m = some o → s.prio s.cur < s.prio o → ∀ m' o', o ∈ s.queue m' → s.owner m' = some o' →
      s.prio o' ≤ s.prio s.cur

/-- Nobody waits for a mutex that nobody owns. -/
def Sys.Idle (s : Sys) : Prop := ∀ m, s.owner m = none → s.queue m = []

section Inversion

variable {s s' : Sys} {L : Lists} {l : Label}

theorem Ranks.idle (h : s.Idle) (hr : Ranks s l s') : s'.Idle := by
  intro m hn
  cases hr with
  | keep hown hq =>
    rw [hown] at hn
    have hsub := hq m
    rw [h m hn] at hsub
    exact subset_nil.mp hsub
  | @take m0 _ _ hfree hempty hown hq =>
    rw [hq]
    by_cases hm : m = m0
    · rw [hm]
      exact hempty
    · rw [hown, update_of_ne hm] at hn
      exact h m hn
  | @wait m0 _ o _ ho hne hto hown hq =>
    rw [hown] at hn
    refine eq_nil_iff_forall_not_mem.mpr fun w hw => ?_
    rcases hq m w hw with hw | ⟨rfl, _⟩
    · rw [h m hn] at hw
      cases hw
    · rw [ho] at hn
      cases hn
  | @pass _ m0 _ _ _ _ hown hq htail =>
    by_cases hm : m = m0
    · subst hm
      rw [hown, update_self, head?_eq_none_iff] at hn
      rw [hn] at htail
      exact subset_nil.mp htail
    · rw [hown, update_of_ne hm] at hn
      have hsub := hq m
      rw [h m hn] at hsub
      exact subset_nil.mp hsub
  | delete hown hempty hq =>
    rw [hown] at hn
    have hsub := hq m
    rw [h m hn] at hsub
    exact subset_nil.mp hsub

theorem Sane.queue_asleep (h : Sane s L) {m w : Nat} (hw : w ∈ s.queue m) :
    (s.k.tasks w).tState = .sleep :=
  h.waits.asleep w _ ((h.waits.chain _ _).mp hw)

theorem Ranks.noInversion (hs : Sane s L) (ho : ∀ m, Owned m s)
    (h : s.NoInversion) (hp : Inherits s l) (hr : Ranks s l s') :
    s'.NoInversion := by
  intro m o w hom hw
  cases hr with
  | keep hown hq hk =>
    rw [hown] at hom
    have hw' := hq m hw
    have hws : (s.k.tasks w).tState ≠ .clear := by
      rw [hs.queue_asleep hw']
      decide
    have hpo : s'.prio o = s.prio o := hk.alive o ((ho m).alive o hom)
    have hpw : s'.prio w = s.prio w := hk.alive w hws
    rw [hpo, hpw]
    exact h m o w hom hw'
  | @take m0 _ _ hfree hempty hown hq hpr =>
    rw [hpr]
    rw [hq] at hw
    by_cases hm : m = m0
    · rw [hm, hempty] at hw
      cases hw
    · rw [hown, update_of_ne hm] at hom
      exact h m o w hom hw
  | @wait m0 timeout o0 _ ho0 hne hto hown hq hpr =>
    rw [hown] at hom
    have hdown : s'.prio o ≤ s.prio o := by
      rw [hpr]
      split
      · next hc =>
        rw [hc.1]
        exact hc.2.le
      · exact le_refl _
    rcases hq m w hw with hw | ⟨rfl, rfl⟩
    · by_cases hwo : w = o0 ∧ s.prio s.cur < s.prio o0
      · -- The boosted owner waits itself.
        rw [hpr w, if_pos hwo, hpr o]
        split
        · exact le_refl _
        · exact hp.2.2.2 m0 o0 timeout rfl hto ho0 hwo.2 m o (hwo.1 ▸ hw) hom
      · rw [hpr w, if_neg hwo]
        exact hdown.trans (h m o w hom hw)
    · obtain rfl : o0 = o := Option.some.inj (ho0.symm.trans hom)
      rw [hpr s.cur, if_neg fun hc => hne hc.1.symm, hpr o0]
      split
      · exact le_refl _
      · next hc => exact Nat.not_lt.mp fun hlt => hc ⟨rfl, hlt⟩
  | @pass _ m0 _ hrel hlv hcur hown hq htail hpr =>
    have hready := Releases.ready hs hrel
    have hwq := hq m hw
    have hne : ∀ {m x}, x ∈ s.queue m → x ≠ s.cur := by
      rintro m x hx rfl
      cases hready.symm.trans (hs.queue_asleep hx)
    have hcond := hp.2.1 m0 hrel hlv
    rw [hpr w, if_neg (hne hwq)]
    by_cases hm : m = m0
    · subst hm
      rw [hown, update_self] at hom
      rw [hpr o, if_neg (hne (mem_of_mem_head? hom))]
      exact hcond.2 o w hom (htail hw)
    · rw [hown, update_of_ne hm] at hom
      rw [hpr o]
      split
      · next hoc =>
        rw [hoc] at hom
        exact hcond.1 m w hm hom hwq
      · exact h m o w hom hwq
  | @delete m0 _ hown hempty hq hpr =>
    rw [hown] at hom
    have hwq := hq m hw
    have hm : m ≠ m0 := by
      rintro rfl
      rw [hempty] at hw
      cases hw
    rw [hpr o, hpr w]
    split
    · next hoo =>
      split
      · exact le_refl _
      · exact (hp.2.2.1 m0 o rfl hoo).1 m w hm hom hwq
    · split
      · next hwo => exact (hp.2.2.1 m0 w rfl hwo).2 m o hwq hom
      · exact h m o w hom hwq

end Inversion

theorem Started.idle {s : Sys} (h : Started s) (m : Nat) : s.owner m = none ∧ s.queue m = [] := by
  have hfr := h.fresh.1
  exact ⟨congrArg Mutex.muOwner (hfr.mutexes m), hfr.waiters _⟩

/-- An owner is at least as urgent as everybody who waits for the mutex. -/
theorem owner_urgent {s₀ s : Sys} (h₀ : Started s₀) (hr : Runs Inherits s₀ s)
    (m o w : Nat) (ho : (s.k.mutexes m).muOwner = some o) (hw : w ∈ s.k.waiters (.mutex m)) :
    (s.k.tasks o).tPrio ≤ (s.k.tasks w).tPrio := by
  obtain ⟨L, hs, hj⟩ := hr.invariant (J := fun s _ => (∀ m, Owned m s) ∧ s.Idle ∧ s.NoInversion) h₀
    (fun _ _ _ _ _ hp => (hp.1 0).1)
    (fun L _ _ => ⟨h₀.owned, fun m _ => (h₀.idle m).2, fun m o w _ hw => by
      rw [(h₀.idle m).2] at hw
      cases hw⟩) (fun s L l s' L' hs hj hp hd hs' => by
      have hrk := hd.ranks hs hj.1 hj.2.1 hp.1 hs'
      exact ⟨fun m => (hj.1 m).step hs (hp.1 m) hd, hrk.idle hj.2.1,
        hrk.noInversion hs hj.1 hj.2.2 hp⟩)
  exact hj.2.2 m o w ho hw

/-- A test that is enough for `Inherits`: nothing is released or deleted, and
nobody is boosted. -/
def noBoost (s : Sys) (l : Label) : Bool :=
  switchReady s l &&
    match l with
    | .call (.mutexPend m _) =>
      (match s.owner m with
      | some o => decide (s.prio o ≤ s.prio s.cur)
      | none => true) && decide ((s.k.mutexes m).muLevel + 1 ≠ 2 ^ 16)
    | .call (.mutexRelease _) | .call (.mutexDelete _) | .checkRelease _
    | .goCut => false
    | _ => ((s.pc s.cur).touched).isNone

theorem noBoost_sound (s : Sys) (l : Label) (h : noBoost s l = true) : Inherits s l := by
  simp only [noBoost, Bool.and_eq_true] at h
  have hrel : ∀ m, ¬ s.Releases l m := by
    rintro m (⟨rfl, _⟩ | ⟨rfl, hpc⟩)
    · simp at h
    · simp [hpc, Pc.touched] at h
  refine ⟨fun m => ⟨switchReady_sound s l h.1, ?_, ?_⟩, fun m hr => (hrel m hr).elim, ?_, ?_⟩
  · rintro rfl
    simp at h
  · rintro timeout rfl ho
    have h2 := h.2
    simp only [Bool.and_eq_true, decide_eq_true_eq] at h2
    exact h2.2
  · rintro m o rfl
    simp at h
  · rintro m o timeout rfl hto ho hlt
    have h2 := h.2
    simp only [ho, Bool.and_eq_true, decide_eq_true_eq] at h2
    omega

/-- Task 1 takes the mutex and sleeps, and task 0 waits for it. -/
def queueUp : List Label :=
  [.call (.mutexPend 0 osTimeoutNever), .call (.delay 5), .go, .go,
    .call (.mutexPend 0 osTimeoutNever)]

theorem owner_urgent_queueUp : 0 ∈ (twoTasks.after noBoost queueUp).k.waiters (.mutex 0) ∧
      ((twoTasks.after noBoost queueUp).k.tasks 1).tPrio ≤
        ((twoTasks.after noBoost queueUp).k.tasks 0).tPrio := by
  have hr : Runs Inherits twoTasks (twoTasks.after noBoost queueUp) :=
    runs_after noBoost_sound (by decide +kernel)
  have hw : 0 ∈ (twoTasks.after noBoost queueUp).k.waiters (.mutex 0) := by
    decide +kernel
  exact ⟨hw, owner_urgent twoTasks_started hr 0 1 0 (by decide +kernel) hw⟩

/-- Task 0 takes two mutexes and task 1 waits for the first. Then task 0
releases the second. -/
def crossed : List Label :=
  [.call (.delay 1), .go, .go, .call (.mutexPend 0 osTimeoutNever),
    .call (.mutexPend 1 osTimeoutNever), .tick, .preempt 1, .go,
    .call (.mutexPend 0 osTimeoutNever), .go, .go, .call (.mutexRelease 1)]

/-- Task 0 is back at its own priority while task 1 still waits for it. -/
theorem crossed_inverts : Started twoTasks ∧ ∃ s, Runs (fun _ _ => True) twoTasks s ∧
      (s.k.mutexes 0).muOwner = some 0 ∧ 1 ∈ s.k.waiters (.mutex 0) ∧
      (s.k.tasks 1).tPrio < (s.k.tasks 0).tPrio :=
  ⟨twoTasks_started, twoTasks.after (fun _ _ => true) crossed,
    runs_after (fun _ _ _ => trivial) (by decide +kernel), by decide +kernel,
    by decide +kernel, by decide +kernel⟩

/-! ## Restoration -/

/-- The mutex a task releases last was taken at the priority it was created
with. -/
def Restores (s : Sys) (l : Label) : Prop :=
  (∀ m, NoGap m s l) ∧ (∀ m, l ≠ .call (.mutexDelete m)) ∧
  ∀ m, s.Releases l m → (s.k.mutexes m).muLevel = 1 →
    (∀ m', m' ≠ m → s.owner m' ≠ some s.cur) → s.kept m = s.initPrio s.cur

/-- Whoever owns nothing has the priority it was created with. -/
def Sys.AtBase (s : Sys) : Prop :=
  ∀ t, (∀ m, s.owner m ≠ some t) → s.prio t = s.initPrio t

theorem Ranks.atBase {s s' : Sys} {l : Label} (h : s.AtBase)
    (hp : Restores s l) (hr : Ranks s l s') : s'.AtBase := by
  intro t hno
  cases hr with
  | keep hown hq hk =>
    rw [hown] at hno
    exact hk.fresh t (h t hno)
  | @take m0 _ _ hfree hempty hown hq hpr hi =>
    rw [hpr, hi]
    refine h t fun m hm => ?_
    by_cases hmm : m = m0
    · rw [hmm, hfree] at hm
      cases hm
    · exact hno m (by rw [hown, update_of_ne hmm]; exact hm)
  | @wait m0 _ o _ ho hne hto hown hq hpr hi =>
    rw [hown] at hno
    rw [hpr, hi, if_neg fun hc => hno m0 (by rw [ho, hc.1])]
    exact h t hno
  | @pass _ m0 _ hrel hlv hcur hown hq htail hpr hi =>
    have hother : ∀ m, m ≠ m0 → s.owner m ≠ some t := by
      intro m hm
      have hn := hno m
      rwa [hown, update_of_ne hm] at hn
    rw [hpr, hi]
    split
    · next htc =>
      subst htc
      exact hp.2.2 m0 hrel hlv hother
    · next htc =>
      refine h t fun m hm => ?_
      by_cases hmm : m = m0
      · rw [hmm, hcur] at hm
        exact htc (Option.some.inj hm).symm
      · exact hother m hmm hm
  | delete => exact (hp.2.1 _ rfl).elim

/-- A task that owns no mutex has the priority it was created with. -/
theorem prio_restored {s₀ s : Sys} (h₀ : Started s₀) (hr : Runs Restores s₀ s)
    (t : Nat) (ht : ∀ m, (s.k.mutexes m).muOwner ≠ some t) :
    (s.k.tasks t).tPrio = s.initPrio t := by
  obtain ⟨L, hs, hj⟩ := hr.invariant (J := fun s _ => (∀ m, Owned m s) ∧ s.Idle ∧ s.AtBase) h₀
    (fun _ _ _ _ _ hp => (hp.1 0).1) (fun L _ _ => ⟨h₀.owned, fun m _ => (h₀.idle m).2,
      fun t _ => (h₀.fresh.1.task t).2.2.2.2⟩) (fun s L l s' L' hs hj hp hd hs' => by
      have hrk := hd.ranks hs hj.1 hj.2.1 hp.1 hs'
      exact ⟨fun m => (hj.1 m).step hs (hp.1 m) hd, hrk.idle hj.2.1, hrk.atBase hj.2.2 hp⟩)
  exact hj.2.2 t ht

/-- `Restores`, as a test: every release gives back the priority its caller
was created with. -/
def restores (s : Sys) (l : Label) : Bool :=
  switchReady s l &&
    match l with
    | .call (.mutexPend m _) => decide ((s.k.mutexes m).muLevel + 1 ≠ 2 ^ 16)
    | .call (.mutexRelease m) => decide (s.kept m = s.initPrio s.cur)
    | .call (.mutexDelete _) | .checkRelease _ | .goCut => false
    | _ => match s.pc s.cur with
        | .relChecked _ => false
        | _ => true

theorem restores_sound (s : Sys) (l : Label) (h : restores s l = true) : Restores s l := by
  simp only [restores, Bool.and_eq_true] at h
  refine ⟨fun m => ⟨switchReady_sound s l h.1, ?_, ?_⟩, ?_, ?_⟩
  · rintro rfl
    simp at h
  · rintro timeout rfl ho
    simpa using h.2
  · rintro m rfl
    simp at h
  · rintro m (⟨rfl, _⟩ | ⟨rfl, hpc⟩) _ _
    · simpa using h.2
    · simp [hpc] at h

/-- The run hands the mutex on, and no other mutex is used. -/
def handedOn : Sys :=
  twoTasks.after (fun s l => restores s l && touchesBelow 1 s l) handOn

theorem prio_restored_handOn : (handedOn.k.tasks 0).tPrio = 5 := by
  have hr : Runs Restores twoTasks handedOn :=
    runs_after (fun s l h => restores_sound s l (by simp_all)) (by decide +kernel)
  have hno : ∀ m, (handedOn.k.mutexes m).muOwner ≠ some 0 := by
    intro m
    cases m with
    | zero => decide +kernel
    | succ n =>
      have hun : Runs (fun s l => SwitchesToReady s l ∧
          s.touches l ≠ some (.mutex (n + 1))) twoTasks handedOn :=
        runs_after (fun s l h => touchesBelow_sound (Nat.le_add_left 1 n) s l
          (by simp_all)) (by decide +kernel)
      rw [(untouched_free (n + 1) twoTasks_started hun).1]
      simp
  have hi : handedOn.initPrio 0 = 5 := by decide +kernel
  exact (prio_restored twoTasks_started hr 0 hno).trans hi

/-- Task 1 waits for the first mutex of task 0, which takes a second one and
releases them in the order it took them. -/
def overlapped : List Label :=
  [.call (.delay 1), .go, .go, .call (.mutexPend 0 osTimeoutNever), .tick,
    .preempt 1, .go, .call (.mutexPend 0 osTimeoutNever), .go, .go,
    .call (.mutexPend 1 osTimeoutNever), .call (.mutexRelease 0), .go, .go,
    .go, .go, .call (.delay 5), .go, .go, .go, .call (.mutexRelease 1)]

/-- Task 0 holds nothing and has the priority of task 1. -/
theorem overlapped_keeps_boost : Started twoTasks ∧ ∃ s, Runs (fun _ _ => True) twoTasks s ∧
      (∀ m, s.held m 0 = 0 ∧ (s.k.mutexes m).muOwner ≠ some 0) ∧
      (s.k.tasks 0).tPrio = 1 ∧ s.initPrio 0 = 5 := by
  refine ⟨twoTasks_started, twoTasks.after (touchesBelow 2) overlapped,
    runs_after (fun _ _ _ => trivial) (by decide +kernel), fun m => ?_,
    by decide +kernel, by decide +kernel⟩
  match m with
  | 0 | 1 => decide +kernel
  | n + 2 =>
    have hun : Runs (fun s l => SwitchesToReady s l ∧ s.touches l ≠ some (.mutex (n + 2))) twoTasks
        (twoTasks.after (touchesBelow 2) overlapped) :=
      runs_after (touchesBelow_sound (Nat.le_add_left 2 n)) (by decide +kernel)
    obtain ⟨hfree, hheld⟩ := untouched_free (n + 2) twoTasks_started hun
    exact ⟨hheld 0, by rw [hfree]; simp⟩

end Larva.Os
