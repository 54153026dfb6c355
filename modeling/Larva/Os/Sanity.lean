import Larva.Os.Ticks

/-!
# The sanity task

A task that is created with a check-in interval gets a sanity check, and has
to reset it at least once per interval (`os_sanity.c`, and `os_task_init` in
`os_task.c`). The sanity task goes through the checks once a second, and one
that is overdue fails an assert, which restarts the system.

A check keeps the tick of the last check-in, and that is zero when the check
is made. Until its first check-in, a task is taken to have checked in when the
counter was zero, so that the system is restarted if the task was created
later than its interval after that. Once it has checked in, the wrapping
subtraction gives the ticks since then, and their comparison with the interval
is right for as long as the task is not overdue by half the counter's range.

Ticks are counted here without wrapping, from the counter's start value on.
-/

namespace Larva.Os.Sanity

/-- `struct os_sanity_check`. `scFunc` is the answer of the check's function,
if there is one, and `true` for `OS_OK`. Not in the source are `since`, the
tick of the last check-in or of the creation, and `checkedIn`, which tells the
two apart. -/
structure SanityCheck where
  scCheckinLast : Nat
  scCheckinItvl : Nat
  scFunc : Option Bool
  since : Nat
  checkedIn : Bool
deriving DecidableEq

structure St where
  now : Nat
  checks : List SanityCheck
deriving DecidableEq

namespace St

def osTimeGet (s : St) : Nat := s.now % 2 ^ 32

def osSanityCheckInit (s : St) : SanityCheck := ⟨0, 0, none, s.now, false⟩

/-- What `os_task_init` does about the sanity check. -/
def osTaskInit (s : St) (sanityItvl : Nat) : St :=
  if sanityItvl ≠ osTimeoutNever then
    { s with checks := { s.osSanityCheckInit with scCheckinItvl := sanityItvl } :: s.checks }
  else s

def checkin (s : St) (sc : SanityCheck) : SanityCheck :=
  { sc with scCheckinLast := s.osTimeGet, since := s.now, checkedIn := true }

/-- `os_sanity_check_reset` of the check in place `i`. -/
def osSanityCheckReset (s : St) (i : Nat) : St :=
  { s with checks := s.checks.modify i s.checkin }

/-- One turn of the loop in `os_sanity_task_loop`; `none` when the assert
fails. -/
def look (s : St) (sc : SanityCheck) : Option SanityCheck :=
  if sc.scFunc = some true then some (s.checkin sc)
  else if tickGt (tickSub s.osTimeGet sc.scCheckinLast) sc.scCheckinItvl then none
  else some sc

/-- One pass of the sanity task. -/
def pass (s : St) : Option St :=
  (s.checks.mapM s.look).map fun checks => { s with checks := checks }

/-- The task has gone more than its interval without checking in. -/
def Overdue (s : St) (sc : SanityCheck) : Prop :=
  sc.scCheckinItvl < s.now - sc.since
deriving Decidable

/-- The task has checked in since it was created, or was created when the
counter was zero; and it is not overdue by half the counter's range. -/
def Timely (s : St) (sc : SanityCheck) : Prop :=
  (sc.checkedIn = true ∨ sc.since % 2 ^ 32 = 0) ∧ s.now - sc.since < sc.scCheckinItvl + 2 ^ 31
deriving Decidable

end St

variable {s s' : St} {sc : SanityCheck} {t₀ : Nat}

/-! ## Runs -/

inductive Step (s : St) : St → Prop where
  | tick : Step s { s with now := s.now + 1 }
  | create {sanityItvl : Nat} : sanityItvl < 2 ^ 31 → Step s (s.osTaskInit sanityItvl)
  | reset (i : Nat) : Step s (s.osSanityCheckReset i)
  | pass {s' : St} : s.pass = some s' → Step s s'

/-- The states that are reached when the counter starts at `t₀`. -/
inductive Reached (t₀ : Nat) : St → Prop where
  | start : Reached t₀ ⟨t₀, []⟩
  | step {s s' : St} : Reached t₀ s → Step s s' → Reached t₀ s'

/-- What is known of every check: those of tasks have no function, and the
last check-in is zero until there is one. -/
structure Known (s : St) (sc : SanityCheck) : Prop where
  func : sc.scFunc = none
  since : sc.since ≤ s.now
  itvl : sc.scCheckinItvl < 2 ^ 31
  last : sc.scCheckinLast = if sc.checkedIn then sc.since % 2 ^ 32 else 0

/-- Without a function a look does not change a check, so that a pass is only
a test. -/
theorem pass_eq (hk : ∀ sc ∈ s.checks, Known s sc) :
    s.pass = if ∃ sc ∈ s.checks, s.look sc = none then none else some s := by
  have hlook : ∀ l : List SanityCheck, (∀ sc ∈ l, Known s sc) →
      l.mapM s.look = if ∃ sc ∈ l, s.look sc = none then none else some l := by
    intro l hl
    induction l with
    | nil => simp
    | cons sc l ih =>
      have hsc : s.look sc = none ∨ s.look sc = some sc := by
        simp only [St.look, (hl sc List.mem_cons_self).func, reduceCtorEq, if_false]
        split <;> simp
      rw [List.mapM_cons, ih fun sc h => hl sc (List.mem_cons_of_mem _ h)]
      rcases hsc with hsc | hsc
      · simp [hsc]
      · split <;> simp_all
  rw [St.pass, hlook _ hk]
  split <;> rfl

theorem Step.known (hs : Step s s') (hk : ∀ sc ∈ s.checks, Known s sc) :
    ∀ sc ∈ s'.checks, Known s' sc := by
  cases hs with
  | tick => exact fun sc hsc => { hk sc hsc with since := Nat.le_succ_of_le (hk sc hsc).since }
  | create hitvl =>
    unfold St.osTaskInit
    split
    · intro sc hsc
      rcases List.mem_cons.mp hsc with rfl | hsc
      · exact ⟨rfl, le_refl _, hitvl, rfl⟩
      · exact { hk sc hsc with }
    · exact hk
  | reset i =>
    intro sc hsc
    obtain ⟨j, hj⟩ := List.mem_iff_getElem?.mp hsc
    obtain ⟨sc, hget, rfl⟩ := Option.map_eq_some_iff.mp ((List.getElem?_modify ..).symm.trans hj)
    have hsc := hk sc (List.mem_of_getElem? hget)
    split
    · exact ⟨hsc.func, le_refl _, hsc.itvl, rfl⟩
    · exact { hsc with }
  | pass hp =>
    rw [pass_eq hk] at hp
    split at hp
    · cases hp
    · rw [← Option.some.inj hp]
      exact hk

theorem Reached.known (h : Reached t₀ s) : ∀ sc ∈ s.checks, Known s sc := by
  induction h with
  | start => exact fun _ h => nomatch h
  | step _ hs ih => exact hs.known ih

/-! ## Accuracy -/

/-- A look at a task that has checked in tells whether it is overdue. -/
theorem look_none_iff (hk : Known s sc) (ht : s.Timely sc) : s.look sc = none ↔ s.Overdue sc := by
  obtain ⟨hfunc, hsince, hitvl, hlast⟩ := hk
  obtain ⟨hin, hlate⟩ := ht
  have hlast : sc.scCheckinLast = sc.since % 2 ^ 32 := by
    rw [hlast]
    rcases hin with hin | hin
    · rw [if_pos hin]
    · rw [hin, ite_self]
  -- The interval and the delay are small enough for neither difference to wrap.
  have hd : tickSub s.osTimeGet (sc.since % 2 ^ 32) = s.now - sc.since := by
    simp only [tickSub, St.osTimeGet]
    omega
  have hgt : tickGt (s.now - sc.since) sc.scCheckinItvl = true ↔ s.Overdue sc := by
    rw [tickGt, decide_eq_true_eq, tickSub, St.Overdue]
    omega
  rw [St.look, hfunc, hlast, hd]
  simp [hgt]

theorem sanity_task_accurate (h : Reached t₀ s) (ht : ∀ sc ∈ s.checks, s.Timely sc) :
    (∀ sc ∈ s.checks, s.look sc = none ↔ s.Overdue sc) ∧
      (s.pass = none ↔ ∃ sc ∈ s.checks, s.Overdue sc) := by
  have hlook : ∀ sc ∈ s.checks, s.look sc = none ↔ s.Overdue sc :=
    fun sc hsc => look_none_iff (h.known sc hsc) (ht sc hsc)
  refine ⟨hlook, ?_⟩
  rw [pass_eq h.known]
  simp only [ite_eq_left_iff, reduceCtorEq, imp_false, not_not]
  exact exists_congr fun sc => and_congr_right (hlook sc)

/-- A task that has reset its check once and is then silent for two ticks. -/
theorem sanity_task_accurate_silent : (⟨102, [⟨100, 1, none, 100, true⟩]⟩ : St).pass = none := by
  have h := ((((@Reached.start 100).step (.create (by decide : 1 < 2 ^ 31))).step
    (.reset 0)).step .tick).step .tick
  exact ((sanity_task_accurate h (by decide)).2).mpr ⟨_, List.mem_singleton_self _, by decide⟩

/-- A task that is created with an interval of three ticks when the counter is
at five fails the check at once. -/
theorem sanity_check_fails_at_once :
    ∃ s, Reached 5 s ∧ s.pass = none ∧ ∀ sc ∈ s.checks, s.now - sc.since = 0 :=
  ⟨_, .step .start (.create (by decide : 3 < 2 ^ 31)), by decide, by decide⟩

end Larva.Os.Sanity
