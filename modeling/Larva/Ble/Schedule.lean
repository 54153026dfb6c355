import Larva.Ble.Sched

/-!
# The schedule stays in order

The queue is to be sorted by start time, without overlaps, with the timer set
for its first item. All comparisons are of 32-bit differences, so the argument
is made for items whose times are within `2 ^ 30` ticks of the clock. There
they are comparisons of integers, and a place in the queue is a place between
spans (`Lib.Spans`).

Two things go wrong. The walks put an item in front of another if it ends
before that one starts, and pass over what it does not overlap. An item that
ends in the tick in which another starts does neither, so it is put behind the
other. And `ble_ll_sched_master_new` sets the times of its item after it has
made `sch` point to the first of the queue, so that with an item elsewhere the
first is given its times. `Spares` is what keeps clear of both, and it is all
that is needed.
-/

namespace Larva.Ble.Sched

open Serial List

/-! ## The invariant -/

structure InOrder (s : State) : Prop where
  sorted : s.queue.Pairwise fun i j =>
    diff (s.items i).startTime (s.items j).startTime < 0
  apart : s.queue.Pairwise fun i j =>
    diff (s.items i).endTime (s.items j).startTime ≤ 0
  proper : ∀ i ∈ s.queue, diff (s.items i).startTime (s.items i).endTime < 0
  nodup : s.queue.Nodup
  enqueued : ∀ i, (s.items i).enqueued = true ↔ i ∈ s.queue
  timer : s.timer = s.queue.head?.map fun i => (s.items i).startTime

/-- An item has the times it had. -/
def SameTimes (m m' : Item) : Prop :=
  m'.startTime = m.startTime ∧ m'.endTime = m.endTime

/-! The same as spans of integers, seen from the time `now`. -/

def lo (now : Time) (items : Nat → Item) (i : Nat) : Int :=
  diff (items i).startTime now

def hi (now : Time) (items : Nat → Item) (i : Nat) : Int :=
  diff (items i).endTime now

/-- Both times of an item are near, and it starts before it ends. -/
structure Timed (now : Time) (m : Item) : Prop where
  start : Near now m.startTime
  stop : Near now m.endTime
  proper : diff m.startTime now < diff m.endTime now

/-- The queue before the timer is started. -/
structure Arranged (now : Time) (s : State) : Prop where
  timed : ∀ i ∈ s.queue, Timed now (s.items i)
  spaced : Spaced (lo now s.items) (hi now s.items) s.queue
  nodup : s.queue.Nodup
  enqueued : ∀ i, (s.items i).enqueued = true ↔ i ∈ s.queue

section Invariant

variable {now : Time} {s s' : State} {i : Nat} {items items' : Nat → Item}

theorem InOrder.arranged (h : InOrder s) (hn : ∀ i ∈ s.queue, Near now (s.items i).startTime ∧
      Near now (s.items i).endTime) : Arranged now s := by
  refine ⟨fun i hi => ⟨(hn i hi).1, (hn i hi).2, ?_⟩, ?_, h.nodup, h.enqueued⟩
  · have hp := h.proper i hi
    rw [diff_eq_sub (hn i hi).1 (hn i hi).2] at hp
    omega
  · refine h.apart.imp_of_mem fun {a b} ha hb hab => ?_
    rw [diff_eq_sub (hn a ha).2 (hn b hb).1] at hab
    simp only [lo, hi]
    omega

/-- With the timer started for its first, the queue is in order. -/
theorem Arranged.timerStartFirst (h : Arranged now s) (ht : s.timer = none) (hne : s.queue ≠ []) :
    ∃ s', s.timerStartFirst = some s' ∧ InOrder s' ∧ s'.items = s.items := by
  cases hq : s.queue with
  | nil => exact (hne hq).elim
  | cons i rest =>
    refine ⟨{ s with timer := some (s.items i).startTime }, ?_, ?_, rfl⟩
    · simp [State.timerStartFirst, hq, State.timerStart, ht]
    refine ⟨?_, ?_, fun j hj => ?_, h.nodup, h.enqueued, ?_⟩
    · refine h.spaced.imp_of_mem fun {a b} ha hb hab => ?_
      rw [diff_eq_sub (h.timed a ha).start (h.timed b hb).start]
      have hp := (h.timed a ha).proper
      simp only [lo, hi] at hab
      omega
    · refine h.spaced.imp_of_mem fun {a b} ha hb hab => ?_
      rw [diff_eq_sub (h.timed a ha).stop (h.timed b hb).start]
      simp only [lo, hi] at hab
      omega
    · have ht := h.timed j hj
      rw [diff_eq_sub ht.start ht.stop]
      have hp := ht.proper
      omega
    · simp [hq]

theorem SameTimes.trans {m1 m2 m3 : Item} (h : SameTimes m1 m2)
    (h' : SameTimes m2 m3) : SameTimes m1 m3 :=
  ⟨h'.1.trans h.1, h'.2.trans h.2⟩

theorem SameTimes.timed {m m' : Item} (h : SameTimes m m') (ht : Timed now m) : Timed now m' := by
  obtain ⟨h1, h2⟩ := h
  exact ⟨h1 ▸ ht.start, h2 ▸ ht.stop, by rw [h1, h2]; exact ht.proper⟩

theorem lo_congr (h : SameTimes (items i) (items' i)) : lo now items' i = lo now items i := by
  rw [lo, h.1, lo]

theorem hi_congr (h : SameTimes (items i) (items' i)) : hi now items' i = hi now items i := by
  rw [hi, h.2, hi]

variable (now) in
theorem spans_congr (h : ∀ i, SameTimes (items i) (items' i)) :
    lo now items' = lo now items ∧ hi now items' = hi now items :=
  ⟨funext fun i => lo_congr (h i), funext fun i => hi_congr (h i)⟩

/-- Items leave the queue. -/
theorem InOrder.sublist (h : InOrder s) (hsub : s'.queue.Sublist s.queue)
    (hsame : ∀ i ∈ s'.queue, SameTimes (s.items i) (s'.items i))
    (he : ∀ i, (s'.items i).enqueued = true ↔ i ∈ s'.queue)
    (ht : s'.timer = s'.queue.head?.map fun i => (s'.items i).startTime) : InOrder s' where
  sorted := (h.sorted.sublist hsub).imp_of_mem fun ha hb hab => by
    rw [(hsame _ ha).1, (hsame _ hb).1]
    exact hab
  apart := (h.apart.sublist hsub).imp_of_mem fun ha hb hab => by
    rw [(hsame _ ha).2, (hsame _ hb).1]
    exact hab
  proper i hi := by
    rw [(hsame i hi).1, (hsame i hi).2]
    exact h.proper i (hsub.subset hi)
  nodup := h.nodup.sublist hsub
  enqueued := he
  timer := ht

theorem Arranged.sublist (h : Arranged now s) (hsub : s'.queue.Sublist s.queue)
    (hsame : ∀ i ∈ s'.queue, SameTimes (s.items i) (s'.items i))
    (he : ∀ i, (s'.items i).enqueued = true ↔ i ∈ s'.queue) : Arranged now s' where
  timed i hi := (hsame i hi).timed (h.timed i (hsub.subset hi))
  spaced := (h.spaced.sublist hsub).imp_of_mem fun ha hb hab => by
    rw [hi_congr (hsame _ ha), lo_congr (hsame _ hb)]
    exact hab
  nodup := h.nodup.sublist hsub
  enqueued := he

end Invariant

/-! ## The walks -/

section Walks

variable {now : Time} {items : Nat → Item} {sch : Nat} {env : Env}

/-- Two items overlap as their spans do. -/
theorem isOverlap_iff {a b : Item} (ha : Timed now a) (hb : Timed now b) :
    bleLlSchedIsOverlap a b = true ↔ diff a.startTime now < diff b.endTime now ∧
        diff b.startTime now < diff a.endTime now := by
  have h1 := diff_eq_sub ha.start hb.start
  have h2 := diff_eq_sub ha.stop hb.start
  have h3 := diff_eq_sub ha.start hb.stop
  have h4 := ha.proper
  have h5 := hb.proper
  unfold bleLlSchedIsOverlap
  split
  · simp only [Bool.not_eq_true', decide_eq_false_iff_not]
    omega
  · simp only [Bool.not_eq_true', decide_eq_false_iff_not]
    omega

/-- What the walks ask first. -/
theorem endsBefore_iff {a b : Item} (ha : Timed now a) (hb : Timed now b) :
    diff a.endTime b.startTime < 0 ↔ diff a.endTime now < diff b.startTime now := by
  rw [diff_eq_sub ha.stop hb.start]
  omega

/-- What the two tests of a walk say of an item. -/
def Tests (items : Nat → Item) (sch : Nat) (before overlap : Bool) (i : Nat) : Prop :=
  (diff (items sch).endTime (items i).startTime < 0 ↔ before) ∧
    bleLlSchedIsOverlap (items sch) (items i) = overlap

/-- Where the queue is divided for the item `sch`. -/
structure Divided (now : Time) (items : Nat → Item) (sch : Nat) (P V R : List Nat) : Prop where
  before : ∀ i ∈ P, hi now items i ≤ lo now items sch
  meets : ∀ i ∈ V, lo now items sch < hi now items i ∧ lo now items i < hi now items sch
  behind : ∀ i ∈ R, hi now items sch < lo now items i
  timed : ∀ i ∈ P ++ (V ++ R), Timed now (items i)
  new : Timed now (items sch)

/-- The queue can be divided if nothing starts where the item ends. -/
theorem Arranged.divided {s : State} (h : Arranged now s) (hnew : Timed now (s.items sch))
    (ht : ∀ i ∈ s.queue, (s.items i).startTime ≠ (s.items sch).endTime) :
    ∃ P V R, s.queue = P ++ (V ++ R) ∧ Divided now s.items sch P V R := by
  obtain ⟨P, V, R, hq, hP, hV, hR⟩ := h.spaced.parts fun i hi => (h.timed i hi).proper
  refine ⟨P, V, R, hq, hP, hV, fun i hi => ?_, hq ▸ h.timed, hnew⟩
  refine lt_of_le_of_ne (hR i hi) fun he => ?_
  exact ht i (by simp [hq, hi]) (eq_of_diff_eq he.symm)

variable {P V R : List Nat}

theorem Divided.tests (h : Divided now items sch P V R) :
    (∀ i ∈ P, Tests items sch false false i) ∧ (∀ i ∈ V, Tests items sch false true i) ∧
      ∀ i ∈ R, Tests items sch true false i := by
  have hnew : lo now items sch < hi now items sch := h.new.proper
  have htests : ∀ i ∈ P ++ (V ++ R), lo now items i < hi now items i ∧
      ∀ before overlap : Bool, (hi now items sch < lo now items i ↔ before) →
        (lo now items sch < hi now items i ∧ lo now items i < hi now items sch ↔ overlap) →
        Tests items sch before overlap i := by
    intro i hi
    have ht := h.timed i hi
    exact ⟨ht.proper, fun _ _ hb ho => ⟨(endsBefore_iff h.new ht).trans hb,
      Bool.eq_iff_iff.mpr ((isOverlap_iff h.new ht).trans ho)⟩⟩
  refine ⟨fun i hi => ?_, fun i hi => ?_, fun i hi => ?_⟩
  all_goals obtain ⟨hi', hall⟩ := htests i (by simp [hi])
  · have := h.before i hi
    exact hall false false (by simp; omega) (by simp; omega)
  · have := h.meets i hi
    exact hall false true (by simp; omega) (by simp; omega)
  · have := h.behind i hi
    exact hall true false (by simp; omega) (by simp; omega)

theorem evictLoop_behind (hR : ∀ i ∈ R, Tests items sch true false i) :
    evictLoop items sch R = (0, sch :: R, []) := by
  cases R with
  | nil => rfl
  | cons r R => rw [evictLoop, if_pos ((hR r mem_cons_self).1.mpr rfl)]

theorem evictLoop_before (hP : ∀ i ∈ P, Tests items sch false false i) (q : List Nat) :
    evictLoop items sch (P ++ q) = ((evictLoop items sch q).1, P ++ (evictLoop items sch q).2.1,
        (evictLoop items sch q).2.2) := by
  induction P with
  | nil => rfl
  | cons p P ih =>
    obtain ⟨⟨h1, h2⟩, hP⟩ := forall_mem_cons.mp hP
    rw [cons_append, evictLoop, if_neg (by simp [h1]), if_neg (by simp [h2]), ih hP]
    rfl

/-- The walk takes off what the item meets, up to the first that is no
connection. -/
theorem evictLoop_meets (hV : ∀ i ∈ V, Tests items sch false true i)
    (hR : ∀ i ∈ R, Tests items sch true false i) : evictLoop items sch (V ++ R) = (0, sch :: R, V) ∨
      ∃ V1 v V2, V = V1 ++ v :: V2 ∧ (items v).schedType ≠ .conn ∧
        evictLoop items sch (V ++ R) = (-1, v :: V2 ++ R, V1) := by
  induction V with
  | nil => exact .inl (evictLoop_behind hR)
  | cons v V ih =>
    obtain ⟨⟨h1, h2⟩, hV⟩ := forall_mem_cons.mp hV
    rw [cons_append, evictLoop, if_neg (by simp [h1]), if_pos h2]
    split
    · rcases ih hV with he | ⟨V1, w, V2, hV, hw, he⟩
      · exact .inl (by rw [he])
      · exact .inr ⟨v :: V1, w, V2, by rw [hV]; rfl, hw, by rw [he]⟩
    · next hc => exact .inr ⟨[], v, V, rfl, hc, rfl⟩

/-! The walk of `ble_ll_sched_conn_reschedule`. -/

theorem reschedLoop_behind (hR : ∀ i ∈ R, Tests items sch true false i) (first last : Option Nat) :
    reschedLoop env items sch R first last = (0, sch :: R, first, last) := by
  cases R with
  | nil => rfl
  | cons r R =>
    obtain ⟨h1, h2⟩ := hR r mem_cons_self
    rw [reschedLoop, if_neg (by simp [h2]), if_pos (h1.mpr rfl)]

theorem reschedLoop_before (hP : ∀ i ∈ P, Tests items sch false false i) (q : List Nat)
    (first last : Option Nat) : reschedLoop env items sch (P ++ q) first last =
      ((reschedLoop env items sch q first last).1,
        P ++ (reschedLoop env items sch q first last).2.1,
        (reschedLoop env items sch q first last).2.2) := by
  induction P with
  | nil => rfl
  | cons p P ih =>
    obtain ⟨⟨h1, h2⟩, hP⟩ := forall_mem_cons.mp hP
    rw [cons_append, reschedLoop, if_neg (by simp [h2]), if_neg (by simp [h1]), ih hP]
    rfl

theorem reschedLoop_meets (env : Env) (hV : ∀ i ∈ V, Tests items sch false true i)
    (hR : ∀ i ∈ R, Tests items sch true false i) (first last : Option Nat) :
    reschedLoop env items sch (V ++ R) first last =
        (0, V ++ sch :: R, first.or V.head?, V.getLast?.or last) ∨
      ∃ last', reschedLoop env items sch (V ++ R) first last = (-1, V ++ R, none, last') := by
  induction V generalizing first last with
  | nil =>
    refine .inl ?_
    rw [nil_append, reschedLoop_behind hR]
    simp
  | cons v V ih =>
    obtain ⟨⟨-, h2⟩, hV⟩ := forall_mem_cons.mp hV
    rw [cons_append, reschedLoop, if_pos h2]
    split
    · exact .inr ⟨last, rfl⟩
    rcases ih hV _ (some v) with he | ⟨last', he⟩
    · refine .inl ?_
      rw [he]
      cases V with
      | nil => cases first <;> simp
      | cons w V => cases first <;> simp [getLast?_cons]
    · exact .inr ⟨last', by rw [he]⟩

theorem removeTo_append {v : Nat} (hv : V.getLast? = some v) (hn : V.Nodup) :
    removeTo (some v) (V ++ R) = (V, R) := by
  induction V with
  | nil => cases hv
  | cons w V ih =>
    rw [cons_append, removeTo]
    cases V with
    | nil =>
      obtain rfl : w = v := by simpa using hv
      rw [if_pos rfl]
      rfl
    | cons u V =>
      have hlast : (u :: V).getLast? = some v := by
        simpa [getLast?_cons_cons] using hv
      have hwv : w ≠ v := by
        rintro rfl
        exact (nodup_cons.mp hn).1 (mem_of_getLast? hlast)
      rw [if_neg (by simpa using hwv), ih hlast (nodup_cons.mp hn).2]

/-- The first to the last that the item overlaps are removed. -/
theorem removeOverlaps_meets (hn : (P ++ (V ++ R)).Nodup) :
    removeOverlaps V.head? V.getLast? (P ++ (V ++ R)) = (V, P ++ R) := by
  cases V with
  | nil => rfl
  | cons v V =>
    have hP : ∀ i ∈ P, (decide (i ≠ v)) = true := by
      intro i hi
      rw [decide_eq_true_eq]
      rintro rfl
      exact (disjoint_of_nodup_append hn) hi (by simp)
    have hdrop : (P ++ (v :: V ++ R)).dropWhile (fun i => decide (i ≠ v)) = v :: V ++ R := by
      rw [dropWhile_append_of_pos hP, cons_append, dropWhile_cons_of_neg (by simp)]
    have htake : (P ++ (v :: V ++ R)).takeWhile (fun i => decide (i ≠ v)) = P := by
      rw [takeWhile_append_of_pos hP, cons_append, takeWhile_cons_of_neg (by simp), append_nil]
    have hnV : (v :: V).Nodup :=
      (nodup_append.mp (nodup_append.mp hn).2.1).1
    obtain ⟨u, hu⟩ : ∃ u, (v :: V).getLast? = some u := by
      exact ⟨_, rfl⟩
    simp only [head?_cons, removeOverlaps, hdrop, htake, hu, removeTo_append hu hnV]

end Walks

/-! ## Moving an item to a free place -/

/-- The item from `t` on. -/
def Item.movedTo (m : Item) (dur t : Time) : Item :=
  { m with startTime := t, endTime := t + dur }

section Moves

variable {now dur t start initial itvl : Time} {items : Nat → Item} {sch e : Nat} {q : List Nat}

/-- Where a walk goes on behind an entry, with the item from `t` on. -/
theorem next_cases (hte : Timed now (items e)) (hnew : Timed now ((items sch).movedTo dur t)) :
    ∃ next, (if bleLlSchedIsOverlap { items sch with startTime := t, endTime := t + dur } (items e)
        then (items e).endTime else t) = next ∧
      (next = (items e).endTime ∧ diff t now < hi now items e ∨
        next = t ∧ (hi now items e ≤ diff t now ∨ diff (t + dur) now ≤ lo now items e)) := by
  refine ⟨_, rfl, ?_⟩
  split
  · next ho => exact .inl ⟨rfl, ((isOverlap_iff hnew hte).mp ho).1⟩
  · next ho =>
    have hno := mt (isOverlap_iff hnew hte).mpr ho
    simp only [Item.movedTo] at hno
    simp only [hi, lo]
    exact .inr ⟨trivial, by omega⟩

/-- The walk of `ble_ll_sched_adv_new` ends at a place between two items, if
no place that it looks at is exactly as long as the item. -/
theorem advLoop_lands (hs : Spaced (lo now items) (hi now items) q)
    (ht : ∀ i ∈ q, Timed now (items i)) (hnew : Timed now ((items sch).movedTo dur start))
    (hends : ∀ i ∈ q, Timed now ((items sch).movedTo dur (items i).endTime))
    (hgap : ∀ i ∈ q, (items i).startTime ≠ start + dur)
    (hgaps : ∀ i ∈ q, ∀ j ∈ q, (items j).startTime ≠ (items i).endTime + dur) :
    ∃ A B t, q = A ++ B ∧ advLoop items sch dur q start = (A ++ sch :: B, t) ∧
      Timed now ((items sch).movedTo dur t) ∧ diff start now ≤ diff t now ∧
      (∀ i ∈ A, hi now items i ≤ diff t now) ∧ ∀ i ∈ B, diff (t + dur) now ≤ lo now items i := by
  induction q generalizing start with
  | nil => exact ⟨[], [], start, rfl, rfl, hnew, le_refl _, nofun, nofun⟩
  | cons e rest ih =>
    have hte := ht e mem_cons_self
    by_cases hb : diff (start + dur) (items e).startTime < 0
    · refine ⟨[], e :: rest, start, rfl, ?_, hnew, le_refl _, nofun, ?_⟩
      · rw [advLoop, if_pos hb]
        rfl
      · have hlt : diff (start + dur) now < lo now items e :=
          (endsBefore_iff hnew hte).mp hb
        exact hs.le_of_le (le_of_lt hte.proper) (le_of_lt hlt)
    obtain ⟨next, hnext, hcase⟩ := next_cases hte hnew
    obtain ⟨hle, hpast, hnew', hgap'⟩ : diff start now ≤ diff next now ∧
        hi now items e ≤ diff next now ∧ Timed now ((items sch).movedTo dur next) ∧
        ∀ i ∈ rest, (items i).startTime ≠ next + dur := by
      rcases hcase with ⟨rfl, hlt⟩ | ⟨rfl, hclear⟩
      · exact ⟨le_of_lt hlt, le_refl _, hends e mem_cons_self,
          fun i hi => hgaps e mem_cons_self i (mem_cons_of_mem e hi)⟩
      refine ⟨le_refl _, ?_, hnew, fun i hi => hgap i (mem_cons_of_mem e hi)⟩
      rw [show diff (next + dur) (items e).startTime < 0 ↔ _ from endsBefore_iff hnew hte] at hb
      have hne : diff (next + dur) now ≠ diff (items e).startTime now :=
        fun he => hgap e mem_cons_self (eq_of_diff_eq he.symm)
      simp only [Item.movedTo] at hb
      simp only [lo] at hclear
      omega
    obtain ⟨A, B, t, hq, hloop, htt, hst, hA, hB⟩ :=
      ih (pairwise_cons.mp hs).2 (fun i hi => ht i (mem_cons_of_mem e hi)) hnew'
        (fun i hi => hends i (mem_cons_of_mem e hi)) hgap'
        (fun i hi j hj => hgaps i (mem_cons_of_mem e hi) j (mem_cons_of_mem e hj))
    refine ⟨e :: A, B, t, by rw [hq]; rfl, ?_, htt, le_trans hle hst, fun i hi => ?_, hB⟩
    · rw [advLoop, if_neg hb]
      simp only [hnext, hloop]
      rfl
    · rcases mem_cons.mp hi with rfl | hi
      · exact le_trans hpast hst
      · exact hA i hi

/-- From `t` on, for `dur`, nothing else is in the queue. -/
def FitsAt (items : Nat → Item) (q : List Nat) (dur t : Time) : Prop :=
  ∀ i ∈ q, diff (items i).endTime t ≤ 0 ∨ diff (t + dur) (items i).startTime ≤ 0

/-- Every place for a new master connection is too late. -/
def NoPlace (items : Nat → Item) (q : List Nat) (dur initial itvl : Time) : Prop :=
  ∀ t, (t = initial ∨ ∃ i ∈ q, t = (items i).endTime) → FitsAt items q dur t → ¬ t - initial ≤ itvl

/-- An item that lies on one side of `t` and `t + dur` leaves the place free. -/
theorem fits_of_clear {i : Nat} (hti : Timed now (items i))
    (hnew : Timed now ((items sch).movedTo dur t))
    (h : hi now items i ≤ diff t now ∨ diff (t + dur) now ≤ lo now items i) :
    diff (items i).endTime t ≤ 0 ∨ diff (t + dur) (items i).startTime ≤ 0 := by
  have h1 := diff_eq_sub hti.stop hnew.start
  have h2 := diff_eq_sub hnew.stop hti.start
  simp only [Item.movedTo, hi, lo] at h1 h2 h
  omega

theorem NoPlace.congr {items' : Nat → Item} (h : NoPlace items q dur initial itvl)
    (he : ∀ i ∈ q, items' i = items i) : NoPlace items' q dur initial itvl := by
  intro t ht hfits
  refine h t ?_ fun i hi => ?_
  · rcases ht with ht | ⟨i, hi, ht⟩
    · exact .inl ht
    · exact .inr ⟨i, hi, he i hi ▸ ht⟩
  · have hi' := hfits i hi
    rw [he i hi] at hi'
    exact hi'

/-- The walk of `ble_ll_sched_master_new` ends at a place. -/
theorem masterLoop_noPlace {A : List Nat} {earliest : Time}
    (hs : Spaced (lo now items) (hi now items) (A ++ q)) (ht : ∀ i ∈ A ++ q, Timed now (items i))
    (hends : ∀ i ∈ A ++ q, Timed now ((items sch).movedTo dur (items i).endTime))
    (hnew : Timed now ((items sch).movedTo dur earliest))
    (hno : NoPlace items (A ++ q) dur initial itvl)
    (hcand : earliest = initial ∨ ∃ i ∈ A ++ q, earliest = (items i).endTime)
    (hpast : ∀ i ∈ A, hi now items i ≤ diff earliest now ∨
      diff (earliest + dur) now ≤ lo now items i) :
    ∃ t u, masterLoop items sch dur initial itvl q earliest start = (-1, q, t, u) := by
  induction q generalizing A earliest start with
  | nil =>
    refine ⟨earliest, start, ?_⟩
    rw [masterLoop, if_neg]
    refine hno earliest hcand fun i hi => fits_of_clear (ht i hi) hnew (hpast i ?_)
    simpa using hi
  | cons e rest ih =>
    have hte := ht e (by simp)
    have hsplit : A ++ e :: rest = (A ++ [e]) ++ rest := by simp
    by_cases hb : diff (earliest + dur) (items e).startTime < 0
    · refine ⟨earliest, earliest, ?_⟩
      have hlt : diff (earliest + dur) now < lo now items e :=
        (endsBefore_iff hnew hte).mp hb
      have hafter := Spaced.le_of_le (pairwise_append.mp hs).2.1
        (le_of_lt hte.proper) (le_of_lt hlt)
      have hlate : ¬ earliest - initial ≤ itvl := by
        refine hno earliest hcand fun i hi => fits_of_clear (ht i hi) hnew ?_
        rcases mem_append.mp hi with hi | hi
        · exact hpast i hi
        · exact .inr (hafter i hi)
      rw [masterLoop, if_pos hb, if_neg hlate]
    · obtain ⟨next, hnext, hcase⟩ := next_cases hte hnew
      obtain ⟨hnew', hcand', hpast'⟩ : Timed now ((items sch).movedTo dur next) ∧
          (next = initial ∨ ∃ i ∈ A ++ e :: rest, next = (items i).endTime) ∧
          ∀ i ∈ A ++ [e], hi now items i ≤ diff next now ∨
            diff (next + dur) now ≤ lo now items i := by
        rcases hcase with ⟨rfl, -⟩ | ⟨rfl, hclear⟩
        · refine ⟨hends e (by simp), .inr ⟨e, by simp, rfl⟩, fun i hi => ?_⟩
          rcases mem_append.mp hi with hi | hi
          · have hle := (pairwise_append.mp hs).2.2 i hi e (by simp)
            have hp := hte.proper
            simp only [lo] at hle
            exact .inl (by omega)
          · rw [mem_singleton.mp hi]
            exact .inl (le_refl _)
        · exact ⟨hnew, hcand, forall_mem_append.mpr ⟨hpast, by simpa using hclear⟩⟩
      rw [hsplit] at hs ht hends hno hcand'
      obtain ⟨t, u, hloop⟩ := @ih earliest _ _ hs ht hends hnew' hno hcand' hpast'
      refine ⟨t, u, ?_⟩
      rw [masterLoop, if_neg hb]
      simp only [hnext, hloop]

/-- In front of the first there is always a place in time. -/
theorem masterLoop_first {rest : List Nat} (hb : diff (initial + dur) (items e).startTime < 0) :
    masterLoop items sch dur initial itvl (e :: rest) initial start =
      (0, sch :: e :: rest, initial, initial) := by
  rw [masterLoop, if_pos hb, if_pos]
  rw [sub_self, BitVec.le_def]
  exact Nat.zero_le _

end Moves

/-! ## The routines -/

section States

variable {now : Time} {s s' : State} {sch i j : Nat} {f : Item → Item} {P V R : List Nat}

theorem setItem_rest (s : State) (f : Item → Item) (h : j ≠ i) :
    (s.setItem i f).items j = s.items j := Function.update_of_ne h _ _

theorem setItem_self (s : State) (i : Nat) (f : Item → Item) :
    (s.setItem i f).items i = f (s.items i) := Function.update_self _ _ _

theorem setEnqueued_items (s : State) (i j : Nat) (b : Bool) : (s.setEnqueued i b).items j =
      if j = i then { s.items j with enqueued := b } else s.items j := by
  split
  · next h =>
    rw [h]
    exact setItem_self s i _
  · next h => exact setItem_rest s _ h

theorem setEnqueued_times (s : State) (i j : Nat) (b : Bool) :
    SameTimes (s.items j) ((s.setEnqueued i b).items j) := by
  rw [setEnqueued_items]
  split <;> exact ⟨rfl, rfl⟩

theorem dropped_items (s : State) (i : Nat) :
    (s.dropped i).items = (s.setEnqueued i false).items := by
  unfold State.dropped
  dsimp only
  split <;> rfl

/-- What has been taken off the queue, one after the other. -/
abbrev State.dropAll (gone : List Nat) (s : State) : State :=
  gone.foldl (fun s i => s.dropped i) s

theorem dropAll_timer (gone : List Nat) (s : State) : (s.dropAll gone).timer = s.timer := by
  induction gone generalizing s with
  | nil => rfl
  | cons i gone ih =>
    refine (ih (s.dropped i)).trans ?_
    unfold State.dropped
    dsimp only
    split <;> rfl

theorem dropAll_items (gone : List Nat) (s : State) (j : Nat) : (s.dropAll gone).items j =
      if j ∈ gone then { s.items j with enqueued := false } else s.items j := by
  induction gone generalizing s with
  | nil => simp
  | cons i gone ih =>
    rw [State.dropAll, foldl_cons, ih, dropped_items, setEnqueued_items]
    by_cases hji : j = i
    · simp [hji]
    · by_cases hjg : j ∈ gone
      · simp [hji, hjg]
      · simp [hji, hjg]

theorem setItem_enqueued (s : State) (i j : Nat) (hf : ∀ m, (f m).enqueued = m.enqueued) :
    ((s.setItem i f).items j).enqueued = (s.items j).enqueued := by
  by_cases hj : j = i
  · rw [hj, setItem_self, hf]
  · rw [setItem_rest s f hj]

theorem setItem_queue (hsch : sch ∉ s.queue) (f : Item → Item) :
    ∀ i ∈ s.queue, (s.setItem sch f).items i = s.items i :=
  fun _ hi => setItem_rest s f fun he => hsch (he ▸ hi)

/-- The times of an item that is not in the queue are nobody's concern. -/
theorem InOrder.setItem (h : InOrder s) (hsch : sch ∉ s.queue)
    (hf : ∀ m, (f m).enqueued = m.enqueued) : InOrder (s.setItem sch f) := by
  have hrest := setItem_queue hsch f
  refine h.sublist (.refl _) (fun i hi => ?_) (fun i => ?_) ?_
  · rw [hrest i hi]
    exact ⟨rfl, rfl⟩
  · rw [setItem_enqueued s sch i hf]
    exact h.enqueued i
  · show s.timer = s.queue.head?.map _
    rw [h.timer]
    cases hq : s.queue with
    | nil => rfl
    | cons i rest =>
      have hi := hrest i (by simp [hq])
      simp [hi]

/-- What is shown of a routine: it has a result, the queue is in order again,
and only the item `sch` may have other times. -/
def Keeps (s : State) (sch : Option Nat) (r : Option State) : Prop :=
  ∃ s', r = some s' ∧ InOrder s' ∧ ∀ i, sch ≠ some i → SameTimes (s.items i) (s'.items i)

/-- The timer is started at the end. -/
theorem Arranged.keeps (h : Arranged now s') (ht : s'.timer = none) (hne : s'.queue ≠ [])
    (hs : ∀ i, i ≠ sch → SameTimes (s.items i) (s'.items i)) :
    Keeps s (some sch) s'.timerStartFirst := by
  obtain ⟨s1, he, ho, hi⟩ := h.timerStartFirst ht hne
  refine ⟨s1, he, ho, fun i hne => ?_⟩
  rw [hi]
  exact hs i fun he => hne (by rw [he])

/-- One comes into the queue, between those that end before it starts and those
that start after it ends. -/
theorem Arranged.come (h : Arranged now s) {A B : List Nat}
    (hq : s.queue = A ++ B) (hsch : sch ∉ s.queue) (hnew : Timed now (s.items sch))
    (hA : ∀ i ∈ A, hi now s.items i ≤ lo now s.items sch)
    (hB : ∀ i ∈ B, hi now s.items sch ≤ lo now s.items i) :
    Arranged now ((s.withQueue (A ++ sch :: B)).setEnqueued sch true) := by
  have hsame := fun i => setEnqueued_times (s.withQueue (A ++ sch :: B)) sch i true
  obtain ⟨hlo, hhi⟩ := spans_congr now hsame
  have hspaced := h.spaced
  have hnodup := h.nodup
  rw [hq] at hspaced hnodup hsch
  refine ⟨fun i hi => (hsame i).timed ?_, ?_, nodup_middle.mpr (nodup_cons.mpr
    ⟨hsch, hnodup⟩), fun i => ?_⟩
  · by_cases his : i = sch
    · rw [his]
      exact hnew
    · refine h.timed i ?_
      rw [hq]
      exact (mem_cons.mp (perm_middle.mem_iff.mp hi)).resolve_left his
  · rw [hlo, hhi]
    exact Spaced.insert hspaced hA hB
  · show _ ↔ i ∈ A ++ sch :: B
    rw [setEnqueued_items]
    by_cases hi : i = sch
    · simp [hi]
    · rw [if_neg hi]
      refine (h.enqueued i).trans ?_
      simp [hq, hi]

/-- The item goes into the empty queue. -/
theorem InOrder.keeps_empty (h : InOrder s) (hq : s.queue = []) (hnew : Timed now (s.items sch)) :
    Keeps s (some sch) (((s.withQueue [sch]).setEnqueued sch true).timerStartFirst) := by
  have hempty : Arranged now s := h.arranged (by simp [hq])
  refine (hempty.come (A := []) hq (by simp [hq]) hnew nofun nofun).keeps ?_
    (cons_ne_nil _ _) fun i _ => setEnqueued_times _ sch i true
  show s.timer = none
  rw [h.timer, hq]
  rfl

/-- Dropping items does not change any times. -/
theorem dropped_times (gone : List Nat) (s : State) (i : Nat) :
    SameTimes (s.items i) ((s.dropAll gone).items i) := by
  rw [dropAll_items]
  split <;> exact ⟨rfl, rfl⟩

/-- The middle of the queue is dropped. -/
theorem Arranged.dropMiddle (h : Arranged now s) (hq : s.queue = P ++ (V ++ R)) :
    Arranged now ((s.dropAll V).withQueue (P ++ R)) := by
  have hnd := h.nodup
  rw [hq] at hnd
  have hdis := disjoint_of_nodup_append ((perm_append_comm_assoc P V R).nodup hnd)
  have hsub : (P ++ R).Sublist s.queue := by
    rw [hq]
    exact (Sublist.refl P).append (sublist_append_right V R)
  refine h.sublist hsub (fun i _ => dropped_times V s i) fun i => ?_
  show ((s.dropAll V).items i).enqueued = true ↔ i ∈ P ++ R
  rw [dropAll_items]
  by_cases hV : i ∈ V
  · have hnot : i ∉ P ++ R := hdis hV
    simp [hV, hnot]
  · rw [if_neg hV, h.enqueued, hq]
    simp [hV]

/-- What the item meets is dropped, and it takes its place. -/
theorem Arranged.takePlace (h : Arranged now s) (ht : s.timer = none) (hq : s.queue = P ++ (V ++ R))
    (hsch : sch ∉ s.queue) (hd : Divided now s.items sch P V R) :
    Keeps s (some sch) ((((s.dropAll V).withQueue
      (P ++ sch :: R)).setEnqueued sch true).timerStartFirst) := by
  have hsame := dropped_times V s
  obtain ⟨hlo, hhi⟩ := spans_congr now hsame
  have hfree : sch ∉ P ++ R := fun hm => hsch (by
    rw [hq]
    exact (Sublist.refl P).append (sublist_append_right V R) |>.subset hm)
  refine (Arranged.come (h.dropMiddle hq) rfl hfree ((hsame sch).timed hd.new)
    (hlo ▸ hhi ▸ hd.before) (hlo ▸ hhi ▸ fun i hi => le_of_lt (hd.behind i hi))).keeps
    ((dropAll_timer V s).trans ht) ?_ fun i _ => (hsame i).trans (setEnqueued_times _ sch i _)
  show P ++ sch :: R ≠ []
  simp

/-- The walk of a new slave connection, with the timer stopped. -/
theorem Arranged.keeps_evict (h : Arranged now s) (ht : s.timer = none)
    (hsch : sch ∉ s.queue) (hnew : Timed now (s.items sch))
    (htouch : ∀ i ∈ s.queue, (s.items i).startTime ≠ (s.items sch).endTime) : Keeps s (some sch)
        ((evicted sch (evictLoop s.items sch s.queue) s).timerStartFirst) ∧
      ((∀ i ∈ s.queue, bleLlSchedIsOverlap (s.items sch) (s.items i) →
          (s.items i).schedType = .conn) → (evictLoop s.items sch s.queue).1 = 0) := by
  obtain ⟨P, V, R, hq, hd⟩ := h.divided hnew htouch
  obtain ⟨hP, hV, hR⟩ := hd.tests
  have hloop := evictLoop_before hP (V ++ R)
  rcases evictLoop_meets hV hR with he | ⟨V1, v, V2, hV', hv, he⟩
  · rw [he] at hloop
    rw [hq, hloop]
    exact ⟨h.takePlace ht hq hsch hd, fun _ => rfl⟩
  rw [he] at hloop
  rw [hq, hloop]
  have hvV : v ∈ V := by simp [hV']
  refine ⟨?_, fun hall => (hv (hall v (by simp [hvV]) (hV v hvV).2)).elim⟩
  have hdrop := h.dropMiddle (R := v :: V2 ++ R) (by
    rw [hq, hV', append_assoc])
  exact hdrop.keeps ((dropAll_timer V1 s).trans ht)
    (by show P ++ (v :: V2 ++ R) ≠ []; simp) fun i _ => dropped_times V1 s i

/-- To set a flag and to drop another item do not meet. -/
theorem dropped_setEnqueued (s : State) (h : i ≠ j) (b : Bool) :
    (s.setEnqueued j b).dropped i = (s.dropped i).setEnqueued j b := by
  have hcomm : (s.setEnqueued j b).setEnqueued i false =
      (s.setEnqueued i false).setEnqueued j b := by
    simp only [State.setEnqueued, State.setItem, Function.update_of_ne h,
      Function.update_of_ne h.symm, Function.update_comm h]
  have hi : ((s.setEnqueued i false).setEnqueued j b).items i =
      (s.setEnqueued i false).items i := setItem_rest _ _ h
  unfold State.dropped
  dsimp only
  rw [hcomm, hi]
  split <;> rfl

theorem foldl_setEnqueued (hV : sch ∉ V) (s : State) (b : Bool) :
    (s.setEnqueued sch b).dropAll V = (s.dropAll V).setEnqueued sch b := by
  induction V generalizing s with
  | nil => rfl
  | cons v V ih =>
    have hne : v ≠ sch := fun he => hV (he ▸ mem_cons_self)
    rw [State.dropAll, foldl_cons, dropped_setEnqueued s hne]
    exact ih (fun hm => hV (mem_cons_of_mem v hm)) (s.dropped v)

/-- The walk of a connection that is scheduled again. -/
theorem Arranged.keeps_resched (h : Arranged now s) (ht : s.timer = none)
    (hsch : sch ∉ s.queue) (hnew : Timed now (s.items sch))
    (htouch : ∀ i ∈ s.queue, (s.items i).startTime ≠ (s.items sch).endTime)
    {env : Env} {rc : Int} {q : List Nat} {first last : Option Nat}
    (hloop : reschedLoop env s.items sch s.queue none none = (rc, q, first, last)) :
    Keeps s (some sch) ((((if rc = 0 then s.setEnqueued sch true else s).dropAll
      (removeOverlaps first last q).1).withQueue
        (removeOverlaps first last q).2).timerStartFirst) := by
  obtain ⟨P, V, R, hq, hd⟩ := h.divided hnew htouch
  obtain ⟨hP, hV, hR⟩ := hd.tests
  rw [hq, reschedLoop_before hP] at hloop
  rcases reschedLoop_meets env hV hR none none with he | ⟨last', he⟩
  · rw [he, Option.none_or, Option.or_none] at hloop
    cases hloop
    have hnd : (P ++ (V ++ sch :: R)).Nodup := by
      have hn := h.nodup
      rw [hq] at hn hsch
      rw [← append_assoc, nodup_middle, append_assoc]
      exact nodup_cons.mpr ⟨hsch, hn⟩
    have hV : sch ∉ V := fun hm => hsch (by simp [hq, hm])
    rw [removeOverlaps_meets hnd, if_pos rfl, foldl_setEnqueued hV]
    exact h.takePlace ht hq hsch hd
  · rw [he] at hloop
    cases hloop
    refine Arranged.keeps (?_ : Arranged now _) ht ?_ fun i _ => ⟨rfl, rfl⟩
    · rw [← hq]
      exact h
    · intro hnil
      have hnil : V ++ R = [] := (append_eq_nil_iff.mp hnil).2
      rw [hnil] at he
      cases he

end States

/-! ## Runs -/

/-- The calls. An advertising item has been given its times, and `run` is the
timer's interrupt. -/
inductive Op where
  | masterNew (env : Env) (connsm : ConnSm) (advRxend : Time) (reqSlots : BitVec 8)
  | slaveNew (env : Env) (connsm : ConnSm)
  | connReschedule (env : Env) (connsm : ConnSm)
  | advNew (env : Env) (sch : Nat) (start stop : Time)
  | advReschedule (env : Env) (sch : Nat) (start stop : Time)
  | rmvElem (sch : Nat)
  | run (clock : Nat → Time)

def State.step (s : State) : Op → Option State
  | .masterNew env connsm advRxend reqSlots =>
    (bleLlSchedMasterNew env connsm advRxend reqSlots s).map (·.2.2)
  | .slaveNew env connsm => (bleLlSchedSlaveNew env connsm s).map (·.2)
  | .connReschedule env connsm =>
    (bleLlSchedConnReschedule env connsm s).map (·.2)
  | .advNew env sch start stop =>
    (bleLlSchedAdvNew env sch (s.setTimes sch start stop)).map (·.2)
  | .advReschedule env sch start stop =>
    (bleLlSchedAdvReschedule env sch (s.setTimes sch start stop)).map (·.2)
  | .rmvElem sch => bleLlSchedRmvElem sch s
  | .run clock => bleLlSchedRun clock s

/-- The item that is being scheduled. -/
def Op.item : Op → Option Nat
  | .masterNew _ connsm _ _ | .slaveNew _ connsm | .connReschedule _ connsm =>
    some connsm.sch
  | .advNew _ sch _ _ | .advReschedule _ sch _ _ => some sch
  | .rmvElem _ | .run _ => none

def NearQueue (now : Time) (s : State) : Prop :=
  ∀ i ∈ s.queue, Near now (s.items i).startTime ∧ Near now (s.items i).endTime

/-- A span that is asked for. -/
def Asks (now start stop : Time) : Prop :=
  Near now start ∧ Near now stop ∧ diff start stop < 0

def slaveStart (env : Env) (connsm : ConnSm) : Time :=
  connsm.anchorPoint - env.usecsToTicks (xcvrRxSchedDelayUsecs + connsm.slaveCurWindowWidening)

def reschedStart (env : Env) (connsm : ConnSm) : Time :=
  connsm.anchorPoint - env.usecsToTicks (if connsm.isSlave then
      xcvrRxSchedDelayUsecs + connsm.slaveCurWindowWidening
    else
      xcvrTxSchedDelayUsecs)

/-- The item is not in the queue, and all times are within `2 ^ 30` ticks of
the clock, wherever the item may be moved to. -/
def Fair (s : State) : Op → Prop
  | .masterNew env connsm advRxend reqSlots =>
    (s.items connsm.sch).enqueued = false ∧ NearQueue env.now s ∧
      Asks env.now (masterInitial env advRxend)
        (masterInitial env advRxend + masterDur env reqSlots) ∧ ∀ i ∈ s.queue,
        Near env.now ((s.items i).endTime + masterDur env reqSlots)
  | .slaveNew env connsm =>
    (s.items connsm.sch).enqueued = false ∧ NearQueue env.now s ∧
      Asks env.now (slaveStart env connsm) connsm.ceEndTime
  | .connReschedule env connsm =>
    (s.items connsm.sch).enqueued = false ∧ NearQueue env.now s ∧
      Asks env.now (reschedStart env connsm) connsm.ceEndTime
  | .advNew env sch start stop =>
    (s.items sch).enqueued = false ∧ NearQueue env.now s ∧ Asks env.now (advStart env start)
        (advStart env start + (stop - start)) ∧
      ∀ i ∈ s.queue, Near env.now ((s.items i).endTime + (stop - start))
  | .advReschedule env sch start stop =>
    (s.items sch).enqueued = false ∧ NearQueue env.now s ∧ Asks env.now start stop
  | .rmvElem _ => True
  | .run clock => ∃ t, s.timer = some t ∧ 0 ≤ diff (clock 0) t

/-- What keeps clear of the places where the routines go wrong. -/
def Spares (s : State) : Op → Prop
  -- A new master connection is put first, or it finds no place.
  | .masterNew env connsm advRxend reqSlots =>
    s.queue = [] ∨ (∃ i, s.queue.head? = some i ∧
      diff (masterInitial env advRxend + masterDur env reqSlots) (s.items i).startTime < 0) ∨
    NoPlace s.items s.queue (masterDur env reqSlots)
      (masterInitial env advRxend) (masterItvl env connsm)
  -- Nothing starts when the item ends.
  | .slaveNew _ connsm | .connReschedule _ connsm =>
    ∀ i ∈ s.queue, (s.items i).startTime ≠ connsm.ceEndTime
  | .advNew env _ start stop =>
    (∀ i ∈ s.queue, (s.items i).startTime ≠ advStart env start + (stop - start)) ∧
    ∀ i ∈ s.queue, ∀ j ∈ s.queue, (s.items j).startTime ≠ (s.items i).endTime + (stop - start)
  -- Only connections are in the way.
  | .advReschedule _ sch start stop =>
    (∀ i ∈ s.queue, (s.items i).startTime ≠ stop) ∧ ∀ i ∈ s.queue, bleLlSchedIsOverlap
        { s.items sch with startTime := start, endTime := stop } (s.items i) →
      (s.items i).schedType = .conn
  | .rmvElem _ | .run _ => True

/-- What is shown of each call. -/
def KeepsStep (s : State) (op : Op) : Prop := Fair s op → Spares s op → Keeps s op.item (s.step op)

section Routines

variable {now start stop t u : Time} {s : State} {sch : Nat} {q : List Nat}

theorem InOrder.notMem (h : InOrder s) (he : (s.items sch).enqueued = false) : sch ∉ s.queue := by
  rw [← h.enqueued, he]
  exact Bool.false_ne_true

theorem Asks.timed (h : Asks now start stop) {m : Item} (hs : m.startTime = start)
    (he : m.endTime = stop) : Timed now m := by
  obtain ⟨h1, h2, h3⟩ := h
  rw [diff_eq_sub h1 h2] at h3
  refine ⟨hs ▸ h1, he ▸ h2, ?_⟩
  rw [hs, he]
  omega

/-- The item is as long wherever it is moved. -/
theorem Asks.timed_moved {dur : Time} (h : Asks now start (start + dur)) (ht : Near now t)
    (htd : Near now (t + dur)) (m : Item) : Timed now (m.movedTo dur t) := by
  obtain ⟨h1, h2, h3⟩ := h
  have hlen := diff_add_left start dur
  have hlen' := diff_add_left t dur
  rw [diff_eq_sub h2 h1] at hlen
  rw [diff_eq_sub htd ht] at hlen'
  rw [diff_eq_sub h1 h2] at h3
  refine ⟨ht, htd, ?_⟩
  show diff t now < diff (t + dur) now
  omega

theorem map_snd_pair (r : Option State) (rc : Int) : (r.map fun s => (rc, s)).map (·.2) = r := by
  simp

/-- The item has been given its times, `s` being the state before. -/
structure Prepared (now : Time) (sch : Nat) (s s₁ : State) : Prop where
  order : InOrder s₁
  free : sch ∉ s₁.queue
  near : NearQueue now s₁
  new : Timed now (s₁.items sch)
  same : ∀ i, i ≠ sch → s₁.items i = s.items i
  queue : s₁.queue = s.queue

theorem setTimes_self (s : State) (sch : Nat) (start stop : Time) :
    (s.setTimes sch start stop).items sch =
      { s.items sch with startTime := start, endTime := stop } := setItem_self _ _ _

theorem InOrder.prepared (h : InOrder s) (he : (s.items sch).enqueued = false)
    (hn : NearQueue now s) (ha : Asks now start stop) :
    Prepared now sch s (s.setTimes sch start stop) := by
  have hsch := h.notMem he
  refine ⟨h.setItem hsch fun _ => rfl, hsch, fun i hi => ?_, ?_,
    fun i hi => setItem_rest s _ hi, rfl⟩
  · rw [State.setTimes, setItem_queue hsch _ i hi]
    exact hn i hi
  · rw [setTimes_self]
    exact ha.timed rfl rfl

variable {s₁ : State}

section

variable (h : Prepared now sch s s₁)
include h

theorem Prepared.keeps {r : Option State} (hk : Keeps s₁ (some sch) r) : Keeps s (some sch) r := by
  obtain ⟨s', hr, ho, hs⟩ := hk
  refine ⟨s', hr, ho, fun i hne => ?_⟩
  rw [← h.same i fun he => hne (by rw [he])]
  exact hs i hne

/-- A routine gives up before it looks at the queue. -/
theorem Prepared.keeps_self : Keeps s (some sch) (some s₁) :=
  h.keeps ⟨s₁, rfl, h.order, fun _ _ => ⟨rfl, rfl⟩⟩

/-- With the timer stopped, the walk can begin. -/
theorem Prepared.stopped : Arranged now s₁.timerStop := by
  obtain ⟨h1, h2, h3, h4⟩ := h.order.arranged h.near
  exact ⟨h1, h2, h3, h4⟩

theorem Prepared.queued {i : Nat} (hi : i ∈ s₁.queue) : s₁.items i = s.items i :=
  h.same i fun he => h.free (he ▸ hi)

/-- Nothing starts where the item ends. -/
theorem Prepared.touch (he : (s₁.items sch).endTime = stop)
    (ht : ∀ i ∈ s.queue, (s.items i).startTime ≠ stop) :
    ∀ i ∈ s₁.queue, (s₁.items i).startTime ≠ (s₁.items sch).endTime := by
  intro i hi
  rw [he, h.queued hi]
  exact ht i (h.queue ▸ hi)

end

theorem setTimes_endTime (s : State) (sch : Nat) (start stop : Time) :
    ((s.setTimes sch start stop).items sch).endTime = stop := by
  rw [setTimes_self]

/-- The end of the two routines that evict. -/
theorem Prepared.keeps_evict (h : Prepared now sch s s₁)
    (ht : ∀ i ∈ s₁.queue, (s₁.items i).startTime ≠ (s₁.items sch).endTime) : Keeps s (some sch)
      (match s₁.bleLlSchedInsertIfEmpty sch with
      | (true, s) => s.timerStart (s.items sch).startTime
      | (false, s) => (evicted sch (evictLoop s.items sch s.queue)
          s.timerStop).timerStartFirst) := by
  refine h.keeps ?_
  cases hq : s₁.queue with
  | nil =>
    simp only [State.bleLlSchedInsertIfEmpty, hq]
    exact h.order.keeps_empty hq h.new
  | cons i rest =>
    simp only [State.bleLlSchedInsertIfEmpty, hq]
    rw [← hq]
    exact (h.stopped.keeps_evict rfl h.free h.new ht).1

theorem keeps_slaveNew (h : InOrder s) (env : Env) (connsm : ConnSm) :
    KeepsStep s (.slaveNew env connsm) := by
  rintro ⟨he, hn, ha⟩ hs
  have hp := h.prepared he hn ha
  have ht := hp.touch (setTimes_endTime s _ _ _) hs
  simp only [State.step, bleLlSchedSlaveNew]
  rw [slaveStart] at hp ht
  generalize s.setTimes connsm.sch _ connsm.ceEndTime = s1 at hp ht ⊢
  split
  · exact hp.keeps_self
  have hk := hp.keeps_evict ht
  generalize s1.bleLlSchedInsertIfEmpty connsm.sch = p at hk ⊢
  rcases p with ⟨_ | _, s2⟩
  all_goals
    rw [map_snd_pair]
    exact hk

theorem keeps_advReschedule (h : InOrder s) (env : Env) (sch : Nat) (start stop : Time) :
    KeepsStep s (.advReschedule env sch start stop) := by
  rintro ⟨he, hn, ha⟩ hs
  have hp := h.prepared he hn ha
  have ht := hp.touch (setTimes_endTime s _ _ _) hs.1
  have hself := setTimes_self s sch start stop
  simp only [State.step, bleLlSchedAdvReschedule]
  generalize s.setTimes sch start stop = s1 at hp ht hself ⊢
  have hconn : ∀ i ∈ s1.queue, bleLlSchedIsOverlap (s1.items sch) (s1.items i) →
      (s1.items i).schedType = .conn := by
    intro i hi
    rw [hself, hp.queued hi]
    exact hs.2 i (hp.queue ▸ hi)
  split
  · exact hp.keeps_self
  have hk := hp.keeps_evict ht
  have hrc := (hp.stopped.keeps_evict rfl hp.free hp.new ht).2 hconn
  cases hq : s1.queue with
  | nil =>
    simp only [State.bleLlSchedInsertIfEmpty, hq] at hk ⊢
    rw [map_snd_pair]
    exact hk
  | cons i rest =>
    simp only [State.bleLlSchedInsertIfEmpty, hq] at hk ⊢
    rw [if_pos hrc, map_snd_pair]
    rw [← hq] at hk
    exact hk

theorem keeps_connReschedule (h : InOrder s) (env : Env) (connsm : ConnSm) :
    KeepsStep s (.connReschedule env connsm) := by
  rintro ⟨he, hn, ha⟩ hs
  have hp := h.prepared he hn ha
  have ht := hp.touch (setTimes_endTime s _ _ _) hs
  simp only [State.step, bleLlSchedConnReschedule]
  rw [reschedStart] at hp ht
  generalize s.setTimes connsm.sch _ connsm.ceEndTime = s1 at hp ht ⊢
  split
  · exact hp.keeps_self
  split
  · exact hp.keeps_self
  · obtain ⟨⟨rc, q, first, last⟩, hloop⟩ : ∃ r, reschedLoop env
        s1.timerStop.items connsm.sch s1.timerStop.queue none none = r := ⟨_, rfl⟩
    rw [hloop, map_snd_pair]
    exact hp.keeps (hp.stopped.keeps_resched rfl hp.free hp.new ht hloop)

/-- The times of an item outside the queue, before the timer is started. -/
theorem Arranged.setTimes (h : Arranged now s) (hsch : sch ∉ s.queue)
    (start stop : Time) : Arranged now (s.setTimes sch start stop) := by
  refine h.sublist (Sublist.refl _) (fun i hi => ?_) fun i => ?_
  · rw [State.setTimes, setItem_queue hsch _ i hi]
    exact ⟨rfl, rfl⟩
  · refine Iff.trans ?_ (h.enqueued i)
    rw [State.setTimes, setItem_enqueued]
    intro _
    rfl

/-- The item goes to the time `t`, between `A` and `B`. -/
theorem Prepared.keeps_come {A B : List Nat} (h : Prepared now sch s s₁) (hAB : s₁.queue = A ++ B)
    (ht : Timed now { s₁.items sch with startTime := t, endTime := u })
    (hA : ∀ i ∈ A, hi now s₁.items i ≤ diff t now) (hB : ∀ i ∈ B, diff u now ≤ lo now s₁.items i) :
    Keeps s (some sch) ((((s₁.timerStop.setTimes sch t u).withQueue
      (A ++ sch :: B)).setEnqueued sch true).timerStartFirst) := by
  have hself := setTimes_self s₁.timerStop sch t u
  have hrest : ∀ i, i ≠ sch → (s₁.timerStop.setTimes sch t u).items i = s₁.items i :=
    fun i hi => setItem_rest _ _ hi
  have hmem : ∀ i ∈ A ++ B, i ≠ sch := fun i hi he =>
    h.free (hAB ▸ he ▸ hi)
  have hfree : sch ∉ (s₁.timerStop.setTimes sch t u).queue := h.free
  have hnew := (h.stopped.setTimes h.free t u).come hAB hfree (by rw [hself]; exact ht)
    (fun i hi => by
      rw [Sched.hi, lo, hself, hrest i (hmem i (by simp [hi]))]
      exact hA i hi) fun i hi => by
      rw [Sched.hi, lo, hself, hrest i (hmem i (by simp [hi]))]
      exact hB i hi
  refine h.keeps (hnew.keeps rfl ?_ fun i hi => ?_)
  · show A ++ sch :: B ≠ []
    simp
  · refine SameTimes.trans ?_ (setEnqueued_times _ sch i true)
    show SameTimes _ ((s₁.timerStop.setTimes sch t u).items i)
    rw [hrest i hi]
    exact ⟨rfl, rfl⟩

theorem setTimes_setTimes (s : State) (sch : Nat) (a b a' b' : Time) :
    (s.setTimes sch a b).setTimes sch a' b' = s.setTimes sch a' b' := by
  simp [State.setTimes, State.setItem]

theorem keeps_advNew (h : InOrder s) (env : Env) (sch : Nat) (start stop : Time) :
    KeepsStep s (.advNew env sch start stop) := by
  rintro ⟨he, hn, ha, hends⟩ ⟨hgap, hgaps⟩
  have hp := h.prepared he hn ha
  simp only [State.step, bleLlSchedAdvNew]
  rw [setTimes_self, setTimes_setTimes]
  generalize s.setTimes sch (advStart env start) (advStart env start + (stop - start)) = s1 at hp ⊢
  cases hq : s1.queue with
  | nil =>
    simp only [State.bleLlSchedInsertIfEmpty, hq]
    rw [map_snd_pair]
    exact hp.keeps (hp.order.keeps_empty hq hp.new)
  | cons i rest =>
    simp only [State.bleLlSchedInsertIfEmpty, hq]
    have hstop := hp.stopped
    have hitem : ∀ j ∈ s1.queue, s1.timerStop.items j = s.items j := fun _ => hp.queued
    have hmem : ∀ j ∈ s1.queue, j ∈ s.queue := fun j hj => hp.queue ▸ hj
    obtain ⟨A, B, t, hAB, hloop, htimed, -, hA, hB⟩ :=
      advLoop_lands hstop.spaced hstop.timed (ha.timed_moved ha.1 ha.2.1 _)
        (fun j hj => ha.timed_moved (hp.near j hj).2
          (by rw [hp.queued hj]; exact hends j (hmem j hj)) _) (fun j hj => by
          rw [hitem j hj]
          exact hgap j (hmem j hj)) (fun j hj l hl => by
          rw [hitem j hj, hitem l hl]
          exact hgaps j (hmem j hj) l (hmem l hl))
    rw [hloop, map_snd_pair]
    exact hp.keeps_come hAB htimed hA hB

/-- A new master connection, after the walk. -/
theorem step_masterNew {env : Env} {connsm : ConnSm} {advRxend : Time} {reqSlots : BitVec 8}
    {f i : Nat} {rest : List Nat} {rc : Int} {earliest : Time} (hq : s.queue = i :: rest)
    (hloop : masterLoop (s.setItem connsm.sch fun m => { m with
        startTime := advRxend + env.usecsToTicks
          (bleLlIfs + bleLlConnReqDuration + bleLlConnInitialOffset) }).items
      connsm.sch (masterDur env reqSlots) (masterInitial env advRxend)
      (masterItvl env connsm) (i :: rest) (masterInitial env advRxend)
      (masterInitial env advRxend) = (rc, f :: q, earliest, u)) :
    s.step (.masterNew env connsm advRxend reqSlots) =
      if rc = 0 then
        ((((s.timerStop.setTimes connsm.sch u
          (u + masterDur env reqSlots)).withQueue (f :: q)).setEnqueued
            connsm.sch true).setTimes f earliest
              (earliest + masterDur env reqSlots)).timerStartFirst
      else
        ((s.timerStop.setTimes connsm.sch u
          (u + masterDur env reqSlots)).withQueue (f :: q)).timerStartFirst := by
  have hempty : ∀ f, (s.setItem connsm.sch f).bleLlSchedInsertIfEmpty
      connsm.sch = (false, s.setItem connsm.sch f) := fun f => by
    simp only [State.bleLlSchedInsertIfEmpty, State.setItem, hq]
  have hq' : ∀ f, (s.setItem connsm.sch f).timerStop.queue = i :: rest :=
    fun _ => hq
  have hitems : ∀ f, (s.setItem connsm.sch f).timerStop.items =
    (s.setItem connsm.sch f).items := fun _ => rfl
  have hset : ∀ f stop, (s.setItem connsm.sch fun m => { m with
      startTime := f }).timerStop.setTimes connsm.sch u stop =
        s.timerStop.setTimes connsm.sch u stop := fun f stop => by
    simp [State.setTimes, State.setItem, State.timerStop]
  simp only [State.step, bleLlSchedMasterNew, hempty, hq', hitems, hloop, hset]
  split
  all_goals
    simp only [Option.map_map]
    exact Option.map_id'

/-- Where a new master connection is first, or finds no place. -/
theorem keeps_masterNew (h : InOrder s) (env : Env) (connsm : ConnSm) (advRxend : Time)
    (reqSlots : BitVec 8) : KeepsStep s (.masterNew env connsm advRxend reqSlots) := by
  rintro ⟨he, hn, ha, hends⟩ hs
  have hp := h.prepared he hn ha
  cases hq : s.queue with
  | nil =>
    have hk := hp.keeps (hp.order.keeps_empty (hp.queue.trans hq) hp.new)
    have hstep : s.step (.masterNew env connsm advRxend reqSlots) =
        (((s.setTimes connsm.sch (masterInitial env advRxend)
          (masterInitial env advRxend + masterDur env reqSlots)).withQueue
            [connsm.sch]).setEnqueued connsm.sch true).timerStartFirst := by
      simp only [State.step, bleLlSchedMasterNew,
        State.bleLlSchedInsertIfEmpty, State.setItem, hq, Option.map_map]
      refine Option.map_id'.trans ?_
      simp [State.timerStartFirst, State.setTimes, State.setItem,
        State.setEnqueued, State.withQueue]
    rw [hstep]
    exact hk
  | cons i rest =>
    have hitem : ∀ f, ∀ j ∈ i :: rest, (s.setItem connsm.sch f).items j = s.items j := fun f j hj =>
      setItem_rest s f fun hj' => hp.free (hp.queue ▸ hq ▸ hj' ▸ hj)
    have htimed : ∀ j ∈ s.queue, Timed env.now (s.items j) :=
      (h.arranged hn).timed
    have hspaced := (h.arranged hn).spaced
    rw [hq] at htimed hspaced hends
    rcases hs with hnil | ⟨j, hj, hb⟩ | hno
    · rw [hq] at hnil
      cases hnil
    · rw [hq] at hj
      cases hj
      rw [step_masterNew hq (masterLoop_first
        (by rw [hitem _ i mem_cons_self]; exact hb)), if_pos rfl]
      have hti := htimed i mem_cons_self
      have hlt := (endsBefore_iff (ha.timed_moved ha.1 ha.2.1 (s.items i)) hti).mp hb
      have hk := hp.keeps_come (A := []) (t := masterInitial env advRxend) hq
        (ha.timed rfl rfl) nofun (fun j hj => by
          rw [lo, State.setTimes, hitem _ j hj]
          exact hspaced.le_of_le (le_of_lt hti.proper) (le_of_lt hlt) j hj)
      show Keeps s (some connsm.sch) _
      convert hk using 2
      simp [State.setTimes, State.setItem, State.setEnqueued, State.withQueue, State.timerStop]
    · rw [hq] at hno
      generalize hs0 : (s.setItem connsm.sch fun m => { m with
        startTime := advRxend + env.usecsToTicks (bleLlIfs +
          bleLlConnReqDuration + bleLlConnInitialOffset) }).items = items
      replace hitem : ∀ j ∈ i :: rest, items j = s.items j := hs0 ▸ hitem _
      obtain ⟨t, u, hloop⟩ : ∃ t u, masterLoop items connsm.sch
          (masterDur env reqSlots) _
          (masterItvl env connsm) (i :: rest) _
          (masterInitial env advRxend) = (-1, i :: rest, t, u) :=
        masterLoop_noPlace (A := []) (hspaced.imp_of_mem fun {a b} ha hb hab => by
          rw [lo, hi, hitem a ha, hitem b hb]
          exact hab) (fun j hj => hitem j hj ▸ htimed j hj)
        (fun j hj => ha.timed_moved (hitem j hj ▸ (htimed j hj).stop) (hitem j hj ▸ hends j hj) _)
        (ha.timed_moved ha.1 ha.2.1 _) (hno.congr hitem) (.inl rfl) nofun
      rw [step_masterNew hq (hs0 ▸ hloop), if_neg (by decide), ← hq]
      have hfree := h.notMem he
      refine Arranged.keeps (?_ : Arranged env.now _) rfl ?_ fun j hj => ?_
      · obtain ⟨h1, h2, h3, h4⟩ := (h.arranged hn).setTimes hfree u _
        exact ⟨h1, h2, h3, h4⟩
      · rw [hq]
        exact cons_ne_nil _ _
      · show SameTimes _ ((s.setTimes connsm.sch u _).items j)
        rw [State.setTimes, setItem_rest s _ hj]
        exact ⟨rfl, rfl⟩

/-- The timer is set for the first of the queue. -/
def State.armed (s : State) : State :=
  { s with timer := s.queue.head?.map fun i => (s.items i).startTime }

def State.without (sch : Nat) (s : State) : State :=
  (s.withQueue (s.queue.erase sch)).setEnqueued sch false

theorem without_times (s : State) (sch i : Nat) : SameTimes (s.items i) ((s.without sch).items i) :=
  setEnqueued_times _ sch i false

theorem InOrder.without (h : InOrder s.armed) (sch : Nat) : InOrder (s.without sch).armed := by
  refine h.sublist erase_sublist (fun i _ => without_times s sch i) (fun i => ?_) rfl
  show ((s.without sch).items i).enqueued = true ↔ i ∈ s.queue.erase sch
  rw [(show s.queue.Nodup from h.nodup).mem_erase_iff,
    show i ∈ s.queue ↔ _ from (h.enqueued i).symm, State.without, setEnqueued_items]
  by_cases hi : i = sch
  · simp [hi]
  · simp [hi, State.withQueue, State.armed]

theorem armed_eq (h : s.timer = s.queue.head?.map fun i =>
    (s.items i).startTime) : s.armed = s := by
  rw [State.armed, ← h]

theorem InOrder.armed (h : InOrder s) : InOrder s.armed := by
  rw [armed_eq h.timer]
  exact h

theorem keeps_rmvElem (h : InOrder s) (sch : Nat) : Keeps s none (s.step (.rmvElem sch)) := by
  have hout := h.armed.without sch
  simp only [State.step, bleLlSchedRmvElem]
  by_cases he : (s.items sch).enqueued = true
  · rw [if_pos he]
    refine ⟨_, ?_, hout, fun i _ => without_times s sch i⟩
    have hmem := (h.enqueued sch).mp he
    have htimer := h.timer
    cases hq : s.queue with
    | nil => simp [hq] at hmem
    | cons first rest =>
      rw [hq] at htimer
      by_cases hf : first = sch
      -- The timer ran for the first, and is started for the next.
      · subst hf
        simp only [head?_cons, decide_true, if_true, State.timerStop,
          State.withQueue, State.setEnqueued, State.setItem, hq,
          erase_cons_head, State.without, State.armed]
        cases rest with
        | nil => rfl
        | cons next rest => rfl
      · have hne : (first :: rest).head? ≠ some sch := by simpa using hf
        have herase : (first :: rest).erase sch = first :: rest.erase sch :=
          erase_cons_tail (by simpa using hf)
        simp only [hne, decide_false, State.without]
        rw [if_neg Bool.false_ne_true, if_neg Bool.false_ne_true, hq, herase]
        refine congrArg some (Eq.symm (armed_eq ?_))
        show s.timer = some (((s.withQueue _).setEnqueued sch false).items first).startTime
        rw [State.setEnqueued, setItem_rest _ _ hf]
        exact htimer
  · rw [if_neg he]
    exact ⟨s, rfl, h, fun _ _ => ⟨rfl, rfl⟩⟩

theorem runLoop_keeps (clock : Nat → Time) (hq : s.queue = q) (ht : s.timer = none)
    (h : InOrder s.armed) : Keeps s none (runLoop clock q s) := by
  induction q generalizing s clock with
  | nil =>
    have hs : s.armed = s := armed_eq (by rw [ht, hq]; rfl)
    exact ⟨s, rfl, hs ▸ h, fun _ _ => ⟨rfl, rfl⟩⟩
  | cons first rest ih =>
    rw [runLoop]
    split
    · have hout := h.without first
      have hs : s.without first = (s.withQueue rest).setEnqueued first false := by
        rw [State.without, hq, erase_cons_head]
      rw [hs] at hout
      obtain ⟨s', hr, ho, hsame⟩ := ih (fun n => clock (n + 1))
        (s := (s.withQueue rest).setEnqueued first false) rfl ht hout
      refine ⟨s', hr, ho, fun i hi => ?_⟩
      exact (hs ▸ without_times s first i).trans (hsame i hi)
    · refine ⟨s.armed, ?_, h, fun _ _ => ⟨rfl, rfl⟩⟩
      simp [State.timerStart, ht, State.armed, hq]

theorem keeps_run (h : InOrder s) (clock : Nat → Time) : Keeps s none (s.step (.run clock)) := by
  exact runLoop_keeps clock rfl rfl h.armed

/-- Each routine, where it keeps clear of the two places. -/
theorem keeps_step (h : InOrder s) {op : Op} (hf : Fair s op)
    (hs : Spares s op) : Keeps s op.item (s.step op) := by
  cases op with
  | masterNew => exact keeps_masterNew h _ _ _ _ hf hs
  | slaveNew => exact keeps_slaveNew h _ _ hf hs
  | connReschedule => exact keeps_connReschedule h _ _ hf hs
  | advNew => exact keeps_advNew h _ _ _ _ hf hs
  | advReschedule => exact keeps_advReschedule h _ _ _ _ hf hs
  | rmvElem => exact keeps_rmvElem h _
  | run => exact keeps_run h _

end Routines

/-- Nothing is scheduled. -/
structure Idle (s : State) : Prop where
  queue : s.queue = []
  timer : s.timer = none
  enqueued : ∀ i, (s.items i).enqueued = false

theorem Idle.inOrder {s : State} (h : Idle s) : InOrder s := by
  obtain ⟨hq, ht, he⟩ := h
  refine ⟨?_, ?_, ?_, ?_, ?_, ?_⟩ <;> simp [hq, ht, he]

/-- What is reached by calls of a kind. -/
inductive Reached (P : State → Op → Prop) (s₀ : State) : State → Prop
  | start : Reached P s₀ s₀
  | step {s s' : State} (op : Op) (hr : Reached P s₀ s) (hp : P s op)
      (h : s.step op = some s') : Reached P s₀ s'

theorem Reached.inOrder {s0 s : State} (h0 : Idle s0)
    (hr : Reached (fun s op => Fair s op ∧ Spares s op) s0 s) : InOrder s := by
  induction hr with
  | start => exact h0.inOrder
  | step op hr hp h ih =>
    obtain ⟨s', hs', ho, -⟩ := keeps_step ih hp.1 hp.2
    rw [h] at hs'
    cases hs'
    exact ho

/-- After any calls that keep clear of the two places, the schedule is in
order, and the next such call changes the times of no other item. -/
theorem schedule_in_order {s₀ s : State} (h₀ : Idle s₀)
    (hr : Reached (fun s op => Fair s op ∧ Spares s op) s₀ s) :
    InOrder s ∧ ∀ op, Fair s op → Spares s op → ∃ s', s.step op = some s' ∧ InOrder s' ∧
      ∀ i, op.item ≠ some i → SameTimes (s.items i) (s'.items i) :=
  ⟨hr.inOrder h₀, fun _ hf hs => keeps_step (hr.inOrder h₀) hf hs⟩

/-! ## Two runs -/

instance (now a : Time) : Decidable (Near now a) :=
  inferInstanceAs (Decidable (_ ∧ _))

instance (now start stop : Time) : Decidable (Asks now start stop) :=
  inferInstanceAs (Decidable (_ ∧ _ ∧ _))

instance (now : Time) (s : State) : Decidable (NearQueue now s) :=
  inferInstanceAs (Decidable (∀ i ∈ s.queue, _))

instance (items : Nat → Item) (q : List Nat) (dur t : Time) : Decidable (FitsAt items q dur t) :=
  inferInstanceAs (Decidable (∀ i ∈ q, _))

instance (items : Nat → Item) (q : List Nat) (dur initial itvl : Time) :
    Decidable (NoPlace items q dur initial itvl) :=
  decidable_of_iff (∀ t ∈ initial :: q.map fun i => (items i).endTime,
      FitsAt items q dur t → ¬ t - initial ≤ itvl) (by
    simp only [mem_cons, mem_map, NoPlace, eq_comm])

instance (s : State) : (op : Op) → Decidable (Fair s op)
  | .masterNew .. | .advNew .. => inferInstanceAs (Decidable (_ ∧ _ ∧ _ ∧ _))
  | .slaveNew .. | .connReschedule .. | .advReschedule .. =>
    inferInstanceAs (Decidable (_ ∧ _ ∧ _))
  | .rmvElem _ => inferInstanceAs (Decidable True)
  | .run clock => decidable_of_iff (∃ t ∈ s.timer, 0 ≤ diff (clock 0) t) Iff.rfl

instance (s : State) : (op : Op) → Decidable (Spares s op)
  | .masterNew .. =>
    inferInstanceAs (Decidable (_ ∨ (∃ i ∈ s.queue.head?, _) ∨ _))
  | .slaveNew .. | .connReschedule .. => inferInstanceAs (Decidable (∀ i ∈ _, _))
  | .advNew .. | .advReschedule .. => inferInstanceAs (Decidable (_ ∧ _))
  | .rmvElem _ | .run _ => inferInstanceAs (Decidable True)

/-- The clock stands at 0, in ticks of a microsecond. -/
def quiet : Env :=
  { now := 0
    inConnection := false
    curConn := none
    lastScheduled := fun _ => 0
    ticksPerUsec := 1 }

def nothing : State :=
  { items := fun i => ⟨.conn, false, 0, 0, i⟩
    queue := []
    timer := none
    ended := [] }

theorem nothing_idle : Idle nothing := ⟨rfl, rfl, fun _ => rfl⟩

/-- A connection whose item begins at `start`. -/
def slaveFrom (sch : Nat) (start stop : Time) : ConnSm :=
  { sch := sch
    isSlave := true
    slaveCurWindowWidening := 0
    anchorPoint := start + xcvrRxSchedDelayUsecs
    ceEndTime := stop
    connItvl := 80
    txWinOff := 0 }

def State.next (s : State) (op : Op) : State := (s.step op).getD s

theorem Reached.next {P : State → Op → Prop} {s0 s : State}
    (hr : Reached P s0 s) (op : Op) (hp : P s op)
    (h : (s.step op).isSome = true) : Reached P s0 (s.next op) := by
  refine .step op hr hp ?_
  obtain ⟨s', hs'⟩ := Option.isSome_iff_exists.mp h
  rw [State.next, hs', Option.getD_some]

/-- A second connection that begins when the first has ended. -/
theorem schedule_in_order_apart : Reached (fun s op => Fair s op ∧ Spares s op) nothing
        ((nothing.next (.slaveNew quiet (slaveFrom 0 5000 6000))).next
          (.slaveNew quiet (slaveFrom 1 6000 7000))) ∧
      InOrder ((nothing.next (.slaveNew quiet (slaveFrom 0 5000 6000))).next
          (.slaveNew quiet (slaveFrom 1 6000 7000))) := by
  refine ⟨?hr, (schedule_in_order nothing_idle ?hr).1⟩
  exact (Reached.start.next _ (by decide +kernel) (by decide +kernel)).next _
    (by decide +kernel) (by decide +kernel)

/-- A second connection that ends when the first begins is put behind it, with
the timer set for the first. And a new master connection behind another gives
that one its own times. -/
theorem schedule_out_of_order : Idle nothing ∧ (∃ s, Reached Fair nothing s ∧ s.queue = [0, 1] ∧
      (s.items 0).startTime = 5000 ∧ (s.items 1).startTime = 4000 ∧ s.timer = some 5000) ∧
    ∃ s s' op, Reached Fair nothing s ∧ Fair s op ∧ s.step op = some s' ∧
      op.item = some 1 ∧ (s.items 0).startTime = 5000 ∧
      (s'.items 0).startTime = 6000 ∧ s'.queue = [0, 1] ∧ (s'.items 1).startTime = 5752 := by
  have hone : Reached Fair nothing (nothing.next (.slaveNew quiet (slaveFrom 0 5000 6000))) :=
    Reached.start.next _ (by decide +kernel) (by decide +kernel)
  refine ⟨nothing_idle, ⟨_, hone.next (.slaveNew quiet (slaveFrom 1 4000 5000)) (by decide +kernel)
    (by decide +kernel), ?_⟩, ?_⟩
  · decide +kernel
  · refine ⟨_, _, .masterNew quiet (slaveFrom 1 0 0) 4000 2, hone,
      by decide +kernel, Option.eq_some_of_isSome ?_, rfl, ?_⟩
    · decide +kernel
    · decide +kernel

end Larva.Ble.Sched
