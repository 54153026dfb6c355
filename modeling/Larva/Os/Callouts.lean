import Larva.Os.Switching
import Larva.Os.Ticks

/-!
# Callouts fire once and on time

`os_callout_reset` arms a callout: it goes into a list that is kept in the
order in which callouts are due, and `os_callout_tick` takes callouts off the
front and posts their events. Like the sleep list, the list is ordered by
signed differences of ticks that wrap, and like there the argument is a bound:
no callout is ever due more than `2 ^ 31 - 1` ticks ahead (`Armed`), because
that is the longest time a reset accepts and a callout only comes closer.

The event of a callout is on a queue or it is not, and `ev_queued` says which.
`os_callout_reset` begins with `os_callout_stop`, which takes the event off
its queue, so the event of an armed callout is never queued and the post that
a tick makes is never the one that `os_eventq_put2` skips.

The rest of the system appears as a kernel whose lists are in order, with
tasks that may wait on event queues and are woken by the posts, and as
somebody who takes events off the queues. The callouts of the program are
`cs`; their number bounds the walks.
-/

namespace Larva.Os

open Crash TailQ Function List

/-! ## The functions -/

def onCallouts {α : Type} (m : Prog (TailQ Unit Nat) Empty α) : OsM α :=
  Prog.zoom Kernel.callouts (fun q k => { k with callouts := q }) m

def osCalloutQueued (c : Nat) (k : Kernel) : Bool :=
  (k.callouts.prev c).isSome

/-- `os_callout_stop` takes the callout off the list. -/
def unlinkCallout (c : Nat) : OsM Unit := do
  let k ← Prog.get
  if osCalloutQueued c k then onCallouts (TailQ.detach () c) else pure ()

def osCalloutStop (c : Nat) : OsM Unit := do
  unlinkCallout c
  let k ← Prog.get
  osEventqRemove (k.cEvq c) (.timer c)

/-- `n` bounds the walk. -/
def osCalloutReset (n c : Nat) (ticks : Int) : OsM OsError := do
  if ticks < 0 then
    return .einval
  else
    osCalloutStop c
    Prog.modify fun k => { k with
      cTicks := update k.cTicks c ((k.time + if ticks = 0 then 1 else ticks.toNat) % 2 ^ 32) }
    let k ← Prog.get
    onCallouts (TailQ.insertWhere () (fun entry => tickLt (k.cTicks c) (k.cTicks entry)) n c)
    return .ok

/-- The critical section of `os_callout_tick`: the first callout, if it is
due. -/
def calloutDue (now : Nat) : OsM (Option Nat) := do
  let k ← Prog.get
  match k.callouts.first () with
  | some c =>
    if tickGeq now (k.cTicks c) then
      onCallouts (TailQ.detach () c)
      return some c
    else
      return none
  | none => return none

def calloutTickLoop (now : Nat) : Nat → OsM Unit
  | 0 => Prog.spin
  | n + 1 => do
      match ← calloutDue now with
      | some c =>
        let k ← Prog.get
        let _ ← osEventqPut2 (k.cEvq c) (.timer c)
        calloutTickLoop now n
      | none => pure ()

/-- `n` bounds the rounds. -/
def osCalloutTick (n : Nat) : OsM Unit := do
  let k ← Prog.get
  calloutTickLoop k.time n

/-! ## The system -/

inductive CalloutOp where
  | reset (c : Nat) (ticks : Int)
  | stop (c : Nat)
  /-- The clock ticks, and `os_callout_tick` runs. -/
  | tick
  /-- Somebody takes an event off a queue. -/
  | get (e : Nat)
  deriving DecidableEq, Repr

/-- The calls that are made. -/
def CalloutOp.Allowed (cs : List Nat) (k : Kernel) : CalloutOp → Prop
  | .reset c ticks => c ∈ cs ∧ 0 ≤ ticks ∧ ticks < 2 ^ 31
  | .stop c => c ∈ cs
  | .tick => True
  | .get e => k.evqList e ≠ []

def calloutStep (cs : List Nat) (op : CalloutOp) (k : Kernel) :
    Option Kernel :=
  match op with
  | .reset c ticks =>
    (exec (osCalloutReset (cs.length + 1) c ticks) k).map Prod.snd
  | .stop c => (exec (osCalloutStop c) k).map Prod.snd
  | .tick =>
    (exec (do osTimeTick; osCalloutTick (cs.length + 1)) k).map Prod.snd
  | .get e => (exec (osEventqGet e) k).map Prod.snd

/-- The ticks until a callout is due. -/
def Kernel.until (k : Kernel) (c : Nat) : Nat := tickSub (k.cTicks c) k.time

/-- What the posts need of the rest of the kernel. -/
structure Calm (k : Kernel) (L : Lists) : Prop where
  listed : Listed k L
  waits : Waits k
  asleep : ∀ e t, k.evqTask e = some t → (k.tasks t).tState = .sleep
  once : ∀ e e' t, k.evqTask e = some t → k.evqTask e' = some t → e = e'

structure Armed (cs : List Nat) (k : Kernel) (C : List Nat) : Prop where
  calm : ∃ L, Calm k L
  marked : Marked k.callouts fun _ => C
  known : C ⊆ cs
  ahead : ∀ c ∈ C, k.until c < 2 ^ 31
  sorted : C.Pairwise fun a b => k.until a ≤ k.until b
  idle : ∀ c ∈ C, k.evQueued (.timer c) = false
  events : ∀ c e, (k.evqList e).count (.timer c) =
    if k.evQueued (.timer c) = true ∧ e = k.cEvq c then 1 else 0

section Calm

variable {k k' : Kernel} {L : Lists} {ev : Ev}

theorem Calm.of_eq (h : ∃ L, Calm k L) (ht : k'.tasks = k.tasks := by rfl)
    (hl : k'.lists = k.lists := by rfl) (hk : k'.taskList = k.taskList := by rfl)
    (hi : k'.inserted = k.inserted := by rfl) (hn : k'.insertions = k.insertions := by rfl)
    (hw : k'.waiters = k.waiters := by rfl) (he : k'.evqTask = k.evqTask := by rfl) :
    ∃ L, Calm k' L := by
  obtain ⟨L, h⟩ := h
  refine ⟨L, h.listed.congr (fun _ => by rw [ht]) (fun _ => by rw [ht])
      (fun _ => by rw [ht]) hl hk hi hn, h.waits.congr (fun _ => by rw [ht]) (fun _ => by rw [ht])
      (fun _ => by rw [ht]) hw, fun e t => ?_, fun e e' t => ?_⟩
  · rw [he, ht]
    exact h.asleep e t
  · rw [he]
    exact h.once e e' t

theorem Sane.calm {s : Sys} (h : Sane s L) : Calm s.k L :=
  ⟨h.listed, h.waits, fun e t ht => (h.evq e t ht).1, h.evqOnce⟩

/-- A callout's event is on its queue or on none. -/
theorem Armed.mem_queue {cs C : List Nat} (h : Armed cs k C) (c e : Nat) :
    Ev.timer c ∈ k.evqList e ↔ k.evQueued (.timer c) = true ∧ e = k.cEvq c := by
  rw [← count_pos_iff, h.events]
  split
  · next hq => simp [hq]
  · next hq => simp [hq]

/-- One queue and one flag change together. -/
theorem Armed.events_update {cs C : List Nat} {e0 : Nat} {evs : List Ev} {b : Bool}
    (h : Armed cs k C)
    (hself : ∀ c, ev = .timer c → e0 = k.cEvq c ∧ evs.count ev = if b then 1 else 0)
    (hrest : ∀ x ≠ ev, evs.count x = (k.evqList e0).count x) (c e : Nat) :
    (update k.evqList e0 evs e).count (.timer c) =
      if update k.evQueued ev b (.timer c) = true ∧ e = k.cEvq c then 1 else 0 := by
  by_cases hc : ev = .timer c
  · obtain ⟨rfl, hcount⟩ := hself c hc
    subst hc
    rw [update_self]
    by_cases he : e = k.cEvq c
    · rw [he, update_self, hcount]
      simp
    · rw [update_of_ne he, h.events, if_neg fun hh => he hh.2, if_neg fun hh => he hh.2]
  · rw [update_of_ne (Ne.symm hc), ← h.events]
    by_cases he : e = e0
    · rw [he, update_self, hrest _ (Ne.symm hc)]
    · rw [update_of_ne he]

theorem queued_of_update {f : Ev → Bool} {x : Ev} (h : update f ev false x = true) :
    f x = true := by
  rw [update_apply] at h
  split at h
  · cases h
  · exact h

end Calm

/-! ## `os_callout_stop` -/

section Stop

variable {cs C : List Nat} {k : Kernel} {c : Nat} {Q : Post Kernel Empty Unit}

def Kernel.withCallouts (q : TailQ Unit Nat) (k : Kernel) : Kernel :=
  { k with callouts := q }

/-- The event of the callout is off its queue. -/
def Kernel.stopped (c : Nat) (k : Kernel) : Kernel := { k with
  evqList := update k.evqList (k.cEvq c) ((k.evqList (k.cEvq c)).erase (.timer c))
  evQueued := update k.evQueued (.timer c) false }

/-- There is only one list. -/
theorem update_unit {β : Type} (f : Unit → β) (v : β) :
    update f () v = fun _ => v :=
  funext fun _ => update_self _ _ _

theorem wp_unlinkCallout (h : Marked k.callouts fun _ => C)
    (hok : ∀ q, (Marked q fun _ => C.erase c) → Q.ok () (k.withCallouts q)) :
    Wp (unlinkCallout c) Q k := by
  refine .get_bind ?_
  split
  · next hq =>
    obtain ⟨_, hc⟩ := h.isSome_prev.mp hq
    refine .zoom (wp_detach h hc fun q hm => hok q ?_)
    rwa [update_unit] at hm
  · next hq =>
    have hc : c ∉ C := fun hc => hq (h.isSome_prev.mpr ⟨(), hc⟩)
    refine .pure (hok k.callouts ?_)
    rwa [erase_of_not_mem hc]

theorem wp_osEventqRemove {e : Nat} {ev : Ev} (hmem : k.evQueued ev = true ↔ ev ∈ k.evqList e)
    (hok : Q.ok () { k with
      evqList := update k.evqList e ((k.evqList e).erase ev)
      evQueued := update k.evQueued ev false }) : Wp (osEventqRemove e ev) Q k := by
  refine .bind (.get_bind ?_)
  split
  · next hq =>
    refine .bind (.assert (decide_eq_true (hmem.mp hq)) ?_)
    exact .modify (.modify hok)
  · next hq =>
    have he := erase_of_not_mem (mt hmem.mpr hq)
    rw [he, update_eq_self] at hok
    exact .pure (.modify hok)

theorem Armed.stopped (h : Armed cs k C) {q : TailQ Unit Nat} (hm : Marked q fun _ => C.erase c) :
    Armed cs ((k.stopped c).withCallouts q) (C.erase c) := by
  have hsub : ∀ b, b ∈ C.erase c → b ∈ C := fun b hb =>
    mem_of_mem_erase hb
  refine ⟨Calm.of_eq h.calm, hm, fun b hb => h.known (hsub b hb), fun b hb => h.ahead b (hsub b hb),
    h.sorted.sublist erase_sublist, fun b hb => ?_,
    h.events_update (fun b hb => ?_) fun x hx => count_erase_of_ne hx⟩
  · show update k.evQueued (.timer c) false (.timer b) = false
    rw [update_apply, h.idle b (hsub b hb), ite_self]
  · cases hb
    refine ⟨rfl, ?_⟩
    rw [count_erase_self, h.events]
    split <;> rfl

theorem wp_osCalloutStop (h : Armed cs k C)
    (hok : ∀ q, Armed cs ((k.stopped c).withCallouts q) (C.erase c) →
      Q.ok () ((k.stopped c).withCallouts q)) : Wp (osCalloutStop c) Q k := by
  refine .bind (wp_unlinkCallout h.marked fun q hm => .get_bind ?_)
  refine wp_osEventqRemove ?_ (hok q (h.stopped hm))
  show k.evQueued (.timer c) = true ↔ Ev.timer c ∈ k.evqList (k.cEvq c)
  simp [h.mem_queue]

end Stop

/-! ## `os_callout_reset` -/

section Reset

variable {cs C : List Nat} {k : Kernel} {c n b : Nat}

/-- The callout is to be due in `n` ticks. -/
def Kernel.timed (c n : Nat) (k : Kernel) : Kernel :=
  { k with cTicks := update k.cTicks c ((k.time + n) % 2 ^ 32) }

theorem timed_until (k : Kernel) (c : Nat) (hn : n < 2 ^ 32) : (k.timed c n).until c = n := by
  show tickSub (update k.cTicks c ((k.time + n) % 2 ^ 32) c) k.time = n
  rw [update_self]
  exact tickSub_add hn

theorem timed_until_of_ne (k : Kernel) (n : Nat) (hb : b ≠ c) :
    (k.timed c n).until b = k.until b := by
  show tickSub (update k.cTicks c _ b) k.time = tickSub (k.cTicks b) _
  rw [update_of_ne hb]

/-- The comparison that finds the place is one of what remains. -/
theorem tickLt_until (hb : k.until b < 2 ^ 31) (hc : k.until c < 2 ^ 31) :
    tickLt (k.cTicks c) (k.cTicks b) = true ↔ k.until c < k.until b := by
  unfold Kernel.until at *
  exact tickLt_iff (by omega) (by omega)

theorem Armed.inserted (h : Armed cs k C) (hc : c ∉ C) (hk : c ∈ cs)
    (hq : k.evQueued (.timer c) = false) (hn : n < 2 ^ 31) {q : TailQ Unit Nat}
    (hm : Marked q fun _ => insertAt (fun b =>
      tickLt ((k.timed c n).cTicks c) ((k.timed c n).cTicks b)) c C) :
    Armed cs ((k.timed c n).withCallouts q) (insertAt (fun b =>
      tickLt ((k.timed c n).cTicks c) ((k.timed c n).cTicks b)) c C) := by
  have hself : (k.timed c n).until c = n := timed_until k c (by omega)
  have hrest : ∀ b ∈ C, (k.timed c n).until b = k.until b := fun b hb =>
    timed_until_of_ne k n fun he => hc (he ▸ hb)
  have hlt : ∀ b ∈ C, (tickLt ((k.timed c n).cTicks c) ((k.timed c n).cTicks b) = true ↔
      (k.timed c n).until c < (k.timed c n).until b) := by
    intro b hb
    refine tickLt_until ?_ (by omega)
    rw [hrest b hb]
    exact h.ahead b hb
  have hold : C.Pairwise fun a b =>
      (k.timed c n).until a ≤ (k.timed c n).until b := by
    refine h.sorted.imp_of_mem fun {a b} ha hb hab => ?_
    rw [hrest a ha, hrest b hb]
    exact hab
  refine ⟨Calm.of_eq h.calm, hm, fun b hb => ?_, fun b hb => ?_, ?_, fun b hb => ?_, h.events⟩
  · rcases mem_insertAt.mp hb with rfl | hb
    · exact hk
    · exact h.known hb
  · show (k.timed c n).until b < 2 ^ 31
    rcases mem_insertAt.mp hb with rfl | hb
    · omega
    · rw [hrest b hb]
      exact h.ahead b hb
  · show Pairwise (fun a b =>
      (k.timed c n).until a ≤ (k.timed c n).until b) _
    refine pairwise_insertAt hold (fun b hb hlow => ?_) fun b hb => ?_
    · have hle := mt (hlt b hb).mpr (by simp [hlow])
      omega
    · have hmem := (dropWhile_sublist _).subset hb
      have hup := picked_of_mem_dropWhile hold (fun a ha d hd had hpa => ?_) hb
      · exact ((hlt b hmem).mp hup).le
      · exact (hlt d hd).mpr (((hlt a ha).mp hpa).trans_le had)
  · rcases mem_insertAt.mp hb with rfl | hb
    · exact hq
    · exact h.idle b hb

/-- The list after a reset. -/
def armedList (k : Kernel) (c n : Nat) (C : List Nat) : List Nat :=
  insertAt (fun b => tickLt ((k.timed c n).cTicks c) ((k.timed c n).cTicks b)) c (C.erase c)

theorem wp_osCalloutReset {Q : Post Kernel Empty OsError} {ticks : Int}
    (h : Armed cs k C) (hk : c ∈ cs) (h0 : 0 ≤ ticks) (hlt : ticks < 2 ^ 31)
    (hok : ∀ q, Armed cs (((k.stopped c).timed c (max ticks.toNat 1)).withCallouts q)
        (armedList k c (max ticks.toNat 1) C) →
      Q.ok .ok (((k.stopped c).timed c (max ticks.toNat 1)).withCallouts q)) :
    Wp (osCalloutReset (cs.length + 1) c ticks) Q k := by
  have hmax : (if ticks = 0 then 1 else ticks.toNat) = max ticks.toNat 1 := by
    split <;> omega
  unfold osCalloutReset
  rw [if_neg (by omega), hmax]
  refine .bind (wp_osCalloutStop h fun q hs => ?_)
  refine .modify_bind (.get_bind (.bind (.zoom ?_)))
  have hoff : c ∉ C.erase c := fun hm =>
    ((h.marked.queues.nodup ()).mem_erase_iff.mp hm).1 rfl
  have hlen : (C.erase c).length < cs.length + 1 :=
    Nat.lt_succ_of_le (subperm_of_subset (hs.marked.queues.nodup ()) hs.known).length_le
  refine wp_insertWhere_marked hs.marked (fun _ => hoff) hlen fun q' hm => ?_
  refine .pure (hok q' ?_)
  exact hs.inserted hoff hk (update_self _ _ _) (by omega) hm

end Reset

/-! ## `os_callout_tick` -/

section Tick

variable {cs C : List Nat} {k k' : Kernel} {c : Nat}

/-- The event of a callout has been posted. -/
structure Posted (k : Kernel) (c : Nat) (k' : Kernel) : Prop where
  calm : ∃ L, Calm k' L
  evqList : k'.evqList = update k.evqList (k.cEvq c) (k.evqList (k.cEvq c) ++ [.timer c])
  evQueued : k'.evQueued = update k.evQueued (.timer c) true
  callouts : k'.callouts = k.callouts
  cTicks : k'.cTicks = k.cTicks
  cEvq : k'.cEvq = k.cEvq
  time : k'.time = k.time

theorem Calm.woken {L : Lists} (h : Calm k L) {e t : Nat} {ev : Ev}
    {q : TailQ ListId Nat} (ht : k.evqTask e = some t)
    (hl : Listed (setEvqTask e none (((k.queued e ev).woken t).withLists q)) (L.woken k t)) :
    Calm (setEvqTask e none (((k.queued e ev).woken t).withLists q)) (L.woken k t) := by
  have hw : Waits (k.queued e ev) := h.waits.congr
  have hback : ∀ e' x, (setEvqTask e none
      (((k.queued e ev).woken t).withLists q)).evqTask e' = some x →
      e' ≠ e ∧ k.evqTask e' = some x := by
    intro e' x hx
    have hne : e' ≠ e := by
      rintro rfl
      simp [setEvqTask] at hx
    simp only [setEvqTask, update_of_ne hne] at hx
    exact ⟨hne, hx⟩
  refine ⟨hl, (hw.woken q).congr, fun e' x hx => ?_, fun e1 e2 x h1 h2 => ?_⟩
  · obtain ⟨hne, hx'⟩ := hback e' x hx
    have hxt : x ≠ t := fun he => hne (h.once e' e x hx' (he ▸ ht))
    show (update k.tasks t _ x).tState = _
    rw [update_of_ne hxt]
    exact h.asleep e' x hx'
  · exact h.once e1 e2 x (hback e1 x h1).2 (hback e2 x h2).2

theorem wp_post {Q : Post Kernel Empty Bool} (h : ∃ L, Calm k L)
    (hq : k.evQueued (.timer c) = false) (hok : ∀ woke k', Posted k c k' → Q.ok woke k') :
    Wp (osEventqPut2 (k.cEvq c) (.timer c)) Q k := by
  have hcalm := h
  obtain ⟨L, hc⟩ := h
  refine wp_osEventqPut2 hc.listed hc.waits (hc.asleep _) (fun hq' => ?_)
    (fun _ _ => hok _ _ ?_) fun t q _ ht hl => hok _ _ ?_
  · cases hq.symm.trans hq'
  · exact ⟨Calm.of_eq hcalm, rfl, rfl, rfl, rfl, rfl, rfl⟩
  · exact ⟨⟨_, hc.woken ht hl⟩, rfl, rfl, rfl, rfl, rfl, rfl⟩

theorem Armed.posted (h : Armed cs k (c :: C)) {q : TailQ Unit Nat}
    (hm : Marked q fun _ => C) (hp : Posted (k.withCallouts q) c k') : Armed cs k' C := by
  have hnodup := nodup_cons.mp (h.marked.queues.nodup ())
  have huntil : ∀ b, k'.until b = k.until b := by
    intro b
    rw [Kernel.until, hp.cTicks, hp.time]
    rfl
  have hsorted := (pairwise_cons.mp h.sorted).2
  refine ⟨hp.calm, by rw [hp.callouts]; exact hm,
    fun b hb => h.known (mem_cons_of_mem c hb), fun b hb => ?_, ?_, fun b hb => ?_, fun b e => ?_⟩
  · rw [huntil]
    exact h.ahead b (mem_cons_of_mem c hb)
  · simpa only [huntil] using hsorted
  · have hbc : b ≠ c := fun he => hnodup.1 (he ▸ hb)
    rw [hp.evQueued, update_of_ne (by simpa using hbc)]
    exact h.idle b (mem_cons_of_mem c hb)
  · rw [hp.evqList, hp.evQueued, hp.cEvq]
    refine h.events_update (fun b hb => ?_) (fun x hx => ?_) b e
    · cases hb
      refine ⟨rfl, ?_⟩
      have hev := h.events c (k.cEvq c)
      rw [h.idle c mem_cons_self, if_neg (by simp)] at hev
      show (k.evqList (k.cEvq c) ++ [Ev.timer c]).count (Ev.timer c) = 1
      rw [count_append, hev, count_singleton_self]
    · show (k.evqList (k.cEvq c) ++ [Ev.timer c]).count x = _
      have h0 : [Ev.timer c].count x = 0 := count_eq_zero.mpr (by simpa using hx)
      rw [count_append, h0]
      rfl

/-- The callouts that were due have fired. -/
structure Fired (k : Kernel) (C : List Nat) (k' : Kernel) (C' : List Nat) : Prop where
  time : k'.time = k.time
  cTicks : k'.cTicks = k.cTicks
  cEvq : k'.cEvq = k.cEvq
  mem : ∀ c, c ∈ C' ↔ c ∈ C ∧ k.until c ≠ 0
  queued : ∀ c, k'.evQueued (.timer c) = true ↔ k.evQueued (.timer c) = true ∨ c ∈ C ∧ k.until c = 0

theorem Fired.none (h : ∀ c ∈ C, k.until c ≠ 0) : Fired k C k C := by
  refine ⟨rfl, rfl, rfl, fun c => ?_, fun c => ?_⟩
  · exact ⟨fun hc => ⟨hc, h c hc⟩, fun hc => hc.1⟩
  · exact ⟨.inl, fun hq => hq.resolve_right fun hc => h c hc.1 hc.2⟩

theorem wp_calloutTickLoop {Q : Post Kernel Empty Unit} {now n : Nat}
    (h : Armed cs k C) (hnow : k.time = now) (hn : C.length < n)
    (hok : ∀ k' C', Fired k C k' C' → Armed cs k' C' → Q.ok () k') :
    Wp (calloutTickLoop now n) Q k := by
  induction C generalizing k n with
  | nil =>
    obtain _ | n := n
    · omega
    refine .bind (.get_bind ?_)
    rw [h.marked.queues.first_eq]
    exact .pure (.pure (hok k [] (.none nofun) h))
  | cons c C ih =>
    simp only [length_cons] at hn
    obtain _ | n := n
    · omega
    have hahead := h.ahead c mem_cons_self
    have hdue : tickGeq now (k.cTicks c) = true ↔ k.until c = 0 := by
      rw [← hnow]
      exact tickGeq_iff hahead.le
    refine .bind (.get_bind ?_)
    rw [h.marked.queues.first_eq]
    show Wp (if tickGeq now (k.cTicks c) = true then _ else _) _ k
    split
    · next hge =>
      have hz := hdue.mp hge
      refine .bind (.zoom (wp_detach h.marked mem_cons_self fun q hm => ?_))
      rw [update_unit, erase_cons_head] at hm
      refine .pure (.get_bind (.bind ?_))
      refine wp_post (Calm.of_eq h.calm) (h.idle c mem_cons_self) fun woke k1 hp => ?_
      have h1 := h.posted hm hp
      have huntil : ∀ b, k1.until b = k.until b := by
        intro b
        rw [Kernel.until, hp.cTicks, hp.time]
        rfl
      refine ih h1 (hp.time.trans hnow) (by omega) fun k' C' hf ha =>
        hok k' C' ⟨hf.time.trans hp.time, hf.cTicks.trans hp.cTicks,
          hf.cEvq.trans hp.cEvq, fun b => ?_, fun b => ?_⟩ ha
      · rw [hf.mem, huntil, mem_cons]
        grind
      rw [hf.queued, huntil, hp.evQueued, mem_cons]
      show (update k.evQueued (.timer c) true (.timer b) = true ∨ _) ↔ _
      by_cases hbc : b = c
      · subst hbc
        simp [hz]
      · simp [hbc]
    · next hge =>
      have hpos : k.until c ≠ 0 := mt hdue.mpr hge
      refine .pure (.pure (hok k _ (.none fun b hb => ?_) h))
      rcases mem_cons.mp hb with rfl | hb
      · exact hpos
      · have hle := (pairwise_cons.mp h.sorted).1 b hb
        omega

/-- The clock has ticked, and nothing has fired yet. -/
theorem Armed.ticked (h : Armed cs k C) (hpos : ∀ c ∈ C, 0 < k.until c) :
    Armed cs k.ticked C ∧ ∀ c ∈ C, k.ticked.until c + 1 = k.until c := by
  have huntil : ∀ c ∈ C, k.ticked.until c + 1 = k.until c := by
    intro c hc
    have hp := hpos c hc
    have hs : k.ticked.until c = k.until c - 1 := tickSub_succ hp
    omega
  refine ⟨{ h with
    calm := Calm.of_eq h.calm
    ahead := fun c hc => ?_
    sorted := ?_ }, huntil⟩
  · have := h.ahead c hc
    have := huntil c hc
    omega
  · refine h.sorted.imp_of_mem fun {a b} ha hb hab => ?_
    have := huntil a ha
    have := huntil b hb
    omega

end Tick

/-! ## `os_eventq_get` -/

/-- An event is taken off a queue. -/
theorem Armed.pulled {cs C : List Nat} {k : Kernel} {e : Nat} {ev : Ev}
    {evs : List Ev} (h : Armed cs k C) (hl : k.evqList e = ev :: evs) :
    Armed cs (k.pulled e ev evs) C := by
  refine { h with
    calm := Calm.of_eq h.calm
    idle := fun c hc => ?_
    events := h.events_update (fun c hc => ?_) fun x hx => ?_ }
  · show update k.evQueued ev false (.timer c) = false
    rw [update_apply, h.idle c hc, ite_self]
  · subst hc
    have hev := h.events c e
    rw [hl, count_cons_self] at hev
    split at hev
    · next hq => exact ⟨hq.2, Nat.succ.inj hev⟩
    · cases hev
  · rw [hl, count_cons_of_ne hx.symm]

/-! ## Whole runs -/

/-- The callout that is stopped or reset. -/
def CalloutOp.callout : CalloutOp → Option Nat
  | .reset c _ => some c
  | .stop c => some c
  | _ => none

def CalloutOp.ticks : CalloutOp → Nat
  | .tick => 1
  | _ => 0

section Runs

variable {cs C C' : List Nat} {k k' k₀ : Kernel} {op : CalloutOp} {c n j : Nat} {s : Sys}

/-- Between the steps nothing is due. -/
structure Waiting (cs : List Nat) (k : Kernel) (C : List Nat) : Prop extends Armed cs k C where
  pos : ∀ c ∈ C, 0 < k.until c

/-- What a step does to a callout that it does not stop or reset. -/
structure Leaves (op : CalloutOp) (c : Nat) (k : Kernel) (C : List Nat)
    (k' : Kernel) (C' : List Nat) : Prop where
  fires : c ∈ C → k.until c = op.ticks → c ∉ C' ∧ k'.evQueued (.timer c) = true
  waits : c ∈ C → k.until c ≠ op.ticks → c ∈ C' ∧ k'.until c + op.ticks = k.until c
  rests : c ∉ C → c ∉ C' ∧ (k'.evQueued (.timer c) = true → k.evQueued (.timer c) = true)
  cEvq : k'.cEvq = k.cEvq

/-- A step that takes no time. -/
theorem Leaves.of_mem (h0 : op.ticks = 0) (hpos : c ∈ C → 0 < k.until c)
    (hmem : c ∈ C' ↔ c ∈ C) (hu : k'.until c = k.until c)
    (hq : k'.evQueued (.timer c) = true → k.evQueued (.timer c) = true)
    (he : k'.cEvq = k.cEvq) : Leaves op c k C k' C' := by
  refine ⟨fun hc hz => ?_, fun hc _ => ⟨hmem.mpr hc, by omega⟩, fun hc => ⟨mt hmem.mp hc, hq⟩, he⟩
  have := hpos hc
  omega

/-- A piece with a rule is a step. -/
theorem step_of_wp {α : Type} {m : OsM α} {P : Kernel → Prop}
    (h : Wp m ⟨fun _ k' => P k', fun _ _ => True, fun _ => True, False⟩ k) :
    ∃ k', (exec m k).map Prod.snd = some k' ∧ P k' := by
  obtain ⟨a, k', he, hp⟩ := exec_isSome h id
  exact ⟨k', by rw [he]; rfl, hp⟩

section

variable (h : Waiting cs k C)
include h

theorem Waiting.stop (c : Nat) : ∃ k', calloutStep cs (.stop c) k = some k' ∧ ∃ C',
    Waiting cs k' C' ∧ k'.evQueued (.timer c) = false ∧
      ∀ b, b ≠ c → Leaves (.stop c) b k C k' C' := by
  refine step_of_wp (wp_osCalloutStop h.toArmed fun q ha => ?_)
  refine ⟨C.erase c, ⟨ha, fun b hb => h.pos b (mem_of_mem_erase hb)⟩,
    update_self _ _ _, fun b hb => ?_⟩
  exact .of_mem rfl (h.pos b) (mem_erase_of_ne hb) rfl queued_of_update rfl

theorem Waiting.reset {ticks : Int} (hc : c ∈ cs) (h0 : 0 ≤ ticks) (hlt : ticks < 2 ^ 31) :
    ∃ k', calloutStep cs (.reset c ticks) k = some k' ∧ ∃ C', Waiting cs k' C' ∧
      (c ∈ C' ∧ k'.until c = max ticks.toNat 1) ∧
      ∀ b, b ≠ c → Leaves (.reset c ticks) b k C k' C' := by
  refine step_of_wp (wp_osCalloutReset h.toArmed hc h0 hlt fun q ha => ?_)
  have hself : ((k.stopped c).timed c (max ticks.toNat 1)).until c =
    max ticks.toNat 1 := timed_until _ c (by omega)
  have hrest : ∀ b, b ≠ c → ((k.stopped c).timed c
      (max ticks.toNat 1)).until b = k.until b := fun b hb =>
    timed_until_of_ne (k.stopped c) _ hb
  refine ⟨armedList k c _ C, ⟨ha, fun b hb => ?_⟩,
    ⟨mem_insertAt.mpr (.inl rfl), hself⟩, fun b hb => ?_⟩
  · show 0 < ((k.stopped c).timed c (max ticks.toNat 1)).until b
    by_cases hbc : b = c
    · rw [hbc, hself]
      omega
    · rw [hrest b hbc]
      have hb' := (mem_insertAt.mp hb).resolve_left hbc
      exact h.pos b (mem_of_mem_erase hb')
  · refine .of_mem rfl (h.pos b) ?_ (hrest b hb) queued_of_update rfl
    rw [armedList, mem_insertAt, mem_erase_of_ne hb]
    simp [hb]

theorem Waiting.tick : ∃ k', calloutStep cs .tick k = some k' ∧ ∃ C', Waiting cs k' C' ∧
      ∀ b, Leaves .tick b k C k' C' := by
  obtain ⟨ht, hu⟩ := h.ticked h.pos
  have hlen : C.length < cs.length + 1 :=
    Nat.lt_succ_of_le (subperm_of_subset (h.marked.queues.nodup ()) h.known).length_le
  refine step_of_wp (.modify_bind (.get_bind (wp_calloutTickLoop ht rfl hlen
    fun k' C' hf ha => ?_)))
  have hu' : ∀ b, k'.until b = k.ticked.until b := by
    intro b
    rw [Kernel.until, hf.cTicks, hf.time]
    rfl
  refine ⟨C', ⟨ha, fun b hb => ?_⟩, fun b => ⟨fun hb hz => ?_,
    fun hb hz => ?_, fun hb => ?_, hf.cEvq⟩⟩
  · rw [hu']
    exact Nat.pos_of_ne_zero ((hf.mem b).mp hb).2
  · have hz' : k.ticked.until b = 0 := by
      have := hu b hb
      simp only [CalloutOp.ticks] at hz
      omega
    exact ⟨fun hm => ((hf.mem b).mp hm).2 hz', (hf.queued b).mpr (.inr ⟨hb, hz'⟩)⟩
  · have hub := hu b hb
    have hz' : k.ticked.until b ≠ 0 := by
      simp only [CalloutOp.ticks] at hz
      omega
    rw [hu']
    exact ⟨(hf.mem b).mpr ⟨hb, hz'⟩, hub⟩
  · exact ⟨fun hm => hb ((hf.mem b).mp hm).1, fun hq =>
      ((hf.queued b).mp hq).resolve_right fun hm => hb hm.1⟩

theorem Waiting.get {e : Nat} (he : k.evqList e ≠ []) :
    ∃ k', calloutStep cs (.get e) k = some k' ∧ ∃ C', Waiting cs k' C' ∧
      ∀ b, Leaves (.get e) b k C k' C' := by
  obtain ⟨ev, evs, hl⟩ := exists_cons_of_ne_nil he
  refine step_of_wp (.get_bind ?_)
  rw [hl]
  refine .modify_bind (.pure ⟨C, ⟨h.pulled hl, h.pos⟩, fun b => ?_⟩)
  exact .of_mem rfl (h.pos b) .rfl rfl queued_of_update rfl

theorem Waiting.step (ha : op.Allowed cs k) :
    ∃ k', calloutStep cs op k = some k' ∧ ∃ C', Waiting cs k' C' ∧
      ∀ c, op.callout ≠ some c → Leaves op c k C k' C' := by
  cases op with
  | reset c ticks =>
    obtain ⟨k', hst, C', hw, _, hl⟩ := h.reset ha.1 ha.2.1 ha.2.2
    exact ⟨k', hst, C', hw, fun b hb => hl b fun he => hb (by rw [he]; rfl)⟩
  | stop c =>
    obtain ⟨k', hst, C', hw, _, hl⟩ := h.stop c
    exact ⟨k', hst, C', hw, fun b hb => hl b fun he => hb (by rw [he]; rfl)⟩
  | tick =>
    obtain ⟨k', hst, C', hw, hl⟩ := h.tick
    exact ⟨k', hst, C', hw, fun b _ => hl b⟩
  | get e =>
    obtain ⟨k', hst, C', hw, hl⟩ := h.get ha
    exact ⟨k', hst, C', hw, fun b _ => hl b⟩

end

/-- No callout is armed, and no event of one is queued. -/
structure CalloutStart (k : Kernel) : Prop where
  calm : ∃ L, Calm k L
  callouts : k.callouts = TailQ.init
  queued : ∀ c, k.evQueued (.timer c) = false
  events : ∀ c e, Ev.timer c ∉ k.evqList e

inductive CalloutRuns (cs : List Nat) (k₀ : Kernel) : Kernel → Prop
  | start : CalloutRuns cs k₀ k₀
  | step {k k' : Kernel} {op : CalloutOp} (h : CalloutRuns cs k₀ k)
      (ha : op.Allowed cs k) (hst : calloutStep cs op k = some k') : CalloutRuns cs k₀ k'

/-- From one state on a callout is neither stopped nor reset, while the clock
ticks so many times. -/
inductive Undisturbed (cs : List Nat) (c : Nat) (k₀ : Kernel) : Nat → Kernel → Prop
  | start : Undisturbed cs c k₀ 0 k₀
  | step {j : Nat} {k k' : Kernel} {op : CalloutOp}
      (h : Undisturbed cs c k₀ j k) (ha : op.Allowed cs k)
      (hc : op.callout ≠ some c) (hst : calloutStep cs op k = some k') :
      Undisturbed cs c k₀ (j + op.ticks) k'

/-- The event of the callout gets on its queue. -/
def Kernel.Posts (k : Kernel) (c : Nat) (k' : Kernel) : Prop :=
  Ev.timer c ∉ k.evqList (k.cEvq c) ∧ Ev.timer c ∈ k'.evqList (k'.cEvq c)

theorem CalloutStart.waiting (h : CalloutStart k) : Waiting cs k [] := by
  refine ⟨⟨h.calm, h.callouts ▸ marked_init, nofun, nofun, .nil, nofun, fun c e => ?_⟩, nofun⟩
  rw [if_neg (by simp [h.queued])]
  exact count_eq_zero.mpr (h.events c e)

theorem CalloutRuns.waiting (h0 : CalloutStart k₀) (hr : CalloutRuns cs k₀ k) :
    ∃ C, Waiting cs k C := by
  induction hr with
  | start => exact ⟨[], h0.waiting⟩
  | step _ ha hst ih =>
    obtain ⟨C, hw⟩ := ih
    obtain ⟨k', hst', C', hw', _⟩ := hw.step ha
    cases hst.symm.trans hst'
    exact ⟨C', hw'⟩

/-- The callout is armed and its ticks add up, or it has fired. -/
theorem Undisturbed.left {C0 : List Nat} (h : Undisturbed cs c k₀ j k) (hw0 : Waiting cs k₀ C0)
    (hc : c ∈ C0) (hn : k₀.until c = n) :
    ∃ C, Waiting cs k C ∧ (c ∈ C ∧ k.until c + j = n ∨ c ∉ C ∧ n ≤ j) := by
  induction h with
  | start => exact ⟨C0, hw0, .inl ⟨hc, hn⟩⟩
  | @step j k _ op _ ha hne hst ih =>
    obtain ⟨C, hw, hj⟩ := ih
    obtain ⟨k', hst', C', hw', hl⟩ := hw.step ha
    cases hst.symm.trans hst'
    refine ⟨C', hw', ?_⟩
    have hlc := hl c hne
    rcases hj with ⟨hm, hj⟩ | ⟨hm, hj⟩
    · by_cases hz : k.until c = op.ticks
      · exact .inr ⟨(hlc.fires hm hz).1, by omega⟩
      · obtain ⟨hm', hu⟩ := hlc.waits hm hz
        exact .inl ⟨hm', by omega⟩
    · exact .inr ⟨(hlc.rests hm).1, by omega⟩

theorem Boots.noCallouts (h : Boots s) :
    s.k.callouts = TailQ.init ∧ (∀ ev, s.k.evQueued ev = false) ∧ ∀ e, s.k.evqList e = [] := by
  induction h with
  | zero => exact ⟨rfl, fun _ => rfl, fun _ => rfl⟩
  | @task s t prio k h hc he ih =>
    obtain ⟨L, hl, _⟩ := h.fresh.listed
    exact exec_sound (Q := Answers fun _ k => k.callouts = TailQ.init ∧
        (∀ ev, k.evQueued ev = false) ∧ ∀ e, k.evqList e = [])
      (wp_osTaskInit hl hc fun q L' _ _ => ih) he

/-- When the system starts, nobody has armed a callout. -/
theorem Started.calloutStart (h : Started s) : CalloutStart s.k := by
  obtain ⟨L, hs, _⟩ := h.sane
  obtain ⟨s0, t, hb, _, rfl⟩ := h
  obtain ⟨hc, hq, he⟩ := hb.noCallouts
  refine ⟨⟨L, hs.calm⟩, hc, fun c => hq _, fun c e => ?_⟩
  show Ev.timer c ∉ s0.k.evqList e
  rw [he]
  nofun

/-- A step posts the event of a callout when it takes the last tick. -/
theorem Leaves.posts (h : Leaves op c k C k' C') (hw : Waiting cs k C) (hw' : Waiting cs k' C')
    (hj : c ∈ C ∧ k.until c + j = n ∨ c ∉ C ∧ n ≤ j) : k.Posts c k' ↔ op = .tick ∧ j + 1 = n := by
  rw [Kernel.Posts, hw.mem_queue, hw'.mem_queue]
  simp only [and_true]
  rcases hj with ⟨hm, hj⟩ | ⟨hm, hj⟩
  · have hpos := hw.pos c hm
    have hidle := hw.idle c hm
    by_cases hz : k.until c = op.ticks
    · have htick : op = .tick := by
        cases op with
        | tick => rfl
        | _ => simp only [CalloutOp.ticks] at hz; omega
      subst htick
      simp only [CalloutOp.ticks] at hz
      simp [hidle, (h.fires hm (by simpa [CalloutOp.ticks] using hz)).2]
      omega
    · have hidle' := hw'.idle c (h.waits hm hz).1
      have : ¬ (op = .tick ∧ j + 1 = n) := by
        rintro ⟨rfl, hjn⟩
        simp only [CalloutOp.ticks] at hz
        omega
      simp [hidle', this]
  · have hno : ¬ (op = .tick ∧ j + 1 = n) := by omega
    simp only [hno, iff_false]
    exact fun hq => hq.1 ((h.rests hm).2 hq.2)

/-- In every run of resets, stops and ticks the list is free of duplicates and
in the order of what remains; a callout that is reset to `n` ticks has its
event posted by the tick number `max n 1` after that and by no other step, as
long as it is neither stopped nor reset; and a stop takes the event off. -/
theorem callouts_on_time {k₀ : Kernel} (h₀ : CalloutStart k₀) (hr : CalloutRuns cs k₀ k) :
    (∃ C : List Nat, Queues k.callouts (fun _ => C) ∧ C.Nodup ∧
      C.Pairwise fun a b => k.until a ≤ k.until b) ∧
    (∀ op : CalloutOp, op.Allowed cs k → ∃ k', calloutStep cs op k = some k') ∧
    (∀ c ticks k₁, CalloutOp.Allowed cs k (.reset c ticks) →
      calloutStep cs (.reset c ticks) k = some k₁ → ∀ j k₂, Undisturbed cs c k₁ j k₂ →
      ∀ op k₃, CalloutOp.Allowed cs k₂ op → op.callout ≠ some c → calloutStep cs op k₂ = some k₃ →
        (k₂.Posts c k₃ ↔ op = .tick ∧ j + 1 = max ticks.toNat 1)) ∧
    (∀ c k₁, calloutStep cs (.stop c) k = some k₁ → Ev.timer c ∉ k₁.evqList (k₁.cEvq c)) := by
  obtain ⟨C, hw⟩ := hr.waiting h₀
  refine ⟨⟨C, hw.marked.queues, hw.marked.queues.nodup (), hw.sorted⟩,
    fun op ha => ?_, fun c ticks k₁ ha hst j k₂ hu op k₃ ha2 hne hst2 => ?_, fun c k₁ hst => ?_⟩
  · obtain ⟨k', hst, -⟩ := hw.step ha
    exact ⟨k', hst⟩
  · obtain ⟨k', hst', C1, hw1, ⟨hc, hn⟩, _⟩ := hw.reset ha.1 ha.2.1 ha.2.2
    cases hst.symm.trans hst'
    obtain ⟨C2, hw2, hj⟩ := hu.left hw1 hc hn
    obtain ⟨k', hst', C3, hw3, hl⟩ := hw2.step ha2
    cases hst2.symm.trans hst'
    exact (hl c hne).posts hw2 hw3 hj
  · obtain ⟨k', hst', C', hw', hq, _⟩ := hw.stop c
    cases hst.symm.trans hst'
    rw [hw'.mem_queue, hq]
    simp

/-- Callout 0 is reset to two ticks. -/
def twoAhead : Kernel :=
  (calloutStep [0] (.reset 0 2) twoTasks.k).getD twoTasks.k

def oneAhead : Kernel := (calloutStep [0] .tick twoAhead).getD twoAhead

theorem callouts_on_time_oneAhead :
    ∃ k', calloutStep [0] .tick oneAhead = some k' ∧ oneAhead.Posts 0 k' := by
  have hreset : calloutStep [0] (.reset 0 2) twoTasks.k = some twoAhead :=
    eq_some_getD twoTasks.k (by decide +kernel)
  have htick : calloutStep [0] .tick twoAhead = some oneAhead :=
    eq_some_getD twoAhead (by decide +kernel)
  have hlast := eq_some_getD (o := calloutStep [0] .tick oneAhead) oneAhead (by decide +kernel)
  have hall := callouts_on_time twoTasks_started.calloutStart
    (.start : CalloutRuns [0] twoTasks.k twoTasks.k)
  refine ⟨_, hlast, ?_⟩
  refine (hall.2.2.1 0 2 twoAhead ?_ hreset 1 oneAhead ?_ .tick _ trivial nofun
    hlast).mpr ⟨rfl, rfl⟩
  · exact ⟨mem_cons_self, by decide, by decide⟩
  · refine .step .start ?_ ?_ htick
    · trivial
    · nofun

end Runs

end Larva.Os
