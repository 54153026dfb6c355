import Larva.Lib.Spans
import Mathlib.Logic.Function.Basic

/-!
# The link layer's schedule

`net/nimble/controller/src/ble_ll_sched.c`: a queue of items, each with the
time at which it starts and the time at which it ends, and a timer that is to
run when the first of them starts. Five routines look for a place for an item
that is not in the queue. A new slave connection and an advertising event that
is scheduled again push connections out of their way; a connection that is
scheduled again does so only where it has waited longer than all of them. A
new master connection and a new advertising event are moved behind what they
meet.

An item is named by a number, which stands for its address. A loop over the
queue is a recursion over what is left of it, and its result is the queue as
the loop leaves it. The rest of the link layer appears as `Env`, what the
routines read of it, and as the callbacks of the items that are run, which do
not touch the queue. A failed assertion and a `NULL` that is followed have no
result. The routines leave their critical section before they restart the
timer; nothing here happens in between.
-/

namespace Larva.Ble.Sched

open Serial

/-- A reading of the clock, `uint32_t`. -/
abbrev Time := BitVec 32

inductive SchedType where
  | adv
  | scan
  | conn
  deriving DecidableEq, Repr

/-- `struct ble_ll_sched_item`; `cbArg` names the connection. -/
structure Item where
  schedType : SchedType
  enqueued : Bool
  startTime : Time
  endTime : Time
  cbArg : Nat
  deriving DecidableEq, Repr

structure State where
  items : Nat → Item
  /-- `g_ble_ll_sched_q`. -/
  queue : List Nat
  /-- `g_ble_ll_sched_timer`, when it is running. -/
  timer : Option Time
  /-- The connections to which `conn_ev_end` has been sent. -/
  ended : List Nat

/-- What is read of the rest of the link layer. -/
structure Env where
  /-- `cputime_get32()`. -/
  now : Time
  /-- The state is `BLE_LL_STATE_CONNECTION`. -/
  inConnection : Bool
  /-- `ce_end_time` of `g_ble_ll_conn_cur_sm`, if there is one. -/
  curConn : Option Time
  /-- `last_scheduled` of every connection. -/
  lastScheduled : Nat → Time
  ticksPerUsec : Time

/-- What is read of a `struct ble_ll_conn_sm`, and written to it. -/
structure ConnSm where
  /-- `conn_sch`. -/
  sch : Nat
  isSlave : Bool
  slaveCurWindowWidening : Time
  anchorPoint : Time
  ceEndTime : Time
  connItvl : BitVec 16
  txWinOff : BitVec 16

/-! ## The clock -/

def Env.usecsToTicks (env : Env) (usecs : Time) : Time :=
  usecs * env.ticksPerUsec

/-- `ble_ll_conn_get_ce_end_time`. -/
def Env.ceEndTime (env : Env) : Time := env.curConn.getD env.now

def xcvrRxSchedDelayUsecs : Time := 190
def xcvrTxSchedDelayUsecs : Time := 190
def bleLlSchedUsecsPerSlot : Time := 1250
def bleLlConnItvlUsecs : Time := 1250
def bleLlIfs : Time := 150
def bleLlConnReqDuration : Time := 352
def bleLlConnInitialOffset : Time := 1250

/-! ## Overlaps -/

def bleLlSchedIsOverlap (s₁ s₂ : Item) : Bool :=
  if diff s₁.startTime s₂.startTime < 0 then
    !decide (diff s₁.endTime s₂.startTime ≤ 0)
  else
    !decide (0 ≤ diff s₁.startTime s₂.endTime)

def bleLlSchedOverlapsCurrent (env : Env) (sch : Item) : Bool :=
  env.inConnection && decide (0 < diff env.ceEndTime sch.startTime)

def bleLlConnIsLru (env : Env) (s₁ s₂ : Nat) : Bool :=
  decide (diff (env.lastScheduled s₁) (env.lastScheduled s₂) < 0)

/-! ## The queue and the timer -/

namespace State

def setItem (i : Nat) (f : Item → Item) (s : State) : State :=
  { s with items := Function.update s.items i (f (s.items i)) }

def setTimes (i : Nat) (start stop : Time) (s : State) : State :=
  s.setItem i fun m => { m with startTime := start, endTime := stop }

def setEnqueued (i : Nat) (b : Bool) (s : State) : State :=
  s.setItem i fun m => { m with enqueued := b }

def withQueue (q : List Nat) (s : State) : State := { s with queue := q }

/-- `cputime_timer_stop`. -/
def timerStop (s : State) : State := { s with timer := none }

/-- `cputime_timer_start`, which asserts that the timer is not running. -/
def timerStart (t : Time) (s : State) : Option State :=
  if s.timer.isSome then none else some { s with timer := some t }

/-- The timer is started with the first of the queue. -/
def timerStartFirst (s : State) : Option State :=
  match s.queue with
  | [] => none
  | i :: _ => s.timerStart (s.items i).startTime

/-- An item has been taken off the queue, and its connection is told. -/
def dropped (i : Nat) (s : State) : State :=
  let s := s.setEnqueued i false
  if (s.items i).schedType = .conn then
    { s with ended := s.ended ++ [(s.items i).cbArg] }
  else
    s

/-- `ble_ll_sched_insert_if_empty`; true when the item was inserted. -/
def bleLlSchedInsertIfEmpty (i : Nat) (s : State) : Bool × State :=
  match s.queue with
  | [] => (true, (s.withQueue [i]).setEnqueued i true)
  | _ :: _ => (false, s)

end State

/-! ## A connection is scheduled again -/

/-- The walk of `ble_ll_sched_conn_reschedule`: its answer, the queue, and the
first and the last that the item overlaps. -/
def reschedLoop (env : Env) (items : Nat → Item) (sch : Nat) : List Nat → Option Nat → Option Nat →
      Int × List Nat × Option Nat × Option Nat
  | [], first, last => (0, [sch], first, last)
  | entry :: rest, first, last =>
    if bleLlSchedIsOverlap (items sch) (items entry) then
      if (items entry).schedType = .adv ∨
          bleLlConnIsLru env (items sch).cbArg (items entry).cbArg = false then
        (-1, entry :: rest, none, last)
      else
        let (rc, q, first, last) := reschedLoop env items sch rest
          (first.or (some entry)) (some entry)
        (rc, entry :: q, first, last)
    else if diff (items sch).endTime (items entry).startTime < 0 then
      (0, sch :: entry :: rest, first, last)
    else
      let (rc, q, first, last) := reschedLoop env items sch rest first last
      (rc, entry :: q, first, last)

/-- From the first of the list to `last`: what is removed, and what is left. -/
def removeTo (last : Option Nat) : List Nat → List Nat × List Nat
  | [] => ([], [])
  | entry :: rest =>
    if some entry = last then
      ([entry], rest)
    else
      let (gone, left) := removeTo last rest
      (entry :: gone, left)

/-- The loop that removes the first to the last overlap. -/
def removeOverlaps (first last : Option Nat) (q : List Nat) :
    List Nat × List Nat :=
  match first with
  | none => ([], q)
  | some a =>
    let (gone, left) := removeTo last (q.dropWhile fun i => decide (i ≠ a))
    (gone, q.takeWhile (fun i => decide (i ≠ a)) ++ left)

def bleLlSchedConnReschedule (env : Env) (connsm : ConnSm) (s : State) :
    Option (Int × State) :=
  let sch := connsm.sch
  let usecs :=
    if connsm.isSlave then
      xcvrRxSchedDelayUsecs + connsm.slaveCurWindowWidening
    else
      xcvrTxSchedDelayUsecs
  let s := s.setTimes sch (connsm.anchorPoint - env.usecsToTicks usecs) connsm.ceEndTime
  if diff (s.items sch).startTime env.now < 0 then
    some (-1, s)
  else if bleLlSchedOverlapsCurrent env (s.items sch) then
    some (-1, s)
  else
    let s := s.timerStop
    let (rc, q, first, last) := reschedLoop env s.items sch s.queue none none
    let s := if rc = 0 then s.setEnqueued sch true else s
    let (gone, q) := removeOverlaps first last q
    let s := (gone.foldl (fun s i => s.dropped i) s).withQueue q
    s.timerStartFirst.map fun s => (rc, s)

/-! ## A new master connection -/

/-- The walk of `ble_ll_sched_master_new`: its answer, the queue, the earliest
start, and the start time that the item was given last. -/
def masterLoop (items : Nat → Item) (sch : Nat) (dur initial itvl : Time) :
    List Nat → Time → Time → Int × List Nat × Time × Time
  | [], earliest, start =>
    if earliest - initial ≤ itvl then (0, [sch], earliest, start)
    else (-1, [], earliest, start)
  | entry :: rest, earliest, _ =>
    let new := { items sch with
      startTime := earliest, endTime := earliest + dur }
    if diff new.endTime (items entry).startTime < 0 then
      if earliest - initial ≤ itvl then
        (0, sch :: entry :: rest, earliest, earliest)
      else
        (-1, entry :: rest, earliest, earliest)
    else
      let next :=
        if bleLlSchedIsOverlap new (items entry) then (items entry).endTime
        else earliest
      let (rc, q, earliest, start) :=
        masterLoop items sch dur initial itvl rest next earliest
      (rc, entry :: q, earliest, start)

/-- The earliest start of a new master connection. -/
def masterInitial (env : Env) (advRxend : Time) : Time :=
  let earliest := advRxend + env.usecsToTicks
    (bleLlIfs + bleLlConnReqDuration + bleLlConnInitialOffset)
  if env.inConnection && decide (0 ≤ diff env.ceEndTime earliest) then
    env.ceEndTime
  else
    earliest

/-- The length of its item. -/
def masterDur (env : Env) (reqSlots : BitVec 8) : Time :=
  env.usecsToTicks (reqSlots.setWidth 32 * bleLlSchedUsecsPerSlot)

def masterItvl (env : Env) (connsm : ConnSm) : Time :=
  env.usecsToTicks (connsm.connItvl.setWidth 32 * bleLlConnItvlUsecs)

def bleLlSchedMasterNew (env : Env) (connsm : ConnSm) (advRxend : Time)
    (reqSlots : BitVec 8) (s : State) : Option (Int × ConnSm × State) :=
  let dur := masterDur env reqSlots
  let initial := masterInitial env advRxend
  -- The times of the item before the walk, the end being what it was.
  let s := s.setItem connsm.sch fun m => { m with
    startTime := advRxend + env.usecsToTicks
      (bleLlIfs + bleLlConnReqDuration + bleLlConnInitialOffset) }
  match s.bleLlSchedInsertIfEmpty connsm.sch with
  | (true, s) =>
    let s := s.setTimes connsm.sch initial (initial + dur)
    let connsm := { connsm with
      txWinOff := 0
      anchorPoint := initial + env.usecsToTicks xcvrTxSchedDelayUsecs
      ceEndTime := initial + dur }
    (s.timerStart (s.items connsm.sch).startTime).map fun s => (0, connsm, s)
  | (false, s) =>
    let s := s.timerStop
    let (rc, q, earliest, start) := masterLoop s.items connsm.sch dur initial
      (masterItvl env connsm) s.queue initial initial
    let s := (s.setTimes connsm.sch start (start + dur)).withQueue q
    match q with
    | [] => none
    | first :: _ =>
      if rc = 0 then
        -- `sch` is the first of the queue from here on.
        let s := (s.setEnqueued connsm.sch true).setTimes first earliest (earliest + dur)
        let connsm := { connsm with
          txWinOff := ((earliest - initial) / env.usecsToTicks bleLlConnItvlUsecs).setWidth 16
          anchorPoint := earliest + env.usecsToTicks xcvrTxSchedDelayUsecs
          ceEndTime := earliest + dur }
        (s.timerStart (s.items first).startTime).map fun s =>
          (0, connsm, s)
      else
        (s.timerStart (s.items first).startTime).map fun s =>
          (rc, connsm, s)

/-! ## A new slave connection, and advertising that is scheduled again -/

/-- The walk that takes connections off the queue: its answer, the queue, and
what was taken off. -/
def evictLoop (items : Nat → Item) (sch : Nat) : List Nat → Int × List Nat × List Nat
  | [] => (0, [sch], [])
  | entry :: rest =>
    if diff (items sch).endTime (items entry).startTime < 0 then
      (0, sch :: entry :: rest, [])
    else if bleLlSchedIsOverlap (items sch) (items entry) then
      -- `ble_ll_sched_conn_overlap`.
      if (items entry).schedType = .conn then
        let (rc, q, gone) := evictLoop items sch rest
        (rc, q, entry :: gone)
      else
        (-1, entry :: rest, [])
    else
      let (rc, q, gone) := evictLoop items sch rest
      (rc, entry :: q, gone)

/-- The state that the walk leaves. -/
def evicted (sch : Nat) (r : Int × List Nat × List Nat) (s : State) : State :=
  let s := (r.2.2.foldl (fun s i => s.dropped i) s).withQueue r.2.1
  if r.1 = 0 then s.setEnqueued sch true else s

def bleLlSchedSlaveNew (env : Env) (connsm : ConnSm) (s : State) :
    Option (Int × State) :=
  let sch := connsm.sch
  let s := s.setTimes sch (connsm.anchorPoint - env.usecsToTicks
      (xcvrRxSchedDelayUsecs + connsm.slaveCurWindowWidening)) connsm.ceEndTime
  if bleLlSchedOverlapsCurrent env (s.items sch) then
    some (-1, s)
  else
    match s.bleLlSchedInsertIfEmpty sch with
    | (true, s) => (s.timerStart (s.items sch).startTime).map fun s => (0, s)
    | (false, s) =>
      let s := s.timerStop
      let r := evictLoop s.items sch s.queue
      ((evicted sch r s).timerStartFirst).map fun s => (r.1, s)

/-- The item has been given its times. -/
def bleLlSchedAdvReschedule (env : Env) (sch : Nat) (s : State) :
    Option (Int × State) :=
  if bleLlSchedOverlapsCurrent env (s.items sch) then
    some (-1, s)
  else
    match s.bleLlSchedInsertIfEmpty sch with
    | (true, s) => (s.timerStart (s.items sch).startTime).map fun s => (0, s)
    | (false, s) =>
      let s := s.timerStop
      let r := evictLoop s.items sch s.queue
      -- An overlap with anything but a connection fails an assertion.
      if r.1 = 0 then
        ((evicted sch r s).timerStartFirst).map fun s => (0, s)
      else
        none

/-! ## New advertising -/

/-- The walk of `ble_ll_sched_adv_new`: the queue, and the start time that the
item has been moved to. -/
def advLoop (items : Nat → Item) (sch : Nat) (duration : Time) : List Nat → Time → List Nat × Time
  | [], start => ([sch], start)
  | entry :: rest, start =>
    let new := { items sch with
      startTime := start, endTime := start + duration }
    if diff new.endTime (items entry).startTime < 0 then
      (sch :: entry :: rest, start)
    else
      let (q, start) := advLoop items sch duration rest
        (if bleLlSchedIsOverlap new (items entry) then (items entry).endTime
        else start)
      (entry :: q, start)

/-- The start of new advertising, before the queue is looked at. -/
def advStart (env : Env) (start : Time) : Time :=
  if env.inConnection then
    let start := start + env.usecsToTicks bleLlSchedUsecsPerSlot
    if 0 ≤ diff env.ceEndTime start then env.ceEndTime else start
  else
    start

/-- The item has been given its times. -/
def bleLlSchedAdvNew (env : Env) (sch : Nat) (s : State) :
    Option (Int × State) :=
  let duration := (s.items sch).endTime - (s.items sch).startTime
  let start := advStart env (s.items sch).startTime
  let s := s.setTimes sch start (start + duration)
  match s.bleLlSchedInsertIfEmpty sch with
  | (true, s) => (s.timerStart (s.items sch).startTime).map fun s => (0, s)
  | (false, s) =>
    let s := s.timerStop
    let (q, start) := advLoop s.items sch duration s.queue start
    let s := ((s.setTimes sch start (start + duration)).withQueue q).setEnqueued sch true
    s.timerStartFirst.map fun s => (0, s)

/-! ## Removal and the timer's interrupt -/

def bleLlSchedRmvElem (sch : Nat) (s : State) : Option State :=
  if (s.items sch).enqueued then
    let isFirst := decide (s.queue.head? = some sch)
    let s := if isFirst then s.timerStop else s
    let s := (s.withQueue (s.queue.erase sch)).setEnqueued sch false
    if isFirst then
      match s.queue with
      | [] => some s
      | first :: _ => s.timerStart (s.items first).startTime
    else
      some s
  else
    some s

/-- The loop of `ble_ll_sched_run`, over what is left of the queue. The clock
is read in every round. -/
def runLoop : (Nat → Time) → List Nat → State → Option State
  | _, [], s => some s
  | clock, first :: rest, s =>
    if 0 ≤ diff (clock 0) (s.items first).startTime then
      runLoop (fun n => clock (n + 1)) rest ((s.withQueue rest).setEnqueued first false)
    else
      s.timerStart (s.items first).startTime

/-- The timer has run out, and its callback runs. -/
def bleLlSchedRun (clock : Nat → Time) (s : State) : Option State :=
  runLoop clock s.queue s.timerStop

end Larva.Ble.Sched
