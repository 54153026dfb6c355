import Mathlib.Algebra.Order.Ring.Int
import Mathlib.Algebra.BigOperators.Group.List.Basic
import Mathlib.Logic.Function.Basic

/-!
# The scheduler of HCI commands

Any task may ask for a slot in which an HCI command is sent
(`ble_hci_sched_enqueue`) or give one up (`ble_hci_sched_cancel`). The host
task takes the slots off the list one at a time when it is woken, runs the
transmit callback of each, and completes the slot when the controller has
acknowledged the command (`ble_hci_sched.c`, and `host_hci.c` for the events
that come from the controller).

The system is modelled with every task stopped between any two accesses to
what the tasks share. A section under the scheduler's mutex is one step, and
so is one access outside of it: the list is changed under the mutex, but the
current slot, the ack callback and the last handle are also read and written
without it. Task `0` is the host task. What a callback does is not fixed: the
host task may do in it anything that the functions of the host allow there,
in any order.
-/

namespace Larva.Ble.HciSched

/-- A slot, `struct ble_hci_sched_entry`. `id` tells apart the slots that use
one block of the pool after each other; `txCb` stands for the callback and its
argument. -/
structure Entry where
  id : Nat
  txCb : Nat
  handle : Nat
deriving DecidableEq

/-- `struct ble_hci_ack`, before its handle is filled in. -/
structure Ack where
  status : Nat
  params : List UInt8
  opcode : Nat
deriving DecidableEq

/-- An event in the queue of the host task: a wake-up, an event from the
controller, or the end of the time in which a command has to be
acknowledged. -/
inductive Ev where
  | kick
  | ctlr (data : List UInt8)
  | timer
deriving DecidableEq

/-- How far a task has come in a call. -/
inductive Call where
  | none
  /-- In `ble_hci_sched_enqueue` with a block, before it has a handle. -/
  | alloced (e : Entry)
  /-- Before the slot is inserted. -/
  | numbered (e : Entry)
  /-- Before the current slot is looked at. -/
  | inserted
  /-- About to post the wake-up. -/
  | kick
  /-- In `ble_hci_sched_cancel` after its locked section. -/
  | cancelled (e : Option Entry) (doKick : Bool)
deriving DecidableEq

/-- How far the host task has come with an event. -/
inductive Host where
  /-- Waiting, or busy with what does not concern the scheduler. -/
  | idle
  /-- At the start of `ble_hci_sched_process_next`. -/
  | next
  | take
  /-- In the transmit callback of a slot. `reg` is true once the callback has
  registered an ack callback. -/
  | tx (e : Entry) (reg : Bool)
  /-- The transmit callback has failed. -/
  | failed (e : Entry)
  /-- At the start of `ble_hci_sched_rx_ack`. -/
  | ack (a : Ack)
  | ackTake (a : Ack)
  | ackCall (a : Ack) (cb : Option Nat)
  /-- In an ack callback. -/
  | acking
  /-- At the start of `ble_hci_sched_transaction_complete`. -/
  | complete
  | completed (e : Option Entry)
  | check
  | kick
deriving DecidableEq

/-- The asserts on the way, and the call of a callback that is not there. -/
inductive Assert where
  /-- `ble_hci_sched_process_next`: no slot is current. -/
  | curEntry
  /-- `ble_hci_sched_entry_remove`, of the first slot. -/
  | first
  /-- `ble_hci_sched_entry_remove`, of another slot. -/
  | nextOfPrev
  /-- `ble_hci_sched_set_ack_cb`: no callback is replaced. -/
  | ackCb
  /-- `host_hci_cmd_send`: no command is outstanding. -/
  | inFlight
  /-- `host_hci_timer_exp`: a command is outstanding. -/
  | noneInFlight
  | nullCall
deriving DecidableEq

/-- The asserts of `ble_hci_sched.c`. -/
def Assert.ofSched : Assert → Bool
  | curEntry | first | nextOfPrev | ackCb => true
  | inFlight | noneInFlight | nullCall => false

structure St where
  list : List Entry
  /-- The number of free blocks of the pool. -/
  free : Nat
  /-- The number of slots there have been. -/
  count : Nat
  curEntry : Option Entry
  prevHandle : Nat
  ackCb : Option Nat
  ackArg : Nat
  outstandingOpcode : Nat
  evq : List Ev
  calls : Nat → Call
  host : Host

/-- What a step ends with. -/
inductive Res where
  | at (s : St)
  | fails (a : Assert)

/-- The state after `ble_hci_sched_init`, with a pool of `slots` blocks; the
last handle is that of an earlier use, if any. -/
def St.init (slots prevHandle : Nat) : St where
  list := []
  free := slots
  count := 0
  curEntry := none
  prevHandle := prevHandle
  ackCb := none
  ackArg := 0
  outstandingOpcode := 0
  evq := []
  calls := fun _ => .none
  host := .idle

/-! ## Pieces -/

/-- The handle that `ble_hci_sched_new_handle` gives, from the last one: one
more as a `uint8_t`, and not `BLE_HCI_SCHED_HANDLE_NONE`. -/
def newHandle (prev : Nat) : Nat :=
  if (prev + 1) % 256 = 0 then 1 else (prev + 1) % 256

/-- `ble_hs_kick_hci`: an event that is queued is not queued again. -/
def putKick (evq : List Ev) : List Ev :=
  if .kick ∈ evq then evq else evq ++ [.kick]

/-- The first slot of the list with the handle, and the slot before it. -/
def find (handle : Nat) : Option Entry → List Entry → Option (Entry × Option Entry)
  | _, [] => none
  | prev, e :: l =>
    if e.handle = handle then some (e, prev) else find handle (some e) l

/-- What `STAILQ_NEXT` of a slot of the list is. -/
def nextOf (e : Entry) : List Entry → Option Entry
  | [] => none
  | x :: l => if x = e then l.head? else nextOf e l

/-- `ble_hci_sched_entry_remove`. -/
def entryRemove (entry : Entry) (prev : Option Entry) (list : List Entry) :
    Except Assert (List Entry) :=
  match prev with
  | none => if list.head? = some entry then .ok list.tail else .error .first
  | some p =>
    -- What follows `prev` is set to what follows `prev`.
    if nextOf p list = some p then .ok list else .error .nextOfPrev

/-- The groups of the commands that the host sends. -/
inductive Ogf where
  | linkCtrl
  | ctlrBaseband
  | infoParams
  | statusParams
  | le
deriving DecidableEq

def Ogf.code : Ogf → Nat
  | linkCtrl => 1
  | ctlrBaseband => 3
  | infoParams => 4
  | statusParams => 5
  | le => 8

/-- `(ogf << 10) | ocf`, as a `uint16_t`. -/
def opcode (ogf : Ogf) (ocf : UInt8) : Nat :=
  (ogf.code <<< 10 ||| ocf.toNat) % 2 ^ 16

theorem opcode_ne_zero (ogf : Ogf) (ocf : UInt8) : opcode ogf ocf ≠ 0 := by
  have hc : ogf.code <<< 10 < 2 ^ 16 ∧ ogf.code <<< 10 ≠ 0 := by
    cases ogf <;> decide
  have ho : ocf.toNat < 2 ^ 16 := ocf.toNat_lt.trans (by decide)
  rw [opcode, Nat.mod_eq_of_lt (Nat.or_lt_two_pow hc.1 ho)]
  intro h
  exact hc.2 (Nat.or_eq_zero_iff.mp h).1

def bleHsEtimeout : Nat := 14

def bleHsEcontroller : Nat := 13

/-- `BLE_HS_HCI_ERR`. -/
def bleHsHciErr (status : UInt8) : Nat :=
  if status = 0 then 0 else 0x200 + status.toNat

/-- `data[i]` of an event buffer. -/
def byte (data : List UInt8) (i : Nat) : UInt8 := data.getD i 0

def le16toh (data : List UInt8) (i : Nat) : Nat :=
  (byte data i).toNat + 256 * (byte data (i + 1)).toNat

/-- `param_len + 2`. -/
def eventLen (data : List UInt8) : Nat := (byte data 1).toNat + 2

/-- The opcode and the ack of a command complete event
(`host_hci_rx_cmd_complete`), unless it is too short. -/
def cmdComplete (data : List UInt8) : Option Ack :=
  if eventLen data < 5 then none
  else
    let paramsLen := eventLen data - 5
    some {
      opcode := le16toh data 3
      params := (List.range paramsLen).map fun i => byte data (5 + i)
      status := if paramsLen > 0 then bleHsHciErr (byte data 5)
        else bleHsEcontroller }

/-- The opcode and the ack of a command status event
(`host_hci_rx_cmd_status`), unless it is too short. -/
def cmdStatus (data : List UInt8) : Option Ack :=
  if eventLen data < 6 then none
  else some {
    opcode := le16toh data 4
    params := []
    status := bleHsHciErr (byte data 2) }

/-- The acks among the events of the controller: those with the code of a
command complete or a command status event. -/
def ackOf (data : List UInt8) : Option Ack :=
  if byte data 0 = 0x0e then cmdComplete data
  else if byte data 0 = 0x0f then cmdStatus data
  else none

namespace St

def setCall (t : Nat) (c : Call) (s : St) : St :=
  { s with calls := Function.update s.calls t c }

/-- `host_hci_timer_stop`. -/
def timerStop (s : St) : St := { s with evq := s.evq.filter (· ≠ .timer) }

/-- How `host_hci_rx_cmd_complete` and `host_hci_rx_cmd_status` go on from an
event's opcode; `BLE_HCI_OPCODE_NOP` is zero. -/
def rxAck (a : Ack) (s : St) : St :=
  if a.opcode ≠ 0 ∧ a.opcode ≠ s.outstandingOpcode then s
  else if a.opcode = s.outstandingOpcode then
    { s.timerStop with outstandingOpcode := 0, host := .ack a }
  else { s with host := .ack a }

/-- `host_hci_timer_exp`. -/
def timerExp (s : St) : Res :=
  if s.outstandingOpcode = 0 then .fails .noneInFlight
  else .at { s with
    outstandingOpcode := 0
    host := .ack {
      status := bleHsEtimeout, params := [], opcode := s.outstandingOpcode } }

/-- `ble_hci_sched_set_ack_cb`. -/
def setAckCb (cb : Option Nat) (arg : Nat) (s : St) : Res :=
  if s.ackCb = none ∨ cb = none then .at { s with ackCb := cb, ackArg := arg }
  else .fails .ackCb

/-- Tasks call the functions of the scheduler from outside of them; the host
task does so when it handles other events and from callbacks. -/
def mayCall (t : Nat) (s : St) : Bool :=
  s.calls t = .none && (t ≠ 0 || match s.host with
    | .idle | .tx _ _ | .acking => true
    | _ => false)

/-- `ble_hci_sched_enqueue` as far as the block it allocates, which is
zeroed. -/
def enqueue (t txCb : Nat) (s : St) : St :=
  match s.free with
  | 0 => s
  | free + 1 =>
    { s with free := free, count := s.count + 1 }.setCall t
      (.alloced { id := s.count, txCb := txCb, handle := 0 })

/-- `ble_hci_sched_cancel` as far as the end of its locked section. -/
def cancel (t handle : Nat) (s : St) : Res :=
  if (s.curEntry.map Entry.handle) = some handle then
    .at ({ s with curEntry := none, ackCb := none, ackArg := 0 }.setCall t
      (.cancelled s.curEntry (!s.list.isEmpty)))
  else match find handle none s.list with
    | none => .at (s.setCall t (.cancelled none false))
    | some (entry, prev) =>
      match entryRemove entry prev s.list with
      | .ok list =>
        .at ({ s with list := list }.setCall t (.cancelled (some entry) false))
      | .error a => .fails a

/-- One step of the call in which task `t` is. -/
def goCall (t : Nat) (s : St) : Option St :=
  match s.calls t with
  | .none => none
  | .alloced e =>
    let handle := newHandle s.prevHandle
    some ({ s with prevHandle := handle }.setCall t (.numbered { e with handle := handle }))
  | .numbered e => some ({ s with list := s.list ++ [e] }.setCall t .inserted)
  | .inserted =>
    some (s.setCall t (if s.curEntry = none then .kick else .none))
  | .kick => some ({ s with evq := putKick s.evq }.setCall t .none)
  | .cancelled e doKick =>
    some ({ s with free := s.free + e.toList.length }.setCall t (if doKick then .kick else .none))

/-- The host task takes an event out of its queue. The handling of other
events than these is left to `mayCall`. -/
def getEvent (s : St) : Option Res :=
  match s.evq with
  | [] => none
  | .kick :: evq => some (.at { s with evq := evq, host := .next })
  | .ctlr data :: evq =>
    match ackOf data with
    | none => some (.at { s with evq := evq })
    | some a => some (.at (rxAck a { s with evq := evq }))
  | .timer :: evq => some (timerExp { s with evq := evq })

/-- One step of the host task outside of callbacks. -/
def goHost (s : St) : Option Res :=
  match s.host with
  | .idle | .tx _ _ | .acking => none
  | .next =>
    if s.curEntry = none then some (.at { s with host := .take })
    else some (.fails .curEntry)
  | .take =>
    match s.list with
    | [] => some (.at { s with host := .idle })
    | e :: list => some (.at { s with list := list, host := .tx e false })
  | .failed _ => some (.at { s with free := s.free + 1, host := .next })
  | .ack a =>
    if s.ackCb = none then some (.at { s with host := .complete })
    else some (.at { s with host := .ackTake a })
  | .ackTake a =>
    some (.at { s with ackCb := none, host := .ackCall a s.ackCb })
  | .ackCall _ cb =>
    match cb with
    | none => some (.fails .nullCall)
    | some _ => some (.at { s with host := .acking })
  | .complete =>
    some (.at { s with curEntry := none, host := .completed s.curEntry })
  | .completed e =>
    some (.at { s with free := s.free + e.toList.length, host := .check })
  | .check =>
    some (.at { s with host := if s.list = [] then .idle else .kick })
  | .kick => some (.at { s with evq := putKick s.evq, host := .idle })

/-- `host_hci_cmd_send`. `sent` says whether there was a buffer and the
transport took it. -/
def cmdSend (opcode : Nat) (sent : Bool) (s : St) : Res :=
  if s.outstandingOpcode ≠ 0 then .fails .inFlight
  else if sent then .at { s with outstandingOpcode := opcode }
  else s.setAckCb none 0

/-- The callback in which the host task is returns. -/
def ret (rc : Int) (s : St) : Option Res :=
  match s.host with
  | .tx e _ =>
    if rc = 0 then some (.at { s with curEntry := some e, host := .idle })
    else some (.at { s with host := .failed e })
  | .acking => some (.at { s with host := .complete })
  | _ => none

end St

/-! ## Steps and runs -/

inductive Label where
  /-- Task `t` calls `ble_hci_sched_enqueue`. -/
  | enqueue (t txCb : Nat)
  /-- Task `t` calls `ble_hci_sched_cancel`. -/
  | cancel (t handle : Nat)
  | call (t : Nat)
  | get
  | host
  /-- A transmit callback calls `ble_hci_sched_set_ack_cb`. -/
  | setAckCb (cb : Option Nat) (arg : Nat)
  /-- A transmit callback sends a command. -/
  | send (ogf : Ogf) (ocf : UInt8) (sent : Bool)
  | ret (rc : Int)
  /-- The controller sends an event. -/
  | ctlr (data : List UInt8)
  /-- The time for the acknowledgement is over. -/
  | expire
deriving DecidableEq

/-- The host task is in a transmit callback, and in no call from it. -/
def St.inTx (s : St) : Bool :=
  s.calls 0 = .none && match s.host with
    | .tx _ _ => true
    | _ => false

/-- A transmit callback has called `ble_hci_sched_set_ack_cb`. -/
def Host.register (cb : Option Nat) : Host → Host
  | .tx e reg => .tx e (reg || cb.isSome)
  | h => h

def step (l : Label) (s : St) : Option Res :=
  match l with
  | .enqueue t txCb =>
    if s.mayCall t then some (.at (s.enqueue t txCb)) else none
  | .cancel t handle => if s.mayCall t then some (s.cancel t handle) else none
  | .call t => (s.goCall t).map .at
  | .get =>
    if s.host = .idle ∧ s.calls 0 = .none then s.getEvent else none
  | .host => s.goHost
  | .setAckCb cb arg =>
    if s.inTx then
      some ({ s with host := s.host.register cb }.setAckCb cb arg)
    else none
  | .send ogf ocf sent =>
    if s.inTx then some (s.cmdSend (opcode ogf ocf) sent) else none
  | .ret rc => if s.calls 0 = .none then s.ret rc else none
  | .ctlr data => some (.at { s with evq := s.evq ++ [.ctlr data] })
  | .expire =>
    -- The timer runs while a command is outstanding.
    if s.outstandingOpcode ≠ 0 ∧ .timer ∉ s.evq then
      some (.at { s with evq := s.evq ++ [.timer] })
    else none

/-- What is to be seen of a step: slots that are put on the list and taken
off, commands sent, ack callbacks registered, dropped and called with a
handle, events that carry an opcode, timeouts, and slots that are done
with. -/
inductive Obs where
  | enqueued (e : Entry)
  | transmit (e : Entry)
  | sent (opcode : Nat)
  | registered (cb arg : Nat)
  | dropped
  | event (opcode : Nat)
  | timeout
  | acked (cb arg handle : Nat)
  | finished (e : Entry)
deriving DecidableEq

/-- What is seen of a step from `s`, the last thing first. -/
def St.obs (s : St) : Label → List Obs
  | .call t =>
    match s.calls t with
    | .numbered e => [.enqueued e]
    | _ => []
  | .get =>
    match s.evq with
    | .ctlr data :: _ => (ackOf data).toList.map fun a => .event a.opcode
    | .timer :: _ => [.timeout]
    | _ => []
  | .host =>
    match s.host with
    | .take => s.list.head?.toList.map .transmit
    | .ackCall _ cb =>
      cb.toList.map fun cb => .acked cb s.ackArg s.prevHandle
    | .complete => s.curEntry.toList.map .finished
    | _ => []
  | .setAckCb cb arg =>
    match cb with
    | some cb => [.registered cb arg]
    | none => [.dropped]
  | .send ogf ocf sent => if sent then [.sent (opcode ogf ocf)] else [.dropped]
  | _ => []

/-- The runs from `s₀` whose steps are all `ok`, with what is seen of them,
the last thing first. -/
inductive Runs (ok : St → Label → Bool) (s₀ : St) : List Obs → St → Prop
  | nil : Runs ok s₀ [] s₀
  | step {tr : List Obs} {s s' : St} {l : Label} : Runs ok s₀ tr s →
      ok s l = true → step l s = some (.at s') → Runs ok s₀ (s.obs l ++ tr) s'

/-- A list of labels, followed from a state. -/
def follow (ok : St → Label → Bool) : List Label → List Obs → St → Option (List Obs × St)
  | [], tr, s => some (tr, s)
  | l :: ls, tr, s =>
    if ok s l then
      match step l s with
      | some (.at s') => follow ok ls (s.obs l ++ tr) s'
      | _ => none
    else none

theorem Runs.follow {ok : St → Label → Bool} {s0 : St} (ls : List Label) :
    ∀ {tr tr' : List Obs} {s s' : St}, Runs ok s0 tr s →
      HciSched.follow ok ls tr s = some (tr', s') → Runs ok s0 tr' s' := by
  induction ls with
  | nil =>
    intro tr tr' s s' h hf
    cases hf
    exact h
  | cons l ls ih =>
    intro tr tr' s s' h hf
    unfold HciSched.follow at hf
    split at hf
    · next hok =>
      split at hf
      · next s1 hs => exact ih (.step h hok hs) hf
      · cases hf
    · cases hf

/-! ## What a step can do -/

inductive Does (s : St) : Label → St → Prop
  | noMem {t cb : Nat} : s.mayCall t = true → s.free = 0 → Does s (.enqueue t cb) s
  | alloc {t cb n : Nat} : s.mayCall t = true → s.free = n + 1 →
      Does s (.enqueue t cb) ({ s with free := n, count := s.count + 1 }.setCall
        t (.alloced ⟨s.count, cb, 0⟩))
  | cancelCur {t : Nat} {e : Entry} : s.mayCall t = true → s.curEntry = some e →
      Does s (.cancel t e.handle) ({ s with
        curEntry := none, ackCb := none, ackArg := 0 }.setCall t
          (.cancelled (some e) (!s.list.isEmpty)))
  | cancelNone {t handle : Nat} : s.mayCall t = true → find handle none s.list = none →
      Does s (.cancel t handle) (s.setCall t (.cancelled none false))
  | cancelSome {t handle : Nat} {e : Entry} {prev : Option Entry}
      {list : List Entry} : s.mayCall t = true → find handle none s.list = some (e, prev) →
      entryRemove e prev s.list = .ok list →
      Does s (.cancel t handle) ({ s with list := list }.setCall t (.cancelled (some e) false))
  | number {t : Nat} {e : Entry} : s.calls t = .alloced e →
      Does s (.call t) ({ s with prevHandle := newHandle s.prevHandle }.setCall
        t (.numbered { e with handle := newHandle s.prevHandle }))
  | insert {t : Nat} {e : Entry} : s.calls t = .numbered e →
      Does s (.call t) ({ s with list := s.list ++ [e] }.setCall t .inserted)
  | busy {t : Nat} : s.calls t = .inserted → s.curEntry ≠ none →
      Does s (.call t) (s.setCall t .none)
  | unbusy {t : Nat} : s.calls t = .inserted → s.curEntry = none →
      Does s (.call t) (s.setCall t .kick)
  | post {t : Nat} : s.calls t = .kick →
      Does s (.call t) ({ s with evq := putKick s.evq }.setCall t .none)
  | cancelled {t : Nat} {e : Option Entry} {doKick : Bool} : s.calls t = .cancelled e doKick →
      Does s (.call t) ({ s with free := s.free + e.toList.length }.setCall t
        (if doKick then .kick else .none))
  | getKick {evq : List Ev} : s.host = .idle → s.evq = .kick :: evq →
      Does s .get { s with evq := evq, host := .next }
  | getOther {data : List UInt8} {evq : List Ev} : s.host = .idle →
      s.evq = .ctlr data :: evq → ackOf data = none → Does s .get { s with evq := evq }
  | getStale {data : List UInt8} {evq : List Ev} {a : Ack} : s.host = .idle →
      s.evq = .ctlr data :: evq → ackOf data = some a → a.opcode ≠ 0 →
      a.opcode ≠ s.outstandingOpcode → Does s .get { s with evq := evq }
  | getAck {data : List UInt8} {evq : List Ev} {a : Ack} : s.host = .idle →
      s.evq = .ctlr data :: evq → ackOf data = some a → a.opcode = s.outstandingOpcode →
      Does s .get { s with
        evq := evq.filter (· ≠ .timer), outstandingOpcode := 0, host := .ack a }
  | getNop {data : List UInt8} {evq : List Ev} {a : Ack} : s.host = .idle →
      s.evq = .ctlr data :: evq → ackOf data = some a → a.opcode = 0 → s.outstandingOpcode ≠ 0 →
      Does s .get { s with evq := evq, host := .ack a }
  | getTimer {evq : List Ev} {a : Ack} : s.host = .idle →
      s.evq = .timer :: evq → s.outstandingOpcode ≠ 0 →
      Does s .get { s with
        evq := evq, outstandingOpcode := 0, host := .ack a }
  | next : s.host = .next → s.curEntry = none → Does s .host { s with host := .take }
  | takeNone : s.host = .take → s.list = [] → Does s .host { s with host := .idle }
  | take {e : Entry} {list : List Entry} : s.host = .take → s.list = e :: list →
      Does s .host { s with list := list, host := .tx e false }
  | failed {e : Entry} : s.host = .failed e →
      Does s .host { s with free := s.free + 1, host := .next }
  | ackNone {a : Ack} : s.host = .ack a → s.ackCb = none → Does s .host { s with host := .complete }
  | ackSome {a : Ack} : s.host = .ack a → s.ackCb ≠ none →
      Does s .host { s with host := .ackTake a }
  | ackTake {a : Ack} : s.host = .ackTake a →
      Does s .host { s with ackCb := none, host := .ackCall a s.ackCb }
  | ackCall {a : Ack} {cb : Nat} : s.host = .ackCall a (some cb) →
      Does s .host { s with host := .acking }
  | complete : s.host = .complete →
      Does s .host { s with
        curEntry := none, host := .completed s.curEntry }
  | completed {e : Option Entry} : s.host = .completed e →
      Does s .host { s with free := s.free + e.toList.length, host := .check }
  | checkNone : s.host = .check → s.list = [] → Does s .host { s with host := .idle }
  | checkSome : s.host = .check → s.list ≠ [] → Does s .host { s with host := .kick }
  | kick : s.host = .kick → Does s .host { s with evq := putKick s.evq, host := .idle }
  | setAckCb {e : Entry} {reg : Bool} {cb : Option Nat} {arg : Nat} :
      s.host = .tx e reg → s.ackCb = none ∨ cb = none →
      Does s (.setAckCb cb arg) { s with
        ackCb := cb, ackArg := arg, host := .tx e (reg || cb.isSome) }
  | sent {e : Entry} {reg : Bool} {ogf : Ogf} {ocf : UInt8} :
      s.host = .tx e reg → s.outstandingOpcode = 0 →
      Does s (.send ogf ocf true) { s with
        outstandingOpcode := opcode ogf ocf }
  | unsent {e : Entry} {reg : Bool} {ogf : Ogf} {ocf : UInt8} :
      s.host = .tx e reg → s.outstandingOpcode = 0 →
      Does s (.send ogf ocf false) { s with ackCb := none, ackArg := 0 }
  | retOk {e : Entry} {reg : Bool} : s.host = .tx e reg →
      Does s (.ret 0) { s with curEntry := some e, host := .idle }
  | retFail {e : Entry} {reg : Bool} {rc : Int} : s.host = .tx e reg →
      rc ≠ 0 → Does s (.ret rc) { s with host := .failed e }
  | retAck {rc : Int} : s.host = .acking → Does s (.ret rc) { s with host := .complete }
  | ctlr {data : List UInt8} : Does s (.ctlr data) { s with evq := s.evq ++ [.ctlr data] }
  | expire : s.outstandingOpcode ≠ 0 → Does s .expire { s with evq := s.evq ++ [.timer] }

section Inversion

variable {s s' : St} {t : Nat}

theorem enqueue_does {cb : Nat} (hm : s.mayCall t = true) :
    Does s (.enqueue t cb) (s.enqueue t cb) := by
  unfold St.enqueue
  split
  · next hf => exact .noMem hm hf
  · next n hf => exact .alloc hm hf

theorem cancel_does {handle : Nat} (hm : s.mayCall t = true) (h : s.cancel t handle = .at s') :
    Does s (.cancel t handle) s' := by
  unfold St.cancel at h
  split at h
  · next hc =>
    cases he : s.curEntry with
    | none =>
      rw [he] at hc
      cases hc
    | some e =>
      rw [he] at hc h
      cases hc
      cases h
      exact .cancelCur hm he
  · split at h
    · next hf =>
      cases h
      exact .cancelNone hm hf
    · next e prev hf =>
      split at h
      · next list hr =>
        cases h
        exact .cancelSome hm hf hr
      · cases h

theorem goCall_does (h : s.goCall t = some s') : Does s (.call t) s' := by
  unfold St.goCall at h
  split at h
  · cases h
  · next e hc =>
    cases h
    exact .number hc
  · next e hc =>
    cases h
    exact .insert hc
  · next hc =>
    cases h
    split
    · next hn => exact .unbusy hc hn
    · next hn => exact .busy hc hn
  · next hc =>
    cases h
    exact .post hc
  · next e doKick hc =>
    cases h
    exact .cancelled hc

theorem rxAck_does {data : List UInt8} {evq : List Ev} {a : Ack}
    (hh : s.host = .idle) (he : s.evq = .ctlr data :: evq) (ha : ackOf data = some a) :
    Does s .get (St.rxAck a { s with evq := evq }) := by
  unfold St.rxAck
  split
  · next hs => exact .getStale hh he ha hs.1 hs.2
  · next hs =>
    split
    · next ho => exact .getAck hh he ha ho
    · next ho =>
      have h0 : a.opcode = 0 := by
        by_contra h0
        exact hs ⟨h0, ho⟩
      exact .getNop hh he ha h0 fun hz => ho (h0.trans hz.symm)

theorem getEvent_does (hh : s.host = .idle) (h : s.getEvent = some (.at s')) : Does s .get s' := by
  unfold St.getEvent at h
  split at h
  · cases h
  · next evq he =>
    cases h
    exact .getKick hh he
  · next data evq he =>
    split at h
    · next ha =>
      cases h
      exact .getOther hh he ha
    · next a ha =>
      cases h
      exact rxAck_does hh he ha
  · next evq he =>
    unfold St.timerExp at h
    split at h
    · cases h
    · next ho =>
      cases h
      exact .getTimer hh he ho

theorem goHost_does (h : s.goHost = some (.at s')) : Does s .host s' := by
  unfold St.goHost at h
  split at h
  · cases h
  · cases h
  · cases h
  · next hh =>
    split at h
    · next hc =>
      cases h
      exact .next hh hc
    · cases h
  · next hh =>
    split at h
    · next hl =>
      cases h
      exact .takeNone hh hl
    · next e list hl =>
      cases h
      exact .take hh hl
  · next e hh =>
    cases h
    exact .failed hh
  · next a hh =>
    split at h
    · next hn =>
      cases h
      exact .ackNone hh hn
    · next hn =>
      cases h
      exact .ackSome hh hn
  · next a hh =>
    cases h
    exact .ackTake hh
  · next a cb hh =>
    split at h
    · cases h
    · next cb =>
      cases h
      exact .ackCall hh
  · next hh =>
    cases h
    exact .complete hh
  · next e hh =>
    cases h
    exact .completed hh
  · next hh =>
    cases h
    split
    · next hl => exact .checkNone hh hl
    · next hl => exact .checkSome hh hl
  · next hh =>
    cases h
    exact .kick hh

theorem inTx_host (h : s.inTx = true) : ∃ e reg, s.host = .tx e reg := by
  unfold St.inTx at h
  cases hh : s.host with
  | tx e reg => exact ⟨e, reg, rfl⟩
  | _ => simp [hh] at h

theorem ret_does {rc : Int} (h : s.ret rc = some (.at s')) : Does s (.ret rc) s' := by
  unfold St.ret at h
  split at h
  · next e reg hh =>
    split at h
    · next hz =>
      cases h
      subst hz
      exact .retOk hh
    · next hz =>
      cases h
      exact .retFail hh hz
  · next hh =>
    cases h
    exact .retAck hh
  · cases h

theorem setAckCb_does {cb : Option Nat} {arg : Nat} (hx : s.inTx = true)
    (h : { s with host := s.host.register cb }.setAckCb cb arg = .at s') :
    Does s (.setAckCb cb arg) s' := by
  obtain ⟨e, reg, hh⟩ := inTx_host hx
  unfold St.setAckCb at h
  split at h
  · next ha =>
    cases h
    rw [hh]
    exact .setAckCb hh ha
  · cases h

theorem cmdSend_does {ogf : Ogf} {ocf : UInt8} {sent : Bool}
    (hx : s.inTx = true) (h : s.cmdSend (opcode ogf ocf) sent = .at s') :
    Does s (.send ogf ocf sent) s' := by
  obtain ⟨e, reg, hh⟩ := inTx_host hx
  unfold St.cmdSend at h
  split at h
  · cases h
  · next ho =>
    have ho := not_not.mp ho
    cases sent with
    | true =>
      cases h
      exact .sent hh ho
    | false =>
      simp only [Bool.false_eq_true, if_false, St.setAckCb, or_true, if_true] at h
      cases h
      exact .unsent hh ho

/-- Everything a step can do. -/
theorem step_does {l : Label} (h : step l s = some (.at s')) : Does s l s' := by
  cases l with
  | enqueue t cb =>
    simp only [step] at h
    split at h
    · next hm =>
      cases h
      exact enqueue_does hm
    · cases h
  | cancel t handle =>
    simp only [step] at h
    split at h
    · next hm => exact cancel_does hm (Option.some.inj h)
    · cases h
  | call t =>
    obtain ⟨s1, hg, hs⟩ := Option.map_eq_some_iff.mp h
    cases hs
    exact goCall_does hg
  | get =>
    simp only [step] at h
    split at h
    · next hh => exact getEvent_does hh.1 h
    · cases h
  | host => exact goHost_does h
  | setAckCb cb arg =>
    simp only [step] at h
    split at h
    · next hx => exact setAckCb_does hx (Option.some.inj h)
    · cases h
  | send ogf ocf sent =>
    simp only [step] at h
    split at h
    · next hx => exact cmdSend_does hx (Option.some.inj h)
    · cases h
  | ret rc =>
    simp only [step] at h
    split at h
    · exact ret_does h
    · cases h
  | ctlr data =>
    cases h
    exact .ctlr
  | expire =>
    simp only [step] at h
    split at h
    · next ho =>
      cases h
      exact .expire ho.1
    · cases h

end Inversion

end Larva.Ble.HciSched
