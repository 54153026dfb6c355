import Larva.Lib.STailQ

/-!
# Lists of procedures

The host keeps the GATT and signalling procedures that are under way in a
list (`ble_fsm.c`). A procedure is inserted at the tail, taken out when its
response arrives and put back at the head, moved to a list of its own with
others to be failed or retried, and that list is later put behind the main
one. All of this is done with the links and the address of the end of a
singly linked tail queue, by hand where an element is taken out of the
middle.

The procedures are the entries of a pool of `n`. The links are followed as the
code follows them; a loop that would not end spins.
-/

namespace Larva.Ble.Fsm

open Larva.Crash

/-- The main list of procedures, and lists that a function has on its
stack. -/
inductive ListKey where
  | procs
  | temp (i : Nat)
deriving DecidableEq

/-- The flags of a procedure. -/
structure ProcFlags where
  pending : Bool
  expecting : Bool
  congested : Bool
  noMem : Bool
deriving DecidableEq

/-- `freed` records the procedures that were passed to `free_cb`. -/
structure St (n : Nat) where
  q : STailQ ListKey (Fin n)
  flags : Fin n → ProcFlags
  freed : List (Fin n)

abbrev FsmM (n : Nat) := Prog (St n) Empty

/-- What an extract callback answers. -/
inductive ExtractRc where
  | moveContinue
  | moveStop
  | keepContinue
  | keepStop
  | other
deriving DecidableEq

/-- What a transmit callback answers: 0, `BLE_HS_EAGAIN`, `BLE_HS_EDONE`, or
anything else. -/
inductive KickRc where
  | ok
  | eagain
  | edone
  | other
deriving DecidableEq

/-- An extract callback: an answer, and the procedure's flags, which it may
change. -/
abbrev ExtractFn (n : Nat) := Fin n → ProcFlags → ExtractRc × ProcFlags

section Functions

variable {n : Nat}

def onQueues (f : STailQ ListKey (Fin n) → STailQ ListKey (Fin n)) :
    FsmM n Unit :=
  Prog.modify fun s => { s with q := f s.q }

def setFlags (proc : Fin n) (fl : ProcFlags) : FsmM n Unit :=
  Prog.modify fun s => { s with flags := Function.update s.flags proc fl }

def freeCb (proc : Fin n) : FsmM n Unit :=
  Prog.modify fun s => { s with freed := s.freed ++ [proc] }

def bleFsmProcRemove (srcList : ListKey) (proc : Fin n) (prev : Option (Fin n)) : FsmM n Unit := do
  let s ← Prog.get
  match prev with
  | none => do
      Prog.assert (s.q.first srcList == some proc)
      onQueues (STailQ.removeHead srcList proc)
  | some p => do
      Prog.assert (s.q.next p == some proc)
      onQueues (STailQ.unlinkAfter p proc)

/-- `fsm->procs = *tail_list`. -/
def copyHead (tailList : ListKey) (q : STailQ ListKey (Fin n)) :
    STailQ ListKey (Fin n) :=
  { q with
    first := Function.update q.first .procs (q.first tailList)
    last := Function.update q.last .procs (q.last tailList) }

/-- The list is linked in behind `proc`, the last procedure. -/
def linkBehind (proc : Fin n) (tailList : ListKey)
    (q : STailQ ListKey (Fin n)) : STailQ ListKey (Fin n) :=
  { q.write (.next proc) (q.first tailList) with
    last := Function.update q.last .procs (q.last tailList) }

/-- `ble_fsm_proc_concat`. `STAILQ_LAST` takes the address of the end for one
inside a procedure, which is undefined when it is that of the head. -/
def bleFsmProcConcat (tailList : ListKey) : FsmM n Unit := do
  let s ← Prog.get
  if s.q.first tailList = none then pure ()
  else if s.q.first .procs = none then onQueues (copyHead tailList)
  else match s.q.last .procs with
    | .next proc => onQueues (linkBehind proc tailList)
    | .head _ => Prog.abort

def bleFsmProcSetExpecting (proc : Fin n) : FsmM n Unit := do
  let s ← Prog.get
  Prog.assert (!(s.flags proc).expecting)
  setFlags proc { s.flags proc with pending := false, expecting := true }

def bleFsmProcessRxStatus (proc : Fin n) (status : Nat) : FsmM n Unit :=
  if status ≠ 0 then freeCb proc
  else onQueues (STailQ.insertHead .procs proc)

def bleFsmProcExtractLoop (extractCb : ExtractFn n) :
    Nat → Option (Fin n) → Option (Fin n) → FsmM n (Option (Fin n))
  | 0, _, _ => Prog.spin
  | _ + 1, _, none => pure none
  | fuel + 1, prev, some proc => do
      let s ← Prog.get
      let r := extractCb proc (s.flags proc)
      setFlags proc r.2
      match r.1 with
      | .moveContinue | .moveStop => do
          bleFsmProcRemove .procs proc prev
          pure (some proc)
      | .keepContinue =>
        bleFsmProcExtractLoop extractCb fuel (some proc) (s.q.next proc)
      | .keepStop => pure none
      | .other => Prog.abort

def bleFsmProcExtract (extractCb : ExtractFn n) : FsmM n (Option (Fin n)) := do
  let s ← Prog.get
  bleFsmProcExtractLoop extractCb (n + 1) none (s.q.first .procs)

/-- The loop of `ble_fsm_proc_extract_list`, and the first one of
`ble_fsm_wakeup`: procedures are moved from the main list to the end of
another. The answer is how many. -/
def moveLoop (dstList : ListKey) (extractCb : ExtractFn n) :
    Nat → Option (Fin n) → Option (Fin n) → Nat → FsmM n Nat
  | 0, _, _, _ => Prog.spin
  | _ + 1, _, none, cnt => pure cnt
  | fuel + 1, prev, some proc, cnt => do
      let s ← Prog.get
      let next := s.q.next proc
      let r := extractCb proc (s.flags proc)
      setFlags proc r.2
      match r.1 with
      | .moveContinue => do
          bleFsmProcRemove .procs proc prev
          onQueues (STailQ.insertTail dstList proc)
          moveLoop dstList extractCb fuel prev next (cnt + 1)
      | .moveStop => do
          bleFsmProcRemove .procs proc prev
          onQueues (STailQ.insertTail dstList proc)
          pure (cnt + 1)
      | .keepContinue =>
        moveLoop dstList extractCb fuel (some proc) next cnt
      | .keepStop => pure cnt
      | .other => Prog.abort

def bleFsmProcExtractList (dstList : ListKey) (extractCb : ExtractFn n) : FsmM n Nat := do
  onQueues (STailQ.initAt dstList)
  let s ← Prog.get
  moveLoop dstList extractCb (n + 1) none (s.q.first .procs) 0

/-- The procedures with a pending transmit are to be moved. -/
def pendingCb : ExtractFn n := fun _ fl =>
  (if fl.pending then .moveContinue else .keepContinue, fl)

/-- The second loop of `ble_fsm_wakeup`. -/
def kickLoop (procList : ListKey) (kickCb : Fin n → KickRc) :
    Nat → Option (Fin n) → Option (Fin n) → FsmM n Unit
  | 0, _, _ => Prog.spin
  | _ + 1, _, none => pure ()
  | fuel + 1, prev, some proc => do
      let s ← Prog.get
      let next := s.q.next proc
      match kickCb proc with
      | .ok => do
          bleFsmProcSetExpecting proc
          kickLoop procList kickCb fuel (some proc) next
      | .eagain => do
          setFlags proc { s.flags proc with pending := false }
          kickLoop procList kickCb fuel (some proc) next
      | .edone => do
          bleFsmProcRemove procList proc prev
          freeCb proc
          kickLoop procList kickCb fuel prev next
      | .other => Prog.abort

/-- What `ble_fsm_wakeup` does under the lock, before it transmits. -/
def takePending (procList : ListKey) : FsmM n Unit := do
  let _ ← bleFsmProcExtractList procList pendingCb
  pure ()

/-- What it does without the lock. -/
def kickPending (procList : ListKey) (kickCb : Fin n → KickRc) : FsmM n Unit := do
  let s ← Prog.get
  kickLoop procList kickCb (n + 1) none (s.q.first procList)

def bleFsmWakeup (procList : ListKey) (kickCb : Fin n → KickRc) : FsmM n Unit := do
  takePending procList
  kickPending procList kickCb
  bleFsmProcConcat procList

end Functions

end Larva.Ble.Fsm
