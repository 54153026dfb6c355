import Larva.Ble.Groups

/-!
# The GATT client: the code

A GATT procedure (`ble_gattc.c`) is a request, or a sequence of them, that the
application has started on a connection. It is in a list with all others; its
operation says which member of a union holds its state. It transmits when it is
kicked and then waits for the response. What the peer sends comes in through
`ble_att_clt.c`, which takes a response apart and passes the parts on; each
part is given to a procedure that is taken out of the list for it and put back
in front unless it has come to an end.

A procedure whose union is read as the member of another operation has no
outcome here: the functions for one operation answer `none` to the state of
another.
-/

namespace Larva.Ble.Gattc

open Larva.Bytes
open Larva.Ble.Groups (Service uuid16To128 declUuid uuidPrimaryService
  attErrAttrNotFound)

/-! ## Procedures -/

def einval : Nat := 3

def emsgsize : Nat := 4

def enomem : Nat := 6

def enotconn : Nat := 7

def ebaddata : Nat := 10

def econgested : Nat := 12

/-- `BLE_HS_ERR_ATT_BASE`. -/
def errAttBase : Nat := 0x100

/-- The responses of the attribute protocol. -/
inductive Kind where
  | mtu
  | findInfo
  | findTypeValue
  | readType
  | read
  | readBlob
  | readMult
  | readGroupType
  | write
  | prepWrite
  | execWrite
  | indicate
deriving DecidableEq

/-- `BLE_GATT_OP_*`. -/
inductive Op where
  | mtu
  | discAllSvcs
  | discSvcUuid
  | findIncSvcs
  | discAllChrs
  | discChrsUuid
  | discAllDscs
  | read
  | readUuid
  | readLong
  | readMult
  | writeNoRsp
  | write
  | writeLong
  | writeReliable
  | notify
  | indicate
deriving DecidableEq

/-- The responses to the requests that a procedure makes. -/
def Op.answers : Op → List Kind
  | .mtu => [.mtu]
  | .discAllSvcs => [.readGroupType]
  | .discSvcUuid => [.findTypeValue]
  | .findIncSvcs => [.readType, .read]
  | .discAllChrs => [.readType]
  | .discChrsUuid => [.readType]
  | .discAllDscs => [.findInfo]
  | .read => [.read]
  | .readUuid => [.readType]
  | .readLong => [.read, .readBlob]
  | .readMult => [.readMult]
  | .writeNoRsp => []
  | .write => [.write]
  | .writeLong => [.prepWrite, .execWrite]
  | .writeReliable => [.prepWrite, .execWrite]
  | .notify => []
  | .indicate => [.indicate]

/-- `struct ble_gatt_attr`. -/
structure Attr where
  handle : Nat
  offset : Nat
  value : List UInt8
deriving DecidableEq

/-- The union in `struct ble_gattc_proc`, without the callbacks. -/
inductive Var where
  | mtu
  | discAllSvcs (prevHandle : Nat)
  | discSvcUuid (serviceUuid : List UInt8) (prevHandle : Nat)
  | findIncSvcs (prevHandle endHandle curStart curEnd : Nat)
  | discAllChrs (prevHandle endHandle : Nat)
  | discChrUuid (chrUuid : List UInt8) (prevHandle endHandle : Nat)
  | discAllDscs (chrDefHandle prevHandle endHandle : Nat)
  | read (handle : Nat)
  | readUuid (prevHandle endHandle : Nat) (uuid128 : List UInt8)
  | readLong (handle offset : Nat)
  | readMult (handles : List Nat)
  | writeNoRsp (attr : Attr)
  | write (attr : Attr)
  | writeLong (attr : Attr) (length : Nat)
  | writeReliable (attrs : List Attr) (curAttr : Nat)
  | notify (attr : Attr)
  | indicate (attr : Attr)
deriving DecidableEq

def Var.op : Var → Op
  | .mtu => .mtu
  | .discAllSvcs _ => .discAllSvcs
  | .discSvcUuid _ _ => .discSvcUuid
  | .findIncSvcs _ _ _ _ => .findIncSvcs
  | .discAllChrs _ _ => .discAllChrs
  | .discChrUuid _ _ _ => .discChrsUuid
  | .discAllDscs _ _ _ => .discAllDscs
  | .read _ => .read
  | .readUuid _ _ _ => .readUuid
  | .readLong _ _ => .readLong
  | .readMult _ => .readMult
  | .writeNoRsp _ => .writeNoRsp
  | .write _ => .write
  | .writeLong _ _ => .writeLong
  | .writeReliable _ _ => .writeReliable
  | .notify _ => .notify
  | .indicate _ => .indicate

/-- The flag that is set, which is one at a time. A procedure that expects a
response has a request out; `sent` records what that is answered with. -/
inductive Phase where
  | pending
  | expecting (sent : Kind)
  | congested
  | noMem
deriving DecidableEq

/-- A procedure. Its request, if it has one out, is one that its operation
makes. -/
structure Proc where
  conn : Nat
  /-- There is a callback. -/
  cb : Bool
  var : Var
  phase : Phase
  fits : ∀ k, phase = .expecting k → k ∈ var.op.answers

/-- `BLE_FSM_PROC_F_EXPECTING`. -/
def Phase.isExpecting : Phase → Bool
  | .expecting _ => true
  | _ => false

/-- The procedure after `ble_gattc_proc_set_pending`. -/
def Proc.pend (p : Proc) (v : Var) : Proc :=
  ⟨p.conn, p.cb, v, .pending, fun _ h => by cases h⟩

/-- The procedure with some of its state changed. -/
def Proc.setVar (p : Proc) (v : Var) (h : v.op = p.var.op) : Proc :=
  ⟨p.conn, p.cb, v, p.phase, by rw [h]; exact p.fits⟩

/-! ## What the application is told -/

/-- The last argument of a callback. `garbage` is a variable that was not
written. -/
inductive Obj where
  | null
  | garbage
  | service (s : Service)
  | chr (declHandle valueHandle properties : Nat) (uuid : List UInt8)
  | dsc (handle : Nat) (uuid : List UInt8)
  | attr (handle offset : Nat) (value : List UInt8)
  | values (value : List UInt8)
  | mtu (chanMtu : Nat)
deriving DecidableEq

structure Report where
  status : Nat
  attHandle : Nat
  obj : Obj
deriving DecidableEq

/-- What the application returns from its callback. -/
abbrev App := Report → Nat

/-- What a receive function leaves: the procedure, what was told to the
application with its answers, and the result. -/
structure Out where
  proc : Proc
  told : List (Report × Nat)
  rc : Nat

/-- The functions `ble_gattc_*_cb`. -/
def Proc.tell (p : Proc) (app : App) (r : Report) : List (Report × Nat) × Nat :=
  if p.cb then ([(r, app r)], app r) else ([], 0)

/-- The application is told, and the procedure is over. -/
def Proc.finish (p : Proc) (app : App) (r : Report) : Out :=
  ⟨p, (p.tell app r).1, 1⟩

/-- The application is told of an entry; unless that had an error, its answer
is the result. -/
def Proc.report (p : Proc) (app : App) (rc : Nat) (obj : Obj) : Out :=
  let cb := p.tell app ⟨rc, 0, obj⟩
  ⟨p, cb.1, if rc = 0 then cb.2 else rc⟩

/-- The end of a response that is a list: the procedure is over, or it makes
its next request. -/
def Proc.rxComplete (p : Proc) (app : App) (status prevHandle last : Nat) :
    Out :=
  if status ≠ 0 ∨ prevHandle = last then p.finish app ⟨status, 0, .null⟩
  else ⟨p.pend p.var, [], 0⟩

/-! ## The receive functions of the procedures -/

section Receive

variable (app : App)

def mtuRxRsp (status chanMtu : Nat) (p : Proc) : Option Out :=
  match p.var with
  | .mtu => some (p.finish app ⟨status, 0, .mtu chanMtu⟩)
  | _ => none

/-- A service UUID in an entry of a Read By Group Type response. -/
def svcUuid (value : List UInt8) : Except Nat (List UInt8) :=
  if value.length = 2 then
    match uuid16To128 (ofLe16 value) with
    | none => .error einval
    | some uuid => .ok uuid
  else if value.length = 16 then .ok value
  else .error emsgsize

def discAllSvcsRxAdata (attHandle endGroupHandle : Nat) (value : List UInt8)
    (p : Proc) : Option Out :=
  match h : p.var with
  | .discAllSvcs prevHandle =>
    match svcUuid value with
    | .error rc => some (p.report app rc .garbage)
    | .ok uuid =>
      if endGroupHandle ≤ prevHandle then
        some (p.report app ebaddata .garbage)
      else
        some ((p.setVar (.discAllSvcs endGroupHandle) (by rw [h]; rfl)).report
          app 0 (.service ⟨attHandle, endGroupHandle, uuid⟩))
  | _ => none

def discAllSvcsRxComplete (status : Nat) (p : Proc) : Option Out :=
  match p.var with
  | .discAllSvcs prevHandle => some (p.rxComplete app status prevHandle 0xffff)
  | _ => none

/-- Here the test of the result at the end is the other way round: an error is
replaced by the answer of the application, and for an entry without an error
the answer is dropped. -/
def discSvcUuidRxHinfo (attrHandle groupEndHandle : Nat) (p : Proc) :
    Option Out :=
  match h : p.var with
  | .discSvcUuid serviceUuid prevHandle =>
    if groupEndHandle ≤ prevHandle then
      let cb := p.tell app ⟨ebaddata, 0, .garbage⟩
      some ⟨p, cb.1, cb.2⟩
    else
      let p := p.setVar (.discSvcUuid serviceUuid groupEndHandle) (by rw [h]; rfl)
      let cb := p.tell app ⟨0, 0, .service ⟨attrHandle, groupEndHandle, serviceUuid⟩⟩
      some ⟨p, cb.1, 0⟩
  | _ => none

def discSvcUuidRxComplete (status : Nat) (p : Proc) : Option Out :=
  match p.var with
  | .discSvcUuid _ prevHandle => some (p.rxComplete app status prevHandle 0xffff)
  | _ => none

def findIncSvcsRxReadRsp (status : Nat) (value : List UInt8) (p : Proc) :
    Option Out :=
  match p.var with
  | .findIncSvcs prevHandle endHandle curStart curEnd =>
    if curStart = 0 then some (p.report app ebaddata .garbage)
    else if status ≠ 0 then some (p.report app status .garbage)
    else if value.length ≠ 16 then some (p.report app ebaddata .garbage)
    else some ((p.pend (.findIncSvcs prevHandle endHandle 0 0)).report app 0
      (.service ⟨curStart, curEnd, value⟩))
  | _ => none

/-- The application is not told of an error: the status is 0. The test of the
result is the other way round here too. -/
def findIncSvcsRxAdata (attHandle : Nat) (value : List UInt8) (p : Proc) :
    Option Out :=
  match h : p.var with
  | .findIncSvcs prevHandle endHandle curStart curEnd =>
    if curStart ≠ 0 then some ⟨p, [], 0⟩
    else if attHandle ≤ prevHandle then
      let cb := p.tell app ⟨0, 0, .garbage⟩
      some ⟨p, cb.1, cb.2⟩
    else if value.length = 4 then
      some ⟨p.setVar (.findIncSvcs attHandle endHandle (ofLe16 value)
        (ofLe16 (value.drop 2))) (by rw [h]; rfl), [], 0⟩
    else
      let p := p.setVar (.findIncSvcs attHandle endHandle curStart curEnd) (by rw [h]; rfl)
      if value.length = 6 then
        match uuid16To128 (ofLe16 (value.drop 4)) with
        | none =>
          let cb := p.tell app ⟨0, 0, .garbage⟩
          some ⟨p, cb.1, cb.2⟩
        | some uuid =>
          let cb := p.tell app ⟨0, 0, .service ⟨ofLe16 value, ofLe16 (value.drop 2), uuid⟩⟩
          some ⟨p, cb.1, 0⟩
      else some ⟨p, [], ebaddata⟩
  | _ => none

def findIncSvcsRxComplete (status : Nat) (p : Proc) : Option Out :=
  match p.var with
  | .findIncSvcs prevHandle _ _ _ =>
    some (p.rxComplete app status prevHandle 0xffff)
  | _ => none

/-- A characteristic declaration: its properties, value handle and UUID. -/
def chrDecl (value : List UInt8) : Except Nat (Nat × Nat × List UInt8) :=
  let uuid : Option (List UInt8) :=
    if value.length = 5 then uuid16To128 (ofLe16 (value.drop 3))
    else if value.length = 19 then some (value.drop 3)
    else none
  match uuid with
  | none => .error ebaddata
  | some uuid => .ok ((value.getD 0 0).toNat, ofLe16 (value.drop 1), uuid)

def discAllChrsRxAdata (attHandle : Nat) (value : List UInt8) (p : Proc) :
    Option Out :=
  match h : p.var with
  | .discAllChrs prevHandle endHandle =>
    match chrDecl value with
    | .error rc => some (p.report app rc (.chr attHandle 0 0 (List.replicate 16 0)))
    | .ok (properties, valueHandle, uuid) =>
      let chr := .chr attHandle valueHandle properties uuid
      if attHandle ≤ prevHandle then some (p.report app ebaddata chr)
      else some ((p.setVar (.discAllChrs attHandle endHandle) (by rw [h]; rfl)).report app 0 chr)
  | _ => none

def discAllChrsRxComplete (status : Nat) (p : Proc) : Option Out :=
  match p.var with
  | .discAllChrs prevHandle endHandle =>
    some (p.rxComplete app status prevHandle endHandle)
  | _ => none

/-- The application is told of the characteristics with the UUID only. -/
def discChrUuidRxAdata (attHandle : Nat) (value : List UInt8) (p : Proc) :
    Option Out :=
  match h : p.var with
  | .discChrUuid chrUuid prevHandle endHandle =>
    match chrDecl value with
    | .error rc => some (p.report app rc (.chr attHandle 0 0 (List.replicate 16 0)))
    | .ok (properties, valueHandle, uuid) =>
      let chr := .chr attHandle valueHandle properties uuid
      if attHandle ≤ prevHandle then some (p.report app ebaddata chr)
      else
        let p := p.setVar (.discChrUuid chrUuid attHandle endHandle) (by rw [h]; rfl)
        if uuid = chrUuid then some (p.report app 0 chr)
        else some ⟨p, [], 0⟩
  | _ => none

def discChrUuidRxComplete (status : Nat) (p : Proc) : Option Out :=
  match p.var with
  | .discChrUuid _ prevHandle endHandle =>
    some (p.rxComplete app status prevHandle endHandle)
  | _ => none

def discAllDscsRxIdata (attrHandle : Nat) (uuid128 : List UInt8) (p : Proc) :
    Option Out :=
  match h : p.var with
  | .discAllDscs chrDefHandle prevHandle endHandle =>
    let dsc := .dsc attrHandle uuid128
    if attrHandle ≤ prevHandle then some (p.report app ebaddata dsc)
    else some ((p.setVar (.discAllDscs chrDefHandle attrHandle endHandle)
      (by rw [h]; rfl)).report app 0 dsc)
  | _ => none

def discAllDscsRxComplete (status : Nat) (p : Proc) : Option Out :=
  match p.var with
  | .discAllDscs _ prevHandle endHandle =>
    some (p.rxComplete app status prevHandle endHandle)
  | _ => none

def readRxReadRsp (status : Nat) (value : List UInt8) (p : Proc) : Option Out :=
  match p.var with
  | .read handle => some (p.finish app ⟨status, 0, .attr handle 0 value⟩)
  | _ => none

/-- The handle is taken over as it comes. -/
def readUuidRxAdata (attHandle : Nat) (value : List UInt8) (p : Proc) :
    Option Out :=
  match h : p.var with
  | .readUuid _ endHandle uuid128 =>
    let cb := p.tell app ⟨0, 0, .attr attHandle 0 value⟩
    if cb.2 ≠ 0 then some ⟨p, cb.1, cb.2⟩
    else some ⟨p.setVar (.readUuid attHandle endHandle uuid128) (by rw [h]; rfl), cb.1, 0⟩
  | _ => none

def readUuidRxComplete (status : Nat) (p : Proc) : Option Out :=
  match p.var with
  | .readUuid prevHandle endHandle _ =>
    some (p.rxComplete app status prevHandle endHandle)
  | _ => none

/-- `link` is the MTU of the connection if it is found. -/
def readLongRxReadRsp (link : Option Nat) (status : Nat) (value : List UInt8)
    (p : Proc) : Option Out :=
  match p.var with
  | .readLong handle offset =>
    let cb := p.tell app ⟨status, 0, .attr handle offset value⟩
    if cb.2 ≠ 0 ∨ status ≠ 0 then some ⟨p, cb.1, 1⟩
    else
      match link with
      | none => some ⟨p, cb.1, 1⟩
      | some mtu =>
        if value.length + 1 < mtu then
          some ⟨p, cb.1 ++ (p.tell app ⟨0, 0, .null⟩).1, 1⟩
        else some ⟨p.pend (.readLong handle ((offset + value.length) % 2 ^ 16)), cb.1, 0⟩
  | _ => none

def readMultRxReadMultRsp (status : Nat) (value : List UInt8) (p : Proc) :
    Option Out :=
  match p.var with
  | .readMult _ => some (p.finish app ⟨status, 0, .values value⟩)
  | _ => none

def Attr.obj (attr : Attr) : Obj := .attr attr.handle attr.offset attr.value

def writeRxRsp (p : Proc) : Option Out :=
  match p.var with
  | .write attr => some (p.finish app ⟨0, 0, attr.obj⟩)
  | _ => none

/-- A Prepare Write response: the handle, the offset and the value. -/
structure PrepRsp where
  handle : Nat
  offset : Nat
  value : List UInt8
deriving DecidableEq

def writeLongRxPrep (status : Nat) (rsp : PrepRsp) (p : Proc) : Option Out :=
  match p.var with
  | .writeLong attr length =>
    let rc :=
      if status ≠ 0 then status
      else if rsp.handle ≠ attr.handle ∨ rsp.offset ≠ attr.offset ∨
          rsp.offset + rsp.value.length > attr.value.length ∨ rsp.value.length ≠ length ∨
          rsp.value ≠ slice attr.value rsp.offset rsp.value.length then
        ebaddata
      else 0
    if rc ≠ 0 then some (p.finish app ⟨rc, 0, attr.obj⟩)
    else some ⟨p.pend (.writeLong { attr with
      offset := (attr.offset + rsp.value.length) % 2 ^ 16 } length), [], 0⟩
  | _ => none

def writeLongRxExec (status : Nat) (p : Proc) : Option Out :=
  match p.var with
  | .writeLong attr _ => some (p.finish app ⟨status, 0, attr.obj⟩)
  | _ => none

def writeReliableRxPrep (status : Nat) (rsp : PrepRsp) (p : Proc) :
    Option Out :=
  match p.var with
  | .writeReliable attrs curAttr =>
    let rc :=
      if status ≠ 0 then status
      else
        match attrs[curAttr]? with
        | none => ebaddata
        | some attr =>
          if rsp.handle ≠ attr.handle ∨ rsp.offset ≠ 0 ∨ rsp.value ≠ attr.value then ebaddata
          else 0
    if rc ≠ 0 then some (p.finish app ⟨rc, 0, .null⟩)
    else some ⟨p.pend (.writeReliable attrs (curAttr + 1)), [], 0⟩
  | _ => none

def writeReliableRxExec (status : Nat) (p : Proc) : Option Out :=
  match p.var with
  | .writeReliable _ _ => some (p.finish app ⟨status, 0, .null⟩)
  | _ => none

def indicateRxRsp (p : Proc) : Option Out :=
  match p.var with
  | .indicate attr => some (p.finish app ⟨0, 0, attr.obj⟩)
  | _ => none

/-- The functions `ble_gattc_*_err`, through `ble_gattc_dispatch`. For the
discovery procedures and for a read by UUID, that there is no such attribute
says that all were found. Two operations have no such function. -/
def errCb (status attHandle : Nat) (p : Proc) : List (Report × Nat) :=
  let found := if status = errAttBase + attErrAttrNotFound then 0 else status
  match p.var with
  | .discAllSvcs _ | .discSvcUuid _ _ | .discAllChrs _ _ | .discChrUuid _ _ _
  | .discAllDscs _ _ _ | .readUuid _ _ _ =>
    (p.tell app ⟨found, attHandle, .null⟩).1
  | .findIncSvcs _ _ curStart _ =>
    (p.tell app ⟨if curStart = 0 then found else status, attHandle, .null⟩).1
  | .mtu => (p.tell app ⟨status, attHandle, .mtu 0⟩).1
  | .write attr | .writeLong attr _ | .indicate attr =>
    (p.tell app ⟨status, attHandle, attr.obj⟩).1
  | .read _ | .readLong _ _ | .readMult _ | .writeReliable _ _ =>
    (p.tell app ⟨status, attHandle, .null⟩).1
  | .writeNoRsp _ | .notify _ => []

end Receive

/-! ## Dispatch -/

/-- What the ATT client passes on. -/
inductive Rx where
  | err (attHandle errorCode : Nat)
  | mtu (status chanMtu : Nat)
  | findInfoIdata (attrHandle : Nat) (uuid128 : List UInt8)
  | findInfoComplete (status : Nat)
  | findTypeValueHinfo (attrHandle groupEndHandle : Nat)
  | findTypeValueComplete (status : Nat)
  | readTypeAdata (attHandle : Nat) (value : List UInt8)
  | readTypeComplete (status : Nat)
  | readGroupTypeAdata (attHandle endGroupHandle : Nat) (value : List UInt8)
  | readGroupTypeComplete (status : Nat)
  | readRsp (status : Nat) (value : List UInt8)
  | readBlobRsp (status : Nat) (value : List UInt8)
  | readMultRsp (status : Nat) (value : List UInt8)
  | writeRsp
  | prepWriteRsp (status : Nat) (rsp : PrepRsp)
  | execWriteRsp (status : Nat)
  | indicateRsp

/-- A failed assert, and a union read as another operation's member. -/
inductive Fault where
  | assert
  | variant
deriving DecidableEq

/-- A receive function for one operation. -/
structure RxEntry where
  op : Op
  cb : Proc → Option Out

def rxEntryFind (op : Op) : List RxEntry → Option RxEntry
  | [] => none
  | entry :: l => if entry.op = op then some entry else rxEntryFind op l

def procMatches (p : Proc) (conn : Nat) (op : Option Op) (expectingOnly : Bool) :
    Bool :=
  if conn ≠ p.conn then false
  else if op ≠ some p.var.op ∧ op ≠ none then false
  else if expectingOnly && !p.phase.isExpecting then false
  else true

/-- A procedure that was taken out, with the entry that was found for it and
the procedures that are left. -/
structure Taken where
  proc : Proc
  entry : Option RxEntry
  rest : List Proc

/-- What `ble_gattc_rx_extract_cb` does with a procedure that matches: it
looks for the entry if there are entries, and asserts that there is one. -/
def rxExtractCb (rxEntries : Option (List RxEntry)) (p : Proc) :
    Except Fault (Option RxEntry) :=
  match rxEntries with
  | none => .ok none
  | some entries =>
    match rxEntryFind p.var.op entries with
    | none => .error .assert
    | some entry => .ok (some entry)

/-- The loop of `ble_fsm_proc_extract`. -/
def rxExtractLoop (conn : Nat) (op : Option Op) (rxEntries : Option (List RxEntry)) :
    List Proc → List Proc → Except Fault (Option Taken)
  | _, [] => .ok none
  | seen, p :: l =>
    if procMatches p conn op true then
      (rxExtractCb rxEntries p).map fun entry => some ⟨p, entry, seen ++ l⟩
    else rxExtractLoop conn op rxEntries (seen ++ [p]) l

/-- `ble_gattc_rx_extract_gen`: its second argument is not used. -/
def rxExtractGen (conn : Nat) (_op : Option Op)
    (rxEntries : Option (List RxEntry)) (procs : List Proc) :
    Except Fault (Option Taken) :=
  rxExtractLoop conn none rxEntries [] procs

/-- The list after a dispatch, the procedure that was given the response, and
what the application was told. -/
structure Result where
  procs : List Proc
  given : Option Proc
  told : List (Report × Nat)

/-- A procedure that was taken out is given to its function, and then
`ble_fsm_process_rx_status` is called. -/
def give (f : Proc → Option Out) (t : Taken) : Except Fault Result :=
  match f t.proc with
  | none => .error .variant
  | some out =>
    .ok ⟨if out.rc ≠ 0 then t.rest else out.proc :: t.rest, some t.proc, out.told⟩

/-- `ble_gattc_rx_extract` and what follows. -/
def giveOp (conn : Nat) (op : Op) (f : Proc → Option Out)
    (procs : List Proc) : Except Fault Result :=
  match rxExtractGen conn (some op) none procs with
  | .error e => .error e
  | .ok none => .ok ⟨procs, none, []⟩
  | .ok (some t) => give f t

/-- `BLE_GATTC_RX_EXTRACT_RX_ENTRY` and what follows. -/
def giveEntry (conn : Nat) (entries : List RxEntry) (procs : List Proc) :
    Except Fault Result :=
  match rxExtractGen conn none (some entries) procs with
  | .error e => .error e
  | .ok none => .ok ⟨procs, none, []⟩
  | .ok (some t) =>
    match t.entry with
    | none => .error .assert
    | some entry => give entry.cb t

/-- `ble_gattc_rx_err`. -/
def rxErr (app : App) (conn attHandle errorCode : Nat) (procs : List Proc) :
    Except Fault Result :=
  match rxExtractGen conn none none procs with
  | .error e => .error e
  | .ok none => .ok ⟨procs, none, []⟩
  | .ok (some t) =>
    .ok ⟨t.rest, some t.proc, errCb app (errAttBase + errorCode) attHandle t.proc⟩

/-- The functions `ble_gattc_rx_*`. -/
def rx (app : App) (link : Option Nat) (conn : Nat) (r : Rx)
    (procs : List Proc) : Except Fault Result :=
  match r with
  | .err attHandle errorCode => rxErr app conn attHandle errorCode procs
  | .mtu status chanMtu =>
    giveOp conn .mtu (mtuRxRsp app status chanMtu) procs
  | .findInfoIdata attrHandle uuid128 =>
    giveOp conn .discAllDscs (discAllDscsRxIdata app attrHandle uuid128) procs
  | .findInfoComplete status =>
    giveOp conn .discAllDscs (discAllDscsRxComplete app status) procs
  | .findTypeValueHinfo attrHandle groupEndHandle =>
    giveOp conn .discSvcUuid (discSvcUuidRxHinfo app attrHandle groupEndHandle) procs
  | .findTypeValueComplete status =>
    giveOp conn .discSvcUuid (discSvcUuidRxComplete app status) procs
  | .readTypeAdata attHandle value =>
    giveEntry conn [⟨.findIncSvcs, findIncSvcsRxAdata app attHandle value⟩,
        ⟨.discAllChrs, discAllChrsRxAdata app attHandle value⟩,
        ⟨.discChrsUuid, discChrUuidRxAdata app attHandle value⟩,
        ⟨.readUuid, readUuidRxAdata app attHandle value⟩] procs
  | .readTypeComplete status =>
    giveEntry conn [⟨.findIncSvcs, findIncSvcsRxComplete app status⟩,
        ⟨.discAllChrs, discAllChrsRxComplete app status⟩,
        ⟨.discChrsUuid, discChrUuidRxComplete app status⟩,
        ⟨.readUuid, readUuidRxComplete app status⟩] procs
  | .readGroupTypeAdata attHandle endGroupHandle value =>
    giveOp conn .discAllSvcs (discAllSvcsRxAdata app attHandle endGroupHandle value) procs
  | .readGroupTypeComplete status =>
    giveOp conn .discAllSvcs (discAllSvcsRxComplete app status) procs
  | .readRsp status value =>
    giveEntry conn [⟨.read, readRxReadRsp app status value⟩,
        ⟨.readLong, readLongRxReadRsp app link status value⟩,
        ⟨.findIncSvcs, findIncSvcsRxReadRsp app status value⟩] procs
  | .readBlobRsp status value =>
    giveOp conn .readLong (readLongRxReadRsp app link status value) procs
  | .readMultRsp status value =>
    giveOp conn .readMult (readMultRxReadMultRsp app status value) procs
  | .writeRsp => giveOp conn .write (writeRxRsp app) procs
  | .prepWriteRsp status rsp =>
    giveEntry conn [⟨.writeLong, writeLongRxPrep app status rsp⟩,
        ⟨.writeReliable, writeReliableRxPrep app status rsp⟩] procs
  | .execWriteRsp status =>
    giveEntry conn [⟨.writeLong, writeLongRxExec app status⟩,
        ⟨.writeReliable, writeReliableRxExec app status⟩] procs
  | .indicateRsp => giveOp conn .indicate (indicateRxRsp app) procs

end Larva.Ble.Gattc
