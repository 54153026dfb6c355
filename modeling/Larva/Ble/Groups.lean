import Larva.Lib.Bytes

/-!
# Discovery of primary services: the code

A client finds the services of a peer with Read By Group Type requests. The
server goes through its attributes (`ble_att_svr_build_read_group_type_rsp`)
and answers with one entry for each group it finds, as many as fit and as long
as their UUIDs have one length; an entry is written when the group's end is
seen, which is at the next declaration of a service or at the end of the
table. The client (`ble_gattc_disc_all_svcs_*`) goes on behind the last end
handle it was told.

Both sides are here, with the PDU between them, and the registration of
services that makes the table.
-/

namespace Larva.Ble.Groups

open Larva.Bytes

/-! ## UUIDs -/

/-- `ble_uuid_base`. -/
def uuidBase : List UInt8 :=
  [0xfb, 0x34, 0x9b, 0x5f, 0x80, 0x00, 0x00, 0x80, 0x00, 0x10, 0x00, 0x00, 0x00, 0x00, 0x00, 0x00]

abbrev Uuid := { b : List UInt8 // b.length = 16 }

/-- `ble_uuid_128_to_16`. -/
def uuid128To16 (u : List UInt8) : Nat :=
  if u.take 12 ≠ uuidBase.take 12 then 0
  else if u.getD 14 0 ≠ 0 ∨ u.getD 15 0 ≠ 0 then 0
  else ofLe16 (u.drop 12)

/-- `ble_uuid_16_to_128`. -/
def uuid16To128 (n : Nat) : Option (List UInt8) :=
  if n = 0 then none
  else some (uuidBase.take 12 ++ le16 n ++ uuidBase.drop 14)

def uuidPrimaryService : Nat := 0x2800

def uuidSecondaryService : Nat := 0x2801

/-- The UUID of a declaration, as an attribute has it. -/
def declUuid (uuid16 : Nat) : List UInt8 :=
  uuidBase.take 12 ++ le16 uuid16 ++ uuidBase.drop 14

/-- `ble_att_svr_is_valid_group_type`. -/
def isValidGroupType (u : List UInt8) : Bool :=
  uuid128To16 u = uuidPrimaryService || uuid128To16 u = uuidSecondaryService

/-! ## The table -/

/-- An attribute, with what its access function gives to read, if anything. -/
structure Attr where
  handleId : Nat
  uuid : List UInt8
  data : Option (List UInt8)

/-- A service that is registered: a declaration, and the UUIDs of the
attributes behind it (includes, characteristics and descriptors), none of which
is a declaration. -/
structure SvcDef where
  primary : Bool
  uuid : Uuid
  attrs : List { u : List UInt8 // isValidGroupType u = false }

/-- What `ble_gatts_svc_access` gives to read. -/
def svcAccess (uuid : List UInt8) : List UInt8 :=
  if uuid128To16 uuid ≠ 0 then le16 (uuid128To16 uuid) else uuid

/-- The table and the last handle given out. -/
structure Table where
  attrs : List Attr
  id : Nat

/-- `ble_att_svr_register`; it asserts that there is one more handle. -/
def register (uuid : List UInt8) (data : Option (List UInt8)) (t : Table) :
    Option Table :=
  if t.id = 0xffff then none
  else some ⟨t.attrs ++ [⟨t.id + 1, uuid, data⟩], t.id + 1⟩

def registerAttrs : List { u : List UInt8 // isValidGroupType u = false } → Table → Option Table
  | [], t => some t
  | u :: l, t => (register u.val none t).bind (registerAttrs l)

/-- `ble_gatts_register_svc`. -/
def registerSvc (svc : SvcDef) (t : Table) : Option Table :=
  (register (declUuid (if svc.primary then uuidPrimaryService
    else uuidSecondaryService)) (some (svcAccess svc.uuid.val)) t).bind (registerAttrs svc.attrs)

def registerSvcs : List SvcDef → Table → Option Table
  | [], t => some t
  | svc :: l, t => (registerSvc svc t).bind (registerSvcs l)

/-! ## The server -/

def attErrInvalidHandle : Nat := 0x01

def attErrAttrNotFound : Nat := 0x0a

def attErrUnlikely : Nat := 0x0e

def attErrUnsupportedGroup : Nat := 0x10

def attErrInsufficientRes : Nat := 0x11

/-- `BLE_ATT_READ_GROUP_TYPE_RSP_BASE_SZ`. -/
def rspBaseSz : Nat := 2

/-- `BLE_ATT_READ_GROUP_TYPE_ADATA_SZ_16`. -/
def adataSz16 : Nat := 6

/-- `BLE_ATT_READ_GROUP_TYPE_ADATA_SZ_128`. -/
def adataSz128 : Nat := 20

inductive Rc where
  | ok
  | emsgsize
  | enomem
  | enotsup
  | assert
deriving DecidableEq

/-- The variables of the loop: the response so far, the group whose end is not
seen yet, and the length of an entry. -/
structure Acc where
  txom : List UInt8
  startGroup : Nat
  endGroup : Nat
  uuid16 : Nat
  uuid128 : List UInt8
  length : Nat

/-- How the loop was left. `atEnd` says that all attributes were seen. -/
structure Stop where
  rc : Rc
  atEnd : Bool
  acc : Acc
  attErr : Nat
  errHandle : Nat

/-- The request and what it is answered with: the MTU, and whether the pool has
an mbuf when a response of some length is to be extended. -/
structure Ctx where
  mtu : Nat
  mem : Nat → Bool
  start : Nat
  stop : Nat
  group : List UInt8

/-- `ble_att_svr_service_uuid`. -/
def serviceUuid (e : Attr) (uuid128 : List UInt8) :
    Option (Nat × List UInt8) :=
  match e.data with
  | none => none
  | some d =>
    if d.length = 16 then some (0, d)
    else if d.length = 2 then
      if ofLe16 d = 0 then none else some (ofLe16 d, uuid128)
    else none

/-- `ble_att_svr_read_group_type_entry_write`, for the group of `acc`. -/
def entryWrite (c : Ctx) (acc : Acc) (endGroup : Nat) :
    Except Rc (List UInt8) :=
  let len := if acc.uuid16 ≠ 0 then adataSz16 else adataSz128
  if acc.txom.length + len > c.mtu then .error .emsgsize
  else if c.mem acc.txom.length = false then .error .enomem
  else .ok (acc.txom ++ (le16 acc.startGroup ++ le16 endGroup ++
    if acc.uuid16 ≠ 0 then le16 acc.uuid16 else acc.uuid128))

/-- The first part of the loop's body, for a group that was started. -/
def closeGroup (c : Ctx) (e : Attr) (acc : Acc) : Except Stop Acc :=
  if acc.startGroup = 0 then .ok acc
  else if isValidGroupType e.uuid = false then
    .ok { acc with endGroup := e.handleId }
  else
    match entryWrite c acc acc.endGroup with
    | .ok txom =>
      .ok { acc with txom := txom, startGroup := 0, endGroup := 0 }
    | .error rc =>
      .error {
        rc := rc
        atEnd := false
        acc := { acc with startGroup := 0, endGroup := 0 }
        attErr := if rc = .enomem then attErrInsufficientRes else 0
        errHandle := e.handleId }

/-- The second part of the loop's body, which looks for the start of a
group. -/
def openGroup (c : Ctx) (e : Attr) (acc : Acc) : Except Stop Acc :=
  if acc.startGroup ≠ 0 then .ok acc
  else if e.uuid ≠ c.group then .ok acc
  else
    match serviceUuid e acc.uuid128 with
    | none => .error ⟨.enotsup, false, acc, attErrUnlikely, e.handleId⟩
    | some (uuid16, uuid128) =>
      let acc := { acc with uuid16 := uuid16, uuid128 := uuid128 }
      let opened := { acc with
        startGroup := e.handleId
        endGroup := e.handleId }
      -- The response is cut short before a UUID of the other length.
      if acc.length = 0 then
        .ok { opened with
          length := if uuid16 ≠ 0 then adataSz16 else adataSz128 }
      else if acc.length = adataSz16 then
        if uuid16 = 0 then .error ⟨.ok, false, acc, 0, c.start⟩
        else .ok opened
      else if acc.length = adataSz128 then
        if uuid16 ≠ 0 then .error ⟨.ok, false, acc, 0, c.start⟩
        else .ok opened
      else .error ⟨.assert, false, acc, 0, c.start⟩

/-- The loop over the attributes. -/
def scan (c : Ctx) : List Attr → Acc → Stop
  | [], acc => ⟨.ok, true, acc, 0, c.start⟩
  | e :: l, acc =>
    if e.handleId < c.start then scan c l acc
    else if e.handleId > c.stop then ⟨.ok, false, acc, 0, c.start⟩
    else
      match (closeGroup c e acc).bind (openGroup c e) with
      | .ok acc => scan c l acc
      | .error stop => stop

/-- The response PDU, with the header written over its first bytes. -/
def pdu (length : Nat) (txom : List UInt8) : List UInt8 :=
  0x11 :: UInt8.ofNat length :: txom.drop rspBaseSz

/-- The end of the function: the group that is still open is added. The answer
is a PDU, or an error code and the handle it is about. -/
def finish (c : Ctx) (s : Stop) : Except (Nat × Nat) (List UInt8) :=
  match s.rc with
  | .ok =>
    let last : Rc × List UInt8 :=
      if s.acc.startGroup = 0 then (.ok, s.acc.txom)
      else
        match entryWrite c s.acc (if s.atEnd then 0xffff else s.acc.endGroup)
        with
        | .ok txom => (.ok, txom)
        | .error rc => (rc, s.acc.txom)
    if last.2.length ≤ rspBaseSz then .error (attErrAttrNotFound, s.errHandle)
    else if last.1 = .ok ∨ last.1 = .emsgsize then
      .ok (pdu s.acc.length last.2)
    else .error (attErrInsufficientRes, s.errHandle)
  | .emsgsize => .ok (pdu s.acc.length s.acc.txom)
  | _ => .error (s.attErr, s.errHandle)

/-- `ble_att_svr_rx_read_group_type`, for a request that has been parsed. -/
def rxReadGroupType (c : Ctx) (attrs : List Attr) :
    Except (Nat × Nat) (List UInt8) :=
  if c.start > c.stop ∨ c.start = 0 then .error (attErrInvalidHandle, c.start)
  else if isValidGroupType c.group = false then
    .error (attErrUnsupportedGroup, c.start)
  else if c.mem 0 = false then .error (attErrInsufficientRes, c.start)
  else finish c (scan c attrs ⟨List.replicate rspBaseSz 0, 0, 0, 0, [], 0⟩)

/-! ## The client -/

/-- `struct ble_gatt_service`. -/
structure Service where
  startHandle : Nat
  endHandle : Nat
  uuid : List UInt8
deriving DecidableEq

/-- `ble_gattc_disc_all_svcs_rx_adata`: the service that is reported, unless
the entry is refused. -/
def rxAdata (prevHandle : Nat) (adata : List UInt8) : Option Service :=
  let value := adata.drop 4
  let uuid :=
    if value.length = 2 then uuid16To128 (ofLe16 value)
    else if value.length = 16 then some value
    else none
  uuid.bind fun uuid =>
    if ofLe16 (adata.drop 2) ≤ prevHandle then none
    else some ⟨ofLe16 adata, ofLe16 (adata.drop 2), uuid⟩

/-- The loop of `ble_att_clt_rx_read_group_type` over the entries of a
response, which all have the length that the header tells: the services that
are reported, and the last end handle unless something was refused. A round
takes one entry. -/
def rxEntries (length : Nat) : Nat → Nat → List UInt8 → List Service × Option Nat
  | 0, prevHandle, data => ([], if data = [] then some prevHandle else none)
  | rounds + 1, prevHandle, data =>
    if data = [] then ([], some prevHandle)
    else if length < 5 ∨ data.length < length then ([], none)
    else
      match rxAdata prevHandle (data.take length) with
      | none => ([], none)
      | some service =>
        let r := rxEntries length rounds service.endHandle (data.drop length)
        (service :: r.1, r.2)

def rxRsp (prevHandle : Nat) (rsp : List UInt8) : List Service × Option Nat :=
  rxEntries (rsp.getD 1 0).toNat rsp.length prevHandle (rsp.drop rspBaseSz)

/-- How discovery ended: with a response that goes up to the last handle there
can be, with an error for a request, or with a response that was refused. -/
inductive Ending where
  | complete
  | error (attErr : Nat)
  | refused
deriving DecidableEq

/-- The services reported, the responses, and the end. -/
structure Found where
  services : List Service
  rsps : List (List UInt8)
  ending : Ending
deriving DecidableEq

/-- The procedure from a handle that has been dealt with. `server` answers
requests with a starting handle; each round is one request. -/
def discover (server : Nat → Except (Nat × Nat) (List UInt8)) : Nat → Nat → Option Found
  | 0, _ => none
  | rounds + 1, prevHandle =>
    match server ((prevHandle + 1) % 2 ^ 16) with
    | .error e => some ⟨[], [], .error e.1⟩
    | .ok rsp =>
      let r := rxRsp prevHandle rsp
      match r.2 with
      | none => some ⟨r.1, [rsp], .refused⟩
      | some prevHandle =>
        if prevHandle = 0xffff then some ⟨r.1, [rsp], .complete⟩
        else (discover server rounds prevHandle).map fun f =>
          ⟨r.1 ++ f.services, rsp :: f.rsps, f.ending⟩

/-- The server's answers to the requests of `ble_gattc_disc_all_svcs_kick`. -/
def server (mtu : Nat) (mem : Nat → Bool) (attrs : List Attr) (start : Nat) :
    Except (Nat × Nat) (List UInt8) :=
  rxReadGroupType ⟨mtu, mem, start, 0xffff, declUuid uuidPrimaryService⟩ attrs

end Larva.Ble.Groups
