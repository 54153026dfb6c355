import Larva.Lib.Bytes
import Mathlib.Logic.Function.Basic

/-!
# Reassembly of L2CAP frames

The peer's data comes in ACL packets, each the first fragment of an L2CAP
frame or a continuation of it (`ble_l2cap_rx`). The first fragment starts with
the header, which names a channel and announces the length of the payload. The
fragments are collected at the channel, and the connection remembers the
channel of the frame under way; when as many bytes have come as were announced
the payload goes to the receive function of the channel.

A first fragment that is dropped, because it has no whole header or names a
channel that is not there, does not end the frame under way, nor does a packet
with other flags. The continuation fragments of what was dropped then go on
with the older frame (`rx_mixes_frames`). The length of what has been collected
is kept in sixteen bits, and a frame that is far too long can come out with
the right length. `fits` says of each packet that it does neither, and then
every payload delivered is the payload of one frame, to the channel its header
names (`rx_delivers_frame`).

An mbuf chain is what it carries and the length in its packet header.
-/

namespace Larva.Ble.L2cap

open Larva.Bytes Function Option List

/-- A channel of the connection, with its receive function. -/
structure Chan where
  cid : Nat
  rxFn : Nat
deriving DecidableEq

/-- An mbuf chain with a packet header. -/
structure Pkt where
  bytes : List UInt8
  ompLen : Nat
deriving DecidableEq

/-- An ACL data packet, the HCI header aside: the connection handle and flags,
and at most as much data as its length field can tell. -/
structure Acl where
  handlePbBc : Nat
  bytes : List UInt8
  short : bytes.length < 2 ^ 16

/-- `struct ble_l2cap_hdr`. -/
structure Hdr where
  len : Nat
  cid : Nat
deriving DecidableEq

/-- What the functions return apart from success. -/
inductive Rc where
  | eagain
  | emsgsize
  | enoent
  | ebaddata
deriving DecidableEq

/-- A receive function and what it is called with, or an error. -/
abbrev Res := Except Rc (Nat × Pkt)

structure Conn where
  channels : List Chan
  rxChan : Option Chan
  rxBuf : Chan → Option Pkt
  rxLen : Chan → Nat

/-- A connection on which nothing has been received. -/
def Conn.fresh (channels : List Chan) : Conn where
  channels := channels
  rxChan := none
  rxBuf := fun _ => none
  rxLen := fun _ => 0

/-! ## The code -/

/-- `BLE_HCI_DATA_PB`. -/
def Acl.pb (p : Acl) : Nat := (p.handlePbBc &&& 0x3000) >>> 12

def pbMiddle : Nat := 1

def pbFirstFlush : Nat := 2

def hdrSz : Nat := 4

def Acl.pkt (p : Acl) : Pkt := ⟨p.bytes, p.bytes.length⟩

/-- `os_mbuf_adj`, from the front. -/
def osMbufAdj (n : Nat) (om : Pkt) : Pkt where
  bytes := om.bytes.drop n
  ompLen := (om.ompLen + 2 ^ 16 - min n om.bytes.length) % 2 ^ 16

/-- `os_mbuf_concat` of two packets. -/
def osMbufConcat (first second : Pkt) : Pkt where
  bytes := first.bytes ++ second.bytes
  ompLen := (first.ompLen + second.ompLen) % 2 ^ 16

/-- `ble_l2cap_parse_hdr` at the front of a packet. -/
def parseHdr (om : Pkt) : Option Hdr :=
  if om.bytes.length < hdrSz then none
  else some ⟨ofLe16 om.bytes, ofLe16 (om.bytes.drop 2)⟩

/-- `ble_hs_conn_chan_find`. -/
def chanFind (cid : Nat) : List Chan → Option Chan
  | [] => none
  | chan :: l =>
    if chan.cid = cid then some chan
    else if chan.cid > cid then none
    else chanFind cid l

/-- `ble_l2cap_forget_rx`, and `ble_l2cap_discard_rx`, which also frees what
was collected. -/
def forgetRx (chan : Chan) (conn : Conn) : Conn :=
  { conn with
    rxChan := none
    rxBuf := update conn.rxBuf chan none
    rxLen := update conn.rxLen chan 0 }

/-- The packet is put behind what was collected. -/
def collect (old : Option Pkt) (om : Pkt) : Pkt :=
  match old with
  | none => om
  | some buf => osMbufConcat buf om

/-- `ble_l2cap_rx_payload`. -/
def rxPayload (chan : Chan) (om : Pkt) (conn : Conn) : Res × Conn :=
  let buf := collect (conn.rxBuf chan) om
  let conn' :=
    { conn with rxBuf := update conn.rxBuf chan (some buf) }
  let lenDiff : Int := buf.ompLen - conn.rxLen chan
  if lenDiff > 0 then (.error .ebaddata, forgetRx chan conn')
  else if lenDiff = 0 then (.ok (chan.rxFn, buf), forgetRx chan conn')
  else (.error .eagain, conn')

/-- The connection as a first fragment with the header leaves it for
`ble_l2cap_rx_payload`. -/
def started (chan : Chan) (hdr : Hdr) (conn : Conn) : Conn :=
  let conn' := if (conn.rxBuf chan).isSome then forgetRx chan conn else conn
  { conn' with
    rxChan := some chan
    rxLen := update conn'.rxLen chan hdr.len }

/-- `ble_l2cap_rx`. -/
def rx (p : Acl) (conn : Conn) : Res × Conn :=
  if p.pb = pbFirstFlush then
    match parseHdr p.pkt with
    | none => (.error .emsgsize, conn)
    | some hdr =>
      match chanFind hdr.cid conn.channels with
      | none => (.error .enoent, conn)
      | some chan =>
        rxPayload chan (osMbufAdj hdrSz p.pkt) (started chan hdr conn)
  else if p.pb = pbMiddle then
    match conn.rxChan with
    | none => (.error .ebaddata, conn)
    | some chan =>
      if (conn.rxBuf chan).isSome then rxPayload chan p.pkt conn
      else (.error .ebaddata, conn)
  else (.error .ebaddata, conn)

/-! ## Frames -/

/-- What came last, newest first, is a frame with the header and the payload:
a first fragment, and continuation fragments directly behind it, with nothing
delivered before the last one. -/
inductive Frame : List (Acl × Res) → Hdr → List UInt8 → Prop
  | first {p : Acl} {r : Res} {hist : List (Acl × Res)} {hdr : Hdr} :
      p.pb = pbFirstFlush → parseHdr p.pkt = some hdr →
      Frame ((p, r) :: hist) hdr (p.bytes.drop hdrSz)
  | middle {p q : Acl} {r : Res} {rc : Rc} {hist : List (Acl × Res)} {hdr : Hdr}
      {bytes : List UInt8} : Frame ((q, .error rc) :: hist) hdr bytes → p.pb = pbMiddle →
      Frame ((p, r) :: (q, .error rc) :: hist) hdr (bytes ++ p.bytes)

/-- The packets received, newest first, with what `ble_l2cap_rx` answered. -/
inductive Runs (ok : Conn → Acl → Bool) (s₀ : Conn) : List (Acl × Res) → Conn → Prop
  | nil : Runs ok s₀ [] s₀
  | step {hist : List (Acl × Res)} {s : Conn} (p : Acl) : Runs ok s₀ hist s →
      ok s p = true → Runs ok s₀ ((p, (rx p s).1) :: hist) (rx p s).2

/-- The packet leaves a frame that is under way in order: it is a first
fragment with a whole header for a channel of the connection, or a continuation
with which the frame's length can still be told. -/
def fits (s : Conn) (p : Acl) : Bool :=
  match s.rxChan with
  | none => true
  | some chan =>
    if p.pb = pbFirstFlush then
      ((parseHdr p.pkt).bind fun hdr => chanFind hdr.cid s.channels).isSome
    else if p.pb = pbMiddle then
      (s.rxBuf chan).all fun buf =>
        buf.bytes.length + p.bytes.length < 2 ^ 16
    else false

/-- The frame under way is what came last, and is at its channel. -/
structure UnderWay (s : Conn) (hist : List (Acl × Res)) (chan : Chan) : Prop where
  mem : chan ∈ s.channels
  frame : ∃ hdr bytes q rc rest, hist = (q, .error rc) :: rest ∧
    Frame hist hdr bytes ∧ chan.cid = hdr.cid ∧ s.rxLen chan = hdr.len ∧
    s.rxBuf chan = some ⟨bytes, bytes.length⟩

section Steps

variable {s : Conn} {chan : Chan} {hist : List (Acl × Res)} {om : Pkt} {p : Acl}

theorem chanFind_some {cid : Nat} {l : List Chan}
    (h : chanFind cid l = some chan) : chan ∈ l ∧ chan.cid = cid := by
  induction l with
  | nil => cases h
  | cons c l ih =>
    unfold chanFind at h
    split at h
    · next hc =>
      cases h
      exact ⟨mem_cons_self, hc⟩
    · split at h
      · cases h
      · exact ⟨mem_cons_of_mem _ (ih h).1, (ih h).2⟩

theorem rxPayload_channels : (rxPayload chan om s).2.channels = s.channels := by
  unfold rxPayload
  dsimp only
  split
  · rfl
  · split
    · rfl
    · rfl

theorem rx_channels (p : Acl) : (rx p s).2.channels = s.channels := by
  unfold rx
  split
  · split
    · rfl
    · split
      · rfl
      · next hdr _ c _ =>
        rw [rxPayload_channels]
        unfold started
        split
        · rfl
        · rfl
  · split
    · split
      · rfl
      · split
        · exact rxPayload_channels
        · rfl
    · rfl

/-- What became of a packet that belongs to a frame. -/
structure Took (hdr : Hdr) (chan : Chan) (hist : List (Acl × Res)) (p : Acl)
    (out : Res × Conn) : Prop where
  mem : chan ∈ out.2.channels
  under : ∀ c, out.2.rxChan = some c → UnderWay out.2 ((p, out.1) :: hist) c
  done : ∀ cb buf, out.1 = .ok (cb, buf) →
    Frame ((p, out.1) :: hist) hdr buf.bytes ∧ buf.bytes.length = hdr.len ∧
      buf.ompLen = buf.bytes.length ∧ chan.cid = hdr.cid ∧ cb = chan.rxFn

theorem took_payload {hdr : Hdr} {bytes : List UInt8} (hmem : chan ∈ s.channels)
    (hchan : s.rxChan = some chan) (hcid : chan.cid = hdr.cid) (hlen : s.rxLen chan = hdr.len)
    (hbuf : collect (s.rxBuf chan) om = ⟨bytes, bytes.length⟩)
    (hframe : ∀ r, Frame ((p, r) :: hist) hdr bytes) :
    Took hdr chan hist p (rxPayload chan om s) := by
  refine ⟨?_, ?_, ?_⟩
  · rw [rxPayload_channels]
    exact hmem
  · unfold rxPayload
    simp only [hbuf, hlen]
    split
    · intro c hc
      cases hc
    split
    · intro c hc
      cases hc
    · intro c hc
      rw [hchan] at hc
      cases hc
      refine ⟨hmem, hdr, bytes, p, .eagain, hist, rfl, hframe _, hcid, hlen, ?_⟩
      exact update_self _ _ _
  · unfold rxPayload
    simp only [hbuf, hlen]
    split
    · intro cb buf h
      cases h
    split
    · next hz =>
      intro cb buf h
      cases h
      refine ⟨hframe _, ?_, rfl, hcid, rfl⟩
      dsimp only
      omega
    · intro cb buf h
      cases h

/-- The packet is dropped, with no frame under way. -/
def Dropped (s : Conn) (out : Res × Conn) : Prop :=
  s.rxChan = none ∧ out.2 = s ∧ ∃ rc, out.1 = .error rc

theorem first_took (hpb : p.pb = pbFirstFlush) (hok : fits s p = true) :
    (∃ hdr chan, Took hdr chan hist p (rx p s)) ∨ Dropped s (rx p s) := by
  -- Without a header or a channel there can be no frame under way.
  have hnone : ((parseHdr p.pkt).bind fun hdr => chanFind hdr.cid s.channels) =
      none → s.rxChan = none := by
    intro hn
    cases hc : s.rxChan with
    | none => rfl
    | some c => simp [fits, hc, hpb, hn] at hok
  simp only [rx, if_pos hpb]
  cases hh : parseHdr p.pkt with
  | none => exact .inr ⟨hnone (by rw [hh]; rfl), rfl, _, rfl⟩
  | some hdr =>
    dsimp only
    cases hf : chanFind hdr.cid s.channels with
    | none =>
      refine .inr ⟨hnone ?_, rfl, _, rfl⟩
      rw [hh]
      exact hf
    | some chan =>
      obtain ⟨hmem, hcid⟩ := chanFind_some hf
      have hlong : hdrSz ≤ p.bytes.length := by
        by_contra hlt
        have hn : parseHdr p.pkt = none := if_pos (Nat.lt_of_not_le hlt)
        rw [hn] at hh
        cases hh
      refine .inl ⟨hdr, chan, ?_⟩
      refine took_payload ?_ rfl hcid ?_ ?_ fun r => .first hpb hh
      · unfold started
        split
        · exact hmem
        · exact hmem
      · exact update_self _ _ _
      have hbuf : (started chan hdr s).rxBuf chan = none := by
        unfold started
        split
        · exact update_self _ _ _
        · next hn => simpa using hn
      have hshort := p.short
      have hmin : min hdrSz p.bytes.length = hdrSz := Nat.min_eq_left hlong
      rw [hbuf]
      show osMbufAdj hdrSz p.pkt = _
      simp only [osMbufAdj, Acl.pkt, hmin, length_drop, Pkt.mk.injEq, true_and]
      omega

theorem middle_took (hpb : p.pb = pbMiddle) (hunder : ∀ c, s.rxChan = some c → UnderWay s hist c)
    (hok : fits s p = true) : (∃ hdr chan, Took hdr chan hist p (rx p s)) ∨ Dropped s (rx p s) := by
  have hne : p.pb ≠ pbFirstFlush := by
    rw [hpb]
    decide
  simp only [rx, if_neg hne, if_pos hpb]
  cases hc : s.rxChan with
  | none => exact .inr ⟨hc, rfl, _, rfl⟩
  | some chan =>
    obtain ⟨hmem, hdr, bytes, q, rc, rest, rfl, hframe, hcid, hlen, hbuf⟩ :=
      hunder chan hc
    have hfit : bytes.length + p.bytes.length < 2 ^ 16 := by
      simp only [fits, hc, if_neg hne, if_pos hpb, hbuf, all_some, decide_eq_true_eq] at hok
      exact hok
    simp only [hbuf, isSome_some, if_true]
    refine .inl ⟨hdr, chan, ?_⟩
    refine took_payload hmem hc hcid hlen ?_ fun r => .middle hframe hpb
    rw [hbuf]
    show osMbufConcat _ p.pkt = _
    simp only [osMbufConcat, Acl.pkt, length_append, Pkt.mk.injEq, true_and]
    exact Nat.mod_eq_of_lt hfit

theorem rx_took (hunder : ∀ c, s.rxChan = some c → UnderWay s hist c) (hok : fits s p = true) :
    (∃ hdr chan, Took hdr chan hist p (rx p s)) ∨ Dropped s (rx p s) := by
  by_cases hf : p.pb = pbFirstFlush
  · exact first_took hf hok
  by_cases hm : p.pb = pbMiddle
  · exact middle_took hm hunder hok
  have hc : s.rxChan = none := by
    cases hc : s.rxChan with
    | none => rfl
    | some c => simp [fits, hc, hf, hm] at hok
  simp only [rx, if_neg hf, if_neg hm]
  exact .inr ⟨hc, rfl, _, rfl⟩

end Steps

/-! ## Runs -/

variable {channels : List Chan} {hist : List (Acl × Res)} {s : Conn}

theorem runs_channels {ok : Conn → Acl → Bool}
    (h : Runs ok (.fresh channels) hist s) : s.channels = channels := by
  induction h with
  | nil => rfl
  | step p _ _ ih => exact (rx_channels p).trans ih

theorem runs_underWay (h : Runs fits (.fresh channels) hist s) :
    ∀ c, s.rxChan = some c → UnderWay s hist c := by
  induction h with
  | nil =>
    intro c hc
    cases hc
  | step p _ hok ih =>
    intro c hc
    rcases rx_took ih hok with ⟨hdr, chan, htook⟩ | ⟨hnone, hsame, -⟩
    · exact htook.under c hc
    · rw [hsame, hnone] at hc
      cases hc

/-- A payload that is delivered is that of one frame, with the length that its
header announces, and goes to the channel that its header names. -/
theorem rx_delivers_frame {p : Acl} {cb : Nat} {buf : Pkt}
    (h : Runs fits (.fresh channels) ((p, .ok (cb, buf)) :: hist) s) :
    ∃ hdr chan, Frame ((p, .ok (cb, buf)) :: hist) hdr buf.bytes ∧
      buf.bytes.length = hdr.len ∧ buf.ompLen = hdr.len ∧ chan ∈ channels ∧
      chan.cid = hdr.cid ∧ cb = chan.rxFn := by
  generalize hr : (Except.ok (cb, buf)) = r at h
  cases h with
  | @step _ s p hrun hok =>
    rcases rx_took (runs_underWay hrun) hok with
      ⟨hdr, chan, htook⟩ | ⟨-, -, rc, herr⟩
    · obtain ⟨hframe, hlen, homp, hcid, hcb⟩ := htook.done cb buf hr.symm
      have hmem := htook.mem
      rw [rx_channels, runs_channels hrun] at hmem
      exact ⟨hdr, chan, hframe, hlen, homp.trans hlen, hmem, hcid, hcb⟩
    · rw [herr] at hr
      cases hr

/-- The channels of a connection: attributes, signalling and security. -/
def usualChannels : List Chan := [⟨4, 1⟩, ⟨5, 2⟩, ⟨6, 3⟩]

theorem rx_delivers_frame_two : ∃ p hist s, Runs fits (.fresh usualChannels)
      ((p, .ok (1, ⟨[1, 2, 7, 8], 4⟩)) :: hist) s ∧ ∃ (hdr : Hdr) (chan : Chan),
      Frame ((p, .ok (1, ⟨[1, 2, 7, 8], 4⟩)) :: hist) hdr [1, 2, 7, 8] ∧
      hdr.len = 4 ∧ chan.cid = hdr.cid ∧ 1 = chan.rxFn := by
  have h : Runs fits (.fresh usualChannels) _ _ :=
    .step ⟨0x1000, [7, 8], by decide⟩ (.step ⟨0x2000, [4, 0, 4, 0, 1, 2], by decide⟩ .nil rfl) rfl
  obtain ⟨hdr, chan, hframe, hlen, -, -, hcid, hcb⟩ := rx_delivers_frame h
  exact ⟨_, _, _, h, hdr, chan, hframe, hlen.symm, hcid, hcb⟩

/-! ## What `fits` leaves out -/

/-- The attribute channel gets two bytes of its own frame, and two that
continue a frame for a channel that is not there. -/
theorem rx_mixes_frames : ∃ p hist s, Runs (fun _ _ => true) (.fresh usualChannels)
      ((p, .ok (1, ⟨[1, 2, 7, 8], 4⟩)) :: hist) s ∧
    ¬ ∃ hdr, Frame ((p, .ok (1, ⟨[1, 2, 7, 8], 4⟩)) :: hist) hdr [1, 2, 7, 8] := by
  refine ⟨_, _, _, .step ⟨0x1000, [7, 8], by decide⟩ (.step ⟨0x2000, [4, 0, 99, 0, 9], by decide⟩
        (.step ⟨0x2000, [4, 0, 4, 0, 1, 2], by decide⟩ .nil rfl) rfl) rfl, ?_⟩
  intro hx
  obtain ⟨hdr, hframe⟩ := hx
  generalize hb : ([1, 2, 7, 8] : List UInt8) = bytes at hframe
  cases hframe with
  | first hpb => exact absurd hpb (by decide)
  | middle hf hpb =>
    cases hf with
    | first hpb' => cases hb
    | middle hf hpb' => exact absurd hpb' (by decide)

/-- A continuation that brings the length once around is taken for the end of
the frame, and everything collected is delivered. -/
theorem middle_wraps {p : Acl} {chan : Chan} {bytes : List UInt8}
    (hpb : p.pb = pbMiddle) (hchan : s.rxChan = some chan)
    (hbuf : s.rxBuf chan = some ⟨bytes, bytes.length⟩)
    (hwrap : bytes.length + p.bytes.length = s.rxLen chan + 2 ^ 16) (hlen : s.rxLen chan < 2 ^ 16) :
    (rx p s).1 = .ok (chan.rxFn, ⟨bytes ++ p.bytes, s.rxLen chan⟩) := by
  have hne : p.pb ≠ pbFirstFlush := by
    rw [hpb]
    decide
  have hcol : collect (s.rxBuf chan) p.pkt = ⟨bytes ++ p.bytes, s.rxLen chan⟩ := by
    rw [hbuf]
    show osMbufConcat _ p.pkt = _
    simp only [osMbufConcat, Acl.pkt, hwrap, Pkt.mk.injEq, true_and]
    omega
  have hrx : rx p s = rxPayload chan p.pkt s := by
    simp only [rx, if_neg hne, if_pos hpb, hchan, hbuf, isSome_some, if_true]
  rw [hrx]
  unfold rxPayload
  simp only [hcol, sub_self, lt_irrefl, if_false, if_true]

end Larva.Ble.L2cap
