import Mathlib.Algebra.Group.Even
import Mathlib.Algebra.Group.Nat.Even
import Mathlib.Algebra.Order.Ring.Int

/-!
# Received data channel PDUs

A PDU that arrives with a correct CRC is put on the queue of the link layer
task (`ble_ll_rx_pdu_in`), and then the interrupt handler looks at its sequence
number: if it is the one it expects, the PDU is acknowledged by expecting the
other one (`ble_ll_conn_rx_isr_end`). The task takes PDUs off the queue and
filters duplicates again, by its own copy of the last sequence number
(`ble_ll_conn_rx_data_pdu`). A PDU whose LLID is not reasonable leaves the task
before that copy is set, though the handler has acknowledged it, so the PDU
behind it looks like a repetition of the one before.

`handed_iff` says for every sequence of PDUs which of them are lost by this: a
PDU is handed over if and only if the number of unreasonable PDUs since the
last reasonable one is even.
-/

namespace Larva.Ble.LlReceive

open List

/-! ## The code -/

/-- A PDU without the bits of its header that change when it is sent again. -/
structure Pdu where
  llid : Fin 4
  payload : List UInt8
deriving DecidableEq

structure Frame where
  pdu : Pdu
  sn : Bool

/-- `BLE_LL_LLID_DATA_FRAG`, `BLE_LL_LLID_DATA_START`, `BLE_LL_LLID_CTRL`. -/
def llidDataFrag : Fin 4 := 1
def llidDataStart : Fin 4 := 2
def llidCtrl : Fin 4 := 3

/-- The check of `ble_ll_conn_rx_data_pdu` that the LLID is reasonable. -/
def Pdu.reasonable (p : Pdu) : Bool :=
  !(p.llid = 0 || p.llid = llidDataStart && p.payload.isEmpty)

/-- A reasonable PDU that is not empty, which is what can be handed over. -/
def Pdu.carries (p : Pdu) : Bool :=
  p.reasonable && !(p.llid = llidDataFrag && p.payload.isEmpty)

inductive Dest where
  | ctrl
  | host
deriving DecidableEq

/-- `ble_ll_ctrl_rx_pdu` or `ble_hs_rx_data`. -/
def Pdu.dest (p : Pdu) : Dest := if p.llid = llidCtrl then .ctrl else .host

structure St where
  nextExpSeqnum : Bool
  lastRxdSn : Nat
  /-- `ll_rx_pkt_q`. -/
  queue : List Frame
  acked : List Pdu
  handed : List (Dest × Pdu)

/-- `ble_ll_conn_sm_new`. -/
def St.new : St := ⟨false, 1, [], [], []⟩

/-- The header byte under `BLE_LL_DATA_HDR_SN_MASK`. -/
def snMask (sn : Bool) : Nat := if sn then 0x08 else 0

/-- `ble_ll_rx_pdu_in`, and `ble_ll_conn_rx_isr_end`. -/
def St.rxIsrEnd (s : St) (f : Frame) : St :=
  let s := { s with queue := s.queue ++ [f] }
  if f.sn = s.nextExpSeqnum then
    { s with nextExpSeqnum := !s.nextExpSeqnum, acked := s.acked ++ [f.pdu] }
  else s

/-- `ble_ll_conn_rx_data_pdu`. -/
def St.rxDataPdu (s : St) (f : Frame) : St :=
  if !f.pdu.reasonable then s
  else if snMask f.sn ≠ s.lastRxdSn then
    let s := { s with lastRxdSn := snMask f.sn }
    if f.pdu.llid = llidDataFrag && f.pdu.payload.isEmpty then s
    else { s with handed := s.handed ++ [(f.pdu.dest, f.pdu)] }
  else s

/-- The runs of a connection: what has arrived so far, and the state. -/
inductive Reach : List Frame → St → Prop
  | new : Reach [] .new
  | rx {fs : List Frame} {s : St} (h : Reach fs s) (f : Frame) : Reach (fs ++ [f]) (s.rxIsrEnd f)
  | take {fs : List Frame} {s : St} {f : Frame} {q : List Frame} (h : Reach fs s)
      (hq : s.queue = f :: q) : Reach fs ({ s with queue := q }.rxDataPdu f)

/-- What arrives of a peer that keeps to the protocol, from the sequence
number `sn` on: it sends a PDU until that is acknowledged, so that each arrives
once and some of them again. -/
def frames (sn : Bool) : List (Pdu × Nat) → List Frame
  | [] => []
  | (p, again) :: ps => replicate (again + 1) ⟨p, sn⟩ ++ frames (!sn) ps

/-- Every PDU that is to be handed over has an even number of unreasonable
ones before it, counted from the last reasonable one (`gap`) if there is
one. -/
def spaced (gap : Option Nat) : List Pdu → Bool
  | [] => true
  | p :: ps =>
    if p.reasonable then (!p.carries || gap.all (· % 2 = 0)) && spaced (some 0) ps
    else spaced (gap.map (· + 1)) ps

/-! ## Interrupt handler and task, each by itself -/

/-- What the handler keeps. -/
def isr (x : Bool × List Pdu) (f : Frame) : Bool × List Pdu :=
  if f.sn = x.1 then (!x.1, x.2 ++ [f.pdu]) else x

/-- What the task keeps. -/
def task (x : Nat × List (Dest × Pdu)) (f : Frame) : Nat × List (Dest × Pdu) :=
  if !f.pdu.reasonable then x
  else if snMask f.sn ≠ x.1 then
    (snMask f.sn, if f.pdu.carries then x.2 ++ [(f.pdu.dest, f.pdu)] else x.2)
  else x

theorem rxDataPdu_eq (s : St) (f : Frame) :
    s.rxDataPdu f = { s with
      lastRxdSn := (task (s.lastRxdSn, s.handed) f).1
      handed := (task (s.lastRxdSn, s.handed) f).2 } := by
  unfold St.rxDataPdu task
  split
  · rfl
  · next hr =>
    split
    · have hc : f.pdu.carries = !(f.pdu.llid = llidDataFrag && f.pdu.payload.isEmpty) := by
        simp [Pdu.carries, Bool.not_eq_false _ ▸ (by simpa using hr : f.pdu.reasonable = true)]
      rw [hc]
      cases (decide (f.pdu.llid = llidDataFrag) && f.pdu.payload.isEmpty) <;> rfl
    · rfl

/-- The queue is first in, first out, so that it does not matter when the task
runs. -/
theorem Reach.folds {fs : List Frame} {s : St} (h : Reach fs s) : ∃ done,
    fs = done ++ s.queue ∧ (s.nextExpSeqnum, s.acked) = fs.foldl isr (false, []) ∧
    (s.lastRxdSn, s.handed) = done.foldl task (1, []) := by
  induction h with
  | new => exact ⟨[], rfl, rfl, rfl⟩
  | @rx fs s _ f ih =>
    obtain ⟨done, hfs, hi, ht⟩ := ih
    refine ⟨done, ?_, ?_, ?_⟩
    · rw [hfs, append_assoc]
      unfold St.rxIsrEnd
      dsimp only
      split <;> rfl
    · rw [foldl_append, ← hi]
      unfold St.rxIsrEnd
      simp only [foldl, isr]
      split <;> rfl
    · rw [← ht]
      unfold St.rxIsrEnd
      dsimp only
      split <;> rfl
  | @take fs s f q _ hq ih =>
    obtain ⟨done, hfs, hi, ht⟩ := ih
    refine ⟨done ++ [f], ?_, ?_, ?_⟩
    · rw [hfs, hq, rxDataPdu_eq, append_assoc]
      rfl
    · rw [rxDataPdu_eq]
      exact hi
    · rw [rxDataPdu_eq, foldl_append, ← ht]
      rfl

/-! ## What arrives again -/

variable {α : Type} {sn : Bool} {last : Nat} {gap : Option Nat}

/-- Copies that arrive again change nothing. -/
theorem foldl_replicate {β : Type} {g : α → β → α} {b : β} (hg : ∀ x, g (g x b) b = g x b) (x : α)
    (n : Nat) : (replicate (n + 1) b).foldl g x = g x b := by
  induction n with
  | zero => rfl
  | succ n ih =>
    rw [replicate_succ', foldl_append, ih]
    exact hg x

theorem isr_isr (f : Frame) (x : Bool × List Pdu) : isr (isr x f) f = isr x f := by
  by_cases h : f.sn = x.1 <;> simp [isr, h]

theorem task_task (f : Frame) (x : Nat × List (Dest × Pdu)) : task (task x f) f = task x f := by
  unfold task
  split
  · rfl
  · split
    · simp
    · simp

theorem foldl_frames {g : α → Frame → α} (hg : ∀ f x, g (g x f) f = g x f) {p : Pdu} {again : Nat}
    {ps : List (Pdu × Nat)} (x : α) :
    (frames sn ((p, again) :: ps)).foldl g x = (frames (!sn) ps).foldl g (g x ⟨p, sn⟩) := by
  rw [frames, foldl_append, foldl_replicate (hg _)]

/-- Every PDU is acknowledged. -/
theorem isr_frames (ps : List (Pdu × Nat)) : ∀ sn acked,
    ((frames sn ps).foldl isr (sn, acked)).2 = acked ++ ps.map Prod.fst := by
  induction ps with
  | nil => simp [frames]
  | cons x ps ih =>
    intro sn acked
    rw [foldl_frames isr_isr, isr, if_pos rfl, ih, append_assoc]
    rfl

/-! ## What the task hands over -/

/-- What the task adds to what it has handed over. -/
def deliver (last : Nat) (sn : Bool) : List Pdu → List Pdu
  | [] => []
  | p :: ps =>
    if !p.reasonable then deliver last (!sn) ps
    else if snMask sn ≠ last then
      (if p.carries then [p] else []) ++ deliver (snMask sn) (!sn) ps
    else deliver last (!sn) ps

theorem task_frames (ps : List (Pdu × Nat)) : ∀ sn last handed,
    ((frames sn ps).foldl task (last, handed)).2 =
      handed ++ (deliver last sn (ps.map Prod.fst)).map fun p => (p.dest, p) := by
  induction ps with
  | nil => simp [frames, deliver]
  | cons x ps ih =>
    intro sn last handed
    rw [foldl_frames task_task]
    simp only [task, map_cons, deliver]
    split
    · exact ih _ _ _
    · split
      · rw [ih]
        split <;> simp
      · exact ih _ _ _

theorem deliver_length (ps : List Pdu) : ∀ last sn,
    (deliver last sn ps).length ≤ (ps.filter Pdu.carries).length := by
  induction ps with
  | nil => simp [deliver]
  | cons p ps ih =>
    intro last sn
    have hle : (ps.filter Pdu.carries).length ≤ ((p :: ps).filter Pdu.carries).length :=
      (Sublist.filter _ (sublist_cons_self p ps)).length_le
    unfold deliver
    split
    · exact (ih _ _).trans hle
    · split
      · rw [length_append, filter_cons]
        have := ih (snMask sn) (!sn)
        split <;> simp <;> omega
      · exact (ih _ _).trans hle

/-- How the copy of the last sequence number goes with the number of PDUs
that were unreasonable since it was set. -/
def Tracks (sn : Bool) (last : Nat) : Option Nat → Prop
  | none => last = 1
  | some k => last = snMask (if k % 2 = 0 then !sn else sn)

theorem Tracks.ne_iff (h : Tracks sn last gap) : snMask sn ≠ last ↔ gap.all (· % 2 = 0) = true := by
  cases gap with
  | none => cases sn <;> simp [snMask, show last = 1 from h]
  | some k =>
    rw [show last = _ from h]
    by_cases hk : k % 2 = 0 <;> cases sn <;> simp [snMask, hk]

theorem Tracks.skip (h : Tracks sn last gap) : Tracks (!sn) last (gap.map (· + 1)) := by
  cases gap with
  | none => exact h
  | some k =>
    show last = snMask (if (k + 1) % 2 = 0 then !!sn else !sn)
    rw [show last = _ from h]
    by_cases hk : k % 2 = 0
    · rw [if_pos hk, if_neg (by omega)]
    · rw [if_neg hk, if_pos (by omega), Bool.not_not]

theorem tracks_zero (sn : Bool) : Tracks (!sn) (snMask sn) (some 0) := by
  show snMask sn = snMask (!!sn)
  rw [Bool.not_not]

/-- A PDU that was taken for a repetition has the sequence number it would
have left. -/
theorem tracks_repeated (h : ¬ snMask sn ≠ last) :
    Tracks (!sn) last (some 0) :=
  not_not.mp h ▸ tracks_zero sn

theorem deliver_iff (ps : List Pdu) : ∀ {sn last gap}, Tracks sn last gap →
    (deliver last sn ps = ps.filter Pdu.carries ↔ spaced gap ps = true) := by
  induction ps with
  | nil => simp [deliver, spaced]
  | cons p ps ih =>
    intro sn last gap ht
    unfold deliver spaced
    by_cases hr : p.reasonable = true
    · simp only [hr, Bool.not_true, Bool.false_eq_true, if_false, if_true]
      by_cases hne : snMask sn ≠ last
      · rw [if_pos hne, ht.ne_iff.mp hne, Bool.or_true, Bool.true_and, ← ih (tracks_zero sn)]
        by_cases hc : p.carries = true <;> simp [hc]
      have hgap : gap.all (· % 2 = 0) = false :=
        Bool.eq_false_iff.mpr fun hx => hne (ht.ne_iff.mpr hx)
      rw [if_neg hne, hgap, Bool.or_false]
      by_cases hc : p.carries = true
      · -- Handing over the rest cannot make up for it.
        have hlen := deliver_length ps last (!sn)
        rw [filter_cons_of_pos hc, hc]
        refine iff_of_false (fun he => ?_) (by simp)
        rw [he, length_cons] at hlen
        omega
      · rw [filter_cons_of_neg hc, Bool.eq_false_iff.mpr hc]
        simpa using ih (tracks_repeated hne)
    · rw [filter_cons_of_neg (by simp [Pdu.carries, hr])]
      simpa [hr] using ih ht.skip

/-- When the task has looked at everything: all PDUs are acknowledged, and
those of them that carry something were handed over, each once and in order,
if and only if they are spaced. -/
theorem handed_iff {ps : List (Pdu × Nat)} {s : St} (h : Reach (frames false ps) s)
    (hq : s.queue = []) : s.acked = ps.map Prod.fst ∧
      (s.handed = (s.acked.filter Pdu.carries).map (fun p => (p.dest, p)) ↔
        spaced none s.acked = true) := by
  obtain ⟨done, hd, hi, ht⟩ := h.folds
  rw [hq, append_nil] at hd
  have ha : s.acked = ps.map Prod.fst :=
    (congrArg Prod.snd hi).trans (isr_frames ps false [])
  have hh : s.handed = (deliver 1 false s.acked).map fun p => (p.dest, p) := by
    rw [← hd] at ht
    rw [ha]
    exact (congrArg Prod.snd ht).trans (task_frames ps false 1 [])
  refine ⟨ha, ?_⟩
  rw [hh, ← deliver_iff s.acked (show Tracks false 1 none from rfl)]
  exact map_inj_right fun p q hpq => congrArg Prod.snd hpq

/-- A start fragment, of which the acknowledgement was lost, and a control
PDU. -/
theorem handed_two : ∃ s, Reach (frames false [(⟨2, [7]⟩, 1), (⟨3, [2, 19]⟩, 0)]) s ∧
    s.handed = [(.host, ⟨2, [7]⟩), (.ctrl, ⟨3, [2, 19]⟩)] := by
  have h : Reach (frames false [(⟨2, [7]⟩, 1), (⟨3, [2, 19]⟩, 0)]) _ :=
    (((((Reach.new.rx ⟨⟨2, [7]⟩, false⟩).take rfl).rx ⟨⟨2, [7]⟩, false⟩).take rfl).rx
      ⟨⟨3, [2, 19]⟩, true⟩).take rfl
  exact ⟨_, h, (handed_iff h rfl).2.mpr rfl⟩

/-- A PDU with LLID 0 between two fragments: the second fragment is lost. -/
theorem handed_lost : ∃ s, Reach (frames false [(⟨2, [7]⟩, 0), (⟨0, []⟩, 0), (⟨1, [8]⟩, 0)]) s ∧
    s.queue = [] ∧ s.acked = [⟨2, [7]⟩, ⟨0, []⟩, ⟨1, [8]⟩] ∧ s.handed = [(.host, ⟨2, [7]⟩)] :=
  ⟨_, ((((((Reach.new.rx ⟨⟨2, [7]⟩, false⟩).take rfl).rx ⟨⟨0, []⟩, true⟩).take rfl).rx
    ⟨⟨1, [8]⟩, false⟩).take rfl), rfl, rfl, rfl⟩

end Larva.Ble.LlReceive
