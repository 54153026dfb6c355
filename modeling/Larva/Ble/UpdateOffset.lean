import Mathlib.Algebra.Order.Group.Abs
import Mathlib.Algebra.Order.Ring.Int
import Mathlib.Tactic.Common
import Mathlib.Tactic.Ring
import Mathlib.Tactic.Zify

/-!
# The window offset of a connection update

`ble_ll_ctrl_conn_upd_make` answers a connection parameter request: it picks
an instant, and a window offset that moves the first anchor of the new
interval to `offset0` behind the reference event, modulo that interval.

The distance is computed in 32 bits. Three things are lost: the difference of
the counters is taken in 32 bits although its sign was tested in 16, the
product of the old interval and the number of events may pass `2 ^ 32`, and a
reference event before the instant may lie less than `offset0` back. What the
three lose together, rounded up to 1.25 ms, decides whether the offset is
right.
-/

namespace Larva.Ble.UpdateOffset

/-- `struct hci_conn_update`, as far as it is read here. -/
structure HciConnUpdate where
  connItvlMax : UInt16
  connLatency : UInt16
  supervisionTimeout : UInt16

structure ConnSm where
  eventCntr : UInt16
  slaveLatency : UInt16
  connItvl : UInt16
  txWinSize : UInt8
  connParamReq : HciConnUpdate

structure ConnParams where
  intervalMax : UInt16
  latency : UInt16
  timeout : UInt16
  refConnEventCnt : UInt16
  offset0 : UInt16

structure ConnUpdReq where
  winsize : UInt8
  winoffset : UInt16
  interval : UInt16
  latency : UInt16
  timeout : UInt16
  instant : UInt16

/-- `BLE_LL_CONN_ITVL_USECS` and `BLE_LL_CONN_TX_WIN_USECS`. -/
def itvlUsecs : Nat := 1250

def u32 (x : Int) : Nat := (x % 2 ^ 32).toNat

/-- A conversion to sixteen bits with sign. -/
def i16 (x : Int) : Int := Int.bmod x (2 ^ 16)

def ConnSm.instant (connsm : ConnSm) : UInt16 := connsm.eventCntr + connsm.slaveLatency + 6 + 1

section

variable (connsm : ConnSm) (cp : ConnParams)

/-- `ref_conn_event_cnt - instant`, of promoted operands. -/
def ahead : Int := cp.refConnEventCnt.toNat - connsm.instant.toNat

/-- The distance `dt` when there is an offset. -/
def distance : Nat :=
  let newItvlUsecs := cp.intervalMax.toNat * itvlUsecs
  let oldItvlUsecs := connsm.connItvl.toNat * itvlUsecs
  if 0 ≤ i16 (ahead connsm cp) then
    let numOldCe := u32 (ahead connsm cp)
    let dt := u32 (oldItvlUsecs * numOldCe)
    let dt := u32 (dt + cp.offset0.toNat * itvlUsecs)
    dt % newItvlUsecs
  else
    let numOldCe := u32 (-ahead connsm cp)
    let dt := u32 (oldItvlUsecs * numOldCe)
    let dt := u32 (dt - cp.offset0.toNat * itvlUsecs)
    newItvlUsecs - dt % newItvlUsecs

end

def connUpdMake (connsm : ConnSm) : Option ConnParams → ConnUpdReq
  | some cp =>
    { winsize := 1
      winoffset :=
        if cp.offset0 ≠ 0xFFFF then UInt16.ofNat (distance connsm cp / itvlUsecs) else 0
      interval := cp.intervalMax
      latency := cp.latency
      timeout := cp.timeout
      instant := connsm.instant }
  | none =>
    { winsize := connsm.txWinSize
      winoffset := 0
      interval := connsm.connParamReq.connItvlMax
      latency := connsm.connParamReq.connLatency
      timeout := connsm.connParamReq.supervisionTimeout
      instant := connsm.instant }

section

variable (connsm : ConnSm) (cp : ConnParams)

/-- From the anchor at the instant to the reference event and `offset0`, in
units of 1.25 ms. -/
def wanted : Int := connsm.connItvl.toNat * i16 (ahead connsm cp) + cp.offset0.toNat

/-- The same with the difference of the counters as it is. -/
def counted : Int := connsm.connItvl.toNat * ahead connsm cp + cp.offset0.toNat

/-- The anchor of the update is where it is wanted, up to 1.25 ms. -/
def Aligned (req : ConnUpdReq) : Prop :=
  ∃ k : Int, |(req.winoffset.toNat * itvlUsecs - wanted connsm cp * itvlUsecs : Int) -
    k * req.interval.toNat * itvlUsecs| ≤ itvlUsecs

/-- What is lost of the distance to 32 bits, in microseconds. -/
def lost : Int :=
  wanted connsm cp * itvlUsecs - if 0 ≤ i16 (ahead connsm cp)
    then counted connsm cp * itvlUsecs % 2 ^ 32
    else -(-(counted connsm cp * itvlUsecs) % 2 ^ 32)

/-- It is, rounded up to 1.25 ms, within 1.25 ms of whole new intervals. -/
def LosesIntervals : Prop :=
  ∃ k : Int, |-(-lost connsm cp / itvlUsecs) - k * cp.intervalMax.toNat| ≤ 1

end

variable {connsm : ConnSm} {cp : ConnParams}

theorem u32_cast (x : Int) : (u32 x : Int) = x % 2 ^ 32 := by
  unfold u32
  omega

/-- The word that the distance is reduced from. -/
theorem u32_distance (a b c : Int) : (u32 (u32 (a * u32 b) + c) : Int) = (a * b + c) % 2 ^ 32 := by
  rw [u32_cast, u32_cast, u32_cast, Int.emod_add_emod, ← Int.emod_add_emod, Int.mul_emod,
    Int.emod_emod, ← Int.mul_emod, Int.emod_add_emod]

/-- Being off by so many units and whole intervals. -/
theorem aligned_iff {n wo t c q : Int} (h : t - wo = c + q * n) :
    (∃ k, |wo * 1250 - t * 1250 - k * n * 1250| ≤ 1250) ↔ ∃ k, |c - k * n| ≤ 1 := by
  constructor
  all_goals
    rintro ⟨k, hk⟩
    refine ⟨-(k + q), ?_⟩
    have hr : -(k + q) * n = -(k * n) - q * n := by ring
    rw [abs_le] at hk ⊢
    omega

/-- The offset is in the new interval, and off by what was lost. -/
theorem distance_eq (connsm : ConnSm) (hn : 0 < cp.intervalMax.toNat) :
    distance connsm cp / itvlUsecs ≤ cp.intervalMax.toNat ∧
    ∃ q : Int, wanted connsm cp - (distance connsm cp / itvlUsecs : Nat) =
      -(-lost connsm cp / itvlUsecs) + q * cp.intervalMax.toNat := by
  unfold distance lost
  simp only [show itvlUsecs = 1250 from rfl]
  generalize cp.intervalMax.toNat = n at hn ⊢
  have hc : counted connsm cp * 1250 =
      connsm.connItvl.toNat * 1250 * ahead connsm cp + cp.offset0.toNat * 1250 := by
    unfold counted
    ring
  have hw := u32_distance (connsm.connItvl.toNat * 1250)
  split
  · simp only [Nat.cast_mul, Nat.cast_ofNat]
    rw [hc, ← hw]
    generalize u32 _ = w
    have hdiv : w % (n * 1250) / 1250 = w / 1250 % n := by
      rw [Nat.mul_comm, Nat.mod_mul_right_div_self]
    have hmod := Nat.mod_add_div (w / 1250) n
    have hlt := Nat.mod_lt (w / 1250) hn
    refine ⟨by omega, (w / 1250 / n : Nat), ?_⟩
    rw [Nat.mul_comm] at hmod
    zify at hmod hdiv ⊢
    omega
  · specialize hw (-ahead connsm cp) (-(cp.offset0.toNat * 1250))
    rw [← sub_eq_add_neg, ← sub_eq_add_neg] at hw
    simp only [Nat.cast_mul, Nat.cast_ofNat]
    rw [hc, neg_add', ← mul_neg, ← hw]
    generalize u32 _ = w
    have hmod := Nat.mod_add_div w (n * 1250)
    have hlt := Nat.mod_lt w (show 0 < n * 1250 by omega)
    have hr : n * 1250 * (w / (n * 1250)) = w / (n * 1250) * n * 1250 := by ring
    refine ⟨by omega, -1 - (w / (n * 1250) : Nat), ?_⟩
    have hq : (-1 - ((w / (n * 1250) : Nat) : Int)) * n = -n - (w / (n * 1250) * n : Nat) := by
      push_cast
      ring
    rw [hq]
    omega

/-- The offset is at most the new interval, and right if and only if whole new
intervals were lost. -/
theorem connUpdMake_aligned_iff (h0 : cp.offset0 ≠ 0xFFFF) (hn : 0 < cp.intervalMax.toNat) :
    (connUpdMake connsm (some cp)).winoffset.toNat ≤ cp.intervalMax.toNat ∧
    (Aligned connsm cp (connUpdMake connsm (some cp)) ↔ LosesIntervals connsm cp) := by
  obtain ⟨hle, q, hq⟩ := distance_eq connsm hn
  have hlt := cp.intervalMax.toNat_lt
  have hwin : (connUpdMake connsm (some cp)).winoffset.toNat =
      distance connsm cp / itvlUsecs := by
    rw [connUpdMake, if_pos h0, UInt16.toNat_ofNat', Nat.mod_eq_of_lt (by omega)]
  refine ⟨hwin ▸ hle, ?_⟩
  unfold Aligned LosesIntervals
  rw [hwin]
  exact aligned_iff hq

/-- The reference event is three events behind the instant, where the counter
has wrapped: 18 units were wanted. -/
theorem connUpdMake_wraps : ∃ (connsm : ConnSm) (cp : ConnParams),
    6 ≤ connsm.connItvl ∧ connsm.connItvl ≤ 3200 ∧ 6 ≤ cp.intervalMax ∧ cp.intervalMax ≤ 3200 ∧
    cp.offset0 ≠ 0xFFFF ∧ wanted connsm cp = 18 ∧
    (connUpdMake connsm (some cp)).winoffset = 75 ∧
    ¬ Aligned connsm cp (connUpdMake connsm (some cp)) := by
  refine ⟨⟨65528, 0, 6, 1, ⟨0, 0, 0⟩⟩, ⟨100, 0, 100, 2, 0⟩, by decide, by decide, by decide, by decide,
    by decide, by decide, by decide, ?_⟩
  rintro ⟨k, hk⟩
  change |(75 * 1250 - 18 * 1250 : Int) - k * 100 * 1250| ≤ 1250 at hk
  rw [abs_le] at hk
  omega

/-- The same reference event without a wrap of the counter. -/
theorem connUpdMake_aligned_near :
    (100 : UInt16) ≠ 0xFFFF ∧ Aligned ⟨10, 0, 6, 1, ⟨0, 0, 0⟩⟩ ⟨100, 0, 100, 20, 100⟩
      (connUpdMake ⟨10, 0, 6, 1, ⟨0, 0, 0⟩⟩ (some ⟨100, 0, 100, 20, 100⟩)) := by
  refine ⟨by decide, (connUpdMake_aligned_iff (by decide) (by decide)).2.mpr ⟨0, ?_⟩⟩
  decide

end Larva.Ble.UpdateOffset
