import Mathlib.Data.Nat.Nth
import Mathlib.Data.Nat.Prime.Basic
import Mathlib.Data.Vector.Basic
import Mathlib.Tactic.NormNum.Prime

/-!
# Data channel selection

`net/nimble/controller/src/ble_ll_conn.c`: the channel on which the next
connection event takes place. Both ends add the hop increment to the last
unmapped channel, modulo the 37 data channels; where the channel map rules
that channel out, the remainder by the number of used channels picks one of
the used ones.

The code computes the sum with one conditional subtraction that lets 37
itself stand, and its scan over the map returns the number of used channels
it has passed rather than the channel it has found. The first shows in every
37th event; the second wherever a channel is remapped and some channel up to
the remapping index is not used. `slave_channel_iff` says exactly when the
result is right all the same.

The channel map is five bytes of which the last three bits are reserved. They
are bits like the others to the code, so nothing here assumes they are clear.

A connection's timing (anchor points, window widening, the supervision timer)
and its control procedures do not touch the channel; of the fields that
decide how many events are passed at once, the flags and the pending
connection update are kept.
-/

namespace Larva.Ble

/-! ## The code -/

structure ConnUpdReq where
  instant : Nat
  latency : Nat
deriving DecidableEq

structure ConnSm where
  chanmap : Vector UInt8 5
  hopInc : Nat
  dataChanIndex : Nat
  unmappedChan : Nat
  lastUnmappedChan : Nat
  numUsedChans : Nat
  eventCntr : Nat
  slaveLatency : Nat
  allowSlaveLatency : Bool
  connUpdateScheduled : Bool
  pktRxd : Bool
  connUpdateReq : ConnUpdReq
deriving DecidableEq

/-- `BLE_PHY_NUM_DATA_CHANS`. -/
def numDataChans : Nat := 37

/-- The inner loop of `ble_ll_conn_calc_used_chans`, with `j` turns left. -/
def countBits (chanbyte : UInt8) : Nat → UInt8 → Nat → Nat
  | 0, _, used => used
  | j + 1, mask, used =>
    countBits chanbyte j (mask <<< 1) (if chanbyte &&& mask ≠ 0 then used + 1 else used)

def bleLlConnCalcUsedChans (chmap : Vector UInt8 5) : Nat :=
  chmap.toList.foldl (fun used chanbyte =>
    if chanbyte ≠ 0 then
      if chanbyte = 0xff then used + 8 else countBits chanbyte 8 1 used
    else used) 0

/-- The test of a channel's bit in the map. -/
def bitSet (chmap : Vector UInt8 5) (chan : Nat) : Bool :=
  chmap.toList.getD (chan >>> 3) 0 &&& (1 <<< UInt8.ofNat (chan &&& 7)) ≠ 0

/-- The inner loop of the scan: the answer, or the counter it ends with. -/
def scanBits (usable : UInt8) (remap : Nat) : Nat → UInt8 → Nat → Nat ⊕ Nat
  | 0, _, cntr => .inr cntr
  | j + 1, mask, cntr =>
    if usable &&& mask ≠ 0 then
      if cntr = remap then .inl cntr
      else scanBits usable remap j (mask <<< 1) (cntr + 1)
    else scanBits usable remap j (mask <<< 1) cntr

/-- The scan over the map for the used channel with a given number. What it
returns is the counter. -/
def scanMap (remap : Nat) : List UInt8 → Nat → Option Nat
  | [], _ => none
  | usable :: rest, cntr =>
    if usable ≠ 0 then
      match scanBits usable remap 8 1 cntr with
      | .inl chan => some chan
      | .inr cntr => scanMap remap rest cntr
    else scanMap remap rest cntr

/-- The sum of last channel and hop increment, in eight bits. -/
def nextChan (conn : ConnSm) : Nat :=
  let curchan := (conn.lastUnmappedChan + conn.hopInc) % 256
  if numDataChans < curchan then curchan - numDataChans else curchan

/-- The channel index, and the connection with its unmapped channel set. -/
def bleLlConnCalcDci (conn : ConnSm) : Nat × ConnSm :=
  let curchan := nextChan conn
  let conn := { conn with unmappedChan := curchan }
  if bitSet conn.chanmap curchan then (curchan, conn)
  else
    let remapIndex := curchan % conn.numUsedChans
    ((scanMap remapIndex conn.chanmap.toList 0).getD curchan, conn)

/-- The part of `ble_ll_conn_sm_new` that concerns the channel. -/
def bleLlConnSmNew (connsm : ConnSm) : ConnSm :=
  let connsm := { connsm with
    allowSlaveLatency := false, connUpdateScheduled := false
    pktRxd := false, eventCntr := 0, lastUnmappedChan := 0 }
  let (dci, connsm) := bleLlConnCalcDci connsm
  { connsm with dataChanIndex := dci }

/-- A peer: its address, and whether that is a random one. -/
abbrev Peer := List UInt8 × Bool

def le16At (bytes : List UInt8) (off : Nat) : Nat :=
  (bytes.getD off 0).toNat + 256 * (bytes.getD (off + 1) 0).toNat

/-- A connect request is taken up: the peer is not connected yet, a state
machine is free, and the parameters are acceptable. -/
def bleLlConnSlaveStart (active : List Peer) (free : Option ConnSm)
    (rxbuf : List UInt8) : Option ConnSm := do
  let inita := (rxbuf.drop 2).take 6
  let random : Bool := rxbuf.getD 0 0 &&& 0x40 ≠ 0
  if (inita, random) ∈ active then none
  else do
    let connsm ← free
    let dptr := rxbuf.drop 14
    let txWinSize := (dptr.getD 7 0).toNat
    let txWinOff := le16At dptr 8
    let connItvl := le16At dptr 10
    let slaveLatency := le16At dptr 12
    let supervisionTmo := le16At dptr 14
    let chanmap : Vector UInt8 5 :=
      #v[dptr.getD 16 0, dptr.getD 17 0, dptr.getD 18 0, dptr.getD 19 0, dptr.getD 20 0]
    let hopInc := (dptr.getD 21 0 &&& 0x1f).toNat
    let numUsedChans := bleLlConnCalcUsedChans chanmap
    if connItvl < txWinOff ∨ connItvl < 6 ∨ 0xc80 < connItvl ∨
        txWinSize < 1 ∨ 499 < slaveLatency then none
    else if supervisionTmo * 10000 ≤ (slaveLatency + 1) * (connItvl * 2) * 1250 then none
    else if min (connItvl - 1) 8 < txWinSize then none
    else if numUsedChans < 2 then none
    else some (bleLlConnSmNew { connsm with chanmap, hopInc, slaveLatency, numUsedChans })

/-- How many events `ble_ll_conn_next_event` passes, in sixteen bits. -/
def latency (connsm : ConnSm) : Nat :=
  if connsm.allowSlaveLatency ∧ ¬ connsm.connUpdateScheduled ∧
      connsm.pktRxd then (1 + connsm.slaveLatency) % 2 ^ 16
  else 1

/-- One turn of the loop that moves on to the next channel. -/
def hop (connsm : ConnSm) : ConnSm :=
  let connsm := { connsm with lastUnmappedChan := connsm.unmappedChan }
  let (dci, connsm) := bleLlConnCalcDci connsm
  { connsm with dataChanIndex := dci }

/-- A scheduled connection update takes effect when its instant is there. -/
def applyUpdate (connsm : ConnSm) : ConnSm :=
  if connsm.connUpdateScheduled ∧ connsm.eventCntr = connsm.connUpdateReq.instant then
    { connsm with slaveLatency := connsm.connUpdateReq.latency
                  connUpdateScheduled := false }
  else connsm

def bleLlConnNextEvent (connsm : ConnSm) : ConnSm :=
  hop^[latency connsm] (applyUpdate { connsm with
    eventCntr := (connsm.eventCntr + latency connsm) % 2 ^ 16 })

/-! ## Runs of a connection -/

/-- What happens between two events leaves the fields of the channel
selection alone, and may do anything to the others. -/
structure SameChannel (c c' : ConnSm) : Prop where
  chanmap : c'.chanmap = c.chanmap
  hopInc : c'.hopInc = c.hopInc
  dataChanIndex : c'.dataChanIndex = c.dataChanIndex
  unmappedChan : c'.unmappedChan = c.unmappedChan
  numUsedChans : c'.numUsedChans = c.numUsedChans

/-- The connections that a connection just started becomes, with the number
of events passed. -/
inductive Runs (c₀ : ConnSm) : Nat → ConnSm → Prop
  | start : Runs c₀ 0 c₀
  | between {n c c'} (h : Runs c₀ n c) (hs : SameChannel c c') : Runs c₀ n c'
  | event {n c} (h : Runs c₀ n c) : Runs c₀ (n + latency c) (bleLlConnNextEvent c)

/-! ## What the selection is for -/

/-- A data channel that the map lets through. -/
def Used (chmap : Vector UInt8 5) (chan : Nat) : Prop :=
  chan < numDataChans ∧ bitSet chmap chan = true

instance (chmap : Vector UInt8 5) : DecidablePred (Used chmap) :=
  fun _ => inferInstanceAs (Decidable (_ ∧ _))

/-- The channel both ends have to agree on: the unmapped channel where it is
used, otherwise the used channel whose number is the remainder. -/
noncomputable def chosen (chmap : Vector UInt8 5) (unmapped : Nat) : Nat :=
  if Used chmap unmapped then unmapped
  else Nat.nth (Used chmap) (unmapped % Nat.count (Used chmap) numDataChans)

/-- Channel and index agree: exactly as many used channels lie below the
channel `r` as the remainder says, and `r` is one itself. -/
def OwnIndex (chmap : Vector UInt8 5) (unmapped r : Nat) : Prop :=
  Used chmap r ∧ Nat.count (Used chmap) r = unmapped % Nat.count (Used chmap) numDataChans

instance (chmap : Vector UInt8 5) (unmapped r : Nat) :
    Decidable (OwnIndex chmap unmapped r) :=
  inferInstanceAs (Decidable (_ ∧ _))

/-! ## The two scans over the map -/

section Scan

variable {chmap : Vector UInt8 5} {b : UInt8} {remap cntr : Nat}

/-- The masks that an inner loop goes through. -/
def masks : Nat → UInt8 → List UInt8
  | 0, _ => []
  | j + 1, mask => mask :: masks j (mask <<< 1)

def bitCount (b : UInt8) : Nat :=
  (masks 8 1).countP fun mask => b &&& mask ≠ 0

theorem countBits_eq (j : Nat) (mask : UInt8) (used : Nat) : countBits b j mask used
      = used + (masks j mask).countP fun mask => b &&& mask ≠ 0 := by
  induction j generalizing mask used with
  | zero => rfl
  | succ j ih =>
    rw [countBits, masks, ih, List.countP_cons]
    by_cases h : b &&& mask = 0
    · simp [h]
    · simp only [ne_eq, h, not_false_eq_true, if_true, decide_true]
      omega

theorem usedChans_eq_sum : bleLlConnCalcUsedChans chmap = (chmap.toList.map bitCount).sum := by
  have hbyte : ∀ (l : List UInt8) used, l.foldl (fun used chanbyte =>
      if chanbyte ≠ 0 then
        if chanbyte = 0xff then used + 8 else countBits chanbyte 8 1 used
      else used) used = used + (l.map bitCount).sum := by
    intro l
    induction l with
    | nil => intro used; rfl
    | cons b l ih =>
      intro used
      rw [List.foldl_cons, ih, List.map_cons, List.sum_cons, ← add_assoc]
      congr 1
      split
      · split
        · next h => subst h; rfl
        · exact countBits_eq 8 1 used
      · next h =>
        obtain rfl : b = 0 := not_not.mp h
        rfl
  rw [bleLlConnCalcUsedChans, hbyte, zero_add]

/-- The scan of one byte stops at the bit it looks for, if that is one of the
byte's, and returns the number it looked for. -/
theorem scanBits_eq (j : Nat) (mask : UInt8) (h : cntr ≤ remap) : scanBits b remap j mask cntr =
      if remap < cntr + (masks j mask).countP (fun mask => b &&& mask ≠ 0)
      then .inl remap
      else .inr (cntr + (masks j mask).countP fun mask => b &&& mask ≠ 0) := by
  induction j generalizing mask cntr with
  | zero => rw [scanBits, masks, List.countP_nil, if_neg (by omega)]; rfl
  | succ j ih =>
    rw [scanBits, masks, List.countP_cons]
    by_cases hb : b &&& mask = 0
    · have hdec : decide (b &&& mask ≠ 0) = false := by simp [hb]
      rw [if_neg (not_not.mpr hb), hdec]
      exact ih (mask <<< 1) h
    · have hdec : decide (b &&& mask ≠ 0) = true := by simp [hb]
      rw [if_pos hb, hdec, if_pos rfl]
      split
      · next he => rw [if_pos (by omega), he]
      · rw [ih (mask <<< 1) (by omega), add_right_comm cntr 1, add_assoc cntr]

theorem scanMap_eq (bytes : List UInt8) (h : cntr ≤ remap)
    (hlt : remap < cntr + (bytes.map bitCount).sum) : scanMap remap bytes cntr = some remap := by
  induction bytes generalizing cntr with
  | nil =>
    simp only [List.map_nil, List.sum_nil] at hlt
    omega
  | cons b bytes ih =>
    rw [List.map_cons, List.sum_cons] at hlt
    rw [scanMap]
    split
    · rw [scanBits_eq 8 1 h]
      change (match if remap < cntr + bitCount b then Sum.inl remap
        else Sum.inr (cntr + bitCount b) with
        | .inl chan => some chan
        | .inr cntr => scanMap remap bytes cntr) = some remap
      split
      · next heq =>
        split at heq
        · cases heq; rfl
        · cases heq
      · next heq =>
        split at heq
        · cases heq
        · cases heq
          exact ih (by omega) (by omega)
    · next hb =>
      obtain rfl : b = 0 := not_not.mp hb
      have hz : bitCount 0 = 0 := by decide
      exact ih h (by omega)

end Scan

/-! ## One hop -/

/-- The channel index the code computes for an unmapped channel. -/
def picked (chmap : Vector UInt8 5) (unmapped : Nat) : Nat :=
  if bitSet chmap unmapped then unmapped
  else unmapped % bleLlConnCalcUsedChans chmap

/-- The unmapped channel the code reaches in `k` hops: from 1 to 37. -/
def hopped (inc k : Nat) : Nat :=
  if inc = 0 then 0 else (k * inc - 1) % numDataChans + 1

/-- The fields of the channel selection after `n` events. -/
structure Hopped (c₀ : ConnSm) (n : Nat) (c : ConnSm) : Prop where
  chanmap : c.chanmap = c₀.chanmap
  hopInc : c.hopInc = c₀.hopInc
  numUsedChans : c.numUsedChans = c₀.numUsedChans
  unmappedChan : c.unmappedChan = hopped c₀.hopInc (n + 1)
  dataChanIndex : c.dataChanIndex = picked c₀.chanmap c.unmappedChan

/-- What `ble_ll_conn_slave_start` makes sure of. -/
structure Accepted (c : ConnSm) : Prop where
  hopInc : c.hopInc < 32
  numUsedChans : c.numUsedChans = bleLlConnCalcUsedChans c.chanmap
  two : 2 ≤ c.numUsedChans

section Hops

variable {c c' c₀ : ConnSm} {n inc k : Nat}

theorem calcDci_fst (hc : Accepted c) : (bleLlConnCalcDci c).1 = picked c.chanmap (nextChan c) := by
  unfold bleLlConnCalcDci picked
  have htwo := hc.two
  have hn := hc.numUsedChans
  have hlt : nextChan c % c.numUsedChans < 0 + (c.chanmap.toList.map bitCount).sum := by
    rw [zero_add, ← usedChans_eq_sum, ← hn]
    exact Nat.mod_lt _ (by omega)
  simp only
  split
  · rfl
  · rw [scanMap_eq _ (Nat.zero_le _) hlt, Option.getD_some, hn]

theorem calcDci_snd : (bleLlConnCalcDci c).2 = { c with unmappedChan := nextChan c } := by
  unfold bleLlConnCalcDci
  simp only
  split <;> rfl

theorem hopped_succ (hinc : inc < 32) (hk : 0 < k) :
    (if numDataChans < (hopped inc k + inc) % 256 then (hopped inc k + inc) % 256 - numDataChans
      else (hopped inc k + inc) % 256) = hopped inc (k + 1) := by
  unfold hopped numDataChans
  by_cases h0 : inc = 0
  · rw [h0]
    rfl
  · have hpos : 0 < k * inc := Nat.mul_pos hk (Nat.pos_of_ne_zero h0)
    rw [if_neg h0, if_neg h0, add_mul, one_mul]
    split <;> omega

theorem hopped_one (hinc : inc < 32) :
    (if numDataChans < (0 + inc) % 256 then (0 + inc) % 256 - numDataChans
      else (0 + inc) % 256) = hopped inc 1 := by
  unfold hopped numDataChans
  split <;> split <;> omega

section

variable (h : Hopped c₀ n c) (ha : Accepted c₀)
include h ha

theorem Hopped.accepted : Accepted c where
  hopInc := h.hopInc ▸ ha.hopInc
  numUsedChans := by rw [h.numUsedChans, h.chanmap]; exact ha.numUsedChans
  two := h.numUsedChans ▸ ha.two

theorem Hopped.hop : Hopped c₀ (n + 1) (hop c) := by
  have hnext : nextChan { c with lastUnmappedChan := c.unmappedChan }
      = hopped c₀.hopInc (n + 1 + 1) := by
    simp only [h.unmappedChan, h.hopInc]
    exact hopped_succ ha.hopInc (Nat.succ_pos n)
  have hacc := h.accepted ha
  have hdci := calcDci_fst (c := { c with lastUnmappedChan := c.unmappedChan }) { hacc with }
  have hsm := calcDci_snd (c := { c with lastUnmappedChan := c.unmappedChan })
  unfold Ble.hop
  simp only [hsm]
  rw [hdci, hnext]
  exact ⟨h.chanmap, h.hopInc, h.numUsedChans, rfl, by simp only [h.chanmap]⟩

theorem Hopped.iterate (k : Nat) : Hopped c₀ (n + k) (Ble.hop^[k] c) := by
  induction k with
  | zero => exact h
  | succ k ih =>
    rw [Function.iterate_succ_apply']
    exact ih.hop ha

end

theorem Hopped.same (h : Hopped c₀ n c) (hs : SameChannel c c') : Hopped c₀ n c' where
  chanmap := hs.chanmap.trans h.chanmap
  hopInc := hs.hopInc.trans h.hopInc
  numUsedChans := hs.numUsedChans.trans h.numUsedChans
  unmappedChan := hs.unmappedChan.trans h.unmappedChan
  dataChanIndex := by
    rw [hs.dataChanIndex, hs.unmappedChan]
    exact h.dataChanIndex

theorem sameChannel_applyUpdate : SameChannel c (applyUpdate { c with eventCntr := k }) := by
  unfold applyUpdate
  split <;> constructor <;> rfl

/-- The selection after any run. -/
theorem Runs.hopped (hr : Runs c₀ n c) (ha : Accepted c₀)
    (h0 : Hopped c₀ 0 c₀) : Hopped c₀ n c := by
  induction hr with
  | start => exact h0
  | between _ hs ih => exact ih.same hs
  | event _ ih => exact (ih.same sameChannel_applyUpdate).iterate ha _

theorem hopped_smNew (ha : Accepted c) : Accepted (bleLlConnSmNew c) ∧
      Hopped (bleLlConnSmNew c) 0 (bleLlConnSmNew c) := by
  have hdci := calcDci_fst (c := { c with
    allowSlaveLatency := false, connUpdateScheduled := false
    pktRxd := false, eventCntr := 0, lastUnmappedChan := 0 })
    { ha with }
  unfold bleLlConnSmNew
  simp only [calcDci_snd]
  rw [hdci]
  refine ⟨{ ha with }, rfl, rfl, rfl, ?_, rfl⟩
  exact hopped_one ha.hopInc

theorem slaveStart_accepted {active : List Peer} {free : Option ConnSm}
    {rxbuf : List UInt8} (h : bleLlConnSlaveStart active free rxbuf = some c) :
    Accepted c ∧ Hopped c 0 c := by
  unfold bleLlConnSlaveStart at h
  simp only at h
  split at h
  · cases h
  cases free with
  | none => cases h
  | some connsm =>
    split at h
    · cases h
    split at h
    · cases h
    split at h
    · cases h
    split at h
    · cases h
    · next hn =>
      obtain rfl := Option.some.inj h
      refine hopped_smNew ⟨?_, rfl, Nat.le_of_not_lt hn⟩
      exact Nat.and_lt_two_pow (n := 5) _ (by decide)

end Hops

/-! ## When the channel is the right one -/

section Right

variable {c c₀ : ConnSm} {chmap : Vector UInt8 5} {n inc k u r : Nat}

/-- The residue 0 is missed, except by a hop increment of 0. -/
theorem hopped_eq_iff (hinc : inc < 32) (hk : 0 < k) : hopped inc k = k * inc % numDataChans ↔
      inc = 0 ∨ ¬ numDataChans ∣ k := by
  unfold hopped
  by_cases h0 : inc = 0
  · simp [h0]
  have hdvd : numDataChans ∣ k * inc ↔ numDataChans ∣ k := by
    have hp : Nat.Prime numDataChans := by norm_num [numDataChans]
    have hninc : ¬ numDataChans ∣ inc := by
      intro h
      have := Nat.le_of_dvd (Nat.pos_of_ne_zero h0) h
      unfold numDataChans at this
      omega
    rw [hp.dvd_mul]
    exact or_iff_left hninc
  rw [if_neg h0, ← hdvd, Nat.dvd_iff_mod_eq_zero]
  unfold numDataChans
  omega

theorem count_nth_used {j : Nat} (hj : j < Nat.count (Used chmap) numDataChans) :
    Nat.count (Used chmap) (Nat.nth (Used chmap) j) = j := by
  exact Nat.count_nth fun hf => hj.trans_le (Nat.count_le_card hf _)

theorem count_used_pos (h : Used chmap r) :
    0 < Nat.count (Used chmap) numDataChans :=
  (Nat.zero_le _).trans_lt (Nat.count_strict_mono h h.1)

theorem used_and_chosen_iff (hu : ¬ Used chmap u) :
    Used chmap r ∧ r = chosen chmap u ↔ OwnIndex chmap u r := by
  unfold chosen OwnIndex
  rw [if_neg hu]
  refine and_congr_right fun hr => ⟨fun h => ?_, fun h => ?_⟩
  · rw [h]
    exact count_nth_used (Nat.mod_lt _ (count_used_pos hr))
  · rw [← h]
    exact (Nat.nth_count hr).symm

/-- A connection that a connect request started, after any number of events.
Its unmapped channel and channel index are the right ones exactly when the
sum has not just come round to a multiple of 37, and the unmapped channel is
used or the index it is remapped to is its own number. -/
theorem slave_channel_iff {active : List Peer} {free : Option ConnSm}
    {rxbuf : List UInt8} (hs : bleLlConnSlaveStart active free rxbuf = some c₀) (hr : Runs c₀ n c) :
    (c.unmappedChan = (n + 1) * c₀.hopInc % numDataChans ∧ Used c₀.chanmap c.dataChanIndex ∧
      c.dataChanIndex = chosen c₀.chanmap ((n + 1) * c₀.hopInc % numDataChans)) ↔
    (c₀.hopInc = 0 ∨ ¬ numDataChans ∣ n + 1) ∧
      (Used c₀.chanmap ((n + 1) * c₀.hopInc % numDataChans) ∨
        OwnIndex c₀.chanmap ((n + 1) * c₀.hopInc % numDataChans) ((n + 1) * c₀.hopInc % numDataChans
            % bleLlConnCalcUsedChans c₀.chanmap)) := by
  obtain ⟨ha, h0⟩ := slaveStart_accepted hs
  have h := hr.hopped ha h0
  have hdci := h.dataChanIndex
  rw [h.unmappedChan, hopped_eq_iff ha.hopInc (Nat.succ_pos n)]
  refine and_congr_right fun hsum => ?_
  rw [h.unmappedChan, (hopped_eq_iff ha.hopInc (Nat.succ_pos n)).mpr hsum] at hdci
  have hlt : (n + 1) * c₀.hopInc % numDataChans < numDataChans :=
    Nat.mod_lt _ (by decide)
  generalize (n + 1) * c₀.hopInc % numDataChans = u at hdci hlt ⊢
  unfold picked at hdci
  by_cases hu : Used c₀.chanmap u
  · rw [if_pos hu.2] at hdci
    have hch : chosen c₀.chanmap u = u := if_pos hu
    rw [hdci, hch]
    exact ⟨fun _ => .inl hu, fun _ => ⟨hu, rfl⟩⟩
  · rw [if_neg fun hb => hu ⟨hlt, hb⟩] at hdci
    rw [hdci, used_and_chosen_iff hu]
    exact (or_iff_right hu).symm

/-- A free state machine. -/
def blank : ConnSm where
  chanmap := #v[0, 0, 0, 0, 0]
  hopInc := 0
  dataChanIndex := 0
  unmappedChan := 0
  lastUnmappedChan := 0
  numUsedChans := 0
  eventCntr := 0
  slaveLatency := 0
  allowSlaveLatency := false
  connUpdateScheduled := false
  pktRxd := false
  connUpdateReq := ⟨0, 0⟩

/-- A connect request: interval 24, slave latency 35, timeout 300. -/
def connectReq (chmap : List UInt8) (hopInc : UInt8) : List UInt8 :=
  List.replicate 21 0 ++ [2, 0, 0, 24, 0, 35, 0, 44, 1] ++ chmap ++ [hopInc]

/-- The connection it starts. -/
def started (chmap : List UInt8) (hopInc : UInt8) : ConnSm :=
  (bleLlConnSlaveStart [] (some blank) (connectReq chmap hopInc)).getD blank

/-- Channels 0 to 3 are used: channel 10 is remapped to 10 mod 4, and the
used channel with that number is channel 2. -/
theorem slave_channel_second :
    let c := started [0x0f, 0, 0, 0, 0] 5
    let d := bleLlConnNextEvent c
    Runs c 1 d ∧ d.unmappedChan = 2 * c.hopInc % numDataChans ∧ Used c.chanmap d.dataChanIndex ∧
      d.dataChanIndex = chosen c.chanmap (2 * c.hopInc % numDataChans) := by
  intro c d
  have hs : bleLlConnSlaveStart [] (some blank) (connectReq [0x0f, 0, 0, 0, 0] 5) = some c := by
    decide +kernel
  have hr : Runs c 1 d := Runs.event .start
  exact ⟨hr, (slave_channel_iff hs hr).mpr ⟨by decide +kernel, by decide +kernel⟩⟩

/-- Channels 8 to 36 are used and the first event hops to channel 5: it is
remapped to channel 5, which is not used. With all channels used, the
unmapped channel after 36 more events is 37, not 0. -/
theorem remap_returns_counter :
    let c := started [0, 0xff, 0xff, 0xff, 0x1f] 5
    let d := started [0xff, 0xff, 0xff, 0xff, 0x1f] 5
    bleLlConnSlaveStart [] (some blank) (connectReq [0, 0xff, 0xff, 0xff, 0x1f] 5) = some c ∧
      Runs c 0 c ∧ c.dataChanIndex = 5 ∧ ¬ Used c.chanmap 5 ∧
    bleLlConnSlaveStart [] (some blank) (connectReq [0xff, 0xff, 0xff, 0xff, 0x1f] 5) = some d ∧
      ∃ d', Runs d 36 d' ∧ d'.unmappedChan = 37 := by
  intro c d
  have hheard : Runs d 0
      { d with allowSlaveLatency := true, pktRxd := true } :=
    .between .start ⟨rfl, rfl, rfl, rfl, rfl⟩
  have hskip := hheard.event
  exact ⟨by decide +kernel, .start, by decide +kernel, by decide +kernel,
    by decide +kernel, _, hskip, by decide +kernel⟩

end Right

end Larva.Ble
