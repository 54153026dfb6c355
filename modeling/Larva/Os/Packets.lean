import Larva.Os.MbufHeld

/-!
# The length in the packet header

A packet is a chain whose first mbuf carries a header, and the header's
`omp_len` is meant to be the number of bytes in the chain. Append, extend,
prepend, adjust and concatenate keep it so, also when they stop half-way for
lack of mbufs, because each of them moves the length by exactly what it has
moved the data (`Became`).

The other three operations do not always. The duplicate of a packet is not a
packet: the header's bytes are copied but the length of the header is not.
Neither is a packet that was pulled up into a new mbuf. And
`os_mbuf_copyinto` appends to the last mbuf of the chain, which only updates
the header if that mbuf is the first one too; what it then writes to `omp_len`
is the offset and the length of the appended part, without the part that was
overwritten. `PktOp.Keeps` says of a call, by the state before it, that none
of this happens.
-/

namespace Larva.Os.Mbufs

open Larva.Bytes Larva.Crash Larva.SList MbufM List Option

/-! ## Calls on packets -/

/-- A call on the packets a caller holds, by their place in the list;
`concatRaw` appends a chain without a packet header. -/
inductive PktOp where
  | append (i : Nat) (data : List UInt8)
  | extend (i len : Nat)
  | prepend (i len : Nat)
  | adj (i : Nat) (len : Int)
  | copyinto (i off : Nat) (src : List UInt8)
  | concat (i j : Nat)
  | concatRaw (i j : Nat)
  | pullup (i len : Nat)
  | dup (i : Nat)

/-- The heads of packets, and of chains without a header. -/
structure PktHeld where
  pkts : List Nat
  raws : List Nat
deriving DecidableEq

namespace PktOp

def run (held : PktHeld) : PktOp → MbufM PktHeld
  | append i data => match held.pkts[i]? with
      | none => pure held
      | some om => do
          let _ ← osMbufAppend (some om) data
          pure held
  | extend i len => match held.pkts[i]? with
      | none => pure held
      | some om => do
          let _ ← osMbufExtend om len
          pure held
  | prepend i len => match held.pkts[i]? with
      | none => pure held
      | some om => do
          let om ← osMbufPrepend om len
          pure { held with pkts := MbufOp.putBack held.pkts i om }
  | adj i len => match held.pkts[i]? with
      | none => pure held
      | some om => do
          osMbufAdj (some om) len
          pure held
  | copyinto i off src => match held.pkts[i]? with
      | none => pure held
      | some om => do
          let _ ← osMbufCopyinto om off src
          pure held
  | concat i j => match held.pkts[i]?, held.pkts[j]? with
      | some first, some second => do
          osMbufConcat first second
          pure { held with pkts := held.pkts.eraseIdx j }
      | _, _ => pure held
  | concatRaw i j => match held.pkts[i]?, held.raws[j]? with
      | some first, some second => do
          osMbufConcat first second
          pure { held with raws := held.raws.eraseIdx j }
      | _, _ => pure held
  | pullup i len => match held.pkts[i]? with
      | none => pure held
      | some om => do
          let om ← osMbufPullup om len
          pure { held with pkts := MbufOp.putBack held.pkts i om }
  | dup i => match held.pkts[i]? with
      | none => pure held
      | some om => do
          match ← osMbufDup om with
          | none => pure held
          | some om => pure { held with pkts := held.pkts ++ [om] }

end PktOp

/-! ## When the length is kept -/

/-- The sum of `om_len` over the chain at `om`. -/
def pktLen (s : MbufSt) (om : Nat) : Nat :=
  ((chainAt s om).map fun a => (s.mbuf a).omLen).sum

/-- The free mbufs of the pool that `om` is from. -/
def poolFree (s : MbufSt) (om : Nat) : Nat :=
  match s.pools[(s.mbuf om).omOmp]? with
  | some q => q.mpFree.length
  | none => 0

/-- There are too few mbufs for a duplicate, and the buffers are of one
size. -/
def DupFails (s : MbufSt) (om : Nat) : Prop :=
  (∀ x ∈ chainAt s om, (s.mbuf x).omOmp = (s.mbuf om).omOmp) ∧ poolFree s om < (chainAt s om).length

/-- The wanted bytes are not in the packet, or not to be had in one mbuf. -/
def PullupFails (s : MbufSt) (om len : Nat) : Prop :=
  pktLen s om < len ∨ ∀ q, s.pools[(s.mbuf om).omOmp]? = some q → NoHead s om len q

/-- The number of bytes that `os_mbuf_copyinto` has to append. -/
def restLen (s : MbufSt) (om off : Nat) (src : List UInt8) : Nat :=
  src.length - overwritable s (chainAt s om) off

/-- The number of bytes that can be appended. -/
def roomAt (s : MbufSt) (om : Nat) : Nat :=
  match (chainAt s om).getLast? with
  | some z => roomFor s (s.mbuf z).omOmp z
  | none => 0

/-- Nothing is to be appended, or it is appended where the header is updated,
or where the offset is the packet's length, or nothing can be appended. -/
def CopyKeeps (s : MbufSt) (om off : Nat) (src : List UInt8) : Prop :=
  pktLen s om < off ∨ restLen s om off src = 0 ∨ ((chainAt s om).length = 1 ∧
      (restLen s om off src < 2 ^ 16 ∨ off = pktLen s om ∨
        roomAt s om < restLen s om off src % 2 ^ 16)) ∨
    (off = pktLen s om ∧ restLen s om off src % 2 ^ 16 ≤ roomAt s om) ∨
    (roomAt s om = 0 ∧ restLen s om off src % 2 ^ 16 ≠ 0)

/-- By the state before the call, it leaves every packet with a header that
has the packet's length. -/
def PktOp.Keeps (s : MbufSt) (pkts : List Nat) : PktOp → Prop
  | .copyinto i off src => ∀ om, pkts[i]? = some om → CopyKeeps s om off src
  | .pullup i len => ∀ om, pkts[i]? = some om → InPlace s om len ∨ PullupFails s om len
  | .dup i => ∀ om, pkts[i]? = some om → DupFails s om
  | .concat i j => i ≠ j
  | _ => True

/-! ## Packets -/

/-- The chain is a packet, and its header has its length. -/
def Good (s : MbufSt) (x : Nat × List Nat) : Prop :=
  ∃ r, (s.mbuf x.1).hdr = some ((contents s x.2).length, r)

structure Pkts (s : MbufSt) (w v : Chains) : Prop where
  held : Held s (w ++ v)
  good : ∀ x ∈ w, Good s x
  raw : ∀ x ∈ v, (s.mbuf x.1).hdr = none

section Packets

variable {s s' : MbufSt} {w v : Chains} {i j k a b off : Nat} {l l' : List Nat}
  {x y z : Nat × List Nat} {c : List UInt8} {d : Int}

theorem pktLen_eq (ho : Owned s l) (hc : Chain s (some a) l) :
    pktLen s a = (contents s l).length := by
  unfold pktLen
  rw [chainAt_eq ho hc, length_contents ho.ok]

/-- A chain of mbufs that are as they were. -/
theorem Good.congr (h : Good s x) (hc : Chain s (some x.1) x.2)
    (hsame : ∀ b ∈ x.2, s'.mbuf b = s.mbuf b) : Good s' x := by
  obtain ⟨r, hr⟩ := h
  refine ⟨r, ?_⟩
  rw [hsame x.1 hc.head_mem, hr, contents_same hsame]

/-- The length has moved with the data; `l0` is what the header counts. -/
theorem Became.good {l0 : List Nat} (hg : Good s (a, l0)) (h : Became s a l s' b l' c d)
    (hd : d = c.length - ((Mbufs.contents s l0).length : Int))
    (hsmall : (Mbufs.contents s' l').length < 2 ^ 16) : Good s' (b, l') := by
  obtain ⟨r, hr⟩ := hg
  refine ⟨r, ?_⟩
  rw [h.contents] at hsmall
  have hlen : u16 (((Mbufs.contents s l0).length) + d) = c.length := by
    unfold u16
    omega
  rw [h.hdr, h.contents, hr, map_some, Mbuf.shiftLen, hlen]

theorem getElem?_raws (h : v[k]? = some z) : (w ++ v)[w.length + k]? = some z := by
  rw [getElem?_append_right (Nat.le_add_right ..), Nat.add_sub_cancel_left]
  exact h

theorem getElem?_pkts (h : w[k]? = some z) : (w ++ v)[k]? = some z := by
  rw [getElem?_append_left (List.getElem?_eq_some_iff.mp h).1]
  exact h

theorem set_subset : w.set i y ⊆ y :: w := by
  intro z hz
  rcases mem_or_eq_of_mem_set hz with hz | rfl
  · exact mem_cons_of_mem y hz
  · exact mem_cons_self

theorem lt_of_getElem? (h : w[k]? = some z) : k < w.length :=
  (List.getElem?_eq_some_iff.mp h).1

theorem Held.apart (h : Held s (w ++ v)) (hx : x ∈ w) : x ∉ v := by
  intro hv
  have hn := h.owned.nodup_right
  rw [Chains.mbufs, flatMap_append] at hn
  have hm := (h.chain x (mem_append_left v hx)).head_mem
  exact (nodup_append.mp hn).2.2 _ (mem_flatMap.mpr ⟨x, hx, hm⟩) _ (mem_flatMap.mpr ⟨x, hv, hm⟩) rfl

/-- A packet whose mbufs are as they were is still one, and so is a chain
without a header. -/
theorem Pkts.changed {w' v' t : Chains} (h : Pkts s w v)
    (hs : Changes s (w ++ v) s' (w' ++ v') t) (ht : t ⊆ w') (hw : w' ⊆ t ++ w) (hv : v' ⊆ v)
    (hg : ∀ z ∈ t, Good s' z) : Pkts s' w' v' := by
  refine ⟨hs.held, fun z hz => ?_, fun z hz => ?_⟩
  · rcases mem_append.mp (hw hz) with hzt | hzw
    · exact hg z hzt
    · rcases hs.same z (mem_append_left v' hz) with hzt | hsame
      · exact hg z hzt
      · exact (h.good z hzw).congr (h.held.chain z (mem_append_left v hzw)) hsame
  · rcases hs.same z (mem_append_right w' hz) with hzt | hsame
    · exact absurd hz (hs.held.apart (ht hzt))
    · rw [hsame z.1 (h.held.chain z (mem_append_right w (hv hz))).head_mem]
      exact h.raw z (hv hz)

theorem addedLen_good (h : Good s (a, l)) : addedLen s a l = (contents s l).length := by
  obtain ⟨r, hr⟩ := h
  obtain ⟨hp, hlen⟩ := Mbuf.hdr_some hr
  unfold addedLen
  rw [if_pos hp, hlen]

theorem addedLen_raw (h : (s.mbuf a).hdr = none) : addedLen s a l = (contents s l).length := by
  unfold addedLen
  rw [if_neg]
  rw [Mbuf.isPkthdr_eq, h]
  decide

/-- All packets are below 65536 bytes. -/
def Small (s : MbufSt) (w : Chains) : Prop :=
  ∀ x ∈ w, (contents s x.2).length < 2 ^ 16

/-- What a call makes of the packets and of the other chains. -/
def Outcome (held : PktHeld) (s : MbufSt) : Prop :=
  ∃ w v : Chains, held = ⟨w.heads, v.heads⟩ ∧ Held s (w ++ v) ∧ (Small s w → Pkts s w v)

section

variable (h : Pkts s w v)
include h

theorem Pkts.outcome : Outcome ⟨w.heads, v.heads⟩ s :=
  ⟨w, v, rfl, h.held, fun _ => h⟩

/-- One packet is new. -/
theorem Pkts.outcome_changed {w' v' : Chains} (hs : Changes s (w ++ v) s' (w' ++ v') [y])
    (hy : y ∈ w') (hw : w' ⊆ y :: w) (hv : v' ⊆ v)
    (hg : (contents s' y.2).length < 2 ^ 16 → Good s' y) : Outcome ⟨w'.heads, v'.heads⟩ s' := by
  refine ⟨w', v', rfl, hs.held, fun hsmall =>
    h.changed hs (by simpa using hy) hw hv fun z hz => ?_⟩
  rw [mem_singleton.mp hz]
  exact hg (hsmall y hy)

/-- One packet changes. -/
theorem Pkts.outcome_set (hi : w[i]? = some x) (hm : Moves s x.2 s' y.2)
    (hc : Chain s' (some y.1) y.2) (hg : (contents s' y.2).length < 2 ^ 16 → Good s' y) :
    Outcome ⟨w.heads.set i y.1, v.heads⟩ s' := by
  have hs := h.held.steps_set (getElem?_pkts hi) hm hc
  rw [set_append_left i y (lt_of_getElem? hi)] at hs
  rw [← heads_set]
  exact h.outcome_changed hs (mem_set (lt_of_getElem? hi) y) set_subset (Subset.refl v) hg

/-- A packet whose length has moved with its data, under its old head. -/
theorem Pkts.outcome_became (hi : w[i]? = some (a, l)) (hb : Became s a l s' a l' c d)
    (hd : d = c.length - ((contents s l).length : Int)) : Outcome ⟨w.heads, v.heads⟩ s' := by
  have ho := h.outcome_set (y := (a, l')) hi hb.moves hb.chain
    (hb.good (h.good _ (mem_of_getElem? hi)) hd)
  rwa [← heads_set, heads_set_self hi] at ho

/-- A packet that was returned under another head, or freed. -/
theorem Pkts.outcome_putBack {r : Option Nat} (hi : w[i]? = some (a, l)) (hr : match r with
      | none => Moves s l s' []
      | some b => ∃ l', Moves s l s' l' ∧ Chain s' (some b) l' ∧
          ((contents s' l').length < 2 ^ 16 → Good s' (b, l'))) :
    Outcome ⟨MbufOp.putBack w.heads i r, v.heads⟩ s' := by
  cases r with
  | none =>
    have hs := h.held.steps_erase (getElem?_pkts hi) hr
    rw [eraseIdx_append_of_lt_length (lt_of_getElem? hi)] at hs
    have hp := h.changed hs (nil_subset _) (eraseIdx_subset ..) (Subset.refl v) (by simp)
    rw [MbufOp.putBack, ← heads_eraseIdx]
    exact hp.outcome
  | some b =>
    obtain ⟨l', hm, hc, hg⟩ := hr
    exact h.outcome_set (y := (b, l')) hi hm hc hg

/-- A call on one packet. -/
theorem wp_onPkt {α : Type} {Q : Post MbufSt Empty α} {k : Nat → MbufM α} {m : MbufM α}
    (hnone : Wp m Q s) (hk : ∀ a l, w[i]? = some (a, l) → w.heads[i]? = some a →
      Owned s l → Chain s (some a) l → Good s (a, l) → Wp (k a) Q s) :
    Wp (match w.heads[i]? with
      | none => m
      | some a => k a) Q s :=
  wp_onHeld h.held.left hnone fun a l hl hi ho hc =>
    hk a l hl hi ho hc (h.good _ (mem_of_getElem? hl))

end

/-- The arithmetic of `os_mbuf_copyinto`. -/
theorem copyintoLens_keeps {single : Bool} {total rest room n y : Nat}
    (hny : (n, y) = copyintoLens single total off rest room total) (hT : total < 2 ^ 16)
    (hnew : total + n < 2 ^ 16) (hk : total < off ∨ rest = 0 ∨
      (single = true ∧ (rest < 2 ^ 16 ∨ off = total ∨ room < rest % 2 ^ 16)) ∨
      (off = total ∧ rest % 2 ^ 16 ≤ room) ∨ (room = 0 ∧ rest % 2 ^ 16 ≠ 0)) : y = total + n := by
  unfold copyintoLens at hny
  split at hny
  · obtain ⟨rfl, rfl⟩ := Prod.mk.inj hny
    rfl
  · next hin =>
    have hk := (hk.resolve_left fun h => hin (.inl h)).resolve_left fun h => hin (.inr h)
    dsimp only at hny
    split at hny
    · next hshort =>
      obtain ⟨rfl, rfl⟩ := Prod.mk.inj hny
      rcases hk with ⟨rfl, -⟩ | ⟨-, hroom⟩ | ⟨hroom, -⟩
      · rw [if_pos rfl]
        unfold u16
        omega
      · omega
      · split
        · unfold u16
          omega
        · omega
    · next hshort =>
      obtain ⟨rfl, rfl⟩ := Prod.mk.inj hny
      rcases hk with ⟨rfl, hr⟩ | ⟨hoff, -⟩ | ⟨hroom, hr⟩
      · rw [if_pos rfl]
        unfold u16
        omega
      · split <;> unfold u16 <;> omega
      · omega

section

variable (h : Pkts s w v) (ho : Owned s l) (hc : Chain s (some a) l)
include h ho hc

theorem wp_pktCopyinto {src : List UInt8} (hsm : Small s w) (hi : w[i]? = some (a, l))
    (hg : Good s (a, l)) (hk : CopyKeeps s a off src) : Wp (osMbufCopyinto a off src) (.total fun _ s' =>
      Outcome ⟨w.heads, v.heads⟩ s') s := by
  obtain ⟨l0, z, rfl⟩ := hc.exists_last
  obtain ⟨r, hr⟩ := hg
  have hT := hsm _ (mem_of_getElem? hi)
  refine (wp_osMbufCopyinto ho hc rfl rfl rfl).mono_ok fun _ s' h' => ?_
  obtain ⟨l', n, hn, -, hm, hc', -, hlen, hh⟩ := h'
  have hset := h.outcome_set (y := (a, l0 ++ [z] ++ l')) hi hm hc'
  rw [← heads_set, heads_set_self hi] at hset
  refine hset fun hnew => ⟨r, ?_⟩
  rw [hlen] at hnew
  rw [hh, hr, hlen, map_some]
  congr 2
  unfold CopyKeeps roomAt restLen at hk
  rw [pktLen_eq ho hc, chainAt_eq ho hc, getLast?_concat] at hk
  refine copyintoLens_keeps (Prod.ext (hn.trans copyintoLens_fst.symm) rfl) hT hnew ?_
  simpa using hk

theorem wp_pktPullup {len : Nat} (hi : w[i]? = some (a, l)) (hg : Good s (a, l))
    (hk : InPlace s a len ∨ PullupFails s a len) :
    Wp (osMbufPullup a len) (.total fun r s' =>
      Outcome ⟨MbufOp.putBack w.heads i r, v.heads⟩ s') s := by
  obtain ⟨q, hq, -⟩ := ho.homed a hc.head_mem
  refine (wp_osMbufPullup ho hc hq).mono_ok fun r s' h' =>
    h.outcome_putBack hi ?_
  cases r with
  | none => exact h'.1
  | some b =>
    obtain ⟨l', hp, hroom⟩ := h'
    refine ⟨l', hp.moves, hp.chain, fun _ => ?_⟩
    have hle := hp.le_length
    have hin : InPlace s a len := by
      rcases hk with hk | hk | hk
      · exact hk
      · rw [pktLen_eq ho hc] at hk
        omega
      · exact hroom.resolve_right fun h => h (hk q hq)
    obtain ⟨r, hr⟩ := hg
    refine ⟨r, ?_⟩
    rw [hp.hdr, if_pos hin, hp.contents]
    exact hr

theorem wp_pktDup {m : Option Nat → MbufM PktHeld} (hk : DupFails s a)
    (hm : m none = pure ⟨w.heads, v.heads⟩) :
    Wp (osMbufDup a >>= m) (.total fun held s' => Outcome held s') s := by
  obtain ⟨hpool, hfew⟩ := hk
  rw [chainAt_eq ho hc] at hpool hfew
  obtain ⟨q, hq, -⟩ := ho.homed a hc.head_mem
  unfold poolFree at hfew
  rw [hq] at hfew
  have hfits : ∀ x ∈ l, (s.mbuf x).CopyFits q.ompDatabufLen := fun x hx =>
    ho.copyFits hx (by rw [hpool x hx]; exact hq)
  refine .bind_total (wp_osMbufDup ho hc hq hfits) fun r s' h' => ?_
  cases r with
  | none =>
    rw [hm]
    exact .pure (h.changed (h.held.steps_same h'.2) (nil_subset _) (Subset.refl w) (Subset.refl v)
      (by simp)).outcome
  | some b => exact absurd h'.1 (Nat.not_le.mpr hfew)

end

/-- A chain is appended to a packet. -/
theorem wp_pktConcat {r : List Nat} (h : Pkts s w v) (hij : i ≠ j) (hl : w[i]? = some (a, l))
    (hr : (w ++ v)[j]? = some (b, r)) (hadd : addedLen s b r = (contents s r).length) :
    Wp (osMbufConcat a b) (.total fun _ s' =>
      Changes s (w ++ v) s' ((w.set i (a, l ++ r) ++ v).eraseIdx j) [(a, l ++ r)] ∧
        ((contents s' (l ++ r)).length < 2 ^ 16 → Good s' (a, l ++ r))) s := by
  have hl' : (w ++ v)[i]? = some (a, l) := getElem?_pkts hl
  refine (wp_osMbufConcat (h.held.pair_owned hij hl' hr) (h.held.chain _ (mem_of_getElem? hl'))
    (h.held.chain _ (mem_of_getElem? hr))).mono_ok fun _ s' hb => ?_
  have hs := h.held.steps_join (z := (a, l ++ r)) hij hl' hr hb.moves hb.chain
  rw [set_append_left _ _ (lt_of_getElem? hl)] at hs
  rw [hadd] at hb
  exact ⟨hs, hb.good (h.good _ (mem_of_getElem? hl)) (by simp)⟩

/-- A call completes, and what it leaves are packets with their length in the
header, as long as that is below 65536. -/
theorem wp_pktRun (op : PktOp) (h : Pkts s w v) (hsm : Small s w) (hk : op.Keeps s w.heads) :
    Wp (op.run ⟨w.heads, v.heads⟩) (.total fun held s' => Outcome held s') s := by
  have hsame : Wp (pure ⟨w.heads, v.heads⟩ : MbufM PktHeld)
      (.total fun held s' => Outcome held s') s := Wp.pure h.outcome
  cases op with
  | append i data =>
    refine wp_onPkt h hsame fun a l hi _ ho hc hg => ?_
    obtain ⟨l0, z, rfl⟩ := hc.exists_last
    refine .bind_total (wp_osMbufAppend ho hc) fun _ s1 h1 => ?_
    obtain ⟨n, l', hn, -, hb⟩ := h1
    refine .pure (h.outcome_became hi hb ?_)
    rw [length_append, length_take]
    omega
  | extend i len =>
    refine wp_onPkt h hsame fun a l hi _ ho hc hg => ?_
    refine .bind_total (wp_osMbufExtend ho hc) fun _ s1 h1 => ?_
    rcases h1 with ⟨-, rfl⟩ | ⟨-, l', bs, hbs, hb⟩
    · exact hsame
    · refine .pure (h.outcome_became hi hb ?_)
      rw [length_append]
      omega
  | prepend i len =>
    refine wp_onPkt h hsame fun a l hi _ ho hc hg => ?_
    refine .bind_total (wp_osMbufPrepend ho hc) fun r s1 h1 =>
      Wp.pure (h.outcome_putBack hi ?_)
    cases r with
    | none => exact h1
    | some b =>
      obtain ⟨l', bs, hbs, hb⟩ := h1
      refine ⟨l' ++ l, hb.moves, hb.chain, hb.good hg ?_⟩
      rw [length_append]
      omega
  | adj i len =>
    refine wp_onPkt h hsame fun a l hi _ ho hc hg => ?_
    refine .bind_total (wp_osMbufAdj ho hc) fun _ s1 h1 => ?_
    obtain ⟨l', d, -, hb, hd⟩ := h1
    obtain ⟨r, hr⟩ := hg
    exact .pure (h.outcome_became hi hb (hd (Mbuf.hdr_some hr).2))
  | copyinto i off src =>
    refine wp_onPkt h hsame fun a l hi hh ho hc hg => ?_
    exact .bind_total (wp_pktCopyinto h ho hc hsm hi hg (hk a hh)) fun _ s1 h1 => .pure h1
  | concat i j =>
    have hij : i ≠ j := hk
    rw [PktOp.run]
    split
    · next a b hi hj =>
      obtain ⟨l, hl⟩ := heads_getElem? hi
      obtain ⟨r, hr⟩ := heads_getElem? hj
      have hlt := lt_of_getElem? hl
      refine .bind_total (wp_pktConcat h hij hl (getElem?_pkts hr)
        (addedLen_good (h.good _ (mem_of_getElem? hr)))) fun _ s1 h1 => ?_
      obtain ⟨hs, hg⟩ := h1
      rw [eraseIdx_append_of_lt_length (by rw [length_set]; exact lt_of_getElem? hr)] at hs
      have ho := h.outcome_changed hs (mem_eraseIdx_iff_getElem?.mpr
        ⟨i, hij, getElem?_set_self hlt⟩) (Subset.trans (eraseIdx_subset ..) set_subset)
        (Subset.refl v) hg
      rw [heads_eraseIdx, heads_set_self hl] at ho
      exact .pure ho
    · exact hsame
  | concatRaw i j =>
    rw [PktOp.run]
    split
    · next a b hi hj =>
      obtain ⟨l, hl⟩ := heads_getElem? hi
      obtain ⟨r, hr⟩ := heads_getElem? hj
      have hlt := lt_of_getElem? hl
      refine .bind_total (wp_pktConcat h (by omega) hl (getElem?_raws hr)
        (addedLen_raw (h.raw _ (mem_of_getElem? hr)))) fun _ s1 h1 => ?_
      obtain ⟨hs, hg⟩ := h1
      rw [eraseIdx_append_of_length_le (by rw [length_set]; omega), length_set,
        Nat.add_sub_cancel_left] at hs
      have ho := h.outcome_changed hs (mem_set hlt _) set_subset (eraseIdx_subset ..) hg
      rw [heads_eraseIdx, heads_set_self hl] at ho
      exact .pure ho
    · exact hsame
  | pullup i len =>
    refine wp_onPkt h hsame fun a l hi hh ho hc hg => ?_
    exact .bind_total (wp_pktPullup h ho hc hi hg (hk a hh)) fun r s1 h1 => .pure h1
  | dup i =>
    refine wp_onPkt h hsame fun a l hi hh ho hc hg => ?_
    exact wp_pktDup h ho hc (hk a hh) rfl

/-! ## Runs -/

/-- Packets and chains without a header to start from. -/
def PktStart (s : MbufSt) (held : PktHeld) : Prop :=
  ∃ w v : Chains, held = ⟨w.heads, v.heads⟩ ∧ Pkts s w v ∧ Small s w

/-- Calls that meet the condition, with every packet below 65536 bytes after
each of them. -/
inductive PktRun (s₀ : MbufSt) (held₀ : PktHeld) : MbufSt → PktHeld → Prop where
  | start : PktRun s₀ held₀ s₀ held₀
  | call {s s' : MbufSt} {held held' : PktHeld} (op : PktOp) :
      PktRun s₀ held₀ s held → op.Keeps s held.pkts → op.run held s none = .ok held' s' none →
      (∀ om ∈ held'.pkts, pktLen s' om < 2 ^ 16) → PktRun s₀ held₀ s' held'

theorem PktStart.step {held held' : PktHeld} {op : PktOp}
    (h : PktStart s held) (hk : op.Keeps s held.pkts)
    (hrun : op.run held s none = .ok held' s' none)
    (hsmall : ∀ om ∈ held'.pkts, pktLen s' om < 2 ^ 16) : PktStart s' held' := by
  obtain ⟨w, v, rfl, hp, hsm⟩ := h
  obtain ⟨_, _, he, w', v', rfl, hheld, hpk⟩ :=
    (wp_pktRun op hp hsm hk).run_total
  obtain ⟨rfl, rfl, -⟩ := Out.ok.inj (hrun.symm.trans he)
  have hsm' : Small s' w' := by
    intro x hx
    have hmem := mem_append_left v' hx
    rw [← pktLen_eq (hheld.mem_owned hmem) (hheld.chain x hmem)]
    exact hsmall x.1 (mem_map_of_mem hx)
  exact ⟨w', v', rfl, hpk hsm', hsm'⟩

/-- In every run whose calls meet the condition, every packet that is left
has a header with its length, and the next such call completes. -/
theorem packets_keep_length {s₀ : MbufSt} {held₀ held : PktHeld}
    (h : PktStart s₀ held₀) (hrun : PktRun s₀ held₀ s held) :
    (∀ om ∈ held.pkts, (s.mbuf om).isPkthdr = true ∧ (s.mbuf om).ompLen = pktLen s om) ∧
    ∀ op : PktOp, op.Keeps s held.pkts → ∃ held' s', op.run held s none = .ok held' s' none := by
  have hs : PktStart s held := by
    induction hrun with
    | start => exact h
    | call op _ hk he hsmall ih => exact ih.step hk he hsmall
  obtain ⟨w, v, rfl, hp, hsm⟩ := hs
  refine ⟨fun om hom => ?_, fun op hk => ?_⟩
  · obtain ⟨x, hx, rfl⟩ := mem_map.mp hom
    have hmem := mem_append_left v hx
    obtain ⟨r, hr⟩ := hp.good x hx
    rw [pktLen_eq (hp.held.mem_owned hmem) (hp.held.chain x hmem)]
    exact Mbuf.hdr_some hr
  · obtain ⟨held', s', he, -⟩ := (wp_pktRun op hp hsm hk).run_total
    exact ⟨held', s', he⟩

/-- A packet of three bytes in two mbufs, and two that are free. -/
def twoMbufs : MbufSt where
  pools := [⟨12, [0, 1, 2, 3], 2, [2, 3]⟩]
  mbuf
    | 0 => ⟨10, 0, 8, 1, 0, some 1, [3, 0, 0, 0, 0, 0, 0, 0, 0, 0, 7, 0]⟩
    | 1 => ⟨0, 0, 0, 2, 0, none, [8, 9, 0, 0, 0, 0, 0, 0, 0, 0, 0, 0]⟩
    | _ => ⟨0, 0, 0, 0, 0, none, replicate 12 0⟩

theorem pktStart_twoMbufs : PktStart twoMbufs ⟨[0], []⟩ := by
  have ho : Owned twoMbufs (Chains.mbufs [(0, [0, 1])]) := by decide
  refine ⟨[(0, [0, 1])], [], rfl, ⟨⟨?_, ho⟩, ?_, by simp⟩, ?_⟩
  · intro x hx
    obtain rfl := mem_singleton.mp hx
    exact ⟨rfl, rfl, rfl⟩
  · intro x hx
    obtain rfl := mem_singleton.mp hx
    exact ⟨[0, 0, 0, 0, 0, 0], by decide⟩
  · intro x hx
    obtain rfl := mem_singleton.mp hx
    decide

/-- A byte is copied to the end of the packet. -/
theorem packets_keep_length_copyinto : ∃ held s, PktRun twoMbufs ⟨[0], []⟩ s held ∧
      (∀ om ∈ held.pkts, (s.mbuf om).isPkthdr = true ∧ (s.mbuf om).ompLen = pktLen s om) ∧
      ∀ op : PktOp, op.Keeps s held.pkts → ∃ held' s', op.run held s none = .ok held' s' none := by
  have hk : PktOp.Keeps twoMbufs [0] (.copyinto 0 3 [5]) := by
    intro om hom
    obtain rfl := some.inj hom
    exact .inr (.inr (.inr (.inl ⟨by decide, by decide⟩)))
  have hrun : ∃ held s, PktRun twoMbufs ⟨[0], []⟩ s held :=
    ⟨_, _, .call (.copyinto 0 3 [5]) .start hk rfl (by decide)⟩
  obtain ⟨held, s, hrun⟩ := hrun
  exact ⟨held, s, hrun, packets_keep_length pktStart_twoMbufs hrun⟩

/-- A call on the packet leaves a chain whose length is not in a header. -/
def brokenBy (op : PktOp) : Bool :=
  match op.run ⟨[0], []⟩ twoMbufs none with
  | .ok held s _ => held.pkts.any fun om =>
    !((s.mbuf om).isPkthdr && (s.mbuf om).ompLen == pktLen s om)
  | _ => false

/-- The duplicate has no header; neither has the packet after a pullup into a
new mbuf; and after four bytes were copied to offset one, there are five bytes
and the header says three. -/
theorem packet_length_lost : PktStart twoMbufs ⟨[0], []⟩ ∧ brokenBy (.dup 0) = true ∧
      brokenBy (.pullup 0 3) = true ∧
      brokenBy (.copyinto 0 1 [1, 2, 3, 4]) = true :=
  ⟨pktStart_twoMbufs, by decide +kernel, by decide +kernel, by decide +kernel⟩

end Packets

end Larva.Os.Mbufs
