import Larva.Os.Packets

/-!
# Edits of a chain

Seen from outside, a chain is the bytes it holds: append, extend, prepend,
adjust and concatenate are edits of a byte string, however the bytes are split
into mbufs, and the specifications of the operations say so.

Two operations make new mbufs of old ones, and neither is as simple.
`os_mbuf_dup` takes all copies from the pool of the first mbuf, and a chain
may hold mbufs of pools with larger buffers: it is the one operation that
writes behind a buffer. And neither it nor `os_mbuf_pullup` records in a new
head that there is a packet header, so that the packet loses it.
-/

namespace Larva.Os.Mbufs

open Larva.Bytes Larva.Crash Larva.SList MbufM List

variable {s s' : MbufSt} {l r : List Nat} {a b n om : Nat} {q : MbufPool}

/-! ## Byte strings -/

/-- A call on chains from any pools. -/
inductive BufOp where
  | call (omp : Nat) (op : MbufOp)
  | getPkthdr (omp userPkthdrLen : Nat)
  | copyinto (i off : Nat) (src : List UInt8)

def BufOp.run (held : List Nat) : BufOp → MbufM (List Nat)
  | call omp op => op.run omp held
  | getPkthdr omp userPkthdrLen => do
      match ← osMbufGetPkthdr omp userPkthdrLen with
      | none => pure held
      | some om => pure (held ++ [om])
  | copyinto i off src => match held[i]? with
      | none => pure held
      | some om => do
          let _ ← osMbufCopyinto om off src
          pure held

def BufOp.runAll : List BufOp → List Nat → MbufM (List Nat)
  | [], held => pure held
  | op :: ops, held => do
      let held ← op.run held
      runAll ops held

/-- The header fits the pool, and its length the eight bits it is kept in. -/
def BufOp.Safe (s : MbufSt) (held : List Nat) : BufOp → Prop
  | call omp op => op.Safe s omp held
  | getPkthdr omp userPkthdrLen => userPkthdrLen + pkthdrSz < 256 ∧
      ∃ q, s.pools[omp]? = some q ∧ userPkthdrLen + pkthdrSz ≤ q.ompDatabufLen
  | copyinto .. => True

theorem wp_bufRun {w : Chains} (op : BufOp) (h : Held s w) (hsafe : op.Safe s w.heads) :
    Wp (op.run w.heads) (.total fun held s' => ∃ w', w'.heads = held ∧ Held s' w') s := by
  have hsame : Wp (pure w.heads : MbufM (List Nat)) (.total fun held s' =>
      ∃ w', w'.heads = held ∧ Held s' w') s := Wp.pure ⟨w, rfl, h⟩
  cases op with
  | call omp op =>
    refine (wp_run op h hsafe).mono_ok fun held s' h' => ?_
    obtain ⟨w', hw', hs⟩ := h'
    exact ⟨w', hw', hs.held⟩
  | getPkthdr omp u =>
    obtain ⟨h256, q, hq, hu⟩ := hsafe
    refine .bind_total (wp_osMbufGetPkthdr (h.owned.left (l := [])) hq hu h256) fun res s1 h1 => ?_
    cases res with
    | none =>
      obtain ⟨rfl, -⟩ := h1
      exact hsame
    | some p =>
      have hn : NewHead s [] omp _ p s1 := h1
      exact .pure ⟨w ++ [(p, [p])], map_append,
        (h.steps_add (y := (p, [p])) hn.moves ⟨rfl, hn.next⟩).held⟩
  | copyinto i off src =>
    refine wp_onHeld h hsame fun a l hi _ ho hc => ?_
    obtain ⟨l0, z, rfl⟩ := hc.exists_last
    refine .bind_total (wp_osMbufCopyinto ho hc rfl rfl rfl) fun _ s1 h1 => ?_
    obtain ⟨l', n, -, -, hm, hc', -⟩ := h1
    exact .pure ⟨_, heads_set_self hi, (h.steps_set hi hm hc').held⟩

/-- Calls that meet the condition, one after the other. -/
inductive BufRun (s₀ : MbufSt) : MbufSt → List Nat → Prop where
  | start : BufRun s₀ s₀ []
  | call {s s' : MbufSt} {held held' : List Nat} (op : BufOp) : BufRun s₀ s held →
      op.Safe s held → op.run held s none = .ok held' s' none → BufRun s₀ s' held'

/-- In every run whose calls meet the condition, all data lies in the buffer
of its mbuf, which is as large as the pool says, and behind the header; and
the next such call writes to no place outside of a buffer. -/
theorem data_stays_in_buffers {s₀ : MbufSt} {held : List Nat} (h : Owned s₀ [])
    (hrun : BufRun s₀ s held) : (∀ om ∈ held, ∀ x ∈ chainAt s om, Homed s x ∧ (s.mbuf x).Ok) ∧
    ∀ op : BufOp, op.Safe s held → ∃ held' s', op.run held s none = .ok held' s' none := by
  have hs : ∃ w, w.heads = held ∧ Held s w := by
    induction hrun with
    | start => exact ⟨[], rfl, by simp, h⟩
    | call op _ hsafe he ih =>
      obtain ⟨w, rfl, hw⟩ := ih
      obtain ⟨_, _, he', hw'⟩ := (wp_bufRun op hw hsafe).run_total
      obtain ⟨rfl, rfl, -⟩ := Out.ok.inj (he.symm.trans he')
      exact hw'
  obtain ⟨w, rfl, hw⟩ := hs
  refine ⟨fun om hom x hx => ?_, fun op hsafe => ?_⟩
  · obtain ⟨y, hy, rfl⟩ := mem_map.mp hom
    have ho := hw.mem_owned hy
    rw [chainAt_eq ho (hw.chain y hy)] at hx
    exact ⟨ho.homed x hx, ho.ok x hx⟩
  · obtain ⟨held', s', he, -⟩ := (wp_bufRun op hw hsafe).run_total
    exact ⟨held', s', he⟩

/-- A pool with buffers of four bytes, and one with buffers of eight. -/
def twoPools : MbufSt where
  pools := [⟨4, [0, 1, 2], 3, [0, 1, 2]⟩, ⟨8, [3], 1, [3]⟩]
  mbuf
    | 3 => ⟨0, 0, 0, 0, 1, none, replicate 8 0⟩
    | _ => ⟨0, 0, 0, 0, 0, none, replicate 4 0⟩

/-- The duplicate of an mbuf with four bytes can be made. -/
theorem data_stays_in_buffers_dup : ∃ held s, BufRun twoPools s held ∧
    held = [0, 1] ∧ ∀ om ∈ held, ∀ x ∈ chainAt s om, Homed s x ∧ (s.mbuf x).Ok := by
  have hrun : ∃ s, BufRun twoPools s [0, 1] := by
    refine ⟨_, .call (.call 0 (.dup 0)) (.call (.call 0 (.append 0 [1, 2, 3, 4]))
      (.call (.call 0 (.get 0)) .start ⟨_, rfl, Nat.zero_le _⟩ rfl) trivial rfl) ?_ rfl⟩
    intro om q hom hq x hx
    cases hom
    cases hq
    unfold Mbuf.CopyFits
    revert x
    decide
  obtain ⟨s, hrun⟩ := hrun
  exact ⟨[0, 1], s, hrun, rfl, (data_stays_in_buffers (by decide) hrun).1⟩

/-- A chain of an mbuf with room for four bytes and one that holds six: the
six bytes are copied to a buffer of four. -/
theorem dup_leaves_buffer : Owned twoPools [] ∧
    BufOp.runAll [.call 0 (.get 0), .call 1 (.get 0), .call 1 (.append 1 [1, 2, 3, 4, 5, 6]),
      .call 0 (.concat 0 1), .call 0 (.dup 0)] [] twoPools none = .abort :=
  ⟨by decide, rfl⟩

/-! ## Packets -/

/-- The chain at `h` has the data of the one at `a`, and its header. -/
structure SamePacket (s : MbufSt) (a : Nat) (l : List Nat) (s' : MbufSt) (h : Nat)
    (l' : List Nat) : Prop where
  chain : Chain s' (some h) l'
  contents : contents s' l' = contents s l
  hdr : (s'.mbuf h).hdr = (s.mbuf a).hdr

/-- The bytes are there, they fit a buffer behind the header, and there is an
mbuf for them if one is needed. -/
def CanPull (s : MbufSt) (a : Nat) (l : List Nat) (n : Nat) (q : MbufPool) : Prop :=
  n ≤ (contents s l).length ∧ n + (s.mbuf a).omPkthdrLen ≤ q.ompDatabufLen ∧
    (InPlace s a n ∨ q.mpFree ≠ [])

instance : Decidable (CanPull s a l n q) := instDecidableAnd

theorem wp_pullup_canPull (ho : Owned s l) (hc : Chain s (some a) l)
    (hq : s.pools[(s.mbuf a).omOmp]? = some q) :
    Wp (osMbufPullup a n) (.total fun res s' => match res with
      | none => ¬ CanPull s a l n q ∧ Moves s l s' []
      | some h => CanPull s a l n q ∧ ∃ l', PulledUp s a l n s' h l') s := by
  refine (wp_osMbufPullup ho hc hq).mono_ok fun res s' h => ?_
  cases res with
  | none =>
    obtain ⟨hm, hno⟩ := h
    refine ⟨fun hcan => ?_, hm⟩
    obtain ⟨hle, hfit, hroom⟩ := hcan
    rcases hno with hlt | ⟨hin, hnil | hlt⟩
    · omega
    · exact hroom.elim hin fun h => h hnil
    · omega
  | some h =>
    obtain ⟨l', hp, hroom⟩ := h
    refine ⟨⟨hp.le_length, ?_, hroom.imp_right fun h hnil => h (.inl hnil)⟩, l', hp⟩
    have hok := ho.ok a hc.head_mem
    have hbuf := (Moves.refl ho).databuf hc.head_mem rfl hq
    have hle := hok.hdrLen_le
    have hdata := hok.data
    rcases hroom with hin | hno
    · unfold InPlace spaceIn at hin
      omega
    · exact Nat.not_lt.mp fun h => hno (.inr h)

/-- A pullup returns the same packet with the bytes in its first mbuf, or
frees all of it, except that a packet whose head has no room for them loses
its header. -/
theorem pullup_keeps_packet_iff (ho : Owned s l) (hc : Chain s (some a) l)
    (hq : s.pools[(s.mbuf a).omOmp]? = some q) :
    Wp (osMbufPullup a n) (.total fun res s' => if CanPull s a l n q then
        ∃ h l', res = some h ∧ Moves s l s' l' ∧ SamePacket s a l s' h l' ∧ n ≤ (s'.mbuf h).omLen
      else res = none ∧ Moves s l s' []) s ↔
    (CanPull s a l n q → InPlace s a n ∨ (s.mbuf a).hdr = none) := by
  have hspec := wp_pullup_canPull (n := n) ho hc hq
  constructor
  · intro hP hcan
    obtain ⟨res, s', hr, hP⟩ := hspec.meet hP
    dsimp only [Post.total] at hP
    rw [if_pos hcan] at hP
    obtain ⟨h, l', rfl, -, hsame, -⟩ := hP
    obtain ⟨-, l'', hp⟩ := hr
    refine Classical.or_iff_not_imp_left.mpr fun hin => ?_
    rw [← hsame.hdr, hp.hdr, if_neg hin]
  · intro hcond
    refine hspec.mono_ok fun res s' h => ?_
    cases res with
    | none => rw [if_neg h.1]; exact ⟨rfl, h.2⟩
    | some h' =>
      obtain ⟨hcan, l', hp⟩ := h
      rw [if_pos hcan]
      refine ⟨h', l', rfl, hp.moves, ⟨hp.chain, hp.contents, ?_⟩, hp.omLen⟩
      rw [hp.hdr]
      split
      · rfl
      · next hin => exact ((hcond hcan).resolve_left hin).symm

/-- Two bytes of the packet are wanted, and the second one fits the first
mbuf. -/
theorem pullup_keeps_packet_two : Wp (osMbufPullup 0 2) (.total fun res s' =>
    ∃ h l', res = some h ∧ Moves twoMbufs [0, 1] s' l' ∧
      SamePacket twoMbufs 0 [0, 1] s' h l' ∧ 2 ≤ (s'.mbuf h).omLen) twoMbufs := by
  have hcan : CanPull twoMbufs 0 [0, 1] 2 ⟨12, [0, 1, 2, 3], 2, [2, 3]⟩ := by decide
  have hP := (pullup_keeps_packet_iff (s := twoMbufs) (l := [0, 1]) (n := 2) (by decide)
    ⟨rfl, rfl, rfl⟩ rfl).mpr fun _ => .inl (by decide)
  simpa only [if_pos hcan] using hP

/-- Three bytes do not fit it: the packet becomes a chain without a header. -/
theorem pullup_drops_header : CanPull twoMbufs 0 [0, 1] 3 ⟨12, [0, 1, 2, 3], 2, [2, 3]⟩ ∧
    (twoMbufs.mbuf 0).hdr = some (3, replicate 6 0) ∧
    ∃ s', osMbufPullup 0 3 twoMbufs none = .ok (some 2) s' none ∧ (s'.mbuf 2).hdr = none :=
  ⟨by decide, by decide, _, rfl, by decide⟩

/-- A duplicate shares no mbuf with the chain, leaves it as it was and has its
data, and it is the same packet exactly if there was no header. -/
theorem dup_copies_packet_iff (ho : Owned s l) (hc : Chain s (some a) l)
    (hq : s.pools[(s.mbuf a).omOmp]? = some q) :
    Wp (osMbufDup a) (.total fun res s' => ∀ h, res = some h → ∃ c, Moves s [] s' c ∧
      SamePacket s a l s' h c ∧ (∀ x ∈ c, x ∉ l) ∧ ∀ x ∈ l, s'.mbuf x = s.mbuf x) s ↔
    Copyable s q l ∧ (q.mpFree.length < l.length ∨ (s.mbuf a).hdr = none) := by
  have hspec := wp_osMbufDup_or ho hc hq
  constructor
  · intro hP
    obtain ⟨res, s', hP, hcopy, hd⟩ := hP.meet hspec
    refine ⟨hcopy, ?_⟩
    cases res with
    | none => exact .inl hd.1
    | some h =>
      obtain ⟨c, -, hsame, -⟩ := hP h rfl
      obtain ⟨-, -, -, -, -, -, hnone⟩ := hd
      exact .inr (hsame.hdr.symm.trans hnone)
  · intro hcond
    obtain ⟨hcopy, hor⟩ := hcond
    refine hspec.mono (fun res s' hd h hres => ?_) (fun _ _ => id) (fun _ => id)
      fun hst => hst hcopy
    subst hres
    obtain ⟨-, hle, c, -, hm, hcc, hcont, hnone⟩ := hd
    have hapart : ∀ x ∈ l, x ∉ freeIds s ++ [] := fun x hx => by
      rw [append_nil]
      exact ho.not_free hx
    refine ⟨c, hm, ⟨hcc, hcont, ?_⟩, fun x hx hl => ?_, fun x hx => hm.frame x (hapart x hx)⟩
    · rw [hnone, hor.resolve_left (Nat.not_lt.mpr hle)]
    · exact hapart x hl (hm.perm.mem_iff.mp (mem_append_right _ hx))

/-- The second mbuf of the packet, as a chain of its own. -/
theorem dup_copies_packet_one : Wp (osMbufDup 1) (.total fun res s' => ∀ h, res = some h →
    ∃ c, Moves twoMbufs [] s' c ∧ SamePacket twoMbufs 1 [1] s' h c ∧ (∀ x ∈ c, x ∉ [1]) ∧
      ∀ x ∈ [1], s'.mbuf x = twoMbufs.mbuf x) twoMbufs :=
  (dup_copies_packet_iff (s := twoMbufs) (l := [1]) (by decide) ⟨rfl, rfl⟩ rfl).mpr
    ⟨by decide, .inr (by decide)⟩

/-- The duplicate of a packet is a chain without a header. -/
theorem dup_drops_header : Owned twoMbufs [0, 1] ∧ (twoMbufs.mbuf 0).hdr = some (3, replicate 6 0) ∧
    ∃ s', osMbufDup 0 twoMbufs none = .ok (some 2) s' none ∧ (s'.mbuf 2).hdr = none :=
  ⟨by decide, by decide, _, rfl, by decide⟩

end Larva.Os.Mbufs
