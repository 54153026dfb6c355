import Larva.Os.MbufTail

/-!
# Operations at the front of a chain, and trimming

Prepending takes a new head when the old one has no room left in front of its
data: the packet header moves over, and the data of the new head starts at the
end of its buffer. Trimming at the front only moves data pointers; trimming at
the end may free the mbufs that are left without data.
-/

namespace Larva.Os.Mbufs

open Larva.Bytes Larva.Crash Larva.SList MbufM List

section Prepend

variable {s s' : MbufSt} {l : List Nat} {a p omp fuel n : Nat} {q : MbufPool} {m : Mbuf} {α : Type}

/-- An mbuf with `n` bytes in front of its data counted in. -/
def Mbuf.deeper (n : Nat) (m : Mbuf) : Mbuf :=
  { m with omData := m.omData - n, omLen := m.omLen + n }

theorem Mbuf.Ok.deeper (h : m.Ok) (hn : n ≤ m.omData - m.omPkthdrLen) :
    (m.deeper n).Ok ∧ (m.deeper n).hdr = m.hdr ∧ (m.deeper n).bytes
        = slice m.omDatabuf (m.omData - n) n ++ m.bytes := by
  have hd := h.data
  refine ⟨⟨?_, ?_⟩, rfl, ?_⟩
  · show m.omData - n + (m.omLen + n) ≤ m.omDatabuf.length
    omega
  · refine h.hdr.imp_right fun ⟨h8, h256, _⟩ => ⟨h8, h256, ?_⟩
    show m.omPkthdrLen ≤ m.omData - n
    omega
  · show slice _ (m.omData - n) (m.omLen + n) = _
    rw [add_comm m.omLen n, slice_add, Nat.sub_add_cancel (by omega)]
    rfl

/-- A head for a chain that is still to be linked to it: no data, behind a
header of `h` bytes. -/
structure NewHead (s : MbufSt) (l : List Nat) (omp h p : Nat) (s' : MbufSt) : Prop where
  new : p ∉ l
  moves : Moves s l s' (p :: l)
  others : ∀ x ≠ p, s'.mbuf x = s.mbuf x
  hdrLen : (s'.mbuf p).omPkthdrLen = h
  data : (s'.mbuf p).omData = h
  len : (s'.mbuf p).omLen = 0
  next : (s'.mbuf p).omNext = none
  pool : (s'.mbuf p).omOmp = omp

theorem Taken.newHead (h : Taken s l omp 0 p s') : NewHead s l omp 0 p s' := by
  refine ⟨h.new, h.moves, h.others, ?_, ?_, ?_, ?_, ?_⟩ <;> rw [h.self] <;> rfl

theorem wp_osMbufGetPkthdr {u : Nat} (ho : Owned s l)
    (hq : s.pools[omp]? = some q) (hu : u + pkthdrSz ≤ q.ompDatabufLen)
    (h256 : u + pkthdrSz < 256) : Wp (osMbufGetPkthdr omp u) (.total fun r s' => match r with
      | none => s' = s ∧ q.mpFree = []
      | some p => NewHead s l omp (u + pkthdrSz) p s') s := by
  refine .bind_total (wp_osMbufGet ho hq (Nat.zero_le _)) fun r s1 hr => ?_
  cases r with
  | none => exact .pure hr
  | some p =>
    have hbuf := hr.databuf hq
    have hmod : (u + pkthdrSz) % 256 = u + pkthdrSz := Nat.mod_eq_of_lt h256
    have hfit : 0 + (replicate pkthdrSz 0).length ≤ (s1.mbuf p).omDatabuf.length := by
      rw [length_replicate]
      omega
    refine wp_upd (wp_store (by rw [upd_self]; exact hfit) (.pure ?_))
    rw [upd_upd]
    generalize hg : (fun m : Mbuf => stored 0 (replicate pkthdrSz 0)
      { m with omPkthdrLen := (u + pkthdrSz) % 256
               omData := m.omData + (u + pkthdrSz) }) = g
    have hself : g (s1.mbuf p) = stored 0 (replicate pkthdrSz 0) { fresh omp 0 (s.mbuf p) with
          omPkthdrLen := u + pkthdrSz, omData := u + pkthdrSz } := by
      rw [← hg, hr.self, hmod]
      simp only [fresh, zero_add]
    have hlen : (g (s1.mbuf p)).omDatabuf.length = (s1.mbuf p).omDatabuf.length := by
      rw [← hg]
      exact length_splice hfit
    have hm : Moves s1 (p :: l) (s1.upd p g) (p :: l) := by
      refine hr.moves.owned.upd mem_cons_self ?_ ?_ hlen
      · refine ⟨?_, .inr ?_⟩
        · rw [hlen, hbuf, hself]
          exact hu
        · rw [hself]
          exact ⟨Nat.le_add_left .., h256, le_refl _⟩
      · rw [hself, hr.self]
        rfl
    refine ⟨hr.new, hr.moves.trans hm, fun x hx => ?_, ?_, ?_, ?_, ?_, ?_⟩
    · rw [upd_of_ne hx, hr.others x hx]
    all_goals
      rw [upd_self, hself]
      rfl

theorem NewHead.databuf (h : NewHead s l omp n p s') (hq : s.pools[omp]? = some q) :
    (s'.mbuf p).omDatabuf.length = q.ompDatabufLen :=
  h.moves.databuf mem_cons_self h.pool hq

/-- The packet header has moved from `a` to `p`, or there is none. -/
structure HdrMoved (s : MbufSt) (l : List Nat) (a p : Nat) (s' : MbufSt) : Prop where
  moves : Moves s l s' l
  others : ∀ x ≠ p, (s'.mbuf x).bytes = (s.mbuf x).bytes ∧ (s'.mbuf x).omNext = (s.mbuf x).omNext
  hdr : (s'.mbuf p).hdr = (s.mbuf a).hdr
  self : ∃ b : List UInt8, b.length = (s.mbuf p).omDatabuf.length ∧
    s'.mbuf p = { s.mbuf p with omDatabuf := b }

variable (ho : Owned s l) {Q : Post MbufSt Empty α} {k : Unit → MbufM α}
include ho

theorem wp_moveHdr (ha : a ∈ l) (hp : p ∈ l) (hap : p ≠ a)
    (hl : (s.mbuf p).omPkthdrLen = (s.mbuf a).omPkthdrLen)
    (hb : (s.mbuf p).omDatabuf.length = (s.mbuf a).omDatabuf.length) :
    Wp (if (s.mbuf a).isPkthdr then do
        osMbufCopypkthdr p a
        MbufM.upd a fun m => { m with omPkthdrLen := 0 }
      else pure ()) (.total fun _ s' => HdrMoved s l a p s') s := by
  have hok := ho.ok a ha
  have hle := hok.hdrLen_le
  have hd := hok.data
  split
  · next hpk =>
    have hlen : (s.mbuf a).hdrBytes.length = (s.mbuf a).omPkthdrLen := by
      unfold Mbuf.hdrBytes
      rw [length_take]
      omega
    have hfit : 0 + (s.mbuf a).hdrBytes.length ≤ (s.mbuf p).omDatabuf.length := by
      omega
    have hm1 := ho.upd hp ((ho.ok p hp).stored hfit) rfl (length_splice hfit)
    have hm2 := hm1.owned.upd (f := fun m => { m with omPkthdrLen := 0 }) ha
      ⟨(hm1.owned.ok a ha).data, .inl rfl⟩ rfl rfl
    refine .bind (wp_mb (wp_load (by omega) (.bind_pure ?_)))
    refine wp_store hfit (.pure (.modify ?_))
    refine ⟨hm1.trans hm2, fun x hx => ?_, ?_, _, length_splice hfit, ?_⟩
    · by_cases hxa : x = a
      · subst hxa
        rw [upd_self, upd_of_ne hx]
        exact ⟨rfl, rfl⟩
      · rw [upd_of_ne hxa, upd_of_ne hx]
        exact ⟨rfl, rfl⟩
    · rw [upd_of_ne hap, upd_self]
      refine Mbuf.hdr_congr hl ?_
      have hself := slice_splice_self hfit
      rw [hlen, ← hl] at hself
      exact hself
    · rw [upd_of_ne hap, upd_self]
      rfl
  · next hpk =>
    have h0 := Mbuf.hdrLen_zero hok hpk
    refine .pure ⟨.refl ho, fun _ _ => ⟨rfl, rfl⟩, ?_, _, rfl, rfl⟩
    rw [Mbuf.hdr_none hpk, Mbuf.hdr_none]
    unfold Mbuf.isPkthdr
    rw [hl, h0]
    decide

/-- The new head is emptied of its leading space and linked to the chain. -/
theorem wp_putHead {s₁ : MbufSt} {b : Bool} (hc : Chain s (some a) l) (hb : b = (s.mbuf a).isPkthdr)
    (hn : NewHead s l (s.mbuf a).omOmp (s.mbuf a).omPkthdrLen p s₁)
    (h : ∀ s₂, Became s a l s₂ p (p :: l) (contents s l) 0 → Wp (k ()) Q s₂) : Wp ((if b then do
        osMbufCopypkthdr p a
        MbufM.upd a fun m => { m with omPkthdrLen := 0 }
      else pure ()) >>= fun _ => trailingspace p >>= fun space =>
      MbufM.upd p (fun m => { m with omData := m.omData + space }) >>=
        fun _ => MbufM.upd p (fun m => { m with omNext := some a }) >>= k) Q s₁ := by
  have ha := hc.head_mem
  obtain ⟨q, hq, -, hbuf⟩ := ho.homed a ha
  have hold : ∀ x ∈ l, x ≠ p := fun x hx => ne_of_mem_of_not_mem hx hn.new
  have hap := (hold a ha).symm
  have hsame := hn.others a (hold a ha)
  have hlen : (s₁.mbuf p).omDatabuf.length = (s₁.mbuf a).omDatabuf.length := by
    rw [hn.databuf hq, hsame, hbuf]
  rw [hb, ← hsame]
  refine .bind_total (wp_moveHdr hn.moves.owned (mem_cons_of_mem p ha) mem_cons_self hap
    (by rw [hn.hdrLen, hsame]) hlen) fun _ s₂ h2 => ?_
  obtain ⟨b, hblen, hp2⟩ := h2.self
  have hpl : (s₂.mbuf p).omLen = 0 := by
    rw [hp2]
    exact hn.len
  have hok := h2.moves.owned.ok p mem_cons_self
  have hd := hok.data
  refine wp_trailingspace h2.moves.owned mem_cons_self (wp_upd (wp_upd (h _ ?_)))
  rw [upd_upd]
  set d := (s₂.mbuf p).omDatabuf.length - ((s₂.mbuf p).omData + (s₂.mbuf p).omLen)
  set g : Mbuf → Mbuf := fun m => { m with omData := m.omData + d, omNext := some a }
  have hgp : g (s₂.mbuf p) = { s₂.mbuf p with
    omData := (s₂.mbuf p).omData + d, omNext := some a } := rfl
  have hm : Moves s₂ (p :: l) (s₂.upd p g) (p :: l) := by
    refine h2.moves.owned.upd mem_cons_self ?_ ?_ ?_ <;> rw [hgp]
    refine ⟨?_, hok.hdr.imp_right fun h => ⟨h.1, h.2.1, ?_⟩⟩
    · show (s₂.mbuf p).omData + _ + (s₂.mbuf p).omLen ≤ (s₂.mbuf p).omDatabuf.length
      omega
    · exact le_trans h.2.2 (Nat.le_add_right ..)
  have hrest : ∀ x ∈ l, ((s₂.upd p g).mbuf x).bytes = (s.mbuf x).bytes ∧
      ((s₂.upd p g).mbuf x).omNext = (s.mbuf x).omNext := by
    intro x hx
    have hxp := hold x hx
    rw [upd_of_ne hxp, ← hn.others x hxp]
    exact h2.others x hxp
  refine ⟨(hn.moves.trans h2.moves).trans hm, ⟨rfl, ?_⟩, ?_, ?_⟩
  · show Chain (s₂.upd p g) ((s₂.upd p g).mbuf p).omNext l
    rw [upd_self, hgp]
    exact hc.congr fun x hx => (hrest x hx).2
  · rw [contents_cons, upd_self, hgp, contents_congr fun x hx => (hrest x hx).1]
    show slice _ _ (s₂.mbuf p).omLen ++ _ = _
    rw [hpl, slice_zero, nil_append]
  · rw [upd_self, hgp, Mbuf.hdr_shift_zero, ← hsame, ← h2.hdr]
    rfl

/-- The head is deepened and the header follows. -/
theorem wp_deepen (hc : Chain s (some a) l) (hn : n ≤ (s.mbuf a).omData - (s.mbuf a).omPkthdrLen)
    (h : ∀ s₁ bs, bs.length = n → Became s a l s₁ a l (bs ++ contents s l) n →
      (s₁.mbuf a).omOmp = (s.mbuf a).omOmp →
      (s₁.mbuf a).omPkthdrLen = (s.mbuf a).omPkthdrLen → Wp (k ()) Q s₁) :
    Wp (MbufM.upd a (fun m => { m with
        omData := m.omData - n, omLen := u16 (m.omLen + n) }) >>= fun _ =>
      (if (s.mbuf a).isPkthdr then
        setOmpLen a ((s.mbuf a).ompLen + n) else pure ()) >>= k) Q s := by
  obtain ⟨r, rfl⟩ := hc.cons_of_some
  have ha := hc.head_mem
  have hok := ho.ok a ha
  have hsmall := ho.small ha
  have hd := hok.data
  obtain ⟨hok', hhdr, hbytes⟩ := hok.deeper hn
  have hm := ho.upd ha hok' rfl rfl
  have hupd : (s.upd a fun m => { m with
      omData := m.omData - n, omLen := u16 (m.omLen + n) }) = s.upd a (Mbuf.deeper n) := by
    refine upd_congr ?_
    congr 1
    exact u16_natCast (by omega)
  refine wp_upd ?_
  rw [hupd]
  have hpk : (s.mbuf a).isPkthdr = ((s.upd a (Mbuf.deeper n)).mbuf a).isPkthdr := by
    rw [upd_self]
    rfl
  have homp : (s.mbuf a).ompLen = ((s.upd a (Mbuf.deeper n)).mbuf a).ompLen := by
    rw [upd_self]
    rfl
  rw [hpk, homp]
  refine wp_shiftLen hm.owned ha fun s₁ hr => ?_
  obtain ⟨db, hdb⟩ := hr.same a
  rw [upd_self] at hdb
  have hrest : ∀ x ∈ r, x ≠ a :=
    fun x hx => ne_of_mem_of_not_mem hx (nodup_cons.mp ho.nodup_right).1
  refine h s₁ (slice (s.mbuf a).omDatabuf ((s.mbuf a).omData - n) n)
    (length_slice (by omega)) ⟨hm.trans hr.moves, ?_, ?_, ?_⟩ (by rw [hdb]; rfl) (by rw [hdb]; rfl)
  · refine hc.congr fun x _ => ?_
    rw [hr.next x]
    by_cases hx : x = a
    · subst hx
      rw [upd_self]
      rfl
    · rw [upd_of_ne hx]
  · have hr' : contents (s.upd a (Mbuf.deeper n)) r = contents s r :=
      contents_congr fun x hx => by rw [upd_of_ne (hrest x hx)]
    rw [contents_congr fun x _ => hr.bytes x, contents_cons, contents_cons,
      upd_self, hbytes, append_assoc, hr']
  · rw [hr.hdr, upd_self, hhdr]

/-- The mbuf for a new head has room for the header, if there is one. -/
theorem wp_getHead (ha : a ∈ l) : Wp (if (s.mbuf a).isPkthdr then
        osMbufGetPkthdr (s.mbuf a).omOmp ((s.mbuf a).omPkthdrLen - pkthdrSz)
      else osMbufGet (s.mbuf a).omOmp 0) (.total fun r s' => match r with
        | none => s' = s
        | some p => NewHead s l (s.mbuf a).omOmp (s.mbuf a).omPkthdrLen p s') s := by
  obtain ⟨q, hq, -, hbuf⟩ := ho.homed a ha
  have hok := ho.ok a ha
  have hd := hok.data
  split
  · next hp =>
    have h8 : pkthdrSz ≤ (s.mbuf a).omPkthdrLen := of_decide_eq_true hp
    have hsum := Nat.sub_add_cancel h8
    have hhdr := hok.hdr.resolve_left fun h0 => by
      rw [h0] at h8
      exact absurd h8 (by decide)
    refine (wp_osMbufGetPkthdr ho hq (by omega) (by omega)).mono_ok fun r s' h => ?_
    cases r with
    | none => exact h.1
    | some p =>
      rw [hsum] at h
      exact h
  · next hp =>
    refine (wp_osMbufGet ho hq (Nat.zero_le _)).mono_ok fun r s' h => ?_
    cases r with
    | none => exact h.1
    | some p =>
      rw [Mbuf.hdrLen_zero hok hp]
      exact Taken.newHead h

/-- Either the chain was freed for lack of mbufs, or there are `n` bytes of
some kind in front of its data, and the header is that of the new head. -/
theorem wp_prependLoop (hc : Chain s (some a) l) (hf : (freeIds s).length < fuel) :
    Wp (prependLoop fuel a n) (.total fun r s' => match r with
      | none => Moves s l s' []
      | some a' => ∃ l' bs, bs.length = n ∧
          Became s a l s' a' (l' ++ l) (bs ++ contents s l) n) s := by
  induction fuel generalizing s l a n with
  | zero => omega
  | succ fuel ih =>
    have ha := hc.head_mem
    have hok := ho.ok a ha
    refine wp_mb ?_
    rw [leadingspace_eq hok (ho.small ha)]
    generalize hk : min n ((s.mbuf a).omData - (s.mbuf a).omPkthdrLen) = k
    refine wp_deepen ho hc (by omega) fun s1 bs1 hbs1 hb1 homp hlen => ?_
    split
    · next h0 =>
      obtain rfl : k = n := by omega
      exact .pure ⟨[], bs1, hbs1, hb1⟩
    · next h0 =>
      have ho1 := hb1.moves.owned
      have hpk : (s.mbuf a).isPkthdr = (s1.mbuf a).isPkthdr := by
        unfold Mbuf.isPkthdr
        rw [hlen]
      rw [← homp, ← hlen, hpk]
      -- A new head, with room for the header if there is one.
      refine .bind_total (wp_getHead ho1 hb1.chain.head_mem) fun r s2 hr => ?_
      cases r with
      | none =>
        obtain rfl : s2 = s1 := hr
        refine .bind_total (wp_osMbufFreeChain ho1 hb1.chain) fun _ s3 h3 => .pure ?_
        exact hb1.moves.trans h3.2.2
      | some p =>
        refine wp_putHead ho1 hb1.chain rfl hr fun s3 hb2 => ?_
        have hfree1 := hb1.moves.free_length
        have hfree2 := hb2.moves.free_length
        simp only [length_cons] at hfree2
        refine (ih hb2.moves.owned hb2.chain (by omega)).mono_ok fun r s' h => ?_
        cases r with
        | none => exact (hb1.moves.trans hb2.moves).trans h
        | some a' =>
          obtain ⟨l', bs2, hbs2, hb3⟩ := h
          refine ⟨l' ++ [p], bs2 ++ bs1, ?_, ?_⟩
          · rw [length_append]
            omega
          have hb := (hb1.trans hb2).trans hb3
          rw [hb2.contents, hb1.contents, ← append_assoc] at hb
          rw [append_assoc l', singleton_append]
          have hx : n = k + 0 + (n - k : Nat) := by omega
          rw [hx]
          exact hb

theorem wp_osMbufPrepend (hc : Chain s (some a) l) :
    Wp (osMbufPrepend a n) (.total fun r s' => match r with
      | none => Moves s l s' []
      | some a' => ∃ l' bs, bs.length = n ∧
          Became s a l s' a' (l' ++ l) (bs ++ contents s l) n) s := by
  have hf := ho.length_le
  rw [length_append] at hf
  exact wp_fuel (wp_prependLoop ho hc (by omega))

end Prepend

/-! ## Trimming -/

section Trim

variable {s s' s₁ : MbufSt} {l L : List Nat} {a z fuel n : Nat} {p : Option Nat} {c : List UInt8}

/-- Bytes were cut off the data of `l`; links and headers are as before. -/
structure Trimmed (s : MbufSt) (L l : List Nat) (c : List UInt8) (s' : MbufSt) : Prop where
  moves : Moves s L s' L
  others : ∀ x ∉ l, s'.mbuf x = s.mbuf x
  next : ∀ x, (s'.mbuf x).omNext = (s.mbuf x).omNext
  hdr : ∀ x, (s'.mbuf x).hdr = (s.mbuf x).hdr
  contents : contents s' l = c

theorem Trimmed.refl (ho : Owned s L) : Trimmed s L l (Mbufs.contents s l) s :=
  ⟨.refl ho, fun _ _ => rfl, fun _ => rfl, fun _ => rfl, rfl⟩

/-- One mbuf is cut. -/
theorem trimmed_one {f : Mbuf → Mbuf} (ho : Owned s L) (ha : a ∈ L) (hok : (f (s.mbuf a)).Ok)
    (hsame : ∃ d k, f (s.mbuf a) = { s.mbuf a with omData := d, omLen := k })
    (hc : (f (s.mbuf a)).bytes = c) : Trimmed s L [a] c (s.upd a f) := by
  obtain ⟨d, k, hf⟩ := hsame
  refine ⟨ho.upd ha hok (by rw [hf]) (by rw [hf]), fun x hx => ?_, fun x => ?_, fun x => ?_, ?_⟩
  · exact upd_of_ne fun h => hx (by rw [h]; exact mem_singleton_self a)
  · by_cases hx : x = a
    · rw [hx, upd_self, hf]
    · rw [upd_of_ne hx]
  · by_cases hx : x = a
    · rw [hx, upd_self, hf]
      rfl
    · rw [upd_of_ne hx]
  · rw [contents_cons, upd_self, hc]
    exact append_nil c

theorem Trimmed.contents_other (h : Trimmed s L [a] c s') (ha : a ∉ l) :
    Mbufs.contents s' l = Mbufs.contents s l := by
  refine contents_congr fun x hx => ?_
  rw [h.others x]
  rintro hxa
  rw [mem_singleton.mp hxa] at hx
  exact ha hx

/-- First one mbuf is cut, then the rest of the chain. -/
theorem Trimmed.cons {c' : List UInt8} (h : Trimmed s L [a] c s₁) (h' : Trimmed s₁ L l c' s')
    (ha : a ∉ l) : Trimmed s L (a :: l) (c ++ c') s' := by
  refine ⟨h.moves.trans h'.moves, fun x hx => ?_, fun x => (h'.next x).trans (h.next x),
    fun x => (h'.hdr x).trans (h.hdr x), ?_⟩
  · rw [mem_cons, not_or] at hx
    rw [h'.others x hx.2, h.others x (by simpa using hx.1)]
  · have hself := h.contents
    rw [contents_cons, h'.contents, h'.others a ha, ← hself]
    simp [Mbufs.contents]

/-- The last mbuf of a chain is cut. -/
theorem Trimmed.snoc (h : Trimmed s L [z] c s') (hn : (l ++ [z]).Nodup) :
    Trimmed s L (l ++ [z]) (Mbufs.contents s l ++ c) s' := by
  have hz : z ∉ l := fun hz => (nodup_append.mp hn).2.2 z hz z (by simp) rfl
  refine ⟨h.moves, fun x hx => h.others x fun hxz => hx ?_, h.next, h.hdr, ?_⟩
  · exact mem_append_right l hxz
  · rw [contents_append, h.contents, h.contents_other hz]

theorem wp_trimHead (ho : Owned s L) (hl : l ⊆ L) (hc : Chain s p l) (hf : l.length + 1 < fuel) :
    Wp (trimHead fuel p n) (.total fun r s' =>
      r = n - (contents s l).length ∧ Trimmed s L l ((contents s l).drop n) s') s := by
  induction l generalizing s p fuel n with
  | nil =>
    obtain _ | fuel := fuel
    · omega
    obtain rfl : p = none := hc
    refine .pure ⟨rfl, ?_⟩
    rw [show (contents s []).drop n = contents s [] from drop_nil]
    exact .refl ho
  | cons a l ih =>
    obtain _ | fuel := fuel
    · omega
    have hnd := (nodup_cons.mp (Linked.nodup hc)).1
    obtain ⟨rfl, hrest⟩ := hc
    have ha : a ∈ L := hl mem_cons_self
    have hok := ho.ok a ha
    have hlen := hok.length_bytes
    simp only [length_cons] at hf
    unfold trimHead
    split
    · next h0 =>
      subst h0
      refine .pure ⟨(Nat.zero_sub _).symm, ?_⟩
      exact .refl ho
    rw [contents_cons, length_append, drop_append, hlen]
    refine wp_mb ?_
    split
    · next hle =>
      have hgone : (s.mbuf a).bytes.drop n = [] :=
        drop_eq_nil_of_le (by omega)
      have hone := trimmed_one (f := fun m => { m with omLen := 0 }) ho ha ⟨le_trans (Nat.le_add_right _ _) hok.data, hok.hdr⟩ ⟨_, _, rfl⟩ slice_zero
      refine wp_upd ?_
      refine (ih hone.moves.owned (fun x hx => hl (mem_cons_of_mem a hx))
        (Chain.congr hrest fun x _ => hone.next x) (by omega)).mono_ok fun r s' h => ?_
      obtain ⟨rfl, ht⟩ := h
      rw [hone.contents_other hnd] at ht ⊢
      rw [hgone]
      exact ⟨by omega, hone.cons ht hnd⟩
    · next hle =>
      have hd := hok.data
      have hok' : Mbuf.Ok { s.mbuf a with
          omLen := (s.mbuf a).omLen - n, omData := (s.mbuf a).omData + n } :=
        ⟨by simp only; omega, hok.hdr.imp_right fun h =>
          ⟨h.1, h.2.1, le_trans h.2.2 (Nat.le_add_right _ _)⟩⟩
      have hone := trimmed_one (f := fun m => { m with
        omLen := m.omLen - n, omData := m.omData + n }) ho ha hok' ⟨_, _, rfl⟩ drop_slice.symm
      obtain _ | fuel := fuel
      · omega
      refine wp_upd (.pure ⟨by omega, ?_⟩)
      have ht := hone.cons (.refl hone.moves.owned) hnd
      rw [hone.contents_other hnd] at ht
      rw [Nat.sub_eq_zero_of_le (by omega), drop_zero]
      exact ht

/-- The length of a chain, and its last mbuf. -/
theorem wp_countLoop {count : Nat} (ho : Owned s L) (hl : l ++ [z] ⊆ L)
    (hc : Chain s (some a) (l ++ [z])) (hf : l.length < fuel) :
    Wp (countLoop fuel a count) (.total fun r s' =>
      r = (count + (contents s (l ++ [z])).length, z) ∧ s' = s) s := by
  induction l generalizing a fuel count with
  | nil =>
    obtain _ | fuel := fuel
    · cases hf
    obtain ⟨ha, hn⟩ := hc
    obtain rfl := Option.some.inj ha
    have hnext : (s.mbuf a).omNext = none := hn
    have hlen := (ho.ok a (hl (by simp))).length_bytes
    refine wp_mb ?_
    rw [hnext]
    refine .pure ⟨?_, rfl⟩
    rw [nil_append, contents_cons, length_append, hlen]
    rfl
  | cons b l ih =>
    obtain _ | fuel := fuel
    · omega
    obtain ⟨ha, hrest⟩ := hc
    obtain rfl := Option.some.inj ha
    have hlen := (ho.ok a (hl mem_cons_self)).length_bytes
    obtain ⟨c, hnext⟩ : ∃ c, (s.mbuf a).omNext = some c := by
      cases l with
      | _ => exact ⟨_, hrest.1⟩
    refine wp_mb ?_
    rw [hnext]
    refine (ih (fun x hx => hl (mem_cons_of_mem a hx)) (by rw [← hnext]; exact hrest)
      (by simp only [length_cons] at hf; omega)).mono_ok fun r s' h => ⟨?_, h.2⟩
    rw [h.1, cons_append, contents_cons, length_append, hlen, add_assoc]

/-- The chain is cut off after `n` bytes, and the mbufs behind are free. -/
theorem wp_trimTail (ho : Owned s l) (hc : Chain s p l)
    (hn : n ≤ (contents s l).length) (hf : l.length < fuel) :
    Wp (trimTail fuel p n) (.total fun _ s' => ∃ l', l' <+: l ∧ Moves s l s' l' ∧ Chain s' p l' ∧
      contents s' l' = (contents s l).take n ∧ ∀ x ∈ l, (s'.mbuf x).hdr = (s.mbuf x).hdr) s := by
  induction l generalizing s p fuel n with
  | nil =>
    obtain _ | fuel := fuel
    · cases hf
    obtain rfl : p = none := hc
    refine .pure ⟨[], prefix_refl [], .refl ho, rfl, ?_, by simp⟩
    rw [show contents s [] = [] from rfl, take_nil]
  | cons a l ih =>
    obtain _ | fuel := fuel
    · omega
    have hswap : (a :: l).Perm (l ++ [a]) :=
      (perm_append_singleton a l).symm
    have hrest : Chain s (s.mbuf a).omNext l := hc.2
    obtain rfl : p = some a := hc.1
    have hok := ho.ok a mem_cons_self
    have hlen := hok.length_bytes
    simp only [length_cons] at hf
    rw [contents_cons, length_append, hlen] at hn
    rw [contents_cons, take_append, hlen]
    refine wp_mb ?_
    split
    · next hle =>
      have hd := hok.data
      have hone := trimmed_one (f := fun m => { m with omLen := n })
        (c := (s.mbuf a).bytes.take n) ho mem_cons_self
        ⟨by simp only; omega, hok.hdr⟩ ⟨_, _, rfl⟩ (take_slice hle).symm
      have hrest1 := Chain.congr hrest fun x _ => hone.next x
      rw [Nat.sub_eq_zero_of_le (by omega), take_zero, append_nil]
      refine wp_upd ?_
      cases hnext : (s.mbuf a).omNext with
      | none =>
        rw [hnext] at hrest1
        obtain rfl := hrest1.eq_nil
        refine .pure ⟨[a], prefix_refl [a], hone.moves,
          ⟨rfl, ?_⟩, hone.contents, fun x _ => hone.hdr x⟩
        exact (hone.next a).trans hnext
      | some next =>
        rw [hnext] at hrest1
        have ho1 := hone.moves.owned.perm hswap
        refine .bind_total (wp_osMbufFreeChain ho1.left hrest1) fun _ s2 h2 => .modify ?_
        obtain ⟨-, hsame, hm⟩ := h2
        have hm2 := hm.beside ho1
        have hm3 := hm2.owned.linkTo (b := none) (mem_singleton_self a)
        refine ⟨[a], ⟨l, rfl⟩, ?_, ⟨rfl, ?_⟩, ?_, fun x _ => ?_⟩
        · exact hone.moves.trans ((hm2.perm_left hswap.symm).trans hm3)
        · show ((s2.upd a (Mbuf.linkTo none)).mbuf a).omNext = none
          rw [upd_self]
          rfl
        · rw [← hone.contents]
          refine contents_congr fun x _ => ?_
          have hk := (kept_linkTo (s := s2) (z := a) (b := none) x).bytes
          rw [hsame] at hk
          exact hk
        · have hk := (kept_linkTo (s := s2) (z := a) (b := none) x).hdr
          rw [hsame] at hk
          exact hk.trans (hone.hdr x)
    · next hle =>
      have hall : (s.mbuf a).bytes.take n = (s.mbuf a).bytes :=
        take_of_length_le (by omega)
      have hor := (ho.perm hswap).left
      refine (ih hor hrest (by omega) (by omega)).mono_ok fun _ s' h => ?_
      obtain ⟨l', hpre, hm, hc', hcont, hhdr⟩ := h
      have hsame := hm.same (ho.perm hswap) (mem_singleton_self a)
      refine ⟨a :: l', ?_, ?_, ⟨rfl, ?_⟩, ?_, forall_mem_cons.mpr ⟨by rw [hsame], hhdr⟩⟩
      · obtain ⟨r, rfl⟩ := hpre
        exact ⟨r, rfl⟩
      · exact ((hm.beside (ho.perm hswap)).perm_left hswap.symm).perm_right
          (perm_append_singleton a l')
      · show Chain s' (s'.mbuf a).omNext l'
        rw [hsame]
        exact hc'
      · rw [contents_cons, hsame, hcont, hall]

/-- The data that `os_mbuf_adj` leaves. -/
def adjusted (c : List UInt8) (k : Int) : List UInt8 :=
  if 0 ≤ k then c.drop k.toNat else c.take (c.length - (-k).toNat)

theorem Trimmed.became {x : Int} (h : Trimmed s l l c s₁) (hc : Chain s (some a) l)
    (hr : Relength s₁ l a x s') : Became s a l s' a l c x where
  moves := h.moves.trans hr.moves
  chain := hc.congr fun y _ => (hr.next y).trans (h.next y)
  contents := by rw [contents_congr fun y _ => hr.bytes y, h.contents]
  hdr := by rw [hr.hdr, h.hdr]

/-- The header's length moves with the data, if it was the length of the
data before. -/
theorem wp_osMbufAdj {k : Int} (ho : Owned s l) (hc : Chain s (some a) l) :
    Wp (osMbufAdj (some a) k) (.total fun _ s' => ∃ l' x,
      l' <+: l ∧ Became s a l s' a l' (adjusted (contents s l) k) x ∧
      ((s.mbuf a).ompLen = (contents s l).length → x = (adjusted (contents s l) k).length
          - ((contents s l).length : Int))) s := by
  have ha := hc.head_mem
  have hfuel := ho.length_le
  rw [length_append] at hfuel
  refine wp_fuel ?_
  by_cases hk : 0 ≤ k
  · simp only [adjusted, if_pos hk]
    refine .bind_total (wp_trimHead ho (fun _ h => h) hc (by omega)) fun r s1 h => ?_
    obtain ⟨rfl, ht⟩ := h
    refine wp_mb (.bind_pure ?_)
    refine wp_shiftLen ht.moves.owned ha fun s' hr => .pure ?_
    refine ⟨l, _, prefix_refl l, ht.became hc hr, fun _ => ?_⟩
    rw [length_drop]
    omega
  simp only [adjusted, if_neg hk]
  generalize hn : (-k).toNat = n
  obtain ⟨l0, z, rfl⟩ := hc.exists_last
  have hz : z ∈ l0 ++ [z] := by simp
  rw [length_append, length_singleton] at hfuel
  refine .bind_total (wp_countLoop ho (fun _ h => h) hc (by omega)) fun r s1 h => ?_
  obtain ⟨rfl, rfl⟩ := h
  dsimp only
  refine wp_mb ?_
  have hok := ho.ok z hz
  have hlen := hok.length_bytes
  have htotal : (contents s1 (l0 ++ [z])).length
      = (contents s1 l0).length + (s1.mbuf z).omLen := by
    rw [contents_append, length_append, contents_cons, length_append, hlen]
    rfl
  split
  · next hle =>
    -- Only the last mbuf is cut.
    have hd := hok.data
    have hone := trimmed_one (f := fun m => { m with omLen := m.omLen - n })
      (c := (s1.mbuf z).bytes.take _) ho hz
      ⟨by simp only; omega, hok.hdr⟩ ⟨_, _, rfl⟩ (take_slice (Nat.sub_le ..)).symm
    have ht := hone.snoc ho.nodup_right
    have hcut : (contents s1 (l0 ++ [z])).take
        ((contents s1 (l0 ++ [z])).length - n) = contents s1 l0 ++
          (s1.mbuf z).bytes.take ((s1.mbuf z).omLen - n) := by
      rw [htotal, contents_append, contents_cons, take_append, take_of_length_le (by omega)]
      congr 1
      rw [show contents s1 [] = [] from rfl, append_nil]
      congr 1
      omega
    rw [← hcut] at ht
    refine wp_upd (wp_mb (.bind_pure ?_))
    refine wp_shiftLen ht.moves.owned ha fun s' hr => .pure ?_
    refine ⟨l0 ++ [z], _, prefix_refl _, ht.became hc hr, fun _ => ?_⟩
    rw [length_take]
    omega
  · next hle =>
    refine wp_mb ?_
    rw [zero_add]
    generalize hcount : (contents s1 (l0 ++ [z])).length - n = count
    have hx : count = (s1.mbuf a).ompLen + ((count : Int) - (s1.mbuf a).ompLen) := by
      omega
    rw [hx]
    refine wp_shiftLen ho ha fun s2 hr => ?_
    have hsame : contents s2 (l0 ++ [z]) = contents s1 (l0 ++ [z]) :=
      contents_congr fun y _ => hr.bytes y
    refine (wp_trimTail hr.moves.owned (hc.congr fun y _ => hr.next y)
      (by rw [hsame]; omega) (by simp; omega)).mono_ok fun _ s' h => ?_
    obtain ⟨l', hpre, hm, hc', hcont, hhdr⟩ := h
    refine ⟨l', count - (s1.mbuf a).ompLen, hpre, ⟨hr.moves.trans hm, hc', ?_, ?_⟩, fun h => ?_⟩
    · rw [hcont, hsame]
    · rw [hhdr a ha, hr.hdr]
    · rw [length_take, h]
      omega

end Trim

end Larva.Os.Mbufs
