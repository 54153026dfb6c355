import Larva.Os.MbufHead

/-!
# Operations on whole chains

Duplicating a chain reads mbufs that the copy does not own: they are outside
the move, so the copying leaves them as they are. Pulling data up fills one
mbuf from the front of the chain behind it and frees what it has emptied.
Copying into a chain overwrites data in place and appends the rest, to the
last mbuf and not to the chain.

All three handle the packet header in a way of their own, and their
specifications say what becomes of it.
-/

namespace Larva.Os.Mbufs

open Larva.Bytes Larva.Crash Larva.SList MbufM List Option

/-! ## Duplicating -/

section Dup

variable {s s' : MbufSt} {l r l' : List Nat} {a z omp fuel len : Nat} {q : MbufPool}
  {p : Option Nat}

/-- A copy of the mbuf, with the room before its data, fits a buffer of `len`
bytes. -/
def Mbuf.CopyFits (m : Mbuf) (len : Nat) : Prop :=
  m.omData - m.omPkthdrLen + m.omLen ≤ len

instance {m : Mbuf} : Decidable (m.CopyFits len) := Nat.decLe ..

/-- Copies of the mbufs of `r` fit, as far as there are mbufs for them. -/
def Copyable (s : MbufSt) (q : MbufPool) (r : List Nat) : Prop :=
  ∀ x ∈ r.take q.mpFree.length, (s.mbuf x).CopyFits q.ompDatabufLen

instance : Decidable (Copyable s q r) := decidableBAll ..

/-- Mbufs that are read, from outside of what is owned. -/
structure Readable (s : MbufSt) (l r : List Nat) : Prop where
  apart : ∀ x ∈ r, x ∉ freeIds s ++ l
  ok : ∀ x ∈ r, (s.mbuf x).Ok
  lead : ∀ x ∈ r, (s.mbuf x).leadingspace = (s.mbuf x).omData - (s.mbuf x).omPkthdrLen

theorem Readable.same (h : Readable s l r) (hm : Moves s l s' l') (hx : a ∈ r) :
    s'.mbuf a = s.mbuf a :=
  hm.frame a (h.apart a hx)

theorem Readable.move (h : Readable s l r) (hm : Moves s l s' l') : Readable s' l' r where
  apart := fun x hx hmem => h.apart x hx (hm.perm.mem_iff.mp hmem)
  ok := fun x hx => by
    rw [h.same hm hx]
    exact h.ok x hx
  lead := fun x hx => by
    rw [h.same hm hx]
    exact h.lead x hx

theorem Readable.tail (h : Readable s l (a :: r)) : Readable s l r :=
  ⟨fun x hx => h.apart x (mem_cons_of_mem a hx), fun x hx => h.ok x (mem_cons_of_mem a hx),
    fun x hx => h.lead x (mem_cons_of_mem a hx)⟩

/-- One mbuf of the pool is taken, for a copy of `a`. -/
theorem Readable.copyable_cons {q1 : MbufPool} (h : Readable s l (a :: r)) (hm : Moves s l s' l')
    (hfr : q.mpFree.length = q1.mpFree.length + 1) (hlen : q1.ompDatabufLen = q.ompDatabufLen) :
    Copyable s q (a :: r) ↔ (s.mbuf a).CopyFits q.ompDatabufLen ∧ Copyable s' q1 r := by
  unfold Copyable
  rw [hfr, hlen, take_succ_cons, forall_mem_cons]
  refine and_congr_right' (forall₂_congr fun x hx => ?_)
  rw [h.tail.same hm (mem_of_mem_take hx)]

/-- An mbuf without data takes over the data of another one. -/
theorem wp_dupInto (ho : Owned s l) (hz : z ∈ l) (haz : a ≠ z)
    (hempty : (s.mbuf z).omLen = 0) (hok : (s.mbuf a).Ok)
    (hfit : (s.mbuf z).omData + (s.mbuf a).omLen ≤ (s.mbuf z).omDatabuf.length) :
    Wp (dupInto z a) (.total fun _ s' => Grown s l z (s.mbuf a).bytes s')
      s := by
  refine wp_mb (wp_upd (wp_mb ?_))
  rw [upd_self]
  refine wp_load (by rw [upd_of_ne haz]; exact hok.data) ?_
  rw [upd_of_ne haz]
  have hlen := hok.length_bytes
  refine (wp_store_self ?_).mono_ok fun _ s' h => ?_
  · rw [upd_self]
    show (s.mbuf z).omData + (s.mbuf a).bytes.length ≤ _
    rw [hlen]
    exact hfit
  subst h
  rw [upd_upd]
  have hupd : (s.upd z fun c => stored (s.mbuf z).omData (s.mbuf a).bytes
      { c with omFlags := (s.mbuf a).omFlags
               omLen := (s.mbuf a).omLen }) = s.upd z fun c =>
        { c.longer (s.mbuf a).bytes with
          omFlags := (s.mbuf a).omFlags } := by
    refine upd_congr ?_
    unfold Mbuf.longer stored
    rw [hempty, hlen, zero_add, add_zero]
  refine hupd ▸ ?_
  obtain ⟨hok', hbytes, hhdr, hbuf⟩ := (ho.ok z hz).longer (by rw [hempty, hlen, add_zero]; exact hfit)
  refine ⟨ho.upd hz { hok' with } rfl hbuf,
    fun x hx => upd_of_ne hx, ?_, ?_, ?_, rfl⟩ <;> rw [upd_self]
  · rfl
  · exact hbytes
  · exact hhdr

/-- The data is behind the buffer. -/
theorem wp_dupInto_out {Q : Post MbufSt Empty Unit} (haz : a ≠ z) (hok : (s.mbuf a).Ok)
    (hout : (s.mbuf z).omDatabuf.length < (s.mbuf z).omData + (s.mbuf a).omLen) (h : Q.stuck) :
    Wp (dupInto z a) Q s := by
  refine wp_mb (wp_upd (wp_mb (wp_load (by rw [upd_of_ne haz]; exact hok.data) (wp_mb ?_))))
  have hlen := hok.length_bytes
  rw [upd_self, upd_of_ne haz, if_neg]
  · exact .abort h
  · show ¬ (s.mbuf z).omData + (s.mbuf a).bytes.length ≤ (s.mbuf z).omDatabuf.length
    omega

/-- The copies are linked one by one behind those made so far. A copy that
does not fit is written behind its buffer. Otherwise, either the pool runs out
of mbufs, and all copies are free again, or the rest of the chain is copied. -/
theorem wp_dupLoop {c : List Nat} {h : Nat} (ho : Owned s (c ++ [z]))
    (hcc : Chain s (some h) (c ++ [z])) (hr : Readable s (c ++ [z]) r) (hc : Chain s p r)
    (hq : s.pools[omp]? = some q) (hf : r.length < fuel) :
    Wp (dupLoop omp h fuel z p) ⟨fun res s' => Copyable s q r ∧ match res with
      | none => q.mpFree.length < r.length ∧ Moves s (c ++ [z]) s' []
      | some h' => h' = h ∧ r.length ≤ q.mpFree.length ∧ ∃ c', c'.length = r.length ∧
          Extended s (some h) (c ++ [z]) (contents s r) s' c',
      fun _ _ => False, fun _ => False, ¬ Copyable s q r⟩ s := by
  induction r generalizing s p fuel c z q with
  | nil =>
    obtain _ | fuel := fuel
    · cases hf
    obtain rfl : p = none := hc
    exact .pure ⟨by simp [Copyable], rfl, Nat.zero_le _, [], rfl, .refl ho hcc⟩
  | cons a r ih =>
    obtain _ | fuel := fuel
    · omega
    obtain ⟨rfl, hrest⟩ := hc
    have hok := hr.ok a mem_cons_self
    simp only [length_cons] at hf ⊢
    refine wp_mb ?_
    rw [hr.lead a mem_cons_self]
    refine .bind_total (wp_osMbufGet_free ho hq) fun res s1 h1 => ?_
    cases res with
    | none =>
      obtain ⟨rfl, hnone⟩ := h1
      refine wp_upd ?_
      have hlink := ho.linkTo (b := none) (z := z) (by simp)
      refine .bind_total (wp_osMbufFreeChain hlink.owned
        (hcc.congr fun x hx => ?_)) fun _ s2 h2 => .pure ?_
      · by_cases hxz : x = z
        · subst hxz
          have hlast := (Seg.last (seg_none.mpr hcc)).2
          rw [upd_self]
          exact hlast.symm
        · rw [upd_of_ne hxz]
      · refine ⟨by simp [Copyable, hnone], ?_⟩
        rw [hnone]
        exact ⟨Nat.succ_pos _, hlink.trans h2.2.2⟩
    | some b =>
      obtain ⟨rest, hfree, hs1⟩ := h1
      have hb : b ∈ q.mpFree := by
        rw [hfree]
        exact mem_cons_self
      have hbf : b ∈ freeIds s := mem_flatMap.mpr ⟨q, mem_of_getElem? hq, hb⟩
      have hbz : b ≠ z := by
        rintro rfl
        exact ho.not_free (by simp) hbf
      have hab : a ≠ b := by
        rintro rfl
        exact hr.apart a mem_cons_self (mem_append_left _ hbf)
      by_cases hfits : (s.mbuf a).CopyFits q.ompDatabufLen
      case neg =>
        have hout : ¬ _ ≤ _ := hfits
        have hhome := (ho.pools.home q (mem_of_getElem? hq) b hb).2
        have haz : a ≠ z := by
          rintro rfl
          exact hr.apart a mem_cons_self (by simp)
        have ha : ((s1.upd z (Mbuf.linkTo (some b))).mbuf a) = s.mbuf a := by
          rw [upd_of_ne haz, hs1, upd_of_ne hab]
          rfl
        refine wp_link (.bind (wp_dupInto_out hab (by rw [ha]; exact hok) ?_ fun h =>
          hfits (h a (by rw [hfree]; exact mem_cons_self))))
        rw [ha, upd_of_ne hbz, hs1, upd_self]
        show (s.mbuf b).omDatabuf.length < (s.mbuf a).omData - _ + _
        omega
      have hlead : _ ≤ _ := hfits
      have ht := taken_of_free ho hq (Nat.le_of_add_right_le hlead) hfree
      rw [← hs1] at ht
      obtain ⟨q1, hfr, hq1, hlen1⟩ := ht.pool_eq hq
      have hx := extended_link ho hcc ht
      have hself : (s1.upd z (Mbuf.linkTo (some b))).mbuf b
          = fresh omp ((s.mbuf a).omData - (s.mbuf a).omPkthdrLen) (s.mbuf b) := by
        rw [upd_of_ne hbz, ht.self]
      have hbbuf := ht.databuf hq
      rw [ht.self] at hbbuf
      have hr1 := hr.move hx.moves
      have hsame := hr.same hx.moves mem_cons_self
      refine wp_link (.bind_total (wp_dupInto hx.moves.owned (by simp)
        hab (by rw [hself]; rfl) (by rw [hsame]; exact hok) ?_) fun _ s2 hg => ?_)
      · rw [hself, hsame]
        show (s.mbuf a).omData - _ + (s.mbuf a).omLen ≤ (s.mbuf b).omDatabuf.length
        have hbb : (s.mbuf b).omDatabuf.length = q.ompDatabufLen := hbbuf
        omega
      have hx2 := hx.grow (c := []) hg
      rw [hsame, nil_append, nil_append] at hx2
      have hr2 := (hr.move hx2.moves).tail
      have hcopy := hr.copyable_cons hx2.moves (by rw [hfr]; rfl) hlen1
      have hrest2 : Chain s2 (s.mbuf a).omNext r :=
        Chain.same hrest fun _ => hr.tail.same hx2.moves
      have hcont : contents s2 r = contents s r :=
        contents_same fun _ => hr.tail.same hx2.moves
      refine (ih hx2.moves.owned hx2.chain hr2 hrest2
        (by rw [hg.pools]; exact hq1) (by omega)).mono (fun res s' h' => ?_) (fun _ _ => id)
        (fun _ => id) fun hst h => hst (hcopy.mp h).2
      refine ⟨hcopy.mpr ⟨hfits, h'.1⟩, ?_⟩
      rw [hfr, length_cons]
      cases res with
      | none => exact ⟨Nat.succ_lt_succ h'.2.1, hx2.moves.trans h'.2.2⟩
      | some h' =>
        obtain ⟨-, rfl, hle, c', hc', hx'⟩ := h'
        refine ⟨rfl, Nat.succ_le_succ hle, b :: c', ?_, ?_⟩
        · rw [length_cons, hc']
        · rw [hcont] at hx'
          exact hx2.trans hx'

/-- The header is copied into the buffer, and the mbuf has none. -/
theorem wp_copyHdr {b : Bool} (ho : Owned s (z :: l)) (hok : (s.mbuf a).Ok)
    (hbuf : (s.mbuf a).omPkthdrLen ≤ (s.mbuf z).omDatabuf.length) :
    Wp (if b then osMbufCopypkthdr z a else pure ())
      (.total fun _ s1 => Moves s (z :: l) s1 (z :: l) ∧
        s1.pools = s.pools ∧ (∀ x ≠ z, s1.mbuf x = s.mbuf x) ∧
        ∃ db, db.length = (s.mbuf z).omDatabuf.length ∧
          s1.mbuf z = { s.mbuf z with omDatabuf := db }) s := by
  have hle := hok.hdrLen_le
  have hd := hok.data
  split
  · refine wp_mb (wp_load (by omega) ?_)
    have hlen : (slice (s.mbuf a).omDatabuf 0 (s.mbuf a).omPkthdrLen).length
        = (s.mbuf a).omPkthdrLen := length_slice (by omega)
    have hfit : 0 + (slice (s.mbuf a).omDatabuf 0
        (s.mbuf a).omPkthdrLen).length ≤ (s.mbuf z).omDatabuf.length := by
      omega
    refine (wp_store_self hfit).mono_ok fun _ s1 h => ?_
    subst h
    have hmem : z ∈ z :: l := mem_cons_self
    exact ⟨ho.upd hmem ((ho.ok z hmem).stored hfit) rfl (length_splice hfit),
      rfl, fun x hx => upd_of_ne hx, _, length_splice hfit, by rw [upd_self]; rfl⟩
  · exact .pure ⟨.refl ho, rfl, fun _ _ => rfl, _, rfl, rfl⟩

theorem Owned.copyFits (ho : Owned s l) (ha : a ∈ l) (hq : s.pools[(s.mbuf a).omOmp]? = some q) :
    (s.mbuf a).CopyFits q.ompDatabufLen := by
  have hbuf := (Moves.refl ho).databuf ha rfl hq
  have hd := (ho.ok a ha).data
  unfold Mbuf.CopyFits
  omega

/-- What a duplicate is. It needs as many mbufs as the chain has. It has the
chain's data, and no packet header: the bytes of the header are copied, and
their number is not. -/
def Duplicated (s : MbufSt) (l : List Nat) (q : MbufPool) (res : Option Nat) (s' : MbufSt) : Prop :=
  match res with
  | none => q.mpFree.length < l.length ∧ Moves s [] s' []
  | some h => l.length ≤ q.mpFree.length ∧ ∃ c,
      c.length = l.length ∧ Moves s [] s' c ∧ Chain s' (some h) c ∧
      contents s' c = contents s l ∧ (s'.mbuf h).hdr = none

section

variable (ho : Owned s l) (hc : Chain s (some a) l) (hq : s.pools[(s.mbuf a).omOmp]? = some q)
include ho hc hq

theorem wp_osMbufDup_or : Wp (osMbufDup a) ⟨fun res s' => Copyable s q l ∧ Duplicated s l q res s',
      fun _ _ => False, fun _ => False, ¬ Copyable s q l⟩ s := by
  obtain ⟨r, rfl⟩ := hc.cons_of_some
  have hread : Readable s [] (a :: r) := by
    refine ⟨fun x hx => ?_, ho.ok, fun x hx => leadingspace_eq (ho.ok x hx) (ho.small hx)⟩
    rw [append_nil]
    exact ho.not_free hx
  have ho0 : Owned s [] := ho.left
  have hok := hread.ok a mem_cons_self
  have hfits := ho.copyFits mem_cons_self hq
  have hfit : _ ≤ _ := hfits
  refine wp_mb ?_
  rw [hread.lead a mem_cons_self]
  refine .bind_total (wp_osMbufGet ho0 hq (by omega)) fun res s1 h1 => ?_
  cases res with
  | none =>
    obtain ⟨rfl, hnone⟩ := h1
    refine .pure ⟨by simp [Copyable, hnone], ?_, .refl ho0⟩
    rw [hnone]
    exact Nat.succ_pos _
  | some h =>
    have ht : Taken s [] _ _ h s1 := h1
    obtain ⟨q1, hfr, hq1, hlen1⟩ := ht.pool_eq hq
    have hr1 := hread.move ht.moves
    have hah : a ≠ h := by
      rintro rfl
      exact hr1.apart a mem_cons_self (by simp)
    have hhbuf := ht.databuf hq
    have hhdr : (s1.mbuf a).omPkthdrLen ≤ (s1.mbuf h).omDatabuf.length := by
      have hbuf := (Moves.refl ho).databuf mem_cons_self rfl hq
      have hle := hok.hdrLen_le
      have hd := hok.data
      rw [hread.same ht.moves mem_cons_self]
      omega
    refine .bind_total (wp_copyHdr ht.moves.owned (hr1.ok a mem_cons_self) hhdr) fun _ s2 h2 => ?_
    obtain ⟨hm2, hp2, -, db, hdb, hself2⟩ := h2
    have hm := ht.moves.trans hm2
    have hsame2 := hread.same hm mem_cons_self
    have hh : s2.mbuf h = { fresh (s.mbuf a).omOmp
        ((s.mbuf a).omData - (s.mbuf a).omPkthdrLen) (s.mbuf h) with
        omDatabuf := db } := by
      rw [hself2, ht.self]
    refine .bind_total (wp_dupInto hm2.owned (mem_singleton_self h)
      hah (by rw [hh]; rfl) (by rw [hsame2]; exact hok) ?_) fun _ s3 hg => ?_
    · rw [hh, hsame2]
      show (s.mbuf a).omData - _ + (s.mbuf a).omLen ≤ db.length
      omega
    have hm3 := hm.trans hg.moves
    have hr3 := (hread.move hm3).tail
    have hcopy := hread.copyable_cons hm3 (by rw [hfr]; rfl) hlen1
    have hrest : Chain s3 (s.mbuf a).omNext r :=
      Chain.same hc.2 fun _ => hread.tail.same hm3
    have hnew : Chain s3 (some h) ([] ++ [h]) :=
      ⟨rfl, hg.next.trans (by rw [hh]; rfl)⟩
    have hfuel : r.length < s3.numBlocks + 2 := by
      have hall := ho.length_lt_fuel
      have hn : s3.numBlocks = s.numBlocks := numBlocks_shape hm3.shape
      rw [length_cons] at hall
      omega
    refine wp_fuel ((wp_dupLoop hg.moves.owned hnew hr3 hrest
      (by rw [hg.pools, hp2]; exact hq1) hfuel).mono (fun res s' h' => ?_) (fun _ _ => id)
      (fun _ => id) fun hst h => hst (hcopy.mp h).2)
    refine ⟨hcopy.mpr ⟨hfits, h'.1⟩, ?_⟩
    unfold Duplicated
    rw [hfr, length_cons, length_cons]
    cases res with
    | none => exact ⟨Nat.succ_lt_succ h'.2.1, hm3.trans h'.2.2⟩
    | some h' =>
      obtain ⟨-, rfl, hle, c', hc', hx⟩ := h'
      have hk := hx.kept h' (mem_singleton_self h')
      refine ⟨Nat.succ_le_succ hle, h' :: c', ?_, hm3.trans hx.moves, hx.chain, ?_, ?_⟩
      · rw [length_cons, hc']
      · have hfirst : (s2.mbuf h').bytes = [] := by
          rw [hh]
          exact slice_zero
        have hcont : contents s3 r = contents s r :=
          contents_same fun _ => hread.tail.same hm3
        rw [contents_cons, contents_cons, hx.contents, hk.bytes, hg.bytes,
          hfirst, hsame2, hcont, nil_append]
      · rw [hk.hdr, hg.hdr, hh]
        rfl

theorem wp_osMbufDup (hfits : ∀ x ∈ l, (s.mbuf x).CopyFits q.ompDatabufLen) :
    Wp (osMbufDup a) (.total (Duplicated s l q)) s :=
  (wp_osMbufDup_or ho hc hq).mono (fun _ _ h => h.2) (fun _ _ => id) (fun _ => id)
    fun hst => hst fun x hx => hfits x (mem_of_mem_take hx)

end

end Dup

/-! ## Pulling up -/

section Pullup

variable {s s' : MbufSt} {l r : List Nat} {a b t fuel n len space : Nat}
  {q : MbufPool}

/-- The data of `r` has moved up to `t`, as far as it was wanted; what was
emptied is free. -/
structure Pulled (s : MbufSt) (t : Nat) (r : List Nat) (len : Nat)
    (s' : MbufSt) (p' : Option Nat) (r' : List Nat) : Prop where
  moves : Moves s (t :: r) s' (t :: r')
  chain : Chain s' p' r'
  contents : (s'.mbuf t).bytes ++ contents s' r' = (s.mbuf t).bytes ++ contents s r
  omLen : (s'.mbuf t).omLen = (s.mbuf t).omLen + min len (Mbufs.contents s r).length
  hdr : (s'.mbuf t).hdr = (s.mbuf t).hdr
  rest : (Mbufs.contents s r).length < len → r' = []

/-- One turn: the wanted part of the first mbuf's data. -/
theorem wp_pullupData {α : Type} {Q : Post MbufSt Empty α}
    {k : Unit → MbufM α} (ho : Owned s (t :: b :: r)) (hn : n ≤ (s.mbuf b).omLen)
    (hfit : (s.mbuf t).omData + (s.mbuf t).omLen + n ≤ (s.mbuf t).omDatabuf.length)
    (h : ∀ s1, Grown s (t :: b :: r) t ((s.mbuf b).bytes.take n) s1 →
      (s1.mbuf t).omLen = (s.mbuf t).omLen + n → (s1.mbuf t).omData = (s.mbuf t).omData →
      (s1.mbuf t).omDatabuf.length = (s.mbuf t).omDatabuf.length → Wp (k ()) Q s1) :
    Wp (load b (s.mbuf b).omData n >>= fun data =>
      store t ((s.mbuf t).omData + (s.mbuf t).omLen) data >>= fun _ =>
      MbufM.upd t (fun m => { m with omLen := u16 (m.omLen + n) }) >>= k)
      Q s := by
  have hd := (ho.ok b (by simp)).data
  have hsmall := ho.small mem_cons_self
  have hdata : slice (s.mbuf b).omDatabuf (s.mbuf b).omData n
      = (s.mbuf b).bytes.take n := (take_slice hn).symm
  have hlen : ((s.mbuf b).bytes.take n).length = n := by
    rw [← hdata]
    exact length_slice (by omega)
  refine wp_load (by omega) ?_
  rw [hdata]
  refine wp_store (by omega) (wp_upd ?_)
  rw [longer_eq hlen (by omega)]
  refine h _ (grown_longer ho mem_cons_self (by omega)) ?_ ?_ ?_ <;> rw [upd_self]
  · show _ + ((s.mbuf b).bytes.take n).length = _
    rw [hlen]
  · rfl
  · exact length_splice (by omega)

section

variable (ho : Owned s (t :: r)) (hc : Chain s (some b) r)
  (hfit : (s.mbuf t).omData + (s.mbuf t).omLen + len ≤ (s.mbuf t).omDatabuf.length)
include ho hc hfit

theorem wp_pullupLoop (hspace : len ≤ space) (hf : r.length < fuel) :
    Wp (pullupLoop t fuel len space b) (.total fun res s' =>
      res.1 = len - (contents s r).length ∧
      ∃ r', Pulled s t r len s' res.2 r') s := by
  induction fuel generalizing s r b len space with
  | zero => omega
  | succ fuel ih =>
    obtain ⟨r, rfl⟩ := hc.cons_of_some
    have hrest : Chain s (s.mbuf b).omNext r := hc.2
    have hswap : (t :: b :: r).Perm (b :: t :: r) := .swap ..
    have htb : t ≠ b := fun h =>
      (nodup_cons.mp ho.nodup_right).1 (h ▸ mem_cons_self)
    have hbr : b ∉ r := (nodup_cons.mp (Linked.nodup hc)).1
    have htr : t ∉ r := fun h =>
      (nodup_cons.mp ho.nodup_right).1 (mem_cons_of_mem b h)
    have hok := ho.ok b (by simp)
    have hd := hok.data
    have hlen := hok.length_bytes
    have htotal : (contents s (b :: r)).length = (s.mbuf b).omLen + (contents s r).length := by
      rw [contents_cons, length_append, hlen]
    simp only [length_cons] at hf
    refine wp_mb (wp_mb ?_)
    generalize hn : min (min len space) (s.mbuf b).omLen = n
    refine wp_pullupData ho (by omega) (by omega) fun s1 hg hlen1 hdata1 hbuf1 => ?_
    have hb1 : s1.mbuf b = s.mbuf b := hg.others b htb.symm
    have hr1 : ∀ x ∈ r, s1.mbuf x = s.mbuf x := fun x hx => by
      rw [hg.others x]
      rintro rfl
      exact htr hx
    refine wp_upd ?_
    split
    · next hmore =>
      -- Data is left in `b`, so all that was wanted is there.
      have hall : n = len := by omega
      subst hall
      refine .bind (wp_upd (.pure ?_))
      dsimp only
      rw [upd_upd, Nat.sub_self, if_neg (lt_irrefl 0)]
      refine .pure ⟨by omega, b :: r, ?_⟩
      have hcut : Mbuf.Ok { s.mbuf b with
          omLen := (s.mbuf b).omLen - n
          omData := (s.mbuf b).omData + n } :=
        ⟨by simp only; omega, hok.hdr.imp_right fun h =>
          ⟨h.1, h.2.1, le_trans h.2.2 (Nat.le_add_right _ _)⟩⟩
      have hone := trimmed_one (a := b) (f := fun m => { m with
        omLen := m.omLen - n, omData := m.omData + n })
        (c := (s.mbuf b).bytes.drop n) hg.moves.owned (by simp)
        (by rw [hb1]; exact hcut) ⟨_, _, rfl⟩
        (by rw [hb1]; exact drop_slice.symm)
      refine ⟨hg.moves.trans hone.moves, ?_, ?_, ?_, ?_, ?_⟩
      · exact hc.congr fun x _ => by
          rw [hone.next x]
          by_cases hx : x = t
          · rw [hx, hg.next]
          · rw [hg.others x hx]
      · have hself := hone.contents
        rw [contents_cons] at hself
        rw [upd_of_ne htb, hg.bytes, contents_cons, contents_cons,
          hone.contents_other hbr, contents_same hr1]
        rw [show contents _ [] = [] from rfl, append_nil] at hself
        rw [hself, append_assoc, ← append_assoc _ _ (contents s r), take_append_drop]
      · rw [upd_of_ne htb, hlen1]
        omega
      · rw [hone.hdr, hg.hdr]
      · intro h
        omega
    · next hdone =>
      -- `b` is empty and freed.
      have hall : n = (s.mbuf b).omLen := by omega
      have hgone : (s.mbuf b).bytes.take n = (s.mbuf b).bytes :=
        take_of_length_le (by omega)
      have hz := hg.moves.owned.upd (f := fun m => { m with omLen := m.omLen - n })
        (a := b) (by simp) (by
          rw [hb1]
          exact ⟨by simp only; omega, hok.hdr⟩) rfl rfl
      generalize hs2 : (s1.upd b fun m => { m with
        omLen := m.omLen - n }) = s2 at hz ⊢
      have hsame2 : ∀ x ≠ b, s2.mbuf x = s1.mbuf x := fun x hx => by
        rw [← hs2, upd_of_ne hx]
      refine .bind (.bind_total (wp_osMbufFree (hz.owned.perm hswap)) fun _ s3 h3 => .pure ?_)
      obtain ⟨-, hsame3, hm3⟩ := h3
      have hm : Moves s (t :: b :: r) s3 (t :: r) :=
        (hg.moves.trans hz).trans (hm3.perm_left hswap.symm)
      have ht3 : s3.mbuf t = s1.mbuf t := by
        rw [hsame3, hsame2 t htb]
      have hr3 : ∀ x ∈ r, s3.mbuf x = s.mbuf x := fun x hx => by
        rw [hsame3, hsame2 x (fun h => hbr (h ▸ hx)), hr1 x hx]
      have hcr : contents s3 r = contents s r := contents_same hr3
      have hrest3 : Chain s3 (s.mbuf b).omNext r := Chain.same hrest hr3
      have hbytes : (s3.mbuf t).bytes = (s.mbuf t).bytes ++ (s.mbuf b).bytes := by
        rw [ht3, hg.bytes, hgone]
      have hcont : (s3.mbuf t).bytes ++ contents s3 r
          = (s.mbuf t).bytes ++ contents s (b :: r) := by
        rw [hbytes, hcr, append_assoc, contents_cons]
      have hhdr : (s3.mbuf t).hdr = (s.mbuf t).hdr := by
        rw [ht3, hg.hdr]
      have hstop : len - n = 0 ∨ (s.mbuf b).omNext = none →
          Pulled s t (b :: r) len s3 (s.mbuf b).omNext r ∧
            len - n = len - (contents s (b :: r)).length := by
        intro hor
        have hr0 : (s.mbuf b).omNext = none → r = [] := fun h => (h ▸ hrest).eq_nil
        have hle : len - n = 0 ∨ contents s r = [] := hor.imp_right fun h => by rw [hr0 h]; rfl
        refine ⟨⟨hm, hrest3, hcont, ?_, hhdr, fun h => ?_⟩, ?_⟩
        · rw [ht3, hlen1, htotal]
          rcases hle with h | h
          · omega
          · rw [h, length_nil]
            omega
        · rcases hor with h0 | h0
          · omega
          · exact hr0 h0
        · rcases hle with h | h
          · omega
          · rw [htotal, h, length_nil]
            omega
      split
      · next hmore =>
        cases hnext : (s.mbuf b).omNext with
        | none =>
          obtain ⟨hp, he⟩ := hstop (.inr hnext)
          rw [hnext] at hp
          exact .pure ⟨he, r, hp⟩
        | some c =>
          rw [hnext] at hrest3
          have hfit3 : (s3.mbuf t).omData + (s3.mbuf t).omLen
              + (len - n) ≤ (s3.mbuf t).omDatabuf.length := by
            rw [ht3]
            omega
          refine (ih hm.owned hrest3 hfit3 (by omega) (by omega)).mono_ok fun res s' h => ?_
          obtain ⟨he, r', hp⟩ := h
          rw [hcr] at he
          refine ⟨by omega, r', hm.trans hp.moves, hp.chain, ?_, ?_,
            hp.hdr.trans hhdr, fun h => hp.rest ?_⟩
          · rw [hp.contents, hcont]
          · rw [hp.omLen, ht3, hlen1, hcr, htotal]
            omega
          · rw [hcr]
            omega
      · next hmore =>
        obtain ⟨hp, he⟩ := hstop (.inl (by omega))
        exact .pure ⟨he, r, hp⟩

/-- From the mbuf that the data goes to, to the end of `os_mbuf_pullup`. -/
theorem wp_pullupFill : Wp (do
      let space ← trailingspace t
      let n ← MbufM.fuel
      let (len, om) ← pullupLoop t n len space b
      if 0 < len then do
        let _ ← osMbufFree t
        let _ ← osMbufFreeChain om
        pure none
      else do
        MbufM.upd t fun m => { m with omNext := om }
        pure (some t))
      (.total fun res s' => match res with
        | none => (contents s r).length < len ∧ Moves s (t :: r) s' []
        | some h => h = t ∧ ∃ r', Moves s (t :: r) s' (t :: r') ∧ Chain s' (some t) (t :: r') ∧
            contents s' (t :: r') = contents s (t :: r) ∧
            (s'.mbuf t).omLen = (s.mbuf t).omLen + len ∧ (s'.mbuf t).hdr = (s.mbuf t).hdr) s := by
  have hf := ho.length_lt_fuel
  rw [length_cons] at hf
  refine wp_trailingspace ho mem_cons_self (wp_fuel (.bind_total
    (wp_pullupLoop ho hc hfit (by omega) (by omega)) fun res s1 h => ?_))
  obtain ⟨len', p'⟩ := res
  obtain ⟨he, r', hp⟩ := h
  dsimp only at he hp ⊢
  split
  · next hmore =>
    obtain rfl : r' = [] := hp.rest (by omega)
    refine .bind_total (wp_osMbufFree hp.moves.owned) fun _ s2 h2 => ?_
    obtain ⟨-, hsame, hm2⟩ := h2
    have hnone : p' = none := hp.chain
    refine .bind_total (wp_osMbufFreeChain hm2.owned hnone) fun _ s3 h3 => .pure ?_
    exact ⟨by omega, (hp.moves.trans hm2).trans h3.2.2⟩
  · next hmore =>
    have hnd := (nodup_cons.mp hp.moves.owned.nodup_right).1
    have hk : ∀ x, Kept s1 (s1.upd t (Mbuf.linkTo p')) x :=
      kept_linkTo
    refine wp_link (.pure ⟨rfl, r', hp.moves.trans
      (hp.moves.owned.linkTo mem_cons_self), ⟨rfl, ?_⟩, ?_, ?_, ?_⟩)
    · show Chain _ ((s1.upd t (Mbuf.linkTo p')).mbuf t).omNext r'
      rw [upd_self]
      refine Chain.congr hp.chain fun x hx => ?_
      rw [upd_of_ne (by rintro rfl; exact hnd hx)]
    · rw [contents_kept fun x _ => hk x, contents_cons, hp.contents, contents_cons]
    · rw [upd_self]
      show (s1.mbuf t).omLen = _
      rw [hp.omLen]
      omega
    · rw [(hk t).hdr, hp.hdr]

end

/-- The head of the chain has room for `n` bytes. -/
def InPlace (s : MbufSt) (a n : Nat) : Prop :=
  n ≤ (s.mbuf a).omLen ∨ (s.mbuf a).omNext ≠ none ∧ n ≤ (s.mbuf a).omLen + spaceIn s a

instance : Decidable (InPlace s a n) := by
  unfold InPlace
  infer_instance

/-- What is missing for a new head. -/
def NoHead (s : MbufSt) (a n : Nat) (q : MbufPool) : Prop :=
  q.mpFree = [] ∨ q.ompDatabufLen < n + (s.mbuf a).omPkthdrLen

/-- The mbuf `t` that the data of `r` is to be pulled up to. -/
structure Target (s : MbufSt) (a : Nat) (l : List Nat) (n : Nat)
    (q : MbufPool) (s' : MbufSt) (t : Nat) (r : List Nat) (len : Nat) : Prop where
  moves : Moves s l s' (t :: r)
  contents : contents s' (t :: r) = contents s l
  omLen : (s'.mbuf t).omLen + len = n
  fit : (s'.mbuf t).omData + n ≤ (s'.mbuf t).omDatabuf.length
  hdr : (s'.mbuf t).hdr = if InPlace s a n then (s.mbuf a).hdr else none
  room : InPlace s a n ∨ ¬ NoHead s a n q

theorem wp_pullupInto (ho : Owned s l) (hc : Chain s (some a) l)
    (hq : s.pools[(s.mbuf a).omOmp]? = some q) (hn : ¬ n ≤ (s.mbuf a).omLen) :
    Wp (pullupInto a n) (.total fun res s1 => match res with
      | none => s1 = s ∧ ¬ InPlace s a n ∧ NoHead s a n q
      | some (t, b, len) => ∃ r, Chain s1 (some b) r ∧ Target s a l n q s1 t r len) s := by
  have ha := hc.head_mem
  have hok := ho.ok a ha
  refine wp_mb (wp_trailingspace ho ha ?_)
  split
  · next b hb hroom =>
    obtain ⟨r, rfl⟩ := hc.cons_of_some
    have hroom := of_decide_eq_true hroom
    have hin : InPlace s a n :=
      .inr ⟨by rw [hb]; exact some_ne_none b, hroom⟩
    have hrest : Chain s (s.mbuf a).omNext r := hc.2
    rw [hb] at hrest
    refine .pure ⟨r, hrest, .refl ho, rfl, by omega, by omega, ?_, .inl hin⟩
    rw [if_pos hin]
  · next hno =>
    have hnot : ¬ InPlace s a n := by
      rintro (h | ⟨hnext, hroom⟩)
      · exact hn h
      · obtain ⟨b, hb⟩ := ne_none_iff_exists'.mp hnext
        exact hno b hb (decide_eq_true hroom)
    refine wp_pool hq ?_
    split
    · next hlt => exact .pure ⟨rfl, hnot, .inr hlt⟩
    · next hlt =>
      refine .bind_total (wp_osMbufGet ho hq (Nat.zero_le _)) fun res s1 h1 => ?_
      cases res with
      | none =>
        obtain ⟨rfl, hnone⟩ := h1
        exact .pure ⟨rfl, hnot, .inl hnone⟩
      | some t =>
        have ht : Taken s l _ 0 t s1 := h1
        obtain ⟨q1, hfr, -⟩ := ht.pool_eq hq
        have hbuf := ht.databuf hq
        have hold : ∀ x ∈ l, x ≠ t := fun x hx => ne_of_mem_of_not_mem hx ht.new
        have hself := ht.others a (hold a ha)
        have hdec : InPlace s a n ∨ ¬ NoHead s a n q := by
          refine .inr ?_
          rintro (h | h)
          · rw [hfr] at h
            cases h
          · exact hlt h
        refine .bind_total (wp_copyHdr ht.moves.owned (by rw [hself]; exact hok)
          (by rw [hself]; omega)) fun _ s2 h2 => .pure ?_
        obtain ⟨hm2, -, hother2, db, hdb, hself2⟩ := h2
        have hkeep : ∀ x ∈ l, s2.mbuf x = s.mbuf x := fun x hx => by
          rw [hother2 x (hold x hx), ht.others x (hold x hx)]
        have ht2 : s2.mbuf t = { fresh (s.mbuf a).omOmp 0 (s.mbuf t) with
            omDatabuf := db } := by
          rw [hself2, ht.self]
        refine ⟨l, hc.same hkeep, ht.moves.trans hm2, ?_, ?_, ?_, ?_, hdec⟩
        · rw [contents_cons, contents_same hkeep, ht2]
          show slice db 0 0 ++ _ = _
          rw [slice_zero, nil_append]
        · rw [ht2]
          exact zero_add n
        · rw [ht2]
          show 0 + n ≤ db.length
          omega
        · rw [if_neg hnot, ht2]
          rfl

/-- A chain that is pulled up keeps its data. Where a new head is needed it
has no packet header. -/
structure PulledUp (s : MbufSt) (a : Nat) (l : List Nat) (n : Nat)
    (s' : MbufSt) (h : Nat) (l' : List Nat) : Prop where
  moves : Moves s l s' l'
  chain : Chain s' (some h) l'
  contents : contents s' l' = contents s l
  omLen : n ≤ (s'.mbuf h).omLen
  hdr : (s'.mbuf h).hdr = if InPlace s a n then (s.mbuf a).hdr else none

theorem PulledUp.le_length {h : Nat} {l' : List Nat} (hp : PulledUp s a l n s' h l') :
    n ≤ (Mbufs.contents s l).length := by
  have hbytes := (hp.moves.owned.ok h hp.chain.head_mem).length_bytes
  obtain ⟨r, rfl⟩ := hp.chain.cons_of_some
  have := hp.omLen
  rw [← hp.contents, contents_cons, length_append]
  omega

theorem wp_osMbufPullup (ho : Owned s l) (hc : Chain s (some a) l)
    (hq : s.pools[(s.mbuf a).omOmp]? = some q) :
    Wp (osMbufPullup a n) (.total fun res s' => match res with
      | none => Moves s l s' [] ∧ ((contents s l).length < n ∨ ¬ InPlace s a n ∧ NoHead s a n q)
      | some h => ∃ l', PulledUp s a l n s' h l' ∧ (InPlace s a n ∨ ¬ NoHead s a n q)) s := by
  refine wp_mb ?_
  split
  · next hle =>
    have hin : InPlace s a n := .inl hle
    refine .pure ⟨l, ⟨.refl ho, hc, rfl, hle, ?_⟩, .inl hin⟩
    rw [if_pos hin]
  · next hle =>
    refine .bind_total (wp_pullupInto ho hc hq hle) fun res s1 h1 => ?_
    match res with
    | none =>
      obtain ⟨rfl, hno⟩ := h1
      refine .bind_total (wp_osMbufFreeChain ho hc) fun _ s' h =>
        Wp.pure ?_
      exact ⟨h.2.2, .inr hno⟩
    | some (t, b, len) =>
      obtain ⟨r, hb, ht⟩ := h1
      have homLen := ht.omLen
      have hfit := ht.fit
      refine (wp_pullupFill ht.moves.owned hb (by omega)).mono_ok fun res s' h => ?_
      have hbytes := (ht.moves.owned.ok t mem_cons_self).length_bytes
      cases res with
      | none =>
        obtain ⟨hshort, hm⟩ := h
        refine ⟨ht.moves.trans hm, .inl ?_⟩
        rw [← ht.contents, contents_cons, length_append]
        omega
      | some h' =>
        obtain ⟨rfl, r', hm, hc', hcont, hl, hh⟩ := h
        refine ⟨h' :: r', ⟨ht.moves.trans hm, hc', hcont.trans ht.contents, by omega, ?_⟩, ht.room⟩
        rw [hh, ht.hdr]

end Pullup

/-! ## Copying into a chain -/

section Copyinto

variable {s s' s'' : MbufSt} {l L r l₀ : List Nat} {a z cur fuel n off k rest room : Nat}
  {p : Option Nat} {src : List UInt8}

/-- What a loop over `l` can overwrite, with one offset for all mbufs. -/
def behind (s : MbufSt) (l : List Nat) (k : Nat) : Nat :=
  (l.map fun x => (s.mbuf x).omLen - k).sum

/-- What a copy to offset `off` of the chain `l` can overwrite. -/
def overwritable (s : MbufSt) : List Nat → Nat → Nat
  | [], _ => 0
  | x :: r, off =>
    if off < (s.mbuf x).omLen ∨ (s.mbuf x).omLen = off ∧ (s.mbuf x).omNext = none then
      behind s (x :: r) off
    else overwritable s r (off - (s.mbuf x).omLen)

/-- Where a copy to offset `off` of the chain `l` starts: the mbufs from there
on, and the offset into the first of them. -/
def landing (s : MbufSt) : List Nat → Nat → List Nat × Nat
  | [], off => ([], off)
  | x :: r, off =>
    if off < (s.mbuf x).omLen ∨ (s.mbuf x).omLen = off ∧ (s.mbuf x).omNext = none then
      (x :: r, off)
    else landing s r (off - (s.mbuf x).omLen)

theorem overwritable_eq :
    overwritable s l off = behind s (landing s l off).1 (landing s l off).2 := by
  induction l generalizing off with
  | nil => rfl
  | cons x r ih =>
    rw [overwritable, landing]
    split
    · rfl
    · exact ih

theorem wp_offLoop (hc : Chain s p l) (hf : l.length < fuel) :
    Wp (offLoop fuel p off) (.total fun res s' => s' = s ∧
      res = (landing s l off).1.head?.map fun cur => (cur, (landing s l off).2)) s := by
  induction l generalizing p fuel off with
  | nil =>
    obtain _ | fuel := fuel
    · cases hf
    obtain rfl : p = none := hc
    exact .pure ⟨rfl, rfl⟩
  | cons b l ih =>
    obtain _ | fuel := fuel
    · omega
    obtain ⟨rfl, hrest⟩ := hc
    rw [length_cons] at hf
    rw [landing]
    refine wp_mb ?_
    split
    · exact .pure ⟨rfl, rfl⟩
    · exact ih hrest (by omega)

/-- Where an offset is: behind the end of the chain, or in one of its mbufs. -/
theorem landing_cases (hok : ∀ x ∈ l, (s.mbuf x).Ok) (hc : Chain s p l) :
    (landing s l off = ([], off - (contents s l).length) ∧ (l ≠ [] → (contents s l).length < off)) ∨
    ∃ A cur B k, l = A ++ cur :: B ∧ off = (contents s A).length + k ∧
      k ≤ (s.mbuf cur).omLen ∧ landing s l off = (cur :: B, k) := by
  induction l generalizing p off with
  | nil => exact .inl ⟨rfl, fun h => absurd rfl h⟩
  | cons b l ih =>
    obtain ⟨rfl, hrest⟩ := hc
    have hlen := (hok b mem_cons_self).length_bytes
    rw [landing, contents_cons, length_append, hlen]
    split
    · next hin => exact .inr ⟨[], b, l, off, rfl, (zero_add off).symm, by omega, rfl⟩
    · next hout =>
      rcases ih (fun x hx => hok x (mem_cons_of_mem b hx)) hrest with
        ⟨hl, hlt⟩ | ⟨A, cur, B, k, rfl, hoff, hk, hl⟩
      · refine .inl ⟨by rw [hl, Nat.sub_sub], fun _ => ?_⟩
        by_cases hnil : l = []
        · subst hnil
          have hn : (s.mbuf b).omNext = none := hrest
          have hne : (s.mbuf b).omLen ≠ off := fun he => hout (.inr ⟨he, hn⟩)
          show _ + 0 < off
          omega
        · have := hlt hnil
          omega
      · refine .inr ⟨b :: A, cur, B, k, rfl, ?_, hk, hl⟩
        rw [contents_cons, length_append, hlen]
        omega

/-- Data was overwritten. -/
structure Rewritten (s : MbufSt) (L : List Nat) (s' : MbufSt) : Prop where
  moves : Moves s L s' L
  pools : s'.pools = s.pools
  same : ∀ x, ∃ db : List UInt8, db.length = (s.mbuf x).omDatabuf.length ∧
      s'.mbuf x = { s.mbuf x with omDatabuf := db }
  hdr : ∀ x, (s'.mbuf x).hdr = (s.mbuf x).hdr

theorem Rewritten.refl (ho : Owned s L) : Rewritten s L s :=
  ⟨.refl ho, rfl, fun _ => ⟨_, rfl, rfl⟩, fun _ => rfl⟩

theorem Rewritten.trans (h : Rewritten s L s') (h' : Rewritten s' L s'') : Rewritten s L s'' where
  moves := h.moves.trans h'.moves
  pools := h'.pools.trans h.pools
  same := fun x => by
    obtain ⟨db, hdb, hx⟩ := h.same x
    obtain ⟨db', hdb', hx'⟩ := h'.same x
    rw [hx] at hdb' hx'
    exact ⟨db', hdb'.trans hdb, hx'⟩
  hdr := fun x => (h'.hdr x).trans (h.hdr x)

theorem Rewritten.next (h : Rewritten s L s') (x : Nat) :
    (s'.mbuf x).omNext = (s.mbuf x).omNext := by
  obtain ⟨db, -, hx⟩ := h.same x
  rw [hx]

theorem Rewritten.omLen (h : Rewritten s L s') (x : Nat) :
    (s'.mbuf x).omLen = (s.mbuf x).omLen := by
  obtain ⟨db, -, hx⟩ := h.same x
  rw [hx]

/-- The number of bytes of a chain, mbuf by mbuf. -/
theorem length_contents (hok : ∀ x ∈ l, (s.mbuf x).Ok) :
    (contents s l).length = (l.map fun x => (s.mbuf x).omLen).sum := by
  unfold contents
  rw [length_flatMap]
  congr 1
  exact map_congr_left fun x hx => (hok x hx).length_bytes

theorem Rewritten.length_contents (h : Rewritten s L s') (ho : Owned s L)
    (hl : l ⊆ L) : (contents s' l).length = (contents s l).length := by
  rw [Mbufs.length_contents fun x hx => ho.ok x (hl hx),
    Mbufs.length_contents fun x hx => h.moves.owned.ok x (hl hx)]
  congr 1
  exact map_congr_left fun x _ => h.omLen x

theorem rewritten_stored {bs : List UInt8} (ho : Owned s L) (ha : a ∈ L)
    (hfit : (s.mbuf a).omData + off + bs.length ≤ (s.mbuf a).omDatabuf.length) :
    Rewritten s L (s.upd a (stored ((s.mbuf a).omData + off) bs)) := by
  have hle := (ho.ok a ha).hdrLen_le
  refine ⟨ho.upd ha ((ho.ok a ha).stored hfit) rfl (length_splice hfit), rfl,
    fun x => ?_, fun x => ?_⟩
  · by_cases hx : x = a
    · subst hx
      exact ⟨_, length_splice hfit, by rw [upd_self]; rfl⟩
    · exact ⟨_, rfl, by rw [upd_of_ne hx]⟩
  · by_cases hx : x = a
    · subst hx
      rw [upd_self]
      exact Mbuf.hdr_stored hfit (by omega)
    · rw [upd_of_ne hx]

/-- What the loop makes of the data of the mbufs `l`. -/
def copied (s : MbufSt) (k : Nat) : List Nat → List UInt8 → List UInt8
  | [], _ => []
  | x :: r, src =>
    splice (s.mbuf x).bytes k (src.take ((s.mbuf x).omLen - k))
      ++ copied s k r (src.drop ((s.mbuf x).omLen - k))

theorem copied_nil : copied s k l [] = contents s l := by
  induction l with
  | nil => rfl
  | cons x r ih => rw [copied, take_nil, drop_nil, splice_nil, ih, contents_cons]

theorem copied_congr (h : ∀ x ∈ l, s'.mbuf x = s.mbuf x) :
    copied s' k l src = copied s k l src := by
  induction l generalizing src with
  | nil => rfl
  | cons x r ih =>
    rw [copied, copied, h x mem_cons_self, ih fun y hy => h y (mem_cons_of_mem x hy)]

theorem wp_copyLoop (ho : Owned s L) (hl : l ⊆ L) (hc : Chain s (some cur) l)
    (hf : l.length < fuel) : Wp (copyLoop k fuel cur src) (.total fun res s' =>
      res.2 = src.drop (behind s l k) ∧ Rewritten s L s' ∧
      (res.2 ≠ [] → ∃ r, l = r ++ [res.1]) ∧
      contents s' l = copied s k l src ∧ ∀ x ∉ l, s'.mbuf x = s.mbuf x) s := by
  induction fuel generalizing s cur l src with
  | zero => omega
  | succ fuel ih =>
    obtain ⟨r, rfl⟩ := hc.cons_of_some
    have hcur : cur ∈ L := hl mem_cons_self
    have hd := (ho.ok cur hcur).data
    have hnot : cur ∉ r := (nodup_cons.mp (Linked.nodup hc)).1
    simp only [length_cons] at hf
    refine wp_mb ?_
    generalize hn : min ((s.mbuf cur).omLen - k) src.length = n
    have hlen : (src.take n).length = n := by
      rw [length_take]
      omega
    have htake : src.take ((s.mbuf cur).omLen - k) = src.take n := by
      rw [← hn, ← take_eq_take_min]
    have hdrop : src.drop ((s.mbuf cur).omLen - k) = src.drop n := by
      rw [← hn, ← drop_eq_drop_min]
    dsimp only
    have hstep : Wp (if 0 < n then
        store cur ((s.mbuf cur).omData + k) (src.take n) else pure ())
        (.total fun _ s' => Rewritten s L s' ∧
          (s'.mbuf cur).bytes = splice (s.mbuf cur).bytes k (src.take n) ∧
          ∀ x ≠ cur, s'.mbuf x = s.mbuf x) s := by
      split
      · have hfit : (s.mbuf cur).omData + k + (src.take n).length
            ≤ (s.mbuf cur).omDatabuf.length := by
          omega
        have hin : k + (src.take n).length ≤ (s.mbuf cur).omLen := by
          omega
        refine (wp_store_self hfit).mono_ok fun _ s' h => ?_
        subst h
        refine ⟨rewritten_stored ho hcur hfit, ?_, fun x hx => upd_of_ne hx⟩
        rw [upd_self]
        exact slice_splice_within hd hin
      · next h0 =>
        refine .pure ⟨.refl ho, ?_, fun _ _ => rfl⟩
        rw [Nat.eq_zero_of_not_pos h0, take_zero, splice_nil]
    refine .bind_total hstep fun _ s1 h1 => ?_
    obtain ⟨h1, hbytes, hoth⟩ := h1
    have hsame : ∀ x ∈ r, s1.mbuf x = s.mbuf x := fun x hx =>
      hoth x fun he => hnot (he ▸ hx)
    have hrest1 : contents s1 r = contents s r := contents_same hsame
    have hout : ∀ x ∉ cur :: r, s1.mbuf x = s.mbuf x := fun x hx =>
      hoth x fun he => hx (he ▸ mem_cons_self)
    rw [copied, htake, hdrop, behind, map_cons, sum_cons, ← drop_drop, hdrop]
    split
    · next h0 =>
      have hnil := length_eq_zero_iff.mp h0
      rw [hnil, drop_nil, copied_nil]
      refine .pure ⟨rfl, h1, fun h => absurd rfl h, ?_, hout⟩
      rw [contents_cons, hbytes, hrest1]
    · next h0 =>
      have hrest : Chain s (s.mbuf cur).omNext r := hc.2
      cases hnext : (s.mbuf cur).omNext with
      | none =>
        obtain rfl : r = [] := (hnext ▸ hrest).eq_nil
        refine .pure ⟨rfl, h1, fun _ => ⟨[], rfl⟩, ?_, hout⟩
        rw [contents_cons, hbytes]
        rfl
      | some next =>
        rw [hnext] at hrest
        refine (ih h1.moves.owned (fun x hx => hl (mem_cons_of_mem cur hx))
          (hrest.congr fun x _ => h1.next x) (by omega)).mono_ok fun res s' h => ?_
        obtain ⟨hres, hrw, hlast, hcont, hout'⟩ := h
        have hb : behind s1 r k = behind s r k := by
          unfold behind
          congr 1
          exact map_congr_left fun x _ => by rw [h1.omLen x]
        rw [hb] at hres
        refine ⟨hres, h1.trans hrw, fun hne => ?_, ?_, fun x hx => ?_⟩
        · obtain ⟨r', hr'⟩ := hlast hne
          exact ⟨cur :: r', by rw [hr']; rfl⟩
        · rw [contents_cons, hout' cur hnot, hbytes, hcont, copied_congr hsame]
        · rw [hout' x fun h => hx (mem_cons_of_mem cur h), hout x hx]

/-- The number of bytes that `os_mbuf_copyinto` appends, and the length that
is in the header afterwards, where it was `len` before: `total` bytes in the
chain, `rest` bytes that overwrite none, room for `room` more, and `single`
when the chain is one mbuf, so that the append updates the header as well. -/
def copyintoLens (single : Bool) (total off rest room len : Nat) :
    Nat × Nat :=
  if total < off ∨ rest = 0 then (0, len)
  else
    let n := min room (rest % 2 ^ 16)
    let len := if single then u16 (len + n) else len
    if n < rest % 2 ^ 16 then (n, len)
    else (n, u16 (max len (off + rest) : Nat))

theorem copyintoLens_fst {single : Bool} {total len : Nat} :
    (copyintoLens single total off rest room len).1
      = if total < off then 0 else min room (rest % 2 ^ 16) := by
  rw [copyintoLens]
  by_cases hoff : total < off
  · rw [if_pos (.inl hoff), if_pos hoff]
  · rw [if_neg hoff]
    split
    · next h => rw [h.resolve_left hoff, Nat.zero_mod, Nat.min_zero]
    · dsimp only
      split <;> rfl

theorem Mbuf.hdr_some {m : Mbuf} {h : Nat × List UInt8} (hh : m.hdr = some h) :
    m.isPkthdr = true ∧ m.ompLen = h.1 := by
  have hp : m.isPkthdr = true := by
    rw [isPkthdr_eq, hh]
    rfl
  refine ⟨hp, ?_⟩
  rw [ompLen_eq hp]
  unfold hdr at hh
  rw [if_pos hp] at hh
  rw [← some.inj hh]

section

variable (ho : Owned s (l₀ ++ [z])) (hc : Chain s (some a) (l₀ ++ [z]))
include ho hc

/-- The end of the chain is appended to as a chain of its own. -/
theorem wp_appendLast {d : List UInt8} : Wp (osMbufAppend (some z) d) (.total fun rc s' => ∃ n l',
      n = min (roomFor s (s.mbuf z).omOmp z) d.length ∧
      rc = (if n < d.length then .enomem else .ok) ∧ Moves s (l₀ ++ [z]) s' (l₀ ++ [z] ++ l') ∧
      Chain s' (some a) (l₀ ++ [z] ++ l') ∧
      contents s' (l₀ ++ [z] ++ l') = contents s (l₀ ++ [z]) ++ d.take n ∧
      (s'.mbuf a).hdr = (s.mbuf a).hdr.map fun h =>
        (if l₀ = [] then u16 (h.1 + n) else h.1, h.2)) s := by
  have hswap : (l₀ ++ [z]).Perm ([z] ++ l₀) := perm_append_comm
  have hoz := ho.perm hswap
  obtain ⟨hseg, hnext⟩ := Seg.last (seg_none.mpr hc)
  have hz : Chain s (some z) ([] ++ [z]) := ⟨rfl, hnext⟩
  refine (wp_osMbufAppend hoz.left hz).mono_ok fun rc s' h' => ?_
  obtain ⟨n, l', hn, hrc, hb⟩ := h'
  rw [nil_append] at hb
  have hm := (hb.moves.beside hoz).perm_left hswap.symm
  have hsame : ∀ x ∈ l₀, s'.mbuf x = s.mbuf x := fun x hx =>
    hb.moves.same hoz hx
  have hperm : ([z] ++ l' ++ l₀).Perm (l₀ ++ [z] ++ l') := by
    rw [append_assoc l₀]
    exact perm_append_comm
  refine ⟨n, l', hn, hrc, hm.perm_right hperm, ?_, ?_, ?_⟩
  · rw [append_assoc]
    exact linked_append.mpr ⟨some z, hseg.congr fun x hx => by rw [hsame x hx], hb.chain⟩
  · rw [append_assoc, contents_append, hb.contents, contents_same hsame, contents_append,
      append_assoc]
  by_cases h0 : l₀ = []
  · subst h0
    obtain rfl : a = z := some.inj hseg
    rw [hb.hdr]
    rfl
  · obtain ⟨b, r, rfl⟩ := exists_cons_of_ne_nil h0
    obtain rfl : a = b := some.inj hseg.1
    simp only [hsame a mem_cons_self, if_neg h0, Prod.mk.eta, Option.map_id']

/-- A copy writes over data, with the offset into the first mbuf in every one
of them, and appends what is left to the last. -/
theorem wp_osMbufCopyinto {T : Nat} (hT : T = (contents s (l₀ ++ [z])).length)
    (hrest : rest = src.length - overwritable s (l₀ ++ [z]) off)
    (hroom : room = roomFor s (s.mbuf z).omOmp z) :
    Wp (osMbufCopyinto a off src) (.total fun rc s' => ∃ l' n,
      n = (if T < off then 0 else min room (rest % 2 ^ 16)) ∧
      rc = (if T < off then .minusOne else if n < rest % 2 ^ 16 then .enomem else .ok) ∧
      Moves s (l₀ ++ [z]) s' (l₀ ++ [z] ++ l') ∧ Chain s' (some a) (l₀ ++ [z] ++ l') ∧
      contents s' (l₀ ++ [z] ++ l')
        = (contents s (l₀ ++ [z])).take (off - (landing s (l₀ ++ [z]) off).2)
          ++ copied s (landing s (l₀ ++ [z]) off).2 (landing s (l₀ ++ [z]) off).1 src
          ++ (src.drop (overwritable s (l₀ ++ [z]) off)).take n ∧
      (contents s' (l₀ ++ [z] ++ l')).length = T + n ∧ (s'.mbuf a).hdr = (s.mbuf a).hdr.map fun h =>
        ((copyintoLens (l₀ = []) T off rest room h.1).2, h.2)) s := by
  have hf := ho.length_lt_fuel
  refine .bind_total (wp_fuel (wp_offLoop hc hf)) fun res s1 h1 => ?_
  obtain ⟨rfl, rfl⟩ := h1
  rcases landing_cases ho.ok hc with ⟨hl, hlt⟩ | ⟨A, cur, B, k, hAB, hoff, hk, hl⟩
  · have hlt := hlt (by simp)
    rw [← hT] at hl hlt
    rw [hl]
    refine .pure ⟨[], 0, (if_pos hlt).symm, (if_pos hlt).symm, ?_⟩
    simp only [append_nil, take_zero, copied, copyintoLens, if_pos (Or.inl hlt), Prod.mk.eta,
      Option.map_id']
    exact ⟨.refl ho, hc, (take_of_length_le (by omega)).symm, hT.symm, trivial⟩
  have hcurc : Chain s1 (some cur) (cur :: B) := by
    rw [hAB] at hc
    exact ⟨rfl, Linked.after hc⟩
  have hsub : cur :: B ⊆ l₀ ++ [z] := by
    rw [hAB]
    exact subset_append_right A _
  have hcurlen := (ho.ok cur (hsub mem_cons_self)).length_bytes
  have hin : ¬ T < off := by
    rw [hT, hAB, contents_append, contents_cons, length_append, length_append]
    omega
  have hle : (cur :: B).length ≤ (l₀ ++ [z]).length :=
    (subperm_of_subset (Linked.nodup hcurc) hsub).length_le
  have hover : overwritable s1 (l₀ ++ [z]) off = behind s1 (cur :: B) k := by
    rw [overwritable_eq, hl]
  rw [hover, hl]
  simp only [if_neg hin]
  refine wp_fuel (.bind_total (wp_copyLoop ho hsub hcurc (by omega)) fun res s2 h2 => ?_)
  obtain ⟨z', left⟩ := res
  obtain ⟨hleft, hrw, hlast, hcopied, hout⟩ := h2
  dsimp only at hleft hlast ⊢
  have hlen : left.length = rest := by
    rw [hleft, length_drop, hrest, hover]
  -- The mbufs before the one that the copy starts in are as they were.
  have hcont : contents s2 (l₀ ++ [z]) = (contents s1 (l₀ ++ [z])).take (off - k)
      ++ copied s1 k (cur :: B) src := by
    have hnd := ho.nodup_right
    rw [hAB] at hnd ⊢
    have hA : contents s2 A = contents s1 A := contents_same fun x hx =>
      hout x fun h => (nodup_append.mp hnd).2.2 x hx x h rfl
    rw [contents_append, contents_append, hA, hcopied, take_left' (by omega)]
  rw [← hleft, ← hcont]
  have hsum := hrw.length_contents ho (fun _ h => h)
  rw [← hT] at hsum
  split
  · next h0 =>
    rw [hlen] at h0
    refine .pure ⟨[], 0, ?_, ?_, ?_, ?_, ?_, ?_, ?_⟩
    · rw [h0]
      exact (Nat.min_zero room).symm
    · rw [h0]
      rfl
    · rw [append_nil]
      exact hrw.moves
    · rw [append_nil]
      exact hc.congr fun x _ => hrw.next x
    · rw [append_nil, take_zero, append_nil]
    · rw [append_nil, hsum, add_zero]
    · simp only [copyintoLens, if_pos (Or.inr h0), Prod.mk.eta, Option.map_id', hrw.hdr]
  · next h0 =>
    -- The copy has reached the last mbuf.
    obtain ⟨r, hr⟩ := hlast (by
      rintro rfl
      exact h0 rfl)
    obtain rfl : z' = z := by
      have he : l₀ ++ [z] = (A ++ r) ++ [z'] := by
        rw [hAB, hr, append_assoc]
      have := congrArg getLast? he
      simpa using this.symm
    rw [hlen] at h0 ⊢
    have hroom2 : roomFor s2 (s2.mbuf z').omOmp z' = room := by
      obtain ⟨db, hdb, hz'⟩ := hrw.same z'
      rw [hroom]
      unfold roomFor spaceIn
      rw [hrw.pools, hz']
      simp only [hdb]
    have hr16 : (left.take (rest % 2 ^ 16)).length = rest % 2 ^ 16 := by
      rw [length_take, hlen]
      exact Nat.min_eq_left (Nat.mod_le ..)
    have hc2 := hc.congr fun x _ => hrw.next x
    refine .bind_total (wp_appendLast hrw.moves.owned hc2) fun rc s3 h3 => ?_
    obtain ⟨n, l', hn, rfl, hm, hc3, hcont3, hhdr3⟩ := h3
    rw [hroom2, hr16] at hn
    rw [take_take, Nat.min_eq_left (by omega)] at hcont3
    have hlen3 : (contents s2 (l₀ ++ [z']) ++ left.take n).length = T + n := by
      rw [length_append, hsum, length_take, hlen, Nat.min_eq_left]
      exact le_trans (by omega) (Nat.mod_le rest (2 ^ 16))
    rw [hrw.hdr] at hhdr3
    rw [hr16]
    have hlens : ¬ (T < off ∨ rest = 0) := by
      omega
    by_cases hshort : n < rest % 2 ^ 16
    · rw [if_pos hshort, if_pos (by decide)]
      refine .pure ⟨l', n, hn, (if_pos hshort).symm, hrw.moves.trans hm, hc3, hcont3,
        by rw [hcont3, hlen3], ?_⟩
      simp only [hhdr3, copyintoLens, if_neg hlens, ← hn, if_pos hshort, decide_eq_true_eq]
    rw [if_neg hshort, if_neg (by decide)]
    refine wp_mb ?_
    refine wp_setOmpLen hm.owned hc3.head_mem fun s4 hm4 _ hbytes hsame hhdr => .pure ?_
    have hcont4 : contents s4 (l₀ ++ [z'] ++ l') = contents s3 (l₀ ++ [z'] ++ l') :=
      contents_congr fun x _ => hbytes x
    refine ⟨l', n, hn, (if_neg hshort).symm, (hrw.moves.trans hm).trans hm4, ?_,
      hcont4.trans hcont3, by rw [hcont4, hcont3, hlen3], ?_⟩
    · refine hc3.congr fun x _ => ?_
      obtain ⟨b, hb⟩ := hsame x
      rw [hb]
    rw [hhdr]
    cases hh : (s1.mbuf a).hdr with
    | none => rw [hhdr3, hh]; rfl
    | some h =>
      rw [hh] at hhdr3
      rw [hhdr3, (Mbuf.hdr_some hhdr3).2]
      simp only [map_some, copyintoLens, if_neg hlens, ← hn, if_neg hshort, Mbuf.withLen,
        decide_eq_true_eq]

end

end Copyinto

end Larva.Os.Mbufs
