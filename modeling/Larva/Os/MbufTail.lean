import Larva.Os.MbufChains

/-!
# Operations at the end of a chain

One specification for each operation of `os_mbuf.c`, on a chain that is owned:
which mbufs the chain then has, that they were the chain's or came from a
pool, what its data is, and what has become of its packet header (`Became`).
All of them complete: no copy leaves a data buffer and no loop runs out of
fuel. Here are the operations that add to the end: append, extend and
concatenate.

The header is read as its length and its other bytes, and most operations do
no more to it than shift the length by what they added or took.
-/

namespace Larva.Os.Mbufs

open Larva.Bytes Larva.Crash Larva.SList MbufM List Option

namespace Mbuf

/-- The header with its length moved by `x`, in sixteen bits. -/
def shiftLen (x : Int) (h : Nat × List UInt8) : Nat × List UInt8 :=
  (u16 (h.1 + x), h.2)

variable {m : Mbuf} {x y : Int}

theorem hdr_shift : m.hdr.map (withLen (u16 (m.ompLen + x))) = m.hdr.map (shiftLen x) := by
  unfold hdr
  split
  · next hp =>
    rw [ompLen_eq hp]
    rfl
  · rfl

theorem isPkthdr_eq : m.isPkthdr = m.hdr.isSome := by
  unfold hdr
  cases m.isPkthdr <;> rfl

theorem hdr_shift_zero : m.hdr.map (shiftLen 0) = m.hdr := by
  unfold hdr
  split
  · rw [map_some, shiftLen, Int.add_zero, u16_natCast (ofLe16_lt _)]
  · rfl

theorem ompLen_congr {m' : Mbuf} (h : m'.hdr = m.hdr)
    (hp : m.isPkthdr = true) : m'.ompLen = m.ompLen := by
  have hp' : m'.isPkthdr = true := by
    rw [isPkthdr_eq, h, ← isPkthdr_eq]
    exact hp
  rw [ompLen_eq hp, ompLen_eq hp']
  unfold hdr at h
  rw [if_pos hp, if_pos hp'] at h
  exact (Prod.mk.inj (some.inj h)).1

theorem map_shiftLen (h : Option (Nat × List UInt8)) :
    (h.map (shiftLen x)).map (shiftLen y) = h.map (shiftLen (x + y)) := by
  rw [Option.map_map]
  congr 1
  funext h
  unfold Function.comp shiftLen u16
  congr 1
  omega

end Mbuf

section Chains

variable {s s' s'' : MbufSt} {l r : List Nat} {a b z : Nat} {p : Option Nat}

/-- The data and the header of an mbuf are as before. -/
structure Kept (s s' : MbufSt) (a : Nat) : Prop where
  bytes : (s'.mbuf a).bytes = (s.mbuf a).bytes
  hdr : (s'.mbuf a).hdr = (s.mbuf a).hdr

theorem Kept.of_eq (h : s'.mbuf a = s.mbuf a) : Kept s s' a := by
  constructor <;> rw [h]

theorem Kept.trans (h : Kept s s' a) (h' : Kept s' s'' a) : Kept s s'' a :=
  ⟨h'.bytes.trans h.bytes, h'.hdr.trans h.hdr⟩

theorem contents_kept (h : ∀ a ∈ l, Kept s s' a) :
    contents s' l = contents s l :=
  contents_congr fun a ha => (h a ha).bytes

/-- A chain whose last mbuf is linked to another chain. -/
theorem Chain.link (h : Chain s p (l ++ [z]))
    (hsame : ∀ x ∈ l, (s'.mbuf x).omNext = (s.mbuf x).omNext)
    (hz : (s'.mbuf z).omNext = some b) (hr : Chain s' (some b) r) : Chain s' p (l ++ [z] ++ r) := by
  have hseg := Seg.last (seg_none.mpr h)
  refine linked_append.mpr ⟨some b, seg_append.mpr ⟨some z, ?_, rfl, hz⟩, hr⟩
  exact hseg.1.congr hsame

end Chains

/-- An mbuf with another link. -/
def Mbuf.linkTo (b : Option Nat) (m : Mbuf) : Mbuf := { m with omNext := b }

section Links

variable {s : MbufSt} {l : List Nat} {z : Nat} {b : Option Nat}

theorem Owned.linkTo (h : Owned s l) (hz : z ∈ l) :
    Moves s l (s.upd z (Mbuf.linkTo b)) l :=
  h.upd hz ⟨(h.ok z hz).data, (h.ok z hz).hdr⟩ rfl rfl

theorem wp_link {α : Type} {Q : Post MbufSt Empty α} {k : Unit → MbufM α}
    (h : Wp (k ()) Q (s.upd z (Mbuf.linkTo b))) :
    Wp (MbufM.upd z (fun m => { m with omNext := b }) >>= k) Q s :=
  wp_upd h

theorem kept_linkTo (x : Nat) : Kept s (s.upd z (Mbuf.linkTo b)) x := by
  by_cases hx : x = z
  · subst hx
    constructor <;> rw [upd_self] <;> rfl
  · exact .of_eq (upd_of_ne hx)

end Links

/-! ## Appending -/

section Append

variable {s s' : MbufSt} {l l₁ l₂ r : List Nat} {a z omp fuel b : Nat} {d d' : List UInt8}
  {q : MbufPool} {p : Option Nat} {x y : Int}

/-- An mbuf with `d` copied behind its data. -/
def Mbuf.longer (d : List UInt8) (m : Mbuf) : Mbuf :=
  { stored (m.omData + m.omLen) d m with omLen := m.omLen + d.length }

theorem Mbuf.Ok.longer {m : Mbuf} (h : m.Ok)
    (hfit : m.omData + m.omLen + d.length ≤ m.omDatabuf.length) :
    (m.longer d).Ok ∧ (m.longer d).bytes = m.bytes ++ d ∧ (m.longer d).hdr = m.hdr ∧
      (m.longer d).omDatabuf.length = m.omDatabuf.length := by
  have hlen : (m.longer d).omDatabuf.length = m.omDatabuf.length :=
    length_splice hfit
  have hle := h.hdrLen_le
  refine ⟨⟨?_, h.hdr⟩, slice_splice_behind hfit, ?_, hlen⟩
  · show m.omData + (m.omLen + d.length) ≤ _
    omega
  · have hk : m.omPkthdrLen ≤ m.omData + m.omLen := by omega
    exact Mbuf.hdr_congr rfl (take_splice hfit hk)

/-- Data is added behind the data of one mbuf of the chain. -/
structure Grown (s : MbufSt) (l : List Nat) (z : Nat) (d : List UInt8) (s' : MbufSt) : Prop where
  moves : Moves s l s' l
  others : ∀ x ≠ z, s'.mbuf x = s.mbuf x
  next : (s'.mbuf z).omNext = (s.mbuf z).omNext
  bytes : (s'.mbuf z).bytes = (s.mbuf z).bytes ++ d
  hdr : (s'.mbuf z).hdr = (s.mbuf z).hdr
  pools : s'.pools = s.pools

theorem grown_longer (ho : Owned s l) (hz : z ∈ l)
    (hfit : (s.mbuf z).omData + (s.mbuf z).omLen + d.length ≤ (s.mbuf z).omDatabuf.length) :
    Grown s l z d (s.upd z (Mbuf.longer d)) := by
  obtain ⟨hok, hbytes, hhdr, hlen⟩ := (ho.ok z hz).longer hfit
  exact ⟨ho.upd hz hok rfl hlen, fun x hx => upd_of_ne hx,
    by rw [upd_self]; rfl, by rw [upd_self, hbytes], by rw [upd_self, hhdr], rfl⟩

theorem longer_eq {n : Nat} (hd : d.length = n) (hlt : (s.mbuf z).omLen + n < 2 ^ 16) :
    (s.upd z (stored ((s.mbuf z).omData + (s.mbuf z).omLen) d)).upd z
      (fun m => { m with omLen := u16 (m.omLen + n) }) = s.upd z (Mbuf.longer d) := by
  rw [upd_upd]
  refine upd_congr ?_
  unfold Mbuf.longer stored
  simp only [hd]
  congr 1
  exact u16_natCast hlt

/-- The room behind the data of an mbuf. -/
def spaceIn (s : MbufSt) (z : Nat) : Nat :=
  (s.mbuf z).omDatabuf.length - ((s.mbuf z).omData + (s.mbuf z).omLen)

theorem wp_appendHere (ho : Owned s l) (hz : z ∈ l) :
    Wp (appendHere z d) (.total fun rest s' => ∃ n, n = min (spaceIn s z) d.length ∧
      rest = d.drop n ∧ Grown s l z (d.take n) s') s := by
  refine wp_trailingspace ho hz ?_
  unfold spaceIn
  have hsmall := ho.small hz
  split
  · generalize hn : min ((s.mbuf z).omDatabuf.length
      - ((s.mbuf z).omData + (s.mbuf z).omLen)) d.length = n
    have hlen : (d.take n).length = n := by
      rw [length_take]
      omega
    have hfit : (s.mbuf z).omData + (s.mbuf z).omLen + (d.take n).length
        ≤ (s.mbuf z).omDatabuf.length := by
      omega
    refine wp_mb (wp_store hfit (wp_upd (.pure ⟨n, rfl, rfl, ?_⟩)))
    rw [longer_eq hlen (by omega)]
    exact grown_longer ho hz hfit
  · refine .pure ⟨0, by omega, rfl, .refl ho, fun _ _ => rfl, rfl, ?_, rfl, rfl⟩
    exact (append_nil _).symm

/-- New mbufs are linked behind the chain, and hold `d`. -/
structure Extended (s : MbufSt) (p : Option Nat) (l : List Nat)
    (d : List UInt8) (s' : MbufSt) (l' : List Nat) : Prop where
  moves : Moves s l s' (l ++ l')
  chain : Chain s' p (l ++ l')
  kept : ∀ x ∈ l, Kept s s' x
  contents : contents s' l' = d

theorem Extended.refl (ho : Owned s l) (hc : Chain s p l) : Extended s p l [] s [] where
  moves := by
    rw [append_nil]
    exact .refl ho
  chain := by
    rw [append_nil]
    exact hc
  kept := fun _ _ => .of_eq rfl
  contents := rfl

theorem Grown.chain (h : Grown s l z d s') (hc : Chain s p l) : Chain s' p l := by
  refine hc.congr fun x _ => ?_
  by_cases hx : x = z
  · rw [hx, h.next]
  · rw [h.others x hx]

theorem Grown.hdr_all (h : Grown s l z d s') (x : Nat) : (s'.mbuf x).hdr = (s.mbuf x).hdr := by
  by_cases hx : x = z
  · rw [hx, h.hdr]
  · rw [h.others x hx]

variable {l₀ : List Nat} {s₁ s₂ : MbufSt} {n : Nat}

theorem Grown.contents_last (h : Grown s (l₀ ++ [z]) z d s')
    (ho : Owned s (l₀ ++ [z])) : contents s' (l₀ ++ [z]) = contents s (l₀ ++ [z]) ++ d := by
  have hl0 : contents s' l₀ = contents s l₀ := by
    refine contents_congr fun x hx => ?_
    rw [h.others x ((nodup_append.mp ho.nodup_right).2.2 x hx z (by simp))]
  rw [contents_append, contents_append, hl0, contents_cons, contents_cons, h.bytes]
  simp [contents]

/-- A new mbuf is linked behind the last one. -/
theorem extended_link {lead : Nat} (ho : Owned s (l ++ [z])) (hc : Chain s p (l ++ [z]))
    (ht : Taken s (l ++ [z]) omp lead a s₁) :
    Extended s p (l ++ [z]) [] (s₁.upd z (Mbuf.linkTo (some a))) [a] := by
  have hold : ∀ x ∈ l ++ [z], x ≠ a := fun x hx => ne_of_mem_of_not_mem hx ht.new
  have haz : a ≠ z := (hold z (by simp)).symm
  refine ⟨?_, ?_, fun x hx => ?_, ?_⟩
  · refine (ht.moves.trans (ht.moves.owned.linkTo (by simp))).perm_right ?_
    exact (perm_append_singleton a (l ++ [z])).symm
  · refine Chain.link hc (fun x hx => ?_) (by rw [upd_self]; rfl) ⟨rfl, ?_⟩
    · have hxz := (nodup_append.mp ho.nodup_right).2.2 x hx z (by simp)
      rw [upd_of_ne hxz, ht.others x (hold x (mem_append_left _ hx))]
    · show ((MbufSt.upd _ z _).mbuf a).omNext = none
      rw [upd_of_ne haz, ht.self]
      rfl
  · exact (Kept.of_eq (ht.others x (hold x hx))).trans (kept_linkTo x)
  · rw [contents_cons, (kept_linkTo a).bytes, ht.self, bytes_fresh]
    rfl

/-- The last of the new mbufs is filled. -/
theorem Extended.grow {c : List Nat} (h : Extended s p l d s₁ (c ++ [a]))
    (hg : Grown s₁ (l ++ (c ++ [a])) a d' s₂) : Extended s p l (d ++ d') s₂ (c ++ [a]) := by
  have hn := h.moves.owned.nodup_right
  have hold : ∀ x ∈ l ++ c, x ≠ a := by
    rw [← append_assoc] at hn
    exact fun x hx => (nodup_append.mp hn).2.2 x hx a (by simp)
  refine ⟨h.moves.trans hg.moves, hg.chain h.chain, fun x hx => ?_, ?_⟩
  · refine (h.kept x hx).trans (.of_eq (hg.others x ?_))
    exact hold x (mem_append_left _ hx)
  have hkeep : Mbufs.contents s₂ c = Mbufs.contents s₁ c :=
    contents_congr fun x hx => by
      rw [hg.others x (hold x (mem_append_right _ hx))]
  rw [← h.contents, contents_append, contents_append, hkeep, contents_cons,
    contents_cons, hg.bytes]
  simp [Mbufs.contents]

theorem Extended.trans (h : Extended s p l d s₁ l₁) (h' : Extended s₁ p (l ++ l₁) d' s₂ l₂) :
    Extended s p l (d ++ d') s₂ (l₁ ++ l₂) where
  moves := by
    rw [← append_assoc]
    exact h.moves.trans h'.moves
  chain := by
    rw [← append_assoc]
    exact h'.chain
  kept := fun x hx =>
    (h.kept x hx).trans (h'.kept x (mem_append_left _ hx))
  contents := by
    rw [contents_append, h'.contents, contents_kept fun x hx =>
      h'.kept x (mem_append_right _ hx), h.contents]

theorem Moves.free_length (h : Moves s l s' l') :
    (freeIds s').length + l'.length = (freeIds s).length + l.length := by
  have := h.perm.length_eq
  simpa only [length_append] using this

/-- Where not all of the data is taken, the pool is used up. -/
theorem wp_appendLoop (ho : Owned s (l ++ [z])) (hc : Chain s p (l ++ [z]))
    (hq : s.pools[omp]? = some q) (hf : (freeIds s).length < fuel) :
    Wp (appendLoop omp fuel z d) (.total fun rest s' => ∃ n l',
      n = min (q.mpFree.length * q.ompDatabufLen) d.length ∧
      rest = d.drop n ∧ Extended s p (l ++ [z]) (d.take n) s' l') s := by
  induction fuel generalizing s l z d q with
  | zero => omega
  | succ fuel ih =>
    unfold appendLoop
    split
    · next h0 =>
      rw [h0, Nat.min_zero]
      exact .pure ⟨0, [], rfl, rfl, .refl ho hc⟩
    refine .bind_total (wp_osMbufGet ho hq (Nat.zero_le _)) fun r s1 hr => ?_
    cases r with
    | none =>
      obtain ⟨rfl, hnone⟩ := hr
      rw [hnone, length_nil, zero_mul, Nat.zero_min]
      exact .pure ⟨0, [], rfl, rfl, .refl ho hc⟩
    | some a =>
      obtain ⟨q1, hfr, hq1, hlen1⟩ := hr.pool_eq hq
      have hbuf := hr.databuf hq
      refine wp_pool hq1 ?_
      rw [hlen1]
      generalize hn : min q.ompDatabufLen d.length = n
      have hlen : (d.take n).length = n := by
        rw [length_take]
        omega
      have hfit : (d.take n).length ≤ (s1.mbuf a).omDatabuf.length := by
        omega
      have haz : a ≠ z := by
        rintro rfl
        exact hr.new (by simp)
      have hlink := extended_link ho hc hr
      have hx := hlink.grow (c := []) (grown_longer (d := d.take n) hlink.moves.owned (by simp) (by
          rw [upd_of_ne haz, hr.self] at *
          show 0 + 0 + _ ≤ _
          omega))
      have hupd : ((s1.upd a fun m => { m with omLen := n }).upd a
          (stored 0 (d.take n))).upd z (Mbuf.linkTo (some a))
          = (s1.upd z (Mbuf.linkTo (some a))).upd a (Mbuf.longer (d.take n)) := by
        rw [upd_upd, upd_comm haz]
        refine upd_congr ?_
        rw [upd_of_ne haz, hr.self]
        unfold Mbuf.longer stored fresh
        simp only [hlen, zero_add]
      refine wp_upd (wp_mb ?_)
      have hdata : ((s1.upd a fun m => { m with omLen := n }).mbuf a).omData = 0 := by
        rw [upd_self, hr.self]
        rfl
      rw [hdata]
      refine wp_store ?_ (wp_upd ?_)
      · rw [upd_self, zero_add]
        exact hfit
      refine (congrArg (Wp _ _) hupd).mpr ?_
      have hfree := hx.moves.free_length
      simp only [length_append, length_cons] at hfree
      refine (ih hx.moves.owned hx.chain hq1 (by omega)).mono_ok fun rest s' h => ?_
      obtain ⟨k, l', hk, rfl, hx'⟩ := h
      rw [hlen1, length_drop] at hk
      refine ⟨n + k, a :: l', ?_, ?_, ?_⟩
      · rw [hfr, length_cons, Nat.succ_mul]
        omega
      · rw [drop_drop]
      · rw [take_add]
        exact hx.trans hx'

theorem Chain.cons_of_some {p : Nat} (hc : Chain s (some p) l) : ∃ r, l = p :: r := by
  cases l with
  | nil => cases hc
  | cons b l => exact ⟨l, by rw [some.inj hc.1]⟩

theorem Chain.head_mem (hc : Chain s (some a) l) : a ∈ l := by
  obtain ⟨r, rfl⟩ := hc.cons_of_some
  exact mem_cons_self

theorem Chain.exists_last (hc : Chain s (some a) l) : ∃ l₀ z, l = l₀ ++ [z] := by
  obtain ⟨r, rfl⟩ := hc.cons_of_some
  obtain h | h := eq_nil_or_concat' (a :: r)
  · cases h
  · exact h

/-- The header's length follows what was added, and the data stays. -/
structure Relength (s : MbufSt) (l : List Nat) (a : Nat) (x : Int) (s' : MbufSt) : Prop where
  moves : Moves s l s' l
  same : ∀ b, ∃ db, s'.mbuf b = { s.mbuf b with omDatabuf := db }
  bytes : ∀ b, (s'.mbuf b).bytes = (s.mbuf b).bytes
  others : ∀ b ≠ a, s'.mbuf b = s.mbuf b
  hdr : (s'.mbuf a).hdr = (s.mbuf a).hdr.map (Mbuf.shiftLen x)

theorem Relength.next (h : Relength s l a x s') (b : Nat) :
    (s'.mbuf b).omNext = (s.mbuf b).omNext := by
  obtain ⟨db, hb⟩ := h.same b
  rw [hb]

theorem wp_shiftLen {α : Type} {Q : Post MbufSt Empty α} {k : Unit → MbufM α} (ho : Owned s l)
    (ha : a ∈ l) (h : ∀ s', Relength s l a x s' → Wp (k ()) Q s') : Wp ((if (s.mbuf a).isPkthdr then
      setOmpLen a ((s.mbuf a).ompLen + x) else pure ()) >>= k) Q s := by
  refine wp_setOmpLen ho ha fun s' hm hothers hbytes hsame hhdr => ?_
  refine h s' ⟨hm, hsame, hbytes, hothers, ?_⟩
  rw [hhdr, Mbuf.hdr_shift]

theorem Relength.isPkthdr (h : Relength s l a x s') :
    (s'.mbuf a).isPkthdr = (s.mbuf a).isPkthdr := by
  rw [Mbuf.isPkthdr_eq, Mbuf.isPkthdr_eq, h.hdr, isSome_map]

theorem Relength.trans (h : Relength s l a x s₁) (h' : Relength s₁ l a y s₂) :
    Relength s l a (x + y) s₂ where
  moves := h.moves.trans h'.moves
  same := fun b => by
    obtain ⟨db, hb⟩ := h.same b
    obtain ⟨db', hb'⟩ := h'.same b
    exact ⟨db', by rw [hb', hb]⟩
  bytes := fun b => (h'.bytes b).trans (h.bytes b)
  others := fun b hb => (h'.others b hb).trans (h.others b hb)
  hdr := by rw [h'.hdr, h.hdr, Mbuf.map_shiftLen]

theorem Relength.refl (ho : Owned s l) : Relength s l a 0 s where
  moves := .refl ho
  same := fun _ => ⟨_, rfl⟩
  bytes := fun _ => rfl
  others := fun _ _ => rfl
  hdr := Mbuf.hdr_shift_zero.symm

theorem wp_setOmpLen_shift (ho : Owned s l) (ha : a ∈ l) (hp : (s.mbuf a).isPkthdr = true) :
    Wp (setOmpLen a ((s.mbuf a).ompLen + x)) (.total fun _ s' => Relength s l a x s') s := by
  have h := wp_shiftLen ho ha (Q := .total fun _ s' => Relength s l a x s') fun _ hr => Wp.pure hr
  rw [if_pos hp] at h
  exact h.bind_pure

/-- What has become of the chain `l` at `a`: the chain `l'` at `a'`, with
the data `c`, and with a header whose length has moved by `x`. -/
structure Became (s : MbufSt) (a : Nat) (l : List Nat) (s' : MbufSt)
    (a' : Nat) (l' : List Nat) (c : List UInt8) (x : Int) : Prop where
  moves : Moves s l s' l'
  chain : Chain s' (some a') l'
  contents : contents s' l' = c
  hdr : (s'.mbuf a').hdr = (s.mbuf a).hdr.map (Mbuf.shiftLen x)

/-- What can be added to a chain with last mbuf `z`, from pool `omp`. -/
def roomFor (s : MbufSt) (omp z : Nat) : Nat :=
  spaceIn s z + match s.pools[omp]? with
    | some q => q.mpFree.length * q.ompDatabufLen
    | none => 0

/-- An append adds as much of the data as there is room for, all of it when
it succeeds. -/
theorem wp_osMbufAppend (ho : Owned s (l₀ ++ [z]))
    (hc : Chain s (some a) (l₀ ++ [z])) : Wp (osMbufAppend (some a) d) (.total fun rc s' => ∃ n l',
      n = min (roomFor s (s.mbuf a).omOmp z) d.length ∧
      rc = (if n < d.length then .enomem else .ok) ∧ Became s a (l₀ ++ [z]) s' a (l₀ ++ [z] ++ l')
        (contents s (l₀ ++ [z]) ++ d.take n) n) s := by
  have ha := hc.head_mem
  obtain ⟨q, hq, -⟩ := ho.homed a ha
  refine wp_mb (wp_lastOf ho hc ?_)
  refine .bind_total (wp_appendHere ho (by simp)) fun rest s1 h => ?_
  obtain ⟨n1, hn1, rfl, hg⟩ := h
  have hfuel : (freeIds s1).length < s1.numBlocks + 2 := by
    have := hg.moves.owned.length_le
    rw [length_append] at this
    omega
  refine wp_fuel (.bind_total (wp_appendLoop hg.moves.owned
    (hg.chain hc) (by rw [hg.pools]; exact hq) hfuel) fun rest s2 h => ?_)
  obtain ⟨n2, l', hn2, rfl, hx⟩ := h
  rw [length_drop] at hn2
  have hroom : n1 + n2 = min (roomFor s (s.mbuf a).omOmp z) d.length := by
    unfold roomFor
    rw [hq]
    dsimp only
    generalize q.mpFree.length * q.ompDatabufLen = r at hn2 ⊢
    omega
  have hrest : ((d.drop n1).drop n2).length = d.length - (n1 + n2) := by
    rw [drop_drop, length_drop]
  have hshift : (d.length - ((d.drop n1).drop n2).length : Int) = (n1 + n2 : Nat) := by
    omega
  rw [hshift, hrest]
  refine wp_mb (wp_shiftLen hx.moves.owned (mem_append_left _ ha) fun s3 hr => ?_)
  have hresult : Became s a (l₀ ++ [z]) s3 a (l₀ ++ [z] ++ l')
      (contents s (l₀ ++ [z]) ++ d.take (n1 + n2)) (n1 + n2 : Nat) := by
    refine ⟨(hg.moves.trans hx.moves).trans hr.moves, hx.chain.congr fun b _ => hr.next b, ?_, ?_⟩
    · rw [contents_congr fun b _ => hr.bytes b, contents_append, hx.contents,
        contents_kept hx.kept, hg.contents_last ho, append_assoc, take_add]
    · rw [hr.hdr, (hx.kept a ha).hdr, hg.hdr_all]
  split
  · refine .pure ⟨n1 + n2, l', hroom, ?_, hresult⟩
    rw [if_pos (by omega)]
  · refine .pure ⟨n1 + n2, l', hroom, ?_, hresult⟩
    rw [if_neg (by omega)]

/-- An mbuf with more of its buffer counted as data. -/
def Mbuf.wider (n : Nat) (m : Mbuf) : Mbuf := { m with omLen := m.omLen + n }

theorem grown_wider (ho : Owned s l) (hz : z ∈ l)
    (hfit : (s.mbuf z).omData + (s.mbuf z).omLen + n ≤ (s.mbuf z).omDatabuf.length) :
    Grown s l z (slice (s.mbuf z).omDatabuf
      ((s.mbuf z).omData + (s.mbuf z).omLen) n) (s.upd z (Mbuf.wider n)) := by
  refine ⟨ho.upd hz ⟨?_, (ho.ok z hz).hdr⟩ rfl rfl, fun x hx => upd_of_ne hx,
    by rw [upd_self]; rfl, ?_, by rw [upd_self]; rfl, rfl⟩
  · exact (Nat.add_assoc _ _ _).symm ▸ hfit
  · rw [upd_self]
    exact slice_add

theorem wider_eq (h : (s.mbuf z).omLen + n < 2 ^ 16) :
    (s.upd z fun m => { m with omLen := u16 (m.omLen + n) }) = s.upd z (Mbuf.wider n) := by
  refine upd_congr ?_
  congr 1
  exact u16_natCast h

/-- The end of an extension: the last mbuf is widened and the header
follows. -/
theorem wp_widen {off : Nat} (ho : Owned s (l₀ ++ [z]))
    (hc : Chain s (some a) (l₀ ++ [z])) (hfit : (s.mbuf z).omData + (s.mbuf z).omLen + n
      ≤ (s.mbuf z).omDatabuf.length) : Wp (do
      MbufM.upd z fun m => { m with omLen := u16 (m.omLen + n) }
      let m ← mb a
      (if m.isPkthdr then setOmpLen a (m.ompLen + n) else pure ())
      pure (some (z, off)))
      (.total fun r s' => r = some (z, off) ∧ ∃ bs, bs.length = n ∧
        Became s a (l₀ ++ [z]) s' a (l₀ ++ [z]) (contents s (l₀ ++ [z]) ++ bs) n) s := by
  have hsmall := ho.small (a := z) (by simp)
  have hg := grown_wider ho (by simp) hfit
  refine wp_upd ?_
  rw [wider_eq (by omega)]
  refine wp_mb (wp_shiftLen hg.moves.owned hc.head_mem fun s' hr => ?_)
  refine .pure ⟨rfl, slice (s.mbuf z).omDatabuf
    ((s.mbuf z).omData + (s.mbuf z).omLen) n, length_slice hfit,
    hg.moves.trans hr.moves, ?_, ?_, ?_⟩
  · exact (hg.chain hc).congr fun b _ => hr.next b
  · rw [contents_congr fun b _ => hr.bytes b, hg.contents_last ho]
  · rw [hr.hdr, hg.hdr_all]

/-- An extension leaves all as it was, or adds bytes of any kind. -/
theorem wp_osMbufExtend (ho : Owned s l) (hc : Chain s (some a) l) :
    Wp (osMbufExtend a n) (.total fun r s' =>
      r = none ∧ s' = s ∨ r.isSome = true ∧ ∃ l' bs, bs.length = n ∧
        Became s a l s' a (l ++ l') (contents s l ++ bs) n) s := by
  obtain ⟨l0, z, rfl⟩ := hc.exists_last
  have ha := hc.head_mem
  obtain ⟨q, hq, -, hbuf⟩ := ho.homed a ha
  refine wp_mb (wp_pool hq ?_)
  split
  · exact .pure (.inl ⟨rfl, rfl⟩)
  · next hn =>
    refine wp_lastOf ho hc (wp_trailingspace ho (by simp) ?_)
    have hdata := (ho.ok z (by simp)).data
    split
    · refine .bind (.bind_total (wp_osMbufGet ho hq (Nat.zero_le _)) fun r s1 hr => ?_)
      cases r with
      | none =>
        obtain ⟨rfl, -⟩ := hr
        exact .pure (.pure (.inl ⟨rfl, rfl⟩))
      | some b =>
        have hx := extended_link ho hc hr
        have hbz : b ≠ z := by
          rintro rfl
          exact hr.new (by simp)
        refine wp_upd (.pure (wp_mb ?_))
        set m := (s1.upd z _).mbuf b
        have hfresh : m = fresh (s.mbuf a).omOmp 0 (s.mbuf b) := (upd_of_ne hbz).trans hr.self
        have hbuf' := hr.databuf hq
        have hfit : m.omData + m.omLen + n ≤ m.omDatabuf.length := by
          rw [hr.self] at hbuf'
          rw [hfresh]
          show 0 + 0 + n ≤ _
          omega
        refine (wp_widen hx.moves.owned hx.chain hfit).mono_ok fun r s' h => .inr ?_
        obtain ⟨rfl, bs, hbs, hb⟩ := h
        refine ⟨rfl, [b], bs, hbs, hx.moves.trans hb.moves, hb.chain, ?_, ?_⟩
        · rw [hb.contents, contents_append, hx.contents, contents_kept hx.kept, append_nil]
        · rw [hb.hdr, (hx.kept a ha).hdr]
    · next hspace =>
      refine .bind (.pure (wp_mb ?_))
      refine (wp_widen ho hc (by omega)).mono_ok fun r s' h => .inr ?_
      obtain ⟨rfl, bs, hbs, hb⟩ := h
      refine ⟨rfl, [], bs, hbs, ?_⟩
      rw [append_nil]
      exact hb

theorem Became.trans {a1 a2 : Nat} {c c' : List UInt8} (h : Became s a l s₁ a1 l₁ c x)
    (h' : Became s₁ a1 l₁ s₂ a2 l₂ c' y) : Became s a l s₂ a2 l₂ c' (x + y) where
  moves := h.moves.trans h'.moves
  chain := h'.chain
  contents := h'.contents
  hdr := by rw [h'.hdr, h.hdr, Mbuf.map_shiftLen]

theorem wp_concatLoop (ho : Owned s l) (ha : a ∈ l) (hp : (s.mbuf a).isPkthdr = true) (hr : r ⊆ l)
    (hc : Chain s p r) (hf : r.length < fuel) : Wp (concatLoop a fuel p)
      (.total fun _ s' => Relength s l a (contents s r).length s') s := by
  induction r generalizing s p fuel with
  | nil =>
    obtain _ | fuel := fuel
    · cases hf
    obtain rfl : p = none := hc
    exact .pure (.refl ho)
  | cons b r ih =>
    obtain _ | fuel := fuel
    · omega
    obtain ⟨rfl, hrest⟩ := hc
    have hlen := (ho.ok b (hr mem_cons_self)).length_bytes
    refine wp_mb (wp_mb (.bind_total (wp_setOmpLen_shift ho ha hp) fun _ s1 h1 => ?_))
    refine (ih h1.moves.owned (h1.isPkthdr.trans hp) (fun x hx => hr (mem_cons_of_mem b hx))
      (Chain.congr hrest fun x _ => h1.next x)
      (by simp only [length_cons] at hf; omega)).mono_ok fun _ s' h => ?_
    have hsum : ((contents s (b :: r)).length : Int)
        = (s.mbuf b).omLen + (contents s1 r).length := by
      rw [contents_cons, length_append, hlen, contents_congr fun x _ => h1.bytes x]
      omega
    rw [hsum]
    exact h1.trans h

/-- The length that a concatenation adds to the header of the first chain. -/
def addedLen (s : MbufSt) (b : Nat) (r : List Nat) : Nat :=
  if (s.mbuf b).isPkthdr then (s.mbuf b).ompLen else (contents s r).length

theorem addedLen_kept (hb : b ∈ r) (h : ∀ x ∈ r, Kept s s' x) :
    addedLen s' b r = addedLen s b r := by
  have hhdr := (h b hb).hdr
  have hp : (s'.mbuf b).isPkthdr = (s.mbuf b).isPkthdr := by
    rw [Mbuf.isPkthdr_eq, Mbuf.isPkthdr_eq, hhdr]
  unfold addedLen
  rw [hp, contents_kept h]
  split
  · next hb => exact Mbuf.ompLen_congr hhdr hb
  · rfl

theorem wp_concatLen (ho : Owned s l) (ha : a ∈ l) (hr : r ⊆ l) (hc : Chain s (some b) r) :
    Wp (if (s.mbuf a).isPkthdr then
        if (s.mbuf b).isPkthdr then
          setOmpLen a ((s.mbuf a).ompLen + (s.mbuf b).ompLen)
        else do
          let n ← MbufM.fuel
          concatLoop a n (some b)
      else pure ())
      (.total fun _ s' => ∃ x, Relength s l a x s' ∧
        ((s.mbuf a).isPkthdr = true → x = addedLen s b r)) s := by
  unfold addedLen
  split
  · next hp =>
    split
    · exact (wp_setOmpLen_shift ho ha hp).mono_ok fun _ _ h =>
        ⟨_, h, fun _ => rfl⟩
    · have hf : r.length < s.numBlocks + 2 := by
        have hsub := (subperm_of_subset (Linked.nodup hc) hr).length_le
        exact lt_of_le_of_lt hsub ho.length_lt_fuel
      exact wp_fuel ((wp_concatLoop ho ha hp hr hc hf).mono_ok fun _ _ h => ⟨_, h, fun _ => rfl⟩)
  · next hp => exact .pure ⟨0, .refl ho, fun h => absurd h hp⟩

/-- The second chain loses its header; the first one's counts its length. -/
theorem wp_osMbufConcat (ho : Owned s (l ++ r)) (hc : Chain s (some a) l)
    (hc' : Chain s (some b) r) : Wp (osMbufConcat a b) (.total fun _ s' =>
      Became s a (l ++ r) s' a (l ++ r) (contents s l ++ contents s r) (addedLen s b r)) s := by
  obtain ⟨l0, z, rfl⟩ := hc.exists_last
  have ha := hc.head_mem
  have hb := hc'.head_mem
  have hapart := (nodup_append.mp ho.nodup_right).2.2
  have hab : a ≠ b := hapart a ha b hb
  have hz : z ∈ l0 ++ [z] ++ r := by simp
  refine wp_lastOf ho.left hc (wp_upd ?_)
  have hl := ho.linkTo (b := some b) hz
  have hrest : Chain (s.upd z (Mbuf.linkTo (some b))) (some b) r :=
    hc'.congr fun x hx => by
      rw [upd_of_ne (hapart z (by simp) x hx).symm]
  have hchain : Chain (s.upd z (Mbuf.linkTo (some b))) (some a) (l0 ++ [z] ++ r) := by
    refine Chain.link hc (fun x hx => ?_) (by rw [upd_self]; rfl) hrest
    rw [upd_of_ne ((nodup_append.mp ho.left.nodup_right).2.2 x hx z (by simp))]
  have hkept : ∀ x, Kept s (s.upd z (Mbuf.linkTo (some b))) x :=
    kept_linkTo
  generalize hs1 : s.upd z (Mbuf.linkTo (some b)) = s1 at hl hrest hchain hkept
  refine (congrArg (Wp _ _) hs1).mpr (wp_mb (wp_mb (.bind_total
    (wp_concatLen hl.owned (mem_append_left r ha)
      (subset_append_right _ r) hrest) fun _ s2 h => .modify ?_)))
  obtain ⟨x, h, hx⟩ := h
  have hbr := mem_append_right (l0 ++ [z]) hb
  have hm := h.moves.owned.upd (f := fun m => { m with omPkthdrLen := 0 })
    hbr ⟨(h.moves.owned.ok b hbr).data, .inl rfl⟩ rfl rfl
  set s3 := s2.upd b fun m => { m with omPkthdrLen := 0 } with hs3
  have hlast : ∀ y, (s3.mbuf y).bytes = (s2.mbuf y).bytes ∧
      (s3.mbuf y).omNext = (s2.mbuf y).omNext := by
    intro y
    rw [hs3]
    by_cases hy : y = b
    · subst hy
      rw [upd_self]
      exact ⟨rfl, rfl⟩
    · rw [upd_of_ne hy]
      exact ⟨rfl, rfl⟩
  refine ⟨(hl.trans h.moves).trans hm, ?_, ?_, ?_⟩
  · exact hchain.congr fun y _ => (hlast y).2.trans (h.next y)
  · rw [contents_congr fun y _ => (hlast y).1,
      contents_congr fun y _ => h.bytes y, contents_kept fun y _ => hkept y, contents_append]
  rw [hs3, upd_of_ne hab, h.hdr, (hkept a).hdr]
  cases hp : (s1.mbuf a).isPkthdr with
  | true =>
    rw [hx hp, addedLen_kept hb fun y _ => hkept y]
  | false =>
    rw [Mbuf.isPkthdr_eq, (hkept a).hdr] at hp
    rw [Option.isSome_eq_false_iff.mp hp |> Option.isNone_iff_eq_none.mp]
    rfl

end Append

end Larva.Os.Mbufs
