import Larva.Lib.SList
import Larva.Os.Mbuf

/-!
# Chains and who owns them

What an operation on a chain may touch are the mbufs it owns: those of the
chain, and those it takes from a pool. `Owned s l` says that the mbufs of `l`
are on no free list, belong to a pool and hold their data inside their own
buffer; `Moves s l s' l'` says that a piece of code that owned `l` before owns
`l'` after, and that together with the free lists these are the same mbufs.
Everything else is as it was. Such moves compose, and a move can be made next
to mbufs that are not part of it, so an operation is verified on the mbufs it
works on and used on any chain they are part of.
-/

namespace Larva.Os.Mbufs

open Larva.Bytes Larva.Crash Larva.SList MbufM Function List Option

/-! ## One mbuf -/

namespace Mbuf

/-- The data of an mbuf. -/
def bytes (m : Mbuf) : List UInt8 := slice m.omDatabuf m.omData m.omLen

/-- The bytes of the packet header. -/
def hdrBytes (m : Mbuf) : List UInt8 := m.omDatabuf.take m.omPkthdrLen

/-- The packet header: the length it gives, and its other bytes. -/
def hdr (m : Mbuf) : Option (Nat × List UInt8) :=
  if m.isPkthdr then some (ofLe16 m.hdrBytes, m.hdrBytes.drop 2) else none

/-- The data lies in the data buffer, and behind the packet header. -/
@[mk_iff]
structure Ok (m : Mbuf) : Prop where
  data : m.omData + m.omLen ≤ m.omDatabuf.length
  hdr : m.omPkthdrLen = 0 ∨ pkthdrSz ≤ m.omPkthdrLen ∧ m.omPkthdrLen < 256 ∧
      m.omPkthdrLen ≤ m.omData

instance (m : Mbuf) : Decidable m.Ok := decidable_of_iff _ (ok_iff m).symm

variable {m m' : Mbuf} {n : Nat}

theorem ofLe16_take {l : List UInt8} {k : Nat} (hk : 2 ≤ k) : ofLe16 (l.take k) = ofLe16 l := by
  obtain ⟨k, rfl⟩ := Nat.exists_eq_add_of_le' hk
  match l with
  | [] => rfl
  | [_] => rfl
  | _ :: _ :: _ => rfl

theorem ompLen_eq (h : m.isPkthdr = true) : m.ompLen = ofLe16 m.hdrBytes := by
  have h8 : pkthdrSz ≤ m.omPkthdrLen := of_decide_eq_true h
  exact (ofLe16_take (le_trans (by decide) h8)).symm

theorem Ok.hdrLen_le (h : m.Ok) : m.omPkthdrLen ≤ m.omData := by
  rcases h.hdr with h | h
  · omega
  · exact h.2.2

theorem Ok.length_bytes (h : m.Ok) : m.bytes.length = m.omLen :=
  length_slice h.data

theorem hdr_congr (hl : m'.omPkthdrLen = m.omPkthdrLen)
    (hb : m'.hdrBytes = m.hdrBytes) : m'.hdr = m.hdr := by
  unfold hdr isPkthdr
  rw [hl, hb]

/-- The header with another length. -/
def withLen (n : Nat) (h : Nat × List UInt8) : Nat × List UInt8 := (n, h.2)

end Mbuf

theorem u16_natCast {n : Nat} (h : n < 2 ^ 16) : u16 n = n := by
  unfold u16
  omega

theorem u16_sub {a b : Nat} (hb : b ≤ a) (ha : a < 2 ^ 16) : u16 ((a : Int) - b) = a - b := by
  unfold u16
  omega

theorem u16_lt (x : Int) : u16 x < 2 ^ 16 := by
  unfold u16
  omega

/-! ## Ownership -/

/-- All mbufs that are on a free list. -/
def freeIds (s : MbufSt) : List Nat := s.pools.flatMap (·.mpFree)

/-- What no operation changes in the pools. -/
def shape (s : MbufSt) : List (Nat × List Nat) :=
  s.pools.map fun p => (p.ompDatabufLen, p.mpBlocks)

@[mk_iff]
structure Pools (s : MbufSt) : Prop where
  num : ∀ p ∈ s.pools, p.mpNumFree = p.mpFree.length
  small : ∀ p ∈ s.pools, p.ompDatabufLen < 2 ^ 16
  home : ∀ p ∈ s.pools, ∀ a ∈ p.mpFree,
    a ∈ p.mpBlocks ∧ (s.mbuf a).omDatabuf.length = p.ompDatabufLen

/-- The mbuf names the pool it is from. -/
def Homed (s : MbufSt) (a : Nat) : Prop :=
  ∃ p, s.pools[(s.mbuf a).omOmp]? = some p ∧ a ∈ p.mpBlocks ∧
    (s.mbuf a).omDatabuf.length = p.ompDatabufLen

instance (s : MbufSt) (a : Nat) : Decidable (Homed s a) :=
  inferInstanceAs (Decidable (∃ p ∈ s.pools[(s.mbuf a).omOmp]?, _))

@[mk_iff]
structure Owned (s : MbufSt) (l : List Nat) : Prop where
  pools : Pools s
  nodup : (freeIds s ++ l).Nodup
  homed : ∀ a ∈ l, Homed s a
  ok : ∀ a ∈ l, (s.mbuf a).Ok

instance (s : MbufSt) (l : List Nat) : Decidable (Owned s l) :=
  have : Decidable (Pools s) := decidable_of_iff _ (pools_iff s).symm
  decidable_of_iff _ (owned_iff s l).symm

structure Moves (s : MbufSt) (l : List Nat) (s' : MbufSt) (l' : List Nat) : Prop where
  perm : (freeIds s' ++ l').Perm (freeIds s ++ l)
  frame : ∀ a, a ∉ freeIds s ++ l → s'.mbuf a = s.mbuf a
  shape : shape s' = shape s
  owned : Owned s' l'

def Chain (s : MbufSt) (p : Option Nat) (l : List Nat) : Prop :=
  Linked (fun a => (s.mbuf a).omNext) p l

/-- The data of a chain. -/
def contents (s : MbufSt) (l : List Nat) : List UInt8 :=
  l.flatMap fun a => (s.mbuf a).bytes

section Ownership

variable {s s' s'' : MbufSt} {l l' l'' r : List Nat} {a x i : Nat} {p : Option Nat}
  {f g : Mbuf → Mbuf} {q : MbufPool}

@[simp] theorem upd_self : (s.upd a f).mbuf a = f (s.mbuf a) :=
  update_self ..

theorem upd_of_ne (h : x ≠ a) : (s.upd a f).mbuf x = s.mbuf x :=
  update_of_ne h ..

theorem upd_upd : (s.upd a f).upd a g = s.upd a fun m => g (f m) := by
  simp only [MbufSt.upd, update_self, update_idem]

theorem upd_comm (h : a ≠ x) : (s.upd a f).upd x g = (s.upd x g).upd a f := by
  simp only [MbufSt.upd, update_of_ne h, update_of_ne h.symm, update_comm h]

theorem upd_congr (h : f (s.mbuf a) = g (s.mbuf a)) : s.upd a f = s.upd a g := by
  simp only [MbufSt.upd, h]

@[simp] theorem pools_upd : (s.upd a f).pools = s.pools := rfl

theorem shape_getElem? {q' : MbufPool} (h : shape s' = shape s) (hq : s.pools[i]? = some q)
    (hq' : s'.pools[i]? = some q') :
    q'.ompDatabufLen = q.ompDatabufLen ∧ q'.mpBlocks = q.mpBlocks := by
  have he := congrArg (·[i]?) h
  simp only [shape, getElem?_map, hq, hq', map_some, some.injEq, Prod.mk.injEq] at he
  exact he

theorem shape_exists (h : shape s' = shape s) (hq : s.pools[i]? = some q) :
    ∃ q', s'.pools[i]? = some q' ∧ q'.ompDatabufLen = q.ompDatabufLen ∧
      q'.mpBlocks = q.mpBlocks := by
  have he := congrArg (·[i]?) h
  simp only [shape, getElem?_map, hq, map_some] at he
  obtain ⟨q', hq', -⟩ := map_eq_some_iff.mp he
  exact ⟨q', hq', shape_getElem? h hq hq'⟩

theorem numBlocks_shape (h : shape s' = shape s) : s'.numBlocks = s.numBlocks := by
  have he := congrArg (fun l => (l.flatMap Prod.snd).length) h
  simp only [shape, flatMap_map] at he
  exact he

theorem Homed.of_eq (h : Homed s a) (hs : shape s' = shape s)
    (hm : (s'.mbuf a).omOmp = (s.mbuf a).omOmp)
    (hd : (s'.mbuf a).omDatabuf.length = (s.mbuf a).omDatabuf.length) : Homed s' a := by
  obtain ⟨q, hq, hb, hlen⟩ := h
  obtain ⟨q', hq', hl', hb'⟩ := shape_exists hs hq
  exact ⟨q', by rw [hm]; exact hq', by rw [hb']; exact hb, by rw [hd, hl']; exact hlen⟩

theorem Owned.perm (h : Owned s l) (hp : l.Perm l') : Owned s l' where
  pools := h.pools
  nodup := (hp.append_left _).nodup_iff.mp h.nodup
  homed := fun a ha => h.homed a (hp.mem_iff.mpr ha)
  ok := fun a ha => h.ok a (hp.mem_iff.mpr ha)

theorem Owned.left (h : Owned s (l ++ r)) : Owned s l where
  pools := h.pools
  nodup := by
    have hn := h.nodup
    rw [← append_assoc] at hn
    exact (nodup_append.mp hn).1
  homed := fun a ha => h.homed a (mem_append_left r ha)
  ok := fun a ha => h.ok a (mem_append_left r ha)

theorem Owned.nodup_right (h : Owned s l) : l.Nodup :=
  (nodup_append.mp h.nodup).2.1

theorem Owned.not_free (h : Owned s l) (ha : a ∈ l) : a ∉ freeIds s :=
  fun hf => (nodup_append.mp h.nodup).2.2 a hf a ha rfl

theorem Moves.refl (h : Owned s l) : Moves s l s l :=
  ⟨.refl _, fun _ _ => rfl, rfl, h⟩

section

variable (h : Moves s l s' l')
include h

theorem Moves.trans (h' : Moves s' l' s'' l'') : Moves s l s'' l'' where
  perm := h'.perm.trans h.perm
  frame := fun a ha => (h'.frame a fun hm => ha (h.perm.mem_iff.mp hm)).trans (h.frame a ha)
  shape := h'.shape.trans h.shape
  owned := h'.owned

theorem Moves.perm_right (hp : l'.Perm l'') : Moves s l s' l'' where
  perm := (hp.symm.append_left _).trans h.perm
  frame := h.frame
  shape := h.shape
  owned := h.owned.perm hp

theorem Moves.perm_left (hp : l.Perm l'') : Moves s l'' s' l' where
  perm := h.perm.trans (hp.append_left _)
  frame := fun a ha => h.frame a fun hm =>
    ha ((hp.append_left _).mem_iff.mp hm)
  shape := h.shape
  owned := h.owned

/-- Mbufs that do not move are as they were. -/
theorem Moves.same (ho : Owned s (l ++ r)) (ha : a ∈ r) : s'.mbuf a = s.mbuf a := by
  refine h.frame a fun hm => ?_
  have hn := ho.nodup
  rw [← append_assoc] at hn
  exact (nodup_append.mp hn).2.2 a hm a ha rfl

/-- Mbufs beside those that move. -/
theorem Moves.beside (ho : Owned s (l ++ r)) : Moves s (l ++ r) s' (l' ++ r) := by
  have hperm : (freeIds s' ++ (l' ++ r)).Perm (freeIds s ++ (l ++ r)) := by
    rw [← append_assoc, ← append_assoc]
    exact h.perm.append_right r
  refine ⟨hperm, fun a ha => h.frame a fun hm => ha ?_, h.shape, h.owned.pools,
    hperm.nodup_iff.mpr ho.nodup, forall_mem_append.mpr ⟨h.owned.homed, fun a ha => ?_⟩,
    forall_mem_append.mpr ⟨h.owned.ok, fun a ha => ?_⟩⟩
  · rw [← append_assoc]
    exact mem_append_left r hm
  · have hsame := h.same ho ha
    exact (ho.homed a (mem_append_right l ha)).of_eq h.shape (by rw [hsame]) (by rw [hsame])
  · rw [h.same ho ha]
    exact ho.ok a (mem_append_right l ha)

end

/-- A change of an mbuf that is owned. -/
theorem Owned.upd (h : Owned s l) (ha : a ∈ l) (hok : (f (s.mbuf a)).Ok)
    (homp : (f (s.mbuf a)).omOmp = (s.mbuf a).omOmp) (hlen : (f (s.mbuf a)).omDatabuf.length
      = (s.mbuf a).omDatabuf.length) : Moves s l (s.upd a f) l := by
  have hfree : ∀ x ∈ freeIds s, (s.upd a f).mbuf x = s.mbuf x := by
    intro x hx
    refine upd_of_ne ?_
    rintro rfl
    exact h.not_free ha hx
  refine ⟨.refl _, fun x hx => upd_of_ne ?_, rfl, ⟨{ h.pools with home := ?_ }, h.nodup, ?_, ?_⟩⟩
  · rintro rfl
    exact hx (mem_append_right _ ha)
  · intro q hq x hx
    rw [hfree x (mem_flatMap.mpr ⟨q, hq, hx⟩)]
    exact h.pools.home q hq x hx
  · intro x hx
    by_cases hxa : x = a
    · subst hxa
      exact (h.homed x hx).of_eq rfl (by rw [upd_self]; exact homp) (by rw [upd_self]; exact hlen)
    · exact (h.homed x hx).of_eq rfl (by rw [upd_of_ne hxa]) (by rw [upd_of_ne hxa])
  · intro x hx
    by_cases hxa : x = a
    · subst hxa
      rw [upd_self]
      exact hok
    · rw [upd_of_ne hxa]
      exact h.ok x hx

theorem Chain.congr (h : Chain s p l)
    (he : ∀ a ∈ l, (s'.mbuf a).omNext = (s.mbuf a).omNext) : Chain s' p l :=
  Linked.congr h he

theorem contents_congr (he : ∀ a ∈ l, (s'.mbuf a).bytes = (s.mbuf a).bytes) :
    contents s' l = contents s l := by
  unfold contents
  rw [flatMap_def, flatMap_def, map_congr_left he]

/-! The mbufs of a chain are as they were. -/

theorem Chain.same (h : Chain s p l) (he : ∀ a ∈ l, s'.mbuf a = s.mbuf a) : Chain s' p l :=
  h.congr fun a ha => congrArg Mbuf.omNext (he a ha)

theorem contents_same (he : ∀ a ∈ l, s'.mbuf a = s.mbuf a) : contents s' l = contents s l :=
  contents_congr fun a ha => congrArg Mbuf.bytes (he a ha)

theorem Chain.eq_nil (h : Chain s none l) : l = [] := by
  cases l with
  | nil => rfl
  | cons a l => cases h.1

theorem contents_append : contents s (l ++ r) = contents s l ++ contents s r :=
  flatMap_append

theorem contents_cons : contents s (a :: l) = (s.mbuf a).bytes ++ contents s l :=
  flatMap_cons

/-- There is fuel for as many turns as there are mbufs. -/
theorem Owned.length_le (h : Owned s l) : (freeIds s ++ l).length ≤ s.numBlocks := by
  refine (subperm_of_subset h.nodup fun a ha => ?_).length_le
  rcases mem_append.mp ha with ha | ha
  · obtain ⟨q, hq, haq⟩ := mem_flatMap.mp ha
    exact mem_flatMap.mpr ⟨q, hq, (h.pools.home q hq a haq).1⟩
  · obtain ⟨q, hq, haq, -⟩ := h.homed a ha
    exact mem_flatMap.mpr ⟨q, mem_of_getElem? hq, haq⟩

end Ownership

/-! ## Single steps -/

section Steps

variable {s s' : MbufSt} {l r : List Nat} {a omp lead off n z : Nat} {f : Mbuf → Mbuf}
  {bs : List UInt8} {q q' : MbufPool} {p : Option Nat} {α : Type} {Q : Post MbufSt Empty α}
  {k : Unit → MbufM α} {m : Mbuf}

theorem wp_mb {k : Mbuf → MbufM α} (h : Wp (k (s.mbuf a)) Q s) :
    Wp (mb a >>= k) Q s :=
  Wp.bind (.get_bind (.pure h))

theorem wp_upd (h : Wp (k ()) Q (s.upd a f)) :
    Wp (MbufM.upd a f >>= k) Q s :=
  Wp.modify_bind h

theorem wp_fuel {k : Nat → MbufM α} (h : Wp (k (s.numBlocks + 2)) Q s) :
    Wp (fuel >>= k) Q s :=
  Wp.bind (.get_bind (.pure h))

theorem wp_pool {k : MbufPool → MbufM α} (hq : s.pools[omp]? = some q)
    (h : Wp (k q) Q s) : Wp (pool omp >>= k) Q s := by
  refine .bind (.get_bind ?_)
  rw [hq]
  exact .pure h

/-- What a copy into an mbuf makes of it. -/
def stored (off : Nat) (bs : List UInt8) (m : Mbuf) : Mbuf :=
  { m with omDatabuf := splice m.omDatabuf off bs }

theorem wp_store_self (h : off + bs.length ≤ (s.mbuf a).omDatabuf.length) : Wp (store a off bs)
      (.total fun _ s' => s' = s.upd a (stored off bs)) s := by
  refine wp_mb ?_
  rw [if_pos h]
  exact .modify rfl

theorem wp_store (h : off + bs.length ≤ (s.mbuf a).omDatabuf.length)
    (hk : Wp (k ()) Q (s.upd a (stored off bs))) :
    Wp (store a off bs >>= k) Q s :=
  Wp.bind_total (wp_store_self h) fun _ _ he => he ▸ hk

theorem wp_load {k : List UInt8 → MbufM α} (h : off + n ≤ (s.mbuf a).omDatabuf.length)
    (hk : Wp (k (slice (s.mbuf a).omDatabuf off n)) Q s) : Wp (load a off n >>= k) Q s := by
  refine .bind (wp_mb ?_)
  rw [if_pos h]
  exact .pure hk

/-- The room behind the data of an mbuf. -/
theorem wp_trailingspace {k : Nat → MbufM α} (ho : Owned s l) (ha : a ∈ l)
    (h : Wp (k ((s.mbuf a).omDatabuf.length - ((s.mbuf a).omData + (s.mbuf a).omLen))) Q s) :
    Wp (trailingspace a >>= k) Q s := by
  obtain ⟨q, hq, -, hlen⟩ := ho.homed a ha
  have hsmall := ho.pools.small q (mem_of_getElem? hq)
  have hdata := (ho.ok a ha).data
  refine .bind (wp_mb (wp_pool hq (.pure ?_)))
  rw [u16_sub (by omega) hsmall, ← hlen]
  exact h

theorem Mbuf.hdrLen_zero (h : m.Ok) (hp : ¬ m.isPkthdr = true) : m.omPkthdrLen = 0 := by
  rcases h.hdr with h0 | h8
  · exact h0
  · exact absurd (decide_eq_true h8.1) hp

/-- The room between header and data of an mbuf. -/
theorem leadingspace_eq (h : m.Ok) (hlt : m.omDatabuf.length < 2 ^ 16) :
    m.leadingspace = m.omData - m.omPkthdrLen := by
  unfold Mbuf.leadingspace
  have hle := h.hdrLen_le
  have hd := h.data
  cases hp : m.isPkthdr with
  | true => exact u16_sub hle (by omega)
  | false =>
    rw [Mbuf.hdrLen_zero h (by simp [hp])]
    exact u16_sub (Nat.zero_le _) (by omega)

theorem Owned.small (ho : Owned s l) (ha : a ∈ l) : (s.mbuf a).omDatabuf.length < 2 ^ 16 := by
  obtain ⟨q, hq, -, hlen⟩ := ho.homed a ha
  rw [hlen]
  exact ho.pools.small q (mem_of_getElem? hq)

/-! ### Packet headers -/

section

variable (h : off + bs.length ≤ m.omDatabuf.length) (hoff : m.omPkthdrLen ≤ off)
include h hoff

theorem Mbuf.hdrBytes_stored :
    (stored off bs m).hdrBytes = m.hdrBytes :=
  take_splice h hoff

theorem Mbuf.hdr_stored :
    (stored off bs m).hdr = m.hdr :=
  hdr_congr rfl (hdrBytes_stored h hoff)

end

theorem Mbuf.Ok.stored (h : m.Ok) (hb : off + bs.length ≤ m.omDatabuf.length) :
    (stored off bs m).Ok where
  data := by
    have hlen : (Mbufs.stored off bs m).omDatabuf.length = m.omDatabuf.length :=
      length_splice hb
    rw [hlen]
    exact h.data
  hdr := h.hdr

/-- The length field is changed and nothing else. -/
theorem Mbuf.hdr_setLen (hp : m.isPkthdr = true) (n : Nat) :
    (Mbufs.stored 0 (le16 n) m).hdr = m.hdr.map (withLen (n % 2 ^ 16)) := by
  have h8 : pkthdrSz ≤ m.omPkthdrLen := of_decide_eq_true hp
  have h2 : 2 ≤ m.omPkthdrLen := le_trans (by decide) h8
  have hbytes : (Mbufs.stored 0 (le16 n) m).hdrBytes = le16 n ++ m.hdrBytes.drop 2 := by
    unfold hdrBytes Mbufs.stored splice
    rw [take_zero, nil_append, length_le16, zero_add,
      take_append, length_le16, take_of_length_le (by simpa), drop_take]
  have hp' : (Mbufs.stored 0 (le16 n) m).isPkthdr = true := hp
  unfold hdr
  rw [if_pos hp, if_pos hp', hbytes, map_some, withLen]
  congr 2
  exact ofLe16_le16 n

theorem Mbuf.hdr_none (h : ¬ m.isPkthdr = true) : m.hdr = none :=
  if_neg h

theorem Mbuf.Ok.two_le (h : m.Ok) (hp : m.isPkthdr = true) : 2 ≤ m.omDatabuf.length := by
  have h8 : pkthdrSz ≤ m.omPkthdrLen := of_decide_eq_true hp
  have hle := h.hdrLen_le
  have hd := h.data
  unfold pkthdrSz at h8
  omega

/-- The header's length, set or left alone: the update that every operation
ends with. -/
theorem wp_setOmpLen {x : Int} (ho : Owned s l) (ha : a ∈ l)
    (h : ∀ s', Moves s l s' l → (∀ b ≠ a, s'.mbuf b = s.mbuf b) →
      (∀ b, (s'.mbuf b).bytes = (s.mbuf b).bytes) →
      (∀ b, ∃ db, s'.mbuf b = { s.mbuf b with omDatabuf := db }) →
      (s'.mbuf a).hdr = (s.mbuf a).hdr.map (Mbuf.withLen (u16 x)) → Wp (k ()) Q s') :
    Wp ((if (s.mbuf a).isPkthdr then setOmpLen a x else pure ()) >>= k) Q
      s := by
  have hok := ho.ok a ha
  split
  · next hp =>
    have hlen := hok.two_le hp
    have hb : 0 + (le16 (u16 x)).length ≤ (s.mbuf a).omDatabuf.length := by
      rw [length_le16]
      omega
    refine wp_store hb ?_
    refine h _ ?_ (fun b hb => upd_of_ne hb) (fun b => ?_) (fun b => ?_) ?_
    · exact ho.upd ha (hok.stored hb) rfl (length_splice hb)
    · by_cases hba : b = a
      · have h8 : pkthdrSz ≤ (s.mbuf a).omPkthdrLen := of_decide_eq_true hp
        have hle := hok.hdrLen_le
        rw [hba, upd_self]
        refine slice_splice_apart hb (.inr ?_)
        show 0 + 2 ≤ (s.mbuf a).omData
        unfold pkthdrSz at h8
        omega
      · rw [upd_of_ne hba]
    · by_cases hba : b = a
      · exact ⟨_, by rw [hba, upd_self]; rfl⟩
      · exact ⟨_, by rw [upd_of_ne hba]⟩
    · rw [upd_self, Mbuf.hdr_setLen hp, Nat.mod_eq_of_lt (u16_lt x)]
  · next hp =>
    refine .bind (.pure (h s (.refl ho) (fun _ _ => rfl) (fun _ => rfl) (fun _ => ⟨_, rfl⟩) ?_))
    rw [Mbuf.hdr_none hp]
    rfl

/-! ### Pools -/

theorem set_flatMap {β γ : Type} {g : β → List γ} {L : List β} {i : Nat}
    {b c : β} (h : L[i]? = some b) : ∃ A B, L.flatMap g = A ++ g b ++ B ∧
      (L.set i c).flatMap g = A ++ g c ++ B := by
  obtain ⟨hi, hb⟩ := List.getElem?_eq_some_iff.mp h
  refine ⟨(L.take i).flatMap g, (L.drop (i + 1)).flatMap g, ?_, ?_⟩
  · conv_lhs => rw [← take_append_drop i L, drop_eq_getElem_cons hi]
    rw [flatMap_append, flatMap_cons, hb, append_assoc]
  · rw [set_eq_take_append_cons_drop, if_pos hi, flatMap_append, flatMap_cons, append_assoc]

/-- An mbuf that was just taken from a pool. -/
def fresh (omp lead : Nat) (m : Mbuf) : Mbuf :=
  { m with omNext := none, omFlags := 0, omPkthdrLen := 0, omLen := 0
           omData := lead, omOmp := omp }

theorem bytes_fresh : (fresh omp lead m).bytes = [] := slice_zero

/-- What `os_mbuf_get` does when the pool has an mbuf. -/
structure Taken (s : MbufSt) (l : List Nat) (omp lead a : Nat) (s' : MbufSt) : Prop where
  new : a ∉ l
  moves : Moves s l s' (a :: l)
  self : s'.mbuf a = fresh omp lead (s.mbuf a)
  others : ∀ x ≠ a, s'.mbuf x = s.mbuf x
  pool : ∃ q q' rest, s.pools[omp]? = some q ∧ q.mpFree = a :: rest ∧
    s'.pools[omp]? = some q' ∧ q'.mpFree = rest

theorem Moves.databuf {l' : List Nat} (h : Moves s l s' l') (ha : a ∈ l')
    (homp : (s'.mbuf a).omOmp = omp) (hq : s.pools[omp]? = some q) :
    (s'.mbuf a).omDatabuf.length = q.ompDatabufLen := by
  obtain ⟨q', hq', -, hbuf⟩ := h.owned.homed a ha
  rw [homp] at hq'
  rw [hbuf]
  exact (shape_getElem? h.shape hq hq').1

theorem Taken.databuf (h : Taken s l omp lead a s') (hq : s.pools[omp]? = some q) :
    (s'.mbuf a).omDatabuf.length = q.ompDatabufLen :=
  h.moves.databuf mem_cons_self (by rw [h.self]; rfl) hq

theorem Taken.pool_eq (h : Taken s l omp lead a s') (hq : s.pools[omp]? = some q) :
    ∃ q', q.mpFree = a :: q'.mpFree ∧ s'.pools[omp]? = some q' ∧
      q'.ompDatabufLen = q.ompDatabufLen := by
  obtain ⟨q0, q', fr, hq0, hfr, hq', rfl⟩ := h.pool
  obtain rfl := Option.some.inj (hq.symm.trans hq0)
  exact ⟨q', hfr, hq', (shape_getElem? h.moves.shape hq hq').1⟩

theorem setPool_pools (q' : MbufPool) : (s.setPool omp q').pools = s.pools.set omp q' := rfl

theorem shape_setPool (hq : s.pools[omp]? = some q) (hl : q'.ompDatabufLen = q.ompDatabufLen)
    (hb : q'.mpBlocks = q.mpBlocks) : shape (s.setPool omp q') = shape s := by
  refine ext_getElem? fun j => ?_
  simp only [shape, setPool_pools, getElem?_map, getElem?_set]
  split
  · next h =>
    subst h
    rw [if_pos (List.getElem?_eq_some_iff.mp hq).1, hq, map_some, map_some, hl, hb]
  · rfl

/-- Another free list for a pool. -/
theorem Pools.setFree (h : Pools s) (hq : s.pools[omp]? = some q)
    (hs : s'.pools = s.pools.set omp { q with mpNumFree := n, mpFree := r })
    (hbuf : ∀ x, (s'.mbuf x).omDatabuf = (s.mbuf x).omDatabuf) (hn : n = r.length)
    (hr : ∀ a ∈ r, a ∈ q.mpBlocks ∧ (s.mbuf a).omDatabuf.length = q.ompDatabufLen) : Pools s' := by
  have hmem : ∀ x ∈ s'.pools, x ∈ s.pools ∨ x = { q with mpNumFree := n, mpFree := r } := by
    rw [hs]
    exact fun x hx => mem_or_eq_of_mem_set hx
  constructor
  · intro x hx
    rcases hmem x hx with hx | rfl
    · exact h.num x hx
    · exact hn
  · intro x hx
    rcases hmem x hx with hx | rfl
    · exact h.small x hx
    · exact h.small q (mem_of_getElem? hq)
  · intro x hx y hy
    rw [hbuf y]
    rcases hmem x hx with hx | rfl
    · exact h.home x hx y hy
    · exact hr y hy

section

variable (ho : Owned s l) (hq : s.pools[omp]? = some q) (hlead : lead ≤ q.ompDatabufLen)
include ho hq hlead

theorem taken_of_free {rest : List Nat} (hfree : q.mpFree = a :: rest) :
    Taken s l omp lead a ((s.setPool omp { q with
      mpNumFree := q.mpNumFree - 1, mpFree := rest }).upd a (fresh omp lead)) := by
  have hqm := mem_of_getElem? hq
  have hafq : a ∈ q.mpFree := by rw [hfree]; exact mem_cons_self
  have haf : a ∈ freeIds s := mem_flatMap.mpr ⟨q, hqm, hafq⟩
  have hhome := ho.pools.home q hqm a hafq
  have hnew : a ∉ l := fun ha => ho.not_free ha haf
  set q' : MbufPool := { q with mpNumFree := q.mpNumFree - 1, mpFree := rest }
  generalize hs' : (s.setPool omp q').upd a (fresh omp lead) = s'
  have hself : s'.mbuf a = fresh omp lead (s.mbuf a) := by
    rw [← hs', upd_self]
    rfl
  have hothers : ∀ x ≠ a, s'.mbuf x = s.mbuf x := fun x hx => by
    rw [← hs', upd_of_ne hx]
    rfl
  have hold : ∀ x ∈ l, s'.mbuf x = s.mbuf x :=
    fun x hx => hothers x (ne_of_mem_of_not_mem hx hnew)
  have hbuf : ∀ x, (s'.mbuf x).omDatabuf = (s.mbuf x).omDatabuf := by
    intro x
    by_cases hx : x = a
    · rw [hx, hself]
      rfl
    · rw [hothers x hx]
  have hshape : shape s' = shape s := by
    rw [← hs']
    exact shape_setPool hq rfl rfl
  have hset : s'.pools = s.pools.set omp q' := by
    rw [← hs']
    rfl
  have hpool : s'.pools[omp]? = some q' := by
    rw [hset]
    exact getElem?_set_self (List.getElem?_eq_some_iff.mp hq).1
  have hperm : (freeIds s' ++ a :: l).Perm (freeIds s ++ l) := by
    obtain ⟨A, B, hbefore, hafter⟩ := set_flatMap hq
    have h1 : freeIds s = A ++ a :: rest ++ B := by rw [← hfree]; exact hbefore
    have h2 : freeIds s' = A ++ rest ++ B := by rw [← hs']; exact hafter
    rw [h1, h2, perm_iff_count]
    simp only [count_append, count_cons]
    omega
  refine ⟨hnew, ⟨hperm, fun x hx => hothers x ?_, hshape, ho.pools.setFree hq hset hbuf ?_ ?_,
    hperm.nodup_iff.mpr ho.nodup, forall_mem_cons.mpr ⟨⟨q', ?_, hhome.1, ?_⟩, fun x hx => ?_⟩,
    forall_mem_cons.mpr ⟨?_, fun x hx => ?_⟩⟩, hself, hothers, q, q', rest, hq, hfree, hpool, rfl⟩
  · rintro rfl
    exact hx (mem_append_left _ haf)
  · rw [ho.pools.num q hqm, hfree]
    rfl
  · intro y hy
    exact ho.pools.home q hqm y (by rw [hfree]; exact mem_cons_of_mem a hy)
  · rw [hself]
    exact hpool
  · rw [hbuf a]
    exact hhome.2
  · exact (ho.homed x hx).of_eq hshape (by rw [hold x hx]) (by rw [hbuf x])
  · rw [hself]
    refine ⟨?_, .inl rfl⟩
    show lead + 0 ≤ (s.mbuf a).omDatabuf.length
    rw [hhome.2]
    exact hlead
  · rw [hold x hx]
    exact ho.ok x hx

omit hlead in
/-- The first of the free mbufs is taken, whatever room is to be before its
data. -/
theorem wp_osMbufGet_free : Wp (osMbufGet omp lead)
      (.total fun r s' => match r with
        | none => s' = s ∧ q.mpFree = []
        | some a => ∃ rest, q.mpFree = a :: rest ∧ s' = (s.setPool omp { q with
            mpNumFree := q.mpNumFree - 1, mpFree := rest }).upd a (fresh omp lead)) s := by
  have hnum := ho.pools.num q (mem_of_getElem? hq)
  refine .bind (.get_bind ?_)
  rw [hq]
  simp only
  split
  · next h0 =>
    rw [h0] at hnum
    exact .pure (.pure ⟨rfl, length_eq_zero_iff.mp hnum.symm⟩)
  · next h0 =>
    cases hfree : q.mpFree with
    | nil =>
      rw [hfree] at hnum
      exact absurd hnum h0
    | cons a rest => exact .modify_bind (.pure (.modify_bind (.pure ⟨rest, rfl, rfl⟩)))

theorem wp_osMbufGet : Wp (osMbufGet omp lead)
      (.total fun r s' => match r with
        | none => s' = s ∧ q.mpFree = []
        | some a => Taken s l omp lead a s') s := by
  refine (wp_osMbufGet_free ho hq).mono_ok fun r s' h => ?_
  cases r with
  | none => exact h
  | some a =>
    obtain ⟨rest, hfree, rfl⟩ := h
    exact taken_of_free ho hq hlead hfree

end

theorem freed_moves (ho : Owned s (a :: l))
    (hq : s.pools[(s.mbuf a).omOmp]? = some q) (hb : a ∈ q.mpBlocks)
    (hlen : (s.mbuf a).omDatabuf.length = q.ompDatabufLen) :
    Moves s (a :: l) (s.setPool (s.mbuf a).omOmp { q with
      mpNumFree := q.mpNumFree + 1, mpFree := a :: q.mpFree }) l := by
  have hqm := mem_of_getElem? hq
  set q' : MbufPool := { q with mpNumFree := q.mpNumFree + 1, mpFree := a :: q.mpFree }
  have hperm : (freeIds (s.setPool (s.mbuf a).omOmp q') ++ l).Perm (freeIds s ++ a :: l) := by
    obtain ⟨A, B, hbefore, hafter⟩ := set_flatMap hq
    have h1 : freeIds s = A ++ q.mpFree ++ B := hbefore
    have h2 : freeIds (s.setPool (s.mbuf a).omOmp q') = A ++ a :: q.mpFree ++ B := hafter
    rw [h1, h2, perm_iff_count]
    simp only [count_append, count_cons]
    omega
  have hshape : shape (s.setPool (s.mbuf a).omOmp q') = shape s := shape_setPool hq rfl rfl
  refine ⟨hperm, fun _ _ => rfl, hshape, ho.pools.setFree hq rfl (fun _ => rfl) ?_ ?_,
    hperm.nodup_iff.mpr ho.nodup, fun x hx => ?_, fun x hx => ?_⟩
  · exact congrArg (· + 1) (ho.pools.num q hqm)
  · exact forall_mem_cons.mpr ⟨⟨hb, hlen⟩, ho.pools.home q hqm⟩
  · exact (ho.homed x (mem_cons_of_mem a hx)).of_eq hshape rfl rfl
  · exact ho.ok x (mem_cons_of_mem a hx)

theorem wp_osMbufFree (ho : Owned s (a :: l)) :
    Wp (osMbufFree a) (.total fun rc s' => rc = .ok ∧ s'.mbuf = s.mbuf ∧
      Moves s (a :: l) s' l) s := by
  obtain ⟨q, hq, hb, hlen⟩ := ho.homed a mem_cons_self
  refine wp_mb (.get_bind ?_)
  rw [hq]
  simp only
  rw [if_pos hb]
  exact .modify_bind (.pure ⟨rfl, rfl, freed_moves ho hq hb hlen⟩)

theorem wp_freeLoop {fuel : Nat} (ho : Owned s l) (hc : Chain s p l) (hf : l.length < fuel) :
    Wp (freeLoop fuel p) (.total fun rc s' => rc = .ok ∧ s'.mbuf = s.mbuf ∧ Moves s l s' []) s := by
  induction l generalizing s p fuel with
  | nil =>
    obtain _ | fuel := fuel
    · cases hf
    obtain rfl : p = none := hc
    exact .pure ⟨rfl, rfl, .refl ho⟩
  | cons a l ih =>
    obtain _ | fuel := fuel
    · omega
    obtain ⟨rfl, hrest⟩ := hc
    refine wp_mb (.bind_total (wp_osMbufFree ho) fun rc s1 h => ?_)
    obtain ⟨rfl, hm, hmv⟩ := h
    have hrest' : Chain s1 (s.mbuf a).omNext l :=
      Chain.congr hrest fun x _ => by rw [hm]
    have hf' : l.length < fuel := by
      simp only [length_cons] at hf
      omega
    refine (ih hmv.owned hrest' hf').mono_ok fun rc s2 h => ?_
    exact ⟨h.1, h.2.1.trans hm, hmv.trans h.2.2⟩

theorem Owned.length_lt_fuel (ho : Owned s l) : l.length < s.numBlocks + 2 := by
  have := ho.length_le
  rw [length_append] at this
  omega

/-- Freeing a chain gives all its mbufs back. -/
theorem wp_osMbufFreeChain (ho : Owned s l) (hc : Chain s p l) :
    Wp (osMbufFreeChain p) (.total fun rc s' => rc = .ok ∧
      s'.mbuf = s.mbuf ∧ Moves s l s' []) s :=
  wp_fuel (wp_freeLoop ho hc ho.length_lt_fuel)

theorem wp_lastLoop {fuel : Nat} (hc : Chain s (some a) (l ++ [z])) (hf : l.length < fuel) :
    Wp (lastLoop fuel a) (.total fun r s' => r = z ∧ s' = s) s := by
  induction l generalizing a fuel with
  | nil =>
    obtain _ | fuel := fuel
    · cases hf
    obtain ⟨ha, hn⟩ := hc
    obtain rfl := some.inj ha
    have hnext : (s.mbuf a).omNext = none := hn
    refine wp_mb ?_
    rw [hnext]
    exact .pure ⟨rfl, rfl⟩
  | cons b l ih =>
    obtain _ | fuel := fuel
    · omega
    obtain ⟨ha, hrest⟩ := hc
    obtain rfl := some.inj ha
    obtain ⟨c, hnext⟩ : ∃ c, (s.mbuf a).omNext = some c := by
      cases l with
      | _ => exact ⟨_, hrest.1⟩
    refine wp_mb ?_
    rw [hnext]
    refine ih ?_ (by simp only [length_cons] at hf; omega)
    rw [← hnext]
    exact hrest

theorem wp_lastOf {k : Nat → MbufM α} (ho : Owned s (l ++ [z])) (hc : Chain s (some a) (l ++ [z]))
    (h : Wp (k z) Q s) : Wp (lastOf a >>= k) Q s := by
  have hf := ho.left.length_lt_fuel
  refine .bind (wp_fuel ?_)
  refine (wp_lastLoop hc hf).mono (fun r s' hr => ?_) (fun _ _ => False.elim)
    (fun _ => False.elim) False.elim
  obtain ⟨rfl, rfl⟩ := hr
  exact h

end Steps

end Larva.Os.Mbufs
