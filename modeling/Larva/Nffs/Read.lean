import Larva.Nffs.Seek

/-!
# Reading a file

`nffs_inode_read` copies the bytes from the last one wanted to the first, a
block at a time. Between two rounds the bytes of `[srcOff, srcEnd)` are in the
caller's buffer, and `srcOff` is where a block begins, unless nothing was read
yet. In the first round the block may be the one whose cached length is out
of date; the part of it that is wanted lies in what is cached of it, because
otherwise the seek would have read the block anew.
-/

namespace Larva.Nffs

open Larva.Crash List

/-- The first of the cached blocks `r` of a chain holds the byte before `e`,
or is the last one of a file that ends before it. -/
def Meets (R₀ : List Link) (e : Nat) (r : List CacheBlock) : Prop :=
  ∃ A y S B cb, R₀ = A ++ y :: (S ++ B) ∧ r = cb :: seg S B ∧
    Fresh A y (S ++ B) cb ∧ chainSize (S ++ B) < e ∧
    (e ≤ chainSize (S ++ B) + cb.nbDataLen ∨ A = [] ∧ cb.nbDataLen = Link.len y)

/-- A block of the file begins at `e`. -/
def Boundary (R₀ : List Link) (e : Nat) : Prop :=
  ∃ A T, R₀ = A ++ T ∧ A ≠ [] ∧ e = chainSize T

section Read

variable {R : Nat → List Link} {z : Nat → Nat} {f offset srcEnd e b : Nat} {s : St} {y : Link}

theorem Sought.meets {s' : St} {r : List CacheBlock} (he : 0 < e)
    (h : Sought s R z f (e - 1) r s') : Meets (R f) e r := by
  obtain ⟨c, -, -, A0, S0, y, S, B, cb, l, hR, -, -, hr, hf, hle, hend⟩ :=
    h.found
  exact ⟨A0 ++ S0, y, S, B, cb, hR, hr, hf, by omega, hend.imp_left fun hend => by omega⟩

/-- The cached block before one whose start is not the start of what is
wanted. -/
theorem meets_before {A S B : List Link} {R0 : List Link} (hchain : IsChain s.blocks f b R0)
    (hR : R0 = A ++ y :: (S ++ B)) : seg S B = [] ∨ Meets R0 (chainSize (S ++ B)) (seg S B) := by
  cases S with
  | nil => exact .inl rfl
  | cons x S =>
    have hpos : 0 < Link.len x := hchain.pos_of_mem (by rw [hR]; simp)
    refine .inr ⟨A ++ [y], x, S, B, cacheBlock x (S ++ B), by simpa using hR,
      rfl, fresh_cacheBlock hpos, ?_, .inl ?_⟩
    · simp only [cons_append, chainSize]
      omega
    · exact le_refl _

/-- The bytes that a round adds in front of those already read. -/
theorem slice_append (C : List UInt8) {a : Nat} (h1 : a ≤ e) (h2 : e ≤ b) :
    (C.drop a).take (e - a) ++ (C.drop e).take (b - e) = (C.drop a).take (b - a) := by
  have hsum : b - a = (e - a) + (b - e) := by omega
  have hdrop : C.drop e = (C.drop a).drop (e - a) := by
    rw [drop_drop]
    congr 1
    omega
  rw [hsum, take_add, hdrop]

variable {s : St}

/-- One round: the block found ends at `e`, or beyond the end of what is
wanted, and all of it that is wanted is read. -/
theorem wp_nffsInodeReadRound {A T : List Link} {cb : CacheBlock} (h : Wf s R z)
    (hlive : s.HasFile f) (hR : R f = A ++ y :: T) (hcb : Fresh A y T cb) (hlt : chainSize T < e)
    (hoff : offset < e) (hmin : e = min (chainSize T + cb.nbDataLen) srcEnd)
    {Q : Post St FsErr (Nat × List UInt8)} (hok : Q.ok (e - max (chainSize T) offset,
      ((chainBytes (R f)).drop (max (chainSize T) offset)).take (e - max (chainSize T) offset)) s) :
    Wp (nffsInodeReadRound offset srcEnd (e - offset) cb) Q s := by
  have hsize := h.chainSize_lt hlive
  rw [hR] at hsize
  obtain ⟨-, -, -, -, -, hmax, -⟩ := h.chained.at hlive hR
  have hle := hcb.le
  simp only [chainSize_append, chainSize, maxBlockLen] at hsize hmax
  -- The part of the block before the start of what is wanted.
  have hblockOff : (if cb.ncbFileOffset < offset then
      u16 (sub32 offset cb.ncbFileOffset) else 0) = offset - chainSize T := by
    rw [hcb.off]
    split
    · rw [sub32_eq (by omega) (by omega), u16_eq (by omega)]
    · omega
  have hend := h.fresh_end hlive hR hcb
  have hrest : sub16 cb.nbDataLen (offset - chainSize T) =
      cb.nbDataLen - (offset - chainSize T) :=
    sub16_eq (by omega) (by omega)
  have hchunk : (if chainSize T + cb.nbDataLen > srcEnd then
      sub16 (cb.nbDataLen - (offset - chainSize T)) (chainSize T + cb.nbDataLen - srcEnd)
      else cb.nbDataLen - (offset - chainSize T)) = e - max (chainSize T) offset := by
    split
    · rw [sub16_eq (by omega) (by omega)]
      omega
    · omega
  unfold nffsInodeReadRound
  simp only [hblockOff, hend, hrest, hchunk]
  refine .bind (.assert (by simp only [decide_eq_true_eq]; omega) ?_)
  refine .bind ?_
  rw [hcb.entry]
  have hfits : offset - chainSize T + (e - max (chainSize T) offset) ≤ Link.len y := by omega
  refine .bind (wp_blockEntry h.chained hlive hR ?_)
  refine .bind (.assert (by simpa [Link.len] using hfits) ?_)
  refine .pure (.pure ?_)
  have hstart : max (chainSize T) offset = chainSize T + (offset - chainSize T) := by omega
  have hslice := chainBytes_slice (A := A) (T := T) hfits
  rw [← hR, ← hstart] at hslice
  rw [← hslice]
  exact hok

/-- What is left of a round once it has a cached block. -/
def readRest (f offset srcEnd fuel dstOff srcOff : Nat) (out : List UInt8) :
    List CacheBlock → NffsM (List UInt8)
  | [] => Prog.abort
  | cb :: before => do
      let (chunkSz, data) ← nffsInodeReadRound offset srcEnd dstOff cb
      nffsInodeReadLoop f offset srcEnd fuel before (dstOff - chunkSz)
        (sub32 srcOff chunkSz) (data ++ out)

/-- The loop ends with all bytes read, whatever it has done to the caches. -/
theorem wp_nffsInodeReadLoop (hend : srcEnd ≤ chainSize (R f))
    (hz : z f = chainSize (R f)) {fuel : Nat} :
    ∀ {s : St} {c : CacheInode} {r : List CacheBlock} {e : Nat}
      {Q : Post St FsErr (List UInt8)}, Wf s R z → 0 < s.cacheBlockTotal →
      c ∈ s.cacheInodes → c.nciInodeEntry = f → offset ≤ e → e ≤ srcEnd → e - offset < fuel →
      (e = offset ∨ (e = srcEnd ∨ Boundary (R f) e) ∧ (r = [] ∨ Meets (R f) e r)) →
      (∀ c s', Wf s' R z → Recached s s' → c ∈ s'.cacheInodes → c.nciInodeEntry = f →
        Q.ok (((chainBytes (R f)).drop offset).take (srcEnd - offset)) s') →
      Wp (nffsInodeReadLoop f offset srcEnd fuel r (e - offset) e
        (((chainBytes (R f)).drop e).take (srcEnd - e))) Q s := by
  induction fuel with
  | zero =>
    intro s c r e Q _ _ _ _ _ _ hfuel
    exact absurd hfuel (Nat.not_lt_zero _)
  | succ n ih =>
    intro s c r e Q h ht hc hid hoff hle hfuel hr hok
    unfold nffsInodeReadLoop
    by_cases hdone : e = offset
    · rw [if_pos (by omega), hdone]
      exact .pure (hok c s h (.refl s) hc hid)
    rw [if_neg (by omega)]
    obtain ⟨hb, hr⟩ := hr.resolve_left hdone
    have hlt := h.chainSize_lt (h.file hc hid)
    -- What is left once the round has a cached block, from the list or by
    -- a seek.
    have hround : ∀ c s' r, Wf s' R z → Recached s s' → c ∈ s'.cacheInodes →
        c.nciInodeEntry = f → Meets (R f) e r → Wp (readRest f offset srcEnd n (e - offset) e
          (((chainBytes (R f)).drop e).take (srcEnd - e)) r) Q s' := by
      rintro c s' _ h' hs hc hid ⟨A, y, S, B, cb, hR, rfl, hcb, hstart, hmeet⟩
      have hlive := h'.file hc hid
      have hchain := h'.isChain hlive
      have hcble := hcb.le
      have hsz := chainSize_split hR
      have hmeet' : e ≤ chainSize (S ++ B) + cb.nbDataLen := by
        rcases hmeet with hmeet | ⟨rfl, hlen⟩
        · exact hmeet
        · simp only [chainSize] at hsz
          omega
      have hmin : e = min (chainSize (S ++ B) + cb.nbDataLen) srcEnd := by
        rcases hb with hb | ⟨A', T', hR', hne, he⟩
        · omega
        rw [hR] at hchain
        have hlen : chainSize T' ≤ chainSize (y :: (S ++ B)) := by
          simp only [chainSize]
          omega
        obtain ⟨rfl, rfl⟩ := hchain.boundary (hR ▸ hR') (by omega) hlen
        simp only [chainSize] at he
        omega
      refine .bind (wp_nffsInodeReadRound h' hlive hR hcb hstart (by omega) hmin ?_)
      set m := max _ offset with hm
      have he' : sub32 e (e - m) = m := by
        rw [sub32_eq (by omega) (by omega)]
        omega
      have hdst : e - offset - (e - m) = m - offset := by omega
      simp only [he', hdst, slice_append _ (show m ≤ e by omega) hle]
      refine ih h' (by rw [hs.total]; exact ht) hc hid (by omega) (by omega) (by omega) ?_ ?_
      · by_cases hlast : chainSize (S ++ B) ≤ offset
        · exact .inl (by omega)
        · rw [show m = chainSize (S ++ B) by omega]
          refine .inr ⟨.inr ⟨A ++ [y], S ++ B, by simpa using hR, by simp,
            rfl⟩, meets_before hchain hR⟩
      · intro c' s'' h'' hs'' hc' hid'
        exact hok c' s'' h'' (hs.trans hs'') hc' hid'
    rcases hr with rfl | hmeets
    · refine .bind ?_
      rw [sub32_eq (by omega) (by omega)]
      refine wp_nffsCacheSeek h ht hc hid (by omega) (.inl hz) ?_
      intro r s' hsought
      obtain ⟨c', hc', hid', -⟩ := hsought.found
      exact hround c' s' r hsought.wf hsought.recached hc' hid' (hsought.meets (by omega))
    · have hne : r.isEmpty = false := by
        obtain ⟨A, y, S, B, cb, -, rfl, -⟩ := hmeets
        rfl
      simp only [hne]
      exact .bind (.pure (hround c s r h (.refl s) hc hid hmeets))

theorem cacheInodeTotal_pos {c : CacheInode} (hc : c ∈ s.cacheInodes) : 0 < s.cacheInodeTotal := by
  have := length_pos_of_mem hc
  unfold St.cacheInodeTotal
  omega

/-- `nffs_inode_read` returns the bytes there are. -/
theorem wp_nffsInodeRead {len : Nat} (h : Wf s R z)
    (hi : 0 < s.cacheInodeTotal) (ht : 0 < s.cacheBlockTotal) (hf : s.HasFile f)
    (hz : z f = chainSize (R f)) (hoff : offset ≤ chainSize (R f))
    (hlen : offset + len < 2 ^ 32) {Q : Post St FsErr (List UInt8)}
    (hok : ∀ s', Wf s' R z → Recached s s' → 0 < s'.cacheInodeTotal →
      Q.ok (((chainBytes (R f)).drop offset).take len) s') :
    Wp (nffsInodeRead f offset len) Q s := by
  unfold nffsInodeRead
  by_cases hl : len = 0
  · rw [if_pos hl]
    refine .pure ?_
    have := hok s h (.refl s) hi
    rwa [hl, take_zero] at this
  rw [if_neg hl]
  refine .bind (wp_nffsCacheInodeEnsure h hi hf hz ?_)
  rintro c s' h' hs hc rfl -
  refine .bind (wp_cacheInode h'.cacheIds hc rfl ?_)
  -- The end of what is wanted, or of the file.
  set e := min (offset + len) (chainSize (R c.nciInodeEntry)) with he
  have hend : (if u32 (offset + len) > c.nciFileSize then c.nciFileSize
      else u32 (offset + len)) = e := by
    rw [u32_eq hlen, (h'.cached c hc).size, hz]
    split <;> omega
  have hdst : sub32 e offset = e - offset := sub32_eq (by omega) (by omega)
  simp only [hend, hdst]
  refine .bind (.get ?_)
  have hfuel : e - offset < (e - offset + 1) * (s'.numBlockIds + 2) := by
    rw [mul_add]
    omega
  have hloop := wp_nffsInodeReadLoop (Q := Q) (Nat.min_le_right _ _) hz h'
    (by rw [hs.total]; exact ht) hc rfl (by omega) (le_refl _) hfuel (.inr ⟨.inl rfl, .inl rfl⟩) ?_
  · rw [Nat.sub_self, take_zero] at hloop
    exact hloop
  intro c' s'' h'' hs'' hc' _
  have hbytes : ((chainBytes (R c.nciInodeEntry)).drop offset).take (e - offset) =
      ((chainBytes (R c.nciInodeEntry)).drop offset).take len := by
    rw [take_eq_take_iff, length_drop, chainBytes_length]
    omega
  rw [hbytes]
  exact hok s'' h'' (hs.trans hs'') (cacheInodeTotal_pos hc')

end Read

end Larva.Nffs
