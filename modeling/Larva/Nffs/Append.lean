import Larva.Nffs.Write

/-!
# Appending a block

`nffs_write_append` adds a block behind the last one, records the new size and
seeks to the new end so that the block is cached. The seek finds the block at
once; what matters is what was cached before. A stretch whose lengths are all
right stays a stretch of the longer file, with a block behind it or without.
A stretch that ends in a block whose cached length is out of date does not: the
new block would join it, and the bytes between the cached end of the one and
the start of the other would belong to no cached block.

There is one way out of it. If no cache block is free and the file is the one
that has to give up its own, the stretch is gone before the new block is put
into it. With a single cache block this is always so.
-/

namespace Larva.Nffs

open Larva.Crash Function List

section Append

variable {s : St} {R : Nat → List Link} {z : Nat → Nat} {f i : Nat} {x : Link} {L : List CacheInode}
  {c : CacheInode} {Q : Post St FsErr (List CacheBlock)} {a : Area} {e : InodeEntry}

/-- A state in which a block was added to a file. -/
def St.append (s : St) (f i : Nat) (a : Area) (e : InodeEntry) (x : Link) :
    St :=
  { s with
    blockPool := s.blockPool - 1
    nextBlockId := s.nextBlockId + 1
    areas := advance s.areas i a (sizeofDiskBlock + Link.len x)
    blocks := fun k => if k = x.1 then some x.2 else s.blocks k
    inodes := fun k => if k = f then
      some { e with nieLastBlockEntry := some x.1 } else s.inodes k }

theorem Stored.append (h : Stored s R) (he : s.inodes f = some e) (hfile : hashIdIsFile f = true)
    (hx : x.1 = s.nextBlockId) (hin : x.2.ndbInodeId = f) (hprev : x.2.ndbPrevId = ptrId (R f))
    (hpos : 0 < Link.len x) (hmax : Link.len x ≤ maxBlockLen) (ha : s.areas[i]? = some a)
    (hroom : a.naCur + (sizeofDiskBlock + Link.len x) ≤ a.naLength) :
    Stored (s.append f i a e x) (update R f (x :: R f)) := by
  have hlive : (s.inodes f).isSome := by rw [he]; rfl
  have hused : (s.append f i a e x).flashUsed =
      s.flashUsed + (sizeofDiskBlock + Link.len x) := sum_advance _ ha
  have hmin := h.minId
  have hsome : ∀ g, ((s.append f i a e x).inodes g).isSome → (s.inodes g).isSome := by
    intro g hg
    by_cases hgf : g = f
    · rw [hgf]
      exact hlive
    · simpa [St.append, hgf] using hg
  -- No block has the new id yet.
  have hchain : ∀ g, (s.inodes g).isSome → hashIdIsFile g = true →
      IsChain (s.append f i a e x).blocks g s.nextBlockId (R g) := by
    intro g hg hgfile
    have hc := h.chain g hg hgfile
    refine hc.congr fun y hy => if_neg ?_
    have := hc.lt_of_mem hy
    omega
  refine ⟨areas_advance h.areas ha hroom, ?_, ?_, ?_, h.maxSz, h.noGc, ?_, ?_, ?_, ?_⟩
  · show (advance _ _ _ _).length ≤ 255
    rw [advance, length_set]
    exact h.numAreas
  · show idBlockMin ≤ s.nextBlockId + 1
    omega
  · have hids := h.ids
    rw [hused]
    simp only [St.numBlockIds, St.append] at hids ⊢
    rw [Nat.sub_add_comm hmin, mul_add]
    omega
  · intro g e' he' hg
    by_cases hgf : g = f
    · subst hgf
      simp only [St.append, if_true, Option.some.injEq] at he'
      rw [update_self, ← he']
      rfl
    · rw [update_of_ne hgf]
      refine h.last g e' ?_ hg
      simpa [St.append, hgf] using he'
  · intro g hg hgfile
    by_cases hgf : g = f
    · subst hgf
      rw [update_self]
      refine ⟨?_, hx ▸ hmin, if_pos rfl, hin, hpos, hmax, hprev, ?_⟩
      · show x.1 < s.nextBlockId + 1
        omega
      · rw [hx]
        exact hchain g hlive hgfile
    · rw [update_of_ne hgf]
      exact (hchain g (hsome g hg) hgfile).mono (Nat.le_succ _)
  · intro g hg hgfile
    have := h.used g (hsome g hg) hgfile
    by_cases hgf : g = f
    · subst hgf
      rw [update_self]
      simp only [chainSize]
      omega
    · rw [update_of_ne hgf]
      omega
  · intro k fl hfl
    obtain ⟨h1, h2⟩ := h.handles k fl hfl
    refine ⟨?_, h2⟩
    by_cases hgf : fl.nfInodeEntry = f
    · simp [St.append, hgf]
    · simpa [St.append, hgf] using h1

/-- The caches after the append, whatever was done to those of the file. -/
theorem Wf.append {n p : Nat} (h : Wf s R z)
    (hs : Stored (s.append f i a e x) (update R f (x :: R f)))
    (hids : L.map CacheInode.nciInodeEntry = s.cacheInodes.map CacheInode.nciInodeEntry)
    (hother : ∀ c ∈ L, c.nciInodeEntry ≠ f → c ∈ s.cacheInodes)
    (hf : ∀ c ∈ L, c.nciInodeEntry = f → c.Ok (x :: R f) n) :
    Wf ((s.append f i a e x).recache L p) (update R f (x :: R f)) (update z f n) := by
  refine ⟨hs.caches _ _ _, hids ▸ h.cacheIds, ?_, ?_⟩
  · intro c hc
    have hm : c.nciInodeEntry ∈ s.cacheInodes.map CacheInode.nciInodeEntry :=
      hids ▸ mem_map_of_mem hc
    obtain ⟨d, hd, hid⟩ := mem_map.mp hm
    obtain ⟨h1, h2⟩ := h.cacheLive d hd
    rw [hid] at h1 h2
    refine ⟨?_, h2⟩
    by_cases hgf : c.nciInodeEntry = f
    · simp [St.recache, St.append, hgf]
    · simpa [St.recache, St.append, hgf] using h1
  · intro c hc
    by_cases hgf : c.nciInodeEntry = f
    · rw [hgf, update_self, update_self]
      exact hf c hc hgf
    · rw [update_of_ne hgf, update_of_ne hgf]
      exact h.cached c (hother c hc hgf)

/-- The file has to give up its own cached blocks for the next one. -/
def St.evicts (s : St) (f : Nat) : Prop :=
  s.cacheBlockPool = 0 ∧ (s.cacheInodes.reverse.find? fun c => !c.nciBlockList.isEmpty).map
      CacheInode.nciInodeEntry = some f

instance (s : St) (f : Nat) : Decidable (s.evicts f) :=
  inferInstanceAs (Decidable (_ ∧ _))

theorem length_le_cachedCount (hc : c ∈ L) : c.nciBlockList.length ≤ cachedCount L :=
  le_sum_of_mem (mem_map_of_mem hc)

/-- A single cache block is either not in use or given up. -/
theorem Wf.snug_or_evicts (h : Wf s R z) (hc : c ∈ s.cacheInodes) (hid : c.nciInodeEntry = f)
    (ht : s.cacheBlockTotal = 1) : SnugAt s R f ∨ s.evicts f := by
  subst hid
  by_cases hl : c.nciBlockList = []
  · left
    intro d hd hdid cb hcb
    rw [h.eq_of_id hc hd hdid, hl] at hcb
    cases hcb
  right
  have hlen : 0 < c.nciBlockList.length := length_pos_iff.mpr hl
  have hcount := cachedCount_filter h.cacheIds hc
  unfold St.cacheBlockTotal at ht
  refine ⟨by omega, ?_⟩
  obtain ⟨d, hfind⟩ := exists_find hc hl
  obtain ⟨hd, hdl⟩ := find_cached hfind
  have hdpos : 0 < d.nciBlockList.length := length_pos_iff.mpr hdl
  rw [hfind]
  -- Another file with a cached block would make two of them.
  by_contra hne
  have hmem : d ∈ s.cacheInodes.filter fun d =>
      d.nciInodeEntry ≠ c.nciInodeEntry :=
    mem_filter.mpr ⟨hd, by simpa using hne⟩
  have := length_le_cachedCount hmem
  omega

/-- Giving the blocks up first makes no difference. -/
theorem nffsCacheBlockAcquire_evicts (hn : (s.cacheInodes.map CacheInode.nciInodeEntry).Nodup)
    (hp : s.cacheBlockPool = 0) (hfind : s.cacheInodes.reverse.find?
      (fun c => !c.nciBlockList.isEmpty) = some c) (left : Option Nat) :
    nffsCacheBlockAcquire s left = nffsCacheBlockAcquire (s.recache
      (withBlocks c.nciInodeEntry [] s.cacheInodes) c.nciBlockList.length) left := by
  obtain ⟨hc, hne⟩ := find_cached hfind
  have hself := find_of_mem hn hc
  simp [nffsCacheBlockAcquire, nffsCacheCollectBlocks,
    nffsCacheInodeFreeBlocks, cacheInode, bind, Prog.bind, Prog.get, hp, hfind,
    St.findCacheInode, hself, Prog.modify, Prog.assert, pure, Prog.pure,
    setCacheInode_blocks, St.recache, hne]

variable {i n : Nat} {a : Area} {e : InodeEntry}

theorem evicts_resize (h : s.evicts f) (n : Nat) :
    (s.setCacheInode f (setFileSize n)).evicts f := by
  obtain ⟨hp, hfind⟩ := h
  refine ⟨hp, ?_⟩
  have hblocks : ((fun c => !c.nciBlockList.isEmpty) ∘
      fun c => if c.nciInodeEntry = f then setFileSize n c else c) =
        fun c => !c.nciBlockList.isEmpty := by
    funext c
    simp only [comp]
    split <;> rfl
  have hids : (CacheInode.nciInodeEntry ∘
      fun c => if c.nciInodeEntry = f then setFileSize n c else c) =
        CacheInode.nciInodeEntry := by
    funext c
    simp only [comp]
    split <;> rfl
  simp only [St.setCacheInode, ← map_reverse, find?_map, Option.map_map, hblocks, hids]
  exact hfind

/-- The seek to the last block of a file that gives up a stretch which is not
one of its chain. All that is asked of the stretch is that it ends before the
block. -/
theorem wp_nffsCacheSeek_evicts {T : List Link} (hs : Stored s R)
    (hn : (s.cacheInodes.map CacheInode.nciInodeEntry).Nodup) (hlive : s.HasFile f)
    (hR : R f = x :: T) (hev : s.evicts f) (hsize : ∀ c ∈ s.cacheInodes, c.nciInodeEntry = f →
      c.nciFileSize = chainSize (x :: T) ∧ c.range.1 ≤ chainSize T ∧ c.range.2 ≤ chainSize T)
    (h : ∀ p, Wf (s.recache (withBlocks f [] s.cacheInodes) p) R z)
    (hok : ∀ r s', Wf s' R z → Recached s s' → SnugAt s' R f →
      (∃ c ∈ s'.cacheInodes, c.nciInodeEntry = f) → Q.ok r s') :
    Wp (nffsCacheSeek f (chainSize (x :: T) - 1)) Q s := by
  obtain ⟨hp, hmap⟩ := hev
  obtain ⟨c, hfind, rfl⟩ := Option.map_eq_some_iff.mp hmap
  obtain ⟨hc, hne⟩ := find_cached hfind
  obtain ⟨hsz, hr1, hr2⟩ := hsize c hc rfl
  have hpos := hs.len_pos (A := []) hlive hR
  have hsub := hs.sub32_len (A := []) hlive hR
  obtain ⟨e, he⟩ := Option.isSome_iff_exists.mp hlive.1
  have hlast := hs.last _ e he hlive.2
  rw [hR] at hlast
  refine .bind (wp_cacheInode hn hc rfl ?_)
  have hsum : chainSize (x :: T) = chainSize T + Link.len x := rfl
  simp only [hsz]
  rw [if_neg (by omega)]
  refine .bind (.get ?_)
  simp only
  rw [if_neg (by omega), if_neg (by omega)]
  refine .bind (.bind (.get ?_))
  simp only [he]
  refine .pure ?_
  simp only [hlast, ptr]
  suffices hloop : ∀ fuel, Wp (nffsCacheSeekLoop c.nciInodeEntry
      (chainSize (x :: T) - 1) c.range.1 (fuel + 1) [] (some x.1)
      (chainSize (x :: T))) Q s from hloop _
  intro fuel
  unfold nffsCacheSeekLoop
  rw [if_neg (by omega)]
  refine .bind (.pure ?_)
  refine .bind (wp_nffsBlockFromHashEntry (A := []) hs.chained hlive hR ?_)
  simp only [hsub]
  rw [if_pos (by omega)]
  -- Where the cache block is acquired, the stretch is given up.
  set s1 := s.recache (withBlocks c.nciInodeEntry [] s.cacheInodes) c.nciBlockList.length
  have hevict : ∀ left, nffsCacheSeekAppend c.nciInodeEntry (cacheBlock x T) s left =
      nffsCacheSeekAppend c.nciInodeEntry (cacheBlock x T) s1 left := by
    intro left
    have := nffsCacheBlockAcquire_evicts hn hp hfind left
    unfold nffsCacheSeekAppend
    simp only [bind, Prog.bind, this, s1]
  have hre : Recached s s1 := by
    refine ⟨⟨_, _, _, rfl⟩, ?_⟩
    have hcnt := cachedCount_withBlocks (l := []) hn hc rfl
    simp only [length_nil] at hcnt
    simp only [s1, St.cacheBlockTotal, St.recache, hp]
    omega
  have hpool : 0 < c.nciBlockList.length := length_pos_iff.mpr hne
  have happend : Wp (nffsCacheSeekAppend c.nciInodeEntry (cacheBlock x T)) Q s1 := by
    refine wp_nffsCacheSeekAppend (A := []) (h _) ?_ (mem_withBlocks hc rfl) rfl hR ?_
    · simp only [s1, St.cacheBlockTotal, St.recache]
      omega
    · intro S B c' s' h' hs' _ hc' hl'
      exact hok _ s' h' (hre.trans hs') (h'.snugAt hc' hl') ⟨c', hc'.mem, hc'.id⟩
  intro left
  show Out.Sat left Q (nffsCacheSeekAppend c.nciInodeEntry (cacheBlock x T) s left)
  rw [hevict left]
  exact happend left

/-- The block was added and the size is recorded. -/
def St.grown (s : St) (f i : Nat) (a : Area) (e : InodeEntry) (x : Link) (n : Nat) : St :=
  (s.append f i a e x).setCacheInode f (setFileSize n)

section

variable (h : Wf s R z) (ht : 0 < s.cacheBlockTotal) (hc : c ∈ s.cacheInodes)
  (hid : c.nciInodeEntry = f)
include h ht hc hid

/-- The seek at the end of an append. -/
theorem wp_nffsCacheSeek_append (hpos : 0 < Link.len x)
    (hs : Stored (s.append f i a e x) (update R f (x :: R f))) (hcache : SnugAt s R f ∨ s.evicts f)
    (hok : ∀ r s', Wf s' (update R f (x :: R f)) (update z f (chainSize (x :: R f))) →
      Frame s s' → SnugAt s' (update R f (x :: R f)) f →
      (∃ c ∈ s'.cacheInodes, c.nciInodeEntry = f) → Q.ok r s') :
    Wp (nffsCacheSeek f (chainSize (x :: R f) - 1)) Q
      (s.grown f i a e x (chainSize (x :: R f))) := by
  have hlive := h.file hc hid
  set s1 := s.grown f i a e x _
  have hframe : Frame s s1 := by
    have h1 : Frame s (s.append f i a e x) := by
      refine ⟨rfl, fun g => ?_, rfl, rfl⟩
      by_cases hg : g = f
      · simp [St.append, hg, hlive.1]
      · simp [St.append, hg]
    exact h1.trans (Recached.resize _ _ _).frame
  have hR : update R f (x :: R f) f = x :: R f :=
    update_self f _ R
  rcases hcache with hsnug | hev
  · have h' : Wf s1 (update R f (x :: R f)) (update z f (chainSize (x :: R f))) := by
      refine h.append hs (setFileSize_ids _ _ _) ?_ ?_
      · intro d hd hne
        obtain ⟨d', hd', rfl⟩ := mem_map.mp hd
        by_cases hf : d'.nciInodeEntry = f
        · simp [hf, setFileSize] at hne
        · rw [if_neg hf]
          exact hd'
      · intro d hd hdf
        obtain ⟨d', hd', hid', hbl, hsz⟩ := mem_resize hd
        rw [hid'] at hdf
        rw [if_pos hdf] at hsz
        obtain ⟨A, S, B, hsplit, hb⟩ := (h.cached d' hd').blocks
        rw [hdf] at hsplit
        refine ⟨hsz, x :: A, S, B, by simp [hsplit], ?_⟩
        rw [hbl]
        refine hb.of_snug (hsnug d' hd' hdf) fun y hy => ?_
        rw [hsplit]
        simp [hy]
    have hc' : setFileSize (chainSize (x :: R f)) c ∈ s1.cacheInodes :=
      mem_map.mpr ⟨c, hc, if_pos hid⟩
    refine wp_nffsCacheSeek h' (by rw [hframe.total]; exact ht) hc' hid ?_ (.inl ?_) ?_
    · rw [update_self]
      simp only [chainSize]
      omega
    · rw [update_self, hR]
    intro r s' hsought
    obtain ⟨d, hd, hdid, -⟩ := hsought.found
    refine hok r s' hsought.wf (hframe.trans hsought.recached.frame)
      (hsought.snug_end ?_) ⟨d, hd, hdid⟩
    rw [hR]
    simp only [chainSize]
    omega
  · have hs' : Stored s1 (update R f (x :: R f)) := hs.caches _ _ _
    refine wp_nffsCacheSeek_evicts (z := update z f
      (chainSize (x :: R f))) hs' ?_ (hframe.file hlive) hR (evicts_resize hev _) ?_ ?_ ?_
    · exact (setFileSize_ids ..).symm ▸ h.cacheIds
    · intro d hd hdf
      obtain ⟨d', hd', hid', hbl, hsz⟩ := mem_resize hd
      rw [hid'] at hdf
      rw [if_pos hdf] at hsz
      have hrange : d.range = d'.range := by simp [CacheInode.range, hbl]
      rw [hrange]
      refine ⟨hsz, ?_⟩
      by_cases hne : d'.nciBlockList = []
      · simp [CacheInode.range, hne]
      · have hb := h.range_bounds hd' hne
        rw [hdf] at hb
        omega
    · intro p
      refine h.append hs ?_ ?_ ?_
      · exact (withBlocks_ids ..).trans (setFileSize_ids ..)
      · intro d hd hne
        obtain ⟨d', hd', rfl⟩ := mem_map.mp hd
        obtain ⟨d'', hd'', rfl⟩ := mem_map.mp hd'
        by_cases hf : d''.nciInodeEntry = f
        · simp [hf, setFileSize, setBlockList] at hne
        · simp only [hf, if_false]
          exact hd''
      · intro d hd hdf
        obtain ⟨d', hd', rfl⟩ := mem_map.mp hd
        obtain ⟨d'', hd'', rfl⟩ := mem_map.mp hd'
        by_cases hf : d''.nciInodeEntry = f
        · refine ⟨?_, ?_⟩
          · simp [hf, setFileSize, setBlockList]
          · simpa [hf, setFileSize, setBlockList] using cached_empty (x :: R f)
        · simp [hf] at hdf
    · intro r s' hwf hre hsn hex
      exact hok r s' hwf (hframe.trans hre.frame) hsn hex

/-- The errors that a lack of space or memory causes. -/
def FsErr.IsFull (e : FsErr) : Prop := e = .efull ∨ e = .enomem

instance (e : FsErr) : Decidable e.IsFull :=
  inferInstanceAs (Decidable (_ ∨ _))

theorem wp_nffsWriteAppend {d : List UInt8} (hz : z f = chainSize (R f)) (hd0 : d ≠ [])
    (hd : d.length ≤ maxBlockLen) (hcache : SnugAt s R f ∨ s.evicts f) {Q : Post St FsErr Unit}
    (herr : ∀ e s', e.IsFull → Q.err e s')
    (hok : ∀ x s', x.2.ndbData = d → Wf s' (update R f (x :: R f))
        (update z f (chainSize (x :: R f))) → Frame s s' → SnugAt s' (update R f (x :: R f)) f →
      (∃ c ∈ s'.cacheInodes, c.nciInodeEntry = f) → Q.ok () s') : Wp (nffsWriteAppend f d) Q s := by
  have hlive := h.file hc hid
  obtain ⟨e, he⟩ := Option.isSome_iff_exists.mp hlive.1
  have hlast := h.last f e he hlive.2
  have hpos : 0 < d.length := length_pos_iff.mpr hd0
  have hle := h.chainSize_le hlive
  have hM : maxBlockLen = 65511 := rfl
  have hH : sizeofDiskBlock = 24 := rfl
  refine .bind (.bind (.get ?_))
  by_cases hpool : s.blockPool = 0
  · simp only [hpool, if_true]
    exact .fail (herr _ _ (.inr rfl))
  simp only [hpool, if_false]
  refine .modify (.bind (.get ?_))
  refine .bind (.modify ?_)
  refine .bind (.bind (.get ?_))
  simp only [he]
  refine .pure ?_
  refine .bind (wp_nffsMiscReserveSpace ?_ ?_ (by omega) (fun _ => herr _ _ (.inl rfl)) ?_)
  · exact h.areas
  · exact h.noGc
  intro i a ha hroom
  refine .bind (wp_nffsFlashWrite ?_ ha hroom ?_)
  · exact h.areas
  refine .bind (wp_nffsFlashLoc h.areas ha hroom (by omega) ?_)
  refine .bind (.modify ?_)
  refine .bind (.bind (.get ?_))
  simp only [he]
  refine .pure (.bind (.modify ?_))
  -- The block that was added, in the state that has it.
  obtain ⟨x, hx⟩ : ∃ x : Link, x = (s.nextBlockId,
      ⟨0, f, e.nieLastBlockEntry.getD idNone, d⟩) := ⟨_, rfl⟩
  have hlen : Link.len x = d.length := by rw [hx]; rfl
  have hs : Stored (s.append f i a e x) (update R f (x :: R f)) := by
    refine h.toStored.append he hlive.2 (by rw [hx]) (by rw [hx]) ?_
      (by omega) (by omega) ha (by rw [hlen]; exact hroom)
    rw [hx, hlast]
    rfl
  have hsize : u32 (c.nciFileSize + d.length) = chainSize (x :: R f) := by
    rw [(h.cached c hc).size, hid, hz, u32_eq (by omega), ← hlen]
    rfl
  have hsub : sub32 (chainSize (x :: R f)) 1 = chainSize (x :: R f) - 1 := by
    refine sub32_eq ?_ ?_ <;> simp only [chainSize, hlen] <;> omega
  have hrest : Wp (do
      let c ← cacheInode f
      Prog.modify fun s => s.setCacheInode f (setFileSize (u32 (c.nciFileSize + d.length)))
      let _ ← Prog.attempt (nffsCacheSeek f (sub32 (u32 (c.nciFileSize + d.length)) 1))
      pure ()) Q (s.append f i a e x) := by
    refine .bind ?_
    have hc' : c ∈ (s.append f i a e x).cacheInodes := hc
    refine wp_cacheInode ?_ hc' hid ?_
    · exact h.cacheIds
    simp only [hsize, hsub]
    refine .bind (.modify (.bind (.attempt ?_)))
    refine wp_nffsCacheSeek_append h ht hc hid (by omega) hs hcache ?_
    intro r s' hwf hfr hsn hex
    exact .pure (hok x s' (by rw [hx]) hwf hfr hsn hex)
  rw [hx] at hrest
  exact hrest

end

end Append

end Larva.Nffs
