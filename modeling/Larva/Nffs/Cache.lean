import Larva.Nffs.Chain
import Mathlib.Algebra.Order.BigOperators.Group.List
import Mathlib.Algebra.Order.Group.Nat
import Mathlib.Data.List.Nodup

/-!
# The caches keep up with the chains

`Wf` is what the data operations preserve: every file's blocks form a chain,
and what is cached of a file is a stretch of it. The functions of
`nffs_cache.c` change the caches and nothing else. Acquiring a cache block
when none is free takes all the blocks of some file's cached stretch, at
times of the very file the caller is seeking in; a stretch that was emptied
is still a stretch, and the seek goes on from where it is.
-/

namespace Larva.Nffs

open Larva.Crash List

def St.flashUsed (s : St) : Nat := (s.areas.map Area.naCur).sum

def cachedCount (l : List CacheInode) : Nat :=
  (l.map fun c => c.nciBlockList.length).sum

/-- All cache blocks there are, free or in use. -/
def St.cacheBlockTotal (s : St) : Nat :=
  s.cacheBlockPool + cachedCount s.cacheInodes

/-- All cached inodes there are. -/
def St.cacheInodeTotal (s : St) : Nat := s.cacheInodePool + s.cacheInodes.length

/-- A cached inode agrees with the chain `R` and the size `z` of its file. -/
structure CacheInode.Ok (R : List Link) (z : Nat) (c : CacheInode) : Prop where
  size : c.nciFileSize = z
  blocks : ∃ A S B, R = A ++ S ++ B ∧ Cached A S B c.nciBlockList

/-- What is stored: `R` gives the chain of every file. Where a reservation
would need a collection it fails: the runs considered here have none. -/
structure Stored (s : St) (R : Nat → List Link) : Prop where
  areas : ∀ a ∈ s.areas, a.naCur ≤ a.naLength ∧ a.naLength ≤ 2 ^ 24
  numAreas : s.areas.length ≤ 255
  minId : idBlockMin ≤ s.nextBlockId
  ids : sizeofDiskBlock * s.numBlockIds ≤ s.flashUsed
  maxSz : 0 < s.blockMaxDataSz ∧ s.blockMaxDataSz ≤ maxBlockLen
  noGc : ∀ n m l i, (s.gcAnswer n m l i).areaIdx = .error .efull
  last : ∀ f e, s.inodes f = some e → hashIdIsFile f = true → e.nieLastBlockEntry = ptr (R f)
  chain : ∀ f, (s.inodes f).isSome → hashIdIsFile f = true → IsChain s.blocks f s.nextBlockId (R f)
  used : ∀ f, (s.inodes f).isSome → hashIdIsFile f = true → chainSize (R f) ≤ s.flashUsed
  handles : ∀ h fl, s.files h = some fl →
    (s.inodes fl.nfInodeEntry).isSome ∧ hashIdIsFile fl.nfInodeEntry = true

/-- The state between two file operations, and inside one: the caches agree
with what is stored. `z` is the size that a cached inode shows. -/
structure Wf (s : St) (R : Nat → List Link) (z : Nat → Nat) : Prop extends Stored s R where
  cacheIds : (s.cacheInodes.map CacheInode.nciInodeEntry).Nodup
  cacheLive : ∀ c ∈ s.cacheInodes, (s.inodes c.nciInodeEntry).isSome ∧
    hashIdIsFile c.nciInodeEntry = true
  cached : ∀ c ∈ s.cacheInodes, c.Ok (R c.nciInodeEntry) (z c.nciInodeEntry)

section Lists

variable {L : List CacheInode} {c : CacheInode} {l : List CacheBlock} {f : Nat}

theorem mem_of_find (h : L.find? (fun d => d.nciInodeEntry == f) = some c) :
    c ∈ L ∧ c.nciInodeEntry = f :=
  ⟨mem_of_find?_eq_some h, by simpa using find?_some h⟩

theorem find_of_mem (hn : (L.map CacheInode.nciInodeEntry).Nodup) (hc : c ∈ L) :
    L.find? (fun d => d.nciInodeEntry == c.nciInodeEntry) = some c := by
  cases hd : L.find? fun d => d.nciInodeEntry == c.nciInodeEntry with
  | none => exact absurd (find?_eq_none.mp hd c hc) (by simp)
  | some d => rw [inj_on_of_nodup_map hn (mem_of_find hd).1 hc (mem_of_find hd).2]

/-- Giving one cached inode another block list. -/
def withBlocks (f : Nat) (l : List CacheBlock) (L : List CacheInode) :
    List CacheInode :=
  L.map fun c => if c.nciInodeEntry = f then setBlockList l c else c

theorem cachedCount_cons (d : CacheInode) (L : List CacheInode) :
    cachedCount (d :: L) = d.nciBlockList.length + cachedCount L := by
  simp [cachedCount]

theorem withBlocks_ids (f : Nat) (l : List CacheBlock) (L : List CacheInode) :
    (withBlocks f l L).map CacheInode.nciInodeEntry = L.map CacheInode.nciInodeEntry := by
  simp only [withBlocks, map_map]
  refine map_congr_left fun c _ => ?_
  simp only [Function.comp]
  split <;> rfl

theorem withBlocks_of_not_mem (h : ∀ c ∈ L, c.nciInodeEntry ≠ f) : withBlocks f l L = L := by
  refine (map_congr_left fun c hc => ?_).trans (map_id L)
  rw [if_neg (h c hc)]
  rfl

theorem mem_withBlocks (hc : c ∈ L) (hf : c.nciInodeEntry = f) :
    setBlockList l c ∈ withBlocks f l L :=
  mem_map.mpr ⟨c, hc, if_pos hf⟩

/-- The entries before and behind a cached inode are of other inodes. -/
theorem split_cached (hn : (L.map CacheInode.nciInodeEntry).Nodup) (hc : c ∈ L) :
    ∃ A B, L = A ++ c :: B ∧ ∀ d ∈ A ++ B, d.nciInodeEntry ≠ c.nciInodeEntry := by
  obtain ⟨A, B, rfl⟩ := append_of_mem hc
  refine ⟨A, B, rfl, fun d hd he => ?_⟩
  rw [map_append, map_cons, nodup_middle, nodup_cons, ← map_append] at hn
  exact hn.1 (he ▸ mem_map_of_mem hd)

theorem cachedCount_withBlocks (hn : (L.map CacheInode.nciInodeEntry).Nodup) (hc : c ∈ L)
    (hf : c.nciInodeEntry = f) :
    cachedCount (withBlocks f l L) + c.nciBlockList.length = cachedCount L + l.length := by
  subst hf
  obtain ⟨A, B, rfl, hne⟩ := split_cached hn hc
  have hA := withBlocks_of_not_mem (l := l) fun d hd => hne d (mem_append_left B hd)
  have hB := withBlocks_of_not_mem (l := l) fun d hd => hne d (mem_append_right A hd)
  unfold withBlocks at hA hB ⊢
  rw [map_append, map_cons, hA, hB, if_pos rfl]
  simp only [cachedCount, map_append, map_cons, sum_append, sum_cons, setBlockList]
  omega

end Lists

section Frame

variable {s : St} {R : Nat → List Link} {z : Nat → Nat} {L : List CacheInode} {l : List CacheBlock}
  {c : CacheInode}

/-- A state with other caches. -/
def St.recache (s : St) (L : List CacheInode) (p : Nat) : St :=
  { s with cacheInodes := L, cacheBlockPool := p }

theorem setCacheInode_blocks (s : St) (f : Nat) (l : List CacheBlock) :
    s.setCacheInode f (setBlockList l) =
      s.recache (withBlocks f l s.cacheInodes) s.cacheBlockPool := rfl

/-- What is stored does not depend on the caches. -/
theorem Stored.caches (h : Stored s R) (L : List CacheInode) (i p : Nat) :
    Stored { s with
      cacheInodes := L, cacheInodePool := i, cacheBlockPool := p } R :=
  { h with }

theorem Wf.recache (h : Wf s R z) (p : Nat)
    (hids : L.map CacheInode.nciInodeEntry = s.cacheInodes.map CacheInode.nciInodeEntry)
    (hok : ∀ c ∈ L, c.Ok (R c.nciInodeEntry) (z c.nciInodeEntry)) : Wf (s.recache L p) R z where
  toStored := h.toStored.caches L _ p
  cacheIds := hids ▸ h.cacheIds
  cacheLive := by
    intro c hc
    have hm : c.nciInodeEntry ∈
        s.cacheInodes.map CacheInode.nciInodeEntry :=
      hids ▸ mem_map_of_mem hc
    obtain ⟨d, hd, he⟩ := mem_map.mp hm
    rw [← he]
    exact h.cacheLive d hd
  cached := hok

/-- Another stretch of the chain is cached for one file. -/
theorem Wf.withBlocks (h : Wf s R z) {f : Nat} (p : Nat)
    (hl : ∃ A S B, R f = A ++ S ++ B ∧ Cached A S B l) :
    Wf (s.recache (withBlocks f l s.cacheInodes) p) R z := by
  refine h.recache p (withBlocks_ids f l _) fun c hc => ?_
  obtain ⟨d, hd, rfl⟩ := mem_map.mp hc
  by_cases hf : d.nciInodeEntry = f
  · rw [if_pos hf]
    subst hf
    exact ⟨(h.cached d hd).size, hl⟩
  · rw [if_neg hf]
    exact h.cached d hd

/-- The cached blocks of one file grow by `k` that were taken for it. -/
theorem cacheBlockTotal_withBlocks {p k t : Nat} (hn : (L.map CacheInode.nciInodeEntry).Nodup)
    (hc : c ∈ L) (hl : l.length = c.nciBlockList.length + k) (hp : p + cachedCount L + k = t) :
    (s.recache (Nffs.withBlocks c.nciInodeEntry l L) p).cacheBlockTotal =
      t := by
  have hcnt := cachedCount_withBlocks (l := l) hn hc rfl
  simp only [St.cacheBlockTotal, St.recache]
  omega

theorem Wf.eq_of_id (h : Wf s R z) {c' : CacheInode} (hc : c ∈ s.cacheInodes)
    (hc' : c' ∈ s.cacheInodes) (he : c'.nciInodeEntry = c.nciInodeEntry) : c' = c :=
  inj_on_of_nodup_map h.cacheIds hc' hc he

theorem cached_empty (T : List Link) :
    ∃ A S B, T = A ++ S ++ B ∧ Cached A S B [] :=
  ⟨[], [], T, rfl, trivial⟩

end Frame

/-! ## Acquiring a cache block -/

section Acquire

variable {s : St} {R : Nat → List Link} {z : Nat → Nat} {c : CacheInode} {Q : Post St FsErr Unit}
  {L : List CacheInode}

theorem wp_cacheInode (hn : (s.cacheInodes.map CacheInode.nciInodeEntry).Nodup)
    (hc : c ∈ s.cacheInodes) {f : Nat} (hid : c.nciInodeEntry = f) {Q : Post St FsErr CacheInode}
    (hQ : Q.ok c s) : Wp (cacheInode f) Q s := by
  have hfind : s.findCacheInode f = some c := hid ▸ find_of_mem hn hc
  refine .bind (.get ?_)
  simp only [hfind]
  exact .pure hQ

theorem wp_nffsCacheInodeFreeBlocks (h : Wf s R z) (hc : c ∈ s.cacheInodes)
    (hQ : Q.ok () (s.recache (withBlocks c.nciInodeEntry [] s.cacheInodes)
      (s.cacheBlockPool + c.nciBlockList.length))) :
    Wp (nffsCacheInodeFreeBlocks c.nciInodeEntry) Q s :=
  Wp.bind (wp_cacheInode h.cacheIds hc rfl (.modify hQ))

theorem exists_cached (h : 0 < cachedCount L) : ∃ c ∈ L, c.nciBlockList ≠ [] := by
  by_contra hn
  push Not at hn
  refine h.ne' (sum_eq_zero fun n hm => ?_)
  obtain ⟨c, hc, rfl⟩ := mem_map.mp hm
  rw [hn c hc, length_nil]

theorem find_cached (h : L.reverse.find? (fun c => !c.nciBlockList.isEmpty) = some c) :
    c ∈ L ∧ c.nciBlockList ≠ [] :=
  ⟨mem_reverse.mp (mem_of_find?_eq_some h), by simpa using find?_some h⟩

theorem exists_find (hc : c ∈ L) (hne : c.nciBlockList ≠ []) :
    ∃ d, L.reverse.find? (fun c => !c.nciBlockList.isEmpty) = some d := by
  rw [← Option.isSome_iff_exists, find?_isSome]
  exact ⟨c, mem_reverse.mpr hc, by simpa using hne⟩

/-- After a cache block was acquired, what is cached of a file is what was
cached before, or nothing. -/
theorem wp_nffsCacheBlockAcquire (h : Wf s R z) (ht : 0 < s.cacheBlockTotal)
    (hok : ∀ L p, Wf (s.recache L p) R z → p + cachedCount L + 1 = s.cacheBlockTotal →
      (∀ c ∈ s.cacheInodes, ∃ c' ∈ L, c'.nciInodeEntry = c.nciInodeEntry ∧
        c'.nciFileSize = c.nciFileSize ∧
        (c'.nciBlockList = c.nciBlockList ∨ c'.nciBlockList = [])) → Q.ok () (s.recache L p)) :
    Wp nffsCacheBlockAcquire Q s := by
  refine .bind (.get ?_)
  by_cases hp : s.cacheBlockPool = 0
  · simp only [hp, if_true]
    have hcount : 0 < cachedCount s.cacheInodes := by
      unfold St.cacheBlockTotal at ht
      omega
    refine .bind (.bind (.get ?_))
    obtain ⟨d, hd, hdne⟩ := exists_cached hcount
    obtain ⟨c, hfind⟩ := exists_find hd hdne
    obtain ⟨hc, hne⟩ := find_cached hfind
    have hlen : 0 < c.nciBlockList.length := length_pos_iff.mpr hne
    simp only [hfind]
    refine wp_nffsCacheInodeFreeBlocks h hc ?_
    refine .bind (.get ?_)
    refine .bind (.assert ?_ ?_)
    · simp only [St.recache, bne_iff_ne]
      omega
    refine .modify ?_
    have hcnt := cachedCount_withBlocks (l := []) h.cacheIds hc rfl
    simp only [length_nil, add_zero] at hcnt
    refine hok _ _ (h.withBlocks _ (cached_empty _)) ?_ ?_
    · unfold St.cacheBlockTotal
      simp only [St.recache]
      omega
    · intro d hd
      by_cases hdc : d.nciInodeEntry = c.nciInodeEntry
      · exact ⟨_, mem_withBlocks hd hdc, rfl, rfl, .inr rfl⟩
      · exact ⟨d, mem_map.mpr ⟨d, hd, if_neg hdc⟩, rfl, rfl, .inl rfl⟩
  · simp only [hp, if_false]
    refine .bind (.get ?_)
    refine .bind (.assert (by simpa using hp) ?_)
    refine .modify (hok s.cacheInodes _ (h.recache _ rfl h.cached) ?_ ?_)
    · unfold St.cacheBlockTotal
      omega
    · exact fun c hc => ⟨c, hc, rfl, rfl, .inl rfl⟩

end Acquire

/-! ## Reading a block of a chain -/

section Blocks

variable {s : St} {R : Nat → List Link}

theorem Stored.flashUsed_le (h : Stored s R) : s.flashUsed ≤ s.flashSize :=
  sum_le_sum fun a ha => (h.areas a ha).1

theorem Stored.flashSize_le (h : Stored s R) : s.flashSize ≤ 255 * 2 ^ 24 := by
  have hle : s.flashSize ≤ (s.areas.map Area.naLength).length • 2 ^ 24 := by
    refine sum_le_card_nsmul _ _ fun n hn => ?_
    obtain ⟨a, ha, rfl⟩ := mem_map.mp hn
    exact (h.areas a ha).2
  rw [length_map] at hle
  exact le_trans hle (Nat.mul_le_mul_right (2 ^ 24) h.numAreas)

/-- Every block takes flash for its header, so ids do not run out. -/
theorem Stored.nextBlockId_lt (h : Stored s R) : s.nextBlockId < idNone := by
  have h1 := h.ids
  have h2 := h.flashUsed_le
  have h3 := h.flashSize_le
  simp only [St.numBlockIds, sizeofDiskBlock, idBlockMin, idNone] at *
  omega

theorem isInode_of_isFile {f : Nat} (h : hashIdIsFile f = true) : hashIdIsInode f = true := by
  simp [hashIdIsInode, h]

variable {f : Nat} {A B : List Link} {x : Link}

/-- There is a file `f`. -/
def St.HasFile (s : St) (f : Nat) : Prop := (s.inodes f).isSome ∧ hashIdIsFile f = true

theorem Wf.file {z : Nat → Nat} {c : CacheInode} (h : Wf s R z) (hc : c ∈ s.cacheInodes)
    (hid : c.nciInodeEntry = f) : s.HasFile f := by
  rw [← hid]
  exact h.cacheLive c hc

/-- No file is so large that a block past its end would overflow an offset. -/
theorem Stored.chainSize_le (h : Stored s R) (hf : s.HasFile f) : chainSize (R f) ≤ 255 * 2 ^ 24 :=
  le_trans (h.used f hf.1 hf.2) (le_trans h.flashUsed_le h.flashSize_le)

theorem Stored.chainSize_lt (h : Stored s R) (hf : s.HasFile f) : chainSize (R f) < 2 ^ 32 := by
  have := h.chainSize_le hf
  omega

/-- What a walk along the blocks of a file relies on. -/
structure Chained (s : St) (R : Nat → List Link) : Prop where
  minId : idBlockMin ≤ s.nextBlockId
  maxId : s.nextBlockId < idNone
  last : ∀ f e, s.inodes f = some e → hashIdIsFile f = true → e.nieLastBlockEntry = ptr (R f)
  chain : ∀ f, (s.inodes f).isSome → hashIdIsFile f = true → IsChain s.blocks f s.nextBlockId (R f)
  size : ∀ f, (s.inodes f).isSome → hashIdIsFile f = true → chainSize (R f) < 2 ^ 32

theorem Stored.chained (h : Stored s R) : Chained s R :=
  ⟨h.minId, h.nextBlockId_lt, h.last, h.chain, fun _ hf hfile => h.chainSize_lt ⟨hf, hfile⟩⟩

theorem Chained.isChain (h : Chained s R) (hf : s.HasFile f) :
    IsChain s.blocks f s.nextBlockId (R f) :=
  h.chain f hf.1 hf.2

theorem Stored.isChain (h : Stored s R) (hf : s.HasFile f) :
    IsChain s.blocks f s.nextBlockId (R f) :=
  h.chain f hf.1 hf.2

/-- The fields of a block of a file. -/
theorem Chained.at (h : Chained s R) (hf : s.HasFile f) (hR : R f = A ++ x :: B) :
    idBlockMin ≤ x.1 ∧ x.1 < s.nextBlockId ∧ s.blocks x.1 = some x.2 ∧
      x.2.ndbInodeId = f ∧ 0 < Link.len x ∧ Link.len x ≤ maxBlockLen ∧ x.2.ndbPrevId = ptrId B :=
  (hR ▸ h.isChain hf).at

theorem Chained.isBlock (h : Chained s R) {e : Nat} (h1 : idBlockMin ≤ e)
    (h2 : e < s.nextBlockId) : hashIdIsBlock e = true := by
  have := h.maxId
  simp only [hashIdIsBlock, Bool.and_eq_true, decide_eq_true_eq]
  omega

variable (h : Chained s R) (hf : s.HasFile f) {Q : Post St FsErr Nat}
include h hf

theorem wp_blockEntry (hR : R f = A ++ x :: B)
    {Q : Post St FsErr DiskBlock} (hQ : Q.ok x.2 s) : Wp (blockEntry x.1) Q s := by
  obtain ⟨-, -, hb, -⟩ := h.at hf hR
  refine .bind (.get ?_)
  simp only [hb]
  exact .pure hQ

theorem wp_nffsBlockFromHashEntry (hR : R f = A ++ x :: B) {Q : Post St FsErr Block}
    (hQ : Q.ok ⟨x.1, x.2.ndbSeq, f, ptr B, Link.len x⟩ s) :
    Wp (nffsBlockFromHashEntry x.1) Q s := by
  obtain ⟨hmin, hlt, hb, hin, -, -, hprev⟩ := h.at hf hR
  refine .bind (.assert (h.isBlock hmin hlt) ?_)
  refine .bind (wp_blockEntry h hf hR ?_)
  refine .bind ?_
  rw [hin]
  refine .bind (.assert (isInode_of_isFile hf.2) ?_)
  refine .bind (.get (.pure ?_))
  simp only [hf.1, if_true]
  refine .bind ?_
  unfold nffsBlockPrev
  rw [hprev]
  cases B with
  | nil =>
    exact .pure (.pure hQ)
  | cons y B =>
    obtain ⟨hymin, hylt, hyb, -⟩ :=
      h.at (A := A ++ [x]) hf (by simpa using hR)
    have hne : y.1 ≠ idNone := by
      have := h.maxId
      omega
    simp only [ptrId, ptr, Option.getD_some, hne, if_false]
    refine .bind ?_
    refine .bind (.assert (h.isBlock hymin hylt) ?_)
    refine .bind (.get (.pure ?_))
    simp only [hyb, Option.isSome_some, if_true]
    exact .pure (.pure hQ)

theorem wp_nffsInodeCalcDataLengthLoop :
    ∀ {T A : List Link} {fuel n : Nat}, R f = A ++ T → T.length ≤ fuel →
      n + chainSize T < 2 ^ 32 → Q.ok (n + chainSize T) s →
      Wp (nffsInodeCalcDataLengthLoop fuel (ptr T) n) Q s := by
  intro T
  induction T with
  | nil =>
    intro A fuel n _ _ _ hok
    unfold ptr nffsInodeCalcDataLengthLoop
    exact .pure hok
  | cons x T ih =>
    intro A fuel n hR hfuel hn hok
    obtain _ | k := fuel
    · simp at hfuel
    simp only [length_cons] at hfuel
    simp only [chainSize] at hn hok
    refine .bind (wp_nffsBlockFromHashEntry h hf hR ?_)
    simp only
    rw [u32_eq (by omega)]
    refine ih (A := A ++ [x]) (by simpa using hR) (by omega) (by omega) ?_
    have he : n + (chainSize T + Link.len x) = n + Link.len x + chainSize T := by omega
    rw [← he]
    exact hok

theorem wp_nffsInodeCalcDataLength (hok : Q.ok (chainSize (R f)) s) :
    Wp (nffsInodeCalcDataLength f) Q s := by
  obtain ⟨e, he⟩ := Option.isSome_iff_exists.mp hf.1
  have hlen := (h.isChain hf).length_le h.minId
  have hlt := h.size f hf.1 hf.2
  refine .bind (.assert hf.2 ?_)
  refine .bind (.bind (.get ?_))
  simp only [he]
  refine .pure (.bind (.get ?_))
  simp only [h.last f e he hf.2]
  refine wp_nffsInodeCalcDataLengthLoop (A := []) h hf rfl ?_ (by omega) ?_
  · unfold St.numBlockIds
    omega
  · rw [zero_add]
    exact hok

end Blocks

/-! ## Cached inodes -/

/-- Two states that differ in their caches, with as many cache blocks. -/
structure Recached (s s' : St) : Prop where
  same : ∃ L i p, s' = { s with
    cacheInodes := L, cacheInodePool := i, cacheBlockPool := p }
  total : s'.cacheBlockTotal = s.cacheBlockTotal

theorem Recached.refl (s : St) : Recached s s := ⟨⟨_, _, _, rfl⟩, rfl⟩

theorem Recached.trans {s s' s'' : St} (h : Recached s s')
    (h' : Recached s' s'') : Recached s s'' := by
  obtain ⟨⟨L, i, p, rfl⟩, ht⟩ := h
  obtain ⟨⟨L', i', p', rfl⟩, ht'⟩ := h'
  exact ⟨⟨L', i', p', rfl⟩, ht'.trans ht⟩

section Inodes

variable {s : St} {R : Nat → List Link} {z : Nat → Nat} {f : Nat} {L : List CacheInode}
  {Q : Post St FsErr Unit}

theorem cachedCount_filter {c : CacheInode} (hn : (L.map CacheInode.nciInodeEntry).Nodup)
    (hc : c ∈ L) : cachedCount (L.filter fun d => d.nciInodeEntry ≠ c.nciInodeEntry) +
      c.nciBlockList.length = cachedCount L := by
  obtain ⟨A, B, rfl, hne⟩ := split_cached hn hc
  rw [filter_append, filter_cons_of_neg (by simp), ← filter_append,
    filter_eq_self.mpr fun d hd => by simpa using hne d hd]
  simp only [cachedCount, map_append, map_cons, sum_append, sum_cons]
  omega

/-- Caches that hold fewer inodes. -/
theorem Wf.sublist (h : Wf s R z) (i p : Nat) (hL : L.Sublist s.cacheInodes) :
    Wf { s with cacheInodes := L, cacheInodePool := i, cacheBlockPool := p } R z where
  toStored := h.toStored.caches L _ p
  cacheIds := h.cacheIds.sublist (hL.map _)
  cacheLive := fun c hc => h.cacheLive c (hL.subset hc)
  cached := fun c hc => h.cached c (hL.subset hc)

theorem wp_nffsCacheInodeAcquire (h : Wf s R z) (ht : 0 < s.cacheInodeTotal)
    (hok : ∀ s', Wf s' R z → Recached s s' →
      s'.cacheInodes.Sublist s.cacheInodes → Q.ok () s') : Wp nffsCacheInodeAcquire Q s := by
  refine .bind (.get ?_)
  by_cases hp : s.cacheInodePool = 0
  · simp only [hp, if_true]
    have hne : s.cacheInodes ≠ [] := by
      intro he
      simp [St.cacheInodeTotal, hp, he] at ht
    have hlast := getLast?_eq_some_getLast hne
    have hc := getLast_mem hne
    simp only [hlast]
    refine .bind (.modify ?_)
    refine .bind (.get (.bind (.assert (by simp [St.dropCacheInode]) ?_)))
    have hsub := filter_sublist (l := s.cacheInodes) (p := fun d =>
      decide (d.nciInodeEntry ≠ (s.cacheInodes.getLast hne).nciInodeEntry))
    have hcnt := cachedCount_filter h.cacheIds hc
    refine .modify (hok _ (h.sublist _ _ hsub) ⟨⟨_, _, _, rfl⟩, ?_⟩ hsub)
    simp only [St.cacheBlockTotal, St.dropCacheInode]
    omega
  · simp only [hp, if_false]
    refine .bind (.get (.bind (.assert (by simpa using hp) ?_)))
    exact .modify (hok _ (h.sublist _ _ (Sublist.refl _)) ⟨⟨_, _, _, rfl⟩, rfl⟩ (Sublist.refl _))

/-- A file that is not cached starts with no cached blocks. -/
theorem wp_nffsCacheInodeEnsure (h : Wf s R z) (ht : 0 < s.cacheInodeTotal) (hf : s.HasFile f)
    (hz : z f = chainSize (R f)) (hok : ∀ c s', Wf s' R z → Recached s s' → c ∈ s'.cacheInodes →
      c.nciInodeEntry = f → s' = s ∨ c.nciBlockList = [] → Q.ok () s') :
    Wp (nffsCacheInodeEnsure f) Q s := by
  refine .bind (.get ?_)
  cases hfind : s.findCacheInode f with
  | some c =>
    obtain ⟨hc, hid⟩ := mem_of_find hfind
    simp only [hfind]
    exact .pure (hok c s h (.refl s) hc hid (.inl rfl))
  | none =>
    simp only [hfind]
    refine .bind (wp_nffsCacheInodeAcquire h ht ?_)
    intro s' h' hs hsub
    have hnot : ∀ c ∈ s'.cacheInodes, c.nciInodeEntry ≠ f := by
      intro c hc he
      have := find?_eq_none.mp hfind c (hsub.subset hc)
      simp [he] at this
    obtain ⟨⟨L, i, p, rfl⟩, ht'⟩ := hs
    obtain ⟨e, he⟩ := Option.isSome_iff_exists.mp hf.1
    refine .bind (.bind (.get ?_))
    simp only [he]
    refine .pure (.bind (.attempt ?_))
    refine wp_nffsInodeCalcDataLength h'.chained hf (.modify ?_)
    refine hok ⟨f, [], chainSize (R f)⟩ _
      ⟨h.toStored.caches _ _ _, ?_, ?_, ?_⟩ ⟨⟨_, _, _, rfl⟩, ?_⟩ mem_cons_self rfl (.inr rfl)
    · refine nodup_cons.mpr ⟨fun hm => ?_, h'.cacheIds⟩
      obtain ⟨c, hc, hid⟩ := mem_map.mp hm
      exact hnot c hc hid
    · intro c hc
      rcases mem_cons.mp hc with rfl | hc
      · exact hf
      · exact h'.cacheLive c hc
    · intro c hc
      rcases mem_cons.mp hc with rfl | hc
      · exact ⟨hz.symm, cached_empty _⟩
      · exact h'.cached c hc
    · rw [← ht']
      simp only [St.cacheBlockTotal, cachedCount_cons, length_nil, zero_add]

end Inodes

end Larva.Nffs
