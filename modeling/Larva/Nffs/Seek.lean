import Larva.Nffs.Cache

/-!
# Seeking

`nffs_cache_seek` finds the block that holds an offset, and has three ways to
do so. Before the cached stretch it walks back from the stretch and caches
every block on the way. Inside the stretch it reads nothing. Past the stretch
it walks back from the end of the file and caches the one block it stops at,
next to the stretch if it follows it and instead of it otherwise. Each way has
its own invariant; what they leave is the same, and `Sought` says it once.
-/

namespace Larva.Nffs

open Larva.Crash List

section Seek

variable {s s' : St} {R : Nat → List Link} {z : Nat → Nat} {f off : Nat} {r : List CacheBlock}

/-- No cached length of the file is out of date. -/
def SnugAt (s : St) (R : Nat → List Link) (f : Nat) : Prop :=
  ∀ c ∈ s.cacheInodes, c.nciInodeEntry = f → Snug (R f) c.nciBlockList

variable (s R z f off) in
/-- What a seek to `off` leaves: the caches changed, and `r` is the cached
block that holds the offset with the cached blocks before it. Past the end of
the file it is the last block. -/
structure Sought (r : List CacheBlock) (s' : St) : Prop where
  wf : Wf s' R z
  recached : Recached s s'
  snug : SnugAt s R f → SnugAt s' R f
  found : ∃ c ∈ s'.cacheInodes, c.nciInodeEntry = f ∧
    ∃ A₀ S₀ y S B cb l, R f = A₀ ++ S₀ ++ y :: (S ++ B) ∧
      Cached A₀ (S₀ ++ y :: S) B c.nciBlockList ∧
      c.nciBlockList = l ++ r ∧ r = cb :: seg S B ∧ Fresh (A₀ ++ S₀) y (S ++ B) cb ∧
      chainSize (S ++ B) ≤ off ∧ (off < chainSize (S ++ B) + cb.nbDataLen ∨
        A₀ ++ S₀ = [] ∧ cb.nbDataLen = Link.len y)

theorem Sought.trans {s'' : St} (hs : Recached s s') (hsnug : SnugAt s R f → SnugAt s' R f)
    (h : Sought s' R z f off r s'') : Sought s R z f off r s'' :=
  ⟨h.wf, hs.trans h.recached, fun hn => h.snug (hsnug hn), h.found⟩

variable {A S T : List Link} {y : Link} {c : CacheInode}

section

variable (h : Stored s R) (hlive : s.HasFile f) (hR : R f = A ++ y :: T)
include h hlive hR

theorem Stored.len_pos :
    0 < Link.len y :=
  (h.chained.at hlive hR).2.2.2.2.1

theorem Stored.sub32_len : sub32 (chainSize (y :: T)) (Link.len y) = chainSize T := by
  have hlt := h.chainSize_lt hlive
  rw [hR, chainSize_append] at hlt
  rw [sub32_eq _ (by omega)]
  · simp only [chainSize]
    omega
  · simp only [chainSize]
    omega

theorem Stored.fresh_end {cb : CacheBlock} (hcb : Fresh A y T cb) :
    u32 (cb.ncbFileOffset + cb.nbDataLen) = chainSize T + cb.nbDataLen := by
  have hlt := h.chainSize_lt hlive
  have hsz := chainSize_split hR
  have hle := hcb.le
  rw [hcb.off, u32_eq (by omega)]

end

/-- The file's cached inode shows the stretch `S` with `T` before it. -/
structure Holds (s : St) (R : Nat → List Link) (f : Nat) (A S T : List Link)
    (c : CacheInode) : Prop where
  mem : c ∈ s.cacheInodes
  id : c.nciInodeEntry = f
  split : R f = A ++ S ++ T
  blocks : Cached A S T c.nciBlockList

theorem Holds.file (hc : Holds s R f A S T c) (h : Wf s R z) : s.HasFile f := h.file hc.mem hc.id

theorem Holds.split_at {S0 B : List Link} (hc : Holds s R f A (S0 ++ y :: S) B c) :
    R f = A ++ S0 ++ y :: (S ++ B) := by
  rw [hc.split]
  simp

variable {B : List Link} {Q : Post St FsErr (List CacheBlock)}

theorem Wf.snugAt (h : Wf s R z) (hc : Holds s R f A S B c)
    (hl : c.nciBlockList = seg S B) : SnugAt s R f := by
  intro d hd hid
  have he := h.eq_of_id hc.mem hd (hid.trans hc.id.symm)
  have hlive := hc.file h
  rw [he, hl]
  refine (h.isChain hlive).snug_seg fun x hx => ?_
  rw [hc.split]
  simp [hx]

/-- The block before the cached stretch joins it. All of the stretch may have
been given up for it. -/
theorem wp_nffsCacheSeekPrepend (h : Wf s R z) (ht : 0 < s.cacheBlockTotal)
    (hc : Holds s R f A S (y :: T) c) (hok : ∀ A' S' c' s' l, Wf s' R z → Recached s s' →
      (SnugAt s R f → SnugAt s' R f) → Holds s' R f A' (S' ++ [y]) T c' →
      c'.nciBlockList = l ++ [cacheBlock y T] → Q.ok [cacheBlock y T] s') :
    Wp (nffsCacheSeekPrepend f (ptr (y :: T)) (chainSize (y :: T))) Q s := by
  obtain ⟨hc, rfl, hR, hS⟩ := hc
  have hlive := h.file hc rfl
  refine .bind (wp_nffsCacheBlockAcquire h ht ?_)
  intro L p h1 ht1 hkept
  obtain ⟨c1, hc1, hid1, -, hblocks⟩ := hkept c hc
  rw [← hid1] at hR hlive ⊢
  have hS1 : ∃ A1 S1, R c1.nciInodeEntry = A1 ++ S1 ++ y :: T ∧
      Cached A1 S1 (y :: T) c1.nciBlockList := by
    rcases hblocks with he | he
    · exact ⟨A, S, hR, he ▸ hS⟩
    · exact ⟨A ++ S, [], by simpa using hR, by rw [he]; trivial⟩
  obtain ⟨A1, S1, hR1, hCache⟩ := hS1
  refine .bind (wp_nffsBlockFromHashEntry h1.chained hlive hR1 ?_)
  have hcb : Block.toCache ⟨y.1, y.2.ndbSeq, c1.nciInodeEntry, ptr T,
      Link.len y⟩ (sub32 (chainSize (y :: T)) (Link.len y)) = cacheBlock y T := by
    rw [h.sub32_len hlive hR1]
    rfl
  simp only [hcb]
  refine .bind (wp_cacheInode h1.cacheIds hc1 rfl ?_)
  refine .bind (.modify (.pure ?_))
  have hR2 : R c1.nciInodeEntry = A1 ++ (S1 ++ [y]) ++ T := by
    rw [hR1]
    simp
  have hnew := hCache.prepend (h.len_pos hlive hR1)
  have h2 := h1.withBlocks p ⟨A1, S1 ++ [y], T, hR2, hnew⟩
  have hc2 : setBlockList (c1.nciBlockList ++ [cacheBlock y T]) c1 ∈
      withBlocks c1.nciInodeEntry _ L :=
    mem_withBlocks hc1 rfl
  refine hok A1 S1 _ _ c1.nciBlockList h2 ⟨⟨_, _, _, rfl⟩, ?_⟩ ?_ ⟨hc2, hid1, hid1 ▸ hR2, hnew⟩ rfl
  · exact cacheBlockTotal_withBlocks h1.cacheIds hc1 (by simp) ht1
  intro hsnug c' hc' hid' cb hcb
  have he := h2.eq_of_id hc2 hc' (hid'.trans hid1.symm)
  subst he
  rcases mem_append.mp hcb with hcb | hcb
  · rcases hblocks with he | he
    · rw [he] at hcb
      exact hsnug c hc rfl cb hcb
    · rw [he] at hcb
      cases hcb
  · rw [← hid1]
    refine (h2.isChain hlive).snug_seg (S := [y]) ?_ cb hcb
    rw [hR1]
    simp

/-- Before the cached stretch: the blocks between it and the one that is
sought are cached on the way. -/
theorem wp_nffsCacheSeekLoop_before {cacheStart : Nat} :
    ∀ {s : St} {c : CacheInode} {A S : List Link} {fuel : Nat}
      {Q : Post St FsErr (List CacheBlock)}, Wf s R z →
      0 < s.cacheBlockTotal → Holds s R f A S T c →
      off < chainSize T → chainSize T ≤ cacheStart → T.length < fuel →
      (∀ r s', Sought s R z f off r s' → Q.ok r s') →
      Wp (nffsCacheSeekLoop f off cacheStart fuel [] (ptr T) (chainSize T)) Q s := by
  induction T with
  | nil =>
    intro s c A S fuel Q _ _ _ hoff
    exact absurd hoff (Nat.not_lt_zero off)
  | cons y T ih =>
    intro s c A S fuel Q h ht hc hoff hcs hfuel hok
    obtain _ | n := fuel
    · omega
    unfold nffsCacheSeekLoop
    rw [if_pos hcs]
    refine .bind (.assert rfl ?_)
    refine .bind (wp_nffsCacheSeekPrepend h ht hc ?_)
    intro A' S' c' s' l h' hs hsnug hc' hl
    have ht' := hs.total
    simp only [chainSize] at hcs hoff
    simp only [length_cons] at hfuel
    show Wp (if chainSize T ≤ off then _ else _) Q s'
    by_cases hle : chainSize T ≤ off
    · rw [if_pos hle]
      have hlive := hc'.file h'
      have hR : R f = A' ++ S' ++ y :: T := by simpa using hc'.split
      refine .pure (hok _ _ ⟨h', hs, hsnug, c', hc'.mem, hc'.id, A', S', y,
        [], T, cacheBlock y T, l, hR, hc'.blocks, hl, rfl,
        fresh_cacheBlock (h'.len_pos hlive hR), hle, .inl ?_⟩)
      exact hoff
    · rw [if_neg hle]
      refine ih h' (by omega) hc' (by omega) (by omega) (by omega) ?_
      intro r s'' hsought
      exact hok r s'' (hsought.trans hs hsnug)

/-- Inside the cached stretch: nothing is read. -/
theorem wp_nffsCacheSeekLoop_within (h : Wf s R z)
    (hok : ∀ r s', Sought s R z f off r s' → Q.ok r s') :
    ∀ {fuel : Nat} {S0 S : List Link} {y : Link} {cb : CacheBlock} {e : Option Nat}
      {blockEnd : Nat} {l : List CacheBlock},
      Holds s R f A (S0 ++ y :: S) B c → c.nciBlockList = l ++ cb :: seg S B →
      Fresh (A ++ S0) y (S ++ B) cb → chainSize B < blockEnd →
      chainSize B ≤ off → off < cb.ncbFileOffset + cb.nbDataLen → S.length < fuel →
      Wp (nffsCacheSeekLoop f off (chainSize B) fuel (cb :: seg S B) e blockEnd) Q s := by
  intro fuel
  induction fuel with
  | zero => exact fun _ _ _ _ _ _ hfuel => absurd hfuel (Nat.not_lt_zero _)
  | succ n ih =>
    intro S0 S y cb e blockEnd l hc hl hcb hend hstart hoff hfuel
    unfold nffsCacheSeekLoop
    rw [if_neg (by omega)]
    refine .bind (.pure ?_)
    have hR := hc.split_at
    by_cases hle : cb.ncbFileOffset ≤ off
    · simp only [hle, if_true]
      rw [hcb.off] at hoff hle
      exact .pure (hok _ _ ⟨h, .refl s, id, c, hc.mem, hc.id, A, S0, y,
        S, B, cb, l, hR, hc.blocks, hl, rfl, hcb, hle, .inl hoff⟩)
    simp only [hle, if_false]
    rw [hcb.off] at hle ⊢
    cases S with
    | nil => exact absurd hstart hle
    | cons x S =>
      have hpos : 0 < Link.len x :=
        h.len_pos (A := A ++ S0 ++ [y]) (hc.file h) (by simpa using hR)
      simp only [cons_append, chainSize, length_cons] at hle hfuel ⊢
      have hc' : Holds s R f A (S0 ++ [y] ++ x :: S) B c := by
        refine ⟨hc.mem, hc.id, ?_, ?_⟩
        · rw [hc.split]
          simp
        · simpa using hc.blocks
      have hl' : c.nciBlockList = (l ++ [cb]) ++ cacheBlock x (S ++ B) :: seg S B := by
        rw [hl]
        simp [seg]
      refine ih hc' hl' (fresh_cacheBlock hpos) ?_ hstart ?_ (by omega)
      · omega
      · show off < chainSize (S ++ B) + Link.len x
        omega

section

variable (h : Wf s R z)
  (ht : 0 < s.cacheBlockTotal) (hc : c ∈ s.cacheInodes) (hid : c.nciInodeEntry = f)
include h ht hc hid

/-- A block that follows the cached stretch joins it; any other takes its
place. -/
theorem wp_nffsCacheSeekAppend (hR : R f = A ++ y :: T)
    (hok : ∀ S B c' s', Wf s' R z → Recached s s' → T = S ++ B →
      Holds s' R f A (y :: S) B c' → c'.nciBlockList = seg (y :: S) B →
      Q.ok (cacheBlock y T :: seg S B) s') : Wp (nffsCacheSeekAppend f (cacheBlock y T)) Q s := by
  subst hid
  have hlive := h.file hc rfl
  have hpos := h.len_pos hlive hR
  have hchain := h.isChain hlive
  refine .bind (wp_nffsCacheBlockAcquire h ht ?_)
  intro L p h1 ht1 hkept
  obtain ⟨c1, hc1, hid1, -, -⟩ := hkept c hc
  rw [← hid1] at hR hlive hchain ⊢
  refine .bind (wp_cacheInode h1.cacheIds hc1 rfl ?_)
  -- The block alone, with no cached block left beside it.
  have halone : ∃ A' S' B', R c1.nciInodeEntry = A' ++ S' ++ B' ∧
      Cached A' S' B' [cacheBlock y T] :=
    ⟨A, [y], T, by simpa using hR, fresh_cacheBlock hpos, rfl⟩
  have hsplit : R c1.nciInodeEntry = A ++ [y] ++ T := by simpa using hR
  obtain ⟨A1, S1, B1, hR1, hCache⟩ := (h1.cached c1 hc1).blocks
  cases hl : c1.nciBlockList with
  | nil =>
    simp only [hl]
    refine .bind (.modify (.pure ?_))
    refine hok [] T _ _ (h1.withBlocks p halone) ⟨⟨_, _, _, rfl⟩, ?_⟩ rfl
      ⟨mem_withBlocks hc1 rfl, hid1, hid1 ▸ hsplit, fresh_cacheBlock hpos, rfl⟩ rfl
    exact cacheBlockTotal_withBlocks h1.cacheIds hc1 (by simp [hl]) ht1
  | cons last rest =>
    rw [hl] at hCache
    simp only [hl]
    match S1, hCache with
    | x :: S2, ⟨hf, hrest⟩ =>
      subst hrest
      by_cases hprev : some last.nbHashEntry = ptr T
      · show Wp (if some last.nbHashEntry = ptr T then _ else _) Q _
        rw [if_pos hprev]
        obtain ⟨w, T', rfl⟩ : ∃ w T', T = w :: T' := by
          cases T with
          | nil => cases hprev
          | cons w T' => exact ⟨w, T', rfl⟩
        rw [hf.entry] at hprev
        have hxw : x.1 = w.1 := Option.some.inj hprev
        have he : A1 ++ x :: (S2 ++ B1) = (A ++ [y]) ++ w :: T' := by
          rw [hR, append_assoc] at hR1
          simpa using hR1.symm
        rw [hR1, append_assoc] at hchain
        obtain ⟨rfl, rfl, rfl⟩ := hchain.split_unique he hxw
        -- The last cached block is not the last of the file.
        obtain rfl := hf.eq_cacheBlock (hf.eq (by simp))
        have hnew : Cached A (y :: x :: S2) B1
            (cacheBlock y _ :: seg (x :: S2) B1) :=
          ⟨fresh_cacheBlock hpos, rfl⟩
        have hR2 : R c1.nciInodeEntry = A ++ y :: x :: S2 ++ B1 := by
          simpa using hR
        refine .bind (.modify (.pure ?_))
        refine hok (x :: S2) B1 _ _ (h1.withBlocks p ⟨A, y :: x :: S2, B1, hR2, hnew⟩)
          ⟨⟨_, _, _, rfl⟩, ?_⟩ rfl ⟨mem_withBlocks hc1 rfl, hid1, hid1 ▸ hR2, hnew⟩ rfl
        exact cacheBlockTotal_withBlocks h1.cacheIds hc1 (by simp [hl]) ht1
      · show Wp (if some last.nbHashEntry = ptr T then _ else _) Q _
        rw [if_neg hprev]
        refine .bind (wp_nffsCacheInodeFreeBlocks h1 hc1 ?_)
        refine .bind (.modify (.pure ?_))
        have h2 := h1.withBlocks (f := c1.nciInodeEntry)
          (p + c1.nciBlockList.length) (cached_empty _)
        have hc2 : setBlockList [] c1 ∈ withBlocks c1.nciInodeEntry [] L := mem_withBlocks hc1 rfl
        refine hok [] T _ _ (h2.withBlocks _ halone)
          ⟨⟨_, _, _, rfl⟩, ?_⟩ rfl ⟨mem_withBlocks hc2 rfl, hid1, hid1 ▸ hsplit,
            fresh_cacheBlock hpos, rfl⟩ rfl
        have hcnt := cachedCount_withBlocks (l := []) h1.cacheIds hc1 rfl
        refine cacheBlockTotal_withBlocks (c := setBlockList [] c1) h2.cacheIds hc2 rfl ?_
        simp only [length_nil, St.recache] at hcnt ⊢
        omega

/-- Past the cached stretch: the walk starts at the end of the file and caches
only the block it finds. -/
theorem wp_nffsCacheSeekLoop_beyond {cacheStart : Nat} (hcs : cacheStart ≤ off)
    (hok : ∀ r s', Sought s R z f off r s' → Q.ok r s') :
    ∀ {A : List Link} {fuel : Nat}, R f = A ++ T → T ≠ [] →
      cacheStart < chainSize T → off < chainSize T ∨ A = [] → T.length < fuel →
      Wp (nffsCacheSeekLoop f off cacheStart fuel [] (ptr T) (chainSize T)) Q s := by
  have hlive := h.file hc hid
  induction T with
  | nil =>
    intro A fuel _ hne
    exact absurd rfl hne
  | cons y T ih =>
    intro A fuel hR _ hend hoff hfuel
    obtain _ | n := fuel
    · omega
    have hsub := h.sub32_len hlive hR
    have hpos := h.len_pos hlive hR
    unfold nffsCacheSeekLoop
    rw [if_neg (by omega)]
    refine .bind (.pure ?_)
    refine .bind (wp_nffsBlockFromHashEntry h.chained hlive hR ?_)
    simp only [hsub]
    simp only [length_cons] at hfuel
    by_cases hle : chainSize T ≤ off
    · rw [if_pos hle]
      refine wp_nffsCacheSeekAppend h ht hc hid hR ?_
      rintro S B c' s' h' hs rfl hc' hl
      refine hok _ _ ⟨h', hs, fun _ => h'.snugAt hc' hl, c', hc'.mem, hc'.id, A, [], y,
        S, B, cacheBlock y (S ++ B), [], by simpa using hR, hc'.blocks, hl,
        rfl, fresh_cacheBlock hpos, hle, ?_⟩
      rcases hoff with hoff | rfl
      · exact .inl hoff
      · exact .inr ⟨rfl, rfl⟩
    · rw [if_neg hle]
      have hT : T ≠ [] := by
        rintro rfl
        exact hle (Nat.zero_le off)
      exact ih (A := A ++ [y]) (by simpa using hR) hT (by omega) (.inl (by omega)) (by omega)

end

/-- Where a cached stretch begins and ends. -/
theorem Holds.range {x : Link} (hc : Holds s R f A (x :: S) B c) (h : Wf s R z) :
    ∃ cb, c.nciBlockList = cb :: seg S B ∧ Fresh A x (S ++ B) cb ∧
      c.range = (chainSize B, chainSize (S ++ B) + cb.nbDataLen) := by
  have hb := hc.blocks
  cases hl : c.nciBlockList with
  | nil =>
    rw [hl] at hb
    exact hb.elim
  | cons cb l =>
    obtain ⟨first, hfirst, -, hoff⟩ := hb.getLast? (by simp [hl])
    rw [hl] at hb hfirst
    obtain ⟨hf, rfl⟩ := hb
    have hend := h.fresh_end (hc.file h) (hc.split.trans (append_assoc ..)) hf
    exact ⟨cb, rfl, hf, by simp [CacheInode.range, hl, hfirst, hoff, hend]⟩

/-- A cached stretch begins before it ends, and ends with the file at the
latest. -/
theorem Wf.range_bounds (h : Wf s R z) (hc : c ∈ s.cacheInodes)
    (hl : c.nciBlockList ≠ []) : c.range.1 < c.range.2 ∧
      c.range.2 ≤ chainSize (R c.nciInodeEntry) := by
  obtain ⟨A, S, B, hR, hS⟩ := (h.cached c hc).blocks
  cases S with
  | nil => exact absurd (length_eq_zero_iff.mp hS.length) hl
  | cons x S =>
    obtain ⟨cb, -, hf, hrange⟩ := Holds.range ⟨hc, rfl, hR, hS⟩ h
    have hle := hf.le
    have hpos := hf.pos
    rw [hrange, hR]
    simp only [chainSize_append, chainSize]
    omega

/-- A seek in a file that is not empty. The recorded size is looked at only
for a seek that does not go before the cached stretch. -/
theorem wp_nffsCacheSeek (h : Wf s R z) (ht : 0 < s.cacheBlockTotal)
    (hc : c ∈ s.cacheInodes) (hid : c.nciInodeEntry = f) (hz0 : z f ≠ 0)
    (hz : z f = chainSize (R f) ∨ off < c.range.1)
    (hok : ∀ r s', Sought s R z f off r s' → Q.ok r s') : Wp (nffsCacheSeek f off) Q s := by
  subst hid
  have hlive := h.file hc rfl
  have hchain := h.isChain hlive
  have hfuel := hchain.length_le h.minId
  have hlt := h.chainSize_lt hlive
  have hsz := (h.cached c hc).size
  refine .bind (wp_cacheInode h.cacheIds hc rfl ?_)
  have hnz : ¬ c.nciFileSize = 0 := by omega
  simp only [hnz, if_false]
  refine .bind (.get ?_)
  -- The seek from the end of the file, for whatever is cached.
  have hbeyond : ∀ cacheStart, z c.nciInodeEntry =
      chainSize (R c.nciInodeEntry) → cacheStart ≤ off →
      cacheStart < chainSize (R c.nciInodeEntry) → Wp (do
        let e ← inodeEntry c.nciInodeEntry
        nffsCacheSeekLoop c.nciInodeEntry off cacheStart (s.numBlockIds + 1) []
          e.nieLastBlockEntry c.nciFileSize) Q s := by
    intro cacheStart hz hle hcs
    have hne : R c.nciInodeEntry ≠ [] := by
      intro he
      rw [he] at hcs
      exact absurd hcs (Nat.not_lt_zero _)
    obtain ⟨e, he⟩ := Option.isSome_iff_exists.mp hlive.1
    have hlast := h.last _ e he hlive.2
    refine .bind (.bind (.get ?_))
    simp only [he]
    refine .pure ?_
    simp only [hlast, hsz, hz]
    refine wp_nffsCacheSeekLoop_beyond h ht hc rfl hle hok rfl hne hcs (.inr rfl) ?_
    unfold St.numBlockIds
    omega
  obtain ⟨A, S, B, hR, hS⟩ := (h.cached c hc).blocks
  have hlen : (A ++ S ++ B).length ≤ s.numBlockIds := hR ▸ hfuel
  rw [length_append, length_append] at hlen
  cases S with
  | nil =>
    have hl := length_eq_zero_iff.mp hS.length
    have hrange : c.range = (0, 0) := by simp [CacheInode.range, hl]
    rw [hrange] at hz
    have hz := hz.resolve_right (Nat.not_lt_zero off)
    simp only [hrange, ne_eq, not_true_eq_false, false_and, if_false, Nat.not_lt_zero]
    exact hbeyond 0 hz (Nat.zero_le off) (by omega)
  | cons x S' =>
    have hholds : Holds s R c.nciInodeEntry A ([] ++ x :: S') B c := ⟨hc, rfl, hR, hS⟩
    obtain ⟨cb, hl, hf, hrange⟩ := hholds.range h
    obtain ⟨first, hfirst, hprev, hfoff⟩ := hS.getLast? (by simp [hl])
    have hcpos := hf.pos
    have hne0 : chainSize (S' ++ B) + cb.nbDataLen ≠ 0 := by omega
    rw [hl] at hfirst
    rw [hrange] at hz
    simp only [hrange, hne0, ne_eq, not_false_eq_true, true_and, hl, hfirst]
    by_cases h1 : off < chainSize B
    · simp only [h1, if_true, hprev, hfoff]
      exact wp_nffsCacheSeekLoop_before h ht hholds h1 (le_refl _) (by omega) hok
    simp only [h1, if_false]
    rw [chainSize_append] at *
    by_cases h2 : off < chainSize S' + chainSize B + cb.nbDataLen
    · simp only [h2, if_true]
      refine wp_nffsCacheSeekLoop_within (l := []) h hok hholds hl
        (by simpa using hf) (by omega) (by omega) ?_ ?_
      · rw [hf.off, chainSize_append]
        exact h2
      · simp only [length_cons] at hlen
        omega
    · simp only [h2, if_false]
      refine hbeyond _ (hz.resolve_right h1) (by omega) ?_
      rw [hR]
      simp only [chainSize_append, chainSize]
      have := hf.le
      omega

/-- A seek to the last byte of the file leaves no cached length behind: the
block is in the cached stretch as it is, or it is read anew. -/
theorem Sought.snug_end (h : Sought s R z f off r s') (hoff : off + 1 = chainSize (R f)) :
    SnugAt s' R f := by
  intro d hd hid
  obtain ⟨c, hc, hcid, A0, S0, y, S, B, cb, l, hR, hcached, hl, rfl, hf, hle, hend⟩ := h.found
  obtain rfl := h.wf.eq_of_id hc hd (hid.trans hcid.symm)
  have hlive := h.wf.file hd hid
  have hchain := h.wf.isChain hlive
  have hcb := hf.le
  have hsz := chainSize_split hR
  have hlen : A0 ++ S0 = [] ∧ cb.nbDataLen = Link.len y := by
    rcases hend with hend | hend
    · rw [hR] at hchain
      exact ⟨hchain.eq_nil_of_size (by omega), by omega⟩
    · exact hend
  obtain ⟨hnil, hlen⟩ := hlen
  obtain ⟨rfl, rfl⟩ := append_eq_nil_iff.mp hnil
  have hcbeq := hf.eq_cacheBlock hlen
  have hblocks : d.nciBlockList = seg (y :: S) B := by
    have hlength := hcached.length
    rw [hl] at hlength
    simp only [length_append, length_cons, seg_length, nil_append] at hlength
    have hlnil : l = [] := length_eq_zero_iff.mp (by omega)
    rw [hl, hlnil, hcbeq]
    rfl
  exact h.wf.snugAt ⟨hc, hcid, by simpa using hR, hcached⟩ hblocks d hd hid

end Seek

end Larva.Nffs
