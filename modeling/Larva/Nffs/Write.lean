import Mathlib.Logic.Function.Basic
import Larva.Nffs.Read
import Larva.Nffs.Space

/-!
# Writing to a file

A chunk that starts at the end of a file becomes a new block. Any other chunk
goes into blocks that exist, from the last one it touches to the first, and a
chunk that ends past the end of the file makes the last block longer. Between
two rounds the file holds the old bytes up to `dstOff`, the new data behind
that, and the old bytes again behind the chunk.

The loop never reads the recorded size after its first seek: every later seek
goes before the cached stretch. So it does not matter that the size is set
only when the loop is done.

What an overwrite leaves behind is the cached length of the last block. The
next append must not find it out of date, or the block it adds would be cached
at a place that does not follow the cached block before it.
-/

namespace Larva.Nffs

open Larva.Crash Function List

/-! ## Another block in the place of one -/

section Replace

variable {y y' : Link}

theorem ptr_replace (he : y'.1 = y.1) (A T : List Link) :
    ptr (A ++ y' :: T) = ptr (A ++ y :: T) := by
  cases A with
  | nil => exact congrArg some he
  | cons x A => rfl

theorem seg_replace (he : y'.1 = y.1) (hlen : Link.len y' = Link.len y) (S0 S B : List Link) :
    seg (S0 ++ y' :: S) B = seg (S0 ++ y :: S) B := by
  induction S0 with
  | nil => simp [seg, cacheBlock, he, hlen]
  | cons x S0 ih =>
    have hp := ptr_replace he S0 (S ++ B)
    simp only [cons_append, seg, ih, cacheBlock, append_assoc, hp,
      chainSize_append, chainSize, hlen]

/-- A cached length may stay behind when the last block of a file grows. -/
theorem Cached.replace {A0 S0 S B : List Link} {l : List CacheBlock}
    (he : y'.1 = y.1) (hlen : Link.len y' = Link.len y ∨ A0 ++ S0 = [] ∧ Link.len y ≤ Link.len y')
    (h : Cached A0 (S0 ++ y :: S) B l) : Cached A0 (S0 ++ y' :: S) B l := by
  match S0, l, h with
  | [], cb :: l', ⟨hf, hl'⟩ =>
    refine ⟨⟨hf.entry.trans he.symm, hf.prev, hf.off, hf.pos, ?_, ?_⟩, hl'⟩
    · have := hf.le
      omega
    · intro hA
      rcases hlen with hlen | ⟨hnil, -⟩
      · rw [hlen]
        exact hf.eq hA
      · exact absurd (by simpa using hnil) hA
  | x :: S0, cb :: l', ⟨hf, hl'⟩ =>
    have hlen : Link.len y' = Link.len y := by
      rcases hlen with hlen | ⟨hnil, -⟩
      · exact hlen
      · simp at hnil
    have hp := ptr_replace he S0 (S ++ B)
    refine ⟨{ hf with prev := ?_, off := ?_ }, ?_⟩
    · simpa [hp] using hf.prev
    · simpa [chainSize, hlen] using hf.off
    · exact hl'.trans (seg_replace he hlen S0 S B).symm

variable {blocks : Nat → Option DiskBlock} {f b : Nat} {T : List Link}

theorem IsChain.replace {A : List Link} (he : y'.1 = y.1) (hin : y'.2.ndbInodeId = f)
    (hprev : y'.2.ndbPrevId = ptrId T) (hpos : 0 < Link.len y') (hmax : Link.len y' ≤ maxBlockLen)
    (h : IsChain blocks f b (A ++ y :: T)) :
    IsChain (fun k => if k = y.1 then some y'.2 else blocks k) f b (A ++ y' :: T) := by
  induction A generalizing b with
  | nil =>
    obtain ⟨h1, h2, -, -, -, -, -, hr⟩ := h
    refine ⟨he ▸ h1, he ▸ h2, if_pos he, hin, hpos, hmax, hprev, ?_⟩
    rw [he]
    refine hr.congr fun x hx => if_neg ?_
    have := hr.lt_of_mem hx
    omega
  | cons x A ih =>
    obtain ⟨h1, h2, h3, h4, h5, h6, h7, hr⟩ := h
    have hlt := hr.lt_of_mem (x := y) (by simp)
    refine ⟨h1, h2, (if_neg (by omega)).trans h3, h4, h5, h6, ?_, ih hr⟩
    rw [h7]
    exact congrArg (Option.getD · idNone) (ptr_replace he A T).symm

/-- The chains of other files do not contain the block. -/
theorem IsChain.frame {g : Nat} {R : List Link} {d : DiskBlock} {k : Nat} {d' : Option DiskBlock}
    (h : IsChain blocks g b R) (hk : blocks k = some d) (hne : d.ndbInodeId ≠ g) :
    IsChain (fun i => if i = k then d' else blocks i) g b R := by
  refine h.congr fun x hx => if_neg fun hxk => hne ?_
  obtain ⟨A, B, rfl⟩ := append_of_mem hx
  obtain ⟨-, -, hb, hin, -⟩ := h.at
  rw [hxk, hk] at hb
  rw [Option.some.inj hb]
  exact hin

end Replace

/-! ## Writing over a block -/

section Overwrite

variable {s : St} {R : Nat → List Link} {z : Nat → Nat} {f i left n : Nat} {A T : List Link}
  {y y' : Link} {a : Area} {d : List UInt8}

/-- A state in which a block was written anew, to area `i`. -/
def St.overwrite (s : St) (i : Nat) (a : Area) (y' : Link) : St :=
  { s with
    blocks := fun k => if k = y'.1 then some y'.2 else s.blocks k
    areas := advance s.areas i a (sizeofDiskBlock + Link.len y') }

/-- A block that may take the place of `y`, with `A` behind it and `T` before
it. -/
structure Supersedes (f : Nat) (A : List Link) (y : Link) (T : List Link) (y' : Link) : Prop where
  entry : y'.1 = y.1
  inode : y'.2.ndbInodeId = f
  prev : y'.2.ndbPrevId = ptrId T
  pos : 0 < Link.len y'
  max : Link.len y' ≤ maxBlockLen
  len : Link.len y' = Link.len y ∨ A = [] ∧ Link.len y ≤ Link.len y'

theorem Supersedes.tail (h : Supersedes f A y T y') :
    chainSize (A ++ y' :: T).tail = chainSize (A ++ y :: T).tail := by
  cases A with
  | nil => rfl
  | cons w A =>
    have hlen := h.len.resolve_right fun hA => by simp at hA
    simp [chainSize, hlen]

theorem Stored.overwrite (h : Stored s R) (hf : s.HasFile f) (hR : R f = A ++ y :: T)
    (hy : Supersedes f A y T y') (ha : s.areas[i]? = some a)
    (hroom : a.naCur + (sizeofDiskBlock + Link.len y') ≤ a.naLength) :
    Stored (s.overwrite i a y') (update R f (A ++ y' :: T)) := by
  have hchain := h.isChain hf
  rw [hR] at hchain
  obtain ⟨-, -, hyb, hyin, -⟩ := hchain.at
  have hused : (s.overwrite i a y').flashUsed =
      s.flashUsed + (sizeofDiskBlock + Link.len y') := sum_advance _ ha
  refine ⟨areas_advance h.areas ha hroom, ?_, h.minId, ?_, h.maxSz, h.noGc, ?_, ?_, ?_, h.handles⟩
  · show (advance _ _ _ _).length ≤ 255
    rw [advance, length_set]
    exact h.numAreas
  · have := h.ids
    show sizeofDiskBlock * s.numBlockIds ≤ _
    omega
  · intro g e he hg
    by_cases hgf : g = f
    · subst hgf
      rw [update_self, h.last g e he hg, hR, ptr_replace hy.entry]
    · rw [update_of_ne hgf]
      exact h.last g e he hg
  · intro g hg hgfile
    by_cases hgf : g = f
    · subst hgf
      rw [update_self]
      have := hchain.replace hy.entry hy.inode hy.prev hy.pos hy.max
      rwa [← hy.entry] at this
    · rw [update_of_ne hgf]
      exact (h.chain g hg hgfile).frame (hy.entry ▸ hyb) (fun he => hgf (he.symm.trans hyin))
  · intro g hg hgfile
    have := h.used g hg hgfile
    by_cases hgf : g = f
    · subst hgf
      rw [update_self]
      rw [hR] at this
      simp only [chainSize_append, chainSize] at this ⊢
      omega
    · rw [update_of_ne hgf]
      omega

/-- The stretch that is cached of the file may contain the block. -/
theorem Wf.overwrite {A0 S0 S B : List Link} {c : CacheInode} (h : Wf s R z)
    (hc : Holds s R f A0 (S0 ++ y :: S) B c) (hy : Supersedes f (A0 ++ S0) y (S ++ B) y')
    (ha : s.areas[i]? = some a) (hroom : a.naCur + (sizeofDiskBlock + Link.len y') ≤ a.naLength) :
    Wf (s.overwrite i a y') (update R f (A0 ++ S0 ++ y' :: (S ++ B))) z ∧ Holds (s.overwrite i a y')
        (update R f (A0 ++ S0 ++ y' :: (S ++ B))) f A0 (S0 ++ y' :: S) B c := by
  have hlive := hc.file h
  have hR := hc.split_at
  have hholds : Holds (s.overwrite i a y')
      (update R f (A0 ++ S0 ++ y' :: (S ++ B))) f A0 (S0 ++ y' :: S) B c := by
    refine ⟨hc.mem, hc.id, ?_, hc.blocks.replace hy.entry hy.len⟩
    simp
  refine ⟨⟨h.toStored.overwrite hlive hR hy ha hroom, h.cacheIds, h.cacheLive, ?_⟩, hholds⟩
  intro d hd
  by_cases hdf : d.nciInodeEntry = f
  · obtain rfl := h.eq_of_id hc.mem hd (hdf.trans hc.id.symm)
    rw [hdf]
    refine ⟨hdf ▸ (h.cached d hd).size, A0, S0 ++ y' :: S, B, hholds.split, hholds.blocks⟩
  · rw [update_of_ne hdf]
    exact h.cached d hd

/-- The block that `nffs_write_over_block` writes. -/
def newBlock (f : Nat) (y : Link) (T : List Link) (left : Nat)
    (d : List UInt8) (n : Nat) : Link :=
  (y.1, ⟨y.2.ndbSeq + 1, f, ptrId T, y.2.ndbData.take left ++ d.take n ++
    y.2.ndbData.drop (left + n)⟩)

theorem newBlock_len (hleft : left ≤ Link.len y) (hd : n ≤ d.length) :
    Link.len (newBlock f y T left d n) = left + n + (Link.len y - (left + n)) := by
  unfold Link.len at hleft
  simp only [newBlock, Link.len, length_append, length_take, length_drop]
  omega

/-- `nffs_write_over_block`: what was to the left and to the right of the new
data is copied. -/
theorem wp_nffsWriteOverBlock (h : Stored s R) (hlive : s.HasFile f) (hR : R f = A ++ y :: T)
    (hleft : left ≤ Link.len y) (hn : 0 < n) (hd : n ≤ d.length) (hmax : left + n ≤ maxBlockLen)
    (hlen : left + n ≤ Link.len y ∨ A = []) {Q : Post St FsErr Unit} (herr : ∀ s', Q.err .efull s')
    (hok : ∀ i a y', Supersedes f A y T y' → y'.2.ndbData = y.2.ndbData.take left ++ d.take n ++
        y.2.ndbData.drop (left + n) → s.areas[i]? = some a →
      a.naCur + (sizeofDiskBlock + Link.len y') ≤ a.naLength → Q.ok () (s.overwrite i a y')) :
    Wp (nffsWriteOverBlock y.1 left d n) Q s := by
  obtain ⟨-, -, -, -, hpos, hymax, -⟩ := h.chained.at hlive hR
  simp only [maxBlockLen] at hmax hymax
  refine .bind (wp_nffsBlockFromHashEntry h.chained hlive hR ?_)
  refine .bind (wp_blockEntry h.chained hlive hR ?_)
  refine .bind (.assert (by simpa using hleft) ?_)
  -- How much is kept behind the new data.
  have hright : (if left + n > Link.len y then 0 else Link.len y - left - n) =
      Link.len y - (left + n) := by
    split <;> omega
  simp only [hright]
  have hdlen : u16 (left + n + (Link.len y - (left + n))) =
      left + n + (Link.len y - (left + n)) := u16_eq (by omega)
  simp only [hdlen]
  refine .bind (.assert (by simpa using hd) ?_)
  refine .bind (.assert ?_ ?_)
  · rw [decide_eq_true_eq, u16_eq (by simp only [sizeofDiskBlock]; omega)]
    omega
  refine .bind (.get ?_)
  refine .bind (wp_nffsMiscReserveSpace h.areas h.noGc
    (by simp only [sizeofDiskBlock]; omega) herr ?_)
  intro i a ha hroom
  refine .bind (.get ?_)
  refine .bind (.assert (by simp) ?_)
  have hsum : sizeofDiskBlock + left + n + (Link.len y - (left + n)) =
      sizeofDiskBlock + (left + n + (Link.len y - (left + n))) := by omega
  rw [hsum]
  refine .bind (wp_nffsFlashWrite h.areas ha hroom ?_)
  refine .bind (wp_nffsFlashLoc h.areas ha hroom (by simp only [sizeofDiskBlock]; omega) ?_)
  have hnew := newBlock_len (f := f) (T := T) hleft hd
  have hdata : (y.2.ndbData.take left ++ d.take n ++
      (y.2.ndbData.drop (left + n)).take (Link.len y - (left + n))).take
        (left + n + (Link.len y - (left + n))) =
      y.2.ndbData.take left ++ d.take n ++ y.2.ndbData.drop (left + n) := by
    rw [take_of_length_le (l := y.2.ndbData.drop (left + n))
      (by rw [length_drop]; exact le_refl _), take_of_length_le]
    rw [← hnew]
    exact le_refl _
  have hok' := hok i a (newBlock f y T left d n) ⟨rfl, rfl, rfl, ?_, ?_, ?_⟩ rfl ha ?_
  · refine .modify ?_
    rw [hdata]
    unfold St.overwrite at hok'
    rw [hnew] at hok'
    exact hok'
  all_goals rw [hnew]
  · omega
  · simp only [maxBlockLen]
    omega
  · exact hlen.imp (fun hlen => by omega) fun hA => ⟨hA, by omega⟩
  · exact hroom

/-- The bytes of the file after a block was written over. -/
theorem chainBytes_overwrite {D : List UInt8}
    (hdata : y'.2.ndbData = y.2.ndbData.take left ++ D ++ y.2.ndbData.drop (left + n))
    (hleft : left ≤ Link.len y) (hlen : left + n ≤ Link.len y ∨ A = []) :
    chainBytes (A ++ y' :: T) = (chainBytes (A ++ y :: T)).take (chainSize T + left) ++ D ++
        (chainBytes (A ++ y :: T)).drop (chainSize T + left + n) := by
  have htake : (chainBytes T ++ y.2.ndbData ++ chainBytes A).take
      (chainSize T + left) = chainBytes T ++ y.2.ndbData.take left := by
    rw [append_assoc, ← chainBytes_length, take_length_add_append, take_append_of_le_length hleft]
  have hdrop : (chainBytes T ++ y.2.ndbData ++ chainBytes A).drop (chainSize T + left + n) =
        y.2.ndbData.drop (left + n) ++ chainBytes A := by
    rw [append_assoc, add_assoc, ← chainBytes_length, drop_length_add_append]
    rcases hlen with hlen | rfl
    · exact drop_append_of_le_length hlen
    · simp [chainBytes]
  simp only [chainBytes_append, chainBytes, hdata] at htake hdrop ⊢
  rw [htake, hdrop]
  simp

/-- One round: the part of the data that falls into the block, which may be
more than there is of it when it is the last one. -/
theorem wp_nffsWriteChunkRound {a e : Nat} {cb : CacheBlock} (h : Stored s R) (hlive : s.HasFile f)
    (hR : R f = A ++ y :: T) (hcb : Fresh A y T cb) (hlt : chainSize T < e) (hae : a < e)
    (hed : e ≤ a + d.length) (hd : d.length ≤ maxBlockLen) (hsize : a < chainSize (R f))
    (hmeet : e ≤ chainSize T + cb.nbDataLen ∨ A = [] ∧ cb.nbDataLen = Link.len y)
    (hmax : e - chainSize T ≤ maxBlockLen) {Q : Post St FsErr (Nat × Nat)}
    (herr : ∀ s', Q.err .efull s')
    (hok : ∀ i b y', Supersedes f A y T y' → chainBytes (A ++ y' :: T) =
        (chainBytes (R f)).take (max (chainSize T) a) ++
          (d.drop (max (chainSize T) a - a)).take (e - max (chainSize T) a) ++
          (chainBytes (R f)).drop e → s.areas[i]? = some b →
      b.naCur + (sizeofDiskBlock + Link.len y') ≤ b.naLength →
      Q.ok (max (chainSize T) a - a, e - max (chainSize T) a) (s.overwrite i b y')) :
    Wp (nffsWriteChunkRound a d e cb) Q s := by
  have hfit := h.chainSize_le hlive
  have hle := hcb.le
  obtain ⟨-, -, -, -, -, hymax, -⟩ := h.chained.at hlive hR
  simp only [maxBlockLen] at hymax hmax hd
  have hsz := chainSize_split hR
  have hA : e ≤ chainSize T + Link.len y ∨ A = [] :=
    hmeet.imp (fun hmeet => by omega) And.left
  have hstart : a - chainSize T ≤ Link.len y := by
    rcases hA with hA | rfl
    · omega
    · simp only [chainSize] at hsz
      omega
  have hoff : (if cb.ncbFileOffset < a then u16 (sub32 a cb.ncbFileOffset)
      else 0) = a - chainSize T := by
    rw [hcb.off]
    split
    · rw [sub32_eq (by omega) (by omega), u16_eq (by omega)]
    · omega
  have hend := h.fresh_end hlive hR hcb
  -- The sixteen bit arithmetic comes out right whatever the cached length is.
  have hchunk : (if chainSize T + cb.nbDataLen ≠ e then
      u16 (sub16 cb.nbDataLen (a - chainSize T) + sub32 e (chainSize T + cb.nbDataLen))
      else sub16 cb.nbDataLen (a - chainSize T)) = e - max (chainSize T) a := by
    unfold u16 sub16 sub32
    split <;> omega
  have hdata : sub32 (u32 (cb.ncbFileOffset + (a - chainSize T))) a = max (chainSize T) a - a := by
    rw [hcb.off, u32_eq (by omega), sub32_eq (by omega) (by omega)]
    omega
  have hlen : a - chainSize T + (e - max (chainSize T) a) ≤ Link.len y ∨ A = [] :=
    hA.imp_left fun hA => by omega
  unfold nffsWriteChunkRound
  simp only [hoff, hend, hchunk, hdata, hcb.entry]
  refine .bind (wp_nffsWriteOverBlock h hlive hR hstart (by omega)
    (by rw [length_drop]; omega) (by simp only [maxBlockLen]; omega) hlen herr ?_)
  intro i b y' hy' hbytes hb hroom
  refine .pure (hok i b y' hy' ?_ hb hroom)
  have hmaxeq : max (chainSize T) a = chainSize T + (a - chainSize T) := by
    omega
  have := chainBytes_overwrite (T := T) hbytes hstart hlen
  rw [← hR, ← hmaxeq, show max (chainSize T) a + (e - max (chainSize T) a) = e by omega] at this
  exact this

end Overwrite

/-! ## The loop over the blocks of a chunk -/

/-- What a write leaves alone. -/
structure Frame (s s' : St) : Prop where
  files : s'.files = s.files
  live : ∀ g, (s'.inodes g).isSome = (s.inodes g).isSome
  maxSz : s'.blockMaxDataSz = s.blockMaxDataSz
  total : s'.cacheBlockTotal = s.cacheBlockTotal

theorem Recached.frame {s s' : St} (h : Recached s s') : Frame s s' := by
  obtain ⟨⟨L, i, p, rfl⟩, ht⟩ := h
  exact ⟨rfl, fun _ => rfl, rfl, ht⟩

theorem Frame.file {s s' : St} {f : Nat} (h : Frame s s') (hf : s.HasFile f) : s'.HasFile f :=
  ⟨(h.live f).trans hf.1, hf.2⟩

theorem Frame.trans {s s' s'' : St} (h : Frame s s') (h' : Frame s' s'') :
    Frame s s'' :=
  ⟨h'.files.trans h.files, fun g => (h'.live g).trans (h.live g),
    h'.maxSz.trans h.maxSz, h'.total.trans h.total⟩

theorem Snug.replace {A T : List Link} {y y' : Link} {l : List CacheBlock}
    (he : y'.1 = y.1) (hlen : Link.len y' = Link.len y)
    (h : Snug (A ++ y :: T) l) : Snug (A ++ y' :: T) l := by
  intro cb hcb x hx hxe
  simp only [mem_append, mem_cons] at hx
  rcases hx with hx | rfl | hx
  · exact h cb hcb x (by simp [hx]) hxe
  · rw [hlen]
    exact h cb hcb y (by simp) (hxe.trans he)
  · exact h cb hcb x (by simp [hx]) hxe

/-- What the rounds have written so far, and what one more adds. -/
theorem splice_step {C d : List UInt8} {a e e' : Nat} (h1 : a ≤ e')
    (h2 : e' ≤ e) (h3 : e ≤ a + d.length) (h4 : e ≤ C.length ∨ e = a + d.length) :
    (C.take e ++ d.drop (e - a) ++ C.drop (a + d.length)).take e' ++
        (d.drop (e' - a)).take (e - e') ++
        (C.take e ++ d.drop (e - a) ++ C.drop (a + d.length)).drop e =
      C.take e' ++ d.drop (e' - a) ++ C.drop (a + d.length) := by
  rcases h4 with h4 | rfl
  · have hlen : (C.take e).length = e := length_take_of_le h4
    have htake : (C.take e ++ d.drop (e - a) ++ C.drop (a + d.length)).take e' = C.take e' := by
      rw [append_assoc, take_append_of_le_length (by omega), take_take, Nat.min_eq_left h2]
    have hdrop : (C.take e ++ d.drop (e - a) ++ C.drop (a + d.length)).drop e =
        d.drop (e - a) ++ C.drop (a + d.length) := by
      rw [append_assoc]
      exact drop_left' hlen
    have hdata : (d.drop (e' - a)).take (e - e') ++ d.drop (e - a) = d.drop (e' - a) := by
      have hd : d.drop (e - a) = (d.drop (e' - a)).drop (e - e') := by
        rw [drop_drop]
        congr 1
        omega
      rw [hd, take_append_drop]
    rw [htake, hdrop, append_assoc, ← append_assoc _ (d.drop _), hdata, append_assoc]
  · have hnil : d.drop (a + d.length - a) = [] := by simp
    have htake : (d.drop (e' - a)).take (a + d.length - e') = d.drop (e' - a) :=
      take_of_length_le (by rw [length_drop]; omega)
    rw [hnil, append_nil, take_append_drop, htake]

section Loop

variable {z : Nat → Nat} {f a : Nat} {d C : List UInt8} {P : Prop}

variable (z f a d C P) in
/-- The state of the loop when the data before `e` is still to be written.
`C` is what the file held at first, `P` says that the chunk does not make it
longer. -/
structure Partly (s : St) (R : Nat → List Link) (e : Nat) : Prop where
  wf : Wf s R z
  total : 0 < s.cacheBlockTotal
  lt : a < e
  le : e ≤ a + d.length
  end_le : e ≤ C.length ∨ e = a + d.length
  bytes : chainBytes (R f) = C.take e ++ d.drop (e - a) ++ C.drop (a + d.length)
  snug : P → e ≤ C.length ∧ SnugAt s R f

/-- The loop before a round that is not the first: the cached stretch begins
with blocks that were written, and goes on with `r`. -/
structure Midway (R : Nat → List Link) (s : St) (f e n : Nat) (r : List CacheBlock) : Prop where
  stretch : ∃ A S₀ S B c, Holds s R f A (S₀ ++ S) B c ∧ S₀ ≠ [] ∧
    r = seg S B ∧ e = chainSize (S ++ B) ∧ (S ++ B).length < n

/-- The loop in a round, once it has its block. -/
structure FoundAt (R : Nat → List Link) (s : St) (f e n : Nat) (r : List CacheBlock) : Prop where
  block : ∃ A S₀ y S B c cb, Holds s R f A (S₀ ++ y :: S) B c ∧
    r = cb :: seg S B ∧ Fresh (A ++ S₀) y (S ++ B) cb ∧
    chainSize (S ++ B) < e ∧ (e ≤ chainSize (S ++ B) + cb.nbDataLen ∨
      A ++ S₀ = [] ∧ cb.nbDataLen = Link.len y) ∧
    e - chainSize (S ++ B) ≤ maxBlockLen ∧ (S ++ B).length < n

variable (z f a d C P) in
/-- What the loop leaves. -/
def Spliced (s : St) (R : Nat → List Link) (s' : St) : Prop :=
  ∃ R', Wf s' R' z ∧ Frame s s' ∧ (∀ g, g ≠ f → R' g = R g) ∧
    chainBytes (R' f) = C.take a ++ d ++ C.drop (a + d.length) ∧
    chainSize (R' f).tail = chainSize (R f).tail ∧
    (P → SnugAt s' R' f) ∧ ∃ c ∈ s'.cacheInodes, c.nciInodeEntry = f

variable {s s₀ : St} {R : Nat → List Link} {e n : Nat} {r : List CacheBlock}
  {Q : Post St FsErr Unit}

/-- What is left of the loop once it has its block. -/
def chunkRest (f a : Nat) (d : List UInt8) (n e : Nat) : List CacheBlock → NffsM Unit
  | [] => Prog.abort
  | cb :: before => do
      let (dataOffset, chunkSz) ← nffsWriteChunkRound a d e cb
      if dataOffset > 0 then
        nffsWriteChunkLoop f a d n before (sub32 e chunkSz)
      else pure ()

/-- A round and what comes after it. -/
theorem wp_chunkRest (hsize : a < C.length) (hd : d.length ≤ maxBlockLen)
    (h : Partly z f a d C P s R e) (hf : FoundAt R s f e n r) (herr : ∀ s', Q.err .efull s')
    (hok : ∀ s', Spliced z f a d C P s R s' → Q.ok () s')
    (hnext : ∀ {s' R' e' r'}, Partly z f a d C P s' R' e' →
      Midway R' s' f e' n r' → Frame s s' → (∀ g, g ≠ f → R' g = R g) →
      chainSize (R' f).tail = chainSize (R f).tail → Wp (nffsWriteChunkLoop f a d n r' e') Q s') :
    Wp (chunkRest f a d n e r) Q s := by
  obtain ⟨A, S0, y, S, B, c, cb, hc, rfl, hcb, hlt, hmeet, hmax, hlen⟩ :=
    hf.block
  have hlive := hc.file h.wf
  have hR := hc.split_at
  have hle := h.le
  have hae := h.lt
  have hsz : C.length ≤ chainSize (R f) := by
    have hb := congrArg length h.bytes
    simp only [chainBytes_length, length_append, length_take, length_drop] at hb
    omega
  have hbound := h.wf.chainSize_le hlive
  refine .bind (wp_nffsWriteChunkRound h.wf.toStored hlive hR hcb hlt
    hae hle hd (by omega) hmeet hmax herr ?_)
  intro i b y' hy' hbytes hb hroom
  obtain ⟨hwf, hholds⟩ := h.wf.overwrite hc hy' hb hroom
  set R' := update R f (A ++ S0 ++ y' :: (S ++ B))
  have hRf : R' f = A ++ S0 ++ y' :: (S ++ B) := update_self ..
  rw [h.bytes, splice_step (by omega) (by omega) hle h.end_le] at hbytes
  have hframe : Frame s (s.overwrite i b y') :=
    ⟨rfl, fun _ => rfl, rfl, rfl⟩
  have hother : ∀ g, g ≠ f → R' g = R g := fun g hg => update_of_ne hg _ _
  have htail : chainSize (R' f).tail = chainSize (R f).tail := by
    rw [hRf, hR]
    exact hy'.tail
  have hsnug : P → SnugAt (s.overwrite i b y') R' f := by
    intro hP
    obtain ⟨heC, hsn⟩ := h.snug hP
    have hylen : Link.len y' = Link.len y := by
      have hold := congrArg length h.bytes
      have hnew := congrArg length hbytes
      have hstart := hlt
      rw [hR] at hold
      simp only [chainBytes_length, length_append, length_take,
        length_drop, chainSize_append, chainSize] at hold hnew hstart
      omega
    intro c' hc' hid'
    rw [hRf]
    have := hsn c' hc' hid'
    rw [hR] at this
    exact this.replace hy'.entry hylen
  have he' : sub32 e (e - max (chainSize (S ++ B)) a) = max (chainSize (S ++ B)) a := by
    have hstart : chainSize (S ++ B) ≤ chainSize (R f) := by
      rw [hR]
      simp only [chainSize_append, chainSize]
      omega
    simp only [maxBlockLen] at hmax
    rw [sub32_eq (by omega) (by omega)]
    omega
  simp only [he']
  by_cases hmore : max (chainSize (S ++ B)) a - a > 0
  · rw [if_pos hmore]
    have hmaxeq : max (chainSize (S ++ B)) a = chainSize (S ++ B) := by omega
    rw [hmaxeq] at hbytes ⊢
    have hleC : chainSize (S ++ B) ≤ C.length := by
      have hold := congrArg length h.bytes
      have hend := h.end_le
      rw [hR, chainBytes_length, chainSize_append] at hold
      simp only [length_append, length_take, length_drop, chainSize] at hold
      omega
    refine hnext ⟨hwf, h.total, by omega, by omega, .inl hleC, ?_, fun hP => ⟨hleC, hsnug hP⟩⟩
      ⟨A, S0 ++ [y'], S, B, c, ?_, by simp, rfl, rfl, hlen⟩ hframe hother htail
    · rw [hRf]
      exact hbytes
    · simpa using hholds
  · rw [if_neg hmore]
    have hmaxeq : max (chainSize (S ++ B)) a = a := by omega
    rw [hmaxeq, Nat.sub_self, drop_zero] at hbytes
    refine .pure (hok _ ⟨_, hwf, hframe, hother, ?_, htail, hsnug, c, hc.mem, hc.id⟩)
    rw [hRf]
    exact hbytes

/-- A block of the cached stretch that begins with blocks that were written. -/
theorem Midway.found {x : CacheBlock} (h : Partly z f a d C P s R e)
    (hm : Midway R s f e (n + 1) (x :: r)) : FoundAt R s f e n (x :: r) := by
  obtain ⟨A, S0, S, B, c, hc, -, hr, he, hn⟩ := hm.stretch
  cases S with
  | nil => cases hr
  | cons y S =>
    simp only [cons_append, chainSize, length_cons] at he hn
    obtain ⟨-, -, -, -, hpos, hymax, -⟩ := h.wf.chained.at (hc.file h.wf) hc.split_at
    exact ⟨A, S0, y, S, B, c, cacheBlock y (S ++ B), hc, hr,
      fresh_cacheBlock hpos, by omega, .inl (le_of_eq he), by omega, by omega⟩

/-- The block that a seek has found. -/
theorem Sought.foundAt (hs : Sought s₀ R z f (e - 1) r s) (he : 0 < e)
    (hfit : ∀ A y T, R f = A ++ y :: T → chainSize T < e →
      (e ≤ chainSize T + Link.len y ∨ A = []) → e - chainSize T ≤ maxBlockLen ∧ T.length < n) :
    FoundAt R s f e n r := by
  obtain ⟨c, hc, hid, A, S0, y, S, B, cb, l, hR, hcd, -, hr, hfr, hst, hend⟩ := hs.found
  have hle := hfr.le
  obtain ⟨hmax, hlen⟩ := hfit _ y _ hR (by omega) (hend.imp (fun hend => by omega) And.left)
  exact ⟨A, S0, y, S, B, c, cb, ⟨hc, hid, by simp [hR], hcd⟩, hr, hfr, by omega,
    hend.imp_left fun hend => by omega, hmax, hlen⟩

/-- The rounds after the first. -/
theorem wp_nffsWriteChunkLoop_midway (hsize : a < C.length) (hd : d.length ≤ maxBlockLen)
    (hz : z f ≠ 0) {R0 : Nat → List Link} (herr : ∀ s', Q.err .efull s')
    (hok : ∀ s', Spliced z f a d C P s₀ R0 s' → Q.ok () s') :
    ∀ {n : Nat} {s : St} {R : Nat → List Link} {e : Nat}
      {r : List CacheBlock}, Partly z f a d C P s R e → Midway R s f e n r →
      Frame s₀ s → (∀ g, g ≠ f → R g = R0 g) → chainSize (R f).tail = chainSize (R0 f).tail →
      Wp (nffsWriteChunkLoop f a d n r e) Q s := by
  intro n
  induction n with
  | zero =>
    intro s R e r _ hm
    obtain ⟨A, S0, S, B, c, -, -, -, -, hn⟩ := hm.stretch
    exact absurd hn (Nat.not_lt_zero _)
  | succ n ih =>
    intro s R e r h hm hframe hother htail
    -- One round in a state that a seek may have changed, and the rest.
    have hround : ∀ s' r, Partly z f a d C P s' R e → FoundAt R s' f e n r →
        Frame s s' → Wp (chunkRest f a d n e r) Q s' := by
      intro s' r h' hf' hframe'
      refine wp_chunkRest hsize hd h' hf' herr ?_ ?_
      · rintro s'' ⟨R'', hwf, hfr, ho, hb, htl, hrest⟩
        exact hok s'' ⟨R'', hwf, hframe.trans (hframe'.trans hfr),
          fun g hg => (ho g hg).trans (hother g hg), hb, htl.trans htail, hrest⟩
      · intro s'' R'' e' r' hp hm' hfr ho htl
        exact ih hp hm' (hframe.trans (hframe'.trans hfr))
          (fun g hg => (ho g hg).trans (hother g hg)) (htl.trans htail)
    cases r with
    | cons x r =>
      refine .bind (.pure ?_)
      exact hround s (x :: r) h (hm.found h) ⟨rfl, fun _ => rfl, rfl, rfl⟩
    | nil =>
      obtain ⟨A, S0, S, B, c, hc, hne, hr, he, hn⟩ := hm.stretch
      have hS : S = [] := by
        cases S with
        | nil => rfl
        | cons y S => cases hr
      subst hS
      have hlive := hc.file h.wf
      have hlt := h.wf.chainSize_lt hlive
      have hae := h.lt
      have hcl := hc.split
      simp only [append_nil, nil_append] at hc hcl he hn
      have hele : e ≤ chainSize (R f) := by
        rw [hcl, he, chainSize_append]
        omega
      refine .bind ?_
      rw [sub32_eq (by omega) (by omega)]
      refine wp_nffsCacheSeek h.wf h.total hc.mem hc.id hz (.inr ?_) ?_
      · obtain ⟨x, S1, rfl⟩ := exists_cons_of_ne_nil hne
        obtain ⟨_, -, -, hrange⟩ := hc.range h.wf
        rw [hrange]
        omega
      intro r s' hsought
      have hfound : FoundAt R s' f e n r := by
        refine hsought.foundAt (by omega) fun A' y T hR' hlt hin => ?_
        have hsz := chainSize_split hR'
        have hin : e ≤ chainSize T + Link.len y := by
          rcases hin with hin | rfl
          · exact hin
          · simp only [chainSize] at hsz
            omega
        obtain ⟨-, -, -, -, -, hymax, -⟩ := h.wf.chained.at hlive hR'
        -- The block is the one that ends where the written ones begin.
        obtain ⟨-, hB⟩ := (hR' ▸ h.wf.isChain hlive).boundary (hR' ▸ hcl) (by rw [← he]; omega)
          (by rw [← he]; simp only [chainSize]; omega)
        rw [hB, length_cons] at hn
        exact ⟨by omega, by omega⟩
      refine hround s' r { h with
        wf := hsought.wf, total := ?_, snug := fun hP => ⟨(h.snug hP).1, hsought.snug (h.snug hP).2⟩ }
        hfound hsought.recached.frame
      rw [hsought.recached.total]
      exact h.total

/-- The whole loop. A chunk that ends past the end of the file makes its last
block as long as that. -/
theorem wp_nffsWriteChunkLoop {c : CacheInode} (h : Wf s R z) (ht : 0 < s.cacheBlockTotal)
    (hc : c ∈ s.cacheInodes) (hid : c.nciInodeEntry = f) (hz : z f = chainSize (R f))
    (hsize : a < chainSize (R f)) (hd0 : d ≠ []) (hd : d.length ≤ maxBlockLen)
    (hlast : ∀ x T, R f = x :: T → chainSize (R f) < a + d.length →
      a + d.length - chainSize T ≤ maxBlockLen) (hn : (R f).length < n)
    (herr : ∀ s', Q.err .efull s') (hok : ∀ s', Spliced z f a d (chainBytes (R f))
      (a + d.length = chainSize (R f)) s R s' → Q.ok () s') :
    Wp (nffsWriteChunkLoop f a d n [] (a + d.length)) Q s := by
  obtain _ | k := n
  · omega
  have hlive := h.file hc hid
  have hle := h.chainSize_le hlive
  have hdpos : 0 < d.length := length_pos_iff.mpr hd0
  have hM : maxBlockLen = 65511 := rfl
  refine .bind ?_
  rw [sub32_eq (by omega) (by omega)]
  refine wp_nffsCacheSeek h ht hc hid (by omega) (.inl hz) ?_
  intro r s' hsought
  have hpartly : Partly z f a d (chainBytes (R f))
      (a + d.length = chainSize (R f)) s' R (a + d.length) := by
    refine ⟨hsought.wf, by rw [hsought.recached.total]; exact ht, by omega,
      le_refl _, .inr rfl, ?_, fun hP => ⟨?_, hsought.snug_end (by omega)⟩⟩
    · simp
    · rw [chainBytes_length]
      omega
  have hfound : FoundAt R s' f (a + d.length) k r := by
    refine hsought.foundAt (by omega) fun A y T hR hlt hin => ?_
    have hsz := chainSize_split hR
    have hlen := congrArg length hR
    simp only [length_append, length_cons] at hlen
    obtain ⟨-, -, -, -, -, hymax, -⟩ := h.chained.at hlive hR
    refine ⟨?_, by omega⟩
    rcases hin with hin | rfl
    · omega
    · simp only [chainSize] at hsz
      by_cases hpast : chainSize (R f) < a + d.length
      · exact hlast y T hR hpast
      · omega
  refine wp_chunkRest (by rw [chainBytes_length]; exact hsize) hd hpartly hfound herr ?_ ?_
  · rintro s'' ⟨R'', hwf, hfr, hrest⟩
    exact hok s'' ⟨R'', hwf, hsought.recached.frame.trans hfr, hrest⟩
  · intro s'' R'' e' r' hp hm hfr ho htl
    exact wp_nffsWriteChunkLoop_midway (by rw [chainBytes_length]; exact hsize)
      hd (by omega) herr hok hp hm (hsought.recached.frame.trans hfr) ho htl

end Loop

/-! ## Recording the size -/

section Resize

variable {s : St} {R : Nat → List Link} {z : Nat → Nat} {f : Nat}

theorem mem_resize {c : CacheInode} {n : Nat}
    (hc : c ∈ (s.setCacheInode f (setFileSize n)).cacheInodes) :
    ∃ d ∈ s.cacheInodes, c.nciInodeEntry = d.nciInodeEntry ∧ c.nciBlockList = d.nciBlockList ∧
      c.nciFileSize = if d.nciInodeEntry = f then n else d.nciFileSize := by
  obtain ⟨d, hd, rfl⟩ := mem_map.mp hc
  refine ⟨d, hd, ?_⟩
  split <;> exact ⟨rfl, rfl, rfl⟩

theorem setFileSize_ids (s : St) (f n : Nat) : (s.setCacheInode f (setFileSize n)).cacheInodes.map
        CacheInode.nciInodeEntry = s.cacheInodes.map CacheInode.nciInodeEntry := by
  simp only [St.setCacheInode, map_map]
  refine map_congr_left fun c _ => ?_
  simp only [comp]
  split <;> rfl

theorem cachedCount_setFileSize (s : St) (f n : Nat) :
    cachedCount (s.setCacheInode f (setFileSize n)).cacheInodes = cachedCount s.cacheInodes := by
  simp only [cachedCount, St.setCacheInode, map_map]
  refine congrArg sum (map_congr_left fun c _ => ?_)
  simp only [comp]
  split <;> rfl

theorem Recached.resize (s : St) (f n : Nat) : Recached s (s.setCacheInode f (setFileSize n)) := by
  refine ⟨⟨_, _, _, rfl⟩, ?_⟩
  unfold St.cacheBlockTotal
  rw [cachedCount_setFileSize]
  rfl

theorem Wf.resize (h : Wf s R z) (n : Nat) :
    Wf (s.setCacheInode f (setFileSize n)) R (update z f n) := by
  refine ⟨h.toStored.caches _ _ _, ?_, ?_, ?_⟩
  · rw [setFileSize_ids]
    exact h.cacheIds
  · intro c hc
    obtain ⟨d, hd, hid, -⟩ := mem_resize hc
    rw [hid]
    exact h.cacheLive d hd
  · intro c hc
    obtain ⟨d, hd, hid, hbl, hsz⟩ := mem_resize hc
    have hok := h.cached d hd
    rw [hid]
    refine ⟨?_, hbl ▸ hok.blocks⟩
    rw [hsz]
    split
    · next hf => rw [hf, update_self]
    · next hf =>
      rw [update_of_ne hf]
      exact hok.size

theorem SnugAt.resize (h : SnugAt s R f) (n : Nat) :
    SnugAt (s.setCacheInode f (setFileSize n)) R f := by
  intro c hc hid
  obtain ⟨d, hd, hid', hbl, -⟩ := mem_resize hc
  rw [hbl]
  exact h d hd (hid'.symm.trans hid)

end Resize

end Larva.Nffs
