import Larva.Nffs.Collect

/-!
# What a collection copies

The bytes that the entries have in an area are the records they point at in
it. A collection takes those of the source area to zero and adds to the
destination what it writes there, which is never more: a run of blocks that is
written as one block saves the headers in between.

`Moves` says this of two counts of bytes per area. It adds up, so it is shown
for a chain of blocks, then for a file, then for all entries. The destination
is assumed to have room for everything live in the source; whether it has is
the subject of `Larva.Nffs.Scratch`.

The only assertion that can fail on the way is the one on a location: an
offset has 24 bits. In areas of at most 2^24 bytes it holds.
-/

namespace Larva.Nffs

open Larva.Crash List

/-! ## Live bytes -/

def BlockLoc.live (i : Nat) (b : BlockLoc) : Nat :=
  if b.areaIdx = i then sizeofDiskBlock + b.nbDataLen else 0

def liveBlocks (i : Nat) (bs : List BlockLoc) : Nat :=
  (bs.map (BlockLoc.live i)).sum

def InodeLoc.live (i : Nat) (e : InodeLoc) : Nat :=
  (if e.areaIdx = i then sizeofDiskInode + e.niFilenameLen else 0) + liveBlocks i e.blocks

def liveInodes (i : Nat) (es : List InodeLoc) : Nat :=
  (es.map (InodeLoc.live i)).sum

def Flash.live (s : Flash) (i : Nat) : Nat := liveInodes i s.inodes

@[simp] theorem liveBlocks_nil (i : Nat) : liveBlocks i [] = 0 := rfl

@[simp] theorem liveBlocks_cons (i : Nat) (b : BlockLoc) (bs : List BlockLoc) :
    liveBlocks i (b :: bs) = b.live i + liveBlocks i bs := rfl

@[simp] theorem liveBlocks_append (i : Nat) (bs cs : List BlockLoc) :
    liveBlocks i (bs ++ cs) = liveBlocks i bs + liveBlocks i cs := by
  simp [liveBlocks]

@[simp] theorem liveInodes_nil (i : Nat) : liveInodes i [] = 0 := rfl

@[simp] theorem liveInodes_cons (i : Nat) (e : InodeLoc) (es : List InodeLoc) :
    liveInodes i (e :: es) = e.live i + liveInodes i es := rfl

@[simp] theorem liveInodes_append (i : Nat) (es fs : List InodeLoc) :
    liveInodes i (es ++ fs) = liveInodes i es + liveInodes i fs := by
  simp [liveInodes]

/-- A block that the file system writes: it has data, and the size of its
record is a `uint16_t`. -/
def BlockLoc.Ok (b : BlockLoc) : Prop :=
  0 < b.nbDataLen ∧ sizeofDiskBlock + b.nbDataLen < 2 ^ 16

def InodeLoc.Ok (e : InodeLoc) : Prop :=
  e.niFilenameLen < 2 ^ 8 ∧ ∀ b ∈ e.blocks, b.Ok

/-- From `f` to `g` the bytes in area `src` are gone and `n` bytes, no more
than these, have come to area `dst`. -/
structure Moves (src dst n : Nat) (f g : Nat → Nat) : Prop where
  came : g dst = f dst + n
  gone : g src = 0
  other : ∀ i, i ≠ src → i ≠ dst → g i = f i
  le : n ≤ f src

section Moves

variable {src dst m n : Nat} {f g f' g' : Nat → Nat}

theorem Moves.refl (h : f src = 0) : Moves src dst 0 f f :=
  ⟨rfl, h, fun _ _ _ => rfl, Nat.zero_le _⟩

theorem Moves.add (h : Moves src dst m f g) (h' : Moves src dst n f' g') :
    Moves src dst (m + n) (fun i => f i + f' i) (fun i => g i + g' i) where
  came := by
    have := h.came
    have := h'.came
    omega
  gone := by
    have := h.gone
    have := h'.gone
    omega
  other i hs hd := by rw [h.other i hs hd, h'.other i hs hd]
  le := Nat.add_le_add h.le h'.le

end Moves

namespace Flash

/-! ## Filling an area -/

/-- `n` more bytes of area `i` are written. -/
def fill (i n : Nat) (s : Flash) : Flash :=
  setArea i (fun a => { a with naCur := a.naCur + n }) s

/-- A state that differs from `s` in the fill level of area `i`, by `n` bytes,
and in the answers to requests for memory. -/
def Filled (i n : Nat) (s s' : Flash) : Prop :=
  ∃ k, s' = { s.fill i n with malloc := k }

/-- Area `i` has room for `n` more bytes; `lim` is its length. -/
def Room (i n lim : Nat) (s : Flash) : Prop :=
  ∃ a, s.areas[i]? = some a ∧ a.naLength = lim ∧ a.naCur + n ≤ lim ∧ lim < 2 ^ 32

section Fill

variable {s s' s'' : Flash} {i m n lim : Nat} {a : FlashArea} {f : FlashArea → FlashArea}

theorem setArea_congr {g : FlashArea → FlashArea} (h : s.areas[i]? = some a) (hf : f a = g a) :
    setArea i f s = setArea i g s := by
  have hm : s.areas.modify i f = s.areas.modify i g := by
    apply ext_getElem?
    intro j
    by_cases hj : i = j
    · subst hj
      simp [h, hf]
    · simp [hj]
  simp only [setArea, hm]

theorem setArea_at (h : s.areas[i]? = some a) : (setArea i f s).areas[i]? = some (f a) := by
  simp [setArea, h]

theorem setArea_ne {j : Nat} (h : j ≠ i) : (setArea i f s).areas[j]? = s.areas[j]? := by
  simp [setArea, Ne.symm h]

theorem fill_at (h : s.areas[i]? = some a) :
    (s.fill i n).areas[i]? = some { a with naCur := a.naCur + n } :=
  setArea_at h

theorem fill_zero : s.fill i 0 = s := by
  have hm : s.areas.modify i (fun a => { a with naCur := a.naCur + 0 }) =
      s.areas := modify_id i s.areas
  simp only [fill, setArea, hm]

theorem fill_fill : (s.fill i m).fill i n = s.fill i (m + n) := by
  simp only [fill, setArea, modify_modify_eq, ← add_assoc]
  rfl

theorem Filled.refl : Filled i 0 s s := ⟨s.malloc, by rw [fill_zero]⟩

theorem Filled.trans (h : Filled i m s s') (h' : Filled i n s' s'') : Filled i (m + n) s s'' := by
  obtain ⟨k, rfl⟩ := h
  obtain ⟨k', rfl⟩ := h'
  refine ⟨k', ?_⟩
  rw [← fill_fill]
  rfl

theorem Filled.blockMaxDataSz (h : Filled i n s s') : s'.blockMaxDataSz = s.blockMaxDataSz := by
  obtain ⟨k, rfl⟩ := h
  rfl

theorem Room.mono (h : Room i n lim s) (hm : m ≤ n) : Room i m lim s := by
  obtain ⟨a, ha, hl, hc, hlim⟩ := h
  exact ⟨a, ha, hl, by omega, hlim⟩

theorem Room.filled (h : Room i (m + n) lim s) (hf : Filled i m s s') : Room i n lim s' := by
  obtain ⟨a, ha, hl, hc, hlim⟩ := h
  obtain ⟨k, rfl⟩ := hf
  exact ⟨_, fill_at ha, hl, by show a.naCur + m + n ≤ lim; omega, hlim⟩

end Fill

/-! ## Writing and copying records -/

/-- A program that ends well, with what `ok` says of its answer and state,
unless an area is too long for the locations in it. -/
abbrev Ends {α : Type} (lim : Nat) (ok : α → Flash → Prop) :
    Post Flash FsErr α :=
  ⟨ok, fun _ _ => False, fun _ => False, 2 ^ 24 < lim⟩

section Copy

variable {α β : Type} {s : Flash} {i n lim : Nat} {a : FlashArea} {m : FlashM α}
  {ok : α → Flash → Prop}

theorem Ends.bind {f : α → FlashM β} {Q : Post Flash FsErr β} (hm : Wp m (Ends lim ok) s)
    (hst : 2 ^ 24 < lim → Q.stuck) (h : ∀ a s', ok a s' → Wp (f a) Q s') : Wp (m >>= f) Q s :=
  Wp.bind (hm.mono h (fun _ _ h => h.elim) (fun _ h => h.elim) hst)

theorem Ends.run (h : Wp m (Ends lim ok) s) (hlim : lim ≤ 2 ^ 24) :
    ∃ a s', m s none = .ok a s' none ∧ ok a s' := by
  have htotal : Wp m (.total ok) s := h.mono (fun _ _ h => h) (fun _ _ h => h) (fun _ h => h)
    (Nat.not_lt.mpr hlim)
  exact htotal.run_total

theorem wp_area {Q : Post Flash FsErr FlashArea} (h : s.areas[i]? = some a)
    (hQ : Q.ok a s) : Wp (area i) Q s := by
  refine .get_bind ?_
  simp only [h]
  exact .pure hQ

theorem wp_nffsFlashWrite (ha : s.areas[i]? = some a)
    (hc : a.naCur + n ≤ a.naLength) (hl : a.naLength < 2 ^ 32) : Wp (nffsFlashWrite i a.naCur n)
      (Ends lim fun _ s' => s' = s.fill i n) s := by
  refine .bind (wp_area ha ?_)
  show Wp (if u32 (a.naCur + n) > a.naLength then _ else _) _ s
  rw [u32_eq (by omega), if_neg (by omega), if_neg (by omega)]
  exact .modify (setArea_congr ha rfl)

theorem wp_nffsFlashCopyLoop {fuel : Nat} (hf : n < fuel)
    (ha : s.areas[i]? = some a) (hc : a.naCur + n ≤ a.naLength) (hl : a.naLength < 2 ^ 32) :
    Wp (nffsFlashCopyLoop i fuel a.naCur n) (Ends lim fun _ s' => s' = s.fill i n) s := by
  induction fuel generalizing s a n with
  | zero => omega
  | succ fuel ih =>
    rw [nffsFlashCopyLoop]
    by_cases hn : 0 < n
    · rw [if_pos hn]
      -- The chunk that this round writes.
      generalize hk : (if flashBufSz < n then flashBufSz else n) = k
      have hk0 : 0 < k ∧ k ≤ n := by
        by_cases hbig : flashBufSz < n
        · rw [if_pos hbig] at hk
          rw [← hk]
          exact ⟨by decide, by omega⟩
        · rw [if_neg hbig] at hk
          omega
      refine Ends.bind (wp_nffsFlashWrite ha (by omega) hl) id ?_
      rintro _ _ rfl
      have hrest : a.naCur + k + (n - k) ≤ a.naLength := by omega
      refine (ih (by omega) (fill_at ha) hrest hl).mono_ok ?_
      rintro _ _ rfl
      rw [fill_fill, Nat.add_sub_cancel' hk0.2]
    · obtain rfl : n = 0 := by omega
      exact .pure fill_zero.symm

theorem wp_nffsFlashLoc {Q : Flash → Prop} {off : Nat} (hoff : off < lim)
    (h : Q s) : Wp (nffsFlashLoc off) (Ends lim fun _ => Q) s := by
  refine .assert_or (fun _ => h) fun hle => ?_
  have := of_decide_eq_false hle
  show 2 ^ 24 < lim
  omega

theorem wp_nffsGcCopyObject (hn : 0 < n) (h : Room i n lim s) :
    Wp (nffsGcCopyObject n i) (Ends lim fun _ s' => s' = s.fill i n) s := by
  obtain ⟨a, ha, rfl, hc, hlim⟩ := h
  refine .bind (wp_area ha ?_)
  refine Ends.bind (wp_nffsFlashCopyLoop (by omega) ha hc hlim) id ?_
  rintro _ _ rfl
  exact wp_nffsFlashLoc (by omega) rfl

end Copy

/-! ## Chains of blocks -/

/-- The bytes of a chain on flash, and the data in it. -/
def chainSize (bs : List BlockLoc) : Nat :=
  (bs.map fun b => sizeofDiskBlock + b.nbDataLen).sum

def chainData (bs : List BlockLoc) : Nat :=
  (bs.map BlockLoc.nbDataLen).sum

section Chain

variable {s : Flash} {src dst lim i : Nat} {bs : List BlockLoc}

theorem liveBlocks_of_all (h : ∀ b ∈ bs, b.areaIdx = i) :
    liveBlocks i bs = chainSize bs :=
  congrArg sum (map_congr_left fun b hb => if_pos (h b hb))

theorem liveBlocks_of_none (h : ∀ b ∈ bs, b.areaIdx ≠ i) : liveBlocks i bs = 0 := by
  refine sum_eq_zero fun n hn => ?_
  obtain ⟨b, hb, rfl⟩ := mem_map.mp hn
  exact if_neg (h b hb)

/-- A chain in the source area that is replaced by a chain in the
destination of no more bytes. -/
theorem moves_chain {cs : List BlockLoc} (hne : src ≠ dst)
    (hb : ∀ b ∈ bs, b.areaIdx = src) (hc : ∀ b ∈ cs, b.areaIdx = dst)
    (hle : chainSize cs ≤ chainSize bs) :
    Moves src dst (chainSize cs) (liveBlocks · bs) (liveBlocks · cs) where
  came := by
    have h0 : liveBlocks dst bs = 0 :=
      liveBlocks_of_none fun b h => by rw [hb b h]; exact hne
    rw [h0, liveBlocks_of_all hc, zero_add]
  gone := liveBlocks_of_none fun b h => by rw [hc b h]; exact hne.symm
  other i hs hd := by
    rw [liveBlocks_of_none fun b h => by rw [hc b h]; exact hd.symm,
      liveBlocks_of_none fun b h => by rw [hb b h]; exact hs.symm]
  le := by
    rw [liveBlocks_of_all hb]
    exact hle

/-- What is wanted of copying a chain: it is in the destination now, with the
same number of bytes written there. -/
def Copied (dst : Nat) (bs : List BlockLoc) (s : Flash) (cs : List BlockLoc)
    (s' : Flash) : Prop :=
  (∀ b ∈ cs, b.areaIdx = dst ∧ b.Ok) ∧ chainSize cs ≤ chainSize bs ∧ Filled dst (chainSize cs) s s'

theorem wp_nffsGcBlockChainCopy {copied : Nat} (hok : ∀ b ∈ bs, b.Ok)
    (h : Room dst (chainSize bs) lim s) :
    Wp (nffsGcBlockChainCopy (copied + chainData bs) dst copied bs)
      (Ends lim (Copied dst bs s)) s := by
  induction bs generalizing s copied with
  | nil =>
    refine .bind (.assert (by simp [chainData]) (.pure ?_))
    exact ⟨by simp, le_refl _, .refl⟩
  | cons b bs ih =>
    obtain ⟨hb, hbs⟩ := forall_mem_cons.mp hok
    have hdata : copied + chainData (b :: bs) = copied + b.nbDataLen + chainData bs := by
      simp only [chainData, map_cons, sum_cons]
      omega
    have hroom : Room dst (sizeofDiskBlock + b.nbDataLen + chainSize bs) lim s := h
    rw [nffsGcBlockChainCopy, if_pos (by have := hb.1; omega), u16_eq hb.2, hdata]
    refine Ends.bind (wp_nffsGcCopyObject (by have := hb.1; omega)
      (hroom.mono (Nat.le_add_right _ _))) id ?_
    rintro _ _ rfl
    have hfill : Filled dst (sizeofDiskBlock + b.nbDataLen) s
        (s.fill dst _) := ⟨_, rfl⟩
    refine Ends.bind (ih hbs (hroom.filled hfill)) id ?_
    rintro cs s' ⟨hcs, hle, hf⟩
    exact .pure ⟨forall_mem_cons.mpr ⟨⟨rfl, hb⟩, hcs⟩, Nat.add_le_add_left hle _, hfill.trans hf⟩

/-- Reading a chain to its beginning leaves nothing of it. -/
theorem wp_collateRest (hok : ∀ b ∈ bs, b.Ok) (hdata : chainData bs < 2 ^ 32) :
    Wp (collateRest (chainData bs) bs) (Ends lim fun rest s' => rest = [] ∧ s' = s) s := by
  induction bs with
  | nil => exact .bind (.assert (by simp [chainData]) (.pure ⟨rfl, rfl⟩))
  | cons b bs ih =>
    obtain ⟨⟨hb, -⟩, hbs⟩ := forall_mem_cons.mp hok
    have hcons : chainData (b :: bs) = b.nbDataLen + chainData bs := rfl
    rw [collateRest, if_pos (by omega), sub32_eq (by omega) hdata, hcons, Nat.add_sub_cancel_left]
    exact ih hbs (by omega)

theorem chainData_add_le (hne : bs ≠ []) : sizeofDiskBlock + chainData bs ≤ chainSize bs := by
  induction bs with
  | nil => exact absurd rfl hne
  | cons b bs ih =>
    show sizeofDiskBlock + (b.nbDataLen + chainData bs) ≤
      sizeofDiskBlock + b.nbDataLen + chainSize bs
    by_cases hbs : bs = []
    · subst hbs
      exact le_refl _
    · have := ih hbs
      omega

theorem chainData_pos (hok : ∀ b ∈ bs, b.Ok) (hne : bs ≠ []) : 0 < chainData bs := by
  cases bs with
  | nil => exact absurd rfl hne
  | cons b bs =>
    have := (hok b (by simp)).1
    show 0 < b.nbDataLen + chainData bs
    omega

/-- Collation fails for want of memory only, and then before it has written
anything. -/
theorem wp_nffsGcBlockChainCollate (hne : bs ≠ []) (hok : ∀ b ∈ bs, b.Ok)
    (hdata : sizeofDiskBlock + chainData bs < 2 ^ 16) (h : Room dst (chainSize bs) lim s) :
    Wp (nffsGcBlockChainCollate (chainData bs) dst bs)
      ⟨Copied dst bs s, fun e s' => e = .enomem ∧ Filled dst 0 s s',
        fun _ => False, 2 ^ 24 < lim⟩ s := by
  have hle := chainData_add_le hne
  obtain ⟨a, ha, rfl, hc, hlim⟩ := h
  refine .get_bind (.modify_bind ?_)
  generalize hs' : ({ s with malloc := s.malloc.tail } : Flash) = s'
  have hfill : ∀ n, Filled dst n s (s'.fill dst n) := by
    intro n
    subst hs'
    exact ⟨s.malloc.tail, rfl⟩
  have ha' : s'.areas[dst]? = some a := by
    subst hs'
    exact ha
  split
  · refine Ends.bind (wp_collateRest hok (by omega)) id ?_
    rintro _ _ ⟨rfl, rfl⟩
    refine .bind (wp_area ha' ?_)
    have hhead : a.naCur + sizeofDiskBlock ≤ a.naLength := by omega
    refine Ends.bind (wp_nffsFlashWrite ha' hhead hlim) id ?_
    rintro _ _ rfl
    have hbody : a.naCur + sizeofDiskBlock + chainData bs ≤ a.naLength := by
      omega
    refine Ends.bind (wp_nffsFlashWrite (fill_at ha') hbody hlim) id ?_
    rintro _ _ rfl
    have hpos := chainData_pos hok hne
    refine Ends.bind (wp_nffsFlashLoc (by omega) rfl) id ?_
    rintro _ _ rfl
    have hsize : chainSize [⟨dst, chainData bs⟩] = sizeofDiskBlock + chainData bs := rfl
    rw [u16_eq (by omega), fill_fill]
    refine .pure ⟨?_, by rw [hsize]; exact hle, hfill _⟩
    intro b hb
    obtain rfl := mem_singleton.mp hb
    exact ⟨rfl, hpos, hdata⟩
  · have := hfill 0
    rw [fill_zero] at this
    exact .fail ⟨rfl, this⟩

theorem wp_nffsGcBlockChain {multiple : Bool} (hok : ∀ b ∈ bs, b.Ok) (hmul : multiple = true →
      bs ≠ [] ∧ sizeofDiskBlock + chainData bs < 2 ^ 16) (h : Room dst (chainSize bs) lim s) :
    Wp (nffsGcBlockChain multiple (chainData bs) dst bs) (Ends lim (Copied dst bs s)) s := by
  have hcopy : ∀ s', Filled dst 0 s s' → Wp (nffsGcBlockChainCopy (chainData bs) dst 0 bs)
        (Ends lim (Copied dst bs s)) s' := by
    intro s' hf
    have hroom : Room dst (chainSize bs) lim s' :=
      Room.filled (by rwa [zero_add]) hf
    have hwp : Wp (nffsGcBlockChainCopy (0 + chainData bs) dst 0 bs) _ s' :=
      wp_nffsGcBlockChainCopy hok hroom
    rw [zero_add] at hwp
    refine hwp.mono_ok ?_
    rintro cs s'' ⟨hcs, hle, hf'⟩
    refine ⟨hcs, hle, ?_⟩
    have := hf.trans hf'
    rwa [zero_add] at this
  unfold nffsGcBlockChain
  by_cases hm : multiple = true
  · rw [if_pos hm]
    obtain ⟨hne, hdata⟩ := hmul hm
    refine .bind (.attempt ((wp_nffsGcBlockChainCollate hne hok hdata
      h).mono ?_ ?_ (fun _ h => h) id))
    · intro cs s' hcs
      exact .pure hcs
    · rintro _ s' ⟨rfl, hf⟩
      exact hcopy s' hf
  · rw [if_neg hm]
    exact hcopy s .refl

end Chain

/-! ## Files -/

section Inodes

variable {s s' : Flash} {src dst lim : Nat} {f g : Nat → Nat} {chain : List BlockLoc}
  {multiple : Bool}

/-- What is wanted of a walk that has changed `f`, the live bytes of what was
walked, to `g`. -/
def Walked (src dst : Nat) (f g : Nat → Nat) (s s' : Flash) : Prop :=
  ∃ n, Moves src dst n f g ∧ Filled dst n s s'

theorem Walked.add {f' g' : Nat → Nat} {s'' : Flash} (h : Walked src dst f g s s')
    (h' : Walked src dst f' g' s' s'') :
    Walked src dst (fun i => f i + f' i) (fun i => g i + g' i) s s'' := by
  obtain ⟨m, hm, hf⟩ := h
  obtain ⟨n, hn, hf'⟩ := h'
  exact ⟨m + n, hm.add hn, hf.trans hf'⟩

theorem Walked.stay (h : f src = 0) : Walked src dst f f s s :=
  ⟨0, .refl h, .refl⟩

theorem Walked.room {m : Nat} (h : Walked src dst f g s s') (hr : Room dst (f src + m) lim s) :
    Room dst m lim s' := by
  obtain ⟨n, hn, hf⟩ := h
  have := hn.le
  exact (hr.mono (show n + m ≤ f src + m by omega)).filled hf

theorem Walked.blockMaxDataSz (h : Walked src dst f g s s') :
    s'.blockMaxDataSz = s.blockMaxDataSz := by
  obtain ⟨n, _, hf⟩ := h
  exact hf.blockMaxDataSz

/-- A chain of the source area, as `nffs_gc_inode_blocks` has gathered it. -/
structure Gathered (src : Nat) (s : Flash) (chain : List BlockLoc) (multiple : Bool) : Prop where
  src : ∀ b ∈ chain, b.areaIdx = src
  ok : ∀ b ∈ chain, b.Ok
  multiple : multiple = true → chain ≠ [] ∧ chainData chain ≤ s.blockMaxDataSz

theorem wp_gathered (hne : src ≠ dst) (hmax : s.blockMaxDataSz ≤ blockMaxDataSzMax)
    (hg : Gathered src s chain multiple) (h : Room dst (liveBlocks src chain) lim s) :
    Wp (nffsGcBlockChain multiple (chainData chain) dst chain)
      (Ends lim fun cs s' => (∀ b ∈ cs, b.Ok) ∧
        Walked src dst (liveBlocks · chain) (liveBlocks · cs) s s') s := by
  have hmul : multiple = true → chain ≠ [] ∧ sizeofDiskBlock + chainData chain < 2 ^ 16 := by
    intro hm
    obtain ⟨hc, hle⟩ := hg.multiple hm
    simp only [blockMaxDataSzMax, sizeofDiskBlock] at hmax ⊢
    exact ⟨hc, by omega⟩
  rw [liveBlocks_of_all hg.src] at h
  refine (wp_nffsGcBlockChain hg.ok hmul h).mono_ok ?_
  rintro cs s' ⟨hcs, hle, hf⟩
  exact ⟨fun b hb => (hcs b hb).2, _, moves_chain hne hg.src (fun b hb => (hcs b hb).1) hle, hf⟩

theorem chainData_append (bs cs : List BlockLoc) :
    chainData (bs ++ cs) = chainData bs + chainData cs := by
  simp [chainData]

theorem wp_nffsGcInodeBlocks {bs : List BlockLoc} (hne : src ≠ dst)
    (hmax : s.blockMaxDataSz ≤ blockMaxDataSzMax) (hg : Gathered src s chain multiple)
    (hok : ∀ b ∈ bs, b.Ok) (h : Room dst (liveBlocks src chain + liveBlocks src bs) lim s) :
    Wp (nffsGcInodeBlocks src dst chain (chainData chain) multiple bs)
      (Ends lim fun cs s' => (∀ b ∈ cs, b.Ok) ∧
        Walked src dst (fun i => liveBlocks i chain + liveBlocks i bs)
          (liveBlocks · cs) s s') s := by
  -- On the blocks still to come; what has been gathered is arbitrary.
  induction bs generalizing s chain multiple with
  | nil =>
    rw [nffsGcInodeBlocks]
    split
    · next hc =>
      subst hc
      exact .pure ⟨by simp, Walked.stay rfl⟩
    · exact wp_gathered hne hmax hg h
  | cons b bs ih =>
    obtain ⟨hb, hbs⟩ := forall_mem_cons.mp hok
    have hflush := wp_gathered hne hmax hg (h.mono (Nat.le_add_right _ _))
    refine .get_bind ?_
    by_cases hsrc : b.areaIdx = src
    · rw [if_pos hsrc]
      have hlive : ∀ cs i, liveBlocks i (cs ++ [b]) + liveBlocks i bs =
          liveBlocks i cs + liveBlocks i (b :: bs) := by
        simp only [liveBlocks_append, liveBlocks_cons, liveBlocks_nil]
        omega
      dsimp only
      split
      · next hle =>
        have hdata : chainData (chain ++ [b]) = chainData chain + b.nbDataLen := by
          rw [chainData_append]
          rfl
        have hg' : Gathered src s (chain ++ [b]) (multiple || !chain.isEmpty) := by
          refine ⟨?_, ?_, fun _ => ⟨by simp, by omega⟩⟩
          · exact forall_mem_append.mpr ⟨hg.src, forall_mem_singleton.mpr hsrc⟩
          · exact forall_mem_append.mpr ⟨hg.ok, forall_mem_singleton.mpr hb⟩
        have hgo := ih hmax hg' hbs (by rw [hlive]; exact h)
        rw [hdata] at hgo
        simpa only [hlive] using hgo
      · refine Ends.bind hflush id ?_
        rintro done s1 ⟨hdone, hw1⟩
        have hg' : Gathered src s1 [b] false :=
          ⟨by simpa using hsrc, by simpa using hb, by simp⟩
        have hmax1 := hw1.blockMaxDataSz ▸ hmax
        have hroom := hw1.room h
        refine Ends.bind (ih hmax1 hg' hbs (by simpa using hroom)) id ?_
        rintro rest s2 ⟨hrest, hw2⟩
        refine .pure ⟨forall_mem_append.mpr ⟨hdone, hrest⟩, ?_⟩
        simpa using hw1.add hw2
    · rw [if_neg hsrc]
      have hstay : b.live src = 0 := if_neg hsrc
      have hb' : ∀ s', Walked src dst (BlockLoc.live · b)
          (BlockLoc.live · b) s' s' := fun s' => .stay hstay
      have hg' : ∀ s', Gathered src s' [] false := fun s' =>
        ⟨by simp, by simp, by simp⟩
      split
      · next hc =>
        subst hc
        have hroom : Room dst (liveBlocks src [] + liveBlocks src bs) lim
            s := by
          simpa [hstay] using h
        refine Ends.bind (ih hmax (hg' s) hbs hroom) id ?_
        rintro rest s1 ⟨hrest, hw⟩
        refine .pure ⟨forall_mem_cons.mpr ⟨hb, hrest⟩, ?_⟩
        simpa using (hb' s).add hw
      · refine Ends.bind hflush id ?_
        rintro done s1 ⟨hdone, hw1⟩
        have hmax1 := hw1.blockMaxDataSz ▸ hmax
        have hroom := hw1.room h
        have hroom' : Room dst (liveBlocks src [] + liveBlocks src bs) lim
            s1 := by
          simpa [hstay] using hroom
        refine Ends.bind (ih hmax1 (hg' s1) hbs hroom') id ?_
        rintro rest s2 ⟨hrest, hw2⟩
        refine .pure ⟨forall_mem_append.mpr ⟨hdone, forall_mem_cons.mpr ⟨hb, hrest⟩⟩, ?_⟩
        simpa using hw1.add ((hb' s1).add hw2)

/-! ## Entries -/

/-- Where no file has a block the largest size of one does not matter: a file
system is formatted before that size is set. -/
theorem wp_gcInode {e : InodeLoc} (hne : src ≠ dst)
    (hmax : e.blocks ≠ [] → s.blockMaxDataSz ≤ blockMaxDataSzMax) (hok : e.Ok)
    (h : Room dst (e.live src) lim s) : Wp (gcInode src dst e)
      (Ends lim fun e' s' => e'.Ok ∧ (e.blocks = [] → e'.blocks = []) ∧
        Walked src dst (e.live ·) (e'.live ·) s s') s := by
  have hgather : ∀ s', Gathered src s' [] false := fun s' =>
    ⟨by simp, by simp, by simp⟩
  -- The blocks, once the record of the inode is where it belongs.
  have hblocks : ∀ s1 idx, Walked src dst
      (fun i => if e.areaIdx = i then sizeofDiskInode + e.niFilenameLen else 0)
      (fun i => if idx = i then sizeofDiskInode + e.niFilenameLen else 0) s s1 → Wp (do
          let blocks ← nffsGcInodeBlocks src dst [] 0 false e.blocks
          return (⟨idx, e.niFilenameLen, blocks⟩ : InodeLoc))
        (Ends lim fun e' s' => e'.Ok ∧ (e.blocks = [] → e'.blocks = []) ∧
          Walked src dst (e.live ·) (e'.live ·) s s') s1 := by
    intro s1 idx hw
    by_cases hnil : e.blocks = []
    · rw [hnil]
      refine .bind (.pure (.pure ⟨⟨hok.1, by simp⟩, fun _ => rfl, ?_⟩))
      simpa [InodeLoc.live, hnil] using hw
    have hroom : Room dst (liveBlocks src [] + liveBlocks src e.blocks) lim s1 := by
      rw [liveBlocks_nil, zero_add]
      exact hw.room h
    refine Ends.bind (wp_nffsGcInodeBlocks hne (hw.blockMaxDataSz ▸ hmax hnil)
      (hgather s1) hok.2 hroom) id ?_
    rintro blocks s2 ⟨hbs, hw2⟩
    refine .pure ⟨⟨hok.1, hbs⟩, fun h => absurd h hnil, ?_⟩
    have hall := hw.add hw2
    simp only [liveBlocks_nil, zero_add] at hall
    exact hall
  unfold gcInode
  by_cases hsrc : e.areaIdx = src
  · rw [if_pos hsrc]
    have hlen : sizeofDiskInode + e.niFilenameLen < 2 ^ 16 := by
      have := hok.1
      simp only [sizeofDiskInode]
      omega
    have hlive : sizeofDiskInode + e.niFilenameLen ≤ e.live src := by
      rw [InodeLoc.live, if_pos hsrc]
      exact Nat.le_add_right _ _
    unfold nffsGcCopyInode
    rw [u16_eq hlen]
    refine .bind (Ends.bind (wp_nffsGcCopyObject
      (by rw [sizeofDiskInode]; omega) (h.mono hlive)) id ?_)
    rintro _ _ rfl
    refine .pure (hblocks _ dst ⟨_, ⟨?_, ?_, ?_, ?_⟩, s.malloc, rfl⟩)
    · simp [hsrc, hne]
    · simp [Ne.symm hne]
    · intro i hs hd
      simp [hsrc, Ne.symm hs, Ne.symm hd]
    · simp [hsrc]
  · rw [if_neg hsrc]
    exact .bind (.pure (hblocks s e.areaIdx (Walked.stay (if_neg hsrc))))

theorem wp_gcInodes {es : List InodeLoc} (hne : src ≠ dst)
    (hmax : s.blockMaxDataSz ≤ blockMaxDataSzMax ∨ ∀ e ∈ es, e.blocks = [])
    (hok : ∀ e ∈ es, e.Ok) (h : Room dst (liveInodes src es) lim s) : Wp (gcInodes src dst es)
      (Ends lim fun es' s' => (∀ e ∈ es', e.Ok) ∧
        ((∀ e ∈ es, e.blocks = []) → ∀ e ∈ es', e.blocks = []) ∧
        Walked src dst (liveInodes · es) (liveInodes · es') s s') s := by
  induction es generalizing s with
  | nil => exact .pure ⟨by simp, by simp, Walked.stay rfl⟩
  | cons e es ih =>
    have hmaxe : e.blocks ≠ [] → s.blockMaxDataSz ≤ blockMaxDataSzMax :=
      fun hb => hmax.resolve_right fun hall => hb (hall e (by simp))
    refine Ends.bind (wp_gcInode hne hmaxe (hok e (by simp)) (h.mono (Nat.le_add_right _ _))) id ?_
    rintro e' s1 ⟨he', hnil1, hw1⟩
    have hmaxs : s1.blockMaxDataSz ≤ blockMaxDataSzMax ∨ ∀ c ∈ es, c.blocks = [] := by
      rw [hw1.blockMaxDataSz]
      exact hmax.imp_right fun hall c hc => hall c (by simp [hc])
    refine Ends.bind (ih hmaxs (fun c hc => hok c (by simp [hc])) (hw1.room h)) id ?_
    rintro es' s2 ⟨hes', hnil2, hw2⟩
    refine .pure ⟨forall_mem_cons.mpr ⟨he', hes'⟩, ?_, hw1.add hw2⟩
    intro hall
    obtain ⟨hall1, hall2⟩ := forall_mem_cons.mp hall
    exact forall_mem_cons.mpr ⟨hnil1 hall1, hnil2 hall2⟩

end Inodes

end Flash

end Larva.Nffs
