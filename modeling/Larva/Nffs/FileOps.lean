import Larva.Nffs.Append

/-!
# Writing, seeking and reading through a handle

A write is cut into chunks of the largest block size, and each chunk is either
appended or written over blocks that exist. A chunk that lies inside the file
leaves its size and the start of its last block alone; one that ends where the
file ends leaves no cached length out of date, so that the next chunk may be
appended. The chunk that goes past the end of the file is the one to watch:
whatever follows it in the same write is appended to a block whose cached
length is out of date. `Fits` says that nothing follows it, or that a single
cache block makes it harmless.
-/

namespace Larva.Nffs

open Larva.Crash Function List

/-! ## Splicing -/

/-- The bytes of `C` with `d` written at offset `o`. -/
def splice (C : List UInt8) (o : Nat) (d : List UInt8) : List UInt8 :=
  C.take o ++ d ++ C.drop (o + d.length)

@[simp] theorem splice_nil (C : List UInt8) (o : Nat) : splice C o [] = C := by
  simp [splice]

theorem splice_length {C d : List UInt8} {o : Nat} (h : o ≤ C.length) :
    (splice C o d).length = max C.length (o + d.length) := by
  simp only [splice, length_append, length_take, length_drop]
  omega

/-- At the end of the array. -/
theorem splice_end (C d : List UInt8) : splice C C.length d = C ++ d := by
  simp [splice]

/-- Two writes one behind the other are one write. -/
theorem splice_splice {C : List UInt8} {o : Nat} (d1 d2 : List UInt8) (h : o ≤ C.length) :
    splice (splice C o d1) (o + d1.length) d2 = splice C o (d1 ++ d2) := by
  have hlen : (C.take o ++ d1).length = o + d1.length := by
    rw [length_append, length_take_of_le h]
  have htake : (C.take o ++ d1 ++ C.drop (o + d1.length)).take
      (o + d1.length) = C.take o ++ d1 := take_left' hlen
  have hdrop : (C.take o ++ d1 ++ C.drop (o + d1.length)).drop
      (o + d1.length + d2.length) = C.drop (o + (d1 ++ d2).length) := by
    rw [← hlen, drop_length_add_append, drop_drop, hlen]
    congr 1
    simp only [length_append]
    omega
  unfold splice
  rw [htake, hdrop, append_assoc (C.take o)]

/-! ## One chunk -/

/-- The size of every file. -/
def sizes (R : Nat → List Link) (g : Nat) : Nat := chainSize (R g)

theorem sizes_update (R : Nat → List Link) (f : Nat) (T : List Link) :
    update (sizes R) f (chainSize T) = sizes (update R f T) := by
  funext g
  by_cases hg : g = f
  · subst hg
    simp [sizes]
  · simp [sizes, hg]

/-- What a write to file `f` leaves, when its bytes are to be `C`. -/
structure Written (s : St) (R : Nat → List Link) (f : Nat) (C : List UInt8)
    (s' : St) (R' : Nat → List Link) : Prop where
  wf : Wf s' R' (sizes R')
  frame : Frame s s'
  other : ∀ g, g ≠ f → R' g = R g
  bytes : chainBytes (R' f) = C
  cached : ∃ c ∈ s'.cacheInodes, c.nciInodeEntry = f

section Chunk

variable {s : St} {R : Nat → List Link} {f a : Nat} {d : List UInt8} {c : CacheInode}

/-- The size that is recorded. -/
theorem Wf.fileSize (h : Wf s R (sizes R)) (hc : c ∈ s.cacheInodes) (hid : c.nciInodeEntry = f) :
    c.nciFileSize = chainSize (R f) := by
  rw [(h.cached c hc).size, hid]
  rfl

/-- The two ways to write a chunk. Past it, no cached length is out of date if
the chunk began or ended where the file ended. -/
theorem wp_nffsWriteChunk (h : Wf s R (sizes R)) (ht : 0 < s.cacheBlockTotal)
    (hc : c ∈ s.cacheInodes) (hid : c.nciInodeEntry = f) (ha : a ≤ chainSize (R f)) (hd0 : d ≠ [])
    (hd : d.length ≤ s.blockMaxDataSz) (hend : a = chainSize (R f) → SnugAt s R f ∨ s.evicts f)
    (hpast : a < chainSize (R f) → chainSize (R f) < a + d.length →
      a + d.length - chainSize (R f).tail ≤ maxBlockLen)
    {Q : Post St FsErr Unit} (herr : ∀ e s', e.IsFull → Q.err e s')
    (hok : ∀ s' R', Written s R f (splice (chainBytes (R f)) a d) s' R' →
      (a = chainSize (R f) ∨ a + d.length = chainSize (R f) → SnugAt s' R' f) →
      (a + d.length ≤ chainSize (R f) →
        chainSize (R' f).tail = chainSize (R f).tail) → Q.ok () s') :
    Wp (nffsWriteChunk f a d) Q s := by
  have hlive := h.file hc hid
  have hle := h.chainSize_le hlive
  have hmax := h.maxSz.2
  have hM : maxBlockLen = 65511 := rfl
  have hpos : 0 < d.length := length_pos_iff.mpr hd0
  have hsize := h.fileSize hc hid
  refine .bind (.get (.bind (.assert (by simpa using hd) ?_)))
  refine .bind (wp_cacheInode h.cacheIds hc hid ?_)
  simp only [hsize]
  by_cases happ : a = chainSize (R f)
  · simp only [happ, if_true]
    refine wp_nffsWriteAppend h ht hc hid rfl hd0 (by omega) (hend happ) herr ?_
    intro x s' hx hwf hfr hsn hex
    rw [sizes_update] at hwf
    refine hok s' _ ⟨hwf, hfr, fun g hg => update_of_ne hg _ _, ?_,
      hex⟩ (fun _ => hsn) (fun hle => by omega)
    rw [update_self, happ, ← chainBytes_length, splice_end, chainBytes, hx]
  simp only [happ, if_false]
  have hu : u32 (a + d.length) = a + d.length := u32_eq (by omega)
  have hfuel : (R f).length < s.numBlockIds + s.flashSize + 1 := by
    have := (h.isChain hlive).length_le h.minId
    unfold St.numBlockIds
    omega
  simp only [hu]
  have hlast : ∀ x T, R f = x :: T → chainSize (R f) < a + d.length →
      a + d.length - chainSize T ≤ maxBlockLen := by
    intro x T hR hlt
    have := hpast (by omega) hlt
    rwa [hR] at this
  refine .bind (wp_nffsWriteChunkLoop h ht hc hid rfl (by omega) hd0
    (by omega) hlast hfuel (fun s' => herr _ s' (.inl rfl)) ?_)
  rintro s' ⟨R', hwf, hfr, hother, hbytes, htail, hsnug, c', hc', hid'⟩
  refine .bind (wp_cacheInode hwf.cacheIds hc' hid' ?_)
  refine .modify ?_
  -- The size that is recorded is the size the file now has.
  have hnew : u32 (c'.nciFileSize + (if a + d.length > chainSize (R f) then
      a + d.length - chainSize (R f) else 0)) = chainSize (R' f) := by
    have hb := congrArg length hbytes
    rw [chainBytes_length] at hb
    have hsp := splice_length (d := d) (o := a) (by rw [chainBytes_length]; omega)
    rw [chainBytes_length] at hsp
    have hc's : c'.nciFileSize = chainSize (R f) := by
      rw [(hwf.cached c' hc').size, hid']
      rfl
    rw [hc's, hb, show (chainBytes (R f)).take a ++ d ++ (chainBytes (R f)).drop _ =
        splice _ a d from rfl, hsp]
    split
    · rw [u32_eq (by omega)]
      omega
    · rw [u32_eq (by omega)]
      omega
  rw [hnew]
  have hwf' := hwf.resize (f := f) (chainSize (R' f))
  have hz : update (sizes R) f (chainSize (R' f)) = sizes R' := by
    rw [sizes_update]
    congr 1
    funext g
    by_cases hg : g = f
    · subst hg
      simp
    · rw [update_of_ne hg, hother g hg]
  rw [hz] at hwf'
  refine hok _ R' ⟨hwf', hfr.trans (Recached.resize _ _ _).frame, hother,
    hbytes, setFileSize _ c',
    mem_map.mpr ⟨c', hc', if_pos hid'⟩, hid'⟩ ?_ (fun _ => htail)
  rintro (he | he)
  · exact absurd he happ
  · exact (hsnug he).resize _

end Chunk

/-! ## A whole write -/

/-- The end of the chunk in which a write of `n` bytes at `o` reaches the end
of a file of the given size. -/
def chunkEnd (M size o n : Nat) : Nat := o + min n (((size - o) / M + 1) * M)

/-- A write that begins before the end of the file and does not put its chunks
exactly up to it: the chunk that goes past the end must be the last one, unless
there is but one cache block, and the block it extends must not get too
long. -/
def Fits (M total : Nat) (T : List Link) (o n : Nat) : Prop :=
  o < chainSize T → chainSize T < o + n → (chainSize T - o) % M ≠ 0 →
    (chunkEnd M (chainSize T) o n = o + n ∨ total = 1) ∧
      chunkEnd M (chainSize T) o n - chainSize T.tail ≤ maxBlockLen

instance (M total : Nat) (T : List Link) (o n : Nat) :
    Decidable (Fits M total T o n) :=
  inferInstanceAs (Decidable (_ → _ → _ → _))

/-- What is left to write after a chunk that stayed inside the file. -/
theorem Fits.step {M total o n : Nat} {T T' : List Link}
    (h : Fits M total T o n) (hM : 0 < M) (hsz : chainSize T' = chainSize T)
    (htail : chainSize T'.tail = chainSize T.tail) (hle : o + M ≤ chainSize T) (hn : M < n) :
    Fits M total T' (o + M) (n - M) := by
  intro h1 h2 h3
  rw [hsz] at h1 h2 h3 ⊢
  have hsub : chainSize T - o = chainSize T - (o + M) + M := by omega
  have hmod : (chainSize T - o) % M = (chainSize T - (o + M)) % M := by
    rw [hsub, Nat.add_mod_right]
  have hdiv : (chainSize T - o) / M = (chainSize T - (o + M)) / M + 1 := by
    rw [hsub, Nat.add_div_right _ hM]
  have hend : chunkEnd M (chainSize T) (o + M) (n - M) = chunkEnd M (chainSize T) o n := by
    unfold chunkEnd
    rw [hdiv]
    have : ((chainSize T - (o + M)) / M + 1 + 1) * M =
        ((chainSize T - (o + M)) / M + 1) * M + M := by
      rw [add_mul _ 1 M, one_mul]
    omega
  obtain ⟨h4, h5⟩ := h (by omega) (by omega) (by rw [hmod]; exact h3)
  rw [hend, htail]
  refine ⟨h4.imp_left fun h4 => ?_, h5⟩
  omega

/-- The chunk that goes past the end of the file. -/
theorem Fits.past {M total o n : Nat} {T : List Link}
    (h : Fits M total T o n) (h1 : o < chainSize T) (h2 : chainSize T < o + min n M) :
    (n ≤ M ∨ total = 1) ∧ o + min n M - chainSize T.tail ≤ maxBlockLen := by
  have hmod : (chainSize T - o) % M = chainSize T - o :=
    Nat.mod_eq_of_lt (by omega)
  have hdiv : (chainSize T - o) / M = 0 := Nat.div_eq_of_lt (by omega)
  have hend : chunkEnd M (chainSize T) o n = o + min n M := by
    unfold chunkEnd
    rw [hdiv, zero_add, one_mul]
  obtain ⟨h4, h5⟩ := h h1 (by omega) (by omega)
  rw [hend] at h4 h5
  exact ⟨h4.imp_left fun h4 => by omega, h5⟩

/-- A state in which a handle has another offset. -/
def St.setOffset (s : St) (h : Nat) (fl : File) (o : Nat) : St :=
  { s with files := fun i => if i = h then some { fl with nfOffset := o }
      else s.files i }

section Offsets

variable {s s' : St} {h o o' : Nat} {fl : File}

theorem setOffset_congr (hs : s'.files = s.files) :
    (s'.setOffset h fl o).files = (s.setOffset h fl o).files := by
  rw [St.setOffset, St.setOffset, hs]

theorem setOffset_again : ((s.setOffset h fl o).setOffset h fl o').files =
    (s.setOffset h fl o').files := by
  funext i
  by_cases hi : i = h
  · simp [St.setOffset, hi]
  · simp [St.setOffset, hi]

theorem setOffset_self (hh : s.files h = some { fl with nfOffset := o }) :
    s.setOffset h fl o = s := by
  have hfiles : (s.setOffset h fl o).files = s.files := by
    funext i
    by_cases hi : i = h
    · simp [St.setOffset, hi, hh]
    · simp [St.setOffset, hi]
  calc s.setOffset h fl o = { s with files := (s.setOffset h fl o).files } := rfl
    _ = s := by rw [hfiles]

end Offsets

theorem Wf.setOffset {s : St} {R : Nat → List Link} {z : Nat → Nat} {h o : Nat}
    {fl : File} (hw : Wf s R z) (hlive : s.HasFile fl.nfInodeEntry) :
    Wf (s.setOffset h fl o) R z := by
  refine { hw with handles := ?_ }
  intro i fl' hi
  by_cases hih : i = h
  · simp only [St.setOffset, hih, if_true, Option.some.injEq] at hi
    rw [← hi]
    exact hlive
  · simp only [St.setOffset, hih, if_false] at hi
    exact hw.handles i fl' hi

/-- What an operation on a handle of file `f` leaves: `C` in the file, and the
handle at offset `o`. -/
structure Moved (s : St) (R : Nat → List Link) (h : Nat) (fl : File)
    (C : List UInt8) (o : Nat) (s' : St) (R' : Nat → List Link) : Prop where
  wf : Wf s' R' (sizes R')
  files : s'.files = (s.setOffset h fl o).files
  live : ∀ g, (s'.inodes g).isSome = (s.inodes g).isSome
  total : s'.cacheBlockTotal = s.cacheBlockTotal
  other : ∀ g, g ≠ fl.nfInodeEntry → R' g = R g
  bytes : chainBytes (R' fl.nfInodeEntry) = C
  inodes : 0 < s'.cacheInodeTotal

section WriteToFile

variable {h : Nat} {fl : File} {s : St} {R : Nat → List Link} {Q : Post St FsErr Unit}

theorem wp_nffsWriteToFileLoop {fuel : Nat} :
    ∀ {s : St} {R : Nat → List Link} {o : Nat} {d : List UInt8}
      {c : CacheInode} {Q : Post St FsErr Unit}, Wf s R (sizes R) →
      0 < s.cacheBlockTotal → c ∈ s.cacheInodes → c.nciInodeEntry = fl.nfInodeEntry →
      s.files h = some { fl with nfOffset := o } →
      o ≤ chainSize (R fl.nfInodeEntry) → d.length < fuel →
      (d ≠ [] → o = chainSize (R fl.nfInodeEntry) →
        SnugAt s R fl.nfInodeEntry ∨ s.evicts fl.nfInodeEntry) →
      Fits s.blockMaxDataSz s.cacheBlockTotal (R fl.nfInodeEntry) o d.length →
      (∀ e s', e.IsFull → Q.err e s') →
      (∀ s' R', Moved s R h fl (splice (chainBytes (R fl.nfInodeEntry)) o d)
        (o + d.length) s' R' → Q.ok () s') → Wp (nffsWriteToFileLoop h fuel d) Q s := by
  induction fuel with
  | zero =>
    intro s R o d c Q _ _ _ _ _ _ hfuel
    exact absurd hfuel (Nat.not_lt_zero _)
  | succ n ih =>
    intro s R o d c Q hw ht hc hid hh ho hfuel hend hfits herr hok
    unfold nffsWriteToFileLoop
    by_cases hd : d = []
    · subst hd
      exact .pure (hok s R ⟨hw, congrArg St.files (setOffset_self hh).symm, fun _ => rfl, rfl,
        fun _ _ => rfl, (splice_nil _ _).symm, cacheInodeTotal_pos hc⟩)
    have hne : d.isEmpty = false := by simpa using hd
    simp only [hne]
    refine .bind (.get ?_)
    obtain ⟨hM0, hM1⟩ := hw.maxSz
    have hMv : maxBlockLen = 65511 := rfl
    have hpos : 0 < d.length := length_pos_iff.mpr hd
    dsimp only
    set m := min d.length s.blockMaxDataSz with hm
    have hk : u16 m = m := u16_eq (by omega)
    simp only [hk]
    refine .bind (.bind (.get ?_))
    simp only [hh]
    refine .pure ?_
    have htl : (d.take m).length = m := by
      rw [length_take]
      omega
    have htne : d.take m ≠ [] := by
      intro he
      rw [he, length_nil] at htl
      omega
    have hlive := hw.file hc hid
    have hle := hw.chainSize_le hlive
    refine .bind (wp_nffsWriteChunk hw ht hc hid ho htne (by omega) (hend hd) ?_ herr ?_)
    · intro h1 h2
      rw [htl] at h2 ⊢
      exact (hfits.past h1 h2).2
    intro s' R' hwr hsnug htail
    rw [htl] at hsnug htail
    obtain ⟨c', hc', hid'⟩ := hwr.cached
    have hbytes := congrArg length hwr.bytes
    rw [splice_length (by rw [chainBytes_length]; exact ho), chainBytes_length,
      chainBytes_length, htl] at hbytes
    have hu : u32 (o + m) = o + m := u32_eq (by omega)
    simp only [hu]
    refine .bind (.modify ?_)
    show Wp _ Q (s'.setOffset h fl (o + m))
    have hw' := hwr.wf.setOffset (h := h) (o := o + m) (hwr.frame.file hlive)
    have ht' : 0 < s'.cacheBlockTotal := by
      rw [hwr.frame.total]
      exact ht
    refine ih (o := o + m) hw' ht' hc' hid' (by simp [St.setOffset])
      (by omega) (by rw [length_drop]; omega) ?_ ?_ herr ?_
    · intro hdne heq
      have hmore : s.blockMaxDataSz < d.length := by
        by_contra hle'
        exact hdne (drop_eq_nil_of_le (by omega))
      -- Either the chunk ended where the file did, or it was the first to go
      -- past that, with a single cache block.
      by_cases hin : o = chainSize (R fl.nfInodeEntry) ∨ o + m = chainSize (R fl.nfInodeEntry)
      · exact .inl (hsnug hin)
      · have hpast := hfits.past (by omega) (by omega)
        refine hw'.snug_or_evicts hc' hid' ?_
        show s'.cacheBlockTotal = 1
        rw [hwr.frame.total]
        exact hpast.1.resolve_left (by omega)
    · have hsame : (s'.setOffset h fl (o + m)).blockMaxDataSz = s.blockMaxDataSz :=
        hwr.frame.maxSz
      have htot : (s'.setOffset h fl (o + m)).cacheBlockTotal = s.cacheBlockTotal :=
        hwr.frame.total
      rw [hsame, htot, length_drop]
      by_cases hin : o + s.blockMaxDataSz ≤ chainSize (R fl.nfInodeEntry) ∧
          s.blockMaxDataSz < d.length
      · have hmin : m = s.blockMaxDataSz := by omega
        rw [hmin] at htail hbytes ⊢
        exact hfits.step hM0 (by omega) (htail hin.1) hin.1 hin.2
      · intro h1 h2
        omega
    · intro s'' R'' hm
      refine hok s'' R'' ⟨hm.wf, ?_, ?_, hm.total.trans hwr.frame.total, ?_, ?_, hm.inodes⟩
      · rw [hm.files, setOffset_again, setOffset_congr hwr.frame.files, length_drop]
        congr 2
        omega
      · intro g
        rw [hm.live]
        exact hwr.frame.live g
      · intro g hg
        rw [hm.other g hg, hwr.other g hg]
      · rw [hm.bytes, hwr.bytes]
        have := splice_splice (o := o) (d.take m) (d.drop m) (by rw [chainBytes_length]; exact ho)
        rw [htl, take_append_drop] at this
        exact this

/-- Where a write begins. -/
def writeOffset (fl : File) (size : Nat) : Nat :=
  if fl.nfAccessFlags &&& accessAppend ≠ 0 then size else fl.nfOffset

theorem writeOffset_le {n : Nat} (h : fl.nfOffset ≤ n) : writeOffset fl n ≤ n := by
  unfold writeOffset
  split
  · exact le_refl _
  · exact h

section

variable (hw : Wf s R (sizes R)) (hi : 0 < s.cacheInodeTotal)
include hw hi

theorem wp_nffsWriteToFile {d : List UInt8} (ht : 0 < s.cacheBlockTotal) (hh : s.files h = some fl)
    (ho : fl.nfOffset ≤ chainSize (R fl.nfInodeEntry))
    (hsafe : fl.nfAccessFlags &&& accessWrite ≠ 0 → d ≠ [] →
      (writeOffset fl (chainSize (R fl.nfInodeEntry)) = chainSize (R fl.nfInodeEntry) →
        SnugAt s R fl.nfInodeEntry ∨ s.evicts fl.nfInodeEntry) ∧
      Fits s.blockMaxDataSz s.cacheBlockTotal (R fl.nfInodeEntry)
        (writeOffset fl (chainSize (R fl.nfInodeEntry))) d.length)
    (herr : ∀ e s', e.IsFull → Q.err e s')
    (hacc : fl.nfAccessFlags &&& accessWrite = 0 → Q.err .eaccess s)
    (hnil : fl.nfAccessFlags &&& accessWrite ≠ 0 → d = [] → Q.ok () s)
    (hok : fl.nfAccessFlags &&& accessWrite ≠ 0 → d ≠ [] →
      ∀ s' R', Moved s R h fl (splice (chainBytes (R fl.nfInodeEntry))
        (writeOffset fl (chainSize (R fl.nfInodeEntry))) d)
        (writeOffset fl (chainSize (R fl.nfInodeEntry)) + d.length) s' R' → Q.ok () s') :
    Wp (nffsWriteToFile h d) Q s := by
  have hlive : s.HasFile fl.nfInodeEntry := hw.handles h fl hh
  refine .bind (.bind (.get ?_))
  simp only [hh]
  refine .pure ?_
  by_cases hwr : fl.nfAccessFlags &&& accessWrite = 0
  · simp only [hwr, if_true]
    exact .fail (hacc hwr)
  simp only [hwr, if_false]
  by_cases hd : d = []
  · subst hd
    exact .pure (hnil hwr rfl)
  have hne : d.isEmpty = false := by simpa using hd
  simp only [hne]
  obtain ⟨hend, hfits⟩ := hsafe hwr hd
  refine .bind (wp_nffsCacheInodeEnsure hw hi hlive rfl ?_)
  intro c s' hw' hs hc hid hsame
  have hfr := hs.frame
  have ht' : 0 < s'.cacheBlockTotal := by
    rw [hs.total]
    exact ht
  have hend' : writeOffset fl (chainSize (R fl.nfInodeEntry)) = chainSize (R fl.nfInodeEntry) →
      SnugAt s' R fl.nfInodeEntry ∨ s'.evicts fl.nfInodeEntry := by
    rcases hsame with rfl | hnone
    · exact hend
    · intro _
      refine .inl fun d hd hdid cb hcb => ?_
      rw [hw'.eq_of_id hc hd (hdid.trans hid.symm), hnone] at hcb
      cases hcb
  rw [← hfr.maxSz, ← hfr.total] at hfits
  refine .bind (wp_cacheInode hw'.cacheIds hc hid ?_)
  have hsize := hw'.fileSize hc hid
  -- The loop, in the state where the handle is at the offset of the write.
  have hloop : Wp (nffsWriteToFileLoop h (d.length + 1) d) Q (s'.setOffset h fl
      (writeOffset fl (chainSize (R fl.nfInodeEntry)))) := by
    refine wp_nffsWriteToFileLoop (hw'.setOffset (hfr.file hlive)) ht' hc hid
      (by simp [St.setOffset]) ?_ (Nat.lt_succ_self _) (fun _ => hend') hfits herr ?_
    · exact writeOffset_le ho
    · intro s'' R'' hm
      refine hok hwr hd s'' R'' { hm with
        files := ?_, live := fun g => (hm.live g).trans (hfr.live g),
        total := hm.total.trans hfr.total }
      rw [hm.files, setOffset_again, setOffset_congr hfr.files]
  simp only [hsize]
  by_cases happ : fl.nfAccessFlags &&& accessAppend ≠ 0
  · rw [if_pos happ]
    refine .bind (.modify ?_)
    unfold writeOffset at hloop
    rw [if_pos happ] at hloop
    exact hloop
  · rw [if_neg happ]
    unfold writeOffset at hloop
    rw [if_neg happ] at hloop
    rw [setOffset_self (by rw [hfr.files, hh])] at hloop
    exact hloop

theorem wp_nffsFileSeek {o : Nat} (hh : s.files h = some fl)
    (herr : chainSize (R fl.nfInodeEntry) < o → ∀ s', Wf s' R (sizes R) →
      Recached s s' → 0 < s'.cacheInodeTotal → Q.err .erange s')
    (hok : o ≤ chainSize (R fl.nfInodeEntry) → ∀ s',
      Moved s R h fl (chainBytes (R fl.nfInodeEntry)) o s' R → Q.ok () s') :
    Wp (nffsFileSeek h o) Q s := by
  have hlive : s.HasFile fl.nfInodeEntry := hw.handles h fl hh
  refine .bind (.bind (.get ?_))
  simp only [hh]
  refine .pure (.bind ?_)
  refine .bind (wp_nffsCacheInodeEnsure hw hi hlive rfl ?_)
  intro c s' hw' hs hc hid _
  refine .bind (wp_cacheInode hw'.cacheIds hc hid (.pure ?_))
  have hsize := hw'.fileSize hc hid
  have hfr := hs.frame
  simp only [hsize]
  by_cases hgt : o > chainSize (R fl.nfInodeEntry)
  · rw [if_pos hgt]
    exact .fail (herr hgt s' hw' hs (cacheInodeTotal_pos hc))
  · rw [if_neg hgt]
    exact .modify (hok (by omega) _ ⟨hw'.setOffset (hfr.file hlive), setOffset_congr hfr.files,
      hfr.live, hfr.total, fun _ _ => rfl, rfl, cacheInodeTotal_pos hc⟩)

theorem wp_nffsFileRead {len : Nat} (ht : 0 < s.cacheBlockTotal) (hh : s.files h = some fl)
    (ho : fl.nfOffset ≤ chainSize (R fl.nfInodeEntry)) (hlen : fl.nfOffset + len < 2 ^ 32)
    {Q : Post St FsErr (List UInt8)} (hacc : fl.nfAccessFlags &&& accessRead = 0 → Q.err .eaccess s)
    (hok : fl.nfAccessFlags &&& accessRead ≠ 0 → ∀ s',
      Moved s R h fl (chainBytes (R fl.nfInodeEntry)) (fl.nfOffset +
        (((chainBytes (R fl.nfInodeEntry)).drop fl.nfOffset).take len).length) s' R →
      Q.ok (((chainBytes (R fl.nfInodeEntry)).drop fl.nfOffset).take len) s') :
    Wp (nffsFileRead h len) Q s := by
  have hlive : s.HasFile fl.nfInodeEntry := hw.handles h fl hh
  refine .bind (.bind (.get ?_))
  simp only [hh]
  refine .pure ?_
  by_cases hrd : fl.nfAccessFlags &&& accessRead = 0
  · simp only [hrd, if_true]
    exact .fail (hacc hrd)
  simp only [hrd, if_false]
  refine .bind (wp_nffsInodeRead hw hi ht hlive rfl ho hlen ?_)
  intro s' hw' hs hi'
  have hfr := hs.frame
  have hu : ∀ n ≤ len, u32 (fl.nfOffset + n) = fl.nfOffset + n := fun n hn => u32_eq (by omega)
  simp only [hu _ (length_take_le ..)]
  exact .bind (.modify (.pure (hok hrd _ ⟨hw'.setOffset (hfr.file hlive),
    setOffset_congr hfr.files, hfr.live, hfr.total, fun _ _ => rfl, rfl, hi'⟩)))

end

end WriteToFile

end Larva.Nffs
