import Larva.Nffs.Children
import Larva.Nffs.Space

/-!
# Unlinking

An unlink writes a deletion record, takes the inode out of its parent's list
and drops what is below it: directories go away, and a file loses one
reference, and goes away with its blocks when that was the last.

The directories still to be taken apart are a list that the loop both eats
from and adds to. `Hanging` says what holds at every turn: each directory, in
the table or on the list, has its child list, no entry is in two of these, and
a directory that was taken off has none any more. An entry is dropped when it
is in no child list, so the lists that are left do not notice.

How many turns the loops take plays no part: what is shown is about the runs
that end.
-/

namespace Larva.Nffs

open Larva.Crash Larva.SList Function List

/-! ## The blocks of a file -/

def InodeEntry.setLast (b : Option Nat) (e : InodeEntry) : InodeEntry :=
  { e with nieLastBlockEntry := b }

/-- The state without the last block of a file. -/
def St.popBlock (s : St) (f b : Nat) (prev : Option Nat) : St :=
  { s.mapInode f (InodeEntry.setLast prev) with
    blocks := fun k => if k = b then none else s.blocks k
    blockPool := s.blockPool + 1 }

section Blocks

variable {s s' : St} {R : Nat → List Link} {f : Nat} {x : Link} {T : List Link}
  {Q : Post St FsErr Unit}

/-- Files that were there before keep their chains when the blocks of these
stay. -/
theorem Chained.of_old (h : Chained s R) (hold : ∀ f e', s'.inodes f = some e' →
      ∃ e, s.inodes f = some e ∧ e'.nieLastBlockEntry = e.nieLastBlockEntry)
    (hblocks : ∀ f x, (s'.inodes f).isSome → hashIdIsFile f = true → x ∈ R f →
      s'.blocks x.1 = s.blocks x.1) (hid : s'.nextBlockId = s.nextBlockId) : Chained s' R := by
  have hlive : ∀ f, (s'.inodes f).isSome → (s.inodes f).isSome := by
    intro f hf
    obtain ⟨e', he'⟩ := Option.isSome_iff_exists.mp hf
    obtain ⟨e, he, -⟩ := hold f e' he'
    simp [he]
  refine ⟨hid ▸ h.minId, hid ▸ h.maxId, fun f e' he' hf => ?_, fun f hf hfile => ?_,
    fun f hf => h.size f (hlive f hf)⟩
  · obtain ⟨e, he, hlast⟩ := hold f e' he'
    exact hlast.trans (h.last f e he hf)
  · rw [hid]
    exact (h.chain f (hlive f hf) hfile).congr fun x hx => hblocks f x hf hfile hx

/-- The blocks of a chain name its file. -/
theorem Chained.block (h : Chained s R) (hf : s.HasFile f)
    (hx : x ∈ R f) : s.blocks x.1 = some x.2 ∧ x.2.ndbInodeId = f := by
  obtain ⟨A, B, hAB⟩ := append_of_mem hx
  obtain ⟨-, -, hb, hin, -⟩ := h.at hf hAB
  exact ⟨hb, hin⟩

theorem St.popBlock_isSome {g b : Nat} {p : Option Nat} :
    ((s.popBlock f b p).inodes g).isSome = (s.inodes g).isSome :=
  St.mapInode_isSome

section

variable (h : Chained s R) (hf : s.HasFile f)
include h hf

theorem Chained.popBlock (hR : R f = x :: T) :
    Chained (s.popBlock f x.1 (ptr T)) (update R f T) := by
  have hch := h.isChain hf
  rw [hR] at hch
  obtain ⟨hlt, -, hb, hin, -, -, -, hrest⟩ := hch
  refine ⟨h.minId, h.maxId, fun g e hg hgf => ?_, fun g hg hgf => ?_, fun g hg hgf => ?_⟩
  · change (s.mapInode f (InodeEntry.setLast (ptr T))).inodes g = some e at hg
    by_cases hgf' : g = f
    · subst hgf'
      obtain ⟨e0, he0⟩ := Option.isSome_iff_exists.mp hf.1
      rw [St.mapInode_self, he0] at hg
      cases hg
      rw [update_self]
      rfl
    · rw [St.mapInode_of_ne hgf'] at hg
      rw [update_of_ne hgf']
      exact h.last g e hg hgf
  · rw [St.popBlock_isSome] at hg
    by_cases hgf' : g = f
    · subst hgf'
      rw [update_self]
      refine (hrest.mono (le_of_lt hlt)).congr fun y hy => if_neg ?_
      have := hrest.lt_of_mem hy
      omega
    · rw [update_of_ne hgf']
      refine (h.chain g hg hgf).congr fun y hy => if_neg fun he => hgf' ?_
      obtain ⟨hyb, hyin⟩ := h.block ⟨hg, hgf⟩ hy
      rw [he] at hyb
      have hxy : y.2 = x.2 := Option.some.inj (hyb.symm.trans hb)
      rw [← hyin, hxy, hin]
  · rw [St.popBlock_isSome] at hg
    have hsize := h.size g hg hgf
    by_cases hgf' : g = f
    · subst hgf'
      rw [hR, chainSize] at hsize
      rw [update_self]
      omega
    · rwa [update_of_ne hgf']

theorem Chained.last_entry : ∃ e, s.inodes f = some e ∧ e.nieLastBlockEntry = ptr (R f) := by
  obtain ⟨e, he⟩ := Option.isSome_iff_exists.mp hf.1
  exact ⟨e, he, h.last f e he hf.2⟩

theorem wp_nffsBlockDeleteFromRam (hR : R f = x :: T) (hok : Q.ok () (s.popBlock f x.1 (ptr T))) :
    Wp (nffsBlockDeleteFromRam x.1) Q s := by
  obtain ⟨e, he, hlast⟩ := h.last_entry hf
  rw [hR, ptr] at hlast
  refine .bind (wp_nffsBlockFromHashEntry (A := []) h hf hR ?_)
  refine .bind (wp_inodeEntry_some he ?_)
  simp only [hlast, if_true]
  refine .bind (wp_setInode (f := InodeEntry.setLast (ptr T)) he ?_)
  exact .bind (.modify (.modify hok))

end

/-- The blocks of a file go one by one. -/
theorem ends_nffsInodeDeleteBlocksFromRamLoop :
    ∀ {fuel : Nat} {s : St} {R : Nat → List Link}, Chained s R → s.HasFile f →
      (∀ s' R', Chained s' R' → (s' = { s with
          inodes := s'.inodes, blocks := s'.blocks, blockPool := s'.blockPool }) →
        (∀ i, i ≠ f → s'.inodes i = s.inodes i) → Q.ok () s') →
      Ends (nffsInodeDeleteBlocksFromRamLoop f fuel) Q s := by
  intro fuel
  induction fuel with
  | zero => exact fun _ _ _ => .spin
  | succ fuel ih =>
    intro s R h hf hok
    obtain ⟨e, he, hlast⟩ := h.last_entry hf
    refine .bind_wp (wp_inodeEntry_some he ?_)
    cases hR : R f with
    | nil =>
      rw [hR, ptr] at hlast
      simp only [hlast]
      exact (Wp.pure (hok s R h rfl fun _ _ => rfl)).ends
    | cons x T =>
      rw [hR, ptr] at hlast
      simp only [hlast]
      refine .bind_wp (wp_nffsBlockDeleteFromRam h hf hR ?_)
      refine ih (h.popBlock hf hR) ⟨St.popBlock_isSome.trans hf.1, hf.2⟩ fun s' R' hc hs hi => ?_
      refine hok s' R' hc ?_ fun i hne => (hi i hne).trans (St.mapInode_of_ne hne)
      rw [hs]
      rfl

/-- The caches may change in any way. -/
def CacheOnly (s s' : St) : Prop :=
  s' = { s with
    cacheInodes := s'.cacheInodes
    cacheInodePool := s'.cacheInodePool
    cacheBlockPool := s'.cacheBlockPool }

theorem wp_nffsCacheInodeDelete {id : Nat} (hok : ∀ s', CacheOnly s s' → Q.ok () s') :
    Wp (nffsCacheInodeDelete id) Q s := by
  refine .bind (.get ?_)
  cases hfind : s.findCacheInode id with
  | none =>
    simp only [hfind]
    exact .pure (hok s rfl)
  | some c =>
    simp only [hfind]
    exact .modify (hok _ rfl)

end Blocks

/-! ## Dropping inodes -/

def InodeEntry.decRefcnt (e : InodeEntry) : InodeEntry :=
  { e with nieRefcnt := e.nieRefcnt - 1 }

/-- The references that an unlink counts on: one for a directory, and at least
one for a file. -/
def Counted (id : Nat) (e : InodeEntry) : Prop :=
  if hashIdIsFile id then 0 < e.nieRefcnt
  else hashIdIsDir id = true ∧ e.nieRefcnt = 1

/-- All that dropping inodes may change. -/
def TableOnly (s s' : St) : Prop :=
  s' = { s with
    inodes := s'.inodes
    blocks := s'.blocks
    inodePool := s'.inodePool
    blockPool := s'.blockPool
    unlinkList := s'.unlinkList
    cacheInodes := s'.cacheInodes
    cacheInodePool := s'.cacheInodePool
    cacheBlockPool := s'.cacheBlockPool }

/-- An inode is no longer in the table. A directory waits to be taken apart. -/
structure Removed (s s' : St) (c : Nat) : Prop where
  same : TableOnly s s'
  inodes : ∀ i, s'.inodes i = if i = c then none else s.inodes i
  waits : ∃ e, s.inodes c = some e ∧
    s'.unlinkList = (if hashIdIsFile c then [] else [(c, e)]) ++ s.unlinkList
  chained : ∃ R, Chained s' R

section Dropping

variable {s s' s'' : St} {R : Nat → List Link} {c d : Nat} {e : InodeEntry}
  {Q : Post St FsErr Unit}

theorem TableOnly.trans (h : TableOnly s s') (h' : TableOnly s' s'') : TableOnly s s'' := by
  unfold TableOnly at *
  rw [h', h]

theorem TableOnly.mapInode (id : Nat) (f : InodeEntry → InodeEntry) :
    TableOnly s (s.mapInode id f) := rfl

theorem isFile_of_isDir (h : hashIdIsDir d = true) : hashIdIsFile d = false := by
  have hlt : d < idDirMax := of_decide_eq_true h
  have hmin : ¬ idFileMin ≤ d := Nat.not_le_of_lt hlt
  simp [hashIdIsFile, hmin]

theorem Recorded.isDir_of_not_file (h : Recorded s) (hd : (s.inodes d).isSome)
    (hf : hashIdIsFile d = false) : hashIdIsDir d = true := by
  have hids := h.ids d hd
  have := h.maxDir
  have := h.maxFile
  simp only [hashIdIsFile, Bool.and_eq_false_iff, decide_eq_false_iff_not] at hf
  rw [hashIdIsDir, decide_eq_true_eq]
  omega

theorem Chained.mapInode {f : InodeEntry → InodeEntry} (hc : Chained s R)
    (id : Nat) (hf : ∀ e, (f e).nieLastBlockEntry = e.nieLastBlockEntry) :
    Chained (s.mapInode id f) R :=
  hc.of_old (fun _ _ he => St.mapInode_old _ he hf) (fun _ _ _ _ _ => rfl) rfl

/-- The chains of the files that are left. -/
theorem Chained.erase (hc : Chained s R) (hin : ∀ i, s'.inodes i = if i = c then none
      else s.inodes i) (hb : s'.blocks = s.blocks) (hid : s'.nextBlockId = s.nextBlockId) :
    Chained s' R := by
  refine hc.of_old (fun f e he => ?_) (fun _ _ _ _ _ => by rw [hb]) hid
  rw [hin] at he
  split at he
  · cases he
  · exact ⟨e, he, rfl⟩

section

variable (hc : Chained s R) (hst : Q.stuck)
include hc hst

theorem ends_nffsInodeDeleteFromRam (hf : s.HasFile c) (hok : ∀ s', Removed s s' c → Q.ok () s') :
    Ends (nffsInodeDeleteFromRam c) Q s := by
  obtain ⟨e, he⟩ := Option.isSome_iff_exists.mp hf.1
  unfold nffsInodeDeleteFromRam
  simp only [hf.2, if_true]
  refine .bind (.bind_wp (.assert hf.2 (.bind_wp (.get ?_))))
  refine ends_nffsInodeDeleteBlocksFromRamLoop hc hf fun s1 R1 hc1 hs1 hkeep => ?_
  refine .bind_wp (wp_nffsCacheInodeDelete fun s2 hs2 => ?_)
  refine .bind_wp (wp_inodeEntry (fun _ _ => ?_) fun _ => hst)
  refine .bind_wp (.modify (Wp.ends (.modify (hok _ ⟨?_, fun i => ?_, ⟨e, he, ?_⟩, R1, ?_⟩))))
  · unfold TableOnly
    rw [hs2, hs1]
  · by_cases hi : i = c
    · simp [hi]
    · simp only [if_neg hi]
      rw [← hkeep i hi, hs2]
  · rw [if_pos hf.2, hs2, hs1]
    rfl
  · refine hc1.erase (c := c) (fun i => ?_) ?_ ?_ <;> rw [hs2]

theorem wp_nffsInodeInsertUnlinkList (hf : hashIdIsFile c = false)
    (hok : ∀ s', Removed s s' c → Q.ok () s') : Wp (nffsInodeInsertUnlinkList c) Q s := by
  refine .bind (wp_inodeEntry (fun e he => ?_) fun _ => hst)
  exact .bind (.modify (.modify (hok _
    ⟨rfl, fun _ => rfl, ⟨e, he, by rw [hf]; rfl⟩, R, hc.erase (fun _ => rfl) rfl rfl⟩)))

/-- A dropped reference. -/
theorem ends_nffsInodeDecRefcnt (hdec : ∀ e, s.inodes c = some e → e.nieRefcnt ≠ 1 →
      Q.ok () (s.mapInode c InodeEntry.decRefcnt))
    (hrem : ∀ e s', s.inodes c = some e → e.nieRefcnt = 1 →
      Removed (s.mapInode c InodeEntry.decRefcnt) s' c → Q.ok () s') :
    Ends (nffsInodeDecRefcnt c) Q s := by
  have hc1 : Chained (s.mapInode c InodeEntry.decRefcnt) R := hc.mapInode _ fun _ => rfl
  refine .bind_wp (wp_inodeEntry (fun e he => ?_) fun _ => hst)
  refine .bind_wp (.assert_or (fun hpos => ?_) fun _ => hst)
  refine .bind_wp (wp_setInode (f := InodeEntry.decRefcnt) he ?_)
  by_cases hlast : e.nieRefcnt = 1
  · simp only [hlast, Nat.sub_self, if_true]
    by_cases hf : hashIdIsFile c = true
    · simp only [hf, if_true]
      exact ends_nffsInodeDeleteFromRam hc1 hst ⟨by simp [he], hf⟩ fun s' => hrem e s' he hlast
    · simp only [hf]
      exact (wp_nffsInodeInsertUnlinkList hc1 hst (by simpa using hf)
        fun s' => hrem e s' he hlast).ends
  · have hne : ¬ e.nieRefcnt - 1 = 0 := by
      simp only [bne_iff_ne] at hpos
      omega
    simp only [hne, if_false]
    exact (Wp.pure (hdec e he hlast)).ends

end

end Dropping

/-! ## Taking directories apart -/

/-- The child list of every directory, of those that wait too. -/
structure Hanging (s : St) (own : Nat → List Nat) : Prop extends Recorded s where
  linked : ∀ d e, s.inodes d = some e → hashIdIsDir d = true → Linked s.next e.nieChildList (own d)
  wait : ∀ y ∈ s.unlinkList, hashIdIsDir y.1 = true ∧ s.inodes y.1 = none ∧
    Linked s.next y.2.nieChildList (own y.1)
  once : (s.unlinkList.map Prod.fst).Nodup
  dir : ∀ d c, c ∈ own d → hashIdIsDir d = true ∧
    ((s.inodes d).isSome ∨ d ∈ s.unlinkList.map Prod.fst)
  live : ∀ d c, c ∈ own d → (s.inodes c).isSome
  apart : ∀ d d' c, c ∈ own d → c ∈ own d' → d = d'
  chained : ∃ R, Chained s R

/-- Some directories have lost their lists, and what is in the others has not
changed. -/
structure Pruned (s : St) (own : Nat → List Nat) (s' : St) (own' : Nat → List Nat) : Prop where
  same : TableOnly s s'
  sub : ∀ d, own' d = own d ∨ own' d = []
  keep : ∀ d c, c ∈ own' d → s'.inodes c = s.inodes c
  old : ∀ i e', s'.inodes i = some e' → ∃ e, s.inodes i = some e ∧ e'.disk = e.disk

section Taking

variable {s s' s'' : St} {own own' own'' : Nat → List Nat} {c : Nat} {Q : Post St FsErr Unit}

theorem Pruned.trans (h : Pruned s own s' own') (h' : Pruned s' own' s'' own'') :
    Pruned s own s'' own'' := by
  refine ⟨h.same.trans h'.same, fun d => ?_, fun d c hc => ?_, fun i e'' he'' => ?_⟩
  · rcases h'.sub d with hd | hd
    · rw [hd]
      exact h.sub d
    · exact .inr hd
  · refine (h'.keep d c hc).trans (h.keep d c ?_)
    rcases h'.sub d with hd | hd
    · exact hd ▸ hc
    · simp [hd] at hc
  · obtain ⟨e', he', hd'⟩ := h'.old i e'' he''
    obtain ⟨e, he, hd⟩ := h.old i e' he'
    exact ⟨e, he, hd'.trans hd⟩

theorem Listed.hanging (h : Listed s own) (hr : Recorded s) (hc : ∃ R, Chained s R)
    (hnil : s.unlinkList = []) : Hanging s own where
  toRecorded := hr
  linked := h.linked
  wait := by simp [hnil]
  once := by simp [hnil]
  dir := fun d c hd => ⟨(h.dir d c hd).2, .inl (h.dir d c hd).1⟩
  live := h.live
  apart := h.apart
  chained := hc

theorem Hanging.listed (h : Hanging s own) (hnil : s.unlinkList = []) : Listed s own where
  linked := h.linked
  dir := fun d c hd => by
    obtain ⟨hdir, hlive | hwait⟩ := h.dir d c hd
    · exact ⟨hlive, hdir⟩
    · simp [hnil] at hwait
  live := h.live
  apart := h.apart

theorem Pruned.removed (hfree : ∀ d, c ∉ own d) (hr : Removed s s' c) : Pruned s own s' own := by
  refine ⟨hr.same, fun _ => .inl rfl, fun d x hx => ?_, fun i e' he' => ?_⟩
  · rw [hr.inodes, if_neg]
    rintro rfl
    exact hfree d hx
  · rw [hr.inodes] at he'
    split at he'
    · cases he'
    · exact ⟨e', he', rfl⟩

/-- A count plays no part. -/
theorem Hanging.decRefcnt (h : Hanging s own) (c : Nat) :
    Hanging (s.mapInode c InodeEntry.decRefcnt) own := by
  have hnext : (s.mapInode c InodeEntry.decRefcnt).next = s.next := St.bind_mapInode fun _ => rfl
  obtain ⟨R, hR⟩ := h.chained
  refine ⟨h.toRecorded.of_old (fun _ _ he => St.mapInode_old _ he fun _ => rfl) rfl rfl, ?_, ?_,
    h.once, fun d x hx => ?_, fun d x hx => ?_, h.apart, R, hR.mapInode c fun _ => rfl⟩
  · intro d e' he' hd
    obtain ⟨e, he, hhead⟩ := St.mapInode_old InodeEntry.nieChildList he' fun _ => rfl
    rw [hnext, hhead]
    exact h.linked d e he hd
  · intro y hy
    obtain ⟨hd, hn, hl⟩ := h.wait y hy
    refine ⟨hd, ?_, hnext ▸ hl⟩
    rw [← Option.isNone_iff_eq_none, ← Option.not_isSome, St.mapInode_isSome, hn]
    rfl
  · rw [St.mapInode_isSome]
    exact h.dir d x hx
  · rw [St.mapInode_isSome]
    exact h.live d x hx

section

variable (h : Hanging s own) (hfree : ∀ d, c ∉ own d)
include h hfree

theorem Hanging.removed (hr : Removed s s' c) : Hanging s' own := by
  obtain ⟨e, he, hu⟩ := hr.waits
  have hne : ∀ {d x}, x ∈ own d → x ≠ c := fun hx hxc => hfree _ (hxc ▸ hx)
  have hin : ∀ {i}, i ≠ c → s'.inodes i = s.inodes i := fun hi => by rw [hr.inodes, if_neg hi]
  have hlink : ∀ {d p}, Linked s.next p (own d) → Linked s'.next p (own d) := fun hl =>
    hl.congr fun x hx => by simp only [St.next, hin (hne hx)]
  have hold : ∀ {i e'}, s'.inodes i = some e' → i ≠ c ∧ s.inodes i = some e' := by
    intro i e' he'
    by_cases hi : i = c
    · rw [hr.inodes, if_pos hi] at he'
      cases he'
    · exact ⟨hi, hin hi ▸ he'⟩
  have hdir : hashIdIsFile c = false → hashIdIsDir c = true :=
    h.toRecorded.isDir_of_not_file (by simp [he])
  refine ⟨h.toRecorded.of_old (fun i e' he' => ⟨e', (hold he').2, rfl⟩) (by rw [hr.same])
    (by rw [hr.same]), ?_, ?_, ?_, ?_, fun d x hx => ?_, h.apart, hr.chained⟩
  · intro d e' he' hd
    exact hlink (h.linked d e' (hold he').2 hd)
  · intro y hy
    rw [hu, mem_append] at hy
    rcases hy with hy | hy
    · by_cases hf : hashIdIsFile c = true
      · simp [hf] at hy
      · simp only [hf, Bool.false_eq_true, if_false, mem_singleton] at hy
        subst hy
        have hd := hdir (by simpa using hf)
        exact ⟨hd, by simp [hr.inodes], hlink (h.linked c e he hd)⟩
    · obtain ⟨hd, hn, hl⟩ := h.wait y hy
      refine ⟨hd, ?_, hlink hl⟩
      rw [hr.inodes, hn, ite_self]
  · rw [hu, map_append, nodup_append]
    refine ⟨by split <;> simp, h.once, fun a ha b hb hab => ?_⟩
    obtain ⟨y, hy, rfl⟩ := mem_map.mp hb
    -- What waits is not in the table.
    have hac : a = c := by
      split at ha
      · cases ha
      · simpa using ha
    have hn := (h.wait y hy).2.1
    rw [← hab, hac, he] at hn
    cases hn
  · intro d x hx
    obtain ⟨hd, hlive⟩ := h.dir d x hx
    refine ⟨hd, ?_⟩
    rw [hu, map_append, mem_append]
    by_cases hdc : d = c
    · subst hdc
      simp [isFile_of_isDir hd]
    · rw [hin hdc]
      exact hlive.imp_right .inr
  · rw [hin (hne hx)]
    exact h.live d x hx

/-- An entry that is in no list loses a reference. -/
theorem ends_nffsInodeDecRefcnt_free (hok : ∀ s', Hanging s' own → Pruned s own s' own →
      (∀ i, i ≠ c → s'.inodes i = s.inodes i) →
      (hashIdIsFile c = true → s'.unlinkList = s.unlinkList) → Q.ok () s') (hst : Q.stuck) :
    Ends (nffsInodeDecRefcnt c) Q s := by
  obtain ⟨R, hR⟩ := h.chained
  have h1 := h.decRefcnt c
  have hp : Pruned s own (s.mapInode c InodeEntry.decRefcnt) own := by
    refine ⟨.mapInode _ _, fun _ => .inl rfl, fun d x hx => St.mapInode_of_ne ?_, fun _ _ he =>
      St.mapInode_old _ he fun _ => rfl⟩
    rintro rfl
    exact hfree d hx
  refine ends_nffsInodeDecRefcnt hR hst (fun e _ _ => ?_) fun e s' _ _ hr => ?_
  · exact hok _ h1 hp (fun i hi => St.mapInode_of_ne hi) fun _ => rfl
  refine hok s' (h1.removed hfree hr) (hp.trans (.removed hfree hr)) (fun i hi => ?_) ?_
  · rw [hr.inodes, if_neg hi, St.mapInode_of_ne hi]
  · intro hf
    obtain ⟨_, -, hu⟩ := hr.waits
    rw [hu, if_pos hf]
    rfl

end

/-- The children of a directory that was taken off the list. -/
theorem ends_unlinkChildrenLoop : ∀ {l : List Nat} {s : St} {p : Option Nat} {fuel : Nat},
      Hanging s own → Linked s.next p l → (∀ c ∈ l, ∀ d, c ∉ own d) →
      (∀ s', Hanging s' own → Pruned s own s' own → Q.ok () s') → Q.stuck →
      Ends (unlinkChildrenLoop fuel p) Q s := by
  intro l
  induction l with
  | nil =>
    intro s p fuel h hl _ hok _
    cases hl
    unfold unlinkChildrenLoop
    exact (Wp.pure (hok s h ⟨rfl, fun _ => .inl rfl, fun _ _ _ => rfl,
      fun _ e he => ⟨e, he, rfl⟩⟩)).ends
  | cons c l ih =>
    intro s p fuel h hl hfree hok hst
    have hnd := nodup_cons.mp hl.nodup
    obtain ⟨rfl, hl⟩ := hl
    obtain _ | k := fuel
    · exact .spin
    refine .bind_wp (wp_inodeEntry (fun e he => ?_) fun _ => hst)
    rw [St.next_eq he] at hl
    refine .bind (ends_nffsInodeDecRefcnt_free h (hfree c mem_cons_self) (fun s1 h1 hp1 hkeep _ => ?_)
      hst)
    refine ih h1 (hl.congr fun d hd => ?_) (fun d hd => hfree d (mem_cons_of_mem c hd))
      (fun s' h' hp' => hok s' h' (hp1.trans hp')) hst
    have hne : d ≠ c := fun hdc => hnd.1 (hdc ▸ hd)
    simp only [St.next, hkeep d hne]

/-- A directory is taken off the list, and its children are in none any
more. -/
theorem Hanging.pop {d : Nat} {e : InodeEntry} {rest : List (Nat × InodeEntry)}
    (h : Hanging s own) (hu : s.unlinkList = (d, e) :: rest) :
    Hanging { s with unlinkList := rest } (update own d []) := by
  have hsub : ∀ {d' c}, c ∈ update own d [] d' → d' ≠ d ∧ c ∈ own d' := by
    intro d' c hc
    by_cases hd : d' = d
    · simp [hd] at hc
    · rw [update_of_ne hd] at hc
      exact ⟨hd, hc⟩
  have hnone := (h.wait (d, e) (by simp [hu])).2.1
  have honce := h.once
  rw [hu, map_cons, nodup_cons] at honce
  obtain ⟨R, hR⟩ := h.chained
  refine ⟨{ h with }, fun d' e' he' hd' => ?_, fun y hy => ?_, honce.2, fun d' c hc => ?_,
    fun d' c hc => h.live d' c (hsub hc).2,
    fun d1 d2 c h1 h2 => h.apart d1 d2 c (hsub h1).2 (hsub h2).2, R, { hR with }⟩
  · rw [update_of_ne]
    · exact h.linked d' e' he' hd'
    · rintro rfl
      cases hnone.symm.trans he'
  · rw [update_of_ne]
    · exact h.wait y (by rw [hu]; exact mem_cons_of_mem _ hy)
    · intro hyd
      have hmem : y.1 ∈ rest.map Prod.fst := mem_map_of_mem hy
      exact honce.1 (hyd ▸ hmem)
  · obtain ⟨hne, hc⟩ := hsub hc
    obtain ⟨hd, hlive⟩ := h.dir d' c hc
    refine ⟨hd, hlive.imp_right fun hw => ?_⟩
    rw [hu, map_cons, mem_cons] at hw
    exact hw.resolve_left hne

/-- The list is empty in the end. -/
theorem ends_nffsInodeProcessUnlinkListLoop (hst : Q.stuck) :
    ∀ {fuel : Nat} {s : St} {own : Nat → List Nat}, Hanging s own →
      (∀ s' own', Hanging s' own' → Pruned s own s' own' → s'.unlinkList = [] → Q.ok () s') →
      Ends (nffsInodeProcessUnlinkListLoop fuel) Q s := by
  intro fuel
  induction fuel with
  | zero => exact fun _ _ => .spin
  | succ fuel ih =>
    intro s own h hok
    refine .bind_wp (.get ?_)
    cases hu : s.unlinkList with
    | nil =>
      simp only [hu]
      exact (Wp.pure (hok s own h ⟨rfl, fun _ => .inl rfl, fun _ _ _ => rfl,
        fun _ e he => ⟨e, he, rfl⟩⟩ hu)).ends
    | cons y rest =>
      obtain ⟨d, e⟩ := y
      simp only [hu]
      obtain ⟨hdir, hnone, hl⟩ := h.wait (d, e) (by simp [hu])
      refine .bind_wp (.assert hdir (.bind_wp (.modify ?_)))
      refine .bind (ends_unlinkChildrenLoop (h.pop hu) hl (fun c hc d' hc' => ?_) ?_ hst)
      · by_cases hd : d' = d
        · simp [hd] at hc'
        · rw [update_of_ne hd] at hc'
          exact hd (h.apart d' d c hc' hc)
      intro s1 h1 hp1
      obtain ⟨R, hR⟩ := h1.chained
      have h2 : Hanging { s1 with inodePool := s1.inodePool + 1 } (update own d []) :=
        { h1 with chained := ⟨R, { hR with }⟩ }
      refine .bind_wp (.modify (ih h2 fun s' own' h' hp' =>
        hok s' own' h' (.trans ⟨?_, fun d' => ?_, fun d' c hc => ?_, ?_⟩ hp')))
      · have hs : TableOnly s { s with unlinkList := rest } := rfl
        exact (hs.trans hp1.same).trans rfl
      · by_cases hd : d' = d
        · exact .inr (by rw [hd, update_self])
        · exact .inl (update_of_ne hd _ _)
      · exact hp1.keep d' c hc
      · exact hp1.old

/-- Dropping an inode that is in no list. -/
theorem ends_dropInode (h : Hanging s own) (hfree : ∀ d, c ∉ own d) (hnil : s.unlinkList = [])
    (hok : ∀ s' own', Hanging s' own' → Pruned s own s' own' → s'.unlinkList = [] →
      (hashIdIsFile c = true → ∀ i, i ≠ c → s'.inodes i = s.inodes i) →
      (hashIdIsFile c = false → s'.inodes c = none) → Q.ok () s') (hst : Q.stuck)
    (hc : (s.inodes c).isSome) :
    Ends (if hashIdIsDir c then do
        nffsInodeInsertUnlinkList c
        nffsInodeProcessUnlinkList
      else nffsInodeDecRefcnt c) Q s := by
  obtain ⟨R, hR⟩ := h.chained
  by_cases hd : hashIdIsDir c = true
  · rw [if_pos hd]
    have hf := isFile_of_isDir hd
    refine .bind_wp (wp_nffsInodeInsertUnlinkList hR hst hf fun s1 hr => .bind_wp (.get ?_))
    refine ends_nffsInodeProcessUnlinkListLoop hst (h.removed hfree hr) fun s' own' h' hp hu => ?_
    refine hok s' own' h' (.trans (.removed hfree hr) hp) hu (fun hc => by simp [hf] at hc) ?_
    intro _
    cases he : s'.inodes c with
    | none => rfl
    | some e' =>
      obtain ⟨e, he1, -⟩ := hp.old c e' he
      simp [hr.inodes] at he1
  · rw [if_neg hd]
    have hf : hashIdIsFile c = true := by
      by_contra hf
      exact hd (h.toRecorded.isDir_of_not_file hc (by simpa using hf))
    refine ends_nffsInodeDecRefcnt_free h hfree (fun s' h' hp hkeep hu => ?_) hst
    exact hok s' own h' hp ((hu hf).trans hnil) (fun _ => hkeep) fun hc => by simp [hf] at hc

end Taking

/-! ## Writing a record -/

section Records

variable {s s' : St} {i n m : Nat} {a : Area}

theorem wp_nffsInodeWriteDisk (h : ∀ a ∈ s.areas, a.Ok) (ha : s.areas[i]? = some a)
    (hroom : a.naCur + (sizeofDiskInode + m) ≤ a.naLength) {Q : Post St FsErr Unit}
    (hok : Q.ok () { s with
      areas := advance s.areas i a (sizeofDiskInode + m) }) :
    Wp (nffsInodeWriteDisk i a.naCur m) Q s := by
  refine .bind (wp_nffsFlashWrite h ha (by omega) ?_)
  by_cases hm : m = 0
  · subst hm
    exact .pure hok
  rw [if_pos hm]
  have ha' : (advance s.areas i a sizeofDiskInode)[i]? =
      some { a with naCur := a.naCur + sizeofDiskInode } := by
    obtain ⟨hlt, -⟩ := List.getElem?_eq_some_iff.mp ha
    simp [advance, getElem?_set_self hlt]
  refine wp_nffsFlashWrite (s := { s with
    areas := advance s.areas i a sizeofDiskInode })
    (areas_advance h ha (by omega)) ha' (by simp only; omega) ?_
  simp only [advance_advance]
  exact hok

/-- A record of `m` bytes is written where `n` were reserved. -/
theorem wp_reserveRecord (h : Spacious s) (hn : n < 2 ^ 16)
    (hm : sizeofDiskInode + m ≤ n) {Q : Post St FsErr (Nat × Nat)} (hok : ∀ i o s1, o ≤ 0x00ffffff →
      (∀ {Q' : Post St FsErr Unit},
        (∀ s', s.store n (sizeofDiskInode + m) = .ok s' → SpaceOnly s s' →
          Spacious s' → Q'.ok () s') → Wp (nffsInodeWriteDisk i o m) Q' s1) → Q.ok (i, o) s1)
    (herr : ∀ s' e, s.place n = (s', .error e) → SpaceOnly s s' → Spacious s' → Q.err e s') :
    Wp (nffsMiscReserveSpace n) Q s := by
  refine wp_reserve h hn ?_ ?_
  · intro s1 i a hs hsp ha hroom hp
    refine hok i a.naCur s1 ?_ fun hQ' => ?_
    · have := (hsp.areas a (mem_of_getElem? ha)).2
      simp only [sizeofDiskInode] at hm
      omega
    · have hareas := areas_advance hsp.areas ha (n := sizeofDiskInode + m) (by omega)
      exact wp_nffsInodeWriteDisk hsp.areas ha (by omega)
        (hQ' _ (store_of_place hp ha) (hs.trans rfl) (hsp.of_areas rfl hareas))
  · intro s' e hs hsp hp
    exact herr s' e hp hs hsp

end Records

/-! ## Frames -/

section Frames

variable {s s' : St} {own : Nat → List Nat} {R : Nat → List Link} {x : Nat}

section

variable (h : SpaceOnly s s')
include h

theorem SpaceOnly.listed (hl : Listed s own) : Listed s' own := by
  rw [h]
  exact { hl with }

theorem SpaceOnly.recorded (hr : Recorded s) : Recorded s' := by
  rw [h]
  exact { hr with }

theorem SpaceOnly.chained (hc : Chained s R) : Chained s' R := by
  rw [h]
  exact { hc with }

theorem SpaceOnly.inodes : s'.inodes = s.inodes := by
  rw [h]

end

theorem Relinked.chained (h : Relinked s s') (hc : Chained s R) : Chained s' R := by
  refine hc.of_old (fun f e' he' => ?_) (fun _ _ _ _ _ => by rw [h.same]) (by rw [h.same])
  obtain ⟨e, he, hb⟩ := h.symm.some he'
  exact ⟨e, he, (last_of_bare hb).symm⟩

/-- An entry that was taken out of its list is in none. -/
theorem Listed.not_mem_removed {p : Nat} {A B : List Nat} (h : Listed s own)
    (hp : own p = A ++ x :: B) (d : Nat) : x ∉ update own p (A ++ B) d := by
  by_cases hd : d = p
  · subst hd
    rw [update_self]
    have hnd := h.linked_nodup d
    rw [hp, nodup_middle] at hnd
    exact (nodup_cons.mp hnd).1
  · rw [update_of_ne hd]
    exact fun hm => hd (h.apart d p x hm (by simp [hp]))

end Frames

end Larva.Nffs
