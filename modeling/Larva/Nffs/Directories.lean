import Larva.Nffs.Lookup
import Larva.Nffs.Unlink

/-!
# Operations on directories

The invariant between two operations, and what each of the directory
operations does to it. Besides the child lists it counts references: a listed
file has one for its place and one for every open handle, so that an unlink
frees a file exactly when no handle is left. For the order of the lists less
is needed, and `Orderly` is what the operations are shown to keep: the count
of a listed file is larger than the number of its handles, so that a close
never frees it.

An operation that creates or unlinks keeps the lists sorted by itself. A
rename does not: it gives an entry another name without moving it among its
siblings, so the lemma for it asks that the new name fits where the entry is.
-/

namespace Larva.Nffs

open Larva.Crash Larva.SList Function List

/-! ## The invariant -/

/-- The number of open handles of an inode. -/
def St.handles (s : St) (id : Nat) : Nat :=
  (range s.filePool).countP fun h =>
    (s.files h).map File.nfInodeEntry == some id

/-- An inode is in some list. -/
def IsListed (own : Nat → List Nat) (id : Nat) : Prop := ∃ d, id ∈ own d

/-- The file system, but for the order of the lists. -/
structure Kept (s : St) (own : Nat → List Nat) (R : Nat → List Link) : Prop
    extends Recorded s, Listed s own where
  chained : Chained s R
  space : Spacious s
  counted : ∀ id e, s.inodes id = some e → Counted id e
  files : ∀ h f, s.files h = some f → h < s.filePool ∧
    (s.inodes f.nfInodeEntry).isSome ∧ hashIdIsFile f.nfInodeEntry = true
  listedRef : ∀ id e, s.inodes id = some e → hashIdIsFile id = true →
    IsListed own id → e.nieRefcnt = 1 + s.handles id
  looseRef : ∀ id e, s.inodes id = some e → hashIdIsFile id = true →
    ¬ IsListed own id → e.nieRefcnt = s.handles id
  idle : s.unlinkList = []

/-- The file system between two operations. -/
structure InOrder (s : St) (own : Nat → List Nat) (R : Nat → List Link) : Prop
    extends Kept s own R where
  sorted : ∀ d, s.Sorted (own d)

/-- What the operations keep of it, but for the order of the lists. -/
structure Held (s : St) (own : Nat → List Nat) : Prop extends Recorded s, Listed s own where
  chained : ∃ R, Chained s R
  space : Spacious s
  files : ∀ k f, s.files k = some f → k < s.filePool ∧ hashIdIsFile f.nfInodeEntry = true ∧
    f.nfInodeEntry < s.nextFileId
  refs : ∀ id e, s.inodes id = some e → hashIdIsFile id = true → IsListed own id →
    s.handles id < e.nieRefcnt
  idle : s.unlinkList = []

structure Orderly (s : St) (own : Nat → List Nat) : Prop extends Held s own where
  sorted : ∀ d, s.Sorted (own d)

section Frame

variable {s s' : St} {own : Nat → List Nat} {R : Nat → List Link} {id : Nat}

theorem Recorded.file_lt (h : Recorded s) (hid : (s.inodes id).isSome)
    (hf : hashIdIsFile id = true) : id < s.nextFileId := by
  have hids := h.ids id hid
  have := h.maxDir
  have hmin : idFileMin = idDirMax := rfl
  simp only [hashIdIsFile, Bool.and_eq_true, decide_eq_true_eq] at hf
  omega

theorem InOrder.orderly (h : InOrder s own R) : Orderly s own :=
  { h with
    chained := ⟨R, h.chained⟩
    files := fun k f hf =>
      have ⟨hk, hlive, hfile⟩ := h.files k f hf
      ⟨hk, hfile, h.toRecorded.file_lt hlive hfile⟩
    refs := fun id e he hf hl => by
      have := h.listedRef id e he hf hl
      omega }

theorem Orderly.ordered (h : Orderly s own) : Ordered s own :=
  { h with }

theorem Held.spaceOnly (h : Held s own) (hs : SpaceOnly s s') (hsp : Spacious s') : Held s' own := by
  obtain ⟨R, hR⟩ := h.chained
  exact
    { toRecorded := hs.recorded h.toRecorded
      toListed := hs.listed h.toListed
      chained := ⟨R, hs.chained hR⟩
      space := hsp
      files := by rw [hs]; exact h.files
      refs := by rw [hs]; exact h.refs
      idle := by rw [hs]; exact h.idle }

theorem Orderly.spaceOnly (h : Orderly s own) (hs : SpaceOnly s s')
    (hsp : Spacious s') : Orderly s' own :=
  ⟨h.toHeld.spaceOnly hs hsp, by rw [hs]; exact h.sorted⟩

theorem Orderly.cacheOnly (h : Orderly s own) (hs : CacheOnly s s') : Orderly s' own := by
  obtain ⟨R, hR⟩ := h.chained
  rw [hs]
  exact { h with chained := ⟨R, { hR with }⟩, space := { h.space with } }

/-- The lists are in the order they were when the records have not changed. -/
theorem St.Sorted.of_disk {l l' : List Nat} (h : s.Sorted l) (hsub : l'.Sublist l)
    (hdisk : ∀ c ∈ l', (s'.inodes c).map InodeEntry.disk = (s.inodes c).map InodeEntry.disk) :
    s'.Sorted l' := by
  have hname : ∀ c ∈ l', s'.name c = s.name c := by
    intro c hc
    have hd := hdisk c hc
    cases he : s.inodes c with
    | none =>
      rw [he, Option.map_none, Option.map_eq_none_iff] at hd
      simp [St.name, he, hd]
    | some e =>
      rw [he, Option.map_some, Option.map_eq_some_iff] at hd
      obtain ⟨e', he', hd⟩ := hd
      rw [St.name_eq he, St.name_eq he', hd]
  refine (h.sublist hsub).imp_of_mem fun {a b} ha hb hab => ?_
  rw [hname a ha, hname b hb]
  exact hab

end Frame

/-! ## Unlinking -/

/-- What is left when `x` and the inodes below it are dropped. `s₁` is the
state after the deletion record was written. -/
structure Unlinked (s s₁ s' : St) (own own' : Nat → List Nat) (x : Nat) : Prop where
  same : TableOnly s₁ s'
  sub : ∀ d, (own' d).Sublist (own d)
  keep : ∀ d c, c ∈ own' d → c ≠ x ∧
    (s'.inodes c).map InodeEntry.bare = (s.inodes c).map InodeEntry.bare
  old : ∀ i e', s'.inodes i = some e' → ∃ e, s.inodes i = some e ∧ e'.disk = e.disk
  file : hashIdIsFile x = true → ∀ i, i ≠ x → (s'.inodes i).isSome = (s.inodes i).isSome
  dead : hashIdIsFile x = false → s'.inodes x = none

section Unlinking

variable {s s₁ s₂ s' : St} {own own' : Nat → List Nat} {x p d c i : Nat} {e : InodeEntry}
  {A B : List Nat} {Q : Post St FsErr Unit}

theorem mem_removed (hnd : ∀ d, (own d).Nodup) (hp : own p = A ++ x :: B)
    (hapart : ∀ d d' c, c ∈ own d → c ∈ own d' → d = d') :
    c ∈ update own p (A ++ B) d ↔ c ∈ own d ∧ c ≠ x := by
  by_cases hd : d = p
  · subst hd
    rw [update_self, hp]
    have hnd := hnd d
    rw [hp, nodup_middle, nodup_cons] at hnd
    constructor
    · intro hc
      refine ⟨by
        simp only [mem_append, mem_cons] at hc ⊢
        tauto, ?_⟩
      rintro rfl
      exact hnd.1 hc
    · rintro ⟨hc, hne⟩
      simp only [mem_append, mem_cons, hne, false_or] at hc ⊢
      exact hc
  · rw [update_of_ne hd]
    refine ⟨fun hc => ⟨hc, ?_⟩, fun h => h.1⟩
    rintro rfl
    exact hd (hapart d p c hc (by simp [hp]))

/-- An inode that is still there has the name it had. -/
theorem Unlinked.name (h : Unlinked s s₁ s' own own' x) (hi : (s'.inodes i).isSome) :
    s'.name i = s.name i := by
  obtain ⟨e', he'⟩ := Option.isSome_iff_exists.mp hi
  obtain ⟨e, he, hd⟩ := h.old i e' he'
  rw [St.name_eq he', St.name_eq he, hd]

/-- The entry was taken out of its list, and what was dropped was in none. -/
theorem Unlinked.of_pruned (h : Held s own) (hs1 : SpaceOnly s s₁) (hp : own p = A ++ x :: B)
    (hrel : Relinked s₁ s₂) (hpr : Pruned s₂ (update own p (A ++ B)) s' own')
    (hfile : hashIdIsFile x = true → ∀ i, i ≠ x → s'.inodes i = s₂.inodes i)
    (hdead : hashIdIsFile x = false → s'.inodes x = none) :
    Unlinked s s₁ s' own own' x := by
  have hsub : ∀ d, (own' d).Sublist (update own p (A ++ B) d) := by
    intro d
    rcases hpr.sub d with hd | hd
    · rw [hd]
    · rw [hd]
      exact nil_sublist _
  refine ⟨?_, fun d => (hsub d).trans ?_, fun d c hc => ⟨?_, ?_⟩, fun i e' he' => ?_,
    fun hf i hi => ?_, hdead⟩
  · have hsame := hpr.same
    unfold TableOnly at hsame ⊢
    rw [hrel.same] at hsame
    exact hsame
  · by_cases hd : d = p
    · subst hd
      rw [update_self, hp]
      exact (sublist_cons_self x B).append_left A
    · rw [update_of_ne hd]
  · rintro rfl
    exact h.toListed.not_mem_removed hp d ((hsub d).subset hc)
  · rw [hpr.keep d c hc, hrel.entry, hs1.inodes]
  · obtain ⟨e2, he2, hd⟩ := hpr.old i e' he'
    obtain ⟨e1, he1, hb⟩ := hrel.symm.some he2
    exact ⟨e1, hs1.inodes ▸ he1, hd.trans (disk_of_bare hb).symm⟩
  · rw [hfile hf i hi, hrel.isSome, hs1.inodes]

theorem Unlinked.orderly (hun : Unlinked s s₁ s' own own' x) (h : Orderly s own)
    (hs1 : SpaceOnly s s₁) (hsp : Spacious s₁) (hh : Hanging s' own')
    (hnil : s'.unlinkList = []) : Orderly s' own' := by
  have hsame := hun.same
  have hhandles : s'.handles = s.handles := by
    rw [hsame, hs1]
    rfl
  refine ⟨⟨hh.toRecorded, hh.listed hnil, hh.chained, ?_, ?_, fun id e' he' hf hl => ?_, hnil⟩,
    fun d => (h.sorted d).of_disk (hun.sub d) fun c hc => ?_⟩
  · rw [hsame]
    exact { hsp with }
  · rw [hsame, hs1]
    exact h.files
  · obtain ⟨d, hd⟩ := hl
    have hb := (hun.keep d id hd).2
    rw [he', Option.map_some, eq_comm, Option.map_eq_some_iff] at hb
    obtain ⟨e, he, hb⟩ := hb
    rw [hhandles, ← refcnt_of_bare hb]
    exact h.refs id e he hf ⟨d, (hun.sub d).subset hd⟩
  · have hb := congrArg (Option.map InodeEntry.disk) (hun.keep d c hc).2
    rw [Option.map_map, Option.map_map] at hb
    exact hb

/-- `nffs_inode_unlink`: a deletion record, the entry out of its parent's
list, and everything below it dropped. -/
theorem ends_nffsInodeUnlink (h : Orderly s own) (he : s.inodes x = some e)
    (hok : ∀ s₁ s' own' p, s.store sizeofDiskInode sizeofDiskInode = .ok s₁ → SpaceOnly s s₁ →
      s.parentOf e = some p → x ∈ own p → Orderly s' own' → Unlinked s s₁ s' own own' x →
      Q.ok () s')
    (herr : ∀ s₁ code, s.place sizeofDiskInode = (s₁, .error code) →
      SpaceOnly s s₁ → Spacious s₁ → Q.err code s₁) (hst : Q.stuck) :
    Ends (nffsInodeUnlink (s.inode x e)) Q s := by
  have hpar : (s.inode x e).niParent = s.parentOf e := rfl
  have hent : (s.inode x e).niInodeEntry = x := rfl
  obtain ⟨R, hR⟩ := h.chained
  cases hp : s.parentOf e with
  | none =>
    exact .bind_wp (.bind (.assert_or (fun h => by simp [hpar, hp] at h) fun _ => hst))
  | some p =>
    refine .bind_wp (.bind (.assert (by rw [hpar, hp]; rfl) ?_))
    refine .bind (wp_reserveRecord (m := 0) h.space (by decide) (le_refl _) ?_ herr)
    intro i o s0 _ hwrite
    refine hwrite fun s1 hstore hs1 hsp1 => ?_
    unfold nffsInodeUnlinkFromRam
    simp only [hpar, hent, hp, Option.isSome_some, if_true]
    have hr1 := hs1.recorded h.toRecorded
    have he1 : s1.inodes x = some e := by rw [hs1.inodes, he]
    refine .bind_wp (wp_nffsInodeRemoveChild (hs1.listed h.toListed) hr1 hent (hpar.trans hp)
      (by simp [he1]) ?_ hst)
    intro s2 A B hAB hrel hl2
    have hnil2 : s2.unlinkList = [] := by
      rw [hrel.same, hs1]
      exact h.idle
    have hh2 := hl2.hanging (hrel.recorded hr1) ⟨R, hrel.chained (hs1.chained hR)⟩ hnil2
    refine ends_dropInode hh2 (h.toListed.not_mem_removed hAB) hnil2
      (fun s' own' hh hpr hnil hfile hdead => ?_) hst (by simp [hrel.isSome, he1])
    have hun := Unlinked.of_pruned h.toHeld hs1 hAB hrel hpr hfile hdead
    exact hok s1 s' own' p hstore hs1 hp (by simp [hAB]) (hun.orderly h hs1 hsp1 hh hnil) hun

end Unlinking

/-! ## Renaming -/

/-- A name as it is stored: its length is cut to eight bits. -/
def stored (name : Name) : Name := name.take (u8 name.length)

def InodeEntry.setDisk (disk : DiskInode) (e : InodeEntry) : InodeEntry :=
  { e with disk := disk }

/-- The lists when `nffs_inode_rename` has put an entry into the list of `X`,
by the name that it still has. -/
inductive Rehung (s : St) (own : Nat → List Nat) (id : Nat) (e : InodeEntry)
    (X : Nat) : (Nat → List Nat) → Prop
  | stay (hp : s.parentOf e = some X) : Rehung s own id e X own
  | move {p : Nat} {A B A' B' : List Nat} (hp : s.parentOf e = some p)
      (hne : p ≠ X) (hA : own p = A ++ id :: B) (hA' : own X = A' ++ B')
      (hle : ∀ a ∈ A', ¬ s.name id < s.name a) (hlt : ∀ b ∈ B'.head?, s.name id < s.name b) :
      Rehung s own id e X (update (update own p (A ++ B)) X (A' ++ id :: B'))
  | adopt {A' B' : List Nat} (hp : s.parentOf e = none)
      (hfree : ∀ d, id ∉ own d) (hA' : own X = A' ++ B') (hle : ∀ a ∈ A', ¬ s.name id < s.name a)
      (hlt : ∀ b ∈ B'.head?, s.name id < s.name b) :
      Rehung s own id e X (update own X (A' ++ id :: B'))

section Rename

variable {s s₁ s' s₂ : St} {own own' : Nat → List Nat} {id X : Nat}
  {e : InodeEntry} {Q : Post St FsErr Unit} {t : Name}

theorem wp_relink (h : Held s own) (he : s.inodes id = some e)
    (hfree : s.parentOf e = none → ∀ d, id ∉ own d)
    (hok : ∀ s' own', Rehung s own id e X own' → Relinked s s' → Listed s' own' → Q.ok () s')
    (hst : Q.stuck) : Wp (relink (s.inode id e) X) Q s := by
  have hpar : (s.inode id e).niParent = s.parentOf e := rfl
  have hent : (s.inode id e).niInodeEntry = id := rfl
  unfold relink
  simp only [hpar, hent]
  by_cases hX : s.parentOf e = some X
  · rw [if_neg (by simp [hX])]
    exact .pure (hok s own (.stay hX) (.refl s) h.toListed)
  rw [if_pos hX]
  cases hp : s.parentOf e with
  | none =>
    have hfree := hfree hp
    refine wp_nffsInodeAddChild h.toListed h.toRecorded (by simp [he]) hfree
      ?_ hst
    intro s' A' B' hA' hle hlt hrel hl
    exact hok s' _ (.adopt hp hfree hA' hle hlt) hrel hl
  | some p =>
    have hne : p ≠ X := fun hpX => hX (hpX ▸ hp)
    refine .bind (wp_nffsInodeRemoveChild h.toListed h.toRecorded hent
      (hpar.trans hp) (by simp [he]) ?_ hst)
    intro s1 A B hA hrel1 hl1
    have hname := hrel1.name
    refine wp_nffsInodeAddChild hl1 (hrel1.recorded h.toRecorded)
      (by simp [hrel1.isSome, he]) (h.toListed.not_mem_removed hA) ?_ hst
    intro s' A' B' hA' hle hlt hrel hl
    rw [update_of_ne (Ne.symm hne)] at hA'
    rw [hname] at hle hlt
    exact hok s' _ (.move hp hne hA hA' hle hlt) (hrel1.trans hrel) hl

theorem Held.relinked (h : Held s own) (hrel : Relinked s s') (hl : Listed s' own')
    (hlist : ∀ f, hashIdIsFile f = true → IsListed own' f → IsListed own f) : Held s' own' := by
  have hsame := hrel.same
  obtain ⟨R, hR⟩ := h.chained
  refine ⟨hrel.recorded h.toRecorded, hl, ⟨R, hrel.chained hR⟩, ?_, ?_, fun f e' he' hf hf' => ?_,
    ?_⟩
  · rw [hsame]
    exact { h.space with }
  · rw [hsame]
    exact h.files
  · obtain ⟨e, he, hb⟩ := hrel.symm.some he'
    have hhandles : s'.handles = s.handles := by
      rw [hsame]
      rfl
    rw [hhandles, ← refcnt_of_bare hb]
    exact h.refs f e he hf (hlist f hf hf')
  · rw [hsame]
    exact h.idle

theorem Rehung.mem_of_ne (h : Held s own) (hm : Rehung s own id e X own')
    {d c : Nat} (hc : c ≠ id) : c ∈ own' d ↔ c ∈ own d := by
  cases hm with
  | stay => rfl
  | @move p A B A' B' hp hne hA hA' hle hlt =>
    by_cases hd : d = X
    · subst hd
      rw [update_self, hA']
      simp [hc]
    · rw [update_of_ne hd, mem_removed h.toListed.linked_nodup hA h.apart]
      exact ⟨fun hm => hm.1, fun hm => ⟨hm, hc⟩⟩
  | @adopt A' B' hp hfree hA' hle hlt =>
    by_cases hd : d = X
    · subst hd
      rw [update_self, hA']
      simp [hc]
    · rw [update_of_ne hd]

/-- A file that moves was in a list before. -/
theorem Rehung.isListed (h : Held s own) (hm : Rehung s own id e X own')
    (hfile : hashIdIsFile id = true → s.parentOf e ≠ none) (f : Nat)
    (hf : hashIdIsFile f = true) (hl : IsListed own' f) : IsListed own f := by
  by_cases hfi : f = id
  · subst hfi
    cases hm with
    | stay => exact hl
    | @move p A B A' B' hp hne hA hA' hle hlt => exact ⟨p, by simp [hA]⟩
    | adopt hp => exact absurd hp (hfile hf)
  · obtain ⟨d, hd⟩ := hl
    exact ⟨d, (hm.mem_of_ne h hfi).mp hd⟩

/-- How two entries of a list may stand to each other when the place of `id`
was found by its old name. -/
def AroundOld (s : St) (id a b : Nat) : Prop :=
  (a ≠ id ∧ b ≠ id ∧ s.name a < s.name b) ∨ (a = id ∧ b ≠ id ∧ s.name id < s.name b) ∨
    (b = id ∧ a ≠ id ∧ ¬ s.name id < s.name a)

theorem aroundOld_of_lt {a b : Nat} (h : s.name a < s.name b) : AroundOld s id a b := by
  by_cases ha : a = id
  · subst ha
    refine .inr (.inl ⟨rfl, ?_, h⟩)
    rintro rfl
    exact List.lt_irrefl _ h
  · by_cases hb : b = id
    · subst hb
      exact .inr (.inr ⟨rfl, ha, List.lt_asymm h⟩)
    · exact .inl ⟨ha, hb, h⟩

/-- A list that an entry joined at the place its name has in it. -/
theorem aroundOld_insert {A B : List Nat} (hs : s.Sorted (A ++ B))
    (hnot : id ∉ A ++ B) (hle : ∀ a ∈ A, ¬ s.name id < s.name a)
    (hlt : ∀ b ∈ B.head?, s.name id < s.name b) : (A ++ id :: B).Pairwise (AroundOld s id) := by
  obtain ⟨hA, hB, hAB⟩ := pairwise_append.mp hs
  have hne : ∀ c ∈ A ++ B, c ≠ id := fun c hc hci => hnot (hci ▸ hc)
  refine pairwise_append.mpr ⟨hA.imp aroundOld_of_lt,
    pairwise_cons.mpr ⟨fun b hb => ?_, hB.imp aroundOld_of_lt⟩, fun a ha b hb => ?_⟩
  · refine .inr (.inl ⟨rfl, hne b (by simp [hb]), ?_⟩)
    cases B with
    | nil => cases hb
    | cons c B =>
      have hc := hlt c (by simp)
      rcases List.mem_cons.mp hb with rfl | hb
      · exact hc
      · exact List.lt_trans hc ((List.pairwise_cons.mp hB).1 b hb)
  · rcases List.mem_cons.mp hb with rfl | hb
    · exact .inr (.inr ⟨rfl, hne a (by simp [ha]), hle a ha⟩)
    · exact aroundOld_of_lt (hAB a ha b hb)

theorem Rehung.around (h : Orderly s own) (hm : Rehung s own id e X own')
    (d : Nat) : (own' d).Pairwise (AroundOld s id) := by
  have hold : ∀ d, (own d).Pairwise (AroundOld s id) := fun d =>
    (h.sorted d).imp aroundOld_of_lt
  cases hm with
  | stay => exact hold d
  | @move p A B A' B' hp hne hA hA' hle hlt =>
    by_cases hd : d = X
    · subst hd
      rw [update_self]
      refine aroundOld_insert (hA' ▸ h.sorted d) (hA' ▸ fun hm => hne ?_) hle hlt
      exact h.apart p d id (by simp [hA]) hm
    rw [update_of_ne hd]
    by_cases hd' : d = p
    · subst hd'
      rw [update_self]
      refine (hold d).sublist ?_
      rw [hA]
      exact (sublist_cons_self id B).append_left A
    · rw [update_of_ne hd']
      exact hold d
  | @adopt A' B' hp hfree hA' hle hlt =>
    by_cases hd : d = X
    · subst hd
      rw [update_self]
      exact aroundOld_insert (hA' ▸ h.sorted d) (hA' ▸ hfree d) hle hlt
    · rw [update_of_ne hd]
      exact hold d

/-- A name fits where the entry `id` is among the entries of `l`: those before
it are smaller and those behind it larger. -/
def St.NameFits (s : St) (id : Nat) (name : Name) (l : List Nat) : Prop :=
  ∀ c ∈ l, c ≠ id → if s.name id < s.name c then name < s.name c
    else s.name c < name

/-- The lists are sorted by the new name if it fits. -/
theorem Rehung.sorted (h : Orderly s own) (hm : Rehung s own id e X own')
    (hother : ∀ c, c ≠ id → s'.name c = s.name c)
    (hfit : ∀ d, id ∈ own' d → s.NameFits id (s'.name id) (own' d)) (d : Nat) :
    s'.Sorted (own' d) := by
  refine (hm.around h d).imp_of_mem fun {a b} ha hb hab => ?_
  rcases hab with ⟨hna, hnb, hab⟩ | ⟨rfl, hnb, hab⟩ | ⟨rfl, hna, hab⟩
  · rw [hother a hna, hother b hnb]
    exact hab
  · have := hfit d ha b hb hnb
    rw [if_pos hab] at this
    rw [hother b hnb]
    exact this
  · have := hfit d hb a ha hna
    rw [if_neg hab] at this
    rw [hother a hna]
    exact this

theorem stored_length (t : Name) : (stored t).length ≤ 255 := by
  unfold stored u8
  rw [length_take]
  omega

theorem mem_of_mem_stored {x : UInt8} (h : x ∈ stored t) : x ∈ t :=
  mem_of_mem_take h

theorem Listed.mapInode {f : InodeEntry → InodeEntry} (h : Listed s own) (id : Nat)
    (hnext : ∀ e, (f e).nieSiblingNext = e.nieSiblingNext)
    (hhead : ∀ e, (f e).nieChildList = e.nieChildList) : Listed (s.mapInode id f) own := by
  exact h.congr (fun _ => St.mapInode_isSome) (St.bind_mapInode hnext) (St.bind_mapInode hhead)

/-- A new record for an entry that stays where it is. -/
theorem Held.setDisk {disk : DiskInode} (h : Held s own) (h0 : (0 : UInt8) ∉ disk.ndiFilename)
    (hlen : disk.ndiFilename.length ≤ 255) (hpar : hashIdIsInode disk.ndiParentId = true) :
    Held (s.mapInode id (InodeEntry.setDisk disk)) own := by
  obtain ⟨R, hR⟩ := h.chained
  refine ⟨⟨?_, ?_, ?_, h.maxDir, h.minFile, h.maxFile⟩,
    h.toListed.mapInode id (fun _ => rfl) fun _ => rfl,
    ⟨R, hR.mapInode id fun _ => rfl⟩, { h.space with }, h.files, ?_, h.idle⟩
  · intro i e' he'
    obtain ⟨e, he, ⟨-, rfl⟩ | ⟨-, rfl⟩⟩ := St.mapInode_cases he'
    · exact h.name i e' he
    · exact ⟨h0, hlen⟩
  · intro i e' he'
    obtain ⟨e, he, ⟨-, rfl⟩ | ⟨-, rfl⟩⟩ := St.mapInode_cases he'
    · exact h.parent i e' he
    · exact .inr hpar
  · intro i hi
    exact h.ids i (by simpa using hi)
  · intro i e' he' hf hl
    obtain ⟨e, he, hcnt⟩ := St.mapInode_old InodeEntry.nieRefcnt he' fun _ => rfl
    rw [hcnt]
    exact h.refs i e he hf hl

/-- `nffs_inode_rename`: the entry is moved, and then its new record written
if there is room for it. -/
theorem wp_nffsInodeRename (h : Held s own) (he : s.inodes id = some e)
    (ht : t.length ≤ filenameMaxLen) (hfree : s.parentOf e = none → ∀ d, id ∉ own d)
    (hfile : hashIdIsFile id = true → s.parentOf e ≠ none)
    (hok : ∀ s₁ s₂ own', Rehung s own id e X own' → Relinked s s₁ → Held s₁ own' →
      s₁.store (sizeofDiskInode + t.length) (sizeofDiskInode + u8 t.length) = .ok s₂ →
      SpaceOnly s₁ s₂ → Spacious s₂ → Q.ok () (s₂.mapInode id (InodeEntry.setDisk
        ⟨u32 (e.disk.ndiSeq + 1), X, stored t⟩)))
    (herr : ∀ s₁ s₂ own' code, Rehung s own id e X own' → Relinked s s₁ → Held s₁ own' →
      s₁.room (sizeofDiskInode + t.length) = .error code →
      SpaceOnly s₁ s₂ → Spacious s₂ → Q.err code s₂) (hst : Q.stuck) : Wp (nffsInodeRename id X t) Q s := by
  have hu : u8 t.length ≤ t.length := Nat.mod_le _ _
  have hmax : filenameMaxLen = 256 := rfl
  have hsize : sizeofDiskInode = 20 := rfl
  refine .bind (wp_nffsInodeFromEntry h.toRecorded (fun e' he' => ?_) fun hn => by simp [he] at hn)
  cases he.symm.trans he'
  refine .bind (wp_relink h he hfree ?_ hst)
  intro s₁ own' hm hrel hl
  have hk := h.relinked hrel hl (hm.isListed h hfile)
  refine .bind (wp_reserveRecord (m := u8 t.length) hk.space (by omega)
    (by omega) ?_ fun s₂ code hplace hs2 hsp2 =>
      herr s₁ s₂ own' code hm hrel hk (congrArg Prod.snd hplace) hs2 hsp2)
  intro i o s₀ ho hwrite
  refine .bind (hwrite fun s₂ hstore hs2 hsp2 => ?_)
  refine .bind (.assert (by simpa using ho) ?_)
  obtain ⟨e1, he1, -⟩ := hrel.some he
  have he2 : s₂.inodes id = some e1 := by rw [hs2.inodes, he1]
  refine .bind (wp_inodeEntry_some he2 ?_)
  exact wp_setInode he2 (hok s₁ s₂ own' hm hrel hk hstore hs2 hsp2)

theorem SpaceOnly.name_of_relinked (hs2 : SpaceOnly s₁ s₂) (hrel : Relinked s s₁) :
    s₂.name = s.name := by
  rw [← hrel.name]
  unfold St.name
  rw [hs2.inodes]

variable (h : Orderly s own) (hm : Rehung s own id e X own') (hrel : Relinked s s₁)
  (hk : Held s₁ own') (hs2 : SpaceOnly s₁ s₂) (hsp2 : Spacious s₂)
include h hm hrel hk hs2 hsp2

/-- A rename whose record was written keeps the lists in order if the name
fits. -/
theorem Orderly.renamed {n : Nat} (he : s.inodes id = some e) (h0 : (0 : UInt8) ∉ t)
    (hX : hashIdIsInode X = true) (hfit : ∀ d, id ∈ own' d → s.NameFits id (stored t) (own' d)) :
    Orderly (s₂.mapInode id (InodeEntry.setDisk ⟨n, X, stored t⟩)) own' := by
  have hk2 := hk.spaceOnly hs2 hsp2
  have hname2 := hs2.name_of_relinked hrel
  refine ⟨hk2.setDisk (fun h => h0 (mem_of_mem_stored h)) (stored_length t) hX,
    fun d => hm.sorted h (fun c hc => ?_) (fun d hd => ?_) d⟩
  · rw [← hname2]
    simp only [St.name, St.mapInode_of_ne hc]
  · have hn : (s₂.mapInode id (InodeEntry.setDisk ⟨n, X, stored t⟩)).name id = stored t := by
      obtain ⟨e1, he1, -⟩ := hrel.some he
      simp [St.name, St.mapInode_self, hs2.inodes, he1, InodeEntry.setDisk]
    rw [hn]
    exact hfit d hd

/-- A rename that found no room has moved the entry all the same. -/
theorem Orderly.moved (hfit : ∀ d, id ∈ own' d → s.NameFits id (s.name id) (own' d)) :
    Orderly s₂ own' := by
  have hname2 := hs2.name_of_relinked hrel
  refine ⟨hk.spaceOnly hs2 hsp2, fun d => hm.sorted h (fun c _ => ?_) (fun d hd => ?_) d⟩
  · rw [hname2]
  · rw [hname2]
    exact hfit d hd

end Rename

end Larva.Nffs
