import Larva.Lib.SList
import Larva.Nffs.Names
import Larva.Nffs.Cache

/-!
# Child lists

What the sibling links of all entries together say: every directory has a list
of children, no entry is in two of them, and following the links from the
directory visits the list. `own` gives the list of each directory; the lists
are sorted in a state between two operations, but the lemmas that only move
links do not ask for it.

A list is changed in two ways, an entry put behind the last name that is not
larger and an entry taken out, and each leaves everything but the links as it
was.
-/

namespace Larva.Nffs

open Larva.Crash Larva.SList Function List

/-! ## What the entries say -/

def St.next (s : St) (id : Nat) : Option Nat :=
  (s.inodes id).bind InodeEntry.nieSiblingNext

def St.head (s : St) (id : Nat) : Option Nat :=
  (s.inodes id).bind InodeEntry.nieChildList

def St.name (s : St) (id : Nat) : Name :=
  match s.inodes id with
  | some e => e.disk.ndiFilename
  | none => []

/-- The parent that an entry's record names, if it still exists. -/
def St.parentOf (s : St) (e : InodeEntry) : Option Nat :=
  if e.disk.ndiParentId = idNone then none
  else if (s.inodes e.disk.ndiParentId).isSome then some e.disk.ndiParentId
  else none

/-- What `nffs_inode_from_entry` reads. -/
def St.inode (s : St) (id : Nat) (e : InodeEntry) : Inode :=
  ⟨id, e.disk.ndiSeq, s.parentOf e, e.disk.ndiFilename⟩

/-- The records of the entries: names without zero bytes, stored with their
full length, parents that can be looked up, and ids that were given out. -/
structure Recorded (s : St) : Prop where
  name : ∀ id e, s.inodes id = some e →
    (0 : UInt8) ∉ e.disk.ndiFilename ∧ e.disk.ndiFilename.length ≤ 255
  parent : ∀ id e, s.inodes id = some e →
    e.disk.ndiParentId = idNone ∨ hashIdIsInode e.disk.ndiParentId = true
  ids : ∀ id, (s.inodes id).isSome → id < s.nextDirId ∨ idFileMin ≤ id ∧ id < s.nextFileId
  maxDir : s.nextDirId ≤ idDirMax
  minFile : idFileMin ≤ s.nextFileId
  maxFile : s.nextFileId ≤ idFileMax

/-- The child list of every directory. -/
structure Listed (s : St) (own : Nat → List Nat) : Prop where
  linked : ∀ d e, s.inodes d = some e → hashIdIsDir d = true → Linked s.next e.nieChildList (own d)
  dir : ∀ d c, c ∈ own d → (s.inodes d).isSome ∧ hashIdIsDir d = true
  live : ∀ d c, c ∈ own d → (s.inodes c).isSome
  apart : ∀ d d' c, c ∈ own d → c ∈ own d' → d = d'

/-- A list in which every name is smaller than the next. -/
def St.Sorted (s : St) (l : List Nat) : Prop :=
  l.Pairwise fun a b => s.name a < s.name b

section Reading

variable {s s' : St} {own : Nat → List Nat} {id : Nat} {e : InodeEntry}
  {Q : Post St FsErr InodeEntry}

theorem St.name_eq (he : s.inodes id = some e) : s.name id = e.disk.ndiFilename := by
  simp [St.name, he]

theorem St.next_eq (he : s.inodes id = some e) : s.next id = e.nieSiblingNext := by
  simp [St.next, he]

theorem St.head_eq (he : s.inodes id = some e) : s.head id = e.nieChildList := by
  simp [St.head, he]

theorem Recorded.no_zero (h : Recorded s) (id : Nat) : (0 : UInt8) ∉ s.name id := by
  unfold St.name
  split
  · next e he => exact (h.name id e he).1
  · simp

theorem wp_inodeEntry (hok : ∀ e, s.inodes id = some e → Q.ok e s)
    (hst : s.inodes id = none → Q.stuck) : Wp (inodeEntry id) Q s := by
  refine .bind (.get ?_)
  cases he : s.inodes id with
  | none =>
    simp only [he]
    exact fun _ => hst he
  | some e =>
    simp only [he]
    exact .pure (hok e he)

theorem wp_inodeEntry_some (he : s.inodes id = some e) (hok : Q.ok e s) :
    Wp (inodeEntry id) Q s := by
  refine wp_inodeEntry (fun e' he' => ?_) fun hn => by simp [he] at hn
  cases he.symm.trans he'
  exact hok

theorem wp_nffsInodeFromEntry (h : Recorded s) {Q : Post St FsErr Inode}
    (hok : ∀ e, s.inodes id = some e → Q.ok (s.inode id e) s) (hst : s.inodes id = none → Q.stuck) :
    Wp (nffsInodeFromEntry id) Q s := by
  refine .bind (wp_inodeEntry (fun e he => ?_) hst)
  simp only
  have hQ := hok e he
  unfold St.inode St.parentOf at hQ
  by_cases hp : e.disk.ndiParentId = idNone
  · rw [if_pos hp] at hQ ⊢
    exact .bind (.pure (.pure hQ))
  · rw [if_neg hp] at hQ ⊢
    have hid := (h.parent id e he).resolve_left hp
    exact .bind (.bind (.assert hid (.bind (.get (.pure (.pure hQ))))))

/-- Records that were there before, and no new ids. -/
theorem Recorded.of_old (h : Recorded s)
    (hold : ∀ id e', s'.inodes id = some e' → ∃ e, s.inodes id = some e ∧ e'.disk = e.disk)
    (hd : s'.nextDirId = s.nextDirId) (hf : s'.nextFileId = s.nextFileId) : Recorded s' := by
  refine ⟨fun id e' he' => ?_, fun id e' he' => ?_, fun id hid => ?_, hd ▸ h.maxDir,
    hf ▸ h.minFile, hf ▸ h.maxFile⟩
  · obtain ⟨e, he, hdisk⟩ := hold id e' he'
    exact hdisk ▸ h.name id e he
  · obtain ⟨e, he, hdisk⟩ := hold id e' he'
    exact hdisk ▸ h.parent id e he
  · obtain ⟨e', he'⟩ := Option.isSome_iff_exists.mp hid
    obtain ⟨e, he, -⟩ := hold id e' he'
    rw [hd, hf]
    exact h.ids id (by simp [he])

/-- A list of live entries is within the fuel of the walks. -/
theorem Recorded.length_le (h : Recorded s) {p : Option Nat} {l : List Nat}
    (hl : Linked s.next p l) (hlive : ∀ c ∈ l, (s.inodes c).isSome) : l.length ≤ s.numInodeIds := by
  have hsub : l ⊆ range s.nextDirId ++ (range (s.nextFileId - idFileMin)).map (· + idFileMin) := by
    intro c hc
    rw [mem_append, mem_range, mem_map]
    rcases h.ids c (hlive c hc) with hlt | ⟨hmin, hlt⟩
    · exact .inl hlt
    · exact .inr ⟨c - idFileMin, mem_range.mpr (by omega), by omega⟩
  have := hl.length_le hsub
  simpa [St.numInodeIds] using this

theorem Listed.linked_nodup (h : Listed s own) (d : Nat) : (own d).Nodup := by
  cases ho : own d with
  | nil => exact nodup_nil
  | cons c l =>
    obtain ⟨hlive, hdir⟩ := h.dir d c (by simp [ho])
    obtain ⟨e, he⟩ := Option.isSome_iff_exists.mp hlive
    rw [← ho]
    exact (h.linked d e he hdir).nodup

/-- The lists are read off the links and the heads. -/
theorem Listed.congr (h : Listed s own) (hlive : ∀ id, (s'.inodes id).isSome = (s.inodes id).isSome)
    (hnext : s'.next = s.next) (hhead : s'.head = s.head) : Listed s' own := by
  refine ⟨fun d e' he' hd => ?_, fun d c hc => ?_, fun d c hc => ?_, h.apart⟩
  · obtain ⟨e, he⟩ := Option.isSome_iff_exists.mp ((hlive d).symm.trans (by simp [he']))
    rw [hnext, ← St.head_eq he', hhead, St.head_eq he]
    exact h.linked d e he hd
  · rw [hlive]
    exact h.dir d c hc
  · rw [hlive]
    exact h.live d c hc

theorem Listed.not_mem_of_not_live (h : Listed s own) (hid : s.inodes id = none)
    (d : Nat) : id ∉ own d := fun hm => by
  simpa [hid] using h.live d id hm

end Reading

/-! ## Changing an entry -/

/-- Change one entry, if it is there. -/
def St.mapInode (s : St) (id : Nat) (f : InodeEntry → InodeEntry) : St :=
  { s with inodes := fun i => if i = id then (s.inodes i).map f
      else s.inodes i }

def InodeEntry.setNext (n : Option Nat) (e : InodeEntry) : InodeEntry :=
  { e with nieSiblingNext := n }

def InodeEntry.setHead (n : Option Nat) (e : InodeEntry) : InodeEntry :=
  { e with nieChildList := n }

/-- An entry without its links. -/
def InodeEntry.bare (e : InodeEntry) : InodeEntry :=
  { e with nieSiblingNext := none, nieChildList := none }

/-- Two states that differ in the links of their entries. -/
structure Relinked (s s' : St) : Prop where
  same : s' = { s with inodes := s'.inodes }
  entry : ∀ id, (s'.inodes id).map InodeEntry.bare = (s.inodes id).map InodeEntry.bare

section Entries

variable {s s' : St} {id i : Nat} {e e' : InodeEntry} {f : InodeEntry → InodeEntry}
  {g : InodeEntry → Option Nat}

@[simp] theorem St.mapInode_isSome : ((s.mapInode id f).inodes i).isSome = (s.inodes i).isSome := by
  simp only [St.mapInode]
  split <;> simp

theorem St.mapInode_of_ne (h : i ≠ id) : (s.mapInode id f).inodes i = s.inodes i := if_neg h

theorem St.mapInode_self : (s.mapInode id f).inodes id = (s.inodes id).map f := if_pos rfl

/-- What a change to one entry leaves of an entry. -/
theorem St.mapInode_cases (he' : (s.mapInode id f).inodes i = some e') :
    ∃ e, s.inodes i = some e ∧ (i ≠ id ∧ e' = e ∨ i = id ∧ e' = f e) := by
  by_cases hi : i = id
  · subst hi
    rw [St.mapInode_self] at he'
    obtain ⟨e, he, rfl⟩ := Option.map_eq_some_iff.mp he'
    exact ⟨e, he, .inr ⟨rfl, rfl⟩⟩
  · rw [St.mapInode_of_ne hi] at he'
    exact ⟨e', he', .inl ⟨hi, rfl⟩⟩

/-- A field that it does not change. -/
theorem St.mapInode_old {α : Type} (g : InodeEntry → α) (he' : (s.mapInode id f).inodes i = some e')
    (hg : ∀ e, g (f e) = g e) : ∃ e, s.inodes i = some e ∧ g e' = g e := by
  obtain ⟨e, he, ⟨-, rfl⟩ | ⟨-, rfl⟩⟩ := St.mapInode_cases he'
  · exact ⟨e', he, rfl⟩
  · exact ⟨e, he, hg e⟩

theorem wp_setInode (he : s.inodes id = some e) {Q : Post St FsErr Unit}
    (hQ : Q.ok () (s.mapInode id f)) : Wp (setInode id (some (f e))) Q s := by
  refine .modify ?_
  have heq : s.mapInode id f = { s with
      inodes := fun i => if i = id then some (f e) else s.inodes i } := by
    unfold St.mapInode
    congr 1
    funext i
    split
    · next hi => rw [hi, he, Option.map_some]
    · rfl
  rw [← heq]
  exact hQ

/-- What a change of one entry does to a link that it sets. -/
theorem St.bind_mapInode_set {n : Option Nat} (he : (s.inodes id).isSome) (hg : ∀ e, g (f e) = n) :
    (fun i => ((s.mapInode id f).inodes i).bind g) =
      update (fun i => (s.inodes i).bind g) id n := by
  obtain ⟨e, he⟩ := Option.isSome_iff_exists.mp he
  funext i
  by_cases hi : i = id
  · subst hi
    simp [St.mapInode_self, he, hg]
  · simp [St.mapInode_of_ne hi, update_of_ne hi]

/-- A link that it does not set. -/
theorem St.bind_mapInode (hg : ∀ e, g (f e) = g e) :
    (fun i => ((s.mapInode id f).inodes i).bind g) = fun i => (s.inodes i).bind g := by
  funext i
  by_cases hi : i = id
  · subst hi
    rw [St.mapInode_self]
    cases s.inodes i with
    | none => rfl
    | some e => exact hg e
  · rw [St.mapInode_of_ne hi]

theorem St.next_setNext (he : (s.inodes id).isSome) (n : Option Nat) :
    (s.mapInode id (InodeEntry.setNext n)).next = update s.next id n :=
  St.bind_mapInode_set he fun _ => rfl

theorem St.head_setHead (he : (s.inodes id).isSome) (n : Option Nat) :
    (s.mapInode id (InodeEntry.setHead n)).head = update s.head id n :=
  St.bind_mapInode_set he fun _ => rfl

theorem St.next_setHead (n : Option Nat) : (s.mapInode id (InodeEntry.setHead n)).next = s.next :=
  St.bind_mapInode fun _ => rfl

theorem St.head_setNext (n : Option Nat) : (s.mapInode id (InodeEntry.setNext n)).head = s.head :=
  St.bind_mapInode fun _ => rfl

theorem Relinked.refl (s : St) : Relinked s s := ⟨rfl, fun _ => rfl⟩

theorem Relinked.trans {s'' : St} (h : Relinked s s') (h' : Relinked s' s'') : Relinked s s'' := by
  refine ⟨?_, fun id => (h'.entry id).trans (h.entry id)⟩
  rw [h'.same, h.same]

theorem Relinked.mapInode (id : Nat) (hf : ∀ e, (f e).bare = e.bare) :
    Relinked s (s.mapInode id f) := by
  refine ⟨rfl, fun i => ?_⟩
  by_cases hi : i = id
  · subst hi
    rw [St.mapInode_self, Option.map_map]
    exact congrArg (fun g => (s.inodes i).map g) (funext hf)
  · rw [St.mapInode_of_ne hi]

/-- Where an entry goes in a state with other links. -/
theorem Relinked.some (h : Relinked s s') (he : s.inodes id = some e) :
    ∃ e', s'.inodes id = some e' ∧ e'.bare = e.bare := by
  have := h.entry id
  rw [he] at this
  cases he' : s'.inodes id with
  | none => simp [he'] at this
  | some e' =>
    simp only [he', Option.map_some, Option.some.injEq] at this
    exact ⟨e', rfl, this⟩

theorem Relinked.symm (h : Relinked s s') : Relinked s' s := by
  refine ⟨?_, fun id => (h.entry id).symm⟩
  rw [h.same]

theorem Relinked.isSome (h : Relinked s s') (id : Nat) :
    (s'.inodes id).isSome = (s.inodes id).isSome := by
  have := congrArg Option.isSome (h.entry id)
  simpa using this

theorem disk_of_bare (h : e'.bare = e.bare) : e'.disk = e.disk :=
  (congrArg InodeEntry.disk h :)

theorem last_of_bare (h : e'.bare = e.bare) :
    e'.nieLastBlockEntry = e.nieLastBlockEntry :=
  (congrArg InodeEntry.nieLastBlockEntry h :)

theorem refcnt_of_bare (h : e'.bare = e.bare) : e'.nieRefcnt = e.nieRefcnt :=
  (congrArg InodeEntry.nieRefcnt h :)

theorem Relinked.name (h : Relinked s s') : s'.name = s.name := by
  funext id
  cases he : s.inodes id with
  | none =>
    have := h.isSome id
    simp only [he, Option.isSome_none, Option.isSome_eq_false_iff,
      Option.isNone_iff_eq_none] at this
    simp [St.name, he, this]
  | some e =>
    obtain ⟨e', he', hb⟩ := h.some he
    simp [St.name, he, he', disk_of_bare hb]

theorem Relinked.recorded (h : Relinked s s') (hr : Recorded s) : Recorded s' := by
  refine hr.of_old (fun id e' he' => ?_) (by rw [h.same]) (by rw [h.same])
  obtain ⟨e, he, hb⟩ := h.symm.some he'
  exact ⟨e, he, (disk_of_bare hb).symm⟩

end Entries

/-! ## Changing a list -/

section Lists

variable {s s' : St} {own : Nat → List Nat} {parent child : Nat} {A B : List Nat} {e : InodeEntry}
  {Q : Post St FsErr Unit} {c : Inode}

/-- One list is replaced and the others keep their heads and links. -/
theorem Listed.replace (h : Listed s own) {d : Nat} {l : List Nat} (hs : Relinked s s')
    (hlive : (s.inodes d).isSome) (hd : hashIdIsDir d = true) (hl : Linked s'.next (s'.head d) l)
    (hhead : ∀ d', d' ≠ d → s'.head d' = s.head d')
    (hnext : ∀ d' c, d' ≠ d → c ∈ own d' → s'.next c = s.next c)
    (hmem : ∀ c ∈ l, (s.inodes c).isSome ∧ ∀ d', d' ≠ d → c ∉ own d') :
    Listed s' (update own d l) := by
  have hupd : ∀ d' c, c ∈ update own d l d' → d' = d ∧ c ∈ l ∨ d' ≠ d ∧ c ∈ own d' := by
    intro d' c hc
    by_cases hdd : d' = d
    · subst hdd
      rw [update_self] at hc
      exact .inl ⟨rfl, hc⟩
    · rw [update_of_ne hdd] at hc
      exact .inr ⟨hdd, hc⟩
  refine ⟨fun d' e' he' hd' => ?_, fun d' c hc => ?_, fun d' c hc => ?_, fun d1 d2 c h1 h2 => ?_⟩
  · rw [← St.head_eq he']
    by_cases hdd : d' = d
    · subst hdd
      rw [update_self]
      exact hl
    · obtain ⟨e0, he0, -⟩ := hs.symm.some he'
      rw [update_of_ne hdd, hhead d' hdd, St.head_eq he0]
      exact (h.linked d' e0 he0 hd').congr fun c hc => hnext d' c hdd hc
  · rw [hs.isSome]
    rcases hupd d' c hc with ⟨rfl, -⟩ | ⟨-, hc⟩
    · exact ⟨hlive, hd⟩
    · exact h.dir d' c hc
  · rw [hs.isSome]
    rcases hupd d' c hc with ⟨-, hc⟩ | ⟨-, hc⟩
    · exact (hmem c hc).1
    · exact h.live d' c hc
  · rcases hupd d1 c h1 with ⟨rfl, hc1⟩ | ⟨hne1, hc1⟩ <;>
      rcases hupd d2 c h2 with ⟨rfl, hc2⟩ | ⟨hne2, hc2⟩
    · rfl
    · exact absurd hc2 ((hmem c hc1).2 d2 hne2)
    · exact absurd hc1 ((hmem c hc2).2 d1 hne1)
    · exact h.apart d1 d2 c hc1 hc2

/-- The members of a list that a new entry joins. -/
theorem Listed.mem_insert (h : Listed s own) (hA : own parent = A ++ B)
    (hlive : (s.inodes child).isSome) (hfree : ∀ d, child ∉ own d) :
    ∀ c ∈ A ++ child :: B, (s.inodes c).isSome ∧ ∀ d', d' ≠ parent → c ∉ own d' := by
  intro c hc
  by_cases hcc : c = child
  · subst hcc
    exact ⟨hlive, fun d' _ => hfree d'⟩
  have hmem : c ∈ own parent := by
    rw [hA]
    simp only [mem_append, mem_cons, hcc, false_or] at hc ⊢
    exact hc
  exact ⟨h.live parent c hmem, fun d' hne hd' =>
    hne (h.apart d' parent c hd' hmem)⟩

section

variable (h : Listed s own) (he : s.inodes parent = some e) (hd : hashIdIsDir parent = true)
include h he hd

theorem wp_childInsertHead (hlive : (s.inodes child).isSome) (hfree : ∀ d, child ∉ own d)
    (hok : ∀ s', Relinked s s' → Listed s' (update own parent (child :: own parent)) →
      Q.ok () s') : Wp (childInsertHead parent child) Q s := by
  obtain ⟨ec, hec⟩ := Option.isSome_iff_exists.mp hlive
  refine .bind (wp_inodeEntry_some he ?_)
  refine .bind (wp_inodeEntry_some hec ?_)
  refine .bind (wp_setInode (f := InodeEntry.setNext e.nieChildList) hec ?_)
  have hs1 : Relinked s (s.mapInode child (InodeEntry.setNext e.nieChildList)) :=
    .mapInode _ fun _ => rfl
  obtain ⟨e1, he1, -⟩ := hs1.some he
  refine .bind (wp_inodeEntry_some he1 ?_)
  refine wp_setInode (f := InodeEntry.setHead (some child)) he1 ?_
  have hs2 := hs1.trans (.mapInode parent (f := InodeEntry.setHead (some child)) fun _ => rfl)
  refine hok _ hs2 (h.replace hs2 (by simp [he]) hd ?_ (fun d' hne => ?_) (fun d' c _ hc => ?_)
    (h.mem_insert (A := []) rfl hlive hfree))
  · rw [St.head_setHead (by simp [he1]), update_self, St.next_setHead, St.next_setNext hlive]
    exact (h.linked parent e he hd).insert_head (hfree parent)
  · rw [St.head_setHead (by simp [he1]), update_of_ne hne, St.head_setNext]
  · have hcc : c ≠ child := fun hcc => hfree d' (hcc ▸ hc)
    rw [St.next_setHead, St.next_setNext hlive, update_of_ne hcc]

theorem wp_childInsertAfter {prev : Nat} (hA : own parent = A ++ prev :: B)
    (hlive : (s.inodes child).isSome) (hfree : ∀ d, child ∉ own d) (hok : ∀ s', Relinked s s' →
      Listed s' (update own parent (A ++ prev :: child :: B)) → Q.ok () s') :
    Wp (childInsertAfter prev child) Q s := by
  obtain ⟨ec, hec⟩ := Option.isSome_iff_exists.mp hlive
  have hprev : prev ∈ own parent := by simp [hA]
  obtain ⟨ep, hep⟩ := Option.isSome_iff_exists.mp (h.live parent prev hprev)
  have hpc : prev ≠ child := fun hp => hfree parent (hp ▸ hprev)
  refine .bind (wp_inodeEntry_some hep ?_)
  refine .bind (wp_inodeEntry_some hec ?_)
  refine .bind (wp_setInode (f := InodeEntry.setNext ep.nieSiblingNext) hec ?_)
  have hs1 : Relinked s
      (s.mapInode child (InodeEntry.setNext ep.nieSiblingNext)) :=
    .mapInode _ fun _ => rfl
  have hep1 : (s.mapInode child (InodeEntry.setNext ep.nieSiblingNext)).inodes
      prev = some ep := by rw [St.mapInode_of_ne hpc, hep]
  refine .bind (wp_inodeEntry_some hep1 ?_)
  refine wp_setInode (f := InodeEntry.setNext (some child)) hep1 ?_
  have hs2 := hs1.trans (.mapInode prev (f := InodeEntry.setNext (some child)) fun _ => rfl)
  have hnext : ((s.mapInode child (InodeEntry.setNext ep.nieSiblingNext)).mapInode prev
        (InodeEntry.setNext (some child))).next = update
          (update s.next child (s.next prev)) prev (some child) := by
    rw [St.next_setNext (by simp [hep1]), St.next_setNext hlive, St.next_eq hep]
  refine hok _ hs2 ?_
  refine h.replace hs2 (by simp [he]) hd ?_ (fun d' _ => by simp only [St.head_setNext]) ?_ ?_
  · rw [hnext, St.head_setNext, St.head_setNext, St.head_eq he]
    have hl := h.linked parent e he hd
    rw [hA] at hl
    exact hl.insert_after (hA ▸ hfree parent)
  · intro d' c hne hc
    have hcp : c ≠ prev := fun hcp => hne (h.apart d' parent c hc (hcp ▸ hprev))
    have hcc : c ≠ child := fun hcc => hfree d' (hcc ▸ hc)
    rw [hnext, update_of_ne hcp, update_of_ne hcc]
  · have := h.mem_insert (A := A ++ [prev]) (by simpa using hA) hlive hfree
    simpa using this

end

/-- The loop stops behind the names that are not larger than the new one. -/
theorem wp_nffsInodeAddChildLoop (h : Recorded s) (h0 : (0 : UInt8) ∉ c.niFilename)
    {Q : Post St FsErr (Option Nat)} :
    ∀ {l A : List Nat} {p : Option Nat} {fuel : Nat}, Linked s.next p l →
      (∀ x ∈ l, (s.inodes x).isSome) → c.niInodeEntry ∉ l → l.length ≤ fuel →
      (∀ A' B, l = A' ++ B → (∀ a ∈ A', ¬ c.niFilename < s.name a) →
        (∀ b ∈ B.head?, c.niFilename < s.name b) → Q.ok (A ++ A').getLast? s) →
      Wp (nffsInodeAddChildLoop c fuel A.getLast? p) Q s := by
  intro l
  induction l with
  | nil =>
    intro A p fuel hl _ _ _ hok
    cases hl
    unfold nffsInodeAddChildLoop
    have := hok [] [] rfl (by simp) (by simp)
    rw [append_nil] at this
    exact .pure this
  | cons x l ih =>
    intro A p fuel hl hlive hnot hfuel hok
    obtain _ | k := fuel
    · simp at hfuel
    simp only [length_cons] at hfuel
    simp only [mem_cons, not_or] at hnot
    obtain ⟨e, he⟩ := Option.isSome_iff_exists.mp (hlive x mem_cons_self)
    obtain ⟨rfl, hl⟩ := hl
    refine .bind (.assert (by simpa using Ne.symm hnot.1) ?_)
    refine .bind (wp_nffsInodeFromEntry h (fun e' he' => ?_) fun hn => by simp [he] at hn)
    cases he.symm.trans he'
    have hcmp : nffsInodeFilenameCmpFlash c (s.inode x e) =
        filenameCmp c.niFilename (s.name x) := by rw [St.name_eq he]; rfl
    have hneg := filenameCmp_neg (b := s.name x) h0
    simp only [hcmp]
    by_cases hlt : filenameCmp c.niFilename (s.name x) < 0
    · rw [if_pos hlt]
      have := hok [] (x :: l) rfl (by simp) (by simpa using hneg.mp hlt)
      rw [append_nil] at this
      exact .pure this
    rw [if_neg hlt]
    refine .bind (wp_inodeEntry_some he ?_)
    rw [St.next_eq he] at hl
    have hlast : some x = (A ++ [x]).getLast? := by simp
    rw [hlast]
    refine ih hl (fun y hy => hlive y (mem_cons_of_mem x hy)) hnot.2 (by omega) ?_
    intro A' B hAB hA hB
    have := hok (x :: A') B (by simp [hAB]) ?_ hB
    · simpa using this
    · intro a ha
      rcases mem_cons.mp ha with rfl | ha
      · exact mt hneg.mpr hlt
      · exact hA a ha

/-- `nffs_inode_add_child` puts an entry that is in no list where its name
belongs. -/
theorem wp_nffsInodeAddChild (h : Listed s own) (hr : Recorded s) (hlive : (s.inodes child).isSome)
    (hfree : ∀ d, child ∉ own d)
    (hok : ∀ s' A B, own parent = A ++ B → (∀ a ∈ A, ¬ s.name child < s.name a) →
      (∀ b ∈ B.head?, s.name child < s.name b) → Relinked s s' →
      Listed s' (update own parent (A ++ child :: B)) → Q.ok () s')
    (hst : Q.stuck) : Wp (nffsInodeAddChild parent child) Q s := by
  obtain ⟨ec, hec⟩ := Option.isSome_iff_exists.mp hlive
  refine .bind (wp_inodeEntry (fun e he => ?_) fun _ => hst)
  refine .bind (.assert_or (fun hd => ?_) fun _ => hst)
  refine .bind (wp_nffsInodeFromEntry hr (fun e' he' => ?_) fun hn => by simp [hec] at hn)
  cases hec.symm.trans he'
  refine .bind (.get ?_)
  have hl := h.linked parent e he hd
  have hmem := fun c hc => h.live parent c hc
  have hname : (s.inode child ec).niFilename = s.name child :=
    (St.name_eq hec).symm
  refine .bind (wp_nffsInodeAddChildLoop (A := []) hr ?_ hl hmem
    (hfree parent) (hr.length_le hl hmem) ?_)
  · rw [hname]
    exact hr.no_zero child
  intro A B hAB hA hB
  rw [hname] at hA hB
  rcases eq_nil_or_concat A with rfl | ⟨A, prev, rfl⟩
  · refine wp_childInsertHead h he hd hlive hfree fun s' hs hl' => ?_
    refine hok s' [] B hAB hA hB hs ?_
    rw [hAB] at hl'
    exact hl'
  · simp only [concat_eq_append, nil_append,
      getLast?_append, getLast?_singleton, Option.some_or, append_assoc] at hAB hA ⊢
    refine wp_childInsertAfter h he hd hAB hlive hfree fun s' hs hl' => ?_
    refine hok s' (A ++ [prev]) B (by simpa using hAB) hA hB hs ?_
    simpa using hl'

theorem wp_childRemoveLoop {ec : InodeEntry} (hec : s.inodes child = some ec) :
    ∀ {l : List Nat} {p : Option Nat} {fuel : Nat}, Linked s.next p l →
      (∀ x ∈ l, (s.inodes x).isSome) → l.length ≤ fuel → (∀ A a B, l = A ++ a :: child :: B →
        Q.ok () (s.mapInode a (InodeEntry.setNext ec.nieSiblingNext))) → Q.stuck →
      Wp (childRemoveLoop child fuel p) Q s := by
  intro l
  induction l with
  | nil =>
    intro p fuel hl _ _ _ hst
    cases hl
    unfold childRemoveLoop
    exact fun _ => hst
  | cons x l ih =>
    intro p fuel hl hlive hfuel hok hst
    obtain _ | k := fuel
    · simp at hfuel
    simp only [length_cons] at hfuel
    obtain ⟨e, he⟩ := Option.isSome_iff_exists.mp (hlive x mem_cons_self)
    obtain ⟨rfl, hl⟩ := hl
    rw [St.next_eq he] at hl
    refine .bind (wp_inodeEntry_some he ?_)
    simp only
    by_cases hn : e.nieSiblingNext = some child
    · rw [if_pos hn]
      obtain ⟨B, rfl⟩ : ∃ B, l = child :: B := by
        cases l with
        | nil => cases hn.symm.trans hl
        | cons y B =>
          cases hn.symm.trans hl.1
          exact ⟨B, rfl⟩
      refine .bind (wp_inodeEntry_some hec ?_)
      exact wp_setInode he (hok [] x B rfl)
    · rw [if_neg hn]
      exact ih hl (fun y hy => hlive y (mem_cons_of_mem x hy)) (by omega)
        (fun A a B hAB => hok (x :: A) a B (by simp [hAB])) hst

/-- Taking an entry out of its list: the head or the link before it is set to
what follows, and then its own link is cleared. -/
theorem Listed.unlink (h : Listed s own) (hlive : (s.inodes child).isSome)
    (hA : own parent = A ++ child :: B) (hs : Relinked s s')
    (hnext : ∀ c, c ∉ A → s'.next c = s.next c) (hl : Linked s'.next (s'.head parent) (A ++ B))
    (hhead : ∀ d', d' ≠ parent → s'.head d' = s.head d') :
    Listed (s'.mapInode child (InodeEntry.setNext none)) (update own parent (A ++ B)) := by
  have hnd := h.linked_nodup parent
  rw [hA] at hnd
  have hchild : child ∉ A ++ B := by
    intro hm
    rw [nodup_middle] at hnd
    exact (nodup_cons.mp hnd).1 hm
  obtain ⟨hp, hd⟩ := h.dir parent child (by simp [hA])
  have hlive' : (s'.inodes child).isSome := by simp [hs.isSome, hlive]
  have hs' := hs.trans (.mapInode child (f := InodeEntry.setNext none) fun _ => rfl)
  refine h.replace hs' hp hd ?_ (fun d' hne => ?_) ?_ ?_
  · rw [St.head_setNext, St.next_setNext hlive']
    refine hl.congr fun c hc => update_of_ne ?_ _ _
    rintro rfl
    exact hchild hc
  · rw [St.head_setNext, hhead d' hne]
  · intro d' c hne hc
    have hnot : ∀ x ∈ own parent, c ≠ x := fun x hx hcx =>
      hne (h.apart d' parent c hc (hcx ▸ hx))
    rw [St.next_setNext hlive', update_of_ne (hnot child (by simp [hA]))]
    exact hnext c fun hcA => hnot c (by simp [hA, hcA]) rfl
  · intro c hc
    have hm : c ∈ own parent := by
      rw [hA]
      simp only [mem_append, mem_cons] at hc ⊢
      tauto
    exact ⟨h.live parent c hm, fun d' hne hd' =>
      hne (h.apart d' parent c hd' hm)⟩

/-- `nffs_inode_remove_child` on an entry that is in the list of the parent its
record names. -/
theorem wp_nffsInodeRemoveChild (h : Listed s own) (hr : Recorded s) (hc : c.niInodeEntry = child)
    (hp : c.niParent = some parent) (hlive : (s.inodes child).isSome)
    (hok : ∀ s' A B, own parent = A ++ child :: B → Relinked s s' →
      Listed s' (update own parent (A ++ B)) → Q.ok () s') (hst : Q.stuck) :
    Wp (nffsInodeRemoveChild c) Q s := by
  obtain ⟨ec, hec⟩ := Option.isSome_iff_exists.mp hlive
  unfold nffsInodeRemoveChild
  simp only [hp, hc]
  refine .bind (.assert_or (fun hd => ?_) fun _ => hst)
  refine .bind (wp_inodeEntry (fun e he => ?_) fun _ => hst)
  refine .bind (.get ?_)
  have hl := h.linked parent e he hd
  have hmem := fun x hx => h.live parent x hx
  by_cases hfirst : e.nieChildList = some child
  · simp only [hfirst, if_true]
    obtain ⟨B, hB⟩ : ∃ B, own parent = child :: B := by
      cases ho : own parent with
      | nil =>
        rw [ho] at hl
        cases hfirst.symm.trans hl
      | cons y B =>
        rw [ho] at hl
        cases hfirst.symm.trans hl.1
        exact ⟨B, rfl⟩
    refine .bind (wp_inodeEntry_some hec ?_)
    refine .bind (wp_setInode (f := InodeEntry.setHead ec.nieSiblingNext) he ?_)
    have hs1 : Relinked s
        (s.mapInode parent (InodeEntry.setHead ec.nieSiblingNext)) :=
      .mapInode _ fun _ => rfl
    obtain ⟨e1, he1, -⟩ := hs1.some hec
    refine .bind (wp_inodeEntry_some he1 ?_)
    refine wp_setInode (f := InodeEntry.setNext none) he1 ?_
    refine hok _ [] B hB (hs1.trans (.mapInode _ fun _ => rfl)) ?_
    refine h.unlink hlive hB hs1 (fun x _ => by rw [St.next_setHead]) ?_ fun d' hne => ?_
    · rw [St.next_setHead, St.head_setHead (by simp [he]), update_self, ← St.next_eq hec]
      exact (hB ▸ hl).2
    · rw [St.head_setHead (by simp [he]), update_of_ne hne]
  · simp only [hfirst, if_false]
    refine .bind (wp_childRemoveLoop hec hl hmem (hr.length_le hl hmem) ?_ hst)
    intro A a B hAB
    have ha : a ∈ own parent := by simp [hAB]
    have hs1 : Relinked s
        (s.mapInode a (InodeEntry.setNext ec.nieSiblingNext)) :=
      .mapInode _ fun _ => rfl
    obtain ⟨e1, he1, -⟩ := hs1.some hec
    refine .bind (wp_inodeEntry_some he1 ?_)
    refine wp_setInode (f := InodeEntry.setNext none) he1 ?_
    have hAB' : own parent = (A ++ [a]) ++ child :: B := by simpa using hAB
    refine hok _ (A ++ [a]) B hAB' (hs1.trans (.mapInode _ fun _ => rfl)) ?_
    refine h.unlink hlive hAB' hs1 (fun x hx => ?_) ?_ fun d' _ => by rw [St.head_setNext]
    · have hxa : x ≠ a := fun hxa => hx (by simp [hxa])
      rw [St.next_setNext (hmem a ha), update_of_ne hxa]
    · rw [St.head_setNext, St.head_eq he, St.next_setNext (hmem a ha), ← St.next_eq hec]
      rw [hAB] at hl
      simpa using hl.remove_after

end Lists

end Larva.Nffs
