import Larva.Nffs.Directories

/-!
# Creating, opening and closing

A new inode gets an id that no entry has, and joins its parent's list at the
place of its name. The list stays strictly sorted unless it already has an
entry of the name that is stored; a caller that has looked the name up knows
this, but for a name of 256 bytes, of which none is stored.

A handle is counted in the file it is open on, so that the last of the place
and the handles to go frees the file.
-/

namespace Larva.Nffs

open Larva.Crash Larva.SList Function List Option

/-! ## A new inode -/

/-- The entry of a new inode. -/
def newEntry (parent : Nat) (t : Name) : InodeEntry :=
  ⟨⟨0, parent, stored t⟩, none, none, none, 1⟩

def St.insertInode (s : St) (id : Nat) (e : InodeEntry) : St :=
  { s with inodes := fun i => if i = id then some e else s.inodes i }

/-- The next id of a kind, and the state that has given it out. -/
def St.newId (s : St) (isDir : Bool) : Nat :=
  if isDir then s.nextDirId else s.nextFileId

def St.countId (s : St) (isDir : Bool) : St :=
  if isDir then { s with nextDirId := u32 (s.nextDirId + 1) }
  else { s with nextFileId := u32 (s.nextFileId + 1) }

/-- There are ids left of a kind. -/
def St.HasId (s : St) (isDir : Bool) : Prop :=
  if isDir then s.nextDirId < idDirMax else s.nextFileId < idFileMax

section New

variable {s s' : St} {own : Nat → List Nat} {p id i n : Nat}
  {isDir : Bool} {t : Name} {e : InodeEntry} {A B : List Nat} {Q : Post St FsErr Unit} {a : Area}

theorem St.insertInode_self : (s.insertInode id e).inodes id = some e :=
  if_pos rfl

theorem St.insertInode_of_ne (h : i ≠ id) : (s.insertInode id e).inodes i = s.inodes i := if_neg h

section

variable (h : Recorded s) (hid : s.HasId isDir)
include h hid

/-- The id that is given out has no entry. -/
theorem Recorded.newId_free : s.inodes (s.newId isDir) = none := by
  have := h.minFile
  have hmin : idFileMin = idDirMax := rfl
  cases he : s.inodes _ with
  | none => rfl
  | some e =>
    have hlt := h.ids _ (by rw [he]; rfl)
    have hmax := h.maxDir
    unfold St.newId at hlt
    unfold St.HasId at hid
    cases isDir
    · simp only [Bool.false_eq_true, if_false] at hlt hid
      omega
    · simp only [if_true] at hlt hid
      omega

theorem hashIdIsFile_newId : hashIdIsFile (s.newId isDir) = !isDir := by
  have hmin : idFileMin = idDirMax := rfl
  unfold St.HasId at hid
  unfold St.newId hashIdIsFile
  cases isDir
  · simp only [Bool.false_eq_true, if_false] at hid ⊢
    simp [h.minFile, hid]
  · simp only [if_true] at hid ⊢
    have : ¬ idFileMin ≤ s.nextDirId := by omega
    simp [this]

/-- The records with a new one among them. -/
theorem Recorded.insert (h0 : (0 : UInt8) ∉ t) (hp : hashIdIsInode p = true) :
    Recorded ((s.countId isDir).insertInode (s.newId isDir) (newEntry p t)) := by
  have hdmax : idDirMax = 0x10000000 := rfl
  have hfmax : idFileMax = 0x80000000 := rfl
  have := h.minFile
  have := h.maxFile
  have := h.maxDir
  have hent : ∀ {i e'}, ((s.countId isDir).insertInode (s.newId isDir) (newEntry p t)).inodes i =
      some e' → i = s.newId isDir ∧ e' = newEntry p t ∨ s.inodes i = some e' := by
    intro i e' he'
    by_cases hi : i = s.newId isDir
    · rw [hi, St.insertInode_self] at he'
      exact .inl ⟨hi, (some.inj he').symm⟩
    · rw [St.insertInode_of_ne hi] at he'
      refine .inr ?_
      cases isDir <;> exact he'
  have hu : ∀ n, n ≤ 0x80000000 → u32 (n + 1) = n + 1 := fun n hn =>
    u32_eq (by omega)
  refine ⟨fun i e' he' => ?_, fun i e' he' => ?_, fun i hi => ?_, ?_, ?_, ?_⟩
  · rcases hent he' with ⟨-, rfl⟩ | he'
    · exact ⟨fun h => h0 (mem_of_mem_stored h), stored_length t⟩
    · exact h.name i e' he'
  · rcases hent he' with ⟨-, rfl⟩ | he'
    · exact .inr hp
    · exact h.parent i e' he'
  · have hids : i = s.newId isDir ∨ (s.inodes i).isSome := by
      obtain ⟨e', he'⟩ := isSome_iff_exists.mp hi
      exact (hent he').imp And.left fun h => isSome_iff_exists.mpr ⟨e', h⟩
    unfold St.insertInode St.countId
    unfold St.newId at hids
    cases isDir
    · simp only [Bool.false_eq_true, if_false] at hids ⊢
      rw [hu _ (by omega)]
      rcases hids with rfl | hids
      · omega
      · have := h.ids i hids
        omega
    · simp only [if_true] at hids ⊢
      rw [hu _ (by omega)]
      rcases hids with rfl | hids
      · omega
      · have := h.ids i hids
        omega
  all_goals
    unfold St.insertInode St.countId
    unfold St.HasId at hid
    cases isDir
    · simp only [Bool.false_eq_true, if_false] at hid ⊢
      first | rw [hu _ (by omega)] | skip
      omega
    · simp only [if_true] at hid ⊢
      first | rw [hu _ (by omega)] | skip
      omega

end

theorem St.countId_inodes : (s.countId isDir).inodes = s.inodes := by
  unfold St.countId
  split <;> rfl

/-- An entry that joins the table is in no list and has an empty one. -/
theorem Listed.insert (h : Listed s own) (hid : s.inodes id = none)
    (hchild : e.nieChildList = none) : Listed (s.insertInode id e) own := by
  have hfree : ∀ d, id ∉ own d := h.not_mem_of_not_live hid
  have hmem : ∀ {i}, (s.inodes i).isSome → ((s.insertInode id e).inodes i).isSome := by
    intro i hi
    have hne : i ≠ id := by
      rintro rfl
      simp [hid] at hi
    rw [St.insertInode_of_ne hne]
    exact hi
  refine ⟨fun d e' he' hd => ?_, fun d c hc => ?_, fun d c hc => ?_, h.apart⟩
  · by_cases hdi : d = id
    · subst hdi
      rw [St.insertInode_self] at he'
      cases he'
      have hnil : own d = [] := eq_nil_iff_forall_not_mem.mpr fun c hc => by
        simpa [hid] using (h.dir d c hc).1
      rw [hnil, hchild]
      rfl
    · rw [St.insertInode_of_ne hdi] at he'
      refine (h.linked d e' he' hd).congr fun c hc => ?_
      have hci : c ≠ id := fun hci => hfree d (hci ▸ hc)
      simp only [St.next, St.insertInode_of_ne hci]
  · exact ⟨hmem (h.dir d c hc).1, (h.dir d c hc).2⟩
  · exact hmem (h.live d c hc)

theorem Chained.insert {R : Nat → List Link} (h : Chained s R) (hlast : e.nieLastBlockEntry = none) :
    Chained (s.insertInode id e) (update R id []) := by
  have hold : ∀ {f}, f ≠ id → ((s.insertInode id e).inodes f).isSome → (s.inodes f).isSome := by
    intro f hf hlive
    rwa [St.insertInode_of_ne hf] at hlive
  refine ⟨h.minId, h.maxId, fun f e' he' hf => ?_, fun f hlive hf => ?_, fun f hlive hf => ?_⟩
  · by_cases hfi : f = id
    · subst hfi
      rw [St.insertInode_self] at he'
      cases he'
      rw [update_self, hlast]
      rfl
    · rw [St.insertInode_of_ne hfi] at he'
      rw [update_of_ne hfi]
      exact h.last f e' he' hf
  · by_cases hfi : f = id
    · subst hfi
      rw [update_self]
      exact trivial
    · rw [update_of_ne hfi]
      exact h.chain f (hold hfi hlive) hf
  · by_cases hfi : f = id
    · subst hfi
      rw [update_self]
      decide
    · rw [update_of_ne hfi]
      exact h.size f (hold hfi hlive) hf

theorem Orderly.inodePool (h : Orderly s own) (n : Nat) :
    Orderly { s with inodePool := n } own := by
  obtain ⟨R, hR⟩ := h.chained
  exact { h with chained := ⟨R, { hR with }⟩, space := { h.space with } }

/-- The state with a new entry that is in no list yet. -/
def St.withNew (s : St) (isDir : Bool) (p : Nat) (t : Name) : St :=
  (s.countId isDir).insertInode (s.newId isDir) (newEntry p t)

theorem St.withNew_self : (s.withNew isDir p t).inodes (s.newId isDir) = some (newEntry p t) :=
  St.insertInode_self

theorem St.withNew_of_ne (hi : i ≠ s.newId isDir) :
    (s.withNew isDir p t).inodes i = s.inodes i := by
  unfold St.withNew
  rw [St.insertInode_of_ne hi, St.countId_inodes]

/-- The state but for the entries and the counters. -/
theorem St.withNew_eq : s.withNew isDir p t = { s with
    inodes := (s.withNew isDir p t).inodes
    nextDirId := (s.withNew isDir p t).nextDirId
    nextFileId := (s.withNew isDir p t).nextFileId } := by
  unfold St.withNew St.countId
  split <;> rfl

theorem Held.withNew_listed (h : Held s own) (hid : s.HasId isDir) :
    Listed (s.withNew isDir p t) own := by
  refine Listed.insert ?_ ?_ rfl
  · unfold St.countId
    split <;> exact { h with }
  · rw [St.countId_inodes]
    exact h.toRecorded.newId_free hid

theorem Held.withNew_chained (h : Held s own) : ∃ R, Chained (s.withNew isDir p t) R := by
  obtain ⟨R, hR⟩ := h.chained
  refine ⟨update R (s.newId isDir) [], Chained.insert ?_ rfl⟩
  unfold St.countId
  split <;> exact { hR with }

/-- No handle is open on an inode that is yet to come. -/
theorem Held.handles_newId (h : Held s own) (hid : s.HasId isDir) :
    s.handles (s.newId isDir) = 0 := by
  refine countP_eq_zero.mpr fun k _ hk => ?_
  simp only [beq_iff_eq, Option.map_eq_some_iff] at hk
  obtain ⟨f, hf, hfe⟩ := hk
  obtain ⟨-, hfile, hlt⟩ := h.files k f hf
  rw [hfe] at hfile hlt
  rw [hashIdIsFile_newId h.toRecorded hid] at hfile
  cases isDir
  · exact absurd hlt (lt_irrefl _)
  · cases hfile

theorem Recorded.countId_nextFileId (h : Recorded s) :
    s.nextFileId ≤ (s.countId isDir).nextFileId := by
  have hmax : idFileMax = 0x80000000 := rfl
  have := h.maxFile
  unfold St.countId
  cases isDir
  · have hu : u32 (s.nextFileId + 1) = s.nextFileId + 1 := u32_eq (by omega)
    simp [hu]
  · exact le_refl _

section Created

variable (hid : s.HasId isDir) (h0 : (0 : UInt8) ∉ t) (hp : hashIdIsInode p = true)
  (hA : own p = A ++ B) (hrel : Relinked (s.withNew isDir p t) s')
  (hl : Listed s' (update own p (A ++ s.newId isDir :: B)))
include hid h0 hp hA hrel hl

theorem Held.created (h : Held s own) : Held s' (update own p (A ++ s.newId isDir :: B)) := by
  have hsame : s' = { s with
      inodes := s'.inodes
      nextDirId := s'.nextDirId
      nextFileId := s'.nextFileId } := by
    rw [hrel.same, St.withNew_eq]
  have hhandles : s'.handles = s.handles := by
    rw [hsame]
    rfl
  obtain ⟨R, hR⟩ : ∃ R, Chained (s.withNew isDir p t) R := h.withNew_chained
  refine ⟨hrel.recorded (h.toRecorded.insert hid h0 hp), hl, ⟨R, hrel.chained hR⟩, ?_,
    fun k f hf => ?_, fun i e' he' hf hli => ?_, ?_⟩
  · rw [hsame]
    exact { h.space with }
  · have hnext : s.nextFileId ≤ s'.nextFileId := by
      rw [hrel.same]
      exact h.toRecorded.countId_nextFileId
    have hf' : s.files k = some f := by
      rw [hsame] at hf
      exact hf
    obtain ⟨hk, hfile, hlt⟩ := h.files k f hf'
    exact ⟨by rw [hsame]; exact hk, hfile, lt_of_lt_of_le hlt hnext⟩
  · obtain ⟨e, he, hb⟩ := hrel.symm.some he'
    rw [hhandles, ← refcnt_of_bare hb]
    by_cases hi : i = s.newId isDir
    · subst hi
      rw [St.withNew_self] at he
      cases he
      rw [h.handles_newId hid]
      exact Nat.one_pos
    rw [St.withNew_of_ne hi] at he
    refine h.refs i e he hf ?_
    obtain ⟨d, hd⟩ := hli
    refine ⟨d, ?_⟩
    by_cases hdp : d = p
    · subst hdp
      rw [update_self] at hd
      rw [hA]
      simpa [hi] using hd
    · rwa [update_of_ne hdp] at hd
  · rw [hsame]
    exact h.idle

/-- A new entry joins a sorted list at its place. -/
theorem Orderly.created (h : Orderly s own)
    (hle : ∀ a ∈ A, ¬ (s.withNew isDir p t).name (s.newId isDir) < (s.withNew isDir p t).name a)
    (hlt : ∀ b ∈ B.head?, (s.withNew isDir p t).name (s.newId isDir) < (s.withNew isDir p t).name b)
    (hnew : ∀ c ∈ own p, s.name c ≠ stored t) : Orderly s' (update own p (A ++ s.newId isDir :: B)) := by
  have hnone := h.toListed.not_mem_of_not_live (h.toRecorded.newId_free hid)
  have hother : ∀ c, c ≠ s.newId isDir → (s.withNew isDir p t).name c = s.name c := by
    intro c hc
    simp only [St.name, St.withNew_of_ne hc]
  have hself : (s.withNew isDir p t).name (s.newId isDir) = stored t := by
    simp only [St.name, St.withNew_self, newEntry]
  have hsort : ∀ d, (s.withNew isDir p t).Sorted (own d) := by
    intro d
    refine (h.sorted d).imp_of_mem fun {a b} ha hb hab => ?_
    rw [hother a fun hc => hnone d (hc ▸ ha), hother b fun hc => hnone d (hc ▸ hb)]
    exact hab
  refine ⟨h.toHeld.created hid h0 hp hA hrel hl, fun d => ?_⟩
  unfold St.Sorted
  rw [hrel.name]
  by_cases hd : d = p
  · subst hd
    rw [update_self]
    refine (aroundOld_insert (hA ▸ hsort d) (hA ▸ hnone d) hle hlt).imp_of_mem
      fun {a b} ha hb hab => ?_
    rcases hab with ⟨-, -, hab⟩ | ⟨rfl, -, hab⟩ | ⟨rfl, hna, hab⟩
    · exact hab
    · exact hab
    -- Neither smaller nor equal.
    have hmem : a ∈ own d := by
      rw [hA]
      simp only [mem_append, mem_cons, hna, false_or] at ha ⊢
      exact ha
    refine Decidable.byContradiction fun hge => hnew a hmem ?_
    rw [← hself, ← hother a hna]
    exact List.le_antisymm hab hge
  · rw [update_of_ne hd]
    exact hsort d

end Created

theorem wp_nffsInodeEntryAlloc (hok : s.inodePool ≠ 0 →
      Q.ok () { s with inodePool := s.inodePool - 1 }) (herr : Q.err .enomem s) :
    Wp nffsInodeEntryAlloc Q s := by
  refine .bind (.get ?_)
  by_cases hpool : s.inodePool = 0
  · simp only [hpool, if_true]
    exact .fail herr
  · simp only [hpool, if_false]
    exact .modify (hok hpool)

theorem Recorded.isInode (h : Recorded s) (hp : (s.inodes p).isSome) : hashIdIsInode p = true := by
  have := h.ids p hp
  have := h.maxDir
  have := h.maxFile
  simp only [hashIdIsInode, hashIdIsDir, hashIdIsFile, Bool.or_eq_true,
    Bool.and_eq_true, decide_eq_true_eq]
  omega

theorem wp_nffsInodeAddChild_new (h : Orderly s own) (hid : s.HasId isDir) (h0 : (0 : UInt8) ∉ t)
    (hp : (s.inodes p).isSome) (hnew : ∀ c ∈ own p, s.name c ≠ stored t)
    (hok : ∀ s' own' e, Orderly s' own' →
      s'.inodes (s.newId isDir) = some e → e.nieRefcnt = 1 →
      s'.files = s.files → s'.filePool = s.filePool → Q.ok () s')
    (hst : Q.stuck) : Wp (nffsInodeAddChild p (s.newId isDir)) Q (s.withNew isDir p t) := by
  have hfree := h.toRecorded.newId_free hid
  have hpi := h.toRecorded.isInode hp
  refine wp_nffsInodeAddChild (h.toHeld.withNew_listed hid) (h.toRecorded.insert hid h0 hpi)
    (by rw [St.withNew_self]; rfl) (h.toListed.not_mem_of_not_live hfree) ?_ hst
  intro s' A B hA hle hlt hrel hl
  obtain ⟨e, he, hb⟩ := hrel.some St.withNew_self
  refine hok s' _ e (h.created hid h0 hpi hA hrel hl hle hlt hnew) he (refcnt_of_bare hb) ?_ ?_
  · rw [hrel.same, St.withNew_eq]
  · rw [hrel.same, St.withNew_eq]

theorem room_inodePool (k : Nat) : ({ s with inodePool := k } : St).room n = s.room n :=
  room_congr rfl rfl rfl rfl

/-- The state after a record of `n` bytes was written to an area. -/
def St.filled (s : St) (i : Nat) (a : Area) (n : Nat) : St :=
  { s with areas := advance s.areas i a n }

/-- The same state, however the counter and the fill level are set. -/
theorem St.withNew_filled : ((s.countId isDir).filled i a n).insertInode (s.newId isDir)
        (newEntry p t) = (s.filled i a n).withNew isDir p t := by
  unfold St.withNew St.countId St.newId
  split <;> rfl

theorem Orderly.filled (h : Orderly s own) (ha : s.areas[i]? = some a)
    (hroom : a.naCur + n ≤ a.naLength) : Orderly (s.filled i a n) own := by
  have hs : SpaceOnly s (s.filled i a n) := rfl
  exact h.spaceOnly hs (h.space.of_areas hs (areas_advance h.space.areas ha hroom))

/-- `nffs_file_new` below a directory. -/
theorem wp_nffsFileNew (h : Orderly s own) (hid : s.HasId isDir) (h0 : (0 : UInt8) ∉ t)
    (hnew : s.inodePool ≠ 0 → (∃ i, s.room (sizeofDiskInode + u8 t.length) = .ok i) →
      ∀ c ∈ own p, s.name c ≠ stored t) {Q : Post St FsErr Nat}
    (hok : ∀ s' own' e, Orderly s' own' →
      s'.inodes (s.newId isDir) = some e → e.nieRefcnt = 1 →
      s'.files = s.files → s'.filePool = s.filePool → Q.ok (s.newId isDir) s')
    (herr : ∀ s' code, SpaceOnly s s' → Spacious s' → Q.err code s')
    (hst : Q.stuck) : Wp (nffsFileNew (some p) t t.length isDir) Q s := by
  have hu : u8 t.length < 256 := Nat.mod_lt _ (by decide)
  have hsize : sizeofDiskInode = 20 := rfl
  refine .bind (wp_nffsInodeEntryAlloc (fun hpool => ?_) (herr s _ (.refl s) h.space))
  have h₀ := h.inodePool (s.inodePool - 1)
  refine .bind (.attempt (wp_reserve h₀.space (by omega) ?_ ?_))
  · intro s1 i a hs1 hsp1 ha hroom hplace
    have hr : s.room (sizeofDiskInode + u8 t.length) = .ok i := by
      have hsnd := congrArg Prod.snd hplace
      exact (room_inodePool _).symm.trans hsnd
    refine .bind (.get (.bind (.modify ?_)))
    show Wp _ Q (s1.countId isDir)
    refine .bind (wp_inodeEntry (fun ep hep => ?_) fun _ => hst)
    rw [St.countId_inodes] at hep
    have ha' : (s1.countId isDir).areas = s1.areas := by
      unfold St.countId
      split <;> rfl
    refine .bind (.pure (.bind (.attempt (wp_nffsInodeWriteDisk
      (ha'.symm ▸ hsp1.areas) (ha'.symm ▸ ha) hroom ?_))))
    refine .bind (wp_nffsFlashLoc hsp1.areas ha hroom (by omega) ?_)
    refine .bind (.modify ?_)
    show Wp (nffsInodeAddChild p (s1.newId isDir) >>= fun _ =>
      pure (s1.newId isDir)) Q
      (((s1.countId isDir).filled i a _).insertInode
        (s1.newId isDir) (newEntry p t))
    rw [St.withNew_filled]
    have h₂ := (h₀.spaceOnly hs1 hsp1).filled ha hroom
    generalize hs2 : s1.filled i a (sizeofDiskInode + u8 t.length) = s2 at h₂ ⊢
    have hin : s2.inodes = s.inodes := by rw [← hs2, St.filled, hs1]
    have hnewId : s1.newId isDir = s2.newId isDir := by
      rw [← hs2]
      rfl
    have hnewId' : s2.newId isDir = s.newId isDir := by
      rw [← hs2, St.filled, hs1]
      rfl
    rw [hnewId]
    refine .bind (wp_nffsInodeAddChild_new h₂ ?_ h0 ?_ ?_ ?_ hst)
    · rw [← hs2, St.filled, hs1]
      exact hid
    · rw [hin, ← hs1.inodes, hep]
      rfl
    · have hname : s2.name = s.name := by
        unfold St.name
        rw [hin]
      rw [hname]
      exact hnew hpool ⟨i, hr⟩
    · intro s' own' e h' he he1 hfiles hfp
      rw [hnewId'] at he ⊢
      refine .pure (hok s' own' e h' he he1 ?_ ?_)
      · rw [hfiles, ← hs2, St.filled, hs1]
      · rw [hfp, ← hs2, St.filled, hs1]
  · intro s1 code hs1 hsp1 _
    refine .bind (.modify (.fail (herr _ code ?_ { hsp1 with })))
    have hpool' : s.inodePool - 1 + 1 = s.inodePool := by omega
    unfold SpaceOnly
    rw [hs1]
    simp only [hpool']

end New

/-! ## Handles -/

def St.setHandle (s : St) (k : Nat) (f : Option File) : St :=
  { s with files := fun i => if i = k then f else s.files i }

def InodeEntry.incRefcnt (e : InodeEntry) : InodeEntry :=
  { e with nieRefcnt := u8 (e.nieRefcnt + 1) }

section Handles

variable {s s₁ : St} {own : Nat → List Nat} {id k : Nat} {e : InodeEntry} {f : File}

/-- Two tests that agree but at one place of a list. -/
theorem countP_change {α : Type} [DecidableEq α] {p q : α → Bool} {a : α} {l : List α}
    (hn : l.Nodup) (ha : a ∈ l) (hpq : ∀ b, b ≠ a → p b = q b) :
    l.countP p + (if q a then 1 else 0) = l.countP q + (if p a then 1 else 0) := by
  have hl : (l.erase a).countP p = (l.erase a).countP q := countP_congr fun c hc => by
    rw [hpq c (hn.mem_erase_iff.mp hc).1]
  rw [(perm_cons_erase ha).countP_eq p, (perm_cons_erase ha).countP_eq q, countP_cons, countP_cons]
  omega

/-- A handle that is set counts for its new file and no longer for its old
one. -/
theorem handles_setHandle (id : Nat) (hk : k < s.filePool) {f : Option File} :
    (s.setHandle k f).handles id + (if (s.files k).map File.nfInodeEntry == some id then 1 else 0) =
      s.handles id + (if f.map File.nfInodeEntry == some id then 1 else 0) := by
  have := countP_change (p := fun h => ((s.setHandle k f).files h).map File.nfInodeEntry == some id)
    (q := fun h => (s.files h).map File.nfInodeEntry == some id)
    nodup_range (mem_range.mpr hk) fun b hb => by
      simp only [St.setHandle, if_neg hb]
  simp only [St.setHandle, if_true] at this
  exact this

theorem St.freeFile_some (h : s.freeFile = some k) : k < s.filePool ∧ s.files k = none := by
  refine ⟨mem_range.mp (mem_of_find?_eq_some h), ?_⟩
  simpa using find?_some h

/-- A handle is set or cleared, and the count of its file with it. -/
theorem Orderly.setHandle (h : Orderly s own) (hsame : TableOnly s s₁) (hh : Hanging s₁ own)
    (hnil : s₁.unlinkList = []) (hk : k < s.filePool) {f : Option File}
    (hf : ∀ g ∈ f, hashIdIsFile g.nfInodeEntry = true ∧ g.nfInodeEntry < s.nextFileId)
    (href : ∀ i e', s₁.inodes i = some e' → ∃ e, s.inodes i = some e ∧ e'.disk = e.disk ∧
      e.nieRefcnt + (if f.map File.nfInodeEntry == some i then 1 else 0) ≤
        e'.nieRefcnt + (if (s.files k).map File.nfInodeEntry == some i then 1 else 0)) :
    Orderly (s₁.setHandle k f) own := by
  obtain ⟨R, hR⟩ := hh.chained
  have hl := hh.listed hnil
  refine ⟨⟨{ hh with }, { hl with }, ⟨R, { hR with }⟩, ?_, fun i g hg => ?_,
    fun i e' he' hi hli => ?_, hnil⟩, fun d => (h.sorted d).of_disk (.refl _) fun c hc => ?_⟩
  · rw [hsame]
    exact { h.space with }
  · have hpool : (s₁.setHandle k f).filePool = s.filePool := by rw [hsame]; rfl
    have hnext : (s₁.setHandle k f).nextFileId = s.nextFileId := by rw [hsame]; rfl
    rw [hpool, hnext]
    simp only [St.setHandle] at hg
    split at hg
    · next hi =>
      rw [hi]
      exact ⟨hk, hf g hg⟩
    · rw [hsame] at hg
      exact h.files i g hg
  · obtain ⟨e, he, -, hcnt⟩ := href i e' he'
    have hhandles : (s₁.setHandle k f).handles i = (s.setHandle k f).handles i := by
      rw [hsame]
      rfl
    have hset := handles_setHandle i hk (f := f)
    have hlt := h.refs i e he hi hli
    omega
  · obtain ⟨e', he'⟩ := isSome_iff_exists.mp (hl.live d c hc)
    obtain ⟨e, he, hd, -⟩ := href c e' he'
    simp only [St.setHandle, he, he', Option.map_some, hd]

/-- A file with a handle more. -/
theorem Orderly.opened (h : Orderly s own) (he : s.inodes id = some e)
    (hfile : hashIdIsFile id = true) (hcnt : e.nieRefcnt < 255)
    (hk : s.freeFile = some k) (hf : f.nfInodeEntry = id) :
    Orderly ((s.mapInode id InodeEntry.incRefcnt).setHandle k (some f)) own := by
  obtain ⟨hkp, hkn⟩ := St.freeFile_some hk
  obtain ⟨R, hR⟩ := h.chained
  have hinc : e.incRefcnt.nieRefcnt = e.nieRefcnt + 1 :=
    Nat.mod_eq_of_lt (by omega)
  have hl := h.toListed.mapInode id (f := InodeEntry.incRefcnt) (fun _ => rfl) (fun _ => rfl)
  refine h.setHandle (.mapInode _ _) (hl.hanging (h.toRecorded.of_old (fun i e' he' =>
      St.mapInode_old InodeEntry.disk he' fun _ => rfl) rfl rfl)
    ⟨R, hR.mapInode id fun _ => rfl⟩ h.idle) h.idle hkp ?_ fun i e' he' => ?_
  · intro g hg
    cases hg
    rw [hf]
    exact ⟨hfile, h.toRecorded.file_lt (by simp [he]) hfile⟩
  · rw [hkn, Option.map_some, hf]
    obtain ⟨e0, he0, ⟨hne, rfl⟩ | ⟨rfl, rfl⟩⟩ := St.mapInode_cases he'
    · exact ⟨e', he0, rfl, by simp [Ne.symm hne]⟩
    · cases he.symm.trans he0
      exact ⟨e, he, rfl, by simp [hinc]⟩

/-- A file with a handle less. One that had only this handle was in no
list. -/
theorem ends_nffsFileClose (h : Orderly s own) {Q : Post St FsErr Unit}
    (hok : ∀ s', Orderly s' own → Q.ok () s') (hst : Q.stuck) : Ends (nffsFileClose k) Q s := by
  obtain ⟨R, hR⟩ := h.chained
  refine .bind_wp (.bind (.get ?_))
  cases hf : s.files k with
  | none =>
    simp only [hf]
    exact fun _ => hst
  | some f =>
    simp only [hf]
    obtain ⟨hk, hfile, -⟩ := h.files k f hf
    have hpos : 0 < s.handles f.nfInodeEntry :=
      countP_pos_iff.mpr ⟨k, mem_range.mpr hk, by simp [hf]⟩
    have hh := (h.toListed.hanging h.toRecorded ⟨R, hR⟩ h.idle).decRefcnt f.nfInodeEntry
    have href : ∀ i e', (s.mapInode f.nfInodeEntry InodeEntry.decRefcnt).inodes i = some e' →
        ∃ e, s.inodes i = some e ∧ e'.disk = e.disk ∧ e.nieRefcnt +
          (if (none : Option File).map File.nfInodeEntry == some i then 1 else 0) ≤
          e'.nieRefcnt + (if (s.files k).map File.nfInodeEntry == some i then 1 else 0) := by
      intro i e' he'
      rw [hf, Option.map_some]
      obtain ⟨e0, he0, ⟨hne, rfl⟩ | ⟨rfl, rfl⟩⟩ := St.mapInode_cases he'
      · exact ⟨e', he0, rfl, by simp⟩
      · refine ⟨e0, he0, rfl, ?_⟩
        simp [InodeEntry.decRefcnt]
        omega
    refine .pure (.bind (ends_nffsInodeDecRefcnt hR hst (fun e he hne => ?_) fun e s1 he hone hr => ?_))
    · exact (Wp.modify (hok _ (h.setHandle (.mapInode _ _) hh h.idle hk (by simp) href))).ends
    have hfree : ∀ d, f.nfInodeEntry ∉ own d := by
      intro d hd
      have := h.refs _ e he hfile ⟨d, hd⟩
      omega
    obtain ⟨_, -, hu⟩ := hr.waits
    rw [if_pos hfile] at hu
    refine (Wp.modify (hok _ (h.setHandle ((TableOnly.mapInode _ _).trans hr.same)
      (hh.removed hfree hr) (hu.trans h.idle) hk (by simp) fun i e' he' => ?_))).ends
    rw [hr.inodes] at he'
    split at he'
    · cases he'
    · exact href i e' he'

end Handles

end Larva.Nffs
