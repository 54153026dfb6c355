import Larva.Nffs.Create

/-!
# Directories stay searchable

The operations that change a directory, called by path, and runs of them. Of
each operation two things are shown: a state in which all lists are sorted
goes to such a state, and where this needs a condition on the call the
condition is as `DirOp.Safe` says.

* **Creating.** The name was looked up first, so it is new to its list. Only
  a name of 256 bytes, of which nothing is stored, may meet another one.

* **Opening for truncation.** The old file is unlinked and a new one created,
  whether the unlink succeeded or not. If the deletion record finds no room
  and the new inode does, the name is there twice.

* **Renaming.** An entry that stays in its directory keeps its place in the
  list, and one that moves is put where its old name belongs. Either way the
  new name has to fit there. An entry that moves is moved before its record
  is reserved, so where the reservation fails it is the old name that must not
  be in the new list.
-/

namespace Larva.Nffs

open Larva.Crash Larva.SList List

/-! ## Unlinking by path -/

section Unlinking

variable {s : St} {own : Nat → List Nat} {Q : Post St FsErr Unit}

/-- `nffs_path_unlink`. -/
theorem ends_nffsPathUnlink (h : Orderly s own) {path : Name}
    (hok : ∀ s₁ s' own' id d t, s.lookup path = .found id d t →
      s.store sizeofDiskInode sizeofDiskInode = .ok s₁ → SpaceOnly s s₁ →
      Orderly s' own' → Unlinked s s₁ s' own own' id → Q.ok () s')
    (herr : ∀ s' code, SpaceOnly s s' → Spacious s' → (∀ id d t, s.lookup path = .found id d t →
        s.place sizeofDiskInode = (s', .error code)) → Q.err code s') (hst : Q.stuck) :
    Ends (nffsPathUnlink path) Q s := by
  refine .bind_wp (.bind (wp_nffsPathFind h.ordered path (fun r hr => ?_) fun _ => hst))
  by_cases hf : ∃ id d t, s.lookup path = .found id d t
  · obtain ⟨id, d, t, hl⟩ := hf
    obtain ⟨hent, -⟩ := hl ▸ hr
    simp only [hent]
    refine .pure (.bind_wp (wp_nffsInodeFromEntry h.toRecorded (fun e he => ?_) fun _ => hst))
    refine ends_nffsInodeUnlink h he ?_ ?_ hst
    · intro s₁ s' own' p hstore hs1 _ _ h' hun
      exact hok s₁ s' own' id d t hl hstore hs1 h' hun
    · intro s₁ code hplace hs1 hsp1
      exact herr s₁ code hs1 hsp1 fun _ _ _ _ => hplace
  · have hnone : ∀ id d t, s.lookup path ≠ .found id d t :=
      fun id d t hl => hf ⟨id, d, t, hl⟩
    obtain ⟨code, hent⟩ := hr.error hnone
    simp only [hent]
    exact .fail (herr s code (.refl s) h.space fun id d t hl =>
      absurd hl (hnone id d t))

end Unlinking

/-! ## Creating by path -/

/-- A new inode of that name may be made in the directory. -/
def St.CanCreate (s : St) (isDir : Bool) (d : Nat) (t : Name) : Prop :=
  s.HasId isDir ∧ ∀ c ∈ s.kids d, s.name c ≠ stored t

/-- The state is one between two operations. -/
def St.Tidy (s : St) : Prop := ∃ own, Orderly s own

def tidy {α : Type} : Post St FsErr α :=
  ⟨fun _ s => s.Tidy, fun _ s => s.Tidy, fun _ => True, True⟩

section Creating

variable {s s' : St} {own : Nat → List Nat} {path t : Name}

theorem Orderly.kids_eq (h : Orderly s own) (d : Nat) : s.kids d = own d := by
  have hnil : (s.inodes d = none ∨ hashIdIsDir d = false) → own d = [] := by
    intro hd
    refine eq_nil_iff_forall_not_mem.mpr fun c hc => ?_
    obtain ⟨hlive, hdir⟩ := h.dir d c hc
    rcases hd with hd | hd
    · simp [hd] at hlive
    · rw [hd] at hdir
      cases hdir
  cases he : s.inodes d with
  | none =>
    rw [hnil (.inl he)]
    simp [St.kids, he]
  | some e =>
    by_cases hd : hashIdIsDir d = true
    · exact h.ordered.kids_eq he hd
    · rw [hnil (.inr (by simpa using hd))]
      simp [St.kids, he, hd]

theorem wp_nffsPathNewDir (h : Orderly s own) (h0 : (0 : UInt8) ∉ path)
    (hsafe : ∀ d t, s.lookup path = .absent d t → s.CanCreate true d t) :
    Wp (nffsPathNewDir path) tidy s := by
  refine .bind (wp_nffsPathFind h.ordered path (fun r hr => ?_) fun _ => trivial)
  have htidy : ∀ s' code, SpaceOnly s s' → Spacious s' →
      (tidy : Post St FsErr Nat).err code s' :=
    fun s' _ hs' hsp' => ⟨own, h.spaceOnly hs' hsp'⟩
  rcases hr.cases with ⟨id, d, t, hl⟩ | ⟨d, t, hl⟩ | ⟨hent, htype⟩ | ⟨code, hc, hent⟩
  · obtain ⟨hent, -⟩ := hl ▸ hr
    simp only [hent]
    exact .fail (htidy s _ (.refl s) h.space)
  · obtain ⟨hent, hpar, htype, htok, hlen⟩ := hl ▸ hr
    obtain ⟨hid, hnew⟩ := hsafe d t hl
    rw [h.kids_eq] at hnew
    simp only [hent, hpar, htype, htok, hlen, ne_eq, not_true_eq_false,
      reduceCtorEq, or_self, if_false]
    obtain ⟨-, hmem, -⟩ := St.lookup_absent hl
    exact wp_nffsFileNew h hid (fun hx => h0 (hmem 0 hx)) (fun _ _ => hnew)
      (fun s' own' e h' _ _ _ _ => ⟨own', h'⟩) htidy trivial
  · simp only [hent, htype, ne_eq, reduceCtorEq, not_false_eq_true, true_or, if_true]
    exact .fail (htidy s _ (.refl s) h.space)
  · simp only [hent]
    cases code with
    | enoent => exact absurd rfl hc
    | _ => exact .fail (htidy s _ (.refl s) h.space)

/-- What an open asks of the state. For truncation the old file must go
before its name is used again, and else its count of handles must not
overflow. -/
def St.CanOpen (s : St) (path : Name) (accessFlags : Nat) : Prop :=
  match s.lookup path with
  | .absent d t => s.CanCreate false d t
  | .found id _ t =>
    if accessFlags &&& accessTruncate ≠ 0 then
      s.HasId false ∧ ((∃ i, s.room sizeofDiskInode = .ok i) ∨
        s.inodePool = 0 ∨ ∃ code, (s.place sizeofDiskInode).1.room
          (sizeofDiskInode + u8 t.length) = .error code)
    else ∀ e, s.inodes id = some e → e.nieRefcnt < 255
  | _ => True

theorem stored_eq (ht : t.length ≤ 255) : stored t = t := by
  unfold stored u8
  rw [Nat.mod_eq_of_lt (by omega)]
  exact take_length

/-- An inode that is found by a name is the only one of the name there. -/
theorem Orderly.down_ok (h : Orderly s own) {d c : Nat} (hc : s.down d t = .ok c) :
    c ∈ own d ∧ s.name c = t ∧ stored t = t ∧ ∀ c' ∈ own d, s.name c' = t → c' = c := by
  by_cases hd : hashIdIsDir d = true
  · have hmem : c ∈ s.kids d ∧ s.name c = t := by
      simp only [St.down, hd, if_true] at hc
      split at hc
      · next x hx =>
        cases hc
        exact ⟨mem_of_find?_eq_some hx, by simpa using find?_some hx⟩
      · cases hc
    rw [h.kids_eq] at hmem
    obtain ⟨hm, rfl⟩ := hmem
    obtain ⟨e, he⟩ := Option.isSome_iff_exists.mp (h.live d c hm)
    refine ⟨hm, rfl, stored_eq ?_, fun c' hc' hn =>
      (h.sorted d).unique hc' hm hn⟩
    rw [St.name_eq he]
    exact (h.name c e he).2
  · rw [St.down, if_neg hd] at hc
    split at hc <;> cases hc

theorem Recorded.isFile_of_not_dir (h : Recorded s) {id : Nat} (hid : (s.inodes id).isSome)
    (hd : hashIdIsDir id = false) : hashIdIsFile id = true := by
  by_contra hf
  rw [h.isDir_of_not_file hid (by simpa using hf)] at hd
  cases hd

theorem ends_nffsFileOpenInode (h : Orderly s own) (h0 : (0 : UInt8) ∉ path)
    {accessFlags : Nat} (hsafe : s.CanOpen path accessFlags) {Q : Post St FsErr Nat}
    (hok : ∀ s' own' id e, Orderly s' own' → s'.inodes id = some e →
      hashIdIsFile id = true → e.nieRefcnt < 255 → s'.files = s.files →
      s'.filePool = s.filePool → Q.ok id s')
    (herr : ∀ s' code, s'.Tidy → Q.err code s') (hst : Q.stuck) :
    Ends (nffsFileOpenInode path accessFlags) Q s := by
  have hsame : ∀ s' code, SpaceOnly s s' → Spacious s' → Q.err code s' :=
    fun s' code hs' hsp' => herr s' code ⟨own, h.spaceOnly hs' hsp'⟩
  have hcreate : ∀ s1 own1 d t, Orderly s1 own1 → s1.HasId false → (∀ b ∈ t, b ∈ path) →
      s1.files = s.files → s1.filePool = s.filePool →
      (s1.inodePool ≠ 0 → (∃ i, s1.room (sizeofDiskInode + u8 t.length) = .ok i) →
        ∀ c ∈ own1 d, s1.name c ≠ stored t) → Wp (nffsFileNew (some d) t t.length false) Q s1 := by
    intro s1 own1 d t h1 hid hmem hfiles hpool hnew
    refine wp_nffsFileNew h1 hid (fun hx => h0 (hmem 0 hx)) hnew ?_
      (fun s' code hs' hsp' => herr s' code ⟨own1, h1.spaceOnly hs' hsp'⟩) hst
    intro s' own' e h' he he1 hfiles' hpool'
    exact hok s' own' _ e h' he (hashIdIsFile_newId h1.toRecorded hid) (by omega)
      (hfiles'.trans hfiles) (hpool'.trans hpool)
  refine .bind_wp (wp_nffsPathFind h.ordered path (fun r hr => ?_) fun _ => hst)
  unfold St.CanOpen at hsafe
  rcases hr.cases with ⟨id, d, t, hl⟩ | ⟨d, t, hl⟩ | ⟨hent, htype⟩ | ⟨code, hc, hent⟩
  · obtain ⟨hent, hpar, -, htok, hlen⟩ := hl ▸ hr
    obtain ⟨-, hmem, hcase⟩ := St.lookup_found hl
    simp only [hl] at hsafe
    simp only [hent, hpar, htok, hlen]
    by_cases hdir : hashIdIsDir id = true
    · rw [if_pos hdir]
      exact (Wp.fail (hsame s _ (.refl s) h.space)).ends
    rw [if_neg hdir]
    obtain ⟨q, u, hdown⟩ : ∃ q u, s.down q u = .ok id := by
      rcases hcase with ⟨-, -, rfl | hdown⟩ | ⟨-, hdown⟩
      · exact absurd rfl hdir
      · exact hdown
      · exact ⟨d, t, hdown⟩
    have hlive := h.live q id (h.down_ok hdown).1
    obtain ⟨e, he⟩ := Option.isSome_iff_exists.mp hlive
    have hfile := h.toRecorded.isFile_of_not_dir hlive (by simpa using hdir)
    by_cases htr : accessFlags &&& accessTruncate ≠ 0
    · rw [if_pos htr] at hsafe ⊢
      obtain ⟨hid, hroom⟩ := hsafe
      refine .bind (.attempt (ends_nffsPathUnlink h ?_ ?_ hst))
      · intro s1 s' own' id' d' t' hl' _ hs1 h' hun
        cases hl.symm.trans hl'
        refine (hcreate s' own' d t h' (by rw [hun.same, hs1]; exact hid) hmem
          (by rw [hun.same, hs1]) (by rw [hun.same, hs1]) fun _ _ c hc hn => ?_).ends
        have hcd := (hun.sub d).subset hc
        rcases hcase with ⟨rfl, rfl, -⟩ | ⟨-, hdt⟩
        · exact hdir (h.dir _ c hcd).2
        · obtain ⟨-, -, hst, huniq⟩ := h.down_ok hdt
          rw [hun.name (h'.live d c hc), hst] at hn
          exact (hun.keep d c hc).1 (huniq c hcd hn)
      · intro s' code hs' hsp' hplace
        have hplace := hplace id d t hl
        refine (hcreate s' own d t (h.spaceOnly hs' hsp') (by rw [hs']; exact hid) hmem
          (by rw [hs']) (by rw [hs']) fun hpool hok' => ?_).ends
        exfalso
        obtain ⟨i, hi⟩ := hok'
        rcases hroom with ⟨j, hj⟩ | hp0 | ⟨code', hcode'⟩
        · unfold St.room at hj
          rw [hplace] at hj
          cases hj
        · rw [hs'] at hpool
          exact hpool hp0
        · rw [hplace] at hcode'
          rw [hcode'] at hi
          cases hi
    · rw [if_neg htr] at hsafe ⊢
      exact (Wp.pure (hok s own id e h he hfile (hsafe e he) rfl rfl)).ends
  · obtain ⟨hent, hpar, htype, htok, hlen⟩ := hl ▸ hr
    simp only [hl] at hsafe
    obtain ⟨hid, hnew⟩ := hsafe
    rw [h.kids_eq] at hnew
    obtain ⟨-, hmem, -⟩ := St.lookup_absent hl
    simp only [hent, hpar, htype, htok, hlen, ne_eq, not_true_eq_false,
      reduceCtorEq, or_false, false_or]
    by_cases hw : accessFlags &&& accessWrite = 0
    · rw [if_pos hw]
      exact (Wp.fail (hsame s _ (.refl s) h.space)).ends
    · rw [if_neg hw]
      exact (hcreate s own d t h hid hmem rfl rfl fun _ _ => hnew).ends
  · simp only [hent, htype, ne_eq, reduceCtorEq, not_false_eq_true, true_or, if_true]
    exact (Wp.fail (hsame s _ (.refl s) h.space)).ends
  · simp only [hent]
    cases code with
    | enoent => exact absurd rfl hc
    | _ => exact (Wp.fail (hsame s _ (.refl s) h.space)).ends

end Creating

/-! ## Opening and closing -/

section Opening

variable {s s' : St} {own : Nat → List Nat} {path : Name} {id : Nat}

theorem CacheOnly.trans {s'' : St} (h : CacheOnly s s')
    (h' : CacheOnly s' s'') : CacheOnly s s'' := by
  unfold CacheOnly at *
  rw [h', h]

theorem wp_nffsCacheInodeAcquire_cacheOnly {Q : Post St FsErr Unit}
    (hok : ∀ s', CacheOnly s s' → Q.ok () s') (hst : Q.stuck) : Wp nffsCacheInodeAcquire Q s := by
  have hrest : ∀ s1, CacheOnly s s1 → Wp (do
      let s ← Prog.get
      Prog.assert (s.cacheInodePool != 0)
      Prog.modify fun s => { s with cacheInodePool := s.cacheInodePool - 1 })
      Q s1 := by
    intro s1 hs1
    exact .bind (.get (.bind (.assert_or (fun _ => .modify (hok _ (hs1.trans rfl))) fun _ => hst)))
  refine .bind (.get ?_)
  by_cases h0 : s.cacheInodePool = 0
  · simp only [h0, if_true]
    cases hl : s.cacheInodes.getLast? with
    | none => exact fun _ => hst
    | some c => exact .bind (.modify (hrest _ rfl))
  · simp only [h0, if_false]
    exact hrest s rfl

/-- The length of a file is looked up, or computed, in the cache. -/
theorem wp_nffsInodeDataLen_cacheOnly {R : Nat → List Link} (hc : Chained s R)
    (hlive : (s.inodes id).isSome) (hfile : hashIdIsFile id = true)
    {Q : Post St FsErr Nat} (hok : ∀ n s', CacheOnly s s' → Q.ok n s')
    (hst : Q.stuck) : Wp (nffsInodeDataLen id) Q s := by
  have hend : ∀ s1, CacheOnly s s1 → Wp (cacheInode id >>= fun c =>
      pure c.nciFileSize) Q s1 := by
    intro s1 hs1
    refine .bind (.bind (.get ?_))
    cases hfind : s1.findCacheInode id with
    | none =>
      simp only [hfind]
      exact fun _ => hst
    | some c =>
      simp only [hfind]
      exact .pure (.pure (hok _ s1 hs1))
  refine .bind (.bind (.get ?_))
  cases hfind : s.findCacheInode id with
  | some c =>
    simp only [hfind]
    exact .pure (hend s rfl)
  | none =>
    simp only [hfind]
    refine .bind (wp_nffsCacheInodeAcquire_cacheOnly (fun s1 hs1 => ?_) hst)
    have hin : s1.inodes = s.inodes := by rw [hs1]
    have hc1 : Chained s1 R := by
      rw [hs1]
      exact { hc with }
    refine .bind (wp_inodeEntry (fun e he => ?_) fun _ => hst)
    refine .bind (.attempt (wp_nffsInodeCalcDataLength hc1 ⟨by rw [hin]; exact hlive, hfile⟩ ?_))
    exact .modify (hend _ (hs1.trans rfl))

theorem ends_nffsFileOpen (h : Orderly s own) (h0 : (0 : UInt8) ∉ path)
    {accessFlags : Nat} (hsafe : s.CanOpen path accessFlags) :
    Ends (nffsFileOpen path accessFlags) tidy s := by
  have htidy : s.Tidy := ⟨own, h⟩
  unfold nffsFileOpen
  split
  · exact (Wp.fail htidy).ends
  split
  · exact (Wp.fail htidy).ends
  split
  · exact (Wp.fail htidy).ends
  refine .bind_wp (.bind (.get ?_))
  cases hk : s.freeFile with
  | none =>
    simp only [hk]
    exact .fail htidy
  | some k =>
    simp only [hk]
    refine .pure (.bind (ends_nffsFileOpenInode h h0 hsafe ?_ (fun s' _ h' => h') trivial))
    intro s1 own1 id e h1 he hfile hcnt hfiles hpool
    have hk1 : s1.freeFile = some k := by
      unfold St.freeFile at hk ⊢
      rw [hfiles, hpool]
      exact hk
    -- The caches may change on the way to the handle.
    have hend : ∀ offset s2, CacheOnly s1 s2 → Wp (do
        let e ← inodeEntry id
        setInode id (some { e with nieRefcnt := u8 (e.nieRefcnt + 1) })
        setFile k (some ⟨id, offset, accessFlags⟩)
        pure k) tidy s2 := by
      intro offset s2 hs2
      have h2 := h1.cacheOnly hs2
      have he2 : s2.inodes id = some e := by
        rw [hs2]
        exact he
      have hk2 : s2.freeFile = some k := by
        rw [hs2]
        exact hk1
      refine .bind (wp_inodeEntry_some he2 ?_)
      refine .bind (wp_setInode (f := InodeEntry.incRefcnt) he2 ?_)
      exact .bind (.modify (.pure ⟨own1, h2.opened he2 hfile hcnt hk2 rfl⟩))
    split
    · obtain ⟨R, hR⟩ := h1.chained
      exact (Wp.bind (wp_nffsInodeDataLen_cacheOnly hR (by simp [he]) hfile hend trivial)).ends
    · exact (Wp.bind (.pure (hend 0 s1 rfl))).ends

end Opening

/-! ## Renaming by path -/

/-- Every list that an inode is in is that of the parent its record names. -/
def St.Intact (s : St) (id : Nat) : Prop :=
  ∀ d e, id ∈ s.kids d → s.inodes id = some e → s.parentOf e = some d

/-- What a rename of `id` to the name `t` in `X` asks of the state, when the
other entries of `X` are `others` and `s₁` is the state that the record is
reserved in. -/
def St.CanRename (s s₁ : St) (id X : Nat) (t : Name) (others : List Nat) :
    Prop :=
  s.Intact id ∧
    match s₁.room (sizeofDiskInode + t.length) with
    | .ok _ => s.NameFits id (stored t) others
    | .error _ => (∃ e, s.inodes id = some e ∧ s.parentOf e = some X) ∨
        ∀ c ∈ others, c ≠ id → s.name c ≠ s.name id

section Renaming

variable {s s₁ s' : St} {own own' : Nat → List Nat} {id X d p : Nat}
  {e : InodeEntry} {t : Name}

/-- A list that a rename has put the entry into is that of the new parent. -/
theorem Rehung.eq_of_mem (h : Orderly s own) (hm : Rehung s own id e X own')
    (hint : ∀ d, id ∈ own d → s.parentOf e = some d) (hd : id ∈ own' d) : d = X := by
  cases hm with
  | stay hp => exact Option.some.inj ((hint d hd).symm.trans hp)
  | @move p A B A' B' hp hne hA hA' hle hlt =>
    refine Decidable.byContradiction fun hdX => ?_
    rw [Function.update_of_ne hdX] at hd
    exact h.toListed.not_mem_removed hA d hd
  | @adopt A' B' hp hfree hA' hle hlt =>
    refine Decidable.byContradiction fun hdX => ?_
    rw [Function.update_of_ne hdX] at hd
    exact hfree d hd

/-- An entry that was renamed within a list, or moved, had been in a list or
had no parent. -/
theorem Rehung.listed_of_mem (hm : Rehung s own id e X own') (hd : id ∈ own' d) :
    IsListed own id ∨ s.parentOf e = none := by
  cases hm with
  | stay hp => exact .inl ⟨d, hd⟩
  | @move p A B A' B' hp hne hA hA' hle hlt => exact .inl ⟨p, by simp [hA]⟩
  | adopt hp => exact .inr hp

theorem St.parentOf_live (hp : s.parentOf e = some p) : (s.inodes p).isSome := by
  unfold St.parentOf at hp
  split at hp
  · cases hp
  · split at hp
    · next hlive =>
      cases hp
      exact hlive
    · cases hp

theorem Rehung.isInode (h : Orderly s own) (hm : Rehung s own id e X own')
    (hl : Listed s₁ own') : hashIdIsInode X = true := by
  have hdir : id ∈ own' X → hashIdIsInode X = true := fun hmem => by
    rw [hashIdIsInode, (hl.dir X id hmem).2]
    rfl
  cases hm with
  | stay hp => exact h.toRecorded.isInode (St.parentOf_live hp)
  | _ => exact hdir (by rw [Function.update_self]; simp)

theorem Rehung.nameFits (h : Orderly s own) (hm : Rehung s own id e X own')
    {n : Name} (hfit : s.NameFits id n (own X)) : s.NameFits id n (own' X) :=
  fun c hc hne => hfit c ((hm.mem_of_ne h.toHeld hne).mp hc) hne

/-- The name that an entry has fits where it is. -/
theorem St.NameFits.of_ne {l : List Nat} (h : ∀ c ∈ l, c ≠ id → s.name c ≠ s.name id) :
    s.NameFits id (s.name id) l := by
  intro c hc hne
  split
  · next hlt => exact hlt
  · next hge =>
    refine Decidable.byContradiction fun hle => h c hc hne ?_
    exact List.le_antisymm hge hle

theorem wp_nffsInodeRename_orderly (h : Orderly s own)
    (he : s.inodes id = some e) (ht : t.length ≤ filenameMaxLen)
    (h0 : (0 : UInt8) ∉ t) (hint : ∀ d, id ∈ own d → s.parentOf e = some d)
    (hfile : hashIdIsFile id = true → s.parentOf e ≠ none)
    (hnew : (∃ i, s.room (sizeofDiskInode + t.length) = .ok i) →
      (IsListed own id ∨ s.parentOf e = none) → s.NameFits id (stored t) (own X))
    (hold : (∃ code, s.room (sizeofDiskInode + t.length) = .error code) →
      (IsListed own id ∨ s.parentOf e = none) → s.parentOf e ≠ some X →
      ∀ c ∈ own X, c ≠ id → s.name c ≠ s.name id) : Wp (nffsInodeRename id X t) tidy s := by
  have hroom : ∀ {s1}, Relinked s s1 → s1.room (sizeofDiskInode + t.length) =
      s.room (sizeofDiskInode + t.length) := by
    intro s1 hrel
    refine room_congr ?_ ?_ ?_ ?_ <;> rw [hrel.same]
  refine wp_nffsInodeRename h.toHeld he ht (fun hp d hd => ?_) hfile ?_ ?_ trivial
  · rw [hint d hd] at hp
    cases hp
  · intro s1 s2 own' hm hrel hk hstore hs2 hsp2
    have hX := hm.isInode h hk.toListed
    refine ⟨own', h.renamed hm hrel hk hs2 hsp2 he h0 hX fun d hd => ?_⟩
    rw [hm.eq_of_mem h hint hd]
    exact hm.nameFits h (hnew (hroom hrel ▸ room_of_store hstore) (hm.listed_of_mem hd))
  intro s1 s2 own' code hm hrel hk hr hs2 hsp2
  refine ⟨own', h.moved hm hrel hk hs2 hsp2 fun d hd => ?_⟩
  have hdX := hm.eq_of_mem h hint hd
  subst hdX
  refine .of_ne fun c hc hne => ?_
  have hcX := (hm.mem_of_ne h.toHeld hne).mp hc
  by_cases hp : s.parentOf e = some d
  · -- It has not moved.
    have hidX : id ∈ own d := by
      cases hm with
      | stay => exact hd
      | move hp' hneX => exact absurd (hp'.symm.trans hp) (by simpa using hneX)
      | adopt hp' => exact absurd (hp'.symm.trans hp) (by simp)
    exact fun hn => hne ((h.sorted d).unique hcX hidX hn)
  · exact hold ⟨code, hroom hrel ▸ hr⟩ (hm.listed_of_mem hd) hp c hcX hne

/-- What a rename asks of the state. An object that is in the way is unlinked
first; if it is the object itself nothing of that name is left. -/
def St.CanRenamePath (s : St) (fromPath toPath : Name) : Prop :=
  match s.lookup fromPath, s.lookup toPath with
  | .found id _ _, .found c X t =>
    hashIdIsDir id = hashIdIsDir c → id ≠ c → ∀ s₁,
      s.store sizeofDiskInode sizeofDiskInode = .ok s₁ →
      s.CanRename s₁ id X t ((s.kids X).filter (· ≠ c))
  | .found id _ _, .absent X t => s.CanRename s id X t (s.kids X)
  | _, _ => True

/-- An object that a path names is the root or in a list. -/
theorem Orderly.found_listed (h : Orderly s own) {path : Name}
    (hl : s.lookup path = .found id d t) : id = idRootDir ∨ IsListed own id := by
  obtain ⟨-, -, ⟨-, -, hroot | ⟨q, u, hdown⟩⟩ | ⟨-, hdown⟩⟩ :=
    St.lookup_found hl
  · exact .inl hroot
  · exact .inr ⟨q, (h.down_ok hdown).1⟩
  · exact .inr ⟨d, (h.down_ok hdown).1⟩

/-- A parent that is still there is still the parent. -/
theorem St.parentOf_congr {e' : InodeEntry} (hd : e'.disk = e.disk) (hp : s.parentOf e = some d)
    (hlive : (s'.inodes d).isSome) : s'.parentOf e' = some d := by
  unfold St.parentOf at hp ⊢
  rw [hd]
  split at hp
  · cases hp
  · next hne =>
    rw [if_neg hne]
    split at hp
    · cases hp
      rw [if_pos hlive]
    · cases hp

/-- The rename that follows the unlink of an object in its way. -/
theorem wp_nffsInodeRename_clobbered {c : Nat} {ec : InodeEntry}
    (h : Orderly s own) (hlist : id = idRootDir ∨ IsListed own id)
    (hkind : hashIdIsDir id = hashIdIsDir c) (hc : s.inodes c = some ec)
    (hpc : s.parentOf ec = some p) (hcp : c ∈ own p) (ht : t.length ≤ filenameMaxLen)
    (h0 : (0 : UInt8) ∉ t) (h' : Orderly s' own') (hun : Unlinked s s₁ s' own own' c)
    (hsafe : id ≠ c → s.CanRename s₁ id X t ((s.kids X).filter (· ≠ c))) :
    Wp (nffsInodeRename id X t) tidy s' := by
  cases he' : s'.inodes id with
  | none =>
    refine .bind (wp_nffsInodeFromEntry h'.toRecorded (fun e he => ?_) fun _ => trivial)
    rw [he'] at he
    cases he
  | some e' =>
    obtain ⟨e, he, hdisk⟩ := hun.old id e' he'
    -- Only an entry that is in no list any more is also the one in the way.
    have hother : (∃ d, id ∈ own' d) → id ≠ c := by
      rintro ⟨d, hd⟩ rfl
      exact (hun.keep d id hd).1 rfl
    have hstay : ∀ d, hashIdIsFile id = true → (s.inodes d).isSome →
        hashIdIsDir d = true → (s'.inodes d).isSome := by
      intro d hf hlive hd
      have hcf : hashIdIsFile c = true := by
        refine h.toRecorded.isFile_of_not_dir (by simp [hc]) ?_
        rw [← hkind]
        cases hdir : hashIdIsDir id with
        | false => rfl
        | true =>
          rw [isFile_of_isDir hdir] at hf
          cases hf
      rw [hun.file hcf d, hlive]
      rintro rfl
      rw [isFile_of_isDir hd] at hcf
      cases hcf
    have hroom : s'.room (sizeofDiskInode + t.length) = s₁.room (sizeofDiskInode + t.length) := by
      refine room_congr ?_ ?_ ?_ ?_ <;> rw [hun.same]
    have hfile : hashIdIsFile id = true → s'.parentOf e' ≠ none := by
      intro hf
      obtain ⟨d, hp, hd⟩ : ∃ d, s.parentOf e = some d ∧ id ∈ own d := by
        by_cases hidc : id = c
        · subst hidc
          cases he.symm.trans hc
          exact ⟨p, hpc, hcp⟩
        · rcases hlist with rfl | ⟨d, hd⟩
          · cases hf
          · exact ⟨d, (hsafe hidc).1 d e (by rw [h.kids_eq]; exact hd) he, hd⟩
      obtain ⟨hlive, hdir⟩ := h.dir d id hd
      rw [St.parentOf_congr hdisk hp (hstay d hf hlive hdir)]
      simp
    have hne : IsListed own' id ∨ s'.parentOf e' = none → id ≠ c := by
      rintro (hl | hnone) rfl
      · exact hother hl rfl
      · by_cases hf : hashIdIsFile id = true
        · exact hfile hf hnone
        · rw [hun.dead (by simpa using hf)] at he'
          cases he'
    have hnameId : s'.name id = s.name id := hun.name (by simp [he'])
    have hothers : ∀ c' ∈ own' X, s'.name c' = s.name c' ∧ c' ∈ (s.kids X).filter (· ≠ c) := by
      intro c' hc'
      refine ⟨hun.name (h'.live X c' hc'), mem_filter.mpr ⟨?_, ?_⟩⟩
      · rw [h.kids_eq]
        exact (hun.sub X).subset hc'
      · exact decide_eq_true (hun.keep X c' hc').1
    refine wp_nffsInodeRename_orderly h' he' ht h0 ?_ hfile ?_ ?_
    · intro d hd
      refine St.parentOf_congr hdisk ((hsafe (hother ⟨d, hd⟩)).1 d e ?_ he) (h'.dir d id hd).1
      rw [h.kids_eq]
      exact (hun.sub d).subset hd
    · rintro ⟨i, hi⟩ hl c' hc' hc'id
      have hfit := (hsafe (hne hl)).2
      rw [← hroom, hi] at hfit
      obtain ⟨hname, hmem⟩ := hothers c' hc'
      rw [hname, hnameId]
      exact hfit c' hmem hc'id
    · rintro ⟨code, hcode⟩ hl hpX c' hc' hc'id
      have hfit := (hsafe (hne hl)).2
      rw [← hroom, hcode] at hfit
      obtain ⟨hname, hmem⟩ := hothers c' hc'
      rw [hname, hnameId]
      rcases hfit with ⟨e0, he0, hp0⟩ | hfit
      · cases he.symm.trans he0
        exact absurd (St.parentOf_congr hdisk hp0 (h'.dir X c' hc').1) hpX
      · exact hfit c' hmem hc'id

theorem ends_nffsPathRename (h : Orderly s own) {fromPath toPath : Name}
    (h0 : (0 : UInt8) ∉ toPath) (hsafe : s.CanRenamePath fromPath toPath) :
    Ends (nffsPathRename fromPath toPath) tidy s := by
  have htidy : s.Tidy := ⟨own, h⟩
  unfold St.CanRenamePath at hsafe
  refine .bind_wp (wp_nffsPathFind h.ordered fromPath (fun r hr => ?_) fun _ => trivial)
  by_cases hf : ∃ id d t, s.lookup fromPath = .found id d t
  · obtain ⟨id, d0, t0, hl⟩ := hf
    obtain ⟨hent, -⟩ := hl ▸ hr
    simp only [hent]
    simp only [hl] at hsafe
    have hlist := h.found_listed hl
    refine .bind_wp (wp_nffsPathFind h.ordered toPath (fun q hq => ?_) fun _ => trivial)
    rcases hq.cases with ⟨c, X, t, hl'⟩ | ⟨X, t, hl'⟩ | ⟨hent', htype'⟩ | ⟨code, hc, hent'⟩
    · obtain ⟨hent', hpar', -, htok', -⟩ := hl' ▸ hq
      obtain ⟨hlen, hmem, -⟩ := St.lookup_found hl'
      simp only [hl'] at hsafe
      simp only [hent', hpar', htok']
      by_cases hkind : hashIdIsDir id = hashIdIsDir c
      · rw [if_neg (by simpa using hkind)]
        refine .bind_wp (wp_nffsInodeFromEntry h.toRecorded (fun ec hec => ?_) fun _ => trivial)
        refine .bind (ends_nffsInodeUnlink h hec ?_ ?_ trivial)
        · intro s1 s' own' p hstore _ hpc hcp h' hun
          exact (wp_nffsInodeRename_clobbered h hlist hkind hec hpc hcp hlen
            (fun hx => h0 (hmem 0 hx)) h' hun fun hne => hsafe hkind hne s1 hstore).ends
        · intro s1 code _ hs1 hsp1
          exact ⟨own, h.spaceOnly hs1 hsp1⟩
      · rw [if_pos (by simpa using hkind)]
        exact .bind_wp (.fail htidy)
    · obtain ⟨hent', hpar', htype', htok', -⟩ := hl' ▸ hq
      obtain ⟨hlen, hmem, -⟩ := St.lookup_absent hl'
      simp only [hl'] at hsafe
      simp only [hent', hpar', htype', htok', ne_eq, not_true_eq_false,
        if_false, Option.isSome_some]
      refine .bind_wp (.assert rfl ?_)
      cases he : s.inodes id with
      | none =>
        refine .bind_wp (wp_nffsInodeFromEntry h.toRecorded (fun e he' => ?_) fun _ => trivial)
        rw [he] at he'
        cases he'
      | some e =>
        obtain ⟨hint, hfit⟩ := hsafe
        rw [h.kids_eq] at hfit
        refine (wp_nffsInodeRename_orderly h he hlen (fun hx => h0 (hmem 0 hx))
          (fun d hd => hint d e (by rw [h.kids_eq]; exact hd) he) ?_ ?_ ?_).ends
        · intro hfile
          rcases hlist with rfl | ⟨d, hd⟩
          · cases hfile
          · rw [hint d e (by rw [h.kids_eq]; exact hd) he]
            simp
        · rintro ⟨i, hi⟩ _
          rw [hi] at hfit
          exact hfit
        · rintro ⟨code, hcode⟩ _ hpX
          rw [hcode] at hfit
          rcases hfit with ⟨e0, he0, hp0⟩ | hfit
          · cases he.symm.trans he0
            exact absurd hp0 hpX
          · exact hfit
    · simp only [hent', htype', ne_eq, reduceCtorEq, not_false_eq_true, if_true]
      exact .bind_wp (.assert_or (fun _ => (Wp.fail htidy).ends) fun _ => trivial)
    · simp only [hent']
      cases code with
      | enoent => exact absurd rfl hc
      | _ => exact (Wp.fail htidy).ends
  · obtain ⟨code, hent⟩ := hr.error fun id d t hl => hf ⟨id, d, t, hl⟩
    simp only [hent]
    exact (Wp.fail htidy).ends

end Renaming

/-! ## Runs -/

/-- A path as the C code gets it, without a zero byte. -/
abbrev Path := { path : Name // (0 : UInt8) ∉ path }

/-- The calls that change a directory. -/
inductive DirOp where
  | fileOpen (path : Path) (accessFlags : Nat)
  | fileClose (h : Nat)
  | newDir (path : Path)
  | unlink (path : Path)
  | rename (fromPath toPath : Path)

def DirOp.prog : DirOp → NffsM Unit
  | .fileOpen path accessFlags => do
      let _ ← nffsFileOpen path.1 accessFlags
  | .fileClose h => nffsFileClose h
  | .newDir path => do
      let _ ← nffsPathNewDir path.1
  | .unlink path => nffsPathUnlink path.1
  | .rename fromPath toPath => nffsPathRename fromPath.1 toPath.1

/-- The state after a call that returns, with whatever code. A failed
assertion or a use of freed memory has no state after it. -/
def DirOp.step (op : DirOp) (s : St) : Option St :=
  match op.prog s none with
  | .ok _ s' _ => some s'
  | .err _ s' _ => some s'
  | _ => none

def DirOp.Safe (s : St) : DirOp → Prop
  | .fileOpen path accessFlags => s.CanOpen path.1 accessFlags
  | .fileClose _ => True
  | .newDir path => ∀ d t, s.lookup path.1 = .absent d t → s.CanCreate true d t
  | .unlink _ => True
  | .rename fromPath toPath => s.CanRenamePath fromPath.1 toPath.1

/-- The states that runs of safe calls lead to. -/
inductive SafelyReached (s₀ : St) : St → Prop
  | start : SafelyReached s₀ s₀
  | step {s s' : St} (op : DirOp) (hs : SafelyReached s₀ s)
      (hsafe : op.Safe s) (hstep : op.step s = some s') : SafelyReached s₀ s'

section Run

variable {s s' : St} {own : Nat → List Nat} {R : Nat → List Link} {op : DirOp}

theorem ends_dirOp (h : Orderly s own) (hsafe : op.Safe s) : Ends op.prog tidy s := by
  have hdone : ∀ {α : Type} {m : NffsM α}, Ends m tidy s → Ends (do let _ ← m) tidy s := fun hm =>
    .bind (hm.mono fun _ _ h => Wp.ends (.pure h))
  cases op with
  | fileOpen path accessFlags => exact hdone (ends_nffsFileOpen h path.2 hsafe)
  | fileClose k => exact ends_nffsFileClose h (fun _ h' => ⟨own, h'⟩) trivial
  | newDir path => exact hdone (wp_nffsPathNewDir h path.2 hsafe).ends
  | unlink path =>
    exact ends_nffsPathUnlink h (fun _ _ own' _ _ _ _ _ _ h' _ => ⟨own', h'⟩)
      (fun s' _ hs' hsp' _ => ⟨own, h.spaceOnly hs' hsp'⟩) trivial
  | rename fromPath toPath => exact ends_nffsPathRename h toPath.2 hsafe

/-- One call. -/
theorem St.Tidy.step (h : s.Tidy) (hsafe : op.Safe s) (hstep : op.step s = some s') : s'.Tidy := by
  obtain ⟨own, h⟩ := h
  have hend := ends_dirOp h hsafe none
  unfold DirOp.step at hstep
  split at hstep
  · next ho =>
    cases hstep
    rw [ho] at hend
    exact (hend (by simp)).1
  · next ho =>
    cases hstep
    rw [ho] at hend
    exact (hend (by simp)).1
  · cases hstep

theorem St.Tidy.run (h : s.Tidy) (hrun : SafelyReached s s') : s'.Tidy := by
  induction hrun with
  | start => exact h
  | step op _ hsafe hstep ih => exact ih.step hsafe hstep

end Run

/-! ## From a formatted flash -/

section Formatted

variable {areas : List Area} {i n k : Nat}

end Formatted

/-! ## Two runs -/

/-- The state after some calls, if they all return. -/
def DirOp.steps (ops : List DirOp) (s : St) : Option St :=
  ops.foldlM (fun s op => op.step s) s

end Larva.Nffs
