import Larva.Nffs.Children

/-!
# Lookups

A walk along a sorted list finds a name if it is there, so that in a state
whose lists are all sorted `nffs_path_find` answers what the lists say. The
answer is given as a `Lookup`, which tells apart the ways in which a path can
fail to name something; the operations on paths are described by it.
-/

namespace Larva.Nffs

open Larva.Crash Larva.SList List

/-! ## Looking up a name -/

section Lookup

variable {s : St} {name : Name}

theorem wp_nffsPathFindChildLoop (h : Recorded s) {Q : Post St FsErr Nat} :
    ∀ {l : List Nat} {p : Option Nat} {fuel : Nat}, Linked s.next p l →
      (∀ c ∈ l, (s.inodes c).isSome) → s.Sorted l → l.length ≤ fuel →
      (∀ c ∈ l, s.name c = name → Q.ok c s) → ((∀ c ∈ l, s.name c ≠ name) → Q.err .enoent s) →
      Wp (nffsPathFindChildLoop name fuel p) Q s := by
  intro l
  induction l with
  | nil =>
    intro p fuel hl _ _ _ _ herr
    cases hl
    unfold nffsPathFindChildLoop
    exact .fail (herr (by simp))
  | cons c l ih =>
    intro p fuel hl hlive hsort hfuel hok herr
    obtain _ | k := fuel
    · simp at hfuel
    simp only [length_cons] at hfuel
    obtain ⟨e, he⟩ := Option.isSome_iff_exists.mp (hlive c mem_cons_self)
    obtain ⟨rfl, hl⟩ := hl
    obtain ⟨hc, hsort⟩ := pairwise_cons.mp hsort
    refine .bind (wp_nffsInodeFromEntry h (fun e' he' => ?_) fun hn => by simp [he] at hn)
    cases he.symm.trans he'
    have hcmp : nffsInodeFilenameCmpRam (s.inode c e) name =
        filenameCmp (s.name c) name := by rw [St.name_eq he]; rfl
    simp only [hcmp]
    have hz := filenameCmp_zero (b := name) (h.no_zero c)
    have hneg := filenameCmp_neg (b := name) (h.no_zero c)
    by_cases h1 : filenameCmp (s.name c) name = 0
    · rw [if_pos h1]
      exact .pure (hok c mem_cons_self (hz.mp h1))
    rw [if_neg h1]
    by_cases h2 : filenameCmp (s.name c) name > 0
    · -- The rest of the list is larger still.
      rw [if_pos h2]
      refine .fail (herr fun x hx => ?_)
      rcases List.mem_cons.mp hx with rfl | hx
      · exact mt hz.mpr h1
      · intro hn
        have hlt : s.name c < name := hn ▸ hc x hx
        have := hneg.mpr hlt
        omega
    · rw [if_neg h2]
      refine .bind (wp_inodeEntry_some he ?_)
      rw [St.next_eq he] at hl
      refine ih hl (fun x hx => hlive x (mem_cons_of_mem c hx)) hsort
        (by omega) (fun x hx => hok x (mem_cons_of_mem c hx)) ?_
      intro hall
      refine herr fun x hx => ?_
      rcases List.mem_cons.mp hx with rfl | hx
      · exact mt hz.mpr h1
      · exact hall x hx

end Lookup

/-! ## Looking up a path -/

/-- The children of a directory, as a walk of its list visits them. -/
def St.kids (s : St) (d : Nat) : List Nat :=
  match s.inodes d with
  | some e =>
    if hashIdIsDir d then toList s.next s.numInodeIds e.nieChildList else []
  | none => []

/-- One component down from an inode. Below a regular file there is nothing,
or an error. -/
def St.down (s : St) (d : Nat) (name : Name) : Except FsErr Nat :=
  if hashIdIsDir d then
    match (s.kids d).find? fun c => s.name c == name with
    | some c => .ok c
    | none => .error .enoent
  else
    match (s.inodes d).bind InodeEntry.nieLastBlockEntry with
    | none => .error .enoent
    | some _ => .error .eunexp

/-- What becomes of a path. -/
inductive Lookup where
  /-- It is no path, or has too long a component. -/
  | invalid
  /-- It does not begin with a slash. -/
  | relative
  /-- A component before the last does not exist. -/
  | gap (code : FsErr)
  /-- The last component would be below a file with data. -/
  | blocked (code : FsErr)
  /-- Only the last component does not exist. -/
  | absent (parent : Nat) (name : Name)
  /-- The inode, with the parent and the name that the walk ended on. For a
  path that ends in a slash these are the inode itself and the empty name. -/
  | found (id parent : Nat) (name : Name)
deriving DecidableEq

def St.walk (s : St) : Nat → List Name → Lookup
  | d, [] => .found d d []
  | d, t :: ts =>
    if t.length > filenameMaxLen then .invalid
    else if t = [] then s.walk d ts
    else
      match s.down d t with
      | .ok c => if ts = [] then .found c d t else s.walk c ts
      | .error code =>
        if ts ≠ [] then .gap code
        else if code = .enoent then .absent d t
        else .blocked code

def St.lookup (s : St) (path : Name) : Lookup :=
  match tokens path with
  | t :: u :: ts =>
    if t.length > filenameMaxLen then .invalid
    else if t ≠ [] then .relative
    else s.walk idRootDir (u :: ts)
  | _ => .invalid

/-- The outcome of `nffs_path_find` for a path of that kind. -/
def Lookup.Shows (r : PathFind) : Lookup → Prop
  | .invalid => r.entry = .error .einval
  | .relative => r.entry = .error .enoent ∧ r.parent = none ∧ r.parser.nppTokenType = .branch
  | .gap code => r.entry = .error code ∧ r.parent.isSome ∧
      r.parser.nppTokenType = .branch ∧ (code = .enoent ∨ code = .eunexp)
  | .blocked code => r.entry = .error code ∧ code = .eunexp
  | .absent d t => r.entry = .error .enoent ∧ r.parent = some d ∧
      r.parser.nppTokenType = .leaf ∧ r.parser.nppToken = t ∧ r.parser.nppTokenLen = t.length
  | .found id d t => r.entry = .ok id ∧ r.parent = some d ∧
      r.parser.nppTokenType = .leaf ∧ r.parser.nppToken = t ∧ r.parser.nppTokenLen = t.length

/-- The lists are in order, and lookups find what is in them. -/
structure Ordered (s : St) (own : Nat → List Nat) : Prop extends Recorded s, Listed s own where
  sorted : ∀ d, s.Sorted (own d)

section Paths

variable {s : St} {own : Nat → List Nat} {d : Nat} {e : InodeEntry} {name : Name}
  {Q : Post St FsErr PathFind} {r : PathFind} {l : Lookup}

theorem Ordered.kids_eq (h : Ordered s own) (he : s.inodes d = some e)
    (hd : hashIdIsDir d = true) : s.kids d = own d := by
  have hl := h.linked d e he hd
  simp only [St.kids, he, hd, if_true]
  exact hl.toList_eq (h.toRecorded.length_le hl fun c hc => h.live d c hc)

theorem St.Sorted.unique {l : List Nat} (h : s.Sorted l) {a b : Nat}
    (ha : a ∈ l) (hb : b ∈ l) (he : s.name a = s.name b) : a = b := by
  have hn : (l.map s.name).Nodup := by
    refine pairwise_map.mpr (h.imp fun hlt hn => ?_)
    exact List.lt_irrefl _ (hn ▸ hlt)
  exact inj_on_of_nodup_map hn ha hb he

section

variable (h : Ordered s own)
include h

theorem Ordered.down_eq {c : Nat} (he : s.inodes d = some e) (hd : hashIdIsDir d = true) :
    s.down d name = .ok c ↔ c ∈ own d ∧ s.name c = name := by
  simp only [St.down, hd, if_true, h.kids_eq he hd]
  cases hf : (own d).find? fun c => s.name c == name with
  | none =>
    have hnone := find?_eq_none.mp hf
    simp only [reduceCtorEq, false_iff, not_and]
    exact fun hc hn => hnone c hc (by simpa using hn)
  | some x =>
    have hx := mem_of_find?_eq_some hf
    have hn : s.name x = name := by simpa using find?_some hf
    simp only [Except.ok.injEq]
    constructor
    · rintro rfl
      exact ⟨hx, hn⟩
    · rintro ⟨hc, hcn⟩
      exact (h.sorted d).unique hx hc (hn.trans hcn.symm)

/-- `nffs_path_find_child` looks a name up in the list. -/
theorem wp_nffsPathFindChild {Q : Post St FsErr Nat}
    (hok : ∀ c, s.down d name = .ok c → (s.inodes c).isSome → Q.ok c s)
    (herr : ∀ code, s.down d name = .error code → code = .enoent ∨ code = .eunexp → Q.err code s)
    (hst : s.inodes d = none → Q.stuck) : Wp (nffsPathFindChild d name) Q s := by
  refine .bind (wp_inodeEntry (fun e he => ?_) hst)
  refine .bind (.get ?_)
  by_cases hdir : hashIdIsDir d = true
  · simp only [hdir, if_true]
    have hl := h.linked d e he hdir
    have hlive := fun c hc => h.live d c hc
    refine wp_nffsPathFindChildLoop h.toRecorded hl hlive (h.sorted d)
      (h.toRecorded.length_le hl hlive)
      (fun c hc hn => hok c ((h.down_eq he hdir).mpr ⟨hc, hn⟩) (hlive c hc)) ?_
    intro hall
    refine herr .enoent ?_ (.inl rfl)
    have hnone : (own d).find? (fun c => s.name c == name) = none :=
      find?_eq_none.mpr fun c hc => by simpa using hall c hc
    simp only [St.down, hdir, if_true, h.kids_eq he hdir, hnone]
  · simp only [hdir]
    simp only [St.down, hdir, he, Option.bind_some] at herr
    cases hlast : e.nieLastBlockEntry with
    | none =>
      simp only [hlast] at herr ⊢
      exact .fail (herr _ rfl (.inl rfl))
    | some b =>
      simp only [hlast] at herr ⊢
      exact .fail (herr _ rfl (.inr rfl))

theorem wp_nffsPathFindLoop (path : Name) : ∀ {d fuel : Nat} {parser : PathParser},
      parser.nppPath = path → parser.nppTokenType = .branch → (tokens path).length ≤ fuel →
      (∀ r, (s.walk d (tokens path)).Shows r → Q.ok r s) → (s.inodes d = none → Q.stuck) →
      Wp (nffsPathFindLoop fuel parser (some d)) Q s := by
  induction path using path_induction with
  | leaf path hp =>
    intro d fuel parser hpath htype hfuel hok hst
    rw [tokens_of_no_slash hp] at hfuel hok
    obtain _ | k := fuel
    · simp at hfuel
    subst hpath
    unfold nffsPathFindLoop
    rw [nffsPathParseNext_leaf hp htype]
    unfold St.walk at hok
    by_cases hlong : parser.nppPath.length > filenameMaxLen
    · simp only [hlong, if_true] at hok ⊢
      exact .pure (hok _ rfl)
    simp only [hlong, if_false] at hok ⊢
    by_cases hnil : parser.nppPath = []
    · simp only [hnil, length_nil, if_true] at hok ⊢
      exact .pure (hok _ ⟨rfl, rfl, rfl, rfl, rfl⟩)
    have hlen : parser.nppPath.length ≠ 0 := mt length_eq_zero_iff.mp hnil
    simp only [hnil, hlen, if_false, PathParser.token, take_length] at hok ⊢
    refine .bind (.attempt (wp_nffsPathFindChild h ?_ ?_ hst))
    · intro c hc _
      simp only [hc, if_true] at hok
      exact .pure (hok _ ⟨rfl, rfl, rfl, rfl, rfl⟩)
    intro code hc hcode
    simp only [hc, ne_eq, not_true_eq_false, if_false] at hok
    refine .pure (hok _ ?_)
    rcases hcode with rfl | rfl
    · exact ⟨rfl, rfl, rfl, rfl, rfl⟩
    · exact ⟨rfl, rfl⟩
  | branch t rest ht ih =>
    intro d fuel parser hpath htype hfuel hok hst
    rw [tokens_cons ht] at hfuel hok
    obtain _ | k := fuel
    · simp at hfuel
    simp only [length_cons, Nat.add_le_add_iff_right] at hfuel
    have htake : parser.nppPath.take t.length = t := by
      rw [hpath, take_left]
    unfold nffsPathFindLoop
    rw [nffsPathParseNext_branch hpath ht (by simp [htype])]
    unfold St.walk at hok
    by_cases hlong : t.length > filenameMaxLen
    · simp only [hlong, if_true] at hok ⊢
      exact .pure (hok _ rfl)
    simp only [hlong, if_false] at hok ⊢
    by_cases hnil : t = []
    · simp only [hnil, length_nil, if_true] at hok ⊢
      exact ih rfl rfl hfuel hok hst
    have hlen : t.length ≠ 0 := mt length_eq_zero_iff.mp hnil
    simp only [hnil, hlen, if_false, PathParser.token, htake, tokens_ne_nil] at hok ⊢
    refine .bind (.attempt (wp_nffsPathFindChild h ?_ ?_ hst))
    · intro c hc hlive
      simp only [hc] at hok
      exact ih rfl rfl hfuel hok fun hn => by simp [hn] at hlive
    · intro code hc hcode
      simp only [hc, ne_eq, tokens_ne_nil, not_false_eq_true, if_true] at hok
      exact .pure (hok _ ⟨rfl, rfl, rfl, hcode⟩)

/-- `nffs_path_find` reads the state and answers what the lists say. -/
theorem wp_nffsPathFind (path : Name) (hok : ∀ r, (s.lookup path).Shows r → Q.ok r s)
    (hst : s.inodes idRootDir = none → Q.stuck) : Wp (nffsPathFind path) Q s := by
  unfold nffsPathFind nffsPathFindLoop
  unfold St.lookup at hok
  rcases path_cases path with hp | ⟨t, rest, rfl, ht⟩
  · rw [nffsPathParseNext_bare hp rfl]
    rw [tokens_of_no_slash hp] at hok
    exact .pure (hok _ rfl)
  rw [nffsPathParseNext_branch (show (nffsPathParserNew _).nppPath = _ from rfl) ht
    (by simp [nffsPathParserNew])]
  have hne := tokens_ne_nil rest
  rw [tokens_cons ht] at hok
  obtain ⟨u, ts, hts⟩ := exists_cons_of_ne_nil hne
  simp only [hts] at hok
  rw [← hts] at hok
  by_cases hlong : t.length > filenameMaxLen
  · simp only [hlong, if_true] at hok ⊢
    exact .pure (hok _ rfl)
  simp only [hlong, if_false] at hok ⊢
  by_cases hnil : t = []
  · subst hnil
    simp only [length_nil, ne_eq, not_true_eq_false, if_false, nil_append] at hok ⊢
    refine wp_nffsPathFindLoop h rest rfl rfl ?_ hok hst
    have := tokens_length_le rest
    omega
  · have hlen : t.length ≠ 0 := mt length_eq_zero_iff.mp hnil
    simp only [ne_eq, hnil, hlen, not_false_eq_true, if_true] at hok ⊢
    exact .pure (hok _ ⟨rfl, rfl, rfl⟩)

end

/-! ## What an answer says -/

/-- Where a path names nothing and nothing could be put there, the code is
another than `FS_ENOENT`, or the walk did not get to the last component. -/
theorem Lookup.Shows.cases (h : l.Shows r) :
    (∃ id d t, l = .found id d t) ∨ (∃ d t, l = .absent d t) ∨
      (r.entry = .error .enoent ∧ r.parser.nppTokenType = .branch) ∨
      ∃ code, code ≠ .enoent ∧ r.entry = .error code := by
  cases l with
  | invalid => exact .inr (.inr (.inr ⟨.einval, by decide, h⟩))
  | relative => exact .inr (.inr (.inl ⟨h.1, h.2.2⟩))
  | gap code =>
    obtain ⟨hent, -, htype, rfl | rfl⟩ := h
    · exact .inr (.inr (.inl ⟨hent, htype⟩))
    · exact .inr (.inr (.inr ⟨.eunexp, by decide, hent⟩))
  | blocked code =>
    obtain ⟨hent, rfl⟩ := h
    exact .inr (.inr (.inr ⟨.eunexp, by decide, hent⟩))
  | absent d t => exact .inr (.inl ⟨d, t, rfl⟩)
  | found id d t => exact .inl ⟨id, d, t, rfl⟩

variable {id p : Nat} {t path : Name}

theorem Lookup.Shows.error (h : l.Shows r) (hf : ∀ id d t, l ≠ .found id d t) :
    ∃ code, r.entry = .error code := by
  rcases h.cases with ⟨id, d, t, rfl⟩ | ⟨d, t, rfl⟩ | ⟨hent, -⟩ | ⟨code, -, hent⟩
  · exact absurd rfl (hf id d t)
  · exact ⟨_, h.1⟩
  · exact ⟨_, hent⟩
  · exact ⟨code, hent⟩

theorem St.walk_found {ts : List Name} {d : Nat} (hw : s.walk d ts = .found id p t) :
    t.length ≤ filenameMaxLen ∧ (t = [] ∧ id = p ∧ (id = d ∨ ∃ q u, s.down q u = .ok id) ∨
        t ∈ ts ∧ t ≠ [] ∧ s.down p t = .ok id) := by
  fun_induction St.walk s d ts with
  | case1 d =>
    cases hw
    exact ⟨Nat.zero_le _, .inl ⟨rfl, rfl, .inl rfl⟩⟩
  | case3 d ts _ ih =>
    obtain ⟨hlen, hcase⟩ := ih hw
    exact ⟨hlen, hcase.imp_right fun hm => ⟨mem_cons_of_mem _ hm.1, hm.2⟩⟩
  | case4 d u hlong hne c hc =>
    cases hw
    exact ⟨by omega, .inr ⟨mem_cons_self, hne, hc⟩⟩
  | case5 d u ts hlong hne c hc _ ih =>
    obtain ⟨hlen, hcase⟩ := ih hw
    refine ⟨hlen, hcase.imp ?_ fun hm => ⟨mem_cons_of_mem u hm.1, hm.2⟩⟩
    rintro ⟨ht, hid, rfl | hdown⟩
    · exact ⟨ht, hid, .inr ⟨d, u, hc⟩⟩
    · exact ⟨ht, hid, .inr hdown⟩
  | _ => cases hw

theorem St.walk_absent {ts : List Name} {d : Nat} (hw : s.walk d ts = .absent p t) :
    t.length ≤ filenameMaxLen ∧ t ∈ ts ∧ t ≠ [] ∧ s.down p t = .error .enoent := by
  fun_induction St.walk s d ts with
  | case3 d ts _ ih => exact ⟨(ih hw).1, mem_cons_of_mem _ (ih hw).2.1, (ih hw).2.2⟩
  | case5 d u ts _ _ c _ _ ih => exact ⟨(ih hw).1, mem_cons_of_mem u (ih hw).2.1, (ih hw).2.2⟩
  | case7 d u ts hlong hne _ hc =>
    cases hw
    exact ⟨by omega, mem_cons_self, hne, hc⟩
  | _ => cases hw

/-- A path that is not refused at its first component is walked from the
root. -/
theorem St.lookup_walk (hi : s.lookup path ≠ .invalid) (hr : s.lookup path ≠ .relative) :
    ∃ ts, ts ≠ [] ∧ tokens path = [] :: ts ∧ s.lookup path = s.walk idRootDir ts := by
  unfold St.lookup at hi hr ⊢
  rcases hts : tokens path with _ | ⟨t, _ | ⟨u, ts⟩⟩
  · simp [hts] at hi
  · simp [hts] at hi
  simp only [hts] at hi hr ⊢
  by_cases hlong : t.length > filenameMaxLen
  · simp [hlong] at hi
  by_cases hnil : t = []
  · exact ⟨u :: ts, by simp, by rw [hnil], by simp [hnil]⟩
  · simp [hlong, hnil] at hr

/-- What a path that names something ended on. -/
theorem St.lookup_found (hl : s.lookup path = .found id p t) :
    t.length ≤ filenameMaxLen ∧ (∀ x ∈ t, x ∈ path) ∧
      (t = [] ∧ id = p ∧ (id = idRootDir ∨ ∃ q u, s.down q u = .ok id) ∨
        t ≠ [] ∧ s.down p t = .ok id) := by
  obtain ⟨ts, -, hts, hw⟩ := St.lookup_walk
    (show s.lookup path ≠ .invalid by simp [hl]) (by simp [hl])
  obtain ⟨hlen, hcase⟩ := St.walk_found (hw.symm.trans hl)
  refine ⟨hlen, fun x hx => ?_, hcase.imp_right fun hm => hm.2⟩
  rcases hcase with ⟨rfl, -⟩ | ⟨hmem, -⟩
  · cases hx
  · exact mem_of_mem_token (by rw [hts]; exact mem_cons_of_mem _ hmem) hx

/-- What a path ended on of which only the last component is missing. -/
theorem St.lookup_absent (hl : s.lookup path = .absent p t) :
    t.length ≤ filenameMaxLen ∧ (∀ x ∈ t, x ∈ path) ∧ t ≠ [] ∧ s.down p t = .error .enoent := by
  obtain ⟨ts, -, hts, hw⟩ := St.lookup_walk
    (show s.lookup path ≠ .invalid by simp [hl]) (by simp [hl])
  obtain ⟨hlen, hmem, hrest⟩ := St.walk_absent (hw.symm.trans hl)
  exact ⟨hlen, fun x hx => mem_of_mem_token (by rw [hts]; exact mem_cons_of_mem _ hmem) hx, hrest⟩

end Paths

end Larva.Nffs
