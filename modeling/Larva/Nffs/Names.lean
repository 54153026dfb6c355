import Larva.Nffs.Tree

/-!
# Filenames and paths

Two facts about strings that the directory code rests on. The filename
comparison reads three bytes, then a buffer at a time, and what it computes is
the lexicographic order of the names, with a name before its extensions; a
zero byte would end a comparison early, but a name cut out of a C string has
none. And the parser, called again and again, gives the pieces of the path
between its slashes.
-/

namespace Larva.Nffs

open List

/-! ## The order of names -/

section Order

variable {a b : Name}

variable (h0 : (0 : UInt8) ∉ a) {m : Nat}
include h0

/-- A comparison of bytes can be cut anywhere. -/
theorem strncmp_add {n : Nat} (ha : m ≤ a.length) (hb : m ≤ b.length) :
    strncmp (m + n) a b = if strncmp m a b = 0 then
      strncmp n (a.drop m) (b.drop m) else strncmp m a b := by
  induction m generalizing a b with
  | zero => simp [strncmp]
  | succ m ih =>
    match a, b, h0, ha, hb with
    | x :: a, y :: b, h0, ha, hb =>
      simp only [mem_cons, not_or, length_cons, Nat.add_le_add_iff_right] at h0 ha hb
      have hrec := ih h0.2 ha hb
      rw [add_right_comm]
      simp only [strncmp, drop_succ_cons]
      by_cases hxy : x = y
      · subst hxy
        simpa [Ne.symm h0.1] using hrec
      · have hne : (x.toNat : Int) - y.toNat ≠ 0 := by
          have := mt UInt8.toNat_inj.mp hxy
          omega
        simp [hxy, hne]

omit h0 in
/-- What is read next, of `m` bytes in all. -/
theorem chunkLen_le {off : Nat} (h : off < m) : ∃ len, (if m - off > inodeFilenameBufSz then
      inodeFilenameBufSz else m - off) = len ∧ 0 < len ∧ off + len ≤ m := by
  have hbuf : 0 < inodeFilenameBufSz := by decide
  refine ⟨_, rfl, ?_⟩
  split <;> omega

/-- The buffers make no difference. -/
theorem filenameCmpLoop_eq (ha : m ≤ a.length) (hb : m ≤ b.length) :
    ∀ {fuel off : Nat}, off ≤ m → m - off ≤ fuel →
      filenameCmpLoop a b m fuel off (strncmp off a b) = strncmp m a b := by
  intro fuel
  induction fuel with
  | zero =>
    intro off hle hfuel
    rw [show off = m by omega]
    rfl
  | succ fuel ih =>
    intro off hle hfuel
    unfold filenameCmpLoop
    have hcut : ∀ n, off + n ≤ m → strncmp (off + n) a b =
        if strncmp off a b = 0 then strncmp n (a.drop off) (b.drop off)
        else strncmp off a b :=
      fun n _ => strncmp_add h0 (by omega) (by omega)
    split
    · next h =>
      obtain ⟨len, hlen, hpos, hle⟩ := chunkLen_le h.2
      have hstep := hcut len hle
      rw [if_pos h.1] at hstep
      simp only [hlen, ← hstep]
      exact ih hle (by omega)
    · next h =>
      by_cases hr : strncmp off a b = 0
      · rw [show off = m by omega]
      · have := hcut (m - off) (by omega)
        rw [if_neg hr, Nat.add_sub_cancel' hle] at this
        exact this.symm

theorem filenameCmp_eq : filenameCmp a b =
      if strncmp (min a.length b.length) a b = 0 then
        (a.length : Int) - b.length
      else strncmp (min a.length b.length) a b := by
  have hmin : (if a.length < b.length then a.length else b.length) = min a.length b.length := by
    split <;> omega
  unfold filenameCmp
  simp only [hmin]
  rw [filenameCmpLoop_eq h0 (Nat.min_le_left _ _) (Nat.min_le_right _ _)]
  · split <;> omega
  · split <;> omega

/-- The comparison up to the end of the shorter name, and then of lengths. -/
theorem strncmp_min_sign :
    let r := if strncmp (min a.length b.length) a b = 0 then
        (a.length : Int) - b.length
      else strncmp (min a.length b.length) a b
    (r < 0 ↔ a < b) ∧ (r = 0 ↔ a = b) := by
  induction a generalizing b with
  | nil =>
    cases b with
    | nil => simp [strncmp]
    | cons y b =>
      simp only [length_nil, Nat.zero_min, strncmp, if_true, length_cons, nil_lt_cons, iff_true]
      exact ⟨by omega, by simp; omega⟩
  | cons x a ih =>
    cases b with
    | nil =>
      simp only [length_nil, Nat.min_zero, strncmp, if_true, length_cons, not_lt_nil, iff_false]
      exact ⟨by omega, by simp; omega⟩
    | cons y b =>
      simp only [mem_cons, not_or] at h0
      have hrec := ih (b := b) h0.2
      simp only [length_cons, Nat.add_min_add_right, strncmp, cons_lt_cons_iff, cons.injEq]
      by_cases hxy : x = y
      · subst hxy
        have hlen : a.length + 1 - (b.length + 1) = a.length - b.length := by omega
        simpa [Ne.symm h0.1, hlen, UInt8.lt_irrefl] using hrec
      have hne : (x.toNat : Int) - y.toNat ≠ 0 := by
        have := mt UInt8.toNat_inj.mp hxy
        omega
      have hlt : x < y ↔ x.toNat < y.toNat := UInt8.lt_iff_toNat_lt
      simp only [ne_eq, hxy, not_false_eq_true, if_true, false_and, or_false, hlt, hne, if_false]
      exact ⟨by omega, trivial⟩

theorem filenameCmp_neg : filenameCmp a b < 0 ↔ a < b := by
  rw [filenameCmp_eq h0]
  exact (strncmp_min_sign h0).1

theorem filenameCmp_zero : filenameCmp a b = 0 ↔ a = b := by
  rw [filenameCmp_eq h0]
  exact (strncmp_min_sign h0).2

end Order

/-! ## The comparisons, read by read

`filenameCmp` has both names at hand. The two functions of the source have the
first bytes of an inode's name and read the rest from flash, at an offset that
is passed on in eight bits. -/

/-- The name of an inode. `ni_filename` are the first bytes of it, and the
whole is on flash. -/
abbrev FileName : Type := { a : Name // (0 : UInt8) ∉ a ∧ a.length ≤ 255 }

/-- `nffs_inode_read_filename_chunk`. -/
def FileName.readChunk (inode : FileName) (filenameOffset len : Nat) : Option Name :=
  if u8 filenameOffset + len ≤ inode.1.length then
    some ((inode.1.drop (u8 filenameOffset)).take len)
  else none

/-- The loop that the two functions share, with what each reads on its two
sides. -/
def cmpChunks (read1 read2 : Nat → Nat → Option Name) (shortLen : Nat) :
    Nat → Nat → Int → Option Int
  | 0, _, _ => none
  | fuel + 1, off, result =>
    if result = 0 ∧ off < shortLen then do
      let remLen := shortLen - off
      let chunkLen := if remLen > inodeFilenameBufSz then inodeFilenameBufSz else remLen
      let buf0 ← read1 off chunkLen
      let buf1 ← read2 off chunkLen
      cmpChunks read1 read2 shortLen fuel (off + chunkLen) (strncmp chunkLen buf0 buf1)
    else some result

/-- `nffs_inode_filename_cmp_ram`; in `nffs_inode_filename_cmp_flash` the
second name is an inode's as well. -/
def FileName.cmp (inode : FileName) (name : Name) (nameLen : Nat)
    (read2 : Nat → Nat → Option Name) : Option Int := do
  let filenameLen := inode.1.length
  let shortLen := if nameLen < filenameLen then nameLen else filenameLen
  let chunkLen := if shortLen ≤ shortFilenameLen then shortLen else shortFilenameLen
  let result ← cmpChunks inode.readChunk read2 shortLen (shortLen + 1) chunkLen
    (strncmp chunkLen (inode.1.take shortFilenameLen) name)
  pure (if result = 0 then (filenameLen : Int) - nameLen else result)

def FileName.cmpRam (inode : FileName) (name : Name) : Option Int :=
  inode.cmp name name.length fun off len => some ((name.drop off).take len)

def FileName.cmpFlash (inode1 inode2 : FileName) : Option Int :=
  inode1.cmp (inode2.1.take shortFilenameLen) inode2.1.length inode2.readChunk

section Reads

variable {a b : Name} {read1 read2 : Nat → Nat → Option Name} {n m : Nat}

theorem strncmp_take {k : Nat} (ha : n ≤ m) (hb : n ≤ k) :
    strncmp n (a.take m) (b.take k) = strncmp n a b := by
  induction n generalizing a b m k with
  | zero => simp [strncmp]
  | succ n ih =>
    obtain ⟨m, rfl⟩ := Nat.exists_eq_add_of_lt ha
    obtain ⟨k, rfl⟩ := Nat.exists_eq_add_of_lt hb
    cases a with
    | nil => simp [strncmp]
    | cons x a =>
      cases b with
      | nil => simp [strncmp]
      | cons y b => simp only [take_succ_cons, strncmp, ih (Nat.le_add_right ..) (Nat.le_add_right ..)]

/-- Whoever reads the two names compares them. -/
theorem cmpChunks_eq {fuel off : Nat} {r : Int}
    (h1 : ∀ off len, off + len ≤ m → read1 off len = some ((a.drop off).take len))
    (h2 : ∀ off len, off + len ≤ m → read2 off len = some ((b.drop off).take len))
    (hf : m - off ≤ fuel) : cmpChunks read1 read2 m (fuel + 1) off r =
      some (filenameCmpLoop a b m fuel off r) := by
  induction fuel generalizing off r with
  | zero => rw [cmpChunks, if_neg (by omega), filenameCmpLoop]
  | succ fuel ih =>
    rw [cmpChunks, filenameCmpLoop]
    split
    · next h =>
      obtain ⟨len, hlen, hpos, hle⟩ := chunkLen_le h.2
      simp only [hlen, h1 off len hle, h2 off len hle, Option.bind_eq_bind, Option.bind_some,
        strncmp_take le_rfl le_rfl]
      exact ih (by omega)
    · rfl

theorem FileName.readChunk_eq (a : FileName) {off len : Nat} (h : off + len ≤ a.1.length) :
    a.readChunk off len = some ((a.1.drop off).take len) := by
  have hu : u8 off = off := Nat.mod_eq_of_lt (by have := a.2.2; omega)
  rw [readChunk, hu, if_pos h]

theorem FileName.cmp_eq (a b : FileName) {k : Nat} (hk : shortFilenameLen ≤ k)
    (h2 : ∀ off len, off + len ≤ b.1.length → read2 off len = some ((b.1.drop off).take len)) :
    a.cmp (b.1.take k) b.1.length read2 = some (filenameCmp a.1 b.1) := by
  have hcomm : (if b.1.length < a.1.length then b.1.length else a.1.length) =
      if a.1.length < b.1.length then a.1.length else b.1.length := by
    split <;> split <;> omega
  simp only [cmp, filenameCmp, hcomm]
  generalize hm : (if a.1.length < b.1.length then a.1.length else b.1.length) = m
  have hle : m ≤ a.1.length ∧ m ≤ b.1.length := by
    split at hm <;> omega
  rw [cmpChunks_eq (fun off len h => a.readChunk_eq (h.trans hle.1))
    (fun off len h => h2 off len (h.trans hle.2)) (Nat.sub_le _ _),
    strncmp_take (by split <;> omega) (by split <;> omega)]
  rfl

end Reads

/-- Both comparisons return, with the sign of the order of the names: bytes as
unsigned numbers, and a name before its extensions. So both are strict total
orders, and the same one. -/
theorem filename_order (a b : FileName) : ∃ r, a.cmpRam b.1 = some r ∧ a.cmpFlash b = some r ∧
    (r < 0 ↔ a.1 < b.1) ∧ (r = 0 ↔ a = b) ∧ (0 < r ↔ b.1 < a.1) := by
  have hneg := filenameCmp_neg (b := b.1) a.2.1
  have hzero := filenameCmp_zero (b := b.1) a.2.1
  refine ⟨filenameCmp a.1 b.1, ?_, ?_, hneg, hzero.trans Subtype.ext_iff.symm, ?_⟩
  · have h := a.cmp_eq b (k := max b.1.length 3) (le_max_right _ _) fun _ _ _ => rfl
    rwa [take_of_length_le (le_max_left _ _)] at h
  · exact a.cmp_eq b le_rfl fun off len h => b.readChunk_eq h
  refine ⟨fun hpos => Decidable.byContradiction fun hle => ?_, fun hlt => ?_⟩
  · have := hzero.mpr (List.le_antisymm hle (mt hneg.mpr (by omega)))
    omega
  · have := mt hneg.mp (List.lt_asymm hlt)
    have := mt hzero.mp fun h => List.lt_irrefl _ (h ▸ hlt)
    omega

/-! ## The pieces of a path -/

/-- The strings between the slashes of a path: as many as it has slashes, and
one more. -/
def tokens (path : Name) : List Name := path.splitOn slash

theorem tokens_ne_nil (path : Name) : tokens path ≠ [] :=
  splitOnP_ne_nil _ path

theorem tokens_of_no_slash {path : Name} (h : ∀ x ∈ path, x ≠ slash) :
    tokens path = [path] :=
  splitOnP_eq_singleton fun x hx => by simpa using h x hx

theorem tokens_cons {t rest : Name} (h : ∀ x ∈ t, x ≠ slash) :
    tokens (t ++ slash :: rest) = t :: tokens rest := by
  unfold tokens splitOn
  rw [splitOnP_append_cons _ _ (by simp)]
  exact congrArg (· ++ _) (tokens_of_no_slash h)

/-- A path is one token, or a token, a slash and a path. -/
theorem path_cases (path : Name) : (∀ x ∈ path, x ≠ slash) ∨
      ∃ t rest, path = t ++ slash :: rest ∧ ∀ x ∈ t, x ≠ slash := by
  by_cases h : slash ∈ path
  · obtain ⟨t, rest, hp, ht⟩ := eq_append_cons_of_mem h
    exact .inr ⟨t, rest, hp, fun x hx => ne_of_mem_of_not_mem hx ht⟩
  · exact .inl fun x hx => ne_of_mem_of_not_mem hx h

theorem path_induction {P : Name → Prop} (leaf : ∀ path, (∀ x ∈ path, x ≠ slash) → P path)
    (branch : ∀ t rest, (∀ x ∈ t, x ≠ slash) → P rest →
      P (t ++ slash :: rest)) (path : Name) : P path := by
  rcases path_cases path with h | ⟨t, rest, hp, h⟩
  · exact leaf path h
  · rw [hp]
    exact branch t rest h (path_induction leaf branch rest)
termination_by path.length

theorem tokens_length_le (path : Name) : (tokens path).length ≤ path.length + 1 := by
  induction path using path_induction with
  | leaf path h => simp [tokens_of_no_slash h]
  | branch t rest h ih =>
    rw [tokens_cons h]
    simp only [length_append, length_cons]
    omega

theorem mem_of_mem_token {path t : Name} (ht : t ∈ tokens path) {x : UInt8}
    (hx : x ∈ t) : x ∈ path := by
  induction path using path_induction with
  | leaf path h =>
    rw [tokens_of_no_slash h, mem_singleton] at ht
    exact ht ▸ hx
  | branch u rest h ih =>
    rw [tokens_cons h] at ht
    rcases mem_cons.mp ht with rfl | ht
    · simp [hx]
    · simp [ih ht]

section Parser

variable {parser : PathParser} {t rest : Name}

theorem findIdx_slash (h : ∀ x ∈ t, x ≠ slash) :
    (t ++ slash :: rest).findIdx (· == slash) = t.length := by
  have hlen : t.findIdx (· == slash) = t.length :=
    findIdx_eq_length.mpr fun x hx => by simpa using h x hx
  rw [findIdx_append, hlen]
  simp [findIdx_cons]

/-- A path with no slash at all is refused. -/
theorem nffsPathParseNext_bare (hp : ∀ x ∈ parser.nppPath, x ≠ slash)
    (ht : parser.nppTokenType = .none) : nffsPathParseNext parser = .error .einval := by
  have hlen : parser.nppPath.findIdx (· == slash) = parser.nppPath.length :=
    findIdx_eq_length.mpr fun x hx => by simpa using hp x hx
  simp [nffsPathParseNext, ht, hlen]

theorem nffsPathParseNext_leaf (hp : ∀ x ∈ parser.nppPath, x ≠ slash)
    (ht : parser.nppTokenType = .branch) : nffsPathParseNext parser =
      if parser.nppPath.length > filenameMaxLen then .error .einval
      else .ok ⟨.leaf, [], parser.nppPath, parser.nppPath.length⟩ := by
  have hlen : parser.nppPath.findIdx (· == slash) = parser.nppPath.length :=
    findIdx_eq_length.mpr fun x hx => by simpa using hp x hx
  simp [nffsPathParseNext, ht, hlen]

theorem nffsPathParseNext_branch (hp : parser.nppPath = t ++ slash :: rest) (h : ∀ x ∈ t, x ≠ slash)
    (ht : parser.nppTokenType ≠ .leaf) : nffsPathParseNext parser =
      if t.length > filenameMaxLen then .error .einval
      else .ok ⟨.branch, rest, parser.nppPath, t.length⟩ := by
  have hne : t.length ≠ parser.nppPath.length := by
    rw [hp]
    simp
  have hdrop : parser.nppPath.drop (t.length + 1) = rest := by
    rw [hp, drop_append]
    simp
  simp only [nffsPathParseNext, ht, if_false, hp, findIdx_slash h]
  rw [← hp, if_neg hne, hdrop]

end Parser

end Larva.Nffs
