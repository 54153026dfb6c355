import Larva.Nffs.FileOps

/-!
# A file is a byte array

What a file handle does to a plain byte array, and the runs of the file system
in which the code does the same. A write replaces bytes and extends the array
at its end; a read returns what there is.

The code departs from this when an overwrite has made the last block of a file
longer, its cached length was left as it was, and then another block is
appended: a hole opens in the cached stretch, and a read that goes through it
returns bytes from the wrong place. A write of several chunks can do both by
itself. It also departs from it when an overwrite would make a block longer
than its sixteen bit length can say. `St.WriteSafe` is what a write has to
meet for neither to happen, and in every run whose writes meet it the files
are byte arrays.
-/

namespace Larva.Nffs

open Larva.Crash Function List

/-! ## The files as a state shows them -/

/-- The chain that ends in a block. -/
def St.chainFrom (s : St) : Nat → Option Nat → List Link
  | _, none => []
  | 0, some _ => []
  | n + 1, some e =>
    match s.blocks e with
    | none => []
    | some b => (e, b) :: s.chainFrom n (if b.ndbPrevId = idNone then none
          else some b.ndbPrevId)

/-- The chain of a file, and of nothing else. -/
def St.chain (s : St) (f : Nat) : List Link :=
  if hashIdIsFile f then
    match s.inodes f with
    | none => []
    | some e => s.chainFrom s.numBlockIds e.nieLastBlockEntry
  else []

theorem Recached.chain {s s' : St} (h : Recached s s') : s'.chain = s.chain := by
  obtain ⟨⟨L, i, p, rfl⟩, -⟩ := h
  have hfrom : ∀ n e, St.chainFrom { s with
      cacheInodes := L, cacheInodePool := i, cacheBlockPool := p } n e = s.chainFrom n e := by
    intro n
    induction n with
    | zero =>
      intro e
      cases e <;> rfl
    | succ n ih =>
      intro e
      cases e with
      | none => rfl
      | some e =>
        unfold St.chainFrom
        cases s.blocks e with
        | none => rfl
        | some b => simp only [ih]
  funext f
  unfold St.chain
  simp only [hfrom]
  rfl

theorem chainFrom_eq {s : St} {f : Nat} {T : List Link} {b n : Nat}
    (h : IsChain s.blocks f b T) (hb : b ≤ idNone) (hn : T.length ≤ n) :
    s.chainFrom n (ptr T) = T := by
  induction T generalizing b n with
  | nil =>
    unfold ptr St.chainFrom
    rfl
  | cons x T ih =>
    obtain ⟨h1, -, h3, -, -, -, h7, hr⟩ := h
    obtain _ | k := n
    · simp at hn
    simp only [length_cons] at hn
    unfold ptr St.chainFrom
    simp only [h3, h7]
    have hprev : (if ptrId T = idNone then none else some (ptrId T)) = ptr T := by
      cases T with
      | nil => rfl
      | cons y T =>
        have hlt : y.1 < x.1 := hr.1
        rw [if_neg]
        · rfl
        · show y.1 ≠ idNone
          omega
    rw [hprev, ih hr (by omega) (by omega)]

variable {R : Nat → List Link}

theorem Stored.chain_eq {s : St} {f : Nat} (h : Stored s R) (hf : s.HasFile f) :
    s.chain f = R f := by
  obtain ⟨e, he⟩ := Option.isSome_iff_exists.mp hf.1
  have hc := h.isChain hf
  unfold St.chain
  rw [if_pos hf.2]
  simp only [he, h.last f e he hf.2]
  exact chainFrom_eq hc (le_of_lt h.nextBlockId_lt) (hc.length_le h.minId)

theorem chain_of_not_file {s : St} {f : Nat} (h : ¬ s.HasFile f) : s.chain f = [] := by
  unfold St.chain
  by_cases hfile : hashIdIsFile f = true
  · rw [if_pos hfile]
    cases he : s.inodes f with
    | none => rfl
    | some e => exact absurd ⟨by rw [he]; rfl, hfile⟩ h
  · rw [if_neg hfile]

/-- The chains of a state are the ones that its files have. -/
theorem Wf.of_chains {s : St} (h : Wf s R (sizes R)) : Wf s s.chain (sizes s.chain) := by
  refine { h with last := ?_, chain := ?_, used := ?_, cached := fun c hc => ?_ }
  · intro f e he hfile
    rw [h.chain_eq ⟨by rw [he]; rfl, hfile⟩]
    exact h.last f e he hfile
  · intro f hf hfile
    rw [h.chain_eq ⟨hf, hfile⟩]
    exact h.chain f hf hfile
  · intro f hf hfile
    rw [h.chain_eq ⟨hf, hfile⟩]
    exact h.used f hf hfile
  · have hok := h.cached c hc
    unfold sizes at hok ⊢
    rw [h.chain_eq (h.cacheLive c hc)]
    exact hok

/-- A state in which the files can be used: what is stored is well formed, the
caches agree with it and have room for one inode and one block, and no handle
is past the end of its file. -/
structure Consistent (s : St) : Prop where
  wf : Wf s s.chain (sizes s.chain)
  inodes : 0 < s.cacheInodeTotal
  blocks : 0 < s.cacheBlockTotal
  offsets : ∀ h fl, s.files h = some fl → fl.nfOffset ≤ chainSize (s.chain fl.nfInodeEntry)

/-! ## Byte arrays -/

/-- The operations on an open file handle. -/
inductive FileOp where
  | write (h : Nat) (data : List UInt8)
  | seek (h offset : Nat)
  | read (h len : Nat)
deriving DecidableEq, Repr

/-- What an operation returns. -/
inductive Reply where
  | ok (data : List UInt8)
  | err (e : FsErr)
deriving DecidableEq, Repr

/-- What the code does. A write and a seek return no data. -/
def FileOp.run : FileOp → NffsM (List UInt8)
  | .write h d => do
      nffsWriteToFile h d
      pure []
  | .seek h o => do
      nffsFileSeek h o
      pure []
  | .read h len => nffsFileRead h len

/-- Files as plain byte arrays, and the open handles. -/
structure Bytes where
  contents : Nat → List UInt8
  files : Nat → Option File

def St.bytes (s : St) : Bytes :=
  ⟨fun f => chainBytes (s.chain f), s.files⟩

/-- Put `C` into the file of a handle and the handle at offset `o`. -/
def Bytes.set (b : Bytes) (h : Nat) (fl : File) (C : List UInt8) (o : Nat) :
    Bytes :=
  ⟨update b.contents fl.nfInodeEntry C, update b.files h (some { fl with nfOffset := o })⟩

/-- What an operation is to do, and to return. It is given an open handle. -/
def Bytes.step (b : Bytes) : FileOp → Reply × Bytes
  | .write h d =>
    match b.files h with
    | none => (.ok [], b)
    | some fl =>
      let C := b.contents fl.nfInodeEntry
      if fl.nfAccessFlags &&& accessWrite = 0 then (.err .eaccess, b)
      else if d = [] then (.ok [], b)
      else (.ok [], b.set h fl (splice C (writeOffset fl C.length) d)
        (writeOffset fl C.length + d.length))
  | .seek h o =>
    match b.files h with
    | none => (.ok [], b)
    | some fl =>
      let C := b.contents fl.nfInodeEntry
      if o > C.length then (.err .erange, b)
      else (.ok [], b.set h fl C o)
  | .read h len =>
    match b.files h with
    | none => (.ok [], b)
    | some fl =>
      let C := b.contents fl.nfInodeEntry
      let data := (C.drop fl.nfOffset).take len
      if fl.nfAccessFlags &&& accessRead = 0 then (.err .eaccess, b)
      else (.ok data, b.set h fl C (fl.nfOffset + data.length))

def Bytes.run (b : Bytes) : List FileOp → List Reply × Bytes
  | [] => ([], b)
  | op :: ops =>
    let (reply, b') := b.step op
    let (replies, b'') := b'.run ops
    (reply :: replies, b'')

/-! ## Writes that are safe -/

/-- The last block of the file is cached with a length that it no longer
has. -/
def St.stale (s : St) (f : Nat) : Bool :=
  s.cacheInodes.any fun c => c.nciInodeEntry = f &&
    match c.nciBlockList, s.chain f with
    | cb :: _, x :: _ => cb.nbHashEntry = x.1 && cb.nbDataLen ≠ Link.len x
    | _, _ => false

/-- A write of `n` bytes at offset `o` of a file. At the end of the file no
cached length may be out of date, or the file must be the one to give up its
cached blocks. -/
def St.WriteSafe (s : St) (f o n : Nat) : Prop :=
  (o = chainSize (s.chain f) → s.stale f = false ∨ s.evicts f) ∧
    Fits s.blockMaxDataSz s.cacheBlockTotal (s.chain f) o n

instance (s : St) (f o n : Nat) : Decidable (s.WriteSafe f o n) :=
  inferInstanceAs (Decidable (_ ∧ _))

/-- What an operation has to meet, given the handle it is on: its end is a
number of thirty-two bits if it reads, and it is safe if it writes. -/
def FileOp.SafeOn (s : St) (fl : File) : FileOp → Prop
  | .write _ d => fl.nfAccessFlags &&& accessWrite ≠ 0 → d ≠ [] → s.WriteSafe fl.nfInodeEntry
        (writeOffset fl (chainSize (s.chain fl.nfInodeEntry))) d.length
  | .seek _ _ => True
  | .read _ len => fl.nfOffset + len < 2 ^ 32

instance (s : St) (fl : File) (op : FileOp) : Decidable (op.SafeOn s fl) :=
  match op with
  | .write _ _ => inferInstanceAs (Decidable (_ → _ → _))
  | .seek _ _ => inferInstanceAs (Decidable True)
  | .read _ _ => inferInstanceAs (Decidable (_ < _))

def FileOp.handle : FileOp → Nat
  | .write h _ => h
  | .seek h _ => h
  | .read h _ => h

/-- The operation is on an open handle, and safe. -/
def FileOp.Safe (s : St) (op : FileOp) : Prop :=
  ∃ fl ∈ s.files op.handle, op.SafeOn s fl

instance (s : St) (op : FileOp) : Decidable (op.Safe s) :=
  inferInstanceAs (Decidable (∃ fl ∈ s.files op.handle, op.SafeOn s fl))

theorem snugAt_of_not_stale {s : St} {f : Nat}
    (h : Wf s s.chain (sizes s.chain)) (hs : s.stale f = false) : SnugAt s s.chain f := by
  intro c hc hid cb hcb y hy he
  have hchain := h.isChain (h.file hc hid)
  obtain ⟨A, S, B, hR, hS⟩ := (h.cached c hc).blocks
  rw [hid] at hR
  have hstale := List.any_eq_false.mp hs c hc
  match hl : c.nciBlockList, S, hS with
  | [], [], _ =>
    rw [hl] at hcb
    cases hcb
  | cb' :: l, x :: S', ⟨hf, hl'⟩ =>
    have hx : x ∈ s.chain f := by
      rw [hR]
      simp
    rw [hl] at hcb
    rcases List.mem_cons.mp hcb with rfl | hcb
    · -- The one cached block whose length may be out of date.
      have hyx : y = x := hchain.eq_of_mem hy hx (he.symm.trans hf.entry)
      rw [hyx]
      by_cases hA : A = []
      · rw [hR, hA] at hstale
        simpa [hl, hid, hf.entry] using hstale
      · exact hf.eq hA
    · rw [hl'] at hcb
      refine hchain.snug_seg (fun w hw => ?_) cb hcb y hy he
      rw [hR]
      simp [hw]

/-! ## One operation -/

section Step

variable {s s' : St} {h : Nat} {fl : File} {C : List UInt8} {o : Nat} {R' : Nat → List Link}

theorem Consistent.moved (hs : Consistent s) (hh : s.files h = some fl)
    (hm : Moved s s.chain h fl C o s' R') (ho : o ≤ C.length)
    (hC : chainSize (s.chain fl.nfInodeEntry) ≤ C.length) :
    Consistent s' ∧ s'.bytes = s.bytes.set h fl C o := by
  obtain ⟨hlive, hfile⟩ := hs.wf.handles h fl hh
  have hfl : s'.chain fl.nfInodeEntry = R' fl.nfInodeEntry :=
    hm.wf.chain_eq ⟨(hm.live _).trans hlive, hfile⟩
  have hlen : chainSize (R' fl.nfInodeEntry) = C.length := by
    rw [← hm.bytes, chainBytes_length]
  have hother : ∀ g, g ≠ fl.nfInodeEntry → s'.chain g = s.chain g := by
    intro g hg
    by_cases hgl : s'.HasFile g
    · rw [hm.wf.chain_eq hgl, hm.other g hg]
    · rw [chain_of_not_file hgl, chain_of_not_file]
      rw [St.HasFile, ← hm.live]
      exact hgl
  refine ⟨⟨hm.wf.of_chains, hm.inodes, by rw [hm.total]; exact hs.blocks, ?_⟩, ?_⟩
  · intro i fl' hi
    rw [hm.files] at hi
    by_cases hih : i = h
    · simp only [St.setOffset, hih, if_true, Option.some.injEq] at hi
      rw [← hi, hfl, hlen]
      exact ho
    simp only [St.setOffset, hih, if_false] at hi
    have hold := hs.offsets i fl' hi
    by_cases hg : fl'.nfInodeEntry = fl.nfInodeEntry
    · rw [hg] at hold ⊢
      rw [hfl, hlen]
      omega
    · rw [hother _ hg]
      exact hold
  · have hcontents : (fun g => chainBytes (s'.chain g)) = update
        (fun g => chainBytes (s.chain g)) fl.nfInodeEntry C := by
      funext g
      by_cases hg : g = fl.nfInodeEntry
      · subst hg
        rw [update_self, hfl, hm.bytes]
      · rw [update_of_ne hg, hother g hg]
    have hfiles : s'.files = update s.files h (some { fl with nfOffset := o }) := by
      rw [hm.files]
      funext i
      by_cases hi : i = h
      · simp [St.setOffset, hi]
      · simp [St.setOffset, hi]
    unfold St.bytes Bytes.set
    rw [hcontents, hfiles]

/-- An operation that is safe does to the files what it does to byte arrays,
unless space or memory runs out. -/
theorem wp_fileOp {op : FileOp} (hs : Consistent s) (hop : op.Safe s) :
    Wp op.run ⟨fun r s' => Consistent s' ∧ s.bytes.step op = (.ok r, s'.bytes),
      fun e s' => e.IsFull ∨ Consistent s' ∧ s.bytes.step op = (.err e, s'.bytes),
      fun _ => False, False⟩ s := by
  obtain ⟨fl, hh, hsafe⟩ := hop
  have ho := hs.offsets _ fl hh
  have hlen : (s.bytes.contents fl.nfInodeEntry).length =
      chainSize _ := chainBytes_length _
  cases op with
  | write h d =>
    have hstep : s.bytes.files h = some fl := hh
    have hle := writeOffset_le ho
    refine .bind (wp_nffsWriteToFile hs.wf hs.inodes hs.blocks hh ho ?_
      (fun e s' he => .inl he) ?_ ?_ ?_)
    · intro hw hd
      obtain ⟨h1, h2⟩ := hsafe hw hd
      exact ⟨fun he => (h1 he).imp_left (snugAt_of_not_stale hs.wf), h2⟩
    · intro hw
      refine .inr ⟨hs, ?_⟩
      simp only [Bytes.step, hstep, hw, if_true]
    · intro hw hd
      refine .pure ⟨hs, ?_⟩
      simp only [Bytes.step, hstep, hw, hd, if_true, if_false]
    · intro hw hd s' R' hm
      have hsp := splice_length (d := d) (hle.trans_eq (chainBytes_length _).symm)
      rw [chainBytes_length] at hsp
      obtain ⟨hc, hb⟩ := hs.moved hh hm (by omega) (by omega)
      refine .pure ⟨hc, ?_⟩
      simp only [Bytes.step, hstep, hw, hd, if_false, hlen]
      rw [hb]
      rfl
  | seek h o =>
    have hstep : s.bytes.files h = some fl := hh
    refine .bind (wp_nffsFileSeek hs.wf hs.inodes hh ?_ ?_)
    · intro hgt s' hw' hrec hi'
      have hch := hrec.chain
      have hfi := hrec.frame.files
      refine .inr ⟨⟨by rw [hch]; exact hw', hi', by rw [hrec.total]; exact hs.blocks,
        by rw [hch, hfi]; exact hs.offsets⟩, ?_⟩
      simp only [Bytes.step, hstep, hlen]
      rw [if_pos hgt]
      unfold St.bytes
      rw [hch, hfi]
    · intro hle s' hm
      obtain ⟨hc, hb⟩ := hs.moved hh hm (by rw [chainBytes_length]; exact hle)
        (le_of_eq (chainBytes_length _).symm)
      refine .pure ⟨hc, ?_⟩
      simp only [Bytes.step, hstep, hlen]
      rw [if_neg (by omega), hb]
      rfl
  | read h len =>
    have hstep : s.bytes.files h = some fl := hh
    refine wp_nffsFileRead hs.wf hs.inodes hs.blocks hh ho hsafe ?_ ?_
    · intro hr
      refine .inr ⟨hs, ?_⟩
      simp only [Bytes.step, hstep, hr, if_true]
    intro hr s' hm
    obtain ⟨hc, hb⟩ := hs.moved hh hm (by
      rw [length_take, length_drop, chainBytes_length]
      omega) (le_of_eq (chainBytes_length _).symm)
    refine ⟨hc, ?_⟩
    simp only [Bytes.step, hstep, hr, if_false]
    rw [hb]
    rfl

end Step

/-! ## Runs -/

/-- A run of safe operations in which space and memory do not run out: the
replies and the state at the end. -/
def fileRun (s : St) : List FileOp → Option (List Reply × St)
  | [] => some ([], s)
  | op :: ops =>
    if op.Safe s then
      match op.run s none with
      | .ok r s' _ => (fileRun s' ops).map fun p => (.ok r :: p.1, p.2)
      | .err e s' _ =>
        if e.IsFull then none
        else (fileRun s' ops).map fun p => (.err e :: p.1, p.2)
      | _ => none
    else none

/-- What the next operation of a run may do: what it does to byte arrays, or
fail for lack of space or memory. -/
def FileOp.Agrees (s : St) (op : FileOp) : Prop :=
  match op.run s none with
  | .ok r s' _ => s.bytes.step op = (.ok r, s'.bytes)
  | .err e s' _ => e.IsFull ∨ s.bytes.step op = (.err e, s'.bytes)
  | _ => False

theorem Consistent.agrees {s : St} {op : FileOp} (hs : Consistent s)
    (hop : op.Safe s) : op.Agrees s := by
  have hw := wp_fileOp hs hop none
  unfold FileOp.Agrees
  cases ho : op.run s none with
  | ok r s' left =>
    rw [ho] at hw
    exact hw.1.2
  | err e s' left =>
    rw [ho] at hw
    exact hw.1.imp_right And.right
  | cut s' =>
    rw [ho] at hw
    exact hw.1
  | abort | spin =>
    rw [ho] at hw
    exact hw

theorem fileRun_bytes {ops : List FileOp} : ∀ {s s' : St} {rs : List Reply}, Consistent s →
      fileRun s ops = some (rs, s') → Consistent s' ∧ s.bytes.run ops = (rs, s'.bytes) := by
  induction ops with
  | nil =>
    intro s s' rs hs hrun
    obtain ⟨rfl, rfl⟩ := hrun
    exact ⟨hs, rfl⟩
  | cons op ops ih =>
    intro s s' rs hs hrun
    unfold fileRun at hrun
    by_cases hop : op.Safe s
    · rw [if_pos hop] at hrun
      have hw := wp_fileOp hs hop none
      cases ho : op.run s none with
      | ok r s1 left =>
        simp only [ho, Option.map_eq_some_iff] at hrun hw
        obtain ⟨⟨rs', s2⟩, hrest, he⟩ := hrun
        obtain ⟨rfl, rfl⟩ := he
        obtain ⟨hc, hb⟩ := ih hw.1.1 hrest
        refine ⟨hc, ?_⟩
        simp only [Bytes.run, hw.1.2, hb]
      | err e s1 left =>
        simp only [ho] at hrun hw
        by_cases he : e.IsFull
        · rw [if_pos he] at hrun
          cases hrun
        rw [if_neg he, Option.map_eq_some_iff] at hrun
        obtain ⟨⟨rs', s2⟩, hrest, he'⟩ := hrun
        obtain ⟨rfl, rfl⟩ := he'
        have hw := hw.1.resolve_left he
        obtain ⟨hc, hb⟩ := ih hw.1 hrest
        refine ⟨hc, ?_⟩
        simp only [Bytes.run, hw.2, hb]
      | _ => simp [ho] at hrun
    · rw [if_neg hop] at hrun
      cases hrun

/-- The replies of a sequence of operations, as long as they return. -/
def fileReplies (s : St) : List FileOp → Option (List Reply)
  | [] => some []
  | op :: ops =>
    match op.run s none with
    | .ok r s' _ => (fileReplies s' ops).map (.ok r :: ·)
    | .err e s' _ => (fileReplies s' ops).map (.err e :: ·)
    | _ => none

/-- In every run of safe operations the replies, and the files and handles at
the end, are those of plain byte arrays, and so is whatever safe operation
comes next. -/
theorem file_is_byte_array {s s' : St} {ops : List FileOp} {rs : List Reply} (hs : Consistent s)
    (hrun : fileRun s ops = some (rs, s')) : s.bytes.run ops = (rs, s'.bytes) ∧
      ∀ op : FileOp, op.Safe s' → op.Agrees s' := by
  obtain ⟨hc, hb⟩ := fileRun_bytes hs hrun
  exact ⟨hb, fun op hop => hc.agrees hop⟩

/-! ## A file system with one file -/

/-- Two areas of a thousand bytes, the first of them the scratch area, after a
format, with an empty file that is open for reading and writing. -/
def oneFile : St where
  inodes := fun i =>
    if i = idRootDir then some ⟨⟨0, idNone, []⟩, none, some idFileMin, none, 1⟩
    else if i = 1 then
      some ⟨⟨0, idRootDir, "lost+found".toUTF8.toList⟩, none, none, none, 1⟩
    else if i = idFileMin then
      some ⟨⟨0, idRootDir, "f".toUTF8.toList⟩, some 1, none, none, 2⟩
    else none
  blocks := fun _ => none
  files := fun h =>
    if h = 0 then some ⟨idFileMin, 0, accessRead ||| accessWrite⟩ else none
  nextDirId := 2
  nextFileId := idFileMin + 1
  nextBlockId := idBlockMin
  inodePool := 97
  blockPool := 100
  filePool := 3
  unlinkList := []
  cacheInodes := []
  cacheInodePool := 4
  cacheBlockPool := 64
  blockMaxDataSz := 464
  areas := [⟨1000, 23⟩, ⟨1000, 95⟩]
  scratchAreaIdx := 0
  gcAnswer := fun _ _ areas i => ⟨areas, i, .error .efull⟩
  gcCount := 0

theorem oneFile_last {f : Nat} {e : InodeEntry} (he : oneFile.inodes f = some e) :
    e.nieLastBlockEntry = none := by
  simp only [oneFile] at he
  split at he
  · cases he
    rfl
  split at he
  · cases he
    rfl
  · split at he
    · cases he
      rfl
    · cases he

theorem oneFile_chain (f : Nat) : oneFile.chain f = [] := by
  unfold St.chain
  split
  · cases he : oneFile.inodes f with
    | none => rfl
    | some e =>
      simp only [oneFile_last he]
      rfl
  · rfl

theorem oneFile_consistent : Consistent oneFile where
  wf := by
    have hchain : oneFile.chain = fun _ => [] := funext oneFile_chain
    rw [hchain]
    refine ⟨⟨?_, ?_, le_refl _, ?_, ?_, fun _ _ _ _ => rfl, ?_, ?_, ?_, ?_⟩, ?_, ?_, ?_⟩
    · decide
    · decide
    · decide
    · decide
    · exact fun f e he _ => oneFile_last he
    · exact fun _ _ _ => trivial
    · exact fun _ _ _ => Nat.zero_le _
    · intro h fl hfl
      simp only [oneFile] at hfl
      split at hfl
      · cases hfl
        decide
      · cases hfl
    · exact nodup_nil
    · exact fun c hc => by cases hc
    · exact fun c hc => by cases hc
  inodes := by decide
  blocks := by decide
  offsets := by
    intro h fl hfl
    simp only [oneFile] at hfl
    split at hfl
    · cases hfl
      exact Nat.zero_le _
    · cases hfl

/-- An overwrite that extends the file, read back. -/
theorem file_is_byte_array_oneFile : ∃ s', fileRun oneFile [.write 0 [1, 2, 3, 4, 5], .seek 0 3,
      .write 0 [11, 12, 13], .seek 0 0, .read 0 9] =
        some ([.ok [], .ok [], .ok [], .ok [], .ok [1, 2, 3, 11, 12, 13]], s') ∧
    oneFile.bytes.run [.write 0 [1, 2, 3, 4, 5], .seek 0 3,
      .write 0 [11, 12, 13], .seek 0 0, .read 0 9] =
        ([.ok [], .ok [], .ok [], .ok [], .ok [1, 2, 3, 11, 12, 13]], s'.bytes) ∧
    ∀ op : FileOp, op.Safe s' → op.Agrees s' := by
  have hrun : (fileRun oneFile [.write 0 [1, 2, 3, 4, 5], .seek 0 3,
      .write 0 [11, 12, 13], .seek 0 0, .read 0 9]).map Prod.fst =
        some [.ok [], .ok [], .ok [], .ok [], .ok [1, 2, 3, 11, 12, 13]] := by
    decide +kernel
  obtain ⟨⟨rs, s'⟩, hrun, rfl⟩ := Option.map_eq_some_iff.mp hrun
  exact ⟨s', hrun, file_is_byte_array oneFile_consistent hrun⟩

/-- Five bytes, an overwrite that makes the block ten bytes long, and three
more bytes behind it. The read returns the first five bytes twice: the cached
length of the first block is still five, so it is taken to lie before the
second block with nothing between. -/
theorem append_behind_extended_block_misread : Consistent oneFile ∧
    fileReplies oneFile [.write 0 [1, 2, 3, 4, 5], .seek 0 3,
      .write 0 [11, 12, 13, 14, 15, 16, 17], .write 0 [21, 22, 23], .seek 0 0, .read 0 13] =
        some [.ok [], .ok [], .ok [], .ok [], .ok [],
          .ok [1, 2, 3, 11, 12, 1, 2, 3, 11, 12, 21, 22, 23]] ∧
    (oneFile.bytes.run [.write 0 [1, 2, 3, 4, 5], .seek 0 3,
      .write 0 [11, 12, 13, 14, 15, 16, 17], .write 0 [21, 22, 23], .seek 0 0, .read 0 13]).1 =
        [.ok [], .ok [], .ok [], .ok [], .ok [],
          .ok [1, 2, 3, 11, 12, 13, 14, 15, 16, 17, 21, 22, 23]] :=
  ⟨oneFile_consistent, by decide +kernel, by decide +kernel⟩

end Larva.Nffs
