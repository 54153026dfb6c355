import Larva.Nffs.Data

/-!
# Directories

`nffs_path.c` and the directory half of `nffs_inode.c` and `nffs_file.c`. A
directory's children hang off it as a list linked through the children,
sorted by filename; every walk down a path goes along these lists, and
unlinking a directory takes its whole subtree apart over a work list.

Nothing here catches a path that runs through a regular file. The head of a
child list and the last block of a file are one word, so such a walk takes the
file's last block for an inode: it ends at once if the file is empty, and else
it stops at the magic number of the block.
-/

namespace Larva.Nffs

open Larva.Crash

/-! ## Filenames -/

/-- `strncmp`. Callers compare no more bytes than both strings have. -/
def strncmp : Nat → Name → Name → Int
  | n + 1, a :: as, b :: bs =>
    if a ≠ b then (a.toNat : Int) - b.toNat
    else if a = 0 then 0
    else strncmp n as bs
  | _, _, _ => 0

/-- `struct nffs_inode`, as `nffs_inode_from_entry` fills it. It holds three
bytes of the filename; the rest is read when a comparison gets there. -/
structure Inode where
  niInodeEntry : Nat
  niSeq : Nat
  niParent : Option Nat
  niFilename : Name
deriving DecidableEq, Repr

/-- The loop that the two filename comparisons share: a buffer at a time,
until the names differ or the shorter one ends. -/
def filenameCmpLoop (a b : Name) (shortLen : Nat) : Nat → Nat → Int → Int
  | 0, _, result => result
  | fuel + 1, off, result =>
    if result = 0 ∧ off < shortLen then
      let remLen := shortLen - off
      let chunkLen := if remLen > inodeFilenameBufSz then inodeFilenameBufSz
        else remLen
      filenameCmpLoop a b shortLen fuel (off + chunkLen)
        (strncmp chunkLen (a.drop off) (b.drop off))
    else result

def filenameCmp (a b : Name) : Int :=
  let shortLen := if a.length < b.length then a.length else b.length
  let chunkLen := if shortLen ≤ shortFilenameLen then shortLen
    else shortFilenameLen
  let result := filenameCmpLoop a b shortLen shortLen chunkLen (strncmp chunkLen a b)
  if result = 0 then (a.length : Int) - b.length else result

def nffsInodeFilenameCmpRam (inode : Inode) (name : Name) : Int :=
  filenameCmp inode.niFilename name

def nffsInodeFilenameCmpFlash (inode1 inode2 : Inode) : Int :=
  filenameCmp inode1.niFilename inode2.niFilename

/-! ## Child lists -/

/-- A bound on the length of any child list: the number of ids given out. -/
def St.numInodeIds (s : St) : Nat := s.nextDirId + (s.nextFileId - idFileMin)

def nffsInodeFromEntry (id : Nat) : NffsM Inode := do
  let e ← inodeEntry id
  let parent ← if e.disk.ndiParentId = idNone then pure none
    else nffsHashFindInode e.disk.ndiParentId
  pure ⟨id, e.disk.ndiSeq, parent, e.disk.ndiFilename⟩

/-- Where `nffs_inode_add_child` stops: the last entry whose name is not
larger, or a null pointer. -/
def nffsInodeAddChildLoop (child : Inode) : Nat → Option Nat → Option Nat → NffsM (Option Nat)
  | _, prev, none => pure prev
  | 0, _, some _ => Prog.spin
  | fuel + 1, prev, some cur => do
      Prog.assert (cur != child.niInodeEntry)
      let curInode ← nffsInodeFromEntry cur
      if nffsInodeFilenameCmpFlash child curInode < 0 then pure prev
      else do
        let e ← inodeEntry cur
        nffsInodeAddChildLoop child fuel (some cur) e.nieSiblingNext

/-- `SLIST_INSERT_HEAD` on a child list. -/
def childInsertHead (parent child : Nat) : NffsM Unit := do
  let p ← inodeEntry parent
  let c ← inodeEntry child
  setInode child (some { c with nieSiblingNext := p.nieChildList })
  let p ← inodeEntry parent
  setInode parent (some { p with nieChildList := some child })

/-- `SLIST_INSERT_AFTER` on a child list. -/
def childInsertAfter (prev child : Nat) : NffsM Unit := do
  let p ← inodeEntry prev
  let c ← inodeEntry child
  setInode child (some { c with nieSiblingNext := p.nieSiblingNext })
  let p ← inodeEntry prev
  setInode prev (some { p with nieSiblingNext := some child })

def nffsInodeAddChild (parent child : Nat) : NffsM Unit := do
  let p ← inodeEntry parent
  Prog.assert (hashIdIsDir parent)
  let childInode ← nffsInodeFromEntry child
  let s ← Prog.get
  let prev ← nffsInodeAddChildLoop childInode s.numInodeIds none p.nieChildList
  match prev with
  | none => childInsertHead parent child
  | some prev => childInsertAfter prev child

/-- The search of `SLIST_REMOVE` for the entry before the one to remove. A
list that does not have it ends in a null pointer, which is followed. -/
def childRemoveLoop (child : Nat) : Nat → Option Nat → NffsM Unit
  | _, none => Prog.abort
  | 0, some _ => Prog.spin
  | fuel + 1, some cur => do
      let e ← inodeEntry cur
      if e.nieSiblingNext = some child then do
        let c ← inodeEntry child
        setInode cur (some { e with nieSiblingNext := c.nieSiblingNext })
      else childRemoveLoop child fuel e.nieSiblingNext

def nffsInodeRemoveChild (child : Inode) : NffsM Unit := do
  match child.niParent with
  | none => Prog.abort
  | some parent => do
      Prog.assert (hashIdIsDir parent)
      let p ← inodeEntry parent
      let s ← Prog.get
      if p.nieChildList = some child.niInodeEntry then do
        let c ← inodeEntry child.niInodeEntry
        setInode parent (some { p with nieChildList := c.nieSiblingNext })
      else childRemoveLoop child.niInodeEntry s.numInodeIds p.nieChildList
      let c ← inodeEntry child.niInodeEntry
      setInode child.niInodeEntry (some { c with nieSiblingNext := none })

/-! ## Paths -/

inductive TokenType where
  | none | branch | leaf
deriving DecidableEq, Repr

/-- `struct nffs_path_parser`. A pointer into the path is the string that
starts there: `nppPath` is `npp_path + npp_off`. -/
structure PathParser where
  nppTokenType : TokenType
  nppPath : Name
  nppToken : Name
  nppTokenLen : Nat
deriving DecidableEq, Repr

def slash : UInt8 := 0x2f

def nffsPathParserNew (path : Name) : PathParser := ⟨.none, path, [], 0⟩

def nffsPathParseNext (parser : PathParser) : Except FsErr PathParser :=
  if parser.nppTokenType = .leaf then .error .einval
  else
    let tokenLen := parser.nppPath.findIdx (· == slash)
    -- A path without a slash from here on is its last token.
    if tokenLen = parser.nppPath.length then
      if parser.nppTokenType = .none then .error .einval
      else if tokenLen > filenameMaxLen then .error .einval
      else .ok ⟨.leaf, [], parser.nppPath, tokenLen⟩
    else if tokenLen > filenameMaxLen then .error .einval
    else .ok ⟨.branch, parser.nppPath.drop (tokenLen + 1), parser.nppPath, tokenLen⟩

def PathParser.token (parser : PathParser) : Name :=
  parser.nppToken.take parser.nppTokenLen

def nffsPathFindChildLoop (name : Name) : Nat → Option Nat → NffsM Nat
  | _, none => Prog.fail .enoent
  | 0, some _ => Prog.spin
  | fuel + 1, some cur => do
      let inode ← nffsInodeFromEntry cur
      let cmp := nffsInodeFilenameCmpRam inode name
      if cmp = 0 then pure cur
      else if cmp > 0 then Prog.fail .enoent
      else do
        let e ← inodeEntry cur
        nffsPathFindChildLoop name fuel e.nieSiblingNext

def nffsPathFindChild (parent : Nat) (name : Name) : NffsM Nat := do
  let p ← inodeEntry parent
  let s ← Prog.get
  if hashIdIsDir parent then
    nffsPathFindChildLoop name s.numInodeIds p.nieChildList
  else
    -- The last block of a file, read as an inode entry.
    match p.nieLastBlockEntry with
    | none => Prog.fail .enoent
    | some _ => Prog.fail .eunexp

/-- What `nffs_path_find` leaves its caller: the code or the entry, the parent,
and the parser at the token where it stopped. -/
structure PathFind where
  entry : Except FsErr Nat
  parent : Option Nat
  parser : PathParser

def nffsPathFindLoop : Nat → PathParser → Option Nat → NffsM PathFind
  | 0, _, _ => Prog.spin
  | fuel + 1, parser, parent =>
    match nffsPathParseNext parser with
    | .error e => pure ⟨.error e, none, parser⟩
    | .ok parser =>
      match parser.nppTokenType, parent with
      | .branch, none =>
        if parser.nppTokenLen ≠ 0 then pure ⟨.error .enoent, none, parser⟩
        else nffsPathFindLoop fuel parser (some idRootDir)
      | .branch, some dir =>
        if parser.nppTokenLen = 0 then
          nffsPathFindLoop fuel parser (some dir)
        else do
          let rc ← Prog.attempt (nffsPathFindChild dir parser.token)
          match rc with
          | .ok child => nffsPathFindLoop fuel parser (some child)
          | .error e => pure ⟨.error e, some dir, parser⟩
      | .leaf, none => pure ⟨.error .enoent, none, parser⟩
      | .leaf, some dir =>
        if parser.nppTokenLen = 0 then pure ⟨.ok dir, some dir, parser⟩
        else do
          let rc ← Prog.attempt (nffsPathFindChild dir parser.token)
          pure ⟨rc, some dir, parser⟩
      | .none, parent => nffsPathFindLoop fuel parser parent

def nffsPathFind (path : Name) : NffsM PathFind :=
  nffsPathFindLoop (path.length + 1) (nffsPathParserNew path) none

def nffsPathFindInodeEntry (path : Name) : NffsM Nat := do
  let r ← nffsPathFind path
  match r.entry with
  | .error e => Prog.fail e
  | .ok id => pure id

/-! ## Unlinking -/

def nffsInodeEntryAlloc : NffsM Unit := do
  let s ← Prog.get
  if s.inodePool = 0 then Prog.fail .enomem
  else Prog.modify fun s => { s with inodePool := s.inodePool - 1 }

def nffsInodeEntryFree : NffsM Unit :=
  Prog.modify fun s => { s with inodePool := s.inodePool + 1 }

/-- `nffs_inode_write_disk`: the header, and the filename behind it. -/
def nffsInodeWriteDisk (areaIdx areaOffset filenameLen : Nat) : NffsM Unit := do
  nffsFlashWrite areaIdx areaOffset sizeofDiskInode
  if filenameLen ≠ 0 then
    nffsFlashWrite areaIdx (areaOffset + sizeofDiskInode) filenameLen
  else pure ()

def nffsInodeDeleteBlocksFromRamLoop (id : Nat) : Nat → NffsM Unit
  | 0 => Prog.spin
  | fuel + 1 => do
      let e ← inodeEntry id
      match e.nieLastBlockEntry with
      | none => pure ()
      | some last => do
          nffsBlockDeleteFromRam last
          nffsInodeDeleteBlocksFromRamLoop id fuel

def nffsInodeDeleteBlocksFromRam (id : Nat) : NffsM Unit := do
  Prog.assert (hashIdIsFile id)
  let s ← Prog.get
  nffsInodeDeleteBlocksFromRamLoop id (s.numBlockIds + 1)

def nffsInodeDeleteFromRam (id : Nat) : NffsM Unit := do
  if hashIdIsFile id then nffsInodeDeleteBlocksFromRam id else pure ()
  nffsCacheInodeDelete id
  let _ ← inodeEntry id
  setInode id none
  nffsInodeEntryFree

def nffsInodeInsertUnlinkList (id : Nat) : NffsM Unit := do
  let e ← inodeEntry id
  setInode id none
  Prog.modify fun s => { s with unlinkList := (id, e) :: s.unlinkList }

def nffsInodeDecRefcnt (id : Nat) : NffsM Unit := do
  let e ← inodeEntry id
  Prog.assert (e.nieRefcnt != 0)
  setInode id (some { e with nieRefcnt := e.nieRefcnt - 1 })
  if e.nieRefcnt - 1 = 0 then
    if hashIdIsFile id then nffsInodeDeleteFromRam id
    else nffsInodeInsertUnlinkList id
  else pure ()

/-- The children of a directory that is taken apart. -/
def unlinkChildrenLoop : Nat → Option Nat → NffsM Unit
  | _, none => pure ()
  | 0, some _ => Prog.spin
  | fuel + 1, some child => do
      let e ← inodeEntry child
      nffsInodeDecRefcnt child
      unlinkChildrenLoop fuel e.nieSiblingNext

def nffsInodeProcessUnlinkListLoop : Nat → NffsM Unit
  | 0 => Prog.spin
  | fuel + 1 => do
      let s ← Prog.get
      match s.unlinkList with
      | [] => pure ()
      | (id, e) :: rest => do
          Prog.assert (hashIdIsDir id)
          Prog.modify fun s => { s with unlinkList := rest }
          unlinkChildrenLoop s.numInodeIds e.nieChildList
          nffsInodeEntryFree
          nffsInodeProcessUnlinkListLoop fuel

/-- `nffs_inode_process_unlink_list`, called without a walk of the hash table
in progress. -/
def nffsInodeProcessUnlinkList : NffsM Unit := do
  let s ← Prog.get
  nffsInodeProcessUnlinkListLoop (s.nextDirId + 1)

def nffsInodeDeleteFromDisk (inode : Inode) : NffsM Unit := do
  Prog.assert inode.niParent.isSome
  let (areaIdx, offset) ← nffsMiscReserveSpace sizeofDiskInode
  nffsInodeWriteDisk areaIdx offset 0

def nffsInodeUnlinkFromRam (inode : Inode) : NffsM Unit := do
  if inode.niParent.isSome then nffsInodeRemoveChild inode else pure ()
  if hashIdIsDir inode.niInodeEntry then do
    nffsInodeInsertUnlinkList inode.niInodeEntry
    nffsInodeProcessUnlinkList
  else nffsInodeDecRefcnt inode.niInodeEntry

def nffsInodeUnlink (inode : Inode) : NffsM Unit := do
  nffsInodeDeleteFromDisk inode
  nffsInodeUnlinkFromRam inode

def nffsPathUnlink (path : Name) : NffsM Unit := do
  let id ← nffsPathFindInodeEntry path
  let inode ← nffsInodeFromEntry id
  nffsInodeUnlink inode

/-! ## Renaming -/

/-- The part of `nffs_inode_rename` that moves the entry to another list. -/
def relink (inode : Inode) (newParent : Nat) : NffsM Unit :=
  if inode.niParent ≠ some newParent then do
    if inode.niParent.isSome then nffsInodeRemoveChild inode else pure ()
    nffsInodeAddChild newParent inode.niInodeEntry
  else pure ()

/-- `nffs_inode_rename`. Its callers give both a parent and a name; the name
is a C string, and its length is stored in eight bits. -/
def nffsInodeRename (id newParent : Nat) (newFilename : Name) : NffsM Unit := do
  let inode ← nffsInodeFromEntry id
  relink inode newParent
  let (areaIdx, areaOffset) ← nffsMiscReserveSpace (sizeofDiskInode + newFilename.length)
  nffsInodeWriteDisk areaIdx areaOffset (u8 newFilename.length)
  nffsFlashLoc areaOffset
  let e ← inodeEntry id
  setInode id (some { e with
    disk := ⟨u32 (inode.niSeq + 1), newParent, newFilename.take (u8 newFilename.length)⟩ })

def nffsPathRename (fromPath toPath : Name) : NffsM Unit := do
  let src ← nffsPathFind fromPath
  match src.entry with
  | .error e => Prog.fail e
  | .ok id => do
      let dst ← nffsPathFind toPath
      match dst.entry with
      | .ok clobbered => do
          if hashIdIsDir id ≠ hashIdIsDir clobbered then Prog.fail .einval
          else do
            let inode ← nffsInodeFromEntry clobbered
            nffsInodeUnlink inode
      | .error .enoent => do
          Prog.assert dst.parent.isSome
          if dst.parser.nppTokenType ≠ .leaf then Prog.fail .einval
          else pure ()
      | .error e => Prog.fail e
      match dst.parent with
      | none => Prog.abort
      | some newParent => nffsInodeRename id newParent dst.parser.nppToken

/-! ## Creating -/

/-- `nffs_file_new`. The length of the name is cut to eight bits. -/
def nffsFileNew (parent : Option Nat) (filename : Name) (filenameLen : Nat)
    (isDir : Bool) : NffsM Nat := do
  let filenameLen := u8 filenameLen
  nffsInodeEntryAlloc
  let rc ← Prog.attempt (nffsMiscReserveSpace (sizeofDiskInode + filenameLen))
  match rc with
  | .error e => do
      nffsInodeEntryFree
      Prog.fail e
  | .ok (areaIdx, offset) => do
      let s ← Prog.get
      let id := if isDir then s.nextDirId else s.nextFileId
      Prog.modify fun s =>
        if isDir then { s with nextDirId := u32 (s.nextDirId + 1) }
        else { s with nextFileId := u32 (s.nextFileId + 1) }
      let parentId ← match parent with
        | none => pure idNone
        | some p => do
            let _ ← inodeEntry p
            pure p
      let rc ← Prog.attempt (nffsInodeWriteDisk areaIdx offset filenameLen)
      match rc with
      | .error e => do
          nffsInodeEntryFree
          Prog.fail e
      | .ok _ => do
          nffsFlashLoc offset
          setInode id (some ⟨⟨0, parentId, filename.take filenameLen⟩, none, none, none, 1⟩)
          match parent with
          | none => Prog.assert (id == idRootDir)
          | some p => nffsInodeAddChild p id
          pure id

def nffsPathNewDir (path : Name) : NffsM Nat := do
  let r ← nffsPathFind path
  match r.entry with
  | .ok _ => Prog.fail .eexist
  | .error .enoent =>
    if r.parser.nppTokenType ≠ .leaf ∨ r.parent = none then
      Prog.fail .enoent
    else nffsFileNew r.parent r.parser.nppToken r.parser.nppTokenLen true
  | .error e => Prog.fail e

/-- A handle that the pool still has. -/
def St.freeFile (s : St) : Option Nat :=
  (List.range s.filePool).find? fun h => (s.files h).isNone

def nffsFileAlloc : NffsM Nat := do
  let s ← Prog.get
  match s.freeFile with
  | none => Prog.fail .enomem
  | some h => pure h

/-- The inode that `nffs_file_open` opens, which it may create or replace. The
code of the unlink that makes room for the new file is not looked at. -/
def nffsFileOpenInode (path : Name) (accessFlags : Nat) : NffsM Nat := do
  let r ← nffsPathFind path
  match r.entry with
  | .error .enoent =>
    if r.parser.nppTokenType ≠ .leaf ∨ accessFlags &&& accessWrite = 0 ∨ r.parent = none then
      Prog.fail .enoent
    else nffsFileNew r.parent r.parser.nppToken r.parser.nppTokenLen false
  | .error e => Prog.fail e
  | .ok id =>
    if hashIdIsDir id then Prog.fail .einval
    else if accessFlags &&& accessTruncate ≠ 0 then do
      let _ ← Prog.attempt (nffsPathUnlink path)
      nffsFileNew r.parent r.parser.nppToken r.parser.nppTokenLen false
    else pure id

def nffsFileOpen (path : Name) (accessFlags : Nat) : NffsM Nat :=
  if accessFlags &&& (accessRead ||| accessWrite) = 0 then Prog.fail .einval
  else if accessFlags &&& (accessAppend ||| accessTruncate) ≠ 0 ∧
      accessFlags &&& accessWrite = 0 then Prog.fail .einval
  else if accessFlags &&& accessAppend ≠ 0 ∧
      accessFlags &&& accessTruncate ≠ 0 then Prog.fail .einval
  else do
    let h ← nffsFileAlloc
    let id ← nffsFileOpenInode path accessFlags
    let offset ← if accessFlags &&& accessAppend ≠ 0 then nffsInodeDataLen id
      else pure 0
    let e ← inodeEntry id
    setInode id (some { e with nieRefcnt := u8 (e.nieRefcnt + 1) })
    setFile h (some ⟨id, offset, accessFlags⟩)
    pure h

def nffsFileClose (h : Nat) : NffsM Unit := do
  let f ← fileHandle h
  nffsInodeDecRefcnt f.nfInodeEntry
  setFile h none

end Larva.Nffs
