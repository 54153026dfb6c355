import Larva.Lib.Crash

/-!
# NFFS objects in RAM

The state the file system works on between two mounts: inode and block
entries, the records their flash locations point at, the caches, the open
file handles and the pools all of these are allocated from.

An entry of the hash table is a pointer to a flash record, and every use of
it reads the record first. The two are kept together here: an inode entry
carries the `nffs_disk_inode` it points at, a block id maps to its
`nffs_disk_block`. An entry is named by its id, which is never given out
twice; an id without an entry is a pointer to freed memory, and using it
aborts. The order of the entries in a hash bucket, which lookups change and
no result here depends on, is left out.

Of the flash, the fill level of each area is kept, so that a reservation
finds the area the code finds. What garbage collection does to the fill
levels is left open: the state holds the answers to all requests to come, and
counts how many were made. A collection moves records and keeps what they
say, so the entries do not change.
-/

namespace Larva.Nffs

open Larva.Crash

/-! ## Constants -/

def idDirMax : Nat := 0x10000000
def idFileMin : Nat := 0x10000000
def idFileMax : Nat := 0x80000000
def idBlockMin : Nat := 0x80000000
def idRootDir : Nat := 0
def idNone : Nat := 0xffffffff

def hashIdIsDir (id : Nat) : Bool := decide (id < idDirMax)
def hashIdIsFile (id : Nat) : Bool :=
  decide (idFileMin ≤ id) && decide (id < idFileMax)
def hashIdIsInode (id : Nat) : Bool := hashIdIsDir id || hashIdIsFile id
def hashIdIsBlock (id : Nat) : Bool :=
  decide (idBlockMin ≤ id) && decide (id < idNone)

def sizeofDiskInode : Nat := 20
def sizeofDiskBlock : Nat := 24

def filenameMaxLen : Nat := 256
def shortFilenameLen : Nat := 3
def inodeFilenameBufSz : Nat := 128

def accessRead : Nat := 0x01
def accessWrite : Nat := 0x02
def accessAppend : Nat := 0x04
def accessTruncate : Nat := 0x08

/-- `uint16_t` and `uint32_t` arithmetic. -/
def u8 (n : Nat) : Nat := n % 2 ^ 8
def u16 (n : Nat) : Nat := n % 2 ^ 16
def u32 (n : Nat) : Nat := n % 2 ^ 32
def sub16 (a b : Nat) : Nat := (a + 2 ^ 16 - b % 2 ^ 16) % 2 ^ 16
def sub32 (a b : Nat) : Nat := (a + 2 ^ 32 - b % 2 ^ 32) % 2 ^ 32

variable {n a b : Nat}

theorem u16_eq (h : n < 2 ^ 16) : u16 n = n := Nat.mod_eq_of_lt h

theorem u32_eq (h : n < 2 ^ 32) : u32 n = n := Nat.mod_eq_of_lt h

theorem sub16_eq (h : b ≤ a) (ha : a < 2 ^ 16) : sub16 a b = a - b := by
  unfold sub16
  omega

theorem sub32_eq (h : b ≤ a) (ha : a < 2 ^ 32) : sub32 a b = a - b := by
  unfold sub32
  omega

inductive FsErr where
  | ecorrupt | hwError | erange | einval | enomem | enoent | eempty | efull
  | eunexp | eos | eexist | eaccess | euninit
deriving DecidableEq, Repr

/-! ## Records and entries -/

/-- A string of the C code, or a piece of one. -/
abbrev Name := List UInt8

/-- `struct nffs_disk_inode` with the filename that follows it. -/
structure DiskInode where
  ndiSeq : Nat
  ndiParentId : Nat
  ndiFilename : Name
deriving DecidableEq, Repr

/-- `struct nffs_disk_block` with the data that follows it. -/
structure DiskBlock where
  ndbSeq : Nat
  ndbInodeId : Nat
  ndbPrevId : Nat
  ndbData : List UInt8
deriving DecidableEq, Repr

/-- `struct nffs_inode_entry`. The first child and the last block are a union
in the source: a directory has the one, a file the other. -/
structure InodeEntry where
  disk : DiskInode
  nieSiblingNext : Option Nat
  nieChildList : Option Nat
  nieLastBlockEntry : Option Nat
  nieRefcnt : Nat
deriving DecidableEq, Repr

/-- `struct nffs_cache_block`: the fields of the block that are read back. -/
structure CacheBlock where
  nbHashEntry : Nat
  nbPrev : Option Nat
  nbDataLen : Nat
  ncbFileOffset : Nat
deriving DecidableEq, Repr

/-- `struct nffs_cache_inode`. `nciBlockList` has the last cached block of the
file first, so that `TAILQ_PREV` is the next element. -/
structure CacheInode where
  nciInodeEntry : Nat
  nciBlockList : List CacheBlock
  nciFileSize : Nat
deriving DecidableEq, Repr

/-- `struct nffs_file`. -/
structure File where
  nfInodeEntry : Nat
  nfOffset : Nat
  nfAccessFlags : Nat
deriving DecidableEq, Repr

/-- The fields of `struct nffs_area` that a reservation reads. -/
structure Area where
  naLength : Nat
  naCur : Nat
deriving DecidableEq, Repr

/-- What `nffs_gc_until` leaves: the areas, the scratch area among them, and
the area that now has room, if it found one. -/
structure GcResult where
  areas : List Area
  scratchAreaIdx : Nat
  areaIdx : Except FsErr Nat

/-- `unlinkList` is `nffs_inode_unlink_list`: directories that are out of the
hash table and not yet freed. -/
structure St where
  inodes : Nat → Option InodeEntry
  blocks : Nat → Option DiskBlock
  files : Nat → Option File
  nextDirId : Nat
  nextFileId : Nat
  nextBlockId : Nat
  inodePool : Nat
  blockPool : Nat
  filePool : Nat
  unlinkList : List (Nat × InodeEntry)
  cacheInodes : List CacheInode
  cacheInodePool : Nat
  cacheBlockPool : Nat
  blockMaxDataSz : Nat
  areas : List Area
  scratchAreaIdx : Nat
  gcAnswer : Nat → Nat → List Area → Nat → GcResult
  gcCount : Nat

abbrev NffsM := Prog St FsErr

def setInode (id : Nat) (e : Option InodeEntry) : NffsM Unit :=
  Prog.modify fun s => { s with
    inodes := fun i => if i = id then e else s.inodes i }

def setBlock (id : Nat) (b : Option DiskBlock) : NffsM Unit :=
  Prog.modify fun s => { s with
    blocks := fun i => if i = id then b else s.blocks i }

def setFile (h : Nat) (f : Option File) : NffsM Unit :=
  Prog.modify fun s => { s with
    files := fun i => if i = h then f else s.files i }

/-- Follow a pointer to an inode entry. -/
def inodeEntry (id : Nat) : NffsM InodeEntry := do
  let s ← Prog.get
  match s.inodes id with
  | some e => pure e
  | none => Prog.abort

/-- Follow a pointer to a block entry, and read the block it points at. -/
def blockEntry (id : Nat) : NffsM DiskBlock := do
  let s ← Prog.get
  match s.blocks id with
  | some b => pure b
  | none => Prog.abort

/-- Follow a pointer to an open file handle. -/
def fileHandle (h : Nat) : NffsM File := do
  let s ← Prog.get
  match s.files h with
  | some f => pure f
  | none => Prog.abort

def nffsHashFindInode (id : Nat) : NffsM (Option Nat) := do
  Prog.assert (hashIdIsInode id)
  let s ← Prog.get
  pure (if (s.inodes id).isSome then some id else none)

def nffsHashFindBlock (id : Nat) : NffsM (Option Nat) := do
  Prog.assert (hashIdIsBlock id)
  let s ← Prog.get
  pure (if (s.blocks id).isSome then some id else none)

/-! ## Space -/

/-- The first area but the scratch area with that much room, and where the
room begins. -/
def findSpace (scratchAreaIdx space : Nat) : Nat → List Area → Option (Nat × Nat)
  | _, [] => none
  | i, a :: as =>
    if i ≠ scratchAreaIdx ∧ space ≤ sub32 a.naLength a.naCur then
      some (i, a.naCur)
    else findSpace scratchAreaIdx space (i + 1) as

def nffsMiscReserveSpace (space : Nat) : NffsM (Nat × Nat) := do
  let s ← Prog.get
  match findSpace s.scratchAreaIdx (u16 space) 0 s.areas with
  | some r => pure r
  | none => do
      let r := s.gcAnswer s.gcCount (u16 space) s.areas s.scratchAreaIdx
      Prog.modify fun s => { s with
        gcCount := s.gcCount + 1
        areas := r.areas
        scratchAreaIdx := r.scratchAreaIdx }
      match r.areaIdx with
      | .error e => Prog.fail e
      | .ok areaIdx =>
        match r.areas[areaIdx]? with
        | none => Prog.abort
        | some a =>
          if u16 space ≤ sub32 a.naLength a.naCur then
            pure (areaIdx, a.naCur)
          else Prog.abort

/-- `nffs_flash_write`, as far as the area is concerned. -/
def nffsFlashWrite (areaIdx areaOffset len : Nat) : NffsM Unit := do
  let s ← Prog.get
  match s.areas[areaIdx]? with
  | none => Prog.abort
  | some a =>
    if u32 (areaOffset + len) > a.naLength then Prog.fail .erange
    else if areaOffset < a.naCur then Prog.fail .erange
    else Prog.modify fun s => { s with
      areas := s.areas.set areaIdx { a with naCur := areaOffset + len } }

/-- `nffs_flash_loc`: the location itself is the record it points at. -/
def nffsFlashLoc (areaOffset : Nat) : NffsM Unit :=
  Prog.assert (areaOffset ≤ 0x00ffffff)

end Larva.Nffs
