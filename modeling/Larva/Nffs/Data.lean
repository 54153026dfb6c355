import Larva.Nffs.Objects

/-!
# File data

`nffs_block.c`, `nffs_cache.c`, `nffs_write.c` and the data half of
`nffs_inode.c` and `nffs_file.c`: a file is a chain of blocks, each naming the
one before it, and the caches keep for some files a stretch of that chain with
the file offset of every block in it.
-/

namespace Larva.Nffs

open Larva.Crash

/-! ## Blocks -/

/-- `struct nffs_block`, as `nffs_block_from_hash_entry` fills it. -/
structure Block where
  nbHashEntry : Nat
  nbSeq : Nat
  nbInodeEntry : Nat
  nbPrev : Option Nat
  nbDataLen : Nat
deriving DecidableEq, Repr

def nffsBlockEntryAlloc : NffsM Unit := do
  let s ← Prog.get
  if s.blockPool = 0 then Prog.fail .enomem
  else Prog.modify fun s => { s with blockPool := s.blockPool - 1 }

/-- The pointer to the previous block that a disk block gives. -/
def nffsBlockPrev (prevId : Nat) : NffsM (Option Nat) :=
  if prevId = idNone then pure none
  else do
    let prev ← nffsHashFindBlock prevId
    match prev with
    | none => Prog.fail .ecorrupt
    | some p => pure (some p)

def nffsBlockFromHashEntry (entry : Nat) : NffsM Block := do
  Prog.assert (hashIdIsBlock entry)
  let disk ← blockEntry entry
  let inode ← nffsHashFindInode disk.ndbInodeId
  match inode with
  | none => Prog.fail .ecorrupt
  | some inodeEntry => do
      let prev ← nffsBlockPrev disk.ndbPrevId
      pure ⟨entry, disk.ndbSeq, inodeEntry, prev, disk.ndbData.length⟩

/-- `nffs_block_read_data`. A read past the end of the block's data would
return the bytes of the object that follows it. -/
def nffsBlockReadData (entry offset length : Nat) : NffsM (List UInt8) := do
  let disk ← blockEntry entry
  Prog.assert (offset + length ≤ disk.ndbData.length)
  pure ((disk.ndbData.drop offset).take length)

def nffsBlockDeleteFromRam (entry : Nat) : NffsM Unit := do
  let block ← nffsBlockFromHashEntry entry
  let inode ← inodeEntry block.nbInodeEntry
  if inode.nieLastBlockEntry = some entry then
    setInode block.nbInodeEntry (some { inode with nieLastBlockEntry := block.nbPrev })
  else pure ()
  setBlock entry none
  Prog.modify fun s => { s with blockPool := s.blockPool + 1 }

/-- A bound on the length of any block chain: the number of ids given out. -/
def St.numBlockIds (s : St) : Nat := s.nextBlockId - idBlockMin

/-- A bound on the number of writes before space runs out. -/
def St.flashSize (s : St) : Nat := (s.areas.map Area.naLength).sum

def nffsInodeCalcDataLengthLoop : Nat → Option Nat → Nat → NffsM Nat
  | _, none, len => pure len
  | 0, some _, _ => Prog.spin
  | fuel + 1, some cur, len => do
      let block ← nffsBlockFromHashEntry cur
      nffsInodeCalcDataLengthLoop fuel block.nbPrev (u32 (len + block.nbDataLen))

def nffsInodeCalcDataLength (id : Nat) : NffsM Nat := do
  Prog.assert (hashIdIsFile id)
  let e ← inodeEntry id
  let s ← Prog.get
  nffsInodeCalcDataLengthLoop (s.numBlockIds + 1) e.nieLastBlockEntry 0

/-! ## The caches -/

def St.findCacheInode (s : St) (id : Nat) : Option CacheInode :=
  s.cacheInodes.find? fun c => c.nciInodeEntry == id

/-- Change the cached inode of a file. -/
def St.setCacheInode (s : St) (id : Nat) (f : CacheInode → CacheInode) : St :=
  { s with cacheInodes := s.cacheInodes.map fun c =>
      if c.nciInodeEntry = id then f c else c }

/-- Follow a pointer to a cached inode. -/
def cacheInode (id : Nat) : NffsM CacheInode := do
  let s ← Prog.get
  match s.findCacheInode id with
  | some c => pure c
  | none => Prog.abort

def setBlockList (l : List CacheBlock) (c : CacheInode) : CacheInode :=
  { c with nciBlockList := l }

def setFileSize (n : Nat) (c : CacheInode) : CacheInode :=
  { c with nciFileSize := n }

/-- `nffs_cache_inode_free_blocks`. -/
def nffsCacheInodeFreeBlocks (id : Nat) : NffsM Unit := do
  let c ← cacheInode id
  Prog.modify fun s => { s.setCacheInode id (setBlockList []) with
    cacheBlockPool := s.cacheBlockPool + c.nciBlockList.length }

/-- `nffs_cache_collect_blocks`: the first inode from the tail of the list that
has blocks gives all of them up. -/
def nffsCacheCollectBlocks : NffsM Unit := do
  let s ← Prog.get
  match s.cacheInodes.reverse.find? fun c => !c.nciBlockList.isEmpty with
  | none => Prog.abort
  | some c => nffsCacheInodeFreeBlocks c.nciInodeEntry

/-- `nffs_cache_block_acquire`, which takes one block from the pool. -/
def nffsCacheBlockAcquire : NffsM Unit := do
  let s ← Prog.get
  if s.cacheBlockPool = 0 then nffsCacheCollectBlocks else pure ()
  let s ← Prog.get
  Prog.assert (s.cacheBlockPool != 0)
  Prog.modify fun s => { s with cacheBlockPool := s.cacheBlockPool - 1 }

/-- Drop a cached inode and give its memory back. -/
def St.dropCacheInode (s : St) (c : CacheInode) : St :=
  { s with
    cacheInodes := s.cacheInodes.filter fun d =>
      d.nciInodeEntry ≠ c.nciInodeEntry
    cacheInodePool := s.cacheInodePool + 1
    cacheBlockPool := s.cacheBlockPool + c.nciBlockList.length }

def nffsCacheInodeAcquire : NffsM Unit := do
  let s ← Prog.get
  if s.cacheInodePool = 0 then
    match s.cacheInodes.getLast? with
    | none => Prog.abort
    | some c => Prog.modify fun s => s.dropCacheInode c
  else pure ()
  let s ← Prog.get
  Prog.assert (s.cacheInodePool != 0)
  Prog.modify fun s => { s with cacheInodePool := s.cacheInodePool - 1 }

def nffsCacheInodeDelete (id : Nat) : NffsM Unit := do
  let s ← Prog.get
  match s.findCacheInode id with
  | none => pure ()
  | some c => Prog.modify fun s => s.dropCacheInode c

def nffsCacheClear : NffsM Unit :=
  Prog.modify fun s => { s with
    cacheInodes := []
    cacheInodePool := s.cacheInodePool + s.cacheInodes.length
    cacheBlockPool := s.cacheBlockPool + (s.cacheInodes.map fun c => c.nciBlockList.length).sum }

def nffsCacheInodeEnsure (id : Nat) : NffsM Unit := do
  let s ← Prog.get
  match s.findCacheInode id with
  | some _ => pure ()
  | none => do
      nffsCacheInodeAcquire
      -- `nffs_inode_from_entry` reads the entry; what it fills in is not used.
      let _ ← inodeEntry id
      let rc ← Prog.attempt (nffsInodeCalcDataLength id)
      match rc with
      | .error e => do
          Prog.modify fun s => { s with cacheInodePool := s.cacheInodePool + 1 }
          Prog.fail e
      | .ok len =>
        Prog.modify fun s => { s with
          cacheInodes := ⟨id, [], len⟩ :: s.cacheInodes }

/-- `nffs_cache_inode_range`. -/
def CacheInode.range (c : CacheInode) : Nat × Nat :=
  match c.nciBlockList, c.nciBlockList.getLast? with
  | last :: _, some first =>
    (first.ncbFileOffset, u32 (last.ncbFileOffset + last.nbDataLen))
  | _, _ => (0, 0)

def Block.toCache (b : Block) (fileOffset : Nat) : CacheBlock :=
  ⟨b.nbHashEntry, b.nbPrev, b.nbDataLen, fileOffset⟩

/-- The block at the front of the cache, when `nffs_cache_seek` looks before
its start: the block that ends at `blockEnd` is cached first. -/
def nffsCacheSeekPrepend (id : Nat) (blockEntry : Option Nat)
    (blockEnd : Nat) : NffsM (List CacheBlock) := do
  nffsCacheBlockAcquire
  match blockEntry with
  | none => Prog.abort
  | some e => do
      let block ← nffsBlockFromHashEntry e
      let cb := block.toCache (sub32 blockEnd block.nbDataLen)
      let c ← cacheInode id
      Prog.modify fun s => s.setCacheInode id (setBlockList (c.nciBlockList ++ [cb]))
      pure [cb]

/-- The end of `nffs_cache_seek` for a block that is not in the cache: it is
put behind the last cached block if it follows that one, and else takes the
place of all of them. -/
def nffsCacheSeekAppend (id : Nat) (cb : CacheBlock) : NffsM (List CacheBlock) := do
  nffsCacheBlockAcquire
  let c ← cacheInode id
  match c.nciBlockList with
  | last :: rest =>
    if some last.nbHashEntry = cb.nbPrev then do
      Prog.modify fun s => s.setCacheInode id (setBlockList (cb :: last :: rest))
      pure (cb :: last :: rest)
    else do
      nffsCacheInodeFreeBlocks id
      Prog.modify fun s => s.setCacheInode id (setBlockList [cb])
      pure [cb]
  | [] => do
      Prog.modify fun s => s.setCacheInode id (setBlockList [cb])
      pure [cb]

/-- The loop of `nffs_cache_seek`. `cacheBlock` is the current cached block
with those before it, empty for a null pointer. -/
def nffsCacheSeekLoop (id seekOffset cacheStart : Nat) :
    Nat → List CacheBlock → Option Nat → Nat → NffsM (List CacheBlock)
  | 0, _, _, _ => Prog.spin
  | fuel + 1, cacheBlock, blockEntry, blockEnd => do
      let cacheBlock ←
        if blockEnd ≤ cacheStart then do
          Prog.assert cacheBlock.isEmpty
          nffsCacheSeekPrepend id blockEntry blockEnd
        else pure cacheBlock
      match cacheBlock with
      | cb :: before =>
        if cb.ncbFileOffset ≤ seekOffset then pure (cb :: before)
        else
          nffsCacheSeekLoop id seekOffset cacheStart fuel before cb.nbPrev cb.ncbFileOffset
      | [] =>
        match blockEntry with
        | none => Prog.abort
        | some e => do
            let block ← nffsBlockFromHashEntry e
            let blockStart := sub32 blockEnd block.nbDataLen
            if blockStart ≤ seekOffset then
              nffsCacheSeekAppend id (block.toCache blockStart)
            else
              nffsCacheSeekLoop id seekOffset cacheStart fuel [] block.nbPrev blockStart

/-- `nffs_cache_seek`: the cached block that contains the offset, with the
cached blocks before it. -/
def nffsCacheSeek (id seekOffset : Nat) : NffsM (List CacheBlock) := do
  let c ← cacheInode id
  if c.nciFileSize = 0 then Prog.fail .enoent
  else do
    let (cacheStart, cacheEnd) := c.range
    let s ← Prog.get
    let fuel := s.numBlockIds + 1
    if cacheEnd ≠ 0 ∧ seekOffset < cacheStart then
      match c.nciBlockList.getLast? with
      | none => Prog.abort
      | some first =>
        nffsCacheSeekLoop id seekOffset cacheStart fuel [] first.nbPrev first.ncbFileOffset
    else if seekOffset < cacheEnd then
      match c.nciBlockList with
      | [] => Prog.abort
      | last :: before =>
        nffsCacheSeekLoop id seekOffset cacheStart fuel (last :: before)
          (some last.nbHashEntry) cacheEnd
    else do
      let e ← inodeEntry id
      nffsCacheSeekLoop id seekOffset cacheStart fuel [] e.nieLastBlockEntry c.nciFileSize

/-! ## Reading -/

/-- What a round of `nffs_inode_read` takes from the block it has found, and
how much that is. -/
def nffsInodeReadRound (offset srcEnd dstOff : Nat) (cb : CacheBlock) :
    NffsM (Nat × List UInt8) := do
  let blockOff := if cb.ncbFileOffset < offset then
    u16 (sub32 offset cb.ncbFileOffset) else 0
  let blockEnd := u32 (cb.ncbFileOffset + cb.nbDataLen)
  let chunkSz := sub16 cb.nbDataLen blockOff
  let chunkSz := if blockEnd > srcEnd then sub16 chunkSz (blockEnd - srcEnd)
    else chunkSz
  -- A chunk larger than what is left would be written before the start of the
  -- caller's buffer.
  Prog.assert (chunkSz ≤ dstOff)
  let data ← nffsBlockReadData cb.nbHashEntry blockOff chunkSz
  pure (chunkSz, data)

/-- The loop of `nffs_inode_read`: the bytes of `[offset, srcOff)` are still
to be read, those before `srcEnd` are in `out`. -/
def nffsInodeReadLoop (id offset srcEnd : Nat) :
    Nat → List CacheBlock → Nat → Nat → List UInt8 → NffsM (List UInt8)
  | 0, _, _, _, _ => Prog.spin
  | fuel + 1, cacheBlock, dstOff, srcOff, out =>
    if dstOff = 0 then pure out
    else do
      let cacheBlock ←
        if cacheBlock.isEmpty then nffsCacheSeek id (sub32 srcOff 1)
        else pure cacheBlock
      match cacheBlock with
      | [] => Prog.abort
      | cb :: before => do
          let (chunkSz, data) ← nffsInodeReadRound offset srcEnd dstOff cb
          nffsInodeReadLoop id offset srcEnd fuel before (dstOff - chunkSz)
            (sub32 srcOff chunkSz) (data ++ out)

def nffsInodeRead (id offset len : Nat) : NffsM (List UInt8) :=
  if len = 0 then pure []
  else do
    nffsCacheInodeEnsure id
    let c ← cacheInode id
    let srcEnd := if u32 (offset + len) > c.nciFileSize then c.nciFileSize
      else u32 (offset + len)
    let s ← Prog.get
    -- Between two rounds that read something the loop can go through the
    -- cached blocks once; after that it would go on forever.
    nffsInodeReadLoop id offset srcEnd
      ((sub32 srcEnd offset + 1) * (s.numBlockIds + 2)) [] (sub32 srcEnd offset) srcEnd []

def nffsInodeDataLen (id : Nat) : NffsM Nat := do
  nffsCacheInodeEnsure id
  let c ← cacheInode id
  pure c.nciFileSize

/-! ## Writing -/

/-- `nffs_write_over_block`. The old block is copied from where it was before
space is reserved, so a collection in between leaves nothing to copy. -/
def nffsWriteOverBlock (entry leftCopyLen : Nat) (newData : List UInt8)
    (newDataLen : Nat) : NffsM Unit := do
  let block ← nffsBlockFromHashEntry entry
  let old ← blockEntry entry
  Prog.assert (leftCopyLen ≤ block.nbDataLen)
  let rightCopyLen := if leftCopyLen + newDataLen > block.nbDataLen then 0
    else block.nbDataLen - leftCopyLen - newDataLen
  let dataLen := u16 (leftCopyLen + newDataLen + rightCopyLen)
  -- The caller's buffer ends with the data that is left to write.
  Prog.assert (newDataLen ≤ newData.length)
  Prog.assert (u16 (sizeofDiskBlock + leftCopyLen + newDataLen + rightCopyLen) =
    sizeofDiskBlock + dataLen)
  let s ← Prog.get
  let (areaIdx, areaOffset) ← nffsMiscReserveSpace (sizeofDiskBlock + dataLen)
  let s' ← Prog.get
  Prog.assert (s'.gcCount == s.gcCount)
  nffsFlashWrite areaIdx areaOffset (sizeofDiskBlock + leftCopyLen + newDataLen + rightCopyLen)
  nffsFlashLoc areaOffset
  let data := old.ndbData.take leftCopyLen ++ newData.take newDataLen ++
    (old.ndbData.drop (leftCopyLen + newDataLen)).take rightCopyLen
  setBlock entry (some ⟨block.nbSeq + 1, block.nbInodeEntry,
    block.nbPrev.getD idNone, data.take dataLen⟩)

def nffsWriteAppend (id : Nat) (data : List UInt8) : NffsM Unit := do
  nffsBlockEntryAlloc
  let s ← Prog.get
  let entry := s.nextBlockId
  Prog.modify fun s => { s with nextBlockId := s.nextBlockId + 1 }
  let inode ← inodeEntry id
  let (areaIdx, areaOffset) ← nffsMiscReserveSpace (sizeofDiskBlock + data.length)
  nffsFlashWrite areaIdx areaOffset (sizeofDiskBlock + data.length)
  nffsFlashLoc areaOffset
  setBlock entry (some ⟨0, id, inode.nieLastBlockEntry.getD idNone, data⟩)
  let inode ← inodeEntry id
  setInode id (some { inode with nieLastBlockEntry := some entry })
  let c ← cacheInode id
  Prog.modify fun s => s.setCacheInode id (setFileSize (u32 (c.nciFileSize + data.length)))
  let _ ← Prog.attempt (nffsCacheSeek id (sub32 (u32 (c.nciFileSize + data.length)) 1))
  pure ()

/-- What a round of `nffs_write_chunk` puts into the block it has found: the
answer is where in the data that part begins, and its length. -/
def nffsWriteChunkRound (fileOffset : Nat) (data : List UInt8) (dstOff : Nat)
    (cb : CacheBlock) : NffsM (Nat × Nat) := do
  let chunkOff := if cb.ncbFileOffset < fileOffset then
    u16 (sub32 fileOffset cb.ncbFileOffset) else 0
  let chunkSz := sub16 cb.nbDataLen chunkOff
  let blockEnd := u32 (cb.ncbFileOffset + cb.nbDataLen)
  let chunkSz := if blockEnd ≠ dstOff then
    u16 (chunkSz + sub32 dstOff blockEnd) else chunkSz
  let dataOffset := sub32 (u32 (cb.ncbFileOffset + chunkOff)) fileOffset
  nffsWriteOverBlock cb.nbHashEntry chunkOff (data.drop dataOffset) chunkSz
  pure (dataOffset, chunkSz)

/-- The loop of `nffs_write_chunk`, from the end of the data to its start. -/
def nffsWriteChunkLoop (id fileOffset : Nat) (data : List UInt8) :
    Nat → List CacheBlock → Nat → NffsM Unit
  | 0, _, _ => Prog.spin
  | fuel + 1, cacheBlock, dstOff => do
      let cacheBlock ←
        if cacheBlock.isEmpty then nffsCacheSeek id (sub32 dstOff 1)
        else pure cacheBlock
      match cacheBlock with
      | [] => Prog.abort
      | cb :: before => do
          let (dataOffset, chunkSz) ← nffsWriteChunkRound fileOffset data dstOff cb
          if dataOffset > 0 then
            nffsWriteChunkLoop id fileOffset data fuel before (sub32 dstOff chunkSz)
          else pure ()

def nffsWriteChunk (id fileOffset : Nat) (data : List UInt8) : NffsM Unit := do
  let s ← Prog.get
  Prog.assert (data.length ≤ s.blockMaxDataSz)
  let c ← cacheInode id
  if fileOffset = c.nciFileSize then nffsWriteAppend id data
  else do
    let dstOff := u32 (fileOffset + data.length)
    let appendLen := if dstOff > c.nciFileSize then dstOff - c.nciFileSize
      else 0
    nffsWriteChunkLoop id fileOffset data (s.numBlockIds + s.flashSize + 1) [] dstOff
    let c ← cacheInode id
    Prog.modify fun s => s.setCacheInode id (setFileSize (u32 (c.nciFileSize + appendLen)))

/-- The loop of `nffs_write_to_file`: as many chunks as the data has. -/
def nffsWriteToFileLoop (h : Nat) : Nat → List UInt8 → NffsM Unit
  | 0, _ => Prog.spin
  | fuel + 1, data =>
    if data.isEmpty then pure ()
    else do
      let s ← Prog.get
      let chunkSize := u16 (min data.length s.blockMaxDataSz)
      let f ← fileHandle h
      nffsWriteChunk f.nfInodeEntry f.nfOffset (data.take chunkSize)
      setFile h (some { f with nfOffset := u32 (f.nfOffset + chunkSize) })
      nffsWriteToFileLoop h fuel (data.drop chunkSize)

def nffsWriteToFile (h : Nat) (data : List UInt8) : NffsM Unit := do
  let f ← fileHandle h
  if f.nfAccessFlags &&& accessWrite = 0 then Prog.fail .eaccess
  else if data.isEmpty then pure ()
  else do
    nffsCacheInodeEnsure f.nfInodeEntry
    let c ← cacheInode f.nfInodeEntry
    if f.nfAccessFlags &&& accessAppend ≠ 0 then
      setFile h (some { f with nfOffset := c.nciFileSize })
    else pure ()
    nffsWriteToFileLoop h (data.length + 1) data

/-! ## File handles -/

def nffsFileSeek (h offset : Nat) : NffsM Unit := do
  let f ← fileHandle h
  let len ← nffsInodeDataLen f.nfInodeEntry
  if offset > len then Prog.fail .erange
  else setFile h (some { f with nfOffset := offset })

def nffsFileRead (h len : Nat) : NffsM (List UInt8) := do
  let f ← fileHandle h
  if f.nfAccessFlags &&& accessRead = 0 then Prog.fail .eaccess
  else do
    let data ← nffsInodeRead f.nfInodeEntry f.nfOffset len
    setFile h (some { f with nfOffset := u32 (f.nfOffset + data.length) })
    pure data

end Larva.Nffs
