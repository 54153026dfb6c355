import Larva.Nffs.Objects

/-!
# Areas and garbage collection

The file system seen from the flash: the areas with their headers and fill
levels, the scratch area among them, and for every entry in RAM the area its
record is in and how long the record is. What the records say is left out; an
inode is the length of its filename and the blocks of its file, from the last
one backwards as `nb_prev` links them. `inodes` is the order in which a
collection meets the entries of the hash table.

A garbage collection cycle copies what is live in one area to the scratch
area, which takes the area's place, and turns the area into the new scratch
area. Runs of blocks of one file are written as a single block where there is
memory for it; `malloc` holds the answers to the requests to come, and there
is no memory once they are used up. A cycle
meets every entry once, and one that fails is not followed any further: the
locations it has already changed are changed at the end of the walk here.
-/

namespace Larva.Nffs

open Larva.Crash

def sizeofDiskArea : Nat := 24
def areaIdNone : Nat := 0xff
def areaOffsetId : Nat := 23
def flashBufSz : Nat := 256
def blockMaxDataSzMax : Nat := 2048

/-- `struct nffs_area`, and the id that its header on flash has. -/
structure FlashArea where
  naLength : Nat
  naCur : Nat
  naId : Nat
  naGcSeq : Nat
  ndaId : Nat
deriving DecidableEq, Repr

structure BlockLoc where
  areaIdx : Nat
  nbDataLen : Nat
deriving DecidableEq, Repr

structure InodeLoc where
  areaIdx : Nat
  niFilenameLen : Nat
  blocks : List BlockLoc
deriving DecidableEq, Repr

structure Flash where
  areas : List FlashArea
  scratchAreaIdx : Nat
  inodes : List InodeLoc
  blockMaxDataSz : Nat
  malloc : List Bool
deriving DecidableEq, Repr

abbrev FlashM := Prog Flash FsErr

namespace Flash

/-! ## Writing to an area -/

def area (i : Nat) : FlashM FlashArea := do
  let s ← Prog.get
  match s.areas[i]? with
  | some a => pure a
  | none => Prog.abort

def setArea (i : Nat) (f : FlashArea → FlashArea) (s : Flash) : Flash :=
  { s with areas := s.areas.modify i f }

def nffsFlashWrite (areaIdx areaOffset len : Nat) : FlashM Unit := do
  let a ← area areaIdx
  if u32 (areaOffset + len) > a.naLength then Prog.fail .erange
  else if areaOffset < a.naCur then Prog.fail .erange
  else Prog.modify (setArea areaIdx fun a =>
    { a with naCur := areaOffset + len })

/-- The loop of `nffs_flash_copy`. The record that is read lies inside its
area. -/
def nffsFlashCopyLoop (areaIdxTo : Nat) : Nat → Nat → Nat → FlashM Unit
  | 0, _, _ => Prog.spin
  | n + 1, areaOffsetTo, len =>
    if 0 < len then do
      let chunkLen := if flashBufSz < len then flashBufSz else len
      nffsFlashWrite areaIdxTo areaOffsetTo chunkLen
      nffsFlashCopyLoop areaIdxTo n (areaOffsetTo + chunkLen) (len - chunkLen)
    else pure ()

def nffsFlashCopy (areaIdxTo areaOffsetTo len : Nat) : FlashM Unit :=
  nffsFlashCopyLoop areaIdxTo (len + 1) areaOffsetTo len

def nffsFlashLoc (areaOffset : Nat) : FlashM Unit :=
  Prog.assert (areaOffset ≤ 0x00ffffff)

/-! ## Headers -/

def nffsFormatArea (areaIdx : Nat) (isScratch : Bool) : FlashM Unit := do
  Prog.modify (setArea areaIdx fun a => { a with naCur := 0 })
  if isScratch then do
    Prog.modify (setArea areaIdx fun a =>
      { a with naId := areaIdNone, ndaId := areaIdNone })
    nffsFlashWrite areaIdx 0 (sizeofDiskArea - 1)
  else do
    Prog.modify (setArea areaIdx fun a => { a with ndaId := a.naId })
    nffsFlashWrite areaIdx 0 sizeofDiskArea

def nffsFormatFromScratchArea (areaIdx areaId : Nat) : FlashM Unit := do
  let a ← area areaIdx
  if sizeofDiskArea > a.naLength then Prog.fail .erange
  else do
    Prog.modify (setArea areaIdx fun a => { a with naId := areaId })
    if a.ndaId ≠ areaIdNone then nffsFormatArea areaIdx false
    else do
      nffsFlashWrite areaIdx areaOffsetId 1
      Prog.modify (setArea areaIdx fun a => { a with ndaId := areaId })

/-! ## Copying -/

def nffsGcCopyObject (objectSize toAreaIdx : Nat) : FlashM Unit := do
  let dst ← area toAreaIdx
  nffsFlashCopy toAreaIdx dst.naCur objectSize
  nffsFlashLoc dst.naCur

def nffsGcCopyInode (inode : InodeLoc) (toAreaIdx : Nat) : FlashM InodeLoc := do
  nffsGcCopyObject (u16 (sizeofDiskInode + inode.niFilenameLen)) toAreaIdx
  return { inode with areaIdx := toAreaIdx }

/-- The blocks of a chain one by one, as long as fewer than `dataLen` bytes
have been copied. -/
def nffsGcBlockChainCopy (dataLen toAreaIdx : Nat) : Nat → List BlockLoc → FlashM (List BlockLoc)
  | dataBytesCopied, [] => do
      Prog.assert (!decide (dataBytesCopied < dataLen))
      return []
  | dataBytesCopied, b :: bs =>
    if dataBytesCopied < dataLen then do
      nffsGcCopyObject (u16 (sizeofDiskBlock + b.nbDataLen)) toAreaIdx
      let bs' ← nffsGcBlockChainCopy dataLen toAreaIdx (dataBytesCopied + b.nbDataLen) bs
      return { b with areaIdx := toAreaIdx } :: bs'
    else return b :: bs

/-- What is left of a chain when its last `dataOffset` bytes have been
read. -/
def collateRest : Nat → List BlockLoc → FlashM (List BlockLoc)
  | dataOffset, [] => do
      Prog.assert (!decide (0 < dataOffset))
      return []
  | dataOffset, b :: bs =>
    if 0 < dataOffset then collateRest (sub32 dataOffset b.nbDataLen) bs
    else return b :: bs

def nffsGcBlockChainCollate (dataLen toAreaIdx : Nat) (chain : List BlockLoc) :
    FlashM (List BlockLoc) := do
  let s ← Prog.get
  Prog.modify fun s => { s with malloc := s.malloc.tail }
  if s.malloc.headD false then do
    let bs ← collateRest dataLen chain
    let dst ← area toAreaIdx
    nffsFlashWrite toAreaIdx dst.naCur sizeofDiskBlock
    nffsFlashWrite toAreaIdx (dst.naCur + sizeofDiskBlock) dataLen
    nffsFlashLoc dst.naCur
    return ⟨toAreaIdx, u16 dataLen⟩ :: bs
  else Prog.fail .enomem

def nffsGcBlockChain (multipleBlocks : Bool) (dataLen toAreaIdx : Nat)
    (chain : List BlockLoc) : FlashM (List BlockLoc) :=
  if multipleBlocks then do
    match ← Prog.attempt (nffsGcBlockChainCollate dataLen toAreaIdx chain) with
    | .ok bs => return bs
    | .error .enomem => nffsGcBlockChainCopy dataLen toAreaIdx 0 chain
    | .error e => Prog.fail e
  else nffsGcBlockChainCopy dataLen toAreaIdx 0 chain

/-- `nffs_gc_inode_blocks`. `chain` is what has been gathered since
`last_entry`, empty while that is `NULL`. -/
def nffsGcInodeBlocks (fromAreaIdx toAreaIdx : Nat) :
    List BlockLoc → Nat → Bool → List BlockLoc → FlashM (List BlockLoc)
  | chain, dataLen, multipleBlocks, [] =>
    if chain = [] then return []
    else nffsGcBlockChain multipleBlocks dataLen toAreaIdx chain
  | chain, dataLen, multipleBlocks, b :: bs => do
      let s ← Prog.get
      if b.areaIdx = fromAreaIdx then
        let prospectiveDataLen := dataLen + b.nbDataLen
        if prospectiveDataLen ≤ s.blockMaxDataSz then
          nffsGcInodeBlocks fromAreaIdx toAreaIdx (chain ++ [b])
            prospectiveDataLen (multipleBlocks || !chain.isEmpty) bs
        else do
          -- With nothing gathered this is a chain of length zero.
          let done ← nffsGcBlockChain multipleBlocks dataLen toAreaIdx chain
          let rest ← nffsGcInodeBlocks fromAreaIdx toAreaIdx [b] b.nbDataLen false bs
          return done ++ rest
      else if chain = [] then do
        let rest ← nffsGcInodeBlocks fromAreaIdx toAreaIdx [] 0 false bs
        return b :: rest
      else do
        let done ← nffsGcBlockChain multipleBlocks dataLen toAreaIdx chain
        let rest ← nffsGcInodeBlocks fromAreaIdx toAreaIdx [] 0 false bs
        return done ++ b :: rest

def gcInode (fromAreaIdx toAreaIdx : Nat) (inode : InodeLoc) : FlashM InodeLoc := do
  let inode ← if inode.areaIdx = fromAreaIdx then
    nffsGcCopyInode inode toAreaIdx else pure inode
  let blocks ← nffsGcInodeBlocks fromAreaIdx toAreaIdx [] 0 false inode.blocks
  return { inode with blocks := blocks }

/-- The walk of `nffs_gc` over the entries. -/
def gcInodes (fromAreaIdx toAreaIdx : Nat) : List InodeLoc → FlashM (List InodeLoc)
  | [] => return []
  | inode :: inodes => do
      let inode ← gcInode fromAreaIdx toAreaIdx inode
      let inodes ← gcInodes fromAreaIdx toAreaIdx inodes
      return inode :: inodes

/-! ## The cycle -/

/-- The sign of the difference of two sequence numbers as an `int8_t`. -/
def seqBefore (a b : Nat) : Bool := decide (128 ≤ (a + 256 - b % 256) % 256)

/-- The loop of `nffs_gc_select_area` from area `i` on. -/
def selectLoop (s : Flash) : Nat → List FlashArea → Nat → FlashM Nat
  | _, [], best => return best
  | i, a :: as, best =>
    if i = s.scratchAreaIdx then selectLoop s (i + 1) as best
    else do
      let b ← area best
      if b.naLength < a.naLength then selectLoop s (i + 1) as i
      else if best = s.scratchAreaIdx then selectLoop s (i + 1) as i
      else if seqBefore a.naGcSeq b.naGcSeq then selectLoop s (i + 1) as i
      else selectLoop s (i + 1) as best

def nffsGcSelectArea : FlashM Nat := do
  let s ← Prog.get
  let best ← selectLoop s 1 (s.areas.drop 1) 0
  Prog.assert (decide (best ≠ s.scratchAreaIdx))
  return best

/-- `nffs_gc`; the answer is the area that was the scratch area. -/
def nffsGc : FlashM Nat := do
  let fromAreaIdx ← nffsGcSelectArea
  let s ← Prog.get
  let toAreaIdx := s.scratchAreaIdx
  let src ← area fromAreaIdx
  nffsFormatFromScratchArea toAreaIdx src.naId
  let inodes ← gcInodes fromAreaIdx toAreaIdx s.inodes
  Prog.modify fun s => { s with inodes := inodes }
  let dst ← area toAreaIdx
  let src ← area fromAreaIdx
  Prog.assert (decide (dst.naCur ≤ src.naCur))
  Prog.modify (setArea fromAreaIdx fun a =>
    { a with naGcSeq := u8 (a.naGcSeq + 1) })
  nffsFormatArea fromAreaIdx true
  Prog.modify fun s => { s with scratchAreaIdx := fromAreaIdx }
  return toAreaIdx

/-- The loop of `nffs_gc_until`. -/
def nffsGcUntilLoop (space : Nat) : Nat → FlashM Nat
  | 0 => Prog.fail .efull
  | n + 1 => do
      let i ← nffsGc
      let a ← area i
      if space ≤ sub32 a.naLength a.naCur then return i
      else nffsGcUntilLoop space n

def nffsGcUntil (space : Nat) : FlashM Nat := do
  let s ← Prog.get
  nffsGcUntilLoop space s.areas.length

/-! ## Formatting -/

/-- The first area but the scratch area with that much room. -/
def firstFit (scratchAreaIdx space : Nat) : Nat → List FlashArea → Option Nat
  | _, [] => none
  | i, a :: as =>
    if i ≠ scratchAreaIdx ∧ space ≤ sub32 a.naLength a.naCur then some i
    else firstFit scratchAreaIdx space (i + 1) as

def nffsMiscReserveSpace (space : Nat) : FlashM Nat := do
  let s ← Prog.get
  match firstFit s.scratchAreaIdx space 0 s.areas with
  | some i => return i
  | none => do
      let i ← nffsGcUntil space
      let a ← area i
      Prog.assert (decide (space ≤ sub32 a.naLength a.naCur))
      return i

/-- `nffs_file_new`, as far as the flash is concerned. -/
def nffsFileNew (filenameLen : Nat) : FlashM Unit := do
  let i ← nffsMiscReserveSpace (u16 (sizeofDiskInode + filenameLen))
  let a ← area i
  nffsFlashWrite i a.naCur sizeofDiskInode
  (if filenameLen ≠ 0 then
    nffsFlashWrite i (a.naCur + sizeofDiskInode) filenameLen
  else pure ())
  nffsFlashLoc a.naCur
  Prog.modify fun s => { s with inodes := ⟨i, filenameLen, []⟩ :: s.inodes }

def nffsMiscValidateScratch : FlashM Unit := do
  let s ← Prog.get
  if s.scratchAreaIdx = areaIdNone then Prog.fail .ecorrupt
  else do
    let scratch ← area s.scratchAreaIdx
    if s.areas.any fun a => decide (scratch.naLength < a.naLength) then
      Prog.fail .ecorrupt
    else pure ()

end Flash

end Larva.Nffs
