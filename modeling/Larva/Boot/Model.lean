import Larva.Lib.Crash

/-!
# The boot loader

`libs/bootutil/src/loader.c` and the parts of `bootutil_misc.c` it calls, over
a flash that is a byte for every address of every device and a file system
that holds the three files of `/boot`. Flash operations are the storage
operations of `Larva.Crash`: an area erase, the write of one chunk of a copy,
a write of the status file, a file deletion. Each is made whole or not at all.

Three things are taken as given. The file system is mounted and has room, so
a status write succeeds. Memory for the status entries is available. And the
flash driver behaves as the native one: an erase covers exactly the area it
is asked for, and a write asserts that its target is erased.

An index past the end of an array, which C leaves undefined, aborts.
-/

namespace Larva.Boot

open Larva.Crash

/-- `struct nffs_area_desc`. -/
structure AreaDesc where
  nadOffset : Nat
  nadLength : Nat
  nadFlashId : Nat
deriving DecidableEq, Repr

/-- `struct boot_req`. `br_num_image_areas` is the length of `imageAreas`, and
the zero-length terminator of `areaDescs` is the end of the list. -/
structure BootReq where
  areaDescs : List AreaDesc
  imageAreas : List Nat
  slotAreas : List Nat
  scratchAreaIdx : Nat
deriving DecidableEq, Repr

def BootReq.numImageAreas (req : BootReq) : Nat := req.imageAreas.length

structure ImageVersion where
  ivMajor : Nat
  ivMinor : Nat
  ivRevision : Nat
  ivBuildNum : Nat
deriving DecidableEq, Repr

structure ImageHeader where
  ihMagic : Nat
  ihCrc32 : Nat
  ihHdrSize : Nat
  ihImgSize : Nat
  ihFlags : Nat
  ihVer : ImageVersion
deriving DecidableEq, Repr

def imageMagic : Nat := 0x96f3b83c
def imageMagicNone : Nat := 0xffffffff

/-- What `memset(hdr, 0xff, ..)` leaves in a header. -/
def ImageHeader.blank : ImageHeader :=
  ⟨0xffffffff, 0xffffffff, 0xffffffff, 0xffffffff, 0xffffffff, ⟨0xff, 0xff, 0xffff, 0xffffffff⟩⟩

structure BootStatusEntry where
  bseImageNum : Nat
  bsePartNum : Nat
deriving DecidableEq, Repr

def bootImageNumNone : Nat := 0xff

def BootStatusEntry.none : BootStatusEntry := ⟨bootImageNumNone, bootImageNumNone⟩

/-- The contents of `/boot/status`. -/
structure StatusFile where
  bsImg1Length : Nat
  bsImg2Length : Nat
  entries : List BootStatusEntry
deriving DecidableEq, Repr

/-- The contents of a boot vector file: a version, or too few bytes for one. -/
inductive VectFile where
  | short
  | version (v : ImageVersion)
deriving DecidableEq, Repr

/-- Everything that survives a reset. -/
structure Disk where
  flash : Nat → Nat → UInt8
  status : Option StatusFile
  test : Option VectFile
  main : Option VectFile

/-- The disk and the loader's statics. -/
structure St where
  disk : Disk
  bsImg1Length : Nat
  bsImg2Length : Nat
  entries : List BootStatusEntry
  imgHdr0 : ImageHeader
  imgHdr1 : ImageHeader

inductive BootErr where
  | eflash | efile | ebadimage | ebadvect | ebadstatus | enomem
deriving DecidableEq, Repr

abbrev BootM := Prog St BootErr

/-! ## Flash -/

def Disk.read (d : Disk) (flashId addr len : Nat) : List UInt8 :=
  (List.range len).map fun i => d.flash flashId (addr + i)

def Disk.erase (d : Disk) (flashId addr len : Nat) : Disk :=
  { d with flash := fun f a =>
      if f = flashId ∧ addr ≤ a ∧ a < addr + len then 0xff else d.flash f a }

def Disk.write (d : Disk) (flashId addr : Nat) (data : List UInt8) : Disk :=
  { d with flash := fun f a =>
      if f = flashId ∧ addr ≤ a ∧ a < addr + data.length then
        data.getD (a - addr) 0 else d.flash f a }

def Disk.erased (d : Disk) (flashId addr len : Nat) : Bool :=
  (List.range len).all fun i => d.flash flashId (addr + i) == 0xff

def onDisk (f : Disk → Disk) (s : St) : St := { s with disk := f s.disk }

def halFlashErase (flashId addr len : Nat) : BootM Unit :=
  Prog.persist (onDisk fun d => d.erase flashId addr len)

def halFlashWrite (flashId addr : Nat) (data : List UInt8) : BootM Unit := do
  let s ← Prog.get
  Prog.assert (s.disk.erased flashId addr data.length)
  Prog.persist (onDisk fun d => d.write flashId addr data)

/-! ## Files -/

def bootWriteStatus : BootM Unit :=
  Prog.persist fun s => { s with
    disk := { s.disk with
      status := some ⟨s.bsImg1Length, s.bsImg2Length, s.entries⟩ } }

/-- A length field that was never programmed reads as all ones. -/
def statusLength (n : Nat) : Nat := if n = 0xffffffff then 0 else n

/-- The check at the end of `boot_read_status`: no entry names an image whose
length is zero. -/
def statusEntriesOk (img1 img2 : Nat) (es : List BootStatusEntry) : Bool :=
  es.all fun e =>
    !(e.bseImageNum == 0 && img1 == 0) && !(e.bseImageNum == 1 && img2 == 0)

def bootReadStatus (req : BootReq) : BootM Unit := do
  let s ← Prog.get
  match s.disk.status with
  | .none => Prog.fail .ebadstatus
  | some f =>
    if f.entries.length < req.numImageAreas then
      Prog.fail .ebadstatus
    else do
      let img1 := statusLength f.bsImg1Length
      let img2 := statusLength f.bsImg2Length
      let es := f.entries.take req.numImageAreas
      Prog.modify fun s => { s with
        bsImg1Length := img1, bsImg2Length := img2, entries := es }
      if statusEntriesOk img1 img2 es then pure ()
      else Prog.fail .ebadstatus

def bootUnlinkStatus : BootM Unit := do
  let s ← Prog.get
  if s.disk.status.isSome then
    Prog.persist (onDisk fun d => { d with status := .none })
  else pure ()

def bootVectDeleteTest : BootM Unit := do
  let s ← Prog.get
  if s.disk.test.isSome then
    Prog.persist (onDisk fun d => { d with test := .none })
  else pure ()

def bootVectDeleteMain : BootM Unit := do
  let s ← Prog.get
  if s.disk.main.isSome then
    Prog.persist (onDisk fun d => { d with main := .none })
  else pure ()

def vectVersion : Option VectFile → Option ImageVersion
  | some (.version v) => some v
  | _ => .none

/-! ## Image headers -/

def u16le (f : Nat → UInt8) (a : Nat) : Nat :=
  (f a).toNat + 256 * (f (a + 1)).toNat

def u32le (f : Nat → UInt8) (a : Nat) : Nat :=
  u16le f a + 65536 * u16le f (a + 2)

/-- `struct image_header`, little endian, at an address. -/
def readHeader (f : Nat → UInt8) (a : Nat) : ImageHeader :=
  ⟨u32le f a, u32le f (a + 4), u32le f (a + 8), u32le f (a + 12), u32le f (a + 16),
    ⟨(f (a + 20)).toNat, (f (a + 21)).toNat, u16le f (a + 22), u32le f (a + 24)⟩⟩

/-- `boot_read_image_headers` for one slot: a header without the magic is
filled with 0xff bytes. -/
def bootReadImageHeader (d : Disk) (desc : AreaDesc) : ImageHeader :=
  let hdr := readHeader (d.flash desc.nadFlashId) desc.nadOffset
  if hdr.ihMagic = imageMagic then hdr else .blank

/-! ## Looking areas up -/

/-- An array access. -/
def index {α : Type} (l : List α) (i : Nat) : BootM α :=
  match l[i]? with
  | some a => pure a
  | .none => Prog.abort

/-- The area descriptor of a slot's first area. -/
def bootSlotAddr (req : BootReq) (slotNum : Nat) : BootM AreaDesc := do
  let areaIdx ← index req.slotAreas slotNum
  index req.areaDescs areaIdx

def bootSlotToAreaIdx (req : BootReq) (slotNum : Nat) : BootM Nat := do
  let slot ← bootSlotAddr req slotNum
  match (req.areaDescs.takeWhile fun d => d.nadLength != 0).findIdx? fun d =>
      d.nadOffset == slot.nadOffset && d.nadFlashId == slot.nadFlashId with
  | some i => pure i
  | .none => Prog.abort

def bootFindImagePart (req : BootReq) (es : List BootStatusEntry)
    (imageNum partNum : Nat) : Option Nat :=
  ((req.imageAreas.zip es).find? fun p =>
    p.2.bseImageNum == imageNum && p.2.bsePartNum == partNum).map (·.1)

def bootFindImageAreaIdx (req : BootReq) (areaIdx : Nat) : Option Nat :=
  req.imageAreas.findIdx? (· == areaIdx)

/-- `boot_find_image_area_idx` under the assertion that it found something. -/
def imageAreaIdx (req : BootReq) (areaIdx : Nat) : BootM Nat :=
  match bootFindImageAreaIdx req areaIdx with
  | some i => pure i
  | .none => Prog.abort

def setEntry (i : Nat) (e : BootStatusEntry) : BootM Unit :=
  Prog.modify fun s => { s with entries := s.entries.set i e }

/-! ## Moving areas -/

def bootEraseArea (req : BootReq) (areaIdx : Nat) : BootM Unit := do
  let d ← index req.areaDescs areaIdx
  halFlashErase d.nadFlashId d.nadOffset d.nadLength

/-- The size of the copy buffer. -/
def copyBufSz : Nat := 1024

def bootCopyAreaLoop (src dst : AreaDesc) : Nat → Nat → BootM Unit
  | 0, _ => Prog.spin
  | fuel + 1, off =>
    if off < src.nadLength then do
      let chunkSz := if src.nadLength - off > copyBufSz then copyBufSz
        else src.nadLength - off
      let s ← Prog.get
      let buf := s.disk.read src.nadFlashId (src.nadOffset + off) chunkSz
      halFlashWrite dst.nadFlashId (dst.nadOffset + off) buf
      bootCopyAreaLoop src dst fuel (off + chunkSz)
    else pure ()

def bootCopyArea (req : BootReq) (fromIdx toIdx : Nat) : BootM Unit := do
  let src ← index req.areaDescs fromIdx
  let dst ← index req.areaDescs toIdx
  Prog.assert (src.nadLength ≤ dst.nadLength)
  bootCopyAreaLoop src dst (src.nadLength + 1) 0

def bootMoveArea (req : BootReq) (fromIdx toIdx imgNum partNum : Nat) : BootM Unit := do
  let srcImageIdx ← imageAreaIdx req fromIdx
  let dstImageIdx ← imageAreaIdx req toIdx
  bootEraseArea req toIdx
  bootCopyArea req fromIdx toIdx
  setEntry srcImageIdx .none
  setEntry dstImageIdx ⟨imgNum, partNum % 256⟩
  bootWriteStatus
  bootEraseArea req fromIdx

def bootSwapAreas (req : BootReq) (areaIdx1 areaIdx2 : Nat) : BootM Unit := do
  Prog.assert (areaIdx1 != areaIdx2)
  Prog.assert (areaIdx1 != req.scratchAreaIdx)
  Prog.assert (areaIdx2 != req.scratchAreaIdx)
  let imageIdx1 ← imageAreaIdx req areaIdx1
  let imageIdx2 ← imageAreaIdx req areaIdx2
  let scratchImageIdx ← imageAreaIdx req req.scratchAreaIdx
  bootEraseArea req req.scratchAreaIdx
  bootCopyArea req areaIdx2 req.scratchAreaIdx
  let s ← Prog.get
  let e2 ← index s.entries imageIdx2
  setEntry scratchImageIdx e2
  setEntry imageIdx2 .none
  bootWriteStatus
  bootEraseArea req areaIdx2
  bootCopyArea req areaIdx1 areaIdx2
  let s ← Prog.get
  let e1 ← index s.entries imageIdx1
  setEntry imageIdx2 e1
  setEntry imageIdx1 .none
  bootWriteStatus
  bootEraseArea req areaIdx1
  bootCopyArea req req.scratchAreaIdx areaIdx1
  let s ← Prog.get
  let es ← index s.entries scratchImageIdx
  setEntry imageIdx1 es
  setEntry scratchImageIdx .none
  bootWriteStatus

/-- One round of the loop of `boot_fill_slot`: put part `partNum` of image
`imgNum` in its place. -/
def bootFillPart (req : BootReq) (imgNum startAreaIdx partNum : Nat) : BootM Unit := do
  let s ← Prog.get
  match bootFindImagePart req s.entries imgNum partNum with
  | .none => Prog.fail .ebadimage
  | some srcAreaIdx =>
    let dstAreaIdx := startAreaIdx + partNum
    if srcAreaIdx = dstAreaIdx then pure ()
    else do
      let dstImageAreaIdx ← imageAreaIdx req dstAreaIdx
      let e ← index s.entries dstImageAreaIdx
      if e.bseImageNum = bootImageNumNone then
        bootMoveArea req srcAreaIdx dstAreaIdx imgNum partNum
      else
        bootSwapAreas req srcAreaIdx dstAreaIdx

def bootFillSlotLoop (req : BootReq) (imgNum imgLength startAreaIdx : Nat) :
    Nat → Nat → Nat → BootM Unit
  | 0, _, _ => Prog.spin
  | fuel + 1, partNum, off =>
    if off < imgLength then do
      bootFillPart req imgNum startAreaIdx partNum
      let desc ← index req.areaDescs (startAreaIdx + partNum)
      bootFillSlotLoop req imgNum imgLength startAreaIdx fuel (partNum + 1)
        ((off + desc.nadLength) % 2 ^ 32)
    else pure ()

/-- `boot_fill_slot`. A part number is stored in a byte, so a part past 255 is
never found and the fuel is never what ends the loop. -/
def bootFillSlot (req : BootReq) (imgNum imgLength startAreaIdx : Nat) :
    BootM Unit :=
  bootFillSlotLoop req imgNum imgLength startAreaIdx 258 0 0

def bootCopyImage (req : BootReq) (img1Length img2Length : Nat) : BootM Unit := do
  let slot0 ← bootSlotToAreaIdx req 0
  bootFillSlot req 1 img2Length slot0
  let slot1 ← bootSlotToAreaIdx req 1
  bootFillSlot req 0 img1Length slot1

/-! ## The default status -/

def bootBuildStatusLoop (req : BootReq) (imageNum length : Nat) :
    Nat → Nat → Nat → Nat → Nat → BootM Unit
  | 0, _, _, _, _ => Prog.spin
  | fuel + 1, i, areaIdx, partNum, offset =>
    if offset < length then do
      let s ← Prog.get
      let e ← index s.entries i
      Prog.assert (e.bseImageNum == 0xff)
      setEntry i ⟨imageNum, partNum % 256⟩
      let desc ← index req.areaDescs areaIdx
      bootBuildStatusLoop req imageNum length fuel (i + 1) (areaIdx + 1)
        (partNum + 1) ((offset + desc.nadLength) % 2 ^ 32)
    else pure ()

/-- `boot_build_status_one`. The loop stops at the end of the entries at the
latest, where the access aborts. -/
def bootBuildStatusOne (req : BootReq) (imageNum : Nat) (slot : AreaDesc)
    (length : Nat) : BootM Unit :=
  match req.imageAreas.findIdx? fun a => (req.areaDescs[a]?).any fun d =>
      d.nadOffset == slot.nadOffset && d.nadFlashId == slot.nadFlashId with
  | .none => Prog.abort
  | some i => do
      let areaIdx ← index req.imageAreas i
      bootBuildStatusLoop req imageNum length (req.numImageAreas + 1) i areaIdx 0 0

/-- The length `boot_build_status` records for a slot. -/
def ImageHeader.statusLength (hdr : ImageHeader) : Nat :=
  if hdr.ihMagic = imageMagic then hdr.ihImgSize else 0

def bootBuildStatus (req : BootReq) : BootM Unit := do
  Prog.modify fun s => { s with
    entries := List.replicate req.numImageAreas .none
    bsImg1Length := s.imgHdr0.statusLength
    bsImg2Length := s.imgHdr1.statusLength }
  let s ← Prog.get
  if s.imgHdr0.ihMagic = imageMagic then do
    let slot ← bootSlotAddr req 0
    bootBuildStatusOne req 0 slot s.imgHdr0.ihImgSize
  else pure ()
  if s.imgHdr1.ihMagic = imageMagic then do
    let slot ← bootSlotAddr req 1
    bootBuildStatusOne req 1 slot s.imgHdr1.ihImgSize
  else pure ()

/-! ## Choosing and booting an image -/

def bootFindImageSlot (s : St) (ver : ImageVersion) : Option Nat :=
  if s.imgHdr0.ihVer = ver then some 0
  else if s.imgHdr1.ihVer = ver then some 1
  else .none

def bootSelectImageSlot : BootM (Option Nat) := do
  let s ← Prog.get
  let test : Option Nat ← match vectVersion s.disk.test with
    | some ver =>
      match bootFindImageSlot s ver with
      | some slot => pure (some slot)
      | .none => do bootVectDeleteTest; pure .none
    | .none => pure .none
  match test with
  | some slot => pure (some slot)
  | .none =>
    match vectVersion s.disk.main with
    | some ver =>
      match bootFindImageSlot s ver with
      | some slot => pure (some slot)
      | .none => do bootVectDeleteMain; pure .none
    | .none => pure .none

/-- The slot to boot from when no vector names an image that is present. -/
def bootDefaultSlot (s : St) : BootM Nat :=
  if s.imgHdr0.ihMagic ≠ imageMagicNone then pure 0
  else if s.imgHdr1.ihMagic ≠ imageMagicNone then pure 1
  else Prog.fail .ebadimage

structure BootRsp where
  brHdr : ImageHeader
  brFlashId : Nat
  brImageAddr : Nat
deriving DecidableEq, Repr

/-- The part of `boot_go` that completes an interrupted copy. -/
def bootResume (req : BootReq) : BootM Unit := do
  let rc ← Prog.attempt (bootReadStatus req)
  match rc with
  | .ok () => do
      let s ← Prog.get
      bootCopyImage req s.bsImg1Length s.bsImg2Length
  | .error _ => pure ()

/-- The part of `boot_go` that reads the slots, selects an image and moves it
to slot 0 when it is not there. -/
def bootSelectAndCopy (req : BootReq) : BootM BootRsp := do
  let slot0 ← bootSlotAddr req 0
  let slot1 ← bootSlotAddr req 1
  Prog.modify fun s => { s with
    imgHdr0 := bootReadImageHeader s.disk slot0
    imgHdr1 := bootReadImageHeader s.disk slot1 }
  bootBuildStatus req
  let sel ← bootSelectImageSlot
  let s ← Prog.get
  let slot ← match sel with
    | some slot => pure slot
    | .none => bootDefaultSlot s
  if slot = 0 then
    pure ⟨s.imgHdr0, slot0.nadFlashId, slot0.nadOffset⟩
  else do
    bootCopyImage req s.bsImg1Length s.bsImg2Length
    pure ⟨s.imgHdr1, slot0.nadFlashId, slot0.nadOffset⟩

def bootGo (req : BootReq) : BootM BootRsp := do
  bootResume req
  let rsp ← bootSelectAndCopy req
  bootUnlinkStatus
  bootVectDeleteTest
  pure rsp

/-- The state a reset leaves: the disk, and statics with nothing in them. -/
def Disk.init (d : Disk) : St := ⟨d, 0, 0, [], .blank, .blank⟩

/-- One call of `boot_go` on a disk, on a supply. -/
def Disk.bootGo (req : BootReq) (d : Disk) (left : Option Nat) :
    Out St BootErr BootRsp :=
  Boot.bootGo req d.init left

end Larva.Boot
