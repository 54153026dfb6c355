import Mathlib.Algebra.Order.Ring.Int

/-!
# Flash areas are confined

Two layers check a request before a flash driver sees it.  `flash_map.c` compares
the offset and the end of the request with the size of the area; `hal_flash.c`
compares both ends of what is left with the device.  All of these sums are of 32
bits, and only the erase asks whether one of them has wrapped.

A reply is the code returned with the calls made to the driver, so that what a
request touches can be read off it.  The driver's own answers are a parameter: a
driver may fail at any call.  For an erase the work is in the sectors, which are
taken by overlap: a sector that meets the request meets the area, and the area is
made of whole sectors.
-/

namespace Larva.Hal

/-- A call to one of the driver's functions. -/
inductive Access
  | read (address numBytes : UInt32)
  | write (address numBytes : UInt32)
  | eraseSector (address : UInt32)
  deriving DecidableEq

/-- What `hff_sector_info` says of a sector. -/
structure Sector where
  start : UInt32
  size : UInt32
  deriving DecidableEq

/-- `struct hal_flash`; `itf` is the driver's answer to the last of the calls made so far. -/
structure HalFlash where
  itf : List Access → Int
  baseAddr : UInt32
  size : UInt32
  sectors : List Sector

structure FlashArea where
  flashId : UInt8
  off : UInt32
  size : UInt32

abbrev Reply := Int × List Access

def halFlashCheckAddr (hf : HalFlash) (addr : UInt32) : Bool :=
  addr < hf.baseAddr || hf.baseAddr + hf.size < addr

/-- The common part of `hal_flash_read`, `hal_flash_write` and `hal_flash_erase`. -/
def halFlashChecked (dev : Option HalFlash) (address numBytes : UInt32)
    (go : HalFlash → Reply) : Reply :=
  match dev with
  | none => (-1, [])
  | some hf =>
    if halFlashCheckAddr hf address || halFlashCheckAddr hf (address + numBytes) then (-1, [])
    else go hf

def halFlashRead (dev : Option HalFlash) (address numBytes : UInt32) : Reply :=
  halFlashChecked dev address numBytes fun hf =>
    (hf.itf [.read address numBytes], [.read address numBytes])

def halFlashWrite (dev : Option HalFlash) (address numBytes : UInt32) : Reply :=
  halFlashChecked dev address numBytes fun hf =>
    (hf.itf [.write address numBytes], [.write address numBytes])

def halFlashEraseLoop (hf : HalFlash) (address fin : UInt32) : List Sector → List Access → Reply
  | [], log => (0, log)
  | s :: rest, log =>
    if address < s.start + s.size ∧ s.start < fin then
      let log := log ++ [.eraseSector s.start]
      if hf.itf log ≠ 0 then (-1, log) else halFlashEraseLoop hf address fin rest log
    else halFlashEraseLoop hf address fin rest log

def halFlashErase (dev : Option HalFlash) (address numBytes : UInt32) : Reply :=
  halFlashChecked dev address numBytes fun hf =>
    if address + numBytes ≤ address then (-1, [])
    else halFlashEraseLoop hf address (address + numBytes) hf.sectors []

/-- The common part of the three requests on an area. -/
def flashAreaChecked (fa : FlashArea) (off len : UInt32) (go : UInt32 → Reply) : Reply :=
  if fa.size < off ∨ fa.size < off + len then (-1, []) else go (fa.off + off)

inductive Op
  | read
  | write
  | erase
  deriving DecidableEq

section

variable (bspFlashDev : UInt8 → Option HalFlash) (fa : FlashArea) (off len : UInt32)

def flashAreaRead : Reply :=
  flashAreaChecked fa off len (halFlashRead (bspFlashDev fa.flashId) · len)

def flashAreaWrite : Reply :=
  flashAreaChecked fa off len (halFlashWrite (bspFlashDev fa.flashId) · len)

def flashAreaErase : Reply :=
  flashAreaChecked fa off len (halFlashErase (bspFlashDev fa.flashId) · len)

def flashArea : Op → Reply
  | .read => flashAreaRead bspFlashDev fa off len
  | .write => flashAreaWrite bspFlashDev fa off len
  | .erase => flashAreaErase bspFlashDev fa off len

end

/-! ## What a request may touch -/

def Sector.Has (s : Sector) (b : Nat) : Prop :=
  s.start.toNat ≤ b ∧ b < s.start.toNat + s.size.toNat

def FlashArea.Has (fa : FlashArea) (b : Nat) : Prop :=
  fa.off.toNat ≤ b ∧ b < fa.off.toNat + fa.size.toNat

def Access.Touches (hf : HalFlash) (b : Nat) : Access → Prop
  | .read a n | .write a n => a.toNat ≤ b ∧ b < a.toNat + n.toNat
  | .eraseSector a => ∃ s ∈ hf.sectors, s.start = a ∧ s.Has b

/-- The sectors of a device are apart from one another and lie in it. -/
structure HalFlash.Ok (hf : HalFlash) : Prop where
  fits : hf.baseAddr.toNat + hf.size.toNat ≤ 2 ^ 32
  pos : ∀ s ∈ hf.sectors, 0 < s.size.toNat
  within : ∀ s ∈ hf.sectors, ∀ b, s.Has b →
    hf.baseAddr.toNat ≤ b ∧ b < hf.baseAddr.toNat + hf.size.toNat
  apart : ∀ s ∈ hf.sectors, ∀ t ∈ hf.sectors, ∀ b, s.Has b → t.Has b → s = t

/-- The area is a union of whole sectors of its device. -/
structure Sectored (hf : HalFlash) (fa : FlashArea) : Prop where
  ok : hf.Ok
  union : ∀ b, fa.Has b → ∃ s ∈ hf.sectors, s.Has b ∧ ∀ c, s.Has c → fa.Has c

/-- A request touches bytes of the area only, and one that would reach outside it is refused. -/
structure Confined (hf : HalFlash) (fa : FlashArea) (off len : UInt32) (r : Reply) : Prop where
  inside : ∀ a ∈ r.2, ∀ b, a.Touches hf b → fa.Has b
  refuses : fa.size.toNat < off.toNat + len.toNat → r.1 ≠ 0 ∧ r.2 = []

/-- The end of the request wraps and passes the checks of both layers.  A device that
ends with the address space has its own end wrapped, and takes no request at all. -/
def Overruns (hf : HalFlash) (fa : FlashArea) (off len : UInt32) : Prop :=
  off ≤ fa.size ∧ off + len ≤ fa.size ∧ off + len < off ∧ hf.baseAddr ≤ hf.baseAddr + hf.size

variable {hf : HalFlash} {fa : FlashArea} {off len address fin : UInt32}

theorem confined_refused : Confined hf fa off len (-1, []) where
  inside _ h := by cases h
  refuses _ := ⟨by decide, rfl⟩

theorem Sectored.within (h : Sectored hf fa) (hpos : 0 < fa.size.toNat) :
    hf.baseAddr.toNat ≤ fa.off.toNat ∧
      fa.off.toNat + fa.size.toNat ≤ hf.baseAddr.toNat + hf.size.toNat := by
  obtain ⟨s, hs, hb, -⟩ := h.union fa.off.toNat ⟨Nat.le_refl _, by omega⟩
  obtain ⟨t, ht, hc, -⟩ := h.union (fa.off.toNat + fa.size.toNat - 1) ⟨by omega, by omega⟩
  have := h.ok.within s hs _ hb
  have := h.ok.within t ht _ hc
  omega

/-- A request that both layers let through to the driver as one access. -/
theorem transfer_confined_iff (h : Sectored hf fa) {access : UInt32 → UInt32 → Access}
    (hacc : ∀ a n b, (access a n).Touches hf b ↔ a.toNat ≤ b ∧ b < a.toNat + n.toNat) :
    Confined hf fa off len (flashAreaChecked fa off len fun a =>
      halFlashChecked (some hf) a len fun hf => (hf.itf [access a len], [access a len])) ↔
      ¬ Overruns hf fa off len := by
  have hw := h.within
  simp only [flashAreaChecked, halFlashChecked, halFlashCheckAddr, Overruns,
    Bool.or_eq_true, decide_eq_true_eq, UInt32.lt_iff_toNat_lt, UInt32.le_iff_toNat_le,
    UInt32.toNat_add] at *
  have hlen := len.toNat_lt
  have hdev := hf.size.toNat_lt
  split
  · exact iff_of_true confined_refused (by omega)
  split
  · exact iff_of_true confined_refused (by omega)
  constructor
  · -- the byte after the area is among those of a request that wraps
    intro hc ho
    have hb := hc.inside _ (List.mem_singleton_self _) (fa.off.toNat + fa.size.toNat)
    rw [hacc, UInt32.toNat_add, FlashArea.Has] at hb
    omega
  · intro ho
    refine ⟨fun a ha b hb => ?_, fun hout => by omega⟩
    rw [List.mem_singleton.mp ha, hacc, UInt32.toNat_add] at hb
    rw [FlashArea.Has]
    omega

/-! ## The sectors of an erase -/

/-- What holds of every sector that meets the request holds of all that are erased. -/
theorem eraseLoop_all {P : Access → Prop} {ss : List Sector} {log : List Access}
    (hP : ∀ s ∈ ss, address < s.start + s.size → s.start < fin → P (.eraseSector s.start))
    (hlog : ∀ a ∈ log, P a) : ∀ a ∈ (halFlashEraseLoop hf address fin ss log).2, P a := by
  induction ss generalizing log with
  | nil => exact hlog
  | cons s rest ih =>
    have hrest := fun t ht => hP t (List.mem_cons_of_mem s ht)
    rw [halFlashEraseLoop]
    split
    · next hm =>
      have hlog' : ∀ a ∈ log ++ [.eraseSector s.start], P a :=
        List.forall_mem_append.mpr
          ⟨hlog, List.forall_mem_singleton.mpr (hP s List.mem_cons_self hm.1 hm.2)⟩
      dsimp only
      split
      · exact hlog'
      · exact ih hrest hlog'
    · exact ih hrest hlog

/-- A sector that meets a range inside the area is one of those the area is made of. -/
theorem Sectored.meets (h : Sectored hf fa) {s : Sector} (hs : s ∈ hf.sectors) {b : Nat}
    (hb : s.Has b) (hfa : fa.Has b) {c : Nat} (hc : s.Has c) : fa.Has c := by
  obtain ⟨t, ht, htb, hin⟩ := h.union b hfa
  exact hin c (h.ok.apart s hs t ht b hb htb ▸ hc)

theorem erase_confined (h : Sectored hf fa) : Confined hf fa off len
    (flashAreaChecked fa off len fun a => halFlashErase (some hf) a len) := by
  have hw := h.within
  have hfits := h.ok.fits
  have hlen := len.toNat_lt
  rw [flashAreaChecked]
  split
  · exact confined_refused
  rw [halFlashErase, halFlashChecked]
  split
  · exact confined_refused
  split
  · exact confined_refused
  · next harea hdev hend =>
    simp only [halFlashCheckAddr, Bool.or_eq_true, decide_eq_true_eq,
      UInt32.lt_iff_toNat_lt, UInt32.le_iff_toNat_le, UInt32.toNat_add] at harea hdev hend
    refine ⟨eraseLoop_all (fun s hs hlo hhi b hb => ?_) (fun _ h => by cases h),
      fun hout => by omega⟩
    obtain ⟨t, ht, hst, hb⟩ := hb
    have hpos := h.ok.pos s hs
    have heq : t = s := h.ok.apart t ht s hs s.start.toNat
      (by rw [Sector.Has, hst] at *; omega) ⟨Nat.le_refl _, by omega⟩
    simp only [UInt32.lt_iff_toNat_lt, UInt32.toNat_add] at hlo hhi
    refine h.meets hs (b := max (fa.off + off).toNat s.start.toNat) ?_ ?_ (heq ▸ hb)
    · rw [Sector.Has, UInt32.toNat_add]
      omega
    · rw [FlashArea.Has, UInt32.toNat_add]
      omega

/-- A request on an area is confined to it exactly when it is an erase, or its end does
not wrap on its way through both layers. -/
theorem areas_confined_iff {bspFlashDev : UInt8 → Option HalFlash}
    (hdev : bspFlashDev fa.flashId = some hf) (h : Sectored hf fa) (op : Op) :
    Confined hf fa off len (flashArea bspFlashDev fa off len op) ↔
      op = .erase ∨ ¬ Overruns hf fa off len := by
  cases op with
  | read =>
    simp only [flashArea, flashAreaRead, hdev, reduceCtorEq, false_or]
    exact transfer_confined_iff h fun _ _ _ => .rfl
  | write =>
    simp only [flashArea, flashAreaWrite, hdev, reduceCtorEq, false_or]
    exact transfer_confined_iff h fun _ _ _ => .rfl
  | erase =>
    simp only [flashArea, flashAreaErase, hdev, true_or, iff_true]
    exact erase_confined h

/-- A device of 32 bytes whose one sector is the area. -/
def oneSector : HalFlash := ⟨fun _ => 0, 0, 32, [⟨16, 16⟩]⟩

def upperHalf : FlashArea := ⟨0, 16, 16⟩

theorem sectored_upperHalf : Sectored oneSector upperHalf where
  ok := {
    fits := by decide
    pos := by decide
    within := by
      intro s hs b hb
      rw [List.mem_singleton.mp hs] at hb
      exact ⟨Nat.zero_le b, hb.2⟩
    apart := fun s hs t ht _ _ _ => by
      rw [List.mem_singleton.mp hs, List.mem_singleton.mp ht] }
  union b hb := ⟨⟨16, 16⟩, by decide, hb, fun _ hc => hc⟩

theorem areas_confined_erased : Confined oneSector upperHalf 4 8
    (flashArea (fun _ => some oneSector) upperHalf 4 8 .erase) :=
  (areas_confined_iff rfl sectored_upperHalf .erase).mpr (.inl rfl)

/-- A read of all but sixteen bytes of the address space, from the end of the area. -/
theorem read_overruns : ¬ Confined oneSector upperHalf 16 0xfffffff0
    (flashArea (fun _ => some oneSector) upperHalf 16 0xfffffff0 .read) := by
  intro h
  exact absurd (h.refuses (by decide)).1 (by decide)

end Larva.Hal
