import Larva.Boot.Status
import Mathlib.Tactic.IntervalCases

/-!
# Recovery of an interrupted swap

Two valid images lie in their slots and a vector names the one in slot 1.
`boot_go` exchanges them area by area and records each step in the status
file, so that a reset at any point can be made good by the next call.

One state of the status file defeats this. With two or more areas to be
swapped, a reset during one area's swap leaves image 0's part of it in the
scratch area, and the resumed `boot_fill_slot` first completes image 1:
when it comes to the next area that still has both parts, `boot_swap_areas`
erases the scratch area with the only copy of that part. `Stranded` is this
state. Everywhere else the recovery works: along every run of resets that
never starts `boot_go` on a stranded status, each part of both images is
somewhere in flash at every point, and the first call that is not cut
returns with the images exchanged.
-/

namespace Larva.Boot

open Larva.Crash Option List

section Setting

variable {req : BootReq} (L : Layout req)

/-- `IMAGE_HEADER_SIZE`. -/
def imageHeaderSize : Nat := 32

/-- The number of areas the image of a slot takes, its header included. -/
def Layout.imageParts (d : Disk) (b : Bool) : Nat :=
  L.parts ((L.header d b).ihHdrSize + (L.header d b).ihImgSize)

/-- Two valid images of different versions in their slots, no copy under way,
and a vector that names the image in slot 1. -/
structure Ready (d : Disk) : Prop where
  magic : ∀ b, (L.header d b).ihMagic = imageMagic
  hdrSize : ∀ b, imageHeaderSize ≤ (L.header d b).ihHdrSize
  versions : (L.header d false).ihVer ≠ (L.header d true).ihVer
  fits : ∀ b c, L.imageParts d b ≤ L.count c
  status : d.status = .none
  selects : Selects (L.header d true).ihVer (L.header d false).ihVer d

/-- The loader counts areas by `ih_img_size`, which leaves the header out. -/
def HeaderFits (d : Disk) : Prop :=
  ∀ b, L.parts (L.header d b).ihImgSize = L.imageParts d b

/-- The images of a disk, as they are in their slots. -/
def Layout.images (d : Disk) : Images where
  n := L.imageParts d
  byte b k := L.byte d (.slot b k)
  size b := (L.header d b).ihImgSize

/-- The scratch area holds a part while another area of slot 0 still waits to
be swapped. -/
def Stranded (d₀ d : Disk) : Prop :=
  ∃ f e, d.status = some f ∧ f.entries[L.pos .scratch]? = some e ∧
    e.bseImageNum ≠ bootImageNumNone ∧ ∃ l, l < L.imageParts d₀ true ∧
      f.entries[L.pos (.slot false l)]? = some ⟨0, l⟩

/-- Disks that resets can leave, `boot_go` being started on none that is
stranded. -/
inductive Resets (d₀ : Disk) : Disk → Prop
  | start : Resets d₀ d₀
  | reset {d : Disk} {n : Nat} {s : St} : Resets d₀ d → ¬ Stranded L d₀ d →
      d.bootGo req (some n) = .cut s → Resets d₀ s.disk

/-- Every part of both images is in flash, each at a place of its own. -/
def Kept (d₀ d : Disk) : Prop :=
  ∃ W, Proper L (L.images d₀) W ∧ Keeps L (L.images d₀) W d

/-- Each image is in the other's slot, byte for byte. -/
def Swapped (d₀ d : Disk) : Prop :=
  ∀ b k, k < L.imageParts d₀ b → L.Holds d (.slot (!b) k) (L.byte d₀ (.slot b k))

/-- What every reset leaves: a copy under way, or one that is complete and
whose status file is gone. -/
def Recoverable (d₀ d : Disk) : Prop :=
  Selects (L.header d₀ true).ihVer (L.header d₀ false).ihVer d ∧ (Midway L (L.images d₀) d ∨
      d.status = .none ∧ Keeps L (L.images d₀) swapped d)

end Setting

section Facts

variable {req : BootReq} {L : Layout req} {d₀ d : Disk}

theorem Ready.images_fit (h : Ready L d₀) : Fits L (L.images d₀) := h.fits

theorem HeaderFits.parts (hh : HeaderFits L d₀) (b : Bool) :
    (L.images d₀).n b = L.parts ((L.images d₀).size b) := (hh b).symm

/-- An image takes at least the areas of its header. -/
theorem Ready.header_le (h : Ready L d₀) (b : Bool) : 28 ≤ L.imageParts d₀ b * L.len := by
  have hle : _ ≤ L.imageParts d₀ b * L.len := Layout.le_parts_mul _
  have hs := h.hdrSize b
  simp only [imageHeaderSize] at hs
  omega

theorem Ready.parts_pos (h : Ready L d₀) (b : Bool) : 0 < L.imageParts d₀ b := by
  have h1 := h.header_le b
  by_contra h0
  rw [Nat.eq_zero_of_not_pos h0] at h1
  omega

theorem Ready.count_pos (h : Ready L d₀) (b : Bool) : 0 < L.count b :=
  lt_of_lt_of_le (h.parts_pos b) (h.fits b b)

/-- Image sizes are neither zero nor the mark of a length never written. -/
theorem Ready.size_bounds (h : Ready L d₀) (hh : HeaderFits L d₀) (b : Bool) :
    0 < (L.images d₀).size b ∧ (L.images d₀).size b < 0xffffffff := by
  have hpos : 0 < L.parts ((L.images d₀).size b) := by
    rw [← hh.parts b]
    exact h.parts_pos b
  refine ⟨by simpa using Layout.lt_parts.mp hpos, ?_⟩
  have hle : _ ≤ L.imageParts d₀ b * L.len := Layout.le_parts_mul _
  have hmul := Nat.mul_le_mul_right L.len (h.fits b b)
  have hslot := L.slot_lt b
  have hs := h.hdrSize b
  simp only [imageHeaderSize] at hs
  simp only [Layout.images]
  omega

theorem tidy_const (I : Images) {p : Phase} (hp : ¬ p.held) :
    Tidy I fun _ => p :=
  ⟨fun _ h => absurd h hp, fun _ _ h => absurd h hp⟩

theorem Keeps.swapped (hK : Keeps L (L.images d₀) swapped d) : Swapped L d₀ d := by
  intro b k hk
  cases b <;> exact hK _ k hk

/-- The disk the run starts on. -/
theorem Ready.recoverable (h : Ready L d₀) : Recoverable L d₀ d₀ := by
  refine ⟨h.selects, .inl ⟨fun _ => .orig, tidy_const _ id, ?_, ?_⟩⟩
  · intro b k _
    show L.Holds d₀ (inSlots b k) _
    rw [inSlots_eq]
    exact fun _ _ => rfl
  · exact .inl ⟨h.status, fun b k _ => inSlots_eq b k⟩

/-- A status file is there only while a copy is under way. -/
theorem Recoverable.midway {f : StatusFile} (h : Recoverable L d₀ d) (hf : d.status = some f) :
    ∃ ph es, Tidy (L.images d₀) ph ∧ Saved L (L.images d₀) (locate ph) d ∧
      f = ⟨(L.images d₀).size false, (L.images d₀).size true, es⟩ ∧
      Records L (L.images d₀) (locate ph) es := by
  have hne : d.status ≠ .none := by simp [hf]
  rcases h.2 with ⟨ph, hT, hS⟩ | ⟨hn, -⟩
  · rcases hS.status with ⟨hn, -⟩ | ⟨es, hes, hR⟩
    · exact absurd hn hne
    · exact ⟨ph, es, hT, hS, some.inj (hf.symm.trans hes), hR⟩
  · exact absurd hn hne

theorem Recoverable.kept (h0 : Ready L d₀) (h : Recoverable L d₀ d) : Kept L d₀ d := by
  rcases h.2 with ⟨ph, hT, hS⟩ | ⟨-, hK⟩
  · exact ⟨locate ph, hT.proper h0.images_fit, hS.keeps⟩
  · exact ⟨swapped, (tidy_const _ id).proper h0.images_fit, hK⟩

/-- A status that is not stranded leaves the scratch area to the next swap. -/
theorem safe_of_not_stranded {ph : Nat → Phase} {es : List BootStatusEntry} {n0 n1 : Nat}
    (hT : Tidy (L.images d₀) ph) (hd : d.status = some ⟨n0, n1, es⟩)
    (hR : Records L (L.images d₀) (locate ph) es) (hs : ¬ Stranded L d₀ d) :
    Safe (L.images d₀) ph := by
  intro k hk l hl0 hl1 hne
  have hk0 := (hT.held_lt k hk).1
  have hscr : locate ph false k = .scratch := by
    cases hp : ph k <;> rw [hp] at hk <;> first | exact absurd hk id | simp [locate, hp]
  have he := hR.part false k hk0
  rw [hscr] at he
  cases hp : ph l with
  | done => rfl
  | backedUp => exact absurd (hT.one l k (by rw [hp]; trivial) hk) hne
  | replaced => exact absurd (hT.one l k (by rw [hp]; trivial) hk) hne
  | orig =>
    have hl := hR.part false l hl0
    rw [show locate ph false l = .slot false l by simp [locate, hp]] at hl
    exact absurd ⟨_, _, hd, he, by simp [bootImageNumNone], l, hl1, hl⟩ hs

end Facts

/-! ## One call of `boot_go` -/

section Call

variable {req : BootReq} {L : Layout req} {d₀ d : Disk} {s s' : St} {Q : Post St BootErr BootRsp}

theorem Selects.congr {v w : ImageVersion} {d' : Disk} (h : Selects v w d) (ht : d'.test = d.test)
    (hm : d'.main = d.main) : Selects v w d' := by
  unfold Selects
  rw [ht, hm]
  exact h

variable (L d₀) in
/-- The images are exchanged, and the status file, if it is still there, says
so. -/
structure Complete (d : Disk) : Prop where
  keeps : Keeps L (L.images d₀) swapped d
  status : d.status = .none ∨ Saved L (L.images d₀) swapped d
  selects : Selects (L.header d₀ true).ihVer (L.header d₀ false).ihVer d

theorem Complete.recoverable (h : Complete L d₀ d) : Recoverable L d₀ d := by
  refine ⟨h.selects, ?_⟩
  rcases h.status with hn | hS
  · exact .inr ⟨hn, h.keeps⟩
  · exact .inl ⟨_, tidy_const _ id, hS⟩

theorem wp_bootResume (h0 : Ready L d₀) (hh : HeaderFits L d₀) (hrec : Recoverable L d₀ s.disk)
    (hs : ¬ Stranded L d₀ s.disk) {Q : Post St BootErr Unit}
    (hcut : ∀ s', Recoverable L d₀ s'.disk → s'.disk.main = s.disk.main → Q.cut s')
    (hnone : s.disk.status = .none → Q.ok () s)
    (hdone : ∀ s', Complete L d₀ s'.disk → s'.disk.main = s.disk.main → Q.ok () s') :
    Wp (bootResume req) Q s := by
  have hsel := hrec.1
  refine .bind (.attempt ?_)
  cases hst : s.disk.status with
  | none =>
    refine wp_bootReadStatus_none hst ?_
    exact .pure (hnone hst)
  | some f =>
    obtain ⟨ph, es, hT, hS, rfl, hR⟩ := hrec.midway hst
    refine wp_bootReadStatus_some hR (h0.size_bounds hh) hst ?_
    have hP : Placed L (L.images d₀) (locate ph) { s with
        entries := es, bsImg1Length := (L.images d₀).size false,
        bsImg2Length := (L.images d₀).size true } :=
      ⟨hS, hR, rfl, rfl⟩
    refine .bind (.get ?_)
    refine wp_bootCopyImage h0.images_fit hh.parts h0.count_pos hT
      (safe_of_not_stranded hT hst hR hs) hP ?_ ?_
    · intro s' hm hv
      exact hcut s' ⟨hsel.congr hv.1 hv.2.1, .inl hm⟩ hv.2.1
    · intro s' hS' hv
      exact hdone s' ⟨hS'.saved.keeps, .inr hS'.saved, hsel.congr hv.1 hv.2.1⟩ hv.2.1

variable (L) in
/-- What `boot_go` reports: image 1, started from slot 0. -/
def Layout.response (d : Disk) : BootRsp :=
  ⟨L.header d true, L.dev false, L.base false⟩

theorem header_inSlots (h0 : Ready L d₀) (hK : Keeps L (L.images d₀) inSlots d) (b : Bool) :
    L.header d b = L.header d₀ b :=
  Layout.header_eq (h0.header_le b) fun k hk => by
    have h := hK b k hk
    rw [inSlots_eq] at h
    exact h

theorem header_swapped (h0 : Ready L d₀) (hK : Keeps L (L.images d₀) swapped d) (b : Bool) :
    L.header d b = L.header d₀ (!b) :=
  Layout.header_eq (h0.header_le (!b)) fun k hk => by
    have h := hK.swapped (!b) k hk
    rwa [Bool.not_not] at h

theorem bootReadImageHeader_slot {b : Bool} (h : (L.header d b).ihMagic = imageMagic) :
    bootReadImageHeader d (L.desc (.slot b 0)) = L.header d b := by
  simp only [bootReadImageHeader, Layout.desc, zero_mul, add_zero]
  exact if_pos h

/-- The images with their numbers exchanged. -/
def Images.flip (I : Images) : Images where
  n b := I.n (!b)
  byte b := I.byte (!b)
  size b := I.size (!b)

section Select

variable (h0 : Ready L d₀) (hh : HeaderFits L d₀)
  (hcut : ∀ s', Recoverable L d₀ s'.disk → s'.disk.main = s.disk.main → Q.cut s')
  (hok : ∀ s', Complete L d₀ s'.disk → s'.disk.main = s.disk.main → Q.ok (L.response d₀) s')
include h0 hh hcut hok

/-- The end of `boot_go` when the images are exchanged already. -/
theorem wp_bootSelectAndCopy_swapped (hC : Complete L d₀ s.disk) :
    Wp (bootSelectAndCopy req) Q s := by
  have hd := header_swapped h0 hC.keeps
  have hr : ∀ b, bootReadImageHeader s.disk (L.desc (.slot b 0)) = L.header d₀ (!b) := fun b => by
    rw [bootReadImageHeader_slot (by rw [hd]; exact h0.magic (!b)), hd]
  refine .bind (wp_bootSlotAddr (h0.count_pos false) ?_)
  refine .bind (wp_bootSlotAddr (h0.count_pos true) ?_)
  refine .bind (.modify ?_)
  rw [hr false, hr true]
  refine .bind (wp_bootBuildStatus (I := (L.images d₀).flip)
    (fun b => hh.parts (!b)) (fun b => h0.fits (!b) b) h0.count_pos
    (h0.magic true) (h0.magic false) rfl rfl ?_)
  intro es _
  refine .bind (wp_bootSelectImageSlot (L.header d₀ true).ihVer
    (L.header d₀ false).ihVer 0 ?_ ?_ ?_ ?_ ?_)
  · simp [bootFindImageSlot]
  · intro u hv hw
    exact bootFindImageSlot_of_ne (Ne.symm hv) (Ne.symm hw)
  · exact hC.selects
  · exact hcut _ hC.recoverable rfl
  · intro t ht
    refine .bind (.get ?_)
    refine .bind (.pure ?_)
    simp only [if_true, Layout.desc, zero_mul, add_zero]
    refine .pure (hok _ ⟨hC.keeps, ?_, ht⟩ rfl)
    rcases hC.status with h | h
    · exact .inl h
    · exact .inr { h with }

/-- The end of `boot_go` when no copy has begun. -/
theorem wp_bootSelectAndCopy_inSlots (hS : Saved L (L.images d₀) inSlots s.disk)
    (hst : s.disk.status = .none)
    (hsel : Selects (L.header d₀ true).ihVer (L.header d₀ false).ihVer s.disk) :
    Wp (bootSelectAndCopy req) Q s := by
  have hd := header_inSlots h0 hS.keeps
  have hr : ∀ b, bootReadImageHeader s.disk (L.desc (.slot b 0)) = L.header d₀ b := fun b => by
    rw [bootReadImageHeader_slot (by rw [hd]; exact h0.magic b), hd]
  have hT : Tidy (L.images d₀) fun _ => .orig := tidy_const _ id
  refine .bind (wp_bootSlotAddr (h0.count_pos false) ?_)
  refine .bind (wp_bootSlotAddr (h0.count_pos true) ?_)
  refine .bind (.modify ?_)
  rw [hr false, hr true]
  refine .bind (wp_bootBuildStatus hh.parts
    (fun b => h0.fits b b) h0.count_pos (h0.magic false) (h0.magic true) rfl rfl ?_)
  intro es hR
  refine .bind (wp_bootSelectImageSlot (L.header d₀ true).ihVer
    (L.header d₀ false).ihVer 1 ?_ ?_ ?_ ?_ ?_)
  · simp [bootFindImageSlot, h0.versions]
  · intro u hv hw
    exact bootFindImageSlot_of_ne (Ne.symm hw) (Ne.symm hv)
  · exact hsel
  · exact hcut _ ⟨hsel, .inl ⟨_, hT, hS⟩⟩ rfl
  · intro t ht
    refine .bind (.get ?_)
    refine .bind (.pure ?_)
    simp only [Nat.one_ne_zero, if_false, Layout.desc, zero_mul, add_zero]
    have hP : Placed L (L.images d₀) inSlots { s with
        disk := { s.disk with test := t }
        entries := es
        bsImg1Length := (L.images d₀).size false
        bsImg2Length := (L.images d₀).size true
        imgHdr0 := L.header d₀ false
        imgHdr1 := L.header d₀ true } :=
      ⟨⟨hS.keeps, .inl ⟨hst, fun b k _ => inSlots_eq b k⟩⟩, hR, rfl, rfl⟩
    refine .bind (wp_bootCopyImage h0.images_fit hh.parts h0.count_pos hT
      (fun _ h => absurd h id) hP ?_ ?_)
    · intro s' hm hv
      exact hcut s' ⟨ht.congr hv.1 hv.2.1, .inl hm⟩ hv.2.1
    · intro s' hS' hv
      exact .pure (hok s' ⟨hS'.saved.keeps, .inr hS'.saved, ht.congr hv.1 hv.2.1⟩ hv.2.1)

end Select

variable (L d₀) in
/-- What a call of `boot_go` on `d` leaves that was not cut. -/
structure Booted (d d' : Disk) : Prop where
  keeps : Keeps L (L.images d₀) swapped d'
  status : d'.status = .none
  test : d'.test = .none
  main : d'.main = d.main

variable (L d₀) in
/-- What is wanted of one call of `boot_go` on `d`. -/
def Recovers (d : Disk) : Post St BootErr BootRsp :=
  ⟨fun rsp s' => rsp = L.response d₀ ∧ Booted L d₀ d s'.disk, fun _ _ => False,
    fun s' => Recoverable L d₀ s'.disk ∧ s'.disk.main = d.main, False⟩

/-- The last of `boot_go`: the test vector is deleted. -/
theorem wp_deleteTest (hC : Complete L d₀ s'.disk) (hst : s'.disk.status = .none)
    (hm : s'.disk.main = d.main) :
    Wp (do bootVectDeleteTest; pure (L.response d₀)) (Recovers L d₀ d) s' := by
  refine .bind ?_
  refine .bind (.get ?_)
  cases htest : s'.disk.test with
  | none =>
    simp only [htest, isSome_none, Bool.false_eq_true, if_false]
    exact .pure (.pure ⟨rfl, hC.keeps, hst, htest, hm⟩)
  | some f =>
    simp only [htest, isSome_some, if_true]
    refine .persist ⟨hC.recoverable, hm⟩ (.pure ?_)
    exact ⟨rfl, hC.keeps, hst, rfl, hm⟩

/-- Once the images are exchanged, the two files are deleted. -/
theorem wp_deleteFiles (hC : Complete L d₀ s'.disk) (hm : s'.disk.main = d.main) :
    Wp (do bootUnlinkStatus; bootVectDeleteTest; pure (L.response d₀)) (Recovers L d₀ d) s' := by
  refine .bind ?_
  refine .bind (.get ?_)
  cases hst : s'.disk.status with
  | none =>
    simp only [hst, isSome_none, Bool.false_eq_true, if_false]
    exact .pure (wp_deleteTest hC hst hm)
  | some f =>
    simp only [hst, isSome_some, if_true]
    exact .persist ⟨hC.recoverable, hm⟩ (wp_deleteTest ⟨hC.keeps, .inl rfl, hC.selects⟩ rfl hm)

/-- One call of `boot_go` on a disk that a reset left and that is not
stranded: wherever it is cut, the disk is again such a one, and if it is not
cut it returns 0 with the images exchanged. -/
theorem wp_bootGo (h0 : Ready L d₀) (hh : HeaderFits L d₀) (hrec : Recoverable L d₀ d)
    (hs : ¬ Stranded L d₀ d) : Wp (bootGo req) (Recovers L d₀ d) d.init := by
  have hselect : ∀ s', Complete L d₀ s'.disk → s'.disk.main = d.main →
      Wp (bootSelectAndCopy req >>= fun rsp => do
        bootUnlinkStatus; bootVectDeleteTest; pure rsp) (Recovers L d₀ d) s' :=
    fun s' hC hm => .bind (wp_bootSelectAndCopy_swapped h0 hh (fun _ h hm' => ⟨h, hm'.trans hm⟩)
      (fun _ h hm' => wp_deleteFiles h (hm'.trans hm)) hC)
  refine .bind (wp_bootResume h0 hh hrec hs (fun _ h hm => ⟨h, hm⟩) ?_ hselect)
  intro hst
  rcases hrec.2 with ⟨ph, hT, hS⟩ | ⟨-, hK⟩
  · rcases hS.status with ⟨-, hW⟩ | ⟨es, hes, -⟩
    · refine .bind (wp_bootSelectAndCopy_inSlots h0 hh (fun _ h hm => ⟨h, hm⟩)
        (fun _ h hm => wp_deleteFiles h hm) (hS.congr ?_) hst hrec.1)
      intro b k hk
      rw [hW b k hk, inSlots_eq]
    · rw [show d.status = .none from hst] at hes
      cases hes
  · exact hselect _ ⟨hK, .inl hst, hrec.1⟩ rfl

end Call

/-! ## Runs of resets -/

section Runs

variable {req : BootReq} {L : Layout req} {d₀ d : Disk}

theorem Resets.recoverable (h0 : Ready L d₀) (hh : HeaderFits L d₀) (hr : Resets L d₀ d) :
    Recoverable L d₀ d := by
  induction hr with
  | start => exact h0.recoverable
  | @reset d n s _ hs hcut ih =>
    have h := wp_bootGo h0 hh ih hs (some n)
    rw [show bootGo req d.init (some n) = .cut s from hcut] at h
    exact h.1.1

/-- One call on a disk that resets can leave, read off its three ends. -/
theorem bootGo_ends (h0 : Ready L d₀) (hh : HeaderFits L d₀) (hrec : Recoverable L d₀ d)
    (hs : ¬ Stranded L d₀ d) (left : Option Nat) :
    (∃ n s, left = some n ∧ d.bootGo req left = .cut s ∧
      Recoverable L d₀ s.disk ∧ s.disk.main = d.main) ∨
    ∃ s left', d.bootGo req left = .ok (L.response d₀) s left' ∧ Booted L d₀ d s.disk := by
  have h := wp_bootGo h0 hh hrec hs left
  rw [show bootGo req d.init left = d.bootGo req left from rfl] at h
  cases ho : d.bootGo req left with
  | ok rsp s left' =>
    rw [ho] at h
    obtain ⟨⟨rfl, hB⟩, -⟩ := h
    exact .inr ⟨s, left', rfl, hB⟩
  | err e s left' => rw [ho] at h; exact h.1.elim
  | cut s =>
    rw [ho] at h
    cases left with
    | none => exact absurd rfl h.2
    | some n => exact .inl ⟨n, s, rfl, rfl, h.1⟩
  | _ => rw [ho] at h; exact h.elim

/-- Along every run of resets that starts `boot_go` on no stranded status,
no part of either image is ever lost, and the first call that is not cut
returns 0 with every part in its place. -/
theorem bootGo_recovers_unless_stranded (h₀ : Ready L d₀)
    (hh : HeaderFits L d₀) {d : Disk} (hr : Resets L d₀ d) :
    Kept L d₀ d ∧ (¬ Stranded L d₀ d → ∀ left, (∃ n s, left = some n ∧ d.bootGo req left = .cut s) ∨
      ∃ s left', d.bootGo req left = .ok (L.response d₀) s left' ∧ Swapped L d₀ s.disk) := by
  have hrec := hr.recoverable h₀ hh
  refine ⟨hrec.kept h₀, fun hs left => ?_⟩
  rcases bootGo_ends h₀ hh hrec hs left with ⟨n, s, hl, ho, -⟩ | ⟨s, left', ho, hB⟩
  · exact .inl ⟨n, s, hl, ho⟩
  · exact .inr ⟨s, left', ho, hB.keeps.swapped⟩

end Runs

/-! ## A layout with two areas to a slot -/

/-- Six areas of 40 bytes: the first is not used, then two for each slot and
the scratch area. -/
def twoAreaReq : BootReq where
  areaDescs := (List.range 6).map fun i => ⟨40 * i, 40, 0⟩
  imageAreas := [1, 2, 3, 4, 5]
  slotAreas := [1, 3]
  scratchAreaIdx := 5

theorem twoAreaReq_desc {i : Nat} {d : AreaDesc}
    (h : twoAreaReq.areaDescs[i]? = some d) : d = ⟨40 * i, 40, 0⟩ := by
  simp only [twoAreaReq, getElem?_map, map_eq_some_iff] at h
  obtain ⟨j, hj, rfl⟩ := h
  rw [getElem?_eq_some_iff] at hj
  obtain ⟨_, hj⟩ := hj
  rw [getElem_range] at hj
  rw [hj]

theorem twoAreaReq_cover (i : Nat) (hi : i < twoAreaReq.imageAreas.length) :
    i = 4 ∨ ∃ (b : Bool) (k : Nat), k < 2 ∧ i = (if b then 2 else 0) + k := by
  simp only [twoAreaReq, length_cons, length_nil] at hi
  interval_cases i
  · exact .inr ⟨false, 0, by decide, rfl⟩
  · exact .inr ⟨false, 1, by decide, rfl⟩
  · exact .inr ⟨true, 0, by decide, rfl⟩
  · exact .inr ⟨true, 1, by decide, rfl⟩
  · exact .inl rfl

theorem twoAreaReq_slots_apart (k l : Nat) (hk : k < 2) (_ : l < 2) :
    (if false then 3 else 1) + k ≠ (if true then 3 else 1) + l := by
  simp only [Bool.false_eq_true, if_false, if_true]
  omega

theorem twoAreaReq_apart (i j : Nat) (d e : AreaDesc) (hi : twoAreaReq.areaDescs[i]? = some d)
    (hj : twoAreaReq.areaDescs[j]? = some e) (hne : i ≠ j) : d.Apart e := by
  rw [twoAreaReq_desc hi, twoAreaReq_desc hj]
  simp only [AreaDesc.Apart]
  omega

def twoAreaLayout : Layout twoAreaReq where
  len := 40
  len_pos := by decide
  dev _ := 0
  base b := if b then 120 else 40
  start b := if b then 3 else 1
  count _ := 2
  slotPos b := if b then 2 else 0
  scratchDev := 0
  scratchBase := 200
  scratchPos := 4
  slots := rfl
  slot_desc := by decide
  scratch_desc := rfl
  slot_area := by decide
  scratch_area := rfl
  cover := twoAreaReq_cover
  nodup := by decide
  num_le := by decide
  slots_apart := twoAreaReq_slots_apart
  scratch_apart := by decide
  lengths := by decide
  apart := twoAreaReq_apart
  slot_lt := by decide

/-- An image of 48 bytes after a header of 32. -/
def twoAreaImage (version fill : UInt8) : List UInt8 :=
  [0x3c, 0xb8, 0xf3, 0x96, 0, 0, 0, 0, 32, 0, 0, 0, 48, 0, 0, 0, 0, 0, 0, 0,
    version, 0, 0, 0, 0, 0, 0, 0] ++ List.replicate 52 fill

/-- Version 1 in slot 0, version 2 in slot 1, and a main vector that names
version 2. -/
def twoAreaDisk : Disk where
  flash _ a :=
    if a < 40 then 0xff
    else if a < 120 then (twoAreaImage 1 0x11).getD (a - 40) 0
    else if a < 200 then (twoAreaImage 2 0x22).getD (a - 120) 0
    else 0xff
  status := .none
  test := .none
  main := some (.version ⟨2, 0, 0, 0⟩)

theorem twoAreaDisk_ready : Ready twoAreaLayout twoAreaDisk where
  magic := by decide +kernel
  hdrSize := by decide +kernel
  versions := by decide +kernel
  fits := by decide +kernel
  status := rfl
  selects := .inr (by decide +kernel)

theorem twoAreaDisk_headerFits : HeaderFits twoAreaLayout twoAreaDisk := by
  unfold HeaderFits
  decide +kernel

/-- The status file that a cut run leaves. -/
def statusAfterCut : Out St BootErr BootRsp → Option StatusFile
  | .cut s => s.disk.status
  | _ => .none

variable {o : Out St BootErr BootRsp}

theorem exists_cut {f : StatusFile} (h : statusAfterCut o = some f) :
    ∃ s, o = .cut s ∧ s.disk.status = some f := by
  cases o with
  | cut s => exact ⟨s, rfl, h⟩
  | _ => cases h

/-- A reset with the second area's part in the scratch area is recovered
from: the first area is done. -/
theorem bootGo_recovers_twoArea : ∃ s, twoAreaDisk.bootGo twoAreaReq (some 12) = .cut s ∧
    Kept twoAreaLayout twoAreaDisk s.disk ∧ ∃ s' left, s.disk.bootGo twoAreaReq none =
      .ok (twoAreaLayout.response twoAreaDisk) s' left ∧
      Swapped twoAreaLayout twoAreaDisk s'.disk := by
  obtain ⟨s, hcut, hst⟩ := exists_cut (show statusAfterCut
    (twoAreaDisk.bootGo twoAreaReq (some 12)) =
      some ⟨48, 48, [⟨1, 0⟩, .none, ⟨0, 0⟩, ⟨1, 1⟩, ⟨0, 1⟩]⟩ by decide +kernel)
  have hstart : ¬ Stranded twoAreaLayout twoAreaDisk twoAreaDisk := by
    rintro ⟨f, e, hf, -⟩
    cases hf
  have hs : ¬ Stranded twoAreaLayout twoAreaDisk s.disk := by
    rintro ⟨f, e, hf, -, -, l, hl, he⟩
    rw [hst] at hf
    cases hf
    rw [show twoAreaLayout.imageParts twoAreaDisk true = 2 by
      decide +kernel] at hl
    interval_cases l <;> exact absurd he (by decide)
  obtain ⟨hk, h⟩ := bootGo_recovers_unless_stranded twoAreaDisk_ready
    twoAreaDisk_headerFits (.reset .start hstart hcut)
  refine ⟨s, hcut, hk, ?_⟩
  rcases h hs none with ⟨n, _, hn, -⟩ | h
  · cases hn
  · exact h

/-- The error of a call that follows a reset. -/
def errorAfterReset (req : BootReq) : Out St BootErr BootRsp → Option BootErr
  | .cut s =>
    match s.disk.bootGo req none with
    | .err e _ _ => some e
    | _ => .none
  | _ => .none

theorem exists_error {req : BootReq} {e : BootErr} (h : errorAfterReset req o = some e) :
    ∃ s s' left, o = .cut s ∧ s.disk.bootGo req none = .err e s' left := by
  cases o with
  | cut s =>
    simp only [errorAfterReset] at h
    split at h
    · next e' s' left' ho =>
      cases h
      exact ⟨s, s', left', rfl, ho⟩
    · cases h
  | _ => cases h

/-- A reset right after the first status write: the next call, though it is
not cut, loses a part of image 0 and returns `BOOT_EBADIMAGE`. -/
theorem bootGo_stranded_fails :
    Ready twoAreaLayout twoAreaDisk ∧ HeaderFits twoAreaLayout twoAreaDisk ∧
    ∃ s s' left, twoAreaDisk.bootGo twoAreaReq (some 3) = .cut s ∧
      s.disk.bootGo twoAreaReq none = .err .ebadimage s' left :=
  ⟨twoAreaDisk_ready, twoAreaDisk_headerFits, exists_error (by decide +kernel)⟩

end Larva.Boot
