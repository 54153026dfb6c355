import Larva.Boot.Model
import Mathlib.Data.List.Nodup
import Mathlib.Tactic.Ring

/-!
# Flash layouts for image swapping

`design.txt` asks of a layout that the areas used by image data are kept for
image data, that areas do not overlap, and that all of them, the scratch area
included, have one size. `Layout` carries these facts, together with where
each area stands in the arrays of the request.

A `Place` is one of those areas by its role: area `k` of a slot, or the
scratch area. The loader addresses areas by index into two different arrays;
the lemmas here turn both into places once, so that nothing later mentions an
index. What an erase and a copy do is stated the same way: one place changes,
`AgreeOff` says every other place is as it was.
-/

namespace Larva.Boot

open Larva.Crash Option

/-- Two areas share no byte. -/
def AreaDesc.Apart (d e : AreaDesc) : Prop :=
  d.nadFlashId ≠ e.nadFlashId ∨ d.nadOffset + d.nadLength ≤ e.nadOffset ∨
    e.nadOffset + e.nadLength ≤ d.nadOffset

/-- An image area by its role. Slot 0 is `false`, slot 1 is `true`. -/
inductive Place where
  | slot (b : Bool) (k : Nat)
  | scratch
deriving DecidableEq

/-- A layout: both slots and the scratch area consist of areas of one length,
each slot is contiguous in flash, in the area table and among the image
areas, and all areas of the table are apart. -/
structure Layout (req : BootReq) where
  len : Nat
  len_pos : 0 < len
  dev : Bool → Nat
  base : Bool → Nat
  start : Bool → Nat
  count : Bool → Nat
  slotPos : Bool → Nat
  scratchDev : Nat
  scratchBase : Nat
  scratchPos : Nat
  slots : req.slotAreas = [start false, start true]
  slot_desc : ∀ b k, k < count b → req.areaDescs[start b + k]? = some ⟨base b + k * len, len, dev b⟩
  scratch_desc : req.areaDescs[req.scratchAreaIdx]? = some ⟨scratchBase, len, scratchDev⟩
  slot_area : ∀ b k, k < count b → req.imageAreas[slotPos b + k]? = some (start b + k)
  scratch_area : req.imageAreas[scratchPos]? = some req.scratchAreaIdx
  cover : ∀ i, i < req.imageAreas.length → i = scratchPos ∨ ∃ b k, k < count b ∧ i = slotPos b + k
  nodup : req.imageAreas.Nodup
  num_le : req.imageAreas.length ≤ 255
  slots_apart : ∀ k l, k < count false → l < count true → start false + k ≠ start true + l
  scratch_apart : ∀ b k, k < count b → start b + k ≠ req.scratchAreaIdx
  lengths : ∀ d ∈ req.areaDescs, 0 < d.nadLength
  apart : ∀ (i j : Nat) (d e : AreaDesc), req.areaDescs[i]? = some d → req.areaDescs[j]? = some e →
    i ≠ j → d.Apart e
  slot_lt : ∀ b, count b * len < 2 ^ 32

namespace Layout

variable {req : BootReq} (L : Layout req)

def Ok : Place → Prop
  | .slot b k => k < L.count b
  | .scratch => True

/-- Index into the area table. -/
def idx : Place → Nat
  | .slot b k => L.start b + k
  | .scratch => req.scratchAreaIdx

/-- Index into the image areas, and so into the status entries. -/
def pos : Place → Nat
  | .slot b k => L.slotPos b + k
  | .scratch => L.scratchPos

def desc : Place → AreaDesc
  | .slot b k => ⟨L.base b + k * L.len, L.len, L.dev b⟩
  | .scratch => ⟨L.scratchBase, L.len, L.scratchDev⟩

@[simp] theorem desc_len (p : Place) : (L.desc p).nadLength = L.len := by
  cases p <;> rfl

variable {L}

variable {p q : Place}

theorem desc_idx (hp : L.Ok p) : req.areaDescs[L.idx p]? = some (L.desc p) := by
  cases p with
  | slot b k => exact L.slot_desc b k hp
  | scratch => exact L.scratch_desc

theorem area_pos (hp : L.Ok p) : req.imageAreas[L.pos p]? = some (L.idx p) := by
  cases p with
  | slot b k => exact L.slot_area b k hp
  | scratch => exact L.scratch_area

theorem pos_lt (hp : L.Ok p) : L.pos p < req.imageAreas.length := by
  have h := area_pos hp
  exact (List.getElem?_eq_some_iff.mp h).1

theorem idx_inj (hp : L.Ok p) (hq : L.Ok q) (h : L.idx p = L.idx q) : p = q := by
  cases p with
  | slot b k =>
    cases q with
    | slot c l =>
      cases b <;> cases c
      · simp only [idx] at h
        rw [show k = l by omega]
      · exact absurd h (L.slots_apart k l hp hq)
      · exact absurd h.symm (L.slots_apart l k hq hp)
      · simp only [idx] at h
        rw [show k = l by omega]
    | scratch => exact absurd h (L.scratch_apart b k hp)
  | scratch =>
    cases q with
    | slot c l => exact absurd h.symm (L.scratch_apart c l hq)
    | scratch => rfl

theorem pos_inj (hp : L.Ok p) (hq : L.Ok q) (h : L.pos p = L.pos q) : p = q := by
  apply idx_inj hp hq
  have h1 := area_pos hp
  rw [h, area_pos hq] at h1
  exact (some.inj h1).symm

theorem exists_place {i : Nat} (hi : i < req.imageAreas.length) : ∃ p, L.Ok p ∧ L.pos p = i := by
  rcases L.cover i hi with h | ⟨b, k, hk, h⟩
  · exact ⟨.scratch, trivial, h.symm⟩
  · exact ⟨.slot b k, hk, h.symm⟩

theorem desc_apart (hp : L.Ok p) (hq : L.Ok q) (h : p ≠ q) :
    (L.desc p).Apart (L.desc q) :=
  L.apart _ _ _ _ (desc_idx hp) (desc_idx hq) fun he => h (idx_inj hp hq he)

theorem findImageAreaIdx (hp : L.Ok p) : bootFindImageAreaIdx req (L.idx p) = some (L.pos p) := by
  unfold bootFindImageAreaIdx
  rw [List.findIdx?_eq_some_iff_getElem]
  refine ⟨pos_lt hp, ?_, ?_⟩
  · have h := (List.getElem?_eq_some_iff.mp (area_pos hp)).2
    simp [h]
  intro j hj
  have hp' := (List.getElem?_eq_some_iff.mp (area_pos hp)).2
  simp only [beq_iff_eq, ← hp']
  intro he
  have := (List.Nodup.getElem_inj_iff L.nodup).mp he
  omega

end Layout

/-! ## What a place holds -/

section Contents

variable {req : BootReq} (L : Layout req)

/-- The byte at an offset of a place. -/
def Layout.byte (d : Disk) (p : Place) (o : Nat) : UInt8 :=
  d.flash (L.desc p).nadFlashId ((L.desc p).nadOffset + o)

/-- A place holds the given bytes. -/
def Layout.Holds (d : Disk) (p : Place) (c : Nat → UInt8) : Prop :=
  ∀ o, o < L.len → L.byte d p o = c o

/-- Two disks with the same files and the same bytes at every place but `q`. -/
structure Layout.AgreeOff (q : Place) (d d' : Disk) : Prop where
  status : d'.status = d.status
  test : d'.test = d.test
  main : d'.main = d.main
  bytes : ∀ p, L.Ok p → p ≠ q → ∀ o, o < L.len → L.byte d' p o = L.byte d p o

variable {L}

theorem Layout.AgreeOff.refl (q : Place) (d : Disk) : L.AgreeOff q d d :=
  ⟨rfl, rfl, rfl, fun _ _ _ _ _ => rfl⟩

variable {q p : Place}

theorem Layout.AgreeOff.trans {d d' d'' : Disk}
    (h : L.AgreeOff q d d') (h' : L.AgreeOff q d' d'') : L.AgreeOff q d d'' :=
  ⟨h'.status.trans h.status, h'.test.trans h.test, h'.main.trans h.main,
    fun p hp hq o ho => (h'.bytes p hp hq o ho).trans (h.bytes p hp hq o ho)⟩

theorem Layout.AgreeOff.holds {d d' : Disk} {c : Nat → UInt8} (h : L.AgreeOff q d d') (hp : L.Ok p)
    (hq : p ≠ q) (hc : L.Holds d p c) :
    L.Holds d' p c :=
  fun o ho => (h.bytes p hp hq o ho).trans (hc o ho)

/-- A byte of one place is no byte of another. -/
theorem Layout.apart_addr (hp : L.Ok p) (hq : L.Ok q) (h : p ≠ q) {o a : Nat} (ho : o < L.len)
    (ha : (L.desc q).nadOffset ≤ a ∧ a < (L.desc q).nadOffset + L.len) :
    ¬ ((L.desc p).nadFlashId = (L.desc q).nadFlashId ∧ (L.desc p).nadOffset + o = a) := by
  rintro ⟨hf, rfl⟩
  have hap := Layout.desc_apart hp hq h
  simp only [AreaDesc.Apart, Layout.desc_len] at hap
  rcases hap with h1 | h1 | h1
  · exact h1 hf
  · omega
  · omega

theorem erase_agreeOff (hq : L.Ok q) (d : Disk) : L.AgreeOff q d
      (d.erase (L.desc q).nadFlashId (L.desc q).nadOffset L.len) := by
  refine ⟨rfl, rfl, rfl, fun p hp hne o ho => ?_⟩
  simp only [Layout.byte, Disk.erase]
  rw [if_neg]
  rintro ⟨hf, h1, h2⟩
  exact Layout.apart_addr hp hq hne ho ⟨h1, h2⟩ ⟨hf, rfl⟩

theorem erase_holds (q : Place) (d : Disk) :
    L.Holds (d.erase (L.desc q).nadFlashId (L.desc q).nadOffset L.len) q fun _ => 0xff := by
  intro o ho
  simp only [Layout.byte, Disk.erase]
  rw [if_pos ⟨trivial, by omega, by omega⟩]

theorem write_agreeOff (hq : L.Ok q) (d : Disk) {off : Nat}
    {data : List UInt8} (h : off + data.length ≤ L.len) : L.AgreeOff q d
      (d.write (L.desc q).nadFlashId ((L.desc q).nadOffset + off) data) := by
  refine ⟨rfl, rfl, rfl, fun p hp hne o ho => ?_⟩
  simp only [Layout.byte, Disk.write]
  rw [if_neg]
  rintro ⟨hf, h1, h2⟩
  exact Layout.apart_addr hp hq hne ho ⟨by omega, by omega⟩ ⟨hf, rfl⟩

end Contents

/-! ## Erasing and copying a place -/

section Operations

variable {req : BootReq} {L : Layout req}

variable {s : St} {p q : Place} {Q : Post St BootErr Unit}

theorem wp_index {α : Type} {l : List α} {i : Nat} {a : α} {Q : Post St BootErr α}
    (h : l[i]? = some a) (hQ : Q.ok a s) : Wp (index l i) Q s := by
  unfold index
  rw [h]
  exact .pure hQ

theorem wp_imageAreaIdx (hp : L.Ok p) {Q : Post St BootErr Nat}
    (hQ : Q.ok (L.pos p) s) : Wp (imageAreaIdx req (L.idx p)) Q s := by
  unfold imageAreaIdx
  rw [Layout.findImageAreaIdx hp]
  exact .pure hQ

theorem wp_bootEraseArea (hq : L.Ok q) (hcut : Q.cut s)
    (hok : ∀ d', L.AgreeOff q s.disk d' → L.Holds d' q (fun _ => 0xff) →
      Q.ok () { s with disk := d' }) : Wp (bootEraseArea req (L.idx q)) Q s := by
  refine .bind (wp_index (Layout.desc_idx hq) ?_)
  simp only [Layout.desc_len]
  exact .persist hcut (hok _ (erase_agreeOff hq s.disk) (erase_holds q s.disk))

/-- The copy loop from an offset on: what lies before the offset is copied,
what lies after it is still erased. -/
theorem wp_bootCopyAreaLoop (hp : L.Ok p) (hq : L.Ok q) (hne : p ≠ q) {s0 : St}
    (hcut : ∀ d', L.AgreeOff q s0.disk d' → Q.cut { s0 with disk := d' })
    (hok : ∀ d', L.AgreeOff q s0.disk d' →
      L.Holds d' q (L.byte s0.disk p) → Q.ok () { s0 with disk := d' }) :
    ∀ fuel off d, L.len < fuel + off → off ≤ L.len → L.AgreeOff q s0.disk d →
      (∀ o, o < off → L.byte d q o = L.byte s0.disk p o) →
      (∀ o, off ≤ o → o < L.len → L.byte d q o = 0xff) →
      Wp (bootCopyAreaLoop (L.desc p) (L.desc q) fuel off) Q { s0 with disk := d } := by
  intro fuel
  induction fuel with
  | zero => intro off d hf hle; omega
  | succ n ih =>
    intro off d hf hle hag hdone hrest
    simp only [bootCopyAreaLoop, Layout.desc_len]
    split
    · next hlt =>
      -- One chunk: it is not empty and does not pass the end of the area.
      generalize hc : (if L.len - off > copyBufSz then copyBufSz
        else L.len - off) = c
      have hc1 : 0 < c ∧ off + c ≤ L.len := by
        rw [← hc]
        split <;> simp only [copyBufSz] at * <;> omega
      refine .bind (.get ?_)
      simp only
      have hlen : (d.read (L.desc p).nadFlashId ((L.desc p).nadOffset + off) c).length = c := by
        simp [Disk.read]
      refine .bind ?_
      refine .bind (.get ?_)
      refine .bind (.assert ?_ ?_)
      · simp only [Disk.erased, List.all_eq_true, List.mem_range, hlen, beq_iff_eq]
        intro i hi
        have := hrest (off + i) (by omega) (by omega)
        simpa [Layout.byte, add_assoc] using this
      refine .persist (hcut d hag) ?_
      refine ih (off + c) _ (by omega) (by omega)
        (hag.trans (write_agreeOff hq d (by omega))) ?_ ?_
      · intro o ho
        simp only [Layout.byte, Disk.write, hlen]
        by_cases h : off ≤ o
        · rw [if_pos ⟨trivial, by omega, by omega⟩]
          have hsrc := hag.bytes p hp hne o (by omega)
          simp only [Layout.byte] at hsrc
          rw [← hsrc]
          simp only [Disk.read, List.getD_eq_getElem?_getD, List.getElem?_map]
          rw [List.getElem?_range (by omega)]
          simp only [map_some, getD_some]
          congr 1
          omega
        · rw [if_neg (by omega)]
          exact hdone o (by omega)
      · intro o ho hol
        simp only [Layout.byte, Disk.write, hlen]
        rw [if_neg (by omega)]
        exact hrest o (by omega) hol
    · next hge =>
      have hoff : off = L.len := by omega
      subst hoff
      exact .pure (hok d hag fun o ho => hdone o ho)

theorem wp_bootCopyArea (hp : L.Ok p) (hq : L.Ok q) (hne : p ≠ q)
    (her : L.Holds s.disk q fun _ => 0xff)
    (hcut : ∀ d', L.AgreeOff q s.disk d' → Q.cut { s with disk := d' })
    (hok : ∀ d', L.AgreeOff q s.disk d' →
      L.Holds d' q (L.byte s.disk p) → Q.ok () { s with disk := d' }) :
    Wp (bootCopyArea req (L.idx p) (L.idx q)) Q s := by
  refine .bind (wp_index (Layout.desc_idx hp) ?_)
  refine .bind (wp_index (Layout.desc_idx hq) ?_)
  refine .bind (.assert (by simp) ?_)
  exact wp_bootCopyAreaLoop hp hq hne hcut hok _ 0 s.disk (by simp) (by omega)
    (.refl q s.disk) (fun o ho => absurd ho (Nat.not_lt_zero o)) (fun o _ ho => her o ho)

end Operations

end Larva.Boot
