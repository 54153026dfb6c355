import Larva.Boot.Layout

/-!
# Moving image parts

A placement says at which place each part of each image is. The status
entries record a placement, the flash keeps one, and every step of a swap is
the same step: copy one part to a free place, write the status, go on. So
the two routines of the loader that move areas are shown once for placements
in general. At each storage operation they make, the disk still keeps the
last placement that was recorded: this is what a reset finds.
-/

namespace Larva.Boot

open Larva.Crash List

/-- Where each part of each image is; image 0 is `false`. -/
abbrev Placement := Bool → Nat → Place

/-- One part goes to another place. -/
def Placement.move (W : Placement) (b : Bool) (k : Nat) (q : Place) :
    Placement :=
  fun c l => if c = b ∧ l = k then q else W c l

theorem Placement.move_same (W : Placement) (b : Bool) (k : Nat) (q : Place) :
    W.move b k q b k = q := if_pos ⟨rfl, rfl⟩

theorem Placement.move_other (W : Placement) {b c : Bool} {k l : Nat}
    (q : Place) (h : ¬ (c = b ∧ l = k)) : W.move b k q c l = W c l := if_neg h

section Placed

variable {req : BootReq} (L : Layout req)

/-- Images of `n b` parts each, with the given bytes. -/
structure Images where
  n : Bool → Nat
  byte : Bool → Nat → Nat → UInt8
  size : Bool → Nat

variable {L} (I : Images)

/-- No part of either image is at this place. -/
def Free (W : Placement) (p : Place) : Prop := ∀ b k, k < I.n b → W b k ≠ p

variable (L) in
/-- Every part is at a place of the layout, no two at the same. -/
structure Proper (W : Placement) : Prop where
  ok : ∀ b k, k < I.n b → L.Ok (W b k)
  inj : ∀ b k c l, k < I.n b → l < I.n c → W b k = W c l → b = c ∧ k = l

variable (L) in
/-- Status entries that record a placement. -/
structure Records (W : Placement) (es : List BootStatusEntry) : Prop where
  len : es.length = req.imageAreas.length
  part : ∀ b k, k < I.n b → es[L.pos (W b k)]? = some ⟨b.toNat, k⟩
  free : ∀ p, L.Ok p → Free I W p → es[L.pos p]? = some .none

variable (L) in
/-- The flash holds every part where the placement says. -/
def Keeps (W : Placement) (d : Disk) : Prop :=
  ∀ b k, k < I.n b → L.Holds d (W b k) (I.byte b k)

variable {I}

variable {W : Placement} {b : Bool} {k : Nat} {q : Place} {d d' : Disk} {s s' : St}
  {Q : Post St BootErr Unit} {es : List BootStatusEntry}

theorem Proper.move (hW : Proper L I W)
    (hq : L.Ok q) (hf : Free I W q) : Proper L I (W.move b k q) := by
  constructor
  · intro c l hl
    by_cases h : c = b ∧ l = k
    · rw [h.1, h.2, W.move_same]
      exact hq
    · rw [W.move_other q h]
      exact hW.ok c l hl
  · intro c l c' l' hl hl' he
    by_cases h : c = b ∧ l = k <;> by_cases h' : c' = b ∧ l' = k
    · exact ⟨h.1.trans h'.1.symm, h.2.trans h'.2.symm⟩
    · rw [h.1, h.2, W.move_same, W.move_other q h'] at he
      exact absurd he.symm (hf c' l' hl')
    · rw [h'.1, h'.2, W.move_same, W.move_other q h] at he
      exact absurd he (hf c l hl)
    · rw [W.move_other q h, W.move_other q h'] at he
      exact hW.inj c l c' l' hl hl' he

theorem Records.move (hR : Records L I W es) (hW : Proper L I W) (hk : k < I.n b) (hq : L.Ok q)
    (hf : Free I W q) : Records L I (W.move b k q)
      ((es.set (L.pos (W b k)) .none).set (L.pos q) ⟨b.toNat, k⟩) := by
  have hlt : ∀ p, L.Ok p → L.pos p < es.length := by
    intro p hp
    rw [hR.len]
    exact Layout.pos_lt hp
  have hne : ∀ {p p'}, L.Ok p → L.Ok p' → p ≠ p' → L.pos p ≠ L.pos p' :=
    fun hp hp' h he => h (Layout.pos_inj hp hp' he)
  have hWk := hW.ok b k hk
  constructor
  · simp [hR.len]
  · intro c l hl
    by_cases h : c = b ∧ l = k
    · obtain ⟨rfl, rfl⟩ := h
      rw [W.move_same, getElem?_set_self (by simpa using hlt q hq)]
    rw [W.move_other q h]
    have hcl := hW.ok c l hl
    rw [getElem?_set_ne (hne hq hcl fun he => hf c l hl he.symm),
      getElem?_set_ne (hne hWk hcl fun he =>
        h ((hW.inj b k c l hk hl he).imp Eq.symm Eq.symm))]
    exact hR.part c l hl
  · intro p hp hfree
    have hpq : p ≠ q := fun he => hfree b k hk (by rw [W.move_same, he])
    rw [getElem?_set_ne (hne hq hp hpq.symm)]
    by_cases h : p = W b k
    · rw [h, getElem?_set_self (by simpa using hlt _ hWk)]
    · rw [getElem?_set_ne (hne hWk hp (Ne.symm h))]
      refine hR.free p hp fun c l hl he => ?_
      by_cases hc : c = b ∧ l = k
      · exact h (by rw [← he, hc.1, hc.2])
      · exact hfree c l hl (by rw [W.move_other q hc, he])

/-- `boot_find_image_part` finds a part where it is recorded. -/
theorem Records.find (hR : Records L I W es) (hW : Proper L I W) (hk : k < I.n b) :
    bootFindImagePart req es b.toNat k = some (L.idx (W b k)) := by
  have hok := hW.ok b k hk
  have hlt := Layout.pos_lt hok
  have hle : L.pos (W b k) < es.length := by rw [hR.len]; exact hlt
  have harea := (List.getElem?_eq_some_iff.mp (Layout.area_pos hok)).2
  have hent := (List.getElem?_eq_some_iff.mp (hR.part b k hk)).2
  unfold bootFindImagePart
  have : (req.imageAreas.zip es).find? (fun p =>
      p.2.bseImageNum == b.toNat && p.2.bsePartNum == k) =
      some (L.idx (W b k), ⟨b.toNat, k⟩) := by
    rw [find?_eq_some_iff_getElem]
    refine ⟨by simp, L.pos (W b k), by simp [hlt, hle], ?_, ?_⟩
    · simp [getElem_zip, harea, hent]
    intro j hj
    have hjl : j < req.imageAreas.length := by omega
    obtain ⟨p, hp, hpj⟩ := L.exists_place hjl
    -- An entry before the part's own is another part's, or no part's.
    by_cases hfree : Free I W p
    · have he := hR.free p hp hfree
      rw [hpj] at he
      have he' := (List.getElem?_eq_some_iff.mp he).2
      simp only [getElem_zip, he', BootStatusEntry.none, bootImageNumNone]
      cases b <;> simp
    simp only [Free, not_forall, not_not] at hfree
    obtain ⟨c, l, hl, rfl⟩ := hfree
    have he := hR.part c l hl
    rw [hpj] at he
    have he' := (List.getElem?_eq_some_iff.mp he).2
    simp only [getElem_zip, he']
    by_cases h1 : c.toNat = b.toNat
    · have hcb : c = b := by cases c <;> cases b <;> simp_all
      subst hcb
      by_cases h2 : l = k
      · subst h2
        omega
      · simp [h2]
    · simp [h1]
  rw [this]
  rfl

theorem Keeps.agreeOff (hK : Keeps L I W d) (hW : Proper L I W) (hf : Free I W q)
    (h : L.AgreeOff q d d') : Keeps L I W d' :=
  fun b k hk => h.holds (hW.ok b k hk) (hf b k hk) (hK b k hk)

theorem Keeps.move (hK : Keeps L I W d)
    (hq : L.Holds d q (I.byte b k)) : Keeps L I (W.move b k q) d := by
  intro c l hl
  by_cases h : c = b ∧ l = k
  · rw [h.1, h.2, W.move_same]
    exact hq
  · rw [W.move_other q h]
    exact hK c l hl

variable (L I) in
/-- What a reset finds: the flash keeps a placement, and the status file
records it, or there is none and the images are where they were. -/
structure Saved (W : Placement) (d : Disk) : Prop where
  keeps : Keeps L I W d
  status : (d.status = .none ∧ ∀ b k, k < I.n b → W b k = .slot b k) ∨
    ∃ es, d.status = some ⟨I.size false, I.size true, es⟩ ∧ Records L I W es

variable (L I) in
/-- The same with the loader's statics: what holds between two moves. -/
structure Placed (W : Placement) (s : St) : Prop where
  saved : Saved L I W s.disk
  records : Records L I W s.entries
  img1 : s.bsImg1Length = I.size false
  img2 : s.bsImg2Length = I.size true

theorem Saved.agreeOff (hS : Saved L I W d) (hW : Proper L I W) (hf : Free I W q)
    (h : L.AgreeOff q d d') : Saved L I W d' :=
  ⟨hS.keeps.agreeOff hW hf h, by rw [h.status]; exact hS.status⟩

theorem Placed.agreeOff (hS : Placed L I W s) (hW : Proper L I W) (hf : Free I W q)
    (h : L.AgreeOff q s.disk d') : Placed L I W { s with disk := d' } :=
  { hS with saved := hS.saved.agreeOff hW hf h }

/-! ## One move -/

/-- The vector files are as in another state. -/
def SameVect (s s' : St) : Prop :=
  s'.disk.test = s.disk.test ∧ s'.disk.main = s.disk.main ∧
    s'.imgHdr0 = s.imgHdr0 ∧ s'.imgHdr1 = s.imgHdr1

theorem SameVect.trans {s'' : St} (h : SameVect s s') (h' : SameVect s' s'') : SameVect s s'' :=
  ⟨h'.1.trans h.1, h'.2.1.trans h.2.1, h'.2.2.1.trans h.2.2.1, h'.2.2.2.trans h.2.2.2⟩

/-- A cut that leaves `C` and the vector files of `s` is provided for. -/
def Guarded (C : Disk → Prop) (s : St) (Q : Post St BootErr Unit) : Prop :=
  ∀ s', C s'.disk → SameVect s s' → Q.cut s'

theorem Guarded.later {C C' : Disk → Prop} (h : Guarded C s Q) (hv : SameVect s s')
    (hC : ∀ d, C' d → C d) : Guarded C' s' Q :=
  fun s1 h1 hv1 => h s1 (hC _ h1) (hv.trans hv1)

/-- The entries after part `k` of image `b` has gone from one position to
another. -/
def St.enter (s : St) (i j : Nat) (b : Bool) (k : Nat) : St :=
  { s with entries := (s.entries.set i .none).set j ⟨b.toNat, k⟩ }

section

variable (hW : Proper L I W) (hk : k < I.n b) (hq : L.Ok q) (hf : Free I W q) {rest : BootM Unit}

include hW hk in
/-- The place a part leaves is free afterwards. -/
theorem Free.move_old (hf : Free I W q) : Free I (W.move b k q) (W b k) := by
  intro c l hl
  by_cases h : c = b ∧ l = k
  · rw [h.1, h.2, W.move_same]
    exact fun he => hf b k hk he.symm
  · rw [W.move_other q h]
    intro he
    obtain ⟨h1, h2⟩ := hW.inj c l b k hl hk he
    exact h ⟨h1, h2⟩

include hW hk hq hf

/-- Erase a free place and copy a part to it. The placement is kept
throughout, and the part is there twice at the end. -/
theorem wp_eraseCopy (hS : Placed L I W s) (hcut : Guarded (Saved L I W) s Q)
    (hok : ∀ s', Placed L I W s' → SameVect s s' →
      L.Holds s'.disk q (I.byte b k) → Wp rest Q s') : Wp (do
      bootEraseArea req (L.idx q)
      bootCopyArea req (L.idx (W b k)) (L.idx q)
      rest) Q s := by
  refine .bind (wp_bootEraseArea hq (hcut s hS.saved ⟨rfl, rfl, rfl, rfl⟩) ?_)
  intro d1 h1 he
  have hS1 := hS.agreeOff hW hf h1
  refine .bind (wp_bootCopyArea (hW.ok b k hk) hq (hf b k hk) he ?_ ?_)
  · intro d2 h2
    exact hcut _ (hS1.agreeOff hW hf h2).saved
      ⟨h2.test.trans h1.test, h2.main.trans h1.main, rfl, rfl⟩
  · intro d2 h2 hc
    refine hok _ (hS1.agreeOff hW hf h2) ⟨h2.test.trans h1.test, h2.main.trans h1.main, rfl, rfl⟩ ?_
    intro o ho
    rw [hc o ho]
    exact hS1.saved.keeps b k hk o ho

/-- The status is written once a part has been copied and entered. -/
theorem wp_recordMove (hS : Placed L I W s) (hcopy : L.Holds s.disk q (I.byte b k))
    (hcut : Guarded (Saved L I W) s Q)
    (hok : ∀ s', Placed L I (W.move b k q) s' → SameVect s s' → Q.ok () s') :
    Wp bootWriteStatus Q (s.enter (L.pos (W b k)) (L.pos q) b k) := by
  have hR := hS.records.move hW hk hq hf
  refine .persist (hcut _ hS.saved ⟨rfl, rfl, rfl, rfl⟩) (hok _ ⟨⟨hS.saved.keeps.move hcopy,
    .inr ⟨_, ?_, hR⟩⟩, hR, hS.img1, hS.img2⟩ ⟨rfl, rfl, rfl, rfl⟩)
  simp only [St.enter, hS.img1, hS.img2]

/-- `boot_move_area` of a part to a free place. -/
theorem wp_bootMoveArea (hk' : k < 256) (hS : Placed L I W s)
    (hcut : Guarded (fun d => Saved L I W d ∨ Saved L I (W.move b k q) d) s Q)
    (hok : ∀ s', Placed L I (W.move b k q) s' → SameVect s s' → Q.ok () s') :
    Wp (bootMoveArea req (L.idx (W b k)) (L.idx q) b.toNat k) Q s := by
  refine .bind (wp_imageAreaIdx (hW.ok b k hk) ?_)
  refine .bind (wp_imageAreaIdx hq ?_)
  refine wp_eraseCopy hW hk hq hf hS (hcut.later ⟨rfl, rfl, rfl, rfl⟩ fun _ => .inl) ?_
  intro s1 hS1 hv1 hc1
  refine .bind (.modify ?_)
  refine .bind (.modify ?_)
  rw [Nat.mod_eq_of_lt hk']
  refine .bind (wp_recordMove hW hk hq hf hS1 hc1 (hcut.later hv1 fun _ => .inl) ?_)
  intro s2 hS2 hv2
  have hv := hv1.trans hv2
  refine wp_bootEraseArea (hW.ok b k hk) (hcut _ (.inr hS2.saved) hv) ?_
  intro d3 h3 _
  exact hok _ (hS2.agreeOff (hW.move hq hf) (Free.move_old hW hk hf) h3)
    (hv.trans ⟨h3.test, h3.main, rfl, rfl⟩)

/-- One leg of `boot_swap_areas`, up to the write of the status: a part is
copied, its entry is read, put at its new place and cleared at the old one. -/
theorem wp_swapLeg (hS : Placed L I W s) (hcut : Guarded (Saved L I W) s Q)
    (hok : ∀ s', Placed L I W s' → SameVect s s' → L.Holds s'.disk q (I.byte b k) →
      Wp rest Q (s'.enter (L.pos (W b k)) (L.pos q) b k)) : Wp (do
      bootEraseArea req (L.idx q)
      bootCopyArea req (L.idx (W b k)) (L.idx q)
      let s ← Prog.get
      let e ← index s.entries (L.pos (W b k))
      setEntry (L.pos q) e
      setEntry (L.pos (W b k)) .none
      rest) Q s := by
  refine wp_eraseCopy hW hk hq hf hS hcut fun s1 hS1 hv1 hc1 => ?_
  refine .bind (.get ?_)
  refine .bind (wp_index (hS1.records.part b k hk) ?_)
  refine .bind (.modify ?_)
  refine .bind (.modify ?_)
  have hne : L.pos (W b k) ≠ L.pos q := fun he =>
    hf b k hk (Layout.pos_inj (hW.ok b k hk) hq he)
  simpa only [St.enter, set_comm _ _ hne] using hok s1 hS1 hv1 hc1

end

/-- The three placements a swap of parts `(b, k)` and `(c, l)` passes through
after the one it starts from. -/
def Placement.swap₁ (W : Placement) (c : Bool) (l : Nat) : Placement :=
  W.move c l .scratch

def Placement.swap₂ (W : Placement) (b : Bool) (k : Nat) (c : Bool)
    (l : Nat) : Placement :=
  (W.swap₁ c l).move b k (W c l)

def Placement.swap₃ (W : Placement) (b : Bool) (k : Nat) (c : Bool)
    (l : Nat) : Placement :=
  (W.swap₂ b k c l).move c l (W b k)

/-- `boot_swap_areas` on the areas of two parts, the scratch area being
free. -/
theorem wp_bootSwapAreas (hW : Proper L I W) {c : Bool}
    {l : Nat} (hk : k < I.n b) (hl : l < I.n c) (hbc : ¬ (b = c ∧ k = l))
    (hf : Free I W .scratch) (hS : Placed L I W s)
    (hcut : Guarded (fun d => Saved L I W d ∨ Saved L I (W.swap₁ c l) d ∨
      Saved L I (W.swap₂ b k c l) d) s Q)
    (hok : ∀ s', Placed L I (W.swap₃ b k c l) s' → SameVect s s' → Q.ok () s') :
    Wp (bootSwapAreas req (L.idx (W b k)) (L.idx (W c l))) Q s := by
  have hsc : L.Ok .scratch := trivial
  have hbk := hW.ok b k hk
  have hcl := hW.ok c l hl
  have hbk_sc : W b k ≠ .scratch := hf b k hk
  have hcl_sc : W c l ≠ .scratch := hf c l hl
  have hne : W b k ≠ W c l := fun he => hbc (hW.inj b k c l hk hl he)
  have hidx : ∀ {p p'}, L.Ok p → L.Ok p' → p ≠ p' → L.idx p ≠ L.idx p' :=
    fun hp hp' h he => h (Layout.idx_inj hp hp' he)
  -- The placement after each leg, and what is free in it.
  have hW1 : Proper L I (W.swap₁ c l) := hW.move hsc hf
  have hb1 : W.swap₁ c l b k = W b k := W.move_other _ hbc
  have hf1 : Free I (W.swap₁ c l) (W c l) := Free.move_old hW hl hf
  have hW2 : Proper L I (W.swap₂ b k c l) := hW1.move hcl hf1
  have hc2 : W.swap₂ b k c l c l = .scratch := by
    unfold Placement.swap₂
    rw [(W.swap₁ c l).move_other _ fun h => hbc ⟨h.1.symm, h.2.symm⟩]
    exact W.move_same c l .scratch
  have hf2 : Free I (W.swap₂ b k c l) (W b k) := by
    have h := Free.move_old hW1 hk hf1
    rw [hb1] at h
    exact h
  refine .bind (.assert (bne_iff_ne.mpr (hidx hbk hcl hne)) ?_)
  refine .bind (.assert (bne_iff_ne.mpr (hidx hbk hsc hbk_sc)) ?_)
  refine .bind (.assert (bne_iff_ne.mpr (hidx hcl hsc hcl_sc)) ?_)
  refine .bind (wp_imageAreaIdx hbk ?_)
  refine .bind (wp_imageAreaIdx hcl ?_)
  refine .bind (wp_imageAreaIdx hsc ?_)
  -- The second area's part goes to the scratch area.
  refine wp_swapLeg hW hl hsc hf hS (hcut.later ⟨rfl, rfl, rfl, rfl⟩ fun _ => .inl) ?_
  intro s1 hS1 hv1 hc1
  refine .bind (wp_recordMove hW hl hsc hf hS1 hc1 (hcut.later hv1 fun _ => .inl) ?_)
  intro s2 hS2 hv2
  have hv2 := hv1.trans hv2
  -- The first area's part takes its place.
  rw [← hb1]
  refine wp_swapLeg hW1 hk hcl hf1 hS2 (hcut.later hv2 fun _ h => .inr (.inl h)) ?_
  intro s3 hS3 hv3 hc3
  have hv3 := hv2.trans hv3
  refine .bind (wp_recordMove hW1 hk hcl hf1 hS3 hc3 (hcut.later hv3 fun _ h => .inr (.inl h)) ?_)
  intro s4 hS4 hv4
  have hv4 := hv3.trans hv4
  -- And the part in the scratch area goes where that one was.
  rw [hb1, show req.scratchAreaIdx = L.idx (W.swap₂ b k c l c l) by rw [hc2]; rfl,
    show L.pos .scratch = L.pos (W.swap₂ b k c l c l) by rw [hc2]]
  refine wp_swapLeg hW2 hl hbk hf2 hS4 (hcut.later hv4 fun _ h => .inr (.inr h)) ?_
  intro s5 hS5 hv5 hc5
  have hv5 := hv4.trans hv5
  exact wp_recordMove hW2 hl hbk hf2 hS5 hc5 (hcut.later hv5 fun _ h => .inr (.inr h))
    fun s' h hv => hok s' h (hv5.trans hv)

end Placed

end Larva.Boot
