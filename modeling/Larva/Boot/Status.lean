import Larva.Boot.Fill

/-!
# Reading the state of the slots

What `boot_go` does before and between copies: it reads the status file, the
image headers and the boot vectors, and builds the status that describes two
images in their slots. Each of these reads back what the placement says, and
that is all the recovery argument needs of it.
-/

namespace Larva.Boot

open Larva.Crash List

variable {s : St}

theorem wp_bootSlotAddr {req : BootReq} {L : Layout req} {b : Bool} (hc : 0 < L.count b)
    {Q : Post St BootErr AreaDesc} (hQ : Q.ok (L.desc (.slot b 0)) s) :
    Wp (bootSlotAddr req b.toNat) Q s := by
  refine .bind (wp_index (L.slotAreas_eq b) ?_)
  exact wp_index (Layout.desc_idx (p := .slot b 0) hc) hQ

/-! ## The default status -/

section Build

variable {req : BootReq} {L : Layout req} {I : Images} {b : Bool} {size : Nat}
  {Q : Post St BootErr Unit} {s : St}

/-- Entries `es'` are `es` with the parts of image `b` from `k` on entered in
slot `b`. -/
structure Entered (L : Layout req) (b : Bool) (k n : Nat)
    (es es' : List BootStatusEntry) : Prop where
  len : es'.length = es.length
  part : ∀ l, k ≤ l → l < n → es'[L.slotPos b + l]? = some ⟨b.toNat, l⟩
  other : ∀ j, (∀ l, k ≤ l → l < n → j ≠ L.slotPos b + l) → es'[j]? = es[j]?

theorem wp_bootBuildStatusLoop (hfit : L.parts size ≤ L.count b) :
    ∀ fuel k s, L.parts size < fuel + k → k ≤ L.parts size →
      s.entries.length = req.imageAreas.length → (∀ l, k ≤ l → l < L.parts size →
        s.entries[L.slotPos b + l]? = some .none) →
      (∀ es, Entered L b k (L.parts size) s.entries es → Q.ok () { s with entries := es }) →
      Wp (bootBuildStatusLoop req b.toNat size fuel (L.slotPos b + k)
        (L.start b + k) k (k * L.len)) Q s := by
  intro fuel
  induction fuel with
  | zero => intro k s hf hk; omega
  | succ n ih =>
    intro k s hf hk hlen hnone hok
    unfold bootBuildStatusLoop
    split
    · next hlt =>
      have hkn := Layout.lt_parts.mpr hlt
      have hkc : L.Ok (.slot b k) := lt_of_lt_of_le hkn hfit
      have hpos := Layout.pos_lt hkc
      have h256 : k < 256 := by
        have := L.num_le
        simp only [Layout.pos] at hpos
        omega
      refine .bind (.get ?_)
      refine .bind (wp_index (hnone k (le_refl k) hkn) ?_)
      refine .bind (.assert rfl ?_)
      refine .bind (.modify ?_)
      refine .bind (wp_index (Layout.desc_idx hkc) ?_)
      rw [Nat.mod_eq_of_lt h256]
      simp only [Layout.desc_len]
      rw [Layout.next_offset hkc, add_assoc, add_assoc]
      refine ih (k + 1) _ (by omega) hkn (by simpa using hlen) ?_ ?_
      · intro l hl hln
        rw [getElem?_set_ne (by omega)]
        exact hnone l (by omega) hln
      intro es hes
      refine hok es ⟨by simpa using hes.len, ?_, ?_⟩
      · intro l hl hln
        by_cases h : l = k
        · subst h
          rw [hes.other _ (fun m hm _ => by omega)]
          refine getElem?_set_self ?_
          rw [hlen]
          exact hpos
        · exact hes.part l (by omega) hln
      · intro j hj
        rw [hes.other j (fun l hl hln => hj l (by omega) hln)]
        exact getElem?_set_ne (hj k (le_refl k) hkn).symm
    · next hge =>
      have hkn : ¬ k < L.parts size := fun h => hge (Layout.lt_parts.mp h)
      refine .pure (hok s.entries ⟨rfl, ?_, fun _ _ => rfl⟩)
      omega

/-- The image area that `boot_build_status_one` starts from. -/
theorem Layout.findSlotArea (hc : 0 < L.count b) :
    (req.imageAreas.findIdx? fun a => (req.areaDescs[a]?).any fun d =>
      d.nadOffset == (L.desc (.slot b 0)).nadOffset &&
        d.nadFlashId == (L.desc (.slot b 0)).nadFlashId) =
      some (L.pos (.slot b 0)) := by
  have hp : L.Ok (.slot b 0) := hc
  have hpos := Layout.pos_lt hp
  have harea := (List.getElem?_eq_some_iff.mp (Layout.area_pos hp)).2
  rw [List.findIdx?_eq_some_iff_getElem]
  refine ⟨hpos, ?_, ?_⟩
  · rw [harea, Layout.desc_idx hp]
    simp
  intro j hj hm
  obtain ⟨q, hq, hqj⟩ := L.exists_place (lt_trans hj hpos)
  have hqa := (List.getElem?_eq_some_iff.mp (Layout.area_pos hq)).2
  simp only [hqj] at hqa
  rw [hqa, Layout.desc_idx hq] at hm
  -- The place it would stop at overlaps the slot's first area.
  have hne : q ≠ .slot b 0 := by
    rintro rfl
    omega
  have hap := Layout.desc_apart hq hp hne
  have h2 := L.len_pos
  simp only [Option.any_some, Bool.and_eq_true, beq_iff_eq] at hm
  simp only [AreaDesc.Apart, Layout.desc_len] at hap
  omega

theorem wp_bootBuildStatusOne (hfit : L.parts size ≤ L.count b) (hc : 0 < L.count b)
    (hlen : s.entries.length = req.imageAreas.length) (hnone : ∀ l, l < L.parts size →
      s.entries[L.slotPos b + l]? = some .none)
    (hok : ∀ es, Entered L b 0 (L.parts size) s.entries es → Q.ok () { s with entries := es }) :
    Wp (bootBuildStatusOne req b.toNat (L.desc (.slot b 0)) size) Q s := by
  have hp : L.Ok (.slot b 0) := hc
  have hnum : L.parts size ≤ req.numImageAreas := Layout.parts_le hfit
  unfold bootBuildStatusOne
  simp only [Layout.findSlotArea hc]
  refine .bind (wp_index (Layout.area_pos hp) ?_)
  have h := wp_bootBuildStatusLoop hfit (req.numImageAreas + 1) 0 s
    (by omega) (Nat.zero_le _) hlen (fun l _ hl => hnone l hl) hok
  simpa [Layout.pos, Layout.idx] using h

/-- Two images in their slots. -/
def inSlots : Placement := locate fun _ => .orig

theorem inSlots_eq (b : Bool) (k : Nat) : inSlots b k = .slot b k := by
  cases b <;> rfl

theorem wp_bootBuildStatus (hn : ∀ b, I.n b = L.parts (I.size b)) (hfit : ∀ b, I.n b ≤ L.count b)
    (hc : ∀ b, 0 < L.count b) (hm0 : s.imgHdr0.ihMagic = imageMagic)
    (hm1 : s.imgHdr1.ihMagic = imageMagic) (hs0 : s.imgHdr0.ihImgSize = I.size false)
    (hs1 : s.imgHdr1.ihImgSize = I.size true) (hok : ∀ es, Records L I inSlots es → Q.ok () { s with
      entries := es, bsImg1Length := I.size false,
      bsImg2Length := I.size true }) : Wp (bootBuildStatus req) Q s := by
  have hfit' : ∀ b, L.parts (I.size b) ≤ L.count b := fun b => by
    rw [← hn]; exact hfit b
  have hrep : ∀ {p}, L.Ok p → (List.replicate req.numImageAreas
      BootStatusEntry.none)[L.pos p]? = some .none := fun {p} hp => by
    rw [getElem?_replicate, if_pos]
    exact Layout.pos_lt hp
  have hslots : ∀ l m, l < I.n false → m < I.n true → L.slotPos false + l ≠ L.slotPos true + m := by
    intro l m hl hm he
    have := Layout.pos_inj (p := .slot false l) (q := .slot true m)
      (lt_of_lt_of_le hl (hfit false)) (lt_of_lt_of_le hm (hfit true)) he
    cases this
  refine .bind (.modify ?_)
  refine .bind (.get ?_)
  simp only [hm0, hm1, hs0, hs1, ImageHeader.statusLength, if_true]
  refine .bind (wp_bootSlotAddr (hc false) ?_)
  refine .bind (wp_bootBuildStatusOne (hfit' false)
    (hc false) (by simp [BootReq.numImageAreas]) ?_ ?_)
  · intro l hl
    exact hrep (p := .slot false l) (lt_of_lt_of_le hl (hfit' false))
  intro es0 h0
  refine .bind (wp_bootSlotAddr (hc true) ?_)
  refine wp_bootBuildStatusOne (hfit' true) (hc true)
    (by simp [h0.len, BootReq.numImageAreas]) ?_ ?_
  · intro m hm
    rw [h0.other _ (fun l _ hl he => hslots l m (by rw [hn]; exact hl)
      (by rw [hn]; exact hm) he.symm)]
    exact hrep (p := .slot true m) (lt_of_lt_of_le hm (hfit' true))
  intro es1 h1
  refine hok es1 ⟨?_, ?_, ?_⟩
  · rw [h1.len, h0.len]
    simp [BootReq.numImageAreas]
  · intro b k hk
    cases b
    · have h := h0.part k (Nat.zero_le k) (by rw [← hn]; exact hk)
      refine (h1.other _ fun m _ hm => ?_).trans h
      exact hslots k m hk (by rw [hn]; exact hm)
    · exact h1.part k (Nat.zero_le k) (by rw [← hn]; exact hk)
  · intro p hp hf
    have hne : ∀ b l, l < L.parts (I.size b) → L.pos p ≠ L.slotPos b + l := by
      intro b l hl he
      have hl' : l < I.n b := by rw [hn]; exact hl
      refine hf b l hl' ?_
      rw [inSlots_eq]
      exact Layout.pos_inj (lt_of_lt_of_le hl' (hfit b)) hp he.symm
    rw [h1.other _ (fun l _ hl => hne true l hl), h0.other _ (fun l _ hl => hne false l hl)]
    exact hrep hp

end Build

/-! ## The status file -/

section Read

variable {req : BootReq} {L : Layout req} {I : Images} {s : St} {Q : Post St BootErr Unit}

theorem wp_bootReadStatus_none (h : s.disk.status = .none) (hQ : Q.err .ebadstatus s) :
    Wp (bootReadStatus req) Q s := by
  refine .bind (.get ?_)
  simp only [h]
  exact .fail hQ

/-- A status that was written while images of some length were moved reads
back as it was written. -/
theorem wp_bootReadStatus_some {W : Placement} {es : List BootStatusEntry} (hR : Records L I W es)
    (hsz : ∀ b, 0 < I.size b ∧ I.size b < 0xffffffff)
    (h : s.disk.status = some ⟨I.size false, I.size true, es⟩) (hQ : Q.ok () { s with
      entries := es, bsImg1Length := I.size false,
      bsImg2Length := I.size true }) : Wp (bootReadStatus req) Q s := by
  have hlen : es.length = req.numImageAreas := hR.len
  have hst : ∀ b, statusLength (I.size b) = I.size b := fun b => by
    rw [statusLength, if_neg (ne_of_lt (hsz b).2)]
  have hentries : statusEntriesOk (I.size false) (I.size true) es = true := by
    have h0 := ne_of_gt (hsz false).1
    have h1 := ne_of_gt (hsz true).1
    simp [statusEntriesOk, h0, h1]
  refine .bind (.get ?_)
  simp only [h, hst, hlen, lt_irrefl, if_false]
  rw [take_of_length_le (le_of_eq hlen)]
  refine .bind (.modify ?_)
  simp only [hentries, if_true]
  exact .pure hQ

end Read

/-! ## Headers and vectors -/

/-- The bytes `readHeader` depends on. -/
theorem readHeader_congr {f g : Nat → UInt8} {a c : Nat} (h : ∀ i, i < 28 → f (a + i) = g (c + i)) :
    readHeader f a = readHeader g c := by
  have h16 : ∀ i, i + 2 ≤ 28 → u16le f (a + i) = u16le g (c + i) := by
    intro i hi
    simp only [u16le, add_assoc, h i (by omega), h (i + 1) (by omega)]
  have h32 : ∀ i, i + 4 ≤ 28 → u32le f (a + i) = u32le g (c + i) := by
    intro i hi
    simp only [u32le, add_assoc, h16 i (by omega), h16 (i + 2) (by omega)]
  have h0 := h32 0 (by omega)
  simp only [add_zero] at h0
  simp only [readHeader, h0, h32 4 (by omega), h32 8 (by omega),
    h32 12 (by omega), h32 16 (by omega), h 20 (by omega), h 21 (by omega),
    h16 22 (by omega), h32 24 (by omega)]

section Slots

variable {req : BootReq} (L : Layout req)

/-- The header at the start of a slot. -/
def Layout.header (d : Disk) (b : Bool) : ImageHeader :=
  readHeader (d.flash (L.dev b)) (L.base b)

variable {L}

/-- A slot is one stretch of flash: its byte `i` is in area `i / len`. -/
theorem Layout.flash_slot (d : Disk) (b : Bool) (i : Nat) : d.flash (L.dev b) (L.base b + i) =
      L.byte d (.slot b (i / L.len)) (i % L.len) := by
  simp only [Layout.byte, Layout.desc]
  rw [add_assoc, mul_comm, Nat.div_add_mod]

/-- A slot with the leading areas of another slot starts with its header. -/
theorem Layout.header_eq {d d' : Disk} {b c : Bool} {n : Nat} (hn : 28 ≤ n * L.len)
    (h : ∀ k, k < n → L.Holds d' (.slot c k) (L.byte d (.slot b k))) :
    L.header d' c = L.header d b := by
  refine readHeader_congr fun i hi => ?_
  rw [flash_slot, flash_slot]
  refine h _ (Nat.div_lt_of_lt_mul ?_) _ (Nat.mod_lt _ L.len_pos)
  rw [mul_comm]
  omega

end Slots

/-- The vectors name the version `v`, and not first the version `w`. -/
def Selects (v w : ImageVersion) (d : Disk) : Prop :=
  vectVersion d.test = some v ∨ vectVersion d.test ≠ some w ∧ vectVersion d.main = some v

theorem bootFindImageSlot_of_ne {v : ImageVersion} (h0 : s.imgHdr0.ihVer ≠ v)
    (h1 : s.imgHdr1.ihVer ≠ v) : bootFindImageSlot s v = .none := by
  rw [bootFindImageSlot, if_neg h0, if_neg h1]

/-- `boot_select_image_slot` finds the slot that holds the named version. On
the way it may delete a test vector that names neither image. -/
theorem wp_bootSelectImageSlot (v w : ImageVersion) (slot : Nat)
    (hv : bootFindImageSlot s v = some slot)
    (hvw : ∀ u, u ≠ v → u ≠ w → bootFindImageSlot s u = .none) (hsel : Selects v w s.disk)
    {Q : Post St BootErr (Option Nat)} (hcut : Q.cut s)
    (hok : ∀ t, Selects v w { s.disk with test := t } →
      Q.ok (some slot) { s with disk := { s.disk with test := t } }) :
    Wp bootSelectImageSlot Q s := by
  have hmain : vectVersion s.disk.test ≠ some v → vectVersion s.disk.main = some v := fun h => by
    rcases hsel with h' | ⟨-, h'⟩
    · exact absurd h' h
    · exact h'
  refine .bind (.get ?_)
  cases htv : vectVersion s.disk.test with
  | none =>
    have hm := hmain (by rw [htv]; simp)
    simp only [htv, hm, hv]
    exact .bind (.pure (.pure (hok s.disk.test hsel)))
  | some u =>
    by_cases huv : u = v
    · subst huv
      simp only [htv, hv]
      exact .bind (.pure (.pure (hok s.disk.test hsel)))
    have hm := hmain (by rw [htv]; simpa using huv)
    have huw : u ≠ w := by
      rintro rfl
      rcases hsel with h | ⟨h, -⟩
      · rw [htv] at h
        exact huv (Option.some.inj h)
      · exact h htv
    have hsome : s.disk.test.isSome = true := by
      cases ht : s.disk.test with
      | none => rw [ht] at htv; cases htv
      | some _ => rfl
    simp only [htv, hvw u huv huw, hm, hv]
    refine .bind ?_
    refine .bind (.get ?_)
    simp only [hsome, if_true]
    refine .persist hcut (.bind (.pure (.pure (hok .none ?_))))
    exact .inr ⟨by simp [vectVersion], hm⟩

end Larva.Boot
