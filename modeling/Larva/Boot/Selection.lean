import Larva.Boot.Recovery

/-!
# Which image is booted

`boot_go` may start on anything: any bytes where the headers are, any vector
files, any status file. This module says what it reports when it returns 0,
against the procedure of the design document.

Nothing is known here of the status that a resumed copy starts from, so the
statements are about the runs that return. What is followed through the copy
is one area only, the first of slot 0, since that is where the header is:
`Front` says which part the status has there and which bytes are in it. A
round that moves another part to another place leaves it alone, whatever the
rest of the status says.

The code departs from the procedure in two ways. A slot without an image
takes part in the search by version, with a header of 0xff bytes; and the
image of slot 1 is moved by the areas its `ih_img_size` takes, of which there
are none when it is 0.
-/

namespace Larva.Boot

open Larva.Crash List Option

/-! ## The first area of slot 0 -/

section Front

variable {req : BootReq} (L : Layout req)

/-- Where slot 0 starts. -/
def front : Place := .slot false 0

/-- The status has `e` for the first area of slot 0, which holds `c`. -/
structure Front (e : BootStatusEntry) (c : Nat → UInt8) (s : St) : Prop where
  len : s.entries.length = req.imageAreas.length
  entry : s.entries[L.pos front]? = some e
  holds : L.Holds s.disk front c

/-- The part at `p` was brought to `q`, where the status has `e` for it now.
The scratch area may have been used. -/
structure Carried (p q : Place) (e : BootStatusEntry) (s s' : St) : Prop where
  len : s'.entries.length = s.entries.length
  entry : s'.entries[L.pos q]? = some e
  holds : L.Holds s'.disk q (L.byte s.disk p)
  other : ∀ r, L.Ok r → r ≠ p → r ≠ q → r ≠ .scratch → s'.entries[L.pos r]? = s.entries[L.pos r]? ∧
    ∀ o, o < L.len → L.byte s'.disk r o = L.byte s.disk r o

variable {L}

variable {q p x y : Place} {s s' : St} {img part a start i length : Nat} {e : BootStatusEntry}
  {c : Nat → UInt8} {α : Type} {rest : BootM α} {Q : α → St → Prop}

/-- Erasing a place and copying another one there. -/
theorem returns_eraseCopy (hp : L.Ok p) (hq : L.Ok q) (hne : p ≠ q)
    (h : ∀ d', L.AgreeOff q s.disk d' → L.Holds d' q (L.byte s.disk p) →
      Returns rest Q { s with disk := d' }) : Returns (do
      bootEraseArea req (L.idx q)
      bootCopyArea req (L.idx p) (L.idx q)
      rest) Q s := by
  refine Wp.bind_returns (wp_bootEraseArea hq trivial fun d1 h1 he => ?_)
  refine Wp.bind_returns (wp_bootCopyArea hp hq hne he (fun _ _ => trivial) fun d2 h2 hh => ?_)
  refine h d2 (h1.trans h2) ?_
  intro o ho
  exact (hh o ho).trans (h1.bytes p hp hne o ho)

/-- An entry that is looked up is there. -/
theorem returns_index {β : Type} {l : List α} {f : α → BootM β} {Q : β → St → Prop}
    (h : ∀ a, l[i]? = some a → Returns (f a) Q s) : Returns (index l i >>= f) Q s := by
  refine .bind ?_
  unfold index
  cases hi : l[i]? with
  | none => exact .abort
  | some a => exact .pure (h a hi)

theorem Layout.pos_ne (hp : L.Ok p) (hq : L.Ok q) (h : p ≠ q) :
    L.pos p ≠ L.pos q := fun he => h (Layout.pos_inj hp hq he)

theorem returns_bootMoveArea (hp : L.Ok p) (hq : L.Ok q)
    (hne : p ≠ q) (hlen : s.entries.length = req.imageAreas.length) :
    Returns (bootMoveArea req (L.idx p) (L.idx q) img part)
      (fun _ s' => Carried L p q ⟨img, part % 256⟩ s s' ∧
        (p = front → Front L .none (fun _ => 0xff) s')) s := by
  have hpq := Layout.pos_ne hp hq hne
  have hqlen : L.pos q < s.entries.length := hlen ▸ Layout.pos_lt hq
  have hplen : L.pos p < s.entries.length := hlen ▸ Layout.pos_lt hp
  refine Wp.bind_returns (wp_imageAreaIdx hp ?_)
  refine Wp.bind_returns (wp_imageAreaIdx hq ?_)
  refine returns_eraseCopy hp hq hne fun d1 h1 hh => ?_
  refine .bind (.modify ?_)
  refine .bind (.modify ?_)
  refine .bind (.persist ?_)
  refine Wp.returns (Q := ⟨_, fun _ _ => True, fun _ => True, True⟩)
    (wp_bootEraseArea hp trivial fun d3 h3 he3 => ?_)
  refine ⟨⟨by simp, ?_, ?_, ?_⟩, ?_⟩
  · exact getElem?_set_self (by simpa using hqlen)
  · intro o ho
    exact (h3.bytes q hq (Ne.symm hne) o ho).trans (hh o ho)
  · intro r hr hrp hrq _
    constructor
    · rw [getElem?_set_ne (Layout.pos_ne hq hr (Ne.symm hrq)),
        getElem?_set_ne (Layout.pos_ne hp hr (Ne.symm hrp))]
    · intro o ho
      exact (h3.bytes r hr hrp o ho).trans (h1.bytes r hr hrq o ho)
  · intro hf
    subst hf
    refine ⟨by simpa using hlen, ?_, he3⟩
    rw [getElem?_set_ne (Ne.symm hpq)]
    exact getElem?_set_self hplen

variable (L) in
/-- One leg of a swap: the place `x` was copied to `y` and the status says
so. -/
structure Leg (x y : Place) (s s' : St) : Prop where
  len : s'.entries.length = s.entries.length
  entry : s'.entries[L.pos y]? = s.entries[L.pos x]?
  entries : ∀ r, L.Ok r → r ≠ x → r ≠ y → s'.entries[L.pos r]? = s.entries[L.pos r]?
  holds : L.Holds s'.disk y (L.byte s.disk x)
  bytes : ∀ r, L.Ok r → r ≠ y → ∀ o, o < L.len → L.byte s'.disk r o = L.byte s.disk r o

theorem Leg.writeStatus (h : Leg L x y s s') (f : Option StatusFile) :
    Leg L x y s { s' with disk := { s'.disk with status := f } } :=
  { h with }

theorem returns_leg (hx : L.Ok x) (hy : L.Ok y) (hne : x ≠ y)
    (hlen : s.entries.length = req.imageAreas.length)
    (h : ∀ s', Leg L x y s s' → Returns rest Q s') : Returns (do
      bootEraseArea req (L.idx y)
      bootCopyArea req (L.idx x) (L.idx y)
      let s ← Prog.get
      let e ← index s.entries (L.pos x)
      setEntry (L.pos y) e
      setEntry (L.pos x) .none
      rest) Q s := by
  have hylen : L.pos y < s.entries.length := hlen ▸ Layout.pos_lt hy
  refine returns_eraseCopy hx hy hne fun d h1 hh => ?_
  refine .bind (.get ?_)
  refine returns_index fun e he => ?_
  refine .bind (.modify ?_)
  refine .bind (.modify ?_)
  refine h _ ⟨by simp, ?_, ?_, hh, fun r hr hry => h1.bytes r hr hry⟩
  · rw [getElem?_set_ne (Layout.pos_ne hx hy hne), getElem?_set_self hylen]
    exact he.symm
  · intro r hr hrx hry
    rw [getElem?_set_ne (Layout.pos_ne hx hr (Ne.symm hrx)),
      getElem?_set_ne (Layout.pos_ne hy hr (Ne.symm hry))]

/-- The three legs of a swap bring the part at `p` to `q`. -/
theorem Leg.carried (hp : L.Ok p) (hq : L.Ok q) (hne : p ≠ q)
    (hp' : p ≠ .scratch) (hq' : q ≠ .scratch) {s1 s2 s3 : St} (he : s.entries[L.pos p]? = some e)
    (h₁ : Leg L q .scratch s s1) (h₂ : Leg L p q s1 s2)
    (h₃ : Leg L .scratch p s2 s3) : Carried L p q e s s3 := by
  refine ⟨h₃.len.trans (h₂.len.trans h₁.len), ?_, ?_, ?_⟩
  · rw [h₃.entries q hq hq' (Ne.symm hne), h₂.entry, h₁.entries p hp hne hp', he]
  · intro o ho
    have h2 := h₂.holds o ho
    have h1 := h₁.bytes p hp hp' o ho
    exact (h₃.bytes q hq (Ne.symm hne) o ho).trans (h2.trans h1)
  · intro r hr hrp hrq hrs
    refine ⟨?_, fun o ho => ?_⟩
    · rw [h₃.entries r hr hrs hrp, h₂.entries r hr hrp hrq, h₁.entries r hr hrq hrs]
    · have h2 := h₂.bytes r hr hrq o ho
      have h1 := h₁.bytes r hr hrs o ho
      exact (h₃.bytes r hr hrp o ho).trans (h2.trans h1)

theorem returns_bootSwapAreas (hp : L.Ok p) (hq : L.Ok q)
    (hlen : s.entries.length = req.imageAreas.length)
    (he : s.entries[L.pos p]? = some e) : Returns (bootSwapAreas req (L.idx p) (L.idx q))
      (fun _ s' => Carried L p q e s s') s := by
  have hscr : L.Ok .scratch := trivial
  refine .bind (.assert fun hpq => ?_)
  refine .bind (.assert fun hps => ?_)
  refine .bind (.assert fun hqs => ?_)
  have hne : p ≠ q := by
    rintro rfl
    simp at hpq
  have hp' : p ≠ .scratch := by
    rintro rfl
    simp [Layout.idx] at hps
  have hq' : q ≠ .scratch := by
    rintro rfl
    simp [Layout.idx] at hqs
  refine Wp.bind_returns (wp_imageAreaIdx hp ?_)
  refine Wp.bind_returns (wp_imageAreaIdx hq ?_)
  refine Wp.bind_returns (wp_imageAreaIdx hscr ?_)
  refine returns_leg hq hscr hq' hlen fun s1 h1 => ?_
  refine .bind (.persist ?_)
  have hw1 := h1.writeStatus (some ⟨s1.bsImg1Length, s1.bsImg2Length, s1.entries⟩)
  refine returns_leg hp hq hne (hw1.len.trans hlen) fun s2 h2 => ?_
  refine .bind (.persist ?_)
  have hw2 := h2.writeStatus (some ⟨s2.bsImg1Length, s2.bsImg2Length, s2.entries⟩)
  refine returns_leg hscr hp (Ne.symm hp') (hw2.len.trans (hw1.len.trans hlen)) fun s3 h3 => ?_
  exact .persist (Leg.carried hp hq hne hp' hq' he hw1 hw2 (h3.writeStatus _))

/-- The area that `boot_find_image_part` finds has the part. -/
theorem findImagePart_place {es : List BootStatusEntry}
    (h : bootFindImagePart req es img part = some a) :
    ∃ p, L.Ok p ∧ L.idx p = a ∧ es[L.pos p]? = some ⟨img, part⟩ := by
  unfold bootFindImagePart at h
  rw [map_eq_some_iff] at h
  obtain ⟨⟨a', e⟩, hf, rfl⟩ := h
  have hmem := mem_of_find?_eq_some hf
  have he := find?_some hf
  obtain ⟨i, hi, hzip⟩ := getElem_of_mem hmem
  rw [getElem_zip] at hzip
  simp only [Prod.mk.injEq] at hzip
  simp only [length_zip] at hi
  have hia : i < req.imageAreas.length := by omega
  obtain ⟨p, hp, hpos⟩ := L.exists_place hia
  have harea := Layout.area_pos hp
  rw [hpos, getElem?_eq_getElem hia, hzip.1] at harea
  refine ⟨p, hp, (some.inj harea).symm, ?_⟩
  cases e
  simp_all

/-- An area index that `boot_find_image_area_idx` finds is that of a place. -/
theorem findImageAreaIdx_place (h : bootFindImageAreaIdx req a = some i) :
    ∃ q, L.Ok q ∧ L.idx q = a ∧ L.pos q = i := by
  unfold bootFindImageAreaIdx at h
  rw [findIdx?_eq_some_iff_getElem] at h
  obtain ⟨hi, ha, -⟩ := h
  obtain ⟨q, hq, hpos⟩ := L.exists_place hi
  have harea := Layout.area_pos hq
  rw [hpos, getElem?_eq_getElem hi] at harea
  refine ⟨q, hq, ?_, hpos⟩
  rw [← some.inj harea]
  simpa using ha

variable (L) in
/-- What a round of `boot_fill_slot` that returns has done: the part was at
the area `a` already, or it was brought there. -/
inductive Round (img part a : Nat) (s s' : St) : Prop
  | there {p : Place} : L.Ok p → L.idx p = a →
      s.entries[L.pos p]? = some ⟨img, part⟩ → s' = s → Round img part a s s'
  | moved {p q : Place} {e : BootStatusEntry} : L.Ok p → L.Ok q → p ≠ q →
      L.idx q = a → s.entries[L.pos p]? = some ⟨img, part⟩ →
      (part = 0 → e = ⟨img, 0⟩) → Carried L p q e s s' →
      (p = front → s.entries[L.pos q]? = some .none →
        Front L .none (fun _ => 0xff) s') → Round img part a s s'

theorem returns_bootFillPart
    (hlen : s.entries.length = req.imageAreas.length) : Returns (bootFillPart req img start part)
      (fun _ s' => Round L img part (start + part) s s') s := by
  refine .bind (.get ?_)
  cases hfind : bootFindImagePart req s.entries img part with
  | none => exact .fail
  | some a =>
    obtain ⟨p, hp, rfl, hep⟩ := findImagePart_place (L := L) hfind
    simp only
    split
    · next heq => exact .pure (.there hp heq hep rfl)
    · next hidx =>
      unfold imageAreaIdx
      cases hdst : bootFindImageAreaIdx req _ with
      | none => exact .bind Returns.abort
      | some i =>
        obtain ⟨q, hq, hqa, rfl⟩ := findImageAreaIdx_place (L := L) hdst
        have hne : p ≠ q := by
          rintro rfl
          exact hidx hqa
        refine .bind (.pure ?_)
        refine returns_index fun e he => ?_
        rw [← hqa]
        split
        · refine (returns_bootMoveArea hp hq hne hlen).mono ?_
          intro _ s' ⟨hC, hF⟩
          exact .moved hp hq hne rfl hep (fun h0 => by rw [h0]) hC fun h _ => hF h
        · next hsome =>
          refine (returns_bootSwapAreas hp hq hlen hep).mono ?_
          intro _ s' hC
          refine .moved hp hq hne rfl hep (fun h0 => by rw [h0]) hC ?_
          intro _ hnone
          rw [he] at hnone
          cases hnone
          exact absurd rfl hsome

theorem front_ne_scratch : front ≠ .scratch := by
  intro h
  cases h

/-- A round for another part and another place leaves slot 0's first area
as it is. -/
theorem Round.front (hc : 0 < L.count false) (h : Round L img part a s s')
    (hF : Front L e c s) (he : e ≠ ⟨img, part⟩) (ha : a ≠ L.start false) : Front L e c s' := by
  cases h with
  | there _ _ _ hs =>
    rw [hs]
    exact hF
  | @moved p q _ hp hq _ hqa hep _ hC _ =>
    have hfp : Boot.front ≠ p := by
      intro h
      rw [← h, hF.entry] at hep
      exact he (some.inj hep)
    have hfq : Boot.front ≠ q := by
      intro h
      rw [← h] at hqa
      exact ha hqa.symm
    obtain ⟨hent, hbytes⟩ := hC.other Boot.front hc hfp hfq front_ne_scratch
    exact ⟨hC.len.trans hF.len, hent.trans hF.entry,
      fun o ho => (hbytes o ho).trans (hF.holds o ho)⟩

theorem Round.desc_len (h : Round L img part a s s') {d : AreaDesc}
    (hd : req.areaDescs[a]? = some d) : d.nadLength = L.len := by
  have key : ∀ p, L.Ok p → L.idx p = a → d.nadLength = L.len := by
    intro p hp hpa
    rw [← hpa, Layout.desc_idx hp] at hd
    cases hd
    exact Layout.desc_len L p
  cases h with
  | there hp hpa _ _ => exact key _ hp hpa
  | moved _ hq _ hqa _ _ _ _ => exact key _ hq hqa

variable (L) in
/-- `boot_fill_slot` for an image of this length comes to part `k`. -/
def Reaches (length k : Nat) : Prop := ∀ j, j ≤ k → j * L.len % 2 ^ 32 < length

/-- The rounds of `boot_fill_slot` from part `k` on. -/
theorem returns_bootFillSlotLoop (hc : 0 < L.count false) :
    ∀ fuel k s, (∀ j, j < k → j * L.len % 2 ^ 32 < length) → (∀ m, k ≤ m → Reaches L length m →
        e ≠ ⟨img, m⟩ ∧ start + m ≠ L.start false) → Front L e c s →
      Returns (bootFillSlotLoop req img length start fuel k
        (k * L.len % 2 ^ 32)) (fun _ s' => Front L e c s') s := by
  intro fuel
  induction fuel with
  | zero => intro k s _ _ _; exact .spin
  | succ n ih =>
    intro k s hdone hclear hF
    unfold bootFillSlotLoop
    split
    · next hlt =>
      have hreach : ∀ j, j < k + 1 → j * L.len % 2 ^ 32 < length := by
        intro j hj
        rcases Nat.lt_succ_iff_lt_or_eq.mp hj with h | rfl
        · exact hdone j h
        · exact hlt
      obtain ⟨he, ha⟩ := hclear k (le_refl k) fun j hj => hreach j (Nat.lt_succ_of_le hj)
      refine .bind ((returns_bootFillPart (L := L) hF.len).mono ?_)
      intro _ s1 hR
      refine returns_index fun d hd => ?_
      have hoff : (k * L.len % 2 ^ 32 + d.nadLength) % 2 ^ 32 = (k + 1) * L.len % 2 ^ 32 := by
        rw [hR.desc_len hd, Nat.mod_add_mod, add_one_mul]
      rw [hoff]
      exact ih (k + 1) _ hreach (fun m hm => hclear m (by omega)) (hR.front hc hF he ha)
    · exact .pure hF

/-- All the rounds of a fill whose first one brings about `Front`. -/
theorem returns_bootFillSlot (hc : 0 < L.count false)
    (hlen : s.entries.length = req.imageAreas.length) (hpos : 0 < length)
    (hclear : ∀ m, 1 ≤ m → Reaches L length m → e ≠ ⟨img, m⟩ ∧ start + m ≠ L.start false)
    (hfirst : ∀ s', Round L img 0 start s s' → Front L e c s') :
    Returns (bootFillSlot req img length start) (fun _ s' => Front L e c s') s := by
  unfold bootFillSlot
  rw [bootFillSlotLoop, if_pos hpos]
  refine .bind ((returns_bootFillPart (L := L) hlen).mono ?_)
  intro _ s1 hR
  refine returns_index fun d hd => ?_
  have hoff : (0 + d.nadLength) % 2 ^ 32 = 1 * L.len % 2 ^ 32 := by
    rw [hR.desc_len hd, zero_add, one_mul]
  rw [hoff]
  refine returns_bootFillSlotLoop hc 257 1 _ ?_ hclear (hfirst _ hR)
  intro j hj
  rw [show j = 0 by omega]
  simpa using hpos

end Front

/-! ## The status that is built from the headers -/

section Build

variable {req : BootReq} {L : Layout req} {img length : Nat}

/-- Entries `es'` are `es` with parts of image `img` written from position
`i` on, over entries that had no image. -/
structure Built (img i k : Nat) (es es' : List BootStatusEntry) : Prop where
  len : es'.length = es.length
  entry : ∀ j, es'[j]? = es[j]? ∨ i ≤ j ∧ j < es.length ∧ es'[j]? = some ⟨img, (k + (j - i)) % 256⟩

theorem returns_bootBuildStatusLoop : ∀ fuel i a k off s,
      Returns (bootBuildStatusLoop req img length fuel i a k off)
        (fun _ s' => ∃ es, s' = { s with entries := es } ∧ Built img i k s.entries es) s := by
  intro fuel
  induction fuel with
  | zero => intro i a k off s; exact .spin
  | succ n ih =>
    intro i a k off s
    unfold bootBuildStatusLoop
    split
    · next _ =>
      refine .bind (.get ?_)
      refine returns_index fun e he => ?_
      refine .bind (.assert fun _ => ?_)
      refine .bind (.modify ?_)
      refine returns_index fun d _ => ?_
      refine (ih (i + 1) (a + 1) (k + 1) _ _).mono ?_
      intro _ s3 hr
      obtain ⟨es, hs3, hB⟩ := hr
      have hi := (List.getElem?_eq_some_iff.mp he).1
      have hself : es[i]? = some ⟨img, k % 256⟩ := by
        rcases hB.entry i with h | ⟨h, -⟩
        · rw [h]
          exact getElem?_set_self hi
        · omega
      refine ⟨es, hs3, by simpa using hB.len, ?_⟩
      intro j
      by_cases hj : j = i
      · subst hj
        exact .inr ⟨le_refl j, hi, by simpa using hself⟩
      · rcases hB.entry j with h | ⟨h1, h2, h3⟩
        · rw [getElem?_set_ne (Ne.symm hj)] at h
          exact .inl h
        · refine .inr ⟨by omega, by simpa using h2, ?_⟩
          rw [h3, show k + 1 + (j - (i + 1)) = k + (j - i) by omega]
    · exact .pure ⟨s.entries, rfl, rfl, fun _ => .inl rfl⟩

variable {s : St}

theorem returns_bootBuildStatusOne {b : Bool} (hc : 0 < L.count b) :
    Returns (bootBuildStatusOne req img (L.desc (.slot b 0)) length)
      (fun _ s' => ∃ es, s' = { s with entries := es } ∧
        Built img (L.pos (.slot b 0)) 0 s.entries es) s := by
  unfold bootBuildStatusOne
  simp only [Layout.findSlotArea hc]
  exact returns_index fun a _ => returns_bootBuildStatusLoop _ _ _ _ _ _

variable (L) in
/-- Part 0 of image 1 is at the start of slot 1, if it is anywhere. -/
structure Described (es : List BootStatusEntry) : Prop where
  len : es.length = req.imageAreas.length
  only : ∀ p, L.Ok p → es[L.pos p]? = some ⟨1, 0⟩ → p = .slot true 0

/-- The statics after `boot_build_status`. -/
def St.described (s : St) (es : List BootStatusEntry) : St :=
  { s with
    entries := es
    bsImg1Length := s.imgHdr0.statusLength
    bsImg2Length := s.imgHdr1.statusLength }

/-- The second half of `boot_build_status`, for image 1. -/
theorem returns_buildSecond (hc : 0 < L.count true)
    {es0 : List BootStatusEntry} (hlen : es0.length = req.imageAreas.length)
    (hno : ∀ j : Nat, es0[j]? ≠ some ⟨1, 0⟩) : Returns (if s.imgHdr1.ihMagic = imageMagic then do
        let slot ← bootSlotAddr req 1
        bootBuildStatusOne req 1 slot s.imgHdr1.ihImgSize
      else pure ())
      (fun _ s' => ∃ es, Described L es ∧ s' = s.described es)
      (s.described es0) := by
  split
  · refine Wp.bind_returns (wp_bootSlotAddr hc ?_)
    refine (returns_bootBuildStatusOne hc).mono ?_
    intro _ s2 ⟨es, hs2, hB⟩
    refine ⟨es, ⟨hB.len.trans hlen, ?_⟩, hs2⟩
    intro p hp he
    rcases hB.entry (L.pos p) with h | ⟨h1, h2, h3⟩
    · exact absurd (h.symm.trans he) (hno _)
    have h2' : L.pos p < es0.length := h2
    rw [he] at h3
    simp only [some.injEq, BootStatusEntry.mk.injEq] at h3
    have hnum := L.num_le
    refine Layout.pos_inj hp hc ?_
    omega
  · exact .pure ⟨es0, ⟨hlen, fun p _ he => absurd he (hno _)⟩, rfl⟩

theorem returns_bootBuildStatus (hc : ∀ b, 0 < L.count b) : Returns (bootBuildStatus req)
      (fun _ s' => ∃ es, Described L es ∧ s' = s.described es) s := by
  have hnone : ∀ j : Nat, (replicate req.numImageAreas BootStatusEntry.none)[j]? ≠ some ⟨1, 0⟩ := by
    intro j h
    rw [getElem?_replicate] at h
    split at h
    · cases h
    · cases h
  refine .bind (.modify ?_)
  refine .bind (.get ?_)
  simp only
  split
  · refine Wp.bind_returns (wp_bootSlotAddr (hc false) ?_)
    refine .bind ((returns_bootBuildStatusOne (hc false)).mono ?_)
    intro _ s2 ⟨es, hs2, hB⟩
    subst hs2
    refine returns_buildSecond (hc true) (hB.len.trans (by simp [BootReq.numImageAreas])) ?_
    intro j he
    rcases hB.entry j with h | ⟨-, -, h⟩
    · exact hnone j (h.symm.trans he)
    · rw [he] at h
      cases h
  · refine .bind (.pure ?_)
    exact returns_buildSecond (hc true) (by simp [BootReq.numImageAreas]) hnone

end Build

/-! ## The procedure of the design document -/

section Design

/-- The slot that has an image of this version. -/
def presentSlot (h : Bool → ImageHeader) (v : ImageVersion) : Option Bool :=
  if (h false).ihMagic = imageMagic ∧ (h false).ihVer = v then some false
  else if (h true).ihMagic = imageMagic ∧ (h true).ihVer = v then some true
  else .none

/-- The slot to boot when no vector names an image. -/
def primarySlot (h : Bool → ImageHeader) : Option Bool :=
  if (h false).ihMagic = imageMagic then some false
  else if (h true).ihMagic = imageMagic then some true
  else .none

/-- The procedure: the image that the test vector names, else the one that
the main vector names, else the one in slot 0, else the one in slot 1. -/
def designSelects (h : Bool → ImageHeader) (test main : Option ImageVersion) :
    Option Bool :=
  ((test.bind (presentSlot h)).or (main.bind (presentSlot h))).or (primarySlot h)

/-- What `boot_read_image_headers` makes of a header. -/
def ImageHeader.masked (h : ImageHeader) : ImageHeader :=
  if h.ihMagic = imageMagic then h else .blank

/-- The slot that `boot_find_image_slot` finds. -/
def foundSlot (h : Bool → ImageHeader) (v : ImageVersion) : Option Bool :=
  if (h false).masked.ihVer = v then some false
  else if (h true).masked.ihVer = v then some true
  else .none

/-- The slot that the code comes to. -/
def codeSelects (h : Bool → ImageHeader) (test main : Option ImageVersion) :
    Option Bool :=
  ((test.bind (foundSlot h)).or (main.bind (foundSlot h))).or (primarySlot h)

/-- A search for `v` stops at a slot without an image: `v` is all ones, and
neither slot 0 has such an image nor do both slots have images. -/
def Misread (h : Bool → ImageHeader) (v : ImageVersion) : Prop :=
  v = ImageHeader.blank.ihVer ∧ ¬ ((h false).ihMagic = imageMagic ∧
      ((h false).ihVer = v ∨ (h true).ihMagic = imageMagic))

/-- No vector that is consulted is misread. -/
structure Names (h : Bool → ImageHeader) (test main : Option ImageVersion) : Prop where
  onTest : ∀ v, test = some v → ¬ Misread h v
  onMain : ∀ v, main = some v → test.bind (presentSlot h) = .none → ¬ Misread h v

variable {h : Bool → ImageHeader} {v : ImageVersion} {test main : Option ImageVersion}

theorem masked_of_magic {h : ImageHeader} (hm : h.ihMagic = imageMagic) : h.masked = h := if_pos hm

theorem masked_of_not_magic {h : ImageHeader} (hm : h.ihMagic ≠ imageMagic) :
    h.masked = .blank := if_neg hm

theorem foundSlot_eq (hv : ¬ Misread h v) : foundSlot h v = presentSlot h v := by
  unfold foundSlot presentSlot
  by_cases h0 : (h false).ihMagic = imageMagic
  · rw [masked_of_magic h0]
    by_cases h1 : (h true).ihMagic = imageMagic
    · simp only [masked_of_magic h1, h0, h1, true_and]
    simp only [masked_of_not_magic h1, h0, h1, true_and, false_and, if_false]
    by_cases hver : (h false).ihVer = v
    · rw [if_pos hver, if_pos hver]
    · rw [if_neg hver, if_neg hver, if_neg]
      intro hb
      exact hv ⟨hb.symm, fun hok => hok.2.elim hver h1⟩
  · have hb : ImageHeader.blank.ihVer ≠ v := fun hb =>
      hv ⟨hb.symm, fun hok => h0 hok.1⟩
    rw [masked_of_not_magic h0, if_neg hb]
    by_cases h1 : (h true).ihMagic = imageMagic
    · simp only [masked_of_magic h1, h0, h1, true_and, false_and, if_false]
    · simp only [masked_of_not_magic h1, hb, h0, h1, false_and, if_false]

theorem foundSlot_of_misread (hv : Misread h v) :
    ∃ b, foundSlot h v = some b ∧ (h b).ihMagic ≠ imageMagic := by
  obtain ⟨rfl, hno⟩ := hv
  unfold foundSlot
  by_cases h0 : (h false).ihMagic = imageMagic
  · have hver : (h false).ihVer ≠ ImageHeader.blank.ihVer := fun he =>
      hno ⟨h0, .inl he⟩
    have h1 : (h true).ihMagic ≠ imageMagic := fun he => hno ⟨h0, .inr he⟩
    refine ⟨true, ?_, h1⟩
    rw [masked_of_magic h0, if_neg hver, masked_of_not_magic h1, if_pos rfl]
  · refine ⟨false, ?_, h0⟩
    rw [masked_of_not_magic h0, if_pos rfl]

theorem bind_foundSlot_eq {o : Option ImageVersion} (ho : ∀ v, o = some v → ¬ Misread h v) :
    o.bind (foundSlot h) = o.bind (presentSlot h) := by
  cases o with
  | none => rfl
  | some v => exact foundSlot_eq (ho v rfl)

theorem codeSelects_eq (hN : Names h test main) :
    codeSelects h test main = designSelects h test main := by
  unfold codeSelects designSelects
  rw [bind_foundSlot_eq hN.onTest]
  cases ht : test.bind _ with
  | some b => rfl
  | none => rw [bind_foundSlot_eq fun v hv => hN.onMain v hv ht]

/-- A misread vector makes the code select a slot without an image. -/
theorem codeSelects_of_not_names (hN : ¬ Names h test main) :
    ∃ b, codeSelects h test main = some b ∧ (h b).ihMagic ≠ imageMagic := by
  unfold codeSelects
  by_cases ht : ∀ v, test = some v → ¬ Misread h v
  · have hm : ∃ v, main = some v ∧ test.bind (presentSlot h) = .none ∧ Misread h v := by
      by_contra hno
      refine hN ⟨ht, fun v hv hn hmis => hno ⟨v, hv, hn, hmis⟩⟩
    obtain ⟨v, rfl, hn, hmis⟩ := hm
    obtain ⟨b, hb, hmag⟩ := foundSlot_of_misread hmis
    refine ⟨b, ?_, hmag⟩
    rw [bind_foundSlot_eq ht, hn, none_or, bind_some, hb, some_or]
  · simp only [not_forall, not_not] at ht
    obtain ⟨v, rfl, hmis⟩ := ht
    obtain ⟨b, hb, hmag⟩ := foundSlot_of_misread hmis
    refine ⟨b, ?_, hmag⟩
    rw [bind_some, hb, some_or, some_or]

variable {b : Bool}

theorem presentSlot_magic (hb : presentSlot h v = some b) : (h b).ihMagic = imageMagic := by
  unfold presentSlot at hb
  split at hb
  · next h0 => cases hb; exact h0.1
  · split at hb
    · next h1 => cases hb; exact h1.1
    · cases hb

theorem primarySlot_magic (hb : primarySlot h = some b) : (h b).ihMagic = imageMagic := by
  unfold primarySlot at hb
  split at hb
  · next h0 => cases hb; exact h0
  · split at hb
    · next h1 => cases hb; exact h1
    · cases hb

theorem designSelects_cases (hb : designSelects h test main = some b) :
    (∃ v, presentSlot h v = some b) ∨ primarySlot h = some b := by
  unfold designSelects at hb
  rw [or_eq_some_iff, or_eq_some_iff] at hb
  rcases hb with (hb | ⟨-, hb⟩) | ⟨-, hb⟩
  · exact .inl ((bind_eq_some_iff.mp hb).imp fun _ => And.right)
  · exact .inl ((bind_eq_some_iff.mp hb).imp fun _ => And.right)
  · exact .inr hb

theorem designSelects_magic (hb : designSelects h test main = some b) :
    (h b).ihMagic = imageMagic := by
  rcases designSelects_cases hb with ⟨v, hv⟩ | hb
  · exact presentSlot_magic hv
  · exact primarySlot_magic hb

/-- Slot 1 is selected over an image in slot 0 only if the headers differ. -/
theorem designSelects_true_ne (hb : designSelects h test main = some true) : h false ≠ h true := by
  intro he
  rcases designSelects_cases hb with ⟨v, hv⟩ | hb
  · unfold presentSlot at hv
    rw [he] at hv
    split at hv
    · cases hv
    · cases hv
  · unfold primarySlot at hb
    rw [he] at hb
    split at hb
    · cases hb
    · cases hb

end Design

/-! ## One call -/

section Call

variable {req : BootReq} (L : Layout req)

/-- What the procedure selects on a disk. -/
def Layout.designSelects (d : Disk) : Option Bool :=
  Boot.designSelects (L.header d) (vectVersion d.test) (vectVersion d.main)

/-- The report is what it should be: an image, the one that slot 0 now starts
with, and the one the procedure selects on `d`. -/
structure Answers (d : Disk) (rsp : BootRsp) (d' : Disk) : Prop where
  magic : rsp.brHdr.ihMagic = imageMagic
  front : rsp.brHdr = L.header d' false
  selected : ∃ b, L.designSelects d = some b ∧ rsp.brHdr = L.header d b

/-- If slot 1 is selected its image takes an area at all. -/
def Moves (d : Disk) : Prop :=
  L.designSelects d = some true → 0 < (L.header d true).ihImgSize

/-- If slot 1 is selected the areas of image 0, counted from the start of
slot 1, do not come to the start of slot 0. -/
def Clear (d : Disk) : Prop :=
  L.designSelects d = some true → ∀ k, Reaches L (L.header d false).statusLength k →
      L.start true + k ≠ L.start false

variable {L}

theorem bootReadImageHeader_eq (d : Disk) (b : Bool) :
    bootReadImageHeader d (L.desc (.slot b 0)) = (L.header d b).masked := by
  simp only [bootReadImageHeader, Layout.desc, zero_mul, add_zero]
  rfl

theorem ImageHeader.statusLength_of_magic {h : ImageHeader}
    (hm : h.ihMagic = imageMagic) : h.statusLength = h.ihImgSize := by
  rw [ImageHeader.statusLength, if_pos hm]

theorem statusLength_masked (h : ImageHeader) : h.masked.statusLength = h.statusLength := by
  by_cases hm : h.ihMagic = imageMagic
  · rw [masked_of_magic hm]
  · rw [masked_of_not_magic hm, ImageHeader.statusLength,
      ImageHeader.statusLength, if_neg hm, if_neg (by decide)]

variable {s : St} {d d' : Disk} {img1 : Nat} {h : Bool → ImageHeader}

/-- A fill for an image of no length does nothing. -/
theorem returns_bootFillSlot_zero {img start : Nat} {Q : Unit → St → Prop} (h : Q () s) :
    Returns (bootFillSlot req img 0 start) Q s :=
  Returns.pure h

/-- The copy of an image from slot 1, as far as slot 0's first area goes. -/
theorem returns_bootCopyImage (hc : ∀ b, 0 < L.count b) {img2 : Nat} (hD : Described L s.entries)
    (hpos : 0 < img2) (hclear : ∀ k, Reaches L img1 k → L.start true + k ≠ L.start false) :
    Returns (bootCopyImage req img1 img2) (fun _ s' =>
      L.Holds s'.disk front (L.byte s.disk (.slot true 0))) s := by
  refine Wp.bind_returns (wp_bootSlotToAreaIdx (hc false) ?_)
  refine .bind ((returns_bootFillSlot (e := ⟨1, 0⟩)
    (c := L.byte s.disk (.slot true 0)) (hc false) hD.len hpos ?_ ?_).mono ?_)
  · intro m hm _
    refine ⟨fun he => ?_, by omega⟩
    simp only [BootStatusEntry.mk.injEq] at he
    omega
  · intro s' hR
    have hfront : front ≠ .slot true 0 := by
      intro h
      cases h
    cases hR with
    | there hp hpa hep _ =>
      -- Part 0 of image 1 would be in slot 0 before anything is moved.
      have h := Layout.idx_inj (q := front) hp (hc false) hpa
      rw [h] at hep
      exact absurd (hD.only front (hc false) hep) hfront
    | moved hp hq _ hqa hep he hC _ =>
      have hq0 := Layout.idx_inj (q := front) hq (hc false) hqa
      have hp0 := hD.only _ hp hep
      subst hq0 hp0
      refine ⟨hC.len.trans hD.len, ?_, hC.holds⟩
      rw [hC.entry, he rfl]
  intro _ s2 hF
  refine Wp.bind_returns (wp_bootSlotToAreaIdx (hc true) ?_)
  have h : Returns (bootFillSlotLoop req 0 img1 (L.start true) 258 0
      (0 * L.len % 2 ^ 32)) (fun _ s' => Front L ⟨1, 0⟩ _ s') s2 :=
    returns_bootFillSlotLoop (hc false) 258 0 s2 (fun j hj => absurd hj (Nat.not_lt_zero j))
      (fun m _ hm => ⟨by simp, hclear m hm⟩) hF
  rw [zero_mul, Nat.zero_mod] at h
  exact h.mono fun _ s' hF' => hF'.holds

/-- When image 1 takes no area, the first area of slot 0 is moved away. -/
theorem returns_bootCopyImage_empty (hc : ∀ b, 0 < L.count b) {I : Images}
    (hR : Records L I inSlots s.entries) (hn1 : I.n true = 0) (hpos : 0 < img1)
    (hclear : ∀ k, Reaches L img1 k → L.start true + k ≠ L.start false) :
    Returns (bootCopyImage req img1 0) (fun _ s' =>
      L.Holds s'.disk front fun _ => 0xff) s := by
  have hplace : ∀ p, L.Ok p → s.entries[L.pos p]? = some ⟨0, 0⟩ → p = front := by
    intro p hp he
    by_cases hfree : Free I inSlots p
    · rw [hR.free p hp hfree] at he
      cases he
    simp only [Free, not_forall, not_not] at hfree
    obtain ⟨b, k, hk, rfl⟩ := hfree
    rw [hR.part b k hk] at he
    cases b with
    | false => cases he; exact inSlots_eq false 0
    | true => cases he
  have hempty : s.entries[L.pos (.slot true 0)]? = some .none := by
    refine hR.free _ (hc true) ?_
    intro b k hk he
    rw [inSlots_eq] at he
    cases he
    omega
  refine Wp.bind_returns (wp_bootSlotToAreaIdx (hc false) ?_)
  refine .bind (returns_bootFillSlot_zero ?_)
  refine Wp.bind_returns (wp_bootSlotToAreaIdx (hc true) ?_)
  refine (returns_bootFillSlot (e := .none)
    (hc false) hR.len hpos ?_ ?_).mono fun _ s' hF => hF.holds
  · intro m _ hm
    refine ⟨?_, hclear m hm⟩
    simp [BootStatusEntry.none, bootImageNumNone]
  intro s' hround
  cases hround with
  | there hp hpa hep _ =>
    rw [hplace _ hp hep] at hpa
    exact absurd hpa (L.slots_apart 0 0 (hc false) (hc true))
  | moved hp hq _ hqa hep _ _ hF =>
    have hq0 := Layout.idx_inj (q := .slot true 0) hq (hc true) hqa
    subst hq0
    exact hF (hplace _ hp hep) hempty

section Deletions

variable {α : Type} {f : Unit → BootM α} {Q : α → St → Prop}

theorem returns_persistIf {c : St → Bool} {g : St → St} (h : Returns (f ()) Q (g s))
    (h' : Returns (f ()) Q s) : Returns ((do
      let s ← Prog.get
      if c s then Prog.persist g else pure ()) >>= f) Q s := by
  refine .bind (.bind (.get ?_))
  split
  · exact .persist h
  · exact .pure h'

theorem returns_bootVectDeleteTest
    (h : ∀ t, Returns (f ()) Q { s with disk := { s.disk with test := t } }) :
    Returns (bootVectDeleteTest >>= f) Q s :=
  returns_persistIf (h .none) (h s.disk.test)

theorem returns_bootVectDeleteMain
    (h : ∀ m, Returns (f ()) Q { s with disk := { s.disk with main := m } }) :
    Returns (bootVectDeleteMain >>= f) Q s :=
  returns_persistIf (h .none) (h s.disk.main)

theorem returns_bootUnlinkStatus
    (h : ∀ r, Returns (f ()) Q { s with disk := { s.disk with status := r } }) :
    Returns (bootUnlinkStatus >>= f) Q s :=
  returns_persistIf (h .none) (h s.disk.status)

end Deletions

/-- The main vector is looked at when the test vector gave no slot. -/
theorem returns_selectMain (t : Option VectFile) :
    Returns (match vectVersion s.disk.main with
      | some ver =>
        match bootFindImageSlot s ver with
        | some slot => pure (some slot)
        | .none => do bootVectDeleteMain; pure .none
      | .none => pure .none) (fun sel s' =>
        sel = (vectVersion s.disk.main).bind (bootFindImageSlot s) ∧
        ∃ t m, s' = { s with disk := { s.disk with test := t, main := m } })
      { s with disk := { s.disk with test := t } } := by
  cases hm : vectVersion s.disk.main with
  | none => exact .pure ⟨rfl, t, s.disk.main, rfl⟩
  | some ver =>
    simp only [bind_some]
    cases hf : bootFindImageSlot s ver with
    | some slot => exact .pure ⟨rfl, t, s.disk.main, rfl⟩
    | none => exact returns_bootVectDeleteMain fun m => .pure ⟨rfl, t, m, rfl⟩

/-- The vectors as `boot_select_image_slot` goes by them. -/
theorem returns_bootSelectImageSlot : Returns bootSelectImageSlot (fun sel s' =>
      sel = ((vectVersion s.disk.test).bind (bootFindImageSlot s)).or
        ((vectVersion s.disk.main).bind (bootFindImageSlot s)) ∧
      ∃ t m, s' = { s with disk :=
        { s.disk with test := t, main := m } }) s := by
  refine .bind (.get ?_)
  cases ht : vectVersion s.disk.test with
  | none =>
    refine .bind (.pure ?_)
    exact returns_selectMain s.disk.test
  | some ver =>
    simp only [bind_some]
    cases hf : bootFindImageSlot s ver with
    | some slot =>
      refine .bind (.pure ?_)
      exact .pure ⟨rfl, s.disk.test, s.disk.main, rfl⟩
    | none =>
      refine returns_bootVectDeleteTest fun t => ?_
      exact .bind (.pure (returns_selectMain t))

theorem bootFindImageSlot_eq (h0 : s.imgHdr0 = (h false).masked) (h1 : s.imgHdr1 = (h true).masked)
    (v : ImageVersion) : bootFindImageSlot s v = (foundSlot h v).map Bool.toNat := by
  rw [bootFindImageSlot, foundSlot, h0, h1]
  split
  · rfl
  · split
    · rfl
    · rfl

variable (L) in
/-- What the code selects on a disk. -/
def Layout.codeSelects (d : Disk) : Option Bool :=
  Boot.codeSelects (L.header d) (vectVersion d.test) (vectVersion d.main)

/-- The slot number that `boot_go` comes to after the vectors, and goes on
with. -/
theorem returns_chosen {α : Type} {sel : Option Bool} {K : Nat → BootM α} {Q : α → St → Prop}
    (h0 : s.imgHdr0 = (h false).masked) (h1 : s.imgHdr1 = (h true).masked)
    (hK : ∀ b, sel.or (primarySlot h) = some b → Returns (K b.toNat) Q s) :
    Returns (match sel.map Bool.toNat with
      | some slot => K slot
      | .none => bootDefaultSlot s >>= K) Q s := by
  have hmag : ∀ hdr : ImageHeader, hdr.masked.ihMagic ≠ imageMagicNone ↔
      hdr.ihMagic = imageMagic := by
    intro hdr
    by_cases hm : hdr.ihMagic = imageMagic
    · rw [masked_of_magic hm, hm]
      exact ⟨fun _ => rfl, fun _ => by decide⟩
    · rw [masked_of_not_magic hm]
      exact ⟨fun hn => absurd rfl hn, fun he => absurd he hm⟩
  cases sel with
  | some b => exact hK b rfl
  | none =>
    simp only [none_or, primarySlot] at hK
    simp only [map_none, bootDefaultSlot, h0, h1, hmag]
    refine .bind ?_
    split
    · next hm0 => exact .pure (hK false (if_pos hm0))
    · next hm0 =>
      rw [if_neg hm0] at hK
      split
      · next hm1 => exact .pure (hK true (if_pos hm1))
      · exact .fail

/-- The state in which a copy of slot 1's image starts. -/
def St.selected (s : St) (h : Bool → ImageHeader)
    (es : List BootStatusEntry) (t m : Option VectFile) : St :=
  { s with
    disk := { s.disk with test := t, main := m }
    entries := es
    bsImg1Length := (h false).statusLength
    bsImg2Length := (h true).statusLength
    imgHdr0 := (h false).masked
    imgHdr1 := (h true).masked }

/-- The end of `boot_go`, for a property `E` of the status that is built and
a property `P` of the disk that is wanted for the slot selected. -/
theorem returns_bootSelectAndCopy (hc : ∀ b, 0 < L.count b)
    {E : List BootStatusEntry → Prop} {P : Bool → Disk → Prop}
    (hbuild : Returns (bootBuildStatus req) (fun _ s' => ∃ es, E es ∧
      s' = St.described { s with
        imgHdr0 := (L.header s.disk false).masked
        imgHdr1 := (L.header s.disk true).masked } es)
      { s with
        imgHdr0 := (L.header s.disk false).masked
        imgHdr1 := (L.header s.disk true).masked })
    (hstay : ∀ t m, P false { s.disk with test := t, main := m })
    (hcopy : ∀ es t m, E es → L.codeSelects s.disk = some true →
      Returns (bootCopyImage req (L.header s.disk false).statusLength
        (L.header s.disk true).statusLength) (fun _ s' => P true s'.disk)
        (s.selected (L.header s.disk) es t m)) : Returns (bootSelectAndCopy req) (fun rsp s' => ∃ b,
      L.codeSelects s.disk = some b ∧ rsp.brHdr = (L.header s.disk b).masked ∧ P b s'.disk) s := by
  refine Wp.bind_returns (wp_bootSlotAddr (hc false) ?_)
  refine Wp.bind_returns (wp_bootSlotAddr (hc true) ?_)
  refine .bind (.modify ?_)
  rw [bootReadImageHeader_eq, bootReadImageHeader_eq]
  refine .bind (hbuild.mono ?_)
  intro _ s2 ⟨es, hE, hs2⟩
  subst hs2
  refine .bind (returns_bootSelectImageSlot.mono ?_)
  intro sel s3 ⟨hsel, t, m, hs3⟩
  subst hs3
  have hfound : sel = (((vectVersion s.disk.test).bind
      (foundSlot (L.header s.disk))).or ((vectVersion s.disk.main).bind
      (foundSlot (L.header s.disk)))).map Bool.toNat := by
    rw [hsel, funext (bootFindImageSlot_eq rfl rfl), map_or, map_bind, map_bind]
    rfl
  rw [hfound]
  refine .bind (.get ?_)
  refine returns_chosen rfl rfl ?_
  intro b hb
  refine .bind (.pure ?_)
  cases b with
  | false => exact .pure ⟨false, hb, rfl, hstay t m⟩
  | true =>
    have hst := hcopy es t m hE hb
    simp only [St.described, statusLength_masked]
    refine .bind (hst.mono ?_)
    intro _ s' hP
    exact .pure ⟨true, hb, rfl, hP⟩

/-- `boot_go` returns what its last part returned, on the disk that the first
part left, with no byte of flash changed after it. -/
theorem bootGo_parts {left left' : Option Nat} {rsp : BootRsp}
    {s' : St} (hgo : d.bootGo req left = .ok rsp s' left') :
    ∃ s1 left1, bootResume req d.init left = .ok () s1 left1 ∧
      ∀ Q, Returns (bootSelectAndCopy req) Q s1 →
        ∃ s2, Q rsp s2 ∧ s'.disk.flash = s2.disk.flash := by
  have hgo' : Prog.bind (bootResume req) (fun _ => do
      let rsp ← bootSelectAndCopy req
      bootUnlinkStatus
      bootVectDeleteTest
      pure rsp) d.init left = .ok rsp s' left' := hgo
  simp only [Prog.bind] at hgo'
  cases hres : bootResume req d.init left with
  | ok u s1 left1 =>
    rw [hres] at hgo'
    refine ⟨s1, left1, rfl, fun Q hQ => ?_⟩
    have hend : Returns (do
        let rsp ← bootSelectAndCopy req
        bootUnlinkStatus
        bootVectDeleteTest
        pure rsp) (fun r s => ∃ s2, Q r s2 ∧ s.disk.flash = s2.disk.flash) s1 := by
      refine .bind (hQ.mono ?_)
      intro r s2 hr
      refine returns_bootUnlinkStatus fun f => ?_
      exact returns_bootVectDeleteTest fun t => .pure ⟨s2, hr, rfl⟩
    exact hend left1 rsp s' left' hgo'
  | _ => rw [hres] at hgo'; cases hgo'

theorem Layout.header_flash (h : d'.flash = d.flash) (b : Bool) : L.header d' b = L.header d b := by
  rw [Layout.header, Layout.header, h]

/-- An area that holds a header carries it along. -/
theorem header_of_front (hlen : 28 ≤ L.len) {b : Bool}
    (h : L.Holds d' front (L.byte d (.slot b 0))) :
    L.header d' false = L.header d b :=
  Layout.header_eq (n := 1) (by omega) fun k hk => by
    rw [show k = 0 by omega]
    exact h

/-- An erased area has no magic. -/
theorem header_of_erased (hlen : 28 ≤ L.len) (h : L.Holds d front fun _ => 0xff) :
    (L.header d false).ihMagic ≠ imageMagic := by
  have hb : ∀ i, i < 28 → d.flash (L.dev false) (L.base false + i) = 0xff := by
    intro i hi
    rw [Layout.flash_slot, Nat.div_eq_of_lt (by omega), Nat.mod_eq_of_lt (by omega)]
    exact h i (by omega)
  have h0 := hb 0 (by omega)
  have h1 := hb 1 (by omega)
  have h2 := hb 2 (by omega)
  have h3 := hb 3 (by omega)
  simp only [add_zero] at h0
  simp only [Layout.header, readHeader, u32le, u16le, add_assoc, h0, h1, h2, h3]
  decide

variable (L) in
/-- What is known of a call that returned, by the slot the code selected. -/
def Outcome (d : Disk) (b : Bool) (d' : Disk) : Prop :=
  (b = false → d'.flash = d.flash) ∧
  (b = true → Clear L d → L.designSelects d = some true → 0 < (L.header d true).ihImgSize →
    L.header d' false = L.header d true)

theorem returns_outcome (hlen : 28 ≤ L.len) (hc : ∀ b, 0 < L.count b) :
    Returns (bootSelectAndCopy req) (fun rsp s' => ∃ b, L.codeSelects s.disk = some b ∧
      rsp.brHdr = (L.header s.disk b).masked ∧ Outcome L s.disk b s'.disk) s := by
  refine returns_bootSelectAndCopy hc (returns_bootBuildStatus hc) ?_ ?_
  · intro t m
    exact ⟨fun _ => rfl, fun h => by cases h⟩
  intro es t m hD _
  by_cases hgood : Clear L s.disk ∧ L.designSelects s.disk = some true ∧
      0 < (L.header s.disk true).ihImgSize
  · obtain ⟨hclear, hsel, hpos⟩ := hgood
    have hmag : (L.header s.disk true).ihMagic = imageMagic :=
      designSelects_magic hsel
    refine (returns_bootCopyImage hc hD
      (ImageHeader.statusLength_of_magic hmag ▸ hpos) (hclear hsel)).mono ?_
    intro _ s' hH
    exact ⟨fun h => (by cases h), fun _ _ _ _ => header_of_front hlen hH⟩
  · intro left a s' left' _
    exact ⟨fun h => (by cases h), fun _ h1 h2 h3 => absurd ⟨h1, h2, h3⟩ hgood⟩

/-- An image of slot 1 that takes no area is not what slot 0 starts with
after it was selected. -/
theorem returns_empty (hlen : 28 ≤ L.len) (hc : ∀ b, 0 < L.count b)
    (hsel : L.designSelects s.disk = some true) (hclear : Clear L s.disk)
    (hfit : L.parts (L.header s.disk false).statusLength ≤ L.count false)
    (hz : (L.header s.disk true).ihImgSize = 0) : Returns (bootSelectAndCopy req) (fun _ s' =>
      L.codeSelects s.disk = some true → L.header s'.disk false ≠ L.header s.disk true) s := by
  have hm1 : (L.header s.disk true).ihMagic = imageMagic :=
    designSelects_magic hsel
  have hl1 : (L.header s.disk true).statusLength = 0 :=
    (ImageHeader.statusLength_of_magic hm1).trans hz
  have hdiff := designSelects_true_ne hsel
  -- Either there is nothing of image 0 to move, and slot 0 stays as it is, or
  -- its first area is moved away.
  by_cases h0 : (L.header s.disk false).statusLength = 0
  · refine (returns_bootSelectAndCopy hc
      (P := fun _ d' => d'.flash = s.disk.flash) (returns_bootBuildStatus hc)
      (fun _ _ => rfl) ?_).mono ?_
    · intro es t m _ _
      rw [h0, hl1]
      refine Wp.bind_returns (wp_bootSlotToAreaIdx (hc false) ?_)
      refine .bind (returns_bootFillSlot_zero ?_)
      refine Wp.bind_returns (wp_bootSlotToAreaIdx (hc true) ?_)
      exact returns_bootFillSlot_zero rfl
    · intro _ s' ⟨_, _, _, hflash⟩ _
      rw [Layout.header_flash hflash]
      exact hdiff
  have hm0 : (L.header s.disk false).ihMagic = imageMagic := by
    by_contra hm
    exact h0 (if_neg hm)
  have hl0 := ImageHeader.statusLength_of_magic hm0
  let I : Images :=
    { n := fun b => L.parts (L.header s.disk b).ihImgSize
      byte := fun _ _ _ => 0
      size := fun b => (L.header s.disk b).ihImgSize }
  have hn1 : I.n true = 0 := by
    show L.parts (L.header s.disk true).ihImgSize = 0
    rw [hz]
    exact Nat.eq_zero_of_not_pos fun h =>
      absurd (Layout.lt_parts.mp h) (Nat.not_lt_zero _)
  refine (returns_bootSelectAndCopy hc (E := Records L I inSlots) (P := fun b d' => b = true →
      (L.header d' false).ihMagic ≠ imageMagic) ?_ (fun _ _ h => by cases h) ?_).mono ?_
  · rw [masked_of_magic hm0, masked_of_magic hm1]
    refine Wp.returns (Q := ⟨_, fun _ _ => True, fun _ => True, True⟩)
      (wp_bootBuildStatus (I := I) (fun _ => rfl) ?_ hc hm0 hm1 rfl rfl ?_)
    · intro b
      cases b with
      | false =>
        show L.parts (L.header s.disk false).ihImgSize ≤ L.count false
        rw [← hl0]
        exact hfit
      | true => rw [hn1]; exact Nat.zero_le _
    · intro es hR
      refine ⟨es, hR, ?_⟩
      simp only [St.described, hl0, ImageHeader.statusLength_of_magic hm1]
      rfl
  · intro es t m hR _
    rw [hl1]
    refine (returns_bootCopyImage_empty hc hR hn1 (Nat.pos_of_ne_zero h0) (hclear hsel)).mono ?_
    intro _ s' hH _
    exact header_of_erased hlen hH
  · intro _ s' ⟨b, hb, _, hP⟩ hcode he
    rw [hcode] at hb
    cases hb
    exact hP rfl (he ▸ hm1)

variable (L) in
/-- No vector that is consulted on a disk is misread. -/
def Layout.Names (d : Disk) : Prop :=
  Boot.Names (L.header d) (vectVersion d.test) (vectVersion d.main)

/-- On whatever disk `boot_go` is started, if it returns 0 the copy it may
have had to resume was completed, on a disk `s₁.disk`, and its report is the
one the design document asks for there when no vector is misread, an image
selected in slot 1 takes an area at all, and image 0 moved to slot 1 does not
run into slot 0. The first of these is needed in every case, the second where
image 0 lies within its slot. -/
theorem bootGo_answers_iff (hlen : 28 ≤ L.len) (hc : ∀ b, 0 < L.count b)
    {d : Disk} {left left' : Option Nat} {rsp : BootRsp} {s' : St}
    (hgo : d.bootGo req left = .ok rsp s' left') :
    ∃ s₁ left₁, bootResume req d.init left = .ok () s₁ left₁ ∧
      (Clear L s₁.disk → L.Names s₁.disk → Moves L s₁.disk → Answers L s₁.disk rsp s'.disk) ∧
      (Answers L s₁.disk rsp s'.disk → L.Names s₁.disk ∧ (Clear L s₁.disk →
          L.parts (L.header s₁.disk false).statusLength ≤ L.count false → Moves L s₁.disk)) := by
  obtain ⟨s₁, left₁, hres, hparts⟩ := bootGo_parts hgo
  obtain ⟨s₂, ⟨b, hb, hrsp, hstay, hcopy⟩, hflash⟩ :=
    hparts _ (returns_outcome hlen hc)
  refine ⟨s₁, left₁, hres, ?_, fun hA => ?_⟩
  · intro hclear hN hM
    have hdes : L.designSelects s₁.disk = some b :=
      (codeSelects_eq hN).symm.trans hb
    have hmag : (L.header s₁.disk b).ihMagic = imageMagic :=
      designSelects_magic hdes
    rw [masked_of_magic hmag] at hrsp
    refine ⟨hrsp ▸ hmag, ?_, b, hdes, hrsp⟩
    rw [hrsp, Layout.header_flash hflash]
    cases b with
    | false => exact (Layout.header_flash (hstay rfl) false).symm
    | true => exact (hcopy rfl hclear hdes (hM hdes)).symm
  · have hN : L.Names s₁.disk := by
      by_contra hN
      obtain ⟨c, hcode, hmag⟩ := codeSelects_of_not_names hN
      rw [show L.codeSelects s₁.disk = some c from hcode] at hb
      cases hb
      have hm := hA.magic
      rw [hrsp, masked_of_not_magic hmag] at hm
      exact absurd hm (by decide)
    refine ⟨hN, fun hclear hfit hsel => ?_⟩
    by_contra hz
    have hcode : L.codeSelects s₁.disk = some true :=
      (codeSelects_eq hN).trans hsel
    obtain ⟨s₃, hne, hflash'⟩ := hparts _ (returns_empty hlen hc hsel
      hclear hfit (Nat.eq_zero_of_not_pos hz))
    refine hne hcode ?_
    obtain ⟨c, hdes, hrsp'⟩ := hA.selected
    rw [hsel] at hdes
    cases hdes
    rw [← hrsp', hA.front, Layout.header_flash hflash']

end Call

/-! ## Calls on the layout with two areas to a slot -/

/-- What a call reports, and the header that slot 0 starts with after it. -/
def reported (dev base : Nat) : Out St BootErr BootRsp → Option (ImageHeader × ImageHeader)
  | .ok rsp s _ => some (rsp.brHdr, readHeader (s.disk.flash dev) base)
  | _ => .none

theorem exists_reported {o : Out St BootErr BootRsp} {dev base : Nat}
    {h h' : ImageHeader} (ho : reported dev base o = some (h, h')) :
    ∃ rsp s left, o = .ok rsp s left ∧ rsp.brHdr = h ∧ readHeader (s.disk.flash dev) base = h' := by
  cases o with
  | ok rsp s left =>
    simp only [reported, some.injEq, Prod.mk.injEq] at ho
    exact ⟨rsp, s, left, rfl, ho.1, ho.2⟩
  | _ => cases ho

/-- The header of `twoAreaImage`. -/
def twoAreaHeader (version imgSize : Nat) : ImageHeader :=
  ⟨imageMagic, 0, 32, imgSize, 0, ⟨version, 0, 0, 0⟩⟩

/-- With version 2 in slot 1 named by the main vector, the report is what the
procedure asks for. -/
theorem bootGo_answers_twoArea : ∃ rsp s' left',
    twoAreaDisk.bootGo twoAreaReq none = .ok rsp s' left' ∧
    Answers twoAreaLayout twoAreaDisk rsp s'.disk := by
  obtain ⟨rsp, s', left', hgo, -, -⟩ := exists_reported
    (show reported 0 40 (twoAreaDisk.bootGo twoAreaReq none) =
      some (twoAreaHeader 2 48, twoAreaHeader 2 48) by decide +kernel)
  obtain ⟨s1, left1, hres, hok, -⟩ := bootGo_answers_iff (L := twoAreaLayout)
    (by decide) (by decide) hgo
  cases hres
  refine ⟨rsp, s', left', hgo, hok ?_ ⟨?_, ?_⟩ ?_⟩
  · intro _ k _ h
    simp only [twoAreaLayout, if_true, Bool.false_eq_true, if_false] at h
    omega
  · intro v hv
    cases hv
  · intro v hv _ hmis
    cases hv
    exact absurd hmis.1 (by decide)
  · intro _
    decide +kernel

/-- Slot 0 is empty, slot 1 has version 2, and the test vector is all ones. -/
def onesDisk : Disk :=
  { twoAreaDisk with
    flash := fun f a => if a < 120 then 0xff else twoAreaDisk.flash f a
    test := some (.version ⟨0xff, 0xff, 0xffff, 0xffffffff⟩)
    main := .none }

/-- Slot 1's image has a size of 0. -/
def emptyDisk : Disk :=
  { twoAreaDisk with
    flash := fun f a => if a = 132 then 0 else twoAreaDisk.flash f a }

/-- Slot 1 comes before slot 0 and is the shorter one. -/
def overrunReq : BootReq where
  areaDescs := (range 7).map fun i => ⟨40 * i, 40, 0⟩
  imageAreas := [1, 2, 3, 4, 5, 6]
  slotAreas := [3, 1]
  scratchAreaIdx := 6

/-- Version 1 in slot 0 takes three areas, version 2 in slot 1 takes two and
is named by the main vector. -/
def overrunDisk : Disk where
  flash _ a :=
    if a < 40 then 0xff
    else if a < 120 then (twoAreaImage 2 0x22).getD (a - 40) 0
    else if a = 132 then 88
    else if a < 240 then (twoAreaImage 1 0x11 ++ replicate 40 0x11).getD (a - 120) 0
    else 0xff
  status := .none
  test := .none
  main := some (.version ⟨2, 0, 0, 0⟩)

/-- Three calls that return 0. An all-ones test vector selects the empty
slot 0, and a header without the magic is reported. An image of size 0 is
reported from slot 1 while slot 0 is left erased. Image 0, larger than a slot
1 that lies before slot 0, runs into slot 0's first area when it is moved. -/
theorem bootGo_answers_fails : (∃ rsp s left, onesDisk.bootGo twoAreaReq none = .ok rsp s left ∧
      rsp.brHdr = .blank ∧ readHeader (s.disk.flash 0) 40 = .blank) ∧
    (∃ rsp s left, emptyDisk.bootGo twoAreaReq none = .ok rsp s left ∧
      rsp.brHdr = twoAreaHeader 2 0 ∧ readHeader (s.disk.flash 0) 40 = .blank) ∧
    ∃ rsp s left, overrunDisk.bootGo overrunReq none = .ok rsp s left ∧
      rsp.brHdr = twoAreaHeader 2 48 ∧
      readHeader (s.disk.flash 0) 120 = ⟨0x11111111, 0x11111111, 0x11111111,
        0x11111111, 0x11111111, ⟨0x11, 0x11, 0x1111, 0x11111111⟩⟩ :=
  ⟨exists_reported (by decide +kernel), exists_reported (by decide +kernel),
    exists_reported (by decide +kernel)⟩

end Larva.Boot
