import Larva.Boot.Swap
import Mathlib.Data.List.TakeWhile

/-!
# Completing a copy

The placements a swap of two images passes through are described part by
part: where part `k` of the two images stands is decided by one `Phase`.
`boot_fill_slot` works through the parts in order and brings each to its
last phase, first for image 1, then for image 0.

The scratch area can hold one part. A part that a reset left there stays
there until `boot_fill_slot` comes to image 0, while the next part to be
swapped in full needs the scratch area for itself. `Safe` is the condition
that no such part remains: it is what the first of the two loops needs, and
every loop round keeps it.
-/

namespace Larva.Boot

open Larva.Crash

/-- How far the swap of one part has come: nothing moved, image 0's part in
the scratch area, image 1's part in slot 0 as well, both in place. -/
inductive Phase where
  | orig
  | backedUp
  | replaced
  | done
deriving DecidableEq

/-- Image 0's part is in the scratch area. -/
def Phase.held : Phase → Prop
  | .orig => False
  | .backedUp => True
  | .replaced => True
  | .done => False

/-- The placement the phases describe. -/
def locate (ph : Nat → Phase) : Placement
  | false, k =>
    match ph k with
    | .orig => .slot false k
    | .backedUp => .scratch
    | .replaced => .scratch
    | .done => .slot true k
  | true, k =>
    match ph k with
    | .orig => .slot true k
    | .backedUp => .slot true k
    | .replaced => .slot false k
    | .done => .slot false k

def setPhase (ph : Nat → Phase) (k : Nat) (p : Phase) : Nat → Phase :=
  fun l => if l = k then p else ph l

@[simp] theorem setPhase_same (ph : Nat → Phase) (k : Nat) (p : Phase) :
    setPhase ph k p k = p := if_pos rfl

theorem setPhase_other (ph : Nat → Phase) {k l : Nat} (p : Phase)
    (h : l ≠ k) : setPhase ph k p l = ph l := if_neg h

section Phases

variable {req : BootReq} {L : Layout req} {I : Images}

variable (L I) in
/-- Either image fits either slot. -/
def Fits : Prop := ∀ b c, I.n b ≤ L.count c

variable (I) in
/-- Only one part is in the scratch area, and it is a part of both images. -/
structure Tidy (ph : Nat → Phase) : Prop where
  held_lt : ∀ k, (ph k).held → k < I.n false ∧ k < I.n true
  one : ∀ k l, (ph k).held → (ph l).held → k = l

variable (I) in
/-- With a part in the scratch area no other part is left to be swapped. -/
def Safe (ph : Nat → Phase) : Prop :=
  ∀ k, (ph k).held → ∀ l, l < I.n false → l < I.n true → l ≠ k → ph l = .done

variable {ph : Nat → Phase} {b c : Bool} {k : Nat} {W W' : Placement} {p : Phase}

theorem locate_slot {l : Nat} (h : locate ph b k = .slot c l) : l = k := by
  cases b <;> simp only [locate] at h <;> cases hp : ph k <;>
    simp only [hp] at h <;> cases h <;> rfl

theorem locate_scratch (h : locate ph b k = .scratch) : b = false ∧ (ph k).held := by
  cases b <;> simp only [locate] at h <;> cases hp : ph k <;>
    simp only [hp] at h <;> first | exact ⟨rfl, trivial⟩ | cases h

theorem Tidy.proper (hT : Tidy I ph) (hF : Fits L I) : Proper L I (locate ph) := by
  constructor
  · intro b k hk
    cases hl : locate ph b k with
    | slot c l =>
      have := locate_slot hl
      subst this
      exact lt_of_lt_of_le hk (hF b c)
    | scratch => trivial
  intro b k c l hk hl he
  cases hb : locate ph b k with
  | scratch =>
    rw [hb] at he
    obtain ⟨rfl, h1⟩ := locate_scratch hb
    obtain ⟨rfl, h2⟩ := locate_scratch he.symm
    exact ⟨rfl, hT.one k l h1 h2⟩
  | slot e m =>
    rw [hb] at he
    have h1 := locate_slot hb
    have h2 := locate_slot he.symm
    subst h1
    subst h2
    refine ⟨?_, rfl⟩
    -- The two images' parts of one number are never at one place.
    cases b <;> cases c <;> first | rfl | skip
    all_goals
      simp only [locate] at hb he
      cases hp : ph m <;> simp only [hp] at hb he <;> rw [← hb] at he <;> cases he

theorem free_of_locate (h : ∀ b, k < I.n b → locate ph b k ≠ .slot c k) :
    Free I (locate ph) (.slot c k) := by
  intro b l hl he
  have := locate_slot he
  subst this
  exact h b hl he

theorem free_scratch (h : ∀ k, ¬ (ph k).held) : Free I (locate ph) .scratch :=
  fun _ k _ he => h k (locate_scratch he).2

section

variable (h : ∀ b k, k < I.n b → W b k = W' b k)
include h

/-- Placements that agree on the parts of the images are recorded and kept
alike. -/
theorem Records.congr {es : List BootStatusEntry} (hR : Records L I W es) : Records L I W' es :=
  ⟨hR.len, fun b k hk => by rw [← h b k hk]; exact hR.part b k hk,
    fun p hp hf => hR.free p hp fun b k hk he =>
      hf b k hk ((h b k hk).symm.trans he)⟩

theorem Saved.congr {d : Disk} (hS : Saved L I W d) : Saved L I W' d := by
  refine ⟨fun b k hk => by rw [← h b k hk]; exact hS.keeps b k hk, ?_⟩
  rcases hS.status with ⟨hn, hw⟩ | ⟨es, hs, hR⟩
  · exact .inl ⟨hn, fun b k hk => (h b k hk).symm.trans (hw b k hk)⟩
  · exact .inr ⟨es, hs, hR.congr h⟩

theorem Placed.congr {s : St} (hS : Placed L I W s) : Placed L I W' s :=
  ⟨hS.saved.congr h, hS.records.congr h, hS.img1, hS.img2⟩

end

/-! ## The moves as phase changes -/

theorem locate_swaps (h : ph k = .orig) :
    (locate ph).swap₁ false k = locate (setPhase ph k .backedUp) ∧
    (locate ph).swap₂ true k false k = locate (setPhase ph k .replaced) ∧
    (locate ph).swap₃ true k false k = locate (setPhase ph k .done) := by
  unfold Placement.swap₃ Placement.swap₂ Placement.swap₁ Placement.move
  refine ⟨?_, ?_, ?_⟩ <;> funext b l <;> by_cases hl : l = k
  any_goals
    subst hl
    cases b <;> simp [locate, h]
  all_goals cases b <;> simp [locate, hl, setPhase_other ph _ hl]

/-- A move of image `b`'s part to its place in the other slot, where it is not
yet; the part of the other image of that number, if there is one, is out of
the way. -/
theorem locate_move (hb : locate (setPhase ph k p) b k = .slot (!b) k)
    (ho : k < I.n (!b) → locate (setPhase ph k p) (!b) k = locate ph (!b) k) : ∀ c l, l < I.n c →
      (locate ph).move b k (.slot (!b) k) c l = locate (setPhase ph k p) c l := by
  intro c l hl
  by_cases h : c = b ∧ l = k
  · obtain ⟨rfl, rfl⟩ := h
    rw [Placement.move_same, hb]
  rw [Placement.move_other _ _ h]
  by_cases hlk : l = k
  · subst hlk
    have hc : c = !b := by
      cases c <;> cases b <;> simp_all
    subst hc
    exact (ho hl).symm
  · cases c <;> simp [locate, setPhase_other ph p hlk]

theorem Tidy.set_free (hT : Tidy I ph) (k : Nat) (hp : ¬ p.held) : Tidy I (setPhase ph k p) := by
  have hheld : ∀ l, (setPhase ph k p l).held → (ph l).held := by
    intro l hl
    by_cases h : l = k
    · subst h
      rw [setPhase_same] at hl
      exact absurd hl hp
    · rwa [setPhase_other ph p h] at hl
  exact ⟨fun l hl => hT.held_lt l (hheld l hl),
    fun l m hl hm => hT.one l m (hheld l hl) (hheld m hm)⟩

theorem Tidy.set_held (hk : k < I.n false ∧ k < I.n true) (ho : ∀ l, l ≠ k → ¬ (ph l).held) :
    Tidy I (setPhase ph k p) := by
  have hheld : ∀ l, (setPhase ph k p l).held → l = k := by
    intro l hl
    by_contra h
    rw [setPhase_other ph p h] at hl
    exact ho l h hl
  exact ⟨fun l hl => by rw [hheld l hl]; exact hk,
    fun l m hl hm => (hheld l hl).trans (hheld m hm).symm⟩

theorem Safe.set (hS : Safe I ph)
    (hp : p.held → (ph k).held) (hk : k < I.n false → k < I.n true → p = .done ∨ (ph k).held) :
    Safe I (setPhase ph k p) := by
  intro l hl m hm0 hm1 hne
  by_cases h : l = k
  · subst h
    rw [setPhase_same] at hl
    rw [setPhase_other ph p hne]
    exact hS l (hp hl) m hm0 hm1 hne
  rw [setPhase_other ph p h] at hl
  by_cases hmk : m = k
  · subst hmk
    rw [setPhase_same]
    rcases hk hm0 hm1 with hd | hheld
    · exact hd
    · -- Two parts cannot both be held: the other would have to be done.
      have hld : ph m = .done := hS l hl m hm0 hm1 hne
      rw [hld] at hheld
      exact absurd hheld id
  · rw [setPhase_other ph p hmk]
    exact hS l hl m hm0 hm1 hne

end Phases

/-! ## One round of the loop -/

section Rounds

variable {req : BootReq} {L : Layout req} {I : Images}

variable (L I) in
/-- What a reset finds while a copy is under way. -/
def Midway (d : Disk) : Prop :=
  ∃ ph, Tidy I ph ∧ Saved L I (locate ph) d

variable {b : Bool} {k : Nat} {ph : Nat → Phase} {s : St} {Q : Post St BootErr Unit}

theorem Fits.lt_256 (hF : Fits L I) (hk : k < I.n b) : k < 256 := by
  have h1 := hF b false
  have h2 : L.pos (.slot false k) < req.imageAreas.length :=
    Layout.pos_lt (lt_of_lt_of_le hk h1)
  have := L.num_le
  simp only [Layout.pos] at h2
  omega

variable (hF : Fits L I) (hT : Tidy I ph) (hS : Placed L I (locate ph) s)
include hF hT hS

/-- The round does nothing for a part that is in place. -/
theorem wp_fillPart_inPlace (hk : k < I.n b) (he : locate ph b k = .slot (!b) k)
    (hok : Q.ok () s) : Wp (bootFillPart req b.toNat (L.start (!b)) k) Q s := by
  refine .bind (.get ?_)
  simp only [hS.records.find (hT.proper hF) hk, he]
  rw [if_pos (by rfl)]
  exact .pure hok

variable (hcut : Guarded (Midway L I) s Q)
include hcut

/-- A move of part `k` of image `b` to its place in the other slot. -/
theorem wp_fillMove (hk : k < I.n b) {p : Phase} (hp : Tidy I (setPhase ph k p))
    (hne : locate ph b k ≠ .slot (!b) k) (hfree : Free I (locate ph) (.slot (!b) k))
    (hb : locate (setPhase ph k p) b k = .slot (!b) k)
    (ho : k < I.n (!b) → locate (setPhase ph k p) (!b) k = locate ph (!b) k)
    (hok : ∀ s', Placed L I (locate (setPhase ph k p)) s' → SameVect s s' → Q.ok () s') :
    Wp (bootFillPart req b.toNat (L.start (!b)) k) Q s := by
  have hW := hT.proper hF
  have hq : L.Ok (.slot (!b) k) := lt_of_lt_of_le hk (hF b (!b))
  have hcong := locate_move hb ho
  refine .bind (.get ?_)
  simp only [hS.records.find hW hk]
  have hidx : L.idx (locate ph b k) ≠ L.start (!b) + k := fun he =>
    hne (Layout.idx_inj (hW.ok b k hk) hq he)
  rw [if_neg hidx]
  refine .bind (wp_imageAreaIdx hq ?_)
  refine .bind (wp_index (hS.records.free _ hq hfree) ?_)
  refine wp_bootMoveArea hW hk hq hfree (hF.lt_256 hk) hS
    (hcut.later ⟨rfl, rfl, rfl, rfl⟩ fun d hd => ?_) fun s' hs' hv => hok s' (hs'.congr hcong) hv
  rcases hd with hd | hd
  · exact ⟨ph, hT, hd⟩
  · exact ⟨_, hp, hd.congr hcong⟩

/-- A full swap of part `k`, with the scratch area free. -/
theorem wp_fillSwap (hk0 : k < I.n false) (hk1 : k < I.n true)
    (horig : ph k = .orig) (hnone : ∀ l, ¬ (ph l).held)
    (hok : ∀ s', Placed L I (locate (setPhase ph k .done)) s' → SameVect s s' → Q.ok () s') :
    Wp (bootFillPart req 1 (L.start false) k) Q s := by
  have hW := hT.proper hF
  have h1 : locate ph true k = .slot true k := by simp [locate, horig]
  have h0 : locate ph false k = .slot false k := by simp [locate, horig]
  have hq : L.Ok (.slot false k) := lt_of_lt_of_le hk1 (hF true false)
  refine .bind (.get ?_)
  have hfind := hS.records.find hW hk1
  simp only [Bool.toNat_true] at hfind
  simp only [hfind]
  have hidx : L.idx (locate ph true k) ≠ L.start false + k := by
    intro he
    have := Layout.idx_inj (hW.ok true k hk1) hq he
    rw [h1] at this
    cases this
  rw [if_neg hidx]
  refine .bind (wp_imageAreaIdx hq ?_)
  have hpart := hS.records.part false k hk0
  rw [h0] at hpart
  refine .bind (wp_index hpart ?_)
  rw [show L.start false + k = L.idx (locate ph false k) by rw [h0]; rfl]
  obtain ⟨hback, hrepl, hdone⟩ := locate_swaps horig
  have hheld : ∀ p, Tidy I (setPhase ph k p) := fun p =>
    Tidy.set_held ⟨hk0, hk1⟩ fun l _ => hnone l
  refine wp_bootSwapAreas hW hk1 hk0 (by simp) (free_scratch hnone) hS
    (hcut.later ⟨rfl, rfl, rfl, rfl⟩ ?_) ?_
  · rintro d (hd | hd | hd)
    · exact ⟨ph, hT, hd⟩
    · exact ⟨_, hheld _, hback ▸ hd⟩
    · exact ⟨_, hheld _, hrepl ▸ hd⟩
  · intro s' hs' hv
    rw [hdone] at hs'
    exact hok s' hs' hv

/-- A round for image 1 leaves its part in slot 0 and keeps the scratch area
usable. -/
theorem wp_fillPart_one (hSafe : Safe I ph) (hk : k < I.n true)
    (hok : ∀ s' ph', Tidy I ph' → Safe I ph' → Placed L I (locate ph') s' →
      (ph' k = .replaced ∨ ph' k = .done) → (∀ l, l ≠ k → ph' l = ph l) →
      SameVect s s' → Q.ok () s') : Wp (bootFillPart req 1 (L.start false) k) Q s := by
  cases hp : ph k with
  | orig =>
    have hdone : ∀ s', Placed L I (locate (setPhase ph k .done)) s' → SameVect s s' → Q.ok () s' := by
      intro s' hs' hv
      exact hok s' _ (hT.set_free k id) (hSafe.set (fun h => absurd h id) fun _ _ => .inl rfl) hs'
        (.inr (setPhase_same ph k _)) (fun l hl => setPhase_other ph _ hl) hv
    by_cases hk0 : k < I.n false
    · -- A part of both images: a full swap, through the scratch area.
      have hnone : ∀ l, ¬ (ph l).held := by
        intro l hl
        have hne : k ≠ l := by
          rintro rfl
          rw [hp] at hl
          exact hl
        have := hSafe l hl k hk0 hk hne
        rw [hp] at this
        cases this
      exact wp_fillSwap hF hT hS hcut hk0 hk hp hnone hdone
    · refine wp_fillMove hF hT hS hcut hk (hT.set_free k id) (by simp [locate, hp])
        (free_of_locate fun b hb => ?_) (by simp [locate]) (fun h => absurd h hk0) hdone
      cases b
      · exact absurd hb hk0
      · simp [locate, hp]
  | backedUp =>
    have hheld : (ph k).held := by rw [hp]; trivial
    have hT' : Tidy I (setPhase ph k .replaced) :=
      Tidy.set_held (hT.held_lt k hheld) fun l hl h =>
        hl (hT.one l k h hheld)
    refine wp_fillMove hF hT hS hcut hk hT'
      (by simp [locate, hp]) ?_ (by simp [locate]) (fun _ => by simp [locate, hp]) ?_
    · refine free_of_locate fun b _ => ?_
      cases b <;> simp [locate, hp]
    · intro s' hs' hv
      exact hok s' _ hT' (hSafe.set (fun _ => hheld) fun _ _ => .inr hheld)
        hs' (.inl (setPhase_same ph k _)) (fun l hl => setPhase_other ph _ hl) hv
  | replaced | done =>
    exact wp_fillPart_inPlace hF hT hS (b := true) hk (by simp [locate, hp])
      (hok s ph hT hSafe hS (by simp [hp]) (fun _ _ => rfl) ⟨rfl, rfl, rfl, rfl⟩)

/-- A round for image 0, once image 1 is in slot 0. -/
theorem wp_fillPart_zero (hone : ∀ l, l < I.n true → ph l = .replaced ∨ ph l = .done)
    (hk : k < I.n false)
    (hok : ∀ s' ph', Tidy I ph' → Placed L I (locate ph') s' →
      ph' k = .done → (∀ l, l ≠ k → ph' l = ph l) → SameVect s s' → Q.ok () s') :
    Wp (bootFillPart req 0 (L.start true) k) Q s := by
  have hmove : locate ph false k ≠ .slot true k → (k < I.n true → ph k = .replaced) →
      Wp (bootFillPart req 0 (L.start true) k) Q s := by
    intro hne hrep
    refine wp_fillMove hF hT hS hcut (p := .done) hk (hT.set_free k id)
      hne ?_ (by simp [locate]) ?_ ?_
    · refine free_of_locate fun b hb => ?_
      cases b
      · exact hne
      · simp [locate, hrep hb]
    · intro h
      simp [locate, hrep h]
    · intro s' hs' hv
      exact hok s' _ (hT.set_free k id) hs' (setPhase_same ph k _)
        (fun l hl => setPhase_other ph _ hl) hv
  cases hp : ph k with
  | orig =>
    refine hmove (by simp [locate, hp]) fun h => ?_
    rcases hone k h with h' | h' <;> rw [hp] at h' <;> cases h'
  | backedUp =>
    have hheld : (ph k).held := by rw [hp]; trivial
    have h := (hT.held_lt k hheld).2
    rcases hone k h with h' | h' <;> rw [hp] at h' <;> cases h'
  | replaced => exact hmove (by simp [locate, hp]) fun _ => hp
  | done =>
    exact wp_fillPart_inPlace hF hT hS hk (by simp [locate, hp])
      (hok s ph hT hS hp (fun _ _ => rfl) ⟨rfl, rfl, rfl, rfl⟩)

end Rounds

/-! ## The loops -/

section Loops

variable {req : BootReq} {L : Layout req} {I : Images} {size k : Nat} {b : Bool}

variable (L) in
/-- The number of areas that `size` bytes take. -/
def Layout.parts (size : Nat) : Nat := (size + L.len - 1) / L.len

theorem Layout.lt_parts : k < L.parts size ↔ k * L.len < size := by
  have hl := L.len_pos
  have h := Nat.le_div_iff_mul_le (x := k + 1) (y := size + L.len - 1) hl
  rw [add_one_mul] at h
  constructor
  · intro hk
    have := h.mp hk
    omega
  · intro hk
    exact h.mpr (by omega)

/-- The offset does not wrap: the slot is shorter than 2 ^ 32. -/
theorem Layout.next_offset (hk : k < L.count b) :
    (k * L.len + L.len) % 2 ^ 32 = (k + 1) * L.len := by
  rw [← add_one_mul]
  refine Nat.mod_eq_of_lt (lt_of_le_of_lt ?_ (L.slot_lt b))
  exact Nat.mul_le_mul_right _ hk

/-- There are no more parts in a slot than image areas. -/
theorem Layout.parts_le (hfit : L.parts size ≤ L.count b) :
    L.parts size ≤ req.imageAreas.length := by
  rcases Nat.eq_zero_or_pos (L.parts size) with h | h
  · omega
  · have h1 := Layout.pos_lt (p := .slot b (L.parts size - 1)) (lt_of_lt_of_le (by omega) hfit)
    simp only [Layout.pos] at h1
    omega

variable (L) in
theorem Layout.slotAreas_eq (b : Bool) : req.slotAreas[b.toNat]? = some (L.start b) := by
  rw [L.slots]
  cases b <;> rfl

theorem Layout.le_parts_mul (size : Nat) : size ≤ L.parts size * L.len :=
  Nat.not_lt.mp fun h => lt_irrefl _ (Layout.lt_parts.mpr h)

variable {s : St} {Q : Post St BootErr Unit}

/-- The index of a slot's first area, as `boot_slot_to_area_idx` finds it. -/
theorem wp_bootSlotToAreaIdx (hc : 0 < L.count b) {Q : Post St BootErr Nat}
    (hQ : Q.ok (L.start b) s) : Wp (bootSlotToAreaIdx req b.toNat) Q s := by
  have hdesc : req.areaDescs[L.start b]? = some (L.desc (.slot b 0)) :=
    Layout.desc_idx (p := .slot b 0) hc
  have hall : req.areaDescs.takeWhile (fun d => d.nadLength != 0) = req.areaDescs := by
    rw [List.takeWhile_eq_self_iff]
    intro d hd
    have := L.lengths d hd
    simpa using ne_of_gt this
  have hfind : req.areaDescs.findIdx? (fun d =>
      d.nadOffset == (L.desc (.slot b 0)).nadOffset &&
        d.nadFlashId == (L.desc (.slot b 0)).nadFlashId) = some (L.start b) := by
    obtain ⟨hlt, hget⟩ := List.getElem?_eq_some_iff.mp hdesc
    rw [List.findIdx?_eq_some_iff_getElem]
    refine ⟨hlt, ?_, ?_⟩
    · simp [hget]
    -- An area at the same address would overlap the slot's first one.
    intro j hj hm
    have hjl : j < req.areaDescs.length := lt_trans hj hlt
    have hap := L.apart j (L.start b) _ _ (List.getElem?_eq_getElem hjl) hdesc (by omega)
    have h1 := L.lengths _ (List.getElem_mem hjl)
    have h2 := L.len_pos
    simp only [Bool.and_eq_true, beq_iff_eq] at hm
    simp only [AreaDesc.Apart, Layout.desc_len] at hap
    omega
  refine .bind (.bind (wp_index (L.slotAreas_eq b) ?_))
  refine wp_index hdesc ?_
  simp only [hall, hfind]
  exact .pure hQ

/-- The loop of `boot_fill_slot` visits the parts in order: an invariant that
every round carries from its part to the next holds after the last. -/
theorem wp_bootFillSlot {imgNum : Nat} {c : Bool} (hfit : L.parts size ≤ L.count c)
    (Inv : Nat → St → Prop)
    (hstep : ∀ k s, k < L.parts size → Inv k s → Wp (bootFillPart req imgNum (L.start c) k)
        ⟨fun _ s' => Inv (k + 1) s', Q.err, Q.cut, Q.stuck⟩ s)
    (hok : ∀ s, Inv (L.parts size) s → Q.ok () s) (h0 : Inv 0 s) :
    Wp (bootFillSlot req imgNum size (L.start c)) Q s := by
  have hloop : ∀ fuel k s, L.parts size < fuel + k → k ≤ L.parts size →
      Inv k s → Wp (bootFillSlotLoop req imgNum size (L.start c) fuel k (k * L.len)) Q s := by
    intro fuel
    induction fuel with
    | zero => intro k s hf hk; omega
    | succ n ih =>
      intro k s hf hk hI
      unfold bootFillSlotLoop
      split
      · next hlt =>
        have hkn := Layout.lt_parts.mpr hlt
        have hkc : L.Ok (.slot c k) := lt_of_lt_of_le hkn hfit
        refine .bind ((hstep k s hkn hI).mono_ok fun _ s' hs' => ?_)
        refine .bind (wp_index (Layout.desc_idx hkc) ?_)
        simp only [Layout.desc_len]
        rw [Layout.next_offset hkc]
        exact ih (k + 1) s' (by omega) hkn hs'
      · next hge =>
        have : k = L.parts size :=
          le_antisymm hk (Nat.not_lt.mp fun h =>
            hge (Layout.lt_parts.mp h))
        subst this
        exact .pure (hok s hI)
  have hnum := L.num_le
  have hle := Layout.parts_le hfit
  have h := hloop 258 0 s (by omega) (Nat.zero_le _) h0
  rw [zero_mul] at h
  exact h

/-- Both images in the other's slot. -/
def swapped : Placement := locate fun _ => .done

/-- `boot_copy_image` from any safe state between two moves. -/
theorem wp_bootCopyImage (hF : Fits L I) (hn : ∀ b, I.n b = L.parts (I.size b))
    (hpos : ∀ b, 0 < L.count b) {ph : Nat → Phase} (hT : Tidy I ph) (hSafe : Safe I ph)
    (hS : Placed L I (locate ph) s) (hcut : Guarded (Midway L I) s Q)
    (hok : ∀ s', Placed L I swapped s' → SameVect s s' → Q.ok () s') :
    Wp (bootCopyImage req (I.size false) (I.size true)) Q s := by
  refine .bind (wp_bootSlotToAreaIdx (hpos false) ?_)
  refine .bind (wp_bootFillSlot (by rw [← hn]; exact hF true false)
    (fun k s' => ∃ ph, Tidy I ph ∧ Safe I ph ∧ Placed L I (locate ph) s' ∧ SameVect s s' ∧
      ∀ l, l < k → ph l = .replaced ∨ ph l = .done) ?_ ?_
    ⟨ph, hT, hSafe, hS, ⟨rfl, rfl, rfl, rfl⟩, fun l hl =>
      absurd hl (Nat.not_lt_zero l)⟩)
  · rintro k s1 hk ⟨ph, hT, hSafe, hS, hv, hlt⟩
    rw [← hn] at hk
    refine wp_fillPart_one hF hT hS (hcut.later hv fun _ => id) hSafe hk ?_
    intro s' ph' hT' hSafe' hS' hk' hother hv'
    refine ⟨ph', hT', hSafe', hS', hv.trans hv', fun l hl => ?_⟩
    by_cases h : l = k
    · rw [h]
      exact hk'
    · rw [hother l h]
      exact hlt l (by omega)
  rintro s1 ⟨ph, hT, -, hS, hv, hone⟩
  rw [← hn] at hone
  refine .bind (wp_bootSlotToAreaIdx (hpos true) ?_)
  refine wp_bootFillSlot (by rw [← hn]; exact hF false true)
    (fun k s' => ∃ ph, Tidy I ph ∧ Placed L I (locate ph) s' ∧
      SameVect s s' ∧ (∀ l, l < I.n true → ph l = .replaced ∨ ph l = .done) ∧
      ∀ l, l < k → ph l = .done) ?_ ?_
    ⟨ph, hT, hS, hv, hone, fun l hl => absurd hl (Nat.not_lt_zero l)⟩
  · rintro k s2 hk ⟨ph, hT, hS, hv, hone, hlt⟩
    rw [← hn] at hk
    refine wp_fillPart_zero hF hT hS (hcut.later hv fun _ => id) hone hk ?_
    intro s' ph' hT' hS' hk' hother hv'
    refine ⟨ph', hT', hS', hv.trans hv', fun l hl => ?_, fun l hl => ?_⟩
    · by_cases h : l = k
      · rw [h]
        exact .inr hk'
      · rw [hother l h]
        exact hone l hl
    · by_cases h : l = k
      · rw [h]
        exact hk'
      · rw [hother l h]
        exact hlt l (by omega)
  · rintro s2 ⟨ph, hT, hS, hv, hone, hlt⟩
    rw [← hn] at hlt
    refine hok s2 (hS.congr ?_) hv
    intro b l hl
    cases b
    · simp [swapped, locate, hlt l hl]
    · rcases hone l hl with h | h <;> simp [swapped, locate, h]

end Loops

end Larva.Boot
