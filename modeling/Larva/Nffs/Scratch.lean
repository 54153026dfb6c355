import Larva.Nffs.Copying

/-!
# The scratch area

A collection copies one area into the scratch area, so the scratch area must
be as long as any other, and the area that becomes the next one must be as
long again. `nffs_gc_select_area` goes through the areas once: a longer area
takes the place of the one it has, and among areas of any length so does one
with a smaller sequence number. The second rule can replace a long area by a
short one that comes later.

When the last two areas are both of the greatest length this does not happen:
one of them is not the scratch area, and once the walk has come to it nothing
shorter follows. So the area that is chosen is again a longest one, whatever
the sequence numbers are. `Sound` is what all cycles keep then. Where the last
two areas are not both longest the invariant is lost, after the first cycle
in the example at the end.
-/

namespace Larva.Nffs.Flash

open Larva.Crash List Option

/-! ## Setting an area -/

section SetArea

variable {s : Flash} {i : Nat} {f g : FlashArea → FlashArea}

theorem setArea_setArea : setArea i g (setArea i f s) = setArea i (fun a => g (f a)) s := by
  simp only [setArea, modify_modify_eq]
  rfl

theorem lengths_setArea (hf : ∀ a, (f a).naLength = a.naLength) :
    (setArea i f s).areas.map FlashArea.naLength = s.areas.map FlashArea.naLength := by
  apply ext_getElem?
  intro j
  by_cases hj : j = i
  · subst hj
    cases h : s.areas[j]? with
    | none => simp [setArea, h]
    | some a => simp [setArea, h, hf]
  · simp only [getElem?_map, setArea_ne hj]

theorem lengths_fill {n : Nat} : (s.fill i n).areas.map FlashArea.naLength =
      s.areas.map FlashArea.naLength :=
  lengths_setArea fun _ => rfl

end SetArea

/-- The next element of a walk of a list. -/
theorem head_of_drop {α : Type} {l as : List α} {i : Nat} {a : α} (h : l.drop i = a :: as) :
    l[i]? = some a ∧ l.drop (i + 1) = as := by
  have hi := congrArg head? h
  rw [head?_drop] at hi
  refine ⟨hi, ?_⟩
  rw [← drop_drop, h]
  rfl

/-! ## Selection -/

/-- The last two of at least two areas are both of the greatest length. -/
def EndsLongest (descs : List Nat) : Prop :=
  2 ≤ descs.length ∧ ∀ k d, descs.length ≤ k + 2 → descs[k]? = some d → ∀ e ∈ descs, e ≤ d

instance (descs : List Nat) : Decidable (EndsLongest descs) :=
  decidable_of_iff (2 ≤ descs.length ∧ ∀ k < descs.length,
      descs.length ≤ k + 2 → ∀ e ∈ descs, e ≤ descs.getD k 0) (by
    refine and_congr_right fun _ =>
      ⟨fun h k d hk hd => ?_, fun h k hk hk' => ?_⟩
    · have hlt := (List.getElem?_eq_some_iff.mp hd).1
      have := h k hlt hk
      rwa [List.getD_eq_getElem?_getD, hd] at this
    · rw [List.getD_eq_getElem?_getD, getElem?_eq_getElem hk]
      exact h k _ hk' (getElem?_eq_getElem hk))

section Select

variable {s : Flash} {lim i : Nat}

/-- Area `j` could be collected: it is a longest one. -/
def Longest (s : Flash) (lim j : Nat) : Prop :=
  ∃ a, s.areas[j]? = some a ∧ j ≠ s.scratchAreaIdx ∧ a.naLength = lim

/-- No area from `j` on is shorter. -/
def LongFrom (s : Flash) (lim j : Nat) : Prop :=
  ∀ k a, j ≤ k → s.areas[k]? = some a → a.naLength = lim

/-- The walk has come to area `i`: it has a longest area and no shorter one is
to come, or it will come to such an area. -/
def Ahead (s : Flash) (lim i best : Nat) : Prop :=
  (Longest s lim best ∧ LongFrom s lim i) ∨ ∃ j, i ≤ j ∧ Longest s lim j ∧ LongFrom s lim j

theorem LongFrom.mono {j : Nat} (h : LongFrom s lim i) (hij : i ≤ j) :
    LongFrom s lim j :=
  fun k a hk ha => h k a (le_trans hij hk) ha

theorem wp_selectLoop {as : List FlashArea} {best : Nat} (hmax : ∀ a ∈ s.areas, a.naLength ≤ lim)
    (has : s.areas.drop i = as) (hbest : ∃ b, s.areas[best]? = some b) (h : Ahead s lim i best) :
    Wp (selectLoop s i as best) (Ends lim fun r s' => Longest s lim r ∧ s' = s) s := by
  induction as generalizing i best with
  | nil =>
    have hlen : s.areas.length ≤ i := drop_eq_nil_iff.mp has
    obtain ⟨hb, _⟩ | ⟨j, hij, ⟨a, ha, _⟩, _⟩ := h
    · exact .pure ⟨hb, rfl⟩
    · have := (List.getElem?_eq_some_iff.mp ha).1
      omega
  | cons a as ih =>
    obtain ⟨hi, hdrop⟩ := head_of_drop has
    rw [selectLoop]
    by_cases hscr : i = s.scratchAreaIdx
    · rw [if_pos hscr]
      refine ih hdrop hbest ?_
      obtain ⟨hb, hl⟩ | ⟨j, hij, hj, hl⟩ := h
      · exact .inl ⟨hb, hl.mono (Nat.le_succ i)⟩
      · have hne : j ≠ i := by
          obtain ⟨_, _, hjs, _⟩ := hj
          omega
        exact .inr ⟨j, by omega, hj, hl⟩
    rw [if_neg hscr]
    obtain ⟨b, hb⟩ := hbest
    refine .bind (wp_area hb ?_)
    -- An area no shorter than area `i` is never wrong: where it counts it is a longest one.
    have hnext : ∀ k b, s.areas[k]? = some b → k ≠ s.scratchAreaIdx → a.naLength ≤ b.naLength →
        Wp (selectLoop s (i + 1) as k) (Ends lim fun r s' => Longest s lim r ∧ s' = s) s := by
      intro k b hk hks hle
      refine ih hdrop ⟨b, hk⟩ ?_
      have hlong (hl : LongFrom s lim i) : Longest s lim k ∧ LongFrom s lim (i + 1) := by
        have hai := hl i a (le_refl i) hi
        have hbm := hmax b (mem_of_getElem? hk)
        exact ⟨⟨b, hk, hks, by omega⟩, hl.mono (Nat.le_succ i)⟩
      obtain ⟨_, hl⟩ | ⟨j, hij, hj, hl⟩ := h
      · exact .inl (hlong hl)
      · rcases Nat.eq_or_lt_of_le hij with rfl | hlt
        · exact .inl (hlong hl)
        · exact .inr ⟨j, hlt, hj, hl⟩
    have htake := hnext i a hi hscr (le_refl _)
    show Wp (if b.naLength < a.naLength then _ else _) _ s
    split
    · exact htake
    · next hnl =>
      split
      · exact htake
      · next hnb =>
        split
        · exact htake
        · exact hnext best b hb hnb (by omega)

theorem wp_nffsGcSelectArea (hmax : ∀ a ∈ s.areas, a.naLength ≤ lim)
    (hend : EndsLongest (s.areas.map FlashArea.naLength))
    (hlim : lim ∈ s.areas.map FlashArea.naLength) :
    Wp nffsGcSelectArea (Ends lim fun r s' => Longest s lim r ∧ s' = s) s := by
  obtain ⟨htwo, hlast⟩ := hend
  rw [length_map] at htwo hlast
  have hlong : LongFrom s lim (s.areas.length - 2) := by
    intro k a hk ha
    have hle := hlast k a.naLength (by omega) (by simp [ha]) lim hlim
    exact le_antisymm (hmax a (mem_of_getElem? ha)) hle
  -- The last area that can be collected.
  obtain ⟨j, hj, hjlt, hjs⟩ : ∃ j, s.areas.length - 2 ≤ j ∧
      j < s.areas.length ∧ j ≠ s.scratchAreaIdx := by
    by_cases h : s.areas.length - 1 = s.scratchAreaIdx
    · exact ⟨s.areas.length - 2, by omega, by omega, by omega⟩
    · exact ⟨s.areas.length - 1, by omega, by omega, h⟩
  have hjl : Longest s lim j :=
    ⟨_, getElem?_eq_getElem hjlt, hjs, hlong j _ hj (getElem?_eq_getElem hjlt)⟩
  have hahead : Ahead s lim 1 0 := by
    rcases Nat.eq_zero_or_pos j with rfl | hpos
    · exact .inl ⟨hjl, (hlong.mono hj).mono (Nat.zero_le 1)⟩
    · exact .inr ⟨j, hpos, hjl, hlong.mono hj⟩
  refine .get_bind (Ends.bind (wp_selectLoop hmax rfl
    ⟨_, getElem?_eq_getElem (by omega)⟩ hahead) id ?_)
  rintro r _ ⟨⟨a, ha, hne, hl⟩, rfl⟩
  exact .bind (.assert (by simpa using hne) (.pure ⟨⟨a, ha, hne, hl⟩, rfl⟩))

end Select

/-! ## What the cycles keep -/

/-- The scratch area is empty, marked as such in RAM and on flash, and as long
as any area; every other area has an id and room for what is live in it. -/
structure Sound (descs : List Nat) (s : Flash) : Prop where
  lengths : s.areas.map FlashArea.naLength = descs
  scratch : ∃ a, s.areas[s.scratchAreaIdx]? = some a ∧
    a.naCur = sizeofDiskArea - 1 ∧ a.naId = areaIdNone ∧
    a.ndaId = areaIdNone ∧ ∀ d ∈ descs, d ≤ a.naLength
  other : ∀ i a, s.areas[i]? = some a → i ≠ s.scratchAreaIdx →
    a.naId ≠ areaIdNone ∧ a.ndaId ≠ areaIdNone ∧
    sizeofDiskArea + s.live i ≤ a.naCur ∧ a.naCur ≤ a.naLength
  empty : s.live s.scratchAreaIdx = 0
  records : ∀ e ∈ s.inodes, e.Ok
  sizes : s.blockMaxDataSz ≤ blockMaxDataSzMax ∨ ∀ e ∈ s.inodes, e.blocks = []

section Cycle

variable {descs : List Nat} {s : Flash} {i lim : Nat} {a : FlashArea}

theorem wp_nffsFormatFromScratchArea {areaId : Nat} (ha : s.areas[i]? = some a)
    (hcur : a.naCur = areaOffsetId) (hid : a.ndaId = areaIdNone)
    (hlen : sizeofDiskArea ≤ a.naLength) (hl : a.naLength < 2 ^ 32) :
    Wp (nffsFormatFromScratchArea i areaId)
      (Ends lim fun _ s' => s' = setArea i (fun a => { a with
        naId := areaId, naCur := a.naCur + 1, ndaId := areaId }) s) s := by
  refine .bind (wp_area ha ?_)
  show Wp (if sizeofDiskArea > a.naLength then _ else _) _ s
  rw [if_neg (by omega)]
  refine .modify_bind ?_
  rw [if_neg (by simpa using hid), ← hcur]
  have hroom : a.naCur + 1 ≤ a.naLength := by
    simp only [areaOffsetId, sizeofDiskArea] at hcur hlen
    omega
  refine Ends.bind (wp_nffsFlashWrite (a := { a with naId := areaId })
    (setArea_at ha) hroom hl) id ?_
  rintro _ _ rfl
  exact .modify (by rw [fill, setArea_setArea, setArea_setArea])

theorem wp_nffsFormatArea_scratch (ha : s.areas[i]? = some a)
    (hlen : sizeofDiskArea ≤ a.naLength) (hl : a.naLength < 2 ^ 32) : Wp (nffsFormatArea i true)
      (Ends lim fun _ s' => s' = setArea i (fun a => { a with
        naCur := sizeofDiskArea - 1, naId := areaIdNone, ndaId := areaIdNone })
        s) s := by
  refine .modify_bind ?_
  refine .modify_bind ?_
  have ha' := setArea_at (f := fun a => { a with naId := areaIdNone, ndaId := areaIdNone })
    (setArea_at (f := fun a => { a with naCur := 0 }) ha)
  have hroom : 0 + (sizeofDiskArea - 1) ≤ a.naLength := by omega
  refine (wp_nffsFlashWrite ha' hroom hl).mono_ok ?_
  rintro _ _ rfl
  rw [fill, setArea_setArea, setArea_setArea]
  simp only [zero_add]

variable (hs : Sound descs s) {n : Nat} {es : List InodeLoc}
include hs

/-- The areas after a cycle that moved `n` bytes from `src` to what was the
scratch area. -/
theorem Sound.cycled {s' : Flash} {src : Nat} {t' a' : FlashArea}
    (hlen : s'.areas.map FlashArea.naLength = descs) (hscr : s'.scratchAreaIdx = src)
    (hsrc : s'.areas[src]? = some a') (hcur : a'.naCur = sizeofDiskArea - 1)
    (hid : a'.naId = areaIdNone ∧ a'.ndaId = areaIdNone) (hlong : ∀ d ∈ descs, d ≤ a'.naLength)
    (hdst : s'.areas[s.scratchAreaIdx]? = some t')
    (hid' : t'.naId ≠ areaIdNone ∧ t'.ndaId ≠ areaIdNone) (hcur' : t'.naCur = sizeofDiskArea + n)
    (hfit : t'.naCur ≤ t'.naLength)
    (hother : ∀ j, j ≠ src → j ≠ s.scratchAreaIdx → s'.areas[j]? = s.areas[j]?)
    (hmoves : Moves src s.scratchAreaIdx n (s.live ·) (s'.live ·)) (hrec : ∀ e ∈ s'.inodes, e.Ok)
    (hsizes : s'.blockMaxDataSz ≤ blockMaxDataSzMax ∨
      ∀ e ∈ s'.inodes, e.blocks = []) : Sound descs s' where
  lengths := hlen
  scratch := ⟨a', by rw [hscr]; exact hsrc, hcur, hid.1, hid.2, hlong⟩
  other j b hb hj := by
    rw [hscr] at hj
    by_cases hjd : j = s.scratchAreaIdx
    · subst hjd
      rw [hdst] at hb
      cases hb
      have hcame := hmoves.came
      have hempty := hs.empty
      exact ⟨hid'.1, hid'.2, by omega, hfit⟩
    · rw [hother j hj hjd] at hb
      have hsame : s'.live j = s.live j := hmoves.other j hj hjd
      rw [hsame]
      exact hs.other j b hb hjd
  empty := by
    rw [hscr]
    exact hmoves.gone
  records := hrec
  sizes := hsizes

theorem Sound.length_mem (ha : a ∈ s.areas) : a.naLength ∈ descs := by
  rw [← hs.lengths]
  exact mem_map_of_mem ha

/-- The length of the scratch area. -/
theorem Sound.longest : ∃ lim ∈ descs, ∀ d ∈ descs, d ≤ lim := by
  obtain ⟨t, ht, _, _, _, hmax⟩ := hs.scratch
  exact ⟨t.naLength, hs.length_mem (mem_of_getElem? ht), hmax⟩

/-- One cycle: it goes through, and what it leaves is as before. -/
theorem Sound.wp_nffsGc (hend : EndsLongest descs)
    (hbound : ∀ d ∈ descs, d < 2 ^ 32) (hlim : lim ∈ descs) (hmax : ∀ d ∈ descs, d ≤ lim) :
    Wp nffsGc (Ends lim fun r s' => Sound descs s' ∧ s'.blockMaxDataSz = s.blockMaxDataSz ∧
      r ≠ s'.scratchAreaIdx ∧ ∃ a, s'.areas[r]? = some a) s := by
  obtain ⟨t, ht, htc, hti, htn, htmax⟩ := hs.scratch
  have htl : t.naLength = lim :=
    le_antisymm (hmax _ (hs.length_mem (mem_of_getElem? ht))) (htmax lim hlim)
  have hlt := hbound lim hlim
  refine Ends.bind (wp_nffsGcSelectArea (fun a ha => hmax _ (hs.length_mem ha))
    (hs.lengths ▸ hend) (hs.lengths ▸ hlim)) id ?_
  rintro src s' ⟨⟨a, ha, hne, hal⟩, hs'⟩
  rw [hs']
  obtain ⟨hida, hnda, hlive, hcur⟩ := hs.other src a ha hne
  refine .get_bind (.bind (wp_area ha ?_))
  refine Ends.bind (wp_nffsFormatFromScratchArea ht htc htn (by omega) (by omega)) id ?_
  rintro _ _ rfl
  have ht1 := setArea_at ht
    (f := fun t => { t with
      naId := a.naId, naCur := t.naCur + 1, ndaId := a.naId })
  have htc1 : t.naCur + 1 = sizeofDiskArea := by
    rw [htc]
    rfl
  -- All that is live in the source fits into an area of the same length.
  have hroom : Room s.scratchAreaIdx (liveInodes src s.inodes) lim _ :=
    ⟨_, ht1, htl, by
      show t.naCur + 1 + s.live src ≤ lim
      omega, hlt⟩
  refine Ends.bind (wp_gcInodes hne hs.sizes hs.records hroom) id ?_
  rintro es _ ⟨hok, hnil, n, hmoves, k, rfl⟩
  refine .modify_bind ?_
  have hsrc1 : ∀ f g, (setArea s.scratchAreaIdx f
      (setArea s.scratchAreaIdx g s)).areas[src]? = some a := by
    intro f g
    rw [setArea_ne hne, setArea_ne hne, ha]
  refine .bind (wp_area (fill_at ht1) ?_)
  refine .bind (wp_area (hsrc1 _ _) ?_)
  have hle : n ≤ s.live src := hmoves.le
  refine .bind (.assert (decide_eq_true ?_) ?_)
  · show t.naCur + 1 + n ≤ a.naCur
    omega
  refine .modify_bind ?_
  refine Ends.bind (wp_nffsFormatArea_scratch (setArea_at (hsrc1 _ _))
    (show sizeofDiskArea ≤ a.naLength by omega) (show a.naLength < 2 ^ 32 by omega)) id ?_
  rintro _ _ rfl
  have hdst : ∀ f g u, (setArea src f (setArea src g u)).areas[s.scratchAreaIdx]? =
        u.areas[s.scratchAreaIdx]? := by
    intro f g u
    rw [setArea_ne hne.symm, setArea_ne hne.symm]
  refine .modify_bind (.pure ⟨?_, rfl, hne.symm, _, (hdst _ _ _).trans (fill_at ht1)⟩)
  refine hs.cycled ?_ rfl (setArea_at (setArea_at (hsrc1 _ _))) rfl ⟨rfl, rfl⟩
    (fun d hd => le_trans (hmax d hd) (le_of_eq hal.symm))
    ((hdst _ _ _).trans (fill_at ht1)) ⟨hida, hida⟩ ?_ ?_ ?_ hmoves hok ?_
  · refine (lengths_setArea ?_).trans ((lengths_setArea ?_).trans
      ((lengths_setArea ?_).trans ((lengths_setArea ?_).trans hs.lengths)))
    all_goals exact fun _ => rfl
  · show t.naCur + 1 + n = sizeofDiskArea + n
    omega
  · show t.naCur + 1 + n ≤ t.naLength
    omega
  · intro j hj hjd
    refine (setArea_ne hj).trans ((setArea_ne hj).trans ?_)
    exact (setArea_ne hjd).trans (setArea_ne hjd)
  · exact hs.sizes.imp_right hnil

/-- A record at the end of an area, and entries that have no more live bytes
than before and this record. -/
theorem Sound.put (ha : s.areas[i]? = some a) (hi : i ≠ s.scratchAreaIdx)
    (hc : a.naCur + n ≤ a.naLength)
    (hlive : ∀ j, liveInodes j es ≤ s.live j + if j = i then n else 0) (hok : ∀ e ∈ es, e.Ok)
    (hsizes : s.blockMaxDataSz ≤ blockMaxDataSzMax ∨ ∀ e ∈ es, e.blocks = []) :
    Sound descs { s.fill i n with inodes := es } where
  lengths := lengths_fill.trans hs.lengths
  scratch := by
    obtain ⟨t, ht, h⟩ := hs.scratch
    exact ⟨t, (setArea_ne hi.symm).trans ht, h⟩
  other j b hb hj := by
    have hlj := hlive j
    by_cases hji : j = i
    · subst hji
      obtain ⟨h1, h2, h3, h4⟩ := hs.other j a ha hi
      rw [if_pos rfl] at hlj
      cases (fill_at ha).symm.trans hb
      refine ⟨h1, h2, ?_, hc⟩
      show sizeofDiskArea + liveInodes j es ≤ a.naCur + n
      omega
    · obtain ⟨h1, h2, h3, h4⟩ :=
        hs.other j b ((setArea_ne hji).symm.trans hb) hj
      rw [if_neg hji] at hlj
      refine ⟨h1, h2, ?_, h4⟩
      show sizeofDiskArea + liveInodes j es ≤ b.naCur
      omega
  empty := by
    have hl := hlive s.scratchAreaIdx
    rw [if_neg hi.symm, hs.empty] at hl
    exact Nat.le_zero.mp hl
  records := hok
  sizes := hsizes

/-- The record of a new file, and its entry. -/
theorem Sound.create {len : Nat} (ha : s.areas[i]? = some a) (hi : i ≠ s.scratchAreaIdx)
    (hc : a.naCur + (sizeofDiskInode + len) ≤ a.naLength) (hlen : len < 2 ^ 8) :
    Sound descs { s.fill i (sizeofDiskInode + len) with
      inodes := ⟨i, len, []⟩ :: s.inodes } := by
  refine hs.put ha hi hc (fun j => ?_) (forall_mem_cons.mpr ⟨⟨hlen, nofun⟩, hs.records⟩)
    (hs.sizes.imp_right fun h => forall_mem_cons.mpr ⟨rfl, h⟩)
  show InodeLoc.live j _ + s.live j ≤ _
  simp only [InodeLoc.live, liveBlocks_nil, eq_comm]
  omega

theorem Sound.lose (hlive : ∀ j, liveInodes j es ≤ s.live j) (hok : ∀ e ∈ es, e.Ok)
    (hsizes : s.blockMaxDataSz ≤ blockMaxDataSzMax ∨ ∀ e ∈ es, e.blocks = []) :
    Sound descs { s with inodes := es } where
  lengths := hs.lengths
  scratch := hs.scratch
  other j b hb hj := by
    obtain ⟨h1, h2, h3, h4⟩ := hs.other j b hb hj
    exact ⟨h1, h2, le_trans (Nat.add_le_add_left (hlive j) _) h3, h4⟩
  empty := by
    have hl := hlive s.scratchAreaIdx
    rw [hs.empty] at hl
    exact Nat.le_zero.mp hl
  records := hok
  sizes := hsizes

end Cycle

/-! ## Formatting -/

section Format

variable {descs : List Nat} {s : Flash} {i scr n : Nat} {a : FlashArea}

/-- Areas below `i` have their header, none has an entry. -/
structure Fresh (descs : List Nat) (scr i : Nat) (s : Flash) : Prop where
  lengths : s.areas.map FlashArea.naLength = descs
  scratch : s.scratchAreaIdx = scr
  inodes : s.inodes = []
  ids : ∀ j a, s.areas[j]? = some a → a.naId = if j = scr then areaIdNone else j
  done : ∀ j a, j < i → s.areas[j]? = some a → a.ndaId = a.naId ∧
    (a.naCur = if j = scr then sizeofDiskArea - 1 else sizeofDiskArea) ∧ a.naCur ≤ a.naLength

section

variable (h : Fresh descs scr i s)
include h

theorem Fresh.lt {j : Nat} (ha : s.areas[j]? = some a) : j < descs.length := by
  rw [← h.lengths, length_map]
  exact (List.getElem?_eq_some_iff.mp ha).1

theorem Fresh.step (ha : s.areas[i]? = some a) {f : FlashArea → FlashArea}
    (hlen : ∀ a, (f a).naLength = a.naLength) (hid : (f a).naId = if i = scr then areaIdNone else i)
    (hnda : (f a).ndaId = (f a).naId) (hcur : (f a).naCur =
      if i = scr then sizeofDiskArea - 1 else sizeofDiskArea) (hfit : (f a).naCur ≤ a.naLength) :
    Fresh descs scr (i + 1) (setArea i f s) where
  lengths := (lengths_setArea hlen).trans h.lengths
  scratch := h.scratch
  inodes := h.inodes
  ids j b hb := by
    by_cases hj : j = i
    · subst hj
      cases (setArea_at ha).symm.trans hb
      exact hid
    · exact h.ids j b ((setArea_ne hj).symm.trans hb)
  done j b hlt hb := by
    by_cases hj : j = i
    · subst hj
      cases (setArea_at ha).symm.trans hb
      exact ⟨hnda, hcur, hfit.trans_eq (hlen a).symm⟩
    · exact h.done j b (by omega) ((setArea_ne hj).symm.trans hb)

end

theorem Fresh.sound (h : Fresh descs scr descs.length s)
    (hnum : descs.length ≤ areaIdNone) {b : Nat}
    (hb : descs[scr]? = some b) (hmax : ∀ d ∈ descs, d ≤ b) : Sound descs s where
  lengths := h.lengths
  scratch := by
    rw [← h.lengths, getElem?_map, map_eq_some_iff] at hb
    obtain ⟨a, ha, hal⟩ := hb
    obtain ⟨hnda, hcur, _⟩ := h.done scr a (h.lt ha) ha
    have hid := h.ids scr a ha
    rw [if_pos rfl] at hcur hid
    exact ⟨a, by rw [h.scratch]; exact ha, hcur, hid, hnda.trans hid,
      fun d hd => (hmax d hd).trans_eq hal.symm⟩
  other j a ha hj := by
    rw [h.scratch] at hj
    have hlt := h.lt ha
    obtain ⟨hnda, hcur, hfit⟩ := h.done j a hlt ha
    have hid := h.ids j a ha
    rw [if_neg hj] at hcur hid
    have hne : a.naId ≠ areaIdNone := by omega
    refine ⟨hne, by rw [hnda]; exact hne, ?_, hfit⟩
    rw [live, h.inodes, liveInodes_nil]
    omega
  empty := by rw [live, h.inodes, liveInodes_nil]
  records := by rw [h.inodes]; simp
  sizes := .inr (by rw [h.inodes]; simp)

end Format

section Reserve

variable {descs : List Nat} {s : Flash} {space : Nat}

variable (hend : EndsLongest descs) (hbound : ∀ d ∈ descs, d < 2 ^ 32)

include hend hbound

section

variable (hs : Sound descs s)
include hs

end

end Reserve

/-! ## Between the cycles -/

/-- `n` bytes are written at the end of an area that is not the scratch
area. -/
def Puts (i n : Nat) (s s' : Flash) : Prop :=
  ∃ a, s.areas[i]? = some a ∧ i ≠ s.scratchAreaIdx ∧ a.naCur + n ≤ a.naLength ∧ s' = s.fill i n

/-- What the operations of the file system do to areas and entries: each
record goes to an area with room for it, and an entry that had an older one
points at the new one. -/
inductive Uses : Flash → Flash → Prop
  /-- `nffs_file_new` -/
  | create {s s' : Flash} {i len : Nat} : Puts i (sizeofDiskInode + len) s s' → len < 2 ^ 8 →
      Uses s { s' with inodes := ⟨i, len, []⟩ :: s.inodes }
  /-- `nffs_write_append` -/
  | append {s s' : Flash} {i len : Nat} {es fs : List InodeLoc} {e : InodeLoc} :
      s.inodes = es ++ e :: fs → BlockLoc.Ok ⟨i, len⟩ → Puts i (sizeofDiskBlock + len) s s' →
      Uses s { s' with
        inodes := es ++ { e with blocks := ⟨i, len⟩ :: e.blocks } :: fs }
  /-- `nffs_write_over_block` -/
  | overwrite {s s' : Flash} {i len : Nat} {es fs : List InodeLoc}
      {e : InodeLoc} {bs cs : List BlockLoc} {b : BlockLoc} :
      s.inodes = es ++ e :: fs → e.blocks = bs ++ b :: cs →
      BlockLoc.Ok ⟨i, len⟩ → Puts i (sizeofDiskBlock + len) s s' →
      Uses s { s' with
        inodes := es ++ { e with blocks := bs ++ ⟨i, len⟩ :: cs } :: fs }
  /-- `nffs_inode_rename` -/
  | rename {s s' : Flash} {i len : Nat} {es fs : List InodeLoc} {e : InodeLoc} :
      s.inodes = es ++ e :: fs → len < 2 ^ 8 → Puts i (sizeofDiskInode + len) s s' →
      Uses s { s' with inodes := es ++ ⟨i, len, e.blocks⟩ :: fs }
  /-- A record that no entry points at: `nffs_inode_delete_from_disk`, or a
  write that fails half way. -/
  | record {s s' : Flash} {i n : Nat} : Puts i n s s' → Uses s s'
  /-- `nffs_inode_delete_from_ram` -/
  | delete {s : Flash} {es fs : List InodeLoc} {e : InodeLoc} :
      s.inodes = es ++ e :: fs → Uses s { s with inodes := es ++ fs }
  /-- `nffs_hash_find` moves what it finds to the front. -/
  | find {s : Flash} {es : List InodeLoc} : es.Perm s.inodes → Uses s { s with inodes := es }

/-- Operations and cycles, in any order. -/
inductive Runs : Flash → Flash → Prop
  | start {s : Flash} : Runs s s
  | use {s t u : Flash} : Runs s t → Uses t u → Runs s u
  | gc {s t u : Flash} {r : Nat} : Runs s t → nffsGc t none = .ok r u none → Runs s u

section Runs

variable {descs : List Nat} {s s' t : Flash} {es : List InodeLoc} {i n : Nat}

theorem Uses.blockMaxDataSz (h : Uses s s') : s'.blockMaxDataSz = s.blockMaxDataSz := by
  cases h with
  | create hp | append _ _ hp | overwrite _ _ _ hp | rename _ _ hp | record hp =>
    obtain ⟨a, _, _, _, rfl⟩ := hp
    rfl
  | delete | find => rfl

/-- An entry whose place one with at most `n` more live bytes takes. -/
theorem live_replace {fs : List InodeLoc} {e e' : InodeLoc} (hin : s.inodes = es ++ e :: fs)
    (he : ∀ j, e'.live j ≤ e.live j + if j = i then n else 0) (j : Nat) :
    liveInodes j (es ++ e' :: fs) ≤ s.live j + if j = i then n else 0 := by
  have := he j
  simp only [live, hin, liveInodes_append, liveInodes_cons]
  omega

theorem forall_mem_replace {α : Type} {P : α → Prop} {xs ys : List α} {x y : α}
    (h : ∀ c ∈ xs ++ x :: ys, P c) (hy : P x → P y) : ∀ c ∈ xs ++ y :: ys, P c := by
  simp only [forall_mem_append, forall_mem_cons] at h ⊢
  exact ⟨h.1, hy h.2.1, h.2.2⟩

section

variable (hs : Sound descs s) (hmax : s.blockMaxDataSz ≤ blockMaxDataSzMax)
include hs hmax

theorem Sound.puts (hp : Puts i n s s')
    (hlive : ∀ j, liveInodes j es ≤ s.live j + if j = i then n else 0) (hok : ∀ e ∈ es, e.Ok) :
    Sound descs { s' with inodes := es } := by
  obtain ⟨a, ha, hi, hc, rfl⟩ := hp
  exact hs.put ha hi hc hlive hok (.inl hmax)

theorem Sound.uses (h : Uses s s') : Sound descs s' := by
  cases h with
  | create hp hlen =>
    obtain ⟨a, ha, hi, hc, rfl⟩ := hp
    exact hs.create ha hi hc hlen
  | append hin hb hp =>
    refine hs.puts hmax hp (live_replace hin fun j => ?_)
      (forall_mem_replace (hin ▸ hs.records) fun he => ?_)
    · simp only [InodeLoc.live, liveBlocks_cons, BlockLoc.live, eq_comm]
      omega
    · exact ⟨he.1, forall_mem_cons.mpr ⟨hb, he.2⟩⟩
  | overwrite hin hbs hb hp =>
    refine hs.puts hmax hp (live_replace hin fun j => ?_)
      (forall_mem_replace (hin ▸ hs.records) fun he => ?_)
    · simp only [InodeLoc.live, hbs, liveBlocks_append, liveBlocks_cons, BlockLoc.live, eq_comm]
      omega
    · exact ⟨he.1, forall_mem_replace (hbs ▸ he.2) fun _ => hb⟩
  | rename hin hlen hp =>
    have hok := hs.records
    rw [hin] at hok
    refine hs.puts hmax hp (live_replace hin fun j => ?_)
      (forall_mem_replace hok fun he => ⟨hlen, he.2⟩)
    simp only [InodeLoc.live, eq_comm]
    omega
  | record hp =>
    obtain ⟨a, ha, hi, hc, rfl⟩ := hp
    exact hs.put ha hi hc (fun j => Nat.le_add_right _ _) hs.records (.inl hmax)
  | delete hin =>
    refine hs.lose (fun j => ?_) (fun c hc => hs.records c ?_) (.inl hmax)
    · simp only [live, hin, liveInodes_append, liveInodes_cons]
      omega
    · rw [hin]
      rcases mem_append.mp hc with hc | hc <;> simp [hc]
  | find hp =>
    refine hs.lose (fun j => le_of_eq ?_) (fun c hc => hs.records c (hp.mem_iff.mp hc)) (.inl hmax)
    exact (hp.map _).sum_eq

end

theorem Runs.sound {s0 : Flash} (hend : EndsLongest descs)
    (hbound : ∀ d ∈ descs, d < 2 ^ 32) (hs : Sound descs s0)
    (hmax : s0.blockMaxDataSz ≤ blockMaxDataSzMax) (h : Runs s0 s) :
    Sound descs s ∧ s.blockMaxDataSz ≤ blockMaxDataSzMax := by
  induction h with
  | start => exact ⟨hs, hmax⟩
  | use _ hu ih =>
    obtain ⟨ht, hm⟩ := ih
    exact ⟨ht.uses hm hu, hu.blockMaxDataSz ▸ hm⟩
  | gc _ hgc ih =>
    obtain ⟨ht, hm⟩ := ih
    obtain ⟨lim, hmem, hlong⟩ := ht.longest
    have hwp := ht.wp_nffsGc hend hbound hmem hlong none
    rw [hgc] at hwp
    obtain ⟨⟨hu, hsame, _⟩, _⟩ := hwp
    exact ⟨hu, hsame ▸ hm⟩

/-- What the file system relies on when it collects: one area is the scratch
area, in RAM and on flash, it is valid, and what is live in the area that the
next cycle picks fits into it beside the header. A cycle goes through then,
unless an area is too long for 24 bits of offset. -/
structure ScratchKept (s : Flash) : Prop where
  one : ∃! i : Nat, ∃ a, s.areas[i]? = some a ∧ a.naId = areaIdNone
  marked : ∀ i a, s.areas[i]? = some a → (a.naId = areaIdNone ↔ i = s.scratchAreaIdx) ∧
    (a.ndaId = areaIdNone ↔ i = s.scratchAreaIdx)
  longest : ∃ t, s.areas[s.scratchAreaIdx]? = some t ∧ ∀ a ∈ s.areas, a.naLength ≤ t.naLength
  valid : nffsMiscValidateScratch s none = .ok () s none
  room : ∀ r s', nffsGcSelectArea s none = .ok r s' none →
    ∃ t, s.areas[s.scratchAreaIdx]? = some t ∧ sizeofDiskArea + s.live r ≤ t.naLength
  cycle : (∀ a ∈ s.areas, a.naLength ≤ 2 ^ 24) → ∃ r s', nffsGc s none = .ok r s' none

theorem Sound.marked (hs : Sound descs s) {a : FlashArea} (ha : s.areas[i]? = some a) :
    (a.naId = areaIdNone ↔ i = s.scratchAreaIdx) ∧
      (a.ndaId = areaIdNone ↔ i = s.scratchAreaIdx) := by
  by_cases hi : i = s.scratchAreaIdx
  · subst hi
    obtain ⟨t, ht, _, hid, hnda, _⟩ := hs.scratch
    cases ht.symm.trans ha
    simp [hid, hnda]
  · obtain ⟨hid, hnda, _, _⟩ := hs.other i a ha hi
    simp [hid, hnda, hi]

theorem Sound.validate (hs : Sound descs s) (hnum : descs.length ≤ areaIdNone) :
    nffsMiscValidateScratch s none = .ok () s none := by
  obtain ⟨t, ht, _, _, _, hmax⟩ := hs.scratch
  have hlt := (List.getElem?_eq_some_iff.mp ht).1
  have hlen : s.areas.length = descs.length := by
    rw [← hs.lengths, length_map]
  have hany : (s.areas.any fun a => decide (t.naLength < a.naLength)) =
      false := by
    refine any_eq_false.mpr fun a ha => ?_
    simpa using hmax a.naLength (hs.length_mem ha)
  have hwp : Wp nffsMiscValidateScratch (Ends 0 fun _ s' => s' = s) s := by
    refine .get_bind ?_
    rw [if_neg (by omega)]
    refine .bind (wp_area ht ?_)
    show Wp (if _ then _ else _) _ s
    rw [hany]
    exact .pure rfl
  obtain ⟨_, _, hrun, rfl⟩ := Ends.run hwp (Nat.zero_le _)
  exact hrun

theorem Sound.kept (hs : Sound descs s) (hend : EndsLongest descs)
    (hbound : ∀ d ∈ descs, d < 2 ^ 32) (hnum : descs.length ≤ areaIdNone) : ScratchKept s where
  one := by
    obtain ⟨t, ht, _, hid, _⟩ := hs.scratch
    refine ⟨s.scratchAreaIdx, ⟨t, ht, hid⟩, ?_⟩
    rintro i ⟨a, ha, hida⟩
    exact (hs.marked ha).1.mp hida
  marked i a ha := hs.marked ha
  longest := by
    obtain ⟨t, ht, _, _, _, hmax⟩ := hs.scratch
    exact ⟨t, ht, fun a ha => hmax _ (hs.length_mem ha)⟩
  valid := hs.validate hnum
  room r s' hsel := by
    obtain ⟨t, ht, _, _, _, hmax⟩ := hs.scratch
    have hwp := wp_nffsGcSelectArea (fun a ha => hmax _ (hs.length_mem ha)) (hs.lengths ▸ hend)
      (hs.lengths ▸ hs.length_mem (mem_of_getElem? ht)) none
    rw [hsel] at hwp
    obtain ⟨⟨⟨a, ha, hr, hal⟩, _⟩, _⟩ := hwp
    obtain ⟨_, _, hlive, hcur⟩ := hs.other r a ha hr
    exact ⟨t, ht, by omega⟩
  cycle hlen := by
    obtain ⟨lim, hmem, hmax⟩ := hs.longest
    have hlim : lim ≤ 2 ^ 24 := by
      rw [← hs.lengths] at hmem
      obtain ⟨a, ha, rfl⟩ := mem_map.mp hmem
      exact hlen a ha
    obtain ⟨r, s', hrun, _⟩ :=
      Ends.run (hs.wp_nffsGc hend hbound hmem hmax) hlim
    exact ⟨r, s', hrun⟩

/-- Before anything is formatted. -/
def boot : Flash := ⟨[], areaIdNone, [], 0, []⟩

end Runs

end Larva.Nffs.Flash
