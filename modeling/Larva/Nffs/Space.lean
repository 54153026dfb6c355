import Larva.Nffs.Objects

/-!
# Reserving flash

Every record goes to the first area that has room, at the place where the area
is filled up to. Where no area has room the answer is that of the garbage
collection, of which two things are relied on: the areas it leaves are not
filled past their ends, and an area it names has the room that was asked for.
-/

namespace Larva.Nffs

open Larva.Crash List

theorem findSpace_some {k n : Nat} : ∀ {l : List Area} {i j o : Nat},
    findSpace k n i l = some (j, o) → ∃ a, i ≤ j ∧ l[j - i]? = some a ∧ a.naCur = o ∧
      n ≤ sub32 a.naLength a.naCur := by
  intro l
  induction l with
  | nil =>
    intro i j o h
    cases h
  | cons b l ih =>
    intro i j o h
    unfold findSpace at h
    split at h
    · next hb =>
      obtain ⟨rfl, rfl⟩ := h
      exact ⟨b, le_refl _, by simp, rfl, hb.2⟩
    · obtain ⟨a, hle, ha, hcur, hn⟩ := ih h
      refine ⟨a, by omega, ?_, hcur, hn⟩
      rw [show j - i = (j - (i + 1)) + 1 by omega, getElem?_cons_succ]
      exact ha

/-- The areas after `n` bytes were written to one of them. -/
def advance (areas : List Area) (i : Nat) (a : Area) (n : Nat) : List Area :=
  areas.set i { a with naCur := a.naCur + n }

theorem sum_advance {areas : List Area} {i : Nat} {a : Area} (n : Nat) (h : areas[i]? = some a) :
    ((advance areas i a n).map Area.naCur).sum = (areas.map Area.naCur).sum + n := by
  induction areas generalizing i with
  | nil => cases h
  | cons b l ih =>
    cases i with
    | zero =>
      simp only [getElem?_cons_zero, Option.some.injEq] at h
      subst h
      simp only [advance, set_cons_zero, map_cons, sum_cons]
      omega
    | succ i =>
      have := ih h
      simp only [advance, set_cons_succ, map_cons, sum_cons] at this ⊢
      omega

section Space

variable {s : St} {n i : Nat} {a : Area} {Q : Post St FsErr Unit}

section

variable (hareas : ∀ a ∈ s.areas, a.naCur ≤ a.naLength ∧ a.naLength ≤ 2 ^ 24)
include hareas

theorem wp_nffsMiscReserveSpace (hgc : ∀ n m l i, (s.gcAnswer n m l i).areaIdx = .error .efull)
    (hn : n < 2 ^ 16) {Q : Post St FsErr (Nat × Nat)} (herr : ∀ s', Q.err .efull s')
    (hok : ∀ i a, s.areas[i]? = some a → a.naCur + n ≤ a.naLength → Q.ok (i, a.naCur) s) :
    Wp (nffsMiscReserveSpace n) Q s := by
  refine .bind (.get ?_)
  rw [u16_eq hn]
  cases hfind : findSpace s.scratchAreaIdx n 0 s.areas with
  | none =>
    simp only [hfind, hgc]
    exact .bind (.modify (.fail (herr _)))
  | some r =>
    obtain ⟨j, o⟩ := r
    obtain ⟨a, -, ha, rfl, hroom⟩ := findSpace_some hfind
    simp only [hfind]
    refine .pure (hok j a (by simpa using ha) ?_)
    have harea := hareas a (mem_of_getElem? ha)
    rw [sub32_eq harea.1 (by omega)] at hroom
    omega

theorem wp_nffsFlashWrite (ha : s.areas[i]? = some a) (hroom : a.naCur + n ≤ a.naLength)
    (hok : Q.ok () { s with areas := advance s.areas i a n }) :
    Wp (nffsFlashWrite i a.naCur n) Q s := by
  have harea := hareas a (mem_of_getElem? ha)
  refine .bind (.get ?_)
  simp only [ha]
  rw [if_neg (by rw [u32_eq (by omega)]; omega), if_neg (by omega)]
  exact .modify hok

theorem wp_nffsFlashLoc {s' : St} (ha : s.areas[i]? = some a) (hroom : a.naCur + n ≤ a.naLength)
    (hn : 0 < n) (hok : Q.ok () s') : Wp (nffsFlashLoc a.naCur) Q s' := by
  have harea := hareas a (mem_of_getElem? ha)
  exact .assert (by simp only [decide_eq_true_eq]; omega) hok

end

end Space

/-! ## With garbage collection -/

def Area.Ok (a : Area) : Prop := a.naCur ≤ a.naLength ∧ a.naLength ≤ 2 ^ 24

instance (a : Area) : Decidable a.Ok :=
  inferInstanceAs (Decidable (_ ∧ _))

/-- The areas are in order, and a collection leaves them so. -/
structure Spacious (s : St) : Prop where
  areas : ∀ a ∈ s.areas, a.Ok
  gc : ∀ k n l i, (∀ a ∈ l, a.Ok) → (∀ a ∈ (s.gcAnswer k n l i).areas, a.Ok) ∧
      ∀ j, (s.gcAnswer k n l i).areaIdx = .ok j → ∃ a, (s.gcAnswer k n l i).areas[j]? = some a ∧
          a.naCur + n ≤ a.naLength

/-- Two states that differ in how full the areas are. -/
def SpaceOnly (s s' : St) : Prop :=
  s' = { s with
    areas := s'.areas
    scratchAreaIdx := s'.scratchAreaIdx
    gcCount := s'.gcCount }

/-- The areas after a collection. -/
def St.collected (s : St) (n : Nat) : St :=
  let r := s.gcAnswer s.gcCount n s.areas s.scratchAreaIdx
  { s with
    gcCount := s.gcCount + 1
    areas := r.areas
    scratchAreaIdx := r.scratchAreaIdx }

/-- Where a reservation of `n` bytes is made, and the state it is made in. -/
def St.place (s : St) (n : Nat) : St × Except FsErr Nat :=
  match findSpace s.scratchAreaIdx n 0 s.areas with
  | some r => (s, .ok r.1)
  | none => (s.collected n, (s.gcAnswer s.gcCount n s.areas s.scratchAreaIdx).areaIdx)

/-- The state after `n` bytes were reserved and `m` of them written. -/
def St.store (s : St) (n m : Nat) : Except FsErr St :=
  match (s.place n).2 with
  | .error e => .error e
  | .ok i =>
    match (s.place n).1.areas[i]? with
    | none => .error .efull
    | some a => .ok { (s.place n).1 with
        areas := advance (s.place n).1.areas i a m }

/-- The area that a reservation of `n` bytes is answered with. -/
def St.room (s : St) (n : Nat) : Except FsErr Nat := (s.place n).2

section Collecting

variable {s s' : St} {n m i : Nat} {areas : List Area} {a : Area}

/-- The answer depends on the areas and on the collections to come. -/
theorem room_congr (ha : s'.areas = s.areas) (hi : s'.scratchAreaIdx = s.scratchAreaIdx)
    (hg : s'.gcAnswer = s.gcAnswer) (hc : s'.gcCount = s.gcCount) : s'.room n = s.room n := by
  unfold St.room St.place
  rw [ha, hi, hg, hc]
  split <;> rfl

theorem SpaceOnly.refl (s : St) : SpaceOnly s s := rfl

theorem SpaceOnly.trans {s'' : St} (h : SpaceOnly s s')
    (h' : SpaceOnly s' s'') : SpaceOnly s s'' := by
  unfold SpaceOnly at *
  rw [h', h]

theorem Spacious.of_areas (h : Spacious s) (hs : SpaceOnly s s')
    (ha : ∀ a ∈ s'.areas, a.Ok) : Spacious s' := by
  refine ⟨ha, ?_⟩
  rw [hs]
  exact h.gc

theorem areas_advance (h : ∀ a ∈ areas, a.Ok) (ha : areas[i]? = some a)
    (hroom : a.naCur + n ≤ a.naLength) : ∀ b ∈ advance areas i a n, b.Ok := by
  intro b hb
  rcases mem_or_eq_of_mem_set hb with hb | rfl
  · exact h b hb
  · exact ⟨hroom, (h a (mem_of_getElem? ha)).2⟩

/-- A reservation that succeeds leaves room; one that fails leaves areas that
are in order. -/
theorem wp_reserve (h : Spacious s) (hn : n < 2 ^ 16) {Q : Post St FsErr (Nat × Nat)}
    (hok : ∀ s' i a, SpaceOnly s s' → Spacious s' → s'.areas[i]? = some a →
      a.naCur + n ≤ a.naLength → s.place n = (s', .ok i) → Q.ok (i, a.naCur) s')
    (herr : ∀ s' e, SpaceOnly s s' → Spacious s' → s.place n = (s', .error e) → Q.err e s') :
    Wp (nffsMiscReserveSpace n) Q s := by
  refine .bind (.get ?_)
  rw [u16_eq hn]
  cases hfind : findSpace s.scratchAreaIdx n 0 s.areas with
  | some r =>
    obtain ⟨j, o⟩ := r
    obtain ⟨a, -, ha, rfl, hroom⟩ := findSpace_some hfind
    have ha' : s.areas[j]? = some a := by simpa using ha
    have harea := h.areas a (mem_of_getElem? ha')
    rw [sub32_eq harea.1 (by have := harea.2; omega)] at hroom
    simp only [hfind]
    refine .pure (hok s j a (.refl s) h ha' (by have := harea.1; omega) ?_)
    simp only [St.place, hfind]
  | none =>
    obtain ⟨hareas, hidx⟩ := h.gc s.gcCount n s.areas s.scratchAreaIdx h.areas
    have hplace : s.place n = (s.collected n,
        (s.gcAnswer s.gcCount n s.areas s.scratchAreaIdx).areaIdx) := by
      simp only [St.place, hfind]
    have hs : SpaceOnly s (s.collected n) := rfl
    have hsp : Spacious (s.collected n) := h.of_areas hs hareas
    simp only [hfind]
    refine .bind (.modify ?_)
    cases hr : (s.gcAnswer s.gcCount n s.areas s.scratchAreaIdx).areaIdx with
    | error e =>
      rw [hr] at hplace
      exact .fail (herr _ e hs hsp hplace)
    | ok j =>
      obtain ⟨a, ha, hroom⟩ := hidx j hr
      have harea := hareas a (mem_of_getElem? ha)
      rw [hr] at hplace
      simp only [hr, ha]
      rw [if_pos (by
        rw [sub32_eq harea.1 (by have := harea.2; omega)]
        omega)]
      exact .pure (hok _ j a hs hsp ha hroom hplace)

theorem store_of_place (hp : s.place n = (s', .ok i)) (ha : s'.areas[i]? = some a) :
    s.store n m = .ok { s' with areas := advance s'.areas i a m } := by
  simp [St.store, hp, ha]

theorem room_of_store (h : s.store n m = .ok s') : ∃ i, s.room n = .ok i := by
  unfold St.store at h
  split at h
  · cases h
  · next i hi => exact ⟨i, hi⟩

theorem advance_advance {k : Nat} :
    advance (advance areas i a k) i { a with naCur := a.naCur + k } m =
      advance areas i a (k + m) := by
  simp [advance, add_assoc]

end Collecting

end Larva.Nffs
