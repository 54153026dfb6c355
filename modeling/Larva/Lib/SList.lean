import Mathlib.Algebra.Order.Ring.Int
import Mathlib.Algebra.BigOperators.Group.List.Basic
import Mathlib.Data.List.Nodup
import Mathlib.Data.List.Perm.Subperm
import Mathlib.Logic.Function.Basic

/-!
# Lists linked through their elements

A list in the manner of `SLIST` keeps no cells of its own: a head pointer
names the first element and every element holds the pointer to the next. The
links of all elements are one function `next`, and `Linked next p l` says that
following it from `p` visits the elements of `l` and then stops.

One link per element means that an element is in one place of one list, and
that lists without a common element can be changed one at a time. The lemmas
below say what the three pointer assignments do to the list that is read off:
in front, behind an element, and out again. Where a list is followed only part
of the way, `Seg` names the pointer that is reached.
-/

namespace Larva.SList

open Function List

variable {α : Type}

/-- From the pointer `p`, the links visit exactly `l`. -/
def Linked (next : α → Option α) : Option α → List α → Prop
  | p, [] => p = none
  | p, a :: l => p = some a ∧ Linked next (next a) l

/-- The elements that are visited, up to a number of them. -/
def toList (next : α → Option α) : Nat → Option α → List α
  | 0, _ => []
  | _ + 1, none => []
  | n + 1, some a => a :: toList next n (next a)

section Reading

variable {next next' : α → Option α} {p q : Option α} {l l' A B : List α} {a : α}

theorem Linked.unique (h : Linked next p l) (h' : Linked next p l') : l = l' := by
  induction l generalizing p l' with
  | nil =>
    cases l' with
    | nil => rfl
    | cons b l' => cases h.symm.trans h'.1
  | cons a l ih =>
    cases l' with
    | nil => cases h.1.symm.trans h'
    | cons b l' =>
      cases h.1.symm.trans h'.1
      rw [ih h.2 h'.2]

/-- A change of links outside the list leaves it as it is. -/
theorem Linked.congr (h : Linked next p l) (he : ∀ a ∈ l, next' a = next a) : Linked next' p l := by
  induction l generalizing p with
  | nil => exact h
  | cons a l ih =>
    refine ⟨h.1, ?_⟩
    rw [he a mem_cons_self]
    exact ih h.2 fun b hb => he b (mem_cons_of_mem a hb)

/-- What follows an element is linked from it. -/
theorem Linked.after (h : Linked next p (A ++ a :: B)) : Linked next (next a) B := by
  induction A generalizing p with
  | nil => exact h.2
  | cons b A ih => exact ih h.2

/-- A list that ends has no element twice: the links after its two places
would be the same. -/
theorem Linked.nodup (h : Linked next p l) : l.Nodup := by
  induction l generalizing p with
  | nil => exact nodup_nil
  | cons a l ih =>
    refine nodup_cons.mpr ⟨fun ha => ?_, ih h.2⟩
    obtain ⟨A, B, rfl⟩ := append_of_mem ha
    have hlen := congrArg length (h.2.unique h.2.after)
    simp only [length_append, length_cons] at hlen
    omega

theorem Linked.toList_eq {n : Nat} (h : Linked next p l) (hn : l.length ≤ n) :
    toList next n p = l := by
  induction l generalizing p n with
  | nil =>
    cases h
    cases n <;> rfl
  | cons a l ih =>
    cases n with
    | zero => simp at hn
    | succ n =>
      cases h.1
      simp only [length_cons] at hn
      rw [toList, ih h.2 (by omega)]

/-- A list with elements of `U` alone is no longer than `U`. -/
theorem Linked.length_le {U : List α} (h : Linked next p l) (hU : l ⊆ U) :
    l.length ≤ U.length :=
  (subperm_of_subset h.nodup hU).length_le

/-- From the pointer `p`, the links visit `l` and then stand at `q`. -/
def Seg (next : α → Option α) : Option α → List α → Option α → Prop
  | p, [], q => p = q
  | p, a :: l, q => p = some a ∧ Seg next (next a) l q

theorem seg_none : Seg next p l none ↔ Linked next p l := by
  induction l generalizing p with
  | nil => exact Iff.rfl
  | cons a l ih => exact and_congr_right fun _ => ih

theorem seg_append : Seg next p (A ++ B) q ↔ ∃ r, Seg next p A r ∧ Seg next r B q := by
  induction A generalizing p with
  | nil => simp [Seg]
  | cons a A ih =>
    simp only [cons_append, Seg, ih]
    constructor
    · intro ⟨hp, r, hA, hB⟩
      exact ⟨r, ⟨hp, hA⟩, hB⟩
    · intro ⟨r, ⟨hp, hA⟩, hB⟩
      exact ⟨hp, r, hA, hB⟩

theorem Seg.congr (h : Seg next p l q) (he : ∀ a ∈ l, next' a = next a) : Seg next' p l q := by
  induction l generalizing p with
  | nil => exact h
  | cons a l ih =>
    refine ⟨h.1, ?_⟩
    rw [he a mem_cons_self]
    exact ih h.2 fun b hb => he b (mem_cons_of_mem a hb)

theorem linked_append : Linked next p (A ++ B) ↔ ∃ r, Seg next p A r ∧ Linked next r B := by
  simp only [← seg_none, seg_append]

/-- The first part of a list ends where the last of its elements points. -/
theorem Seg.last (h : Seg next p (A ++ [a]) q) : Seg next p A (some a) ∧ next a = q := by
  obtain ⟨r, hA, rfl, hq⟩ := seg_append.mp h
  exact ⟨hA, hq⟩

end Reading

section Writing

variable [DecidableEq α] {next : α → Option α} {p : Option α} {l A B : List α} {a x : α}

/-- `SLIST_INSERT_HEAD`, for the list that then starts at `x`. -/
theorem Linked.insert_head (h : Linked next p l) (hx : x ∉ l) :
    Linked (update next x p) (some x) (x :: l) := by
  refine ⟨rfl, ?_⟩
  rw [update_self]
  refine h.congr fun b hb => update_of_ne ?_ _ _
  rintro rfl
  exact hx hb

/-- `SLIST_INSERT_AFTER`. -/
theorem Linked.insert_after (h : Linked next p (A ++ a :: B)) (hx : x ∉ A ++ a :: B) :
    Linked (update (update next x (next a)) a (some x)) p (A ++ a :: x :: B) := by
  have hn := h.nodup
  have hxa : x ≠ a := fun he => hx (by simp [he])
  induction A generalizing p with
  | nil =>
    refine ⟨h.1, ?_⟩
    rw [update_self]
    refine ⟨rfl, ?_⟩
    rw [update_of_ne hxa, update_self]
    refine h.2.congr fun b hb => ?_
    have hba : b ≠ a := fun he =>
      (nodup_cons.mp hn).1 (he ▸ hb)
    have hbx : b ≠ x := fun he => hx (by simp [← he, hb])
    rw [update_of_ne hba, update_of_ne hbx]
  | cons c A ih =>
    simp only [cons_append, nodup_cons, mem_cons, not_or] at hn hx
    have hca : c ≠ a := fun he => hn.1 (by simp [he])
    refine ⟨h.1, ?_⟩
    rw [update_of_ne hca, update_of_ne (Ne.symm hx.1)]
    exact ih h.2 hx.2 hn.2

/-- The assignment `SLIST_REMOVE` makes to the element before the removed
one. -/
theorem Linked.remove_after (h : Linked next p (A ++ a :: x :: B)) :
    Linked (update next a (next x)) p (A ++ a :: B) := by
  have hn := h.nodup
  induction A generalizing p with
  | nil =>
    refine ⟨h.1, ?_⟩
    rw [update_self]
    refine h.2.2.congr fun b hb => update_of_ne (fun he => ?_) _ _
    exact (nodup_cons.mp hn).1 (by simp [← he, hb])
  | cons c A ih =>
    simp only [cons_append, nodup_cons] at hn
    have hca : c ≠ a := fun he => hn.1 (by simp [he])
    refine ⟨h.1, ?_⟩
    rw [update_of_ne hca]
    exact ih h.2 hn.2

end Writing

end Larva.SList
