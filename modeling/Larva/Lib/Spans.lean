import Mathlib.Data.BitVec
import Mathlib.Data.List.Pairwise
import Mathlib.Tactic.Linarith

/-!
# Times that wrap, and spans that do not overlap

A clock of `w` bits wraps, and programs compare two of its readings by the
sign of their difference. That is no order, but among readings that are all
within a quarter of the range of one of them it agrees with the order of the
integers: `diff_eq_sub` turns every such comparison into one of offsets.

The second half is about a list of spans, each with its beginning and its end,
that stand one behind the other. A further span divides such a list into what
is before it, what it meets and what is behind it.
-/

namespace Larva

open List

namespace Serial

variable {w : Nat}

/-- The difference of two readings, as a signed number. -/
def diff (a b : BitVec w) : Int := (a - b).toInt

/-- `a` is less than a quarter of the range ahead of `c`, and at most as much
behind it. -/
def Near (c a : BitVec w) : Prop :=
  -(2 ^ w) ≤ 4 * diff a c ∧ 4 * diff a c < 2 ^ w

theorem diff_eq_sub {a b c : BitVec w} (ha : Near c a) (hb : Near c b) :
    diff a b = diff a c - diff b c := by
  have hsub : a - b = (a - c) - (b - c) := by
    rw [sub_sub_sub_cancel_right]
  unfold Near at ha hb
  rw [diff, hsub, BitVec.toInt_sub]
  show (diff a c - diff b c).bmod (2 ^ w) = diff a c - diff b c
  have hcast : (((2 ^ w : Nat) : Int)) = 2 ^ w := by norm_cast
  refine Int.bmod_eq_of_le ?_ ?_
  · omega
  · omega

/-- How far the end of a span is from its beginning. -/
theorem diff_add_left (a d : BitVec w) : diff (a + d) a = d.toInt := by
  rw [diff, add_sub_cancel_left]

theorem eq_of_diff_eq {a b c : BitVec w} (h : diff a c = diff b c) : a = b := by
  have hsub : a - c = b - c := BitVec.eq_of_toInt_eq h
  exact sub_left_injective hsub

attribute [irreducible] diff

end Serial

/-! ## Spans -/

section Spans

variable {α : Type} {lo hi : α → Int}

/-- Each span ends before the next ones begin, or when they do. -/
def Spaced (lo hi : α → Int) (l : List α) : Prop :=
  l.Pairwise fun a b => hi a ≤ lo b

variable {l A B : List α} {a : α} {t : Int}

theorem Spaced.le_of_le (h : Spaced lo hi (a :: l)) (hp : lo a ≤ hi a)
    (ht : t ≤ lo a) : ∀ b ∈ a :: l, t ≤ lo b := by
  intro b hb
  rcases mem_cons.mp hb with rfl | hb
  · exact ht
  · have hab := (pairwise_cons.mp h).1 b hb
    omega

theorem Spaced.insert (h : Spaced lo hi (A ++ B))
    (hA : ∀ b ∈ A, hi b ≤ lo a) (hB : ∀ b ∈ B, hi a ≤ lo b) : Spaced lo hi (A ++ a :: B) := by
  obtain ⟨h1, h2, h3⟩ := pairwise_append.mp h
  refine pairwise_append.mpr ⟨h1, pairwise_cons.mpr ⟨hB, h2⟩, fun b hb c hc => ?_⟩
  rcases mem_cons.mp hc with rfl | hc
  · exact hA b hb
  · exact h3 b hb c hc

/-- What is before the span from `t` to `u`, what it meets, and what is
behind it. -/
theorem Spaced.parts {u : Int} (h : Spaced lo hi l) (hp : ∀ b ∈ l, lo b < hi b) :
    ∃ P V R, l = P ++ (V ++ R) ∧ (∀ b ∈ P, hi b ≤ t) ∧
      (∀ b ∈ V, t < hi b ∧ lo b < u) ∧ ∀ b ∈ R, u ≤ lo b := by
  induction l with
  | nil => exact ⟨[], [], [], rfl, nofun, nofun, nofun⟩
  | cons a l ih =>
    have ha := hp a mem_cons_self
    have hafter := (pairwise_cons.mp h).1
    by_cases hu : u ≤ lo a
    · exact ⟨[], [], a :: l, rfl, nofun, nofun, h.le_of_le (by omega) hu⟩
    obtain ⟨P, V, R, hl, hP, hV, hR⟩ := ih (pairwise_cons.mp h).2
      fun b hb => hp b (mem_cons_of_mem a hb)
    by_cases ht : hi a ≤ t
    · refine ⟨a :: P, V, R, by rw [hl]; rfl, fun b hb => ?_, hV, hR⟩
      rcases mem_cons.mp hb with rfl | hb
      · exact ht
      · exact hP b hb
    -- Once a span is met, nothing behind it is before.
    · have hP' : P = [] := by
        cases P with
        | nil => rfl
        | cons b P =>
          have hb : b ∈ l := by simp [hl]
          have h1 := hP b mem_cons_self
          have h2 := hafter b hb
          have h3 := hp b (mem_cons_of_mem a hb)
          omega
      subst hP'
      refine ⟨[], a :: V, R, by rw [hl]; rfl, nofun, fun b hb => ?_, hR⟩
      rcases mem_cons.mp hb with rfl | hb
      · omega
      · exact hV b hb

end Spans

end Larva
