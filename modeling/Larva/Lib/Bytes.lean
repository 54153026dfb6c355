import Mathlib.Algebra.Order.Ring.Int
import Mathlib.Algebra.BigOperators.Group.List.Basic
import Mathlib.Tactic.Common

/-!
# Stretches of a byte buffer

A buffer is a list of bytes. `slice` reads a stretch of it, `splice` is what
a copy into it leaves behind, and the lemmas say how the two meet: a stretch
on either side of a copy reads as before, the copied stretch reads as what was
copied, and two stretches that touch read as one.
-/

namespace Larva.Bytes

open List

variable {b d : List UInt8} {p x off n m k : Nat}

/-- The `n` bytes from offset `off` on. -/
def slice (b : List UInt8) (off n : Nat) : List UInt8 := (b.drop off).take n

/-- The buffer after `d` was copied to offset `p`. -/
def splice (b : List UInt8) (p : Nat) (d : List UInt8) : List UInt8 :=
  b.take p ++ d ++ b.drop (p + d.length)

/-- A number below `2 ^ 16`, low byte first. -/
def le16 (n : Nat) : List UInt8 := [UInt8.ofNat n, UInt8.ofNat (n / 256)]

/-- The number that two bytes give, low byte first. -/
def ofLe16 : List UInt8 → Nat
  | lo :: hi :: _ => lo.toNat + 256 * hi.toNat
  | _ => 0

@[simp] theorem length_le16 : (le16 n).length = 2 := rfl

theorem ofLe16_le16 (n : Nat) : ofLe16 (le16 n) = n % 2 ^ 16 := by
  simp only [ofLe16, le16, UInt8.toNat_ofNat']
  omega

theorem ofLe16_lt (l : List UInt8) : ofLe16 l < 2 ^ 16 := by
  unfold ofLe16
  split
  · next lo hi _ =>
    have hlo := lo.toNat_lt
    have hhi := hi.toNat_lt
    omega
  · decide

theorem ofLe16_cons (a b : UInt8) (l : List UInt8) :
    ofLe16 (a :: b :: l) = a.toNat + 256 * b.toNat := rfl

theorem le16_ofLe16 (a b : UInt8) (l : List UInt8) : le16 (ofLe16 (a :: b :: l)) = [a, b] := by
  have ha := a.toNat_lt
  have hb := b.toNat_lt
  have hlo : UInt8.ofNat (a.toNat + 256 * b.toNat) = a := by
    apply UInt8.toNat_inj.mp
    rw [UInt8.toNat_ofNat']
    omega
  have hhi : UInt8.ofNat ((a.toNat + 256 * b.toNat) / 256) = b := by
    apply UInt8.toNat_inj.mp
    rw [UInt8.toNat_ofNat']
    omega
  rw [ofLe16_cons, le16, hlo, hhi]

/-! ## Copies -/

section

variable (h : p + d.length ≤ b.length)
include h

theorem length_splice : (splice b p d).length = b.length := by
  simp only [splice, length_append, length_take, length_drop]
  omega

theorem splice_outside (hx : x < p ∨ p + d.length ≤ x) : (splice b p d)[x]? = b[x]? := by
  have hp : (b.take p).length = p := by
    rw [length_take]; omega
  unfold splice
  rcases hx with hx | hx
  · rw [append_assoc, getElem?_append_left (by omega), getElem?_take_of_lt hx]
  · rw [getElem?_append_right (by rw [length_append]; omega), getElem?_drop, length_append, hp]
    congr 1
    omega

theorem splice_inside (hx : x < d.length) : (splice b p d)[p + x]? = d[x]? := by
  have hp : (b.take p).length = p := by
    rw [length_take]; omega
  unfold splice
  rw [getElem?_append_left (by rw [length_append]; omega),
    getElem?_append_right (by omega), hp, Nat.add_sub_cancel_left]

end

/-! ## Stretches -/

theorem getElem?_slice (hx : x < n) : (slice b off n)[x]? = b[off + x]? := by
  rw [slice, getElem?_take_of_lt hx, getElem?_drop]

theorem length_slice (h : off + n ≤ b.length) : (slice b off n).length = n := by
  simp only [slice, length_take, length_drop]
  omega

theorem slice_zero : slice b off 0 = [] := by
  rw [slice, take_zero]

theorem slice_add : slice b off (n + m) = slice b off n ++ slice b (off + n) m := by
  rw [slice, take_add, drop_drop]
  rfl

theorem drop_slice : (slice b off n).drop k = slice b (off + k) (n - k) := by
  rw [slice, drop_take, drop_drop]
  rfl

theorem take_slice (h : k ≤ n) : (slice b off n).take k = slice b off k := by
  rw [slice, take_take, Nat.min_eq_left h]
  rfl

/-- A copy on one side of a stretch leaves it alone. -/
theorem slice_splice_apart (h : p + d.length ≤ b.length) (hx : off + n ≤ p ∨ p + d.length ≤ off) :
    slice (splice b p d) off n = slice b off n := by
  refine ext_getElem? fun i => ?_
  by_cases hi : i < n
  · rw [getElem?_slice hi, getElem?_slice hi, splice_outside h (by omega)]
  · have hlen : ∀ b, (slice b off n).length ≤ i := by
      simp only [slice, length_take]
      omega
    rw [getElem?_eq_none (hlen _), getElem?_eq_none (hlen _)]

theorem slice_splice_self (h : p + d.length ≤ b.length) : slice (splice b p d) p d.length = d := by
  refine ext_getElem? fun i => ?_
  by_cases hi : i < d.length
  · rw [getElem?_slice hi, splice_inside h hi]
  · rw [getElem?_eq_none (by simp only [slice, length_take]; omega), getElem?_eq_none (by omega)]

/-- A copy to the end of a stretch lengthens it. -/
theorem slice_splice_behind (h : off + n + d.length ≤ b.length) :
    slice (splice b (off + n) d) off (n + d.length) = slice b off n ++ d := by
  rw [slice_add, slice_splice_self h, slice_splice_apart h (by omega)]

/-- A copy into a stretch. -/
theorem slice_splice_within (h : off + n ≤ b.length) (hk : k + d.length ≤ n) :
    slice (splice b (off + k) d) off n = splice (slice b off n) k d := by
  obtain ⟨m, rfl⟩ := Nat.exists_eq_add_of_le hk
  have hfit : off + k + d.length ≤ b.length := by omega
  rw [slice_add, slice_add, ← add_assoc, slice_splice_self hfit,
    slice_splice_apart hfit (.inl (le_refl _)), slice_splice_apart hfit (.inr (le_refl _)),
    splice, take_slice (by omega), drop_slice, Nat.add_sub_cancel_left, ← add_assoc]

theorem splice_nil : splice b p [] = b := by
  rw [splice, append_nil, length_nil, add_zero, take_append_drop]

theorem take_splice (h : p + d.length ≤ b.length) (hk : k ≤ p) :
    (splice b p d).take k = b.take k :=
  slice_splice_apart h (.inl (by omega : 0 + k ≤ p))

end Larva.Bytes
