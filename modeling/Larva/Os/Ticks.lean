import Larva.Os.Kernel

/-!
# Ticks that wrap

The clock counts modulo `2 ^ 32`, and the source compares two ticks by the
sign of their difference as an `int32_t`. Seen from a time `now`, the ticks
until `w` are `tickSub w now`; a comparison of two ticks agrees with a
comparison of what remains until them as long as they are less than half the
range apart.
-/

namespace Larva.Os

variable {now n a b w : Nat}

theorem tickSub_add (hn : n < 2 ^ 32) : tickSub ((now + n) % 2 ^ 32) now = n := by
  unfold tickSub
  omega

/-- A tick goes by. -/
theorem tickSub_succ (h : 0 < tickSub w now) :
    tickSub w ((now + 1) % 2 ^ 32) = tickSub w now - 1 := by
  unfold tickSub at h ⊢
  omega

section

variable (h₁ : tickSub a now < tickSub b now + 2 ^ 31) (h₂ : tickSub b now < tickSub a now + 2 ^ 31)
include h₁ h₂

theorem tickGt_iff : tickGt a b = true ↔ tickSub b now < tickSub a now := by
  unfold tickGt
  rw [decide_eq_true_eq]
  unfold tickSub at *
  omega

theorem tickLt_iff : tickLt a b = true ↔ tickSub a now < tickSub b now := by
  unfold tickLt
  rw [decide_eq_true_eq]
  unfold tickSub at *
  omega

end

/-- What is not far ahead is due when nothing remains. -/
theorem tickGeq_iff (h : tickSub w now ≤ 2 ^ 31) : tickGeq now w = true ↔ tickSub w now = 0 := by
  unfold tickGeq
  rw [decide_eq_true_eq]
  unfold tickSub at *
  omega

end Larva.Os
