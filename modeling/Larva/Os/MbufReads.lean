import Mathlib.Algebra.Order.Ring.Int
import Mathlib.Tactic.Common

/-!
# Reading a chain

`os_mbuf_off`, `os_mbuf_copydata` and `os_mbuf_memcmp` of `os_mbuf.c`, which
walk a chain mbuf by mbuf. Of an mbuf they read the data, the length and the
link, so a chain is given here by the data of its mbufs in order.

What they answer is said of the contents alone, however these are cut into
mbufs. The loops stop at a boundary in different ways: a copy skips an mbuf
whose end is the offset and may come to stand behind the last one, where
`os_mbuf_off` stays at the end of the last mbuf. So each loop is stated for
what is left of the contents, with an offset into the first mbuf that may be
its end.
-/

namespace Larva.Os.MbufReads

open List

/-- What the mbufs of a chain hold. -/
abbrev Chain := List (List UInt8)

/-- The mbuf, as the chain from it on, and the offset in it. -/
def osMbufOff : Chain → Nat → Option (Chain × Nat)
  | [], _ => none
  | om :: next, off =>
    if off < om.length ∨ om.length = off ∧ next = [] then some (om :: next, off)
    else osMbufOff next (off - om.length)

/-- The first loop of `os_mbuf_copydata`; `none` is its return of -1. -/
def copydataSkip : Chain → Nat → Option (Chain × Nat)
  | m, 0 => some (m, 0)
  | [], _ + 1 => none
  | om :: next, off + 1 =>
    if off + 1 < om.length then some (om :: next, off + 1)
    else copydataSkip next (off + 1 - om.length)

/-- The second loop: the code, and the bytes at the destination. -/
def copydataLoop : Chain → Nat → Nat → List UInt8 → Int × List UInt8
  | _, _, 0, dst => (0, dst)
  | [], _, _ + 1, dst => (-1, dst)
  | om :: next, off, len + 1, dst =>
    let count := min (om.length - off) (len + 1)
    copydataLoop next 0 (len + 1 - count) (dst ++ (om.drop off).take count)

def osMbufCopydata (m : Chain) (off len : Nat) : Int × List UInt8 :=
  match copydataSkip m off with
  | none => (-1, [])
  | some (m, off) => copydataLoop m off len []

/-- `memcmp` of two stretches of one length. -/
def memcmp : List UInt8 → List UInt8 → Int
  | a :: as, b :: bs => if a = b then memcmp as bs else a.toNat - b.toNat
  | _, _ => 0

def memcmpLoop : Chain → Nat → List UInt8 → Int
  | [], _, _ => -1
  | om :: next, omOff, data =>
    let chunkSz := min (om.length - omOff) data.length
    let rc := memcmp ((om.drop omOff).take chunkSz) (data.take chunkSz)
    if rc ≠ 0 then rc
    else if data.drop chunkSz = [] then 0
    else memcmpLoop next 0 (data.drop chunkSz)

/-- `os_mbuf_memcmp` with all of `data`. -/
def osMbufMemcmp (om : Chain) (off : Nat) (data : List UInt8) : Int :=
  if data = [] then 0
  else match osMbufOff om off with
    | none => -1
    | some (om, omOff) => memcmpLoop om omOff data

variable {m m' : Chain} {om bs data dst : List UInt8} {off k : Nat}

theorem memcmp_eq_zero {as : List UInt8} (h : as.length = bs.length) :
    memcmp as bs = 0 ↔ as = bs := by
  induction as generalizing bs with
  | nil =>
    obtain rfl : bs = [] := length_eq_zero_iff.mp h.symm
    exact iff_of_true rfl rfl
  | cons a as ih =>
    obtain _ | ⟨b, bs⟩ := bs
    · cases h
    rw [memcmp]
    split
    · next hab => rw [ih (Nat.succ.inj h), hab, cons_inj_right]
    · next hab =>
      have hne : a.toNat ≠ b.toNat := fun he => hab (UInt8.toNat_inj.mp he)
      have hcons : a :: as ≠ b :: bs := fun he => hab (cons.inj he).1
      exact iff_of_false (by omega) hcons

/-- An offset into a chain that a loop may start at. -/
def Within (m : Chain) (k : Nat) : Prop := k ≤ (m.headD []).length

/-- What a turn reads of the first mbuf, and what is left to read. -/
theorem take_drop_flatten (h : k ≤ om.length) (n : Nat) :
    ((om :: m).flatten.drop k).take n = (om.drop k).take (min (om.length - k) n) ++
      (m.flatten.drop 0).take (n - min (om.length - k) n) := by
  rw [flatten_cons, drop_append_of_le_length h, take_append, length_drop, drop_zero]
  congr 1
  · rw [← length_drop, Nat.min_comm, ← take_eq_take_min]
  · congr 1
    omega

/-- Where an offset is: behind the end of a chain, or in one of its mbufs, at
the end of it only if that is the last. -/
theorem osMbufOff_cases (m : Chain) (off : Nat) :
    (osMbufOff m off = none ∧ (m ≠ [] → m.flatten.length < off)) ∨
    ∃ A om next k, osMbufOff m off = some (om :: next, k) ∧ m = A ++ om :: next ∧
      off = A.flatten.length + k ∧ k ≤ om.length ∧ om[k]? = m.flatten[off]? := by
  fun_induction osMbufOff m off with
  | case1 => exact .inl ⟨rfl, fun h => absurd rfl h⟩
  | case2 b m off hin =>
    refine .inr ⟨[], b, m, off, rfl, rfl, (zero_add off).symm, by omega, ?_⟩
    rw [flatten_cons]
    rcases hin with hlt | ⟨-, rfl⟩
    · rw [getElem?_append_left hlt]
    · rw [flatten_nil, append_nil]
  | case3 b m off hout ih =>
    rw [flatten_cons, length_append]
    rcases ih with ⟨hn, hlt⟩ | ⟨A, om, next, k, hs, rfl, hoff, hk, hget⟩
    · refine .inl ⟨hn, fun _ => ?_⟩
      by_cases hnil : m = []
      · have hne : b.length ≠ off := fun he => hout (.inr ⟨he, hnil⟩)
        rw [hnil, flatten_nil, length_nil]
        omega
      · have := hlt hnil
        omega
    · refine .inr ⟨b :: A, om, next, k, hs, rfl, ?_, hk, ?_⟩
      · rw [flatten_cons, length_append]
        omega
      · rw [hget, getElem?_append_right (by omega)]

theorem copydataSkip_cases (m : Chain) (off : Nat) :
    (copydataSkip m off = none ∧ m.flatten.length < off) ∨
    ∃ m' k, copydataSkip m off = some (m', k) ∧ Within m' k ∧ off ≤ m.flatten.length ∧
      m'.flatten.drop k = m.flatten.drop off := by
  fun_induction copydataSkip m off with
  | case1 m => exact .inr ⟨m, 0, rfl, Nat.zero_le _, Nat.zero_le _, rfl⟩
  | case2 off => exact .inl ⟨rfl, Nat.succ_pos off⟩
  | case3 b m off hin =>
    rw [flatten_cons, length_append]
    exact .inr ⟨b :: m, off + 1, rfl, le_of_lt hin, by omega, rfl⟩
  | case4 b m off hout ih =>
    rw [flatten_cons, length_append]
    rcases ih with ⟨hn, hlt⟩ | ⟨m', k, hs, hk, hle, hdrop⟩
    · exact .inl ⟨hn, by omega⟩
    refine .inr ⟨m', k, hs, hk, by omega, ?_⟩
    rw [hdrop, drop_append, drop_eq_nil_of_le (not_lt.mp hout), nil_append]

theorem copydataLoop_eq (h : Within m k) (len : Nat) :
    copydataLoop m k len dst = (if len ≤ (m.flatten.drop k).length then 0 else -1,
      dst ++ (m.flatten.drop k).take len) := by
  fun_induction copydataLoop m k len dst with
  | case1 => simp
  | case2 => simp
  | case3 b m k len dst count ih =>
    have hk : k ≤ b.length := h
    rw [ih (Nat.zero_le _), take_drop_flatten hk, append_assoc, drop_zero, flatten_cons,
      length_drop, length_append]
    congr 2
    exact propext (by omega)

theorem memcmpLoop_eq_zero (h : Within m k) (hd : data ≠ []) :
    memcmpLoop m k data = 0 ↔ (m.flatten.drop k).take data.length = data := by
  induction m generalizing k data with
  | nil => exact iff_of_false (show (-1 : Int) ≠ 0 by decide) (by simpa using hd.symm)
  | cons b m ih =>
    have hk : k ≤ b.length := h
    rw [memcmpLoop, take_drop_flatten hk]
    generalize hc : min (b.length - k) data.length = c
    have hlen : ((b.drop k).take c).length = (data.take c).length := by
      rw [length_take, length_take, length_drop]
      omega
    have hmem := memcmp_eq_zero hlen
    -- The stretch that is compared now is equal, and so is all that follows.
    have hsplit : (b.drop k).take c ++ (m.flatten.drop 0).take (data.length - c) = data ↔
        (b.drop k).take c = data.take c ∧
          (m.flatten.drop 0).take (data.drop c).length = data.drop c := by
      rw [length_drop]
      nth_rewrite 2 [← take_append_drop c data]
      exact ⟨fun h => append_inj h hlen, fun h => by rw [h.1, h.2]⟩
    rw [hsplit, ← hmem]
    split
    · next hrc => exact iff_of_false hrc fun h => hrc h.1
    · next hrc =>
      have h0 := not_not.mp hrc
      split
      · next hend => exact iff_of_true rfl ⟨h0, by rw [hend]; rfl⟩
      · next hend =>
        rw [ih (Nat.zero_le _) hend]
        exact ⟨fun h => ⟨h0, h⟩, And.right⟩

/-- What the reads of the chain that starts with `om` say of its contents. -/
theorem reads_contents (om : List UInt8) (next : Chain) (off : Nat) :
    (∀ len, ((osMbufCopydata (om :: next) off len).1 = 0 ↔
        off + len ≤ (om :: next).flatten.length) ∧
      (off + len ≤ (om :: next).flatten.length → (osMbufCopydata (om :: next) off len).2 =
        ((om :: next).flatten.drop off).take len)) ∧
    (∀ b data, osMbufMemcmp (om :: next) off (b :: data) = 0 ↔
      off + (b :: data).length ≤ (om :: next).flatten.length ∧
        ((om :: next).flatten.drop off).take (b :: data).length = b :: data) ∧
    ((osMbufOff (om :: next) off).isSome ↔ off ≤ (om :: next).flatten.length) ∧
    ∀ m k, osMbufOff (om :: next) off = some (m, k) → ∃ A cur rest, m = cur :: rest ∧
      om :: next = A ++ m ∧ off = A.flatten.length + k ∧ k ≤ cur.length ∧
      cur[k]? = (om :: next).flatten[off]? := by
  generalize hm : om :: next = m
  have hne : m ≠ [] := by simp [← hm]
  refine ⟨fun len => ?_, fun b data => ?_, ?_⟩
  · unfold osMbufCopydata
    rcases copydataSkip_cases m off with ⟨hs, hlt⟩ | ⟨m', k, hs, hk, hle, hdrop⟩
    · rw [hs]
      exact ⟨iff_of_false (show (-1 : Int) ≠ 0 by decide) (by omega), fun h => by omega⟩
    rw [hs]
    simp only [copydataLoop_eq hk, hdrop, nil_append, length_drop]
    refine ⟨?_, fun _ => trivial⟩
    split
    · exact iff_of_true rfl (by omega)
    · exact iff_of_false (by decide) (by omega)
  · unfold osMbufMemcmp
    rw [if_neg (cons_ne_nil b data)]
    rcases osMbufOff_cases m off with ⟨hs, hlt⟩ | ⟨A, cur, rest, k, hs, rfl, rfl, hk, -⟩
    · have := hlt hne
      rw [hs]
      exact iff_of_false (show (-1 : Int) ≠ 0 by decide) (by omega)
    rw [hs, flatten_append, ← drop_drop, drop_left]
    simp only [memcmpLoop_eq_zero (show Within (cur :: rest) k from hk) (cons_ne_nil b data)]
    refine ⟨fun h => ⟨?_, h⟩, And.right⟩
    have hlen := congrArg length h
    rw [length_take, length_drop, length_cons] at hlen
    rw [length_append, length_cons]
    omega
  · rcases osMbufOff_cases m off with ⟨hs, hlt⟩ | ⟨A, cur, rest, k, hs, hA, hoff, hk, hget⟩
    · have := hlt hne
      rw [hs]
      exact ⟨iff_of_false (by decide) (by omega), fun _ _ h => by cases h⟩
    · rw [hs]
      refine ⟨iff_of_true rfl ?_, fun m' k' h => ?_⟩
      · rw [hA, flatten_append, flatten_cons, length_append, length_append]
        omega
      · cases h
        exact ⟨A, cur, rest, rfl, hA, hoff, hk, hget⟩

end Larva.Os.MbufReads
