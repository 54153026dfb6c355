import Larva.Os.Mbuf

/-!
# The pools of msys

`os_msys_get` and `os_msys_get_pkthdr` take an mbuf from one of the registered
pools: the first one in their list whose buffers hold what is asked for, and
the last one when there is none. This is the right pool if the list is sorted
by the size of the buffers.

`os_msys_register` looks for the first pool with smaller buffers than the new
one and inserts behind it. So the pool that was registered first stays the
first, and every pool with larger buffers becomes the second one: the list is
sorted if the smallest pool is registered first and then the others from the
largest down.

A pool is a number, and `len` is the size of its data buffers.
-/

namespace Larva.Os.Mbufs

open List

section

variable (len : Nat → Nat)

/-- The list with the new pool in it. -/
def osMsysRegister (newPool : Nat) : List Nat → List Nat
  | [] => [newPool]
  | pool :: rest =>
    if len pool < len newPool then pool :: newPool :: rest
    else pool :: osMsysRegister newPool rest

/-- `_os_msys_find_pool`. -/
def osMsysFindPool (pools : List Nat) (dsize : Nat) : Option Nat :=
  (pools.find? fun pool => dsize ≤ len pool).or pools.getLast?

def osMsysGet (pools : List Nat) (dsize leadingspace : Nat) : MbufM (Option Nat) :=
  match osMsysFindPool len pools dsize with
  | none => pure none
  | some pool => osMbufGet pool leadingspace

/-- The sums are kept in sixteen bits, and the length of the user header is
passed on in eight. -/
def osMsysGetPkthdr (pools : List Nat) (dsize userHdrLen : Nat) : MbufM (Option Nat) :=
  let totalPkthdrLen := (userHdrLen + pkthdrSz) % 2 ^ 16
  match osMsysFindPool len pools ((dsize + totalPkthdrLen) % 2 ^ 16) with
  | none => pure none
  | some pool => osMbufGetPkthdr pool (userHdrLen % 2 ^ 8)

/-- The smallest buffers that hold `d` bytes, or the largest ones if none
do. -/
structure Best (pools : List Nat) (d p : Nat) : Prop where
  mem : p ∈ pools
  least : ∀ q ∈ pools, d ≤ len q → d ≤ len p ∧ len p ≤ len q
  largest : (∀ q ∈ pools, len q < d) → ∀ q ∈ pools, len q ≤ len p

/-- A pool for which `os_msys_register` finds the right place. -/
def InTurn (newPool : Nat) : List Nat → Prop
  | [] => True
  | first :: rest => len first < len newPool ∧ (∀ p ∈ rest, len newPool ≤ len p) ∨
      ∀ p ∈ first :: rest, len p = len newPool

/-- The lists that registering pools leads to, each in its turn. -/
inductive Registered : List Nat → Prop
  | nil : Registered []
  | register {pools : List Nat} (newPool : Nat) (h : Registered pools)
      (hturn : InTurn len newPool pools) : Registered (osMsysRegister len newPool pools)

end

variable {len : Nat → Nat} {pools : List Nat} {p : Nat}

theorem osMsysRegister_of_eq (h : ∀ q ∈ pools, len q = len p) :
    osMsysRegister len p pools = pools ++ [p] := by
  induction pools with
  | nil => rfl
  | cons q l ih =>
    obtain ⟨hq, hl⟩ := forall_mem_cons.mp h
    rw [osMsysRegister, if_neg (by omega), ih hl, cons_append]

theorem Registered.sorted (h : Registered len pools) :
    pools.Pairwise fun p q => len p ≤ len q := by
  induction h with
  | nil => exact .nil
  | @register pools p _ hturn ih =>
    cases pools with
    | nil => exact pairwise_singleton _ _
    | cons first rest =>
      rcases hturn with ⟨hlt, hle⟩ | heq
      · obtain ⟨hfirst, hrest⟩ := pairwise_cons.mp ih
        rw [osMsysRegister, if_pos hlt]
        exact .cons (forall_mem_cons.mpr ⟨hlt.le, hfirst⟩) (.cons hle hrest)
      · rw [osMsysRegister_of_eq heq]
        refine pairwise_append.mpr ⟨ih, pairwise_singleton _ _, fun q hq r hr => ?_⟩
        rw [mem_singleton.mp hr, heq q hq]

/-- In a sorted list the right pool is found. -/
theorem exists_findPool (h : pools.Pairwise fun p q => len p ≤ len q) (hne : pools ≠ [])
    (d : Nat) : ∃ p, osMsysFindPool len pools d = some p ∧ Best len pools d p := by
  induction pools with
  | nil => exact absurd rfl hne
  | cons p l ih =>
    obtain ⟨hp, hl⟩ := pairwise_cons.mp h
    by_cases hd : d ≤ len p
    · refine ⟨p, by simp [osMsysFindPool, hd], mem_cons_self, ?_, fun hno => ?_⟩
      · exact forall_mem_cons.mpr ⟨fun _ => ⟨hd, le_rfl⟩, fun q hq _ => ⟨hd, hp q hq⟩⟩
      · have := hno p mem_cons_self
        omega
    cases l with
    | nil =>
      refine ⟨p, by simp [osMsysFindPool, hd], mem_cons_self, fun q hq hle => ?_, by simp⟩
      rw [mem_singleton.mp hq] at hle
      exact absurd hle hd
    | cons q l =>
      obtain ⟨r, hr, hbest⟩ := ih hl (cons_ne_nil q l)
      refine ⟨r, ?_, mem_cons_of_mem p hbest.mem, ?_, fun hno => ?_⟩
      · rw [← hr]
        simp [osMsysFindPool, hd]
      · exact forall_mem_cons.mpr ⟨fun h => absurd h hd, hbest.least⟩
      · exact forall_mem_cons.mpr ⟨hp r hbest.mem, hbest.largest (forall_mem_cons.mp hno).2⟩

/-- When the pools were registered in turn, every allocation is from the right
one, as long as the length with the header is one of sixteen bits. -/
theorem msys_chooses_best (h : Registered len pools) (hne : pools ≠ []) (d : Nat) :
    (∃ p, Best len pools d p ∧ ∀ n, osMsysGet len pools d n = osMbufGet p n) ∧
    ∀ u, d + (u + pkthdrSz) < 2 ^ 16 → ∃ p, Best len pools (d + (u + pkthdrSz)) p ∧
      osMsysGetPkthdr len pools d u = osMbufGetPkthdr p (u % 2 ^ 8) := by
  refine ⟨?_, fun u hu => ?_⟩
  · obtain ⟨p, hp, hbest⟩ := exists_findPool h.sorted hne d
    refine ⟨p, hbest, fun n => ?_⟩
    rw [osMsysGet, hp]
  · obtain ⟨p, hp, hbest⟩ := exists_findPool h.sorted hne (d + (u + pkthdrSz))
    refine ⟨p, hbest, ?_⟩
    have hsum : (d + (u + pkthdrSz) % 2 ^ 16) % 2 ^ 16 = d + (u + pkthdrSz) := by omega
    rw [osMsysGetPkthdr, hsum, hp]

/-- Pools of 100, 300 and 200 bytes, in this order. -/
theorem msys_chooses_best_three : ∃ p, Best (100 * ·) [1, 2, 3] 150 p ∧
    ∀ n, osMsysGet (100 * ·) [1, 2, 3] 150 n = osMbufGet p n := by
  have h1 : Registered (100 * ·) [1] := .register 1 .nil trivial
  have h3 : Registered (100 * ·) [1, 3] := .register 3 h1 (Or.inl (by decide))
  have h2 : Registered (100 * ·) [1, 2, 3] := .register 2 h3 (Or.inl (by decide))
  exact (msys_chooses_best h2 (by decide) 150).1

/-- Registered from the smallest to the largest, the second pool is the last
one, and 150 bytes are taken from the third. And 65535 bytes with a header
are taken from the first. -/
theorem register_missorts :
    [1, 2, 3].foldl (fun pools p => osMsysRegister (100 * ·) p pools) [] = [1, 3, 2] ∧
    (osMsysGet (100 * ·) [1, 3, 2] 150 0 = osMbufGet 3 0 ∧ ¬ Best (100 * ·) [1, 3, 2] 150 3) ∧
    osMsysGetPkthdr (100 * ·) [1, 2] 65535 0 = osMbufGetPkthdr 1 0 ∧
      ¬ Best (100 * ·) [1, 2] (65535 + pkthdrSz) 1 := by
  refine ⟨by decide, ⟨rfl, fun h => ?_⟩, rfl, fun h => ?_⟩
  · exact absurd (h.least 2 (by decide) (by decide)).2 (by decide)
  · exact absurd (h.largest (by decide) 2 (by decide)) (by decide)

end Larva.Os.Mbufs
