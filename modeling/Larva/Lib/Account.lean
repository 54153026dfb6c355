import Mathlib.Algebra.Order.Ring.Int
import Mathlib.Algebra.BigOperators.Group.List.Basic
import Mathlib.Data.List.Basic
import Mathlib.Data.List.Perm.Basic
import Mathlib.Data.List.Range

/-!
# The account of a queue

What it means that a queue loses nothing and keeps the order can only be said
over the whole of its history. The history here is an account: everything that
was queued gets a number, and what comes off the queue is looked up among what
is still pending, by its name alone, and moved to one of two columns. It was
returned, or it was removed. The account does not know the queue. If the queue
gives back something that is not pending, the account books it under a number
that was never given out.

`Settles` says that the account agrees with a queue: the pending entries are
what is on the queue, every number is in one of the columns, and whatever was
returned has a smaller number than what was returned later and than everything
that is still pending. Each of the three operations of a queue keeps this.
-/

namespace Larva

open List

/-- Entries are what was queued, with its number. -/
structure Account (α : Type) where
  queued : List (Nat × α)
  returned : List (Nat × α)
  removed : List (Nat × α)
  pending : List (Nat × α)

namespace Account

variable {α : Type}

def empty : Account α := ⟨[], [], [], []⟩

def put (a : α) (H : Account α) : Account α :=
  { H with
    queued := H.queued ++ [(H.queued.length, a)]
    pending := H.pending ++ [(H.queued.length, a)] }

variable [DecidableEq α] {H : Account α} {q : List α}

/-- The pending entry of `a`, or a number that was never given out. -/
def entry (a : α) (H : Account α) : Nat × α :=
  (H.pending.find? fun p => decide (p.2 = a)).getD (H.queued.length, a)

/-- Somebody was given `a`. -/
def take (a : α) (H : Account α) : Account α :=
  { H with
    returned := H.returned ++ [H.entry a]
    pending := H.pending.eraseP fun p => decide (p.2 = a) }

/-- Somebody asked that `a` be removed, which may not be there. -/
def drop (a : α) (H : Account α) : Account α :=
  if a ∈ H.pending.map Prod.snd then
    { H with
      removed := H.removed ++ [H.entry a]
      pending := H.pending.eraseP fun p => decide (p.2 = a) }
  else
    H

/-- The account agrees with the queue `q`. -/
structure Settles (H : Account α) (q : List α) : Prop where
  onQueue : H.pending.map Prod.snd = q
  numbered : ∀ p ∈ H.queued, p.1 < H.queued.length
  inOrder : ((H.returned ++ H.pending).map Prod.fst).Pairwise (· < ·)
  complete : (H.returned ++ H.removed ++ H.pending).Perm H.queued

omit [DecidableEq α] in
theorem settles_empty : Settles (empty : Account α) [] :=
  ⟨rfl, nofun, .nil, .refl _⟩

omit [DecidableEq α] in
theorem Settles.put (h : Settles H q) (a : α) : Settles (H.put a) (q ++ [a]) := by
  have hlt : ∀ p ∈ H.returned ++ H.pending, p.1 < H.queued.length := by
    intro p hp
    refine h.numbered p (h.complete.subset ?_)
    simp only [mem_append] at hp ⊢
    exact hp.imp_left .inl
  refine ⟨?_, ?_, ?_, ?_⟩
  · simp [Account.put, h.onQueue]
  · intro p hp
    simp only [Account.put, mem_append, mem_singleton] at hp
    rw [Account.put, length_append, length_singleton]
    rcases hp with hp | rfl
    · exact Nat.lt_succ_of_lt (h.numbered p hp)
    · exact Nat.lt_succ_self _
  · show ((H.returned ++ (H.pending ++ [_])).map _).Pairwise _
    rw [← append_assoc, map_append, pairwise_append]
    refine ⟨h.inOrder, pairwise_singleton _ _, fun x hx y hy => ?_⟩
    obtain ⟨p, hp, rfl⟩ := mem_map.mp hx
    obtain rfl : y = H.queued.length := by simpa using hy
    exact hlt p hp
  · show (H.returned ++ H.removed ++ (H.pending ++ [_])).Perm (H.queued ++ [_])
    rw [← append_assoc]
    exact h.complete.append_right _

/-- Where the queue takes its first, the account takes its first. -/
theorem Settles.take {a : α} (h : Settles H (a :: q)) : Settles (H.take a) q := by
  obtain ⟨⟨n, b⟩, P, hP⟩ : ∃ p P, H.pending = p :: P := by
    cases hp : H.pending with
    | nil => simpa [hp] using h.onQueue
    | cons p P => exact ⟨p, P, rfl⟩
  obtain ⟨rfl, hq⟩ : b = a ∧ P.map Prod.snd = q := by
    simpa [hP] using h.onQueue
  have hentry : H.entry b = (n, b) := by simp [entry, hP]
  have hleft : H.pending.eraseP (fun p => decide (p.2 = b)) = P := by simp [hP]
  refine ⟨?_, h.numbered, ?_, ?_⟩
  · rw [Account.take, hleft]
    exact hq
  · have ho := h.inOrder
    rw [hP] at ho
    rw [Account.take, hentry, hleft, append_assoc]
    exact ho
  · have hc := h.complete
    rw [hP] at hc
    rw [Account.take, hentry, hleft]
    refine .trans ?_ hc
    simp only [append_assoc, singleton_append]
    exact (perm_middle.symm).append_left _

theorem map_eraseP_snd (P : List (Nat × α)) (a : α) :
    (P.eraseP fun p => decide (p.2 = a)).map Prod.snd = (P.map Prod.snd).erase a := by
  rw [erase_eq_eraseP, eraseP_map]
  congr 2
  funext p
  simp [eq_comm, Bool.beq_eq_decide_eq]

theorem Settles.drop (h : Settles H q) (a : α) : Settles (H.drop a) (q.erase a) := by
  unfold Account.drop
  split
  · next hm =>
    obtain ⟨p, A, B, hA, hp, hpend, herase⟩ : ∃ p A B,
        (∀ b ∈ A, ¬ b.2 = a) ∧ p.2 = a ∧ H.pending = A ++ p :: B ∧
        (H.pending.eraseP fun p => decide (p.2 = a)) = A ++ B := by
      obtain ⟨p0, hmem, hp0⟩ := mem_map.mp hm
      obtain ⟨p, A, B, hA, hp, h1, h2⟩ :=
        exists_of_eraseP (p := fun p => decide (p.2 = a)) hmem (by simpa using hp0)
      exact ⟨p, A, B, by simpa using hA, by simpa using hp, h1, h2⟩
    have hentry : H.entry a = p := by
      have hnone : A.find? (fun p => decide (p.2 = a)) = none := by
        simpa using hA
      simp [entry, hpend, find?_append, hnone, hp]
    refine ⟨?_, h.numbered, ?_, ?_⟩
    · rw [map_eraseP_snd, h.onQueue]
    · refine h.inOrder.sublist (.map _ ((Sublist.refl _).append ?_))
      exact eraseP_sublist
    · rw [hentry, herase]
      refine .trans ?_ h.complete
      rw [hpend]
      simp only [append_assoc, singleton_append]
      exact (perm_middle.symm.append_left _).append_left _
  · next hm =>
    rw [h.onQueue] at hm
    rw [erase_of_not_mem hm]
    exact h

end Account

end Larva
