import Larva.Lib.Crash
import Mathlib.Data.List.Basic
import Mathlib.Data.List.Nodup
import Mathlib.Data.List.TakeWhile
import Mathlib.Logic.Function.Basic

/-!
# Tail queues linked through their elements

A queue in the manner of `TAILQ` has no cells of its own. Its head holds the
first element and the address of the pointer at the end; an element holds its
successor and the address of the pointer that names it. An element has one
entry, so it can stand in one queue at a time, and the macros trust the caller
to name that queue: removal writes through the element's own `tqe_prev`, and
it touches the named head only when the element was the last one. Removing an
element under the wrong head is therefore not an error here. It is carried
out, as the macro carries it out.

`Queues q L` says that the heads and entries of `q` represent the lists
`L k`, one for every head `k`. The operations below are the macros; each has
one rule, which says what list is represented afterwards. A `NULL` address
that would be followed is a failed assertion, and a traversal that does not
end spins.
-/

namespace Larva

open Crash Function List

/-- A place a pointer to an element is kept: a head, or an element's entry. -/
inductive Ref (κ α : Type) where
  | head (k : κ)
  | next (a : α)
  deriving DecidableEq

/-- The heads `κ` and the entries of the elements `α`. -/
structure TailQ (κ α : Type) where
  first : κ → Option α
  last : κ → Ref κ α
  next : α → Option α
  prev : α → Option (Ref κ α)

namespace TailQ

variable {κ α ε : Type}

def read (q : TailQ κ α) : Ref κ α → Option α
  | .head k => q.first k
  | .next a => q.next a

/-- Empty queues, with entries that are zeroed memory. -/
def init : TailQ κ α where
  first _ := none
  last k := .head k
  next _ := none
  prev _ := none

/-- Where a new element goes: in front of the first one that `p` picks, or at
the end. -/
def insertAt (p : α → Bool) (a : α) (l : List α) : List α :=
  l.takeWhile (fun b => !p b) ++ a :: l.dropWhile (fun b => !p b)

/-- `TAILQ_FOREACH` with a break at the first element that `p` picks. No
answer when the fuel does not reach the end. -/
def search (q : TailQ κ α) (p : α → Bool) : Nat → Option α → Option (Option α)
  | 0, _ => none
  | _ + 1, none => some none
  | n + 1, some a => if p a then some (some a) else q.search p n (q.next a)

section Operations

variable [DecidableEq κ] [DecidableEq α]

def write (q : TailQ κ α) (r : Ref κ α) (v : Option α) : TailQ κ α :=
  match r with
  | .head k => { q with first := update q.first k v }
  | .next a => { q with next := update q.next a v }

/-- The assignments of `TAILQ_INSERT_TAIL`. -/
def linkTail (k : κ) (a : α) (q : TailQ κ α) : TailQ κ α :=
  let q := { q with next := update q.next a none }
  let q := { q with prev := update q.prev a (some (q.last k)) }
  let q := q.write (q.last k) (some a)
  { q with last := update q.last k (.next a) }

/-- The assignments of `TAILQ_INSERT_BEFORE`, `r` being the place that names
`b`. -/
def linkBefore (b a : α) (r : Ref κ α) (q : TailQ κ α) : TailQ κ α :=
  let q := { q with prev := update q.prev a (some r) }
  let q := { q with next := update q.next a (some b) }
  let q := q.write r (some a)
  { q with prev := update q.prev b (some (.next a)) }

/-- The assignments of `TAILQ_REMOVE`, `r` being the place that names `a`. -/
def unlink (k : κ) (a : α) (r : Ref κ α) (q : TailQ κ α) : TailQ κ α :=
  match q.next a with
  | some b =>
    { q with prev := update q.prev b (some r) }.write r (some b)
  | none => { q with last := update q.last k r }.write r none

def insertTail (k : κ) (a : α) : Prog (TailQ κ α) ε Unit :=
  Prog.modify (linkTail k a)

def insertBefore (b a : α) : Prog (TailQ κ α) ε Unit := do
  let q ← Prog.get
  match q.prev b with
  | none => Prog.abort
  | some r => Prog.modify (linkBefore b a r)

def remove (k : κ) (a : α) : Prog (TailQ κ α) ε Unit := do
  let q ← Prog.get
  match q.prev a with
  | none => Prog.abort
  | some r => Prog.modify (unlink k a r)

/-- `TAILQ_REMOVE`, and the address in the entry is cleared: an element whose
entry has one is on a queue. -/
def detach (k : κ) (a : α) : Prog (TailQ κ α) ε Unit := do
  remove k a
  Prog.modify fun q => { q with prev := update q.prev a none }

/-- The traversal and the insertion that follows it, as an ordered queue has
them. -/
def insertWhere (k : κ) (p : α → Bool) (n : Nat) (a : α) : Prog (TailQ κ α) ε Unit := do
  let q ← Prog.get
  match q.search p n (q.first k) with
  | none => Prog.spin
  | some none => insertTail k a
  | some (some b) => insertBefore b a

end Operations

/-! ## Segments -/

/-- The place that names what follows `l`, when `r` names its first. -/
def stop (r : Ref κ α) : List α → Ref κ α
  | [] => r
  | a :: l => stop (.next a) l

/-- The places that name the elements of `l`. -/
def cells (r : Ref κ α) : List α → List (Ref κ α)
  | [] => []
  | a :: l => r :: cells (.next a) l

/-- From the place `r` on stand the elements of `l`, each with the address of
the place that names it. -/
def Seg (q : TailQ κ α) : Ref κ α → List α → Prop
  | _, [] => True
  | r, a :: l => q.read r = some a ∧ q.prev a = some r ∧ Seg q (.next a) l

section Insertion

variable {p : α → Bool} {R : α → α → Prop} {l : List α} {a b : α}

@[simp] theorem mem_insertAt : b ∈ insertAt p a l ↔ b = a ∨ b ∈ l := by
  have hl := takeWhile_append_dropWhile (p := fun b => !p b) (l := l)
  simp only [insertAt, mem_append, mem_cons]
  grind

theorem nodup_insertAt (h : l.Nodup) (ha : a ∉ l) : (insertAt p a l).Nodup := by
  have hl := takeWhile_append_dropWhile (p := fun b => !p b) (l := l)
  rw [← hl] at h ha
  exact nodup_middle.mpr (nodup_cons.mpr ⟨ha, h⟩)

theorem pairwise_insertAt (h : l.Pairwise R) (hlow : ∀ b ∈ l, p b = false → R b a)
    (hhigh : ∀ b ∈ l.dropWhile (fun b => !p b), R a b) : (insertAt p a l).Pairwise R := by
  have hl := takeWhile_append_dropWhile (p := fun b => !p b) (l := l)
  rw [← hl, pairwise_append] at h
  refine pairwise_append.mpr ⟨h.1, pairwise_cons.mpr ⟨hhigh, h.2.1⟩, fun b hb c hc => ?_⟩
  rcases mem_cons.mp hc with rfl | hc
  · have hp := mem_takeWhile_imp hb
    exact hlow b ((takeWhile_sublist _).subset hb) (by simpa using hp)
  · exact h.2.2 b hb c hc

/-- Where `p` picks whatever follows an element that it picks, the new element
is in front of picked ones only. -/
theorem picked_of_mem_dropWhile (h : l.Pairwise R) (hup : ∀ b ∈ l, ∀ c ∈ l, R b c → p b → p c)
    (hb : b ∈ l.dropWhile fun b => !p b) : p b := by
  have hl := takeWhile_append_dropWhile (p := fun b => !p b) (l := l)
  cases hd : l.dropWhile (fun b => !p b) with
  | nil =>
    rw [hd] at hb
    cases hb
  | cons c C =>
    rw [hd] at hb hl
    have hpc : p c := by
      have hne : l.dropWhile (fun b => !p b) ≠ [] := by simp [hd]
      have hnot := head_dropWhile_not (fun b => !p b) hne
      simp only [hd, head_cons] at hnot
      simpa using hnot
    rcases mem_cons.mp hb with rfl | hbC
    · exact hpc
    · rw [← hl, pairwise_append, pairwise_cons] at h
      refine hup c ?_ b ?_ (h.2.1.1 b hbC) hpc <;> rw [← hl] <;> simp [hbC]

theorem takeWhile_congr {p' : α → Bool} (h : ∀ b ∈ l, p b = p' b) :
    l.takeWhile p = l.takeWhile p' := by
  induction l with
  | nil => rfl
  | cons b l ih =>
    rw [takeWhile_cons, takeWhile_cons, h b mem_cons_self,
      ih fun c hc => h c (mem_cons_of_mem b hc)]

/-- Where `p` holds of whatever stands before an element of which it holds, a
walk that stops at the first other element sees them all. -/
theorem mem_takeWhile_iff (h : l.Pairwise fun b c => p c → p b) :
    b ∈ l.takeWhile p ↔ b ∈ l ∧ p b := by
  constructor
  · exact fun hb => ⟨(takeWhile_sublist p).subset hb, mem_takeWhile_imp hb⟩
  rintro ⟨hb, hp⟩
  induction l with
  | nil => cases hb
  | cons c l ih =>
    rw [pairwise_cons] at h
    rcases mem_cons.mp hb with rfl | hbl
    · simp [hp]
    · rw [takeWhile_cons, if_pos (h.1 b hbl hp)]
      exact mem_cons_of_mem c (ih h.2 hbl)

end Insertion

section Segments

variable {q q' : TailQ κ α} {r c : Ref κ α} {l A B : List α} {a : α}

@[simp] theorem stop_append : stop r (A ++ B) = stop (stop r A) B := by
  induction A generalizing r with
  | nil => rfl
  | cons a A ih => exact ih

theorem seg_append : Seg q r (A ++ B) ↔ Seg q r A ∧ Seg q (stop r A) B := by
  induction A generalizing r with
  | nil => simp [Seg, stop]
  | cons a A ih =>
    show _ ∧ _ ∧ Seg q (.next a) (A ++ B) ↔ (_ ∧ _ ∧ Seg q (.next a) A) ∧ Seg q (stop (.next a) A) B
    rw [ih]
    simp only [and_assoc]

theorem mem_cells (h : c ∈ cells r l) : c = r ∨ ∃ x ∈ l, c = .next x := by
  induction l generalizing r with
  | nil => cases h
  | cons a l ih =>
    rcases mem_cons.mp h with rfl | h
    · exact .inl rfl
    · rcases ih h with rfl | ⟨x, hx, rfl⟩
      · exact .inr ⟨a, mem_cons_self, rfl⟩
      · exact .inr ⟨x, mem_cons_of_mem a hx, rfl⟩

theorem stop_cases : stop r l = r ∨ ∃ x ∈ l, stop r l = .next x := by
  induction l generalizing r with
  | nil => exact .inl rfl
  | cons a l ih =>
    rcases ih with h | ⟨x, hx, h⟩
    · exact .inr ⟨a, mem_cons_self, h⟩
    · exact .inr ⟨x, mem_cons_of_mem a hx, h⟩

/-- The place behind a list names none of its elements. -/
theorem stop_notMem_cells (hn : l.Nodup) (hr : ∀ x ∈ l, r ≠ .next x) : stop r l ∉ cells r l := by
  induction l generalizing r with
  | nil => simp [cells]
  | cons a l ih =>
    obtain ⟨ha, hn⟩ := nodup_cons.mp hn
    have hne : ∀ x ∈ l, (.next a : Ref κ α) ≠ .next x := by
      intro x hx he
      cases he
      exact ha hx
    simp only [cells, stop, mem_cons, not_or]
    refine ⟨fun he => ?_, ih hn hne⟩
    rcases stop_cases with
      h | ⟨x, hx, h⟩
    · exact hr a mem_cons_self (he ▸ h)
    · exact hr x (mem_cons_of_mem a hx) (he ▸ h)

/-- A segment reads the places that name its elements, and their `prev`. -/
theorem Seg.congr (h : Seg q r l) (hc : ∀ c ∈ cells r l, q'.read c = q.read c)
    (hp : ∀ x ∈ l, q'.prev x = q.prev x) : Seg q' r l := by
  induction l generalizing r with
  | nil => trivial
  | cons a l ih =>
    refine ⟨?_, ?_, ih h.2.2 ?_ ?_⟩
    · rw [hc r mem_cons_self]
      exact h.1
    · rw [hp a mem_cons_self]
      exact h.2.1
    · exact fun c hx => hc c (mem_cons_of_mem r hx)
    · exact fun x hx => hp x (mem_cons_of_mem a hx)

theorem Seg.search_eq {p : α → Bool} {n : Nat} (h : Seg q r l)
    (hs : q.read (stop r l) = none) (hn : l.length < n) :
    q.search p n (q.read r) = some (l.find? p) := by
  induction l generalizing r n with
  | nil =>
    obtain _ | n := n
    · omega
    rw [show q.read r = none from hs]
    rfl
  | cons a l ih =>
    simp only [length_cons] at hn
    obtain _ | n := n
    · omega
    rw [h.1, search, find?_cons]
    cases hp : p a with
    | true => rfl
    | false => exact ih h.2.2 hs (by omega)

end Segments

/-! ## Queues -/

/-- The heads and entries represent the lists `L`. -/
structure Queues (q : TailQ κ α) (L : κ → List α) : Prop where
  seg : ∀ k, Seg q (.head k) (L k)
  ends : ∀ k, q.read (stop (.head k) (L k)) = none
  last : ∀ k, q.last k = stop (.head k) (L k)
  nodup : ∀ k, (L k).Nodup
  apart : ∀ k k' a, a ∈ L k → a ∈ L k' → k = k'

theorem queues_init : Queues (init : TailQ κ α) fun _ => [] where
  seg _ := trivial
  ends _ := rfl
  last _ := rfl
  nodup _ := nodup_nil
  apart _ _ _ h := by cases h

section Rules

variable {q q' : TailQ κ α} {L : κ → List α} {k : κ} {l A B : List α} {a b : α} {c : Ref κ α}

section

variable (h : Queues q L)
include h

theorem Queues.first_eq (k : κ) : q.first k = (L k).head? := by
  have hs := h.seg k
  have he := h.ends k
  cases hl : L k with
  | nil =>
    rw [hl] at he
    exact he
  | cons a l =>
    rw [hl] at hs
    exact hs.1

theorem Queues.next_eq (hl : L k = A ++ a :: B) : q.next a = B.head? := by
  have hs := h.seg k
  have he := h.ends k
  rw [hl, seg_append] at hs
  rw [hl, stop_append] at he
  cases B with
  | nil => exact he
  | cons b B => exact hs.2.2.2.1

theorem Queues.prev_eq (hl : L k = A ++ a :: B) : q.prev a = some (stop (.head k) A) := by
  have hs := h.seg k
  rw [hl, seg_append] at hs
  exact hs.2.2.1

theorem Queues.search_eq (p : α → Bool) {n : Nat} (hn : (L k).length < n) :
    q.search p n (q.first k) = some ((L k).find? p) :=
  (h.seg k).search_eq (h.ends k) hn

/-- The place behind a part of one queue belongs to no other queue. -/
theorem Queues.stop_ne {k' : κ} (hk : k' ≠ k) (hA : A ⊆ L k)
    (hc : c = .head k' ∨ ∃ x ∈ L k', c = .next x) : c ≠ stop (.head k) A := by
  intro he
  rcases stop_cases with hs | ⟨y, hy, hs⟩
  · rcases hc with hc | ⟨x, hx, hc⟩
    · rw [hc, hs] at he
      exact hk (by simpa using he)
    · rw [hc, hs] at he
      cases he
  · rcases hc with hc | ⟨x, hx, hc⟩
    · rw [hc, hs] at he
      cases he
    · rw [hc, hs] at he
      cases he
      exact hk (h.apart k' k _ hx (hA hy))

end

theorem stop_head_ne (ha : a ∉ l) : stop (.head k) l ≠ (.next a : Ref κ α) := by
  intro he
  rcases stop_cases with hs | ⟨y, hy, hs⟩
  · rw [hs] at he
    cases he
  · rw [hs] at he
    cases he
    exact ha hy

theorem cells_ne (ha : a ∉ l) (hc : c ∈ cells (.head k) l) : c ≠ .next a := by
  rcases mem_cells hc with rfl | ⟨x, hx, rfl⟩
  · exact fun he => by cases he
  · intro he
    cases he
    exact ha hx

variable [DecidableEq κ]

/-- A change to one queue and to nothing that the others read. -/
theorem Queues.update_of (h : Queues q L) (hseg : Seg q' (.head k) l)
    (hends : q'.read (stop (.head k) l) = none)
    (hlast : q'.last k = stop (.head k) l) (hn : l.Nodup) (hap : ∀ k', k' ≠ k → ∀ x ∈ l, x ∉ L k')
    (hread : ∀ k', k' ≠ k → ∀ c, (c = .head k' ∨ ∃ x ∈ L k', c = .next x) → q'.read c = q.read c)
    (hprev : ∀ k', k' ≠ k → ∀ x ∈ L k', q'.prev x = q.prev x)
    (hkeep : ∀ k', k' ≠ k → q'.last k' = q.last k') : Queues q' (update L k l) where
  seg k' := by
    by_cases hk : k' = k
    · subst hk
      rw [update_self]
      exact hseg
    · rw [update_of_ne hk]
      exact (h.seg k').congr (fun c hc => hread k' hk c (mem_cells hc)) (hprev k' hk)
  ends k' := by
    by_cases hk : k' = k
    · subst hk
      rw [update_self]
      exact hends
    · rw [update_of_ne hk, hread k' hk _ stop_cases]
      exact h.ends k'
  last k' := by
    by_cases hk : k' = k
    · subst hk
      rw [update_self]
      exact hlast
    · rw [update_of_ne hk, hkeep k' hk]
      exact h.last k'
  nodup k' := by
    by_cases hk : k' = k
    · subst hk
      rw [update_self]
      exact hn
    · rw [update_of_ne hk]
      exact h.nodup k'
  apart k1 k2 x h1 h2 := by
    by_cases hk1 : k1 = k <;> by_cases hk2 : k2 = k <;>
      simp only [hk1, hk2, update_self, ne_eq, not_false_eq_true, update_of_ne] at h1 h2 ⊢
    · exact (hap k2 hk2 x h1 h2).elim
    · exact (hap k1 hk1 x h2 h1).elim
    · exact h.apart k1 k2 x h1 h2

variable [DecidableEq α]

theorem read_write (q : TailQ κ α) (r c : Ref κ α) (v : Option α) :
    (q.write r v).read c = if c = r then v else q.read c := by
  cases r <;> cases c <;> simp [write, read, update_apply]

@[simp] theorem write_prev (q : TailQ κ α) (r : Ref κ α) (v : Option α) :
    (q.write r v).prev = q.prev := by
  cases r <;> rfl

@[simp] theorem write_last (q : TailQ κ α) (r : Ref κ α) (v : Option α) :
    (q.write r v).last = q.last := by
  cases r <;> rfl

/-! ### The assignments -/

theorem linkTail_read (q : TailQ κ α) (k : κ) (a : α) (hc : c ≠ q.last k) (ha : c ≠ .next a) :
    (linkTail k a q).read c = q.read c := by
  have hw : (linkTail k a q).read c = (({ q with next := update q.next a none } : TailQ κ α).write
        (q.last k) (some a)).read c := by
    cases hl : q.last k <;> cases c <;> simp [linkTail, write, read, hl]
  rw [hw, read_write, if_neg hc]
  cases c with
  | head k' => rfl
  | next x => exact update_of_ne (fun he => ha (by rw [he])) _ _

theorem linkBefore_read (q : TailQ κ α) (b a : α) (r : Ref κ α) (hc : c ≠ r) (ha : c ≠ .next a) :
    (linkBefore b a r q).read c = q.read c := by
  have hw : (linkBefore b a r q).read c = (({ q with next := update q.next a (some b) } :
        TailQ κ α).write r (some a)).read c := by
    cases r <;> cases c <;> rfl
  rw [hw, read_write, if_neg hc]
  cases c with
  | head k' => rfl
  | next x => exact update_of_ne (fun he => ha (by rw [he])) _ _

theorem unlink_read (q : TailQ κ α) (k : κ) (a : α) (r c : Ref κ α) :
    (unlink k a r q).read c = if c = r then q.next a else q.read c := by
  cases hn : q.next a with
  | none =>
    simp only [unlink, hn, read_write]
    cases c <;> rfl
  | some b =>
    simp only [unlink, hn, read_write]
    cases c <;> rfl

end Rules

section Macros

variable [DecidableEq κ] [DecidableEq α] {q q' : TailQ κ α} {L : κ → List α} {k : κ}
  {A M N B : List α} {a b : α} {Q : Post (TailQ κ α) ε Unit} {p : α → Bool} {n : Nat}

section

variable (h : Queues q L)
include h

omit [DecidableEq α] in
/-- The three macros replace a part `M` of one queue by a part `N` of new
elements: the place in front of it is written, the entries of both parts may
be, and so may the address kept by the first element behind, or by the head
where there is none. -/
theorem Queues.splice (hl : L k = A ++ (M ++ B)) (hN : N.Nodup) (hfresh : ∀ k', ∀ x ∈ N, x ∉ L k')
    (hread : ∀ c, c ≠ stop (.head k) A → (∀ x ∈ M ++ N, c ≠ .next x) → q'.read c = q.read c)
    (hprev : ∀ x, x ∉ M ++ N → B.head? ≠ some x → q'.prev x = q.prev x)
    (hmid : Seg q' (stop (.head k) A) (N ++ B.take 1))
    (hend : B = [] → q'.read (stop (stop (.head k) A) N) = none)
    (hlast : q'.last k = if B = [] then stop (.head k) (A ++ N) else q.last k)
    (hkeep : ∀ k', k' ≠ k → q'.last k' = q.last k') : Queues q' (update L k (A ++ (N ++ B))) := by
  have hn := h.nodup k
  rw [hl] at hn
  obtain ⟨hnA, hnMB, hAMB⟩ := nodup_append.mp hn
  obtain ⟨hnM, hnB, hMB⟩ := nodup_append.mp hnMB
  have hA : A ⊆ L k := fun x hx => by rw [hl]; simp [hx]
  have hB : B ⊆ L k := fun x hx => by rw [hl]; simp [hx]
  have hfar : ∀ x ∈ B, ∀ y ∈ M ++ N, y ≠ x := by
    intro x hx y hy he
    subst he
    rcases mem_append.mp hy with hy | hy
    · exact hMB y hy y hx rfl
    · exact hfresh k y hy (hB hx)
  have hnear : ∀ x ∈ A, ∀ y ∈ M ++ N, y ≠ x := by
    intro x hx y hy he
    subst he
    rcases mem_append.mp hy with hy | hy
    · exact hAMB y hx y (by simp [hy]) rfl
    · exact hfresh k y hy (hA hx)
  -- The places behind an element of `B` are not the place in front of it.
  have hback : ∀ x ∈ B, q'.read (.next x) = q.read (.next x) := by
    intro x hx
    refine hread _ (fun he => ?_) fun y hy he => ?_
    · exact stop_head_ne (fun hxA => hAMB x hxA x (by simp [hx]) rfl) he.symm
    · cases he
      exact hfar _ hx _ hy rfl
  apply h.update_of
  · refine seg_append.mpr ⟨?_, ?_⟩
    · have hs := h.seg k
      rw [hl, seg_append] at hs
      refine hs.1.congr (fun c hc => hread c (fun he => ?_) fun y hy he => ?_)
        fun x hx => hprev x (fun hy => hnear x hx x hy rfl) fun he => ?_
      · exact stop_notMem_cells hnA (fun x _ he => by cases he) (he ▸ hc)
      · subst he
        exact cells_ne (fun hyA => hnear y hyA y hy rfl) hc rfl
      · exact hAMB x hx x (by simp [mem_of_mem_head? he]) rfl
    · cases B with
      | nil => simpa using hmid
      | cons b B =>
        have hs := h.seg k
        rw [hl, seg_append, seg_append] at hs
        rw [take_succ_cons, take_zero, seg_append] at hmid
        refine seg_append.mpr ⟨hmid.1, hmid.2.1, hmid.2.2.1, ?_⟩
        refine hs.2.2.2.2.congr (fun c hc => ?_) fun x hx => ?_
        · rcases mem_cells hc with rfl | ⟨x, hx, rfl⟩
          · exact hback b mem_cons_self
          · exact hback x (mem_cons_of_mem b hx)
        · have hxb : b ≠ x := by
            rintro rfl
            exact (nodup_cons.mp hnB).1 hx
          refine hprev x (fun hy => ?_) fun he => hxb (by simpa using he)
          exact hfar x (mem_cons_of_mem b hx) x hy rfl
  · cases B with
    | nil => simpa using hend rfl
    | cons b B =>
      have he := h.ends k
      rw [hl, stop_append, stop_append] at he
      rw [stop_append, stop_append]
      have hs : ∀ r : Ref κ α, ∃ x ∈ b :: B, stop r (b :: B) = .next x := by
        intro r
        rcases stop_cases (l := B) with
          hs | ⟨x, hx, hs⟩
        · exact ⟨b, mem_cons_self, hs⟩
        · exact ⟨x, mem_cons_of_mem b hx, hs⟩
      obtain ⟨x, hx, hs⟩ := hs _
      rw [show stop (stop _ N) (b :: B) = .next x from hs, hback x hx, ← hs]
      exact he
  · rw [hlast]
    cases B with
    | nil => simp
    | cons b B =>
      rw [if_neg (by simp), h.last k, hl]
      simp only [stop_append]
      rfl
  · refine nodup_append.mpr ⟨hnA, nodup_append.mpr ⟨hN, hnB, ?_⟩, ?_⟩
    · exact fun x hx y hy he => hfar y hy x (by simp [hx]) he
    · intro x hx y hy he
      rcases mem_append.mp hy with hy | hy
      · exact hnear x hx y (by simp [hy]) he.symm
      · exact hAMB x hx y (by simp [hy]) he
  · intro k' hk x hx hx'
    rcases mem_append.mp hx with hx | hx
    · exact hk (h.apart k' k x hx' (hA hx))
    · rcases mem_append.mp hx with hx | hx
      · exact hfresh k' x hx hx'
      · exact hk (h.apart k' k x hx' (hB hx))
  · intro k' hk c hc
    refine hread c (h.stop_ne hk hA hc) fun y hy he => ?_
    subst he
    rcases hc with hc | ⟨x, hx, hc⟩
    · cases hc
    · cases hc
      rcases mem_append.mp hy with hy | hy
      · exact hk (h.apart k' k y hx (by rw [hl]; simp [hy]))
      · exact hfresh k' y hy hx
  · intro k' hk x hx
    refine hprev x (fun hy => ?_) fun he => ?_
    · rcases mem_append.mp hy with hy | hy
      · exact hk (h.apart k' k x hx (by rw [hl]; simp [hy]))
      · exact hfresh k' x hy hx
    · exact hk (h.apart k' k x hx (hB (mem_of_mem_head? he)))
  · exact hkeep

theorem Queues.linkTail (ha : ∀ k', a ∉ L k') :
    Queues (linkTail k a q) (update L k (L k ++ [a])) := by
  have hl := h.last k
  have hne : stop (.head k) (L k) ≠ (.next a : Ref κ α) := stop_head_ne (ha k)
  apply h.splice (M := []) (by simp) (nodup_singleton a)
  · exact fun k' x hx => mem_singleton.mp hx ▸ ha k'
  · intro c hc hx
    exact linkTail_read q k a (by rw [hl]; exact hc) (hx a (by simp))
  · intro x hx _
    simp only [TailQ.linkTail, write_prev]
    exact update_of_ne (fun he : x = a => hx (by simp [he])) _ _
  · refine ⟨?_, ?_, trivial⟩
    · rw [← hl]
      cases hq : q.last k <;> simp [TailQ.linkTail, write, read, hq]
    · simp [TailQ.linkTail, hl]
  · intro _
    show (TailQ.linkTail k a q).read (.next a) = none
    rw [← hl] at hne
    cases hq : q.last k with
    | head k' => simp [TailQ.linkTail, write, read, hq]
    | next x =>
      rw [hq] at hne
      have hx : a ≠ x := fun he => hne (by rw [he])
      simp [TailQ.linkTail, write, read, hq, hx]
  · simp [TailQ.linkTail, stop]
  · intro k' hk
    simp only [TailQ.linkTail, write_last]
    exact update_of_ne hk _ _

theorem Queues.linkBefore (hl : L k = A ++ b :: B) (ha : ∀ k', a ∉ L k') :
    Queues (linkBefore b a (stop (.head k) A) q) (update L k (A ++ a :: b :: B)) := by
  have hak := ha k
  rw [hl] at hak
  have hab : a ≠ b := fun he => hak (by simp [he])
  have hne : stop (.head k) A ≠ (.next a : Ref κ α) :=
    stop_head_ne fun hx => hak (by simp [hx])
  apply h.splice (M := []) (by simpa using hl) (nodup_singleton a)
  · exact fun k' x hx => mem_singleton.mp hx ▸ ha k'
  · exact fun c hc hx => linkBefore_read q b a _ hc (hx a (by simp))
  · intro x hx hb
    have hxa : x ≠ a := fun he => hx (by simp [he])
    have hxb : x ≠ b := fun he => hb (by simp [he])
    simp [TailQ.linkBefore, hxa, hxb]
  · refine ⟨?_, ?_, ?_, ?_, trivial⟩
    · cases hq : (stop (.head k) A : Ref κ α) <;> simp [TailQ.linkBefore, write, read]
    · simp [TailQ.linkBefore, hab]
    · cases hq : (stop (.head k) A : Ref κ α) with
      | head k' => simp [TailQ.linkBefore, write, read]
      | next x =>
        rw [hq] at hne
        have hx : a ≠ x := fun he => hne (by rw [he])
        simp [TailQ.linkBefore, write, read, hx]
    · simp [TailQ.linkBefore]
  · intro he
    cases he
  · simp [TailQ.linkBefore]
  · intro k' _
    simp [TailQ.linkBefore]

theorem Queues.unlink (hl : L k = A ++ a :: B) :
    Queues (unlink k a (stop (.head k) A) q) (update L k (A ++ B)) := by
  have hnext := h.next_eq hl
  apply h.splice (M := [a]) (by simpa using hl) nodup_nil
  · exact fun k' x hx => by cases hx
  · intro c hc _
    rw [unlink_read, if_neg hc]
  · intro x _ hb
    cases B with
    | nil =>
      simp [TailQ.unlink, hnext]
    | cons b B =>
      have hxb : x ≠ b := fun he => hb (by simp [he])
      simp [TailQ.unlink, hnext, hxb]
  · cases B with
    | nil => trivial
    | cons b B =>
      rw [head?_cons] at hnext
      refine ⟨?_, ?_, trivial⟩
      · rw [unlink_read, if_pos rfl, hnext]
      · simp [TailQ.unlink, hnext]
  · intro he
    subst he
    show (TailQ.unlink k a _ q).read (stop (.head k) A) = none
    rw [unlink_read, if_pos rfl]
    exact hnext
  · cases B with
    | nil =>
      simp [TailQ.unlink, hnext]
    | cons b B =>
      simp [TailQ.unlink, hnext]
  · intro k' hk
    cases B with
    | nil =>
      simp [TailQ.unlink, hnext, hk]
    | cons b B =>
      simp [TailQ.unlink, hnext]

theorem wp_remove (ha : a ∈ L k) (hok : ∀ q', Queues q' (update L k ((L k).erase a)) → Q.ok () q') :
    Wp (remove k a) Q q := by
  obtain ⟨A, B, haA, hl, he⟩ := exists_erase_eq ha
  rw [he] at hok
  refine .bind (.get ?_)
  show Wp (match q.prev a with | none => _ | some r => _) Q q
  rw [h.prev_eq hl]
  exact .modify (hok _ (h.unlink hl))

theorem wp_insertTail (ha : ∀ k', a ∉ L k')
    (hok : ∀ q', Queues q' (update L k (L k ++ [a])) → Q.ok () q') :
    Wp (insertTail k a) Q q :=
  Wp.modify (hok _ (h.linkTail ha))

/-- An insertion gives no other element an address. -/
theorem wp_insertWhere_prev (ha : ∀ k', a ∉ L k') (hn : (L k).length < n)
    (hok : ∀ q', Queues q' (update L k (insertAt p a (L k))) →
      (∀ b, b ∉ L k → b ≠ a → q'.prev b = q.prev b) → Q.ok () q') :
    Wp (insertWhere k p n a) Q q := by
  refine .bind (.get ?_)
  show Wp (match q.search p n (q.first k) with
    | none => _ | some none => _ | some (some b) => _) Q q
  rw [h.search_eq p hn, find?_eq_head?_dropWhile_not]
  have hsplit := takeWhile_append_dropWhile (p := fun b => !p b) (l := L k)
  rw [insertAt] at hok
  cases hd : (L k).dropWhile (fun b => !p b) with
  | nil =>
    rw [hd, append_nil] at hsplit
    rw [hd, hsplit] at hok
    refine .modify (hok _ (h.linkTail ha) fun b _ hb => ?_)
    simp [TailQ.linkTail, hb]
  | cons c B =>
    rw [hd] at hsplit hok
    refine .bind (.get ?_)
    show Wp (match q.prev c with | none => _ | some r => _) Q q
    rw [h.prev_eq hsplit.symm]
    refine .modify (hok _ (h.linkBefore hsplit.symm ha) fun b hb hba => ?_)
    have hbc : b ≠ c := by
      rintro rfl
      exact hb (by rw [← hsplit]; simp)
    simp [TailQ.linkBefore, hba, hbc]

theorem wp_insertWhere (ha : ∀ k', a ∉ L k') (hn : (L k).length < n)
    (hok : ∀ q', Queues q' (update L k (insertAt p a (L k))) →
      Q.ok () q') : Wp (insertWhere k p n a) Q q :=
  wp_insertWhere_prev h ha hn fun q' hq _ => hok q' hq

end

/-! ### Entries that tell -/

omit [DecidableEq κ] [DecidableEq α] in
/-- The queues are in order, and whoever is on none has no address in its
entry. -/
structure Marked (q : TailQ κ α) (L : κ → List α) : Prop where
  queues : Queues q L
  off : ∀ a, (∀ k, a ∉ L k) → q.prev a = none

omit [DecidableEq κ] [DecidableEq α] in
theorem marked_init : Marked (init : TailQ κ α) fun _ => [] :=
  ⟨queues_init, fun _ _ => rfl⟩

omit [DecidableEq κ] [DecidableEq α] in
theorem Marked.isSome_prev (h : Marked q L) : (q.prev a).isSome = true ↔ ∃ k, a ∈ L k := by
  constructor
  · intro hs
    by_contra hno
    rw [h.off a fun k hk => hno ⟨k, hk⟩] at hs
    cases hs
  · rintro ⟨k, hk⟩
    obtain ⟨A, B, hl⟩ := append_of_mem hk
    rw [h.queues.prev_eq hl]
    rfl

omit [DecidableEq κ] in
theorem Queues.clear (h : Queues q L) (ha : ∀ k, a ∉ L k) :
    Queues { q with prev := update q.prev a none } L := by
  refine { h with
    seg := fun k => (h.seg k).congr (fun c _ => ?_) fun x hx => ?_, ends := fun k => ?_ }
  · cases c <;> rfl
  · exact update_of_ne (fun he : x = a => ha k (he ▸ hx)) _ _
  · rw [← h.ends k]
    cases stop (.head k) (L k) <;> rfl

theorem Queues.unlink_prev (h : Queues q L) (hl : L k = A ++ a :: B) (hb : b ∉ L k) :
    (TailQ.unlink k a (stop (.head k) A) q).prev b = q.prev b := by
  have hnext := h.next_eq hl
  cases B with
  | nil =>
    simp [TailQ.unlink, hnext]
  | cons c B =>
    have hbc : b ≠ c := by
      rintro rfl
      exact hb (by simp [hl])
    simp [TailQ.unlink, hnext, hbc]

theorem wp_detach (h : Marked q L) (ha : a ∈ L k)
    (hok : ∀ q', Marked q' (update L k ((L k).erase a)) → Q.ok () q') : Wp (detach k a) Q q := by
  obtain ⟨A, B, haA, hl, he⟩ := exists_erase_eq ha
  have hq := h.queues.unlink hl
  rw [← he] at hq
  have hoff : ∀ k', a ∉ update L k ((L k).erase a) k' := by
    intro k'
    by_cases hk : k' = k
    · subst hk
      rw [update_self, (h.queues.nodup k').mem_erase_iff]
      exact fun hm => hm.1 rfl
    · rw [update_of_ne hk]
      exact fun hm => hk (h.queues.apart k' k a hm ha)
  refine .bind (.bind (.get ?_))
  show Wp (match q.prev a with | none => _ | some r => _) _ q
  rw [h.queues.prev_eq hl]
  refine .modify (.modify (hok _ ⟨hq.clear hoff, fun b hb => ?_⟩))
  by_cases hba : b = a
  · rw [hba]
    exact update_self _ _ _
  have hbL : ∀ k', b ∉ L k' := by
    intro k' hm
    by_cases hk : k' = k
    · subst hk
      refine hb k' ?_
      rw [update_self, (h.queues.nodup k').mem_erase_iff]
      exact ⟨hba, hm⟩
    · exact hb k' (by rwa [update_of_ne hk])
  show update (TailQ.unlink k a _ q).prev a none b = none
  rw [update_of_ne hba, h.queues.unlink_prev hl (hbL k)]
  exact h.off b hbL

theorem wp_insertWhere_marked (h : Marked q L) (ha : ∀ k', a ∉ L k') (hn : (L k).length < n)
    (hok : ∀ q', Marked q' (update L k (insertAt p a (L k))) →
      Q.ok () q') : Wp (insertWhere k p n a) Q q := by
  refine wp_insertWhere_prev h.queues ha hn fun q' hq hprev => ?_
  refine hok q' ⟨hq, fun b hb => ?_⟩
  have hbk := hb k
  rw [update_self, mem_insertAt, not_or] at hbk
  rw [hprev b hbk.2 hbk.1]
  refine h.off b fun k' => ?_
  by_cases hk : k' = k
  · rw [hk]
    exact hbk.2
  · simpa only [update_of_ne hk] using hb k'

end Macros

end TailQ

end Larva
