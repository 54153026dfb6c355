import Larva.Lib.SList
import Larva.Lib.TailQ

/-!
# Singly linked queues with a pointer to their end

A queue in the manner of `STAILQ`: a head with the pointer to the first
element and the address of the place where the next one is to be linked in,
and in every element the pointer to the one after it. Several heads share one
set of elements.

What a queue holds is what is visited from its head, and that depends on the
links alone. The address of the end is a second, independent record of the
same thing, and it is not read until something is added at the tail. So the
two are kept apart here: `Lists` says what every queue holds, `Sound` says
that one queue's address of the end is right, and each operation says which of
the two it needs and which it gives.
-/

namespace Larva

open SList Function List

/-- The heads `κ` and the links of the elements `α`. -/
structure STailQ (κ α : Type) where
  first : κ → Option α
  last : κ → Ref κ α
  next : α → Option α

namespace STailQ

variable {κ α : Type}

section Operations

variable [DecidableEq κ] [DecidableEq α]

/-- `STAILQ_INIT`. -/
def initAt (k : κ) (q : STailQ κ α) : STailQ κ α :=
  { q with
    first := update q.first k none
    last := update q.last k (.head k) }

/-- The assignment through an address. -/
def write (r : Ref κ α) (v : Option α) (q : STailQ κ α) : STailQ κ α :=
  match r with
  | .head k => { q with first := update q.first k v }
  | .next a => { q with next := update q.next a v }

/-- `STAILQ_INSERT_TAIL`. -/
def insertTail (k : κ) (a : α) (q : STailQ κ α) : STailQ κ α :=
  let q₁ := q.write (.next a) none
  let q₂ := q₁.write (q.last k) (some a)
  { q₂ with last := update q₂.last k (.next a) }

/-- `STAILQ_INSERT_HEAD`. -/
def insertHead (k : κ) (a : α) (q : STailQ κ α) : STailQ κ α :=
  { first := update q.first k (some a)
    last := if q.first k = none then update q.last k (.next a)
      else q.last
    next := update q.next a (q.first k) }

/-- `STAILQ_REMOVE_HEAD`, of a queue whose first element is `a`. -/
def removeHead (k : κ) (a : α) (q : STailQ κ α) : STailQ κ α :=
  { q with
    first := update q.first k (q.next a)
    last := if q.next a = none then update q.last k (.head k)
      else q.last }

/-- The element after `p` is unlinked, by the assignment to `p`'s link
alone. -/
def unlinkAfter (p a : α) (q : STailQ κ α) : STailQ κ α :=
  q.write (.next p) (q.next a)

@[simp] theorem last_write (r : Ref κ α) (v : Option α) (q : STailQ κ α) :
    (q.write r v).last = q.last := by
  cases r <;> rfl

end Operations

/-! ## What the queues hold -/

/-- Every queue holds its list, and no element is in two of them. -/
structure Lists (q : STailQ κ α) (c : κ → List α) : Prop where
  linked : ∀ k, Linked q.next (q.first k) (c k)
  apart : ∀ k k' a, a ∈ c k → a ∈ c k' → k = k'

/-- The queue's address of its end is right. -/
def Sound (q : STailQ κ α) (c : κ → List α) (k : κ) : Prop :=
  q.last k = TailQ.stop (.head k) (c k)

variable {q : STailQ κ α} {c : κ → List α} {k k' : κ} {a p : α} {A B l : List α}

theorem stop_snoc (r : Ref κ α) (l : List α) (a : α) : TailQ.stop r (l ++ [a]) = .next a := by
  rw [TailQ.stop_append]
  rfl

theorem stop_getLast (r : Ref κ α) (l : List α) :
    TailQ.stop r l = match l.getLast? with
      | none => r
      | some x => .next x := by
  rcases eq_nil_or_concat l with rfl | ⟨A, x, rfl⟩
  · rfl
  · rw [concat_eq_append, stop_snoc]
    simp

theorem Lists.nodup (h : Lists q c) (k : κ) : (c k).Nodup := (h.linked k).nodup

theorem Lists.notMem (h : Lists q c) {b : α} (hb : b ∈ c k) (hk : k' ≠ k) :
    b ∉ c k' := fun hb' => hk (h.apart k' k b hb' hb)

theorem Lists.first_eq (h : Lists q c) : q.first k = (c k).head? := by
  have hl := h.linked k
  cases hc : c k with
  | nil => rw [hc] at hl; exact hl
  | cons b l => rw [hc] at hl; exact hl.1

theorem Lists.next_eq (h : Lists q c) (hl : c k = A ++ a :: B) : q.next a = B.head? := by
  have hk := h.linked k
  rw [hl] at hk
  have hB := hk.after
  cases B with
  | nil => exact hB
  | cons b B => exact hB.1

/-! ## What the operations do -/

variable [DecidableEq κ]

/-- One queue gets a new list of elements that no other queue has, and the
links of the others stay as they are. -/
theorem Lists.replace (h : Lists q c) {q' : STailQ κ α} (hl : Linked q'.next (q'.first k) l)
    (hfirst : ∀ k', k' ≠ k → q'.first k' = q.first k')
    (hnext : ∀ k', k' ≠ k → ∀ b ∈ c k', q'.next b = q.next b)
    (hdis : ∀ b ∈ l, ∀ k', k' ≠ k → b ∉ c k') : Lists q' (update c k l) := by
  constructor
  · intro k'
    by_cases hk : k' = k
    · subst hk
      rw [update_self]
      exact hl
    · rw [update_of_ne hk, hfirst k' hk]
      exact (h.linked k').congr (hnext k' hk)
  intro k1 k2 b hb1 hb2
  by_cases h1 : k1 = k
  · by_cases h2 : k2 = k
    · rw [h1, h2]
    · subst h1
      rw [update_self] at hb1
      rw [update_of_ne h2] at hb2
      exact absurd hb2 (hdis b hb1 k2 h2)
  · rw [update_of_ne h1] at hb1
    by_cases h2 : k2 = k
    · subst h2
      rw [update_self] at hb2
      exact absurd hb1 (hdis b hb2 k1 h1)
    · rw [update_of_ne h2] at hb2
      exact h.apart k1 k2 b hb1 hb2

theorem Lists.initAt (h : Lists q c) : Lists (q.initAt k) (update c k []) := by
  refine h.replace ?_ ?_ (fun _ _ _ _ => rfl) ?_
  · simp [STailQ.initAt, Linked]
  · intro k' hk
    simp [STailQ.initAt, update_of_ne hk]
  · intro b hb
    cases hb

theorem sound_initAt : Sound (q.initAt k) (update c k []) k := by
  simp [Sound, STailQ.initAt, TailQ.stop]

variable [DecidableEq α] {first : Option α} {next : α → Option α} {x : α}

/-- Linking an element in at the end of a list. -/
theorem linked_snoc (h : Linked next first l) (ha : a ∉ l) (hx : l.getLast? = some x) :
    Linked (update (update next a none) x (some a)) first
      (l ++ [a]) := by
  obtain ⟨A, rfl⟩ := getLast?_eq_some_iff.mp hx
  have hend : next x = none := h.after
  have hins := h.insert_after (by simpa using ha)
  rw [hend] at hins
  simpa using hins

theorem Lists.insertTail (h : Lists q c) (hs : Sound q c k) (ha : ∀ k', a ∉ c k') :
    Lists (q.insertTail k a) (update c k (c k ++ [a])) := by
  have hnew : ∀ b ∈ c k ++ [a], ∀ k', k' ≠ k → b ∉ c k' := by
    intro b hb k' hk
    rcases mem_append.mp hb with hb | hb
    · exact h.notMem hb hk
    · rw [mem_singleton] at hb
      rw [hb]
      exact ha k'
  rw [Sound, stop_getLast] at hs
  cases hx : (c k).getLast? with
  | none =>
    rw [hx] at hs
    have hnil : c k = [] := getLast?_eq_none_iff.mp hx
    refine h.replace ?_ ?_ ?_ hnew
    · simp [STailQ.insertTail, write, hs, hnil, Linked]
    · intro k' hk
      simp [STailQ.insertTail, write, hs, update_of_ne hk]
    · intro k' _ b hb
      have hba : b ≠ a := fun he => ha k' (he ▸ hb)
      simp [STailQ.insertTail, write, hs, update_of_ne hba]
  | some x =>
    rw [hx] at hs
    have hxk : x ∈ c k := mem_of_getLast? hx
    refine h.replace ?_ ?_ ?_ hnew
    · simp only [STailQ.insertTail, write, hs]
      exact linked_snoc (h.linked k) (ha k) hx
    · simp [STailQ.insertTail, write, hs]
    · intro k' hk b hb
      have hba : b ≠ a := fun he => ha k' (he ▸ hb)
      have hbx : b ≠ x := fun he => h.notMem hxk hk (he ▸ hb)
      simp [STailQ.insertTail, write, hs, update_of_ne hba, update_of_ne hbx]

theorem sound_insertTail : Sound (q.insertTail k a) (update c k (c k ++ [a])) k := by
  simp only [Sound, STailQ.insertTail, update_self, stop_snoc]

theorem Lists.insertHead (h : Lists q c) (ha : ∀ k', a ∉ c k') :
    Lists (q.insertHead k a) (update c k (a :: c k)) := by
  refine h.replace ?_ ?_ ?_ ?_
  · simp only [STailQ.insertHead, update_self]
    exact (h.linked k).insert_head (ha k)
  · intro k' hk
    simp [STailQ.insertHead, update_of_ne hk]
  · intro k' _ b hb
    have hba : b ≠ a := fun he => ha k' (he ▸ hb)
    simp [STailQ.insertHead, update_of_ne hba]
  · intro b hb k' hk
    rcases mem_cons.mp hb with rfl | hb
    · exact ha k'
    · exact h.notMem hb hk

omit [DecidableEq α] in
theorem Lists.removeHead (h : Lists q c) (hl : c k = a :: B) :
    Lists (q.removeHead k a) (update c k B) := by
  have hk := h.linked k
  rw [hl] at hk
  refine h.replace ?_ ?_ (fun _ _ _ _ => rfl) ?_
  · simp only [STailQ.removeHead, update_self]
    exact hk.2
  · intro k' hk'
    simp [STailQ.removeHead, update_of_ne hk']
  · intro b hb k' hk'
    exact h.notMem (by rw [hl]; exact mem_cons_of_mem a hb) hk'

omit [DecidableEq α] in
theorem Lists.sound_removeHead (h : Lists q c) (hs : Sound q c k) (hl : c k = a :: B) :
    Sound (q.removeHead k a) (update c k B) k := by
  have hnext := h.next_eq (show c k = [] ++ a :: B from hl)
  rw [Sound, hl] at hs
  rw [Sound, update_self]
  cases B with
  | nil => simp [STailQ.removeHead, hnext, TailQ.stop]
  | cons b B => simpa [STailQ.removeHead, hnext, TailQ.stop] using hs

theorem Lists.unlinkAfter (h : Lists q c) (hl : c k = A ++ p :: a :: B) :
    Lists (q.unlinkAfter p a) (update c k (A ++ p :: B)) := by
  have hk := h.linked k
  rw [hl] at hk
  refine h.replace hk.remove_after (fun _ _ => rfl) ?_ ?_
  · intro k' hk' b hb
    refine update_of_ne ?_ _ _
    rintro rfl
    exact h.notMem (by rw [hl]; simp) hk' hb
  intro b hb k' hk'
  refine h.notMem ?_ hk'
  rw [hl]
  simp only [mem_append, mem_cons] at hb ⊢
  rcases hb with hb | hb | hb
  · exact .inl hb
  · exact .inr (.inl hb)
  · exact .inr (.inr (.inr hb))

/-- A list linked in behind the last element of another. -/
theorem linked_join {r : Option α} (h : Linked next first (A ++ [x])) (hB : Linked next r B)
    (hx : x ∉ B) : Linked (update next x r) first (A ++ [x] ++ B) := by
  have hn := h.nodup
  induction A generalizing first with
  | nil =>
    refine ⟨h.1, ?_⟩
    rw [update_self]
    refine hB.congr fun b hb => update_of_ne ?_ _ _
    rintro rfl
    exact hx hb
  | cons c A ih =>
    simp only [cons_append, nodup_cons] at hn
    have hcx : c ≠ x := fun he => hn.1 (by simp [he])
    refine ⟨h.1, ?_⟩
    rw [update_of_ne hcx]
    exact ih h.2 hn.2

end STailQ

end Larva
