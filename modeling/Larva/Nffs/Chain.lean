import Larva.Nffs.Data

/-!
# Block chains and what the caches say of them

A file is the chain of blocks that hangs off its last block. Everything that
walks a file walks it backwards, so a chain is a list with the last block
first, and a block starts at the size of what follows it in the list.

The cached blocks of a file are a stretch of its chain. Each carries the file
offset and the length it had when it was cached, and one of them may be out
of date: an overwrite that extends the file's last block leaves the cached
length as it was. `Cached` allows a cached length to be short for the last
block of the file and for no other, because for that one block every seek
past the cached end goes to the end of the file and reads the block anew.
-/

namespace Larva.Nffs

open Larva.Crash List

/-- A block entry and the block it points at. -/
abbrev Link := Nat × DiskBlock

/-- The entry of the last block of a chain. -/
def ptr : List Link → Option Nat
  | [] => none
  | x :: _ => some x.1

/-- The id a block stores for the chain before it. -/
def ptrId (R : List Link) : Nat := (ptr R).getD idNone

def Link.len (x : Link) : Nat := x.2.ndbData.length

def chainSize : List Link → Nat
  | [] => 0
  | x :: R => chainSize R + Link.len x

def chainBytes : List Link → List UInt8
  | [] => []
  | x :: R => chainBytes R ++ x.2.ndbData

@[simp] theorem chainSize_append (A B : List Link) :
    chainSize (A ++ B) = chainSize A + chainSize B := by
  induction A with
  | nil => simp [chainSize]
  | cons x A ih =>
    simp only [cons_append, chainSize, ih]
    omega

variable {T : List Link}

theorem chainSize_split {R A : List Link} {y : Link} (hR : R = A ++ y :: T) :
    chainSize R = chainSize A + (chainSize T + Link.len y) := by
  rw [hR, chainSize_append]
  rfl

@[simp] theorem chainBytes_append (A B : List Link) :
    chainBytes (A ++ B) = chainBytes B ++ chainBytes A := by
  induction A with
  | nil => simp [chainBytes]
  | cons x A ih => simp [chainBytes, ih]

@[simp] theorem chainBytes_length (R : List Link) : (chainBytes R).length = chainSize R := by
  induction R with
  | nil => rfl
  | cons x R ih => simp [chainBytes, chainSize, ih, Link.len]

/-- The largest block that can be written: with its header it just does not
overflow sixteen bits. -/
def maxBlockLen : Nat := 65511

/-- A chain of file `f` with ids below `b`, each below the one after it. -/
def IsChain (blocks : Nat → Option DiskBlock) (f : Nat) : Nat → List Link → Prop
  | _, [] => True
  | b, x :: R => x.1 < b ∧ idBlockMin ≤ x.1 ∧ blocks x.1 = some x.2 ∧
      x.2.ndbInodeId = f ∧ 0 < Link.len x ∧ Link.len x ≤ maxBlockLen ∧
      x.2.ndbPrevId = ptrId R ∧ IsChain blocks f x.1 R

section Chains

variable {blocks : Nat → Option DiskBlock} {f b : Nat}

variable {R A B A' : List Link} {x y : Link}

theorem IsChain.mono {b' : Nat} (hb : b ≤ b')
    (h : IsChain blocks f b R) : IsChain blocks f b' R := by
  cases R with
  | nil => trivial
  | cons x R => exact ⟨lt_of_lt_of_le h.1 hb, h.2⟩

theorem IsChain.append_right (h : IsChain blocks f b (A ++ B)) : IsChain blocks f b B := by
  induction A generalizing b with
  | nil => exact h
  | cons x A ih =>
    obtain ⟨hx, -, -, -, -, -, -, hr⟩ := h
    exact (ih hr).mono (le_of_lt hx)

theorem IsChain.lt_of_mem (h : IsChain blocks f b R) (hx : x ∈ R) : x.1 < b := by
  induction R generalizing b with
  | nil => cases hx
  | cons y R ih =>
    obtain ⟨hy, -, -, -, -, -, -, hr⟩ := h
    rcases mem_cons.mp hx with rfl | hx
    · exact hy
    · exact lt_trans (ih hr hx) hy

/-- A chain is no longer than the ids it can use. -/
theorem IsChain.length_le (h : IsChain blocks f b R)
    (hb : idBlockMin ≤ b) : R.length ≤ b - idBlockMin := by
  induction R generalizing b with
  | nil => exact Nat.zero_le _
  | cons y R ih =>
    obtain ⟨hy, hmin, -, -, -, -, -, hr⟩ := h
    have := ih hr hmin
    simp only [length_cons]
    omega

/-- The fields of a block that is in a chain. -/
theorem IsChain.at (h : IsChain blocks f b (A ++ x :: B)) :
    idBlockMin ≤ x.1 ∧ x.1 < b ∧ blocks x.1 = some x.2 ∧
      x.2.ndbInodeId = f ∧ 0 < Link.len x ∧ Link.len x ≤ maxBlockLen ∧ x.2.ndbPrevId = ptrId B := by
  obtain ⟨h1, h2, h3, h4, h5, h6, h7, -⟩ := h.append_right
  exact ⟨h2, h1, h3, h4, h5, h6, h7⟩

/-- A change of blocks that are not in the chain leaves it a chain. -/
theorem IsChain.congr {blocks' : Nat → Option DiskBlock} (h : IsChain blocks f b R)
    (he : ∀ x ∈ R, blocks' x.1 = blocks x.1) : IsChain blocks' f b R := by
  induction R generalizing b with
  | nil => trivial
  | cons y R ih =>
    obtain ⟨h1, h2, h3, h4, h5, h6, h7, hr⟩ := h
    refine ⟨h1, h2, ?_, h4, h5, h6, h7, ih hr fun x hx =>
      he x (mem_cons_of_mem y hx)⟩
    rw [he y mem_cons_self]
    exact h3

/-- Two places of a chain with one entry are one place. -/
theorem IsChain.split_unique {B' : List Link} (h : IsChain blocks f b (A ++ x :: B))
    (he : A ++ x :: B = A' ++ y :: B') (hxy : x.1 = y.1) : A = A' ∧ x = y ∧ B = B' := by
  induction A generalizing A' b with
  | nil =>
    cases A' with
    | nil =>
      simp only [nil_append, cons.injEq] at he
      exact ⟨rfl, he.1, he.2⟩
    | cons z A' =>
      obtain ⟨rfl, rfl⟩ := he
      obtain ⟨-, -, -, -, -, -, -, hr⟩ := h
      have := hr.lt_of_mem (x := y) (by simp)
      omega
  | cons z A ih =>
    cases A' with
    | nil =>
      obtain ⟨rfl, rfl⟩ := he
      obtain ⟨-, -, -, -, -, -, -, hr⟩ := h
      have := hr.lt_of_mem (x := x) (by simp)
      omega
    | cons w A' =>
      simp only [cons_append, cons.injEq] at he
      obtain ⟨rfl, he⟩ := he
      obtain ⟨-, -, -, -, -, -, -, hr⟩ := h
      obtain ⟨rfl, h2, h3⟩ := ih hr he
      exact ⟨rfl, h2, h3⟩

theorem IsChain.eq_of_mem (h : IsChain blocks f b R)
    (hx : x ∈ R) (hy : y ∈ R) (he : x.1 = y.1) : x = y := by
  obtain ⟨A, B, rfl⟩ := append_of_mem hx
  obtain ⟨A', B', h'⟩ := append_of_mem hy
  exact (h.split_unique h' he).2.1

theorem IsChain.pos_of_mem (h : IsChain blocks f b R) (hx : x ∈ R) : 0 < Link.len x := by
  obtain ⟨A, B, rfl⟩ := append_of_mem hx
  exact h.at.2.2.2.2.1

theorem IsChain.eq_nil_of_size
    (h : IsChain blocks f b (A ++ B)) (hA : chainSize A = 0) : A = [] := by
  cases A with
  | nil => rfl
  | cons x A =>
    have := h.pos_of_mem (x := x) (by simp)
    simp only [chainSize] at hA
    omega

/-- A block boundary that lies in a block or at its end is its end. -/
theorem IsChain.boundary {T' : List Link} (h : IsChain blocks f b (A ++ y :: T))
    (he : A ++ y :: T = A' ++ T') (hlt : chainSize T < chainSize T')
    (hle : chainSize T' ≤ chainSize (y :: T)) : A' = A ∧ T' = y :: T := by
  rcases append_eq_append_iff.mp he with ⟨C, rfl, hC⟩ | ⟨C, rfl, rfl⟩
  · cases C with
    | nil => exact ⟨by simp, hC.symm⟩
    | cons w C =>
      simp only [cons_append, cons.injEq] at hC
      obtain ⟨rfl, rfl⟩ := hC
      rw [chainSize_append] at hlt
      omega
  · rw [chainSize_append] at hle
    rw [append_assoc] at h
    have hC : C = [] := h.append_right.eq_nil_of_size (by omega)
    subst hC
    exact ⟨by simp, rfl⟩

end Chains

variable {A S B : List Link} {l : List CacheBlock} {cb : CacheBlock}

/-- The data of a block is where the blocks before it end. -/
theorem chainBytes_slice {y : Link} {o k : Nat} (h : o + k ≤ Link.len y) :
    ((chainBytes (A ++ y :: T)).drop (chainSize T + o)).take k = (y.2.ndbData.drop o).take k := by
  unfold Link.len at h
  rw [chainBytes_append, chainBytes, append_assoc, ← chainBytes_length,
    drop_length_add_append, drop_append_of_le_length (by omega),
    take_append_of_le_length (by rw [length_drop]; omega)]

/-! ## Cached stretches -/

/-- The cache entry of a block, given the chain before it. -/
def cacheBlock (x : Link) (T : List Link) : CacheBlock :=
  ⟨x.1, ptr T, Link.len x, chainSize T⟩

/-- The cache entries of a stretch `S` with `B` before it. -/
def seg : List Link → List Link → List CacheBlock
  | [], _ => []
  | x :: S, B => cacheBlock x (S ++ B) :: seg S B

/-- A cache entry of block `x`, whose length may be out of date when no block
follows it. -/
structure Fresh (A : List Link) (x : Link) (T : List Link) (cb : CacheBlock) : Prop where
  entry : cb.nbHashEntry = x.1
  prev : cb.nbPrev = ptr T
  off : cb.ncbFileOffset = chainSize T
  pos : 0 < cb.nbDataLen
  le : cb.nbDataLen ≤ Link.len x
  eq : A ≠ [] → cb.nbDataLen = Link.len x

/-- The cached blocks `l` of a chain `A ++ S ++ B` are those of `S`. -/
def Cached (A S B : List Link) (l : List CacheBlock) : Prop :=
  match S, l with
  | [], [] => True
  | x :: S', cb :: l' => Fresh A x (S' ++ B) cb ∧ l' = seg S' B
  | _, _ => False

theorem fresh_cacheBlock {x : Link} (h : 0 < Link.len x) :
    Fresh A x T (cacheBlock x T) :=
  ⟨rfl, rfl, rfl, h, le_refl _, fun _ => rfl⟩

theorem Fresh.eq_cacheBlock {x : Link} (h : Fresh A x T cb) (hlen : cb.nbDataLen = Link.len x) :
    cb = cacheBlock x T := by
  cases cb
  simp only [cacheBlock, CacheBlock.mk.injEq]
  exact ⟨h.entry, h.prev, hlen, h.off⟩

theorem seg_append (S : List Link) (y : Link) (B : List Link) :
    seg (S ++ [y]) B = seg S (y :: B) ++ [cacheBlock y B] := by
  induction S with
  | nil => rfl
  | cons x S ih => simp [seg, ih]

@[simp] theorem seg_length (S B : List Link) : (seg S B).length = S.length := by
  induction S with
  | nil => rfl
  | cons x S ih => simp [seg, ih]

theorem Cached.length (h : Cached A S B l) : l.length = S.length := by
  match S, l, h with
  | [], [], _ => rfl
  | x :: S, cb :: l', ⟨_, hl'⟩ => simp [hl']

theorem mem_seg (h : cb ∈ seg S B) : ∃ x ∈ S, cb.nbHashEntry = x.1 ∧ cb.nbDataLen = Link.len x := by
  induction S with
  | nil => cases h
  | cons w S ih =>
    rcases mem_cons.mp h with rfl | h
    · exact ⟨w, mem_cons_self, rfl, rfl⟩
    · obtain ⟨x, hx, h'⟩ := ih h
      exact ⟨x, mem_cons_of_mem w hx, h'⟩

/-- No cached length is out of date. -/
def Snug (R : List Link) (l : List CacheBlock) : Prop :=
  ∀ cb ∈ l, ∀ x ∈ R, cb.nbHashEntry = x.1 → cb.nbDataLen = Link.len x

theorem IsChain.snug_seg {blocks : Nat → Option DiskBlock} {f b : Nat}
    {R : List Link} (h : IsChain blocks f b R) (hS : S ⊆ R) : Snug R (seg S B) := by
  intro cb hcb x hx he
  obtain ⟨y, hy, he', hlen⟩ := mem_seg hcb
  have hxy : x = y := h.eq_of_mem hx (hS hy) (he.symm.trans he')
  rw [hlen, hxy]

/-- A stretch without a cached length that is out of date is one of any file
that goes on behind it. -/
theorem Cached.of_snug {A' : List Link} {R : List Link}
    (h : Cached A S B l) (hs : Snug R l) (hS : S ⊆ R) : Cached A' S B l := by
  match S, l, h with
  | [], [], _ => trivial
  | x :: S, cb :: l', ⟨hf, hl'⟩ =>
    exact ⟨{ hf with
      eq := fun _ => hs cb mem_cons_self x (hS mem_cons_self) hf.entry }, hl'⟩

/-- The first block in the file of a cached stretch. -/
theorem seg_getLast? {x : Link} (S B : List Link) :
    ∃ cb, (seg (x :: S) B).getLast? = some cb ∧ cb.nbPrev = ptr B ∧
      cb.ncbFileOffset = chainSize B := by
  induction S generalizing x with
  | nil => exact ⟨cacheBlock x B, rfl, rfl, rfl⟩
  | cons y S ih =>
    obtain ⟨cb, h, h'⟩ := @ih y
    refine ⟨cb, ?_, h'⟩
    rw [seg, getLast?_cons, h]
    rfl

theorem Cached.getLast?
    (h : Cached A S B l) (hl : l ≠ []) : ∃ cb, l.getLast? = some cb ∧ cb.nbPrev = ptr B ∧
      cb.ncbFileOffset = chainSize B := by
  match S, l, h with
  | [], [], _ => exact absurd rfl hl
  | [x], cb :: l', ⟨hf, hl'⟩ =>
    subst hl'
    exact ⟨cb, rfl, hf.prev, hf.off⟩
  | x :: y :: S, cb :: l', ⟨hf, hl'⟩ =>
    subst hl'
    obtain ⟨cb', h1, h2⟩ := @seg_getLast? y S B
    refine ⟨cb', ?_, h2⟩
    rw [getLast?_cons, h1]
    rfl

/-- A stretch grows by the block before it. -/
theorem Cached.prepend {y : Link} (h : Cached A S (y :: B) l) (hy : 0 < Link.len y) :
    Cached A (S ++ [y]) B (l ++ [cacheBlock y B]) := by
  match S, l, h with
  | [], [], _ => exact ⟨fresh_cacheBlock hy, rfl⟩
  | x :: S, cb :: l', ⟨hf, hl'⟩ =>
    subst hl'
    refine ⟨?_, (seg_append S y B).symm⟩
    show Fresh A x ((S ++ [y]) ++ B) cb
    rw [append_assoc]
    exact hf

end Larva.Nffs
