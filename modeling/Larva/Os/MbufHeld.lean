import Larva.Os.MbufWhole

/-!
# No mbuf is lost

A caller holds chains by their first mbufs and hands them to the operations
one after the other. `MbufOp.run` is one call; what it returns replaces the
chain in the caller's list, and a chain that was freed leaves it. Whatever the
calls are and however they fail, each block of the pool is then on the free
list or in one of the chains that are held, once: every operation is a move
between the two (`Moves`), made beside the chains it does not touch.

One precondition is the caller's: `os_mbuf_get` does not compare the leading
space with the size of the buffers. With more of it than there is room for,
the trailing space is a negative number in sixteen bits, and the next append
copies its data behind the buffer.
-/

namespace Larva.Os.Mbufs

open Larva.Bytes Larva.Crash Larva.SList MbufM List

/-! ## Calls on held chains -/

/-- A call on the chains a caller holds, which are given by their place in
the caller's list. -/
inductive MbufOp where
  | get (leadingspace : Nat)
  | dup (i : Nat)
  | append (i : Nat) (data : List UInt8)
  | prepend (i len : Nat)
  | extend (i len : Nat)
  | adj (i : Nat) (len : Int)
  | concat (i j : Nat)
  | pullup (i len : Nat)
  | freeChain (i : Nat)

namespace MbufOp

/-- The list with the chain that came back in place `i`, if one did. -/
def putBack (held : List Nat) (i : Nat) : Option Nat → List Nat
  | none => held.eraseIdx i
  | some om => held.set i om

/-- One call, with mbufs from the pool `omp`. -/
def run (omp : Nat) (held : List Nat) : MbufOp → MbufM (List Nat)
  | get leadingspace => do
      match ← osMbufGet omp leadingspace with
      | none => pure held
      | some om => pure (held ++ [om])
  | dup i => match held[i]? with
      | none => pure held
      | some om => do
          match ← osMbufDup om with
          | none => pure held
          | some om => pure (held ++ [om])
  | append i data => match held[i]? with
      | none => pure held
      | some om => do
          let _ ← osMbufAppend (some om) data
          pure held
  | prepend i len => match held[i]? with
      | none => pure held
      | some om => do
          let om ← osMbufPrepend om len
          pure (putBack held i om)
  | extend i len => match held[i]? with
      | none => pure held
      | some om => do
          let _ ← osMbufExtend om len
          pure held
  | adj i len => match held[i]? with
      | none => pure held
      | some om => do
          osMbufAdj (some om) len
          pure held
  | concat i j => match held[i]?, held[j]? with
      | some first, some second => do
          osMbufConcat first second
          pure (held.eraseIdx j)
      | _, _ => pure held
  | pullup i len => match held[i]? with
      | none => pure held
      | some om => do
          let om ← osMbufPullup om len
          pure (putBack held i om)
  | freeChain i => match held[i]? with
      | none => pure held
      | some om => do
          let _ ← osMbufFreeChain (some om)
          pure (held.eraseIdx i)

def runAll (omp : Nat) : List MbufOp → List Nat → MbufM (List Nat)
  | [], held => pure held
  | op :: ops, held => do
      let held ← op.run omp held
      runAll omp ops held

/-- All chains are freed, one by one. -/
def freeHeld : List Nat → MbufM Unit
  | [] => pure ()
  | om :: held => do
      let _ ← osMbufFreeChain (some om)
      freeHeld held

/-- The leading space fits the buffers, and no chain is appended to itself. -/
def Fits (databufLen : Nat) : MbufOp → Prop
  | get leadingspace => leadingspace ≤ databufLen
  | concat i j => i ≠ j
  | _ => True

end MbufOp

/-- The mbufs of the chain at `om`. -/
def chainAt (s : MbufSt) (om : Nat) : List Nat :=
  toList (fun a => (s.mbuf a).omNext) s.numBlocks (some om)

theorem chainAt_eq {s : MbufSt} {a : Nat} {l : List Nat} (ho : Owned s l)
    (hc : Chain s (some a) l) : chainAt s a = l := by
  refine Linked.toList_eq hc ?_
  have := ho.length_le
  rw [length_append] at this
  omega

/-- By the state before the call, it stays inside the buffers: the leading
space fits the pool, the mbufs of a chain that is duplicated fit the buffers
of the first one's pool, and no chain is appended to itself. -/
def MbufOp.Safe (s : MbufSt) (omp : Nat) (held : List Nat) : MbufOp → Prop
  | get leadingspace => ∃ q, s.pools[omp]? = some q ∧ leadingspace ≤ q.ompDatabufLen
  | dup i => ∀ om q, held[i]? = some om → s.pools[(s.mbuf om).omOmp]? = some q →
      ∀ x ∈ chainAt s om, (s.mbuf x).CopyFits q.ompDatabufLen
  | concat i j => i ≠ j
  | _ => True

/-! ## Moves beside the other chains -/

/-- Heads with the chains they stand for. -/
abbrev Chains := List (Nat × List Nat)

def Chains.heads (w : Chains) : List Nat := w.map Prod.fst

def Chains.mbufs (w : Chains) : List Nat := w.flatMap Prod.snd

structure Held (s : MbufSt) (w : Chains) : Prop where
  chain : ∀ x ∈ w, Chain s (some x.1) x.2
  owned : Owned s w.mbufs

section Held

variable {s s' : MbufSt} {w w' u t v : Chains} {i j : Nat} {x y : Nat × List Nat}

theorem Held.perm (h : Held s w) (hp : w.Perm w') : Held s w' where
  chain := fun x hx => h.chain x (hp.mem_iff.mpr hx)
  owned := h.owned.perm (hp.flatMap_right _)

theorem Held.left (h : Held s (w ++ v)) : Held s w where
  chain := fun x hx => h.chain x (mem_append_left v hx)
  owned := (Owned.left (flatMap_append ▸ h.owned : Owned s (w.mbufs ++ v.mbufs)))

/-- What was held and what is held now, as a move. -/
structure Steps (s : MbufSt) (w : Chains) (s' : MbufSt) (w' : Chains) : Prop where
  moves : Moves s w.mbufs s' w'.mbufs
  held : Held s' w'

theorem Steps.trans {s1 : MbufSt} {w1 : Chains} (h : Steps s w s1 w1)
    (h' : Steps s1 w1 s' w') : Steps s w s' w' :=
  ⟨h.moves.trans h'.moves, h'.held⟩

/-- The chains `t` are new, and the mbufs of the others as they were. -/
structure Changes (s : MbufSt) (w : Chains) (s' : MbufSt) (w' t : Chains) : Prop
    extends Steps s w s' w' where
  same : ∀ x ∈ w', x ∈ t ∨ ∀ b ∈ x.2, s'.mbuf b = s.mbuf b

section

variable (h : Held s w)
include h

/-- The chains `u` become `t`, next to others that are as they were. -/
theorem Held.steps (hw : w.Perm (u ++ v)) (hm : Moves s u.mbufs s' t.mbufs)
    (hc : ∀ x ∈ t, Chain s' (some x.1) x.2) (hw' : (t ++ v).Perm w') : Changes s w s' w' t := by
  have hmb : w.mbufs.Perm (u.mbufs ++ v.mbufs) := by
    have := hw.flatMap_right Prod.snd
    rwa [flatMap_append] at this
  have hmb' : (t.mbufs ++ v.mbufs).Perm w'.mbufs := by
    have := hw'.flatMap_right Prod.snd
    rwa [flatMap_append] at this
  have ho := h.owned.perm hmb
  have hall := ((hm.beside ho).perm_left hmb.symm).perm_right hmb'
  have hsame : ∀ x ∈ v, ∀ b ∈ x.2, s'.mbuf b = s.mbuf b :=
    fun x hx b hb => hm.same ho (mem_flatMap.mpr ⟨x, hx, hb⟩)
  refine ⟨⟨hall, fun x hx => ?_, hall.owned⟩, fun x hx => ?_⟩
  · rcases mem_append.mp (hw'.mem_iff.mpr hx) with hx | hx
    · exact hc x hx
    · refine (h.chain x (hw.mem_iff.mpr (mem_append_right u hx))).congr fun a ha => ?_
      rw [hsame x hx a ha]
  · exact (mem_append.mp (hw'.mem_iff.mpr hx)).imp_right (hsame x)

/-- One chain changes in its place. -/
theorem Held.steps_set (hx : w[i]? = some x) (hm : Moves s x.2 s' y.2)
    (hc : Chain s' (some y.1) y.2) : Changes s w s' (w.set i y) [y] := by
  obtain ⟨hi, rfl⟩ := List.getElem?_eq_some_iff.mp hx
  refine h.steps (u := [w[i]])
    (getElem_cons_eraseIdx_perm hi).symm ?_ ?_ (set_perm_cons_eraseIdx hi y).symm
  · simpa [Chains.mbufs] using hm
  · simpa using hc

/-- One chain is freed. -/
theorem Held.steps_erase (hx : w[i]? = some x) (hm : Moves s x.2 s' []) :
    Changes s w s' (w.eraseIdx i) [] := by
  obtain ⟨hi, rfl⟩ := List.getElem?_eq_some_iff.mp hx
  refine h.steps (u := [w[i]]) (getElem_cons_eraseIdx_perm hi).symm ?_ (by simp) (.refl _)
  simpa [Chains.mbufs] using hm

/-- Mbufs were taken and given back. -/
theorem Held.steps_same (hm : Moves s [] s' []) : Changes s w s' w [] :=
  h.steps (u := []) (.refl _) hm (by simp) (.refl _)

/-- A new chain is held. -/
theorem Held.steps_add (hm : Moves s [] s' y.2) (hc : Chain s' (some y.1) y.2) :
    Changes s w s' (w ++ [y]) [y] := by
  refine h.steps (u := []) (.refl _) ?_ ?_ (perm_append_comm)
  · simpa [Chains.mbufs] using hm
  · simpa using hc

end

/-- Two chains, and the others. -/
theorem perm_pair (hij : i ≠ j) (hx : w[i]? = some x) (hy : w[j]? = some y) :
    ∃ v, (w.eraseIdx i).Perm (y :: v) ∧ w.Perm (x :: y :: v) := by
  obtain ⟨hi, rfl⟩ := List.getElem?_eq_some_iff.mp hx
  have hmem : y ∈ w.eraseIdx i :=
    mem_eraseIdx_iff_getElem?.mpr ⟨j, hij.symm, hy⟩
  obtain ⟨A, B, hAB⟩ := append_of_mem hmem
  have hrest : (w.eraseIdx i).Perm (y :: (A ++ B)) := by
    rw [hAB]
    exact perm_middle
  exact ⟨A ++ B, hrest, (getElem_cons_eraseIdx_perm hi).symm.trans (hrest.cons _)⟩

section

variable (h : Held s w) (hij : i ≠ j) (hx : w[i]? = some x) (hy : w[j]? = some y)
include h hij hx hy

theorem Held.pair_owned : Owned s (x.2 ++ y.2) := by
  obtain ⟨v, -, hp⟩ := perm_pair hij hx hy
  have ho := (h.perm hp).owned
  unfold Chains.mbufs at ho
  rw [flatMap_cons, flatMap_cons, ← append_assoc] at ho
  exact ho.left

/-- Two chains become one, in the place of the first. -/
theorem Held.steps_join {z : Nat × List Nat}
    (hm : Moves s (x.2 ++ y.2) s' z.2) (hc : Chain s' (some z.1) z.2) :
    Changes s w s' ((w.set i z).eraseIdx j) [z] := by
  obtain ⟨v, hrest, hp⟩ := perm_pair hij hx hy
  obtain ⟨hi, rfl⟩ := List.getElem?_eq_some_iff.mp hx
  have hset : (w.set i z).Perm (y :: z :: v) :=
    (set_perm_cons_eraseIdx hi z).trans ((hrest.cons z).trans (.swap ..))
  have hyj : (w.set i z)[j]? = some y := by
    rw [getElem?_set_ne hij]
    exact hy
  obtain ⟨hj, hyj⟩ := List.getElem?_eq_some_iff.mp hyj
  have herase := getElem_cons_eraseIdx_perm hj
  rw [hyj] at herase
  refine h.steps (u := [w[i], y]) hp ?_ ?_ (herase.trans hset).cons_inv.symm
  · simpa [Chains.mbufs] using hm
  · simpa using hc

end

theorem heads_getElem? {a : Nat} (hi : w.heads[i]? = some a) : ∃ l, w[i]? = some (a, l) := by
  unfold Chains.heads at hi
  rw [getElem?_map] at hi
  obtain ⟨y, hy, hyx⟩ := Option.map_eq_some_iff.mp hi
  exact ⟨y.2, by rw [hy, ← hyx]⟩

theorem heads_set : Chains.heads (w.set i y) = w.heads.set i y.1 :=
  map_set

theorem heads_eraseIdx :
    Chains.heads (w.eraseIdx i) = w.heads.eraseIdx i :=
  (eraseIdx_map ..).symm

end Held

/-! ## Runs -/

section Runs

variable {s s' : MbufSt} {w : Chains} {len i a : Nat} {blocks l l' : List Nat}

/-- A state with one pool. -/
def OnePool (s : MbufSt) (len : Nat) (blocks : List Nat) : Prop :=
  shape s = [(len, blocks)]

theorem OnePool.exists (h : OnePool s len blocks) :
    ∃ q, s.pools = [q] ∧ q.ompDatabufLen = len ∧ q.mpBlocks = blocks := by
  obtain ⟨q, hq, he⟩ := map_eq_singleton_iff.mp h
  exact ⟨q, hq, congrArg Prod.fst he, congrArg Prod.snd he⟩

theorem OnePool.omOmp (h : OnePool s len blocks) (ho : Owned s l) (ha : a ∈ l) :
    (s.mbuf a).omOmp = 0 := by
  obtain ⟨q, hq, -⟩ := h.exists
  obtain ⟨q', hq', -⟩ := ho.homed a ha
  rw [hq] at hq'
  have := (List.getElem?_eq_some_iff.mp hq').1
  rw [length_singleton] at this
  omega

theorem Held.mem_owned {x : Nat × List Nat} (h : Held s w) (hx : x ∈ w) : Owned s x.2 := by
  obtain ⟨A, B, rfl⟩ := append_of_mem hx
  have hp : (A ++ x :: B).Perm (x :: (A ++ B)) := perm_middle
  have ho := (h.perm hp).owned
  exact ho.left

/-- A call on one chain. -/
theorem wp_onHeld {α : Type} {Q : Post MbufSt Empty α}
    {k : Nat → MbufM α} {none' : MbufM α} (h : Held s w) (hnone : Wp none' Q s)
    (hk : ∀ a l, w[i]? = some (a, l) → w.heads[i]? = some a →
      Owned s l → Chain s (some a) l → Wp (k a) Q s) :
    Wp (match w.heads[i]? with
      | none => none'
      | some a => k a) Q s := by
  cases hi : w.heads[i]? with
  | none => exact hnone
  | some a =>
    obtain ⟨l, hl⟩ := heads_getElem? hi
    have hmem := mem_of_getElem? hl
    exact hk a l hl hi (h.mem_owned hmem) (h.chain _ hmem)

theorem heads_set_self (h : w[i]? = some (a, l)) : Chains.heads (w.set i (a, l')) = w.heads := by
  have hi : w.heads[i]? = some a := by
    unfold Chains.heads
    rw [getElem?_map, h]
    rfl
  obtain ⟨hlt, hget⟩ := List.getElem?_eq_some_iff.mp hi
  rw [heads_set]
  rw [← hget, set_getElem_self]

/-- One chain changes and keeps its head. -/
theorem Held.set_self (h : Held s w) (hi : w[i]? = some (a, l)) (hm : Moves s l s' l')
    (hc : Chain s' (some a) l') :
    ∃ w', w'.heads = w.heads ∧ Steps s w s' w' :=
  ⟨_, heads_set_self hi, (h.steps_set hi hm hc).toSteps⟩

/-- What becomes of a chain that a call returns, or has freed. -/
theorem Held.putBack {r : Option Nat} (h : Held s w) (hi : w[i]? = some (a, l)) (hr : match r with
      | none => Moves s l s' []
      | some b => ∃ l', Moves s l s' l' ∧ Chain s' (some b) l') :
    ∃ w', w'.heads = MbufOp.putBack w.heads i r ∧ Steps s w s' w' := by
  cases r with
  | none => exact ⟨w.eraseIdx i, heads_eraseIdx, (h.steps_erase hi hr).toSteps⟩
  | some b =>
    obtain ⟨l', hm, hc⟩ := hr
    exact ⟨w.set i (b, l'), heads_set, (h.steps_set hi hm hc).toSteps⟩

/-- With one pool, a chain can always be duplicated. -/
theorem MbufOp.Fits.safe {op : MbufOp} (hfit : op.Fits len) (h : Held s w)
    (h1 : OnePool s len blocks) : op.Safe s 0 w.heads := by
  obtain ⟨q, hq, hlen, -⟩ := h1.exists
  cases op with
  | get leadingspace => exact ⟨q, by rw [hq]; rfl, by rw [hlen]; exact hfit⟩
  | dup i =>
    intro om q' hi hq' x hx
    obtain ⟨l, hl⟩ := heads_getElem? hi
    have ho := h.mem_owned (mem_of_getElem? hl)
    have hc := h.chain _ (mem_of_getElem? hl)
    rw [chainAt_eq ho hc] at hx
    rw [h1.omOmp ho hc.head_mem, ← h1.omOmp ho hx] at hq'
    exact ho.copyFits hx hq'
  | concat i j => exact hfit
  | _ => exact trivial

/-- Every call completes, and moves mbufs between the free lists and the
chains that are held. -/
theorem wp_run {omp : Nat} (op : MbufOp) (h : Held s w) (hsafe : op.Safe s omp w.heads) :
    Wp (op.run omp w.heads) (.total fun held s' => ∃ w', w'.heads = held ∧ Steps s w s' w') s := by
  have hsame : Wp (pure w.heads : MbufM (List Nat)) (.total fun held s' =>
      ∃ w', w'.heads = held ∧ Steps s w s' w') s :=
    Wp.pure ⟨w, rfl, .refl h.owned, h⟩
  cases op with
  | get leadingspace =>
    obtain ⟨q, hq, hlead⟩ := hsafe
    refine .bind_total (wp_osMbufGet (h.owned.left (l := [])) hq hlead) fun r s1 h1 => ?_
    cases r with
    | none =>
      obtain ⟨rfl, -⟩ := h1
      exact hsame
    | some a =>
      have ht : Taken s [] omp leadingspace a s1 := h1
      have hc : Chain s1 (some a) [a] := by
        refine ⟨rfl, ?_⟩
        show (s1.mbuf a).omNext = none
        rw [ht.self]
        rfl
      exact .pure ⟨w ++ [(a, [a])], map_append, (h.steps_add ht.moves hc).toSteps⟩
  | dup i =>
    refine wp_onHeld h hsame fun a l _ hi ho hc => ?_
    obtain ⟨q, hq, -⟩ := ho.homed a hc.head_mem
    have hfits := hsafe a q hi hq
    rw [chainAt_eq ho hc] at hfits
    refine .bind_total (wp_osMbufDup ho hc hq hfits) fun r s1 h1 => ?_
    cases r with
    | none =>
      exact .pure ⟨w, rfl, (h.steps_same h1.2).toSteps⟩
    | some b =>
      obtain ⟨-, c, -, hm, hcc, -⟩ := h1
      exact .pure ⟨w ++ [(b, c)], map_append, (h.steps_add hm hcc).toSteps⟩
  | append i data =>
    refine wp_onHeld h hsame fun a l hi _ ho hc => ?_
    obtain ⟨l0, z, rfl⟩ := hc.exists_last
    refine .bind_total (wp_osMbufAppend ho hc) fun _ s1 h1 => ?_
    obtain ⟨n, l', -, -, hb⟩ := h1
    exact .pure (h.set_self hi hb.moves hb.chain)
  | prepend i n =>
    refine wp_onHeld h hsame fun a l hi _ ho hc => ?_
    refine .bind_total (wp_osMbufPrepend ho hc) fun r s1 h1 =>
      Wp.pure (h.putBack hi ?_)
    cases r with
    | none => exact h1
    | some b =>
      obtain ⟨l', bs, -, hb⟩ := h1
      exact ⟨_, hb.moves, hb.chain⟩
  | extend i n =>
    refine wp_onHeld h hsame fun a l hi _ ho hc => ?_
    refine .bind_total (wp_osMbufExtend ho hc) fun _ s1 h1 => ?_
    rcases h1 with ⟨-, rfl⟩ | ⟨-, l', bs, -, hb⟩
    · exact hsame
    · exact .pure (h.set_self hi hb.moves hb.chain)
  | adj i k =>
    refine wp_onHeld h hsame fun a l hi _ ho hc => ?_
    refine .bind_total (wp_osMbufAdj ho hc) fun _ s1 h1 => ?_
    obtain ⟨l', x, -, hb, -⟩ := h1
    exact .pure (h.set_self hi hb.moves hb.chain)
  | concat i j =>
    have hij : i ≠ j := hsafe
    rw [MbufOp.run]
    split
    · next a b hi hj =>
      obtain ⟨l, hl⟩ := heads_getElem? hi
      obtain ⟨r, hr⟩ := heads_getElem? hj
      refine .bind_total (wp_osMbufConcat (h.pair_owned hij hl hr) (h.chain _ (mem_of_getElem? hl))
        (h.chain _ (mem_of_getElem? hr))) fun _ s1 hb => ?_
      refine .pure ⟨_, ?_, (h.steps_join (z := (a, _)) hij hl hr hb.moves hb.chain).toSteps⟩
      rw [heads_eraseIdx, heads_set_self hl]
    · exact hsame
  | pullup i n =>
    refine wp_onHeld h hsame fun a l hi _ ho hc => ?_
    obtain ⟨q, hq, -⟩ := ho.homed a hc.head_mem
    refine .bind_total (wp_osMbufPullup ho hc hq) fun r s1 h1 =>
      Wp.pure (h.putBack hi ?_)
    cases r with
    | none => exact h1.1
    | some b =>
      obtain ⟨l', hp, -⟩ := h1
      exact ⟨l', hp.moves, hp.chain⟩
  | freeChain i =>
    refine wp_onHeld h hsame fun a l hi _ ho hc => ?_
    refine .bind_total (wp_osMbufFreeChain ho hc) fun _ s1 h1 => ?_
    exact .pure ⟨_, heads_eraseIdx, (h.steps_erase hi h1.2.2).toSteps⟩

theorem wp_runAll (ops : List MbufOp) (h : Held s w)
    (h1 : OnePool s len blocks) (hfit : ∀ op ∈ ops, op.Fits len) :
    Wp (MbufOp.runAll 0 ops w.heads) (.total fun held s' => ∃ w',
      w'.heads = held ∧ Steps s w s' w') s := by
  induction ops generalizing s w with
  | nil => exact .pure ⟨w, rfl, .refl h.owned, h⟩
  | cons op ops ih =>
    refine .bind_total (wp_run op h ((hfit op mem_cons_self).safe h h1)) fun held s1 h₁ => ?_
    obtain ⟨w1, rfl, hs⟩ := h₁
    refine (ih hs.held (hs.moves.shape.trans h1) fun op hop =>
      hfit op (mem_cons_of_mem _ hop)).mono_ok fun held s' h' => ?_
    obtain ⟨w', hw', hs'⟩ := h'
    exact ⟨w', hw', hs.trans hs'⟩

theorem wp_freeHeld (h : Held s w) : Wp (MbufOp.freeHeld w.heads)
      (.total fun _ s' => Moves s w.mbufs s' []) s := by
  induction w generalizing s with
  | nil => exact .pure (.refl h.owned)
  | cons x w ih =>
    have hx : (x :: w)[0]? = some x := rfl
    refine .bind_total (wp_osMbufFreeChain (h.mem_owned mem_cons_self)
      (h.chain x mem_cons_self)) fun _ s1 h1 => ?_
    have hs : Steps s (x :: w) s1 w := (h.steps_erase hx h1.2.2).toSteps
    exact (ih hs.held).mono_ok fun _ s' h' => hs.moves.trans h'

/-- The pool as `os_mbuf_pool_init` leaves it: all blocks are free. -/
structure AllFree (s : MbufSt) (q : MbufPool) : Prop where
  pools : s.pools = [q]
  small : q.ompDatabufLen < 2 ^ 16
  free : q.mpFree.Perm q.mpBlocks
  nodup : q.mpBlocks.Nodup
  num : q.mpNumFree = q.mpBlocks.length
  databuf : ∀ a ∈ q.mpBlocks, (s.mbuf a).omDatabuf.length = q.ompDatabufLen

variable {q : MbufPool}

theorem AllFree.held (h : AllFree s q) : Held s [] := by
  refine ⟨by simp, ⟨⟨?_, ?_, ?_⟩, ?_, by simp [Chains.mbufs], by simp [Chains.mbufs]⟩⟩
  · intro p hp
    rw [h.pools, mem_singleton] at hp
    rw [hp, h.num, h.free.length_eq]
  · intro p hp
    rw [h.pools, mem_singleton] at hp
    rw [hp]
    exact h.small
  · intro p hp a ha
    rw [h.pools, mem_singleton] at hp
    subst hp
    have hmem := h.free.mem_iff.mp ha
    exact ⟨hmem, h.databuf a hmem⟩
  · have hf : freeIds s = q.mpFree := by
      unfold freeIds
      rw [h.pools, flatMap_singleton]
    rw [hf]
    simpa [Chains.mbufs] using h.free.nodup_iff.mpr h.nodup

/-- The pool's counter of free blocks. -/
def freeCount (s : MbufSt) : Nat := (s.pools.map (·.mpNumFree)).sum

theorem freeCount_eq (h : Pools s) : freeCount s = (freeIds s).length := by
  unfold freeCount freeIds
  rw [length_flatMap]
  congr 1
  exact map_congr_left fun p hp => h.num p hp

/-- Each block is free or in one of the chains at `held`, once. -/
def Conserved (blocks : List Nat) (s : MbufSt) (held : List Nat) : Prop :=
  ∃ w : Chains, w.heads = held ∧ (∀ x ∈ w, Chain s (some x.1) x.2) ∧
    (freeIds s ++ w.mbufs).Perm blocks

/-- Whatever is called, and whether it succeeds or fails, no mbuf is lost and
none is in two places: freeing what is held fills the pool again. -/
theorem mbufs_conserved (h : AllFree s q) (ops : List MbufOp)
    (hfit : ∀ op ∈ ops, op.Fits q.ompDatabufLen) :
    ∃ held s', MbufOp.runAll 0 ops [] s none = .ok held s' none ∧ Conserved q.mpBlocks s' held ∧
      freeCount s' = (freeIds s').length ∧ ∃ s'', MbufOp.freeHeld held s' none = .ok () s'' none ∧
        freeCount s'' = q.mpNumFree := by
  have h1 : OnePool s q.ompDatabufLen q.mpBlocks := by
    unfold OnePool shape
    rw [h.pools]
    rfl
  have hfree : freeIds s = q.mpFree := by
    unfold freeIds
    rw [h.pools, flatMap_singleton]
  obtain ⟨held, s', hrun, w, rfl, hs⟩ :=
    (wp_runAll ops h.held h1 hfit).run_total
  obtain ⟨_, s'', hrun', hm⟩ := (wp_freeHeld hs.held).run_total
  have hperm : (freeIds s' ++ w.mbufs).Perm q.mpBlocks := by
    have hp := hs.moves.perm
    rw [hfree] at hp
    exact hp.trans (by simpa [Chains.mbufs] using h.free)
  refine ⟨w.heads, s', hrun, ⟨w, rfl, hs.held.chain, hperm⟩,
    freeCount_eq hs.held.owned.pools, s'', hrun', ?_⟩
  have hlast := (hm.perm.trans hperm).length_eq
  rw [append_nil] at hlast
  rw [freeCount_eq hm.owned.pools, hlast, h.num]

/-- A pool of three mbufs with four bytes each. -/
def threeMbufs : MbufSt where
  pools := [⟨4, [0, 1, 2], 3, [0, 1, 2]⟩]
  mbuf := fun _ => ⟨0, 0, 0, 0, 0, none, [0, 0, 0, 0]⟩

/-- The append takes a second mbuf, the copy finds one of two that it needs,
and the third mbuf is back on the free list. -/
theorem mbufs_conserved_dup_fails : AllFree threeMbufs ⟨4, [0, 1, 2], 3, [0, 1, 2]⟩ ∧
      ∃ held s', MbufOp.runAll 0 [.get 2, .append 0 [1, 2, 3, 4], .dup 0] []
          threeMbufs none = .ok held s' none ∧ Conserved [0, 1, 2] s' held ∧
        freeCount s' = (freeIds s').length ∧ ∃ s'', MbufOp.freeHeld held s' none = .ok () s'' none ∧
          freeCount s'' = 3 := by
  have h : AllFree threeMbufs ⟨4, [0, 1, 2], 3, [0, 1, 2]⟩ :=
    ⟨rfl, by decide, .refl _, by decide, rfl, fun _ _ => rfl⟩
  refine ⟨h, mbufs_conserved h [.get 2, .append 0 [1, 2, 3, 4], .dup 0] ?_⟩
  simp [MbufOp.Fits]

/-- With five bytes of leading space in buffers of four, the trailing space
is 65535 and the append copies to behind the buffer. -/
theorem append_leaves_buffer : AllFree threeMbufs ⟨4, [0, 1, 2], 3, [0, 1, 2]⟩ ∧
      MbufOp.runAll 0 [.get 5, .append 0 [1]] [] threeMbufs none = .abort :=
  ⟨⟨rfl, by decide, .refl _, by decide, rfl, fun _ _ => rfl⟩, rfl⟩

end Runs

end Larva.Os.Mbufs
