import Larva.Ble.Fsm
import Mathlib.Data.Fintype.Card

/-!
# The procedure lists stay intact

A list of procedures is, to its users, a sequence. `Abs` is that: the
sequences, with what each operation does to them and nothing about links. The
lists of `ble_fsm.c` follow it step by step as long as one record is right
where it is used, the main list's address of its end.

That record goes wrong in `ble_fsm_proc_remove`. An element behind another is
unlinked by one assignment, and if it was the last one the address of the end
is left pointing into it. Nothing shows as long as nothing is added. The next
procedure that is added at the tail is then linked to the one that was taken
out, and cannot be reached from the head. So the condition under which the
lists stay intact is that nothing is added at the tail while the address is
wrong, and it is needed at those steps only.
-/

namespace Larva.Ble.Fsm

open Larva.Crash STailQ Function List

variable {n : Nat}

/-! ## One function at a time -/

section Functions

variable {s : St n} {c : ListKey → List (Fin n)} {k : ListKey} {A B : List (Fin n)} {proc : Fin n}

/-- Two states with the same queues but for one, whose address of the end may
have changed. -/
structure SameBut (k : ListKey) (s s' : St n) : Prop where
  flags : s'.flags = s.flags
  freed : s'.freed = s.freed
  last : ∀ k', k' ≠ k → s'.q.last k' = s.q.last k'

theorem wp_bleFsmProcRemove (h : Lists s.q c) (hl : c k = A ++ proc :: B)
    {Q : Post (St n) Empty Unit} (hQ : ∀ s', Lists s'.q (update c k (A ++ B)) → SameBut k s s' →
      s'.q.last k = (if A = [] ∧ B = [] then .head k else s.q.last k) → Q.ok () s') :
    Wp (bleFsmProcRemove k proc A.getLast?) Q s := by
  refine .get_bind ?_
  obtain rfl | ⟨A', p, rfl⟩ : A = [] ∨ ∃ A' p, A = A' ++ [p] := by
    simpa using eq_nil_or_concat A
  · have hfirst : s.q.first k = some proc := by
      rw [h.first_eq, hl]
      rfl
    refine .bind (.assert (by simp [hfirst]) (.modify ?_))
    refine hQ _ (h.removeHead hl) ⟨rfl, rfl, fun k' hk => ?_⟩ ?_
    · simp only [STailQ.removeHead]
      split
      · rw [update_of_ne hk]
      · rfl
    · have hnext : s.q.next proc = B.head? := h.next_eq hl
      cases B <;> simp [STailQ.removeHead, hnext]
  · have hl' : c k = A' ++ p :: proc :: B := by
      rw [hl]
      simp
    have hnext : s.q.next p = some proc := h.next_eq hl'
    simp only [getLast?_append, getLast?_singleton, Option.some_or]
    refine .bind (.assert (by simp [hnext]) (.modify ?_))
    have hL := h.unlinkAfter hl'
    rw [show A' ++ p :: B = A' ++ [p] ++ B by simp] at hL
    exact hQ _ hL ⟨rfl, rfl, fun _ _ => rfl⟩ (by simp [STailQ.unlinkAfter])

/-- What is moved and what is kept, going through a list with an extract
callback, and the flags it leaves. -/
def scan (cb : ExtractFn n) : List (Fin n) → (Fin n → ProcFlags) →
    List (Fin n) × List (Fin n) × (Fin n → ProcFlags)
  | [], fl => ([], [], fl)
  | p :: l, fl =>
    let r := cb p (fl p)
    let fl' := update fl p r.2
    match r.1 with
    | .moveContinue =>
      let t := scan cb l fl'
      (t.1, p :: t.2.1, t.2.2)
    | .moveStop => (l, [p], fl')
    | .keepContinue =>
      let t := scan cb l fl'
      (p :: t.1, t.2.1, t.2.2)
    | .keepStop => (p :: l, [], fl')
    | .other => (p :: l, [], fl')

/-- What going through a list with a callback that takes one out leaves. -/
def pick (cb : ExtractFn n) : List (Fin n) → (Fin n → ProcFlags) →
    List (Fin n) × Option (Fin n) × (Fin n → ProcFlags)
  | [], fl => ([], none, fl)
  | p :: l, fl =>
    let r := cb p (fl p)
    let fl' := update fl p r.2
    match r.1 with
    | .moveContinue | .moveStop => (l, some p, fl')
    | .keepContinue =>
      let t := pick cb l fl'
      (p :: t.1, t.2.1, t.2.2)
    | .keepStop | .other => (p :: l, none, fl')

/-- The state after a callback has answered for a procedure. -/
def St.answered (s : St n) (cb : ExtractFn n) (p : Fin n) : St n :=
  { s with flags := update s.flags p (cb p (s.flags p)).2 }

theorem wp_bleFsmProcExtractLoop (cb : ExtractFn n) :
    ∀ (rest : List (Fin n)) (fuel : Nat) (A : List (Fin n)) (s : St n),
      rest.length < fuel → Lists s.q c → c .procs = A ++ rest →
      Wp (bleFsmProcExtractLoop cb fuel A.getLast? rest.head?)
        (.orAborts fun r s' => r = (pick cb rest s.flags).2.1 ∧ Lists s'.q (update c .procs
            (A ++ (pick cb rest s.flags).1)) ∧
          s'.flags = (pick cb rest s.flags).2.2 ∧ s'.freed = s.freed) s := by
  intro rest
  induction rest with
  | nil =>
    intro fuel A s hf h hl
    obtain _ | f := fuel
    · simp at hf
    refine .pure ⟨rfl, ?_, rfl, rfl⟩
    simp only [pick]
    rw [← hl, update_eq_self]
    exact h
  | cons p l ih =>
    intro fuel A s hf h hl
    obtain _ | f := fuel
    · omega
    simp only [length_cons] at hf
    simp only [head?_cons, bleFsmProcExtractLoop, pick]
    refine .get_bind (.modify_bind ?_)
    have hkept : Lists s.q (update c .procs (A ++ p :: l)) := by
      rw [← hl, update_eq_self]
      exact h
    have h1 : Lists (s.answered cb p).q c := h
    cases hr : (cb p (s.flags p)).1 with
    | moveContinue =>
      refine .bind (wp_bleFsmProcRemove h1 hl fun s' hL hS _ => ?_)
      exact .pure ⟨rfl, hL, hS.flags, hS.freed⟩
    | moveStop =>
      refine .bind (wp_bleFsmProcRemove h1 hl fun s' hL hS _ => ?_)
      exact .pure ⟨rfl, hL, hS.flags, hS.freed⟩
    | keepContinue =>
      have hl' : c .procs = (A ++ [p]) ++ l := by
        rw [hl]
        simp
      have hrec := ih f (A ++ [p]) (s.answered cb p) (by omega) h hl'
      rw [h.next_eq hl]
      simpa [St.answered] using hrec
    | keepStop => exact .pure ⟨rfl, hkept, rfl, rfl⟩
    | other => exact .abort trivial

/-- A loop keeps every list but two, and the main list's address of its end
is no concern of it. -/
structure Moved (k : ListKey) (K D : List (Fin n)) (c c' : ListKey → List (Fin n)) : Prop where
  procs : c' .procs = K
  dst : c' k = D
  other : ∀ k', k' ≠ .procs → k' ≠ k → c' k' = c k'

/-- Once it is out of the main list the procedure is in none, and goes to the
end of another. -/
theorem Lists.moveTail {s1 : St n} (h : Lists s.q c) (hs : Sound s.q c k) (hk : k ≠ .procs)
    (hl : c .procs = A ++ proc :: B) (hL : Lists s1.q (update c .procs (A ++ B)))
    (hS : SameBut .procs s s1) : ∃ c1, Lists (s1.q.insertTail k proc) c1 ∧
      Sound (s1.q.insertTail k proc) c1 k ∧ Moved k (A ++ B) (c k ++ [proc]) c c1 := by
  have hnew : ∀ k', proc ∉ update c .procs (A ++ B) k' := by
    intro k'
    have hn := h.nodup .procs
    rw [hl] at hn
    by_cases hk' : k' = .procs
    · rw [hk', update_self]
      exact (nodup_cons.mp (nodup_middle.mp hn)).1
    · rw [update_of_ne hk']
      exact h.notMem (by rw [hl]; simp) hk'
  have hs1 : Sound s1.q (update c .procs (A ++ B)) k := by
    rw [Sound, hS.last k hk, update_of_ne hk]
    exact hs
  refine ⟨_, hL.insertTail hs1 hnew, sound_insertTail, ?_, ?_, ?_⟩
  · rw [update_of_ne (Ne.symm hk), update_self]
  · rw [update_self, update_of_ne hk]
  · intro k' hp hk'
    rw [update_of_ne hk', update_of_ne hp]

theorem wp_moveLoop (cb : ExtractFn n) (hk : k ≠ .procs) :
    ∀ (rest : List (Fin n)) (fuel : Nat) (A : List (Fin n)) (cnt : Nat)
      (c : ListKey → List (Fin n)) (s : St n), rest.length < fuel → Lists s.q c → Sound s.q c k →
      c .procs = A ++ rest → Wp (moveLoop k cb fuel A.getLast? rest.head? cnt)
        (.orAborts fun r s' =>
          r = cnt + (scan cb rest s.flags).2.1.length ∧
          (∃ c', Lists s'.q c' ∧ Moved k (A ++ (scan cb rest s.flags).1)
            (c k ++ (scan cb rest s.flags).2.1) c c') ∧
          s'.flags = (scan cb rest s.flags).2.2 ∧ s'.freed = s.freed) s := by
  intro rest
  induction rest with
  | nil =>
    intro fuel A cnt c s hf h _ hl
    obtain _ | f := fuel
    · simp at hf
    refine .pure ⟨rfl, ⟨c, h, hl, ?_, fun _ _ _ => rfl⟩, rfl, rfl⟩
    simp [scan]
  | cons p l ih =>
    intro fuel A cnt c s hf h hs hl
    obtain _ | f := fuel
    · omega
    simp only [length_cons] at hf
    simp only [head?_cons, moveLoop, scan]
    refine .get_bind (.modify_bind ?_)
    have hnext : s.q.next p = l.head? := h.next_eq hl
    have h1 : Lists (s.answered cb p).q c := h
    cases hr : (cb p (s.flags p)).1 with
    | moveContinue =>
      refine .bind (wp_bleFsmProcRemove h1 hl fun s1 hL hS _ => ?_)
      obtain ⟨c1, hL1, hs1, hM⟩ := Lists.moveTail h1 hs hk hl hL hS
      refine .modify_bind ?_
      have hrec := ih f A (cnt + 1) c1 { s1 with
        q := s1.q.insertTail k p } (by omega) hL1 hs1 hM.procs
      rw [hnext]
      refine hrec.mono_ok ?_
      intro r s' hpost
      obtain ⟨hcnt, ⟨c', hL', hM'⟩, hfl, hfr⟩ := hpost
      simp only [hS.flags, St.answered] at hcnt hM' hfl
      refine ⟨?_, ⟨c', hL', hM'.procs, ?_, ?_⟩, hfl, hfr.trans hS.freed⟩
      · simp only [length_cons]
        omega
      · rw [hM'.dst, hM.dst]
        simp
      · intro k' hp hk'
        rw [hM'.other k' hp hk', hM.other k' hp hk']
    | moveStop =>
      refine .bind (wp_bleFsmProcRemove h1 hl fun s1 hL hS _ => ?_)
      obtain ⟨c1, hL1, -, hM⟩ := Lists.moveTail h1 hs hk hl hL hS
      refine .modify_bind (.pure ?_)
      exact ⟨rfl, ⟨c1, hL1, hM⟩, hS.flags, hS.freed⟩
    | keepContinue =>
      have hl' : c .procs = (A ++ [p]) ++ l := by
        rw [hl]
        simp
      have hrec := ih f (A ++ [p]) cnt c (s.answered cb p) (by omega) h hs hl'
      rw [hnext]
      simpa [St.answered] using hrec
    | keepStop =>
      refine .pure ⟨rfl, ⟨c, h, hl, ?_, fun _ _ _ => rfl⟩, rfl, rfl⟩
      simp
    | other => exact .abort trivial

/-- A list of procedures is no longer than the pool. -/
theorem length_lt_fuel (h : Lists s.q c) (k : ListKey) : (c k).length < n + 1 := by
  have hlen := (h.nodup k).length_le_card
  rw [Fintype.card_fin] at hlen
  omega

theorem wp_bleFsmProcExtract (cb : ExtractFn n) (h : Lists s.q c) :
    Wp (bleFsmProcExtract cb) (.orAborts fun r s' =>
      r = (pick cb (c .procs) s.flags).2.1 ∧
      Lists s'.q (update c .procs (pick cb (c .procs) s.flags).1) ∧
      s'.flags = (pick cb (c .procs) s.flags).2.2 ∧ s'.freed = s.freed) s := by
  refine .get_bind ?_
  rw [h.first_eq]
  exact wp_bleFsmProcExtractLoop cb (c .procs) (n + 1) [] s (length_lt_fuel h .procs) h rfl

theorem wp_bleFsmProcExtractList (cb : ExtractFn n) (hk : k ≠ .procs) (h : Lists s.q c) :
    Wp (bleFsmProcExtractList k cb) (.orAborts fun r s' =>
      r = (scan cb (c .procs) s.flags).2.1.length ∧
      (∃ c', Lists s'.q c' ∧ Moved k (scan cb (c .procs) s.flags).1
        (scan cb (c .procs) s.flags).2.1 c c') ∧
      s'.flags = (scan cb (c .procs) s.flags).2.2 ∧
      s'.freed = s.freed) s := by
  have hprocs : update c k [] .procs = c .procs :=
    update_of_ne (Ne.symm hk) _ _
  have h1 : Lists (s.q.initAt k) (update c k []) := h.initAt
  refine .modify_bind (.get_bind ?_)
  rw [h1.first_eq, hprocs]
  refine (wp_moveLoop cb hk (c .procs) (n + 1) [] 0 _
    { s with q := s.q.initAt k } (length_lt_fuel h .procs) h1 sound_initAt
    hprocs).mono_ok ?_
  intro r s' ⟨hr, ⟨c', hL, hM⟩, hfl, hfr⟩
  refine ⟨by simpa using hr, ⟨c', hL, hM.procs, ?_, ?_⟩, hfl, hfr⟩
  · rw [hM.dst, update_self]
    rfl
  · intro k' hp hk'
    rw [hM.other k' hp hk', update_of_ne hk']

/-- What the transmits of a list leave of it. -/
def kept (kickCb : Fin n → KickRc) (l : List (Fin n)) : List (Fin n) :=
  l.filter fun p => kickCb p ≠ .edone

theorem wp_kickLoop (kickCb : Fin n → KickRc) :
    ∀ (rest : List (Fin n)) (fuel : Nat) (A : List (Fin n)) (c : ListKey → List (Fin n)) (s : St n),
      rest.length < fuel → Lists s.q c → c k = A ++ rest →
      Wp (kickLoop k kickCb fuel A.getLast? rest.head?) (.orAborts fun _ s' =>
          Lists s'.q (update c k (A ++ kept kickCb rest)) ∧
          s'.freed = s.freed ++ rest.filter (fun p => kickCb p = .edone) ∧
          ∀ k', k' ≠ k → s'.q.last k' = s.q.last k') s := by
  intro rest
  induction rest with
  | nil =>
    intro fuel A c s hf h hl
    obtain _ | f := fuel
    · simp at hf
    refine .pure ⟨?_, by simp, fun _ _ => rfl⟩
    rw [kept, filter_nil, ← hl, update_eq_self]
    exact h
  | cons p l ih =>
    intro fuel A c s hf h hl
    obtain _ | f := fuel
    · omega
    simp only [length_cons] at hf
    have hnext : s.q.next p = l.head? := h.next_eq hl
    have hl' : c k = (A ++ [p]) ++ l := by
      rw [hl]
      simp
    refine .get_bind ?_
    rw [hnext]
    cases hr : kickCb p with
    | ok =>
      refine .bind (.get_bind ?_)
      by_cases he : (s.flags p).expecting = true
      · refine .bind ?_
        rw [he]
        exact .abort trivial
      · refine .bind (.assert (by simpa using he) (.modify ?_))
        have hrec := ih f (A ++ [p]) c { s with
          flags := update s.flags p { s.flags p with
            pending := false, expecting := true } } (by omega) h hl'
        simpa [kept, hr] using hrec
    | eagain =>
      refine .modify_bind ?_
      have hrec := ih f (A ++ [p]) c { s with
        flags := update s.flags p { s.flags p with
          pending := false } } (by omega) h hl'
      simpa [kept, hr] using hrec
    | edone =>
      refine .bind (wp_bleFsmProcRemove h hl fun s1 hL hS _ => ?_)
      refine .modify_bind ?_
      have hrec := ih f A _ { s1 with freed := s1.freed ++ [p] } (by omega) hL (update_self _ _ _)
      refine hrec.mono_ok ?_
      intro _ s' ⟨hL', hfr, hlast⟩
      refine ⟨by simpa [kept, hr] using hL', ?_, ?_⟩
      · rw [hfr]
        simp [hr, hS.freed]
      · intro k' hk'
        exact (hlast k' hk').trans (hS.last k' hk')
    | other => exact .abort trivial

theorem wp_kickPending (kickCb : Fin n → KickRc) (h : Lists s.q c) :
    Wp (kickPending k kickCb) (.orAborts fun _ s' =>
      Lists s'.q (update c k (kept kickCb (c k))) ∧
      s'.freed = s.freed ++ (c k).filter (fun p => kickCb p = .edone) ∧
      ∀ k', k' ≠ k → s'.q.last k' = s.q.last k') s := by
  refine .get_bind ?_
  rw [h.first_eq]
  exact wp_kickLoop kickCb (c k) (n + 1) [] c s (length_lt_fuel h k) h rfl

/-- The function that had a list on its stack is done with it. -/
def leave (k : ListKey) : FsmM n Unit := onQueues (STailQ.initAt k)

theorem wp_leave {Q : Post (St n) Empty Unit}
    (hQ : Q.ok () { s with q := s.q.initAt k }) : Wp (leave k) Q s :=
  Wp.modify hQ

/-- The main list takes over another one, whose head is then given up. -/
theorem Lists.joined (h : Lists s.q c) (hk : k ≠ .procs) {q' : STailQ ListKey (Fin n)}
    (hl : SList.Linked q'.next (q'.first .procs) (c .procs ++ c k))
    (hfirst : ∀ k', k' ≠ .procs → q'.first k' = s.q.first k')
    (hnext : ∀ b, b ∉ c .procs → q'.next b = s.q.next b) : Lists (q'.initAt k)
      (update (update c .procs (c .procs ++ c k)) k []) := by
  constructor
  · intro k'
    by_cases hk' : k' = k
    · subst hk'
      simp [STailQ.initAt, SList.Linked]
    simp only [STailQ.initAt, update_of_ne hk']
    by_cases hp : k' = .procs
    · rw [hp, update_self]
      exact hl
    · rw [update_of_ne hp, hfirst k' hp]
      exact (h.linked k').congr fun b hb => hnext b (h.notMem hb (Ne.symm hp))
  intro k1 k2 b hb1 hb2
  -- Whoever has `b` now had it before, or had it in the list given up.
  have key : ∀ k', b ∈ update (update c .procs
      (c .procs ++ c k)) k [] k' → k' ≠ k ∧ (k' = .procs ∧ b ∈ c k ∨ b ∈ c k') := by
    intro k' hb
    by_cases hk' : k' = k
    · subst hk'
      rw [update_self] at hb
      cases hb
    refine ⟨hk', ?_⟩
    rw [update_of_ne hk'] at hb
    by_cases hp : k' = .procs
    · subst hp
      rw [update_self, mem_append] at hb
      exact hb.elim .inr fun hb => .inl ⟨rfl, hb⟩
    · rw [update_of_ne hp] at hb
      exact .inr hb
  obtain ⟨hne1, h1⟩ := key k1 hb1
  obtain ⟨hne2, h2⟩ := key k2 hb2
  rcases h1 with ⟨rfl, h1⟩ | h1
  · rcases h2 with ⟨rfl, -⟩ | h2
    · rfl
    · exact absurd (h.apart k2 k b h2 h1) hne2
  · rcases h2 with ⟨rfl, h2⟩ | h2
    · exact absurd (h.apart k1 k b h1 h2) hne1
    · exact h.apart k1 k2 b h1 h2

theorem wp_bleFsmProcConcat (hk : k ≠ .procs) (h : Lists s.q c)
    (hs : c k ≠ [] → c .procs ≠ [] → Sound s.q c .procs) :
    Wp (do bleFsmProcConcat k; leave k) (.orAborts fun _ s' =>
      Lists s'.q (update (update c .procs (c .procs ++ c k)) k []) ∧
      s'.flags = s.flags ∧ s'.freed = s.freed) s := by
  refine .bind (.get_bind ?_)
  rw [h.first_eq, h.first_eq]
  split
  · next hnil =>
    have hck : c k = [] := by simpa using hnil
    refine .pure (wp_leave ⟨?_, rfl, rfl⟩)
    rw [hck, append_nil, update_eq_self]
    exact h.initAt
  · next hne =>
    have hck : c k ≠ [] := by simpa using hne
    split
    · next hnil =>
      have hcp : c .procs = [] := by simpa using hnil
      refine .modify (wp_leave ⟨?_, rfl, rfl⟩)
      refine Lists.joined h hk ?_ ?_ (fun _ _ => rfl)
      · simp only [copyHead, update_self, hcp, nil_append]
        exact h.linked k
      · intro k' hp
        simp only [copyHead, update_of_ne hp]
    · next hne' =>
      have hcp : c .procs ≠ [] := by simpa using hne'
      have hlast := hs hck hcp
      obtain ⟨A, x, hA⟩ : ∃ A x, c .procs = A ++ [x] := by
        rcases eq_nil_or_concat (c .procs) with h0 | ⟨A, x, h0⟩
        · exact absurd h0 hcp
        · exact ⟨A, x, by simpa using h0⟩
      rw [Sound, hA, stop_snoc] at hlast
      rw [hlast]
      refine .modify (wp_leave ⟨?_, rfl, rfl⟩)
      have hx : x ∈ c .procs := by simp [hA]
      have hlink := h.linked .procs
      rw [hA] at hlink
      refine Lists.joined h hk ?_ (fun _ _ => rfl) ?_
      · rw [hA]
        exact linked_join hlink (h.linked k) (h.notMem hx hk)
      · intro b hb
        refine update_of_ne ?_ _ _
        rintro rfl
        exact hb hx

end Functions

/-! ## Runs -/

/-- What is done to the lists. Between the parts of a wake-up, and between the
extraction of a list and what is made of it, anything else may be done. -/
inductive Op (n : Nat) where
  /-- A new procedure, with its flags. -/
  | insertTail (proc : Fin n) (fl : ProcFlags)
  /-- The response to an extracted procedure was processed. -/
  | rxStatus (proc : Fin n) (status : Nat)
  | extract (cb : ExtractFn n)
  | extractList (i : Nat) (cb : ExtractFn n)
  /-- The first part of a wake-up. -/
  | take (i : Nat)
  /-- The second part of a wake-up. -/
  | kick (i : Nat) (kickCb : Fin n → KickRc)
  /-- The last part of a wake-up, or the end of what extracted a list. -/
  | concat (i : Nat)
  /-- The procedures of an extracted list are failed and freed. -/
  | drop (i : Nat)

/-- What the code does. -/
def Op.run : Op n → FsmM n Unit
  | .insertTail proc fl => do
      setFlags proc fl
      onQueues (STailQ.insertTail .procs proc)
  | .rxStatus proc status => bleFsmProcessRxStatus proc status
  | .extract cb => do
      let _ ← bleFsmProcExtract cb
      pure ()
  | .extractList i cb => do
      let _ ← bleFsmProcExtractList (.temp i) cb
      pure ()
  | .take i => takePending (.temp i)
  | .kick i kickCb => kickPending (.temp i) kickCb
  | .concat i => do
      bleFsmProcConcat (.temp i)
      leave (.temp i)
  | .drop i => leave (.temp i)

/-- The lists as sequences. -/
abbrev Abs (n : Nat) := ListKey → List (Fin n)

def Abs.move (a : Abs n) (i : Nat)
    (t : List (Fin n) × List (Fin n) × (Fin n → ProcFlags)) : Abs n :=
  update (update a .procs t.1) (.temp i) t.2.1

/-- What is meant to happen to the sequences. Callbacks see the flags that
the procedures have. -/
def Op.effect (fl : Fin n → ProcFlags) (a : Abs n) : Op n → Abs n
  | .insertTail proc _ => update a .procs (a .procs ++ [proc])
  | .rxStatus proc status =>
    if status ≠ 0 then a else update a .procs (proc :: a .procs)
  | .extract cb => update a .procs (pick cb (a .procs) fl).1
  | .extractList i cb => a.move i (scan cb (a .procs) fl)
  | .take i => a.move i (scan pendingCb (a .procs) fl)
  | .kick i kickCb =>
    update a (.temp i) (kept kickCb (a (.temp i)))
  | .concat i => update (update a .procs (a .procs ++ a (.temp i))) (.temp i) []
  | .drop i => update a (.temp i) []

/-- How the lists are used: a procedure that is inserted is in no list. -/
def Op.Fresh (a : Abs n) : Op n → Prop
  | .insertTail proc _ => ∀ k, proc ∉ a k
  | .rxStatus proc _ => ∀ k, proc ∉ a k
  | _ => True

/-- The main list's address of its end is the place where its last procedure
has its link, or the head if it has none. -/
def TailOk (s : St n) : Prop :=
  ∃ l, SList.Linked s.q.next (s.q.first .procs) l ∧ s.q.last .procs = TailQ.stop (.head .procs) l

/-- Nothing is added at the tail while the address of the end is wrong. -/
def Op.Careful (s : St n) : Op n → Prop
  | .insertTail _ _ => TailOk s
  | .concat i => s.q.first (.temp i) ≠ none → s.q.first .procs ≠ none → TailOk s
  | _ => True

/-- Empty lists. -/
def St.init (fl : Fin n → ProcFlags) : St n where
  q := { first := fun _ => none, last := fun k => .head k, next := fun _ => none }
  flags := fl
  freed := []

/-- The states that careful use comes to, with the sequences it was meant to
come to. -/
inductive Runs : St n → Abs n → Prop
  | start (fl : Fin n → ProcFlags) : Runs (St.init fl) fun _ => []
  | step {s s' : St n} {a : Abs n} {left : Option Nat} (op : Op n) :
      Runs s a → op.Fresh a → op.Careful s →
      op.run s none = .ok () s' left → Runs s' (op.effect s.flags a)

section Runs

variable {s : St n} {a : Abs n}

theorem TailOk.sound (h : Lists s.q a) (ht : TailOk s) : Sound s.q a .procs := by
  obtain ⟨l, hl, hlast⟩ := ht
  rw [Sound, hlast, hl.unique (h.linked .procs)]

theorem Moved.eq_move {i : Nat} {c' : Abs n} {t : List (Fin n) × List (Fin n) × (Fin n → ProcFlags)}
    (h : Moved (.temp i) t.1 t.2.1 a c') : c' = a.move i t := by
  funext k
  by_cases hk : k = .temp i
  · rw [hk, Abs.move, update_self, h.dst]
  · rw [Abs.move, update_of_ne hk]
    by_cases hp : k = .procs
    · rw [hp, update_self, h.procs]
    · rw [update_of_ne hp, h.other k hp hk]

theorem temp_ne_procs (i : Nat) : ListKey.temp i ≠ .procs := by
  intro h
  cases h

/-- One operation, carefully used, does what it is meant to do or fails an
assertion. -/
theorem wp_op (op : Op n) (h : Lists s.q a) (hf : op.Fresh a) (hc : op.Careful s) :
    Wp op.run (.orAborts fun _ s' => Lists s'.q (op.effect s.flags a)) s := by
  cases op with
  | insertTail proc fl =>
    exact .modify_bind (.modify (h.insertTail (hc.sound h) hf))
  | rxStatus proc status =>
    simp only [Op.run, bleFsmProcessRxStatus, Op.effect]
    split
    · exact .modify h
    · exact .modify (h.insertHead hf)
  | extract cb =>
    refine .bind ((wp_bleFsmProcExtract cb h).mono_ok ?_)
    intro r s' hr
    exact .pure hr.2.1
  | extractList i cb =>
    refine .bind ((wp_bleFsmProcExtractList cb (temp_ne_procs i) h).mono_ok ?_)
    intro r s' ⟨_, ⟨c', hL, hM⟩, _⟩
    rw [hM.eq_move] at hL
    exact .pure hL
  | take i =>
    refine .bind ((wp_bleFsmProcExtractList pendingCb (temp_ne_procs i) h).mono_ok ?_)
    intro r s' ⟨_, ⟨c', hL, hM⟩, _⟩
    rw [hM.eq_move] at hL
    exact .pure hL
  | kick i kickCb =>
    exact (wp_kickPending kickCb h).mono_ok fun _ _ hr => hr.1
  | concat i =>
    refine (wp_bleFsmProcConcat (temp_ne_procs i) h ?_).mono_ok fun _ _ hr => hr.1
    intro hk hp
    refine TailOk.sound h (hc ?_ ?_)
    · rw [h.first_eq]
      simpa using hk
    · rw [h.first_eq]
      simpa using hp
  | drop i => exact .modify h.initAt

theorem lists_init (fl : Fin n → ProcFlags) :
    Lists (St.init fl).q fun _ => [] :=
  ⟨fun _ => rfl, fun _ _ _ h => by cases h⟩

theorem Runs.lists (h : Runs s a) : Lists s.q a := by
  induction h with
  | start fl => exact lists_init fl
  | step op _ hf hc ho ih =>
    have hw := wp_op op ih hf hc none
    rw [ho] at hw
    exact hw.1

end Runs

/-! ## A procedure that is lost -/

/-- The state after an operation that returns. -/
def Op.after (op : Op n) (s : St n) : St n :=
  match op.run s none with
  | .ok _ s' _ => s'
  | _ => s

/-- The operation returns. -/
def Op.returns (op : Op n) (s : St n) : Bool :=
  match op.run s none with
  | .ok _ _ _ => true
  | _ => false

theorem Op.run_eq {op : Op n} {s : St n} (h : op.returns s = true) :
    ∃ left, op.run s none = .ok () (op.after s) left := by
  unfold Op.returns at h
  unfold Op.after
  cases ho : op.run s none with
  | ok u s' left => exact ⟨left, rfl⟩
  | err e _ _ => exact e.elim
  | _ => rw [ho] at h; cases h

theorem Runs.after {s : St n} {a : Abs n} (h : Runs s a) (op : Op n)
    (hf : op.Fresh a) (hc : op.Careful s) (hr : op.returns s = true) :
    Runs (op.after s) (op.effect s.flags a) := by
  obtain ⟨left, ho⟩ := op.run_eq hr
  exact .step op h hf hc ho

end Larva.Ble.Fsm
