import Larva.Ble.Gattc
import Larva.Ble.ProcLists

/-!
# A connection ends

`ble_gattc_connection_broken` takes the procedures of a connection out of the
main list, tells each that it has failed, and frees it.

The first loop walks the list by the link that it rewrites. A procedure that it
takes out is inserted at the end of the other list, which sets its link to
null, and null is where the walk goes next. So the walk ends at the first
procedure of the connection, and what is behind it is not looked at. Two more
things can go wrong with the one that was found: it was the last one, and the
address of the end stays in it; or its operation has no function to tell of a
failure, and a null pointer is called.
-/

namespace Larva.Ble.Fsm

open Larva.Crash STailQ SList Function List

variable {n : Nat}

/-! ## The code -/

/-- The operations with an `err_cb` in `ble_gattc_dispatch`. -/
def hasErrCb : Gattc.Op → Bool
  | .writeNoRsp | .notify => false
  | _ => true

/-- The list on the stack of `ble_gattc_connection_broken`. -/
def tempList : ListKey := .temp 0

/-- The first loop. The link is followed behind the body, as `STAILQ_FOREACH`
does it. -/
def brokenLoop (conn : Fin n → Nat) (connHandle : Nat) :
    Nat → Option (Fin n) → Option (Fin n) → FsmM n Unit
  | 0, _, _ => Prog.spin
  | _ + 1, _, none => pure ()
  | fuel + 1, prev, some proc =>
    if conn proc = connHandle then do
      bleFsmProcRemove .procs proc prev
      onQueues (STailQ.insertTail tempList proc)
      let s ← Prog.get
      brokenLoop conn connHandle fuel prev (s.q.next proc)
    else do
      let s ← Prog.get
      brokenLoop conn connHandle fuel (some proc) (s.q.next proc)

/-- The second loop. The answer is whose `err_cb` was called, in that order. -/
def failLoop (op : Fin n → Gattc.Op) : Nat → FsmM n (List (Fin n))
  | 0 => Prog.spin
  | fuel + 1 => do
    let s ← Prog.get
    match s.q.first tempList with
    | none => pure []
    | some proc => do
      Prog.assert (hasErrCb (op proc))
      bleFsmProcRemove tempList proc none
      freeCb proc
      let told ← failLoop op fuel
      pure (proc :: told)

def bleGattcConnectionBroken (conn : Fin n → Nat) (op : Fin n → Gattc.Op) (connHandle : Nat) :
    FsmM n (List (Fin n)) := do
  onQueues (STailQ.initAt tempList)
  let s ← Prog.get
  brokenLoop conn connHandle (n + 1) none (s.q.first .procs)
  failLoop op (n + 1)

/-! ## What it is to do -/

/-- All procedures are in the main list. -/
def alone (l : List (Fin n)) : ListKey → List (Fin n) := update (fun _ => []) .procs l

/-- The procedures in progress, in a list that is in order. -/
structure InProgress (n : Nat) where
  s : St n
  l : List (Fin n)
  lists : Lists s.q (alone l)
  sound : Sound s.q (alone l) .procs

def InProgress.none : InProgress n where
  s := ⟨⟨fun _ => .none, .head, fun _ => .none⟩, fun _ => ⟨false, false, false, false⟩, []⟩
  l := []
  lists := ⟨fun k => by simp [alone, Linked], fun _ _ a ha => by simp [alone] at ha⟩
  sound := by simp [Sound, alone, TailQ.stop]

theorem alone_update (l l' : List (Fin n)) :
    update (alone l) .procs l' = alone l' :=
  update_idem ..

theorem notMem_alone {p : Fin n} {l : List (Fin n)} (hp : p ∉ l) (k : ListKey) : p ∉ alone l k := by
  by_cases hk : k = .procs
  · rw [hk, alone, update_self]
    exact hp
  · simp [alone, update_of_ne hk]

/-- One more procedure. -/
def InProgress.add (x : InProgress n) (p : Fin n) (hp : p ∉ x.l) : InProgress n where
  s := { x.s with q := x.s.q.insertTail .procs p }
  l := x.l ++ [p]
  lists := by
    have h := x.lists.insertTail x.sound (notMem_alone hp)
    rwa [alone_update] at h
  sound := by
    have h : Sound (x.s.q.insertTail .procs p) _ .procs := sound_insertTail (c := alone x.l)
    rwa [alone_update] at h

/-- The main list is `l`, and stays a list when a procedure is added. -/
structure Serves (q : STailQ ListKey (Fin n)) (l : List (Fin n)) : Prop where
  linked : Linked q.next (q.first .procs) l
  grows : ∀ p ∉ l, Linked (q.insertTail .procs p).next ((q.insertTail .procs p).first .procs)
    (l ++ [p])

/-- The procedures of the connection were told once and freed, and the others
are left. -/
structure Ended (x : InProgress n) (conn : Fin n → Nat) (connHandle : Nat)
    (told : List (Fin n)) (s' : St n) : Prop where
  once : told.Perm (x.l.filter (conn · = connHandle))
  freed : s'.freed = x.s.freed ++ told
  serves : Serves s'.q (x.l.filter (conn · ≠ connHandle))

/-! ## What it does -/

section Loops

variable {s : St n} {conn : Fin n → Nat} {op : Fin n → Gattc.Op} {connHandle fuel : Nat} {p : Fin n}
  {A B l : List (Fin n)} {c : ListKey → List (Fin n)}

theorem tempList_ne : tempList ≠ .procs := ListKey.noConfusion

/-- The walk goes past the procedures of other connections. -/
theorem wp_brokenLoop_skip (hA : ∀ a ∈ A, conn a ≠ connHandle) {Q : Post (St n) Empty Unit}
    (h : Lists s.q c) {C : List (Fin n)} (hl : c .procs = C ++ A ++ l)
    (hrest : Wp (brokenLoop conn connHandle fuel (C ++ A).getLast? l.head?) Q s) :
    Wp (brokenLoop conn connHandle (A.length + fuel) C.getLast? (A ++ l).head?) Q s := by
  induction A generalizing C with
  | nil => simpa using hrest
  | cons a A ih =>
    have ha := hA a mem_cons_self
    have hmid : c .procs = C ++ a :: (A ++ l) := by
      rw [hl, append_assoc, cons_append]
    have hnext : s.q.next a = (A ++ l).head? := h.next_eq hmid
    rw [length_cons, Nat.succ_add, cons_append, head?_cons, brokenLoop, if_neg ha]
    refine .get_bind ?_
    rw [hnext]
    have hrec := ih (fun b hb => hA b (mem_cons_of_mem a hb)) (C := C ++ [a])
      (hl.trans (by simp)) (by simpa using hrest)
    simpa using hrec

/-- One procedure is told and freed. -/
theorem wp_failLoop (h : Lists s.q c) (hl : c tempList = [p]) {Q : Post (St n) Empty (List (Fin n))}
    (hst : hasErrCb (op p) = false → Q.stuck)
    (hok : hasErrCb (op p) = true → ∀ s', Lists s'.q (update c tempList []) →
      s'.q.last .procs = s.q.last .procs → s'.freed = s.freed ++ [p] → Q.ok [p] s') :
    Wp (failLoop op (fuel + 2)) Q s := by
  have hfirst : s.q.first tempList = some p := by rw [h.first_eq, hl]; rfl
  refine .get_bind ?_
  simp only [hfirst]
  cases he : hasErrCb (op p) with
  | false => exact .bind (.abort (hst he))
  | true =>
    refine .bind (.assert rfl (.bind ?_))
    refine wp_bleFsmProcRemove (A := []) h hl fun s1 hL hS _ => ?_
    refine .modify_bind ?_
    have hempty : s1.q.first tempList = none := by
      rw [hL.first_eq, update_self]
      rfl
    refine .bind (.get_bind ?_)
    simp only [hempty]
    refine .pure (.pure (hok he _ hL (hS.last .procs tempList_ne.symm) ?_))
    rw [← hS.freed]

end Loops

section Broken

variable {conn : Fin n → Nat} {op : Fin n → Gattc.Op} {connHandle : Nat} (x : InProgress n)
  {Q : Post (St n) Empty (List (Fin n))} {p : Fin n} {q : STailQ ListKey (Fin n)} {l : List (Fin n)}

theorem InProgress.started : Lists (x.s.q.initAt tempList) (alone x.l) := by
  have h : Lists (x.s.q.initAt tempList) _ := x.lists.initAt
  have hsame : update (alone x.l) tempList [] = alone x.l :=
    update_eq_self_iff.mpr rfl
  rwa [hsame] at h

theorem InProgress.sound_temp : Sound (x.s.q.initAt tempList) (alone x.l) tempList := by
  simp [Sound, STailQ.initAt, alone, tempList, TailQ.stop]

theorem InProgress.fuel : x.l.length < n + 1 := by
  have h := length_lt_fuel x.lists .procs
  rwa [alone, update_self] at h

/-- Without a procedure of the connection nothing happens. -/
theorem wp_broken_none (hl : ∀ a ∈ x.l, conn a ≠ connHandle)
    (hok : ∀ s', Lists s'.q (alone x.l) → s'.q.last .procs = x.s.q.last .procs →
      s'.freed = x.s.freed → Q.ok [] s') :
    Wp (bleGattcConnectionBroken conn op connHandle) Q x.s := by
  have h := x.started
  obtain ⟨fuel, hfuel⟩ := Nat.exists_eq_add_of_lt x.fuel
  have hprocs : alone x.l .procs = [] ++ x.l ++ [] := by simp [alone]
  refine .modify_bind (.get_bind (.bind ?_))
  rw [h.first_eq, hfuel, add_assoc]
  rw [hprocs]
  refine wp_brokenLoop_skip hl h hprocs (.pure ?_)
  refine .get_bind ?_
  exact .pure (hok _ h (by simp [STailQ.initAt, tempList]) rfl)

/-- The first procedure of the connection is told and freed, and no other. -/
theorem wp_broken_first {A B : List (Fin n)} (hl : x.l = A ++ p :: B)
    (hA : ∀ a ∈ A, conn a ≠ connHandle) (hp : conn p = connHandle)
    (hst : hasErrCb (op p) = false → Q.stuck)
    (hok : hasErrCb (op p) = true → ∀ s', Lists s'.q (alone (A ++ B)) →
      s'.q.last .procs = (if A = [] ∧ B = [] then .head .procs else x.s.q.last .procs) →
      s'.freed = x.s.freed ++ [p] → Q.ok [p] s') :
    Wp (bleGattcConnectionBroken conn op connHandle) Q x.s := by
  have h := x.started
  have hprocs : alone x.l .procs = A ++ p :: B := by rw [alone, update_self, hl]
  have hlen : A.length + 1 < n + 1 := by
    have hlen := x.fuel
    rw [hl, length_append, length_cons] at hlen
    omega
  obtain ⟨fuel, hfuel⟩ := Nat.exists_eq_add_of_lt hlen
  have hfuel' : n + 1 = A.length + (fuel + 1 + 1) := by omega
  refine .modify_bind (.get_bind (.bind ?_))
  rw [h.first_eq, hfuel', hprocs]
  refine wp_brokenLoop_skip (C := []) hA h hprocs ?_
  rw [head?_cons, brokenLoop, if_pos hp]
  refine .bind (wp_bleFsmProcRemove h hprocs fun s1 hL hS hlast => .modify_bind ?_)
  obtain ⟨c1, hL1, -, hM⟩ := Lists.moveTail h x.sound_temp tempList_ne hprocs hL hS
  have htemp : c1 tempList = [p] := hM.dst
  have hnext : (s1.q.insertTail tempList p).next p = none :=
    hL1.next_eq (A := []) htemp
  refine .get_bind ?_
  rw [hnext]
  refine .pure ?_
  refine wp_failLoop hL1 htemp hst fun he s' hL' hlast' hfreed => ?_
  have hc : update c1 tempList [] = alone (A ++ B) := by
    funext k
    by_cases hk : k = tempList
    · rw [hk, update_self]
      rfl
    · rw [update_of_ne hk]
      by_cases hkp : k = .procs
      · rw [hkp, hM.procs, alone, update_self]
      · rw [hM.other k hkp hk, alone, alone, update_of_ne hkp, update_of_ne hkp]
  rw [hc] at hL'
  refine hok he s' hL' ?_ (hfreed.trans (by rw [hS.freed]))
  rw [hlast']
  simpa [STailQ.insertTail, STailQ.initAt, tempList] using hlast

/-- A list whose address of the end is right serves. -/
theorem serves_of_sound (h : Lists q (alone l)) (hs : Sound q (alone l) .procs) : Serves q l := by
  have hl : alone l .procs = l := update_self ..
  refine ⟨by simpa [hl] using h.linked .procs, fun p hp => ?_⟩
  have hadd := (h.insertTail hs (notMem_alone hp)).linked .procs
  rwa [update_self, hl] at hadd

/-- The address of the end is in a procedure that is not in the list. -/
theorem not_serves (hp : p ∉ l) (h : Linked q.next (q.first .procs) l)
    (hlast : q.last .procs = .next p) : ¬ Serves q l := by
  intro hs
  have hgrown := hs.grows p hp
  have hfirst : (q.insertTail .procs p).first .procs = q.first .procs := by
    simp [STailQ.insertTail, write, hlast]
  have hsame : Linked (q.insertTail .procs p).next (q.first .procs) l := by
    refine h.congr fun a ha => ?_
    have hap : a ≠ p := fun he => hp (he ▸ ha)
    simp [STailQ.insertTail, write, hlast, update_of_ne hap]
  rw [hfirst] at hgrown
  have heq := hgrown.unique hsame
  simp at heq

/-- A disconnection ends the procedures of the connection, and leaves the
others in order, exactly if there is one at most, which can be told, and it is
not at the end behind another one. -/
theorem connection_broken_iff (conn : Fin n → Nat) (op : Fin n → Gattc.Op) (connHandle : Nat) :
    Wp (bleGattcConnectionBroken conn op connHandle) (.total (Ended x conn connHandle)) x.s ↔
      (x.l.filter (conn · = connHandle)).length ≤ 1 ∧
      ∀ p ∈ x.l, conn p = connHandle → hasErrCb (op p) = true ∧
        (x.l.getLast? = some p → x.l = [p]) := by
  have hnodup : x.l.Nodup := by simpa [alone] using x.lists.nodup .procs
  cases hf : x.l.find? (conn · = connHandle) with
  | none =>
    have hall : ∀ a ∈ x.l, conn a ≠ connHandle := by simpa using hf
    have hmine : x.l.filter (conn · = connHandle) = [] := by simpa using hall
    have hothers : x.l.filter (conn · ≠ connHandle) = x.l := by simpa using hall
    refine iff_of_true ?_ ⟨by simp [hmine], fun p hp he => (hall p hp he).elim⟩
    refine wp_broken_none x hall fun s' hL hlast hfreed => ⟨by rw [hmine], by simpa using hfreed, ?_⟩
    rw [hothers]
    refine serves_of_sound hL ?_
    rw [Sound, hlast]
    exact x.sound
  | some p =>
    obtain ⟨hp, A, B, hl, hA⟩ := find?_eq_some_iff_append.mp hf
    simp only [decide_eq_true_eq, Bool.not_eq_true', decide_eq_false_iff_not] at hp hA
    have hmine : x.l.filter (conn · = connHandle) = p :: B.filter (conn · = connHandle) := by
      have hnone : A.filter (conn · = connHandle) = [] := by simpa using hA
      rw [hl, filter_append, hnone]
      simp [hp]
    rw [hl] at hnodup
    have hpB : p ∉ A ++ B := (nodup_cons.mp (nodup_middle.mp hnodup)).1
    have hstop : x.s.q.last .procs = TailQ.stop (.head .procs) (A ++ p :: B) := by
      have hs := x.sound
      rwa [Sound, alone, update_self, hl] at hs
    constructor
    · intro hw
      obtain ⟨told, s', hend, hcb, htold, hL, hlast⟩ := hw.meet (wp_broken_first
        (Q := .orAborts fun told s' => hasErrCb (op p) = true ∧ told = [p] ∧
          Lists s'.q _ ∧ s'.q.last .procs =
            (if A = [] ∧ B = [] then .head .procs else x.s.q.last .procs))
        x hl hA hp (fun _ => trivial) fun hcb s' hL hlast _ => ⟨hcb, rfl, hL, hlast⟩)
      have honce := hend.once
      rw [htold] at honce
      refine ⟨honce.length_eq ▸ le_refl 1, fun q hq hconn => ?_⟩
      obtain rfl : q = p := by
        have hmem : q ∈ [p] := honce.mem_iff.mpr (by simp [hq, hconn])
        simpa using hmem
      refine ⟨hcb, fun hend' => ?_⟩
      have hAB : Linked s'.q.next (s'.q.first .procs) (A ++ B) := by
        simpa [alone] using hL.linked .procs
      have hsv := hend.serves
      rw [hsv.linked.unique hAB] at hsv
      -- It is the last one, so there is nothing behind it.
      have hB : B = [] := by
        by_contra hB
        rw [hl, getLast?_append_of_ne_nil _ (by simp), getLast?_cons_of_ne_nil hB] at hend'
        exact hpB (mem_append_right A (mem_of_getLast? hend'))
      subst hB
      by_contra hne
      have hA' : A ≠ [] := fun hA => hne (by rw [hl, hA]; rfl)
      rw [if_neg (fun h => hA' h.1), hstop, stop_snoc] at hlast
      exact not_serves hpB hAB hlast hsv
    · intro hcond
      obtain ⟨hlen, hall⟩ := hcond
      obtain ⟨hcb, hend⟩ := hall p (by rw [hl]; simp) hp
      have hB : B.filter (conn · = connHandle) = [] := by
        rw [hmine, length_cons] at hlen
        exact length_eq_zero_iff.mp (by omega)
      have hothers : x.l.filter (conn · ≠ connHandle) = A ++ B := by
        have hB' : ∀ b ∈ B, conn b ≠ connHandle := by simpa using hB
        rw [hl, filter_append, filter_cons_of_neg (by simpa using hp),
          filter_eq_self.mpr (by simpa using hA), filter_eq_self.mpr (by simpa using hB')]
      refine wp_broken_first x hl hA hp (fun hno => by rw [hcb] at hno; cases hno)
        fun _ s' hL hlast hfreed => ⟨by rw [hmine, hB], hfreed, ?_⟩
      rw [hothers]
      refine serves_of_sound hL ?_
      rw [Sound, hlast, hstop, alone, update_self]
      cases B with
      | nil =>
        have hnil : A = [] := by
          have hone := hend (by rw [hl]; simp)
          rw [hl] at hone
          simpa using hone
        simp [hnil, TailQ.stop]
      | cons b B => simp [TailQ.stop]

end Broken

/-- Two procedures of one connection, reads both. -/
def twoReads : InProgress 2 := (InProgress.none.add 0 (by decide)).add 1 (by decide)

/-- The second is neither told nor freed, and stays in the list. -/
theorem second_procedure_left : ∃ s',
    bleGattcConnectionBroken (fun _ => 1) (fun _ => .read) 1 twoReads.s none = .ok [0] s' none ∧
      s'.freed = [0] ∧ s'.q.first .procs = some 1 ∧ ¬ Ended twoReads (fun _ => 1) 1 [0] s' := by
  refine ⟨_, rfl, rfl, rfl, fun h => ?_⟩
  exact absurd h.once.length_eq (by decide)

end Larva.Ble.Fsm
