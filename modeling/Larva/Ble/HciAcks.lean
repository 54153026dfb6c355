import Larva.Ble.HciProgress

/-!
# Acknowledgements of HCI commands

What the users of the HCI scheduler rely on is said here of what is seen of a
run: the slots put on the list and transmitted, the commands sent, the ack
callbacks registered and called, the events with an opcode and the timeouts,
and the slots done with. A trace has the last thing first.

The ack callback is called with the handle in `ble_hci_sched_prev_handle`,
which is the handle of the slot that was numbered last, not of the slot whose
command is acknowledged; one more slot enqueued while the command is
outstanding is enough to give the callback a handle that is not its own. And
an event with the opcode of no operation is taken for an acknowledgement of
whatever is outstanding. `matched` excludes both, and callbacks that fail with
a command or an ack callback left behind; in the runs that it admits
everything is as it should be (`acks_go_right`).
-/

namespace Larva.Ble.HciSched

open Function List

/-! ## What is seen of a run -/

def enqueuedOf (tr : List Obs) : List Entry :=
  tr.filterMap fun
    | .enqueued e => some e
    | _ => none

def transmittedOf (tr : List Obs) : List Entry :=
  tr.filterMap fun
    | .transmit e => some e
    | _ => none

/-- The slot that was transmitted last. -/
def inProgress : List Obs → Option Entry
  | [] => none
  | .transmit e :: _ => some e
  | _ :: tr => inProgress tr

/-- The opcode of the command that the slot transmitted last has sent. -/
def opcodeOf : List Obs → Option Nat
  | [] => none
  | .transmit _ :: _ => none
  | .sent op :: _ => some op
  | _ :: tr => opcodeOf tr

/-- The opcodes of the commands sent that no event has answered yet. When the
time is over the command sent last is given up. -/
def unanswered : List Obs → List Nat
  | [] => []
  | .sent op :: tr => op :: unanswered tr
  | .event op :: tr => (unanswered tr).erase op
  | .timeout :: tr => (unanswered tr).tail
  | _ :: tr => unanswered tr

/-- The ack callback that is registered, and the slot that registered it. -/
def registrant : List Obs → Option (Entry × Nat × Nat)
  | [] => none
  | .registered cb arg :: tr => (inProgress tr).map fun e => (e, cb, arg)
  | .dropped :: _ => none
  | .acked _ _ _ :: _ => none
  | _ :: tr => registrant tr

/-- The slots whose ack callbacks were called. -/
def ackedFor : List Obs → List Entry
  | [] => []
  | .acked _ _ _ :: tr =>
    (registrant tr).toList.map Prod.fst ++ ackedFor tr
  | _ :: tr => ackedFor tr

/-- The last event with an opcode, or timeout. -/
def cause : List Obs → Option Obs
  | [] => none
  | .event op :: _ => some (.event op)
  | .timeout :: _ => some .timeout
  | _ :: tr => cause tr

/-- Ack callbacks are called with the handle of the slot that registered
them, which is the one in progress. -/
def AcksRight : List Obs → Prop
  | [] => True
  | .acked cb arg handle :: tr =>
    (∃ e, registrant tr = some (e, cb, arg) ∧ inProgress tr = some e ∧
      e.handle = handle) ∧ AcksRight tr
  | _ :: tr => AcksRight tr

/-- The event came that answers the command of the slot in progress, or its
time was over. -/
def Answered (tr : List Obs) : Prop :=
  cause tr = some .timeout ∨ ∃ op, cause tr = some (.event op) ∧ opcodeOf tr = some op

/-- A slot is done with when its own command was answered. -/
def FinishesRight : List Obs → Prop
  | [] => True
  | .finished e :: tr =>
    (inProgress tr = some e ∧ Answered tr) ∧ FinishesRight tr
  | _ :: tr => FinishesRight tr

structure Orderly (tr : List Obs) : Prop where
  one : (unanswered tr).length ≤ 1
  order : transmittedOf tr <:+ enqueuedOf tr
  acks : AcksRight tr
  once : (ackedFor tr).Nodup
  finishes : FinishesRight tr

/-- A step with which acknowledgements go to the right slot. -/
def matched (s : St) : Label → Bool
  -- Slots are not given up.
  | .cancel _ _ => false
  -- An event for no operation comes while no slot is current.
  | .get =>
    match s.evq with
    | .ctlr data :: _ =>
      (ackOf data).all fun a => a.opcode ≠ 0 || s.curEntry = none
    | _ => true
  -- An ack callback is called while the current slot was numbered last.
  | .host =>
    match s.host with
    | .ackCall _ _ => s.curEntry.any (·.handle = s.prevHandle)
    | _ => true
  -- A transmit callback fails with no command and no ack callback left.
  | .ret rc =>
    match s.host with
    | .tx _ _ => rc = 0 || (s.ackCb = none && s.outstandingOpcode = 0)
    | _ => true
  | _ => true

/-! ## Slots are told apart -/

section Numbers

variable {s s' : St} {tr : List Obs}

/-- The slot that a call has and that is not on the list yet. -/
def Call.entry : Call → Option Entry
  | .alloced e | .numbered e => some e
  | _ => Option.none

structure Numbered (s : St) (tr : List Obs) : Prop where
  below : ∀ e ∈ enqueuedOf tr, e.id < s.count
  nodup : (enqueuedOf tr).Nodup
  calls : ∀ t e, (s.calls t).entry = some e → e.id < s.count ∧ ∀ x ∈ enqueuedOf tr, x.id ≠ e.id
  apart : ∀ t t' e e', (s.calls t).entry = some e →
    (s.calls t').entry = some e' → e.id = e'.id → t = t'

variable {t : Nat} {c : Call} {e : Entry} {l : Label}

theorem entry_update {calls : Nat → Call} {u : Nat} (he : (update calls t c u).entry = some e) :
    u = t ∧ c.entry = some e ∨ u ≠ t ∧ (calls u).entry = some e := by
  by_cases hu : u = t
  · subst hu
    rw [update_self] at he
    exact .inl ⟨rfl, he⟩
  · rw [update_of_ne hu] at he
    exact .inr ⟨hu, he⟩

section

variable (h : Numbered s tr)
include h

/-- A step of task `t` that makes no slot. -/
theorem Numbered.setCall (hc : ∀ e, c.entry = some e →
      ∃ e0, (s.calls t).entry = some e0 ∧ e.id = e0.id) (hcalls : s'.calls = update s.calls t c)
    (hcount : s'.count = s.count) : Numbered s' tr := by
  have hold : ∀ u e, (s'.calls u).entry = some e →
      ∃ e0, (s.calls u).entry = some e0 ∧ e.id = e0.id := by
    intro u e he
    rw [hcalls] at he
    rcases entry_update he with ⟨rfl, hce⟩ | ⟨-, he⟩
    · exact hc e hce
    · exact ⟨e, he, rfl⟩
  refine ⟨fun e he => ?_, h.nodup, fun u e he => ?_, fun u u' e e' he he' hid => ?_⟩
  · rw [hcount]
    exact h.below e he
  · obtain ⟨e0, he0, hid⟩ := hold u e he
    rw [hcount, hid]
    exact h.calls u e0 he0
  · obtain ⟨e0, he0, hid0⟩ := hold u e he
    obtain ⟨e1, he1, hid1⟩ := hold u' e' he'
    exact h.apart u u' e0 e1 he0 he1 (hid0.symm.trans (hid.trans hid1))

/-- Most steps enqueue nothing and leave the calls alone. -/
theorem Numbered.congr {tr' : List Obs} (hcalls : s'.calls = s.calls) (hcount : s'.count = s.count)
    (htr : enqueuedOf tr' = enqueuedOf tr) : Numbered s' tr' := by
  refine ⟨?_, ?_, ?_, ?_⟩
  · rw [htr, hcount]
    exact h.below
  · rw [htr]
    exact h.nodup
  · rw [htr, hcount, hcalls]
    exact h.calls
  · rw [hcalls]
    exact h.apart

theorem Numbered.alloc {cb : Nat} {n : Nat} :
    Numbered ({ s with free := n, count := s.count + 1 }.setCall t
      (.alloced ⟨s.count, cb, 0⟩)) tr := by
  refine ⟨fun e he => ?_, h.nodup, fun u e he => ?_, fun u u' e e' he he' hid => ?_⟩
  · exact Nat.lt_succ_of_lt (h.below e he)
  · rcases entry_update he with ⟨-, he⟩ | ⟨-, he⟩
    · cases he
      exact ⟨Nat.lt_succ_self _, fun x hx => (h.below x hx).ne⟩
    · obtain ⟨hlt, hx⟩ := h.calls u e he
      exact ⟨Nat.lt_succ_of_lt hlt, hx⟩
  · rcases entry_update he with ⟨hu, he⟩ | ⟨-, he⟩ <;>
      rcases entry_update he' with ⟨hu', he'⟩ | ⟨-, he'⟩
    · rw [hu, hu']
    · cases he
      exact absurd hid (h.calls u' e' he').1.ne'
    · cases he'
      exact absurd hid (h.calls u e he).1.ne
    · exact h.apart u u' e e' he he' hid

theorem Numbered.insert (hc : s.calls t = .numbered e) :
    Numbered ({ s with list := s.list ++ [e] }.setCall t .inserted) (.enqueued e :: tr) := by
  have he : (s.calls t).entry = some e := by rw [hc]; rfl
  have hold : ∀ u x, ((update s.calls t .inserted) u).entry = some x →
      u ≠ t ∧ (s.calls u).entry = some x := by
    intro u x hx
    exact (entry_update hx).resolve_left (by simp [Call.entry])
  obtain ⟨hlt, hne⟩ := h.calls t e he
  refine ⟨fun x hx => ?_, ?_, fun u x hx => ?_, fun u u' x x' hx hx' hid => ?_⟩
  · rcases mem_cons.mp hx with rfl | hx
    · exact hlt
    · exact h.below x hx
  · refine nodup_cons.mpr ⟨fun hx => ?_, h.nodup⟩
    exact hne e hx rfl
  · obtain ⟨hu, hold⟩ := hold u x hx
    refine ⟨(h.calls u x hold).1, fun y hy hid => ?_⟩
    rcases mem_cons.mp hy with rfl | hy
    · exact hu (h.apart u t x y hold he hid.symm)
    · exact (h.calls u x hold).2 y hy hid
  · exact h.apart u u' x x' (hold u x hx).2 (hold u' x' hx').2 hid

end

/-- Nothing but an insertion is seen as one. -/
theorem enqueuedOf_obs (hl : ∀ t e, l = .call t → s.calls t ≠ .numbered e) :
    enqueuedOf (s.obs l ++ tr) = enqueuedOf tr := by
  cases l with
  | call t =>
    simp only [St.obs]
    split
    · next e he => exact (hl t e rfl he).elim
    · rfl
  | get =>
    simp only [St.obs]
    split
    · cases ackOf _ <;> rfl
    · rfl
    · rfl
  | host =>
    simp only [St.obs]
    split
    · cases s.list <;> rfl
    · next cb _ => cases cb <;> rfl
    · cases s.curEntry <;> rfl
    · rfl
  | setAckCb cb arg => cases cb <;> rfl
  | send ogf ocf sent => cases sent <;> rfl
  | enqueue | cancel | ret | ctlr | expire => rfl

theorem Numbered.setCall_none (h : Numbered s tr) (hc : c.entry = none)
    (hcalls : s'.calls = update s.calls t c) (hcount : s'.count = s.count) : Numbered s' tr := by
  refine h.setCall (fun e he => ?_) hcalls hcount
  rw [hc] at he
  cases he

theorem Numbered.call (h : Numbered s tr)
    (hd : Does s (.call t) s') : Numbered s' (s.obs (.call t) ++ tr) := by
  -- But for an insertion nothing is enqueued.
  have hobs : (∀ e, s.calls t ≠ .numbered e) → Numbered s (s.obs (.call t) ++ tr) := by
    intro hne
    refine h.congr rfl rfl (enqueuedOf_obs fun t' e hl => ?_)
    cases hl
    exact hne e
  cases hd with
  | @number _ e hc =>
    refine (hobs (by simp [hc])).setCall (fun e' he' => ⟨e, ?_, ?_⟩) rfl rfl
    · rw [hc]
      rfl
    · cases he'
      rfl
  | @insert _ e hc =>
    have ho : s.obs (.call t) = [.enqueued e] := by simp only [St.obs, hc]
    rw [ho]
    exact h.insert hc
  | busy hc | unbusy hc | post hc =>
    exact (hobs (by simp [hc])).setCall_none rfl rfl rfl
  | @cancelled _ e doKick hc =>
    refine (hobs (by simp [hc])).setCall_none ?_ rfl rfl
    cases doKick <;> rfl

theorem Numbered.step (h : Numbered s tr) (hd : Does s l s') : Numbered s' (s.obs l ++ tr) := by
  have hobs : (∀ t, l ≠ .call t) → enqueuedOf (s.obs l ++ tr) = enqueuedOf tr := fun hne =>
    enqueuedOf_obs fun t e hl => (hne t hl).elim
  cases l with
  | call t => exact h.call hd
  | enqueue t cb =>
    cases hd with
    | noMem => exact h
    | alloc => exact h.alloc
  | cancel t handle => cases hd <;> exact h.setCall_none rfl rfl rfl
  | get | host | setAckCb | send | ret | ctlr | expire =>
    cases hd <;> exact h.congr rfl rfl (hobs (by simp))

end Numbers

/-! ## The invariant -/

/-- The host task has found no current slot, and is transmitting one. -/
def Host.sending : Host → Bool
  | .take | .tx _ _ | .failed _ => true
  | _ => false

/-- What the state says of the trace. -/
structure Told (s : St) (tr : List Obs) : Prop where
  unans : unanswered tr =
    if s.outstandingOpcode = 0 then [] else [s.outstandingOpcode]
  order : enqueuedOf tr = s.list.reverse ++ transmittedOf tr
  free : s.host.sending = true → s.curEntry = none
  busy : s.outstandingOpcode ≠ 0 → opcodeOf tr = some s.outstandingOpcode ∧
    (s.curEntry ≠ none ∨ ∃ e reg, s.host = .tx e reg)
  quiet : s.host.answering = true → s.outstandingOpcode = 0
  cur : ∀ e, s.curEntry = some e → inProgress tr = some e
  tx : ∀ e reg, s.host = .tx e reg → inProgress tr = some e ∧ e ∉ ackedFor tr
  reg : ∀ cb, s.ackCb = some cb → ∃ e, registrant tr = some (e, cb, s.ackArg) ∧
    (s.curEntry = some e ∨ ∃ r, s.host = .tx e r) ∧ e ∉ ackedFor tr
  taken : s.host.taken = true → s.ackCb = none
  call : ∀ a cb, s.host = .ackCall a (some cb) → ∃ e,
    registrant tr = some (e, cb, s.ackArg) ∧ s.curEntry = some e ∧ e ∉ ackedFor tr
  answered : s.host.answering = true → s.curEntry ≠ none → Answered tr
  sub : ∀ e ∈ ackedFor tr, e ∈ transmittedOf tr
  acks : AcksRight tr
  once : (ackedFor tr).Nodup
  finishes : FinishesRight tr

theorem told_init (slots prevHandle : Nat) : Told (.init slots prevHandle) [] where
  unans := rfl
  order := rfl
  free h := by cases h
  busy h := (h rfl).elim
  quiet _ := rfl
  cur e h := by cases h
  tx e reg h := by cases h
  reg cb h := by cases h
  taken _ := rfl
  call a cb h := by cases h
  answered h := by cases h
  sub e h := by cases h
  acks := trivial
  once := nodup_nil
  finishes := trivial

theorem Told.orderly {s : St} {tr : List Obs} (h : Told s tr) : Orderly tr where
  one := by
    rw [h.unans]
    split <;> simp
  order := ⟨s.list.reverse, h.order.symm⟩
  acks := h.acks
  once := h.once
  finishes := h.finishes

section Moves

variable {s : St} {tr : List Obs}

variable (h : Told s tr) (htx : ∀ e r, s.host ≠ .tx e r) {x : Host} {evq : List Ev} {free : Nat}
include h htx

/-- An ack callback is that of the current slot but in a transmit callback. -/
theorem Told.reg_cur {cb : Nat} (hcb : s.ackCb = some cb) : ∃ e, registrant tr = some (e, cb, s.ackArg) ∧
      s.curEntry = some e ∧ e ∉ ackedFor tr := by
  obtain ⟨e, hr, hc, hn⟩ := h.reg cb hcb
  exact ⟨e, hr, hc.resolve_right (by simpa using htx e), hn⟩

theorem Told.idle (hcur : s.curEntry = none) :
    s.outstandingOpcode = 0 ∧ s.ackCb = none := by
  constructor
  · by_contra ho
    exact (h.busy ho).2.resolve_right (by simpa using htx) hcur
  cases ha : s.ackCb with
  | none => rfl
  | some cb =>
    obtain ⟨e, -, hc, -⟩ := h.reg_cur htx ha
    rw [hcur] at hc
    cases hc

/-- The host task moves on with nothing to be seen, and not from or into a
callback. -/
theorem Told.move {calls : Nat → Call} (htx' : ∀ e r, x ≠ .tx e r)
    (hcall : ∀ a cb, x ≠ .ackCall a cb) (hfree : x.sending = true → s.curEntry = none)
    (hans : x.answering = true → s.host.answering = true)
    (htaken : x.taken = true → s.ackCb = none) :
    Told { s with evq := evq, free := free, calls := calls, host := x } tr :=
  { h with
    free := hfree
    busy := fun ho => ⟨(h.busy ho).1, .inl ((h.busy ho).2.resolve_right (by simpa using htx))⟩
    quiet := fun ha => h.quiet (hans ha)
    tx := fun e r hh => (htx' e r hh).elim
    reg := fun cb ha => by
      obtain ⟨e, hr, hc, hn⟩ := h.reg_cur htx ha
      exact ⟨e, hr, .inl hc, hn⟩
    taken := htaken
    call := fun a cb hh => (hcall a (some cb) hh).elim
    answered := fun ha => h.answered (hans ha) }

/-- The host task goes to a place of which nothing is said. -/
theorem Told.rest (hx : x ∈ [.idle, .next, .check, .kick]) :
    Told { s with evq := evq, free := free, host := x } tr := by
  simp only [mem_cons, not_mem_nil, or_false] at hx
  rcases hx with rfl | rfl | rfl | rfl <;>
    exact h.move htx (by simp) (by simp) (by simp [Host.sending]) (by simp [Host.answering])
      (by simp [Host.taken])

end Moves

/-! ## Steps with something to be seen -/

section Seen

variable {s : St} {tr : List Obs}

variable {e : Entry} {a : Ack} {r : Bool}

section

variable (h : Told s tr)
include h

theorem Told.insert {t : Nat} :
    Told ({ s with list := s.list ++ [e] }.setCall t .inserted) (.enqueued e :: tr) := by
  refine { h with order := ?_ }
  show e :: enqueuedOf tr = (s.list ++ [e]).reverse ++ transmittedOf tr
  rw [h.order]
  simp

theorem Told.take (hn : Numbered s tr)
    {list : List Entry} (hh : s.host = .take) (hl : s.list = e :: list) :
    Told { s with list := list, host := .tx e false } (.transmit e :: tr) := by
  have hcur := h.free (by simp [hh, Host.sending])
  obtain ⟨ho, ha⟩ := h.idle (by simp [hh]) hcur
  have hord : enqueuedOf tr = list.reverse ++ e :: transmittedOf tr := by
    rw [h.order, hl]
    simp
  have hnew : e ∉ ackedFor tr := by
    intro he
    have hnd := hn.nodup
    rw [hord] at hnd
    exact (nodup_cons.mp (nodup_append.mp hnd).2.1).1 (h.sub e he)
  exact { h with
    order := hord
    free := fun _ => hcur
    busy := fun hb => (hb ho).elim
    quiet := fun _ => ho
    cur := by simp [hcur]
    tx := fun x r hx => by
      cases hx
      exact ⟨rfl, hnew⟩
    reg := by simp [ha]
    taken := fun _ => ha
    call := by simp
    answered := fun hx => by cases hx
    sub := fun x hx => mem_cons_of_mem _ (h.sub x hx) }

/-- An event that answers no command, while no ack is handled. -/
theorem Told.stale {op : Nat} (hh : s.host = .idle)
    (hop : op ≠ s.outstandingOpcode) (evq : List Ev) :
    Told { s with evq := evq } (.event op :: tr) := by
  refine { h with unans := ?_, answered := fun ha => ?_ }
  · show (unanswered tr).erase op = _
    rw [h.unans]
    split
    · rfl
    · exact erase_of_not_mem (by simpa using hop)
  · have ha : s.host.answering = true := ha
    rw [hh] at ha
    cases ha

/-- The event that answers the command outstanding, or the timeout. -/
theorem Told.answer {o : Obs} (hh : s.host = .idle)
    (ho : (∃ op, o = .event op ∧ op = s.outstandingOpcode ∧
      (s.curEntry ≠ none → op ≠ 0)) ∨ o = .timeout) (evq : List Ev) :
    Told { s with evq := evq, outstandingOpcode := 0, host := .ack a } (o :: tr) := by
  have hun : unanswered (o :: tr) = [] := by
    rcases ho with ⟨op, rfl, hop, -⟩ | rfl
    · show (unanswered tr).erase op = []
      rw [h.unans, hop]
      split <;> simp
    · show (unanswered tr).tail = []
      rw [h.unans]
      split <;> simp
  have hans : s.curEntry ≠ none → Answered (o :: tr) := by
    intro hc
    rcases ho with ⟨op, rfl, hop, hne⟩ | rfl
    · refine .inr ⟨op, rfl, ?_⟩
      rw [hop]
      exact (h.busy (hop ▸ hne hc)).1
    · exact .inl rfl
  -- Of an event or a timeout nothing else of the trace is said.
  rcases ho with ⟨op, rfl, -⟩ | rfl <;>
    exact { h with
      unans := hun
      free := fun hx => by cases hx
      busy := fun hx => (hx rfl).elim
      quiet := fun _ => rfl
      tx := by simp
      reg := fun cb hcb => by
        obtain ⟨e, hr, hc, hn⟩ := h.reg_cur (by simp [hh]) hcb
        exact ⟨e, hr, .inl hc, hn⟩
      taken := fun hx => by cases hx
      call := by simp
      answered := fun _ => hans }

theorem Told.takeAck (hh : s.host = .ackTake a) :
    Told { s with ackCb := none, host := .ackCall a s.ackCb } tr := by
  have hans : s.host.answering = true := by simp [hh, Host.answering]
  refine { h with
    free := fun hx => by cases hx
    busy := fun hb => (hb (h.quiet hans)).elim
    quiet := fun _ => h.quiet hans
    tx := by simp
    reg := by simp
    taken := fun _ => rfl
    call := fun a' cb hx => ?_
    answered := fun _ => h.answered hans }
  · have hcb : s.ackCb = some cb := by
      injection hx
    exact h.reg_cur (by simp [hh]) hcb

end

theorem mem_of_inProgress (h : inProgress tr = some e) : e ∈ transmittedOf tr := by
  induction tr with
  | nil => cases h
  | cons o tr ih =>
    cases o with
    | transmit x =>
      cases h
      exact mem_cons_self
    | _ => exact ih h

theorem Told.callAck (h : Told s tr) {cb : Nat} (hh : s.host = .ackCall a (some cb))
    (hok : s.curEntry.any (·.handle = s.prevHandle) = true) : Told { s with host := .acking }
      (.acked cb s.ackArg s.prevHandle :: tr) := by
  have hans : s.host.answering = true := by simp [hh, Host.answering]
  have htak : s.ackCb = none := h.taken (by simp [hh, Host.taken])
  obtain ⟨e, hr, hc, hn⟩ := h.call a cb hh
  have hprog := h.cur e hc
  have hhandle : e.handle = s.prevHandle := by simpa [hc] using hok
  have hfor : ackedFor (.acked cb s.ackArg s.prevHandle :: tr) = e :: ackedFor tr := by
    show (registrant tr).toList.map Prod.fst ++ ackedFor tr = _
    rw [hr]
    rfl
  exact { h with
    free := fun hx => by cases hx
    busy := fun hb => (hb (h.quiet hans)).elim
    quiet := fun _ => h.quiet hans
    tx := by simp
    reg := by simp [htak]
    taken := fun _ => htak
    call := by simp
    answered := fun _ => h.answered hans
    sub := fun x hx => by
      rw [hfor] at hx
      rcases mem_cons.mp hx with rfl | hx
      · exact mem_of_inProgress hprog
      · exact h.sub x hx
    acks := ⟨⟨e, hr, hprog, hhandle⟩, h.acks⟩
    once := by
      rw [hfor]
      exact nodup_cons.mpr ⟨hn, h.once⟩ }

theorem Told.complete (h : Told s tr) (hh : s.host = .complete) :
    Told { s with curEntry := none, host := .completed s.curEntry }
      (s.curEntry.toList.map .finished ++ tr) := by
  have hans : s.host.answering = true := by simp [hh, Host.answering]
  have htak : s.ackCb = none := h.taken (by simp [hh, Host.taken])
  have ho := h.quiet hans
  have hdone : Told { s with curEntry := none, host := .completed s.curEntry } tr :=
    { h with
      free := fun _ => rfl
      busy := fun hb => (hb ho).elim
      quiet := fun _ => ho
      cur := by simp
      tx := by simp
      reg := by simp [htak]
      taken := fun _ => htak
      call := by simp
      answered := fun hx => by cases hx }
  cases hc : s.curEntry with
  | none =>
    rw [hc] at hdone
    exact hdone
  | some e =>
    rw [hc] at hdone
    exact { hdone with finishes := ⟨⟨h.cur e hc, h.answered hans (by simp [hc])⟩, h.finishes⟩ }

variable (h : Told s tr) (hh : s.host = .tx e r)
include h hh

/-- The transmit callback registers an ack callback, or drops it. -/
theorem Told.register {r' : Bool} {cb : Option Nat} {arg : Nat} :
    Told { s with ackCb := cb, ackArg := arg, host := .tx e r' }
      ((match cb with
        | some cb => Obs.registered cb arg
        | none => Obs.dropped) :: tr) := by
  obtain ⟨hprog, hnew⟩ := h.tx e r hh
  have hcur := h.free (by simp [hh, Host.sending])
  have hbusy : s.outstandingOpcode ≠ 0 → opcodeOf tr = some s.outstandingOpcode ∧
      (s.curEntry ≠ none ∨ ∃ e' r, Host.tx e r' = .tx e' r) :=
    fun ho => ⟨(h.busy ho).1, .inr ⟨e, r', rfl⟩⟩
  have htx : ∀ e' q, Host.tx e r' = .tx e' q → inProgress tr = some e' ∧ e' ∉ ackedFor tr := by
    intro e' q hx
    cases hx
    exact ⟨hprog, hnew⟩
  cases cb with
  | none =>
    exact { h with
      free := fun _ => hcur
      busy := hbusy
      quiet := fun hx => by cases hx
      tx := htx
      reg := by simp
      taken := fun _ => rfl
      call := by simp
      answered := fun hx => by cases hx }
  | some cb =>
    refine { h with
      free := fun _ => hcur
      busy := hbusy
      quiet := fun hx => by cases hx
      tx := htx
      reg := fun cb' hx => ⟨e, ?_, .inr ⟨r', rfl⟩, hnew⟩
      taken := fun hx => by cases hx
      call := by simp
      answered := fun hx => by cases hx }
    cases hx
    show (inProgress tr).map (fun e => (e, cb, arg)) = some (e, cb, arg)
    rw [hprog]
    rfl

theorem Told.send {op : Nat} (ho : s.outstandingOpcode = 0) (hop : op ≠ 0) :
    Told { s with outstandingOpcode := op } (.sent op :: tr) := by
  have hun : unanswered tr = [] := by
    rw [h.unans, if_pos ho]
  have hans : s.host.answering ≠ true := by simp [hh, Host.answering]
  refine { h with
    unans := ?_
    busy := fun _ => ⟨rfl, .inr ⟨e, r, hh⟩⟩
    quiet := fun hx => (hans hx).elim
    answered := fun hx => (hans hx).elim }
  show op :: unanswered tr = _
  rw [hun, if_neg hop]

theorem Told.retOk : Told { s with curEntry := some e, host := .idle } tr := by
  refine { h with
    free := fun hx => by cases hx
    busy := fun ho => ⟨(h.busy ho).1, .inl (by simp)⟩
    quiet := fun hx => by cases hx
    cur := fun x hx => by cases hx; exact (h.tx e r hh).1
    tx := by simp
    reg := fun cb hcb => ?_
    taken := fun hx => by cases hx
    call := by simp
    answered := fun hx => by cases hx }
  obtain ⟨x, hr, hc, hn⟩ := h.reg cb hcb
  refine ⟨x, hr, .inl ?_, hn⟩
  rcases hc with hc | ⟨q, hx⟩
  · rw [h.free (by simp [hh, Host.sending])] at hc
    cases hc
  · rw [hh] at hx
    cases hx
    rfl

theorem Told.retFail (ha : s.ackCb = none)
    (ho : s.outstandingOpcode = 0) : Told { s with host := .failed e } tr := by
  exact { h with
    free := fun _ => h.free (by simp [hh, Host.sending])
    busy := fun hb => (hb ho).elim
    quiet := fun hx => by cases hx
    tx := by simp
    reg := by simp [ha]
    taken := fun hx => by cases hx
    call := by simp
    answered := fun hx => by cases hx }

end Seen

/-! ## Runs -/

section Runs

variable {s s' : St} {tr : List Obs}

theorem Told.called (h : Told s tr) {t : Nat} (hd : Does s (.call t) s') :
    Told s' (s.obs (.call t) ++ tr) := by
  cases hd with
  | @insert _ e hc =>
    rw [show s.obs (.call t) = [.enqueued e] by simp only [St.obs, hc]]
    exact h.insert
  | number hc | busy hc | unbusy hc | post hc | cancelled hc =>
    rw [show s.obs (.call t) = [] by simp only [St.obs, hc]]
    exact { h with }

theorem Told.got (h : Told s tr) (hd : Does s .get s')
    (hok : matched s .get = true) : Told s' (s.obs .get ++ tr) := by
  cases hd with
  | getKick hh he =>
    rw [show s.obs .get = [] by simp only [St.obs, he]]
    exact h.rest (by simp [hh]) (by simp)
  | getOther hh he ha =>
    rw [show s.obs .get = [] by simp [St.obs, he, ha]]
    exact { h with }
  | @getStale data evq a hh he ha h0 hs =>
    rw [show s.obs .get = [.event a.opcode] by simp [St.obs, he, ha]]
    exact h.stale hh hs evq
  | @getAck data evq a hh he ha ho =>
    rw [show s.obs .get = [.event a.opcode] by simp [St.obs, he, ha]]
    have hm : a.opcode ≠ 0 ∨ s.curEntry = none := by
      simpa [matched, he, ha] using hok
    refine h.answer hh (.inl ⟨a.opcode, rfl, ho, fun hc => ?_⟩) _
    exact hm.resolve_right hc
  | @getNop data evq a hh he ha h0 ho =>
    have hm : a.opcode ≠ 0 ∨ s.curEntry = none := by
      simpa [matched, he, ha] using hok
    have hcur := hm.resolve_left fun hne => hne h0
    exact (ho (h.idle (by simp [hh]) hcur).1).elim
  | @getTimer evq a hh he ho =>
    rw [show s.obs .get = [.timeout] by simp only [St.obs, he]]
    exact h.answer hh (.inr rfl) evq

theorem Told.hosted (h : Told s tr) (hn : Numbered s tr)
    (hd : Does s .host s') (hok : matched s .host = true) : Told s' (s.obs .host ++ tr) := by
  cases hd with
  | next hh hc =>
    rw [show s.obs .host = [] by simp only [St.obs, hh]]
    exact h.move (by simp [hh]) (by simp) (by simp) (fun _ => hc) (by simp [Host.answering])
      (by simp [Host.taken])
  | takeNone hh hl =>
    rw [show s.obs .host = [] by simp [St.obs, hh, hl]]
    exact h.rest (by simp [hh]) (by simp)
  | @take e list hh hl =>
    rw [show s.obs .host = [.transmit e] by simp [St.obs, hh, hl]]
    exact h.take hn hh hl
  | ackNone hh hnone =>
    rw [show s.obs .host = [] by simp only [St.obs, hh]]
    exact h.move (by simp [hh]) (by simp) (by simp) (by simp [Host.sending])
      (fun _ => by simp [hh, Host.answering]) fun _ => hnone
  | ackSome hh hsome =>
    rw [show s.obs .host = [] by simp only [St.obs, hh]]
    exact h.move (by simp [hh]) (by simp) (by simp) (by simp [Host.sending])
      (fun _ => by simp [hh, Host.answering]) (by simp [Host.taken])
  | ackTake hh =>
    rw [show s.obs .host = [] by simp only [St.obs, hh]]
    exact h.takeAck hh
  | @ackCall a cb hh =>
    rw [show s.obs .host = [.acked cb s.ackArg s.prevHandle] by simp [St.obs, hh]]
    exact h.callAck hh (by simpa [matched, hh] using hok)
  | complete hh =>
    rw [show s.obs .host = s.curEntry.toList.map .finished by simp only [St.obs, hh]]
    exact h.complete hh
  | failed hh | completed hh | checkNone hh | checkSome hh | kick hh =>
    rw [show s.obs .host = [] by simp only [St.obs, hh]]
    exact h.rest (by simp [hh]) (by simp)

theorem Told.step {l : Label} (h : Told s tr) (hn : Numbered s tr)
    (hd : Does s l s') (hok : matched s l = true) : Told s' (s.obs l ++ tr) := by
  cases l with
  | enqueue t cb =>
    cases hd with
    | noMem => exact h
    | alloc => exact { h with }
  | cancel t handle => cases hok
  | call t => exact h.called hd
  | get => exact h.got hd hok
  | host => exact h.hosted hn hd hok
  | setAckCb cb arg =>
    cases hd with
    | setAckCb hh ha => cases cb <;> exact h.register hh
  | send ogf ocf sent =>
    cases hd with
    | sent hh ho => exact h.send hh ho (opcode_ne_zero ogf ocf)
    | @unsent e r _ _ hh ho =>
      have hr : Told { s with ackCb := none, ackArg := 0, host := .tx e r }
          (.dropped :: tr) := h.register hh
      rw [← hh] at hr
      exact { hr with }
  | ret rc =>
    cases hd with
    | retOk hh => exact h.retOk hh
    | retFail hh hz =>
      have hm : s.ackCb = none ∧ s.outstandingOpcode = 0 := by
        simpa [matched, hh, hz] using hok
      exact h.retFail hh hm.1 hm.2
    | retAck hh =>
      exact h.move (by simp [hh]) (by simp) (by simp) (by simp [Host.sending])
        (fun _ => by simp [hh, Host.answering]) fun _ => h.taken (by simp [hh, Host.taken])
  | ctlr data | expire =>
    cases hd
    exact { h with }

theorem runs_told {slots prevHandle : Nat} (h : Runs matched (.init slots prevHandle) tr s) :
    Told s tr ∧ Numbered s tr := by
  induction h with
  | nil =>
    exact ⟨told_init slots prevHandle, by simp [enqueuedOf], nodup_nil,
      fun t e he => (by cases he), fun t t' e e' he => by cases he⟩
  | step _ hok hs ih =>
    have hd := step_does hs
    exact ⟨ih.1.step ih.2 hd hok, ih.2.step hd⟩

/-- In the runs that `matched` admits at most one command is outstanding, the
slots are transmitted in the order in which they were enqueued, every ack
callback is called once at most, with the handle of its slot, and a slot is
done with when its command was answered or its time was over. -/
theorem acks_go_right {slots prevHandle : Nat}
    (h : Runs matched (.init slots prevHandle) tr s) : Orderly tr :=
  (runs_told h).1.orderly

end Runs

/-- The host task transmits the first slot and sends the command `0x2005`. -/
def transmits : List Label :=
  [.get, .host, .host, .setAckCb (some 1) 0, .send .le 5 true, .ret 0]

/-- The controller sends a command status event for the opcode, and the host
task handles it. -/
def acknowledges (lo hi : UInt8) : List Label :=
  [.ctlr [0x0f, 4, 0, 1, lo, hi], .get, .host, .host, .host, .ret 0, .host, .host]

theorem acks_go_right_one : ∃ tr s, Runs matched (.init 2 0) tr s ∧
    ackedFor tr = [⟨0, 7, 1⟩] ∧ Orderly tr := by
  have h : Runs matched (.init 2 0) _ _ :=
    Runs.follow (enqueues 1 7 ++ transmits ++ acknowledges 5 0x20) .nil rfl
  exact ⟨_, _, h, rfl, acks_go_right h⟩

/-- What `matched` leaves out. The first slot is acknowledged with the handle of
the second, which was enqueued in the meantime; and an event for no operation
ends the slot whose command has the opcode `0x2005`. -/
theorem acks_go_wrong : (∃ tr s, Runs (fun _ _ => true) (.init 2 0) tr s ∧
      ackedFor tr = [⟨0, 7, 1⟩] ∧ .acked 1 0 2 ∈ tr ∧ ¬ AcksRight tr) ∧
    ∃ tr s, Runs (fun _ _ => true) (.init 2 0) tr s ∧
      .finished ⟨0, 7, 1⟩ ∈ tr ∧ opcodeOf tr = some 0x2005 ∧
      cause tr = some (.event 0) ∧ ¬ FinishesRight tr := by
  refine ⟨⟨_, _, Runs.follow (enqueues 1 7 ++ transmits ++
      .enqueue 2 8 :: replicate 3 (.call 2) ++ acknowledges 5 0x20) .nil rfl, rfl, by decide, ?_⟩,
    ⟨_, _, Runs.follow (enqueues 1 7 ++ transmits ++ acknowledges 0 0) .nil rfl,
      by decide, rfl, rfl, ?_⟩⟩
  · intro h
    obtain ⟨⟨e, hr, -, hh⟩, -⟩ := h
    cases hr
    cases hh
  · intro h
    obtain ⟨⟨-, ha⟩, -⟩ := h
    rcases ha with ha | ⟨op, hc, ho⟩
    · cases ha
    · cases hc
      cases ho


end Larva.Ble.HciSched
