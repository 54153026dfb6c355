import Larva.Ble.HciSched

/-!
# The HCI scheduler makes progress

Two things are asked of the scheduler under any interleaving: that none of its
asserts fails, and that a slot on the list is not forgotten. Neither holds of
the code as it is.

* The current slot is set when its transmit callback has returned. A task that
  enqueues a slot while the callback runs finds no current slot and posts a
  wake-up, and the host task handles that wake-up when the slot has become
  current: the assert at the start of `ble_hci_sched_process_next` fails.
* `ble_hci_sched_entry_remove` asserts of a slot that is not the first one that
  the slot before it follows itself, so giving up such a slot fails.
* A transmit callback that fails before it has come to `host_hci_cmd_send`
  leaves its ack callback behind, and the next one cannot register its own.
* A transmit callback that sends nothing and returns zero becomes the current
  slot all the same, and no ack will ever complete it.

`steady` excludes these four, step by step, in terms of the state before the
step. In all runs that it admits, the two properties hold in every state
(`sched_keeps_going`). The invariant is `Inv`: where the host task may be
with and without a current slot, and who is going to wake it.
-/

namespace Larva.Ble.HciSched

/-- A step that does not bring the scheduler into trouble. -/
def steady (s : St) : Label → Bool
  -- A wake-up is posted while no slot is current.
  | .call t => s.calls t ≠ .kick || s.curEntry = none
  -- A slot is given up that is current, or first, or gone.
  | .cancel _ handle =>
    s.curEntry.any (·.handle = handle) || s.list.head?.any (·.handle = handle)
      || s.list.all (·.handle ≠ handle)
  -- A transmit callback registers one ack callback.
  | .setAckCb cb _ =>
    cb = none || match s.host with
      | .tx _ reg => !reg
      | _ => true
  -- It succeeds with its command sent and without a wake-up posted since, and
  -- fails without an ack callback.
  | .ret rc =>
    match s.host with
    | .tx _ _ =>
      if rc = 0 then Ev.kick ∉ s.evq && s.outstandingOpcode ≠ 0
      else s.ackCb = none
    | _ => true
  | _ => true

/-- The call is going to post the wake-up, or to see whether it has to. -/
def Call.posts : Call → Bool
  | .inserted | .kick => true
  | .cancelled _ doKick => doKick
  | _ => false

/-- The host task is handling a wake-up. -/
def Host.waking : Host → Bool
  | .next | .take | .tx _ _ | .failed _ => true
  | _ => false

/-- The host task is handling an ack, and has not completed the slot. -/
def Host.answering : Host → Bool
  | .ack _ | .ackTake _ | .ackCall _ _ | .acking | .complete => true
  | _ => false

/-- The host task has completed a slot, and has not posted the wake-up. -/
def Host.completing : Host → Bool
  | .completed _ | .check | .kick => true
  | _ => false

/-- The ack callback has been taken. -/
def Host.taken : Host → Bool
  | .ackCall _ _ | .acking | .complete => true
  | _ => false

/-- Someone is going to see to the slots of the list. -/
def Woken (s : St) : Prop :=
  s.curEntry ≠ none ∨ Ev.kick ∈ s.evq ∨ s.host.waking = true ∨
    s.host.answering = true ∨ s.host.completing = true ∨ ∃ t, (s.calls t).posts = true

structure Inv (s : St) : Prop where
  waking : s.host.waking = true → s.curEntry = none
  completing : s.host.completing = true → s.curEntry = none
  kicked : Ev.kick ∈ s.evq → s.curEntry = none
  acks : s.ackCb ≠ none → s.curEntry ≠ none ∨ ∃ e, s.host = .tx e true
  taken : s.host.taken = true → s.ackCb = none
  sent : s.curEntry ≠ none → s.outstandingOpcode ≠ 0 ∨ s.host.answering = true
  woken : s.list ≠ [] → Woken s

theorem inv_init (slots prevHandle : Nat) : Inv (.init slots prevHandle) where
  waking _ := rfl
  completing _ := rfl
  kicked _ := rfl
  acks h := (h rfl).elim
  taken _ := rfl
  sent h := (h rfl).elim
  woken h := (h rfl).elim

section Steps

variable {s s' : St} {t : Nat} {c : Call}

theorem mem_putKick {evq : List Ev} : Ev.kick ∈ putKick evq := by
  unfold putKick
  split
  · next h => exact h
  · exact List.mem_append_right _ (List.mem_singleton_self _)

theorem Woken.setCall (h : Woken s) (hc : (s.calls t).posts = true → c.posts = true) :
    Woken (s.setCall t c) := by
  rcases h with h | h | h | h | h | ⟨t', h⟩
  · exact .inl h
  · exact .inr (.inl h)
  · exact .inr (.inr (.inl h))
  · exact .inr (.inr (.inr (.inl h)))
  · exact .inr (.inr (.inr (.inr (.inl h))))
  · refine .inr (.inr (.inr (.inr (.inr ⟨t', ?_⟩))))
    by_cases ht : t' = t
    · subst ht
      simpa [St.setCall] using hc h
    · simpa [St.setCall, ht] using h

theorem woken_posts (hc : c.posts = true) :
    Woken (s.setCall t c) :=
  .inr (.inr (.inr (.inr (.inr ⟨t, by simpa [St.setCall] using hc⟩))))

/-- A step that leaves the host task where it is, with what only the host task
and cancelling change. -/
theorem Inv.call (h : Inv s) (hhost : s'.host = s.host)
    (hcur : s'.curEntry = s.curEntry) (hack : s'.ackCb = s.ackCb)
    (hout : s'.outstandingOpcode = s.outstandingOpcode)
    (hkick : Ev.kick ∈ s'.evq → s.curEntry = none) (hwoken : s'.list ≠ [] → Woken s') : Inv s' where
  waking hw := by
    rw [hcur]
    exact h.waking (hhost ▸ hw)
  completing hw := by
    rw [hcur]
    exact h.completing (hhost ▸ hw)
  kicked hk := by
    rw [hcur]
    exact hkick hk
  acks ha := by
    rw [hcur, hhost]
    exact h.acks (hack ▸ ha)
  taken ht := by
    rw [hack]
    exact h.taken (hhost ▸ ht)
  sent hc := by
    rw [hout, hhost]
    exact h.sent (hcur ▸ hc)
  woken := hwoken

theorem Inv.ackCb_eq (h : Inv s) (hc : s.curEntry = none)
    (hh : ∀ e, s.host ≠ .tx e true) : s.ackCb = none := by
  by_contra ha
  rcases h.acks ha with hn | ⟨e, he⟩
  · exact hn hc
  · exact hh e he

/-! The host task is in one of four places, and each asks for other fields. -/

theorem inv_waking (hw : s.host.waking = true) (hc : s.curEntry = none)
    (ha : s.ackCb ≠ none → ∃ e, s.host = .tx e true) : Inv s where
  waking _ := hc
  completing _ := hc
  kicked _ := hc
  acks h := .inr (ha h)
  taken h := by
    cases hh : s.host <;> simp [hh, Host.taken, Host.waking] at h hw
  sent h := (h hc).elim
  woken _ := .inr (.inr (.inl hw))

theorem inv_answering (hw : s.host.answering = true) (hk : Ev.kick ∈ s.evq → s.curEntry = none)
    (ha : s.ackCb ≠ none → s.curEntry ≠ none)
    (ht : s.host.taken = true → s.ackCb = none) : Inv s where
  waking h := by
    cases hh : s.host <;> simp [hh, Host.answering, Host.waking] at h hw
  completing h := by
    cases hh : s.host <;> simp [hh, Host.answering, Host.completing] at h hw
  kicked := hk
  acks h := .inl (ha h)
  taken := ht
  sent _ := .inr hw
  woken _ := .inr (.inr (.inr (.inl hw)))

theorem inv_completing (hw : s.host.completing = true)
    (hc : s.curEntry = none) (ha : s.ackCb = none) : Inv s where
  waking _ := hc
  completing _ := hc
  kicked _ := hc
  acks h := (h ha).elim
  taken _ := ha
  sent h := (h hc).elim
  woken _ := .inr (.inr (.inr (.inr (.inl hw))))

theorem inv_idle (hc : s.curEntry = none) (ha : s.ackCb = none)
    (hw : s.list ≠ [] → Woken s) : Inv s where
  waking _ := hc
  completing _ := hc
  kicked _ := hc
  acks h := (h ha).elim
  taken _ := ha
  sent h := (h hc).elim
  woken := hw

theorem call_of_mayCall (h : s.mayCall t = true) : s.calls t = .none := by
  simp only [St.mayCall, Bool.and_eq_true, decide_eq_true_eq] at h
  exact h.1

theorem entryRemove_ne {e : Entry} {prev : Option Entry}
    {l l' : List Entry} (h : entryRemove e prev l = .ok l') (hl : l' ≠ []) : l ≠ [] := by
  rintro rfl
  unfold entryRemove at h
  split at h
  · split at h
    · cases h
      exact hl rfl
    · cases h
  · split at h
    · cases h
      exact hl rfl
    · cases h

section

variable (h : Inv s) {t : Nat}
include h

theorem Inv.enqueued {cb : Nat} (hd : Does s (.enqueue t cb) s') : Inv s' := by
  cases hd with
  | noMem => exact h
  | alloc hm hf =>
    refine h.call rfl rfl rfl rfl h.kicked fun hl => ?_
    refine Woken.setCall (h.woken hl) fun hp => ?_
    rw [call_of_mayCall hm] at hp
    cases hp

theorem Inv.cancelled {handle : Nat} (hd : Does s (.cancel t handle) s') : Inv s' := by
  have hidle : ∀ {c : Call}, s.mayCall t = true → (s.calls t).posts = true → c.posts = true := by
    intro c hm hp
    rw [call_of_mayCall hm] at hp
    cases hp
  cases hd with
  | cancelCur hm hc =>
    refine ⟨fun _ => rfl, fun _ => rfl, fun _ => rfl, fun ha => (ha rfl).elim,
      fun _ => rfl, fun hn => (hn rfl).elim, fun hl => woken_posts ?_⟩
    have hne : s.list ≠ [] := hl
    simpa [Call.posts] using hne
  | cancelNone hm hf =>
    exact h.call rfl rfl rfl rfl h.kicked fun hl =>
      (h.woken hl).setCall (hidle hm)
  | cancelSome hm hf hr =>
    exact h.call rfl rfl rfl rfl h.kicked fun hl =>
      Woken.setCall (h.woken (entryRemove_ne hr hl)) (hidle hm)

theorem Inv.called (hd : Does s (.call t) s') (hok : steady s (.call t) = true) : Inv s' := by
  cases hd with
  | number hc =>
    refine h.call rfl rfl rfl rfl h.kicked fun hl => ?_
    refine Woken.setCall (h.woken hl) fun hp => ?_
    rw [hc] at hp
    cases hp
  | insert hc => exact h.call rfl rfl rfl rfl h.kicked fun _ => woken_posts rfl
  | busy hc hn =>
    exact h.call rfl rfl rfl rfl h.kicked fun _ => .inl hn
  | unbusy hc hn =>
    exact h.call rfl rfl rfl rfl h.kicked fun _ => woken_posts rfl
  | post hc =>
    have hcur : s.curEntry = none := by simpa [steady, hc] using hok
    exact h.call rfl rfl rfl rfl (fun _ => hcur) fun _ =>
      .inr (.inl mem_putKick)
  | @cancelled _ e doKick hc =>
    refine h.call rfl rfl rfl rfl h.kicked fun hl => ?_
    refine Woken.setCall (h.woken hl) fun hp => ?_
    rw [hc] at hp
    have hk : doKick = true := hp
    rw [hk]
    rfl

theorem Inv.got (hd : Does s .get s') : Inv s' := by
  have hset : s.host = .idle → s.ackCb ≠ none → s.curEntry ≠ none := by
    intro hh ha
    refine (h.acks ha).resolve_right fun hx => ?_
    obtain ⟨e, he⟩ := hx
    rw [hh] at he
    cases he
  have hkick : ∀ {ev evq}, s.evq = ev :: evq → Ev.kick ∈ evq → s.curEntry = none := fun he hk =>
    h.kicked (he ▸ List.mem_cons_of_mem _ hk)
  -- An event that the scheduler does not see is taken off the queue.
  have hskip : ∀ {data evq}, s.evq = .ctlr data :: evq → Inv { s with evq := evq } := by
    intro data evq he
    refine h.call rfl rfl rfl rfl (hkick he) fun hl => ?_
    rcases h.woken hl with hw | hw | hw
    · exact .inl hw
    · rw [he] at hw
      exact .inr (.inl ((List.mem_cons.mp hw).resolve_left (by simp)))
    · exact .inr (.inr hw)
  cases hd with
  | getKick hh he =>
    have hc : s.curEntry = none := h.kicked (by simp [he])
    refine inv_waking rfl hc fun ha => (ha ?_).elim
    exact h.ackCb_eq hc (by simp [hh])
  | getOther hh he ha => exact hskip he
  | getStale hh he ha h0 hs => exact hskip he
  | getAck hh he ha ho =>
    refine inv_answering rfl (fun hk => hkick he ?_) (hset hh) ?_
    · exact List.mem_of_mem_filter hk
    · intro ht
      cases ht
  | getNop hh he ha h0 ho =>
    refine inv_answering rfl (hkick he) (hset hh) ?_
    intro ht
    cases ht
  | getTimer hh he ho =>
    refine inv_answering rfl (hkick he) (hset hh) ?_
    intro ht
    cases ht

theorem Inv.hosted (hd : Does s .host s') : Inv s' := by
  have hfree : s.curEntry = none → (∀ e, s.host ≠ .tx e true) → s.ackCb = none := h.ackCb_eq
  cases hd with
  | next hh hc =>
    refine inv_waking rfl hc fun ha => (ha (hfree hc ?_)).elim
    simp [hh]
  | takeNone hh hl =>
    have hc := h.waking (by simp [hh, Host.waking])
    exact inv_idle hc (hfree hc (by simp [hh])) fun hn => (hn hl).elim
  | take hh hl =>
    have hc := h.waking (by simp [hh, Host.waking])
    refine inv_waking rfl hc fun ha => (ha (hfree hc ?_)).elim
    simp [hh]
  | failed hh =>
    have hc := h.waking (by simp [hh, Host.waking])
    refine inv_waking rfl hc fun ha => (ha (hfree hc ?_)).elim
    simp [hh]
  | ackNone hh hn =>
    exact inv_answering rfl h.kicked (fun ha => (ha hn).elim) fun _ => hn
  | ackSome hh hn =>
    refine inv_answering rfl h.kicked (fun ha hc => ?_) (fun ht => ?_)
    · exact ha (hfree hc (by simp [hh]))
    · cases ht
  | ackTake hh =>
    exact inv_answering rfl h.kicked (fun ha => (ha rfl).elim) fun _ => rfl
  | ackCall hh =>
    have ha := h.taken (by simp [hh, Host.taken])
    exact inv_answering rfl h.kicked (fun hn => (hn ha).elim) fun _ => ha
  | complete hh =>
    exact inv_completing rfl rfl (h.taken (by simp [hh, Host.taken]))
  | completed hh =>
    have hc := h.completing (by simp [hh, Host.completing])
    exact inv_completing rfl hc (hfree hc (by simp [hh]))
  | checkNone hh hl =>
    have hc := h.completing (by simp [hh, Host.completing])
    exact inv_idle hc (hfree hc (by simp [hh])) fun hn => (hn hl).elim
  | checkSome hh hl =>
    have hc := h.completing (by simp [hh, Host.completing])
    exact inv_completing rfl hc (hfree hc (by simp [hh]))
  | kick hh =>
    have hc := h.completing (by simp [hh, Host.completing])
    exact inv_idle hc (hfree hc (by simp [hh])) fun _ =>
      .inr (.inl mem_putKick)

theorem Inv.append {ev : Ev} (he : ev ≠ .kick) : Inv { s with evq := s.evq ++ [ev] } := by
  refine h.call rfl rfl rfl rfl (fun hk => h.kicked ?_) fun hl => ?_
  · exact (List.mem_append.mp hk).resolve_right fun hk =>
      he (List.mem_singleton.mp hk).symm
  · rcases h.woken hl with hw | hw | hw
    · exact .inl hw
    · exact .inr (.inl (List.mem_append_left _ hw))
    · exact .inr (.inr hw)

theorem Inv.kept {l : Label} (hd : Does s l s') (hok : steady s l = true) : Inv s' := by
  cases l with
  | enqueue t cb => exact h.enqueued hd
  | cancel t handle => exact h.cancelled hd
  | call t => exact h.called hd hok
  | get => exact h.got hd
  | host => exact h.hosted hd
  | setAckCb cb arg =>
    cases hd with
    | @setAckCb e reg _ _ hh ha =>
      refine inv_waking rfl (h.waking (by simp [hh, Host.waking])) ?_
      intro hcb
      exact ⟨e, by simp [Option.isSome_iff_ne_none.mpr hcb]⟩
  | send ogf ocf sent =>
    cases hd with
    | sent hh ho =>
      have hw : s.host.waking = true := by simp [hh, Host.waking]
      have hc := h.waking hw
      exact inv_waking hw hc fun ha => (h.acks ha).resolve_left fun hn => hn hc
    | unsent hh ho =>
      have hw : s.host.waking = true := by simp [hh, Host.waking]
      exact inv_waking hw (h.waking hw) fun ha => (ha rfl).elim
  | ret rc =>
    cases hd with
    | @retOk e reg hh =>
      simp [steady, hh] at hok
      exact {
        waking := fun hw => by cases hw
        completing := fun hw => by cases hw
        kicked := fun hk => (hok.1 hk).elim
        acks := fun _ => .inl (by simp)
        taken := fun ht => by cases ht
        sent := fun _ => .inl hok.2
        woken := fun _ => .inl (by simp) }
    | @retFail e reg _ hh hz =>
      simp [steady, hh, hz] at hok
      refine inv_waking rfl (h.waking (by simp [hh, Host.waking])) ?_
      exact fun ha => (ha hok).elim
    | retAck hh =>
      have ha := h.taken (by simp [hh, Host.taken])
      exact inv_answering rfl h.kicked (fun hn => (hn ha).elim) fun _ => ha
  | ctlr data =>
    cases hd
    exact h.append (by simp)
  | expire =>
    cases hd
    exact h.append (by simp)

end

theorem runs_inv {slots prevHandle : Nat} {tr : List Obs}
    (h : Runs steady (.init slots prevHandle) tr s) : Inv s := by
  induction h with
  | nil => exact inv_init slots prevHandle
  | step _ hok hs ih => exact ih.kept (step_does hs) hok

end Steps

/-! ## Asserts -/

section Asserts

variable {s : St} {a : Assert} {handle : Nat}

theorem find_of_all {l : List Entry} (h : ∀ e ∈ l, e.handle ≠ handle) :
    ∀ prev, find handle prev l = none := by
  induction l with
  | nil =>
    intro prev
    rfl
  | cons x l ih =>
    intro prev
    rw [find, if_neg (h x List.mem_cons_self)]
    exact ih (fun e he => h e (List.mem_cons_of_mem _ he)) _

theorem cancel_safe {t : Nat} (hok : steady s (.cancel t handle) = true) :
    s.cancel t handle ≠ .fails a := by
  intro hf
  unfold St.cancel at hf
  split at hf
  · cases hf
  · next hc =>
    simp only [steady, Bool.or_eq_true, List.all_eq_true, decide_eq_true_eq] at hok
    rcases hok with (hcur | hhead) | hall
    · cases he : s.curEntry with
      | none => simp [he] at hcur
      | some e => exact hc (by simpa [he] using hcur)
    · cases hl : s.list with
      | nil => simp [hl] at hhead
      | cons e l =>
        have hh : e.handle = handle := by simpa [hl] using hhead
        simp [hl, find, hh, entryRemove] at hf
    · rw [find_of_all hall] at hf
      cases hf

theorem getEvent_fails (h : s.getEvent = some (.fails a)) : a = .noneInFlight := by
  unfold St.getEvent at h
  split at h
  · cases h
  · cases h
  · split at h
    · cases h
    · cases h
  · unfold St.timerExp at h
    split at h
    · cases h
      rfl
    · cases h

theorem Inv.goHost_fails (hi : Inv s) (h : s.goHost = some (.fails a)) : a = .nullCall := by
  unfold St.goHost at h
  split at h
  case h_4 hh =>
      rw [if_pos (hi.waking (by simp [hh, Host.waking]))] at h
      cases h
  case h_5 =>
      split at h
      · cases h
      · cases h
  case h_7 =>
      split at h
      · cases h
      · cases h
  case h_9 =>
      split at h
      · cases h
        rfl
      · cases h
  all_goals cases h

theorem Inv.setAckCb_safe (hi : Inv s) {cb : Option Nat} {arg : Nat}
    (hx : s.inTx = true) (hok : steady s (.setAckCb cb arg) = true) :
    { s with host := s.host.register cb }.setAckCb cb arg ≠ .fails a := by
  obtain ⟨e, reg, hh⟩ := inTx_host hx
  intro hf
  unfold St.setAckCb at hf
  split at hf
  · cases hf
  · next hn =>
    obtain ⟨ha, hcb⟩ := not_or.mp hn
    have hreg : reg = false := by simpa [steady, hh, hcb] using hok
    refine ha (hi.ackCb_eq (hi.waking (by simp [hh, Host.waking])) ?_)
    simp [hh, hreg]

theorem cmdSend_fails {opcode : Nat} {sent : Bool}
    (h : s.cmdSend opcode sent = .fails a) : a = .inFlight := by
  unfold St.cmdSend at h
  split at h
  · cases h
    rfl
  · split at h
    · cases h
    · simp [St.setAckCb] at h

theorem ret_safe {rc : Int} : s.ret rc ≠ some (.fails a) := by
  intro h
  unfold St.ret at h
  split at h
  · split at h
    · cases h
    · cases h
  · cases h
  · cases h

/-- The asserts that fail are not those of the scheduler. -/
theorem Inv.safe {l : Label} (hi : Inv s) (hok : steady s l = true)
    (hf : step l s = some (.fails a)) : a.ofSched = false := by
  cases l with
  | cancel t handle =>
    simp only [step] at hf
    split at hf
    · exact (cancel_safe hok (Option.some.inj hf)).elim
    · cases hf
  | call t =>
    obtain ⟨s1, -, hs⟩ := Option.map_eq_some_iff.mp hf
    cases hs
  | get =>
    simp only [step] at hf
    split at hf
    · rw [getEvent_fails hf]
      rfl
    · cases hf
  | host =>
    rw [hi.goHost_fails hf]
    rfl
  | setAckCb cb arg =>
    simp only [step] at hf
    split at hf
    · next hx => exact (hi.setAckCb_safe hx hok (Option.some.inj hf)).elim
    · cases hf
  | send ogf ocf sent =>
    simp only [step] at hf
    split at hf
    · rw [cmdSend_fails (Option.some.inj hf)]
      rfl
    · cases hf
  | ret rc =>
    simp only [step] at hf
    split at hf
    · exact (ret_safe hf).elim
    · cases hf
  | ctlr data => cases hf
  | enqueue t cb =>
    simp only [step] at hf
    split at hf
    · cases hf
    · cases hf
  | expire =>
    simp only [step] at hf
    split at hf
    · cases hf
    · cases hf

end Asserts

/-! ## Progress -/

/-- A slot on the list with no command outstanding, nobody in the middle of
a call that posts the wake-up and no ack under way: the wake-up is queued, or
is being handled. -/
theorem Inv.progress {s : St} (hi : Inv s) (ho : s.outstandingOpcode = 0)
    (hl : s.list ≠ []) (hcalls : ∀ t, (s.calls t).posts = false)
    (hans : s.host.answering = false) (hcom : s.host.completing = false) :
    Ev.kick ∈ s.evq ∨ s.host.waking = true := by
  rcases hi.woken hl with hc | hk | hw | ha | hcm | ⟨t, ht⟩
  · rcases hi.sent hc with hs | ha
    · exact (hs ho).elim
    · rw [hans] at ha
      cases ha
  · exact .inl hk
  · exact .inr hw
  · rw [hans] at ha
    cases ha
  · rw [hcom] at hcm
    cases hcm
  · rw [hcalls t] at ht
    cases ht

/-- In a run of steady steps no assert of the scheduler fails, and a slot on
the list has a wake-up coming. -/
theorem sched_keeps_going {slots prevHandle : Nat} {tr : List Obs} {s : St}
    (h : Runs steady (.init slots prevHandle) tr s) :
    (∀ l a, steady s l = true → step l s = some (.fails a) → a.ofSched = false) ∧
    (s.outstandingOpcode = 0 → s.list ≠ [] →
      (∀ t, (s.calls t).posts = false) → s.host.answering = false → s.host.completing = false →
      Ev.kick ∈ s.evq ∨ s.host.waking = true) :=
  ⟨fun _ _ hok hf => (runs_inv h).safe hok hf, (runs_inv h).progress⟩

/-- Task `t` enqueues a slot, and posts the wake-up. -/
def enqueues (t txCb : Nat) : List Label :=
  .enqueue t txCb :: List.replicate 4 (.call t)

theorem sched_keeps_going_enqueued : ∃ tr s, Runs steady (.init 2 0) tr s ∧ s.list ≠ [] ∧
    (Ev.kick ∈ s.evq ∨ s.host.waking = true) ∧
    ∀ l a, steady s l = true → step l s = some (.fails a) → a.ofSched = false := by
  have h : Runs steady (.init 2 0) _ _ :=
    Runs.follow (enqueues 1 7) .nil rfl
  refine ⟨_, _, h, ?_, (sched_keeps_going h).2 rfl ?_ ?_ rfl rfl, (sched_keeps_going h).1⟩
  · intro hl
    cases hl
  · intro hl
    cases hl
  · intro t
    simp [St.setCall, St.enqueue, St.init, Call.posts]

/-- What `steady` leaves out. A slot enqueued while a transmit callback runs,
a slot given up that is second on the list, and a transmit callback that fails
with its ack callback registered make an assert fail. A transmit callback that
returns zero with nothing sent leaves the slots behind it on the list. -/
theorem sched_gets_stuck : (∃ tr s, Runs (fun _ _ => true) (.init 2 0) tr s ∧
      step .host s = some (.fails .curEntry)) ∧ (∃ tr s, Runs (fun _ _ => true) (.init 2 0) tr s ∧
      step (.cancel 1 2) s = some (.fails .nextOfPrev)) ∧
    (∃ tr s, Runs (fun _ _ => true) (.init 2 0) tr s ∧
      step (.setAckCb (some 2) 0) s = some (.fails .ackCb)) ∧
    ∃ tr s, Runs (fun _ _ => true) (.init 2 0) tr s ∧ s.outstandingOpcode = 0 ∧ s.list ≠ [] ∧
      (∀ t, (s.calls t).posts = false) ∧ s.host = .idle ∧ Ev.kick ∉ s.evq := by
  refine ⟨⟨_, _, Runs.follow (enqueues 1 7 ++ [.get, .host, .host,
      .setAckCb (some 1) 0, .send .le 5 true] ++ enqueues 2 8 ++ [.ret 0, .get]) .nil rfl, rfl⟩,
    ⟨_, _, Runs.follow (enqueues 1 7 ++ enqueues 2 8) .nil rfl, rfl⟩,
    ⟨_, _, Runs.follow (enqueues 1 7 ++ enqueues 2 8 ++ [.get, .host, .host,
      .setAckCb (some 1) 0, .ret 1, .host, .host, .host]) .nil rfl, rfl⟩,
    ⟨_, _, Runs.follow (enqueues 1 7 ++ enqueues 2 8 ++ [.get, .host, .host,
      .setAckCb (some 1) 0, .send .le 5 false, .ret 0]) .nil rfl, rfl, ?_, ?_, rfl, ?_⟩⟩
  · intro hl
    cases hl
  · intro t
    simp [St.setCall, St.enqueue, St.init, Call.posts]
  · decide

end Larva.Ble.HciSched
