import Larva.Lib.STailQ

/-!
# Cancelling an HCI slot

The list of waiting slots as `ble_hci_sched.c` keeps it: a singly linked queue
whose elements are blocks of a pool, with the address of its end kept apart.
`ble_hci_sched_cancel` looks for the slot with a handle, first the one in
progress and then along the list with the slot before it in hand, unlinks it
and gives its block back.

Only the first slot of the list can be unlinked. For a later one
`ble_hci_sched_entry_remove` asserts that the slot before it is linked to
itself, where it should be linked to the slot to remove, and then assigns the
link to itself. In a list that ends no slot is linked to itself, so this
assert always fails.

The functions run under the scheduler's mutex, and a block that the pool has
given out is one that it takes back.
-/

namespace Larva.Ble.HciCancel

open STailQ SList Function List

/-- A slot is known by the address of its block. -/
structure St where
  list : STailQ Unit Nat
  handle : Nat → Nat
  curEntry : Option Nat
  ackCb : Option Nat
  ackArg : Nat
  /-- The number of blocks of the pool. -/
  slots : Nat
  /-- The blocks that were given back, the last one first. -/
  freed : List Nat
  /-- How often the host task was woken. -/
  kicks : Nat

def bleHsEnoent : Nat := 5

namespace St

/-- `ble_hci_sched_entry_remove`; `none` when an assert fails. -/
def entryRemove (s : St) (entry : Nat) : Option Nat → Option St
  | none =>
    if s.list.first () = some entry then
      some { s with list := s.list.removeHead () entry }
    else none
  | some prev =>
    if s.list.next prev = some prev then
      some { s with list := s.list.write (.next prev) (s.list.next prev) }
    else none

/-- The loop of `ble_hci_sched_cancel` over the slots it visits: the slot it
stops at, and the state then. -/
def cancelLoop (s : St) (handle : Nat) (prev : Option Nat) : List Nat → Option (Option Nat × St)
  | [] => some (none, s)
  | entry :: rest =>
    if s.handle entry = handle then (s.entryRemove entry prev).map fun s => (some entry, s)
    else s.cancelLoop handle (some entry) rest

/-- The locked section: the slot found, and whether to wake the host task. A
list that ends has no more slots than the pool. -/
def cancelLocked (s : St) (handle : Nat) : Option (Option Nat × Bool × St) :=
  if s.curEntry.map s.handle = some handle then
    some (s.curEntry, (s.list.first ()).isSome,
      { s with curEntry := none, ackCb := none, ackArg := 0 })
  else
    (s.cancelLoop handle none (toList s.list.next s.slots (s.list.first ()))).map fun r =>
      (r.1, false, r.2)

/-- `ble_hci_sched_cancel`: the return code and the state. -/
def cancel (s : St) (handle : Nat) : Option (Nat × St) :=
  (s.cancelLocked handle).map fun r =>
    (if r.1 = none then bleHsEnoent else 0,
      { r.2.2 with
        freed := r.1.toList ++ r.2.2.freed
        kicks := if r.2.1 then r.2.2.kicks + 1 else r.2.2.kicks })

/-- The list holds `l`, and its address of the end is right. -/
def Holds (s : St) (l : List Nat) : Prop :=
  Lists s.list (fun _ => l) ∧ Sound s.list (fun _ => l) ()

/-- The slots with a handle, in progress or waiting. -/
def found (s : St) (l : List Nat) (handle : Nat) : List Nat :=
  (s.curEntry.toList ++ l).filter fun e => s.handle e = handle

/-- What cancelling should do: exactly the slots with the handle are gone and
given back, an error is returned and nothing changed when there are none, and
a slot that is added afterwards is found at the end of the list. -/
structure Cancelled (s : St) (l : List Nat) (handle rc : Nat) (s' : St) : Prop where
  rc : rc = if s.found l handle = [] then bleHsEnoent else 0
  none : s.found l handle = [] → s' = s
  freed : s'.freed = s.found l handle ++ s.freed
  current : s'.curEntry = s.curEntry.filter fun e => s.handle e ≠ handle
  holds : s'.Holds (l.filter fun e => s.handle e ≠ handle)
  added : ∀ a ∉ l, { s' with list := s'.list.insertTail () a }.Holds
    ((l.filter fun e => s.handle e ≠ handle) ++ [a])

end St

variable {s s' : St} {l : List Nat} {handle rc prev e : Nat}

/-! ## The loop -/

theorem St.Holds.insertTail {a : Nat} (h : s.Holds l) (ha : a ∉ l) :
    { s with list := s.list.insertTail () a }.Holds (l ++ [a]) := by
  have hl := h.1.insertTail h.2 fun _ => ha
  have hs := sound_insertTail (q := s.list) (c := fun _ => l) (k := ()) (a := a)
  rw [update_eq_const_of_subsingleton] at hl hs
  exact ⟨hl, hs⟩

theorem cancelLoop_none {p : Option Nat} (h : handle ∉ l.map s.handle) :
    s.cancelLoop handle p l = some (none, s) := by
  induction l generalizing p with
  | nil => rfl
  | cons e l ih =>
    rw [map_cons, mem_cons, not_or] at h
    rw [St.cancelLoop, if_neg (Ne.symm h.1), ih h.2]

/-- A slot that has another before it is never removed. -/
theorem cancelLoop_later (hl : Linked s.list.next (s.list.next prev) l) (hp : prev ∉ l)
    (h : handle ∈ l.map s.handle) : s.cancelLoop handle (some prev) l = none := by
  induction l generalizing prev with
  | nil => cases h
  | cons e l ih =>
    rw [St.cancelLoop]
    split
    · have hne : ¬s.list.next prev = some prev := by
        rw [hl.1]
        rintro ⟨⟩
        exact hp mem_cons_self
      rw [St.entryRemove, if_neg hne]
      rfl
    · next hneq =>
      have hnodup : (e :: l).Nodup := hl.nodup
      rcases List.mem_cons.mp h with h | h
      · exact absurd h.symm hneq
      · exact ih hl.2 (List.nodup_cons.mp hnodup).1 h

/-! ## Cancelling -/

theorem St.Holds.removeHead (h : s.Holds (e :: l)) :
    { s with list := s.list.removeHead () e }.Holds l := by
  have hl := h.1.removeHead (k := ()) rfl
  have hs := h.1.sound_removeHead h.2 rfl
  rw [update_eq_const_of_subsingleton] at hl hs
  exact ⟨hl, hs⟩

theorem St.cancelLocked_loop (h : s.Holds l) (hn : l.length ≤ s.slots)
    (hc : s.curEntry.map s.handle ≠ some handle) :
    s.cancelLocked handle = (s.cancelLoop handle none l).map fun r => (r.1, false, r.2) := by
  rw [cancelLocked, if_neg hc, (h.1.linked ()).toList_eq hn]

/-- No slot of the list has the handle. -/
theorem filter_handle (h : handle ∉ l.map s.handle) :
    (l.filter fun e => s.handle e = handle) = [] ∧ (l.filter fun e => s.handle e ≠ handle) = l := by
  have hl : ∀ e ∈ l, s.handle e ≠ handle := fun e he hh => h (hh ▸ mem_map_of_mem he)
  exact ⟨by simpa using hl, by simpa using hl⟩

/-- The slot in progress has another handle. -/
theorem current_other (hc : s.curEntry.map s.handle ≠ some handle) :
    s.found l handle = (l.filter fun e => s.handle e = handle) ∧
      s.curEntry = s.curEntry.filter fun e => s.handle e ≠ handle := by
  cases he : s.curEntry with
  | none => simp [St.found, he]
  | some e =>
    rw [he, Option.map_some, ne_eq, Option.some.injEq] at hc
    simp [St.found, he, hc, Option.filter]

/-- What is left to see of a locked section that has found the right slot. -/
theorem cancels_of_locked {x : Option Nat} {doKick : Bool}
    (hloc : s.cancelLocked handle = some (x, doKick, s')) (hx : s.found l handle = x.toList)
    (hnone : x = none → s' = s ∧ doKick = false) (hfreed : s'.freed = s.freed)
    (hcur : s'.curEntry = s.curEntry.filter fun e => s.handle e ≠ handle)
    (h : s'.Holds (l.filter fun e => s.handle e ≠ handle)) :
    ∃ rc s', s.cancel handle = some (rc, s') ∧ s.Cancelled l handle rc s' := by
  simp only [St.cancel, hloc, Option.map_some]
  refine ⟨_, _, rfl, ?_, ?_, ?_, hcur, h, ?_⟩
  · cases x <;> simp [hx]
  · intro hnil
    cases x with
    | none =>
      obtain ⟨rfl, rfl⟩ := hnone rfl
      rfl
    | some e => cases hx.symm.trans hnil
  · rw [hx, hfreed]
  · exact fun a ha => h.insertTail fun hm => ha (mem_of_mem_filter hm)

/-- A slot is cancelled if it is in progress or the first that waits, and a
handle is rejected if no slot has it. -/
theorem cancel_iff (h : s.Holds l) (hd : ((s.curEntry.toList ++ l).map s.handle).Nodup)
    (hn : l.length ≤ s.slots) :
    (∃ rc s', s.cancel handle = some (rc, s') ∧ s.Cancelled l handle rc s') ↔
      s.curEntry.map s.handle = some handle ∨ handle ∉ l.tail.map s.handle := by
  by_cases hc : s.curEntry.map s.handle = some handle
  · refine iff_of_true ?_ (.inl hc)
    obtain ⟨e, he, rfl⟩ := Option.map_eq_some_iff.mp hc
    rw [he] at hd
    have hl : s.handle e ∉ l.map s.handle := (List.nodup_cons.mp hd).1
    obtain ⟨h1, h2⟩ := filter_handle hl
    refine cancels_of_locked (if_pos hc) ?_ ?_ rfl ?_ ?_
    · simp [St.found, he, h1]
    · simp [he]
    · simp [he, Option.filter]
    · rw [h2]
      exact h
  have hloc := St.cancelLocked_loop h hn hc
  obtain ⟨hf, hcur⟩ := current_other (l := l) hc
  rw [List.map_append] at hd
  cases l with
  | nil =>
    refine iff_of_true ?_ (.inr List.not_mem_nil)
    exact cancels_of_locked hloc hf (fun _ => ⟨rfl, rfl⟩) rfl hcur h
  | cons e l =>
    have hel := (List.nodup_cons.mp hd.of_append_right).1
    rw [St.cancelLoop] at hloc
    split at hloc
    · next he =>
      -- The first slot that waits.
      subst he
      obtain ⟨h1, h2⟩ := filter_handle hel
      refine iff_of_true ?_ (.inr hel)
      rw [St.entryRemove, if_pos (h.1.linked ()).1] at hloc
      refine cancels_of_locked hloc ?_ (fun hn => nomatch hn) rfl hcur ?_
      · simp [hf, h1]
      · rw [List.filter_cons_of_neg (by simp), h2]
        exact h.removeHead
    · next he =>
      by_cases hm : handle ∈ l.map s.handle
      · have hl := h.1.linked ()
        rw [cancelLoop_later hl.2 (List.nodup_cons.mp hl.nodup).1 hm] at hloc
        refine iff_of_false ?_ ?_
        · rintro ⟨rc, s', hr, -⟩
          simp [St.cancel, hloc] at hr
        · exact not_or.mpr ⟨hc, not_not.mpr hm⟩
      · rw [cancelLoop_none hm] at hloc
        have hm' : handle ∉ (e :: l).map s.handle :=
          List.not_mem_cons_of_ne_of_not_mem (Ne.symm he) hm
        obtain ⟨h1, h2⟩ := filter_handle hm'
        refine iff_of_true ?_ (.inr hm)
        exact cancels_of_locked hloc (hf.trans h1) (fun _ => ⟨rfl, rfl⟩) rfl hcur (h2.symm ▸ h)

/-- Two slots wait in the blocks 1 and 2, with the handles 11 and 12. -/
def twoSlots : St where
  list := ⟨fun _ => some 1, fun _ => .next 2, fun a => if a = 1 then some 2 else none⟩
  handle := fun a => a + 10
  curEntry := none
  ackCb := none
  ackArg := 0
  slots := 4
  freed := []
  kicks := 0

theorem holds_twoSlots : twoSlots.Holds [1, 2] :=
  ⟨⟨fun _ => ⟨rfl, rfl, rfl⟩, fun _ _ _ _ _ => rfl⟩, rfl⟩

theorem cancel_iff_first :
    ∃ rc s', twoSlots.cancel 11 = some (rc, s') ∧ twoSlots.Cancelled [1, 2] 11 rc s' :=
  (cancel_iff holds_twoSlots (by decide) (by decide)).mpr (.inr (by decide))

/-- The second of the two slots cannot be cancelled. -/
theorem cancel_second_asserts :
    twoSlots.Holds [1, 2] ∧ ([1, 2].map twoSlots.handle).Nodup ∧ twoSlots.cancel 12 = none :=
  ⟨holds_twoSlots, by decide, rfl⟩

end Larva.Ble.HciCancel
