import Larva.Boot.Model
import Larva.Lib.Bytes

/-!
# Writing the status file

`Model` takes a write of `/boot/status` for one operation of the file system.
`boot_write_status` makes four: it opens the file for truncation, which
unlinks it and creates an empty one in its place, it writes the lengths, it
writes the entries, and it closes the file. Here the file is its bytes, and
the supply may drop out behind each of the four.

`boot_read_status` asks for the lengths and for an entry of every area. So a
reset behind the first operation, or behind the second when there are
entries, leaves neither the old status nor the new one. `status_write_iff`
says of every cut whether it is survived.
-/

namespace Larva.Boot.StatusWrite

open Larva.Crash Larva.Bytes List

/-! ## The file -/

def le32 (n : Nat) : List UInt8 := le16 n ++ le16 (n / 2 ^ 16)

def ofLe32 (l : List UInt8) : Nat := ofLe16 (l.take 2) + 2 ^ 16 * ofLe16 (l.drop 2)

/-- `struct boot_status`. -/
def lengthBytes (f : StatusFile) : List UInt8 := le32 f.bsImg1Length ++ le32 f.bsImg2Length

/-- An array of `struct boot_status_entry`. -/
def entryBytes (es : List BootStatusEntry) : List UInt8 :=
  es.flatMap fun e => [UInt8.ofNat e.bseImageNum, UInt8.ofNat e.bsePartNum]

def ofEntryBytes : List UInt8 → List BootStatusEntry
  | i :: p :: l => ⟨i.toNat, p.toNat⟩ :: ofEntryBytes l
  | _ => []

/-- A status of which every field fits its type. -/
structure Status extends StatusFile where
  fits1 : bsImg1Length < 2 ^ 32
  fits2 : bsImg2Length < 2 ^ 32
  fits : ∀ e ∈ entries, e.bseImageNum < 2 ^ 8 ∧ e.bsePartNum < 2 ^ 8

def bytes (f : StatusFile) : List UInt8 := lengthBytes f ++ entryBytes f.entries

/-- The operations of `boot_write_status`, all of which go through. -/
def bootWriteStatus (f : StatusFile) : Prog (Option (List UInt8)) BootErr Unit := do
  -- `fs_open` for writing and truncation.
  Prog.persist fun _ => some []
  Prog.persist (Option.map (· ++ lengthBytes f))
  Prog.persist (Option.map (· ++ entryBytes f.entries))
  -- `fs_close`.
  Prog.persist id

/-- `boot_read_status`. A read at the end of the file gets fewer bytes. -/
def bootReadStatus (numAreas : Nat) (file : Option (List UInt8)) : Except BootErr StatusFile :=
  match file with
  | none => .error .ebadstatus
  | some b =>
    if (slice b 0 8).length ≠ 8 then .error .ebadstatus
    else if (slice b 8 (numAreas * 2)).length ≠ numAreas * 2 then .error .ebadstatus
    else
      let img1 := statusLength (ofLe32 (slice b 0 4))
      let img2 := statusLength (ofLe32 (slice b 4 4))
      let es := ofEntryBytes (slice b 8 (numAreas * 2))
      if statusEntriesOk img1 img2 es then .ok ⟨img1, img2, es⟩ else .error .ebadstatus

/-- What a run leaves, whether or not it was cut. -/
def left {ε α : Type} (file : Option (List UInt8)) :
    Out (Option (List UInt8)) ε α → Option (List UInt8)
  | .ok _ s _ | .err _ s _ | .cut s => s
  | .abort | .spin => file

/-! ## Reading it back -/

theorem ofLe32_le32 {n : Nat} (h : n < 2 ^ 32) : ofLe32 (le32 n) = n := by
  have h1 := ofLe16_le16 n
  have h2 := ofLe16_le16 (n / 2 ^ 16)
  show ofLe16 (le16 n) + 2 ^ 16 * ofLe16 (le16 (n / 2 ^ 16)) = n
  omega

theorem length_entryBytes (es : List BootStatusEntry) : (entryBytes es).length = es.length * 2 := by
  induction es with
  | nil => rfl
  | cons e es ih =>
    show (entryBytes es).length + 2 = _
    rw [ih, length_cons]
    omega

theorem ofEntryBytes_entryBytes {es : List BootStatusEntry}
    (h : ∀ e ∈ es, e.bseImageNum < 2 ^ 8 ∧ e.bsePartNum < 2 ^ 8) :
    ofEntryBytes (entryBytes es) = es := by
  induction es with
  | nil => rfl
  | cons e es ih =>
    obtain ⟨hi, hp⟩ := h e mem_cons_self
    show ⟨(UInt8.ofNat e.bseImageNum).toNat, (UInt8.ofNat e.bsePartNum).toNat⟩ ::
      ofEntryBytes (entryBytes es) = e :: es
    rw [ih fun e he => h e (mem_cons_of_mem _ he), UInt8.toNat_ofNat_of_lt' hi,
      UInt8.toNat_ofNat_of_lt' hp]

/-- The status as the reader sees it. -/
def asRead (f : StatusFile) : StatusFile :=
  { f with bsImg1Length := statusLength f.bsImg1Length, bsImg2Length := statusLength f.bsImg2Length }

/-- The reader accepts the status. -/
def accepted (f : StatusFile) : Bool :=
  statusEntriesOk (asRead f).bsImg1Length (asRead f).bsImg2Length f.entries

theorem bootReadStatus_bytes (f : Status) :
    bootReadStatus f.entries.length (some (bytes f.toStatusFile)) =
      if accepted f.toStatusFile then .ok (asRead f.toStatusFile) else .error .ebadstatus := by
  have hlen : (slice (bytes f.toStatusFile) 8 (f.entries.length * 2)) = entryBytes f.entries := by
    rw [← length_entryBytes]
    exact take_length
  have h1 := ofLe32_le32 f.fits1
  have h2 := ofLe32_le32 f.fits2
  have hes := ofEntryBytes_entryBytes f.fits
  simp only [bootReadStatus, hlen, length_entryBytes, hes]
  have h8 : (slice (bytes f.toStatusFile) 0 8).length = 8 := rfl
  rw [if_neg (not_not_intro h8), if_neg (by simp)]
  rw [show ofLe32 (slice (bytes f.toStatusFile) 0 4) = f.bsImg1Length from h1,
    show ofLe32 (slice (bytes f.toStatusFile) 4 4) = f.bsImg2Length from h2]
  rfl

/-- A file that ends with the lengths has too few bytes, unless there are no
entries. -/
theorem bootReadStatus_short {b : List UInt8} {n : Nat} (hb : b.length < 8 + n * 2) :
    bootReadStatus n (some b) = .error .ebadstatus := by
  simp only [bootReadStatus]
  split
  · rfl
  · next h8 =>
    rw [if_pos]
    simp only [slice, length_take, length_drop] at h8 ⊢
    omega

/-! ## Cuts -/

/-- The status is read back as the old one or as the new one. -/
def Intact (old new : Status) (file : Option (List UInt8)) : Prop :=
  ∃ f, bootReadStatus new.entries.length file = .ok f ∧
    (f = old.toStatusFile ∨ f = new.toStatusFile)

theorem intact_bytes (old new : Status) : Intact old new (some (bytes new.toStatusFile)) ↔
    accepted new.toStatusFile ∧ (asRead new.toStatusFile = old.toStatusFile ∨
      asRead new.toStatusFile = new.toStatusFile) := by
  unfold Intact
  rw [bootReadStatus_bytes]
  by_cases ha : accepted new.toStatusFile
  · simp [ha]
  · simp [ha]

/-- The supply drops out behind operation `j + 1`, counted from the `fs_open`
on. The status survives when its last bytes were written, and when the new one
is accepted and not read as another. -/
theorem status_write_iff (old new : Status) (j : Nat) :
    Intact old new (left (some (bytes old.toStatusFile))
        (bootWriteStatus new.toStatusFile (some (bytes old.toStatusFile)) (some (j + 1)))) ↔
      (2 ≤ j ∨ 1 ≤ j ∧ new.entries = []) ∧ accepted new.toStatusFile ∧
        (asRead new.toStatusFile = old.toStatusFile ∨
          asRead new.toStatusFile = new.toStatusFile) := by
  rw [← intact_bytes]
  rcases j with _ | _ | j
  · refine iff_of_false (fun h => ?_) (by omega)
    obtain ⟨f, hf, -⟩ := h
    cases hf
  · show Intact old new (some (lengthBytes new.toStatusFile)) ↔ _
    by_cases he : new.entries = []
    · simp [he, bytes, entryBytes]
    · refine iff_of_false (fun h => ?_) (by simp [he])
      obtain ⟨f, hf, -⟩ := h
      have hpos := length_pos_of_ne_nil he
      rw [bootReadStatus_short (by simp [lengthBytes, le32]; omega)] at hf
      cases hf
  · have hleft : left (some (bytes old.toStatusFile)) (bootWriteStatus new.toStatusFile
        (some (bytes old.toStatusFile)) (some (j + 3))) = some (bytes new.toStatusFile) := by
      cases j <;> rfl
    simp [hleft]

/-- Two areas; the first entry changes. -/
def swapped (first : BootStatusEntry) (h : first.bseImageNum < 2 ^ 8 ∧ first.bsePartNum < 2 ^ 8) :
    Status where
  bsImg1Length := 4096
  bsImg2Length := 4096
  entries := [first, ⟨1, 0⟩]
  fits1 := by decide
  fits2 := by decide
  fits := by simpa using h

/-- Both statuses are ones that the reader returns as they are, and a reset
behind the `fs_open` or behind the first write leaves a file that it rejects. -/
theorem status_write_torn : ∃ old new : Status, asRead old.toStatusFile = old.toStatusFile ∧
    asRead new.toStatusFile = new.toStatusFile ∧
    bootReadStatus 2 (some (bytes old.toStatusFile)) = .ok old.toStatusFile ∧
    bootReadStatus 2 (some (bytes new.toStatusFile)) = .ok new.toStatusFile ∧
    ∀ j < 2, bootReadStatus 2 (left (some (bytes old.toStatusFile)) (bootWriteStatus
      new.toStatusFile (some (bytes old.toStatusFile)) (some (j + 1)))) = .error .ebadstatus := by
  refine ⟨swapped ⟨0, 0⟩ (by decide), swapped .none (by decide), rfl, rfl, rfl, rfl, ?_⟩
  intro j hj
  rcases j with _ | _ | j
  · rfl
  · rfl
  · omega

end Larva.Boot.StatusWrite
