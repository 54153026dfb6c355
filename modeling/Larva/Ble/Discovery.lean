import Larva.Ble.Groups

/-!
# Discovery finds every primary service

The server's loop is brought to the level of services first. `layout` is the
table that registration makes, and `walk` goes through the services themselves:
past those that are not primary, up to the first whose UUID has another length
or whose entry does not fit any more. `finish_scan` says that the loop over the
attributes answers with what `walk` gathers, wherever in a group the request
starts.

A response then holds the first few of the services there are in range
(`listing`), and the next request starts at the service behind them, so the
responses put together are the listing (`discover_listing`).

The last service of the table is told with the end handle `0xffff`, which is
not its last handle in general; it spares the client another request, and there
is no handle behind it to ask for.
-/

namespace Larva.Ble.Groups

open Larva.Bytes List

/-! ## UUIDs and entries -/

/-- A short UUID stands for the long one it was made from. -/
theorem uuid16To128_128To16 {u : List UInt8} (hlen : u.length = 16)
    (h : uuid128To16 u ≠ 0) : uuid16To128 (uuid128To16 u) = some u := by
  rw [uuid16To128, if_neg h]
  unfold uuid128To16 at h ⊢
  split at h
  · exact (h rfl).elim
  · next hbase =>
    split at h
    · exact (h rfl).elim
    · next hz =>
      rw [if_neg hbase, if_neg hz]
      have hbase := not_not.mp hbase
      obtain ⟨h14, h15⟩ := not_or.mp hz
      have h14 := not_not.mp h14
      have h15 := not_not.mp h15
      -- The last four bytes one by one.
      have hdrop : (u.drop 12).length = 4 := by
        rw [length_drop, hlen]
      obtain ⟨a, b, x, y, hd⟩ := length_eq_four.mp hdrop
      have hx : x = 0 := by
        have := congrArg (fun l => l.getD 2 0) hd
        rw [getD_eq_getElem?_getD] at h14
        simpa [h14] using this.symm
      have hy : y = 0 := by
        have := congrArg (fun l => l.getD 3 0) hd
        rw [getD_eq_getElem?_getD] at h15
        simpa [h15] using this.symm
      rw [hd, le16_ofLe16, ← hbase]
      rw [append_assoc]
      conv_rhs => rw [← take_append_drop 12 u, hd, hx, hy]
      rfl

theorem ofLe16_le16_of_lt {n : Nat} (h : n < 2 ^ 16) : ofLe16 (le16 n) = n := by
  rw [ofLe16_le16, Nat.mod_eq_of_lt h]

theorem uuid128To16_lt (u : List UInt8) : uuid128To16 u < 2 ^ 16 := by
  unfold uuid128To16
  split
  · decide
  · split
    · decide
    · exact ofLe16_lt _

/-- The length of the entry for a service. -/
def size (uuid : List UInt8) : Nat :=
  if uuid128To16 uuid ≠ 0 then adataSz16 else adataSz128

theorem size_cases (uuid : List UInt8) : size uuid = adataSz16 ∧ uuid128To16 uuid ≠ 0 ∨
      size uuid = adataSz128 ∧ uuid128To16 uuid = 0 := by
  unfold size
  split
  · next h => exact .inl ⟨rfl, h⟩
  · next h => exact .inr ⟨rfl, not_not.mp h⟩

/-- The bytes of an entry. -/
def encode (s : Service) : List UInt8 :=
  le16 s.startHandle ++ le16 s.endHandle ++ svcAccess s.uuid

theorem length_svcAccess {uuid : List UInt8} (h : uuid.length = 16) :
    4 + (svcAccess uuid).length = size uuid := by
  unfold svcAccess size
  split
  · rfl
  · rw [h]
    rfl

variable {s : Service} {l : List Service}

theorem length_encode (h : s.uuid.length = 16) : (encode s).length = size s.uuid := by
  rw [← length_svcAccess h]
  simp only [encode, length_append, length_le16]

/-- What the server reads of a declaration. -/
theorem serviceUuid_of_data {e : Attr} {uuid x : List UInt8}
    (hdata : e.data = some (svcAccess uuid)) (hlen : uuid.length = 16) : serviceUuid e x =
      some (uuid128To16 uuid, if uuid128To16 uuid ≠ 0 then x else uuid) := by
  unfold serviceUuid
  rw [hdata]
  unfold svcAccess
  by_cases hz : uuid128To16 uuid = 0
  · simp [hz, hlen]
  · simp [hz, ofLe16_le16_of_lt (uuid128To16_lt uuid)]

/-- An entry is read as it was written. -/
theorem rxAdata_encode {prev : Nat} (hlen : s.uuid.length = 16) (hs : s.startHandle < 2 ^ 16)
    (he : s.endHandle < 2 ^ 16) (hprev : prev < s.endHandle) :
    rxAdata prev (encode s) = some s := by
  have hstart : ofLe16 (encode s) = s.startHandle := ofLe16_le16_of_lt hs
  have hend : ofLe16 ((encode s).drop 2) = s.endHandle := ofLe16_le16_of_lt he
  have hval : (encode s).drop 4 = svcAccess s.uuid := rfl
  have huuid : (if (svcAccess s.uuid).length = 2 then
      uuid16To128 (ofLe16 (svcAccess s.uuid))
      else if (svcAccess s.uuid).length = 16 then some (svcAccess s.uuid)
      else none) = some s.uuid := by
    unfold svcAccess
    by_cases hz : uuid128To16 s.uuid = 0
    · simp [hz, hlen]
    · simp [hz, ofLe16_le16_of_lt (uuid128To16_lt _), uuid16To128_128To16 hlen hz]
  unfold rxAdata
  simp only [hval, huuid, hend, hstart, Option.bind_some]
  rw [if_neg (by omega)]

/-! ## The table that registration makes -/

/-- The attributes behind a declaration, from a handle on. -/
def others : Nat → List { u : List UInt8 // isValidGroupType u = false } → List Attr
  | _, [] => []
  | h, u :: l => ⟨h, u.val, none⟩ :: others (h + 1) l

/-- The declaration of a service. -/
def decl (h : Nat) (svc : SvcDef) : Attr :=
  ⟨h, declUuid (if svc.primary then uuidPrimaryService
    else uuidSecondaryService), some (svcAccess svc.uuid.val)⟩

@[simp] theorem decl_handleId (h : Nat) (svc : SvcDef) : (decl h svc).handleId = h := rfl

/-- The handle behind a service. -/
def behind (h : Nat) (svc : SvcDef) : Nat := h + 1 + svc.attrs.length

/-- The attributes of services that start at a handle. -/
def layout : Nat → List SvcDef → List Attr
  | _, [] => []
  | h, svc :: l =>
    decl h svc :: (others (h + 1) svc.attrs ++ layout (behind h svc) l)

/-- The handle behind the last of some services. -/
def extent : Nat → List SvcDef → Nat
  | h, [] => h
  | h, svc :: l => extent (behind h svc) l

theorem le_extent (h : Nat) (svcs : List SvcDef) : h ≤ extent h svcs := by
  induction svcs generalizing h with
  | nil => exact le_refl _
  | cons svc l ih =>
    have := ih (behind h svc)
    simp only [behind] at this
    exact le_trans (by omega) this

theorem register_some {uuid : List UInt8} {data : Option (List UInt8)}
    {t t' : Table} (h : register uuid data t = some t') (hid : t.id ≤ 0xffff) :
    t'.attrs = t.attrs ++ [⟨t.id + 1, uuid, data⟩] ∧ t'.id = t.id + 1 ∧ t'.id ≤ 0xffff := by
  unfold register at h
  split at h
  · cases h
  · cases h
    exact ⟨rfl, rfl, by simp only; omega⟩

theorem registerAttrs_some
    {l : List { u : List UInt8 // isValidGroupType u = false }} {t t' : Table}
    (h : registerAttrs l t = some t') (hid : t.id ≤ 0xffff) :
    t'.attrs = t.attrs ++ others (t.id + 1) l ∧ t'.id = t.id + l.length ∧ t'.id ≤ 0xffff := by
  induction l generalizing t with
  | nil =>
    cases h
    exact ⟨(append_nil _).symm, rfl, hid⟩
  | cons u l ih =>
    obtain ⟨t1, h1, h2⟩ := Option.bind_eq_some_iff.mp h
    obtain ⟨hattrs1, hid1, hle1⟩ := register_some h1 hid
    obtain ⟨hattrs2, hid2, hle2⟩ := ih h2 hle1
    refine ⟨?_, ?_, hle2⟩
    · rw [hattrs2, hattrs1, hid1, append_assoc]
      rfl
    · rw [hid2, hid1, length_cons]
      omega

theorem registerSvcs_some {svcs : List SvcDef} {t t' : Table}
    (h : registerSvcs svcs t = some t') (hid : t.id ≤ 0xffff) :
    t'.attrs = t.attrs ++ layout (t.id + 1) svcs ∧ extent (t.id + 1) svcs ≤ 0x10000 := by
  induction svcs generalizing t with
  | nil =>
    cases h
    exact ⟨(append_nil _).symm, by simp only [extent]; omega⟩
  | cons svc l ih =>
    obtain ⟨t1, h1, h2⟩ := Option.bind_eq_some_iff.mp h
    obtain ⟨t0, h0, h1⟩ := Option.bind_eq_some_iff.mp h1
    obtain ⟨hattrs0, hid0, hle0⟩ := register_some h0 hid
    obtain ⟨hattrs1, hid1, hle1⟩ := registerAttrs_some h1 hle0
    obtain ⟨hattrs2, hext⟩ := ih h2 hle1
    have hbehind : t1.id + 1 = behind (t.id + 1) svc := by
      rw [hid1, hid0, behind]
      omega
    rw [hbehind] at hattrs2 hext
    refine ⟨?_, hext⟩
    rw [hattrs2, hattrs1, hattrs0, hid0, append_assoc, append_assoc]
    rfl

/-! ## The loop, service by service -/

theorem isValidGroupType_decl (h : Nat) (svc : SvcDef) :
    isValidGroupType (decl h svc).uuid = true := by
  simp only [decl]
  cases svc.primary <;> decide

theorem decl_uuid_eq_iff (h : Nat) (svc : SvcDef) :
    (decl h svc).uuid = declUuid uuidPrimaryService ↔ svc.primary = true := by
  simp only [decl]
  cases svc.primary <;> decide

/-- A request for primary services that goes up to the last handle, with mbufs
for the response. -/
structure Asks (c : Ctx) : Prop where
  group : c.group = declUuid uuidPrimaryService
  stop : c.stop = 0xffff
  mem : ∀ n, c.mem n = true
  mtu : 23 ≤ c.mtu

/-- No group is open, and these entries are written. -/
structure Closed (acc : Acc) (len : Nat) (es : List Service) : Prop where
  start : acc.startGroup = 0
  len : acc.length = len
  txom : acc.txom = replicate rspBaseSz 0 ++ es.flatMap encode

/-- A group is open. -/
structure Opened (acc : Acc) (h e : Nat) (uuid : List UInt8) (es : List Service) : Prop where
  pos : h ≠ 0
  start : acc.startGroup = h
  stop : acc.endGroup = e
  uuid16 : acc.uuid16 = uuid128To16 uuid
  uuid128 : uuid128To16 uuid = 0 → acc.uuid128 = uuid
  len : acc.length = size uuid
  txom : acc.txom = replicate rspBaseSz 0 ++ es.flatMap encode

theorem Opened.ne {acc : Acc} {h e : Nat} {uuid : List UInt8} {es : List Service}
    (ho : Opened acc h e uuid es) : acc.startGroup ≠ 0 := ho.start ▸ ho.pos

/-- There is no room for the entry of a service. -/
def full (mtu : Nat) (uuid : List UInt8) (es : List Service) : Prop :=
  rspBaseSz + (es.flatMap encode).length + size uuid > mtu

instance (mtu : Nat) (uuid : List UInt8) (es : List Service) :
    Decidable (full mtu uuid es) :=
  inferInstanceAs (Decidable (_ > _))

section

variable {c : Ctx} {acc : Acc} {h e len : Nat} {uuid : List UInt8}
  {es : List Service} {r : List Attr} {svc : SvcDef}

theorem entryWrite_opened (hc : Asks c) (ho : Opened acc h e uuid es) (stop : Nat) :
    entryWrite c acc stop = if full c.mtu uuid es then .error .emsgsize else
      .ok (replicate rspBaseSz 0 ++ (es ++ [Service.mk h stop uuid]).flatMap encode) := by
  have hlen : acc.txom.length = rspBaseSz + (es.flatMap encode).length := by
    rw [ho.txom, length_append, length_replicate]
  have huuid : (if uuid128To16 uuid ≠ 0 then le16 (uuid128To16 uuid)
      else acc.uuid128) = svcAccess uuid := by
    unfold svcAccess
    split
    · rfl
    · next hz => exact ho.uuid128 (not_not.mp hz)
  unfold entryWrite
  simp only [hc.mem, ho.start, ho.uuid16, huuid, hlen, Bool.true_eq_false, if_false]
  rw [ho.txom]
  simp only [full, size, flatMap_append, append_assoc,
    flatMap_cons, flatMap_nil, encode, append_nil]

/-- An attribute of another type is passed over while no group is open. -/
theorem scan_other (hc : Asks c) (hs : acc.startGroup = 0) {a : Attr} (hne : a.uuid ≠ c.group)
    (hh : a.handleId ≤ 0xffff) : scan c (a :: r) acc = scan c r acc := by
  have hclose : closeGroup c a acc = .ok acc := if_pos hs
  have hopen : openGroup c a acc = .ok acc := by
    unfold openGroup
    rw [if_neg (not_not.mpr hs), if_pos hne]
  rw [scan]
  split
  · rfl
  · rw [if_neg (by rw [hc.stop]; omega), hclose]
    simp only [Except.bind, hopen]

/-- What is behind a declaration is passed over while no group is open. -/
theorem scan_others_closed (hc : Asks c) (hs : acc.startGroup = 0)
    (l : List { u : List UInt8 // isValidGroupType u = false }) (hh : h + l.length ≤ 0x10000) :
    scan c (others h l ++ r) acc = scan c r acc := by
  induction l generalizing h with
  | nil => rfl
  | cons u l ih =>
    rw [length_cons] at hh
    have hne : u.val ≠ c.group := by
      intro heq
      have hval := u.property
      rw [heq, hc.group] at hval
      exact absurd hval (by decide)
    rw [others, cons_append, scan_other hc hs hne (by simp only; omega)]
    exact ih (by omega)

/-- An open group takes in what is behind its declaration. -/
theorem scan_others_opened (hc : Asks c) (ho : Opened acc h e uuid es)
    (l : List { u : List UInt8 // isValidGroupType u = false })
    (hstart : c.start ≤ h) (he : h ≤ e) (hh : e + 1 + l.length ≤ 0x10000) :
    ∃ acc', Opened acc' h (e + l.length) uuid es ∧
      scan c (others (e + 1) l ++ r) acc = scan c r acc' := by
  induction l generalizing e acc with
  | nil => exact ⟨acc, ho, rfl⟩
  | cons u l ih =>
    rw [length_cons] at hh
    have hne := ho.ne
    have hclose : closeGroup c ⟨e + 1, u.val, none⟩ acc = .ok { acc with endGroup := e + 1 } := by
      unfold closeGroup
      rw [if_neg hne, if_pos u.property]
    have hopen : openGroup c ⟨e + 1, u.val, none⟩
        { acc with endGroup := e + 1 } = .ok { acc with endGroup := e + 1 } :=
      if_pos hne
    have ho' : Opened { acc with endGroup := e + 1 } h (e + 1) uuid es :=
      { ho with stop := rfl }
    obtain ⟨acc', hacc', hscan⟩ := ih ho' (by omega) (by omega)
    refine ⟨acc', ?_, ?_⟩
    · rw [length_cons, add_comm l.length 1, ← add_assoc]
      exact hacc'
    · rw [others, cons_append, scan, if_neg (by simp only; omega),
        if_neg (by rw [hc.stop]; simp only; omega), hclose]
      simp only [Except.bind, hopen]
      exact hscan

/-- A declaration that is not of a primary service does not open a group. -/
theorem scan_decl_secondary (hc : Asks c) (hs : acc.startGroup = 0)
    (hsec : svc.primary = false) (hh : h ≤ 0xffff) :
    scan c (decl h svc :: r) acc = scan c r acc := by
  refine scan_other hc hs ?_ hh
  rw [hc.group, Ne, decl_uuid_eq_iff, hsec]
  decide

/-- The group of a primary service, as it is opened. -/
def opening (h : Nat) (uuid : List UInt8) (acc : Acc) : Acc :=
  { acc with
    startGroup := h
    endGroup := h
    uuid16 := uuid128To16 uuid
    uuid128 := if uuid128To16 uuid ≠ 0 then acc.uuid128 else uuid
    length := size uuid }

theorem opened_opening (hcl : Closed acc len es) (hh : h ≠ 0) :
    Opened (opening h uuid acc) h h uuid es where
  pos := hh
  start := rfl
  stop := rfl
  uuid16 := rfl
  uuid128 := fun hz => if_neg (not_not.mpr hz)
  len := rfl
  txom := hcl.txom

theorem Asks.group_decl (hc : Asks c) (hprim : svc.primary = true) :
    (decl h svc).uuid = c.group := hc.group ▸ (decl_uuid_eq_iff h svc).mpr hprim

variable (hc : Asks c) (hcl : Closed acc len es) (hprim : svc.primary = true)
include hc hcl hprim

/-- The declaration of a primary service opens a group. -/
theorem openGroup_decl (hlen : len = 0 ∨ len = size svc.uuid.val) :
    openGroup c (decl h svc) acc = .ok (opening h svc.uuid.val acc) := by
  unfold openGroup
  rw [if_neg (not_not.mpr hcl.start), if_neg (not_not.mpr (hc.group_decl hprim)),
    serviceUuid_of_data rfl svc.uuid.property]
  simp only [hcl.len]
  rcases hlen with rfl | rfl
  · rfl
  · rcases size_cases svc.uuid.val with ⟨hsz, hz⟩ | ⟨hsz, hz⟩
    · simp [hsz, hz, opening, adataSz16]
    · simp [hsz, hz, opening, adataSz16, adataSz128]

/-- It does not if its UUID has another length than those before it. -/
theorem openGroup_decl_other (hlen : len = adataSz16 ∨ len = adataSz128)
    (hne : len ≠ size svc.uuid.val) : ∃ acc', Closed acc' len es ∧ openGroup c (decl h svc) acc =
      .error ⟨.ok, false, acc', 0, c.start⟩ := by
  refine ⟨{ acc with
    uuid16 := uuid128To16 svc.uuid.val
    uuid128 := if uuid128To16 svc.uuid.val ≠ 0 then acc.uuid128
      else svc.uuid.val }, { hcl with }, ?_⟩
  unfold openGroup
  rw [if_neg (not_not.mpr hcl.start), if_neg (not_not.mpr (hc.group_decl hprim)),
    serviceUuid_of_data rfl svc.uuid.property]
  simp only [hcl.len]
  rcases size_cases svc.uuid.val with ⟨hsz, hz⟩ | ⟨hsz, hz⟩ <;> rcases hlen with rfl | rfl
  · exact (hne hsz.symm).elim
  · simp [hz, adataSz16, adataSz128]
  · simp [hz, adataSz16]
  · exact (hne hsz.symm).elim

end

/-! ## The loop and what it gathers -/

/-- The end handle of a service that ends before `h'`, as it is told to the
client: that of the last service of the table is the last handle there is. -/
def told (h' : Nat) (rest : List SvcDef) : Nat :=
  if rest.isEmpty then 0xffff else h' - 1

/-- The services that one response takes up, with the length of its entries. -/
def walk (mtu : Nat) : Nat → List SvcDef → Nat → List Service → Nat × List Service
  | _, [], len, es => (len, es)
  | h, svc :: rest, len, es =>
    if svc.primary = false then walk mtu (behind h svc) rest len es
    else if len ≠ 0 ∧ len ≠ size svc.uuid.val then (len, es)
    else if full mtu svc.uuid.val es then (size svc.uuid.val, es)
    else walk mtu (behind h svc) rest (size svc.uuid.val)
      (es ++ [⟨h, told (behind h svc) rest, svc.uuid.val⟩])

/-- The answer to a request, for entries of a length. -/
def answer (start : Nat) (r : Nat × List Service) :
    Except (Nat × Nat) (List UInt8) :=
  if r.2 = [] then .error (attErrAttrNotFound, start)
  else .ok (0x11 :: UInt8.ofNat r.1 :: r.2.flatMap encode)

section

variable {c : Ctx} {acc : Acc} {h e len : Nat} {uuid : List UInt8}
  {es : List Service} {svcs : List SvcDef}

theorem pdu_txom (len : Nat) (es : List Service) :
    pdu len (replicate rspBaseSz 0 ++ es.flatMap encode) =
      0x11 :: UInt8.ofNat len :: es.flatMap encode := rfl

theorem flatMap_encode_eq_nil : es.flatMap encode = [] ↔ es = [] := by
  constructor
  · intro h
    cases es with
    | nil => rfl
    | cons s l => cases h
  · intro h
    rw [h]
    rfl

theorem length_txom_le : (replicate rspBaseSz (0 : UInt8) ++ es.flatMap encode).length ≤
      rspBaseSz ↔ es = [] := by
  rw [length_append, length_replicate, ← flatMap_encode_eq_nil, ← length_eq_zero_iff]
  omega

/-- One entry always fits. -/
theorem not_full_nil (hm : 23 ≤ c.mtu) : ¬full c.mtu uuid [] := by
  unfold full
  rcases size_cases uuid with ⟨hsz, _⟩ | ⟨hsz, _⟩ <;>
    rw [hsz] <;> simp only [rspBaseSz, adataSz16, adataSz128, flatMap_nil, length_nil] <;> omega

/-- The loop was left with no group open. -/
theorem finish_closed {atEnd : Bool} {err : Nat} (hcl : Closed acc len es) :
    finish c ⟨.ok, atEnd, acc, err, c.start⟩ = answer c.start (len, es) := by
  unfold finish answer
  simp only [hcl.start, if_true, hcl.txom, hcl.len, length_txom_le, pdu_txom, true_or]

/-- The attributes came to an end in a group. -/
theorem finish_opened (hc : Asks c) (ho : Opened acc h e uuid es) :
    finish c ⟨.ok, true, acc, 0, c.start⟩ =
      answer c.start (if full c.mtu uuid es then (size uuid, es)
        else (size uuid, es ++ [⟨h, 0xffff, uuid⟩])) := by
  have hne := ho.ne
  unfold finish answer
  by_cases hf : full c.mtu uuid es
  · simp only [if_neg hne, if_true, entryWrite_opened hc ho, ho.len, if_pos hf,
      ho.txom, length_txom_le, pdu_txom, or_true]
  · simp only [if_neg hne, if_true, entryWrite_opened hc ho, ho.len, if_neg hf,
      length_txom_le, pdu_txom, true_or]

theorem scan_decl_closed {svc : SvcDef} {r : List Attr} (hc : Asks c)
    (hs : acc.startGroup = 0) (hstart : c.start ≤ h) (hh : h ≤ 0xffff) :
    scan c (decl h svc :: r) acc =
      match openGroup c (decl h svc) acc with
      | .ok acc => scan c r acc
      | .error stop => stop := by
  have hclose : closeGroup c (decl h svc) acc = .ok acc := if_pos hs
  rw [scan, if_neg (by rw [decl_handleId]; omega),
    if_neg (by rw [hc.stop, decl_handleId]; omega), hclose]
  rfl

/-- The loop at the end of an open group, from what it does once the group is
closed. -/
theorem finish_scan_opened (hc : Asks c) (ho : Opened acc h e uuid es)
    (hstart : c.start ≤ e + 1) (hext : extent (e + 1) svcs ≤ 0x10000)
    (hclosed : ∀ acc', Closed acc' (size uuid) (es ++ [⟨h, told (e + 1) svcs, uuid⟩]) →
      finish c (scan c (layout (e + 1) svcs) acc') =
        answer c.start (walk c.mtu (e + 1) svcs (size uuid)
          (es ++ [⟨h, told (e + 1) svcs, uuid⟩]))) : finish c (scan c (layout (e + 1) svcs) acc) =
      answer c.start (if full c.mtu uuid es then (size uuid, es)
        else walk c.mtu (e + 1) svcs (size uuid) (es ++ [⟨h, told (e + 1) svcs, uuid⟩])) := by
  cases svcs with
  | nil => exact finish_opened hc ho
  | cons svc rest =>
    have hne := ho.ne
    have hle := le_extent (behind (e + 1) svc) rest
    rw [extent] at hext
    have hbehind : e + 1 < behind (e + 1) svc := by
      unfold behind
      omega
    have hhandle : ¬(decl (e + 1) svc).handleId < c.start ∧
        ¬(decl (e + 1) svc).handleId > c.stop := by
      rw [hc.stop, decl_handleId]
      omega
    have hvalid : ¬isValidGroupType (decl (e + 1) svc).uuid = false := by
      rw [isValidGroupType_decl]
      decide
    by_cases hf : full c.mtu uuid es
    · have hclose : ∃ stop, stop.rc = .emsgsize ∧
          stop.acc.length = size uuid ∧ stop.acc.txom = acc.txom ∧
          closeGroup c (decl (e + 1) svc) acc = .error stop := by
        unfold closeGroup
        rw [if_neg hne, if_neg hvalid, entryWrite_opened hc ho, if_pos hf]
        exact ⟨_, rfl, ho.len, rfl, rfl⟩
      obtain ⟨stop, hrc, hlen, htx, hclose⟩ := hclose
      have hes : es ≠ [] := by
        rintro rfl
        exact not_full_nil hc.mtu hf
      rw [if_pos hf, layout, scan, if_neg hhandle.1, if_neg hhandle.2, hclose]
      show finish c stop = _
      unfold finish answer
      rw [hrc]
      simp only [hlen, htx, ho.txom, pdu_txom, if_neg hes]
    · have hclose : ∃ acc', Closed acc' (size uuid)
          (es ++ [⟨h, told (e + 1) (svc :: rest), uuid⟩]) ∧
          closeGroup c (decl (e + 1) svc) acc = .ok acc' := by
        unfold closeGroup
        rw [if_neg hne, if_neg hvalid, entryWrite_opened hc ho, if_neg hf, ho.stop]
        refine ⟨{ acc with txom := _, startGroup := 0, endGroup := 0 }, ⟨rfl, ho.len, rfl⟩, rfl⟩
      obtain ⟨acc', hcl, hclose⟩ := hclose
      rw [if_neg hf, ← hclosed acc' hcl, layout,
        scan_decl_closed hc hcl.start hstart (by omega), scan,
        if_neg hhandle.1, if_neg hhandle.2, hclose]
      rfl

/-- The loop answers with what `walk` gathers. -/
theorem finish_scan (hc : Asks c) (hcl : Closed acc len es)
    (hlen : len = 0 ∨ len = adataSz16 ∨ len = adataSz128) (hh : h ≠ 0)
    (hstart : c.start ≤ h) (hext : extent h svcs ≤ 0x10000) :
    finish c (scan c (layout h svcs) acc) = answer c.start (walk c.mtu h svcs len es) := by
  induction svcs generalizing h acc len es with
  | nil => exact finish_closed hcl
  | cons svc rest ih =>
    have hle := le_extent (behind h svc) rest
    rw [extent] at hext
    have hbehind : behind h svc = h + 1 + svc.attrs.length := rfl
    rw [walk, layout]
    by_cases hprim : svc.primary = false
    · rw [if_pos hprim, scan_decl_secondary hc hcl.start hprim (by omega),
        scan_others_closed hc hcl.start _ (by omega)]
      exact ih hcl hlen (by omega) (by omega) hext
    have hprim' : svc.primary = true := eq_true_of_ne_false hprim
    rw [if_neg hprim, scan_decl_closed hc hcl.start hstart (by omega)]
    by_cases hd : len ≠ 0 ∧ len ≠ size svc.uuid.val
    · -- A UUID of the other length: the response is cut short.
      obtain ⟨acc', hcl', hopen⟩ := openGroup_decl_other hc hcl
        hprim' (hlen.resolve_left hd.1) hd.2
      rw [if_pos hd, hopen]
      exact finish_closed hcl'
    have hsame : len = 0 ∨ len = size svc.uuid.val := by omega
    have hsize := (size_cases svc.uuid.val).imp And.left And.left
    have ho : Opened (opening h svc.uuid.val acc) h h svc.uuid.val es :=
      opened_opening hcl hh
    obtain ⟨acc', ho, hscan⟩ := scan_others_opened hc ho svc.attrs hstart (le_refl h) (by omega)
    have hnext : behind h svc = h + svc.attrs.length + 1 := by omega
    rw [if_neg hd, openGroup_decl hc hcl hprim' hsame]
    show finish c (scan c _ (opening h svc.uuid.val acc)) = _
    rw [hscan]
    rw [hnext] at hext ⊢
    exact finish_scan_opened hc ho (by omega) hext fun acc' hcl' =>
      ih hcl' (.inr hsize) (by omega) (by omega) hext

end

/-! ## The services there are -/

/-- The primary services among services that start at a handle, as a client is
to be told of them. -/
def listing : Nat → List SvcDef → List Service
  | _, [] => []
  | h, svc :: rest =>
    if svc.primary = false then listing (behind h svc) rest
    else ⟨h, told (behind h svc) rest, svc.uuid.val⟩ :: listing (behind h svc) rest

/-- Those that are in range of a request. -/
def inRange (start : Nat) (l : List Service) : List Service :=
  l.filter fun s => start ≤ s.startHandle

/-- What holds of a service that is told. -/
structure Sane (s : Service) : Prop where
  uuid : s.uuid.length = 16
  le : s.startHandle ≤ s.endHandle
  lt : s.endHandle ≤ 0xffff

/-- Services one behind the other. -/
structure Ordered (l : List Service) : Prop where
  sane : ∀ s ∈ l, Sane s
  apart : l.Pairwise fun a b => a.endHandle < b.startHandle

theorem Ordered.sublist {l' : List Service} (ho : Ordered l) (hs : l'.Sublist l) : Ordered l' :=
  ⟨fun s hm => ho.sane s (hs.subset hm), ho.apart.sublist hs⟩

theorem Ordered.tail (ho : Ordered (s :: l)) :
    Ordered l :=
  ho.sublist (sublist_cons_self s l)

section

variable {c : Ctx} {acc : Acc} {h len mtu : Nat} {es : List Service} {svcs : List SvcDef}
  {uuid : List UInt8}

theorem told_bounds {h' : Nat} {rest : List SvcDef} (hh : h < h')
    (hext : extent h' rest ≤ 0x10000) : h ≤ told h' rest ∧ told h' rest ≤ 0xffff := by
  have := le_extent h' rest
  unfold told
  split <;> omega

theorem mem_listing (hs : s ∈ listing h svcs) (hext : extent h svcs ≤ 0x10000) :
    h ≤ s.startHandle ∧ Sane s := by
  induction svcs generalizing h with
  | nil => cases hs
  | cons svc rest ih =>
    have hbehind : h < behind h svc := by
      unfold behind
      omega
    rw [listing] at hs
    split at hs
    · obtain ⟨hle, hsane⟩ := ih hs hext
      exact ⟨by omega, hsane⟩
    · rcases mem_cons.mp hs with rfl | hs
      · obtain ⟨hle, hlt⟩ := told_bounds hbehind hext
        exact ⟨le_refl _, svc.uuid.property, hle, hlt⟩
      · obtain ⟨hle, hsane⟩ := ih hs hext
        exact ⟨by omega, hsane⟩

/-- A service ends before the next one starts. -/
theorem pairwise_listing (hext : extent h svcs ≤ 0x10000) :
    (listing h svcs).Pairwise fun a b => a.endHandle < b.startHandle := by
  induction svcs generalizing h with
  | nil => exact Pairwise.nil
  | cons svc rest ih =>
    rw [listing]
    split
    · exact ih hext
    refine pairwise_cons.mpr ⟨fun s hs => ?_, ih hext⟩
    have hle := (mem_listing hs hext).1
    -- Something follows, so the end handle is the true one.
    have hrest : rest.isEmpty = false := by
      cases rest with
      | nil => cases hs
      | cons _ _ => rfl
    simp only [told, hrest, Bool.false_eq_true, if_false]
    unfold behind at hle ⊢
    omega

theorem ordered_listing (hext : extent h svcs ≤ 0x10000) :
    Ordered (listing h svcs) :=
  ⟨fun _ hs => (mem_listing hs hext).2, pairwise_listing hext⟩

/-- The loop passes over what is not in range. -/
theorem scan_inRange (hc : Asks c) (hs : acc.startGroup = 0) (hext : extent h svcs ≤ 0x10000) :
    ∃ h' svcs', (svcs' = [] ∨ c.start ≤ h') ∧ h ≤ h' ∧ extent h' svcs' ≤ 0x10000 ∧
      inRange c.start (listing h svcs) = listing h' svcs' ∧
      scan c (layout h svcs) acc = scan c (layout h' svcs') acc := by
  induction svcs generalizing h with
  | nil => exact ⟨h, [], .inl rfl, le_refl h, hext, rfl, rfl⟩
  | cons svc rest ih =>
    by_cases hstart : c.start ≤ h
    · refine ⟨h, svc :: rest, .inr hstart, le_refl h, hext, ?_, rfl⟩
      refine filter_eq_self.mpr fun s hs => ?_
      have := (mem_listing hs hext).1
      exact decide_eq_true (by omega)
    rw [extent] at hext
    have hle := le_extent (behind h svc) rest
    have hbehind : behind h svc = h + 1 + svc.attrs.length := rfl
    obtain ⟨h', svcs', hor, hh', hext', hrange, hscan⟩ := ih hext
    refine ⟨h', svcs', hor, by omega, hext', ?_, ?_⟩
    · rw [← hrange, listing]
      split
      · rfl
      · exact filter_cons_of_neg (by simpa using hstart)
    · rw [← hscan, layout, scan, if_pos (by rw [decl_handleId]; omega),
        scan_others_closed hc hs _ (by omega)]

/-- Entries of one length that fit in a response. -/
structure Written (mtu len : Nat) (es : List Service) : Prop where
  len : ∀ s ∈ es, (encode s).length = len
  fit : rspBaseSz + (es.flatMap encode).length ≤ mtu

theorem Written.add {e : Nat} (hw : Written mtu (size uuid) es) (hf : ¬full mtu uuid es)
    (huuid : uuid.length = 16) : Written mtu (size uuid) (es ++ [⟨h, e, uuid⟩]) := by
  have henc : (encode ⟨h, e, uuid⟩).length = size uuid := length_encode huuid
  constructor
  · intro s hs
    rcases mem_append.mp hs with hs | hs
    · exact hw.len s hs
    · rw [mem_singleton.mp hs]
      exact henc
  · rw [flatMap_append, length_append, flatMap_singleton, henc]
    unfold full at hf
    omega

/-- Entries are written as long as the next UUID has their length. -/
theorem Written.same (hw : Written mtu len es) (hd : ¬(len ≠ 0 ∧ len ≠ size uuid)) :
    Written mtu (size uuid) es where
  len := by
    intro s hs
    have hpos : 0 < (encode s).length := Nat.succ_pos _
    rw [hw.len s hs] at hpos ⊢
    by_contra hne
    exact hd ⟨by omega, hne⟩
  fit := hw.fit

theorem Written.nil (hmtu : 23 ≤ mtu) : Written mtu len [] := by
  constructor
  · intro s hs
    cases hs
  · rw [flatMap_nil, length_nil, rspBaseSz]
    omega

/-- A response to which nothing is added takes up none of the services that
are left. -/
theorem Written.stay (hw : Written mtu len es) (rest : List Service) :
    ∃ len' taken rest', (len, es) = (len', es ++ taken) ∧
      rest = taken ++ rest' ∧ Written mtu len' (es ++ taken) := by
  refine ⟨len, [], rest, ?_, rfl, ?_⟩
  · rw [append_nil]
  · rwa [append_nil]

/-- What a response takes up is the first of the services there are. -/
theorem walk_listing (hext : extent h svcs ≤ 0x10000) (hw : Written mtu len es) :
    ∃ len' taken rest, walk mtu h svcs len es = (len', es ++ taken) ∧
      listing h svcs = taken ++ rest ∧ Written mtu len' (es ++ taken) := by
  induction svcs generalizing h len es with
  | nil => exact hw.stay []
  | cons svc rest ih =>
    rw [walk]
    by_cases hprim : svc.primary = false
    · rw [if_pos hprim, listing, if_pos hprim]
      exact ih hext hw
    rw [if_neg hprim]
    by_cases hd : len ≠ 0 ∧ len ≠ size svc.uuid.val
    · rw [if_pos hd]
      exact hw.stay _
    rw [if_neg hd]
    have hw' := hw.same hd
    by_cases hf : full mtu svc.uuid.val es
    · rw [if_pos hf]
      exact hw'.stay _
    · rw [if_neg hf, listing, if_neg hprim]
      obtain ⟨len', taken, rest', hwalk, hlist, hw''⟩ :=
        ih hext (hw'.add hf svc.uuid.property)
      rw [append_assoc] at hwalk hw''
      exact ⟨len', _, rest', hwalk, by rw [hlist]; rfl, hw''⟩

/-- A response takes up one service at least if there is one. -/
theorem walk_ne_nil (hmtu : 23 ≤ c.mtu) (hext : extent h svcs ≤ 0x10000)
    (hl : listing h svcs ≠ []) : (walk c.mtu h svcs 0 []).2 ≠ [] := by
  induction svcs generalizing h with
  | nil => exact (hl rfl).elim
  | cons svc rest ih =>
    rw [extent] at hext
    rw [walk]
    by_cases hprim : svc.primary = false
    · rw [listing, if_pos hprim] at hl
      rw [if_pos hprim]
      exact ih hext hl
    have hroom : ¬full c.mtu svc.uuid.val [] := not_full_nil hmtu
    have hw : Written c.mtu (size svc.uuid.val) [] := .nil hmtu
    obtain ⟨len', taken, rest', hwalk, _⟩ :=
      walk_listing hext (hw.add hroom svc.uuid.property)
    rw [if_neg hprim, if_neg (fun hd => hd.1 rfl), if_neg hroom, hwalk]
    exact cons_ne_nil _ _

/-- The answer to a request: the first few services in range, or that there is
none. -/
theorem rxReadGroupType_inRange (hc : Asks c) (hpos : 1 ≤ c.start)
    (hstart : c.start ≤ 0xffff) (hext : extent 1 svcs ≤ 0x10000) : ∃ len taken rest,
      rxReadGroupType c (layout 1 svcs) = answer c.start (len, taken) ∧
      inRange c.start (listing 1 svcs) = taken ++ rest ∧
      (taken = [] → rest = []) ∧ Written c.mtu len taken := by
  have hcl : Closed ⟨replicate rspBaseSz 0, 0, 0, 0, [], 0⟩ 0 [] :=
    ⟨rfl, rfl, rfl⟩
  obtain ⟨h', svcs', hor, hle, hext', hrange, hscan⟩ :=
    scan_inRange hc hcl.start hext
  have hanswer : rxReadGroupType c (layout 1 svcs) = answer c.start (walk c.mtu h' svcs' 0 []) := by
    unfold rxReadGroupType
    rw [if_neg (by rw [hc.stop]; omega),
      if_neg (by rw [hc.group]; decide), if_neg (by rw [hc.mem]; decide), hscan]
    rcases hor with rfl | hor
    · exact finish_closed hcl
    · exact finish_scan hc hcl (.inl rfl) (by omega) hor hext'
  have hw : Written c.mtu 0 [] := .nil hc.mtu
  obtain ⟨len, taken, rest, hwalk, hlist, hw'⟩ := walk_listing hext' hw
  rw [hwalk] at hanswer
  refine ⟨len, taken, rest, hanswer, by rw [hrange, hlist], ?_, hw'⟩
  intro htaken
  by_contra hrest
  refine walk_ne_nil hc.mtu hext' ?_ (by rw [hwalk, htaken]; rfl)
  rw [hlist]
  exact fun hnil => hrest (append_eq_nil_iff.mp hnil).2

end

/-! ## The client goes through the responses -/

/-- The last end handle of some services. -/
def lastEnd : Nat → List Service → Nat
  | prev, [] => prev
  | _, s :: l => lastEnd s.endHandle l

section

variable {mtu len prev : Nat} {es : List Service}

theorem rxEntries_encode {rounds : Nat} (hlen : 5 ≤ len)
    (hw : ∀ s ∈ es, (encode s).length = len) (ho : Ordered es)
    (hprev : ∀ s ∈ es, prev < s.startHandle) (hr : es.length ≤ rounds) :
    rxEntries len rounds prev (es.flatMap encode) = (es, some (lastEnd prev es)) := by
  induction es generalizing prev rounds with
  | nil =>
    cases rounds with
    | zero => rfl
    | succ n => rfl
  | cons s l ih =>
    obtain ⟨n, rfl⟩ : ∃ n, rounds = n + 1 := ⟨rounds - 1, by
      rw [length_cons] at hr
      omega⟩
    have hs := ho.sane s mem_cons_self
    have hslen := hw s mem_cons_self
    have hsprev := hprev s mem_cons_self
    have hle := hs.le
    have hlt := hs.lt
    have hne : (s :: l).flatMap encode ≠ [] := fun hnil =>
      cons_ne_nil s l (flatMap_encode_eq_nil.mp hnil)
    have hread : rxAdata prev (encode s) = some s :=
      rxAdata_encode hs.uuid (by omega) (by omega) (by omega)
    have hih := ih (fun t ht => hw t (mem_cons_of_mem _ ht)) ho.tail
      (pairwise_cons.mp ho.apart).1 (Nat.le_of_succ_le_succ hr)
    rw [rxEntries, if_neg hne, flatMap_cons, if_neg (by rw [length_append, hslen]; omega),
      take_left' hslen, drop_left' hslen, hread]
    simp only [hih, lastEnd]

theorem lastEnd_mem (h : es ≠ []) : ∃ s ∈ es, lastEnd prev es = s.endHandle := by
  induction es generalizing prev with
  | nil => exact (h rfl).elim
  | cons s l ih =>
    by_cases hl : l = []
    · exact ⟨s, mem_cons_self, by rw [hl]; rfl⟩
    · obtain ⟨t, ht, heq⟩ := @ih s.endHandle hl
      exact ⟨t, mem_cons_of_mem _ ht, heq⟩

/-- The services in a response end where the last of them does. -/
theorem le_lastEnd (ho : Ordered es) : ∀ s ∈ es, s.endHandle ≤ lastEnd prev es := by
  induction es generalizing prev with
  | nil =>
    intro s hs
    cases hs
  | cons t l ih =>
    have hl : ∀ s ∈ l, s.endHandle ≤ lastEnd t.endHandle l := ih ho.tail
    intro s hs
    rcases mem_cons.mp hs with rfl | hs
    · cases l with
      | nil => exact le_refl _
      | cons u l =>
        have h1 := (pairwise_cons.mp ho.apart).1 u mem_cons_self
        have h2 := (ho.tail.sane u mem_cons_self).le
        have h3 := hl u mem_cons_self
        simp only [lastEnd] at h3 ⊢
        omega
    · exact hl s hs

theorem length_le_flatMap_encode (es : List Service) : es.length ≤ (es.flatMap encode).length := by
  induction es with
  | nil => exact le_refl _
  | cons s l ih =>
    have hpos : 0 < (encode s).length := Nat.succ_pos _
    rw [flatMap_cons, length_append, length_cons]
    omega

variable (hne : es ≠ []) (hw : Written mtu len es) (ho : Ordered es)
include hne hw ho

/-- The length of the entries is told in one byte. -/
theorem len_of_written : (UInt8.ofNat len).toNat = len ∧ 5 ≤ len := by
  obtain ⟨s, hs⟩ := exists_mem_of_ne_nil es hne
  have hlen : len = size s.uuid := by
    rw [← hw.len s hs, length_encode (ho.sane s hs).uuid]
  rcases size_cases s.uuid with ⟨hsz, _⟩ | ⟨hsz, _⟩ <;> rw [hlen, hsz] <;> decide

/-- A response is read as it was written. -/
theorem rxRsp_answer (hprev : ∀ s ∈ es, prev < s.startHandle) :
    rxRsp prev (0x11 :: UInt8.ofNat len :: es.flatMap encode) = (es, some (lastEnd prev es)) := by
  obtain ⟨hbyte, hpos⟩ := len_of_written hne hw ho
  have hrounds := length_le_flatMap_encode es
  show rxEntries (UInt8.ofNat len).toNat _ prev (es.flatMap encode) = _
  rw [hbyte]
  exact rxEntries_encode hpos hw.len ho hprev (le_trans hrounds (by simp only [length_cons]; omega))

end

/-- A response that fits, with entries of the length that its header tells. -/
def Fitting (mtu : Nat) (rsp : List UInt8) : Prop :=
  rsp.length ≤ mtu ∧ ∃ es : List Service, rsp.drop rspBaseSz = es.flatMap encode ∧
    ∀ s ∈ es, (encode s).length = (rsp.getD 1 0).toNat

/-- Discovery found these services: it lists them in order, it made one request
for each at most and then one more at most, and it ended when it was told that
there is nothing left or that there are no further handles. -/
structure Lists (mtu : Nat) (l : List Service) (f : Found) : Prop where
  services : f.services = l
  requests : f.rsps.length ≤ l.length
  fitting : ∀ rsp ∈ f.rsps, Fitting mtu rsp
  ending : f.ending = .error attErrAttrNotFound ∧ (∀ s ∈ l, s.endHandle ≠ 0xffff) ∨
    f.ending = .complete ∧ ∃ s ∈ l, s.endHandle = 0xffff

section

variable {mtu start rounds : Nat} {mem : Nat → Bool} {svcs : List SvcDef}
  {l taken rest : List Service}

theorem le_of_inRange (hrange : inRange start l = taken ++ rest) (hs : s ∈ taken) :
    start ≤ s.startHandle := by
  have hmem := mem_append_left rest hs
  rw [← hrange] at hmem
  exact of_decide_eq_true (mem_filter.mp hmem).2

/-- The services behind those that a response took up. -/
theorem inRange_lastEnd {prev : Nat} (ho : Ordered l) (hrange : inRange start l = taken ++ rest)
    (hne : taken ≠ []) : inRange (lastEnd prev taken + 1) l = rest := by
  have ho' : Ordered (taken ++ rest) := hrange ▸ ho.sublist filter_sublist
  have ho1 : Ordered taken := ho'.sublist (sublist_append_left _ _)
  obtain ⟨u, hu, hlast⟩ := @lastEnd_mem prev taken hne
  have hu' := le_of_inRange hrange hu
  have hule := (ho1.sane u hu).le
  have hwhole : inRange (lastEnd prev taken + 1) l =
      inRange (lastEnd prev taken + 1) (inRange start l) := by
    unfold inRange
    rw [filter_filter]
    refine filter_congr fun s _ => ?_
    rw [Bool.eq_iff_iff, Bool.and_eq_true]
    simp only [decide_eq_true_eq]
    omega
  rw [hwhole, hrange]
  unfold inRange
  rw [filter_append, filter_eq_nil_iff.mpr, filter_eq_self.mpr, nil_append]
  · intro s hs
    have := (pairwise_append.mp ho'.apart).2.2 u hu s hs
    exact decide_eq_true (by omega)
  · intro s hs
    have h1 : s.endHandle ≤ lastEnd prev taken := le_lastEnd ho1 s hs
    have h2 := (ho1.sane s hs).le
    simp only [decide_eq_true_eq]
    omega

theorem fitting_answer {len : Nat} {es : List Service} (hne : es ≠ [])
    (hw : Written mtu len es) (ho : Ordered es) :
    Fitting mtu (0x11 :: UInt8.ofNat len :: es.flatMap encode) := by
  have hbyte := (len_of_written hne hw ho).1
  refine ⟨?_, es, rfl, fun s hs => ?_⟩
  · have := hw.fit
    simp only [length_cons, rspBaseSz] at this ⊢
    omega
  · show _ = (UInt8.ofNat len).toNat
    rw [hbyte]
    exact hw.len s hs

/-- One more response in front of those that are still to come. -/
theorem Lists.more {f : Found} {rsp : List UInt8} (hl : Lists mtu l f) (hne : taken ≠ [])
    (hfits : Fitting mtu rsp) (hend : ∀ s ∈ taken, s.endHandle ≠ 0xffff) : Lists mtu (taken ++ l)
      ⟨taken ++ f.services, rsp :: f.rsps, f.ending⟩ where
  services := by rw [hl.services]
  requests := by
    have h1 := hl.requests
    have h2 := length_pos_of_ne_nil hne
    rw [length_append, length_cons]
    omega
  fitting := by
    intro r hr
    rcases mem_cons.mp hr with rfl | hr
    · exact hfits
    · exact hl.fitting r hr
  ending := by
    rcases hl.ending with ⟨hend1, hnone⟩ | ⟨hend1, s, hs, hffff⟩
    · exact .inl ⟨hend1, fun s hs => (mem_append.mp hs).elim (hend s) (hnone s)⟩
    · exact .inr ⟨hend1, s, mem_append_right _ hs, hffff⟩

/-- Discovery from a handle finds the services from there on. -/
theorem discover_inRange (hmtu : 23 ≤ mtu) (hmem : ∀ n, mem n = true)
    (hext : extent 1 svcs ≤ 0x10000) (hpos : 1 ≤ start) (hstart : start ≤ 0xffff)
    (hrounds : (inRange start (listing 1 svcs)).length < rounds) :
    ∃ f, discover (server mtu mem (layout 1 svcs)) rounds (start - 1) =
        some f ∧ Lists mtu (inRange start (listing 1 svcs)) f := by
  -- Each response takes up one service at least, so the rounds last.
  induction rounds generalizing start with
  | zero => omega
  | succ n ih =>
    have ho := ordered_listing hext
    have hc : Asks ⟨mtu, mem, start, 0xffff, declUuid uuidPrimaryService⟩ :=
      ⟨rfl, rfl, hmem, hmtu⟩
    obtain ⟨len, taken, rest, hanswer, hrange, hnone, hw⟩ :=
      rxReadGroupType_inRange hc hpos hstart hext
    have hserver : server mtu mem (layout 1 svcs) ((start - 1 + 1) % 2 ^ 16) =
        answer start (len, taken) := by
      rw [Nat.sub_add_cancel hpos, Nat.mod_eq_of_lt (by omega)]
      exact hanswer
    have ho' : Ordered (taken ++ rest) := hrange ▸ ho.sublist filter_sublist
    rw [discover, hserver]
    by_cases hne : taken = []
    · rw [hrange, hne, hnone hne]
      refine ⟨_, rfl, rfl, le_refl _, ?_, .inl ⟨rfl, ?_⟩⟩
      · intro rsp hrsp
        cases hrsp
      · intro s hs
        cases hs
    have ho1 : Ordered taken := ho'.sublist (sublist_append_left _ _)
    have hprev : ∀ s ∈ taken, start - 1 < s.startHandle := by
      intro s hs
      have : start ≤ s.startHandle := le_of_inRange hrange hs
      omega
    have hread := rxRsp_answer hne hw ho1 hprev
    have hfits := fitting_answer hne hw ho1
    have hlen : 0 < taken.length := length_pos_of_ne_nil hne
    obtain ⟨u, hu, hlast⟩ := @lastEnd_mem (start - 1) taken hne
    have hnext := @inRange_lastEnd start _ _ _ (start - 1) ho hrange hne
    have hult := (ho1.sane u hu).lt
    simp only [answer, if_neg hne, hread]
    rw [hrange] at hrounds ⊢
    rw [length_append] at hrounds
    split
    · next hffff =>
      -- The last handle there is: nothing can follow.
      have hrest : rest = [] := by
        refine eq_nil_iff_forall_not_mem.mpr fun s hs => ?_
        have h1 := (pairwise_append.mp ho'.apart).2.2 u hu s hs
        have h2 := ho'.sane s (mem_append_right _ hs)
        have h3 := h2.le
        have h4 := h2.lt
        omega
      rw [hrest, append_nil]
      refine ⟨_, rfl, rfl, hlen, ?_, .inr ⟨rfl, u, hu, by omega⟩⟩
      intro rsp hrsp
      rw [mem_singleton.mp hrsp]
      exact hfits
    · next hffff =>
      have hless : (inRange (lastEnd (start - 1) taken + 1) (listing 1 svcs)).length < n := by
        rw [hnext]
        omega
      obtain ⟨f, hf, hl⟩ := ih (by omega) (by omega) hless
      rw [hnext] at hl
      rw [Nat.add_sub_cancel] at hf
      rw [hf]
      refine ⟨_, rfl, hl.more hne hfits fun s hs => ?_⟩
      have hle : s.endHandle ≤ lastEnd (start - 1) taken :=
        le_lastEnd ho1 s hs
      omega

/-- **Discovery is complete.** From any handle on, it ends with every primary
service declared there listed once and in order, with its UUID and its last
handle, the last service of the table with `0xffff` in place of it; every
response fits, with entries of the length told. -/
theorem discovers_services {t : Table} (hreg : registerSvcs svcs ⟨[], 0⟩ = some t) (hmtu : 23 ≤ mtu)
    (hmem : ∀ n, mem n = true) (hpos : 1 ≤ start) (hstart : start ≤ 0xffff)
    (hrounds : (inRange start (listing 1 svcs)).length < rounds) :
    ∃ f, discover (server mtu mem t.attrs) rounds (start - 1) = some f ∧
      Lists mtu (inRange start (listing 1 svcs)) f := by
  obtain ⟨hattrs, hext⟩ := registerSvcs_some hreg (Nat.zero_le _)
  rw [hattrs]
  exact discover_inRange hmtu hmem hext hpos hstart hrounds

end

/-- A service with a characteristic that has one descriptor, and one with
none. -/
def twoServices : List SvcDef :=
  [⟨true, ⟨declUuid 0x1800, rfl⟩, [⟨declUuid 0x2803, rfl⟩,
      ⟨declUuid 0x2a00, rfl⟩, ⟨declUuid 0x2901, rfl⟩]⟩, ⟨true, ⟨replicate 16 7, rfl⟩, []⟩]

theorem discovers_services_two : ∃ t f, registerSvcs twoServices ⟨[], 0⟩ = some t ∧
      discover (server 23 (fun _ => true) t.attrs) 3 0 = some f ∧
      Lists 23 [⟨1, 4, declUuid 0x1800⟩, ⟨5, 0xffff, replicate 16 7⟩] f := by
  obtain ⟨f, hf, hl⟩ := @discovers_services 23 1 3 (fun _ => true) twoServices
    _ rfl (by decide) (fun _ => rfl) (by decide) (by decide) (by decide)
  exact ⟨_, f, rfl, hf, hl⟩

/-- The last service is told with the end handle `0xffff`, whatever its last
handle is. There is no handle behind that, the one which the sum gives is
refused, and so is every request for which there is no mbuf. -/
theorem last_service_told_ffff : ∃ (svcs : List SvcDef) (t : Table),
      registerSvcs svcs ⟨[], 0⟩ = some t ∧ t.id = 5 ∧
      discover (server 23 (fun _ => true) t.attrs) 3 4 = some ⟨[⟨5, 0xffff, replicate 16 7⟩],
          [0x11 :: 20 :: encode ⟨5, 0xffff, replicate 16 7⟩], .complete⟩ ∧
      server 23 (fun _ => true) t.attrs ((0xffff + 1) % 2 ^ 16) = .error (attErrInvalidHandle, 0) ∧
      server 23 (fun _ => false) t.attrs 1 =
        .error (attErrInsufficientRes, 1) :=
  ⟨twoServices, _, rfl, rfl, by decide, rfl, rfl⟩

end Larva.Ble.Groups
