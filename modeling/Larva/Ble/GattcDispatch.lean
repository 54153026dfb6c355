import Larva.Ble.Gattc

/-!
# Which procedure is given a response

A response is meant for a procedure of its connection whose request is answered
with such a response. `ble_gattc_rx_extract_gen` takes the first procedure of
the connection that expects any response at all: it sets the operation to look
for to `BLE_GATT_OP_NONE`, whatever its caller asked for. So the procedure that
is taken is the right one exactly when the first that waits is
(`dispatch_right_iff`). If it is not, then either the union is read as what it
is not, or an assert fails, or the procedure is ended by a response to a
request it did not make.
-/

namespace Larva.Ble.Gattc

open List

/-! ## What a response is meant for -/

/-- The response that something is a part of; an error is a response to any
request. -/
def Rx.kind : Rx → Option Kind
  | .err _ _ => none
  | .mtu _ _ => some .mtu
  | .findInfoIdata _ _ | .findInfoComplete _ => some .findInfo
  | .findTypeValueHinfo _ _ | .findTypeValueComplete _ => some .findTypeValue
  | .readTypeAdata _ _ | .readTypeComplete _ => some .readType
  | .readGroupTypeAdata _ _ _ | .readGroupTypeComplete _ => some .readGroupType
  | .readRsp _ _ => some .read
  | .readBlobRsp _ _ => some .readBlob
  | .readMultRsp _ _ => some .readMult
  | .writeRsp => some .write
  | .prepWriteRsp _ _ => some .prepWrite
  | .execWriteRsp _ => some .execWrite
  | .indicateRsp => some .indicate

/-- The procedure has a request out that is answered with such a response. -/
def Proc.expects (p : Proc) (r : Rx) : Bool :=
  match p.phase with
  | .expecting k => r.kind = none || r.kind = some k
  | _ => false

/-- The first procedure of a connection that has a request out. -/
def firstWaiting (conn : Nat) (procs : List Proc) : Option Proc :=
  procs.find? fun p => p.conn == conn && p.phase.isExpecting

/-- A dispatch as it should be: it has an outcome, the response goes to a
procedure of the connection that expects it or to none, and a response that no
procedure expects changes none. -/
def Right (conn : Nat) (r : Rx) (procs : List Proc)
    (res : Except Fault Result) : Prop :=
  ∃ out, res = .ok out ∧ (∀ p, out.given = some p →
      p ∈ procs ∧ p.conn = conn ∧ p.expects r = true) ∧
    ((∀ p ∈ procs, ¬(p.conn = conn ∧ p.expects r = true)) → out.procs = procs ∧ out.told = [])

/-- The operations with a request that is answered so. -/
def Kind.ops : Kind → List Op
  | .mtu => [.mtu]
  | .findInfo => [.discAllDscs]
  | .findTypeValue => [.discSvcUuid]
  | .readType => [.findIncSvcs, .discAllChrs, .discChrsUuid, .readUuid]
  | .read => [.read, .readLong, .findIncSvcs]
  | .readBlob => [.readLong]
  | .readMult => [.readMult]
  | .readGroupType => [.discAllSvcs]
  | .write => [.write]
  | .prepWrite => [.writeLong, .writeReliable]
  | .execWrite => [.writeLong, .writeReliable]
  | .indicate => [.indicate]

theorem mem_ops {op : Op} {k : Kind} (h : k ∈ op.answers) : op ∈ k.ops := by
  revert h
  cases op <;> cases k <;> decide

/-! ## What is taken out -/

section

variable {app : App} {link : Option Nat} {conn : Nat} {r : Rx} {p : Proc} {procs seen : List Proc}
  {entries : Option (List RxEntry)} {f : Proc → Option Out} {out : Result} {op : Op}
  {es : List RxEntry}

theorem procMatches_none :
    procMatches p conn none true = (p.conn == conn && p.phase.isExpecting) := by
  unfold procMatches
  by_cases hconn : conn = p.conn
  · subst hconn
    cases hp : p.phase.isExpecting <;> simp [hp]
  · have hconn' : ¬p.conn = conn := fun h => hconn h.symm
    simp [hconn, hconn']

/-- The search finds nothing if no procedure waits. -/
theorem rxExtractLoop_none (h : firstWaiting conn procs = none) :
    rxExtractLoop conn none entries seen procs = .ok none := by
  induction procs generalizing seen with
  | nil => rfl
  | cons q l ih =>
    unfold firstWaiting at h
    rw [find?_cons] at h
    split at h
    · cases h
    · next hq =>
      rw [rxExtractLoop, procMatches_none, hq]
      exact ih h

/-- Otherwise it comes to the first that does. -/
theorem rxExtractLoop_some (h : firstWaiting conn procs = some p) :
    ∃ rest, rxExtractLoop conn none entries seen procs =
      (rxExtractCb entries p).map fun entry => some ⟨p, entry, rest⟩ := by
  induction procs generalizing seen with
  | nil => cases h
  | cons q l ih =>
    unfold firstWaiting at h
    rw [find?_cons] at h
    rw [rxExtractLoop, procMatches_none]
    split at h
    · next hq =>
      cases h
      exact ⟨seen ++ l, by rw [hq]; rfl⟩
    · next hq =>
      rw [hq]
      exact ih h

/-! ## What a dispatch does -/

/-- Nothing happens. -/
def untouched (procs : List Proc) : Except Fault Result := .ok ⟨procs, none, []⟩

/-- A dispatch by operation gives the response to the first procedure that
waits, whatever operation that has. -/
theorem giveOp_some (op : Op) (f : Proc → Option Out) (h : firstWaiting conn procs = some p) :
    ∃ t, t.proc = p ∧ giveOp conn op f procs = give f t := by
  obtain ⟨rest, hrest⟩ := @rxExtractLoop_some conn p procs [] none h
  refine ⟨⟨p, none, rest⟩, rfl, ?_⟩
  unfold giveOp rxExtractGen
  rw [hrest]
  rfl

/-- A dispatch by entries gives it to that procedure too, or asserts. -/
theorem giveEntry_some (es : List RxEntry) (h : firstWaiting conn procs = some p) :
    rxEntryFind p.var.op es = none ∧ giveEntry conn es procs = .error .assert ∨
      ∃ (entry : RxEntry) (t : Taken), rxEntryFind p.var.op es = some entry ∧
        t.proc = p ∧ giveEntry conn es procs = give entry.cb t := by
  obtain ⟨rest, hrest⟩ := @rxExtractLoop_some conn p procs [] (some es) h
  unfold giveEntry rxExtractGen
  rw [hrest]
  cases hfind : rxEntryFind p.var.op es with
  | none =>
    have hcb : rxExtractCb (some es) p = .error .assert := by
      simp only [rxExtractCb, hfind]
    exact .inl ⟨rfl, by rw [hcb]; rfl⟩
  | some entry =>
    have hcb : rxExtractCb (some es) p = .ok (some entry) := by
      simp only [rxExtractCb, hfind]
    exact .inr ⟨entry, ⟨p, some entry, rest⟩, rfl, rfl, by rw [hcb]; rfl⟩

/-- A response for a connection on which no procedure waits has no effect. -/
theorem rx_untouched (h : firstWaiting conn procs = none) :
    rx app link conn r procs = untouched procs := by
  cases r <;> simp only [rx, giveOp, giveEntry, rxErr, rxExtractGen, rxExtractLoop_none h] <;> rfl

theorem give_given {t : Taken} (h : give f t = .ok out) : out.given = some t.proc := by
  unfold give at h
  split at h
  · cases h
  · cases h
    rfl

/-! ## Each function and its member of the union -/

/-- The function has an outcome for the operation it is for. -/
def Reads (op : Op) (f : Proc → Option Out) : Prop := ∀ p, p.var.op = op → (f p).isSome

theorem Reads.of (h : ∀ conn cb var phase fits,
    var.op = op → (f ⟨conn, cb, var, phase, fits⟩).isSome) : Reads op f :=
  fun p => h p.conn p.cb p.var p.phase p.fits

/-- The functions that end their procedure, or go on where it stands. -/
@[simp] theorem reads_plain : (∀ n m, Reads .mtu (mtuRxRsp app n m)) ∧
    (∀ n, Reads .discAllSvcs (discAllSvcsRxComplete app n)) ∧
    (∀ n, Reads .discSvcUuid (discSvcUuidRxComplete app n)) ∧
    (∀ n, Reads .findIncSvcs (findIncSvcsRxComplete app n)) ∧
    (∀ n, Reads .discAllChrs (discAllChrsRxComplete app n)) ∧
    (∀ n, Reads .discChrsUuid (discChrUuidRxComplete app n)) ∧
    (∀ n, Reads .discAllDscs (discAllDscsRxComplete app n)) ∧
    (∀ n v, Reads .read (readRxReadRsp app n v)) ∧
    (∀ n, Reads .readUuid (readUuidRxComplete app n)) ∧
    (∀ n v, Reads .readMult (readMultRxReadMultRsp app n v)) ∧ Reads .write (writeRxRsp app) ∧
    (∀ n, Reads .writeLong (writeLongRxExec app n)) ∧
    (∀ n, Reads .writeReliable (writeReliableRxExec app n)) ∧
    Reads .indicate (indicateRxRsp app) := by
  refine ⟨?_, ?_, ?_, ?_, ?_, ?_, ?_, ?_, ?_, ?_, ?_, ?_, ?_, ?_⟩ <;> intros <;>
    refine .of fun _ _ var _ _ hop => ?_
  all_goals
    cases var <;> cases hop
    rfl

/-- Those that look at what came. -/
@[simp] theorem reads_split : (∀ n m v, Reads .discAllSvcs (discAllSvcsRxAdata app n m v)) ∧
    (∀ n m, Reads .discSvcUuid (discSvcUuidRxHinfo app n m)) ∧
    (∀ n v, Reads .findIncSvcs (findIncSvcsRxAdata app n v)) ∧
    (∀ n v, Reads .findIncSvcs (findIncSvcsRxReadRsp app n v)) ∧
    (∀ n v, Reads .discAllChrs (discAllChrsRxAdata app n v)) ∧
    (∀ n v, Reads .discChrsUuid (discChrUuidRxAdata app n v)) ∧
    (∀ n v, Reads .discAllDscs (discAllDscsRxIdata app n v)) ∧
    (∀ n v, Reads .readUuid (readUuidRxAdata app n v)) ∧
    (∀ link n v, Reads .readLong (readLongRxReadRsp app link n v)) ∧
    (∀ n rsp, Reads .writeLong (writeLongRxPrep app n rsp)) ∧
    (∀ n rsp, Reads .writeReliable (writeReliableRxPrep app n rsp)) := by
  refine ⟨?_, ?_, ?_, ?_, ?_, ?_, ?_, ?_, ?_, ?_, ?_⟩ <;> intros <;>
    refine .of fun _ _ var _ _ hop => ?_
  all_goals
    cases var <;> cases hop
    simp only [discAllSvcsRxAdata, discSvcUuidRxHinfo, findIncSvcsRxAdata, findIncSvcsRxReadRsp,
      discAllChrsRxAdata, discChrUuidRxAdata, discAllDscsRxIdata, readUuidRxAdata,
      readLongRxReadRsp, writeLongRxPrep, writeReliableRxPrep]
    repeat' split
    all_goals rfl

/-! ## The right procedure -/

theorem giveOp_ok (hw : firstWaiting conn procs = some p) (hf : (f p).isSome) :
    ∃ out, giveOp conn op f procs = .ok out := by
  obtain ⟨t, rfl, ht⟩ := giveOp_some op f hw
  obtain ⟨o, ho⟩ := Option.isSome_iff_exists.mp hf
  rw [ht, give, ho]
  exact ⟨_, rfl⟩

theorem rxEntryFind_mem (h : op ∈ es.map RxEntry.op) :
    ∃ entry ∈ es, rxEntryFind op es = some entry ∧ entry.op = op := by
  induction es with
  | nil => cases h
  | cons e es ih =>
    unfold rxEntryFind
    split
    · next he => exact ⟨e, mem_cons_self, rfl, he⟩
    · next he =>
      obtain ⟨entry, hm, hf⟩ := ih ((mem_cons.mp h).resolve_left (Ne.symm he))
      exact ⟨entry, mem_cons_of_mem e hm, hf⟩

theorem giveEntry_ok (hw : firstWaiting conn procs = some p) (hmem : p.var.op ∈ es.map RxEntry.op)
    (hes : ∀ e ∈ es, Reads e.op e.cb) : ∃ out, giveEntry conn es procs = .ok out := by
  obtain ⟨entry, hm, hfind, hop⟩ := rxEntryFind_mem hmem
  rcases giveEntry_some es hw with ⟨hnone, _⟩ | ⟨entry', t, hf', rfl, ht⟩
  · rw [hnone] at hfind
    cases hfind
  · rw [hfind] at hf'
    cases hf'
    obtain ⟨o, ho⟩ := Option.isSome_iff_exists.mp (hes entry hm t.proc hop.symm)
    rw [ht, give, ho]
    exact ⟨_, rfl⟩

theorem rxErr_some (app : App) (a b : Nat) (hw : firstWaiting conn procs = some p) :
    ∃ rest told, rxErr app conn a b procs = .ok ⟨rest, some p, told⟩ := by
  obtain ⟨rest, hrest⟩ := @rxExtractLoop_some conn p procs [] none hw
  unfold rxErr rxExtractGen
  rw [hrest]
  exact ⟨_, _, rfl⟩

variable (hw : firstWaiting conn procs = some p)
include hw

/-- A response that has an outcome was given to the first procedure that
waits. -/
theorem rx_given (h : rx app link conn r procs = .ok out) : out.given = some p := by
  have hop : ∀ {op : Op} {f : Proc → Option Out},
      giveOp conn op f procs = .ok out → out.given = some p := by
    intro op f h
    obtain ⟨t, rfl, ht⟩ := giveOp_some op f hw
    rw [ht] at h
    exact give_given h
  have hentry : ∀ {es : List RxEntry}, giveEntry conn es procs = .ok out → out.given = some p := by
    intro es h
    rcases giveEntry_some es hw with ⟨_, ht⟩ | ⟨entry, t, _, rfl, ht⟩
    · rw [ht] at h
      cases h
    · rw [ht] at h
      exact give_given h
  cases r with
  | err a b =>
    obtain ⟨rest, told, ht⟩ := rxErr_some app a b hw
    rw [rx, ht] at h
    cases h
    rfl
  | readTypeAdata _ _ | readTypeComplete _ | readRsp _ _ | prepWriteRsp _ _
  | execWriteRsp _ => exact hentry h
  | _ => exact hop h

/-- A response that the procedure expects has an outcome. -/
theorem rx_ok (hex : p.expects r = true) : ∃ out, rx app link conn r procs = .ok out := by
  have hops : ∀ k, r.kind = some k → p.var.op ∈ k.ops := by
    intro k hk
    unfold Proc.expects at hex
    split at hex
    · next k' hphase =>
      rw [hk] at hex
      have hkk : k = k' := by simpa using hex
      rw [hkk]
      exact mem_ops (p.fits k' hphase)
    · cases hex
  have hone : ∀ {k op f}, r.kind = some k → k.ops = [op] → Reads op f → (f p).isSome := by
    intro k op f hk hlist hf
    have hop := hops k hk
    rw [hlist] at hop
    exact hf p (mem_singleton.mp hop)
  cases r with
  | err a b =>
    obtain ⟨rest, told, ht⟩ := rxErr_some app a b hw
    exact ⟨_, ht⟩
  | readTypeAdata | readTypeComplete | readRsp | prepWriteRsp | execWriteRsp =>
    exact giveEntry_ok hw (hops _ rfl) (by simp)
  | _ => exact giveOp_ok hw (hone rfl rfl (by simp))

theorem firstWaiting_mem : p ∈ procs ∧ p.conn = conn := by
  have hp := find?_some hw
  rw [Bool.and_eq_true, beq_iff_eq] at hp
  exact ⟨mem_of_find?_eq_some hw, hp.1⟩

end

/-- **A response goes where it should exactly when the first procedure of the
connection that waits for any response expects this one.** -/
theorem dispatch_right_iff (app : App) (link : Option Nat) (conn : Nat) (r : Rx)
    (procs : List Proc) : Right conn r procs (rx app link conn r procs) ↔
      ∀ p, firstWaiting conn procs = some p → p.expects r = true := by
  constructor
  · intro hright p hw
    obtain ⟨out, hout, hgiven, _⟩ := hright
    exact (hgiven p (rx_given hw hout)).2.2
  intro hall
  cases hw : firstWaiting conn procs with
  | none =>
    refine ⟨⟨procs, none, []⟩, rx_untouched hw, ?_, fun _ => ⟨rfl, rfl⟩⟩
    intro p hp
    cases hp
  | some p =>
    have hex := hall p hw
    obtain ⟨hmem, hconn⟩ := firstWaiting_mem hw
    obtain ⟨out, hout⟩ : ∃ out, rx app link conn r procs = .ok out :=
      rx_ok hw hex
    refine ⟨out, hout, ?_, ?_⟩
    · intro q hq
      rw [rx_given hw hout] at hq
      cases hq
      exact ⟨hmem, hconn, hex⟩
    · intro hno
      exact (hno p hmem ⟨hconn, hex⟩).elim

/-- A read and an MTU exchange on one connection, with the read in front. -/
def readThenMtu : List Proc :=
  [⟨1, true, .read 3, .expecting .read, fun k h => by cases h; decide⟩,
    ⟨1, true, .mtu, .expecting .mtu, fun k h => by cases h; decide⟩]

/-- The response to the exchange is given to the read, whose handle is then
taken for the address of a callback; and the peer can fail an assert with a
response that nobody asked for. -/
theorem dispatch_goes_wrong :
    rx (fun _ => 0) (some 23) 1 (.mtu 0 64) readThenMtu = .error .variant ∧
      rx (fun _ => 0) (some 23) 1 (.readTypeComplete 0) readThenMtu = .error .assert ∧
      ¬Right 1 (.mtu 0 64) readThenMtu (rx (fun _ => 0) (some 23) 1 (.mtu 0 64) readThenMtu) := by
  refine ⟨rfl, rfl, ?_⟩
  intro hright
  obtain ⟨out, hout, _⟩ := hright
  cases hout

end Larva.Ble.Gattc
