import Larva.Lib.Bytes
import Larva.Lib.Crash

/-!
# The circular log buffer

`libs/util/src/cbmem.c`: a buffer of bytes that holds entries of varying
length, each behind a header of four bytes. New entries go behind the newest
one, and back to the front of the buffer when they would run past its end;
the oldest entries give way.

A pointer into the buffer is an offset from `c_buf`, the null pointer is
`none`, and the buffer's end `c_buf_end` is the length of the byte list. Every
read and write is checked against that length: one that leaves the buffer, or
goes through a null pointer, is undefined in C and an abort here. The lock
`c_lock` makes each call one step, so it is left out, and with it the error
returns for a lock that cannot be had.
-/

namespace Larva.Util

open Larva.Bytes Larva.Crash

structure Cbmem where
  cEntryStart : Option Nat
  cEntryEnd : Option Nat
  cBufCurEnd : Option Nat
  cBuf : List UInt8
deriving DecidableEq, Repr

abbrev CbmemM := Prog Cbmem Empty

/-- An entry as a visitor sees it. -/
structure Visit where
  hdr : Nat
  data : List UInt8
deriving DecidableEq, Repr

structure CbmemIter where
  ciStart : Option Nat
  ciCur : Option Nat
  ciEnd : Option Nat

namespace Cbmem

/-- The size of `struct cbmem_entry_hdr`. -/
def hdrSz : Nat := 4

def cbmemInit (buf : List UInt8) : Cbmem :=
  { cEntryStart := none, cEntryEnd := none, cBufCurEnd := none, cBuf := buf }

/-- The field `ceh_len` of a header at offset `p`. -/
def lenAt (buf : List UInt8) (p : Nat) : Option Nat :=
  match buf[p]?, buf[p + 1]? with
  | some lo, some hi => some (lo.toNat + 256 * hi.toNat)
  | _, _ => none

def deref (p : Option Nat) : CbmemM Nat :=
  match p with
  | some a => pure a
  | none => Prog.abort

def cehLen (p : Nat) : CbmemM Nat := do
  let s ← Prog.get
  match lenAt s.cBuf p with
  | some len => pure len
  | none => Prog.abort

/-- `CBMEM_ENTRY_SIZE`. -/
def entrySize (p : Nat) : CbmemM Nat := do
  let len ← cehLen p
  pure (hdrSz + len)

/-- `CBMEM_ENTRY_NEXT`. -/
def entryNext (p : Nat) : CbmemM Nat := do
  let size ← entrySize p
  pure (p + size)

def store (p : Nat) (bs : List UInt8) : CbmemM Unit := do
  let s ← Prog.get
  if p + bs.length ≤ s.cBuf.length then
    Prog.modify fun s => { s with cBuf := splice s.cBuf p bs }
  else Prog.abort

/-! ## Appending -/

/-- Where the entry behind the newest one begins. -/
def nextDst : CbmemM Nat := do
  let s ← Prog.get
  match s.cEntryEnd with
  | some e => entryNext e
  | none => pure 0

/-- The log wraps: what was the next free byte becomes the logical end, and a
start at or behind it moves to the front. -/
def wrap (dst : Nat) : CbmemM Nat := do
  Prog.modify fun s => { s with
    cBufCurEnd := some dst
    cEntryStart := s.cEntryStart.map fun a => if dst ≤ a then 0 else a }
  pure 0

/-- The loop that moves the start forward, entry by entry. -/
def moveLoop (stop : Nat) : Nat → Nat → CbmemM Nat
  | 0, _ => Prog.spin
  | fuel + 1, start =>
    if start < stop then do
      let next ← entryNext start
      let s ← Prog.get
      if some next = s.cBufCurEnd then pure 0 else moveLoop stop fuel next
    else pure start

/-- Entries at the start give way when the new one would overwrite them. The
bounds are those of the source: `stop` is `dst + len`, without the header. -/
def moveStart (dst stop : Nat) : CbmemM Unit := do
  let s ← Prog.get
  match s.cEntryStart with
  | none => pure ()
  | some start => do
      let size ← entrySize start
      if dst < start + size ∧ start < stop then do
        let start' ← moveLoop stop (s.cBuf.length + 1) start
        Prog.modify fun s => { s with cEntryStart := some start' }
      else pure ()

/-- The entry is copied in and becomes the newest. The field `ceh_flags`
behind its length is never written. -/
def copyIn (dst : Nat) (data : List UInt8) : CbmemM Unit := do
  store dst (le16 data.length)
  store (dst + hdrSz) data
  Prog.modify fun s => { s with
    cEntryEnd := some dst
    cEntryStart := some (s.cEntryStart.getD dst) }

def cbmemAppend (data : List UInt8) : CbmemM Unit := do
  let s ← Prog.get
  let next ← nextDst
  let dst ← (if s.cBuf.length < next + data.length then wrap next
    else pure next)
  moveStart dst (dst + data.length)
  copyIn dst data

def cbmemFlush : CbmemM Unit :=
  Prog.modify fun s =>
    { s with cEntryStart := none, cEntryEnd := none, cBufCurEnd := none }

/-! ## Walking -/

def cbmemIterStart : CbmemM CbmemIter := do
  let s ← Prog.get
  pure { ciStart := s.cEntryStart, ciCur := s.cEntryStart
         ciEnd := s.cEntryEnd }

/-- The order of addresses; the null pointer lies below the buffer. -/
def ptrLt : Option Nat → Option Nat → Bool
  | some a, some b => a < b
  | none, some _ => true
  | _, none => false

def cbmemIterNext (iter : CbmemIter) : CbmemM (Option Nat × CbmemIter) :=
  if ptrLt iter.ciEnd iter.ciStart then do
    let cur ← deref iter.ciCur
    let next ← entryNext cur
    let s ← Prog.get
    if some next = s.cBufCurEnd then
      pure (some cur, { iter with ciCur := some 0, ciStart := some 0 })
    else pure (some cur, { iter with ciCur := some next })
  else do
    let e ← deref iter.ciEnd
    let stop ← entryNext e
    if iter.ciCur = some stop then pure (none, iter)
    else do
      let cur ← deref iter.ciCur
      let next ← entryNext cur
      pure (some cur, { iter with ciCur := some next })

/-- The bytes `cbmem_read` copies out; `none` is its error return. -/
def cbmemRead (hdr off len : Nat) : CbmemM (Option (List UInt8)) := do
  let n ← cehLen hdr
  let len := if n < off + len then n - off else len
  if n < off then pure none
  else do
    let s ← Prog.get
    if hdr + hdrSz + off + len ≤ s.cBuf.length then
      pure (some ((s.cBuf.drop (hdr + hdrSz + off)).take len))
    else Prog.abort

def walkLoop {α : Type} (walkFunc : Nat → α → CbmemM (Nat × α)) : Nat → CbmemIter → α → CbmemM α
  | 0, _, _ => Prog.spin
  | fuel + 1, iter, arg => do
      let (hdr, iter) ← cbmemIterNext iter
      match hdr with
      | none => pure arg
      | some hdr => do
          let (rc, arg) ← walkFunc hdr arg
          if rc = 1 then pure arg else walkLoop walkFunc fuel iter arg

def cbmemWalk {α : Type} (walkFunc : Nat → α → CbmemM (Nat × α)) (arg : α) : CbmemM α := do
  let iter ← cbmemIterStart
  let s ← Prog.get
  walkLoop walkFunc (s.cBuf.length + 1) iter arg

/-- The visitor that reads each entry whole and notes it down. -/
def note (hdr : Nat) (seen : List Visit) : CbmemM (Nat × List Visit) := do
  let data ← cbmemRead hdr 0 0xffff
  pure (0, seen ++ [{ hdr, data := data.getD [] }])

end Cbmem

/-- What a caller does to the log. -/
inductive CbmemOp where
  | append (data : List UInt8)
  | flush

def CbmemOp.run : CbmemOp → CbmemM Unit
  | .append data => Cbmem.cbmemAppend data
  | .flush => Cbmem.cbmemFlush

end Larva.Util
