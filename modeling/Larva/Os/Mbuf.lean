import Larva.Lib.Bytes
import Larva.Lib.Crash
import Mathlib.Logic.Function.Basic

/-!
# Memory buffers

`libs/os/src/os_mbuf.c`, on the block pools of `os_mempool.c`: chains of
fixed-size buffers, taken from a pool and linked through `om_next`, that
together hold a packet. The first buffer of a chain may carry a packet header
at the front of its data buffer, with the length of the whole packet in its
first two bytes.

An mbuf is named by a number, its address. `om_data` is the offset of the data
in the mbuf's own data buffer, which is kept byte for byte, packet header
included. A copy that leaves a data buffer is undefined in C and an abort
here, and so is a step through a null pointer. A pool's free list is kept as a
list next to its counter `mp_num_free`; the address checks of
`os_memblock_put` are the test that the block is one of the pool's. Critical
sections make the pool operations single steps.

Loops along a chain, and loops that take one mbuf per turn, run on a fuel of
the number of blocks there are, and one or two more.
-/

namespace Larva.Os.Mbufs

open Larva.Bytes Larva.Crash

/-- `struct os_mbuf` with its data buffer; `omOmp` is the pool's number. -/
structure Mbuf where
  omData : Nat
  omFlags : Nat
  omPkthdrLen : Nat
  omLen : Nat
  omOmp : Nat
  omNext : Option Nat
  omDatabuf : List UInt8
deriving DecidableEq

/-- `struct os_mbuf_pool` with the memory pool behind it. -/
structure MbufPool where
  ompDatabufLen : Nat
  mpBlocks : List Nat
  mpNumFree : Nat
  mpFree : List Nat
deriving DecidableEq

structure MbufSt where
  pools : List MbufPool
  mbuf : Nat → Mbuf

inductive MbufRc where
  | ok
  | enomem
  | einval
  | invalidParm
  | minusOne
deriving DecidableEq, Repr

abbrev MbufM := Prog MbufSt Empty

/-- A conversion to sixteen bits without sign. -/
def u16 (x : Int) : Nat := (x % 2 ^ 16).toNat

/-- The size of `struct os_mbuf_pkthdr`. -/
def pkthdrSz : Nat := 8

namespace Mbuf

/-- `OS_MBUF_IS_PKTHDR`. -/
def isPkthdr (m : Mbuf) : Bool := pkthdrSz ≤ m.omPkthdrLen

/-- The field `omp_len` of the packet header. -/
def ompLen (m : Mbuf) : Nat := ofLe16 m.omDatabuf

/-- `OS_MBUF_LEADINGSPACE`. -/
def leadingspace (m : Mbuf) : Nat :=
  u16 (m.omData - (if m.isPkthdr then m.omPkthdrLen else 0 : Nat))

end Mbuf

namespace MbufSt

def upd (s : MbufSt) (a : Nat) (f : Mbuf → Mbuf) : MbufSt :=
  { s with mbuf := Function.update s.mbuf a (f (s.mbuf a)) }

def setPool (s : MbufSt) (mp : Nat) (p : MbufPool) : MbufSt :=
  { s with pools := s.pools.set mp p }

/-- The number of blocks of all pools. -/
def numBlocks (s : MbufSt) : Nat := (s.pools.flatMap (·.mpBlocks)).length

end MbufSt

namespace MbufM

def mb (a : Nat) : MbufM Mbuf := do
  let s ← Prog.get
  pure (s.mbuf a)

def upd (a : Nat) (f : Mbuf → Mbuf) : MbufM Unit :=
  Prog.modify fun s => s.upd a f

def fuel : MbufM Nat := do
  let s ← Prog.get
  pure (s.numBlocks + 2)

def pool (omp : Nat) : MbufM MbufPool := do
  let s ← Prog.get
  match s.pools[omp]? with
  | some p => pure p
  | none => Prog.abort

/-- A copy into the data buffer of `a`. -/
def store (a off : Nat) (bs : List UInt8) : MbufM Unit := do
  let m ← mb a
  if off + bs.length ≤ m.omDatabuf.length then
    upd a fun m => { m with omDatabuf := splice m.omDatabuf off bs }
  else Prog.abort

/-- A copy out of the data buffer of `a`. -/
def load (a off n : Nat) : MbufM (List UInt8) := do
  let m ← mb a
  if off + n ≤ m.omDatabuf.length then pure (slice m.omDatabuf off n)
  else Prog.abort

/-- `OS_MBUF_TRAILINGSPACE`. -/
def trailingspace (a : Nat) : MbufM Nat := do
  let m ← mb a
  let p ← pool m.omOmp
  pure (u16 (p.ompDatabufLen - (m.omData + m.omLen : Nat)))

/-- An assignment to `omp_len`. -/
def setOmpLen (a : Nat) (n : Int) : MbufM Unit := store a 0 (le16 (u16 n))

end MbufM

open MbufM

/-! ## Pools -/

def osMemblockGet (mp : Nat) : MbufM (Option Nat) := do
  let s ← Prog.get
  match s.pools[mp]? with
  | none => pure none
  | some p =>
    if p.mpNumFree = 0 then pure none
    else match p.mpFree with
      | [] => Prog.abort
      | block :: rest => do
          Prog.modify fun s => s.setPool mp { p with mpNumFree := p.mpNumFree - 1, mpFree := rest }
          pure (some block)

def osMemblockPut (mp block : Nat) : MbufM MbufRc := do
  let s ← Prog.get
  match s.pools[mp]? with
  | none => pure .invalidParm
  | some p =>
    if block ∈ p.mpBlocks then do
      Prog.modify fun s => s.setPool mp
        { p with mpNumFree := p.mpNumFree + 1
                 mpFree := block :: p.mpFree }
      pure .ok
    else pure .invalidParm

def osMbufGet (omp leadingspace : Nat) : MbufM (Option Nat) := do
  match ← osMemblockGet omp with
  | none => pure none
  | some om => do
      upd om fun m => { m with
        omNext := none, omFlags := 0, omPkthdrLen := 0, omLen := 0
        omData := leadingspace, omOmp := omp }
      pure (some om)

/-- The header length is kept in eight bits, the data pointer is not. -/
def osMbufGetPkthdr (omp userPkthdrLen : Nat) : MbufM (Option Nat) := do
  match ← osMbufGet omp 0 with
  | none => pure none
  | some om => do
      upd om fun m => { m with
        omPkthdrLen := (userPkthdrLen + pkthdrSz) % 256
        omData := m.omData + (userPkthdrLen + pkthdrSz) }
      store om 0 (List.replicate pkthdrSz 0)
      pure (some om)

def osMbufFree (om : Nat) : MbufM MbufRc := do
  let m ← mb om
  osMemblockPut m.omOmp om

def freeLoop : Nat → Option Nat → MbufM MbufRc
  | 0, _ => Prog.spin
  | _ + 1, none => pure .ok
  | fuel + 1, some om => do
      let m ← mb om
      let rc ← osMbufFree om
      if rc = .ok then freeLoop fuel m.omNext else pure rc

def osMbufFreeChain (om : Option Nat) : MbufM MbufRc := do
  let n ← fuel
  freeLoop n om

/-- `_os_mbuf_copypkthdr`. -/
def osMbufCopypkthdr (new old : Nat) : MbufM Unit := do
  let m ← mb old
  let hdr ← load old 0 m.omPkthdrLen
  store new 0 hdr

/-! ## At the end of a chain -/

def lastLoop : Nat → Nat → MbufM Nat
  | 0, _ => Prog.spin
  | fuel + 1, om => do
      let m ← mb om
      match m.omNext with
      | none => pure om
      | some next => lastLoop fuel next

/-- The last mbuf of a chain. -/
def lastOf (om : Nat) : MbufM Nat := do
  let n ← fuel
  lastLoop n om

/-- The first part of the data goes where the last mbuf has room. What is
left of the data is returned. -/
def appendHere (last : Nat) (data : List UInt8) : MbufM (List UInt8) := do
  let space ← trailingspace last
  if 0 < space then do
    let n := min space data.length
    let m ← mb last
    store last (m.omData + m.omLen) (data.take n)
    upd last fun m => { m with omLen := u16 (m.omLen + n) }
    pure (data.drop n)
  else pure data

/-- The rest goes to new mbufs. What no mbuf was found for is returned. -/
def appendLoop (omp : Nat) : Nat → Nat → List UInt8 → MbufM (List UInt8)
  | 0, _, _ => Prog.spin
  | fuel + 1, last, data =>
    if data.length = 0 then pure data
    else do
      match ← osMbufGet omp 0 with
      | none => pure data
      | some new => do
          let p ← pool omp
          let n := min p.ompDatabufLen data.length
          upd new fun m => { m with omLen := n }
          let m ← mb new
          store new m.omData (data.take n)
          upd last fun m => { m with omNext := some new }
          appendLoop omp fuel new (data.drop n)

def osMbufAppend (om : Option Nat) (data : List UInt8) : MbufM MbufRc := do
  match om with
  | none => pure .einval
  | some om => do
      let m ← mb om
      let last ← lastOf om
      let rest ← appendHere last data
      let n ← fuel
      let rest ← appendLoop m.omOmp n last rest
      let m ← mb om
      (if m.isPkthdr then
        setOmpLen om (m.ompLen + (data.length - rest.length : Int))
      else pure ())
      if rest.length ≠ 0 then pure .enomem else pure .ok

/-- The new bytes, as an mbuf and an offset in its data buffer. -/
def osMbufExtend (om len : Nat) : MbufM (Option (Nat × Nat)) := do
  let m ← mb om
  let p ← pool m.omOmp
  if p.ompDatabufLen < len then pure none
  else do
    let last ← lastOf om
    let space ← trailingspace last
    let last ← (if space < len then do
      let newm ← osMbufGet m.omOmp 0
      match newm with
      | none => pure none
      | some newm => do
          upd last fun m => { m with omNext := some newm }
          pure (some newm)
      else pure (some last))
    match last with
    | none => pure none
    | some last => do
        let l ← mb last
        upd last fun m => { m with omLen := u16 (m.omLen + len) }
        let m ← mb om
        (if m.isPkthdr then setOmpLen om (m.ompLen + len) else pure ())
        pure (some (last, l.omData + l.omLen))

/-- The lengths of a chain's mbufs, added to the header of `first` one by
one. -/
def concatLoop (first : Nat) : Nat → Option Nat → MbufM Unit
  | 0, _ => Prog.spin
  | _ + 1, none => pure ()
  | fuel + 1, some cur => do
      let c ← mb cur
      let f ← mb first
      setOmpLen first (f.ompLen + c.omLen)
      concatLoop first fuel c.omNext

def osMbufConcat (first second : Nat) : MbufM Unit := do
  let cur ← lastOf first
  upd cur fun m => { m with omNext := some second }
  let f ← mb first
  let s ← mb second
  (if f.isPkthdr then
    if s.isPkthdr then setOmpLen first (f.ompLen + s.ompLen)
    else do
      let n ← fuel
      concatLoop first n (some second)
  else pure ())
  upd second fun m => { m with omPkthdrLen := 0 }

/-! ## At the front of a chain -/

def prependLoop : Nat → Nat → Nat → MbufM (Option Nat)
  | 0, _, _ => Prog.spin
  | fuel + 1, om, len => do
      let m ← mb om
      let leading := min len m.leadingspace
      upd om fun m => { m with
        omData := m.omData - leading, omLen := u16 (m.omLen + leading) }
      (if m.isPkthdr then setOmpLen om (m.ompLen + leading) else pure ())
      if len - leading = 0 then pure (some om)
      else do
        let p ← (if m.isPkthdr then
          osMbufGetPkthdr m.omOmp (m.omPkthdrLen - pkthdrSz)
          else osMbufGet m.omOmp 0)
        match p with
        | none => do
            let _ ← osMbufFreeChain (some om)
            pure none
        | some p => do
            (if m.isPkthdr then do
              osMbufCopypkthdr p om
              upd om fun m => { m with omPkthdrLen := 0 }
            else pure ())
            let space ← trailingspace p
            upd p fun m => { m with omData := m.omData + space }
            upd p fun m => { m with omNext := some om }
            prependLoop fuel p (len - leading)

def osMbufPrepend (om len : Nat) : MbufM (Option Nat) := do
  let n ← fuel
  prependLoop n om len

/-- The length that could not be trimmed is returned. -/
def trimHead : Nat → Option Nat → Nat → MbufM Nat
  | 0, _, _ => Prog.spin
  | _ + 1, none, len => pure len
  | fuel + 1, some a, len =>
    if len = 0 then pure 0
    else do
      let m ← mb a
      if m.omLen ≤ len then do
        upd a fun m => { m with omLen := 0 }
        trimHead fuel m.omNext (len - m.omLen)
      else do
        upd a fun m => { m with
          omLen := m.omLen - len, omData := m.omData + len }
        trimHead fuel (some a) 0

/-- The length of a chain, and its last mbuf. -/
def countLoop : Nat → Nat → Nat → MbufM (Nat × Nat)
  | 0, _, _ => Prog.spin
  | fuel + 1, a, count => do
      let m ← mb a
      match m.omNext with
      | none => pure (count + m.omLen, a)
      | some next => countLoop fuel next (count + m.omLen)

/-- The chain is cut off after `count` bytes. -/
def trimTail : Nat → Option Nat → Nat → MbufM Unit
  | 0, _, _ => Prog.spin
  | _ + 1, none, _ => pure ()
  | fuel + 1, some a, count => do
      let m ← mb a
      if count ≤ m.omLen then do
        upd a fun m => { m with omLen := count }
        match m.omNext with
        | none => pure ()
        | some next => do
            let _ ← osMbufFreeChain (some next)
            upd a fun m => { m with omNext := none }
      else trimTail fuel m.omNext (count - m.omLen)

def osMbufAdj (mp : Option Nat) (reqLen : Int) : MbufM Unit := do
  match mp with
  | none => pure ()
  | some mp => do
      let n ← fuel
      if 0 ≤ reqLen then do
        let len ← trimHead n (some mp) reqLen.toNat
        let m ← mb mp
        if m.isPkthdr then setOmpLen mp (m.ompLen - (reqLen - len))
        else pure ()
      else do
        let len := (-reqLen).toNat
        let (count, last) ← countLoop n mp 0
        let l ← mb last
        if len ≤ l.omLen then do
          upd last fun m => { m with omLen := m.omLen - len }
          let m ← mb mp
          if m.isPkthdr then setOmpLen mp (m.ompLen - len) else pure ()
        else do
          let count := count - len
          let m ← mb mp
          (if m.isPkthdr then setOmpLen mp count else pure ())
          trimTail n (some mp) count

/-! ## In the middle of a chain -/

/-- The mbuf that holds offset `off`, and the offset in its data. -/
def offLoop : Nat → Option Nat → Nat → MbufM (Option (Nat × Nat))
  | 0, _, _ => Prog.spin
  | _ + 1, none, _ => pure none
  | fuel + 1, some om, off => do
      let m ← mb om
      if off < m.omLen ∨ (m.omLen = off ∧ m.omNext = none) then
        pure (some (om, off))
      else offLoop fuel m.omNext (off - m.omLen)

def osMbufOff (om : Option Nat) (off : Nat) : MbufM (Option (Nat × Nat)) := do
  let n ← fuel
  offLoop n om off

/-- Existing data is overwritten. The offset into the first mbuf is used for
all of them, as the source does. The last mbuf reached is returned with what
is left of the data. -/
def copyLoop (curOff : Nat) : Nat → Nat → List UInt8 → MbufM (Nat × List UInt8)
  | 0, _, _ => Prog.spin
  | fuel + 1, cur, src => do
      let m ← mb cur
      let copylen := min (m.omLen - curOff) src.length
      (if 0 < copylen then store cur (m.omData + curOff) (src.take copylen)
      else pure ())
      let src := src.drop copylen
      if src.length = 0 then pure (cur, src)
      else match m.omNext with
        | none => pure (cur, src)
        | some next => copyLoop curOff fuel next src

def osMbufCopyinto (om off : Nat) (src : List UInt8) : MbufM MbufRc := do
  match ← osMbufOff (some om) off with
  | none => pure .minusOne
  | some (cur, curOff) => do
      let n ← fuel
      let (cur, rest) ← copyLoop curOff n cur src
      if rest.length = 0 then pure .ok
      else do
        -- The length is passed on in sixteen bits.
        let rc ← osMbufAppend (some cur) (rest.take (rest.length % 2 ^ 16))
        if rc ≠ .ok then pure rc
        else do
          let m ← mb om
          (if m.isPkthdr then
            setOmpLen om (max m.ompLen (off + rest.length) : Nat)
          else pure ())
          pure .ok

/-! ## Whole chains -/

/-- Flags, length and data of one mbuf are copied to another. -/
def dupInto (copy om : Nat) : MbufM Unit := do
  let m ← mb om
  upd copy fun c => { c with omFlags := m.omFlags, omLen := m.omLen }
  let c ← mb copy
  let data ← load om m.omData m.omLen
  store copy c.omData data

def dupLoop (omp head : Nat) : Nat → Nat → Option Nat → MbufM (Option Nat)
  | 0, _, _ => Prog.spin
  | _ + 1, _, none => pure (some head)
  | fuel + 1, copy, some om => do
      let m ← mb om
      let new ← osMbufGet omp m.leadingspace
      upd copy fun c => { c with omNext := new }
      match new with
      | none => do
          let _ ← osMbufFreeChain (some head)
          pure none
      | some new => do
          dupInto new om
          dupLoop omp head fuel new m.omNext

def osMbufDup (om : Nat) : MbufM (Option Nat) := do
  let m ← mb om
  match ← osMbufGet m.omOmp m.leadingspace with
  | none => pure none
  | some head => do
      (if m.isPkthdr then osMbufCopypkthdr head om else pure ())
      dupInto head om
      let n ← fuel
      dupLoop m.omOmp head n head m.omNext

/-- Data moves from the chain at `om` to the mbuf `om2`; emptied mbufs are
freed. The length still wanted is returned with what is left of the chain. -/
def pullupLoop (om2 : Nat) : Nat → Nat → Nat → Nat → MbufM (Nat × Option Nat)
  | 0, _, _, _ => Prog.spin
  | fuel + 1, len, space, om => do
      let m ← mb om
      let m2 ← mb om2
      let count := min (min len space) m.omLen
      let data ← load om m.omData count
      store om2 (m2.omData + m2.omLen) data
      upd om2 fun m => { m with omLen := u16 (m.omLen + count) }
      upd om fun m => { m with omLen := m.omLen - count }
      let om ← (if m.omLen - count ≠ 0 then do
        upd om fun m => { m with omData := m.omData + count }
        pure (some om)
        else do
          let _ ← osMbufFree om
          pure m.omNext)
      if 0 < len - count then
        match om with
        | some om => pullupLoop om2 fuel (len - count) (space - count) om
        | none => pure (len - count, none)
      else pure (len - count, om)

/-- The mbuf that the data is pulled up into, the chain it is pulled up from
and the length that is wanted; `none` when there is no room. -/
def pullupInto (om len : Nat) : MbufM (Option (Nat × Nat × Nat)) := do
  let m ← mb om
  let space ← trailingspace om
  match m.omNext, decide (len ≤ m.omLen + space) with
  | some next, true => pure (some (om, next, len - m.omLen))
  | _, _ => do
      let p ← pool m.omOmp
      if p.ompDatabufLen < len + m.omPkthdrLen then pure none
      else do
        let om2 ← osMbufGet m.omOmp 0
        match om2 with
        | none => pure none
        | some om2 => do
            (if m.isPkthdr then osMbufCopypkthdr om2 om else pure ())
            pure (some (om2, om, len))

def osMbufPullup (om len : Nat) : MbufM (Option Nat) := do
  let m ← mb om
  if len ≤ m.omLen then pure (some om)
  else do
    match ← pullupInto om len with
    | none => do
        let _ ← osMbufFreeChain (some om)
        pure none
    | some (om2, om, len) => do
        let space ← trailingspace om2
        let n ← fuel
        let (len, om) ← pullupLoop om2 n len space om
        if 0 < len then do
          let _ ← osMbufFree om2
          let _ ← osMbufFreeChain om
          pure none
        else do
          upd om2 fun m => { m with omNext := om }
          pure (some om2)

end Larva.Os.Mbufs
