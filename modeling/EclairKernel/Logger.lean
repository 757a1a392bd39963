import Mathlib.Data.Nat.ModEq
import Mathlib.Logic.Function.Basic
import Mathlib.Tactic.Simps.Basic

/-! drivers/staging/android/logger.c: the ring of one log and its readers. A reader is
named by the address of its struct; what user space holds, and whether it can be copied,
is handed in call by call. Offsets stay far below 2^32, so they are plain numbers. -/
namespace EclairKernel.Logger
open List

def EFAULT : Int := -14
def EINVAL : Int := -22

def HEADER : Nat := 20
def LOGGER_ENTRY_MAX_LEN : Nat := 4 * 1024
def LOGGER_ENTRY_MAX_PAYLOAD : Nat := LOGGER_ENTRY_MAX_LEN - HEADER

structure Log where
  buffer : Nat → UInt8
  wOff : Nat
  head : Nat
  size : Nat
  readers : Nat → Option Nat

@[simps] def setBuffer (log : Log) (b : Nat → UInt8) : Log := {log with buffer := b}
@[simps] def setWOff (log : Log) (n : Nat) : Log := {log with wOff := n}
@[simps] def setReader (log : Log) (r : Nat) (off : Option Nat) : Log :=
  {log with readers := Function.update log.readers r off}

def loggerOffset (log : Log) (n : Nat) : Nat := n &&& (log.size - 1)

def bytesAt (b : Nat → UInt8) (off n : Nat) : List UInt8 := (range n).map fun i => b (off + i)
def memcpy (b : Nat → UInt8) (dst : Nat) (src : List UInt8) : Nat → UInt8 := fun p =>
  if dst ≤ p then src[p - dst]?.getD (b p) else b p
def clobber (b : Nat → UInt8) (dst n : Nat) (junk : Nat → UInt8) : Nat → UInt8 := fun p =>
  if dst ≤ p ∧ p < dst + n then junk p else b p

def getEntryLen (log : Log) (off : Nat) : Nat :=
  let second := if log.size - off = 1 then log.buffer 0 else log.buffer (off + 1)
  HEADER + ((log.buffer off).toNat + 256 * second.toNat)

inductive ReadResult where
  | empty
  | error (code : Int)
  | entry (bytes : List UInt8)
  deriving DecidableEq, Repr

structure ReadFault where
  first : Bool
  second : Bool
  deriving DecidableEq, Repr

def doReadLogToUser (log : Log) (r off count : Nat) (fault : ReadFault) : Log × ReadResult :=
  let len := min count (log.size - off)
  if fault.first then (log,.error EFAULT)
  else if count ≠ len ∧ fault.second then (log,.error EFAULT)
  else (setReader log r (some (loggerOffset log (off + count))),
    .entry (bytesAt log.buffer off len ++ bytesAt log.buffer 0 (count - len)))

def loggerRead (log : Log) (r count : Nat) (fault : ReadFault) : Log × ReadResult :=
  match log.readers r with
  | none => (log,.error EINVAL)
  | some off =>
    if log.wOff = off then (log,.empty)
    else
      let len := getEntryLen log off
      if count < len then (log,.error EINVAL) else doReadLogToUser log r off len fault

-- do { … } while (count < len); the fuel is never used up
def nextLoop (log : Log) (len : Nat) : Nat → Nat → Nat → Nat
  | 0, off, _ => off
  | fuel+1, off, count =>
    let nr := getEntryLen log off
    if count + nr < len then nextLoop log len fuel (loggerOffset log (off + nr)) (count + nr)
    else loggerOffset log (off + nr)

def getNextEntry (log : Log) (off len : Nat) : Nat := nextLoop log len (len + 1) off 0

def clockInterval (a b c : Nat) : Bool :=
  if b < a then decide (a < c ∨ b ≥ c) else decide (a < c ∧ b ≥ c)

def fixUp (log : Log) (len off : Nat) : Nat :=
  if clockInterval log.wOff (loggerOffset log (log.wOff + len)) off then getNextEntry log off len else off

def fixUpReaders (log : Log) (len : Nat) : Log :=
  {log with head := fixUp log len log.head, readers := fun r => (log.readers r).map (fixUp log len)}

def doWriteLog (log : Log) (buf : List UInt8) : Log :=
  let len := min buf.length (log.size - log.wOff)
  let b := memcpy log.buffer log.wOff (buf.take len)
  let b := if buf.length ≠ len then memcpy b 0 (buf.drop len) else b
  setWOff (setBuffer log b) (loggerOffset log (log.wOff + buf.length))

inductive WriteFault where
  | first (junk : Nat → UInt8)
  | second (junk : Nat → UInt8)

structure Segment where
  bytes : List UInt8
  fault : Option WriteFault

-- A copy of no bytes is not made, so it cannot fail.
def doWriteLogFromUser (log : Log) (buf : List UInt8) (fault : Option WriteFault) : Log × Bool :=
  let len := min buf.length (log.size - log.wOff)
  match fault with
  | some (.first junk) =>
    if len ≠ 0 then (setBuffer log (clobber log.buffer log.wOff len junk),false) else (doWriteLog log buf,true)
  | some (.second junk) =>
    if buf.length ≠ len then
      (setBuffer log (clobber (memcpy log.buffer log.wOff (buf.take len)) 0 (buf.length - len) junk),false)
    else (doWriteLog log buf,true)
  | none => (doWriteLog log buf,true)

/-- The boot-time echo, with w_off still at the segment: the offsets it reads, in order, and
klog_buf. strncmp stops at the first difference. -/
def klogEcho (log : Log) (count : Nat) (klogBuf : List UInt8) : List Nat × List UInt8 :=
  let w := log.wOff
  let n := min count 255
  let cleared := replicate 255 0 ++ klogBuf.drop 255
  if log.buffer w ≠ 33 then ([w],cleared)
  else if log.buffer (w + 1) ≠ 64 then ([w,w + 1],cleared)
  else ([w,w + 1] ++ (range n).map (w + ·),bytesAt log.buffer w n ++ replicate (256 - n) 0)

def doWriteLogEcho (log : Log) (buf : List UInt8) (fault : Option WriteFault) (klogBuf : List UInt8) :
    (Log × Bool) × List Nat × List UInt8 :=
  let out := doWriteLogFromUser log buf fault
  (out,if out.2 then klogEcho (setWOff out.1 log.wOff) buf.length klogBuf else ([],klogBuf))

def writeSegments (log : Log) (left : Nat) : List Segment → Log × Bool
  | [] => (log,true)
  | seg::rest =>
    let buf := seg.bytes.take left
    let out := doWriteLogFromUser log buf seg.fault
    if out.2 then writeSegments out.1 (left - buf.length) rest else (out.1,false)

def le16 (n : Nat) : List UInt8 := [UInt8.ofNat n,UInt8.ofNat (n / 256)]
def le32 (n : UInt32) : List UInt8 := le16 n.toNat ++ le16 (n.toNat / 65536)

structure Stamp where
  pad : UInt16
  pid : UInt32
  tid : UInt32
  sec : UInt32
  nsec : UInt32
  deriving DecidableEq, Repr

def header (len : Nat) (h : Stamp) : List UInt8 :=
  le16 len ++ le16 h.pad.toNat ++ le32 h.pid ++ le32 h.tid ++ le32 h.sec ++ le32 h.nsec

def payload (segs : List Segment) : List UInt8 := segs.flatMap Segment.bytes
def headerLen (segs : List Segment) : Nat := min (payload segs).length LOGGER_ENTRY_MAX_PAYLOAD

/-- logger_aio_write from the lock on; `orig` is what log->w_off was before it. -/
def writeLocked (log : Log) (orig : Nat) (h : Stamp) (segs : List Segment) : Log × Int :=
  let len := headerLen segs
  let log := doWriteLog (fixUpReaders log (HEADER + len)) (header len h)
  let out := writeSegments log len segs
  if out.2 then (out.1,len) else (setWOff out.1 orig,EFAULT)

def loggerAioWrite (log : Log) (orig : Nat) (h : Stamp) (segs : List Segment) : Log × Int :=
  if headerLen segs = 0 then (log,0) else writeLocked log orig h segs

def loggerOpen (log : Log) (r : Nat) : Log := setReader log r (some log.head)
def loggerRelease (log : Log) (r : Nat) : Log := setReader log r none
def flushLog (log : Log) : Log :=
  {log with head := log.wOff, readers := fun r => (log.readers r).map fun _ => log.wOff}

def emptyLog (size : Nat) : Log := ⟨fun _ => 0,0,0,size,fun _ => none⟩

end EclairKernel.Logger
