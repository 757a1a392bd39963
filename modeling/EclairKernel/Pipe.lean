import Mathlib.Data.Nat.ModEq
import Mathlib.Logic.Function.Basic

/-! fs/pipe.c: pipe_read and pipe_write on one pipe. A stretch is what a call does under i_mutex,
from the lock or the end of pipe_wait to the next pipe_wait or the return. Copies from and to the
user succeed and the buffers are the anonymous ones of this file, that can be merged and always
confirm. Pages have numbers; stored and taken are histories of the copies, which nothing reads. -/
namespace EclairKernel.Pipe
open Function

def PAGE_SIZE : Nat := 4096
def PIPE_BUFFERS : Nat := 16
def PIPE_BUF : Nat := 4096

inductive Errno where
  | EPIPE
  | ENOMEM
  | EAGAIN
  | ERESTARTSYS
  deriving DecidableEq, Repr

structure PipeBuffer where
  page : Nat
  offset : Nat
  len : Nat
  deriving DecidableEq, Repr

structure PipeInode where
  nrbufs : Nat
  curbuf : Nat
  tmpPage : Option Nat
  readers : Nat
  writers : Nat
  waitingWriters : Nat
  bufs : Nat → PipeBuffer
  pages : Nat → Nat → UInt8
  stored : List UInt8
  taken : List UInt8

def writePage (pages : Nat → Nat → UInt8) (page offset : Nat) (data : List UInt8) (p i : Nat) : UInt8 :=
  if p = page ∧ offset ≤ i ∧ i < offset + data.length then data.getD (i - offset) 0 else pages p i

def readPage (pages : Nat → Nat → UInt8) (page offset len : Nat) : List UInt8 :=
  (List.range len).map fun i => pages page (offset + i)

/-- No result is a walk past the last segment. The segments keep what is not copied. -/
def pipeIovCopyFromUser : List (List UInt8) → Nat → Option (List UInt8 × List (List UInt8))
  | iov,0 => some ([],iov)
  | [],_ + 1 => none
  | seg::iov,len + 1 =>
    let copy := min (len + 1) seg.length
    match pipeIovCopyFromUser iov (len + 1 - copy) with
    | none => none
    | some (data,iov) => some (seg.take copy ++ data,seg.drop copy :: iov)

structure Segment where
  got : List UInt8
  len : Nat
  deriving DecidableEq, Repr

def pipeIovCopyToUser : List Segment → List UInt8 → Option (List Segment)
  | iov,[] => some iov
  | [],_::_ => none
  | seg::iov,b::data =>
    let copy := min (b::data).length seg.len
    (pipeIovCopyToUser iov ((b::data).drop copy)).map (⟨seg.got ++ (b::data).take copy,seg.len - copy⟩ :: ·)

inductive Result where
  | ret (n : Nat)
  | error (e : Errno)
  deriving DecidableEq, Repr

inductive Outcome (L : Type) where
  | done (r : Result) (locals : L)
  | wait (locals : L)
  -- a loop that goes on, or a copy past the last segment
  | fault

def orError (ret : Nat) (e : Errno) : Result := if ret = 0 then .error e else .ret ret

/-- The pages that alloc_page hands out during the stretch, and signal_pending at its end. -/
structure Env where
  alloc : List Nat
  signal : Bool

structure Writer where
  iov : List (List UInt8)
  totalLen : Nat
  ret : Nat
  nonblock : Bool

def Writer.advance (w : Writer) (iov : List (List UInt8)) (chars : Nat) : Writer :=
  { w with iov := iov, totalLen := w.totalLen - chars, ret := w.ret + chars }

def takePage (tmpPage : Option Nat) (alloc : List Nat) : Option (Nat × List Nat) :=
  match tmpPage,alloc with
  | some page,alloc => some (page,alloc)
  | none,page::alloc => some (page,alloc)
  | none,[] => none

def PipeInode.insert (pipe : PipeInode) (page : Nat) (data : List UInt8) : PipeInode :=
  let newbuf := (pipe.curbuf + pipe.nrbufs) &&& (PIPE_BUFFERS - 1)
  { pipe with
    pages := writePage pipe.pages page 0 data
    bufs := update pipe.bufs newbuf ⟨page,0,data.length⟩
    nrbufs := pipe.nrbufs + 1
    tmpPage := none
    stored := pipe.stored ++ data }

def PipeInode.lastbuf (pipe : PipeInode) : Nat := (pipe.curbuf + pipe.nrbufs - 1) &&& (PIPE_BUFFERS - 1)

def PipeInode.merge (pipe : PipeInode) (data : List UInt8) : PipeInode :=
  let buf := pipe.bufs pipe.lastbuf
  { pipe with
    pages := writePage pipe.pages buf.page (buf.offset + buf.len) data
    bufs := update pipe.bufs pipe.lastbuf { buf with len := buf.len + data.length }
    stored := pipe.stored ++ data }

def writeFull (signal : Bool) (w : Writer) (pipe : PipeInode) : Outcome Writer × PipeInode :=
  if w.nonblock then (.done (orError w.ret .EAGAIN) w,pipe)
  else if signal then (.done (orError w.ret .ERESTARTSYS) w,pipe)
  else (.wait w,{ pipe with waitingWriters := pipe.waitingWriters + 1 })

def writeLoop (signal : Bool) : Nat → List Nat → Writer → PipeInode → Outcome Writer × PipeInode
  | 0,_,_,pipe => (.fault,pipe)
  | fuel + 1,alloc,w,pipe =>
    if pipe.readers = 0 then (.done (orError w.ret .EPIPE) w,pipe)
    else if pipe.nrbufs < PIPE_BUFFERS then
      match takePage pipe.tmpPage alloc with
      | none => (.done (orError w.ret .ENOMEM) w,pipe)
      | some (page,alloc) =>
        let chars := min PAGE_SIZE w.totalLen
        match pipeIovCopyFromUser w.iov chars with
        | none => (.fault,pipe)
        | some (data,iov) =>
          let pipe := pipe.insert page data
          let w := w.advance iov chars
          if w.totalLen = 0 then (.done (.ret w.ret) w,pipe)
          else if pipe.nrbufs < PIPE_BUFFERS then writeLoop signal fuel alloc w pipe
          else writeFull signal w pipe
    else writeFull signal w pipe

def writeRounds (env : Env) (w : Writer) (pipe : PipeInode) : Outcome Writer × PipeInode :=
  writeLoop env.signal (PIPE_BUFFERS + 1) env.alloc w pipe

def pipeWrite (nonblock : Bool) (iov : List (List UInt8)) (env : Env) (pipe : PipeInode) : Outcome Writer × PipeInode :=
  let totalLen := (iov.map List.length).sum
  let w : Writer := ⟨iov,totalLen,0,nonblock⟩
  if totalLen = 0 then (.done (.ret 0) w,pipe)
  else if pipe.readers = 0 then (.done (.error .EPIPE) w,pipe)
  else
    let chars := totalLen &&& (PAGE_SIZE - 1)
    let buf := pipe.bufs pipe.lastbuf
    let offset := buf.offset + buf.len
    if pipe.nrbufs ≠ 0 ∧ chars ≠ 0 ∧ offset + chars ≤ PAGE_SIZE then
      match pipeIovCopyFromUser iov chars with
      | none => (.fault,pipe)
      | some (data,iov) =>
        let pipe := pipe.merge data
        let w := w.advance iov chars
        if w.totalLen = 0 then (.done (.ret w.ret) w,pipe)
        else writeRounds env w pipe
    else writeRounds env w pipe

def pipeWriteAgain (env : Env) (w : Writer) (pipe : PipeInode) : Outcome Writer × PipeInode :=
  writeRounds env w { pipe with waitingWriters := pipe.waitingWriters - 1 }

structure Reader where
  iov : List Segment
  totalLen : Nat
  ret : Nat
  nonblock : Bool

def Reader.advance (r : Reader) (iov : List Segment) (chars : Nat) : Reader :=
  { r with iov := iov, totalLen := r.totalLen - chars, ret := r.ret + chars }

def PipeInode.consume (pipe : PipeInode) (chars : Nat) : PipeInode :=
  let buf := pipe.bufs pipe.curbuf
  let pipe := { pipe with
    bufs := update pipe.bufs pipe.curbuf { buf with offset := buf.offset + chars, len := buf.len - chars }
    taken := pipe.taken ++ readPage pipe.pages buf.page buf.offset chars }
  if buf.len - chars = 0 then
    { pipe with
      tmpPage := pipe.tmpPage.or (some buf.page)
      curbuf := (pipe.curbuf + 1) &&& (PIPE_BUFFERS - 1)
      nrbufs := pipe.nrbufs - 1 }
  else pipe

def readEmpty (signal : Bool) (r : Reader) (pipe : PipeInode) : Outcome Reader × PipeInode :=
  if pipe.writers = 0 then (.done (.ret r.ret) r,pipe)
  else if pipe.waitingWriters = 0 ∧ r.ret ≠ 0 then (.done (.ret r.ret) r,pipe)
  else if pipe.waitingWriters = 0 ∧ r.nonblock then (.done (.error .EAGAIN) r,pipe)
  else if signal then (.done (orError r.ret .ERESTARTSYS) r,pipe)
  else (.wait r,pipe)

def readLoop (signal : Bool) : Nat → Reader → PipeInode → Outcome Reader × PipeInode
  | 0,_,pipe => (.fault,pipe)
  | fuel + 1,r,pipe =>
    if pipe.nrbufs ≠ 0 then
      let buf := pipe.bufs pipe.curbuf
      let chars := min buf.len r.totalLen
      match pipeIovCopyToUser r.iov (readPage pipe.pages buf.page buf.offset chars) with
      | none => (.fault,pipe)
      | some iov =>
        let pipe := pipe.consume chars
        let r := r.advance iov chars
        if r.totalLen = 0 then (.done (.ret r.ret) r,pipe)
        else if pipe.nrbufs ≠ 0 then readLoop signal fuel r pipe
        else readEmpty signal r pipe
    else readEmpty signal r pipe

def pipeReadAgain (env : Env) (r : Reader) (pipe : PipeInode) : Outcome Reader × PipeInode :=
  readLoop env.signal (PIPE_BUFFERS + 1) r pipe

def pipeRead (nonblock : Bool) (iov : List Nat) (env : Env) (pipe : PipeInode) : Outcome Reader × PipeInode :=
  let r := ⟨iov.map fun len => ⟨[],len⟩,iov.sum,0,nonblock⟩
  if iov.sum = 0 then (.done (.ret 0) r,pipe)
  else pipeReadAgain env r pipe

end EclairKernel.Pipe
