import Mathlib.Data.Nat.ModEq
import Mathlib.Data.Nat.Size
import Mathlib.Logic.Function.Basic

/-! fs/file.c with sys_dup3, sys_close and the descriptor calls of fs/open.c, for one
files_struct. Long words have 32 bits. A stretch is what runs under file_lock: expand_fdtable
gives it up to allocate, so a call that has to expand the table is cut there and goes on with
the new table, or without one, whatever the others have done in between. A bitmap and the file
array are functions of which the first max_fds places count; new memory holds anything. -/
namespace EclairKernel.FdTable
open Function

def BITS_PER_LONG : Nat := 32
def NR_OPEN_DEFAULT : Nat := BITS_PER_LONG
def O_CLOEXEC : UInt32 := 0x80000

inductive Errno where
  | EMFILE
  | ENOMEM
  | EBADF
  | EBUSY
  | EINVAL
  deriving DecidableEq, Repr

structure Fdtable (F : Type) where
  maxFds : Nat
  fd : Nat → Option F
  openFds : Nat → Bool
  closeOnExec : Nat → Bool

structure Files (F : Type) where
  fdt : Fdtable F
  nextFd : Nat

/-- rlim_cur of RLIMIT_NOFILE, and sysctl_nr_open between the bounds of its sysctl. -/
structure Limits where
  rlimCur : Nat
  nrOpen : Nat
  low : BITS_PER_LONG ≤ nrOpen
  high : nrOpen ≤ 0x3fffffe0

variable {F : Type}

def initFiles : Files F := ⟨⟨NR_OPEN_DEFAULT,fun _ => none,fun _ => false,fun _ => false⟩,0⟩

def findNextZeroBit (bits : Nat → Bool) (size offset : Nat) : Nat :=
  ((List.range' offset (size - offset)).find? fun i => !bits i).getD size

def roundupPowOfTwo (n : Nat) : Nat := 2^Nat.size (n - 1)

def tableSize (lim : Limits) (nr : Nat) : Nat :=
  let nr := nr / 256
  let nr := roundupPowOfTwo (nr + 1)
  let nr := nr * 256 % 2^32
  if lim.nrOpen < nr then ((lim.nrOpen - 1) ||| (BITS_PER_LONG - 1)) + 1 else nr

structure Memory (F : Type) where
  fd : Nat → Option F
  openFds : Nat → Bool
  closeOnExec : Nat → Bool

def allocFdtable (lim : Limits) (nr : Nat) (mem : Option (Memory F)) : Option (Fdtable F) :=
  mem.map fun m => ⟨tableSize lim nr,m.fd,m.openFds,m.closeOnExec⟩

def copyOver {α : Type} (cpy set : Nat) (zero : α) (old new : Nat → α) (i : Nat) : α :=
  if i < cpy then old i else if i < cpy + set then zero else new i

def copyFdtable (nfdt ofdt : Fdtable F) : Option (Fdtable F) :=
  if nfdt.maxFds < ofdt.maxFds then none
  else
    let bytes := ofdt.maxFds / 8
    let set := (nfdt.maxFds - ofdt.maxFds) / 8
    some { nfdt with
      fd := copyOver ofdt.maxFds (nfdt.maxFds - ofdt.maxFds) none ofdt.fd nfdt.fd
      openFds := copyOver (bytes * 8) (set * 8) false ofdt.openFds nfdt.openFds
      closeOnExec := copyOver (bytes * 8) (set * 8) false ofdt.closeOnExec nfdt.closeOnExec }

inductive Check where
  | emfile
  | enough
  | unlock
  deriving DecidableEq, Repr

/-- expand_files up to the call of expand_fdtable. -/
def expandFiles (lim : Limits) (files : Files F) (nr : Nat) : Check :=
  if lim.rlimCur ≤ nr then .emfile
  else if nr < files.fdt.maxFds then .enough
  -- both are int here
  else if lim.nrOpen ≤ nr ∧ nr < 2^31 then .emfile
  else .unlock

inductive Expanded (F : Type) where
  | expanded (files : Files F)
  | error (e : Errno)
  | bug

/-- expand_fdtable from the lock on. -/
def expandFdtable (nr : Nat) (newFdt : Option (Fdtable F)) (files : Files F) : Expanded F :=
  match newFdt with
  | none => .error .ENOMEM
  | some newFdt =>
    if newFdt.maxFds ≤ nr then .error .EMFILE
    else if files.fdt.maxFds ≤ nr then
      match copyFdtable newFdt files.fdt with
      | none => .bug
      | some fdt => .expanded { files with fdt := fdt }
    else .expanded files

inductive Outcome where
  | ret (fd : Nat)
  | error (e : Errno)
  -- the lock is given up to expand the table for nr
  | unlocked (nr : Nat)
  | bug
  deriving DecidableEq, Repr

def Fdtable.claim (fdt : Fdtable F) (fd : Nat) (flags : UInt32) (file : Option F) : Fdtable F :=
  { fdt with
    fd := update fdt.fd fd file
    openFds := update fdt.openFds fd true
    closeOnExec := update fdt.closeOnExec fd (decide (flags &&& O_CLOEXEC ≠ 0)) }

/-- alloc_fd from repeat on. -/
def allocFd (lim : Limits) (start : Nat) (flags : UInt32) (files : Files F) : Outcome × Files F :=
  let fd := if start < files.nextFd then files.nextFd else start
  let fd := if fd < files.fdt.maxFds then findNextZeroBit files.fdt.openFds files.fdt.maxFds fd else fd
  match expandFiles lim files fd with
  | .emfile => (.error .EMFILE,files)
  | .unlock => (.unlocked fd,files)
  | .enough =>
    let nextFd := if start ≤ files.nextFd then fd + 1 else files.nextFd
    -- a file left in the slot is dropped with a warning
    (.ret fd,⟨files.fdt.claim fd flags none,nextFd⟩)

def allocFdAgain (lim : Limits) (start : Nat) (flags : UInt32) (nr : Nat) (newFdt : Option (Fdtable F)) (files : Files F) :
    Outcome × Files F :=
  match expandFdtable nr newFdt files with
  | .error e => (.error e,files)
  | .bug => (.bug,files)
  | .expanded files => allocFd lim start flags files

def allocFdCall (lim : Limits) (start : Nat) (flags : UInt32) (mem : Option (Memory F)) (files : Files F) : Outcome × Files F :=
  match allocFd lim start flags files with
  | (.unlocked nr,files) => allocFdAgain lim start flags nr (allocFdtable lim nr mem) files
  | r => r

def putUnusedFd (fd : Nat) (files : Files F) : Files F :=
  ⟨{ files.fdt with openFds := update files.fdt.openFds fd false },if fd < files.nextFd then fd else files.nextFd⟩

def fdInstall (fd : Nat) (file : F) (files : Files F) : Option (Files F) :=
  if files.fdt.fd fd = none then some { files with fdt := { files.fdt with fd := update files.fdt.fd fd (some file) } }
  else none

def close (fd : Nat) (files : Files F) : Outcome × Files F :=
  if files.fdt.maxFds ≤ fd then (.error .EBADF,files)
  else if files.fdt.fd fd = none then (.error .EBADF,files)
  else
    let fdt := { files.fdt with
      fd := update files.fdt.fd fd none
      closeOnExec := update files.fdt.closeOnExec fd false }
    (.ret 0,putUnusedFd fd { files with fdt := fdt })

def fcheck (files : Files F) (fd : Nat) : Option F :=
  if fd < files.fdt.maxFds then files.fdt.fd fd else none

def dup3Install (oldfd newfd : Nat) (flags : UInt32) (files : Files F) : Outcome × Files F :=
  match fcheck files oldfd with
  | none => (.error .EBADF,files)
  | some file =>
    if files.fdt.fd newfd = none ∧ files.fdt.openFds newfd then (.error .EBUSY,files)
    else (.ret newfd,{ files with fdt := files.fdt.claim newfd flags (some file) })

def dup3 (lim : Limits) (oldfd newfd : Nat) (flags : UInt32) (files : Files F) : Outcome × Files F :=
  if flags &&& ~~~O_CLOEXEC ≠ 0 then (.error .EINVAL,files)
  else if oldfd = newfd then (.error .EINVAL,files)
  else
    match expandFiles lim files newfd with
    | .unlock => (.unlocked newfd,files)
    | .emfile => (.error .EBADF,files)
    | .enough => dup3Install oldfd newfd flags files

def dup3Again (oldfd newfd : Nat) (flags : UInt32) (newFdt : Option (Fdtable F)) (files : Files F) : Outcome × Files F :=
  match expandFdtable newfd newFdt files with
  | .error e => (.error (if fcheck files oldfd = none ∨ e = .EMFILE then .EBADF else e),files)
  | .bug => (.bug,files)
  | .expanded files => dup3Install oldfd newfd flags files

def wordSet (bits : Nat → Bool) (i : Nat) : Bool := (List.range 32).any fun b => bits (32 * i + b)

def lastWord (bits : Nat → Bool) : Nat → Nat
  | 0 => 0
  | i + 1 => if wordSet bits i then i else lastWord bits i

def countOpenFiles (fdt : Fdtable F) : Nat := (lastWord fdt.openFds (fdt.maxFds / 32) + 1) * 32

def copyFiles (old : Fdtable F) (openFiles : Nat) : Nat → Fdtable F → Fdtable F
  | 0,new => new
  | i + 1,new =>
    let k := openFiles - (i + 1)
    copyFiles old openFiles i { new with
      openFds := if old.fd k = none then update new.openFds k false else new.openFds
      fd := update new.fd k (old.fd k) }

def clearFrom (start left : Nat) (bits : Nat → Bool) (i : Nat) : Bool :=
  if 32 * start ≤ i ∧ i < 32 * start + left * 8 then false else bits i

def copyBits (old new : Fdtable F) (openFiles : Nat) : Fdtable F :=
  { new with
    openFds := copyOver (openFiles / 8 * 8) 0 false old.openFds new.openFds
    closeOnExec := copyOver (openFiles / 8 * 8) 0 false old.closeOnExec new.closeOnExec }

def dupCopy (old new : Fdtable F) (openFiles : Nat) : Fdtable F :=
  let new := copyFiles old openFiles openFiles (copyBits old new openFiles)
  let new := { new with fd := copyOver openFiles (new.maxFds - openFiles) none new.fd new.fd }
  if openFiles < new.maxFds then
    let left := (new.maxFds - openFiles) / 8
    let start := openFiles / 32
    { new with openFds := clearFrom start left new.openFds, closeOnExec := clearFrom start left new.closeOnExec }
  else new

inductive Dup (F : Type) where
  | files (newf : Files F)
  | error (e : Errno)
  -- still waiting for the lock
  | waiting

structure Round (F : Type) where
  oldf : Files F
  lim : Limits
  mem : Option (Memory F)

def dupFd : List (Round F) → Fdtable F → Dup F
  | [],_ => .waiting
  | r::rounds,new =>
    let openFiles := countOpenFiles r.oldf.fdt
    if new.maxFds < openFiles then
      match allocFdtable r.lim (openFiles - 1) r.mem with
      | none => .error .ENOMEM
      | some new => if new.maxFds < openFiles then .error .EMFILE else dupFd rounds new
    else .files ⟨dupCopy r.oldf.fdt new openFiles,0⟩

def embedded (m : Memory F) : Fdtable F := ⟨NR_OPEN_DEFAULT,m.fd,m.openFds,m.closeOnExec⟩

end EclairKernel.FdTable
