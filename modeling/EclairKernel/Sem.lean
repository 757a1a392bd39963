import Mathlib.Data.Nat.ModEq
import Mathlib.Logic.Function.Basic

/-! ipc/sem.c for one semaphore array that is not removed: semtimedop, its wait, exit_sem and the
sharing of undo lists by clone. An event is what runs under the lock of the array. Tasks and undo
lists have numbers; a list has at most one undo structure for the array, whose semadj is kept by
the number of the list. A task that sleeps has its sem_queue on sem_pending. -/
namespace EclairKernel.Sem
open Function

def SEMVMX : Int := 32767
def SEMAEM : Int := SEMVMX
def SEM_UNDO : UInt16 := 0x1000
def IPC_NOWAIT : UInt16 := 0x800

inductive Errno where
  | EINVAL
  | E2BIG
  | EFAULT
  | ENOMEM
  | EFBIG
  | EACCES
  | ERANGE
  | EAGAIN
  | EINTR
  deriving DecidableEq, Repr

structure Sembuf where
  semNum : Nat
  semOp : Int16
  semFlg : UInt16
  deriving DecidableEq, Repr

def Sembuf.undo (sop : Sembuf) : Bool := sop.semFlg &&& SEM_UNDO != 0
def Sembuf.nowait (sop : Sembuf) : Bool := sop.semFlg &&& IPC_NOWAIT != 0

/-- sem_base, and the semadj of every undo structure. -/
structure Sems where
  semval : Nat → Int
  sempid : Nat → Nat
  semadj : Nat → Nat → Int16

def adjOf (semadj : Nat → Nat → Int16) (un : Option Nat) (semNum : Nat) : Int16 :=
  match un with
  | some u => semadj u semNum
  | none => 0

inductive Try where
  | done
  | sleep
  | error (e : Errno)
  deriving DecidableEq, Repr

def undoOps : List Sembuf → Sems → Sems
  | [],s => s
  | sop::made,s => undoOps made { s with semval := update s.semval sop.semNum (s.semval sop.semNum - sop.semOp.toInt) }

def commitOps (un : Option Nat) (pid : Nat) : List Sembuf → Sems → Sems
  | [],s => s
  | sop::made,s =>
    commitOps un pid made { s with
      sempid := update s.sempid sop.semNum pid
      semadj := match un with
        | some u =>
          if sop.undo then update s.semadj u (update (s.semadj u) sop.semNum (s.semadj u sop.semNum - sop.semOp))
          else s.semadj
        | none => s.semadj }

def wouldBlock (sop : Sembuf) : Try := if sop.nowait then .error .EAGAIN else .sleep

/-- The operations made so far, the last one first, and those that remain. -/
def tryFrom (un : Option Nat) (pid : Nat) : List Sembuf → List Sembuf → Sems → Try × Sems
  | made,[],s => (.done,commitOps un pid made s)
  | made,sop::rest,s =>
    let semOp := sop.semOp.toInt
    let result := s.semval sop.semNum
    if semOp = 0 ∧ result ≠ 0 then (wouldBlock sop,undoOps made s)
    else
      let result := result + semOp
      let undo := (adjOf s.semadj un sop.semNum).toInt - semOp
      if result < 0 then (wouldBlock sop,undoOps made s)
      else if SEMVMX < result then (.error .ERANGE,undoOps made s)
      else if sop.undo ∧ (undo < -SEMAEM - 1 ∨ SEMAEM < undo) then (.error .ERANGE,undoOps made s)
      else tryFrom un pid (sop::made) rest { s with semval := update s.semval sop.semNum result }

def tryAtomicSemop (s : Sems) (sops : List Sembuf) (un : Option Nat) (pid : Nat) : Try × Sems := tryFrom un pid [] sops s

structure SemQueue where
  sleeper : Nat
  pid : Nat
  sops : List Sembuf
  undo : Option Nat
  alter : Bool

inductive Result where
  | ok
  | error (e : Errno)
  deriving DecidableEq, Repr

inductive Status where
  | running (last : Option Result)
  -- queue.status is -EINTR, or what update_queue has written
  | asleep
  | woken (r : Result)
  deriving DecidableEq, Repr

def Try.result : Try → Result
  | .error e => .error e
  | _ => .ok

/-- The entries before q and those from q on. No result is a scan without an end. -/
def updateLoop : Nat → List SemQueue → List SemQueue → Sems → (Nat → Status) → Option (List SemQueue × Sems × (Nat → Status))
  | 0,_,_,_,_ => none
  | _ + 1,before,[],sems,status => some (before,sems,status)
  | fuel + 1,before,q::rest,sems,status =>
    match tryAtomicSemop sems q.sops q.undo q.pid with
    | (.sleep,sems) => updateLoop fuel (before ++ [q]) rest sems status
    | (r,sems) =>
      let status := update status q.sleeper (.woken r.result)
      if q.alter then updateLoop fuel [] (before ++ rest) sems status
      else updateLoop fuel before rest sems status

structure State where
  nsems : Nat
  sems : Sems
  pending : List SemQueue
  status : Nat → Status
  undoList : Nat → Option Nat
  refcnt : Nat → Nat
  -- the list has an undo structure for the array
  linked : Nat → Bool
  nextList : Nat

def updateQueue (s : State) : Option State :=
  (updateLoop (s.pending.length * s.pending.length + s.pending.length + 1) [] s.pending s.sems s.status).map
    fun r => { s with pending := r.1, sems := r.2.1, status := r.2.2 }

def getUndoList (alloc : Bool) (t : Nat) (s : State) : Option Nat × State :=
  match s.undoList t with
  | some u => (some u,s)
  | none =>
    if alloc then
      (some s.nextList,{ s with
        undoList := update s.undoList t (some s.nextList)
        refcnt := update s.refcnt s.nextList 1
        linked := update s.linked s.nextList false
        nextList := s.nextList + 1 })
    else (none,s)

def findAllocUndo (allocList allocUndo : Bool) (t : Nat) (s : State) : Option Nat × State :=
  match getUndoList allocList t s with
  | (none,s) => (none,s)
  | (some u,s) =>
    if s.linked u then (some u,s)
    else if allocUndo then
      (some u,{ s with
        linked := update s.linked u true
        sems := { s.sems with semadj := update s.sems.semadj u fun _ => 0 } })
    else (none,s)

def copySemundo (alloc : Bool) (t child : Nat) (s : State) : State :=
  match getUndoList alloc t s with
  | (none,s) => s
  | (some u,s) =>
    { s with undoList := update s.undoList child (some u), refcnt := update s.refcnt u (s.refcnt u + 1) }

structure Env where
  semopm : Nat
  fault : Bool
  allocList : Bool
  allocUndo : Bool
  permitted : Bool
  pid : Nat

def maxNum (sops : List Sembuf) : Nat := sops.foldl (fun max sop => if max ≤ sop.semNum then sop.semNum else max) 0

def State.ret (s : State) (t : Nat) (r : Result) : State := { s with status := update s.status t (.running (some r)) }

def semop (env : Env) (t : Nat) (sops : List Sembuf) (un : Option Nat) (s : State) : Option State :=
  let alter := sops.any fun sop => sop.semOp != 0
  if s.nsems ≤ maxNum sops then some (s.ret t (.error .EFBIG))
  else if !env.permitted then some (s.ret t (.error .EACCES))
  else
    match tryAtomicSemop s.sems sops un env.pid with
    | (.error e,sems) => some ({ s with sems := sems }.ret t (.error e))
    | (.done,sems) =>
      let s := { s with sems := sems }.ret t .ok
      if alter then updateQueue s else some s
    | (.sleep,sems) =>
      let queue := ⟨t,env.pid,sops,un,alter⟩
      some { s with
        sems := sems
        pending := if alter then s.pending ++ [queue] else queue :: s.pending
        status := update s.status t .asleep }

def semtimedop (env : Env) (t : Nat) (sops : List Sembuf) (s : State) : Option State :=
  if sops.length < 1 then some (s.ret t (.error .EINVAL))
  else if env.semopm < sops.length then some (s.ret t (.error .E2BIG))
  else if env.fault then some (s.ret t (.error .EFAULT))
  else if sops.any Sembuf.undo then
    match findAllocUndo env.allocList env.allocUndo t s with
    | (none,s) => some (s.ret t (.error .ENOMEM))
    | (some u,s) => semop env t sops (some u) s
  else semop env t sops none s

def resume (timedOut : Bool) (t : Nat) (s : State) : State :=
  match s.status t with
  | .running _ => s
  | .woken r => s.ret t r
  | .asleep =>
    { s with pending := s.pending.eraseP fun q => q.sleeper == t }.ret t (.error (if timedOut then .EAGAIN else .EINTR))

def adjust (pid u : Nat) (s : Sems) (i : Nat) : Sems :=
  if s.semadj u i = 0 then s
  else
    let semval := s.semval i + (s.semadj u i).toInt
    let semval := if semval < 0 then 0 else semval
    let semval := if SEMVMX < semval then SEMVMX else semval
    { s with semval := update s.semval i semval, sempid := update s.sempid i pid }

def State.dropList (s : State) (t u : Nat) : State :=
  { s with undoList := update s.undoList t none, refcnt := update s.refcnt u (s.refcnt u - 1) }

def exitSem (pid t : Nat) (s : State) : Option State :=
  match s.undoList t with
  | none => some s
  | some u =>
    let s := s.dropList t u
    if s.refcnt u ≠ 0 then some s
    else if !s.linked u then some s
    else
      let sems := (List.range s.nsems).foldl (adjust pid u) s.sems
      updateQueue { s with linked := update s.linked u false, sems := sems }

inductive Event where
  | semtimedop (t : Nat) (sops : List Sembuf) (env : Env)
  | resume (t : Nat) (timedOut : Bool)
  | clone (t child : Nat) (alloc : Bool)
  | exit (t pid : Nat)

def Status.isRunning : Status → Bool
  | .running _ => true
  | _ => false

/-- Only a running task makes a call; a child starts without a list. No result is a call without an end. -/
def step (s : State) : Event → Option State
  | .semtimedop t sops env => if (s.status t).isRunning then semtimedop env t sops s else some s
  | .resume t timedOut => some (resume timedOut t s)
  | .clone t child alloc =>
    if (s.status t).isRunning ∧ (s.status child).isRunning ∧ s.undoList child = none ∧ child ≠ t then some (copySemundo alloc t child s)
    else some s
  | .exit t pid => if (s.status t).isRunning then exitSem pid t s else some s

def newArray (nsems : Nat) (semval : Nat → Int) (sempid : Nat → Nat) : State :=
  ⟨nsems,⟨semval,sempid,fun _ _ => 0⟩,[],fun _ => .running none,fun _ => none,fun _ => 0,fun _ => false,0⟩

end EclairKernel.Sem
