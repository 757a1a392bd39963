import EclairKernel.PipeCalls
import EclairKernel.Run

/-! Any number of calls on one pipe, in any order of their stretches. Beside the pipe the
system keeps the iovec of every write and, stretch by stretch, the bytes that entered the
stream and the bytes that were read. -/
namespace EclairKernel.Pipe
open Run Function List

inductive Call where
  | writer (w : Writer)
  | reader (r : Reader)
  | wrote (r : Result)
  | read (r : Result) (iov : List Segment)
  | fault

structure System where
  pipe : PipeInode
  calls : Nat → Option Call
  asked : Nat → List (List UInt8)
  entered : List (Nat × List UInt8)
  obtained : List (Nat × List UInt8)

inductive Event where
  | write (id : Nat) (nonblock : Bool) (iov : List (List UInt8)) (env : Env)
  | writeAgain (id : Nat) (env : Env)
  | read (id : Nat) (nonblock : Bool) (iov : List Nat) (env : Env)
  | readAgain (id : Nat) (env : Env)
  -- ends of the pipe are opened and closed
  | ends (readers writers : Nat)

def System.afterWrite (s : System) (id : Nat) : Outcome Writer × PipeInode → System
  | (out,pipe) =>
    let call := match out with
      | .done res _ => .wrote res
      | .wait w => .writer w
      | .fault => .fault
    { s with
      pipe := pipe
      calls := update s.calls id (some call)
      entered := s.entered ++ [(id,pipe.stored.drop s.pipe.stored.length)] }

def System.afterRead (s : System) (id : Nat) : Outcome Reader × PipeInode → System
  | (out,pipe) =>
    let call := match out with
      | .done res r => .read res r.iov
      | .wait r => .reader r
      | .fault => .fault
    { s with
      pipe := pipe
      calls := update s.calls id (some call)
      obtained := s.obtained ++ [(id,pipe.taken.drop s.pipe.taken.length)] }

def step (s : System) : Event → System
  | .write id nonblock iov env =>
    match s.calls id with
    | none => { s with asked := update s.asked id iov }.afterWrite id (pipeWrite nonblock iov env s.pipe)
    | some _ => s
  | .writeAgain id env =>
    match s.calls id with
    | some (.writer w) => s.afterWrite id (pipeWriteAgain env w s.pipe)
    | _ => s
  | .read id nonblock iov env =>
    match s.calls id with
    | none => s.afterRead id (pipeRead nonblock iov env s.pipe)
    | some _ => s
  | .readAgain id env =>
    match s.calls id with
    | some (.reader r) => s.afterRead id (pipeReadAgain env r s.pipe)
    | _ => s
  | .ends readers writers => { s with pipe := { s.pipe with readers := readers, writers := writers } }

def Fresh (s : System) : Event → Prop
  | .write _ _ _ env => (s.pipe.held ++ env.alloc).Nodup
  | .writeAgain _ env => (s.pipe.held ++ env.alloc).Nodup
  | .read .. => True
  | .readAgain .. => True
  | .ends .. => True

instance decidableFresh (s : System) : (e : Event) → Decidable (Fresh s e)
  | .write _ _ _ env => inferInstanceAs (Decidable (s.pipe.held ++ env.alloc).Nodup)
  | .writeAgain _ env => inferInstanceAs (Decidable (s.pipe.held ++ env.alloc).Nodup)
  | .read .. => isTrue trivial
  | .readAgain .. => isTrue trivial
  | .ends .. => isTrue trivial

def newPipe (pages : Nat → Nat → UInt8) : PipeInode := ⟨0,0,none,0,0,0,fun _ => ⟨0,0,0⟩,pages,[],[]⟩
def start (pages : Nat → Nat → UInt8) : System := ⟨newPipe pages,fun _ => none,fun _ => [],[],[]⟩

def stream (log : List (Nat × List UInt8)) : List UInt8 := log.flatMap Prod.snd
def chunks (log : List (Nat × List UInt8)) (id : Nat) : List (List UInt8) :=
  (log.filter fun c => c.1 = id ∧ c.2 ≠ []).map Prod.snd

section
variable {s log id data}

theorem streamAppend (id : Nat) (data : List UInt8) : stream (log ++ [(id,data)]) = stream log ++ data := by
  rw [stream,flatMap_append,flatMap_singleton]
  rfl

theorem chunksOwn (log : List (Nat × List UInt8)) (id : Nat) (data : List UInt8) :
    chunks (log ++ [(id,data)]) id = chunks log id ++ if data = [] then [] else [data] := by
  by_cases empty : data = [] <;> simp [chunks,empty]

theorem chunksOther {other} (apart : other ≠ id) (data : List UInt8) : chunks (log ++ [(id,data)]) other = chunks log other := by
  simp [chunks,apart.symm]

theorem bytesOwn (log : List (Nat × List UInt8)) (id : Nat) (data : List UInt8) :
    (chunks (log ++ [(id,data)]) id).flatten = (chunks log id).flatten ++ data := by
  rw [chunksOwn]
  by_cases empty : data = [] <;> simp [empty]

def Small (iov : List (List UInt8)) : Prop := iov.flatten.length ≤ PIPE_BUF

def CallOk (iov : List (List UInt8)) (entered obtained : List (List UInt8)) : Option Call → Prop
  | none => entered = [] ∧ obtained = []
  | some (.writer w) => Ready w ∧ iov.flatten = entered.flatten ++ w.iov.flatten ∧ w.ret = entered.flatten.length ∧ (Small iov → entered = [])
  | some (.wrote res) => entered.flatten <+: iov.flatten ∧ Ended entered.flatten.length res ∧
      (Small iov → entered = [] ∨ entered = [iov.flatten])
  | some (.reader r) => entered = [] ∧ ReadReady r ∧ got r.iov = obtained.flatten ∧ r.ret = obtained.flatten.length
  | some (.read res iov) => entered = [] ∧ got iov = obtained.flatten ∧ Ended obtained.flatten.length res
  | some .fault => False

structure SystemOk (s : System) : Prop where
  inv : Inv s.pipe
  entered : stream s.entered = s.pipe.stored
  obtained : stream s.obtained = s.pipe.taken
  calls : ∀ id, CallOk (s.asked id) (chunks s.entered id) (chunks s.obtained id) (s.calls id)

theorem SystemOk.afterWrite (ok : SystemOk s) {w r} (total : w.totalLen = w.iov.flatten.length)
    (split : (s.asked id).flatten = (chunks s.entered id).flatten ++ w.iov.flatten) (ret : w.ret = (chunks s.entered id).flatten.length)
    (nothing : Small (s.asked id) → chunks s.entered id = []) (wrote : WriteOk w s.pipe r) : SystemOk (s.afterWrite id r) := by
  obtain ⟨out,pipe⟩ := r
  have small (few : Small (s.asked id)) : w.totalLen ≤ PIPE_BUF ∧ (s.asked id).flatten = w.iov.flatten := by
    rw [nothing few] at split
    exact ⟨le_trans (le_of_eq (total.trans (congrArg List.length split).symm)) few,split⟩
  -- what the stretch logs, for each way in which it may end
  have logged {call : Call} {data : List UInt8} (entered : Entered s.pipe data pipe)
      (own : CallOk (s.asked id) (chunks (s.entered ++ [(id,data)]) id) (chunks s.obtained id) (some call)) :
      SystemOk { s with
        pipe := pipe
        calls := update s.calls id (some call)
        entered := s.entered ++ [(id,pipe.stored.drop s.pipe.stored.length)] } := by
    have new : pipe.stored.drop s.pipe.stored.length = data := by rw [entered.stored,drop_left]
    rw [new]
    refine ⟨entered.inv,?_,ok.obtained.trans entered.taken.symm,fun other => ?_⟩
    · rw [streamAppend,ok.entered,entered.stored]
    · by_cases same : other = id
      · subst same
        simpa using own
      · simpa [same,chunksOther same] using ok.calls other
  cases out with
  | done res w' =>
    obtain ⟨data,entered,split',ended,once⟩ := wrote
    refine logged entered ⟨?_,?_,fun few => ?_⟩
    · rw [bytesOwn,split,split',← append_assoc]
      exact prefix_append ..
    · rw [bytesOwn,length_append,← ret]
      exact ended
    · obtain ⟨short,whole⟩ := small few
      rw [chunksOwn,nothing few,nil_append]
      rcases once short with rfl | all
      · exact .inl (if_pos rfl)
      rw [whole,← all]
      by_cases empty : data = []
      · exact .inl (if_pos empty)
      · exact .inr (if_neg empty)
  | wait w' =>
    obtain ⟨data,entered,split',ready,ret',none⟩ := wrote
    refine logged entered ⟨ready,?_,?_,fun few => ?_⟩
    · rw [bytesOwn,split,split',append_assoc]
    · rw [bytesOwn,length_append,← ret]
      exact ret'
    · rw [chunksOwn,nothing few,none (small few).1]
      rfl
  | fault => exact wrote.elim

theorem SystemOk.afterRead (ok : SystemOk s) {r x} (writes : chunks s.entered id = [])
    (gots : got r.iov = (chunks s.obtained id).flatten) (ret : r.ret = (chunks s.obtained id).flatten.length)
    (took : ReadOk r s.pipe x) : SystemOk (s.afterRead id x) := by
  obtain ⟨out,pipe⟩ := x
  have logged {call : Call} {data : List UInt8} (took : Took s.pipe data pipe)
      (own : CallOk (s.asked id) (chunks s.entered id) (chunks (s.obtained ++ [(id,data)]) id) (some call)) :
      SystemOk { s with
        pipe := pipe
        calls := update s.calls id (some call)
        obtained := s.obtained ++ [(id,pipe.taken.drop s.pipe.taken.length)] } := by
    have new : pipe.taken.drop s.pipe.taken.length = data := by rw [took.taken,drop_left]
    rw [new]
    refine ⟨took.inv,ok.entered.trans took.stored.symm,?_,fun other => ?_⟩
    · rw [streamAppend,ok.obtained,took.taken]
    · by_cases same : other = id
      · subst same
        simpa using own
      · simpa [same,chunksOther same] using ok.calls other
  cases out with
  | done res r' =>
    obtain ⟨data,took,gots',ended⟩ := took
    refine logged took ⟨writes,?_,?_⟩
    · rw [bytesOwn,gots',gots]
    · rw [bytesOwn,length_append,← ret]
      exact ended
  | wait r' =>
    obtain ⟨data,took,gots',ready,ret'⟩ := took
    refine logged took ⟨writes,ready,?_,?_⟩
    · rw [bytesOwn,gots',gots]
    · rw [bytesOwn,length_append,← ret]
      exact ret'
  | fault => exact took.elim

theorem stepOk (s : System) (e : Event) (ok : SystemOk s) (fresh : Fresh s e) : SystemOk (step s e) := by
  cases e with
  | write id nonblock iov env =>
    have call := ok.calls id
    unfold step
    dsimp only
    split
    case h_2 => exact ok
    case h_1 state =>
      rw [state] at call
      have asked : SystemOk { s with asked := update s.asked id iov } := by
        refine ⟨ok.inv,ok.entered,ok.obtained,fun other => ?_⟩
        by_cases same : other = id
        · subst same
          rw [state]
          exact call
        · simpa [same] using ok.calls other
      refine asked.afterWrite (length_flatten ..).symm ?_ ?_ (fun _ => call.1) (pipeWriteOk nonblock iov env ok.inv fresh)
      · simp [call.1]
      · simp [call.1]
  | writeAgain id env =>
    have call := ok.calls id
    unfold step
    dsimp only
    split
    · rename_i w state
      rw [state] at call
      obtain ⟨ready,split,ret,nothing⟩ := call
      exact ok.afterWrite ready.total split ret nothing (pipeWriteAgainOk env ok.inv ready fresh)
    · exact ok
  | read id nonblock iov env =>
    have call := ok.calls id
    unfold step
    dsimp only
    split
    case h_2 => exact ok
    case h_1 state =>
      rw [state] at call
      refine ok.afterRead call.1 ?_ ?_ (pipeReadOk nonblock iov env ok.inv)
      · rw [call.2]
        refine gotNothing fun seg mem => ?_
        obtain ⟨len,_,rfl⟩ := mem_map.mp mem
        rfl
      · simp [call.2]
  | readAgain id env =>
    have call := ok.calls id
    unfold step
    dsimp only
    split
    · rename_i r state
      rw [state] at call
      obtain ⟨writes,ready,gots,ret⟩ := call
      exact ok.afterRead writes gots ret (pipeReadAgainOk env ok.inv ready)
    · exact ok
  | ends readers writers =>
    have inv := ok.inv
    exact ⟨⟨inv.cur,inv.room,inv.sizes,inv.pages,inv.stream⟩,ok.entered,ok.obtained,ok.calls⟩

theorem startOk (pages : Nat → Nat → UInt8) : SystemOk (start pages) := by
  have inv : Inv (newPipe pages) := ⟨Nat.zero_lt_succ 15,Nat.zero_le 16,fun b mem => absurd mem not_mem_nil,nodup_nil,rfl⟩
  exact ⟨inv,rfl,rfl,fun _ => ⟨rfl,rfl⟩⟩

theorem reachedOk {pages events} (admitted : Admitted step Fresh (start pages) events) :
    SystemOk (run step (start pages) events) :=
  runInvariant stepOk (startOk pages) admitted

theorem orderedStream {pages events} (admitted : Admitted step Fresh (start pages) events) :
    stream (run step (start pages) events).obtained <+: stream (run step (start pages) events).entered ∧
    (∀ id n, (run step (start pages) events).calls id = some (.wrote (.ret n)) →
      n ≤ ((run step (start pages) events).asked id).flatten.length ∧
      (chunks (run step (start pages) events).entered id).flatten = ((run step (start pages) events).asked id).flatten.take n) ∧
    (∀ id e, (run step (start pages) events).calls id = some (.wrote (.error e)) → chunks (run step (start pages) events).entered id = []) ∧
    (∀ id, Small ((run step (start pages) events).asked id) → chunks (run step (start pages) events).entered id = [] ∨
      chunks (run step (start pages) events).entered id = [((run step (start pages) events).asked id).flatten]) ∧
    (∀ id r iov, (run step (start pages) events).calls id = some (.read r iov) →
      got iov = (chunks (run step (start pages) events).obtained id).flatten) ∧
    ∀ id, (run step (start pages) events).calls id ≠ some .fault := by
  have ok := reachedOk admitted
  generalize run step (start pages) events = s at *
  refine ⟨?_,fun id n wrote => ?_,fun id e wrote => ?_,fun id few => ?_,fun id r iov read => ?_,fun id fault => ?_⟩
  · rw [ok.obtained,ok.entered,ok.inv.stream]
    exact prefix_append ..
  · have call := ok.calls id
    rw [wrote] at call
    obtain ⟨first,count,_⟩ := call
    rw [count]
    exact ⟨first.length_le,prefix_iff_eq_take.mp first⟩
  · have call := ok.calls id
    rw [wrote] at call
    have none := length_eq_zero_iff.mp call.2.1
    refine eq_nil_iff_forall_not_mem.mpr fun chunk mem => ?_
    have empty := flatten_eq_nil_iff.mp none chunk mem
    obtain ⟨c,inside,rfl⟩ := mem_map.mp mem
    exact (of_decide_eq_true (mem_filter.mp inside).2).2 empty
  · have call := ok.calls id
    cases state : s.calls id with
    | none =>
      rw [state] at call
      exact .inl call.1
    | some c =>
      rw [state] at call
      cases c with
      | writer w => exact .inl (call.2.2.2 few)
      | wrote res => exact call.2.2 few
      | reader r => exact .inl call.1
      | read res iov => exact .inl call.1
      | fault => exact call.elim
  · have call := ok.calls id
    rw [read] at call
    exact call.2.1
  · have call := ok.calls id
    rw [fault] at call
    exact call

end

def mergedRun : List Event :=
  [.ends 1 1,.write 0 false [[1,2],[],[3]] ⟨[7],false⟩,.write 1 false [[4]] ⟨[],false⟩,.read 2 false [1,4] ⟨[],false⟩]

theorem mergedOrdered : Admitted step Fresh (start fun _ _ => 0) mergedRun ∧
    stream (run step (start fun _ _ => 0) mergedRun).obtained = [1,2,3,4] ∧
    (run step (start fun _ _ => 0) mergedRun).pipe.tmpPage = some 7 ∧
    stream (run step (start fun _ _ => 0) mergedRun).obtained <+: stream (run step (start fun _ _ => 0) mergedRun).entered := by
  have admitted : Admitted step Fresh (start fun _ _ => 0) mergedRun := by decide +kernel
  exact ⟨admitted,by decide +kernel,by decide +kernel,(orderedStream admitted).1⟩

end EclairKernel.Pipe
