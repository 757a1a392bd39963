import EclairKernel.LoggerRing

/-! fs/seq_file.c over a fixed sequence of records: start(i) is the ith record or the
end, and show puts a fixed text and may then return SEQ_SKIP. Allocations and copies to
user space succeed; the bytes of a new buffer are left as they are. -/
namespace EclairKernel.SeqFile
open Nat
open Logger (memcpy bytesAt)

def PAGE_SIZE : Nat := 4096

structure Record where
  text : List UInt8
  skip : Bool
  deriving DecidableEq, Repr

-- The struct seq_file; `grabbed` says that `buf` is not NULL.
structure Handle where
  buf : Nat → UInt8
  grabbed : Bool
  size : Nat
  fromOff : Nat
  count : Nat
  index : Nat
  readPos : Nat

def seqOpen (buf : Nat → UInt8) : Handle := ⟨buf,false,0,0,0,0,0⟩

def seqPuts (m : Handle) (s : List UInt8) : Handle :=
  if m.count + s.length < m.size then { m with buf := memcpy m.buf m.count s, count := m.count + s.length }
  else { m with count := m.size }

def grab (m : Handle) : Handle := if m.grabbed then m else { m with grabbed := true, size := PAGE_SIZE }

def grow (m : Handle) : Handle := { m with size := m.size * 2 }

inductive Traversed where
  | done (m : Handle)
  | overflow (m : Handle)

def traverseLoop (offset : Nat) : List Record → Handle → Nat → Nat → Traversed
  | [], m, _, index => .done { m with index := index }
  | r::rest, m, pos, index =>
    let m := seqPuts m r.text
    let m := if r.skip then { m with count := 0 } else m
    if m.count = m.size then .overflow m
    else if pos + m.count > offset then
      .done { m with fromOff := offset - pos, count := m.count - (offset - pos), index := index }
    else
      let pos := pos + m.count
      let m := { m with count := 0 }
      if pos = offset then .done { m with index := index + 1 } else traverseLoop offset rest m pos (index + 1)

def traverse (records : List Record) (m : Handle) (offset : Nat) : Traversed :=
  let m := { m with count := 0, fromOff := 0 }
  if offset = 0 then .done { m with index := 0 }
  else match traverseLoop offset records (grab m) 0 0 with
    | .done m => .done m
    | .overflow m => .overflow (grow m)

-- while ((err = traverse(m, *ppos)) == -EAGAIN); the fuel is never used up
def traverseAgain (records : List Record) (offset : Nat) : Nat → Handle → Option Handle
  | 0, _ => none
  | fuel+1, m =>
    match traverse records m offset with
    | .done m => some m
    | .overflow m => traverseAgain records offset fuel m

inductive First where
  | finished (m : Handle)
  | fill (m : Handle) (pos : Nat) (rest : List Record)
  | full (m : Handle)

def firstLoop : List Record → Handle → Nat → First
  | [], m, _ => .finished { m with count := 0 }
  | r::rest, m, pos =>
    let m := seqPuts m r.text
    let m := if r.skip then { m with count := 0 } else m
    if m.count = 0 then firstLoop rest { m with index := pos + 1 } (pos + 1)
    else if m.count < m.size then .fill m pos rest
    else .full m

-- The loop around it, which doubles the buffer; the fuel is never used up.
def firstRecord (records : List Record) : Nat → Handle → Option First
  | 0, _ => none
  | fuel+1, m =>
    match firstLoop (records.drop m.index) m m.index with
    | .full m => firstRecord records fuel { grow m with count := 0 }
    | first => some first

def fillLoop (size : Nat) : List Record → Handle → Nat → Handle × Nat
  | [], m, pos => (m,pos)
  | r::rest, m, pos =>
    if m.count < size then
      let offs := m.count
      let m := seqPuts m r.text
      if m.count = m.size ∨ r.skip then
        if r.skip then fillLoop size rest { m with count := offs } (pos + 1) else ({ m with count := offs },pos)
      else fillLoop size rest m (pos + 1)
    else (m,pos)

def copyOut (m : Handle) (pos size : Nat) : List UInt8 × Handle :=
  let n := min m.count size
  let left := m.count - n
  (bytesAt m.buf 0 n,
    if left ≠ 0 then { m with count := left, fromOff := n, index := pos } else { m with count := left, index := pos + 1 })

def flush (m : Handle) (size : Nat) : List UInt8 × Handle :=
  let n := min m.count size
  let left := m.count - n
  (bytesAt m.buf m.fromOff n,
    { m with count := left, fromOff := m.fromOff + n, index := if left = 0 then m.index + 1 else m.index })

def readRecords (records : List Record) (fuel : Nat) (m : Handle) (size : Nat) : Option (List UInt8 × Handle) :=
  match firstRecord records fuel m with
  | none => none
  | some (.fill m pos rest) =>
    let filled := fillLoop size rest m pos
    some (copyOut filled.1 filled.2 size)
  | some (.finished m) => some ([],m)
  | some (.full _) => none

def readBuffered (records : List Record) (fuel : Nat) (m : Handle) (size : Nat) : Option (List UInt8 × Handle) :=
  let m := grab m
  if m.count ≠ 0 then
    let flushed := flush m size
    let size := size - flushed.1.length
    if size = 0 then some flushed
    else (readRecords records fuel flushed.2 size).map fun more => (flushed.1 ++ more.1,more.2)
  else readRecords records fuel m size

def rounds (records : List Record) : Nat := (records.map fun r => r.text.length).sum + 1

/-- The bytes copied by a call at `ppos`; it returns their number. -/
def seqRead (records : List Record) (m : Handle) (size ppos : Nat) : Option (List UInt8 × Handle) :=
  let found :=
    if ppos ≠ m.readPos then traverseAgain records ppos (rounds records) { m with readPos := ppos } else some m
  match found with
  | none => none
  | some m =>
    (readBuffered records (rounds records) m size).map fun out =>
      (out.1,{ out.2 with readPos := out.2.readPos + out.1.length })

def seqReads (records : List Record) (m : Handle) : List (Nat × Nat) → Option (List (List UInt8) × Handle)
  | [] => some ([],m)
  | (ppos,size)::calls =>
    match seqRead records m size ppos with
    | none => none
    | some (bytes,m) => (seqReads records m calls).map fun out => (bytes::out.1,out.2)

/-! What seq_read gives out. The bytes still in the buffer, followed by the records after
them, are always what the whole output holds from `read_pos` on. -/

open List

def output (records : List Record) : List UInt8 := records.flatMap fun r => if r.skip then [] else r.text

@[simp] theorem outputCons (r : Record) (rest : List Record) :
    output (r::rest) = (if r.skip then [] else r.text) ++ output rest := flatMap_cons

section
variable {b off n}

@[simp] theorem bytesLength : (bytesAt b off n).length = n := by simp [bytesAt]

theorem bytesEq {cells} (length : cells.length = n) (cell : ∀ i, i < n → cells[i]? = some (b (off + i))) :
    bytesAt b off n = cells := by
  apply ext_getElem?
  intro i
  by_cases inside : i < n
  · rw [cell i inside]
    simp [bytesAt,inside]
  · rw [getElem?_eq_none (by simpa using inside),getElem?_eq_none (by omega)]

theorem bytesCell {i} (inside : i < n) : (bytesAt b off n)[i]? = some (b (off + i)) := by
  simp [bytesAt,inside]

theorem bytesTake {k} (short : k ≤ n) : (bytesAt b off n).take k = bytesAt b off k := by
  refine (bytesEq (by simpa using short) fun i inside => ?_).symm
  rw [getElem?_take_of_lt inside,bytesCell (by omega)]

theorem bytesDrop (k : Nat) : (bytesAt b off n).drop k = bytesAt b (off + k) (n - k) := by
  refine (bytesEq (by simp) fun i inside => ?_).symm
  rw [getElem?_drop,bytesCell (by omega),add_assoc]

theorem bytesCut {k} (short : k ≤ n) : bytesAt b off n = bytesAt b off k ++ bytesAt b (off + k) (n - k) := by
  rw [← bytesTake short,← bytesDrop,take_append_drop]

theorem bytesMemcpy (s : List UInt8) : bytesAt (memcpy b n s) 0 (n + s.length) = bytesAt b 0 n ++ s := by
  refine bytesEq (by simp) fun i inside => ?_
  rw [zero_add]
  rcases lt_or_ge i n with before | after
  · rw [getElem?_append_left (by simpa using before),bytesCell before,zero_add,Logger.memcpyOutside (.inl before)]
  · rw [getElem?_append_right (by simpa using after),bytesLength,Logger.memcpyInside after (by omega)]

end

def held (m : Handle) : List UInt8 := bytesAt m.buf m.fromOff m.count

def following (m : Handle) : Nat := if m.count = 0 then m.index else m.index + 1

def At (records : List Record) (p : Nat) (m : Handle) : Prop :=
  (output records).drop p = held m ++ output (records.drop (following m))

structure Steady (records : List Record) (m : Handle) : Prop where
  here : At records m.readPos m
  size : m.grabbed → 0 < m.size

section
variable {records recs : List Record} {m m' p}

theorem atEmpty (empty : m.count = 0) : At records p m ↔ (output records).drop p = output (records.drop m.index) := by
  simp [At,held,following,empty,bytesAt]

theorem atFull (full : m.count ≠ 0) :
    At records p m ↔ (output records).drop p = held m ++ output (records.drop (m.index + 1)) := by
  simp [At,following,full]

variable {s tail r size pos offset fuel}

theorem putsFits (fits : m.count + s.length < m.size) :
    seqPuts m s = { m with buf := memcpy m.buf m.count s, count := m.count + s.length } := if_pos fits

theorem putsFull (full : m.size ≤ m.count + s.length) : seqPuts m s = { m with count := m.size } :=
  if_neg (not_lt.mpr full)

theorem putsSize (s : List UInt8) : (seqPuts m s).size = m.size := by
  unfold seqPuts
  split <;> rfl

theorem putsHeld (empty : m.count = 0) (fits : s.length < m.size) (k : Nat) :
    bytesAt (seqPuts m s).buf k (s.length - k) = s.drop k := by
  rw [putsFits (by omega),empty]
  have whole := bytesMemcpy (b := m.buf) (n := 0) s
  rw [show bytesAt m.buf 0 0 ++ s = s from rfl,zero_add] at whole
  calc bytesAt (memcpy m.buf 0 s) k (s.length - k)
    _ = (bytesAt (memcpy m.buf 0 s) 0 s.length).drop k := by rw [bytesDrop,zero_add]
    _ = s.drop k := by rw [whole]

theorem putsBefore (s : List UInt8) : bytesAt (seqPuts m s).buf 0 m.count = bytesAt m.buf 0 m.count := by
  unfold seqPuts
  split
  · refine bytesEq bytesLength fun i inside => ?_
    rw [bytesCell inside,zero_add]
    exact congrArg some (Logger.memcpyOutside (.inl inside)).symm
  · rfl

structure Kept (m m' : Handle) : Prop where
  grabbed : m'.grabbed = m.grabbed
  size : m.size ≤ m'.size
  readPos : m'.readPos = m.readPos

theorem Kept.refl (m : Handle) : Kept m m := ⟨rfl,le_rfl,rfl⟩

theorem Kept.trans {m''} (first : Kept m m') (second : Kept m' m'') : Kept m m'' :=
  ⟨second.grabbed.trans first.grabbed,first.size.trans second.size,second.readPos.trans first.readPos⟩

theorem putsKept (s : List UInt8) : Kept m (seqPuts m s) := by
  unfold seqPuts
  split <;> exact ⟨rfl,le_rfl,rfl⟩

def Long (recs : List Record) (size : Nat) : Prop := ∃ r ∈ recs, size ≤ r.text.length

theorem Long.cons {size'} (long : Long recs size') (less : size ≤ size') : Long (r::recs) size :=
  long.imp fun _ found => ⟨mem_cons_of_mem r found.1,less.trans found.2⟩

theorem dropSucc {rest index} (eq : records.drop index = r::rest) :
    records.drop (index + 1) = rest := by
  rw [← drop_drop,eq]
  rfl

theorem dropOutput (later : pos ≤ offset) (eq : (output records).drop pos = tail) :
    (output records).drop offset = tail.drop (offset - pos) := by
  rw [← eq,drop_drop,Nat.add_sub_cancel' later]

inductive TraverseSpec (records : List Record) (offset : Nat) (m : Handle) (recs : List Record) : Traversed → Prop where
  | done {m' : Handle} : Kept m m' → At records offset m' → TraverseSpec records offset m recs (.done m')
  | overflow {m' : Handle} : Kept m m' → Long recs m.size → TraverseSpec records offset m recs (.overflow m')

theorem TraverseSpec.cons {t} (kept : Kept m m')
    (spec : TraverseSpec records offset m' recs t) : TraverseSpec records offset m (r::recs) t := by
  cases spec with
  | done next here => exact .done (kept.trans next) here
  | overflow next long => exact .overflow (kept.trans next) (long.cons kept.size)

theorem traverseLoopSpec {index} (empty : m.count = 0) (positive : 0 < m.size) (before : pos < offset)
    (stand : records.drop index = recs) (rest : (output records).drop pos = output recs) :
    TraverseSpec records offset m recs (traverseLoop offset recs m pos index) := by
  induction recs generalizing m pos index with
  | nil =>
    refine .done ⟨rfl,le_rfl,rfl⟩ ((atEmpty (m := { m with index := index }) empty).mpr ?_)
    rw [dropOutput (le_of_lt before) rest,stand]
    exact drop_nil
  | cons r recs ih =>
    have next := dropSucc stand
    have kept : Kept m (seqPuts m r.text) := putsKept r.text
    have emptied : Kept m { seqPuts m r.text with count := 0 } := ⟨kept.grabbed,kept.size,kept.readPos⟩
    have positive' := lt_of_lt_of_le positive kept.size
    cases skip : r.skip with
    | true =>
      simp only [outputCons,skip] at rest
      simp only [traverseLoop,skip,if_true]
      rw [if_neg (by rw [putsSize]; omega),if_neg (by omega),if_neg (by omega)]
      exact .cons emptied (ih rfl positive' before next rest)
    | false =>
      simp only [outputCons,skip,Bool.false_eq_true,if_false] at rest
      simp only [traverseLoop,skip,Bool.false_eq_true,if_false]
      by_cases fits : r.text.length < m.size
      · have count : (seqPuts m r.text).count = r.text.length := by
          rw [putsFits (by omega),empty]
          exact zero_add _
        rw [if_neg (by rw [putsSize]; omega)]
        simp only [count]
        split
        · refine .done ⟨kept.grabbed,kept.size,kept.readPos⟩ ((atFull (by dsimp only; omega)).mpr ?_)
          rw [dropOutput (le_of_lt before) rest,next,drop_append_of_le_length (by omega)]
          exact congrArg (· ++ output recs) (putsHeld empty fits (offset - pos)).symm
        · have after := dropOutput (Nat.le_add_right pos r.text.length) rest
          rw [Nat.add_sub_cancel_left,drop_left] at after
          split
          · rename_i reached
            refine .done ⟨kept.grabbed,kept.size,kept.readPos⟩ ((atEmpty rfl).mpr ?_)
            rw [← reached,after,next]
          · exact .cons emptied (ih rfl positive' (by omega) next after)
      · have full := putsFull (m := m) (s := r.text) (by omega)
        rw [full,if_pos rfl]
        exact .overflow ⟨rfl,le_rfl,rfl⟩ ⟨r,mem_cons_self,not_lt.mp fits⟩

theorem Long.bounded (long : Long recs size) : size < rounds recs := by
  obtain ⟨r,mem,le⟩ := long
  induction recs with
  | nil => exact absurd mem not_mem_nil
  | cons r' recs ih =>
    simp only [rounds,map_cons,sum_cons] at ih ⊢
    rcases mem_cons.mp mem with same | inside
    · subst same
      omega
    · have := ih inside
      omega

theorem grabKept : (grab m).readPos = m.readPos ∧ (grab m).grabbed = true ∧ held (grab m) = held m ∧
    following (grab m) = following m ∧ (grab m).count = m.count := by
  unfold grab
  split
  · exact ⟨rfl,by assumption,rfl,rfl,rfl⟩
  · exact ⟨rfl,rfl,rfl,rfl,rfl⟩

theorem grabSize (size : m.grabbed → 0 < m.size) : 0 < (grab m).size := by
  unfold grab
  split
  · exact size (by assumption)
  · exact zero_lt_of_ne_zero (by decide : PAGE_SIZE ≠ 0)

theorem traverseSpec (size : m.grabbed → 0 < m.size) :
    (∃ m', traverse records m offset = .done m' ∧ At records offset m' ∧ m'.readPos = m.readPos ∧
      (m'.grabbed → 0 < m'.size)) ∨
    ∃ m', traverse records m offset = .overflow m' ∧ Long records (grab m).size ∧ m'.readPos = m.readPos ∧
      m'.grabbed = true ∧ (grab m).size < m'.size := by
  have positive := grabSize size
  by_cases zero : offset = 0
  · refine .inl ⟨_,if_pos zero,(atEmpty rfl).mpr ?_,rfl,size⟩
    rw [zero]
    rfl
  have begun : (grab { m with count := 0, fromOff := 0 }).count = 0 ∧
      (grab { m with count := 0, fromOff := 0 }).size = (grab m).size ∧
      (grab { m with count := 0, fromOff := 0 }).grabbed = true ∧
      (grab { m with count := 0, fromOff := 0 }).readPos = m.readPos := by
    unfold grab
    split
    · exact ⟨rfl,rfl,by assumption,rfl⟩
    · exact ⟨rfl,rfl,rfl,rfl⟩
  obtain ⟨empty,size',grabbed,readPos⟩ := begun
  have spec : TraverseSpec records offset _ records _ :=
    traverseLoopSpec empty (size' ▸ positive) (Nat.pos_of_ne_zero zero) drop_zero drop_zero
  simp only [traverse,if_neg zero]
  revert spec
  cases traverseLoop offset records (grab { m with count := 0, fromOff := 0 }) 0 0 with
  | done m' =>
    intro spec
    cases spec with
    | done kept here =>
      exact .inl ⟨m',rfl,here,kept.readPos.trans readPos,fun _ => lt_of_lt_of_le positive (size' ▸ kept.size)⟩
  | overflow m' =>
    intro spec
    cases spec with
    | overflow kept long =>
      refine .inr ⟨_,rfl,size' ▸ long,kept.readPos.trans readPos,kept.grabbed.trans grabbed,?_⟩
      have more := kept.size
      simp only [grow]
      omega

theorem traverseAgainSpec (size : m.grabbed → 0 < m.size) (enough : rounds records ≤ (grab m).size + fuel) :
    ∃ m', traverseAgain records offset (fuel + 1) m = some m' ∧ At records offset m' ∧ m'.readPos = m.readPos ∧
      (m'.grabbed → 0 < m'.size) := by
  induction fuel generalizing m with
  | zero =>
    rcases traverseSpec size with ⟨m',eq,rest⟩ | ⟨m',-,long,-⟩
    · exact ⟨m',by rw [traverseAgain,eq],rest⟩
    · exact absurd long.bounded (not_lt.mpr enough)
  | succ fuel ih =>
    rcases traverseSpec size with ⟨m',eq,rest⟩ | ⟨m',eq,long,readPos,grabbed,more⟩
    · exact ⟨m',by rw [traverseAgain,eq],rest⟩
    · have same : grab m' = m' := if_pos grabbed
      obtain ⟨m'',eq',here,readPos',size'⟩ := ih (fun _ => zero_lt_of_lt more) (by rw [same]; omega)
      exact ⟨m'',by rw [traverseAgain,eq]; exact eq',here,readPos'.trans readPos,size'⟩

inductive FirstSpec (records : List Record) (tail : List UInt8) (m : Handle) : First → Prop where
  | finished {m' : Handle} : Kept m m' → m'.count = 0 → tail = [] → output (records.drop m'.index) = [] →
      FirstSpec records tail m (.finished m')
  | fill {m' : Handle} {pos : Nat} {rest : List Record} : Kept m m' → m'.count ≠ 0 → records.drop (pos + 1) = rest →
      tail = bytesAt m'.buf 0 m'.count ++ output rest → FirstSpec records tail m (.fill m' pos rest)
  | full {m' : Handle} : Kept m m' → Long records m.size → tail = output (records.drop m'.index) →
      FirstSpec records tail m (.full m')

theorem FirstSpec.earlier {first} (kept : Kept m m') (spec : FirstSpec records tail m' first) :
    FirstSpec records tail m first := by
  cases spec with
  | finished next empty ends rest => exact .finished (kept.trans next) empty ends rest
  | fill next some stand eq => exact .fill (kept.trans next) some stand eq
  | full next long eq =>
    exact .full (kept.trans next) (long.imp fun _ found => ⟨found.1,kept.size.trans found.2⟩) eq

theorem firstLoopSpec (empty : m.count = 0) (positive : 0 < m.size) (index : m.index = pos)
    (stand : records.drop pos = recs) : FirstSpec records (output recs) m (firstLoop recs m pos) := by
  induction recs generalizing m pos with
  | nil => exact .finished ⟨rfl,le_rfl,rfl⟩ rfl rfl (by dsimp only; rw [index,stand]; rfl)
  | cons r recs ih =>
    have next := dropSucc stand
    have kept : Kept m (seqPuts m r.text) := putsKept r.text
    have moved : Kept m { seqPuts m r.text with count := 0, index := pos + 1 } := ⟨kept.grabbed,kept.size,kept.readPos⟩
    have positive' := lt_of_lt_of_le positive kept.size
    cases skip : r.skip with
    | true =>
      simp only [firstLoop,skip,outputCons]
      exact .earlier moved (ih rfl positive' rfl next)
    | false =>
      simp only [firstLoop,skip,Bool.false_eq_true,if_false,outputCons]
      by_cases fits : r.text.length < m.size
      · have count : (seqPuts m r.text).count = r.text.length := by
          rw [putsFits (by omega),empty]
          exact zero_add _
        split
        -- a record that prints nothing is passed over
        · rename_i nothing
          have bare := eq_nil_of_length_eq_zero (count.symm.trans nothing)
          have moved' : Kept m { seqPuts m r.text with index := pos + 1 } := ⟨kept.grabbed,kept.size,kept.readPos⟩
          have later := FirstSpec.earlier moved' (ih nothing positive' rfl next)
          rw [bare] at later ⊢
          exact later
        · rename_i something
          rw [if_pos (by rw [count,putsSize]; exact fits)]
          refine .fill kept something next ?_
          have whole := putsHeld empty fits 0
          rw [Nat.sub_zero,drop_zero] at whole
          rw [count,whole]
      · have full := putsFull (m := m) (s := r.text) (by omega)
        rw [full,if_neg (Nat.pos_iff_ne_zero.mp positive),if_neg (lt_irrefl _)]
        have inside := mem_of_mem_drop (stand ▸ mem_cons_self)
        refine .full ⟨rfl,le_rfl,rfl⟩ ⟨r,inside,not_lt.mp fits⟩ ?_
        rw [index,stand,outputCons,skip]
        rfl

theorem firstRecordSpec (empty : m.count = 0) (positive : 0 < m.size) (enough : rounds records ≤ m.size + fuel) :
    ∃ first, firstRecord records (fuel + 1) m = some first ∧ FirstSpec records (output (records.drop m.index)) m first ∧
      ∀ m', first ≠ .full m' := by
  induction fuel using Nat.strong_induction_on generalizing m with
  | _ fuel ih =>
    have spec : FirstSpec records _ m _ := firstLoopSpec empty positive rfl rfl
    revert spec
    rw [firstRecord]
    cases firstLoop (records.drop m.index) m m.index with
    | full m' =>
      intro spec
      cases spec with
      | full kept long eq =>
        cases fuel with
        | zero => exact absurd long.bounded (not_lt.mpr enough)
        | succ fuel =>
          have grown : m.size < m'.size * 2 := by
            have := kept.size
            omega
          have larger : Kept m { grow m' with count := 0 } := ⟨kept.grabbed,le_of_lt grown,kept.readPos⟩
          obtain ⟨first,found,spec,whole⟩ := @ih fuel (lt_succ_self fuel) { grow m' with count := 0 } rfl
            (zero_lt_of_lt grown) (by simp only [grow]; omega)
          exact ⟨first,found,eq ▸ spec.earlier larger,whole⟩
    | finished m' => exact fun spec => ⟨_,rfl,spec,by simp⟩
    | fill m' pos rest => exact fun spec => ⟨_,rfl,spec,by simp⟩

theorem fillLoopSpec (stand : records.drop (pos + 1) = recs) :
    Kept m (fillLoop size recs m pos).1 ∧ m.count ≤ (fillLoop size recs m pos).1.count ∧
      bytesAt m.buf 0 m.count ++ output recs =
        bytesAt (fillLoop size recs m pos).1.buf 0 (fillLoop size recs m pos).1.count ++
          output (records.drop ((fillLoop size recs m pos).2 + 1)) := by
  induction recs generalizing m pos with
  | nil => exact ⟨.refl m,le_rfl,by rw [fillLoop,stand]⟩
  | cons r recs ih =>
    have next := dropSucc stand
    have kept : Kept m (seqPuts m r.text) := putsKept r.text
    have back : Kept m { seqPuts m r.text with count := m.count } := ⟨kept.grabbed,kept.size,kept.readPos⟩
    rw [fillLoop]
    split
    · cases skip : r.skip with
      | true =>
        simp only [or_true,if_true,outputCons,skip,nil_append]
        obtain ⟨kept',more,same⟩ := ih next
        exact ⟨back.trans kept',more,by rw [← same]; dsimp only; rw [putsBefore]⟩
      | false =>
        simp only [Bool.false_eq_true,or_false,if_false,outputCons,skip]
        split
        -- it does not fit: what it printed is forgotten
        · refine ⟨back,le_rfl,?_⟩
          rw [putsBefore,stand,outputCons,skip]
          rfl
        · rename_i fits
          have room : m.count + r.text.length < m.size := by
            by_contra full
            rw [putsFull (not_lt.mp full)] at fits
            exact fits rfl
          obtain ⟨kept',more,same⟩ := ih next
          refine ⟨kept.trans kept',le_trans ?_ more,?_⟩
          · rw [putsFits room]
            exact Nat.le_add_right _ _
          · rw [← same,putsFits room,bytesMemcpy,append_assoc]
    · exact ⟨.refl m,le_rfl,by rw [stand]⟩

structure Gives (records : List Record) (tail : List UInt8) (size : Nat) (m : Handle) (out : List UInt8 × Handle) : Prop where
  kept : Kept m out.2
  short : out.1.length ≤ size
  split : tail = out.1 ++ (held out.2 ++ output (records.drop (following out.2)))
  some : out.1 = [] → size = 0 ∨ tail = []

theorem copyOutGives (something : m.count ≠ 0)
    (eq : tail = bytesAt m.buf 0 m.count ++ output (records.drop (pos + 1))) :
    Gives records tail size m (copyOut m pos size) := by
  refine ⟨?_,?_,?_,fun nothing => ?_⟩
  · simp only [copyOut]
    split <;> exact ⟨rfl,le_rfl,rfl⟩
  · simp only [copyOut,bytesLength]
    omega
  · rw [eq,bytesCut (min_le_left m.count size)]
    simp only [copyOut]
    by_cases left : m.count - min m.count size = 0
    · simp [held,following,left,bytesAt]
    · simp [held,following,left]
  · have none : min m.count size = 0 := by
      have := congrArg length nothing
      simpa [copyOut] using this
    omega

theorem flushGives (something : m.count ≠ 0)
    (eq : tail = held m ++ output (records.drop (m.index + 1))) : Gives records tail size m (flush m size) := by
  refine ⟨⟨rfl,le_rfl,rfl⟩,?_,?_,fun nothing => ?_⟩
  · simp only [flush,bytesLength]
    omega
  · rw [eq,held,bytesCut (min_le_left m.count size)]
    simp only [flush]
    by_cases left : m.count - min m.count size = 0
    · simp [held,following,left]
    · simp [held,following,left]
  · have none : min m.count size = 0 := by
      have := congrArg length nothing
      simpa [flush] using this
    omega

theorem readRecordsGives (size : Nat) (empty : m.count = 0) (positive : 0 < m.size)
    (enough : rounds records ≤ m.size + fuel) :
    ∃ out, readRecords records (fuel + 1) m size = some out ∧ Gives records (output (records.drop m.index)) size m out := by
  obtain ⟨first,found,spec,whole⟩ := firstRecordSpec empty positive enough
  cases spec with
  | @finished m' kept none ends rest =>
    refine ⟨([],m'),by rw [readRecords,found],kept,Nat.zero_le _,?_,fun _ => .inr ends⟩
    simp [ends,held,following,none,rest,bytesAt]
  | @fill m' pos rest kept something stand eq =>
    have filled : Kept m' (fillLoop size rest m' pos).1 ∧ _ ∧ _ = _ := fillLoopSpec stand
    obtain ⟨kept',more,same⟩ := filled
    have gives : Gives records (output (records.drop m.index)) size (fillLoop size rest m' pos).1 _ :=
      copyOutGives (by omega) (eq.trans same)
    exact ⟨_,by rw [readRecords,found],⟨(kept.trans kept').trans gives.kept,gives.short,gives.split,gives.some⟩⟩
  | full _ _ _ => exact absurd rfl (whole _)

theorem Gives.append {out more} (first : Gives records tail size m out)
    (empty : out.2.count = 0) (something : out.1 ≠ [])
    (second : Gives records (output (records.drop out.2.index)) (size - out.1.length) out.2 more) :
    Gives records tail size m (out.1 ++ more.1,more.2) := by
  have short := first.short
  have short' := second.short
  refine ⟨first.kept.trans second.kept,?_,?_,fun nothing => ?_⟩
  · rw [length_append]
    omega
  · have split := first.split
    simp only [held,following,empty,if_true] at split
    rw [second.split] at split
    simpa [bytesAt] using split
  · exact absurd (append_eq_nil_iff.mp nothing).1 something

theorem readBufferedGives (size : Nat) (size' : m.grabbed → 0 < m.size)
    (eq : tail = held m ++ output (records.drop (following m))) (enough : rounds records ≤ fuel + 1) :
    ∃ out, readBuffered records (fuel + 1) m size = some out ∧ Gives records tail size (grab m) out := by
  obtain ⟨-,-,same,after,count⟩ := grabKept
  have positive := grabSize size'
  rw [← same,← after] at eq
  by_cases something : (grab m).count = 0
  · rw [following,if_pos something] at eq
    have read : ∃ out, readRecords records (fuel + 1) (grab m) size = some out ∧ _ :=
      readRecordsGives size something positive (by omega)
    obtain ⟨out,found,gives⟩ := read
    have none : held (grab m) = [] := by rw [held,something]; rfl
    rw [none] at eq
    exact ⟨out,by simpa [readBuffered,something] using found,eq ▸ gives⟩
  · rw [following,if_neg something] at eq
    have first : Gives records tail size (grab m) _ := flushGives something eq
    simp only [readBuffered,ne_eq,something,not_false_eq_true,if_true]
    split
    · exact ⟨_,rfl,first⟩
    -- size is left, so the buffer is empty now
    · rename_i left
      have length : (flush (grab m) size).1.length = min (grab m).count size := by simp [flush]
      have empty : (flush (grab m) size).2.count = 0 := by
        simp only [flush]
        omega
      have given : (flush (grab m) size).1 ≠ [] := by
        intro none
        rw [none,length_nil] at length
        omega
      have read : ∃ more, readRecords records (fuel + 1) (flush (grab m) size).2 _ = some more ∧ _ :=
        readRecordsGives (size - (flush (grab m) size).1.length) empty positive (by simp only [flush]; omega)
      obtain ⟨more,found,second⟩ := read
      exact ⟨_,by rw [found]; rfl,first.append empty given second⟩

theorem seqReadSteady (steady : Steady records m) (size ppos : Nat) :
    ∃ out, seqRead records m size ppos = some out ∧ Steady records out.2 ∧ out.1 <+: (output records).drop ppos ∧
      out.1.length ≤ size ∧ (out.1 = [] → size = 0 ∨ (output records).length ≤ ppos) := by
  obtain ⟨m',found,here,readPos,size'⟩ : ∃ m', (if ppos ≠ m.readPos then
      traverseAgain records ppos (rounds records) { m with readPos := ppos } else some m) = some m' ∧
      At records ppos m' ∧ m'.readPos = ppos ∧ (m'.grabbed → 0 < m'.size) := by
    split
    · have positive : 0 < (grab { m with readPos := ppos }).size := grabSize steady.size
      exact traverseAgainSpec steady.size (by simp only [rounds]; omega)
    · rename_i same
      exact ⟨m,rfl,not_not.mp same ▸ steady.here,(not_not.mp same).symm,steady.size⟩
  obtain ⟨out,read,gives⟩ := readBufferedGives size size' here (le_refl (rounds records))
  have pos := (gives.kept.readPos.trans grabKept.1).trans readPos
  have eq : seqRead records m size ppos = some (out.1,{ out.2 with readPos := out.2.readPos + out.1.length }) := by
    simp only [seqRead,found]
    rw [show rounds records = _ + 1 from rfl,read]
    rfl
  refine ⟨_,eq,⟨?_,fun _ => ?_⟩,⟨_,gives.split.symm⟩,gives.short,fun nothing => ?_⟩
  · change (output records).drop (out.2.readPos + out.1.length) = held out.2 ++ output (records.drop (following out.2))
    rw [pos,← drop_drop,gives.split,drop_left]
  · exact lt_of_lt_of_le (grabSize size') gives.kept.size
  · exact (gives.some nothing).imp id drop_eq_nil_iff.mp

end

theorem seqReadsOutput (records : List Record) (buf : Nat → UInt8) (calls : List (Nat × Nat)) :
    ∃ outs m, seqReads records (seqOpen buf) calls = some (outs,m) ∧
      List.Forall₂ (fun call out => out <+: (output records).drop call.1 ∧ out.length ≤ call.2 ∧
        (out = [] → call.2 = 0 ∨ (output records).length ≤ call.1)) calls outs := by
  have start : Steady records (seqOpen buf) := ⟨rfl,by simp [seqOpen]⟩
  generalize seqOpen buf = m at start
  induction calls generalizing m with
  | nil => exact ⟨[],m,rfl,.nil⟩
  | cons call calls ih =>
    obtain ⟨⟨bytes,m'⟩,read,steady,good⟩ := seqReadSteady start call.2 call.1
    obtain ⟨outs,m'',reads,rest⟩ := ih m' steady
    exact ⟨bytes::outs,m'',by simp [seqReads,read,reads],.cons good rest⟩

/-! seq_lseek, read and pread of one file. A read starts at f_pos and moves it; a pread
starts where it is told and leaves it alone. -/

structure File where
  handle : Handle
  fPos : Nat

def EINVAL : Int := 22

def seekTo (records : List Record) (f : File) (offset : Int) : Option (Int × File) :=
  if offset < 0 then some (-EINVAL,f)
  else if offset ≠ f.handle.readPos then
    (traverseAgain records offset.toNat (rounds records) f.handle).map fun m =>
      (offset,⟨{ m with readPos := offset.toNat },offset.toNat⟩)
  else some (offset,f)

def seqLseek (records : List Record) (f : File) (offset : Int) : Nat → Option (Int × File)
  | 1 => seekTo records f (offset + f.fPos)
  | 0 => seekTo records f offset
  | _ => some (-EINVAL,f)

def read (records : List Record) (f : File) (size : Nat) : Option (List UInt8 × File) :=
  (seqRead records f.handle size f.fPos).map fun out => (out.1,⟨out.2,f.fPos + out.1.length⟩)

inductive Call where
  | read (size : Nat)
  | pread (size pos : Nat)
  | lseek (offset : Int) (origin : Nat)

def call (records : List Record) (f : File) : Call → Option File
  | .read size => (read records f size).map Prod.snd
  | .pread size pos => (seqRead records f.handle size pos).map fun out => { f with handle := out.2 }
  | .lseek offset origin => (seqLseek records f offset origin).map Prod.snd

def calls (records : List Record) (f : File) : List Call → Option File
  | [] => some f
  | c::rest => (call records f c).bind fun f => calls records f rest

section
variable {records} {f : File}

theorem seekToSteady (steady : Steady records f.handle) (offset : Int) :
    ∃ out, seekTo records f offset = some out ∧ Steady records out.2.handle ∧ (0 ≤ offset → out.1 = offset ∧
      (offset ≠ f.handle.readPos ∨ f.fPos = f.handle.readPos → out.2.fPos = offset)) := by
  rw [seekTo]
  split
  · exact ⟨_,rfl,steady,by omega⟩
  split
  · have positive := grabSize steady.size
    have moved : ∃ m, traverseAgain records offset.toNat (rounds records) f.handle = some m ∧ _ :=
      traverseAgainSpec steady.size (by simp only [rounds]; omega)
    obtain ⟨m,found,here,-,size⟩ := moved
    exact ⟨_,by rw [found]; rfl,⟨here,size⟩,fun valid => ⟨rfl,fun _ => Int.toNat_of_nonneg valid⟩⟩
  · exact ⟨_,rfl,steady,fun _ => ⟨rfl,fun _ => by dsimp only; omega⟩⟩

theorem lseekSteady (steady : Steady records f.handle) (offset : Int) (origin : Nat) :
    ∃ out, seqLseek records f offset origin = some out ∧ Steady records out.2.handle := by
  match origin with
  | 0 => exact (seekToSteady steady offset).imp fun _ found => ⟨found.1,found.2.1⟩
  | 1 => exact (seekToSteady steady (offset + f.fPos)).imp fun _ found => ⟨found.1,found.2.1⟩
  | _+2 => exact ⟨_,rfl,steady⟩

theorem callSteady (steady : Steady records f.handle) (c : Call) :
    ∃ f', call records f c = some f' ∧ Steady records f'.handle := by
  cases c with
  | read size =>
    obtain ⟨out,found,steady',-⟩ := seqReadSteady steady size f.fPos
    exact ⟨_,by rw [call,read,found]; rfl,steady'⟩
  | pread size pos =>
    obtain ⟨out,found,steady',-⟩ := seqReadSteady steady size pos
    exact ⟨_,by rw [call,found]; rfl,steady'⟩
  | lseek offset origin =>
    obtain ⟨out,found,steady'⟩ := lseekSteady steady offset origin
    exact ⟨_,by rw [call,found]; rfl,steady'⟩

theorem callsSteady (steady : Steady records f.handle) (history : List Call) :
    ∃ f', calls records f history = some f' ∧ Steady records f'.handle := by
  induction history generalizing f with
  | nil => exact ⟨f,rfl,steady⟩
  | cons c rest ih =>
    obtain ⟨f',done,steady'⟩ := callSteady steady c
    obtain ⟨f'',later,steady''⟩ := ih steady'
    exact ⟨f'',by rw [calls,done]; exact later,steady''⟩

end

/-- Where the target is not read_pos, or f_pos is, a seek moves f_pos and the next read
starts there. -/
theorem lseekMoves (records : List Record) (buf : Nat → UInt8) (history : List Call) :
    ∃ f, calls records ⟨seqOpen buf,0⟩ history = some f ∧ ∀ (offset : Int) (origin off : Nat),
      (origin = 0 ∧ offset = off ∨ origin = 1 ∧ offset + f.fPos = off) →
      off ≠ f.handle.readPos ∨ f.fPos = f.handle.readPos →
      ∃ f' : File, seqLseek records f offset origin = some ((off : Int),f') ∧ f'.fPos = off ∧
        ∀ size, ∃ out, read records f' size = some out ∧ out.1 <+: (output records).drop off ∧
          out.1.length ≤ size ∧ (out.1 = [] → size = 0 ∨ (output records).length ≤ off) := by
  have start : Steady records (seqOpen buf) := ⟨rfl,by simp [seqOpen]⟩
  obtain ⟨f,done,steady⟩ := callsSteady (f := ⟨seqOpen buf,0⟩) start history
  refine ⟨f,done,fun offset origin off target apart => ?_⟩
  have moved : seqLseek records f offset origin = seekTo records f off := by
    rcases target with ⟨rfl,same⟩ | ⟨rfl,same⟩ <;> rw [← same] <;> rfl
  obtain ⟨⟨r,f'⟩,found,steady',back⟩ := seekToSteady steady off
  obtain ⟨rfl,pos⟩ := back (Int.natCast_nonneg off)
  have pos : f'.fPos = off := Int.ofNat.inj (pos (by omega))
  refine ⟨f',moved.trans found,pos,fun size => ?_⟩
  obtain ⟨out,got,-,good⟩ := seqReadSteady steady' size f'.fPos
  exact ⟨_,by rw [read,got]; rfl,pos ▸ good⟩

def spoken : List Record := [⟨[97,98,99,100],false⟩]

theorem lseekMovesOn : ∃ f, calls spoken ⟨seqOpen fun _ => 0,0⟩ [.pread 2 0,.read 1] = some f ∧
    ∃ f' : File, seqLseek spoken f 2 1 = some (3,f') ∧ f'.fPos = 3 ∧ ∃ out, read spoken f' 8 = some out ∧ out.1 = [100] := by
  obtain ⟨f,done,seek⟩ := lseekMoves spoken (fun _ => 0) [.pread 2 0,.read 1]
  have one : (calls spoken ⟨seqOpen fun _ => 0,0⟩ [.pread 2 0,.read 1]).map (fun f => (f.handle.readPos,f.fPos)) = some (1,1) := by
    decide +kernel
  rw [done] at one
  obtain ⟨at_,pos⟩ := Prod.mk.inj (Option.some.inj one)
  obtain ⟨f',moved,there,reads⟩ := seek 2 1 3 (.inr ⟨rfl,by rw [pos]; rfl⟩) (.inr (pos.trans at_.symm))
  obtain ⟨out,got,starts,-,empty⟩ := reads 8
  have starts : out.1 <+: [100] := starts
  refine ⟨f,done,f',moved,there,out,got,?_⟩
  rcases prefix_cons_iff.mp starts with none_ | ⟨t,same,rest⟩
  · exact absurd (empty none_) (by decide)
  · rw [same,prefix_nil.mp rest]

/-- After a pread that ends at 2 the seek to 2 returns 2 and leaves f_pos at 0. -/
theorem lseekStays : ((calls spoken ⟨seqOpen fun _ => 0,0⟩ [.pread 2 0]).bind fun f => seqLseek spoken f 2 0).map
    (fun out => (out.1,out.2.fPos)) = some (2,0) := by
  decide +kernel

end EclairKernel.SeqFile
