import EclairKernel.Vsprintf

/-! Every conversion of vsnprintf prints a text that does not depend on where the buffer ends,
so all sizes go through the same text and keep a part of it. -/
namespace EclairKernel.Vsprintf
open BoundedOutput Function List Int32

section
variable {m keep start}

theorem countDownSettled (limit : Nat) (c : Char) (n : Int32) : Settled m keep start (countDown limit c n) := by
  fun_induction countDown limit c n with
  | case1 n more ih => exact settledBind (settledPut c) fun _ => ih
  | case2 n done => exact settledPure _

theorem padWidthSettled (len width : Int32) : Settled m keep start (padWidth len width) := by
  fun_induction padWidth len width with
  | case1 width more ih => exact settledBind (settledPut ' ') fun _ => ih
  | case2 width done => exact settledPure _

theorem numberSettled (num base : Nat) (size precision : Int32) (type : Flags) :
    Settled m keep start (number num base size precision type) := by
  refine settledBind (settledIte (fun _ => settledPure _) fun _ => countDownSettled ..) fun _ => ?_
  refine settledBind (settledPutAll _) fun _ => settledBind (settledPutAll _) fun _ => ?_
  refine settledBind (settledIte (fun _ => settledPure _) fun _ => countDownSettled ..) fun _ => ?_
  refine settledBind (countDownSettled ..) fun _ => settledBind (settledPutAll _) fun _ => ?_
  exact settledBind (countDownSettled ..) fun _ => settledPure _

theorem characterSettled (c : Char) (width : Int32) (flags : Flags) : Settled m keep start (character c width flags) := by
  refine settledBind (settledIte (fun _ => settledPure _) fun _ => countDownSettled ..) fun _ => ?_
  exact settledBind (settledPut c) fun _ => settledBind (countDownSettled ..) fun _ => settledPure _

theorem strnlenLe (s : Nat → Char) (count sofar : Nat) : strnlen s count sofar ≤ sofar + count := by
  induction count generalizing sofar with
  | zero => exact le_rfl
  | succ count ih =>
    have := ih (sofar + 1)
    unfold strnlen
    split <;> omega

theorem strnlenGe (s : Nat → Char) (count sofar : Nat) : sofar ≤ strnlen s count sofar := by
  induction count generalizing sofar with
  | zero => exact le_rfl
  | succ count ih =>
    have := ih (sofar + 1)
    unfold strnlen
    split <;> omega

def Scanned (s : Nat → Char) (count i : Nat) : Prop := i < count ∧ i ≤ strnlen s count 0

variable {count next fmt args}

theorem strnlenCongr {s s' sofar}
    (same : ∀ i, sofar ≤ i → i < sofar + count → i ≤ strnlen s count sofar → s' i = s i) :
    strnlen s' count sofar = strnlen s count sofar := by
  induction count generalizing sofar with
  | zero => rfl
  | succ count ih =>
    have here := same sofar le_rfl (by omega) (strnlenGe ..)
    unfold strnlen at same ⊢
    rw [here]
    split
    · rfl
    · rename_i more
      exact ih fun i low high within => same i (by omega) (by omega) (by rwa [if_neg more])

def StringCell (m : Nat → Char) (spec : Spec) (a : Nat) : Prop :=
  let s := (spec.arg.setWidth 32).toNat
  PAGE_SIZE ≤ s ∧ ∃ i, a = s + i ∧ Scanned (fun i => m (s + i)) (limitOf spec.precision) i

def Fixed (m : Nat → Char) (keep : Nat → Prop) (s : Source) (count : Nat) : Prop :=
  ∀ m', (∀ a, keep a → m' a = m a) → ∀ i, Scanned (s.chars m) count i → s.chars m' i = s.chars m i

theorem fixedConstant (text : List Char) (count : Nat) : Fixed m keep (.constant text) count := fun _ _ _ _ => rfl

theorem fixedAddress {s} (kept : ∀ i, Scanned (fun i => m (s + i)) count i → keep (s + i)) :
    Fixed m keep (.address s) count := fun _ same i scanned => same _ (kept i scanned)

theorem copyCharsSettled {s left i} (fixed : Fixed m keep s count)
    (within : i + left ≤ strnlen (s.chars m) count 0) : Settled m keep start (copyChars s left i) := by
  have := strnlenLe (s.chars m) count 0
  induction left generalizing i with
  | zero => exact settledPure ()
  | succ left ih =>
    refine settledAfter (printsLook fun m' same => fixed m' same i ⟨by omega,by omega⟩) ?_
    exact settledBind (settledPut _) fun _ => ih (by omega)

theorem intLength {n : Nat} (small : n < 2^32) : (ofNat n).toInt.toNat ≤ n := by
  have value : (ofNat n).toInt = (n : Int).bmod (2^32) := toInt_ofNat'
  rw [value,Int.bmod_def]
  split <;> omega

theorem stringSettled {s width precision flags}
    (fixed : Fixed m keep (nullChecked s) (limitOf precision)) : Settled m keep start (string s width precision flags) := by
  have small : strnlen ((nullChecked s).chars m) (limitOf precision) 0 < 2^32 := by
    have := strnlenLe ((nullChecked s).chars m) (limitOf precision) 0
    have : limitOf precision < 2^32 := precision.toBitVec.isLt
    omega
  refine settledAfter (printsLook fun m' same => ?_) ?_
  · exact strnlenCongr fun i _ high within => fixed m' same i ⟨by omega,within⟩
  · refine settledBind (settledIte (fun _ => settledPure _) fun _ => padWidthSettled ..) fun _ => ?_
    refine settledBind (copyCharsSettled fixed ?_) fun _ => settledBind (padWidthSettled ..) fun _ => settledPure _
    rw [zero_add]
    exact intLength small

theorem pointerSettled (plain : printsPointer fmt) (ptr : Nat) (width precision : Int32) (flags : Flags) :
    Settled m keep start (pointer fmt ptr width precision flags) := by
  refine settledIte (fun _ => stringSettled (fixedConstant _ _)) fun _ => ?_
  rw [if_pos plain]
  exact settledIte (fun _ => numberSettled ..) fun _ => numberSettled ..

structure Conversion where
  spec : Spec
  conv : Char
  rest : List Char

def Conversion.Plain (x : Conversion) : Prop := x.conv ≠ 'n' ∧ (x.conv = 'p' → printsPointer x.rest)

instance (x : Conversion) : Decidable x.Plain := by unfold Conversion.Plain; infer_instance

theorem convertSettled {x : Conversion} (plain : x.Plain) (kept : x.conv = 's' → ∀ a, StringCell m x.spec a → keep a) :
    Settled m keep start (convert x.spec x.conv x.rest) := by
  unfold convert
  split
  · exact characterSettled ..
  · refine stringSettled ?_
    simp only [nullChecked]
    split
    · exact fixedConstant _ _
    · exact fixedAddress fun i scanned => kept ‹_› _ ⟨by omega,i,rfl,scanned⟩
  · exact pointerSettled (plain.2 ‹_›) ..
  · exact absurd ‹_› plain.1
  · exact settledPut _
  all_goals first | exact numberSettled .. | exact settledPutAll _

def conversions (args : Args) (fmt : List Char) (next : Nat) : List Conversion :=
  match fmt with
  | [] => []
  | c::fmt =>
    if c = '%' then
      match read : readSpec args next fmt with
      | (_,[],_) => []
      | (spec,conv::rest,later) =>
        ⟨spec,conv,rest⟩ :: conversions args (afterConversion conv rest) (if usesArg conv then later + 1 else later)
    else conversions args fmt next
termination_by fmt.length
decreasing_by
  · have shorter := readSpecLength args next fmt
    have := afterConversionLength conv rest
    rw [read] at shorter
    simp only [length_cons] at shorter ⊢
    omega
  · simp

theorem conversionsRead {rest later spec conv}
    (read : readSpec args next fmt = (spec,conv::rest,later)) : conversions args ('%'::fmt) next =
      ⟨spec,conv,rest⟩ :: conversions args (afterConversion conv rest) (if usesArg conv then later + 1 else later) := by
  rw [conversions,if_pos rfl]
  split <;> simp_all

theorem conversionsOrdinary {c} (ordinary : c ≠ '%') :
    conversions args (c::fmt) next = conversions args fmt next := by
  rw [conversions,if_neg ordinary]

theorem formatLoopSettled (plain : ∀ x ∈ conversions args fmt next, x.Plain)
    (kept : ∀ x ∈ conversions args fmt next, x.conv = 's' → ∀ a, StringCell m x.spec a → keep a) :
    Settled m keep start (formatLoop args fmt next) := by
  fun_induction formatLoop args fmt next with
  | case1 => exact settledPure ()
  | case2 => exact settledPut _
  | case3 next fmt spec conv rest later read ih =>
    rw [conversionsRead read] at plain kept
    have first := @convertSettled m keep start ⟨spec,conv,rest⟩ (plain _ (.head _)) (kept _ (.head _))
    exact settledBind first fun _ => ih (fun x mem => plain x (.tail _ mem)) fun x mem => kept x (.tail _ mem)
  | case4 next c fmt ordinary ih =>
    rw [conversionsOrdinary ordinary] at plain kept
    exact settledBind (settledPut c) fun _ => ih plain kept

def Apart (args : Args) (fmt : List Char) (m : Nat → Char) (start stop : Nat) : Prop :=
  ∀ x ∈ conversions args fmt 0, x.conv = 's' → ∀ a, StringCell m x.spec a → a < start ∨ stop ≤ a

end

structure Truncated (text : List Char) (buf size : Nat) (m m' : Nat → Char) : Prop where
  outside : ∀ a, a < buf ∨ buf + size ≤ a → m' a = m a
  kept : ∀ i (printed : i < text.length), i + 1 < size → m' (buf + i) = text[i]
  ended : 1 ≤ size → m' (buf + min text.length (size - 1)) = '\x00'

def ended (text : List Char) (buf size : Nat) (m : Nat → Char) : Nat → Char :=
  let cells := (emit (buf + size) text ⟨buf,m,[]⟩).mem
  if 0 < size then update cells (buf + min text.length (size - 1)) '\x00' else cells

theorem endedTruncated (text : List Char) (buf size : Nat) (m : Nat → Char) :
    Truncated text buf size m (ended text buf size m) where
  outside a out := by
    have unchanged : (emit (buf + size) text ⟨buf,m,[]⟩).mem a = m a := emitOutside (by simp only; omega)
    unfold ended
    split
    · rw [update_of_ne (by omega),unchanged]
    · exact unchanged
  kept i printed room := by
    unfold ended
    rw [if_pos (by omega),update_of_ne (by omega)]
    exact emitInside printed (by simp only; omega)
  ended some_ := by
    unfold ended
    rw [if_pos (by omega),update_self]

theorem vsnprintfRun {args fmt text buf size m keep}
    (prints : Prints m keep buf (formatLoop args fmt 0) () text) (small : size ≤ INT_MAX)
    (outside : ∀ a, keep a → a < buf ∨ buf + size ≤ a) :
    vsnprintf args buf size fmt m = some ⟨ofNat text.length,ended text buf size m,text⟩ := by
  have positive : ¬ ofNat size < 0 := by
    have : (ofNat size).toInt = size := toInt_ofNat_of_lt (by unfold INT_MAX at small; omega)
    rw [lt_iff_toInt_lt,this]
    simp
  have run := prints (buf + size) ⟨buf,m,[]⟩ ⟨le_rfl,outside,fun _ _ => rfl⟩
  rw [vsnprintf,if_neg positive,run]
  simp only [Option.map_some,emitText,emitStr,Nat.add_sub_cancel_left]
  congr 2
  unfold ended
  split
  · congr 1
    split <;> omega
  · rfl

theorem vsnprintfTruncates (args : Args) (fmt : List Char) (buf : Nat) (m : Nat → Char)
    (plain : ∀ x ∈ conversions args fmt 0, x.Plain) :
    ∃ text : List Char, ∀ size, size ≤ INT_MAX → Apart args fmt m buf (buf + size) →
      ∃ r, vsnprintf args buf size fmt m = some r ∧ r.text = text ∧ r.value = ofNat text.length ∧
        (text.length ≤ INT_MAX → r.value.toInt = text.length) ∧ Truncated text buf size m r.mem := by
  let keep : Nat → Prop := fun a => ∃ x ∈ conversions args fmt 0, x.conv = 's' ∧ StringCell m x.spec a
  obtain ⟨_,text,prints⟩ : Settled m keep buf (formatLoop args fmt 0) :=
    formatLoopSettled plain fun x mem string a cell => ⟨x,mem,string,cell⟩
  refine ⟨text,fun size small apart => ?_⟩
  have run := vsnprintfRun prints small fun a ⟨x,mem,string,cell⟩ => apart x mem string a cell
  refine ⟨_,run,rfl,rfl,fun fits => ?_,endedTruncated ..⟩
  exact toInt_ofNat_of_lt (by unfold INT_MAX at fits; omega)

def sampleFormat : List Char := ['%','5','d','|','%','-','4','s']
def sampleArgs : Args := fun k => if k = 0 then 42 else 0x9000
def sampleMemory : Nat → Char := fun a => if a < 0x9003 then 'a' else '\x00'

theorem sampleConversions : conversions sampleArgs sampleFormat 0 =
    [⟨⟨{},5,-1,none,42⟩,'d',['|','%','-','4','s']⟩,⟨⟨{ left := true },4,-1,none,0x9000⟩,'s',[]⟩] := by
  rw [sampleFormat,conversionsRead rfl]
  show _ :: conversions sampleArgs ('|'::_) 1 = _
  rw [conversionsOrdinary (by decide),conversionsRead rfl]
  show _ :: _ :: conversions sampleArgs [] 2 = _
  rw [conversions]
  rfl

theorem sampleTruncated : ∃ text r, vsnprintf sampleArgs 0x8000 8 sampleFormat sampleMemory = some r ∧ r.text = text ∧
    r.value = ofNat text.length ∧ Truncated text 0x8000 8 sampleMemory r.mem := by
  obtain ⟨text,all⟩ := vsnprintfTruncates sampleArgs sampleFormat 0x8000 sampleMemory (by rw [sampleConversions]; decide)
  have apart : Apart sampleArgs sampleFormat sampleMemory 0x8000 (0x8000 + 8) := by
    rw [Apart,sampleConversions]
    intro x mem string a cell
    obtain ⟨_,i,rfl,_⟩ := cell
    have second : x.spec.arg = 0x9000 := by
      rcases mem_cons.mp mem with rfl | mem
      · cases string
      · rw [mem_singleton.mp mem]
    rw [second]
    exact .inr (le_trans (by decide) (Nat.le_add_right ..))
  obtain ⟨r,run,same,value,_,truncated⟩ := all 8 (by decide) apart
  exact ⟨text,r,run,same,value,truncated⟩

section
variable {m keep start} {k : Nat}

theorem countDownPrints {limit : Nat} (c : Char) {n : Int32} (rounds : n.toInt = limit + k) :
    Prints m keep start (countDown limit c n) (ofNat limit - 1) (List.replicate k c) := by
  have := toInt_lt n
  have less : (n - 1).toInt = n.toInt - 1 := oneLess (by omega)
  induction k generalizing n with
  | zero =>
    have last : n = ofNat limit := by
      rw [← toInt_inj,toInt_ofNat_of_lt (by omega)]
      omega
    rw [countDown,if_neg (by omega),last]
    exact printsPure _
  | succ k ih =>
    rw [countDown,if_pos (by omega)]
    have := @oneLess (n - 1) (by omega)
    exact printsBind (printsPut c) (ih (by omega) (by omega) this)

theorem characterPrints (c : Char) {width : Int32} (wide : width.toInt = k + 1) :
    Prints m keep start (character c width {}) () (List.replicate k ' ' ++ [c]) := by
  have before : Prints m keep start (countDown 1 ' ' width) 0 (replicate k ' ') :=
    countDownPrints ' ' (by omega)
  have after : Prints m keep start (countDown 1 ' ' 0) (-1) [] := by
    rw [countDown]
    exact printsPure _
  have rest : Prints m keep start (do put c; let _ ← countDown 1 ' ' 0) () [c] :=
    printsBind (printsPut c) (printsBind after (printsPure ()))
  exact printsBind before rest

def wideFormat : List Char :=
  ['%','2','1','4','7','4','8','3','6','4','7','c','%','2','1','4','7','4','8','3','6','4','7','c']

theorem formatLoopRead {args fmt rest next later spec conv}
    (read : readSpec args next fmt = (spec,conv::rest,later)) : formatLoop args ('%'::fmt) next = (do
      convert spec conv rest
      formatLoop args (afterConversion conv rest) (if usesArg conv then later + 1 else later)) := by
  rw [formatLoop,if_pos rfl]
  split <;> simp_all

theorem wideLoopPrints (args : Args) (blanks : (2147483647 : Int32).toInt = k + 1) :
    ∃ text, Prints m keep start (formatLoop args wideFormat 0) () text ∧ text.length = 2 * (k + 1) := by
  have field (c : Char) : Prints m keep start (character c 2147483647 {}) () (replicate k ' ' ++ [c]) :=
    characterPrints c blanks
  have stop : Prints m keep start (formatLoop args [] 2) () [] := by
    rw [formatLoop]
    exact printsPure ()
  have loop : formatLoop args wideFormat 0 = (do
      character (Char.ofNat ((args 0).setWidth 8).toNat) 2147483647 {}
      character (Char.ofNat ((args 1).setWidth 8).toNat) 2147483647 {}
      formatLoop args [] 2) := by
    rw [wideFormat,formatLoopRead rfl]
    show (do _; formatLoop args ('%'::_) 1) = _
    rw [formatLoopRead rfl]
    rfl
  rw [loop]
  refine ⟨_,printsBind (field _) (printsBind (field _) stop),?_⟩
  simp only [length_append,length_replicate,length_cons,length_nil]
  omega

end

/-- A length that no int holds, and a string that lies in the buffer: what is read of it depends
on the size. -/
theorem wideTextLength : (∃ r, vsnprintf (fun _ => 65) 0x8000 0 wideFormat (fun _ => '\x00') = some r ∧
      r.value.toInt = -2 ∧ r.text.length = 4294967294) ∧
    (vsnprintf (fun _ => 0x8000) 0x8000 0 ['a','%','s'] (fun _ => '\x00')).map (·.value) = some 1 ∧
    (vsnprintf (fun _ => 0x8000) 0x8000 8 ['a','%','s'] (fun _ => '\x00')).map (·.value) = some 2 := by
  refine ⟨?_,by decide +kernel,by decide +kernel⟩
  obtain ⟨text,prints,length⟩ : ∃ text, Prints (fun _ => '\x00') (fun _ => False) 0x8000
      (formatLoop (fun _ => 65) wideFormat 0) () text ∧ text.length = 2 * (2147483646 + 1) :=
    wideLoopPrints _ (by decide)
  refine ⟨_,vsnprintfRun prints (by decide) (by simp),?_,length⟩
  rw [length]
  rfl

end EclairKernel.Vsprintf
