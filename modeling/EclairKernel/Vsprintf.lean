import Mathlib.Data.Nat.ModEq
import EclairKernel.BoundedOutput

/-! lib/vsprintf.c: vsnprintf on a 32-bit machine. The buffer is a stretch of one memory, and
a %s argument is read from the same memory while its text is printed. Addresses are unbounded,
so the end never lies below the start. The k-th va_arg gives the k-th argument, cut to the
type that is asked for. %n and the %p suffixes that print something else than the pointer
have no meaning here. -/
namespace EclairKernel.Vsprintf
open BoundedOutput Nat Int32

def PAGE_SIZE : Nat := 4096

structure Flags where
  zeropad : Bool := false
  sign : Bool := false
  plus : Bool := false
  space : Bool := false
  left : Bool := false
  small : Bool := false
  special : Bool := false
  deriving DecidableEq, Repr

inductive Qualifier | h | l | L | z | t
  deriving DecidableEq, Repr

abbrev Args := Nat → BitVec 64

theorem oneLess {n : Int32} (above : -2^31 < n.toInt) : (n - 1).toInt = n.toInt - 1 := by
  have := toInt_lt n
  rw [toInt_sub,show (1 : Int32).toInt = 1 from rfl,Int.bmod_eq_of_le] <;> omega

def countDown (limit : Nat) (c : Char) (n : Int32) : Printer Char Int32 :=
  if (limit : Int) ≤ (n - 1).toInt then do
    put c
    countDown limit c (n - 1)
  else pure (n - 1)
termination_by ((n - 1).toInt + 1).toNat
decreasing_by
  have : (limit : Int) ≤ (n - 1).toInt := ‹_›
  rw [oneLess (by omega)]
  omega

def padWidth (len fieldWidth : Int32) : Printer Char Int32 :=
  if len < fieldWidth then do
    put ' '
    padWidth len (fieldWidth - 1)
  else pure (fieldWidth - 1)
termination_by (fieldWidth.toInt - len.toInt).toNat
decreasing_by
  have more : len.toInt < fieldWidth.toInt := lt_iff_toInt_lt.mp ‹_›
  have := le_toInt len
  rw [oneLess (by omega)]
  omega

def digit (d : Nat) : Char := Char.ofNat (d + '0'.toNat)

def putDecTrunc (q : Nat) : List Char :=
  let d1 := (q >>> 4) &&& 0xf
  let d2 := (q >>> 8) &&& 0xf
  let d3 := q >>> 12
  let d0 := 6 * (d3 + d2 + d1) + (q &&& 0xf)
  let q := (d0 * 0xcd) >>> 11
  let d0 := d0 - 10 * q
  let d1 := q + 9 * d3 + 5 * d2 + d1
  digit d0 :: if d1 = 0 then [] else
    let q := (d1 * 0xcd) >>> 11
    let d1 := d1 - 10 * q
    let d2 := q + 2 * d2
    digit d1 :: if d2 = 0 ∧ d3 = 0 then [] else
      let q := (d2 * 0xd) >>> 7
      let d2 := d2 - 10 * q
      let d3 := q + 4 * d3
      digit d2 :: if d3 = 0 then [] else
        let q := (d3 * 0xcd) >>> 11
        let d3 := d3 - 10 * q
        digit d3 :: if q = 0 then [] else [digit q]

def putDecFull (q : Nat) : List Char :=
  let d1 := (q >>> 4) &&& 0xf
  let d2 := (q >>> 8) &&& 0xf
  let d3 := q >>> 12
  let d0 := 6 * (d3 + d2 + d1) + (q &&& 0xf)
  let q := (d0 * 0xcd) >>> 11
  let d0 := d0 - 10 * q
  let d1 := q + 9 * d3 + 5 * d2 + d1
  let q := (d1 * 0xcd) >>> 11
  let d1 := d1 - 10 * q
  let d2 := q + 2 * d2
  let q := (d2 * 0xd) >>> 7
  let d2 := d2 - 10 * q
  let d3 := q + 4 * d3
  let q := (d3 * 0xcd) >>> 11
  let d3 := d3 - 10 * q
  [digit d0,digit d1,digit d2,digit d3,digit q]

def putDec (num : Nat) : List Char :=
  if num < 100000 then putDecTrunc num else putDecFull (num % 100000) ++ putDec (num / 100000)

def orCase (c : Char) (small : Bool) : Char := Char.ofNat (c.toNat ||| if small then 0x20 else 0)

def hexDigit (d : Nat) : Char := ['0','1','2','3','4','5','6','7','8','9','A','B','C','D','E','F'].getD d '0'

def putRadix (shift : Nat) (small : Bool) (num : Nat) : List Char :=
  orCase (hexDigit (num % 2^shift)) small ::
    if 0 < shift ∧ num >>> shift ≠ 0 then putRadix shift small (num >>> shift) else []
termination_by num
decreasing_by
  have more : 0 < shift ∧ num >>> shift ≠ 0 := ‹_›
  rw [shiftRight_eq_div_pow] at more ⊢
  have : num ≠ 0 := fun zero => more.2 (by simp [zero])
  exact Nat.div_lt_self (by omega) (Nat.one_lt_two_pow (by omega))

def digitsOf (num base : Nat) (small : Bool) : List Char :=
  if num = 0 then ['0'] else if base = 10 then putDec num else putRadix (if base = 16 then 4 else 3) small num

def signOf (type : Flags) (num : Nat) : Option Char × Nat :=
  if type.sign then
    if 2^63 ≤ num then (some '-',(2^64 - num) % 2^64)
    else if type.plus then (some '+',num)
    else if type.space then (some ' ',num)
    else (none,num)
  else (none,num)

def number (num base : Nat) (size precision : Int32) (type : Flags) : Printer Char Unit := do
  let needPfx := type.special && base != 10
  let zeropad := type.zeropad && !type.left
  let (sign,num) := signOf type num
  let size := if sign.isSome then size - 1 else size
  let size := if needPfx then (if base = 16 then size - 1 - 1 else size - 1) else size
  let tmp := digitsOf num base type.small
  let i := tmp.length
  let precision := if precision.toInt < i then ofNat i else precision
  let size := size - precision
  let size ← (if zeropad || type.left then pure size else countDown 0 ' ' size)
  putAll sign.toList
  putAll (if needPfx then (if base = 16 then ['0',orCase 'X' type.small] else ['0']) else [])
  let size ← (if type.left then pure size else countDown 0 (if zeropad then '0' else ' ') size)
  let _ ← countDown i '0' precision
  -- while (--i >= 0): tmp[i]
  putAll tmp.reverse
  let _ ← countDown 0 ' ' size

/-- The text a char pointer leads to: one of the constants, or what the memory holds. -/
inductive Source
  | constant (text : List Char)
  | address (s : Nat)
  deriving DecidableEq, Repr

def Source.chars (m : Nat → Char) : Source → Nat → Char
  | .constant text,i => text.getD i '\x00'
  | .address s,i => m (s + i)

def strnlen (s : Nat → Char) : Nat → Nat → Nat
  | 0,sofar => sofar
  | count + 1,sofar => if s sofar = '\x00' then sofar else strnlen s count (sofar + 1)

def limitOf (precision : Int32) : Nat := precision.toBitVec.toNat

def copyChars (s : Source) : Nat → Nat → Printer Char Unit
  | 0,_ => pure ()
  | left + 1,i => do
    let c ← look fun m => s.chars m i
    put c
    copyChars s left (i + 1)

def nullChecked : Source → Source
  | .address s => if s < PAGE_SIZE then .constant ['<','N','U','L','L','>'] else .address s
  | s => s

def string (s : Source) (fieldWidth precision : Int32) (flags : Flags) : Printer Char Unit := do
  let s := nullChecked s
  let found ← look fun m => strnlen (s.chars m) (limitOf precision) 0
  let len := ofNat found
  let fieldWidth ← (if flags.left then pure fieldWidth else padWidth len fieldWidth)
  copyChars s len.toInt.toNat 0
  let _ ← padWidth len fieldWidth

def printsPointer : List Char → Bool
  | 'F'::_ | 'S'::_ | 'R'::_ | 'm'::_ | 'M'::_ => false
  | 'i' :: '6' :: _ | 'i' :: '4' :: _ | 'I' :: '6' :: _ | 'I' :: '4' :: _ => false
  | _ => true

def suffixFlags (flags : Flags) : List Char → Flags
  | 'i'::_ | 'I'::_ => { flags with special := false }
  | _ => flags

def pointer (fmt : List Char) (ptr : Nat) (fieldWidth precision : Int32) (flags : Flags) : Printer Char Unit :=
  if ptr = 0 then string (.constant ['(','n','u','l','l',')']) fieldWidth precision flags
  else if printsPointer fmt then
    let flags := { suffixFlags flags fmt with small := true }
    if fieldWidth = -1 then number ptr 16 8 precision { flags with zeropad := true }
    else number ptr 16 fieldWidth precision flags
  else undefined

def isdigit (c : Char) : Bool := '0' ≤ c && c ≤ '9'

def isalnum (c : Char) : Bool :=
  isdigit c || ('A' ≤ c && c ≤ 'Z') || ('a' ≤ c && c ≤ 'z') ||
    (192 ≤ c.toNat && c.toNat ≤ 255 && c.toNat != 215 && c.toNat != 247)

def skipAtoi (i : Int32) : List Char → Int32 × List Char
  | [] => (i,[])
  | c::rest => if isdigit c then skipAtoi (i * 10 + ofNat c.toNat - ofNat '0'.toNat) rest else (i,c::rest)

def readFlags (flags : Flags) : List Char → Flags × List Char
  | '-'::rest => readFlags { flags with left := true } rest
  | '+'::rest => readFlags { flags with plus := true } rest
  | ' '::rest => readFlags { flags with space := true } rest
  | '#'::rest => readFlags { flags with special := true } rest
  | '0'::rest => readFlags { flags with zeropad := true } rest
  | rest => (flags,rest)

def int32Of (a : BitVec 64) : Int32 := ofBitVec (a.setWidth 32)

/-- A number in the format, or the next argument for a star: the value, the rest of the format
and how many arguments are used up; -1 for neither. -/
def readCount (args : Args) (next : Nat) : List Char → Int32 × List Char × Nat
  | [] => (-1,[],next)
  | c::rest =>
    if isdigit c then
      let (n,rest) := skipAtoi 0 (c::rest)
      (n,rest,next)
    else if c = '*' then (int32Of (args next),rest,next + 1)
    else (-1,c::rest,next)

def readWidth (args : Args) (next : Nat) (flags : Flags) (fmt : List Char) : Int32 × Flags × List Char × Nat :=
  let (width,rest,later) := readCount args next fmt
  -- only a star gives a negative width that is a width
  if fmt.head? = some '*' ∧ width < 0 then (-width,{ flags with left := true },rest,later)
  else (width,flags,rest,later)

def readPrecision (args : Args) (next : Nat) : List Char → Int32 × List Char × Nat
  | '.'::rest =>
    let (precision,rest,next) := readCount args next rest
    (if precision < 0 then 0 else precision,rest,next)
  | rest => (-1,rest,next)

def readQualifier : List Char → Option Qualifier × List Char
  | 'h'::rest => (some .h,rest)
  | 'l' :: 'l' :: rest => (some .L,rest)
  | 'l'::rest => (some .l,rest)
  | 'L'::rest => (some .L,rest)
  | 'Z'::rest => (some .z,rest)
  | 'z'::rest => (some .z,rest)
  | 't'::rest => (some .t,rest)
  | rest => (none,rest)

structure Spec where
  flags : Flags
  fieldWidth : Int32
  precision : Int32
  qualifier : Option Qualifier
  arg : BitVec 64

def readSpec (args : Args) (next : Nat) (fmt : List Char) : Spec × List Char × Nat :=
  let (flags,fmt) := readFlags {} fmt
  let (fieldWidth,flags,fmt,next) := readWidth args next flags fmt
  let (precision,fmt,next) := readPrecision args next fmt
  let (qualifier,fmt) := readQualifier fmt
  (⟨flags,fieldWidth,precision,qualifier,args next⟩,fmt,next)

def argValue (qualifier : Option Qualifier) (sign : Bool) (a : BitVec 64) : Nat :=
  match qualifier with
  | some .L => a.toNat
  | some .l => if sign then ((a.setWidth 32).signExtend 64).toNat else (a.setWidth 32).toNat
  | some .z => (a.setWidth 32).toNat
  | some .t => ((a.setWidth 32).signExtend 64).toNat
  | some .h => if sign then ((a.setWidth 16).signExtend 64).toNat else (a.setWidth 16).toNat
  | none => if sign then ((a.setWidth 32).signExtend 64).toNat else (a.setWidth 32).toNat

def integer (spec : Spec) (base : Nat) (flags : Flags) : Printer Char Unit :=
  number (argValue spec.qualifier flags.sign spec.arg) base spec.fieldWidth spec.precision flags

def character (c : Char) (fieldWidth : Int32) (flags : Flags) : Printer Char Unit := do
  let fieldWidth ← (if flags.left then pure fieldWidth else countDown 1 ' ' fieldWidth)
  put c
  let _ ← countDown 1 ' ' fieldWidth

def convert (spec : Spec) (conv : Char) (fmt : List Char) : Printer Char Unit :=
  match conv with
  | 'c' => character (Char.ofNat (spec.arg.setWidth 8).toNat) spec.fieldWidth spec.flags
  | 's' => string (.address (spec.arg.setWidth 32).toNat) spec.fieldWidth spec.precision spec.flags
  | 'p' => pointer fmt (spec.arg.setWidth 32).toNat spec.fieldWidth spec.precision spec.flags
  | 'n' => undefined
  | '%' => put '%'
  | 'o' => integer spec 8 spec.flags
  | 'x' => integer spec 16 { spec.flags with small := true }
  | 'X' => integer spec 16 spec.flags
  | 'd' => integer spec 10 { spec.flags with sign := true }
  | 'i' => integer spec 10 { spec.flags with sign := true }
  | 'u' => integer spec 10 spec.flags
  | other => putAll ['%',other]

def usesArg (conv : Char) : Bool := conv ∈ ['c','s','p','n','o','x','X','d','i','u']

def afterConversion (conv : Char) (fmt : List Char) : List Char := if conv = 'p' then fmt.dropWhile isalnum else fmt

theorem skipAtoiLength (i : Int32) (fmt : List Char) : (skipAtoi i fmt).2.length ≤ fmt.length := by
  induction fmt generalizing i with
  | nil => rfl
  | cons c rest ih =>
    unfold skipAtoi
    split
    · exact le_trans (ih _) (le_succ _)
    · rfl

theorem readFlagsLength (flags : Flags) (fmt : List Char) : (readFlags flags fmt).2.length ≤ fmt.length := by
  fun_induction readFlags flags fmt <;> simp_all <;> omega

theorem readCountLength (args : Args) (next : Nat) (fmt : List Char) :
    (readCount args next fmt).2.1.length ≤ fmt.length := by
  unfold readCount
  split
  · exact le_rfl
  · split
    · exact skipAtoiLength _ _
    · split <;> simp

theorem readWidthLength (args : Args) (next : Nat) (flags : Flags) (fmt : List Char) :
    (readWidth args next flags fmt).2.2.1.length ≤ fmt.length := by
  have := readCountLength args next fmt
  simp only [readWidth]
  split <;> exact this

theorem readPrecisionLength (args : Args) (next : Nat) (fmt : List Char) :
    (readPrecision args next fmt).2.1.length ≤ fmt.length := by
  unfold readPrecision
  split
  · exact le_trans (readCountLength args next _) (le_succ _)
  · exact le_rfl

theorem readQualifierLength (fmt : List Char) : (readQualifier fmt).2.length ≤ fmt.length := by
  unfold readQualifier
  split <;> simp only [List.length_cons] <;> omega

theorem readSpecLength (args : Args) (next : Nat) (fmt : List Char) : (readSpec args next fmt).2.1.length ≤ fmt.length :=
  le_trans (readQualifierLength _) (le_trans (readPrecisionLength ..)
    (le_trans (readWidthLength ..) (readFlagsLength ..)))

theorem afterConversionLength (conv : Char) (fmt : List Char) : (afterConversion conv fmt).length ≤ fmt.length := by
  unfold afterConversion
  split
  · exact (List.dropWhile_suffix _).length_le
  · exact le_rfl

def formatLoop (args : Args) (fmt : List Char) (next : Nat) : Printer Char Unit :=
  match fmt with
  | [] => pure ()
  | c::fmt =>
    if c = '%' then
      match read : readSpec args next fmt with
      -- The default branch at the end of the format steps back, so that the loop sees the end.
      | (_,[],_) => put '%'
      | (spec,conv::rest,later) => do
        convert spec conv rest
        formatLoop args (afterConversion conv rest) (if usesArg conv then later + 1 else later)
    else do
      put c
      formatLoop args fmt next
termination_by fmt.length
decreasing_by
  · have shorter := readSpecLength args next fmt
    have := afterConversionLength conv rest
    rw [read] at shorter
    simp only [List.length_cons] at shorter ⊢
    omega
  · simp

def INT_MAX : Nat := 2^31 - 1

structure Result where
  value : Int32
  mem : Nat → Char
  text : List Char

def vsnprintf (args : Args) (buf size : Nat) (fmt : List Char) (mem : Nat → Char) : Option Result :=
  if ofNat size < 0 then some ⟨0,mem,[]⟩
  else (formatLoop args fmt 0 (buf + size) ⟨buf,mem,[]⟩).map fun r =>
    let o := r.2
    let stop := buf + size
    let mem := if 0 < size then Function.update o.mem (if o.str < stop then o.str else stop - 1) '\x00' else o.mem
    ⟨ofNat (o.str - buf),mem,o.text⟩

end EclairKernel.Vsprintf
