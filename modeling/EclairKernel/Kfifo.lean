import EclairKernel.LoggerRing
import EclairKernel.Run

/-! kernel/kfifo.c with one producer in `__kfifo_put` and one consumer in `__kfifo_get`.
Each call is three steps: the load of the other side's index, the copy, and the store
of the own index. `unsigned int` is a number below 2^32. -/
namespace EclairKernel.Kfifo
open Nat RingBuffer
open Logger (memcpy bytesAt)

structure Fifo where
  buffer : Nat → UInt8
  size : Nat
  inn : Nat
  out : Nat

def isPowerOf2 (n : Nat) : Prop := n ≠ 0 ∧ n &&& (n - 1) = 0

instance (n : Nat) : Decidable (isPowerOf2 n) := inferInstanceAs (Decidable (_ ∧ _))

def kfifoInit (buffer : Nat → UInt8) (size : Nat) : Option Fifo :=
  if isPowerOf2 size then some ⟨buffer,size,0,0⟩ else none

def kfifoLen (fifo : Fifo) : Nat := (fifo.inn + 2^32 - fifo.out) % 2^32

def putLen (fifo : Fifo) (len : Nat) : Nat := min len ((fifo.size + 2^32 - fifo.inn + fifo.out) % 2^32)

def putCopy (fifo : Fifo) (data : List UInt8) (len : Nat) : Fifo :=
  let off := fifo.inn &&& (fifo.size - 1)
  let l := min len (fifo.size - off)
  { fifo with buffer := memcpy (memcpy fifo.buffer off (data.take l)) 0 ((data.drop l).take (len - l)) }

def putStore (fifo : Fifo) (len : Nat) : Fifo := { fifo with inn := (fifo.inn + len) % 2^32 }

def getLen (fifo : Fifo) (len : Nat) : Nat := min len ((fifo.inn + 2^32 - fifo.out) % 2^32)

def getCopy (fifo : Fifo) (len : Nat) : List UInt8 :=
  let off := fifo.out &&& (fifo.size - 1)
  let l := min len (fifo.size - off)
  bytesAt fifo.buffer off l ++ bytesAt fifo.buffer 0 (len - l)

def getStore (fifo : Fifo) (len : Nat) : Fifo := { fifo with out := (fifo.out + len) % 2^32 }

inductive Putting where
  | idle
  | loaded (data : List UInt8) (len : Nat)
  | copied (data : List UInt8) (len : Nat)

inductive Getting where
  | idle
  | loaded (len : Nat)
  | copied (len : Nat)

-- `stored` is what completed puts stored, `obtained` what the copies of gets brought,
-- and `taken` counts the bytes of completed gets.
structure System where
  fifo : Fifo
  put : Putting
  get : Getting
  stored : List UInt8
  obtained : List UInt8
  taken : Nat

inductive Event where
  | putLoad (data : List UInt8)
  | putCopy
  | putStore
  | getLoad (len : Nat)
  | getCopy
  | getStore

-- Each side makes its own steps in turn; a step out of turn does nothing.
def step (s : System) : Event → System
  | .putLoad data =>
    match s.put with
    | .idle => { s with put := .loaded data (putLen s.fifo data.length) }
    | _ => s
  | .putCopy =>
    match s.put with
    | .loaded data len => { s with fifo := putCopy s.fifo data len, put := .copied data len }
    | _ => s
  | .putStore =>
    match s.put with
    | .copied data len => { s with fifo := putStore s.fifo len, put := .idle, stored := s.stored ++ data.take len }
    | _ => s
  | .getLoad len =>
    match s.get with
    | .idle => { s with get := .loaded (getLen s.fifo len) }
    | _ => s
  | .getCopy =>
    match s.get with
    | .loaded len => { s with get := .copied len, obtained := s.obtained ++ getCopy s.fifo len }
    | _ => s
  | .getStore =>
    match s.get with
    | .copied len => { s with fifo := getStore s.fifo len, get := .idle, taken := s.taken + len }
    | _ => s

def opened (fifo : Fifo) : System := ⟨fifo,.idle,.idle,[],[],0⟩

/-! The kfifo as a queue of bytes. Counted without wrap, the bytes stored and taken
away are the two indices; the cells between them hold the bytes not yet read, and the
copies of a put stay in the cells after them. -/

open List Kfifo

def PutOk (s : System) : Putting → Prop
  | .idle => True
  | .loaded data len => len ≤ data.length ∧ s.stored.length + len ≤ s.taken + s.fifo.size
  | .copied data len => len ≤ data.length ∧ s.stored.length + len ≤ s.taken + s.fifo.size ∧
      slice s.fifo.buffer s.fifo.size s.stored.length len = data.take len

def GetOk (s : System) : Getting → Prop
  | .idle => s.obtained = s.stored.take s.taken
  | .loaded len => s.taken + len ≤ s.stored.length ∧ s.obtained = s.stored.take s.taken
  | .copied len => s.taken + len ≤ s.stored.length ∧ s.obtained = s.stored.take (s.taken + len)

structure Queue (k : Nat) (s : System) : Prop where
  word : k < 32
  size : s.fifo.size = 2^k
  inn : s.fifo.inn = s.stored.length % 2^32
  out : s.fifo.out = s.taken % 2^32
  taken : s.taken ≤ s.stored.length
  room : s.stored.length ≤ s.taken + s.fifo.size
  unread : slice s.fifo.buffer s.fifo.size s.taken (s.stored.length - s.taken) = s.stored.drop s.taken
  put : PutOk s s.put
  get : GetOk s s.get

section
variable {k s}

namespace Queue

section
variable (queue : Queue k s)
include queue

theorem small : s.fifo.size < 2^32 := by
  rw [queue.size]
  exact Nat.pow_lt_pow_right (by decide) queue.word

theorem positive : 0 < s.fifo.size := by
  rw [queue.size]
  exact Nat.two_pow_pos k

theorem cell (n : Nat) : n % 2^32 % s.fifo.size = n % s.fifo.size := by
  rw [queue.size]
  exact mod_mod_of_dvd n (pow_dvd_pow 2 (le_of_lt queue.word))

theorem mask (n : Nat) : n &&& (s.fifo.size - 1) = n % s.fifo.size := by
  rw [queue.size]
  exact and_two_pow_sub_one_eq_mod n k

theorem length : kfifoLen s.fifo = s.stored.length - s.taken := by
  have taken := queue.taken
  have room := queue.room
  have small := queue.small
  rw [kfifoLen,queue.inn,queue.out]
  omega

theorem putLen (len : Nat) : Kfifo.putLen s.fifo len = min len (s.fifo.size - (s.stored.length - s.taken)) := by
  have taken := queue.taken
  have room := queue.room
  have small := queue.small
  rw [Kfifo.putLen,queue.inn,queue.out]
  congr 1
  omega

theorem getLen (len : Nat) : Kfifo.getLen s.fifo len = min len (s.stored.length - s.taken) := by
  rw [← queue.length]
  rfl

end

variable {data len}

section
variable (queue : Queue k s)
include queue

theorem putCopy (enough : len ≤ data.length) (fits : len ≤ s.fifo.size) :
    Wrote s.fifo.size s.stored.length (data.take len) s.fifo.buffer (Kfifo.putCopy s.fifo data len).buffer := by
  have off : s.fifo.inn &&& (s.fifo.size - 1) = s.stored.length % s.fifo.size := by
    rw [queue.mask,queue.inn,queue.cell]
  have count := length_take_of_le enough
  have wrote := Logger.bothCopiesWrote (b := s.fifo.buffer) (data.take len) (mod_lt s.stored.length queue.positive)
    (count.le.trans fits)
  rw [count,take_take,drop_take,min_eq_left (min_le_left _ _)] at wrote
  rw [← wroteMod]
  simp only [Kfifo.putCopy,off]
  exact wrote

theorem getCopy (there : s.taken + len ≤ s.stored.length) :
    Kfifo.getCopy s.fifo len = (s.stored.drop s.taken).take len := by
  have room := queue.room
  have off : s.fifo.out &&& (s.fifo.size - 1) = s.taken % s.fifo.size := by
    rw [queue.mask,queue.out,queue.cell]
  simp only [Kfifo.getCopy,off]
  rw [Logger.copiesSlice (mod_lt s.taken queue.positive) (by omega),sliceMod,← queue.unread]
  rw [show s.stored.length - s.taken = len + (s.stored.length - s.taken - len) by omega,sliceAppend]
  rw [take_append_of_le_length (by simp),take_of_length_le (by simp)]

theorem putCopyKeeps (enough : len ≤ data.length)
    (room : s.stored.length + len ≤ s.taken + s.fifo.size) {i} (inside : i < s.stored.length - s.taken) :
    (Kfifo.putCopy s.fifo data len).buffer ((s.taken + i) % s.fifo.size) = s.fifo.buffer ((s.taken + i) % s.fifo.size) := by
  have wrote := queue.putCopy enough (by omega)
  have kept := wrote.kept (s.taken + i + s.fifo.size - s.stored.length)
    (by rw [length_take_of_le enough]; omega) (by omega)
  rwa [show s.stored.length + (s.taken + i + s.fifo.size - s.stored.length) = s.taken + i + s.fifo.size by omega,
    add_mod_right] at kept

theorem putLoad (data : List UInt8) : Queue k { s with put := .loaded data (Kfifo.putLen s.fifo data.length) } := by
  have room := queue.room
  refine { queue with put := ?_, get := queue.get }
  rw [queue.putLen]
  exact ⟨min_le_left _ _,by dsimp only; omega⟩

theorem putCopied (loaded : PutOk s (.loaded data len)) :
    Queue k { s with fifo := Kfifo.putCopy s.fifo data len, put := .copied data len } := by
  obtain ⟨enough,room⟩ := loaded
  have taken := queue.taken
  have wrote := queue.putCopy enough (by omega)
  refine { queue with unread := ?_, put := ⟨enough,room,?_⟩, get := queue.get }
  · rw [← queue.unread]
    refine map_congr_left fun i inside => ?_
    exact queue.putCopyKeeps enough room (mem_range.mp inside)
  · have here := wrote.here
    rwa [length_take_of_le enough] at here

theorem putStored (copied : PutOk s (.copied data len)) :
    Queue k { s with fifo := Kfifo.putStore s.fifo len, put := .idle, stored := s.stored ++ data.take len } := by
  obtain ⟨enough,room,here⟩ := copied
  have taken := queue.taken
  have count : (s.stored ++ data.take len).length = s.stored.length + len := by
    rw [length_append,length_take_of_le enough]
  refine { queue with inn := ?_, taken := ?_, room := ?_, unread := ?_, put := trivial, get := ?_ }
  · change (s.fifo.inn + len) % 2^32 = _
    rw [count,queue.inn,mod_add_mod]
  · exact count ▸ le_add_right_of_le taken
  · exact count ▸ room
  · change slice s.fifo.buffer s.fifo.size s.taken ((s.stored ++ data.take len).length - s.taken) = _
    rw [count,show s.stored.length + len - s.taken = s.stored.length - s.taken + len by omega,sliceAppend,
      queue.unread,Nat.add_sub_cancel' taken,here,drop_append_of_le_length taken]
  -- a get in progress only sees bytes that were there before
  · have got := queue.get
    revert got
    cases s.get with
    | idle =>
      intro got
      exact got.trans (take_append_of_le_length taken).symm
    | loaded n =>
      intro ⟨there,got⟩
      exact ⟨count ▸ le_add_right_of_le there,got.trans (take_append_of_le_length taken).symm⟩
    | copied n =>
      intro ⟨there,got⟩
      exact ⟨count ▸ le_add_right_of_le there,got.trans (take_append_of_le_length there).symm⟩

theorem getLoad (idle : GetOk s .idle) (len : Nat) : Queue k { s with get := .loaded (Kfifo.getLen s.fifo len) } := by
  have taken := queue.taken
  refine { queue with put := queue.put, get := ⟨?_,idle⟩ }
  rw [queue.getLen]
  dsimp only
  omega

theorem getCopied (loaded : GetOk s (.loaded len)) :
    Queue k { s with get := .copied len, obtained := s.obtained ++ Kfifo.getCopy s.fifo len } := by
  obtain ⟨there,got⟩ := loaded
  refine { queue with put := queue.put, get := ⟨there,?_⟩ }
  rw [got,queue.getCopy there,take_add]

theorem getStored (copied : GetOk s (.copied len)) :
    Queue k { s with fifo := Kfifo.getStore s.fifo len, get := .idle, taken := s.taken + len } := by
  obtain ⟨there,got⟩ := copied
  have room := queue.room
  refine { queue with out := ?_, taken := there, room := ?_, unread := ?_, put := ?_, get := got }
  · change (s.fifo.out + len) % 2^32 = _
    rw [queue.out,mod_add_mod]
  · change s.stored.length ≤ s.taken + len + s.fifo.size
    omega
  · have unread := queue.unread
    rw [show s.stored.length - s.taken = len + (s.stored.length - (s.taken + len)) by omega,sliceAppend] at unread
    change slice s.fifo.buffer s.fifo.size (s.taken + len) (s.stored.length - (s.taken + len)) = _
    rw [← drop_drop,← unread,drop_left' (by simp)]
  -- taking bytes away only makes room
  · have ok := queue.put
    revert ok
    have more (n : Nat) (fits : s.stored.length + n ≤ s.taken + s.fifo.size) :
        s.stored.length + n ≤ s.taken + len + s.fifo.size := by omega
    cases s.put with
    | idle => exact id
    | loaded data n =>
      intro ⟨enough,fits⟩
      exact ⟨enough,more n fits⟩
    | copied data n =>
      intro ⟨enough,fits,here⟩
      exact ⟨enough,more n fits,here⟩

theorem step (e : Event) : Queue k (Kfifo.step s e) := by
  have put := queue.put
  have get := queue.get
  cases e with
  | putLoad data =>
    simp only [Kfifo.step]
    split
    · exact queue.putLoad data
    · exact queue
  | putCopy =>
    simp only [Kfifo.step]
    split
    · rename_i loaded
      exact queue.putCopied (loaded ▸ put)
    · exact queue
  | putStore =>
    simp only [Kfifo.step]
    split
    · rename_i copied
      exact queue.putStored (copied ▸ put)
    · exact queue
  | getLoad len =>
    simp only [Kfifo.step]
    split
    · rename_i idle
      exact queue.getLoad (idle ▸ get) len
    · exact queue
  | getCopy =>
    simp only [Kfifo.step]
    split
    · rename_i loaded
      exact queue.getCopied (loaded ▸ get)
    · exact queue
  | getStore =>
    simp only [Kfifo.step]
    split
    · rename_i copied
      exact queue.getStored (copied ▸ get)
    · exact queue

theorem obtained : s.obtained <+: s.stored := by
  have get := queue.get
  revert get
  cases s.get with
  | idle =>
    intro got
    exact got ▸ take_prefix _ _
  | loaded | copied =>
    intro ⟨_,got⟩
    exact got ▸ take_prefix _ _

theorem stepKeeps (e : Event) {i} (inside : i < s.stored.length - s.taken) :
    (Kfifo.step s e).fifo.buffer ((s.taken + i) % s.fifo.size) = s.fifo.buffer ((s.taken + i) % s.fifo.size) := by
  have put := queue.put
  cases e with
  | putCopy =>
    simp only [Kfifo.step]
    split
    · rename_i data len loaded
      rw [loaded] at put
      exact queue.putCopyKeeps put.1 put.2 inside
    · rfl
  | putLoad | putStore | getLoad | getCopy | getStore => simp only [Kfifo.step]; split <;> rfl

end

end Queue

theorem initQueue {buffer size fifo} (word : size < 2^32)
    (init : kfifoInit buffer size = some fifo) : ∃ k, size = 2^k ∧ Queue k (opened fifo) := by
  simp only [kfifoInit] at init
  split at init <;> try contradiction
  rename_i power
  cases init
  obtain ⟨k,eq⟩ := (and_sub_one_eq_zero_iff_isPowerOfTwo power.1).mp power.2
  have small := (Nat.pow_lt_pow_iff_right Nat.one_lt_two).mp (eq ▸ word)
  exact ⟨k,eq,small,eq,rfl,rfl,Nat.le_refl 0,Nat.zero_le _,rfl,trivial,rfl⟩

end

def sampleEvents : List Event :=
  [.putLoad [1,2,3],.putCopy,.putStore,.getLoad 2,.getCopy,.putLoad [4,5,6],.getStore,.putCopy,.getLoad 8,.putStore,
    .getCopy,.getStore,.putLoad [7,8,9,10],.putCopy,.putStore]

end EclairKernel.Kfifo
