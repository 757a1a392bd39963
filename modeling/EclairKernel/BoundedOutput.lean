import Mathlib.Logic.Function.Basic

/-! Printing into a stretch of memory with an end. A character below the end is stored, a
later one only counts; `text` keeps what was printed, stored or not. A printer may look at
the memory it prints into, so what it prints is settled only where the cells it looks at lie
outside the stretch. Nothing here names a component. -/
namespace EclairKernel.BoundedOutput
open List

structure Out (α : Type) where
  str : Nat
  mem : Nat → α
  text : List α

def Printer (α β : Type) := Nat → Out α → Option (β × Out α)

instance {α : Type} : Monad (Printer α) where
  pure b := fun _ o => some (b,o)
  bind p f := fun stop o => (p stop o).bind fun r => f r.1 stop r.2

variable {α β γ : Type}

def store (stop : Nat) (o : Out α) (c : α) : Out α :=
  ⟨o.str + 1,if o.str < stop then Function.update o.mem o.str c else o.mem,o.text ++ [c]⟩

def put (c : α) : Printer α Unit := fun stop o => some ((),store stop o c)
def look (f : (Nat → α) → β) : Printer α β := fun _ o => some (f o.mem,o)
def undefined : Printer α β := fun _ _ => none

def putAll : List α → Printer α Unit
  | [] => pure ()
  | c::rest => do
    put c
    putAll rest

def emit (stop : Nat) (l : List α) (o : Out α) : Out α := l.foldl (store stop) o

@[simp] theorem emitNil (stop : Nat) (o : Out α) : emit stop [] o = o := rfl
@[simp] theorem emitCons (stop : Nat) (c : α) (l : List α) (o : Out α) :
    emit stop (c::l) o = emit stop l (store stop o c) := rfl

theorem emitAppend (stop : Nat) (l l' : List α) (o : Out α) : emit stop (l ++ l') o = emit stop l' (emit stop l o) :=
  foldl_append

theorem emitStr (stop : Nat) (l : List α) (o : Out α) : (emit stop l o).str = o.str + l.length := by
  induction l generalizing o with
  | nil => rfl
  | cons c l ih => rw [emitCons,ih,length_cons]; simp only [store]; omega

theorem emitText (stop : Nat) (l : List α) (o : Out α) : (emit stop l o).text = o.text ++ l := by
  induction l generalizing o with
  | nil => simp
  | cons c l ih => rw [emitCons,ih]; simp [store]

variable {stop l} {o : Out α}

theorem emitOutside {a}
    (outside : a < o.str ∨ stop ≤ a ∨ o.str + l.length ≤ a) : (emit stop l o).mem a = o.mem a := by
  induction l generalizing o with
  | nil => rfl
  | cons c l ih =>
    rw [length_cons] at outside
    rw [emitCons,ih (by simp only [store]; omega)]
    simp only [store]
    split
    · exact Function.update_of_ne (by omega) ..
    · rfl

theorem emitInside {i} (printed : i < l.length) (stored : o.str + i < stop) :
    (emit stop l o).mem (o.str + i) = l[i] := by
  induction l generalizing o i with
  | nil => simp at printed
  | cons c l ih =>
    cases i with
    | zero =>
      rw [emitCons,emitOutside (.inl (by simp [store]))]
      simp [store,show o.str < stop by omega]
    | succ i =>
      have place : o.str + (i + 1) = (store stop o c).str + i := by simp only [store]; omega
      rw [emitCons,place,ih (by simpa using printed) (by omega),getElem_cons_succ]

structure Clear (m : Nat → α) (keep : Nat → Prop) (start stop : Nat) (o : Out α) : Prop where
  behind : start ≤ o.str
  outside : ∀ a, keep a → a < start ∨ stop ≤ a
  same : ∀ a, keep a → o.mem a = m a

variable {m : Nat → α} {keep start} {p : Printer α β} {f : β → Printer α γ}

theorem Clear.emit (clear : Clear m keep start stop o) (l : List α) : Clear m keep start stop (emit stop l o) where
  behind := by rw [emitStr]; exact Nat.le_trans clear.behind (Nat.le_add_right ..)
  outside := clear.outside
  same a kept := by
    have := clear.behind
    have := clear.outside a kept
    rw [emitOutside (by omega),clear.same a kept]

def Prints (m : Nat → α) (keep : Nat → Prop) (start : Nat) (p : Printer α β) (b : β) (l : List α) : Prop :=
  ∀ stop o, Clear m keep start stop o → p stop o = some (b,emit stop l o)

def Settled (m : Nat → α) (keep : Nat → Prop) (start : Nat) (p : Printer α β) : Prop := ∃ b l, Prints m keep start p b l

theorem printsPure (b : β) : Prints m keep start (pure b) b [] := fun _ _ _ => rfl

theorem printsPut (c : α) : Prints m keep start (put c) () [c] := fun _ _ _ => rfl

theorem printsBind {b g l'} (first : Prints m keep start p b l) (later : Prints m keep start (f b) g l') :
    Prints m keep start (p >>= f) g (l ++ l') := by
  intro stop o clear
  show (p stop o).bind _ = _
  rw [first stop o clear,emitAppend]
  exact later stop _ (clear.emit l)

theorem settledPure (b : β) : Settled m keep start (pure b) := ⟨b,[],printsPure b⟩

theorem settledPut (c : α) : Settled m keep start (put c) := ⟨(),[c],printsPut c⟩

theorem printsLook {g : (Nat → α) → β} (local_ : ∀ m', (∀ a, keep a → m' a = m a) → g m' = g m) :
    Prints m keep start (look g) (g m) [] :=
  fun _ o clear => by simp [look,emitNil,local_ o.mem clear.same]

theorem settledAfter {b} (first : Prints m keep start p b l) (later : Settled m keep start (f b)) :
    Settled m keep start (p >>= f) := by
  obtain ⟨g,l',later⟩ := later
  exact ⟨g,l ++ l',printsBind first later⟩

theorem settledBind (first : Settled m keep start p) (later : ∀ b, Settled m keep start (f b)) :
    Settled m keep start (p >>= f) := by
  obtain ⟨b,_,first⟩ := first
  exact settledAfter first (later b)

theorem settledIte {c} [Decidable c] {q} (yes : c → Settled m keep start p)
    (no : ¬c → Settled m keep start q) : Settled m keep start (if c then p else q) := by
  split
  · exact yes ‹_›
  · exact no ‹_›

theorem settledPutAll (l : List α) : Settled m keep start (putAll l) := by
  induction l with
  | nil => exact settledPure ()
  | cons c l ih => exact settledBind (settledPut c) fun _ => ih

end EclairKernel.BoundedOutput
