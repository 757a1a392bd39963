import EclairKernel.FdTable
import EclairKernel.WordSearch

/-! The hint next_fd is never above a free descriptor, and what the table says of a descriptor
does not depend on its size. -/
namespace EclairKernel.FdTable
open WordSearch Function

variable {F : Type}

def Fdtable.isOpen (t : Fdtable F) (i : Nat) : Bool := decide (i < t.maxFds) && t.openFds i
def Fdtable.file (t : Fdtable F) (i : Nat) : Option F := if i < t.maxFds then t.fd i else none
def Fdtable.onExec (t : Fdtable F) (i : Nat) : Bool := decide (i < t.maxFds) && t.closeOnExec i

structure LeastFree (t : Fdtable F) (start fd : Nat) : Prop where
  low : start ≤ fd
  free : t.isOpen fd = false
  least : ∀ i, start ≤ i → i < fd → t.isOpen i = true

structure SameContents (t t' : Fdtable F) : Prop where
  isOpen : ∀ i, t'.isOpen i = t.isOpen i
  file : ∀ i, t'.file i = t.file i
  onExec : ∀ i, t'.onExec i = t.onExec i

structure Inv (Reserved : Prop) (files : Files F) : Prop where
  words : 32 ∣ files.fdt.maxFds ∧ 0 < files.fdt.maxFds
  hint : ∀ i, i < files.nextFd → files.fdt.isOpen i = true
  installed : Reserved → ∀ i, files.fdt.file i ≠ none → files.fdt.isOpen i = true

variable {t t' : Fdtable F} {files files' : Files F} {lim start nr fd i flags mem}
  {Reserved}

theorem SameContents.leastFree (same : SameContents t t') (least : LeastFree t' start fd) : LeastFree t start fd :=
  ⟨least.low,same.isOpen fd ▸ least.free,fun i low less => same.isOpen i ▸ least.least i low less⟩

theorem findNextZeroBitSpec (bits : Nat → Bool) (size offset : Nat) :
    (findNextZeroBit bits size offset < size → offset ≤ findNextZeroBit bits size offset ∧ bits (findNextZeroBit bits size offset) = false) ∧
    findNextZeroBit bits size offset ≤ size ∧
    ∀ i, offset ≤ i → i < findNextZeroBit bits size offset → bits i = true := by
  have le := firstFromLe (fun i => !bits i) size offset
  refine ⟨fun less => ?_,le,fun i low less => ?_⟩
  · obtain ⟨low,clear⟩ := firstFromFound (fun i => !bits i) size offset less
    have clear : (!bits (findNextZeroBit bits size offset)) = true := clear
    exact ⟨low,by simpa using clear⟩
  · have set := firstFromBefore (fun i => !bits i) size offset i low less (lt_of_lt_of_le less le)
    simpa using set

theorem capped (n : Nat) : ((n - 1) ||| (BITS_PER_LONG - 1)) + 1 = ((n - 1) / 32 + 1) * 32 := by
  have mask := orMask (n - 1) 5
  show ((n - 1) ||| (2^5 - 1)) + 1 = _
  omega

theorem tableWords (lim : Limits) (nr : Nat) : 32 ∣ tableSize lim nr := by
  unfold tableSize
  dsimp only
  split
  · rw [capped]
    exact dvd_mul_left ..
  · omega

theorem tableRoom (lim : Limits) {nr} (small : tableSize lim nr ≤ nr) : lim.nrOpen ≤ nr := by
  have high := lim.high
  unfold tableSize at small
  dsimp only at small
  split at small
  · rw [capped] at small
    omega
  by_contra room
  have power : nr / 256 < 2^Nat.size (nr / 256) := Nat.lt_size_self _
  have bound : Nat.size (nr / 256) ≤ 22 := Nat.size_le.mpr (by omega)
  have top : 2^Nat.size (nr / 256) ≤ 2^22 := Nat.pow_le_pow_right (by decide) bound
  rw [roundupPowOfTwo,Nat.add_sub_cancel] at small
  omega

theorem copySame {size} (words : 32 ∣ t.maxFds) (words' : 32 ∣ size) (room : t.maxFds ≤ size) (m : Memory F) :
    ∃ t', copyFdtable ⟨size,m.fd,m.openFds,m.closeOnExec⟩ t = some t' ∧ t'.maxFds = size ∧ SameContents t t' := by
  have bytes : t.maxFds / 8 * 8 = t.maxFds := by omega
  have set : (size - t.maxFds) / 8 * 8 = size - t.maxFds := by omega
  have whole : t.maxFds + (size - t.maxFds) = size := by omega
  have bits (old junk : Nat → Bool) (i : Nat) :
      (decide (i < size) && copyOver t.maxFds (size - t.maxFds) false old junk i) = (decide (i < t.maxFds) && old i) := by
    unfold copyOver
    rw [whole]
    by_cases old' : i < t.maxFds
    · simp [lt_of_lt_of_le old' room]
    · by_cases inside : i < size <;> simp [old',inside]
  refine ⟨_,if_neg (not_lt.mpr room),rfl,?_,?_,?_⟩
  · intro i
    simp only [bytes,set]
    exact bits ..
  · intro i
    simp only [Fdtable.file,copyOver,whole]
    by_cases old' : i < t.maxFds
    · simp [lt_of_lt_of_le old' room]
    · by_cases inside : i < size <;> simp [old',inside]
  · intro i
    simp only [bytes,set]
    exact bits ..

def ExpandOk (lim : Limits) (nr : Nat) (mem : Option (Memory F)) (files : Files F) : Expanded F → Prop
  | .expanded files' => SameContents files.fdt files'.fdt ∧ files'.nextFd = files.nextFd ∧ nr < files'.fdt.maxFds ∧ 32 ∣ files'.fdt.maxFds
  | .error e => e = .ENOMEM ∧ mem.isNone ∨ e = .EMFILE ∧ lim.nrOpen ≤ nr
  | .bug => False

theorem SameContents.refl (t : Fdtable F) : SameContents t t := ⟨fun _ => rfl,fun _ => rfl,fun _ => rfl⟩

theorem expandOk (words : 32 ∣ files.fdt.maxFds) (lim : Limits) (nr : Nat) (mem : Option (Memory F)) :
    ExpandOk lim nr mem files (expandFdtable nr (allocFdtable lim nr mem) files) := by
  unfold expandFdtable allocFdtable
  cases mem with
  | none => exact .inl ⟨rfl,rfl⟩
  | some m =>
    dsimp only [Option.map_some]
    split
    · rename_i small
      exact .inr ⟨rfl,tableRoom lim small⟩
    rename_i room
    split
    · obtain ⟨t',copied,size,same⟩ := copySame words (tableWords lim nr) (by omega) m
      rw [copied]
      refine ⟨same,rfl,?_,?_⟩
      · rw [size]
        exact not_le.mp room
      · rw [size]
        exact tableWords lim nr
    · rename_i enough
      exact ⟨.refl _,rfl,not_le.mp enough,words⟩

theorem claimIsOpen (inside : fd < t.maxFds) (flags : UInt32) (file : Option F) (i : Nat) :
    (t.claim fd flags file).isOpen i = (t.isOpen i || decide (i = fd)) := by
  by_cases own : i = fd
  · subst own
    simp [Fdtable.claim,Fdtable.isOpen,inside]
  · simp [Fdtable.claim,Fdtable.isOpen,own]

theorem claimFile (inside : fd < t.maxFds) (flags : UInt32) (file : Option F) (i : Nat) :
    (t.claim fd flags file).file i = if i = fd then file else t.file i := by
  by_cases own : i = fd
  · subst own
    simp [Fdtable.claim,Fdtable.file,inside]
  · simp [Fdtable.claim,Fdtable.file,own]

def AllocOk (lim : Limits) (start : Nat) (files : Files F) : Outcome × Files F → Prop
  | (.ret fd,files') => LeastFree files.fdt start fd ∧ ∀ i, files'.fdt.isOpen i = (files.fdt.isOpen i || decide (i = fd))
  | (.error e,_) => e = .EMFILE ∧ ∃ fd, LeastFree files.fdt start fd ∧ (lim.rlimCur ≤ fd ∨ lim.nrOpen ≤ fd)
  | (.unlocked nr,files') => files' = files ∧ LeastFree files.fdt start nr ∧ nr < lim.rlimCur ∧ files.fdt.maxFds ≤ nr
  | (.bug,_) => False

theorem expandFilesCases (lim : Limits) (files : Files F) (nr : Nat) :
    expandFiles lim files nr = .emfile ∧ (lim.rlimCur ≤ nr ∨ lim.nrOpen ≤ nr) ∨
    expandFiles lim files nr = .enough ∧ nr < files.fdt.maxFds ∨
    expandFiles lim files nr = .unlock ∧ nr < lim.rlimCur ∧ files.fdt.maxFds ≤ nr := by
  unfold expandFiles
  split
  · exact .inl ⟨rfl,.inl ‹_›⟩
  rename_i allowed
  split
  · exact .inr (.inl ⟨rfl,‹_›⟩)
  rename_i full
  split
  · rename_i over'
    exact .inl ⟨rfl,.inr over'.1⟩
  · exact .inr (.inr ⟨rfl,not_le.mp allowed,not_lt.mp full⟩)

def AgainOk (lim lim' : Limits) (start nr : Nat) (mem : Option (Memory F)) (files : Files F) : Outcome × Files F → Prop
  | (.ret fd,files') => LeastFree files.fdt start fd ∧ ∀ i, files'.fdt.isOpen i = (files.fdt.isOpen i || decide (i = fd))
  | (.error e,_) => e = .ENOMEM ∧ mem.isNone ∨
      e = .EMFILE ∧ (lim'.nrOpen ≤ nr ∨ ∃ fd, LeastFree files.fdt start fd ∧ (lim.rlimCur ≤ fd ∨ lim.nrOpen ≤ fd))
  | (.unlocked nr',files') => SameContents files.fdt files'.fdt ∧ LeastFree files.fdt start nr' ∧ nr' < lim.rlimCur ∧ nr < nr'
  | (.bug,_) => False

theorem LeastFree.unique {fd'} (least : LeastFree t start fd) (least' : LeastFree t start fd') : fd = fd' := by
  rcases Nat.lt_trichotomy fd fd' with less | same | less
  · exact absurd ((least'.least fd least.low less).symm.trans least.free) Bool.noConfusion
  · exact same
  · exact absurd ((least.least fd' least'.low less).symm.trans least'.free) Bool.noConfusion

def CallOk (lim : Limits) (start : Nat) (mem : Option (Memory F)) (files : Files F) : Outcome × Files F → Prop
  | (.ret fd,files') => LeastFree files.fdt start fd ∧ ∀ i, files'.fdt.isOpen i = (files.fdt.isOpen i || decide (i = fd))
  | (.error e,_) => e = .ENOMEM ∧ mem.isNone ∨ e = .EMFILE ∧ ∃ fd, LeastFree files.fdt start fd ∧ (lim.rlimCur ≤ fd ∨ lim.nrOpen ≤ fd)
  | (.unlocked _,_) => False
  | (.bug,_) => False

section
variable (inv : Inv Reserved files)
include inv

theorem Inv.search {from'} (chosen : (if start < files.nextFd then files.nextFd else start) = from') :
    LeastFree files.fdt start (if from' < files.fdt.maxFds then
      findNextZeroBit files.fdt.openFds files.fdt.maxFds from' else from') := by
  have low : start ≤ from' := by
    split at chosen <;> omega
  -- The descriptors that the hint skips are open.
  have skipped : ∀ i, start ≤ i → i < from' → files.fdt.isOpen i = true := by
    intro i above below
    split at chosen
    · exact inv.hint i (chosen ▸ below)
    · omega
  obtain ⟨clear,inside,set⟩ := findNextZeroBitSpec files.fdt.openFds files.fdt.maxFds from'
  split
  · rename_i room
    generalize findNextZeroBit files.fdt.openFds files.fdt.maxFds from' = fd at *
    refine ⟨?_,?_,fun i above below => ?_⟩
    · rcases Nat.lt_or_eq_of_le inside with less | rfl
      · exact le_trans low (clear less).1
      · exact le_trans low (le_of_lt room)
    · rcases Nat.lt_or_eq_of_le inside with less | rfl
      · rw [Fdtable.isOpen,(clear less).2,Bool.and_false]
      · simp [Fdtable.isOpen]
    · by_cases before : i < from'
      · exact skipped i above before
      · have bit := set i (not_lt.mp before) below
        rw [Fdtable.isOpen,bit,Bool.and_true]
        exact decide_eq_true (lt_of_lt_of_le below inside)
  · rename_i full
    refine ⟨low,?_,skipped⟩
    rw [Fdtable.isOpen,decide_eq_false full,Bool.false_and]

theorem Inv.expanded (same : SameContents files.fdt files'.fdt) (hint : files'.nextFd = files.nextFd)
    (words : 32 ∣ files'.fdt.maxFds ∧ 0 < files'.fdt.maxFds) : Inv Reserved files' := by
  refine ⟨words,fun i less => ?_,fun reserved i file => ?_⟩
  · rw [same.isOpen]
    exact inv.hint i (hint ▸ less)
  · rw [same.isOpen]
    exact inv.installed reserved i (same.file i ▸ file)

theorem Inv.claim (inside : fd < files.fdt.maxFds) (flags : UInt32) (file : Option F) {next}
    (hint : ∀ i, i < next → files.fdt.isOpen i = true ∨ i = fd) : Inv Reserved ⟨files.fdt.claim fd flags file,next⟩ := by
  refine ⟨inv.words,fun i less => ?_,fun reserved i there => ?_⟩
  · rw [claimIsOpen inside]
    rcases hint i less with old | own
    · rw [old,Bool.true_or]
    · rw [decide_eq_true own,Bool.or_true]
  · rw [claimIsOpen inside]
    rw [claimFile inside] at there
    by_cases own : i = fd
    · rw [decide_eq_true own,Bool.or_true]
    · rw [if_neg own] at there
      rw [inv.installed reserved i there,Bool.true_or]

theorem allocFdOk (lim : Limits) (start : Nat) (flags : UInt32) :
    AllocOk lim start files (allocFd lim start flags files) ∧ Inv Reserved (allocFd lim start flags files).2 := by
  have least := inv.search (rfl : (if start < _ then _ else _) = _)
  unfold allocFd
  dsimp only
  generalize (if _ < files.fdt.maxFds then findNextZeroBit .. else _) = fd at *
  rcases expandFilesCases lim files fd with ⟨check,limit⟩ | ⟨check,inside⟩ | ⟨check,allowed⟩
  all_goals rw [check]
  · exact ⟨⟨rfl,fd,least,limit⟩,inv⟩
  · refine ⟨⟨least,claimIsOpen inside flags none⟩,inv.claim inside flags none fun i less => ?_⟩
    split at less
    · rcases Nat.lt_or_eq_of_le (Nat.le_of_lt_succ less) with below | own
      · by_cases low : start ≤ i
        · exact .inl (least.least i low below)
        · exact .inl (inv.hint i (by omega))
      · exact .inr own
    · exact .inl (inv.hint i less)
  · exact ⟨⟨rfl,least,allowed⟩,inv⟩

theorem allocFdAgainOk (lim lim' : Limits) (start nr : Nat) (flags : UInt32) (mem : Option (Memory F)) :
    AgainOk lim lim' start nr mem files (allocFdAgain lim start flags nr (allocFdtable lim' nr mem) files) ∧
    Inv Reserved (allocFdAgain lim start flags nr (allocFdtable lim' nr mem) files).2 := by
  have expanded := expandOk inv.words.1 lim' nr mem
  unfold allocFdAgain
  cases outcome : expandFdtable nr (allocFdtable lim' nr mem) files with
  | error e =>
    rw [outcome] at expanded
    refine ⟨?_,inv⟩
    rcases expanded with ⟨rfl,none⟩ | ⟨rfl,small⟩
    · exact .inl ⟨rfl,none⟩
    · exact .inr ⟨rfl,.inl small⟩
  | bug =>
    rw [outcome] at expanded
    cases expanded
  | expanded files' =>
    rw [outcome] at expanded
    obtain ⟨same,hint,room,words⟩ := expanded
    obtain ⟨ok,inv'⟩ := allocFdOk (inv.expanded same hint ⟨words,by omega⟩) lim start flags
    refine ⟨?_,inv'⟩
    dsimp only
    generalize allocFd lim start flags files' = r at *
    obtain ⟨out,files''⟩ := r
    cases out with
    | ret fd => exact ⟨same.leastFree ok.1,fun i => by rw [ok.2,same.isOpen]⟩
    | error e =>
      obtain ⟨rfl,fd,least,limit⟩ := ok
      exact .inr ⟨rfl,.inr ⟨fd,same.leastFree least,limit⟩⟩
    | unlocked nr' =>
      obtain ⟨rfl,least,allowed,full⟩ := ok
      exact ⟨same,same.leastFree least,allowed,lt_of_lt_of_le room full⟩
    | bug => exact ok

theorem allocFdCallOk (lim : Limits) (start : Nat) (flags : UInt32) (mem : Option (Memory F)) :
    CallOk lim start mem files (allocFdCall lim start flags mem files) := by
  have first := (allocFdOk inv lim start flags).1
  unfold allocFdCall
  generalize allocFd lim start flags files = r at first
  obtain ⟨out,files'⟩ := r
  cases out with
  | ret fd => exact first
  | error e => exact .inr first
  | bug => exact first
  | unlocked nr =>
    obtain ⟨rfl,least,_,_⟩ := first
    have again := (allocFdAgainOk inv lim lim start nr flags mem).1
    dsimp only
    generalize allocFdAgain lim start flags nr (allocFdtable lim nr mem) files' = r' at again
    obtain ⟨out,files''⟩ := r'
    cases out with
    | ret fd => exact again
    | error e =>
      rcases again with none | ⟨rfl,small | limit⟩
      · exact .inl none
      · exact .inr ⟨rfl,nr,least,.inr small⟩
      · exact .inr ⟨rfl,limit⟩
    | bug => exact again
    | unlocked nr' =>
      obtain ⟨_,least',_,above⟩ := again
      exact ne_of_lt above (least.unique least')

theorem Inv.putUnused (fd : Nat) (unused : Reserved → files.fdt.file fd = none) :
    Inv Reserved (putUnusedFd fd files) := by
  have kept (i : Nat) (other : i ≠ fd) : (putUnusedFd fd files).fdt.isOpen i = files.fdt.isOpen i := by
    show (decide (i < files.fdt.maxFds) && update files.fdt.openFds fd false i) = _
    rw [update_of_ne other]
    rfl
  refine ⟨inv.words,fun i less => ?_,fun reserved i file => ?_⟩
  · have below : i < fd ∧ i < files.nextFd ∨ i < files.nextFd ∧ ¬fd < files.nextFd := by
      simp only [putUnusedFd] at less
      split at less <;> omega
    rw [kept i (by omega)]
    exact inv.hint i (by omega)
  · have other : i ≠ fd := by
      rintro rfl
      exact file (unused reserved)
    rw [kept i other]
    exact inv.installed reserved i file

theorem Inv.install {file} (used : files.fdt.isOpen fd = true) (done : fdInstall fd file files = some files') :
    Inv Reserved files' := by
  unfold fdInstall at done
  split at done <;> try contradiction
  cases done
  refine ⟨inv.words,inv.hint,fun reserved i there => ?_⟩
  by_cases own : i = fd
  · subst own
    exact used
  · refine inv.installed reserved i ?_
    simpa [Fdtable.file,own] using there

theorem Inv.close (fd : Nat) : Inv Reserved (close fd files).2 := by
  unfold FdTable.close
  split
  · exact inv
  split
  · exact inv
  have dropped : Inv Reserved { files with fdt := { files.fdt with
      fd := update files.fdt.fd fd none, closeOnExec := update files.fdt.closeOnExec fd false } } := by
    refine ⟨inv.words,inv.hint,fun reserved i file => inv.installed reserved i fun none => file ?_⟩
    by_cases own : i = fd
    · subst own
      simp [Fdtable.file]
    · simpa [Fdtable.file,own] using none
  exact dropped.putUnused fd fun _ => by simp [Fdtable.file]

theorem Inv.dup3Install (oldfd : Nat) {newfd} (flags : UInt32) (room : newfd < files.fdt.maxFds) :
    Inv Reserved (dup3Install oldfd newfd flags files).2 := by
  unfold FdTable.dup3Install
  split
  · exact inv
  split
  · exact inv
  · exact inv.claim room flags _ fun i less => .inl (inv.hint i less)

theorem Inv.dup3 (lim : Limits) (oldfd newfd : Nat) (flags : UInt32) :
    Inv Reserved (dup3 lim oldfd newfd flags files).2 := by
  unfold FdTable.dup3
  split
  · exact inv
  split
  · exact inv
  rcases expandFilesCases lim files newfd with ⟨check,_⟩ | ⟨check,inside⟩ | ⟨check,_⟩
  all_goals rw [check]
  · exact inv
  · exact inv.dup3Install oldfd flags inside
  · exact inv

theorem Inv.dup3Again (lim : Limits) (oldfd newfd : Nat) (flags : UInt32) (mem : Option (Memory F)) :
    Inv Reserved (dup3Again oldfd newfd flags (allocFdtable lim newfd mem) files).2 := by
  have expanded := expandOk inv.words.1 lim newfd mem
  unfold FdTable.dup3Again
  cases outcome : expandFdtable newfd (allocFdtable lim newfd mem) files with
  | error | bug => exact inv
  | expanded files' =>
    rw [outcome] at expanded
    obtain ⟨same,hint,room,words⟩ := expanded
    exact (inv.expanded same hint ⟨words,by omega⟩).dup3Install oldfd flags room

end

/-! dup_fd, and the descriptor tables that calls and forks lead to. -/

open List Bool Option

section
variable {newf}

theorem lastWordAbove (bits : Nat → Bool) (n i : Nat) (above : (lastWord bits n + 1) * 32 ≤ i) (inside : i < 32 * n) : bits i = false := by
  induction n with
  | zero => omega
  | succ n ih =>
    unfold lastWord at above
    split at above
    · omega
    rename_i clear
    by_cases earlier : i < 32 * n
    · exact ih above earlier
    · have bit := any_eq_false.mp (eq_false_iff.mpr clear) (i - 32 * n) (mem_range.mpr (by omega))
      rw [show 32 * n + (i - 32 * n) = i by omega] at bit
      exact eq_false_iff.mpr bit

theorem lastWordLess (bits : Nat → Bool) {n} (some : 0 < n) : lastWord bits n < n := by
  induction n with
  | zero => omega
  | succ n ih =>
    unfold lastWord
    split
    · exact Nat.lt_succ_self n
    · rcases Nat.eq_zero_or_pos n with rfl | some
      · exact Nat.zero_lt_one
      · exact Nat.lt_succ_of_lt (ih some)

theorem openFilesLe (words : 32 ∣ t.maxFds ∧ 0 < t.maxFds) : countOpenFiles t ≤ t.maxFds := by
  have last := lastWordLess t.openFds (show 0 < t.maxFds / 32 by omega)
  unfold countOpenFiles
  omega

theorem openFilesWords (t : Fdtable F) : 32 ∣ countOpenFiles t := dvd_mul_left ..

theorem openFilesAbove (words : 32 ∣ t.maxFds ∧ 0 < t.maxFds) (above : countOpenFiles t ≤ i) : t.isOpen i = false := by
  by_cases inside : i < t.maxFds
  · rw [Fdtable.isOpen,lastWordAbove t.openFds (t.maxFds / 32) i above (by omega),Bool.and_false]
  · rw [Fdtable.isOpen,decide_eq_false inside,Bool.false_and]

variable {openFiles} {new : Fdtable F}

theorem copyFilesSpec (old : Fdtable F) {n} (within : n ≤ openFiles) (new : Fdtable F) :
    (copyFiles old openFiles n new).maxFds = new.maxFds ∧
    (∀ k, (copyFiles old openFiles n new).fd k = if openFiles - n ≤ k ∧ k < openFiles then old.fd k else new.fd k) ∧
    ∀ k, (copyFiles old openFiles n new).openFds k =
      if openFiles - n ≤ k ∧ k < openFiles then (old.fd k).isSome && new.openFds k else new.openFds k := by
  induction n generalizing new with
  | zero => exact ⟨rfl,fun k => by rw [if_neg (by omega)]; rfl,fun k => by rw [if_neg (by omega)]; rfl⟩
  | succ n ih =>
    have now : ∀ k, (openFiles - (n + 1) ≤ k ∧ k < openFiles) ↔ (k = openFiles - (n + 1) ∨ openFiles - n ≤ k ∧ k < openFiles) := by omega
    obtain ⟨size,files,bits⟩ := ih (by omega) _
    refine ⟨size,fun k => (files k).trans ?_,fun k => (bits k).trans ?_⟩
    · by_cases own : k = openFiles - (n + 1)
      · rw [if_pos ((now k).mpr (.inl own)),if_neg (by omega),own]
        exact update_self ..
      · have kept : update new.fd (openFiles - (n + 1)) (old.fd (openFiles - (n + 1))) k = new.fd k := update_of_ne own ..
        dsimp only
        rw [kept]
        exact ite_congr (propext ((now k).trans (or_iff_right own)).symm) (fun _ => rfl) fun _ => rfl
    · by_cases own : k = openFiles - (n + 1)
      · rw [if_pos ((now k).mpr (.inl own)),own]
        cases there : old.fd (openFiles - (n + 1)) <;> simp
      · have bit : (if old.fd (openFiles - (n + 1)) = none then update new.openFds (openFiles - (n + 1)) false
            else new.openFds) k = new.openFds k := by
          split
          · exact update_of_ne own ..
          · rfl
        dsimp only
        rw [bit]
        exact ite_congr (propext ((now k).trans (or_iff_right own)).symm) (fun _ => rfl) fun _ => rfl

theorem copiedMaxFds (old new : Fdtable F) (openFiles : Nat) :
    (copyFiles old openFiles openFiles (copyBits old new openFiles)).maxFds = new.maxFds :=
  (copyFilesSpec old le_rfl (copyBits old new openFiles)).1

theorem dupCopyMaxFds (old new : Fdtable F) (openFiles : Nat) : (dupCopy old new openFiles).maxFds = new.maxFds := by
  unfold dupCopy
  dsimp only
  split <;> exact copiedMaxFds old new openFiles

theorem dupCopyFd (old : Fdtable F) (room : openFiles ≤ new.maxFds) (inside : i < new.maxFds) :
    (dupCopy old new openFiles).fd i = if i < openFiles then old.fd i else none := by
  have files := (copyFilesSpec old (le_refl openFiles) (copyBits old new openFiles)).2.1 i
  have copied : copyOver openFiles (new.maxFds - openFiles) none (copyFiles old openFiles openFiles (copyBits old new openFiles)).fd
      (copyFiles old openFiles openFiles (copyBits old new openFiles)).fd i = if i < openFiles then old.fd i else none := by
    unfold copyOver
    by_cases copied : i < openFiles
    · rw [if_pos copied,if_pos copied,files,if_pos (by omega)]
    · rw [if_neg copied,if_neg copied,if_pos (by omega)]
  unfold dupCopy
  dsimp only
  rw [copiedMaxFds]
  split <;> exact copied

theorem dupCopyOpenFds (old : Fdtable F) (words : 32 ∣ openFiles) (words' : 32 ∣ new.maxFds)
    (room : openFiles ≤ new.maxFds) (inside : i < new.maxFds) :
    (dupCopy old new openFiles).openFds i = (decide (i < openFiles) && (old.fd i).isSome && old.openFds i) := by
  have bits := (copyFilesSpec old (le_refl openFiles) (copyBits old new openFiles)).2.2 i
  have copied (low : i < openFiles) : (copyFiles old openFiles openFiles (copyBits old new openFiles)).openFds i =
      (decide (i < openFiles) && (old.fd i).isSome && old.openFds i) := by
    rw [bits,if_pos (by omega),decide_eq_true low,Bool.true_and]
    have bit : (copyBits old new openFiles).openFds i = old.openFds i := if_pos (by omega)
    rw [bit]
  unfold dupCopy
  dsimp only
  rw [copiedMaxFds]
  split
  · by_cases low : i < openFiles
    · exact (if_neg (by omega)).trans (copied low)
    · rw [decide_eq_false low]
      exact if_pos (by omega)
  · exact copied (by omega)

structure Child (old new : Fdtable F) : Prop where
  file : ∀ i, new.file i = old.file i
  isOpen : ∀ i, new.isOpen i = (old.file i).isSome

theorem dupCopyChild {oldf} (inv : Inv True oldf) (words : 32 ∣ new.maxFds)
    (room : countOpenFiles oldf.fdt ≤ new.maxFds) : Child oldf.fdt (dupCopy oldf.fdt new (countOpenFiles oldf.fdt)) := by
  have within := openFilesLe inv.words
  have above : ∀ i, countOpenFiles oldf.fdt ≤ i → oldf.fdt.file i = none := by
    intro i high
    by_contra there
    have set := inv.installed trivial i there
    rw [openFilesAbove inv.words high] at set
    exact false_ne_true set
  have files : ∀ i, (dupCopy oldf.fdt new (countOpenFiles oldf.fdt)).file i = oldf.fdt.file i := by
    intro i
    unfold Fdtable.file
    rw [dupCopyMaxFds]
    by_cases low : i < countOpenFiles oldf.fdt
    · rw [if_pos (by omega),if_pos (by omega),dupCopyFd oldf.fdt room (by omega),if_pos low]
    have empty := above i (not_lt.mp low)
    unfold Fdtable.file at empty
    rw [empty]
    by_cases inside : i < new.maxFds
    · rw [if_pos inside,dupCopyFd oldf.fdt room inside,if_neg low]
    · exact if_neg inside
  refine ⟨files,fun i => ?_⟩
  unfold Fdtable.isOpen
  rw [dupCopyMaxFds]
  by_cases low : i < countOpenFiles oldf.fdt
  · have set := inv.installed trivial i
    rw [dupCopyOpenFds oldf.fdt (openFilesWords _) words room (by omega)]
    unfold Fdtable.isOpen at set
    unfold Fdtable.file at set ⊢
    rw [if_pos (by omega)] at set ⊢
    cases there : oldf.fdt.fd i with
    | none => simp
    | some f =>
      have bit := set (by simp [there])
      simp only [and_eq_true] at bit
      simp [low,bit.2,show i < new.maxFds by omega]
  · rw [above i (not_lt.mp low)]
    by_cases inside : i < new.maxFds
    · rw [dupCopyOpenFds oldf.fdt (openFilesWords _) words room inside]
      simp [low]
    · simp [inside]

theorem dupFdOk {past r} (words : 32 ∣ new.maxFds ∧ 0 < new.maxFds)
    (waited : dupFd past new = .waiting) (done : dupFd (past ++ [r]) new = .files newf) :
    ∃ new' : Fdtable F, (32 ∣ new'.maxFds ∧ 0 < new'.maxFds) ∧ countOpenFiles r.oldf.fdt ≤ new'.maxFds ∧
      newf = ⟨dupCopy r.oldf.fdt new' (countOpenFiles r.oldf.fdt),0⟩ := by
  induction past generalizing new with
  | nil =>
    simp only [nil_append,dupFd] at done
    split at done
    · split at done
      · cases done
      · split at done <;> cases done
    · rename_i room
      cases done
      exact ⟨new,words,not_lt.mp room,rfl⟩
  | cons r' past ih =>
    simp only [cons_append,dupFd] at waited done
    split at waited
    · rename_i small
      rw [if_pos small] at done
      cases table : allocFdtable r'.lim (countOpenFiles r'.oldf.fdt - 1) r'.mem with
      | none =>
        rw [table] at waited
        cases waited
      | some new' =>
        simp only [table] at waited done
        split at waited
        · cases waited
        rename_i room
        rw [if_neg room] at done
        refine ih ⟨?_,?_⟩ waited done
        · cases asked : r'.mem with
          | none => simp [allocFdtable,asked] at table
          | some m =>
            simp only [allocFdtable,asked,map_some,some.injEq] at table
            rw [← table]
            exact tableWords ..
        · omega
    · cases waited

theorem Inv.child (inv : Inv Reserved files) (words : 32 ∣ new.maxFds ∧ 0 < new.maxFds)
    (room : countOpenFiles files.fdt ≤ new.maxFds) : Inv Reserved ⟨dupCopy files.fdt new (countOpenFiles files.fdt),0⟩ := by
  refine ⟨?_,fun i less => absurd less (Nat.not_lt_zero i),fun reserved i file => ?_⟩
  · rw [dupCopyMaxFds]
    exact words
  · have child := dupCopyChild ⟨inv.words,inv.hint,fun _ => inv.installed reserved⟩ words.1 room
    rw [child.isOpen,← child.file]
    exact isSome_iff_ne_none.mpr file

inductive Reached (Puts : Files F → Nat → Prop) : Files F → Prop where
  | init : Reached Puts initFiles
  | fork {files newf : Files F} {past lim mem} (m : Memory F) (parent : Reached Puts files) (waited : dupFd past (embedded m) = .waiting)
      (done : dupFd (past ++ [⟨files,lim,mem⟩]) (embedded m) = .files newf) : Reached Puts newf
  | alloc {files : Files F} (lim start flags) (before : Reached Puts files) : Reached Puts (allocFd lim start flags files).2
  | allocAgain {files : Files F} (lim lim' start flags nr mem) (before : Reached Puts files) :
      Reached Puts (allocFdAgain lim start flags nr (allocFdtable lim' nr mem) files).2
  | putUnused {files : Files F} {fd} (inside : fd < files.fdt.maxFds) (put : Puts files fd) (before : Reached Puts files) :
      Reached Puts (putUnusedFd fd files)
  | install {files files' : Files F} {fd} {file : F} (used : files.fdt.isOpen fd = true) (done : fdInstall fd file files = some files')
      (before : Reached Puts files) : Reached Puts files'
  | close {files : Files F} (fd) (before : Reached Puts files) : Reached Puts (close fd files).2
  | dup3 {files : Files F} (lim oldfd newfd flags) (before : Reached Puts files) : Reached Puts (dup3 lim oldfd newfd flags files).2
  | dup3Again {files : Files F} (lim oldfd newfd flags mem) (before : Reached Puts files) :
      Reached Puts (dup3Again oldfd newfd flags (allocFdtable lim newfd mem) files).2

variable {Puts}

theorem defaultWords : 32 ∣ NR_OPEN_DEFAULT ∧ 0 < NR_OPEN_DEFAULT := by decide

def OnlyReserved (Puts : Files F → Nat → Prop) : Prop := ∀ files fd, Puts files fd → files.fdt.file fd = none

theorem Reached.inv (reached : Reached Puts files) : Inv (OnlyReserved Puts) files := by
  induction reached with
  | init => exact ⟨defaultWords,fun i less => absurd less (Nat.not_lt_zero i),fun _ i file => absurd (ite_self none) file⟩
  | fork m parent waited done inv =>
    obtain ⟨new,words,room,rfl⟩ := dupFdOk defaultWords waited done
    exact inv.child words room
  | alloc lim start flags before inv => exact (allocFdOk inv lim start flags).2
  | allocAgain lim lim' start flags nr mem before inv => exact (allocFdAgainOk inv lim lim' start nr flags mem).2
  | putUnused inside put before inv => exact inv.putUnused _ fun reserved => reserved _ _ put
  | install used done before inv => exact inv.install used done
  | close fd before inv => exact inv.close fd
  | dup3 lim oldfd newfd flags before inv => exact inv.dup3 lim oldfd newfd flags
  | dup3Again lim oldfd newfd flags mem before inv => exact inv.dup3Again lim oldfd newfd flags mem

theorem forkChild (reached : Reached Puts files) (reserved : OnlyReserved Puts) {past lim}
    {mem} {m} (waited : dupFd past (embedded m) = .waiting)
    (done : dupFd (past ++ [⟨files,lim,mem⟩]) (embedded m) = .files newf) : Child files.fdt newf.fdt := by
  have inv := reached.inv
  obtain ⟨new,words,room,rfl⟩ := dupFdOk defaultWords waited done
  exact dupCopyChild ⟨inv.words,inv.hint,fun _ => inv.installed reserved⟩ words.1 room

theorem lowestDescriptor (reached : Reached Puts files) :
    (∀ lim start flags, AllocOk lim start files (allocFd lim start flags files)) ∧
    (∀ lim lim' start nr flags mem,
      AgainOk lim lim' start nr mem files (allocFdAgain lim start flags nr (allocFdtable lim' nr mem) files)) ∧
    (∀ lim start flags mem, CallOk lim start mem files (allocFdCall lim start flags mem files)) ∧
    (∀ lim nr mem, ExpandOk lim nr mem files (expandFdtable nr (allocFdtable lim nr mem) files)) ∧
    (OnlyReserved Puts → ∀ past lim mem m newf, dupFd past (embedded m) = .waiting →
      dupFd (past ++ [⟨files,lim,mem⟩]) (embedded m) = .files newf → Child files.fdt newf.fdt) := by
  have inv := reached.inv
  refine ⟨fun lim start flags => (allocFdOk inv lim start flags).1,
    fun lim lim' start nr flags mem => (allocFdAgainOk inv lim lim' start nr flags mem).1,
    (allocFdCallOk inv),
    (expandOk inv.words.1),
    fun reserved past lim mem m newf waited done => forkChild reached reserved waited done⟩

end

def standardLimits : Limits := ⟨1024,0x100000,by decide,by decide⟩
def zeroed : Memory Unit := ⟨fun _ => none,fun _ => false,fun _ => false⟩

def reservedOne : Files Unit :=
  let one := (allocFd standardLimits 0 0 initFiles).2
  (allocFd standardLimits 0 0 ((fdInstall 0 () one).getD one)).2

theorem reservedOneReached : Reached (fun _ _ => False) reservedOne := by
  have first : Reached (fun _ _ => False) (allocFd standardLimits 0 0 (initFiles (F := Unit))).2 := .alloc _ _ _ .init
  have used : (allocFd standardLimits 0 0 (initFiles (F := Unit))).2.fdt.isOpen 0 = true := by decide
  exact .alloc standardLimits 0 0 (.install used rfl first)

def forked : Files Unit := ⟨dupCopy reservedOne.fdt (embedded zeroed) 32,0⟩

theorem reservedLowest : Child reservedOne.fdt forked.fdt ∧ forked.fdt.isOpen 0 = true ∧ forked.fdt.isOpen 1 = false ∧
    CallOk standardLimits 0 none reservedOne (allocFdCall standardLimits 0 0 none reservedOne) ∧
    (allocFdCall standardLimits 0 0 none reservedOne).1 = .ret 2 ∧
    (allocFdCall standardLimits 40 0 none reservedOne).1 = .error .ENOMEM ∧
    (allocFdCall standardLimits 40 0 (some zeroed) reservedOne).1 = .ret 40 ∧
    (allocFdCall standardLimits 1024 0 (some zeroed) reservedOne).1 = .error .EMFILE := by
  obtain ⟨_,_,call,_,fork⟩ := lowestDescriptor reservedOneReached
  have child := fork (fun _ _ put => put.elim) [] standardLimits none zeroed forked rfl rfl
  refine ⟨child,?_,?_,call standardLimits 0 0 none,?_,?_,?_,?_⟩ <;> decide +kernel

/-- dup3(0,40), then put_unused_fd(40) although descriptor 40 has its file. -/
def releasedForty : Files Unit :=
  let one := (allocFd standardLimits 0 0 initFiles).2
  putUnusedFd 40 (dup3Again 0 40 0 (allocFdtable standardLimits 40 (some zeroed)) ((fdInstall 0 () one).getD one)).2

def forkedForty : Files Unit := ⟨dupCopy releasedForty.fdt (embedded zeroed) 32,0⟩

theorem fortyLost : Reached (fun _ _ => True) releasedForty ∧ releasedForty.fdt.file 40 = some () ∧
    dupFd [⟨releasedForty,standardLimits,none⟩] (embedded zeroed) = .files forkedForty ∧ forkedForty.fdt.file 40 = none ∧
    ¬Child releasedForty.fdt forkedForty.fdt := by
  have first : Reached (fun _ _ => True) (allocFd standardLimits 0 0 (initFiles (F := Unit))).2 := .alloc _ _ _ .init
  have used : (allocFd standardLimits 0 0 (initFiles (F := Unit))).2.fdt.isOpen 0 = true := by decide
  have kept : releasedForty.fdt.file 40 = some () := by decide +kernel
  have lost : forkedForty.fdt.file 40 = none := by decide +kernel
  refine ⟨.putUnused (by decide +kernel) trivial (.dup3Again _ _ _ _ _ (.install used rfl first)),kept,rfl,lost,fun child => ?_⟩
  have same := child.file 40
  rw [kept,lost] at same
  cases same

end EclairKernel.FdTable
