import EclairKernel.Buddy
import EclairKernel.Run
import Mathlib.Data.Nat.ModEq
import Mathlib.Logic.Function.Basic
import Mathlib.Tactic.Simps.Basic

/-! mm/page_alloc.c: the free lists of a zone, from __free_one_page to __rmqueue. Pages are
named by their frame number. No page is compound, and a page of the span that belongs to
another zone counts as a hole. -/
namespace EclairKernel.PageAlloc
open Function
open Buddy (Block)

def MAX_ORDER : Nat := 11
def pageblockOrder : Nat := MAX_ORDER - 1

inductive MigrateType where
  | unmovable
  | reclaimable
  | movable
  | reserve
  | isolate
  deriving DecidableEq, Repr

structure Page where
  buddy : Bool
  order : Nat
  deriving DecidableEq, Repr

structure Zone where
  startPfn : Nat
  spanned : Nat
  hole : Nat → Bool
  mobilityDisabled : Bool
  page : Nat → Page
  freeList : Nat → MigrateType → List Nat
  nrFree : Nat → Int
  nrFreePages : Int
  blockType : Nat → MigrateType

@[simps] def setPageOrder (z : Zone) (p o : Nat) : Zone := {z with page := update z.page p ⟨true,o⟩}
@[simps] def rmvPageOrder (z : Zone) (p : Nat) : Zone := {z with page := update z.page p ⟨false,0⟩}
@[simps] def listDel (z : Zone) (p : Nat) : Zone := {z with freeList := fun o t => (z.freeList o t).erase p}
@[simps] def listAdd (z : Zone) (p o : Nat) (t : MigrateType) : Zone :=
  {z with freeList := update z.freeList o (update (z.freeList o) t (p::z.freeList o t))}
@[simps] def modNrFree (z : Zone) (o : Nat) (n : Int) : Zone := {z with nrFree := update z.nrFree o (z.nrFree o + n)}
@[simps] def modZonePageState (z : Zone) (n : Int) : Zone := {z with nrFreePages := z.nrFreePages + n}

def pfnToBitidx (z : Zone) (p : Nat) : Nat := (p - z.startPfn) >>> pageblockOrder

@[simps] def setPageblockMigratetype (z : Zone) (p : Nat) (t : MigrateType) : Zone :=
  {z with blockType := update z.blockType (pfnToBitidx z p) t}

def getPageblockMigratetype (z : Zone) (p : Nat) : MigrateType :=
  if z.mobilityDisabled then .unmovable else z.blockType (pfnToBitidx z p)

def inSpan (z : Zone) (p : Nat) : Bool := decide (z.startPfn ≤ p) && decide (p < z.startPfn + z.spanned)

def pageFindBuddy (page pageIdx order : Nat) : Nat := page + (pageIdx ^^^ 2^order) - pageIdx
def findCombinedIndex (pageIdx order : Nat) : Nat := pageIdx &&& (2^32 - (2^order + 1))

def pageIsBuddy (z : Zone) (buddy order : Nat) : Bool :=
  if z.hole buddy then false
  else if !inSpan z buddy then false
  else (z.page buddy).buddy && decide ((z.page buddy).order = order)

def enlist (z : Zone) (p o : Nat) (t : MigrateType) : Zone := modNrFree (listAdd (setPageOrder z p o) p o t) o 1

def mergeLoop (z : Zone) (page pageIdx order : Nat) : Nat → Zone × Nat × Nat
  | 0 => (z,page,order)
  | n+1 =>
    let buddy := pageFindBuddy page pageIdx order
    if pageIsBuddy z buddy order then
      let combinedIdx := findCombinedIndex pageIdx order
      mergeLoop (rmvPageOrder (modNrFree (listDel z buddy) order (-1)) buddy) (page + combinedIdx - pageIdx) combinedIdx (order + 1) n
    else (z,page,order)

def freeOnePage (z : Zone) (page order : Nat) : Zone :=
  let migratetype := getPageblockMigratetype z page
  let pageIdx := page &&& (2^MAX_ORDER - 1)
  let out := mergeLoop (modZonePageState z (2^order)) page pageIdx order (MAX_ORDER - 1 - order)
  enlist out.1 out.2.1 out.2.2 migratetype

def expand (z : Zone) (page low : Nat) (t : MigrateType) : Nat → Zone
  | 0 => z
  | n+1 => expand (enlist z (page + 2^(low + n)) (low + n) t) page low t n

def rmqueueSmallest (z : Zone) (order : Nat) (t : MigrateType) : Option (Nat × Zone) :=
  (List.range' order (MAX_ORDER - order)).findSome? fun currentOrder =>
    match z.freeList currentOrder t with
    | [] => none
    | page::_ =>
      let z := modNrFree (rmvPageOrder (listDel z page) page) currentOrder (-1)
      let z := modZonePageState z (-2^order)
      some (page,expand z page order t (currentOrder - order))

def fallbacks : MigrateType → List MigrateType
  | .unmovable => [.reclaimable,.movable,.reserve,.unmovable]
  | .reclaimable => [.unmovable,.movable,.reserve,.unmovable]
  | .movable => [.reclaimable,.unmovable,.reserve,.unmovable]
  | .reserve => [.reserve,.reserve,.reserve,.unmovable]
  | .isolate => [.unmovable,.unmovable,.unmovable,.unmovable]

/-- The loop of move_freepages and the number of pages it moves; the number of pages left
bounds its rounds. -/
def moveLoop (z : Zone) (page last : Nat) (t : MigrateType) (moved : Nat) : Nat → Zone × Nat
  | 0 => (z,moved)
  | n+1 =>
    if last < page then (z,moved)
    else if z.hole page then moveLoop z (page + 1) last t moved n
    else if !(z.page page).buddy then moveLoop z (page + 1) last t moved n
    else
      let order := (z.page page).order
      moveLoop (listAdd (listDel z page) page order t) (page + 2^order) last t (moved + 2^order) n

def moveFreepages (z : Zone) (first last : Nat) (t : MigrateType) : Zone × Nat :=
  moveLoop z first last t 0 (last + 1 - first)

def moveFreepagesBlock (z : Zone) (page : Nat) (t : MigrateType) : Zone × Nat :=
  let startPfn := page >>> pageblockOrder <<< pageblockOrder
  let endPfn := startPfn + 2^pageblockOrder - 1
  let first := if startPfn < z.startPfn then page else startPfn
  if endPfn ≥ z.startPfn + z.spanned then (z,0) else moveFreepages z first endPfn t

def fallbackPage (z : Zone) (order currentOrder page : Nat) (startMigratetype t : MigrateType) : Nat × Zone :=
  let z := modNrFree z currentOrder (-1)
  let claim := decide (currentOrder ≥ pageblockOrder >>> 1) || decide (startMigratetype = .reclaimable)
  let out := moveFreepagesBlock z page startMigratetype
  let z :=
    if claim then
      if out.2 ≥ 2^(pageblockOrder - 1) then setPageblockMigratetype out.1 page startMigratetype else out.1
    else z
  let t := if claim then startMigratetype else t
  let z := modZonePageState (rmvPageOrder (listDel z page) page) (-2^order)
  let z := if currentOrder = pageblockOrder then setPageblockMigratetype z page startMigratetype else z
  (page,expand z page order t (currentOrder - order))

def rmqueueFallback (z : Zone) (order : Nat) (startMigratetype : MigrateType) : Option (Nat × Zone) :=
  let found := (List.range' order (MAX_ORDER - order)).reverse.findSome? fun currentOrder =>
    (fallbacks startMigratetype).findSome? fun t =>
      if t = .reserve then none
      else match z.freeList currentOrder t with
        | [] => none
        | page::_ => some (fallbackPage z order currentOrder page startMigratetype t)
  match found with
  | some out => some out
  | none => rmqueueSmallest z order .reserve

def rmqueue (z : Zone) (order : Nat) (t : MigrateType) : Option (Nat × Zone) :=
  match rmqueueSmallest z order t with
  | some out => some out
  | none => rmqueueFallback z order t

structure Memory where
  zone : Zone
  used : List Block

inductive MemOp where
  | free (b : Block)
  | rmqueue (order : Nat) (t : MigrateType)
  deriving DecidableEq, Repr

def memStep (s : Memory) : MemOp → Memory
  | .free b => if b ∈ s.used then ⟨freeOnePage s.zone b.head b.order,s.used.erase b⟩ else s
  | .rmqueue order t =>
    match rmqueue s.zone order t with
    | some (page,zone) => ⟨zone,⟨page,order⟩::s.used⟩
    | none => s

end EclairKernel.PageAlloc
