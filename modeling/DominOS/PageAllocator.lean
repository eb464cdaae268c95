import DominOS.BlockTiling
import Mathlib.Data.Nat.Log
import Mathlib.Logic.Function.Basic

/-! The buddy allocator of page_allocator.c, over the physical memory that its
free blocks are cut out of: the first word of a free block links to the next. -/
namespace DominOS.PageAllocator

def firstAddress : Nat := 0x4000000
def secondAddress : Nat := 0x8000000
def thirdAddress : Nat := 0xc000000
def nbPagesAlloc : Nat := 0x4000
def mapSize : Nat := 15
def shift : Nat := 12

/-- What can stop a call: a failed assertion, a panic, an access to the unmapped
page 0, an index beyond `struct free_area`, or a free list without end. -/
inductive Fault where
  | assertion | panic | pageFault | outOfBounds | diverges
deriving DecidableEq

/-- `struct free_area` and the memory under it. `map[mapSize]` is the word after
the array, which is the field `nb_alloc`. -/
structure FreeArea where
  map : Nat → Nat
  mem : Nat → Nat
  -- not in the source: some access to `map` was outside `0..mapSize-1`
  outside : Bool

namespace FreeArea

def nbAlloc (s : FreeArea) : Nat := s.map mapSize

def setMap (s : FreeArea) (i v : Nat) : FreeArea := { s with map := Function.update s.map i v }

def touch (s : FreeArea) (i : Nat) : FreeArea :=
  { s with outside := s.outside || decide (mapSize ≤ i) }

def load (s : FreeArea) (a : Nat) : Except Fault Nat :=
  if a < 0x1000 then .error .pageFault else .ok (s.mem a)

def store (s : FreeArea) (a v : Nat) : Except Fault FreeArea :=
  if a < 0x1000 then .error .pageFault else .ok { s with mem := Function.update s.mem a v }

end FreeArea

def initAlloc (s : FreeArea) : Except Fault FreeArea :=
  if s.nbAlloc = 0 then do
    let s ← (s.setMap (mapSize - 1) firstAddress).store firstAddress 0
    .ok (s.setMap mapSize (s.nbAlloc + 1))
  else .ok s

def allocBlock (s : FreeArea) : Except Fault FreeArea :=
  if s.nbAlloc = 1 then do
    let s ← (s.setMap (mapSize - 1) secondAddress).store secondAddress 0
    .ok (s.setMap mapSize (s.nbAlloc + 1))
  else if s.nbAlloc = 2 then do
    let s ← (s.setMap (mapSize - 1) thirdAddress).store thirdAddress 0
    .ok (s.setMap mapSize (s.nbAlloc + 1))
  else .error .panic

/-- The loop of `puiss2`; an `unsigned long` is shifted out after 32 turns. -/
def puiss2Loop : Nat → Nat → Nat → Nat × Nat
  | 0, size, p => (size, p)
  | turns + 1, size, p => if size = 0 then (size, p) else puiss2Loop turns (size >>> 1) (p + 1)

def puiss2 (size : Nat) : Nat :=
  let (size, p) := puiss2Loop 32 (size - 1) 0
  if size > 1 <<< p then p + 1 else p

/-- `scan_index` moves up until `map` has a block there. -/
def scan : Nat → Nat → FreeArea → Except Fault (Nat × FreeArea)
  | 0, _, _ => .error .outOfBounds
  | turns + 1, i, s =>
    let s := s.touch i
    if s.map i ≠ 0 then .ok (i, s)
    else if i + 1 = mapSize - 1 ∧ s.map (i + 1) = 0 then do
      let s ← allocBlock s
      let s ← s.store (s.map (i + 1)) 0
      scan turns (i + 1) s
    else scan turns (i + 1) s

def splitDown (index : Nat) : Nat → FreeArea → Except Fault FreeArea
  | 0, s => .ok s
  | i + 1, s =>
    if i + 1 = index then .ok s
    else do
      let curr := s.map (i + 1)
      let s := s.setMap (i + 1) (← s.load curr)
      let s := s.setMap i curr
      let buddy := curr ^^^ 1 <<< (i + shift)
      let s ← s.store (s.map i) buddy
      let s ← s.store buddy 0
      splitDown index i s

def allocPhysicalPage (nbPages : Nat) (s : FreeArea) : Except Fault (Nat × FreeArea) := do
  let s ← initAlloc s
  if nbPages = 0 ∨ nbPagesAlloc ≤ nbPages then .error .assertion
  else
    let index := puiss2 (nbPages <<< shift) - shift
    let (i, s) ← scan (mapSize + 1) index s
    let s ← splitDown index i s
    let ptr := s.map index
    let next ← s.load ptr
    .ok (ptr, s.setMap index next)

/-- The two ways `free_physical_page` takes `curr` out of the list of level `index`:
behind `previous`, or at the head of the list. -/
def unlink (s : FreeArea) (index previous curr : Nat) : Except Fault FreeArea := do
  let next ← s.load curr
  if previous ≠ 0 then s.store previous next else .ok (s.setMap index next)

/-- The loop of `free_physical_page`: `scan` walks the list of level `index`, and
each buddy found there is unlinked and merged into `page`. -/
def mergeLoop : Nat → Nat → Nat → Nat → Nat → FreeArea → Except Fault (Nat × Nat × FreeArea)
  | 0, _, _, _, _, _ => .error .diverges
  | turns + 1, page, index, scan, previous, s =>
    let buddy := page ^^^ 1 <<< (index + shift)
    if scan = 0 then .ok (page, index, s)
    else if scan = buddy then do
      let s ← unlink s index previous scan
      if index + 1 = mapSize then .ok (page, index + 1, s)
      else
        let page := if page < buddy then page else buddy
        mergeLoop turns page (index + 1) (s.map (index + 1)) 0 s
    else do
      let next ← s.load scan
      mergeLoop turns page index next scan s

/-- More turns than there are pages and levels. -/
def mergeTurns : Nat := 0x10000

def freePhysicalPage (page nbPages : Nat) (s : FreeArea) : Except Fault FreeArea := do
  let index := puiss2 (nbPages <<< shift) - shift
  let (page, index, s) ← mergeLoop mergeTurns page index (s.map index) 0 s
  let s := s.touch index
  let next := s.map index
  (s.setMap index page).store page next

end DominOS.PageAllocator
