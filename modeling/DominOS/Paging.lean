import DominOS.Fallible
import DominOS.PageAllocatorRuns

/-! paging.c: page directories and their tables, over an allocator that may answer with any
frames that are free. -/
namespace DominOS.Paging
open Fallible

/-- What can stop the kernel: a panic, a failed assertion, or a free of frames that are not
allocated. `disabled` marks an answer of the allocator, or an event, that cannot be. -/
inductive Fault where
  | panic | assertion | notLive | disabled
deriving DecidableEq

/-- Two runs of pages, each an address and a page count, have no frame in common. -/
def Apart (a b : Nat × Nat) : Prop := a.1 + a.2 * 0x1000 ≤ b.1 ∨ b.1 + b.2 * 0x1000 ≤ a.1

instance (a b : Nat × Nat) : Decidable (Apart a b) := inferInstanceAs (Decidable (_ ∨ _))

/-- The allocations that are live, and the answers that the allocator will give. -/
structure Frames where
  live : List (Nat × Nat)
  offers : List Nat

namespace Frames

/-- The allocator may answer a request for `n` pages with `a`. -/
def Admits (s : Frames) (a n : Nat) : Prop :=
  a % 0x1000 = 0 ∧ 0x4000000 ≤ a ∧ a + n * 0x1000 ≤ 0x10000000 ∧ ∀ b ∈ s.live, Apart (a, n) b

instance (s : Frames) (a n : Nat) : Decidable (s.Admits a n) :=
  inferInstanceAs (Decidable (_ ∧ _))

def alloc (n : Nat) (s : Frames) : Except Fault (Nat × Frames) :=
  if n = 0 ∨ PageAllocator.nbPagesAlloc ≤ n then .error .assertion
  else match s.offers with
    | [] => .error .panic
    | a :: offers => if s.Admits a n then .ok (a, ⟨(a, n) :: s.live, offers⟩) else .error .disabled

def free (a : Nat × Nat) (s : Frames) : Except Fault Frames :=
  if a ∈ s.live then .ok { s with live := s.live.erase a } else .error .notLive

def offer (offers : List Nat) (s : Frames) : Frames := { s with offers := offers }

end Frames

structure Flags where
  rw : Bool
  us : Bool
deriving DecidableEq

structure Entry where
  addr : Nat
  flags : Flags
deriving DecidableEq

structure Table where
  addr : Nat
  flags : Flags
  entries : Nat → Option Entry

def Table.set (i : Nat) (e : Option Entry) (t : Table) : Table :=
  { t with entries := Function.update t.entries i e }

abbrev Dir := Nat → Option Table

def pageSize : Nat := 0x1000

def pdIndex (virt : Nat) : Nat := virt >>> 22

def ptIndex (virt : Nat) : Nat := (virt >>> 12) &&& 0x3ff

def align (addr : Nat) : Nat := addr - addr % 0x1000

/-- `ALIGN_UP`, which rounds down like `ALIGN`. -/
def alignUp (addr : Nat) : Nat := if addr % 0x1000 = 0 then addr else align addr

def mapPage (virt phys : Nat) (flags : Flags) (dir : Dir) (s : Frames) :
    Except Fault (Dir × Frames) :=
  match dir (pdIndex virt) with
  | some table =>
    .ok (Function.update dir (pdIndex virt) (some (table.set (ptIndex virt) (some ⟨phys, flags⟩))), s)
  | none => do
    let (pt, s) ← s.alloc 1
    let table : Table := ⟨pt, flags, fun _ => none⟩
    .ok (Function.update dir (pdIndex virt) (some (table.set (ptIndex virt) (some ⟨phys, flags⟩))), s)

def mapPages (flags : Flags) : Nat → Nat → Nat → Dir → Frames → Except Fault (Dir × Frames)
  | 0, _, _, dir, s => .ok (dir, s)
  | turns + 1, virt, phys, dir, s => do
    -- the parameters of `map_page` have 32 bits
    let (dir, s) ← mapPage (virt % 2 ^ 32) (phys % 2 ^ 32) flags dir s
    mapPages flags turns (virt + pageSize) (phys + pageSize) dir s

/-- How often a loop from `start` runs that includes `last`. -/
def turns (start last : Nat) : Nat := if start ≤ last then (last - start) / pageSize + 1 else 0

def mapZone (virtStart virtEnd phyStart phyEnd : Nat) (flags : Flags) (dir : Dir) (s : Frames) :
    Except Fault (Dir × Frames) :=
  if (virtEnd : Int) - virtStart ≠ phyEnd - phyStart then .error .panic
  else
    mapPages flags (turns (align virtStart) (alignUp virtEnd)) (align virtStart) (align phyStart)
      dir s

def unmapPage (virt : Nat) (dir : Dir) : Dir :=
  match dir (pdIndex virt) with
  | none => dir
  | some table => Function.update dir (pdIndex virt) (some (table.set (ptIndex virt) none))

def unmapPages : Nat → Nat → Dir → Dir
  | 0, _, dir => dir
  | turns + 1, virt, dir => unmapPages turns (virt + pageSize) (unmapPage virt dir)

def unmapZone (virtStart virtEnd : Nat) (dir : Dir) : Dir :=
  unmapPages (turns (align virtStart) (alignUp virtEnd)) (align virtStart) dir

/-- The tables that early_mm.c has filled in at `pgtab`, and the pages that they let the
kernel write. -/
structure EarlyMem where
  pgtab : Nat
  writable : Nat → Bool

/-- They map all of memory but the first page to itself, for the kernel only. -/
def EarlyMem.table (early : EarlyMem) (i : Nat) : Table where
  addr := early.pgtab + i * 0x1000
  flags := ⟨true, false⟩
  entries j :=
    if i = 0 ∧ j = 0 then none
    else some ⟨(i * 1024 + j) * 0x1000, ⟨early.writable (i * 1024 + j), false⟩⟩

def EarlyMem.dir (early : EarlyMem) : Dir := fun i => if i < 64 then some (early.table i) else none

def pageDirectoryCreate (early : EarlyMem) (s : Frames) : Except Fault (Nat × Dir × Frames) := do
  let (dir, s) ← s.alloc 1
  .ok (dir, early.dir, s)

/-- The tables that belong to one directory only. -/
def ownTables (dir : Dir) : List (Nat × Nat) :=
  (List.range' 64 960).filterMap fun i => (dir i).map fun table => (table.addr, 1)

def pageDirectoryDestroy (dirAt : Nat) (dir : Dir) (s : Frames) : Except Fault Frames := do
  let s ← (ownTables dir).foldlM (fun s table => s.free table) s
  s.free (dirAt, 1)

def Dir.entry (dir : Dir) (virt : Nat) : Option Entry :=
  (dir (pdIndex virt)).bind fun table => table.entries (ptIndex virt)

/-- What the processor lets user code do with the page: both levels have to allow it. -/
def Dir.translate (dir : Dir) (virt : Nat) : Option Entry :=
  (dir (pdIndex virt)).bind fun table =>
    (table.entries (ptIndex virt)).map fun e =>
      ⟨e.addr, table.flags.rw && e.flags.rw, table.flags.us && e.flags.us⟩

def isUserAddr (dir : Dir) (virt : Nat) : Bool := (Dir.entry dir virt).any fun e => e.flags.us

end DominOS.Paging
