import DominOS.Paging
import DominOS.ProcessState
import DominOS.Runs

/-! The memory of the processes: what `start_task` allocates and maps and `free_task` gives
back, and the pages of shm.c that processes share. -/
namespace DominOS.AddressSpaces
open Paging Fallible
open Process (TaskPtr ustackSzMax)

def userStart : Nat := 0x40000000
def userStackEnd : Nat := 0xfff00000
def extraStackSpace : Nat := 8
def pageMax : Nat := 256
def sharedStart : Nat := 0xfff00000

def slotAddress (i : Nat) : Nat := sharedStart + pageSize * i

inductive HeapBlock where
  | task (t : TaskPtr)
  | kernelStack (t : TaskPtr)
deriving DecidableEq

/-- The fields of a `struct task` that say what memory it has. -/
structure Space where
  cr3 : Nat
  dir : Dir
  codePages : Nat
  nbCodePages : Nat
  stackPages : Nat
  nbStackPages : Nat

/-- The frame that the page of `virt` is mapped to for user code. -/
def Space.userFrame (space : Space) (virt : Nat) : Option Nat :=
  (Dir.entry space.dir virt).bind fun e => if e.flags.us then some e.addr else none

structure Shp where
  physicalAddress : Nat
  virtualAddress : Nat
  refcount : Nat
  key : String

structure Mem where
  frames : Frames
  heap : List HeapBlock
  early : EarlyMem
  spaces : TaskPtr → Option Space
  zombie : TaskPtr → Bool
  fresh : TaskPtr
  shpTable : List Shp
  virtualMap : Nat → Bool
  -- who created or acquired what and has not released it; not in the source
  held : List (TaskPtr × String)

/-- What the page allocator answers in `start_task`. -/
structure StartOffers where
  dir : Nat
  code : Nat
  codeTables : List Nat
  stack : Nat
  stackTables : List Nat

/-- `app->end - app->start + 1` -/
def codeSize (code : Nat) : Nat := code + 1

def nbCodePages (code : Nat) : Nat := codeSize code / pageSize + 1

def realSize (ssize : Nat) : Nat := ssize * 4 + extraStackSpace

def nbStackPages (ssize : Nat) : Nat := realSize ssize / pageSize + 1

namespace Mem

def setSpace (t : TaskPtr) (space : Space) (m : Mem) : Mem :=
  { m with spaces := Function.update m.spaces t (some space) }

def withFrames (m : Mem) (frames : Frames) : Mem := { m with frames := frames }

/-- `start_task`, for an app of `code` bytes: the struct, the kernel stack, the directory, and
code and stack with the zones that they are mapped to. -/
def startTask (code ssize : Nat) (o : StartOffers) (m : Mem) : Except Fault Mem := do
  let t := m.fresh
  let (cr3, dir, s) ← pageDirectoryCreate m.early (m.frames.offer [o.dir])
  let size := codeSize code
  let (codePages, s) ← (s.offer [o.code]).alloc (nbCodePages code)
  let (dir, s) ← mapZone userStart (userStart + size) codePages (codePages + size) ⟨true, true⟩ dir
    (s.offer o.codeTables)
  let real := realSize ssize
  let (stackPages, s) ← (s.offer [o.stack]).alloc (nbStackPages ssize)
  let (dir, s) ← mapZone (userStackEnd - real + 1) userStackEnd stackPages (stackPages + real - 1)
    ⟨true, true⟩ dir (s.offer o.stackTables)
  .ok { m with
    frames := s
    heap := .kernelStack t :: .task t :: m.heap
    spaces := Function.update m.spaces t
      (some ⟨cr3, dir, codePages, nbCodePages code, stackPages, nbStackPages ssize⟩)
    fresh := t + 1 }

def memFree (b : HeapBlock) (m : Mem) : Except Fault Mem :=
  if b ∈ m.heap then .ok { m with heap := m.heap.erase b } else .error .notLive

def freeTask (t : TaskPtr) (m : Mem) : Except Fault Mem :=
  match m.spaces t with
  | none => .error .disabled
  | some space => do
    let s ← pageDirectoryDestroy space.cr3 space.dir m.frames
    let s ← s.free (space.stackPages, space.nbStackPages)
    let s ← s.free (space.codePages, space.nbCodePages)
    let m ← (m.withFrames s).memFree (.kernelStack t)
    let m ← m.memFree (.task t)
    .ok { m with spaces := Function.update m.spaces t none }

/-- `exit`, `kill` and a page fault: the task is a zombie, and its memory stays. -/
def terminate (t : TaskPtr) (m : Mem) : Mem := { m with zombie := Function.update m.zombie t true }

/-- `allocate_memory`: the first free slot. -/
def allocateMemory (m : Mem) : Option Nat := (List.range pageMax).find? fun i => !m.virtualMap i

def freeMemory (addr : Nat) (m : Mem) : Mem :=
  { m with virtualMap := Function.update m.virtualMap ((addr - sharedStart) / pageSize) false }

/-- `hash_get` of a key. -/
def hashGet (key : String) (m : Mem) : Option Shp := m.shpTable.find? fun shp => shp.key == key

def hashSet (shp : Shp) (m : Mem) : Mem := { m with shpTable := shp :: m.shpTable }

def hashDel (key : String) (m : Mem) : Mem :=
  { m with shpTable := m.shpTable.filter fun shp => shp.key != key }

/-- Map the page of `shp` for a task. -/
def mapShp (t : TaskPtr) (shp : Shp) (m : Mem) : Except Fault Mem :=
  match m.spaces t with
  | none => .error .disabled
  | some space => do
    let (dir, s) ← mapZone shp.virtualAddress (shp.virtualAddress + pageSize - 1)
      shp.physicalAddress (shp.physicalAddress + pageSize - 1) ⟨true, true⟩ space.dir m.frames
    .ok ((m.withFrames s).setSpace t { space with dir := dir })

/-- `shm_create`, called by `t`; a NULL key is a page fault. Without a free slot the frame that
has been allocated is lost. -/
def shmCreate (t : TaskPtr) (key : Option String) (m : Mem) : Except Fault Mem :=
  match key with
  | none => .ok (m.terminate t)
  | some key =>
    if (m.hashGet key).isSome then .ok m
    else do
      let (address, s) ← m.frames.alloc 1
      match m.allocateMemory with
      | none => .ok (m.withFrames s)
      | some i => do
        let shp : Shp := ⟨address, slotAddress i, 1, key⟩
        let m := { m.withFrames s with virtualMap := Function.update m.virtualMap i true }
        let m ← m.mapShp t shp
        .ok { m.hashSet shp with held := (t, key) :: m.held }

/-- `refcount` is a `uint64_t`. -/
def setRefcount (key : String) (refcount : Nat) (m : Mem) : Mem :=
  { m with shpTable := m.shpTable.map fun shp =>
      if shp.key = key then { shp with refcount := refcount } else shp }

def shmAcquire (t : TaskPtr) (key : Option String) (m : Mem) : Except Fault Mem :=
  match key with
  | none => .ok (m.terminate t)
  | some key =>
    match m.hashGet key with
    | none => .ok m
    | some shp => do
      let m ← (m.setRefcount key ((shp.refcount + 1) % 2 ^ 64)).mapShp t shp
      .ok { m with held := (t, key) :: m.held }

def unmapShp (t : TaskPtr) (shp : Shp) (m : Mem) : Except Fault Mem :=
  match m.spaces t with
  | none => .error .disabled
  | some space =>
    .ok (m.setSpace t { space with
      dir := unmapZone shp.virtualAddress (shp.virtualAddress + pageSize - 1) space.dir })

/-- The last reference has gone. `inPage` is whether the string of the key has a byte in the page
of the entry, where `hash_del` cannot read it again. -/
def cleanUp (t : TaskPtr) (key : String) (inPage : Bool) (shp : Shp) (m : Mem) : Except Fault Mem :=
  if inPage then .ok (m.terminate t)
  else do
    let m := m.hashDel key
    let s ← m.frames.free (shp.physicalAddress, 1)
    .ok ((m.withFrames s).freeMemory shp.virtualAddress)

def shmRelease (t : TaskPtr) (key : Option String) (inPage : Bool) (m : Mem) : Except Fault Mem :=
  match key with
  | none => .ok (m.terminate t)
  | some key =>
    match m.hashGet key with
    | none => .ok m
    | some shp => do
      let m ← m.unmapShp t shp
      let refcount := if shp.refcount = 0 then 2 ^ 64 - 1 else shp.refcount - 1
      let m := { m.setRefcount key refcount with held := m.held.erase (t, key) }
      if refcount = 0 then m.cleanUp t key inPage shp else .ok m

def Live (m : Mem) (t : TaskPtr) : Prop := (m.spaces t).isSome ∧ m.zombie t = false

instance (m : Mem) (t : TaskPtr) : Decidable (m.Live t) := inferInstanceAs (Decidable (_ ∧ _))

def userFrame (m : Mem) (t : TaskPtr) (virt : Nat) : Option Nat :=
  (m.spaces t).bind fun space => space.userFrame virt

end Mem

inductive Event where
  | start (code ssize : Nat) (o : StartOffers)
  | terminate (t : TaskPtr)
  | free (t : TaskPtr)
  | shmCreate (t : TaskPtr) (key : Option String) (offers : List Nat)
  | shmAcquire (t : TaskPtr) (key : Option String) (offers : List Nat)
  | shmRelease (t : TaskPtr) (key : Option String) (inPage : Bool)

namespace Mem

/-- Any process that can run calls, in any order; `start` has checked `ssize`, and only zombies
are freed. -/
def step (e : Event) (m : Mem) : Except Fault Mem :=
  match e with
  | .start code ssize o =>
    if ssize ≤ ustackSzMax then m.startTask code ssize o else .error .disabled
  | .terminate t => if m.Live t then .ok (m.terminate t) else .error .disabled
  | .free t => if m.zombie t then m.freeTask t else .error .disabled
  | .shmCreate t key offers =>
    if m.Live t then (m.withFrames (m.frames.offer offers)).shmCreate t key else .error .disabled
  | .shmAcquire t key offers =>
    if m.Live t then (m.withFrames (m.frames.offer offers)).shmAcquire t key else .error .disabled
  | .shmRelease t key inPage => if m.Live t then m.shmRelease t key inPage else .error .disabled

def boot (early : EarlyMem) : Mem where
  frames := ⟨[], []⟩
  heap := []
  early := early
  spaces _ := none
  zombie _ := false
  fresh := 0
  shpTable := []
  virtualMap _ := false
  held := []

end Mem
end DominOS.AddressSpaces
