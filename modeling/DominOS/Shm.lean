import DominOS.HashTableRuns
import DominOS.AddressSpacesSpec

/-! shm.c over the hash table, the page allocator and the directories of the callers; here a
failing `mem_alloc` and a fault in the middle of a call are modelled too. -/
namespace DominOS.Shm
open HashTable Paging
open AddressSpaces (slotAddress sharedStart pageMax)
open Process (TaskPtr)

structure Shp where
  physicalAddress : Nat
  virtualAddress : Nat
  refcount : BitVec 64
  key : Ptr
deriving DecidableEq

structure State where
  shpTable : HashMap Ptr
  shps : Ptr → Option Shp
  keys : Ptr → Option CString
  virtualMap : Nat → Bool
  frames : Frames
  dirs : TaskPtr → Dir

/-- How a call ends. A page fault kills the process in the middle of the call, after `stops` and
`diverges` the kernel is dead, and after `dangling` it has read a block that is not live. -/
inductive Ending where
  | returns (value : Nat)
  | nullDereferenced
  | pageFault
  | stops (fault : Paging.Fault)
  | diverges
  | dangling
deriving DecidableEq

/-- What the allocators answer during a call, and with which string, if one can be read there, each
address outside the live blocks begins. -/
structure Surroundings where
  keyAlloc : Option Ptr
  shpAlloc : Option Ptr
  heap : Heap
  frames : List Nat
  memory : Ptr → Option CString

namespace State

def read (env : Surroundings) (s : State) (p : Ptr) : Option CString :=
  if p = 0 then none else (s.keys p).or (env.memory p)

def strings (env : Surroundings) (s : State) (p : Ptr) : CString := (s.read env p).getD .empty

def funcs (env : Surroundings) (s : State) : Funcs := Mode.string.funcs (s.strings env)

def unreadable (p : Ptr) : Ending := if p = 0 then .nullDereferenced else .pageFault

def allocateMemory (s : State) : Option Nat := (List.range pageMax).find? fun i => !s.virtualMap i

def freeMemory (addr : Nat) (s : State) : State :=
  { s with virtualMap := Function.update s.virtualMap ((addr - sharedStart) / pageSize) false }

def setShp (p : Ptr) (shp : Option Shp) (s : State) : State :=
  { s with shps := Function.update s.shps p shp }

def setKey (p : Ptr) (string : Option CString) (s : State) : State :=
  { s with keys := Function.update s.keys p string }

def mapShp (t : TaskPtr) (shp : Shp) (s : State) : Except Paging.Fault State := do
  let (dir, frames) ← mapZone shp.virtualAddress (shp.virtualAddress + pageSize - 1)
    shp.physicalAddress (shp.physicalAddress + pageSize - 1) ⟨true, true⟩ (s.dirs t) s.frames
  .ok { s with frames := frames, dirs := Function.update s.dirs t dir }

def unmapShp (t : TaskPtr) (shp : Shp) (s : State) : State :=
  let dir := unmapZone shp.virtualAddress (shp.virtualAddress + pageSize - 1) (s.dirs t)
  { s with dirs := Function.update s.dirs t dir }

/-- The string has a character, or its 0, in the page of an address. -/
def InPage (addr : Nat) (p : Ptr) (string : CString) : Prop :=
  p.toNat < addr + pageSize ∧ addr ≤ p.toNat + string.chars.length

instance (addr : Nat) (p : Ptr) (string : CString) : Decidable (InPage addr p string) :=
  inferInstanceAs (Decidable (_ ∧ _))

/-- `shm_create`, called by `t` -/
def shmCreate (env : Surroundings) (t : TaskPtr) (key : Ptr) (s : State) : Ending × State :=
  match s.read env key with
  | none => (unreadable key, s)
  | some string =>
    match env.keyAlloc with
    | none => (.nullDereferenced, s)
    | some keyAlloc =>
      let s := s.setKey keyAlloc (some string)
      if key = 0 then (.returns 0, s)
      else match s.shpTable.hashIsset (s.funcs env) keyAlloc with
      | none => (.diverges, s)
      | some isset =>
        if isset ≠ 0 then (.returns 0, s)
        else match (s.frames.offer env.frames).alloc 1 with
        | .error fault => (.stops fault, s)
        | .ok (address, frames) =>
          let s := { s with frames := frames }
          match s.allocateMemory with
          | none => (.returns 0, s)
          | some i =>
            let s := { s with virtualMap := Function.update s.virtualMap i true }
            match env.shpAlloc with
            | none => (.nullDereferenced, s)
            | some p =>
              let shp : Shp := ⟨address, slotAddress i, 1, keyAlloc⟩
              let s := s.setShp p (some shp)
              match s.mapShp t shp with
              | .error fault => (.stops fault, s)
              | .ok s =>
                match s.shpTable.hashSet (s.funcs env) env.heap keyAlloc p with
                | none => (.diverges, s)
                | some (_, table) => (.returns shp.virtualAddress, { s with shpTable := table })

def shmAcquire (env : Surroundings) (t : TaskPtr) (key : Ptr) (s : State) : Ending × State :=
  match s.read env key with
  | none => (unreadable key, s)
  | some _ =>
    match s.shpTable.hashGet (s.funcs env) key 0 with
    | none => (.diverges, s)
    | some p =>
      if p = 0 then (.returns 0, s)
      else match s.shps p with
      | none => (.dangling, s)
      | some shp =>
        let shp := { shp with refcount := shp.refcount + 1 }
        let s := { s.setShp p (some shp) with frames := s.frames.offer env.frames }
        match s.mapShp t shp with
        | .error fault => (.stops fault, s)
        | .ok s => (.returns shp.virtualAddress, s)

/-- `shm_release`, called by `t`; it returns nothing, here a 0. `hash_del` and `strlen` read a key
that may be gone with the page. -/
def shmRelease (env : Surroundings) (t : TaskPtr) (key : Ptr) (s : State) : Ending × State :=
  match s.read env key with
  | none => (unreadable key, s)
  | some string =>
    match s.shpTable.hashGet (s.funcs env) key 0 with
    | none => (.diverges, s)
    | some p =>
      if p = 0 then (.returns 0, s)
      else match s.shps p with
      | none => (.dangling, s)
      | some shp =>
        let shp := { shp with refcount := shp.refcount - 1 }
        let s := (s.unmapShp t shp).setShp p (some shp)
        if shp.refcount ≠ 0 then (.returns 0, s)
        else if InPage shp.virtualAddress key string then (.pageFault, s)
        else match s.shpTable.hashDel (s.funcs env) env.heap key with
        | none => (.diverges, s)
        | some (_, table) =>
          let s := { s with shpTable := table }
          match s.frames.free (shp.physicalAddress, 1) with
          | .error fault => (.stops fault, s)
          | .ok frames =>
            (.returns 0,
              ((({ s with frames := frames }).freeMemory shp.virtualAddress).setKey shp.key none).setShp p none)

end State

inductive Call where
  | create (key : Ptr)
  | acquire (key : Ptr)
  | release (key : Ptr)
deriving DecidableEq

def State.call (env : Surroundings) (t : TaskPtr) (c : Call) (s : State) : Ending × State :=
  match c with
  | .create key => s.shmCreate env t key
  | .acquire key => s.shmAcquire env t key
  | .release key => s.shmRelease env t key

end DominOS.Shm
