import Mathlib.Algebra.Group.Nat.Defs
import Mathlib.Data.List.Basic
import Mathlib.Logic.Function.Basic

/-! hash.c: a hash table with open addressing. The map that is passed is never NULL here. -/
namespace DominOS.HashTable

abbrev Byte := BitVec 8

abbrev Word := BitVec 32

abbrev Ptr := BitVec 32

structure CString where
  chars : List Byte
  nonzero : 0 ∉ chars
deriving DecidableEq

/-- A slot with its mode; what is in one that is not active is never read. -/
inductive Slot (V : Type) where
  | empty
  | active (key : Ptr) (value : V) (hash : Word)
  | deleted
deriving DecidableEq

def CString.empty : CString := ⟨[], by simp⟩

/-- `hash_t`, without the two functions. -/
structure HashMap (V : Type) where
  fill : Int
  count : Int
  mask : Word
  table : Nat → Slot V
  -- not in the source: whether `mem_alloc` has refused a table
  refused : Bool

structure Funcs where
  hfunc : Ptr → Word
  cmp : Ptr → Ptr → Bool

/-- Which requests `mem_alloc` serves; the heap ends at `mem_heap_end`. -/
structure Heap where
  memAlloc : Nat → Bool
  limit : ∀ n, memAlloc n = true → n ≤ 0x4000000

def hashMinsize : Nat := 8

def slotBytes : Nat := 16

namespace HashMap
variable {V : Type}

def size (map : HashMap V) : Nat := map.mask.toNat + 1

def put (map : HashMap V) (i : Nat) (slot : Slot V) : HashMap V :=
  { map with table := Function.update map.table i slot }

/-- The number of bytes is a `long` too. -/
def hashInitialize (heap : Heap) (size : Nat) (map : HashMap V) : Int × HashMap V :=
  if ¬ heap.memAlloc (size * slotBytes % 2 ^ 32) then (-1, { map with refused := true })
  else (0, { map with
    fill := 0
    count := 0
    mask := BitVec.ofNat 32 (size - 1)
    table := fun _ => .empty })

/-- The loop of `hash_lookup`, for at most `fuel` slots. -/
def lookupLoop (f : Funcs) (key : Ptr) (hash : Word) (map : HashMap V) (fuel : Nat)
    (index perturb : Word) (freeslot : Option Nat) : Option Nat :=
  match fuel with
  | 0 => none
  | fuel + 1 =>
    let slot := (index &&& map.mask).toNat
    let next := lookupLoop f key hash map fuel (5 * index + perturb + 1) (perturb >>> 5)
    match map.table slot with
    | .empty => some (freeslot.getD slot)
    | .active k _ h =>
      if k = key ∨ (h = hash ∧ f.cmp k key) then some slot else next freeslot
    | .deleted => next (freeslot.or (some slot))

/-- The perturbation lasts 7 slots. -/
def hashLookup (f : Funcs) (key : Ptr) (hash : Word) (map : HashMap V) : Option Nat :=
  map.lookupLoop f key hash (7 + map.size) (hash &&& map.mask) hash none

def copySlot (f : Funcs) (oldtable : Nat → Slot V) (map : HashMap V) (i : Nat) :
    Option (HashMap V) :=
  match oldtable i with
  | .active key value hash => do
    let new ← map.hashLookup f key (f.hfunc key)
    some { map.put new (.active key value hash) with
      fill := map.fill + 1
      count := map.count + 1 }
  | _ => some map

def hashCopy (f : Funcs) (oldtable : Nat → Slot V) (oldsize : Nat) (map : HashMap V) :
    Option (HashMap V) :=
  (List.range oldsize).foldlM (copySlot f oldtable) map

/-- The second half of `hash_update`: a new table of another size. -/
def resize (f : Funcs) (heap : Heap) (newSize : Nat) (map : HashMap V) :
    Option (Int × HashMap V) :=
  let (ret, new) := map.hashInitialize heap newSize
  if ret = -1 then some (-1, new)
  else do some (0, ← new.hashCopy f map.table map.size)

def hashUpdate (f : Funcs) (heap : Heap) (map : HashMap V) : Option (Int × HashMap V) :=
  if 3 * map.fill ≥ 2 * map.size then
    -- the doubled size is not a positive `long`
    if 2 * map.size ≥ 2 ^ 31 then some (-1, map) else map.resize f heap (2 * map.size)
  else if map.size > hashMinsize ∧ 4 * map.count ≤ map.size then
    map.resize f heap (map.size / 2)
  else some (0, map)

def hashInit (heap : Heap) (map : HashMap V) : Int × HashMap V := map.hashInitialize heap hashMinsize

def hashIsset (f : Funcs) (key : Ptr) (map : HashMap V) : Option Int := do
  let slot ← map.hashLookup f key (f.hfunc key)
  match map.table slot with
  | .active _ _ _ => some 1
  | _ => some 0

def hashGet (f : Funcs) (key : Ptr) (default : V) (map : HashMap V) : Option V := do
  let slot ← map.hashLookup f key (f.hfunc key)
  match map.table slot with
  | .active _ value _ => some value
  | _ => some default

def hashSet (f : Funcs) (heap : Heap) (key : Ptr) (value : V) (map : HashMap V) :
    Option (Int × HashMap V) := do
  let hash := f.hfunc key
  let slot ← map.hashLookup f key hash
  match map.table slot with
  | .active k _ h => some (0, map.put slot (.active k value h))
  | .empty =>
    ({ map.put slot (.active key value hash) with
      count := map.count + 1
      fill := map.fill + 1 } : HashMap V).hashUpdate f heap
  | .deleted =>
    ({ map.put slot (.active key value hash) with
      count := map.count + 1 } : HashMap V).hashUpdate f heap

def hashDel (f : Funcs) (heap : Heap) (key : Ptr) (map : HashMap V) : Option (Int × HashMap V) := do
  let slot ← map.hashLookup f key (f.hfunc key)
  match map.table slot with
  | .active _ _ _ =>
    ({ map.put slot .deleted with count := map.count - 1 } : HashMap V).hashUpdate f heap
  | _ => some (0, map)

end HashMap

section Functions

def hashDirectCmp (key1 key2 : Ptr) : Bool := key1 == key2

def hashDirectHfunc (key : Ptr) : Word := key

def strcmp : List Byte → List Byte → Int
  | [], [] => 0
  | [], c :: _ => 0 - (c.toNat : Int)
  | c :: _, [] => (c.toNat : Int) - 0
  | c :: s, d :: t =>
    let diff := (c.toNat : Int) - d.toNat
    if diff ≠ 0 then diff else strcmp s t

def hashStringCmp (string1 string2 : CString) : Bool := strcmp string1.chars string2.chars == 0

/-- A `char` is signed. -/
def hashStringHfunc (string : CString) : Word :=
  string.chars.foldl (fun hash c => ((hash <<< 5) + hash) ^^^ c.signExtend 32) 5381

/-- Which of the two a table was made by: `hash_init_direct` or `hash_init_string`. -/
inductive Mode where
  | direct | string
deriving DecidableEq

def Mode.funcs (mode : Mode) (memory : Ptr → CString) : Funcs :=
  match mode with
  | .direct => ⟨hashDirectHfunc, hashDirectCmp⟩
  | .string => ⟨fun key => hashStringHfunc (memory key),
      fun key1 key2 => hashStringCmp (memory key1) (memory key2)⟩

end Functions

section Calls
variable {V : Type}

inductive Call (V : Type) where
  | isset (key : Ptr)
  | get (key : Ptr) (default : V)
  | set (key : Ptr) (value : V)
  | del (key : Ptr)

inductive Answer (V : Type) where
  | ret (r : Int)
  | value (v : V)
deriving DecidableEq

def HashMap.call (f : Funcs) (heap : Heap) (c : Call V) (map : HashMap V) :
    Option (Answer V × HashMap V) :=
  match c with
  | .isset key => do some (.ret (← map.hashIsset f key), map)
  | .get key default => do some (.value (← map.hashGet f key default), map)
  | .set key value => do
    let (r, map) ← map.hashSet f heap key value
    some (.ret r, map)
  | .del key => do
    let (r, map) ← map.hashDel f heap key
    some (.ret r, map)

end Calls

end DominOS.HashTable
