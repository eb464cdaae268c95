import DominOS.LinkedRings
import DominOS.IntrusiveLists

/-! queue.h: lists by priority, as links in memory. -/
namespace DominOS.PointerQueue
open LinkedRings IntrusiveLists
universe u

abbrev Ptr := BitVec 32

/-- The links by their addresses, and the priorities by the addresses of the elements. -/
structure Heap (π : Type u) where
  prev : Ptr → Ptr
  next : Ptr → Ptr
  prio : Ptr → π

/-- The list operations, for elements with their link at `diff`. -/
inductive Op (π : Type u) where
  | queueAdd (elem head : Ptr)
  | queueOut (head : Ptr)
  | queueDel (elem : Ptr)
  | queueTop (head : Ptr)
  | queueBottom (head : Ptr)
  | queueUpdate (elem head : Ptr)
  | setPrio (elem : Ptr) (prio : π)

namespace Heap
variable {π : Type u}

def setNext (a b : Ptr) (m : Heap π) : Heap π := { m with next := Function.update m.next a b }
def setPrev (a b : Ptr) (m : Heap π) : Heap π := { m with prev := Function.update m.prev a b }
def setPrio (a : Ptr) (p : π) (m : Heap π) : Heap π :=
  { m with prio := Function.update m.prio a p }

def initListHead (m : Heap π) (l : Ptr) : Heap π := (m.setNext l l).setPrev l l

def queueEntry (diff link : Ptr) : Ptr := link - diff

def queueEmpty (head : Ptr) (m : Heap π) : Bool := m.next head = head

section Add
variable [LT π] [DecidableLT π]

/-- The loop of `queue_add`, for at most `fuel` turns. -/
def search (diff : Ptr) (prio : π) (head : Ptr) (m : Heap π) : Nat → Ptr → Option Ptr
  | 0, _ => none
  | fuel + 1, curLink =>
    let curLink := m.next curLink
    if curLink ≠ head ∧ m.prio (queueEntry diff curLink) < prio then search diff prio head m fuel curLink
    else some curLink

def queueAdd (diff : Ptr) (fuel : Nat) (elem head : Ptr) (m : Heap π) : Option (Heap π) :=
  let elemLink := elem + diff
  if m.prev elemLink = 0 ∧ m.next elemLink = 0 then
    (m.search diff (m.prio elem) head fuel head).map fun curLink =>
      let m := m.setNext elemLink curLink
      let m := m.setPrev elemLink (m.prev curLink)
      let m := m.setNext (m.prev curLink) elemLink
      m.setPrev curLink elemLink
  else none

end Add

def queueOut (diff head : Ptr) (m : Heap π) : Ptr × Heap π :=
  let ptrLinkRet := m.prev head
  if m.queueEmpty head then (0, m)
  else
    let m := m.setPrev head (m.prev (m.prev head))
    let m := m.setNext (m.prev head) head
    let m := m.setPrev ptrLinkRet 0
    let m := m.setNext ptrLinkRet 0
    (ptrLinkRet - diff, m)

def queueDel (diff elem : Ptr) (m : Heap π) : Option (Heap π) :=
  let elemLink := elem + diff
  if m.prev elemLink ≠ 0 ∧ m.next elemLink ≠ 0 then
    let m := m.setNext (m.prev elemLink) (m.next elemLink)
    let m := m.setPrev (m.next elemLink) (m.prev elemLink)
    let m := m.setNext elemLink 0
    some (m.setPrev elemLink 0)
  else none

def queueTop (diff head : Ptr) (m : Heap π) : Ptr :=
  let ptrLinkRet := m.prev head
  if m.queueEmpty head then 0 else ptrLinkRet - diff

def queueBottom (diff head : Ptr) (m : Heap π) : Ptr :=
  let ptrLinkRet := m.next head
  if m.queueEmpty head then 0 else ptrLinkRet - diff

variable [LT π] [DecidableLT π]

def queueUpdate (diff : Ptr) (fuel : Nat) (elem head : Ptr) (m : Heap π) : Option (Heap π) :=
  (m.queueDel diff elem).bind (queueAdd diff fuel elem head)

/-- An operation, with the pointer it returns (NULL where it returns none). -/
def exec (diff : Ptr) (fuel : Nat) (m : Heap π) : Op π → Option (Ptr × Heap π)
  | .queueAdd elem head => (m.queueAdd diff fuel elem head).map (Prod.mk 0)
  | .queueOut head => some (m.queueOut diff head)
  | .queueDel elem => (m.queueDel diff elem).map (Prod.mk 0)
  | .queueTop head => some (m.queueTop diff head, m)
  | .queueBottom head => some (m.queueBottom diff head, m)
  | .queueUpdate elem head => (m.queueUpdate diff fuel elem head).map (Prod.mk 0)
  | .setPrio elem p => some (0, m.setPrio elem p)

def run (diff : Ptr) (fuel : Nat) : List (Op π) → Heap π → Option (List Ptr × Heap π)
  | [], m => some ([], m)
  | op :: ops, m =>
    (m.exec diff fuel op).bind fun r => (run diff fuel ops r.2).map fun rs => (r.1 :: rs.1, rs.2)

def initHeads (heads : List Ptr) (m : Heap π) : Heap π := heads.foldl initListHead m

end Heap

structure Queues (π : Type u) where
  links : Links Ptr Ptr
  prio : Ptr → π

namespace Queues
variable {π : Type u} [LinearOrder π]

def start (prio : Ptr → π) : Queues π := ⟨Links.empty, prio⟩

def add (q : Queues π) (elem head : Ptr) : Queues π :=
  { q with links := q.links.move (fun a b => q.prio a ≤ q.prio b) head elem }

def del (q : Queues π) (elem : Ptr) : Queues π := { q with links := q.links.erase elem }

def top (q : Queues π) (head : Ptr) : Option Ptr := (q.links.members head).getLast?

def bottom (q : Queues π) (head : Ptr) : Option Ptr := (q.links.members head).head?

/-- An operation on the lists of `heads`, with what it returns. Only elements of `elems` that are in
no list are added or change their priority, and only those in a list are removed. -/
def exec (heads elems : List Ptr) (q : Queues π) : Op π → Option (Option Ptr × Queues π)
  | .queueAdd elem head =>
    if head ∈ heads ∧ elem ∈ elems ∧ q.links.link elem = none then some (none, q.add elem head) else none
  | .queueOut head =>
    if head ∈ heads then
      match q.top head with
      | none => some (none, q)
      | some elem => some (some elem, q.del elem)
    else none
  | .queueDel elem => if q.links.link elem ≠ none then some (none, q.del elem) else none
  | .queueTop head => if head ∈ heads then some (q.top head, q) else none
  | .queueBottom head => if head ∈ heads then some (q.bottom head, q) else none
  | .queueUpdate elem head =>
    if head ∈ heads ∧ q.links.link elem ≠ none then some (none, q.add elem head) else none
  | .setPrio elem p =>
    if q.links.link elem = none then some (none, { q with prio := Function.update q.prio elem p })
    else none

def run (heads elems : List Ptr) : List (Op π) → Queues π → Option (List (Option Ptr) × Queues π)
  | [], q => some ([], q)
  | op :: ops, q =>
    (q.exec heads elems op).bind fun r => (run heads elems ops r.2).map fun rs => (r.1 :: rs.1, rs.2)

end Queues

/-- The heads and the elements may be used: no link is NULL, an element that is not in a list has
its links zero, and no head is the link of an element. -/
structure Usable {π : Type u} (diff : Ptr) (heads elems : List Ptr) (m : Heap π) : Prop where
  head : 0 ∉ heads
  nonzero : ∀ e ∈ elems, e + diff ≠ 0
  apart : ∀ e ∈ elems, e + diff ∉ heads
  zero : ∀ e ∈ elems, m.prev (e + diff) = 0 ∧ m.next (e + diff) = 0

/-- The memory holds the lists: each head and its elements are a ring, in both directions. The
links that are in no list are as they were in `m₀`. -/
structure Holds {π : Type u} [LinearOrder π] (diff : Ptr) (heads elems : List Ptr) (m₀ m : Heap π) (q : Queues π) : Prop where
  prio : m.prio = q.prio
  ring : ∀ h ∈ heads, Ring m.next m.prev h ((q.links.members h).map (· + diff))
  linked : ∀ e h, q.links.link e = some h → e ∈ elems ∧ h ∈ heads
  frame : ∀ a, a ∉ heads → (∀ e, a = e + diff → q.links.link e = none) →
    m.prev a = m₀.prev a ∧ m.next a = m₀.next a
  ordered : q.links.Ordered q.prio

end DominOS.PointerQueue
