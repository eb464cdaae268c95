import DominOS.Fallible
import DominOS.IntrusiveLists
import Mathlib.Algebra.Group.Nat.Defs

/-! The kernel's process state: the task structs, the lists they are linked into,
the pid bitmap, the message queues and the clock. A task that is not running
keeps the point of its system call where `schedule` will return to. -/
namespace DominOS.Process
open IntrusiveLists

/-- The address of a `struct task`; the allocator hands out fresh ones. -/
abbrev TaskPtr := Nat

inductive TaskState where
  | startup | running | ready | sleeping | zombie | interruptedMsg | interruptedChild
deriving DecidableEq

inductive Head where
  | ready | sleeping | zombie | interruptedChild
  | waitingSenders (id : Nat) | waitingReceivers (id : Nat)
deriving DecidableEq

/-- What a pointer from user code points into. -/
inductive UserPtr where
  | null | mapped | unmapped | kernel
deriving DecidableEq

/-- A message. `send` numbers the call of `psend` it comes from and is not in the source. -/
structure Msg where
  data : Int
  send : Nat
deriving DecidableEq

def Msg.none : Msg := ⟨-1, 0⟩

/-- Where a task goes on when `schedule` returns to it. -/
inductive Kont where
  | iret
  | ret (v : Int)
  | startRet (child : TaskPtr)
  | waitAnyChild (retvalp : UserPtr)
  | waitSpecificChild (child : TaskPtr) (retvalp : UserPtr)
  | psendLoop (id : Nat) (msg : Msg) (rst : Nat)
  | psendAdd (id : Nat) (msg : Msg)
  | psendRet (id : Nat) (msg : Msg)
  | preceiveLoop (id : Nat) (message : UserPtr) (rst : Nat)
  | preceiveRet (id : Nat) (message : UserPtr) (msg : Msg)
  | exitPanic
deriving DecidableEq

structure Task where
  pid : Nat
  state : TaskState
  parent : Option TaskPtr
  priority : Int
  wakeTime : Nat
  retval : Int
  msgVal : Msg
  firstStart : Bool
  kont : Kont

structure MQueue where
  size : Nat
  count : Nat
  msgs : List Msg

/-- A call of `alloc_mqueue`, `__add_msg`, `__pop_msg` or `free_mqueue`. -/
inductive MsgCall where
  | alloc (id count : Nat)
  | add (id : Nat) (data : Int)
  | pop (id : Nat)
  | free (id : Nat)
deriving DecidableEq

/-- `start_task` has filled in the struct of a task, with an app of `code` bytes and a stack
of `ssize` words, or `free_task` gives back what the task has. -/
inductive TaskCall where
  | alloc (t : TaskPtr) (code ssize : Nat)
  | free (t : TaskPtr)
deriving DecidableEq

/-- What has been observed so far; not in the source. -/
inductive Obs where
  | returned (t : TaskPtr) (v : Int)
  | started (parent child : TaskPtr) (pid : Nat)
  | exited (t : TaskPtr) (retval : Int)
  | reaped (parent child : TaskPtr) (pid : Nat) (retval : Int)
  | counted (id : Nat) (v : Int)
  | psend (id : Nat) (msg : Msg)
  | sent (id : Nat) (msg : Msg)
  | entered (id : Nat) (msg : Msg)
  | taken (id : Nat) (msg : Msg)
  | dropped (id : Nat) (msg : Msg)
  | received (id : Nat) (msg : Msg)
  | reset (id : Nat)
  | emptied (id : Nat)
deriving DecidableEq

/-- Who moves next: user code, `schedule`, or the kernel code of the current task
from its `kont` on. -/
inductive Ctl where
  | user | sched | resume
deriving DecidableEq

structure State where
  tasks : TaskPtr → Option Task
  queues : Links Head TaskPtr
  siblings : Links TaskPtr TaskPtr
  globalTasks : Links Unit TaskPtr
  current : TaskPtr
  idle : TaskPtr
  pidmap : Nat → Bool
  mqueues : Nat → Option MQueue
  cptRst : Nat
  totalTicks : Nat
  fresh : TaskPtr
  ctl : Ctl
  -- how many calls of psend there have been, and what was observed and asked of the
  -- memory, newest first; not in the source
  sends : Nat
  trace : List Obs
  msgCalls : List MsgCall
  taskCalls : List TaskCall

/-- What can stop the kernel: a failed assertion, a panic, an access through a
pointer to a freed task, beyond `mqueues`, through a user pointer into the
kernel, or an overflow of `cpt_rst`. `disabled` marks an event out of turn. -/
inductive Fault where
  | assertion | panic | dangling | outOfBounds | wildWrite | overflow | disabled
deriving DecidableEq

def minPrio : Int := 1
def maxPrio : Int := 256
def ustackSzMax : Nat := 8192
def pidMax : Nat := 31
def nbQueue : Nat := 20
def int16Max : Int := 32767
def intMax : Nat := 2 ^ 31 - 1

def einval : Int := 22
def esrch : Int := 3
def echild : Int := 10
def eagain : Int := 11

namespace State

def task (s : State) (t : TaskPtr) : Except Fault Task :=
  match s.tasks t with
  | some task => .ok task
  | none => .error .dangling

def setTask (s : State) (t : TaskPtr) (task : Task) : State :=
  { s with tasks := Function.update s.tasks t (some task) }

def observe (s : State) (o : Obs) : State := { s with trace := o :: s.trace }

def asked (s : State) (c : MsgCall) : State := { s with msgCalls := c :: s.msgCalls }

def memory (s : State) (c : TaskCall) : State := { s with taskCalls := c :: s.taskCalls }

def priorityOf (s : State) (t : TaskPtr) : Int :=
  match s.tasks t with
  | some task => task.priority
  | none => 0

def pidOf (s : State) (t : TaskPtr) : Nat :=
  match s.tasks t with
  | some task => task.pid
  | none => 0

/-- The order `queue_add` keeps: behind the elements of lower priority. -/
def before (s : State) (t u : TaskPtr) : Prop := s.priorityOf t ≤ s.priorityOf u

instance (s : State) : DecidableRel s.before := fun _ _ => inferInstanceAs (Decidable (_ ≤ _))

def move (s : State) (h : Head) (t : TaskPtr) : State :=
  { s with queues := s.queues.move s.before h t }

def unlink (s : State) (t : TaskPtr) : State := { s with queues := s.queues.erase t }

def queueAdd (t : TaskPtr) (h : Head) (s : State) : Except Fault State :=
  if s.queues.link t = none then .ok (s.move h t) else .error .assertion

def queueDel (t : TaskPtr) (s : State) : Except Fault State :=
  if s.queues.link t = none then .error .assertion else .ok (s.unlink t)

def adopt (s : State) (parent t : TaskPtr) : State :=
  { s with siblings := s.siblings.move s.before parent t }

def enlist (s : State) (t : TaskPtr) : State :=
  { s with globalTasks := s.globalTasks.move (fun t u => s.pidOf t ≤ s.pidOf u) () t }

def siblingAdd (t parent : TaskPtr) (s : State) : Except Fault State :=
  if s.siblings.link t = none then .ok (s.adopt parent t) else .error .assertion

def globalAdd (t : TaskPtr) (s : State) : Except Fault State :=
  if s.globalTasks.link t = none then .ok (s.enlist t) else .error .assertion

def delist (s : State) (t : TaskPtr) : State := { s with globalTasks := s.globalTasks.erase t }

def globalDel (t : TaskPtr) (s : State) : Except Fault State :=
  if s.globalTasks.link t = none then .error .assertion else .ok (s.delist t)

/-- The element with the highest priority is the last. -/
def queueTop (s : State) (h : Head) : Option TaskPtr := (s.queues.members h).getLast?

def setCtl (s : State) (c : Ctl) : State := { s with ctl := c }

def ret (v : Int) (s : State) : Except Fault State :=
  .ok ((s.observe (.returned s.current v)).setCtl .user)

def goOn (c : Ctl) (k : Kont) (s : State) : Except Fault State := do
  let task ← s.task s.current
  .ok ((s.setTask s.current { task with kont := k }).setCtl c)

def callSchedule (k : Kont) (s : State) : Except Fault State := s.goOn .sched k

def continueAt (k : Kont) (s : State) : Except Fault State := s.goOn .resume k

end State
end DominOS.Process
