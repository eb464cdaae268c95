import DominOS.ProcessTask

/-! start.c, exit.c, kill.c, wait.c, prio.c and `wait_clock`: the life of a task. -/
namespace DominOS.Process

/-- What `start` is called with, and what it finds: whether the name is that of an
app and how many bytes that has, whether a task struct and whether the page frames can
be allocated. -/
structure StartArgs where
  known : Bool
  code : Nat
  ssize : Nat
  prio : Int
  memory : Bool
  frames : Bool

/-- `UINT32_MAX - current_clock()`, stored in an int. -/
def deathPriority (clock : Nat) : Int := Int.bmod ((2 ^ 32 - 1 - clock : Nat) : Int) (2 ^ 32)

namespace State

def newTask (s : State) (pid : Nat) (a : StartArgs) : Task where
  pid := pid
  state := .startup
  parent := some s.current
  priority := a.prio
  wakeTime := 0
  retval := 0
  msgVal := .none
  firstStart := true
  kont := .iret

def markPid (pid : Nat) (s : State) : State :=
  { s with pidmap := Function.update s.pidmap pid true }

def freePid (pid : Nat) (s : State) : State :=
  { s with pidmap := Function.update s.pidmap pid false }

def allocTask (pid : Nat) (a : StartArgs) (s : State) : State :=
  { (s.memory (.alloc s.fresh a.code a.ssize)).setTask s.fresh (s.newTask pid a) with
    fresh := s.fresh + 1 }

def launch (pid : Nat) (a : StartArgs) (s : State) : Except Fault State := do
  let s₁ ← (s.allocTask pid a).siblingAdd s.fresh s.current
  let s₂ ← s₁.setTaskReady s.fresh
  s₂.globalAdd s.fresh

def start (a : StartArgs) (s : State) : Except Fault State :=
  if a.ssize > ustackSzMax then s.ret (-einval)
  else if ¬ a.known then s.ret (-einval)
  else if a.prio > maxPrio ∨ a.prio < minPrio then s.ret (-einval)
  else match allocPid s.pidmap with
    | none => s.ret (-eagain)
    | some pid =>
      let s := s.markPid pid
      -- the pid is not given back
      if ¬ a.memory then s.ret (-eagain)
      else if ¬ a.frames then .error .panic
      else do
        let child := s.fresh
        let s ← s.launch pid a
        let current ← s.task s.current
        if a.prio ≥ current.priority then s.callSchedule (.startRet child)
        else s.continueAt (.startRet child)

def unlockInterruptedChildParent (parent : Option TaskPtr) (s : State) : Except Fault State :=
  match parent with
  | none => .error .dangling
  | some parent => do
    if (← s.task parent).state = .interruptedChild then s.setTaskReady parent else .ok s

def exitTask (t : TaskPtr) (retval : Int) (s : State) : Except Fault (Int × State) := do
  if t = s.idle then .ok (-einval, s)
  else
    let task ← s.task t
    if task.state = .zombie then .ok (-esrch, s)
    else
      let task := { task with priority := deathPriority s.totalTicks }
      let s := s.setTask t task
      let s ← (if (s.queueFromMsg task.pid).isSome then s.queueDel t else .ok s)
      let s ← s.globalDel t
      let s := (s.freePid task.pid).setTask t { task with retval := retval }
      let s ← (s.observe (.exited t retval)).setTaskZombie t
      let s ← s.unlockInterruptedChildParent task.parent
      .ok (0, s)

/-- `exit` never returns; `page_fault_handler` calls it with 0. -/
def exit (retval : Int) (s : State) : Except Fault State := do
  let (_, s) ← s.exitTask s.current retval
  s.callSchedule .exitPanic

def pageFault (s : State) : Except Fault State := s.exit 0

def kill (pid : Int) (s : State) : Except Fault State :=
  match s.pidToTask pid with
  | none => s.ret (-esrch)
  | some t =>
    if t = s.idle then s.ret (-einval)
    else do
      let (ret, s) ← s.exitTask t 0
      if t = s.current then s.callSchedule (.ret ret) else s.ret ret

def isZombie (s : State) (t : TaskPtr) : Except Fault Bool := do
  .ok (decide ((← s.task t).state = .zombie))

def findZombie (s : State) : List TaskPtr → Except Fault (Option TaskPtr)
  | [] => .ok none
  | child :: rest => do if ← s.isZombie child then .ok (some child) else s.findZombie rest

def reapChild (child : TaskPtr) (s : State) : Except Fault State := do
  let task ← s.task child
  let s ← s.freeTask child
  (s.observe (.reaped s.current child task.pid task.retval)).ret task.pid

/-- `__wait_any_child`, from the test of its loop on. -/
def waitAnyChild (retvalp : UserPtr) (s : State) : Except Fault State :=
  if s.siblings.members s.current = [] then s.ret (-echild)
  else do
    match ← s.findZombie (s.siblings.members s.current) with
    | some child => s.reapChild child
    | none =>
      let s ← s.setTaskInterruptedChild s.current
      s.callSchedule (.waitAnyChild retvalp)

/-- The inner loop of `__wait_specific_child`. -/
def waitSpecificChild (child : TaskPtr) (retvalp : UserPtr) (s : State) : Except Fault State := do
  if ← s.isZombie child then s.reapChild child
  else
    let s ← s.setTaskInterruptedChild s.current
    s.callSchedule (.waitSpecificChild child retvalp)

/-- `retvalp` is checked here, before anything is read or written. -/
def waitpid (pid : Int) (retvalp : UserPtr) (s : State) : Except Fault State :=
  if retvalp ≠ .null ∧ retvalp ≠ .mapped then s.ret (-1)
  else if pid ≤ 0 then s.continueAt (.waitAnyChild retvalp)
  else if s.pidToTask pid = some s.idle then s.ret (-einval)
  else match (s.siblings.members s.current).find? (s.hasPid pid) with
    | none => s.ret (-echild)
    | some child => s.continueAt (.waitSpecificChild child retvalp)

def getprio (pid : Int) (s : State) : Except Fault State :=
  match s.pidToTask pid with
  | none => s.ret (-esrch)
  | some t => do s.ret (← s.task t).priority

def queueUpdate (t : TaskPtr) (h : Head) (s : State) : Except Fault State := do
  let s ← s.queueDel t
  s.queueAdd t h

def updateQueuePriority (t : TaskPtr) (task : Task) (s : State) : Except Fault State :=
  match s.queueFromState task.state task.pid with
  | none => .ok s
  | some h => s.queueUpdate t h

/-- `msg_reinsert`; without a list `queue_add` follows NULL. -/
def msgReinsert (t : TaskPtr) (pid : Nat) (s : State) : Except Fault State :=
  match s.queueFromMsg pid with
  | none => do
    let _ ← s.queueDel t
    .error .wildWrite
  | some h => s.queueUpdate t h

def chprio (pid priority : Int) (s : State) : Except Fault State :=
  match s.pidToTask pid with
  | none => s.ret (-esrch)
  | some t =>
    if t = s.idle then s.ret (-einval)
    else do
      let task ← s.task t
      if task.state = .zombie then s.ret (-esrch)
      else if priority > maxPrio ∨ priority < minPrio then s.ret (-einval)
      else
        let s := s.setTask t { task with priority := priority }
        let s ← s.updateQueuePriority t task
        if task.state = .interruptedMsg then do
          let s ← s.msgReinsert t task.pid
          s.ret task.priority
        else if t ≠ s.current then do
          let current ← s.task s.current
          if task.state = .ready ∧ priority > current.priority then
            s.callSchedule (.ret task.priority)
          else s.ret task.priority
        else match s.queueTop .ready with
          | none => s.pageFault
          | some highest => do
            if (← s.task highest).priority > priority then s.callSchedule (.ret task.priority)
            else s.ret task.priority

def waitClock (clock : Nat) (s : State) : Except Fault State := do
  let task ← s.task s.current
  let s := s.setTask s.current { task with wakeTime := clock % 2 ^ 32 }
  let s ← s.setTaskSleeping s.current
  s.callSchedule (.ret 0)

end State
end DominOS.Process
