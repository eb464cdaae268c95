import DominOS.ProcessState

/-! task.c and pid_allocator.c: changes of state and list, waking, reaping and the
choice of the next task. -/
namespace DominOS.Process
namespace State

def setTaskState (t : TaskPtr) (state : TaskState) (h : Head) (s : State) :
    Except Fault State := do
  let task ← s.task t
  if task.state = state then .ok s
  else
    let s ← (if t ≠ s.current ∧ task.state ≠ .startup ∧ task.state ≠ .interruptedMsg then
      s.queueDel t else .ok s)
    queueAdd t h (s.setTask t { task with state := state })

def setTaskReady (t : TaskPtr) (s : State) : Except Fault State := s.setTaskState t .ready .ready

def setTaskSleeping (t : TaskPtr) (s : State) : Except Fault State :=
  s.setTaskState t .sleeping .sleeping

def setTaskZombie (t : TaskPtr) (s : State) : Except Fault State :=
  s.setTaskState t .zombie .zombie

def setTaskInterruptedChild (t : TaskPtr) (s : State) : Except Fault State :=
  s.setTaskState t .interruptedChild .interruptedChild

def setTaskRunning (t : TaskPtr) (s : State) : Except Fault State := do
  let task ← s.task t
  let s ← (if task.state ≠ .startup ∧ task.state ≠ .running then s.queueDel t else .ok s)
  .ok { s.setTask t { task with state := .running } with current := t }

def setTaskReadyOrRunning (t : TaskPtr) (k : Kont) (s : State) : Except Fault State := do
  let task ← s.task t
  let s ← queueAdd t .ready (s.setTask t { task with state := .ready })
  let current ← s.task s.current
  if task.priority > current.priority then s.callSchedule k else s.continueAt k

/-- The caller, which is linked into a waiting list, goes on at `k`. -/
def setTaskInterruptedMsg (t : TaskPtr) (k : Kont) (s : State) : Except Fault State := do
  let task ← s.task t
  (s.setTask t { task with state := .interruptedMsg }).callSchedule k

def wakeup (s : State) (t : TaskPtr) : Except Fault State := do
  let task ← s.task t
  if task.wakeTime ≤ s.totalTicks then (s.setTask t { task with wakeTime := 0 }).setTaskReady t
  else .ok s

def tryWakeupTasks (s : State) : Except Fault State :=
  (s.queues.members .sleeping).foldlM wakeup s

def siblingDel (t : TaskPtr) (s : State) : Except Fault State :=
  match s.siblings.link t with
  | none => .ok s
  | some parent => do
    let _ ← s.task parent
    .ok { s with siblings := s.siblings.erase t }

def freeTask (t : TaskPtr) (s : State) : Except Fault State := do
  let s ← (if s.queues.link t = none then .ok s else s.queueDel t)
  let s ← s.siblingDel t
  .ok { s.memory (.free t) with tasks := Function.update s.tasks t none }

def reap (s : State) (t : TaskPtr) : Except Fault State := do
  let task ← s.task t
  if t = s.current then .ok s
  else if task.parent = some s.idle then s.freeTask t
  else match task.parent with
    | none => .error .dangling
    | some parent => do
      if (← s.task parent).state = .zombie then s.freeTask t else .ok s

def reapZombies (s : State) : Except Fault State :=
  (s.queues.members .zombie).foldlM reap s

def switchTo (old : Task) (new : TaskPtr) (s : State) : Except Fault State := do
  let s ← (if old.state = .running then s.setTaskReady s.current else .ok s)
  let s ← s.setTaskRunning new
  let task ← s.task new
  if task.firstStart then
    .ok ((s.setTask new { task with firstStart := false }).setCtl .user)
  else .ok (s.setCtl .resume)

def chooseTask (s : State) : Except Fault State :=
  match s.queueTop .ready with
  | none => .ok (s.setCtl .resume)
  | some new => do
    let old ← s.task s.current
    let task ← s.task new
    if s.current = new ∨ old.state = .running ∧ old.priority > task.priority then
      .ok (s.setCtl .resume)
    else s.switchTo old new

def schedule (s : State) : Except Fault State := do
  let s ← s.tryWakeupTasks
  let s ← s.reapZombies
  s.chooseTask

def hasPid (s : State) (pid : Int) (t : TaskPtr) : Bool :=
  match s.tasks t with
  | some task => (task.pid : Int) == pid
  | none => false

def pidToTask (pid : Int) (s : State) : Option TaskPtr :=
  if s.hasPid pid s.current then some s.current
  else (s.globalTasks.members ()).find? (s.hasPid pid)

/-- The first list of a used queue that a task with this pid waits in. -/
def queueFromMsg (pid : Nat) (s : State) : Option Head :=
  (List.range nbQueue).findSome? fun id =>
    match s.mqueues id with
    | none => none
    | some _ =>
      if (s.queues.members (.waitingSenders id)).any (s.hasPid pid) then
        some (.waitingSenders id)
      else if (s.queues.members (.waitingReceivers id)).any (s.hasPid pid) then
        some (.waitingReceivers id)
      else none

def queueFromState (state : TaskState) (pid : Nat) (s : State) : Option Head :=
  match state with
  | .ready => some .ready
  | .zombie => some .zombie
  | .sleeping => some .sleeping
  | .interruptedChild => some .interruptedChild
  | .interruptedMsg => s.queueFromMsg pid
  | .startup | .running => none

end State

def allocPidFrom (pidmap : Nat → Bool) : Nat → Nat → Option Nat
  | 0, _ => none
  | turns + 1, pid =>
    if pidmap pid then
      if pid > pidMax then none else allocPidFrom pidmap turns (pid + 1)
    else some pid

def allocPid (pidmap : Nat → Bool) : Option Nat := allocPidFrom pidmap (pidMax + 2) 0

end DominOS.Process
