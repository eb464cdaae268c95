import DominOS.ProcessMsg
import DominOS.Runs

/-! The kernel as a machine: user code calls it, the clock interrupts user code, and
the kernel runs on from one call of `schedule` to the next. -/
namespace DominOS.Process
open IntrusiveLists

inductive Syscall where
  | start (a : StartArgs)
  | getpid
  | getprio (pid : Int)
  | chprio (pid priority : Int)
  | kill (pid : Int)
  | waitpid (pid : Int) (retvalp : UserPtr)
  | exit (retval : Int)
  | pcount (id : Int) (count : UserPtr)
  | pcreate (count : Int)
  | pdelete (id : Int)
  | preceive (id : Int) (message : UserPtr)
  | preset (id : Int)
  | psend (id : Int) (message : Int)
  | currentClock
  | waitClock (clock : Nat)

inductive Event where
  | tick
  | call (c : Syscall)
  | kernel

namespace State

def clockHandler (s : State) : Except Fault State :=
  { s with totalTicks := (s.totalTicks + 1) % 2 ^ 32 }.callSchedule .iret

def handle (c : Syscall) (s : State) (mem : Bool := true) : Except Fault State :=
  match c with
  | .start a => s.start a
  | .getpid => do s.ret (← s.task s.current).pid
  | .getprio pid => s.getprio pid
  | .chprio pid priority => s.chprio pid priority
  | .kill pid => s.kill pid
  | .waitpid pid retvalp => s.waitpid pid retvalp
  | .exit retval => s.exit retval
  | .pcount id count => s.pcount id count
  | .pcreate count => s.pcreate count mem
  | .pdelete id => s.pdelete id
  | .preceive id message => s.preceive id message mem
  | .preset id => s.preset id mem
  | .psend id message => s.psend id message mem
  | .currentClock => s.ret s.totalTicks
  | .waitClock clock => s.waitClock clock

/-- `return task->pid`; what a freed struct holds is not known, and nothing is recorded. -/
def startRet (child : TaskPtr) (s : State) : Except Fault State :=
  match s.tasks child with
  | none => .ok (s.setCtl .user)
  | some task => (s.observe (.started s.current child task.pid)).ret task.pid

/-- The kernel code of the current task from `k` on. -/
def resumeAt (k : Kont) (s : State) (mem : Bool := true) : Except Fault State :=
  match k with
  | .iret => .ok (s.setCtl .user)
  | .ret v => s.ret v
  | .startRet child => s.startRet child
  | .waitAnyChild retvalp => s.waitAnyChild retvalp
  | .waitSpecificChild child retvalp => s.waitSpecificChild child retvalp
  | .psendLoop id msg rst => s.psendLoop id msg rst mem
  | .psendAdd id msg => s.psendAdd id msg mem
  | .psendRet id msg => s.psendRet id msg
  | .preceiveLoop id message rst => s.preceiveLoop id message rst mem
  | .preceiveRet id message msg => s.preceiveRet id message msg
  | .exitPanic => .error .panic

/-- The saved context is consumed. -/
def resume (s : State) (mem : Bool := true) : Except Fault State := do
  let task ← s.task s.current
  (s.setTask s.current { task with kont := .iret }).resumeAt task.kont mem

/-- An event, and whether msg.c gets memory in it. -/
def stepWith (mem : Bool) (e : Event) (s : State) : Except Fault State :=
  match e, s.ctl with
  | .tick, .user => s.clockHandler
  | .call c, .user => s.handle c mem
  | .kernel, .sched => s.schedule
  | .kernel, .resume => s.resume mem
  | _, _ => .error .disabled

def step (e : Event) (s : State) : Except Fault State := stepWith true e s

/-- The state that `start_idle` leaves: idle has pid 0 and runs. -/
def boot : State where
  tasks t := if t = 0 then some ⟨0, .running, none, minPrio, 0, 0, ⟨0, 0⟩, false, .iret⟩ else none
  queues := .empty
  siblings := .empty
  globalTasks := Links.empty.move (fun _ _ => True) () 0
  current := 0
  idle := 0
  pidmap pid := pid == 0
  mqueues _ := none
  cptRst := 0
  totalTicks := 0
  fresh := 1
  ctl := .user
  sends := 0
  trace := []
  msgCalls := []
  taskCalls := []

end State
end DominOS.Process
