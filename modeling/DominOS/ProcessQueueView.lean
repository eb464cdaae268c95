import DominOS.ProcessOccupancy
import DominOS.Unwinding

/-! One message queue by itself: what it holds, who waits for it and who is inside a call on it,
and what the calls and what befalls these tasks do to that. -/
namespace DominOS.Process
open IntrusiveLists MsgHeap Unwinding

/-- What a task inside a call on the queue has still to do. A call is `live` as long as no queue has
been deleted or reset since it was made. -/
inductive Part where
  | sending (priority msgVal msg : Int) (live : Bool)
  | sent
  | receiving (priority msgVal : Int) (message : UserPtr) (live : Bool)
  | received (message : UserPtr) (msg : Int)
deriving DecidableEq

namespace Part

def priority : Part → Int
  | sending p .. | receiving p .. => p
  | _ => 0

def live : Part → Bool
  | sending _ _ _ l | receiving _ _ _ l => l
  | _ => false

def ranked (p : Int) : Part → Part
  | sending _ v m l => sending p v m l
  | receiving _ v m l => receiving p v m l
  | part => part

def setMsgVal (v : Int) : Part → Part
  | sending p _ m l => sending p v m l
  | receiving p _ m l => receiving p v m l
  | part => part

def msgVal : Part → Int
  | sending _ v .. | receiving _ v .. => v
  | _ => -1

def stale : Part → Part
  | sending p v m _ => sending p v m false
  | receiving p v m _ => receiving p v m false
  | part => part

end Part

@[ext] structure QueueView where
  queue : Option Contents
  senders : List TaskPtr
  receivers : List TaskPtr
  inside : TaskPtr → Option Part

/-- What concerns the queue: a call on it, a task inside one that goes on, gets a new priority or
dies, its own creation, and a reset of another queue while a call on it is live. -/
inductive QueueAct where
  | psend (t : TaskPtr) (priority data : Int)
  | preceive (t : TaskPtr) (priority : Int) (message : UserPtr)
  | resume (t : TaskPtr)
  | chprio (t : TaskPtr) (priority : Int)
  | die (t : TaskPtr)
  | pcreate (size : Nat)
  | pdelete (t : TaskPtr)
  | preset (t : TaskPtr)
  | outdate
deriving DecidableEq

inductive QueueResult where
  | received (t : TaskPtr) (data : Int)
  | returned (t : TaskPtr) (v : Int)
deriving DecidableEq

def QueueAct.caller : QueueAct → Option TaskPtr
  | .psend t .. | .preceive t .. | .resume t | .pdelete t | .preset t => some t
  | _ => none

namespace QueueView

def put (t : TaskPtr) (part : Option Part) (v : QueueView) : QueueView :=
  { v with inside := Function.update v.inside t part }

def drop (t : TaskPtr) (v : QueueView) : QueueView :=
  { v with senders := v.senders.erase t, receivers := v.receivers.erase t }

def before (v : QueueView) (t u : TaskPtr) : Prop :=
  ((v.inside t).elim 0 Part.priority) ≤ (v.inside u).elim 0 Part.priority

instance (v : QueueView) : DecidableRel v.before := fun _ _ => inferInstanceAs (Decidable (_ ≤ _))

def joinSenders (t : TaskPtr) (v : QueueView) : QueueView :=
  { v with senders := (v.senders.erase t).orderedInsert v.before t }

def joinReceivers (t : TaskPtr) (v : QueueView) : QueueView :=
  { v with receivers := (v.receivers.erase t).orderedInsert v.before t }

def give (t : TaskPtr) (data : Int) (v : QueueView) : QueueView :=
  v.put t ((v.inside t).map (Part.setMsgVal data))

def sendLoop (t : TaskPtr) (priority msgVal msg : Int) (live : Bool) (v : QueueView) :
    QueueView × List QueueResult :=
  match v.queue with
  | none => (v, [])
  | some q =>
    if q.data.length = q.size ∧ msgVal ≠ -1 then
      ((v.put t (some (.sending priority msgVal msg live))).joinSenders t, [])
    else if live = false then (v, [.returned t (-1)])
    else if msgVal = -1 then (v, [.returned t 0])
    else ({ v with queue := some { q with data := q.data ++ [msg] } }, [.returned t 0])

def receiveRet (t : TaskPtr) (message : UserPtr) (msg : Int) (v : QueueView) :
    QueueView × List QueueResult :=
  match message with
  | .null | .mapped => (v, [.received t msg, .returned t 0])
  | _ => (v, [])

/-- The first message is taken; the sender that has waited longest at the highest priority puts
its own in the queue. -/
def takeFirst (t : TaskPtr) (message : UserPtr) (size : Nat) (msg : Int) (rest : List Int)
    (v : QueueView) : QueueView × List QueueResult :=
  match v.senders.getLast? with
  | none => { v with queue := some ⟨size, rest⟩ }.receiveRet t message msg
  | some u =>
    let pulled := (v.inside u).elim (-1) Part.msgVal
    ((({ v with queue := some ⟨size, rest ++ [pulled]⟩ }.drop u).give u (-1)).put t
      (some (.received message msg)), [])

def receiveLoop (t : TaskPtr) (priority msgVal : Int) (message : UserPtr) (live : Bool)
    (v : QueueView) : QueueView × List QueueResult :=
  match v.queue with
  | none => (v, [])
  | some q =>
    if q.data = [] ∧ msgVal = -1 then
      ((v.put t (some (.receiving priority msgVal message live))).joinReceivers t, [])
    else if live = false then (v, [.returned t (-1)])
    else if msgVal ≠ -1 then v.receiveRet t message msgVal
    else match q.data with
      | [] => (v, [])
      | msg :: rest => v.takeFirst t message q.size msg rest

def psend (t : TaskPtr) (priority data : Int) (v : QueueView) : QueueView × List QueueResult :=
  match v.queue with
  | none => (v, [.returned t (-1)])
  | some _ =>
    match v.receivers.getLast? with
    | some u => (((v.drop u).give u data).put t (some .sent), [])
    | none => v.sendLoop t priority data data true

def preceive (t : TaskPtr) (priority : Int) (message : UserPtr) (v : QueueView) :
    QueueView × List QueueResult :=
  match v.queue with
  | none => (v, [.returned t (-1)])
  | some _ => v.receiveLoop t priority (-1) message true

def resume (t : TaskPtr) (v : QueueView) : QueueView × List QueueResult :=
  match v.inside t with
  | none => (v, [])
  | some (.sending p val msg live) => (v.put t none).sendLoop t p val msg live
  | some .sent => (v.put t none, [.returned t 0])
  | some (.receiving p val message live) => (v.put t none).receiveLoop t p val message live
  | some (.received message msg) => (v.put t none).receiveRet t message msg

def chprio (t : TaskPtr) (p : Int) (v : QueueView) : QueueView :=
  let w := v.put t ((v.inside t).map (Part.ranked p))
  if t ∈ v.senders then w.joinSenders t else if t ∈ v.receivers then w.joinReceivers t else w

def outdated (v : QueueView) : QueueView := { v with inside := fun t => (v.inside t).map Part.stale }

def deleted (q : Option Contents) (v : QueueView) : QueueView :=
  { v.outdated with queue := q, senders := [], receivers := [] }

def step : QueueAct → QueueView → QueueView × List QueueResult
  | .psend t p data, v => v.psend t p data
  | .preceive t p message, v => v.preceive t p message
  | .resume t, v => v.resume t
  | .chprio t p, v => (v.chprio t p, [])
  | .die t, v => ((v.drop t).put t none, [])
  | .pcreate size, v => ({ v with queue := some ⟨size, []⟩ }, [])
  | .pdelete t, v =>
    match v.queue with
    | none => (v, [.returned t (-1)])
    | some _ => (v.deleted none, [.returned t 0])
  | .preset t, v =>
    match v.queue with
    | none => (v, [.returned t (-1)])
    | some q => (v.deleted (some ⟨q.data.length, []⟩), [.returned t 0])
  | .outdate, v => (v.outdated, [])

end QueueView

def Task.part (k : Task) (id cptRst : Nat) : Option Part :=
  match k.kont with
  | .psendLoop j msg rst =>
    if j = id then some (.sending k.priority k.msgVal.data msg.data (decide (¬ rst < cptRst))) else none
  | .psendRet j _ => if j = id then some .sent else none
  | .preceiveLoop j message rst =>
    if j = id then some (.receiving k.priority k.msgVal.data message (decide (¬ rst < cptRst))) else none
  | .preceiveRet j message msg => if j = id then some (.received message msg.data) else none
  | _ => none

def Obs.result (t : TaskPtr) : Obs → Option QueueResult
  | .returned u v => some (.returned u v)
  | .received _ msg => some (.received t msg.data)
  | _ => none

namespace State

def part (s : State) (id : Nat) (t : TaskPtr) : Option Part :=
  match s.tasks t with
  | some k => if k.state = .zombie then none else k.part id s.cptRst
  | none => none

def view (id : Nat) (s : State) : QueueView where
  queue := s.contents id
  senders := s.queues.members (.waitingSenders id)
  receivers := s.queues.members (.waitingReceivers id)
  inside := s.part id

/-- Some task is inside a live call on queue `id`. -/
def LiveCalls (id : Nat) (s : State) : Prop := ∃ t < s.fresh, (s.part id t).elim false Part.live = true

instance (id : Nat) (s : State) : Decidable (s.LiveCalls id) :=
  inferInstanceAs (Decidable (∃ t < s.fresh, _))

/-- A reset of queue `j`, which makes the live calls on queue `id` outdated. -/
def resetAct (id : Nat) (j : Int) (a : QueueAct) (s : State) : Option QueueAct :=
  if j = id then some a
  else if (s.contents j.toNat).isSome ∧ s.LiveCalls id then some .outdate
  else none

def callAct (id : Nat) (s : State) : Syscall → Option QueueAct
  | .psend j data => if j = id then some (.psend s.current (s.priorityOf s.current) data) else none
  | .preceive j message =>
    if j = id then some (.preceive s.current (s.priorityOf s.current) message) else none
  | .pdelete j => s.resetAct id j (.pdelete s.current)
  | .preset j => s.resetAct id j (.preset s.current)
  | .pcreate count =>
    if 0 < count ∧ count ≤ int16Max ∧ s.firstAvailableQueue = some id then some (.pcreate count.toNat)
    else none
  | .chprio pid p =>
    match s.pidToTask pid with
    | some t => if (s.part id t).isSome ∧ minPrio ≤ p ∧ p ≤ maxPrio then some (.chprio t p) else none
    | none => none
  | .kill pid =>
    match s.pidToTask pid with
    | some t => if (s.part id t).isSome then some (.die t) else none
    | none => none
  | _ => none

def act (id : Nat) (e : Event) (s : State) : Option QueueAct :=
  match e, s.ctl with
  | .call c, .user => s.callAct id c
  | .kernel, .resume => if (s.part id s.current).isSome then some (.resume s.current) else none
  | _, _ => none

def results (id : Nat) (e : Event) (s s' : State) : List QueueResult :=
  match (s.act id e).bind QueueAct.caller with
  | some t => (s'.trace.take (s'.trace.length - s.trace.length)).reverse.filterMap (Obs.result t)
  | none => []

def window (id : Nat) : Window Event State QueueView QueueAct QueueResult := ⟨view id, act id, results id⟩

end State
end DominOS.Process
