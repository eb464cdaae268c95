import DominOS.ProcessLife

/-! msg.c: message queues of bounded size, whose senders and receivers wait in
lists by priority. `mem` is whether `mem_alloc` has memory; a store through its NULL is a
page fault, which ends the caller. -/
namespace DominOS.Process

namespace MQueue

def add (q : MQueue) (msg : Msg) : MQueue :=
  { q with count := q.count + 1, msgs := if q.count = 0 then [msg] else q.msgs ++ [msg] }

/-- `__pop_msg`, for a queue that has a head; `count` is unsigned. -/
def pop (q : MQueue) (rest : List Msg) : MQueue :=
  { q with count := if q.count = 0 then 2 ^ 32 - 1 else q.count - 1, msgs := rest }

end MQueue

namespace State

/-- `GET_MQUEUE_PTR(id)`, where NULL marks an unused queue. -/
def mqueue (id : Int) (s : State) : Except Fault (Option MQueue) :=
  if 0 ≤ id ∧ id < nbQueue then .ok (s.mqueues id.toNat) else .error .outOfBounds

def setMqueue (id : Nat) (q : MQueue) (s : State) : State :=
  { s with mqueues := Function.update s.mqueues id (some q) }

def firstAvailableQueue (s : State) : Option Nat :=
  (List.range nbQueue).find? fun id => (s.mqueues id).isNone

def allocMqueue (id count : Nat) (s : State) : State :=
  (s.setMqueue id ⟨count, 0, []⟩).asked (.alloc id count)

def addMsg (id : Nat) (q : MQueue) (msg : Msg) (s : State) : State :=
  (s.setMqueue id (q.add msg)).asked (.add id msg.data)

def popMsg (id : Nat) (q : MQueue) (rest : List Msg) (s : State) : State :=
  (s.setMqueue id (q.pop rest)).asked (.pop id)

def pcreate (count : Int) (s : State) (mem : Bool := true) : Except Fault State :=
  if count > int16Max then s.ret (-3)
  else if count ≤ 0 then s.ret (-2)
  else match s.firstAvailableQueue with
    | none => s.ret (-1)
    | some id => if mem then (s.allocMqueue id count.toNat).ret id else s.pageFault

def setMsgVal (t : TaskPtr) (msg : Msg) (s : State) : Except Fault State := do
  let task ← s.task t
  .ok (s.setTask t { task with msgVal := msg })

def handOver (id : Nat) (msg : Msg) (last : TaskPtr) (s : State) : Except Fault State := do
  let s ← s.queueDel last
  let s ← s.setMsgVal last msg
  let s := (s.observe (.entered id msg)).observe (.taken id msg)
  s.setTaskReadyOrRunning last (.psendRet id msg)

def psendRet (id : Nat) (msg : Msg) (s : State) : Except Fault State :=
  (s.observe (.sent id msg)).ret 0

def psendAdd (id : Nat) (msg : Msg) (s : State) (mem : Bool := true) : Except Fault State :=
  match s.mqueues id with
  | none => s.pageFault
  | some q =>
    if mem then ((s.addMsg id q msg).observe (.entered id msg)).psendRet id msg else s.pageFault

/-- `psend` from the test of its loop on; `rst` is `cpt_rst` as it was at the call. -/
def psendLoop (id : Nat) (msg : Msg) (rst : Nat) (s : State) (mem : Bool := true) :
    Except Fault State :=
  match s.mqueues id with
  | none => s.pageFault
  | some q => do
    let task ← s.task s.current
    if q.count = q.size ∧ task.msgVal.data ≠ -1 then
      let s ← s.queueAdd s.current (.waitingSenders id)
      s.setTaskInterruptedMsg s.current (.psendLoop id msg rst)
    else if rst < s.cptRst then s.ret (-1)
    else if task.msgVal.data = -1 then s.psendRet id msg
    else match s.queueTop (.waitingReceivers id) with
      | none => s.psendAdd id msg mem
      | some last =>
        let s ← s.queueDel last
        s.setTaskReadyOrRunning last (.psendAdd id msg)

def called (s : State) (id : Nat) (msg : Msg) : State :=
  { s.observe (.psend id msg) with sends := s.sends + 1 }

def psend (id : Int) (data : Int) (s : State) (mem : Bool := true) : Except Fault State := do
  match ← s.mqueue id with
  | none => s.ret (-1)
  | some _ =>
    let id := id.toNat
    let msg : Msg := ⟨data, s.sends⟩
    let s := s.called id msg
    match s.queueTop (.waitingReceivers id) with
    | some last => s.handOver id msg last
    | none =>
      let s ← s.setMsgVal s.current msg
      s.psendLoop id msg s.cptRst mem

/-- `*message = msg` without a check of the pointer, and the return. -/
def preceiveRet (id : Nat) (message : UserPtr) (msg : Msg) (s : State) : Except Fault State :=
  match message with
  | .null | .mapped => (s.observe (.received id msg)).ret 0
  | .unmapped => s.pageFault
  | .kernel => .error .wildWrite

/-- What `preceive` takes when a sender waits: the message, the queue after it, what
stays in the `msg_val` of the sender, and what is observed and called, newest first. -/
structure Take where
  msg : Msg
  queue : MQueue
  left : Msg
  seen : List Obs
  calls : List MsgCall

def takeWith (id : Nat) (q : MQueue) (pulled : Msg) : Option Take :=
  if q.count = q.size ∧ pulled.data ≠ -1 then
    match q.msgs with
    | [] => none
    | msg :: rest =>
      some ⟨msg, (q.pop rest).add pulled, .none, [.entered id pulled, .taken id msg],
        [.add id pulled.data, .pop id]⟩
  else if q.count = 0 then some ⟨pulled, q, .none, [.taken id pulled, .entered id pulled], []⟩
  else match q.msgs with
    | [] => none
    | msg :: rest => some ⟨msg, q.pop rest, pulled, [.taken id msg], [.pop id]⟩

/-- `__add_msg` has no memory for the message of the sender, who is in no list now; the first
message is popped, and goes with the caller. -/
def takeRefused (id : Nat) (q : MQueue) (s : State) : Except Fault State :=
  match q.msgs with
  | [] => s.pageFault
  | msg :: rest => ((s.popMsg id q rest).observe (.taken id msg)).pageFault

/-- `preceive` takes a message and wakes the sender `last`. -/
def takeFrom (id : Nat) (message : UserPtr) (q : MQueue) (last : TaskPtr) (s : State)
    (mem : Bool := true) : Except Fault State := do
  let s ← s.queueDel last
  let sender ← s.task last
  if ¬mem ∧ q.count = q.size ∧ sender.msgVal.data ≠ -1 then s.takeRefused id q
  else match takeWith id q sender.msgVal with
    | none => s.pageFault
    | some take =>
      let s ← ({ s.setMqueue id take.queue with
        trace := take.seen ++ s.trace
        msgCalls := take.calls ++ s.msgCalls }).setMsgVal last take.left
      s.setTaskReadyOrRunning last (.preceiveRet id message take.msg)

def observeLost (id : Nat) (msg : Msg) (s : State) : State :=
  if msg.data = -1 then s else s.observe (.dropped id msg)

/-- `preceive` from the test of its loop on. -/
def preceiveLoop (id : Nat) (message : UserPtr) (rst : Nat) (s : State) (mem : Bool := true) :
    Except Fault State := do
  let task ← s.task s.current
  match s.mqueues id with
  | none => (s.observeLost id task.msgVal).pageFault
  | some q =>
    if q.count = 0 ∧ task.msgVal.data = -1 then
      let s ← s.queueAdd s.current (.waitingReceivers id)
      s.setTaskInterruptedMsg s.current (.preceiveLoop id message rst)
    else if rst < s.cptRst then (s.observeLost id task.msgVal).ret (-1)
    else if task.msgVal.data ≠ -1 then
      let s ← s.setMsgVal s.current .none
      s.preceiveRet id message task.msgVal
    else match s.queueTop (.waitingSenders id) with
      | some last => s.takeFrom id message q last mem
      | none =>
        match q.msgs with
        | [] => s.pageFault
        | msg :: rest =>
          ((s.popMsg id q rest).observe (.taken id msg)).preceiveRet id message msg

def preceive (id : Int) (message : UserPtr) (s : State) (mem : Bool := true) : Except Fault State := do
  match ← s.mqueue id with
  | none => s.ret (-1)
  | some _ =>
    let s ← s.setMsgVal s.current .none
    s.preceiveLoop id.toNat message s.cptRst mem

def release (s : State) (t : TaskPtr) : Except Fault State := do
  let s ← s.queueDel t
  s.setTaskReady t

def observeDropped (id : Nat) (msgs : List Msg) (s : State) : State :=
  { s with trace := (msgs.map (Obs.dropped id)).reverse ++ s.trace }

def freeMqueue (id : Nat) (q : MQueue) (s : State) : State :=
  { ((s.observeDropped id q.msgs).observe (.emptied id)).asked (.free id) with
    mqueues := Function.update s.mqueues id none }

def bump (id : Nat) (s : State) : State :=
  { s.observe (.reset id) with cptRst := s.cptRst + 1 }

def bumpCptRst (id : Nat) (s : State) : Except Fault State :=
  if s.cptRst < intMax then .ok (s.bump id) else .error .overflow

/-- `pdelete` of a used queue: everybody who waits is ready, the messages are gone. -/
def deleteQueue (id : Nat) (q : MQueue) (s : State) : Except Fault State := do
  let s ← s.bumpCptRst id
  let s ← (s.queues.members (.waitingSenders id)).reverse.foldlM release s
  let s ← (s.queues.members (.waitingReceivers id)).reverse.foldlM release s
  .ok (s.freeMqueue id q)

def pdelete (id : Int) (s : State) : Except Fault State := do
  match ← s.mqueue id with
  | none => s.ret (-1)
  | some q =>
    let s ← s.deleteQueue id.toNat q
    s.ret 0

def preset (id : Int) (s : State) (mem : Bool := true) : Except Fault State := do
  match ← s.mqueue id with
  | none => s.ret (-1)
  | some q =>
    let s ← s.bumpCptRst id.toNat
    let s ← s.deleteQueue id.toNat q
    if mem then (s.allocMqueue id.toNat q.count).ret 0 else s.pageFault

def countOf (id : Nat) (q : MQueue) (s : State) : Int :=
  if q.count = 0 then -((s.queues.members (.waitingReceivers id)).length : Int)
  else ((s.queues.members (.waitingSenders id)).length : Int) + q.count

def pcount (id : Int) (count : UserPtr) (s : State) : Except Fault State := do
  match ← s.mqueue id with
  | none => s.ret (-1)
  | some q =>
    match count with
    | .null => s.ret 0
    | .mapped => (s.observe (.counted id.toNat (s.countOf id.toNat q))).ret 0
    | .unmapped => s.pageFault
    | .kernel => .error .wildWrite

end State
end DominOS.Process
