import DominOS.Keyboard
import DominOS.Paging
import DominOS.ProcessMachine

/-! The system calls that are given pointers by user code, with the addresses that the kernel
accesses through them, over the processes, what each of them has mapped, and the keyboard. -/
namespace DominOS.UserAccess
open Process (TaskPtr StartArgs Syscall UserPtr Kont Fault)
open Paging (Dir)
open Keyboard (Kbd Byte Reading)

abbrev Addr := BitVec 32

def bytes (p : Addr) (n : Nat) : List Addr := (List.range n).map fun i => p + BitVec.ofNat 32 i

def intAt (p : Addr) : List Addr := if p = 0 then [] else bytes p 4

def isUserAddr (dir : Dir) (a : Addr) : Bool := Paging.isUserAddr dir a.toNat

def isPresent (dir : Dir) (a : Addr) : Bool := (dir.entry a.toNat).isSome

def pointee (dir : Dir) (p : Addr) : UserPtr :=
  if p = 0 then .null
  else if (bytes p 4).all (isPresent dir) then
    if (bytes p 4).all (isUserAddr dir) then .mapped else .kernel
  else .unmapped

/-- What `waitpid` takes `retvalp` for: it looks at one byte. -/
def checked (dir : Dir) (p : Addr) : UserPtr :=
  if p = 0 then .null else if isUserAddr dir p then .mapped else .kernel

structure Reader where
  string : Addr
  reading : Reading

def Reader.stores (k : Kbd) (r : Reader) : List Addr :=
  let c := k.keyboardBuffer k.indexRead
  if r.reading.charLength = r.reading.length ∨ c = 0 ∨ c = Keyboard.cr then []
  else [r.string + BitVec.ofNat 32 r.reading.charLength]

/-- The bytes that `strnlen` reads, up to a 0 or a page that is not there. -/
def strnlenReads (dir : Dir) (memory : Addr → Byte) : Nat → Addr → List Addr
  | 0, _ => []
  | maxlen + 1, s =>
    if isPresent dir s ∧ memory s ≠ 0 then s :: strnlenReads dir memory maxlen (s + 1) else [s]

structure Machine where
  procs : Process.State
  dirs : TaskPtr → Dir
  args : TaskPtr → Addr
  kbd : Kbd
  readers : TaskPtr → Option Reader

/-- The calls, with what they find: `start` the directory of the new task, `cons_write` the memory
of the caller, and those of shm.c the directory that they leave the caller with. -/
inductive Call where
  | start (a : StartArgs) (dir : Dir)
  | waitpid (pid : Int) (retvalp : Addr)
  | pcount (id : Int) (count : Addr)
  | preceive (id : Int) (message : Addr)
  | clockSettings (quartz ticks : Addr)
  | consRead (string : Addr) (length : BitVec 32)
  | consWrite (str : Addr) (size : BitVec 32) (memory : Addr → Byte)
  | consEcho (on : Int)
  | shm (dir : Dir)
  | plain (c : Syscall)

def isPlain : Syscall → Bool
  | .start _ | .waitpid _ _ | .pcount _ _ | .preceive _ _ => false
  | _ => true

inductive Event where
  | tick
  | kernel
  | call (c : Call)
  | turn
  | type (str : List Byte)

/-- The code `f` comes to the store through its pointer: one into the kernel would be written
through. -/
def storesThrough (f : UserPtr → Except Fault Process.State) : Bool :=
  match f .kernel with
  | .error .wildWrite => true
  | _ => false

def givesStatus (k : Kont) (s : Process.State) : Bool :=
  match k with
  | .waitAnyChild _ =>
    match s.findZombie (s.siblings.members s.current) with
    | .ok (some _) => true
    | _ => false
  | .waitSpecificChild child _ =>
    match s.isZombie child with
    | .ok true => true
    | _ => false
  | _ => false

def givesMessage (k : Kont) (s : Process.State) : Bool :=
  match k with
  | .preceiveLoop id _ rst => storesThrough fun message => s.preceiveLoop id message rst
  | .preceiveRet id _ msg => storesThrough fun message => s.preceiveRet id message msg
  | _ => false

namespace Machine

def dir (m : Machine) : Dir := m.dirs m.procs.current

def inUser (m : Machine) : Bool :=
  decide (m.procs.ctl = .user) && (m.readers m.procs.current).isNone

/-- Where the current task goes on comes to a store of the kind `gives`. -/
def resumed (gives : Kont → Process.State → Bool) (m : Machine) : List Addr :=
  match m.procs.ctl, m.procs.tasks m.procs.current with
  | .resume, some task =>
    if gives task.kont (m.procs.setTask m.procs.current { task with kont := .iret }) then
      intAt (m.args m.procs.current)
    else []
  | _, _ => []

def called (c : Call) (m : Machine) : List Addr :=
  match c with
  | .pcount id p => if storesThrough fun count => m.procs.pcount id count then intAt p else []
  | .preceive id p =>
    if storesThrough fun message => m.procs.preceive id message then intAt p else []
  | .clockSettings quartz ticks => bytes quartz 4 ++ bytes ticks 4
  | .consWrite str size memory => strnlenReads m.dir memory size.toNat str
  | _ => []

/-- The addresses in user memory that the kernel accesses in a step, through the pointers that calls
have been given. -/
def accesses (e : Event) (m : Machine) : List Addr :=
  match e with
  | .tick | .type _ => []
  | .kernel => m.resumed givesStatus ++ m.resumed givesMessage
  | .call c => if m.inUser then m.called c else []
  | .turn =>
    match m.procs.ctl, m.readers m.procs.current with
    | .user, some r => r.stores m.kbd
    | _, _ => []

def setProcs (x : Except Fault Process.State) (m : Machine) : Except Fault Machine := do
  .ok { m with procs := ← x }

/-- The kernel stores to `as` and goes on with `x`. Nothing but an absent page stops it. -/
def storing (as : List Addr) (x : Except Fault Machine) (m : Machine) : Except Fault Machine :=
  if as.all (isPresent m.dir) then
    if as.all (isUserAddr m.dir) then x else .error .wildWrite
  else m.setProcs m.procs.pageFault

def supply (dir : Dir) (m : Machine) : Machine :=
  { m with
    dirs := fun t => if (m.procs.tasks t).isSome then m.dirs t else dir
    readers := fun t => if (m.procs.tasks t).isSome then m.readers t else none }

def hold (p : Addr) (m : Machine) : Machine :=
  { m with args := Function.update m.args m.procs.current p }

def remap (dir : Dir) (m : Machine) : Machine :=
  { m with dirs := Function.update m.dirs m.procs.current dir }

def reader (o : Option Reader) (m : Machine) : Machine :=
  { m with readers := Function.update m.readers m.procs.current o }

def setKbd (kbd : Kbd) (m : Machine) : Machine := { m with kbd := kbd }

def handle (c : Call) (m : Machine) : Except Fault Machine :=
  match c with
  | .start a dir => (m.supply dir).setProcs (m.procs.start a)
  | .waitpid pid p => (m.hold p).setProcs (m.procs.waitpid pid (checked m.dir p))
  | .pcount id p => m.setProcs (m.procs.pcount id (pointee m.dir p))
  | .preceive id p => (m.hold p).setProcs (m.procs.preceive id (pointee m.dir p))
  | .clockSettings quartz ticks =>
    m.storing (bytes quartz 4 ++ bytes ticks 4) (m.setProcs (m.procs.ret 0))
  | .consRead string length =>
    .ok (m.reader (some ⟨string, ⟨length.toNat, 0, fun _ => 0⟩⟩))
  | .consWrite str size memory =>
    if (strnlenReads m.dir memory size.toNat str).all (isPresent m.dir) then
      m.setProcs (m.procs.ret 0)
    else m.setProcs m.procs.pageFault
  | .consEcho on => (m.setKbd { m.kbd with echo := on }).setProcs (m.procs.ret 0)
  | .shm dir => (m.remap dir).setProcs (m.procs.ret 0)
  | .plain c => if isPlain c then m.setProcs (m.procs.handle c) else .error .disabled

/-- A turn of the loop of `cons_read`: one that finds no character waits a tick. -/
def readTurn (r : Reader) (m : Machine) : Except Fault Machine :=
  let (kbd, reading, returns) := Keyboard.consRead m.kbd r.reading
  m.storing (r.stores m.kbd)
    (if returns then ((m.setKbd kbd).reader none).setProcs (m.procs.ret reading.charLength)
    else if m.kbd.keyboardBuffer m.kbd.indexRead = 0 then
      m.setProcs (m.procs.waitClock (m.procs.totalTicks + 1))
    else .ok ((m.setKbd kbd).reader (some ⟨r.string, reading⟩)))

def step (e : Event) (m : Machine) : Except Fault Machine :=
  match e with
  | .tick => if m.inUser then m.setProcs m.procs.clockHandler else .error .disabled
  | .kernel => m.storing (m.resumed givesStatus) (m.setProcs (m.procs.step .kernel))
  | .call c => if m.inUser then m.handle c else .error .disabled
  | .turn =>
    match m.procs.ctl, m.readers m.procs.current with
    | .user, some r => m.readTurn r
    | _, _ => .error .disabled
  | .type str =>
    if str.contains 0 then .error .disabled
    else if m.inUser then .ok (m.setKbd (m.kbd.keyboardData str))
    else .error .disabled

def boot (dirs : TaskPtr → Dir) : Machine :=
  ⟨.boot, dirs, fun _ => 0, Keyboard.Console.boot.kbd, fun _ => none⟩

end Machine

/-- The bytes that the call can be made to access through its pointers belong to its caller. -/
def Call.Guarded (c : Call) (m : Machine) : Prop :=
  match c with
  | .waitpid _ p => isUserAddr m.dir p = true → ∀ a ∈ intAt p, isUserAddr m.dir a = true
  | .pcount id p | .preceive id p =>
    m.procs.mqueue id ≠ .ok none → ∀ a ∈ intAt p, isUserAddr m.dir a = true
  | .clockSettings quartz ticks =>
    (∀ a ∈ bytes quartz 4, isUserAddr m.dir a = true) ∧
      ∀ a ∈ bytes ticks 4, isUserAddr m.dir a = true
  | .consRead string length => ∀ a ∈ bytes string length.toNat, isUserAddr m.dir a = true
  | .consWrite str size memory => ∀ i < size.toNat,
    (∀ j < i, memory (str + BitVec.ofNat 32 j) ≠ 0) →
      isUserAddr m.dir (str + BitVec.ofNat 32 i) = true
  | _ => True

def Guarded (m : Machine) (e : Event) : Prop := ∀ c, e = .call c → c.Guarded m

end DominOS.UserAccess
