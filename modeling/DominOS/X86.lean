import Mathlib.Logic.Function.Basic

/-! The part of the processor that interrupt entry code uses: registers, a stack, a compare
with its jump, calls by name and by pointer, and the gates of the descriptor table. -/
namespace DominOS.X86
universe u

abbrev Word := BitVec 32

inductive Reg where
  | eax | ebx | ecx | edx | esi | edi | ebp
deriving DecidableEq

inductive Seg where
  | ds | es | fs | gs
deriving DecidableEq

inductive Target (φ : Type u) where
  | fn (f : φ)
  | ptr (a : Word)
deriving DecidableEq

/-- A call, with the words that the callee finds above its return address. -/
structure Call (φ : Type u) where
  target : Target φ
  args : List Word

inductive Instr (φ : Type u) where
  | push (r : Reg)
  | pop (r : Reg)
  | movw (v : BitVec 16) (r : Reg)
  | movSeg (r : Reg) (s : Seg)
  | movImm (v : Word) (r : Reg)
  | load (a : Word) (r : Reg)
  | loadAt (base r : Reg)
  -- base + index * 4
  | lea4 (base index r : Reg)
  | cmp (a b : Reg)
  -- to the label, when the second operand of the compare is not less, as signed numbers
  | jge (l : Nat)
  | label (l : Nat)
  | inb (port : BitVec 8)
  | call (f : φ)
  | callPtr (r : Reg)
  | iret

/-- The processor in an interrupt; `compared` are the operands of the last compare, and the
calls made so far stand newest first. -/
structure Cpu (φ : Type u) where
  regs : Reg → Word
  segs : Seg → BitVec 16
  compared : Word × Word
  stack : List Word
  calls : List (Call φ)
  returned : Bool

/-- What the processor finds in memory and at ports, and what a callee leaves. -/
structure World (φ : Type u) where
  mem : Word → Word
  port : BitVec 8 → BitVec 8
  callee : Call φ → Cpu φ → Cpu φ

namespace Cpu
variable {φ : Type u}

def set (r : Reg) (v : Word) (c : Cpu φ) : Cpu φ := { c with regs := Function.update c.regs r v }

def push (v : Word) (c : Cpu φ) : Cpu φ := { c with stack := v :: c.stack }

def pop (r : Reg) (c : Cpu φ) : Cpu φ :=
  match c.stack with
  | [] => c
  | v :: stack => { c.set r v with stack := stack }

def enter (w : World φ) (t : Target φ) (c : Cpu φ) : Cpu φ :=
  let call : Call φ := ⟨t, c.stack⟩
  { w.callee call c with calls := call :: c.calls, returned := false }

def exec (w : World φ) (i : Instr φ) (c : Cpu φ) : Cpu φ :=
  match i with
  | .push r => c.push (c.regs r)
  | .pop r => c.pop r
  | .movw v r => c.set r ((c.regs r).extractLsb' 16 16 ++ v)
  | .movSeg r s => { c with segs := Function.update c.segs s ((c.regs r).extractLsb' 0 16) }
  | .movImm v r => c.set r v
  | .load a r => c.set r (w.mem a)
  | .loadAt base r => c.set r (w.mem (c.regs base))
  | .lea4 base index r => c.set r (c.regs base + c.regs index * 4)
  | .cmp a b => { c with compared := (c.regs a, c.regs b) }
  | .inb port => c.set .eax ((c.regs .eax).extractLsb' 8 24 ++ w.port port)
  | .call f => c.enter w (.fn f)
  | .callPtr r => c.enter w (.ptr (c.regs r))
  | .jge _ | .label _ | .iret => c

/-- Run code up to its `iret`; while `target` is set, a jump looks for its label. -/
def run (w : World φ) : List (Instr φ) → Option Nat → Cpu φ → Cpu φ
  | [], _, c => c
  | .label l :: is, some target, c => run w is (if l = target then none else some target) c
  | _ :: is, some target, c => run w is (some target) c
  | .jge l :: is, none, c =>
    run w is (if c.compared.1.toInt ≤ c.compared.2.toInt then some l else none) c
  | .iret :: _, none, c => { c with returned := true }
  | i :: is, none, c => run w is none (c.exec w i)

end Cpu

theorem Cpu.pop_calls {φ : Type u} {c : Cpu φ} {r : Reg} : (c.pop r).calls = c.calls := by
  unfold Cpu.pop
  split <;> rfl

structure IdtEntry where
  isrLow : BitVec 16
  segmentSelector : BitVec 16
  ignored : BitVec 8
  gateType : BitVec 4
  always0 : BitVec 1
  privilegeLevel : BitVec 2
  present : BitVec 1
  isrHigh : BitVec 16
deriving DecidableEq

namespace IdtEntry

def ofWords (p0 p1 : Word) : IdtEntry where
  isrLow := p0.extractLsb' 0 16
  segmentSelector := p0.extractLsb' 16 16
  ignored := p1.extractLsb' 0 8
  gateType := p1.extractLsb' 8 4
  always0 := p1.extractLsb' 12 1
  privilegeLevel := p1.extractLsb' 13 2
  present := p1.extractLsb' 15 1
  isrHigh := p1.extractLsb' 16 16

def handler (e : IdtEntry) : Word := e.isrHigh ++ e.isrLow

def isTask (e : IdtEntry) : Prop := e.always0 = 0 ∧ e.gateType = 5

def isInterrupt (e : IdtEntry) : Prop := e.always0 = 0 ∧ e.gateType = 0xe

instance (e : IdtEntry) : Decidable e.isTask := inferInstanceAs (Decidable (_ ∧ _))
instance (e : IdtEntry) : Decidable e.isInterrupt := inferInstanceAs (Decidable (_ ∧ _))

end IdtEntry

/-- Where the processor goes on: at a handler, in the task of a task gate, or nowhere. -/
inductive Delivery where
  | isr (a : Word)
  | task (selector : BitVec 16)
  | shutdown
deriving DecidableEq

def IdtEntry.enter (e : IdtEntry) : Delivery :=
  if e.present = 0 then .shutdown
  else if e.isTask then .task e.segmentSelector
  else if e.isInterrupt then .isr e.handler
  else .shutdown

/-- `int n` in ring 3: a gate of higher privilege, and what is no gate, is a general
protection fault, and a gate that is not present fault 11. -/
def softwareInterrupt (idt : BitVec 8 → IdtEntry) (n : BitVec 8) : Delivery :=
  let e := idt n
  if ¬ (e.isTask ∨ e.isInterrupt) ∨ e.privilegeLevel.toNat < 3 then (idt 13).enter
  else if e.present = 0 then (idt 11).enter
  else e.enter

end DominOS.X86
