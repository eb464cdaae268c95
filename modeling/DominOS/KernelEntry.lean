import DominOS.X86

/-! The ways into the kernel: the descriptor table that processor_structs.c and interrupts.c
fill in, isr.S, syscall_asm.S, and the wrappers of user/lib/syscall.c. -/
namespace DominOS.KernelEntry
open X86

inductive Handler where
  | clockHandler | keyboardHandler | pageFaultHandler
deriving DecidableEq

inductive Isr where
  | clock | keyboard | pageFault | syscall
deriving DecidableEq

def numSyscalls : Nat := 34
def kernelCs : BitVec 16 := 0x10
def kernelDs : BitVec 16 := 0x18
def userDs : BitVec 16 := 0x4b
def trapTssBase : BitVec 16 := 0x50
def accTaskGate : BitVec 8 := 0x05
def accP : BitVec 8 := 0x80

/-- Where the linker has put the entry code, the table `syscalls` and `num_syscalls`. -/
structure Image where
  isr : Isr → Word
  syscalls : Word
  numSyscallsAt : Word
  distinct : Function.Injective isr

/-- The words of an entry as `fill_gate` computes them. -/
def fillGate (offset : Word) (selector : BitVec 16) (access wordCount : BitVec 8) : IdtEntry :=
  let p0 := (offset &&& 0xffff) ||| (selector.setWidth 32) <<< 16
  let p1 := (wordCount.setWidth 32 &&& 0xf) ||| ((access ||| accP).setWidth 32) <<< 8 |||
    (offset &&& 0xffff0000)
  .ofWords p0 p1

/-- `setup_idt`: a task gate for each exception, of which user code may use the breakpoint. -/
def setupIdt (i : BitVec 8) : IdtEntry :=
  if i.toNat < 32 then
    fillGate 0 (trapTssBase + 8 * i.setWidth 16) (accTaskGate + if i = 3 then 0x60 else 0) 0
  else .ofWords 0 0

def registerInterruptHandler (number : BitVec 8) (handler : Word) (idt : BitVec 8 → IdtEntry) :
    BitVec 8 → IdtEntry :=
  Function.update idt number { idt number with
    isrLow := handler.extractLsb' 0 16
    segmentSelector := kernelCs
    gateType := 0xe
    privilegeLevel := 3
    present := 1
    isrHigh := handler.extractLsb' 16 16 }

/-- The table after `kernel_start` has called `init_clock`, `init_keyboard_handler`,
`init_page_fault_handler` and `init_syscall_handler`. -/
def Image.idt (img : Image) : BitVec 8 → IdtEntry :=
  registerInterruptHandler 49 (img.isr .syscall) <|
    registerInterruptHandler 14 (img.isr .pageFault) <|
      registerInterruptHandler 33 (img.isr .keyboard) <|
        registerInterruptHandler 32 (img.isr .clock) setupIdt

def setPrivilege (v : BitVec 16) (r : Reg) : List (Instr Handler) :=
  [.movw v r, .movSeg r .ds, .movSeg r .es, .movSeg r .fs, .movSeg r .gs]

def isrCode (body : List (Instr Handler)) : List (Instr Handler) :=
  [.push .eax, .push .edx, .push .ecx] ++ setPrivilege kernelDs .eax ++ body ++
    setPrivilege userDs .eax ++ [.pop .ecx, .pop .edx, .pop .eax, .iret]

def clockIsr : List (Instr Handler) := isrCode [.call .clockHandler]

def pageFaultIsr : List (Instr Handler) := isrCode [.call .pageFaultHandler]

def keyboardIsr : List (Instr Handler) := isrCode [.inb 0x60, .call .keyboardHandler]

/-- `syscall_isr`; eax holds the number, and is not saved. -/
def syscallIsr (img : Image) : List (Instr Handler) :=
  [.push .ebp, .push .edi, .push .esi, .push .edx, .push .ecx, .push .ebx] ++
    setPrivilege kernelDs .ecx ++
    [.load img.numSyscallsAt .ebx, .cmp .ebx .eax, .jge 1,
      .movImm img.syscalls .ebx, .lea4 .ebx .eax .ebx, .loadAt .ebx .ebx, .callPtr .ebx,
      .label 1] ++
    setPrivilege userDs .ecx ++
    [.pop .ebx, .pop .ecx, .pop .edx, .pop .esi, .pop .edi, .pop .ebp, .iret]

def Image.code (img : Image) : Isr → List (Instr Handler)
  | .clock => clockIsr
  | .keyboard => keyboardIsr
  | .pageFault => pageFaultIsr
  | .syscall => syscallIsr img

def Image.at (img : Image) (a : Word) : Option Isr :=
  [Isr.clock, .keyboard, .pageFault, .syscall].find? fun i => img.isr i = a

def entered (regs : Reg → Word) (segs : Seg → BitVec 16) (frame : List Word) : Cpu Handler where
  regs := regs
  segs := segs
  compared := (0, 0)
  stack := frame
  calls := []
  returned := false

/-- What `int n` in user code makes of the processor, where it enters code of the kernel;
what a trap task does is not part of it. -/
def Image.interrupt (img : Image) (w : World Handler) (n : BitVec 8) (c : Cpu Handler) :
    Option (Cpu Handler) :=
  match softwareInterrupt img.idt n with
  | .isr a => (img.at a).map fun i => Cpu.run w (img.code i) none c
  | .task _ | .shutdown => none

def argRegs : List Reg := [.ebx, .ecx, .edx, .esi, .edi]

/-- `DEF_SYSCALL0` to `DEF_SYSCALL5`, up to the interrupt: the number goes into eax. -/
def defSyscall (num : Word) (args : List Word) (regs : Reg → Word) : Reg → Word :=
  (argRegs.zip args).foldl (fun regs ra => Function.update regs ra.1 ra.2)
    (Function.update regs .eax num)

def defSyscall0 (num : Word) : (Reg → Word) → Reg → Word := defSyscall num []
def defSyscall1 (num a : Word) : (Reg → Word) → Reg → Word := defSyscall num [a]
def defSyscall2 (num a b : Word) : (Reg → Word) → Reg → Word := defSyscall num [a, b]
def defSyscall3 (num a b c : Word) : (Reg → Word) → Reg → Word := defSyscall num [a, b, c]
def defSyscall4 (num a b c d : Word) : (Reg → Word) → Reg → Word := defSyscall num [a, b, c, d]
def defSyscall5 (num a b c d e : Word) : (Reg → Word) → Reg → Word :=
  defSyscall num [a, b, c, d, e]

variable {img : Image} {w : World Handler} {n : BitVec 8} {regs : Reg → Word}
  {segs : Seg → BitVec 16} {frame : List Word} {c : Cpu Handler}

def Image.entry (img : Image) (w : World Handler) (k : Word) : Word := w.mem (img.syscalls + k * 4)

section Table

theorem registerInterruptHandler_of_ne {idt : BitVec 8 → IdtEntry} {m : BitVec 8} {handler : Word}
    (h : m ≠ n) : registerInterruptHandler n handler idt m = idt m := Function.update_of_ne h ..

theorem handler_split (a : Word) : a.extractLsb' 16 16 ++ a.extractLsb' 0 16 = a := by
  apply BitVec.eq_of_getLsbD_eq
  intro i hi
  simp only [BitVec.getLsbD_append, BitVec.getLsbD_extractLsb']
  by_cases h : i < 16
  · simp [h]
  · have h16 : i - 16 < 16 := by omega
    have hadd : 16 + (i - 16) = i := by omega
    simp [h, h16, hadd]

theorem registerInterruptHandler_congr {idt idt' : BitVec 8 → IdtEntry} {handler : Word}
    (h : idt n = idt' n) :
    registerInterruptHandler n handler idt n = registerInterruptHandler n handler idt' n := by
  simp only [registerInterruptHandler, Function.update_self, h]

theorem softwareInterrupt_registered {idt : BitVec 8 → IdtEntry} {handler : Word}
    (he : idt n = registerInterruptHandler n handler setupIdt n) :
    softwareInterrupt idt n = .isr handler := by
  have h0 : ∀ n, (setupIdt n).always0 = 0 := by decide +kernel
  have hreg : idt n = { setupIdt n with
      isrLow := handler.extractLsb' 0 16
      segmentSelector := kernelCs
      gateType := 0xe
      privilegeLevel := 3
      present := 1
      isrHigh := handler.extractLsb' 16 16 } := by
    rw [he, registerInterruptHandler, Function.update_self]
  have hint : (idt n).isInterrupt := by
    rw [hreg]
    exact ⟨h0 n, rfl⟩
  have htask : ¬ (idt n).isTask := fun h => by
    have hg := hint.2.symm.trans h.2
    revert hg
    decide
  have hpriv : (idt n).privilegeLevel = 3 := by rw [hreg]
  have hpres : (idt n).present = 1 := by rw [hreg]
  have hhandler : (idt n).handler = handler := by
    rw [hreg]
    exact handler_split handler
  simp [softwareInterrupt, IdtEntry.enter, hint, htask, hpriv, hpres, hhandler]

theorem idt_registered (img : Image) : softwareInterrupt img.idt 49 = .isr (img.isr .syscall) ∧
    softwareInterrupt img.idt 14 = .isr (img.isr .pageFault) ∧
    softwareInterrupt img.idt 33 = .isr (img.isr .keyboard) ∧
    softwareInterrupt img.idt 32 = .isr (img.isr .clock) := by
  have other {m k : BitVec 8} {handler : Word} {idt : BitVec 8 → IdtEntry} (h : m ≠ k)
      (hm : idt m = setupIdt m) : registerInterruptHandler k handler idt m = setupIdt m :=
    (registerInterruptHandler_of_ne h).trans hm
  unfold Image.idt
  refine ⟨softwareInterrupt_registered ?_, softwareInterrupt_registered ?_,
    softwareInterrupt_registered ?_, softwareInterrupt_registered ?_⟩
  · exact registerInterruptHandler_congr (other (by decide) (other (by decide) (other (by decide) rfl)))
  · rw [registerInterruptHandler_of_ne (by decide)]
    exact registerInterruptHandler_congr (other (by decide) (other (by decide) rfl))
  · rw [registerInterruptHandler_of_ne (by decide), registerInterruptHandler_of_ne (by decide)]
    exact registerInterruptHandler_congr (other (by decide) rfl)
  · rw [registerInterruptHandler_of_ne (by decide), registerInterruptHandler_of_ne (by decide),
      registerInterruptHandler_of_ne (by decide)]

/-- Every other vector but that of the breakpoint ends in the trap task of a protection fault. -/
theorem idt_other (h3 : n ≠ 3) (h14 : n ≠ 14) (h32 : n ≠ 32) (h33 : n ≠ 33) (h49 : n ≠ 49) :
    softwareInterrupt img.idt n = .task 0xb8 := by
  have hsame {m : BitVec 8} (h14 : m ≠ 14) (h32 : m ≠ 32) (h33 : m ≠ 33) (h49 : m ≠ 49) :
      img.idt m = setupIdt m := by
    unfold Image.idt
    rw [registerInterruptHandler_of_ne h49, registerInterruptHandler_of_ne h14,
      registerInterruptHandler_of_ne h33, registerInterruptHandler_of_ne h32]
  have hclosed : ∀ m : BitVec 8, m ≠ 3 →
      ¬ ((setupIdt m).isTask ∨ (setupIdt m).isInterrupt) ∨ (setupIdt m).privilegeLevel.toNat < 3 := by
    decide +kernel
  have hfault : (setupIdt 13).enter = .task 0xb8 := by decide +kernel
  unfold softwareInterrupt
  rw [hsame h14 h32 h33 h49, if_pos (hclosed n h3), hsame (by decide) (by decide) (by decide) (by decide)]
  exact hfault

theorem Image.at_isr (i : Isr) : img.at (img.isr i) = some i := by
  have hne {j : Isr} (hj : j ≠ i) : ¬ img.isr j = img.isr i := fun h => hj (img.distinct h)
  cases i <;> simp [Image.at, hne]

end Table

section Entry

theorem isrCode_calls {h : Handler} {body : List (Instr Handler)}
    (hb : body = [.call h] ∨ body = [.inb 0x60, .call h]) :
    (Cpu.run w (isrCode body) none c).calls.map Call.target =
      .fn h :: c.calls.map Call.target := by
  rcases hb with rfl | rfl <;>
    simp [isrCode, setPrivilege, Cpu.run, Cpu.exec, Cpu.push, Cpu.set, Cpu.enter, Cpu.pop_calls]

theorem syscall_called (hn : w.mem img.numSyscallsAt = numSyscalls) (hlt : (regs .eax).toInt < 34) :
    (Cpu.run w (syscallIsr img) none (entered regs segs frame)).calls =
      [⟨.ptr (img.entry w (regs .eax)), argRegs.map regs ++ regs .ebp :: frame⟩] := by
  have hn' : (w.mem img.numSyscallsAt).toInt = 34 := by rw [hn]; decide
  have hnot : ¬ 34 ≤ (regs .eax).toInt := by omega
  simp [syscallIsr, setPrivilege, Cpu.run, Cpu.exec, Cpu.push, Cpu.set, entered, hn', hnot, Cpu.enter, Cpu.pop_calls,
    Image.entry, argRegs]

theorem syscall_skipped (segs : Seg → BitVec 16) (frame : List Word)
    (hn : w.mem img.numSyscallsAt = numSyscalls) (hge : 34 ≤ (regs .eax).toInt) :
    ∃ segs', Cpu.run w (syscallIsr img) none (entered regs segs frame) =
      ⟨regs, segs', (w.mem img.numSyscallsAt, regs .eax), frame, [], true⟩ := by
  have hn' : (w.mem img.numSyscallsAt).toInt = 34 := by rw [hn]; decide
  simp [syscallIsr, setPrivilege, Cpu.run, Cpu.exec, Cpu.push, Cpu.pop, Cpu.set, entered, hn', hge]
  funext r
  cases r <;> rfl

end Entry

/-- What `int n` from user code can reach: the one system call that eax names, with the argument
registers in order; nothing, and back with all registers, for any other eax; and no handler of
the hardware through any other vector. -/
structure Confined (img : Image) (w : World Handler) (n : BitVec 8) (regs : Reg → Word)
    (segs : Seg → BitVec 16) (frame : List Word) : Prop where
  called : n = 49 → (regs .eax).toNat < numSyscalls →
    ∃ c, img.interrupt w n (entered regs segs frame) = some c ∧
      c.calls.map (fun k => (k.target, k.args.take 5)) =
        [(.ptr (img.entry w (regs .eax)), argRegs.map regs)]
  back : n = 49 → ¬ (regs .eax).toNat < numSyscalls →
    ∃ c, img.interrupt w n (entered regs segs frame) = some c ∧
      c.calls = [] ∧ c.returned ∧ c.regs = regs ∧ c.stack = frame
  handlers : n ≠ 49 → n ≠ 3 → ∀ c, img.interrupt w n (entered regs segs frame) = some c →
    ∀ k ∈ c.calls, ∀ h, k.target ≠ .fn h

theorem interrupt_isr {i : Isr} (h : softwareInterrupt img.idt n = .isr (img.isr i)) :
    img.interrupt w n c = some (Cpu.run w (img.code i) none c) := by
  unfold Image.interrupt
  rw [h]
  simp [Image.at_isr]

theorem handler_called (img : Image) (hn : n = 14 ∨ n = 32 ∨ n = 33) :
    ∃ h c', img.interrupt w n c = some c' ∧ c'.calls.map Call.target = .fn h :: c.calls.map Call.target := by
  obtain ⟨_, h14, h33, h32⟩ := idt_registered img
  have runs {i : Isr} {h : Handler} {body : List (Instr Handler)}
      (hi : softwareInterrupt img.idt n = .isr (img.isr i)) (hcode : img.code i = isrCode body)
      (hb : body = [.call h] ∨ body = [.inb 0x60, .call h]) :
      ∃ h c', img.interrupt w n c = some c' ∧
        c'.calls.map Call.target = .fn h :: c.calls.map Call.target :=
    ⟨h, _, interrupt_isr hi, by rw [hcode]; exact isrCode_calls hb⟩
  rcases hn with rfl | rfl | rfl
  · exact runs h14 rfl (Or.inl rfl)
  · exact runs h32 rfl (Or.inl rfl)
  · exact runs h33 rfl (Or.inr rfl)

theorem toInt_lt_iff {v : Word} : v.toInt < 34 ↔ v.toNat < 34 ∨ v.toInt < 0 := by
  have h := BitVec.toInt_eq_toNat_cond v
  have hlt := v.isLt
  split at h <;> omega

theorem defSyscall_args {num : Word} {args : List Word} (h : args.length ≤ 5) :
    defSyscall num args regs .eax = num ∧
      (argRegs.map (defSyscall num args regs)).take args.length = args := by
  match args, h with
  | [], _ => exact ⟨rfl, rfl⟩
  | [_], _ => exact ⟨rfl, rfl⟩
  | [_, _], _ => exact ⟨rfl, rfl⟩
  | [_, _, _], _ => exact ⟨rfl, rfl⟩
  | [_, _, _, _], _ => exact ⟨rfl, rfl⟩
  | [_, _, _, _, _], _ => exact ⟨rfl, rfl⟩

theorem Confined.eax (hw : w.mem img.numSyscallsAt = numSyscalls)
    (h : Confined img w 49 regs segs frame) : 0 ≤ (regs .eax).toInt := by
  by_contra hneg
  have hneg : (regs .eax).toInt < 0 := Int.not_le.mp hneg
  have hbig : ¬ (regs .eax).toNat < numSyscalls := by
    have heq := BitVec.toInt_eq_toNat_cond (regs .eax)
    unfold numSyscalls
    split at heq <;> omega
  -- a negative number is less than 34, and is called through
  obtain ⟨c, hc, hcalls, _⟩ := h.back rfl hbig
  rw [interrupt_isr (idt_registered _).1] at hc
  cases hc
  have hlt : (regs .eax).toInt < 34 := by omega
  rw [show img.code .syscall = syscallIsr img from rfl, syscall_called hw hlt] at hcalls
  cases hcalls

theorem Confined.vector (h : Confined img w n regs segs frame) : ¬ (n = 14 ∨ n = 32 ∨ n = 33) := by
  intro hn
  obtain ⟨f, c, hc, hcalls⟩ := handler_called img (w := w) (c := entered regs segs frame) hn
  have hmem : Target.fn f ∈ c.calls.map Call.target := by
    rw [hcalls]
    exact List.mem_cons_self
  obtain ⟨k, hk, ht⟩ := List.mem_map.mp hmem
  refine h.handlers ?_ ?_ c hc k hk f ht <;> rintro rfl <;> revert hn <;> decide

theorem confined_of (hw : w.mem img.numSyscallsAt = numSyscalls)
    (hpos : n = 49 → 0 ≤ (regs .eax).toInt) (hn : ¬ (n = 14 ∨ n = 32 ∨ n = 33)) :
    Confined img w n regs segs frame where
  called h49 hlt := by
    refine ⟨_, h49 ▸ interrupt_isr (idt_registered _).1, ?_⟩
    rw [show img.code .syscall = syscallIsr img from rfl,
      syscall_called hw (toInt_lt_iff.mpr (Or.inl hlt))]
    rfl
  back h49 hge := by
    have hbig : 34 ≤ (regs .eax).toInt := by
      by_contra hlt
      rcases toInt_lt_iff.mp (Int.not_le.mp hlt) with h | h
      · exact hge h
      · exact absurd (hpos h49) (Int.not_le.mpr h)
    obtain ⟨segs', hrun⟩ := syscall_skipped segs frame hw hbig
    refine ⟨_, h49 ▸ interrupt_isr (idt_registered _).1, ?_⟩
    rw [show img.code .syscall = syscallIsr img from rfl, hrun]
    exact ⟨rfl, rfl, rfl, rfl⟩
  handlers h49 h3 c hc := by
    simp only [not_or] at hn
    unfold Image.interrupt at hc
    rw [idt_other h3 hn.1 hn.2.1 hn.2.2 h49] at hc
    cases hc

/-- Entry is confined for an eax that is not negative, by a vector that no hardware uses; and
what a wrapper loads is what its system call gets. -/
theorem confined_iff (hw : w.mem img.numSyscallsAt = numSyscalls) :
    (Confined img w n regs segs frame ↔
      (n = 49 → 0 ≤ (regs .eax).toInt) ∧ ¬ (n = 14 ∨ n = 32 ∨ n = 33)) ∧
    ∀ num args, args.length ≤ 5 → defSyscall num args regs .eax = num ∧
      (argRegs.map (defSyscall num args regs)).take args.length = args := by
  refine ⟨⟨fun h => ⟨?_, h.vector⟩, fun ⟨hpos, hn⟩ => confined_of hw hpos hn⟩,
    fun num args hlen => defSyscall_args hlen⟩
  rintro rfl
  exact h.eax hw

def anImage : Image where
  isr i := match i with
    | .clock => 0x100000
    | .keyboard => 0x100100
    | .pageFault => 0x100200
    | .syscall => 0x100300
  syscalls := 0x200010
  numSyscallsAt := 0x200000
  distinct i j h := by cases i <;> cases j <;> first | rfl | exact absurd h (by decide)

def aWorld : World Handler where
  mem a := if a = 0x200000 then 34 else a
  port _ := 0
  callee _ c := c

def aFrame : List Word := [0x40000000, 0x43, 0x202, 0xffeffff8, 0x4b]

theorem confined_getpid :
    Confined anImage aWorld 49 (defSyscall0 1 fun _ => 0) (fun _ => userDs) aFrame :=
  (confined_iff (by decide)).1.mpr ⟨fun _ => by decide, by decide⟩

/-- With -1 in eax the word in front of the table is called, and `int 32` runs the clock. -/
theorem negative_number_called :
    (anImage.interrupt aWorld 49 (entered (fun _ => 0xffffffff) (fun _ => userDs) aFrame)).map
        (fun c => c.calls.map Call.target) = some [.ptr 0x20000c] ∧
      ¬ Confined anImage aWorld 49 (fun _ => 0xffffffff) (fun _ => userDs) aFrame ∧
      ¬ Confined anImage aWorld 32 (fun _ => 0) (fun _ => userDs) aFrame := by
  refine ⟨?_, fun h => ?_, fun h => h.vector (Or.inr (Or.inl rfl))⟩
  · rw [interrupt_isr (idt_registered _).1, Option.map_some,
      show anImage.code .syscall = syscallIsr anImage from rfl, syscall_called (by decide) (by decide)]
    decide
  · exact absurd (h.eax (by decide)) (by decide)

end DominOS.KernelEntry
