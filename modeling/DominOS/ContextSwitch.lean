import DominOS.WordMemory

/-! swtch.S and usermode.S: how the processor goes from one task to another. -/
namespace DominOS.ContextSwitch
open WordMemory

abbrev Word := BitVec 32

inductive Reg where
  | eax | ebx | ecx | edx | esi | edi | ebp | esp
deriving DecidableEq

inductive Seg where
  | cs | ss | ds | es | fs | gs
deriving DecidableEq

/-- The processor and the memory of the kernel, which is the same in every address space. -/
structure Cpu where
  regs : Reg → Word
  segs : Seg → BitVec 16
  eip : Word
  eflags : Word
  cr3 : Word
  memory : Memory

inductive Instr where
  -- `movl off(%base), %dst`
  | load (off : Word) (base dst : Reg)
  -- `movl %src, off(%base)`
  | store (src : Reg) (off : Word) (base : Reg)
  | storeAbs (src : Reg) (a : Word)
  | fromCr3 (dst : Reg)
  | toCr3 (src : Reg)
  | movAx (v : BitVec 16)
  | fromAx (s : Seg)
  | push (v : Word)
  | pushf
  -- `orl $v, (%esp)`
  | orTop (v : Word)
  | ret
  -- to user mode
  | iret

namespace Cpu

def set (r : Reg) (v : Word) (c : Cpu) : Cpu := { c with regs := Function.update c.regs r v }

def write (a v : Word) (c : Cpu) : Cpu := { c with memory := write32 a v c.memory }

def pushWord (v : Word) (c : Cpu) : Cpu :=
  (c.set .esp (c.regs .esp - 4)).write (c.regs .esp - 4) v

def top (off : Word) (c : Cpu) : Word := read32 c.memory (c.regs .esp + off)

def exec (c : Cpu) : Instr → Cpu
  | .load off base dst => c.set dst (read32 c.memory (c.regs base + off))
  | .store src off base => c.write (c.regs base + off) (c.regs src)
  | .storeAbs src a => c.write a (c.regs src)
  | .fromCr3 dst => c.set dst c.cr3
  | .toCr3 src => { c with cr3 := c.regs src }
  | .movAx v => c.set .eax ((c.regs .eax).extractLsb' 16 16 ++ v)
  | .fromAx s => { c with segs := Function.update c.segs s ((c.regs .eax).setWidth 16) }
  | .push v => c.pushWord v
  | .pushf => c.pushWord c.eflags
  | .orTop v => c.write (c.regs .esp) (c.top 0 ||| v)
  | .ret => { c.set .esp (c.regs .esp + 4) with eip := c.top 0 }
  | .iret =>
    { c.set .esp (c.top 12) with
      eip := c.top 0
      eflags := c.top 8
      segs := Function.update (Function.update c.segs .cs ((c.top 4).setWidth 16)) .ss
        ((c.top 16).setWidth 16) }

def run (is : List Instr) (c : Cpu) : Cpu := is.foldl exec c

end Cpu

def userCs : BitVec 16 := 0x43
def userDs : BitVec 16 := 0x4b
def userStart : Word := 0x40000000
def userStackBegin : Word := 0xffeffff8

def tssEsp0 : Word := 0x20004
def tssCr3 : Word := 0x2001c

/-- The registers of the caller to `old`. What is read for cr3 is not stored. -/
def saveRegs : List Instr :=
  [.load 4 .esp .eax, .store .ebx 0 .eax, .store .esp 4 .eax, .store .ebp 8 .eax,
    .store .esi 12 .eax, .store .edi 16 .eax, .load 20 .eax .ebx, .fromCr3 .ebx]

/-- The address space of `new` and the stack for its interrupts. -/
def switchSpace : List Instr :=
  [.load 20 .eax .ebx, .toCr3 .ebx, .storeAbs .ebx tssCr3, .load 24 .eax .ebx,
    .storeAbs .ebx tssEsp0]

def swtch : List Instr :=
  saveRegs ++ [.load 8 .esp .eax, .load 4 .eax .esp] ++ switchSpace ++
    [.load 0 .eax .ebx, .load 8 .eax .ebp, .load 12 .eax .esi, .load 16 .eax .edi, .ret]

/-- The end of `goto_user_mode`: the frame of an interrupt that has not been, and a return from it. -/
def enterUser : List Instr :=
  [.movAx userDs, .fromAx .ds, .fromAx .es, .fromAx .fs, .fromAx .gs,
    .push (userDs.setWidth 32), .push userStackBegin, .pushf, .orTop 0x200,
    .push (userCs.setWidth 32), .push userStart, .iret]

def gotoUserMode : List Instr := saveRegs ++ [.load 8 .esp .eax] ++ switchSpace ++ enterUser

def Cpu.saved (r : Word) (c : Cpu) : Memory :=
  write32 (r + 16) (c.regs .edi) <| write32 (r + 12) (c.regs .esi) <|
    write32 (r + 8) (c.regs .ebp) <| write32 (r + 4) (c.regs .esp) <|
      write32 (r + 0) (c.regs .ebx) c.memory

def withTss (n : Word) (m : Memory) : Memory :=
  write32 tssEsp0 (read32 (write32 tssCr3 (read32 m (n + 20)) m) (n + 24)) <|
    write32 tssCr3 (read32 m (n + 20)) m

theorem run_append (is js : List Instr) (c : Cpu) : c.run (is ++ js) = (c.run is).run js :=
  List.foldl_append

theorem run_saveRegs (c : Cpu) : c.run saveRegs = { c with
    regs := Function.update (Function.update c.regs .eax (c.top 4)) .ebx c.cr3
    memory := c.saved (c.top 4) } := by
  simp only [Cpu.run, saveRegs, List.foldl, Cpu.exec, Cpu.set, Cpu.write, Function.update_self,
    Function.update_of_ne, ne_eq, reduceCtorEq, not_false_eq_true, Cpu.top, Cpu.saved]
  congr 1
  funext r
  cases r <;> simp [Function.update]

theorem run_switchSpace (c : Cpu) : c.run switchSpace = { c with
    regs := Function.update c.regs .ebx
      (read32 (write32 tssCr3 (read32 c.memory (c.regs .eax + 20)) c.memory) (c.regs .eax + 24))
    cr3 := read32 c.memory (c.regs .eax + 20)
    memory := withTss (c.regs .eax) c.memory } := by
  simp only [Cpu.run, switchSpace, List.foldl, Cpu.exec, Cpu.set, Cpu.write, Function.update_self,
    Function.update_of_ne, ne_eq, reduceCtorEq, not_false_eq_true, withTss]
  congr 1
  funext r
  cases r <;> simp [Function.update]

theorem run_swtch (c : Cpu) (m : Memory) (n : Word) (hm : m = c.saved (c.top 4))
    (hn : n = read32 m (c.regs .esp + 8)) :
    (c.run swtch).memory = withTss n m ∧
    (c.run swtch).cr3 = read32 m (n + 20) ∧
    (c.run swtch).regs .ebx = read32 (withTss n m) (n + 0) ∧
    (c.run swtch).regs .ebp = read32 (withTss n m) (n + 8) ∧
    (c.run swtch).regs .esi = read32 (withTss n m) (n + 12) ∧
    (c.run swtch).regs .edi = read32 (withTss n m) (n + 16) ∧
    (c.run swtch).regs .esp = read32 m (n + 4) + 4 ∧
    (c.run swtch).eip = read32 (withTss n m) (read32 m (n + 4) + 0) := by
  have hrun : c.run swtch = ((((c.run saveRegs).run [.load 8 .esp .eax, .load 4 .eax .esp]).run
      switchSpace).run
        [.load 0 .eax .ebx, .load 8 .eax .ebp, .load 12 .eax .esi, .load 16 .eax .edi, .ret]) := by
    rw [← run_append, ← run_append, ← run_append]
    rfl
  have hstacks : (c.run saveRegs).run [.load 8 .esp .eax, .load 4 .eax .esp] = { c with
      regs := Function.update (Function.update (Function.update c.regs .ebx c.cr3) .eax n) .esp
        (read32 m (n + 4))
      memory := m } := by
    rw [run_saveRegs, ← hm]
    simp only [Cpu.run, List.foldl, Cpu.exec, Cpu.set, Function.update_self, Function.update_of_ne,
      ne_eq, reduceCtorEq, not_false_eq_true, ← hn]
    congr 1
    funext r
    cases r <;> simp [Function.update]
  rw [hrun, hstacks, run_switchSpace]
  simp [Cpu.run, Cpu.exec, Cpu.set, Cpu.top, Function.update_of_ne]

def framed (sp eflags : Word) (m : Memory) : Memory :=
  write32 (sp - 20) userStart <| write32 (sp - 20 + 4) (userCs.setWidth 32) <|
    write32 (sp - 20 + 8) (eflags ||| 0x200) <| write32 (sp - 20 + 8) eflags <|
      write32 (sp - 20 + 12) userStackBegin <| write32 (sp - 20 + 16) (userDs.setWidth 32) m

theorem pushes (sp : Word) : sp - 4 = sp - 20 + 16 ∧ sp - 4 - 4 = sp - 20 + 12 ∧
    sp - 4 - 4 - 4 = sp - 20 + 8 ∧ sp - 4 - 4 - 4 - 4 = sp - 20 + 4 ∧
    sp - 4 - 4 - 4 - 4 - 4 = sp - 20 := by
  refine ⟨?_, ?_, ?_, ?_, ?_⟩ <;> bv_omega

theorem read32_framed (sp eflags : Word) (m : Memory) :
    read32 (framed sp eflags m) (sp - 20) = userStart ∧
    read32 (framed sp eflags m) (sp - 20 + 4) = userCs.setWidth 32 ∧
    read32 (framed sp eflags m) (sp - 20 + 8) = eflags ||| 0x200 ∧
    read32 (framed sp eflags m) (sp - 20 + 12) = userStackBegin ∧
    read32 (framed sp eflags m) (sp - 20 + 16) = userDs.setWidth 32 := by
  have hapart {i j : Word} (h : j.toNat + 4 ≤ i.toNat) (hi : i.toNat + 4 ≤ 2 ^ 32) :
      Apart (sp - 20 + i) 4 (sp - 20 + j) 4 := (apart_add h hi).symm
  have hfirst {i : Word} (h : 4 ≤ i.toNat) (hi : i.toNat + 4 ≤ 2 ^ 32) :
      Apart (sp - 20 + i) 4 (sp - 20) 4 := by
    have := hapart (i := i) (j := 0) (by simpa using h) hi
    simpa using this
  unfold framed
  refine ⟨read32_write32, ?_, ?_, ?_, ?_⟩
  · rw [read32_write32_apart (hfirst (by decide) (by decide)), read32_write32]
  · rw [read32_write32_apart (hfirst (by decide) (by decide)),
      read32_write32_apart (hapart (by decide) (by decide)), read32_write32]
  · rw [read32_write32_apart (hfirst (by decide) (by decide)),
      read32_write32_apart (hapart (by decide) (by decide)),
      read32_write32_apart (hapart (by decide) (by decide)),
      read32_write32_apart (hapart (by decide) (by decide)), read32_write32]
  · rw [read32_write32_apart (hfirst (by decide) (by decide)),
      read32_write32_apart (hapart (by decide) (by decide)),
      read32_write32_apart (hapart (by decide) (by decide)),
      read32_write32_apart (hapart (by decide) (by decide)),
      read32_write32_apart (hapart (by decide) (by decide)), read32_write32]

structure Cpu.Entered (c : Cpu) (eflags : Word) : Prop where
  eip : c.eip = userStart
  cs : c.segs .cs = userCs
  data : ∀ s, s ≠ .cs → c.segs s = userDs
  eflags : c.eflags = eflags ||| 0x200
  esp : c.regs .esp = userStackBegin

def Cpu.at (sp : Word) (m : Memory) (c : Cpu) : Cpu :=
  { c with regs := Function.update c.regs .esp sp, memory := m }

theorem push_at (sp v : Word) (m : Memory) (c : Cpu) :
    (c.at sp m).exec (.push v) = c.at (sp - 4) (write32 (sp - 4) v m) := by
  simp [Cpu.exec, Cpu.pushWord, Cpu.at, Cpu.set, Cpu.write]

theorem pushf_at (sp : Word) (m : Memory) (c : Cpu) :
    (c.at sp m).exec .pushf = c.at (sp - 4) (write32 (sp - 4) c.eflags m) := push_at sp c.eflags m c

theorem orTop_at (sp v : Word) (m : Memory) (c : Cpu) :
    (c.at sp m).exec (.orTop v) = c.at sp (write32 sp (read32 m sp ||| v) m) := by
  simp [Cpu.exec, Cpu.at, Cpu.write, Cpu.top]

theorem iret_at (sp : Word) (m : Memory) (c : Cpu) : (c.at sp m).exec .iret = { c.at (read32 m (sp + 12)) m with
    eip := read32 m sp
    eflags := read32 m (sp + 8)
    segs := Function.update (Function.update c.segs .cs ((read32 m (sp + 4)).setWidth 16)) .ss
      ((read32 m (sp + 16)).setWidth 16) } := by
  simp [Cpu.exec, Cpu.at, Cpu.set, Cpu.top]

def Cpu.userData (c : Cpu) : Cpu := { c with
  regs := Function.update c.regs .eax ((c.regs .eax).extractLsb' 16 16 ++ userDs)
  segs := fun s => if s = .cs ∨ s = .ss then c.segs s else userDs }

theorem run_segments (c : Cpu) : c.run [.movAx userDs, .fromAx .ds, .fromAx .es, .fromAx .fs, .fromAx .gs] =
    c.userData := by
  have hax (v : BitVec 16) : (v ++ userDs : Word).setWidth 16 = userDs := BitVec.setWidth_append_eq_right
  simp only [Cpu.run, List.foldl, Cpu.exec, Cpu.set, Function.update_self, hax, Cpu.userData]
  congr 1
  funext s
  cases s <;> simp [Function.update]

theorem run_enterUser (c : Cpu) : (c.run enterUser).Entered c.eflags ∧
    (c.run enterUser).memory = framed (c.regs .esp) c.eflags c.memory ∧
    (c.run enterUser).cr3 = c.cr3 := by
  obtain ⟨h4, h8, h12, h16, h20⟩ := pushes (c.regs .esp)
  obtain ⟨heip, hcs, heflags, hesp, hss⟩ := read32_framed (c.regs .esp) c.eflags c.memory
  have hstart : c.userData = c.userData.at (c.regs .esp) c.memory := by
    simp [Cpu.at, Cpu.userData]
  have hrun : c.run enterUser = (c.userData.at (c.regs .esp - 20)
      (framed (c.regs .esp) c.eflags c.memory)).exec .iret := by
    have hsplit : c.run enterUser = ((c.run [.movAx userDs, .fromAx .ds, .fromAx .es, .fromAx .fs,
        .fromAx .gs]).run [.push (userDs.setWidth 32), .push userStackBegin, .pushf, .orTop 0x200,
          .push (userCs.setWidth 32), .push userStart]).exec .iret := rfl
    rw [hsplit, run_segments]
    conv_lhs => rw [hstart]
    simp only [Cpu.run, List.foldl, push_at, pushf_at, orTop_at, read32_write32]
    rw [h20, h16, h12, h8, h4]
    rfl
  have hcode : (userCs.setWidth 32).setWidth 16 = userCs := by decide
  have hdata : (userDs.setWidth 32).setWidth 16 = userDs := by decide
  rw [hrun, iret_at, heip, hcs, heflags, hesp, hss, hcode, hdata]
  refine ⟨⟨rfl, rfl, fun s hs => ?_, rfl, rfl⟩, rfl, rfl⟩
  cases s with
  | cs => exact absurd rfl hs
  | ss | ds | es | fs | gs => rfl

theorem run_gotoUserMode (c : Cpu) (m : Memory) (n : Word) (hm : m = c.saved (c.top 4))
    (hn : n = read32 m (c.regs .esp + 8)) :
    (c.run gotoUserMode).Entered c.eflags ∧
    (c.run gotoUserMode).memory = framed (c.regs .esp) c.eflags (withTss n m) ∧
    (c.run gotoUserMode).cr3 = read32 m (n + 20) := by
  have hrun : c.run gotoUserMode =
      (((c.run saveRegs).run [.load 8 .esp .eax]).run switchSpace).run enterUser := by
    rw [← run_append, ← run_append, ← run_append]
    rfl
  have hnew : (c.run saveRegs).run [.load 8 .esp .eax] = { c with
      regs := Function.update (Function.update c.regs .ebx c.cr3) .eax n
      memory := m } := by
    rw [run_saveRegs, ← hm]
    simp only [Cpu.run, List.foldl, Cpu.exec, Cpu.set, Function.update_of_ne, ne_eq, reduceCtorEq,
      not_false_eq_true, ← hn]
    congr 1
    funext r
    cases r <;> simp [Function.update]
  obtain ⟨hentered, hmemory, hcr3⟩ := run_enterUser
    (((c.run saveRegs).run [.load 8 .esp .eax]).run switchSpace)
  rw [hrun]
  rw [hnew, run_switchSpace] at hentered hmemory hcr3 ⊢
  exact ⟨hentered, hmemory, hcr3⟩

end DominOS.ContextSwitch
