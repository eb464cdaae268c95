import DominOS.AddressSpacesRuns
import DominOS.ProcessLifeSpec

/-! start.c, allocation by allocation: what a `start` that fails leaves behind, and what a task
has that was started. -/
namespace DominOS.TaskStart
open Paging AddressSpaces Fallible Runs
open Process (TaskPtr StartArgs State Kont allocPid)

inductive Fault where
  | process (f : Process.Fault)
  | memory (f : Paging.Fault)

/-- What `mem_alloc` answers, for the struct and for the kernel stack; false is NULL. -/
structure Answers where
  task : Bool
  kernelStack : Bool

structure Kernel where
  proc : State
  mem : Mem
  kernelStack : TaskPtr → Option HeapBlock

/-- What `start_task` returns: `ERR_PTR` of a negative number, or a task. -/
inductive Result where
  | failed (err : Int)
  | started (t : TaskPtr)
deriving DecidableEq

def ofProcess {α : Type} (x : Except Process.Fault α) : Except Fault α := x.mapError .process

def ofMemory {α : Type} (x : Except Paging.Fault α) : Except Fault α := x.mapError .memory

namespace Kernel

def allocEmptyTask (pid : Nat) (a : StartArgs) (k : Kernel) : Kernel :=
  { k with
    proc := k.proc.allocTask pid a
    mem := { k.mem with heap := .task k.proc.fresh :: k.mem.heap, fresh := k.proc.fresh + 1 } }

def allocKernelStack (answer : Bool) (self : TaskPtr) (k : Kernel) : Kernel :=
  if answer then
    { k with
      mem := { k.mem with heap := .kernelStack self :: k.mem.heap }
      kernelStack := Function.update k.kernelStack self (some (.kernelStack self)) }
  else { k with kernelStack := Function.update k.kernelStack self none }

def allocSpace (a : StartArgs) (o : StartOffers) (self : TaskPtr) (m : Mem) :
    Except Paging.Fault Mem := do
  let (cr3, dir, s) ← pageDirectoryCreate m.early (m.frames.offer [o.dir])
  let size := codeSize a.code
  let (codePages, s) ← (s.offer [o.code]).alloc (nbCodePages a.code)
  let (dir, s) ← mapZone userStart (userStart + size) codePages (codePages + size) ⟨true, true⟩ dir
    (s.offer o.codeTables)
  let real := realSize a.ssize
  let (stackPages, s) ← (s.offer [o.stack]).alloc (nbStackPages a.ssize)
  let (dir, s) ← mapZone (userStackEnd - real + 1) userStackEnd stackPages (stackPages + real - 1)
    ⟨true, true⟩ dir (s.offer o.stackTables)
  .ok ((m.withFrames s).setSpace self
    ⟨cr3, dir, codePages, nbCodePages a.code, stackPages, nbStackPages a.ssize⟩)

def startTask (a : StartArgs) (x : Answers) (o : StartOffers) (k : Kernel) :
    Except Fault (Result × Kernel) :=
  if a.ssize > Process.ustackSzMax then .ok (.failed (-Process.einval), k)
  else if ¬ a.known then .ok (.failed (-Process.einval), k)
  else if a.prio > Process.maxPrio ∨ a.prio < Process.minPrio then .ok (.failed (-Process.einval), k)
  else match allocPid k.proc.pidmap with
    | none => .ok (.failed (-Process.eagain), k)
    | some pid =>
      let k := { k with proc := k.proc.markPid pid }
      -- the pid is not given back
      if ¬ x.task then .ok (.failed (-Process.eagain), k)
      else do
        let self := k.proc.fresh
        let k := k.allocEmptyTask pid a
        let proc ← ofProcess (k.proc.siblingAdd self k.proc.current)
        -- a kernel stack that is NULL is not noticed
        let k := allocKernelStack x.kernelStack self { k with proc := proc }
        let mem ← ofMemory (allocSpace a o self k.mem)
        .ok (.started self, { k with mem := mem })

def start (a : StartArgs) (x : Answers) (o : StartOffers) (k : Kernel) :
    Except Fault (Result × Kernel) := do
  let (r, k) ← k.startTask a x o
  match r with
  | .failed err => do
    let proc ← ofProcess (k.proc.ret err)
    .ok (r, { k with proc := proc })
  | .started task => do
    let proc ← ofProcess (k.proc.setTaskReady task)
    let proc ← ofProcess (proc.globalAdd task)
    let current ← ofProcess (proc.task proc.current)
    let proc ← ofProcess (
      if a.prio ≥ current.priority then proc.callSchedule (.startRet task)
      else proc.continueAt (.startRet task))
    .ok (r, { k with proc := proc })

end Kernel

variable {k k' : Kernel} {a : StartArgs} {x : Answers} {o : StartOffers} {r : Result × Kernel}
  {t : TaskPtr} {m m' : Mem}

theorem ofProcess_ok {α : Type} {y : Except Process.Fault α} {v : α} :
    ofProcess y = .ok v ↔ y = .ok v := by
  cases y with
  | error f => simp [ofProcess, Except.mapError]
  | ok w => simp [ofProcess, Except.mapError]

theorem ofMemory_ok {α : Type} {y : Except Paging.Fault α} {v : α} :
    ofMemory y = .ok v ↔ y = .ok v := by
  cases y with
  | error f => simp [ofMemory, Except.mapError]
  | ok w => simp [ofMemory, Except.mapError]

section Outcome

/-- What `start` checks before it allocates anything holds, and a pid is free. -/
def Passes (a : StartArgs) (k : Kernel) (pid : Nat) : Prop :=
  ¬ a.ssize > Process.ustackSzMax ∧ a.known ∧ ¬ (a.prio > Process.maxPrio ∨ a.prio < Process.minPrio) ∧
    allocPid k.proc.pidmap = some pid

def blocks (x : Answers) (self : TaskPtr) : List HeapBlock :=
  if x.kernelStack then [.kernelStack self, .task self] else [.task self]

/-- How `start_task` ends, where it does not fault. -/
inductive Outcome (a : StartArgs) (x : Answers) (o : StartOffers) (k : Kernel) : Result × Kernel → Prop where
  | rejected {err : Int} : err < 0 → (∀ pid, ¬ Passes a k pid) →
      k.proc.start { a with memory := x.task, frames := true } = k.proc.ret err →
      Outcome a x o k (.failed err, k)
  | leaked {pid : Nat} : Passes a k pid → x.task = false →
      Outcome a x o k (.failed (-Process.eagain), { k with proc := k.proc.markPid pid })
  | started {pid : Nat} {k' : Kernel} : Passes a k pid → x.task = true →
      ((k.proc.markPid pid).allocTask pid a).siblingAdd k.proc.fresh k.proc.current = .ok k'.proc →
      k'.kernelStack k.proc.fresh =
        (if x.kernelStack then some (.kernelStack k.proc.fresh) else none) →
      Kernel.allocSpace a o k.proc.fresh { k.mem with
        heap := blocks x k.proc.fresh ++ k.mem.heap, fresh := k.proc.fresh + 1 } = .ok k'.mem →
      Outcome a x o k (.started k.proc.fresh, k')

theorem startTask_outcome (h : k.startTask a x o = .ok r) : Outcome a x o k r := by
  unfold Kernel.startTask at h
  split at h
  · rename_i hs
    cases h
    refine .rejected (by decide) (fun pid hp => hp.1 hs) ?_
    unfold State.start
    rw [if_pos hs]
  rename_i hs
  split at h
  · rename_i hn
    cases h
    refine .rejected (by decide) (fun pid hp => hn hp.2.1) ?_
    unfold State.start
    rw [if_neg hs, if_pos hn]
  rename_i hn
  split at h
  · rename_i hp
    cases h
    refine .rejected (by decide) (fun pid hpass => hpass.2.2.1 hp) ?_
    unfold State.start
    rw [if_neg hs, if_neg hn, if_pos hp]
  rename_i hp
  split at h
  · rename_i hnone
    cases h
    refine .rejected (by decide) (fun pid hpass => ?_) ?_
    · rw [hpass.2.2.2] at hnone
      cases hnone
    · unfold State.start
      rw [if_neg hs, if_neg hn, if_neg hp]
      simp only [hnone]
  · rename_i pid hpid
    have hpass : Passes a k pid := ⟨hs, not_not.mp hn, hp, hpid⟩
    split at h
    · rename_i hx
      cases h
      exact .leaked hpass (by simpa using hx)
    · rename_i hx
      obtain ⟨proc, hadd, h⟩ := bind_ok.mp h
      obtain ⟨mem, hmem, h⟩ := bind_ok.mp h
      have hadd := ofProcess_ok.mp hadd
      have hmem := ofMemory_ok.mp hmem
      cases h
      refine .started hpass (by simpa using hx) ?_ ?_ ?_
      · cases x.kernelStack <;> exact hadd
      · cases hk : x.kernelStack <;> exact Function.update_self ..
      · unfold blocks
        cases hk : x.kernelStack <;> rw [hk] at hmem <;> exact hmem

end Outcome

section Refines

/-- What `start` does to the processes is what it does where the memory is not looked at. -/
theorem start_process (h : k.start a x o = .ok r) :
    k.proc.start { a with memory := x.task, frames := true } = .ok r.2.proc := by
  unfold Kernel.start at h
  obtain ⟨⟨res, k₁⟩, htask, h⟩ := bind_ok.mp h
  cases startTask_outcome htask with
  | @rejected err _ _ heq =>
    obtain ⟨proc, hret, h⟩ := bind_ok.mp h
    cases h
    exact heq.trans (ofProcess_ok.mp hret)
  | @leaked pid hp hx =>
    obtain ⟨proc, hret, h⟩ := bind_ok.mp h
    cases h
    unfold State.start
    rw [if_neg hp.1, if_neg (not_not.mpr hp.2.1), if_neg hp.2.2.1]
    simp only [hp.2.2.2, hx, Bool.false_eq_true, not_false_iff, if_true]
    exact ofProcess_ok.mp hret
  | @started pid _ hp hx hadd _ _ =>
    obtain ⟨proc₁, hready, h⟩ := bind_ok.mp h
    obtain ⟨proc₂, hglobal, h⟩ := bind_ok.mp h
    obtain ⟨current, hcur, h⟩ := bind_ok.mp h
    obtain ⟨proc₃, hend, h⟩ := bind_ok.mp h
    cases h
    have hlaunch : (k.proc.markPid pid).launch pid { a with memory := x.task, frames := true } = .ok proc₂ := by
      unfold State.launch
      refine bind_ok.mpr ⟨k₁.proc, hadd, bind_ok.mpr ⟨proc₁, ofProcess_ok.mp hready, ?_⟩⟩
      exact ofProcess_ok.mp hglobal
    unfold State.start
    rw [if_neg hp.1, if_neg (not_not.mpr hp.2.1), if_neg hp.2.2.1]
    simp only [hp.2.2.2, hx, not_true_eq_false, if_false]
    rw [hx] at hlaunch
    rw [hlaunch, ok_bind, ofProcess_ok.mp hcur, ok_bind]
    exact ofProcess_ok.mp hend

theorem startTask_eq (a : StartArgs) (o : StartOffers) (m : Mem) : m.startTask a.code a.ssize o =
    Kernel.allocSpace a o m.fresh { m with
      heap := .kernelStack m.fresh :: .task m.fresh :: m.heap, fresh := m.fresh + 1 } := rfl

theorem start_memory (hf : k.mem.fresh = k.proc.fresh) (hx : x.kernelStack = true)
    (h : k.start a x o = .ok r) (ht : r.1 = .started t) :
    k.mem.startTask a.code a.ssize o = .ok r.2.mem := by
  unfold Kernel.start at h
  obtain ⟨⟨res, k₁⟩, htask, h⟩ := bind_ok.mp h
  cases startTask_outcome htask with
  | rejected _ _ _ =>
    obtain ⟨_, _, h⟩ := bind_ok.mp h
    cases h
    cases ht
  | leaked _ _ =>
    obtain ⟨_, _, h⟩ := bind_ok.mp h
    cases h
    cases ht
  | started _ _ _ _ hspace =>
    obtain ⟨_, _, h⟩ := bind_ok.mp h
    obtain ⟨_, _, h⟩ := bind_ok.mp h
    obtain ⟨_, _, h⟩ := bind_ok.mp h
    obtain ⟨_, _, h⟩ := bind_ok.mp h
    cases h
    rw [startTask_eq, hf]
    unfold blocks at hspace
    rw [hx] at hspace
    exact hspace

end Refines

section Clean

/-- What a `start` that fails is to leave as it was. -/
structure Unchanged (k k' : Kernel) : Prop where
  pidmap : k'.proc.pidmap = k.proc.pidmap
  globalTasks : k'.proc.globalTasks = k.proc.globalTasks
  siblings : k'.proc.siblings = k.proc.siblings
  queues : k'.proc.queues = k.proc.queues
  live : k'.mem.frames.live = k.mem.frames.live
  heap : k'.mem.heap = k.mem.heap

/-- The task has a kernel stack, a directory, code and a stack, at addresses that are not NULL. -/
structure Equipped (k : Kernel) (t : TaskPtr) : Prop where
  kernelStack : (k.kernelStack t).isSome
  space : ∃ space, k.mem.spaces t = some space ∧ space.cr3 ≠ 0 ∧ space.codePages ≠ 0 ∧
    space.stackPages ≠ 0

/-- A negative number is returned and nothing has changed, or a pid, and the task has what it needs. -/
structure StartsCleanly (k : Kernel) (r : Result × Kernel) : Prop where
  failed : ∀ err, r.1 = .failed err → err < 0 → Unchanged k r.2
  started : ∀ t, r.1 = .started t → Equipped r.2 t

/-- Once the checks are passed and a pid is found, `mem_alloc` gives both blocks. -/
def Granted (a : StartArgs) (x : Answers) (k : Kernel) : Prop :=
  ∀ pid, Passes a k pid → x.task = true ∧ x.kernelStack = true

theorem alloc_ne_zero {s s' : Frames} {n at' : Nat} (h : s.alloc n = .ok (at', s')) : at' ≠ 0 := by
  have hlow : 0x4000000 ≤ at' := (alloc_ok h).2.1.2.1
  omega

theorem allocSpace_space (h : Kernel.allocSpace a o t m = .ok m') : ∃ space,
    m'.spaces t = some space ∧ space.cr3 ≠ 0 ∧ space.codePages ≠ 0 ∧ space.stackPages ≠ 0 := by
  unfold Kernel.allocSpace at h
  obtain ⟨⟨cr3, dir, s₁⟩, hdir, h⟩ := bind_ok.mp h
  obtain ⟨⟨codePages, s₂⟩, hcode, h⟩ := bind_ok.mp h
  obtain ⟨⟨dir₁, s₃⟩, _, h⟩ := bind_ok.mp h
  obtain ⟨⟨stackPages, s₄⟩, hstack, h⟩ := bind_ok.mp h
  obtain ⟨⟨dir₂, s₅⟩, _, h⟩ := bind_ok.mp h
  cases h
  obtain ⟨⟨dirAt, s₀⟩, hdirAt, hdir⟩ := bind_ok.mp hdir
  cases hdir
  exact ⟨_, Function.update_self .., alloc_ne_zero hdirAt, alloc_ne_zero hcode, alloc_ne_zero hstack⟩

/-- `start` fails without a trace, and a task that is started has all it needs, exactly when both
`mem_alloc` calls succeed that are made. -/
theorem start_fails_cleanly (h : k.start a x o = .ok r) : StartsCleanly k r ↔ Granted a x k := by
  unfold Kernel.start at h
  obtain ⟨⟨res, k₁⟩, htask, h⟩ := bind_ok.mp h
  cases startTask_outcome htask with
  | @rejected err _ hnot _ =>
    obtain ⟨proc, hret, h⟩ := bind_ok.mp h
    cases ofProcess_ok.mp hret
    cases h
    exact iff_of_true ⟨fun _ _ _ => ⟨rfl, rfl, rfl, rfl, rfl, rfl⟩, nofun⟩
      fun pid hp => absurd hp (hnot pid)
  | @leaked pid hp hx =>
    obtain ⟨proc, hret, h⟩ := bind_ok.mp h
    cases ofProcess_ok.mp hret
    cases h
    refine iff_of_false (fun hclean => ?_) fun hg => ?_
    · have hmap := congrFun (hclean.failed _ rfl (by decide)).pidmap pid
      rw [Process.State.allocPid_free hp.2.2.2] at hmap
      have hmark : Function.update k.proc.pidmap pid true pid = false := hmap
      rw [Function.update_self] at hmark
      cases hmark
    · rw [(hg pid hp).1] at hx
      cases hx
  | @started pid _ hp hx _ hstack hspace =>
    obtain ⟨proc₁, _, h⟩ := bind_ok.mp h
    obtain ⟨proc₂, _, h⟩ := bind_ok.mp h
    obtain ⟨current, _, h⟩ := bind_ok.mp h
    obtain ⟨proc₃, _, h⟩ := bind_ok.mp h
    cases h
    constructor
    · intro hclean pid _
      have hsome := (hclean.started _ rfl).kernelStack
      refine ⟨hx, ?_⟩
      cases hk : x.kernelStack with
      | true => rfl
      | false =>
        rw [hk] at hstack
        change (k₁.kernelStack k.proc.fresh).isSome at hsome
        rw [hstack] at hsome
        cases hsome
    · intro hg
      refine ⟨nofun, fun t ht => ?_⟩
      cases ht
      refine ⟨?_, allocSpace_space hspace⟩
      change (k₁.kernelStack k.proc.fresh).isSome
      rw [hstack, (hg pid hp).2]
      rfl

def idled : Kernel where
  proc := .boot
  mem := match exec Mem.step [startIdle] (Mem.boot anEarlyMem) with
    | .ok m => m
    | .error _ => Mem.boot anEarlyMem
  kernelStack t := if t = 0 then some (.kernelStack 0) else none

def firstOffers : StartOffers := ⟨0x4008000, 0x4009000, [0x400a000], 0x400c000, [0x400b000]⟩

def anApp : StartArgs := ⟨true, 100, 1022, 5, true, true⟩

theorem start_fails_cleanly_app : ∃ r, idled.start anApp ⟨true, true⟩ firstOffers = .ok r ∧
    r.1 = .started 1 ∧ (StartsCleanly idled r ↔ Granted anApp ⟨true, true⟩ idled) := by
  have hrun : Ends (idled.start anApp ⟨true, true⟩ firstOffers) fun r => r.1 = .started 1 := by
    decide +kernel
  obtain ⟨r, hr, h1⟩ := hrun.elim
  exact ⟨r, hr, h1, start_fails_cleanly hr⟩

/-- Without a block for the struct pid 1 stays taken, and without one for the kernel stack a task
is started that has none. -/
theorem start_leaks_pid : idled.proc = .boot ∧
    exec Mem.step [startIdle] (Mem.boot anEarlyMem) = .ok idled.mem ∧
    (∃ r, idled.start anApp ⟨false, true⟩ firstOffers = .ok r ∧ r.1 = .failed (-Process.eagain) ∧
      idled.proc.pidmap 1 = false ∧ r.2.proc.pidmap 1 = true ∧ ¬ StartsCleanly idled r) ∧
    ∃ r, idled.start anApp ⟨true, false⟩ firstOffers = .ok r ∧ r.1 = .started 1 ∧
      r.2.kernelStack 1 = none ∧ ¬ StartsCleanly idled r := by
  have hmem : Ends (exec Mem.step [startIdle] (Mem.boot anEarlyMem)) fun _ => True := by decide +kernel
  have hpid : Ends (idled.start anApp ⟨false, true⟩ firstOffers) fun r =>
      r.1 = .failed (-Process.eagain) ∧ r.2.proc.pidmap 1 = true := by
    decide +kernel
  have hstack : Ends (idled.start anApp ⟨true, false⟩ firstOffers) fun r =>
      r.1 = .started 1 ∧ r.2.kernelStack 1 = none := by
    decide +kernel
  obtain ⟨m, hm, _⟩ := hmem.elim
  obtain ⟨r, hr, hfail, hset⟩ := hpid.elim
  obtain ⟨r', hr', hstart, hnone⟩ := hstack.elim
  refine ⟨rfl, ?_, ⟨r, hr, hfail, rfl, hset, fun h => ?_⟩, r', hr', hstart, hnone, fun h => ?_⟩
  · unfold idled
    rw [hm]
  · have hmap := congrFun (h.failed _ hfail (by decide)).pidmap 1
    rw [hset] at hmap
    cases hmap
  · have hsome := (h.started 1 hstart).kernelStack
    rw [hnone] at hsome
    cases hsome

end Clean

end DominOS.TaskStart
