import DominOS.ProcessMachine
import DominOS.ProcessInv
import DominOS.Simulation

/-! `cpt_rst` is only compared with what calls have saved of it, and the records are never read:
kernels that differ by an order embedding of the one and by a past of the other go on alike. -/
namespace DominOS.Process
open IntrusiveLists Fallible Simulation

/-- How one kernel differs from another, as long as `cpt_rst` of the other is above `since`. -/
structure Shift where
  num : Nat → Nat
  lt : ∀ r r', num r < num r' ↔ r < r'
  since : Nat
  next : ∀ r, since < r → num (r + 1) = num r + 1
  past : List Obs
  calls : List MsgCall

theorem Shift.le (f : Shift) (r : Nat) : r ≤ f.num r := by
  induction r with
  | zero => exact Nat.zero_le _
  | succ r ih =>
    have hlt : f.num r < f.num (r + 1) := (f.lt _ _).mpr (Nat.lt_succ_self r)
    omega

def Kont.shift (f : Shift) : Kont → Kont
  | .psendLoop id msg rst => .psendLoop id msg (f.num rst)
  | .preceiveLoop id message rst => .preceiveLoop id message (f.num rst)
  | kont => kont

def Task.shift (f : Shift) (task : Task) : Task := { task with kont := task.kont.shift f }

namespace State

def shift (f : Shift) (s : State) : State :=
  { s with
    cptRst := f.num s.cptRst
    tasks := fun t => (s.tasks t).map (Task.shift f)
    trace := s.trace ++ f.past
    msgCalls := s.msgCalls ++ f.calls }

/-- `s₁` is `s₂` seen through `f`. -/
def Shifted (f : Shift) (s₁ s₂ : State) : Prop := s₁ = s₂.shift f ∧ f.since < s₂.cptRst

abbrev Alike (bad : Fault → Prop) (f : Shift) (x y : Except Fault State) : Prop :=
  Sim bad (Shifted f) x y

variable {bad : Fault → Prop} {f : Shift} {s : State} {t u : TaskPtr} {k : Task} {h : Head} {c : Kont} {id : Nat}
  {msg : Msg} {q : MQueue}

theorem alike (s : State) (hs : f.since < s.cptRst) : Alike bad f (.ok (s.shift f)) (.ok s) := ⟨rfl, hs⟩

section Lists

theorem shift_task : Sim bad (fun k₁ k₂ : Task => k₁ = k₂.shift f) ((s.shift f).task t)
    (s.task t) := by
  unfold State.task
  cases hk : s.tasks t with
  | none => simp only [shift, hk, Option.map_none]; exact .error _
  | some k => simp only [shift, hk, Option.map_some]; exact .ok rfl

theorem shift_setTask : (s.shift f).setTask t (k.shift f) = (s.setTask t k).shift f := by
  unfold shift setTask
  congr 1
  funext u
  by_cases hu : u = t <;> simp [hu]

theorem shift_priorityOf : (s.shift f).priorityOf t = s.priorityOf t := by
  unfold priorityOf
  simp only [shift]
  cases s.tasks t <;> rfl

theorem shift_pidOf : (s.shift f).pidOf t = s.pidOf t := by
  unfold pidOf
  simp only [shift]
  cases s.tasks t <;> rfl

theorem shift_hasPid {pid : Int} : (s.shift f).hasPid pid = s.hasPid pid := by
  funext t
  unfold hasPid
  simp only [shift]
  cases s.tasks t <;> rfl

theorem shift_before : (s.shift f).before = s.before := by
  funext t u
  simp only [before, shift_priorityOf]

theorem move_congr {H : Type} [DecidableEq H] {l : Links H TaskPtr} {i : H} {r r' : TaskPtr → TaskPtr → Prop}
    [DecidableRel r] [DecidableRel r'] (hr : r = r') : l.move r i t = l.move r' i t := by
  subst hr
  congr!

theorem shift_move : (s.shift f).move h t = (s.move h t).shift f := by
  have hq : (s.shift f).queues.move (s.shift f).before h t = s.queues.move s.before h t := by
    change s.queues.move (s.shift f).before h t = s.queues.move s.before h t
    exact move_congr shift_before
  unfold move
  rw [hq]
  rfl

theorem shift_adopt : (s.shift f).adopt u t = (s.adopt u t).shift f := by
  have hq : (s.shift f).siblings.move (s.shift f).before u t = s.siblings.move s.before u t := by
    change s.siblings.move (s.shift f).before u t = s.siblings.move s.before u t
    exact move_congr shift_before
  unfold adopt
  rw [hq]
  rfl

theorem shift_enlist : (s.shift f).enlist t = (s.enlist t).shift f := by
  unfold enlist
  simp only [shift_pidOf]
  rfl

variable (hs : f.since < s.cptRst)
include hs

theorem shift_queueAdd : Alike bad f ((s.shift f).queueAdd t h) (s.queueAdd t h) := by
  apply Sim.ite Iff.rfl
  · intro _
    rw [shift_move]
    exact alike _ hs
  · intro _
    exact .error _

theorem shift_queueDel : Alike bad f ((s.shift f).queueDel t) (s.queueDel t) := by
  apply Sim.ite Iff.rfl
  · intro _
    exact .error _
  · intro _
    exact alike (s.unlink t) hs

theorem shift_siblingAdd : Alike bad f ((s.shift f).siblingAdd t u) (s.siblingAdd t u) := by
  apply Sim.ite Iff.rfl
  · intro _
    rw [shift_adopt]
    exact alike _ hs
  · intro _
    exact .error _

theorem shift_globalAdd : Alike bad f ((s.shift f).globalAdd t) (s.globalAdd t) := by
  apply Sim.ite Iff.rfl
  · intro _
    rw [shift_enlist]
    exact alike _ hs
  · intro _
    exact .error _

theorem shift_globalDel : Alike bad f ((s.shift f).globalDel t) (s.globalDel t) := by
  apply Sim.ite Iff.rfl
  · intro _
    exact .error _
  · intro _
    exact alike (s.delist t) hs

theorem shift_ret {v : Int} : Alike bad f ((s.shift f).ret v) (s.ret v) :=
  alike ((s.observe (.returned s.current v)).setCtl .user) hs

theorem shift_goOn {x : Ctl} : Alike bad f ((s.shift f).goOn x (c.shift f)) (s.goOn x c) := by
  apply shift_task.bind
  rintro _ k rfl
  rw [show { k.shift f with kont := c.shift f } = ({ k with kont := c } : Task).shift f from rfl,
    show (s.shift f).current = s.current from rfl, shift_setTask]
  exact alike ((s.setTask s.current { k with kont := c }).setCtl x) hs

theorem shift_callSchedule : Alike bad f ((s.shift f).callSchedule (c.shift f)) (s.callSchedule c) :=
  shift_goOn hs

theorem shift_continueAt : Alike bad f ((s.shift f).continueAt (c.shift f)) (s.continueAt c) :=
  shift_goOn hs

end Lists

section Tasks

theorem shift_setTask_with {k' : Task} (hk : k' = k.shift f) :
    (s.shift f).setTask t k' = (s.setTask t k).shift f := hk ▸ shift_setTask

variable (hs : f.since < s.cptRst)
include hs

theorem shift_setTaskState {state : TaskState} :
    Alike bad f ((s.shift f).setTaskState t state h) (s.setTaskState t state h) := by
  apply shift_task.bind
  rintro _ k rfl
  apply Sim.ite Iff.rfl
  · intro _
    exact alike s hs
  · intro _
    apply Sim.bind (R := Shifted f)
    · apply Sim.ite Iff.rfl
      · intro _
        exact shift_queueDel hs
      · intro _
        exact alike s hs
    · rintro _ s' ⟨rfl, hs'⟩
      rw [shift_setTask_with (k := { k with state := state })]
      · exact shift_queueAdd hs'
      · rfl

theorem shift_setTaskRunning : Alike bad f ((s.shift f).setTaskRunning t) (s.setTaskRunning t) := by
  apply shift_task.bind
  rintro _ k rfl
  apply Sim.bind (R := Shifted f)
  · apply Sim.ite Iff.rfl
    · intro _
      exact shift_queueDel hs
    · intro _
      exact alike s hs
  · rintro _ s' ⟨rfl, hs'⟩
    rw [shift_setTask_with (k := { k with state := .running })]
    · exact alike { s'.setTask t { k with state := .running } with current := t } hs'
    · rfl

theorem shift_setTaskReadyOrRunning : Alike bad f ((s.shift f).setTaskReadyOrRunning t (c.shift f))
    (s.setTaskReadyOrRunning t c) := by
  apply shift_task.bind
  rintro _ k rfl
  rw [shift_setTask_with (k := { k with state := .ready })]
  · apply (shift_queueAdd (s := s.setTask t { k with state := .ready }) hs).bind
    rintro _ s' ⟨rfl, hs'⟩
    apply shift_task.bind
    rintro _ l rfl
    apply Sim.ite Iff.rfl
    · intro _
      exact shift_callSchedule hs'
    · intro _
      exact shift_continueAt hs'
  · rfl

theorem shift_setTaskInterruptedMsg : Alike bad f ((s.shift f).setTaskInterruptedMsg t (c.shift f))
    (s.setTaskInterruptedMsg t c) := by
  apply shift_task.bind
  rintro _ k rfl
  rw [shift_setTask_with (k := { k with state := .interruptedMsg })]
  · exact shift_callSchedule hs
  · rfl

theorem shift_wakeup : Alike bad f ((s.shift f).wakeup t) (s.wakeup t) := by
  apply shift_task.bind
  rintro _ k rfl
  apply Sim.ite Iff.rfl
  · intro _
    rw [shift_setTask_with (k := { k with wakeTime := 0 })]
    · exact shift_setTaskState (s := s.setTask t { k with wakeTime := 0 }) hs
    · rfl
  · intro _
    exact alike s hs

theorem shift_tryWakeupTasks : Alike bad f (s.shift f).tryWakeupTasks s.tryWakeupTasks := by
  apply Sim.foldlM _ _ ⟨rfl, hs⟩
  rintro t _ s' ⟨rfl, hs'⟩
  exact shift_wakeup hs'

theorem shift_siblingDel : Alike bad f ((s.shift f).siblingDel t) (s.siblingDel t) := by
  unfold siblingDel
  rw [show (s.shift f).siblings = s.siblings from rfl]
  cases s.siblings.link t with
  | none => exact alike s hs
  | some parent =>
    apply shift_task.bind
    rintro _ k rfl
    exact alike { s with siblings := s.siblings.erase t } hs

theorem shift_freeTask : Alike bad f ((s.shift f).freeTask t) (s.freeTask t) := by
  apply Sim.bind (R := Shifted f)
  · apply Sim.ite Iff.rfl
    · intro _
      exact alike s hs
    · intro _
      exact shift_queueDel hs
  · rintro _ s' ⟨rfl, hs'⟩
    apply (shift_siblingDel hs').bind
    rintro _ s'' ⟨rfl, hs''⟩
    refine ⟨?_, hs''⟩
    simp only [shift, State.memory]
    congr 1
    funext u
    by_cases hu : u = t <;> simp [hu]

theorem shift_reap : Alike bad f ((s.shift f).reap t) (s.reap t) := by
  apply shift_task.bind
  rintro _ k rfl
  apply Sim.ite Iff.rfl
  · intro _
    exact alike s hs
  · intro _
    apply Sim.ite Iff.rfl
    · intro _
      exact shift_freeTask hs
    · intro _
      rw [show (k.shift f).parent = k.parent from rfl]
      cases k.parent with
      | none => exact .error _
      | some parent =>
        apply shift_task.bind
        rintro _ l rfl
        apply Sim.ite Iff.rfl
        · intro _
          exact shift_freeTask hs
        · intro _
          exact alike s hs

theorem shift_reapZombies : Alike bad f (s.shift f).reapZombies s.reapZombies := by
  apply Sim.foldlM _ _ ⟨rfl, hs⟩
  rintro t _ s' ⟨rfl, hs'⟩
  exact shift_reap hs'

theorem shift_switchTo : Alike bad f ((s.shift f).switchTo (k.shift f) t) (s.switchTo k t) := by
  apply Sim.bind (R := Shifted f)
  · apply Sim.ite Iff.rfl
    · intro _
      exact shift_setTaskState hs
    · intro _
      exact alike s hs
  · rintro _ s' ⟨rfl, hs'⟩
    apply (shift_setTaskRunning hs').bind
    rintro _ s'' ⟨rfl, hs''⟩
    apply shift_task.bind
    rintro _ l rfl
    apply Sim.ite Iff.rfl
    · intro _
      rw [shift_setTask_with (k := { l with firstStart := false })]
      · exact alike ((s''.setTask t { l with firstStart := false }).setCtl .user) hs''
      · rfl
    · intro _
      exact alike (s''.setCtl .resume) hs''

theorem shift_chooseTask : Alike bad f (s.shift f).chooseTask s.chooseTask := by
  unfold chooseTask
  rw [show (s.shift f).queueTop .ready = s.queueTop .ready from rfl]
  cases s.queueTop .ready with
  | none => exact alike (s.setCtl .resume) hs
  | some new =>
    apply shift_task.bind
    rintro _ old rfl
    apply shift_task.bind
    rintro _ k rfl
    apply Sim.ite Iff.rfl
    · intro _
      exact alike (s.setCtl .resume) hs
    · intro _
      exact shift_switchTo hs

theorem shift_schedule : Alike bad f (s.shift f).schedule s.schedule := by
  apply (shift_tryWakeupTasks hs).bind
  rintro _ s' ⟨rfl, hs'⟩
  apply (shift_reapZombies hs').bind
  rintro _ s'' ⟨rfl, hs''⟩
  exact shift_chooseTask hs''

omit hs

theorem shift_pidToTask {pid : Int} : (s.shift f).pidToTask pid = s.pidToTask pid := by
  unfold pidToTask
  rw [shift_hasPid]
  rfl

theorem shift_queueFromMsg {pid : Nat} : (s.shift f).queueFromMsg pid = s.queueFromMsg pid := by
  unfold queueFromMsg
  rw [shift_hasPid]
  rfl

theorem shift_queueFromState {state : TaskState} {pid : Nat} :
    (s.shift f).queueFromState state pid = s.queueFromState state pid := by
  cases state <;> simp only [queueFromState, shift_queueFromMsg]

end Tasks
end State
end DominOS.Process
