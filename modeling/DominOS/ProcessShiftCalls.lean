import DominOS.ProcessShift

/-! Every system call goes on alike when the later values of `cpt_rst` are one higher. -/
namespace DominOS.Process
open IntrusiveLists Fallible Simulation
namespace State
variable {bad : Fault → Prop} {f : Shift} {s : State} {t u : TaskPtr} {k : Task} {h : Head} {c : Kont} {id : Nat}
  {msg : Msg} {q : MQueue}

section Life

theorem shift_allocTask {pid : Nat} {a : StartArgs} :
    (s.shift f).allocTask pid a = (s.allocTask pid a).shift f := by
  unfold allocTask
  rw [show (s.shift f).memory (.alloc (s.shift f).fresh a.code a.ssize) =
    (s.memory (.alloc s.fresh a.code a.ssize)).shift f from rfl,
    shift_setTask_with (k := s.newTask pid a)]
  · rfl
  · rfl

theorem shift_isZombie : Sim bad Eq ((s.shift f).isZombie t) (s.isZombie t) := by
  apply shift_task.bind
  rintro _ k rfl
  exact .ok rfl

theorem shift_findZombie {l : List TaskPtr} : Sim bad Eq ((s.shift f).findZombie l)
    (s.findZombie l) := by
  induction l with
  | nil => exact .ok rfl
  | cons child rest ih =>
    unfold findZombie
    apply (shift_isZombie).bind
    rintro b _ rfl
    apply Sim.ite Iff.rfl
    · intro _
      exact .ok rfl
    · intro _
      exact ih

variable (hs : f.since < s.cptRst)
include hs

theorem shift_launch {pid : Nat} {a : StartArgs} : Alike bad f ((s.shift f).launch pid a) (s.launch pid a) := by
  unfold launch
  rw [shift_allocTask]
  apply (shift_siblingAdd (s := s.allocTask pid a) hs).bind
  rintro _ s₁ ⟨rfl, hs₁⟩
  apply (shift_setTaskState hs₁).bind
  rintro _ s₂ ⟨rfl, hs₂⟩
  exact shift_globalAdd hs₂

theorem shift_start {a : StartArgs} : Alike bad f ((s.shift f).start a) (s.start a) := by
  apply Sim.ite Iff.rfl
  · intro _
    exact shift_ret hs
  intro _
  apply Sim.ite Iff.rfl
  · intro _
    exact shift_ret hs
  intro _
  apply Sim.ite Iff.rfl
  · intro _
    exact shift_ret hs
  intro _
  rw [show (s.shift f).pidmap = s.pidmap from rfl]
  cases allocPid s.pidmap with
  | none => exact shift_ret hs
  | some pid =>
    apply Sim.ite Iff.rfl
    · intro _
      exact shift_ret (s := s.markPid pid) hs
    intro _
    apply Sim.ite Iff.rfl
    · intro _
      exact .error _
    intro _
    apply (shift_launch (s := s.markPid pid) hs).bind
    rintro _ s' ⟨rfl, hs'⟩
    apply shift_task.bind
    rintro _ k rfl
    apply Sim.ite Iff.rfl
    · intro _
      exact shift_callSchedule (c := .startRet s.fresh) hs'
    · intro _
      exact shift_continueAt (c := .startRet s.fresh) hs'

theorem shift_unlockInterruptedChildParent {parent : Option TaskPtr} :
    Alike bad f ((s.shift f).unlockInterruptedChildParent parent) (s.unlockInterruptedChildParent parent) := by
  cases parent with
  | none => exact .error _
  | some parent =>
    apply shift_task.bind
    rintro _ k rfl
    apply Sim.ite Iff.rfl
    · intro _
      exact shift_setTaskState hs
    · intro _
      exact alike s hs

theorem shift_exitTask {r : Int} : Sim bad
    (fun x y : Int × State => x.1 = y.1 ∧ Shifted f x.2 y.2) ((s.shift f).exitTask t r) (s.exitTask t r) := by
  apply Sim.ite Iff.rfl
  · intro _
    exact ⟨rfl, rfl, hs⟩
  intro _
  apply shift_task.bind
  rintro _ k rfl
  apply Sim.ite Iff.rfl
  · intro _
    exact ⟨rfl, rfl, hs⟩
  intro _
  rw [show (s.shift f).totalTicks = s.totalTicks from rfl]
  generalize deathPriority s.totalTicks = p
  dsimp only
  rw [shift_setTask_with (k := { k with priority := p })]
  · apply Sim.bind (R := Shifted f)
    · apply Sim.ite
      · rw [shift_queueFromMsg]
        exact Iff.rfl
      · intro _
        exact shift_queueDel (s := s.setTask t { k with priority := p }) hs
      · intro _
        exact alike (s.setTask t { k with priority := p }) hs
    rintro _ s₁ ⟨rfl, hs₁⟩
    apply (shift_globalDel hs₁).bind
    rintro _ s₂ ⟨rfl, hs₂⟩
    have hset : ((s₂.shift f).freePid k.pid).setTask t { k.shift f with priority := p, retval := r } =
        ((s₂.freePid k.pid).setTask t { k with priority := p, retval := r }).shift f :=
      shift_setTask_with (s := s₂.freePid k.pid) rfl
    change Sim _ _ (((((s₂.shift f).freePid k.pid).setTask t
      { k.shift f with priority := p, retval := r }).observe (.exited t r)).setTaskZombie t >>= _) _
    rw [hset]
    apply (shift_setTaskState (s := ((s₂.freePid k.pid).setTask t
      { k with priority := p, retval := r }).observe (.exited t r)) hs₂).bind
    rintro _ s₃ ⟨rfl, hs₃⟩
    apply (shift_unlockInterruptedChildParent hs₃).bind
    rintro _ s₄ ⟨rfl, hs₄⟩
    exact ⟨rfl, rfl, hs₄⟩
  · rfl

theorem shift_exit {r : Int} : Alike bad f ((s.shift f).exit r) (s.exit r) := by
  apply (shift_exitTask hs).bind
  rintro ⟨v, s₁⟩ ⟨w, s'⟩ ⟨hv, hs₁, hs'⟩
  obtain rfl : v = w := hv
  obtain rfl : s₁ = s'.shift f := hs₁
  exact shift_callSchedule (c := .exitPanic) hs'

theorem shift_pageFault : Alike bad f (s.shift f).pageFault s.pageFault := shift_exit hs

theorem shift_kill {pid : Int} : Alike bad f ((s.shift f).kill pid) (s.kill pid) := by
  unfold kill
  rw [shift_pidToTask]
  cases s.pidToTask pid with
  | none => exact shift_ret hs
  | some t =>
    apply Sim.ite Iff.rfl
    · intro _
      exact shift_ret hs
    intro _
    apply (shift_exitTask hs).bind
    rintro ⟨v, s₁⟩ ⟨w, s'⟩ ⟨hv, hs₁, hs'⟩
    obtain rfl : v = w := hv
    obtain rfl : s₁ = s'.shift f := hs₁
    apply Sim.ite Iff.rfl
    · intro _
      exact shift_callSchedule (c := .ret v) hs'
    · intro _
      exact shift_ret hs'

theorem shift_reapChild : Alike bad f ((s.shift f).reapChild t) (s.reapChild t) := by
  apply shift_task.bind
  rintro _ k rfl
  apply (shift_freeTask hs).bind
  rintro _ s' ⟨rfl, hs'⟩
  exact shift_ret (s := s'.observe (.reaped s'.current t k.pid k.retval)) hs'

theorem shift_waitAnyChild {r : UserPtr} : Alike bad f ((s.shift f).waitAnyChild r) (s.waitAnyChild r) := by
  apply Sim.ite Iff.rfl
  · intro _
    exact shift_ret hs
  intro _
  apply (shift_findZombie).bind
  rintro o _ rfl
  cases o with
  | some child => exact shift_reapChild hs
  | none =>
    apply (shift_setTaskState hs).bind
    rintro _ s' ⟨rfl, hs'⟩
    exact shift_callSchedule (c := .waitAnyChild r) hs'

theorem shift_waitSpecificChild {r : UserPtr} :
    Alike bad f ((s.shift f).waitSpecificChild t r) (s.waitSpecificChild t r) := by
  apply (shift_isZombie).bind
  rintro b _ rfl
  apply Sim.ite Iff.rfl
  · intro _
    exact shift_reapChild hs
  · intro _
    apply (shift_setTaskState hs).bind
    rintro _ s' ⟨rfl, hs'⟩
    exact shift_callSchedule (c := .waitSpecificChild t r) hs'

theorem shift_waitpid {pid : Int} {r : UserPtr} : Alike bad f ((s.shift f).waitpid pid r) (s.waitpid pid r) := by
  apply Sim.ite Iff.rfl
  · intro _
    exact shift_ret hs
  intro _
  apply Sim.ite Iff.rfl
  · intro _
    exact shift_continueAt (c := .waitAnyChild r) hs
  intro _
  apply Sim.ite
  · rw [shift_pidToTask]
    exact Iff.rfl
  · intro _
    exact shift_ret hs
  intro _
  rw [shift_hasPid, show (s.shift f).siblings.members (s.shift f).current =
    s.siblings.members s.current from rfl]
  cases (s.siblings.members s.current).find? (s.hasPid pid) with
  | none => exact shift_ret hs
  | some child => exact shift_continueAt (c := .waitSpecificChild child r) hs

theorem shift_getprio {pid : Int} : Alike bad f ((s.shift f).getprio pid) (s.getprio pid) := by
  unfold getprio
  rw [shift_pidToTask]
  cases s.pidToTask pid with
  | none => exact shift_ret hs
  | some t =>
    apply shift_task.bind
    rintro _ k rfl
    exact shift_ret hs

theorem shift_queueUpdate : Alike bad f ((s.shift f).queueUpdate t h) (s.queueUpdate t h) := by
  apply (shift_queueDel hs).bind
  rintro _ s' ⟨rfl, hs'⟩
  exact shift_queueAdd hs'

theorem shift_updateQueuePriority :
    Alike bad f ((s.shift f).updateQueuePriority t (k.shift f)) (s.updateQueuePriority t k) := by
  unfold updateQueuePriority
  have hsame : (s.shift f).queueFromState (k.shift f).state (k.shift f).pid =
      s.queueFromState k.state k.pid := shift_queueFromState
  rw [hsame]
  cases s.queueFromState k.state k.pid with
  | none => exact alike s hs
  | some h => exact shift_queueUpdate hs

theorem shift_msgReinsert {pid : Nat} : Alike bad f ((s.shift f).msgReinsert t pid) (s.msgReinsert t pid) := by
  unfold msgReinsert
  rw [shift_queueFromMsg]
  cases s.queueFromMsg pid with
  | none => exact (shift_queueDel hs).bind fun _ _ _ => .error _
  | some h => exact shift_queueUpdate hs

theorem shift_chprio {pid p : Int} : Alike bad f ((s.shift f).chprio pid p) (s.chprio pid p) := by
  unfold chprio
  rw [shift_pidToTask]
  cases s.pidToTask pid with
  | none => exact shift_ret hs
  | some t =>
    apply Sim.ite Iff.rfl
    · intro _
      exact shift_ret hs
    intro _
    apply shift_task.bind
    rintro _ k rfl
    apply Sim.ite Iff.rfl
    · intro _
      exact shift_ret hs
    intro _
    apply Sim.ite Iff.rfl
    · intro _
      exact shift_ret hs
    intro _
    rw [shift_setTask_with (k := { k with priority := p })]
    · apply (shift_updateQueuePriority (s := s.setTask t { k with priority := p }) hs).bind
      rintro _ s₁ ⟨rfl, hs₁⟩
      apply Sim.ite Iff.rfl
      · intro _
        apply (shift_msgReinsert hs₁).bind
        rintro _ s₂ ⟨rfl, hs₂⟩
        exact shift_ret hs₂
      intro _
      apply Sim.ite Iff.rfl
      · intro _
        apply shift_task.bind
        rintro _ l rfl
        apply Sim.ite Iff.rfl
        · intro _
          exact shift_callSchedule (c := .ret k.priority) hs₁
        · intro _
          exact shift_ret hs₁
      intro _
      rw [show (s₁.shift f).queueTop .ready = s₁.queueTop .ready from rfl]
      cases s₁.queueTop .ready with
      | none => exact shift_pageFault hs₁
      | some highest =>
        apply shift_task.bind
        rintro _ l rfl
        apply Sim.ite Iff.rfl
        · intro _
          exact shift_callSchedule (c := .ret k.priority) hs₁
        · intro _
          exact shift_ret hs₁
    · rfl

theorem shift_waitClock {clock : Nat} : Alike bad f ((s.shift f).waitClock clock) (s.waitClock clock) := by
  apply shift_task.bind
  rintro _ k rfl
  rw [shift_setTask_with (k := { k with wakeTime := clock % 2 ^ 32 })]
  · apply (shift_setTaskState (s := s.setTask s.current { k with wakeTime := clock % 2 ^ 32 }) hs).bind
    rintro _ s' ⟨rfl, hs'⟩
    exact shift_callSchedule (c := .ret 0) hs'
  · rfl

end Life

section Messages
variable (hs : f.since < s.cptRst)

theorem shift_mqueue {i : Int} : Sim bad Eq ((s.shift f).mqueue i) (s.mqueue i) := by
  apply Sim.ite Iff.rfl
  · intro _
    exact .ok rfl
  · intro _
    exact .error _

include hs

theorem shift_pcreate {count : Int} : Alike bad f ((s.shift f).pcreate count) (s.pcreate count) := by
  apply Sim.ite Iff.rfl
  · intro _
    exact shift_ret hs
  intro _
  apply Sim.ite Iff.rfl
  · intro _
    exact shift_ret hs
  intro _
  rw [show (s.shift f).firstAvailableQueue = s.firstAvailableQueue from rfl]
  cases s.firstAvailableQueue with
  | none => exact shift_ret hs
  | some id => exact shift_ret (s := s.allocMqueue id count.toNat) hs

theorem shift_setMsgVal : Alike bad f ((s.shift f).setMsgVal t msg) (s.setMsgVal t msg) := by
  apply shift_task.bind
  rintro _ k rfl
  rw [shift_setTask_with (k := { k with msgVal := msg })]
  · exact alike (s.setTask t { k with msgVal := msg }) hs
  · rfl

theorem shift_handOver : Alike bad f ((s.shift f).handOver id msg t) (s.handOver id msg t) := by
  apply (shift_queueDel hs).bind
  rintro _ s₁ ⟨rfl, hs₁⟩
  apply (shift_setMsgVal hs₁).bind
  rintro _ s₂ ⟨rfl, hs₂⟩
  exact shift_setTaskReadyOrRunning (c := .psendRet id msg)
    (s := (s₂.observe (.entered id msg)).observe (.taken id msg)) hs₂

theorem shift_psendRet : Alike bad f ((s.shift f).psendRet id msg) (s.psendRet id msg) :=
  shift_ret (s := s.observe (.sent id msg)) hs

theorem shift_psendAdd : Alike bad f ((s.shift f).psendAdd id msg) (s.psendAdd id msg) := by
  unfold psendAdd
  rw [show (s.shift f).mqueues = s.mqueues from rfl]
  cases s.mqueues id with
  | none => exact shift_pageFault hs
  | some q => exact shift_psendRet (s := (s.addMsg id q msg).observe (.entered id msg)) hs

theorem shift_psendLoop {rst : Nat} : Alike bad f ((s.shift f).psendLoop id msg (f.num rst))
    (s.psendLoop id msg rst) := by
  unfold psendLoop
  rw [show (s.shift f).mqueues = s.mqueues from rfl]
  cases s.mqueues id with
  | none => exact shift_pageFault hs
  | some q =>
    apply shift_task.bind
    rintro _ k rfl
    apply Sim.ite Iff.rfl
    · intro _
      apply (shift_queueAdd hs).bind
      rintro _ s₁ ⟨rfl, hs₁⟩
      exact shift_setTaskInterruptedMsg (c := .psendLoop id msg rst) hs₁
    intro _
    apply Sim.ite (f.lt _ _)
    · intro _
      exact shift_ret hs
    intro _
    apply Sim.ite Iff.rfl
    · intro _
      exact shift_psendRet hs
    intro _
    rw [show (s.shift f).queueTop (.waitingReceivers id) = s.queueTop (.waitingReceivers id) from rfl]
    cases s.queueTop (.waitingReceivers id) with
    | none => exact shift_psendAdd hs
    | some last =>
      apply (shift_queueDel hs).bind
      rintro _ s₁ ⟨rfl, hs₁⟩
      exact shift_setTaskReadyOrRunning (c := .psendAdd id msg) hs₁

theorem shift_psend {i data : Int} : Alike bad f ((s.shift f).psend i data) (s.psend i data) := by
  apply shift_mqueue.bind
  rintro o _ rfl
  cases o with
  | none => exact shift_ret hs
  | some q =>
    dsimp only
    rw [show (s.shift f).sends = s.sends from rfl]
    rw [show (s.shift f).called i.toNat ⟨data, s.sends⟩ = (s.called i.toNat ⟨data, s.sends⟩).shift f from rfl]
    have hc : f.since < (s.called i.toNat ⟨data, s.sends⟩).cptRst := hs
    generalize s.called i.toNat ⟨data, s.sends⟩ = s₁ at hc ⊢
    rw [show (s₁.shift f).queueTop (.waitingReceivers i.toNat) =
      s₁.queueTop (.waitingReceivers i.toNat) from rfl]
    cases s₁.queueTop (.waitingReceivers i.toNat) with
    | some last => exact shift_handOver hc
    | none =>
      apply (shift_setMsgVal hc).bind
      rintro _ s₂ ⟨rfl, hs₂⟩
      exact shift_psendLoop hs₂

theorem shift_preceiveRet {p : UserPtr} :
    Alike bad f ((s.shift f).preceiveRet id p msg) (s.preceiveRet id p msg) := by
  cases p with
  | null => exact shift_ret (s := s.observe (.received id msg)) hs
  | mapped => exact shift_ret (s := s.observe (.received id msg)) hs
  | unmapped => exact shift_pageFault hs
  | kernel => exact .error _

omit hs in
theorem shift_record {seen : List Obs} {calls : List MsgCall} :
    { (s.shift f).setMqueue id q with
      trace := seen ++ (s.shift f).trace
      msgCalls := calls ++ (s.shift f).msgCalls } =
    { s.setMqueue id q with
      trace := seen ++ s.trace
      msgCalls := calls ++ s.msgCalls }.shift f := by
  simp only [shift, setMqueue, List.append_assoc]

theorem shift_takeFrom {p : UserPtr} : Alike bad f ((s.shift f).takeFrom id p q t) (s.takeFrom id p q t) := by
  apply (shift_queueDel hs).bind
  rintro _ s₁ ⟨rfl, hs₁⟩
  apply shift_task.bind
  rintro _ k rfl
  rw [show (k.shift f).msgVal = k.msgVal from rfl]
  cases takeWith id q k.msgVal with
  | none => exact shift_pageFault hs₁
  | some take =>
    dsimp only
    rw [shift_record]
    apply (shift_setMsgVal (s := { s₁.setMqueue id take.queue with
      trace := take.seen ++ s₁.trace
      msgCalls := take.calls ++ s₁.msgCalls }) hs₁).bind
    rintro _ s₂ ⟨rfl, hs₂⟩
    exact shift_setTaskReadyOrRunning (c := .preceiveRet id p take.msg) hs₂

theorem shift_observeLost : (s.shift f).observeLost id msg = (s.observeLost id msg).shift f ∧
    f.since < (s.observeLost id msg).cptRst := by
  unfold observeLost
  split
  · exact ⟨rfl, hs⟩
  · exact ⟨rfl, hs⟩

theorem shift_preceiveLoop {p : UserPtr} {rst : Nat} :
    Alike bad f ((s.shift f).preceiveLoop id p (f.num rst)) (s.preceiveLoop id p rst) := by
  apply shift_task.bind
  rintro _ k rfl
  obtain ⟨hlost, hs'⟩ : (s.shift f).observeLost id k.msgVal = (s.observeLost id k.msgVal).shift f ∧
      f.since < (s.observeLost id k.msgVal).cptRst := shift_observeLost hs
  rw [show (s.shift f).mqueues = s.mqueues from rfl, show (k.shift f).msgVal = k.msgVal from rfl, hlost]
  cases s.mqueues id with
  | none => exact shift_pageFault hs'
  | some q =>
    apply Sim.ite Iff.rfl
    · intro _
      apply (shift_queueAdd hs).bind
      rintro _ s₁ ⟨rfl, hs₁⟩
      exact shift_setTaskInterruptedMsg (c := .preceiveLoop id p rst) hs₁
    intro _
    apply Sim.ite (f.lt _ _)
    · intro _
      exact shift_ret hs'
    intro _
    apply Sim.ite Iff.rfl
    · intro _
      apply (shift_setMsgVal hs).bind
      rintro _ s₁ ⟨rfl, hs₁⟩
      exact shift_preceiveRet hs₁
    intro _
    rw [show (s.shift f).queueTop (.waitingSenders id) = s.queueTop (.waitingSenders id) from rfl]
    cases s.queueTop (.waitingSenders id) with
    | some last => exact shift_takeFrom hs
    | none =>
      cases q.msgs with
      | nil => exact shift_pageFault hs
      | cons msg rest =>
        exact shift_preceiveRet (s := (s.popMsg id q rest).observe (.taken id msg)) hs

theorem shift_preceive {i : Int} {p : UserPtr} : Alike bad f ((s.shift f).preceive i p) (s.preceive i p) := by
  apply shift_mqueue.bind
  rintro o _ rfl
  cases o with
  | none => exact shift_ret hs
  | some q =>
    apply (shift_setMsgVal hs).bind
    rintro _ s₁ ⟨rfl, hs₁⟩
    exact shift_preceiveLoop hs₁

theorem shift_release : Alike bad f ((s.shift f).release t) (s.release t) := by
  apply (shift_queueDel hs).bind
  rintro _ s₁ ⟨rfl, hs₁⟩
  exact shift_setTaskState hs₁

theorem shift_bumpCptRst : Alike (· = .overflow) f ((s.shift f).bumpCptRst id) (s.bumpCptRst id) := by
  have hbump : (s.shift f).bump id = (s.bump id).shift f := by
    unfold bump shift
    simp only [observe, f.next s.cptRst hs, List.cons_append]
  have hle : s.cptRst ≤ (s.shift f).cptRst := f.le s.cptRst
  unfold bumpCptRst
  by_cases hlt : (s.shift f).cptRst < intMax
  · rw [if_pos hlt, if_pos (by omega), hbump]
    exact alike (s.bump id) (Nat.lt_succ_of_lt hs)
  · rw [if_neg hlt]
    exact .of_bad rfl

omit hs in
theorem shift_freeMqueue : (s.shift f).freeMqueue id q = (s.freeMqueue id q).shift f := by
  simp only [freeMqueue, observeDropped, observe, asked, shift, List.append_assoc, List.cons_append]

def sweep (id : Nat) (q : MQueue) (s : State) : Except Fault State := do
  let s ← (s.queues.members (.waitingSenders id)).reverse.foldlM release s
  let s ← (s.queues.members (.waitingReceivers id)).reverse.foldlM release s
  .ok (s.freeMqueue id q)

omit hs in
theorem deleteQueue_eq : s.deleteQueue id q = s.bumpCptRst id >>= sweep id q := rfl

theorem shift_sweep : Alike bad f ((s.shift f).sweep id q) (s.sweep id q) := by
  apply Sim.bind (R := Shifted f)
  · apply Sim.foldlM _ _ ⟨rfl, hs⟩
    rintro t _ s' ⟨rfl, hs'⟩
    exact shift_release hs'
  rintro _ s₂ ⟨rfl, hs₂⟩
  apply Sim.bind (R := Shifted f)
  · apply Sim.foldlM _ _ ⟨rfl, hs₂⟩
    rintro t _ s' ⟨rfl, hs'⟩
    exact shift_release hs'
  rintro _ s₃ ⟨rfl, hs₃⟩
  rw [shift_freeMqueue]
  exact alike (s₃.freeMqueue id q) hs₃

theorem shift_deleteQueue : Alike (· = .overflow) f ((s.shift f).deleteQueue id q) (s.deleteQueue id q) := by
  rw [deleteQueue_eq, deleteQueue_eq]
  apply (shift_bumpCptRst hs).bind
  rintro _ s₁ ⟨rfl, hs₁⟩
  exact shift_sweep hs₁

theorem shift_pdelete {i : Int} : Alike (· = .overflow) f ((s.shift f).pdelete i) (s.pdelete i) := by
  apply shift_mqueue.bind
  rintro o _ rfl
  cases o with
  | none => exact shift_ret hs
  | some q =>
    apply (shift_deleteQueue hs).bind
    rintro _ s₁ ⟨rfl, hs₁⟩
    exact shift_ret hs₁

theorem shift_preset {i : Int} : Alike (· = .overflow) f ((s.shift f).preset i) (s.preset i) := by
  apply shift_mqueue.bind
  rintro o _ rfl
  cases o with
  | none => exact shift_ret hs
  | some q =>
    apply (shift_bumpCptRst hs).bind
    rintro _ s₁ ⟨rfl, hs₁⟩
    apply (shift_deleteQueue hs₁).bind
    rintro _ s₂ ⟨rfl, hs₂⟩
    exact shift_ret (s := s₂.allocMqueue i.toNat q.count) hs₂

theorem shift_pcount {i : Int} {p : UserPtr} : Alike bad f ((s.shift f).pcount i p) (s.pcount i p) := by
  apply shift_mqueue.bind
  rintro o _ rfl
  cases o with
  | none => exact shift_ret hs
  | some q =>
    cases p with
    | null => exact shift_ret hs
    | mapped => exact shift_ret (s := s.observe (.counted i.toNat (s.countOf i.toNat q))) hs
    | unmapped => exact shift_pageFault hs
    | kernel => exact .error _

end Messages

section Machine
variable (hs : f.since < s.cptRst)
include hs

theorem shift_handle {call : Syscall} : Alike (· = .overflow) f ((s.shift f).handle call) (s.handle call) := by
  cases call with
  | start a => exact shift_start hs
  | getpid =>
    apply shift_task.bind
    rintro _ k rfl
    exact shift_ret hs
  | getprio pid => exact shift_getprio hs
  | chprio pid priority => exact shift_chprio hs
  | kill pid => exact shift_kill hs
  | waitpid pid retvalp => exact shift_waitpid hs
  | exit retval => exact shift_exit hs
  | pcount id count => exact shift_pcount hs
  | pcreate count => exact shift_pcreate hs
  | pdelete id => exact shift_pdelete hs
  | preceive id message => exact shift_preceive hs
  | preset id => exact shift_preset hs
  | psend id message => exact shift_psend hs
  | currentClock => exact shift_ret hs
  | waitClock clock => exact shift_waitClock hs

theorem shift_startRet : Alike bad f ((s.shift f).startRet t) (s.startRet t) := by
  unfold startRet
  cases hk : s.tasks t with
  | none =>
    rw [show (s.shift f).tasks t = none by simp [shift, hk]]
    exact alike (s.setCtl .user) hs
  | some k =>
    rw [show (s.shift f).tasks t = some (k.shift f) by simp [shift, hk]]
    exact shift_ret (s := s.observe (.started s.current t k.pid)) hs

theorem shift_resumeAt : Alike bad f ((s.shift f).resumeAt (c.shift f)) (s.resumeAt c) := by
  cases c with
  | iret => exact alike (s.setCtl .user) hs
  | ret v => exact shift_ret hs
  | startRet child => exact shift_startRet hs
  | waitAnyChild retvalp => exact shift_waitAnyChild hs
  | waitSpecificChild child retvalp => exact shift_waitSpecificChild hs
  | psendLoop id msg rst => exact shift_psendLoop hs
  | psendAdd id msg => exact shift_psendAdd hs
  | psendRet id msg => exact shift_psendRet hs
  | preceiveLoop id message rst => exact shift_preceiveLoop hs
  | preceiveRet id message msg => exact shift_preceiveRet hs
  | exitPanic => exact .error _

theorem shift_resume : Alike bad f (s.shift f).resume s.resume := by
  apply shift_task.bind
  rintro _ k rfl
  rw [shift_setTask_with (k := { k with kont := .iret })]
  · exact shift_resumeAt (s := s.setTask s.current { k with kont := .iret }) hs
  · rfl

theorem shift_step (e : Event) : Alike (· = .overflow) f (step e (s.shift f)) (step e s) := by
  unfold step stepWith
  rw [show (s.shift f).ctl = s.ctl from rfl]
  cases e with
  | tick =>
    cases s.ctl with
    | user =>
      exact shift_callSchedule (c := .iret) (s := { s with totalTicks := (s.totalTicks + 1) % 2 ^ 32 }) hs
    | _ => exact .error _
  | call call =>
    cases s.ctl with
    | user => exact shift_handle hs
    | _ => exact .error _
  | kernel =>
    cases s.ctl with
    | sched => exact shift_schedule hs
    | resume => exact shift_resume hs
    | user => exact .error _

omit hs

theorem shift_exec (hs : f.since < s.cptRst) (es : List Event) :
    Alike (· = .overflow) f (Runs.exec step es (s.shift f)) (Runs.exec step es s) := by
  apply Sim.exec _ (show Shifted f (s.shift f) s from ⟨rfl, hs⟩)
  rintro e _ s' ⟨rfl, hs'⟩
  exact shift_step hs' e

end Machine
end State
end DominOS.Process
