import DominOS.ProcessInv

/-! Which tasks go on, in a call that has been given a pointer by user code, with a store through it
still to come: the caller, while it waits, and nobody else. -/
namespace DominOS.Process
open IntrusiveLists Fallible
variable {s s' : State} {t u c : TaskPtr} {k k' : Task} {hd : Head} {kont : Kont} {Q : TaskPtr → Prop}
  {P : TaskPtr → Prop}

def Kont.Points : Kont → Prop
  | .waitAnyChild _ | .waitSpecificChild _ _ | .preceiveLoop _ _ _ | .preceiveRet _ _ _ => True
  | _ => False

namespace State

structure Pointed (P : TaskPtr → Prop) (c : TaskPtr) (s : State) : Prop where
  current : s.current = c
  below : c < s.fresh
  tasks : ∀ t k, s.tasks t = some k → t < s.fresh ∧ (k.kont.Points → P t ∧ k.firstStart = false)
  running : ∀ k, s.tasks c = some k → k.firstStart = false

/-- The tasks that go on with a pointer are of `Q`, and user code is not among them. -/
structure Pointers (Q : TaskPtr → Prop) (s : State) : Prop where
  holds : Pointed Q s.current s
  user : s.ctl = .user → ∀ k, s.tasks s.current = some k → ¬ k.kont.Points

abbrev Serves (Q : TaskPtr → Prop) (c : TaskPtr) (s : State) : Prop :=
  Pointed (fun t => t ≠ c ∧ Q t) c s

abbrev Into (R : State → Prop) (x : Except Fault State) : Prop := Post (fun _ => False) x R

namespace Pointed
variable (h : Pointed P c s)
include h

theorem congr (ht : s'.tasks = s.tasks) (hc : s'.current = s.current) (hf : s'.fresh = s.fresh) :
    Pointed P c s' := by
  refine ⟨hc.trans h.current, by rw [hf]; exact h.below, fun t k hk => ?_, fun k hk => ?_⟩
  · rw [hf]
    exact h.tasks t k (ht ▸ hk)
  · exact h.running k (ht ▸ hk)

theorem mono (hP : ∀ t, (s.tasks t).isSome → P t → Q t) : Pointed Q c s := by
  refine ⟨h.current, h.below, fun t k hk => ?_, h.running⟩
  obtain ⟨hlt, hp⟩ := h.tasks t k hk
  exact ⟨hlt, fun hkont => ⟨hP t (by rw [hk]; rfl) (hp hkont).1, (hp hkont).2⟩⟩

theorem observe {o : Obs} : Pointed P c (s.observe o) := h.congr rfl rfl rfl

theorem setTask (hk : s.tasks t = some k) (hkont : k'.kont = k.kont)
    (hf : k'.firstStart = k.firstStart) : Pointed P c (s.setTask t k') := by
  refine ⟨h.current, h.below, fun u l hl => ?_, fun l hl => ?_⟩
  · by_cases hu : u = t
    · subst hu
      rw [setTask_tasks_self] at hl
      cases hl
      rw [hkont, hf]
      exact h.tasks u k hk
    · rw [setTask_tasks_of_ne hu] at hl
      exact h.tasks u l hl
  · by_cases hc : c = t
    · subst hc
      rw [setTask_tasks_self] at hl
      cases hl
      rw [hf]
      exact h.running k hk
    · rw [setTask_tasks_of_ne hc] at hl
      exact h.running l hl

theorem queueAdd : Into (Pointed P c) (s.queueAdd t hd) := by
  unfold State.queueAdd
  split
  · exact .ok (h.congr rfl rfl rfl)
  · exact .error nofun

theorem unlink : Into (fun s' => Pointed P c s' ∧ s'.tasks = s.tasks) (s.queueDel t) := by
  unfold State.queueDel
  split
  · exact .error nofun
  · exact .ok ⟨h.congr rfl rfl rfl, rfl⟩

theorem queueDel : Into (Pointed P c) (s.queueDel t) := h.unlink.mono fun _ h' => h'.1

theorem siblingAdd : Into (Pointed P c) (s.siblingAdd t u) := by
  unfold State.siblingAdd
  split
  · exact .ok (h.congr rfl rfl rfl)
  · exact .error nofun

theorem globalAdd : Into (Pointed P c) (s.globalAdd t) := by
  unfold State.globalAdd
  split
  · exact .ok (h.congr rfl rfl rfl)
  · exact .error nofun

theorem delist : Into (fun s' => Pointed P c s' ∧ s'.tasks = s.tasks) (s.globalDel t) := by
  unfold State.globalDel
  split
  · exact .error nofun
  · exact .ok ⟨h.congr rfl rfl rfl, rfl⟩

theorem setTaskState {st : TaskState} : Into (Pointed P c) (s.setTaskState t st hd) := by
  refine (task_post s t).bind fun k hk => ?_
  split
  · exact .ok h
  · have hdel : Into (fun s' => Pointed P c s' ∧ s'.tasks = s.tasks)
        (if t ≠ s.current ∧ k.state ≠ .startup ∧ k.state ≠ .interruptedMsg then
          s.queueDel t else .ok s) := by
      split
      · exact h.unlink
      · exact .ok ⟨h, rfl⟩
    refine hdel.bind fun s' h' => ?_
    rw [← h'.2] at hk
    have hset : Pointed P c (s'.setTask t { k with state := st }) := h'.1.setTask hk rfl rfl
    exact hset.queueAdd

theorem wakeup : Into (Pointed P c) (s.wakeup t) := by
  refine (task_post s t).bind fun k hk => ?_
  split
  · have hset : Pointed P c (s.setTask t { k with wakeTime := 0 }) := h.setTask hk rfl rfl
    exact hset.setTaskState
  · exact .ok h

theorem tryWakeupTasks : Into (Pointed P c) s.tryWakeupTasks :=
  .foldlM (fun _ _ => Pointed P c) h fun _ _ _ _ hs => hs.wakeup

theorem siblingDel : Into (Pointed P c) (s.siblingDel t) := by
  unfold State.siblingDel
  split
  · exact .ok h
  · exact (task_post s _).bind fun _ _ => .ok (h.congr rfl rfl rfl)

theorem freeTask : Into (Pointed P c) (s.freeTask t) := by
  have hdel : Into (Pointed P c) (if s.queues.link t = none then .ok s else s.queueDel t) := by
    split
    · exact .ok h
    · exact h.queueDel
  refine hdel.bind fun s' h' => h'.siblingDel.bind fun s'' h'' => .ok ⟨h''.current, h''.below, ?_, ?_⟩
  · intro u l hl
    refine h''.tasks u l ?_
    by_cases hu : u = t
    · rw [hu] at hl
      simp [Function.update_self] at hl
    · simpa [Function.update_of_ne hu] using hl
  · intro l hl
    refine h''.running l ?_
    by_cases hu : c = t
    · rw [hu] at hl
      simp [Function.update_self] at hl
    · simpa [Function.update_of_ne hu] using hl

theorem reap : Into (Pointed P c) (s.reap t) := by
  refine (task_post s t).bind fun k _ => ?_
  split
  · exact .ok h
  split
  · exact h.freeTask
  split
  · exact .error nofun
  · refine (task_post s _).bind fun l _ => ?_
    split
    · exact h.freeTask
    · exact .ok h

theorem reapZombies : Into (Pointed P c) s.reapZombies :=
  .foldlM (fun _ _ => Pointed P c) h fun _ _ _ _ hs => hs.reap

theorem setMsgVal {msg : Msg} : Into (Pointed P c) (s.setMsgVal t msg) :=
  (task_post s t).bind fun _ hk => .ok (h.setTask hk rfl rfl)

theorem release : Into (Pointed P c) (s.release t) :=
  h.queueDel.bind fun _ h' => h'.setTaskState

theorem releaseAll {l : List TaskPtr} : Into (Pointed P c) (l.foldlM State.release s) :=
  .foldlM (fun _ _ => Pointed P c) h fun _ _ _ _ hs => hs.release

theorem bumpCptRst {q : Nat} : Into (Pointed P c) (s.bumpCptRst q) := by
  unfold State.bumpCptRst
  split
  · exact .ok (h.congr rfl rfl rfl)
  · exact .error nofun

theorem deleteQueue {q : Nat} {mq : MQueue} : Into (Pointed P c) (s.deleteQueue q mq) :=
  h.bumpCptRst.bind fun _ h₁ => h₁.releaseAll.bind fun _ h₂ => h₂.releaseAll.bind fun _ h₃ =>
    .ok (h₃.congr rfl rfl rfl)

theorem queueUpdate : Into (Pointed P c) (s.queueUpdate t hd) :=
  h.queueDel.bind fun _ h' => h'.queueAdd

theorem unlockParent {parent : Option TaskPtr} :
    Into (Pointed P c) (s.unlockInterruptedChildParent parent) := by
  unfold State.unlockInterruptedChildParent
  split
  · exact .error nofun
  · refine (task_post s _).bind fun k _ => ?_
    split
    · exact h.setTaskState
    · exact .ok h

theorem exitTask {r : Int} :
    Post (fun _ => False) (s.exitTask t r) fun x => Pointed P c x.2 := by
  unfold State.exitTask
  split
  · exact .ok h
  refine (task_post s t).bind fun k hk => ?_
  split
  · exact .ok h
  have hset : Pointed P c (s.setTask t { k with priority := deathPriority s.totalTicks }) :=
    h.setTask hk rfl rfl
  have hself : (s.setTask t { k with priority := deathPriority s.totalTicks }).tasks t =
      some { k with priority := deathPriority s.totalTicks } := setTask_tasks_self
  simp only
  generalize s.setTask t { k with priority := deathPriority s.totalTicks } = s₀ at hset hself ⊢
  have hdel : Into (fun s' => Pointed P c s' ∧ s'.tasks = s₀.tasks)
      (if (s₀.queueFromMsg k.pid).isSome then s₀.queueDel t else .ok s₀) := by
    split
    · exact hset.unlink
    · exact .ok ⟨hset, rfl⟩
  refine hdel.bind fun s₁ ⟨h₁, ht₁⟩ => h₁.delist.bind fun s₂ ⟨h₂, ht₂⟩ => ?_
  rw [← ht₁, ← ht₂] at hself
  have hfree : Pointed P c (s₂.freePid k.pid) := h₂.congr rfl rfl rfl
  have hdead : Pointed P c ((s₂.freePid k.pid).setTask t
      { k with priority := deathPriority s.totalTicks, retval := r }) :=
    hfree.setTask hself rfl rfl
  exact hdead.observe.setTaskState.bind fun s₃ h₃ => h₃.unlockParent.bind fun s₄ h₄ => .ok h₄

end Pointed

theorem mqueue_into {id : Int} {R : State → Prop} {f : Option MQueue → Except Fault State}
    (hf : ∀ o, s.mqueue id = .ok o → Into R (f o)) : Into R (s.mqueue id >>= f) := by
  cases ho : s.mqueue id with
  | error e => exact .error nofun
  | ok o => exact hf o ho

section Calls
variable {id : Int} {q : Nat} {mq : MQueue} {msg : Msg} {message : UserPtr} {rst : Nat} {a : StartArgs}
variable (h : Serves Q c s)
include h

theorem Pointed.pointers : Pointers Q s := by
  refine ⟨?_, fun _ k hk hp => ?_⟩
  · rw [h.current]
    exact h.mono fun _ _ hp => hp.2
  · rw [h.current] at hk
    exact ((h.tasks c k hk).2 hp).1.1 rfl

theorem Pointed.setCtl {x : Ctl} : Serves Q c (s.setCtl x) := h.congr rfl rfl rfl

theorem Pointed.ret {v : Int} : Into (Pointers Q) (s.ret v) := .ok h.observe.setCtl.pointers

theorem Pointed.goOn {x : Ctl} (hx : x ≠ .user) (hkont : kont.Points → Q c) :
    Into (Pointers Q) (s.goOn x kont) := by
  refine (task_post s _).bind fun k hk => .ok ⟨?_, fun hu => absurd hu hx⟩
  rw [h.current] at hk ⊢
  have hf := h.running k hk
  refine ⟨rfl, ?_, fun u l hl => ?_, fun l hl => ?_⟩
  · change s.current < s.fresh
    rw [h.current]
    exact h.below
  · by_cases hu : u = c
    · subst hu
      rw [show ((s.setTask u { k with kont := kont }).setCtl x).tasks u = _ from
        setTask_tasks_self] at hl
      cases hl
      exact ⟨h.below, fun hp => ⟨hkont hp, hf⟩⟩
    · rw [show ((s.setTask c { k with kont := kont }).setCtl x).tasks u = _ from
        setTask_tasks_of_ne hu] at hl
      obtain ⟨hlt, hp⟩ := h.tasks u l hl
      exact ⟨hlt, fun hl => ⟨(hp hl).1.2, (hp hl).2⟩⟩
  · change (s.setTask c { k with kont := kont }).tasks s.current = some l at hl
    rw [h.current, setTask_tasks_self] at hl
    cases hl
    exact hf

theorem Pointed.callSchedule (hkont : kont.Points → Q c) :
    Into (Pointers Q) (s.callSchedule kont) := h.goOn nofun hkont

theorem Pointed.continueAt (hkont : kont.Points → Q c) : Into (Pointers Q) (s.continueAt kont) :=
  h.goOn nofun hkont

theorem Pointed.setTaskReadyOrRunning (hkont : kont.Points → Q c) :
    Into (Pointers Q) (s.setTaskReadyOrRunning t kont) := by
  refine (task_post s t).bind fun k hk => ?_
  have hset : Serves Q c (s.setTask t { k with state := .ready }) := h.setTask hk rfl rfl
  refine hset.queueAdd.bind fun s' h' => (task_post s' _).bind fun l _ => ?_
  split
  · exact h'.callSchedule hkont
  · exact h'.continueAt hkont

theorem Pointed.setTaskInterruptedMsg (hkont : kont.Points → Q c) :
    Into (Pointers Q) (s.setTaskInterruptedMsg t kont) := by
  refine (task_post s t).bind fun k hk => ?_
  have hset : Serves Q c (s.setTask t { k with state := .interruptedMsg }) := h.setTask hk rfl rfl
  exact hset.callSchedule hkont

theorem Pointed.exit {r : Int} : Into (Pointers Q) (s.exit r) :=
  h.exitTask.bind fun _ h' => h'.callSchedule nofun

theorem Pointed.pageFault : Into (Pointers Q) s.pageFault := h.exit

theorem Pointed.allocTask {pid : Nat} : Serves Q c (s.allocTask pid a) := by
  refine ⟨h.current, Nat.lt_succ_of_lt h.below, fun u l hl => ?_, fun l hl => ?_⟩
  · by_cases hu : u = s.fresh
    · subst hu
      rw [show (s.allocTask pid a).tasks s.fresh = _ from setTask_tasks_self] at hl
      cases hl
      exact ⟨Nat.lt_succ_self _, nofun⟩
    · rw [show (s.allocTask pid a).tasks u = _ from setTask_tasks_of_ne hu] at hl
      obtain ⟨hlt, hp⟩ := h.tasks u l hl
      exact ⟨Nat.lt_succ_of_lt hlt, hp⟩
  · rw [show (s.allocTask pid a).tasks c = _ from setTask_tasks_of_ne (ne_of_lt h.below)] at hl
    exact h.running l hl

theorem Pointed.start : Into (Pointers Q) (s.start a) := by
  unfold State.start
  split
  · exact h.ret
  split
  · exact h.ret
  split
  · exact h.ret
  split
  · exact h.ret
  rename_i pid _
  have hm : Serves Q c (s.markPid pid) := h.congr rfl rfl rfl
  simp only
  split
  · exact hm.ret
  split
  · exact .error nofun
  have hlaunch : Into (Serves Q c) ((s.markPid pid).launch pid a) :=
    hm.allocTask.siblingAdd.bind fun _ h₁ => h₁.setTaskState.bind fun _ h₂ => h₂.globalAdd
  refine hlaunch.bind fun s' h' => (task_post s' _).bind fun k _ => ?_
  split
  · exact h'.callSchedule nofun
  · exact h'.continueAt nofun

theorem Pointed.kill {pid : Int} : Into (Pointers Q) (s.kill pid) := by
  unfold State.kill
  split
  · exact h.ret
  split
  · exact h.ret
  refine h.exitTask.bind fun ⟨r, s'⟩ h' => ?_
  simp only
  split
  · exact h'.callSchedule nofun
  · exact h'.ret

theorem Pointed.reapChild : Into (Pointers Q) (s.reapChild t) :=
  (task_post s t).bind fun _ _ => h.freeTask.bind fun _ h' => h'.observe.ret

theorem Pointed.waitAnyChild {r : UserPtr} (hc : Q c) : Into (Pointers Q) (s.waitAnyChild r) := by
  unfold State.waitAnyChild
  split
  · exact h.ret
  cases s.findZombie (s.siblings.members s.current) with
  | error e => exact .error nofun
  | ok o =>
    cases o with
    | some child => exact h.reapChild
    | none => exact h.setTaskState.bind fun _ h' => h'.callSchedule fun _ => hc

theorem Pointed.waitSpecificChild {r : UserPtr} (hc : Q c) :
    Into (Pointers Q) (s.waitSpecificChild t r) := by
  unfold State.waitSpecificChild
  cases s.isZombie t with
  | error e => exact .error nofun
  | ok b =>
    cases b with
    | true => exact h.reapChild
    | false => exact h.setTaskState.bind fun _ h' => h'.callSchedule fun _ => hc

theorem Pointed.waitpid {pid : Int} {r : UserPtr} (hc : r = .null ∨ r = .mapped → Q c) :
    Into (Pointers Q) (s.waitpid pid r) := by
  unfold State.waitpid
  split
  · exact h.ret
  rename_i hr
  have hq : Q c := by
    refine hc ?_
    by_contra hn
    exact hr (not_or.mp hn)
  split
  · exact h.continueAt fun _ => hq
  split
  · exact h.ret
  split
  · exact h.ret
  · exact h.continueAt fun _ => hq

theorem Pointed.getprio {pid : Int} : Into (Pointers Q) (s.getprio pid) := by
  unfold State.getprio
  split
  · exact h.ret
  · exact (task_post s _).bind fun _ _ => h.ret

theorem Pointed.chprio {pid priority : Int} : Into (Pointers Q) (s.chprio pid priority) := by
  unfold State.chprio
  split
  · exact h.ret
  rename_i t _
  split
  · exact h.ret
  refine (task_post s t).bind fun k hk => ?_
  split
  · exact h.ret
  split
  · exact h.ret
  have hset : Serves Q c (s.setTask t { k with priority := priority }) := h.setTask hk rfl rfl
  have hrank : Into (Serves Q c)
      ((s.setTask t { k with priority := priority }).updateQueuePriority t k) := by
    unfold State.updateQueuePriority
    split
    · exact .ok hset
    · exact hset.queueUpdate
  refine hrank.bind fun s₁ h₁ => ?_
  split
  · have hre : Into (Serves Q c) (s₁.msgReinsert t k.pid) := by
      unfold State.msgReinsert
      split
      · exact h₁.queueDel.bind fun _ _ => .error nofun
      · exact h₁.queueUpdate
    exact hre.bind fun _ h₂ => h₂.ret
  split
  · refine (task_post s₁ _).bind fun l _ => ?_
    split
    · exact h₁.callSchedule nofun
    · exact h₁.ret
  split
  · exact h₁.pageFault
  · refine (task_post s₁ _).bind fun l _ => ?_
    split
    · exact h₁.callSchedule nofun
    · exact h₁.ret

theorem Pointed.waitClock {clock : Nat} : Into (Pointers Q) (s.waitClock clock) := by
  refine (task_post s _).bind fun k hk => ?_
  have hset : Serves Q c (s.setTask s.current { k with wakeTime := clock % 2 ^ 32 }) :=
    h.setTask hk rfl rfl
  exact hset.setTaskState.bind fun _ h' => h'.callSchedule nofun

theorem Pointed.psendRet : Into (Pointers Q) (s.psendRet q msg) := h.observe.ret

theorem Pointed.psendAdd : Into (Pointers Q) (s.psendAdd q msg) := by
  unfold State.psendAdd
  split
  · exact h.pageFault
  · rename_i mq _
    have hadd : Serves Q c (s.addMsg q mq msg) := h.congr rfl rfl rfl
    exact hadd.observe.psendRet

theorem Pointed.psendLoop : Into (Pointers Q) (s.psendLoop q msg rst) := by
  unfold State.psendLoop
  split
  · exact h.pageFault
  refine (task_post s _).bind fun k _ => ?_
  split
  · exact h.queueAdd.bind fun _ h' => h'.setTaskInterruptedMsg nofun
  split
  · exact h.ret
  split
  · exact h.psendRet
  split
  · exact h.psendAdd
  · exact h.queueDel.bind fun _ h' => h'.setTaskReadyOrRunning nofun

theorem Pointed.psend {data : Int} : Into (Pointers Q) (s.psend id data) := by
  refine mqueue_into fun o _ => ?_
  split
  · exact h.ret
  have hcall : Serves Q c (s.called id.toNat ⟨data, s.sends⟩) := h.congr rfl rfl rfl
  simp only
  split
  · refine hcall.queueDel.bind fun _ h₁ => h₁.setMsgVal.bind fun _ h₂ => ?_
    exact h₂.observe.observe.setTaskReadyOrRunning nofun
  · exact hcall.setMsgVal.bind fun _ h' => h'.psendLoop

theorem Pointed.preceiveRet : Into (Pointers Q) (s.preceiveRet q message msg) := by
  unfold State.preceiveRet
  split
  · exact h.observe.ret
  · exact h.observe.ret
  · exact h.pageFault
  · exact .error nofun

theorem Pointed.takeFrom (hc : Q c) : Into (Pointers Q) (s.takeFrom q message mq t) := by
  refine h.queueDel.bind fun s₁ h₁ => (task_post s₁ t).bind fun k _ => ?_
  rw [if_neg fun hno => hno.1 rfl]
  split
  · exact h₁.pageFault
  · rename_i take _
    have htake : Serves Q c { s₁.setMqueue q take.queue with
        trace := take.seen ++ s₁.trace
        msgCalls := take.calls ++ s₁.msgCalls } := h₁.congr rfl rfl rfl
    exact htake.setMsgVal.bind fun _ h₂ => h₂.setTaskReadyOrRunning fun _ => hc

theorem Pointed.observeLost : Serves Q c (s.observeLost q msg) := by
  unfold State.observeLost
  split
  · exact h
  · exact h.observe

theorem Pointed.preceiveLoop (hc : Q c) : Into (Pointers Q) (s.preceiveLoop q message rst) := by
  refine (task_post s _).bind fun k _ => ?_
  split
  · exact h.observeLost.pageFault
  split
  · exact h.queueAdd.bind fun _ h' => h'.setTaskInterruptedMsg fun _ => hc
  split
  · exact h.observeLost.ret
  split
  · exact h.setMsgVal.bind fun _ h' => h'.preceiveRet
  split
  · exact h.takeFrom hc
  split
  · exact h.pageFault
  · rename_i mq _ _ _ _ _ _ _ msg rest _
    have hpop : Serves Q c (s.popMsg q mq rest) := h.congr rfl rfl rfl
    exact hpop.observe.preceiveRet

theorem Pointed.preceive (hc : ∀ mq, s.mqueue id = .ok (some mq) → Q c) :
    Into (Pointers Q) (s.preceive id message) := by
  refine mqueue_into fun o ho => ?_
  split
  · exact h.ret
  · rename_i mq
    exact h.setMsgVal.bind fun _ h' => h'.preceiveLoop (hc mq ho)

theorem Pointed.pdelete : Into (Pointers Q) (s.pdelete id) := by
  refine mqueue_into fun o _ => ?_
  split
  · exact h.ret
  · exact h.deleteQueue.bind fun _ h' => h'.ret

theorem Pointed.preset : Into (Pointers Q) (s.preset id) := by
  refine mqueue_into fun o _ => ?_
  split
  · exact h.ret
  · rename_i mq _
    refine h.bumpCptRst.bind fun _ h₁ => h₁.deleteQueue.bind fun s₂ h₂ => ?_
    have halloc : Serves Q c (s₂.allocMqueue id.toNat mq.count) := h₂.congr rfl rfl rfl
    exact halloc.ret

theorem Pointed.pcreate {count : Int} : Into (Pointers Q) (s.pcreate count) := by
  unfold State.pcreate
  split
  · exact h.ret
  split
  · exact h.ret
  split
  · exact h.ret
  · rename_i j _
    have halloc : Serves Q c (s.allocMqueue j count.toNat) := h.congr rfl rfl rfl
    exact halloc.ret

theorem Pointed.pcount {count : UserPtr} : Into (Pointers Q) (s.pcount id count) := by
  refine mqueue_into fun o _ => ?_
  split
  · exact h.ret
  split
  · exact h.ret
  · exact h.observe.ret
  · exact h.pageFault
  · exact .error nofun

theorem Pointed.startRet : Into (Pointers Q) (s.startRet t) := by
  unfold State.startRet
  split
  · exact .ok h.setCtl.pointers
  · exact h.observe.ret

end Calls

def Lends (s : State) : Syscall → Prop
  | .waitpid _ r => r = .null ∨ r = .mapped
  | .preceive id _ => ∃ mq, s.mqueue id = .ok (some mq)
  | _ => False

theorem Pointed.handle {x : Syscall} (h : Serves Q c s) (hc : s.Lends x → Q c) :
    Into (Pointers Q) (s.handle x) := by
  cases x with
  | start a => exact h.start
  | getpid => exact (task_post s _).bind fun _ _ => h.ret
  | getprio pid => exact h.getprio
  | chprio pid priority => exact h.chprio
  | kill pid => exact h.kill
  | waitpid pid retvalp => exact h.waitpid hc
  | exit retval => exact h.exit
  | pcount id count => exact h.pcount
  | pcreate count => exact h.pcreate
  | pdelete id => exact h.pdelete
  | preceive id message => exact h.preceive fun mq hq => hc ⟨mq, hq⟩
  | preset id => exact h.preset
  | psend id message => exact h.psend
  | currentClock => exact h.ret
  | waitClock clock => exact h.waitClock

theorem Pointers.serves (h : Pointers Q s) (hu : s.ctl = .user) : Serves Q s.current s := by
  refine ⟨rfl, h.holds.below, fun t k hk => ?_, h.holds.running⟩
  obtain ⟨hlt, hp⟩ := h.holds.tasks t k hk
  refine ⟨hlt, fun hkont => ⟨⟨?_, (hp hkont).1⟩, (hp hkont).2⟩⟩
  rintro rfl
  exact h.user hu k hk hkont

theorem Pointed.clockHandler (h : Serves Q c s) : Into (Pointers Q) s.clockHandler := by
  have htick : Serves Q c { s with totalTicks := (s.totalTicks + 1) % 2 ^ 32 } := h.congr rfl rfl rfl
  exact htick.callSchedule nofun

theorem Pointed.switched (h : Pointed Q c s) (hk : s.tasks t = some k) (hc : s'.current = t)
    (hfresh : s'.fresh = s.fresh) (ht : s'.tasks = Function.update s.tasks t (some k'))
    (hkont : k'.kont = k.kont) (hf : k'.firstStart = false) : Pointed Q t s' := by
  obtain ⟨hlt, hp⟩ := h.tasks t k hk
  refine ⟨hc, by rwa [hfresh], fun u l hl => ?_, fun l hl => ?_⟩
  · rw [hfresh]
    rw [ht] at hl
    by_cases hu : u = t
    · subst hu
      rw [Function.update_self] at hl
      cases hl
      rw [hkont]
      exact ⟨hlt, fun hkont => ⟨(hp hkont).1, hf⟩⟩
    · rw [Function.update_of_ne hu] at hl
      exact h.tasks u l hl
  · rw [ht, Function.update_self] at hl
    cases hl
    exact hf

theorem Pointed.resumes (h : Pointed Q c s) : Pointers Q (s.setCtl .resume) := by
  refine ⟨?_, nofun⟩
  rw [show (s.setCtl .resume).current = c from h.current]
  exact h.congr rfl rfl rfl

theorem Pointed.switchTo {old : Task} (h : Pointed Q c s) : Into (Pointers Q) (s.switchTo old t) := by
  have hready : Into (Pointed Q c) (if old.state = .running then s.setTaskReady s.current else .ok s) := by
    split
    · exact h.setTaskState
    · exact .ok h
  refine hready.bind fun s₁ h₁ => ?_
  unfold State.setTaskRunning
  rw [bind_assoc]
  refine (task_post s₁ t).bind fun k hk => ?_
  have hdel : Into (fun s' => Pointed Q c s' ∧ s'.tasks = s₁.tasks)
      (if k.state ≠ .startup ∧ k.state ≠ .running then s₁.queueDel t else .ok s₁) := by
    split
    · exact h₁.unlink
    · exact .ok ⟨h₁, rfl⟩
  rw [bind_assoc]
  refine hdel.bind fun s₂ ⟨h₂, ht₂⟩ => ?_
  rw [← ht₂] at hk
  have hself : { s₂.setTask t { k with state := .running } with current := t }.tasks t =
      some { k with state := .running } := setTask_tasks_self
  rw [ok_bind, task_ok hself, ok_bind]
  split
  · rename_i hfirst
    have hidem : Function.update (Function.update s₂.tasks t (some { k with state := .running })) t
        (some { k with state := .running, firstStart := false }) = Function.update s₂.tasks t
        (some { k with state := .running, firstStart := false }) := Function.update_idem ..
    refine .ok ⟨h₂.switched hk rfl rfl hidem rfl rfl, fun _ l hl hp => ?_⟩
    cases (setTask_tasks_self (t := t)).symm.trans hl
    rw [((h₂.tasks t k hk).2 hp).2] at hfirst
    cases hfirst
  · rename_i hfirst
    have hs : Pointed Q t { s₂.setTask t { k with state := .running } with current := t } :=
      h₂.switched hk rfl rfl rfl rfl (Bool.eq_false_iff.mpr hfirst)
    exact .ok hs.resumes

theorem Pointed.chooseTask (h : Pointed Q c s) : Into (Pointers Q) s.chooseTask := by
  unfold State.chooseTask
  split
  · exact .ok h.resumes
  refine (task_post s _).bind fun old _ => (task_post s _).bind fun k _ => ?_
  split
  · exact .ok h.resumes
  · exact h.switchTo

theorem Pointers.schedule (h : Pointers Q s) : Into (Pointers Q) s.schedule :=
  h.holds.tryWakeupTasks.bind fun _ h₁ => h₁.reapZombies.bind fun _ h₂ => h₂.chooseTask

theorem Pointers.resume (h : Pointers Q s) : Into (Pointers Q) s.resume := by
  refine (task_post s _).bind fun k hk => ?_
  have hq : k.kont.Points → Q s.current := fun hp => ((h.holds.tasks _ k hk).2 hp).1
  have hs : Serves Q s.current (s.setTask s.current { k with kont := .iret }) := by
    refine ⟨rfl, h.holds.below, fun u l hl => ?_, fun l hl => ?_⟩
    · by_cases hu : u = s.current
      · subst hu
        rw [setTask_tasks_self] at hl
        cases hl
        exact ⟨h.holds.below, nofun⟩
      · rw [setTask_tasks_of_ne hu] at hl
        obtain ⟨hlt, hp⟩ := h.holds.tasks u l hl
        exact ⟨hlt, fun hkont => ⟨⟨hu, (hp hkont).1⟩, (hp hkont).2⟩⟩
    · rw [setTask_tasks_self] at hl
      cases hl
      exact h.holds.running k hk
  cases hkont : k.kont with
  | iret => exact .ok hs.setCtl.pointers
  | ret v => exact hs.ret
  | startRet child => exact hs.startRet
  | waitAnyChild r => exact hs.waitAnyChild (hq (by rw [hkont]; trivial))
  | waitSpecificChild child r => exact hs.waitSpecificChild (hq (by rw [hkont]; trivial))
  | psendLoop id msg rst => exact hs.psendLoop
  | psendAdd id msg => exact hs.psendAdd
  | psendRet id msg => exact hs.psendRet
  | preceiveLoop id message rst => exact hs.preceiveLoop (hq (by rw [hkont]; trivial))
  | preceiveRet id message msg => exact hs.preceiveRet
  | exitPanic => exact .error nofun

theorem Pointers.kernel (h : Pointers Q s) : Into (Pointers Q) (step .kernel s) := by
  unfold State.step stepWith
  cases s.ctl with
  | user => exact .error nofun
  | sched => exact h.schedule
  | resume => exact h.resume

theorem boot_pointers : Pointers Q boot := by
  have htasks {t : TaskPtr} {k : Task} (hk : boot.tasks t = some k) :
      t = 0 ∧ k.firstStart = false ∧ k.kont = .iret := by
    simp only [boot] at hk
    split at hk
    · cases hk
      exact ⟨‹_›, rfl, rfl⟩
    · cases hk
  refine ⟨⟨rfl, Nat.zero_lt_one, fun t k hk => ?_, fun k hk => (htasks hk).2.1⟩, fun _ k hk => ?_⟩
  · obtain ⟨rfl, hf, hkont⟩ := htasks hk
    refine ⟨Nat.zero_lt_one, fun hp => ?_⟩
    rw [hkont] at hp
    exact hp.elim
  · rw [(htasks hk).2.2]
    exact id

end State
end DominOS.Process
