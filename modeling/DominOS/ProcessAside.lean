import DominOS.ProcessRuns

/-! What the kernel code that others run does to a task that sleeps: nothing, unless they kill it. -/
namespace DominOS.Process
open IntrusiveLists Fallible Relation Runs
namespace State
variable {s s' : State} {t u p : TaskPtr} {k : Task} {hd : Head} {c w : Nat} {kont : Kont}

/-- `p` is among the sleepers, to be woken when the clock says `w`; it says `c`. -/
structure Sleeps (p : TaskPtr) (w c : Nat) (s : State) : Prop where
  task : ∃ k, s.tasks p = some k ∧ k.state = .sleeping ∧ k.wakeTime = w
  link : s.queues.link p = some .sleeping
  clock : s.totalTicks = c

/-- `p` sleeps while another task is the current one. -/
structure Aside (p : TaskPtr) (w c : Nat) (s : State) : Prop extends Sleeps p w c s where
  other : s.current ≠ p

abbrev Keeps (p : TaskPtr) (w c : Nat) (x : Except Fault State) : Prop :=
  Post (fun _ => False) x (Aside p w c)

namespace Aside
variable (h : Aside p w c s)
include h

theorem congr (ht : s'.tasks p = s.tasks p) (hl : s'.queues.link p = s.queues.link p)
    (hc : s'.current = s.current) (hclock : s'.totalTicks = s.totalTicks) : Aside p w c s' := by
  refine ⟨⟨?_, hl.trans h.link, hclock.trans h.clock⟩, by rw [hc]; exact h.other⟩
  rw [ht]
  exact h.task

theorem ne_of_mem (ht : t ∈ s.queues.members hd) (hh : hd ≠ .sleeping) : t ≠ p := by
  rintro rfl
  have hl := Links.link_of_mem ht
  rw [h.link] at hl
  exact hh (Option.some.inj hl).symm

theorem ne_of_top (ht : s.queueTop hd = some t) (hh : hd ≠ .sleeping) : t ≠ p :=
  h.ne_of_mem (queueTop_mem ht) hh

theorem ne_of_awake (hk : s.tasks t = some k) (hs : k.state ≠ .sleeping) : t ≠ p := by
  rintro rfl
  obtain ⟨l, hl, hsl, _⟩ := h.task
  rw [hk] at hl
  cases hl
  exact hs hsl

theorem setTask (ht : t ≠ p) : Aside p w c (s.setTask t k) :=
  h.congr (setTask_tasks_of_ne ht.symm) rfl rfl rfl

theorem move (ht : t ≠ p) : Aside p w c (s.move hd t) :=
  h.congr rfl (Links.link_move_of_ne ht.symm) rfl rfl

theorem unlink (ht : t ≠ p) : Aside p w c (s.unlink t) :=
  h.congr rfl (Links.link_erase_of_ne ht.symm) rfl rfl

theorem freed (ht : t ≠ p) : Aside p w c (s.freed t) :=
  h.congr (freed_tasks_of_ne ht.symm) (Links.link_erase_of_ne ht.symm) rfl rfl

theorem queueAdd (ht : t ≠ p) : Keeps p w c (s.queueAdd t hd) := by
  unfold State.queueAdd
  split
  · exact .ok (h.move ht)
  · exact .error nofun

theorem queueDel (ht : t ≠ p) : Keeps p w c (s.queueDel t) := by
  unfold State.queueDel
  split
  · exact .error nofun
  · exact .ok (h.unlink ht)

theorem ret {v : Int} : Keeps p w c (s.ret v) := .ok (h.congr rfl rfl rfl rfl)

theorem goOn {x : Ctl} : Keeps p w c (s.goOn x kont) :=
  (task_post s _).bind fun _ _ => .ok ((h.setTask h.other).congr rfl rfl rfl rfl)

theorem setTaskState {st : TaskState} (ht : t ≠ p) : Keeps p w c (s.setTaskState t st hd) := by
  refine (task_post s t).bind fun k _ => ?_
  split
  · exact .ok h
  · have hdel : Keeps p w c (if t ≠ s.current ∧ k.state ≠ .startup ∧ k.state ≠ .interruptedMsg then
        s.queueDel t else .ok s) := by
      split
      · exact h.queueDel ht
      · exact .ok h
    exact hdel.bind fun s' h' => (h'.setTask ht).queueAdd ht

theorem setTaskReadyOrRunning (ht : t ≠ p) : Keeps p w c (s.setTaskReadyOrRunning t kont) := by
  refine (task_post s t).bind fun k _ => ((h.setTask ht).queueAdd ht).bind fun s' h' => ?_
  refine (task_post s' _).bind fun l _ => ?_
  split
  · exact h'.goOn
  · exact h'.goOn

theorem setTaskInterruptedMsg : Keeps p w c (s.setTaskInterruptedMsg s.current kont) :=
  (task_post s _).bind fun _ _ => (h.setTask h.other).goOn

theorem setMsgVal {msg : Msg} (ht : t ≠ p) : Keeps p w c (s.setMsgVal t msg) :=
  (task_post s t).bind fun _ _ => .ok (h.setTask ht)

end Aside

section Life

theorem Aside.launch {pid : Nat} {a : StartArgs} (h : Aside p w c s) (hf : s.fresh ≠ p) :
    Keeps p w c (s.launch pid a) := by
  have halloc : Aside p w c (s.allocTask pid a) := h.congr (setTask_tasks_of_ne hf.symm) rfl rfl rfl
  unfold State.launch
  have hadd : Keeps p w c ((s.allocTask pid a).siblingAdd s.fresh s.current) := by
    unfold siblingAdd
    split
    · exact .ok (halloc.congr rfl rfl rfl rfl)
    · exact .error nofun
  refine hadd.bind fun s₁ h₁ => (h₁.setTaskState hf).bind fun s₂ h₂ => ?_
  unfold globalAdd
  split
  · exact .ok (h₂.congr rfl rfl rfl rfl)
  · exact .error nofun

theorem Aside.start {a : StartArgs} (h : Aside p w c s) (hf : s.fresh ≠ p) :
    Keeps p w c (s.start a) := by
  unfold State.start
  split
  · exact h.ret
  · split
    · exact h.ret
    · split
      · exact h.ret
      · split
        · exact h.ret
        · rename_i pid _
          have hm : Aside p w c (s.markPid pid) := h.congr rfl rfl rfl rfl
          simp only
          split
          · exact hm.ret
          · split
            · exact .error nofun
            · refine (hm.launch hf).bind fun s' h' => (task_post s' _).bind fun k _ => ?_
              split
              · exact h'.goOn
              · exact h'.goOn

theorem Aside.unlockParent {parent : Option TaskPtr} (h : Aside p w c s) :
    Keeps p w c (s.unlockInterruptedChildParent parent) := by
  unfold unlockInterruptedChildParent
  split
  · exact .error nofun
  · refine (task_post s _).bind fun k hk => ?_
    split
    · rename_i hs
      exact h.setTaskState (h.ne_of_awake hk (by rw [hs]; decide))
    · exact .ok h

theorem Aside.exitTask {r : Int} (h : Aside p w c s) (ht : t ≠ p) :
    Post (fun _ => False) (s.exitTask t r) fun x => Aside p w c x.2 := by
  unfold State.exitTask
  split
  · exact .ok h
  · refine (task_post s t).bind fun k _ => ?_
    split
    · exact .ok h
    · have hset := h.setTask (k := { k with priority := deathPriority s.totalTicks }) ht
      have hdel : Keeps p w c (if (((s.setTask t { k with
          priority := deathPriority s.totalTicks })).queueFromMsg k.pid).isSome then
          (s.setTask t { k with priority := deathPriority s.totalTicks }).queueDel t
          else .ok (s.setTask t { k with priority := deathPriority s.totalTicks })) := by
        split
        · exact hset.queueDel ht
        · exact .ok hset
      refine hdel.bind fun s₁ h₁ => ?_
      have hglobal : Keeps p w c (s₁.globalDel t) := by
        unfold globalDel
        split
        · exact .error nofun
        · exact .ok (h₁.congr rfl rfl rfl rfl)
      refine hglobal.bind fun s₂ h₂ => ?_
      have hfree : Aside p w c (s₂.freePid k.pid) := h₂.congr rfl rfl rfl rfl
      have hobs : Aside p w c (((s₂.freePid k.pid).setTask t { k with
          priority := deathPriority s.totalTicks, retval := r }).observe (.exited t r)) :=
        (hfree.setTask ht).congr rfl rfl rfl rfl
      have hzombie : Keeps p w c ((((s₂.freePid k.pid).setTask t { k with
          priority := deathPriority s.totalTicks, retval := r }).observe (.exited t r)).setTaskZombie t) :=
        hobs.setTaskState ht
      simp only
      exact hzombie.bind fun s₃ h₃ => h₃.unlockParent.bind fun s₄ h₄ => .ok h₄

theorem Aside.exit {r : Int} (h : Aside p w c s) : Keeps p w c (s.exit r) :=
  (h.exitTask h.other).bind fun _ h' => h'.goOn

theorem Aside.pageFault (h : Aside p w c s) : Keeps p w c s.pageFault := h.exit

theorem Aside.kill {pid : Int} (h : Aside p w c s) (ht : s.pidToTask pid ≠ some p) :
    Keeps p w c (s.kill pid) := by
  unfold State.kill
  split
  · exact h.ret
  · rename_i t hpid
    have hne : t ≠ p := by
      rintro rfl
      exact ht hpid
    split
    · exact h.ret
    · refine (h.exitTask hne).bind fun ⟨r, s'⟩ h' => ?_
      simp only
      split
      · exact h'.goOn
      · exact h'.ret

theorem Aside.reapChild (h : Aside p w c s) (hk : s.tasks t = some k) (hz : k.state = .zombie) :
    Keeps p w c (s.reapChild t) := by
  have hne : t ≠ p := h.ne_of_awake hk (by rw [hz]; decide)
  refine (task_post s t).bind fun l _ => ?_
  have hfree : Keeps p w c (s.freeTask t) := by
    rw [freeTask_eq]
    split
    · exact .ok (h.freed hne)
    · exact .error nofun
  refine hfree.bind fun s' h' => ?_
  have hobs : Aside p w c (s'.observe (.reaped s'.current t l.pid l.retval)) :=
    h'.congr rfl rfl rfl rfl
  exact hobs.ret

theorem Aside.waitAnyChild {r : UserPtr} (h : Aside p w c s) : Keeps p w c (s.waitAnyChild r) := by
  unfold State.waitAnyChild
  split
  · exact h.ret
  · have hfind : Post (fun _ => False) (s.findZombie (s.siblings.members s.current))
        fun o => ∀ t, o = some t → ∃ k, s.tasks t = some k ∧ k.state = .zombie := by
      generalize s.siblings.members s.current = l
      induction l with
      | nil => exact .ok nofun
      | cons t l ih =>
        refine isZombie_post.bind fun b hb => ?_
        split
        · rename_i hz
          refine .ok fun u hu => ?_
          cases hu
          exact hb hz
        · exact ih
    refine hfind.bind fun o ho => ?_
    split
    · rename_i child
      obtain ⟨k, hk, hz⟩ := ho child rfl
      exact h.reapChild hk hz
    · exact (h.setTaskState h.other).bind fun _ h' => h'.goOn

theorem Aside.waitSpecificChild {r : UserPtr} (h : Aside p w c s) :
    Keeps p w c (s.waitSpecificChild t r) := by
  refine isZombie_post.bind fun b hb => ?_
  split
  · rename_i hz
    obtain ⟨k, hk, hzombie⟩ := hb hz
    exact h.reapChild hk hzombie
  · exact (h.setTaskState h.other).bind fun _ h' => h'.goOn

theorem Aside.waitpid {pid : Int} {r : UserPtr} (h : Aside p w c s) :
    Keeps p w c (s.waitpid pid r) := by
  unfold State.waitpid
  split
  · exact h.ret
  · split
    · exact h.goOn
    · split
      · exact h.ret
      · split
        · exact h.ret
        · exact h.goOn

theorem Aside.getprio {pid : Int} (h : Aside p w c s) : Keeps p w c (s.getprio pid) := by
  unfold State.getprio
  split
  · exact h.ret
  · exact (task_post s _).bind fun _ _ => h.ret

theorem Aside.queueUpdate (h : Aside p w c s) (ht : t ≠ p) : Keeps p w c (s.queueUpdate t hd) :=
  (h.queueDel ht).bind fun _ h' => h'.queueAdd ht

theorem Aside.queueUpdate_self (h : Aside p w c s) : Keeps p w c (s.queueUpdate p .sleeping) := by
  unfold State.queueUpdate
  rw [queueDel_eq (by rw [h.link]; simp), ok_bind]
  have hl : (s.unlink p).queues.link p = none := Links.link_erase_self
  rw [queueAdd_eq hl]
  exact .ok ⟨⟨h.task, Links.link_move_self, h.clock⟩, h.other⟩

/-- The priority of a task changes, and its place in its list, whether it is the sleeper or not. -/
theorem Aside.rank {priority : Int} (h : Aside p w c s) (hk : s.tasks t = some k) :
    Keeps p w c ((s.setTask t { k with priority := priority }).updateQueuePriority t k) := by
  by_cases ht : t = p
  · subst ht
    obtain ⟨l, hl, hs, hw⟩ := h.task
    rw [hk] at hl
    cases hl
    have hset : Aside t w c (s.setTask t { k with priority := priority }) :=
      ⟨⟨⟨_, setTask_tasks_self, hs, hw⟩, h.link, h.clock⟩, h.other⟩
    have hq : (s.setTask t { k with priority := priority }).queueFromState k.state k.pid =
        some .sleeping := by
      rw [hs]
      rfl
    unfold updateQueuePriority
    rw [hq]
    exact hset.queueUpdate_self
  · unfold updateQueuePriority
    split
    · exact .ok (h.setTask ht)
    · exact (h.setTask ht).queueUpdate ht

theorem Aside.chprio {pid priority : Int} (h : Aside p w c s) :
    Keeps p w c (s.chprio pid priority) := by
  unfold State.chprio
  split
  · exact h.ret
  · rename_i t _
    split
    · exact h.ret
    · refine (task_post s t).bind fun k hk => ?_
      split
      · exact h.ret
      · split
        · exact h.ret
        · simp only
          refine (h.rank hk).bind fun s₁ h₁ => ?_
          split
          · rename_i hm
            have ht : t ≠ p := h.ne_of_awake hk (by rw [hm]; decide)
            have hre : Keeps p w c (s₁.msgReinsert t k.pid) := by
              unfold msgReinsert
              split
              · exact (h₁.queueDel ht).bind fun _ _ => .error nofun
              · exact h₁.queueUpdate ht
            exact hre.bind fun _ h₂ => h₂.ret
          · split
            · refine (task_post s₁ _).bind fun l _ => ?_
              split
              · exact h₁.goOn
              · exact h₁.ret
            · split
              · exact h₁.pageFault
              · refine (task_post s₁ _).bind fun l _ => ?_
                split
                · exact h₁.goOn
                · exact h₁.ret

theorem Aside.waitClock {clock : Nat} (h : Aside p w c s) : Keeps p w c (s.waitClock clock) :=
  (task_post s _).bind fun _ _ => ((h.setTask h.other).setTaskState h.other).bind
    fun _ h' => h'.goOn

end Life

section Messages
variable {id : Int} {q : Nat} {msg : Msg}

theorem mqueue_keeps {f : Option MQueue → Except Fault State} (hf : ∀ o, Keeps p w c (f o)) :
    Keeps p w c (s.mqueue id >>= f) := by
  unfold State.mqueue
  split
  · exact hf _
  · exact .error nofun

theorem Aside.psendRet (h : Aside p w c s) : Keeps p w c (s.psendRet q msg) := by
  have hobs : Aside p w c (s.observe (.sent q msg)) := h.congr rfl rfl rfl rfl
  exact hobs.ret

theorem Aside.psendAdd (h : Aside p w c s) : Keeps p w c (s.psendAdd q msg) := by
  unfold State.psendAdd
  split
  · exact h.pageFault
  · rename_i mq _
    have hadd : Aside p w c ((s.addMsg q mq msg).observe (.entered q msg)) := h.congr rfl rfl rfl rfl
    exact hadd.psendRet

theorem Aside.psendLoop {rst : Nat} (h : Aside p w c s) : Keeps p w c (s.psendLoop q msg rst) := by
  unfold State.psendLoop
  split
  · exact h.pageFault
  · refine (task_post s _).bind fun k _ => ?_
    split
    · exact (h.queueAdd h.other).bind fun _ h' => h'.setTaskInterruptedMsg
    · split
      · exact h.ret
      · split
        · exact h.psendRet
        · split
          · exact h.psendAdd
          · rename_i last htop
            have ht : last ≠ p := h.ne_of_top htop (by simp)
            exact (h.queueDel ht).bind fun _ h' => h'.setTaskReadyOrRunning ht

theorem Aside.psend {data : Int} (h : Aside p w c s) : Keeps p w c (s.psend id data) := by
  refine mqueue_keeps fun o => ?_
  split
  · exact h.ret
  · have hcall : Aside p w c (s.called id.toNat ⟨data, s.sends⟩) := h.congr rfl rfl rfl rfl
    simp only
    split
    · rename_i last htop
      have ht : last ≠ p := hcall.ne_of_top htop (by simp)
      unfold handOver
      refine (hcall.queueDel ht).bind fun s₁ h₁ => (h₁.setMsgVal ht).bind fun s₂ h₂ => ?_
      have hobs : Aside p w c ((s₂.observe (.entered id.toNat ⟨data, s.sends⟩)).observe
          (.taken id.toNat ⟨data, s.sends⟩)) := h₂.congr rfl rfl rfl rfl
      exact hobs.setTaskReadyOrRunning ht
    · exact (hcall.setMsgVal h.other).bind fun _ h' => h'.psendLoop

theorem Aside.preceiveRet {message : UserPtr} (h : Aside p w c s) :
    Keeps p w c (s.preceiveRet q message msg) := by
  have hobs : Aside p w c (s.observe (.received q msg)) := h.congr rfl rfl rfl rfl
  unfold State.preceiveRet
  split
  · exact hobs.ret
  · exact hobs.ret
  · exact h.pageFault
  · exact .error nofun

theorem Aside.takeFrom {message : UserPtr} {mq : MQueue} (h : Aside p w c s) (ht : t ≠ p) :
    Keeps p w c (s.takeFrom q message mq t) := by
  refine (h.queueDel ht).bind fun s₁ h₁ => (task_post s₁ t).bind fun k _ => ?_
  rw [if_neg fun hno => hno.1 rfl]
  split
  · exact h₁.pageFault
  · rename_i take _
    have htake : Aside p w c { s₁.setMqueue q take.queue with
        trace := take.seen ++ s₁.trace
        msgCalls := take.calls ++ s₁.msgCalls } := h₁.congr rfl rfl rfl rfl
    exact (htake.setMsgVal ht).bind fun _ h₂ => h₂.setTaskReadyOrRunning ht

theorem Aside.observeLost (h : Aside p w c s) : Aside p w c (s.observeLost q msg) := by
  unfold State.observeLost
  split
  · exact h
  · exact h.congr rfl rfl rfl rfl

theorem Aside.preceiveLoop {message : UserPtr} {rst : Nat} (h : Aside p w c s) :
    Keeps p w c (s.preceiveLoop q message rst) := by
  refine (task_post s _).bind fun k _ => ?_
  split
  · exact h.observeLost.pageFault
  · split
    · exact (h.queueAdd h.other).bind fun _ h' => h'.setTaskInterruptedMsg
    · split
      · exact h.observeLost.ret
      · split
        · exact (h.setMsgVal h.other).bind fun _ h' => h'.preceiveRet
        · split
          · rename_i last htop
            exact h.takeFrom (h.ne_of_top htop (by simp))
          · split
            · exact h.pageFault
            · refine Aside.preceiveRet ?_
              exact h.congr rfl rfl rfl rfl

theorem Aside.preceive {message : UserPtr} (h : Aside p w c s) :
    Keeps p w c (s.preceive id message) := by
  refine mqueue_keeps fun o => ?_
  split
  · exact h.ret
  · exact (h.setMsgVal h.other).bind fun _ h' => h'.preceiveLoop

theorem Aside.releaseAll (h : Aside p w c s) (hh : hd ≠ .sleeping) :
    Keeps p w c ((s.queues.members hd).reverse.foldlM release s) := by
  have hne : ∀ t ∈ (s.queues.members hd).reverse, t ≠ p := fun t ht =>
    h.ne_of_mem (List.mem_reverse.mp ht) hh
  generalize (s.queues.members hd).reverse = l at hne
  induction l generalizing s with
  | nil => exact .ok h
  | cons t l ih =>
    have ht : t ≠ p := hne t (by simp)
    have hrel : Keeps p w c (s.release t) :=
      (h.queueDel ht).bind fun _ h' => h'.setTaskState ht
    exact hrel.bind fun s' h' => ih h' fun u hu => hne u (by simp [hu])

theorem Aside.bumpCptRst (h : Aside p w c s) : Keeps p w c (s.bumpCptRst q) := by
  unfold State.bumpCptRst
  split
  · exact .ok (h.congr rfl rfl rfl rfl)
  · exact .error nofun

theorem Aside.deleteQueue {mq : MQueue} (h : Aside p w c s) : Keeps p w c (s.deleteQueue q mq) :=
  h.bumpCptRst.bind fun _ h₁ => (h₁.releaseAll (by simp)).bind fun _ h₂ =>
    (h₂.releaseAll (by simp)).bind fun _ h₃ => .ok (h₃.congr rfl rfl rfl rfl)

theorem Aside.pdelete (h : Aside p w c s) : Keeps p w c (s.pdelete id) := by
  refine mqueue_keeps fun o => ?_
  split
  · exact h.ret
  · exact h.deleteQueue.bind fun _ h' => h'.ret

theorem Aside.preset (h : Aside p w c s) : Keeps p w c (s.preset id) := by
  refine mqueue_keeps fun o => ?_
  split
  · exact h.ret
  · rename_i mq
    refine h.bumpCptRst.bind fun _ h₁ => h₁.deleteQueue.bind fun s₂ h₂ => ?_
    have halloc : Aside p w c (s₂.allocMqueue id.toNat mq.count) := h₂.congr rfl rfl rfl rfl
    exact halloc.ret

theorem Aside.pcreate {count : Int} (h : Aside p w c s) : Keeps p w c (s.pcreate count) := by
  unfold State.pcreate
  split
  · exact h.ret
  · split
    · exact h.ret
    · split
      · exact h.ret
      · rename_i j _
        have halloc : Aside p w c (s.allocMqueue j count.toNat) := h.congr rfl rfl rfl rfl
        exact halloc.ret

theorem Aside.pcount {count : UserPtr} (h : Aside p w c s) : Keeps p w c (s.pcount id count) := by
  refine mqueue_keeps fun o => ?_
  split
  · exact h.ret
  · rename_i mq
    have hobs : Aside p w c (s.observe (.counted id.toNat (s.countOf id.toNat mq))) :=
      h.congr rfl rfl rfl rfl
    split
    · exact h.ret
    · exact hobs.ret
    · exact h.pageFault
    · exact .error nofun

end Messages

section Machine

/-- The call kills `p`. -/
def Kills (s : State) (p : TaskPtr) : Event → Prop
  | .call (.kill pid) => s.pidToTask pid = some p
  | _ => False

theorem Aside.handle {x : Syscall} (h : Aside p w c s) (hf : s.fresh ≠ p)
    (hk : ¬ s.Kills p (.call x)) : Keeps p w c (s.handle x) := by
  unfold State.handle
  cases x with
  | start a => exact h.start hf
  | getpid => exact (task_post s _).bind fun _ _ => h.ret
  | getprio pid => exact h.getprio
  | chprio pid priority => exact h.chprio
  | kill pid => exact h.kill hk
  | waitpid pid retvalp => exact h.waitpid
  | exit retval => exact h.exit
  | pcount id count => exact h.pcount
  | pcreate count => exact h.pcreate
  | pdelete id => exact h.pdelete
  | preceive id message => exact h.preceive
  | preset id => exact h.preset
  | psend id message => exact h.psend
  | currentClock => exact h.ret
  | waitClock clock => exact h.waitClock

theorem Aside.startRet (h : Aside p w c s) : Keeps p w c (s.startRet t) := by
  unfold State.startRet
  split
  · exact .ok (h.congr rfl rfl rfl rfl)
  · rename_i k _
    have hobs : Aside p w c (s.observe (.started s.current t k.pid)) := h.congr rfl rfl rfl rfl
    exact hobs.ret

theorem Aside.resume (h : Aside p w c s) : Keeps p w c s.resume := by
  refine (task_post s _).bind fun k _ => ?_
  have h' : Aside p w c (s.setTask s.current { k with kont := .iret }) := h.setTask h.other
  unfold resumeAt
  split
  · exact .ok (h'.congr rfl rfl rfl rfl)
  · exact h'.ret
  · exact h'.startRet
  · exact h'.waitAnyChild
  · exact h'.waitSpecificChild
  · exact h'.psendLoop
  · exact h'.psendAdd
  · exact h'.psendRet
  · exact h'.preceiveLoop
  · exact h'.preceiveRet
  · exact .error nofun

end Machine
end State
end DominOS.Process
