import DominOS.ProcessQueueFrame

/-! The calls that are no message calls, as they are seen from one queue: who dies leaves it, who
gets a new priority changes place, and everything else is not seen. -/
namespace DominOS.Process
open IntrusiveLists MsgHeap Fallible Relation Unwinding

theorem orderedInsert_congr {α : Type*} {r r' : α → α → Prop} [DecidableRel r] [DecidableRel r'] {a : α}
    {l : List α} (h : ∀ b ∈ l, r a b ↔ r' a b) : l.orderedInsert r a = l.orderedInsert r' a := by
  induction l with
  | nil => rfl
  | cons b l ih =>
    rw [List.orderedInsert_cons, List.orderedInsert_cons, ih fun c hc => h c (List.mem_cons_of_mem _ hc)]
    simp only [h b List.mem_cons_self]

theorem Task.part_ranked {k : Task} {p : Int} {id c : Nat} :
    ({ k with priority := p } : Task).part id c = (k.part id c).map (Part.ranked p) := by
  unfold Task.part
  cases k.kont <;> simp only [Option.map_none] <;> split <;> rfl

theorem Part.ranked_ranked {p : Int} (part : Part) : (part.ranked p).ranked p = part.ranked p := by
  cases part <;> rfl

namespace QueueView
variable {v : QueueView} {t : TaskPtr} {p : Int}

theorem chprio_eq (hp : v.inside t = none) (hs : t ∉ v.senders) (hr : t ∉ v.receivers) :
    v.chprio t p = v := by
  unfold chprio
  simp only [hp, Option.map_none]
  rw [if_neg hs, if_neg hr]
  exact put_eq hp

theorem mem_joinSenders : t ∈ (v.joinSenders t).senders :=
  (List.mem_orderedInsert _).mpr (Or.inl rfl)

theorem joinSenders_joinSenders (hs : v.senders.Nodup) :
    (v.joinSenders t).joinSenders t = v.joinSenders t := by
  refine QueueView.ext rfl ?_ rfl rfl
  change (((v.senders.erase t).orderedInsert v.before t).erase t).orderedInsert v.before t = _
  rw [List.erase_orderedInsert_of_notMem hs.not_mem_erase]
  rfl

theorem joinReceivers_joinReceivers (hr : v.receivers.Nodup) :
    (v.joinReceivers t).joinReceivers t = v.joinReceivers t := by
  refine QueueView.ext rfl rfl ?_ rfl
  change (((v.receivers.erase t).orderedInsert v.before t).erase t).orderedInsert v.before t = _
  rw [List.erase_orderedInsert_of_notMem hr.not_mem_erase]
  rfl

theorem chprio_chprio (hs : v.senders.Nodup) (hr : v.receivers.Nodup) :
    (v.chprio t p).chprio t p = v.chprio t p := by
  have again (w : QueueView) (hw : w.inside t = (v.inside t).map (Part.ranked p)) :
      w.put t ((w.inside t).map (Part.ranked p)) = w := by
    refine put_eq ?_
    rw [hw, Option.map_map]
    refine congrArg (Option.map · (v.inside t)) (funext fun part => ?_)
    exact part.ranked_ranked.symm
  obtain ⟨w, hw⟩ : ∃ w, w = v.put t ((v.inside t).map (Part.ranked p)) := ⟨_, rfl⟩
  have hin : w.inside t = (v.inside t).map (Part.ranked p) := by rw [hw, put_inside]
  by_cases h1 : t ∈ v.senders
  · have h : v.chprio t p = w.joinSenders t := by
      unfold chprio
      rw [if_pos h1, hw]
    rw [h]
    unfold chprio
    simp only [again (w.joinSenders t) hin]
    rw [if_pos mem_joinSenders]
    exact joinSenders_joinSenders (by rw [hw]; exact hs)
  by_cases h2 : t ∈ v.receivers
  · have h : v.chprio t p = w.joinReceivers t := by
      unfold chprio
      rw [if_neg h1, if_pos h2, hw]
    have hmem : t ∈ (w.joinReceivers t).receivers := (List.mem_orderedInsert _).mpr (Or.inl rfl)
    rw [h]
    unfold chprio
    simp only [again (w.joinReceivers t) hin]
    rw [if_neg (by rw [hw]; exact h1), if_pos hmem]
    exact joinReceivers_joinReceivers (by rw [hw]; exact hr)
  · have h : v.chprio t p = w := by
      unfold chprio
      rw [if_neg h1, if_neg h2, hw]
    rw [h]
    unfold chprio
    simp only [again w hin]
    rw [if_neg (by rw [hw]; exact h1), if_neg (by rw [hw]; exact h2)]

end QueueView

namespace State
variable {s s' : State} {t u : TaskPtr} {k l c : Task} {hd : Head} {kont : Kont} {id : Nat} {q : MQueue}
  {msg : Msg} {p : Int} {K : Prop} {v : QueueView}

theorem Mail.waits (hm : Mail K s) (hl : s.queues.link u = some hd) (hq : hd.queue = some id) :
    ∃ part, s.part id u = some part ∧ part.priority = s.priorityOf u ∧
      ∀ p, (part.ranked p).priority = p := by
  cases hd with
  | waitingSenders j =>
    cases hq
    obtain ⟨msg, rst, ⟨k, hk, hz, hkont, _⟩, _⟩ := hm.sending u id hl
    refine ⟨.sending k.priority k.msgVal.data msg.data (decide (¬ rst < s.cptRst)), ?_, ?_, fun _ => rfl⟩
    · rw [part_eq hk hz]
      simp [Task.part, hkont]
    · rw [priorityOf, hk]
      rfl
  | waitingReceivers j =>
    cases hq
    obtain ⟨p, rst, v, ⟨k, hk, hz, hkont, _⟩, _⟩ := hm.receiving u id hl
    refine ⟨.receiving k.priority k.msgVal.data p (decide (¬ rst < s.cptRst)), ?_, ?_, fun _ => rfl⟩
    · rw [part_eq hk hz]
      simp [Task.part, hkont]
    · rw [priorityOf, hk]
      rfl
  | _ => cases hq

theorem Mail.priority (hm : Mail K s) (hl : s.queues.link u = some hd) (hq : hd.queue = some id) :
    (s.part id u).elim 0 Part.priority = s.priorityOf u := by
  obtain ⟨part, hp, hprio, _⟩ := hm.waits hl hq
  rw [hp]
  exact hprio

theorem place_eq (hl : ∀ u ∈ s.queues.members hd, u ≠ t →
    (v.inside u).elim 0 Part.priority = s.priorityOf u)
    (ht : (v.inside t).elim 0 Part.priority = s.priorityOf t) :
    ((s.queues.members hd).erase t).orderedInsert s.before t =
      ((s.queues.members hd).erase t).orderedInsert v.before t := by
  refine orderedInsert_congr fun u hu => ?_
  obtain ⟨hne, hm⟩ := (s.queues.nodup hd).mem_erase_iff.mp hu
  unfold State.before QueueView.before
  rw [ht, hl u hm hne]

theorem move_senders_view (hv : s.view id = v) (hl : ∀ u ∈ v.senders, u ≠ t →
    (v.inside u).elim 0 Part.priority = s.priorityOf u)
    (ht : (v.inside t).elim 0 Part.priority = s.priorityOf t) (hr : t ∉ v.receivers) :
    (s.move (.waitingSenders id) t).view id = v.joinSenders t := by
  subst hv
  refine QueueView.ext rfl ?_ ?_ rfl
  · exact (Links.members_move_self (r := s.before)).trans (place_eq hl ht)
  · have hne : Head.waitingReceivers id ≠ .waitingSenders id := nofun
    exact (Links.members_move_of_ne (r := s.before) hne).trans (List.erase_of_not_mem hr)

theorem move_receivers_view (hv : s.view id = v) (hl : ∀ u ∈ v.receivers, u ≠ t →
    (v.inside u).elim 0 Part.priority = s.priorityOf u)
    (ht : (v.inside t).elim 0 Part.priority = s.priorityOf t) (hs : t ∉ v.senders) :
    (s.move (.waitingReceivers id) t).view id = v.joinReceivers t := by
  subst hv
  refine QueueView.ext rfl ?_ ?_ rfl
  · have hne : Head.waitingSenders id ≠ .waitingReceivers id := nofun
    exact (Links.members_move_of_ne (r := s.before) hne).trans (List.erase_of_not_mem hs)
  · exact (Links.members_move_self (r := s.before)).trans (place_eq hl ht)

theorem ranked_view (hm : Mail K s) (hk : s.tasks t = some k) (hz : k.state ≠ .zombie) :
    (s.ranked t k p).view id = (s.view id).chprio t p := by
  obtain ⟨s₁, hs₁⟩ : ∃ s₁, s₁ = s.setTask t { k with priority := p } := ⟨_, rfl⟩
  obtain ⟨w, hw⟩ : ∃ w, w = (s.view id).put t ((s.part id t).map (Part.ranked p)) := ⟨_, rfl⟩
  have hview : s₁.view id = w := by
    rw [hs₁, hw, setTask_view (show ({ k with priority := p } : Task).state ≠ .zombie from hz),
      Task.part_ranked, part_eq hk hz]
  have hprio : s₁.priorityOf t = p := by
    rw [hs₁]
    simp [priorityOf]
  have hother (u : TaskPtr) (hu : u ≠ t) : (w.inside u).elim 0 Part.priority =
      (s.part id u).elim 0 Part.priority ∧ s₁.priorityOf u = s.priorityOf u := by
    rw [hw, hs₁, QueueView.put_inside_of_ne hu]
    exact ⟨rfl, by simp only [priorityOf, setTask_tasks_of_ne hu]⟩
  have hself (hd : Head) (hl : s.queues.link t = some hd) (hq : hd.queue = some id) :
      (w.inside t).elim 0 Part.priority = s₁.priorityOf t := by
    obtain ⟨part, hpart, _, hrank⟩ := hm.waits hl hq
    rw [hw, hprio, QueueView.put_inside, hpart]
    exact hrank p
  have hmoved (hd : Head) (hl : s.queues.link t = some hd) :
      (s.ranked t k p).view id = (s₁.move hd t).view id := by
    rw [hs₁]
    unfold ranked
    rw [hl]
  have hlist (hd : Head) (hl : t ∈ s.queues.members hd) : s.queues.link t = some hd := Links.link_of_mem hl
  have hlists : (s.view id).chprio t p = if t ∈ s.queues.members (.waitingSenders id) then w.joinSenders t
      else if t ∈ s.queues.members (.waitingReceivers id) then w.joinReceivers t else w := by
    rw [hw]
    rfl
  rw [hlists]
  cases hl : s.queues.link t with
  | none =>
    have hstay : s.ranked t k p = s₁ := by
      rw [hs₁]
      unfold ranked
      rw [hl]
    rw [hstay, hview, if_neg (Links.not_mem hl _), if_neg (Links.not_mem hl _)]
  | some hd =>
    have hout (h : Head) (hne : h ≠ hd) : t ∉ s.queues.members h := by
      intro hmem
      rw [hlist h hmem] at hl
      exact hne (Option.some.inj hl)
    rw [hmoved hd hl]
    split
    · rename_i hmem
      cases hl.symm.trans (hlist _ hmem)
      refine move_senders_view hview (fun u hu hne => ?_) (hself _ hl rfl) ?_
      · rw [hw] at hu
        have hu : u ∈ s.queues.members (.waitingSenders id) := hu
        rw [(hother u hne).1, (hother u hne).2]
        exact hm.priority (Links.link_of_mem hu) rfl
      · rw [hw]
        exact hout _ (by simp)
    split
    · rename_i hmem
      cases hl.symm.trans (hlist _ hmem)
      refine move_receivers_view hview (fun u hu hne => ?_) (hself _ hl rfl) ?_
      · rw [hw] at hu
        have hu : u ∈ s.queues.members (.waitingReceivers id) := hu
        rw [(hother u hne).1, (hother u hne).2]
        exact hm.priority (Links.link_of_mem hu) rfl
      · rw [hw]
        exact hout _ (by simp)
    · rename_i h1 h2
      have hq : hd.queue ≠ some id := by
        intro hq
        cases hd with
        | waitingSenders j =>
          cases hq
          exact h1 (Links.mem_of_link hl)
        | waitingReceivers j =>
          cases hq
          exact h2 (Links.mem_of_link hl)
        | _ => cases hq
      rw [move_view hq, hview, hw]
      exact QueueView.drop_eq h1 h2

theorem born_view (pid : Nat) (a : StartArgs) (hi : Placed s) : (s.born pid a).view id = s.view id := by
  have hnew : s.tasks s.fresh = none := hi.fresh _ (Nat.le_refl _)
  have hpart : (s.newTask pid a).part id s.cptRst = none := Task.part_of_ne nofun
  have hset : (s.allocTask pid a).view id = (s.view id).put s.fresh none := by
    rw [← hpart]
    exact setTask_view (s := s.memory (.alloc s.fresh a.code a.ssize)) (k := s.newTask pid a)
      (show TaskState.startup ≠ .zombie by decide)
  calc (s.born pid a).view id = ((s.allocTask pid a).woken s.fresh (s.newTask pid a)).view id := rfl
    _ = (((s.view id).put s.fresh none).drop s.fresh).put s.fresh none := by
      rw [woken_view, hset]
      exact congrArg (QueueView.put s.fresh · _) hpart
    _ = s.view id := by
      rw [QueueView.drop_put, QueueView.put_put, view_drop (hi.away_fresh hnew)]
      exact view_put (part_unborn hnew)

theorem exit_looks {r : Int} (hi : Inv s) (hr : s.Serving) (hidle : s.current ≠ s.idle) :
    Post (Bad False False) (s.exit r) fun s' =>
      s'.view id = s.view id ∧ s'.trace = .exited s.current r :: s.trace := by
  have ⟨k, hk, hrun, hkont⟩ := hr
  have hz : k.state ≠ .zombie := by
    rw [hrun]
    decide
  unfold exit
  refine (exitTask_looks id hi ⟨k, hk, hrun⟩ hk hidle hz).bind fun ⟨_, w⟩ ⟨_, hv, hc, ht, hself⟩ => ?_
  have hw : w.tasks w.current = some { k with
      state := .zombie, priority := deathPriority s.totalTicks, retval := r } := by
    rw [show w.current = s.current from hc]
    exact hself
  have hgone : w.view id = s.view id := by
    rw [show w.view id = _ from hv, view_drop (hi.away hk (by rw [hrun]; decide)), view_put]
    exact part_silent hk (by rw [hkont]; nofun)
  refine .of_eq (goOn_eq hw) ⟨?_, ht⟩
  rw [← hgone]
  exact (goOn_looks (c := .sched) hw (Or.inl rfl)).elim (goOn_eq hw)

theorem pageFault_looks (hi : Inv s) (hr : s.Serving) (hidle : s.current ≠ s.idle) :
    Post (Bad False False) s.pageFault fun s' =>
      s'.view id = s.view id ∧ s'.trace = .exited s.current 0 :: s.trace := exit_looks hi hr hidle

theorem setOwn_view (hr : s.Serving) (hz : l.state ≠ .zombie) (hkont : l.kont = .iret) :
    (s.setTask s.current l).view id = s.view id := by
  rw [setTask_view hz, Task.part_of_ne (by rw [hkont]; nofun), view_put hr.part]

theorem goOn_serving {x : Ctl} (hr : s.Serving) (hq : kont.queue ≠ some id) :
    Looks id (s.view id) (s.goOn x kont) := by
  have ⟨k, hk, _⟩ := hr
  exact goOn_looks hk (Or.inr ⟨hr.part, hq⟩)

theorem block_looks (hd : Head) (hi : Inv s) (hr : s.Serving) (hm : hd.state ≠ .interruptedMsg)
    (hz : hd.state ≠ .zombie) (hq : kont.queue ≠ some id) : Looks id (s.view id) (do
      let s ← s.setTaskState s.current hd.state hd
      s.callSchedule kont) := by
  have ⟨k, hk, hrun, _⟩ := hr
  refine .of_eq (block_eq (hi.unlinked_current hk hrun) hk hrun) ?_
  rw [blocked_view (by rw [Head.queue_eq_none hm]; nofun) hz, Task.part_of_ne hq,
    view_drop (hr.away hi.toPlaced), view_put hr.part]

theorem reapChild_looks (hi : Inv s) (hk : s.tasks t = some k) (hz : k.state = .zombie) :
    Looks id (s.view id) (s.reapChild t) := by
  unfold reapChild
  rw [task_ok hk, ok_bind]
  refine (freeTask_spec (D := False) hi nofun).bind fun s' hs => ?_
  subst hs
  have hfreed : (s.freed t).view id = s.view id := by
    rw [freed_view, view_drop (hi.away hk (by rw [hz]; decide)), view_put (part_zombie hk hz)]
  rw [← hfreed]
  exact ret_looks

theorem waitAnyChild_looks {retvalp : UserPtr} (hi : Inv s) (hr : s.Serving) :
    Looks id (s.view id) (s.waitAnyChild retvalp) := by
  unfold waitAnyChild
  split
  · exact ret_looks
  have hchild (t : TaskPtr) (ht : t ∈ s.siblings.members s.current) : ∃ k, s.tasks t = some k :=
    ((hi.children t s.current).mp (Links.link_of_mem ht)).imp fun _ h => h.1
  obtain ⟨o, ho, hmem, _⟩ := findZombie_spec hchild
  rw [ho, ok_bind]
  cases o with
  | some t =>
    obtain ⟨_, k, hk, hz⟩ := hmem t rfl
    exact reapChild_looks hi hk hz
  | none => exact block_looks .interruptedChild hi hr nofun nofun nofun

theorem waitSpecificChild_looks {retvalp : UserPtr} (hi : Inv s) (hr : s.Serving)
    (hk : s.tasks t = some k) : Looks id (s.view id) (s.waitSpecificChild t retvalp) := by
  unfold waitSpecificChild
  rw [isZombie_eq hk, ok_bind]
  by_cases hz : k.state = .zombie
  · simp only [hz, decide_true, if_true]
    exact reapChild_looks hi hk hz
  · simp only [hz, decide_false, Bool.false_eq_true, if_false]
    exact block_looks .interruptedChild hi hr nofun nofun nofun

theorem waitpid_looks {pid : Int} {retvalp : UserPtr} (hr : s.Serving) :
    Looks id (s.view id) (s.waitpid pid retvalp) := by
  unfold waitpid
  split
  · exact ret_looks
  split
  · exact goOn_serving hr nofun
  split
  · exact ret_looks
  split
  · exact ret_looks
  · exact goOn_serving hr nofun

theorem waitClock_looks {clock : Nat} (hi : Inv s) (hr : s.Serving) :
    Looks id (s.view id) (s.waitClock clock) := by
  have ⟨k, hk, hrun, hkont⟩ := hr
  have hset : (s.setTask s.current { k with wakeTime := clock % 2 ^ 32 }).view id = s.view id :=
    setOwn_view hr (by rw [hrun]; decide) hkont
  unfold waitClock
  rw [task_ok hk, ok_bind]
  refine .of_eq (block_eq (s := s.setTask s.current { k with wakeTime := clock % 2 ^ 32 }) (h := .sleeping)
    (hi.unlinked_current hk hrun) setTask_tasks_self hrun) ?_
  have hpart : ({ k with wakeTime := clock % 2 ^ 32, kont := .ret 0 } : Task).part id s.cptRst = none :=
    Task.part_of_ne nofun
  rw [blocked_view (h := .sleeping) nofun nofun, hset]
  refine (congrArg (QueueView.put s.current · _) hpart).trans ?_
  exact (congrArg (QueueView.put s.current none) (view_drop (hr.away hi.toPlaced))).trans
    (view_put hr.part)

theorem start_looks {a : StartArgs} (hi : Inv s) (hr : s.Serving) : Looks id (s.view id) (s.start a) := by
  unfold start
  split
  · exact ret_looks
  split
  · exact ret_looks
  split
  · exact ret_looks
  split
  · exact ret_looks
  rename_i pid _
  split
  · exact ret_looks (s := s.markPid pid)
  split
  · exact .error (not_bad _)
  have ⟨c, hc, _, _⟩ := hr
  have hcur : (s.born pid a).tasks (s.born pid a).current = some c :=
    (born_tasks_of_ne (hi.ne_fresh hc)).trans hc
  simp only [launch_eq hi.toPlaced.markPid, ok_bind]
  rw [show (s.markPid pid).launched pid a = s.born pid a from rfl, task_ok hcur, ok_bind,
    ← born_view pid a hi.toPlaced]
  have hserve : (s.born pid a).part id (s.born pid a).current = none := by
    exact (congrFun (congrArg QueueView.inside (born_view pid a hi.toPlaced)) s.current).trans hr.part
  split
  · exact goOn_looks hcur (Or.inr ⟨hserve, nofun⟩)
  · exact goOn_looks hcur (Or.inr ⟨hserve, nofun⟩)

theorem getprio_looks {pid : Int} (hi : Inv s) : Looks id (s.view id) (s.getprio pid) := by
  unfold getprio
  split
  · exact ret_looks
  · rename_i t ht
    obtain ⟨k, hk, _⟩ := hi.pidToTask ht
    rw [task_ok hk, ok_bind]
    exact ret_looks

theorem part_idle (hi : Placed s) : s.part id s.idle = none := by
  obtain ⟨k, hk, hs⟩ := hi.idle
  have hz : k.state ≠ .zombie := by
    rcases hs with hs | hs <;> rw [hs] <;> decide
  refine part_silent hk ?_
  rcases (hi.konts _ k hk hz).idle rfl with he | ⟨c, he⟩ <;> rw [he] <;> nofun

theorem kill_looks {pid : Int} (hi : Inv s) (hm : Mail K s) (hr : s.Serving) :
    Looks id (Window.replay QueueView.step (s.callAct id (.kill pid)).toList (s.view id)).1 (s.kill pid) := by
  have ⟨c, hc, hcr, _⟩ := hr
  simp only [State.kill, callAct]
  cases hpid : s.pidToTask pid with
  | none => exact ret_looks
  | some t =>
    simp only
    by_cases hti : t = s.idle
    · rw [if_pos hti, hti, part_idle hi.toPlaced]
      exact ret_looks
    rw [if_neg hti]
    obtain ⟨k, hk, _, hlive⟩ := hi.pidToTask hpid
    have hz : k.state ≠ .zombie := by
      by_cases ht : t = s.current
      · subst ht
        rw [hk] at hc
        cases hc
        rw [hcr]
        decide
      · exact hlive ht
    have hact : (Window.replay QueueView.step (if (s.part id t).isSome then some (.die t) else none :
        Option QueueAct).toList (s.view id)).1 = ((s.view id).drop t).put t none := by
      cases hp : s.part id t with
      | none => exact ((congrArg (QueueView.put t none) (view_drop (hm.away hp))).trans (view_put hp)).symm
      | some part => rfl
    rw [hact]
    refine (exitTask_looks id hi ⟨c, hc, hcr⟩ hk hti hz).bind fun ⟨n, w⟩ ⟨_, hv, hcur, _, hself⟩ => ?_
    have hv : w.view id = ((s.view id).drop t).put t none := hv
    have hcur : w.current = s.current := hcur
    simp only [hcur, ← hv]
    split
    · rename_i ht
      have hdead : w.tasks w.current = some { k with
          state := .zombie, priority := deathPriority s.totalTicks, retval := 0 } := by
        rw [hcur, ← ht]
        exact hself
      exact goOn_looks hdead (Or.inl rfl)
    · exact ret_looks

theorem chprio_looks {pid : Int} (hi : Inv s) (hm : Mail K s) (hr : s.Serving) (hidle : s.current ≠ s.idle) :
    Looks id (Window.replay QueueView.step (s.callAct id (.chprio pid p)).toList (s.view id)).1
      (s.chprio pid p) := by
  simp only [State.chprio, callAct]
  cases hpid : s.pidToTask pid with
  | none => exact ret_looks
  | some t =>
    simp only
    by_cases hti : t = s.idle
    · rw [if_pos hti, hti, part_idle hi.toPlaced]
      exact ret_looks
    rw [if_neg hti]
    obtain ⟨k, hk, _, _⟩ := hi.pidToTask hpid
    rw [task_ok hk, ok_bind]
    by_cases hz : k.state = .zombie
    · rw [if_pos hz, part_zombie hk hz]
      exact ret_looks
    rw [if_neg hz]
    by_cases hp : p > maxPrio ∨ p < minPrio
    · have hno : ¬ ((s.part id t).isSome ∧ minPrio ≤ p ∧ p ≤ maxPrio) := by omega
      rw [if_pos hp, if_neg hno]
      exact ret_looks
    rw [if_neg hp]
    have hact : (Window.replay QueueView.step (if (s.part id t).isSome ∧ minPrio ≤ p ∧ p ≤ maxPrio then
        some (.chprio t p) else none : Option QueueAct).toList (s.view id)).1 = (s.ranked t k p).view id := by
      rw [ranked_view hm hk hz]
      cases hpart : s.part id t with
      | none =>
        refine (QueueView.chprio_eq hpart (fun hmem => ?_) fun hmem => ?_).symm
        · exact hm.away hpart _ (Links.link_of_mem hmem) rfl
        · exact hm.away hpart _ (Links.link_of_mem hmem) rfl
      | some part =>
        rw [if_pos ⟨rfl, by omega, by omega⟩]
        rfl
    rw [hact]
    simp only [updateQueuePriority_eq hi.toPlaced hk hz, ok_bind]
    have hserve : (s.ranked t k p).Serving := ranked_serving hk hr
    have ⟨c, hc, _⟩ := hr
    have hquiet : Quiet False False True K AnyStart s (s.ranked t k p) := .rank hk hti hz hc nofun
    have hi' := hquiet.inv hi
    obtain ⟨hcur, hcidle, _, _⟩ := ranked_frame (s := s) (t := t) (k := k) (p := p)
    split
    · rename_i hmsg
      have hm' : Mail K (s.ranked t k p) :=
        Moves.mail (T := False) (D := False) (R := False) (L := False) (Quiets.moves (.single hquiet)) hi hm
      have hself : (s.ranked t k p).msgReinsert t k.pid =
          .ok ((s.ranked t k p).ranked t { k with priority := p } p) :=
        msgReinsert_eq hi'.toPlaced ranked_self hmsg
      have hagain : ((s.ranked t k p).ranked t { k with priority := p } p).view id =
          (s.ranked t k p).view id := by
        rw [ranked_view hm' ranked_self hz, ranked_view hm hk hz]
        exact QueueView.chprio_chprio (s.queues.nodup _) (s.queues.nodup _)
      rw [hself, ok_bind, ← hagain]
      exact ret_looks
    split
    · have ⟨c', hc', _⟩ := hserve
      rw [task_ok hc', ok_bind]
      split
      · exact goOn_serving hserve nofun
      · exact ret_looks
    · split
      · exact (pageFault_looks hi' hserve (by rw [hcur, hcidle]; exact hidle)).mono fun _ h => h.1
      · rename_i u hu
        obtain ⟨l, hl, _⟩ := hi'.live (queueTop_mem hu)
        rw [task_ok hl, ok_bind]
        split
        · exact goOn_serving hserve nofun
        · exact ret_looks

end State
end DominOS.Process
