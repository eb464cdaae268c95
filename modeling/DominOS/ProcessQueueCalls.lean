import DominOS.ProcessQueueAside

/-! `psend` and `preceive`, as they are seen from one queue: those of other queues are not seen, and
those of the queue itself do what they do to it alone. -/
namespace DominOS.Process
open IntrusiveLists MsgHeap Fallible Relation Unwinding

theorem Task.part_setMsgVal {k : Task} {m : Msg} {id c : Nat} :
    ({ k with msgVal := m } : Task).part id c = (k.part id c).map (Part.setMsgVal m.data) := by
  unfold Task.part
  cases k.kont <;> simp only [Option.map_none] <;> split <;> rfl

namespace State
variable {s s' : State} {t u last : TaskPtr} {k l c : Task} {hd : Head} {kont : Kont} {id j rst : Nat}
  {q : MQueue} {msg m : Msg} {p : UserPtr} {K : Prop} {v : QueueView}

theorem SameLists.inv (e : s.SameLists s') (hi : Inv s) : Inv s' :=
  Quiet.inv (T := False) (D := False) (M := False) (K := False) (B := AnyStart) (.same e False.elim) hi

theorem sending_inv (hi : Inv s) (hk : s.tasks s.current = some k) : Inv (s.sending id msg k) := by
  have hcalled : Inv (s.called id msg) :=
    (SameLists.beside (w := [.psend id msg]) s.ctl (s.sends + 1) s.cptRst s.totalTicks
      (by simp [Obs.Plain])).inv hi
  exact (SameLists.own (s := s.called id msg) (n := k.kont) (m := msg) hk (Or.inl rfl)).inv hcalled

theorem popped_inv {rest : List Msg} (hi : Inv s) (hq : s.mqueues id = some q) :
    Inv ((s.popMsg id q rest).observe (.taken id msg)) := by
  have hset : Inv (s.setMqueue id (q.pop rest)) := (SameLists.queue (by rw [hq]; rfl)).inv hi
  have hasked : Inv (s.popMsg id q rest) := SameLists.calls.inv hset
  exact (SameLists.seen (by trivial)).inv hasked

theorem cleared (id : Nat) (hi : Inv s) (hm : Mail K s) (hr : s.Serving) (hk : s.tasks s.current = some k) :
    Inv (s.setTask s.current { k with msgVal := .none }) ∧
      Mail K (s.setTask s.current { k with msgVal := .none }) ∧
      (s.setTask s.current { k with msgVal := .none }).Serving ∧
      (s.setTask s.current { k with msgVal := .none }).view id = s.view id := by
  obtain ⟨hrun, hkont, _⟩ := hr.calm 0 .none hk
  have e : s.SameLists (s.setTask s.current { k with msgVal := .none }) :=
    SameLists.own (n := k.kont) hk (Or.inl rfl)
  have m : Moves False False K False False AnyStart s (s.setTask s.current { k with msgVal := .none }) := by
    refine .single (.plain (.quiet (.same e fun _ => ⟨rfl, rfl, rfl, rfl, ⟨[], rfl, by simp⟩, fun l hl => ?_⟩)))
    rw [hk] at hl
    cases hl
    exact ⟨_, setTask_tasks_self, Or.inr ⟨by rw [hkont]; trivial, by rw [hkont]; trivial⟩⟩
  refine ⟨e.inv hi, m.mail hi hm, ⟨_, setTask_tasks_self, hrun, hkont⟩, ?_⟩
  exact setOwn_view hr (by rw [hrun]; decide) hkont

section Lost

theorem observeLost_cases (s : State) (j : Nat) (msg : Msg) : s.observeLost j msg = s ∨ s.observeLost j msg = s.observe (.dropped j msg) := by
  unfold observeLost
  split
  · exact Or.inl rfl
  · exact Or.inr rfl

theorem observeLost_view (j : Nat) (msg : Msg) : (s.observeLost j msg).view id = s.view id := by
  rcases observeLost_cases s j msg with h | h
  · rw [h]
  · rw [h]
    rfl

theorem observeLost_current (j : Nat) (msg : Msg) : (s.observeLost j msg).current = s.current ∧
    (s.observeLost j msg).idle = s.idle := by
  rcases observeLost_cases s j msg with h | h <;> rw [h] <;> exact ⟨rfl, rfl⟩

theorem observeLost_inv (hi : Inv s) : Inv (s.observeLost j msg) := by
  rcases observeLost_cases s j msg with h | h <;> rw [h]
  · exact hi
  · exact (SameLists.seen (by trivial)).inv hi

theorem observeLost_serving (hr : s.Serving) : (s.observeLost j msg).Serving := by
  rcases observeLost_cases s j msg with h | h <;> rw [h] <;> exact hr

end Lost

section Aside

theorem woken_aside (he : s.Away id t) (hp : s.part id t = l.part id s.cptRst) :
    (s.woken t l).view id = s.view id := by
  rw [woken_view, view_drop he]
  exact view_put hp

theorem away_of_ne (hl : s.queues.link t = some hd) (hq : hd.queue ≠ some id) : s.Away id t := by
  intro h hl'
  rw [hl] at hl'
  cases hl'
  exact hq

theorem setMqueue_view {n : Nat} {tr : List Obs} {calls : List MsgCall} (hj : j ≠ id) :
    ({ s.setMqueue j q with trace := tr, msgCalls := calls, sends := n } : State).view id = s.view id :=
  view_congr (Function.update_of_ne (Ne.symm hj) _ _) rfl fun _ => rfl

theorem interrupted_aside (hd : Head) (hi : Inv s) (hr : s.Serving) (hm : hd.state = .interruptedMsg)
    (hq : hd.queue ≠ some id) (hkont : kont.queue ≠ some id) : Looks id (s.view id) (do
      let s ← s.queueAdd s.current hd
      s.setTaskInterruptedMsg s.current kont) := by
  have ⟨k, hk, hrun, _⟩ := hr
  refine .of_eq (interrupted_eq hm (hi.unlinked_current hk hrun) hk) ?_
  rw [blocked_view hq (by rw [hm]; decide), Task.part_of_ne hkont, view_drop (hr.away hi.toPlaced),
    view_put hr.part]

theorem psendRet_looks : Looks id (s.view id) (s.psendRet j msg) := ret_looks (s := s.observe (.sent j msg))

theorem preceiveRet_looks (hi : Inv s) (hr : s.Serving) (hidle : s.current ≠ s.idle) :
    Looks id (s.view id) (s.preceiveRet j p msg) := by
  cases p with
  | null => exact ret_looks (s := s.observe (.received j msg))
  | mapped => exact ret_looks (s := s.observe (.received j msg))
  | unmapped => exact (pageFault_looks hi hr hidle).mono fun _ h => h.1
  | kernel => exact .error (not_bad _)

/-- `psend` does not find a receiver in its loop. -/
def Alone (s : State) (j rst : Nat) (k : Task) : Prop :=
  k.msgVal.data = -1 ∨ rst < s.cptRst ∨ s.queues.members (.waitingReceivers j) = []

theorem psendLoop_aside (hj : j ≠ id) (hi : Inv s) (hr : s.Serving) (hidle : s.current ≠ s.idle)
    (hk : s.tasks s.current = some k) (ha : s.Alone j rst k) :
    Looks id (s.view id) (s.psendLoop j msg rst) := by
  have hne : (some j : Option Nat) ≠ some id := fun he => hj (Option.some.inj he)
  cases hq : s.mqueues j with
  | none =>
    simp only [psendLoop, hq]
    exact (pageFault_looks hi hr hidle).mono fun _ h => h.1
  | some q =>
    rw [psendLoop_eq hq hk]
    split
    · exact interrupted_aside (.waitingSenders j) hi hr rfl hne hne
    split
    · exact ret_looks
    rename_i hrst
    split
    · exact psendRet_looks
    rename_i hdata
    have hnone : s.queueTop (.waitingReceivers j) = none :=
      List.getLast?_eq_none_iff.mpr ((ha.resolve_left hdata).resolve_left hrst)
    have hview : (s.entered j q msg).view id = s.view id := setMqueue_view hj
    rw [hnone]
    simp only
    rw [psendAdd_eq hq, ← hview]
    exact psendRet_looks

theorem woken_other (hlast : s.queues.link last = some hd) (hq : hd.queue ≠ some id)
    (hl : s.tasks last = some l) (hkont : l.kont.queue ≠ some id) :
    (s.woken last { l with msgVal := m }).view id = s.view id := by
  refine woken_aside (away_of_ne hlast hq) ?_
  have hpart : ({ l with msgVal := m } : Task).part id s.cptRst = none := Task.part_of_ne hkont
  exact (part_silent hl hkont).trans hpart.symm

theorem psend_aside {i data : Int} (hij : i ≠ id) (hi : Inv s) (hm : Mail K s) (hr : s.Serving)
    (hidle : s.current ≠ s.idle) : Looks id (s.view id) (s.psend i data) := by
  have ⟨k, hk, hrun, hkont⟩ := hr
  unfold psend mqueue
  split
  · rename_i hin
    have hj : i.toNat ≠ id := by omega
    have hne : (some i.toNat : Option Nat) ≠ some id := fun he => hj (Option.some.inj he)
    rw [ok_bind]
    split
    · exact ret_looks
    rename_i q hq
    have htop : (s.called i.toNat ⟨data, s.sends⟩).queueTop (.waitingReceivers i.toNat) =
      s.queueTop (.waitingReceivers i.toNat) := rfl
    simp only [htop]
    split
    · rename_i last hlast
      have hlink := Links.link_of_mem (queueTop_mem hlast)
      obtain ⟨l, hl, hs, hnl⟩ := hi.waiting (queueTop_mem hlast) rfl hk hrun
      obtain ⟨p, rst, _, hlkont, _⟩ := hm.receiver hlink hl
      refine .of_eq (handOver_eq hl hk hnl (by rw [hlink]; simp)) ?_
      have hpart : ({ k with kont := .psendRet i.toNat ⟨data, s.sends⟩ } : Task).part id
          (s.handed i.toNat ⟨data, s.sends⟩ last l).cptRst = none := Task.part_of_ne hne
      rw [wentOn_view (show k.state ≠ .zombie by rw [hrun]; decide), hpart]
      have hview : (s.handed i.toNat ⟨data, s.sends⟩ last l).view id = s.view id :=
        woken_other (s := ((s.called i.toNat ⟨data, s.sends⟩).observe (.entered i.toNat ⟨data, s.sends⟩)).observe
          (.taken i.toNat ⟨data, s.sends⟩)) hlink hne hl (by rw [hlkont]; exact hne)
      rw [hview]
      exact view_put hr.part
    · rename_i hlast
      have hset : (s.called i.toNat ⟨data, s.sends⟩).setMsgVal s.current ⟨data, s.sends⟩ =
          .ok (s.sending i.toNat ⟨data, s.sends⟩ k) := setMsgVal_eq hk
      change Post _ ((s.called i.toNat ⟨data, s.sends⟩).setMsgVal s.current ⟨data, s.sends⟩ >>= _) _
      rw [hset, ok_bind]
      have hview : (s.sending i.toNat ⟨data, s.sends⟩ k).view id = s.view id :=
        setOwn_view hr (by rw [hrun]; decide) hkont
      have hserve : (s.sending i.toNat ⟨data, s.sends⟩ k).Serving := ⟨_, sending_self, hrun, hkont⟩
      rw [← hview]
      refine psendLoop_aside hj (sending_inv hi hk) hserve hidle sending_self (Or.inr (Or.inr ?_))
      exact List.getLast?_eq_none_iff.mp hlast
  · exact .error (not_bad _)

theorem receiveFrom_aside (hj : j ≠ id) (hi : Inv s) (hm : Mail K s) (hr : s.Serving)
    (hidle : s.current ≠ s.idle) (hq : s.mqueues j = some q) (hne : q.count ≠ 0) :
    Looks id (s.view id) (s.receiveFrom j p q) := by
  have hjd : (some j : Option Nat) ≠ some id := fun he => hj (Option.some.inj he)
  have ⟨k, hk, hrun, hkont⟩ := hr
  obtain ⟨hcount, _, _⟩ := hm.books.counted j q hq
  unfold receiveFrom
  cases hmsgs : q.msgs with
  | nil =>
    rw [hmsgs] at hcount
    exact absurd hcount hne
  | cons msg rest =>
    split
    · rename_i last htop
      have hlink := Links.link_of_mem (queueTop_mem htop)
      obtain ⟨l, hl, hs, hnl⟩ := hi.waiting (queueTop_mem htop) rfl hk hrun
      obtain ⟨_, _, hlkont, hdata, _⟩ := hm.sender hlink hl
      refine .of_eq (takeFrom_eq (by rw [hlink]; simp) hl hk hnl (hm.senders last j q hlink hq) hdata hmsgs) ?_
      have hpart : ({ k with kont := .preceiveRet j p msg } : Task).part id
          (s.exchanged j ((q.pop rest).add l.msgVal) msg last l).cptRst = none := Task.part_of_ne hjd
      have hview : (s.exchanged j ((q.pop rest).add l.msgVal) msg last l).view id = s.view id := by
        have hset : ((((((s.setMqueue j ((q.pop rest).add l.msgVal)).asked (.pop j)).asked
            (.add j l.msgVal.data)).observe (.taken j msg)).observe (.entered j l.msgVal))).view id =
            s.view id := setMqueue_view hj
        rw [← hset]
        exact woken_other (s := (((((s.setMqueue j ((q.pop rest).add l.msgVal)).asked (.pop j)).asked
            (.add j l.msgVal.data)).observe (.taken j msg)).observe (.entered j l.msgVal))) hlink hjd hl
            (by rw [hlkont]; exact hjd)
      rw [wentOn_view (show k.state ≠ .zombie by rw [hrun]; decide), hpart, hview, exchanged_current]
      exact view_put hr.part
    · have hview : ((s.popMsg j q rest).observe (.taken j msg)).view id = s.view id := setMqueue_view hj
      rw [← hview]
      exact preceiveRet_looks (popped_inv hi hq) hr hidle

theorem preceiveLoop_aside (hj : j ≠ id) (hi : Inv s) (hm : Mail K s) (hr : s.Serving)
    (hidle : s.current ≠ s.idle) : Looks id (s.view id) (s.preceiveLoop j p rst) := by
  have hjd : (some j : Option Nat) ≠ some id := fun he => hj (Option.some.inj he)
  have ⟨k, hk, hrun, hkont⟩ := hr
  cases hq : s.mqueues j with
  | none =>
    unfold preceiveLoop
    rw [task_ok hk, ok_bind]
    simp only [hq]
    rw [← observeLost_view j k.msgVal]
    refine (pageFault_looks (observeLost_inv hi) (observeLost_serving hr) ?_).mono fun _ h => h.1
    rw [(observeLost_current _ _).1, (observeLost_current _ _).2]
    exact hidle
  | some q =>
    rw [preceiveLoop_eq hq hk]
    split
    · exact interrupted_aside (.waitingReceivers j) hi hr rfl hjd hjd
    rename_i hempty
    split
    · rw [← observeLost_view j k.msgVal]
      exact ret_looks
    split
    · rw [setMsgVal_eq hk, ok_bind]
      have hset : (s.setTask s.current { k with msgVal := .none }).view id = s.view id :=
        setOwn_view hr (by rw [hrun]; decide) hkont
      rw [← hset]
      exact preceiveRet_looks ((SameLists.own (n := k.kont) hk (Or.inl rfl)).inv hi)
        ⟨_, setTask_tasks_self, hrun, hkont⟩ hidle
    · rename_i hdata
      exact receiveFrom_aside hj hi hm hr hidle hq fun h => hempty ⟨h, not_not.mp hdata⟩

theorem preceive_aside {i : Int} (hij : i ≠ id) (hi : Inv s) (hm : Mail K s) (hr : s.Serving)
    (hidle : s.current ≠ s.idle) : Looks id (s.view id) (s.preceive i p) := by
  have ⟨k, hk, _⟩ := hr
  unfold preceive mqueue
  split
  · rename_i hin
    rw [ok_bind]
    split
    · exact ret_looks
    · obtain ⟨hi', hm', hr', hview⟩ := cleared id hi hm hr hk
      rw [setMsgVal_eq hk, ok_bind, ← hview]
      exact preceiveLoop_aside (by omega) hi' hm' hr' hidle
  · exact .error (not_bad _)

end Aside

def Yields (id : Nat) (s : State) (r : QueueView × List QueueResult) (x : Except Fault State) : Prop :=
  Post (Bad False False) x fun s' => s'.view id = r.1 ∧
    ∃ seen, s'.trace = seen ++ s.trace ∧ seen.reverse.filterMap (Obs.result s.current) = r.2

theorem ret_yields {n : Int} : Yields id s (s.view id, [.returned s.current n]) (s.ret n) :=
  .ok ⟨view_same rfl rfl rfl rfl, [.returned s.current n], rfl, rfl⟩

theorem pageFault_yields (hi : Inv s) (hr : s.Serving) (hidle : s.current ≠ s.idle) :
    Yields id s (s.view id, []) s.pageFault :=
  (pageFault_looks hi hr hidle).mono fun _ ⟨hv, ht⟩ => ⟨hv, [.exited s.current 0], ht, rfl⟩

theorem Yields.after {s₁ : State} {r : QueueView × List QueueResult} {x : Except Fault State}
    (y : Yields id s₁ r x) (hc : s₁.current = s.current) (O : List Obs) (ht : s₁.trace = O ++ s.trace)
    (hO : O.reverse.filterMap (Obs.result s.current) = []) : Yields id s r x := by
  refine y.mono fun s' ⟨hv, seen, hs, hr⟩ => ⟨hv, seen ++ O, ?_, ?_⟩
  · rw [hs, ht, List.append_assoc]
  · rw [List.reverse_append, List.filterMap_append, hO, List.nil_append, ← hc]
    exact hr

theorem Yields.lost (j : Nat) (msg : Msg) {r : QueueView × List QueueResult} {x : Except Fault State}
    (y : Yields id (s.observeLost j msg) r x) : Yields id s r x := by
  rcases observeLost_cases s j msg with h | h
  · rw [h] at y
    exact y
  · rw [h] at y
    exact y.after rfl [.dropped j msg] rfl rfl

section Own

theorem psendRet_yields : Yields id s (s.view id, [.returned s.current 0]) (s.psendRet id msg) :=
  (ret_yields (s := s.observe (.sent id msg))).after rfl [.sent id msg] rfl rfl

theorem preceiveRet_yields (hi : Inv s) (hr : s.Serving) (hidle : s.current ≠ s.idle) :
    Yields id s ((s.view id).receiveRet s.current p msg.data) (s.preceiveRet id p msg) := by
  have ok : Yields id s (s.view id, [.received s.current msg.data, .returned s.current 0])
      ((s.observe (.received id msg)).ret 0) :=
    .ok ⟨view_same rfl rfl rfl rfl, [.returned s.current 0, .received id msg], rfl, rfl⟩
  cases p with
  | null => exact ok
  | mapped => exact ok
  | unmapped => exact pageFault_yields hi hr hidle
  | kernel => exact .error (not_bad _)

def Ranks (s : State) (id : Nat) : Prop :=
  ∀ hd u, hd.queue = some id → u ∈ s.queues.members hd →
    (s.part id u).elim 0 Part.priority = s.priorityOf u

theorem Mail.ranks (hm : Mail K s) : s.Ranks id := fun _ _ hq hu => hm.priority (Links.link_of_mem hu) hq

theorem Ranks.setOwn (h : s.Ranks id) (hun : s.queues.link s.current = none) :
    (s.setTask s.current l).Ranks id := by
  intro hd u hq hu
  have hu : u ∈ s.queues.members hd := hu
  have hne : u ≠ s.current := by
    rintro rfl
    exact Links.not_mem hun hd hu
  rw [part_congr (setTask_tasks_of_ne hne) rfl, h hd u hq hu]
  simp only [priorityOf, setTask_tasks_of_ne hne]

theorem setMqueue_self_view {n : Nat} {tr : List Obs} {calls : List MsgCall} :
    ({ s.setMqueue id q with trace := tr, msgCalls := calls, sends := n } : State).view id =
      { s.view id with queue := some ⟨q.size, q.msgs.map Msg.data⟩ } := by
  refine QueueView.ext ?_ rfl rfl rfl
  exact contents_eq (Function.update_self _ _ _)

section Blocked
variable {part : Part}

theorem blocked_place (hd : Head) (hm : hd.state = .interruptedMsg) (hun : s.queues.link s.current = none)
    (h : s.Ranks id) (hprio : part.priority = k.priority)
    (hpart : ({ k with state := .interruptedMsg, kont := kont } : Task).part id s.cptRst = some part) :
    ∃ w : State, (s.blocked hd k kont).view id = (w.move hd s.current).view id ∧
      w.view id = (s.view id).put s.current (some part) ∧ w.Ranks id ∧
      (w.part id s.current).elim 0 Part.priority = w.priorityOf s.current ∧
      ∀ h, s.current ∉ w.queues.members h := by
  obtain ⟨w, hw⟩ : ∃ w, w = s.setTask s.current { k with state := .interruptedMsg, kont := kont } := ⟨_, rfl⟩
  have hview : w.view id = (s.view id).put s.current (some part) := by
    rw [hw, setTask_view (show TaskState.interruptedMsg ≠ .zombie from nofun)]
    exact congrArg (QueueView.put s.current · _) hpart
  have hin : w.part id s.current = some part := by
    rw [show w.part id s.current = (w.view id).inside s.current from rfl, hview, QueueView.put_inside]
  refine ⟨w, ?_, hview, ?_, ?_, fun h => ?_⟩
  · rw [hw, ← hm]
    rfl
  · rw [hw]
    exact h.setOwn hun
  · rw [hin, hw]
    simpa [priorityOf] using hprio
  · rw [hw]
    exact Links.not_mem hun h

theorem blocked_senders_view (hun : s.queues.link s.current = none) (h : s.Ranks id)
    (hprio : part.priority = k.priority)
    (hpart : ({ k with state := .interruptedMsg, kont := kont } : Task).part id s.cptRst = some part) :
    (s.blocked (.waitingSenders id) k kont).view id =
      ((s.view id).put s.current (some part)).joinSenders s.current := by
  obtain ⟨w, hb, hv, hranks, hself, hnot⟩ := blocked_place (.waitingSenders id) rfl hun h hprio hpart
  rw [hb, ← hv]
  exact move_senders_view rfl (fun u hu _ => hranks _ u rfl hu) hself (hnot _)

theorem blocked_receivers_view (hun : s.queues.link s.current = none) (h : s.Ranks id)
    (hprio : part.priority = k.priority)
    (hpart : ({ k with state := .interruptedMsg, kont := kont } : Task).part id s.cptRst = some part) :
    (s.blocked (.waitingReceivers id) k kont).view id =
      ((s.view id).put s.current (some part)).joinReceivers s.current := by
  obtain ⟨w, hb, hv, hranks, hself, hnot⟩ := blocked_place (.waitingReceivers id) rfl hun h hprio hpart
  rw [hb, ← hv]
  exact move_receivers_view rfl (fun u hu _ => hranks _ u rfl hu) hself (hnot _)

end Blocked

theorem psendLoop_yields (msg : Msg) (rst : Nat) (hi : Inv s) (hr : s.Serving) (hidle : s.current ≠ s.idle)
    (hk : s.tasks s.current = some k) (ha : s.Alone id rst k) (hranks : s.Ranks id)
    (hcount : ∀ q, s.mqueues id = some q → q.count = q.msgs.length) :
    Yields id s ((s.view id).sendLoop s.current k.priority k.msgVal.data msg.data (decide (¬ rst < s.cptRst)))
      (s.psendLoop id msg rst) := by
  obtain ⟨hrun, hkont, _⟩ := hr.calm 0 .none hk
  unfold QueueView.sendLoop
  rw [show (s.view id).queue = s.contents id from rfl]
  cases hq : s.mqueues id with
  | none =>
    simp only [psendLoop, hq, contents, Option.map_none]
    exact pageFault_yields hi hr hidle
  | some q =>
    have hlen : (q.msgs.map Msg.data).length = q.count := by
      rw [List.length_map, hcount q hq]
    rw [psendLoop_eq hq hk, contents_eq hq]
    simp only [hlen]
    split
    · refine .of_eq (interrupted_eq (h := .waitingSenders id) rfl (hi.unlinked_current hk hrun) hk) ?_
      refine ⟨blocked_senders_view (hi.unlinked_current hk hrun) hranks rfl ?_, [], rfl, rfl⟩
      simp [Task.part]
    simp only [decide_eq_false_iff_not, not_not]
    split
    · exact ret_yields
    rename_i hrst
    split
    · exact psendRet_yields
    rename_i hdata
    have hnone : s.queueTop (.waitingReceivers id) = none :=
      List.getLast?_eq_none_iff.mpr ((ha.resolve_left hdata).resolve_left hrst)
    rw [hnone]
    simp only
    rw [psendAdd_eq hq]
    have hview : (s.entered id q msg).view id =
        { s.view id with queue := some ⟨q.size, q.msgs.map Msg.data ++ [msg.data]⟩ } := by
      have hadd : (q.add msg).msgs = q.msgs ++ [msg] := Books.add_msgs (hcount q hq)
      rw [show (s.entered id q msg).view id = _ from setMqueue_self_view, hadd, List.map_append]
      rfl
    rw [← hview]
    exact psendRet_yields.after rfl [.entered id msg] rfl rfl

theorem psend_yields {data : Int} (hi : Inv s) (hm : Mail K s) (hr : s.Serving)
    (hidle : s.current ≠ s.idle) :
    Yields id s ((s.view id).psend s.current (s.priorityOf s.current) data) (s.psend id data) := by
  have ⟨k, hk, hrun, hkont⟩ := hr
  have hz : k.state ≠ .zombie := by
    rw [hrun]
    decide
  unfold psend mqueue
  split
  case isFalse => exact .error (not_bad _)
  rw [ok_bind, Int.toNat_natCast]
  unfold QueueView.psend
  rw [show (s.view id).queue = s.contents id from rfl]
  cases hq : s.mqueues id with
  | none =>
    simp only [contents, hq, Option.map_none]
    exact ret_yields
  | some q =>
    have htop : (s.called id ⟨data, s.sends⟩).queueTop (.waitingReceivers id) =
      (s.view id).receivers.getLast? := rfl
    simp only [contents_eq hq, htop]
    cases hlast : (s.view id).receivers.getLast? with
    | some last =>
      have hlink := Links.link_of_mem (queueTop_mem hlast)
      obtain ⟨l, hl, hs, hnl⟩ := hi.waiting (queueTop_mem hlast) rfl hk hrun
      refine .of_eq (handOver_eq hl hk hnl (by rw [hlink]; simp)) ⟨?_, [.taken id ⟨data, s.sends⟩,
        .entered id ⟨data, s.sends⟩, .psend id ⟨data, s.sends⟩], rfl, rfl⟩
      have hsent : ({ k with kont := .psendRet id ⟨data, s.sends⟩ } : Task).part id
          (s.handed id ⟨data, s.sends⟩ last l).cptRst = some .sent := by simp [Task.part]
      have hgive : ({ l with msgVal := ⟨data, s.sends⟩ } : Task).part id s.cptRst =
          ((s.view id).inside last).map (Part.setMsgVal data) := by
        rw [show (s.view id).inside last = _ from part_eq hl (by rw [hs]; decide)]
        exact Task.part_setMsgVal
      have hview : (s.handed id ⟨data, s.sends⟩ last l).view id = ((s.view id).drop last).give last data := by
        refine (woken_view (s := ((s.called id ⟨data, s.sends⟩).observe (.entered id ⟨data, s.sends⟩)).observe
          (.taken id ⟨data, s.sends⟩))).trans ?_
        exact congrArg (QueueView.put last · _) hgive
      rw [wentOn_view hz, hsent, hview]
      rfl
    | none =>
      have hset : (s.called id ⟨data, s.sends⟩).setMsgVal s.current ⟨data, s.sends⟩ =
          .ok (s.sending id ⟨data, s.sends⟩ k) := setMsgVal_eq hk
      change Yields id s _ ((s.called id ⟨data, s.sends⟩).setMsgVal s.current ⟨data, s.sends⟩ >>= _)
      rw [hset, ok_bind]
      have hview : (s.sending id ⟨data, s.sends⟩ k).view id = s.view id := setOwn_view hr hz hkont
      have hserve : (s.sending id ⟨data, s.sends⟩ k).Serving := ⟨_, sending_self, hrun, hkont⟩
      have hranks : (s.sending id ⟨data, s.sends⟩ k).Ranks id :=
        (show (s.called id ⟨data, s.sends⟩).Ranks id from hm.ranks).setOwn (hi.unlinked_current hk hrun)
      have hloop := psendLoop_yields ⟨data, s.sends⟩ s.cptRst (sending_inv hi hk) hserve hidle
        sending_self (Or.inr (Or.inr (List.getLast?_eq_none_iff.mp hlast))) hranks
        fun q hq => (hm.books.counted id q hq).1
      have hlive : decide (¬ s.cptRst < (s.sending id ⟨data, s.sends⟩ k).cptRst) = true :=
        decide_eq_true (Nat.lt_irrefl _)
      have hprio : s.priorityOf s.current = k.priority := by simp [priorityOf, hk]
      rw [hview, hlive] at hloop
      rw [hprio]
      exact hloop.after rfl [.psend id ⟨data, s.sends⟩] rfl rfl

theorem receiveFrom_yields (hi : Inv s) (hm : Mail K s) (hr : s.Serving) (hidle : s.current ≠ s.idle)
    (hq : s.mqueues id = some q) {rest : List Msg} (hmsgs : q.msgs = msg :: rest) :
    Yields id s ((s.view id).takeFirst s.current p q.size msg.data (rest.map Msg.data))
      (s.receiveFrom id p q) := by
  have ⟨k, hk, hrun, hkont⟩ := hr
  obtain ⟨hcount, _, _⟩ := hm.books.counted id q hq
  unfold receiveFrom QueueView.takeFirst
  rw [show (s.view id).senders.getLast? = s.queueTop (.waitingSenders id) from rfl]
  cases htop : s.queueTop (.waitingSenders id) with
  | some last =>
    have hlink := Links.link_of_mem (queueTop_mem htop)
    obtain ⟨l, hl, hs, hnl⟩ := hi.waiting (queueTop_mem htop) rfl hk hrun
    obtain ⟨rst, hlz, hlkont, hdata, _⟩ := hm.sender hlink hl
    refine .of_eq (takeFrom_eq (by rw [hlink]; simp) hl hk hnl (hm.senders last id q hlink hq) hdata hmsgs)
      ⟨?_, [.entered id l.msgVal, .taken id msg], ?_, rfl⟩
    · have hin : (s.view id).inside last = some (.sending l.priority l.msgVal.data l.msgVal.data
          (decide (¬ rst < s.cptRst))) := by
        rw [show (s.view id).inside last = _ from part_eq hl hlz]
        simp [Task.part, hlkont]
      have hmsgs' : ((q.pop rest).add l.msgVal).msgs = rest ++ [l.msgVal] := by
        refine Books.add_msgs ?_
        rw [hmsgs, List.length_cons] at hcount
        simp only [MQueue.pop]
        rw [if_neg (by omega)]
        omega
      have hgot : ({ k with kont := .preceiveRet id p msg } : Task).part id
          (s.exchanged id ((q.pop rest).add l.msgVal) msg last l).cptRst = some (.received p msg.data) := by
        simp [Task.part]
      have hgive : ({ l with msgVal := .none } : Task).part id s.cptRst =
          ((s.view id).inside last).map (Part.setMsgVal (-1)) := by
        rw [show (s.view id).inside last = _ from part_eq hl hlz]
        exact Task.part_setMsgVal
      have hset : (((((s.setMqueue id ((q.pop rest).add l.msgVal)).asked (.pop id)).asked
          (.add id l.msgVal.data)).observe (.taken id msg)).observe (.entered id l.msgVal)).view id =
          { s.view id with queue := some ⟨q.size, rest.map Msg.data ++ [l.msgVal.data]⟩ } := by
        refine setMqueue_self_view.trans ?_
        rw [hmsgs', List.map_append]
        rfl
      have hview : (s.exchanged id ((q.pop rest).add l.msgVal) msg last l).view id =
          (({ s.view id with queue := some ⟨q.size, rest.map Msg.data ++ [l.msgVal.data]⟩ }).drop last).give
            last (-1) := by
        refine woken_view.trans ?_
        rw [hset]
        exact congrArg (QueueView.put last · _) hgive
      rw [wentOn_view (show k.state ≠ .zombie by rw [hrun]; decide), hgot, hview, exchanged_current]
      simp only [hin, Option.elim_some, Part.msgVal]
    · exact exchanged_trace (t := last)
  | none =>
    simp only [hmsgs]
    have hview : ((s.popMsg id q rest).observe (.taken id msg)).view id =
        { s.view id with queue := some ⟨q.size, rest.map Msg.data⟩ } := setMqueue_self_view
    rw [← hview]
    exact (preceiveRet_yields (popped_inv hi hq) hr hidle).after rfl [.taken id msg] rfl rfl

theorem preceiveLoop_yields (id rst : Nat) (p : UserPtr) (hi : Inv s) (hm : Mail K s) (hr : s.Serving) (hidle : s.current ≠ s.idle)
    (hk : s.tasks s.current = some k) :
    Yields id s ((s.view id).receiveLoop s.current k.priority k.msgVal.data p (decide (¬ rst < s.cptRst)))
      (s.preceiveLoop id p rst) := by
  obtain ⟨hrun, hkont, _⟩ := hr.calm 0 .none hk
  unfold QueueView.receiveLoop
  rw [show (s.view id).queue = s.contents id from rfl]
  cases hq : s.mqueues id with
  | none =>
    unfold preceiveLoop
    rw [task_ok hk, ok_bind]
    simp only [hq, contents, Option.map_none]
    refine Yields.lost id k.msgVal ?_
    rw [← observeLost_view id k.msgVal]
    refine pageFault_yields (observeLost_inv hi) (observeLost_serving hr) ?_
    rw [(observeLost_current _ _).1, (observeLost_current _ _).2]
    exact hidle
  | some q =>
    obtain ⟨hcount, _, _⟩ := hm.books.counted id q hq
    have hnil : q.msgs.map Msg.data = [] ↔ q.count = 0 := by
      rw [List.map_eq_nil_iff, ← List.length_eq_zero_iff, hcount]
    rw [preceiveLoop_eq hq hk, contents_eq hq]
    simp only [hnil]
    split
    · refine .of_eq (interrupted_eq (h := .waitingReceivers id) rfl (hi.unlinked_current hk hrun) hk) ?_
      refine ⟨blocked_receivers_view (hi.unlinked_current hk hrun) hm.ranks rfl ?_, [], rfl, rfl⟩
      simp [Task.part]
    rename_i hempty
    simp only [decide_eq_false_iff_not, not_not]
    split
    · refine Yields.lost id k.msgVal ?_
      rw [← observeLost_view id k.msgVal, ← (observeLost_current id k.msgVal).1]
      exact ret_yields
    split
    · rename_i hdata
      rw [setMsgVal_eq hk, ok_bind]
      obtain ⟨hi', _, hr', hview⟩ := cleared id hi hm hr hk
      rw [← hview]
      exact (preceiveRet_yields hi' hr' hidle).after rfl [] rfl rfl
    · rename_i hdata
      have hne : q.count ≠ 0 := fun h => hempty ⟨h, not_not.mp hdata⟩
      cases hmsgs : q.msgs with
      | nil =>
        rw [hmsgs] at hcount
        exact absurd hcount hne
      | cons msg rest => exact receiveFrom_yields hi hm hr hidle hq hmsgs

theorem preceive_yields (hi : Inv s) (hm : Mail K s) (hr : s.Serving) (hidle : s.current ≠ s.idle) :
    Yields id s ((s.view id).preceive s.current (s.priorityOf s.current) p) (s.preceive id p) := by
  have ⟨k, hk, hrun, hkont⟩ := hr
  unfold preceive mqueue
  split
  case isFalse => exact .error (not_bad _)
  rw [ok_bind, Int.toNat_natCast]
  unfold QueueView.preceive
  rw [show (s.view id).queue = s.contents id from rfl]
  cases hq : s.mqueues id with
  | none =>
    simp only [contents, hq, Option.map_none]
    exact ret_yields
  | some q =>
    obtain ⟨hi', hm', hr', hview⟩ := cleared id hi hm hr hk
    have hloop := preceiveLoop_yields id s.cptRst p hi' hm' hr' hidle setTask_tasks_self
    have hlive : decide (¬ s.cptRst < (s.setTask s.current { k with msgVal := .none }).cptRst) = true :=
      decide_eq_true (Nat.lt_irrefl _)
    have hprio : s.priorityOf s.current = k.priority := by simp [priorityOf, hk]
    rw [hview, hlive] at hloop
    simp only [contents_eq hq]
    rw [setMsgVal_eq hk, ok_bind, hprio]
    exact hloop.after rfl [] rfl rfl

end Own

end State
end DominOS.Process
