import DominOS.ProcessWaitSpec
import DominOS.ProcessMailTalk

/-! `psend` and `preceive` on a state that satisfies the invariants. -/
namespace DominOS.Process
open IntrusiveLists Fallible Relation
namespace State
variable {s s' s₀ : State} {t u last : TaskPtr} {k l : Task} {h : Head} {kont : Kont} {id : Nat}
  {q : MQueue} {msg v : Msg} {p : UserPtr} {rst : Nat} {A D T K R L : Prop}
  {B : State → StartArgs → Prop} {mem : Bool}

theorem mqueue_eq (hq : s.mqueues id = some q) (hid : id < nbQueue) : s.mqueue id = .ok (some q) := by
  unfold mqueue
  rw [if_pos (by omega), Int.toNat_natCast, hq]

theorem setMsgVal_eq (hk : s.tasks t = some k) :
    s.setMsgVal t v = .ok (s.setTask t { k with msgVal := v }) := by
  unfold setMsgVal
  rw [task_ok hk, ok_bind]

theorem woken_unlink {l' : Task} : ((s.unlink t).setTask t l').woken t l = s.woken t l := by
  unfold woken
  rw [setTask_setTask]
  exact move_unlink (s := s.setTask t { l with state := .ready })

theorem setTaskReadyOrRunning_eq (hun : s.queues.link t = none) (hl : s.tasks t = some l)
    (hk : s.tasks s.current = some k) (hne : t ≠ s.current) :
    s.setTaskReadyOrRunning t kont = .ok ((s.woken t l).wentOn k kont
      (if l.priority > k.priority then .sched else .resume)) := by
  have hadd : (s.setTask t { l with state := .ready }).queueAdd t .ready = .ok (s.woken t l) :=
    queueAdd_eq hun
  have hcur : (s.woken t l).tasks (s.woken t l).current = some k :=
    (woken_of_ne (Ne.symm hne)).trans hk
  unfold setTaskReadyOrRunning
  rw [task_ok hl, ok_bind, hadd, ok_bind, task_ok hcur, ok_bind]
  split
  · exact goOn_eq hcur
  · exact goOn_eq hcur

theorem wentOn_outcome {c : Ctl} (m : Moves (T ∧ c ≠ .sched) D K R L B s₀ (s.wentOn k kont c))
    (hr : k.state = .running) (hc : c ≠ .user) : Outcome A T D K R L B s₀ (s.wentOn k kont c) := by
  refine ⟨m, fun _ => ⟨_, wentOn_self, hr⟩, fun he => absurd he hc, fun _ _ l hl hs => ?_⟩
  rw [wentOn_self] at hl
  cases hl
  have hs : k.state = .sleeping := hs
  rw [hr] at hs
  cases hs

theorem Serving.calm (id : Nat) (msg : Msg) (hr : s.Serving) (hk : s.tasks s.current = some k) :
    k.state = .running ∧ k.kont = .iret ∧ ¬ k.Holds id msg := by
  obtain ⟨k', hk', hs, hkont⟩ := hr
  rw [hk] at hk'
  cases hk'
  refine ⟨hs, hkont, ?_⟩
  rintro (⟨p, rst, he, _⟩ | ⟨p, he⟩) <;> rw [hkont] at he <;> cases he

theorem handOver_eq (hl : s.tasks last = some l) (hk : s.tasks s.current = some k)
    (hne : last ≠ s.current) (hlink : s.queues.link last ≠ none) :
    (s.called id msg).handOver id msg last = .ok ((s.handed id msg last l).wentOn k
      (.psendRet id msg) (if l.priority > k.priority then .sched else .resume)) := by
  have hdel : (s.called id msg).queueDel last = .ok ((s.called id msg).unlink last) :=
    queueDel_eq hlink
  have hset : ((s.called id msg).unlink last).setMsgVal last msg =
      .ok (((s.called id msg).unlink last).setTask last { l with msgVal := msg }) := setMsgVal_eq hl
  have hself : (((s.called id msg).unlink last).setTask last { l with msgVal := msg }).tasks last =
      some { l with msgVal := msg } := setTask_tasks_self
  have hcur : (((s.called id msg).unlink last).setTask last { l with msgVal := msg }).tasks
      s.current = some k := (setTask_tasks_of_ne (Ne.symm hne)).trans hk
  unfold handOver
  rw [hdel, ok_bind, hset, ok_bind]
  refine (setTaskReadyOrRunning_eq (s := ((((s.called id msg).unlink last).setTask last
    { l with msgVal := msg }).observe (.entered id msg)).observe (.taken id msg))
    (l := { l with msgVal := msg }) Links.link_erase_self hself hcur hne).trans ?_
  refine congrArg (fun w : State => Except.ok (w.wentOn k (.psendRet id msg) _)) ?_
  exact woken_unlink (s := ((s.called id msg).observe (.entered id msg)).observe (.taken id msg))

/-- Whoever gets a message from `psend` has been waiting since the last reset. -/
def HandsOver (s : State) (id : Nat) : Prop :=
  ∀ t k p rst, s.queueTop (.waitingReceivers id) = some t → s.tasks t = some k →
    k.kont = .preceiveLoop id p rst → rst = s.cptRst

theorem handOver_spec {data : Int} (hi : Inv s) (hrun : s.Serving) (hidle : s.current ≠ s.idle)
    (hq : (s.mqueues id).isSome) (htop : s.queueTop (.waitingReceivers id) = some last)
    (hK : K → s.HandsOver id) :
    Post (Bad A D) ((s.called id ⟨data, s.sends⟩).handOver id ⟨data, s.sends⟩ last)
      (Outcome A T D K R L B s) := by
  obtain ⟨k, hk, hr, hkont⟩ := hrun
  obtain ⟨l, hl, _, hne⟩ := hi.waiting (queueTop_mem htop) rfl hk hr
  have hlink : s.queues.link last ≠ none := by
    rw [Links.link_of_mem (queueTop_mem htop)]
    simp
  refine .of_eq (handOver_eq hl hk hne hlink) ?_
  have hcur : (s.handed id ⟨data, s.sends⟩ last l).tasks s.current = some k :=
    (woken_of_ne (Ne.symm hne)).trans hk
  refine wentOn_outcome ?_ hr (by split <;> nofun)
  have hlow (hT : T ∧ (if l.priority > k.priority then Ctl.sched else .resume) ≠ .sched) :
      l.priority ≤ k.priority := by
    by_contra hlt
    exact hT.2 (if_pos (not_le.mp hlt))
  refine (ReflTransGen.single (.talk (.hand hk hr hkont hq htop hl hlow
    fun hk' p rst he => hK hk' last l p rst htop hl he))).tail
      (.talk (.told hcur hr hkont hidle ?_))
  exact List.mem_cons_of_mem _ List.mem_cons_self

theorem blocked_msg_outcome (hm : h.state = .interruptedMsg)
    (m : Moves False D K R L B s₀ (s.blocked h k kont)) : Outcome A T D K R L B s₀ (s.blocked h k kont) := by
  refine ⟨m.mono fun h => h.2 rfl, fun h => absurd rfl h, nofun, fun _ _ l hl hs => ?_⟩
  have hl : (s.blocked h k kont).tasks s.current = some l := hl
  rw [show (s.blocked h k kont).tasks s.current = some { k with state := h.state, kont := kont } from
    setTask_tasks_self] at hl
  cases hl
  have hs : h.state = .sleeping := hs
  rw [hm] at hs
  cases hs

theorem interrupted_eq (hm : h.state = .interruptedMsg) (hun : s.queues.link s.current = none)
    (hk : s.tasks s.current = some k) :
    (do
      let s ← s.queueAdd s.current h
      s.setTaskInterruptedMsg s.current kont) = .ok (s.blocked h k kont) := by
  have hcur : (s.move h s.current).tasks (s.move h s.current).current = some k := hk
  have hself : ((s.move h s.current).setTask s.current { k with state := .interruptedMsg }).tasks
      s.current = some { k with state := .interruptedMsg } := setTask_tasks_self
  rw [queueAdd_eq hun, ok_bind]
  unfold setTaskInterruptedMsg
  rw [task_ok hcur, ok_bind]
  refine (goOn_eq hself).trans ?_
  refine congrArg (fun w : State => Except.ok (w.setCtl .sched)) ?_
  have hmove := setTask_move (s := s) (t := s.current) (u := s.current) (h := h) (k := k)
    (l := { k with state := h.state, kont := kont }) rfl
  rw [setTask_same hk] at hmove
  rw [← hmove, hm]
  exact setTask_setTask

theorem noDangling_of_moves (m : Moves T D K R L B s₀ s) (hi : Inv s₀) (hd : D → s₀.NoDangling) :
    D → s.NoDangling :=
  fun hD => Effects.noDangling (m.effects hi) hD hi (hd hD)

theorem psendRet_spec (m : Moves T D K R L B s₀ s) (hrun : s.Serving)
    (he : msg.data = -1 ∨ .entered id msg ∈ s.trace) :
    Post (Bad A D) (s.psendRet id msg) (Outcome A T D K R L B s₀) :=
  ret_spec (m.tail (.talk (.sent he))) hrun

theorem psendAdd_eq (hq : s.mqueues id = some q) :
    s.psendAdd id msg = (s.entered id q msg).psendRet id msg := by
  simp only [psendAdd, hq, entered, if_true]

theorem psendAdd_refused (hq : s.mqueues id = some q) : s.psendAdd id msg false = s.pageFault := by
  simp only [psendAdd, hq, Bool.false_eq_true, if_false]

theorem psendLoop_eq (hq : s.mqueues id = some q) (hk : s.tasks s.current = some k) :
    s.psendLoop id msg rst mem = if q.count = q.size ∧ k.msgVal.data ≠ -1 then (do
      let s ← s.queueAdd s.current (.waitingSenders id)
      s.setTaskInterruptedMsg s.current (.psendLoop id msg rst))
    else if rst < s.cptRst then s.ret (-1)
    else if k.msgVal.data = -1 then s.psendRet id msg
    else match s.queueTop (.waitingReceivers id) with
      | none => s.psendAdd id msg mem
      | some last => (do
        let s ← s.queueDel last
        s.setTaskReadyOrRunning last (.psendAdd id msg)) := by
  unfold psendLoop
  simp only [hq]
  rw [task_ok hk]
  rfl

def sending (s : State) (id : Nat) (msg : Msg) (k : Task) : State :=
  (s.called id msg).setTask s.current { k with msgVal := msg }

theorem sending_self : (s.sending id msg k).tasks (s.sending id msg k).current =
    some { k with msgVal := msg } := setTask_tasks_self

theorem sending_blocked : (s.sending id msg k).blocked h { k with msgVal := msg } kont =
    (s.called id msg).blocked h { k with msgVal := msg } kont := by
  refine congrArg (fun w : State => (w.move h s.current).setCtl .sched) ?_
  exact setTask_setTask (s := s.called id msg)

theorem psendLoop_called {data : Int} (hi : Inv s) (hrun : s.Serving) (hidle : s.current ≠ s.idle)
    (hq : s.mqueues id = some q) (hk : s.tasks s.current = some k)
    (hnone : s.queues.members (.waitingReceivers id) = []) (hdang : D → s.NoDangling) :
    Post (Bad A D) ((s.sending id ⟨data, s.sends⟩ k).psendLoop id ⟨data, s.sends⟩ s.cptRst mem)
      (Outcome A T D K R L B s) := by
  obtain ⟨hr, hkont, _⟩ := hrun.calm 0 .none hk
  have hq' : (s.sending id ⟨data, s.sends⟩ k).mqueues id = some q := hq
  have hun : (s.sending id ⟨data, s.sends⟩ k).queues.link (s.sending id ⟨data, s.sends⟩ k).current =
      none := hi.unlinked_current hk hr
  have htop : (s.sending id ⟨data, s.sends⟩ k).queueTop (.waitingReceivers id) = none :=
    List.getLast?_eq_none_iff.mpr hnone
  have hserve : (s.sending id ⟨data, s.sends⟩ k).Serving := ⟨_, sending_self, hr, hkont⟩
  have unsent {T : Prop} : Moves T D K R L B s (s.sending id ⟨data, s.sends⟩ k) :=
    .single (.talk (.unsent hk hr hkont))
  rw [psendLoop_eq hq' sending_self]
  by_cases hfull : q.count = q.size ∧ data ≠ -1
  · rw [if_pos hfull]
    refine .of_eq (interrupted_eq (h := .waitingSenders id) rfl hun sending_self) ?_
    rw [sending_blocked]
    exact blocked_msg_outcome rfl (.single (.talk (.sendBlock not_false hk hr hkont hidle hq hfull.1 hfull.2)))
  have hrst : ¬ s.cptRst < (s.sending id ⟨data, s.sends⟩ k).cptRst := Nat.lt_irrefl _
  rw [if_neg hfull, if_neg hrst]
  by_cases hd : data = -1
  · subst hd
    rw [if_pos rfl]
    exact psendRet_spec unsent hserve (Or.inl rfl)
  · rw [if_neg hd, htop]
    simp only
    cases mem with
    | false =>
      rw [psendAdd_refused hq']
      exact pageFault_spec hi unsent hserve hidle (noDangling_of_moves (unsent (T := False)) hi hdang)
    | true =>
      rw [psendAdd_eq hq']
      have hroom : q.count ≠ q.size := fun he => hfull ⟨he, hd⟩
      exact psendRet_spec (.single (.talk (.enter hk hr hkont hq hroom hnone))) hserve
        (Or.inr List.mem_cons_self)

theorem psend_spec {i data : Int} (hi : Inv s) (hrun : s.Serving) (hidle : s.current ≠ s.idle)
    (hK : K → s.HandsOver i.toNat) (hd : D → s.NoDangling) :
    Post (Bad A D) (s.psend i data mem) (Outcome A T D K R L B s) := by
  obtain ⟨k, hk, _⟩ := hi.current
  unfold psend mqueue
  split
  · rw [ok_bind]
    split
    · exact ret_spec .refl hrun
    · rename_i q hq
      have htop : (s.called i.toNat ⟨data, s.sends⟩).queueTop (.waitingReceivers i.toNat) =
          s.queueTop (.waitingReceivers i.toNat) := rfl
      simp only [htop]
      split
      · rename_i last hlast
        exact handOver_spec hi hrun hidle (Option.isSome_iff_exists.mpr ⟨q, hq⟩) hlast hK
      · rename_i hlast
        have hset : (s.called i.toNat ⟨data, s.sends⟩).setMsgVal s.current ⟨data, s.sends⟩ =
            .ok (s.sending i.toNat ⟨data, s.sends⟩ k) := setMsgVal_eq hk
        change Post (Bad A D) ((s.called i.toNat ⟨data, s.sends⟩).setMsgVal s.current
          ⟨data, s.sends⟩ >>= _) _
        rw [hset, ok_bind]
        exact psendLoop_called hi hrun hidle hq hk (List.getLast?_eq_none_iff.mp hlast) hd
  · exact .error nofun

def consumed (s : State) (k : Task) : State := s.setTask s.current { k with kont := .iret }

theorem consumed_self : (s.consumed k).tasks (s.consumed k).current =
    some { k with kont := .iret } := setTask_tasks_self

theorem consumed_serving (hr : k.state = .running) : (s.consumed k).Serving :=
  ⟨_, consumed_self, hr, rfl⟩

theorem consumed_blocked {kont' : Kont} : (s.consumed k).blocked h { k with kont := kont' } kont =
    s.blocked h k kont := by
  refine congrArg (fun w : State => (w.move h s.current).setCtl .sched) ?_
  exact setTask_setTask

theorem consume_moves (hk : s.tasks s.current = some k) (hr : k.state = .running)
    (hK : K → ∀ id msg, ¬ k.Holds id msg) : Moves T D K R L B s (s.consumed k) :=
  .single (.talk (.consume hk hr hK))

theorem psendLoop_spec (hi : Inv s) (hm : Mail K s) (hk : s.tasks s.current = some k)
    (hr : k.state = .running) (hkont : k.kont = .psendLoop id msg rst) (hidle : s.current ≠ s.idle)
    (hd : D → s.NoDangling) :
    Post (Bad A D) ((s.consumed k).psendLoop id msg rst mem) (Outcome A T D K R L B s) := by
  have hf := hm.fact _ _ _ ⟨k, hk, by rw [hr]; decide, hkont, rfl⟩
  have hnot (j : Nat) (m : Msg) : ¬ k.Holds j m := by
    rintro (⟨p, rst, he, _⟩ | ⟨p, he⟩) <;> rw [hkont] at he <;> cases he
  have hun := hi.unlinked_current hk hr
  have m {T : Prop} : Moves T D K R L B s (s.consumed k) := consume_moves hk hr fun _ => hnot
  cases hq : (s.consumed k).mqueues id with
  | none =>
    simp only [psendLoop, hq]
    refine pageFault_spec hi m (consumed_serving hr) hidle fun hD => ?_
    exact Effects.noDangling (m.effects (T := False) hi) hD hi (hd hD)
  | some q =>
    rw [psendLoop_eq hq consumed_self]
    split
    · rename_i hfull
      refine .of_eq (interrupted_eq (h := .waitingSenders id) rfl hun consumed_self) ?_
      rw [consumed_blocked, ← hkont]
      exact blocked_msg_outcome rfl
        (.single (.talk (.sendAgain not_false hk hr hkont hidle hq hfull.1 hfull.2)))
    split
    · exact ret_spec m (consumed_serving hr)
    rename_i hrst
    split
    · rename_i hv
      refine psendRet_spec m (consumed_serving hr) (Or.inr ?_)
      exact (hf.2.2.resolve_right fun h => h.2.1 hv).2
    · rename_i hv
      rcases hf.2.1 with hl | hv' | hlt
      · rw [hun] at hl
        cases hl
      · exact absurd hv' hv
      · exact absurd hlt hrst

theorem takeFrom_eq {rest : List Msg} (hlink : s.queues.link last ≠ none)
    (hl : s.tasks last = some l) (hk : s.tasks s.current = some k) (hne : last ≠ s.current)
    (hfull : q.count = q.size) (hd : l.msgVal.data ≠ -1) (hm : q.msgs = msg :: rest) :
    s.takeFrom id p q last = .ok ((s.exchanged id ((q.pop rest).add l.msgVal) msg last l).wentOn k
      (.preceiveRet id p msg) (if l.priority > k.priority then .sched else .resume)) := by
  have htake : takeWith id q l.msgVal = some ⟨msg, (q.pop rest).add l.msgVal, .none,
      [.entered id l.msgVal, .taken id msg], [.add id l.msgVal.data, .pop id]⟩ := by
    unfold takeWith
    rw [if_pos ⟨hfull, hd⟩]
    simp only [hm]
  obtain ⟨w, hw⟩ : ∃ w : State, w = { s.setMqueue id ((q.pop rest).add l.msgVal) with
      trace := [.entered id l.msgVal, .taken id msg] ++ s.trace
      msgCalls := [.add id l.msgVal.data, .pop id] ++ s.msgCalls } := ⟨_, rfl⟩
  have hset : (w.unlink last).setMsgVal last .none =
      .ok ((w.unlink last).setTask last { l with msgVal := .none }) :=
    setMsgVal_eq (by rw [hw]; exact hl)
  have hcur : ((w.unlink last).setTask last { l with msgVal := .none }).tasks
      ((w.unlink last).setTask last { l with msgVal := .none }).current = some k := by
    rw [hw]
    exact (setTask_tasks_of_ne (Ne.symm hne)).trans hk
  unfold takeFrom
  rw [queueDel_eq hlink, ok_bind, task_ok (s := s.unlink last) hl, ok_bind]
  rw [if_neg fun h => h.1 rfl]
  simp only [htake]
  have hstate : ({ (s.unlink last).setMqueue id ((q.pop rest).add l.msgVal) with
      trace := [.entered id l.msgVal, .taken id msg] ++ (s.unlink last).trace
      msgCalls := [.add id l.msgVal.data, .pop id] ++ (s.unlink last).msgCalls } : State) =
      w.unlink last := by
    rw [hw]
    rfl
  rw [hstate, hset, ok_bind]
  refine (setTaskReadyOrRunning_eq (l := { l with msgVal := .none }) Links.link_erase_self
    setTask_tasks_self hcur (by rw [hw]; exact hne)).trans ?_
  rw [woken_unlink, hw]
  rfl

def receiveFrom (id : Nat) (p : UserPtr) (q : MQueue) (s : State) (mem : Bool := true) :
    Except Fault State :=
  match s.queueTop (.waitingSenders id) with
  | some last => s.takeFrom id p q last mem
  | none =>
    match q.msgs with
    | [] => s.pageFault
    | msg :: rest => ((s.popMsg id q rest).observe (.taken id msg)).preceiveRet id p msg

theorem preceiveLoop_eq (hq : s.mqueues id = some q) (hk : s.tasks s.current = some k) :
    s.preceiveLoop id p rst mem = if q.count = 0 ∧ k.msgVal.data = -1 then (do
      let s ← s.queueAdd s.current (.waitingReceivers id)
      s.setTaskInterruptedMsg s.current (.preceiveLoop id p rst))
    else if rst < s.cptRst then (s.observeLost id k.msgVal).ret (-1)
    else if k.msgVal.data ≠ -1 then (do
      let s ← s.setMsgVal s.current .none
      s.preceiveRet id p k.msgVal)
    else s.receiveFrom id p q mem := by
  unfold preceiveLoop receiveFrom
  simp only [hq]
  rw [task_ok hk]
  rfl

theorem receiveFrom_spec (hi₀ : Inv s₀) (hm : Mail K s) (m : Moves T D K R L B s₀ s) (hrun : s.Serving)
    (hq : s.mqueues id = some q) (hne : q.count ≠ 0) (hidle : s.current ≠ s.idle)
    (hd : D → s₀.NoDangling) (hp : K → p.Good) (hL : ¬ L)
    (hmem : mem = false → s.queues.members (.waitingSenders id) = []) :
    Post (Bad A D) (s.receiveFrom id p q mem) (Outcome A T D K R L B s₀) := by
  have hi := m.inv hi₀
  obtain ⟨hcount, _, _⟩ := hm.books.counted id q hq
  obtain ⟨k, hk, hr, hkont⟩ := hrun
  unfold receiveFrom
  cases hmsgs : q.msgs with
  | nil =>
    rw [hmsgs] at hcount
    exact absurd hcount hne
  | cons msg rest =>
    split
    · rename_i last htop
      obtain ⟨l, hl, _, hnl⟩ := hi.waiting (queueTop_mem htop) rfl hk hr
      have hlast := Links.link_of_mem (queueTop_mem htop)
      obtain ⟨_, _, _, hdata, _⟩ := hm.sender hlast hl
      have hfull := hm.senders last id q hlast hq
      obtain rfl : mem = true := by
        cases mem with
        | true => rfl
        | false =>
          have hin := queueTop_mem htop
          rw [hmem rfl] at hin
          cases hin
      refine .of_eq (takeFrom_eq (by rw [hlast]; simp) hl hk hnl hfull hdata hmsgs) ?_
      have hlow (hT : T ∧ (if l.priority > k.priority then Ctl.sched else .resume) ≠ .sched) :
          l.priority ≤ k.priority := by
        by_contra hlt
        exact hT.2 (if_pos (not_le.mp hlt))
      refine wentOn_outcome ((m.mono And.left).tail (.talk ?_)) hr (by split <;> nofun)
      exact .exchange hk hr hkont hidle hq hfull hmsgs htop hl hlow hp hL
    · rename_i htop
      have hnone : s.queues.members (.waitingSenders id) = [] := List.getLast?_eq_none_iff.mp htop
      have hserve : ((s.popMsg id q rest).observe (.taken id msg)).Serving := ⟨k, hk, hr, hkont⟩
      have ok : Post (Bad A D)
          ((((s.popMsg id q rest).observe (.taken id msg)).observe (.received id msg)).ret 0)
          (Outcome A T D K R L B s₀) :=
        ret_spec (m.tail (.talk (.take hq hmsgs hnone hL))) ⟨k, hk, hr, hkont⟩
      cases p with
      | null => exact ok
      | mapped => exact ok
      | unmapped =>
        have hK : ¬ K := fun hK => by rcases hp hK with h | h <;> cases h
        have m' := (m.mono False.elim).tail (.talk (.spill hK hq hmsgs hnone hL))
        exact pageFault_spec hi₀ m' hserve hidle (noDangling_of_moves m' hi₀ hd)
      | kernel => exact .error nofun

/-- There is a message in the queue, and somebody waits to send another. -/
def PopsForSender (s : State) (id : Nat) : Prop :=
  ∃ q, s.mqueues id = some q ∧ q.count ≠ 0 ∧ s.queues.members (.waitingSenders id) ≠ []

theorem preceive_spec {i : Int} (hi : Inv s) (hm : Mail K s) (hrun : s.Serving)
    (hidle : s.current ≠ s.idle) (hd : D → s.NoDangling) (hp : K → p.Good)
    (hL : L → ∀ q, s.mqueues i.toNat = some q → q.count = 0)
    (hmem : mem = false → ¬ s.PopsForSender i.toNat) :
    Post (Bad A D) (s.preceive i p mem) (Outcome A T D K R L B s) := by
  obtain ⟨k, hk, _⟩ := hi.current
  obtain ⟨hr, hkont, _⟩ := hrun.calm 0 .none hk
  unfold preceive mqueue
  split
  · rw [ok_bind]
    split
    · exact ret_spec .refl hrun
    · rename_i q hq
      obtain ⟨w, hw⟩ : ∃ w, w = s.setTask s.current { k with msgVal := .none } := ⟨_, rfl⟩
      have hself : w.tasks w.current = some { k with msgVal := .none } := by
        rw [hw]
        exact setTask_tasks_self
      have hq' : w.mqueues i.toNat = some q := by rw [hw]; exact hq
      have m {T : Prop} : Moves T D K R L B s w := by
        rw [hw]
        refine .single (.plain (.quiet (.same (SameLists.own (n := k.kont) hk (Or.inl rfl))
          fun _ => ⟨rfl, rfl, rfl, rfl, ⟨[], rfl, by simp⟩, fun l hl => ?_⟩)))
        rw [hk] at hl
        cases hl
        exact ⟨_, setTask_tasks_self, Or.inr ⟨by rw [hkont]; trivial, by rw [hkont]; trivial⟩⟩
      have hserve : w.Serving := ⟨_, hself, hr, hkont⟩
      have hidle' : w.current ≠ w.idle := by rw [hw]; exact hidle
      have hun : w.queues.link w.current = none := by rw [hw]; exact hi.unlinked_current hk hr
      rw [setMsgVal_eq hk, ok_bind, ← hw, preceiveLoop_eq hq' hself]
      split
      · rename_i hempty
        refine .of_eq (interrupted_eq (h := .waitingReceivers i.toNat) rfl hun hself) ?_
        refine blocked_msg_outcome rfl (m.tail (.talk ?_))
        exact .receiveBlock (k := { k with msgVal := .none }) (v := .none) not_false hself hr hidle' hq'
          hempty.1 rfl (Nat.le_refl _) hp fun _ id msg => (hserve.calm id msg hself).2.2
      rename_i hempty
      rw [if_neg (Nat.lt_irrefl _)]
      rw [if_neg (show ¬ ({ k with msgVal := .none } : Task).msgVal.data ≠ -1 from not_not.mpr rfl)]
      refine receiveFrom_spec hi (m.mail (T := T) hi hm) m hserve hq' (fun h => hempty ⟨h, rfl⟩) hidle'
        hd hp (fun h => hempty ⟨hL h q hq, rfl⟩) fun hno => ?_
      by_contra hne
      refine hmem hno ⟨q, hq, fun h => hempty ⟨h, rfl⟩, ?_⟩
      rwa [hw] at hne
  · exact .error nofun

theorem preceiveRet_spec (hi : Inv s) (hk : s.tasks s.current = some k) (hr : k.state = .running)
    (hh : k.Holds id msg) (hidle : s.current ≠ s.idle) (hd : D → s.NoDangling) (hp : K → p.Good) :
    Post (Bad A D) ((s.setTask s.current { k with kont := .iret, msgVal := v }).preceiveRet id p msg)
      (Outcome A T D K R L B s) := by
  have hself : (s.setTask s.current { k with kont := .iret, msgVal := v }).tasks s.current =
      some { k with kont := .iret, msgVal := v } := setTask_tasks_self
  have ok : Post (Bad A D) (((s.setTask s.current { k with kont := .iret, msgVal := v }).observe
      (.received id msg)).ret 0) (Outcome A T D K R L B s) :=
    ret_spec (.single (.talk (.received hk hr hh))) ⟨_, hself, hr, rfl⟩
  cases p with
  | null => exact ok
  | mapped => exact ok
  | unmapped =>
    have hK : ¬ K := fun hK => by rcases hp hK with h | h <;> cases h
    have m : Moves False D K R L B s (s.setTask s.current { k with kont := .iret, msgVal := v }) := by
      have hset : (s.consumed k).setTask s.current { k with kont := .iret, msgVal := v } =
          s.setTask s.current { k with kont := .iret, msgVal := v } := setTask_setTask
      rw [← hset]
      refine (consume_moves hk hr (absurd · hK)).tail (.plain (.quiet (.same
        (SameLists.own (k := { k with kont := .iret }) (n := .iret) consumed_self (Or.inl rfl)) fun _ =>
          ⟨rfl, rfl, rfl, rfl, ⟨[], rfl, by simp⟩, fun l hl => ?_⟩)))
      rw [consumed_self] at hl
      cases hl
      exact ⟨_, setTask_tasks_self, Or.inr ⟨trivial, trivial⟩⟩
    exact pageFault_spec hi m ⟨_, hself, hr, rfl⟩ hidle (noDangling_of_moves m hi hd)
  | kernel => exact .error nofun

theorem preceiveLoop_spec (hi : Inv s) (hm : Mail K s) (hk : s.tasks s.current = some k)
    (hr : k.state = .running) (hkont : k.kont = .preceiveLoop id p rst) (hidle : s.current ≠ s.idle)
    (hd : D → s.NoDangling)
    (hL : L → ∀ q, s.mqueues id = some q → k.msgVal.data = -1 → ¬ rst < s.cptRst → q.count = 0)
    (hmem : mem = false → k.msgVal.data = -1 → ¬ rst < s.cptRst → ¬ s.PopsForSender id) :
    Post (Bad A D) ((s.consumed k).preceiveLoop id p rst mem) (Outcome A T D K R L B s) := by
  obtain ⟨hrst, hp, _⟩ := hm.fact _ _ _ ⟨k, hk, by rw [hr]; decide, hkont, rfl⟩
  have hun := hi.unlinked_current hk hr
  have lost {T : Prop} (hdata : k.msgVal.data ≠ -1) (hl : rst < s.cptRst ∨ s.mqueues id = none) :
      Moves T D K R L B s ((s.consumed k).observe (.dropped id k.msgVal)) :=
    .single (.talk (.lost hk hr hkont hdata hl))
  have calm {T : Prop} (hdata : k.msgVal.data = -1) : Moves T D K R L B s (s.consumed k) := by
    refine consume_moves hk hr fun _ j m => ?_
    rintro (⟨p', rst', _, hv, hn⟩ | ⟨p', he⟩)
    · exact hn (hv ▸ hdata)
    · rw [hkont] at he
      cases he
  have gone {T : Prop} (hl : rst < s.cptRst ∨ s.mqueues id = none) :
      Moves T D K R L B s ((s.consumed k).observeLost id k.msgVal) := by
    unfold observeLost
    split
    · rename_i hdata
      exact calm hdata
    · rename_i hdata
      exact lost hdata hl
  have hserve : ((s.consumed k).observeLost id k.msgVal).Serving := by
    unfold observeLost
    split <;> exact ⟨_, setTask_tasks_self, hr, rfl⟩
  have hsame : ((s.consumed k).observeLost id k.msgVal).current = s.current ∧
      ((s.consumed k).observeLost id k.msgVal).idle = s.idle := by
    unfold observeLost
    split <;> exact ⟨rfl, rfl⟩
  cases hq : (s.consumed k).mqueues id with
  | none =>
    have hloop : (s.consumed k).preceiveLoop id p rst mem =
        ((s.consumed k).observeLost id k.msgVal).pageFault := by
      unfold preceiveLoop
      rw [task_ok consumed_self, ok_bind]
      simp only [hq]
    rw [hloop]
    have m : Moves False D K R L B s ((s.consumed k).observeLost id k.msgVal) := gone (Or.inr hq)
    exact pageFault_spec hi m hserve (by rw [hsame.1, hsame.2]; exact hidle)
      (noDangling_of_moves m hi hd)
  | some q =>
    rw [preceiveLoop_eq hq consumed_self]
    split
    · rename_i hempty
      refine .of_eq (interrupted_eq (h := .waitingReceivers id) rfl hun consumed_self) ?_
      rw [consumed_blocked]
      refine blocked_msg_outcome rfl (.single (.talk ?_))
      refine .receiveBlock (v := k.msgVal) not_false hk hr hidle hq hempty.1 hempty.2 hrst hp ?_
      rintro _ j m (⟨p', rst', _, hv, hn⟩ | ⟨p', he⟩)
      · exact hn (hv ▸ hempty.2)
      · rw [hkont] at he
        cases he
    rename_i hempty
    split
    · rename_i hlt
      exact ret_spec (gone (Or.inl hlt)) hserve
    rename_i hrst'
    split
    · rename_i hdata
      rw [setMsgVal_eq consumed_self, ok_bind]
      have hset : (s.consumed k).setTask (s.consumed k).current
          { ({ k with kont := .iret } : Task) with msgVal := .none } =
          s.setTask s.current { k with kont := .iret, msgVal := .none } := setTask_setTask
      rw [hset]
      exact preceiveRet_spec hi hk hr (Or.inl ⟨p, rst, hkont, rfl, hdata⟩) hidle hd hp
    · rename_i hdata
      have hdata : k.msgVal.data = -1 := not_not.mp hdata
      refine receiveFrom_spec hi ((calm (T := T) hdata).mail hi hm) (calm hdata)
        (consumed_serving hr) hq (fun h => hempty ⟨h, hdata⟩) hidle hd hp
        (fun h => hempty ⟨hL h q hq hdata hrst', hdata⟩) fun hno => ?_
      by_contra hne
      exact hmem hno hdata hrst' ⟨q, hq, fun h => hempty ⟨h, hdata⟩, hne⟩

end State
end DominOS.Process
