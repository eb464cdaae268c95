import DominOS.ProcessOrder
import DominOS.ProcessQueueRuns

/-! Whom `schedule`, `psend` and `preceive` pick from the lists. -/
namespace DominOS.Process
open IntrusiveLists Fallible Relation Runs

/-- Nobody is taken out of a list of waiting tasks, unless by a `psend` or a `preceive`. -/
def Event.Peaceful : Event → Prop
  | .call (.kill _) | .call (.pdelete _) | .call (.preset _) => False
  | _ => True

def QueueAct.Peaceful : QueueAct → Prop
  | .die _ | .pdelete _ | .preset _ => False
  | _ => True

namespace QueueView
variable {v w : QueueView} {t u : TaskPtr} {a : QueueAct}

def Picked (v w : QueueView) : Prop :=
  (∀ u ∈ v.senders, u ∈ w.senders ∨ v.senders.getLast? = some u) ∧
    ∀ u ∈ v.receivers, u ∈ w.receivers ∨ v.receivers.getLast? = some u

theorem Picked.of_eq (hs : w.senders = v.senders) (hr : w.receivers = v.receivers) : v.Picked w :=
  ⟨fun _ hu => Or.inl (hs ▸ hu), fun _ hu => Or.inl (hr ▸ hu)⟩

theorem mem_erase_or {l : List TaskPtr} (hu : u ∈ l) : u ∈ l.erase t ∨ u = t := by
  by_cases hut : u = t
  · exact Or.inr hut
  · exact Or.inl ((List.mem_erase_of_ne hut).mpr hu)

theorem mem_orderedInsert_erase {l : List TaskPtr} (hu : u ∈ l) :
    u ∈ (l.erase t).orderedInsert v.before t := by
  rw [List.mem_orderedInsert]
  exact (mem_erase_or hu).symm

theorem picked_joinSenders : v.Picked (v.joinSenders t) := by
  refine ⟨fun u hu => Or.inl ?_, fun u hu => Or.inl hu⟩
  change u ∈ (v.senders.erase t).orderedInsert v.before t
  exact mem_orderedInsert_erase hu

theorem picked_joinReceivers : v.Picked (v.joinReceivers t) := by
  refine ⟨fun u hu => Or.inl hu, fun u hu => Or.inl ?_⟩
  change u ∈ (v.receivers.erase t).orderedInsert v.before t
  exact mem_orderedInsert_erase hu

theorem Picked.drop_sender (hd : v.senders.Disjoint v.receivers) (ht : v.senders.getLast? = some t) :
    v.Picked (v.drop t) := by
  refine ⟨fun u hu => (mem_erase_or hu).imp_right fun (he : u = t) => he ▸ ht, fun u hu => Or.inl ?_⟩
  refine (List.mem_erase_of_ne fun he => ?_).mpr hu
  exact hd (List.mem_of_getLast? ht) (he ▸ hu)

theorem Picked.drop_receiver (hd : v.senders.Disjoint v.receivers)
    (ht : v.receivers.getLast? = some t) : v.Picked (v.drop t) := by
  refine ⟨fun u hu => Or.inl ?_, fun u hu => (mem_erase_or hu).imp_right fun (he : u = t) => he ▸ ht⟩
  refine (List.mem_erase_of_ne fun he => ?_).mpr hu
  exact hd (he ▸ hu) (List.mem_of_getLast? ht)

theorem receiveRet_view {message : UserPtr} {msg : Int} : (v.receiveRet t message msg).1 = v := by
  cases message <;> rfl

theorem picked_sendLoop {p val msg : Int} {live : Bool} : v.Picked (v.sendLoop t p val msg live).1 := by
  unfold sendLoop
  repeat' split
  case h_2.isTrue => exact picked_joinSenders (v := v.put t _)
  all_goals exact .of_eq rfl rfl

theorem picked_takeFirst {message : UserPtr} {size : Nat} {msg : Int} {rest : List Int}
    (hd : v.senders.Disjoint v.receivers) : v.Picked (v.takeFirst t message size msg rest).1 := by
  unfold takeFirst
  split
  · rw [receiveRet_view]
    exact .of_eq rfl rfl
  · rename_i u hu
    exact Picked.drop_sender hd hu

theorem picked_receiveLoop {p val : Int} {message : UserPtr} {live : Bool}
    (hd : v.senders.Disjoint v.receivers) : v.Picked (v.receiveLoop t p val message live).1 := by
  unfold receiveLoop
  split
  · exact .of_eq rfl rfl
  split
  · exact picked_joinReceivers (v := v.put t _)
  split
  · exact .of_eq rfl rfl
  split
  · rw [receiveRet_view]
    exact .of_eq rfl rfl
  split
  · exact .of_eq rfl rfl
  · exact picked_takeFirst hd

theorem picked_chprio {p : Int} : v.Picked (v.chprio t p) := by
  unfold chprio
  simp only
  split
  · exact picked_joinSenders (v := v.put t _)
  split
  · exact picked_joinReceivers (v := v.put t _)
  · exact .of_eq rfl rfl

theorem picked_step (hd : v.senders.Disjoint v.receivers) (ha : a.Peaceful) : v.Picked (step a v).1 := by
  cases a with
  | psend t p data =>
    change v.Picked (v.psend t p data).1
    unfold QueueView.psend
    split
    · exact .of_eq rfl rfl
    split
    · rename_i u hu
      exact Picked.drop_receiver hd hu
    · exact picked_sendLoop
  | preceive t p message =>
    change v.Picked (v.preceive t p message).1
    unfold QueueView.preceive
    split
    · exact .of_eq rfl rfl
    · exact picked_receiveLoop hd
  | resume t =>
    change v.Picked (v.resume t).1
    unfold QueueView.resume
    split
    · exact .of_eq rfl rfl
    · exact picked_sendLoop (v := v.put t none)
    · exact .of_eq rfl rfl
    · exact picked_receiveLoop (v := v.put t none) hd
    · rw [receiveRet_view]
      exact .of_eq rfl rfl
  | chprio t p => exact picked_chprio
  | pcreate size => exact .of_eq rfl rfl
  | outdate => exact .of_eq rfl rfl
  | die t => exact ha.elim
  | pdelete t => exact ha.elim
  | preset t => exact ha.elim

end QueueView

namespace State
variable {s s' : State} {t u : TaskPtr} {k l : Task} {h : Head} {e : Event} {id : Nat} {mem : Bool}

theorem senders_disjoint : (s.view id).senders.Disjoint (s.view id).receivers := by
  intro u hs hr
  have hlink := Links.link_of_mem hs
  rw [Links.link_of_mem hr] at hlink
  cases hlink

theorem act_peaceful {a : QueueAct} (he : e.Peaceful) (ha : s.act id e = some a) : a.Peaceful := by
  unfold act at ha
  split at ha
  · rename_i c hu
    unfold callAct at ha
    split at ha
    · split at ha <;> cases ha
      trivial
    · split at ha <;> cases ha
      trivial
    · exact he.elim
    · exact he.elim
    · split at ha <;> cases ha
      trivial
    · split at ha
      · split at ha <;> cases ha
        trivial
      · cases ha
    · exact he.elim
    · cases ha
  · split at ha <;> cases ha
    trivial
  · cases ha

theorem step_picked (hs : Sound False False False s) (ha : s.IdleStarts e) (he : e.Peaceful)
    (hr : step e s = .ok s') : (s.view id).Picked (s'.view id) := by
  have hshow : (s'.view id, s.results id e s') = Unwinding.Window.replay QueueView.step
      (s.act id e).toList (s.view id) := step_shows hs ha hr
  have hv := congrArg Prod.fst hshow
  cases hact : s.act id e with
  | none =>
    rw [hact] at hv
    rw [show s'.view id = s.view id from hv]
    exact .of_eq rfl rfl
  | some a =>
    rw [hact] at hv
    rw [show s'.view id = (QueueView.step a (s.view id)).1 from hv]
    exact QueueView.picked_step senders_disjoint (act_peaceful he hact)

theorem psendLoop_refused {msg : Msg} {rst : Nat} :
    s.psendLoop id msg rst false = s.psendLoop id msg rst ∨
      s.psendLoop id msg rst false = s.pageFault := by
  cases hq : s.mqueues id with
  | none =>
    left
    unfold psendLoop
    simp only [hq]
  | some q =>
    cases hk : s.tasks s.current with
    | none =>
      left
      unfold psendLoop State.task
      simp only [hq, hk]
      rfl
    | some k =>
      rw [psendLoop_eq hq hk, psendLoop_eq hq hk]
      split
      · exact Or.inl rfl
      split
      · exact Or.inl rfl
      split
      · exact Or.inl rfl
      split
      · exact Or.inr (psendAdd_refused hq)
      · exact Or.inl rfl

theorem preceiveLoop_refused {p : UserPtr} {rst : Nat} (hk : s.tasks s.current = some k)
    (h : k.msgVal.data = -1 → ¬ rst < s.cptRst → ¬ s.PopsForSender id) :
    s.preceiveLoop id p rst false = s.preceiveLoop id p rst := by
  cases hq : s.mqueues id with
  | none =>
    unfold preceiveLoop
    simp only [hq]
  | some q =>
    rw [preceiveLoop_eq hq hk, preceiveLoop_eq hq hk]
    split
    · rfl
    rename_i hempty
    split
    · rfl
    rename_i hrst
    split
    · rfl
    rename_i hdata
    have hdata : k.msgVal.data = -1 := not_not.mp hdata
    have hcount : q.count ≠ 0 := fun h0 => hempty ⟨h0, hdata⟩
    unfold receiveFrom
    split
    · rename_i last htop
      exact absurd ⟨q, hq, hcount, List.ne_nil_of_mem (queueTop_mem htop)⟩ (h hdata hrst)
    · rfl

theorem psend_served {i data : Int} {q : MQueue} {last : TaskPtr} (hq : s.mqueue i = .ok (some q))
    (htop : s.queueTop (.waitingReceivers i.toNat) = some last) :
    s.psend i data mem = (s.called i.toNat ⟨data, s.sends⟩).handOver i.toNat ⟨data, s.sends⟩ last := by
  have htop' : (s.called i.toNat ⟨data, s.sends⟩).queueTop (.waitingReceivers i.toNat) = some last :=
    htop
  unfold psend
  rw [hq, ok_bind]
  simp only [htop']

theorem psend_alone {i data : Int} {q : MQueue} (hq : s.mqueue i = .ok (some q))
    (hk : s.tasks s.current = some k) (htop : s.queueTop (.waitingReceivers i.toNat) = none) :
    s.psend i data mem = (s.sending i.toNat ⟨data, s.sends⟩ k).psendLoop i.toNat ⟨data, s.sends⟩
      s.cptRst mem := by
  have htop' : (s.called i.toNat ⟨data, s.sends⟩).queueTop (.waitingReceivers i.toNat) = none := htop
  have hset : (s.called i.toNat ⟨data, s.sends⟩).setMsgVal (s.called i.toNat ⟨data, s.sends⟩).current
      ⟨data, s.sends⟩ = .ok (s.sending i.toNat ⟨data, s.sends⟩ k) := setMsgVal_eq hk
  unfold psend
  rw [hq, ok_bind]
  simp only [htop']
  rw [hset, ok_bind]
  rfl

/-- The caller is killed by a page fault, in a state with the lists of `s`. -/
def Faults (s : State) (x : Except Fault State) : Prop :=
  ∃ w : State, x = w.pageFault ∧ Inv w ∧ w.Serving ∧ w.current ≠ w.idle ∧ w.queues = s.queues

theorem Faults.same {x : Except Fault State} (h : s.Faults x) (hr : x = .ok s') :
    (s'.view id).senders = (s.view id).senders ∧ (s'.view id).receivers = (s.view id).receivers := by
  obtain ⟨w, rfl, hi, hserve, hidle, hq⟩ := h
  have hv : s'.view id = w.view id := ((pageFault_looks hi hserve hidle).elim hr).1
  rw [hv]
  unfold view
  rw [hq]
  exact ⟨rfl, rfl⟩

theorem psend_refused {i data : Int} (hi : Inv s) (hr : s.Serving) (hidle : s.current ≠ s.idle) :
    s.psend i data false = s.psend i data ∨ s.Faults (s.psend i data false) := by
  obtain ⟨k, hk, hrun, hkont⟩ := hr
  cases hq : s.mqueue i with
  | error x =>
    left
    unfold psend
    rw [hq]
    rfl
  | ok o =>
    cases o with
    | none =>
      left
      unfold psend
      rw [hq]
      rfl
    | some q =>
      cases htop : s.queueTop (.waitingReceivers i.toNat) with
      | some last =>
        left
        rw [psend_served hq htop, psend_served hq htop]
      | none =>
        rw [psend_alone hq hk htop, psend_alone hq hk htop]
        refine psendLoop_refused.imp_right fun h => ⟨_, h, sending_inv hi hk, ?_, hidle, rfl⟩
        exact ⟨_, sending_self, hrun, hkont⟩

theorem preceive_refused {i : Int} {p : UserPtr} (hg : ¬ s.PopsForSender i.toNat) :
    s.preceive i p false = s.preceive i p := by
  unfold preceive
  cases hq : s.mqueue i with
  | error x => rfl
  | ok o =>
    cases o with
    | none => rfl
    | some q =>
      rw [ok_bind]
      simp only
      cases hk : s.tasks s.current with
      | none =>
        unfold setMsgVal State.task
        rw [hk]
        rfl
      | some k =>
        rw [setMsgVal_eq hk, ok_bind, ok_bind]
        exact preceiveLoop_refused setTask_tasks_self fun _ _ => hg

theorem resume_refused (hs : Sound False False False s) (hc : s.ctl = .resume)
    (hg : ¬ s.LetsIn .kernel) : s.resume false = s.resume ∨ s.Faults (s.resume false) := by
  obtain ⟨k, hk, hr⟩ := hs.running (by rw [hc]; decide)
  have hok := hs.inv.konts _ k hk (by rw [hr]; decide)
  have hres (mem : Bool) : s.resume mem = (s.consumed k).resumeAt k.kont mem := by
    unfold resume
    rw [task_ok hk, ok_bind]
    rfl
  rw [hres, hres]
  cases hkont : k.kont with
  | psendLoop j msg rst =>
    have hidle : s.current ≠ s.idle := hok.busy (by simp [hkont]) (by simp [hkont])
    refine (psendLoop_refused (s := s.consumed k)).imp_right fun h => ⟨_, h, ?_⟩
    exact ⟨(consumed_sound hs hk hr).1, consumed_serving hr, hidle, rfl⟩
  | psendAdd j msg =>
    have hf := hs.mail.fact _ _ _ ⟨k, hk, by rw [hr]; decide, hkont, rfl⟩
    exact hf.elim
  | preceiveLoop j p rst =>
    refine Or.inl (preceiveLoop_refused consumed_self fun hdata hrst hpop => hg ⟨hc, k, hk, ?_⟩)
    unfold ResumesForSender
    rw [hkont]
    exact ⟨hdata, hrst, hpop⟩
  | _ => exact Or.inl rfl

theorem step_refused (hs : Sound False False False s) (ha : s.IdleStarts e) (he : e.Peaceful)
    (hg : ¬ s.LetsIn e) : stepWith false e s = step e s ∨ s.Faults (stepWith false e s) := by
  unfold step stepWith
  split
  · exact Or.inl rfl
  · rename_i c hu
    have hserve := hs.serving hu
    cases c with
    | pcreate count =>
      change s.pcreate count false = s.pcreate count ∨ s.Faults (s.pcreate count false)
      unfold pcreate
      split
      · exact Or.inl rfl
      split
      · exact Or.inl rfl
      split
      · exact Or.inl rfl
      · exact Or.inr ⟨s, rfl, hs.inv, hserve, ha, rfl⟩
    | psend i data => exact psend_refused hs.inv hserve ha
    | preceive i p => exact Or.inl (preceive_refused hg)
    | preset i => exact he.elim
    | _ => exact Or.inl rfl
  · exact Or.inl rfl
  · rename_i hc
    exact resume_refused hs hc hg
  · exact Or.inl rfl

/-- In no step but `kill`, `pdelete` and `preset` is anybody taken from a list of waiting tasks who
is not the last of it. -/
theorem stepWith_picked (hs : Sound False False False s) (ha : s.IdleStarts e) (he : e.Peaceful)
    (hg : s.Granted e mem) (hr : stepWith mem e s = .ok s') : (s.view id).Picked (s'.view id) := by
  cases mem with
  | true => exact step_picked hs ha he hr
  | false =>
    rcases step_refused hs ha he (hg rfl) with h | h
    · rw [h] at hr
      exact step_picked hs ha he hr
    · obtain ⟨h1, h2⟩ := h.same hr
      exact .of_eq h1 h2

/-- A `psend` that finds receivers, or a `preceive` that finds a message and senders, picks one of
the list `h`. -/
def Wakes (s : State) (h : Head) : Event → Prop
  | .call (.psend i _) => s.ctl = .user ∧ h = .waitingReceivers i.toNat ∧ ∃ q, s.mqueue i = .ok (some q)
  | .call (.preceive i _) => s.ctl = .user ∧ h = .waitingSenders i.toNat ∧ s.PopsForSender i.toNat ∧
      ∃ q, s.mqueue i = .ok (some q)
  | .kernel => s.ctl = .resume ∧ ∃ k ∈ s.tasks s.current, s.ResumesForSender k ∧
      ∃ id p rst, k.kont = .preceiveLoop id p rst ∧ h = .waitingSenders id
  | _ => False

/-- `t` gets ready, and nobody else is moved. -/
structure Readied (s s' : State) (t : TaskPtr) : Prop where
  ready : s'.queues.link t = some .ready
  others : ∀ u, u ≠ t → s'.queues.link u = s.queues.link u

theorem readied_woken {w : State} {c : Ctl} {kont : Kont} (hw : w.queues = s.queues) :
    s.Readied ((w.woken t l).wentOn k kont c) t := by
  refine ⟨move_link_self, fun u hu => ?_⟩
  rw [← hw]
  exact Links.link_move_of_ne hu

theorem psend_readies {i data : Int} {q : MQueue} (hi : Inv s) (hr : s.Serving)
    (hq : s.mqueue i = .ok (some q)) (ht : s.queueTop (.waitingReceivers i.toNat) = some t) :
    ∃ s', s.psend i data mem = .ok s' ∧ s.Readied s' t := by
  obtain ⟨k, hk, hrun, _⟩ := hr
  obtain ⟨l, hl, _, hne⟩ := hi.waiting (queueTop_mem ht) rfl hk hrun
  have hlink : s.queues.link t ≠ none := by
    rw [Links.link_of_mem (queueTop_mem ht)]
    nofun
  rw [psend_served hq ht]
  refine ⟨_, handOver_eq hl hk hne hlink, ?_⟩
  unfold handed
  exact readied_woken (by simp only [observe, called])

theorem receiveFrom_readies {p : UserPtr} {q : MQueue} (hi : Inv s) (hm : Mail False s) (hr : s.Serving)
    (hq : s.mqueues id = some q) (hne : q.count ≠ 0)
    (ht : s.queueTop (.waitingSenders id) = some t) :
    ∃ s', s.receiveFrom id p q = .ok s' ∧ s.Readied s' t := by
  obtain ⟨k, hk, hrun, _⟩ := hr
  obtain ⟨l, hl, _, hnl⟩ := hi.waiting (queueTop_mem ht) rfl hk hrun
  have hlast := Links.link_of_mem (queueTop_mem ht)
  obtain ⟨_, _, _, hdata, _⟩ := hm.sender hlast hl
  have hfull := hm.senders t id q hlast hq
  obtain ⟨hcount, _, _⟩ := hm.books.counted id q hq
  cases hmsgs : q.msgs with
  | nil =>
    rw [hmsgs] at hcount
    exact absurd hcount hne
  | cons msg rest =>
    have htake : s.takeFrom id p q t = _ :=
      takeFrom_eq (by rw [hlast]; nofun) hl hk hnl hfull hdata hmsgs
    unfold receiveFrom
    rw [ht]
    refine ⟨_, htake, ?_⟩
    unfold exchanged
    exact readied_woken (by simp only [observe, asked, setMqueue])

theorem preceive_readies {i : Int} {p : UserPtr} {q : MQueue} (hi : Inv s) (hm : Mail False s)
    (hr : s.Serving) (hq : s.mqueue i = .ok (some q)) (hpop : s.PopsForSender i.toNat)
    (ht : s.queueTop (.waitingSenders i.toNat) = some t) :
    ∃ s', s.preceive i p = .ok s' ∧ s.Readied s' t := by
  obtain ⟨k, hk, hserve⟩ := hr
  obtain ⟨q', hq', hcount, _⟩ := hpop
  obtain ⟨hi', hm', hr', _⟩ := cleared i.toNat hi hm ⟨k, hk, hserve⟩ hk
  obtain ⟨w, hw⟩ : ∃ w, w = s.setTask s.current { k with msgVal := .none } := ⟨_, rfl⟩
  have hself : w.tasks w.current = some { k with msgVal := .none } := by
    rw [hw]
    exact setTask_tasks_self
  have hwq : w.mqueues i.toNat = some q' := by rw [hw]; exact hq'
  have hloop : s.preceive i p = w.preceiveLoop i.toNat p s.cptRst := by
    unfold preceive
    rw [hq, ok_bind, hw]
    simp only
    rw [setMsgVal_eq hk, ok_bind]
    rfl
  have hlive : ¬ s.cptRst < w.cptRst := by
    rw [hw]
    exact lt_irrefl _
  rw [hloop, preceiveLoop_eq hwq hself, if_neg fun h => hcount h.1, if_neg hlive,
    if_neg fun h => h rfl]
  rw [← hw] at hi' hm' hr'
  have hsame : w.queues = s.queues := by rw [hw]; rfl
  have ht' : w.queueTop (.waitingSenders i.toNat) = some t := by
    unfold queueTop
    rw [hsame]
    exact ht
  obtain ⟨s', hs', hready⟩ := receiveFrom_readies (p := p) hi' hm' hr' hwq hcount ht'
  exact ⟨s', hs', hready.ready, fun u hu => by rw [hready.others u hu, hsame]⟩

theorem resume_readies {p : UserPtr} {rst : Nat} (hs : Sound False False False s)
    (hc : s.ctl = .resume) (hk : s.tasks s.current = some k) (hkont : k.kont = .preceiveLoop id p rst)
    (hdata : k.msgVal.data = -1) (hrst : ¬ rst < s.cptRst) (hpop : s.PopsForSender id)
    (ht : s.queueTop (.waitingSenders id) = some t) :
    ∃ s', s.resume = .ok s' ∧ s.Readied s' t := by
  obtain ⟨c, hcur, hr⟩ := hs.running (by rw [hc]; decide)
  rw [hk] at hcur
  cases hcur
  obtain ⟨hi', hm'⟩ := consumed_sound hs hk hr
  obtain ⟨q, hq, hcount, _⟩ := hpop
  have hres : s.resume = (s.consumed k).preceiveLoop id p rst := by
    unfold resume
    rw [task_ok hk, ok_bind, hkont]
    rfl
  have hq' : (s.consumed k).mqueues id = some q := hq
  rw [hres, preceiveLoop_eq hq' consumed_self, if_neg fun h => hcount h.1]
  change ∃ s', (if rst < s.cptRst then _ else if k.msgVal.data ≠ -1 then _ else _) = _ ∧ _
  rw [if_neg hrst, if_neg fun h => h hdata]
  obtain ⟨s', hs', hready⟩ := receiveFrom_readies (p := p) hi' hm' (consumed_serving hr) hq' hcount ht
  exact ⟨s', hs', hready.ready, hready.others⟩

theorem wakes_readies (hs : Sound False False False s) (ha : s.IdleStarts e) (hv : s.Wakes h e)
    (hg : s.Granted e mem) (ht : s.queueTop h = some t) :
    ∃ s', stepWith mem e s = .ok s' ∧ s.Readied s' t := by
  cases e with
  | tick => exact hv.elim
  | call c =>
    cases c with
    | psend i data =>
      obtain ⟨hu, rfl, q, hq⟩ := hv
      have hstep : stepWith mem (.call (.psend i data)) s = s.psend i data mem := by
        unfold stepWith
        rw [hu]
        rfl
      rw [hstep]
      exact psend_readies hs.inv (hs.serving hu) hq ht
    | preceive i p =>
      obtain ⟨hu, rfl, hpop, q, hq⟩ := hv
      cases mem with
      | false => exact absurd hpop (hg rfl)
      | true =>
        have hstep : stepWith true (.call (.preceive i p)) s = s.preceive i p := by
          unfold stepWith
          rw [hu]
          rfl
        rw [hstep]
        exact preceive_readies hs.inv hs.mail (hs.serving hu) hq hpop ht
    | _ => exact hv.elim
  | kernel =>
    obtain ⟨hc, k, hk, hfor, id, p, rst, hkont, rfl⟩ := hv
    cases mem with
    | false => exact absurd ⟨hc, k, hk, hfor⟩ (hg rfl)
    | true =>
      unfold ResumesForSender at hfor
      rw [hkont] at hfor
      obtain ⟨hdata, hrst, hpop⟩ := hfor
      have hstep : stepWith true .kernel s = s.resume := by
        unfold stepWith
        rw [hc]
      rw [hstep]
      exact resume_readies hs hc hk hkont hdata hrst hpop ht

/-- Every list is sorted; who is picked from a list has the highest priority, and of that has
waited longest; and who gets a new priority is the youngest of it. -/
structure InOrder (s : State) : Prop where
  sorted : s.Sorted
  top : ∀ h t u, s.queueTop h = some t → u ∈ s.queues.members h → u ≠ t →
    s.priorityOf u < s.priorityOf t ∨
      s.priorityOf u = s.priorityOf t ∧ s.queues.since t < s.queues.since u
  turn : ∀ s', s.ctl = .sched → step .kernel s = .ok s' → s'.Foremost
  serves : ∀ e mem h t, s.IdleStarts e → s.Granted e mem → s.Wakes h e → s.queueTop h = some t →
    ∃ s', stepWith mem e s = .ok s' ∧ s.Readied s' t
  picked : ∀ e mem h t s', s.IdleStarts e → s.Granted e mem → e.Peaceful →
    stepWith mem e s = .ok s' → h.state = .interruptedMsg → t ∈ s.queues.members h →
    t ∉ s'.queues.members h → s.queueTop h = some t
  moved : ∀ pid p t k h s', s.ctl = .user → s.current ≠ s.idle → s.pidToTask pid = some t →
    s.tasks t = some k → t ≠ s.idle → k.state ≠ .zombie → minPrio ≤ p → p ≤ maxPrio →
    s.queues.link t = some h → step (.call (.chprio pid p)) s = .ok s' →
    s'.priorityOf t = p ∧ s'.Youngest t h

theorem Sound.picked (hs : Sound False False False s) (ha : s.IdleStarts e) (he : e.Peaceful)
    (hg : s.Granted e mem) (hr : stepWith mem e s = .ok s') (hh : h.state = .interruptedMsg)
    (hm : t ∈ s.queues.members h) (hout : t ∉ s'.queues.members h) : s.queueTop h = some t := by
  cases h with
  | waitingSenders id => exact ((stepWith_picked hs ha he hg hr).1 t hm).resolve_left hout
  | waitingReceivers id => exact ((stepWith_picked hs ha he hg hr).2 t hm).resolve_left hout
  | _ => cases hh

theorem lists_in_order (h : RunWith IdleStarts s) : s.InOrder := by
  obtain ⟨hs, ho⟩ := RunWith.sorted (K := False) h fun _ _ he => IdleStarts.allows he
  refine ⟨ho, fun h t u ht hu hne => Links.Ordered.last ho ht hu hne, fun s' hc hr => ?_,
    fun e mem h t ha hg hv ht => wakes_readies hs ha hv hg ht,
    fun e mem h t s' ha hg he hr hh hm hout => hs.picked ha he hg hr hh hm hout, ?_⟩
  · exact schedule_turn (e := .kernel) hs ho hc (IdleStarts.allows trivial) hr
  · intro pid p t k h s' hu hidle ht hk hne hz hmin hmax hl hr
    have hcur : t ≠ s.current := by
      intro he
      obtain ⟨c, hc, hrun⟩ := hs.running (by rw [hu]; decide)
      rw [he, hs.inv.unlinked_current hc hrun] at hl
      cases hl
    have hstep : s.chprio pid p = .ok s' := by
      unfold step stepWith at hr
      rw [hu] at hr
      exact hr
    exact chprio_youngest hs.inv ht hne hk hz (by omega) hl hcur hstep

/-- Two receivers wait, of which the first has got a higher priority since; and so has the first of
two children that are ready. -/
theorem lists_in_order_four : ∃ s : State, s.ctl = .user ∧ s.current = 1 ∧
    s.queues.members (.waitingReceivers 0) = [3, 2] ∧ s.queues.members .ready = [0, 5, 4] ∧
    s.InOrder := by
  have hrun : Ends (exec (granted IdleStarts) (given [.call (.start (anApp 5)), .kernel,
      .call (.pcreate 1), .call (.start (anApp 6)), .kernel, .call (.preceive 0 .mapped), .kernel,
      .kernel, .call (.start (anApp 6)), .kernel, .call (.preceive 0 .mapped), .kernel, .kernel,
      .call (.chprio 2 7), .call (.start (anApp 2)), .kernel, .call (.start (anApp 3)), .kernel,
      .call (.chprio 4 4)]) boot) fun s =>
      s.ctl = .user ∧ s.current = 1 ∧ s.queues.members (.waitingReceivers 0) = [3, 2] ∧
        s.queues.members .ready = [0, 5, 4] := by
    decide +kernel
  obtain ⟨s, hs, hu, hc, hwait, hready⟩ := hrun.elim
  exact ⟨s, hu, hc, hwait, hready, lists_in_order (RunWith.replayed hs)⟩

end State
end DominOS.Process
