import DominOS.ProcessMailQuiet

/-! Each step of the message calls keeps the invariant of the messages. -/
namespace DominOS.Process
open IntrusiveLists Relation
namespace State
variable {s s' : State} {t u last : TaskPtr} {k l : Task} {h h' : Head} {kont kont' : Kont}
  {v v' msg : Msg} {id : Nat} {q : MQueue} {O : List Obs} {X : TaskPtr → Prop}
  {T D K R L : Prop} {B : State → StartArgs → Prop}

theorem inside_iff (hk : s.tasks t = some k) (hz : k.state ≠ .zombie) :
    s.Inside t kont v ↔ k.kont = kont ∧ k.msgVal = v := by
  constructor
  · rintro ⟨l, hl, _, h1, h2⟩
    rw [hk] at hl
    cases hl
    exact ⟨h1, h2⟩
  · rintro ⟨h1, h2⟩
    exact ⟨k, hk, hz, h1, h2⟩

theorem inside_congr (ht : s'.tasks t = s.tasks t) : s'.Inside t kont v ↔ s.Inside t kont v := by
  unfold Inside
  rw [ht]

theorem held_congr (ht : s'.tasks t = s.tasks t) : s'.Held t id msg ↔ s.Held t id msg := by
  unfold Held
  rw [ht]

theorem Desk.step (h : Mail K s) (ht : s'.trace = O ++ s.trace) (hc : s'.cptRst = s.cptRst)
    (hm : ∀ id, (s.mqueues id).isSome → (s'.mqueues id).isSome)
    (hout : ∀ t, ¬ X t → s'.tasks t = s.tasks t ∧ s'.queues.link t = s.queues.link t)
    (hspare : ∀ t kont v n, ¬ X t → s.Inside t kont v → kont.carries v = some n →
      ∀ o ∈ O, o.Spares n)
    (hsenders : ∀ t id q, s'.queues.link t = some (.waitingSenders id) → s'.mqueues id = some q →
      q.count = q.size)
    (hreceivers : ∀ t id q, s'.queues.link t = some (.waitingReceivers id) →
      s'.mqueues id = some q → q.count = 0)
    (hsending : ∀ t id, X t → s'.queues.link t = some (.waitingSenders id) →
      ∃ msg rst, s'.Inside t (.psendLoop id msg rst) msg ∧ msg.data ≠ -1)
    (hreceiving : ∀ t id, X t → s'.queues.link t = some (.waitingReceivers id) →
      ∃ p rst v, s'.Inside t (.preceiveLoop id p rst) v ∧ v.data = -1)
    (hfact : ∀ t kont v, X t → s'.Inside t kont v → s'.Fact K t kont v)
    (halone : ∀ t u kont kont' v v' n, X t → s'.Inside t kont v → s'.Inside u kont' v' →
      kont.carries v = some n → kont'.carries v' = some n → t = u) : Desk K s' := by
  have back {t : TaskPtr} {kont : Kont} {v : Msg} (hx : ¬ X t) (hin : s'.Inside t kont v) :
      s.Inside t kont v := (inside_congr (hout t hx).1).mp hin
  refine ⟨hsenders, hreceivers, ?_, ?_, ?_, ?_⟩
  · intro t id hl
    by_cases hx : X t
    · exact hsending t id hx hl
    · rw [(hout t hx).2] at hl
      obtain ⟨msg, rst, hin, hd⟩ := h.sending t id hl
      exact ⟨msg, rst, (inside_congr (hout t hx).1).mpr hin, hd⟩
  · intro t id hl
    by_cases hx : X t
    · exact hreceiving t id hx hl
    · rw [(hout t hx).2] at hl
      obtain ⟨p, rst, v, hin, hd⟩ := h.receiving t id hl
      exact ⟨p, rst, v, (inside_congr (hout t hx).1).mpr hin, hd⟩
  · intro t kont v hin
    by_cases hx : X t
    · exact hfact t kont v hx hin
    · refine (h.fact t kont v (back hx hin)).grow ht hc (fun id hl => ?_) hm fun n hn =>
        hspare t kont v n hx (back hx hin) hn
      rw [(hout t hx).2]
      exact hl
  · intro t u kont kont' v v' n hin hin' hn hn'
    by_cases hx : X t
    · exact halone t u kont kont' v v' n hx hin hin' hn hn'
    · by_cases hu : X u
      · exact (halone u t kont' kont v' v n hu hin' hin hn' hn).symm
      · exact h.alone t u kont kont' v v' n (back hx hin) (back hu hin') hn hn'

theorem Kept.step (h : Mail K s) (ht : s'.trace = O ++ s.trace)
    (hdrop : K → ∀ id msg, .dropped id msg ∈ O → ResetAfter id msg s'.trace)
    (htaken : K → ∀ id msg, .taken id msg ∈ O → msg.data ≠ -1 → (∃ t, s'.Held t id msg) ∨
      .received id msg ∈ s'.trace ∨ .dropped id msg ∈ s'.trace)
    (hheld : K → ∀ t id msg, s.Held t id msg → (∃ u, s'.Held u id msg) ∨
      .received id msg ∈ s'.trace ∨ .dropped id msg ∈ s'.trace) : Kept K s' where
  swept hK id msg hd := by
    rw [ht] at hd
    rcases List.mem_append.mp hd with hd | hd
    · exact hdrop hK id msg hd
    · rw [ht]
      exact (h.swept hK id msg hd).grow O
  everywhere hK id msg hd hn := by
    rw [ht] at hd
    rcases List.mem_append.mp hd with hd | hd
    · exact htaken hK id msg hd hn
    · rcases h.everywhere hK id msg hd hn with ⟨t, hh⟩ | hr | hr
      · exact hheld hK t id msg hh
      · rw [ht]
        exact Or.inr (Or.inl (List.mem_append_right _ hr))
      · rw [ht]
        exact Or.inr (Or.inr (List.mem_append_right _ hr))

theorem Mail.sender (h : Mail K s) (ht : s.queues.link t = some (.waitingSenders id))
    (hk : s.tasks t = some k) :
    ∃ rst, k.state ≠ .zombie ∧ k.kont = .psendLoop id k.msgVal rst ∧ k.msgVal.data ≠ -1 ∧
      rst ≤ s.cptRst ∧ .psend id k.msgVal ∈ s.trace ∧ NotEntered k.msgVal s.trace := by
  obtain ⟨msg, rst, hin, hd⟩ := h.sending t id ht
  have hf := h.fact t _ _ hin
  obtain ⟨l, hl, hz, hkont, hv⟩ := hin
  rw [hk] at hl
  cases hl
  subst hv
  obtain ⟨_, _, hp, hn⟩ := hf.2.2.resolve_left fun h => hd h.1
  exact ⟨rst, hz, hkont, hd, hf.1, hp, hn⟩

theorem Mail.receiver (h : Mail K s) (ht : s.queues.link t = some (.waitingReceivers id))
    (hk : s.tasks t = some k) :
    ∃ p rst, k.state ≠ .zombie ∧ k.kont = .preceiveLoop id p rst ∧ k.msgVal.data = -1 ∧
      rst ≤ s.cptRst ∧ (K → p.Good) := by
  obtain ⟨p, rst, v, hin, hd⟩ := h.receiving t id ht
  have hf := h.fact t _ _ hin
  obtain ⟨l, hl, hz, hkont, hv⟩ := hin
  rw [hk] at hl
  cases hl
  subst hv
  exact ⟨p, rst, hz, hkont, hd, hf.1, hf.2.1⟩

theorem Mail.no_receivers (h : Mail K s) (hq : s.mqueues id = some q) (hn : q.count ≠ 0) :
    s.queues.link t ≠ some (.waitingReceivers id) :=
  fun hl => hn (h.receivers t id q hl hq)

theorem no_link (he : s.queues.members h = []) : s.queues.link t ≠ some h := by
  intro hl
  have hm := Links.mem_of_link hl
  rw [he] at hm
  cases hm

theorem not_held_iret (hk : s.tasks t = some k) (hkont : k.kont = .iret) : ¬ s.Held t id msg := by
  rintro ⟨l, hl, _, hh⟩
  rw [hk] at hl
  cases hl
  rcases hh with ⟨p, rst, h, _⟩ | ⟨p, h⟩ <;> rw [hkont] at h <;> cases h

theorem Mail.current (h : Mail K s) (hi : Inv s) (hk : s.tasks s.current = some k)
    (hr : k.state = .running) (ht : s'.trace = O ++ s.trace)
    (htasks : s'.tasks = Function.update s.tasks s.current (some l)) (hz : l.state = .running)
    (hqueues : s'.queues = s.queues) (hc : s'.cptRst = s.cptRst)
    (hm : ∀ id, (s.mqueues id).isSome → (s'.mqueues id).isSome)
    (hsenders : ∀ t id q, s.queues.link t = some (.waitingSenders id) → s'.mqueues id = some q →
      q.count = q.size)
    (hreceivers : ∀ t id q, s.queues.link t = some (.waitingReceivers id) →
      s'.mqueues id = some q → q.count = 0)
    (hbooks : Books s'.mqueues s'.sends s'.trace)
    (hcarries : l.kont.carries l.msgVal = none) (hfact : s'.Fact K s.current l.kont l.msgVal)
    (hspare : ∀ t kont v n, t ≠ s.current → s.Inside t kont v → kont.carries v = some n →
      ∀ o ∈ O, o.Spares n)
    (htaken : ∀ id msg, .taken id msg ∉ O)
    (hdrop : K → ∀ id msg, .dropped id msg ∈ O → ResetAfter id msg s'.trace)
    (hheld : K → ∀ id msg, k.Holds id msg → .received id msg ∈ O ∨ .dropped id msg ∈ O) :
    Mail K s' := by
  have hself : s'.tasks s.current = some l := by rw [htasks, Function.update_self]
  have hother (t : TaskPtr) (hne : t ≠ s.current) : s'.tasks t = s.tasks t := by
    rw [htasks, Function.update_of_ne hne]
  have hzl : l.state ≠ .zombie := by rw [hz]; decide
  have hun : s'.queues.link s.current = none := by rw [hqueues, hi.unlinked_current hk hr]
  refine ⟨.step (X := (· = s.current)) h ht hc hm
    (fun t hne => ⟨hother t hne, by rw [hqueues]⟩) hspare ?_ ?_ ?_ ?_ ?_ ?_,
    .step h ht hdrop (fun _ id msg hm => absurd hm (htaken id msg)) ?_, hbooks⟩
  · rw [hqueues]
    exact hsenders
  · rw [hqueues]
    exact hreceivers
  · rintro t id rfl hl
    rw [hun] at hl
    cases hl
  · rintro t id rfl hl
    rw [hun] at hl
    cases hl
  · rintro t kont v rfl hin
    obtain ⟨rfl, rfl⟩ := (inside_iff hself hzl).mp hin
    exact hfact
  · rintro t u kont kont' v v' n rfl hin _ hn _
    obtain ⟨rfl, rfl⟩ := (inside_iff hself hzl).mp hin
    rw [hcarries] at hn
    cases hn
  · intro hK t id msg hh
    by_cases hc : t = s.current
    · subst hc
      obtain ⟨m, hm, _, hold⟩ := hh
      rw [hk] at hm
      cases hm
      rw [ht]
      exact Or.inr ((hheld hK id msg hold).imp (List.mem_append_left _) (List.mem_append_left _))
    · exact Or.inl ⟨t, (held_congr (hother t hc)).mpr hh⟩

theorem wentOn_of_ne {c : Ctl} (hu : u ≠ s.current) : (s.wentOn k kont c).tasks u = s.tasks u :=
  setTask_tasks_of_ne hu

theorem spares_none {n : Nat} : ∀ o ∈ ([] : List Obs), o.Spares n := by simp

theorem Mail.told {c : Ctl} (h : Mail K s) (hi : Inv s) (hk : s.tasks s.current = some k)
    (hr : k.state = .running) (hkont : k.kont = .iret) (he : .entered id msg ∈ s.trace) :
    Mail K (s.wentOn k (.psendRet id msg) c) := by
  refine h.current (O := []) hi hk hr rfl rfl hr rfl rfl (fun _ h => h) h.senders h.receivers
    h.books rfl he
    (fun _ _ _ _ _ _ _ => spares_none) (by simp) (by simp) fun _ j m hh => ?_
  exact absurd ⟨k, hk, by rw [hr]; decide, hh⟩ (not_held_iret hk hkont)

theorem Mail.unsent {data : Int} (h : Mail K s) (hi : Inv s) (hk : s.tasks s.current = some k)
    (hr : k.state = .running) (hkont : k.kont = .iret) :
    Mail K ((s.called id ⟨data, s.sends⟩).setTask s.current { k with msgVal := ⟨data, s.sends⟩ }) := by
  refine h.current (O := [.psend id ⟨data, s.sends⟩]) hi hk hr rfl rfl hr rfl rfl (fun _ h => h)
    h.senders h.receivers h.books.psend (by rw [hkont]; rfl) (.silent (by rw [hkont]; trivial)) (fun _ _ _ _ _ _ _ => by simp [Obs.Spares])
    (by simp) (by simp) fun _ j m hh => ?_
  exact absurd ⟨k, hk, by rw [hr]; decide, hh⟩ (not_held_iret hk hkont)

theorem Mail.consume (h : Mail K s) (hi : Inv s) (hk : s.tasks s.current = some k)
    (hr : k.state = .running) (hK : K → ∀ id msg, ¬ k.Holds id msg) :
    Mail K (s.setTask s.current { k with kont := .iret }) := by
  refine h.current (O := []) hi hk hr rfl rfl hr rfl rfl (fun _ h => h) h.senders h.receivers
    h.books rfl trivial
    (fun _ _ _ _ _ _ _ => spares_none) (by simp) (by simp) fun hk j m hh => absurd hh (hK hk j m)

theorem Mail.holds_alone (h : Mail K s) (hk : s.tasks t = some k) (hz : k.state ≠ .zombie)
    (hh : k.Holds id msg) (hne : u ≠ t) (hin : s.Inside u kont v) :
    kont.carries v ≠ some msg.send := by
  intro hc
  refine hne (h.alone u t kont k.kont v k.msgVal msg.send hin ⟨k, hk, hz, rfl, rfl⟩ hc ?_)
  rcases hh with ⟨p, rst, hkont, rfl, hd⟩ | ⟨p, hkont⟩
  · rw [hkont]
    exact if_neg hd
  · rw [hkont]
    rfl

theorem holds_unique {j : Nat} {m : Msg} (h : k.Holds id msg) (h' : k.Holds j m) :
    j = id ∧ m = msg := by
  rcases h with ⟨p, rst, hk, hv, _⟩ | ⟨p, hk⟩ <;> rcases h' with ⟨p', rst', hk', hv', _⟩ | ⟨p', hk'⟩ <;>
    rw [hk] at hk' <;> cases hk'
  · exact ⟨rfl, hv'.symm.trans hv⟩
  · exact ⟨rfl, rfl⟩

theorem Mail.received (h : Mail K s) (hi : Inv s) (hk : s.tasks s.current = some k)
    (hr : k.state = .running) (hh : k.Holds id msg) :
    Mail K ((s.setTask s.current { k with kont := .iret, msgVal := v }).observe (.received id msg)) := by
  have hz : k.state ≠ .zombie := by rw [hr]; decide
  obtain ⟨ht, hg⟩ := h.held_fact ⟨k, hk, hz, hh⟩
  refine h.current (O := [.received id msg]) hi hk hr rfl rfl hr rfl rfl (fun _ h => h) h.senders
    h.receivers (h.books.received ht hg) rfl trivial (fun u kont v n hne hin hn o ho => ?_) (by simp) (by simp) fun _ j m hh' => ?_
  · rw [List.mem_singleton.mp ho]
    rintro rfl
    exact h.holds_alone hk hz hh hne hin hn
  · obtain ⟨rfl, rfl⟩ := holds_unique hh hh'
    exact Or.inl (by simp)

theorem Mail.lost {p : UserPtr} {rst : Nat} (h : Mail K s) (hi : Inv s)
    (hk : s.tasks s.current = some k) (hr : k.state = .running)
    (hkont : k.kont = .preceiveLoop id p rst) (hd : k.msgVal.data ≠ -1)
    (hrst : rst < s.cptRst ∨ s.mqueues id = none) :
    Mail K ((s.setTask s.current { k with kont := .iret }).observe (.dropped id k.msgVal)) := by
  have hz : k.state ≠ .zombie := by rw [hr]; decide
  have hh : k.Holds id k.msgVal := Or.inl ⟨p, rst, hkont, rfl, hd⟩
  obtain ⟨ht, hg⟩ := h.held_fact ⟨k, hk, hz, hh⟩
  have hf := h.fact _ _ _ ⟨k, hk, hz, hkont, rfl⟩
  refine h.current (O := [.dropped id k.msgVal]) hi hk hr rfl rfl hr rfl rfl (fun _ h => h) h.senders
    h.receivers (h.books.dropped ht hg) rfl trivial (fun u kont v n hne hin hn o ho => ?_) (by simp)
    (fun hK j m hm => ?_) fun _ j m hh' => ?_
  · rw [List.mem_singleton.mp ho]
    rintro rfl
    exact h.holds_alone hk hz hh hne hin hn
  · obtain ⟨rfl, rfl⟩ : j = id ∧ m = k.msgVal := by simpa using hm
    have hafter : ResetAfter j k.msgVal s.trace := by
      refine ((hf.2.2 hd).2.2 hK).resolve_right fun hn => ?_
      rcases hrst with hlt | hnone
      · exact Nat.ne_of_lt hlt hn.1
      · rw [hnone] at hn
        cases hn.2
    exact hafter.grow [_]
  · obtain ⟨rfl, rfl⟩ := holds_unique hh hh'
    exact Or.inr (by simp)

theorem Mail.still (h : Mail K s) (ht : s'.trace = O ++ s.trace) (htasks : s'.tasks = s.tasks)
    (hlink : s'.queues = s.queues) (hbooks : Books s'.mqueues s'.sends s'.trace)
    (hfact : ∀ t kont v, s.Inside t kont v → s.Fact K t kont v → s'.Fact K t kont v)
    (hsenders : ∀ t id q, s.queues.link t = some (.waitingSenders id) → s'.mqueues id = some q →
      q.count = q.size)
    (hreceivers : ∀ t id q, s.queues.link t = some (.waitingReceivers id) →
      s'.mqueues id = some q → q.count = 0)
    (hdrop : K → ∀ id msg, .dropped id msg ∈ O → ResetAfter id msg s'.trace)
    (htaken : K → ∀ id msg, .taken id msg ∈ O → msg.data ≠ -1 →
      .received id msg ∈ s'.trace ∨ .dropped id msg ∈ s'.trace) : Mail K s' := by
  have same {t : TaskPtr} {kont : Kont} {v : Msg} : s'.Inside t kont v ↔ s.Inside t kont v :=
    inside_congr (by rw [htasks])
  refine ⟨⟨?_, ?_, ?_, ?_, ?_, ?_⟩,
    .step h ht hdrop (fun hK id msg hm hd => Or.inr (htaken hK id msg hm hd)) ?_, hbooks⟩
  · rw [hlink]
    exact hsenders
  · rw [hlink]
    exact hreceivers
  · intro t id hl
    rw [hlink] at hl
    obtain ⟨m, rst, hin, hd⟩ := h.sending t id hl
    exact ⟨m, rst, same.mpr hin, hd⟩
  · intro t id hl
    rw [hlink] at hl
    obtain ⟨p, rst, v, hin, hd⟩ := h.receiving t id hl
    exact ⟨p, rst, v, same.mpr hin, hd⟩
  · intro t kont v hin
    exact hfact t kont v (same.mp hin) (h.fact t kont v (same.mp hin))
  · intro t u kont kont' v v' n hin hin'
    exact h.alone t u kont kont' v v' n (same.mp hin) (same.mp hin')
  · intro _ t id msg hh
    exact Or.inl ⟨t, (held_congr (by rw [htasks])).mpr hh⟩

theorem Mail.beside (h : Mail K s) (ht : s'.trace = O ++ s.trace) (htasks : s'.tasks = s.tasks)
    (hlink : s'.queues = s.queues) (hc : s'.cptRst = s.cptRst)
    (hm : ∀ id, (s.mqueues id).isSome → (s'.mqueues id).isSome)
    (hbooks : Books s'.mqueues s'.sends s'.trace)
    (hspare : ∀ t kont v n, s.Inside t kont v → kont.carries v = some n → ∀ o ∈ O, o.Spares n)
    (hsenders : ∀ t id q, s.queues.link t = some (.waitingSenders id) → s'.mqueues id = some q →
      q.count = q.size)
    (hreceivers : ∀ t id q, s.queues.link t = some (.waitingReceivers id) →
      s'.mqueues id = some q → q.count = 0)
    (hdrop : K → ∀ id msg, .dropped id msg ∈ O → ResetAfter id msg s'.trace)
    (htaken : K → ∀ id msg, .taken id msg ∈ O → msg.data ≠ -1 →
      .received id msg ∈ s'.trace ∨ .dropped id msg ∈ s'.trace) : Mail K s' :=
  h.still ht htasks hlink hbooks (fun t kont v hin hf => hf.grow ht hc
    (fun id hl => by rw [hlink]; exact hl) hm fun n hn => hspare t kont v n hin hn)
    hsenders hreceivers hdrop htaken

theorem Mail.sent (h : Mail K s) (hs : msg.data = -1 ∨ .entered id msg ∈ s.trace) :
    Mail K (s.observe (.sent id msg)) :=
  h.beside (O := [.sent id msg]) rfl rfl rfl rfl (fun _ hs => hs) (h.books.sent hs)
    (fun _ _ _ _ _ _ => by simp [Obs.Spares]) h.senders h.receivers (by simp) (by simp)

theorem waiters_update {P : MQueue → Prop} {hd : Nat → Head} {r : MQueue}
    (h : ∀ t id q, s.queues.link t = some (hd id) → s.mqueues id = some q → P q)
    (hr : (∃ t, s.queues.link t = some (hd id)) → P r) :
    ∀ t j q, s.queues.link t = some (hd j) → Function.update s.mqueues id (some r) j = some q →
      P q := by
  intro t j q hl hq
  by_cases hj : j = id
  · subst hj
    rw [Function.update_self] at hq
    cases hq
    exact hr ⟨t, hl⟩
  · rw [Function.update_of_ne hj] at hq
    exact h t j q hl hq

theorem update_isSome {r : MQueue} {mq : Nat → Option MQueue} (j : Nat) (hj : (mq j).isSome) :
    (Function.update mq id (some r) j).isSome := by
  by_cases he : j = id
  · subst he
    simp
  · rwa [Function.update_of_ne he]

theorem Mail.take {rest : List Msg} (h : Mail K s) (hq : s.mqueues id = some q)
    (hm : q.msgs = msg :: rest) (hs : s.queues.members (.waitingSenders id) = []) :
    Mail K (((s.popMsg id q rest).observe (.taken id msg)).observe (.received id msg)) := by
  obtain ⟨hcount, _, _⟩ := h.books.counted id q hq
  have hheld : msg ∈ held id s.trace := by
    rw [h.books.held_eq hq, hm]
    simp
  refine h.beside (O := [.received id msg, .taken id msg]) rfl rfl rfl rfl update_isSome
    ((h.books.pop hq hm).received (by simp) ?_) (fun t kont v n hin hn o ho => ?_)
    (waiters_update h.senders fun hl => absurd hl.choose_spec (no_link hs))
    (waiters_update h.receivers fun hl => ?_) (by simp) fun _ j m hm' _ => ?_
  · exact (h.books.stored id msg hheld).cons (by simp)
  · have hne : n ≠ msg.send := by
      rintro rfl
      exact h.carries_ne hheld hin hn
    rcases List.mem_cons.mp ho with rfl | ho
    · exact Ne.symm hne
    · rw [List.mem_singleton.mp ho]
      trivial
  · have := h.receivers _ id q hl.choose_spec hq
    rw [hcount, hm] at this
    cases this
  · obtain ⟨rfl, rfl⟩ : j = id ∧ m = msg := by simpa using hm'
    exact Or.inl (by simp [popMsg, setMqueue, asked, observe])

theorem Mail.spill {rest : List Msg} (hK : ¬ K) (h : Mail K s) (hq : s.mqueues id = some q)
    (hm : q.msgs = msg :: rest) (hs : s.queues.members (.waitingSenders id) = []) :
    Mail K ((s.popMsg id q rest).observe (.taken id msg)) := by
  obtain ⟨hcount, _, _⟩ := h.books.counted id q hq
  refine h.beside (O := [.taken id msg]) rfl rfl rfl rfl update_isSome (h.books.pop hq hm)
    (fun _ _ _ _ _ _ => by simp [Obs.Spares])
    (waiters_update h.senders fun hl => absurd hl.choose_spec (no_link hs))
    (waiters_update h.receivers fun hl => ?_) (fun hk => absurd hk hK) fun hk => absurd hk hK
  have := h.receivers _ id q hl.choose_spec hq
  rw [hcount, hm] at this
  cases this

theorem Mail.create {count : Nat} (h : Mail K s) (hi : Inv s) (hq : s.mqueues id = none)
    (hc : (count : Int) ≤ int16Max) : Mail K (s.allocMqueue id count) := by
  have nobody (t : TaskPtr) (hd : Head) (hs : hd = .waitingSenders id ∨ hd = .waitingReceivers id) :
      s.queues.link t ≠ some hd := by
    intro hl
    obtain ⟨_, _, _, hu⟩ := hi.live (Links.mem_of_link hl)
    rcases hs with rfl | rfl <;> simp [Head.Used, hq] at hu
  refine h.beside (O := []) rfl rfl rfl rfl update_isSome (h.books.create hq hc)
    (fun _ _ _ _ _ _ => spares_none)
    (waiters_update h.senders fun hl => absurd hl.choose_spec (nobody _ _ (Or.inl rfl)))
    (waiters_update h.receivers fun hl => absurd hl.choose_spec (nobody _ _ (Or.inr rfl)))
    (by simp) (by simp)

theorem Mail.bump (h : Mail K s) (hK : K → ∀ t j msg, s.Held t j msg → j = id) :
    Mail K (s.bump id) := by
  have hnote : ∀ n, ∀ o ∈ [Obs.reset id], o.Spares n := by simp [Obs.Spares]
  refine h.still (O := [.reset id]) rfl rfl rfl (h.books.aside trivial)
    (fun t kont v hin hf => ?_) h.senders h.receivers (by simp) (by simp)
  cases kont with
  | psendLoop j msg rst =>
    obtain ⟨h1, h2, h3⟩ := hf
    refine ⟨Nat.le_succ_of_le h1, h2.imp_right (·.imp_right Nat.lt_succ_of_lt), ?_⟩
    rcases h3 with ⟨h3, h4⟩ | ⟨rfl, h3, h4, h5⟩
    · exact Or.inl ⟨h3, List.mem_cons_of_mem _ h4⟩
    · exact Or.inr ⟨rfl, h3, List.mem_cons_of_mem _ h4, h5.grow (hnote _)⟩
  | psendAdd j msg => exact hf
  | psendRet j msg => exact List.mem_cons_of_mem _ hf
  | preceiveLoop j p rst =>
    refine ⟨Nat.le_succ_of_le hf.1, hf.2.1, fun hv => ?_⟩
    obtain ⟨h1, h2, _⟩ := hf.2.2 hv
    refine ⟨List.mem_cons_of_mem _ h1, h2.grow (hnote _), fun hk => Or.inl ?_⟩
    obtain rfl := hK hk t j v (held_iff.mpr (Or.inl ⟨p, rst, hin, hv⟩))
    exact ⟨[], s.trace, rfl, h.books.story.entered_of_taken h1⟩
  | preceiveRet j p msg => exact ⟨hf.1, List.mem_cons_of_mem _ hf.2.1, hf.2.2.grow (hnote _)⟩
  | _ => trivial

theorem Mail.empty (h : Mail K s) (hq : s.mqueues id = some q)
    (hs : s.queues.members (.waitingSenders id) = [])
    (hr : s.queues.members (.waitingReceivers id) = [])
    (hafter : ∀ msg ∈ q.msgs, ResetAfter id msg s.trace)
    (hrst : ∀ t p rst v, s.Inside t (.preceiveLoop id p rst) v → rst < s.cptRst) :
    Mail K (s.freeMqueue id q) := by
  have hheld := h.books.held_eq hq
  have hspare (t : TaskPtr) (kont : Kont) (v : Msg) (n : Nat) (hin : s.Inside t kont v)
      (hn : kont.carries v = some n) :
      ∀ o ∈ .emptied id :: (q.msgs.map (Obs.dropped id)).reverse, o.Spares n := by
    intro o ho
    rcases List.mem_cons.mp ho with rfl | ho
    · trivial
    · obtain ⟨m, hm, rfl⟩ : ∃ m ∈ q.msgs, .dropped id m = o := by simpa using ho
      rintro rfl
      exact h.carries_ne (hheld ▸ hm) hin hn
  have htasks : (s.freeMqueue id q).tasks = s.tasks := freeMqueue_tasks
  have hqueues : (s.freeMqueue id q).queues = s.queues := freeMqueue_queues
  have hmq : (s.freeMqueue id q).mqueues = Function.update s.mqueues id none := freeMqueue_mqueues
  have htr : (s.freeMqueue id q).trace =
      (.emptied id :: (q.msgs.map (Obs.dropped id)).reverse) ++ s.trace := freeMqueue_trace
  have hcr : (s.freeMqueue id q).cptRst = s.cptRst := freeMqueue_cptRst
  have hsends : (s.freeMqueue id q).sends = s.sends := freeMqueue_sends
  generalize s.freeMqueue id q = w at htasks hqueues hmq htr hcr hsends ⊢
  have old (t : TaskPtr) (hd : Nat → Head) {P : MQueue → Prop} {j : Nat} {r : MQueue}
      (hold : ∀ t id q, s.queues.link t = some (hd id) → s.mqueues id = some q → P q)
      (hl : s.queues.link t = some (hd j)) (hj : w.mqueues j = some r) : P r := by
    rw [hmq] at hj
    by_cases he : j = id
    · subst he
      rw [Function.update_self] at hj
      cases hj
    · rw [Function.update_of_ne he] at hj
      exact hold t j r hl hj
  refine h.still htr htasks hqueues (by rw [hmq, hsends, htr]; exact h.books.empty hq)
    (fun t kont v hin hf => ?_)
    (fun t j r => old t .waitingSenders h.senders) (fun t j r => old t .waitingReceivers h.receivers)
    (fun _ j m hm => ?_) (by simp)
  · cases kont with
    | preceiveLoop j p rst =>
      refine ⟨by rw [hcr]; exact hf.1, hf.2.1, fun hv => ?_⟩
      obtain ⟨h1, h2, h3⟩ := hf.2.2 hv
      rw [htr, hcr, hmq]
      refine ⟨List.mem_append_right _ h1, h2.grow (hspare t _ v v.send hin (if_neg hv)), fun hk => ?_⟩
      rcases h3 hk with h3 | ⟨he, hu⟩
      · exact Or.inl (h3.grow _)
      · refine Or.inr ⟨he, ?_⟩
        have hj : j ≠ id := by
          rintro rfl
          exact Nat.ne_of_lt (hrst t p rst v hin) he
        rwa [Function.update_of_ne hj]
    | _ =>
      refine Fact.grow (s := { s with mqueues := fun _ => none }) ?_ htr hcr
        (fun id hl => by rw [hqueues]; exact hl) nofun fun n hn => hspare t _ v n hin hn
      exact hf
  · obtain ⟨hmem, rfl⟩ : m ∈ q.msgs ∧ id = j := by simpa using hm
    rw [htr]
    exact (hafter m hmem).grow _

theorem Mail.release (h : Mail K s) (hl : s.tasks t = some l) (hm : l.state = .interruptedMsg)
    (hrst : ∀ id msg rst, l.kont = .psendLoop id msg rst → rst < s.cptRst) :
    Mail K (s.woken t l) := by
  have hself : (s.woken t l).tasks t = some { l with state := .ready } := setTask_tasks_self
  have hz : l.state ≠ .zombie := by rw [hm]; decide
  have hother (u : TaskPtr) (hu : u ≠ t) : (s.woken t l).tasks u = s.tasks u :=
    setTask_tasks_of_ne hu
  have hlink (u : TaskPtr) (hu : u ≠ t) : (s.woken t l).queues.link u = s.queues.link u :=
    move_link_of_ne hu
  have hready : (s.woken t l).queues.link t = some .ready := move_link_self
  have old {u : TaskPtr} {hd : Head} (hs : hd ≠ .ready) (hu : (s.woken t l).queues.link u = some hd) :
      s.queues.link u = some hd := by
    by_cases he : u = t
    · rw [he, hready] at hu
      cases hu
      exact absurd rfl hs
    · rwa [hlink u he] at hu
  have same {u : TaskPtr} {kont : Kont} {v : Msg} :
      (s.woken t l).Inside u kont v ↔ s.Inside u kont v := by
    by_cases hu : u = t
    · subst hu
      rw [inside_iff hself nofun, inside_iff hl hz]
    · exact inside_congr (hother u hu)
  refine ⟨⟨?_, ?_, ?_, ?_, ?_, ?_⟩, ⟨h.swept, fun hK id msg ht hd => ?_⟩, h.books⟩
  · intro u id q hu hq
    exact h.senders u id q (old nofun hu) hq
  · intro u id q hu hq
    exact h.receivers u id q (old nofun hu) hq
  · intro u id hu
    obtain ⟨m, rst, hin, hd⟩ := h.sending u id (old nofun hu)
    exact ⟨m, rst, same.mpr hin, hd⟩
  · intro u id hu
    obtain ⟨p, rst, v, hin, hd⟩ := h.receiving u id (old nofun hu)
    exact ⟨p, rst, v, same.mpr hin, hd⟩
  · intro u kont v hin
    have hf := h.fact u kont v (same.mp hin)
    by_cases hu : u = t
    · subst hu
      obtain ⟨rfl, rfl⟩ := (inside_iff hl hz).mp (same.mp hin)
      cases hkont : l.kont with
      | psendLoop id msg rst =>
        rw [hkont] at hf
        exact ⟨hf.1, Or.inr (Or.inr (hrst id msg rst hkont)), hf.2.2⟩
      | _ =>
        rw [hkont] at hf
        exact hf
    · refine hf.grow (O := []) rfl rfl (fun id hl => ?_) (fun _ h => h) fun _ _ => spares_none
      rw [hlink u hu]
      exact hl
  · intro u w kont kont' v v' n hin hin'
    exact h.alone u w kont kont' v v' n (same.mp hin) (same.mp hin')
  · refine (h.everywhere hK id msg ht hd).imp_left fun ⟨u, hh⟩ => ⟨u, ?_⟩
    exact hh.transfer fun kont v _ => same.mpr

theorem Mail.spares_new (h : Mail K s) {i n : Nat} {o : Obs} {m : Msg}
    (ho : o = .psend i m ∨ o = .entered i m ∨ o = .taken i m) (hm : m.send = s.sends)
    (hin : s.Inside t kont v) (hn : kont.carries v = some n) : o.Spares n := by
  have hlt := h.carries_lt hin hn
  rcases ho with rfl | rfl | rfl
  · trivial
  · change m.send ≠ n
    omega
  · trivial

theorem Mail.block {w : Msg} (h : Mail K s) (hk : s.tasks s.current = some k) (htr : s'.trace = O ++ s.trace)
    (htasks : s'.tasks = Function.update s.tasks s.current
      (some { k with state := .interruptedMsg, kont := kont, msgVal := w }))
    (hlink : s'.queues.link s.current = some h')
    (hother : ∀ t, t ≠ s.current → s'.queues.link t = s.queues.link t)
    (hmq : s'.mqueues = s.mqueues) (hc : s'.cptRst = s.cptRst)
    (hbooks : Books s'.mqueues s'.sends s'.trace)
    (hspare : ∀ t kont v n, t ≠ s.current → s.Inside t kont v → kont.carries v = some n →
      ∀ o ∈ O, o.Spares n) (hfact : s'.Fact K s.current kont w)
    (hsenders : ∀ id q, h' = .waitingSenders id → s.mqueues id = some q → q.count = q.size)
    (hreceivers : ∀ id q, h' = .waitingReceivers id → s.mqueues id = some q → q.count = 0)
    (hsending : ∀ id, h' = .waitingSenders id → ∃ rst, kont = .psendLoop id w rst ∧ w.data ≠ -1)
    (hreceiving : ∀ id, h' = .waitingReceivers id →
      ∃ p rst, kont = .preceiveLoop id p rst ∧ w.data = -1)
    (halone : ∀ t kont' v n, t ≠ s.current → s.Inside t kont' v → kont'.carries v = some n →
      kont.carries w ≠ some n)
    (htaken : ∀ id msg, .taken id msg ∉ O) (hdrop : ∀ id msg, .dropped id msg ∉ O)
    (hheld : K → ∀ id msg, ¬ k.Holds id msg) : Mail K s' := by
  have hself : s'.tasks s.current =
      some { k with state := .interruptedMsg, kont := kont, msgVal := w } := by
    rw [htasks, Function.update_self]
  have hout (t : TaskPtr) (hne : t ≠ s.current) : s'.tasks t = s.tasks t := by
    rw [htasks, Function.update_of_ne hne]
  have mine {kont' : Kont} {v : Msg} : s'.Inside s.current kont' v ↔ kont = kont' ∧ w = v :=
    inside_iff hself nofun
  refine ⟨.step (X := (· = s.current)) h htr hc (fun id hs => by rw [hmq]; exact hs)
    (fun t hne => ⟨hout t hne, hother t hne⟩) hspare ?_ ?_ ?_ ?_ ?_ ?_,
    .step h htr (fun _ id msg hm => absurd hm (hdrop id msg))
      (fun _ id msg hm => absurd hm (htaken id msg)) ?_, hbooks⟩
  · intro t id q hl hq
    rw [hmq] at hq
    by_cases ht : t = s.current
    · rw [ht, hlink] at hl
      cases hl
      exact hsenders id q rfl hq
    · rw [hother t ht] at hl
      exact h.senders t id q hl hq
  · intro t id q hl hq
    rw [hmq] at hq
    by_cases ht : t = s.current
    · rw [ht, hlink] at hl
      cases hl
      exact hreceivers id q rfl hq
    · rw [hother t ht] at hl
      exact h.receivers t id q hl hq
  · rintro t id rfl hl
    rw [hlink] at hl
    cases hl
    obtain ⟨rst, rfl, hd⟩ := hsending id rfl
    exact ⟨w, rst, mine.mpr ⟨rfl, rfl⟩, hd⟩
  · rintro t id rfl hl
    rw [hlink] at hl
    cases hl
    obtain ⟨p, rst, rfl, hd⟩ := hreceiving id rfl
    exact ⟨p, rst, w, mine.mpr ⟨rfl, rfl⟩, hd⟩
  · rintro t kont' v rfl hin
    obtain ⟨rfl, rfl⟩ := mine.mp hin
    exact hfact
  · rintro t u kont' kont'' v v' n rfl hin hin' hn hn'
    obtain ⟨rfl, rfl⟩ := mine.mp hin
    by_contra hne
    exact halone u kont'' v' n (Ne.symm hne) ((inside_congr (hout u (Ne.symm hne))).mp hin') hn' hn
  · intro hK t id msg hh
    by_cases ht : t = s.current
    · subst ht
      obtain ⟨m, hm, _, hold⟩ := hh
      rw [hk] at hm
      cases hm
      exact absurd hold (hheld hK id msg)
    · exact Or.inl ⟨t, (held_congr (hout t ht)).mpr hh⟩

theorem Mail.sendBlock {data : Int} (h : Mail K s) (hk : s.tasks s.current = some k)
    (hkont : k.kont = .iret) (hq : s.mqueues id = some q) (hfull : q.count = q.size)
    (hd : data ≠ -1) :
    Mail K ((s.called id ⟨data, s.sends⟩).blocked (.waitingSenders id)
      { k with msgVal := ⟨data, s.sends⟩ } (.psendLoop id ⟨data, s.sends⟩ s.cptRst)) := by
  have hcarries : (Kont.psendLoop id ⟨data, s.sends⟩ s.cptRst).carries ⟨data, s.sends⟩ =
      some s.sends := if_neg hd
  refine h.block (O := [.psend id ⟨data, s.sends⟩]) hk rfl rfl move_link_self
    (fun t ht => move_link_of_ne ht) rfl rfl h.books.psend ?_ ?_ ?_ nofun ?_ nofun ?_ (by simp)
    (by simp) ?_
  · intro t kont v n _ hin hn o ho
    rw [List.mem_singleton.mp ho]
    exact h.spares_new (m := ⟨data, s.sends⟩) (Or.inl rfl) rfl hin hn
  · refine ⟨Nat.le_refl _, Or.inl move_link_self, Or.inr ⟨rfl, hd, List.mem_cons_self, ?_⟩⟩
    exact (h.books.fresh_not_entered).grow (O := [_]) (by simp [Obs.Spares])
  · rintro j r he hr
    cases he
    rw [hq] at hr
    cases hr
    exact hfull
  · rintro j he
    cases he
    exact ⟨_, rfl, hd⟩
  · intro t kont' v n _ hin hn hc
    rw [hcarries] at hc
    cases hc
    exact Nat.lt_irrefl _ (h.carries_lt hin hn)
  · intro _ j m hh
    rcases hh with ⟨p, rst, he, _⟩ | ⟨p, he⟩ <;> rw [hkont] at he <;> cases he

theorem Mail.sendAgain {rst : Nat} (h : Mail K s) (hk : s.tasks s.current = some k)
    (hr : k.state = .running) (hkont : k.kont = .psendLoop id msg rst)
    (hq : s.mqueues id = some q) (hfull : q.count = q.size) (hd : k.msgVal.data ≠ -1) :
    Mail K (s.blocked (.waitingSenders id) k k.kont) := by
  have hin : s.Inside s.current k.kont k.msgVal := ⟨k, hk, by rw [hr]; decide, rfl, rfl⟩
  have hf := h.fact _ _ _ hin
  rw [hkont] at hf
  have hmsg : k.msgVal = msg := (hf.2.2.resolve_left fun h => hd h.1).1
  refine h.block (O := []) (w := k.msgVal) hk rfl rfl move_link_self
    (fun t ht => move_link_of_ne ht) rfl rfl h.books (fun _ _ _ _ _ _ _ => spares_none) ?_ ?_ nofun
    ?_ nofun ?_ (by simp) (by simp) ?_
  · rw [hkont]
    exact ⟨hf.1, Or.inl move_link_self, hf.2.2⟩
  · rintro j r he hr
    cases he
    rw [hq] at hr
    cases hr
    exact hfull
  · rintro j he
    cases he
    exact ⟨rst, by rw [hkont, hmsg], hd⟩
  · intro t kont' v n ht hin' hn hc
    exact ht (h.alone t s.current kont' k.kont v k.msgVal n hin' hin hn hc)
  · intro _ j m hh
    rcases hh with ⟨p, rst, he, _⟩ | ⟨p, he⟩ <;> rw [hkont] at he <;> cases he

theorem Mail.receiveBlock {p : UserPtr} {rst : Nat} (h : Mail K s)
    (hk : s.tasks s.current = some k) (hq : s.mqueues id = some q) (hempty : q.count = 0)
    (hd : v.data = -1) (hrst : rst ≤ s.cptRst) (hp : K → p.Good) (hK : K → ∀ id msg, ¬ k.Holds id msg) :
    Mail K (s.blocked (.waitingReceivers id) { k with msgVal := v } (.preceiveLoop id p rst)) := by
  have hcarries : (Kont.preceiveLoop id p rst).carries v = none := if_pos hd
  refine h.block (O := []) hk rfl rfl move_link_self (fun t ht => move_link_of_ne ht) rfl rfl
    h.books (fun _ _ _ _ _ _ _ => spares_none) ⟨hrst, hp, fun hn => absurd hd hn⟩ nofun ?_ nofun ?_
    (fun t kont' v' n _ _ _ hc => by rw [hcarries] at hc; cases hc) (by simp) (by simp) hK
  · rintro j r he hr
    cases he
    rw [hq] at hr
    cases hr
    exact hempty
  · rintro j he
    cases he
    exact ⟨p, rst, rfl, hd⟩

theorem Mail.new_not_gone {data : Int} (h : Mail K s)
    (hs : ∀ o ∈ O, ∀ j m, o ≠ .received j m ∧ o ≠ .dropped j m) :
    NotGone ⟨data, s.sends⟩ (O ++ s.trace) := by
  induction O with
  | nil => exact h.books.story.not_gone h.books.fresh_not_entered
  | cons o O ih =>
    refine (ih fun o ho => hs o (List.mem_cons_of_mem _ ho)).cons fun j m he => ?_
    have hno := hs o List.mem_cons_self j m
    exact (he.elim hno.1 hno.2).elim

theorem Mail.enter {data : Int} (h : Mail K s) (hi : Inv s) (hk : s.tasks s.current = some k)
    (hr : k.state = .running) (hkont : k.kont = .iret) (hq : s.mqueues id = some q)
    (hroom : q.count ≠ q.size) (hnone : s.queues.members (.waitingReceivers id) = []) :
    Mail K (((s.called id ⟨data, s.sends⟩).setTask s.current
      { k with msgVal := ⟨data, s.sends⟩ }).entered id q ⟨data, s.sends⟩) := by
  have hbooks : Books (Function.update s.mqueues id (some (q.add ⟨data, s.sends⟩))) (s.sends + 1)
      (.entered id ⟨data, s.sends⟩ :: .psend id ⟨data, s.sends⟩ :: s.trace) :=
    h.books.psend.add hq hroom List.mem_cons_self
      (h.books.fresh_not_entered.grow (O := [_]) (by simp [Obs.Spares]))
  refine h.current (O := [.entered id ⟨data, s.sends⟩, .psend id ⟨data, s.sends⟩]) hi hk hr rfl
    rfl hr rfl rfl update_isSome (waiters_update h.senders fun hl => ?_)
    (waiters_update h.receivers fun hl => absurd hl.choose_spec (no_link hnone)) hbooks
    (by rw [hkont]; rfl) (.silent (by rw [hkont]; trivial)) ?_ (by simp) (by simp) fun _ j m hh => ?_
  · exact absurd (h.senders _ id q hl.choose_spec hq) hroom
  · intro t kont v n _ hin hn o ho
    refine h.spares_new (i := id) (m := ⟨data, s.sends⟩) ?_ rfl hin hn
    rcases List.mem_cons.mp ho with rfl | ho
    · exact Or.inr (Or.inl rfl)
    · exact Or.inl (List.mem_singleton.mp ho)
  · exact absurd ⟨k, hk, by rw [hr]; decide, hh⟩ (not_held_iret hk hkont)

theorem Mail.hand {data : Int} (h : Mail K s) (hq : (s.mqueues id).isSome)
    (hl : s.queues.link last = some (.waitingReceivers id)) (hk : s.tasks last = some l)
    (hK : K → ∀ p rst, l.kont = .preceiveLoop id p rst → rst = s.cptRst) :
    Mail K (s.handed id ⟨data, s.sends⟩ last l) := by
  obtain ⟨q, hq⟩ := Option.isSome_iff_exists.mp hq
  obtain ⟨p, rst, hz, hkont, hd, hrst, hgood⟩ := h.receiver hl hk
  have hself : (s.handed id ⟨data, s.sends⟩ last l).tasks last =
      some { l with msgVal := ⟨data, s.sends⟩, state := .ready } := setTask_tasks_self
  have hout (u : TaskPtr) (hu : u ≠ last) :
      (s.handed id ⟨data, s.sends⟩ last l).tasks u = s.tasks u := setTask_tasks_of_ne hu
  have hlink (u : TaskPtr) (hu : u ≠ last) :
      (s.handed id ⟨data, s.sends⟩ last l).queues.link u = s.queues.link u := move_link_of_ne hu
  have hready : (s.handed id ⟨data, s.sends⟩ last l).queues.link last = some .ready := move_link_self
  have old {u : TaskPtr} {hd : Head} (hs : hd ≠ .ready)
      (hu : (s.handed id ⟨data, s.sends⟩ last l).queues.link u = some hd) :
      s.queues.link u = some hd := by
    by_cases he : u = last
    · rw [he, hready] at hu
      cases hu
      exact absurd rfl hs
    · rwa [hlink u he] at hu
  have mine {kont : Kont} {v : Msg} : (s.handed id ⟨data, s.sends⟩ last l).Inside last kont v ↔
      l.kont = kont ∧ ⟨data, s.sends⟩ = v := inside_iff hself nofun
  have hbooks : Books s.mqueues (s.sends + 1) (.taken id ⟨data, s.sends⟩ ::
      .entered id ⟨data, s.sends⟩ :: .psend id ⟨data, s.sends⟩ :: s.trace) :=
    h.books.psend.pass hq (h.receivers last id q hl hq) List.mem_cons_self
      (h.books.fresh_not_entered.grow (O := [_]) (by simp [Obs.Spares]))
  refine ⟨.step (X := (· = last)) (O := [.taken id ⟨data, s.sends⟩, .entered id ⟨data, s.sends⟩,
    .psend id ⟨data, s.sends⟩]) h rfl rfl (fun _ h => h) (fun u hu => ⟨hout u hu, hlink u hu⟩)
    ?_ ?_ ?_ ?_ ?_ ?_ ?_, .step (O := [.taken id ⟨data, s.sends⟩, .entered id ⟨data, s.sends⟩,
    .psend id ⟨data, s.sends⟩]) h rfl (by simp) ?_ ?_, hbooks⟩
  · intro t kont v n _ hin hn o ho
    refine h.spares_new (i := id) (m := ⟨data, s.sends⟩) ?_ rfl hin hn
    simp only [List.mem_cons, List.not_mem_nil, or_false] at ho
    rcases ho with rfl | rfl | rfl <;> simp
  · intro t j r hl hr
    exact h.senders t j r (old nofun hl) hr
  · intro t j r hl hr
    exact h.receivers t j r (old nofun hl) hr
  · rintro t j rfl hl
    rw [hready] at hl
    cases hl
  · rintro t j rfl hl
    rw [hready] at hl
    cases hl
  · rintro t kont v rfl hin
    obtain ⟨rfl, rfl⟩ := mine.mp hin
    rw [hkont]
    refine ⟨hrst, hgood, fun _ => ⟨List.mem_cons_self, ?_, fun hk' => Or.inr ⟨hK hk' p rst hkont, ?_⟩⟩⟩
    · exact h.new_not_gone (O := [_, _, _]) (by simp)
    · exact Option.isSome_iff_exists.mpr ⟨q, hq⟩
  · rintro t u kont kont' v v' n rfl hin hin' hn hn'
    obtain ⟨rfl, rfl⟩ := mine.mp hin
    by_contra hne
    have hlt := h.carries_lt ((inside_congr (hout u (Ne.symm hne))).mp hin') hn'
    simp only [hkont, Kont.carries] at hn
    split at hn
    · cases hn
    · cases hn
      exact Nat.lt_irrefl _ hlt
  · intro _ j m hm hdm
    obtain ⟨rfl, rfl⟩ : j = id ∧ m = ⟨data, s.sends⟩ := by simpa using hm
    exact Or.inl ⟨last, _, hself, nofun, Or.inl ⟨p, rst, hkont, rfl, hdm⟩⟩
  · intro _ t j m hh
    by_cases ht : t = last
    · subst ht
      obtain ⟨l', hl', _, hold⟩ := hh
      rw [hk] at hl'
      cases hl'
      rcases hold with ⟨p', rst', _, hv, hdm⟩ | ⟨p', he⟩
      · exact absurd (hv ▸ hd) hdm
      · rw [hkont] at he
        cases he
    · exact Or.inl ⟨t, (held_congr (hout t ht)).mpr hh⟩

/-- What is left when a receiver has taken the first message of a full queue and let in that of the
sender `last`. -/
structure Exchange (s s' : State) (id : Nat) (q : MQueue) (msg : Msg) (last : TaskPtr) (k l : Task)
    (p : UserPtr) : Prop where
  self : s'.tasks s.current = some { k with kont := .preceiveRet id p msg }
  that : s'.tasks last = some { l with msgVal := .none, state := .ready }
  out : ∀ u, ¬ (u = s.current ∨ u = last) →
    s'.tasks u = s.tasks u ∧ s'.queues.link u = s.queues.link u
  run : s'.queues.link s.current = none
  ready : s'.queues.link last = some .ready
  trace : s'.trace = [.entered id l.msgVal, .taken id msg] ++ s.trace
  mqueues : s'.mqueues = Function.update s.mqueues id (some q)
  cptRst : s'.cptRst = s.cptRst
  sends : s'.sends = s.sends

theorem exchanged_exchange {p : UserPtr} {c : Ctl} (hne : last ≠ s.current)
    (hrun : s.queues.link s.current = none) : Exchange s
      ((s.exchanged id q msg last l).wentOn k (.preceiveRet id p msg) c) id q msg last k l p := by
  generalize hw : s.exchanged id q msg last l = w
  have hcur : w.current = s.current := by rw [← hw, exchanged_current]
  have hqueues : w.queues = (s.woken last { l with msgVal := .none }).queues := by
    rw [← hw]
    rfl
  have htasks : w.tasks = Function.update s.tasks last
      (some { l with msgVal := .none, state := .ready }) := by rw [← hw, exchanged_tasks]
  have hout (u : TaskPtr) (hu : u ≠ s.current) :
      (w.wentOn k (.preceiveRet id p msg) c).tasks u = w.tasks u :=
    wentOn_of_ne (by rwa [hcur])
  have hlink (u : TaskPtr) (hu : u ≠ last) :
      (w.wentOn k (.preceiveRet id p msg) c).queues.link u = s.queues.link u := by
    change w.queues.link u = _
    rw [hqueues]
    exact move_link_of_ne hu
  refine ⟨?_, ?_, fun u hu => ?_, (hlink _ (Ne.symm hne)).trans hrun, ?_, ?_, ?_, ?_, ?_⟩
  · rw [← hcur]
    exact wentOn_self
  · rw [hout last hne, htasks]
    exact Function.update_self ..
  · obtain ⟨h1, h2⟩ := not_or.mp hu
    refine ⟨?_, hlink u h2⟩
    rw [hout u h1, htasks]
    exact Function.update_of_ne h2 ..
  · change w.queues.link last = _
    rw [hqueues]
    exact move_link_self
  · change w.trace = _
    rw [← hw, exchanged_trace]
    rfl
  · change w.mqueues = _
    rw [← hw, exchanged_mqueues]
  · change w.cptRst = _
    rw [← hw, exchanged_cptRst]
  · change w.sends = _
    rw [← hw, exchanged_sends]

namespace Exchange
variable {p : UserPtr}

theorem old (e : Exchange s s' id q msg last k l p) (hh : h ≠ .ready)
    (hu : s'.queues.link u = some h) : s.queues.link u = some h := by
  by_cases h1 : u = s.current
  · rw [h1, e.run] at hu
    cases hu
  · by_cases h2 : u = last
    · rw [h2, e.ready] at hu
      cases hu
      exact absurd rfl hh
    · rwa [(e.out u (not_or.mpr ⟨h1, h2⟩)).2] at hu

theorem not_waiting (e : Exchange s s' id q msg last k l p) (hu : u = s.current ∨ u = last)
    (hh : h ≠ .ready) : s'.queues.link u ≠ some h := by
  intro hl
  rcases hu with rfl | rfl
  · rw [e.run] at hl
    cases hl
  · rw [e.ready] at hl
    cases hl
    exact hh rfl

theorem self_inside (e : Exchange s s' id q msg last k l p) (hr : k.state = .running) :
    s'.Inside s.current kont v ↔ .preceiveRet id p msg = kont ∧ k.msgVal = v :=
  inside_iff e.self (by rw [hr]; decide)

theorem that_inside (e : Exchange s s' id q msg last k l p) :
    s'.Inside last kont v ↔ l.kont = kont ∧ Msg.none = v := inside_iff e.that nofun

theorem fact {rst : Nat} (e : Exchange s s' id q msg last k l p) (h : Mail K s)
    (hr : k.state = .running) (hp : K → p.Good) (hheld : msg ∈ held id s.trace)
    (hlk : l.kont = .psendLoop id l.msgVal rst) (hrst : rst ≤ s.cptRst)
    (ht : u = s.current ∨ u = last) (hin : s'.Inside u kont v) : s'.Fact K u kont v := by
  rcases ht with rfl | rfl
  · obtain ⟨rfl, rfl⟩ := (e.self_inside hr).mp hin
    refine ⟨hp, by rw [e.trace]; simp, ?_⟩
    rw [e.trace]
    exact ((h.books.stored id msg hheld).cons (by simp)).cons (by simp)
  · obtain ⟨rfl, rfl⟩ := e.that_inside.mp hin
    rw [hlk]
    exact ⟨by rw [e.cptRst]; exact hrst, Or.inr (Or.inl rfl),
      Or.inl ⟨rfl, by rw [e.trace]; simp⟩⟩

theorem alone {n : Nat} {rst : Nat} (e : Exchange s s' id q msg last k l p) (h : Mail K s)
    (hr : k.state = .running) (hheld : msg ∈ held id s.trace)
    (hlk : l.kont = .psendLoop id l.msgVal rst) (ht : t = s.current ∨ t = last)
    (hin : s'.Inside t kont v) (hin' : s'.Inside u kont' v') (hn : kont.carries v = some n)
    (hn' : kont'.carries v' = some n) : t = u := by
  have nothing {n : Nat} : l.kont.carries Msg.none ≠ some n := by
    rw [hlk]
    nofun
  rcases ht with rfl | rfl
  · obtain ⟨rfl, rfl⟩ := (e.self_inside hr).mp hin
    cases hn
    by_contra hu
    by_cases hul : u = last
    · subst hul
      obtain ⟨rfl, rfl⟩ := e.that_inside.mp hin'
      exact nothing hn'
    · refine h.carries_ne hheld ((inside_congr (e.out u ?_).1).mp hin') hn'
      exact not_or.mpr ⟨Ne.symm hu, hul⟩
  · obtain ⟨rfl, rfl⟩ := e.that_inside.mp hin
    exact absurd hn nothing

theorem kept {rst : Nat} (e : Exchange s s' id q msg last k l p) (h : Mail K s)
    (hk : s.tasks s.current = some k) (hr : k.state = .running) (hkont : k.kont = .iret)
    (hl : s.tasks last = some l) (hlk : l.kont = .psendLoop id l.msgVal rst) : Kept K s' := by
  refine .step h e.trace (by simp) ?_ ?_
  · intro _ j m hm' _
    obtain ⟨rfl, rfl⟩ : j = id ∧ m = msg := by simpa using hm'
    exact Or.inl ⟨s.current, _, e.self, by rw [hr]; decide, Or.inr ⟨p, rfl⟩⟩
  · intro _ t j m hh
    by_cases h1 : t = s.current
    · subst h1
      exact absurd hh (not_held_iret hk hkont)
    · by_cases h2 : t = last
      · subst h2
        obtain ⟨l', hl', _, hold⟩ := hh
        rw [hl] at hl'
        cases hl'
        rcases hold with ⟨p', rst', he, _⟩ | ⟨p', he⟩ <;> rw [hlk] at he <;> cases he
      · exact Or.inl ⟨t, (held_congr (e.out t (not_or.mpr ⟨h1, h2⟩)).1).mpr hh⟩

end Exchange

theorem Mail.exchange_books {rest : List Msg} (h : Mail K s) (hq : s.mqueues id = some q)
    (hfull : q.count = q.size) (hm : q.msgs = msg :: rest) (hpsend : .psend id v ∈ s.trace)
    (hnot : NotEntered v s.trace) : Books (Function.update s.mqueues id (some ((q.pop rest).add v)))
      s.sends (.entered id v :: .taken id msg :: s.trace) := by
  obtain ⟨hcount, _, _⟩ := h.books.counted id q hq
  have hroom : (q.pop rest).count < (q.pop rest).size := by
    rw [Books.pop_count hcount hm, Books.pop_size, ← hfull, hcount, hm, List.length_cons]
    omega
  have hb := (h.books.pop hq hm).add (m := v) (Function.update_self ..) (ne_of_lt hroom)
    (List.mem_cons_of_mem _ hpsend) (hnot.grow (O := [_]) (by simp [Obs.Spares]))
  rwa [Function.update_idem] at hb

theorem Mail.exchange {p : UserPtr} {rest : List Msg} {c : Ctl} (h : Mail K s) (hi : Inv s)
    (hk : s.tasks s.current = some k) (hr : k.state = .running) (hkont : k.kont = .iret)
    (hq : s.mqueues id = some q) (hfull : q.count = q.size) (hm : q.msgs = msg :: rest)
    (hlast : s.queues.link last = some (.waitingSenders id)) (hl : s.tasks last = some l)
    (hp : K → p.Good) :
    Mail K ((s.exchanged id ((q.pop rest).add l.msgVal) msg last l).wentOn k
      (.preceiveRet id p msg) c) := by
  obtain ⟨rst, hz, hlk, hd, hrst, hpsend, hnot⟩ := h.sender hlast hl
  obtain ⟨hcount, _, _⟩ := h.books.counted id q hq
  have hlen : q.count = rest.length + 1 := by rw [hcount, hm, List.length_cons]
  have hrun := hi.unlinked_current hk hr
  have hne : last ≠ s.current := by
    rintro he
    rw [he, hrun] at hlast
    cases hlast
  have hheld : msg ∈ held id s.trace := by
    rw [h.books.held_eq hq, hm]
    simp
  have hbooks := h.exchange_books hq hfull hm hpsend hnot
  have e : Exchange s ((s.exchanged id ((q.pop rest).add l.msgVal) msg last l).wentOn k
      (.preceiveRet id p msg) c) id ((q.pop rest).add l.msgVal) msg last k l p :=
    exchanged_exchange hne hrun
  refine ⟨.step (X := fun u => u = s.current ∨ u = last) h e.trace e.cptRst
    (fun j hj => by rw [e.mqueues]; exact update_isSome j hj) e.out ?_ ?_ ?_
    (fun t j hx hu => absurd hu (e.not_waiting hx nofun))
    (fun t j hx hu => absurd hu (e.not_waiting hx nofun))
    (fun t kont v hx hin => e.fact h hr hp hheld hlk hrst hx hin)
    (fun t u kont kont' v v' n hx hin hin' hn hn' => e.alone h hr hheld hlk hx hin hin' hn hn'),
    e.kept h hk hr hkont hl hlk, by rw [e.mqueues, e.sends, e.trace]; exact hbooks⟩
  · intro t kont v n hx hin hn o ho
    simp only [List.mem_cons, List.not_mem_nil, or_false] at ho
    rcases ho with rfl | rfl
    · rintro rfl
      refine (not_or.mp hx).2 (h.alone t last kont l.kont v l.msgVal _ hin
        ⟨l, hl, hz, rfl, rfl⟩ hn ?_)
      rw [hlk]
      exact if_neg hd
    · trivial
  · intro t j r hu hr
    rw [e.mqueues] at hr
    refine waiters_update h.senders (fun _ => ?_) t j r (e.old nofun hu) hr
    change (q.pop rest).count + 1 = q.size
    rw [Books.pop_count hcount hm, ← hfull, hlen]
  · intro t j r hu hr
    rw [e.mqueues] at hr
    refine waiters_update h.receivers (fun hw => ?_) t j r (e.old nofun hu) hr
    exact absurd hw.choose_spec (h.no_receivers hq (by rw [hlen]; omega))

theorem Talk.mail (e : Talk T K R L s s') (hi : Inv s) (h : Mail K s) : Mail K s' := by
  cases e with
  | hand _ _ _ hq htop hl _ hK => exact h.hand hq (Links.link_of_mem (queueTop_mem htop)) hl hK
  | told hk hr hkont _ he => exact h.told hi hk hr hkont he
  | sendBlock _ hk _ hkont _ hq hfull hd => exact h.sendBlock hk hkont hq hfull hd
  | sendAgain _ hk hr hkont _ hq hfull hd => exact h.sendAgain hk hr hkont hq hfull hd
  | enter hk hr hkont hq hroom hnone => exact h.enter hi hk hr hkont hq hroom hnone
  | unsent hk hr hkont => exact h.unsent hi hk hr hkont
  | sent hs => exact h.sent hs
  | consume hk hr hK => exact h.consume hi hk hr hK
  | lost hk hr hkont hd hrst => exact h.lost hi hk hr hkont hd hrst
  | received hk hr hh => exact h.received hi hk hr hh
  | receiveBlock _ hk _ _ hq hempty hd hrst hp hK =>
    exact h.receiveBlock hk hq hempty hd hrst hp hK
  | exchange hk hr hkont _ hq hfull hm htop hl _ hp _ =>
    exact h.exchange hi hk hr hkont hq hfull hm (Links.link_of_mem (queueTop_mem htop)) hl hp
  | take hq hm hs _ => exact h.take hq hm hs
  | spill hK hq hm hs _ => exact h.spill hK hq hm hs
  | release hl _ hm _ _ hrst => exact h.release hl hm hrst
  | bump _ hK => exact h.bump hK
  | empty hq hs hr hafter hrst _ => exact h.empty hq hs hr hafter hrst
  | create hq _ hc _ => exact h.create hi hq hc

theorem Move.mail (m : Move T D K R L B s s') (hi : Inv s) (h : Mail K s) : Mail K s' := by
  cases m with
  | plain e => exact h.undisturbed (e.undisturbed hi)
  | talk e => exact e.mail hi h

theorem Moves.mail (m : Moves T D K R L B s s') (hi : Inv s) (h : Mail K s) : Mail K s' := by
  induction m with
  | refl => exact h
  | tail hab hbc ih => exact hbc.mail (Moves.inv hab hi) ih

end State
end DominOS.Process
