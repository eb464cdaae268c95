import DominOS.ProcessOrder
import DominOS.Rotation

/-! The running task and the ready ones of its priority take turns, a tick of the clock each. -/
namespace DominOS.Process
open IntrusiveLists Fallible Relation Runs Rotation
namespace State
variable {s s' w : State} {t u : TaskPtr} {k c : Task} {p : Int} {n : Nat}

def equals (s : State) (p : Int) : List TaskPtr :=
  ((s.queues.members .ready).filter fun t => s.priorityOf t = p).reverse

def ring (s : State) : List TaskPtr := s.current :: s.equals (s.priorityOf s.current)

def NoneDue (s : State) (i : Nat) : Prop :=
  ∀ t ∈ s.queues.members .sleeping, ∀ k, s.tasks t = some k →
    (s.totalTicks + i) % 2 ^ 32 < k.wakeTime

def Ticked (s s' : State) : Prop :=
  ∃ s₁ s₂, step .tick s = .ok s₁ ∧ step .kernel s₁ = .ok s₂ ∧ s'.ctl = .user ∧
    (s₂ = s' ∨ step .kernel s₂ = .ok s')

section Same

structure SameTurns (s s' : State) : Prop where
  current : s'.current = s.current
  ready : s'.queues.members .ready = s.queues.members .ready
  sleeping : s'.queues.members .sleeping = s.queues.members .sleeping
  tasks : ∀ t, t = s.current ∨ t ∈ s.queues.members .ready ∨ t ∈ s.queues.members .sleeping →
    (s'.tasks t).map (fun k => (k.priority, k.wakeTime)) =
      (s.tasks t).map (fun k => (k.priority, k.wakeTime))

theorem SameTurns.refl (s : State) : s.SameTurns s := ⟨rfl, rfl, rfl, fun _ _ => rfl⟩

theorem SameTurns.trans (h : s.SameTurns w) (h' : w.SameTurns s') : s.SameTurns s' where
  current := h'.current.trans h.current
  ready := h'.ready.trans h.ready
  sleeping := h'.sleeping.trans h.sleeping
  tasks t ht := by
    refine (h'.tasks t ?_).trans (h.tasks t ht)
    rw [h.current, h.ready, h.sleeping]
    exact ht

theorem SameTurns.priorityOf (h : s.SameTurns s')
    (ht : t = s.current ∨ t ∈ s.queues.members .ready) : s'.priorityOf t = s.priorityOf t := by
  have hm := h.tasks t (ht.imp_right Or.inl)
  unfold State.priorityOf
  cases hs : s.tasks t with
  | none =>
    rw [hs, Option.map_none, Option.map_eq_none_iff] at hm
    rw [hm]
  | some k =>
    rw [hs] at hm
    obtain ⟨k', hk', he⟩ := Option.map_eq_some_iff.mp hm
    rw [hk']
    exact congrArg Prod.fst he

theorem SameTurns.ring (h : s.SameTurns s') : s'.ring = s.ring := by
  have hcur : s'.priorityOf s.current = s.priorityOf s.current := h.priorityOf (Or.inl rfl)
  have hfilter : (s.queues.members .ready).filter (fun t => s'.priorityOf t = s.priorityOf s.current) =
      (s.queues.members .ready).filter (fun t => s.priorityOf t = s.priorityOf s.current) := by
    refine List.filter_congr fun t ht => ?_
    rw [h.priorityOf (Or.inr ht)]
  unfold State.ring equals
  rw [h.current, h.ready, hcur, hfilter]

theorem SameTurns.topped (h : s.SameTurns s') (ht : s.Topped) : s'.Topped := by
  intro t hl
  have hm : t ∈ s.queues.members .ready := by
    rw [← h.ready]
    exact Links.mem_of_link hl
  rw [h.current, h.priorityOf (Or.inr hm), h.priorityOf (Or.inl rfl)]
  exact ht t (Links.link_of_mem hm)

theorem SameTurns.noneDue {i j : Nat} (h : s.SameTurns s')
    (hc : (s'.totalTicks + i) % 2 ^ 32 = (s.totalTicks + j) % 2 ^ 32) (hd : s.NoneDue j) :
    s'.NoneDue i := by
  intro t ht k' hk'
  rw [h.sleeping] at ht
  have hm := h.tasks t (Or.inr (Or.inr ht))
  rw [hk'] at hm
  obtain ⟨k, hk, he⟩ := Option.map_eq_some_iff.mp hm.symm
  have hw : k.wakeTime = k'.wakeTime := congrArg Prod.snd he
  rw [hc, ← hw]
  exact hd t ht k hk

theorem SameTurns.setTask {k' : Task} (hk : s.tasks t = some k) (hp : k'.priority = k.priority)
    (hw : k'.wakeTime = k.wakeTime) : s.SameTurns (s.setTask t k') where
  current := rfl
  ready := rfl
  sleeping := rfl
  tasks u _ := by
    by_cases hu : u = t
    · subst hu
      rw [setTask_tasks_self, hk]
      simp [hp, hw]
    · rw [setTask_tasks_of_ne hu]

theorem SameTurns.of_eq (hc : s'.current = s.current) (hq : s'.queues = s.queues)
    (ht : s'.tasks = s.tasks) : s.SameTurns s' :=
  ⟨hc, by rw [hq], by rw [hq], fun t _ => by rw [ht]⟩

theorem SameTurns.freed (hl : s.queues.link t = some .zombie) (hc : t ≠ s.current) :
    s.SameTurns (s.freed t) := by
  have hnot {h : Head} (hh : h ≠ .zombie) : t ∉ s.queues.members h := by
    rw [s.queues.mem_iff, hl]
    exact fun he => hh (Option.some.inj he).symm
  refine ⟨rfl, List.erase_of_not_mem (hnot (by decide)), List.erase_of_not_mem (hnot (by decide)),
    fun u hu => ?_⟩
  have hne : u ≠ t := by
    intro he
    subst he
    rcases hu with rfl | hu | hu
    · exact hc rfl
    · exact hnot (by decide) hu
    · exact hnot (by decide) hu
  rw [freed_tasks_of_ne hne]

theorem goOn_same {x : Ctl} {kont : Kont} (h : s.goOn x kont = .ok s') :
    s.SameTurns s' ∧ s'.totalTicks = s.totalTicks := by
  unfold goOn at h
  obtain ⟨k, hk, h⟩ := bind_ok.mp h
  cases h
  have hset : s.SameTurns (s.setTask s.current { k with kont := kont }) :=
    .setTask (task_some hk) rfl rfl
  exact ⟨hset.trans (.of_eq rfl rfl rfl), rfl⟩

end Same

section Resume

def Returns (s : State) (x : Except Fault State) : Prop :=
  ∀ s', x = .ok s' → s'.ctl = .user → s.SameTurns s' ∧ s'.totalTicks = s.totalTicks

theorem Returns.busy {x : Except Fault State} (h : ∀ s', x = .ok s' → s'.ctl ≠ .user) :
    s.Returns x := fun s' hx hu => absurd hu (h s' hx)

theorem Returns.same {x : Except Fault State} (h : w.Returns x) (hs : s.SameTurns w)
    (hc : w.totalTicks = s.totalTicks) : s.Returns x := by
  intro s' hx hu
  obtain ⟨h1, h2⟩ := h s' hx hu
  exact ⟨hs.trans h1, h2.trans hc⟩

theorem Returns.bind {α : Type} {x : Except Fault α} {f : α → Except Fault State}
    (h : ∀ a, x = .ok a → s.Returns (f a)) : s.Returns (x >>= f) := by
  intro s' hx hu
  obtain ⟨a, ha, hf⟩ := bind_ok.mp hx
  exact h a ha s' hf hu

theorem Returns.ret {v : Int} : s.Returns (s.ret v) := by
  intro s' h _
  cases h
  exact ⟨.of_eq rfl rfl rfl, rfl⟩

theorem callSchedule_busy {kont : Kont} : s.Returns (w.callSchedule kont) :=
  .busy fun s' h => by rw [goOn_ctl h]; decide

theorem pageFault_busy : s.Returns w.pageFault :=
  .busy fun s' h => by rw [pageFault_ctl h]; decide

theorem setTaskInterruptedMsg_busy {kont : Kont} : s.Returns (w.setTaskInterruptedMsg t kont) :=
  .bind fun _ _ => callSchedule_busy

theorem setTaskReadyOrRunning_busy {kont : Kont} : s.Returns (w.setTaskReadyOrRunning t kont) := by
  refine .bind fun _ _ => .bind fun _ _ => .bind fun _ _ => .busy fun s' h => ?_
  split at h
  · rw [goOn_ctl h]
    decide
  · rw [goOn_ctl h]
    decide

theorem observe_same {o : Obs} : s.SameTurns (s.observe o) := .of_eq rfl rfl rfl

theorem setMsgVal_same {msg : Msg} (h : s.setMsgVal t msg = .ok s') :
    s.SameTurns s' ∧ s'.totalTicks = s.totalTicks := by
  unfold setMsgVal at h
  obtain ⟨k, hk, h⟩ := bind_ok.mp h
  cases h
  exact ⟨.setTask (task_some hk) rfl rfl, rfl⟩

theorem startRet_returns : s.Returns (s.startRet t) := by
  unfold startRet
  split
  · intro s' h _
    cases h
    exact ⟨.of_eq rfl rfl rfl, rfl⟩
  · exact Returns.ret.same observe_same rfl

theorem reapChild_returns (hi : Inv s) (hk : s.tasks t = some k) (hz : k.state = .zombie)
    (hr : s.Running) : s.Returns (s.reapChild t) := by
  obtain ⟨c, hc, hrun⟩ := hr
  have hl : s.queues.link t = some .zombie :=
    (hi.home t k hk).link_eq hz.symm (by rw [hz]; decide)
  have hne : t ≠ s.current := ne_of_state hk hc (by rw [hz, hrun]; decide)
  refine .bind fun _ _ => .bind fun w hw => ?_
  have hfreed : w = s.freed t := (freeTask_spec (A := False) (D := False) hi nofun).elim hw
  subst hfreed
  exact Returns.ret.same ((SameTurns.freed hl hne).trans observe_same) rfl

theorem waitAnyChild_returns {r : UserPtr} (hi : Inv s) (hr : s.Running) :
    s.Returns (s.waitAnyChild r) := by
  unfold waitAnyChild
  split
  · exact .ret
  · refine .bind fun o ho => ?_
    obtain ⟨o', ho', hsome, _⟩ := findZombie_spec (s := s) (l := s.siblings.members s.current)
      fun t ht => by
        obtain ⟨k, hk, _⟩ := (hi.children t s.current).mp (Links.link_of_mem ht)
        exact ⟨k, hk⟩
    rw [ho] at ho'
    cases ho'
    cases o with
    | none => exact .bind fun _ _ => callSchedule_busy
    | some child =>
      obtain ⟨_, k, hk, hz⟩ := hsome child rfl
      exact reapChild_returns hi hk hz hr

theorem waitSpecificChild_returns {r : UserPtr} (hi : Inv s) (hr : s.Running) :
    s.Returns (s.waitSpecificChild t r) := by
  refine .bind fun b hb => ?_
  split
  · rename_i hz
    obtain ⟨k, hk, hzombie⟩ := isZombie_post.elim hb hz
    exact reapChild_returns hi hk hzombie hr
  · exact .bind fun _ _ => callSchedule_busy

theorem psendRet_returns {id : Nat} {msg : Msg} : s.Returns (s.psendRet id msg) :=
  Returns.ret.same observe_same rfl

theorem psendAdd_returns {id : Nat} {msg : Msg} : s.Returns (s.psendAdd id msg) := by
  unfold psendAdd
  split
  · exact pageFault_busy
  · exact psendRet_returns.same (.of_eq rfl rfl rfl) rfl

theorem psendLoop_returns {id rst : Nat} {msg : Msg} : s.Returns (s.psendLoop id msg rst) := by
  unfold psendLoop
  split
  · exact pageFault_busy
  · refine .bind fun k _ => ?_
    split
    · exact .bind fun _ _ => setTaskInterruptedMsg_busy
    · split
      · exact .ret
      · split
        · exact psendRet_returns
        · split
          · exact psendAdd_returns
          · exact .bind fun _ _ => setTaskReadyOrRunning_busy

theorem preceiveRet_returns {id : Nat} {message : UserPtr} {msg : Msg} :
    s.Returns (s.preceiveRet id message msg) := by
  unfold preceiveRet
  split
  · exact Returns.ret.same observe_same rfl
  · exact Returns.ret.same observe_same rfl
  · exact pageFault_busy
  · exact .busy nofun

theorem observeLost_same {id : Nat} {msg : Msg} : s.SameTurns (s.observeLost id msg) ∧
    (s.observeLost id msg).totalTicks = s.totalTicks := by
  unfold observeLost
  split
  · exact ⟨.refl s, rfl⟩
  · exact ⟨observe_same, rfl⟩

theorem preceiveLoop_returns {id rst : Nat} {message : UserPtr} :
    s.Returns (s.preceiveLoop id message rst) := by
  unfold preceiveLoop
  refine .bind fun k _ => ?_
  obtain ⟨hlost, hclock⟩ : s.SameTurns (s.observeLost id k.msgVal) ∧
    (s.observeLost id k.msgVal).totalTicks = s.totalTicks := observeLost_same
  split
  · exact pageFault_busy
  · split
    · exact .bind fun _ _ => setTaskInterruptedMsg_busy
    · split
      · exact Returns.ret.same hlost hclock
      · split
        · refine .bind fun w hw => ?_
          obtain ⟨h1, h2⟩ := setMsgVal_same hw
          exact preceiveRet_returns.same h1 h2
        · split
          · refine .bind fun _ _ => .bind fun sender _ => ?_
            rw [if_neg fun hno => hno.1 rfl]
            split
            · exact pageFault_busy
            · exact .bind fun _ _ => setTaskReadyOrRunning_busy
          · split
            · exact pageFault_busy
            · exact preceiveRet_returns.same (.of_eq rfl rfl rfl) rfl

/-- A task that is resumed and gets back to user code at once has changed nothing for the others. -/
theorem resume_returns (hi : Inv s) (hr : s.Running) : s.Returns s.resume := by
  refine .bind fun k hk => ?_
  obtain ⟨k', hk', hrun⟩ := hr
  have hk := task_some hk
  rw [hk] at hk'
  cases hk'
  have hsame : s.SameTurns (s.consumed k) := .setTask hk rfl rfl
  have m : Moves False False False False False AnyStart s (s.consumed k) :=
    consume_moves hk hrun nofun
  have hi' : Inv (s.consumed k) := m.inv hi
  have hr' : (s.consumed k).Running := ⟨_, consumed_self, hrun⟩
  refine Returns.same (w := s.consumed k) ?_ hsame rfl
  change (s.consumed k).Returns ((s.consumed k).resumeAt k.kont)
  unfold resumeAt
  split
  · intro s' h _
    cases h
    exact ⟨.of_eq rfl rfl rfl, rfl⟩
  · exact .ret
  · exact startRet_returns
  · exact waitAnyChild_returns hi' hr'
  · exact waitSpecificChild_returns hi' hr'
  · exact psendLoop_returns
  · exact psendAdd_returns
  · exact psendRet_returns
  · exact preceiveLoop_returns
  · exact preceiveRet_returns
  · exact .busy nofun

end Resume

section Schedule

theorem tryWakeupTasks_none (hi : Inv s)
    (hd : ∀ t ∈ s.queues.members .sleeping, ∀ k, s.tasks t = some k → s.totalTicks < k.wakeTime) :
    s.tryWakeupTasks = .ok s := by
  unfold tryWakeupTasks
  have main (l : List TaskPtr) (hl : ∀ t ∈ l, t ∈ s.queues.members .sleeping) :
      l.foldlM wakeup s = .ok s := by
    induction l with
    | nil => rfl
    | cons t l ih =>
      obtain ⟨k, hk, _⟩ := hi.live (hl t (by simp))
      rw [List.foldlM_cons, wakeup_early hk (hd t (hl t (by simp)) k hk), ok_bind]
      exact ih fun u hu => hl u (by simp [hu])
  exact main _ fun _ h => h

theorem reap_same (h : s.reap t = .ok s') :
    s' = s ∨ s' = s.freed t ∧ t ≠ s.current := by
  have hfree (hc : t ≠ s.current) (hf : s.freeTask t = .ok s') : s' = s.freed t ∧ t ≠ s.current := by
    rw [freeTask_eq] at hf
    split at hf
    · cases hf
      exact ⟨rfl, hc⟩
    · cases hf
  unfold reap at h
  obtain ⟨k, _, h⟩ := bind_ok.mp h
  split at h
  · cases h
    exact Or.inl rfl
  · rename_i hc
    split at h
    · exact Or.inr (hfree hc h)
    · split at h
      · cases h
      · obtain ⟨l, _, h⟩ := bind_ok.mp h
        split at h
        · exact Or.inr (hfree hc h)
        · cases h
          exact Or.inl rfl

theorem reapZombies_same (h : s.reapZombies = .ok s') :
    s.SameTurns s' ∧ s'.totalTicks = s.totalTicks := by
  have hpost : Post (fun _ => False) s.reapZombies fun s' =>
      (s.SameTurns s' ∧ s'.totalTicks = s.totalTicks) ∧ ([] : List TaskPtr).Nodup ∧
        ∀ t ∈ ([] : List TaskPtr), s'.queues.link t = some .zombie := by
    refine Post.foldlM (fun _ rest s' => (s.SameTurns s' ∧ s'.totalTicks = s.totalTicks) ∧
      rest.Nodup ∧ ∀ t ∈ rest, s'.queues.link t = some .zombie) ?_ ?_
    · exact ⟨⟨.refl s, rfl⟩, s.queues.nodup _, fun t ht => Links.link_of_mem ht⟩
    · intro done t rest w ⟨⟨hs, hc⟩, hn, hl⟩
      obtain ⟨hnt, hn⟩ := List.nodup_cons.mp hn
      have hlt := hl t (by simp)
      cases hr : w.reap t with
      | error e => exact .error nofun
      | ok w' =>
        refine .ok ?_
        rcases reap_same hr with rfl | ⟨rfl, hcur⟩
        · exact ⟨⟨hs, hc⟩, hn, fun u hu => hl u (by simp [hu])⟩
        · refine ⟨⟨hs.trans (.freed hlt hcur), hc⟩, hn, fun u hu => ?_⟩
          have hne : u ≠ t := fun he => hnt (he ▸ hu)
          exact (Links.link_erase_of_ne hne).trans (hl u (by simp [hu]))
  exact (hpost.elim h).1

theorem setTask_priorityOf {k' : Task} (hk : s.tasks t = some k) (hp : k'.priority = k.priority) :
    (s.setTask t k').priorityOf = s.priorityOf := by
  funext u
  by_cases hu : u = t
  · rw [hu, priorityOf_eq setTask_tasks_self, priorityOf_eq hk, hp]
  · exact priorityOf_congr (setTask_tasks_of_ne hu)

theorem ring_alone (h : ∀ t ∈ s.queues.members .ready, s.priorityOf t < s.priorityOf s.current) :
    s.ring = [s.current] := by
  have hnil : s.equals (s.priorityOf s.current) = [] := by
    unfold equals
    rw [List.reverse_eq_nil_iff, List.filter_eq_nil_iff]
    intro t ht
    simpa using ne_of_lt (h t ht)
  rw [ring, hnil]

theorem preempt_ring {new : TaskPtr} (hi : Inv s) (htop : s.queueTop .ready = some new)
    (hk : s.tasks new = some k) (hr : k.state = .ready) (hc : s.tasks s.current = some c)
    (hrun : c.state = .running) (heq : k.priority = c.priority) :
    ((s.woken s.current c).switched new k).ring = s.ring.rotate 1 := by
  have hne : new ≠ s.current := ne_of_state hk hc (by rw [hr, hrun]; decide)
  have hset : (s.setTask s.current { c with state := .ready }).priorityOf = s.priorityOf :=
    setTask_priorityOf hc rfl
  have hkey : ((s.woken s.current c).switched new k).priorityOf = s.priorityOf := by
    have hk' : (s.setTask s.current { c with state := .ready }).tasks new = some k :=
      (setTask_tasks_of_ne hne).trans hk
    rw [← hset]
    exact setTask_priorityOf hk' rfl
  have hcur : s.current ∉ s.queues.members .ready := Links.not_mem (hi.unlinked_current hc hrun) _
  have hready : ((s.woken s.current c).switched new k).queues.members .ready =
      ((s.queues.members .ready).orderedInsert (fun a b => s.priorityOf a ≤ s.priorityOf b)
        s.current).erase new := by
    have hmove : (s.woken s.current c).queues.members .ready =
        ((s.queues.members .ready).erase s.current).orderedInsert
          (s.setTask s.current { c with state := .ready }).before s.current := Links.members_move_self
    rw [List.erase_of_not_mem hcur] at hmove
    unfold before at hmove
    simp only [hset] at hmove
    exact congrArg (List.erase · new) hmove
  have hp : s.priorityOf new = s.priorityOf s.current := by
    rw [priorityOf_eq hk, priorityOf_eq hc, heq]
  unfold ring equals
  rw [hkey, hready, show ((s.woken s.current c).switched new k).current = new from rfl, hp]
  exact rotate_requeue (s.queues.nodup _) hcur htop hp

theorem Topped.tie (ht : s.Topped) (htop : s.queueTop .ready = some t) (hk : s.tasks t = some k)
    (hc : s.tasks s.current = some c) (hle : c.priority ≤ k.priority) : k.priority = c.priority := by
  have hge : s.priorityOf t ≤ s.priorityOf s.current := ht t (Links.link_of_mem (queueTop_mem htop))
  rw [priorityOf_eq hk, priorityOf_eq hc] at hge
  exact le_antisymm hge hle

theorem Chosen.rotates (h : Chosen s s') (hi : Inv s) (hs : s.Sorted) (ht : s.Topped)
    (hr : s.Running) : s'.ring = s.ring.rotate 1 := by
  have alone (hlow : ∀ t ∈ s.queues.members .ready, s.priorityOf t < s.priorityOf s.current) :
      (s.setCtl .resume).ring = s.ring.rotate 1 := by
    have hctl : (s.setCtl .resume).ring = s.ring := SameTurns.ring (.of_eq rfl rfl rfl)
    rw [hctl, ring_alone hlow, List.rotate_singleton]
  obtain ⟨c', hc', hrun'⟩ := hr
  cases h with
  | alone hnil _ _ => exact alone fun t hm => by simp [hnil] at hm
  | @keep new k c htop hk hc hr hlt =>
    refine alone fun t hm => ?_
    calc s.priorityOf t ≤ s.priorityOf new := hs.top htop (Links.link_of_mem hm)
      _ = k.priority := priorityOf_eq hk
      _ < c.priority := hlt
      _ = s.priorityOf s.current := (priorityOf_eq hc).symm
  | switch _ _ _ hc hnot =>
    rw [hc] at hc'
    cases hc'
    exact absurd hrun' hnot
  | @preempt new k c htop hk hr hc hrun hle =>
    exact preempt_ring hi htop hk hr hc hrun (ht.tie htop hk hc hle)

theorem NoneDue.without {i : Nat} (hd : s.NoneDue i) (hc : s'.totalTicks = s.totalTicks)
    (hm : s'.queues.members .sleeping = (s.queues.members .sleeping).erase t)
    (ht : ∀ u, u ≠ t → s'.tasks u = s.tasks u) : s'.NoneDue i := by
  intro u hu k' hk'
  rw [hm] at hu
  obtain ⟨hne, hu⟩ := (s.queues.nodup .sleeping).mem_erase_iff.mp hu
  rw [hc]
  exact hd u hu k' ((ht u hne).symm.trans hk')

theorem NoneDue.switched {i : Nat} (hd : s.NoneDue i) : (s.switched t k).NoneDue i :=
  hd.without rfl rfl fun _ hu => setTask_tasks_of_ne hu

theorem NoneDue.woken {i : Nat} (hd : s.NoneDue i) : (s.woken t k).NoneDue i :=
  hd.without rfl (Links.members_move_of_ne (by decide)) fun _ hu => woken_of_ne hu

theorem Chosen.noneDue {i : Nat} (h : Chosen s s') (hd : s.NoneDue i) : s'.NoneDue i := by
  cases h with
  | alone _ _ _ => exact hd
  | keep _ _ _ _ _ => exact hd
  | switch _ _ _ _ _ => exact hd.switched
  | preempt _ _ _ _ _ _ => exact hd.woken.switched

theorem switched_priority {new : TaskPtr} :
    (s.switched new k).priorityOf (s.switched new k).current = k.priority :=
  priorityOf_eq (k := { k with state := .running, firstStart := false }) setTask_tasks_self

theorem Chosen.priority (h : Chosen s s') (ht : s.Topped) (hr : s.Running) :
    s'.priorityOf s'.current = s.priorityOf s.current := by
  obtain ⟨c', hc', hrun'⟩ := hr
  cases h with
  | alone _ _ _ => rfl
  | keep _ _ _ _ _ => rfl
  | switch _ _ _ hc hnot =>
    rw [hc] at hc'
    cases hc'
    exact absurd hrun' hnot
  | @preempt new k c htop hk hr hc hrun hle =>
    rw [switched_priority, priorityOf_eq hc]
    exact ht.tie htop hk hc hle

theorem Chosen.ctl (h : Chosen s s') : s'.ctl ≠ .sched := by
  cases h with
  | alone _ _ _ => nofun
  | keep _ _ _ _ _ => nofun
  | switch _ _ _ _ _ =>
    unfold State.switched
    split <;> nofun
  | preempt _ _ _ _ _ _ =>
    unfold State.switched
    split <;> nofun

structure Turned (j : Nat) (s s' : State) : Prop where
  ring : s'.ring = s.ring.rotate 1
  topped : s'.Topped
  priority : s'.priorityOf s'.current = s.priorityOf s.current
  noneDue : ∀ i, s.NoneDue (i + j) → s'.NoneDue i
  ctl : s'.ctl ≠ .sched

/-- `schedule`, called by a task that runs on top of the others while nobody is to be woken. -/
theorem schedule_turned (hs : Sound False False False s) (ho : s.Sorted) (hr : s.Running)
    (ht : s.Topped) (hd : ∀ t ∈ s.queues.members .sleeping, ∀ k, s.tasks t = some k →
      s.totalTicks < k.wakeTime) (h : s.schedule = .ok s') : Turned 0 s s' := by
  unfold schedule at h
  rw [tryWakeupTasks_none hs.inv hd, ok_bind] at h
  obtain ⟨w, hreap, hchoose⟩ := bind_ok.mp h
  obtain ⟨hsame, hclock⟩ := reapZombies_same hreap
  have hspec := (reapZombies_spec (A := False) (D := False) (K := False) (B := AnyStart) hs.inv
    nofun).elim hreap
  have hi : Inv w := hspec.quiets.inv hs.inv
  have hsorted : w.Sorted := hspec.quiets.effects.sorted hs.inv ho
  have hrun : w.Running := by
    obtain ⟨c, hc, hrun⟩ := hr
    refine ⟨c, ?_, hrun⟩
    rw [hspec.current, hspec.self]
    exact hc
  have htop : w.Topped := hsame.topped ht
  have hch : Chosen w s' := (chooseTask_spec (A := False) (D := False) hi).elim hchoose
  refine ⟨?_, (hch.foremost hsorted).topped, ?_, fun i hi => ?_, hch.ctl⟩
  · rw [hch.rotates hi hsorted htop hrun, hsame.ring]
  · rw [hch.priority htop hrun, hsame.current, hsame.priorityOf (Or.inl rfl)]
  · exact hch.noneDue (hsame.noneDue (by rw [hclock]; rfl) hi)

theorem tick_same (hu : s.ctl = .user) (h : step .tick s = .ok s') : s.SameTurns s' ∧
    s'.totalTicks = (s.totalTicks + 1) % 2 ^ 32 ∧ s'.ctl = .sched ∧ (s.Running → s'.Running) := by
  unfold step stepWith at h
  rw [hu] at h
  have hgo : State.goOn .sched .iret { s with totalTicks := (s.totalTicks + 1) % 2 ^ 32 } = .ok s' := h
  obtain ⟨hsame, hclock⟩ := goOn_same hgo
  have hset : s.SameTurns { s with totalTicks := (s.totalTicks + 1) % 2 ^ 32 } := .of_eq rfl rfl rfl
  refine ⟨hset.trans hsame, hclock, goOn_ctl hgo, fun ⟨k, hk, hr⟩ => ?_⟩
  have hk' : ({ s with totalTicks := (s.totalTicks + 1) % 2 ^ 32 } : State).tasks s.current = some k := hk
  rw [goOn_eq hk'] at hgo
  cases hgo
  exact ⟨_, wentOn_self, hr⟩

theorem Ticked.turned (h : Run IdleStarts s) (hu : s.ctl = .user) (ht : s.Topped) (hd : s.NoneDue 1)
    (hs : Ticked s s') : Turned 1 s s' := by
  obtain ⟨s₁, s₂, h₁, h₂, hu', hend⟩ := hs
  obtain ⟨hsame, hclock, hctl, hrun⟩ := tick_same hu h₁
  have hs : Sound False False False s := Run.soundIdle h
  have hr₁ : Run IdleStarts s₁ := h.next ⟨.tick, trivial, h₁⟩
  obtain ⟨hs₁, ho₁⟩ := RunWith.sorted hr₁.granted fun _ _ he => IdleStarts.allows he
  have hs₂ : Sound False False False s₂ := step_sound (e := .kernel) hs₁ (IdleStarts.allows trivial) h₂
  have hlater {i : Nat} (hi : s.NoneDue (i + 1)) : s₁.NoneDue i :=
    hsame.noneDue (by rw [hclock]; omega) hi
  have hdue : ∀ t ∈ s₁.queues.members .sleeping, ∀ k, s₁.tasks t = some k →
      s₁.totalTicks < k.wakeTime := by
    intro t hm k hk
    have hlt := hlater (i := 0) hd t hm k hk
    rw [hclock] at hlt ⊢
    omega
  unfold step stepWith at h₂
  rw [hctl] at h₂
  have hturn := schedule_turned hs₁ ho₁ (hrun (hs.running (by rw [hu]; decide))) (hsame.topped ht) hdue h₂
  have hturned : Turned 1 s s₂ := by
    refine ⟨?_, hturn.topped, ?_, fun i hi => hturn.noneDue i (hlater hi), hturn.ctl⟩
    · rw [hturn.ring, hsame.ring]
    · rw [hturn.priority, hsame.current, hsame.priorityOf (Or.inl rfl)]
  rcases hend with rfl | hres
  · exact hturned
  · have hback : s₂.SameTurns s' ∧ s'.totalTicks = s₂.totalTicks := by
      unfold step stepWith at hres
      cases hc : s₂.ctl with
      | user => simp [hc] at hres
      | sched => exact absurd hc hturn.ctl
      | resume =>
        rw [hc] at hres
        exact resume_returns hs₂.inv (hs₂.running (by rw [hc]; decide)) s' hres hu'
    obtain ⟨hb, hbc⟩ := hback
    refine ⟨hb.ring.trans hturned.ring, hb.topped hturned.topped, ?_, fun i hi =>
      hb.noneDue (by rw [hbc]) (hturned.noneDue i hi), by rw [hu']; decide⟩
    rw [hb.current, hb.priorityOf (Or.inl rfl), hturned.priority]

end Schedule

section Run

theorem Ticked.run (h : Run IdleStarts s) (ht : Ticked s s') : Run IdleStarts s' := by
  obtain ⟨s₁, s₂, h₁, h₂, _, hend⟩ := ht
  have hr₁ : Run IdleStarts s₁ := h.next ⟨.tick, trivial, h₁⟩
  have hr₂ : Run IdleStarts s₂ := hr₁.next ⟨.kernel, trivial, h₂⟩
  rcases hend with rfl | h₃
  · exact hr₂
  · exact hr₂.next ⟨.kernel, trivial, h₃⟩

/-- Who shares the processor with the running task has waited for it, the first the longest. -/
theorem Sorted.equals (hs : s.Sorted) :
    (s.equals p).Pairwise fun t u => s.queues.since t < s.queues.since u := by
  unfold State.equals
  rw [List.pairwise_reverse]
  have hf := (hs .ready).filter (fun t => s.priorityOf t = p)
  refine hf.imp_of_mem fun {t u} ht hu htu => ?_
  have hpt : s.priorityOf t = p := by simpa using (List.mem_filter.mp ht).2
  have hpu : s.priorityOf u = p := by simpa using (List.mem_filter.mp hu).2
  rw [hpt, hpu] at htu
  exact (htu.resolve_left (lt_irrefl p)).2

theorem ring_nodup (hi : Inv s) (hr : s.Running) : s.ring.Nodup := by
  obtain ⟨c, hc, hrun⟩ := hr
  refine List.nodup_cons.mpr ⟨fun hm => ?_, List.nodup_reverse.mpr ((s.queues.nodup _).filter _)⟩
  exact Links.not_mem (hi.unlinked_current hc hrun) .ready
    (List.mem_filter.mp (List.mem_reverse.mp hm)).1

theorem ring_length : s.ring.length =
    (s.queues.members .ready).countP (fun t => s.priorityOf t = s.priorityOf s.current) + 1 := by
  rw [ring, equals, List.length_cons, List.length_reverse, List.countP_eq_length_filter]

structure Sharing (f : ℕ → State) (n i : ℕ) : Prop where
  run : Run IdleStarts (f i)
  user : (f i).ctl = .user
  topped : (f i).Topped
  priority : (f i).priorityOf (f i).current = (f 0).priorityOf (f 0).current
  noneDue : ∀ j, 0 < j → i + j ≤ n → (f i).NoneDue j

theorem Sharing.next {f : ℕ → State} {i : ℕ} (h : Sharing f n i) (hi : i < n)
    (ht : Ticked (f i) (f (i + 1))) : Sharing f n (i + 1) := by
  have hturn := ht.turned h.run h.user h.topped (h.noneDue 1 Nat.one_pos hi)
  have hrun := ht.run h.run
  obtain ⟨_, _, _, _, hu, _⟩ := ht
  exact ⟨hrun, hu, hturn.topped, hturn.priority.trans h.priority,
    fun j hj hn => hturn.noneDue j (h.noneDue (j + 1) (by omega) (by omega))⟩

/-- The running task and the ready ones of its priority take turns in a fixed order: the running
one, and then those that got ready first. -/
theorem round_robin {f : ℕ → State} {m : ℕ} (h : Run IdleStarts (f 0)) (hu : (f 0).ctl = .user)
    (hm : ((f 0).queues.members .ready).countP
      (fun t => (f 0).priorityOf t = (f 0).priorityOf (f 0).current) = m)
    (htop : ∀ t ∈ (f 0).queues.members .ready, (f 0).priorityOf t ≤ (f 0).priorityOf (f 0).current)
    (hdue : ∀ i, 0 < i → i ≤ n → (f 0).NoneDue i) (hf : ∀ i < n, Ticked (f i) (f (i + 1))) :
    (f 0).ring.length = m + 1 ∧ (f 0).ring.Nodup ∧
      (f 0).ring.tail.Pairwise (fun t u => (f 0).queues.since t < (f 0).queues.since u) ∧
      (∀ i ≤ n, (f 0).ring[i % (m + 1)]? = some (f i).current ∧
        (f i).priorityOf (f i).current = (f 0).priorityOf (f 0).current) ∧
      ∀ t ∈ (f 0).ring, ∀ a r, a + (m + 1) * r ≤ n + 1 →
        ((Finset.Ico a (a + (m + 1) * r)).filter fun i => (f i).current = t).card = r := by
  obtain ⟨hs, ho⟩ := RunWith.sorted (K := False) h.granted fun _ _ he => IdleStarts.allows he
  have hlen : (f 0).ring.length = m + 1 := by rw [ring_length, hm]
  have hnodup : (f 0).ring.Nodup := ring_nodup hs.inv (hs.running (by rw [hu]; decide))
  have hshare (i : ℕ) (hi : i ≤ n) : Sharing f n i := by
    induction i with
    | zero =>
      exact ⟨h, hu, fun t ht => htop t (Links.mem_of_link ht), rfl,
        fun j hj hn => hdue j hj (by omega)⟩
    | succ i ih => exact (ih (by omega)).next hi (hf i hi)
  have hring : ∀ i ≤ n, (f i).ring = (f 0).ring.rotate i := by
    intro i
    refine rotated (g := fun i => (f i).ring) fun j hj => ?_
    have hj' := hshare j (by omega)
    exact ((hf j hj).turned hj'.run hj'.user hj'.topped (hj'.noneDue 1 Nat.one_pos hj)).ring
  have hcur (i : ℕ) (hi : i ≤ n) : (f 0).ring[i % (m + 1)]? = some (f i).current := by
    have hpos : 0 < (f 0).ring.length := by omega
    have hhead := head_rotate (i := i) hpos
    rw [← hring i hi, hlen] at hhead
    exact hhead.symm
  refine ⟨hlen, hnodup, ho.equals, fun i hi => ⟨hcur i hi, (hshare i hi).priority⟩, ?_⟩
  intro t ht a r hr
  have hcount := card_rounds (a := a) (r := r) hnodup ht
  rw [hlen] at hcount
  refine (congrArg Finset.card (Finset.filter_congr fun i hi => ?_)).trans hcount
  have hle : i ≤ n := by
    have := (Finset.mem_Ico.mp hi).2
    omega
  rw [hcur i hle, Option.some.injEq]

section Three

def turn (s : State) : Except Fault State := do
  let s₁ ← step .tick s
  let s₂ ← step .kernel s₁
  if s₂.ctl = .user then .ok s₂ else step .kernel s₂

def next (s : State) : State :=
  match s.turn with
  | .ok s' => s'
  | .error _ => s

theorem ticked_next (h : Ends s.turn fun s' => s'.ctl = .user) : Ticked s s.next := by
  obtain ⟨s', hs, hu⟩ := h.elim
  have hnext : s.next = s' := by
    unfold next
    rw [hs]
  rw [hnext]
  unfold turn at hs
  obtain ⟨s₁, h₁, hs⟩ := bind_ok.mp hs
  obtain ⟨s₂, h₂, hs⟩ := bind_ok.mp hs
  split at hs
  · cases hs
    exact ⟨s₁, s', h₁, h₂, hu, Or.inl rfl⟩
  · exact ⟨s₁, s₂, h₁, h₂, hu, Or.inr hs⟩

def threeEquals : State :=
  match exec (admitted IdleStarts) [.call (.start (anApp 5)), .kernel, .call (.start (anApp 5)),
    .kernel, .call (.start (anApp 5)), .kernel, .kernel] boot with
  | .ok s => s
  | .error _ => boot

theorem threeEquals_run : Run IdleStarts threeEquals := by
  have hrun : Ends (exec (admitted IdleStarts) [.call (.start (anApp 5)), .kernel,
      .call (.start (anApp 5)), .kernel, .call (.start (anApp 5)), .kernel, .kernel] boot)
      fun _ => True := by
    decide +kernel
  obtain ⟨s, hs, _⟩ := hrun.elim
  have heq : threeEquals = s := by
    unfold threeEquals
    rw [hs]
  rw [heq]
  exact Run.replayed hs

theorem threeEquals_ring : threeEquals.ctl = .user ∧ threeEquals.ring = [1, 3, 2] ∧
    threeEquals.queues.members .sleeping = [] ∧ threeEquals.queues.members .ready = [0, 2, 3] ∧
    (∀ t ∈ [0, 2, 3], threeEquals.priorityOf t ≤ threeEquals.priorityOf threeEquals.current) ∧
    ∀ i < 5, Ends (next^[i] threeEquals).turn fun s => s.ctl = .user := by
  decide +kernel

/-- After them the third and the second, and so on. -/
theorem round_robin_three : ∃ f : ℕ → State, f 0 = threeEquals ∧
    (∀ i ≤ 5, [1, 3, 2][i % 3]? = some (f i).current) ∧
    ∀ t ∈ [1, 3, 2], ((Finset.Ico 0 6).filter fun i => (f i).current = t).card = 2 := by
  obtain ⟨hu, hring, hsleep, hready, htop, hturn⟩ := threeEquals_ring
  obtain ⟨_, _, _, hcur, hcount⟩ := round_robin (f := fun i => next^[i] threeEquals) (n := 5) (m := 2)
    threeEquals_run hu (by decide +kernel) (by simpa [hready] using htop)
    (fun i _ _ t ht => by simp [hsleep] at ht) fun i hi => by
      rw [Function.iterate_succ_apply']
      exact ticked_next (hturn i hi)
  rw [Function.iterate_zero_apply, hring] at hcur hcount
  exact ⟨_, rfl, fun i hi => (hcur i hi).1, fun t ht => hcount t ht 0 2 (by decide)⟩

end Three
end Run
end State
end DominOS.Process
