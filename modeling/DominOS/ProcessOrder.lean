import DominOS.ProcessRuns

/-! Every list of tasks is in the order of their priorities, and tasks of one priority are in
the order in which they came. -/
namespace DominOS.Process
open IntrusiveLists Fallible Relation Runs
namespace State
variable {s s' : State} {t u : TaskPtr} {k k' c l : Task} {h : Head} {e : Event} {p r : Int}
  {A T D M K R L : Prop} {pid : Int} {B : State → StartArgs → Prop}

/-- Every list is sorted by the priorities its members have now, the oldest of equals last. -/
def Sorted (s : State) : Prop := s.queues.Ordered s.priorityOf

theorem boot_sorted : boot.Sorted := Links.ordered_empty

theorem priorityOf_eq (hk : s.tasks t = some k) : s.priorityOf t = k.priority := by
  unfold priorityOf
  rw [hk]

theorem priorityOf_congr (h : s'.tasks t = s.tasks t) : s'.priorityOf t = s.priorityOf t := by
  unfold priorityOf
  rw [h]

theorem Sorted.congr (hs : s.Sorted) (hq : s'.queues = s.queues)
    (hp : ∀ t, s.queues.link t ≠ none → s'.priorityOf t = s.priorityOf t) : s'.Sorted := by
  unfold Sorted
  rw [hq]
  exact Links.Ordered.congr hs fun t h hm => hp t (by rw [Links.link_of_mem hm]; simp)

theorem Sorted.without (hs : s.Sorted) (ht : ∀ u, u ≠ t → s'.tasks u = s.tasks u) :
    (s.queues.erase t).Ordered s'.priorityOf := by
  refine (Links.Ordered.erase hs t).congr fun u h hm => priorityOf_congr (ht u ?_)
  intro he
  have hl := Links.link_of_mem hm
  rw [he, Links.link_erase_self] at hl
  cases hl

theorem Sorted.relink (hs : s.Sorted) (ht : ∀ u, u ≠ t → s'.tasks u = s.tasks u)
    (hq : s'.queues = s.queues.move s'.before h t) : s'.Sorted := by
  unfold Sorted
  rw [hq]
  exact (hs.without ht).move h

theorem Sorted.unlink (hs : s.Sorted) (ht : ∀ u, u ≠ t → s'.tasks u = s.tasks u)
    (hq : s'.queues = s.queues.erase t) : s'.Sorted := by
  unfold Sorted
  rw [hq]
  exact hs.without ht

theorem Sorted.woken (hs : s.Sorted) : (s.woken t k).Sorted :=
  hs.relink (fun _ => setTask_tasks_of_ne) rfl

theorem Sorted.died (hs : s.Sorted) : (s.died t k r).Sorted :=
  hs.relink (fun _ => setTask_tasks_of_ne) rfl

theorem Sorted.blocked {kont : Kont} (hs : s.Sorted) : (s.blocked h k kont).Sorted :=
  hs.relink (fun _ => setTask_tasks_of_ne) rfl

theorem Sorted.freed (hs : s.Sorted) : (s.freed t).Sorted :=
  hs.unlink (fun _ => freed_tasks_of_ne) rfl

theorem Sorted.born {pid : Nat} {a : StartArgs} (hs : s.Sorted) : (s.born pid a).Sorted :=
  hs.relink (fun _ => born_tasks_of_ne) rfl

theorem Sorted.switched (hs : s.Sorted) : (s.switched t k).Sorted :=
  hs.unlink (fun _ => setTask_tasks_of_ne) rfl

theorem Mourned.sorted {parent : Option TaskPtr} (m : Mourned s parent s') (hs : s.Sorted) :
    s'.Sorted := by
  cases m with
  | alone _ => exact hs
  | woken _ _ _ _ => exact hs.woken

theorem Sorted.ranked (hs : s.Sorted) : (s.ranked t k p).Sorted := by
  unfold State.ranked
  split
  · rename_i hl
    refine hs.congr rfl fun u hu => priorityOf_congr (setTask_tasks_of_ne ?_)
    intro he
    exact hu (he ▸ hl)
  · exact hs.relink (fun _ => setTask_tasks_of_ne) rfl

theorem SameLists.priorityOf (e : s.SameLists s') (hc : s.tasks s.current = some c) :
    s'.priorityOf t = s.priorityOf t := by
  by_cases ht : t = s.current
  · obtain ⟨kont, msgVal, hself, _⟩ := e.self c hc
    rw [ht, priorityOf_eq hself, priorityOf_eq hc]
  · exact priorityOf_congr (e.others t ht)

theorem Effect.sorted (e : Effect T D M K B s s') (hi : Inv s) (hs : s.Sorted) : s'.Sorted := by
  cases e with
  | quiet q =>
    cases q with
    | same e _ =>
      obtain ⟨c, hc, _⟩ := hi.current
      exact hs.congr e.queues fun t _ => e.priorityOf hc
    | wake _ _ _ _ _ _ _ => exact hs.woken
    | die _ _ _ _ _ hm _ _ => exact hm.sorted hs.died
    | reap _ _ _ _ _ => exact hs.freed
    | reapChild _ _ _ _ _ _ _ => exact hs.freed
    | start _ _ _ _ _ _ => exact hs.born
    | rank _ _ _ _ _ => exact hs.ranked
    | create _ _ _ => exact hs
    | drop _ _ _ => exact hs
    | leak _ _ => exact hs
    | sawStart _ _ => exact hs
  | exit _ _ _ _ _ hm => exact hm.sorted hs.died
  | block _ _ _ _ _ _ _ _ _ _ => exact hs.blocked

theorem Effects.sorted (e : Effects T D M K B s s') (hi : Inv s) (hs : s.Sorted) : s'.Sorted := by
  induction e with
  | refl => exact hs
  | tail hab e ih => exact e.sorted (Effects.inv hab hi) ih

theorem Switch.sorted (e : Switch s s') (hs : s.Sorted) : s'.Sorted := by
  cases e with
  | switch _ _ _ => exact hs.switched
  | preempt _ _ _ _ => exact hs.woken.switched

theorem Stepped.sorted (st : Stepped A T D K R L B s s') (h : Sound A D K s) (hs : s.Sorted) :
    s'.Sorted :=
  st.keeps h.inv hs (fun _ _ hi hp e => e.sorted hi hp) fun _ _ _ hp e => e.sorted hp

theorem RunWith.sorted {P : State → Event → Prop} (h : RunWith P s)
    (hP : ∀ s e, P s e → Allows A T D K R L B s e) : Sound A D K s ∧ s.Sorted :=
  h.invariant (I := fun s => Sound A D K s ∧ s.Sorted)
    (by rintro _ rfl; exact ⟨boot_sound, boot_sorted⟩) fun s t ⟨hs, ho⟩ ⟨e, mem, he, hmem, hr⟩ => by
      have st := (stepWith_spec hs (hP s e he) hmem).elim hr
      exact ⟨st.sound hs, st.sorted hs ho⟩

def Topped (s : State) : Prop :=
  ∀ t, s.queues.link t = some .ready → s.priorityOf t ≤ s.priorityOf s.current

theorem Topped.congr (h : s.Topped) (hq : s'.queues = s.queues) (hc : s'.current = s.current)
    (hp : ∀ t, s'.priorityOf t = s.priorityOf t) : s'.Topped := by
  intro t ht
  rw [hq] at ht
  rw [hc, hp, hp]
  exact h t ht

theorem Topped.relink (h : s.Topped) (ht : ∀ u, u ≠ t → s'.tasks u = s.tasks u)
    (hl : ∀ u, u ≠ t → s'.queues.link u = s.queues.link u) (hc : s'.current = s.current)
    (hne : t ≠ s.current)
    (hp : s'.queues.link t = some .ready → s'.priorityOf t ≤ s.priorityOf s.current) :
    s'.Topped := by
  intro u hu
  have hcur : s'.priorityOf s'.current = s.priorityOf s.current := by
    rw [hc]
    exact priorityOf_congr (ht _ (Ne.symm hne))
  rw [hcur]
  by_cases he : u = t
  · rw [he] at hu ⊢
    exact hp hu
  · rw [priorityOf_congr (ht u he)]
    rw [hl u he] at hu
    exact h u hu

theorem Topped.woken (h : s.Topped) (hne : t ≠ s.current) (hc : s.tasks s.current = some c)
    (hp : k.priority ≤ c.priority) : (s.woken t k).Topped := by
  refine h.relink (fun _ => setTask_tasks_of_ne) (fun _ => move_link_of_ne) rfl hne fun _ => ?_
  rw [priorityOf_eq woken_self, priorityOf_eq hc]
  exact hp

theorem Topped.died (h : s.Topped) (hne : t ≠ s.current) : (s.died t k r).Topped := by
  refine h.relink (fun _ => setTask_tasks_of_ne) (fun _ => move_link_of_ne) rfl hne fun hl => ?_
  have hz : (s.died t k r).queues.link t = some .zombie := move_link_self
  rw [hz] at hl
  cases hl

theorem Topped.freed (h : s.Topped) (hne : t ≠ s.current) : (s.freed t).Topped := by
  refine h.relink (fun _ => freed_tasks_of_ne) (fun _ => Links.link_erase_of_ne) rfl hne fun hl => ?_
  have hn : (s.freed t).queues.link t = none := Links.link_erase_self
  rw [hn] at hl
  cases hl

theorem Topped.born {pid : Nat} {a : StartArgs} (h : s.Topped) (hi : Placed s)
    (hc : s.tasks s.current = some c) (hp : a.prio ≤ c.priority) : (s.born pid a).Topped := by
  refine h.relink (fun _ => born_tasks_of_ne) (fun _ => move_link_of_ne) rfl
    (Ne.symm (hi.ne_fresh hc)) fun _ => ?_
  rw [priorityOf_eq born_tasks_fresh, priorityOf_eq hc]
  exact hp

theorem Sorted.top (hs : s.Sorted) (ht : s.queueTop h = some t)
    (hu : s.queues.link u = some h) : s.priorityOf u ≤ s.priorityOf t := by
  by_cases he : u = t
  · rw [he]
  · rcases Links.Ordered.last hs ht (Links.mem_of_link hu) he with hlt | ⟨heq, _⟩
    · exact le_of_lt hlt
    · exact le_of_eq heq

theorem Topped.ranked (h : s.Topped) (hi : Inv s) (hs : s.Sorted) (hk : s.tasks t = some k)
    (hc : s.tasks s.current = some c)
    (hp : (t ≠ s.current → k.state = .ready → p ≤ c.priority) ∧
      (t = s.current → ∀ u, s.queueTop .ready = some u → s.priorityOf u ≤ p)) :
    (s.ranked t k p).Topped := by
  obtain ⟨hcur, _⟩ := ranked_frame (s := s) (t := t) (k := k) (p := p)
  have hself : (s.ranked t k p).priorityOf t = p := priorityOf_eq ranked_self
  have hlink (u : TaskPtr) : (s.ranked t k p).queues.link u = s.queues.link u := by
    unfold State.ranked
    split
    · rfl
    · rename_i h hl
      by_cases hu : u = t
      · rw [hu, hl]
        exact move_link_self
      · exact move_link_of_ne hu
  by_cases ht : t = s.current
  · intro u hu
    rw [hlink] at hu
    have hne : u ≠ t := by
      intro he
      have hm : u ∈ s.queues.members .ready := Links.mem_of_link hu
      obtain ⟨l, hl, hst, _⟩ := hi.live hm
      obtain ⟨l', hl', hr⟩ := hi.current
      rw [he, ht, hl'] at hl
      cases hl
      exact hr hst
    rw [priorityOf_congr (ranked_of_ne hne), hcur, ← ht, hself]
    have hm : u ∈ s.queues.members .ready := Links.mem_of_link hu
    obtain ⟨top, htop⟩ := Option.isSome_iff_exists.mp (List.getLast?_isSome.mpr (List.ne_nil_of_mem hm))
    exact (hs.top htop hu).trans (hp.2 ht top htop)
  · refine h.relink (fun _ => ranked_of_ne) (fun u _ => hlink u) hcur ht fun hl => ?_
    rw [hlink] at hl
    obtain ⟨l, hl', hst, _⟩ := hi.live (Links.mem_of_link hl)
    rw [hk] at hl'
    cases hl'
    rw [hself, priorityOf_eq hc]
    exact hp.1 ht hst

theorem Mourned.topped {parent : Option TaskPtr} (m : Mourned (s.died t k r) parent s')
    (h : s.Topped) (hne : t ≠ s.current) (hc : s.tasks s.current = some c)
    (hp : ∀ p l, parent = some p → s.tasks p = some l → l.state = .interruptedChild →
      l.priority ≤ c.priority) : s'.Topped := by
  have hd : (s.died t k r).Topped := h.died hne
  have hcur : (s.died t k r).tasks s.current = some c :=
    (setTask_tasks_of_ne (Ne.symm hne)).trans hc
  cases m with
  | alone _ => exact hd
  | @woken p l he hl hw hpc =>
    refine hd.woken hpc hcur (hp p l he ?_ hw)
    by_cases hpt : p = t
    · rw [hpt, show (s.died t k r).tasks t = some _ from setTask_tasks_self] at hl
      cases hl
      cases hw
    · exact (setTask_tasks_of_ne hpt).symm.trans hl

theorem Effect.topped (e : Effect True D M K B s s') (hi : Inv s) (hs : s.Sorted) (h : s.Topped) :
    s'.Topped := by
  cases e with
  | quiet q =>
    cases q with
    | same e _ =>
      obtain ⟨c, hc, _⟩ := hi.current
      exact h.congr e.queues e.current fun t => e.priorityOf hc
    | wake _ hne _ _ hc hp _ => exact h.woken hne hc (hp trivial)
    | die _ hne _ _ _ hm hc hp => exact hm.topped h hne hc (hp trivial)
    | reap _ _ hne _ _ => exact h.freed hne
    | reapChild _ _ _ hne _ _ _ => exact h.freed hne
    | start _ hc hp _ _ _ => exact h.born hi.toPlaced hc (hp trivial)
    | rank hk _ _ hc hp => exact h.ranked hi hs hk hc (hp trivial)
    | create _ _ _ => exact h
    | drop _ _ _ => exact h
    | leak _ _ => exact h
    | sawStart _ _ => exact h
  | exit hn _ _ _ _ _ => exact absurd trivial hn
  | block hn _ _ _ _ _ _ _ _ _ => exact absurd trivial hn

theorem Effects.topped (e : Effects True D M K B s s') (hi : Inv s) (hs : s.Sorted) (h : s.Topped) :
    s'.Topped := by
  induction e with
  | refl => exact h
  | tail hab e ih => exact e.topped (Effects.inv hab hi) (Effects.sorted hab hi hs) ih

/-- What is ready has a lower priority than the current task, or has come later. -/
def Foremost (s : State) : Prop :=
  ∀ t, s.queues.link t = some .ready → s.priorityOf t < s.priorityOf s.current ∨
    s.priorityOf t = s.priorityOf s.current ∧ s.queues.since s.current < s.queues.since t

theorem Foremost.topped (h : s.Foremost) : s.Topped := fun t ht =>
  (h t ht).elim le_of_lt fun he => le_of_eq he.1

theorem Foremost.switched {new : TaskPtr}
    (h : ∀ u, u ≠ new → s.queues.link u = some .ready → s.priorityOf u < k.priority ∨
      s.priorityOf u = k.priority ∧ s.queues.since new < s.queues.since u) :
    (s.switched new k).Foremost := by
  intro u hu
  have hne : u ≠ new := by
    intro he
    have hn : (s.switched new k).queues.link new = none := Links.link_erase_self
    rw [he, hn] at hu
    cases hu
  have hl : s.queues.link u = some .ready := (Links.link_erase_of_ne hne).symm.trans hu
  have hself : (s.switched new k).priorityOf (s.switched new k).current = k.priority :=
    priorityOf_eq (k := { k with state := .running, firstStart := false }) setTask_tasks_self
  have hother : (s.switched new k).priorityOf u = s.priorityOf u :=
    priorityOf_congr (setTask_tasks_of_ne hne)
  rw [hself, hother]
  exact h u hne hl

/-- `schedule` leaves running what has the highest priority, and has waited longest for it. -/
theorem Chosen.foremost (h : Chosen s s') (hs : s.Sorted) : s'.Foremost := by
  have last {new : TaskPtr} {k : Task} (htop : s.queueTop .ready = some new)
      (hk : s.tasks new = some k) (u : TaskPtr) (hne : u ≠ new)
      (hu : s.queues.link u = some .ready) : s.priorityOf u < k.priority ∨
        s.priorityOf u = k.priority ∧ s.queues.since new < s.queues.since u := by
    rw [← priorityOf_eq hk]
    exact Links.Ordered.last hs htop (Links.mem_of_link hu) hne
  cases h with
  | alone hnil _ _ =>
    intro u hu
    have hm : u ∈ s.queues.members .ready := Links.mem_of_link hu
    rw [hnil] at hm
    cases hm
  | keep htop hk hc _ hlt =>
    intro u hu
    have hle : s.priorityOf u ≤ s.priorityOf _ := hs.top htop hu
    have hcur : s.priorityOf s.current = _ := priorityOf_eq hc
    rw [priorityOf_eq hk] at hle
    refine Or.inl ?_
    change s.priorityOf u < s.priorityOf s.current
    rw [hcur]
    exact lt_of_le_of_lt hle hlt
  | switch htop hk _ _ _ => exact Foremost.switched (last htop hk)
  | @preempt new k c htop hk hst hc hr hle =>
    have hne : new ≠ s.current := ne_of_state hk hc (by rw [hst, hr]; decide)
    refine Foremost.switched fun u hu hl => ?_
    have hnew : (s.woken s.current c).queues.since new = s.queues.since new :=
      Links.since_move_of_ne hne
    rw [hnew]
    by_cases hcur : u = s.current
    · have hsince : (s.woken s.current c).queues.since u = s.queues.moves := by
        rw [hcur]
        exact Links.since_move_self
      have hlt : s.queues.since new < s.queues.moves :=
        s.queues.since_lt new .ready (Links.link_of_mem (queueTop_mem htop))
      have hprio : (s.woken s.current c).priorityOf u = c.priority := by
        rw [hcur]
        exact priorityOf_eq (k := { c with state := .ready }) woken_self
      rw [hprio, hsince]
      exact (lt_or_eq_of_le hle).imp_right fun he => ⟨he, hlt⟩
    · rw [priorityOf_congr (woken_of_ne hcur),
        show (s.woken s.current c).queues.since u = s.queues.since u from Links.since_move_of_ne hcur]
      exact last htop hk u hu ((move_link_of_ne hcur).symm.trans hl)

theorem schedule_turn (h : Sound A D K s) (hs : s.Sorted) (hc : s.ctl = .sched)
    (ha : Allows A T D K R L B s e) (hr : step e s = .ok s') : s'.Foremost := by
  cases e with
  | kernel =>
    unfold step stepWith at hr
    rw [hc] at hr
    have hspec := schedule_spec (K := K) (B := B) h.inv (fun hA => h.awake hA hc) fun hD =>
      ⟨h.parents hD, (ha.reaps hD).1 hc⟩
    obtain ⟨s₁, s₂, hq, _, hreap, hch⟩ := hspec.elim hr
    have es : Effects False D True K B s s₂ := Quiets.effects (hq.trans hreap.quiets)
    exact hch.foremost (es.sorted h.inv hs)
  | tick =>
    unfold step stepWith at hr
    rw [hc] at hr
    cases hr
  | call c =>
    unfold step stepWith at hr
    rw [hc] at hr
    cases hr

theorem step_topped (h : Sound A D K s) (hs : s.Sorted) (ht : s.ctl ≠ .sched → s.Topped)
    (ha : Allows A True D K R L B s e) (hr : step e s = .ok s') : s'.ctl ≠ .sched → s'.Topped := by
  intro hc'
  by_cases hc : s.ctl = .sched
  · exact (schedule_turn h hs hc ha hr).topped
  · cases (step_spec h ha).elim hr with
    | code o =>
      have m : Moves True D K R L B s s' := o.moves.mono fun _ => ⟨trivial, hc'⟩
      exact (m.effects h.inv).topped h.inv hs (ht hc)
    | turn hq _ hreap hch =>
      have es := Quiets.effects (hq.trans hreap.quiets)
      exact (hch.foremost (es.sorted h.inv hs)).topped

/-- Idle only calls `start`, and nobody wakes a task of higher priority by `kill`, `pdelete`
or `preset`. -/
def Deferent (s : State) (e : Event) : Prop := s.IdleStarts e ∧ s.WakesBelow e

theorem Deferent.allows (h : Deferent s e) : Allows False True False False False False AnyStart s e :=
  ⟨h.1, nofun, fun _ => h.2, nofun, nofun, nofun, nofun, fun _ _ => trivial⟩

instance : Decidable (s.KillsBelow pid) :=
  decidable_of_iff (∀ t, s.pidToTask pid = some t → t ≠ s.current → ∀ k, s.tasks t = some k →
    ∀ p, k.parent = some p → ∀ l, s.tasks p = some l → l.state = .interruptedChild →
      ∀ c, s.tasks s.current = some c → l.priority ≤ c.priority)
    ⟨fun h t k p l c ht hne hk hp hl hs hc => h t ht hne k hk p hp l hl hs c hc,
      fun h t ht hne k hk p hp l hl hs c hc => h t k p l c ht hne hk hp hl hs hc⟩

instance : Decidable (s.WaitsBelow h) :=
  decidable_of_iff (∀ t ∈ s.queues.members h, ∀ k, s.tasks t = some k →
    ∀ c, s.tasks s.current = some c → k.priority ≤ c.priority)
    ⟨fun h t k c ht hk hc => h t ht k hk c hc, fun h t ht k hk c hc => h t k c ht hk hc⟩

theorem wakesBelow_iff : s.WakesBelow e ↔
    (match e with
      | .call (.kill pid) => decide (s.KillsBelow pid)
      | .call (.pdelete id) | .call (.preset id) => decide
        (s.WaitsBelow (.waitingSenders id.toNat) ∧ s.WaitsBelow (.waitingReceivers id.toNat))
      | _ => true) = true := by
  cases e with
  | call c => cases c <;> simp [WakesBelow]
  | _ => simp [WakesBelow]

instance : Decidable (s.WakesBelow e) := decidable_of_iff _ wakesBelow_iff.symm

instance : Decidable (Deferent s e) := inferInstanceAs (Decidable (_ ∧ _))

/-- In user mode no process has a lower priority than one that is ready. -/
theorem highest_priority_runs (h : Run Deferent s) (hu : s.ctl = .user) (t : TaskPtr)
    (ht : t ∈ s.queues.members .ready) : s.priorityOf t ≤ s.priorityOf s.current := by
  have main : (Sound False False False s ∧ s.Sorted) ∧ (s.ctl ≠ .sched → s.Topped) := by
    refine h.invariant (I := fun s => (Sound False False False s ∧ s.Sorted) ∧
      (s.ctl ≠ .sched → s.Topped)) ?_ fun s t ⟨⟨hs, ho⟩, ht⟩ ⟨e, he, hr⟩ => ?_
    · rintro _ rfl
      exact ⟨⟨boot_sound, boot_sorted⟩, fun _ t ht => by cases ht⟩
    · have st := (step_spec hs he.allows).elim hr
      exact ⟨⟨st.sound hs, st.sorted hs ho⟩, step_topped hs ho ht he.allows hr⟩
  exact main.2 (by rw [hu]; decide) t (Links.link_of_mem ht)

/-- A killer runs below its victim, and idle is ready below both. -/
theorem highest_priority_runs_child : ∃ s : State, s.ctl = .user ∧ s.current = 1 ∧
    0 ∈ s.queues.members .ready ∧ s.priorityOf 0 ≤ s.priorityOf s.current := by
  have hrun : Ends (exec (admitted Deferent) [.call (.start (anApp 3)), .kernel,
      .call (.start (anApp 2)), .kernel, .call (.kill 2)] boot) fun s =>
      s.ctl = .user ∧ s.current = 1 ∧ 0 ∈ s.queues.members .ready := by
    decide +kernel
  obtain ⟨s, hs, hu, hc, hm⟩ := hrun.elim
  exact ⟨s, hu, hc, hm, highest_priority_runs (Run.replayed hs) hu 0 hm⟩

/-- A task of priority 5 kills the child that one of priority 10 waits for. -/
theorem kill_wakes_higher : Ends (exec (admitted IdleStarts) [.call (.start (anApp 10)), .kernel,
    .call (.start (anApp 2)), .kernel, .call (.start (anApp 5)), .kernel,
    .call (.waitpid 2 .null), .kernel, .kernel, .call (.kill 2)] boot) fun s =>
    s.ctl = .user ∧ 1 ∈ s.queues.members .ready ∧ s.priorityOf s.current < s.priorityOf 1 := by
  decide +kernel

/-- The last of its priority to come into its list. -/
def Youngest (s : State) (t : TaskPtr) (h : Head) : Prop :=
  s.queues.link t = some h ∧
    ∀ u ∈ s.queues.members h, u ≠ t → s.queues.since u < s.queues.since t

theorem ranked_youngest (hl : s.queues.link t = some h) : (s.ranked t k p).Youngest t h := by
  unfold ranked
  rw [hl]
  refine ⟨move_link_self, fun u hu hne => ?_⟩
  have hu : u ∈ s.queues.members h :=
    (Links.mem_move.mp hu).resolve_left hne
  have hold : (s.queues.move (s.setTask t { k with priority := p }).before h t).since u =
      s.queues.since u := Links.since_move_of_ne hne
  have hnew : (s.queues.move (s.setTask t { k with priority := p }).before h t).since t =
      s.queues.moves := Links.since_move_self
  change Links.since _ u < Links.since _ t
  refine lt_of_eq_of_lt hold (lt_of_lt_of_eq ?_ hnew.symm)
  exact s.queues.since_lt u h (Links.link_of_mem hu)

/-- `chprio` of a task that waits puts it in its list as the youngest of its new priority. -/
theorem chprio_youngest (hi : Inv s) (ht : s.pidToTask pid = some t) (hne : t ≠ s.idle)
    (hk : s.tasks t = some k) (hz : k.state ≠ .zombie) (hp : ¬ (p > maxPrio ∨ p < minPrio))
    (hl : s.queues.link t = some h) (hcur : t ≠ s.current) (hr : s.chprio pid p = .ok s') :
    s'.priorityOf t = p ∧ s'.Youngest t h := by
  obtain ⟨c, hc, _⟩ := hi.current
  obtain ⟨hrcur, _⟩ := ranked_frame (s := s) (t := t) (k := k) (p := p)
  have hy : (s.ranked t k p).Youngest t h := ranked_youngest hl
  have q : Quiet False False False False AnyStart s (s.ranked t k p) := .rank hk hne hz hc nofun
  have hi' : Inv (s.ranked t k p) := q.inv hi
  unfold chprio at hr
  simp only [ht, if_neg hne, task_ok hk, ok_bind, if_neg hz, if_neg hp,
    updateQueuePriority_eq hi.toPlaced hk hz] at hr
  split at hr
  · rename_i hm
    have hre : (s.ranked t k p).msgReinsert t k.pid =
        .ok ((s.ranked t k p).ranked t { k with priority := p } p) :=
      msgReinsert_eq hi'.toPlaced ranked_self hm
    rw [hre, ok_bind] at hr
    cases hr
    exact ⟨priorityOf_eq ranked_self, ranked_youngest hy.1⟩
  · have hcur' : t ≠ (s.ranked t k p).current := by rwa [hrcur]
    have hc' : (s.ranked t k p).tasks (s.ranked t k p).current = some c := by
      rw [hrcur, ranked_of_ne (Ne.symm hcur)]
      exact hc
    rw [if_pos hcur', task_ok hc', ok_bind] at hr
    split at hr
    · rw [callSchedule, goOn_eq hc'] at hr
      cases hr
      refine ⟨?_, hy⟩
      have hstay : ((s.ranked t k p).wentOn c (.ret k.priority) .sched).tasks t =
          (s.ranked t k p).tasks t := setTask_tasks_of_ne hcur'
      rw [priorityOf_congr hstay]
      exact priorityOf_eq ranked_self
    · cases hr
      exact ⟨priorityOf_eq ranked_self, hy⟩

end State
end DominOS.Process
