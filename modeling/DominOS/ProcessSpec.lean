import DominOS.ProcessEffect

/-! What the functions of task.c do to a state that satisfies the invariant. -/
namespace DominOS.Process
open IntrusiveLists Fallible Relation
namespace State
variable {s s' : State} {t : TaskPtr} {k : Task} {h : Head} {A D T M K : Prop}
  {B : State → StartArgs → Prop}

/-- The faults that a run is to be free of: failed assertions under `A`, accesses to
freed tasks under `D`. -/
def Bad (A D : Prop) : Fault → Prop
  | .assertion => A
  | .dangling => D
  | _ => False

abbrev Quiets (T D M K : Prop) (B : State → StartArgs → Prop) : State → State → Prop := ReflTransGen (Quiet T D M K B)

abbrev Effects (T D M K : Prop) (B : State → StartArgs → Prop) : State → State → Prop := ReflTransGen (Effect T D M K B)

theorem Quiets.inv (q : Quiets T D M K B s s') (h : Inv s) : Inv s' := by
  induction q with
  | refl => exact h
  | tail _ q ih => exact q.inv ih

theorem Effects.inv (q : Effects T D M K B s s') (h : Inv s) : Inv s' := by
  induction q with
  | refl => exact h
  | tail _ q ih => exact q.inv ih

theorem Quiets.effects (q : Quiets T D M K B s s') : Effects T D M K B s s' :=
  ReflTransGen.lift id (fun _ _ => Effect.quiet) _ _ q

def Running (s : State) : Prop := ∃ k, s.tasks s.current = some k ∧ k.state = .running

theorem Quiets.running (q : Quiets T D M K B s s') (h : Inv s) (hr : s.Running) : s'.Running := by
  induction q with
  | refl => exact hr
  | tail hab q ih =>
    obtain ⟨c, hc, hs⟩ := ih
    have hb := Quiets.inv hab h
    obtain ⟨he, _, ht⟩ := q.current
    obtain ⟨c', hc', hs'⟩ := ht c hc fun _ _ hl => hb.ne_fresh hl
    exact ⟨c', by rw [he]; exact hc', hs'.trans hs⟩

theorem queueDel_eq (hl : s.queues.link t ≠ none) :
    s.queueDel t = .ok (s.unlink t) := if_neg hl

theorem queueAdd_eq (hl : s.queues.link t = none) : s.queueAdd t h = .ok (s.move h t) := if_pos hl

theorem move_unlink : (s.unlink t).move h t = s.move h t := by
  simp only [move, unlink]
  congr 1
  exact Links.move_erase

theorem unlink_of_none (hl : s.queues.link t = none) : s.unlink t = s := by
  simp only [unlink, Links.erase_of_none hl]

theorem setTaskState_eq {st : TaskState} (hk : s.tasks t = some k) (hne : k.state ≠ st)
    (hl : (t ≠ s.current ∧ k.state ≠ .startup ∧ k.state ≠ .interruptedMsg) ↔
      s.queues.link t ≠ none) :
    s.setTaskState t st h = .ok ((s.setTask t { k with state := st }).move h t) := by
  unfold setTaskState
  rw [task_ok hk, ok_bind, if_neg hne]
  split
  · rename_i hc
    rw [queueDel_eq (hl.mp hc), ok_bind]
    rw [queueAdd_eq Links.link_erase_self]
    rw [show (s.unlink t).setTask t { k with state := st } =
      (s.setTask t { k with state := st }).unlink t from rfl, move_unlink]
  · rename_i hc
    rw [ok_bind]
    exact queueAdd_eq (by_contra fun hn => hc (hl.mpr hn))

theorem Placed.setTaskReady {k' : Task} (hp : Placed s) (hk : s.tasks t = some k)
    (ht : t ≠ s.current) (hr : k.state ≠ .ready) (hm : k.state ≠ .interruptedMsg)
    (hs : k'.state = k.state) : (s.setTask t k').setTaskReady t = .ok (s.woken t k') := by
  have hh := hp.home t k hk
  have hrun : k.state ≠ .running := fun h => ht (hh.running h).1
  obtain ⟨hd, hl, _, _⟩ := hh.linked hrun
  have hl : (s.setTask t k').queues.link t ≠ none := by
    rw [show (s.setTask t k').queues = s.queues from rfl, hl]
    simp
  have hself : (s.setTask t k').tasks t = some k' := setTask_tasks_self
  have hset : (s.setTask t k').setTaskReady t =
      .ok (((s.setTask t k').setTask t { k' with state := .ready }).move .ready t) :=
    setTaskState_eq hself (by rw [hs]; exact hr)
      ⟨fun _ => hl, fun _ => ⟨ht, by rw [hs]; exact hh.not_startup, by rw [hs]; exact hm⟩⟩
  rwa [setTask_setTask] at hset

def Awake (s : State) : Prop :=
  ∀ k, s.tasks s.current = some k → k.state = .sleeping → s.totalTicks < k.wakeTime

theorem wakeup_current (hi : Inv s) (hk : s.tasks s.current = some k) (hs : k.state = .sleeping)
    (hw : k.wakeTime ≤ s.totalTicks) : s.wakeup s.current = .error .assertion := by
  have hlink := (hi.home _ k hk).link_eq (h := .sleeping) hs.symm (by rw [hs]; decide)
  have hne : ({ k with wakeTime := 0 } : Task).state ≠ .ready := by rw [hs]; decide
  have hl : (s.setTask s.current { k with wakeTime := 0 }).queues.link s.current ≠ none := by
    rw [show (s.setTask s.current { k with wakeTime := 0 }).queues = s.queues from rfl, hlink]
    simp
  unfold wakeup
  rw [task_ok hk, ok_bind, if_pos hw]
  unfold setTaskReady setTaskState
  rw [task_ok setTask_tasks_self, ok_bind, if_neg hne, if_neg (by simp [setTask]), ok_bind]
  exact if_neg hl

theorem wakeup_due (hi : Inv s) (hk : s.tasks t = some k) (hs : k.state = .sleeping)
    (hc : t ≠ s.current) (hw : k.wakeTime ≤ s.totalTicks) :
    s.wakeup t = .ok (s.woken t { k with wakeTime := 0 }) := by
  unfold wakeup
  rw [task_ok hk, ok_bind, if_pos hw]
  exact hi.setTaskReady hk hc (by rw [hs]; decide) (by rw [hs]; decide) rfl

theorem wakeup_early (hk : s.tasks t = some k) (hw : s.totalTicks < k.wakeTime) :
    s.wakeup t = .ok s := by
  unfold wakeup
  rw [task_ok hk, ok_bind, if_neg (Nat.not_le.mpr hw)]

theorem wakeup_spec (hi : Inv s) (ht : t ∈ s.queues.members .sleeping) (ha : A → s.Awake) :
    Post (Bad A D) (s.wakeup t) fun s' => s' = s ∨ ∃ k, s.tasks t = some k ∧ t ≠ s.current ∧
      k.state = .sleeping ∧ k.wakeTime ≤ s.totalTicks ∧ s' = s.woken t { k with wakeTime := 0 } := by
  obtain ⟨k, hk, hs, _⟩ := hi.live ht
  by_cases hw : k.wakeTime ≤ s.totalTicks
  · by_cases hc : t = s.current
    · subst hc
      rw [wakeup_current hi hk hs hw]
      exact .error fun hA => Nat.not_le.mpr (ha hA k hk hs) hw
    · rw [wakeup_due hi hk hs hc hw]
      exact .ok (Or.inr ⟨k, hk, hc, hs, hw, rfl⟩)
  · rw [wakeup_early hk (Nat.not_le.mp hw)]
    exact .ok (Or.inl rfl)

structure SameFamilies (s s' : State) : Prop where
  current : s'.current = s.current
  idle : s'.idle = s.idle
  totalTicks : s'.totalTicks = s.totalTicks
  self : s'.tasks s.current = s.tasks s.current
  zombies : s'.queues.members .zombie = s.queues.members .zombie
  tasks : ∀ t, (s'.tasks t).map (fun k => (k.parent, k.state == .zombie)) =
    (s.tasks t).map (fun k => (k.parent, k.state == .zombie))

theorem SameFamilies.refl (s : State) : s.SameFamilies s := ⟨rfl, rfl, rfl, rfl, rfl, fun _ => rfl⟩

theorem SameFamilies.trans {s'' : State} (h : s.SameFamilies s') (h' : s'.SameFamilies s'') :
    s.SameFamilies s'' :=
  ⟨h'.current.trans h.current, h'.idle.trans h.idle, h'.totalTicks.trans h.totalTicks,
    (h.current ▸ h'.self).trans h.self, h'.zombies.trans h.zombies,
    fun t => (h'.tasks t).trans (h.tasks t)⟩

theorem woken_families {k' : Task} (hi : Inv s) (hk : s.tasks t = some k) (hc : t ≠ s.current)
    (hz : k.state ≠ .zombie) (hp : k'.parent = k.parent) : s.SameFamilies (s.woken t k') where
  current := rfl
  idle := rfl
  totalTicks := rfl
  self := setTask_tasks_of_ne (Ne.symm hc)
  zombies := by
    have hm : t ∉ s.queues.members .zombie := by
      intro hm
      obtain ⟨l, hl, hs, _⟩ := hi.live hm
      rw [hk] at hl
      cases hl
      exact hz hs
    exact (Links.members_move_of_ne (by decide)).trans (List.erase_of_not_mem hm)
  tasks u := by
    by_cases hu : u = t
    · subst hu
      have hself : (s.woken u k').tasks u = some { k' with state := .ready } := setTask_tasks_self
      rw [hself, hk]
      simp [hp, hz]
    · rw [show (s.woken t k').tasks u = s.tasks u from setTask_tasks_of_ne hu]

theorem tryWakeupTasks_spec (hi : Inv s) (ha : A → s.Awake) :
    Post (Bad A D) s.tryWakeupTasks fun s' => Quiets False D True K B s s' ∧ s.SameFamilies s' := by
  refine (Post.foldlM (fun _ rest s' => Quiets False D True K B s s' ∧ s.SameFamilies s' ∧ rest.Nodup ∧
    ∀ t ∈ rest, t ∈ s'.queues.members .sleeping)
    ⟨.refl, .refl s, s.queues.nodup _, fun t ht => ht⟩ ?_).mono fun s' h => ⟨h.1, h.2.1⟩
  · intro done t rest s' ⟨hq, hf, hn, hm⟩
    have hi' := hq.inv hi
    obtain ⟨hnt, hnr⟩ := List.nodup_cons.mp hn
    have ha' : A → s'.Awake := by
      intro hA c hc hs
      rw [hf.totalTicks]
      exact ha hA c (by rw [← hf.self, ← hf.current]; exact hc) hs
    refine (wakeup_spec hi' (hm t (by simp)) ha').mono fun s'' h => ?_
    rcases h with rfl | ⟨k, hk, hc, hs, hw, rfl⟩
    · exact ⟨hq, hf, hnr, fun u hu => hm u (List.mem_cons_of_mem _ hu)⟩
    · obtain ⟨c, hcur, _⟩ := hi'.current
      refine ⟨hq.tail (.wake hk hc (by rw [hs]; decide) (by rw [hs]; decide) hcur nofun fun _ => ⟨by rw [hs]; decide, rfl⟩),
        hf.trans (woken_families hi' hk hc (by rw [hs]; decide) rfl), hnr, fun u hu => ?_⟩
      have hut : u ≠ t := fun he => hnt (he ▸ hu)
      rw [show (s'.woken t { k with wakeTime := 0 }).queues.members .sleeping =
        (s'.queues.members .sleeping).erase t from Links.members_move_of_ne (by decide)]
      exact (List.mem_erase_of_ne hut).mpr (hm u (List.mem_cons_of_mem _ hu))

def NoDangling (s : State) : Prop :=
  ∀ t k p, s.tasks t = some k → k.parent = some p → ∃ l, s.tasks p = some l

theorem freeTask_eq : s.freeTask t =
    if ∀ p, s.siblings.link t = some p → (s.tasks p).isSome then .ok (s.freed t)
    else .error .dangling := by
  unfold freeTask
  have hdel : (if s.queues.link t = none then .ok s else s.queueDel t : Except Fault State) =
      .ok (s.unlink t) := by
    split
    · rename_i hl
      rw [unlink_of_none hl]
    · rename_i hl
      exact queueDel_eq hl
  rw [hdel, ok_bind]
  unfold siblingDel
  simp only [show (s.unlink t).siblings = s.siblings from rfl]
  cases hl : s.siblings.link t with
  | none =>
    rw [ok_bind, if_pos nofun]
    simp only [freed, Links.erase_of_none hl]
    rfl
  | some p =>
    simp only [State.task, show (s.unlink t).tasks = s.tasks from rfl]
    cases hp : s.tasks p with
    | none => simp [hp]
    | some l =>
      simp only [ok_bind]
      rw [if_pos (by simp [hp])]
      rfl

theorem freeTask_spec (hi : Inv s) (hd : D → s.NoDangling) :
    Post (Bad A D) (s.freeTask t) fun s' => s' = s.freed t := by
  rw [freeTask_eq]
  split
  · exact .ok rfl
  · rename_i hn
    refine .error fun hD => hn fun p hp => ?_
    obtain ⟨k, hk, hparent⟩ := (hi.children t p).mp hp
    obtain ⟨l, hl⟩ := hd hD t k p hk hparent
    simp [hl]

/-- What `reap_zombies` frees: a zombie that does not run, of idle or of a zombie. -/
def Orphan (s : State) (t : TaskPtr) (k : Task) : Prop :=
  t ≠ s.current ∧ (k.parent = some s.idle ∨
    ∃ p l, k.parent = some p ∧ s.tasks p = some l ∧ l.state = .zombie)

theorem reap_spec (hi : Inv s) (hk : s.tasks t = some k) (hz : k.state = .zombie)
    (hd : D → s.NoDangling) : Post (Bad A D) (s.reap t) fun s' =>
      s' = s ∧ ¬ s.Orphan t k ∨ s' = s.freed t ∧ s.Orphan t k := by
  unfold reap
  rw [task_ok hk, ok_bind]
  split
  · rename_i hc
    exact .ok (Or.inl ⟨rfl, fun ho => ho.1 hc⟩)
  rename_i hc
  split
  · rename_i hp
    exact (freeTask_spec hi hd).mono fun s' hs => Or.inr ⟨hs, hc, Or.inl hp⟩
  rename_i hp
  split
  · rename_i hn
    exact absurd (hi.parent t k hk hn) (hi.not_idle hk hz)
  · rename_i p hpp
    cases hl : s.tasks p with
    | none =>
      simp only [State.task, hl, error_bind]
      refine .error fun hD => ?_
      obtain ⟨l, hl'⟩ := hd hD t k p hk hpp
      rw [hl] at hl'
      cases hl'
    | some l =>
      rw [task_ok hl, ok_bind]
      split
      · rename_i hlz
        exact (freeTask_spec hi hd).mono fun s' hs => Or.inr ⟨hs, hc, Or.inr ⟨p, l, hpp, hl, hlz⟩⟩
      · rename_i hlz
        refine .ok (Or.inl ⟨rfl, ?_⟩)
        rintro ⟨_, ho | ⟨q, m, hq, hm, hmz⟩⟩
        · exact hp ho
        · obtain rfl := Option.some.inj (hpp.symm.trans hq)
          rw [hl] at hm
          cases hm
          exact hlz hmz

theorem NoDangling.freed (h : s.NoDangling) (hc : s.Childless t) : (s.freed t).NoDangling := by
  intro u l p hl hp
  obtain ⟨m, hm⟩ := h u l p (freed_tasks hl).2 hp
  have hne : p ≠ t := by
    rintro rfl
    exact hc u l (freed_tasks hl).2 hp
  exact ⟨m, (freed_tasks_of_ne hne).trans hm⟩

/-- The children of each zombie that is to be reaped come before it and are reaped too. -/
def ReapsInOrder (s : State) : Prop :=
  ∀ front t rest k, s.queues.members .zombie = front ++ t :: rest → s.tasks t = some k →
    s.Orphan t k → ∀ c l, s.tasks c = some l → l.parent = some t → c ∈ front ∧ c ≠ s.current

structure Reaping (D K : Prop) (B : State → StartArgs → Prop) (s : State) (front rest : List TaskPtr) (s' : State) : Prop where
  quiets : Quiets False D True K B s s'
  current : s'.current = s.current
  idle : s'.idle = s.idle
  split : front ++ rest = s.queues.members .zombie
  nodup : rest.Nodup
  zombies : ∀ t ∈ rest, t ∈ s'.queues.members .zombie
  tasks : ∀ t k, s'.tasks t = some k → s.tasks t = some k
  others : ∀ t k, s.tasks t = some k → k.state ≠ .zombie → s'.tasks t = some k
  self : s'.tasks s.current = s.tasks s.current
  dangling : D → s'.NoDangling
  kept : D → ∀ c ∈ front, ∀ l, s'.tasks c = some l → ¬ s'.Orphan c l

theorem Reaping.start (hd : D → s.NoDangling) :
    Reaping D K B s [] (s.queues.members .zombie) s :=
  ⟨.refl, rfl, rfl, rfl, s.queues.nodup _, fun _ h => h, fun _ _ h => h, fun _ _ h _ => h, rfl, hd,
    fun _ c hc => by cases hc⟩

theorem Reaping.step {front rest : List TaskPtr} (hi : Inv s) (ho : D → s.ReapsInOrder)
    (h : Reaping D K B s front (t :: rest) s') :
    Post (Bad A D) (s'.reap t) (Reaping D K B s (front ++ [t]) rest) := by
  have hi' := h.quiets.inv hi
  obtain ⟨k, hk, hz, _⟩ := hi'.live (h.zombies t (by simp))
  obtain ⟨hnt, hnr⟩ := List.nodup_cons.mp h.nodup
  have hsplit : (front ++ [t]) ++ rest = s.queues.members .zombie := by
    rw [List.append_assoc, List.singleton_append]
    exact h.split
  refine (reap_spec hi' hk hz h.dangling).mono fun s'' hs => ?_
  rcases hs with ⟨rfl, hno⟩ | ⟨rfl, horph⟩
  · refine ⟨h.quiets, h.current, h.idle, hsplit, hnr, fun u hu => h.zombies u (by simp [hu]),
      h.tasks, h.others, h.self, h.dangling, fun hD c hc l hl => ?_⟩
    rcases List.mem_append.mp hc with hc | hc
    · exact h.kept hD c hc l hl
    · obtain rfl := List.mem_singleton.mp hc
      rw [hk] at hl
      cases hl
      exact hno
  · have hchild : D → s'.Childless t := by
      intro hD c l hl hp
      have horph₀ : s.Orphan t k := by
        refine ⟨by rw [← h.current]; exact horph.1, ?_⟩
        rcases horph.2 with hpi | ⟨p, m, hpp, hm, hmz⟩
        · exact Or.inl (by rw [← h.idle]; exact hpi)
        · exact Or.inr ⟨p, m, hpp, h.tasks p m hm, hmz⟩
      obtain ⟨hc, hcur⟩ := ho hD front t rest k h.split.symm (h.tasks t k hk) horph₀ c l
        (h.tasks c l hl) hp
      exact h.kept hD c hc l hl ⟨by rw [h.current]; exact hcur, Or.inr ⟨t, k, hp, hk, hz⟩⟩
    refine ⟨h.quiets.tail (.reap hk hz horph.1 horph.2 hchild), h.current, h.idle, hsplit, hnr,
      fun u hu => ?_, fun u l hl => h.tasks u l (freed_tasks hl).2, fun u l hl hlz => ?_, ?_,
      fun hD => (h.dangling hD).freed (hchild hD), fun hD c hc l hl => ?_⟩
    · have hut : u ≠ t := fun he => hnt (he ▸ hu)
      exact (List.mem_erase_of_ne hut).mpr (h.zombies u (by simp [hu]))
    · have hut : u ≠ t := by
        rintro rfl
        rw [h.tasks u k hk] at hl
        cases hl
        exact hlz hz
      exact (freed_tasks_of_ne hut).trans (h.others u l hl hlz)
    · exact (freed_tasks_of_ne (by rw [← h.current]; exact Ne.symm horph.1)).trans h.self
    · obtain ⟨hct, hl⟩ := freed_tasks hl
      rcases List.mem_append.mp hc with hc | hc
      · rintro ⟨h1, h2⟩
        refine h.kept hD c hc l hl ⟨h1, h2.imp id ?_⟩
        rintro ⟨p, m, hpp, hm, hmz⟩
        exact ⟨p, m, hpp, (freed_tasks hm).2, hmz⟩
      · exact absurd (List.mem_singleton.mp hc) hct

theorem reapZombies_spec (hi : Inv s) (hd : D → s.NoDangling ∧ s.ReapsInOrder) :
    Post (Bad A D) s.reapZombies (Reaping D K B s (s.queues.members .zombie) []) := by
  exact Post.foldlM (Reaping D K B s) (.start fun hD => (hd hD).1) fun front t rest s' h =>
    h.step hi fun hD => (hd hD).2

theorem SameFamilies.old (f : s.SameFamilies s') (hk : s'.tasks t = some k) :
    ∃ l, s.tasks t = some l ∧ l.parent = k.parent ∧ (l.state = .zombie ↔ k.state = .zombie) := by
  have h := f.tasks t
  rw [hk] at h
  cases hl : s.tasks t with
  | none =>
    rw [hl] at h
    cases h
  | some l =>
    simp only [hl, Option.map_some, Option.some.injEq, Prod.mk.injEq] at h
    refine ⟨l, rfl, h.1.symm, ?_⟩
    have h2 := h.2
    constructor
    · intro hz
      simpa [hz] using h2
    · intro hz
      simpa [hz] using h2.symm

theorem SameFamilies.symm (f : s.SameFamilies s') : s'.SameFamilies s :=
  ⟨f.current.symm, f.idle.symm, f.totalTicks.symm, by rw [f.current]; exact f.self.symm,
    f.zombies.symm, fun t => (f.tasks t).symm⟩

theorem SameFamilies.noDangling (f : s.SameFamilies s') (h : s.NoDangling) : s'.NoDangling := by
  intro t k p hk hp
  obtain ⟨l, hl, hlp, _⟩ := f.old hk
  obtain ⟨m, hm⟩ := h t l p hl (hlp.trans hp)
  obtain ⟨m', hm', _⟩ := f.symm.old hm
  exact ⟨m', hm'⟩

theorem SameFamilies.reapsInOrder (f : s.SameFamilies s') (h : s.ReapsInOrder) :
    s'.ReapsInOrder := by
  intro front t rest k hsplit hk ho c l hl hp
  obtain ⟨k₀, hk₀, hkp, _⟩ := f.old hk
  obtain ⟨l₀, hl₀, hlp, _⟩ := f.old hl
  have ho₀ : s.Orphan t k₀ := by
    refine ⟨by rw [← f.current]; exact ho.1, ?_⟩
    rw [hkp]
    rcases ho.2 with hi | ⟨p, m, hpp, hm, hmz⟩
    · exact Or.inl (by rw [← f.idle]; exact hi)
    · obtain ⟨m₀, hm₀, _, hmz₀⟩ := f.old hm
      exact Or.inr ⟨p, m₀, hpp, hm₀, hmz₀.mpr hmz⟩
  obtain ⟨hc, hcur⟩ := h front t rest k₀ (by rw [← f.zombies]; exact hsplit) hk₀ ho₀ c l₀ hl₀
    (hlp.trans hp)
  exact ⟨hc, by rw [f.current]; exact hcur⟩

inductive Chosen (s : State) : State → Prop where
  | alone {c : Task} : s.queues.members .ready = [] → s.tasks s.current = some c →
      c.state = .running → Chosen s (s.setCtl .resume)
  | keep {new : TaskPtr} {k c : Task} : s.queueTop .ready = some new → s.tasks new = some k →
      s.tasks s.current = some c → c.state = .running → c.priority > k.priority →
      Chosen s (s.setCtl .resume)
  | switch {new : TaskPtr} {k c : Task} : s.queueTop .ready = some new → s.tasks new = some k →
      k.state = .ready → s.tasks s.current = some c → c.state ≠ .running →
      Chosen s (s.switched new k)
  | preempt {new : TaskPtr} {k c : Task} : s.queueTop .ready = some new → s.tasks new = some k →
      k.state = .ready → s.tasks s.current = some c → c.state = .running →
      c.priority ≤ k.priority → Chosen s ((s.woken s.current c).switched new k)

theorem queueTop_mem {hd : Head} (h : s.queueTop hd = some t) : t ∈ s.queues.members hd :=
  List.mem_of_getLast? h

theorem Inv.alone (hi : Inv s) (h : s.queues.members .ready = []) :
    ∃ c, s.tasks s.current = some c ∧ c.state = .running := by
  obtain ⟨l, hl, hs⟩ := hi.idle
  have hready : l.state ≠ .ready := by
    intro hr
    have hm : s.idle ∈ s.queues.members .ready := hi.mem hl hr.symm (by rw [hr]; decide)
    rw [h] at hm
    cases hm
  have hr := hs.resolve_right hready
  rw [((hi.home _ l hl).running hr).1] at hl
  exact ⟨l, hl, hr⟩

theorem setTaskRunning_eq (hi : Placed s) (hk : s.tasks t = some k) (hr : k.state = .ready) :
    s.setTaskRunning t =
      .ok { (s.unlink t).setTask t { k with state := .running } with current := t } := by
  have hl := (hi.home t k hk).link_eq (h := .ready) (by rw [hr]; rfl) (by rw [hr]; decide)
  unfold setTaskRunning
  rw [task_ok hk, ok_bind, if_pos (by rw [hr]; decide), queueDel_eq (by rw [hl]; simp), ok_bind]

theorem setTaskReady_current {c : Task} (hi : Placed s) (hc : s.tasks s.current = some c)
    (hr : c.state = .running) : s.setTaskReady s.current = .ok (s.woken s.current c) := by
  have hl := ((hi.home _ c hc).running hr).2
  exact setTaskState_eq hc (by rw [hr]; decide)
    ⟨fun h => absurd rfl h.1, fun h => absurd hl h⟩

theorem setTaskRunning_switched (hi : Placed s) (hk : s.tasks t = some k) (hr : k.state = .ready) :
    (do
      let s ← s.setTaskRunning t
      let task ← s.task t
      if task.firstStart then
        .ok ((s.setTask t { task with firstStart := false }).setCtl .user)
      else .ok (s.setCtl .resume) : Except Fault State) = .ok (s.switched t k) := by
  rw [setTaskRunning_eq hi hk hr, ok_bind]
  have hself : ({ (s.unlink t).setTask t { k with state := .running } with current := t } :
      State).tasks t = some { k with state := .running } := setTask_tasks_self
  rw [task_ok hself, ok_bind]
  cases hf : k.firstStart with
  | true => simp [hf, switched, setTask, unlink, setCtl]
  | false =>
    simp only [hf, Bool.false_eq_true, if_false, switched]
    rfl

theorem chooseTask_spec (hi : Inv s) : Post (Bad A D) s.chooseTask (Chosen s) := by
  unfold chooseTask
  obtain ⟨c, hc, hcr⟩ := hi.current
  split
  · rename_i hn
    have hnil : s.queues.members .ready = [] := List.getLast?_eq_none_iff.mp hn
    obtain ⟨c', hc', hr⟩ := hi.alone hnil
    exact .ok (.alone hnil hc' hr)
  · rename_i new hnew
    obtain ⟨k, hk, hr, _⟩ := hi.live (queueTop_mem hnew)
    rw [task_ok hc, ok_bind, task_ok hk, ok_bind]
    have hne : s.current ≠ new := by
      rintro rfl
      rw [hc] at hk
      cases hk
      exact hcr hr
    split
    · rename_i hkeep
      obtain ⟨h1, h2⟩ := hkeep.resolve_left hne
      exact .ok (.keep hnew hk hc h1 h2)
    · rename_i hgo
      unfold switchTo
      by_cases hrun : c.state = .running
      · have hle : c.priority ≤ k.priority := by
          by_contra hgt
          exact hgo (Or.inr ⟨hrun, not_le.mp hgt⟩)
        rw [if_pos hrun, setTaskReady_current hi.toPlaced hc hrun, ok_bind]
        have hp := hi.toPlaced.woken hc (by rw [hrun]; decide) rfl rfl rfl
        have hk' : (s.woken s.current c).tasks new = some k :=
          (setTask_tasks_of_ne (Ne.symm hne)).trans hk
        rw [setTaskRunning_switched hp hk' hr]
        exact .ok (.preempt hnew hk hr hc hrun hle)
      · rw [if_neg hrun, ok_bind, setTaskRunning_switched hi.toPlaced hk hr]
        exact .ok (.switch hnew hk hr hc hrun)

theorem schedule_spec (hi : Inv s) (ha : A → s.Awake) (hd : D → s.NoDangling ∧ s.ReapsInOrder) :
    Post (Bad A D) s.schedule fun s' => ∃ s₁ s₂, Quiets False D True K B s s₁ ∧ s.SameFamilies s₁ ∧
      Reaping D K B s₁ (s₁.queues.members .zombie) [] s₂ ∧ Chosen s₂ s' := by
  unfold schedule
  refine (tryWakeupTasks_spec (K := K) (B := B) hi ha).bind fun s₁ ⟨hq, hf⟩ => ?_
  have hi₁ := hq.inv hi
  have hd₁ : D → s₁.NoDangling ∧ s₁.ReapsInOrder := fun hD =>
    ⟨hf.noDangling (hd hD).1, hf.reapsInOrder (hd hD).2⟩
  refine (reapZombies_spec (K := K) (B := B) hi₁ hd₁).bind fun s₂ hr => ?_
  exact (chooseTask_spec (hr.quiets.inv hi₁)).mono fun s' hc => ⟨s₁, s₂, hq, hf, hr, hc⟩

end State
end DominOS.Process
