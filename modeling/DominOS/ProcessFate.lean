import DominOS.ProcessMailQuiet

/-! What one change makes of a single task. -/
namespace DominOS.Process
open IntrusiveLists Relation
namespace State
variable {s s' : State} {t u : TaskPtr} {k k' l l' : Task} {T D M K R L : Prop} {r : Int}
  {B : State → StartArgs → Prop}

structure Became (s : State) (t : TaskPtr) (k k' : Task) : Prop where
  pid : k'.pid = k.pid
  parent : k'.parent = k.parent
  firstStart : k'.firstStart = k.firstStart
  kont : t ≠ s.current → k'.kont = k.kont
  dead : k.state = .zombie → k'.state = .zombie ∧ k'.retval = k.retval

theorem Became.refl (s : State) (t : TaskPtr) (k : Task) : Became s t k k :=
  ⟨rfl, rfl, rfl, fun _ => rfl, fun h => ⟨h, rfl⟩⟩

def Descends (s s' : State) : Prop :=
  ∀ t k', s'.tasks t = some k' →
    (t = s.fresh ∧ ∃ pid a, k' = { s.newTask pid a with state := .ready }) ∨
      ∃ k, s.tasks t = some k ∧ Became s t k k'

theorem Descends.of_same (h : s'.tasks = s.tasks) : s.Descends s' := by
  intro t k' hk'
  rw [h] at hk'
  exact Or.inr ⟨k', hk', .refl s t k'⟩

theorem Descends.one (hl : s.tasks u = some l) (ht : s'.tasks = Function.update s.tasks u (some l'))
    (hb : Became s u l l') : s.Descends s' := by
  intro t k' hk'
  rw [ht] at hk'
  by_cases he : t = u
  · subst he
    rw [Function.update_self] at hk'
    cases hk'
    exact Or.inr ⟨l, hl, hb⟩
  · rw [Function.update_of_ne he] at hk'
    exact Or.inr ⟨k', hk', .refl s t k'⟩

theorem Mourned.descends {parent : Option TaskPtr} (m : Mourned (s.died t k r) parent s')
    (hk : s.tasks t = some k) (hz : k.state ≠ .zombie) : s.Descends s' := by
  have hdied : s.Descends (s.died t k r) :=
    .one hk rfl ⟨rfl, rfl, rfl, fun _ => rfl, fun h => absurd h hz⟩
  cases m with
  | alone _ => exact hdied
  | @woken p l _ hl hs _ =>
    intro u k' hk'
    by_cases hu : u = p
    · subst hu
      have hself : ((s.died t k r).woken u l).tasks u = some { l with state := .ready } :=
        setTask_tasks_self
      rw [hself] at hk'
      cases hk'
      rcases hdied u l hl with ⟨hf, pid, a, rfl⟩ | ⟨l₀, hl₀, hb⟩
      · exact Or.inl ⟨hf, pid, a, rfl⟩
      · refine Or.inr ⟨l₀, hl₀, hb.pid, hb.parent, hb.firstStart, hb.kont, fun h => ?_⟩
        have := (hb.dead h).1
        rw [hs] at this
        cases this
    · have hother : ((s.died t k r).woken p l).tasks u = (s.died t k r).tasks u :=
        setTask_tasks_of_ne hu
      rw [hother] at hk'
      exact hdied u k' hk'

theorem Effect.descends (e : Effect T D M K B s s') (hi : Inv s) : s.Descends s' := by
  cases e with
  | quiet q =>
    cases q with
    | same e _ =>
      obtain ⟨c, hc, _⟩ := hi.current
      obtain ⟨kont, msgVal, hself, _⟩ := e.self c hc
      intro t k' hk'
      by_cases ht : t = s.current
      · subst ht
        rw [hself] at hk'
        cases hk'
        exact Or.inr ⟨c, hc, rfl, rfl, rfl, fun h => absurd rfl h, fun h => ⟨h, rfl⟩⟩
      · rw [e.others t ht] at hk'
        exact Or.inr ⟨k', hk', .refl s t k'⟩
    | wake hk _ hz _ _ _ _ =>
      exact .one hk rfl ⟨rfl, rfl, rfl, fun _ => rfl, fun h => absurd h hz⟩
    | die hk _ _ hz _ hm _ _ => exact hm.descends hk hz
    | reap _ _ _ _ _ =>
      intro u k' hk'
      exact Or.inr ⟨k', (freed_tasks hk').2, .refl s u k'⟩
    | reapChild _ _ _ _ _ _ _ =>
      intro u k' hk'
      exact Or.inr ⟨k', (freed_tasks hk').2, .refl s u k'⟩
    | @start c pid a _ _ _ _ _ _ =>
      intro u k' hk'
      rcases born_tasks hk' with ⟨hu, rfl⟩ | ⟨_, hk'⟩
      · exact Or.inl ⟨hu, pid, a, rfl⟩
      · exact Or.inr ⟨k', hk', .refl s u k'⟩
    | @rank t k c p hk _ hz _ _ =>
      have ht : (s.ranked t k p).tasks = Function.update s.tasks t (some { k with priority := p }) := by
        unfold ranked
        split <;> rfl
      exact .one hk ht ⟨rfl, rfl, rfl, fun _ => rfl, fun h => absurd h hz⟩
    | create _ _ _ => exact .of_same rfl
    | drop _ _ _ => exact .of_same rfl
    | leak _ _ => exact .of_same rfl
    | sawStart _ _ => exact .of_same rfl
  | exit _ hk _ hr _ hm => exact hm.descends hk (by rw [hr]; decide)
  | block _ hk hr _ _ _ _ _ _ _ =>
    exact .one hk rfl ⟨rfl, rfl, rfl, fun h => absurd rfl h, fun h => by rw [hr] at h; cases h⟩

theorem Effect.current (e : Effect T D M K B s s') : s'.current = s.current ∧ s'.idle = s.idle := by
  cases e with
  | quiet q => exact ⟨q.current.1, q.current.2.1⟩
  | exit _ _ _ _ _ hm => exact ⟨hm.current.1, hm.current.2.1⟩
  | block _ _ _ _ _ _ _ _ _ _ => exact ⟨rfl, rfl⟩

def Unstarted (s : State) : Prop :=
  ∀ t k, s.tasks t = some k → k.firstStart = true → k.kont = .iret ∧ t ≠ s.current

theorem boot_unstarted : boot.Unstarted := by
  intro t k hk hf
  simp only [boot] at hk
  split at hk
  · cases hk
    cases hf
  · cases hk

theorem Effect.unstarted (e : Effect T D M K B s s') (hi : Inv s) (h : s.Unstarted) :
    s'.Unstarted := by
  intro t k' hk' hf
  rw [e.current.1]
  obtain ⟨c, hc, _⟩ := hi.current
  rcases e.descends hi t k' hk' with ⟨rfl, pid, a, rfl⟩ | ⟨k, hk, hb⟩
  · exact ⟨rfl, Ne.symm (hi.ne_fresh hc)⟩
  · obtain ⟨hkont, hne⟩ := h t k hk (hb.firstStart.symm.trans hf)
    exact ⟨(hb.kont hne).trans hkont, hne⟩

theorem Effects.unstarted (e : Effects T D M K B s s') (hi : Inv s) (h : s.Unstarted) :
    s'.Unstarted := by
  induction e with
  | refl => exact h
  | tail hab e ih => exact e.unstarted (Effects.inv hab hi) ih

theorem Unstarted.switched (h : s.Unstarted) (hk : s.tasks t = some k) :
    (s.switched t k).Unstarted := by
  intro u l hl hf
  change l.kont = .iret ∧ u ≠ t
  by_cases hu : u = t
  · subst hu
    have hself : (s.switched u k).tasks u = some { k with state := .running, firstStart := false } :=
      setTask_tasks_self
    rw [hself] at hl
    cases hl
    cases hf
  · have hother : (s.switched t k).tasks u = s.tasks u := setTask_tasks_of_ne hu
    rw [hother] at hl
    exact ⟨(h u l hl hf).1, hu⟩

theorem Switch.unstarted (e : Switch s s') (h : s.Unstarted) : s'.Unstarted := by
  cases e with
  | switch hk _ _ => exact h.switched hk
  | @preempt new k c hk hs hc hr =>
    have hne : new ≠ s.current := ne_of_state hk hc (by rw [hs, hr]; decide)
    have hw : (s.woken s.current c).Unstarted := by
      intro u l hl hf
      by_cases hu : u = s.current
      · subst hu
        rw [woken_self] at hl
        cases hl
        exact absurd rfl (h _ c hc hf).2
      · rw [woken_of_ne hu] at hl
        exact h u l hl hf
    exact hw.switched ((woken_of_ne hne).trans hk)

theorem Switch.noDangling (e : Switch s s') (h : s.NoDangling) : s'.NoDangling := by
  cases e with
  | switch hk _ _ => exact (SameParents.setTask hk ⟨_, rfl, by exact rfl⟩).noDangling h
  | @preempt new k c hk hs hc hr =>
    have hne : new ≠ s.current := ne_of_state hk hc (by rw [hs, hr]; decide)
    have h1 : (s.woken s.current c).NoDangling :=
      (SameParents.setTask hc ⟨_, rfl, by exact rfl⟩).noDangling h
    exact (SameParents.setTask ((woken_of_ne hne).trans hk) ⟨_, rfl, by exact rfl⟩).noDangling h1

end State
end DominOS.Process
