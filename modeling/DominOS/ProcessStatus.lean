import DominOS.ProcessRuns

/-! What becomes of tasks: zombies stay zombies until they are freed, their status goes to the
parent once, and no parent sleeps over the death of a child. -/
namespace DominOS.Process
open IntrusiveLists Fallible Relation Runs

def Obs.Mild : Obs → Prop
  | .exited .. | .reaped .. => False
  | _ => True

theorem Obs.Plain.mild {o : Obs} (h : o.Plain) : o.Mild := by
  cases o <;> trivial

theorem Obs.split {O tr f b : List Obs} {o : Obs} {P : Obs → Prop} (h : O ++ tr = f ++ o :: b)
    (ho : ∀ o ∈ O, P o) (hn : ¬ P o) : ∃ g, tr = g ++ o :: b := by
  induction O generalizing f with
  | nil => exact ⟨f, h⟩
  | cons p O ih =>
    cases f with
    | nil =>
      obtain ⟨rfl, _⟩ := List.cons.inj h
      exact absurd (ho p List.mem_cons_self) hn
    | cons q f => exact ih (List.cons.inj h).2 fun o hm => ho o (List.mem_cons_of_mem _ hm)

namespace State
variable {s s' : State} {t u : TaskPtr} {k k' c l : Task} {h : Head} {e : Event} {r : Int}
  {kont : Kont} {A T D M K R L : Prop} {B : State → StartArgs → Prop}

section Follows

structure Follows (s s' : State) : Prop where
  fresh : s.fresh ≤ s'.fresh
  old : ∀ t k', t < s.fresh → s'.tasks t = some k' → ∃ k, s.tasks t = some k ∧
    k'.pid = k.pid ∧ k'.parent = k.parent ∧
      (k.state = .zombie → k'.state = .zombie ∧ k'.retval = k.retval)

theorem Follows.refl (s : State) : s.Follows s :=
  ⟨Nat.le_refl _, fun _ k' _ hk' => ⟨k', hk', rfl, rfl, fun h => ⟨h, rfl⟩⟩⟩

theorem Follows.trans {s'' : State} (h : s.Follows s') (h' : s'.Follows s'') : s.Follows s'' where
  fresh := h.fresh.trans h'.fresh
  old t k'' ht hk'' := by
    obtain ⟨k', hk', hpid', hp', hz'⟩ := h'.old t k'' (lt_of_lt_of_le ht h.fresh) hk''
    obtain ⟨k, hk, hpid, hp, hz⟩ := h.old t k' ht hk'
    refine ⟨k, hk, hpid'.trans hpid, hp'.trans hp, fun hzombie => ?_⟩
    obtain ⟨h1, h2⟩ := hz hzombie
    obtain ⟨h3, h4⟩ := hz' h1
    exact ⟨h3, h4.trans h2⟩

theorem Descends.follows (h : s.Descends s') (hf : s.fresh ≤ s'.fresh) : s.Follows s' where
  fresh := hf
  old t k' ht hk' := by
    rcases h t k' hk' with ⟨rfl, _⟩ | ⟨k, hk, hb⟩
    · exact absurd ht (Nat.lt_irrefl _)
    · exact ⟨k, hk, hb.pid, hb.parent, hb.dead⟩

theorem Mourned.fresh {parent : Option TaskPtr} (m : Mourned s parent s') : s'.fresh = s.fresh := by
  cases m <;> rfl

theorem Effect.fresh (e : Effect T D M K B s s') : s.fresh ≤ s'.fresh := by
  cases e with
  | quiet q =>
    cases q with
    | same e _ => exact le_of_eq e.fresh.symm
    | die _ _ _ _ _ hm _ _ => exact le_of_eq hm.fresh.symm
    | start _ _ _ _ _ _ => exact Nat.le_succ _
    | rank _ _ _ _ _ =>
      unfold ranked
      split <;> exact Nat.le_refl _
    | _ => exact Nat.le_refl _
  | exit _ _ _ _ _ hm => exact le_of_eq hm.fresh.symm
  | block _ _ _ _ _ _ _ _ _ _ => exact Nat.le_refl _

theorem Effect.follows (e : Effect T D M K B s s') (hi : Inv s) : s.Follows s' :=
  (e.descends hi).follows e.fresh

theorem Follows.switched (hk : s.tasks t = some k) (hs : k.state ≠ .zombie) :
    s.Follows (s.switched t k) := by
  refine ⟨Nat.le_refl _, fun u k' _ hk' => ?_⟩
  by_cases hu : u = t
  · rw [hu, show (s.switched t k).tasks t = some { k with state := .running, firstStart := false } from
      setTask_tasks_self] at hk'
    cases hk'
    exact ⟨k, hu ▸ hk, rfl, rfl, fun h => absurd h hs⟩
  · rw [show (s.switched t k).tasks u = s.tasks u from setTask_tasks_of_ne hu] at hk'
    exact ⟨k', hk', rfl, rfl, fun h => ⟨h, rfl⟩⟩

theorem Follows.woken (hk : s.tasks t = some k) (hs : k.state ≠ .zombie) :
    s.Follows (s.woken t k) := by
  refine ⟨Nat.le_refl _, fun u k' _ hk' => ?_⟩
  by_cases hu : u = t
  · rw [hu, woken_self] at hk'
    cases hk'
    exact ⟨k, hu ▸ hk, rfl, rfl, fun h => absurd h hs⟩
  · rw [woken_of_ne hu] at hk'
    exact ⟨k', hk', rfl, rfl, fun h => ⟨h, rfl⟩⟩

theorem Switch.follows (e : Switch s s') : s.Follows s' := by
  cases e with
  | switch hk hs _ => exact .switched hk (by rw [hs]; decide)
  | @preempt new k c hk hs hc hr =>
    have hne : new ≠ s.current := ne_of_state hk hc (by rw [hs, hr]; decide)
    have hw : s.Follows (s.woken s.current c) := .woken hc (by rw [hr]; decide)
    exact hw.trans (.switched ((woken_of_ne hne).trans hk) (by rw [hs]; decide))

theorem Stepped.follows (st : Stepped A T D K R L B s s') (h : Sound A D K s) : s.Follows s' :=
  st.keeps (P := s.Follows) h.inv (.refl s) (fun _ _ hi hp e => hp.trans (e.follows hi))
    fun _ _ _ hp e => hp.trans e.follows

end Follows

section Attentive

/-- What `t` waits for at `kont` has not happened. -/
def Awaits (s : State) (t : TaskPtr) (kont : Kont) : Prop :=
  match kont with
  | .waitAnyChild _ => ∀ c l, s.tasks c = some l → l.parent = some t → l.state ≠ .zombie
  | .waitSpecificChild c _ => ∀ l, s.tasks c = some l → l.state ≠ .zombie
  | _ => False

def Attentive (s : State) : Prop :=
  ∀ t k, s.tasks t = some k → k.state = .interruptedChild → s.Awaits t k.kont

theorem boot_attentive : boot.Attentive := by
  intro t k hk hs
  simp only [boot] at hk
  split at hk
  · cases hk
    cases hs
  · cases hk

theorem Awaits.mono (h : s.Awaits t kont) (hz : ∀ c l', s'.tasks c = some l' →
    l'.state = .zombie → ∃ l, s.tasks c = some l ∧ l.state = .zombie ∧ l.parent = l'.parent) :
    s'.Awaits t kont := by
  cases kont with
  | waitAnyChild r =>
    intro c l' hl' hp hzombie
    obtain ⟨l, hl, hs, hparent⟩ := hz c l' hl' hzombie
    exact h c l hl (hparent.trans hp) hs
  | waitSpecificChild c r =>
    intro l' hl' hzombie
    obtain ⟨l, hl, hs, _⟩ := hz c l' hl' hzombie
    exact h l hl hs
  | _ => exact h

theorem Attentive.update (h : s.Attentive) (ht : ∀ u, u ≠ t → s'.tasks u = s.tasks u)
    (hz : ∀ k', s'.tasks t = some k' → k'.state = .zombie →
      ∃ k, s.tasks t = some k ∧ k.state = .zombie ∧ k.parent = k'.parent)
    (hw : ∀ k', s'.tasks t = some k' → k'.state = .interruptedChild →
      ∃ k, s.tasks t = some k ∧ k.state = .interruptedChild ∧ k.kont = k'.kont) :
    s'.Attentive := by
  intro u k' hk' hs
  have hold : s.Awaits u k'.kont := by
    by_cases hu : u = t
    · subst hu
      obtain ⟨k, hk, hs, hkont⟩ := hw k' hk' hs
      rw [← hkont]
      exact h u k hk hs
    · rw [ht u hu] at hk'
      exact h u k' hk' hs
  refine hold.mono fun c l' hl' hzombie => ?_
  by_cases hc : c = t
  · subst hc
    exact hz l' hl' hzombie
  · rw [ht c hc] at hl'
    exact ⟨l', hl', hzombie, rfl⟩

theorem Attentive.woken (h : s.Attentive) : (s.woken t k).Attentive := by
  refine h.update (t := t) (fun _ => woken_of_ne) (fun k' hk' hs => ?_) fun k' hk' hs => ?_ <;>
  · rw [woken_self] at hk'
    cases hk'
    cases hs

theorem Attentive.switched (h : s.Attentive) : (s.switched t k).Attentive := by
  have hself : (s.switched t k).tasks t = some { k with state := .running, firstStart := false } :=
    setTask_tasks_self
  refine h.update (t := t) (fun _ => setTask_tasks_of_ne) (fun k' hk' hs => ?_) fun k' hk' hs => ?_ <;>
  · rw [hself] at hk'
    cases hk'
    cases hs

theorem Attentive.freed (h : s.Attentive) : (s.freed t).Attentive := by
  refine h.update (t := t) (fun _ => freed_tasks_of_ne) (fun k' hk' _ => ?_) fun k' hk' _ => ?_ <;>
    exact absurd rfl (freed_tasks hk').1

theorem Attentive.born {pid : Nat} {a : StartArgs} (h : s.Attentive) :
    (s.born pid a).Attentive := by
  refine h.update (t := s.fresh) (fun _ => born_tasks_of_ne) (fun k' hk' hs => ?_)
    fun k' hk' hs => ?_ <;>
  · rw [born_tasks_fresh] at hk'
    cases hk'
    cases hs

theorem Attentive.ranked {p : Int} (h : s.Attentive) (hk : s.tasks t = some k) :
    (s.ranked t k p).Attentive := by
  refine h.update (t := t) (fun _ => ranked_of_ne) (fun k' hk' hs => ?_) fun k' hk' hs => ?_ <;>
  · rw [ranked_self] at hk'
    cases hk'
    exact ⟨k, hk, hs, rfl⟩

theorem Mourned.task {s₀ : State} {parent : Option TaskPtr} (m : Mourned s₀ parent s')
    (hl : s'.tasks u = some l) : s₀.tasks u = some l ∨
      l.state = .ready ∧ parent = some u ∧ ∃ l₀, s₀.tasks u = some l₀ ∧ l₀.parent = l.parent := by
  cases m with
  | alone _ => exact Or.inl hl
  | @woken p lp he hlp _ _ =>
    by_cases hu : u = p
    · subst hu
      rw [woken_self] at hl
      cases hl
      exact Or.inr ⟨rfl, he, lp, hlp, rfl⟩
    · rw [woken_of_ne hu] at hl
      exact Or.inl hl

theorem Mourned.awake {s₀ : State} {parent : Option TaskPtr} (m : Mourned s₀ parent s')
    (hl : s'.tasks u = some l) (hs : l.state = .interruptedChild) : parent ≠ some u := by
  intro he
  cases m with
  | alone hn => exact hn u l he hl hs
  | woken hp hlp _ _ =>
    obtain rfl := Option.some.inj (hp.symm.trans he)
    rw [woken_self] at hl
    cases hl
    cases hs

theorem Mourned.attentive (m : Mourned (s.died t k r) k.parent s') (hi : Inv s)
    (hk : s.tasks t = some k) (h : s.Attentive) : s'.Attentive := by
  have hself : (s.died t k r).tasks t = some { k with
      state := .zombie, priority := deathPriority s.totalTicks, retval := r } := setTask_tasks_self
  have hother (u : TaskPtr) (hu : u ≠ t) : (s.died t k r).tasks u = s.tasks u :=
    setTask_tasks_of_ne hu
  have zombie (c : TaskPtr) (l : Task) (hc : c ≠ t) (hl : s'.tasks c = some l)
      (hz : l.state = .zombie) : s.tasks c = some l := by
    rcases m.task hl with hl | ⟨hs, _⟩
    · exact (hother c hc).symm.trans hl
    · rw [hs] at hz
      cases hz
  intro u l hl hs
  have hparent : k.parent ≠ some u := m.awake hl hs
  have hu : s.tasks u = some l := by
    rcases m.task hl with hl | ⟨hready, _⟩
    · by_cases hut : u = t
      · rw [hut, hself] at hl
        cases hl
        cases hs
      · exact (hother u hut).symm.trans hl
    · rw [hs] at hready
      cases hready
  have hold := h u l hu hs
  cases hkont : l.kont with
  | waitAnyChild q =>
    rw [hkont] at hold
    intro c l' hl' hp hz
    by_cases hc : c = t
    · subst hc
      rcases m.task hl' with hl' | ⟨hready, _⟩
      · rw [hself] at hl'
        cases hl'
        exact hparent hp
      · rw [hready] at hz
        cases hz
    · exact hold c l' (zombie c l' hc hl' hz) hp hz
  | waitSpecificChild c q =>
    rw [hkont] at hold
    intro l' hl' hz
    obtain ⟨lc, hlc, hp⟩ := (hi.konts u l hu (by rw [hs]; decide)).child c q hkont
    by_cases hc : c = t
    · subst hc
      rw [hk] at hlc
      cases hlc
      exact hparent hp
    · exact hold l' (zombie c l' hc hl' hz) hz
  | _ =>
    rw [hkont] at hold
    exact hold.elim

theorem SameLists.attentive (e : s.SameLists s') (hc : s.tasks s.current = some c)
    (h : s.Attentive) : s'.Attentive := by
  obtain ⟨kont, msgVal, hself, hkont⟩ := e.self c hc
  refine h.update e.others (fun k' hk' hs => ?_) fun k' hk' hs => ?_
  · rw [hself] at hk'
    cases hk'
    exact ⟨c, hc, hs, rfl⟩
  · rw [hself] at hk'
    cases hk'
    refine ⟨c, hc, hs, ?_⟩
    rcases hkont with hkont | ⟨hne, _⟩
    · exact hkont.symm
    · exact absurd hs hne

theorem Attentive.blocked {w : Nat} {m : Msg} (h : s.Attentive) (hz : hd.state ≠ .zombie)
    (hw : hd.state = .interruptedChild → s.Expects kont) :
    (s.blocked hd { k with wakeTime := w, msgVal := m } kont).Attentive := by
  have hself : (s.blocked hd { k with wakeTime := w, msgVal := m } kont).tasks s.current =
      some { k with wakeTime := w, msgVal := m, state := hd.state, kont := kont } :=
    setTask_tasks_self
  have hother (u : TaskPtr) (hu : u ≠ s.current) :
      (s.blocked hd { k with wakeTime := w, msgVal := m } kont).tasks u = s.tasks u :=
    setTask_tasks_of_ne hu
  intro u l hl hs
  have hold : s.Awaits u l.kont := by
    by_cases hu : u = s.current
    · rw [hu, hself] at hl
      cases hl
      rw [hu]
      have hexp := hw hs
      cases kont with
      | waitAnyChild q => exact hexp
      | waitSpecificChild c q => exact hexp
      | _ => exact hexp.elim
    · rw [hother u hu] at hl
      exact h u l hl hs
  refine hold.mono fun c l' hl' hzombie => ?_
  by_cases hc : c = s.current
  · rw [hc, hself] at hl'
    cases hl'
    exact absurd hzombie hz
  · rw [hother c hc] at hl'
    exact ⟨l', hl', hzombie, rfl⟩

theorem Effect.attentive (e : Effect T D M K B s s') (hi : Inv s) (h : s.Attentive) :
    s'.Attentive := by
  cases e with
  | quiet q =>
    cases q with
    | same e _ =>
      obtain ⟨c, hc, _⟩ := hi.current
      exact e.attentive hc h
    | wake _ _ _ _ _ _ _ => exact h.woken
    | die hk _ _ _ _ hm _ _ => exact hm.attentive hi hk h
    | reap _ _ _ _ _ => exact h.freed
    | reapChild _ _ _ _ _ _ _ => exact h.freed
    | start _ _ _ _ _ _ => exact h.born
    | rank hk _ _ _ _ => exact h.ranked hk
    | create _ _ _ => exact h
    | drop _ _ _ => exact h
    | leak _ _ => exact h
    | sawStart _ _ => exact h
  | exit _ hk _ _ _ hm => exact hm.attentive hi hk h
  | block _ _ _ _ _ hz _ _ _ hw => exact h.blocked hz hw

theorem Switch.attentive (e : Switch s s') (h : s.Attentive) : s'.Attentive := by
  cases e with
  | switch _ _ _ => exact h.switched
  | preempt _ _ _ _ => exact h.woken.switched

end Attentive

section Ledger

structure Ledger (s : State) : Prop where
  dead : ∀ t k, s.tasks t = some k → k.state = .zombie → .exited t k.retval ∈ s.trace
  exited : ∀ t r, .exited t r ∈ s.trace → t < s.fresh ∧
    ∀ k, s.tasks t = some k → k.state = .zombie
  reaped : ∀ p c pid r, .reaped p c pid r ∈ s.trace → c < s.fresh ∧ s.tasks c = none
  exits : ∀ f t r b, s.trace = f ++ .exited t r :: b → ∀ r', .exited t r' ∉ b
  reports : ∀ f p c pid r b, s.trace = f ++ .reaped p c pid r :: b →
    .exited c r ∈ b ∧ ∀ p' pid' r', .reaped p' c pid' r' ∉ b

theorem boot_ledger : boot.Ledger := by
  refine ⟨fun t k hk hz => ?_, nofun, nofun, fun f t r b h => ?_, fun f p c pid r b h => ?_⟩
  · simp only [boot] at hk
    split at hk
    · cases hk
      cases hz
    · cases hk
  · cases f <;> cases h
  · cases f <;> cases h

theorem Ledger.pass {O : List Obs} (h : s.Ledger) (f : s.Follows s') (ht : s'.trace = O ++ s.trace)
    (ho : ∀ o ∈ O, o.Mild) (hz : ∀ t k', s'.tasks t = some k' → k'.state = .zombie →
      ∃ k, s.tasks t = some k ∧ k.state = .zombie ∧ k.retval = k'.retval) : s'.Ledger := by
  have mem {o : Obs} (hm : o ∈ s.trace) : o ∈ s'.trace := by
    rw [ht]
    exact List.mem_append_right _ hm
  have old {o : Obs} (hm : o ∈ s'.trace) (hn : ¬ o.Mild) : o ∈ s.trace := by
    rw [ht] at hm
    exact (List.mem_append.mp hm).resolve_left fun h => hn (ho o h)
  refine ⟨fun t k' hk' hs => ?_, fun t r hm => ?_, fun p c pid r hm => ?_, fun g t r b hg => ?_,
    fun g p c pid r b hg => ?_⟩
  · obtain ⟨k, hk, hs, hr⟩ := hz t k' hk' hs
    rw [← hr]
    exact mem (h.dead t k hk hs)
  · obtain ⟨hlt, hzombie⟩ := h.exited t r (old hm nofun)
    refine ⟨lt_of_lt_of_le hlt f.fresh, fun k' hk' => ?_⟩
    obtain ⟨k, hk, _, _, hstay⟩ := f.old t k' hlt hk'
    exact (hstay (hzombie k hk)).1
  · obtain ⟨hlt, hnone⟩ := h.reaped p c pid r (old hm nofun)
    refine ⟨lt_of_lt_of_le hlt f.fresh, ?_⟩
    cases hc : s'.tasks c with
    | none => rfl
    | some k' =>
      obtain ⟨k, hk, _⟩ := f.old c k' hlt hc
      rw [hnone] at hk
      cases hk
  · obtain ⟨g', hg'⟩ := Obs.split (ht.symm.trans hg) ho nofun
    exact h.exits g' t r b hg'
  · obtain ⟨g', hg'⟩ := Obs.split (ht.symm.trans hg) ho nofun
    exact h.reports g' p c pid r b hg'

theorem Ledger.update (h : s.Ledger) (f : s.Follows s') (htr : s'.trace = s.trace)
    (ht : ∀ u, u ≠ t → s'.tasks u = s.tasks u) (hk' : s'.tasks t = some k')
    (hz : k'.state ≠ .zombie) : s'.Ledger := by
  refine h.pass (O := []) f htr (by simp) fun u l hl hs => ?_
  by_cases hu : u = t
  · rw [hu, hk'] at hl
    cases hl
    exact absurd hs hz
  · rw [ht u hu] at hl
    exact ⟨l, hl, hs, rfl⟩

theorem Ledger.woken (h : s.Ledger) (f : s.Follows (s.woken t k)) : (s.woken t k).Ledger :=
  h.update f rfl (fun _ => woken_of_ne) woken_self nofun

theorem Ledger.switched (h : s.Ledger) (f : s.Follows (s.switched t k)) :
    (s.switched t k).Ledger :=
  h.update f rfl (fun _ => setTask_tasks_of_ne) setTask_tasks_self nofun

theorem Mourned.trace {parent : Option TaskPtr} (m : Mourned s parent s') : s'.trace = s.trace := by
  cases m <;> rfl

theorem Mourned.ledger (m : Mourned (s.died t k r) k.parent s') (hi : Inv s)
    (hk : s.tasks t = some k) (hz : k.state ≠ .zombie) (h : s.Ledger) : s'.Ledger := by
  have hnew (r' : Int) : .exited t r' ∉ s.trace := fun hm => hz ((h.exited t r' hm).2 k hk)
  have hself : (s.died t k r).tasks t = some { k with
      state := .zombie, priority := deathPriority s.totalTicks, retval := r } := setTask_tasks_self
  have hother (u : TaskPtr) (hu : u ≠ t) : (s.died t k r).tasks u = s.tasks u :=
    setTask_tasks_of_ne hu
  have f : s.Follows (s.died t k r) := by
    refine ⟨Nat.le_refl _, fun u l _ hl => ?_⟩
    by_cases hu : u = t
    · rw [hu, hself] at hl
      cases hl
      exact ⟨k, hu ▸ hk, rfl, rfl, fun h => absurd h hz⟩
    · rw [hother u hu] at hl
      exact ⟨l, hl, rfl, rfl, fun h => ⟨h, rfl⟩⟩
  have hdied : (s.died t k r).Ledger := by
    refine ⟨fun u l hl hs => ?_, fun u r' hm => ?_, fun p c pid r' hm => ?_, fun g u r' b hg => ?_,
      fun g p c pid r' b hg => ?_⟩
    · by_cases hu : u = t
      · rw [hu, hself] at hl
        cases hl
        rw [hu]
        exact List.mem_cons_self
      · rw [hother u hu] at hl
        exact List.mem_cons_of_mem _ (h.dead u l hl hs)
    · rcases List.mem_cons.mp hm with he | hm
      · cases he
        refine ⟨Nat.lt_of_not_le fun hle => ?_, fun l hl => ?_⟩
        · rw [hi.fresh t hle] at hk
          cases hk
        · rw [hself] at hl
          cases hl
          rfl
      · obtain ⟨hlt, hall⟩ := h.exited u r' hm
        refine ⟨hlt, fun l hl => ?_⟩
        obtain ⟨l₀, hl₀, _, _, hstay⟩ := f.old u l hlt hl
        exact (hstay (hall l₀ hl₀)).1
    · obtain ⟨hlt, hnone⟩ := h.reaped p c pid r' ((List.mem_cons.mp hm).resolve_left nofun)
      refine ⟨hlt, (hother c ?_).trans hnone⟩
      rintro rfl
      rw [hnone] at hk
      cases hk
    · cases g with
      | nil =>
        obtain ⟨he, rfl⟩ := List.cons.inj hg
        cases he
        exact hnew
      | cons o g => exact h.exits g u r' b (List.cons.inj hg).2
    · cases g with
      | nil => cases (List.cons.inj hg).1
      | cons o g => exact h.reports g p c pid r' b (List.cons.inj hg).2
  cases m with
  | alone _ => exact hdied
  | woken _ hl hw _ => exact hdied.woken (.woken hl (by rw [hw]; decide))

theorem Ledger.reapedChild (h : s.Ledger) (hi : Inv s) (hk : s.tasks t = some k)
    (hz : k.state = .zombie) :
    ((s.freed t).observe (.reaped s.current t k.pid k.retval)).Ledger := by
  have hnone : (s.freed t).tasks t = none := Function.update_self ..
  refine ⟨fun u l hl hs => ?_, fun u r' hm => ?_, fun p c pid r' hm => ?_, fun g u r' b hg => ?_,
    fun g p c pid r' b hg => ?_⟩
  · exact List.mem_cons_of_mem _ (h.dead u l (freed_tasks hl).2 hs)
  · obtain ⟨hlt, hall⟩ := h.exited u r' ((List.mem_cons.mp hm).resolve_left nofun)
    exact ⟨hlt, fun l hl => hall l (freed_tasks hl).2⟩
  · rcases List.mem_cons.mp hm with he | hm
    · cases he
      refine ⟨Nat.lt_of_not_le fun hle => ?_, hnone⟩
      rw [hi.fresh t hle] at hk
      cases hk
    · obtain ⟨hlt, hgone⟩ := h.reaped p c pid r' hm
      refine ⟨hlt, ?_⟩
      by_cases hc : c = t
      · rw [hc]
        exact hnone
      · exact (freed_tasks_of_ne hc).trans hgone
  · cases g with
    | nil => cases (List.cons.inj hg).1
    | cons o g => exact h.exits g u r' b (List.cons.inj hg).2
  · cases g with
    | nil =>
      obtain ⟨he, rfl⟩ := List.cons.inj hg
      cases he
      refine ⟨h.dead t k hk hz, fun p' pid' r' hm => ?_⟩
      have hgone := (h.reaped p' t pid' r' hm).2
      rw [hk] at hgone
      cases hgone
    | cons o g => exact h.reports g p c pid r' b (List.cons.inj hg).2

theorem Effect.ledger (e : Effect T D M K B s s') (hi : Inv s) (h : s.Ledger) : s'.Ledger := by
  have f := e.follows hi
  cases e with
  | quiet q =>
    cases q with
    | same e _ =>
      obtain ⟨O, ht, ho⟩ := e.trace
      obtain ⟨c, hc, _⟩ := hi.current
      obtain ⟨kont, msgVal, hself, _⟩ := e.self c hc
      refine h.pass f ht (fun o hm => (ho o hm).mild) fun t k' hk' hs => ?_
      by_cases hcur : t = s.current
      · rw [hcur, hself] at hk'
        cases hk'
        exact ⟨c, hcur ▸ hc, hs, rfl⟩
      · rw [e.others t hcur] at hk'
        exact ⟨k', hk', hs, rfl⟩
    | wake _ _ _ _ _ _ _ => exact h.woken f
    | die hk _ _ hz _ hm _ _ => exact hm.ledger hi hk hz h
    | reap _ _ _ _ _ =>
      exact h.pass (O := []) f rfl (by simp) fun u k' hk' hs => ⟨k', (freed_tasks hk').2, hs, rfl⟩
    | reapChild hk hz _ _ _ _ _ => exact h.reapedChild hi hk hz
    | start _ _ _ _ _ _ =>
      exact h.update f rfl (fun _ => born_tasks_of_ne) born_tasks_fresh nofun
    | @rank t k c p hk _ hz _ _ =>
      have htrace : (s.ranked t k p).trace = s.trace := by
        unfold ranked
        split <;> rfl
      exact h.update f htrace (fun _ => ranked_of_ne) ranked_self hz
    | create _ _ _ => exact h.pass (O := []) f rfl (by simp) fun u k' hk' hs => ⟨k', hk', hs, rfl⟩
    | drop _ _ _ => exact h.pass (O := []) f rfl (by simp) fun u k' hk' hs => ⟨k', hk', hs, rfl⟩
    | leak _ _ => exact h.pass (O := []) f rfl (by simp) fun u k' hk' hs => ⟨k', hk', hs, rfl⟩
    | sawStart _ _ => exact h.pass (O := [_]) f rfl (by simp [Obs.Mild]) fun u k' hk' hs => ⟨k', hk', hs, rfl⟩
  | exit _ hk _ hr _ hm => exact hm.ledger hi hk (by rw [hr]; decide) h
  | block _ _ _ _ _ hz _ _ _ _ =>
    exact h.update f rfl (fun _ => setTask_tasks_of_ne) setTask_tasks_self hz

theorem Switch.ledger (e : Switch s s') (h : s.Ledger) : s'.Ledger := by
  cases e with
  | switch hk hs _ => exact h.switched (.switched hk (by rw [hs]; decide))
  | @preempt new k c hk hs hc hr =>
    have hne : new ≠ s.current := ne_of_state hk hc (by rw [hs, hr]; decide)
    have hw : (s.woken s.current c).Ledger := h.woken (.woken hc (by rw [hr]; decide))
    exact hw.switched (.switched ((woken_of_ne hne).trans hk) (by rw [hs]; decide))

end Ledger

section Waits

/-- How a wait for children at `kont` goes on: the current task waits, it has no child, or it
gets pid and status of a zombie child, which is freed. -/
inductive Waited (s s' : State) (kont : Kont) : Prop where
  | blocked {k' : Task} : s'.ctl = .sched → s'.trace = s.trace →
      s'.tasks s.current = some k' → k'.state = .interruptedChild → k'.kont = kont →
      Waited s s' kont
  | alone : s'.ctl = .user → (∀ c l, s.tasks c = some l → l.parent ≠ some s.current) →
      s'.trace = .returned s.current (-echild) :: s.trace → Waited s s' kont
  | reaped {c : TaskPtr} {l : Task} : s'.ctl = .user → s.tasks c = some l → l.state = .zombie →
      l.parent = some s.current → (∀ c' q, kont = .waitSpecificChild c' q → c' = c) →
      s'.tasks c = none →
      s'.trace = .returned s.current l.pid :: .reaped s.current c l.pid l.retval :: s.trace →
      Waited s s' kont

theorem reapChild_ok (hi : Inv s) (hk : s.tasks t = some k) (hs : s.reapChild t = .ok s') :
    s' = ((s.freed t).observe (.reaped s.current t k.pid k.retval)).returned k.pid := by
  unfold reapChild at hs
  rw [task_ok hk, ok_bind] at hs
  obtain ⟨s₁, hf, hret⟩ := bind_ok.mp hs
  have hfreed : s₁ = s.freed t := (freeTask_spec (A := False) (D := False) hi nofun).elim hf
  subst hfreed
  cases hret
  rfl

theorem reapChild_waited (hi : Inv s) (hk : s.tasks t = some k) (hz : k.state = .zombie)
    (hp : k.parent = some s.current) (hkont : ∀ c q, kont = .waitSpecificChild c q → c = t)
    (hs : s.reapChild t = .ok s') : Waited s s' kont := by
  rw [reapChild_ok hi hk hs]
  exact .reaped rfl hk hz hp hkont (Function.update_self ..) rfl

theorem waitAnyChild_waited {q : UserPtr} (hi : Inv s) (hc : s.tasks s.current = some c)
    (hr : c.state = .running) (hs : s.waitAnyChild q = .ok s') : Waited s s' (.waitAnyChild q) := by
  have hchild (t : TaskPtr) (ht : t ∈ s.siblings.members s.current) :
      ∃ k, s.tasks t = some k ∧ k.parent = some s.current :=
    (hi.children t s.current).mp (Links.link_of_mem ht)
  unfold waitAnyChild at hs
  split at hs
  · rename_i hnil
    cases hs
    refine .alone rfl (fun t l hl hp => ?_) rfl
    have hm : t ∈ s.siblings.members s.current :=
      Links.mem_of_link ((hi.children t s.current).mpr ⟨l, hl, hp⟩)
    rw [hnil] at hm
    cases hm
  · obtain ⟨o, ho, hmem, _⟩ := findZombie_spec fun t ht => (hchild t ht).imp fun _ h => h.1
    rw [ho, ok_bind] at hs
    cases o with
    | some t =>
      obtain ⟨hm, k, hk, hz⟩ := hmem t rfl
      obtain ⟨k', hk', hp⟩ := hchild t hm
      rw [hk] at hk'
      cases hk'
      exact reapChild_waited hi hk hz hp nofun hs
    | none =>
      rw [show s.setTaskInterruptedChild s.current = s.setTaskState s.current
        Head.interruptedChild.state .interruptedChild from rfl] at hs
      simp only [block_eq (h := .interruptedChild) (hi.unlinked_current hc hr) hc hr] at hs
      cases hs
      exact .blocked rfl rfl setTask_tasks_self rfl rfl

theorem waitSpecificChild_waited {q : UserPtr} (hi : Inv s) (hc : s.tasks s.current = some c)
    (hr : c.state = .running) (hk : s.tasks t = some k) (hp : k.parent = some s.current)
    (hs : s.waitSpecificChild t q = .ok s') : Waited s s' (.waitSpecificChild t q) := by
  unfold waitSpecificChild at hs
  rw [isZombie_eq hk, ok_bind] at hs
  by_cases hz : k.state = .zombie
  · rw [if_pos (by simp [hz])] at hs
    refine reapChild_waited hi hk hz hp (fun c q he => ?_) hs
    cases he
    rfl
  · rw [if_neg (by simp [hz])] at hs
    rw [show s.setTaskInterruptedChild s.current = s.setTaskState s.current
      Head.interruptedChild.state .interruptedChild from rfl] at hs
    simp only [block_eq (h := .interruptedChild) (hi.unlinked_current hc hr) hc hr] at hs
    cases hs
    exact .blocked rfl rfl setTask_tasks_self rfl rfl

theorem consumed_parent (hk : s.tasks s.current = some k) (hl : s.tasks t = some l) :
    ∃ l', (s.consumed k).tasks t = some l' ∧ l'.parent = l.parent := by
  have hp := consumed_parents hk t
  rw [hl] at hp
  exact Option.map_eq_some_iff.mp hp

theorem Waited.of_consumed (hk : s.tasks s.current = some k) (hr : k.state = .running)
    (w : Waited (s.consumed k) s' kont) : Waited s s' kont := by
  cases w with
  | blocked hc ht hk' hs hkont => exact .blocked hc ht hk' hs hkont
  | alone hc hnone ht =>
    refine .alone hc (fun c l hl hp => ?_) ht
    obtain ⟨l', hl', hp'⟩ := consumed_parent hk hl
    exact hnone c l' hl' (hp'.trans hp)
  | @reaped c l hc hl hz hp hkont hgone ht =>
    have hne : c ≠ s.current := by
      intro he
      rw [he, show (s.consumed k).tasks s.current = some { k with kont := .iret } from
        consumed_self] at hl
      cases hl
      cases hr.symm.trans hz
    exact .reaped hc ((setTask_tasks_of_ne hne).symm.trans hl) hz hp hkont hgone ht

theorem wait_step (h : Sound A D K s) (hc : s.ctl = .resume) (hk : s.tasks s.current = some k)
    (hkont : (∃ q, k.kont = .waitAnyChild q) ∨ ∃ c q, k.kont = .waitSpecificChild c q)
    (hs : step .kernel s = .ok s') : Waited s s' k.kont := by
  obtain ⟨k', hk', hr⟩ := h.running (by rw [hc]; decide)
  rw [hk] at hk'
  cases hk'
  have hi : Inv (s.consumed k) := (consume_moves (T := False) (D := False) (K := False) (R := False)
    (L := False) (B := AnyStart) hk hr nofun).inv h.inv
  have hrun : (s.consumed k).resumeAt k.kont = .ok s' := by
    unfold step stepWith at hs
    rw [hc] at hs
    change s.resume = .ok s' at hs
    unfold resume at hs
    rw [task_ok hk, ok_bind] at hs
    exact hs
  refine Waited.of_consumed hk hr ?_
  rcases hkont with ⟨q, hkont⟩ | ⟨c, q, hkont⟩
  · rw [hkont] at hrun ⊢
    exact waitAnyChild_waited hi consumed_self hr hrun
  · rw [hkont] at hrun ⊢
    obtain ⟨l, hl, hp⟩ := (h.inv.konts _ k hk (by rw [hr]; decide)).child c q hkont
    obtain ⟨l', hl', hp'⟩ := consumed_parent hk hl
    exact waitSpecificChild_waited hi consumed_self hr hl' (hp'.trans hp) hrun

end Waits

section Exits

theorem callSchedule_ok (hs : s.callSchedule kont = .ok s') : s'.trace = s.trace := by
  unfold callSchedule goOn at hs
  obtain ⟨k, _, hgo⟩ := bind_ok.mp hs
  cases hgo
  rfl

theorem exit_step (h : Sound A D K s) (hu : s.ctl = .user) (hidle : s.current ≠ s.idle)
    (hs : step (.call (.exit r)) s = .ok s') : s'.trace = .exited s.current r :: s.trace := by
  obtain ⟨k, hk, hr⟩ := h.running (by rw [hu]; decide)
  unfold step stepWith at hs
  rw [hu] at hs
  change s.exit r = .ok s' at hs
  unfold exit at hs
  obtain ⟨x, hx, hgo⟩ := bind_ok.mp hs
  obtain ⟨_, hm⟩ := (exitTask_spec (A := False) (D := False) h.inv ⟨k, hk, hr⟩ hk hidle
    (by rw [hr]; decide) nofun).elim hx
  rw [callSchedule_ok hgo, hm.trace]
  rfl

theorem kill_step {pid : Int} (h : Sound A D K s) (hu : s.ctl = .user)
    (hs : step (.call (.kill pid)) s = .ok s') (hm : .exited t r ∈ s'.trace) :
    .exited t r ∈ s.trace ∨ r = 0 ∧ s.pidToTask pid = some t := by
  obtain ⟨c, hc, hcr⟩ := h.running (by rw [hu]; decide)
  unfold step stepWith at hs
  rw [hu] at hs
  change s.kill pid = .ok s' at hs
  unfold State.kill at hs
  have beside {s₁ : State} {v : Int} (hret : s₁.ret v = .ok s') (hold : s₁.trace = s.trace) :
      .exited t r ∈ s.trace := by
    cases hret
    exact hold ▸ (List.mem_cons.mp hm).resolve_left nofun
  split at hs
  · exact Or.inl (beside hs rfl)
  rename_i u hpid
  split at hs
  · exact Or.inl (beside hs rfl)
  rename_i hui
  obtain ⟨k, hk, _, hlive⟩ := h.inv.pidToTask hpid
  have hz : k.state ≠ .zombie := by
    by_cases hu : u = s.current
    · rw [hu, hc] at hk
      cases hk
      rw [hcr]
      decide
    · exact hlive hu
  obtain ⟨⟨v, s₁⟩, hx, hgo⟩ := bind_ok.mp hs
  obtain ⟨_, hmourn⟩ := (exitTask_spec (A := False) (D := False) h.inv ⟨c, hc, hcr⟩ hk hui hz
    nofun).elim hx
  have htrace : s₁.trace = .exited u 0 :: s.trace := hmourn.trace
  simp only at hgo
  have hx : .exited t r ∈ s₁.trace := by
    split at hgo
    · rw [callSchedule_ok hgo] at hm
      exact hm
    · cases hgo
      exact (List.mem_cons.mp hm).resolve_left nofun
  rw [htrace] at hx
  rcases List.mem_cons.mp hx with he | hx
  · cases he
    exact Or.inr ⟨rfl, hpid⟩
  · exact Or.inl hx

end Exits

/-- A status is kept while its task is a zombie, goes to the parent once, and no parent waits
for a child that is dead. -/
structure Reports (s : State) : Prop where
  kept : ∀ s', ReflTransGen (Step IdleStarts) s s' → ∀ t k k', s.tasks t = some k →
    k.state = .zombie → s'.tasks t = some k' → k'.state = .zombie ∧ k'.retval = k.retval
  attentive : s.Attentive
  once : ∀ f p c pid r b, s.trace = f ++ .reaped p c pid r :: b →
    .exited c r ∈ b ∧ ∀ p' pid' r', .reaped p' c pid' r' ∉ b
  waits : ∀ k s', s.ctl = .resume → s.tasks s.current = some k →
    ((∃ q, k.kont = .waitAnyChild q) ∨ ∃ c q, k.kont = .waitSpecificChild c q) →
    step .kernel s = .ok s' → Waited s s' k.kont
  exits : ∀ r s', s.ctl = .user → s.current ≠ s.idle → step (.call (.exit r)) s = .ok s' →
    s'.trace = .exited s.current r :: s.trace
  kills : ∀ pid s' t r, s.ctl = .user → step (.call (.kill pid)) s = .ok s' →
    .exited t r ∈ s'.trace → .exited t r ∈ s.trace ∨ r = 0 ∧ s.pidToTask pid = some t

theorem Stepped.attentive (st : Stepped A T D K R L B s s') (h : Sound A D K s)
    (ha : s.Attentive) : s'.Attentive :=
  st.keeps h.inv ha (fun _ _ hi hp e => e.attentive hi hp) fun _ _ _ hp e => e.attentive hp

theorem Stepped.ledger (st : Stepped A T D K R L B s s') (h : Sound A D K s) (hl : s.Ledger) :
    s'.Ledger :=
  st.keeps h.inv hl (fun _ _ hi hp e => e.ledger hi hp) fun _ _ _ hp e => e.ledger hp

theorem Run.follows (h : Run IdleStarts s) (hs : ReflTransGen (Step IdleStarts) s s') :
    s.Follows s' := by
  induction hs with
  | refl => exact .refl s
  | @tail a b hab hbc ih =>
    obtain ⟨e, he, hr⟩ := hbc
    obtain ⟨r, hr0, hrs⟩ := h
    have ha : Run IdleStarts a := ⟨r, hr0, hrs.trans hab⟩
    have hsound : Sound False False False a := Run.soundIdle ha
    exact ih.trans (((step_spec hsound (IdleStarts.allows he)).elim hr).follows hsound)

/-- In every run in which idle only calls `start` statuses are delivered. -/
theorem exit_status_delivered (h : Run IdleStarts s) : s.Reports := by
  have main : Sound False False False s ∧ s.Attentive ∧ s.Ledger := by
    refine h.invariant (I := fun s => Sound False False False s ∧ s.Attentive ∧ s.Ledger) ?_
      fun s t ⟨hs, ha, hl⟩ ⟨e, he, hr⟩ => ?_
    · rintro _ rfl
      exact ⟨boot_sound, boot_attentive, boot_ledger⟩
    · have st := (step_spec hs (IdleStarts.allows he)).elim hr
      exact ⟨st.sound hs, st.attentive hs ha, st.ledger hs hl⟩
  obtain ⟨hs, ha, hl⟩ := main
  refine ⟨fun s' hr t k k' hk hz hk' => ?_, ha, hl.reports, fun k s' hc hk hkont hr => ?_,
    fun r s' hu hidle hr => exit_step hs hu hidle hr, fun pid s' t r hu hr hm => kill_step hs hu hr hm⟩
  · have hlt : t < s.fresh := hs.inv.lt_fresh hk
    obtain ⟨k₀, hk₀, _, _, hstay⟩ := (h.follows hr).old t k' hlt hk'
    rw [hk] at hk₀
    cases hk₀
    exact hstay hz
  · exact wait_step hs hc hk hkont hr

/-- A task waits for its child, which exits with 7. -/
theorem exit_status_delivered_one : ∃ s : State, .reaped 1 2 2 7 ∈ s.trace ∧ s.Reports := by
  have hrun : Ends (exec (admitted IdleStarts) [.call (.start (anApp 3)), .kernel,
      .call (.start (anApp 2)), .kernel, .call (.waitpid 2 .mapped), .kernel, .kernel,
      .call (.exit 7), .kernel, .kernel] boot) fun s => .reaped 1 2 2 7 ∈ s.trace := by
    decide +kernel
  obtain ⟨s, hs, hm⟩ := hrun.elim
  exact ⟨s, hm, exit_status_delivered (Run.replayed hs)⟩

end State
end DominOS.Process
