import DominOS.ProcessMail

/-! Changes that have nothing to do with messages leave every message where it is. -/
namespace DominOS.Process
open IntrusiveLists Relation
namespace State
variable {s s' : State} {t u : TaskPtr} {k l : Task} {h : Head} {T D M K R L : Prop} {r : Int}
  {B : State → StartArgs → Prop}

theorem Inside.unique {kont kont' : Kont} {v v' : Msg} (h : s.Inside t kont v)
    (h' : s.Inside t kont' v') : kont = kont' ∧ v = v' := by
  obtain ⟨k, hk, _, h1, h2⟩ := h
  obtain ⟨l, hl, _, h3, h4⟩ := h'
  rw [hk] at hl
  cases hl
  exact ⟨h1.symm.trans h3, h2.symm.trans h4⟩

theorem not_inside_zombie {kont : Kont} {v : Msg} (hk : s.tasks t = some k)
    (hz : k.state = .zombie) : ¬ s.Inside t kont v := by
  rintro ⟨l, hl, hn, _⟩
  rw [hk] at hl
  cases hl
  exact hn hz

theorem Placed.state_of_link (hi : Placed s) (hk : s.tasks t = some k)
    (hl : s.queues.link t = some h) : k.state = h.state := by
  obtain ⟨l, hl', hs, _⟩ := hi.live (Links.mem_of_link hl)
  rw [hk] at hl'
  cases hl'
  exact hs

theorem woken_undisturbed {w : Nat} (hi : Placed s) (hk : s.tasks t = some k)
    (hz : k.state ≠ .zombie) (hm : k.state ≠ .interruptedMsg) :
    s.Undisturbed K (s.woken t { k with wakeTime := w }) := by
  refine .one hk rfl rfl rfl rfl rfl ⟨[], rfl, by simp⟩ (fun u hu => move_link_of_ne hu)
    (fun _ => ⟨hz, Or.inl ⟨rfl, rfl⟩⟩) (fun _ hd => by cases hd) fun h hs => ⟨fun hl => ?_, fun _ hl => ?_⟩
  · have hl : (s.woken t { k with wakeTime := w }).queues.link t = some h := hl
    rw [show (s.woken t { k with wakeTime := w }).queues.link t = some .ready from move_link_self] at hl
    cases hl
    cases hs
  · exact absurd ((hi.state_of_link hk hl).trans hs) hm

theorem died_undisturbed (hk : s.tasks t = some k) (hsil : K → k.kont.Silent) :
    s.Undisturbed K (s.died t k r) := by
  refine .one hk rfl rfl rfl rfl rfl ⟨[.exited t r], rfl, by simp [Obs.Silent]⟩
    (fun u hu => move_link_of_ne hu) (fun hn => absurd rfl hn) (fun hK _ _ => hsil hK)
    fun h hs => ⟨fun hl => ?_, fun hn => absurd rfl hn⟩
  have hl : (s.died t k r).queues.link t = some h := hl
  rw [show (s.died t k r).queues.link t = some .zombie from move_link_self] at hl
  cases hl
  cases hs

theorem Mourned.undisturbed {parent : Option TaskPtr} (m : Mourned s parent s') (hi : Placed s) :
    s.Undisturbed K s' := by
  cases m with
  | alone _ => exact .refl s
  | @woken p l _ hl hs _ =>
    exact woken_undisturbed (w := l.wakeTime) hi hl (by rw [hs]; decide) (by rw [hs]; decide)

theorem freed_undisturbed (hk : s.tasks t = some k) (hz : k.state = .zombie) :
    s.Undisturbed K (s.freed t) := by
  have hnone {kont : Kont} {v : Msg} : ¬ (s.freed t).Inside t kont v := by
    rintro ⟨l, hl, _⟩
    exact (freed_tasks hl).1 rfl
  refine .at t rfl rfl rfl rfl ⟨[], rfl, by simp⟩ (fun u hu => freed_tasks_of_ne hu)
    (fun u hu => Links.link_erase_of_ne hu) (fun _ _ _ hin => absurd hin hnone) ?_
    (fun _ _ _ _ _ _ hin => absurd hin hnone) fun _ _ _ _ hin => absurd hin (not_inside_zombie hk hz)
  intro h _ hl
  rw [show (s.freed t).queues.link t = none from Links.link_erase_self] at hl
  cases hl

theorem observe_undisturbed {o : Obs} (ho : o.Silent) : s.Undisturbed K (s.observe o) :=
  { Undisturbed.refl s with trace := ⟨[o], rfl, by simpa using ho⟩ }

theorem born_undisturbed {pid : Nat} {a : StartArgs} (hi : Placed s) :
    s.Undisturbed K (s.born pid a) := by
  have hnew : s.tasks s.fresh = none := hi.fresh _ (Nat.le_refl _)
  refine .at s.fresh rfl rfl rfl rfl ⟨[], rfl, by simp⟩ (fun u hu => born_tasks_of_ne hu)
    (fun u hu => move_link_of_ne hu) ?_ ?_ ?_ ?_
  · rintro kont v hs ⟨l, hl, _, hkont, _⟩
    rw [born_tasks_fresh] at hl
    cases hl
    exact absurd (show kont.Silent from hkont ▸ trivial) hs
  · intro h hs hl
    have hl : (s.born pid a).queues.link s.fresh = some h := hl
    rw [show (s.born pid a).queues.link s.fresh = some .ready from move_link_self] at hl
    cases hl
    cases hs
  · intro h kont v _ _ hl _
    rw [hi.unlinked _ hnew] at hl
    cases hl
  · rintro _ kont v _ ⟨l, hl, _⟩
    rw [hnew] at hl
    cases hl

theorem ranked_undisturbed {p : Int} (hk : s.tasks t = some k) (hz : k.state ≠ .zombie) :
    s.Undisturbed K (s.ranked t k p) := by
  have htasks : (s.ranked t k p).tasks = Function.update s.tasks t (some { k with priority := p }) := by
    unfold ranked
    split <;> rfl
  have hlink (u : TaskPtr) : (s.ranked t k p).queues.link u = s.queues.link u := by
    unfold ranked
    split
    · rfl
    · rename_i h hl
      by_cases hu : u = t
      · subst hu
        rw [hl]
        exact move_link_self
      · exact move_link_of_ne hu
  have hrest : (s.ranked t k p).mqueues = s.mqueues ∧ (s.ranked t k p).cptRst = s.cptRst ∧
      (s.ranked t k p).sends = s.sends ∧ (s.ranked t k p).msgCalls = s.msgCalls ∧
      (s.ranked t k p).trace = s.trace := by
    unfold ranked
    split <;> exact ⟨rfl, rfl, rfl, rfl, rfl⟩
  obtain ⟨h1, h2, h3, h4, h5⟩ := hrest
  refine .one hk htasks h1 h2 h3 h4 ⟨[], h5, by simp⟩ (fun u _ => hlink u)
    (fun _ => ⟨hz, Or.inl ⟨rfl, rfl⟩⟩) (fun _ hd hz => absurd hd hz) fun h _ => ?_
  rw [hlink]
  exact ⟨fun hl => ⟨hl, hz⟩, fun _ hl => hl⟩

theorem blocked_undisturbed {kont : Kont} {w : Nat} {m : Msg} (hi : Placed s)
    (hk : s.tasks s.current = some k) (hr : k.state = .running) (hm : h.state ≠ .interruptedMsg)
    (hsil : kont.Silent) (hsil' : k.kont.Silent) :
    s.Undisturbed K (s.blocked h { k with wakeTime := w, msgVal := m } kont) := by
  refine .one hk rfl rfl rfl rfl rfl ⟨[], rfl, by simp⟩ (fun u hu => move_link_of_ne hu)
    (fun _ => ⟨by rw [hr]; decide, Or.inr ⟨hsil, hsil'⟩⟩) (fun _ _ _ => hsil')
    fun h' hs => ⟨fun hl => ?_, fun _ hl => ?_⟩
  · have hl : (s.blocked h { k with wakeTime := w, msgVal := m } kont).queues.link s.current =
      some h' := hl
    rw [show (s.blocked h { k with wakeTime := w, msgVal := m } kont).queues.link s.current = some h
      from move_link_self] at hl
    cases hl
    exact absurd hs hm
  · rw [((hi.home _ k hk).running hr).2] at hl
    cases hl

theorem Quiet.undisturbed (q : Quiet T D True K B s s') (hi : Inv s) : s.Undisturbed K s' := by
  cases q with
  | same e hm =>
    obtain ⟨m1, m2, m3, m4, m5, m6⟩ := hm trivial
    obtain ⟨c, hc, _⟩ := hi.current
    obtain ⟨kont, msgVal, hself, _⟩ := e.self c hc
    obtain ⟨k', hk', hsame⟩ := m6 c hc
    rw [hself] at hk'
    cases hk'
    have htasks : s'.tasks = Function.update s.tasks s.current
        (some { c with kont := kont, msgVal := msgVal }) := by
      funext u
      by_cases hu : u = s.current
      · rw [hu, hself, Function.update_self]
      · rw [e.others u hu, Function.update_of_ne hu]
    refine .one hc htasks m1 m2 m3 m4 m5 (fun u _ => by rw [e.queues]) (fun hz => ⟨hz, hsame⟩)
      (fun _ hd hz => absurd hd hz) fun h hs => ?_
    rw [e.queues]
    refine ⟨fun hl => ⟨hl, ?_⟩, fun _ hl => hl⟩
    have hst := hi.state_of_link hc hl
    rw [show ({ c with kont := kont, msgVal := msgVal } : Task).state = c.state from rfl, hst, hs]
    decide
  | @wake t k c w m hk _ hz _ _ _ hm =>
    obtain ⟨hmsg, rfl⟩ := hm trivial
    exact woken_undisturbed hi.toPlaced hk hz hmsg
  | die hk _ hidle hz hsil hm _ _ =>
    exact (died_undisturbed hk hsil).trans (hm.undisturbed (hi.toPlaced.died hk hz hidle))
  | reap hk hz _ _ _ => exact freed_undisturbed hk hz
  | reapChild hk hz _ _ _ _ _ =>
    exact (freed_undisturbed hk hz).trans (observe_undisturbed trivial)
  | start _ _ _ _ _ _ => exact born_undisturbed hi.toPlaced
  | rank hk _ hz _ _ => exact ranked_undisturbed hk hz
  | create hn _ _ => exact absurd trivial hn
  | drop hn _ _ => exact absurd trivial hn
  | leak _ _ => exact { Undisturbed.refl s with }
  | sawStart _ _ => exact observe_undisturbed trivial

theorem Effect.undisturbed (e : Effect T D True K B s s') (hi : Inv s) : s.Undisturbed K s' := by
  cases e with
  | quiet q => exact q.undisturbed hi
  | exit _ hk hidle hr hsil hm =>
    exact (died_undisturbed hk hsil).trans
      (hm.undisturbed (hi.toPlaced.died hk (by rw [hr]; decide) hidle))
  | block _ hk hr _ _ _ _ _ hm _ =>
    obtain ⟨hm, hs, hs'⟩ := hm trivial
    exact blocked_undisturbed hi.toPlaced hk hr hm hs hs'

theorem switched_undisturbed (hi : Placed s) (hk : s.tasks t = some k) (hr : k.state = .ready) :
    s.Undisturbed K (s.switched t k) := by
  refine .one hk rfl rfl rfl rfl rfl ⟨[], rfl, by simp⟩ (fun u hu => Links.link_erase_of_ne hu)
    (fun _ => ⟨by rw [hr]; decide, Or.inl ⟨rfl, rfl⟩⟩) nofun fun h hs => ⟨fun hl => ?_, fun _ hl => ?_⟩
  · have hl : (s.switched t k).queues.link t = some h := hl
    rw [show (s.switched t k).queues.link t = none from Links.link_erase_self] at hl
    cases hl
  · have := (hi.state_of_link hk hl).symm.trans hr
    rw [hs] at this
    cases this

theorem Switch.undisturbed (e : Switch s s') (hi : Inv s) : s.Undisturbed K s' := by
  cases e with
  | switch hk hr _ => exact switched_undisturbed hi.toPlaced hk hr
  | @preempt new k c hk hr hc hrun =>
    have hz : c.state ≠ .zombie := by rw [hrun]; decide
    have hw : s.Undisturbed K (s.woken s.current c) :=
      woken_undisturbed (w := c.wakeTime) hi.toPlaced hc hz (by rw [hrun]; decide)
    have hne : new ≠ s.current := ne_of_state hk hc (by rw [hr, hrun]; decide)
    refine hw.trans (switched_undisturbed (hi.toPlaced.woken hc hz rfl rfl rfl) ?_ hr)
    exact (setTask_tasks_of_ne hne).trans hk

end State
end DominOS.Process
