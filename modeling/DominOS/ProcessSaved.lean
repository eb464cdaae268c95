import DominOS.ProcessRuns

/-! No call has saved a value of `cpt_rst` that is still to come: not even one that died. -/
namespace DominOS.Process
open IntrusiveLists Fallible Relation Runs

def Kont.saved : Kont → Nat
  | .psendLoop _ _ rst | .preceiveLoop _ _ rst => rst
  | _ => 0

theorem Kont.Silent.saved {kont : Kont} (h : kont.Silent) : kont.saved = 0 := by
  cases kont <;> first | rfl | exact h.elim

namespace State
variable {s s' : State} {t u : TaskPtr} {k l : Task} {h : Head} {A T D M K R L : Prop}
  {B : State → StartArgs → Prop}

def SavedBelow (s : State) : Prop := ∀ t k, s.tasks t = some k → k.kont.saved ≤ s.cptRst

theorem boot_savedBelow : boot.SavedBelow := by
  intro t k hk
  simp only [boot] at hk
  split at hk
  · cases hk
    exact Nat.le_refl 0
  · cases hk

theorem SavedBelow.congr (h : s.SavedBelow) (ht : s'.tasks = s.tasks) (hc : s'.cptRst = s.cptRst) :
    s'.SavedBelow := by
  intro t k hk
  rw [hc]
  exact h t k (ht ▸ hk)

theorem SavedBelow.observe {o : Obs} (h : s.SavedBelow) : (s.observe o).SavedBelow := h.congr rfl rfl

theorem SavedBelow.one (h : s.SavedBelow) (ht : s'.tasks = Function.update s.tasks t (some k))
    (hc : s'.cptRst = s.cptRst) (hk : k.kont.saved ≤ s.cptRst) : s'.SavedBelow := by
  intro u l hl
  rw [hc]
  rw [ht] at hl
  by_cases hu : u = t
  · subst hu
    rw [Function.update_self] at hl
    cases hl
    exact hk
  · rw [Function.update_of_ne hu] at hl
    exact h u l hl

theorem SavedBelow.setTask (h : s.SavedBelow) (hk : k.kont.saved ≤ s.cptRst) :
    (s.setTask t k).SavedBelow := h.one rfl rfl hk

theorem SavedBelow.kept (h : s.SavedBelow) (hc : s.cptRst ≤ s'.cptRst)
    (ht : ∀ t k', s'.tasks t = some k' →
      k'.kont.saved = 0 ∨ ∃ k, s.tasks t = some k ∧ k'.kont = k.kont) : s'.SavedBelow := by
  intro t k' hk'
  rcases ht t k' hk' with h0 | ⟨k, hk, he⟩
  · rw [h0]
    exact Nat.zero_le _
  · rw [he]
    exact (h t k hk).trans hc

theorem SavedBelow.died {r : Int} (h : s.SavedBelow) (hk : s.tasks t = some k) :
    (s.died t k r).SavedBelow :=
  h.one (t := t) (k := { k with
    state := .zombie, priority := deathPriority s.totalTicks, retval := r }) rfl rfl (h t k hk)

theorem SavedBelow.woken (h : s.SavedBelow) (hk : k.kont.saved ≤ s.cptRst) :
    (s.woken t k).SavedBelow :=
  h.one (t := t) (k := { k with state := .ready }) rfl rfl hk

theorem SavedBelow.mourned {parent : Option TaskPtr} (h : s.SavedBelow) (m : Mourned s parent s') :
    s'.SavedBelow := by
  cases m with
  | alone _ => exact h
  | woken _ hl _ _ => exact h.woken (h _ _ hl)

theorem SavedBelow.freed (h : s.SavedBelow) : (s.freed t).SavedBelow := by
  intro u l hl
  by_cases hu : u = t
  · subst hu
    have hnone : (s.freed u).tasks u = none := Function.update_self ..
    rw [hnone] at hl
    cases hl
  · exact h u l ((Function.update_of_ne hu _ s.tasks).symm.trans hl)

theorem SavedBelow.same (h : s.SavedBelow) (hi : Inv s) (e : s.SameLists s') (hm : s.SameMsgs s') :
    s'.SavedBelow := by
  apply h.kept (le_of_eq hm.cptRst.symm)
  intro t k' hk'
  by_cases ht : t = s.current
  · subst ht
    obtain ⟨k, hk, _⟩ := hi.current
    obtain ⟨l, hl, hkont⟩ := hm.self k hk
    rw [hl] at hk'
    cases hk'
    rcases hkont with ⟨he, _⟩ | ⟨hs, _⟩
    · exact Or.inr ⟨k, hk, he⟩
    · exact Or.inl hs.saved
  · rw [e.others t ht] at hk'
    exact Or.inr ⟨k', hk', rfl⟩

theorem Quiet.savedBelow (e : Quiet T D True K B s s') (hi : Inv s) (h : s.SavedBelow) :
    s'.SavedBelow := by
  cases e with
  | same e hm => exact h.same hi e (hm trivial)
  | wake hk _ _ _ _ _ _ =>
    have hs := h _ _ hk
    exact h.woken hs
  | die hk _ _ _ _ hm _ _ => exact (h.died hk).mourned hm
  | reap _ _ _ _ _ => exact h.freed
  | @reapChild t k c _ _ _ _ _ _ _ _ =>
    have hf : (s.freed t).SavedBelow := h.freed
    exact hf.congr rfl rfl
  | @start c pid a _ _ _ _ _ _ =>
    have ht : (s.born pid a).tasks =
        Function.update s.tasks s.fresh (some { s.newTask pid a with state := .ready }) :=
      Function.update_idem ..
    exact h.one ht rfl (Nat.zero_le _)
  | @rank t k c p hk _ _ _ _ =>
    have hs := h _ _ hk
    have hset : (s.setTask t { k with priority := p }).SavedBelow := h.setTask hs
    unfold ranked
    split
    · exact hset
    · exact hset.congr rfl rfl
  | create hn _ _ => exact absurd trivial hn
  | drop hn _ _ => exact absurd trivial hn
  | leak _ _ => exact h.congr rfl rfl
  | sawStart _ _ => exact h.congr rfl rfl

theorem Effect.savedBelow (e : Effect T D True K B s s') (hi : Inv s) (h : s.SavedBelow) :
    s'.SavedBelow := by
  cases e with
  | quiet q => exact q.savedBelow hi h
  | exit _ hk _ _ _ hm => exact (h.died hk).mourned hm
  | @block hd k kont w m _ hk _ _ _ _ _ _ hm _ =>
    have hz : kont.saved = 0 := (hm trivial).2.1.saved
    exact h.one (t := s.current) (k := { k with
      state := hd.state, wakeTime := w, msgVal := m, kont := kont }) rfl rfl (hz ▸ Nat.zero_le _)

theorem SavedBelow.switched (h : s.SavedBelow) (hk : k.kont.saved ≤ s.cptRst) :
    (s.switched t k).SavedBelow :=
  h.one (t := t) (k := { k with state := .running, firstStart := false }) rfl rfl hk

theorem Switch.savedBelow (e : Switch s s') (h : s.SavedBelow) : s'.SavedBelow := by
  cases e with
  | switch hk _ _ => exact h.switched (h _ _ hk)
  | preempt hk _ hc _ => exact (h.woken (h _ _ hc)).switched (h _ _ hk)

theorem SavedBelow.blocked {kont : Kont} (h : s.SavedBelow) (hs : kont.saved ≤ s.cptRst) :
    (s.blocked hd k kont).SavedBelow :=
  h.one (t := s.current) (k := { k with state := hd.state, kont := kont }) rfl rfl hs

theorem SavedBelow.wentOn {kont : Kont} {c : Ctl} (h : s.SavedBelow) (hs : kont.saved ≤ s.cptRst) :
    (s.wentOn k kont c).SavedBelow :=
  h.one (t := s.current) (k := { k with kont := kont }) rfl rfl hs

theorem Talk.savedBelow (e : Talk T K R L s s') (h : s.SavedBelow) : s'.SavedBelow := by
  cases e with
  | @hand id data last k l _ _ _ _ _ hl _ _ =>
    have hs := h _ _ hl
    exact h.one (t := last) (k := { l with msgVal := ⟨data, s.sends⟩, state := .ready }) rfl rfl hs
  | @told id msg k c hk _ _ _ _ =>
    exact h.wentOn (Nat.zero_le _)
  | @sendBlock id data q k _ _ _ _ _ _ _ _ =>
    have hc : (s.called id ⟨data, s.sends⟩).SavedBelow := h.congr rfl rfl
    exact hc.blocked (Nat.le_refl s.cptRst)
  | sendAgain _ hk _ _ _ _ _ _ => exact h.blocked (h _ _ hk)
  | @enter id data q k hk _ _ _ _ _ =>
    have hs := h _ _ hk
    exact h.one (t := s.current) (k := { k with msgVal := ⟨data, s.sends⟩ }) rfl rfl hs
  | @unsent id data k hk _ _ =>
    have hs := h _ _ hk
    exact h.one (t := s.current) (k := { k with msgVal := ⟨data, s.sends⟩ }) rfl rfl hs
  | sent _ => exact h.observe
  | @consume k hk _ _ =>
    exact h.one (t := s.current) (k := { k with kont := .iret }) rfl rfl (Nat.zero_le _)
  | @lost id rst p k hk _ _ _ _ =>
    exact h.one (t := s.current) (k := { k with kont := .iret }) rfl rfl (Nat.zero_le _)
  | @received id msg v k hk _ _ =>
    exact h.one (t := s.current) (k := { k with kont := .iret, msgVal := v }) rfl rfl (Nat.zero_le _)
  | receiveBlock _ _ _ _ _ _ _ hrst _ _ => exact h.blocked hrst
  | @exchange id p q msg rest last k l c _ _ _ _ _ _ _ _ hl _ _ _ =>
    have hs := h _ _ hl
    have hw : (s.exchanged id ((q.pop rest).add l.msgVal) msg last l).SavedBelow :=
      h.one exchanged_tasks exchanged_cptRst hs
    exact hw.wentOn (Nat.zero_le _)
  | @take id q msg rest _ _ _ _ =>
    have hp : (s.popMsg id q rest).SavedBelow := h.congr rfl rfl
    exact (hp.observe).observe
  | @spill id q msg rest _ _ _ _ _ =>
    have hp : (s.popMsg id q rest).SavedBelow := h.congr rfl rfl
    exact hp.observe
  | release hl _ _ _ _ _ => exact h.woken (h _ _ hl)
  | bump _ _ =>
    apply h.kept (Nat.le_succ _)
    intro t k' hk'
    exact Or.inr ⟨k', hk', rfl⟩
  | empty _ _ _ _ _ _ => exact h.congr freeMqueue_tasks freeMqueue_cptRst
  | create _ _ _ _ => exact h.congr rfl rfl

theorem Moves.savedBelow (m : Moves T D K R L B s s') (hi : Inv s) (h : s.SavedBelow) :
    s'.SavedBelow := by
  induction m with
  | refl => exact h
  | tail hab hbc ih =>
    cases hbc with
    | plain e => exact e.savedBelow (Moves.inv hab hi) ih
    | talk e => exact e.savedBelow ih

theorem Stepped.savedBelow (st : Stepped A T D K R L B s s') (hi : Inv s) (h : s.SavedBelow) :
    s'.SavedBelow := by
  obtain ⟨s₁, m, hend⟩ := st.moves
  have h₁ := m.savedBelow hi h
  rcases hend with rfl | hsw
  · exact h₁
  · exact hsw.savedBelow h₁

theorem Run.savedBelow {P : State → Event → Prop} (h : Run P s)
    (hP : ∀ s e, P s e → Allows A T D K R L B s e) : Sound A D K s ∧ s.SavedBelow := by
  apply h.invariant (I := fun s => Sound A D K s ∧ s.SavedBelow)
  · rintro _ rfl
    exact ⟨boot_sound, boot_savedBelow⟩
  · rintro s t ⟨hs, hb⟩ ⟨e, he, hr⟩
    have st := (step_spec hs (hP s e he)).elim hr
    exact ⟨st.sound hs, st.savedBelow hs.inv hb⟩

end State
end DominOS.Process
