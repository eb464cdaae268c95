import DominOS.ProcessSaved
import DominOS.ProcessStatus

/-! What becomes of the calls that wait in a queue when it is deleted or reset: the state in which
they are next scheduled decides. -/
namespace DominOS.Process
open IntrusiveLists Fallible Relation Runs

def MQueue.Stops (q : MQueue) : Head → Prop
  | .waitingSenders _ => q.count = q.size
  | _ => q.count = 0

namespace State
variable {s s' s₁ s₂ : State} {t u : TaskPtr} {k l : Task} {h hd : Head} {e : Event} {c : Syscall}
  {kont : Kont} {v msg : Msg} {p : UserPtr} {id rst : Nat} {q : MQueue} {A T D M K R L : Prop}
  {B : State → StartArgs → Prop}

section Ready

/-- If it is still there, `t` is ready to go on at `kont`, with `v` in its `msg_val`. -/
structure Pending (t : TaskPtr) (kont : Kont) (v : Msg) (s : State) : Prop where
  old : t < s.fresh
  current : s.current ≠ t
  ready : ∀ k, s.tasks t = some k → k.state = .zombie ∨
    k.state = .ready ∧ k.kont = kont ∧ k.msgVal = v

/-- Nothing happens to a task that is ready, but that it dies or changes its priority. -/
theorem Pending.kept (h : Pending t kont v s) (hf : s.fresh ≤ s'.fresh) (hc : s'.current = s.current)
    (hk : ∀ k', s'.tasks t = some k' → k'.state = .zombie ∨ ∃ k, s.tasks t = some k ∧
      k'.state = k.state ∧ k'.kont = k.kont ∧ k'.msgVal = k.msgVal) : Pending t kont v s' where
  old := lt_of_lt_of_le h.old hf
  current := hc ▸ h.current
  ready k' hk' := by
    rcases hk k' hk' with hz | ⟨k, hk, hs, hkont, hv⟩
    · exact Or.inl hz
    · rcases h.ready k hk with hz | ⟨hr, hkont', hv'⟩
      · exact Or.inl (hs.trans hz)
      · exact Or.inr ⟨hs.trans hr, hkont.trans hkont', hv.trans hv'⟩

theorem Pending.same (h : Pending t kont v s) (hf : s.fresh ≤ s'.fresh) (hc : s'.current = s.current)
    (hk : s'.tasks t = s.tasks t) : Pending t kont v s' :=
  h.kept hf hc fun k' hk' => Or.inr ⟨k', hk ▸ hk', rfl, rfl, rfl⟩

theorem Pending.woken (h : Pending t kont v s) (hk : s.tasks u = some k) (hr : k.state ≠ .ready)
    (hz : k.state ≠ .zombie) (m : Task) : Pending t kont v (s.woken u m) := by
  have hne : t ≠ u := by
    rintro rfl
    rcases h.ready k hk with h | h
    · exact hz h
    · exact hr h.1
  exact h.same (Nat.le_refl _) rfl (woken_of_ne hne)

theorem Pending.died {r : Int} (h : Pending t kont v s) : Pending t kont v (s.died u k r) := by
  by_cases hu : t = u
  · subst hu
    refine h.kept (Nat.le_refl _) rfl fun k' hk' => ?_
    have hself : (s.died t k r).tasks t = some { k with
      state := .zombie, priority := deathPriority s.totalTicks, retval := r } := setTask_tasks_self
    rw [hself] at hk'
    cases hk'
    exact Or.inl rfl
  · exact h.same (Nat.le_refl _) rfl (setTask_tasks_of_ne hu)

theorem Pending.mourned {parent : Option TaskPtr} (h : Pending t kont v s) (m : Mourned s parent s') :
    Pending t kont v s' := by
  cases m with
  | alone _ => exact h
  | @woken p l _ hl hs _ => exact h.woken hl (by rw [hs]; decide) (by rw [hs]; decide) l

theorem Pending.freed (h : Pending t kont v s) : Pending t kont v (s.freed u) :=
  h.kept (Nat.le_refl _) rfl fun k' hk' => Or.inr ⟨k', (freed_tasks hk').2, rfl, rfl, rfl⟩

theorem Pending.ranked {p : Int} (h : Pending t kont v s) (hk : s.tasks u = some k) :
    Pending t kont v (s.ranked u k p) := by
  have hf : s.fresh ≤ (s.ranked u k p).fresh := by
    unfold State.ranked
    split <;> exact Nat.le_refl _
  apply h.kept hf ranked_frame.1
  intro k' hk'
  by_cases hu : t = u
  · subst hu
    rw [ranked_self] at hk'
    cases hk'
    exact Or.inr ⟨k, hk, rfl, rfl, rfl⟩
  · rw [ranked_of_ne hu] at hk'
    exact Or.inr ⟨k', hk', rfl, rfl, rfl⟩

theorem Effect.pending (e : Effect T D M K B s s') (h : Pending t kont v s) : Pending t kont v s' := by
  cases e with
  | quiet q =>
    cases q with
    | same e _ => exact h.same (le_of_eq e.fresh.symm) e.current (e.others t (Ne.symm h.current))
    | wake hk _ hz hr _ _ _ => exact h.woken hk hr hz _
    | die _ _ _ _ _ hm _ _ => exact h.died.mourned hm
    | reap _ _ _ _ _ => exact h.freed
    | @reapChild u k c _ _ _ _ _ _ _ _ =>
      have hf : Pending t kont v (s.freed u) := h.freed
      exact hf.same (Nat.le_refl _) rfl rfl
    | start _ _ _ _ _ _ =>
      exact h.same (Nat.le_succ _) rfl (born_tasks_of_ne (Nat.ne_of_lt h.old))
    | rank hk _ _ _ _ => exact h.ranked hk
    | create _ _ _ => exact h.same (Nat.le_refl _) rfl rfl
    | drop _ _ _ => exact h.same (Nat.le_refl _) rfl rfl
    | leak _ _ => exact h.same (Nat.le_refl _) rfl rfl
    | sawStart _ _ => exact h.same (Nat.le_refl _) rfl rfl
  | exit _ _ _ _ _ hm => exact h.died.mourned hm
  | block _ _ _ _ _ _ _ _ _ _ =>
    exact h.same (Nat.le_refl _) rfl (setTask_tasks_of_ne (Ne.symm h.current))

theorem Effects.pending (e : Effects T D M K B s s') (h : Pending t kont v s) : Pending t kont v s' := by
  induction e with
  | refl => exact h
  | tail _ e ih => exact e.pending ih

/-- It is the turn of `t` to go on at `kont`. -/
structure Turn (t : TaskPtr) (kont : Kont) (v : Msg) (s : State) : Prop where
  current : s.current = t
  ctl : s.ctl = .resume
  task : ∃ k, s.tasks t = some k ∧ k.kont = kont ∧ k.msgVal = v

theorem Pending.switched (h : Pending t kont v s) (hk : s.tasks u = some k) (hr : k.state = .ready)
    (hstart : k.firstStart = true → k.kont ≠ kont) :
    Pending t kont v (s.switched u k) ∨ Turn t kont v (s.switched u k) := by
  by_cases hu : t = u
  · subst hu
    rcases h.ready k hk with hz | ⟨_, hkont, hv⟩
    · rw [hr] at hz
      cases hz
    · refine Or.inr ⟨rfl, ?_, _, setTask_tasks_self, hkont, hv⟩
      have hold : k.firstStart = false := by
        cases hf : k.firstStart with
        | false => rfl
        | true => exact absurd hkont (hstart hf)
      exact if_neg (by rw [hold]; decide)
  · refine Or.inl ⟨h.old, Ne.symm hu, fun k' hk' => ?_⟩
    rw [show (s.switched u k).tasks t = s.tasks t from setTask_tasks_of_ne hu] at hk'
    exact h.ready k' hk'

theorem Switch.pending (e : Switch s s') (hun : s.Unstarted) (hkont : kont ≠ .iret)
    (h : Pending t kont v s) : Pending t kont v s' ∨ Turn t kont v s' := by
  have begun {u : TaskPtr} {k : Task} (hk : s.tasks u = some k) : k.firstStart = true → k.kont ≠ kont :=
    fun hf he => hkont (he.symm.trans (hun u k hk hf).1)
  cases e with
  | switch hk hr _ => exact h.switched hk hr (begun hk)
  | @preempt new k c hk hr hc hs =>
    have hne : new ≠ s.current := ne_of_state hk hc (by rw [hr, hs]; decide)
    have hw : Pending t kont v (s.woken s.current c) :=
      h.woken hc (by rw [hs]; decide) (by rw [hs]; decide) c
    exact hw.switched ((woken_of_ne hne).trans hk) hr (begun hk)

theorem Stepped.pending (st : Stepped A T D K R L B s s') (hs : Sound A D K s) (hkont : kont ≠ .iret)
    (h : Pending t kont v s) : Pending t kont v s' ∨ Turn t kont v s' := by
  obtain ⟨s₁, m, hend⟩ := st.moves
  have h₁ := Effects.pending (m.effects hs.inv) h
  rcases hend with rfl | hsw
  · exact Or.inl h₁
  · exact hsw.pending (Effects.unstarted (m.effects hs.inv) hs.inv hs.unstarted) hkont h₁

end Ready

section Clock

theorem Talk.cptRst_le (e : Talk T K R L s s') : s.cptRst ≤ s'.cptRst := by
  cases e with
  | @exchange id p q msg rest last k l c _ _ _ _ _ _ _ _ _ _ _ _ =>
    change s.cptRst ≤ (s.exchanged id ((q.pop rest).add l.msgVal) msg last l).cptRst
    rw [exchanged_cptRst]
  | empty _ _ _ _ _ _ => exact le_of_eq freeMqueue_cptRst.symm
  | bump _ _ => exact Nat.le_succ _
  | _ => exact Nat.le_refl _

theorem Moves.cptRst_le (m : Moves T D K R L B s s') (hi : Inv s) : s.cptRst ≤ s'.cptRst := by
  induction m with
  | refl => exact Nat.le_refl _
  | tail hab hbc ih =>
    cases hbc with
    | plain e => exact ih.trans (le_of_eq (e.undisturbed (Moves.inv hab hi)).cptRst.symm)
    | talk e => exact ih.trans e.cptRst_le

theorem Stepped.cptRst_le (st : Stepped A T D K R L B s s') (hi : Inv s) : s.cptRst ≤ s'.cptRst := by
  obtain ⟨s₁, m, hend⟩ := st.moves
  have h₁ := m.cptRst_le hi
  rcases hend with rfl | hsw
  · exact h₁
  · cases hsw with
    | switch _ _ _ => exact h₁
    | preempt _ _ _ _ => exact h₁

end Clock

def Elsewhere (t : TaskPtr) (s : State) (e : Event) : Prop := s.IdleStarts e ∧ s.current ≠ t

instance : Decidable (Elsewhere t s e) := inferInstanceAs (Decidable (_ ∧ _))

theorem reached {P : State → Event → Prop} [∀ s e, Decidable (P s e)] {es : List Event}
    (h : exec (admitted P) es s = .ok s') : Reachable (· = s) (Step P) s' := by
  exact Reachable.exec (Reachable.start rfl) (fun _ _ _ ht => admitted_step ht) h

theorem Pending.run (hs : Sound False False False s₁) (h : Pending t kont v s₁) (hkont : kont ≠ .iret)
    (hrun : Reachable (· = s₁) (Step (Elsewhere t)) s₂) : Sound False False False s₂ ∧
      s₁.cptRst ≤ s₂.cptRst ∧ (Pending t kont v s₂ ∨ Turn t kont v s₂) := by
  apply hrun.invariant (I := fun s => Sound False False False s ∧ s₁.cptRst ≤ s.cptRst ∧
    (Pending t kont v s ∨ Turn t kont v s))
  · rintro _ rfl
    exact ⟨hs, Nat.le_refl _, Or.inl h⟩
  · rintro s s' ⟨hs, hle, hp⟩ ⟨e, ⟨hidle, hne⟩, he⟩
    have st := (step_spec hs (IdleStarts.allows hidle)).elim he
    refine ⟨st.sound hs, hle.trans (st.cptRst_le hs.inv), ?_⟩
    rcases hp with hp | hturn
    · exact st.pending hs hkont hp
    · exact absurd hturn.current hne

section Reset

theorem Deleted.pending {w : State} (hi : Inv s) (hrun : s.Serving)
    (hw : Deleted False False False False False AnyStart s id w)
    (ht : t ∈ s.queues.members (.waitingSenders id) ∨ t ∈ s.queues.members (.waitingReceivers id))
    (hin : s.Inside t kont v) : Pending t kont v w := by
  obtain ⟨c, hc, hr, _⟩ := hrun
  obtain ⟨k, hk, hready⟩ := hw.woke t ht
  obtain ⟨k', hk', _, hkont, hv⟩ := (hw.inside t kont v).mpr hin
  rw [hk] at hk'
  cases hk'
  refine ⟨?_, ?_, ?_⟩
  · exact (hw.moves.inv hi).lt_fresh hk
  · rw [hw.current]
    rcases ht with ht | ht
    · obtain ⟨_, _, _, hne⟩ := hi.waiting ht rfl hc hr
      exact Ne.symm hne
    · obtain ⟨_, _, _, hne⟩ := hi.waiting ht rfl hc hr
      exact Ne.symm hne
  · intro l hl
    rw [hk] at hl
    cases hl
    exact Or.inr ⟨hready, hkont, hv⟩

theorem Deleted.of_ok {w : State} (hi : Inv s) (hm : Mail False s) (hrun : s.Serving)
    (hq : s.mqueues id = some q) (hw : s.deleteQueue id q = .ok w) :
    Deleted False False False False False AnyStart s id w :=
  (deleteQueue_spec (A := False) (D := False) hi hm hrun hq not_false nofun nofun nofun).elim hw

/-- `pdelete` and `preset` make those who wait ready, and `cpt_rst` passes what they have saved. -/
theorem reset_releases (hs : Sound False False False s) (hu : s.ctl = .user)
    (hc : c = .pdelete id ∨ c = .preset id)
    (ht : t ∈ s.queues.members (.waitingSenders id) ∨ t ∈ s.queues.members (.waitingReceivers id))
    (hin : s.Inside t kont v) (h₁ : step (.call c) s = .ok s₁) :
    Pending t kont v s₁ ∧ s.cptRst < s₁.cptRst := by
  have hused : (s.mqueues id).isSome := by
    rcases ht with ht | ht
    · exact (hs.inv.live ht).choose_spec.2.2
    · exact (hs.inv.live ht).choose_spec.2.2
  obtain ⟨q, hq⟩ := Option.isSome_iff_exists.mp hused
  have hrun := hs.serving hu
  have hmq := mqueue_eq hq (hs.inv.range id hused)
  unfold step stepWith at h₁
  rw [hu] at h₁
  rcases hc with rfl | rfl
  · change s.pdelete id = .ok s₁ at h₁
    unfold pdelete at h₁
    rw [hmq, ok_bind] at h₁
    obtain ⟨w, hw, hret⟩ := bind_ok.mp h₁
    have hd := Deleted.of_ok hs.inv hs.mail hrun hq hw
    cases hret
    have hp := hd.pending hs.inv hrun ht hin
    have hcpt := hd.cptRst
    exact ⟨hp.same (Nat.le_refl _) rfl rfl, show s.cptRst < w.cptRst by omega⟩
  · change s.preset id = .ok s₁ at h₁
    unfold preset at h₁
    rw [hmq, ok_bind, Int.toNat_natCast] at h₁
    obtain ⟨a, ha, h₁⟩ := bind_ok.mp h₁
    have hbump : a = s.bump id := bumpCptRst_spec (A := False) (D := False) |>.elim ha
    subst hbump
    obtain ⟨w, hw, hret⟩ := bind_ok.mp h₁
    obtain ⟨m, hm⟩ : Moves False False False False False AnyStart s (s.bump id) ∧ Mail False (s.bump id) :=
      bump_mail hs.mail not_false hs.inv nofun
    have hd := Deleted.of_ok (m.inv hs.inv) hm hrun hq hw
    cases hret
    have hp := hd.pending (m.inv hs.inv) hrun ht hin
    have hnew : Pending t kont v (w.allocMqueue id q.count) := hp.same (Nat.le_refl _) rfl rfl
    have hcpt : w.cptRst = s.cptRst + 1 + 1 := hd.cptRst
    exact ⟨hnew.same (Nat.le_refl _) rfl rfl, show s.cptRst < w.cptRst by omega⟩

end Reset

section Resume

/-- The call of the current task returns a negative value at once, and nothing else happens. -/
def ReturnsNegative (s : State) : Prop :=
  ∃ s' r, step .kernel s = .ok s' ∧ r < 0 ∧ s'.ctl = .user ∧ s'.mqueues = s.mqueues ∧
    s'.trace = .returned s.current r :: s.trace

theorem returnsNegative_ret (hc : s.ctl = .resume) (hk : s.tasks s.current = some k)
    (hr : (s.consumed k).resumeAt k.kont = (s.consumed k).ret (-1)) : s.ReturnsNegative := by
  refine ⟨(s.consumed k).returned (-1), -1, ?_, by decide, rfl, rfl, rfl⟩
  unfold step stepWith
  rw [hc]
  change s.resume = _
  unfold resume
  rw [task_ok hk, ok_bind]
  exact hr

theorem not_returnsNegative (hc : s.ctl = .resume) (hk : s.tasks s.current = some k)
    (hr : ∀ s', (s.consumed k).resumeAt k.kont = .ok s' → s'.ctl = .sched) : ¬ s.ReturnsNegative := by
  rintro ⟨s', r, hs, _, hu, _⟩
  unfold step stepWith at hs
  rw [hc] at hs
  change s.resume = _ at hs
  unfold resume at hs
  rw [task_ok hk, ok_bind] at hs
  rw [hr s' hs] at hu
  cases hu

/-- A call that goes on in its loop returns just when the queue is there and does not make it wait. -/
theorem Turn.decides (h : Turn t kont v s)
    (hwait : ∀ k, s.tasks s.current = some k → k.msgVal = v →
      (s.mqueues id = none ∨ ∃ q, s.mqueues id = some q ∧ q.Stops hd) →
        ∀ s', (s.consumed k).resumeAt kont = .ok s' → s'.ctl = .sched)
    (hgo : ∀ k q, s.tasks s.current = some k → k.msgVal = v → s.mqueues id = some q → ¬ q.Stops hd →
      (s.consumed k).resumeAt kont = (s.consumed k).ret (-1)) :
    s.ReturnsNegative ↔ ∃ q, s.mqueues id = some q ∧ ¬ q.Stops hd := by
  obtain ⟨rfl, hc, k, hk, rfl, rfl⟩ := h
  constructor
  · intro hr
    by_contra hno
    refine not_returnsNegative hc hk (hwait k hk rfl ?_) hr
    cases hq : s.mqueues id with
    | none => exact Or.inl rfl
    | some q =>
      refine Or.inr ⟨q, rfl, ?_⟩
      by_contra hstop
      exact hno ⟨q, hq, hstop⟩
  · rintro ⟨q, hq, hstop⟩
    exact returnsNegative_ret hc hk (hgo k q hk rfl hq hstop)

theorem Turn.unlinked (h : Turn t kont v s) (hs : Sound A D K s) : s.queues.link s.current = none := by
  obtain ⟨l, hl, hr⟩ := hs.running (by rw [h.ctl]; decide)
  exact hs.inv.unlinked_current hl hr

theorem Turn.sender (h : Turn t (.psendLoop id msg rst) v s) (hs : Sound False False False s)
    (hlt : rst < s.cptRst) (hv : v.data ≠ -1) :
    s.ReturnsNegative ↔ ∃ q, s.mqueues id = some q ∧ ¬ q.Stops (.waitingSenders id) := by
  have hun := h.unlinked hs
  apply h.decides
  · intro k hk hval hq s' hs'
    have hself : (s.consumed k).tasks (s.consumed k).current = some { k with kont := .iret } :=
      consumed_self
    have hs' : (s.consumed k).psendLoop id msg rst = .ok s' := hs'
    rcases hq with hq | ⟨q, hq, hfull⟩
    · have hq' : (s.consumed k).mqueues id = none := hq
      unfold psendLoop at hs'
      rw [hq'] at hs'
      exact pageFault_ctl hs'
    · have hq' : (s.consumed k).mqueues id = some q := hq
      have hblock : (do
          let s ← (s.consumed k).queueAdd s.current (.waitingSenders id)
          s.setTaskInterruptedMsg s.current (.psendLoop id msg rst)) = .ok ((s.consumed k).blocked
            (.waitingSenders id) { k with kont := .iret } (.psendLoop id msg rst)) :=
        interrupted_eq (h := .waitingSenders id) rfl hun hself
      rw [psendLoop_eq hq' hself, if_pos ⟨hfull, by rw [hval]; exact hv⟩] at hs'
      cases hblock.symm.trans hs'
      rfl
  · intro k q hk _ hq hroom
    have hq' : (s.consumed k).mqueues id = some q := hq
    change (s.consumed k).psendLoop id msg rst = _
    rw [psendLoop_eq hq' consumed_self, if_neg (fun hfull => hroom hfull.1)]
    exact if_pos hlt

theorem Turn.receiver (h : Turn t (.preceiveLoop id p rst) v s) (hs : Sound False False False s)
    (hlt : rst < s.cptRst) (hv : v.data = -1) :
    s.ReturnsNegative ↔ ∃ q, s.mqueues id = some q ∧ ¬ q.Stops (.waitingReceivers id) := by
  have hun := h.unlinked hs
  apply h.decides
  · intro k hk hval hq s' hs'
    have hself : (s.consumed k).tasks (s.consumed k).current = some { k with kont := .iret } :=
      consumed_self
    have hs' : (s.consumed k).preceiveLoop id p rst = .ok s' := hs'
    rcases hq with hq | ⟨q, hq, hempty⟩
    · have hq' : (s.consumed k).mqueues id = none := hq
      unfold preceiveLoop at hs'
      rw [task_ok hself, ok_bind, hq'] at hs'
      exact pageFault_ctl hs'
    · have hq' : (s.consumed k).mqueues id = some q := hq
      have hblock : (do
          let s ← (s.consumed k).queueAdd s.current (.waitingReceivers id)
          s.setTaskInterruptedMsg s.current (.preceiveLoop id p rst)) = .ok ((s.consumed k).blocked
            (.waitingReceivers id) { k with kont := .iret } (.preceiveLoop id p rst)) :=
        interrupted_eq (h := .waitingReceivers id) rfl hun hself
      rw [preceiveLoop_eq hq' hself, if_pos ⟨hempty, by rw [hval]; exact hv⟩] at hs'
      cases hblock.symm.trans hs'
      rfl
  · intro k q hk hval hq hsome
    have hq' : (s.consumed k).mqueues id = some q := hq
    have hlost : (s.consumed k).observeLost id k.msgVal = s.consumed k := if_pos (by rw [hval]; exact hv)
    change (s.consumed k).preceiveLoop id p rst = _
    rw [preceiveLoop_eq hq' consumed_self, if_neg (fun hempty => hsome hempty.1)]
    refine (if_pos hlt).trans ?_
    exact congrArg (State.ret (-1)) hlost

end Resume

/-- A call that waited in a queue that is then deleted or reset returns a negative value when it is
next scheduled just when the id is in use and the queue does not make it wait again. -/
theorem released_call_returns (h : Run IdleStarts s) (hidle : s.current ≠ s.idle)
    (hhd : hd = .waitingSenders id ∨ hd = .waitingReceivers id) (ht : t ∈ s.queues.members hd)
    (hc : c = .pdelete id ∨ c = .preset id) (hs₁ : step (.call c) s = .ok s₁)
    (hrun : Reachable (· = s₁) (Step (Elsewhere t)) s₂) (hcur : s₂.current = t) :
    s₂.ReturnsNegative ↔ ∃ q, s₂.mqueues id = some q ∧ ¬ q.Stops hd := by
  have hs : Sound False False False s := Run.soundIdle h
  have hu : s.ctl = .user := step_user hs₁ nofun
  have hallow : s.IdleStarts (.call c) := by
    rcases hc with rfl | rfl
    · exact hidle
    · exact hidle
  have hsound : Sound False False False s₁ := step_sound hs hallow.allows hs₁
  rcases hhd with rfl | rfl
  · obtain ⟨msg, rst, hin, hv⟩ := hs.mail.sending t id (Links.link_of_mem ht)
    obtain ⟨hp, hlt⟩ := reset_releases hs hu hc (Or.inl ht) hin hs₁
    obtain ⟨hs₂, hle, hturn⟩ := hp.run hsound nofun hrun
    have hrst : rst ≤ s.cptRst := (hs.mail.fact _ _ _ hin).1
    rcases hturn with hp | hturn
    · exact absurd hcur hp.current
    · exact hturn.sender hs₂ (by omega) hv
  · obtain ⟨p, rst, v, hin, hv⟩ := hs.mail.receiving t id (Links.link_of_mem ht)
    obtain ⟨hp, hlt⟩ := reset_releases hs hu hc (Or.inr ht) hin hs₁
    obtain ⟨hs₂, hle, hturn⟩ := hp.run hsound nofun hrun
    have hrst : rst ≤ s.cptRst := (hs.mail.fact _ _ _ hin).1
    rcases hturn with hp | hturn
    · exact absurd hcur hp.current
    · exact hturn.receiver hs₂ (by omega) hv

/-- A sender to a full queue, which is reset. -/
theorem released_call_returns_one : ∃ s s₂ : State, 2 ∈ s.queues.members (.waitingSenders 0) ∧
    (s₂.ReturnsNegative ↔ ∃ q, s₂.mqueues 0 = some q ∧ ¬ q.Stops (.waitingSenders 0)) := by
  have hrun : Ends (exec (admitted IdleStarts) [.call (.start (anApp 2)), .kernel,
      .call (.pcreate 1), .call (.psend 0 7), .call (.start (anApp 3)), .kernel,
      .call (.psend 0 8), .kernel, .kernel] boot)
      fun s => s.current ≠ s.idle ∧ 2 ∈ s.queues.members (.waitingSenders 0) ∧
        Ends (step (.call (.preset 0)) s) fun s₁ =>
          Ends (exec (admitted (Elsewhere 2)) [.tick, .kernel] s₁) fun s₂ => s₂.current = 2 := by
    decide +kernel
  obtain ⟨s, hs, hidle, ht, hrest⟩ := hrun.elim
  obtain ⟨s₁, hs₁, hrest⟩ := hrest.elim
  obtain ⟨s₂, hs₂, hcur⟩ := hrest.elim
  exact ⟨s, s₂, ht, released_call_returns (Run.replayed hs) hidle (Or.inl rfl) ht (Or.inr rfl) hs₁
    (reached hs₂) hcur⟩

/-- A receiver at an empty queue that is reset: it waits again. -/
theorem released_call_waits : ∃ s s₁ s₂ : State, Run IdleStarts s ∧ s.current ≠ s.idle ∧
    2 ∈ s.queues.members (.waitingReceivers 0) ∧ step (.call (.preset 0)) s = .ok s₁ ∧
    Reachable (· = s₁) (Step (Elsewhere 2)) s₂ ∧ s₂.current = 2 ∧ ¬ s₂.ReturnsNegative := by
  have hrun : Ends (exec (admitted IdleStarts) [.call (.start (anApp 2)), .kernel,
      .call (.pcreate 1), .call (.start (anApp 3)), .kernel,
      .call (.preceive 0 .mapped), .kernel, .kernel] boot)
      fun s => s.current ≠ s.idle ∧ 2 ∈ s.queues.members (.waitingReceivers 0) ∧
        Ends (step (.call (.preset 0)) s) fun s₁ =>
          Ends (exec (admitted (Elsewhere 2)) [.tick, .kernel] s₁) fun s₂ => s₂.current = 2 ∧
            Ends (step .kernel s₂) fun s₃ => s₃.ctl = .sched := by
    decide +kernel
  obtain ⟨s, hs, hidle, ht, hrest⟩ := hrun.elim
  obtain ⟨s₁, hs₁, hrest⟩ := hrest.elim
  obtain ⟨s₂, hs₂, hcur, hrest⟩ := hrest.elim
  obtain ⟨s₃, hs₃, hctl⟩ := hrest.elim
  refine ⟨s, s₁, s₂, Run.replayed hs, hidle, ht, hs₁, reached hs₂, hcur, ?_⟩
  rintro ⟨s', _, hs', _, hu, _⟩
  cases hs₃.symm.trans hs'
  cases hctl.symm.trans hu

end State
end DominOS.Process
