import DominOS.ProcessTalk

/-! How kernel code hands over: to user code, to more kernel code of the same task, or
to `schedule`. -/
namespace DominOS.Process
open IntrusiveLists Fallible Relation
namespace State
variable {s s' s₀ : State} {t u : TaskPtr} {k : Task} {h : Head} {A D T M K R L : Prop} {r : Int}
  {B : State → StartArgs → Prop}

theorem Quiet.mono {T' M' : Prop} (hT : T' → T) (hM : M' → M) (q : Quiet T D M K B s s') :
    Quiet T' D M' K B s s' := by
  cases q with
  | same e hm => exact .same e fun h => hm (hM h)
  | wake hk hc hz hr hcur hp hm =>
    exact .wake hk hc hz hr hcur (fun h => hp (hT h)) fun h => hm (hM h)
  | die hk hc hi hz hs hm hcur hp => exact .die hk hc hi hz hs hm hcur fun h => hp (hT h)
  | reap hk hz hc hp hd => exact .reap hk hz hc hp hd
  | reapChild hk hz hp hc hcur hkont hd hr => exact .reapChild hk hz hp hc hcur hkont hd hr
  | start hpid hcur hp hq ha hb => exact .start hpid hcur (fun h => hp (hT h)) hq ha hb
  | rank hk hi hz hcur hp => exact .rank hk hi hz hcur fun h => hp (hT h)
  | create hn hid h => exact .create (mt hM hn) hid h
  | drop hn h1 h2 => exact .drop (mt hM hn) h1 h2
  | leak ha hb => exact .leak ha hb
  | sawStart hc hp => exact .sawStart hc hp

theorem Effect.mono {T' M' : Prop} (hT : T' → T) (hM : M' → M) (e : Effect T D M K B s s') :
    Effect T' D M' K B s s' := by
  cases e with
  | quiet q => exact .quiet (q.mono hT hM)
  | exit hn hk hi hr hs hm => exact .exit (mt hT hn) hk hi hr hs hm
  | block hn hk hr hi h1 h2 hu hkont hm hw =>
    exact .block (mt hT hn) hk hr hi h1 h2 hu hkont (fun h => hm (hM h)) hw

theorem Talk.mono {T' : Prop} (hT : T' → T) (e : Talk T K R L s s') : Talk T' K R L s s' := by
  cases e with
  | hand h1 h2 h3 h4 h5 h6 h7 h8 => exact .hand h1 h2 h3 h4 h5 h6 (fun h => h7 (hT h)) h8
  | told h1 h2 h3 h4 h5 => exact .told h1 h2 h3 h4 h5
  | sendBlock h1 h2 h3 h4 h5 h6 h7 h8 => exact .sendBlock (mt hT h1) h2 h3 h4 h5 h6 h7 h8
  | sendAgain h1 h2 h3 h4 h5 h6 h7 h8 => exact .sendAgain (mt hT h1) h2 h3 h4 h5 h6 h7 h8
  | enter h1 h2 h3 h4 h5 h6 => exact .enter h1 h2 h3 h4 h5 h6
  | unsent h1 h2 h3 => exact .unsent h1 h2 h3
  | sent h1 => exact .sent h1
  | consume h1 h2 h3 => exact .consume h1 h2 h3
  | lost h1 h2 h3 h4 h5 => exact .lost h1 h2 h3 h4 h5
  | received h1 h2 h3 => exact .received h1 h2 h3
  | receiveBlock h1 h2 h3 h4 h5 h6 h7 h8 h9 h10 =>
    exact .receiveBlock (mt hT h1) h2 h3 h4 h5 h6 h7 h8 h9 h10
  | exchange h1 h2 h3 h4 h5 h6 h7 h8 h9 h10 h11 h12 =>
    exact .exchange h1 h2 h3 h4 h5 h6 h7 h8 h9 (fun h => h10 (hT h)) h11 h12
  | take h1 h2 h3 h4 => exact .take h1 h2 h3 h4
  | spill h1 h2 h3 h4 h5 => exact .spill h1 h2 h3 h4 h5
  | release h1 h2 h3 h4 h5 h6 => exact .release h1 h2 h3 h4 (fun h => h5 (hT h)) h6
  | bump h1 h2 => exact .bump h1 h2
  | empty h1 h2 h3 h4 h5 h6 => exact .empty h1 h2 h3 h4 h5 h6
  | create h1 h2 h3 h4 => exact .create h1 h2 h3 h4

def SameParents (s s' : State) : Prop :=
  ∀ t, (s'.tasks t).map Task.parent = (s.tasks t).map Task.parent

theorem SameParents.setTask (hk : s.tasks t = some k)
    (ht : ∃ l, s'.tasks = Function.update s.tasks t (some l) ∧ l.parent = k.parent) :
    s.SameParents s' := by
  obtain ⟨l, ht, hp⟩ := ht
  intro u
  rw [ht]
  by_cases hu : u = t
  · subst hu
    simp [hk, hp]
  · rw [Function.update_of_ne hu]

theorem SameParents.noDangling (f : s.SameParents s') (h : s.NoDangling) : s'.NoDangling := by
  intro t k p hk hp
  have ht := f t
  rw [hk] at ht
  obtain ⟨l, hl, hlp⟩ := Option.map_eq_some_iff.mp ht.symm
  obtain ⟨m, hm⟩ := h t l p hl (hlp.trans hp)
  have hpp := f p
  rw [hm] at hpp
  obtain ⟨m', hm', _⟩ := Option.map_eq_some_iff.mp hpp
  exact ⟨m', hm'⟩

theorem NoDangling.born {c : Task} {pid : Nat} {a : StartArgs} (h : s.NoDangling) (hi : Placed s)
    (hc : s.tasks s.current = some c) : (s.born pid a).NoDangling := by
  intro t k p hk hp
  have hparent : ∃ l, s.tasks p = some l := by
    rcases born_tasks hk with ⟨rfl, rfl⟩ | ⟨_, hk⟩
    · cases hp
      exact ⟨c, hc⟩
    · exact h t k p hk hp
  obtain ⟨l, hl⟩ := hparent
  exact ⟨l, (born_tasks_of_ne (hi.ne_fresh hl)).trans hl⟩

theorem Mourned.noDangling {parent : Option TaskPtr} (m : Mourned (s.died t k r) parent s')
    (hk : s.tasks t = some k) (h : s.NoDangling) : s'.NoDangling := by
  have hd : (s.died t k r).NoDangling := (SameParents.setTask hk ⟨_, rfl, by exact rfl⟩).noDangling h
  cases m with
  | alone _ => exact hd
  | woken _ hl _ _ => exact (SameParents.setTask hl ⟨_, rfl, by exact rfl⟩).noDangling hd

theorem Effect.noDangling (e : Effect T D M K B s s') (hD : D) (hi : Inv s) (h : s.NoDangling) :
    s'.NoDangling := by
  cases e with
  | quiet q =>
    cases q with
    | same e _ =>
      obtain ⟨c, hc, _⟩ := hi.current
      obtain ⟨kont, msgVal, hself, _⟩ := e.self c hc
      refine SameParents.noDangling (fun t => ?_) h
      by_cases ht : t = s.current
      · rw [ht, hself, hc]
        rfl
      · rw [e.others t ht]
    | wake hk _ _ _ _ _ _ => exact (SameParents.setTask hk ⟨_, rfl, by exact rfl⟩).noDangling h
    | die hk _ _ _ _ hm _ _ => exact hm.noDangling hk h
    | reap _ _ _ _ hd => exact h.freed (hd hD)
    | reapChild _ _ _ _ _ _ hd => exact h.freed (hd hD)
    | start _ hc _ _ _ _ => exact h.born hi.toPlaced hc
    | @rank t k c p hk _ _ _ _ =>
      refine SameParents.noDangling (SameParents.setTask hk ⟨{ k with priority := p }, ?_, rfl⟩) h
      unfold ranked
      split <;> rfl
    | create _ _ _ => exact h
    | drop _ _ _ => exact h
    | leak _ _ => exact h
    | sawStart _ _ => exact h
  | exit _ hk _ _ _ hm => exact hm.noDangling hk h
  | block _ hk _ _ _ _ _ _ _ _ => exact (SameParents.setTask hk ⟨_, rfl, by exact rfl⟩).noDangling h

theorem Effects.noDangling (e : Effects T D M K B s s') (hD : D) (hi : Inv s) (h : s.NoDangling) :
    s'.NoDangling := by
  induction e with
  | refl => exact h
  | tail hab e ih => exact e.noDangling hD (Effects.inv hab hi) ih

inductive Move (T D K R L : Prop) (B : State → StartArgs → Prop) (s s' : State) : Prop where
  | plain : Effect T D True K B s s' → Move T D K R L B s s'
  | talk : Talk T K R L s s' → Move T D K R L B s s'

abbrev Moves (T D K R L : Prop) (B : State → StartArgs → Prop) : State → State → Prop := ReflTransGen (Move T D K R L B)

theorem Move.mono {T' : Prop} (hT : T' → T) (m : Move T D K R L B s s') : Move T' D K R L B s s' := by
  cases m with
  | plain e => exact .plain (e.mono hT id)
  | talk e => exact .talk (e.mono hT)

theorem Moves.mono {T' : Prop} (hT : T' → T) (m : Moves T D K R L B s s') : Moves T' D K R L B s s' :=
  ReflTransGen.lift id (fun _ _ => Move.mono hT) _ _ m

theorem Move.effects (m : Move T D K R L B s s') (hi : Inv s) : Effects T D False K B s s' := by
  cases m with
  | plain e => exact .single (e.mono id False.elim)
  | talk e => exact e.effects hi

theorem Moves.effects (m : Moves T D K R L B s s') (hi : Inv s) : Effects T D False K B s s' := by
  induction m with
  | refl => exact .refl
  | tail _ hbc ih => exact ih.trans (hbc.effects (Effects.inv ih hi))

theorem Moves.inv (m : Moves T D K R L B s s') (hi : Inv s) : Inv s' := Effects.inv (m.effects hi) hi

theorem Quiets.moves (q : Quiets T D True K B s s') : Moves T D K R L B s s' :=
  ReflTransGen.lift id (fun _ _ h => .plain (.quiet h)) _ _ q

theorem Effects.moves (q : Effects T D True K B s s') : Moves T D K R L B s s' :=
  ReflTransGen.lift id (fun _ _ h => .plain h) _ _ q

theorem Quiets.mono {T' : Prop} (hT : T' → T) (q : Quiets T D M K B s s') : Quiets T' D M K B s s' :=
  ReflTransGen.lift id (fun _ _ => Quiet.mono hT id) _ _ q

def Serving (s : State) : Prop :=
  ∃ k, s.tasks s.current = some k ∧ k.state = .running ∧ k.kont = .iret

/-- How a step of kernel code ends: in user code or on the way to it with the current
task running, or at `schedule`. -/
structure Outcome (A T D K R L : Prop) (B : State → StartArgs → Prop) (s s' : State) : Prop where
  moves : Moves (T ∧ s'.ctl ≠ .sched) D K R L B s s'
  running : s'.ctl ≠ .sched → s'.Running
  serving : s'.ctl = .user → s'.Serving
  awake : A → s'.ctl = .sched → s'.Awake

theorem wentOn_self {kont : Kont} {c : Ctl} :
    (s.wentOn k kont c).tasks (s.wentOn k kont c).current = some { k with kont := kont } :=
  setTask_tasks_self

theorem goOn_eq {kont : Kont} {c : Ctl} (hk : s.tasks s.current = some k) :
    s.goOn c kont = .ok (s.wentOn k kont c) := by
  unfold goOn
  rw [task_ok hk, ok_bind]
  rfl

theorem goOn_ctl {kont : Kont} {c : Ctl} (h : s.goOn c kont = .ok s') : s'.ctl = c := by
  unfold goOn at h
  obtain ⟨k, _, h⟩ := bind_ok.mp h
  cases h
  rfl

theorem wentOn_quiet {kont : Kont} {c : Ctl} (hk : s.tasks s.current = some k)
    (hc : k.state ≠ .interruptedChild) (hkont : s.KontOk s.current kont) (hs : kont.Silent) (hs' : k.kont.Silent) :
    Quiet T D True K B s (s.wentOn k kont c) := by
  refine .same { SameLists.own (n := kont) (m := k.msgVal) hk (Or.inr ⟨hc, hkont⟩) with } fun _ => ?_
  refine ⟨rfl, rfl, rfl, rfl, ⟨[], rfl, by simp⟩, fun l hl => ?_⟩
  rw [hk] at hl
  cases hl
  exact ⟨_, setTask_tasks_self, Or.inr ⟨hs, hs'⟩⟩

theorem callSchedule_spec {kont : Kont} (q : Moves False D K R L B s₀ s)
    (hk : s.tasks s.current = some k) (hs : k.state = .running ∨ k.state = .zombie)
    (hkont : s.KontOk s.current kont) (hsil : kont.Silent) (hsil' : k.kont.Silent) :
    Post (Bad A D) (s.callSchedule kont) (Outcome A T D K R L B s₀) := by
  refine .of_eq (goOn_eq hk) ⟨?_, fun h => absurd rfl h, nofun, fun _ _ => ?_⟩
  · have hm : Moves False D K R L B s₀ (s.wentOn k kont .sched) :=
      q.tail (.plain (.quiet (wentOn_quiet hk (by rcases hs with hs | hs <;> simp [hs]) hkont hsil hsil')))
    exact hm.mono fun h => h.2 rfl
  · intro l hl hsl
    rw [wentOn_self] at hl
    cases hl
    have hsl : k.state = .sleeping := hsl
    rcases hs with hs | hs <;> rw [hs] at hsl <;> cases hsl

theorem continueAt_spec {kont : Kont} (q : Moves T D K R L B s₀ s) (hr : s.Serving)
    (hkont : s.KontOk s.current kont) (hsil : kont.Silent) :
    Post (Bad A D) (s.continueAt kont) (Outcome A T D K R L B s₀) := by
  obtain ⟨k, hk, hs, hi⟩ := hr
  refine .of_eq (goOn_eq hk) ⟨?_, fun _ => ⟨_, wentOn_self, hs⟩, nofun, fun _ h => by cases h⟩
  have hm : Moves T D K R L B s₀ (s.wentOn k kont .resume) :=
    q.tail (.plain (.quiet (wentOn_quiet hk (by rw [hs]; decide) hkont hsil (by rw [hi]; trivial))))
  exact hm.mono And.left

def returned (s : State) (v : Int) : State := (s.observe (.returned s.current v)).setCtl .user

theorem SameMsgs.beside {seen : List Obs} (c : Ctl) (ticks : Nat) (ho : ∀ o ∈ seen, o.Silent) :
    s.SameMsgs { s with ctl := c, totalTicks := ticks, trace := seen ++ s.trace } :=
  ⟨rfl, rfl, rfl, rfl, ⟨seen, rfl, ho⟩, fun k hk => ⟨k, hk, Or.inl ⟨rfl, rfl⟩⟩⟩

theorem Quiet.beside {w : List Obs} (c : Ctl) (ticks : Nat)
    (ho : ∀ o ∈ w, o.Plain ∧ o.Silent) :
    Quiet T D M K B s { s with ctl := c, totalTicks := ticks, trace := w ++ s.trace } :=
  .same (SameLists.beside c s.sends s.cptRst ticks fun o h => (ho o h).1) fun _ =>
    SameMsgs.beside c ticks fun o h => (ho o h).2

theorem returned_quiet {v : Int} : Quiet T D M K B s (s.returned v) :=
  Quiet.beside (w := [.returned s.current v]) .user s.totalTicks (by simp [Obs.Plain, Obs.Silent])

theorem ret_spec {v : Int} (q : Moves T D K R L B s₀ s) (hr : s.Serving) :
    Post (Bad A D) (s.ret v) (Outcome A T D K R L B s₀) := by
  obtain ⟨k, hk, hs, hkont⟩ := hr
  refine .ok ⟨?_, fun _ => ⟨k, hk, hs⟩, fun _ => ⟨k, hk, hs, hkont⟩, fun _ h => by cases h⟩
  have hm : Moves T D K R L B s₀ (s.returned v) := q.tail (.plain (.quiet returned_quiet))
  exact hm.mono And.left

end State
end DominOS.Process
