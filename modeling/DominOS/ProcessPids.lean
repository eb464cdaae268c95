import DominOS.ProcessStatus

/-! Which tasks there are: each has been started by its parent, under a pid that no other task
has while both are there. -/
namespace DominOS.Process
open IntrusiveLists Fallible Relation Runs

def Task.kin (k : Task) : Nat × Option TaskPtr := (k.pid, k.parent)

namespace State
variable {s s' : State} {t u : TaskPtr} {k k' c l : Task} {e : Event} {r p : Int}
  {A T D M K R L : Prop} {B : State → StartArgs → Prop}

def Sees (s : State) : Obs → Prop
  | .reaped .. => False
  | .started p c pid => p = s.current ∧ ∃ k, s.tasks c = some k ∧ k.pid = pid ∧ k.parent = some p
  | _ => True

theorem sees_plain {o : Obs} (h : o.Plain) : s.Sees o := by
  cases o <;> trivial

def SameKin (s s' : State) : Prop := ∀ t, (s'.tasks t).map Task.kin = (s.tasks t).map Task.kin

theorem SameKin.setTask (hk : s.tasks t = some k) (ht : ∀ u, u ≠ t → s'.tasks u = s.tasks u)
    (hk' : s'.tasks t = some k') (hp : k'.kin = k.kin) : s.SameKin s' := by
  intro u
  by_cases hu : u = t
  · rw [hu, hk, hk', Option.map_some, Option.map_some, hp]
  · rw [ht u hu]

theorem SameKin.trans {s'' : State} (h : s.SameKin s') (h' : s'.SameKin s'') : s.SameKin s'' :=
  fun t => (h' t).trans (h t)

theorem SameKin.old (h : s.SameKin s') (hk : s'.tasks t = some k') :
    ∃ k, s.tasks t = some k ∧ k'.pid = k.pid ∧ k'.parent = k.parent := by
  have ht := h t
  rw [hk] at ht
  obtain ⟨k, hk, he⟩ := Option.map_eq_some_iff.mp ht.symm
  exact ⟨k, hk, (congrArg Prod.fst he).symm, (congrArg Prod.snd he).symm⟩

theorem SameKin.new (h : s.SameKin s') (hk : s.tasks t = some k) :
    ∃ k', s'.tasks t = some k' ∧ k'.pid = k.pid ∧ k'.parent = k.parent := by
  have ht := h t
  rw [hk] at ht
  obtain ⟨k', hk', he⟩ := Option.map_eq_some_iff.mp ht
  exact ⟨k', hk', congrArg Prod.fst he, congrArg Prod.snd he⟩

inductive Turnover (B : State → StartArgs → Prop) (s : State) : State → Prop where
  | none {s' : State} {O : List Obs} : s.SameKin s' → s'.fresh = s.fresh → s'.idle = s.idle →
      s'.taskCalls = s.taskCalls → s'.trace = O ++ s.trace → (∀ o ∈ O, s.Sees o) → Turnover B s s'
  | born {pid : Nat} {a : StartArgs} {c : Task} : s.tasks s.current = some c →
      allocPid s.pidmap = some pid → a.Passes ∧ a.memory ∧ a.frames → B s a →
      Turnover B s (s.born pid a)
  | freed {t : TaskPtr} {k : Task} : s.tasks t = some k → k.state = .zombie →
      (k.parent = some s.idle ∨
        ∃ p l, k.parent = some p ∧ s.tasks p = some l ∧ l.state = .zombie) →
      Turnover B s (s.freed t)
  | reaped {t : TaskPtr} {k c : Task} : s.tasks t = some k → k.state = .zombie →
      k.parent = some s.current → s.tasks s.current = some c → c.state = .running →
      s.current ≠ s.idle →
      Turnover B s ((s.freed t).observe (.reaped s.current t k.pid k.retval))

theorem Mourned.kin {parent : Option TaskPtr} (m : Mourned (s.died t k r) parent s')
    (hk : s.tasks t = some k) : s.SameKin s' := by
  have hd : s.SameKin (s.died t k r) :=
    .setTask hk (fun _ => setTask_tasks_of_ne) setTask_tasks_self rfl
  cases m with
  | alone _ => exact hd
  | woken _ hl _ _ => exact hd.trans (.setTask hl (fun _ => woken_of_ne) woken_self rfl)

theorem Mourned.calls {parent : Option TaskPtr} (m : Mourned s parent s') :
    s'.taskCalls = s.taskCalls ∧ s'.idle = s.idle := by
  cases m <;> exact ⟨rfl, rfl⟩

theorem Mourned.turnover {parent : Option TaskPtr} (m : Mourned (s.died t k r) parent s')
    (hk : s.tasks t = some k) : Turnover B s s' :=
  .none (O := [.exited t r]) (m.kin hk) m.fresh m.calls.2 m.calls.1 m.trace (by simp [Sees])

theorem Turnover.task (hk : s.tasks t = some k) (ht : ∀ u, u ≠ t → s'.tasks u = s.tasks u)
    (hk' : s'.tasks t = some k') (hp : k'.kin = k.kin) (hf : s'.fresh = s.fresh)
    (hi : s'.idle = s.idle) (hc : s'.taskCalls = s.taskCalls) (htr : s'.trace = s.trace) :
    Turnover B s s' :=
  .none (O := []) (.setTask hk ht hk' hp) hf hi hc htr (by simp)

theorem Turnover.beside {O : List Obs} (ht : s'.tasks = s.tasks) (hf : s'.fresh = s.fresh)
    (hi : s'.idle = s.idle) (hc : s'.taskCalls = s.taskCalls) (htr : s'.trace = O ++ s.trace)
    (ho : ∀ o ∈ O, s.Sees o) : Turnover B s s' :=
  .none (fun t => by rw [ht]) hf hi hc htr ho

theorem ranked_calls {p : Int} : (s.ranked t k p).taskCalls = s.taskCalls ∧
    (s.ranked t k p).fresh = s.fresh ∧ (s.ranked t k p).trace = s.trace ∧
      (s.ranked t k p).pidmap = s.pidmap ∧ (s.ranked t k p).idle = s.idle := by
  unfold ranked
  split <;> exact ⟨rfl, rfl, rfl, rfl, rfl⟩

theorem Effect.turnover (e : Effect T D M K B s s') (hi : Inv s) : Turnover B s s' := by
  cases e with
  | quiet q =>
    cases q with
    | same e _ =>
      obtain ⟨O, ht, ho⟩ := e.trace
      obtain ⟨c, hc, _⟩ := hi.current
      obtain ⟨kont, msgVal, hself, _⟩ := e.self c hc
      exact .none (.setTask hc e.others hself rfl) e.fresh e.idle e.taskCalls ht fun o hm =>
        sees_plain (ho o hm)
    | wake hk _ _ _ _ _ _ => exact .task hk (fun _ => woken_of_ne) woken_self rfl rfl rfl rfl rfl
    | die hk _ _ _ _ hm _ _ => exact hm.turnover hk
    | reap hk hz _ hp _ => exact .freed hk hz hp
    | reapChild hk hz hp _ hc _ _ hr => exact .reaped hk hz hp hc hr.1 hr.2
    | start _ hc _ hpid ha hB => exact .born hc hpid ha hB
    | rank hk _ _ _ _ =>
      obtain ⟨h1, h2, h3, _, h4⟩ := ranked_calls
      exact .task hk (fun _ => ranked_of_ne) ranked_self rfl h2 h4 h1 h3
    | create _ _ _ => exact .beside (O := []) rfl rfl rfl rfl rfl (by simp)
    | drop _ _ _ => exact .beside (O := []) rfl rfl rfl rfl rfl (by simp)
    | leak _ _ => exact .beside (O := []) rfl rfl rfl rfl rfl (by simp)
    | sawStart hk hp =>
      refine .beside (O := [_]) rfl rfl rfl rfl rfl fun o hm => ?_
      rw [List.mem_singleton.mp hm]
      exact ⟨rfl, _, hk, rfl, hp⟩
  | exit _ hk _ _ _ hm => exact hm.turnover hk
  | block _ hk _ _ _ _ _ _ _ _ =>
    exact .task hk (fun _ => setTask_tasks_of_ne) setTask_tasks_self rfl rfl rfl rfl rfl

theorem Switch.turnover (e : Switch s s') :
    s.SameKin s' ∧ s'.fresh = s.fresh ∧ s'.taskCalls = s.taskCalls ∧ s'.trace = s.trace ∧
      s'.pidmap = s.pidmap ∧ s'.idle = s.idle := by
  cases e with
  | switch hk _ _ =>
    exact ⟨.setTask hk (fun _ => setTask_tasks_of_ne) setTask_tasks_self rfl, rfl, rfl, rfl, rfl, rfl⟩
  | @preempt new k c hk hs hc hr =>
    have hne : new ≠ s.current := ne_of_state hk hc (by rw [hs, hr]; decide)
    have hw : s.SameKin (s.woken s.current c) := .setTask hc (fun _ => woken_of_ne) woken_self rfl
    exact ⟨hw.trans (.setTask ((woken_of_ne hne).trans hk) (fun _ => setTask_tasks_of_ne)
      setTask_tasks_self rfl), rfl, rfl, rfl, rfl, rfl⟩

/-- Where a start gets past its checks and finds memory, the pid that `alloc_pid` picks is
that of no task that has not been freed. -/
def PicksNew (s : State) (a : StartArgs) : Prop :=
  a.Passes ∧ a.memory ∧ a.frames → ∀ pid, allocPid s.pidmap = some pid →
    ∀ t, t < s.fresh → ∀ k, s.tasks t = some k → k.pid ≠ pid

/-- Pids of unfreed tasks differ, a child that was started is there until it is freed, and who
reaps by pid reaps the child that had it. -/
structure Named (s : State) : Prop where
  distinct : ∀ t u k l, s.tasks t = some k → s.tasks u = some l → k.pid = l.pid → t = u
  known : ∀ p c pid, .started p c pid ∈ s.trace → p < s.fresh ∧ c < s.fresh ∧
    ((∃ k, s.tasks c = some k ∧ k.pid = pid ∧ k.parent = some p) ∨ p = s.idle ∨
      (∃ pid' r, .reaped p c pid' r ∈ s.trace) ∨ ∀ l, s.tasks p = some l → l.state = .zombie)
  reports : ∀ f p c pid r b, s.trace = f ++ .reaped p c pid r :: b → ∀ c',
    .started p c' pid ∈ b → (∀ pid' r', .reaped p c' pid' r' ∉ b) → c = c'

theorem boot_named : boot.Named := by
  refine ⟨fun t u k l hk hl _ => ?_, nofun, fun f p c pid r b h => ?_⟩
  · have zero {v : TaskPtr} {m : Task} (hm : boot.tasks v = some m) : v = 0 := by
      by_contra hv
      simp [boot, hv] at hm
    rw [zero hk, zero hl]
  · cases f <;> cases h

theorem Named.same {O : List Obs} (h : s.Named) (hi : Inv s) (f : s.Follows s')
    (hk : s.SameKin s') (hidle : s'.idle = s.idle) (ht : s'.trace = O ++ s.trace)
    (ho : ∀ o ∈ O, s.Sees o) : s'.Named := by
  refine ⟨fun t u k l hkt hlu hp => ?_, fun p c pid hm => ?_, fun g p c pid r b hg => ?_⟩
  · obtain ⟨k₀, hk₀, hpk, _⟩ := hk.old hkt
    obtain ⟨l₀, hl₀, hpl, _⟩ := hk.old hlu
    exact h.distinct t u k₀ l₀ hk₀ hl₀ (hpk.symm.trans (hp.trans hpl))
  · rw [ht] at hm
    rcases List.mem_append.mp hm with hm | hm
    · obtain ⟨rfl, k, hc, hpid, hp⟩ := ho _ hm
      obtain ⟨c₀, hc₀, _⟩ := hi.current
      obtain ⟨k', hc', hpid', hp'⟩ := hk.new hc
      exact ⟨lt_of_lt_of_le (hi.lt_fresh hc₀) f.fresh, lt_of_lt_of_le (hi.lt_fresh hc) f.fresh,
        Or.inl ⟨k', hc', hpid'.trans hpid, hp'.trans hp⟩⟩
    · obtain ⟨hlt, hlt', hc⟩ := h.known p c pid hm
      refine ⟨lt_of_lt_of_le hlt f.fresh, lt_of_lt_of_le hlt' f.fresh, ?_⟩
      rcases hc with ⟨k, hc, hpid, hp⟩ | he | ⟨pid', r, hr⟩ | hz
      · obtain ⟨k', hc', hpid', hp'⟩ := hk.new hc
        exact Or.inl ⟨k', hc', hpid'.trans hpid, hp'.trans hp⟩
      · exact Or.inr (Or.inl (he.trans hidle.symm))
      · exact Or.inr (Or.inr (Or.inl ⟨pid', r, ht ▸ List.mem_append_right _ hr⟩))
      · refine Or.inr (Or.inr (Or.inr fun l' hl' => ?_))
        obtain ⟨l, hl, _, _, hstay⟩ := f.old p l' hlt hl'
        exact (hstay (hz l hl)).1
  · obtain ⟨g', hg'⟩ := Obs.split (ht.symm.trans hg) ho nofun
    exact h.reports g' p c pid r b hg'

theorem Named.freed (h : s.Named) (hk : s.tasks t = some k)
    (hz : k.parent = some s.idle ∨
      ∃ p l, k.parent = some p ∧ s.tasks p = some l ∧ l.state = .zombie) :
    (s.freed t).Named := by
  refine ⟨fun u v l m hl hm => ?_, fun p c pid hm => ?_, h.reports⟩
  · exact h.distinct u v l m (freed_tasks hl).2 (freed_tasks hm).2
  · obtain ⟨hlt, hlt', hc⟩ := h.known p c pid hm
    refine ⟨hlt, hlt', ?_⟩
    have zombies {p : TaskPtr} (hp : ∀ l, s.tasks p = some l → l.state = .zombie) (l : Task)
        (hl : (s.freed t).tasks p = some l) : l.state = .zombie := hp l (freed_tasks hl).2
    rcases hc with ⟨l, hl, hpid, hp⟩ | he | hr | hp
    · by_cases hct : c = t
      · rw [hct, hk] at hl
        cases hl
        rcases hz with hz | ⟨q, m, hq, hm, hmz⟩
        · exact Or.inr (Or.inl (Option.some.inj (hp.symm.trans hz)))
        · obtain rfl := Option.some.inj (hp.symm.trans hq)
          refine Or.inr (Or.inr (Or.inr (zombies fun l hl => ?_)))
          rw [hm] at hl
          cases hl
          exact hmz
      · exact Or.inl ⟨l, (freed_tasks_of_ne hct).trans hl, hpid, hp⟩
    · exact Or.inr (Or.inl he)
    · exact Or.inr (Or.inr (Or.inl hr))
    · exact Or.inr (Or.inr (Or.inr (zombies hp)))

theorem Named.reaped (h : s.Named) (hk : s.tasks t = some k) (hp : k.parent = some s.current)
    (hc : s.tasks s.current = some c) (hcr : c.state = .running) (hidle : s.current ≠ s.idle) :
    ((s.freed t).observe (.reaped s.current t k.pid k.retval)).Named := by
  refine ⟨fun u v l m hl hm => ?_, fun p c' pid hm => ?_, fun g p c' pid r b hg c₁ hs hn => ?_⟩
  · exact h.distinct u v l m (freed_tasks hl).2 (freed_tasks hm).2
  · obtain ⟨hlt, hlt', hold⟩ := h.known p c' pid ((List.mem_cons.mp hm).resolve_left nofun)
    refine ⟨hlt, hlt', ?_⟩
    rcases hold with ⟨l, hl, hpid, hpar⟩ | he | ⟨pid', r, hr⟩ | hz
    · by_cases hct : c' = t
      · rw [hct, hk] at hl
        cases hl
        obtain rfl := Option.some.inj (hp.symm.trans hpar)
        exact Or.inr (Or.inr (Or.inl ⟨k.pid, k.retval, hct ▸ List.mem_cons_self⟩))
      · exact Or.inl ⟨l, (freed_tasks_of_ne hct).trans hl, hpid, hpar⟩
    · exact Or.inr (Or.inl he)
    · exact Or.inr (Or.inr (Or.inl ⟨pid', r, List.mem_cons_of_mem _ hr⟩))
    · exact Or.inr (Or.inr (Or.inr fun l hl => hz l (freed_tasks hl).2))
  · cases g with
    | nil =>
      obtain ⟨he, rfl⟩ := List.cons.inj hg
      cases he
      rcases (h.known s.current c₁ k.pid hs).2.2 with ⟨l, hl, hpid, _⟩ | he | ⟨pid', r, hr⟩ | hz
      · exact h.distinct t c₁ k l hk hl hpid.symm
      · exact absurd he hidle
      · exact absurd hr (hn pid' r)
      · cases (hz c hc).symm.trans hcr
    | cons o g => exact h.reports g p c' pid r b (List.cons.inj hg).2 c₁ hs hn

theorem Named.born {pid : Nat} {a : StartArgs} (h : s.Named) (hi : Inv s)
    (hnew : ∀ t, t < s.fresh → ∀ k, s.tasks t = some k → k.pid ≠ pid) : (s.born pid a).Named := by
  have other {t : TaskPtr} {k : Task} (hk : s.tasks t = some k) : k.pid ≠ pid := by
    refine hnew t (Nat.lt_of_not_le fun hle => ?_) k hk
    rw [hi.fresh t hle] at hk
    cases hk
  refine ⟨fun u v l m hl hm hp => ?_, fun p c pid' hm => ?_, h.reports⟩
  · rcases born_tasks hl with ⟨rfl, rfl⟩ | ⟨_, hl⟩
    · rcases born_tasks hm with ⟨rfl, rfl⟩ | ⟨_, hm⟩
      · rfl
      · exact absurd hp.symm (other hm)
    · rcases born_tasks hm with ⟨rfl, rfl⟩ | ⟨_, hm⟩
      · exact absurd hp (other hl)
      · exact h.distinct u v l m hl hm hp
  · obtain ⟨hlt, hlt', hc⟩ := h.known p c pid' hm
    refine ⟨Nat.lt_succ_of_lt hlt, Nat.lt_succ_of_lt hlt', ?_⟩
    rcases hc with ⟨l, hl, hpid, hp⟩ | he | hr | hz
    · exact Or.inl ⟨l, (born_tasks_of_ne (Nat.ne_of_lt hlt')).trans hl, hpid, hp⟩
    · exact Or.inr (Or.inl he)
    · exact Or.inr (Or.inr (Or.inl hr))
    · exact Or.inr (Or.inr (Or.inr fun l hl =>
        hz l ((born_tasks_of_ne (Nat.ne_of_lt hlt)).symm.trans hl)))

theorem Effect.named (e : Effect T D M K PicksNew s s') (hi : Inv s) (h : s.Named) : s'.Named := by
  have f := e.follows hi
  cases e.turnover hi with
  | none hk hf hidle _ ht ho => exact h.same hi f hk hidle ht ho
  | born hc hpid ha hB => exact h.born hi (hB ha _ hpid)
  | freed hk _ hz => exact h.freed hk hz
  | reaped hk _ hp hc hr hidle => exact h.reaped hk hp hc hr hidle

theorem Switch.named (e : Switch s s') (hi : Inv s) (h : s.Named) : s'.Named := by
  obtain ⟨hk, _, _, ht, _, hidle⟩ := e.turnover
  exact h.same (O := []) hi e.follows hk hidle ht (by simp)

theorem Stepped.named (st : Stepped A T D K R L PicksNew s s') (h : Sound A D K s) (hn : s.Named) :
    s'.Named :=
  st.keeps h.inv hn (fun _ _ hi hp e => e.named hi hp) fun _ _ hi hp e => e.named hi hp

/-- Idle only calls `start`, which never picks the pid of a task that is still there. -/
def StartsNew (s : State) (e : Event) : Prop :=
  s.IdleStarts e ∧ match e with
    | .call (.start a) => s.PicksNew a
    | _ => True

theorem StartsNew.allows (h : StartsNew s e) :
    Allows False False False False False False PicksNew s e :=
  ⟨h.1, nofun, nofun, nofun, nofun, nofun, nofun, fun a he => by
    subst he
    exact h.2⟩

/-- What a parent can rely on when it waits for a pid that `start` returned to it. -/
structure PidsName (s : State) : Prop where
  distinct : ∀ t u k l, s.tasks t = some k → s.tasks u = some l → k.pid = l.pid → t = u
  reported : ∀ f p c c' pid r b, s.trace = f ++ .reaped p c' pid r :: b →
    .started p c pid ∈ b → (∀ pid' r', .reaped p c pid' r' ∉ b) → c' = c ∧ .exited c r ∈ b
  waits : ∀ k s' c pid b, s.ctl = .resume → s.tasks s.current = some k →
    ((∃ q, k.kont = .waitAnyChild q) ∨ ∃ c q, k.kont = .waitSpecificChild c q) →
    step .kernel s = .ok s' → s'.ctl = .user → s'.trace = .returned s.current (pid : Nat) :: b →
    .started s.current c pid ∈ s.trace → (∀ pid' r', .reaped s.current c pid' r' ∉ s.trace) →
    ∃ r, .exited c r ∈ s.trace ∧ s'.trace = .returned s.current pid :: .reaped s.current c pid r :: s.trace

theorem Named.reported (h : s.Named) (hl : s.Ledger) {f b : List Obs} {p c c' : TaskPtr} {pid : Nat}
    (ht : s.trace = f ++ .reaped p c' pid r :: b) (hs : .started p c pid ∈ b)
    (hn : ∀ pid' r', .reaped p c pid' r' ∉ b) : c' = c ∧ .exited c r ∈ b := by
  have hc : c' = c := h.reports f p c' pid r b ht c hs hn
  exact ⟨hc, hc ▸ (hl.reports f p c' pid r b ht).1⟩

/-- In every run in which `start` picks no pid that is still in use a pid names one process. -/
theorem pid_names_one (h : Run StartsNew s) : s.PidsName := by
  have main : Sound False False False s ∧ s.Named ∧ s.Ledger := by
    refine h.invariant (I := fun s => Sound False False False s ∧ s.Named ∧ s.Ledger) ?_
      fun s t ⟨hs, hn, hl⟩ ⟨e, he, hr⟩ => ?_
    · rintro _ rfl
      exact ⟨boot_sound, boot_named, boot_ledger⟩
    · have st := (step_spec hs (StartsNew.allows he)).elim hr
      exact ⟨st.sound hs, st.named hs hn, st.ledger hs hl⟩
  obtain ⟨hs, hn, hl⟩ := main
  refine ⟨hn.distinct, fun f p c c' pid r b ht hst hno => hn.reported hl ht hst hno,
    fun k s' c pid b hc hk hkont hr hu ht hst hno => ?_⟩
  have st := (step_spec hs (e := .kernel) (StartsNew.allows ⟨trivial, trivial⟩)).elim hr
  cases wait_step hs hc hk hkont hr with
  | blocked hsched _ _ _ _ =>
    rw [hsched] at hu
    cases hu
  | alone _ _ htr =>
    rw [htr] at ht
    cases (List.cons.inj ht).1
  | @reaped c' l _ hl' _ _ _ _ htr =>
    have hpid : l.pid = pid := by
      rw [htr] at ht
      injection (List.cons.inj ht).1 with _ he
      exact Int.ofNat.inj he
    rw [hpid] at htr
    obtain ⟨rfl, hx⟩ := (st.named hs hn).reported (st.ledger hs hl) (f := [_]) htr hst hno
    exact ⟨l.retval, hx, htr⟩

section Decide

instance {a : StartArgs} : Decidable a.Passes := inferInstanceAs (Decidable (_ ∧ _))

instance {a : StartArgs} : Decidable (s.PicksNew a) := by
  unfold PicksNew
  infer_instance

instance : Decidable (StartsNew s e) := by
  unfold StartsNew
  split <;> infer_instance

end Decide

/-- Two children under two pids, of which the younger is waited for. -/
theorem pid_names_one_two : ∃ s : State, .reaped 1 3 3 7 ∈ s.trace ∧ .started 1 3 3 ∈ s.trace ∧
    s.PidsName := by
  have hrun : Ends (exec (admitted StartsNew) [.call (.start (anApp 3)), .kernel,
      .call (.start (anApp 2)), .kernel, .call (.start (anApp 2)), .kernel,
      .call (.waitpid 3 .mapped), .kernel, .kernel,
      .call (.exit 5), .kernel, .kernel, .kernel, .call (.exit 7), .kernel, .kernel] boot) fun s =>
      .reaped 1 3 3 7 ∈ s.trace ∧ .started 1 3 3 ∈ s.trace := by
    decide +kernel
  obtain ⟨s, hs, hm, hm'⟩ := hrun.elim
  exact ⟨s, hm, hm', pid_names_one (Run.replayed hs)⟩

/-- The pid of a zombie goes to the next child, and who waits for that child gets the status of
the zombie. -/
theorem zombie_pid_reused : ∃ s s' : State,
    exec (admitted IdleStarts) [.call (.start (anApp 3)), .kernel, .call (.start (anApp 2)),
      .kernel, .call (.kill 2), .call (.start (anApp 2)), .kernel] boot = .ok s ∧
    (s.tasks 2).map Task.pid = some 2 ∧ (s.tasks 3).map Task.pid = some 2 ∧ ¬ s.PidsName ∧
    exec (admitted IdleStarts) [.call (.waitpid 2 .mapped), .kernel] s = .ok s' ∧
    .reaped 1 2 2 0 ∈ s'.trace ∧ .started 1 3 2 ∈ s.trace ∧ ¬ s'.PidsName := by
  have hrun : Ends (exec (admitted IdleStarts) [.call (.start (anApp 3)), .kernel,
      .call (.start (anApp 2)), .kernel, .call (.kill 2), .call (.start (anApp 2)), .kernel] boot)
      fun s => (s.tasks 2).map Task.pid = some 2 ∧ (s.tasks 3).map Task.pid = some 2 ∧
        s.trace = [.returned 1 2, .started 1 3 2, .returned 1 0, .exited 2 0, .returned 1 2,
          .started 1 2 2] ∧
        Ends (exec (admitted IdleStarts) [.call (.waitpid 2 .mapped), .kernel] s) fun s' =>
          s'.trace = .returned 1 2 :: .reaped 1 2 2 0 :: s.trace := by
    decide +kernel
  obtain ⟨s, hs, h2, h3, htrace, hend⟩ := hrun.elim
  obtain ⟨s', hs', ht⟩ := hend.elim
  have hstart : .started 1 3 2 ∈ s.trace := by simp [htrace]
  refine ⟨s, s', hs, h2, h3, fun hp => ?_, hs', ht ▸ by simp, hstart, fun hp => ?_⟩
  · obtain ⟨k, hk, hpk⟩ := Option.map_eq_some_iff.mp h2
    obtain ⟨l, hl, hpl⟩ := Option.map_eq_some_iff.mp h3
    cases hp.distinct 2 3 k l hk hl (hpk.trans hpl.symm)
  · have hn (pid' : Nat) (r' : Int) : .reaped 1 3 pid' r' ∉ s.trace := by simp [htrace]
    cases (hp.reported [_] 1 3 2 2 0 s.trace ht hstart hn).1

end State
end DominOS.Process
