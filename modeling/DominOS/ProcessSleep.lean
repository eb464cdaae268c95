import DominOS.ProcessAside
import DominOS.ProcessTurns

/-! Sleepers are woken on time: no pass over them misses one that is due, or wakes another. -/
namespace DominOS.Process
open IntrusiveLists Fallible Relation Runs
namespace State
variable {s s' : State} {t u p : TaskPtr} {k : Task} {e : Event} {c w : Nat} {done rest : List TaskPtr}

def Due (s : State) (t : TaskPtr) : Prop :=
  t ∈ s.queues.members .sleeping ∧ ∃ k, s.tasks t = some k ∧ k.wakeTime ≤ s.totalTicks

section Pass

structure Passing (s : State) (done rest : List TaskPtr) (s' : State) : Prop where
  inv : Inv s'
  current : s'.current = s.current
  clock : s'.totalTicks = s.totalTicks
  nodup : rest.Nodup
  left : ∀ t ∈ rest, t ∉ done ∧ t ∈ s'.queues.members .sleeping ∧ s'.tasks t = s.tasks t
  ready : ∀ t, t ∈ s'.queues.members .ready ↔ t ∈ s.queues.members .ready ∨ t ∈ done ∧ s.Due t
  sleeping : ∀ t, t ∈ s'.queues.members .sleeping ↔
    t ∈ s.queues.members .sleeping ∧ ¬ (t ∈ done ∧ s.Due t)
  tasks : ∀ t, ¬ s.Due t → s'.tasks t = s.tasks t

theorem Passing.start (hi : Inv s) : Passing s [] (s.queues.members .sleeping) s where
  inv := hi
  current := rfl
  clock := rfl
  nodup := s.queues.nodup _
  left t ht := ⟨by simp, ht, rfl⟩
  ready t := by simp
  sleeping t := by simp
  tasks _ _ := rfl

theorem Passing.later (h : Passing s done (t :: rest) s') (hu : u ∈ rest) :
    u ≠ t ∧ u ∉ done ++ [t] ∧ u ∈ s'.queues.members .sleeping ∧ s'.tasks u = s.tasks u := by
  obtain ⟨hdone, hmem, hsame⟩ := h.left u (List.mem_cons_of_mem t hu)
  have hne : u ≠ t := fun he => (List.nodup_cons.mp h.nodup).1 (he ▸ hu)
  exact ⟨hne, by simp [hdone, hne], hmem, hsame⟩

theorem Passing.early (h : Passing s done (t :: rest) s') (hd : ¬ s.Due t) :
    Passing s (done ++ [t]) rest s' := by
  have hgrow (u : TaskPtr) : u ∈ done ++ [t] ∧ s.Due u ↔ u ∈ done ∧ s.Due u := by
    by_cases he : u = t
    · simp [he, hd]
    · simp [he]
  refine ⟨h.inv, h.current, h.clock, (List.nodup_cons.mp h.nodup).2, fun u hu => (h.later hu).2,
    fun u => ?_, fun u => ?_, h.tasks⟩
  · rw [hgrow, h.ready]
  · rw [hgrow, h.sleeping]

theorem Passing.due (h : Passing s done (t :: rest) s') (hk : s'.tasks t = some k)
    (hs : k.state = .sleeping) (hc : t ≠ s'.current) (hd : s.Due t) :
    Passing s (done ++ [t]) rest (s'.woken t { k with wakeTime := 0 }) := by
  obtain ⟨c, hcur, _⟩ := h.inv.current
  have hwake : Quiet False False False False AnyStart s' (s'.woken t { k with wakeTime := 0 }) :=
    .wake hk hc (by rw [hs]; decide) (by rw [hs]; decide) hcur nofun nofun
  have hready (u : TaskPtr) : u ∈ (s'.woken t { k with wakeTime := 0 }).queues.members .ready ↔
      u = t ∨ u ∈ s'.queues.members .ready := Links.mem_move
  have herase : (s'.woken t { k with wakeTime := 0 }).queues.members .sleeping =
      (s'.queues.members .sleeping).erase t := Links.members_move_of_ne (by decide)
  have hsleeping (u : TaskPtr) : u ∈ (s'.woken t { k with wakeTime := 0 }).queues.members .sleeping ↔
      u ≠ t ∧ u ∈ s'.queues.members .sleeping := by
    rw [herase]
    exact (s'.queues.nodup _).mem_erase_iff
  refine ⟨hwake.inv h.inv, h.current, h.clock, (List.nodup_cons.mp h.nodup).2, fun u hu => ?_,
    fun u => ?_, fun u => ?_, fun u hu => ?_⟩
  · obtain ⟨hne, hdone, hmem, hsame⟩ := h.later hu
    exact ⟨hdone, (hsleeping u).mpr ⟨hne, hmem⟩, (woken_of_ne hne).trans hsame⟩
  · rw [hready, h.ready]
    by_cases he : u = t
    · simp [he, hd]
    · simp [he]
  · rw [hsleeping, h.sleeping]
    by_cases he : u = t
    · simp [he, hd]
    · simp [he]
  · have hne : u ≠ t := fun he => hu (he ▸ hd)
    exact (woken_of_ne hne).trans (h.tasks u hu)

theorem Passing.step (h : Passing s done (t :: rest) s') :
    Post (fun _ => s.Awake) (s'.wakeup t) (Passing s (done ++ [t]) rest) := by
  obtain ⟨_, hmem, hsame⟩ := h.left t (by simp)
  obtain ⟨k, hk, hs, _⟩ := h.inv.live hmem
  have hk₀ : s.tasks t = some k := hsame.symm.trans hk
  by_cases hw : k.wakeTime ≤ s.totalTicks
  · have hdue : s.Due t := ⟨((h.sleeping t).mp hmem).1, k, hk₀, hw⟩
    by_cases hc : t = s'.current
    · subst hc
      rw [wakeup_current h.inv hk hs (by rw [h.clock]; exact hw)]
      refine .error fun ha => Nat.not_le.mpr (ha k ?_ hs) hw
      rw [← h.current]
      exact hk₀
    · rw [wakeup_due h.inv hk hs hc (by rw [h.clock]; exact hw)]
      exact .ok (h.due hk hs hc hdue)
  · rw [wakeup_early hk (by rw [h.clock]; exact Nat.not_le.mp hw)]
    refine .ok (h.early ?_)
    rintro ⟨_, l, hl, hlw⟩
    rw [hk₀] at hl
    cases hl
    exact hw hlw

theorem tryWakeupTasks_pass (hi : Inv s) :
    Post (fun _ => s.Awake) s.tryWakeupTasks (Passing s (s.queues.members .sleeping) []) :=
  Post.foldlM (Passing s) (.start hi) fun _ _ _ _ h => h.step

/-- Those who were ready are, and those who were due, and nobody else; who was not due sleeps on. -/
theorem Passing.exact (h : Passing s (s.queues.members .sleeping) [] s') (t : TaskPtr) :
    (t ∈ s'.queues.members .ready ↔ t ∈ s.queues.members .ready ∨ s.Due t) ∧
      (t ∈ s'.queues.members .sleeping ↔ t ∈ s.queues.members .sleeping ∧ ¬ s.Due t) := by
  rw [h.ready, h.sleeping]
  have hdue : t ∈ s.queues.members .sleeping ∧ s.Due t ↔ s.Due t :=
    ⟨And.right, fun hd => ⟨hd.1, hd⟩⟩
  rw [hdue]
  exact ⟨Iff.rfl, Iff.rfl⟩

end Pass

section Schedule

theorem Sleeps.congr (h : Sleeps p w c s) (ht : s'.tasks p = s.tasks p)
    (hl : s'.queues.link p = s.queues.link p) (hc : s'.totalTicks = s.totalTicks) : Sleeps p w c s' := by
  refine ⟨?_, hl.trans h.link, hc.trans h.clock⟩
  rw [ht]
  exact h.task

theorem Sleeps.mem (h : Sleeps p w c s) : p ∈ s.queues.members .sleeping := Links.mem_of_link h.link

theorem Sleeps.due_iff (h : Sleeps p w c s) : s.Due p ↔ w ≤ c := by
  obtain ⟨k, hk, _, hw⟩ := h.task
  constructor
  · rintro ⟨_, l, hl, hlw⟩
    rw [hk] at hl
    cases hl
    rwa [hw, h.clock] at hlw
  · intro hle
    exact ⟨h.mem, k, hk, by rwa [hw, h.clock]⟩

theorem Sleeps.ne (h : Sleeps p w c s) (hk : s.tasks t = some k) (hs : k.state ≠ .sleeping) :
    p ≠ t := by
  obtain ⟨l, hl, hsl, _⟩ := h.task
  exact ne_of_state hl hk (by rw [hsl]; exact hs.symm)

theorem Sleeps.chosen (h : Sleeps p w c s) (hc : Chosen s s') : Sleeps p w c s' := by
  cases hc with
  | alone _ _ _ => exact h.congr rfl rfl rfl
  | keep _ _ _ _ _ => exact h.congr rfl rfl rfl
  | switch _ hk hr _ _ =>
    have hne := h.ne hk (by rw [hr]; decide)
    exact h.congr (setTask_tasks_of_ne hne) (Links.link_erase_of_ne hne) rfl
  | @preempt new k l _ hk hr hl hrun _ =>
    have hnew := h.ne hk (by rw [hr]; decide)
    have hcur := h.ne hl (by rw [hrun]; decide)
    have hwoken : Sleeps p w c (s.woken s.current l) :=
      h.congr (woken_of_ne hcur) (move_link_of_ne hcur) rfl
    exact hwoken.congr (setTask_tasks_of_ne hnew) (Links.link_erase_of_ne hnew) rfl

/-- `schedule` leaves a sleeper alone before its time, be it the current task or not. -/
theorem Sleeps.schedule (hi : Inv s) (h : Sleeps p w c s) (hlt : c < w) (hr : s.schedule = .ok s') :
    Sleeps p w c s' := by
  unfold State.schedule at hr
  obtain ⟨s₁, hpass, hr⟩ := bind_ok.mp hr
  obtain ⟨s₂, hreap, hchoose⟩ := bind_ok.mp hr
  have hp := (tryWakeupTasks_pass hi).elim hpass
  have hnd : ¬ s.Due p := fun hd => Nat.not_le.mpr hlt (h.due_iff.mp hd)
  have h₁ : Sleeps p w c s₁ := by
    refine h.congr (hp.tasks p hnd) ?_ hp.clock
    rw [h.link]
    exact Links.link_of_mem ((hp.exact p).2.mpr ⟨h.mem, hnd⟩)
  have hspec := (reapZombies_spec (A := False) (D := False) (K := False) (B := AnyStart) hp.inv
    nofun).elim hreap
  obtain ⟨hsame, hclock⟩ := reapZombies_same hreap
  have h₂ : Sleeps p w c s₂ := by
    obtain ⟨k, hk, hs, _⟩ := h₁.task
    have hz : k.state ≠ .zombie := by rw [hs]; decide
    refine h₁.congr ((hspec.others p k hk hz).trans hk.symm) ?_ hclock
    rw [h₁.link]
    refine Links.link_of_mem ?_
    rw [hsame.sleeping]
    exact h₁.mem
  exact h₂.chosen ((chooseTask_spec (A := False) (D := False) (hspec.quiets.inv hp.inv)).elim hchoose)

def clockAfter (c : Nat) : Event → Nat
  | .tick => (c + 1) % 2 ^ 32
  | _ => c

theorem Sleeps.step (hs : Sound False False False s) (h : Sleeps p w c s) (hlt : c < w)
    (hk : ¬ s.Kills p e) (hr : step e s = .ok s') : Sleeps p w (clockAfter c e) s' := by
  have aside (hc : s.ctl ≠ .sched) : Aside p w c s := by
    obtain ⟨l, hl, hrun⟩ := hs.running hc
    exact ⟨h, (h.ne hl (by rw [hrun]; decide)).symm⟩
  unfold State.step stepWith at hr
  split at hr
  · rename_i hc
    have ha := aside (by rw [hc]; decide)
    have htick : Aside p w ((c + 1) % 2 ^ 32) { s with totalTicks := (s.totalTicks + 1) % 2 ^ 32 } :=
      ⟨⟨ha.task, ha.link, by rw [← ha.clock]⟩, ha.other⟩
    exact (htick.goOn.elim hr).toSleeps
  · rename_i x hc
    have hf : s.fresh ≠ p := by
      intro he
      obtain ⟨l, hl, _⟩ := h.task
      rw [← he, hs.inv.fresh s.fresh (Nat.le_refl _)] at hl
      cases hl
    exact (((aside (by rw [hc]; decide)).handle hf hk).elim hr).toSleeps
  · exact h.schedule hs.inv hlt hr
  · rename_i hc
    exact ((aside (by rw [hc]; decide)).resume.elim hr).toSleeps
  · cases hr

end Schedule

section Run

/-- Idle only calls `start`, `p` is not killed, and its time has not come. -/
def LetsSleep (p : TaskPtr) (w : Nat) (s : State) (e : Event) : Prop :=
  s.IdleStarts e ∧ ¬ s.Kills p e ∧ s.totalTicks < w

/-- What holds while `p` sleeps, up to the tick at which its time has come. -/
structure Sleeping (p : TaskPtr) (w : Nat) (s : State) : Prop where
  sound : Sound False False False s
  sleeps : Sleeps p w s.totalTicks s
  le : s.totalTicks ≤ w
  due : s.totalTicks = w → s.ctl = .sched ∧ s.Running

theorem Sleeping.step (hw : w < 2 ^ 32) (h : Sleeping p w s) (hu : LetsSleep p w s e)
    (hr : step e s = .ok s') : Sleeping p w s' := by
  obtain ⟨hidle, hk, hlt⟩ := hu
  have hsleeps := h.sleeps.step h.sound hlt hk hr
  have hclock := hsleeps.clock
  refine ⟨step_sound h.sound hidle.allows hr, by rw [hclock]; exact hsleeps, ?_, ?_⟩
  · rw [hclock]
    cases e with
    | tick =>
      simp only [clockAfter]
      omega
    | _ => exact hlt.le
  · intro heq
    rw [hclock] at heq
    cases e with
    | tick =>
      have hc : s.ctl = .user := step_user hr nofun
      obtain ⟨_, _, hctl, hrun⟩ := tick_same hc hr
      exact ⟨hctl, hrun (h.sound.running (by rw [hc]; decide))⟩
    | _ => exact absurd heq (Nat.ne_of_lt hlt)

theorem waitClock_sleeps {clock : Nat} (hs : Sound False False False s)
    (hlt : s.totalTicks < clock % 2 ^ 32) (hidle : s.IdleStarts (.call (.waitClock clock)))
    (hr : State.step (.call (.waitClock clock)) s = .ok s') :
    Sleeping s.current (clock % 2 ^ 32) s' := by
  have hs' := step_sound hs hidle.allows hr
  have hu : s.ctl = .user := step_user hr nofun
  obtain ⟨k, hk, hrun, _⟩ := hs.serving hu
  unfold State.step stepWith at hr
  rw [hu] at hr
  have heq : s.waitClock clock = .ok s' := hr
  rw [waitClock_eq hs.inv hk hrun] at heq
  cases heq
  refine ⟨hs', ⟨⟨_, setTask_tasks_self, rfl, rfl⟩, Links.link_move_self, rfl⟩, hlt.le, fun hc => ?_⟩
  exact absurd hc (Nat.ne_of_lt hlt)

/-- Who waits for a time to come sleeps until the clock says it, whatever the others do short of
killing it, and the pass of that tick makes it ready; each pass readies those who are due. -/
theorem sleep_is_exact {s₀ s₁ : State} {clock : Nat} (h : Run IdleStarts s₀)
    (hlt : s₀.totalTicks < clock % 2 ^ 32) (hidle : s₀.IdleStarts (.call (.waitClock clock)))
    (hr : State.step (.call (.waitClock clock)) s₀ = .ok s₁) :
    (∀ s, Reachable (· = s₁) (Step (LetsSleep s₀.current (clock % 2 ^ 32))) s →
      s.totalTicks ≤ clock % 2 ^ 32 ∧ s₀.current ∈ s.queues.members .sleeping ∧
        (s.totalTicks = clock % 2 ^ 32 → s.ctl = .sched ∧ ∃ s', s.tryWakeupTasks = .ok s' ∧
          s₀.current ∈ s'.queues.members .ready ∧ s₀.current ∉ s'.queues.members .sleeping)) ∧
      ∀ s s', Run IdleStarts s → s.tryWakeupTasks = .ok s' → ∀ t,
        (t ∈ s'.queues.members .ready ↔ t ∈ s.queues.members .ready ∨ s.Due t) ∧
          (t ∈ s'.queues.members .sleeping ↔ t ∈ s.queues.members .sleeping ∧ ¬ s.Due t) := by
  have hs : Sound False False False s₀ := Run.soundIdle h
  have hw : clock % 2 ^ 32 < 2 ^ 32 := Nat.mod_lt _ (by decide)
  constructor
  · intro s hreach
    have hsl : Sleeping s₀.current (clock % 2 ^ 32) s := by
      refine hreach.invariant ?_ fun a b ha ⟨e, he, hab⟩ => ha.step hw he hab
      rintro _ rfl
      exact waitClock_sleeps hs hlt hidle hr
    refine ⟨hsl.le, hsl.sleeps.mem, fun heq => ?_⟩
    obtain ⟨hctl, c, hc, hrun⟩ := hsl.due heq
    refine ⟨hctl, ?_⟩
    have hawake : s.Awake := by
      intro k hk hsleep
      rw [hc] at hk
      cases hk
      rw [hrun] at hsleep
      cases hsleep
    have hpass := tryWakeupTasks_pass hsl.sound.inv
    cases hp : s.tryWakeupTasks with
    | error x => exact absurd hawake (hpass.not_bad hp)
    | ok s' =>
      obtain ⟨hready, hsleep⟩ := (hpass.elim hp).exact s₀.current
      have hdue : s.Due s₀.current := hsl.sleeps.due_iff.mpr heq.ge
      exact ⟨s', rfl, hready.mpr (Or.inr hdue), fun hm => (hsleep.mp hm).2 hdue⟩
  · intro s s' hrun hp t
    have hs : Sound False False False s := Run.soundIdle hrun
    exact ((tryWakeupTasks_pass hs.inv).elim hp).exact t

theorem kills_iff : s.Kills p e ↔
    (match e with | .call (.kill pid) => decide (s.pidToTask pid = some p) | _ => false) = true := by
  cases e with
  | call x => cases x <;> simp [Kills]
  | _ => simp [Kills]

instance : Decidable (s.Kills p e) := decidable_of_iff _ kills_iff.symm

instance : Decidable (LetsSleep p w s e) := inferInstanceAs (Decidable (_ ∧ _ ∧ _))

def oneSleeps : Except Fault (State × State × State) := do
  let s₀ ← exec (admitted IdleStarts) [.call (.start (anApp 2)), .kernel] boot
  let s₁ ← step (.call (.waitClock 1)) s₀
  let s ← exec (admitted (LetsSleep 1 1)) [.kernel, .kernel, .tick] s₁
  .ok (s₀, s₁, s)

theorem sleep_is_exact_one : ∃ s s' : State, s.totalTicks = 1 ∧ 1 ∈ s.queues.members .sleeping ∧
    s.tryWakeupTasks = .ok s' ∧ 1 ∈ s'.queues.members .ready := by
  have hrun : Ends oneSleeps fun x => x.1.current = 1 ∧ x.1.idle = 0 ∧ x.1.totalTicks = 0 ∧
      x.2.2.totalTicks = 1 := by
    decide +kernel
  obtain ⟨⟨s₀, s₁, s⟩, hs, hcur, hidle, hzero, hone⟩ := hrun.elim
  unfold oneSleeps at hs
  obtain ⟨_, h₀, hs⟩ := bind_ok.mp hs
  obtain ⟨_, h₁, hs⟩ := bind_ok.mp hs
  obtain ⟨_, h₂, hs⟩ := bind_ok.mp hs
  cases hs
  have hcur : s₀.current = 1 := hcur
  have hidle : s₀.idle = 0 := hidle
  have hzero : s₀.totalTicks = 0 := hzero
  have hone : s.totalTicks = 1 := hone
  have hlt : s₀.totalTicks < 1 % 2 ^ 32 := by simp [hzero]
  have hstarts : s₀.IdleStarts (.call (.waitClock 1)) := by simp [IdleStarts, hcur, hidle]
  have hexact := (sleep_is_exact (Run.replayed h₀) hlt hstarts h₁).1
  rw [hcur] at hexact
  have hreach : Reachable (· = s₁) (Step (LetsSleep 1 (1 % 2 ^ 32))) s :=
    Reachable.exec (Reachable.start rfl) (fun _ _ _ ht => admitted_step ht) h₂
  obtain ⟨_, hmem, hpass⟩ := hexact s hreach
  obtain ⟨_, s', hs', hready, _⟩ := hpass hone
  exact ⟨s, s', hone, hmem, hs', hready⟩

end Run
end State
end DominOS.Process
