import DominOS.ProcessSteps

/-! Runs of the kernel: every task is in the list of its state, and no pointer to a
freed task is followed. -/
namespace DominOS.Process
open IntrusiveLists Fallible Relation Runs
namespace State
variable {s s' : State} {mem : Bool} {t u p : TaskPtr} {k l : Task} {e : Event} {A T D K R : Prop}
  {P : State → Event → Prop} {B : State → StartArgs → Prop}

def Step (P : State → Event → Prop) (s s' : State) : Prop := ∃ e, P s e ∧ step e s = .ok s'

abbrev Run (P : State → Event → Prop) : State → Prop := Reachable (· = boot) (Step P)

/-- msg.c gets memory where a `preceive` lets a sender in. -/
def Granted (s : State) (e : Event) (mem : Bool) : Prop := mem = false → ¬ s.LetsIn e

instance : Decidable (s.Granted e mem) := inferInstanceAs (Decidable (_ → _))

/-- A step that `P` admits, in which msg.c may be refused memory, but not where it is `Granted`. -/
def StepWith (P : State → Event → Prop) (s s' : State) : Prop :=
  ∃ e mem, P s e ∧ s.Granted e mem ∧ stepWith mem e s = .ok s'

abbrev RunWith (P : State → Event → Prop) : State → Prop := Reachable (· = boot) (StepWith P)

theorem Step.granted (h : Step P s s') : StepWith P s s' := by
  obtain ⟨e, he, hr⟩ := h
  exact ⟨e, true, he, nofun, hr⟩

theorem Run.granted (h : Run P s) : RunWith P s := h.mono fun _ _ => Step.granted

theorem RunWith.sound (h : RunWith P s) (hP : ∀ s e, P s e → Allows A T D K R L B s e) :
    Sound A D K s :=
  Reachable.invariant h (by rintro _ rfl; exact boot_sound) fun _ _ hs hstep => by
    obtain ⟨e, mem, he, hmem, hr⟩ := hstep
    exact stepWith_sound hs (hP _ e he) hmem hr

theorem Run.sound (h : Run P s) (hP : ∀ s e, P s e → Allows A T D K R L B s e) : Sound A D K s :=
  h.granted.sound hP

def admitted (P : State → Event → Prop) [∀ s e, Decidable (P s e)] (e : Event) (s : State) :
    Except Fault State :=
  if P s e then step e s else .error .disabled

theorem admitted_step [∀ s e, Decidable (P s e)] (h : admitted P e s = .ok s') : Step P s s' := by
  unfold admitted at h
  split at h
  · rename_i hP
    exact ⟨e, hP, h⟩
  · cases h

theorem Run.replayed {es : List Event} [∀ s e, Decidable (P s e)]
    (h : exec (admitted P) es boot = .ok s) : Run P s := by
  have hboot : Run P boot := Reachable.start rfl
  exact Reachable.exec hboot (fun _ _ _ ht => admitted_step ht) h

def answered (e : Event × Bool) (s : State) : Except Fault State := stepWith e.2 e.1 s

def granted (P : State → Event → Prop) [∀ s e, Decidable (P s e)] (e : Event × Bool) (s : State) :
    Except Fault State :=
  if P s e.1 ∧ s.Granted e.1 e.2 then answered e s else .error .disabled

theorem granted_step {e : Event × Bool} [∀ s e, Decidable (P s e)] (h : granted P e s = .ok s') :
    StepWith P s s' := by
  unfold granted at h
  split at h
  · rename_i hP
    exact ⟨e.1, e.2, hP.1, hP.2, h⟩
  · cases h

theorem RunWith.replayed {es : List (Event × Bool)} [∀ s e, Decidable (P s e)]
    (h : exec (granted P) es boot = .ok s) : RunWith P s := by
  have hboot : RunWith P boot := Reachable.start rfl
  exact Reachable.exec hboot (fun _ _ _ ht => granted_step ht) h

theorem IdleStarts.allows (h : s.IdleStarts e) :
    Allows False False False False False False AnyStart s e :=
  ⟨h, nofun, nofun, nofun, nofun, nofun, nofun, fun _ _ => trivial⟩

theorem Run.soundIdle (h : Run IdleStarts s) : Sound False False False s :=
  h.sound fun _ _ he => he.allows

theorem step_user (h : step e s = .ok s') (he : e ≠ .kernel) : s.ctl = .user := by
  unfold step stepWith at h
  split at h
  · assumption
  · assumption
  · exact absurd rfl he
  · exact absurd rfl he
  · cases h

/-- Idle only calls `start`, whoever waits for a time waits for one that is to come, and the
queue that a call names is one of the table. -/
structure Future (s : State) (e : Event) : Prop where
  idle : s.IdleStarts e
  clock : s.SleepsOn e
  queue : e.InTable

theorem future_iff : Future s e ↔ s.IdleStarts e ∧ s.SleepsOn e ∧ e.InTable :=
  ⟨fun h => ⟨h.idle, h.clock, h.queue⟩, fun h => ⟨h.1, h.2.1, h.2.2⟩⟩

instance : Decidable (Future s e) := decidable_of_iff _ future_iff.symm

theorem Future.allows (h : Future s e) : Allows True False False False False False AnyStart s e :=
  ⟨h.idle, fun _ => h.clock, nofun, nofun, nofun, nofun, nofun, fun _ _ => trivial⟩

/-- A task is in exactly the list of its state. -/
def InItsList (s : State) (t : TaskPtr) (k : Task) : Prop :=
  ∃ hd, hd.state = k.state ∧ hd.Used s.mqueues ∧ ∀ h, t ∈ s.queues.members h ↔ h = hd

theorem Home.inItsList (hh : s.Home t k) (hr : k.state ≠ .running) : s.InItsList t k := by
  obtain ⟨hd, hl, hs, hu⟩ := hh.linked hr
  refine ⟨hd, hs, hu, fun h => ?_⟩
  rw [s.queues.mem_iff, hl]
  exact ⟨fun he => (Option.some.inj he).symm, fun he => by rw [he]⟩

/-- No assertion of a list fails, and in user mode the current task runs, linked nowhere, and
every other task is in the list of its state. -/
theorem lists_match_states (h : RunWith Future s) :
    (∀ e mem, Future s e → s.Granted e mem → stepWith mem e s ≠ .error .assertion) ∧
      (s.ctl = .user →
        (∃ k, s.tasks s.current = some k ∧ k.state = .running ∧
          ∀ hd, s.current ∉ s.queues.members hd) ∧
        ∀ t k, s.tasks t = some k → t ≠ s.current → k.state ≠ .running ∧ s.InItsList t k) := by
  have hs : Sound True False False s := h.sound fun _ _ he => he.allows
  refine ⟨fun e mem he hmem hbad => ?_, fun hu => ⟨?_, fun t k hk ht => ?_⟩⟩
  · exact (stepWith_spec hs he.allows hmem).not_bad hbad trivial
  · obtain ⟨k, hk, hr⟩ := hs.running (by rw [hu]; decide)
    exact ⟨k, hk, hr, fun hd => Links.not_mem (hs.inv.unlinked_current hk hr) hd⟩
  · have hr : k.state ≠ .running := fun hr => ht ((hs.inv.home t k hk).running hr).1
    exact ⟨hr, (hs.inv.home t k hk).inItsList hr⟩

def anApp (prio : Int) : StartArgs := ⟨true, 4096, 1000, prio, true, true⟩

def given (es : List Event) : List (Event × Bool) := es.map fun e => (e, true)

/-- One process waits for its child, which waits to send, and another sleeps; one has exited
and been reaped, and one that got no memory for a queue is a zombie. -/
theorem lists_match_states_five : ∃ s : State, s.ctl = .user ∧ s.current = 0 ∧
    s.queues.members .interruptedChild = [1] ∧ s.queues.members (.waitingSenders 0) = [2] ∧
    s.queues.members .sleeping = [3] ∧ s.tasks 4 = none ∧ s.queues.members .zombie = [5] ∧
    (∀ e mem, Future s e → s.Granted e mem → stepWith mem e s ≠ .error .assertion) ∧
    (s.ctl = .user →
      (∃ k, s.tasks s.current = some k ∧ k.state = .running ∧
        ∀ hd, s.current ∉ s.queues.members hd) ∧
      ∀ t k, s.tasks t = some k → t ≠ s.current → k.state ≠ .running ∧ s.InItsList t k) := by
  have hrun : Ends (exec (granted Future) (given [.call (.start (anApp 5)), .kernel,
      .call (.pcreate 1), .call (.start (anApp 6)), .kernel, .call (.psend 0 7),
      .call (.psend 0 8), .kernel, .kernel, .call (.start (anApp 7)), .kernel,
      .call (.waitClock 9), .kernel, .kernel, .call (.start (anApp 8)), .kernel, .call (.exit 3),
      .kernel, .kernel, .call (.waitpid 4 .null), .kernel, .call (.start (anApp 9)), .kernel] ++
      (.call (.pcreate 1), false) :: given [.kernel, .kernel, .call (.waitpid 2 .null), .kernel,
      .kernel, .kernel, .tick, .kernel, .kernel]) boot) fun s =>
      s.ctl = .user ∧ s.current = 0 ∧ s.queues.members .interruptedChild = [1] ∧
      s.queues.members (.waitingSenders 0) = [2] ∧ s.queues.members .sleeping = [3] ∧
      (s.tasks 4).isNone ∧ s.queues.members .zombie = [5] := by
    decide +kernel
  obtain ⟨s, hs, hu, hc, hchild, hsend, hsleep, hfree, hz⟩ := hrun.elim
  exact ⟨s, hu, hc, hchild, hsend, hsleep, Option.isNone_iff_eq_none.mp hfree, hz,
    lists_match_states (RunWith.replayed hs)⟩

/-- A task that waits for a time that is past is woken by its own `schedule`, while it is
linked among the sleepers; and a sender that `preceive` took from its list, and has no memory
for the message of, is in no list when its priority is changed. -/
theorem list_assertions_fail :
    exec step [.call (.start (anApp 2)), .kernel, .call (.waitClock 0), .kernel] boot =
      .error .assertion ∧
    exec answered (given [.call (.start (anApp 2)), .kernel,
      .call (.pcreate 1), .call (.start (anApp 3)), .kernel, .call (.psend 0 7),
      .call (.psend 0 8), .kernel, .kernel, .call (.start (anApp 3)), .kernel] ++
      (.call (.preceive 0 .mapped), false) :: given [.kernel, .kernel, .call (.chprio 2 4)]) boot =
      .error .assertion := by
  constructor
  · decide +kernel
  · decide +kernel

/-- Idle only calls `start`, and no task is freed before its children. -/
def Upward (s : State) (e : Event) : Prop := s.IdleStarts e ∧ s.ReapsUpward e

theorem Upward.allows (h : Upward s e) : Allows False False True False False False AnyStart s e :=
  ⟨h.1, nofun, nofun, fun _ => h.2, nofun, nofun, nofun, fun _ _ => trivial⟩

/-- Parents and siblings of unfreed tasks are unfreed, and a freed task is accessed by nobody
but the parent that `start` returns its pid to. -/
theorem no_dangling_pointers (h : Run Upward s) :
    (∀ t k, s.tasks t = some k → t ≠ s.idle → ∃ p l, k.parent = some p ∧ s.tasks p = some l) ∧
      (∀ t p, t ∈ s.siblings.members p → (s.tasks t).isSome ∧ (s.tasks p).isSome) ∧
      ∀ e, Upward s e → step e s ≠ .error .dangling := by
  have hs : Sound False True False s := Run.sound h fun _ _ he => he.allows
  have hd := hs.parents trivial
  refine ⟨fun t k hk ht => ?_, fun t p hm => ?_, fun e he hbad => ?_⟩
  · cases hp : k.parent with
    | none => exact absurd (hs.inv.parent t k hk hp) ht
    | some p =>
      obtain ⟨l, hl⟩ := hd t k p hk hp
      exact ⟨p, l, rfl, hl⟩
  · obtain ⟨k, hk, hp⟩ := (hs.inv.children t p).mp (Links.link_of_mem hm)
    obtain ⟨l, hl⟩ := hd t k p hk hp
    simp [hk, hl]
  · exact (step_spec hs he.allows).not_bad hbad trivial

/-- Idle only calls `start`, and the kernel runs on only while no zombie has children. -/
def Leafy (s : State) (e : Event) : Prop :=
  s.IdleStarts e ∧
    match e with
    | .kernel => ∀ t ∈ s.queues.members .zombie, s.siblings.members t = []
    | _ => True

theorem leafy_iff : Leafy s e ↔ s.IdleStarts e ∧ ((match e with | .kernel => true | _ => false) = true →
    ∀ t ∈ s.queues.members .zombie, s.siblings.members t = []) := by
  cases e <;> simp [Leafy]

instance : Decidable (Leafy s e) := decidable_of_iff _ leafy_iff.symm

theorem Inv.childless (hi : Inv s) (h : s.siblings.members t = []) : s.Childless t := by
  intro c k hk hp
  have hm : c ∈ s.siblings.members t :=
    (s.siblings.mem_iff c t).mpr ((hi.children c t).mpr ⟨k, hk, hp⟩)
  rw [h] at hm
  cases hm

theorem Inv.zombie_member (hi : Inv s) (hk : s.tasks t = some k) (hkz : k.state = .zombie) :
    t ∈ s.queues.members .zombie := by
  obtain ⟨hd, hl, hs, _⟩ := (hi.home t k hk).linked (by rw [hkz]; decide)
  rw [hkz] at hs
  cases hd <;> cases hs
  exact (s.queues.mem_iff _ _).mpr hl

theorem Leafy.upward (h : Leafy s e) (hi : Inv s) : Upward s e := by
  refine ⟨h.1, ?_⟩
  cases e with
  | tick => trivial
  | call c => trivial
  | kernel =>
    have hleaf : ∀ t ∈ s.queues.members .zombie, s.Childless t := fun t ht => hi.childless (h.2 t ht)
    refine ⟨fun _ front t rest k hm hk _ c l hl hp => ?_, fun _ k c hk hcase => ?_⟩
    · exact absurd hp (hleaf t (by rw [hm]; simp) c l hl)
    · rcases hcase with ⟨r, _, hf⟩ | ⟨r, _, hz⟩
      · have hlist : ∀ t ∈ s.siblings.members s.current, ∃ k, s.tasks t = some k := fun t ht =>
          ((hi.children t _).mp (Links.link_of_mem ht)).imp fun _ h => h.1
        obtain ⟨o, ho, hfound, _⟩ := findZombie_spec hlist
        rw [hf] at ho
        obtain ⟨_, l, hl, hlz⟩ := hfound c (Except.ok.inj ho).symm
        exact hleaf c (hi.zombie_member hl hlz)
      · unfold isZombie State.task at hz
        cases hl : s.tasks c with
        | none => rw [hl] at hz; cases hz
        | some l =>
          rw [hl, ok_bind] at hz
          exact hleaf c (hi.zombie_member hl (by simpa using hz))

theorem Run.upward (h : Run Leafy s) : Run Upward s := by
  refine (h.invariant (I := fun s => Sound False False False s ∧ Run Upward s) ?_ ?_).2
  · rintro _ rfl
    exact ⟨boot_sound, Reachable.start rfl⟩
  · intro s t ⟨hs, hr⟩ ⟨e, he, hstep⟩
    exact ⟨step_sound hs (IdleStarts.allows he.1) hstep, hr.next ⟨e, he.upward hs.inv, hstep⟩⟩

/-- A process has a child that lives and one that exited, which it has reaped; and another child
of idle, which was killed, has been reaped as well. -/
theorem no_dangling_pointers_reaped : ∃ s : State, s.siblings.members 0 = [1] ∧
    s.siblings.members 1 = [3] ∧ s.tasks 2 = none ∧ s.tasks 4 = none ∧
    (∀ t k, s.tasks t = some k → t ≠ s.idle →
      ∃ p l, k.parent = some p ∧ s.tasks p = some l) ∧
    (∀ t p, t ∈ s.siblings.members p → (s.tasks t).isSome ∧ (s.tasks p).isSome) ∧
    ∀ e, Upward s e → step e s ≠ .error .dangling := by
  have hrun : Ends (exec (admitted Leafy) [.call (.start (anApp 5)), .kernel,
      .call (.start (anApp 6)), .kernel, .call (.exit 7), .kernel, .kernel,
      .call (.waitpid 2 .null), .kernel, .call (.start (anApp 6)), .kernel, .call (.waitClock 9),
      .kernel, .kernel, .call (.waitpid (-1) .null), .kernel, .kernel, .kernel,
      .call (.start (anApp 5)), .kernel, .call (.exit 7), .kernel, .kernel, .tick, .kernel,
      .kernel] boot) fun s =>
      s.siblings.members 0 = [1] ∧ s.siblings.members 1 = [3] ∧ (s.tasks 2).isNone ∧
      (s.tasks 4).isNone := by
    decide +kernel
  obtain ⟨s, hs, h0, h1, h2, h4⟩ := hrun.elim
  exact ⟨s, h0, h1, Option.isNone_iff_eq_none.mp h2, Option.isNone_iff_eq_none.mp h4,
    no_dangling_pointers (Run.replayed hs).upward⟩

/-- The parent of a zombie is killed and reaped by its own parent. -/
theorem killed_parent_dangles :
    exec step [.call (.start (anApp 2)), .kernel, .call (.start (anApp 2)), .kernel,
      .call (.start (anApp 4)), .kernel, .call (.exit 0), .kernel, .kernel, .call (.kill 2),
      .call (.waitpid 2 .null), .kernel, .tick, .kernel] boot = .error .dangling := by
  decide +kernel

end State
end DominOS.Process
