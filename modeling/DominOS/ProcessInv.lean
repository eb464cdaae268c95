import DominOS.ProcessMachine

/-! The invariant of the process state: every task that has not been freed is
linked into the one list of its state, or runs. -/
namespace DominOS.Process
open IntrusiveLists Fallible

namespace Head

def state : Head → TaskState
  | ready => .ready
  | sleeping => .sleeping
  | zombie => .zombie
  | interruptedChild => .interruptedChild
  | waitingSenders _ | waitingReceivers _ => .interruptedMsg

def Used (mqueues : Nat → Option MQueue) : Head → Prop
  | waitingSenders id | waitingReceivers id => (mqueues id).isSome
  | _ => True

theorem state_ne_running (h : Head) : h.state ≠ .running := by cases h <;> simp [state]

theorem state_ne_startup (h : Head) : h.state ≠ .startup := by cases h <;> simp [state]

theorem eq_of_state {h h' : Head} (hs : h.state = h'.state) (hm : h'.state ≠ .interruptedMsg) :
    h = h' := by
  cases h <;> cases h' <;> simp_all [state]

end Head

namespace State
variable {s : State} {t u : TaskPtr} {k : Task} {h : Head} {o : Obs}

@[simp] theorem setTask_tasks_self : (s.setTask t k).tasks t = some k := by simp [setTask]

theorem setTask_tasks_of_ne (hu : u ≠ t) : (s.setTask t k).tasks u = s.tasks u := by
  simp [setTask, hu]

@[simp] theorem move_tasks : (s.move h t).tasks = s.tasks := rfl

@[simp] theorem observe_tasks : (s.observe o).tasks = s.tasks := rfl

theorem task_ok (hk : s.tasks t = some k) : s.task t = .ok k := by
  simp only [task, hk]

theorem task_some (h : s.task t = .ok k) : s.tasks t = some k := by
  unfold task at h
  split at h
  · rename_i hk
    cases h
    exact hk
  · cases h

theorem task_post (s : State) (t : TaskPtr) :
    Post (fun _ => False) (s.task t) fun k => s.tasks t = some k := by
  cases hk : s.task t with
  | error e => exact .error nofun
  | ok k => exact .ok (task_some hk)

theorem setTask_same (hk : s.tasks t = some k) : s.setTask t k = s := by
  simp only [setTask, ← hk, Function.update_eq_self]

theorem ne_of_state {l : Task} (hk : s.tasks t = some k) (hl : s.tasks u = some l)
    (h : k.state ≠ l.state) : t ≠ u := by
  rintro rfl
  rw [hk] at hl
  cases hl
  exact h rfl

theorem setTask_setTask {l : Task} : (s.setTask t k).setTask t l = s.setTask t l := by
  simp [setTask]

/-- Where the link of a live task leads. -/
def Home (s : State) (t : TaskPtr) (k : Task) : Prop :=
  match s.queues.link t with
  | none => k.state = .running ∧ t = s.current
  | some h => h.state = k.state ∧ h.Used s.mqueues

structure KontOk (s : State) (t : TaskPtr) (kont : Kont) : Prop where
  idle : t = s.idle → kont = .iret ∨ ∃ child, kont = .startRet child
  child : ∀ c r, kont = .waitSpecificChild c r →
    ∃ k, s.tasks c = some k ∧ k.parent = some t
  starter : ∀ c, kont = .startRet c →
    c < s.fresh ∧ ∀ k, s.tasks c = some k → k.parent = some t

structure Placed (s : State) : Prop where
  home : ∀ t k, s.tasks t = some k → s.Home t k
  unlinked : ∀ t, s.tasks t = none → s.queues.link t = none
  idle : ∃ k, s.tasks s.idle = some k ∧ (k.state = .running ∨ k.state = .ready)
  global : ∀ t, s.globalTasks.link t = some () ↔ ∃ k, s.tasks t = some k ∧ k.state ≠ .zombie
  children : ∀ t p, s.siblings.link t = some p ↔ ∃ k, s.tasks t = some k ∧ k.parent = some p
  parent : ∀ t k, s.tasks t = some k → k.parent = none → t = s.idle
  fresh : ∀ t, s.fresh ≤ t → s.tasks t = none
  pids : ∀ t u k l, s.tasks t = some k → s.tasks u = some l → k.state ≠ .zombie →
    l.state ≠ .zombie → k.pid = l.pid → t = u
  pidmap : ∀ t k, s.tasks t = some k → k.state ≠ .zombie → s.pidmap k.pid = true
  konts : ∀ t k, s.tasks t = some k → k.state ≠ .zombie → s.KontOk t k.kont
  range : ∀ id, (s.mqueues id).isSome → id < nbQueue

structure Inv (s : State) : Prop extends Placed s where
  current : ∃ k, s.tasks s.current = some k ∧ k.state ≠ .ready

theorem Home.of_link (hl : s.queues.link t = some h) (hs : h.state = k.state)
    (hu : h.Used s.mqueues) : s.Home t k := by
  unfold Home
  rw [hl]
  exact ⟨hs, hu⟩

theorem Home.of_running (hl : s.queues.link t = none) (hs : k.state = .running)
    (ht : t = s.current) : s.Home t k := by
  unfold Home
  rw [hl]
  exact ⟨hs, ht⟩

theorem Home.linked (hh : s.Home t k) (hk : k.state ≠ .running) :
    ∃ h, s.queues.link t = some h ∧ h.state = k.state ∧ h.Used s.mqueues := by
  unfold Home at hh
  split at hh
  · exact absurd hh.1 hk
  · rename_i h hl
    exact ⟨h, hl, hh⟩

theorem Home.running (hh : s.Home t k) (hk : k.state = .running) :
    t = s.current ∧ s.queues.link t = none := by
  unfold Home at hh
  split at hh
  · rename_i hl
    exact ⟨hh.2, hl⟩
  · rename_i h hl
    exact absurd (hh.1.trans hk) h.state_ne_running

theorem Home.not_startup (hh : s.Home t k) : k.state ≠ .startup := by
  intro hk
  obtain ⟨h, _, hs, _⟩ := hh.linked (by rw [hk]; decide)
  exact h.state_ne_startup (hs.trans hk)

theorem Home.link_eq (hh : s.Home t k) (hs : h.state = k.state) (hm : k.state ≠ .interruptedMsg) :
    s.queues.link t = some h := by
  obtain ⟨h', hl, hs', _⟩ := hh.linked (by rw [← hs]; exact h.state_ne_running)
  rw [hl, Head.eq_of_state (hs'.trans hs.symm) (by rw [hs]; exact hm)]

theorem Placed.live (hi : Placed s) (ht : t ∈ s.queues.members h) :
    ∃ k, s.tasks t = some k ∧ k.state = h.state ∧ h.Used s.mqueues := by
  have hl := Links.link_of_mem ht
  cases hk : s.tasks t with
  | none =>
    rw [hi.unlinked t hk] at hl
    cases hl
  | some k =>
    have hh := hi.home t k hk
    simp only [Home, hl] at hh
    exact ⟨k, rfl, hh.1.symm, hh.2⟩

theorem Placed.mem (hi : Placed s) (hk : s.tasks t = some k) (hs : h.state = k.state)
    (hm : k.state ≠ .interruptedMsg) : t ∈ s.queues.members h :=
  Links.mem_of_link ((hi.home t k hk).link_eq hs hm)

theorem Placed.lt_fresh (hi : Placed s) (hk : s.tasks t = some k) : t < s.fresh := by
  by_contra hle
  rw [hi.fresh t (Nat.le_of_not_lt hle)] at hk
  cases hk

theorem Placed.not_idle (hi : Placed s) (hk : s.tasks t = some k) (hz : k.state = .zombie) :
    t ≠ s.idle := by
  rintro rfl
  obtain ⟨l, hl, hs⟩ := hi.idle
  rw [hk] at hl
  cases hl
  rw [hz] at hs
  rcases hs with hs | hs <;> cases hs

theorem Inv.unlinked_current (hi : Inv s) (hk : s.tasks s.current = some k)
    (hr : k.state = .running) : s.queues.link s.current = none :=
  ((hi.home _ k hk).running hr).2

theorem boot_inv : Inv boot := by
  have htask (t : TaskPtr) (k : Task) (hk : boot.tasks t = some k) :
      t = 0 ∧ k = ⟨0, .running, none, minPrio, 0, 0, ⟨0, 0⟩, false, .iret⟩ := by
    simp only [boot] at hk
    split at hk
    · exact ⟨‹_›, (Option.some.inj hk).symm⟩
    · cases hk
  refine ⟨⟨?_, fun _ _ => rfl, ⟨_, rfl, Or.inl rfl⟩, ?_, ?_, ?_, ?_, ?_, ?_, ?_, ?_⟩,
    _, rfl, by decide⟩
  · intro t k hk
    obtain ⟨rfl, rfl⟩ := htask t k hk
    exact ⟨rfl, rfl⟩
  · intro t
    by_cases ht : t = 0
    · subst ht
      simp [boot]
    · simp [boot, Links.link_move_of_ne ht, ht]
  · intro t p
    constructor
    · intro hl
      cases hl
    · rintro ⟨k, hk, hp⟩
      obtain ⟨rfl, rfl⟩ := htask t k hk
      cases hp
  · intro t k hk _
    exact (htask t k hk).1
  · intro t ht
    have ht : 1 ≤ t := ht
    simp only [boot, if_neg (Nat.ne_of_gt ht)]
  · intro t u k l hk hl _ _ _
    exact (htask t k hk).1.trans (htask u l hl).1.symm
  · intro t k hk _
    obtain ⟨rfl, rfl⟩ := htask t k hk
    rfl
  · intro t k hk _
    obtain ⟨rfl, rfl⟩ := htask t k hk
    exact ⟨fun _ => Or.inl rfl, nofun, nofun⟩
  · intro id hid
    cases hid

end State
end DominOS.Process
