import DominOS.ProcessInv

/-! The changes that kernel code is made of, each with what the code has checked
before it, and that each of them keeps the invariant. -/
namespace DominOS.Process
open IntrusiveLists

def Obs.Plain : Obs → Prop
  | .started .. | .exited .. | .reaped .. => False
  | _ => True

def Obs.Silent : Obs → Prop
  | .returned .. | .started .. | .exited .. | .reaped .. | .counted .. => True
  | _ => False

def Kont.Silent : Kont → Prop
  | .psendLoop .. | .psendAdd .. | .psendRet .. | .preceiveLoop .. | .preceiveRet .. => False
  | _ => True

def StartArgs.Passes (a : StartArgs) : Prop :=
  a.ssize ≤ ustackSzMax ∧ a.known ∧ minPrio ≤ a.prio ∧ a.prio ≤ maxPrio

namespace State

def Childless (s : State) (t : TaskPtr) : Prop :=
  ∀ c k, s.tasks c = some k → k.parent ≠ some t

structure SameLists (s s' : State) : Prop where
  queues : s'.queues = s.queues
  siblings : s'.siblings = s.siblings
  globalTasks : s'.globalTasks = s.globalTasks
  current : s'.current = s.current
  idle : s'.idle = s.idle
  pidmap : s'.pidmap = s.pidmap
  fresh : s'.fresh = s.fresh
  taskCalls : s'.taskCalls = s.taskCalls
  used : ∀ id, (s'.mqueues id).isSome = (s.mqueues id).isSome
  others : ∀ t, t ≠ s.current → s'.tasks t = s.tasks t
  self : ∀ k, s.tasks s.current = some k → ∃ kont msgVal,
    s'.tasks s.current = some { k with kont := kont, msgVal := msgVal } ∧
      (kont = k.kont ∨ k.state ≠ .interruptedChild ∧ s.KontOk s.current kont)
  trace : ∃ seen, s'.trace = seen ++ s.trace ∧ ∀ o ∈ seen, o.Plain

structure SameMsgs (s s' : State) : Prop where
  mqueues : s'.mqueues = s.mqueues
  cptRst : s'.cptRst = s.cptRst
  sends : s'.sends = s.sends
  msgCalls : s'.msgCalls = s.msgCalls
  trace : ∃ seen, s'.trace = seen ++ s.trace ∧ ∀ o ∈ seen, o.Silent
  self : ∀ k, s.tasks s.current = some k → ∃ k', s'.tasks s.current = some k' ∧
    (k'.kont = k.kont ∧ k'.msgVal = k.msgVal ∨ k'.kont.Silent ∧ k.kont.Silent)

def woken (s : State) (t : TaskPtr) (k : Task) : State :=
  (s.setTask t { k with state := .ready }).move .ready t

/-- `t` is a zombie, off the global list, and its pid is free. -/
def died (s : State) (t : TaskPtr) (k : Task) (retval : Int) : State :=
  ((((s.delist t).freePid k.pid).setTask t { k with
    state := .zombie, priority := deathPriority s.totalTicks, retval := retval }).observe
      (.exited t retval)).move .zombie t

def freed (s : State) (t : TaskPtr) : State :=
  { s.memory (.free t) with
    tasks := Function.update s.tasks t none
    queues := s.queues.erase t
    siblings := s.siblings.erase t }

def launched (s : State) (pid : Nat) (a : StartArgs) : State :=
  (((s.allocTask pid a).adopt s.current s.fresh).woken s.fresh (s.newTask pid a)).enlist
    s.fresh

def born (s : State) (pid : Nat) (a : StartArgs) : State := (s.markPid pid).launched pid a

/-- `t` has a new priority, and the place in its list that goes with it. -/
def ranked (s : State) (t : TaskPtr) (k : Task) (priority : Int) : State :=
  let s₁ := s.setTask t { k with priority := priority }
  match s.queues.link t with
  | none => s₁
  | some h => s₁.move h t

inductive Mourned (s : State) (parent : Option TaskPtr) : State → Prop where
  | alone : (∀ p l, parent = some p → s.tasks p = some l → l.state ≠ .interruptedChild) →
      Mourned s parent s
  | woken {p : TaskPtr} {l : Task} : parent = some p → s.tasks p = some l →
      l.state = .interruptedChild → p ≠ s.current → Mourned s parent (s.woken p l)

/-- The current task may wait for a child at `kont`: what it waits for has not happened. -/
def Expects (s : State) (kont : Kont) : Prop :=
  match kont with
  | .waitAnyChild _ => ∀ c l, s.tasks c = some l → l.parent = some s.current → l.state ≠ .zombie
  | .waitSpecificChild c _ => ∀ l, s.tasks c = some l → l.state ≠ .zombie
  | _ => False

def blocked (s : State) (h : Head) (k : Task) (kont : Kont) : State :=
  ((s.setTask s.current { k with state := h.state, kont := kont }).move h s.current).setCtl .sched

def switched (s : State) (new : TaskPtr) (k : Task) : State :=
  { s.setTask new { k with state := .running, firstStart := false } with
    queues := s.queues.erase new
    current := new
    ctl := if k.firstStart then .user else .resume }

/-- A change after which the current task is in the state it was. Where `T` is asked
for nothing of higher priority gets ready, where `D` is no parent of a live task is
freed, where `M` is nothing happens to a message, and where `K` is no task dies inside
`psend` or `preceive`; `start` is called only as `B` allows. -/
inductive Quiet (T D M K : Prop) (B : State → StartArgs → Prop) : State → State → Prop where
  | same {s s' : State} : s.SameLists s' → (M → s.SameMsgs s') → Quiet T D M K B s s'
  | wake {s : State} {t : TaskPtr} {k c : Task} {w : Nat} {m : Msg} :
      s.tasks t = some k → t ≠ s.current → k.state ≠ .zombie → k.state ≠ .ready →
      s.tasks s.current = some c → (T → k.priority ≤ c.priority) →
      (M → k.state ≠ .interruptedMsg ∧ m = k.msgVal) →
      Quiet T D M K B s (s.woken t { k with wakeTime := w, msgVal := m })
  | die {s s' : State} {t : TaskPtr} {k c : Task} :
      s.tasks t = some k → t ≠ s.current → t ≠ s.idle → k.state ≠ .zombie →
      (K → k.kont.Silent) → Mourned (s.died t k 0) k.parent s' → s.tasks s.current = some c →
      (T → ∀ p l, k.parent = some p → s.tasks p = some l → l.state = .interruptedChild →
        l.priority ≤ c.priority) →
      Quiet T D M K B s s'
  | reap {s : State} {t : TaskPtr} {k : Task} :
      s.tasks t = some k → k.state = .zombie → t ≠ s.current →
      (k.parent = some s.idle ∨
        ∃ p l, k.parent = some p ∧ s.tasks p = some l ∧ l.state = .zombie) →
      (D → s.Childless t) → Quiet T D M K B s (s.freed t)
  | reapChild {s : State} {t : TaskPtr} {k c : Task} :
      s.tasks t = some k → k.state = .zombie → k.parent = some s.current → t ≠ s.current →
      s.tasks s.current = some c → c.kont = .iret → (D → s.Childless t) →
      c.state = .running ∧ s.current ≠ s.idle →
      Quiet T D M K B s ((s.freed t).observe (.reaped s.current t k.pid k.retval))
  | start {s : State} {c : Task} {pid : Nat} {a : StartArgs} :
      s.pidmap pid = false → s.tasks s.current = some c → (T → a.prio ≤ c.priority) →
      allocPid s.pidmap = some pid → a.Passes ∧ a.memory ∧ a.frames → B s a →
      Quiet T D M K B s (s.born pid a)
  | rank {s : State} {t : TaskPtr} {k c : Task} {p : Int} :
      s.tasks t = some k → t ≠ s.idle → k.state ≠ .zombie → s.tasks s.current = some c →
      (T → (t ≠ s.current → k.state = .ready → p ≤ c.priority) ∧
        (t = s.current → ∀ u, s.queueTop .ready = some u → s.priorityOf u ≤ p)) →
      Quiet T D M K B s (s.ranked t k p)
  | create {s : State} {id : Nat} {q : MQueue} :
      ¬ M → s.mqueues id = none → id < nbQueue → Quiet T D M K B s (s.setMqueue id q)
  | drop {s : State} {id : Nat} : ¬ M →
      s.queues.members (.waitingSenders id) = [] →
      s.queues.members (.waitingReceivers id) = [] →
      Quiet T D M K B s { s with mqueues := Function.update s.mqueues id none }
  | leak {s : State} {pid : Nat} {a : StartArgs} :
      a.Passes ∧ ¬ a.memory → B s a → Quiet T D M K B s (s.markPid pid)
  | sawStart {s : State} {c : TaskPtr} {k : Task} :
      s.tasks c = some k → k.parent = some s.current →
      Quiet T D M K B s (s.observe (.started s.current c k.pid))

/-- A change, with those that end the turn of the current task, on the way to `schedule`. -/
inductive Effect (T D M K : Prop) (B : State → StartArgs → Prop) : State → State → Prop where
  | quiet {s s' : State} : Quiet T D M K B s s' → Effect T D M K B s s'
  | exit {s s' : State} {k : Task} {r : Int} :
      ¬ T → s.tasks s.current = some k → s.current ≠ s.idle → k.state = .running →
      (K → k.kont.Silent) → Mourned (s.died s.current k r) k.parent s' → Effect T D M K B s s'
  | block {s : State} {h : Head} {k : Task} {kont : Kont} {w : Nat} {m : Msg} :
      ¬ T → s.tasks s.current = some k → k.state = .running → s.current ≠ s.idle →
      h.state ≠ .ready → h.state ≠ .zombie → h.Used s.mqueues → s.KontOk s.current kont →
      (M → h.state ≠ .interruptedMsg ∧ kont.Silent ∧ k.kont.Silent) →
      (h.state = .interruptedChild → s.Expects kont) →
      Effect T D M K B s (s.blocked h { k with wakeTime := w, msgVal := m } kont)

inductive Switch : State → State → Prop where
  | switch {s : State} {new : TaskPtr} {k : Task} :
      s.tasks new = some k → k.state = .ready →
      (∀ c, s.tasks s.current = some c → c.state ≠ .running) → Switch s (s.switched new k)
  | preempt {s : State} {new : TaskPtr} {k c : Task} :
      s.tasks new = some k → k.state = .ready → s.tasks s.current = some c →
      c.state = .running → Switch s ((s.woken s.current c).switched new k)

variable {s s' : State} {t u : TaskPtr} {k : Task} {h : Head} {T D M K : Prop}
  {B : State → StartArgs → Prop}

theorem woken_self : (s.woken t k).tasks t = some { k with state := .ready } := setTask_tasks_self

theorem woken_of_ne (hu : u ≠ t) : (s.woken t k).tasks u = s.tasks u := setTask_tasks_of_ne hu

theorem KontOk.transfer {kont : Kont} (h : s.KontOk t kont) (hidle : s'.idle = s.idle)
    (hf : s.fresh ≤ s'.fresh)
    (hc : ∀ c k, s.tasks c = some k → k.parent = some t →
      ∃ k', s'.tasks c = some k' ∧ k'.parent = some t)
    (ho : ∀ c k', c < s.fresh → s'.tasks c = some k' →
      ∃ k, s.tasks c = some k ∧ k'.parent = k.parent) : s'.KontOk t kont where
  idle ht := h.idle (ht.trans hidle)
  child c r hk := by
    obtain ⟨l, hl, hp⟩ := h.child c r hk
    exact hc c l hl hp
  starter c hk := by
    obtain ⟨hlt, hp⟩ := h.starter c hk
    refine ⟨Nat.lt_of_lt_of_le hlt hf, fun k' hk' => ?_⟩
    obtain ⟨k, hk, he⟩ := ho c k' hlt hk'
    exact he.trans (hp k hk)

/-- One task changes and may move; it stays alive, and nobody's family changes. -/
structure Relocated (s s' : State) (t : TaskPtr) (k k' : Task) : Prop where
  tasks : s'.tasks = Function.update s.tasks t (some k')
  links : ∀ u, u ≠ t → s'.queues.link u = s.queues.link u
  siblings : s'.siblings = s.siblings
  current : s'.current = s.current
  idle : s'.idle = s.idle
  fresh : s'.fresh = s.fresh
  used : ∀ id, (s'.mqueues id).isSome = (s.mqueues id).isSome
  pid : k'.pid = k.pid
  parent : k'.parent = k.parent
  home : s'.Home t k'

theorem used_iff {m m' : Nat → Option MQueue} (h : ∀ id, (m' id).isSome = (m id).isSome)
    (hd : Head) : hd.Used m' ↔ hd.Used m := by
  cases hd <;> simp [Head.Used, h]

theorem Home.congr (hh : s.Home t k) (hl : s'.queues.link t = s.queues.link t)
    (hc : s'.current = s.current) (hu : ∀ id, (s'.mqueues id).isSome = (s.mqueues id).isSome) :
    s'.Home t k := by
  unfold Home at hh ⊢
  rw [hl, hc]
  cases hs : s.queues.link t with
  | none => rwa [hs] at hh
  | some h =>
    rw [hs] at hh
    exact ⟨hh.1, (used_iff hu h).mpr hh.2⟩

namespace Relocated
variable {k' : Task} (r : Relocated s s' t k k')
include r

theorem task_of_ne {u : TaskPtr} (hu : u ≠ t) : s'.tasks u = s.tasks u := by
  rw [r.tasks, Function.update_of_ne hu]

theorem task_self : s'.tasks t = some k' := by rw [r.tasks, Function.update_self]

theorem old (hk : s.tasks t = some k) {u : TaskPtr} {l : Task} (hl : s'.tasks u = some l) :
    ∃ l₀, s.tasks u = some l₀ ∧ l.pid = l₀.pid ∧ l.parent = l₀.parent ∧
      (u ≠ t → l = l₀) ∧ (u = t → l = k' ∧ l₀ = k) := by
  by_cases hu : u = t
  · subst hu
    rw [r.task_self] at hl
    cases hl
    exact ⟨k, hk, r.pid, r.parent, fun h => absurd rfl h, fun _ => ⟨rfl, rfl⟩⟩
  · rw [r.task_of_ne hu] at hl
    exact ⟨l, hl, rfl, rfl, fun _ => rfl, fun h => absurd h hu⟩

theorem new (hk : s.tasks t = some k) {u : TaskPtr} {l : Task} (hl : s.tasks u = some l) :
    ∃ l', s'.tasks u = some l' ∧ l'.pid = l.pid ∧ l'.parent = l.parent ∧
      (u ≠ t → l' = l) ∧ (u = t → l' = k' ∧ l = k) := by
  by_cases hu : u = t
  · subst hu
    rw [hk] at hl
    cases hl
    exact ⟨k', r.task_self, r.pid, r.parent, fun h => absurd rfl h, fun _ => ⟨rfl, rfl⟩⟩
  · exact ⟨l, by rw [r.task_of_ne hu]; exact hl, rfl, rfl, fun _ => rfl, fun h => absurd h hu⟩
end Relocated

theorem Placed.relocate {k' : Task} (h : Placed s) (hk : s.tasks t = some k)
    (r : Relocated s s' t k k') (hz : k'.state ≠ .zombie → k.state ≠ .zombie)
    (hidle : t = s.idle → k'.state = .running ∨ k'.state = .ready)
    (hglobal : ∀ u, u ≠ t → s'.globalTasks.link u = s.globalTasks.link u)
    (hself : s'.globalTasks.link t = some () ↔ k'.state ≠ .zombie)
    (hpidmap : ∀ u l, s.tasks u = some l → l.state ≠ .zombie →
      (u = t → k'.state ≠ .zombie) → s'.pidmap l.pid = true)
    (hkont : k'.state ≠ .zombie → s.KontOk t k'.kont) : Placed s' where
  home u l hl := by
    by_cases hu : u = t
    · subst hu
      rw [r.task_self] at hl
      cases hl
      exact r.home
    · rw [r.task_of_ne hu] at hl
      exact (h.home u l hl).congr (r.links u hu) r.current r.used
  unlinked u hu := by
    by_cases he : u = t
    · subst he
      rw [r.task_self] at hu
      cases hu
    · rw [r.links u he]
      exact h.unlinked u (by rwa [r.task_of_ne he] at hu)
  idle := by
    obtain ⟨l, hl, hs⟩ := h.idle
    rw [r.idle]
    by_cases hu : s.idle = t
    · rw [hu]
      exact ⟨k', r.task_self, hidle hu.symm⟩
    · exact ⟨l, by rw [r.task_of_ne hu]; exact hl, hs⟩
  global u := by
    by_cases hu : u = t
    · subst hu
      rw [hself, r.task_self]
      simp
    · rw [hglobal u hu, r.task_of_ne hu]
      exact h.global u
  children u p := by
    rw [r.siblings, h.children]
    constructor
    · rintro ⟨l, hl, hp⟩
      obtain ⟨l', hl', _, hp', _⟩ := r.new hk hl
      exact ⟨l', hl', hp'.trans hp⟩
    · rintro ⟨l, hl, hp⟩
      obtain ⟨l₀, hl₀, _, hp₀, _⟩ := r.old hk hl
      exact ⟨l₀, hl₀, hp₀.symm.trans hp⟩
  parent u l hl hp := by
    obtain ⟨l₀, hl₀, _, hp₀, _⟩ := r.old hk hl
    rw [r.idle]
    exact h.parent u l₀ hl₀ (hp₀.symm.trans hp)
  fresh u hu := by
    rw [r.fresh] at hu
    have hne : u ≠ t := by
      rintro rfl
      rw [h.fresh u hu] at hk
      cases hk
    rw [r.task_of_ne hne]
    exact h.fresh u hu
  pids u v l m hl hm hzl hzm hp := by
    obtain ⟨l₀, hl₀, hpl, _, hnl, hel⟩ := r.old hk hl
    obtain ⟨m₀, hm₀, hpm, _, hnm, hem⟩ := r.old hk hm
    have zombie {w : TaskPtr} {n n₀ : Task} (hz' : n.state ≠ .zombie) (h1 : w ≠ t → n = n₀)
        (h2 : w = t → n = k' ∧ n₀ = k) : n₀.state ≠ .zombie := by
      by_cases hw : w = t
      · obtain ⟨rfl, rfl⟩ := h2 hw
        exact hz hz'
      · rw [← h1 hw]
        exact hz'
    exact h.pids u v l₀ m₀ hl₀ hm₀ (zombie hzl hnl hel) (zombie hzm hnm hem)
      (hpl.symm.trans (hp.trans hpm))
  pidmap u l hl hzl := by
    obtain ⟨l₀, hl₀, hpl, _, hnl, hel⟩ := r.old hk hl
    rw [hpl]
    by_cases hu : u = t
    · obtain ⟨rfl, rfl⟩ := hel hu
      exact hpidmap u l₀ hl₀ (hz hzl) (fun _ => hzl)
    · rw [hnl hu] at hzl
      exact hpidmap u l₀ hl₀ hzl (fun h => absurd h hu)
  konts u l hl hzl := by
    obtain ⟨l₀, hl₀, _, _, hnl, hel⟩ := r.old hk hl
    have ok : s.KontOk u l.kont := by
      by_cases hu : u = t
      · obtain ⟨rfl, rfl⟩ := hel hu
        rw [hu]
        exact hkont hzl
      · rw [hnl hu] at hzl ⊢
        exact h.konts u l₀ hl₀ hzl
    refine ok.transfer r.idle (Nat.le_of_eq r.fresh.symm) (fun c m hm hp => ?_) fun c m' _ hm' => ?_
    · obtain ⟨m', hm', _, hp', _⟩ := r.new hk hm
      exact ⟨m', hm', hp'.trans hp⟩
    · obtain ⟨m, hm, _, hp, _⟩ := r.old hk hm'
      exact ⟨m, hm, hp⟩
  range id hid := h.range id (by rwa [r.used] at hid)

theorem SameLists.relocate (e : s.SameLists s') (h : Placed s) (hk : s.tasks s.current = some k) :
    Placed s' := by
  obtain ⟨kont, msgVal, hself, hkont⟩ := e.self k hk
  have htasks : s'.tasks = Function.update s.tasks s.current
      (some { k with kont := kont, msgVal := msgVal }) := by
    funext u
    by_cases hu : u = s.current
    · rw [hu, hself, Function.update_self]
    · rw [e.others u hu, Function.update_of_ne hu]
  have hhome : s'.Home s.current { k with kont := kont, msgVal := msgVal } := by
    have hh : s'.Home s.current k :=
      (h.home _ k hk).congr (by rw [e.queues]) e.current e.used
    exact hh
  have r : Relocated s s' s.current k { k with kont := kont, msgVal := msgVal } :=
    ⟨htasks, fun u _ => by rw [e.queues], e.siblings, e.current, e.idle, e.fresh, e.used,
      rfl, rfl, hhome⟩
  refine h.relocate hk r (fun hz => hz) ?_ (fun u _ => by rw [e.globalTasks]) ?_ ?_ ?_
  · intro hi
    obtain ⟨l, hl, hs⟩ := h.idle
    rw [← hi, hk] at hl
    cases hl
    exact hs
  · rw [e.globalTasks, h.global, hk]
    simp
  · intro u l hl hz _
    rw [e.pidmap]
    exact h.pidmap u l hl hz
  · intro hz
    rcases hkont with rfl | hok
    · exact h.konts _ k hk hz
    · exact hok.2

theorem move_link_self : (s.move h t).queues.link t = some h := Links.link_move_self

theorem move_link_of_ne (hu : u ≠ t) : (s.move h t).queues.link u = s.queues.link u :=
  Links.link_move_of_ne hu

theorem Placed.woken {k' : Task} (h : Placed s) (hk : s.tasks t = some k) (hz : k.state ≠ .zombie)
    (hp : k'.pid = k.pid) (hq : k'.parent = k.parent) (hkont : k'.kont = k.kont) :
    Placed (s.woken t k') := by
  have hhome : (s.woken t k').Home t { k' with state := .ready } :=
    .of_link move_link_self rfl trivial
  have r : Relocated s (s.woken t k') t k { k' with state := .ready } :=
    ⟨rfl, fun u hu => move_link_of_ne hu, rfl, rfl, rfl, rfl, fun _ => rfl, hp, hq, hhome⟩
  refine h.relocate hk r (fun _ => hz) (fun _ => Or.inr rfl) (fun _ _ => rfl) ?_ ?_ ?_
  · have hg : (s.woken t k').globalTasks = s.globalTasks := rfl
    rw [hg, h.global, hk]
    simp [hz]
  · intro u l hl hzl _
    exact h.pidmap u l hl hzl
  · intro _
    rw [show ({ k' with state := TaskState.ready } : Task).kont = k'.kont from rfl, hkont]
    exact h.konts t k hk hz

theorem Placed.died {r : Int} (h : Placed s) (hk : s.tasks t = some k) (hz : k.state ≠ .zombie)
    (hidle : t ≠ s.idle) : Placed (s.died t k r) := by
  have moved : Relocated s (s.died t k r) t k { k with
      state := .zombie, priority := deathPriority s.totalTicks, retval := r } :=
    ⟨rfl, fun u hu => move_link_of_ne hu, rfl, rfl, rfl, rfl, fun _ => rfl, rfl, rfl,
      .of_link move_link_self rfl trivial⟩
  refine h.relocate hk moved (fun hn => absurd rfl hn) (fun hi => absurd hi hidle) ?_ ?_ ?_ (fun hn => absurd rfl hn)
  · intro u hu
    exact Links.link_erase_of_ne hu
  · have hlink : (s.died t k r).globalTasks.link t = none := Links.link_erase_self
    simp [hlink]
  · intro u l hl hzl hu
    have hne : u ≠ t := fun he => hu he rfl
    have hpid : l.pid ≠ k.pid := fun he => hne (h.pids u t l k hl hk hzl hz he)
    exact (Function.update_of_ne hpid _ _).trans (h.pidmap u l hl hzl)

theorem Placed.ranked {p : Int} (h : Placed s) (hk : s.tasks t = some k)
    (hidle : t ≠ s.idle) (hz : k.state ≠ .zombie) : Placed (s.ranked t k p) := by
  have keep {s' : State} (r : Relocated s s' t k { k with priority := p })
      (hg : s'.globalTasks = s.globalTasks) (hm : s'.pidmap = s.pidmap) : Placed s' := by
    refine h.relocate hk r (fun hn => hn) (fun hi => absurd hi hidle)
      (fun u _ => by rw [hg]) ?_ ?_ (fun _ => h.konts t k hk hz)
    · rw [hg, h.global, hk]
      simp
    · intro u l hl hzl _
      rw [hm]
      exact h.pidmap u l hl hzl
  have hh := h.home t k hk
  unfold State.ranked
  cases hl : s.queues.link t with
  | none => exact keep ⟨rfl, fun _ _ => rfl, rfl, rfl, rfl, rfl, fun _ => rfl, rfl, rfl, hh⟩ rfl rfl
  | some hd =>
    simp only [Home, hl] at hh
    exact keep ⟨rfl, fun u hu => move_link_of_ne hu, rfl, rfl, rfl, rfl, fun _ => rfl, rfl, rfl,
      .of_link move_link_self hh.1 hh.2⟩ rfl rfl

theorem Placed.blocked {kont : Kont} {hd : Head} {w : Nat} {m : Msg} (h : Placed s)
    (hk : s.tasks s.current = some k) (hz : k.state ≠ .zombie) (hidle : s.current ≠ s.idle)
    (hu : hd.Used s.mqueues) (hzd : hd.state ≠ .zombie) (hkont : s.KontOk s.current kont) :
    Placed (s.blocked hd { k with wakeTime := w, msgVal := m } kont) := by
  have r : Relocated s (s.blocked hd { k with wakeTime := w, msgVal := m } kont) s.current k
      { k with state := hd.state, wakeTime := w, msgVal := m, kont := kont } :=
    ⟨rfl, fun u hu => move_link_of_ne hu, rfl, rfl, rfl, rfl, fun _ => rfl, rfl, rfl,
      .of_link move_link_self rfl hu⟩
  refine h.relocate hk r (fun _ => hz) (fun hi => absurd hi hidle) (fun _ _ => rfl) ?_ ?_ (fun _ => hkont)
  · have hg : (s.blocked hd { k with wakeTime := w, msgVal := m } kont).globalTasks =
        s.globalTasks := rfl
    rw [hg, h.global, hk]
    simp [hz, hzd]
  · intro u l hl hzl _
    exact h.pidmap u l hl hzl

theorem freed_tasks_of_ne (hu : u ≠ t) : (s.freed t).tasks u = s.tasks u := by
  simp [freed, hu]

theorem freed_tasks {l : Task} (hl : (s.freed t).tasks u = some l) : u ≠ t ∧ s.tasks u = some l := by
  have hu : u ≠ t := by
    rintro rfl
    simp [freed] at hl
  exact ⟨hu, by rwa [freed_tasks_of_ne hu] at hl⟩

theorem Placed.freed (h : Placed s) (hk : s.tasks t = some k) (hz : k.state = .zombie)
    (hwait : ∀ u l r, s.tasks u = some l → l.state ≠ .zombie → l.kont ≠ .waitSpecificChild t r) :
    Placed (s.freed t) where
  home u l hl := by
    obtain ⟨hu, hl⟩ := freed_tasks hl
    exact (h.home u l hl).congr (Links.link_erase_of_ne hu) rfl (fun _ => rfl)
  unlinked u hu := by
    by_cases he : u = t
    · subst he
      exact Links.link_erase_self
    · rw [freed_tasks_of_ne he] at hu
      exact (Links.link_erase_of_ne he).trans (h.unlinked u hu)
  idle := by
    obtain ⟨l, hl, hs⟩ := h.idle
    refine ⟨l, ?_, hs⟩
    have hne : s.idle ≠ t := by
      intro he
      rw [he, hk] at hl
      cases hl
      rw [hz] at hs
      rcases hs with hs | hs <;> cases hs
    exact (freed_tasks_of_ne hne).trans hl
  global u := by
    change s.globalTasks.link u = some () ↔ _
    rw [h.global u]
    constructor
    · rintro ⟨l, hl, hs⟩
      have hu : u ≠ t := by
        rintro rfl
        rw [hk] at hl
        cases hl
        exact hs hz
      exact ⟨l, (freed_tasks_of_ne hu).trans hl, hs⟩
    · rintro ⟨l, hl, hs⟩
      exact ⟨l, (freed_tasks hl).2, hs⟩
  children u p := by
    by_cases hu : u = t
    · subst hu
      simp [State.freed]
    · rw [freed_tasks_of_ne hu, ← h.children u p]
      simp only [State.freed, Links.link_erase_of_ne hu]
  parent u l hl := h.parent u l (freed_tasks hl).2
  fresh u hu := by
    have hne : u ≠ t := by
      rintro rfl
      rw [h.fresh u hu] at hk
      cases hk
    rw [freed_tasks_of_ne hne]
    exact h.fresh u hu
  pids u v l m hl hm := h.pids u v l m (freed_tasks hl).2 (freed_tasks hm).2
  pidmap u l hl := h.pidmap u l (freed_tasks hl).2
  konts u l hl hzl := by
    have ok := h.konts u l (freed_tasks hl).2 hzl
    refine ⟨ok.idle, fun c r hc => ?_, fun c hc => ?_⟩
    rotate_left
    · exact ⟨(ok.starter c hc).1, fun m hm => (ok.starter c hc).2 m (freed_tasks hm).2⟩
    obtain ⟨m, hm, hp⟩ := ok.child c r hc
    have hne : c ≠ t := by
      rintro rfl
      exact hwait u l r (freed_tasks hl).2 hzl hc
    exact ⟨m, (freed_tasks_of_ne hne).trans hm, hp⟩
  range := h.range

theorem born_tasks_of_ne {pid : Nat} {a : StartArgs} (hu : u ≠ s.fresh) :
    (s.born pid a).tasks u = s.tasks u := by
  simp [born, launched, allocTask, memory, markPid, adopt, enlist, woken, setTask, move, hu]

theorem born_tasks_fresh {pid : Nat} {a : StartArgs} :
    (s.born pid a).tasks s.fresh = some { s.newTask pid a with state := .ready } := by
  simp [born, launched, allocTask, markPid, adopt, enlist, woken, setTask, move, newTask]

theorem born_tasks {pid : Nat} {a : StartArgs} {l : Task} (hl : (s.born pid a).tasks u = some l) :
    u = s.fresh ∧ l = { s.newTask pid a with state := .ready } ∨
      u ≠ s.fresh ∧ s.tasks u = some l := by
  by_cases hu : u = s.fresh
  · subst hu
    rw [born_tasks_fresh] at hl
    exact Or.inl ⟨rfl, (Option.some.inj hl).symm⟩
  · rw [born_tasks_of_ne hu] at hl
    exact Or.inr ⟨hu, hl⟩

theorem born_sibling {pid : Nat} {a : StartArgs} :
    (s.born pid a).siblings.link s.fresh = some s.current := Links.link_move_self

theorem born_sibling_of_ne {pid : Nat} {a : StartArgs} (hu : u ≠ s.fresh) :
    (s.born pid a).siblings.link u = s.siblings.link u := Links.link_move_of_ne hu

theorem born_global {pid : Nat} {a : StartArgs} :
    (s.born pid a).globalTasks.link s.fresh = some () := Links.link_move_self

theorem born_global_of_ne {pid : Nat} {a : StartArgs} (hu : u ≠ s.fresh) :
    (s.born pid a).globalTasks.link u = s.globalTasks.link u := Links.link_move_of_ne hu

theorem Placed.ne_fresh (h : Placed s) (hk : s.tasks t = some k) : t ≠ s.fresh := by
  rintro rfl
  rw [h.fresh _ (Nat.le_refl _)] at hk
  cases hk

theorem Placed.born {pid : Nat} {a : StartArgs} (h : Placed s) (hpid : s.pidmap pid = false) :
    Placed (s.born pid a) := by
  have hpm : (s.born pid a).pidmap = Function.update s.pidmap pid true := rfl
  refine ⟨?_, ?_, ?_, ?_, ?_, ?_, ?_, ?_, ?_, ?_, h.range⟩
  · intro u l hl
    rcases born_tasks hl with ⟨rfl, rfl⟩ | ⟨hu, hl⟩
    · exact .of_link move_link_self rfl trivial
    · exact (h.home u l hl).congr (move_link_of_ne hu) rfl (fun _ => rfl)
  · intro u hu
    have hne : u ≠ s.fresh := by
      rintro rfl
      rw [born_tasks_fresh] at hu
      cases hu
    rw [born_tasks_of_ne hne] at hu
    exact (move_link_of_ne hne).trans (h.unlinked u hu)
  · obtain ⟨l, hl, hs⟩ := h.idle
    exact ⟨l, (born_tasks_of_ne (h.ne_fresh hl)).trans hl, hs⟩
  · intro u
    by_cases hu : u = s.fresh
    · subst hu
      rw [born_tasks_fresh, born_global]
      simp
    · rw [born_tasks_of_ne hu, born_global_of_ne hu]
      exact h.global u
  · intro u p
    by_cases hu : u = s.fresh
    · subst hu
      rw [born_tasks_fresh, born_sibling]
      simp [newTask]
    · rw [born_tasks_of_ne hu, born_sibling_of_ne hu]
      exact h.children u p
  · intro u l hl hp
    rcases born_tasks hl with ⟨rfl, rfl⟩ | ⟨_, hl⟩
    · cases hp
    · exact h.parent u l hl hp
  · intro u hu
    have hu : s.fresh + 1 ≤ u := hu
    rw [born_tasks_of_ne (Nat.ne_of_gt hu)]
    exact h.fresh u (Nat.le_of_succ_le hu)
  · intro u v l m hl hm hzl hzm hp
    rcases born_tasks hl with ⟨rfl, rfl⟩ | ⟨_, hl⟩
    · rcases born_tasks hm with ⟨rfl, rfl⟩ | ⟨_, hm⟩
      · rfl
      · have := h.pidmap v m hm hzm
        rw [← hp, show ({ s.newTask pid a with state := TaskState.ready } : Task).pid = pid from rfl,
          hpid] at this
        cases this
    · rcases born_tasks hm with ⟨rfl, rfl⟩ | ⟨_, hm⟩
      · have := h.pidmap u l hl hzl
        rw [hp, show ({ s.newTask pid a with state := TaskState.ready } : Task).pid = pid from rfl,
          hpid] at this
        cases this
      · exact h.pids u v l m hl hm hzl hzm hp
  · intro u l hl hzl
    rw [hpm]
    rcases born_tasks hl with ⟨rfl, rfl⟩ | ⟨_, hl⟩
    · exact Function.update_self _ _ _
    · by_cases he : l.pid = pid
      · rw [he, Function.update_self]
      · rw [Function.update_of_ne he]
        exact h.pidmap u l hl hzl
  · intro u l hl hzl
    rcases born_tasks hl with ⟨rfl, rfl⟩ | ⟨_, hl⟩
    · exact ⟨fun _ => Or.inl rfl, nofun, nofun⟩
    · refine (h.konts u l hl hzl).transfer rfl (Nat.le_succ _) (fun c m hm hp => ?_)
        fun c m hlt hm => ?_
      · exact ⟨m, (born_tasks_of_ne (h.ne_fresh hm)).trans hm, hp⟩
      · exact ⟨m, (born_tasks_of_ne (Nat.ne_of_lt hlt)).symm.trans hm, rfl⟩

theorem Placed.setQueues {mq : Nat → Option MQueue} (h : Placed s)
    (hu : ∀ t hd, s.queues.link t = some hd → hd.Used s.mqueues → hd.Used mq)
    (hr : ∀ id, (mq id).isSome → id < nbQueue) : Placed { s with mqueues := mq } := by
  refine ⟨?_, h.unlinked, h.idle, h.global, h.children, h.parent, h.fresh, h.pids, h.pidmap, ?_, hr⟩
  · intro t k hk
    have hh := h.home t k hk
    unfold Home at hh ⊢
    simp only
    cases hl : s.queues.link t with
    | none => rwa [hl] at hh
    | some hd =>
      rw [hl] at hh
      exact ⟨hh.1, hu t hd hl hh.2⟩
  · intro t k hk hz
    have ok := h.konts t k hk hz
    exact ⟨ok.idle, ok.child, ok.starter⟩

section Switched
variable {new : TaskPtr}

theorem switched_self : (s.switched new k).tasks new =
    some { k with state := .running, firstStart := false } := setTask_tasks_self

theorem switched_of_ne (hu : u ≠ new) : (s.switched new k).tasks u = s.tasks u :=
  setTask_tasks_of_ne hu

theorem switched_old (hk : s.tasks new = some k) (hs : k.state = .ready)
    (hl : (s.switched new k).tasks u = some l) :
    ∃ l₀, s.tasks u = some l₀ ∧ l.pid = l₀.pid ∧ l.parent = l₀.parent ∧ l.kont = l₀.kont ∧
      (l.state ≠ .zombie ↔ l₀.state ≠ .zombie) := by
  by_cases hu : u = new
  · subst hu
    rw [switched_self] at hl
    cases hl
    exact ⟨k, hk, rfl, rfl, rfl, by simp [hs]⟩
  · rw [switched_of_ne hu] at hl
    exact ⟨l, hl, rfl, rfl, rfl, Iff.rfl⟩

theorem switched_new (hk : s.tasks new = some k) (hs : k.state = .ready) (hl : s.tasks u = some l) :
    ∃ l', (s.switched new k).tasks u = some l' ∧ l'.parent = l.parent ∧
      (l'.state ≠ .zombie ↔ l.state ≠ .zombie) := by
  by_cases hu : u = new
  · subst hu
    rw [hk] at hl
    cases hl
    exact ⟨_, switched_self, rfl, by simp [hs]⟩
  · exact ⟨l, (switched_of_ne hu).trans hl, rfl, Iff.rfl⟩

theorem Placed.switched_placed (h : Placed s) (hk : s.tasks new = some k) (hs : k.state = .ready)
    (hold : ∀ c, s.tasks s.current = some c → c.state ≠ .running) : Placed (s.switched new k) where
  home u l hl := by
    by_cases hu : u = new
    · subst hu
      rw [switched_self] at hl
      cases hl
      exact .of_running Links.link_erase_self rfl rfl
    · rw [switched_of_ne hu] at hl
      have hh := h.home u l hl
      have hrun : l.state ≠ .running := fun hr => hold l ((hh.running hr).1 ▸ hl) hr
      obtain ⟨hd, hlink, hst, hused⟩ := hh.linked hrun
      exact .of_link ((Links.link_erase_of_ne hu).trans hlink) hst hused
  unlinked u hu := by
    by_cases he : u = new
    · subst he
      exact Links.link_erase_self
    · rw [switched_of_ne he] at hu
      exact (Links.link_erase_of_ne he).trans (h.unlinked u hu)
  idle := by
    obtain ⟨l, hl, hst⟩ := h.idle
    change ∃ k', (s.switched new k).tasks s.idle = some k' ∧ _
    by_cases hu : s.idle = new
    · rw [hu]
      exact ⟨_, switched_self, Or.inl rfl⟩
    · exact ⟨l, (switched_of_ne hu).trans hl, hst⟩
  global u := by
    change s.globalTasks.link u = some () ↔ _
    rw [h.global u]
    constructor
    · rintro ⟨l, hl, hz⟩
      obtain ⟨l', hl', _, hz'⟩ := switched_new hk hs hl
      exact ⟨l', hl', hz'.mpr hz⟩
    · rintro ⟨l, hl, hz⟩
      obtain ⟨l₀, hl₀, _, _, _, hz₀⟩ := switched_old hk hs hl
      exact ⟨l₀, hl₀, hz₀.mp hz⟩
  children u p := by
    change s.siblings.link u = some p ↔ _
    rw [h.children u p]
    constructor
    · rintro ⟨l, hl, hp⟩
      obtain ⟨l', hl', hp', _⟩ := switched_new hk hs hl
      exact ⟨l', hl', hp'.trans hp⟩
    · rintro ⟨l, hl, hp⟩
      obtain ⟨l₀, hl₀, _, hp₀, _⟩ := switched_old hk hs hl
      exact ⟨l₀, hl₀, hp₀.symm.trans hp⟩
  parent u l hl hp := by
    obtain ⟨l₀, hl₀, _, hp₀, _⟩ := switched_old hk hs hl
    exact h.parent u l₀ hl₀ (hp₀.symm.trans hp)
  fresh u hu := by
    have hu' : u ≠ new := by
      rintro rfl
      rw [h.fresh u hu] at hk
      cases hk
    rw [switched_of_ne hu']
    exact h.fresh u hu
  pids u v l m hl hm hzl hzm hp := by
    obtain ⟨l₀, hl₀, hpl, _, _, hz₀⟩ := switched_old hk hs hl
    obtain ⟨m₀, hm₀, hpm, _, _, hz₁⟩ := switched_old hk hs hm
    exact h.pids u v l₀ m₀ hl₀ hm₀ (hz₀.mp hzl) (hz₁.mp hzm) (hpl.symm.trans (hp.trans hpm))
  pidmap u l hl hzl := by
    obtain ⟨l₀, hl₀, hpl, _, _, hz₀⟩ := switched_old hk hs hl
    rw [hpl]
    exact h.pidmap u l₀ hl₀ (hz₀.mp hzl)
  konts u l hl hzl := by
    obtain ⟨l₀, hl₀, _, _, hkont, hz₀⟩ := switched_old hk hs hl
    rw [hkont]
    refine (h.konts u l₀ hl₀ (hz₀.mp hzl)).transfer rfl (Nat.le_refl _) (fun c m hm hp => ?_)
      fun c m' _ hm' => ?_
    · obtain ⟨m', hm', hp', _⟩ := switched_new hk hs hm
      exact ⟨m', hm', hp'.trans hp⟩
    · obtain ⟨m, hm, _, hp, _⟩ := switched_old hk hs hm'
      exact ⟨m, hm, hp⟩
  range := h.range

theorem Placed.switched (h : Placed s) (hk : s.tasks new = some k) (hs : k.state = .ready)
    (hold : ∀ c, s.tasks s.current = some c → c.state ≠ .running) : Inv (s.switched new k) :=
  ⟨h.switched_placed hk hs hold, _, switched_self, by simp⟩

end Switched

theorem Inv.nobody_waits (h : Inv s) (hk : s.tasks t = some k)
    (hp : ∀ u l, s.tasks u = some l → k.parent = some u → l.state ≠ .zombie →
      u = s.idle ∨ l.kont = .iret) :
    ∀ u l r, s.tasks u = some l → l.state ≠ .zombie → l.kont ≠ .waitSpecificChild t r := by
  intro u l r hl hz hc
  have ok := h.konts u l hl hz
  obtain ⟨m, hm, hpm⟩ := ok.child t r hc
  rw [hk] at hm
  cases hm
  rcases hp u l hl hpm hz with hi | hi
  · rcases ok.idle hi with he | ⟨c, he⟩ <;> rw [hc] at he <;> cases he
  · rw [hc] at hi
    cases hi

theorem Mourned.current {parent : Option TaskPtr} (h : Mourned s parent s') :
    s'.current = s.current ∧ s'.idle = s.idle ∧ s'.tasks s.current = s.tasks s.current := by
  cases h with
  | alone => exact ⟨rfl, rfl, rfl⟩
  | woken _ _ _ hc => exact ⟨rfl, rfl, setTask_tasks_of_ne (Ne.symm hc)⟩

theorem Mourned.placed {parent : Option TaskPtr} (h : Mourned s parent s') (hp : Placed s) :
    Placed s' := by
  cases h with
  | alone => exact hp
  | woken _ hl hs _ => exact hp.woken hl (by rw [hs]; decide) rfl rfl rfl

theorem Inv.of_same_current (h : Inv s) (hp : Placed s') (hc : s'.current = s.current)
    (ht : ∀ c, s.tasks s.current = some c → ∃ c', s'.tasks s.current = some c' ∧
      (c'.state = .ready → c.state = .ready)) : Inv s' := by
  refine ⟨hp, ?_⟩
  obtain ⟨c, hk, hs⟩ := h.current
  obtain ⟨c', hk', hs'⟩ := ht c hk
  rw [hc]
  exact ⟨c', hk', fun hr => hs (hs' hr)⟩

theorem Quiet.current (q : Quiet T D M K B s s') : s'.current = s.current ∧ s'.idle = s.idle ∧
    ∀ c, s.tasks s.current = some c → (∀ u l, s.tasks u = some l → u ≠ s.fresh) →
      ∃ c', s'.tasks s.current = some c' ∧ c'.state = c.state := by
  cases q with
  | same e _ =>
    refine ⟨e.current, e.idle, fun c hc _ => ?_⟩
    obtain ⟨kont, msgVal, hself, _⟩ := e.self c hc
    exact ⟨_, hself, rfl⟩
  | wake _ ht _ _ _ _ _ =>
    exact ⟨rfl, rfl, fun c hc _ => ⟨c, (setTask_tasks_of_ne (Ne.symm ht)).trans hc, rfl⟩⟩
  | die _ ht _ _ _ hm _ _ =>
    obtain ⟨hcur, hidle, htask⟩ := hm.current
    refine ⟨hcur, hidle, fun c hc _ => ⟨c, ?_, rfl⟩⟩
    exact htask.trans ((setTask_tasks_of_ne (Ne.symm ht)).trans hc)
  | reap _ _ ht _ _ =>
    exact ⟨rfl, rfl, fun c hc _ => ⟨c, (freed_tasks_of_ne (Ne.symm ht)).trans hc, rfl⟩⟩
  | reapChild _ _ _ ht _ _ _ =>
    exact ⟨rfl, rfl, fun c hc _ => ⟨c, (freed_tasks_of_ne (Ne.symm ht)).trans hc, rfl⟩⟩
  | start _ _ _ _ _ _ =>
    exact ⟨rfl, rfl, fun c hc hf => ⟨c, (born_tasks_of_ne (hf _ c hc)).trans hc, rfl⟩⟩
  | @rank t k c p hk _ _ _ _ =>
    have hcur : (s.ranked t k p).current = s.current ∧ (s.ranked t k p).idle = s.idle ∧
        (s.ranked t k p).tasks = (s.setTask t { k with priority := p }).tasks := by
      unfold ranked
      split <;> exact ⟨rfl, rfl, rfl⟩
    refine ⟨hcur.1, hcur.2.1, fun c hc _ => ?_⟩
    rw [hcur.2.2]
    by_cases hu : s.current = t
    · subst hu
      rw [hk] at hc
      cases hc
      exact ⟨_, setTask_tasks_self, rfl⟩
    · exact ⟨c, (setTask_tasks_of_ne hu).trans hc, rfl⟩
  | create _ _ _ => exact ⟨rfl, rfl, fun c hc _ => ⟨c, hc, rfl⟩⟩
  | drop _ _ _ => exact ⟨rfl, rfl, fun c hc _ => ⟨c, hc, rfl⟩⟩
  | leak _ _ => exact ⟨rfl, rfl, fun c hc _ => ⟨c, hc, rfl⟩⟩
  | sawStart _ _ => exact ⟨rfl, rfl, fun c hc _ => ⟨c, hc, rfl⟩⟩

theorem Placed.observe (h : Placed s) (o : Obs) : Placed (s.observe o) :=
  ⟨h.home, h.unlinked, h.idle, h.global, h.children, h.parent, h.fresh, h.pids, h.pidmap,
    fun t k hk hz => (h.konts t k hk hz).transfer rfl (Nat.le_refl _)
      (fun _ m hm hp => ⟨m, hm, hp⟩) fun _ m _ hm => ⟨m, hm, rfl⟩, h.range⟩

theorem Placed.markPid {pid : Nat} (h : Placed s) : Placed (s.markPid pid) := by
  refine ⟨h.home, h.unlinked, h.idle, h.global, h.children, h.parent, h.fresh, h.pids, ?_,
    fun t k hk hz => (h.konts t k hk hz).transfer rfl (Nat.le_refl _)
      (fun _ m hm hp => ⟨m, hm, hp⟩) fun _ m _ hm => ⟨m, hm, rfl⟩, h.range⟩
  intro t k hk hz
  by_cases he : k.pid = pid
  · simp [State.markPid, he]
  · simpa [State.markPid, Function.update_of_ne he] using h.pidmap t k hk hz

theorem Quiet.placed (q : Quiet T D M K B s s') (h : Inv s) : Placed s' := by
  cases q with
  | same e _ =>
    obtain ⟨c, hc, _⟩ := h.current
    exact e.relocate h.toPlaced hc
  | wake hk _ hz _ _ _ _ => exact h.toPlaced.woken hk hz rfl rfl rfl
  | die hk _ hi hz _ hm _ _ => exact hm.placed (h.toPlaced.died hk hz hi)
  | reap hk hz _ hp _ =>
    refine h.toPlaced.freed hk hz (h.nobody_waits hk fun u l hl hu hlz => Or.inl ?_)
    rcases hp with hp | ⟨p, m, hp, hm, hmz⟩
    · exact Option.some.inj (hu.symm.trans hp)
    · obtain rfl := Option.some.inj (hp.symm.trans hu)
      rw [hl] at hm
      cases hm
      exact absurd hmz hlz
  | reapChild hk hz hp _ hc hkont _ =>
    refine (h.toPlaced.freed hk hz (h.nobody_waits hk fun u l hl hu _ => Or.inr ?_)).observe _
    obtain rfl := Option.some.inj (hp.symm.trans hu)
    rw [hc] at hl
    cases hl
    exact hkont
  | start hpid _ _ _ _ _ => exact h.toPlaced.born hpid
  | rank hk hi hz _ _ => exact h.toPlaced.ranked hk hi hz
  | @create id q _ hn hid =>
    refine h.toPlaced.setQueues (fun _ hd _ hu => ?_) fun j hj => ?_
    · cases hd with
      | waitingSenders j | waitingReceivers j =>
        by_cases hj : j = id
        · subst hj
          simp [Head.Used]
        · simpa [Head.Used, Function.update_of_ne hj] using hu
      | _ => trivial
    · by_cases he : j = id
      · exact he ▸ hid
      · rw [Function.update_of_ne he] at hj
        exact h.range j hj
  | @drop id _ h1 h2 =>
    refine h.toPlaced.setQueues (fun t hd hl hu => ?_) fun j hj => ?_
    · have hm := Links.mem_of_link hl
      cases hd with
      | waitingSenders j =>
        have hj : j ≠ id := by
          rintro rfl
          rw [h1] at hm
          cases hm
        simpa [Head.Used, Function.update_of_ne hj] using hu
      | waitingReceivers j =>
        have hj : j ≠ id := by
          rintro rfl
          rw [h2] at hm
          cases hm
        simpa [Head.Used, Function.update_of_ne hj] using hu
      | _ => trivial
    · by_cases he : j = id
      · rw [he, Function.update_self] at hj
        cases hj
      · rw [Function.update_of_ne he] at hj
        exact h.range j hj
  | leak _ _ => exact h.toPlaced.markPid
  | sawStart _ _ => exact h.toPlaced.observe _

theorem Quiet.inv (q : Quiet T D M K B s s') (h : Inv s) : Inv s' := by
  obtain ⟨hc, _, hs⟩ := q.current
  refine h.of_same_current (q.placed h) hc fun c hk => ?_
  obtain ⟨c', hk', he⟩ := hs c hk fun u l hl => h.ne_fresh hl
  exact ⟨c', hk', fun hr => he ▸ hr⟩

theorem Effect.inv (e : Effect T D M K B s s') (h : Inv s) : Inv s' := by
  cases e with
  | quiet q => exact q.inv h
  | exit _ hk hi hr _ hm =>
    obtain ⟨hcur, _, htask⟩ := hm.current
    have hp := hm.placed (h.toPlaced.died hk (by rw [hr]; decide) hi)
    exact h.of_same_current hp hcur fun c hc => ⟨_, htask.trans setTask_tasks_self, nofun⟩
  | @block hd k kont w m _ hk hr hi h1 h2 hu hkont _ _ =>
    refine h.of_same_current (h.toPlaced.blocked hk (by rw [hr]; decide) hi hu h2 hkont) rfl
      fun c hc => ?_
    exact ⟨_, setTask_tasks_self, fun hr => absurd hr h1⟩

theorem Switch.inv (e : Switch s s') (h : Inv s) : Inv s' := by
  cases e with
  | switch hk hs hold => exact h.toPlaced.switched hk hs hold
  | @preempt new k c hk hs hc hr =>
    have hne : new ≠ s.current := ne_of_state hk hc (by rw [hs, hr]; decide)
    have hp := h.toPlaced.woken hc (by rw [hr]; decide) rfl rfl rfl
    refine hp.switched ((setTask_tasks_of_ne hne).trans hk) hs fun c' hc' => ?_
    have hself : (s.woken s.current c).tasks s.current = some { c with state := .ready } :=
      setTask_tasks_self
    have hc' : (s.woken s.current c).tasks s.current = some c' := hc'
    rw [hself] at hc'
    cases hc'
    simp

end State
end DominOS.Process
