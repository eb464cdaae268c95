import DominOS.ProcessQueueView

/-! What the changes that kernel code is made of do to what can be seen of a queue, and the code
that does nothing to it. -/
namespace DominOS.Process
open IntrusiveLists MsgHeap Fallible Relation

def Head.queue : Head → Option Nat
  | .waitingSenders id | .waitingReceivers id => some id
  | _ => none

def Kont.queue : Kont → Option Nat
  | .psendLoop id .. | .psendAdd id _ | .psendRet id _ | .preceiveLoop id .. | .preceiveRet id .. => some id
  | _ => none

theorem Head.queue_eq_none {h : Head} (hm : h.state ≠ .interruptedMsg) : h.queue = none := by
  cases h <;> simp_all [Head.queue, Head.state]

theorem Task.part_of_ne {k : Task} {id c : Nat} (h : k.kont.queue ≠ some id) : k.part id c = none := by
  unfold Task.part
  split <;> simp_all [Kont.queue]

namespace QueueView
variable {v : QueueView} {t : TaskPtr} {part part' : Option Part}

theorem drop_eq (hs : t ∉ v.senders) (hr : t ∉ v.receivers) : v.drop t = v := by
  simp [drop, List.erase_of_not_mem hs, List.erase_of_not_mem hr]

theorem put_eq (h : v.inside t = part) : v.put t part = v := by
  simp [put, ← h]

@[simp] theorem put_put : (v.put t part).put t part' = v.put t part' := by simp [put]

@[simp] theorem put_inside : (v.put t part).inside t = part := by simp [put]

theorem put_inside_of_ne {u : TaskPtr} (hu : u ≠ t) : (v.put t part).inside u = v.inside u := by
  simp [put, hu]

theorem drop_put {u : TaskPtr} : (v.put u part).drop t = (v.drop t).put u part := rfl

end QueueView

namespace State
variable {s s' : State} {t u : TaskPtr} {k l : Task} {h : Head} {kont : Kont} {id : Nat} {q : MQueue}
  {msg : Msg} {p : Int} {K : Prop}

def Away (s : State) (id : Nat) (t : TaskPtr) : Prop :=
  ∀ hd, s.queues.link t = some hd → hd.queue ≠ some id

theorem view_drop (he : s.Away id t) : (s.view id).drop t = s.view id := by
  refine QueueView.drop_eq (fun hm => ?_) fun hm => ?_
  · exact he _ (Links.link_of_mem hm) rfl
  · exact he _ (Links.link_of_mem hm) rfl

theorem view_put {part : Option Part} (hp : s.part id t = part) : (s.view id).put t part = s.view id :=
  QueueView.put_eq hp

theorem part_eq (hk : s.tasks t = some k) (hz : k.state ≠ .zombie) : s.part id t = k.part id s.cptRst := by
  simp [part, hk, hz]

theorem part_zombie (hk : s.tasks t = some k) (hz : k.state = .zombie) : s.part id t = none := by
  simp [part, hk, hz]

theorem part_congr (ht : s'.tasks t = s.tasks t) (hc : s'.cptRst = s.cptRst) :
    s'.part id t = s.part id t := by
  simp only [part, ht, hc]

theorem part_silent (hk : s.tasks t = some k) (hq : k.kont.queue ≠ some id) : s.part id t = none := by
  unfold part
  rw [hk]
  simp only [Task.part_of_ne hq, ite_self]

theorem view_congr (hq : s'.mqueues id = s.mqueues id) (hl : s'.queues = s.queues)
    (hp : ∀ t, s'.part id t = s.part id t) : s'.view id = s.view id := by
  ext1
  · simp only [view, contents, hq]
  · simp only [view, hl]
  · simp only [view, hl]
  · exact funext hp

theorem view_same (hq : s'.mqueues id = s.mqueues id) (hl : s'.queues = s.queues)
    (ht : s'.tasks = s.tasks) (hc : s'.cptRst = s.cptRst) : s'.view id = s.view id :=
  view_congr hq hl fun t => part_congr (congrFun ht t) hc

theorem setTask_part (id : Nat) : (s.setTask t k).part id =
    Function.update (s.part id) t (if k.state = .zombie then none else k.part id s.cptRst) := by
  funext u
  by_cases hu : u = t
  · subst hu
    simp [part, setTask]
  · rw [Function.update_of_ne hu]
    exact part_congr (setTask_tasks_of_ne hu) rfl

theorem setTask_view (hz : k.state ≠ .zombie) :
    (s.setTask t k).view id = (s.view id).put t (k.part id s.cptRst) := by
  have hp := setTask_part (s := s) (t := t) (k := k) id
  rw [if_neg hz] at hp
  exact QueueView.ext rfl rfl rfl hp

theorem move_view (hh : h.queue ≠ some id) : (s.move h t).view id = (s.view id).drop t := by
  ext1
  · rfl
  · exact Links.members_move_of_ne (by rintro rfl; exact hh rfl)
  · exact Links.members_move_of_ne (by rintro rfl; exact hh rfl)
  · rfl

theorem woken_view : (s.woken t k).view id = ((s.view id).drop t).put t (k.part id s.cptRst) := by
  unfold woken
  rw [move_view (h := .ready) nofun, setTask_view (show TaskState.ready ≠ .zombie by decide)]
  rfl

theorem died_view {r : Int} : (s.died t k r).view id = ((s.view id).drop t).put t none := by
  unfold died
  rw [move_view (h := .zombie) nofun]
  exact QueueView.ext rfl rfl rfl (setTask_part id)

theorem freed_view : (s.freed t).view id = ((s.view id).drop t).put t none := by
  refine QueueView.ext rfl rfl rfl (funext fun u => ?_)
  by_cases hu : u = t
  · subst hu
    simp [view, part, freed, QueueView.put, QueueView.drop]
  · rw [QueueView.put_inside_of_ne hu]
    exact part_congr (freed_tasks_of_ne hu) rfl

theorem wentOn_view {c : Ctl} (hz : k.state ≠ .zombie) : (s.wentOn k kont c).view id =
    (s.view id).put s.current (({ k with kont := kont } : Task).part id s.cptRst) :=
  setTask_view (s := s) (k := { k with kont := kont }) hz

theorem blocked_view (hh : h.queue ≠ some id) (hz : h.state ≠ .zombie) :
    (s.blocked h k kont).view id = ((s.view id).drop s.current).put s.current
      (({ k with kont := kont } : Task).part id s.cptRst) := by
  have hmove := move_view (s := s.setTask s.current { k with state := h.state, kont := kont })
    (t := s.current) hh
  rw [setTask_view hz] at hmove
  exact hmove

theorem switched_view :
    (s.switched t k).view id = ((s.view id).drop t).put t (k.part id s.cptRst) :=
  QueueView.ext rfl rfl rfl
    (setTask_part (s := s) (t := t) (k := { k with state := .running, firstStart := false }) id)

theorem Placed.away (hi : Placed s) (hk : s.tasks t = some k) (hm : k.state ≠ .interruptedMsg) :
    s.Away id t := by
  intro hd hl
  have hh := hi.home t k hk
  unfold Home at hh
  rw [hl] at hh
  rw [Head.queue_eq_none (by rw [hh.1]; exact hm)]
  nofun

theorem Placed.away_fresh (hi : Placed s) (hk : s.tasks t = none) : s.Away id t := by
  intro hd hl
  rw [hi.unlinked t hk] at hl
  cases hl

theorem Mail.away (hm : Mail K s) (hp : s.part id t = none) : s.Away id t := by
  intro hd hl hq
  cases hd with
  | waitingSenders j =>
    cases hq
    obtain ⟨msg, rst, ⟨k, hk, hz, hkont, _⟩, _⟩ := hm.sending t id hl
    rw [part_eq hk hz] at hp
    simp [Task.part, hkont] at hp
  | waitingReceivers j =>
    cases hq
    obtain ⟨p, rst, v, ⟨k, hk, hz, hkont, _⟩, _⟩ := hm.receiving t id hl
    rw [part_eq hk hz] at hp
    simp [Task.part, hkont] at hp
  | _ => cases hq

theorem part_unborn (hk : s.tasks t = none) : s.part id t = none := by
  simp [part, hk]

theorem Serving.part (hr : s.Serving) : s.part id s.current = none := by
  obtain ⟨k, hk, _, hkont⟩ := hr
  exact part_silent hk (by rw [hkont]; nofun)

theorem Serving.away (hr : s.Serving) (hi : Placed s) : s.Away id s.current := by
  obtain ⟨k, hk, hs, _⟩ := hr
  exact hi.away hk (by rw [hs]; decide)

abbrev Looks (id : Nat) (v : QueueView) (x : Except Fault State) : Prop :=
  Post (Bad False False) x fun s' => s'.view id = v

theorem not_bad (e : Fault) : ¬ Bad False False e := by
  cases e <;> exact id

theorem ret_looks {v : Int} : Looks id (s.view id) (s.ret v) := .ok (view_same rfl rfl rfl rfl)

theorem goOn_looks {c : Ctl} (hk : s.tasks s.current = some k)
    (h : k.state = .zombie ∨ s.part id s.current = none ∧ kont.queue ≠ some id) :
    Looks id (s.view id) (s.goOn c kont) := by
  refine .of_eq (goOn_eq hk) ?_
  by_cases hz : k.state = .zombie
  · refine view_congr rfl rfl fun u => ?_
    by_cases hu : u = s.current
    · subst hu
      rw [part_zombie hk hz]
      exact part_zombie wentOn_self hz
    · exact part_congr (setTask_tasks_of_ne hu) rfl
  · obtain ⟨hp, hq⟩ := h.resolve_left hz
    rw [wentOn_view hz, Task.part_of_ne hq]
    exact view_put hp

theorem Mourned.view {parent : Option TaskPtr} (m : Mourned s parent s') (hi : Placed s) :
    s'.view id = s.view id := by
  cases m with
  | alone _ => rfl
  | woken _ hl hs _ =>
    rw [woken_view, view_drop (hi.away hl (by rw [hs]; decide)), view_put]
    exact part_eq hl (by rw [hs]; decide)

theorem exitTask_looks (id : Nat) {r : Int} (hi : Inv s) (hrun : s.Running) (hk : s.tasks t = some k)
    (hidle : t ≠ s.idle) (hz : k.state ≠ .zombie) :
    Post (Bad False False) (s.exitTask t r) fun x => x.1 = 0 ∧
      x.2.view id = ((s.view id).drop t).put t none ∧ x.2.current = s.current ∧
      x.2.trace = .exited t r :: s.trace ∧ x.2.tasks t = some { k with
        state := .zombie, priority := deathPriority s.totalTicks, retval := r } := by
  refine (exitTask_spec hi hrun hk hidle hz nofun).mono fun ⟨n, w⟩ ⟨h0, hm⟩ => ?_
  have hm : Mourned (s.died t k r) k.parent w := hm
  have hview : w.view id = (s.died t k r).view id := hm.view (hi.toPlaced.died hk hz hidle)
  rw [died_view] at hview
  refine ⟨h0, hview, ?_, ?_, ?_⟩
  · cases hm <;> rfl
  · cases hm <;> rfl
  · have hself : (s.died t k r).tasks t = some { k with
        state := .zombie, priority := deathPriority s.totalTicks, retval := r } := setTask_tasks_self
    cases hm with
    | alone _ => exact hself
    | woken _ hl hs _ =>
      refine (woken_of_ne ?_).trans hself
      rintro rfl
      rw [hself] at hl
      cases hl
      cases hs

end State
end DominOS.Process
