import DominOS.ProcessLifeSpec

/-! `wait_clock`, wait.c and prio.c on a state that satisfies the invariant. -/
namespace DominOS.Process
open IntrusiveLists Fallible Relation
namespace State
variable {s s' s₀ : State} {t u : TaskPtr} {k c : Task} {h : Head} {A D T K R L : Prop} {r : Int}
  {B : State → StartArgs → Prop}

theorem move_queues (hq : s'.queues = s.queues) (hp : ∀ u, s'.priorityOf u = s.priorityOf u) :
    (s'.move h t).queues = (s.move h t).queues := by
  have hb : s'.before = s.before := by
    funext u v
    simp only [before, hp]
  simp only [move, hq]
  congr!

theorem setTask_move {l : Task} (hp : l.priority = k.priority) :
    ((s.setTask t k).move h u).setTask t l = (s.setTask t l).move h u := by
  have hq : ((s.setTask t l).move h u).queues = ((s.setTask t k).move h u).queues := by
    refine move_queues rfl fun v => ?_
    by_cases hv : v = t
    · subst hv
      simp [priorityOf, hp]
    · simp only [priorityOf, setTask_tasks_of_ne hv]
  simp only [move, setTask, Function.update_idem] at hq ⊢
  rw [hq]

theorem block_eq {kont : Kont} (hl : s.queues.link s.current = none)
    (hk : s.tasks s.current = some k) (hr : k.state = .running) :
    (do
      let s ← s.setTaskState s.current h.state h
      s.callSchedule kont) = .ok (s.blocked h k kont) := by
  have hset : s.setTaskState s.current h.state h =
      .ok ((s.setTask s.current { k with state := h.state }).move h s.current) :=
    setTaskState_eq hk (by rw [hr]; exact Ne.symm h.state_ne_running)
      ⟨fun h => absurd rfl h.1, fun h => absurd hl h⟩
  have hself : ((s.setTask s.current { k with state := h.state }).move h s.current).tasks
      s.current = some { k with state := h.state } := setTask_tasks_self
  rw [hset, ok_bind]
  unfold callSchedule
  rw [goOn_eq hself]
  refine congrArg (fun s : State => Except.ok (s.setCtl .sched)) ?_
  exact setTask_move rfl

theorem blocked_spec {kont : Kont} {w : Nat} (q : Moves T D K R L B s₀ s)
    (hk : s.tasks s.current = some k) (hr : k.state = .running) (hidle : s.current ≠ s.idle)
    (hready : h.state ≠ .ready) (hz : h.state ≠ .zombie) (hm : h.state ≠ .interruptedMsg)
    (hu : h.Used s.mqueues) (hkont : s.KontOk s.current kont) (hsil : kont.Silent)
    (hsil' : k.kont = .iret) (hw : A → h.state = .sleeping → s.totalTicks < w)
    (he : h.state = .interruptedChild → s.Expects kont) :
    Outcome A T D K R L B s₀ (s.blocked h { k with wakeTime := w } kont) := by
  have hself : (s.blocked h { k with wakeTime := w } kont).tasks s.current =
      some { k with state := h.state, wakeTime := w, kont := kont } := setTask_tasks_self
  refine ⟨?_, fun h => absurd rfl h, nofun, fun hA _ l hl hs => ?_⟩
  · have hb : Moves False D K R L B s₀ (s.blocked h { k with wakeTime := w } kont) :=
      (q.mono False.elim).tail (.plain (.block (m := k.msgVal) id hk hr hidle hready hz hu hkont
        (fun _ => ⟨hm, hsil, by rw [hsil']; trivial⟩) he))
    exact hb.mono fun h => h.2 rfl
  · have hl : (s.blocked h { k with wakeTime := w } kont).tasks s.current = some l := hl
    rw [hself] at hl
    cases hl
    exact hw hA hs

theorem waitClock_eq {clock : Nat} (hi : Inv s) (hk : s.tasks s.current = some k)
    (hr : k.state = .running) :
    s.waitClock clock = .ok (s.blocked .sleeping { k with wakeTime := clock % 2 ^ 32 } (.ret 0)) := by
  unfold waitClock
  rw [task_ok hk, ok_bind]
  have hself : (s.setTask s.current { k with wakeTime := clock % 2 ^ 32 }).tasks s.current =
      some { k with wakeTime := clock % 2 ^ 32 } := setTask_tasks_self
  have hblock : (s.setTask s.current { k with wakeTime := clock % 2 ^ 32 }).blocked .sleeping
      { k with wakeTime := clock % 2 ^ 32 } (.ret 0) =
      s.blocked .sleeping { k with wakeTime := clock % 2 ^ 32 } (.ret 0) := by
    unfold blocked
    rw [show (s.setTask s.current { k with wakeTime := clock % 2 ^ 32 }).current = s.current from rfl,
      setTask_setTask]
  have hl : (s.setTask s.current { k with wakeTime := clock % 2 ^ 32 }).queues.link s.current = none :=
    hi.unlinked_current hk hr
  exact (block_eq (h := .sleeping)
    (s := s.setTask s.current { k with wakeTime := clock % 2 ^ 32 }) hl hself hr).trans
      (congrArg _ hblock)

theorem waitClock_spec {clock : Nat} (hi : Inv s) (hrun : s.Serving) (hidle : s.current ≠ s.idle)
    (hw : A → s.totalTicks < clock % 2 ^ 32) :
    Post (Bad A D) (s.waitClock clock) (Outcome A T D K R L B s) := by
  obtain ⟨k, hk, hr, hkont⟩ := hrun
  refine .of_eq (waitClock_eq hi hk hr) ?_
  exact blocked_spec .refl hk hr hidle nofun nofun nofun trivial (.of_ne hidle nofun nofun) trivial hkont
    (fun hA _ => hw hA) nofun

theorem isZombie_post : Post (fun _ => False) (s.isZombie t) fun b => b = true →
    ∃ k, s.tasks t = some k ∧ k.state = .zombie :=
  (task_post s t).bind fun k hk => .ok fun hb => ⟨k, hk, by simpa using hb⟩

theorem isZombie_eq (hk : s.tasks t = some k) :
    s.isZombie t = .ok (decide (k.state = .zombie)) := by
  unfold isZombie
  rw [task_ok hk]
  rfl

theorem findZombie_spec {l : List TaskPtr} (hl : ∀ t ∈ l, ∃ k, s.tasks t = some k) :
    ∃ o, s.findZombie l = .ok o ∧ (∀ t, o = some t → t ∈ l ∧
      ∃ k, s.tasks t = some k ∧ k.state = .zombie) ∧
      (o = none → ∀ t ∈ l, ∀ k, s.tasks t = some k → k.state ≠ .zombie) := by
  induction l with
  | nil => exact ⟨none, rfl, nofun, nofun⟩
  | cons c rest ih =>
    obtain ⟨k, hk⟩ := hl c (by simp)
    unfold findZombie
    rw [isZombie_eq hk, ok_bind]
    by_cases hz : k.state = .zombie
    · refine ⟨some c, by simp [hz], fun t ht => ?_, nofun⟩
      cases ht
      exact ⟨by simp, k, hk, hz⟩
    · obtain ⟨o, ho, hmem, hnone⟩ := ih fun t ht => hl t (List.mem_cons_of_mem _ ht)
      refine ⟨o, by simpa [hz] using ho, fun t ht => ?_, fun hn t ht l hl' => ?_⟩
      · obtain ⟨hm, hex⟩ := hmem t ht
        exact ⟨List.mem_cons_of_mem _ hm, hex⟩
      · rcases List.mem_cons.mp ht with rfl | ht
        · rw [hk] at hl'
          cases hl'
          exact hz
        · exact hnone hn t ht l hl'

def ReapsLeaf (s : State) : Prop :=
  ∀ k c, s.tasks s.current = some k →
    (∃ r, k.kont = .waitAnyChild r ∧
      s.findZombie (s.siblings.members s.current) = .ok (some c)) ∨
    (∃ r, k.kont = .waitSpecificChild c r ∧ s.isZombie c = .ok true) → s.Childless c

theorem reapChild_spec {c : Task} (hi : Inv s) (hc : s.tasks s.current = some c)
    (hr : c.state = .running) (hkont : c.kont = .iret) (hk : s.tasks t = some k)
    (hz : k.state = .zombie) (hp : k.parent = some s.current) (hidle : s.current ≠ s.idle)
    (q : Moves T D K R L B s₀ s) (hd : D → s.NoDangling ∧ s.Childless t) :
    Post (Bad A D) (s.reapChild t) (Outcome A T D K R L B s₀) := by
  have hne : t ≠ s.current := by
    rintro rfl
    rw [hk] at hc
    cases hc
    rw [hz] at hr
    cases hr
  unfold reapChild
  rw [task_ok hk, ok_bind]
  refine (freeTask_spec hi fun hD => (hd hD).1).bind fun s' hs => ?_
  subst hs
  refine ret_spec (q.tail (.plain (.quiet (.reapChild hk hz hp hne hc hkont
    (fun hD => (hd hD).2) ⟨hr, hidle⟩)))) ?_
  exact ⟨c, (freed_tasks_of_ne (Ne.symm hne)).trans hc, hr, hkont⟩

theorem waitAnyChild_spec {c : Task} {retvalp : UserPtr} (hi : Inv s)
    (hc : s.tasks s.current = some c) (hr : c.state = .running) (hkont : c.kont = .iret)
    (q : Moves T D K R L B s₀ s) (hidle : s.current ≠ s.idle)
    (hd : D → s.NoDangling ∧ ∀ t, s.findZombie (s.siblings.members s.current) = .ok (some t) →
      s.Childless t) :
    Post (Bad A D) (s.waitAnyChild retvalp) (Outcome A T D K R L B s₀) := by
  unfold waitAnyChild
  split
  · exact ret_spec q ⟨c, hc, hr, hkont⟩
  have hchild (t : TaskPtr) (ht : t ∈ s.siblings.members s.current) :
      ∃ k, s.tasks t = some k ∧ k.parent = some s.current :=
    (hi.children t s.current).mp (Links.link_of_mem ht)
  obtain ⟨o, ho, hmem, hnone⟩ := findZombie_spec fun t ht => (hchild t ht).imp fun _ h => h.1
  rw [ho, ok_bind]
  cases o with
  | some t =>
    obtain ⟨hm, k, hk, hz⟩ := hmem t rfl
    obtain ⟨k', hk', hp⟩ := hchild t hm
    rw [hk] at hk'
    cases hk'
    exact reapChild_spec hi hc hr hkont hk hz hp hidle q fun hD => ⟨(hd hD).1, (hd hD).2 t ho⟩
  | none =>
    refine .of_eq (block_eq (h := .interruptedChild) (hi.unlinked_current hc hr) hc hr) ?_
    refine blocked_spec (w := c.wakeTime) q hc hr hidle nofun nofun nofun trivial (.of_ne hidle nofun nofun)
      trivial hkont nofun fun _ t l hl hp => ?_
    exact hnone rfl t (Links.mem_of_link ((hi.children t _).mpr ⟨l, hl, hp⟩)) l hl

theorem waitSpecificChild_spec {c k : Task} {retvalp : UserPtr} (hi : Inv s)
    (hc : s.tasks s.current = some c) (hr : c.state = .running) (hkont : c.kont = .iret)
    (q : Moves T D K R L B s₀ s) (hidle : s.current ≠ s.idle) (hk : s.tasks t = some k)
    (hp : k.parent = some s.current)
    (hd : D → s.NoDangling ∧ (s.isZombie t = .ok true → s.Childless t)) :
    Post (Bad A D) (s.waitSpecificChild t retvalp) (Outcome A T D K R L B s₀) := by
  unfold waitSpecificChild
  have hzombie := isZombie_eq hk
  rw [hzombie, ok_bind]
  by_cases hz : k.state = .zombie
  · simp only [hz, decide_true, if_true]
    refine reapChild_spec hi hc hr hkont hk hz hp hidle q fun hD => ⟨(hd hD).1, (hd hD).2 ?_⟩
    rw [hzombie, hz]
    rfl
  · simp only [hz, decide_false, Bool.false_eq_true, if_false]
    refine .of_eq (block_eq (h := .interruptedChild) (hi.unlinked_current hc hr) hc hr) ?_
    refine blocked_spec (w := c.wakeTime) q hc hr hidle nofun nofun nofun trivial ?_ trivial hkont nofun
      fun _ l hl => by
        rw [hk] at hl
        cases hl
        exact hz
    refine ⟨fun h => absurd h hidle, fun c' r' he => ?_, nofun⟩
    cases he
    exact ⟨k, hk, hp⟩

theorem waitpid_spec {pid : Int} {retvalp : UserPtr} (hi : Inv s) (hrun : s.Serving)
    (hidle : s.current ≠ s.idle) :
    Post (Bad A D) (s.waitpid pid retvalp) (Outcome A T D K R L B s) := by
  unfold waitpid
  split
  · exact ret_spec .refl hrun
  split
  · exact continueAt_spec .refl hrun (.of_ne hidle nofun nofun) trivial
  split
  · exact ret_spec .refl hrun
  split
  · exact ret_spec .refl hrun
  rename_i t ht
  refine continueAt_spec .refl hrun ⟨fun h => absurd h hidle, fun c r he => ?_, nofun⟩ trivial
  cases he
  exact (hi.children t s.current).mp (Links.link_of_mem (List.mem_of_find?_eq_some ht))

theorem getprio_spec {pid : Int} (hi : Inv s) (hrun : s.Serving) :
    Post (Bad A D) (s.getprio pid) (Outcome A T D K R L B s) := by
  unfold getprio
  split
  · exact ret_spec .refl hrun
  · rename_i t ht
    obtain ⟨k, hk, _⟩ := hi.pidToTask ht
    rw [task_ok hk, ok_bind]
    exact ret_spec .refl hrun

theorem queueUpdate_eq (hl : s.queues.link t ≠ none) : s.queueUpdate t h = .ok (s.move h t) := by
  unfold queueUpdate
  rw [queueDel_eq hl, ok_bind, queueAdd_eq Links.link_erase_self, move_unlink]

theorem Placed.queueFromState (hi : Placed s) (hk : s.tasks t = some k) (hz : k.state ≠ .zombie) :
    s.queueFromState k.state k.pid = s.queues.link t := by
  have hh := hi.home t k hk
  cases hs : k.state with
  | startup => exact absurd hs hh.not_startup
  | running => exact (hh.running hs).2.symm
  | zombie => exact absurd hs hz
  | ready => exact (hh.link_eq (h := .ready) hs.symm (by rw [hs]; decide)).symm
  | sleeping => exact (hh.link_eq (h := .sleeping) hs.symm (by rw [hs]; decide)).symm
  | interruptedChild => exact (hh.link_eq (h := .interruptedChild) hs.symm (by rw [hs]; decide)).symm
  | interruptedMsg =>
    obtain ⟨hd, hq, hl⟩ := (hi.queueFromMsg hk hz).1 hs
    exact hq.trans hl.symm

theorem updateQueuePriority_eq {p : Int} (hi : Placed s) (hk : s.tasks t = some k)
    (hz : k.state ≠ .zombie) :
    (s.setTask t { k with priority := p }).updateQueuePriority t k = .ok (s.ranked t k p) := by
  have hp := hi.setPriority (p := p) hk
  have hself : (s.setTask t { k with priority := p }).tasks t = some { k with priority := p } :=
    setTask_tasks_self
  have hfrom := hp.queueFromState hself hz
  have hlink : (s.setTask t { k with priority := p }).queues.link t = s.queues.link t := rfl
  simp only [updateQueuePriority, ranked, hfrom, hlink]
  cases hl : s.queues.link t with
  | none => rfl
  | some hd =>
    refine queueUpdate_eq ?_
    rw [show (s.setTask t { k with priority := p }).queues = s.queues from rfl, hl]
    simp

theorem ranked_frame {p : Int} : (s.ranked t k p).current = s.current ∧
    (s.ranked t k p).idle = s.idle ∧
    (s.ranked t k p).tasks = (s.setTask t { k with priority := p }).tasks ∧
    (s.ranked t k p).ctl = s.ctl := by
  unfold ranked
  split <;> exact ⟨rfl, rfl, rfl, rfl⟩

theorem ranked_self {p : Int} : (s.ranked t k p).tasks t = some { k with priority := p } := by
  rw [(ranked_frame (s := s) (t := t) (k := k) (p := p)).2.2.1]
  exact setTask_tasks_self

theorem ranked_of_ne {p : Int} (hu : u ≠ t) : (s.ranked t k p).tasks u = s.tasks u := by
  rw [(ranked_frame (s := s) (t := t) (k := k) (p := p)).2.2.1]
  exact setTask_tasks_of_ne hu

theorem ranked_serving {p : Int} (hk : s.tasks t = some k) (hr : s.Serving) :
    (s.ranked t k p).Serving := by
  obtain ⟨c, hc, hs, hkont⟩ := hr
  obtain ⟨hcur, _, htasks, _⟩ := ranked_frame (s := s) (t := t) (k := k) (p := p)
  unfold Serving
  rw [hcur, htasks]
  by_cases ht : s.current = t
  · subst ht
    rw [hk] at hc
    cases hc
    exact ⟨_, setTask_tasks_self, hs, hkont⟩
  · exact ⟨c, (setTask_tasks_of_ne ht).trans hc, hs, hkont⟩

theorem ranked_top {p : Int} (ht : k.state = .running) (hh : s.Home t k) :
    (s.ranked t k p).queueTop .ready = s.queueTop .ready := by
  simp only [ranked, (hh.running ht).2]
  rfl

theorem msgReinsert_eq (hi : Placed s) (hk : s.tasks t = some k) (hm : k.state = .interruptedMsg) :
    s.msgReinsert t k.pid = .ok (s.ranked t k k.priority) := by
  obtain ⟨hd, hq, hl⟩ := (hi.queueFromMsg hk (by rw [hm]; decide)).1 hm
  unfold msgReinsert
  simp only [hq]
  rw [queueUpdate_eq (by rw [hl]; simp)]
  simp only [ranked, hl]
  rw [show ({ k with priority := k.priority } : Task) = k from rfl, setTask_same hk]

/-- A task that waits for a message is put in its place a second time, and nobody is scheduled. -/
theorem chprio_waiting {p : Int} (hi : Inv s) (hk : s.tasks t = some k) (hti : t ≠ s.idle)
    (hc : s.tasks s.current = some c) (hr : c.state = .running) (hkont : c.kont = .iret)
    (hm : k.state = .interruptedMsg) :
    Post (Bad A D) ((s.ranked t k p).msgReinsert t k.pid >>= fun s' => s'.ret k.priority)
      (Outcome A T D K R L B s) := by
  have hz : k.state ≠ .zombie := by
    rw [hm]
    decide
  have hne : t ≠ s.current := by
    rintro rfl
    rw [hk] at hc
    cases hc
    rw [hr] at hm
    cases hm
  obtain ⟨hcur, hcidle, _, _⟩ := ranked_frame (s := s) (t := t) (k := k) (p := p)
  have q1 : Quiet T D True K B s (s.ranked t k p) := .rank hk hti hz hc fun _ =>
    ⟨fun _ hs => absurd (hm.symm.trans hs) (by decide), fun h => absurd h hne⟩
  have hi' := q1.inv hi
  have hrun' : (s.ranked t k p).Serving := ranked_serving hk ⟨c, hc, hr, hkont⟩
  have ⟨c', hc', _⟩ := hrun'
  have q2 : Quiet T D True K B (s.ranked t k p)
      ((s.ranked t k p).ranked t { k with priority := p } p) := by
    refine .rank ranked_self (by rw [hcidle]; exact hti) hz hc' fun _ => ⟨fun _ hs => ?_, fun h => ?_⟩
    · rw [show ({ k with priority := p } : Task).state = k.state from rfl, hm] at hs
      cases hs
    · rw [hcur] at h
      exact absurd h hne
  have hre : (s.ranked t k p).msgReinsert t k.pid =
      .ok ((s.ranked t k p).ranked t { k with priority := p } p) :=
    msgReinsert_eq hi'.toPlaced ranked_self hm
  rw [hre, ok_bind]
  have qs : Quiets T D True K B s ((s.ranked t k p).ranked t { k with priority := p } p) :=
    (ReflTransGen.single q1).tail q2
  exact ret_spec qs.moves (ranked_serving ranked_self hrun')

theorem chprio_other {p : Int} (hk : s.tasks t = some k) (hti : t ≠ s.idle)
    (hz : k.state ≠ .zombie) (hc : s.tasks s.current = some c) (hr : c.state = .running)
    (hkont : c.kont = .iret) (hidle : s.current ≠ s.idle) (hne : t ≠ s.current) :
    Post (Bad A D) ((s.ranked t k p).task (s.ranked t k p).current >>= fun current =>
      if k.state = .ready ∧ p > current.priority then
        (s.ranked t k p).callSchedule (.ret k.priority)
      else (s.ranked t k p).ret k.priority) (Outcome A T D K R L B s) := by
  obtain ⟨hcur, hcidle, _, _⟩ := ranked_frame (s := s) (t := t) (k := k) (p := p)
  have hc' : (s.ranked t k p).tasks (s.ranked t k p).current = some c := by
    rw [hcur]
    exact (ranked_of_ne (Ne.symm hne)).trans hc
  rw [task_ok hc', ok_bind]
  split
  · have q : Quiet False D True K B s (s.ranked t k p) := .rank hk hti hz hc nofun
    refine callSchedule_spec (.single (.plain (.quiet q))) hc' (by rw [hr]; decide)
      (.of_ne ?_ nofun nofun) trivial (by rw [hkont]; trivial)
    rw [hcur, hcidle]
    exact hidle
  · rename_i hlow
    have q : Quiet T D True K B s (s.ranked t k p) := .rank hk hti hz hc fun _ =>
      ⟨fun _ hs => not_lt.mp fun hlt => hlow ⟨hs, hlt⟩, fun h => absurd h hne⟩
    exact ret_spec (.single (.plain (.quiet q))) (ranked_serving hk ⟨c, hc, hr, hkont⟩)

/-- The caller gives way when the first ready task is more urgent than it has become. -/
theorem chprio_itself {p : Int} (hi : Inv s) (hk : s.tasks s.current = some k)
    (hr : k.state = .running) (hkont : k.kont = .iret) (hidle : s.current ≠ s.idle)
    (hu : s.queueTop .ready = some u) :
    Post (Bad A D) ((s.ranked s.current k p).task u >>= fun highest =>
      if highest.priority > p then (s.ranked s.current k p).callSchedule (.ret k.priority)
      else (s.ranked s.current k p).ret k.priority) (Outcome A T D K R L B s) := by
  obtain ⟨hcur, hcidle, _, _⟩ := ranked_frame (s := s) (t := s.current) (k := k) (p := p)
  obtain ⟨l, hl, hls, _⟩ := hi.live (queueTop_mem hu)
  have hne : u ≠ s.current := by
    rintro rfl
    rw [hk] at hl
    cases hl
    rw [hr] at hls
    cases hls
  have hz : k.state ≠ .zombie := by
    rw [hr]
    decide
  rw [task_ok ((ranked_of_ne hne).trans hl), ok_bind]
  split
  · have q : Quiet False D True K B s (s.ranked s.current k p) := .rank hk hidle hz hk nofun
    have hself : (s.ranked s.current k p).tasks (s.ranked s.current k p).current =
        some { k with priority := p } := by
      rw [hcur]
      exact ranked_self
    refine callSchedule_spec (.single (.plain (.quiet q))) hself (by rw [hr]; decide)
      (.of_ne ?_ nofun nofun) trivial (by rw [hkont]; trivial)
    rw [hcur, hcidle]
    exact hidle
  · rename_i hlow
    have q : Quiet T D True K B s (s.ranked s.current k p) := by
      refine .rank hk hidle hz hk fun _ => ⟨fun h => absurd rfl h, fun _ w hw => ?_⟩
      rw [hu] at hw
      cases hw
      simp only [priorityOf, hl]
      exact not_lt.mp hlow
    exact ret_spec (.single (.plain (.quiet q))) (ranked_serving hk ⟨k, hk, hr, hkont⟩)

theorem chprio_spec {pid p : Int} (hi : Inv s) (hrun : s.Serving) (hidle : s.current ≠ s.idle)
    (hd : D → s.NoDangling) :
    Post (Bad A D) (s.chprio pid p) (Outcome A T D K R L B s) := by
  unfold chprio
  split
  · exact ret_spec .refl hrun
  rename_i t ht
  split
  · exact ret_spec .refl hrun
  rename_i hti
  have ⟨c, hc, hr, hkont⟩ := hrun
  obtain ⟨k, hk, _, _⟩ := hi.pidToTask ht
  rw [task_ok hk, ok_bind]
  split
  · exact ret_spec .refl hrun
  rename_i hz
  split
  · exact ret_spec .refl hrun
  simp only [updateQueuePriority_eq hi.toPlaced hk hz, ok_bind]
  obtain ⟨hcur, hcidle, _, _⟩ := ranked_frame (s := s) (t := t) (k := k) (p := p)
  split
  · rename_i hm
    exact chprio_waiting hi hk hti hc hr hkont hm
  split
  · rename_i hne
    exact chprio_other hk hti hz hc hr hkont hidle (by rwa [hcur] at hne)
  · rename_i hcurrent
    have he : t = s.current := by
      rw [hcur] at hcurrent
      exact not_not.mp hcurrent
    subst he
    have hkc : c = k := Option.some.inj (hc.symm.trans hk)
    subst hkc
    have htop := ranked_top (p := p) hr (hi.home _ _ hc)
    split
    -- nobody is ready: the code reads a null pointer
    · have q : Quiet False D True K B s (s.ranked s.current c p) := .rank hc hti hz hc nofun
      refine pageFault_spec hi (.single (.plain (.quiet q))) (ranked_serving hc hrun) ?_ fun hD =>
        (Effect.quiet q).noDangling hD hi (hd hD)
      rw [hcur, hcidle]
      exact hidle
    · rename_i highest hh
      exact chprio_itself hi hc hr hkont hidle (htop.symm.trans hh)

end State
end DominOS.Process
