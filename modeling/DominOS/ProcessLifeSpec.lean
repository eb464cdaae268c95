import DominOS.ProcessOutcome

/-! start.c, exit.c and kill.c on a state that satisfies the invariant. -/
namespace DominOS.Process
open IntrusiveLists Fallible Relation
namespace State
variable {s s' s₀ : State} {t u : TaskPtr} {k : Task} {h : Head} {A D T K R L : Prop} {r : Int}
  {B : State → StartArgs → Prop}

theorem allocPid_free {pidmap : Nat → Bool} {pid : Nat} (h : allocPid pidmap = some pid) :
    pidmap pid = false := by
  have main (turns start : Nat) (h : allocPidFrom pidmap turns start = some pid) :
      pidmap pid = false := by
    induction turns generalizing start with
    | zero => cases h
    | succ turns ih =>
      unfold allocPidFrom at h
      split at h
      · split at h
        · cases h
        · exact ih _ h
      · rename_i hn
        cases h
        simpa using hn
  exact main _ _ h

theorem siblingAdd_eq {p : TaskPtr} (hl : s.siblings.link t = none) :
    s.siblingAdd t p = .ok (s.adopt p t) := if_pos hl

theorem globalAdd_eq (hl : s.globalTasks.link t = none) : s.globalAdd t = .ok (s.enlist t) :=
  if_pos hl

theorem Placed.no_sibling (hi : Placed s) (ht : s.tasks t = none) : s.siblings.link t = none := by
  cases hl : s.siblings.link t with
  | none => rfl
  | some p =>
    obtain ⟨k, hk, _⟩ := (hi.children t p).mp hl
    rw [ht] at hk
    cases hk

theorem Placed.no_global (hi : Placed s) (ht : s.tasks t = none) :
    s.globalTasks.link t = none := by
  cases hl : s.globalTasks.link t with
  | none => rfl
  | some p =>
    obtain ⟨k, hk, _⟩ := (hi.global t).mp hl
    rw [ht] at hk
    cases hk

theorem launch_eq {pid : Nat} {a : StartArgs} (hi : Placed s) :
    s.launch pid a = .ok (s.launched pid a) := by
  have hnew : s.tasks s.fresh = none := hi.fresh _ (Nat.le_refl _)
  have hsib : (s.allocTask pid a).siblings.link s.fresh = none := hi.no_sibling hnew
  unfold launch
  rw [siblingAdd_eq hsib, ok_bind]
  have hself : ((s.allocTask pid a).adopt s.current s.fresh).tasks s.fresh =
      some (s.newTask pid a) := setTask_tasks_self
  have hready : ((s.allocTask pid a).adopt s.current s.fresh).setTaskReady s.fresh =
      .ok (((s.allocTask pid a).adopt s.current s.fresh).woken s.fresh (s.newTask pid a)) :=
    setTaskState_eq hself nofun
      ⟨fun h => absurd rfl h.2.1, fun h => absurd (hi.unlinked _ hnew) h⟩
  rw [hready, ok_bind]
  exact globalAdd_eq (hi.no_global hnew)

theorem start_spec {a : StartArgs} (hi : Inv s) (hr : s.Serving) (hB : B s a) :
    Post (Bad A D) (s.start a) (Outcome A T D K R L B s) := by
  unfold start
  split
  · exact ret_spec .refl hr
  rename_i hsize
  split
  · exact ret_spec .refl hr
  rename_i hknown
  split
  · exact ret_spec .refl hr
  rename_i hprio
  have hpass : a.Passes := ⟨Nat.le_of_not_lt hsize, by simpa using hknown, by omega, by omega⟩
  split
  · exact ret_spec .refl hr
  rename_i pid hpid
  split
  · rename_i hmem
    exact ret_spec (.single (.plain (.quiet (.leak ⟨hpass, hmem⟩ hB)))) hr
  rename_i hmem
  split
  · exact .error nofun
  rename_i hframes
  have hfound : a.Passes ∧ a.memory ∧ a.frames :=
    ⟨hpass, by simpa using hmem, by simpa using hframes⟩
  obtain ⟨c, hc, hcr, hkont⟩ := hr
  have hcur : (s.born pid a).tasks (s.born pid a).current = some c :=
    (born_tasks_of_ne (hi.ne_fresh hc)).trans hc
  have hmark : Placed (s.markPid pid) := hi.toPlaced.markPid
  simp only [launch_eq hmark, ok_bind]
  rw [show (s.markPid pid).launched pid a = s.born pid a from rfl, task_ok hcur, ok_bind]
  have hret : (s.born pid a).KontOk (s.born pid a).current (.startRet (s.markPid pid).fresh) := by
    refine .startRet (Nat.lt_succ_self _) fun k hk => ?_
    rw [show (s.markPid pid).fresh = s.fresh from rfl, born_tasks_fresh] at hk
    cases hk
    rfl
  split
  · exact callSchedule_spec (.single (.plain (.quiet (.start (allocPid_free hpid) hc nofun hpid hfound hB)))) hcur
      (by rw [hcr]; decide) hret trivial (by rw [hkont]; trivial)
  · rename_i hlt
    exact continueAt_spec (.single (.plain (.quiet (.start (allocPid_free hpid) hc
      (fun _ => by omega) hpid hfound hB))))
      ⟨c, hcur, hcr, hkont⟩ hret trivial

theorem hasPid_iff {pid : Int} : s.hasPid pid t = true ↔
    ∃ k, s.tasks t = some k ∧ (k.pid : Int) = pid := by
  unfold hasPid
  cases s.tasks t <;> simp

/-- `queue_from_msg` finds the list of a task that waits for a message, and no list
for any other task that is alive. -/
theorem Placed.queueFromMsg (hi : Placed s) (hk : s.tasks t = some k) (hz : k.state ≠ .zombie) :
    (k.state = .interruptedMsg → ∃ hd, s.queueFromMsg k.pid = some hd ∧
      s.queues.link t = some hd) ∧
    (k.state ≠ .interruptedMsg → s.queueFromMsg k.pid = none) := by
  have only {u : TaskPtr} {hd : Head} (hu : u ∈ s.queues.members hd)
      (hm : hd.state = .interruptedMsg) (hp : s.hasPid k.pid u = true) :
      u = t ∧ k.state = .interruptedMsg := by
    obtain ⟨l, hl, hs, _⟩ := hi.live hu
    obtain ⟨l', hl', hpid⟩ := hasPid_iff.mp hp
    rw [hl] at hl'
    cases hl'
    have he : u = t := hi.pids u t l k hl hk (by rw [hs, hm]; decide) hz (Int.ofNat.inj hpid)
    subst he
    rw [hk] at hl
    cases hl
    exact ⟨rfl, hs.trans hm⟩
  have found {hd : Head} (hq : s.queueFromMsg k.pid = some hd) :
      s.queues.link t = some hd ∧ k.state = .interruptedMsg := by
    obtain ⟨id, _, hf⟩ := List.exists_of_findSome?_eq_some hq
    split at hf
    · cases hf
    · split at hf
      · rename_i hany
        cases hf
        obtain ⟨u, hu, hp⟩ := List.any_eq_true.mp hany
        obtain ⟨rfl, hm⟩ := only hu rfl hp
        exact ⟨Links.link_of_mem hu, hm⟩
      · split at hf
        · rename_i hany
          cases hf
          obtain ⟨u, hu, hp⟩ := List.any_eq_true.mp hany
          obtain ⟨rfl, hm⟩ := only hu rfl hp
          exact ⟨Links.link_of_mem hu, hm⟩
        · cases hf
  have hself : s.hasPid k.pid t = true := hasPid_iff.mpr ⟨k, hk, rfl⟩
  constructor
  · intro hm
    cases hq : s.queueFromMsg k.pid with
    | some hd => exact ⟨hd, rfl, (found hq).1⟩
    | none =>
      obtain ⟨hd, hl, hs, hu⟩ := (hi.home t k hk).linked (by rw [hm]; decide)
      have hnone := List.findSome?_eq_none_iff.mp hq
      have hmem := Links.mem_of_link hl
      rw [hm] at hs
      cases hd with
      | waitingSenders id =>
        obtain ⟨q, hq⟩ := Option.isSome_iff_exists.mp hu
        have := hnone id (List.mem_range.mpr (hi.range id hu))
        simp only [hq] at this
        rw [if_pos (List.any_eq_true.mpr ⟨t, hmem, hself⟩)] at this
        cases this
      | waitingReceivers id =>
        obtain ⟨q, hq⟩ := Option.isSome_iff_exists.mp hu
        have := hnone id (List.mem_range.mpr (hi.range id hu))
        simp only [hq] at this
        split at this
        · cases this
        · rw [if_pos (List.any_eq_true.mpr ⟨t, hmem, hself⟩)] at this
          cases this
      | _ => cases hs
  · intro hm
    cases hq : s.queueFromMsg k.pid with
    | none => rfl
    | some hd => exact absurd (found hq).2 hm

theorem Placed.setPriority {p : Int} (hi : Placed s) (hk : s.tasks t = some k) :
    Placed (s.setTask t { k with priority := p }) := by
  have r : Relocated s (s.setTask t { k with priority := p }) t k { k with priority := p } :=
    ⟨rfl, fun _ _ => rfl, rfl, rfl, rfl, rfl, fun _ => rfl, rfl, rfl, hi.home t k hk⟩
  refine hi.relocate hk r (fun hn => hn) ?_ (fun _ _ => rfl) ?_ (fun u l hl hz _ => hi.pidmap u l hl hz)
    (hi.konts t k hk)
  · rintro rfl
    obtain ⟨l, hl, hs⟩ := hi.idle
    rw [hk] at hl
    cases hl
    exact hs
  · rw [show (s.setTask t { k with priority := p }).globalTasks = s.globalTasks from rfl, hi.global, hk]
    simp

theorem globalDel_eq (hl : s.globalTasks.link t ≠ none) : s.globalDel t = .ok (s.delist t) :=
  if_neg hl

theorem unlockInterruptedChildParent_spec {p : TaskPtr} {parent : Option TaskPtr} (hi : Placed s)
    (hp : parent = some p) (hd : D → ∃ l, s.tasks p = some l)
    (hc : ∀ c, s.tasks s.current = some c → c.state ≠ .interruptedChild) :
    Post (Bad A D) (s.unlockInterruptedChildParent parent) (Mourned s parent) := by
  subst hp
  unfold unlockInterruptedChildParent
  cases hl : s.tasks p with
  | none =>
    simp only [State.task, hl, error_bind]
    refine .error fun hD => ?_
    obtain ⟨l, hl'⟩ := hd hD
    rw [hl] at hl'
    cases hl'
  | some l =>
    simp only [task_ok hl, ok_bind]
    split
    · rename_i hs
      have hne : p ≠ s.current := by
        rintro rfl
        exact hc l hl hs
      have hw := hi.setTaskReady hl hne (by rw [hs]; decide) (by rw [hs]; decide) rfl
      rw [setTask_same hl] at hw
      exact .of_eq hw (.woken rfl hl hs hne)
    · rename_i hs
      refine .ok (.alone fun q m hq hm => ?_)
      cases hq
      rw [hl] at hm
      cases hm
      exact hs

def doomed (s : State) (t : TaskPtr) (k : Task) (retval : Int) : State :=
  (((s.delist t).freePid k.pid).setTask t { k with
    priority := deathPriority s.totalTicks, retval := retval }).observe (.exited t retval)

theorem doomed_zombie (hz : k.state ≠ .zombie)
    (hl : (t ≠ s.current ∧ k.state ≠ .startup ∧ k.state ≠ .interruptedMsg) ↔
      s.queues.link t ≠ none) :
    (s.doomed t k r).setTaskZombie t = .ok (((s.doomed t k r).setTask t { k with
      state := .zombie, priority := deathPriority s.totalTicks, retval := r }).move .zombie t) := by
  have hself : (s.doomed t k r).tasks t =
      some { k with priority := deathPriority s.totalTicks, retval := r } := setTask_tasks_self
  unfold setTaskZombie
  rw [setTaskState_eq hself ?_ ?_]
  · exact hz
  · exact hl

theorem doomed_died : ((s.doomed t k r).setTask t { k with
    state := .zombie, priority := deathPriority s.totalTicks, retval := r }).move .zombie t =
      s.died t k r := by
  have hset : (s.doomed t k r).setTask t { k with
      state := .zombie, priority := deathPriority s.totalTicks, retval := r } =
      (((s.delist t).freePid k.pid).setTask t { k with
        state := .zombie, priority := deathPriority s.totalTicks, retval := r }).observe
          (.exited t r) := by
    simp only [doomed, observe, setTask, Function.update_idem]
  rw [hset]
  rfl

theorem doomed_again {n : Nat} (hn : s.totalTicks = n) :
    ((((s.setTask t { k with priority := deathPriority n }).delist t).freePid k.pid).setTask t
      { k with priority := deathPriority n, retval := r }).observe (.exited t r) =
        s.doomed t k r := by
  subst hn
  simp only [doomed, observe, delist, freePid, setTask, Function.update_idem]

theorem exitTask_eq (hi : Inv s) (hk : s.tasks t = some k) (hidle : t ≠ s.idle)
    (hz : k.state ≠ .zombie) (hr : t = s.current → k.state = .running) :
    s.exitTask t r = (do
      let s ← (s.died t k r).unlockInterruptedChildParent k.parent
      .ok (0, s)) := by
  have hp := hi.toPlaced.setPriority (p := deathPriority s.totalTicks) hk
  have hself : (s.setTask t { k with priority := deathPriority s.totalTicks }).tasks t =
      some { k with priority := deathPriority s.totalTicks } := setTask_tasks_self
  obtain ⟨hmsg, hno⟩ := hp.queueFromMsg hself hz
  have hlink : s.globalTasks.link t ≠ none := by
    rw [(hi.global t).mpr ⟨k, hk, hz⟩]
    simp
  unfold exitTask
  rw [if_neg hidle, task_ok hk, ok_bind, if_neg hz]
  by_cases hm : k.state = .interruptedMsg
  · obtain ⟨hd, hq, hl⟩ := hmsg hm
    have hl : (s.setTask t { k with priority := deathPriority s.totalTicks }).queues.link t ≠ none := by
      rw [hl]
      simp
    have hnone : (s.unlink t).queues.link t = none := Links.link_erase_self
    have hdead : ((s.unlink t).doomed t k r).setTaskZombie t = .ok (s.died t k r) := by
      have hiff : (t ≠ s.current ∧ k.state ≠ .startup ∧ k.state ≠ .interruptedMsg) ↔
          (s.unlink t).queues.link t ≠ none := by simp [hm, hnone]
      rw [doomed_zombie hz hiff, ← doomed_died]
      exact congrArg Except.ok (move_unlink (s := (s.doomed t k r).setTask t _))
    have hglobal : ((s.setTask t { k with priority := deathPriority s.totalTicks }).unlink t).globalDel
        t = .ok (((s.unlink t).setTask t { k with priority := deathPriority s.totalTicks }).delist t) :=
      globalDel_eq hlink
    have hagain := doomed_again (s := s.unlink t) (t := t) (k := k) (r := r) (n := s.totalTicks) rfl
    simp only [hq, Option.isSome_some, if_true, queueDel_eq hl, ok_bind, hglobal, hagain, hdead]
  · have hdead : (s.doomed t k r).setTaskZombie t = .ok (s.died t k r) := by
      have hiff : (t ≠ s.current ∧ k.state ≠ .startup ∧ k.state ≠ .interruptedMsg) ↔
          s.queues.link t ≠ none := by
        have hh := hi.home t k hk
        by_cases hrun : k.state = .running
        · obtain ⟨hc, hn⟩ := hh.running hrun
          subst hc
          simp [hn]
        · obtain ⟨hd, hn, _, _⟩ := hh.linked hrun
          have hc : t ≠ s.current := fun hc => hrun (hr hc)
          simp [hn, hc, hh.not_startup, hm]
      rw [doomed_zombie hz hiff, ← doomed_died]
    have hglobal : (s.setTask t { k with priority := deathPriority s.totalTicks }).globalDel t =
        .ok ((s.setTask t { k with priority := deathPriority s.totalTicks }).delist t) :=
      globalDel_eq hlink
    simp only [hno hm, Option.isSome_none, Bool.false_eq_true, if_false, ok_bind, hglobal,
      doomed_again (k := k) rfl, hdead]

theorem exitTask_spec (hi : Inv s) (hrun : s.Running) (hk : s.tasks t = some k)
    (hidle : t ≠ s.idle) (hz : k.state ≠ .zombie) (hd : D → s.NoDangling) :
    Post (Bad A D) (s.exitTask t r) fun x => x.1 = 0 ∧ Mourned (s.died t k r) k.parent x.2 := by
  obtain ⟨c, hc, hcr⟩ := hrun
  have hr : t = s.current → k.state = .running := by
    rintro rfl
    rw [hk] at hc
    cases hc
    exact hcr
  have hi' : Placed (s.died t k r) := hi.toPlaced.died hk hz hidle
  have hself : (s.died t k r).tasks t = some { k with
      state := .zombie, priority := deathPriority s.totalTicks, retval := r } := setTask_tasks_self
  have hother (u : TaskPtr) (hu : u ≠ t) : (s.died t k r).tasks u = s.tasks u :=
    setTask_tasks_of_ne hu
  rw [exitTask_eq hi hk hidle hz hr]
  cases hp : k.parent with
  | none => exact absurd (hi.parent t k hk hp) hidle
  | some p =>
    have hpar : D → ∃ l, (s.died t k r).tasks p = some l := by
      intro hD
      by_cases he : p = t
      · rw [he]
        exact ⟨_, hself⟩
      · obtain ⟨l, hl⟩ := hd hD t k p hk hp
        exact ⟨l, (hother p he).trans hl⟩
    have hcur : ∀ l, (s.died t k r).tasks (s.died t k r).current = some l →
        l.state ≠ .interruptedChild := by
      intro l hl
      have hl : (s.died t k r).tasks s.current = some l := hl
      by_cases he : s.current = t
      · rw [he, hself] at hl
        cases hl
        simp
      · rw [hother _ he, hc] at hl
        cases hl
        rw [hcr]
        simp
    refine (unlockInterruptedChildParent_spec hi' rfl hpar hcur).bind fun s' hm => ?_
    exact .ok ⟨rfl, hm⟩

theorem exit_spec (hi : Inv s₀) (q : Moves False D K R L B s₀ s) (hrun : s.Serving)
    (hidle : s.current ≠ s.idle) (hd : D → s.NoDangling) :
    Post (Bad A D) (s.exit r) (Outcome A T D K R L B s₀) := by
  have hi := q.inv hi
  obtain ⟨k, hk, hkr, hkont⟩ := hrun
  have hz : k.state ≠ .zombie := by rw [hkr]; decide
  have hsil : k.kont.Silent := by rw [hkont]; trivial
  refine (exitTask_spec hi ⟨k, hk, hkr⟩ hk hidle hz hd).bind fun x ⟨_, hm⟩ => ?_
  obtain ⟨hcur, hi0, htask⟩ := hm.current
  have hself : (s.died s.current k r).tasks s.current = some { k with
      state := .zombie, priority := deathPriority s.totalTicks, retval := r } := setTask_tasks_self
  have hc : x.2.tasks x.2.current = some { k with
      state := .zombie, priority := deathPriority s.totalTicks, retval := r } := by
    rw [hcur]
    exact htask.trans hself
  have he : Moves False D K R L B s₀ x.2 := q.tail (.plain (.exit id hk hidle hkr (fun _ => hsil) hm))
  have hidle' : x.2.current ≠ x.2.idle := by
    rw [hcur, hi0]
    exact hidle
  exact callSchedule_spec he hc (Or.inr rfl) (.of_ne hidle' nofun nofun) trivial hsil

theorem pageFault_spec (hi : Inv s₀) (q : Moves False D K R L B s₀ s) (hrun : s.Serving)
    (hidle : s.current ≠ s.idle) (hd : D → s.NoDangling) :
    Post (Bad A D) s.pageFault (Outcome A T D K R L B s₀) := exit_spec hi q hrun hidle hd

theorem pageFault_ctl (h : s.pageFault = .ok s') : s'.ctl = .sched := by
  unfold pageFault exit at h
  obtain ⟨⟨r, w⟩, _, h⟩ := bind_ok.mp h
  exact goOn_ctl h

theorem Inv.pidToTask (hi : Inv s) {pid : Int} (h : s.pidToTask pid = some t) :
    ∃ k, s.tasks t = some k ∧ (k.pid : Int) = pid ∧ (t ≠ s.current → k.state ≠ .zombie) := by
  unfold State.pidToTask at h
  split at h
  · rename_i hp
    cases h
    obtain ⟨k, hk, hpid⟩ := hasPid_iff.mp hp
    exact ⟨k, hk, hpid, fun h => absurd rfl h⟩
  · obtain ⟨k, hk, hpid⟩ := hasPid_iff.mp (List.find?_some h)
    obtain ⟨l, hl, hz⟩ := (hi.global t).mp (Links.link_of_mem (List.mem_of_find?_eq_some h))
    rw [hk] at hl
    cases hl
    exact ⟨k, hk, hpid, fun _ => hz⟩

def KillsBelow (s : State) (pid : Int) : Prop :=
  ∀ t k p l c, s.pidToTask pid = some t → t ≠ s.current → s.tasks t = some k →
    k.parent = some p → s.tasks p = some l → l.state = .interruptedChild →
    s.tasks s.current = some c → l.priority ≤ c.priority

theorem kill_spec {pid : Int} (hi : Inv s) (hrun : s.Serving) (hidle : s.current ≠ s.idle)
    (hd : D → s.NoDangling) (hT : T → s.KillsBelow pid) (hK : ¬ K) :
    Post (Bad A D) (s.kill pid) (Outcome A T D K R L B s) := by
  unfold State.kill
  split
  · exact ret_spec .refl hrun
  rename_i t hpid
  split
  · exact ret_spec .refl hrun
  rename_i hti
  obtain ⟨c, hc, hcr, hkont⟩ := hrun
  obtain ⟨k, hk, _, hlive⟩ := hi.pidToTask hpid
  have hz : k.state ≠ .zombie := by
    by_cases ht : t = s.current
    · subst ht
      rw [hk] at hc
      cases hc
      rw [hcr]
      decide
    · exact hlive ht
  refine (exitTask_spec hi ⟨c, hc, hcr⟩ hk hti hz hd).bind fun x ⟨_, hm⟩ => ?_
  obtain ⟨hcur, hi0, htask⟩ := hm.current
  have hcur : x.2.current = s.current := hcur
  simp only [hcur]
  split
  · rename_i ht
    subst ht
    have hself : (s.died s.current k 0).tasks s.current = some { k with
        state := .zombie, priority := deathPriority s.totalTicks, retval := 0 } := setTask_tasks_self
    have hkc : k = c := Option.some.inj (hk.symm.trans hc)
    have he : Moves False D K R L B s x.2 :=
      .single (.plain (.exit id hk hti (hkc ▸ hcr) (absurd · hK) hm))
    have hc : x.2.tasks x.2.current = some { k with
        state := .zombie, priority := deathPriority s.totalTicks, retval := 0 } := by
      rw [hcur]
      exact htask.trans hself
    refine callSchedule_spec he hc (Or.inr rfl) (.of_ne ?_ nofun nofun) trivial ?_
    · rw [hcur, hi0]
      exact hidle
    · change k.kont.Silent
      rw [hkc, hkont]
      trivial
  · rename_i ht
    have hself : (s.died t k 0).tasks s.current = some c := (setTask_tasks_of_ne (Ne.symm ht)).trans hc
    have q : Quiets T D True K B s x.2 :=
      .single (.die hk ht hti hz (absurd · hK) hm hc fun h p l hp hl hs =>
        hT h t k p l c hpid ht hk hp hl hs hc)
    exact ret_spec q.moves ⟨c, by rw [hcur]; exact htask.trans hself, hcr, hkont⟩

end State
end DominOS.Process
