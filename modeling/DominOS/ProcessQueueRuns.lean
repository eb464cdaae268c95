import DominOS.ProcessQueueResets

/-! Every queue is a machine of its own: what runs of the kernel do to one queue, and what they tell
its callers, is what the calls on it do to it alone, whatever happens on the other queues. -/
namespace DominOS.Process
open IntrusiveLists MsgHeap Fallible Relation Runs Unwinding
namespace State
variable {s s' : State} {t u : TaskPtr} {k l c : Task} {e : Event} {id : Nat} {q : MQueue} {v : QueueView}
  {es es' : List Event}

section Schedule

theorem tryWakeupTasks_looks (id : Nat) (hi : Inv s) :
    Post (Bad False False) s.tryWakeupTasks fun s' => Inv s' ∧ s'.view id = s.view id := by
  refine (Post.foldlM (fun _ rest s' => (Inv s' ∧ s'.view id = s.view id) ∧ rest.Nodup ∧
    ∀ t ∈ rest, t ∈ s'.queues.members .sleeping) ⟨⟨hi, rfl⟩, s.queues.nodup _, fun t ht => ht⟩ ?_).mono
      fun s' h => h.1
  intro _ t rest w ⟨⟨hi', hv⟩, hn, hm⟩
  obtain ⟨hnt, hnr⟩ := List.nodup_cons.mp hn
  refine (wakeup_spec (D := False) hi' (hm t (by simp)) False.elim).mono fun w' h => ?_
  rcases h with rfl | ⟨k, hk, hc, hs, hw, rfl⟩
  · exact ⟨⟨hi', hv⟩, hnr, fun u hu => hm u (List.mem_cons_of_mem _ hu)⟩
  · obtain ⟨c, hcur, _⟩ := hi'.current
    have hq : Quiet False False False False AnyStart w (w.woken t { k with wakeTime := 0 }) :=
      .wake (m := k.msgVal) hk hc (by rw [hs]; decide) (by rw [hs]; decide) hcur nofun nofun
    refine ⟨⟨hq.inv hi', ?_⟩, hnr, fun u hu => ?_⟩
    · rw [← hv]
      have hpart : w.part id t = k.part id w.cptRst := part_eq hk (by rw [hs]; decide)
      exact woken_aside (hi'.away hk (by rw [hs]; decide)) (hpart.trans rfl)
    · have hut : u ≠ t := fun he => hnt (he ▸ hu)
      rw [show (w.woken t { k with wakeTime := 0 }).queues.members .sleeping =
        (w.queues.members .sleeping).erase t from Links.members_move_of_ne (by decide)]
      exact (List.mem_erase_of_ne hut).mpr (hm u (List.mem_cons_of_mem _ hu))

theorem reapZombies_looks (id : Nat) (hi : Inv s) :
    Post (Bad False False) s.reapZombies fun s' => Inv s' ∧ s'.view id = s.view id := by
  refine (Post.foldlM (fun _ rest s' => (Inv s' ∧ s'.view id = s.view id) ∧ rest.Nodup ∧
    ∀ t ∈ rest, t ∈ s'.queues.members .zombie) ⟨⟨hi, rfl⟩, s.queues.nodup _, fun t ht => ht⟩ ?_).mono
      fun s' h => h.1
  intro _ t rest w ⟨⟨hi', hv⟩, hn, hm⟩
  obtain ⟨hnt, hnr⟩ := List.nodup_cons.mp hn
  obtain ⟨k, hk, hz, _⟩ := hi'.live (hm t (by simp))
  have hz : k.state = .zombie := hz
  refine (reap_spec (D := False) hi' hk hz nofun).mono fun w' h => ?_
  rcases h with ⟨rfl, _⟩ | ⟨rfl, ho⟩
  · exact ⟨⟨hi', hv⟩, hnr, fun u hu => hm u (List.mem_cons_of_mem _ hu)⟩
  · have hq : Quiet False False False False AnyStart w (w.freed t) := .reap hk hz ho.1 ho.2 nofun
    refine ⟨⟨hq.inv hi', ?_⟩, hnr, fun u hu => ?_⟩
    · rw [freed_view, view_drop (hi'.away hk (by rw [hz]; decide)), view_put (part_zombie hk hz)]
      exact hv
    · have hut : u ≠ t := fun he => hnt (he ▸ hu)
      exact (List.mem_erase_of_ne hut).mpr (hm u (List.mem_cons_of_mem _ hu))

theorem Chosen.view (h : Chosen s s') (hi : Inv s) : s'.view id = s.view id := by
  have took {w : State} {new : TaskPtr} {k : Task} (hk : w.tasks new = some k) (hs : k.state = .ready)
      (hp : w.Away id new) : (w.switched new k).view id = w.view id := by
    rw [switched_view, view_drop hp]
    exact view_put (part_eq hk (by rw [hs]; decide))
  cases h with
  | alone _ _ _ => rfl
  | keep _ _ _ _ _ => rfl
  | switch _ hk hs _ _ => exact took hk hs (hi.away hk (by rw [hs]; decide))
  | @preempt new k c _ hk hs hc hr _ =>
    have hne : new ≠ s.current := ne_of_state hk hc (by rw [hs, hr]; decide)
    have hwoken : (s.woken s.current c).view id = s.view id :=
      woken_aside (hi.away hc (by rw [hr]; decide)) (part_eq hc (by rw [hr]; decide))
    rw [← hwoken]
    refine took ((woken_of_ne hne).trans hk) hs ?_
    have hp := hi.toPlaced.woken hc (by rw [hr]; decide) rfl rfl rfl
    exact hp.away ((woken_of_ne hne).trans hk) (by rw [hs]; decide)

theorem schedule_looks (hi : Inv s) : Looks id (s.view id) s.schedule := by
  unfold schedule
  refine (tryWakeupTasks_looks id hi).bind fun w ⟨hw, hv⟩ => ?_
  refine (reapZombies_looks id hw).bind fun x ⟨hx, hv'⟩ => ?_
  refine (chooseTask_spec hx).mono fun s' h => ?_
  rw [h.view hx, hv', hv]

end Schedule

section Shows

/-- What the step does to what can be seen it does by what it shows, and it tells nobody anything. -/
theorem shows_of_looks (hc : ∀ a ∈ s.act id e, a.caller = none)
    (hv : s'.view id = (Window.replay QueueView.step (s.act id e).toList (s.view id)).1) :
    (window id).Shows QueueView.step e s s' := by
  have hout : s.results id e s' = [] ∧
      (Window.replay QueueView.step (s.act id e).toList (s.view id)).2 = [] := by
    unfold results
    cases ha : s.act id e with
    | none => exact ⟨rfl, rfl⟩
    | some a =>
      have hnone := hc a ha
      rw [Option.bind_some, hnone]
      refine ⟨rfl, ?_⟩
      cases a <;> first | rfl | cases hnone
  unfold Window.Shows
  exact Prod.ext hv (hout.1.trans hout.2.symm)

theorem shows_of_quiet (ha : s.act id e = none) (hv : s'.view id = s.view id) :
    (window id).Shows QueueView.step e s s' := by
  refine shows_of_looks (fun a h => ?_) ?_
  · rw [ha] at h
    cases h
  · rw [ha]
    exact hv

/-- The step is part of a call on the queue, and tells its caller what has come of it. -/
theorem shows_of_yields {a : QueueAct} {x : Except Fault State} (ha : s.act id e = some a)
    (hc : a.caller = some s.current) (y : Yields id s (QueueView.step a (s.view id)) x) (hx : x = .ok s') :
    (window id).Shows QueueView.step e s s' := by
  obtain ⟨hv, seen, ht, hr⟩ := y.elim hx
  have hout : s.results id e s' = (QueueView.step a (s.view id)).2 := by
    unfold results
    rw [ha, Option.bind_some, hc, ← hr]
    simp only [ht, List.length_append, Nat.add_sub_cancel, List.take_left]
  have hact : (window id).act e s = some a := ha
  unfold Window.Shows
  rw [hact]
  simp only [Option.toList_some, Window.replay, List.append_nil]
  exact Prod.ext hv hout

end Shows

section Steps

theorem act_call (id : Nat) (c : Syscall) (hu : s.ctl = .user) : s.act id (.call c) = s.callAct id c := by
  simp only [act, hu]

theorem handle_shows {c : Syscall} (hs : Sound False False False s) (hu : s.ctl = .user)
    (hidle : s.IdleStarts (.call c)) (hr : s.handle c = .ok s') :
    (window id).Shows QueueView.step (.call c) s s' := by
  have hi := hs.inv
  have hm := hs.mail
  have hrun := hs.serving hu
  obtain ⟨k, hk, _⟩ := hrun
  have hrun := hs.serving hu
  have hact := act_call id c hu
  have quiet (hn : s.callAct id c = none) (hx : Looks id (s.view id) (s.handle c)) :
      (window id).Shows QueueView.step (.call c) s s' :=
    shows_of_quiet (hact.trans hn) (hx.elim hr)
  have looks (hc : ∀ a ∈ s.callAct id c, a.caller = none)
      (hx : Looks id (Window.replay QueueView.step (s.callAct id c).toList (s.view id)).1 (s.handle c)) :
      (window id).Shows QueueView.step (.call c) s s' := by
    rw [← hact] at hc hx
    exact shows_of_looks hc (hx.elim hr)
  have yields {a : QueueAct} (hn : s.callAct id c = some a) (hc : a.caller = some s.current)
      (hy : Yields id s (QueueView.step a (s.view id)) (s.handle c)) :
      (window id).Shows QueueView.step (.call c) s s' := shows_of_yields (hact.trans hn) hc hy hr
  cases c with
  | start a => exact quiet rfl (start_looks hi hrun)
  | getpid =>
    refine quiet rfl ?_
    simp only [handle]
    rw [task_ok hk, ok_bind]
    exact ret_looks
  | getprio pid => exact quiet rfl (getprio_looks hi)
  | waitpid pid retvalp => exact quiet rfl (waitpid_looks hrun)
  | exit retval => exact quiet rfl ((exit_looks hi hrun hidle).mono fun _ h => h.1)
  | pcount i count => exact quiet rfl (pcount_looks hi hrun hidle)
  | currentClock => exact quiet rfl ret_looks
  | waitClock clock => exact quiet rfl (waitClock_looks hi hrun)
  | chprio pid p =>
    refine looks (fun a h => ?_) (chprio_looks hi hm hrun hidle)
    simp only [callAct] at h
    split at h
    · split at h <;> simp only [Option.mem_def, Option.some.injEq, reduceCtorEq] at h
      rw [← h]
      rfl
    · cases h
  | kill pid =>
    refine looks (fun a h => ?_) (kill_looks hi hm hrun)
    simp only [callAct] at h
    split at h
    · split at h <;> simp only [Option.mem_def, Option.some.injEq, reduceCtorEq] at h
      rw [← h]
      rfl
    · cases h
  | pcreate count =>
    refine looks (fun a h => ?_) pcreate_looks
    simp only [callAct] at h
    split at h <;> simp only [Option.mem_def, Option.some.injEq, reduceCtorEq] at h
    rw [← h]
    rfl
  | psend i message =>
    by_cases hij : i = id
    · subst hij
      exact yields (if_pos rfl) rfl (psend_yields hi hm hrun hidle)
    · exact quiet (by simp [callAct, hij]) (psend_aside hij hi hm hrun hidle)
  | preceive i message =>
    by_cases hij : i = id
    · subst hij
      exact yields (if_pos rfl) rfl (preceive_yields hi hm hrun hidle)
    · exact quiet (by simp [callAct, hij]) (preceive_aside hij hi hm hrun hidle)
  | pdelete i =>
    by_cases hij : i = id
    · subst hij
      exact yields (if_pos rfl) rfl (pdelete_yields hi hm hrun)
    · refine looks (fun a h => ?_) (pdelete_aside hij hi hm hrun)
      simp only [callAct, resetAct, if_neg hij] at h
      split at h <;> simp only [Option.mem_def, Option.some.injEq, reduceCtorEq] at h
      rw [← h]
      rfl
  | preset i =>
    by_cases hij : i = id
    · subst hij
      exact yields (if_pos rfl) rfl (preset_yields hi hm hrun)
    · refine looks (fun a h => ?_) (preset_aside hij hi hm hrun)
      simp only [callAct, resetAct, if_neg hij] at h
      split at h <;> simp only [Option.mem_def, Option.some.injEq, reduceCtorEq] at h
      rw [← h]
      rfl

theorem startRet_looks {child : TaskPtr} : Looks id (s.view id) (s.startRet child) := by
  unfold startRet
  split
  · exact .ok rfl
  · exact ret_looks (s := s.observe (.started s.current child _))

/-- Whoever has to go on in the kernel, and not with the start of a child, is not idle. -/
theorem KontOk.busy {kont : Kont} (h : s.KontOk t kont) (hkont : kont ≠ .iret)
    (hnot : ∀ c, kont ≠ .startRet c) : t ≠ s.idle := by
  intro he
  rcases h.idle he with h | ⟨c, h⟩
  · exact hkont h
  · exact hnot c h

theorem consumed_sound (hs : Sound False False False s) (hk : s.tasks s.current = some k)
    (hr : k.state = .running) : Inv (s.consumed k) ∧ Mail False (s.consumed k) := by
  have m : Moves False False False False False AnyStart s (s.consumed k) := consume_moves hk hr nofun
  exact ⟨m.inv hs.inv, m.mail hs.inv hs.mail⟩

theorem consumed_view (hr : k.state = .running) :
    (s.consumed k).view id = (s.view id).put s.current none := by
  have hpart : ({ k with kont := .iret } : Task).part id s.cptRst = none := Task.part_of_ne nofun
  rw [← hpart]
  exact setTask_view (show k.state ≠ .zombie by rw [hr]; decide)

theorem Mail.silent (hm : Mail False s) (hk : s.tasks t = some k) (hz : k.state ≠ .zombie)
    (hp : s.part id t = none) : k.kont.queue ≠ some id := by
  intro hq
  have hf := hm.fact t _ _ ⟨k, hk, hz, rfl, rfl⟩
  rw [part_eq hk hz] at hp
  unfold Task.part at hp
  cases hkont : k.kont with
  | psendAdd j msg =>
    rw [hkont] at hf
    exact hf
  | _ =>
    rw [hkont] at hp hq
    simp_all [Kont.queue]

theorem resume_aside (hs : Sound False False False s) (hk : s.tasks s.current = some k)
    (hr : k.state = .running) (hq : k.kont.queue ≠ some id) :
    Looks id (s.view id) ((s.consumed k).resumeAt k.kont) := by
  have hi := hs.inv
  have hz : k.state ≠ .zombie := by
    rw [hr]
    decide
  have hok := hi.konts _ k hk hz
  have hfact := hs.mail.fact _ _ _ ⟨k, hk, hz, rfl, rfl⟩
  have hserve : (s.consumed k).Serving := consumed_serving hr
  obtain ⟨hi', hm'⟩ := consumed_sound hs hk hr
  have hview : (s.consumed k).view id = s.view id := (consumed_view hr).trans (view_put (part_silent hk hq))
  rw [← hview]
  cases hkont : k.kont with
  | iret => exact .ok rfl
  | ret v => exact ret_looks
  | startRet child => exact startRet_looks
  | waitAnyChild retvalp => exact waitAnyChild_looks hi' hserve
  | waitSpecificChild child retvalp =>
    obtain ⟨l, hl, _⟩ := hok.child child retvalp hkont
    by_cases hne : child = s.current
    · subst hne
      exact waitSpecificChild_looks hi' hserve consumed_self
    · exact waitSpecificChild_looks hi' hserve ((setTask_tasks_of_ne hne).trans hl)
  | psendLoop j msg rst =>
    rw [hkont] at hq hfact
    refine psendLoop_aside (fun he => hq (congrArg some he)) hi' hserve
      (hok.busy (by simp [hkont]) (by simp [hkont])) consumed_self ?_
    rcases hfact.2.1 with hl | hv | hlt
    · rw [hi.unlinked_current hk hr] at hl
      cases hl
    · exact Or.inl hv
    · exact Or.inr (Or.inl hlt)
  | psendAdd j msg =>
    rw [hkont] at hfact
    exact hfact.elim
  | psendRet j msg => exact psendRet_looks
  | preceiveLoop j message rst =>
    rw [hkont] at hq
    exact preceiveLoop_aside (fun he => hq (congrArg some he)) hi' hm' hserve
      (hok.busy (by simp [hkont]) (by simp [hkont]))
  | preceiveRet j message msg =>
    exact preceiveRet_looks hi' hserve (hok.busy (by simp [hkont]) (by simp [hkont]))
  | exitPanic => exact .error (not_bad _)

theorem resume_own {part : Part} (hs : Sound False False False s) (hk : s.tasks s.current = some k)
    (hr : k.state = .running) (hp : s.part id s.current = some part) :
    Yields id s (QueueView.step (.resume s.current) (s.view id)) ((s.consumed k).resumeAt k.kont) := by
  have hi := hs.inv
  have hz : k.state ≠ .zombie := by
    rw [hr]
    decide
  have hok := hi.konts _ k hk hz
  have hfact := hs.mail.fact _ _ _ ⟨k, hk, hz, rfl, rfl⟩
  have hserve : (s.consumed k).Serving := consumed_serving hr
  obtain ⟨hi', hm'⟩ := consumed_sound hs hk hr
  have hview : (s.consumed k).view id = (s.view id).put s.current none := consumed_view hr
  have hpart : k.part id s.cptRst = some part := (part_eq hk hz).symm.trans hp
  have hstep : QueueView.step (.resume s.current) (s.view id) = (s.view id).resume s.current := rfl
  have hin : (s.view id).inside s.current = some part := hp
  rw [hstep]
  unfold QueueView.resume
  rw [hin]
  unfold Task.part at hpart
  split at hpart
  · rename_i j msg rst hkont
    split at hpart
    case isFalse => cases hpart
    rename_i hj
    subst hj
    cases hpart
    rw [hkont] at hfact
    rw [hkont]
    simp only
    rw [← hview]
    refine Yields.after (psendLoop_yields (k := { k with kont := .iret }) msg rst hi' hserve (hok.busy (by simp [hkont]) (by simp [hkont])) consumed_self ?_
      hm'.ranks fun q hq => (hm'.books.counted j q hq).1) rfl [] rfl rfl
    rcases hfact.2.1 with hl | hv | hlt
    · rw [hi.unlinked_current hk hr] at hl
      cases hl
    · exact Or.inl hv
    · exact Or.inr (Or.inl hlt)
  · rename_i j msg hkont
    split at hpart
    case isFalse => cases hpart
    rename_i hj
    subst hj
    cases hpart
    rw [hkont]
    simp only
    rw [← hview]
    exact psendRet_yields.after rfl [] rfl rfl
  · rename_i j message rst hkont
    split at hpart
    case isFalse => cases hpart
    rename_i hj
    subst hj
    cases hpart
    rw [hkont]
    simp only
    rw [← hview]
    exact (preceiveLoop_yields (k := { k with kont := .iret }) j rst message hi' hm' hserve (hok.busy (by simp [hkont]) (by simp [hkont]))
      consumed_self).after rfl [] rfl rfl
  · rename_i j message msg hkont
    split at hpart
    case isFalse => cases hpart
    rename_i hj
    subst hj
    cases hpart
    rw [hkont]
    simp only
    rw [← hview]
    exact (preceiveRet_yields hi' hserve (hok.busy (by simp [hkont]) (by simp [hkont]))).after rfl [] rfl rfl
  · cases hpart

/-- A step of the kernel is seen from a queue as what the calls on it do to it alone. -/
theorem step_shows (hs : Sound False False False s) (ha : s.IdleStarts e) (hr : step e s = .ok s') :
    (window id).Shows QueueView.step e s s' := by
  unfold step stepWith at hr
  split at hr
  · rename_i hu
    refine shows_of_quiet rfl ?_
    have hserve : ({ s with totalTicks := (s.totalTicks + 1) % 2 ^ 32 } : State).Serving := hs.serving hu
    have hx : Looks id (s.view id) s.clockHandler := goOn_serving hserve (show Kont.queue .iret ≠ some id from nofun)
    exact hx.elim hr
  · rename_i c hu
    exact handle_shows hs hu ha hr
  · rename_i hc
    refine shows_of_quiet ?_ ((schedule_looks hs.inv).elim hr)
    simp only [act, hc]
  · rename_i hc
    obtain ⟨k, hk, hrun⟩ := hs.running (by rw [hc]; decide)
    have hz : k.state ≠ .zombie := by
      rw [hrun]
      decide
    have hres : (s.consumed k).resumeAt k.kont = .ok s' := by
      unfold resume at hr
      rw [task_ok hk, ok_bind] at hr
      exact hr
    have hact : s.act id .kernel = if (s.part id s.current).isSome then some (.resume s.current) else none := by
      simp only [act, hc]
    cases hp : s.part id s.current with
    | some part =>
      rw [hp] at hact
      exact shows_of_yields hact rfl (resume_own hs hk hrun hp) hres
    | none =>
      rw [hp] at hact
      exact shows_of_quiet hact ((resume_aside hs hk hrun (hs.mail.silent hk hz hp)).elim hres)
  · cases hr

theorem admitted_shows (hs : Sound False False False s) (hr : admitted IdleStarts e s = .ok s') :
    Sound False False False s' ∧ (window id).Shows QueueView.step e s s' := by
  unfold admitted at hr
  split at hr
  · rename_i ha
    exact ⟨step_sound hs ha.allows hr, step_shows hs ha hr⟩
  · cases hr

end Steps

/-- A run does to a queue, and tells its callers, what the calls on the queue do to it alone. -/
theorem queue_refines (h : exec (admitted IdleStarts) es boot = .ok s) :
    (s.view id, (window id).outs (admitted IdleStarts) es boot) =
      Window.replay QueueView.step ((window id).acts (admitted IdleStarts) es boot) (boot.view id) :=
  Window.exec_replay (fun _ _ _ => admitted_shows) boot_sound h

/-- Two tasks pass a message through a queue of one place. -/
theorem queue_refines_passed :
    let es := [.call (.start (anApp 2)), .kernel, .call (.pcreate 1), .call (.start (anApp 3)), .kernel,
      .call (.preceive 0 .mapped), .kernel, .kernel, .call (.psend 0 5), .kernel, .kernel]
    ∃ s, exec (admitted IdleStarts) es boot = .ok s ∧
      (s.view 0, (window 0).outs (admitted IdleStarts) es boot) =
        Window.replay QueueView.step ((window 0).acts (admitted IdleStarts) es boot) (boot.view 0) := by
  intro es
  have hrun : Ends (exec (admitted IdleStarts) es boot) fun _ => True := by decide +kernel
  obtain ⟨s, hs, _⟩ := hrun.elim
  exact ⟨s, hs, queue_refines hs⟩

/-- Runs in which the same happens on a queue, and which outdate its calls at the same moments, leave
it the same and tell its callers the same, whatever else happens in them. -/
theorem queues_do_not_interfere (h : exec (admitted IdleStarts) es boot = .ok s)
    (h' : exec (admitted IdleStarts) es' boot = .ok s')
    (ha : (window id).acts (admitted IdleStarts) es boot = (window id).acts (admitted IdleStarts) es' boot) :
    s.view id = s'.view id ∧
      (window id).outs (admitted IdleStarts) es boot = (window id).outs (admitted IdleStarts) es' boot :=
  Window.exec_agree (fun _ _ _ => admitted_shows) boot_sound boot_sound rfl ha h h'

/-- Another queue is created, filled and deleted before anybody waits. -/
theorem queues_do_not_interfere_deleted :
    let es := [.call (.start (anApp 2)), .kernel, .call (.pcreate 1), .call (.start (anApp 3)), .kernel,
      .call (.preceive 0 .mapped), .kernel, .kernel, .call (.psend 0 5), .kernel, .kernel]
    let es' := [.call (.start (anApp 2)), .kernel, .call (.pcreate 1), .call (.pcreate 2), .call (.psend 1 7),
      .call (.pdelete 1), .tick, .kernel, .kernel, .call (.start (anApp 3)), .kernel,
      .call (.preceive 0 .mapped), .kernel, .kernel, .call (.psend 0 5), .kernel, .kernel]
    ∃ s s', exec (admitted IdleStarts) es boot = .ok s ∧ exec (admitted IdleStarts) es' boot = .ok s' ∧
      (window 0).acts (admitted IdleStarts) es boot = (window 0).acts (admitted IdleStarts) es' boot ∧
      s.view 0 = s'.view 0 ∧
      (window 0).outs (admitted IdleStarts) es boot = (window 0).outs (admitted IdleStarts) es' boot := by
  intro es es'
  have hrun : Ends (exec (admitted IdleStarts) es boot) fun _ => True := by decide +kernel
  have hrun' : Ends (exec (admitted IdleStarts) es' boot) fun _ => True := by decide +kernel
  have hacts : (window 0).acts (admitted IdleStarts) es boot = (window 0).acts (admitted IdleStarts) es' boot := by
    decide +kernel
  obtain ⟨s, hs, _⟩ := hrun.elim
  obtain ⟨s', hs', _⟩ := hrun'.elim
  exact ⟨s, s', hs, hs', hacts, queues_do_not_interfere hs hs' hacts⟩

end State
end DominOS.Process
