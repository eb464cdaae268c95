import DominOS.ProcessQueueCalls

/-! `pcreate`, `pcount`, `pdelete` and `preset`, as they are seen from one queue: a reset of another
queue makes the calls on this one outdated, and that is all. -/
namespace DominOS.Process
open IntrusiveLists MsgHeap Fallible Relation Unwinding

namespace Part

@[simp] theorem stale_stale (part : Part) : part.stale.stale = part.stale := by cases part <;> rfl

theorem stale_eq {part : Part} (h : part.live = false) : part.stale = part := by
  cases part <;> simp_all [stale, live]

end Part

namespace QueueView
variable {v : QueueView} {o : Option Contents}

@[simp] theorem outdated_outdated : v.outdated.outdated = v.outdated := by
  refine QueueView.ext rfl rfl rfl (funext fun t => ?_)
  simp only [outdated, Option.map_map, Function.comp_def, Part.stale_stale]

theorem deleted_outdated : v.outdated.deleted o = v.deleted o := by
  simp only [deleted, outdated_outdated]

end QueueView

def Kont.Before (kont : Kont) (c : Nat) : Prop :=
  match kont with
  | .psendLoop _ _ rst | .preceiveLoop _ _ rst => rst < c
  | _ => True

theorem Task.part_stale {k k' : Task} {id c c' : Nat} (hkont : k'.kont = k.kont) (hv : k'.msgVal = k.msgVal)
    (hp : k'.priority = k.priority) (hc : k.kont.Before c') :
    k'.part id c' = (k.part id c).map Part.stale := by
  unfold Task.part
  rw [hkont, hv, hp]
  cases hk : k.kont with
  | psendLoop i m rst | preceiveLoop i m rst =>
    rw [hk] at hc
    have hc : rst < c' := hc
    simp only [hc, not_true, decide_false]
    split <;> rfl
  | psendRet | preceiveRet =>
    simp only
    split <;> rfl
  | _ => rfl

namespace State
variable {s s' : State} {t u : TaskPtr} {k l c : Task} {hd : Head} {kont : Kont} {id j rst : Nat}
  {q : MQueue} {msg m : Msg} {p : UserPtr} {K : Prop} {v : QueueView}

theorem part_stale (hm : Mail K s) (hin : ∀ t kont v, s'.Inside t kont v ↔ s.Inside t kont v)
    (hp : ∀ t k', s'.tasks t = some k' → ∃ k, s.tasks t = some k ∧ k.priority = k'.priority)
    (hc : s.cptRst < s'.cptRst) : s'.part id t = (s.part id t).map Part.stale := by
  by_cases hlive : ∃ k', s'.tasks t = some k' ∧ k'.state ≠ .zombie
  · obtain ⟨k', hk', hz'⟩ := hlive
    obtain ⟨k, hk, hz, hkont, hv⟩ := (hin t _ _).mp ⟨k', hk', hz', rfl, rfl⟩
    obtain ⟨l, hl, hprio⟩ := hp t k' hk'
    rw [hk] at hl
    cases hl
    have hf := hm.fact t _ _ ⟨k, hk, hz, rfl, rfl⟩
    rw [part_eq hk hz, part_eq hk' hz']
    refine Task.part_stale hkont.symm hv.symm hprio.symm ?_
    unfold Kont.Before
    split
    · rename_i he
      rw [he] at hf
      exact Nat.lt_of_le_of_lt hf.1 hc
    · rename_i he
      rw [he] at hf
      exact Nat.lt_of_le_of_lt hf.1 hc
    · trivial
  · have hnone : s'.part id t = none := by
      cases hk' : s'.tasks t with
      | none => exact part_unborn hk'
      | some k' => exact part_zombie hk' (not_not.mp fun hz => hlive ⟨k', hk', hz⟩)
    have hold : s.part id t = none := by
      cases hk : s.tasks t with
      | none => exact part_unborn hk
      | some k =>
        refine part_zombie hk (not_not.mp fun hz => hlive ?_)
        obtain ⟨k', hk', hz', _⟩ := (hin t _ _).mpr ⟨k, hk, hz, rfl, rfl⟩
        exact ⟨k', hk', hz'⟩
    rw [hnone, hold]
    rfl

theorem bump_view (hm : Mail K s) : (s.bump j).view id = (s.view id).outdated :=
  QueueView.ext rfl rfl rfl (funext fun _ =>
    part_stale hm (fun _ _ _ => Iff.rfl) (fun _ k hk => ⟨k, hk, rfl⟩) (Nat.lt_succ_self _))

theorem deleteQueue_looks (id : Nat) (hi : Inv s) (hm : Mail False s) (hr : s.Serving) :
    Post (Bad False False) (s.deleteQueue j q) fun s' =>
      s'.view id = (if j = id then (s.view id).deleted none else (s.view id).outdated) ∧
      s'.current = s.current ∧
      ∃ O, s'.trace = O ++ s.trace ∧ O.reverse.filterMap (Obs.result s.current) = [] := by
  obtain ⟨k, hk, hrun, hkont⟩ := hr
  obtain ⟨hbump, hm'⟩ : Moves False False False False False AnyStart s (s.bump j) ∧ Mail False (s.bump j) :=
    bump_mail hm not_false hi nofun
  have hi' := hbump.inv hi
  have below (t : TaskPtr) (i : Nat) (msg : Msg) (rst : Nat) (v : Msg)
      (hin : (s.bump j).Inside t (.psendLoop i msg rst) v) : rst < (s.bump j).cptRst :=
    Nat.lt_succ_of_le (hm.fact t _ _ hin).1
  unfold deleteQueue
  refine bumpCptRst_spec.bind ?_
  rintro _ rfl
  have senders : Post (Bad False False)
      ((s.queues.members (.waitingSenders j)).reverse.foldlM release (s.bump j))
      (Releasing False False False False False AnyStart (s.bump j) (.waitingSenders j) []) :=
    releaseAll_spec hi' rfl hk hrun nofun below
  refine senders.bind fun w hw => ?_
  have hkw : w.tasks w.current = some k := by
    rw [hw.released.current, hw.released.self]
    exact hk
  have receivers : Post (Bad False False)
      ((w.queues.members (.waitingReceivers j)).reverse.foldlM release w)
      (Releasing False False False False False AnyStart w (.waitingReceivers j) []) :=
    releaseAll_spec (hw.moves.inv hi') rfl hkw hrun nofun fun t i msg rst v hin => by
      rw [hw.released.cptRst]
      exact below t i msg rst v ((hw.released.inside _ _ _).mp hin)
  refine receivers.bind fun x hx => ?_
  have hxs := hw.released.trans hx.released
  have hpart (t : TaskPtr) : (x.freeMqueue j q).part id t = (s.part id t).map Part.stale := by
    rw [part_congr (congrFun freeMqueue_tasks t) freeMqueue_cptRst]
    refine part_stale hm hxs.inside hxs.priority ?_
    rw [hxs.cptRst]
    exact Nat.lt_succ_self _
  have hqueue : (x.freeMqueue j q).mqueues = Function.update s.mqueues j none := by
    rw [freeMqueue_mqueues, hxs.mqueues]
    rfl
  have hlist (hd : Head) (hn : hd ≠ .ready) (hs : hd ≠ .waitingSenders j) (hr : hd ≠ .waitingReceivers j) :
      (x.freeMqueue j q).queues.members hd = s.queues.members hd := by
    rw [freeMqueue_queues, hx.lists hd hn hr, hw.lists hd hn hs]
    rfl
  refine .ok ⟨?_, ?_, ?_⟩
  · by_cases hj : j = id
    · subst hj
      rw [if_pos rfl]
      refine QueueView.ext ?_ ?_ ?_ (funext hpart)
      · simp [view, contents, hqueue, QueueView.deleted]
      · change (x.freeMqueue j q).queues.members (.waitingSenders j) = []
        rw [freeMqueue_queues, hx.lists (.waitingSenders j) (by simp) (by simp)]
        exact hw.empty
      · change (x.freeMqueue j q).queues.members (.waitingReceivers j) = []
        rw [freeMqueue_queues]
        exact hx.empty
    · rw [if_neg hj]
      refine QueueView.ext ?_ (hlist _ (by simp) ?_ (by simp)) (hlist _ (by simp) (by simp) ?_) (funext hpart)
      · simp [view, contents, hqueue, QueueView.outdated, Function.update_of_ne (Ne.symm hj)]
      · exact fun he => hj (Head.waitingSenders.inj he).symm
      · exact fun he => hj (Head.waitingReceivers.inj he).symm
  · rw [freeMqueue_current]
    exact hxs.current
  · refine ⟨.emptied j :: (q.msgs.map (Obs.dropped j)).reverse ++ [.reset j], ?_, ?_⟩
    · rw [freeMqueue_trace, hxs.trace, List.append_assoc]
      rfl
    · rw [List.filterMap_eq_nil_iff]
      intro o ho
      have ho : o ∈ .emptied j :: (q.msgs.map (Obs.dropped j)).reverse ++ [Obs.reset j] := List.mem_reverse.mp ho
      rcases List.mem_append.mp ho with ho | ho
      · rcases List.mem_cons.mp ho with rfl | ho
        · rfl
        · obtain ⟨m, _, rfl⟩ := List.mem_map.mp (List.mem_reverse.mp ho)
          rfl
      · obtain rfl := List.mem_singleton.mp ho
        rfl

theorem reset_aside {i : Int} {a : QueueAct} (hij : i ≠ id) (hi : Placed s) (hq : (s.contents i.toNat).isSome) :
    (Window.replay QueueView.step (s.resetAct id i a).toList (s.view id)).1 = (s.view id).outdated := by
  unfold resetAct
  rw [if_neg hij]
  by_cases hlive : s.LiveCalls id
  · rw [if_pos ⟨hq, hlive⟩]
    rfl
  rw [if_neg fun h => hlive h.2]
  refine QueueView.ext rfl rfl rfl (funext fun t => ?_)
  change s.part id t = (s.part id t).map Part.stale
  by_cases ht : t < s.fresh
  · cases hp : s.part id t with
    | none => rfl
    | some part =>
      refine congrArg some (Part.stale_eq ?_).symm
      by_contra hl
      refine hlive ⟨t, ht, ?_⟩
      rw [hp]
      simpa using hl
  · rw [part_unborn (hi.fresh t (Nat.le_of_not_lt ht))]
    rfl

theorem reset_unused {i : Int} {a : QueueAct} (hij : i ≠ id) (hq : s.mqueues i.toNat = none) :
    (Window.replay QueueView.step (s.resetAct id i a).toList (s.view id)).1 = s.view id := by
  unfold resetAct
  rw [if_neg hij, if_neg (by simp [contents, hq])]
  rfl

theorem pdelete_yields (hi : Inv s) (hm : Mail False s) (hr : s.Serving) :
    Yields id s (QueueView.step (.pdelete s.current) (s.view id)) (s.pdelete id) := by
  unfold pdelete mqueue
  split
  case isFalse => exact .error (not_bad _)
  rw [ok_bind, Int.toNat_natCast]
  simp only [QueueView.step, show (s.view id).queue = s.contents id from rfl]
  cases hq : s.mqueues id with
  | none =>
    simp only [contents, hq, Option.map_none]
    exact ret_yields
  | some q =>
    simp only [contents_eq hq]
    refine (deleteQueue_looks id hi hm hr).bind fun x h => ?_
    obtain ⟨hv, hc, O, ht, hO⟩ := h
    have hy : Yields id s (x.view id, [.returned x.current 0]) (x.ret 0) := ret_yields.after hc O ht hO
    rw [hv, hc, if_pos rfl] at hy
    exact hy

theorem pdelete_aside {i : Int} (hij : i ≠ id) (hi : Inv s) (hm : Mail False s) (hr : s.Serving) :
    Looks id (Window.replay QueueView.step (s.callAct id (.pdelete i)).toList (s.view id)).1
      (s.pdelete i) := by
  unfold pdelete mqueue
  by_cases hin : 0 ≤ i ∧ i < nbQueue
  case neg =>
    rw [if_neg hin]
    exact .error (not_bad _)
  rw [if_pos hin, ok_bind]
  cases hq : s.mqueues i.toNat with
  | none =>
    rw [show s.callAct id (.pdelete i) = s.resetAct id i (.pdelete s.current) from rfl, reset_unused hij hq]
    exact ret_looks
  | some q =>
    refine (deleteQueue_looks id hi hm hr).bind fun x h => ?_
    obtain ⟨hv, _⟩ := h
    rw [if_neg (by omega), ← reset_aside (a := .pdelete s.current) hij hi.toPlaced (by simp [contents, hq])] at hv
    rw [show s.callAct id (.pdelete i) = s.resetAct id i (.pdelete s.current) from rfl, ← hv]
    exact ret_looks

theorem resetQueue_looks (id : Nat) (hi : Inv s) (hm : Mail False s) (hr : s.Serving) : Post (Bad False False) (do
      let s ← s.bumpCptRst j
      s.deleteQueue j q) fun s' =>
      s'.view id = (if j = id then (s.view id).deleted none else (s.view id).outdated) ∧
      s'.current = s.current ∧
      ∃ O, s'.trace = O ++ s.trace ∧ O.reverse.filterMap (Obs.result s.current) = [] := by
  obtain ⟨hbump, hm'⟩ : Moves False False False False False AnyStart s (s.bump j) ∧ Mail False (s.bump j) :=
    bump_mail hm not_false hi nofun
  refine bumpCptRst_spec.bind ?_
  rintro _ rfl
  refine (deleteQueue_looks id (hbump.inv hi) hm' hr).mono fun x h => ?_
  obtain ⟨hv, hc, O, ht, hO⟩ := h
  refine ⟨?_, hc, O ++ [.reset j], ?_, ?_⟩
  · rw [hv, bump_view hm, QueueView.outdated_outdated, QueueView.deleted_outdated]
  · rw [ht, List.append_assoc]
    rfl
  · rw [List.reverse_append, List.filterMap_append, show s.current = (s.bump j).current from rfl, hO]
    rfl

theorem preset_eq (hq : s.mqueues j = some q) (hj : j < nbQueue) : s.preset j = (do
    let s ← (do
      let s ← s.bumpCptRst j
      s.deleteQueue j q)
    (s.allocMqueue j q.count).ret 0) := by
  unfold preset
  rw [mqueue_eq hq hj, ok_bind, Int.toNat_natCast, bind_assoc]
  rfl

theorem preset_yields (hi : Inv s) (hm : Mail False s) (hr : s.Serving) :
    Yields id s (QueueView.step (.preset s.current) (s.view id)) (s.preset id) := by
  simp only [QueueView.step, show (s.view id).queue = s.contents id from rfl]
  cases hq : s.mqueues id with
  | none =>
    unfold preset mqueue
    by_cases hin : (0 : Int) ≤ id ∧ (id : Int) < nbQueue
    case neg =>
      rw [if_neg hin]
      exact .error (not_bad _)
    rw [if_pos hin, Int.toNat_natCast]
    simp only [ok_bind, hq, contents, Option.map_none]
    exact ret_yields
  | some q =>
    obtain ⟨hcount, _, _⟩ := hm.books.counted id q hq
    rw [preset_eq hq (hi.range id (by rw [hq]; rfl))]
    simp only [contents_eq hq]
    refine (resetQueue_looks id hi hm hr).bind fun x h => ?_
    obtain ⟨hv, hc, O, ht, hO⟩ := h
    have hy : Yields id s ((x.allocMqueue id q.count).view id, [.returned x.current 0])
        ((x.allocMqueue id q.count).ret 0) := ret_yields.after hc O ht hO
    have halloc : (x.allocMqueue id q.count).view id = { x.view id with queue := some ⟨q.count, []⟩ } :=
      setMqueue_self_view
    rw [halloc, hv, hc, if_pos rfl] at hy
    rw [List.length_map, ← hcount]
    exact hy

theorem preset_aside {i : Int} (hij : i ≠ id) (hi : Inv s) (hm : Mail False s) (hr : s.Serving) :
    Looks id (Window.replay QueueView.step (s.callAct id (.preset i)).toList (s.view id)).1
      (s.preset i) := by
  unfold preset mqueue
  by_cases hin : 0 ≤ i ∧ i < nbQueue
  case neg =>
    rw [if_neg hin]
    exact .error (not_bad _)
  rw [if_pos hin, ok_bind]
  cases hq : s.mqueues i.toNat with
  | none =>
    rw [show s.callAct id (.preset i) = s.resetAct id i (.preset s.current) from rfl, reset_unused hij hq]
    exact ret_looks
  | some q =>
    change Looks id _ (s.bumpCptRst i.toNat >>= fun w => w.deleteQueue i.toNat q >>= fun w =>
      (w.allocMqueue i.toNat q.count).ret 0)
    rw [← bind_assoc]
    refine (resetQueue_looks id hi hm hr).bind fun x h => ?_
    obtain ⟨hv, _⟩ := h
    have hj : i.toNat ≠ id := by omega
    have halloc : (x.allocMqueue i.toNat q.count).view id = x.view id := setMqueue_view hj
    rw [if_neg hj, ← reset_aside (a := .preset s.current) hij hi.toPlaced (by simp [contents, hq])] at hv
    rw [show s.callAct id (.preset i) = s.resetAct id i (.preset s.current) from rfl, ← hv, ← halloc]
    exact ret_looks

theorem pcreate_looks {count : Int} : Looks id
    (Window.replay QueueView.step (s.callAct id (.pcreate count)).toList (s.view id)).1 (s.pcreate count) := by
  simp only [State.pcreate, callAct]
  by_cases h1 : count > int16Max
  · rw [if_pos h1, if_neg (show ¬ (0 < count ∧ count ≤ int16Max ∧ s.firstAvailableQueue = some id) by omega)]
    exact ret_looks
  by_cases h2 : count ≤ 0
  · rw [if_neg h1, if_pos h2,
      if_neg (show ¬ (0 < count ∧ count ≤ int16Max ∧ s.firstAvailableQueue = some id) by omega)]
    exact ret_looks
  rw [if_neg h1, if_neg h2]
  cases hf : s.firstAvailableQueue with
  | none =>
    rw [if_neg (show ¬ (0 < count ∧ count ≤ int16Max ∧ (none : Option Nat) = some id) by simp)]
    exact ret_looks
  | some j =>
    simp only [Option.some.injEq]
    by_cases hj : j = id
    · subst hj
      have hview : (s.allocMqueue j count.toNat).view j =
          { s.view j with queue := some ⟨count.toNat, []⟩ } := setMqueue_self_view
      rw [if_pos (show 0 < count ∧ count ≤ int16Max ∧ j = j by omega)]
      simp only [Option.toList_some, Window.replay, QueueView.step]
      rw [← hview]
      exact ret_looks
    · have hview : (s.allocMqueue j count.toNat).view id = s.view id := setMqueue_view hj
      rw [if_neg (show ¬ (0 < count ∧ count ≤ int16Max ∧ j = id) from fun h => hj h.2.2)]
      simp only [Option.toList_none, Window.replay]
      rw [← hview]
      exact ret_looks

theorem pcount_looks {i : Int} (hi : Inv s) (hr : s.Serving) (hidle : s.current ≠ s.idle) :
    Looks id (s.view id) (s.pcount i p) := by
  unfold pcount mqueue
  split
  case isFalse => exact .error (not_bad _)
  rw [ok_bind]
  split
  · exact ret_looks
  · cases p with
    | null => exact ret_looks
    | mapped => exact ret_looks (s := s.observe (.counted i.toNat _))
    | unmapped => exact (pageFault_looks hi hr hidle).mono fun _ h => h.1
    | kernel => exact .error (not_bad _)

end State
end DominOS.Process
