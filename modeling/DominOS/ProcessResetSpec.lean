import DominOS.ProcessMsgSpec

/-! `pcreate`, `pdelete`, `preset` and `pcount` on a state that satisfies the invariants. -/
namespace DominOS.Process
open IntrusiveLists Fallible Relation
namespace State
variable {s s' s₀ : State} {t u : TaskPtr} {c k l : Task} {h hd : Head} {kont : Kont} {id : Nat}
  {q : MQueue} {msg v : Msg} {p : UserPtr} {rst : Nat} {A D T K R L : Prop}
  {B : State → StartArgs → Prop} {mem : Bool}

theorem release_eq (hk : s.tasks t = some k) (hm : k.state = .interruptedMsg)
    (hl : s.queues.link t ≠ none) : s.release t = .ok (s.woken t k) := by
  have hready : (s.unlink t).setTaskReady t = .ok (((s.unlink t).setTask t
      { k with state := .ready }).move .ready t) :=
    setTaskState_eq hk (by rw [hm]; decide)
      ⟨fun h => absurd hm h.2.2, fun h => absurd Links.link_erase_self h⟩
  unfold release
  rw [queueDel_eq hl, ok_bind, hready]
  exact congrArg Except.ok (move_unlink (s := s.setTask t { k with state := .ready }))

structure Released (s s' : State) : Prop where
  current : s'.current = s.current
  idle : s'.idle = s.idle
  self : s'.tasks s.current = s.tasks s.current
  mqueues : s'.mqueues = s.mqueues
  cptRst : s'.cptRst = s.cptRst
  sends : s'.sends = s.sends
  trace : s'.trace = s.trace
  inside : ∀ t kont v, s'.Inside t kont v ↔ s.Inside t kont v
  priority : ∀ t k', s'.tasks t = some k' → ∃ k, s.tasks t = some k ∧ k.priority = k'.priority

theorem Released.refl (s : State) : s.Released s :=
  ⟨rfl, rfl, rfl, rfl, rfl, rfl, rfl, fun _ _ _ => Iff.rfl, fun _ k hk => ⟨k, hk, rfl⟩⟩

theorem Released.trans {s'' : State} (r : s.Released s') (r' : s'.Released s'') :
    s.Released s'' where
  current := r'.current.trans r.current
  idle := r'.idle.trans r.idle
  self := by
    have h := r'.self
    rw [r.current] at h
    exact h.trans r.self
  mqueues := r'.mqueues.trans r.mqueues
  cptRst := r'.cptRst.trans r.cptRst
  sends := r'.sends.trans r.sends
  trace := r'.trace.trans r.trace
  inside t kont v := (r'.inside t kont v).trans (r.inside t kont v)
  priority t k hk := by
    obtain ⟨k', hk', hp⟩ := r'.priority t k hk
    obtain ⟨k'', hk'', hp'⟩ := r.priority t k' hk'
    exact ⟨k'', hk'', hp'.trans hp⟩

theorem woken_released (hk : s.tasks t = some k) (hz : k.state ≠ .zombie) (hc : t ≠ s.current) :
    s.Released (s.woken t k) where
  current := rfl
  idle := rfl
  self := woken_of_ne (Ne.symm hc)
  mqueues := rfl
  cptRst := rfl
  sends := rfl
  trace := rfl
  inside u kont v := by
    by_cases hu : u = t
    · subst hu
      rw [inside_iff woken_self nofun, inside_iff hk hz]
    · exact inside_congr (woken_of_ne hu)
  priority u k' hu := by
    by_cases h : u = t
    · subst h
      rw [woken_self] at hu
      cases hu
      exact ⟨k, hk, rfl⟩
    · exact ⟨k', (woken_of_ne h) ▸ hu, rfl⟩

/-- The state of the loop that releases the tasks of a waiting list. -/
structure Releasing (T D K R L : Prop) (B : State → StartArgs → Prop) (s : State) (hd : Head) (rest : List TaskPtr) (s' : State) :
    Prop where
  moves : Moves T D K R L B s s'
  released : s.Released s'
  nodup : rest.Nodup
  left : ∀ t, t ∈ s'.queues.members hd ↔ t ∈ rest
  tasks : ∀ t, t ∈ rest ∨ t ∉ s.queues.members hd → s'.tasks t = s.tasks t
  woke : ∀ t ∈ s.queues.members hd, t ∉ rest → ∃ k, s'.tasks t = some k ∧ k.state = .ready
  lists : ∀ h, h ≠ .ready → h ≠ hd → s'.queues.members h = s.queues.members h

def WaitsBelow (s : State) (h : Head) : Prop :=
  ∀ t k c, t ∈ s.queues.members h → s.tasks t = some k → s.tasks s.current = some c →
    k.priority ≤ c.priority

theorem releaseAll_spec (hi : Inv s) (hm : hd.state = .interruptedMsg)
    (hc : s.tasks s.current = some c) (hr : c.state = .running) (hT : T → s.WaitsBelow hd)
    (hrst : ∀ t id msg rst v, s.Inside t (.psendLoop id msg rst) v → rst < s.cptRst) :
    Post (Bad A D) ((s.queues.members hd).reverse.foldlM release s)
      (Releasing T D K R L B s hd []) := by
  refine Post.foldlM (fun _ rest => Releasing T D K R L B s hd rest) ?_ ?_
  · exact ⟨.refl, .refl s, List.nodup_reverse.mpr (s.queues.nodup hd), fun t => by simp,
      fun _ _ => rfl, fun t ht hn => absurd (List.mem_reverse.mpr ht) hn, fun _ _ _ => rfl⟩
  · intro _ t rest w hw
    have hi' := hw.moves.inv hi
    obtain ⟨hnt, hnr⟩ := List.nodup_cons.mp hw.nodup
    have hmem : t ∈ w.queues.members hd := (hw.left t).mpr (by simp)
    have hcw : w.tasks w.current = some c := by rw [hw.released.current, hw.released.self, hc]
    obtain ⟨k, hk, hks, hne⟩ := hi'.waiting hmem hm hcw hr
    have hlink := Links.link_of_mem hmem
    have hk₀ : s.tasks t = some k := by rw [← hw.tasks t (Or.inl (by simp)), hk]
    have hmem₀ : t ∈ s.queues.members hd := by
      obtain ⟨h', hl', hs', _⟩ := (hi.home t k hk₀).linked (by rw [hks]; decide)
      have hback : t ∈ w.queues.members h' ∨ h' = hd := by
        by_cases he : h' = hd
        · exact Or.inr he
        · refine Or.inl ?_
          rw [hw.lists h' (by rintro rfl; rw [hks] at hs'; cases hs') he]
          exact Links.mem_of_link hl'
      rcases hback with hb | rfl
      · have := (Links.link_of_mem hb).symm.trans hlink
        cases this
        exact Links.mem_of_link hl'
      · exact Links.mem_of_link hl'
    refine .of_eq (release_eq hk hks (by rw [hlink]; simp)) ?_
    have hmove : Talk T K R L w (w.woken t k) := by
      refine .release hk hne hks hcw (fun h => hT h t k c hmem₀ hk₀ hc) fun id msg rst hkont => ?_
      rw [hw.released.cptRst]
      refine hrst t id msg rst k.msgVal ((hw.released.inside _ _ _).mp ?_)
      exact ⟨k, hk, by rw [hks]; decide, hkont, rfl⟩
    have hhd : hd ≠ .ready := by
      rintro rfl
      cases hm
    refine ⟨hw.moves.tail (.talk hmove),
      hw.released.trans (woken_released hk (by rw [hks]; decide) hne), hnr, fun u => ?_, fun u hu => ?_,
      fun u hu hnot => ?_, fun h h1 h2 => ?_⟩
    · rw [show (w.woken t k).queues.members hd = (w.queues.members hd).erase t from
        Links.members_move_of_ne hhd, (w.queues.nodup hd).mem_erase_iff, hw.left, List.mem_cons]
      constructor
      · rintro ⟨h1, h2⟩
        exact h2.resolve_left h1
      · intro hu
        exact ⟨fun he => hnt (he ▸ hu), Or.inr hu⟩
    · have hut : u ≠ t := by
        rintro rfl
        exact hu.elim hnt fun h => h hmem₀
      rw [woken_of_ne hut, hw.tasks u (hu.imp_left (List.mem_cons_of_mem _))]
    · by_cases hut : u = t
      · subst hut
        exact ⟨_, woken_self, rfl⟩
      · rw [woken_of_ne hut]
        exact hw.woke u hu fun h => (List.mem_cons.mp h).elim hut hnot
    · rw [show (w.woken t k).queues.members h = (w.queues.members h).erase t from
        Links.members_move_of_ne h1, List.erase_of_not_mem, hw.lists h h1 h2]
      intro hth
      have := (Links.link_of_mem hth).symm.trans hlink
      cases this
      exact h2 rfl

theorem Releasing.empty (r : Releasing T D K R L B s hd [] s') : s'.queues.members hd = [] :=
  List.eq_nil_iff_forall_not_mem.mpr fun t ht => by cases (r.left t).mp ht

theorem Released.waitsBelow (r : s.Released s') (h : s.WaitsBelow hd)
    (hl : s'.queues.members hd = s.queues.members hd) : s'.WaitsBelow hd := by
  intro t k c ht hk hc
  obtain ⟨l, hl', hp⟩ := r.priority t k hk
  rw [hl] at ht
  rw [r.current, r.self] at hc
  rw [← hp]
  exact h t l c ht hl' hc

/-- The messages that wait, in the queue or with a task, are all of one queue. -/
def ResetLoses (s : State) (id : Nat) : Prop := ∃ t j msg, s.Held t j msg ∧ j ≠ id

theorem bump_mail (hm : Mail K s) (hR : ¬ R) (hi : Inv s) (hK : K → ¬ s.ResetLoses id) :
    Moves T D K R L B s (s.bump id) ∧ Mail K (s.bump id) := by
  have hmove : Moves T D K R L B s (s.bump id) := by
    refine .single (.talk (.bump hR fun hk t j msg hh => ?_))
    by_contra hj
    exact hK hk ⟨t, j, msg, hh, hj⟩
  exact ⟨hmove, hmove.mail hi hm⟩

theorem bumpCptRst_spec : Post (Bad A D) (s.bumpCptRst id) (fun w => w = s.bump id) := by
  unfold bumpCptRst
  split
  · exact .ok rfl
  · exact .error nofun

structure Deleted (T D K R L : Prop) (B : State → StartArgs → Prop) (s : State) (id : Nat) (s' : State) :
    Prop where
  moves : Moves T D K R L B s s'
  serving : s'.Serving
  unused : s'.mqueues id = none
  current : s'.current = s.current
  idle : s'.idle = s.idle
  cptRst : s'.cptRst = s.cptRst + 1
  senders : s'.queues.members (.waitingSenders id) = []
  receivers : s'.queues.members (.waitingReceivers id) = []
  inside : ∀ t kont v, s'.Inside t kont v ↔ s.Inside t kont v
  woke : ∀ t, t ∈ s.queues.members (.waitingSenders id) ∨ t ∈ s.queues.members (.waitingReceivers id) →
    ∃ k, s'.tasks t = some k ∧ k.state = .ready

theorem deleteQueue_spec (hi : Inv s) (hm : Mail K s) (hrun : s.Serving) (hq : s.mqueues id = some q)
    (hR : ¬ R) (hK : K → ¬ s.ResetLoses id)
    (hT : T → s.WaitsBelow (.waitingSenders id) ∧ s.WaitsBelow (.waitingReceivers id))
    (hL : L → q.count ≠ 1) :
    Post (Bad A D) (s.deleteQueue id q) (Deleted T D K R L B s id) := by
  obtain ⟨k, hk, hr, hkont⟩ := hrun
  obtain ⟨hbump, hm'⟩ := bump_mail (T := T) (D := D) (R := R) (L := L) (B := B) hm hR hi hK
  have hi' := hbump.inv hi
  have below {t : TaskPtr} {kont : Kont} {v : Msg} {rst : Nat} (hin : (s.bump id).Inside t kont v)
      (hkont : (∃ j msg, kont = .psendLoop j msg rst) ∨ ∃ j p, kont = .preceiveLoop j p rst) :
      rst < (s.bump id).cptRst := by
    have hin : s.Inside t kont v := hin
    have hf := hm.fact t kont v hin
    refine Nat.lt_succ_of_le ?_
    rcases hkont with ⟨j, msg, rfl⟩ | ⟨j, p, rfl⟩
    · exact hf.1
    · exact hf.1
  unfold deleteQueue
  refine .bind bumpCptRst_spec ?_
  rintro _ rfl
  have senders : Post (Bad A D)
      ((s.queues.members (.waitingSenders id)).reverse.foldlM release (s.bump id))
      (Releasing T D K R L B (s.bump id) (.waitingSenders id) []) :=
    releaseAll_spec hi' rfl hk hr (fun h => (hT h).1) fun t j msg rst v hin =>
      below hin (Or.inl ⟨j, msg, rfl⟩)
  refine senders.bind fun w hw => ?_
  have hkw : w.tasks w.current = some k := by rw [hw.released.current, hw.released.self]; exact hk
  have receivers : Post (Bad A D) ((w.queues.members (.waitingReceivers id)).reverse.foldlM release w)
      (Releasing T D K R L B w (.waitingReceivers id) []) := by
    refine releaseAll_spec (hw.moves.inv hi') rfl hkw hr (fun h =>
      hw.released.waitsBelow (hT h).2 (hw.lists _ nofun nofun)) fun t j msg rst v hin => ?_
    rw [hw.released.cptRst]
    exact below ((hw.released.inside _ _ _).mp hin) (Or.inl ⟨j, msg, rfl⟩)
  refine receivers.bind fun x hx => ?_
  have hxs := hw.released.trans hx.released
  have hsenders : x.queues.members (.waitingSenders id) = [] := by
    rw [hx.lists (.waitingSenders id) nofun nofun]
    exact hw.empty
  have hempty : Talk T K R L x (x.freeMqueue id q) := by
    refine .empty (by rw [hxs.mqueues]; exact hq) hsenders hx.empty (fun msg hmsg => ?_)
      (fun t p rst v hin => ?_) hL
    · rw [hxs.trace]
      refine ⟨[], s.trace, rfl, Story.entered_of_held ?_⟩
      rw [hm.books.held_eq hq]
      exact hmsg
    · rw [hxs.cptRst]
      exact below ((hxs.inside _ _ _).mp hin) (Or.inr ⟨id, p, rfl⟩)
  refine .ok ⟨(hbump.trans (hw.moves.trans hx.moves)).tail (.talk hempty), ⟨k, ?_, hr, hkont⟩,
    Function.update_self _ _ _, ?_, hxs.idle, ?_, ?_, ?_, fun t kont v => ?_, fun t ht => ?_⟩
  · rw [freeMqueue_tasks, freeMqueue_current, hx.released.current, hx.released.self]
    exact hkw
  · rw [freeMqueue_current]
    exact hxs.current
  · rw [freeMqueue_cptRst]
    exact hxs.cptRst
  · rw [freeMqueue_queues]
    exact hsenders
  · rw [freeMqueue_queues]
    exact hx.empty
  · unfold Inside
    rw [freeMqueue_tasks]
    exact hxs.inside t kont v
  · rw [freeMqueue_tasks]
    have hlist : w.queues.members (.waitingReceivers id) = s.queues.members (.waitingReceivers id) :=
      hw.lists _ nofun nofun
    by_cases hr : t ∈ w.queues.members (.waitingReceivers id)
    · exact hx.woke t hr List.not_mem_nil
    · rw [hx.tasks t (Or.inr hr)]
      exact hw.woke t (ht.resolve_right (hlist ▸ hr)) List.not_mem_nil

theorem pdelete_spec {i : Int} (hi : Inv s) (hm : Mail K s) (hrun : s.Serving) (hR : ¬ R)
    (hK : K → ¬ s.ResetLoses i.toNat)
    (hT : T → s.WaitsBelow (.waitingSenders i.toNat) ∧ s.WaitsBelow (.waitingReceivers i.toNat))
    (hL : L → ∀ q, s.mqueues i.toNat = some q → q.count ≠ 1) :
    Post (Bad A D) (s.pdelete i) (Outcome A T D K R L B s) := by
  unfold pdelete mqueue
  split
  · rw [ok_bind]
    split
    · exact ret_spec .refl hrun
    · rename_i q hq
      refine .bind (deleteQueue_spec (B := B) hi hm hrun hq hR hK hT fun h => hL h q hq) fun w hw => ?_
      exact ret_spec hw.moves hw.serving
  · exact .error nofun

theorem preset_spec {i : Int} (hi : Inv s) (hm : Mail K s) (hrun : s.Serving) (hR : ¬ R)
    (hK : K → ¬ s.ResetLoses i.toNat)
    (hT : T → s.WaitsBelow (.waitingSenders i.toNat) ∧ s.WaitsBelow (.waitingReceivers i.toNat))
    (hL : L → ∀ q, s.mqueues i.toNat = some q → q.count ≠ 1) (hidle : s.current ≠ s.idle)
    (hd : D → s.NoDangling) :
    Post (Bad A D) (s.preset i mem) (Outcome A T D K R L B s) := by
  unfold preset mqueue
  split
  · rename_i hid
    rw [ok_bind]
    split
    · exact ret_spec .refl hrun
    · rename_i q hq
      refine .bind bumpCptRst_spec ?_
      rintro _ rfl
      obtain ⟨hbump, hm'⟩ := bump_mail (T := T) (D := D) (R := R) (L := L) (B := B) hm hR hi hK
      refine .bind (deleteQueue_spec (B := B) (s := s.bump i.toNat) (hbump.inv hi) hm' hrun hq hR hK hT
        fun h => hL h q hq) fun w hw => ?_
      have hcreate : Talk T K R L w (w.allocMqueue i.toNat q.count) := by
        refine .create hw.unused (by omega) ?_ (absurd · hR)
        obtain ⟨_, h1, h2⟩ := hm.books.counted _ q hq
        omega
      split
      · exact ret_spec ((hbump.trans hw.moves).tail (.talk hcreate)) hw.serving
      · have m : Moves T D K R L B s w := hbump.trans hw.moves
        have m' : Moves False D K R L B s w := m.mono False.elim
        refine pageFault_spec hi m' hw.serving ?_ (noDangling_of_moves m' hi hd)
        rw [hw.current, hw.idle]
        exact hidle
  · exact .error nofun

theorem pcreate_spec {n : Int} (hi : Inv s) (hrun : s.Serving) (hidle : s.current ≠ s.idle)
    (hd : D → s.NoDangling) : Post (Bad A D) (s.pcreate n mem) (Outcome A T D K R L B s) := by
  unfold pcreate
  split
  · exact ret_spec .refl hrun
  rename_i hle
  split
  · exact ret_spec .refl hrun
  rename_i hpos
  split
  · exact ret_spec .refl hrun
  · rename_i id hid
    have hnone : s.mqueues id = none := by simpa using List.find?_some hid
    have hlt : id < nbQueue := List.mem_range.mp (List.mem_of_find?_eq_some hid)
    split
    · refine ret_spec (.single (.talk (.create hnone hlt ?_ fun _ => ?_))) hrun
      · rw [Int.toNat_of_nonneg (by omega)]
        exact not_lt.mp hle
      · omega
    · exact pageFault_spec hi .refl hrun hidle hd

theorem pcount_spec {i : Int} (hi : Inv s) (hrun : s.Serving) (hidle : s.current ≠ s.idle)
    (hd : D → s.NoDangling) : Post (Bad A D) (s.pcount i p) (Outcome A T D K R L B s) := by
  unfold pcount mqueue
  split
  · rw [ok_bind]
    split
    · exact ret_spec .refl hrun
    · rename_i q hq
      split
      · exact ret_spec .refl hrun
      · refine ret_spec (.single (.plain (.quiet ?_))) hrun
        exact Quiet.beside (w := [.counted i.toNat (s.countOf i.toNat q)]) s.ctl s.totalTicks
          (by simp [Obs.Plain, Obs.Silent])
      · exact pageFault_spec hi .refl hrun hidle hd
      · exact .error fun hbad => by cases hbad
  · exact .error fun hbad => by cases hbad

end State
end DominOS.Process
