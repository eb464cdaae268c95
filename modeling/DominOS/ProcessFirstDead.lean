import DominOS.ProcessStatus

/-! Which of its zombie children a task gets from `waitpid(-1)`: the first one in the list of
children, which is not sorted again when a child dies. -/
namespace DominOS.Process
open IntrusiveLists Fallible Runs

def Obs.died : Obs → Option TaskPtr
  | .exited t _ => some t
  | _ => none

theorem Obs.died_some {o : Obs} {t : TaskPtr} (h : o.died = some t) : ∃ r, o = .exited t r := by
  cases o with
  | exited u r =>
    cases h
    exact ⟨r, rfl⟩
  | _ => cases h

theorem not_both_ahead {α : Type} {l : List α} {a b : α} (hn : l.Nodup) (hab : [a, b].Sublist l) :
    ¬ [b, a].Sublist l := by
  intro hba
  induction l with
  | nil => simp at hab
  | cons x l ih =>
    obtain ⟨hx, hl⟩ := List.nodup_cons.mp hn
    cases hab with
    | cons _ hab =>
      cases hba with
      | cons _ hba => exact ih hl hab hba
      | cons_cons _ _ => exact hx (hab.subset (by simp))
    | cons_cons _ hb =>
      cases hba with
      | cons _ hba => exact hx (hba.subset (by simp))
      | cons_cons _ _ => exact hx (hb.subset (by simp))

namespace State
variable {s s' : State} {t c d : TaskPtr} {k : Task} {q : UserPtr} {l : List TaskPtr}

section FirstDead

/-- The tasks that have died, in the order of their deaths. -/
def deaths (s : State) : List TaskPtr := (s.trace.filterMap Obs.died).reverse

def ZombieChild (s : State) (c : TaskPtr) : Prop :=
  ∃ k, s.tasks c = some k ∧ k.state = .zombie ∧ k.parent = some s.current

instance (s : State) (c : TaskPtr) : Decidable (s.ZombieChild c) :=
  match hc : s.tasks c with
  | none => isFalse fun ⟨_, hk, _⟩ => nomatch hc.symm.trans hk
  | some k => decidable_of_iff (k.state = .zombie ∧ k.parent = some s.current)
      ⟨fun h => ⟨k, hc, h⟩, fun ⟨_, hk, h⟩ => by cases hc.symm.trans hk; exact h⟩

/-- Of the zombie children of the current task `c` terminated earliest. -/
def FirstDead (s : State) (c : TaskPtr) : Prop :=
  s.ZombieChild c ∧ ∀ d, s.ZombieChild d → d ≠ c → [c, d].Sublist s.deaths

def FirstDeadAhead (s : State) : Prop :=
  ∀ c d, s.FirstDead c → s.ZombieChild d → d ≠ c → [c, d].Sublist (s.siblings.members s.current)

/-- `waitpid(-1, q)` gives pid and status of the earliest death, and frees that child. -/
def ReapsFirstDead (s : State) (q : UserPtr) : Prop :=
  ∃ s₁ s₂ c k, step (.call (.waitpid (-1) q)) s = .ok s₁ ∧ step .kernel s₁ = .ok s₂ ∧
    s.FirstDead c ∧ s.tasks c = some k ∧ s₂.tasks c = none ∧
    s₂.trace = .returned s.current k.pid :: .reaped s.current c k.pid k.retval :: s.trace

theorem Ledger.deaths_nodup (h : s.Ledger) : s.deaths.Nodup := by
  have hall (tr : List Obs) (hx : ∀ f t r b, tr = f ++ .exited t r :: b → ∀ r', .exited t r' ∉ b) :
      (tr.filterMap Obs.died).Nodup := by
    induction tr with
    | nil => simp
    | cons o tr ih =>
      have htail := ih fun f t r b h => hx (o :: f) t r b (by rw [h]; rfl)
      cases ho : o.died with
      | none => simpa [ho] using htail
      | some t =>
        obtain ⟨r, rfl⟩ := Obs.died_some ho
        rw [List.filterMap_cons_some ho]
        refine List.nodup_cons.mpr ⟨fun hm => ?_, htail⟩
        obtain ⟨o', hm', ho'⟩ := List.mem_filterMap.mp hm
        obtain ⟨r', rfl⟩ := Obs.died_some ho'
        exact hx [] t r tr rfl r' hm'
  exact List.nodup_reverse.mpr (hall s.trace h.exits)

theorem Ledger.mem_deaths (h : s.Ledger) (hc : s.ZombieChild c) : c ∈ s.deaths := by
  obtain ⟨k, hk, hz, _⟩ := hc
  apply List.mem_reverse.mpr
  exact List.mem_filterMap.mpr ⟨_, h.dead c k hk hz, rfl⟩

theorem Ledger.firstDead (h : s.Ledger) (hc : s.ZombieChild c) : ∃ d, s.FirstDead d := by
  classical
  have hmem (d : TaskPtr) : d ∈ s.deaths.filter (s.ZombieChild ·) ↔ s.ZombieChild d := by
    simpa using h.mem_deaths
  cases hl : s.deaths.filter (s.ZombieChild ·) with
  | nil =>
    have hm := (hmem c).mpr hc
    rw [hl] at hm
    cases hm
  | cons d rest =>
    refine ⟨d, (hmem d).mp (by rw [hl]; exact List.mem_cons_self), fun e he hne => ?_⟩
    have hrest : e ∈ rest := by
      have hm := (hmem e).mpr he
      rw [hl] at hm
      exact (List.mem_cons.mp hm).resolve_left hne
    have hsub : (d :: rest).Sublist s.deaths := hl ▸ List.filter_sublist
    exact ((List.singleton_sublist.mpr hrest).cons_cons d).trans hsub

theorem FirstDead.unique (h : s.Ledger) (hc : s.FirstDead c) (hd : s.FirstDead d) : d = c := by
  by_contra hne
  exact not_both_ahead h.deaths_nodup (hc.2 d hd.1 hne) (hd.2 c hc.1 (Ne.symm hne))

end FirstDead

section WaitAny

theorem findZombie_ahead (hl : ∀ t ∈ l, ∃ k, s.tasks t = some k) (h : s.findZombie l = .ok (some c))
    (hd : d ∈ l) (hk : s.tasks d = some k) (hz : k.state = .zombie) (hne : d ≠ c) :
    [c, d].Sublist l := by
  induction l with
  | nil => cases hd
  | cons t rest ih =>
    obtain ⟨kt, hkt⟩ := hl t List.mem_cons_self
    unfold findZombie at h
    rw [isZombie_eq hkt, ok_bind] at h
    split at h
    · cases h
      exact (List.singleton_sublist.mpr ((List.mem_cons.mp hd).resolve_left hne)).cons_cons _
    · rename_i hnot
      have hdt : d ≠ t := by
        rintro rfl
        rw [hk] at hkt
        cases hkt
        simp [hz] at hnot
      exact (ih (fun u hu => hl u (List.mem_cons_of_mem _ hu)) h
        ((List.mem_cons.mp hd).resolve_left hdt)).cons _

theorem ZombieChild.mem (h : s.ZombieChild c) (hi : Inv s) : c ∈ s.siblings.members s.current := by
  obtain ⟨k, hk, _, hp⟩ := h
  exact Links.mem_of_link ((hi.children c s.current).mpr ⟨k, hk, hp⟩)

theorem ZombieChild.found (h : s.ZombieChild c) (hi : Inv s) : ∃ d,
    s.findZombie (s.siblings.members s.current) = .ok (some d) ∧ s.ZombieChild d ∧
      ∀ e, s.ZombieChild e → e ≠ d → [d, e].Sublist (s.siblings.members s.current) := by
  have hchild (t : TaskPtr) (ht : t ∈ s.siblings.members s.current) :
      ∃ k, s.tasks t = some k ∧ k.parent = some s.current :=
    (hi.children t s.current).mp (Links.link_of_mem ht)
  obtain ⟨o, ho, hsome, hnone⟩ := findZombie_spec fun t ht => (hchild t ht).imp fun _ h => h.1
  cases o with
  | none =>
    have hm := h.mem hi
    obtain ⟨k, hk, hz, _⟩ := h
    exact absurd hz (hnone rfl c hm k hk)
  | some d =>
    obtain ⟨hm, k, hk, hz⟩ := hsome d rfl
    obtain ⟨k', hk', hp⟩ := hchild d hm
    rw [hk] at hk'
    cases hk'
    refine ⟨d, ho, ⟨k, hk, hz, hp⟩, fun e he hne => ?_⟩
    have hme := he.mem hi
    obtain ⟨ke, hke, hze, _⟩ := he
    exact findZombie_ahead (fun t ht => (hchild t ht).imp fun _ h => h.1) ho hme hke hze hne

theorem waitpid_any (hu : s.ctl = .user) (hrun : s.Serving) (hq : q = .null ∨ q = .mapped) :
    ∃ s₁, step (.call (.waitpid (-1) q)) s = .ok s₁ ∧
      step .kernel s₁ = (s.setCtl .resume).waitAnyChild q := by
  obtain ⟨k, hk, _, hkont⟩ := hrun
  refine ⟨s.wentOn k (.waitAnyChild q) .resume, ?_, ?_⟩
  · unfold step stepWith
    rw [hu]
    change s.waitpid (-1) q = _
    unfold waitpid
    rw [if_neg (by rcases hq with rfl | rfl <;> simp), if_pos (by decide)]
    exact goOn_eq hk
  · have hself : (s.wentOn k (.waitAnyChild q) .resume).tasks s.current =
        some { k with kont := .waitAnyChild q } := wentOn_self
    have hback : (s.wentOn k (.waitAnyChild q) .resume).setTask s.current { k with kont := .iret } =
        s.setCtl .resume := by
      rw [← hkont]
      simp [wentOn, setTask, setCtl, ← hk]
    change (s.wentOn k (.waitAnyChild q) .resume).resume = _
    unfold resume
    rw [task_ok (t := (s.wentOn k (.waitAnyChild q) .resume).current) hself, ok_bind, ← hback]
    rfl

theorem waitpid_any_refused (hu : s.ctl = .user) (hq : ¬ (q = .null ∨ q = .mapped)) {s₁ : State}
    (h : step (.call (.waitpid (-1) q)) s = .ok s₁) : step .kernel s₁ = .error .disabled := by
  unfold step stepWith at h
  rw [hu] at h
  change s.waitpid (-1) q = _ at h
  unfold waitpid at h
  rw [if_pos (not_or.mp hq)] at h
  cases h
  rfl

theorem waitAnyChild_found (hi : Inv s) (hc : s.findZombie (s.siblings.members s.current) = .ok (some c))
    (hz : s.ZombieChild c) (hrun : s.Running) : ∃ k s₂, s.tasks c = some k ∧
      (s.setCtl .resume).waitAnyChild q = .ok s₂ ∧ s₂.tasks c = none ∧
      s₂.trace = .returned s.current k.pid :: .reaped s.current c k.pid k.retval :: s.trace := by
  have hm := hz.mem hi
  obtain ⟨k, hk, _, hp⟩ := hz
  obtain ⟨kc, hkc, _⟩ := hrun
  refine ⟨k, ((((s.setCtl .resume).freed c).observe
    (.reaped s.current c k.pid k.retval)).returned k.pid), hk, ?_, Function.update_self .., rfl⟩
  have hfind : (s.setCtl .resume).findZombie ((s.setCtl .resume).siblings.members s.current) =
      .ok (some c) := by
    rw [← hc]
    exact findZombie_congr fun _ _ => rfl
  have hfree : (s.setCtl .resume).freeTask c = .ok ((s.setCtl .resume).freed c) := by
    rw [freeTask_eq, if_pos]
    intro p hlink
    obtain ⟨k', hk', hp'⟩ := (hi.children c p).mp hlink
    rw [hk] at hk'
    cases hk'
    rw [hp] at hp'
    cases hp'
    exact Option.isSome_iff_exists.mpr ⟨kc, hkc⟩
  unfold waitAnyChild
  rw [if_neg (show (s.setCtl .resume).siblings.members (s.setCtl .resume).current ≠ [] from
    List.ne_nil_of_mem hm), show (s.setCtl .resume).current = s.current from rfl, hfind, ok_bind]
  simp only
  unfold reapChild
  rw [task_ok (show (s.setCtl .resume).tasks c = some k from hk), ok_bind, hfree, ok_bind]
  rfl

end WaitAny

/-- In every run in which idle only calls `start`, `waitpid(-1)` reaps the zombie child that
terminated earliest exactly when its pointer is good and no other is ahead of that child. -/
theorem waitpid_reaps_first_dead (h : Run IdleStarts s) (hu : s.ctl = .user)
    (hz : ∃ c, s.ZombieChild c) :
    s.ReapsFirstDead q ↔ (q = .null ∨ q = .mapped) ∧ s.FirstDeadAhead := by
  have main : Sound False False False s ∧ s.Ledger := by
    apply h.invariant (I := fun s => Sound False False False s ∧ s.Ledger)
    · rintro _ rfl
      exact ⟨boot_sound, boot_ledger⟩
    · rintro s t ⟨hs, hl⟩ ⟨e, he, hr⟩
      have st := (step_spec hs (IdleStarts.allows he)).elim hr
      exact ⟨st.sound hs, st.ledger hs hl⟩
  obtain ⟨hs, hl⟩ := main
  obtain ⟨z, hz⟩ := hz
  obtain ⟨d, hfind, hd, hahead⟩ := hz.found hs.inv
  obtain ⟨kd, s₂, hkd, hwait, hgone, htrace⟩ :=
    waitAnyChild_found (q := q) hs.inv hfind hd (hs.running (by rw [hu]; decide))
  constructor
  · rintro ⟨t₁, t₂, c, k, hcall, hkernel, hc, _, _, hreaped⟩
    have hq : q = .null ∨ q = .mapped := by
      by_contra hq
      cases (waitpid_any_refused hu hq hcall).symm.trans hkernel
    refine ⟨hq, fun e f he hf hne => ?_⟩
    obtain ⟨s₁, hcall', hkernel'⟩ := waitpid_any hu (hs.serving hu) hq
    cases hcall.symm.trans hcall'
    cases (hkernel.symm.trans hkernel').trans hwait
    have hdc : d = c := by
      have hboth := htrace.symm.trans hreaped
      simp only [List.cons.injEq, Obs.reaped.injEq, true_and] at hboth
      exact hboth.2.1.1
    subst hdc
    cases FirstDead.unique hl hc he
    exact hahead f hf hne
  · rintro ⟨hq, hfirst⟩
    obtain ⟨s₁, hcall, hkernel⟩ := waitpid_any hu (hs.serving hu) hq
    obtain ⟨c, hc⟩ := hl.firstDead hz
    have hcd : c = d := by
      by_contra hne
      exact not_both_ahead (s.siblings.nodup s.current) (hfirst c d hc hd (Ne.symm hne))
        (hahead c hc.1 hne)
    subst hcd
    exact ⟨s₁, s₂, c, kd, hcall, hkernel.trans hwait, hc, hkd, hgone, htrace⟩

/-- Two children are killed, the one of lower priority first. -/
theorem waitpid_reaps_first_dead_two : ∃ s : State, s.current = 1 ∧ s.deaths = [3, 2] ∧
    s.ZombieChild 2 ∧ s.ZombieChild 3 ∧ s.ReapsFirstDead .mapped := by
  have hrun : Ends (exec (admitted IdleStarts) [.call (.start (anApp 3)), .kernel,
      .call (.start (anApp 2)), .kernel, .call (.start (anApp 1)), .kernel, .call (.kill 3),
      .call (.kill 2)] boot)
      fun s => s.ctl = .user ∧ s.ZombieChild 2 ∧ s.ZombieChild 3 ∧ s.current = 1 ∧
        s.deaths = [3, 2] ∧ s.siblings.members s.current = [3, 2] := by
    decide +kernel
  obtain ⟨s, hs, hu, hz, hz', hcur, hdeaths, hlist⟩ := hrun.elim
  refine ⟨s, hcur, hdeaths, hz, hz', ?_⟩
  refine (waitpid_reaps_first_dead (Run.replayed hs) hu ⟨2, hz⟩).mpr ⟨Or.inr rfl, ?_⟩
  intro c d hc hd hne
  rw [hlist, ← hdeaths]
  exact hc.2 d hd hne

/-- The child of higher priority dies first, and the other one is reaped. -/
theorem later_death_reaped : ∃ s : State, Run IdleStarts s ∧ s.ctl = .user ∧
    (∃ c, s.ZombieChild c) ∧ ¬ s.ReapsFirstDead .mapped := by
  have hrun : Ends (exec (admitted IdleStarts) [.call (.start (anApp 3)), .kernel,
      .call (.start (anApp 2)), .kernel, .call (.start (anApp 1)), .kernel, .call (.kill 2),
      .call (.kill 3)] boot)
      fun s => s.ctl = .user ∧ s.ZombieChild 2 ∧ s.current = 1 ∧ ¬ [3, 2].Sublist s.deaths ∧
        Ends (exec step [.call (.waitpid (-1) .mapped), .kernel] s) fun s₂ =>
          s₂.trace = .returned 1 3 :: .reaped 1 3 3 0 :: s.trace := by
    decide +kernel
  obtain ⟨s, hs, hu, hz, hcur, hdeaths, hreap⟩ := hrun.elim
  refine ⟨s, Run.replayed hs, hu, ⟨2, hz⟩, ?_⟩
  rintro ⟨s₁, s₂, c, k, hcall, hkernel, hc, _, _, htrace⟩
  obtain ⟨t, ht, htrace'⟩ := hreap.elim
  simp only [exec, hcall, hkernel, Except.ok.injEq] at ht
  subst ht
  have hboth := htrace.symm.trans htrace'
  simp only [List.cons.injEq, Obs.reaped.injEq, and_true] at hboth
  have hc3 : c = 3 := hboth.2.2.1
  subst hc3
  exact hdeaths (hc.2 2 hz (by decide))

end State
end DominOS.Process
