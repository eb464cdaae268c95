import DominOS.ProcessHoldings

/-! Runs in which all processes die: idle's `schedule` gives back what they had. -/
namespace DominOS.Process
open AddressSpaces (Mem StartOffers)
open Fallible Relation Runs

variable {o : TaskPtr → StartOffers} {m₀ m : Mem}

namespace State
variable {s s' s₁ s₂ : State} {t : TaskPtr} {k : Task} {e : Event}

section Death

def AllDead (s : State) : Prop := ∀ t k, s.tasks t = some k → t ≠ s.idle → k.state = .zombie

def Deserted (s : State) : Prop := ∀ t, t ≠ s.idle → s.tasks t = none

theorem reap_freed (hi : Inv s) (hd : s.AllDead) (hk : s.tasks t = some k) (hz : k.state = .zombie)
    (ht : t ≠ s.current) (h : s.reap t = .ok s') : s' = s.freed t := by
  have hspec : Post (Bad False False) (s.reap t) _ := reap_spec (D := False) hi hk hz False.elim
  rcases hspec.elim h with ⟨rfl, hno⟩ | ⟨rfl, _⟩
  · refine absurd ⟨ht, ?_⟩ hno
    cases hp : k.parent with
    | none => exact absurd (hi.parent t k hk hp) (hi.not_idle hk hz)
    | some p =>
      by_cases hidle : p = s'.idle
      · exact Or.inl (congrArg some hidle)
      · have hparent : k.parent ≠ some s'.idle := fun he => hidle (Option.some.inj (hp.symm.trans he))
        unfold reap at h
        rw [task_ok hk, ok_bind, if_neg ht, if_neg hparent] at h
        simp only [hp] at h
        obtain ⟨l, hl, _⟩ := bind_ok.mp h
        exact Or.inr ⟨p, l, rfl, task_some hl, hd p l (task_some hl) hidle⟩
  · rfl

theorem reapZombies_deserted (hi : Inv s) (hd : s.AllDead) (hc : s.current = s.idle)
    (h : s.reapZombies = .ok s') : Inv s' ∧ s'.idle = s.idle ∧ s'.Deserted := by
  have main : Post (fun _ => False) s.reapZombies fun s' =>
      Reaping False False AnyStart s (s.queues.members .zombie) [] s' ∧
        ∀ t ∈ s.queues.members .zombie, s'.tasks t = none := by
    refine Post.foldlM (fun front rest s' => Reaping False False AnyStart s front rest s' ∧
      ∀ t ∈ front, s'.tasks t = none) ⟨.start False.elim, nofun⟩ ?_
    intro front t rest s₁ ⟨hr, hgone⟩
    have hi₁ : Inv s₁ := hr.quiets.inv hi
    cases hreap : s₁.reap t with
    | error x => exact .error id
    | ok s₂ =>
      obtain ⟨k, hk, hz, _⟩ := hi₁.live (hr.zombies t (by simp))
      have hd₁ : s₁.AllDead := fun u l hl hu => hd u l (hr.tasks u l hl) (hr.idle ▸ hu)
      have ht : t ≠ s₁.current := by
        rw [hr.current, hc, ← hr.idle]
        exact hi₁.not_idle hk hz
      have hfreed := reap_freed hi₁ hd₁ hk hz ht hreap
      have hstep : Post (Bad False False) (s₁.reap t) _ := hr.step hi False.elim
      refine .ok ⟨hstep.elim hreap, fun u hu => ?_⟩
      rw [hfreed]
      by_cases hut : u = t
      · rw [hut]
        exact freed_tasks_self
      · rw [freed_tasks_of_ne hut]
        exact hgone u ((List.mem_append.mp hu).resolve_right fun hm => hut (List.mem_singleton.mp hm))
  obtain ⟨hr, hgone⟩ := main.elim h
  refine ⟨hr.quiets.inv hi, hr.idle, fun t ht => ?_⟩
  rw [hr.idle] at ht
  cases hk : s'.tasks t with
  | none => rfl
  | some k =>
    have hold := hr.tasks t k hk
    have hm : t ∈ s.queues.members .zombie :=
      hi.mem hold (hd t k hold ht).symm (by rw [hd t k hold ht]; decide)
    rw [hgone t hm] at hk
    cases hk

theorem Deserted.keep (h : s.Deserted) (hk : s.SameKin s') (hi : s'.idle = s.idle) : s'.Deserted := by
  intro t ht
  rw [hi] at ht
  have hnone := hk t
  rw [h t ht] at hnone
  exact Option.map_eq_none_iff.mp hnone

theorem schedule_deserted (hi : Inv s) (hd : s.AllDead) (hc : s.current = s.idle)
    (h : s.schedule = .ok s') : s'.Deserted := by
  obtain ⟨s₁, hwake, h⟩ := bind_ok.mp h
  obtain ⟨s₂, hreap, hchoose⟩ := bind_ok.mp h
  have hspec : Post (Bad False False) s.tryWakeupTasks fun s' =>
    Quiets False False True False AnyStart s s' ∧ s.SameFamilies s' := tryWakeupTasks_spec hi False.elim
  obtain ⟨hq, hf⟩ := hspec.elim hwake
  have hd₁ : s₁.AllDead := by
    intro t k hk ht
    obtain ⟨l, hl, _, hz⟩ := hf.old hk
    exact hz.mp (hd t l hl (hf.idle ▸ ht))
  have hc₁ : s₁.current = s₁.idle := hf.current.trans (hc.trans hf.idle.symm)
  obtain ⟨hi₂, _, hd₂⟩ := reapZombies_deserted (hq.inv hi) hd₁ hc₁ hreap
  have hspec₂ : Post (Bad False False) s₂.chooseTask _ := chooseTask_spec hi₂
  rcases (hspec₂.elim hchoose).turn with ⟨rfl, _⟩ | hsw
  · exact hd₂
  · obtain ⟨hk, _, _, _, _, hidle⟩ := hsw.turnover
    exact hd₂.keep hk hidle

theorem freeTask_dangles (s : State) (t : TaskPtr) :
    Post (· ≠ .dangling) (s.freeTask t) fun _ => True := by
  rw [freeTask_eq]
  split
  · exact .ok trivial
  · exact .error (not_not_intro rfl)

theorem task_dangles (s : State) (t : TaskPtr) : Post (· ≠ .dangling) (s.task t) fun _ => True := by
  unfold State.task
  split
  · exact .ok trivial
  · exact .error (not_not_intro rfl)

theorem reap_dangles (s : State) (t : TaskPtr) : Post (· ≠ .dangling) (s.reap t) fun _ => True := by
  unfold reap
  refine (task_dangles s t).bind fun k _ => ?_
  split
  · exact .ok trivial
  split
  · exact freeTask_dangles s t
  split
  · exact .error (not_not_intro rfl)
  · refine (task_dangles s _).bind fun l _ => ?_
    split
    · exact freeTask_dangles s t
    · exact .ok trivial

/-- Then only a pointer to a freed struct stops `schedule`: nobody is to be woken, and idle goes
on. -/
theorem schedule_dangles (hi : Inv s) (hd : s.AllDead) (hc : s.current = s.idle) :
    Post (· ≠ .dangling) s.schedule fun _ => True := by
  have hsleep : s.queues.members .sleeping = [] := by
    refine List.eq_nil_iff_forall_not_mem.mpr fun t ht => ?_
    obtain ⟨k, hk, hstate, _⟩ := hi.live ht
    by_cases hidle : t = s.idle
    · obtain ⟨l, hl, hs⟩ := hi.idle
      rw [hidle, hl] at hk
      cases hk
      rw [hstate] at hs
      rcases hs with hs | hs <;> cases hs
    · rw [hd t k hk hidle] at hstate
      cases hstate
  have hwake : s.tryWakeupTasks = .ok s := by
    unfold tryWakeupTasks
    rw [hsleep]
    rfl
  unfold schedule
  rw [hwake, ok_bind]
  cases hreap : s.reapZombies with
  | error x =>
    have hpost : Post (· ≠ .dangling) s.reapZombies fun _ => True :=
      Post.foldlM (fun _ _ _ => True) trivial fun _ t _ s' _ => reap_dangles s' t
    exact .error (hpost.not_bad hreap)
  | ok s' =>
    obtain ⟨hi', hidle, hd'⟩ := reapZombies_deserted hi hd hc hreap
    have hready : s'.queues.members .ready = [] := by
      refine List.eq_nil_iff_forall_not_mem.mpr fun t ht => ?_
      obtain ⟨k, hk, hstate, _⟩ := hi'.live ht
      obtain ⟨c, hcur, hne⟩ := hi'.current
      have alone {u : TaskPtr} {l : Task} (hl : s'.tasks u = some l) : u = s'.idle := by
        by_contra hu
        rw [hd' u hu] at hl
        cases hl
      rw [alone hk, ← alone hcur, hcur] at hk
      cases hk
      exact hne hstate
    have hchoose : s'.chooseTask = .ok (s'.setCtl .resume) := by
      unfold chooseTask queueTop
      rw [hready]
      rfl
    rw [ok_bind, hchoose]
    exact .ok trivial

def Settles (s : State) (e : Event) : Prop := s.IdleStarts e ∧ ∀ a, e ≠ .call (.start a)

abbrev Settling : State → State → Prop := ReflTransGen (Step Settles)

theorem Settles.allows (h : Settles s e) :
    Allows False False False False False False (fun _ _ => False) s e :=
  ⟨h.1, nofun, nofun, nofun, nofun, nofun, nofun, h.2⟩

structure Wanes (s s' : State) : Prop where
  idle : s'.idle = s.idle
  old : ∀ t k', s'.tasks t = some k' →
    ∃ k, s.tasks t = some k ∧ (k.state = .zombie → k'.state = .zombie)

theorem Wanes.trans (h : s.Wanes s₁) (h' : s₁.Wanes s') : s.Wanes s' where
  idle := h'.idle.trans h.idle
  old t k' hk' := by
    obtain ⟨k₁, hk₁, hz₁⟩ := h'.old t k' hk'
    obtain ⟨k, hk, hz⟩ := h.old t k₁ hk₁
    exact ⟨k, hk, fun hd => hz₁ (hz hd)⟩

theorem Wanes.allDead (h : s.Wanes s') (hd : s.AllDead) : s'.AllDead := by
  intro t k' hk' ht
  obtain ⟨k, hk, hz⟩ := h.old t k' hk'
  exact hz (hd t k hk (h.idle ▸ ht))

theorem Wanes.deserted (h : s.Wanes s') (hd : s.Deserted) : s'.Deserted := by
  intro t ht
  refine Option.eq_none_iff_forall_ne_some.mpr fun k' hk' => ?_
  obtain ⟨k, hk, _⟩ := h.old t k' hk'
  rw [hd t (h.idle ▸ ht)] at hk
  cases hk

theorem Settles.wanes (he : Settles s e) (h : Sound False False False s) (hr : step e s = .ok s') :
    s.Wanes s' := by
  have st := (step_spec h he.allows).elim hr
  have hsame : s'.fresh = s.fresh ∧ s'.idle = s.idle := by
    refine st.keeps (P := fun a => a.fresh = s.fresh ∧ a.idle = s.idle) h.inv ⟨rfl, rfl⟩ ?_ ?_
    · intro a b hi ⟨hf, hidle⟩ e
      refine ⟨?_, e.current.2.trans hidle⟩
      cases e.turnover hi with
      | none _ hf' _ _ _ _ => exact hf'.trans hf
      | born _ _ _ hB => exact hB.elim
      | freed _ _ _ => exact hf
      | reaped _ _ _ _ _ _ => exact hf
    · intro a b _ ⟨hf, hidle⟩ e
      obtain ⟨_, hf', _, _, _, hidle'⟩ := e.turnover
      exact ⟨hf'.trans hf, hidle'.trans hidle⟩
  refine ⟨hsame.2, fun t k' hk' => ?_⟩
  have hlt : t < s.fresh := hsame.1 ▸ (st.sound h).inv.lt_fresh hk'
  obtain ⟨k, hk, _, _, hz⟩ := (st.follows h).old t k' hlt hk'
  exact ⟨k, hk, fun h => (hz h).1⟩

theorem Settling.wanes (h : Settling s s') (hs : Sound False False False s) :
    Sound False False False s' ∧ s.Wanes s' := by
  induction h with
  | refl => exact ⟨hs, rfl, fun t k hk => ⟨k, hk, id⟩⟩
  | tail _ hstep ih =>
    obtain ⟨hs, hw⟩ := ih
    obtain ⟨e, he, hr⟩ := hstep
    exact ⟨step_sound hs he.allows hr, hw.trans (he.wanes hs hr)⟩

end Death

section Reclamation

def Reclaims (s : State) (e : Event) : Prop :=
  s.IdleStarts e ∧ ∀ a, e = .call (.start a) → s.GetsStruct a

theorem Reclaims.allows (h : Reclaims s e) :
    Allows False False False False False False GetsStruct s e :=
  ⟨h.1, nofun, nofun, nofun, nofun, nofun, nofun, h.2⟩

theorem Settles.reclaims (h : Settles s e) : Reclaims s e := ⟨h.1, fun a he => absurd he (h.2 a)⟩

theorem Settling.run (h : Settling s s') (hr : Run Reclaims s) : Run Reclaims s' := by
  induction h with
  | refl => exact hr
  | tail _ hstep ih =>
    obtain ⟨e, he, hs⟩ := hstep
    exact ih.next ⟨e, he.reclaims, hs⟩

structure Balanced (o : TaskPtr → StartOffers) (m₀ : Mem) (s : State) : Prop where
  sound : Sound False False False s
  since : boot.Follows s
  pids : s.PidsHeld
  tended : s.Tended
  backed : s.Backed o m₀

theorem Balanced.step (h : Balanced o m₀ s) (he : Reclaims s e) (hr : step e s = .ok s') :
    Balanced o m₀ s' := by
  have st := (step_spec h.sound he.allows).elim hr
  refine ⟨st.sound h.sound, h.since.trans (st.follows h.sound), ?_, ?_, ?_⟩
  · exact st.keeps h.sound.inv h.pids (fun _ _ hi hp e => e.pidsHeld hi hp) fun _ _ _ hp e =>
      e.pidsHeld hp
  · refine st.keeps h.sound.inv h.tended (fun _ _ hi hp e => (e.turnover hi).tended hi hp) ?_
    intro a b _ hp e
    obtain ⟨hk, hf, hc, _, _, hidle⟩ := e.turnover
    exact hp.keep hk.isSome hf hidle hc
  · refine st.keeps h.sound.inv h.backed (fun _ _ hi hp e => (e.turnover hi).backed hi hp) ?_
    intro a b _ hp e
    obtain ⟨hk, hf, hc, _, _, hidle⟩ := e.turnover
    exact hp.keep hk.isSome hf hidle hc

def IdleStarted (m₀ : Mem) : Prop :=
  ∃ early code ssize offers, (Mem.boot early).step (.start code ssize offers) = .ok m₀

theorem IdleStarted.backs (h : IdleStarted m₀) : boot.Backs m₀ m₀ := by
  obtain ⟨early, code, ssize, offers, h⟩ := h
  have hb : AddressSpaces.Books (Mem.boot early) [] := AddressSpaces.boot_books
  simp only [Mem.step] at h
  split at h
  · rename_i hs
    obtain ⟨space, _, hv, hp, hm⟩ := AddressSpaces.startTask_spec hb.valid hs h
    rw [hm]
    refine ⟨hb.started hv hp, rfl, rfl, fun t => ?_, fun t ht => (by cases ht), rfl⟩
    by_cases ht : t = 0
    · rw [ht]
      rfl
    · have hnone : Function.update (fun _ => none) 0 (some space) t = none := Function.update_of_ne ht ..
      change (Function.update (fun _ => none) 0 (some space) t).isSome = _
      rw [hnone]
      simp [boot, ht]
  · cases h

theorem Run.balanced (h : Run Reclaims s) (h₀ : IdleStarted m₀) : Balanced o m₀ s := by
  refine h.invariant (I := Balanced o m₀) ?_ fun _ _ hs ⟨_, he, hr⟩ => hs.step he hr
  rintro _ rfl
  exact ⟨boot_sound, .refl _, boot_pidsHeld, boot_tended, fun _ => ⟨m₀, rfl, h₀.backs⟩⟩

theorem Backs.alone (h : s.Backs m₀ m) (hd : s.Deserted) {space : AddressSpaces.Space}
    (hs : m.spaces s.idle = some space) :
    m.frames.live.Perm space.blocks ∧ m.heap.Perm [.kernelStack s.idle, .task s.idle] := by
  have hnone : ∀ u, u ≠ s.idle → m.spaces u = none := by
    intro u hu
    have hsome := h.spaces u
    rw [hd u hu] at hsome
    exact Option.not_isSome_iff_eq_none.mp (by rw [hsome]; decide)
  have hlt := h.books.lt hs
  have hshared : m.shared = [] := by
    unfold Mem.shared
    rw [h.table]
    rfl
  constructor
  · have hlive := h.books.live
    rw [hshared, List.append_nil, List.append_nil] at hlive
    exact hlive.trans (AddressSpaces.ofTasks_sole hlt hs hnone)
  · exact h.books.heap.trans (AddressSpaces.ofTasks_sole hlt hs hnone)

theorem boot_deserted : boot.Deserted := by
  intro t ht
  exact if_neg ht

/-- As before the first start: idle is alone, with its pid and its memory, and what was allocated
for another task has been freed once. -/
structure Reclaimed (s : State) (m₀ m : Mem) : Prop where
  tasks : ∀ t, (s.tasks t).isSome = (boot.tasks t).isSome
  pidmap : s.pidmap = boot.pidmap
  calls : ∀ t, t ≠ s.idle → t < s.fresh →
    ∃ code ssize, s.callsOf t = [.free t, .alloc t code ssize]
  frames : m.frames.live.Perm m₀.frames.live
  heap : m.heap.Perm m₀.heap

theorem Balanced.pidmap (h : Balanced o m₀ s) (hd : s.Deserted) : s.pidmap = boot.pidmap := by
  obtain ⟨l, hl, hstate⟩ := h.sound.inv.idle
  have hpid : l.pid = 0 := by
    have hidle : s.idle < boot.fresh := by
      rw [h.tended.idle]
      decide
    obtain ⟨k, hk, hp, _⟩ := h.since.old s.idle l hidle hl
    rw [h.tended.idle] at hk
    cases hk
    exact hp
  funext pid
  refine Bool.eq_iff_iff.mpr ⟨fun hused => ?_, fun hzero => ?_⟩
  · obtain ⟨t, k, hk, _, hp⟩ := h.pids pid hused
    by_cases ht : t = s.idle
    · subst ht
      rw [hl] at hk
      cases hk
      exact beq_iff_eq.mpr (hp.symm.trans hpid)
    · rw [hd t ht] at hk
      cases hk
  · have hz : l.state ≠ .zombie := by
      intro hz
      exact h.sound.inv.not_idle hl hz rfl
    rw [beq_iff_eq.mp hzero, ← hpid]
    exact h.sound.inv.pidmap s.idle l hl hz

theorem Balanced.reclaimed (h : Balanced o m₀ s) (h₀ : IdleStarted m₀) (hd : s.Deserted)
    (hs : Served o m₀ s.taskCalls) :
    ∃ m, replay o m₀ s.taskCalls = .ok m ∧ Reclaimed s m₀ m := by
  obtain ⟨m, hm, hb⟩ := h.backed hs
  obtain ⟨l, hl, _⟩ := h.sound.inv.idle
  have hsome : (m.spaces s.idle).isSome := by
    rw [hb.spaces, hl]
    rfl
  obtain ⟨space, hspace⟩ := Option.isSome_iff_exists.mp hsome
  have hspace₀ : m₀.spaces boot.idle = some space := by
    rw [← h.tended.idle, ← hb.idle]
    exact hspace
  obtain ⟨hframes, hheap⟩ := hb.alone hd hspace
  obtain ⟨hframes₀, hheap₀⟩ := h₀.backs.alone boot_deserted hspace₀
  refine ⟨m, hm, fun t => ?_, h.pidmap hd, fun t ht hlt => ?_, hframes.trans hframes₀.symm, ?_⟩
  · by_cases ht : t = s.idle
    · rw [ht, hl, h.tended.idle]
      rfl
    · rw [hd t ht, boot_deserted t (h.tended.idle ▸ ht)]
  · obtain ⟨code, ssize, hcalls⟩ := h.tended.once t ht hlt
    rw [hd t ht] at hcalls
    exact ⟨code, ssize, hcalls⟩
  · rw [h.tended.idle] at hheap
    exact hheap.trans hheap₀.symm

/-- In every run whose starts get their structs: when all processes have died, the first call of
`schedule` by idle, unless it follows a pointer to a freed struct, brings everything back to how it
was before the first start, until something is started again. -/
theorem all_reclaimed (h₀ : IdleStarted m₀) (h : Run Reclaims s) (hd : s.AllDead)
    (h₁ : Settling s s₁) (hctl : s₁.ctl = .sched) (hcur : s₁.current = s₁.idle) :
    (∀ x, step .kernel s₁ = .error x → x = .dangling) ∧
      ∀ s₂ s', step .kernel s₁ = .ok s₂ → Settling s₂ s' → Served o m₀ s'.taskCalls →
        ∃ m, replay o m₀ s'.taskCalls = .ok m ∧ Reclaimed s' m₀ m := by
  obtain ⟨hs₁, hw₁⟩ := h₁.wanes (h.balanced (o := o) h₀).sound
  have hd₁ := hw₁.allDead hd
  have hsched : step .kernel s₁ = s₁.schedule := by
    unfold step stepWith
    rw [hctl]
  refine ⟨fun x hx => ?_, fun s₂ s' hr h₂ hserved => ?_⟩
  · rw [hsched] at hx
    exact not_not.mp ((schedule_dangles hs₁.inv hd₁ hcur).not_bad hx)
  · have hd₂ : s₂.Deserted := schedule_deserted hs₁.inv hd₁ hcur (hsched.symm.trans hr)
    have hkernel : Settles s₁ .kernel := ⟨trivial, nofun⟩
    have hrun : Run Reclaims s₂ := (h₁.run h).next ⟨.kernel, hkernel.reclaims, hr⟩
    obtain ⟨_, hw₂⟩ := h₂.wanes (hrun.balanced (o := o) h₀).sound
    exact ((h₂.run hrun).balanced h₀).reclaimed h₀ (hw₂.deserted hd₂) hserved

section Decide

instance {a : StartArgs} : Decidable (s.GetsStruct a) :=
  inferInstanceAs (Decidable (a.Passes → a.memory = true))

theorem reclaims_iff : Reclaims s e ↔ s.IdleStarts e ∧
    (match e with
      | .call (.start a) => decide (s.GetsStruct a)
      | _ => true) = true := by
  cases e with
  | call c => cases c <;> simp [Reclaims]
  | _ => simp [Reclaims]

instance : Decidable (Reclaims s e) := decidable_of_iff _ reclaims_iff.symm

theorem settles_iff : Settles s e ↔ s.IdleStarts e ∧
    (match e with
      | .call (.start _) => false
      | _ => true) = true := by
  cases e with
  | call c => cases c <;> simp [Settles]
  | _ => simp [Settles]

instance : Decidable (Settles s e) := decidable_of_iff _ settles_iff.symm

end Decide

theorem Settling.replayed {es : List Event} (h : exec (admitted Settles) es s = .ok s') :
    Settling s s' := by
  have hstart : Reachable (· = s) (Step Settles) s := Reachable.start rfl
  obtain ⟨_, rfl, hs⟩ := hstart.exec (fun _ _ _ ht => admitted_step ht) h
  exact hs

theorem AllDead.of_few {n : Nat} (hi : Inv s) (hidle : s.idle = 0) (hf : s.fresh ≤ n)
    (hz : (List.range n).all (fun t => t = 0 || (s.tasks t).all fun k => k.state = .zombie)) :
    s.AllDead := by
  intro t k hk ht
  have hmem : t ∈ List.range n := List.mem_range.mpr ((hi.lt_fresh hk).trans_le hf)
  have hor := List.all_eq_true.mp hz t hmem
  rw [hidle] at ht
  simp only [ht, decide_false, Bool.false_or, hk, Option.all_some, decide_eq_true_eq] at hor
  exact hor

/-- A child exits, and idle calls `schedule` twice. -/
theorem all_reclaimed_child : ∃ (s : State) (m₀ m : Mem),
    s.callsOf 1 = [.free 1, .alloc 1 4096 1000] ∧ IdleStarted m₀ ∧ Reclaimed s m₀ m := by
  let offers : StartOffers := ⟨0x4008000, 0x4009000, [0x400b000], 0x400c000, [0x400d000]⟩
  have hrun : Ends ((Mem.boot AddressSpaces.anEarlyMem).step AddressSpaces.startIdle) fun m₀ =>
      Ends (exec (admitted Reclaims) [.call (.start (anApp 2)), .kernel, .call (.exit 0), .kernel,
        .kernel] boot) fun s => s.idle = 0 ∧ s.fresh ≤ 2 ∧
          (List.range 2).all (fun t => t = 0 || (s.tasks t).all fun k => k.state = .zombie) ∧
        Ends (exec (admitted Settles) [.tick] s) fun s₁ => s₁.ctl = .sched ∧ s₁.current = s₁.idle ∧
        Ends (step .kernel s₁) fun s₂ =>
        Ends (exec (admitted Settles) [.kernel, .tick, .kernel, .kernel] s₂) fun s' =>
          s'.callsOf 1 = [.free 1, .alloc 1 4096 1000] ∧
            Ends (replay (fun _ => offers) m₀ s'.taskCalls) fun _ => True := by
    decide +kernel
  obtain ⟨m₀, hm₀, h⟩ := hrun.elim
  obtain ⟨s, hs, hidle, hfresh, hz, h⟩ := h.elim
  obtain ⟨s₁, hs₁, hctl, hcur, h⟩ := h.elim
  obtain ⟨s₂, hs₂, h⟩ := h.elim
  obtain ⟨s', hs', hcalls, h⟩ := h.elim
  obtain ⟨m, hm, _⟩ := h.elim
  have h₀ : IdleStarted m₀ := ⟨_, _, _, _, hm₀⟩
  have hr : Run Reclaims s := Run.replayed hs
  have hinv : Inv s := (hr.balanced (o := fun _ => offers) h₀).sound.inv
  obtain ⟨_, hall⟩ := all_reclaimed (o := fun _ => offers) h₀ hr (.of_few hinv hidle hfresh hz)
    (.replayed hs₁) hctl hcur
  obtain ⟨m', _, hreclaimed⟩ := hall s₂ s' hs₂ (.replayed hs') (served_of_ok hm)
  exact ⟨s', m₀, m', hcalls, h₀, hreclaimed⟩

/-- A process kills its child and reaps it, whose own child is a zombie. When all have died that
zombie's parent is read after it was freed. A start that is refused its struct keeps its pid,
whatever idle does after it. -/
theorem orphan_not_reclaimed : (∃ s : State, Run IdleStarts s ∧ s.AllDead ∧
      (∃ k, s.tasks 3 = some k ∧ k.parent = some 2) ∧ s.tasks 2 = none ∧
      step .kernel s = .error .dangling) ∧
    ∃ s s₁ s₂ s' : State, Run IdleStarts s ∧ s.AllDead ∧
      Settling s s₁ ∧ s₁.ctl = .sched ∧ s₁.current = s₁.idle ∧ step .kernel s₁ = .ok s₂ ∧
        exec (admitted Settles) [.kernel, .tick, .kernel, .kernel] s₂ = .ok s' ∧
          ∀ m₀ m, ¬ Reclaimed s' m₀ m := by
  have horphan : Ends (exec (admitted IdleStarts) [.call (.start (anApp 2)), .kernel,
      .call (.start (anApp 2)), .kernel, .call (.start (anApp 4)), .kernel, .call (.exit 0), .kernel,
      .kernel, .call (.kill 2), .call (.waitpid 2 .null), .kernel, .call (.exit 0)] boot)
      fun s => s.idle = 0 ∧ s.fresh ≤ 4 ∧
        (List.range 4).all (fun t => t = 0 || (s.tasks t).all fun k => k.state = .zombie) ∧
        (s.tasks 3).map Task.parent = some (some 2) ∧ (s.tasks 2).isNone ∧
        (step .kernel s).map (fun _ => ()) = .error .dangling := by
    decide +kernel
  have hrun : Ends (exec (admitted IdleStarts) [.call (.start ⟨true, 4096, 1000, 2, false, true⟩)]
      boot) fun s => s.idle = 0 ∧ s.fresh ≤ 2 ∧
          (List.range 2).all (fun t => t = 0 || (s.tasks t).all fun k => k.state = .zombie) ∧
        Ends (exec (admitted Settles) [.tick] s) fun s₁ => s₁.ctl = .sched ∧ s₁.current = s₁.idle ∧
        Ends (step .kernel s₁) fun s₂ =>
        Ends (exec (admitted Settles) [.kernel, .tick, .kernel, .kernel] s₂) fun s' =>
          s'.pidmap 1 = true := by
    decide +kernel
  constructor
  · obtain ⟨s, hs, hidle, hfresh, hz, hparent, hgone, hread⟩ := horphan.elim
    have hr : Run IdleStarts s := Run.replayed hs
    obtain ⟨k, hk, hpk⟩ := Option.map_eq_some_iff.mp hparent
    refine ⟨s, hr, .of_few hr.soundIdle.inv hidle hfresh hz, ⟨k, hk, hpk⟩,
      Option.isNone_iff_eq_none.mp hgone, ?_⟩
    cases hstep : step .kernel s with
    | ok t =>
      rw [hstep] at hread
      cases hread
    | error x =>
      rw [hstep] at hread
      cases hread
      rfl
  obtain ⟨s, hs, hidle, hfresh, hz, h⟩ := hrun.elim
  obtain ⟨s₁, hs₁, hctl, hcur, h⟩ := h.elim
  obtain ⟨s₂, hs₂, h⟩ := h.elim
  obtain ⟨s', hs', hpid⟩ := h.elim
  have hr : Run IdleStarts s := Run.replayed hs
  refine ⟨s, s₁, s₂, s', hr, .of_few hr.soundIdle.inv hidle hfresh hz, .replayed hs₁, hctl, hcur, hs₂,
    hs', fun m₀ m h => ?_⟩
  rw [h.pidmap] at hpid
  cases hpid

end Reclamation

end State
end DominOS.Process
