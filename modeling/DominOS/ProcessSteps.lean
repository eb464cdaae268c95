import DominOS.ProcessFate
import DominOS.ProcessResetSpec

/-! One step of the kernel, on a state that satisfies the invariants, and what it asks of
its caller. -/
namespace DominOS.Process
open IntrusiveLists Fallible Relation

def Syscall.queueId : Syscall → Option Int
  | .psend id _ | .preceive id _ | .pcount id _ | .pdelete id | .preset id => some id
  | _ => none

/-- What a call names is an index of `mqueues`. -/
def Event.InTable : Event → Prop
  | .call c => ∀ id ∈ c.queueId, 0 ≤ id ∧ id < nbQueue
  | _ => True

def Event.Spares : Event → Prop
  | .call (.pdelete _) | .call (.preset _) => False
  | _ => True

namespace State
variable {s s' s₀ : State} {t u : TaskPtr} {c k l : Task} {e : Event} {A T D K R L : Prop}
  {B : State → StartArgs → Prop} {mem : Bool}

def WakesBelow (s : State) : Event → Prop
  | .call (.kill pid) => s.KillsBelow pid
  | .call (.pdelete id) | .call (.preset id) =>
    s.WaitsBelow (.waitingSenders id.toNat) ∧ s.WaitsBelow (.waitingReceivers id.toNat)
  | _ => True

def ReapsUpward (s : State) : Event → Prop
  | .kernel => (s.ctl = .sched → s.ReapsInOrder) ∧ (s.ctl = .resume → s.ReapsLeaf)
  | _ => True

def KeepsMessages (s : State) : Event → Prop
  | .call (.kill _) => False
  | .call (.psend id _) => s.HandsOver id.toNat
  | .call (.preceive _ message) => message.Good
  | .call (.pdelete id) | .call (.preset id) => ¬ s.ResetLoses id.toNat
  | _ => True

def SleepsOn (s : State) : Event → Prop
  | .call (.waitClock clock) => s.totalTicks < clock % 2 ^ 32
  | _ => True

def PopsNothing (s : State) (k : Task) : Prop :=
  match k.kont with
  | .preceiveLoop id _ rst => ∀ q, s.mqueues id = some q → k.msgVal.data = -1 →
    ¬ rst < s.cptRst → q.count = 0
  | _ => True

def KeepsBlocks (s : State) : Event → Prop
  | .call (.preceive id _) => ∀ q, s.mqueues id.toNat = some q → q.count = 0
  | .call (.pdelete id) | .call (.preset id) => ∀ q, s.mqueues id.toNat = some q → q.count ≠ 1
  | .kernel => s.ctl = .resume → ∀ k, s.tasks s.current = some k → s.PopsNothing k
  | _ => True

/-- The current task, where it resumes, pops a message while somebody waits to send. -/
def ResumesForSender (s : State) (k : Task) : Prop :=
  match k.kont with
  | .preceiveLoop id _ rst => k.msgVal.data = -1 ∧ ¬ rst < s.cptRst ∧ s.PopsForSender id
  | _ => False

/-- A `preceive` pops a message and asks for memory for that of a sender who waits. -/
def LetsIn (s : State) : Event → Prop
  | .call (.preceive id _) => s.PopsForSender id.toNat
  | .kernel => s.ctl = .resume ∧ ∃ k ∈ s.tasks s.current, s.ResumesForSender k
  | _ => False

def IdleStarts (s : State) : Event → Prop
  | .call (.start _) => True
  | .call _ => s.current ≠ s.idle
  | _ => True

section Decide

theorem idleStarts_iff : s.IdleStarts e ↔
    (match e with | .call (.start _) | .tick | .kernel => true | .call _ => false) = true ∨
      s.current ≠ s.idle := by
  cases e with
  | call c => cases c <;> simp [IdleStarts]
  | _ => simp [IdleStarts]

instance : Decidable (s.IdleStarts e) := decidable_of_iff _ idleStarts_iff.symm

theorem sleepsOn_iff : s.SleepsOn e ↔
    (match e with
      | .call (.waitClock clock) => decide (s.totalTicks < clock % 2 ^ 32)
      | _ => true) = true := by
  cases e with
  | call c => cases c <;> simp [SleepsOn]
  | _ => simp [SleepsOn]

instance : Decidable (s.SleepsOn e) := decidable_of_iff _ sleepsOn_iff.symm

theorem spares_iff : e.Spares ↔
    (match e with | .call (.pdelete _) | .call (.preset _) => false | _ => true) = true := by
  cases e with
  | call c => cases c <;> simp [Event.Spares]
  | _ => simp [Event.Spares]

instance : Decidable e.Spares := decidable_of_iff _ spares_iff.symm

instance : Decidable (s.PopsNothing k) := by
  unfold PopsNothing
  split <;> infer_instance

instance : Decidable (s.KeepsBlocks e) := by
  unfold KeepsBlocks
  split <;> infer_instance

instance {id : Nat} : Decidable (s.PopsForSender id) :=
  inferInstanceAs (Decidable (∃ q ∈ s.mqueues id, q.count ≠ 0 ∧
    s.queues.members (.waitingSenders id) ≠ []))

instance : Decidable (s.ResumesForSender k) := by
  unfold ResumesForSender
  split <;> infer_instance

instance : Decidable (s.LetsIn e) := by
  unfold LetsIn
  split <;> infer_instance

instance : Decidable e.InTable := by
  unfold Event.InTable
  split <;> infer_instance

end Decide

def AnyStart (_ : State) (_ : StartArgs) : Prop := True

structure Allows (A T D K R L : Prop) (B : State → StartArgs → Prop) (s : State) (e : Event) : Prop where
  idle : s.IdleStarts e
  clock : A → s.SleepsOn e
  below : T → s.WakesBelow e
  reaps : D → s.ReapsUpward e
  keeps : K → s.KeepsMessages e
  spares : R → e.Spares
  blocks : L → s.KeepsBlocks e
  starts : ∀ a, e = .call (.start a) → B s a

structure Sound (A D K : Prop) (s : State) : Prop where
  inv : Inv s
  mail : Mail K s
  unstarted : s.Unstarted
  running : s.ctl ≠ .sched → s.Running
  serving : s.ctl = .user → s.Serving
  awake : A → s.ctl = .sched → s.Awake
  parents : D → s.NoDangling

theorem boot_sound : Sound A D K boot where
  inv := boot_inv
  mail := boot_mail
  unstarted := boot_unstarted
  running _ := ⟨_, rfl, rfl⟩
  serving _ := ⟨_, rfl, rfl, rfl⟩
  awake _ h := by cases h
  parents _ t k p hk hp := by
    simp only [boot] at hk
    split at hk
    · cases hk
      cases hp
    · cases hk

/-- Kernel code runs up to where it hands over, or `schedule` gives somebody a turn. -/
inductive Stepped (A T D K R L : Prop) (B : State → StartArgs → Prop) (s s' : State) : Prop where
  | code : Outcome A T D K R L B s s' → Stepped A T D K R L B s s'
  | turn {s₁ s₂ : State} : Quiets False D True K B s s₁ → s.SameFamilies s₁ →
      Reaping D K B s₁ (s₁.queues.members .zombie) [] s₂ → Chosen s₂ s' → Stepped A T D K R L B s s'

theorem findZombie_congr {as : List TaskPtr}
    (h : ∀ t ∈ as, (s'.tasks t).map Task.state = (s.tasks t).map Task.state) :
    s'.findZombie as = s.findZombie as := by
  induction as with
  | nil => rfl
  | cons a as ih =>
    have hz : s'.isZombie a = s.isZombie a := by
      have ha := h a (by simp)
      unfold isZombie State.task
      cases hs : s.tasks a with
      | none =>
        rw [hs, Option.map_none, Option.map_eq_none_iff] at ha
        rw [ha]
      | some k =>
        rw [hs] at ha
        obtain ⟨k', hk', he⟩ := Option.map_eq_some_iff.mp ha
        rw [hk']
        simp only [ok_bind, he]
    unfold findZombie
    rw [hz, ih fun t ht => h t (List.mem_cons_of_mem _ ht)]

theorem consumed_states (hk : s.tasks s.current = some k) (t : TaskPtr) :
    ((s.consumed k).tasks t).map Task.state = (s.tasks t).map Task.state := by
  by_cases ht : t = s.current
  · subst ht
    have hself : (s.consumed k).tasks s.current = some { k with kont := .iret } := consumed_self
    rw [hself, hk]
    rfl
  · rw [show (s.consumed k).tasks t = s.tasks t from setTask_tasks_of_ne ht]

theorem consumed_parents (hk : s.tasks s.current = some k) : s.SameParents (s.consumed k) :=
  SameParents.setTask hk ⟨_, rfl, rfl⟩

theorem Childless.consumed (h : s.Childless t) (hk : s.tasks s.current = some k) :
    (s.consumed k).Childless t := by
  intro u l hl hp
  have hs := consumed_parents hk u
  rw [hl] at hs
  obtain ⟨l', hl', hp'⟩ := Option.map_eq_some_iff.mp hs.symm
  exact h u l' hl' (hp'.trans hp)

theorem clockHandler_spec (hrun : s.Serving) :
    Post (Bad A D) s.clockHandler (Outcome A T D K R L B s) := by
  obtain ⟨k, hk, hr, hkont⟩ := hrun
  refine callSchedule_spec (.single (.plain (.quiet ?_))) hk (Or.inl hr) .iret trivial
    (by rw [hkont]; trivial)
  exact Quiet.beside (w := []) s.ctl ((s.totalTicks + 1) % 2 ^ 32) (by simp)

theorem handle_spec {c : Syscall} (h : Sound A D K s) (hu : s.ctl = .user)
    (ha : Allows A T D K R L B s (.call c)) (hmem : mem = false → ¬ s.LetsIn (.call c)) :
    Post (Bad A D) (s.handle c mem) (Outcome A T D K R L B s) := by
  have hrun := h.serving hu
  have hi := h.inv
  obtain ⟨k, hk, _⟩ := hrun
  have hrun := h.serving hu
  have hidle := ha.idle
  unfold handle
  cases c with
  | start a => exact start_spec hi hrun (ha.starts a rfl)
  | getpid =>
    simp only
    rw [task_ok hk, ok_bind]
    exact ret_spec .refl hrun
  | getprio pid => exact getprio_spec hi hrun
  | chprio pid priority => exact chprio_spec hi hrun hidle h.parents
  | kill pid => exact kill_spec hi hrun hidle h.parents ha.below (fun hK => ha.keeps hK)
  | waitpid pid retvalp => exact waitpid_spec hi hrun hidle
  | exit retval => exact exit_spec hi .refl hrun hidle h.parents
  | pcount id count => exact pcount_spec hi hrun hidle h.parents
  | pcreate count => exact pcreate_spec hi hrun hidle h.parents
  | pdelete id => exact pdelete_spec hi h.mail hrun (fun hR => ha.spares hR) ha.keeps ha.below ha.blocks
  | preceive id message =>
    exact preceive_spec hi h.mail hrun hidle h.parents ha.keeps ha.blocks hmem
  | preset id =>
    exact preset_spec hi h.mail hrun (fun hR => ha.spares hR) ha.keeps ha.below ha.blocks hidle h.parents
  | psend id message => exact psend_spec hi hrun hidle ha.keeps h.parents
  | currentClock => exact ret_spec .refl hrun
  | waitClock clock => exact waitClock_spec hi hrun hidle fun hA => ha.clock hA

theorem startRet_spec {child : TaskPtr} (m : Moves T D K R L B s₀ s) (hrun : s.Serving)
    (hp : ∀ k, s.tasks child = some k → k.parent = some s.current) :
    Post (Bad A D) (s.startRet child) (Outcome A T D K R L B s₀) := by
  obtain ⟨k, hk, hr, hkont⟩ := hrun
  unfold startRet
  split
  · refine .ok ⟨?_, fun _ => ⟨k, hk, hr⟩, fun _ => ⟨k, hk, hr, hkont⟩, fun _ h => by cases h⟩
    have m' : Moves T D K R L B s₀ (s.setCtl .user) :=
      m.tail (.plain (.quiet (Quiet.beside (w := []) .user s.totalTicks (by simp))))
    exact m'.mono And.left
  · rename_i l hl
    exact ret_spec (m.tail (.plain (.quiet (.sawStart hl (hp _ hl))))) ⟨k, hk, hr, hkont⟩

theorem resume_spec (h : Sound A D K s) (hc : s.ctl = .resume)
    (ha : Allows A T D K R L B s .kernel) (hmem : mem = false → ¬ s.LetsIn .kernel) :
    Post (Bad A D) (s.resume mem) (Outcome A T D K R L B s) := by
  obtain ⟨k, hk, hr⟩ := h.running (by rw [hc]; decide)
  have hi := h.inv
  have hz : k.state ≠ .zombie := by rw [hr]; decide
  have hok := hi.konts _ k hk hz
  have hserve : (s.consumed k).Serving := consumed_serving hr
  have calm (hsil : k.kont.Silent) : Moves T D K R L B s (s.consumed k) := by
    refine consume_moves hk hr fun _ id msg => ?_
    rintro (⟨p, rst, he, _⟩ | ⟨p, he⟩) <;> rw [he] at hsil <;> exact hsil
  have hparents : D → (s.consumed k).NoDangling := fun hD =>
    (consumed_parents hk).noDangling (h.parents hD)
  have hleaf (hD : D) := (ha.reaps hD).2 hc k
  unfold resume
  rw [task_ok hk, ok_bind]
  change Post (Bad A D) ((s.consumed k).resumeAt k.kont mem) _
  have busy (hkont : k.kont ≠ .iret) (hnot : ∀ c, k.kont ≠ .startRet c) : s.current ≠ s.idle := by
    intro he
    rcases hok.idle he with h | ⟨c, h⟩
    · exact hkont h
    · exact hnot c h
  have hfact := h.mail.fact _ _ _ ⟨k, hk, hz, rfl, rfl⟩
  cases hkont : k.kont with
  | iret =>
    have hself : ((s.consumed k).setCtl .user).tasks s.current = some { k with kont := .iret } :=
      setTask_tasks_self
    refine .ok ⟨?_, fun _ => ⟨_, hself, hr⟩, fun _ => ⟨_, hself, hr, rfl⟩, fun _ h => by cases h⟩
    have m : Moves T D K R L B s ((s.consumed k).setCtl .user) :=
      (calm (by rw [hkont]; trivial)).tail
        (.plain (.quiet (Quiet.beside (w := []) .user s.totalTicks (by simp))))
    exact m.mono And.left
  | ret v => exact ret_spec (calm (by rw [hkont]; trivial)) hserve
  | startRet child =>
    refine startRet_spec (calm (by rw [hkont]; trivial)) hserve fun l hl => ?_
    have hp := consumed_parents hk child
    rw [hl] at hp
    obtain ⟨l₀, hl₀, hp⟩ := Option.map_eq_some_iff.mp hp.symm
    exact hp.symm.trans ((hok.starter child hkont).2 l₀ hl₀)
  | waitAnyChild retvalp =>
    have m : Moves T D K R L B s (s.consumed k) := calm (by rw [hkont]; trivial)
    refine waitAnyChild_spec (m.inv hi) consumed_self hr rfl m
      (busy (by simp [hkont]) (by simp [hkont])) fun hD => ⟨hparents hD, fun t ht => ?_⟩
    rw [findZombie_congr fun t _ => consumed_states hk t] at ht
    exact (hleaf hD t hk (Or.inl ⟨retvalp, hkont, ht⟩)).consumed hk
  | waitSpecificChild child retvalp =>
    have m : Moves T D K R L B s (s.consumed k) := calm (by rw [hkont]; trivial)
    obtain ⟨l, hl, hp⟩ := hok.child child retvalp hkont
    have hne : child ≠ s.current ∨ child = s.current := (em _).symm
    obtain ⟨l', hl', hp', hs'⟩ : ∃ l', (s.consumed k).tasks child = some l' ∧
        l'.parent = some s.current ∧ l'.state = l.state := by
      rcases hne with hne | rfl
      · exact ⟨l, (setTask_tasks_of_ne hne).trans hl, hp, rfl⟩
      · rw [hk] at hl
        cases hl
        exact ⟨_, consumed_self, hp, rfl⟩
    refine waitSpecificChild_spec (m.inv hi) consumed_self hr rfl m
      (busy (by simp [hkont]) (by simp [hkont])) hl' hp' fun hD => ⟨hparents hD, fun ht => ?_⟩
    rw [isZombie_eq hl', hs', ← isZombie_eq hl] at ht
    exact (hleaf hD child hk (Or.inr ⟨retvalp, hkont, ht⟩)).consumed hk
  | psendLoop id msg rst =>
    exact psendLoop_spec hi h.mail hk hr hkont (busy (by simp [hkont]) (by simp [hkont])) h.parents
  | psendAdd id msg =>
    rw [hkont] at hfact
    exact hfact.elim
  | psendRet id msg =>
    rw [hkont] at hfact
    refine psendRet_spec (consume_moves hk hr fun _ j m => ?_) hserve (Or.inr hfact)
    rintro (⟨p, rst, he, _⟩ | ⟨p, he⟩) <;> rw [hkont] at he <;> cases he
  | preceiveLoop id message rst =>
    have hpops (hL : L) : s.PopsNothing k := ha.blocks hL hc k hk
    unfold PopsNothing at hpops
    rw [hkont] at hpops
    refine preceiveLoop_spec hi h.mail hk hr hkont (busy (by simp [hkont]) (by simp [hkont])) h.parents
      (fun hL => hpops hL) fun hno hdata hrst hpop => hmem hno ⟨hc, k, hk, ?_⟩
    unfold ResumesForSender
    rw [hkont]
    exact ⟨hdata, hrst, hpop⟩
  | preceiveRet id message msg =>
    rw [hkont] at hfact
    exact preceiveRet_spec (v := k.msgVal) hi hk hr (Or.inr ⟨message, hkont⟩)
      (busy (by simp [hkont]) (by simp [hkont])) h.parents hfact.1
  | exitPanic => exact .error nofun

theorem stepWith_spec (h : Sound A D K s) (ha : Allows A T D K R L B s e)
    (hmem : mem = false → ¬ s.LetsIn e) :
    Post (Bad A D) (stepWith mem e s) (Stepped A T D K R L B s) := by
  unfold stepWith
  split
  · rename_i hc
    exact (clockHandler_spec (h.serving hc)).mono fun _ => .code
  · rename_i c hc
    exact (handle_spec h hc ha hmem).mono fun _ => .code
  · rename_i hc
    refine (schedule_spec (K := K) (B := B) h.inv (fun hA => h.awake hA hc) fun hD =>
      ⟨h.parents hD, (ha.reaps hD).1 hc⟩).mono fun s' hs => ?_
    obtain ⟨s₁, s₂, hq, hf, hr, hch⟩ := hs
    exact .turn hq hf hr hch
  · rename_i hc
    exact (resume_spec h hc ha hmem).mono fun _ => .code
  · exact .error nofun

theorem step_spec (h : Sound A D K s) (ha : Allows A T D K R L B s e) :
    Post (Bad A D) (step e s) (Stepped A T D K R L B s) := stepWith_spec h ha nofun

theorem Chosen.turn (h : Chosen s s') : (s' = s.setCtl .resume ∧ s.Running) ∨ Switch s s' := by
  cases h with
  | alone _ hc hr => exact Or.inl ⟨rfl, _, hc, hr⟩
  | keep _ _ hc hr _ => exact Or.inl ⟨rfl, _, hc, hr⟩
  | switch _ hk hs hc hr =>
    refine Or.inr (.switch hk hs fun c' hc' => ?_)
    rw [hc] at hc'
    cases hc'
    exact hr
  | preempt _ hk hs hc hr _ => exact Or.inr (.preempt hk hs hc hr)

theorem Stepped.moves (h : Stepped A T D K R L B s s') :
    ∃ s₁, Moves False D K R L B s s₁ ∧ (s' = s₁ ∨ Switch s₁ s') := by
  cases h with
  | code o => exact ⟨s', o.moves.mono False.elim, Or.inl rfl⟩
  | @turn s₁ s₂ hq _ hr hch =>
    have m : Moves False D K R L B s s₂ := Quiets.moves (hq.trans hr.quiets)
    rcases hch.turn with ⟨rfl, _⟩ | hsw
    · have hset : Quiet False D True K B s₂ (s₂.setCtl .resume) :=
        Quiet.beside (w := []) .resume s₂.totalTicks (by simp)
      exact ⟨_, m.tail (.plain (.quiet hset)), Or.inl rfl⟩
    · exact ⟨s₂, m, Or.inr hsw⟩

theorem Stepped.keeps {P : State → Prop} (h : Stepped A T D K R L B s s') (hi : Inv s) (hp : P s)
    (he : ∀ a b, Inv a → P a → Effect False D False K B a b → P b)
    (hs : ∀ a b, Inv a → P a → Switch a b → P b) : P s' := by
  obtain ⟨s₁, m, hend⟩ := h.moves
  have hi₁ := m.inv hi
  have effects {a b : State} (es : Effects False D False K B a b) (ha : Inv a) (hpa : P a) : P b := by
    induction es with
    | refl => exact hpa
    | tail hab e ih => exact he _ _ (Effects.inv hab ha) ih e
  have hp₁ := effects (m.effects hi) hi hp
  rcases hend with rfl | hsw
  · exact hp₁
  · exact hs _ _ hi₁ hp₁ hsw

theorem Switch.serving (e : Switch s s') (h : s.Unstarted) :
    s'.Running ∧ (s'.ctl = .user → s'.Serving) ∧ s'.ctl ≠ .sched := by
  have main {s : State} {new : TaskPtr} {k : Task} (hk : s.tasks new = some k) (hu : k.firstStart = true → k.kont = .iret) :
      (s.switched new k).Running ∧ ((s.switched new k).ctl = .user → (s.switched new k).Serving) ∧
        (s.switched new k).ctl ≠ .sched := by
    have hself : (s.switched new k).tasks (s.switched new k).current =
        some { k with state := .running, firstStart := false } := setTask_tasks_self
    refine ⟨⟨_, hself, rfl⟩, fun hc => ⟨_, hself, rfl, hu ?_⟩, ?_⟩
    · by_contra hf
      simp [State.switched, hf] at hc
    · unfold State.switched
      simp only
      split <;> decide
  cases e with
  | @switch new k hk _ _ => exact main hk fun hf => (h new k hk hf).1
  | @preempt new k c hk hs hc hr =>
    have hne : new ≠ s.current := ne_of_state hk hc (by rw [hs, hr]; decide)
    exact main ((woken_of_ne hne).trans hk) fun hf => (h new k hk hf).1

theorem Stepped.sound (st : Stepped A T D K R L B s s') (h : Sound A D K s) : Sound A D K s' := by
  have hu : s'.Unstarted := st.keeps h.inv h.unstarted (fun _ _ hi hp e => e.unstarted hi hp)
    fun _ _ _ hp e => e.unstarted hp
  have hi : Inv s' := st.keeps (P := Inv) h.inv h.inv (fun _ _ hi _ e => e.inv hi) fun _ _ hi _ e =>
    e.inv hi
  have hd : D → s'.NoDangling := fun hD =>
    st.keeps h.inv (h.parents hD) (fun _ _ hi hp e => e.noDangling hD hi hp) fun _ _ _ hp e =>
      e.noDangling hp
  have hm : Mail K s' := by
    obtain ⟨s₁, m, hend⟩ := st.moves
    have hm₁ := m.mail h.inv h.mail
    rcases hend with rfl | hsw
    · exact hm₁
    · exact hm₁.undisturbed (hsw.undisturbed (m.inv h.inv))
  cases st with
  | code o => exact ⟨hi, hm, hu, o.running, o.serving, o.awake, hd⟩
  | @turn s₁ s₂ hq _ hr hch =>
    rcases hch.turn with ⟨rfl, hrun⟩ | hsw
    · exact ⟨hi, hm, hu, fun _ => hrun, nofun, fun _ h => (by cases h), hd⟩
    · have es : Effects False D True K B s s₂ := Quiets.effects (hq.trans hr.quiets)
      obtain ⟨h1, h2, h3⟩ := hsw.serving (es.unstarted h.inv h.unstarted)
      exact ⟨hi, hm, hu, fun _ => h1, h2, fun _ hc => absurd hc h3, hd⟩

theorem stepWith_sound (h : Sound A D K s) (ha : Allows A T D K R L B s e)
    (hmem : mem = false → ¬ s.LetsIn e) (hs : stepWith mem e s = .ok s') : Sound A D K s' :=
  ((stepWith_spec h ha hmem).elim hs).sound h

theorem step_sound (h : Sound A D K s) (ha : Allows A T D K R L B s e) (hs : step e s = .ok s') :
    Sound A D K s' := ((step_spec h ha).elim hs).sound h

end State
end DominOS.Process
