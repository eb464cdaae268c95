import DominOS.ProcessSpec

/-! What `psend`, `preceive`, `pdelete` and `preset` do to messages, in steps that each
keep the books of the queues. -/
namespace DominOS.Process
open IntrusiveLists Fallible Relation

/-- The task has a message of queue `id` that it has still to return, in its `msg_val`
or in a local variable. -/
def Task.Holds (k : Task) (id : Nat) (msg : Msg) : Prop :=
  (∃ p rst, k.kont = .preceiveLoop id p rst ∧ k.msgVal = msg ∧ msg.data ≠ -1) ∨
    ∃ p, k.kont = .preceiveRet id p msg

/-- What `preceive` can be told to store a message to without a fault. -/
def UserPtr.Good (p : UserPtr) : Prop := p = .null ∨ p = .mapped

def ResetAfter (id : Nat) (msg : Msg) (tr : List Obs) : Prop :=
  ∃ f b, tr = f ++ .reset id :: b ∧ .entered id msg ∈ b

namespace State
variable {s s' s₀ : State} {t u : TaskPtr} {k l : Task} {h : Head} {A D T M K R L : Prop}
  {B : State → StartArgs → Prop}

def Inside (s : State) (t : TaskPtr) (kont : Kont) (v : Msg) : Prop :=
  ∃ k, s.tasks t = some k ∧ k.state ≠ .zombie ∧ k.kont = kont ∧ k.msgVal = v

def Held (s : State) (t : TaskPtr) (id : Nat) (msg : Msg) : Prop :=
  ∃ k, s.tasks t = some k ∧ k.state ≠ .zombie ∧ k.Holds id msg

def wentOn (s : State) (k : Task) (kont : Kont) (c : Ctl) : State :=
  (s.setTask s.current { k with kont := kont }).setCtl c

def handed (s : State) (id : Nat) (msg : Msg) (last : TaskPtr) (l : Task) : State :=
  (((s.called id msg).observe (.entered id msg)).observe (.taken id msg)).woken last
    { l with msgVal := msg }

def entered (s : State) (id : Nat) (q : MQueue) (msg : Msg) : State :=
  (s.addMsg id q msg).observe (.entered id msg)

def exchanged (s : State) (id : Nat) (q : MQueue) (msg : Msg) (last : TaskPtr) (l : Task) : State :=
  (((((s.setMqueue id q).asked (.pop id)).asked (.add id l.msgVal.data)).observe
    (.taken id msg)).observe (.entered id l.msgVal)).woken last { l with msgVal := .none }

section Exchanged
variable {id : Nat} {q : MQueue} {msg : Msg}

theorem exchanged_tasks : (s.exchanged id q msg t l).tasks =
    Function.update s.tasks t (some { l with msgVal := .none, state := .ready }) := by
  simp only [exchanged, woken, State.move, setTask, observe, asked, setMqueue]

theorem exchanged_mqueues : (s.exchanged id q msg t l).mqueues =
    Function.update s.mqueues id (some q) := by
  simp only [exchanged, woken, State.move, setTask, observe, asked, setMqueue]

theorem exchanged_trace : (s.exchanged id q msg t l).trace =
    .entered id l.msgVal :: .taken id msg :: s.trace := by
  simp only [exchanged, woken, State.move, setTask, observe, asked, setMqueue]

theorem exchanged_current : (s.exchanged id q msg t l).current = s.current := by
  simp only [exchanged, woken, State.move, setTask, observe, asked, setMqueue]

theorem exchanged_cptRst : (s.exchanged id q msg t l).cptRst = s.cptRst := by
  simp only [exchanged, woken, State.move, setTask, observe, asked, setMqueue]

theorem exchanged_sends : (s.exchanged id q msg t l).sends = s.sends := by
  simp only [exchanged, woken, State.move, setTask, observe, asked, setMqueue]

end Exchanged

section Freed
variable {id : Nat} {q : MQueue}

theorem freeMqueue_tasks : (s.freeMqueue id q).tasks = s.tasks := by
  simp only [freeMqueue, observeDropped, observe, asked]

theorem freeMqueue_queues : (s.freeMqueue id q).queues = s.queues := by
  simp only [freeMqueue, observeDropped, observe, asked]

theorem freeMqueue_mqueues : (s.freeMqueue id q).mqueues = Function.update s.mqueues id none := by
  simp only [freeMqueue, observeDropped, observe, asked]

theorem freeMqueue_trace : (s.freeMqueue id q).trace =
    (.emptied id :: (q.msgs.map (Obs.dropped id)).reverse) ++ s.trace := by
  simp only [freeMqueue, observeDropped, observe, asked, List.cons_append]

theorem freeMqueue_current : (s.freeMqueue id q).current = s.current := by
  simp only [freeMqueue, observeDropped, observe, asked]

theorem freeMqueue_cptRst : (s.freeMqueue id q).cptRst = s.cptRst := by
  simp only [freeMqueue, observeDropped, observe, asked]

theorem freeMqueue_sends : (s.freeMqueue id q).sends = s.sends := by
  simp only [freeMqueue, observeDropped, observe, asked]

end Freed

/-- The steps of the message calls. Where `T` is asked for nothing of higher priority
gets ready, where `K` is no message gets lost, where `R` is no queue is reset, and where
`L` is no block of a message gets lost. -/
inductive Talk (T K R L : Prop) : State → State → Prop where
  | hand {s : State} {id : Nat} {data : Int} {last : TaskPtr} {k l : Task} :
      s.tasks s.current = some k → k.state = .running → k.kont = .iret → (s.mqueues id).isSome →
      s.queueTop (.waitingReceivers id) = some last → s.tasks last = some l →
      (T → l.priority ≤ k.priority) →
      (K → ∀ p rst, l.kont = .preceiveLoop id p rst → rst = s.cptRst) →
      Talk T K R L s (s.handed id ⟨data, s.sends⟩ last l)
  | told {s : State} {id : Nat} {msg : Msg} {k : Task} {c : Ctl} :
      s.tasks s.current = some k → k.state = .running → k.kont = .iret → s.current ≠ s.idle →
      .entered id msg ∈ s.trace → Talk T K R L s (s.wentOn k (.psendRet id msg) c)
  | sendBlock {s : State} {id : Nat} {data : Int} {q : MQueue} {k : Task} :
      ¬ T → s.tasks s.current = some k → k.state = .running → k.kont = .iret →
      s.current ≠ s.idle → s.mqueues id = some q → q.count = q.size → data ≠ -1 →
      Talk T K R L s ((s.called id ⟨data, s.sends⟩).blocked (.waitingSenders id)
        { k with msgVal := ⟨data, s.sends⟩ } (.psendLoop id ⟨data, s.sends⟩ s.cptRst))
  | sendAgain {s : State} {id rst : Nat} {msg : Msg} {q : MQueue} {k : Task} :
      ¬ T → s.tasks s.current = some k → k.state = .running → k.kont = .psendLoop id msg rst →
      s.current ≠ s.idle → s.mqueues id = some q → q.count = q.size → k.msgVal.data ≠ -1 →
      Talk T K R L s (s.blocked (.waitingSenders id) k k.kont)
  | enter {s : State} {id : Nat} {data : Int} {q : MQueue} {k : Task} :
      s.tasks s.current = some k → k.state = .running → k.kont = .iret → s.mqueues id = some q →
      q.count ≠ q.size →
      s.queues.members (.waitingReceivers id) = [] →
      Talk T K R L s (((s.called id ⟨data, s.sends⟩).setTask s.current
        { k with msgVal := ⟨data, s.sends⟩ }).entered id q ⟨data, s.sends⟩)
  | unsent {s : State} {id : Nat} {data : Int} {k : Task} :
      s.tasks s.current = some k → k.state = .running → k.kont = .iret →
      Talk T K R L s ((s.called id ⟨data, s.sends⟩).setTask s.current { k with msgVal := ⟨data, s.sends⟩ })
  | sent {s : State} {id : Nat} {msg : Msg} :
      (msg.data = -1 ∨ .entered id msg ∈ s.trace) → Talk T K R L s (s.observe (.sent id msg))
  | consume {s : State} {k : Task} :
      s.tasks s.current = some k → k.state = .running → (K → ∀ id msg, ¬ k.Holds id msg) →
      Talk T K R L s (s.setTask s.current { k with kont := .iret })
  | lost {s : State} {id rst : Nat} {p : UserPtr} {k : Task} :
      s.tasks s.current = some k → k.state = .running → k.kont = .preceiveLoop id p rst →
      k.msgVal.data ≠ -1 → rst < s.cptRst ∨ s.mqueues id = none →
      Talk T K R L s ((s.setTask s.current { k with kont := .iret }).observe (.dropped id k.msgVal))
  | received {s : State} {id : Nat} {msg v : Msg} {k : Task} :
      s.tasks s.current = some k → k.state = .running → k.Holds id msg →
      Talk T K R L s ((s.setTask s.current { k with kont := .iret, msgVal := v }).observe
        (.received id msg))
  | receiveBlock {s : State} {id rst : Nat} {p : UserPtr} {v : Msg} {q : MQueue} {k : Task} :
      ¬ T → s.tasks s.current = some k → k.state = .running → s.current ≠ s.idle →
      s.mqueues id = some q → q.count = 0 → v.data = -1 → rst ≤ s.cptRst → (K → p.Good) →
      (K → ∀ id msg, ¬ k.Holds id msg) →
      Talk T K R L s (s.blocked (.waitingReceivers id) { k with msgVal := v } (.preceiveLoop id p rst))
  | exchange {s : State} {id : Nat} {p : UserPtr} {q : MQueue} {msg : Msg} {rest : List Msg}
      {last : TaskPtr} {k l : Task} {c : Ctl} :
      s.tasks s.current = some k → k.state = .running → k.kont = .iret → s.current ≠ s.idle →
      s.mqueues id = some q → q.count = q.size → q.msgs = msg :: rest →
      s.queueTop (.waitingSenders id) = some last → s.tasks last = some l →
      (T → l.priority ≤ k.priority) → (K → p.Good) → ¬ L →
      Talk T K R L s ((s.exchanged id ((q.pop rest).add l.msgVal) msg last l).wentOn k
        (.preceiveRet id p msg) c)
  | take {s : State} {id : Nat} {q : MQueue} {msg : Msg} {rest : List Msg} :
      s.mqueues id = some q → q.msgs = msg :: rest → s.queues.members (.waitingSenders id) = [] →
      ¬ L → Talk T K R L s (((s.popMsg id q rest).observe (.taken id msg)).observe (.received id msg))
  | spill {s : State} {id : Nat} {q : MQueue} {msg : Msg} {rest : List Msg} :
      ¬ K → s.mqueues id = some q → q.msgs = msg :: rest →
      s.queues.members (.waitingSenders id) = [] → ¬ L →
      Talk T K R L s ((s.popMsg id q rest).observe (.taken id msg))
  | release {s : State} {t : TaskPtr} {k l : Task} :
      s.tasks t = some l → t ≠ s.current → l.state = .interruptedMsg →
      s.tasks s.current = some k → (T → l.priority ≤ k.priority) →
      (∀ id msg rst, l.kont = .psendLoop id msg rst → rst < s.cptRst) →
      Talk T K R L s (s.woken t l)
  | bump {s : State} {id : Nat} : ¬ R →
      (K → ∀ t id' msg, s.Held t id' msg → id' = id) → Talk T K R L s (s.bump id)
  | empty {s : State} {id : Nat} {q : MQueue} :
      s.mqueues id = some q → s.queues.members (.waitingSenders id) = [] →
      s.queues.members (.waitingReceivers id) = [] →
      (∀ msg ∈ q.msgs, ResetAfter id msg s.trace) →
      (∀ t p rst v, s.Inside t (.preceiveLoop id p rst) v → rst < s.cptRst) →
      (L → q.count ≠ 1) → Talk T K R L s (s.freeMqueue id q)
  | create {s : State} {id count : Nat} :
      s.mqueues id = none → id < nbQueue → count ≤ int16Max → (R → 1 ≤ count) →
      Talk T K R L s (s.allocMqueue id count)

theorem SameLists.refl (s : State) : s.SameLists s where
  queues := rfl
  siblings := rfl
  globalTasks := rfl
  current := rfl
  idle := rfl
  pidmap := rfl
  fresh := rfl
  taskCalls := rfl
  used _ := rfl
  others _ _ := rfl
  self k hk := ⟨k.kont, k.msgVal, hk, Or.inl rfl⟩
  trace := ⟨[], rfl, by simp⟩

theorem SameLists.beside {w : List Obs} (c : Ctl) (sends cptRst ticks : Nat)
    (ho : ∀ o ∈ w, o.Plain) : s.SameLists { s with
      ctl := c, sends := sends, cptRst := cptRst, totalTicks := ticks, trace := w ++ s.trace } :=
  { SameLists.refl s with trace := ⟨w, rfl, ho⟩ }

theorem SameLists.seen {o : Obs} (ho : o.Plain) : s.SameLists (s.observe o) :=
  SameLists.beside (w := [o]) s.ctl s.sends s.cptRst s.totalTicks (by simpa using ho)

theorem SameLists.own {n : Kont} {m : Msg} (hk : s.tasks s.current = some k)
    (hkont : n = k.kont ∨ k.state ≠ .interruptedChild ∧ s.KontOk s.current n) :
    s.SameLists (s.setTask s.current { k with kont := n, msgVal := m }) :=
  { SameLists.refl s with
    others := fun _ ht => setTask_tasks_of_ne ht
    self := fun l hl => by
      rw [hk] at hl
      cases hl
      exact ⟨n, m, setTask_tasks_self, hkont⟩ }

theorem SameLists.calls {w : List MsgCall} : s.SameLists { s with msgCalls := w } :=
  { SameLists.refl s with }

theorem SameLists.queue {id : Nat} {q : MQueue} (hq : (s.mqueues id).isSome) :
    s.SameLists (s.setMqueue id q) :=
  { SameLists.refl s with
    used := fun j => by
      by_cases hj : j = id
      · subst hj
        simp [setMqueue, hq]
      · simp [setMqueue, Function.update_of_ne hj] }

theorem KontOk.iret : s.KontOk t .iret := ⟨fun _ => Or.inl rfl, nofun, nofun⟩

theorem KontOk.startRet {c : TaskPtr} (hf : c < s.fresh)
    (hp : ∀ k, s.tasks c = some k → k.parent = some t) : s.KontOk t (.startRet c) where
  idle _ := Or.inr ⟨c, rfl⟩
  child := nofun
  starter c' hc := by
    cases hc
    exact ⟨hf, hp⟩

theorem KontOk.of_ne {kont : Kont} (ht : t ≠ s.idle) (hk : ∀ c r, kont ≠ .waitSpecificChild c r)
    (hs : ∀ c, kont ≠ .startRet c) : s.KontOk t kont where
  idle h := absurd h ht
  child c r h := absurd h (hk c r)
  starter c h := absurd h (hs c)

theorem Inv.waiting (hi : Inv s) (ht : t ∈ s.queues.members h) (hm : h.state = .interruptedMsg)
    (hk : s.tasks s.current = some k) (hr : k.state = .running) :
    ∃ l, s.tasks t = some l ∧ l.state = .interruptedMsg ∧ t ≠ s.current := by
  obtain ⟨l, hl, hs, _⟩ := hi.live ht
  refine ⟨l, hl, hs.trans hm, ?_⟩
  rintro rfl
  rw [hk] at hl
  cases hl
  rw [hs, hm] at hr
  cases hr

theorem Effect.beside (e : s.SameLists s') : Effect T D False K B s s' :=
  .quiet (.same e False.elim)

theorem called_effect (id : Nat) (msg : Msg) : Effect T D False K B s (s.called id msg) :=
  .beside (SameLists.beside (w := [.psend id msg]) s.ctl (s.sends + 1) s.cptRst s.totalTicks
    (by simp [Obs.Plain]))

theorem Effect.waits {kont : Kont} {w : Nat} {m : Msg} (hm : h.state = .interruptedMsg) (hT : ¬ T)
    (hk : s.tasks s.current = some k) (hr : k.state = .running) (hidle : s.current ≠ s.idle)
    (hu : h.Used s.mqueues) (hc : ∀ c r, kont ≠ .waitSpecificChild c r) (hs : ∀ c, kont ≠ .startRet c) :
    Effect T D False K B s (s.blocked h { k with wakeTime := w, msgVal := m } kont) := by
  refine .block hT hk hr hidle ?_ ?_ hu (.of_ne hidle hc hs) False.elim ?_
  · rw [hm]
    decide
  · rw [hm]
    decide
  · rw [hm]
    simp

theorem Talk.effects (e : Talk T K R L s s') (hi : Inv s) : Effects T D False K B s s' := by
  cases e with
  | @hand id data last k l hk hr hkont hq htop hl hT hK =>
    obtain ⟨l', hl', hm, hne⟩ := hi.waiting (queueTop_mem htop) rfl hk hr
    rw [hl] at hl'
    cases hl'
    refine ((ReflTransGen.single (called_effect id ⟨data, s.sends⟩)).tail
      (.beside (.seen (o := .entered id ⟨data, s.sends⟩) trivial))).tail
        (.beside (.seen (o := .taken id ⟨data, s.sends⟩) trivial)) |>.tail (.quiet ?_)
    exact .wake (w := l.wakeTime) hl hne (by rw [hm]; decide) (by rw [hm]; decide) hk hT False.elim
  | @told id msg k c hk hr hkont hidle _ =>
    refine (ReflTransGen.single (.beside (SameLists.own (n := .psendRet id msg) (m := k.msgVal) hk
      (Or.inr ⟨by rw [hr]; decide, .of_ne hidle (by simp) (by simp)⟩)))).tail (.beside ?_)
    exact SameLists.beside (w := []) c s.sends s.cptRst s.totalTicks (by simp)
  | @sendBlock id data q k hT hk hr hkont hidle hq _ _ =>
    refine (ReflTransGen.single (called_effect id ⟨data, s.sends⟩)).tail ?_
    exact .waits (w := k.wakeTime) rfl hT hk hr hidle (by simp [Head.Used, called, observe, hq])
      (by simp) (by simp)
  | @sendAgain id rst msg q k hT hk hr hkont hidle hq _ _ =>
    refine .single ?_
    exact .waits (w := k.wakeTime) (m := k.msgVal) rfl hT hk hr hidle (by simp [Head.Used, hq])
      (by simp [hkont]) (by simp [hkont])
  | @enter id data q k hk _ hkont hq _ _ =>
    refine ((ReflTransGen.single (called_effect id ⟨data, s.sends⟩)).tail (.beside (SameLists.own (n := k.kont)
      (m := ⟨data, s.sends⟩) hk (Or.inl rfl)))).tail (.beside ?_) |>.tail (.beside .calls)
        |>.tail (.beside (.seen trivial))
    exact SameLists.queue (by simp [called, observe, setTask, hq])
  | @unsent id data k hk _ _ =>
    exact (ReflTransGen.single (called_effect id ⟨data, s.sends⟩)).tail (.beside (SameLists.own (n := k.kont)
      (m := ⟨data, s.sends⟩) hk (Or.inl rfl)))
  | sent _ => exact .single (.beside (.seen trivial))
  | @consume k hk hr _ =>
    exact .single (.beside (SameLists.own (n := .iret) (m := k.msgVal) hk
      (Or.inr ⟨by rw [hr]; decide, .iret⟩)))
  | @lost id rst p k hk hr _ _ _ =>
    exact (ReflTransGen.single (.beside (SameLists.own (n := .iret) (m := k.msgVal) hk
      (Or.inr ⟨by rw [hr]; decide, .iret⟩)))).tail (.beside (.seen trivial))
  | @received id msg v k hk hr _ =>
    exact (ReflTransGen.single (.beside (SameLists.own (n := .iret) (m := v) hk
      (Or.inr ⟨by rw [hr]; decide, .iret⟩)))).tail (.beside (.seen trivial))
  | @receiveBlock id rst p v q k hT hk hr hidle hq _ _ _ _ _ =>
    refine .single ?_
    exact .waits (w := k.wakeTime) (m := v) rfl hT hk hr hidle (by simp [Head.Used, hq]) (by simp)
      (by simp)
  | @exchange id p q msg rest last k l c hk hr hkont hidle hq _ _ htop hl hT _ _ =>
    obtain ⟨l', hl', hm, hne⟩ := hi.waiting (queueTop_mem htop) rfl hk hr
    rw [hl] at hl'
    cases hl'
    have hself : (s.exchanged id ((q.pop rest).add l.msgVal) msg last l).tasks s.current = some k := by
      rw [exchanged_tasks, Function.update_of_ne (Ne.symm hne)]
      exact hk
    refine ((ReflTransGen.single (.beside (SameLists.queue (by simp [hq])))).tail
      (.beside (.calls (w := .add id l.msgVal.data :: .pop id :: s.msgCalls)))).tail
      (.beside (.seen (o := .taken id msg) trivial)) |>.tail
        (.beside (.seen (o := .entered id l.msgVal) trivial)) |>.tail (.quiet
        (.wake (w := l.wakeTime) hl hne (by rw [hm]; decide) (by rw [hm]; decide) hk hT False.elim))
        |>.tail (.beside (SameLists.own (n := .preceiveRet id p msg) (m := k.msgVal) hself
          (Or.inr ⟨by rw [hr]; decide, .of_ne hidle (by simp) (by simp)⟩))) |>.tail (.beside ?_)
    exact SameLists.beside (w := []) c _ _ _ (by simp)
  | take hq _ _ _ =>
    exact (ReflTransGen.single (.beside (SameLists.queue (by simp [hq])))).tail
      (.beside .calls) |>.tail (.beside (.seen trivial)) |>.tail (.beside (.seen trivial))
  | spill _ hq _ _ _ =>
    exact (ReflTransGen.single (.beside (SameLists.queue (by simp [hq])))).tail
      (.beside .calls) |>.tail (.beside (.seen trivial))
  | @release t k l hl hne hm hk hT _ =>
    refine .single (.quiet ?_)
    exact .wake (w := l.wakeTime) (m := l.msgVal) hl hne (by rw [hm]; decide) (by rw [hm]; decide) hk
      hT False.elim
  | @bump id _ _ =>
    refine .single (.beside ?_)
    exact SameLists.beside (w := [.reset id]) s.ctl s.sends (s.cptRst + 1) s.totalTicks
      (by simp [Obs.Plain])
  | @empty id q hq h1 h2 _ _ _ =>
    refine (ReflTransGen.single (.beside ?_)).tail (.beside .calls) |>.tail
      (.quiet (.drop (fun h => h) h1 h2))
    exact SameLists.beside (w := .emptied id :: (q.msgs.map (Obs.dropped id)).reverse) s.ctl s.sends
      s.cptRst s.totalTicks (by simp [Obs.Plain])
  | create hn hid _ _ =>
    exact (ReflTransGen.single (.quiet (.create (fun h => h) hn hid))).tail (.beside .calls)

end State
end DominOS.Process
