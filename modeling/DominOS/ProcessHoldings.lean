import DominOS.AddressSpacesRuns
import DominOS.ProcessPids

/-! What a task has while it has not been freed: its pid, and what `start_task` has allocated. -/
namespace DominOS.Process
open AddressSpaces (Mem StartOffers HeapBlock)
open Fallible Relation Runs

variable {o : TaskPtr → StartOffers} {m₀ m m' : Mem}

def TaskCall.task : TaskCall → TaskPtr
  | .alloc t _ _ => t
  | .free t => t

/-- What a call does to the memory, where the allocator answers with `o`; who is freed has become a
zombie before. -/
def TaskCall.perform (o : TaskPtr → StartOffers) (call : TaskCall) (m : Mem) :
    Except Paging.Fault Mem :=
  match call with
  | .alloc t code ssize => m.step (.start code ssize (o t))
  | .free t => do (← m.step (.terminate t)).step (.free t)

def replay (o : TaskPtr → StartOffers) (m₀ : Mem) : List TaskCall → Except Paging.Fault Mem
  | [] => .ok m₀
  | call :: calls => do call.perform o (← replay o m₀ calls)

def Served (o : TaskPtr → StartOffers) (m₀ : Mem) : List TaskCall → Prop
  | [] => True
  | .alloc t code ssize :: calls => Served o m₀ calls ∧ ∀ m, replay o m₀ calls = .ok m →
      ∃ m', m.step (.start code ssize (o t)) = .ok m'
  | .free _ :: calls => Served o m₀ calls

theorem served_of_ok {calls : List TaskCall} (h : replay o m₀ calls = .ok m) : Served o m₀ calls := by
  induction calls generalizing m with
  | nil => trivial
  | cons call calls ih =>
    obtain ⟨m₁, hm₁, hm⟩ := bind_ok.mp h
    cases call with
    | alloc t code ssize =>
      refine ⟨ih hm₁, fun m₂ hm₂ => ⟨m, ?_⟩⟩
      rw [hm₁] at hm₂
      cases hm₂
      exact hm
    | free t => exact ih hm₁

namespace State
variable {s s' : State} {t u : TaskPtr} {k k' : Task} {pid : Nat} {r : Int} {T D M K : Prop}
  {B : State → StartArgs → Prop}

section Pids

def Holds (s : State) (t : TaskPtr) (pid : Nat) : Prop :=
  ∃ k, s.tasks t = some k ∧ k.state ≠ .zombie ∧ k.pid = pid

def PidsHeld (s : State) : Prop := ∀ pid, s.pidmap pid = true → ∃ t, s.Holds t pid

theorem Holds.setTask (hk : s.tasks t = some k) (ht : ∀ u, u ≠ t → s'.tasks u = s.tasks u)
    (hk' : s'.tasks t = some k') (hp : k'.pid = k.pid) (hz : k'.state = .zombie → k.state = .zombie)
    (h : s.Holds u pid) : s'.Holds u pid := by
  obtain ⟨l, hl, hlz, hlp⟩ := h
  by_cases hu : u = t
  · subst hu
    rw [hk] at hl
    cases hl
    exact ⟨k', hk', fun h => hlz (hz h), hp.trans hlp⟩
  · exact ⟨l, (ht u hu).trans hl, hlz, hlp⟩

theorem PidsHeld.keep (h : s.PidsHeld) (hpids : s'.pidmap = s.pidmap)
    (hk : ∀ t pid, s.Holds t pid → s'.Holds t pid) : s'.PidsHeld := by
  intro pid hpid
  rw [hpids] at hpid
  obtain ⟨t, ht⟩ := h pid hpid
  exact ⟨t, hk t pid ht⟩

theorem Mourned.holds {parent : Option TaskPtr} (m : Mourned s parent s') (h : s.Holds u pid) :
    s'.Holds u pid := by
  cases m with
  | alone _ => exact h
  | woken _ hl hs _ =>
    exact h.setTask hl (fun _ => woken_of_ne) woken_self rfl (by rw [hs]; nofun)

theorem PidsHeld.died (h : s.PidsHeld) {parent : Option TaskPtr} (hk : s.tasks t = some k)
    (m : Mourned (s.died t k r) parent s') : s'.PidsHeld := by
  have hpids : s'.pidmap = Function.update s.pidmap k.pid false := by cases m <;> rfl
  intro pid hpid
  rw [hpids] at hpid
  have hne : pid ≠ k.pid := by
    rintro rfl
    rw [Function.update_self] at hpid
    cases hpid
  rw [Function.update_of_ne hne] at hpid
  obtain ⟨u, l, hl, hlz, hlp⟩ := h pid hpid
  have hu : u ≠ t := by
    rintro rfl
    rw [hk] at hl
    cases hl
    exact hne hlp.symm
  exact ⟨u, m.holds ⟨l, (setTask_tasks_of_ne hu).trans hl, hlz, hlp⟩⟩

theorem PidsHeld.freed (h : s.PidsHeld) (hk : s.tasks t = some k) (hz : k.state = .zombie) :
    (s.freed t).PidsHeld := by
  refine h.keep rfl fun u pid ⟨l, hl, hlz, hlp⟩ => ⟨l, ?_, hlz, hlp⟩
  have hu : u ≠ t := by
    rintro rfl
    rw [hk] at hl
    cases hl
    exact hlz hz
  exact (freed_tasks_of_ne hu).trans hl

theorem PidsHeld.born {a : StartArgs} (h : s.PidsHeld) (hi : Inv s) : (s.born pid a).PidsHeld := by
  intro q hq
  have hpids : (s.born pid a).pidmap = Function.update s.pidmap pid true := rfl
  by_cases he : q = pid
  · exact ⟨s.fresh, _, born_tasks_fresh, by simp, he.symm⟩
  · rw [hpids, Function.update_of_ne he] at hq
    obtain ⟨u, l, hl, hlz, hlp⟩ := h q hq
    exact ⟨u, l, (born_tasks_of_ne (hi.ne_fresh hl)).trans hl, hlz, hlp⟩

/-- A start that gets past its checks gets its struct. -/
def GetsStruct (_ : State) (a : StartArgs) : Prop := a.Passes → a.memory = true

theorem Effect.pidsHeld (e : Effect T D M K GetsStruct s s') (hi : Inv s) (h : s.PidsHeld) :
    s'.PidsHeld := by
  cases e with
  | quiet q =>
    cases q with
    | same e _ =>
      obtain ⟨c, hc, _⟩ := hi.current
      obtain ⟨kont, msgVal, hself, _⟩ := e.self c hc
      exact h.keep e.pidmap fun _ _ => .setTask hc e.others hself rfl id
    | wake hk _ _ _ _ _ _ =>
      exact h.keep rfl fun _ _ => .setTask hk (fun _ => woken_of_ne) woken_self rfl nofun
    | die hk _ _ _ _ hm _ _ => exact h.died hk hm
    | reap hk hz _ _ _ => exact h.freed hk hz
    | reapChild hk hz _ _ _ _ _ _ => exact h.freed hk hz
    | start _ _ _ _ _ _ => exact h.born hi
    | rank hk _ _ _ _ =>
      exact h.keep ranked_calls.2.2.2.1 fun _ _ =>
        .setTask hk (fun _ => ranked_of_ne) ranked_self rfl id
    | create _ _ _ => exact h
    | drop _ _ _ => exact h
    | leak ha hB => exact absurd (hB ha.1) ha.2
    | sawStart _ _ => exact h
  | exit _ hk _ _ _ hm => exact h.died hk hm
  | block _ hk _ _ _ hz _ _ _ _ =>
    exact h.keep rfl fun _ _ => .setTask hk (fun _ => setTask_tasks_of_ne) setTask_tasks_self rfl
      fun hd => absurd hd hz

theorem Holds.switched (hk : s.tasks t = some k) (h : s.Holds u pid) : (s.switched t k).Holds u pid :=
  .setTask hk (fun _ => setTask_tasks_of_ne) setTask_tasks_self rfl nofun h

theorem Switch.pidsHeld (e : Switch s s') (h : s.PidsHeld) : s'.PidsHeld := by
  cases e with
  | switch hk _ _ => exact h.keep rfl fun _ _ => .switched hk
  | @preempt new k c hk hs hc hr =>
    have hne : new ≠ s.current := ne_of_state hk hc (by rw [hs, hr]; decide)
    exact h.keep rfl fun _ _ hp => .switched ((woken_of_ne hne).trans hk)
      (hp.setTask hc (fun _ => woken_of_ne) woken_self rfl nofun)

theorem boot_pidsHeld : boot.PidsHeld := by
  intro pid hpid
  exact ⟨0, _, rfl, by decide, (beq_iff_eq.mp hpid).symm⟩

end Pids

section Calls

def callsOf (s : State) (t : TaskPtr) : List TaskCall := s.taskCalls.filter fun call => call.task = t

structure Tended (s : State) : Prop where
  idle : s.idle = boot.idle
  others : ∀ t, t = s.idle ∨ s.fresh ≤ t → s.callsOf t = []
  once : ∀ t, t ≠ s.idle → t < s.fresh → ∃ code ssize, s.callsOf t =
    if (s.tasks t).isSome then [.alloc t code ssize] else [.free t, .alloc t code ssize]

theorem boot_tended : boot.Tended where
  idle := rfl
  others _ _ := rfl
  once t ht hlt := by
    have hlt : t < 1 := hlt
    exact absurd (Nat.lt_one_iff.mp hlt) ht

theorem SameKin.isSome (h : s.SameKin s') (t : TaskPtr) : (s'.tasks t).isSome = (s.tasks t).isSome := by
  have ht := congrArg Option.isSome (h t)
  rwa [Option.isSome_map, Option.isSome_map] at ht

theorem callsOf_cons {call : TaskCall} (h : s'.taskCalls = call :: s.taskCalls) (t : TaskPtr) :
    s'.callsOf t = if call.task = t then call :: s.callsOf t else s.callsOf t := by
  unfold callsOf
  rw [h, List.filter_cons]
  simp

theorem freed_tasks_self : (s.freed t).tasks t = none := Function.update_self ..

theorem Tended.keep (h : s.Tended) (hk : ∀ t, (s'.tasks t).isSome = (s.tasks t).isSome)
    (hf : s'.fresh = s.fresh) (hi : s'.idle = s.idle) (hc : s'.taskCalls = s.taskCalls) :
    s'.Tended := by
  have hcalls (t : TaskPtr) : s'.callsOf t = s.callsOf t := congrArg _ hc
  refine ⟨hi.trans h.idle, fun t ht => ?_, fun t ht hlt => ?_⟩
  · rw [hi, hf] at ht
    exact (hcalls t).trans (h.others t ht)
  · rw [hi] at ht
    rw [hf] at hlt
    rw [hk, hcalls]
    exact h.once t ht hlt

theorem Tended.born {a : StartArgs} (h : s.Tended) (hi : Inv s) : (s.born pid a).Tended := by
  have hc : (s.born pid a).taskCalls = .alloc s.fresh a.code a.ssize :: s.taskCalls := rfl
  have hcalls (t : TaskPtr) : (s.born pid a).callsOf t =
      if s.fresh = t then .alloc s.fresh a.code a.ssize :: s.callsOf t else s.callsOf t :=
    callsOf_cons hc t
  obtain ⟨l, hl, _⟩ := hi.idle
  refine ⟨h.idle, fun t ht => ?_, fun t ht hlt => ?_⟩
  · have hne : s.fresh ≠ t := by
      rcases ht with rfl | hle
      · exact (hi.lt_fresh hl).ne'
      · exact Nat.ne_of_lt hle
    rw [hcalls, if_neg hne]
    exact h.others t (ht.imp id Nat.le_of_succ_le)
  · rw [hcalls]
    by_cases hnew : t = s.fresh
    · subst hnew
      refine ⟨a.code, a.ssize, ?_⟩
      rw [if_pos rfl, h.others _ (Or.inr le_rfl), born_tasks_fresh]
      rfl
    · rw [if_neg (Ne.symm hnew), born_tasks_of_ne hnew]
      exact h.once t ht (Nat.lt_of_le_of_ne (Nat.le_of_lt_succ hlt) hnew)

theorem Tended.freed (h : s.Tended) (hi : Inv s) (hk : s.tasks t = some k) (hz : k.state = .zombie)
    (hs : s'.tasks = (s.freed t).tasks) (hf : s'.fresh = s.fresh) (hidle : s'.idle = s.idle)
    (hc : s'.taskCalls = .free t :: s.taskCalls) : s'.Tended := by
  have hcalls := callsOf_cons hc
  obtain ⟨hti, hlt⟩ : t ≠ s.idle ∧ t < s.fresh := ⟨hi.not_idle hk hz, hi.lt_fresh hk⟩
  refine ⟨hidle.trans h.idle, fun u hu => ?_, fun u hu hult => ?_⟩
  · rw [hidle, hf] at hu
    have hne : t ≠ u := by
      rcases hu with rfl | hle
      · exact hti
      · exact (hlt.trans_le hle).ne
    exact (hcalls u).trans ((if_neg hne).trans (h.others u hu))
  · rw [hidle] at hu
    rw [hf] at hult
    obtain ⟨code, ssize, hold⟩ := h.once u hu hult
    refine ⟨code, ssize, (hcalls u).trans ?_⟩
    rw [hs]
    by_cases hut : u = t
    · subst hut
      rw [hk] at hold
      rw [freed_tasks_self]
      exact (if_pos rfl).trans (congrArg _ hold)
    · rw [freed_tasks_of_ne hut, ← hold]
      exact if_neg (Ne.symm hut)

theorem Turnover.tended (e : Turnover B s s') (hi : Inv s) (h : s.Tended) : s'.Tended := by
  cases e with
  | none hk hf hidle hc _ _ => exact h.keep hk.isSome hf hidle hc
  | born _ _ _ _ => exact h.born hi
  | freed hk hz _ => exact h.freed hi hk hz rfl rfl rfl rfl
  | reaped hk hz _ _ _ _ => exact h.freed hi hk hz rfl rfl rfl rfl

end Calls

section Memory

structure Backs (s : State) (m₀ m : Mem) : Prop where
  books : AddressSpaces.Books m []
  table : m.shpTable = []
  fresh : m.fresh = s.fresh
  spaces : ∀ t, (m.spaces t).isSome = (s.tasks t).isSome
  zombie : ∀ t, m.zombie t = true → t < m.fresh ∧ m.spaces t = none
  idle : m.spaces s.idle = m₀.spaces s.idle

def Backed (s : State) (o : TaskPtr → StartOffers) (m₀ : Mem) : Prop :=
  Served o m₀ s.taskCalls → ∃ m, replay o m₀ s.taskCalls = .ok m ∧ s.Backs m₀ m

theorem Backs.keep (h : s.Backs m₀ m) (hk : ∀ t, (s'.tasks t).isSome = (s.tasks t).isSome)
    (hf : s'.fresh = s.fresh) (hi : s'.idle = s.idle) : s'.Backs m₀ m where
  books := h.books
  table := h.table
  fresh := h.fresh.trans hf.symm
  spaces t := (h.spaces t).trans (hk t).symm
  zombie := h.zombie
  idle := hi.symm ▸ h.idle

theorem Backs.born {a : StartArgs} {code ssize : Nat} {offers : StartOffers} (h : s.Backs m₀ m)
    (hi : Inv s) (hm : m.step (.start code ssize offers) = .ok m') : (s.born pid a).Backs m₀ m' := by
  obtain ⟨l, hl, _⟩ := hi.idle
  have hidle : s.idle ≠ m.fresh := by
    rw [h.fresh]
    exact hi.ne_fresh hl
  simp only [Mem.step] at hm
  split at hm
  · rename_i hs
    obtain ⟨space, _, hv, hp, hm'⟩ := AddressSpaces.startTask_spec h.books.valid hs hm
    rw [hm']
    refine ⟨h.books.started hv hp, h.table, congrArg (· + 1) h.fresh, fun t => ?_, fun t ht => ?_, ?_⟩
    · change (Function.update m.spaces m.fresh (some space) t).isSome = _
      by_cases hnew : t = s.fresh
      · rw [hnew, h.fresh, Function.update_self, born_tasks_fresh]
        rfl
      · rw [h.fresh, Function.update_of_ne hnew, born_tasks_of_ne hnew]
        exact h.spaces t
    · obtain ⟨hlt, hnone⟩ := h.zombie t ht
      exact ⟨Nat.lt_succ_of_lt hlt, (Function.update_of_ne hlt.ne ..).trans hnone⟩
    · exact (Function.update_of_ne hidle ..).trans h.idle
  · cases hm

theorem Backs.freed (h : s.Backs m₀ m) (hi : Inv s) (hk : s.tasks t = some k)
    (hz : k.state = .zombie) (hs : s'.tasks = (s.freed t).tasks) (hf : s'.fresh = s.fresh)
    (hidle : s'.idle = s.idle) :
    ∃ m', TaskCall.perform o (.free t) m = .ok m' ∧ s'.Backs m₀ m' := by
  have hti := hi.not_idle hk hz
  have hsome : (m.spaces t).isSome := by
    rw [h.spaces, hk]
    rfl
  obtain ⟨space, hspace⟩ := Option.isSome_iff_exists.mp hsome
  have hlive : m.Live t := by
    refine ⟨hsome, Bool.eq_false_of_not_eq_true fun hzombie => ?_⟩
    rw [(h.zombie t hzombie).2] at hspace
    cases hspace
  have hb : AddressSpaces.Books (m.terminate t) [] := { h.books with valid := h.books.valid }
  obtain ⟨frames, heap, hfree, hp, hq⟩ := AddressSpaces.freeTask_spec hb hspace
  have hperform : TaskCall.perform o (.free t) m = (m.terminate t).freeTask t := by
    have hdead : (m.terminate t).zombie t = true := Function.update_self ..
    simp only [TaskCall.perform, Mem.step, if_pos hlive, ok_bind, if_pos hdead]
  refine ⟨_, hperform.trans hfree, hb.freed hspace hp hq, h.table, h.fresh.trans hf.symm, fun u => ?_,
    fun u hu => ?_, ?_⟩
  · change (Function.update m.spaces t none u).isSome = _
    rw [hs]
    by_cases hut : u = t
    · rw [hut, Function.update_self, freed_tasks_self]
      rfl
    · rw [Function.update_of_ne hut, freed_tasks_of_ne hut]
      exact h.spaces u
  · by_cases hut : u = t
    · rw [hut]
      exact ⟨h.books.lt hspace, Function.update_self ..⟩
    · have hold : m.zombie u = true := (Function.update_of_ne hut ..).symm.trans hu
      exact ⟨(h.zombie u hold).1, (Function.update_of_ne hut ..).trans (h.zombie u hold).2⟩
  · rw [hidle]
    exact (Function.update_of_ne (Ne.symm hti) ..).trans h.idle

theorem Backed.freed (h : s.Backed o m₀) (hi : Inv s) (hk : s.tasks t = some k)
    (hz : k.state = .zombie) (hs : s'.tasks = (s.freed t).tasks) (hf : s'.fresh = s.fresh)
    (hidle : s'.idle = s.idle) (hc : s'.taskCalls = .free t :: s.taskCalls) : s'.Backed o m₀ := by
  intro hserved
  rw [hc] at hserved ⊢
  obtain ⟨m, hm, hb⟩ := h hserved
  obtain ⟨m', hm', hb'⟩ := hb.freed (o := o) hi hk hz hs hf hidle
  exact ⟨m', bind_ok.mpr ⟨m, hm, hm'⟩, hb'⟩

theorem Backed.keep (h : s.Backed o m₀) (hk : ∀ t, (s'.tasks t).isSome = (s.tasks t).isSome)
    (hf : s'.fresh = s.fresh) (hi : s'.idle = s.idle) (hc : s'.taskCalls = s.taskCalls) :
    s'.Backed o m₀ := by
  intro hserved
  rw [hc] at hserved ⊢
  obtain ⟨m, hm, hb⟩ := h hserved
  exact ⟨m, hm, hb.keep hk hf hi⟩

theorem Turnover.backed (e : Turnover B s s') (hi : Inv s) (h : s.Backed o m₀) : s'.Backed o m₀ := by
  cases e with
  | none hk hf hidle hc _ _ => exact h.keep hk.isSome hf hidle hc
  | born _ _ _ _ =>
    intro ⟨hserved, hstart⟩
    obtain ⟨m, hm, hb⟩ := h hserved
    obtain ⟨m', hm'⟩ := hstart m hm
    exact ⟨m', bind_ok.mpr ⟨m, hm, hm'⟩, hb.born hi hm'⟩
  | freed hk hz _ => exact h.freed hi hk hz rfl rfl rfl rfl
  | reaped hk hz _ _ _ _ => exact h.freed hi hk hz rfl rfl rfl rfl

end Memory

end State
end DominOS.Process
