import DominOS.FifoLog
import DominOS.ProcessState

/-! What the observations of a run say about its messages: which may follow which, and
the order of every queue that follows from it. -/
namespace DominOS.Process
open FifoLog

def Obs.entry : Obs → Option (Entry Nat Msg)
  | .entered id msg => some (.entered id msg)
  | .taken id msg => some (.taken id msg)
  | .emptied id => some (.emptied id)
  | _ => none

def log (tr : List Obs) : List (Entry Nat Msg) := tr.filterMap Obs.entry

def Obs.Aside : Obs → Prop
  | .returned .. | .started .. | .exited .. | .reaped .. | .counted .. | .reset .. => True
  | _ => False

def held (id : Nat) (tr : List Obs) : List Msg := content id (log tr)

def NotEntered (msg : Msg) (tr : List Obs) : Prop :=
  ∀ id msg', .entered id msg' ∈ tr → msg'.send ≠ msg.send

def NotGone (msg : Msg) (tr : List Obs) : Prop :=
  ∀ id msg', (.received id msg' ∈ tr ∨ .dropped id msg' ∈ tr) → msg'.send ≠ msg.send

theorem NotGone.cons {msg : Msg} {tr : List Obs} {o : Obs} (h : NotGone msg tr)
    (ho : ∀ id msg', (o = .received id msg' ∨ o = .dropped id msg') → msg'.send ≠ msg.send) :
    NotGone msg (o :: tr) := by
  intro id msg' hg
  by_cases he : o = .received id msg' ∨ o = .dropped id msg'
  · exact ho id msg' he
  · refine h id msg' (hg.imp (fun hr => ?_) fun hr => ?_)
    · exact (List.mem_cons.mp hr).resolve_left fun h => he (Or.inl h.symm)
    · exact (List.mem_cons.mp hr).resolve_left fun h => he (Or.inr h.symm)

/-- Observations, newest first, of `n` calls of `psend`: a message enters once after its
call, the first of a queue is taken, what was taken is received once, and what is in a
queue that is emptied has been dropped. -/
inductive Story : Nat → List Obs → Prop where
  | nil : Story 0 []
  | psend {n id : Nat} {data : Int} {tr : List Obs} :
      Story n tr → Story (n + 1) (.psend id ⟨data, n⟩ :: tr)
  | entered {n id : Nat} {msg : Msg} {tr : List Obs} :
      Story n tr → .psend id msg ∈ tr → NotEntered msg tr → Story n (.entered id msg :: tr)
  | taken {n id : Nat} {msg : Msg} {tr : List Obs} :
      Story n tr → (held id tr).head? = some msg → Story n (.taken id msg :: tr)
  | received {n id : Nat} {msg : Msg} {tr : List Obs} :
      Story n tr → .taken id msg ∈ tr → NotGone msg tr → Story n (.received id msg :: tr)
  | dropped {n id : Nat} {msg : Msg} {tr : List Obs} :
      Story n tr → msg ∈ held id tr ∨ .taken id msg ∈ tr → NotGone msg tr →
      Story n (.dropped id msg :: tr)
  | sent {n id : Nat} {msg : Msg} {tr : List Obs} :
      Story n tr → msg.data = -1 ∨ .entered id msg ∈ tr → Story n (.sent id msg :: tr)
  | emptied {n id : Nat} {tr : List Obs} :
      Story n tr → (∀ msg ∈ held id tr, .dropped id msg ∈ tr) → Story n (.emptied id :: tr)
  | aside {n : Nat} {o : Obs} {tr : List Obs} : Story n tr → o.Aside → Story n (o :: tr)

section Held
variable {id j : Nat} {msg : Msg} {tr : List Obs} {o : Obs}

theorem held_entered : held id (.entered j msg :: tr) =
    if j = id then held id tr ++ [msg] else held id tr := rfl

theorem held_taken : held id (.taken j msg :: tr) =
    if j = id then (held id tr).tail else held id tr := rfl

theorem held_emptied : held id (.emptied j :: tr) = if j = id then [] else held id tr := rfl

theorem held_other (h : o.entry = none) : held id (o :: tr) = held id tr := by
  simp only [held, log, List.filterMap_cons, h]

theorem Obs.Aside.entry_none (h : o.Aside) : o.entry = none := by
  cases o <;> first | rfl | exact h.elim

theorem mem_log {e : Entry Nat Msg} : e ∈ log tr ↔ ∃ o ∈ tr, o.entry = some e :=
  List.mem_filterMap

theorem entered_log : .entered id msg ∈ log tr ↔ .entered id msg ∈ tr := by
  rw [mem_log]
  constructor
  · rintro ⟨o, ho, he⟩
    cases o with
    | entered j m =>
      cases he
      exact ho
    | _ => cases he
  · intro h
    exact ⟨_, h, rfl⟩

theorem taken_log : .taken id msg ∈ log tr ↔ .taken id msg ∈ tr := by
  rw [mem_log]
  constructor
  · rintro ⟨o, ho, he⟩
    cases o with
    | taken j m =>
      cases he
      exact ho
    | _ => cases he
  · intro h
    exact ⟨_, h, rfl⟩
end Held

namespace Story
variable {n id id' : Nat} {msg msg' : Msg} {tr f : List Obs}

theorem older (h : Story n (f ++ tr)) : ∃ m ≤ n, Story m tr := by
  induction f generalizing n with
  | nil => exact ⟨n, Nat.le_refl n, h⟩
  | cons o f ih =>
    cases h with
    | psend h =>
      obtain ⟨m, hm, hs⟩ := ih h
      exact ⟨m, Nat.le_succ_of_le hm, hs⟩
    | entered h _ _ => exact ih h
    | taken h _ => exact ih h
    | received h _ _ => exact ih h
    | dropped h _ _ => exact ih h
    | sent h _ => exact ih h
    | emptied h _ => exact ih h
    | aside h _ => exact ih h

theorem psend_lt (h : Story n tr) (hp : .psend id msg ∈ tr) : msg.send < n := by
  induction h with
  | nil => cases hp
  | psend _ ih =>
    rcases List.mem_cons.mp hp with hp | hp
    · cases hp
      exact Nat.lt_succ_self _
    · exact Nat.lt_succ_of_lt (ih hp)
  | entered _ _ _ ih => exact ih ((List.mem_cons.mp hp).resolve_left nofun)
  | taken _ _ ih => exact ih ((List.mem_cons.mp hp).resolve_left nofun)
  | received _ _ _ ih => exact ih ((List.mem_cons.mp hp).resolve_left nofun)
  | dropped _ _ _ ih => exact ih ((List.mem_cons.mp hp).resolve_left nofun)
  | sent _ _ ih => exact ih ((List.mem_cons.mp hp).resolve_left nofun)
  | emptied _ _ ih => exact ih ((List.mem_cons.mp hp).resolve_left nofun)
  | aside _ ho ih =>
    rcases List.mem_cons.mp hp with hp | hp
    · subst hp
      exact ho.elim
    · exact ih hp

theorem psend_once (h : Story n (f ++ .psend id msg :: tr)) :
    ∀ id' msg', .psend id' msg' ∈ tr → msg'.send ≠ msg.send := by
  intro id' msg' hp he
  obtain ⟨m, _, hs⟩ := h.older
  cases hs with
  | psend hs => exact Nat.lt_irrefl _ (he ▸ hs.psend_lt hp)
  | aside _ ho => exact ho.elim

theorem entered_asked (h : Story n tr) (he : .entered id msg ∈ tr) : .psend id msg ∈ tr := by
  induction h with
  | nil => cases he
  | psend _ ih => exact List.mem_cons_of_mem _ (ih ((List.mem_cons.mp he).resolve_left nofun))
  | entered _ hp _ ih =>
    rcases List.mem_cons.mp he with he | he
    · cases he
      exact List.mem_cons_of_mem _ hp
    · exact List.mem_cons_of_mem _ (ih he)
  | taken _ _ ih => exact List.mem_cons_of_mem _ (ih ((List.mem_cons.mp he).resolve_left nofun))
  | received _ _ _ ih =>
    exact List.mem_cons_of_mem _ (ih ((List.mem_cons.mp he).resolve_left nofun))
  | dropped _ _ _ ih =>
    exact List.mem_cons_of_mem _ (ih ((List.mem_cons.mp he).resolve_left nofun))
  | sent _ _ ih => exact List.mem_cons_of_mem _ (ih ((List.mem_cons.mp he).resolve_left nofun))
  | emptied _ _ ih => exact List.mem_cons_of_mem _ (ih ((List.mem_cons.mp he).resolve_left nofun))
  | aside _ ho ih =>
    rcases List.mem_cons.mp he with he | he
    · subst he
      exact ho.elim
    · exact List.mem_cons_of_mem _ (ih he)

theorem entered_lt (h : Story n tr) (he : .entered id msg ∈ tr) : msg.send < n :=
  h.psend_lt (h.entered_asked he)

theorem entered_unique (h : Story n tr) (h1 : .entered id msg ∈ tr) (h2 : .entered id' msg' ∈ tr)
    (hs : msg.send = msg'.send) : id = id' ∧ msg = msg' := by
  induction h with
  | nil => cases h1
  | psend _ ih =>
    exact ih ((List.mem_cons.mp h1).resolve_left nofun) ((List.mem_cons.mp h2).resolve_left nofun)
  | entered _ _ hn ih =>
    rcases List.mem_cons.mp h1 with he1 | he1
    · cases he1
      rcases List.mem_cons.mp h2 with he2 | he2
      · cases he2
        exact ⟨rfl, rfl⟩
      · exact absurd hs.symm (hn _ _ he2)
    · rcases List.mem_cons.mp h2 with he2 | he2
      · cases he2
        exact absurd hs (hn _ _ he1)
      · exact ih he1 he2
  | taken _ _ ih =>
    exact ih ((List.mem_cons.mp h1).resolve_left nofun) ((List.mem_cons.mp h2).resolve_left nofun)
  | received _ _ _ ih =>
    exact ih ((List.mem_cons.mp h1).resolve_left nofun) ((List.mem_cons.mp h2).resolve_left nofun)
  | dropped _ _ _ ih =>
    exact ih ((List.mem_cons.mp h1).resolve_left nofun) ((List.mem_cons.mp h2).resolve_left nofun)
  | sent _ _ ih =>
    exact ih ((List.mem_cons.mp h1).resolve_left nofun) ((List.mem_cons.mp h2).resolve_left nofun)
  | emptied _ _ ih =>
    exact ih ((List.mem_cons.mp h1).resolve_left nofun) ((List.mem_cons.mp h2).resolve_left nofun)
  | @aside n o tr _ ho ih =>
    have later {id : Nat} {msg : Msg} (h : .entered id msg ∈ o :: tr) : .entered id msg ∈ tr :=
      (List.mem_cons.mp h).resolve_left fun h => by
        subst h
        exact ho.elim
    exact ih (later h1) (later h2)

theorem log_cons {o : Obs} (h : o.entry = none) : log (o :: tr) = log tr := by
  simp only [log, List.filterMap_cons, h]

theorem fifo (h : Story n tr) : Fifo (log tr) := by
  induction h with
  | nil => exact .nil
  | psend _ ih => exact ih
  | entered _ _ hn ih =>
    exact .enter ih fun hm => hn _ _ (entered_log.mp (mem_arrivals.mp hm)) rfl
  | taken _ hh ih => exact .take ih hh
  | received _ _ _ ih => exact ih
  | dropped _ _ _ ih => exact ih
  | sent _ _ ih => exact ih
  | emptied _ _ ih => exact .empty ih
  | aside _ ho ih =>
    rw [log_cons ho.entry_none]
    exact ih

theorem entered_of_taken (h : Story n tr) (ht : .taken id msg ∈ tr) : .entered id msg ∈ tr :=
  entered_log.mp (h.fifo.entered_of_taken (taken_log.mpr ht))

theorem entered_of_held (hm : msg ∈ held id tr) : .entered id msg ∈ tr :=
  entered_log.mp (entered_of_mem hm)

theorem not_taken (h : Story n tr) (hm : msg ∈ held id tr) (ht : .taken id' msg' ∈ tr) :
    msg'.send ≠ msg.send := by
  intro hs
  obtain ⟨rfl, rfl⟩ := h.entered_unique (h.entered_of_taken ht) (entered_of_held hm) hs
  exact h.fifo.not_taken hm (taken_log.mpr ht)

theorem received_taken (h : Story n (f ++ .received id msg :: tr)) : .taken id msg ∈ tr := by
  obtain ⟨m, _, hs⟩ := h.older
  cases hs with
  | received _ ht _ => exact ht
  | aside _ ho => exact ho.elim

theorem received_asked (h : Story n (f ++ .received id msg :: tr)) : .psend id msg ∈ tr := by
  have ht := h.received_taken
  obtain ⟨m, _, hs⟩ := h.older
  cases hs with
  | received hs _ _ => exact hs.entered_asked (hs.entered_of_taken ht)
  | aside _ ho => exact ho.elim

theorem received_once (h : Story n (f ++ .received id msg :: tr)) :
    ∀ id' msg', .received id' msg' ∈ tr → msg'.send ≠ msg.send := by
  obtain ⟨m, _, hs⟩ := h.older
  cases hs with
  | received _ _ hn => exact fun id' msg' h => hn id' msg' (Or.inl h)
  | aside _ ho => exact ho.elim

theorem entered_of_gone (h : Story n tr) (hg : .received id msg ∈ tr ∨ .dropped id msg ∈ tr) :
    .entered id msg ∈ tr := by
  rcases hg with hg | hg
  · obtain ⟨f, b, rfl⟩ := List.append_of_mem hg
    have ht := h.received_taken
    exact h.entered_of_taken (List.mem_append_right _ (List.mem_cons_of_mem _ ht))
  · obtain ⟨f, b, rfl⟩ := List.append_of_mem hg
    refine List.mem_append_right _ (List.mem_cons_of_mem _ ?_)
    obtain ⟨m, _, hs⟩ := h.older
    cases hs with
    | dropped hs hd _ => exact hd.elim entered_of_held hs.entered_of_taken
    | aside _ ho => exact ho.elim

theorem not_gone (h : Story n tr) (hn : NotEntered msg tr) : NotGone msg tr :=
  fun _ _ hg => hn _ _ (h.entered_of_gone hg)

theorem dropped_of_swept (h : Story n tr) (hs : Swept id msg (log tr)) :
    ∃ f b, tr = f ++ .emptied id :: b ∧ .entered id msg ∈ b ∧ .dropped id msg ∈ b := by
  obtain ⟨f, b, hl, hm⟩ := hs
  obtain ⟨f', t, rfl, -, ht⟩ := List.filterMap_eq_append_iff.mp hl
  obtain ⟨f'', o, b', rfl, -, ho, hb⟩ := List.filterMap_eq_cons_iff.mp ht
  cases o with
  | emptied j =>
    cases ho
    have hheld : msg ∈ held id b' := by
      unfold held log
      rw [hb]
      exact hm
    refine ⟨f' ++ f'', b', by simp, entered_of_held hheld, ?_⟩
    rw [← List.append_assoc] at h
    obtain ⟨m, _, hs⟩ := h.older
    cases hs with
    | emptied _ hd => exact hd msg hheld
    | aside _ ho => exact ho.elim
  | _ => cases ho

/-- When `msg'` is taken, what entered its queue before it has been taken or was dropped
when the queue was emptied. -/
theorem in_order {l m o : List Obs} (h : Story n (f ++ .taken id msg' :: l))
    (hl : l = m ++ .entered id msg' :: o) (he : .entered id msg ∈ o) :
    .taken id msg ∈ l ∨
      ∃ f b, l = f ++ .emptied id :: b ∧ .entered id msg ∈ b ∧ .dropped id msg ∈ b := by
  have hf := h.fifo
  have happ : log (f ++ .taken id msg' :: l) = log f ++ .taken id msg' :: log l := by
    simp [log, List.filterMap_append, Obs.entry]
  have hl' : log l = log m ++ .entered id msg' :: log o := by
    rw [hl]
    simp [log, List.filterMap_append, Obs.entry]
  rw [happ] at hf
  rcases hf.order hl' (entered_log.mpr he) with ht | hs
  · exact Or.inl (taken_log.mp ht)
  · right
    obtain ⟨k, _, hs'⟩ := h.older
    cases hs' with
    | taken hs' _ => exact hs'.dropped_of_swept hs
    | aside _ ho => exact ho.elim

end Story
end DominOS.Process
