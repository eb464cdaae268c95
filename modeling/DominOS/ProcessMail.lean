import DominOS.ProcessBooks
import DominOS.ProcessOutcome

/-! The invariant of the message calls: what every task inside `psend` or `preceive`
can rely on, and where every message is. -/
namespace DominOS.Process
open IntrusiveLists Relation

def Kont.carries (kont : Kont) (v : Msg) : Option Nat :=
  match kont with
  | .psendLoop .. | .preceiveLoop .. => if v.data = -1 then none else some v.send
  | .preceiveRet _ _ msg => some msg.send
  | _ => none

def Obs.Spares (n : Nat) : Obs → Prop
  | .entered _ msg | .received _ msg | .dropped _ msg => msg.send ≠ n
  | _ => True

section Grow
variable {id : Nat} {msg v : Msg} {kont : Kont} {O tr : List Obs}

theorem carries_silent (h : kont.Silent) : kont.carries v = none := by
  cases kont <;> simp_all [Kont.carries, Kont.Silent]

theorem ResetAfter.grow (h : ResetAfter id msg tr) (O : List Obs) :
    ResetAfter id msg (O ++ tr) := by
  obtain ⟨f, b, rfl, he⟩ := h
  exact ⟨O ++ f, b, by rw [List.append_assoc], he⟩

theorem NotEntered.grow (h : NotEntered msg tr)
    (hs : ∀ o ∈ O, o.Spares msg.send) : NotEntered msg (O ++ tr) := by
  intro id m he
  rcases List.mem_append.mp he with he | he
  · exact hs _ he
  · exact h id m he

theorem NotGone.grow (h : NotGone msg tr)
    (hs : ∀ o ∈ O, o.Spares msg.send) : NotGone msg (O ++ tr) := by
  rintro id m (he | he) <;> rcases List.mem_append.mp he with he | he
  · exact hs _ he
  · exact h id m (Or.inl he)
  · exact hs _ he
  · exact h id m (Or.inr he)

end Grow

namespace State
variable {s s' : State} {t u : TaskPtr} {k l : Task} {h : Head} {kont : Kont} {v msg : Msg}
  {id : Nat} {T D M K R L : Prop}

/-- What holds of a task that will go on at `kont` with `v` in its `msg_val`. -/
def Fact (K : Prop) (s : State) (t : TaskPtr) (kont : Kont) (v : Msg) : Prop :=
  match kont with
  | .psendLoop id msg rst => rst ≤ s.cptRst ∧
      (s.queues.link t = some (.waitingSenders id) ∨ v.data = -1 ∨ rst < s.cptRst) ∧
      (v.data = -1 ∧ .entered id msg ∈ s.trace ∨
        v = msg ∧ v.data ≠ -1 ∧ .psend id msg ∈ s.trace ∧ NotEntered msg s.trace)
  | .psendAdd .. => False
  | .psendRet id msg => .entered id msg ∈ s.trace
  | .preceiveLoop id p rst => rst ≤ s.cptRst ∧ (K → p.Good) ∧ (v.data ≠ -1 →
      .taken id v ∈ s.trace ∧ NotGone v s.trace ∧
        (K → ResetAfter id v s.trace ∨ rst = s.cptRst ∧ (s.mqueues id).isSome))
  | .preceiveRet id p msg => (K → p.Good) ∧ .taken id msg ∈ s.trace ∧ NotGone msg s.trace
  | _ => True

structure Desk (K : Prop) (s : State) : Prop where
  senders : ∀ t id q, s.queues.link t = some (.waitingSenders id) → s.mqueues id = some q →
    q.count = q.size
  receivers : ∀ t id q, s.queues.link t = some (.waitingReceivers id) → s.mqueues id = some q →
    q.count = 0
  sending : ∀ t id, s.queues.link t = some (.waitingSenders id) →
    ∃ msg rst, s.Inside t (.psendLoop id msg rst) msg ∧ msg.data ≠ -1
  receiving : ∀ t id, s.queues.link t = some (.waitingReceivers id) →
    ∃ p rst v, s.Inside t (.preceiveLoop id p rst) v ∧ v.data = -1
  fact : ∀ t kont v, s.Inside t kont v → s.Fact K t kont v
  alone : ∀ t u kont kont' v v' n, s.Inside t kont v → s.Inside u kont' v' →
    kont.carries v = some n → kont'.carries v' = some n → t = u

/-- Where `K` says that nothing is lost: what was taken is on its way, received or dropped
in a reset. -/
structure Kept (K : Prop) (s : State) : Prop where
  swept : K → ∀ id msg, .dropped id msg ∈ s.trace → ResetAfter id msg s.trace
  everywhere : K → ∀ id msg, .taken id msg ∈ s.trace → msg.data ≠ -1 →
    (∃ t, s.Held t id msg) ∨ .received id msg ∈ s.trace ∨ .dropped id msg ∈ s.trace

structure Mail (K : Prop) (s : State) : Prop extends Desk K s, Kept K s where
  books : Books s.mqueues s.sends s.trace

theorem Fact.silent (h : kont.Silent) : s.Fact K t kont v := by
  cases kont <;> trivial

theorem Fact.grow {O : List Obs} (h : s.Fact K t kont v) (ht : s'.trace = O ++ s.trace)
    (hc : s'.cptRst = s.cptRst)
    (hl : ∀ id, s.queues.link t = some (.waitingSenders id) →
      s'.queues.link t = some (.waitingSenders id))
    (hm : ∀ id, (s.mqueues id).isSome → (s'.mqueues id).isSome)
    (hs : ∀ n, kont.carries v = some n → ∀ o ∈ O, o.Spares n) : s'.Fact K t kont v := by
  have mem {o : Obs} (ho : o ∈ s.trace) : o ∈ s'.trace := by
    rw [ht]
    exact List.mem_append_right _ ho
  cases kont with
  | psendLoop id msg rst =>
    obtain ⟨h1, h2, h3⟩ := h
    refine ⟨by rw [hc]; exact h1, by rw [hc]; exact h2.imp_left (hl id), ?_⟩
    rcases h3 with ⟨h3, h4⟩ | ⟨rfl, h3, h4, h5⟩
    · exact Or.inl ⟨h3, mem h4⟩
    · refine Or.inr ⟨rfl, h3, mem h4, ?_⟩
      rw [ht]
      exact h5.grow (hs v.send (if_neg h3))
  | psendAdd id msg => exact h
  | psendRet id msg => exact mem h
  | preceiveLoop id p rst =>
    refine ⟨by rw [hc]; exact h.1, h.2.1, fun hv => ?_⟩
    obtain ⟨h1, h2, h3⟩ := h.2.2 hv
    refine ⟨mem h1, ?_, fun hK => (h3 hK).imp (fun h => ht ▸ h.grow O) fun h => ?_⟩
    · rw [ht]
      exact h2.grow (hs v.send (if_neg hv))
    · rw [hc]
      exact ⟨h.1, hm id h.2⟩
  | preceiveRet id p msg =>
    refine ⟨h.1, mem h.2.1, ?_⟩
    rw [ht]
    exact h.2.2.grow (hs msg.send rfl)
  | _ => trivial

theorem Desk.held_fact (h : Desk K s) (hh : s.Held t id msg) :
    .taken id msg ∈ s.trace ∧ NotGone msg s.trace := by
  obtain ⟨k, hk, hz, ⟨p, rst, hkont, hv, hd⟩ | ⟨p, hkont⟩⟩ := hh
  · have hf := h.fact t _ _ ⟨k, hk, hz, hkont, rfl⟩
    obtain ⟨h1, h2, _⟩ := hf.2.2 (hv ▸ hd)
    exact ⟨hv ▸ h1, hv ▸ h2⟩
  · exact (h.fact t _ _ ⟨k, hk, hz, hkont, rfl⟩).2

theorem Mail.carries_lt (h : Mail K s) {n : Nat} (hin : s.Inside t kont v)
    (hc : kont.carries v = some n) : n < s.sends := by
  have hf := h.fact t kont v hin
  have hstory := h.books.story
  cases kont with
  | psendLoop id msg rst =>
    simp only [Kont.carries] at hc
    split at hc
    · cases hc
    · rename_i hv
      obtain ⟨rfl, _, hp, _⟩ := hf.2.2.resolve_left fun h => hv h.1
      cases hc
      exact hstory.psend_lt hp
  | preceiveLoop id p rst =>
    simp only [Kont.carries] at hc
    split at hc
    · cases hc
    · rename_i hv
      cases hc
      exact hstory.entered_lt (hstory.entered_of_taken (hf.2.2 hv).1)
  | preceiveRet id p msg =>
    cases hc
    exact hstory.entered_lt (hstory.entered_of_taken hf.2.1)
  | _ => cases hc

theorem Mail.carries_ne (h : Mail K s) {m : Msg} (hm : m ∈ held id s.trace)
    (hin : s.Inside t kont v) : kont.carries v ≠ some m.send := by
  intro hc
  have hf := h.fact t kont v hin
  have hstory := h.books.story
  cases kont with
  | psendLoop id' msg rst =>
    simp only [Kont.carries] at hc
    split at hc
    · cases hc
    · rename_i hv
      obtain ⟨rfl, _, _, hn⟩ := hf.2.2.resolve_left fun h => hv h.1
      exact hn _ _ (Story.entered_of_held hm) (Option.some.inj hc).symm
  | preceiveLoop id' p rst =>
    simp only [Kont.carries] at hc
    split at hc
    · cases hc
    · rename_i hv
      exact hstory.not_taken hm (hf.2.2 hv).1 (Option.some.inj hc)
  | preceiveRet id' p msg => exact hstory.not_taken hm hf.2.1 (Option.some.inj hc)
  | _ => cases hc

structure Undisturbed (K : Prop) (s s' : State) : Prop where
  mqueues : s'.mqueues = s.mqueues
  cptRst : s'.cptRst = s.cptRst
  sends : s'.sends = s.sends
  msgCalls : s'.msgCalls = s.msgCalls
  trace : ∃ seen, s'.trace = seen ++ s.trace ∧ ∀ o ∈ seen, o.Silent
  inside : ∀ t kont v, ¬ kont.Silent → s'.Inside t kont v → s.Inside t kont v
  link : ∀ t h, h.state = .interruptedMsg → s'.queues.link t = some h → s.queues.link t = some h
  stays : ∀ t h kont v, ¬ kont.Silent → h.state = .interruptedMsg → s.queues.link t = some h →
    s'.Inside t kont v → s'.queues.link t = some h
  waits : ∀ t h kont v, ¬ kont.Silent → h.state = .interruptedMsg → s'.queues.link t = some h →
    s.Inside t kont v → s'.Inside t kont v
  forward : K → ∀ t kont v, ¬ kont.Silent → s.Inside t kont v → s'.Inside t kont v

theorem held_iff : s.Held t id msg ↔
    (∃ p rst, s.Inside t (.preceiveLoop id p rst) msg ∧ msg.data ≠ -1) ∨
      ∃ p v, s.Inside t (.preceiveRet id p msg) v := by
  constructor
  · rintro ⟨k, hk, hz, ⟨p, rst, hkont, hv, hd⟩ | ⟨p, hkont⟩⟩
    · exact Or.inl ⟨p, rst, ⟨k, hk, hz, hkont, hv⟩, hd⟩
    · exact Or.inr ⟨p, k.msgVal, k, hk, hz, hkont, rfl⟩
  · rintro (⟨p, rst, ⟨k, hk, hz, hkont, hv⟩, hd⟩ | ⟨p, v, k, hk, hz, hkont, _⟩)
    · exact ⟨k, hk, hz, Or.inl ⟨p, rst, hkont, hv, hd⟩⟩
    · exact ⟨k, hk, hz, Or.inr ⟨p, hkont⟩⟩

theorem Held.transfer (h : s.Held t id msg)
    (hf : ∀ kont v, ¬ kont.Silent → s.Inside t kont v → s'.Inside t kont v) : s'.Held t id msg := by
  rw [held_iff] at h ⊢
  rcases h with ⟨p, rst, h, hd⟩ | ⟨p, v, h⟩
  · exact Or.inl ⟨p, rst, hf _ _ nofun h, hd⟩
  · exact Or.inr ⟨p, v, hf _ _ nofun h⟩

theorem Mail.undisturbed (h : Mail K s) (e : s.Undisturbed K s') : Mail K s' := by
  obtain ⟨seen, ht, hs⟩ := e.trace
  have old {o : Obs} (ho : o ∈ s'.trace) (hn : ¬ o.Silent) : o ∈ s.trace := by
    rw [ht] at ho
    exact (List.mem_append.mp ho).resolve_left fun h => hn (hs o h)
  have mem {o : Obs} (ho : o ∈ s.trace) : o ∈ s'.trace := by
    rw [ht]
    exact List.mem_append_right _ ho
  refine ⟨⟨?_, ?_, ?_, ?_, ?_, ?_⟩, ⟨?_, ?_⟩, ?_⟩
  · intro t id q hl hq
    rw [e.mqueues] at hq
    exact h.senders t id q (e.link t _ rfl hl) hq
  · intro t id q hl hq
    rw [e.mqueues] at hq
    exact h.receivers t id q (e.link t _ rfl hl) hq
  · intro t id hl
    obtain ⟨msg, rst, hin, hd⟩ := h.sending t id (e.link t _ rfl hl)
    exact ⟨msg, rst, e.waits t _ _ _ nofun rfl hl hin, hd⟩
  · intro t id hl
    obtain ⟨p, rst, v, hin, hd⟩ := h.receiving t id (e.link t _ rfl hl)
    exact ⟨p, rst, v, e.waits t _ _ _ nofun rfl hl hin, hd⟩
  · intro t kont v hin
    by_cases hsil : kont.Silent
    · exact .silent hsil
    · refine (h.fact t kont v (e.inside t kont v hsil hin)).grow ht e.cptRst
        (fun id hl => e.stays t _ kont v hsil rfl hl hin) (fun id hq => by rw [e.mqueues]; exact hq)
        fun n _ o ho => ?_
      have := hs o ho
      cases o <;> trivial
  · intro t u kont kont' v v' n ht hu hc hc'
    refine h.alone t u kont kont' v v' n (e.inside t kont v (fun hsil => ?_) ht)
      (e.inside u kont' v' (fun hsil => ?_) hu) hc hc'
    · rw [carries_silent hsil] at hc
      cases hc
    · rw [carries_silent hsil] at hc'
      cases hc'
  · intro hK id msg hd
    rw [ht]
    exact (h.swept hK id msg (old hd nofun)).grow seen
  · intro hK id msg hd hn
    rcases h.everywhere hK id msg (old hd nofun) hn with ⟨t, hh⟩ | hr | hr
    · exact Or.inl ⟨t, hh.transfer (e.forward hK t)⟩
    · exact Or.inr (Or.inl (mem hr))
    · exact Or.inr (Or.inr (mem hr))
  · rw [e.mqueues, e.sends, ht]
    refine h.books.asides fun o ho => ?_
    have := hs o ho
    cases o <;> trivial

theorem Undisturbed.refl (s : State) : s.Undisturbed K s :=
  ⟨rfl, rfl, rfl, rfl, ⟨[], rfl, by simp⟩, fun _ _ _ _ h => h, fun _ _ _ h => h,
    fun _ _ _ _ _ _ h _ => h, fun _ _ _ _ _ _ _ h => h, fun _ _ _ _ _ h => h⟩

theorem Undisturbed.trans {s'' : State} (e : s.Undisturbed K s') (e' : s'.Undisturbed K s'') :
    s.Undisturbed K s'' where
  mqueues := e'.mqueues.trans e.mqueues
  cptRst := e'.cptRst.trans e.cptRst
  sends := e'.sends.trans e.sends
  msgCalls := e'.msgCalls.trans e.msgCalls
  trace := by
    obtain ⟨seen, ht, hs⟩ := e.trace
    obtain ⟨seen', ht', hs'⟩ := e'.trace
    refine ⟨seen' ++ seen, by rw [ht', ht, List.append_assoc], fun o ho => ?_⟩
    exact (List.mem_append.mp ho).elim (hs' o) (hs o)
  inside t kont v hs h := e.inside t kont v hs (e'.inside t kont v hs h)
  link t h hm hl := e.link t h hm (e'.link t h hm hl)
  stays t h kont v hs hm hl hin :=
    e'.stays t h kont v hs hm (e.stays t h kont v hs hm hl (e'.inside t kont v hs hin)) hin
  waits t h kont v hs hm hl hin :=
    e'.waits t h kont v hs hm hl (e.waits t h kont v hs hm (e'.link t h hm hl) hin)
  forward hK t kont v hs hin := e'.forward hK t kont v hs (e.forward hK t kont v hs hin)

theorem Undisturbed.at (t : TaskPtr) (hmq : s'.mqueues = s.mqueues) (hc : s'.cptRst = s.cptRst)
    (hn : s'.sends = s.sends) (hcalls : s'.msgCalls = s.msgCalls)
    (htr : ∃ seen, s'.trace = seen ++ s.trace ∧ ∀ o ∈ seen, o.Silent)
    (ht : ∀ u, u ≠ t → s'.tasks u = s.tasks u)
    (hl : ∀ u, u ≠ t → s'.queues.link u = s.queues.link u)
    (hback : ∀ kont v, ¬ kont.Silent → s'.Inside t kont v → s.Inside t kont v)
    (hwait : ∀ h, h.state = .interruptedMsg → s'.queues.link t = some h → s.queues.link t = some h ∧
      ∀ kont v, ¬ kont.Silent → s.Inside t kont v → s'.Inside t kont v)
    (hstay : ∀ h kont v, ¬ kont.Silent → h.state = .interruptedMsg → s.queues.link t = some h →
      s'.Inside t kont v → s'.queues.link t = some h)
    (hahead : K → ∀ kont v, ¬ kont.Silent → s.Inside t kont v → s'.Inside t kont v) :
    s.Undisturbed K s' := by
  have same {u : TaskPtr} {kont : Kont} {v : Msg} (hu : u ≠ t) :
      s'.Inside u kont v ↔ s.Inside u kont v := by
    unfold Inside
    rw [ht u hu]
  refine ⟨hmq, hc, hn, hcalls, htr, ?_, ?_, ?_, ?_, ?_⟩
  · intro u kont v hs hin
    by_cases hu : u = t
    · subst hu
      exact hback kont v hs hin
    · exact (same hu).mp hin
  · intro u h hm hlu
    by_cases hu : u = t
    · subst hu
      exact (hwait h hm hlu).1
    · exact (hl u hu) ▸ hlu
  · intro u h kont v hs hm hlu hin
    by_cases hu : u = t
    · subst hu
      exact hstay h kont v hs hm hlu hin
    · rw [hl u hu]
      exact hlu
  · intro u h kont v hs hm hlu hin
    by_cases hu : u = t
    · subst hu
      exact (hwait h hm hlu).2 kont v hs hin
    · exact (same hu).mpr hin
  · intro hK u kont v hs hin
    by_cases hu : u = t
    · subst hu
      exact hahead hK kont v hs hin
    · exact (same hu).mpr hin

/-- One task changes, goes on where it would have, and stays in the list of waiting tasks
that it is in; or it dies. -/
theorem Undisturbed.one (hk : s.tasks t = some k) (ht : s'.tasks = Function.update s.tasks t (some l))
    (hmq : s'.mqueues = s.mqueues) (hc : s'.cptRst = s.cptRst) (hn : s'.sends = s.sends)
    (hcalls : s'.msgCalls = s.msgCalls)
    (htr : ∃ seen, s'.trace = seen ++ s.trace ∧ ∀ o ∈ seen, o.Silent)
    (hl : ∀ u, u ≠ t → s'.queues.link u = s.queues.link u)
    (hkont : l.state ≠ .zombie → k.state ≠ .zombie ∧
      (l.kont = k.kont ∧ l.msgVal = k.msgVal ∨ l.kont.Silent ∧ k.kont.Silent))
    (hdead : K → l.state = .zombie → k.state ≠ .zombie → k.kont.Silent)
    (hlink : ∀ h, h.state = .interruptedMsg → (s'.queues.link t = some h →
      s.queues.link t = some h ∧ l.state ≠ .zombie) ∧
      (l.state ≠ .zombie → s.queues.link t = some h → s'.queues.link t = some h)) :
    s.Undisturbed K s' := by
  have hself : s'.tasks t = some l := by rw [ht, Function.update_self]
  have ahead (kont : Kont) (v : Msg) (hs : ¬ kont.Silent) (hz : l.state ≠ .zombie)
      (hin : s.Inside t kont v) : s'.Inside t kont v := by
    obtain ⟨m, hm, _, hk', hv⟩ := hin
    rw [hk] at hm
    cases hm
    obtain ⟨_, hh | hh⟩ := hkont hz
    · exact ⟨l, hself, hz, hh.1.trans hk', hh.2.trans hv⟩
    · exact absurd (hk' ▸ hh.2) hs
  refine .at t hmq hc hn hcalls htr (fun u hu => by rw [ht, Function.update_of_ne hu]) hl ?_ ?_ ?_ ?_
  · intro kont v hs hin
    obtain ⟨m, hm, hz, hk', hv⟩ := hin
    rw [hself] at hm
    cases hm
    obtain ⟨hz', hh | hh⟩ := hkont hz
    · exact ⟨k, hk, hz', hh.1.symm.trans hk', hh.2.symm.trans hv⟩
    · exact absurd (hk' ▸ hh.1) hs
  · intro h hm hlt
    obtain ⟨hlt', hz⟩ := (hlink h hm).1 hlt
    exact ⟨hlt', fun kont v hs hin => ahead kont v hs hz hin⟩
  · intro h kont v hs hm hlt hin
    obtain ⟨m, hm', hz, _⟩ := hin
    rw [hself] at hm'
    cases hm'
    exact (hlink h hm).2 hz hlt
  · intro hK kont v hs hin
    refine ahead kont v hs (fun hz => ?_) hin
    obtain ⟨m, hm, hz', hk', _⟩ := hin
    rw [hk] at hm
    cases hm
    exact hs (hk' ▸ hdead hK hz hz')

theorem boot_mail : Mail K boot := by
  have nobody {t : TaskPtr} {kont : Kont} {v : Msg} (h : boot.Inside t kont v) : kont = .iret := by
    obtain ⟨k, hk, _, hkont, _⟩ := h
    simp only [boot] at hk
    split at hk
    · cases hk
      exact hkont.symm
    · cases hk
  have nowhere (t : TaskPtr) (hd : Head) : boot.queues.link t ≠ some hd := by
    intro hl
    cases hl
  have unseen (o : Obs) : o ∉ boot.trace := by
    intro ho
    cases ho
  refine ⟨⟨?_, ?_, ?_, ?_, ?_, ?_⟩, ⟨?_, ?_⟩, boot_books⟩
  · intro t id q hl
    exact absurd hl (nowhere t _)
  · intro t id q hl
    exact absurd hl (nowhere t _)
  · intro t id hl
    exact absurd hl (nowhere t _)
  · intro t id hl
    exact absurd hl (nowhere t _)
  · intro t kont v h
    rw [nobody h]
    trivial
  · intro t u kont kont' v v' n h _ hc _
    rw [nobody h] at hc
    cases hc
  · intro _ id msg ho
    exact absurd ho (unseen _)
  · intro _ id msg ho
    exact absurd ho (unseen _)

end State
end DominOS.Process
