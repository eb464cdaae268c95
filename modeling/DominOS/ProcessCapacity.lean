import DominOS.ProcessSaved
import DominOS.ProcessShiftCalls

/-! `preset` and `pdelete` with a new queue after it leave kernels that go on alike when the new
queue is as large as the one that `preset` makes. -/
namespace DominOS.Process
open IntrusiveLists Fallible Relation Runs Simulation

/-- What user code gets to know. -/
def Obs.visible : Obs → Bool
  | .returned .. | .started .. | .exited .. | .reaped .. | .counted .. | .received .. => true
  | _ => false

def skip (c : Nat) (past : List Obs) (calls : List MsgCall) : Shift where
  num r := if r ≤ c then r else r + 1
  lt r r' := by split <;> split <;> omega
  since := c
  next r h := by rw [if_neg (by omega), if_neg (by omega)]
  past := past
  calls := calls

def pastOnly (past : List Obs) (calls : List MsgCall) : Shift where
  num := id
  lt _ _ := Iff.rfl
  since := 0
  next _ _ := rfl
  past := past
  calls := calls

theorem Kont.shift_eq {f : Shift} {c : Nat} {kont : Kont} (hf : ∀ r, r ≤ c → f.num r = r)
    (h : kont.saved ≤ c) : kont.shift f = kont := by
  cases kont with
  | psendLoop id msg rst => exact congrArg _ (hf rst h)
  | preceiveLoop id message rst => exact congrArg _ (hf rst h)
  | _ => rfl

namespace State
variable {s s₁ s₂ y : State} {t : TaskPtr} {k : Task} {id c n m : Nat} {q : MQueue} {f g : Shift}
  {P : Event → Prop}

def seen (s t : State) : List Obs :=
  (t.trace.take (t.trace.length - s.trace.length)).filter Obs.visible

/-- No sequence of events that `P` admits lets user code tell the states apart. -/
def Indistinguishable (P : Event → Prop) (s₁ s₂ : State) : Prop :=
  ∀ es : List Event, (∀ e ∈ es, P e) → exec step es s₁ ≠ .error .overflow →
    exec step es s₂ ≠ .error .overflow →
    (exec step es s₁).map s₁.seen = (exec step es s₂).map s₂.seen

/-- The state without what it records of the past. -/
def blank (s : State) : State := { s with trace := [], msgCalls := [] }

theorem seen_shift (x y : State) : (x.shift f).seen (y.shift f) = x.seen y := by
  have hl : (y.trace ++ f.past).length - (x.trace ++ f.past).length =
      y.trace.length - x.trace.length := by
    rw [List.length_append, List.length_append]
    omega
  unfold seen
  simp only [shift, hl]
  rw [List.take_append_of_le_length (Nat.sub_le _ _)]

theorem indistinguishable_shift (hf : f.since < y.cptRst) (hg : g.since < y.cptRst) :
    Indistinguishable P (y.shift f) (y.shift g) := by
  intro es _ h₁ h₂
  have third (f : Shift) (hf : f.since < y.cptRst) (h : exec step es (y.shift f) ≠ .error .overflow) :
      (exec step es (y.shift f)).map (y.shift f).seen = (exec step es y).map y.seen := by
    rcases (shift_exec hf es).outcomes (fun e he => he ▸ h) with ⟨_, b, hx, hy, rfl, _⟩ | ⟨e, hx, hy⟩
    · rw [hx, hy]
      exact congrArg Except.ok (seen_shift y b)
    · rw [hx, hy]
      rfl
  rw [third f hf h₁, third g hg h₂]

theorem blank_shift (hf : ∀ r, r ≤ c → f.num r = r) (h : ∀ t k, s.tasks t = some k → k.kont.saved ≤ c) :
    s.blank.shift f = { s with cptRst := f.num s.cptRst, trace := f.past, msgCalls := f.calls } := by
  have htasks : (fun t => (s.tasks t).map (Task.shift f)) = s.tasks := by
    funext t
    cases hk : s.tasks t with
    | none => rfl
    | some k => simp only [Option.map_some, Task.shift, Kont.shift_eq hf (h t k hk)]
  simp only [blank, shift, htasks, List.nil_append]

theorem bump_bump (h : s.SavedBelow) : (s.bump id).bump id =
    (s.bump id).blank.shift (skip s.cptRst (.reset id :: .reset id :: s.trace) s.msgCalls) := by
  have hnum : (if s.cptRst + 1 ≤ s.cptRst then s.cptRst + 1 else s.cptRst + 1 + 1) = s.cptRst + 1 + 1 :=
    if_neg (by omega)
  have hb := blank_shift (s := s.bump id) (c := s.cptRst)
    (f := skip s.cptRst (.reset id :: .reset id :: s.trace) s.msgCalls) (fun r hr => if_pos hr) h
  rw [hb]
  simp only [bump, observe, skip, hnum]

theorem bump_past (h : s.SavedBelow) :
    s.bump id = (s.bump id).blank.shift (pastOnly (.reset id :: s.trace) s.msgCalls) := by
  have hb := blank_shift (s := s.bump id) (c := s.cptRst)
    (f := pastOnly (.reset id :: s.trace) s.msgCalls) (fun r _ => rfl) h
  rw [hb]
  rfl

theorem bumpCptRst_ok (h : s.bumpCptRst id = .ok y) : s.cptRst < intMax ∧ y = s.bump id := by
  unfold bumpCptRst at h
  split at h
  · cases h
    exact ⟨by assumption, rfl⟩
  · cases h

theorem sweep_unused (h : s.sweep id q = .ok y) : y.mqueues id = none := by
  unfold sweep at h
  obtain ⟨a, _, h⟩ := bind_ok.mp h
  obtain ⟨b, _, h⟩ := bind_ok.mp h
  rw [← Except.ok.inj h]
  exact Function.update_self ..

theorem preset_sweeps (hq : s.mqueues id = some q) (hid : id < nbQueue) (hp : s.preset id = .ok s₁) :
    ∃ w, ((s.bump id).bump id).sweep id q = .ok w ∧ s₁ = (w.allocMqueue id q.count).returned 0 := by
  unfold preset at hp
  rw [mqueue_eq hq hid, ok_bind, Int.toNat_natCast] at hp
  dsimp only at hp
  obtain ⟨a, ha, hp⟩ := bind_ok.mp hp
  obtain ⟨_, rfl⟩ := bumpCptRst_ok ha
  obtain ⟨b, hb, hret⟩ := bind_ok.mp hp
  rw [deleteQueue_eq] at hb
  obtain ⟨c, hc, hsweep⟩ := bind_ok.mp hb
  obtain ⟨_, rfl⟩ := bumpCptRst_ok hc
  exact ⟨b, hsweep, (Except.ok.inj hret).symm⟩

theorem preset_room (hq : s.mqueues id = some q) (hid : id < nbQueue) (hp : s.preset id = .ok s₁) :
    s.cptRst < intMax := by
  unfold preset at hp
  rw [mqueue_eq hq hid, ok_bind, Int.toNat_natCast] at hp
  dsimp only at hp
  obtain ⟨a, ha, _⟩ := bind_ok.mp hp
  exact (bumpCptRst_ok ha).1

theorem pdelete_eq (hq : s.mqueues id = some q) (hid : id < nbQueue) (hc : s.cptRst < intMax)
    (hs : (s.bump id).sweep id q = .ok y) : s.pdelete id = .ok (y.returned 0) := by
  unfold pdelete
  rw [mqueue_eq hq hid, ok_bind, Int.toNat_natCast]
  simp only [deleteQueue_eq, bumpCptRst, if_pos hc, ok_bind, hs]
  rfl

/-- The kernel after `preset` is that after `pdelete` and a new queue, up to the size of the queue. -/
theorem preset_shift (h : s.SavedBelow) (hq : s.mqueues id = some q) (hid : id < nbQueue)
    (hp : s.preset id = .ok s₁) : ∃ (f g : Shift) (y : State), f.since < y.cptRst ∧ g.since < y.cptRst ∧
      s₁ = ((y.allocMqueue id q.count).returned 0).shift f ∧ y.mqueues id = none ∧
        s.pdelete id = .ok ((y.returned 0).shift g) := by
  obtain ⟨w, hw, rfl⟩ := preset_sweeps hq hid hp
  rw [bump_bump h] at hw
  have sweeps (f : Shift) (hf : f.since < (s.bump id).blank.cptRst) : Alike (fun _ => False) f
      (((s.bump id).blank.shift f).sweep id q) ((s.bump id).blank.sweep id q) := shift_sweep hf
  have hf := sweeps (skip s.cptRst (.reset id :: .reset id :: s.trace) s.msgCalls)
    (Nat.lt_succ_self s.cptRst)
  have hg := sweeps (pastOnly (.reset id :: s.trace) s.msgCalls) (Nat.succ_pos s.cptRst)
  rcases hf.outcomes nofun with ⟨_, y, hx, hy, rfl, hlt⟩ | ⟨e, hx, _⟩
  · rw [hx] at hw
    cases hw
    rcases hg.outcomes nofun with ⟨_, z, hx', hy', rfl, hlt'⟩ | ⟨e, _, hy'⟩
    · rw [hy] at hy'
      cases hy'
      rw [← bump_past h] at hx'
      exact ⟨_, _, y, hlt, hlt', rfl, sweep_unused hy, pdelete_eq hq hid (preset_room hq hid hp) hx'⟩
    · rw [hy] at hy'
      cases hy'
  · rw [hx] at hw
    cases hw

section Fill

/-- User code runs, `c` of the `n` places of queue `id` are taken, and nobody waits for a message. -/
structure Filled (id c n : Nat) (s : State) : Prop where
  ctl : s.ctl = .user
  task : ∃ k, s.tasks s.current = some k
  unlinked : s.queues.link s.current = none
  queue : ∃ q, s.mqueues id = some q ∧ q.count = c ∧ q.size = n
  receivers : s.queues.members (.waitingReceivers id) = []

def Later (s s' : State) (n : Nat) : Prop :=
  ∃ w, s'.trace = w ++ s.trace ∧ (w.filter Obs.visible).length = n

theorem Later.trans (h : Later s s₁ m) (h' : Later s₁ s₂ n) : Later s s₂ (n + m) := by
  obtain ⟨w, hw, hm⟩ := h
  obtain ⟨v, hv, hn⟩ := h'
  refine ⟨v ++ w, by rw [hv, hw, List.append_assoc], ?_⟩
  rw [List.filter_append, List.length_append, hm, hn]

theorem Later.seen (h : Later s s₁ n) : (s.seen s₁).length = n := by
  obtain ⟨w, hw, hn⟩ := h
  have htake : s₁.trace.take (s₁.trace.length - s.trace.length) = w := by
    rw [hw, List.length_append, Nat.add_sub_cancel, List.take_left]
  unfold State.seen
  rw [htake, hn]

theorem psend_eq {data : Int} (hid : id < nbQueue) (hq : s.mqueues id = some q)
    (hk : s.tasks s.current = some k) (hnone : s.queues.members (.waitingReceivers id) = []) :
    s.psend id data = (s.sending id ⟨data, s.sends⟩ k).psendLoop id ⟨data, s.sends⟩ s.cptRst := by
  have htop : (s.called id ⟨data, s.sends⟩).queueTop (.waitingReceivers id) = none :=
    List.getLast?_eq_none_iff.mpr hnone
  have hset : (s.called id ⟨data, s.sends⟩).setMsgVal s.current ⟨data, s.sends⟩ =
      .ok (s.sending id ⟨data, s.sends⟩ k) := setMsgVal_eq hk
  unfold psend
  rw [mqueue_eq hq hid, ok_bind, Int.toNat_natCast]
  simp only [htop]
  change (s.called id ⟨data, s.sends⟩).setMsgVal s.current ⟨data, s.sends⟩ >>= _ = _
  rw [hset, ok_bind]
  rfl

variable (hid : id < nbQueue)
include hid

theorem Filled.send (h : Filled id c n s) (hc : c ≠ n) :
    ∃ s', step (.call (.psend id 0)) s = .ok s' ∧ Filled id (c + 1) n s' ∧ Later s s' 1 := by
  obtain ⟨k, hk⟩ := h.task
  obtain ⟨q, hq, hcount, hsize⟩ := h.queue
  have hq' : (s.sending id ⟨0, s.sends⟩ k).mqueues id = some q := hq
  have htop : (s.sending id ⟨0, s.sends⟩ k).queueTop (.waitingReceivers id) = none :=
    List.getLast?_eq_none_iff.mpr h.receivers
  have hrst : ¬ s.cptRst < (s.sending id ⟨0, s.sends⟩ k).cptRst := Nat.lt_irrefl _
  have hself : (s.sending id ⟨0, s.sends⟩ k).tasks s.current = some { k with msgVal := ⟨0, s.sends⟩ } :=
    sending_self
  have hstep : step (.call (.psend id 0)) s =
      .ok ((((s.sending id ⟨0, s.sends⟩ k).entered id q ⟨0, s.sends⟩).observe
        (.sent id ⟨0, s.sends⟩)).returned 0) := by
    unfold step stepWith
    rw [h.ctl]
    change s.psend id 0 = _
    rw [psend_eq hid hq hk h.receivers, psendLoop_eq hq' sending_self,
      if_neg (fun hfull => hc (by rw [← hcount, ← hsize, hfull.1])),
      if_neg hrst, if_neg (by simp), htop]
    simp only
    rw [psendAdd_eq hq']
    rfl
  refine ⟨_, hstep, ⟨rfl, ⟨_, hself⟩, h.unlinked, ⟨q.add ⟨0, s.sends⟩, ?_, ?_, ?_⟩, h.receivers⟩, ?_⟩
  · exact Function.update_self ..
  · exact congrArg (· + 1) hcount
  · exact hsize
  · exact ⟨[.returned s.current 0, .sent id ⟨0, s.sends⟩, .entered id ⟨0, s.sends⟩,
      .psend id ⟨0, s.sends⟩], rfl, rfl⟩

theorem Filled.block (h : Filled id n n s) :
    ∃ s', step (.call (.psend id 0)) s = .ok s' ∧ Later s s' 0 := by
  obtain ⟨k, hk⟩ := h.task
  obtain ⟨q, hq, hcount, hsize⟩ := h.queue
  have hq' : (s.sending id ⟨0, s.sends⟩ k).mqueues id = some q := hq
  have hun : (s.sending id ⟨0, s.sends⟩ k).queues.link (s.sending id ⟨0, s.sends⟩ k).current = none :=
    h.unlinked
  have hstep : step (.call (.psend id 0)) s = .ok ((s.sending id ⟨0, s.sends⟩ k).blocked
      (.waitingSenders id) { k with msgVal := ⟨0, s.sends⟩ } (.psendLoop id ⟨0, s.sends⟩ s.cptRst)) := by
    unfold step stepWith
    rw [h.ctl]
    change s.psend id 0 = _
    rw [psend_eq hid hq hk h.receivers, psendLoop_eq hq' sending_self,
      if_pos ⟨by rw [hcount, hsize], by simp⟩]
    exact interrupted_eq (h := .waitingSenders id) rfl hun sending_self
  exact ⟨_, hstep, [.psend id ⟨0, s.sends⟩], rfl, rfl⟩

theorem Filled.fill (h : Filled id c n s) (hm : c + m ≤ n) :
    ∃ s', exec step (List.replicate m (.call (.psend id 0))) s = .ok s' ∧ Later s s' m := by
  induction m generalizing c s with
  | zero => exact ⟨s, rfl, [], rfl, rfl⟩
  | succ m ih =>
    obtain ⟨s₁, hs₁, h₁, hl⟩ := h.send hid (by omega)
    obtain ⟨s₂, hs₂, hl₂⟩ := ih h₁ (by omega)
    refine ⟨s₂, ?_, hl.trans hl₂⟩
    rw [List.replicate_succ]
    unfold exec
    rw [hs₁]
    exact hs₂

theorem Filled.overfill (h : Filled id c n s) (hm : c + m = n) :
    ∃ s', exec step (List.replicate (m + 1) (.call (.psend id 0))) s = .ok s' ∧ Later s s' m := by
  induction m generalizing c s with
  | zero =>
    obtain rfl : c = n := hm
    obtain ⟨s₁, hs₁, hl⟩ := h.block hid
    refine ⟨s₁, ?_, hl⟩
    simp only [List.replicate_succ, List.replicate_zero, exec, hs₁]
  | succ m ih =>
    obtain ⟨s₁, hs₁, h₁, hl⟩ := h.send hid (by omega)
    obtain ⟨s₂, hs₂, hl₂⟩ := ih h₁ (by omega)
    refine ⟨s₂, ?_, hl.trans hl₂⟩
    rw [List.replicate_succ]
    unfold exec
    rw [hs₁]
    exact hs₂

omit hid

theorem deleted_alone {v : Int} (hi : Inv ((y.returned v).shift f)) (hrun : ((y.returned v).shift f).Serving)
    (hunused : y.mqueues id = none) : (∃ k, y.tasks y.current = some k) ∧
      y.queues.link y.current = none ∧ y.queues.members (.waitingReceivers id) = [] := by
  obtain ⟨l, hl, hr, _⟩ := hrun
  obtain ⟨k, hk, _⟩ := Option.map_eq_some_iff.mp hl
  refine ⟨⟨k, hk⟩, hi.unlinked_current hl hr, ?_⟩
  apply List.eq_nil_iff_forall_not_mem.mpr
  intro t ht
  obtain ⟨_, _, _, hused⟩ := hi.live (h := .waitingReceivers id) ht
  have hused : (y.mqueues id).isSome := hused
  rw [hunused] at hused
  cases hused

theorem shift_created {v : Int} : ((y.returned v).shift f).allocMqueue id n =
    ((y.allocMqueue id n).returned v).shift f := by
  simp only [allocMqueue, returned, shift, setMqueue, asked, observe, setCtl, List.cons_append]

theorem Filled.created {v : Int} (hk : ∃ k, y.tasks y.current = some k)
    (hl : y.queues.link y.current = none) (hr : y.queues.members (.waitingReceivers id) = []) :
    Filled id 0 n (((y.allocMqueue id n).returned v).shift f) where
  ctl := rfl
  task := by
    obtain ⟨k, hk⟩ := hk
    exact ⟨k.shift f, congrArg (Option.map (Task.shift f)) hk⟩
  unlinked := hl
  queue := ⟨⟨n, 0, []⟩, Function.update_self .., rfl, rfl⟩
  receivers := hr

theorem distinguishable (hid : id < nbQueue) (h₁ : Filled id 0 c s₁) (h₂ : Filled id 0 n s₂)
    (hP : P (.call (.psend id 0))) (hlt : c < n) : ¬ Indistinguishable P s₁ s₂ := by
  intro hsame
  obtain ⟨t₁, ht₁, hl₁⟩ := h₁.overfill hid (m := c) (Nat.zero_add c)
  obtain ⟨t₂, ht₂, hl₂⟩ := h₂.fill hid (m := c + 1) (by omega)
  have hrun := hsame (List.replicate (c + 1) (.call (.psend id 0)))
    (fun e he => List.eq_of_mem_replicate he ▸ hP) (by rw [ht₁]; nofun) (by rw [ht₂]; nofun)
  rw [ht₁, ht₂] at hrun
  have hlen := congrArg List.length (Except.ok.inj hrun)
  rw [hl₁.seen, hl₂.seen] at hlen
  omega

end Fill

/-- After `preset` of a queue everything goes on as after `pdelete` and a new queue of the same
size, just when the queue was full. -/
theorem preset_keeps_capacity (h : Run IdleStarts s) (hq : s.mqueues id = some q)
    (hp : step (.call (.preset id)) s = .ok s₁) (hP : P (.call (.psend id 0))) :
    ∃ s₂, step (.call (.pdelete id)) s = .ok s₂ ∧ s₂.mqueues id = none ∧
      (Indistinguishable P s₁ (s₂.allocMqueue id q.size) ↔ q.count = q.size) := by
  obtain ⟨hs, hb⟩ := Run.savedBelow (A := False) (D := False) (K := False) h fun _ _ he => he.allows
  have hid : id < nbQueue := hs.inv.range id (by rw [hq]; rfl)
  have hu : s.ctl = .user := step_user hp nofun
  have hpre : s.preset id = .ok s₁ := by
    unfold step stepWith at hp
    rwa [hu] at hp
  obtain ⟨f, g, y, hf, hg, rfl, hunused, hdel⟩ := preset_shift hb hq hid hpre
  have hdelstep : step (.call (.pdelete id)) s = .ok ((y.returned 0).shift g) := by
    unfold step stepWith
    rw [hu]
    exact hdel
  refine ⟨_, hdelstep, hunused, ?_⟩
  rw [shift_created]
  constructor
  · intro hsame
    by_contra hne
    have out := (pdelete_spec (A := False) (D := False) (T := False) (L := False) (R := False)
      (B := AnyStart) hs.inv hs.mail (hs.serving hu) not_false nofun nofun nofun).elim hdel
    obtain ⟨hk, hun, hnone⟩ := deleted_alone (out.moves.inv hs.inv) (out.serving rfl) hunused
    have hle : q.count ≤ q.size := (hs.mail.books.counted id q hq).2.1
    exact distinguishable hid (.created hk hun hnone) (.created hk hun hnone) hP (by omega) hsame
  · intro he
    rw [← he]
    have hcpt : ((y.allocMqueue id q.count).returned 0).cptRst = y.cptRst := rfl
    apply indistinguishable_shift
    · rw [hcpt]
      exact hf
    · rw [hcpt]
      exact hg

/-- The queue is full, and a process waits to send to it. -/
theorem preset_keeps_capacity_one : ∃ s s₁ : State, ∃ q : MQueue, q.count = 1 ∧
    ∃ s₂, step (.call (.pdelete 0)) s = .ok s₂ ∧ s₂.mqueues 0 = none ∧
      (Indistinguishable (fun _ => True) s₁ (s₂.allocMqueue 0 q.size) ↔ q.count = q.size) := by
  have hrun : Ends (exec (admitted IdleStarts) [.call (.start (anApp 2)), .kernel,
      .call (.pcreate 1), .call (.psend 0 7), .call (.start (anApp 3)), .kernel,
      .call (.psend 0 8), .kernel, .kernel] boot)
      fun s => (s.mqueues 0).map MQueue.count = some 1 ∧ Ends (step (.call (.preset 0)) s) fun _ => True := by
    decide +kernel
  obtain ⟨s, hs, hq, hp⟩ := hrun.elim
  obtain ⟨s₁, hp, _⟩ := hp.elim
  obtain ⟨q, hq, hcount⟩ := Option.map_eq_some_iff.mp hq
  exact ⟨s, s₁, q, hcount, preset_keeps_capacity (Run.replayed hs) hq hp trivial⟩

/-- A queue for two messages that holds one has room for one after `preset`. -/
theorem capacity_lost : ∃ s s₁ s₂ : State, ∃ q : MQueue, Run IdleStarts s ∧ s.mqueues 0 = some q ∧
    step (.call (.preset 0)) s = .ok s₁ ∧ step (.call (.pdelete 0)) s = .ok s₂ ∧
    ¬ Indistinguishable (fun e => ∃ data, e = .call (.psend 0 data)) s₁ (s₂.allocMqueue 0 q.size) := by
  have hrun : Ends (exec (admitted IdleStarts) [.call (.start (anApp 2)), .kernel,
      .call (.pcreate 2), .call (.psend 0 7)] boot)
      fun s => (s.mqueues 0).map MQueue.size = some 2 ∧
        Ends (step (.call (.preset 0)) s) fun s₁ => Ends (step (.call (.pdelete 0)) s) fun s₂ =>
          Ends (exec step [.call (.psend 0 1), .call (.psend 0 2)] s₁) fun t₁ =>
            Ends (exec step [.call (.psend 0 1), .call (.psend 0 2)] (s₂.allocMqueue 0 2)) fun t₂ =>
              s₁.seen t₁ = [.returned 1 0] ∧
                (s₂.allocMqueue 0 2).seen t₂ = [.returned 1 0, .returned 1 0] := by
    decide +kernel
  obtain ⟨s, hs, hq, hrest⟩ := hrun.elim
  obtain ⟨q, hq, hsize⟩ := Option.map_eq_some_iff.mp hq
  obtain ⟨s₁, hp, hrest⟩ := hrest.elim
  obtain ⟨s₂, hd, hrest⟩ := hrest.elim
  obtain ⟨t₁, ht₁, hrest⟩ := hrest.elim
  obtain ⟨t₂, ht₂, hseen₁, hseen₂⟩ := hrest.elim
  refine ⟨s, s₁, s₂, q, Run.replayed hs, hq, hp, hd, fun hsame => ?_⟩
  rw [hsize] at hsame
  have hboth := hsame [.call (.psend 0 1), .call (.psend 0 2)] (by
    intro e he
    simp only [List.mem_cons, List.not_mem_nil, or_false] at he
    rcases he with rfl | rfl
    · exact ⟨1, rfl⟩
    · exact ⟨2, rfl⟩) (by rw [ht₁]; nofun) (by rw [ht₂]; nofun)
  rw [ht₁, ht₂] at hboth
  cases hseen₁.symm.trans ((Except.ok.inj hboth).trans hseen₂)

end State
end DominOS.Process
