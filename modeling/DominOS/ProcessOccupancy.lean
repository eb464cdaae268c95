import DominOS.MsgHeapRuns
import DominOS.ProcessRuns

/-! How full the queues are, and the blocks of memory that hold them. -/
namespace DominOS.Process
open IntrusiveLists Fallible Relation Runs MsgHeap
namespace State
variable {s s' : State} {t u : TaskPtr} {k l : Task} {e : Event} {id : Nat} {q : MQueue}
  {msg : Msg} {rest : List Msg} {A T D M K R L : Prop}
  {B : State → StartArgs → Prop}

def contents (s : State) (id : Nat) : Option Contents :=
  (s.mqueues id).map fun q => ⟨q.size, q.msgs.map Msg.data⟩

def Accounts (R L : Prop) (s : State) : Prop := Logged R L s.msgCalls s.contents

theorem Accounts.congr (h : Accounts R L s) (hq : s'.mqueues = s.mqueues)
    (hc : s'.msgCalls = s.msgCalls) : Accounts R L s' := by
  have hcon : s'.contents = s.contents := by
    funext id
    unfold contents
    rw [hq]
  unfold Accounts
  rw [hcon, hc]
  exact h

theorem boot_accounts : Accounts R L boot := .start

theorem contents_eq (hq : s.mqueues id = some q) :
    s.contents id = some ⟨q.size, q.msgs.map Msg.data⟩ := by
  unfold contents
  rw [hq, Option.map_some]

theorem contents_update (o : Option MQueue) (hq : s'.mqueues = Function.update s.mqueues id o) :
    s'.contents =
      Function.update s.contents id (o.map fun q => ⟨q.size, q.msgs.map Msg.data⟩) := by
  funext j
  unfold contents
  rw [hq]
  by_cases hj : j = id
  · rw [hj, Function.update_self, Function.update_self]
  · rw [Function.update_of_ne hj, Function.update_of_ne hj]

theorem Accounts.add {m : Msg} (h : Accounts R L s) (hb : Books s.mqueues s.sends s.trace)
    (hq : s.mqueues id = some q)
    (hm : s'.mqueues = Function.update s.mqueues id (some (q.add m)))
    (hc : s'.msgCalls = .add id m.data :: s.msgCalls) : Accounts R L s' := by
  obtain ⟨hcount, hle, hmax⟩ := hb.counted id q hq
  have hlen : (q.msgs.map Msg.data).length + 1 < 2 ^ 32 := by
    rw [List.length_map, ← hcount]
    unfold int16Max at hmax
    omega
  have l := Logged.add (d := m.data) h (contents_eq hq) hlen
  unfold Accounts
  rw [contents_update _ hm, hc, Option.map_some, Books.add_msgs hcount, List.map_append]
  exact l

theorem Accounts.pop (h : Accounts R L s) (hb : Books s.mqueues s.sends s.trace)
    (hq : s.mqueues id = some q) (hmsgs : q.msgs = msg :: rest) (hL : ¬ L)
    (hm : s'.mqueues = Function.update s.mqueues id (some (q.pop rest)))
    (hc : s'.msgCalls = .pop id :: s.msgCalls) : Accounts R L s' := by
  obtain ⟨hcount, hle, hmax⟩ := hb.counted id q hq
  have hcon : s.contents id = some ⟨q.size, msg.data :: rest.map Msg.data⟩ := by
    rw [contents_eq hq, hmsgs, List.map_cons]
  have hlen : (rest.map Msg.data).length < 2 ^ 32 := by
    rw [hmsgs, List.length_cons] at hcount
    rw [List.length_map]
    unfold int16Max at hmax
    omega
  have l := Logged.pop h hcon hlen hL
  unfold Accounts
  rw [contents_update _ hm, hc]
  exact l

theorem Talk.accounts (e : Talk T K R L s s') (hm : Mail K s) (h : Accounts R L s) :
    Accounts R L s' := by
  cases e with
  | hand | told | sendBlock | sendAgain | unsent | sent | consume | lost | received | receiveBlock
    | release | bump => exact h.congr rfl rfl
  | enter _ _ _ hq _ _ => exact h.add hm.books hq rfl rfl
  | @exchange id p q msg rest last k l c _ _ _ _ hq hfull hmsgs htop hl _ _ hL =>
    have hp : Accounts R L (s.popMsg id q rest) := h.pop hm.books hq hmsgs hL rfl rfl
    have hself : (s.popMsg id q rest).mqueues id = some (q.pop rest) := Function.update_self _ _ _
    refine hp.add (s := (s.popMsg id q rest).observe (.taken id msg)) (m := l.msgVal)
      (hm.books.pop hq hmsgs) hself ?_ rfl
    exact (Function.update_idem _ _ _).symm
  | take hq hmsgs _ hL => exact h.pop hm.books hq hmsgs hL rfl rfl
  | spill _ hq hmsgs _ hL => exact h.pop hm.books hq hmsgs hL rfl rfl
  | @empty id q hq _ _ _ _ hL =>
    obtain ⟨hcount, hle, hmax⟩ := hm.books.counted id q hq
    have hlen : (q.msgs.map Msg.data).length = q.count := by rw [List.length_map, hcount]
    have hroom : (q.msgs.map Msg.data).length < 2 ^ 32 := by
      rw [hlen]
      unfold int16Max at hmax
      omega
    have l := Logged.free h (contents_eq hq) hroom fun hl => by
      rw [hlen]
      exact hL hl
    unfold Accounts
    have hcon : (s.freeMqueue id q).contents = Function.update s.contents id none :=
      contents_update none rfl
    rw [hcon]
    exact l
  | @create id count hn _ _ hR =>
    have hcon : s.contents id = none := by
      unfold contents
      rw [hn]
      rfl
    have l := Logged.alloc h hcon hR
    unfold Accounts
    have hnew : (s.allocMqueue id count).contents =
        Function.update s.contents id (some ⟨count, []⟩) :=
      contents_update (some ⟨count, 0, []⟩) rfl
    rw [hnew]
    exact l

theorem Moves.accounts (m : Moves T D K R L B s s') (hi : Inv s) (hm : Mail K s)
    (h : Accounts R L s) : Accounts R L s' := by
  induction m with
  | refl => exact h
  | tail hab hbc ih =>
    cases hbc with
    | plain e =>
      have hu := e.undisturbed (Moves.inv hab hi)
      exact ih.congr hu.mqueues hu.msgCalls
    | talk e => exact e.accounts (Moves.mail hab hi hm) ih

theorem Stepped.accounts (st : Stepped A T D K R L B s s') (hs : Sound A D K s)
    (h : Accounts R L s) : Accounts R L s' := by
  obtain ⟨s₁, m, hend⟩ := st.moves
  have h₁ := m.accounts hs.inv hs.mail h
  rcases hend with rfl | hsw
  · exact h₁
  · have hu := hsw.undisturbed (K := K) (m.inv hs.inv)
    exact h₁.congr hu.mqueues hu.msgCalls

theorem RunWith.accounts {P : State → Event → Prop} (h : RunWith P s)
    (hP : ∀ s e, P s e → Allows A T D K R L B s e) : Sound A D K s ∧ Accounts R L s :=
  h.invariant (I := fun s => Sound A D K s ∧ Accounts R L s)
    (by rintro _ rfl; exact ⟨boot_sound, boot_accounts⟩) fun s t ⟨hs, ha⟩ ⟨e, mem, he, hmem, hr⟩ => by
      have st := (stepWith_spec hs (hP s e he) hmem).elim hr
      exact ⟨st.sound hs, st.accounts hs ha⟩

/-- Idle only calls `start`, and no queue is deleted or reset. -/
def Unreset (s : State) (e : Event) : Prop := s.IdleStarts e ∧ e.Spares

instance : Decidable (Unreset s e) := inferInstanceAs (Decidable (_ ∧ _))

theorem Unreset.allows (h : Unreset s e) : Allows False False False False True False AnyStart s e :=
  ⟨h.1, nofun, nofun, nofun, nofun, fun _ => h.2, nofun, fun _ _ => trivial⟩

theorem Desk.waiting (h : Desk K s) (hq : s.mqueues id = some q) :
    (s.queues.members (.waitingSenders id) ≠ [] → q.count = q.size) ∧
      (s.queues.members (.waitingReceivers id) ≠ [] → q.count = 0) := by
  constructor
  · intro hne
    obtain ⟨t, ht⟩ := List.exists_mem_of_ne_nil _ hne
    exact h.senders t id q (Links.link_of_mem ht) hq
  · intro hne
    obtain ⟨t, ht⟩ := List.exists_mem_of_ne_nil _ hne
    exact h.receivers t id q (Links.link_of_mem ht) hq

theorem Desk.countOf (h : Desk K s) (hq : s.mqueues id = some q) (hsize : 1 ≤ q.size) :
    s.countOf id q = q.count + (s.queues.members (.waitingSenders id)).length -
      (s.queues.members (.waitingReceivers id)).length := by
  obtain ⟨hs, hr⟩ := h.waiting hq
  unfold State.countOf
  split
  · rename_i h0
    have hnil : s.queues.members (.waitingSenders id) = [] := by
      by_contra hne
      have := hs hne
      omega
    rw [hnil, h0]
    simp
  · rename_i h0
    have hnil : s.queues.members (.waitingReceivers id) = [] := by
      by_contra hne
      exact h0 (hr hne)
    rw [hnil, List.length_nil]
    omega

/-- A queue is as full as its waiting lists say, and holds its messages in as many nodes as
it counts, chained from head to tail. -/
structure Occupied (s : State) (id : Nat) (q : MQueue) : Prop where
  counted : q.count ≤ q.size
  full : s.queues.members (.waitingSenders id) ≠ [] → q.count = q.size
  empty : s.queues.members (.waitingReceivers id) ≠ [] → q.count = 0
  one : s.queues.members (.waitingSenders id) = [] ∨ s.queues.members (.waitingReceivers id) = []
  nodes : ∀ heap, Replay s.msgCalls heap → ∃ b nodes, heap.blocks (heap.mqueues id) = some b ∧
    b.size = q.size ∧ b.count = q.count ∧ Chain heap.msgs b.head nodes ∧ nodes.length = b.count ∧
    ∀ x, nodes.getLast? = some x → b.tail = x.1

def HeapSafe (s : State) : Prop :=
  ∀ new c cs heap a, s.msgCalls = new ++ c :: cs → Replay cs heap → heap.Fresh a →
    ∃ heap', heap.call a c = .ok heap'

/-- `pcount` stores messages and waiting senders less waiting receivers. -/
def CountsAll (s : State) : Prop :=
  ∀ (i : Int) q, s.ctl = .user → 0 ≤ i → i < nbQueue → s.mqueues i.toNat = some q →
    step (.call (.pcount i .mapped)) s = ((s.observe (.counted i.toNat
      (q.msgs.length + (s.queues.members (.waitingSenders i.toNat)).length -
        (s.queues.members (.waitingReceivers i.toNat)).length))).ret 0)

theorem Accounts.heapSafe (h : Accounts R L s) : s.HeapSafe := by
  intro new c cs heap a hcalls hr hf
  have h : Logged R L s.msgCalls s.contents := h
  rw [hcalls] at h
  obtain ⟨mq, hl⟩ := h.earlier
  exact hl.no_fault hr hf

theorem Accounts.occupied (h : Accounts True L s) (hm : Mail K s) (hq : s.mqueues id = some q) :
    s.Occupied id q := by
  have hsize : 1 ≤ q.size := Logged.sized h trivial id _ (contents_eq hq)
  obtain ⟨hwait, hrecv⟩ := hm.waiting hq
  obtain ⟨hcount, hle, _⟩ := hm.books.counted id q hq
  refine ⟨hle, hwait, hrecv, ?_, fun heap hr => ?_⟩
  · by_contra hboth
    obtain ⟨h1, h2⟩ := not_or.mp hboth
    have := hwait h1
    have := hrecv h2
    omega
  · obtain ⟨nodes, st, _⟩ := Logged.stored h hr
    have row := st.used id _ (contents_eq hq)
    obtain ⟨b, hb, hsize, hcnt, hch, htail⟩ := row.block
    rw [List.length_map] at hcnt
    refine ⟨b, nodes id, hb, hsize, hcnt.trans hcount.symm, hch, ?_, htail⟩
    rw [row.length, List.length_map, hcnt]

/-- In every run without `pdelete` and `preset` senders wait only at full queues and receivers
at empty ones, whatever half-finished calls there are. -/
theorem occupancy (h : RunWith Unreset s) :
    (∀ id q, s.mqueues id = some q → s.Occupied id q) ∧ s.HeapSafe ∧ s.CountsAll := by
  obtain ⟨hs, ha⟩ := h.accounts (K := False) fun _ _ he => he.allows
  refine ⟨fun id q hq => ha.occupied hs.mail hq, ha.heapSafe, fun i q hu h0 h1 hq => ?_⟩
  have hstep : step (.call (.pcount i .mapped)) s = s.pcount i .mapped := by
    unfold step stepWith
    rw [hu]
    rfl
  obtain ⟨hcount, _⟩ := hs.mail.books.counted _ q hq
  rw [hstep]
  unfold pcount mqueue
  rw [if_pos ⟨h0, h1⟩, ok_bind, hq]
  simp only
  rw [hs.mail.countOf hq (Logged.sized ha trivial _ _ (contents_eq hq)), hcount]

/-- A task makes a queue for one message, its child gets no memory for another queue and dies,
and the task fills the queue and blocks on another message. -/
theorem occupancy_full : ∃ s : State, (s.mqueues 0).map MQueue.count = some 1 ∧
    s.queues.members (.waitingSenders 0) = [1] ∧
    (∀ id q, s.mqueues id = some q → s.Occupied id q) ∧ s.HeapSafe ∧ s.CountsAll := by
  have hrun : Ends (exec (granted Unreset) (given [.call (.start (anApp 2)), .kernel,
      .call (.pcreate 1), .call (.start (anApp 3)), .kernel] ++ (.call (.pcreate 1), false) ::
      given [.kernel, .kernel, .call (.psend 0 7), .call (.psend 0 8)]) boot) fun s =>
      (s.mqueues 0).map MQueue.count = some 1 ∧ s.queues.members (.waitingSenders 0) = [1] := by
    decide +kernel
  obtain ⟨s, hs, hcount, hwait⟩ := hrun.elim
  exact ⟨s, hcount, hwait, occupancy (RunWith.replayed hs)⟩

/-- A receiver takes one of two senders from the list and the only message from the queue,
and has no memory for the message of the sender: the other one waits at an empty queue, and
`pcount` stores 0. -/
theorem sender_waits_at_empty : ∃ (s : State) (q : MQueue),
    exec answered (given [.call (.start (anApp 2)), .kernel, .call (.pcreate 1),
      .call (.start (anApp 3)), .kernel, .call (.psend 0 7), .call (.psend 0 8), .kernel, .kernel,
      .call (.start (anApp 3)), .kernel, .call (.psend 0 9), .kernel, .kernel,
      .call (.start (anApp 3)), .kernel] ++ (.call (.preceive 0 .mapped), false) ::
      given [.kernel, .kernel, .call (.pcount 0 .mapped)]) boot = .ok s ∧
    s.mqueues 0 = some q ∧ q.size = 1 ∧ q.count = 0 ∧
    s.queues.members (.waitingSenders 0) = [3] ∧ .counted 0 0 ∈ s.trace ∧ ¬ s.Occupied 0 q := by
  have hrun : Ends (exec answered (given [.call (.start (anApp 2)), .kernel, .call (.pcreate 1),
      .call (.start (anApp 3)), .kernel, .call (.psend 0 7), .call (.psend 0 8), .kernel, .kernel,
      .call (.start (anApp 3)), .kernel, .call (.psend 0 9), .kernel, .kernel,
      .call (.start (anApp 3)), .kernel] ++ (.call (.preceive 0 .mapped), false) ::
      given [.kernel, .kernel, .call (.pcount 0 .mapped)]) boot) fun s =>
      (∃ q ∈ s.mqueues 0, q.size = 1 ∧ q.count = 0) ∧
        s.queues.members (.waitingSenders 0) = [3] ∧ .counted 0 0 ∈ s.trace := by
    decide +kernel
  obtain ⟨s, hs, ⟨q, hq, hsize, hempty⟩, hwait, hcount⟩ := hrun.elim
  refine ⟨s, q, hs, hq, hsize, hempty, hwait, hcount, fun h => ?_⟩
  have hfull := h.full (by rw [hwait]; decide)
  omega

/-- Idle only calls `start`, nothing is popped, and no queue with one message is deleted. -/
def Frugal (s : State) (e : Event) : Prop := s.IdleStarts e ∧ s.KeepsBlocks e

instance : Decidable (Frugal s e) := inferInstanceAs (Decidable (_ ∧ _))

theorem Frugal.allows (h : Frugal s e) : Allows False False False False False True AnyStart s e :=
  ⟨h.1, nofun, nofun, nofun, nofun, nofun, fun _ => h.2, fun _ _ => trivial⟩

structure BlocksKept (s : State) (heap : Heap) : Prop where
  msgs : ∀ a, (heap.msgs a).isSome ↔ ∃ id q b nodes, s.mqueues id = some q ∧
    heap.blocks (heap.mqueues id) = some b ∧ Chain heap.msgs b.head nodes ∧
    nodes.length = q.count ∧ a ∈ addresses nodes
  blocks : ∀ a, (heap.blocks a).isSome ↔ ∃ id, (s.mqueues id).isSome ∧ heap.mqueues id = a
  unused : ∀ id, s.mqueues id = none ↔ heap.mqueues id = 0

theorem Accounts.blocksKept {heap : Heap} (h : Accounts R True s) (hm : Mail K s)
    (hr : Replay s.msgCalls heap) : s.BlocksKept heap := by
  obtain ⟨nodes, st, ht⟩ := Logged.stored h hr
  have used (id : Nat) : (s.contents id).isSome ↔ (s.mqueues id).isSome := by
    unfold contents
    rw [Option.isSome_map]
  refine ⟨fun a => ⟨fun hlive => ?_, ?_⟩, fun a => ⟨fun hlive => ?_, ?_⟩, fun id => ?_⟩
  · obtain ⟨id, hid⟩ := ht trivial a hlive
    obtain ⟨c, hc, _⟩ := st.row_live hid
    obtain ⟨q, hq⟩ := Option.isSome_iff_exists.mp ((used id).mp (by rw [hc]; rfl))
    have row := st.used id _ (contents_eq hq)
    obtain ⟨b, hb, _, _, hch, _⟩ := row.block
    refine ⟨id, q, b, nodes id, hq, hb, hch, ?_, hid⟩
    rw [row.length, List.length_map, (hm.books.counted id q hq).1]
  · rintro ⟨id, q, b, ns, _, _, hch, _, hm⟩
    exact (hch.live hm).2
  · obtain ⟨id, hid, he⟩ := st.blocks a hlive
    exact ⟨id, (used id).mp hid, he⟩
  · rintro ⟨id, hid, rfl⟩
    obtain ⟨q, hq⟩ := Option.isSome_iff_exists.mp hid
    obtain ⟨b, hb, _⟩ := (st.used id _ (contents_eq hq)).block
    rw [hb]
    rfl
  · constructor
    · intro hn
      refine (st.unused id ?_).1
      unfold contents
      rw [hn, Option.map_none]
    · intro h0
      by_contra hn
      obtain ⟨q, hq⟩ := Option.ne_none_iff_exists'.mp hn
      exact (st.used id _ (contents_eq hq)).live h0

/-- No block gets lost while nothing is popped and no queue with one message is deleted. -/
theorem blocks_accounted (h : Run Frugal s) :
    (∀ heap, Replay s.msgCalls heap → s.BlocksKept heap) ∧ s.HeapSafe := by
  obtain ⟨hs, ha⟩ := h.granted.accounts (K := False) fun _ _ he => he.allows
  exact ⟨fun heap hr => ha.blocksKept hs.mail hr, ha.heapSafe⟩

/-- Two messages are sent, and the queue is deleted with both. -/
theorem blocks_accounted_two : ∃ s : State, s.msgCalls = [.free 0, .add 0 8, .add 0 7, .alloc 0 2] ∧
    (∀ heap, Replay s.msgCalls heap → s.BlocksKept heap) ∧ s.HeapSafe := by
  have hrun : Ends (exec (admitted Frugal) [.call (.start (anApp 2)), .kernel, .call (.pcreate 2),
      .call (.psend 0 7), .call (.psend 0 8), .call (.pdelete 0)] boot) fun s =>
      s.msgCalls = [.free 0, .add 0 8, .add 0 7, .alloc 0 2] := by
    decide +kernel
  obtain ⟨s, hs, hcalls⟩ := hrun.elim
  exact ⟨s, hcalls, blocks_accounted (Run.replayed hs)⟩

/-- One message is sent and received: its block is in no queue, and allocated for ever. -/
theorem popped_block_lost : ∃ (s : State) (heap : Heap),
    exec (admitted IdleStarts) [.call (.start (anApp 2)), .kernel, .call (.pcreate 1),
      .call (.psend 0 7), .call (.preceive 0 .mapped)] boot = .ok s ∧
    Replay s.msgCalls heap ∧ heap.msgs 2 = some ⟨0, 7⟩ ∧
    (∀ id, id < nbQueue → (s.mqueues id).all fun q => q.count == 0) ∧ ¬ s.BlocksKept heap := by
  have hrun : Ends (exec (admitted IdleStarts) [.call (.start (anApp 2)), .kernel, .call (.pcreate 1),
      .call (.psend 0 7), .call (.preceive 0 .mapped)] boot) fun s =>
      s.msgCalls = [.pop 0, .add 0 7, .alloc 0 1] ∧
      ∀ id, id < nbQueue → (s.mqueues id).all fun q => q.count == 0 := by
    decide +kernel
  obtain ⟨s, hs, hcalls, hempty⟩ := hrun.elim
  have h0 : Replay [] .boot := .start
  have h1 : Replay [.alloc 0 1] _ := .call (a := 1) h0 ⟨by decide, rfl, rfl⟩ rfl
  have h2 : Replay [.add 0 7, .alloc 0 1] _ := .call (a := 2) h1 ⟨by decide, rfl, rfl⟩ rfl
  have h3 : Replay [.pop 0, .add 0 7, .alloc 0 1] _ := .call (a := 3) h2 ⟨by decide, rfl, rfl⟩ rfl
  rw [← hcalls] at h3
  have hsound : Sound False False False s := Run.soundIdle (Run.replayed hs)
  refine ⟨s, _, hs, h3, rfl, hempty, fun hk => ?_⟩
  obtain ⟨id, q, b, nodes, hq, hb, hch, hlen, hm⟩ := (hk.msgs 2).mp rfl
  have h0 := hempty id (hsound.inv.range id (by rw [hq]; rfl))
  rw [hq, Option.all_some, beq_iff_eq] at h0
  rw [h0, List.length_eq_zero_iff] at hlen
  rw [hlen] at hm
  cases hm

end State
end DominOS.Process
