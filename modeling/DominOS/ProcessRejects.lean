import DominOS.ProcessRuns

/-! Calls of msg.c with an id that names no queue. -/
namespace DominOS.Process
open IntrusiveLists Fallible Runs

namespace State
variable {s s' : State} {c : Syscall} {id : Int}

def QueueExists (s : State) (id : Int) : Prop := ∃ k : Nat, k < nbQueue ∧ id = k ∧ (s.mqueues k).isSome

/-- The call returns a negative value and changes nothing. -/
def Rejected (s : State) (c : Syscall) : Prop :=
  ∃ v < 0, step (.call c) s = .ok { s with trace := .returned s.current v :: s.trace }

theorem mqueue_inside (hin : 0 ≤ id ∧ id < nbQueue) : s.mqueue id = .ok (s.mqueues id.toNat) := by
  unfold mqueue
  rw [if_pos hin]

theorem mqueue_outside (hout : ¬ (0 ≤ id ∧ id < nbQueue)) : s.mqueue id = .error .outOfBounds := by
  unfold mqueue
  rw [if_neg hout]

theorem handle_lookup (hid : c.queueId = some id) :
    ∃ used : MQueue → Except Fault State, s.handle c = (do
      match ← s.mqueue id with
      | none => s.ret (-1)
      | some q => used q) := by
  cases c with
  | psend i data =>
    cases hid
    exact ⟨_, rfl⟩
  | preceive i message =>
    cases hid
    exact ⟨_, rfl⟩
  | pcount i count =>
    cases hid
    exact ⟨_, rfl⟩
  | pdelete i =>
    cases hid
    exact ⟨_, rfl⟩
  | preset i =>
    cases hid
    exact ⟨_, rfl⟩
  | _ => cases hid

theorem lookup_outside (hu : s.ctl = .user) (hid : c.queueId = some id)
    (hout : ¬ (0 ≤ id ∧ id < nbQueue)) : step (.call c) s = .error .outOfBounds := by
  obtain ⟨used, hlookup⟩ := handle_lookup (s := s) hid
  unfold step stepWith
  rw [hu]
  change s.handle c = _
  rw [hlookup, mqueue_outside hout, error_bind]

theorem lookup_unused (hu : s.ctl = .user) (hid : c.queueId = some id)
    (hin : 0 ≤ id ∧ id < nbQueue) (hun : ¬ s.QueueExists id) : s.Rejected c := by
  have hnone : s.mqueues id.toNat = none := by
    refine Option.not_isSome_iff_eq_none.mp fun hsome => hun ⟨id.toNat, ?_, ?_, hsome⟩
    · have hlt := hin.2
      omega
    · exact (Int.toNat_of_nonneg hin.1).symm
  obtain ⟨used, hlookup⟩ := handle_lookup (s := s) hid
  refine ⟨-1, by decide, ?_⟩
  unfold step stepWith
  rw [hu]
  change s.handle c = _
  rw [hlookup, mqueue_inside hin, hnone, ok_bind]
  simp only [ret, observe, setCtl, ← hu]

/-- An id that names no queue is rejected exactly if it is one of the indices of `mqueues`. -/
theorem invalid_id_rejected (hu : s.ctl = .user) (hid : c.queueId = some id)
    (hun : ¬ s.QueueExists id) : s.Rejected c ↔ 0 ≤ id ∧ id < nbQueue := by
  constructor
  · rintro ⟨v, _, hstep⟩
    by_contra hout
    rw [lookup_outside hu hid hout] at hstep
    cases hstep
  · exact fun hin => lookup_unused hu hid hin hun

/-- The first process sends to a queue that has been deleted. -/
theorem invalid_id_rejected_deleted : ∃ s : State, s.ctl = .user ∧ s.current = 1 ∧
    s.Rejected (.psend 0 7) := by
  have hrun : Ends (exec (admitted IdleStarts) [.call (.start (anApp 2)), .kernel,
      .call (.pcreate 1), .call (.pdelete 0)] boot) fun s =>
      s.ctl = .user ∧ s.current = 1 ∧ ∀ k < nbQueue, ¬ (s.mqueues k).isSome := by
    decide +kernel
  obtain ⟨s, _, hu, hcur, hnone⟩ := hrun.elim
  refine ⟨s, hu, hcur, (invalid_id_rejected hu rfl ?_).mpr (by decide)⟩
  rintro ⟨k, hk, _, hsome⟩
  exact hnone k hk hsome

/-- It sends to queue -1, or to the queue behind the last. -/
theorem id_beyond_array : ∃ s : State, exec (admitted IdleStarts) [.call (.start (anApp 2)),
      .kernel] boot = .ok s ∧ s.current = 1 ∧ step (.call (.psend (-1) 7)) s = .error .outOfBounds ∧
    step (.call (.preset 20)) s = .error .outOfBounds ∧ ¬ s.Rejected (.psend (-1) 7) := by
  have hrun : Ends (exec (admitted IdleStarts) [.call (.start (anApp 2)), .kernel] boot) fun s =>
      s.current = 1 ∧ step (.call (.psend (-1) 7)) s = .error .outOfBounds ∧
        step (.call (.preset 20)) s = .error .outOfBounds := by
    decide +kernel
  obtain ⟨s, hs, hcur, hsend, hreset⟩ := hrun.elim
  refine ⟨s, hs, hcur, hsend, hreset, ?_⟩
  rintro ⟨v, _, hstep⟩
  rw [hsend] at hstep
  cases hstep

end State
end DominOS.Process
