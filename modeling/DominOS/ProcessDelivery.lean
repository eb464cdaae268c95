import DominOS.ProcessRuns

/-! The order in which messages are taken, and where a message that was sent is. -/
namespace DominOS.Process
open IntrusiveLists FifoLog Fallible Relation Runs

/-- What is received was sent before, to the same queue and by a call that nothing else is
received from, and what entered a queue first is taken first, unless the queue was emptied. -/
structure Delivers (tr : List Obs) : Prop where
  asked : ∀ f id msg b, tr = f ++ .received id msg :: b → .psend id msg ∈ b
  once : ∀ f id msg b, tr = f ++ .received id msg :: b →
    ∀ id' msg', .received id' msg' ∈ b → msg'.send ≠ msg.send
  calls : ∀ f id msg b, tr = f ++ .psend id msg :: b →
    ∀ id' msg', .psend id' msg' ∈ b → msg'.send ≠ msg.send
  ordered : ∀ f id l m msg msg' o, tr = f ++ .taken id msg' :: l →
    l = m ++ .entered id msg' :: o → .entered id msg ∈ o → .taken id msg ∈ l ∨
      ∃ f b, l = f ++ .emptied id :: b ∧ .entered id msg ∈ b ∧ .dropped id msg ∈ b

namespace State
variable {s s' : State} {t u : TaskPtr} {k : Task} {e : Event} {id id' : Nat} {msg msg' : Msg}
  {K : Prop}

/-- In every run of idle's children messages are delivered in order, once, and none is made up. -/
theorem messages_in_order (h : RunWith IdleStarts s) : Delivers s.trace := by
  have hs : Sound False False False s := h.sound fun _ _ he => he.allows
  have story := hs.mail.books.story
  refine ⟨?_, ?_, ?_, ?_⟩
  · intro f id msg b ht
    rw [ht] at story
    exact story.received_asked
  · intro f id msg b ht
    rw [ht] at story
    exact story.received_once
  · intro f id msg b ht
    rw [ht] at story
    exact story.psend_once
  · intro f id l m msg msg' o ht hl he
    rw [ht] at story
    exact story.in_order hl he

/-- A receiver that waits is handed a message, and takes another from the buffer. -/
theorem messages_in_order_two : ∃ s : State, .received 0 ⟨7, 0⟩ ∈ s.trace ∧
    .received 0 ⟨8, 1⟩ ∈ s.trace ∧ Delivers s.trace := by
  have hrun : Ends (exec (admitted IdleStarts) [.call (.start (anApp 3)), .kernel,
      .call (.pcreate 2), .call (.start (anApp 2)), .kernel, .call (.preceive 0 .mapped), .kernel,
      .call (.psend 0 7), .kernel, .kernel, .call (.psend 0 8), .call (.preceive 0 .mapped)] boot)
      fun s => .received 0 ⟨7, 0⟩ ∈ s.trace ∧ .received 0 ⟨8, 1⟩ ∈ s.trace := by
    decide +kernel
  obtain ⟨s, hs, h1, h2⟩ := hrun.elim
  exact ⟨s, h1, h2, messages_in_order (Run.replayed hs).granted⟩

/-- Nobody is killed, no pointer that `preceive` gets is bad, a message is handed over only to
who waits since the last reset, and a queue is reset only while nobody holds one of another. -/
def Careful (s : State) (e : Event) : Prop := s.IdleStarts e ∧ s.KeepsMessages e

theorem Careful.allows (h : Careful s e) : Allows False False False True False False AnyStart s e :=
  ⟨h.1, nofun, nofun, nofun, fun _ => h.2, nofun, nofun, fun _ _ => trivial⟩

theorem Held.carries (h : s.Held t id msg) :
    ∃ kont v, s.Inside t kont v ∧ kont.carries v = some msg.send := by
  rcases held_iff.mp h with ⟨p, rst, hin, hd⟩ | ⟨p, v, hin⟩
  · exact ⟨_, _, hin, if_neg hd⟩
  · exact ⟨_, _, hin, rfl⟩

/-- Of `Careful` what can be decided: nothing is handed over, and no queue is reset. -/
def Modest (s : State) (e : Event) : Prop :=
  s.IdleStarts e ∧
    match e with
    | .call (.kill _) | .call (.pdelete _) | .call (.preset _) => False
    | .call (.psend id _) => s.queueTop (.waitingReceivers id.toNat) = none
    | .call (.preceive _ message) => message = .null ∨ message = .mapped
    | _ => True

theorem modest_iff : Modest s e ↔ s.IdleStarts e ∧
    (match e with
      | .call (.kill _) | .call (.pdelete _) | .call (.preset _) => false
      | .call (.psend id _) => decide (s.queueTop (.waitingReceivers id.toNat) = none)
      | .call (.preceive _ message) => decide (message = .null ∨ message = .mapped)
      | _ => true) = true := by
  cases e with
  | call c => cases c <;> simp [Modest]
  | _ => simp [Modest]

instance : Decidable (Modest s e) := decidable_of_iff _ modest_iff.symm

end State
end DominOS.Process
