import DominOS.MsgHeapSpec

/-! Logs of calls that the queues allow, replayed on the heap. -/
namespace DominOS.MsgHeap
open Process Fallible

/-- Calls, newest first, each of which the queues allow, and the contents that they leave.
Where `R` is asked for every queue has room, and where `L` is no block gets lost. -/
inductive Logged (R L : Prop) : List MsgCall → (Nat → Option Contents) → Prop where
  | start : Logged R L [] fun _ => none
  | alloc {cs : List MsgCall} {mq : Nat → Option Contents} {id n : Nat} :
      Logged R L cs mq → mq id = none → (R → 1 ≤ n) →
      Logged R L (.alloc id n :: cs) (Function.update mq id (some ⟨n, []⟩))
  | add {cs : List MsgCall} {mq : Nat → Option Contents} {id n : Nat} {d : Int} {ds : List Int} :
      Logged R L cs mq → mq id = some ⟨n, ds⟩ → ds.length + 1 < 2 ^ 32 →
      Logged R L (.add id d :: cs) (Function.update mq id (some ⟨n, ds ++ [d]⟩))
  | pop {cs : List MsgCall} {mq : Nat → Option Contents} {id n : Nat} {d : Int} {ds : List Int} :
      Logged R L cs mq → mq id = some ⟨n, d :: ds⟩ → ds.length < 2 ^ 32 → ¬ L →
      Logged R L (.pop id :: cs) (Function.update mq id (some ⟨n, ds⟩))
  | free {cs : List MsgCall} {mq : Nat → Option Contents} {id : Nat} {c : Contents} :
      Logged R L cs mq → mq id = some c → c.data.length < 2 ^ 32 → (L → c.data.length ≠ 1) →
      Logged R L (.free id :: cs) (Function.update mq id none)

/-- The heaps that a log can lead to, whatever fresh blocks `mem_alloc` returns. -/
inductive Replay : List MsgCall → Heap → Prop where
  | start : Replay [] .boot
  | call {cs : List MsgCall} {c : MsgCall} {h h' : Heap} {a : Addr} :
      Replay cs h → h.Fresh a → h.call a c = .ok h' → Replay (c :: cs) h'

section
variable {R L : Prop} {cs : List MsgCall} {c : MsgCall} {mq : Nat → Option Contents} {h : Heap}
  {a : Addr} {nodes : Nat → List (Addr × Int)}

theorem boot_stored : Stored .boot (fun _ => none) fun _ => [] :=
  ⟨fun _ _ => ⟨rfl, rfl⟩, nofun, fun _ => List.nodup_nil, nofun, nofun, nofun⟩

theorem Logged.sized (l : Logged R L cs mq) (hR : R) : ∀ id c, mq id = some c → 1 ≤ c.size := by
  have keep {mq : Nat → Option Contents} {id : Nat} {o : Option Contents}
      (h : ∀ id c, mq id = some c → 1 ≤ c.size) (ho : ∀ c, o = some c → 1 ≤ c.size) :
      ∀ j c, Function.update mq id o j = some c → 1 ≤ c.size := by
    intro j c hj
    by_cases hji : j = id
    · rw [hji, Function.update_self] at hj
      exact ho c hj
    · rw [Function.update_of_ne hji] at hj
      exact h j c hj
  induction l with
  | start => nofun
  | alloc _ _ hn ih =>
    refine keep ih fun c hc => ?_
    cases hc
    exact hn hR
  | add _ hid _ ih =>
    refine keep ih fun c hc => ?_
    cases hc
    have hsize := ih _ _ hid
    exact hsize
  | pop _ hid _ _ ih =>
    refine keep ih fun c hc => ?_
    cases hc
    have hsize := ih _ _ hid
    exact hsize
  | free _ _ _ _ ih => exact keep ih nofun

theorem Logged.next (l : Logged R L (c :: cs) mq)
    (ih : ∀ mq, Logged R L cs mq → ∃ nodes, Stored h mq nodes ∧ (L → Tight h nodes)) (hf : h.Fresh a) :
    ∃ h', h.call a c = .ok h' ∧ ∃ nodes, Stored h' mq nodes ∧ (L → Tight h' nodes) := by
  cases l with
  | alloc l hid _ =>
    obtain ⟨nodes, st, ht⟩ := ih _ l
    exact ⟨_, rfl, nodes, allocMqueue_spec st hf hid, ht⟩
  | @add cs mq id n d ds l hid hroom =>
    obtain ⟨nodes, st, ht⟩ := ih _ l
    obtain ⟨h', hcall, st', hmsgs⟩ := addMsg_spec (d := d) st hf hid hroom
    refine ⟨h', hcall, _, st', fun hL x hx => ?_⟩
    rcases hmsgs x hx with rfl | hx
    · exact ⟨id, by simp⟩
    · obtain ⟨j, hj⟩ := ht hL x hx
      by_cases hji : j = id
      · subst hji
        exact ⟨j, by simp [hj]⟩
      · exact ⟨j, by rwa [Function.update_of_ne hji]⟩
  | pop l hid hroom hL =>
    obtain ⟨nodes, st, _⟩ := ih _ l
    obtain ⟨h', hcall, st'⟩ := popMsg_spec st hid hroom
    exact ⟨h', hcall, _, st', fun h => absurd h hL⟩
  | @free cs mq id c l hid hroom hL =>
    obtain ⟨nodes, st, ht⟩ := ih _ l
    obtain ⟨h', hcall, st', hmsgs⟩ := freeMqueue_spec st hid hroom
    refine ⟨h', hcall, _, st', fun hl x hx => ?_⟩
    obtain ⟨hx, hgone⟩ := hmsgs x hx
    obtain ⟨j, hj⟩ := ht hl x hx
    have hji : j ≠ id := by
      rintro rfl
      exact hgone (hL hl) hj
    exact ⟨j, by rwa [Function.update_of_ne hji]⟩

theorem Logged.stored (l : Logged R L cs mq) (r : Replay cs h) :
    ∃ nodes, Stored h mq nodes ∧ (L → Tight h nodes) := by
  induction r generalizing mq with
  | start =>
    cases l
    exact ⟨_, boot_stored, nofun⟩
  | call r hf hcall ih =>
    obtain ⟨h', hcall', hst⟩ := l.next (fun _ => ih) hf
    rw [hcall] at hcall'
    cases hcall'
    exact hst

theorem Logged.no_fault (l : Logged R L (c :: cs) mq) (r : Replay cs h) (hf : h.Fresh a) :
    ∃ h', h.call a c = .ok h' := by
  obtain ⟨h', hcall, _⟩ := l.next (fun _ l' => l'.stored r) hf
  exact ⟨h', hcall⟩

theorem Logged.earlier {new : List MsgCall} (l : Logged R L (new ++ cs) mq) :
    ∃ mq', Logged R L cs mq' := by
  induction new generalizing mq with
  | nil => exact ⟨mq, l⟩
  | cons c new ih =>
    rw [List.cons_append] at l
    cases l with
    | alloc l _ _ => exact ih l
    | add l _ _ => exact ih l
    | pop l _ _ _ => exact ih l
    | free l _ _ _ => exact ih l

end
end DominOS.MsgHeap
