import DominOS.ProcessState

/-! The blocks of msg.c: nodes chained from `head` to `tail`, as `mem_alloc` gives them
and `mem_free` takes them back. -/
namespace DominOS.MsgHeap
open Process Fallible

abbrev Addr := Nat

structure Node where
  next : Addr
  data : Int
deriving DecidableEq

structure Block where
  head : Addr
  tail : Addr
  size : Nat
  count : Nat
deriving DecidableEq

/-- The blocks that were allocated and not freed since, and the table `mqueues`. -/
structure Heap where
  msgs : Addr → Option Node
  blocks : Addr → Option Block
  mqueues : Nat → Addr

/-- An access to, or a `mem_free` of, a block that is not allocated. -/
inductive HeapFault where
  | invalid | endless
deriving DecidableEq

namespace Heap

def boot : Heap := ⟨fun _ => none, fun _ => none, fun _ => 0⟩

def msg (h : Heap) (a : Addr) : Except HeapFault Node :=
  match h.msgs a with
  | some n => .ok n
  | none => .error .invalid

def block (h : Heap) (a : Addr) : Except HeapFault Block :=
  match h.blocks a with
  | some b => .ok b
  | none => .error .invalid

def setMsg (h : Heap) (a : Addr) (n : Node) : Heap :=
  { h with msgs := Function.update h.msgs a (some n) }

def setBlock (h : Heap) (a : Addr) (b : Block) : Heap :=
  { h with blocks := Function.update h.blocks a (some b) }

def freeMsg (a : Addr) (h : Heap) : Except HeapFault Heap := do
  let _ ← h.msg a
  .ok { h with msgs := Function.update h.msgs a none }

/-- `alloc_mqueue`, where `mem_alloc` returns the zeroed block `a`. -/
def allocMqueue (a : Addr) (id count : Nat) (h : Heap) : Heap :=
  { h.setBlock a ⟨0, 0, count, 0⟩ with mqueues := Function.update h.mqueues id a }

/-- `__add_msg`, where `mem_alloc` returns the zeroed block `a`. -/
def addMsg (a : Addr) (id : Nat) (data : Int) (h : Heap) : Except HeapFault Heap := do
  let b ← h.block (h.mqueues id)
  let h := h.setMsg a ⟨0, data⟩
  let count := (b.count + 1) % 2 ^ 32
  if b.count = 0 then
    .ok (h.setBlock (h.mqueues id) { b with head := a, tail := a, count := count })
  else do
    let last ← h.msg b.tail
    .ok ((h.setMsg b.tail { last with next := a }).setBlock (h.mqueues id)
      { b with tail := a, count := count })

def popMsg (id : Nat) (h : Heap) : Except HeapFault Heap := do
  let b ← h.block (h.mqueues id)
  let first ← h.msg b.head
  .ok (h.setBlock (h.mqueues id)
    { b with head := first.next, count := (b.count + (2 ^ 32 - 1)) % 2 ^ 32 })

/-- The loop of `free_mqueue`. Each turn frees a block, so there are no more turns than
addresses. -/
def freeNodes (turns : Nat) (msgPtr next : Addr) (h : Heap) : Except HeapFault Heap :=
  if next = 0 then .ok h
  else match turns with
    | 0 => .error .endless
    | turns + 1 => do
      let next := (← h.msg msgPtr).next
      let h ← h.freeMsg msgPtr
      freeNodes turns next next h

def freeMqueue (id : Nat) (h : Heap) : Except HeapFault Heap := do
  let b ← h.block (h.mqueues id)
  let h ← (if b.count = 0 then .ok h else do
    let first ← h.msg b.head
    freeNodes (2 ^ 32) b.head first.next h)
  .ok { h with
    blocks := Function.update h.blocks (h.mqueues id) none
    mqueues := Function.update h.mqueues id 0 }

def call (a : Addr) (c : MsgCall) (h : Heap) : Except HeapFault Heap :=
  match c with
  | .alloc id count => .ok (h.allocMqueue a id count)
  | .add id data => h.addMsg a id data
  | .pop id => h.popMsg id
  | .free id => h.freeMqueue id

/-- `mem_alloc` may return `a`. -/
def Fresh (h : Heap) (a : Addr) : Prop := a ≠ 0 ∧ h.msgs a = none ∧ h.blocks a = none

end Heap

section Chain
variable {msgs msgs' : Addr → Option Node} {p a t : Addr} {d e : Int} {n : Node}
  {nodes front : List (Addr × Int)}

/-- The nodes from `p` on, with their data, up to NULL. -/
def Chain (msgs : Addr → Option Node) : Addr → List (Addr × Int) → Prop
  | p, [] => p = 0
  | p, (a, d) :: rest => p = a ∧ a ≠ 0 ∧ ∃ n, msgs a = some n ∧ n.data = d ∧ Chain msgs n.next rest

def addresses (nodes : List (Addr × Int)) : List Addr := nodes.map Prod.fst

@[simp] theorem addresses_nil : addresses [] = [] := rfl

@[simp] theorem addresses_cons : addresses ((a, d) :: nodes) = a :: addresses nodes := rfl

@[simp] theorem addresses_append {ms : List (Addr × Int)} :
    addresses (nodes ++ ms) = addresses nodes ++ addresses ms := List.map_append

theorem Chain.congr (hc : Chain msgs p nodes) (hm : ∀ a ∈ addresses nodes, msgs' a = msgs a) :
    Chain msgs' p nodes := by
  induction nodes generalizing p with
  | nil => exact hc
  | cons x rest ih =>
    obtain ⟨a, d⟩ := x
    obtain ⟨rfl, h0, n, hn, hd, hc⟩ := hc
    refine ⟨rfl, h0, n, ?_, hd, ih hc fun b hb => hm b (List.mem_cons_of_mem _ hb)⟩
    rw [hm p List.mem_cons_self, hn]

theorem Chain.live (hc : Chain msgs p nodes) (ha : a ∈ addresses nodes) :
    a ≠ 0 ∧ (msgs a).isSome := by
  induction nodes generalizing p with
  | nil => cases ha
  | cons x rest ih =>
    obtain ⟨b, d⟩ := x
    obtain ⟨_, h0, n, hn, _, hc⟩ := hc
    rcases List.mem_cons.mp ha with rfl | ha
    · exact ⟨h0, by rw [hn]; rfl⟩
    · exact ih hc ha

theorem Chain.append (hc : Chain msgs p (front ++ [(t, d)])) (ht : msgs t = some n)
    (hnd : (addresses (front ++ [(t, d)])).Nodup) (ha : a ≠ 0)
    (hnew : a ∉ addresses (front ++ [(t, d)])) :
    Chain (Function.update (Function.update msgs a (some ⟨0, e⟩)) t (some { n with next := a })) p
      (front ++ [(t, d), (a, e)]) := by
  induction front generalizing p with
  | nil =>
    obtain ⟨rfl, h0, m, hm, hd, -⟩ := hc
    rw [ht] at hm
    cases hm
    have hne : a ≠ p := by simpa using hnew
    refine ⟨rfl, h0, _, Function.update_self _ _ _, hd, rfl, ha, ⟨0, e⟩, ?_, rfl, rfl⟩
    rw [Function.update_of_ne hne, Function.update_self]
  | cons x front ih =>
    obtain ⟨b, c⟩ := x
    obtain ⟨rfl, h0, m, hm, hd, hc⟩ := hc
    rw [List.cons_append, addresses_cons] at hnd hnew
    obtain ⟨hb, hnd⟩ := List.nodup_cons.mp hnd
    have hbt : p ≠ t := by
      rintro rfl
      exact hb (by simp)
    have hba : p ≠ a := by
      rintro rfl
      exact hnew List.mem_cons_self
    refine ⟨rfl, h0, m, ?_, hd, ih hc hnd fun h => hnew (List.mem_cons_of_mem _ h)⟩
    rw [Function.update_of_ne hbt, Function.update_of_ne hba, hm]

end Chain

theorem msg_ok {h : Heap} {a : Addr} {n : Node} (hn : h.msgs a = some n) : h.msg a = .ok n := by
  unfold Heap.msg
  rw [hn]

theorem block_ok {h : Heap} {a : Addr} {b : Block} (hb : h.blocks a = some b) :
    h.block a = .ok b := by
  unfold Heap.block
  rw [hb]

theorem setMsg_of_ne {h : Heap} {a x : Addr} {n : Node} (hx : x ≠ a) :
    (h.setMsg a n).msgs x = h.msgs x := Function.update_of_ne hx _ _

theorem freeNodes_eq {turns : Nat} {p : Addr} {nodes : List (Addr × Int)} {h : Heap}
    (hc : Chain h.msgs p nodes) (hnd : (addresses nodes).Nodup) (ht : nodes.length ≤ turns) :
    h.freeNodes turns p p =
      .ok { h with msgs := fun a => if a ∈ addresses nodes then none else h.msgs a } := by
  induction nodes generalizing turns p h with
  | nil =>
    obtain rfl : p = 0 := hc
    unfold Heap.freeNodes
    simp
  | cons x rest ih =>
    obtain ⟨a, d⟩ := x
    obtain ⟨rfl, h0, n, hn, -, hc⟩ := hc
    rw [addresses_cons, List.nodup_cons] at hnd
    obtain ⟨hp, hnd⟩ := hnd
    cases turns with
    | zero => exact absurd ht (by simp)
    | succ turns =>
      have hfree : h.freeMsg p = .ok { h with msgs := Function.update h.msgs p none } := by
        unfold Heap.freeMsg
        rw [msg_ok hn, ok_bind]
      have hrest : Chain (Function.update h.msgs p none) n.next rest := by
        refine hc.congr fun b hb => Function.update_of_ne ?_ _ _
        rintro rfl
        exact hp hb
      unfold Heap.freeNodes
      simp only [h0, if_false, msg_ok hn, ok_bind, hfree]
      rw [ih hrest hnd (Nat.le_of_succ_le_succ ht)]
      refine congrArg (fun m => Except.ok { h with msgs := m }) (funext fun b => ?_)
      by_cases hb : b = p
      · simp [hb, hp]
      · simp [hb]

/-- The loop of `free_mqueue` looks ahead: it frees every node, but a single one. -/
theorem freeNodes_head {p : Addr} {n : Node} {nodes : List (Addr × Int)} {turns : Nat} {h : Heap}
    (hc : Chain h.msgs p nodes) (hn : h.msgs p = some n) (hnd : (addresses nodes).Nodup)
    (hne : nodes ≠ []) (ht : nodes.length ≤ turns) :
    h.freeNodes turns p n.next = .ok { h with
      msgs := fun a => if a ∈ addresses nodes ∧ nodes.length ≠ 1 then none else h.msgs a } := by
  have hlen : nodes.length = 1 ↔ n.next = 0 := by
    cases nodes with
    | nil => exact absurd rfl hne
    | cons x rest =>
      obtain ⟨a, d⟩ := x
      obtain ⟨rfl, -, m, hm, -, hc⟩ := hc
      rw [hn] at hm
      cases hm
      cases rest with
      | nil => exact ⟨fun _ => hc, fun _ => rfl⟩
      | cons y rest =>
        obtain ⟨b, e⟩ := y
        obtain ⟨hb, h0, _⟩ := hc
        simp [hb, h0]
  by_cases h0 : n.next = 0
  · unfold Heap.freeNodes
    simp [h0, hlen.mpr h0]
  · have hp : p ≠ 0 := by
      cases nodes with
      | nil => exact absurd rfl hne
      | cons x rest => exact fun he => hc.2.1 (hc.1 ▸ he)
    have hsame : h.freeNodes turns p n.next = h.freeNodes turns p p := by
      unfold Heap.freeNodes
      simp [h0, hp]
    rw [hsame, freeNodes_eq hc hnd ht]
    have hl : nodes.length ≠ 1 := fun h => h0 (hlen.mp h)
    simp [hl]

end DominOS.MsgHeap
