import DominOS.Fallible
import DominOS.PageAllocator

/-! The free lists of the allocator as lists of addresses, and the invariant that
ties them, the live blocks and the activated regions to one tiling. -/
namespace DominOS.PageAllocator
open BlockTiling Fallible

theorem store_ok {s t : FreeArea} {a v : Nat} (h : s.store a v = .ok t) :
    t = { s with mem := Function.update s.mem a v } := by
  unfold FreeArea.store at h
  split at h
  · cases h
  · exact (Except.ok.inj h).symm

/-- The addresses linked from `a` through the first words of the blocks up to NULL. -/
def Chain (mem : Nat → Nat) : Nat → List Nat → Prop
  | a, [] => a = 0
  | a, b :: l => a = b ∧ b ≠ 0 ∧ Chain mem (mem b) l

theorem Chain.single {mem : Nat → Nat} {a : Nat} (h0 : a ≠ 0) (h : mem a = 0) :
    Chain mem a [a] := ⟨rfl, h0, h⟩

theorem Chain.congr {mem mem' : Nat → Nat} {a : Nat} {l : List Nat}
    (hm : ∀ b ∈ l, mem' b = mem b) (h : Chain mem a l) : Chain mem' a l := by
  induction l generalizing a with
  | nil => exact h
  | cons b l ih =>
    obtain ⟨rfl, h0, ht⟩ := h
    refine ⟨rfl, h0, ?_⟩
    rw [hm a (by simp)]
    exact ih (fun c hc => hm c (List.mem_cons_of_mem _ hc)) ht

theorem Chain.update {mem : Nat → Nat} {a x v : Nat} {l : List Nat} (hx : x ∉ l)
    (h : Chain mem a l) : Chain (Function.update mem x v) a l := by
  refine h.congr fun b hb => ?_
  have hne : b ≠ x := fun he => hx (he ▸ hb)
  simp [hne]

theorem Chain.eq_nil {mem : Nat → Nat} {l : List Nat} (h : Chain mem 0 l) : l = [] := by
  cases l with
  | nil => rfl
  | cons b l => exact absurd h.1.symm h.2.1

theorem Chain.eq_cons {mem : Nat → Nat} {a : Nat} {l : List Nat} (ha : a ≠ 0)
    (h : Chain mem a l) : ∃ r, l = a :: r ∧ Chain mem (mem a) r := by
  cases l with
  | nil => exact absurd h ha
  | cons b l =>
    obtain ⟨rfl, _, ht⟩ := h
    exact ⟨l, rfl, ht⟩

theorem Chain.unlink {mem : Nat → Nat} {a p c : Nat} {front rest : List Nat}
    (hn : (front ++ p :: c :: rest).Nodup) (h : Chain mem a (front ++ p :: c :: rest)) :
    Chain (Function.update mem p (mem c)) a (front ++ p :: rest) := by
  induction front generalizing a with
  | nil =>
    obtain ⟨rfl, h0, rfl, h1, ht⟩ := h
    refine ⟨rfl, h0, ?_⟩
    have hp : a ∉ rest := by
      intro hm
      exact (List.nodup_cons.mp hn).1 (List.mem_cons_of_mem _ hm)
    rw [Function.update_self]
    exact ht.update hp
  | cons b front ih =>
    obtain ⟨rfl, h0, ht⟩ := h
    have hnc := List.nodup_cons.mp hn
    refine ⟨rfl, h0, ?_⟩
    have hne : a ≠ p := by
      intro he
      exact hnc.1 (by simp [he])
    rw [Function.update_of_ne hne]
    exact ih hnc.2 ht

def freeBlocks (n : Nat) (free : Nat → List Nat) : List Block :=
  (List.range n).flatMap fun i => (free i).map fun a => ⟨a, i + shift⟩

theorem freeBlocks_succ (n : Nat) (free : Nat → List Nat) :
    freeBlocks (n + 1) free = freeBlocks n free ++ (free n).map (fun a => ⟨a, n + shift⟩) := by
  simp [freeBlocks, List.range_succ]

theorem mem_freeBlocks {n : Nat} {free : Nat → List Nat} {b : Block} :
    b ∈ freeBlocks n free ↔ ∃ i < n, ∃ a ∈ free i, b = ⟨a, i + shift⟩ := by
  simp [freeBlocks, eq_comm]

theorem freeBlocks_update_ge (n : Nat) (free : Nat → List Nat) {i : Nat} (hi : n ≤ i)
    (l : List Nat) : freeBlocks n (Function.update free i l) = freeBlocks n free := by
  induction n with
  | zero => rfl
  | succ n ih => rw [freeBlocks_succ, freeBlocks_succ, ih (by omega), Function.update_of_ne (by omega)]

theorem freeBlocks_take {n i a : Nat} {free : Nat → List Nat} {l : List Nat} (hi : i < n)
    (h : (free i).Perm (a :: l)) :
    (freeBlocks n free).Perm (⟨a, i + shift⟩ :: freeBlocks n (Function.update free i l)) := by
  induction n with
  | zero => omega
  | succ n ih =>
    rw [freeBlocks_succ, freeBlocks_succ]
    rcases Nat.lt_succ_iff_lt_or_eq.mp hi with hlt | rfl
    · rw [Function.update_of_ne (by omega)]
      exact (ih hlt).append_right _
    · rw [freeBlocks_update_ge _ _ (Nat.le_refl _), Function.update_self]
      have hm := h.map (fun a => (⟨a, i + shift⟩ : Block))
      exact (hm.append_left _).trans List.perm_middle

def region (nb : Nat) (x : Nat) : Prop := firstAddress ≤ x ∧ x < firstAddress + nb * firstAddress

/-- The free lists and the blocks held outside them tile the activated regions,
and no free block has its buddy free. -/
structure Shape (free : Nat → List Nat) (held : List Block) (nb : Nat) : Prop where
  tiling : Tiling (freeBlocks mapSize free ++ held) (region nb)
  bytes : total (freeBlocks mapSize free ++ held) = nb * firstAddress
  regions : nb ≤ 3
  buddies : ∀ i < mapSize, ∀ a ∈ free i, (⟨a, i + shift⟩ : Block).buddy.base ∉ free i

def Linked (s : FreeArea) (free : Nat → List Nat) : Prop :=
  ∀ i < mapSize, Chain s.mem (s.map i) (free i)

namespace Shape
variable {free : Nat → List Nat} {held : List Block} {nb i a : Nat} {b : Block}

theorem mem_free (h : i < mapSize) (ha : a ∈ free i) :
    (⟨a, i + shift⟩ : Block) ∈ freeBlocks mapSize free ++ held :=
  List.mem_append_left _ (mem_freeBlocks.mpr ⟨i, h, a, ha, rfl⟩)

theorem free_nodup (h : Shape free held nb) (hi : i < mapSize) : (free i).Nodup := by
  have hp := (List.pairwise_append.mp h.tiling.apart).1
  have hsub : ((free i).map fun a => (⟨a, i + shift⟩ : Block)).Sublist (freeBlocks mapSize free) := by
    rw [freeBlocks, List.flatMap_def]
    exact List.sublist_flatten_of_mem (List.mem_map.mpr ⟨i, List.mem_range.mpr hi, rfl⟩)
  refine (List.pairwise_map.mp (hp.sublist hsub)).imp ?_
  intro x y hxy he
  subst he
  exact hxy.not_covers (Block.covers_base _) (Block.covers_base _)

theorem held_not_covers (h : Shape free held nb) (hb : b ∈ held) (hi : i < mapSize)
    (ha : a ∈ free i) : ¬ b.Covers a := by
  have hp := (List.pairwise_append.mp h.tiling.apart).2.2
  have hf : (⟨a, i + shift⟩ : Block) ∈ freeBlocks mapSize free :=
    mem_freeBlocks.mpr ⟨i, hi, a, ha, rfl⟩
  exact (hp _ hf b hb).not_covers (Block.covers_base _)

theorem free_inj (h : Shape free held nb) {j : Nat} (hi : i < mapSize) (hj : j < mapSize)
    (ha : a ∈ free i) (hb : a ∈ free j) : i = j := by
  by_contra hne
  have hap := h.tiling.apart_of_ne (mem_free hi ha) (mem_free hj hb)
    (by intro he; injection he; omega)
  exact hap.not_covers (Block.covers_base _) (Block.covers_base _)

theorem base_region (h : Shape free held nb) (hb : b ∈ freeBlocks mapSize free ++ held) :
    region nb b.base := (h.tiling.cover _).mpr ⟨b, hb, b.covers_base⟩

theorem perm_held (h : Shape free held nb) {held' : List Block} (hp : held.Perm held') :
    Shape free held' nb where
  tiling := h.tiling.perm (hp.append_left _)
  bytes := (total_perm (hp.append_left _)).symm.trans h.bytes
  regions := h.regions
  buddies := h.buddies

theorem take (h : Shape free held nb) (hi : i < mapSize) {l : List Nat}
    (hl : (free i).Perm (a :: l)) :
    Shape (Function.update free i l) (⟨a, i + shift⟩ :: held) nb := by
  have hp : (freeBlocks mapSize free ++ held).Perm
      (freeBlocks mapSize (Function.update free i l) ++ ⟨a, i + shift⟩ :: held) :=
    ((freeBlocks_take hi hl).append_right held).trans List.perm_middle.symm
  refine ⟨h.tiling.perm hp, (total_perm hp).symm.trans h.bytes, h.regions, ?_⟩
  intro j hj x hx hb
  by_cases he : j = i
  · subst he
    rw [Function.update_self] at hx hb
    exact h.buddies j hj x (hl.mem_iff.mpr (List.mem_cons_of_mem _ hx))
      (hl.mem_iff.mpr (List.mem_cons_of_mem _ hb))
  · rw [Function.update_of_ne he] at hx hb
    exact h.buddies j hj x hx hb

theorem put (h : Shape free (⟨a, i + shift⟩ :: held) nb) (hi : i < mapSize)
    (hbuddy : (⟨a, i + shift⟩ : Block).buddy.base ∉ free i) :
    Shape (Function.update free i (a :: free i)) held nb := by
  have hback : Function.update (Function.update free i (a :: free i)) i (free i) = free := by simp
  have hl : (freeBlocks mapSize (Function.update free i (a :: free i))).Perm
      (⟨a, i + shift⟩ :: freeBlocks mapSize free) := by
    have h1 : (Function.update free i (a :: free i) i).Perm (a :: free i) := by simp
    simpa only [hback] using freeBlocks_take hi h1
  have hp : (freeBlocks mapSize free ++ ⟨a, i + shift⟩ :: held).Perm
      (freeBlocks mapSize (Function.update free i (a :: free i)) ++ held) :=
    List.perm_middle.trans (hl.symm.append_right held)
  refine ⟨h.tiling.perm hp, (total_perm hp).symm.trans h.bytes, h.regions, ?_⟩
  have hself : (⟨a, i + shift⟩ : Block).buddy.base ≠ a := by
    have hal := h.tiling.aligned ⟨a, i + shift⟩ (by simp)
    intro he
    have hap := buddy_apart hal
    have hs := Block.size_pos ⟨a, i + shift⟩
    have hbs := buddy_size ⟨a, i + shift⟩
    simp only [Block.Apart] at hap
    omega
  intro j hj x hx hb
  by_cases he : j = i
  · subst he
    rw [Function.update_self] at hx hb
    rcases List.mem_cons.mp hx with rfl | hx
    · rcases List.mem_cons.mp hb with hb | hb
      · exact hself hb
      · exact hbuddy hb
    · rcases List.mem_cons.mp hb with hb | hb
      · have hx' : (⟨a, j + shift⟩ : Block).buddy.base = x := by
          rw [← hb]
          exact congrArg Block.base (buddy_buddy ⟨x, j + shift⟩)
        exact hbuddy (hx' ▸ hx)
      · exact h.buddies j hj x hx hb
  · rw [Function.update_of_ne he] at hx hb
    exact h.buddies j hj x hx hb

theorem halve {k : Nat} (h : Shape free (⟨a, k + 1⟩ :: held) nb) :
    Shape free ((⟨a, k⟩ : Block).buddy :: ⟨a, k⟩ :: held) nb := by
  have ht := h.tiling.perm List.perm_middle
  have hj := join_lower (ht.aligned ⟨a, k + 1⟩ (by simp))
  have hs : (⟨a, k + 1⟩ : Block).size = (⟨a, k⟩ : Block).size + (⟨a, k⟩ : Block).buddy.size := by
    rw [← hj.2, join_size, buddy_size]
  have hp : ((⟨a, k⟩ : Block) :: (⟨a, k⟩ : Block).buddy :: (freeBlocks mapSize free ++ held)).Perm
      (freeBlocks mapSize free ++ (⟨a, k⟩ : Block).buddy :: ⟨a, k⟩ :: held) :=
    (List.Perm.swap _ _ _).trans
      (((List.perm_middle.symm).cons _).trans List.perm_middle.symm)
  refine ⟨?_, ?_, h.regions, h.buddies⟩
  · rw [← hj.2] at ht
    exact (ht.split hj.1).perm hp
  · have hb := h.bytes
    rw [total_perm List.perm_middle, total_cons, hs] at hb
    rw [← total_perm hp, total_cons, total_cons]
    omega

theorem rejoin (h : Shape free (b.buddy :: b :: held) nb) : Shape free (b.join :: held) nb := by
  have hp : (freeBlocks mapSize free ++ b.buddy :: b :: held).Perm
      (b :: b.buddy :: (freeBlocks mapSize free ++ held)) :=
    (List.perm_middle.trans ((List.perm_middle).cons _)).trans (List.Perm.swap _ _ _)
  refine ⟨(h.tiling.perm hp).merge.perm List.perm_middle.symm, ?_, h.regions, h.buddies⟩
  have hb := h.bytes
  rw [total_perm hp, total_cons, total_cons] at hb
  rw [total_perm List.perm_middle, total_cons, join_size]
  have := buddy_size b
  omega

theorem held_aligned (h : Shape free held nb) (hb : b ∈ held) : b.Aligned :=
  h.tiling.aligned b (List.mem_append_right _ hb)

theorem held_region (h : Shape free held nb) (hb : b ∈ held) {x : Nat} (hx : b.Covers x) :
    region nb x := (h.tiling.cover x).mpr ⟨b, List.mem_append_right _ hb, hx⟩
end Shape
end DominOS.PageAllocator
