import Mathlib.Data.List.Rotate
import Mathlib.Data.List.Sort
import Mathlib.Data.Nat.Periodic

/-! Taking turns around a ring: a list that is rotated by one at each turn, and how often
each of its elements is in front. -/
namespace DominOS.Rotation
open Finset Function
universe u
variable {α : Type u} {ring : List α} {g : ℕ → List α} {n i a r : ℕ} {q : α}

theorem rotated (h : ∀ i < n, g (i + 1) = (g i).rotate 1) (hi : i ≤ n) :
    g i = (g 0).rotate i := by
  induction i with
  | zero => simp
  | succ i ih =>
    calc g (i + 1) = (g i).rotate 1 := h i (by omega)
      _ = ((g 0).rotate i).rotate 1 := by rw [ih (by omega)]
      _ = (g 0).rotate (i + 1) := List.rotate_rotate _ _ _

theorem head_rotate (h : 0 < ring.length) : (ring.rotate i).head? = ring[i % ring.length]? := by
  rw [← List.rotate_mod]
  exact List.head?_rotate (Nat.mod_lt _ h)

theorem periodic_rounds (r : ℕ) :
    Periodic (fun i => ring[i % ring.length]? = some q) (ring.length * r) := by
  intro i
  simp

section Count
variable [DecidableEq α]

theorem count_round (hn : ring.Nodup) (hq : q ∈ ring) :
    ring.length.count (fun i => ring[i % ring.length]? = some q) = 1 := by
  obtain ⟨j, hj, rfl⟩ := List.getElem_of_mem hq
  rw [Nat.count_eq_card_filter_range, card_eq_one]
  refine ⟨j, ?_⟩
  ext i
  simp only [mem_filter, mem_range, mem_singleton]
  constructor
  · intro ⟨hi, he⟩
    rw [Nat.mod_eq_of_lt hi, List.getElem?_eq_getElem hi] at he
    exact hn.getElem_inj_iff.mp (Option.some.inj he)
  · intro he
    rw [he, Nat.mod_eq_of_lt hj]
    exact ⟨hj, List.getElem?_eq_getElem hj⟩

theorem count_rounds (hn : ring.Nodup) (hq : q ∈ ring) (r : ℕ) :
    (ring.length * r).count (fun i => ring[i % ring.length]? = some q) = r := by
  induction r with
  | zero => simp
  | succ r ih =>
    have hshift (j : ℕ) : (ring[(ring.length * r + j) % ring.length]? = some q) =
        (ring[j % ring.length]? = some q) := by
      rw [Nat.add_comm]
      exact periodic_rounds r j
    rw [Nat.mul_succ, Nat.count_add]
    simp only [hshift]
    rw [ih, count_round hn hq]

theorem card_rounds (hn : ring.Nodup) (hq : q ∈ ring) :
    ((Ico a (a + ring.length * r)).filter fun i => ring[i % ring.length]? = some q).card = r := by
  rw [Nat.filter_Ico_card_eq_of_periodic _ _ _ (periodic_rounds r)]
  exact count_rounds hn hq r
end Count

section Requeue
variable {K : Type*} [LinearOrder K] {key : α → K} {l : List α} {c new : α}

theorem filter_orderedInsert : (l.orderedInsert (fun a b => key a ≤ key b) c).filter
      (fun b => key b = key c) = c :: l.filter fun b => key b = key c := by
  induction l with
  | nil => simp
  | cons b l ih =>
    rw [List.orderedInsert_cons]
    split
    · simp
    · rename_i hlt
      have hne : key b ≠ key c := ne_of_lt (not_le.mp hlt)
      simp [hne, ih]

/-- A ring whose front is `c` and whose rest waits in `l`, the next one last: `c` goes into `l`
and the next one comes out. -/
theorem rotate_requeue [DecidableEq α] (hn : l.Nodup) (hc : c ∉ l) (hlast : l.getLast? = some new)
    (hkey : key new = key c) :
    new :: (((l.orderedInsert (fun a b => key a ≤ key b) c).erase new).filter
      fun b => key b = key c).reverse = (c :: (l.filter fun b => key b = key c).reverse).rotate 1 := by
  obtain ⟨front, rfl⟩ := List.getLast?_eq_some_iff.mp hlast
  obtain ⟨hcf, hcn⟩ : c ∉ front ∧ c ≠ new := by simpa using hc
  have hnew : new ∉ front := fun hm => (List.nodup_append.mp hn).2.2 new hm new (by simp) rfl
  have hins : ((front ++ [new]).orderedInsert (fun a b => key a ≤ key b) c).Nodup :=
    (List.perm_orderedInsert _ c _).nodup_iff.mpr (List.nodup_cons.mpr ⟨hc, hn⟩)
  have hsplit : (front ++ [new]).filter (fun b => key b = key c) =
      front.filter (fun b => key b = key c) ++ [new] := by
    rw [List.filter_append]
    simp [hkey]
  rw [hins.erase_eq_filter, List.filter_comm, filter_orderedInsert, hsplit]
  have hkeep : (front.filter fun b => key b = key c).filter (fun b => b != new) =
      front.filter fun b => key b = key c := by
    refine List.filter_eq_self.mpr fun b hb => ?_
    have hne : b ≠ new := fun he => hnew (he ▸ (List.mem_filter.mp hb).1)
    simpa using hne
  simp [hcn, hkeep]
end Requeue

end DominOS.Rotation
